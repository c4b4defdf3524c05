import Hqq.Machine
import Hqq.Slots
import Mathlib.Data.Finset.Card

/-!
# Park groups

`internal/mpmc/waitgroup.go`. What runs under one mutex is one step. A wake-up channel has room for
one value: a send on a full one would block its leader for good.
-/

namespace Hqq.Park

structure Group (T : Type) where
  refs : Nat := 0
  /-- The flag, and who set it. -/
  leader : Option T := none
  wakes : List Nat := []

/-- Where an operation is. It holds its group from its first `park` until it ends. -/
inductive Pc (W : Type)
  | out
  | idle (w : W) (g : Nat)
  | lead (w : W) (g : Nat)
  /-- In the `select` of `follow`. -/
  | follow (w : W) (g ch : Nat)
  /-- Before `leave`. `got` says that the `select` took the value. -/
  | leave (w : W) (g ch : Nat) (got : Bool)
  | drain (w : W) (g ch : Nat)
  | put (w : W) (g ch : Nat)

structure State (T W : Type) where
  m : W → Option Nat
  free : List Nat
  /-- A group that was never allocated is zero. -/
  grp : Nat → Group T
  wakeChans : List Nat
  full : Nat → Bool
  -- Groups and channels allocated so far.
  groups : Nat
  chans : Nat
  pc : T → Pc W

inductive Act (W : Type)
  | acquire (w : W)
  /-- `pooled` is the channel that `wakeChans.Get` finds, if any. -/
  | enter (pooled : Option Nat)
  | exitLeader
  | wake
  | cancel
  | leave
  | drain
  | put
  | release

def maxFreeParkGroups : Nat := 64

variable {T W : Type}

namespace State

variable [DecidableEq T] [DecidableEq W]

def goto (s : State T W) (t : T) (pc : Pc W) : State T W := { s with pc := Function.update s.pc t pc }

def setGroup (s : State T W) (g : Nat) (x : Group T) : State T W :=
  { s with grp := Function.update s.grp g x }

def setFull (s : State T W) (ch : Nat) (b : Bool) : State T W :=
  { s with full := Function.update s.full ch b }

def lookup (s : State T W) (w : W) : State T W × Nat :=
  match s.m w with
  | some g => (s, g)
  | none => match s.free with
    | g :: rest => ({ s with free := rest, m := Function.update s.m w (some g) }, g)
    | [] =>
      ({ s with groups := s.groups + 1, m := Function.update s.m w (some s.groups) }, s.groups)

def acquireParkGroup (s : State T W) (t : T) (w : W) : State T W :=
  let (s, g) := s.lookup w
  (s.setGroup g { s.grp g with refs := (s.grp g).refs + 1 }).goto t (.idle w g)

def releaseParkGroup (s : State T W) (w : W) (g : Nat) : State T W :=
  let refs := (s.grp g).refs - 1
  let s := s.setGroup g { s.grp g with refs := refs }
  if refs = 0 then
    { s with
      m := Function.update s.m w none
      free := if s.free.length < maxFreeParkGroups then g :: s.free else s.free }
  else s

def getChan (s : State T W) : Option Nat → Option (State T W × Nat)
  | some ch =>
    if ch ∈ s.wakeChans then some ({ s with wakeChans := s.wakeChans.erase ch }, ch) else none
  | none => some ({ s.setFull s.chans false with chans := s.chans + 1 }, s.chans)

def enter (s : State T W) (t : T) (w : W) (g : Nat) (pooled : Option Nat) : Option (State T W) :=
  if (s.grp g).leader = none then
    some ((s.setGroup g { s.grp g with leader := some t }).goto t (.lead w g))
  else do
    let (s, ch) ← s.getChan pooled
    some ((s.setGroup g { s.grp g with wakes := (s.grp g).wakes ++ [ch] }).goto t (.follow w g ch))

def send (s : State T W) (ch : Nat) : Option (State T W) :=
  if s.full ch then none else some (s.setFull ch true)

def exitLeader (s : State T W) (g : Nat) : Option (State T W) := do
  let s ← (s.grp g).wakes.foldlM send s
  some (s.setGroup g { s.grp g with leader := none, wakes := [] })

def leave (s : State T W) (t : T) (w : W) (g ch : Nat) : State T W :=
  if ch ∈ (s.grp g).wakes then
    (s.setGroup g { s.grp g with wakes := swapRemove (s.grp g).wakes ch }).goto t (.put w g ch)
  else s.goto t (.drain w g ch)

def step (s : State T W) (a : T × Act W) : Option (State T W) :=
  match a.2, s.pc a.1 with
  | .acquire w, .out => some (s.acquireParkGroup a.1 w)
  | .enter pooled, .idle w g => s.enter a.1 w g pooled
  | .exitLeader, .lead w g => (s.exitLeader g).map (·.goto a.1 (.idle w g))
  | .wake, .follow w g ch =>
    if s.full ch then some ((s.setFull ch false).goto a.1 (.leave w g ch true)) else none
  -- The context, `Closed` or the timer.
  | .cancel, .follow w g ch => some (s.goto a.1 (.leave w g ch false))
  | .leave, .leave w g ch _ => some (s.leave a.1 w g ch)
  | .drain, .drain w g ch => some ((s.setFull ch false).goto a.1 (.put w g ch))
  | .put, .put w g ch => some ({ s with wakeChans := ch :: s.wakeChans }.goto a.1 (.idle w g))
  | .release, .idle w g => some ((s.releaseParkGroup w g).goto a.1 .out)
  | _, _ => none

end State

def machine (T W : Type) [DecidableEq T] [DecidableEq W] : Machine (State T W) (T × Act W) where
  init := ⟨fun _ => none, [], fun _ => {}, [], fun _ => false, 0, 0, fun _ => .out⟩
  step := State.step

/-! ## The invariant -/

namespace Pc

@[grind] def group : Pc W → Option (W × Nat)
  | .out => none
  | .idle w g | .lead w g | .follow w g _ | .leave w g _ _ | .drain w g _ | .put w g _ => some (w, g)

@[grind] def chan : Pc W → Option Nat
  | .follow _ _ ch | .leave _ _ ch _ | .drain _ _ ch | .put _ _ ch => some ch
  | _ => none

@[grind] def leads : Pc W → Option Nat
  | .lead _ g => some g
  | _ => none

/-- The leader has to release the operation, or did so and the value is in its channel. -/
@[grind] def due : Pc W → Bool
  | .follow _ _ _ | .leave _ _ _ false => true
  | _ => false

@[grind] def drains : Pc W → Bool
  | .drain _ _ _ => true
  | _ => false

end Pc

def Counts {α : Type} (f : T → α) (p : α → Prop) (n : Nat) : Prop :=
  ∃ F : Finset T, F.card = n ∧ ∀ t, t ∈ F ↔ p (f t)

structure Named (s : State T W) : Prop where
  named : ∀ t w g, (s.pc t).group = some (w, g) → s.m w = some g
  inj : ∀ w w' g, s.m w = some g → s.m w' = some g → w = w'
  refs : ∀ g, Counts s.pc (·.group.map Prod.snd = some g) (s.grp g).refs
  unused : ∀ g ∈ s.free, g < s.groups ∧ ∀ w, s.m w ≠ some g
  nodup : s.free.Nodup
  old : ∀ w g, s.m w = some g → g < s.groups

structure Led (s : State T W) : Prop where
  leads : ∀ t g, (s.grp g).leader = some t ↔ (s.pc t).leads = some g
  own : ∀ t u ch, (s.pc t).chan = some ch → (s.pc u).chan = some ch → t = u
  due : ∀ t w g ch, (s.pc t).group = some (w, g) → (s.pc t).chan = some ch →
    if (s.pc t).due then s.full ch = true ↔ ch ∉ (s.grp g).wakes
    else ch ∉ (s.grp g).wakes ∧ ((s.pc t).drains = false → s.full ch = false)
  wakes : ∀ g ch, ch ∈ (s.grp g).wakes → (s.grp g).leader ≠ none ∧ s.full ch = false ∧
    ch ∉ s.wakeChans ∧ ch < s.chans
  -- A leader sends on channels of its own group only.
  group : ∀ g ch t w g', ch ∈ (s.grp g).wakes → (s.pc t).chan = some ch →
    (s.pc t).group = some (w, g') → g' = g
  disj : ∀ g g' ch, ch ∈ (s.grp g).wakes → ch ∈ (s.grp g').wakes → g = g'
  once : ∀ g, (s.grp g).wakes.Nodup
  old : ∀ t ch, (s.pc t).chan = some ch → ch < s.chans
  pool : ∀ ch ∈ s.wakeChans, ch < s.chans ∧ s.full ch = false ∧ ∀ t, (s.pc t).chan ≠ some ch
  poolOnce : s.wakeChans.Nodup

variable {s s' : State T W} {t : T} {w : W} {g ch : Nat}

/-! ## The steps -/

theorem refs_update {x : Group T} (hx : x.refs = (s.grp g).refs) (g' : Nat) :
    (Function.update s.grp g x g').refs = (s.grp g').refs := by
  grind [Function.update_apply]

theorem foldlM_send {l : List Nat} (hl : l.Nodup) (hf : ∀ ch ∈ l, s.full ch = false) :
    l.foldlM State.send s = some { s with full := fun ch => decide (ch ∈ l) || s.full ch } := by
  induction l generalizing s with
  | nil => simp
  | cons c l ih =>
    have hc : c ∉ l := (List.nodup_cons.mp hl).1
    rw [List.foldlM_cons, State.send, if_neg (by simp [hf c])]
    refine (ih hl.of_cons fun ch hch => ?_).trans ?_
    · exact (Function.update_of_ne (by grind) ..).trans (hf ch (.tail _ hch))
    · simp only [State.setFull, Option.some.injEq, State.mk.injEq, true_and, and_true]
      grind [Function.update_apply]

theorem lookup_inv [DecidableEq W] (hn : Named s) (hl : Led s) (w : W) :
    Named (s.lookup w).1 ∧ Led (s.lookup w).1 ∧ (s.lookup w).1.m w = some (s.lookup w).2 ∧
      (s.lookup w).1.pc = s.pc := by
  unfold State.lookup
  split
  · next hw => exact ⟨hn, hl, hw, rfl⟩
  · have hrefs := hn.refs
    cases hn
    split <;> refine ⟨⟨?_, ?_, hrefs, ?_, ?_, ?_⟩, { hl with }, Function.update_self .., rfl⟩ <;>
      dsimp only <;> grind [Function.update_apply]

variable [DecidableEq T]

theorem Named.same (h : Named s) {grp : Nat → Group T} {chs : List Nat} {full : Nat → Bool} {n : Nat}
    {p : Pc W} (hpc : (s.pc t).group = p.group) (hgrp : ∀ g, (grp g).refs = (s.grp g).refs) :
    Named { s with grp, wakeChans := chs, full, chans := n, pc := Function.update s.pc t p } := by
  have hgroup u : (Function.update s.pc t p u).group = (s.pc u).group := by
    grind [Function.update_apply]
  cases h
  constructor <;> simp only [hgroup, hgrp, Counts] <;> assumption

theorem enter_inv {pooled : Option Nat} (hn : Named s) (hl : Led s) (hpc : s.pc t = .idle w g)
    (hs : s.enter t w g pooled = some s') : Named s' ∧ Led s' := by
  cases hl
  unfold State.enter State.getChan at hs
  cases pooled <;> dsimp only at hs <;> split at hs <;> (try split at hs) <;> cases hs
  -- A channel from the pool or a new one is nobody's, so the follower is its only owner.
  all_goals
    refine ⟨hn.same (hpc ▸ rfl) (refs_update rfl), ?_⟩
    constructor <;> dsimp only [State.goto, State.setGroup, State.setFull] <;>
      grind [Function.update_apply]

/-- Every channel in `wakes` is empty, so the leader gets through. -/
theorem exitLeader_inv (hn : Named s) (hl : Led s) (hpc : s.pc t = .lead w g) :
    ∃ s', s.exitLeader g = some s' ∧ (∀ ch ∈ (s.grp g).wakes, s'.full ch = true) ∧
      Named (s'.goto t (.idle w g)) ∧ Led (s'.goto t (.idle w g)) := by
  have hlead := (hl.leads t g).mpr (hpc ▸ rfl)
  have hsend := foldlM_send (hl.once g) fun ch hch => (hl.wakes g ch hch).2.1
  cases hl
  refine ⟨_, by rw [State.exitLeader, hsend]; rfl, fun ch hch => ?_, ?_, ?_⟩
  · exact Bool.or_eq_true_iff.mpr (.inl (decide_eq_true hch))
  · exact hn.same (hpc ▸ rfl) (refs_update rfl)
  · constructor <;> dsimp only [State.goto, State.setGroup] <;> grind [Function.update_apply]

theorem leave_inv {got : Bool} (hn : Named s) (hl : Led s) (hpc : s.pc t = .leave w g ch got) :
    Named (s.leave t w g ch) ∧ Led (s.leave t w g ch) := by
  have hperm := swapRemove_perm (s.grp g).wakes ch
  have hmem c : c ∈ swapRemove (s.grp g).wakes ch ↔ c ≠ ch ∧ c ∈ (s.grp g).wakes :=
    hperm.mem_iff.trans (hl.once g).mem_erase_iff
  have hnodup := hperm.nodup_iff.mpr ((hl.once g).erase ch)
  cases hl
  unfold State.leave
  split
  · refine ⟨hn.same (hpc ▸ rfl) (refs_update rfl), ?_⟩
    constructor <;> dsimp only [State.goto, State.setGroup] <;> grind [Function.update_apply]
  · refine ⟨hn.same (hpc ▸ rfl) fun _ => rfl, ?_⟩
    constructor <;> dsimp only [State.goto] <;> grind [Function.update_apply]

theorem Led.same (h : Led s) (hpc : (s.pc t).chan = none ∧ (s.pc t).leads = none) {p : Pc W}
    (hp : p.chan = none ∧ p.leads = none) {x : Group T}
    (hx : x.leader = (s.grp g).leader ∧ x.wakes = (s.grp g).wakes) :
    Led ((s.setGroup g x).goto t p) := by
  cases h
  constructor <;> dsimp only [State.goto, State.setGroup] <;> grind [Function.update_apply]

theorem Counts.update {α : Type} {f : T → α} {p : α → Prop} [DecidablePred p] {n k : Nat}
    (h : Counts f p n) (a : α)
    (hk : k = n + (if p a then 1 else 0) - (if p (f t) then 1 else 0)) :
    Counts (Function.update f t a) p k := by
  obtain ⟨F, hF, hmem⟩ := h
  refine ⟨if p a then insert t F else F.erase t, ?_, fun u => ?_⟩ <;>
    grind [Function.update_apply, Finset.erase_eq_of_notMem]

theorem Named.hold (h : Named s) (hpc : s.pc t = .out) (hw : s.m w = some g) :
    Named ((s.setGroup g { s.grp g with refs := (s.grp g).refs + 1 }).goto t (.idle w g)) := by
  refine ⟨?_, h.inj, fun g' => (h.refs g').update _ ?_, h.unused, h.nodup, h.old⟩ <;> cases h <;>
    dsimp only [State.goto, State.setGroup] <;> grind [Function.update_apply]

variable [DecidableEq W]

theorem release_inv (hn : Named s) (hl : Led s) (hpc : s.pc t = .idle w g) :
    Named ((s.releaseParkGroup w g).goto t .out) ∧ Led ((s.releaseParkGroup w g).goto t .out) := by
  have hw : s.m w = some g := hn.named t w g (hpc ▸ rfl)
  -- Whoever takes `refs` to 0 is the last one, so nobody else loses its group.
  have hlast : (s.grp g).refs - 1 = 0 → ∀ u w', (s.pc u).group = some (w', g) → u = t := by
    obtain ⟨F, hF, hmem⟩ := hn.refs g
    intro h1 u w' hu
    exact Finset.card_le_one.mp (by omega) u ((hmem u).mpr (by simp [hu])) t
      ((hmem t).mpr (by simp [hpc, Pc.group]))
  have hsame := hl.same (t := t) (by simp [hpc, Pc.chan, Pc.leads]) (p := .out) ⟨rfl, rfl⟩
    (x := { s.grp g with refs := (s.grp g).refs - 1 }) ⟨rfl, rfl⟩
  unfold State.releaseParkGroup
  dsimp only
  split <;> refine ⟨?_, { hsame with }⟩ <;>
    refine ⟨?_, ?_, fun g' => (hn.refs g').update _ ?_, ?_, ?_, ?_⟩ <;> cases hn <;>
    dsimp only [State.goto, State.setGroup] <;> grind [Function.update_apply]

theorem step_inv (hn : Named s) (hl : Led s) {a : T × Act W} (h : s.step a = some s') :
    Named s' ∧ Led s' := by
  obtain ⟨t, a⟩ := a
  unfold State.step at h
  dsimp only at h
  split at h
  case h_1 w hpc =>
    cases h
    obtain ⟨hn, hl, hw, hsame⟩ := lookup_inv hn hl w
    rw [← hsame] at hpc
    exact ⟨hn.hold hpc hw, hl.same (by simp [hpc, Pc.chan, Pc.leads]) ⟨rfl, rfl⟩ ⟨rfl, rfl⟩⟩
  case h_2 hpc => exact enter_inv hn hl hpc h
  case h_3 hpc =>
    obtain ⟨s1, h1, -, hinv⟩ := exitLeader_inv hn hl hpc
    rw [h1] at h
    cases h
    exact hinv
  case h_6 hpc =>
    cases h
    exact leave_inv hn hl hpc
  case h_9 hpc =>
    cases h
    exact release_inv hn hl hpc
  case h_10 => cases h
  -- The rest changes the channel of the operation at most.
  all_goals
    rename_i hpc
    have hch := congrArg Pc.chan hpc
    have hgrp := congrArg Pc.group hpc
    try split at h
    all_goals cases h
    refine ⟨hn.same (hpc ▸ rfl) fun _ => rfl, ?_⟩
    cases hl
    constructor <;> dsimp only [State.goto, State.setFull] <;> grind [Function.update_apply]

/-! ## What holds in every run -/

structure Grouped (s : State T W) : Prop where
  oneLeader : ∀ t u g, (s.pc t).leads = some g → (s.pc u).leads = some g → t = u
  led : ∀ g, (s.grp g).wakes ≠ [] → ∃ t, (s.pc t).leads = some g
  exits : ∀ t w g, s.pc t = .lead w g →
    ∃ s', s.step (t, .exitLeader) = some s' ∧ ∀ ch ∈ (s.grp g).wakes, s'.full ch = true
  /-- The release of a follower is to come, in its channel or taken, and never two of these. -/
  released : ∀ t w g ch, (s.pc t).group = some (w, g) → (s.pc t).chan = some ch →
    if (s.pc t).due then s.full ch = true ↔ ch ∉ (s.grp g).wakes
    else ch ∉ (s.grp g).wakes ∧ ((s.pc t).drains = false → s.full ch = false)
  pooled : ∀ ch ∈ s.wakeChans, s.full ch = false ∧ (∀ t, (s.pc t).chan ≠ some ch) ∧
    ∀ g, ch ∉ (s.grp g).wakes
  refs : ∀ g, Counts s.pc (·.group.map Prod.snd = some g) (s.grp g).refs
  shared : ∀ t u w w' g g', (s.pc t).group = some (w, g) → (s.pc u).group = some (w', g') →
    (w = w' ↔ g = g')
  recycled : ∀ g ∈ s.free, ∀ t w, (s.pc t).group ≠ some (w, g)

theorem park_groups (h : (machine T W).Reachable s) : Grouped s := by
  obtain ⟨hn, hl⟩ : Named s ∧ Led s := by
    refine h.invariant (I := fun s => Named s ∧ Led s) ?_ fun s a s' _ hs _ h => step_inv hs.1 hs.2 h
    constructor <;> constructor <;> simp [machine, Pc.group, Pc.chan, Pc.leads, Counts]
  refine ⟨?_, fun g hg => ?_, fun t w g hpc => ?_, hl.due, ?_, hn.refs, ?_, ?_⟩
  · intro t u g ht hu
    exact Option.some.inj (((hl.leads t g).mpr ht).symm.trans ((hl.leads u g).mpr hu))
  · obtain ⟨ch, hch⟩ := List.exists_mem_of_ne_nil _ hg
    obtain ⟨t, ht⟩ := Option.ne_none_iff_exists'.mp (hl.wakes g ch hch).1
    exact ⟨t, (hl.leads t g).mp ht⟩
  · obtain ⟨s', h', hfull, -⟩ := exitLeader_inv hn hl hpc
    exact ⟨s'.goto t (.idle w g), by simp [State.step, hpc, h'], hfull⟩
  all_goals
    cases hl
    cases hn
    grind

/-- The second operation on a word gives up after its leader released it. -/
theorem park_groups_released : ∃ s, (machine Bool Unit).Reachable s ∧
    (s.full 0 = true ∧ (s.pc true).due = true) ∧ Grouped s :=
  Machine.exists_reachable_and [(false, .acquire ()), (true, .acquire ()), (false, .enter none),
    (true, .enter none), (false, .exitLeader), (true, .cancel)] (by decide +kernel)
    fun _ hs _ => park_groups hs

end Hqq.Park
