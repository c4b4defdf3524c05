import Hqq.Door
import Hqq.Machine

/-!
# `StandardLink.Close`

The segment may be unmapped once `Close` has returned: no call in flight, no callback of a context
that such a call armed and no heartbeat may touch it after that.

A call counts itself in `rxActive` or `txActive` before it looks at `closed`. A blocked ring
operation joins the group of its wait word, whose leader sleeps for all.
-/

namespace Hqq.Closing

inductive Side
  | rx
  | tx
  deriving DecidableEq

inductive Pc
  | work
  | slow
  | park
  | follow
  | arm
  | register
  | recheck
  | sleep
  | unregister
  | resign
  | finish
  | join
  deriving DecidableEq

inductive Callback
  | none
  | armed
  /-- In its goroutine, about to wake the wait word. -/
  | running
  | ended
  deriving DecidableEq

inductive Heart
  | idle
  | beating
  | ended
  deriving DecidableEq

inductive ClosePc
  | before
  | wake
  | loadRx
  | loadTx
  | nap
  | stopHeart
  | joinHeart
  | detach
  | wakePeer
  | returned
  deriving DecidableEq

structure State (T : Type) where
  door : Side → Door T
  pc : T → Pc
  callback : T → Callback
  /-- The leader of the group of each wait word. -/
  leader : Side → Option T
  heart : Heart
  stopped : Bool
  close : ClosePc
  /-- The calls that started after `closed` was set. No step looks at this. -/
  late : T → Bool

inductive Act (T : Type)
  | enter (t : T)
  | check (t : T)
  | exit (t : T)
  | touch (t : T)
  | block (t : T)
  | rest (t : T)
  | next (t : T)
  | unblock (t : T)
  | cancel (t : T)
  | fire (t : T)
  | tick
  | beat (last : Bool)
  | rip
  | close

structure Config (T : Type) where
  side : T → Side
  ctx : T → Bool
  heart : Bool

variable {T : Type} [DecidableEq T] (cfg : Config T)

def State.stage (s : State T) (t : T) : Door.Stage := (s.door (cfg.side t)).stage t

def State.through (s : State T) (t : T) (d : Door T) : State T :=
  { s with door := Function.update s.door (cfg.side t) d }

def State.goto (s : State T) (t : T) (pc : Pc) : State T :=
  { s with pc := Function.update s.pc t pc }

def next (s : State T) (t : T) : Option (State T) :=
  match s.pc t with
  | .work | .slow => none
  | .park => match s.leader (cfg.side t) with
    | none => some { s.goto t .arm with leader := Function.update s.leader (cfg.side t) (some t) }
    | some _ => some (s.goto t .follow)
  -- Released by the leader, canceled, or out of time.
  | .follow => some (s.goto t .slow)
  | .arm =>
    if cfg.ctx t ∧ s.callback t = .none then
      some { s.goto t .register with callback := Function.update s.callback t .armed }
    else some (s.goto t .register)
  | .register => some (s.goto t .recheck)
  | .recheck => some (s.goto t .sleep)
  | .sleep => some (s.goto t .unregister)
  | .unregister => some (s.goto t .resign)
  | .resign => some { s.goto t .slow with leader := Function.update s.leader (cfg.side t) none }
  | .finish => match s.callback t with
    -- The stop function reports that the callback will not run.
    | .none | .armed => some { s.goto t .work with callback := Function.update s.callback t .none }
    | .running | .ended => some (s.goto t .join)
  | .join =>
    if s.callback t = .ended then
      some { s.goto t .work with callback := Function.update s.callback t .none }
    else none

def close (s : State T) : Option (State T) :=
  match s.close with
  | .before => some { s with door := fun d => (s.door d).shut, close := .wake }
  | .wake => some { s with close := .loadRx }
  | .loadRx => some { s with close := if (s.door .rx).counter = 0 then .loadTx else .nap }
  | .loadTx => some { s with
      close := if (s.door .tx).counter = 0 then
        (if cfg.heart then .stopHeart else .detach) else .nap }
  | .nap => some { s with close := .loadRx }
  | .stopHeart => some { s with stopped := true, close := .joinHeart }
  | .joinHeart => if s.heart = .ended then some { s with close := .detach } else none
  | .detach => some { s with close := .wakePeer }
  | .wakePeer => some { s with close := .returned }
  | .returned => none

def step (s : State T) : Act T → Option (State T)
  | .enter t =>
    if s.stage cfg t = .out then
      some { s.through cfg t ((s.door (cfg.side t)).enter t) with
        late := Function.update s.late t (s.door (cfg.side t)).closed }
    else none
  | .check t =>
    if s.stage cfg t = .counted then some (s.through cfg t ((s.door (cfg.side t)).look t)) else none
  | .exit t =>
    if s.stage cfg t = .refused ∨ s.stage cfg t = .inside ∧ s.pc t = .work then
      some (s.through cfg t ((s.door (cfg.side t)).leave t))
    else none
  | .touch t =>
    if s.stage cfg t = .inside ∧ (s.pc t = .work ∨ s.pc t = .slow) then some s else none
  | .block t =>
    if s.stage cfg t = .inside ∧ s.pc t = .work then some (s.goto t .slow) else none
  | .rest t =>
    if s.stage cfg t = .inside ∧ s.pc t = .slow then some (s.goto t .park) else none
  | .unblock t =>
    if s.stage cfg t = .inside ∧ s.pc t = .slow then some (s.goto t .finish) else none
  | .next t => if s.stage cfg t = .inside then next cfg s t else none
  | .cancel t =>
    if s.callback t = .armed then
      some { s with callback := Function.update s.callback t .running }
    else none
  | .fire t =>
    if s.callback t = .running then
      some { s with callback := Function.update s.callback t .ended }
    else none
  | .tick => if s.heart = .idle then some { s with heart := .beating } else none
  | .beat last =>
    if s.heart = .beating then some { s with heart := if last then .idle else .beating } else none
  | .rip => if s.heart = .idle ∧ s.stopped then some { s with heart := .ended } else none
  | .close => close cfg s

def touches (s : State T) : Act T → Bool
  | .touch _ | .fire _ | .beat _ => true
  | .next t => match s.pc t with
    | .register | .recheck | .sleep | .unregister => true
    | _ => false
  | .close => match s.close with
    | .wake | .detach | .wakePeer => true
    | _ => false
  | _ => false

def machine : Machine (State T) (Act T) where
  init :=
    { door := fun _ => .fresh T, pc := fun _ => .work, callback := fun _ => .none
      leader := fun _ => none, heart := if cfg.heart then .idle else .ended, stopped := false
      close := .before, late := fun _ => false }
  step := step cfg

def ClosePc.PastRx : ClosePc → Prop
  | .before | .wake | .loadRx | .nap => False
  | _ => True

def ClosePc.PastTx : ClosePc → Prop
  | .before | .wake | .loadRx | .nap | .loadTx => False
  | _ => True

def ClosePc.PastHeart : ClosePc → Prop
  | .detach | .wakePeer | .returned => True
  | _ => False

structure Inv (s : State T) : Prop where
  counts : ∀ d, (s.door d).Counts
  closed : s.close ≠ .before → ∀ d, (s.door d).closed = true
  rx : s.close.PastRx → (s.door .rx).Quiet
  tx : s.close.PastTx → (s.door .tx).Quiet
  outside : ∀ t, s.stage cfg t ≠ .inside → s.pc t = .work
  callbacks : ∀ t, s.pc t = .work → s.callback t = .none
  noHeart : cfg.heart = false → s.heart = .ended
  heart : s.close.PastHeart → s.heart = .ended
  late : ∀ t, s.late t = true →
    (s.door (cfg.side t)).closed = true ∧ s.stage cfg t ≠ .inside

variable {cfg} {s s' : State T}

omit [DecidableEq T] in
theorem Inv.of_through (h : Inv cfg s) {t : T} {d : Door T} {late : T → Bool} (hcounts : d.Counts)
    (hothers : ∀ u ≠ t, d.stage u = (s.door (cfg.side t)).stage u)
    (hclosed : d.closed = (s.door (cfg.side t)).closed)
    (hquiet : (s.door (cfg.side t)).Quiet → d.Quiet)
    (hpc : d.stage t ≠ .inside → s.pc t = .work)
    (hlate : late t = true → d.closed = true ∧ d.stage t ≠ .inside)
    (hlates : ∀ u ≠ t, late u = s.late u) : Inv cfg { s.through cfg t d with late := late } := by
  have hdoor : ∀ e, (s.through cfg t d).door e = d ∧ e = cfg.side t ∨
      (s.through cfg t d).door e = s.door e ∧ e ≠ cfg.side t := by
    intro e
    rcases eq_or_ne e (cfg.side t) with rfl | hne
    · exact Or.inl ⟨Function.update_self .., rfl⟩
    · exact Or.inr ⟨Function.update_of_ne hne .., hne⟩
  have hstage : ∀ u ≠ t, (s.through cfg t d).stage cfg u = s.stage cfg u := by
    intro u hu
    unfold State.stage
    rcases hdoor (cfg.side u) with ⟨heq, hside⟩ | ⟨heq, -⟩
    · rw [heq, hothers u hu, hside]
    · rw [heq]
  have hself : (s.through cfg t d).stage cfg t = d.stage t := by
    unfold State.stage
    rw [State.through]
    simp
  have hkeep : ∀ e, (s.door e).Quiet → ((s.through cfg t d).door e).Quiet := by
    intro e hq
    rcases hdoor e with ⟨heq, rfl⟩ | ⟨heq, -⟩ <;> rw [heq]
    · exact hquiet hq
    · exact hq
  have hflag : ∀ e, ((s.through cfg t d).door e).closed = (s.door e).closed := by
    intro e
    rcases hdoor e with ⟨heq, rfl⟩ | ⟨heq, -⟩ <;> rw [heq]
    exact hclosed
  refine
    { counts := fun e => ?_
      closed := fun hc e => (hflag e).trans (h.closed hc e)
      rx := fun hc => hkeep _ (h.rx hc)
      tx := fun hc => hkeep _ (h.tx hc)
      outside := fun u hu => ?_
      callbacks := h.callbacks
      noHeart := h.noHeart
      heart := h.heart
      late := fun u hu => ?_ }
  · change ((s.through cfg t d).door e).Counts
    rcases hdoor e with ⟨heq, -⟩ | ⟨heq, -⟩ <;> rw [heq]
    · exact hcounts
    · exact h.counts e
  · rcases eq_or_ne u t with rfl | hne
    · exact hpc (hself ▸ hu)
    · exact h.outside u (hstage u hne ▸ hu)
  · change ((s.through cfg t d).door (cfg.side u)).closed = true ∧ (s.through cfg t d).stage cfg u ≠ _
    rcases eq_or_ne u t with rfl | hne
    · rw [hself, hflag, ← hclosed]
      exact hlate hu
    · rw [hstage u hne, hflag]
      exact h.late u ((hlates u hne).symm.trans hu)

theorem Inv.of_move (h : Inv cfg s) {t : T} (hin : s.stage cfg t = .inside) {pc : Pc}
    {cb : Callback} {leader : Side → Option T} (hcb : pc = .work → cb = .none) :
    Inv cfg { s with
      pc := Function.update s.pc t pc, callback := Function.update s.callback t cb
      leader := leader } := by
  refine { h with outside := fun u hu => ?_, callbacks := fun u hu => ?_ }
  · have hne : u ≠ t := by rintro rfl; exact hu hin
    exact (Function.update_of_ne hne ..).trans (h.outside u hu)
  · rcases eq_or_ne u t with rfl | hne
    · simp only [Function.update_self] at hu ⊢
      exact hcb hu
    · simp only [Function.update_of_ne hne] at hu ⊢
      exact h.callbacks u hu

theorem Inv.of_goto (h : Inv cfg s) {t : T} (hin : s.stage cfg t = .inside) {pc : Pc}
    {leader : Side → Option T} (hcb : pc = .work → s.callback t = .none) :
    Inv cfg { s.goto t pc with leader := leader } := by
  have hmove : Inv cfg { s with
      pc := Function.update s.pc t pc, leader := leader
      callback := Function.update s.callback t (s.callback t) } := h.of_move hin hcb
  rwa [Function.update_eq_self] at hmove

theorem Inv.of_callback (h : Inv cfg s) {t : T} {cb : Callback} (hcb : s.callback t ≠ .none) :
    Inv cfg { s with callback := Function.update s.callback t cb } := by
  refine { h with callbacks := fun u hu => ?_ }
  have hne : u ≠ t := by rintro rfl; exact hcb (h.callbacks u hu)
  exact (Function.update_of_ne hne ..).trans (h.callbacks u hu)

theorem Inv.of_next (h : Inv cfg s) {t : T} (hin : s.stage cfg t = .inside)
    (hstep : next cfg s t = some s') : Inv cfg s' := by
  unfold next at hstep
  cases hpc : s.pc t with
  | work | slow => simp [hpc] at hstep
  | park =>
    simp only [hpc] at hstep
    split at hstep <;> cases hstep
    · exact h.of_goto hin (by simp)
    · exact h.of_goto hin (by simp)
  | arm =>
    simp only [hpc] at hstep
    split_ifs at hstep <;> cases hstep
    · exact h.of_move hin (by simp)
    · exact h.of_goto hin (by simp)
  | follow | register | recheck | sleep | unregister | resign =>
    simp only [hpc, Option.some.injEq] at hstep
    subst hstep
    exact h.of_goto hin (by simp)
  | finish =>
    simp only [hpc] at hstep
    split at hstep <;> cases hstep
    · exact h.of_move hin fun _ => rfl
    · exact h.of_move hin fun _ => rfl
    · exact h.of_goto hin (by simp)
    · exact h.of_goto hin (by simp)
  | join =>
    simp only [hpc] at hstep
    split_ifs at hstep
    cases hstep
    exact h.of_move hin fun _ => rfl

omit [DecidableEq T] in
theorem Inv.of_close (h : Inv cfg s) (hstep : close cfg s = some s') : Inv cfg s' := by
  unfold close at hstep
  cases hpc : s.close with
  | before =>
    simp only [hpc, Option.some.injEq] at hstep
    subst hstep
    exact
      { counts := fun d => (h.counts d).shut
        closed := fun _ _ => rfl
        rx := False.elim
        tx := False.elim
        outside := h.outside
        callbacks := h.callbacks
        noHeart := h.noHeart
        heart := False.elim
        late := fun t ht => ⟨rfl, (h.late t ht).2⟩ }
  | loadRx =>
    simp only [hpc, Option.some.injEq] at hstep
    subst hstep
    have hclosed := h.closed (by simp [hpc])
    split_ifs with h0
    · exact { h with
        closed := fun _ => hclosed
        rx := fun _ => (h.counts .rx).quiet (hclosed .rx) h0
        tx := False.elim, heart := False.elim }
    · exact { h with
        closed := fun _ => hclosed, rx := False.elim, tx := False.elim, heart := False.elim }
  | loadTx =>
    simp only [hpc, Option.some.injEq] at hstep
    subst hstep
    have hclosed := h.closed (by simp [hpc])
    have hrx := h.rx (by simp [hpc, ClosePc.PastRx])
    split_ifs with h0 hheart
    · exact { h with
        closed := fun _ => hclosed, rx := fun _ => hrx
        tx := fun _ => (h.counts .tx).quiet (hclosed .tx) h0
        heart := False.elim }
    · exact { h with
        closed := fun _ => hclosed, rx := fun _ => hrx
        tx := fun _ => (h.counts .tx).quiet (hclosed .tx) h0
        heart := fun _ => h.noHeart (by simpa using hheart) }
    · exact { h with
        closed := fun _ => hclosed, rx := False.elim, tx := False.elim, heart := False.elim }
  | wake | nap =>
    simp only [hpc, Option.some.injEq] at hstep
    subst hstep
    have hclosed := h.closed (by simp [hpc])
    exact { h with
      closed := fun _ => hclosed, rx := False.elim, tx := False.elim, heart := False.elim }
  | stopHeart =>
    simp only [hpc, Option.some.injEq] at hstep
    subst hstep
    have hclosed := h.closed (by simp [hpc])
    have hrx := h.rx (by simp [hpc, ClosePc.PastRx])
    have htx := h.tx (by simp [hpc, ClosePc.PastTx])
    exact { h with
      closed := fun _ => hclosed, rx := fun _ => hrx, tx := fun _ => htx, heart := False.elim }
  | joinHeart =>
    simp only [hpc] at hstep
    split_ifs at hstep with hheart
    cases hstep
    have hclosed := h.closed (by simp [hpc])
    have hrx := h.rx (by simp [hpc, ClosePc.PastRx])
    have htx := h.tx (by simp [hpc, ClosePc.PastTx])
    exact { h with
      closed := fun _ => hclosed, rx := fun _ => hrx, tx := fun _ => htx, heart := fun _ => hheart }
  | detach | wakePeer =>
    simp only [hpc, Option.some.injEq] at hstep
    subst hstep
    have hclosed := h.closed (by simp [hpc])
    have hrx := h.rx (by simp [hpc, ClosePc.PastRx])
    have htx := h.tx (by simp [hpc, ClosePc.PastTx])
    have hheart := h.heart (by simp [hpc, ClosePc.PastHeart])
    exact { h with
      closed := fun _ => hclosed, rx := fun _ => hrx, tx := fun _ => htx, heart := fun _ => hheart }
  | returned => simp [hpc] at hstep

theorem Inv.of_step (h : Inv cfg s) {a : Act T} (hstep : step cfg s a = some s') :
    Inv cfg s' := by
  cases a with
  | enter t =>
    simp only [step] at hstep
    split_ifs at hstep with hout
    cases hstep
    refine h.of_through ((h.counts _).enter hout) (fun u hu => ?_) rfl (fun hq => hq.enter t)
      (fun _ => h.outside t (by simp [hout])) (fun hl => ?_) fun u hu => Function.update_of_ne hu ..
    · simp [Door.enter, hu]
    · rw [Function.update_self] at hl
      exact ⟨hl, by simp [Door.enter]⟩
  | check t =>
    simp only [step] at hstep
    split_ifs at hstep with hcounted
    cases hstep
    refine h.of_through ((h.counts _).look ?_) (fun u hu => ?_) rfl (fun hq => hq.look t)
      (fun _ => h.outside t (by simp [hcounted])) (fun hl => ?_) fun _ _ => rfl
    · rw [show (s.door (cfg.side t)).stage t = .counted from hcounted]
      simp
    · simp [Door.look, hu]
    · exact ⟨(h.late t hl).1, by simp [Door.look, (h.late t hl).1]⟩
  | exit t =>
    simp only [step] at hstep
    split_ifs at hstep with hwhere
    cases hstep
    have hpc : s.pc t = .work := by
      rcases hwhere with href | ⟨-, hpc⟩
      · exact h.outside t (by simp [href])
      · exact hpc
    refine h.of_through ((h.counts _).leave ?_) (fun u hu => ?_) rfl (fun hq => hq.leave t)
      (fun _ => hpc) (fun hl => ⟨(h.late t hl).1, by simp [Door.leave]⟩) fun _ _ => rfl
    · intro hout
      rcases hwhere with href | ⟨hin, -⟩
      · exact absurd (href.symm.trans hout) (by simp)
      · exact absurd (hin.symm.trans hout) (by simp)
    · simp [Door.leave, hu]
  | touch t =>
    simp only [step] at hstep
    split_ifs at hstep
    simp only [Option.some.injEq] at hstep
    exact hstep ▸ h
  | block t | rest t | unblock t =>
    simp only [step] at hstep
    split_ifs at hstep with hin
    cases hstep
    exact h.of_goto hin.1 (by simp)
  | next t =>
    simp only [step] at hstep
    split_ifs at hstep with hin
    exact h.of_next hin hstep
  | cancel t | fire t =>
    simp only [step] at hstep
    split_ifs at hstep with hcb
    cases hstep
    exact h.of_callback (by simp [hcb])
  | tick | beat last =>
    simp only [step] at hstep
    split_ifs at hstep with hheart
    all_goals
      cases hstep
      have hne : s.heart ≠ .ended := by simp [hheart]
      exact { h with
        noHeart := fun hc => absurd (h.noHeart hc) hne
        heart := fun hc => absurd (h.heart hc) hne }
  | rip =>
    simp only [step] at hstep
    split_ifs at hstep
    cases hstep
    exact { h with noHeart := fun _ => rfl, heart := fun _ => rfl }
  | close => exact h.of_close hstep

theorem Inv.of_reachable (h : (machine cfg).Reachable s) : Inv cfg s := by
  refine h.invariant ?_ fun s a s' _ hI _ hstep => hI.of_step hstep
  exact
    { counts := fun _ => .fresh
      closed := fun hc => absurd rfl hc
      rx := False.elim
      tx := False.elim
      outside := fun _ _ => rfl
      callbacks := fun _ _ => rfl
      noHeart := fun hc => by simp [machine, hc]
      heart := False.elim
      late := fun t ht => absurd ht (by simp [machine]) }

omit [DecidableEq T] in
theorem Inv.all_outside (h : Inv cfg s) (hr : s.close = .returned) (t : T) :
    s.stage cfg t ≠ .inside := by
  unfold State.stage
  cases cfg.side t with
  | rx => exact (h.rx (by simp [hr, ClosePc.PastRx])).outside t
  | tx => exact (h.tx (by simp [hr, ClosePc.PastTx])).outside t

theorem Inv.untouched (h : Inv cfg s) {t : T} (hout : s.stage cfg t ≠ .inside) {a : Act T}
    (ha : a ∈ [.touch t, .next t, .fire t]) : step cfg s a = none := by
  have hcb := h.callbacks t (h.outside t hout)
  simp only [List.mem_cons, List.not_mem_nil, or_false] at ha
  rcases ha with rfl | rfl | rfl
  · exact if_neg fun hin => hout hin.1
  · exact if_neg hout
  · exact if_neg (by simp [hcb])

def Act.caller : Act T → Option T
  | .enter t | .check t | .exit t | .touch t | .block t | .rest t | .next t | .unblock t
  | .cancel t | .fire t => some t
  | .tick | .beat _ | .rip | .close => none

theorem Inv.touches_caller (h : Inv cfg s) {t : T} (hout : s.stage cfg t ≠ .inside) {a : Act T}
    (ha : a.caller = some t) (hstep : step cfg s a = some s') : touches s a = false := by
  cases a with
  | touch u | next u | fire u =>
    cases ha
    rw [h.untouched hout (by simp)] at hstep
    cases hstep
  | tick | beat last | rip | close => cases ha
  | _ => rfl

theorem Inv.touches_returned (h : Inv cfg s) (hr : s.close = .returned) {a : Act T}
    (hstep : step cfg s a = some s') : touches s a = false := by
  cases hc : a.caller with
  | some t => exact h.touches_caller (h.all_outside hr t) hc hstep
  | none =>
    cases a with
    | beat last =>
      have hheart := h.heart (by simp [hr, ClosePc.PastHeart])
      simp [step, hheart] at hstep
    | close => simp [touches, hr]
    | tick | rip => rfl
    | _ => cases hc

theorem exit_run {t : T} (hst : s.stage cfg t = .refused) :
    ∃ s', step cfg s (.exit t) = some s' ∧ s'.stage cfg t = .out := by
  refine ⟨s.through cfg t ((s.door (cfg.side t)).leave t), if_pos (Or.inl hst), ?_⟩
  simp [State.stage, State.through, Door.leave]

/-- A late call is out after two steps of its own, whatever the others do. -/
theorem Inv.late_leaves (h : Inv cfg s) {t : T} (hl : s.late t = true)
    (hne : s.stage cfg t ≠ .out) : ∃ as s', as.length ≤ 2 ∧ (∀ a ∈ as, a.caller = some t) ∧
      (machine cfg).runFrom s as = some s' ∧ s'.stage cfg t = .out := by
  obtain ⟨hclosed, hin⟩ := h.late t hl
  cases hst : s.stage cfg t with
  | out => exact absurd hst hne
  | inside => exact absurd hst hin
  | refused =>
    obtain ⟨s', hstep, hout⟩ := exit_run hst
    refine ⟨[.exit t], s', by simp, by simp [Act.caller], ?_, hout⟩
    simp [Machine.runFrom, machine, hstep]
  | counted =>
    have hcheck : step cfg s (.check t) = some (s.through cfg t ((s.door (cfg.side t)).look t)) :=
      if_pos hst
    have hst' : (s.through cfg t ((s.door (cfg.side t)).look t)).stage cfg t = .refused := by
      simp [State.stage, State.through, Door.look, hclosed]
    obtain ⟨s', hstep, hout⟩ := exit_run hst'
    refine ⟨[.check t, .exit t], s', by simp, by simp [Act.caller], ?_, hout⟩
    simp [Machine.runFrom, machine, hcheck, hstep]

/-- Once `Close` has returned, no step of any call, callback or goroutine touches the segment. -/
theorem close_leaves_segment (h : (machine cfg).Reachable s) :
    (s.close = .returned → ∀ a s', step cfg s a = some s' → touches s a = false) ∧
    (∀ t, s.late t = true → s.stage cfg t ≠ .out →
      (∀ a s', a.caller = some t → step cfg s a = some s' → touches s a = false) ∧
      ∃ as s', as.length ≤ 2 ∧ (∀ a ∈ as, a.caller = some t) ∧
        (machine cfg).runFrom s as = some s' ∧ s'.stage cfg t = .out) ∧
    ∀ d, (∀ t, (s.door d).stage t = .out) → (s.door d).counter = 0 := by
  have hI := Inv.of_reachable h
  refine ⟨fun hr a s' hstep => hI.touches_returned hr hstep, fun t hl hne => ⟨?_, ?_⟩,
    fun d => (hI.counts d).zero⟩
  · exact fun a s' ha hstep => hI.touches_caller (hI.late t hl).2 ha hstep
  · exact hI.late_leaves hl hne

def oneReader : Config Unit := ⟨fun _ => .rx, fun _ => true, true⟩

/-- The reader leads its group, and its context is canceled while `Close` waits for it. -/
def closeWhileBlocked : List (Act Unit) :=
  [.enter (), .check (), .touch (), .block (), .touch (), .rest (), .next (), .next (), .next (),
    .next (), .cancel (), .tick, .close, .close, .close, .close, .next (), .next (), .next (),
    .unblock (), .next (), .fire (), .next (), .exit (), .close, .close, .close, .beat true, .rip,
    .close, .close, .close]

theorem close_leaves_segment_blocked : ∃ s, (machine oneReader).Reachable s ∧
    s.close = .returned ∧ ∀ a s', step oneReader s a = some s' → touches s a = false :=
  Machine.exists_reachable_and closeWhileBlocked (by decide +kernel) fun _ hs hr =>
    (close_leaves_segment hs).1 hr

/-- The only call there is started after `closed` was set, and `Close` waits for it. -/
theorem close_waits_for_late_call : ∃ s, (machine oneReader).Reachable s ∧
    s.close = .nap ∧ s.late () = true ∧ (s.door .rx).counter = 1 :=
  Machine.exists_reachable [.close, .close, .enter (), .close] (by decide +kernel)

end Hqq.Closing
