import Hqq.Machine
import Hqq.Word
import Mathlib.Data.List.Perm.Basic
import Mathlib.Data.List.Count
import Mathlib.Algebra.Order.Group.Int

/-!
# The watchdog of inline handlers

`run`, `arm`, `watch`, `escalate` and `stopWatch` in `rpc.go`. Whether `escalate` finds a slot is up
to the environment.
-/

namespace Hqq.Watch

inductive Phase
  | none
  | handling
  | escalated
  | done
  deriving DecidableEq

def Phase.bits : Phase → BitVec 64
  | .none => 0
  | .handling => 1
  | .escalated => 2
  | .done => 3

/-- What the state word was made of. The code only has `bits`, the last 62 bits of the epoch and the
phase. -/
structure Word where
  epoch : Nat
  phase : Phase
  deriving DecidableEq

def Word.bits (w : Word) : BitVec 64 := word w.epoch <<< 2 ||| w.phase.bits

/-- What a goroutine in `run` does next, and the last receiver in `stop`. -/
inductive Pc
  | receiving
  | stamp
  | storeStart (now : Int)
  | storeState
  | loadArmed (e : Nat)
  | arm (e : Nat)
  | reset (e : Nat)
  | handling (e : Nat)
  | stop
  | stopWatch
  | stopTimer
  /-- `stopWatch` has returned. `stopped`: it has stopped the timer. -/
  | returned (stopped : Bool)
  deriving DecidableEq

/-- What a call of `watch` does next. After `quit` and `reset` it touches nothing any more. -/
inductive Callback
  | top
  | quit
  | loadState
  | now (e : Nat)
  | loadStart (e : Nat) (now : Int)
  | escalate (e : Nat)
  | retry (e : Nat)
  | reset (d : Int)
  | clear
  | reloadStopped
  | reloadState
  | retake
  deriving DecidableEq

structure State where
  clock : Int := 0
  epoch : Nat := 0
  state : Word := ⟨0, .none⟩
  startNs : Int := 0
  armed : Bool := false
  timer : Option Int := none
  stopped : Bool := false
  goroutines : List Pc := [.receiving]
  callbacks : List Callback := []
  /-- When the handler of an epoch started, and which ones were escalated when. No step looks at this. -/
  starts : Nat → Int := fun _ => 0
  escalations : List (Nat × Int) := []

inductive Act
  | tick (d : Nat)
  | fire
  | next (pc : Pc) (last : Bool)
  | watch (w : Callback) (free : Bool)

def run (limit : Int) (s : State) (rest : List Pc) (last : Bool) : Pc → Option State
  | .receiving =>
    if last then some { s with goroutines := .stop :: rest }
    else some { s with goroutines := .stamp :: rest, epoch := s.epoch + 1 }
  | .stamp => some { s with goroutines := .storeStart s.clock :: rest }
  | .storeStart now => some { s with
      goroutines := .storeState :: rest, startNs := now, starts := Function.update s.starts s.epoch now }
  | .storeState => some { s with goroutines := .loadArmed s.epoch :: rest, state := ⟨s.epoch, .handling⟩ }
  | .loadArmed e => some { s with goroutines := (if s.armed then .handling e else .arm e) :: rest }
  | .arm e =>
    if s.armed then some { s with goroutines := .handling e :: rest }
    else some { s with goroutines := .reset e :: rest, armed := true }
  | .reset e => some { s with goroutines := .handling e :: rest, timer := some (s.clock + limit) }
  | .handling e =>
    if s.state.bits = Word.bits ⟨e, .handling⟩ then
      some { s with goroutines := .receiving :: rest, state := ⟨e, .done⟩ }
    else some { s with goroutines := rest }
  | .stop => some { s with goroutines := .stopWatch :: rest, stopped := true }
  | .stopWatch =>
    some { s with goroutines := (if s.armed then .stopTimer else .returned false) :: rest }
  | .stopTimer =>
    if s.timer.isSome then some { s with goroutines := .returned true :: rest, timer := none }
    else some { s with goroutines := .stopWatch :: rest }
  | .returned _ => none

def watch (limit : Int) (s : State) (rest : List Callback) (free : Bool) : Callback → Option State
  | .top => some { s with callbacks := (if s.stopped then .quit else .loadState) :: rest }
  | .quit => some { s with callbacks := rest, armed := false }
  | .loadState => some { s with
      callbacks := (if s.state.phase = .handling then .now s.state.epoch else .clear) :: rest }
  | .now e => some { s with callbacks := .loadStart e s.clock :: rest }
  | .loadStart e now =>
    let wait := limit - (now - s.startNs)
    some { s with callbacks := (if 0 < wait then .reset wait else .escalate e) :: rest }
  | .escalate e =>
    if free = true ∧ s.state.bits = Word.bits ⟨e, .handling⟩ then
      some { s with
        callbacks := .top :: rest, state := ⟨e, .escalated⟩, goroutines := .receiving :: s.goroutines
        escalations := (e, s.clock) :: s.escalations }
    else some { s with callbacks := .retry e :: rest }
  | .retry e => some { s with
      callbacks := (if s.state.bits = Word.bits ⟨e, .handling⟩ then .reset limit else .top) :: rest }
  | .reset d => some { s with callbacks := rest, timer := some (s.clock + d) }
  | .clear => some { s with callbacks := .reloadStopped :: rest, armed := false }
  | .reloadStopped =>
    some { s with callbacks := if s.stopped then rest else .reloadState :: rest }
  | .reloadState =>
    some { s with callbacks := if s.state.phase = .handling then .retake :: rest else rest }
  | .retake =>
    if s.armed then some { s with callbacks := rest }
    else some { s with callbacks := .top :: rest, armed := true }

def step (limit : Int) (s : State) : Act → Option State
  | .tick d => some { s with clock := s.clock + d }
  | .fire =>
    if ∃ due ∈ s.timer, due ≤ s.clock then some { s with timer := none, callbacks := .top :: s.callbacks }
    else none
  | .next pc last => if pc ∈ s.goroutines then run limit s (s.goroutines.erase pc) last pc else none
  | .watch w free => if w ∈ s.callbacks then watch limit s (s.callbacks.erase w) free w else none

def machine (limit : Int) : Machine State Act := ⟨{}, step limit⟩

/-! ## Equal words -/

/-- Fewer than `2^62` requests were taken between a load or store of the state word and the comparison
with it. -/
def Awake (s : State) : Act → Prop
  | .next (.handling e) _ | .watch (.escalate e) _ | .watch (.retry e) _ => s.state.epoch < e + 2 ^ 62
  | _ => True

instance (s : State) (a : Act) : Decidable (Awake s a) := by
  unfold Awake
  split <;> infer_instance

theorem Word.bits_toNat (w : Word) : w.bits.toNat = 4 * (w.epoch % 2 ^ 62) + w.phase.bits.toNat := by
  have hphase : w.phase.bits.toNat < 2 ^ 2 := by cases w.phase <;> decide
  have hshift : (word w.epoch <<< 2).toNat = (w.epoch % 2 ^ 62) <<< 2 := by
    rw [BitVec.toNat_shiftLeft, word_toNat, Nat.shiftLeft_eq, Nat.shiftLeft_eq]
    omega
  rw [Word.bits, BitVec.toNat_or, hshift, ← Nat.shiftLeft_add_eq_or_of_lt hphase, Nat.shiftLeft_eq]
  omega

theorem Word.of_bits {w : Word} {e : Nat} (h : w.bits = Word.bits ⟨e, .handling⟩) (hle : e ≤ w.epoch)
    (hlt : w.epoch < e + 2 ^ 62) : w = ⟨e, .handling⟩ := by
  obtain ⟨epoch, phase⟩ := w
  have hnat := congrArg BitVec.toNat h
  rw [Word.bits_toNat, Word.bits_toNat] at hnat
  dsimp only at hle hlt hnat
  have hhandling : Phase.handling.bits.toNat = 1 := rfl
  have hphase : phase.bits.toNat < 4 := by cases phase <;> decide
  obtain rfl : phase = .handling := by
    have hone : phase.bits.toNat = 1 := by omega
    cases phase <;> first | rfl | exact absurd hone (by decide)
  congr
  omega

/-! ## One token -/

def Pc.arming : Pc → Bool
  | .reset _ => true
  | _ => false

def Pc.stoppedTimer : Pc → Bool
  | .returned stopped => stopped
  | _ => false

def Pc.receives : Pc → Bool
  | .loadArmed _ | .arm _ | .reset _ | .handling _ => false
  | _ => true

def Pc.fresh : Pc → Bool
  | .stamp | .storeStart _ | .storeState => true
  | _ => false

def Pc.epoch : Pc → Nat
  | .loadArmed e | .arm e | .reset e | .handling e => e
  | _ => 0

def Pc.stopping : Pc → Bool
  | .stopWatch | .stopTimer | .returned _ => true
  | _ => false

def Callback.cleared : Callback → Bool
  | .reloadStopped | .reloadState | .retake => true
  | _ => false

def Callback.holding (w : Callback) : Bool := !w.cleared

def Callback.epoch? : Callback → Option Nat
  | .now e => some e
  | .loadStart e _ => some e
  | .escalate e | .retry e => some e
  | _ => none

def Tokens (s : State) : Prop :=
  s.goroutines.countP Pc.arming + s.timer.isSome.toNat + s.callbacks.countP Callback.holding
    + s.goroutines.countP Pc.stoppedTimer = s.armed.toNat

structure Roles (s : State) : Prop where
  role : s.goroutines.countP Pc.receives + (if s.state.phase = .handling then 1 else 0) ≤ 1
  epoch : s.state.epoch + s.goroutines.countP Pc.fresh ≤ s.epoch
  held : ∀ pc ∈ s.goroutines, pc.epoch ≤ s.state.epoch

structure Times (limit : Int) (s : State) : Prop where
  start : s.starts s.state.epoch ≤ s.startNs ∧ s.startNs ≤ s.clock
  stamped : ∀ now, .storeStart now ∈ s.goroutines → s.startNs ≤ now ∧ now ≤ s.clock
  stored : .storeState ∈ s.goroutines → s.starts s.epoch ≤ s.startNs
  loaded : ∀ w ∈ s.callbacks, ∀ e ∈ w.epoch?, e ≤ s.state.epoch ∧ s.starts e ≤ s.startNs
  read : ∀ e now, .loadStart e now ∈ s.callbacks → now ≤ s.clock
  old : ∀ e, .escalate e ∈ s.callbacks → e ≤ s.state.epoch ∧ s.starts e + limit ≤ s.clock
  escalated : ∀ x ∈ s.escalations, x.1 ≤ s.state.epoch ∧ s.starts x.1 + limit ≤ x.2

structure Covered (s : State) : Prop where
  quit : .quit ∈ s.callbacks → s.stopped = true
  covered : s.stopped = false → s.state.phase = .handling → .handling s.state.epoch ∈ s.goroutines →
    s.armed = true ∨ ∃ w ∈ s.callbacks, w.cleared = true

variable {limit : Int} {s s' : State} {rest : List Pc} {ws : List Callback} {last free : Bool}
  {pc : Pc} {w : Callback}

theorem countP_cons_toNat {α : Type} (p : α → Bool) (x : α) (l : List α) :
    (x :: l).countP p = l.countP p + (p x).toNat := by
  rw [List.countP_cons]
  cases p x <;> rfl

theorem Tokens.timer_eq_none (h : Tokens s)
    (hsome : 0 < s.goroutines.countP Pc.arming + s.callbacks.countP Callback.holding) :
    s.timer = none := by
  have hle := s.armed.toNat_le
  unfold Tokens at h
  cases htimer : s.timer with
  | none => rfl
  | some due =>
    rw [htimer, Option.isSome_some, Bool.toNat_true] at h
    omega

theorem Tokens.run (h : Tokens { s with goroutines := pc :: rest })
    (hstep : run limit s rest last pc = some s') : Tokens s' := by
  cases pc with
  | arm e =>
    simp only [Watch.run] at hstep
    split at hstep
    · cases hstep
      exact h
    · next hfree =>
      cases hstep
      simp only [Tokens, countP_cons_toNat, Bool.eq_false_of_not_eq_true hfree] at h ⊢
      simp only [Pc.arming, Pc.stoppedTimer, Bool.toNat_true, Bool.toNat_false] at h ⊢
      omega
  | reset e =>
    cases hstep
    have hnone : s.timer = none := h.timer_eq_none (by simp [Pc.arming])
    simp only [Tokens, countP_cons_toNat, hnone] at h ⊢
    exact h
  | stopTimer =>
    simp only [Watch.run] at hstep
    split at hstep
    · next htimer =>
      cases hstep
      simp only [Tokens, countP_cons_toNat, htimer] at h ⊢
      simp only [Pc.arming, Pc.stoppedTimer, Option.isSome_none, Bool.toNat_true, Bool.toNat_false] at h ⊢
      omega
    · cases hstep
      exact h
  | returned b => cases hstep
  | receiving | loadArmed e | handling e | stopWatch =>
    simp only [Watch.run] at hstep
    split at hstep <;> cases hstep <;> exact h
  | stamp | storeStart now | storeState | stop =>
    cases hstep
    exact h

theorem Tokens.watch (h : Tokens { s with callbacks := w :: ws })
    (hstep : watch limit s ws free w = some s') : Tokens s' := by
  have hle := s.armed.toNat_le
  cases w with
  | quit | clear =>
    cases hstep
    simp only [Tokens, countP_cons_toNat, Callback.holding, Callback.cleared] at h ⊢
    simp only [Bool.not_true, Bool.not_false, Bool.toNat_true, Bool.toNat_false] at h ⊢
    omega
  | reset d =>
    cases hstep
    have hnone : s.timer = none := h.timer_eq_none (by simp [Callback.holding, Callback.cleared])
    simp only [Tokens, countP_cons_toNat, hnone, Callback.holding, Callback.cleared] at h ⊢
    simp only [Option.isSome_none, Option.isSome_some, Bool.not_false, Bool.toNat_true,
      Bool.toNat_false] at h ⊢
    omega
  | retake =>
    simp only [Watch.watch] at hstep
    split at hstep
    · cases hstep
      exact h
    · next hfree =>
      cases hstep
      simp only [Tokens, countP_cons_toNat, Bool.eq_false_of_not_eq_true hfree] at h ⊢
      simp only [Callback.holding, Callback.cleared, Bool.not_true, Bool.not_false, Bool.toNat_true,
        Bool.toNat_false] at h ⊢
      omega
  | top | loadState | loadStart e now | escalate e | retry e | reloadStopped | reloadState =>
    simp only [Watch.watch] at hstep
    split at hstep <;> cases hstep <;> exact h
  | now e =>
    cases hstep
    exact h

theorem fresh_le (l : List Pc) : l.countP Pc.fresh ≤ l.countP Pc.receives :=
  List.countP_mono_left fun pc _ => by cases pc <;> simp [Pc.fresh, Pc.receives]

theorem Roles.run (h : Roles { s with goroutines := pc :: rest }) (hawake : Awake s (.next pc last))
    (hstep : run limit s rest last pc = some s') : Roles s' := by
  obtain ⟨hrole, hepoch, hheld⟩ := h
  simp only [List.forall_mem_cons] at hheld
  cases pc with
  | receiving =>
    simp only [Watch.run] at hstep
    split at hstep <;> cases hstep
    · exact ⟨hrole, hepoch, List.forall_mem_cons.mpr hheld⟩
    · refine ⟨hrole, ?_, List.forall_mem_cons.mpr hheld⟩
      simp only [countP_cons_toNat, Pc.fresh, Bool.toNat_true, Bool.toNat_false] at hepoch ⊢
      omega
  | storeState =>
    cases hstep
    -- it is the only receiver
    have hle := fresh_le rest
    simp only [countP_cons_toNat, Pc.receives, Pc.fresh, Bool.toNat_true] at hrole hepoch
    refine ⟨?_, ?_, List.forall_mem_cons.mpr ⟨le_rfl, fun pc hpc => (hheld.2 pc hpc).trans ?_⟩⟩
    · simp only [countP_cons_toNat, Pc.receives, Bool.toNat_false, if_true]
      omega
    · simp only [countP_cons_toNat, Pc.fresh, Bool.toNat_false]
      omega
    · dsimp only
      omega
  | handling e =>
    simp only [Watch.run] at hstep
    split at hstep
    · next hsame =>
      cases hstep
      have hstate := Word.of_bits hsame hheld.1 hawake
      rw [hstate] at hheld
      simp only [hstate, countP_cons_toNat, Pc.receives, Bool.toNat_false, if_true] at hrole hepoch
      exact ⟨by simpa [countP_cons_toNat, Pc.receives] using hrole, hepoch,
        List.forall_mem_cons.mpr ⟨Nat.zero_le _, hheld.2⟩⟩
    · cases hstep
      exact ⟨hrole, hepoch, hheld.2⟩
  | returned b => cases hstep
  | loadArmed e | arm e | stopWatch | stopTimer =>
    simp only [Watch.run] at hstep
    split at hstep <;> cases hstep <;> exact ⟨hrole, hepoch, List.forall_mem_cons.mpr hheld⟩
  | stamp | storeStart now | reset e | stop =>
    cases hstep
    exact ⟨hrole, hepoch, List.forall_mem_cons.mpr hheld⟩

/-- A callback leaves the goroutines and `stopped` alone, unless it starts a receiver. -/
theorem watch_goroutines (hstep : watch limit s ws free w = some s') : s'.stopped = s.stopped ∧
    s'.epoch = s.epoch ∧ ((s'.goroutines = s.goroutines ∧ s'.state = s.state) ∨
      ∃ e, w = .escalate e ∧ s.state.bits = Word.bits ⟨e, .handling⟩ ∧
        s'.goroutines = .receiving :: s.goroutines ∧ s'.state = ⟨e, .escalated⟩) := by
  cases w with
  | escalate e =>
    simp only [Watch.watch] at hstep
    split at hstep
    · next hfree =>
      cases hstep
      exact ⟨rfl, rfl, .inr ⟨e, rfl, hfree.2, rfl, rfl⟩⟩
    · cases hstep
      exact ⟨rfl, rfl, .inl ⟨rfl, rfl⟩⟩
  | top | loadState | loadStart e now | retry e | reloadStopped | reloadState | retake =>
    simp only [Watch.watch] at hstep
    split at hstep <;> cases hstep <;> exact ⟨rfl, rfl, .inl ⟨rfl, rfl⟩⟩
  | quit | now e | reset d | clear =>
    cases hstep
    exact ⟨rfl, rfl, .inl ⟨rfl, rfl⟩⟩

theorem Roles.watch (h : Roles s) (hle : ∀ e ∈ w.epoch?, e ≤ s.state.epoch)
    (hawake : Awake s (.watch w free)) (hstep : watch limit s ws free w = some s') : Roles s' := by
  obtain ⟨-, hepoch, ⟨hg, hstate⟩ | ⟨e, rfl, hsame, hg, hstate⟩⟩ := watch_goroutines hstep
  · exact ⟨by rw [hg, hstate]; exact h.role, by rw [hg, hstate, hepoch]; exact h.epoch,
      by rw [hg, hstate]; exact h.held⟩
  · have hold := Word.of_bits hsame (hle e rfl) hawake
    have hrole := h.role
    have hcount := h.epoch
    rw [hold] at hrole hcount
    refine ⟨?_, ?_, ?_⟩ <;> rw [hg, hstate]
    · simpa [List.countP_cons, Pc.receives] using hrole
    · simpa [List.countP_cons, Pc.fresh, hepoch] using hcount
    · refine List.forall_mem_cons.mpr ⟨Nat.zero_le _, fun pc hpc => ?_⟩
      simpa [hold] using h.held pc hpc

theorem Roles.alone (h : Roles { s with goroutines := pc :: rest }) (hp : pc.receives = true) :
    ∀ x ∈ rest, x.receives = false := by
  have hrole := h.role
  simp only [List.countP_cons, hp] at hrole
  have hzero : rest.countP Pc.receives = 0 := by grind -ring -linarith
  simpa [List.countP_eq_zero] using hzero

theorem mem_cons_of_not {α : Type} {p : α → Bool} {x y : α} {l : List α} (hx : p x = false) :
    ∀ z ∈ x :: l, p z = true → z ∈ y :: l := by
  intro z hz hp
  rcases List.mem_cons.mp hz with rfl | hz
  · simp [hx] at hp
  · exact List.mem_cons_of_mem _ hz

/-- A step that neither reads the clock nor loads a state word. -/
theorem Times.of_le (h : Times limit s) {gs : List Pc} {ws : List Callback} {v : Word}
    {a b : Bool} {t : Option Int} (hv : v.epoch = s.state.epoch)
    (hg : ∀ pc ∈ gs, pc.fresh = true → pc ∈ s.goroutines)
    (hw : ∀ w ∈ ws, w.epoch?.isSome = true → w ∈ s.callbacks) :
    Times limit { s with
      goroutines := gs, callbacks := ws, state := v, armed := a, stopped := b, timer := t } where
  start := by simpa only [hv] using h.start
  stamped now hm := h.stamped now (hg _ hm rfl)
  stored hm := h.stored (hg _ hm rfl)
  loaded w hm e he := by simpa only [hv] using h.loaded w (hw w hm (by rw [he]; rfl)) e he
  read e now hm := h.read e now (hw _ hm rfl)
  old e hm := by simpa only [hv] using h.old e (hw _ hm rfl)
  escalated x hx := by simpa only [hv] using h.escalated x hx

theorem Times.run (hr : Roles { s with goroutines := pc :: rest })
    (h : Times limit { s with goroutines := pc :: rest }) (hawake : Awake s (.next pc last))
    (hstep : run limit s rest last pc = some s') : Times limit s' := by
  have hwrites : pc.receives = true → ∀ x ∈ rest, x.fresh = false := fun hp x hx => by
    have := hr.alone hp x hx
    cases x <;> simp_all [Pc.fresh, Pc.receives]
  obtain ⟨⟨h1, h2⟩, hstamped, hstored, hloaded, hread, hold, hescalated⟩ := id h
  have he := hr.epoch
  simp only [List.mem_cons, List.countP_cons] at h1 h2 hstamped hstored he
  cases pc with
  | stamp =>
    cases hstep
    refine ⟨⟨h1, h2⟩, fun now hm => ?_, fun hm => hstored (.inr (by simpa using hm)), hloaded, hread,
      hold, hescalated⟩
    rcases List.mem_cons.mp hm with hm | hm
    · cases hm; exact ⟨h2, le_refl _⟩
    · exact hstamped now (.inr hm)
  | storeStart now =>
    cases hstep
    have hnow := hstamped now (.inl rfl)
    -- the state word still has an older epoch
    have hkeep : ∀ e ≤ s.state.epoch, Function.update s.starts s.epoch now e = s.starts e :=
      fun e hle => Function.update_of_ne (by simp [Pc.fresh] at he; omega) ..
    refine ⟨?_, fun now hm => ?_, fun _ => ?_, fun w hw e hwe => ?_, hread, fun e hm => ?_, fun x hx => ?_⟩
    · exact ⟨(hkeep _ (le_refl _)).trans_le (h1.trans hnow.1), hnow.2⟩
    · exact absurd (hwrites rfl _ (by simpa using hm)) (by simp [Pc.fresh])
    · exact (Function.update_self ..).le
    · have ⟨hle, hs⟩ := hloaded w hw e hwe
      exact ⟨hle, (hkeep e hle).trans_le (hs.trans hnow.1)⟩
    · simpa only [hkeep e (hold e hm).1] using hold e hm
    · simpa only [hkeep x.1 (hescalated x hx).1] using hescalated x hx
  | storeState =>
    cases hstep
    have hlt : s.state.epoch ≤ s.epoch := by omega
    refine ⟨⟨hstored (.inl rfl), h2⟩, fun now hm => ?_, fun _ => hstored (.inl rfl), fun w hw e hwe => ?_,
      hread, fun e hm => ⟨(hold e hm).1.trans hlt, (hold e hm).2⟩,
      fun x hx => ⟨(hescalated x hx).1.trans hlt, (hescalated x hx).2⟩⟩
    · exact hstamped now (.inr (by simpa using hm))
    · have ⟨hle, hs⟩ := hloaded w hw e hwe
      exact ⟨hle.trans hlt, hs⟩
  | receiving =>
    simp only [Watch.run] at hstep
    split at hstep <;> cases hstep
    · exact h.of_le rfl (mem_cons_of_not rfl) fun _ hm _ => hm
    · refine ⟨⟨h1, h2⟩, fun now hm => hstamped now (.inr (by simpa using hm)), fun hm => ?_, hloaded, hread,
        hold, hescalated⟩
      exact absurd (hwrites rfl _ (by simpa using hm)) (by simp [Pc.fresh])
  | handling e =>
    simp only [Watch.run] at hstep
    split at hstep <;> cases hstep
    · have hstate : s.state = ⟨e, .handling⟩ := Word.of_bits ‹_› (hr.held _ (.head _)) hawake
      exact h.of_le (by rw [hstate]) (mem_cons_of_not rfl) fun _ hm _ => hm
    · exact h.of_le rfl (fun _ hm _ => List.mem_cons_of_mem _ hm) fun _ hm _ => hm
  | returned => cases hstep
  | _ =>
    simp only [Watch.run] at hstep
    (try split at hstep) <;> cases hstep <;>
      exact h.of_le rfl (mem_cons_of_not rfl) fun _ hm _ => hm

theorem Times.watch (h : Times limit { s with callbacks := w :: ws })
    (hawake : Awake s (.watch w free)) (hstep : watch limit s ws free w = some s') : Times limit s' := by
  obtain ⟨h1, h2, h3, hloaded, hread, hold, hescalated⟩ := id h
  simp only [List.forall_mem_cons] at h1 hloaded
  cases w with
  | loadState =>
    simp only [Watch.watch] at hstep
    split at hstep <;> cases hstep
    · refine ⟨h1, h2, h3, List.forall_mem_cons.mpr ⟨?_, hloaded.2⟩, fun e now hm => ?_, fun e hm => ?_,
        hescalated⟩
      · rintro e ⟨⟩
        exact ⟨le_refl _, h1.1⟩
      · exact hread e now (by simpa using hm)
      · exact hold e (by simpa using hm)
    · exact h.of_le rfl (fun _ hm _ => hm) (mem_cons_of_not rfl)
  | now e =>
    cases hstep
    refine ⟨h1, h2, h3, List.forall_mem_cons.mpr hloaded, fun e now hm => ?_, fun e hm => ?_, hescalated⟩
    · rcases List.mem_cons.mp hm with hm | hm
      · cases hm; exact le_refl _
      · exact hread e now (.tail _ hm)
    · exact hold e (by simpa using hm)
  | loadStart e now =>
    have ⟨hle, hs⟩ := hloaded.1 e rfl
    have hnow := hread e now (.head _)
    simp only [Watch.watch] at hstep
    split at hstep <;> cases hstep
    · exact h.of_le rfl (fun _ hm _ => hm) (mem_cons_of_not rfl)
    · refine ⟨h1, h2, h3, List.forall_mem_cons.mpr hloaded, fun e now hm => ?_, fun e' hm => ?_, hescalated⟩
      · exact hread e now (List.mem_cons_of_mem _ (by simpa using hm))
      · rcases List.mem_cons.mp hm with hm | hm
        · cases hm
          exact ⟨hle, by dsimp only at *; omega⟩
        · exact hold e' (.tail _ hm)
  | escalate e =>
    simp only [Watch.watch] at hstep
    split at hstep
    · next hfree =>
      cases hstep
      have hstate : s.state = ⟨e, .handling⟩ := Word.of_bits hfree.2 (hloaded.1 e rfl).1 hawake
      have k : Times limit { s with
          goroutines := .receiving :: s.goroutines, callbacks := .top :: ws, state := ⟨e, .escalated⟩ } :=
        h.of_le (by rw [hstate]) (fun _ hm hf => (List.mem_cons.mp hm).resolve_left (by rintro rfl; cases hf))
          (mem_cons_of_not rfl)
      refine ⟨k.start, k.stamped, k.stored, k.loaded, k.read, k.old, List.forall_mem_cons.mpr ?_⟩
      exact ⟨⟨le_refl _, (hold e (.head _)).2⟩, k.escalated⟩
    · cases hstep
      refine ⟨h1, h2, h3, List.forall_mem_cons.mpr hloaded, fun e now hm => ?_, fun e' hm => ?_, hescalated⟩
      · exact hread e now (by simpa using hm)
      · exact hold e' (List.mem_cons_of_mem _ (by simpa using hm))
  | quit | reset =>
    cases hstep
    exact h.of_le rfl (fun _ hm _ => hm) fun _ hm _ => List.mem_cons_of_mem _ hm
  | reloadStopped | reloadState | retake =>
    simp only [Watch.watch] at hstep
    split at hstep <;> cases hstep
    all_goals first
      | exact h.of_le rfl (fun _ hm _ => hm) (mem_cons_of_not rfl)
      | exact h.of_le rfl (fun _ hm _ => hm) fun _ hm _ => List.mem_cons_of_mem _ hm
  | _ =>
    simp only [Watch.watch] at hstep
    (try split at hstep) <;> cases hstep <;> exact h.of_le rfl (fun _ hm _ => hm) (mem_cons_of_not rfl)

theorem Tokens.armed (h : Tokens s) (hsome : 0 < s.goroutines.countP Pc.arming) : s.armed = true := by
  unfold Tokens at h
  cases ha : s.armed with
  | true => rfl
  | false =>
    rw [ha, Bool.toNat_false] at h
    omega

theorem Covered.run (ht : Tokens { s with goroutines := pc :: rest })
    (hr : Roles { s with goroutines := pc :: rest }) (h : Covered { s with goroutines := pc :: rest })
    (hstep : run limit s rest last pc = some s') : Covered s' := by
  obtain ⟨hquit, hcovered⟩ := h
  have hkeep {q : Pc} {e : Nat} (hm : .handling e ∈ q :: rest) (hq : ∀ e, .handling e ≠ q) :
      .handling e ∈ pc :: rest := .tail _ ((List.mem_cons.mp hm).resolve_left (hq e))
  cases pc with
  | storeState =>
    cases hstep
    -- nobody runs a handler of the new epoch
    refine ⟨hquit, fun _ _ hm => ?_⟩
    have hheld := hr.held _ (hkeep hm nofun)
    have hepoch := hr.epoch
    simp only [countP_cons_toNat, Pc.fresh, Bool.toNat_true] at hepoch
    simp only [Pc.epoch] at hheld
    omega
  | loadArmed e | arm e =>
    simp only [Watch.run] at hstep
    split at hstep <;> cases hstep
    · exact ⟨hquit, fun _ _ _ => .inl ‹_›⟩
    · first
        | exact ⟨hquit, fun hs hp hm => hcovered hs hp (hkeep hm nofun)⟩
        | exact ⟨hquit, fun _ _ _ => .inl rfl⟩
  | reset e =>
    cases hstep
    exact ⟨hquit, fun _ _ _ => .inl (ht.armed (by simp [Pc.arming]))⟩
  | handling e =>
    simp only [Watch.run] at hstep
    split at hstep <;> cases hstep
    · exact ⟨hquit, fun _ hp => by cases hp⟩
    · exact ⟨hquit, fun hs hp hm => hcovered hs hp (.tail _ hm)⟩
  | stop =>
    cases hstep
    exact ⟨fun _ => rfl, fun hs => by cases hs⟩
  | returned b => cases hstep
  | receiving | stopWatch | stopTimer =>
    simp only [Watch.run] at hstep
    split at hstep <;> cases hstep <;>
      exact ⟨hquit, fun hs hp hm => hcovered hs hp (hkeep hm nofun)⟩
  | stamp | storeStart now =>
    cases hstep
    exact ⟨hquit, fun hs hp hm => hcovered hs hp (hkeep hm nofun)⟩

/-- A callback that had not cleared `armed` covers nothing. -/
theorem Covered.move (h : Covered { s with callbacks := w :: ws }) (hw : w.cleared = false)
    {ws' : List Callback} (hquit : .quit ∈ ws' → .quit ∈ ws) (hsub : ∀ x ∈ ws, x ∈ ws') :
    Covered { s with callbacks := ws' } where
  quit hm := h.quit (.tail _ (hquit hm))
  covered hs hp hg := by
    obtain harmed | ⟨x, hx, hc⟩ := h.covered hs hp hg
    · exact .inl harmed
    · refine .inr ⟨x, hsub x ((List.mem_cons.mp hx).resolve_left ?_), hc⟩
      rintro rfl
      simp [hw] at hc

theorem Covered.watch (h : Covered { s with callbacks := w :: ws })
    (hstep : watch limit s ws free w = some s') : Covered s' := by
  have hquit {q : Callback} (hm : .quit ∈ q :: ws) (hq : .quit ≠ q) : .quit ∈ ws :=
    (List.mem_cons.mp hm).resolve_left hq
  have hrest : .quit ∈ ws → s.stopped = true := fun hm => h.quit (.tail _ hm)
  have hsub {q : Callback} : ∀ x ∈ ws, x ∈ q :: ws := fun _ => .tail _
  cases w with
  | top =>
    simp only [Watch.watch] at hstep
    split at hstep <;> cases hstep
    · next hstopped => exact ⟨fun _ => hstopped, fun hs => by simp [hstopped] at hs⟩
    · exact h.move rfl (hquit · nofun) hsub
  | quit =>
    cases hstep
    have hstopped := h.quit (.head _)
    exact ⟨hrest, fun hs => by simp_all⟩
  | clear =>
    cases hstep
    exact ⟨fun hm => hrest (hquit hm nofun), fun _ _ _ => .inr ⟨_, .head _, rfl⟩⟩
  | reloadStopped =>
    simp only [Watch.watch] at hstep
    split at hstep <;> cases hstep
    · next hstopped => exact ⟨hrest, fun hs => by simp [hstopped] at hs⟩
    · exact ⟨fun hm => hrest (hquit hm nofun), fun _ _ _ => .inr ⟨_, .head _, rfl⟩⟩
  | reloadState =>
    simp only [Watch.watch] at hstep
    split at hstep <;> cases hstep
    · exact ⟨fun hm => hrest (hquit hm nofun), fun _ _ _ => .inr ⟨_, .head _, rfl⟩⟩
    · exact ⟨hrest, fun _ hp => absurd hp ‹_›⟩
  | retake =>
    simp only [Watch.watch] at hstep
    split at hstep <;> cases hstep
    · exact ⟨hrest, fun _ _ _ => .inl ‹_›⟩
    · exact ⟨fun hm => hrest (hquit hm nofun), fun _ _ _ => .inl rfl⟩
  | escalate e =>
    simp only [Watch.watch] at hstep
    split at hstep <;> cases hstep
    · exact ⟨fun hm => hrest (hquit hm nofun), fun _ hp => by cases hp⟩
    · exact h.move rfl (hquit · nofun) hsub
  | loadState | loadStart e now | retry e =>
    simp only [Watch.watch] at hstep
    split at hstep <;> cases hstep <;> exact h.move rfl (hquit · nofun) hsub
  | now e =>
    cases hstep
    exact h.move rfl (hquit · nofun) hsub
  | reset d =>
    cases hstep
    have hmove := h.move rfl id fun _ => id
    exact ⟨hmove.quit, hmove.covered⟩

structure Inv (limit : Int) (s : State) : Prop where
  tokens : Tokens s
  roles : Roles s
  times : Times limit s
  covered : Covered s

theorem Inv.perm {gs : List Pc} {ws : List Callback} (h : Inv limit s) (hg : s.goroutines.Perm gs)
    (hw : s.callbacks.Perm ws) : Inv limit { s with goroutines := gs, callbacks := ws } := by
  obtain ⟨h1, ⟨h2, h3, h4⟩, ⟨h5, h6, h7, h8, h9, h10, h11⟩, ⟨h12, h13⟩⟩ := h
  simp only [Tokens, hg.countP_eq, hw.countP_eq, hg.mem_iff, hw.mem_iff] at *
  exact ⟨h1, ⟨h2, h3, h4⟩, ⟨h5, h6, h7, h8, h9, h10, h11⟩, ⟨h12, h13⟩⟩

theorem Inv.step (h : Inv limit s) {a : Act} (hawake : Awake s a) (hstep : step limit s a = some s') :
    Inv limit s' := by
  cases a with
  | tick d =>
    cases hstep
    obtain ⟨ht, hr, ht', hc⟩ := h
    have hle : s.clock ≤ s.clock + d := by omega
    exact ⟨ht, ⟨hr.role, hr.epoch, hr.held⟩,
      ⟨⟨ht'.start.1, ht'.start.2.trans hle⟩, fun now hm => (ht'.stamped now hm).imp_right (·.trans hle),
        ht'.stored, ht'.loaded, fun e now hm => (ht'.read e now hm).trans hle,
        fun e hm => (ht'.old e hm).imp_right (·.trans hle), ht'.escalated⟩, ⟨hc.quit, hc.covered⟩⟩
  | fire =>
    simp only [Watch.step] at hstep
    split at hstep
    · next hdue =>
      cases hstep
      obtain ⟨due, htimer, -⟩ := hdue
      obtain ⟨ht, hr, ht', hc⟩ := h
      refine ⟨?_, ⟨hr.role, hr.epoch, hr.held⟩, ht'.of_le rfl (fun _ hm _ => hm) fun w hw he => ?_,
        fun hm => hc.quit (by simpa using hm), fun hs hp hg => (hc.covered hs hp hg).imp_right ?_⟩
      · simp only [Tokens, Option.mem_def.mp htimer, countP_cons_toNat, Callback.holding,
          Callback.cleared] at ht ⊢
        simp only [Option.isSome_some, Option.isSome_none, Bool.not_false, Bool.toNat_true,
          Bool.toNat_false] at ht ⊢
        omega
      · exact (List.mem_cons.mp hw).resolve_left (by rintro rfl; cases he)
      · exact fun ⟨w, hw, hcleared⟩ => ⟨w, .tail _ hw, hcleared⟩
    · cases hstep
  | next pc last =>
    simp only [Watch.step] at hstep
    split at hstep
    · have h' := h.perm (List.perm_cons_erase ‹_›) (.refl _)
      exact ⟨h'.tokens.run hstep, h'.roles.run hawake hstep, h'.times.run h'.roles hawake hstep,
        h'.covered.run h'.tokens h'.roles hstep⟩
    · cases hstep
  | watch w free =>
    simp only [Watch.step] at hstep
    split at hstep
    · next hw =>
      have h' := h.perm (.refl _) (List.perm_cons_erase hw)
      exact ⟨h'.tokens.watch hstep, h.roles.watch (fun e he => (h.times.loaded w hw e he).1) hawake hstep,
        h'.times.watch hawake hstep, h'.covered.watch hstep⟩
    · cases hstep

theorem Inv.of_reach {ok : State → Act → Prop} (hok : ∀ s a, ok s a → Awake s a)
    (h : (machine limit).Reach ok s) : Inv limit s := by
  refine h.invariant ⟨rfl, ?_, ?_, ?_⟩ fun s a _ _ hi ha hstep => hi.step (hok s a ha) hstep
  · constructor <;> simp [machine, Pc.receives, Pc.fresh, Pc.epoch]
  · constructor <;> simp [machine]
  · constructor <;> simp [machine]

/-! ## After the watchdog was stopped -/

/-- No goroutine takes `armed` once `stopped` is set, and `stopWatch` does not return while a callback
that has cleared `armed` still runs. -/
def Timely (s : State) : Act → Prop
  | .next (.arm _) _ => s.stopped = true → s.armed = true
  | .next .stopWatch _ => s.armed = true ∨ ∀ w ∈ s.callbacks, w.cleared = false
  | .next .stopTimer _ => s.timer = none ∨ ∀ w ∈ s.callbacks, w.cleared = false
  | _ => True

instance (s : State) (a : Act) : Decidable (Timely s a) := by
  unfold Timely
  split <;> infer_instance

structure Quiet (s : State) : Prop where
  stopped : ∀ pc ∈ s.goroutines, pc.stopping = true → s.stopped = true
  quiet : ∀ b, .returned b ∈ s.goroutines →
    s.goroutines.countP Pc.arming = 0 ∧ s.callbacks = [] ∧ s.timer = none

theorem Tokens.no_callback (h : Tokens s) (hno : ∀ w ∈ s.callbacks, w.cleared = false)
    (hfree : s.armed = false ∨ s.timer.isSome = true) :
    s.goroutines.countP Pc.arming = 0 ∧ s.callbacks = [] ∧ (s.armed = false → s.timer = none) := by
  have hall : s.callbacks.countP Callback.holding = s.callbacks.length := by
    simpa [List.countP_eq_length, Callback.holding] using hno
  have hle := s.armed.toNat_le
  simp only [Tokens, hall] at h
  rcases hfree with hfree | hfree <;> rw [hfree] at h
  · simp only [Bool.toNat_false] at h
    refine ⟨by omega, List.length_eq_zero_iff.mp (by omega), fun _ => ?_⟩
    cases htimer : s.timer with
    | none => rfl
    | some due => simp [htimer] at h
  · simp only [Bool.toNat_true] at h
    refine ⟨by omega, List.length_eq_zero_iff.mp (by omega), fun hf => ?_⟩
    simp only [hf, Bool.toNat_false] at h
    omega

theorem Quiet.run (ht : Tokens { s with goroutines := pc :: rest })
    (h : Quiet { s with goroutines := pc :: rest }) (hok : Timely s (.next pc last))
    (hstep : run limit s rest last pc = some s') : Quiet s' := by
  have hno := ht.no_callback
  obtain ⟨hstopped, hquiet⟩ := h
  simp only [List.forall_mem_cons] at hstopped
  have hmem {q : Pc} {b : Bool} (hm : .returned b ∈ q :: rest) (hq : ∀ b, .returned b ≠ q) :
      .returned b ∈ rest := (List.mem_cons.mp hm).resolve_left (hq b)
  cases pc with
  | arm e =>
    simp only [Watch.run] at hstep
    split at hstep <;> cases hstep
    · exact ⟨List.forall_mem_cons.mpr ⟨nofun, hstopped.2⟩, fun b hm => hquiet b (.tail _ (hmem hm nofun))⟩
    · next hfree =>
      refine ⟨List.forall_mem_cons.mpr ⟨nofun, hstopped.2⟩, fun b hm => ?_⟩
      exact absurd (hok (hstopped.2 _ (hmem hm nofun) rfl)) hfree
  | reset e =>
    cases hstep
    refine ⟨List.forall_mem_cons.mpr ⟨nofun, hstopped.2⟩, fun b hm => ?_⟩
    have hzero := (hquiet b (.tail _ (hmem hm nofun))).1
    simp [Pc.arming] at hzero
  | stopWatch =>
    simp only [Watch.run] at hstep
    split at hstep <;> cases hstep
    · exact ⟨List.forall_mem_cons.mpr hstopped, fun b hm => hquiet b (.tail _ (hmem hm nofun))⟩
    · next hfree =>
      obtain ⟨harming, hcallbacks, htimer⟩ :=
        hno (hok.resolve_left hfree) (.inl (Bool.eq_false_of_not_eq_true hfree))
      exact ⟨List.forall_mem_cons.mpr hstopped,
        fun _ _ => ⟨harming, hcallbacks, htimer (Bool.eq_false_of_not_eq_true hfree)⟩⟩
  | stopTimer =>
    simp only [Watch.run] at hstep
    split at hstep <;> cases hstep
    · next htimer =>
      have hcleared := hok.resolve_left fun hnone => by simp [hnone] at htimer
      obtain ⟨harming, hcallbacks, -⟩ := hno hcleared (.inr htimer)
      exact ⟨List.forall_mem_cons.mpr hstopped, fun _ _ => ⟨harming, hcallbacks, rfl⟩⟩
    · exact ⟨List.forall_mem_cons.mpr hstopped, fun b hm => hquiet b (.tail _ (hmem hm nofun))⟩
  | handling e =>
    simp only [Watch.run] at hstep
    split at hstep <;> cases hstep
    · exact ⟨List.forall_mem_cons.mpr ⟨nofun, hstopped.2⟩, fun b hm => hquiet b (.tail _ (hmem hm nofun))⟩
    · exact ⟨hstopped.2, fun b hm => hquiet b (.tail _ hm)⟩
  | stop =>
    cases hstep
    exact ⟨fun _ _ _ => rfl, fun b hm => hquiet b (.tail _ (hmem hm nofun))⟩
  | returned b => cases hstep
  | receiving | loadArmed e =>
    simp only [Watch.run] at hstep
    split at hstep <;> cases hstep <;>
      exact ⟨List.forall_mem_cons.mpr ⟨nofun, hstopped.2⟩, fun b hm => hquiet b (.tail _ (hmem hm nofun))⟩
  | stamp | storeStart now | storeState =>
    cases hstep
    exact ⟨List.forall_mem_cons.mpr ⟨nofun, hstopped.2⟩, fun b hm => hquiet b (.tail _ (hmem hm nofun))⟩

theorem Quiet.watch (h : Quiet s) (hw : w ∈ s.callbacks) (hstep : watch limit s ws free w = some s') :
    Quiet s' := by
  have hnone : ∀ b, .returned b ∉ s.goroutines := fun b hb => by
    rw [(h.quiet b hb).2.1] at hw
    cases hw
  obtain ⟨hstopped, -, ⟨hg, -⟩ | ⟨e, -, -, hg, -⟩⟩ := watch_goroutines hstep
  · exact ⟨by rw [hg, hstopped]; exact h.stopped, fun b hb => absurd (hg ▸ hb) (hnone b)⟩
  · refine ⟨?_, fun b hb => ?_⟩
    · rw [hg, hstopped]
      exact List.forall_mem_cons.mpr ⟨nofun, h.stopped⟩
    · rw [hg] at hb
      exact absurd ((List.mem_cons.mp hb).resolve_left nofun) (hnone b)

theorem Quiet.step (hi : Inv limit s) (h : Quiet s) {a : Act} (hok : Timely s a)
    (hstep : step limit s a = some s') : Quiet s' := by
  obtain ⟨h1, h2⟩ := h
  cases a with
  | tick d => cases hstep; exact ⟨h1, h2⟩
  | fire =>
    simp only [Watch.step] at hstep
    split at hstep <;> cases hstep
    obtain ⟨due, htimer, -⟩ := ‹∃ due ∈ s.timer, _›
    exact ⟨h1, fun b hb => by simp [(h2 b hb).2.2] at htimer⟩
  | next pc last =>
    simp only [Watch.step] at hstep
    split at hstep
    · have hp := List.perm_cons_erase ‹pc ∈ _›
      refine Quiet.run (hi.perm hp (.refl _)).tokens ⟨?_, ?_⟩ hok hstep
      · simpa only [hp.mem_iff] using h1
      · simpa only [hp.mem_iff, hp.countP_eq] using h2
    · cases hstep
  | watch w free =>
    simp only [Watch.step] at hstep
    split at hstep
    · exact Quiet.watch ⟨h1, h2⟩ ‹_› hstep
    · cases hstep

/-- An inline handler past its arming step is covered, `armed` has one holder until `stopWatch` has
stopped the timer, and only old handlers were escalated. -/
structure Watched (limit : Int) (s : State) : Prop where
  covered : s.stopped = false → ∀ e, s.state = ⟨e, .handling⟩ → .handling e ∈ s.goroutines →
    s.armed = true ∨ ∃ w ∈ s.callbacks, w.cleared = true
  holder : s.armed = true → .returned true ∉ s.goroutines →
    s.goroutines.countP Pc.arming + (if s.timer.isSome then 1 else 0)
      + s.callbacks.countP (! ·.cleared) = 1
  escalated : ∀ x ∈ s.escalations, s.starts x.1 + limit ≤ x.2

theorem Inv.watched (h : Inv limit s) : Watched limit s where
  covered hs e he hg := h.covered.covered hs (by rw [he]) (by rwa [he])
  holder ha hno := by
    have hzero : s.goroutines.countP Pc.stoppedTimer = 0 :=
      List.countP_eq_zero.mpr fun pc hpc hp => by cases pc <;> simp_all [Pc.stoppedTimer]
    have ht := h.tokens
    simp only [Tokens, hzero, ha] at ht
    change _ + _ + s.callbacks.countP Callback.holding = 1
    cases htimer : s.timer <;> simpa [htimer] using ht
  escalated x hx := (h.times.escalated x hx).2

theorem watchdog_covers_and_ends (limit : Int) :
    (∀ s, (machine limit).Reach Awake s → Watched limit s) ∧
      ∀ s, (machine limit).Reach (fun s a => Awake s a ∧ Timely s a) s → ∀ b, .returned b ∈ s.goroutines →
        s.callbacks = [] ∧ s.timer = none := by
  refine ⟨fun s h => (Inv.of_reach (fun _ _ => id) h).watched, fun s h b hb => ?_⟩
  have hq : Quiet s := h.invariant ⟨by simp [machine, Pc.stopping], by simp [machine]⟩
    fun _ _ _ hr hq hok hstep => hq.step (Inv.of_reach (fun _ _ => And.left) hr) hok.2 hstep
  exact (hq.quiet b hb).2

def receive (now : Int) : List Act :=
  [.next .receiving false, .next .stamp false, .next (.storeStart now) false, .next .storeState false]

def arming (e : Nat) : List Act :=
  [.next (.loadArmed e) false, .next (.arm e) false, .next (.reset e) false]

def overtake (e : Nat) (now : Int) : List Act :=
  [.fire, .watch .top true, .watch .loadState true, .watch (.now e) true, .watch (.loadStart e now) true,
    .watch (.escalate e) true]

def giveUp : List Act :=
  [.watch .top true, .watch .loadState true, .watch .clear true, .watch .reloadStopped true,
    .watch .reloadState true]

def stopping : List Act := [.next .receiving true, .next .stop true, .next .stopWatch true]

theorem watchdog_covers_and_ends_escalated :
    ∃ s, (machine 2).Reach (fun s a => Awake s a ∧ Timely s a) s ∧
    (.returned true ∈ s.goroutines ∧ s.escalations = [(1, 2)]) ∧
    Watched 2 s ∧ s.callbacks = [] ∧ s.timer = none :=
  Machine.exists_reach_and
    (receive 0 ++ arming 1 ++ [.tick 2] ++ overtake 1 2 ++ giveUp ++ receive 2 ++ arming 2
      ++ [.next (.handling 2) true] ++ stopping ++ [.next .stopTimer true])
    (by decide +kernel) fun s hs hP =>
      ⟨(watchdog_covers_and_ends 2).1 s (hs.mono fun _ _ => And.left),
        (watchdog_covers_and_ends 2).2 s hs true hP.1⟩

/-- An overtaken receiver arms the timer after `stopWatch` has returned, and the timer fires. -/
theorem callback_after_stopWatch :
    (∃ s, (machine 2).Reachable s ∧ .returned false ∈ s.goroutines ∧ (step 2 s .fire).isSome = true) ∧
    (∃ s, (machine 2).Reachable s ∧ .returned false ∈ s.goroutines ∧ s.callbacks = [.reloadStopped]) ∧
    (∃ s, (machine 2).Reachable s ∧ (s.stopped = false ∧ s.state = ⟨2, .handling⟩) ∧
      (.handling 2 ∈ s.goroutines ∧ s.armed = false) ∧ s.callbacks = [.retake]) ∧
    ∃ s, (machine 2).Reachable s ∧ s.armed = true ∧ s.goroutines = [.returned true] ∧
      s.timer = none ∧ s.callbacks = [] := by
  refine ⟨Machine.exists_reachable (receive 0 ++ arming 1 ++ [.next (.handling 1) true] ++ receive 0
      ++ [.tick 2] ++ overtake 2 2 ++ giveUp ++ stopping ++ arming 2 ++ [.tick 2]) (by decide +kernel),
    Machine.exists_reachable (receive 0 ++ arming 1 ++ [.tick 2, .next (.handling 1) true, .fire]
      ++ giveUp.take 3 ++ stopping) (by decide +kernel),
    Machine.exists_reachable (receive 0 ++ arming 1 ++ [.tick 2, .next (.handling 1) true, .fire]
      ++ giveUp.take 2 ++ receive 2 ++ [.next (.loadArmed 2) true] ++ giveUp.drop 2)
      (by decide +kernel),
    Machine.exists_reachable (receive 0 ++ arming 1 ++ [.next (.handling 1) true] ++ stopping
      ++ [.next .stopTimer true]) (by decide +kernel)⟩

end Hqq.Watch
