import Mathlib.Data.Fintype.Defs
import Hqq.Threads
import Hqq.Word

/-!
# Ownership that is split over two words

Independent of the program that is verified. The first word says that something is `busy`, the
second one with whom, or `nobody`. An owner needs two steps to enter and two to leave. `W` says who
is between two steps.
-/

namespace Hqq

variable {Eid σ τ : Type} {busy state state' : σ} {nobody tok tok' : τ} {W W' : Eid → Prop} {e : Eid}

structure Owned (busy : σ) (nobody : τ) (state : σ) (tok : τ) (W : Eid → Prop) : Prop where
  window : ∀ e, W e → state = busy ∧ tok = nobody ∧ ∀ e', W e' → e' = e
  held : tok ≠ nobody → state = busy

namespace Owned

theorem mono (h : Owned busy nobody state tok W) (hw : ∀ e, W' e → W e) :
    Owned busy nobody state tok W' where
  window e he := by
    obtain ⟨h1, h2, h3⟩ := h.window e (hw e he)
    exact ⟨h1, h2, fun e' he' => h3 e' (hw e' he')⟩
  held := h.held

theorem of_words (h : Owned busy nobody state tok W) (hstate : state' = state) (htok : tok' = tok) :
    Owned busy nobody state' tok' W := by
  rwa [hstate, htok]

theorem claim (h : Owned busy nobody state tok W) (hstate : state ≠ busy)
    (hw : ∀ e', W' e' → e' = e ∨ W e') : Owned busy nobody busy tok W' where
  window e1 h1 := by
    have hno : ∀ e', ¬ W e' := fun e' he' => hstate (h.window e' he').1
    have hone : ∀ e', W' e' → e' = e := fun e' he' => (hw e' he').resolve_right (hno e')
    have htok : tok = nobody := Classical.byContradiction fun hne => hstate (h.held hne)
    exact ⟨rfl, htok, fun e2 h2 => (hone e2 h2).trans (hone e1 h1).symm⟩
  held _ := rfl

theorem own (hstate : state = busy) (hone : ∀ e', W e' → e' = e)
    (hw : ∀ e', W' e' → e' ≠ e ∧ W e') : Owned busy nobody state tok' W' where
  window e' he' := absurd (hone e' (hw e' he').2) (hw e' he').1
  held _ := hstate

theorem release (h : Owned busy nobody state tok W) (hheld : tok ≠ nobody)
    (hw : ∀ e', W' e' → e' = e ∨ W e') : Owned busy nobody state nobody W' where
  window e1 h1 := by
    have hno : ∀ e', ¬ W e' := fun e' he' => hheld (h.window e' he').2.1
    have hone : ∀ e', W' e' → e' = e := fun e' he' => (hw e' he').resolve_right (hno e')
    exact ⟨h.held hheld, rfl, fun e2 h2 => (hone e2 h2).trans (hone e1 h1).symm⟩
  held hne := absurd rfl hne

theorem settle (h : Owned busy nobody state tok W) (he : W e)
    (hw : ∀ e', W' e' → e' ≠ e ∧ W e') : Owned busy nobody state' tok W' where
  window e' he' := absurd ((h.window e he).2.2 e' (hw e' he').2) (hw e' he').1
  held hne := absurd (h.window e he).2.1 hne

end Owned

/-! ## What a thread has done to the two words -/

class Handover (A : Type) where
  state : A
  initToken : A
  ne : initToken ≠ state

attribute [simp] Handover.state Handover.initToken

/-- A thread that swapped any other word is `done`. -/
inductive Phase
  | outside
  | claimed
  | owner
  | committing
  | settled
  | done
  deriving DecidableEq

/-- What a thread has done and seen so far. No thread reads it: it is there to say what the thread
knows. -/
structure View (A : Type) where
  phase : Phase
  read : A → Option Word
  wrote : A → Option Word
  time : Nat

namespace View

variable {A : Type}

def look (v : View A) (now : Nat) : View A := { v with time := now }

/-- The phase is the same, and so is what the thread wrote to the words in `P`. -/
structure Keeps (P : A → Bool) (v v' : View A) : Prop where
  phase : v'.phase = v.phase
  wrote : ∀ f, P f = true → v'.wrote f = v.wrote f

/-- The words in `times` hold times of the past. -/
def MayLook (times : A → Bool) (v : View A) (t : Nat) : Prop :=
  v.time ≤ t ∧ t < 2 ^ 63 ∧ ∀ f w, times f = true → v.read f = some w → w.toNat ≤ t

variable {v v' v'' : View A} {f g : A} {w : Word} {t : Nat} {P : A → Bool}

@[simp] theorem look_phase : (v.look t).phase = v.phase := rfl
@[simp] theorem look_read : (v.look t).read = v.read := rfl
@[simp] theorem look_wrote : (v.look t).wrote = v.wrote := rfl
@[simp] theorem look_time : (v.look t).time = t := rfl

theorem Keeps.refl : Keeps P v v := ⟨rfl, fun _ _ => rfl⟩

theorem Keeps.trans (h : Keeps P v v') (h' : Keeps P v' v'') : Keeps P v v'' :=
  ⟨h'.phase.trans h.phase, fun f hf => (h'.wrote f hf).trans (h.wrote f hf)⟩

theorem Keeps.of_look : Keeps P v (v.look t) := ⟨rfl, fun _ _ => rfl⟩

variable [Handover A]

/-- Between the two swaps of a claim the second word is 0. -/
def MayLoad (v : View A) (f : A) (w : Word) : Prop :=
  f = Handover.initToken → v.phase = .claimed → w = 0

/-- The swap of a fresh claim finds the 0 that it expects. -/
def MayLose (v : View A) (f : A) : Prop := ¬ (f = Handover.initToken ∧ v.phase = .claimed)

variable [DecidableEq A]

def load (v : View A) (f : A) (w : Word) : View A :=
  { v with read :=
      Function.update (if f = Handover.state then fun _ => none else v.read) f (some w) }

def store (v : View A) (f : A) (w : Word) : View A :=
  { v with phase := if f = Handover.state then .settled else v.phase
           wrote := Function.update v.wrote f (some w) }

def swap (v : View A) (f : A) (new : Word) : View A :=
  if f = Handover.state then { v with phase := .claimed }
  else if f = Handover.initToken then
    if new = 0 then { v with phase := .committing }
    else { v with phase := .owner, wrote := fun _ => none }
  else { v with phase := .done }

@[simps] def tracker : Tracker A Word (View A) where
  load := load
  store := store
  swap := swap
  look := look

@[simp] theorem load_phase : (v.load f w).phase = v.phase := rfl
@[simp] theorem load_wrote : (v.load f w).wrote = v.wrote := rfl
@[simp] theorem load_time : (v.load f w).time = v.time := rfl
@[simp] theorem load_read_self : (v.load f w).read f = some w := by simp [load]

@[simp] theorem load_read_of_ne (hf : f ≠ Handover.state) (h : g ≠ f) :
    (v.load f w).read g = v.read g := by
  simp [load, hf, h]

theorem load_read {x : Word} (h : (v.load f w).read g = some x) :
    g = f ∧ x = w ∨ f ≠ Handover.state ∧ v.read g = some x := by
  rcases eq_or_ne g f with rfl | hg
  · exact .inl ⟨rfl, by simpa using h.symm⟩
  · simp only [load, Function.update_of_ne hg] at h
    split at h
    · cases h
    · exact .inr ⟨‹_›, h⟩

@[simp] theorem store_phase (hf : f ≠ Handover.state) : (v.store f w).phase = v.phase := by
  simp [store, hf]

@[simp] theorem store_wrote_self : (v.store f w).wrote f = some w := by simp [store]

@[simp] theorem store_wrote_of_ne (h : g ≠ f) : (v.store f w).wrote g = v.wrote g := by
  simp [store, h]

@[simp] theorem store_time : (v.store f w).time = v.time := rfl
@[simp] theorem store_read : (v.store f w).read = v.read := rfl

@[simp] theorem swap_time : (v.swap f w).time = v.time := by
  unfold swap
  repeat' split
  all_goals rfl

@[simp] theorem swap_read : (v.swap f w).read = v.read := by
  unfold swap
  repeat' split
  all_goals rfl

theorem swap_own (hw : w ≠ 0) :
    v.swap Handover.initToken w = { v with phase := .owner, wrote := fun _ => none } := by
  rw [swap, if_neg Handover.ne, if_pos rfl, if_neg hw]

theorem Keeps.of_load : Keeps P v (v.load f w) := ⟨rfl, fun _ _ => rfl⟩

theorem Keeps.of_store (hs : f ≠ Handover.state) (hp : P f = false) : Keeps P v (v.store f w) := by
  refine ⟨store_phase hs, fun g hg => store_wrote_of_ne ?_⟩
  rintro rfl
  simp [hg] at hp

end View

namespace Threads

variable {Eid A L : Type} {s s' : Threads Eid A Word L (View A)} {e e' : Eid} {v : View A}
  {busy : Word} {times : A → Bool}

/-! ## The two windows -/

/-- Between the two swaps of a claim, or between the swap and the store of a commit. -/
def InWindow (s : Threads Eid A Word L (View A)) (e : Eid) : Prop :=
  s.dead e = false ∧ ((s.view e).phase = .claimed ∨ (s.view e).phase = .committing)

instance (e : Eid) : Decidable (s.InWindow e) := inferInstanceAs (Decidable (_ ∧ _))

theorem inWindow_cases [DecidableEq Eid] (h : s'.InWindow e') (hdead : s'.dead = s.dead)
    (hview : s'.view = Function.update s.view e v) :
    e' = e ∧ (v.phase = .claimed ∨ v.phase = .committing) ∨ e' ≠ e ∧ s.InWindow e' := by
  obtain ⟨hd, hp⟩ := h
  rw [hview] at hp
  rw [hdead] at hd
  rcases eq_or_ne e' e with rfl | he
  · rw [Function.update_self] at hp
    exact .inl ⟨rfl, hp⟩
  · rw [Function.update_of_ne he] at hp
    exact .inr ⟨he, hd, hp⟩

theorem inWindow_of_phase [DecidableEq Eid] (halive : s.dead e = false) (hdead : s'.dead = s.dead)
    (hview : s'.view = Function.update s.view e v) (hphase : v.phase = (s.view e).phase)
    (h : s'.InWindow e') : s.InWindow e' := by
  obtain ⟨rfl, hp⟩ | ⟨-, hw⟩ := inWindow_cases h hdead hview
  · exact ⟨halive, hphase ▸ hp⟩
  · exact hw

theorem inWindow_other [DecidableEq Eid] (h : s'.InWindow e') (hdead : s'.dead = s.dead)
    (hview : s'.view = Function.update s.view e v)
    (hv : v.phase ≠ .claimed ∧ v.phase ≠ .committing) : e' ≠ e ∧ s.InWindow e' := by
  obtain ⟨-, hp | hp⟩ | hw := inWindow_cases h hdead hview
  · exact absurd hp hv.1
  · exact absurd hp hv.2
  · exact hw

theorem inWindow_or [DecidableEq Eid] (hdead : s'.dead = s.dead)
    (hview : s'.view = Function.update s.view e v) (h : s'.InWindow e') : e' = e ∨ s.InWindow e' :=
  (inWindow_cases h hdead hview).imp And.left And.right

/-- The word still holds what the thread read, if it read it. -/
def unchanged (s : Threads Eid A Word L (View A)) (e : Eid) (f : A) : Bool :=
  (s.view e).read f = none || (s.view e).read f = some (s.mem f)

theorem unchanged_eq {f : A} {w : Word} (h : s.unchanged e f = true)
    (hr : (s.view e).read f = some w) : s.mem f = w := by
  simp only [unchanged, hr, reduceCtorEq, decide_false, Bool.false_or, Option.some.injEq,
    decide_eq_true_eq] at h
  exact h.symm

/-! ## Times -/

structure Timely (times : A → Bool) (s : Threads Eid A Word L (View A)) : Prop where
  time : ∀ e, (s.view e).time ≤ s.clock
  beat : ∀ f, times f = true → (s.mem f).toNat ≤ s.clock
  beatRead : ∀ e f w, times f = true → (s.view e).read f = some w → w.toNat ≤ s.clock

theorem Timely.later (hi : s.Timely times) (hmem : s'.mem = s.mem) (hview : s'.view = s.view)
    (hclock : s.clock ≤ s'.clock) : s'.Timely times where
  time e := by
    rw [hview]
    exact (hi.time e).trans hclock
  beat f hf := by
    rw [hmem]
    exact (hi.beat f hf).trans hclock
  beatRead e f w hf hw := by
    rw [hview] at hw
    exact (hi.beatRead e f w hf hw).trans hclock

theorem Timely.of_view [DecidableEq Eid] (hi : s.Timely times) (hclock : s'.clock = s.clock)
    (hbeat : ∀ f, times f = true → (s'.mem f).toNat ≤ s.clock)
    (hview : s'.view = Function.update s.view e v) (htime : v.time ≤ s.clock)
    (hread : ∀ f w, v.read f = some w → (s.view e).read f = some w ∨ w = s.mem f) :
    s'.Timely times := by
  refine ⟨fun e' => ?_, hclock ▸ hbeat, fun e' f w hf hw => ?_⟩ <;> rw [hclock]
  all_goals
    simp only [hview, Function.update_apply] at *
    split at *
  · exact htime
  · exact hi.time e'
  · rcases hread f w hw with hw | rfl
    · exact hi.beatRead e f w hf hw
    · exact hi.beat f hf
  · exact hi.beatRead e' f w hf hw

theorem Timely.of_word [DecidableEq Eid] [DecidableEq A] (hi : s.Timely times) {f : A} {w : Word}
    (hclock : s'.clock = s.clock) (hmem : s'.mem = Function.update s.mem f w)
    (hf : times f = true → w.toNat ≤ s.clock) (hview : s'.view = Function.update s.view e v)
    (htime : v.time = (s.view e).time) (hread : v.read = (s.view e).read) : s'.Timely times := by
  refine hi.of_view hclock (fun g hg => ?_) hview (htime ▸ hi.time e) fun g w hw => .inl (hread ▸ hw)
  rw [hmem, Function.update_apply]
  split
  · next h => exact hf (h ▸ hg)
  · exact hi.beat g hg

/-! ## Who owns the two words -/

variable [Handover A]

abbrev Owned (busy : Word) (s : Threads Eid A Word L (View A)) : Prop :=
  Hqq.Owned busy 0 (s.mem Handover.state) (s.mem Handover.initToken) s.InWindow

/-- What a thread relies on holds if its swaps of the second word expect 0 in a claim. -/
theorem Owned.granted {d : Discipline A Word L (View A)} (ho : s.Owned busy) (ht : s.Timely times)
    (hclock : s.clock < 2 ^ 63) (halive : s.dead e = false) (hload : d.mayLoad = View.MayLoad)
    (hlook : d.mayLook = View.MayLook times) (hlose : d.mayLose = View.MayLose)
    (hswap : ∀ old new, d.maySwap (s.view e) Handover.initToken old new →
      (s.view e).phase = .claimed → old = 0) (hf : d.Follows (s.view e) (s.prog e)) :
    d.Granted s.mem s.clock (s.view e) (s.prog e) := by
  have hzero : (s.view e).phase = .claimed → s.mem Handover.initToken = 0 :=
    fun hc => (ho.window e ⟨halive, .inl hc⟩).2.1
  cases hp : s.prog e with
  | load f k =>
    change d.mayLoad _ _ _
    rw [hload]
    rintro rfl hc
    exact hzero hc
  | cas f old new k =>
    intro hne
    rw [hlose]
    rintro ⟨rfl, hc⟩
    rw [hp] at hf
    exact hne ((hzero hc).trans (hswap old new hf.1 hc).symm)
  | clock k =>
    change d.mayLook _ _
    rw [hlook]
    exact ⟨ht.time e, hclock, ht.beatRead e⟩
  | _ => trivial

variable [DecidableEq A]

/-- The thread is about to take over from nobody: it is not in a claim of its own, and the second
word is 0. -/
def takesZero (s : Threads Eid A Word L (View A)) (e : Eid) : Bool :=
  match s.prog e with
  | .cas f old _ _ =>
    decide (f = Handover.initToken ∧ (s.view e).phase = .outside ∧ s.mem f = old ∧ old = 0)
  | _ => false

/-- No takeover replaces a 0 while another thread is in one of the two windows, or while the first
word is not `busy`. -/
def Exclusive (busy : Word) (s : Threads Eid A Word L (View A)) (e : Eid) : Prop :=
  s.takesZero e = true → s.mem Handover.state = busy ∧ ∀ e', s.InWindow e' → e' = e

instance [DecidableEq Eid] [Fintype Eid] : Decidable (s.Exclusive busy e) :=
  inferInstanceAs (Decidable (_ → _))

/-- The second swap of a claim ends the only window, and before a takeover no window is open. -/
theorem Owned.before_own (ho : s.Owned busy) (halive : s.dead e = false) (hok : s.Exclusive busy e)
    (hv : (s.view e).phase = .claimed ∧ s.mem Handover.initToken = 0 ∨ (s.view e).phase = .outside)
    (hp : ∃ new k, s.prog e = .cas Handover.initToken (s.mem Handover.initToken) new k) :
    s.mem Handover.state = busy ∧ ∀ e', s.InWindow e' → e' = e := by
  rcases hv with ⟨hc, -⟩ | hout
  · have hw := ho.window e ⟨halive, .inl hc⟩
    exact ⟨hw.1, hw.2.2⟩
  rcases Decidable.em (s.mem Handover.initToken = 0) with h0 | h0
  · obtain ⟨new, k, hp⟩ := hp
    apply hok
    simp [takesZero, hp, hout, h0]
  · exact ⟨ho.held h0, fun e' he' => absurd (ho.window e' he').2.1 h0⟩

end Threads

end Hqq
