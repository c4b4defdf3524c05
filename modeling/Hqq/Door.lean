import Mathlib.Data.Finset.Card

/-!
# A counter and a flag that let nobody in any more

Independent of the program that is verified. Whoever closes the door sets the flag and waits until
the counter is 0.
-/

namespace Hqq

inductive Door.Stage
  | out
  | counted
  | inside
  | refused
  deriving DecidableEq

structure Door (T : Type) where
  counter : Nat
  closed : Bool
  stage : T → Door.Stage

namespace Door

variable {T : Type} [DecidableEq T] {d : Door T}

def fresh (T : Type) : Door T := ⟨0, false, fun _ => .out⟩

def enter (d : Door T) (t : T) : Door T :=
  { d with counter := d.counter + 1, stage := Function.update d.stage t .counted }

def look (d : Door T) (t : T) : Door T :=
  { d with stage := Function.update d.stage t (if d.closed then .refused else .inside) }

def leave (d : Door T) (t : T) : Door T :=
  { d with counter := d.counter - 1, stage := Function.update d.stage t .out }

def shut (d : Door T) : Door T := { d with closed := true }

def Counts (d : Door T) : Prop :=
  ∃ F : Finset T, F.card = d.counter ∧ ∀ t, t ∈ F ↔ d.stage t ≠ .out

structure Quiet (d : Door T) : Prop where
  closed : d.closed = true
  outside : ∀ t, d.stage t ≠ .inside

omit [DecidableEq T] in
theorem Counts.fresh : (fresh T).Counts := ⟨∅, rfl, fun t => by simp [Door.fresh]⟩

theorem Counts.enter (h : d.Counts) {t : T} (ht : d.stage t = .out) : (d.enter t).Counts := by
  obtain ⟨F, hcard, hF⟩ := h
  have hnew : t ∉ F := fun hmem => (hF t).mp hmem ht
  refine ⟨insert t F, ?_, fun u => ?_⟩
  · rw [Finset.card_insert_of_notMem hnew, hcard]
    rfl
  · rcases eq_or_ne u t with rfl | hne
    · simp [Door.enter]
    · simp [Door.enter, hne, hF]

theorem Counts.look (h : d.Counts) {t : T} (ht : d.stage t ≠ .out) : (d.look t).Counts := by
  obtain ⟨F, hcard, hF⟩ := h
  refine ⟨F, hcard, fun u => ?_⟩
  rcases eq_or_ne u t with rfl | hne
  · simp only [Door.look, Function.update_self, hF, ne_eq, ht, not_false_eq_true, true_iff]
    split_ifs <;> simp
  · simp [Door.look, hne, hF]

theorem Counts.leave (h : d.Counts) {t : T} (ht : d.stage t ≠ .out) : (d.leave t).Counts := by
  obtain ⟨F, hcard, hF⟩ := h
  refine ⟨F.erase t, ?_, fun u => ?_⟩
  · rw [Finset.card_erase_of_mem ((hF t).mpr ht), hcard]
    rfl
  · rcases eq_or_ne u t with rfl | hne
    · simp [Door.leave]
    · simp [Door.leave, hne, hF]

omit [DecidableEq T] in
theorem Counts.shut (h : d.Counts) : d.shut.Counts := h

omit [DecidableEq T] in
theorem Counts.all_out (h : d.Counts) (h0 : d.counter = 0) (t : T) : d.stage t = .out := by
  obtain ⟨F, hcard, hF⟩ := h
  rw [h0, Finset.card_eq_zero] at hcard
  by_contra hne
  have hmem := (hF t).mpr hne
  simp [hcard] at hmem

omit [DecidableEq T] in
theorem Counts.zero (h : d.Counts) (hout : ∀ t, d.stage t = .out) : d.counter = 0 := by
  obtain ⟨F, hcard, hF⟩ := h
  rw [← hcard, Finset.card_eq_zero, Finset.eq_empty_iff_forall_notMem]
  exact fun t ht => (hF t).mp ht (hout t)

omit [DecidableEq T] in
/-- The closer set the flag and then saw the counter at 0. -/
theorem Counts.quiet (h : d.Counts) (hclosed : d.closed = true) (h0 : d.counter = 0) : d.Quiet :=
  ⟨hclosed, fun t ht => by rw [h.all_out h0 t] at ht; cases ht⟩

theorem Quiet.enter (h : d.Quiet) (t : T) : (d.enter t).Quiet := by
  refine ⟨h.closed, fun u => ?_⟩
  rcases eq_or_ne u t with rfl | hne
  · simp [Door.enter]
  · simpa [Door.enter, hne] using h.outside u

theorem Quiet.look (h : d.Quiet) (t : T) : (d.look t).Quiet := by
  refine ⟨h.closed, fun u => ?_⟩
  rcases eq_or_ne u t with rfl | hne
  · simp [Door.look, h.closed]
  · simpa [Door.look, hne] using h.outside u

theorem Quiet.leave (h : d.Quiet) (t : T) : (d.leave t).Quiet := by
  refine ⟨h.closed, fun u => ?_⟩
  rcases eq_or_ne u t with rfl | hne
  · simp [Door.leave]
  · simpa [Door.leave, hne] using h.outside u

end Door

end Hqq
