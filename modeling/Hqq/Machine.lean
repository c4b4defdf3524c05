import Mathlib.Data.List.Basic

/-!
# Machines that take one step at a time

Independent of the program that is verified. An action picks which of the enabled steps is taken
next. A property of every interleaving is a property of every state that some list of actions reaches.
-/

namespace Hqq

/-- `step s a = none` means that the action `a` is not enabled in `s`. -/
structure Machine (σ α : Type*) where
  init : σ
  step : σ → α → Option σ

namespace Machine

variable {σ α : Type*} (m : Machine σ α)

def runFrom (s : σ) : List α → Option σ
  | [] => some s
  | a :: rest => (m.step s a).bind (runFrom · rest)

inductive Reach (ok : σ → α → Prop) : σ → Prop
  | init : Reach ok m.init
  | step {s s' : σ} {a : α} : Reach ok s → ok s a → m.step s a = some s' → Reach ok s'

def Reachable : σ → Prop := m.Reach fun _ _ => True

variable {m}

theorem Reach.invariant {ok : σ → α → Prop} {I : σ → Prop} (h0 : I m.init)
    (hstep : ∀ s a s', m.Reach ok s → I s → ok s a → m.step s a = some s' → I s')
    {s : σ} (h : m.Reach ok s) : I s := by
  induction h with
  | init => exact h0
  | step hr hok hs ih => exact hstep _ _ _ hr ih hok hs

theorem Reach.mono {ok ok' : σ → α → Prop} (himp : ∀ s a, ok s a → ok' s a) {s : σ}
    (h : m.Reach ok s) : m.Reach ok' s := by
  induction h with
  | init => exact .init
  | step _ hok hs ih => exact .step ih (himp _ _ hok) hs

@[simp] theorem runFrom_nil (s : σ) : m.runFrom s [] = some s := rfl

theorem runFrom_cons (s : σ) (a : α) (rest : List α) :
    m.runFrom s (a :: rest) = (m.step s a).bind (m.runFrom · rest) := rfl

theorem runFrom_append (s : σ) (as bs : List α) :
    m.runFrom s (as ++ bs) = (m.runFrom s as).bind (m.runFrom · bs) := by
  induction as generalizing s with
  | nil => rfl
  | cons a rest ih =>
    simp only [List.cons_append, runFrom_cons]
    cases m.step s a with
    | none => rfl
    | some s' => simpa using ih s'

theorem Reachable.runFrom {s s' : σ} (h : m.Reachable s) (as : List α)
    (hrun : m.runFrom s as = some s') : m.Reachable s' := by
  induction as generalizing s with
  | nil => simp only [runFrom_nil, Option.some.injEq] at hrun; exact hrun ▸ h
  | cons a rest ih =>
    rw [runFrom_cons, Option.bind_eq_some_iff] at hrun
    obtain ⟨s1, hs1, hrest⟩ := hrun
    exact ih (.step h trivial hs1) hrest

def runWith (m : Machine σ α) (ok : σ → α → Prop) [∀ s a, Decidable (ok s a)] (s : σ) :
    List α → Option σ
  | [] => some s
  | a :: rest => if ok s a then (m.step s a).bind (runWith m ok · rest) else none

theorem Reach.runWith {ok : σ → α → Prop} [∀ s a, Decidable (ok s a)] {s s' : σ}
    (h : m.Reach ok s) {as : List α} (hrun : m.runWith ok s as = some s') : m.Reach ok s' := by
  induction as generalizing s with
  | nil => simp only [Machine.runWith, Option.some.injEq] at hrun; exact hrun ▸ h
  | cons a rest ih =>
    simp only [Machine.runWith] at hrun
    split_ifs at hrun with hok
    obtain ⟨s1, hs1, hrest⟩ := Option.bind_eq_some_iff.mp hrun
    exact ih (.step h hok hs1) hrest

theorem of_guard {c : Prop} [Decidable c] {s s' : σ} (h : (if c then some s else none) = some s') :
    c ∧ s = s' := by
  split at h <;> cases h
  exact ⟨‹_›, rfl⟩

/-! ## Runs found by running -/

theorem exists_of_any {P : σ → Prop} [DecidablePred P] {o : Option σ}
    (h : (o.any fun s => decide (P s)) = true) : ∃ s, o = some s ∧ P s := by
  cases o with
  | none => simp at h
  | some s => exact ⟨s, rfl, by simpa using h⟩

theorem exists_reachable {P : σ → Prop} [DecidablePred P] (as : List α)
    (h : ((m.runFrom m.init as).any fun s => decide (P s)) = true) :
    ∃ s, m.Reachable s ∧ P s := by
  obtain ⟨s, hs, hP⟩ := exists_of_any h
  exact ⟨s, .runFrom .init _ hs, hP⟩

theorem exists_reach {P : σ → Prop} [DecidablePred P] {ok : σ → α → Prop}
    [∀ s a, Decidable (ok s a)] (as : List α)
    (h : ((m.runWith ok m.init as).any fun s => decide (P s)) = true) :
    ∃ s, m.Reach ok s ∧ P s := by
  obtain ⟨s, hs, hP⟩ := exists_of_any h
  exact ⟨s, .runWith .init hs, hP⟩

theorem exists_reachable_and {P T : σ → Prop} [DecidablePred P] (as : List α)
    (h : ((m.runFrom m.init as).any fun s => decide (P s)) = true)
    (hT : ∀ s, m.Reachable s → P s → T s) : ∃ s, m.Reachable s ∧ P s ∧ T s := by
  obtain ⟨s, hs, hP⟩ := exists_reachable as h
  exact ⟨s, hs, hP, hT s hs hP⟩

theorem exists_reach_and {P T : σ → Prop} [DecidablePred P] {ok : σ → α → Prop}
    [∀ s a, Decidable (ok s a)] (as : List α)
    (h : ((m.runWith ok m.init as).any fun s => decide (P s)) = true)
    (hT : ∀ s, m.Reach ok s → P s → T s) : ∃ s, m.Reach ok s ∧ P s ∧ T s := by
  obtain ⟨s, hs, hP⟩ := exists_reach as h
  exact ⟨s, hs, hP, hT s hs hP⟩

end Machine

end Hqq
