import Mathlib.Logic.Function.Basic

/-!
# A channel that is made on demand and closed once

Independent of the program that is verified. One thread records a reason. The channel is made when
it is first asked for, under a lock. Whoever records a reason takes the lock only if it finds a
channel, so it may miss one that is being made; whoever makes a channel looks for a reason afterwards.
-/

namespace Hqq.LazyChan

structure Cell (W R : Type) where
  reason : Option R
  mu : Option W
  made : Bool
  closed : Bool
  closes : Nat
  deriving DecidableEq

variable {W R : Type}

def Cell.fresh : Cell W R := ⟨none, none, false, false, 0⟩

def Cell.shut (c : Cell W R) : Cell W R :=
  if c.made && !c.closed then { c with closed := true, closes := c.closes + 1 } else c

@[simp] theorem Cell.shut_reason (c : Cell W R) : c.shut.reason = c.reason := by
  unfold shut; split <;> rfl

@[simp] theorem Cell.shut_mu (c : Cell W R) : c.shut.mu = c.mu := by
  unfold shut; split <;> rfl

@[simp] theorem Cell.shut_made (c : Cell W R) : c.shut.made = c.made := by
  unfold shut; split <;> rfl

theorem Cell.shut_closed (c : Cell W R) (h : c.made = true) : c.shut.closed = true := by
  unfold shut
  split
  · rfl
  · next hc => simpa [h] using hc

inductive Role
  | out
  | look
  | wait
  | close
  | unlock
  | make
  | reread
  | leave
  deriving DecidableEq

namespace Role

def holds : Role → Bool
  | .close | .unlock | .make | .reread | .leave => true
  | .out | .look | .wait => false

def records : Role → Bool
  | .look | .wait | .close | .unlock => true
  | .out | .make | .reread | .leave => false

def pending : Role → Bool
  | .look | .wait | .close => true
  | .out | .unlock | .make | .reread | .leave => false

def rereads : Role → Bool
  | .reread => true
  | .out | .look | .wait | .close | .unlock | .make | .leave => false

def made : Role → Bool
  | .reread | .leave => true
  | .out | .look | .wait | .close | .unlock | .make => false

theorem records_of_pending {r : Role} (h : r.pending = true) : r.records = true := by
  cases r <;> first | rfl | cases h

theorem holds_of_rereads {r : Role} (h : r.rereads = true) : r.holds = true := by
  cases r <;> first | rfl | cases h

end Role

structure Inv (c : Cell W R) (role : W → Role) (settled own : Bool) : Prop where
  mu : ∀ w, (role w).holds = true → c.mu = some w
  one : ∀ w w', (role w).records = true → (role w').records = true → w = w'
  recorded : ∀ w, (role w).records = true → c.reason ≠ none ∧ settled = false
  reason : settled = true → c.reason ≠ none
  closed : c.closed = true → c.made = true ∧ c.reason ≠ none
  closes : c.closes = if c.closed then 1 else 0
  given : own = true → c.made = true
  made : ∀ w, (role w).made = true → c.made = true
  closer : c.reason ≠ none → c.made = true → c.closed = false →
    (∃ w, (role w).pending = true) ∨ (own = false ∧ ∃ w, (role w).rereads = true)

variable {c : Cell W R} {role : W → Role} {settled own : Bool} {w : W}

theorem Inv.closed_of_settled (h : Inv c role settled own) (hs : settled = true) (ho : own = true) :
    c.closed = true := by
  by_contra hopen
  rcases h.closer (h.reason hs) (h.given ho) (by simpa using hopen) with ⟨w, hw⟩ | ⟨hno, -⟩
  · have := (h.recorded w (Role.records_of_pending hw)).2
    rw [hs] at this
    cases this
  · rw [ho] at hno
    cases hno

theorem Inv.fresh (hrole : ∀ w, role w = .out) : Inv (.fresh : Cell W R) role false false where
  mu w hw := by rw [hrole] at hw; cases hw
  one w _ hw := by rw [hrole] at hw; cases hw
  recorded w hw := by rw [hrole] at hw; cases hw
  reason h := by cases h
  closed h := by cases h
  closes := rfl
  given h := by cases h
  made w hw := by rw [hrole] at hw; cases hw
  closer h := absurd rfl h

theorem Inv.holder (h : Inv c role settled own) (hw : (role w).holds = true) {w' : W}
    (hw' : (role w').holds = true) : w' = w :=
  Option.some.inj ((h.mu w' hw').symm.trans (h.mu w hw))

theorem Cell.closes_shut (hc : c.closes = if c.closed then 1 else 0) :
    c.shut.closes = if c.shut.closed then 1 else 0 := by
  unfold Cell.shut
  split
  · next h =>
    simp only [Bool.and_eq_true, Bool.not_eq_true'] at h
    simp [hc, h.2]
  · exact hc

theorem Inv.renew (h : Inv c role settled own) (hmade : c.made = false) {role' : W → Role}
    (hrole : ∀ w, role' w = .out) :
    Inv ({ c with reason := none } : Cell W R) role' false false where
  mu w hw := by rw [hrole] at hw; cases hw
  one w _ hw := by rw [hrole] at hw; cases hw
  recorded w hw := by rw [hrole] at hw; cases hw
  reason hs := by cases hs
  closed hc := by
    rw [(h.closed hc).1] at hmade
    cases hmade
  closes := h.closes
  given ho := by cases ho
  made w hw := by rw [hrole] at hw; cases hw
  closer hr := absurd rfl hr

section Steps

variable [DecidableEq W] {r : Role}

theorem of_update (p : Role → Bool) (hr : p r = true → p (role w) = true) (w' : W)
    (h : p (Function.update role w r w') = true) : p (role w') = true := by
  by_cases heq : w' = w
  · subst heq
    rw [Function.update_self] at h
    exact hr h
  · rwa [Function.update_of_ne heq] at h

theorem exists_update (p : Role → Bool) (hr : p (role w) = true → p r = true)
    (h : ∃ w', p (role w') = true) : ∃ w', p (Function.update role w r w') = true := by
  obtain ⟨w', hw'⟩ := h
  by_cases heq : w' = w
  · subst heq
    exact ⟨w', by rw [Function.update_self]; exact hr hw'⟩
  · exact ⟨w', by rwa [Function.update_of_ne heq]⟩

theorem ne_of_update (p : Role → Bool) (hr : p r = false) {w' : W}
    (h : p (Function.update role w r w') = true) : w' ≠ w ∧ p (role w') = true := by
  have hne : w' ≠ w := by
    rintro rfl
    rw [Function.update_self, hr] at h
    cases h
  rw [Function.update_of_ne hne] at h
  exact ⟨hne, h⟩

theorem Inv.record (h : Inv c role settled own) (w : W) (hnone : c.reason = none) (why : R) :
    Inv { c with reason := some why } (Function.update role w .look) settled own := by
  have hnobody : ∀ w', (role w').records = false := by
    intro w'
    by_contra hrec
    exact (h.recorded w' (by simpa using hrec)).1 hnone
  have honly : ∀ w', (Function.update role w .look w').records = true → w' = w := by
    intro w' hw'
    by_contra hne
    rw [Function.update_of_ne hne, hnobody] at hw'
    cases hw'
  have hsettled : settled = false := by
    by_contra hs
    exact h.reason (by simpa using hs) hnone
  exact {
    mu := fun w' hw' => h.mu w' (of_update Role.holds (by simp [Role.holds]) w' hw')
    one := fun w1 w2 h1 h2 => (honly w1 h1).trans (honly w2 h2).symm
    recorded := fun _ _ => ⟨by simp, hsettled⟩
    reason := fun _ => by simp
    closed := fun hc => absurd hnone (h.closed hc).2
    closes := h.closes
    given := h.given
    made := fun w' hw' => h.made w' (of_update Role.made (by simp [Role.made]) w' hw')
    closer := fun _ _ _ => .inl ⟨w, by rw [Function.update_self]; rfl⟩ }

theorem Inv.move (h : Inv c role settled own) (hholds : r.holds = true → (role w).holds = true)
    (hrecords : r.records = true → (role w).records = true) (hmade : r.made = true → c.made = true)
    (hpending : (role w).pending = true → r.pending = true)
    (hrereads : (role w).rereads = true → r.rereads = true ∨ c.reason = none) :
    Inv c (Function.update role w r) settled own where
  mu w' hw' := h.mu w' (of_update Role.holds hholds w' hw')
  one w1 w2 h1 h2 :=
    h.one w1 w2 (of_update Role.records hrecords w1 h1) (of_update Role.records hrecords w2 h2)
  recorded w' hw' := h.recorded w' (of_update Role.records hrecords w' hw')
  reason := h.reason
  closed := h.closed
  closes := h.closes
  given := h.given
  made w' hw' := by
    by_cases heq : w' = w
    · rw [heq, Function.update_self] at hw'
      exact hmade hw'
    · rw [Function.update_of_ne heq] at hw'
      exact h.made w' hw'
  closer h1 h2 h3 := (h.closer h1 h2 h3).imp (exists_update Role.pending hpending)
    fun ⟨ho, he⟩ => ⟨ho, exists_update Role.rereads (fun hw => (hrereads hw).resolve_right h1) he⟩

theorem Inv.look_made (h : Inv c role settled own) (hw : role w = .look) :
    Inv c (Function.update role w .wait) settled own := by
  apply h.move <;> simp [hw, Role.holds, Role.records, Role.made, Role.pending, Role.rereads]

/-- There is no reason yet. Whoever records one finds the channel. -/
theorem Inv.reread_none (h : Inv c role settled own) (hw : role w = .reread) (hnone : c.reason = none) :
    Inv c (Function.update role w .leave) settled own := by
  have hmade : c.made = true := h.made w (by rw [hw]; rfl)
  apply h.move <;> simp [hw, hnone, hmade, Role.holds, Role.records, Role.pending]

/-- There is no channel. Whoever makes one from now on finds the reason. -/
theorem Inv.look_none (h : Inv c role settled own) (hw : role w = .look) (hmade : c.made = false) :
    Inv c (Function.update role w .out) true own where
  mu w' hw' := h.mu w' (of_update Role.holds (by simp [Role.holds]) w' hw')
  one w1 w2 h1 h2 := h.one w1 w2 (ne_of_update Role.records rfl h1).2 (ne_of_update Role.records rfl h2).2
  recorded w' hw' := by
    obtain ⟨hne, hrec⟩ := ne_of_update Role.records rfl hw'
    exact absurd (h.one w' w hrec (by rw [hw]; rfl)) hne
  reason _ := (h.recorded w (by rw [hw]; rfl)).1
  closed := h.closed
  closes := h.closes
  given := h.given
  made w' hw' := h.made w' (ne_of_update Role.made rfl hw').2
  closer _ h2 _ := by rw [hmade] at h2; cases h2

theorem Inv.lock (h : Inv c role settled own) (hfree : c.mu = none)
    (hr : r = .close ∧ role w = .wait ∨ r = .make ∧ role w = .out) :
    Inv { c with mu := some w } (Function.update role w r) settled own := by
  have hnobody : ∀ w', (role w').holds = false := by
    intro w'
    by_contra hholds
    have := h.mu w' (by simpa using hholds)
    rw [hfree] at this
    cases this
  have honly : ∀ w', (Function.update role w r w').holds = true → some w = some w' := by
    intro w' hw'
    by_cases heq : w' = w
    · rw [heq]
    · rw [Function.update_of_ne heq, hnobody] at hw'
      cases hw'
  -- but for the lock, its new role has the properties of the old one
  have hrecords : r.records = (role w).records := by
    rcases hr with ⟨rfl, hw⟩ | ⟨rfl, hw⟩ <;> rw [hw] <;> rfl
  have hpending : r.pending = (role w).pending := by
    rcases hr with ⟨rfl, hw⟩ | ⟨rfl, hw⟩ <;> rw [hw] <;> rfl
  have hmade : r.made = false := by
    rcases hr with ⟨rfl, -⟩ | ⟨rfl, -⟩ <;> rfl
  have hrereads : (role w).rereads = false := by
    rcases hr with ⟨-, hw⟩ | ⟨-, hw⟩ <;> rw [hw] <;> rfl
  exact {
    mu := honly
    one := fun w1 w2 h1 h2 => h.one w1 w2 (of_update Role.records (by simp [hrecords]) w1 h1)
      (of_update Role.records (by simp [hrecords]) w2 h2)
    recorded := fun w' hw' => h.recorded w' (of_update Role.records (by simp [hrecords]) w' hw')
    reason := h.reason
    closed := h.closed
    closes := h.closes
    given := h.given
    made := fun w' hw' => h.made w' (ne_of_update Role.made hmade hw').2
    closer := fun h1 h2 h3 => (h.closer h1 h2 h3).imp (exists_update Role.pending (by simp [hpending]))
      fun ⟨ho, he⟩ => ⟨ho, exists_update Role.rereads (by simp [hrereads]) he⟩ }

theorem Inv.shut (h : Inv c role settled own) (hreason : c.reason ≠ none)
    (hr : r = .unlock ∧ role w = .close ∨ r = .leave ∧ role w = .reread) :
    Inv c.shut (Function.update role w r) settled own := by
  have hholds : (role w).holds = true := by
    rcases hr with ⟨-, hw⟩ | ⟨-, hw⟩ <;> rw [hw] <;> rfl
  have hrecords : r.records = (role w).records := by
    rcases hr with ⟨rfl, hw⟩ | ⟨rfl, hw⟩ <;> rw [hw] <;> rfl
  have hmade : r.made = (role w).made := by
    rcases hr with ⟨rfl, hw⟩ | ⟨rfl, hw⟩ <;> rw [hw] <;> rfl
  exact {
    mu := fun w' hw' => c.shut_mu.trans (h.mu w' (of_update Role.holds (fun _ => hholds) w' hw'))
    one := fun w1 w2 h1 h2 => h.one w1 w2 (of_update Role.records (by simp [hrecords]) w1 h1)
      (of_update Role.records (by simp [hrecords]) w2 h2)
    recorded := fun w' hw' => by
      rw [Cell.shut_reason]
      exact h.recorded w' (of_update Role.records (by simp [hrecords]) w' hw')
    reason := fun _ => by rwa [Cell.shut_reason]
    closed := fun hc => by
      rw [Cell.shut_made, Cell.shut_reason]
      refine ⟨?_, hreason⟩
      unfold Cell.shut at hc
      split at hc
      · next hopen => exact ((Bool.and_eq_true _ _).mp hopen).1
      · exact (h.closed hc).1
    closes := Cell.closes_shut h.closes
    given := fun ho => c.shut_made.trans (h.given ho)
    made := fun w' hw' =>
      c.shut_made.trans (h.made w' (of_update Role.made (by simp [hmade]) w' hw'))
    closer := fun _ h2 h3 => by
      rw [Cell.shut_made] at h2
      rw [c.shut_closed h2] at h3
      cases h3 }

theorem Inv.settle (h : Inv c role settled own) (hw : role w = .unlock) :
    Inv { c with mu := none } (Function.update role w .out) true own where
  mu w' hw' := by
    obtain ⟨hne, hholds⟩ := ne_of_update Role.holds rfl hw'
    exact absurd (h.holder (by rw [hw]; rfl) hholds) hne
  one w1 w2 h1 h2 := h.one w1 w2 (ne_of_update Role.records rfl h1).2 (ne_of_update Role.records rfl h2).2
  recorded w' hw' := by
    obtain ⟨hne, hrec⟩ := ne_of_update Role.records rfl hw'
    exact absurd (h.one w' w hrec (by rw [hw]; rfl)) hne
  reason _ := (h.recorded w (by rw [hw]; rfl)).1
  closed := h.closed
  closes := h.closes
  given := h.given
  made w' hw' := h.made w' (ne_of_update Role.made rfl hw').2
  closer h1 h2 h3 := by
    -- nobody else recorded a reason, and nobody else has the lock
    rcases h.closer h1 h2 h3 with ⟨w', hw'⟩ | ⟨-, w', hw'⟩
    · have heq := h.one w' w (Role.records_of_pending hw') (by rw [hw]; rfl)
      rw [heq, hw] at hw'
      cases hw'
    · have heq := h.holder (by rw [hw]; rfl) (Role.holds_of_rereads hw')
      rw [heq, hw] at hw'
      cases hw'

theorem Inv.make (h : Inv c role settled own) (hw : role w = .make) :
    Inv { c with made := true } (Function.update role w .reread) settled own where
  mu w' hw' := h.mu w' (of_update Role.holds (by rw [hw]; exact id) w' hw')
  one w1 w2 h1 h2 := h.one w1 w2 (ne_of_update Role.records rfl h1).2 (ne_of_update Role.records rfl h2).2
  recorded w' hw' := h.recorded w' (ne_of_update Role.records rfl hw').2
  reason := h.reason
  closed hc := ⟨rfl, (h.closed hc).2⟩
  closes := h.closes
  given _ := rfl
  made _ _ := rfl
  closer h1 _ h3 := by
    have hnew : ∃ w', (Function.update role w .reread w').rereads = true :=
      ⟨w, by rw [Function.update_self]; rfl⟩
    cases hmade : c.made with
    | true =>
      refine (h.closer h1 hmade h3).imp (exists_update Role.pending (by rw [hw]; exact fun hp => hp)) ?_
      exact fun ⟨ho, _⟩ => ⟨ho, hnew⟩
    | false =>
      refine .inr ⟨?_, hnew⟩
      by_contra ho
      rw [h.given (by simpa using ho)] at hmade
      cases hmade

theorem Inv.leave (h : Inv c role settled own) (hw : role w = .leave) :
    Inv { c with mu := none } (Function.update role w .out) settled true where
  mu w' hw' := by
    obtain ⟨hne, hholds⟩ := ne_of_update Role.holds rfl hw'
    exact absurd (h.holder (by rw [hw]; rfl) hholds) hne
  one w1 w2 h1 h2 := h.one w1 w2 (ne_of_update Role.records rfl h1).2 (ne_of_update Role.records rfl h2).2
  recorded w' hw' := h.recorded w' (ne_of_update Role.records rfl hw').2
  reason := h.reason
  closed := h.closed
  closes := h.closes
  given _ := h.made w (by rw [hw]; rfl)
  made w' hw' := h.made w' (ne_of_update Role.made rfl hw').2
  closer h1 h2 h3 := by
    rcases h.closer h1 h2 h3 with hp | ⟨-, w', hw'⟩
    · exact .inl (exists_update Role.pending (by rw [hw]; exact fun hp => hp) hp)
    · have heq := h.holder (by rw [hw]; rfl) (Role.holds_of_rereads hw')
      rw [heq, hw] at hw'
      cases hw'

end Steps

end Hqq.LazyChan
