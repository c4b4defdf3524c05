import Hqq.Machine
import Hqq.Slots
import Hqq.Word
import Mathlib.Algebra.Order.Group.Nat

/-!
# Canceling the requests of a session

The client numbers its requests with 32-bit IDs that skip 0. A `BG_CANCEL` names one of them and
`hqqrpc_session_cancel` runs on another thread, one round of its loop at a time under `cancel_mu`.
Beside the words of the source, a state counts the requests.
-/

namespace Hqq.Session

abbrev ReqID := BitVec 32

def reqID : Nat → ReqID
  | 0 => 0
  | k + 1 => nextID (reqID k)

/-- A call of `hqqrpc_session_cancel`, with how many rounds of its loop it has made. -/
structure CancelCall where
  /-- The last request that the client had submitted. -/
  named : Nat
  reqID : ReqID
  interruptedID : ReqID
  steps : Nat
  returned : Bool
  deriving DecidableEq

inductive Phase where
  | idle
  | received
  | dispatching
  deriving DecidableEq

structure State where
  lastSubID : ReqID
  submitted : Nat
  phase : Phase
  lastID : ReqID
  received : Nat
  activeID : ReqID
  completedID : ReqID
  canceledID : ReqID
  ended : Bool
  cancels : List CancelCall
  hooks : List (Nat × Nat)
  deriving DecidableEq

def State.fresh : State := ⟨0, 0, .idle, 0, 0, 0, 0, 0, false, [], []⟩

def State.canceled (s : State) : Bool :=
  s.ended || (s.activeID != 0 && s.activeID ≤ s.canceledID)

def maxSteps : Nat := 50

def cancelRound (s : State) (c : CancelCall) : State × CancelCall :=
  let target := if c.reqID ≠ 0 then c.reqID else if s.activeID ≠ 0 then s.activeID else s.lastID + 1
  let s := if s.canceledID < target then { s with canceledID := target } else s
  let c := { c with steps := c.steps + 1 }
  if s.ended || (c.reqID ≠ 0 && c.reqID ≤ s.completedID) then (s, { c with returned := true })
  else if c.interruptedID ≠ 0 && c.interruptedID ≤ s.completedID && s.activeID = 0 then
    (s, { c with returned := true })
  else
    let returned := c.reqID = 0 || maxSteps ≤ c.steps
    if s.activeID ≠ 0 && (c.reqID = 0 || s.activeID ≤ c.reqID) then
      ({ s with hooks := (c.named, s.received) :: s.hooks },
        { c with interruptedID := s.activeID, returned := returned })
    else (s, { c with returned := returned })

inductive Act where
  | submit
  | receive
  | dispatch
  | complete
  | refuse
  | cancel
  | round (i : Nat)
  | finish
  deriving DecidableEq

def step (s : State) : Act → Option State
  | .submit => some { s with lastSubID := nextID s.lastSubID, submitted := s.submitted + 1 }
  -- hqqrpc_session_rx has accepted a REQUEST
  | .receive =>
    if s.phase = .idle ∧ s.received < s.submitted ∧ s.ended = false then
      some { s with phase := .received, lastID := nextID s.lastID, received := s.received + 1 }
    else none
  -- run_request
  | .dispatch =>
    if s.phase = .received then some { s with phase := .dispatching, activeID := s.lastID } else none
  | .complete =>
    if s.phase = .dispatching then
      some { s with phase := .idle, activeID := 0, completedID := s.lastID }
    else none
  -- answer_without_call, or no scratch memory
  | .refuse =>
    if s.phase = .received then some { s with phase := .idle, completedID := s.lastID } else none
  -- Conn.Cancel, when a request was submitted
  | .cancel =>
    if 0 < s.submitted then
      some { s with cancels := s.cancels ++ [⟨s.submitted, s.lastSubID, 0, 0, false⟩] }
    else none
  | .round i =>
    match s.cancels[i]? with
    | some c =>
      if c.returned then none
      else
        let (s', c') := cancelRound s c
        some { s' with cancels := s.cancels.set i c' }
    | none => none
  | .finish => some { s with ended := true }

def machine : Machine State Act where
  init := .fresh
  step := step

/-! ## What a cancel reaches -/

def State.NamedLater (s : State) (r : Nat) : Prop := ∃ c ∈ s.cancels, 0 < c.steps ∧ r ≤ c.named

/-- Only requests up to the named one are reported canceled or have hooks run. -/
structure State.Contained (s : State) : Prop where
  report : s.ended = false → s.canceled = true → s.NamedLater s.received
  hooks : ∀ n r, (n, r) ∈ s.hooks → r ≤ n

/-- No request gets the ID 1 once a cancel was sent. -/
def NoWrap (s : State) (a : Act) : Prop := a = .submit → s.cancels = [] ∨ nextID s.lastSubID ≠ 1

instance (s : State) (a : Act) : Decidable (NoWrap s a) := inferInstanceAs (Decidable (_ → _))

variable {s s' : State} {c : CancelCall}

theorem cancelRound_spec (hreq : c.reqID ≠ 0) : ∃ canceled hooks,
    (cancelRound s c).1 = { s with canceledID := canceled, hooks := hooks } ∧
    ((cancelRound s c).2.named = c.named ∧ (cancelRound s c).2.reqID = c.reqID ∧
      (cancelRound s c).2.steps = c.steps + 1) ∧
    (canceled = s.canceledID ∨ canceled = c.reqID) ∧
    (hooks = s.hooks ∨
      (hooks = (c.named, s.received) :: s.hooks ∧ s.activeID ≠ 0 ∧ s.activeID ≤ c.reqID)) := by
  -- the watermark, whatever the rest of the round does
  obtain ⟨canceled, hs, hcanceled⟩ : ∃ canceled,
      (if s.canceledID < c.reqID then { s with canceledID := c.reqID } else s) =
        { s with canceledID := canceled } ∧ (canceled = s.canceledID ∨ canceled = c.reqID) := by
    split
    · exact ⟨c.reqID, rfl, .inr rfl⟩
    · exact ⟨s.canceledID, rfl, .inl rfl⟩
  simp only [cancelRound, hreq, ne_eq, not_false_eq_true, if_true, hs]
  split
  · exact ⟨canceled, s.hooks, rfl, ⟨rfl, rfl, rfl⟩, hcanceled, .inl rfl⟩
  split
  · exact ⟨canceled, s.hooks, rfl, ⟨rfl, rfl, rfl⟩, hcanceled, .inl rfl⟩
  split
  · rename_i hhit
    simp only [decide_false, Bool.false_or, Bool.and_eq_true, decide_eq_true_eq] at hhit
    exact ⟨canceled, (c.named, s.received) :: s.hooks, rfl, ⟨rfl, rfl, rfl⟩, hcanceled, .inr ⟨rfl, hhit⟩⟩
  · exact ⟨canceled, s.hooks, rfl, ⟨rfl, rfl, rfl⟩, hcanceled, .inl rfl⟩

structure Inv (s : State) : Prop where
  lastSub : s.lastSubID = reqID s.submitted
  last : s.lastID = reqID s.received
  order : s.received ≤ s.submitted
  active : s.activeID = if s.phase = .dispatching then reqID s.received else 0
  named : ∀ c ∈ s.cancels, c.reqID = reqID c.named ∧ c.reqID ≠ 0 ∧ c.named ≤ s.submitted
  later : ∀ c ∈ s.cancels, ∀ k, c.named < k → k ≤ s.submitted → c.reqID < reqID k
  canceled : s.canceledID = 0 ∨ ∃ c ∈ s.cancels, 0 < c.steps ∧ s.canceledID = c.reqID
  hooks : ∀ n r, (n, r) ∈ s.hooks → r ≤ n

theorem reqID_ne_zero {k : Nat} (hk : 0 < k) : reqID k ≠ 0 := by
  obtain ⟨n, rfl⟩ := Nat.exists_eq_succ_of_ne_zero hk.ne'
  exact nextID_ne_zero _

theorem Inv.fresh : Inv .fresh :=
  ⟨rfl, rfl, le_rfl, rfl, nofun, nofun, .inl rfl, nofun⟩

theorem Inv.le_named (h : Inv s) (hc : c ∈ s.cancels) (hle : reqID s.received ≤ c.reqID) :
    s.received ≤ c.named := by
  by_contra hlt
  exact absurd hle (BitVec.not_le.mpr (h.later c hc _ (not_le.mp hlt) h.order))

theorem Inv.active_eq (h : Inv s) (hne : s.activeID ≠ 0) : s.activeID = reqID s.received := by
  have hactive := h.active
  split at hactive
  · exact hactive
  · exact absurd hactive hne

theorem Inv.submit (h : Inv s) (hok : s.cancels = [] ∨ nextID s.lastSubID ≠ 1) :
    Inv { s with lastSubID := nextID s.lastSubID, submitted := s.submitted + 1 } where
  lastSub := by rw [h.lastSub]; rfl
  last := h.last
  order := Nat.le_succ_of_le h.order
  active := h.active
  named c hc := ⟨(h.named c hc).1, (h.named c hc).2.1, Nat.le_succ_of_le (h.named c hc).2.2⟩
  later c hc k hk hle := by
    rcases Nat.le_succ_iff.mp hle with hle | rfl
    · exact h.later c hc k hk hle
    · have hnowrap : nextID s.lastSubID ≠ 1 := hok.resolve_left (List.ne_nil_of_mem hc)
      have hnext : (nextID s.lastSubID).toNat = s.lastSubID.toNat + 1 := by
        rw [nextID_toNat]
        split
        · rename_i hmax
          have := nextID_toNat s.lastSubID
          rw [if_pos hmax] at this
          exact absurd (BitVec.eq_of_toNat_eq this) hnowrap
        · rfl
      have hle : c.reqID.toNat ≤ s.lastSubID.toNat := by
        rcases Nat.lt_or_ge c.named s.submitted with hlt | hge
        · have := h.later c hc _ hlt le_rfl
          rw [← h.lastSub] at this
          exact (BitVec.lt_def.mp this).le
        · have heq : c.named = s.submitted := le_antisymm (h.named c hc).2.2 hge
          rw [(h.named c hc).1, heq, h.lastSub]
      change c.reqID < nextID (reqID s.submitted)
      rw [← h.lastSub, BitVec.lt_def, hnext]
      omega
  canceled := h.canceled
  hooks := h.hooks

theorem Inv.cancel (h : Inv s) (hpos : 0 < s.submitted) :
    Inv { s with cancels := s.cancels ++ [⟨s.submitted, s.lastSubID, 0, 0, false⟩] } where
  lastSub := h.lastSub
  last := h.last
  order := h.order
  active := h.active
  named c hc := by
    rcases List.mem_append.mp hc with hc | hc
    · exact h.named c hc
    · obtain rfl := List.mem_singleton.mp hc
      exact ⟨h.lastSub, h.lastSub ▸ reqID_ne_zero hpos, le_rfl⟩
  later c hc k hk hle := by
    rcases List.mem_append.mp hc with hc | hc
    · exact h.later c hc k hk hle
    · obtain rfl := List.mem_singleton.mp hc
      exact absurd hle (not_le.mpr hk)
  canceled := by
    rcases h.canceled with hz | ⟨c, hc, hsteps, heq⟩
    · exact .inl hz
    · exact .inr ⟨c, List.mem_append_left _ hc, hsteps, heq⟩
  hooks := h.hooks

theorem Inv.round (h : Inv s) {i : Nat} (hi : s.cancels[i]? = some c) :
    Inv { (cancelRound s c).1 with cancels := s.cancels.set i (cancelRound s c).2 } := by
  have hmem := List.mem_of_getElem? hi
  obtain ⟨hreq, hne, hle⟩ := h.named c hmem
  obtain ⟨canceled, hooks, hs, ⟨hnamed, hreq', hsteps⟩, hcanceled, hhooks⟩ := cancelRound_spec (s := s) hne
  -- every call of the new list has the number and the ID of one of the old
  have hold : ∀ d ∈ s.cancels.set i (cancelRound s c).2, ∃ b ∈ s.cancels, b.named = d.named ∧
      b.reqID = d.reqID := by
    intro d hd
    rcases List.mem_or_eq_of_mem_set hd with hd | rfl
    · exact ⟨d, hd, rfl, rfl⟩
    · exact ⟨c, hmem, hnamed.symm, hreq'.symm⟩
  have hself : (cancelRound s c).2 ∈ s.cancels.set i (cancelRound s c).2 := by
    obtain ⟨hlt, -⟩ := List.getElem?_eq_some_iff.mp hi
    exact List.mem_set hlt _
  rw [hs]
  refine ⟨h.lastSub, h.last, h.order, h.active, fun d hd => ?_, fun d hd => ?_, ?_, ?_⟩
  · obtain ⟨b, hb, hn, hr⟩ := hold d hd
    rw [← hn, ← hr]
    exact h.named b hb
  · obtain ⟨b, hb, hn, hr⟩ := hold d hd
    rw [← hn, ← hr]
    exact h.later b hb
  · rcases hcanceled with rfl | rfl
    · rcases h.canceled with hz | ⟨d, hd, hpos, heq⟩
      · exact .inl hz
      · by_cases hdc : d = c
        · exact .inr ⟨_, hself, by omega, by rw [hreq', ← hdc]; exact heq⟩
        · exact .inr ⟨d, mem_set_of_ne hi hd hdc, hpos, heq⟩
    · exact .inr ⟨_, hself, by omega, hreq'.symm⟩
  · rcases hhooks with rfl | ⟨rfl, hactive, hhit⟩
    · exact h.hooks
    · intro n r hnr
      rcases List.mem_cons.mp hnr with heq | hnr
      · obtain ⟨rfl, rfl⟩ := Prod.mk.inj heq
        refine h.le_named hmem ?_
        rwa [← h.active_eq hactive]
      · exact h.hooks n r hnr

theorem Inv.step (h : Inv s) {a : Act} (hok : NoWrap s a) (hstep : step s a = some s') : Inv s' := by
  obtain ⟨h1, h2, h3, h4, h5, h6, h7, h8⟩ := h
  cases a with
  | submit => exact Option.some.inj hstep ▸ Inv.submit ⟨h1, h2, h3, h4, h5, h6, h7, h8⟩ (hok rfl)
  | receive =>
    obtain ⟨⟨hphase, hlt, -⟩, hs⟩ := Option.ite_none_right_eq_some.mp hstep
    simp only [hphase, reduceCtorEq, if_false] at h4
    exact Option.some.inj hs ▸ ⟨h1, by rw [h2]; rfl, hlt, h4, h5, h6, h7, h8⟩
  | dispatch =>
    obtain ⟨hphase, rfl⟩ := Machine.of_guard hstep
    exact ⟨h1, h2, h3, h2, h5, h6, h7, h8⟩
  | complete =>
    obtain ⟨hphase, rfl⟩ := Machine.of_guard hstep
    exact ⟨h1, h2, h3, rfl, h5, h6, h7, h8⟩
  | refuse =>
    obtain ⟨hphase, hs⟩ := Option.ite_none_right_eq_some.mp hstep
    simp only [hphase, reduceCtorEq, if_false] at h4
    exact Option.some.inj hs ▸ ⟨h1, h2, h3, h4, h5, h6, h7, h8⟩
  | cancel =>
    obtain ⟨hpos, rfl⟩ := Machine.of_guard hstep
    exact Inv.cancel ⟨h1, h2, h3, h4, h5, h6, h7, h8⟩ hpos
  | round i =>
    simp only [Session.step] at hstep
    split at hstep
    · rename_i c hc
      split at hstep
      · cases hstep
      · exact Option.some.inj hstep ▸ Inv.round ⟨h1, h2, h3, h4, h5, h6, h7, h8⟩ hc
    · cases hstep
  | finish => exact Option.some.inj hstep ▸ ⟨h1, h2, h3, h4, h5, h6, h7, h8⟩

theorem Inv.contained (h : Inv s) : s.Contained where
  report hend hcanceled := by
    simp only [State.canceled, hend, Bool.false_or, Bool.and_eq_true, bne_iff_ne, ne_eq,
      decide_eq_true_eq] at hcanceled
    obtain ⟨hne, hle⟩ := hcanceled
    have hactive := h.active_eq hne
    rcases h.canceled with hz | ⟨c, hc, hsteps, heq⟩
    · rw [hz] at hle
      exact absurd (BitVec.eq_of_toNat_eq (Nat.le_zero.mp (BitVec.le_def.mp hle))) hne
    · refine ⟨c, hc, hsteps, h.le_named hc ?_⟩
      rwa [← hactive, ← heq]
  hooks := h.hooks

/-- As long as the IDs do not come round after a cancel, it reaches nothing later than the request
it names. -/
theorem cancel_contained (h : machine.Reach NoWrap s) : s.Contained := by
  have hinv : Inv s := h.invariant .fresh fun _ _ _ _ hi hok hs => hi.step hok hs
  exact hinv.contained

theorem cancel_contained_third : ∃ s : State, machine.Reach NoWrap s ∧
    (s.received = 3 ∧ s.activeID = 3 ∧ s.hooks = [(2, 2)] ∧ s.canceledID = 2) ∧ s.Contained :=
  Machine.exists_reach_and [.submit, .receive, .dispatch, .complete, .submit, .receive, .cancel, .dispatch,
    .round 0, .submit, .complete, .receive, .dispatch, .round 0] (by decide +kernel)
    fun _ hs _ => cancel_contained hs

/-! ## When the IDs come round -/

def served (k : Nat) : State := ⟨reqID k, k, .idle, reqID k, k, 0, reqID k, 0, false, [], []⟩

theorem served_reachable (k : Nat) : machine.Reachable (served k) := by
  induction k with
  | zero => exact .init
  | succ k ih =>
    have hrun : machine.runFrom (served k) [.submit, .receive, .dispatch, .complete] =
        some (served (k + 1)) := by
      simp [Machine.runFrom, machine, step, served, reqID]
    exact Machine.Reachable.runFrom ih _ hrun

theorem reqID_toNat {k : Nat} (hk : k < 2 ^ 32) : (reqID k).toNat = k := by
  induction k with
  | zero => rfl
  | succ k ih =>
    rw [reqID, nextID_toNat, ih (by omega), if_neg (by omega)]

/-- The request with the ID 2^32 - 1 was named by two cancels. The one after it is reported
canceled, and the hooks run during the second one after it. -/
theorem cancel_reaches_later : ∃ s : State, machine.Reachable s ∧ s.ended = false ∧
    s.canceled = true ∧ (∀ c ∈ s.cancels, c.named < s.received) ∧ ∃ n r, (n, r) ∈ s.hooks ∧ n < r := by
  have hlast : reqID (2 ^ 32 - 1) = 4294967295 := BitVec.eq_of_toNat_eq (reqID_toNat (by decide))
  have hserved := served_reachable (2 ^ 32 - 1)
  rw [served, hlast] at hserved
  obtain ⟨s, hrun, hp⟩ := Machine.exists_of_any (P := fun s : State => s.ended = false ∧
    s.canceled = true ∧ (∀ c ∈ s.cancels, c.named < s.received) ∧ s.hooks = [(4294967295, 4294967297)])
    (o := machine.runFrom ⟨4294967295, 2 ^ 32 - 1, .idle, 4294967295, 2 ^ 32 - 1, 0, 4294967295, 0, false,
      [], []⟩ [.cancel, .cancel, .submit, .receive, .dispatch, .round 0, .complete, .submit, .receive,
      .dispatch, .round 1]) (by decide +kernel)
  exact ⟨s, .runFrom hserved _ hrun, hp.1, hp.2.1, hp.2.2.1, 4294967295, 4294967297, by simp [hp.2.2.2],
    by decide⟩

end Hqq.Session
