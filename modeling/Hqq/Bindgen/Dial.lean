import Hqq.Machine

/-!
# The deadlines of a dialed link

`handshake` arms both deadlines and clears them once HELLO_REPLY is accepted. A context callback
on its own goroutine expires the read deadline when the dial context ends.
-/

namespace Hqq.Dial

/-- Where `Dial` is: the statement of `handshake` that comes next, then the end of `Dial`. -/
inductive Pc where
  | connect
  | afterFunc
  | armRead
  | armWrite
  | sendHello
  | readReply
  | clearRead
  | clearWrite
  | stop
  | cancel
  | returned
  | failed
  deriving DecidableEq

inductive Callback where
  | none
  | registered
  | started
  | storing (t : Nat)
  | finished
  | stopped
  deriving DecidableEq

structure State where
  now : Nat
  pc : Pc
  ended : Bool
  ctxDeadline : Nat
  callback : Callback
  readDeadline : Option Nat
  writeDeadline : Option Nat
  timedOut : Bool
  deriving DecidableEq

def State.fresh : State := ⟨0, .connect, false, 0, .none, none, none, false⟩

def Callback.Pending : Callback → Prop
  | .started | .storing _ => True
  | _ => False

instance (c : Callback) : Decidable c.Pending :=
  match c with
  | .started | .storing _ => .isTrue trivial
  | .none | .registered | .finished | .stopped => .isFalse id

def State.proceed (s : State) : Option State :=
  match s.pc with
  | .connect => some { s with pc := .afterFunc }
  -- a context that has ended starts the function at once
  | .afterFunc =>
    some { s with pc := .armRead, callback := if s.ended then .started else .registered }
  | .armRead => some { s with pc := .armWrite, readDeadline := some s.ctxDeadline }
  | .armWrite => some { s with pc := .sendHello, writeDeadline := some s.ctxDeadline }
  | .sendHello => some { s with pc := .readReply }
  | .readReply => some { s with pc := .clearRead }
  | .clearRead => some { s with pc := .clearWrite, readDeadline := none }
  | .clearWrite => some { s with pc := .stop, writeDeadline := none }
  | .stop =>
    some { s with pc := .cancel
                  callback := if s.callback = .registered then .stopped else s.callback }
  | .cancel => some { s with pc := .returned, ended := true }
  | .returned | .failed => none

inductive Act where
  | tick
  | setDeadline (t : Nat)
  | endContext
  | callback
  | proceed
  | fail
  | wait
  | waitTimeout
  deriving DecidableEq

def step (s : State) : Act → Option State
  | .tick => some { s with now := s.now + 1 }
  | .setDeadline t => if s.pc = .connect then some { s with ctxDeadline := t } else none
  | .endContext =>
    if s.ended then none
    else
      some { s with ended := true
                    callback := if s.callback = .registered then .started else s.callback }
  | .callback =>
    match s.callback with
    | .started => some { s with callback := .storing s.now }
    | .storing t => some { s with callback := .finished, readDeadline := some t }
    | _ => none
  | .proceed => s.proceed
  | .fail => if s.pc = .returned ∨ s.pc = .failed then none else some { s with pc := .failed }
  -- armRead does nothing: CallTimeout is 0 and the Conn has armed no deadline itself
  | .wait => if s.pc = .returned then some s else none
  | .waitTimeout =>
    match s.readDeadline with
    | none => none
    | some d => if s.pc = .returned ∧ d ≤ s.now then some { s with timedOut := true } else none

def machine : Machine State Act where
  init := .fresh
  step := step

/-! ## When the deadlines stay unset -/

/-- The context does not end between the clearing of the read deadline and `stop`, and no
callback has its store pending when the read deadline is cleared. -/
def Timely (s : State) (a : Act) : Prop :=
  (a = .proceed → s.pc = .clearRead → ¬s.callback.Pending) ∧
    (a = .endContext → s.pc ≠ .clearWrite ∧ s.pc ≠ .stop)

instance (s : State) (a : Act) : Decidable (Timely s a) := inferInstanceAs (Decidable (_ ∧ _))

def Pc.cleared : Pc → Bool
  | .clearWrite | .stop | .cancel | .returned => true
  | _ => false

structure Inv (s : State) : Prop where
  read : s.pc.cleared = true → s.readDeadline = none ∧ ¬s.callback.Pending
  write : s.pc = .stop ∨ s.pc = .cancel ∨ s.pc = .returned → s.writeDeadline = none
  stopped : s.pc = .cancel ∨ s.pc = .returned → s.callback ≠ .registered
  waits : s.timedOut = false

theorem Inv.fresh : Inv .fresh := ⟨by decide, by decide, by decide, rfl⟩

variable {s s' : State}

theorem Inv.proceed (h : Inv s) (hpending : s.pc = .clearRead → ¬s.callback.Pending)
    (hstep : s.proceed = some s') : Inv s' := by
  unfold State.proceed at hstep
  split at hstep <;> cases hstep
  case h_1 | h_2 | h_3 | h_4 | h_5 | h_6 => exact ⟨by simp [Pc.cleared], by simp, by simp, h.waits⟩
  case h_7 hpc => exact ⟨fun _ => ⟨rfl, hpending hpc⟩, by simp, by simp, h.waits⟩
  case h_8 hpc => exact ⟨fun _ => h.read (by rw [hpc]; rfl), fun _ => rfl, by simp, h.waits⟩
  case h_9 hpc =>
    obtain ⟨hread, hpend⟩ := h.read (by rw [hpc]; rfl)
    refine ⟨fun _ => ⟨hread, ?_⟩, fun _ => h.write (.inl hpc), fun _ => ?_, h.waits⟩
    · dsimp only
      split
      · exact id
      · exact hpend
    · dsimp only
      split
      · simp
      · assumption
  case h_10 hpc =>
    exact ⟨fun _ => h.read (by rw [hpc]; rfl), fun _ => h.write (.inr (.inl hpc)),
      fun _ => h.stopped (.inl hpc), h.waits⟩

theorem Inv.of_step (h : Inv s) {a : Act} (hok : Timely s a) (hstep : step s a = some s') : Inv s' := by
  unfold step at hstep
  cases a with
  | tick =>
    cases hstep
    exact ⟨h.read, h.write, h.stopped, h.waits⟩
  | setDeadline t =>
    dsimp only at hstep
    split at hstep <;> cases hstep
    exact ⟨h.read, h.write, h.stopped, h.waits⟩
  | endContext =>
    dsimp only at hstep
    split at hstep <;> cases hstep
    obtain ⟨hclear, hstop⟩ := hok.2 rfl
    -- past `stop` the function is not registered any more
    have hgone : s.pc.cleared = true → s.callback ≠ .registered := by
      intro hcleared
      refine h.stopped ?_
      revert hcleared hclear hstop
      cases s.pc <;> simp [Pc.cleared]
    refine ⟨fun hcleared => ?_, h.write, fun hpc => ?_, h.waits⟩
    · dsimp only
      rw [if_neg (hgone hcleared)]
      exact h.read hcleared
    · dsimp only
      rw [if_neg (h.stopped hpc)]
      exact h.stopped hpc
  | callback =>
    dsimp only at hstep
    have hearly : s.callback.Pending → s.pc.cleared = false := by
      intro hpend
      by_contra hcleared
      exact (h.read (by simpa using hcleared)).2 hpend
    split at hstep
    · rename_i hcb
      cases hstep
      have hpc := hearly (by rw [hcb]; trivial)
      exact ⟨fun hcleared => by simp [hpc] at hcleared, h.write, by simp, h.waits⟩
    · rename_i t hcb
      cases hstep
      have hpc := hearly (by rw [hcb]; trivial)
      exact ⟨fun hcleared => by simp [hpc] at hcleared, h.write, by simp, h.waits⟩
    · cases hstep
  | proceed => exact h.proceed (hok.1 rfl) hstep
  | fail =>
    dsimp only at hstep
    split at hstep <;> cases hstep
    exact ⟨by simp [Pc.cleared], by simp, by simp, h.waits⟩
  | wait =>
    dsimp only at hstep
    split at hstep <;> cases hstep
    exact h
  | waitTimeout =>
    dsimp only at hstep
    split at hstep
    · cases hstep
    · rename_i d hd
      split at hstep
      · rename_i hpc
        have hread := (h.read (by rw [hpc.1]; rfl)).1
        rw [hd] at hread
        cases hread
      · cases hstep

/-- If every step is timely, then once `Dial` has returned its Conn both deadlines stay unset. -/
theorem deadlines_unset (h : machine.Reach Timely s) (hpc : s.pc = .returned) :
    s.readDeadline = none ∧ s.writeDeadline = none ∧
      (∀ a s', machine.step s a = some s' → s'.readDeadline = none ∧ s'.writeDeadline = none) ∧
      s.timedOut = false := by
  have hinv : Inv s := h.invariant Inv.fresh fun _ _ _ _ hI hok hstep => Inv.of_step hI hok hstep
  have hread := (hinv.read (by rw [hpc]; rfl)).1
  have hwrite := hinv.write (.inr (.inr hpc))
  refine ⟨hread, hwrite, fun a s' hstep => ?_, hinv.waits⟩
  -- every step is timely after the return
  have hok : Timely s a := ⟨by simp [hpc], by simp [hpc]⟩
  have hinv' := hinv.of_step hok hstep
  have hpc' : s'.pc = .returned := by
    change step s a = some s' at hstep
    unfold step at hstep
    cases a <;> simp only [State.proceed, hpc] at hstep <;> grind -ring -linarith
  exact ⟨(hinv'.read (by rw [hpc']; rfl)).1, hinv'.write (.inr (.inr hpc'))⟩

theorem deadlines_unset_dialed :
    ∃ s, machine.Reach Timely s ∧ s.pc = .returned ∧ s.readDeadline = none :=
  -- the context ends once HELLO_REPLY is read, and the callback stores before the clearing
  Machine.exists_reach_and [.setDeadline 5, .proceed, .proceed, .proceed, .proceed, .proceed, .proceed,
    .endContext, .callback, .callback, .proceed, .proceed, .proceed, .proceed] (by decide +kernel)
    fun _ hs hpc => (deadlines_unset hs hpc).1

/-- The callback of the context stores the read deadline after `handshake` has cleared it. -/
theorem callback_after_clear :
    ∃ s, machine.Reachable s ∧ s.pc = .returned ∧ s.readDeadline = some 5 ∧ s.timedOut = true :=
  Machine.exists_reachable [.setDeadline 5, .proceed, .proceed, .proceed, .proceed, .proceed, .tick,
    .tick, .tick, .tick, .tick, .endContext, .callback, .proceed, .proceed, .proceed, .proceed, .proceed,
    .callback, .waitTimeout] (by decide +kernel)

end Hqq.Dial
