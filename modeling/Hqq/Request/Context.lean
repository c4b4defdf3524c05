import Hqq.Machine
import Hqq.LazyChan

/-!
# The context of a request

`reqCtx`, from `newRequestCtx` to `release`, and over and over again, because it is pooled. A handler
does not keep the context, unless it was given its channel.
-/

namespace Hqq.RequestCtx

open LazyChan

inductive Reason
  | canceled
  | deadline
  | peerCancel
  deriving DecidableEq

inductive CtxErr
  | canceled
  | deadlineExceeded
  deriving DecidableEq

def Reason.err : Reason → CtxErr
  | .deadline => .deadlineExceeded
  | .canceled | .peerCancel => .canceled

/-- The goroutines: `cancel` are those that cancel requests of the link, `handler` those of the
handler. -/
inductive Who (C H : Type)
  | server
  | timer
  | cancel (i : C)
  | handler (h : H)
  deriving DecidableEq

inductive Chan
  | own
  | closedDone
  deriving DecidableEq

inductive Canceling
  | swap (code : Reason)
  | hasDone
  | lock
  | close
  | unlock
  deriving DecidableEq

inductive Then
  | refuse
  | finish
  | add
  | unlock
  deriving DecidableEq

inductive Doing
  | load
  | lock
  | create
  | reread
  | unlock
  | returned (ch : Chan)
  deriving DecidableEq

/-- What a call of `Err` does next. `before` are the errors that calls had returned when this one
began. No instruction reads it. -/
inductive Erring
  | load (before : List CtxErr)
  | parent (before : List CtxErr)
  | returned (before : List CtxErr) (err : Option CtxErr)
  deriving DecidableEq

inductive Pc
  | idle
  | queued
  | beginLoad
  | beginStopped
  | beginParent
  | beginBudget
  | handling
  | endTimer
  | endAwait
  | endLoad
  | endOwner
  | unregister
  | recycle
  | retired
  | cancelLock (code : Reason)
  | cancelLook (code : Reason)
  | cancelUnlock
  | armed
  | timerAdd
  | canceling (k : Then) (pc : Canceling)
  | doing (pc : Doing)
  | erring (pc : Erring)
  deriving DecidableEq

variable {C H : Type} [DecidableEq C] [DecidableEq H]

/-- In `ctx`, `reason` is `errv`, and `made` is both `done != nil` and `hasDone`, which are stored
together under `mu`. -/
structure State (C H : Type) where
  ctx : Cell (Who C H) Reason
  pc : Who C H → Pc
  parent : Option CtxErr
  stopped : Bool
  hasBudget : Bool
  timerArmed : Bool
  armedFires : Nat
  fires : Nat
  inflightMu : Option (Who C H)
  registered : Bool
  inCall : List H
  errs : List CtxErr
  handed : List Chan
  settled : Bool

namespace State

variable (s : State C H) (w : Who C H)

def goto (p : Pc) : State C H := { s with pc := Function.update s.pc w p }

def after : Then → Pc
  | .refuse => .endTimer
  | .finish => .endOwner
  | .add => .timerAdd
  | .unlock => .cancelUnlock

def cancel (k : Then) : Canceling → Option (State C H)
  | .swap code =>
    match s.ctx.reason with
    | none => some { s.goto w (.canceling k .hasDone) with ctx := { s.ctx with reason := some code } }
    | some _ => some (s.goto w (after k))
  | .hasDone =>
    if s.ctx.made then some (s.goto w (.canceling k .lock))
    else some { s.goto w (after k) with settled := true }
  | .lock =>
    match s.ctx.mu with
    | none => some { s.goto w (.canceling k .close) with ctx := { s.ctx with mu := some w } }
    | some _ => none
  | .close => some { s.goto w (.canceling k .unlock) with ctx := s.ctx.shut }
  | .unlock => some { s.goto w (after k) with ctx := { s.ctx with mu := none }, settled := true }

def done (h : H) : Doing → Option (State C H)
  | .load =>
    match s.ctx.reason with
    | some _ => some { s.goto (.handler h) (.doing (.returned .closedDone)) with
        handed := .closedDone :: s.handed, inCall := s.inCall.erase h }
    | none => some (s.goto (.handler h) (.doing .lock))
  | .lock =>
    match s.ctx.mu with
    | none => some { s.goto (.handler h) (.doing .create) with
        ctx := { s.ctx with mu := some (.handler h) } }
    | some _ => none
  | .create => some { s.goto (.handler h) (.doing .reread) with ctx := { s.ctx with made := true } }
  | .reread =>
    match s.ctx.reason with
    | some _ => some { s.goto (.handler h) (.doing .unlock) with ctx := s.ctx.shut }
    | none => some (s.goto (.handler h) (.doing .unlock))
  | .unlock => some { s.goto (.handler h) (.doing (.returned .own)) with
      ctx := { s.ctx with mu := none }, handed := .own :: s.handed, inCall := s.inCall.erase h }
  | .returned _ => none

def err (h : H) : Erring → Option (State C H)
  | .load before =>
    match s.ctx.reason with
    | some why => some { s.goto (.handler h) (.erring (.returned before (some why.err))) with
        errs := why.err :: s.errs, inCall := s.inCall.erase h }
    | none => some (s.goto (.handler h) (.erring (.parent before)))
  | .parent before => some { s.goto (.handler h) (.erring (.returned before s.parent)) with
      errs := s.parent.toList ++ s.errs, inCall := s.inCall.erase h }
  | .returned .. => none

/-- `errv.Store(ctxLive)` in `release`. The next request has no history. -/
def recycled : State C H :=
  { s with ctx := { s.ctx with reason := none }
           pc := fun w => match w with
             | .handler _ | .server => .idle
             | w => s.pc w
           inCall := [], errs := [], handed := [], settled := false }

/-- The steps of the goroutine of `Serve`. `expired`: the budget of the request is used up. -/
def serve (expired : Bool) : Pc → Option (State C H)
  | .queued => some (s.goto .server .beginLoad)
  | .beginLoad => some (s.goto .server (if s.ctx.reason.isSome then .endTimer else .beginStopped))
  | .beginStopped => some (s.goto .server (if s.stopped then .endTimer else .beginParent))
  | .beginParent => some (s.goto .server (if s.parent.isSome then .endTimer else .beginBudget))
  | .beginBudget =>
    if !s.hasBudget then some (s.goto .server .handling)
    else if expired then some (s.goto .server (.canceling .refuse (.swap .deadline)))
    else some { (s.goto .server .handling).goto .timer .armed with
      armedFires := s.fires, timerArmed := true }
  | .endTimer =>
    if !s.timerArmed then some (s.goto .server .endLoad)
    else if s.pc .timer = .armed then
      some { (s.goto .timer .idle).goto .server .endLoad with timerArmed := false }
    else some (s.goto .server .endAwait)
  | .endAwait =>
    if s.fires = s.armedFires then none
    else some { s.goto .server .endLoad with timerArmed := false }
  | .endLoad => some (s.goto .server (.canceling .finish (.swap .canceled)))
  | .endOwner => some (s.goto .server .unregister)
  | .unregister =>
    match s.inflightMu with
    | none => some { s.goto .server .recycle with registered := false }
    | some _ => none
  | .recycle => if s.ctx.made then some (s.goto .server .retired) else some s.recycled
  | .canceling k pc => s.cancel .server k pc
  | _ => none

/-- The steps of a goroutine that cancels requests. `selected`: `match` is true of this one. -/
def cancelRequests (i : C) (selected : Bool) : Pc → Option (State C H)
  | .cancelLock code =>
    match s.inflightMu with
    | none => some { s.goto (.cancel i) (.cancelLook code) with inflightMu := some (.cancel i) }
    | some _ => none
  | .cancelLook code =>
    some (s.goto (.cancel i)
      (if s.registered && selected then .canceling .unlock (.swap code) else .cancelUnlock))
  | .cancelUnlock => some { s.goto (.cancel i) .idle with inflightMu := none }
  | .canceling k pc => s.cancel (.cancel i) k pc
  | _ => none

def onTimer : Pc → Option (State C H)
  | .canceling k pc => s.cancel .timer k pc
  | .timerAdd => some { s.goto .timer .idle with fires := s.fires + 1 }
  | _ => none

def next (b : Bool) : Who C H → Option (State C H)
  | .server => s.serve b (s.pc .server)
  | .timer => s.onTimer (s.pc .timer)
  | .cancel i => s.cancelRequests i b (s.pc (.cancel i))
  | .handler h =>
    match s.pc (.handler h) with
    | .doing pc => s.done h pc
    | .erring pc => s.err h pc
    | _ => none

def mayCall (h : H) : Bool :=
  (s.pc .server = .handling || s.ctx.made) &&
  match s.pc (.handler h) with
  | .idle | .doing (.returned _) | .erring (.returned ..) => true
  | _ => false

end State

inductive Act (C H : Type)
  /-- A request is routed. `hasBudget` is of the request, the rest of the `Serve` call that gets it. -/
  | attach (hasBudget : Bool) (parent : Option CtxErr) (stopped : Bool)
  | next (w : Who C H) (b : Bool)
  | cancel (i : C) (code : Reason)
  | fire
  | callErr (h : H)
  | callDone (h : H)
  | returns
  | drop
  | endParent (err : CtxErr)
  | stop

def step (s : State C H) : Act C H → Option (State C H)
  | .attach hasBudget parent stopped =>
    if s.pc .server = .idle ∧ s.inflightMu = none then
      some { s.goto .server .queued with
        hasBudget := hasBudget, parent := parent, stopped := stopped, registered := true }
    else none
  | .next w b => s.next b w
  | .cancel i code =>
    if s.pc (.cancel i) = .idle then some (s.goto (.cancel i) (.cancelLock code)) else none
  | .fire =>
    if s.pc .timer = .armed then some (s.goto .timer (.canceling .add (.swap .deadline))) else none
  | .callErr h =>
    if s.mayCall h then
      some { s.goto (.handler h) (.erring (.load s.errs)) with inCall := h :: s.inCall }
    else none
  | .callDone h =>
    if s.mayCall h then some { s.goto (.handler h) (.doing .load) with inCall := h :: s.inCall }
    else none
  | .returns =>
    if s.pc .server = .handling ∧ (s.ctx.made = true ∨ s.inCall = []) then
      some (s.goto .server .endTimer)
    else none
  | .drop => if s.pc .server = .queued then some (s.goto .server .unregister) else none
  | .endParent err => if s.parent = none then some { s with parent := some err } else none
  | .stop => some { s with stopped := true }

def start : State C H where
  ctx := .fresh
  pc := fun _ => .idle
  parent := none
  stopped := false
  hasBudget := false
  timerArmed := false
  armedFires := 0
  fires := 0
  inflightMu := none
  registered := false
  inCall := []
  errs := []
  handed := []
  settled := false

def machine : Machine (State C H) (Act C H) := ⟨start, step⟩

def State.errNow (s : State C H) : Option CtxErr :=
  match s.ctx.reason with
  | some why => some why.err
  | none => s.parent

def State.isClosed (s : State C H) : Chan → Bool
  | .own => s.ctx.closed
  | .closedDone => true

structure DoneContract (s : State C H) : Prop where
  nonNil : ∀ ch ∈ s.handed, s.isClosed ch = true → s.errNow ≠ none
  closed : s.settled = true → ∀ ch ∈ s.handed, s.isClosed ch = true
  once : s.ctx.closes ≤ 1 ∧ (s.ctx.closed = true ↔ s.ctx.closes = 1)

/-- What `Err` promises: a call that begins after an error was returned returns the same one, and
then the channels are closed. -/
structure ErrContract (s : State C H) : Prop where
  same : ∀ h before err, s.pc (.handler h) = .erring (.returned before err) →
    ∀ e ∈ before, err = some e
  closed : s.errs ≠ [] → ∀ ch ∈ s.handed, s.isClosed ch = true

def Pc.loadsErrv : Pc → Bool
  | .erring (.load _) => true
  | _ => false

def Pc.loadsParent : Pc → Bool
  | .erring (.parent _) => true
  | _ => false

/-- `Err` does not load `errv` between the swap of a `cancel` and its return, and it does not ask a
`Serve` context that has ended. -/
def Orderly (s : State C H) : Act C H → Prop
  | .next (.handler h) _ =>
    ((s.pc (.handler h)).loadsErrv = true → s.ctx.reason = none ∨ s.settled = true) ∧
    ((s.pc (.handler h)).loadsParent = true → s.parent = none)
  | _ => True

instance (s : State C H) : (a : Act C H) → Decidable (Orderly s a)
  | .next (.handler _) _ => inferInstanceAs (Decidable ((_ → _ ∨ _) ∧ (_ → _)))
  | .next .server _ | .next .timer _ | .next (.cancel _) _ | .attach .. | .cancel .. | .fire
  | .callErr _ | .callDone _ | .returns | .drop | .endParent _ | .stop => .isTrue trivial

def Pc.role : Pc → Role
  | .canceling _ .hasDone => .look
  | .canceling _ .lock => .wait
  | .canceling _ .close => .close
  | .canceling _ .unlock => .unlock
  | .doing .create => .make
  | .doing .reread => .reread
  | .doing .unlock => .leave
  | _ => .out

def State.roles (s : State C H) (w : Who C H) : Role := (s.pc w).role

variable {s s' : State C H} {w : Who C H} {p : Pc}

@[simp] theorem State.goto_self (s : State C H) (w : Who C H) (p : Pc) : (s.goto w p).pc w = p :=
  Function.update_self ..

theorem State.goto_of_ne {w' : Who C H} (h : w' ≠ w) : (s.goto w p).pc w' = s.pc w' :=
  Function.update_of_ne h ..

theorem State.roles_goto (s : State C H) (w : Who C H) (p : Pc) :
    (s.goto w p).roles = Function.update s.roles w p.role := by
  funext w'
  unfold State.roles
  by_cases h : w' = w
  · rw [h, State.goto_self, Function.update_self]
  · rw [State.goto_of_ne h, Function.update_of_ne h]

theorem State.roles_goto_same (h : p.role = (s.pc w).role) : (s.goto w p).roles = s.roles := by
  rw [State.roles_goto, h]
  exact Function.update_eq_self w s.roles

theorem State.after_role (k : Then) : (State.after k).role = .out := by
  cases k <;> rfl

structure Channels (s : State C H) : Prop where
  cell : LazyChan.Inv s.ctx s.roles s.settled (decide (.own ∈ s.handed))
  closedDone : .closedDone ∈ s.handed → s.ctx.reason ≠ none

omit [DecidableEq C] [DecidableEq H] in
theorem Channels.contract (h : Channels s) : DoneContract s where
  nonNil ch hch hclosed := by
    have hreason : s.ctx.reason ≠ none := by
      cases ch with
      | own => exact (h.cell.closed hclosed).2
      | closedDone => exact h.closedDone hch
    obtain ⟨why, hwhy⟩ := Option.ne_none_iff_exists'.mp hreason
    rw [State.errNow, hwhy]
    simp
  closed hs ch hch := by
    cases ch with
    | own => exact h.cell.closed_of_settled hs (decide_eq_true hch)
    | closedDone => rfl
  once := by
    rw [h.cell.closes]
    cases s.ctx.closed <;> simp

theorem Channels.plain (h : Channels s) (hrole : p.role = (s.pc w).role) : Channels (s.goto w p) :=
  ⟨(State.roles_goto_same hrole).symm ▸ h.cell, h.closedDone⟩

theorem Channels.cancel (h : Channels s) {k : Then} {pc : Canceling} (hpc : s.pc w = .canceling k pc)
    (hs : s.cancel w k pc = some s') : Channels s' := by
  have hrole : s.roles w = (Pc.canceling k pc).role := congrArg Pc.role hpc
  cases pc with
  | swap code =>
    simp only [State.cancel] at hs
    split at hs <;> cases hs
    · next hnone => exact ⟨State.roles_goto s w _ ▸ h.cell.record w hnone code, fun _ => by simp⟩
    · exact h.plain (by rw [State.after_role, hpc]; rfl)
  | hasDone =>
    simp only [State.cancel] at hs
    split at hs <;> cases hs
    · exact ⟨State.roles_goto s w _ ▸ h.cell.look_made hrole, h.closedDone⟩
    · next hmade =>
      have hcell := h.cell.look_none hrole (by simpa using hmade)
      rw [← State.after_role k, ← State.roles_goto] at hcell
      exact ⟨hcell, h.closedDone⟩
  | lock =>
    simp only [State.cancel] at hs
    split at hs <;> cases hs
    next hfree => exact ⟨State.roles_goto s w _ ▸ h.cell.lock hfree (.inl ⟨rfl, hrole⟩), h.closedDone⟩
  | close =>
    cases hs
    have hreason := (h.cell.recorded w (by rw [hrole]; rfl)).1
    refine ⟨State.roles_goto s w _ ▸ h.cell.shut hreason (.inl ⟨rfl, hrole⟩), fun hc => ?_⟩
    exact s.ctx.shut_reason ▸ h.closedDone hc
  | unlock =>
    cases hs
    have hcell := h.cell.settle hrole
    rw [← State.after_role k, ← State.roles_goto] at hcell
    exact ⟨hcell, h.closedDone⟩

theorem Channels.done (h : Channels s) {g : H} {pc : Doing} (hpc : s.pc (.handler g) = .doing pc)
    (hs : s.done g pc = some s') : Channels s' := by
  have hrole : s.roles (.handler g) = (Pc.doing pc).role := congrArg Pc.role hpc
  cases pc with
  | load =>
    simp only [State.done] at hs
    split at hs <;> cases hs
    · next why hwhy =>
      refine ⟨?_, fun _ => by simp [State.goto, hwhy]⟩
      have hown : decide (Chan.own ∈ Chan.closedDone :: s.handed) = decide (Chan.own ∈ s.handed) := by
        simp
      exact hown.symm ▸ (h.plain (p := .doing (.returned .closedDone)) (by rw [hpc]; rfl)).cell
    · exact h.plain (by rw [hpc]; rfl)
  | lock =>
    simp only [State.done] at hs
    split at hs <;> cases hs
    next hfree => exact ⟨State.roles_goto s _ _ ▸ h.cell.lock hfree (.inr ⟨rfl, hrole⟩), h.closedDone⟩
  | create =>
    cases hs
    exact ⟨State.roles_goto s _ _ ▸ h.cell.make hrole, h.closedDone⟩
  | reread =>
    simp only [State.done] at hs
    split at hs <;> cases hs
    · next why hwhy =>
      refine ⟨State.roles_goto s _ _ ▸ h.cell.shut (by simp [hwhy]) (.inr ⟨rfl, hrole⟩), fun hc => ?_⟩
      exact s.ctx.shut_reason ▸ h.closedDone hc
    · next hnone => exact ⟨State.roles_goto s _ _ ▸ h.cell.reread_none hrole hnone, h.closedDone⟩
  | unlock =>
    cases hs
    have hcell := h.cell.leave hrole
    refine ⟨?_, fun hc => h.closedDone (by simpa using hc)⟩
    have hown : decide (Chan.own ∈ Chan.own :: s.handed) = true := by simp
    exact hown ▸ State.roles_goto s _ _ ▸ hcell
  | returned ch => cases hs

end Hqq.RequestCtx
