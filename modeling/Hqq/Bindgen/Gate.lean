import Hqq.Machine
import Hqq.Slots
import Hqq.Bindgen.Places

/-!
# Killing a session

The gate word counts the spans in which the owner can touch the memory of the link, and has the
kill bit. Here the owner of `Owner.lean` runs beside any number of calls of `Kill`.
-/

namespace Hqq.Bindgen

inductive Op
  | none
  | enter
  | refuse
  | leave
  | load
  | close
  | setRead (on : Bool)
  | closeSetRead
  | closeSetWrite
  | waitRead
  | waitWrite
  | slot
  deriving DecidableEq

def Ctl.op : Ctl → Op
  | .idle _ | .panicked => .none
  | .enter _ => .enter
  | .refused _ => .refuse
  | .leave _ => .leave
  | .armed _ | .readError .. | .reserveFailed .. | .sendFailed .. | .errCheck | .closeKilledWrite
  | .closeKilledRead | .closeFailed _ => .load
  | .refusedClose _ | .afterOp _ | .leaveClose _ | .syncRefused | .closeLink _ => .close
  | .arm _ on => .setRead on
  | .closeArmRead => .closeSetRead
  | .closeArmWrite => .closeSetWrite
  | .read _ | .closeRead => .waitRead
  | .reserve .. | .send .. | .closeReserve => .waitWrite
  | .release .. | .commit _ | .sendCommit .. | .aborting | .endRx | .closeCommit
  | .closeRelease _ => .slot

inductive KillPc
  | close
  | closing
  | clock
  | setRead (now : Nat)
  | setWrite (now : Nat)
  | returned (woke : Bool)
  deriving DecidableEq

/-- `closeOnce`. The owner is nobody of `kills`. -/
inductive Once
  | fresh
  | running (who : Option Nat)
  | done
  deriving DecidableEq

/-- `spans` and `runs` are history: the spans that the owner has entered and not left, and how
often `closeFn` was called. -/
structure State where
  conn : Conn
  ctl : Ctl
  count : Nat
  killed : Bool
  once : Once
  readDeadline : Option Nat
  writeDeadline : Option Nat
  closeDeadline : Nat
  clock : Nat
  kills : List KillPc
  spans : Nat
  runs : Nat

inductive Act
  | invoke (m : Method)
  /-- The answer counts where it is not the gate or the `closeOnce` that answers. -/
  | owner (a : Ans)
  | kill
  | killer (i : Nat)
  | tick (d : Nat)

def State.start : State where
  conn := .new
  ctl := .idle .unit
  count := 0
  killed := false
  once := .fresh
  readDeadline := none
  writeDeadline := none
  closeDeadline := 0
  clock := 0
  kills := []
  spans := 0
  runs := 0

namespace State

variable (k : Cfg)

def go (s : State) (a : Ans) : Option State :=
  (s.conn.next k s.ctl a).map fun r => { s with conn := r.1, ctl := r.2 }

/-- `gate.Add(^uint64(0)) == killedBit`. -/
def lastOut (s : State) : Bool := s.killed && s.count - 1 = 0

/-- `closeOnce.Do`: the first one runs `closeFn`, and the others wait for it. -/
def ownerClose (s : State) (a : Ans) : Option State :=
  match s.once with
  | .fresh => some { s with once := .running none, runs := s.runs + 1 }
  | .running none => { s with once := .done }.go k a
  | .running (some _) => none
  | .done => s.go k a

def owner (s : State) (a : Ans) : Option State :=
  match s.ctl.op with
  | .none => none
  | .enter =>
    { s with count := s.count + 1, spans := if s.killed then s.spans else s.spans + 1 }.go k
      (.gate s.killed)
  | .refuse => { s with count := s.count - 1 }.go k (.gate s.lastOut)
  | .leave => { s with count := s.count - 1, spans := s.spans - 1 }.go k (.gate s.lastOut)
  | .load => s.go k (.gate s.killed)
  | .close => s.ownerClose k a
  -- the deadline is stored even if the link is closed
  | .setRead on =>
    { s with readDeadline := if on then some (s.clock + k.callTimeout) else none }.go k a
  | .closeSetWrite =>
    { s with
      closeDeadline := s.clock + k.closeTimeout
      writeDeadline := some (s.clock + k.closeTimeout) }.go k a
  | .closeSetRead => { s with readDeadline := some s.closeDeadline }.go k a
  | .waitRead | .waitWrite | .slot => s.go k a

def setKill (s : State) (i : Nat) (pc : KillPc) : State := { s with kills := s.kills.set i pc }

def killer (s : State) (i : Nat) : Option State :=
  match s.kills[i]? with
  | some .close =>
    match s.once with
    | .fresh => some { s.setKill i .closing with once := .running (some i), runs := s.runs + 1 }
    | .running _ => none
    | .done => some (s.setKill i (.returned false))
  | some .closing => some { s.setKill i (.returned false) with once := .done }
  | some .clock => some (s.setKill i (.setRead s.clock))
  | some (.setRead now) => some { s.setKill i (.setWrite now) with readDeadline := some now }
  | some (.setWrite now) => some { s.setKill i (.returned true) with writeDeadline := some now }
  | some (.returned _) | none => none

def step (s : State) : Act → Option State
  | .invoke m =>
    match s.ctl with
    | .idle _ => (s.conn.invoke k m).map fun r => { s with conn := r.1, ctl := r.2 }
    | _ => none
  | .owner a => s.owner k a
  | .kill =>
    some { s with killed := true, kills := s.kills ++ [if s.count = 0 then .close else .clock] }
  | .killer i => s.killer i
  | .tick d => some { s with clock := s.clock + d }

end State

def machine (k : Cfg) : Machine State Act where
  init := .start
  step := State.step k

/-! ## Which points follow -/

def Ctl.reads : Ctl → Bool
  | .read _ | .release .. | .closeRead | .closeRelease _ => true
  | _ => false

def Ctl.lastClose : Ctl → Bool
  | .refusedClose _ | .leaveClose _ => true
  | _ => false

def Ctl.quiet : Ctl → Bool
  | .read _ | .release .. | .closeRead | .closeRelease _ | .refused _ | .refusedClose _
  | .leaveClose _ | .closeReserve => false
  | _ => true

/-- What follows a control point: a read only after another one or after a look at the kill bit. -/
inductive Follows : Ctl → Ans → Ctl → Prop
  | quiet {ctl a ctl'} : ctl'.quiet = true → Follows ctl a ctl'
  | reads {ctl a ctl'} : ctl'.quiet = true ∨ ctl'.reads = true → ctl.reads = true → Follows ctl a ctl'
  | checked {ctl ctl'} : ctl.op = .load → ctl'.reads = true → Follows ctl (.gate false) ctl'
  | entered {m ctl'} : ctl'.quiet = true ∨ ctl'.reads = true → Follows (.enter m) (.gate false) ctl'
  | refused (m) : Follows (.enter m) (.gate true) (.refused m)
  | last {ctl ctl'} : ctl.op = .refuse ∨ ctl.op = .leave → ctl'.lastClose = true →
    Follows ctl (.gate true) ctl'
  | reserve : Follows .closeKilledWrite (.gate false) .closeReserve

section

variable {k : Cfg} {c : Conn} {run : Run} {a : After} {e : LinkErr} {r : CallRef}

theorem quiet_afterOp : (c.afterOp a).2.quiet = true := by
  unfold Conn.afterOp
  split <;> rfl

theorem quiet_orPanic {f : Conn → Conn × Ctl} (hf : ∀ c, (f c).2.quiet = true) (o : Option Conn) :
    (c.orPanic (o.map f)).2.quiet = true := by
  cases o with
  | none => rfl
  | some d => exact hf d

theorem quiet_resume : (c.resume a).2.quiet = true := by
  cases a with
  | ret r => rfl
  | synced rerr => exact quiet_orPanic (fun _ => rfl) _
  | closed err => rfl

theorem quiet_answered : (c.answered r).2.quiet = true := by
  unfold Conn.answered
  dsimp only
  split
  · exact quiet_orPanic (fun _ => quiet_afterOp) _
  · exact quiet_orPanic (fun _ => rfl) _

theorem quiet_runFailed : (c.runFailed e run).2.quiet = true := by
  cases run with
  | room => rfl
  | await r =>
    unfold Conn.runFailed Conn.abandonCall
    dsimp only
    split
    · rw [Option.map_map]
      exact quiet_orPanic (fun _ => quiet_afterOp) _
    · rfl
  | sync =>
    unfold Conn.runFailed
    dsimp only
    split
    · exact quiet_orPanic (fun _ => quiet_afterOp) _
    · rfl

theorem quiet_armFailed : (c.armFailed e run).2.quiet = true := by
  cases run with
  | room => exact quiet_runFailed
  | await r => rfl
  | sync => rfl

theorem quiet_readFailed {killed : Bool} : (c.readFailed run e killed).2.quiet = true := by
  unfold Conn.readFailed
  split
  · exact quiet_runFailed
  split <;> exact quiet_runFailed

theorem quiet_submitted : c.submitted.2.quiet = true := quiet_afterOp

theorem quiet_notEntered {m : Method} {p : Conn × Ctl} (h : c.notEntered m = some p) :
    p.2.quiet = true := by
  unfold Conn.notEntered at h
  split at h
  · cases h
    rfl
  · cases h
    unfold Conn.abandonCall
    rw [Option.map_map]
    exact quiet_orPanic (fun _ => rfl) _
  · cases h
    refine quiet_orPanic (fun d => ?_) _
    split <;> rfl
  · cases h
    rfl
  · cases h

theorem kind_armRead : (c.armRead k run).2.quiet = true ∨ (c.armRead k run).2.reads = true := by
  unfold Conn.armRead
  split
  · exact .inl rfl
  split
  · exact .inl rfl
  · exact .inr rfl

theorem kind_runHead (armed : Bool) :
    (c.runHead k run armed).2.quiet = true ∨ (c.runHead k run armed).2.reads = true := by
  have hrest : (if armed then (c, Ctl.read run) else c.armRead k run).2.quiet = true ∨
      (if armed then (c, Ctl.read run) else c.armRead k run).2.reads = true := by
    split
    · exact .inr rfl
    · exact kind_armRead
  unfold Conn.runHead
  cases run with
  | room op bodyLen respMax rf =>
    dsimp only
    split
    · unfold Conn.reserveRequest
      split <;> exact .inl rfl
    split
    · exact .inl quiet_runFailed
    · exact hrest
  | await r =>
    dsimp only
    split
    · exact .inl quiet_answered
    split
    · exact .inl quiet_runFailed
    · exact hrest
  | sync =>
    dsimp only
    split
    · split
      · exact .inl quiet_runFailed
      · exact .inl rfl
    · exact hrest

theorem kind_readFrame (c : Conn) (run : Run) (b : List Byte) :
    (c.readFrame k run b).2.quiet = true ∨ (c.readFrame k run b).2.reads = true := by
  unfold Conn.readFrame
  split
  · exact .inl rfl
  · exact .inr rfl
  · exact kind_runHead true
  · exact .inr rfl
  · exact .inr rfl

theorem kind_released (c : Conn) (run : Run) (out : Except SessErr Bool) (rerr : Option LinkErr) :
    (c.released k run out rerr).2.quiet = true ∨ (c.released k run out rerr).2.reads = true := by
  unfold Conn.released
  split
  case h_4 => exact kind_runHead true
  case h_5 => exact .inr rfl
  all_goals exact .inl quiet_runFailed

theorem kind_closeFrame (c : Conn) (b : List Byte) :
    (c.closeFrame b).2.quiet = true ∨ (c.closeFrame b).2.reads = true := by
  unfold Conn.closeFrame
  dsimp only
  split
  · exact .inl rfl
  split
  · exact .inr rfl
  split
  · split <;> exact .inl rfl
  · exact .inl rfl

theorem entered_kind {m : Method} {p : Conn × Ctl} (h : c.entered k m = some p) :
    Follows (.enter m) (.gate false) p.2 := by
  unfold Conn.entered at h
  split at h <;> cases h
  case h_4 => exact .quiet rfl
  all_goals exact .entered (kind_runHead false)

theorem next_follows {ctl : Ctl} {ans : Ans} {p : Conn × Ctl} (h : c.next k ctl ans = some p) :
    Follows ctl ans p.2 := by
  cases ctl <;> cases ans <;> try cases h
  case enter.gate m killed =>
    cases killed with
    | true =>
      cases h
      exact .refused m
    | false => exact entered_kind h
  case refused.gate m last =>
    cases last with
    | true =>
      cases h
      exact .last (.inl rfl) rfl
    | false => exact .quiet (quiet_notEntered h)
  case refusedClose.ok | refusedClose.fail => exact .quiet (quiet_notEntered h)
  case arm.fail => exact .quiet quiet_armFailed
  case armed.gate run killed =>
    cases killed with
    | true => exact .quiet quiet_armFailed
    | false => exact .checked rfl rfl
  case read.frame run b => exact .reads (kind_readFrame c run b) rfl
  case release.ok run out => exact .reads (kind_released c run out none) rfl
  case release.fail run out e => exact .reads (kind_released c run out (some e)) rfl
  case readError.gate => exact .quiet quiet_readFailed
  case commit.ok => exact .quiet quiet_submitted
  case sendCommit.ok =>
    split
    · exact .quiet quiet_submitted
    · exact .quiet rfl
  case sendFailed.gate | aborting.ok | aborting.fail | endRx.ok | endRx.fail =>
    exact .quiet quiet_afterOp
  case leave.gate a last =>
    cases last with
    | true => exact .last (.inr rfl) rfl
    | false => exact .quiet quiet_resume
  case leaveClose.ok | leaveClose.fail => exact .quiet quiet_resume
  case closeKilledWrite.gate killed =>
    cases killed with
    | true => exact .quiet rfl
    | false => exact .reserve
  case closeKilledRead.gate killed =>
    cases killed with
    | true => exact .quiet rfl
    | false => exact .checked rfl rfl
  case closeRead.frame => exact .reads (.inr rfl) rfl
  case closeRelease.ok b => exact .reads (kind_closeFrame c b) rfl
  all_goals exact .quiet rfl

theorem next_inClose {ctl : Ctl} {ans : Ans} {p : Conn × Ctl} (h : c.next k ctl ans = some p)
    (hin : ctl.inClose = true) : p.2.inClose = true ∨ ∃ err, ctl = .closeLink err := by
  cases ctl with
  | enter m | refused m =>
    cases m with
    | close =>
      cases ans with
      | gate b => cases b <;> cases h <;> exact .inl rfl
      | _ => cases h
    | _ => cases hin
  | refusedClose m =>
    cases m with
    | close => cases ans <;> cases h <;> exact .inl rfl
    | _ => cases hin
  | leave a =>
    cases a with
    | closed err =>
      cases ans with
      | gate last => cases last <;> cases h <;> exact .inl rfl
      | _ => cases h
    | _ => cases hin
  | leaveClose a =>
    cases a with
    | closed err => cases ans <;> cases h <;> exact .inl rfl
    | _ => cases hin
  | closeArmWrite | closeReserve | closeCommit | closeArmRead | closeRead | closeFailed e =>
    cases ans <;> cases h <;> exact .inl rfl
  | closeKilledWrite | closeKilledRead =>
    cases ans with
    | gate killed => cases killed <;> cases h <;> exact .inl rfl
    | _ => cases h
  | closeRelease b =>
    cases ans with
    | ok =>
      cases h
      left
      unfold Conn.closeFrame
      dsimp only
      split
      · rfl
      split
      · rfl
      split
      · split <;> rfl
      · rfl
    | fail e =>
      cases h
      exact .inl rfl
    | _ => cases h
  | closeLink err => exact .inr ⟨err, rfl⟩
  | _ => cases hin

end

end Hqq.Bindgen
