import Hqq.Bindgen.Conn

/-!
# The owner of a session

One goroutine at a time owns a `Conn`. `Ctl` has the points at which the owner is about to touch
what it shares with others. `next` takes the answer and runs the code up to the next such point.
-/

namespace Hqq.Bindgen

structure Dec where
  body : List Byte
  detail : Bool
  fail : Bool
  gen : U32
  op : U16

inductive Ret
  | enc
  | call (r : CallRef) (id : U32)
  | dec (r : CallRef) (d : Dec)
  | unit
  | err (e : Err)
  | closed (err : Option Err) (linkErr : Option LinkErr)

inductive Method
  | beginRequest (op : U16) (bodyLen respMax : Int)
  | submit (body : List Byte)
  | abort
  /-- No call stands for a nil pointer, or for the call of another session. -/
  | wait (call : Option CallRef) (id : U32)
  | release (gen : U32)
  | malformed (fn : String)
  | sync
  | close
  | err

inductive Run
  | room (op : U16) (bodyLen respMax rf : Nat)
  | await (call : CallRef)
  | sync

inductive After
  | ret (r : Ret)
  | synced (rerr : Option LinkErr)
  | closed (err : Option Err)

inductive Ctl
  | idle (last : Ret)
  -- enter
  | enter (m : Method)
  | refused (m : Method)
  | refusedClose (m : Method)
  -- armRead, readResponse, readError
  | arm (r : Run) (on : Bool)
  | armed (r : Run)
  | read (r : Run)
  | release (r : Run) (out : Except SessErr Bool)
  | readError (r : Run) (e : LinkErr)
  -- BeginRequest
  | reserve (op : U16) (bodyLen respMax rf : Nat)
  | reserveFailed (op : U16) (e : LinkErr)
  -- Submit and sendFrames
  | commit (body : List Byte)
  | send (body : List Byte) (off : Nat) (committed : Bool)
  | sendCommit (body : List Byte) (off : Nat) (committed : Bool)
  | sendFailed (e : LinkErr) (committed : Bool)
  -- Abort, endRx
  | aborting
  | endRx
  -- afterOp, leave
  | afterOp (a : After)
  | leave (a : After)
  | leaveClose (a : After)
  | syncRefused
  -- Err
  | errCheck
  -- Close and closeSession
  | closeArmWrite
  | closeKilledWrite
  | closeReserve
  | closeCommit
  | closeArmRead
  | closeKilledRead
  | closeRead
  | closeRelease (b : List Byte)
  | closeFailed (e : LinkErr)
  | closeLink (err : Option Err)
  | panicked

inductive Ans
  /-- The kill bit. For `leave`: whether the link is to be closed now. -/
  | gate (b : Bool)
  | ok
  | fail (e : LinkErr)
  | frame (b : List Byte)
  deriving DecidableEq

namespace Conn

def orPanic (c : Conn) : Option (Conn × Ctl) → Conn × Ctl
  | none => (c, .panicked)
  | some r => r

/-- The link of a session whose receive side died is closed as soon as no reservation is open. -/
def afterOp (c : Conn) (a : After) : Conn × Ctl :=
  if c.rxDead ∧ c.txOpen = false ∧ c.rxOpen = false then (c, .afterOp a) else (c, .leave a)

def resume (c : Conn) : After → Conn × Ctl
  | .ret r => (c, .idle r)
  | .synced rerr =>
    c.orPanic (c.discardAnswered.map fun c =>
      (c, .idle (match rerr with
        | none => .unit
        | some e => .err (.transport none e true))))
  | .closed err => (c, .closeLink err)

def abandonCall (c : Conn) (r : CallRef) : Option (Conn × Err) :=
  let e := Err.session (some (c.heap r).op) c.broken
  (c.endCall r).map fun c => (c, e)

def answered (c : Conn) (r : CallRef) : Conn × Ctl :=
  let call := c.heap r
  c.orPanic <|
    if call.status ≠ statusOK then
      (c.recycle r).map fun c =>
        { c with rxOpen := false }.afterOp (.ret (.err (.status call.op call.status call.msg)))
    else
      let gen := c.rxGen + 1
      let d : Dec := ⟨call.body, call.flags &&& flagDetail ≠ 0, call.flags &&& flagFail ≠ 0, gen, call.op⟩
      ({ c with rxGen := gen }.recycle r).map fun c => (c, .idle (.dec r d))

def reserveRequest (k : Cfg) (c : Conn) (op : U16) (bodyLen respMax rf : Nat) : Conn × Ctl :=
  if headerSize + bodyLen ≤ k.lim.bufferSize then (c, .reserve op bodyLen respMax rf)
  else ({ c with txOpen := true, enc := ⟨op, bodyLen, respMax, rf, true⟩ }, .idle .enc)

/-! ## Reading responses -/

def mode (c : Conn) : Run → RxMode
  | .room .. => .buffer
  | .await r => if c.unans.head? = some r then .hold else .buffer
  | .sync => .discard

/-- The end of a run of reads with an error. A live receive side has only seen `e`. -/
def runFailed (c : Conn) (e : LinkErr) : Run → Conn × Ctl
  | .room op .. =>
    (c, .leave (.ret (.err (if c.rxDead then .broken op c.broken else .transport (some op) e false))))
  | .await r =>
    let c := { c with rxOpen := false }
    if c.rxDead then
      c.orPanic ((c.abandonCall r).map fun (c, e) => c.afterOp (.ret (.err e)))
    else (c, .leave (.ret (.err (.transport (some (c.heap r).op) e true))))
  | .sync =>
    if c.rxDead then
      c.orPanic (c.abandon.map fun c => c.afterOp (.ret (.err (.session none c.broken))))
    else (c, .leave (.synced (some e)))

def armRead (k : Cfg) (c : Conn) (r : Run) : Conn × Ctl :=
  if 0 < k.callTimeout then ({ c with rdArmed := true }, .arm r true)
  else if c.rdArmed then ({ c with rdArmed := false }, .arm r false)
  else (c, .read r)

def runHead (k : Cfg) (c : Conn) (r : Run) (armed : Bool) : Conn × Ctl :=
  match r with
  | .room op bodyLen respMax rf =>
    if c.fits k rf then c.reserveRequest k op bodyLen respMax rf
    else if c.rxDead then c.runFailed .closed r
    else if armed then (c, .read r) else c.armRead k r
  | .await call =>
    if (c.heap call).done then c.answered call
    else if c.rxDead then c.runFailed .closed r
    else if armed then (c, .read r) else c.armRead k r
  | .sync =>
    if c.unans.length = 0 ∨ c.rxDead then
      if c.rxDead then c.runFailed .closed r else (c, .leave (.synced none))
    else if armed then (c, .read r) else c.armRead k r

/-- An error of `armRead`. `makeRoom` does not look at the kill bit. -/
def armFailed (c : Conn) (e : LinkErr) : Run → Conn × Ctl
  | .room op bodyLen respMax rf => c.runFailed e (.room op bodyLen respMax rf)
  | r => (c, .readError r e)

def readFrame (k : Cfg) (c : Conn) (r : Run) (b : List Byte) : Conn × Ctl :=
  match c.acceptFrame k b (c.mode r) with
  | none => (c, .panicked)
  | some (c, .fault e) => (c, .release r (.error e))
  | some (c, .held) => { c with rxHeld := true }.runHead k r true
  | some (c, .complete) => (c, .release r (.ok true))
  | some (c, .more) => (c, .release r (.ok false))

def released (k : Cfg) (c : Conn) (r : Run) (out : Except SessErr Bool) (rerr : Option LinkErr) :
    Conn × Ctl :=
  match out, rerr with
  | .error e, none => (c.failRx e).runFailed .closed r
  | .error e, some rerr => (c.failRx (.joined e rerr)).runFailed .closed r
  | .ok _, some rerr => (c.failRx (.transport rerr)).runFailed .closed r
  | .ok true, none => c.runHead k r true
  | .ok false, none => (c, .read r)

def readFailed (c : Conn) (r : Run) (e : LinkErr) (killed : Bool) : Conn × Ctl :=
  if killed then (c.failRx (.transport .closed)).runFailed .closed r
  else if e = .timeout then c.runFailed e r
  else (c.failRx (.transport e)).runFailed e r

def submitted (c : Conn) : Conn × Ctl :=
  let id := nextID c.lastID
  let (c, r) := { c with txOpen := false }.register id
  c.afterOp (.ret (.call r id))

def txFailed (c : Conn) (e : LinkErr) (killed : Bool) : Conn × LinkErr :=
  if killed then (c.markKilled, .closed) else (c.failTx e, e)

def endRx (c : Conn) : Conn × Ctl := { c with rxOpen := false }.afterOp (.ret .unit)

def entered (k : Cfg) (c : Conn) : Method → Option (Conn × Ctl)
  | .beginRequest op bodyLen respMax =>
    let (c, rf) := c.rfOf k op respMax.toNat
    some (c.runHead k (.room op bodyLen.toNat respMax.toNat rf) false)
  | .wait (some r) _ => some ({ c with rxOpen := true }.runHead k (.await r) false)
  | .sync => some (c.runHead k .sync false)
  | .close => some (c, .closeArmWrite)
  | _ => none

def notEntered (c : Conn) : Method → Option (Conn × Ctl)
  | .beginRequest op _ _ =>
    let c := c.markKilled
    some (c, .idle (.err (.broken op c.broken)))
  | .wait (some r) _ =>
    some (c.orPanic ((c.markKilled.abandonCall r).map fun (c, e) => (c, .idle (.err e))))
  | .sync =>
    some (c.orPanic (c.markKilled.abandon.map fun c =>
      if c.rxDead ∧ c.txOpen = false ∧ c.rxOpen = false then (c, .syncRefused)
      else (c, .idle (.err (.session none c.broken)))))
  | .close => some (c.markKilled, .closeLink none)
  | _ => none

def invoke (k : Cfg) (c : Conn) : Method → Option (Conn × Ctl)
  | .beginRequest op bodyLen respMax => some <|
    if c.txOpen ∨ c.rxOpen then (c, .idle (.err .concurrentUse))
    else if validRequest k op bodyLen respMax = false then (c, .idle (.err .invalidArg))
    else if c.closed then (c, .idle (.err (.transport (some op) .closed false)))
    else if c.broken ≠ none then (c, .idle (.err (.broken op c.broken)))
    else (c, .enter (.beginRequest op bodyLen respMax))
  | .submit body =>
    if c.txOpen = false then some (c, .idle (.err .invalidArg))
    else if body.length ≠ c.enc.bodyLen then none
    else if c.enc.multi then some (c, .send body 0 false)
    else some (c, .commit body)
  | .abort => some <|
    if c.txOpen = false then (c, .idle .unit)
    else
      let c := { c with txOpen := false }
      if c.enc.multi then c.afterOp (.ret .unit) else (c, .aborting)
  | .wait call id =>
    match call with
    | none => some (c, .idle (.err .futureUsed))
    | some r =>
      if c.allocated ≤ r then none
      else some <|
        if (c.heap r).pending = false ∨ (c.heap r).id ≠ id then (c, .idle (.err .futureUsed))
        else if c.rxOpen then (c, .idle (.err .concurrentUse))
        else (c, .enter (.wait call id))
  | .release gen => some <|
    if gen ≠ c.rxGen ∨ c.rxOpen = false then (c, .idle .unit)
    else if c.rxHeld then ({ c with rxHeld := false }, .endRx)
    else c.endRx
  | .malformed fn => some (c.failRx (.protocol ("malformed response body of " ++ fn)), .idle .unit)
  | .sync => some <|
    if c.txOpen ∨ c.rxOpen then (c, .idle (.err .concurrentUse)) else (c, .enter .sync)
  | .close => some <|
    if c.txOpen ∨ c.rxOpen then (c, .idle (.err .concurrentUse))
    else if c.closed then (c, .idle (.closed c.closeRes.1 c.closeRes.2))
    else
      c.orPanic ({ c with closed := true }.abandon.map fun (c : Conn) =>
        if c.broken = none then (c, .enter .close) else (c, .closeLink none))
  | .err => some (if c.broken = none then (c, .errCheck) else (c, .idle (.err (.session none c.broken))))

def closeFrame (c : Conn) (b : List Byte) : Conn × Ctl :=
  let h := loadHeader b
  let fail (reason : String) : Conn × Ctl :=
    (c, .leave (.closed (some (.session none (some (.protocol reason))))))
  if b.length < headerSize then fail "frame shorter than the header"
  else if h.kind = kindResponse ∨ h.kind = kindCont then (c, .closeRead)
  else if h.kind = kindCloseAck then
    if b.length ≠ headerSize ∨ h.flags ≠ 0 ∨ h.op ≠ 0 ∨ h.id ≠ 0 ∨ h.total ≠ 0 then
      fail "malformed CLOSE_ACK"
    else (c, .leave (.closed none))
  else fail "unexpected frame kind while closing"

/-- `none`: this is no answer to the operation of the control point. -/
def next (k : Cfg) (c : Conn) : Ctl → Ans → Option (Conn × Ctl)
  | .enter m, .gate killed => if killed then some (c, .refused m) else c.entered k m
  | .refused m, .gate last => if last then some (c, .refusedClose m) else c.notEntered m
  | .refusedClose m, .ok | .refusedClose m, .fail _ => c.notEntered m
  | .arm r _, .ok => some (c, .armed r)
  | .arm r _, .fail e => some (c.armFailed e r)
  | .armed r, .gate killed => some (if killed then c.armFailed .closed r else (c, .read r))
  | .read r, .frame b => some (c.readFrame k r b)
  | .read r, .fail e => some (c, .readError r e)
  | .release r out, .ok => some (c.released k r out none)
  | .release r out, .fail e => some (c.released k r out (some e))
  | .readError r e, .gate killed => some (c.readFailed r e killed)
  | .reserve op bodyLen respMax rf, .ok =>
    some ({ c with txOpen := true, enc := ⟨op, bodyLen, respMax, rf, false⟩ }, .idle .enc)
  | .reserve op _ _ _, .fail e => some (c, .reserveFailed op e)
  | .reserveFailed op e, .gate killed =>
    let (c, e) := c.txFailed e killed
    some (c, .leave (.ret (.err (.transport (some op) e false))))
  | .commit _, .ok => some c.submitted
  | .commit _, .fail e => some ({ c with txOpen := false }, .sendFailed e false)
  | .send body off committed, .ok => some (c, .sendCommit body off committed)
  | .send _ _ committed, .fail e => some ({ c with txOpen := false }, .sendFailed e committed)
  | .sendCommit body off _, .ok =>
    let off := off + min (body.length - off) k.chunk
    some (if body.length ≤ off then c.submitted else (c, .send body off true))
  | .sendCommit _ _ committed, .fail e => some ({ c with txOpen := false }, .sendFailed e committed)
  | .sendFailed e committed, .gate killed =>
    let (c, e) := c.txFailed e killed
    some (c.afterOp (.ret (.err (.transport (some c.enc.op) e committed))))
  | .aborting, .ok => some (c.afterOp (.ret .unit))
  | .aborting, .fail e => some ((c.failTx e).afterOp (.ret .unit))
  | .endRx, .ok => some c.endRx
  | .endRx, .fail e => some (c.failRx (.transport e)).endRx
  | .afterOp a, .ok | .afterOp a, .fail _ => some (c, .leave a)
  | .leave a, .gate last => some (if last then (c, .leaveClose a) else c.resume a)
  | .leaveClose a, .ok | .leaveClose a, .fail _ => some (c.resume a)
  | .syncRefused, .ok | .syncRefused, .fail _ => some (c, .idle (.err (.session none c.broken)))
  | .errCheck, .gate killed =>
    let c := if killed then c.markKilled else c
    some (c, .idle (.err (.session none c.broken)))
  | .closeArmWrite, .ok => some (c, .closeKilledWrite)
  | .closeArmWrite, .fail e => some (c, .closeFailed e)
  | .closeKilledWrite, .gate killed => some (c, if killed then .closeFailed .closed else .closeReserve)
  | .closeReserve, .ok => some (c, .closeCommit)
  | .closeReserve, .fail e => some (c, .closeFailed e)
  | .closeCommit, .ok => some (c, .closeArmRead)
  | .closeCommit, .fail e => some (c, .closeFailed e)
  | .closeArmRead, .ok => some ({ c with rdArmed := true }, .closeKilledRead)
  | .closeArmRead, .fail e => some (c, .closeFailed e)
  | .closeKilledRead, .gate killed => some (c, if killed then .closeFailed .closed else .closeRead)
  | .closeRead, .frame b => some (c, .closeRelease b)
  | .closeRead, .fail e => some (c, .closeFailed e)
  | .closeRelease b, .ok => some (c.closeFrame b)
  | .closeRelease _, .fail e => some (c, .closeFailed e)
  | .closeFailed e, .gate killed =>
    some (c, .leave (.closed (some (.transport none (if killed then .closed else e) false))))
  | .closeLink err, .ok => some ({ c with closeRes := (err, none) }, .idle (.closed err none))
  | .closeLink err, .fail e =>
    some ({ c with closeRes := (err, some e) }, .idle (.closed err (some e)))
  | _, _ => none

end Conn

end Hqq.Bindgen
