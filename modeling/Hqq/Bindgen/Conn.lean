import Mathlib.Logic.Function.Basic
import Hqq.Word
import Hqq.Bindgen.Wire

/-!
# The client side of a session

The data of a `Conn` and the functions of `conn.go` that touch nothing else. A `Call` is used
again after its end, so the calls live in a heap and a reference is a number. `none` is a panic.
-/

namespace Hqq.Bindgen

/-- A slice of bytes, with its whole capacity in `mem`. -/
structure Slice where
  mem : List Byte
  len : Nat
  len_le : len ≤ mem.length

namespace Slice

def empty : Slice := ⟨[], 0, le_rfl⟩

def bytes (b : Slice) : List Byte := b.mem.take b.len

def cap (b : Slice) : Nat := b.mem.length

def copyAt (b : Slice) (off : Nat) (src : List Byte) : Option Slice :=
  if h : off ≤ b.len then
    let n := min (b.len - off) src.length
    some ⟨b.mem.take off ++ src.take n ++ b.mem.drop (off + n), b.len, by
      have := b.len_le
      simp only [List.length_append, List.length_take, List.length_drop, n]
      omega⟩
  else none

def growTo (b : Slice) (n : Nat) : Slice :=
  if h : n ≤ b.cap then ⟨b.mem, n, h⟩ else ⟨List.replicate n 0, n, by simp⟩

end Slice

/-- What the server has granted, as `parseOpen` and `parseHelloReply` check it. -/
structure Limits where
  bufferCount : Nat
  bufferSize : Nat
  maxInFlight : Nat
  maxMessage : Nat
  count_ge : 2 ≤ bufferCount
  size_ge : 128 ≤ bufferSize
  size_le : bufferSize ≤ 2 ^ 20
  inFlight_pos : 1 ≤ maxInFlight
  inFlight_le : maxInFlight ≤ bufferCount
  message_le : maxMessage ≤ 2 ^ 30

structure Cfg where
  lim : Limits
  ops : Nat
  callTimeout : Nat
  closeTimeout : Nat
  /-- The capacity that `append` allocates, from the old capacity and the length. -/
  growslice : Nat → Nat → Nat
  le_growslice : ∀ cap n, n ≤ growslice cap n

def Cfg.chunk (k : Cfg) : Nat := k.lim.bufferSize - headerSize

def smallCfg : Cfg where
  lim := ⟨2, 128, 2, 4096, by decide, by decide, by decide, by decide, by decide, by decide⟩
  ops := 1
  callTimeout := 3
  closeTimeout := 5
  growslice := fun _ n => n
  le_growslice := fun _ _ => le_rfl

def Slice.fill (k : Cfg) (b : Slice) (src : List Byte) : Slice :=
  if h : src.length ≤ b.cap then
    ⟨src ++ b.mem.drop src.length, src.length, by simp⟩
  else
    ⟨src ++ List.replicate (k.growslice b.cap src.length - src.length) 0, src.length, by simp⟩

inductive LinkErr
  | timeout
  | closed
  | other (code : Nat)
  deriving DecidableEq

inductive SessErr
  | transport (err : LinkErr)
  | protocol (reason : String)
  | status (status : U32) (msg : List Byte)
  | joined (err : SessErr) (rerr : LinkErr)
  deriving DecidableEq

/-- What a method returns when it fails. `Func` is the operation, if there is one. -/
inductive Err
  | concurrentUse
  | invalidArg
  | futureUsed
  | transport (op : Option U16) (err : LinkErr) (unknown : Bool)
  /-- `brokenErr`: the call was refused because the session had failed. -/
  | broken (op : U16) (err : Option SessErr)
  /-- `errForCall`, or the failure of the session itself. -/
  | session (op : Option U16) (err : Option SessErr)
  | status (op : U16) (status : U32) (msg : List Byte)

inductive RxMode
  | buffer
  | hold
  | discard
  deriving DecidableEq

structure Assembly where
  active : Bool
  id : U32
  total : U32
  got : Nat
  deriving DecidableEq

def Assembly.none : Assembly := ⟨false, 0, 0, 0⟩

structure RfEntry where
  bound : Nat
  rf : Nat

structure Enc where
  op : U16
  bodyLen : Nat
  respMax : Nat
  rf : Nat
  multi : Bool

abbrev CallRef := Nat

structure Call where
  id : U32
  op : U16
  rf : Nat
  respMax : Nat
  pending : Bool
  done : Bool
  flags : Byte
  status : U32
  msg : List Byte
  body : List Byte
  buf : Slice
  idx : Nat

def Call.new : Call where
  id := 0
  op := 0
  rf := 0
  respMax := 0
  pending := false
  done := false
  flags := 0
  status := 0
  msg := []
  body := []
  buf := .empty
  idx := 0

/-- `unans` is the ring of the unanswered calls, oldest first, and `heap` has the calls up to
`allocated`. The last one put into `free` is its head. -/
structure Conn where
  txOpen : Bool
  rxOpen : Bool
  enc : Enc
  lastID : U32
  rxHeld : Bool
  rxGen : U32
  asm : Assembly
  rdArmed : Bool
  unans : List CallRef
  unansRF : Int
  live : List CallRef
  free : List CallRef
  heap : CallRef → Call
  allocated : Nat
  rfs : U16 → RfEntry
  broken : Option SessErr
  rxDead : Bool
  closed : Bool
  closeRes : Option Err × Option LinkErr

def Conn.new : Conn where
  txOpen := false
  rxOpen := false
  enc := ⟨0, 0, 0, 0, false⟩
  lastID := 0
  rxHeld := false
  rxGen := 0
  asm := .none
  rdArmed := false
  unans := []
  unansRF := 0
  live := []
  free := []
  heap := fun _ => .new
  allocated := 0
  rfs := fun _ => ⟨0, 0⟩
  broken := none
  rxDead := false
  closed := false
  closeRes := (none, none)

def keepBuf : Nat := 2 ^ 20
def maxFreeCalls : Nat := 256

namespace Conn

def setCall (c : Conn) (r : CallRef) (call : Call) : Conn :=
  { c with heap := Function.update c.heap r call }

def setAsm (c : Conn) (a : Assembly) : Conn := { c with asm := a }

/-! ## Flow control -/

def validRequest (k : Cfg) (op : U16) (bodyLen respMax : Int) : Bool :=
  (op ≠ 0 ∧ op.toNat ≤ k.ops) ∧ 0 ≤ bodyLen ∧ bodyLen ≤ k.lim.maxMessage ∧ 0 ≤ respMax ∧
    respMax ≤ k.lim.maxMessage

def rfOf (k : Cfg) (c : Conn) (op : U16) (respMax : Nat) : Conn × Nat :=
  let e := c.rfs op
  if e.rf ≠ 0 ∧ e.bound = respMax then (c, e.rf)
  else
    let rf := max 1 ((respMax + k.chunk - 1) / k.chunk)
    ({ c with rfs := Function.update c.rfs op ⟨respMax, rf⟩ }, rf)

def fits (k : Cfg) (c : Conn) (rf : Nat) : Bool :=
  if k.lim.maxInFlight ≤ c.unans.length then false
  else if rf ≤ k.lim.bufferCount then c.unansRF + rf ≤ k.lim.bufferCount
  else c.unans.length = 0

def newCall (c : Conn) : Conn × CallRef :=
  match c.free with
  | r :: rest => ({ c with free := rest }, r)
  | [] => ({ c.setCall c.allocated .new with allocated := c.allocated + 1 }, c.allocated)

def register (c : Conn) (id : U32) : Conn × CallRef :=
  let e := c.enc
  let (c, r) := { c with lastID := id }.newCall
  let call := { c.heap r with
    id := id, op := e.op, rf := e.rf, respMax := e.respMax, pending := true, idx := c.live.length }
  ({ c.setCall r call with
      unans := c.unans ++ [r], unansRF := c.unansRF + e.rf, live := c.live ++ [r] }, r)

def unregister (c : Conn) (r : CallRef) : Option Conn :=
  match c.live.getLast? with
  | none => none
  | some moved =>
    let idx := (c.heap r).idx
    if idx < c.live.length then
      some { c.setCall moved { c.heap moved with idx := idx } with
        live := (c.live.set idx moved).dropLast }
    else none

def putFree (c : Conn) (r : CallRef) : Conn :=
  if c.free.length < maxFreeCalls then { c with free := r :: c.free } else c

def recycle (c : Conn) (r : CallRef) : Option Conn :=
  (c.unregister r).map fun c =>
    let call := c.heap r
    (c.setCall r { call with
      pending := false, done := false, status := 0, msg := [], body := [],
      buf := if keepBuf < call.buf.cap then .empty else call.buf }).putFree r

/-- The call is not used again, because the ring may still name it. -/
def dropCall (c : Conn) (r : CallRef) : Option Conn :=
  (c.unregister r).map fun c =>
    c.setCall r { c.heap r with pending := false, done := false, body := [] }

def endCall (c : Conn) (r : CallRef) : Option Conn :=
  if (c.heap r).done then c.recycle r else c.dropCall r

def discardFrom (c : Conn) (i : Nat) : Nat → Option Conn
  | 0 => some c
  | n + 1 =>
    match c.live[i]? with
    | none => some c
    | some r =>
      if (c.heap r).done then (c.recycle r).bind (discardFrom · i n) else c.discardFrom (i + 1) n

def discardAnswered (c : Conn) : Option Conn := c.discardFrom 0 c.live.length

def endCalls (c : Conn) : Nat → Option Conn
  | 0 => some c
  | n + 1 =>
    match c.live.getLast? with
    | none => some c
    | some r => (c.endCall r).bind (endCalls · n)

def abandon (c : Conn) : Option Conn :=
  (c.endCalls c.live.length).map fun c => { c with unans := [], unansRF := 0, asm := .none }

def failRx (c : Conn) (e : SessErr) : Conn :=
  if c.broken = none ∨ c.rxDead = false then { c with rxDead := true, broken := some e }
  else { c with rxDead := true }

def failTx (c : Conn) (e : LinkErr) : Conn :=
  if c.broken = none then { c with broken := some (.transport e) } else c

def markKilled (c : Conn) : Conn := c.failRx (.transport .closed)

inductive Accepted
  | fault (e : SessErr)
  | held
  | complete
  | more
  deriving DecidableEq

def finish (c : Conn) (r : CallRef) : Conn :=
  let call := c.heap r
  { c.setCall r { call with done := true } with
    unans := c.unans.tail, unansRF := c.unansRF - call.rf, asm := .none }

def contMatches (h : Header) (a : Assembly) : Bool :=
  h.kind = kindCont ∧ h.flags = 0 ∧ h.op = 0 ∧ h.id = a.id ∧ h.total = a.total ∧ h.aux.toNat = a.got

def acceptCont (k : Cfg) (c : Conn) (h : Header) (body : List Byte) (mode : RxMode) :
    Option (Conn × Accepted) :=
  let a := c.asm
  if contMatches h a = false then
    some (c, .fault (.protocol "continuation does not match its message"))
  else if body.length ≠ min (a.total.toNat - a.got) k.chunk then
    some (c, .fault (.protocol "continuation length"))
  else
    match c.unans.head? with
    | none =>
      if mode = .discard ∧ a.got + body.length < a.total.toNat then
        some (c.setAsm { a with got := a.got + body.length }, .more)
      else none
    | some r =>
      let call := c.heap r
      let buf := if mode = .discard then some call.buf else call.buf.copyAt a.got body
      buf.map fun buf =>
        let c := (c.setCall r { call with buf := buf }).setAsm { a with got := a.got + body.length }
        if a.got + body.length < a.total.toNat then (c, .more)
        else
          let call := c.heap r
          let c := if mode = .discard then c else c.setCall r { call with body := buf.bytes }
          (c.finish r, .complete)

def statusResponse (c : Conn) (r : CallRef) (h : Header) (body : List Byte) : Conn × Accepted :=
  if h.flags ≠ 0 then (c, .fault (.protocol "flags on an error response"))
  else if callStatusOK h.aux = false then
    (c, .fault (.protocol "status that is not valid for a call"))
  else if errBodyMax < h.total.toNat then
    (c, .fault (.protocol "error response above ERRBODY_MAX"))
  else
    match getStr body msgMax with
    | none => (c, .fault (.protocol "malformed status message"))
    | some (msg, stop) =>
      if stop ≠ body.length then (c, .fault (.protocol "malformed status message"))
      else ((c.setCall r { c.heap r with status := h.aux, msg := msg }).finish r, .complete)

def finalFrame (h : Header) (body : List Byte) : SessErr :=
  if h.flags ≠ 0 ∨ h.op ≠ 0 ∨ ¬ (h.aux = statusProtocol ∨ h.aux = statusShuttingDown) then
    .protocol "malformed final frame"
  else
    match getStr body msgMax with
    | none => .protocol "malformed final frame message"
    | some (msg, stop) =>
      if stop ≠ body.length then .protocol "malformed final frame message" else .status h.aux msg

def acceptFirst (k : Cfg) (c : Conn) (r : CallRef) (h : Header) (body : List Byte) (mode : RxMode) :
    Option (Conn × Accepted) :=
  let call := { c.heap r with flags := h.flags }
  if k.chunk < h.total.toNat then
    let buf := if mode = .discard then some call.buf
      else (call.buf.growTo h.total.toNat).copyAt 0 body
    buf.map fun buf =>
      ((c.setCall r { call with buf := buf }).setAsm ⟨true, h.id, h.total, body.length⟩, .more)
  else
    match mode with
    | .hold => some ((c.setCall r { call with body := body }).finish r, .held)
    | .buffer =>
      let buf := call.buf.fill k body
      some ((c.setCall r { call with buf := buf, body := buf.bytes }).finish r, .complete)
    | .discard => some ((c.setCall r call).finish r, .complete)

def flagsValid (f : Byte) : Bool :=
  f &&& ~~~flagsKnown = 0 ∧ ¬ (f &&& flagDetail ≠ 0 ∧ f &&& flagFail = 0)

def acceptFor (k : Cfg) (c : Conn) (r : CallRef) (h : Header) (body : List Byte) (mode : RxMode) :
    Option (Conn × Accepted) :=
  if h.id ≠ (c.heap r).id ∨ h.op ≠ (c.heap r).op then
    some (c, .fault (.protocol "response does not match the oldest request"))
  else if h.aux ≠ statusOK then some (c.statusResponse r h body)
  else if (c.heap r).respMax < h.total.toNat then
    some (c, .fault (.protocol "response above its bound"))
  else c.acceptFirst k r h body mode

def acceptResponse (k : Cfg) (c : Conn) (h : Header) (body : List Byte) (mode : RxMode) :
    Option (Conn × Accepted) :=
  if h.kind ≠ kindResponse then some (c, .fault (.protocol "unexpected frame kind"))
  else if k.lim.maxMessage < h.total.toNat then
    some (c, .fault (.protocol "total above max_message"))
  else if body.length ≠ min h.total.toNat k.chunk then
    some (c, .fault (.protocol "frame length does not match total"))
  else if h.id = 0 then some (c, .fault (finalFrame h body))
  else
    match c.unans.head? with
    | none => some (c, .fault (.protocol "response without a request"))
    | some r => c.acceptFor k r h body mode

def acceptFrame (k : Cfg) (c : Conn) (b : List Byte) (mode : RxMode) : Option (Conn × Accepted) :=
  let h := loadHeader b
  let body := b.drop headerSize
  if b.length < headerSize then some (c, .fault (.protocol "frame shorter than the header"))
  else if flagsValid h.flags = false then some (c, .fault (.protocol "invalid flags"))
  else if c.asm.active then c.acceptCont k h body mode
  else c.acceptResponse k h body mode

/-! ## What calls and frames leave alone -/

structure Kept (c c' : Conn) : Prop where
  txOpen : c'.txOpen = c.txOpen
  rxOpen : c'.rxOpen = c.rxOpen
  enc : c'.enc = c.enc
  lastID : c'.lastID = c.lastID
  rxHeld : c'.rxHeld = c.rxHeld
  rxGen : c'.rxGen = c.rxGen
  rfs : c'.rfs = c.rfs
  broken : c'.broken = c.broken
  rxDead : c'.rxDead = c.rxDead
  closed : c'.closed = c.closed

variable {c c' c'' : Conn} {r : CallRef}

theorem Kept.refl (c : Conn) : Kept c c := ⟨rfl, rfl, rfl, rfl, rfl, rfl, rfl, rfl, rfl, rfl⟩

theorem Kept.trans (h : Kept c c') (h' : Kept c' c'') : Kept c c'' where
  txOpen := h'.txOpen.trans h.txOpen
  rxOpen := h'.rxOpen.trans h.rxOpen
  enc := h'.enc.trans h.enc
  lastID := h'.lastID.trans h.lastID
  rxHeld := h'.rxHeld.trans h.rxHeld
  rxGen := h'.rxGen.trans h.rxGen
  rfs := h'.rfs.trans h.rfs
  broken := h'.broken.trans h.broken
  rxDead := h'.rxDead.trans h.rxDead
  closed := h'.closed.trans h.closed

theorem kept_setCall (call : Call) : Kept c (c.setCall r call) :=
  ⟨rfl, rfl, rfl, rfl, rfl, rfl, rfl, rfl, rfl, rfl⟩

theorem kept_unregister (h : c.unregister r = some c') : Kept c c' := by
  unfold unregister at h
  split at h
  · cases h
  · dsimp only at h
    split at h <;> cases h
    exact ⟨rfl, rfl, rfl, rfl, rfl, rfl, rfl, rfl, rfl, rfl⟩

theorem kept_putFree : Kept c (c.putFree r) := by
  unfold putFree
  split <;> exact ⟨rfl, rfl, rfl, rfl, rfl, rfl, rfl, rfl, rfl, rfl⟩

theorem kept_recycle (h : c.recycle r = some c') : Kept c c' := by
  obtain ⟨d, hd, rfl⟩ := Option.map_eq_some_iff.mp h
  exact (kept_unregister hd).trans ((kept_setCall _).trans kept_putFree)

theorem kept_dropCall (h : c.dropCall r = some c') : Kept c c' := by
  obtain ⟨d, hd, rfl⟩ := Option.map_eq_some_iff.mp h
  exact (kept_unregister hd).trans (kept_setCall _)

theorem kept_endCall (h : c.endCall r = some c') : Kept c c' := by
  unfold endCall at h
  split at h
  · exact kept_recycle h
  · exact kept_dropCall h

theorem kept_discardFrom {i n : Nat} (h : c.discardFrom i n = some c') : Kept c c' := by
  induction n generalizing c i with
  | zero =>
    cases h
    exact .refl _
  | succ n ih =>
    unfold discardFrom at h
    split at h
    · cases h
      exact .refl _
    · split at h
      · obtain ⟨d, hd, hrest⟩ := Option.bind_eq_some_iff.mp h
        exact (kept_recycle hd).trans (ih hrest)
      · exact ih h

theorem kept_endCalls {n : Nat} (h : c.endCalls n = some c') : Kept c c' := by
  induction n generalizing c with
  | zero =>
    cases h
    exact .refl _
  | succ n ih =>
    unfold endCalls at h
    split at h
    · cases h
      exact .refl _
    · obtain ⟨d, hd, hrest⟩ := Option.bind_eq_some_iff.mp h
      exact (kept_endCall hd).trans (ih hrest)

theorem kept_abandon (h : c.abandon = some c') : Kept c c' := by
  obtain ⟨d, hd, rfl⟩ := Option.map_eq_some_iff.mp h
  exact (kept_endCalls hd).trans ⟨rfl, rfl, rfl, rfl, rfl, rfl, rfl, rfl, rfl, rfl⟩

theorem kept_setAsm (a : Assembly) : Kept c (c.setAsm a) :=
  ⟨rfl, rfl, rfl, rfl, rfl, rfl, rfl, rfl, rfl, rfl⟩

theorem kept_finish : Kept c (c.finish r) := ⟨rfl, rfl, rfl, rfl, rfl, rfl, rfl, rfl, rfl, rfl⟩

variable {k : Cfg} {h : Header} {b body : List Byte} {mode : RxMode} {out : Accepted}

theorem kept_acceptCont (hout : c.acceptCont k h body mode = some (c', out)) : Kept c c' := by
  simp only [acceptCont] at hout
  split at hout
  · cases hout
    exact .refl c
  · split at hout
    · cases hout
      exact .refl c
    · split at hout
      · split at hout <;> cases hout
        exact kept_setAsm _
      · obtain ⟨buf, -, hbuf⟩ := Option.map_eq_some_iff.mp hout
        split at hbuf
        · cases hbuf
          exact (kept_setCall _).trans (kept_setAsm _)
        · split at hbuf <;> cases hbuf
          · exact ((kept_setCall _).trans (kept_setAsm _)).trans kept_finish
          · exact (((kept_setCall _).trans (kept_setAsm _)).trans (kept_setCall _)).trans kept_finish

theorem kept_statusResponse : Kept c (c.statusResponse r h body).1 := by
  unfold statusResponse
  split
  · exact .refl c
  split
  · exact .refl c
  split
  · exact .refl c
  split
  · exact .refl c
  split
  · exact .refl c
  · exact (kept_setCall _).trans kept_finish

theorem kept_acceptFirst (hout : c.acceptFirst k r h body mode = some (c', out)) : Kept c c' := by
  unfold acceptFirst at hout
  split at hout
  · obtain ⟨buf, -, hbuf⟩ := Option.map_eq_some_iff.mp hout
    cases hbuf
    exact (kept_setCall _).trans (kept_setAsm _)
  · split at hout <;> cases hout <;> exact (kept_setCall _).trans kept_finish

theorem acceptFor_cases (hout : c.acceptFor k r h body mode = some (c', out)) :
    (∃ e, c' = c ∧ out = .fault e) ∨ (c', out) = c.statusResponse r h body ∨
      (h.id = (c.heap r).id ∧ h.op = (c.heap r).op ∧ h.total.toNat ≤ (c.heap r).respMax ∧
        c.acceptFirst k r h body mode = some (c', out)) := by
  unfold acceptFor at hout
  split at hout
  · cases hout
    exact .inl ⟨_, rfl, rfl⟩
  next hid =>
  push Not at hid
  split at hout
  · exact .inr (.inl (Option.some.inj hout).symm)
  split at hout
  · cases hout
    exact .inl ⟨_, rfl, rfl⟩
  next hmax => exact .inr (.inr ⟨hid.1, hid.2, not_lt.mp hmax, hout⟩)

theorem acceptResponse_cases (hout : c.acceptResponse k h body mode = some (c', out)) :
    (∃ e, c' = c ∧ out = .fault e) ∨
      ∃ r, c.unans.head? = some r ∧ body.length = min h.total.toNat k.chunk ∧
        c.acceptFor k r h body mode = some (c', out) := by
  unfold acceptResponse at hout
  split at hout
  · cases hout
    exact .inl ⟨_, rfl, rfl⟩
  split at hout
  · cases hout
    exact .inl ⟨_, rfl, rfl⟩
  split at hout
  · cases hout
    exact .inl ⟨_, rfl, rfl⟩
  next hlen =>
  split at hout
  · cases hout
    exact .inl ⟨_, rfl, rfl⟩
  split at hout
  · cases hout
    exact .inl ⟨_, rfl, rfl⟩
  next r hr => exact .inr ⟨r, hr, not_not.mp hlen, hout⟩

theorem acceptFrame_cases (hout : c.acceptFrame k b mode = some (c', out)) :
    (∃ e, c' = c ∧ out = .fault e) ∨
    (c.asm.active = true ∧ c.acceptCont k (loadHeader b) (b.drop headerSize) mode = some (c', out)) ∨
    (c.asm.active = false ∧
      c.acceptResponse k (loadHeader b) (b.drop headerSize) mode = some (c', out)) := by
  simp only [acceptFrame] at hout
  split at hout
  · cases hout
    exact .inl ⟨_, rfl, rfl⟩
  split at hout
  · cases hout
    exact .inl ⟨_, rfl, rfl⟩
  split at hout
  next hactive => exact .inr (.inl ⟨hactive, hout⟩)
  next hactive => exact .inr (.inr ⟨Bool.not_eq_true _ ▸ hactive, hout⟩)

theorem acceptFrame_ind {P : Conn → Accepted → Prop}
    (hout : c.acceptFrame k b mode = some (c', out))
    (fault : ∀ e, P c (.fault e))
    (cont : c.asm.active = true →
      c.acceptCont k (loadHeader b) (b.drop headerSize) mode = some (c', out) → P c' out)
    (status : ∀ r, c.asm.active = false → c.unans.head? = some r →
      (c', out) = c.statusResponse r (loadHeader b) (b.drop headerSize) → P c' out)
    (first : ∀ r, c.asm.active = false → c.unans.head? = some r →
      (b.drop headerSize).length = min (loadHeader b).total.toNat k.chunk →
      (loadHeader b).id = (c.heap r).id ∧ (loadHeader b).op = (c.heap r).op ∧
        (loadHeader b).total.toNat ≤ (c.heap r).respMax →
      c.acceptFirst k r (loadHeader b) (b.drop headerSize) mode = some (c', out) → P c' out) :
    P c' out := by
  rcases acceptFrame_cases hout with ⟨e, rfl, rfl⟩ | ⟨hactive, hcont⟩ | ⟨hactive, hresp⟩
  · exact fault e
  · exact cont hactive hcont
  rcases acceptResponse_cases hresp with ⟨e, rfl, rfl⟩ | ⟨r, hr, hlen, hfor⟩
  · exact fault e
  rcases acceptFor_cases hfor with ⟨e, rfl, rfl⟩ | hstatus | ⟨hid, hop, hmax, hfirst⟩
  · exact fault e
  · exact status r hactive hr hstatus
  · exact first r hactive hr hlen ⟨hid, hop, hmax⟩ hfirst

theorem kept_acceptFrame (hout : c.acceptFrame k b mode = some (c', out)) : Kept c c' := by
  apply acceptFrame_ind (P := fun c' _ => Kept c c') hout
  · exact fun _ => .refl c
  · exact fun _ hcont => kept_acceptCont hcont
  · intro r _ _ hstatus
    rw [show c' = _ from congrArg Prod.fst hstatus]
    exact kept_statusResponse
  · exact fun r _ _ _ _ hfirst => kept_acceptFirst hfirst

theorem acceptCont_ne_held (hout : c.acceptCont k h body mode = some (c', out)) : out ≠ .held := by
  simp only [acceptCont] at hout
  split at hout
  · cases hout
    simp
  · split at hout
    · cases hout
      simp
    · split at hout
      · split at hout <;> cases hout
        simp
      · obtain ⟨buf, -, hbuf⟩ := Option.map_eq_some_iff.mp hout
        split at hbuf <;> cases hbuf <;> simp

theorem statusResponse_ne_held : (c.statusResponse r h body).2 ≠ .held := by
  unfold statusResponse
  split
  · simp
  split
  · simp
  split
  · simp
  split
  · simp
  split <;> simp

theorem acceptFirst_held (hout : c.acceptFirst k r h body mode = some (c', .held)) : mode = .hold := by
  unfold acceptFirst at hout
  split at hout
  · obtain ⟨buf, -, hbuf⟩ := Option.map_eq_some_iff.mp hout
    cases hbuf
  · split at hout
    · rfl
    · cases hout
    · cases hout

theorem acceptFrame_held (hout : c.acceptFrame k b mode = some (c', .held)) : mode = .hold := by
  apply acceptFrame_ind (P := fun _ out => out = .held → mode = .hold) hout
  · intro e h
    cases h
  · exact fun _ hcont h => absurd h (acceptCont_ne_held hcont)
  · exact fun r _ _ hstatus h => absurd ((congrArg Prod.snd hstatus).symm.trans h) statusResponse_ne_held
  · exact fun r _ _ _ _ hfirst _ => acceptFirst_held hfirst
  · rfl

end Conn

end Hqq.Bindgen
