import Hqq.Advanced.Meta
import Hqq.Machine
import Hqq.Table
import Mathlib.Data.Finset.Basic

/-!
# Messages from frames

`consumeAdvancedChunk` and what it calls (`advanced_io.go`, `message.go`).

`none` is where the code would panic, or where a copy would be cut short.
-/

namespace Hqq.Advanced

def advFlagBegin : Word := 1
def advFlagEnd : Word := 2
def advFlagAbort : Word := 4
def advFlagRequest : Word := 8
def advFlagResponse : Word := 16
def advFlagError : Word := 32
def advFlagMeta : Word := 64

def advancedKnownFlags : Word :=
  advFlagBegin ||| advFlagEnd ||| advFlagAbort ||| advFlagRequest ||| advFlagResponse |||
    advFlagError

abbrev Has (flags bits : Word) : Prop := flags &&& bits ≠ 0

structure Key where
  connectionID : Word
  messageID : Word
  kind : Word
  deriving DecidableEq, Repr

structure Header where
  streamID : Word
  messageID : Word
  flags : Word
  aux : Word
  deriving DecidableEq, Repr

/-- An `OpConnCopy` packet and the slot buffer that comes with it. -/
structure Frame where
  connectionID : Word
  messageID : Word
  totalSize : Word
  chunkOffset : Word
  chunkSize : Word
  flags : Word
  aux : Word
  buffer : List Byte

def Frame.key (f : Frame) : Key :=
  ⟨f.connectionID, f.messageID, f.flags &&& (advFlagRequest ||| advFlagResponse)⟩

def Frame.header (f : Frame) : Header := ⟨f.connectionID, f.messageID, f.flags, f.aux⟩

def defaultMaxAdvancedMessageSize : Word := 64 <<< 20
def defaultReassemblyFactor : Word := 4
def advancedAssemblyOverhead : Word := 256
def maxRejectedMessages : Nat := 1024
def advancedAssemblyIdleChunks : Word := 65536

structure Options where
  maxMessageSize : Word
  maxReassemblyBytes : Word
  /-- `FeatureMetadata` was negotiated. No chunk is received before that is settled. -/
  metadata : Bool

structure Config where
  maxMessageSize : Word
  maxReassemblyBytes : Word
  metadata : Bool
  maxMessageSize_ne : maxMessageSize ≠ 0

def newAdvancedLink (opts : Options) : Config where
  maxMessageSize :=
    if opts.maxMessageSize = 0 then defaultMaxAdvancedMessageSize else opts.maxMessageSize
  maxReassemblyBytes :=
    let maxMessageSize :=
      if opts.maxMessageSize = 0 then defaultMaxAdvancedMessageSize else opts.maxMessageSize
    if opts.maxReassemblyBytes = 0 then
      if maxMessageSize * defaultReassemblyFactor / defaultReassemblyFactor ≠ maxMessageSize then
        BitVec.allOnes 64
      else maxMessageSize * defaultReassemblyFactor
    else opts.maxReassemblyBytes
  metadata := opts.metadata
  maxMessageSize_ne := by
    split
    · decide
    · assumption

/-! ## Messages and the pool -/

structure Message where
  header : Header
  data : List Byte
  off : Nat
  n : Nat
  msgMeta : MsgMeta
  deriving DecidableEq

def Message.bytes (m : Message) : Option (List Byte) := slice m.data m.off (m.off + m.n)

def len64 (x : Nat) : Nat := if x = 0 then 0 else x.log2 + 1

def minMessageClass : Nat := 6

def classOf (n : Nat) : Nat :=
  if n ≤ 2 ^ minMessageClass then 0 else len64 (n - 1) - minMessageClass

def classSize (cfg : Config) (c : Nat) : Nat :=
  min (2 ^ (c + minMessageClass) % 2 ^ 64) cfg.maxMessageSize.toNat

def topClass (cfg : Config) : Nat := classOf (min cfg.maxMessageSize.toNat maxInt64)

/-- What a frame does not determine: the order of a map, old buffers, the clock. -/
structure Env where
  order : List Key
  recycled : Nat → Byte
  now : Nat

/-- `msgPool.get`. A buffer from the pool still holds what its last user left there. -/
def poolGet (cfg : Config) (env : Env) (n : Nat) : Option Message :=
  if classOf n ≤ topClass cfg then
    some ⟨⟨0, 0, 0, 0⟩, (List.range (classSize cfg (classOf n))).map env.recycled, 0, n,
      MsgMeta.none⟩
  else none

def Message.stripMeta (m : Message) (recvAt : Nat) : Option (Except Err Message) :=
  (slice m.data 0 m.n).map fun data =>
    match parseMeta data with
    | .ok (found, k) =>
      .ok { m with msgMeta := { found with recvAt := recvAt }, off := k, n := m.n - k }
    | .error e => .error e

/-! ## The state of the receiver -/

structure Assembly where
  header : Header
  msg : Message
  size : Word
  next : Word
  seen : Word
  recvAt : Nat
  deriving DecidableEq

def Assembly.charge (a : Assembly) : Word := a.size + advancedAssemblyOverhead

structure Rx where
  chunks : Word
  chunksAtSweep : Word
  assemblies : Table Key Assembly
  assemblyBytes : Word
  rejected : Finset Key
  rejectedOrder : List Key
  rejectedEvicted : Bool
  reclaimed : List Header

def Rx.fresh : Rx := ⟨0, 0, ∅, 0, ∅, [], false, []⟩

def Rx.isRejected (s : Rx) (key : Key) : Prop := key ∈ s.rejected

instance (s : Rx) (key : Key) : Decidable (s.isRejected key) :=
  inferInstanceAs (Decidable (key ∈ s.rejected))

def Rx.Fits (cfg : Config) (s : Rx) (charge : Word) : Prop :=
  s.assemblyBytes ≤ cfg.maxReassemblyBytes - charge

instance (cfg : Config) (s : Rx) (charge : Word) : Decidable (s.Fits cfg charge) :=
  inferInstanceAs (Decidable (_ ≤ _))

def Rx.store (s : Rx) (key : Key) (a : Assembly) : Rx :=
  { s with assemblies := s.assemblies.insert key a }

def Rx.dropAssembly (s : Rx) (key : Key) : Rx :=
  match s.assemblies.lookup key with
  | some a =>
    { s with
      assemblyBytes := s.assemblyBytes - a.charge
      assemblies := s.assemblies.erase key }
  | none => s

def Rx.rejectMessage (s : Rx) (key : Key) : Rx :=
  if maxRejectedMessages ≤ s.rejectedOrder.length then
    { s with
      rejected := insert key (s.rejectedOrder.head?.elim s.rejected s.rejected.erase)
      rejectedOrder := s.rejectedOrder.tail ++ [key]
      rejectedEvicted := true }
  else
    { s with
      rejected := insert key s.rejected
      rejectedOrder := s.rejectedOrder ++ [key] }

def Rx.forgetRejected (s : Rx) (key : Key) : Rx :=
  if s.isRejected key then
    { s with
      rejected := s.rejected.erase key
      rejectedOrder := s.rejectedOrder.erase key }
  else s

def Header.abort (h : Header) : Header := { h with flags := h.flags ||| advFlagAbort }

def Rx.reclaim (s : Rx) (key : Key) (a : Assembly) : Rx :=
  let s' := (s.dropAssembly key).rejectMessage key
  if Has a.header.abort.flags advFlagRequest ∨ Has a.header.abort.flags advFlagResponse then
    { s' with reclaimed := s'.reclaimed ++ [a.header.abort] }
  else s'

def Rx.sweep (cfg : Config) (charge : Word) : List Key → Rx → Rx
  | [], s => s
  | key :: keys, s =>
    if s.Fits cfg charge then s
    else match s.assemblies.lookup key with
      | some a =>
        if advancedAssemblyIdleChunks ≤ s.chunks - a.seen then (s.reclaim key a).sweep cfg charge keys
        else s.sweep cfg charge keys
      | none => s.sweep cfg charge keys

def Rx.rangeOrder (s : Rx) (order : List Key) : List Key :=
  (order ++ s.assemblies.keys).eraseDups.filter (· ∈ s.assemblies.keys)

def Rx.reclaimIdle (cfg : Config) (env : Env) (s : Rx) (charge : Word) : Rx :=
  if cfg.maxReassemblyBytes < charge ∨ s.Fits cfg charge then s
  else if (s.chunks - s.chunksAtSweep).toNat <
      max advancedAssemblyIdleChunks.toNat s.assemblies.keys.length then s
  else Rx.sweep cfg charge (s.rangeOrder env.order) { s with chunksAtSweep := s.chunks }

inductive Outcome where
  | chunkPartial
  | chunkComplete (m : Message)
  | chunkAborted (header : Header)
  | chunkRefused (header : Header)
  deriving DecidableEq

def knownFlags (cfg : Config) : Word :=
  if cfg.metadata then advancedKnownFlags ||| advFlagMeta else advancedKnownFlags

def BadFlags (known flags : Word) : Prop :=
  Has flags (~~~ known) ∨
  (Has flags advFlagRequest ∧ Has flags advFlagResponse) ∨
  (Has flags advFlagError ∧ ¬ Has flags advFlagResponse) ∨
  (Has flags advFlagMeta ∧ ¬ Has flags advFlagRequest)

instance (known flags : Word) : Decidable (BadFlags known flags) :=
  inferInstanceAs (Decidable (_ ∨ _))

def checkSizes (cfg : Config) (f : Frame) : Option Err :=
  if f.buffer.length < f.chunkSize.toNat ∨ f.totalSize < f.chunkOffset ∨
      f.totalSize - f.chunkOffset < f.chunkSize then some .invalidSize
  else if 0 < cfg.maxMessageSize ∧ cfg.maxMessageSize < f.totalSize then some .bufferOverflow
  else if f.totalSize = 0 ∧ (f.chunkOffset ≠ 0 ∨ f.chunkSize ≠ 0 ∨
      f.flags &&& (advFlagBegin ||| advFlagEnd) ≠ advFlagBegin ||| advFlagEnd) then
    some .invalidSize
  else if 0 < f.totalSize ∧ f.chunkSize = 0 then some .invalidSize
  else if f.chunkOffset ≠ 0 ∧ f.aux ≠ 0 then some .invalidSize
  else if maxInt64 < f.totalSize.toNat then some .bufferOverflow
  else none

abbrev Result := Except Err Outcome

def Rx.fail (s : Rx) (key : Key) (e : Err) : Rx × Result :=
  ((s.dropAssembly key).forgetRejected key, .error e)

def Rx.abort (s : Rx) (f : Frame) : Rx × Result :=
  let s' := s.dropAssembly f.key
  if s'.isRejected f.key then (s'.forgetRejected f.key, .ok .chunkPartial)
  else (s', .ok (.chunkAborted f.header))

def Message.finish (m : Message) (recvAt : Nat) : Option Result :=
  if Has m.header.flags advFlagMeta then
    (m.stripMeta recvAt).map fun r => r.map .chunkComplete
  else some (.ok (.chunkComplete m))

def Frame.recvAt (f : Frame) (env : Env) : Nat :=
  if Has f.flags advFlagMeta then env.now else 0

def Rx.single (cfg : Config) (env : Env) (s : Rx) (f : Frame) : Option (Rx × Result) :=
  if f.chunkSize ≠ f.totalSize then some (s.fail f.key .invalidSize)
  else do
    let m ← poolGet cfg env f.totalSize.toNat
    let src ← slice f.buffer 0 f.chunkSize.toNat
    let data ← copyTo m.data 0 m.data.length src
    (Message.finish { m with header := f.header, data := data } (f.recvAt env)).map (s, ·)

def Assembly.put (a : Assembly) (f : Frame) : Option Assembly := do
  let src ← slice f.buffer 0 f.chunkSize.toNat
  let data ← copyTo a.msg.data f.chunkOffset.toNat (f.chunkOffset.toNat + f.chunkSize.toNat) src
  return { a with msg := { a.msg with data := data }, next := a.next + f.chunkSize }

def Assembly.message (a : Assembly) : Message :=
  { a.msg with
    header := { a.header with flags := a.header.flags ||| (advFlagBegin ||| advFlagEnd) } }

def Rx.append (s : Rx) (f : Frame) (a : Assembly) : Option (Rx × Result) :=
  let a := { a with seen := s.chunks }
  let s := s.store f.key a
  if f.chunkOffset ≠ a.next ∨ a.size ≠ f.totalSize then some (s.fail f.key .invalidSize)
  else do
    let a ← a.put f
    let s := s.store f.key a
    if ¬ Has f.flags advFlagEnd then return (s, .ok .chunkPartial)
    else if a.next ≠ f.totalSize then return s.fail f.key .invalidSize
    else (a.message.finish a.recvAt).map (s.dropAssembly f.key, ·)

def Frame.assemblyHeader (f : Frame) : Header :=
  { f.header with flags := f.flags &&& ~~~ (advFlagBegin ||| advFlagEnd) }

def Rx.start (cfg : Config) (env : Env) (s : Rx) (f : Frame) : Option (Rx × Result) :=
  let charge := f.totalSize + advancedAssemblyOverhead
  let s := s.reclaimIdle cfg env charge
  if cfg.maxReassemblyBytes < charge ∨ ¬ s.Fits cfg charge then
    some (s.rejectMessage f.key, .ok (.chunkRefused f.assemblyHeader.abort))
  else do
    let m ← poolGet cfg env f.totalSize.toNat
    let a : Assembly := ⟨f.assemblyHeader, m, f.totalSize, 0, 0, f.recvAt env⟩
    let s := { s.store f.key a with assemblyBytes := s.assemblyBytes + charge }
    s.append f a

def Rx.orphan (s : Rx) (f : Frame) : Rx × Result :=
  if s.isRejected f.key ∨ s.rejectedEvicted then
    (if Has f.flags advFlagEnd then s.forgetRejected f.key else s, .ok .chunkPartial)
  else (s, .error .protocol)

def consumeAdvancedChunk (cfg : Config) (env : Env) (s : Rx) (f : Frame) :
    Option (Rx × Result) :=
  let s := { s with chunks := s.chunks + 1 }
  if BadFlags (knownFlags cfg) f.flags then some (s, .error .protocol)
  else if Has f.flags advFlagAbort then some (s.abort f)
  else match checkSizes cfg f with
    | some e => some (s.fail f.key e)
    | none =>
      if Has f.flags advFlagBegin then
        if f.chunkOffset ≠ 0 ∨ (s.assemblies.lookup f.key).isSome ∨ s.isRejected f.key then
          some (s.fail f.key .invalidSize)
        else if Has f.flags advFlagEnd then s.single cfg env f
        else s.start cfg env f
      else match s.assemblies.lookup f.key with
        | some a => s.append f a
        | none => some (s.orphan f)

inductive RxAct where
  | frame (env : Env) (f : Frame)
  /-- `receiveNextLocked` takes the last reclaimed header off the list. -/
  | report

def rxStep (cfg : Config) (s : Rx) : RxAct → Option Rx
  | .frame env f => (consumeAdvancedChunk cfg env s f).map (·.1)
  | .report => some { s with reclaimed := s.reclaimed.dropLast }

def rxMachine (cfg : Config) : Machine Rx RxAct := ⟨Rx.fresh, rxStep cfg⟩

end Hqq.Advanced
