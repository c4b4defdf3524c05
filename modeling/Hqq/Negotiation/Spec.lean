import Hqq.Bytes
import Hqq.Machine
import Mathlib.Logic.Function.Basic

/-!
# Negotiation of the Advanced protocol

`advanced.go` at both ends of a link. A ring is the list of all frames its sender ever put on it,
together with how many of them the receiver has taken.
-/

namespace Hqq

inductive LinkMode where
  | primary
  | secondary
  deriving DecidableEq

def LinkMode.peer : LinkMode → LinkMode
  | .primary => .secondary
  | .secondary => .primary

@[simp] theorem LinkMode.peer_peer (m : LinkMode) : m.peer.peer = m := by cases m <;> rfl

theorem LinkMode.peer_ne (m : LinkMode) : m.peer ≠ m := by cases m <;> nofun

theorem LinkMode.eq_or_eq_peer (n m : LinkMode) : n = m ∨ n = m.peer := by
  cases n <;> cases m <;> simp [peer]

namespace Negotiation

structure ProtocolVersion where
  major : Byte
  minor : Byte
  deriving DecidableEq

def ProtocolVersion.encode (v : ProtocolVersion) : Word :=
  v.major.setWidth 64 <<< 8 ||| v.minor.setWidth 64

def decodeVersion (w : Word) : ProtocolVersion := ⟨(w >>> 8).setWidth 8, w.setWidth 8⟩

def hqqProtocolMajorVersion : Byte := 1
def hqqProtocolMinorVersion : Byte := 1

def currentProtocolVersion : ProtocolVersion := ⟨hqqProtocolMajorVersion, hqqProtocolMinorVersion⟩

def featureNone : Word := 0
def featureMessages : Word := 1 <<< 0
def featureRequestResponse : Word := 1 <<< 1
def featureCancel : Word := 1 <<< 2
def featureMetadata : Word := 1 <<< 3

def supportedFeatures : Word :=
  featureMessages ||| featureRequestResponse ||| featureCancel ||| featureMetadata

def featuresSince11 : Word := featureCancel ||| featureMetadata

inductive Packet where
  | tombstone
  | protoNegotiate (version features : Word)
  | protoAck (version features : Word)
  | error
  | other
  deriving DecidableEq

/-- `late` is a frame that was sent by an end that had become negotiated. -/
structure Frame where
  packet : Packet
  late : Bool
  deriving DecidableEq

inductive ProtocolState where
  | none
  | negotiating
  | negotiated
  | failed
  deriving DecidableEq

inductive Task where
  | sendRequest (version : ProtocolVersion) (features : Word)
  | awaitAck (features : Word)
  | awaitRequest (allowed : Word)
  | sendReject
  | sendAck (version : ProtocolVersion) (features : Word)
  | storeResult (version : ProtocolVersion) (features : Word)
  | storeNegotiated
  | storeState
  deriving DecidableEq

/-- What the call in progress was made with. A call that waits brings the version of the package. -/
structure Ask where
  initiates : Bool
  version : ProtocolVersion
  features : Word
  deriving DecidableEq

structure End where
  state : ProtocolState
  task : Option Task
  ask : Option Ask
  negotiatedVersion : ProtocolVersion
  negotiatedFeatures : Word
  negotiated : Bool
  sent : List Frame
  taken : Nat
  tookLate : Bool
  deriving DecidableEq

def End.fresh : End := ⟨.none, none, none, ⟨0, 0⟩, 0, false, [], 0, false⟩

def End.setProtocolFailed (e : End) : End := { e with state := .failed, task := none }

def End.put (e : End) (p : Packet) : End := { e with sent := e.sent ++ [⟨p, e.negotiated⟩] }

inductive Call where
  | negotiate (features : Word)
  | negotiateProtocol (version : ProtocolVersion) (features : Word)
  | waitForNegotiation
  deriving DecidableEq

def Call.ask (mode : LinkMode) : Call → Ask
  | .negotiate features =>
    let features := if features = featureNone then supportedFeatures else features
    ⟨mode = .primary, currentProtocolVersion, features⟩
  | .negotiateProtocol version features => ⟨true, version, features⟩
  | .waitForNegotiation => ⟨false, currentProtocolVersion, supportedFeatures⟩

def Ask.task (a : Ask) : Task :=
  if a.initiates then .sendRequest a.version a.features else .awaitRequest a.features

def End.begin (mode : LinkMode) (e : End) (c : Call) : End :=
  if e.state = .none then
    { e with state := .negotiating, task := some (c.ask mode).task, ask := some (c.ask mode) }
  else e

def Task.packet : Task → Option (Packet × Option Task)
  | .sendRequest version features =>
    some (.protoNegotiate version.encode features, some (.awaitAck features))
  | .sendReject => some (.error, none)
  | .sendAck version features =>
    some (.protoAck version.encode features, some (.storeResult version features))
  | _ => none

def End.send (e : End) (sends : Bool) : Option End :=
  match e.task.bind Task.packet with
  | none => none
  | some (p, next) =>
    match sends, next with
    | true, some task => some { e.put p with task := some task }
    | true, none => some (e.put p).setProtocolFailed
    | false, _ => some e.setProtocolFailed

def End.answerNegotiation (e : End) (version features allowed : Word) : End :=
  let requested := decodeVersion version
  if requested.major ≠ hqqProtocolMajorVersion then { e with task := some .sendReject }
  else
    let minor := if requested.minor ≤ hqqProtocolMinorVersion then requested.minor
      else hqqProtocolMinorVersion
    let answer : ProtocolVersion := ⟨requested.major, minor⟩
    let features := features &&& supportedFeatures &&& allowed
    let features := if answer.minor < 1 then features &&& ~~~ featuresSince11 else features
    { e with task := some (.sendAck answer features) }

def End.onReply (mode : LinkMode) (e : End) (features : Word) : Packet → End
  | .tombstone => e
  | .protoAck version ackFeatures =>
    let ackVersion := decodeVersion version
    if ackVersion.major ≠ hqqProtocolMajorVersion ∨ hqqProtocolMinorVersion < ackVersion.minor ∨
        ackFeatures &&& ~~~ (features &&& supportedFeatures) ≠ 0 then
      e.setProtocolFailed
    else { e with task := some (.storeResult ackVersion ackFeatures) }
  | .protoNegotiate version requested =>
    if mode = .secondary then e.answerNegotiation version requested features else e
  | .error => e.setProtocolFailed
  | .other => e.setProtocolFailed

def End.onRequest (e : End) (allowed : Word) : Packet → End
  | .tombstone => e
  | .protoNegotiate version requested => e.answerNegotiation version requested allowed
  | .protoAck _ _ => e.setProtocolFailed
  | .error => e.setProtocolFailed
  | .other => e.setProtocolFailed

def End.recv (mode : LinkMode) (e : End) (f : Frame) : Option End :=
  let took := { e with taken := e.taken + 1, tookLate := e.tookLate || f.late }
  match e.task with
  | some (.awaitAck features) => some (took.onReply mode features f.packet)
  | some (.awaitRequest allowed) => some (took.onRequest allowed f.packet)
  | _ => none

def End.giveUp (e : End) : Option End :=
  match e.task with
  | some (.awaitAck _) => some e.setProtocolFailed
  | some (.awaitRequest _) => some e.setProtocolFailed
  | _ => none

def End.settle (e : End) : Option End :=
  match e.task with
  | some (.storeResult version features) =>
    some { e with
      negotiatedVersion := version, negotiatedFeatures := features, task := some .storeNegotiated }
  | some .storeNegotiated => some { e with negotiated := true, task := some .storeState }
  | some .storeState => some { e with state := .negotiated, task := none }
  | _ => none

/-- Any other goroutine of the endpoint sends a packet. A slot that is given up becomes a
tombstone at any time. -/
def End.sendOther (e : End) (p : Packet) : Option End :=
  match p with
  | .tombstone => some (e.put p)
  | .error | .other => if e.negotiated then some (e.put p) else none
  | .protoNegotiate _ _ | .protoAck _ _ => none

inductive Act where
  | call (c : Call)
  | send (sends : Bool)
  | recv
  | giveUp
  | settle
  | sendOther (p : Packet)
  deriving DecidableEq

abbrev Link := LinkMode → End

def Link.nextFrame (l : Link) (m : LinkMode) : Option Frame := (l m.peer).sent[(l m).taken]?

def End.step (mode : LinkMode) (e : End) (next : Option Frame) : Act → Option End
  | .call c => some (e.begin mode c)
  | .send sends => e.send sends
  | .recv => next.bind (e.recv mode)
  | .giveUp => e.giveUp
  | .settle => e.settle
  | .sendOther p => e.sendOther p

def linkMachine : Machine Link (LinkMode × Act) where
  init := fun _ => .fresh
  step l a := ((l a.1).step a.1 (l.nextFrame a.1) a.2).map (Function.update l a.1)

end Negotiation

end Hqq
