import Hqq.Streams.Spec

/-!
# One stream, seen from both ends

What the two ends of a link know of one stream ID, and the frames about it that are on the way.
The opener is the end that allocated the ID.
-/

namespace Hqq.Streams

def Closing.gone : Closing → Bool
  | .forgotten _ | .done => true
  | .live | .marked _ => false

def Closing.silent : Closing → Bool
  | .marked pc | .forgotten pc => pc
  | .live | .done => false

namespace OneStream

inductive Kind where
  | create
  | accept
  | close
  | error
  deriving DecidableEq

inductive Call where
  | absent
  | allocated
  | registered
  | waiting
  | cleaning (why : Why)
  | failed (why : Why)
  | opened
  deriving DecidableEq

def Call.unsent : Call → Nat
  | .absent | .allocated | .registered => 1
  | _ => 0

structure Opener where
  call : Call
  chan : Option Reply
  pending : Bool
  replying : Option Reply
  dead : Bool
  registered : Bool
  peerClosing : Bool
  peerClosed : Bool
  closing : Closing

structure Acceptor where
  held : Nat
  slotted : Nat
  reserving : Nat
  accepting : Nat
  dropping : Nat
  losing : Nat
  refusing : Nat
  granting : Nat
  granted : Nat
  made : Nat
  registered : Bool
  peerClosing : Bool
  peerClosed : Bool
  closing : Closing

structure Up where
  creates : Nat
  closes : Nat

def Up.plus (u : Up) : Option Kind → Up
  | some .create => { u with creates := u.creates + 1 }
  | some .close => { u with closes := u.closes + 1 }
  | _ => u

structure Down where
  accepts : Nat
  errors : Nat
  closes : Nat

def Down.plus (d : Down) : Option Kind → Down
  | some .accept => { d with accepts := d.accepts + 1 }
  | some .error => { d with errors := d.errors + 1 }
  | some .close => { d with closes := d.closes + 1 }
  | _ => d

structure State where
  o : Opener
  p : Acceptor
  up : Up
  down : Down

inductive Label where
  | giveUp
  | lateError
  | other
  deriving DecidableEq

inductive OStep (o : Opener) : Label → Option Kind → Option Kind → Opener → Prop
  | allocate (h : o.call = .absent) : OStep o .other none none { o with call := .allocated }
  | register (h : o.call = .allocated) : OStep o .other none none
      { o with call := .registered, pending := true, registered := true, peerClosed := false,
               closing := .live }
  | sendCreate (h : o.call = .registered) :
      OStep o .other none (some .create) { o with call := .waiting }
  | sendFail (h : o.call = .registered) :
      OStep o .other none none { o with call := .cleaning .unsent }
  | receiveAccepted (h : o.call = .waiting) (hc : o.chan = some .accepted) :
      OStep o .other none none { o with call := .opened, chan := none }
  | receiveRefused (h : o.call = .waiting) (hc : o.chan = some .refused) :
      OStep o .other none none { o with call := .cleaning .refused, chan := none }
  | giveUp (h : o.call = .waiting) : OStep o .giveUp none none { o with call := .cleaning .gaveUp }
  | cleanup {why : Why} (h : o.call = .cleaning why) : OStep o .other none none
      { o with call := .failed why, pending := false, registered := false }
  | accept (h : o.pending = true) : OStep o .other (some .accept) none
      { o with pending := false, replying := some .accepted }
  | acceptUnknown (h : o.pending = false) : OStep o .other (some .accept) none o
  | error (h : o.pending = true) : OStep o .other (some .error) none
      { o with pending := false, registered := false, replying := some .refused }
  | errorUnknown {dead : Bool} (h : o.pending = false) (hd : o.dead = false) :
      OStep o .lateError (some .error) none { o with dead := dead }
  | reply {r : Reply} (h : o.replying = some r) (hc : o.chan = none) :
      OStep o .other none none { o with replying := none, chan := some r }
  | close (h : o.registered = true) (hp : o.pending = false) : OStep o .other (some .close) none
      { o with registered := false, peerClosing := true }
  | closeUnknown (h : o.registered = false ∨ o.pending = true) : OStep o .other (some .close) none o
  | markPeer (h : o.peerClosing = true) : OStep o .other none none
      { o with peerClosing := false, peerClosed := true }
  | mark {pc : Bool} (h : o.closing = .live) (ho : o.call = .opened)
      (hpc : pc = true → o.peerClosed = true) : OStep o .other none none { o with closing := .marked pc }
  | forget {pc : Bool} (h : o.closing = .marked pc) : OStep o .other none none
      { o with closing := .forgotten pc, registered := false }
  | closeSilent (h : o.closing = .forgotten true) :
      OStep o .other none none { o with closing := .done }
  | closeSend (h : o.closing = .forgotten false) :
      OStep o .other none (some .close) { o with closing := .done }
  | die : OStep o .other none none { o with dead := true }
  | failPending (h : o.pending = true) (hd : o.dead = true) : OStep o .other none none
      { o with pending := false, registered := false, chan := o.chan.or (some .refused) }

inductive PStep (p : Acceptor) : Option Kind → Option Kind → Acceptor → Prop
  | hold : PStep p (some .create) none { p with held := p.held + 1 }
  | refuse : PStep p (some .create) none { p with refusing := p.refusing + 1 }
  | create (h : p.registered = false) : PStep p (some .create) none
      { p with reserving := p.reserving + 1, made := p.made + 1, registered := true,
               peerClosed := false, closing := .live }
  | reserve (h : p.reserving = 1) : PStep p none none { p with reserving := 0, accepting := 1 }
  | reserveDrop (h : p.reserving = 1) : PStep p none none { p with reserving := 0, dropping := 1 }
  | reserveLose (h : p.reserving = 1) : PStep p none none { p with reserving := 0, losing := 1 }
  | forgetDrop (h : p.dropping = 1) : PStep p none none
      { p with dropping := 0, refusing := p.refusing + 1, registered := false }
  | forgetLose (h : p.losing = 1) : PStep p none none { p with losing := 0, registered := false }
  | answer (h : p.accepting = 1) : PStep p none none
      { p with accepting := 0, granting := p.granting + 1 }
  | answerFull (h : p.accepting = 1) : PStep p none none { p with accepting := 0, losing := 1 }
  | dropRefusal : PStep p none none { p with refusing := p.refusing - 1 }
  | admitRefuse (h : 0 < p.held) : PStep p none none
      { p with held := p.held - 1, refusing := p.refusing + 1 }
  | admitLose (h : 0 < p.held) : PStep p none none { p with held := p.held - 1 }
  | admitSlot (h : 0 < p.held) (hr : p.registered = false) : PStep p none none
      { p with held := p.held - 1, slotted := p.slotted + 1 }
  | admitAccept (h : 0 < p.slotted) : PStep p none none
      { p with slotted := p.slotted - 1, granting := p.granting + 1, made := p.made + 1,
               registered := true, peerClosed := false, closing := .live }
  | admitFull (h : 0 < p.slotted) : PStep p none none { p with slotted := p.slotted - 1 }
  | sendAccept (h : 0 < p.granting) : PStep p none (some .accept)
      { p with granting := p.granting - 1, granted := p.granted + 1 }
  | sendError (h : 0 < p.refusing) : PStep p none (some .error)
      { p with refusing := p.refusing - 1 }
  | close (h : p.registered = true) : PStep p (some .close) none
      { p with registered := false, peerClosing := true }
  | closeUnknown (h : p.registered = false) : PStep p (some .close) none p
  | markPeer (h : p.peerClosing = true) : PStep p none none
      { p with peerClosing := false, peerClosed := true }
  | mark {pc : Bool} (h : p.closing = .live) (hg : 0 < p.granted)
      (hpc : pc = true → p.peerClosed = true) : PStep p none none { p with closing := .marked pc }
  | forget {pc : Bool} (h : p.closing = .marked pc) : PStep p none none
      { p with closing := .forgotten pc, registered := false }
  | closeSilent (h : p.closing = .forgotten true) : PStep p none none { p with closing := .done }
  | closeSend (h : p.closing = .forgotten false) :
      PStep p none (some .close) { p with closing := .done }

abbrev State.opener (s : State) (o : Opener) (x : Option Kind) (rest : Down) : State :=
  { s with o := o, up := s.up.plus x, down := rest }

abbrev State.peer (s : State) (p : Acceptor) (x : Option Kind) (rest : Up) : State :=
  { s with p := p, up := rest, down := s.down.plus x }

/-- A step of either end: it takes a frame from one ring and puts a frame on the other. A ring is
in order, so a close is not taken before an accept. -/
inductive Step : State → Label → State → Prop
  | opener {s : State} {l : Label} {i x : Option Kind} {o : Opener} {rest : Down}
      (hdown : s.down = rest.plus i) (hfirst : i = some .close → rest.accepts = 0)
      (h : OStep s.o l i x o) : Step s l (s.opener o x rest)
  | peer {s : State} {i x : Option Kind} {p : Acceptor} {rest : Up}
      (hup : s.up = rest.plus i) (h : PStep s.p i x p) : Step s .other (s.peer p x rest)

def State.init : State where
  o := ⟨.absent, none, false, none, false, false, false, false, .live⟩
  p := ⟨0, 0, 0, 0, 0, 0, 0, 0, 0, 0, false, false, false, .live⟩
  up := ⟨0, 0⟩
  down := ⟨0, 0, 0⟩

end OneStream

end Hqq.Streams
