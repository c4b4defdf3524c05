import Hqq.Streams.Known
import Hqq.Streams.OneStream

/-!
# An endpoint as one stream sees it

Every step of an endpoint is, for each stream, a step of the protocol of that stream or
no step at all.
-/

namespace Hqq.Streams

open OneStream

def Frame.kind (id : ConnID) : Frame → Option Kind
  | .connCreate i => if i = id then some .create else none
  | .connAccept i => if i = id then some .accept else none
  | .connClose i => if i = id then some .close else none
  | .error i _ => if i = id then some .error else none
  | .other => none

@[simp] def Phase.call : Phase → OneStream.Call
  | .absent => .absent
  | .allocated => .allocated
  | .registered _ => .registered
  | .waiting _ => .waiting
  | .cleaning why => .cleaning why
  | .failed why => .failed why
  | .opened _ => .opened

@[simp] def Rx.dead (receiver : Option Who) : Rx → Bool
  | .failed _ => receiver == some .dispatcher
  | _ => false

@[simp] def Rx.reply? (n : Nat) : Rx → Option Reply
  | .replying k r => if k = n then some r else none
  | _ => none

@[simp] def Rx.closes (id : ConnID) : Rx → Bool
  | .peerClosing st => st.id = id
  | _ => false

/-- The end that opens the `n`th stream. -/
def oview (mode : LinkMode) (n : Nat) (e : Endpoint) : Opener where
  call := (e.calls n).phase.call
  chan := (e.calls n).accepted
  pending := e.pendingConnections (connID mode n) == some n
  replying := e.rx.reply? n
  dead := e.rx.dead e.receiver
  registered := (e.streams (connID mode n)).isSome
  peerClosing := e.rx.closes (connID mode n)
  peerClosed := (e.stream ⟨connID mode n, 0⟩).peerClosed
  closing := (e.stream ⟨connID mode n, 0⟩).closing

@[simp] def Lock.rest : Lock → List ConnID
  | .free => []
  | .admitting rest | .slotted _ rest | .unslotting rest | .releasing rest => rest

@[simp] def Lock.slot? : Lock → Option ConnID
  | .slotted id _ => some id
  | _ => none

@[simp] def Rx.reserving? : Rx → Option ConnID
  | .reserving st => some st.id
  | _ => none

@[simp] def Rx.accepting? : Rx → Option ConnID
  | .accepting st => some st.id
  | _ => none

@[simp] def Rx.dropping? : Rx → Option ConnID
  | .forgetting st (.refuse _) => some st.id
  | _ => none

@[simp] def Rx.losing? : Rx → Option ConnID
  | .forgetting st (.fail _) | .forgetting st .unslot => some st.id
  | _ => none

@[simp] def Rx.refusing? : Rx → Option ConnID
  | .refusing id _ => some id
  | _ => none

def Job.refuses (id : ConnID) : Job → Bool
  | .error i _ => i = id
  | _ => false

def Job.grants (id : ConnID) : Job → Bool
  | .accept st => st.id = id
  | _ => false

@[simp] def Sender.jobs : Sender → List Job
  | .sending job => [job]
  | _ => []

def hits (x : Option ConnID) (id : ConnID) : Nat := (x == some id).toNat

/-- The other end: in how many places a create of `id` is. -/
def pview (id : ConnID) (e : Endpoint) : Acceptor where
  held := e.held.count id + e.lock.rest.count id
  slotted := hits e.lock.slot? id
  reserving := hits e.rx.reserving? id
  accepting := hits e.rx.accepting? id
  dropping := hits e.rx.dropping? id
  losing := hits e.rx.losing? id
  refusing := hits e.rx.refusing? id + e.ctrlQueue.countP (Job.refuses id) +
    e.sender.jobs.countP (Job.refuses id)
  granting := e.ctrlQueue.countP (Job.grants id) + e.sender.jobs.countP (Job.grants id)
  granted := ((e.sender.delivering?.toList ++ (e.acceptCh ++ (e.returning ++ e.accepted))).map Ref.id).count id
  made := e.made id
  registered := (e.streams id).isSome
  peerClosing := e.rx.closes id
  peerClosed := (e.stream ⟨id, 0⟩).peerClosed
  closing := (e.stream ⟨id, 0⟩).closing

@[simp] def Rx.hand : Rx → Option Frame
  | .handling f => some f
  | _ => none

/-- The frame that the step handles. -/
@[simp] def taken (e : Endpoint) : Act → Option Frame
  | .handle => e.rx.hand
  | _ => none

/-- The frame that the step sends. -/
@[simp] def put (mode : LinkMode) (e : Endpoint) : Act → Option Frame
  | .sendCreate n => some (.connCreate (connID mode n))
  | .send => e.sender.jobs.head?.map Job.frame
  | .close st =>
    match (e.stream st).closing with
    | .forgotten false => some (.connClose st.id)
    | _ => none
  | _ => none

variable {mode : LinkMode} {cfg : Config} {inc : Option Frame} {e e' : Endpoint} {a : Act}

theorem Branch.sent (h : Branch mode cfg inc e a e') :
    e'.sent = e.sent ++ (put mode e a).toList := by
  cases h
  case sendCreate => simp
  case send hsender => simp [hsender]
  case closeForget hc _ | closeSilent hc | closeSend hc =>
    simp [hc]
  all_goals exact (List.append_nil _).symm

theorem Branch.hand (h : Branch mode cfg inc e a e') :
    (e'.read = e.read + 1 ∧ e.rx.hand = none ∧ e'.rx.hand = inc ∧ taken e a = none ∧ inc.isSome) ∨
      (e'.read = e.read ∧ e.rx.hand.toList = (taken e a).toList ++ e'.rx.hand.toList) := by
  cases h
  case dequeue hinc hrx _ => exact .inl ⟨rfl, by simp [hrx], by simp [hinc], rfl, by simp [hinc]⟩
  case forget next hrx _ =>
    refine .inr ⟨rfl, ?_⟩
    cases next <;> simp [hrx, Next.rx]
  all_goals exact .inr ⟨rfl, by first | rfl | simp [*]⟩

@[simp] def seen (id : ConnID) (f : Option Frame) : Option Kind := f.bind (Frame.kind id)

def OMove (o : Opener) (l : Label) (i x : Option Kind) (o' : Opener) : Prop :=
  (o' = o ∧ l = .other ∧ i = none ∧ x = none) ∨ OStep o l i x o'

/-- For its `n`th stream the step is one of the opener, and a timeout is one of that call. -/
def Opens (mode : LinkMode) (n : Nat) (e : Endpoint) (a : Act) (e' : Endpoint) : Prop :=
  ∃ l, OMove (oview mode n e) l (seen (connID mode n) (taken e a)) (seen (connID mode n) (put mode e a))
    (oview mode n e') ∧ (l = .giveUp → a = .giveUp n)

theorem Opens.quiet {n : Nat} (c : e'.calls n = e.calls n := by first | rfl | simp [*])
    (p : e'.pendingConnections (connID mode n) = e.pendingConnections (connID mode n) :=
      by first | rfl | simp [*])
    (r : e'.streams (connID mode n) = e.streams (connID mode n) := by first | rfl | simp [*])
    (s : e'.stream ⟨connID mode n, 0⟩ = e.stream ⟨connID mode n, 0⟩ := by first | rfl | simp [*])
    (x : (e'.rx.reply? n = e.rx.reply? n ∧ e'.rx.closes (connID mode n) = e.rx.closes (connID mode n)) ∧
      (e'.rx.dead e'.receiver = e.rx.dead e.receiver ∨ e'.rx.dead e'.receiver = true) :=
        by first | exact ⟨⟨rfl, rfl⟩, .inl rfl⟩ | simp [*])
    (i : seen (connID mode n) (taken e a) = none := by first | rfl | simp [*, Frame.kind])
    (o : seen (connID mode n) (put mode e a) = none := by first | rfl | simp [*, Frame.kind]) :
    Opens mode n e a e' := by
  obtain ⟨⟨hreply, hcloses⟩, hdead⟩ := x
  refine ⟨.other, ?_, nofun⟩
  rw [i, o]
  rcases hdead with hdead | hdead
  · left
    simp only [oview, c, p, r, s, hreply, hcloses, hdead, and_self]
  · right
    have h : OStep (oview mode n e) .other none none _ := .die
    simpa only [oview, c, p, r, s, hreply, hcloses, hdead] using h

theorem Opens.step {n : Nat} {l : Label} {i x : Option Kind} {o : Opener}
    (hstep : OStep (oview mode n e) l i x o) (v : oview mode n e' = o := by simp [*, oview])
    (j : seen (connID mode n) (taken e a) = i := by first | rfl | simp [*, Frame.kind])
    (y : seen (connID mode n) (put mode e a) = x := by first | rfl | simp [*, Frame.kind])
    (g : l = .giveUp → a = .giveUp n := by simp) : Opens mode n e a e' := by
  subst j y v
  exact ⟨l, .inr hstep, g⟩

section Opener

variable {n : Nat} (hk : Known mode e) (hrep : e.RepliesOk mode) (hpos : 0 < n) (hle : n ≤ maxStreams)
include hk hrep hpos hle

theorem Known.connID_ne {k : Nat} (hp : (e.calls k).phase ≠ .absent) (hne : n ≠ k) :
    connID mode n ≠ connID mode k := by
  intro heq
  obtain ⟨hpos', hle'⟩ := hk.started hrep hp
  exact hne (connID_inj hle hpos hle' hpos' heq).2

theorem Known.pending_own {id : ConnID} {k : Nat} (hpend : e.pendingConnections id = some k) :
    id = connID mode n ∧ k = n ∨ id ≠ connID mode n ∧ k ≠ n := by
  have hid := hrep.own id k hpend
  rcases eq_or_ne n k with rfl | hn
  · exact .inl ⟨hid, rfl⟩
  · have hstarted : (e.calls k).phase ≠ .absent := fun habs =>
      (hrep.early k (.inl habs)).2.1 _ hpend
    exact .inr ⟨fun heq => hk.connID_ne hrep hpos hle hstarted hn (heq.symm.trans hid), hn.symm⟩

omit hrep in
theorem Known.own_ref {st : Ref} (hst : st.gen < e.made st.id) (hid : st.id = connID mode n) :
    st = ⟨connID mode n, 0⟩ := by
  obtain ⟨id, g⟩ := st
  dsimp only at hst hid
  subst hid
  rw [hk.made n hpos hle] at hst
  split at hst
  · omega
  · rw [Nat.lt_one_iff.mp hst]

theorem Known.own_opened {st : Ref} (hst : st ∈ e.opened ∨ st ∈ e.accepted)
    (hid : st.id = connID mode n) : st = ⟨connID mode n, 0⟩ ∧ (e.calls n).phase = .opened st := by
  have href := hk.own_ref hpos hle (hk.gen_lt hrep hst) hid
  refine ⟨href, ?_⟩
  rcases hst with hst | hst
  · obtain ⟨k, hp⟩ := hk.opened st hst
    by_cases hkn : k = n
    · rw [← hkn, hp]
    · obtain rfl := hk.phases k st (by rw [hp]; rfl)
      exact absurd hid.symm (hk.connID_ne hrep hpos hle (by simp [hp]) (Ne.symm hkn))
  · have hpeer := (hk.refs st (.accepted hst)).1
    exact absurd hid (hpeer.ne_own hpos hle)

theorem Known.closing_own (st : Ref) (hc : (e.stream st).closing ≠ .live) :
    st = ⟨connID mode n, 0⟩ ∨ st.id ≠ connID mode n :=
  (em (st.id = connID mode n)).imp_left fun hid =>
    (hk.own_opened hrep hpos hle (hk.closing st hc) hid).1

variable (h : Branch mode cfg inc e a e')
variable (hhand : ∀ id, e.rx = .handling (.connCreate id) → PeerID mode id)
include h hhand

theorem Branch.opens : Opens mode n e a e' := by
  have hupdate : ∀ {β : Type} (f : ConnID → β) {id : ConnID} (b : β), id ≠ connID mode n →
      Function.update f id b (connID mode n) = f (connID mode n) :=
    fun f _ b hid => Function.update_of_ne (Ne.symm hid) b f
  have hother : ∀ {k : Nat} (c : Streams.Call), n ≠ k → Function.update e.calls k c n = e.calls n :=
    fun c hne => Function.update_of_ne hne c e.calls
  have hstream : ∀ {st : Ref} (x : Stream), st.id ≠ connID mode n →
      Function.update e.stream st x ⟨connID mode n, 0⟩ = e.stream ⟨connID mode n, 0⟩ :=
    fun x hid => Function.update_of_ne (fun heq => hid (congrArg Ref.id heq).symm) x e.stream
  cases h
  case allocate =>
    by_cases hn : n = e.connectionIDGenerator + 1
    · have habs := hrep.later n (by omega)
      refine .step (.allocate (by simp [oview, habs])) ?_
      simp [← hn, oview]
    · exact .quiet
  case register k hp hlock =>
    rcases eq_or_ne n k with rfl | hn
    · have hmade := hk.made n hpos hle
      simp only [hp, Phase.early, if_true] at hmade
      refine .step (.register (by simp [oview, hp])) ?_
      simp [oview, Endpoint.newRef, hmade, Stream.new]
    · have hid := (hk.connID_ne hrep hpos hle (by simp [hp]) hn).symm
      refine .quiet (s := ?_)
      refine Function.update_of_ne ?_ _ _
      simp [Endpoint.newRef, hid.symm]
  case sendCreate k st hp =>
    rcases eq_or_ne n k with rfl | hn
    · exact .step (.sendCreate (by simp [oview, hp]))
    · have hid := (hk.connID_ne hrep hpos hle (by simp [hp]) hn).symm
      exact .quiet
  case sendFail k st hp =>
    rcases eq_or_ne n k with rfl | hn
    · exact .step (.sendFail (by simp [oview, hp]))
    · exact .quiet
  case receiveAccepted k st hp hr =>
    rcases eq_or_ne n k with rfl | hn
    · exact .step (.receiveAccepted (by simp [oview, hp]) (by simp [oview, hr]))
    · exact .quiet
  case receiveRefused k st hp hr =>
    rcases eq_or_ne n k with rfl | hn
    · exact .step (.receiveRefused (by simp [oview, hp]) (by simp [oview, hr]))
    · exact .quiet
  case giveUp k st hp =>
    rcases eq_or_ne n k with rfl | hn
    · exact .step (.giveUp (by simp [oview, hp])) (g := fun _ => rfl)
    · exact .quiet
  case cleanup k why hp hlock =>
    rcases eq_or_ne n k with rfl | hn
    · have hc : (oview mode n e).call = .cleaning why := by simp [oview, hp]
      refine .step (.cleanup hc) ?_
      simp [oview, Streams.cleanup]
    · have hid := (hk.connID_ne hrep hpos hle (by simp [hp]) hn).symm
      exact .quiet (c := hother _ hn) (p := hupdate _ _ hid) (r := hupdate _ _ hid)
  case connAccept id k hrx hlock hpend =>
    obtain ⟨rfl, rfl⟩ | ⟨hid, hn⟩ := hk.pending_own hrep hpos hle hpend
    · exact .step (.accept (by simp [oview, hpend]))
    · exact .quiet
  case error id code k hrx hlock hpend =>
    obtain ⟨rfl, rfl⟩ | ⟨hid, hn⟩ := hk.pending_own hrep hpos hle hpend
    · exact .step (.error (by simp [oview, hpend]))
    · exact .quiet
  case failPending id k why hrx hwho hpend hlock =>
    obtain ⟨rfl, rfl⟩ | ⟨hid, hn⟩ := hk.pending_own hrep hpos hle hpend
    · exact .step (.failPending (by simp [oview, hpend]) (by simp [oview, hrx, hwho]))
    · exact .quiet (c := hother _ hn.symm)
  case reply k r hrx hempty =>
    rcases eq_or_ne n k with rfl | hn
    · have hr : (oview mode n e).replying = some r := by simp [oview, hrx]
      exact .step (.reply hr (by simp [oview, hempty]))
    · exact .quiet (x := by simp [hrx, Ne.symm hn])
  case connAcceptUnknown id hrx hlock hpend =>
    rcases eq_or_ne id (connID mode n) with rfl | hid
    · exact .step (.acceptUnknown (by simp [oview, hpend]))
    · exact .quiet
  case errorUnknown id code hrx hlock hpend =>
    rcases eq_or_ne id (connID mode n) with rfl | hid
    · have hp : (oview mode n e).pending = false := by simp [oview, hpend]
      have hd : (oview mode n e).dead = false := by simp [oview, hrx]
      exact .step (@OStep.errorUnknown _ (Rx.dead e.receiver (.failed .opError)) hp hd)
    · refine .quiet (x := ⟨by simp [hrx], ?_⟩)
      by_cases hwho : e.receiver = some .dispatcher
      · exact .inr (by simp [hwho])
      · exact .inl (by simp [hrx, hwho])
  case connClose id g hrx hlock hreg hpend =>
    rcases eq_or_ne id (connID mode n) with rfl | hid
    · exact .step (.close (by simp [oview, hreg]) (by simp [oview, hpend]))
    · exact .quiet
  case connCloseUnknown id hrx hlock hunknown =>
    rcases eq_or_ne id (connID mode n) with rfl | hid
    · have hclosed : (oview mode n e).registered = false ∨ (oview mode n e).pending = true := by
        rcases hunknown with hno | hpend
        · exact .inl (by simp [oview, hno])
        · obtain ⟨k, hsome⟩ := Option.ne_none_iff_exists'.mp hpend
          have hkn := (hk.pending_own hrep hpos hle hsome).resolve_right fun hne => hne.1 rfl
          exact .inr (by simp [oview, hsome, hkn.2])
      exact .step (.closeUnknown hclosed)
    · exact .quiet
  case markPeer st hrx =>
    by_cases hid : st.id = connID mode n
    · obtain rfl := hk.own_ref hpos hle (hk.peerClosing st hrx) hid
      exact .step (.markPeer (by simp [oview, hrx]))
    · exact .quiet
  case mark i st pc hload hlive =>
    obtain ⟨hst, hread⟩ := hk.loads st pc (List.mem_of_getElem? hload)
    by_cases hid : st.id = connID mode n
    · obtain ⟨rfl, hp⟩ := hk.own_opened hrep hpos hle hst hid
      exact .step (.mark hlive (by simp [oview, hp]) hread)
    · exact .quiet
  case closeForget st pc hc hlock =>
    obtain rfl | hid := hk.closing_own hrep hpos hle st (by simp [hc])
    · exact .step (.forget hc)
    · exact .quiet
  case closeSilent st hc =>
    obtain rfl | hid := hk.closing_own hrep hpos hle st (by simp [hc])
    · exact .step (.closeSilent hc)
    · exact .quiet
  case closeSend st hc =>
    obtain rfl | hid := hk.closing_own hrep hpos hle st (by simp [hc])
    · exact .step (.closeSend hc)
    · exact .quiet
  -- the rest is about the streams of the peer
  case hold id hrx _ _ _ | refuse id code hrx _ =>
    have hid := (hhand id hrx).ne_own hpos hle
    exact .quiet
  case create id hrx _ _ _ =>
    have hid := (hhand id hrx).ne_own hpos hle
    exact .quiet (s := hstream _ hid)
  case admitAccept id rest hlock _ =>
    have hid := (hk.of_lock (by simp [hlock, Lock.creates] : id ∈ e.lock.creates)).ne_own hpos hle
    exact .quiet (s := hstream _ hid)
  case forget st next hrx hlock =>
    have hid := (hk.refs st (.rx (by simp [hrx, Rx.ref?]))).1.ne_own hpos hle
    refine .quiet (x := ?_)
    cases next <;> simp [hrx, Next.rx]
    tauto
  case send job hsender =>
    refine .quiet (o := ?_)
    cases job with
    | accept st =>
      have hid := (hk.refs st (.sender (by simp [hsender, Sender.ref?]))).1.ne_own hpos hle
      simp [hsender, Job.frame, Frame.kind, hid]
    | error id code =>
      have hid := (hk.asked id (.sender hsender)).ne_own hpos hle
      simp [hsender, Job.frame, Frame.kind, hid]
    | other => simp [hsender, Job.frame, Frame.kind]
  case enter who hfree =>
    refine .quiet (x := ⟨⟨rfl, rfl⟩, ?_⟩)
    by_cases hwho : who = .dispatcher <;> cases e.rx <;> simp [hfree, hwho]
  all_goals exact .quiet

end Opener

/-! ## The other end -/

/-- For the stream `id` the step is one of the acceptor, or none. -/
def Accepts (mode : LinkMode) (id : ConnID) (e : Endpoint) (a : Act) (e' : Endpoint) : Prop :=
  (pview id e' = pview id e ∧ seen id (taken e a) = none ∧ seen id (put mode e a) = none) ∨
    PStep (pview id e) (seen id (taken e a)) (seen id (put mode e a)) (pview id e')

theorem Accepts.quiet {id : ConnID}
    (p : pview id e' = pview id e := by
      first | rfl | simp [*, pview, Streams.cleanup, Endpoint.newRef, Next.rx, Job.grants, Job.refuses,
        Job.sender, Sender.delivering?])
    (i : seen id (taken e a) = none := by first | rfl | simp [*, Frame.kind])
    (o : seen id (put mode e a) = none := by first | rfl | simp [*, Job.frame, Frame.kind]) :
    Accepts mode id e a e' :=
  .inl ⟨p, i, o⟩

theorem Accepts.step {id : ConnID} {i x : Option Kind} {p : Acceptor} (hstep : PStep (pview id e) i x p)
    (v : pview id e' = p := by
      simp [*, pview, Endpoint.newRef, Stream.new, Next.rx, Job.grants, Job.refuses, Job.sender,
        Sender.delivering?])
    (j : seen id (taken e a) = i := by first | rfl | simp [*, Frame.kind])
    (y : seen id (put mode e a) = x := by first | rfl | simp [*, Job.frame, Frame.kind]) :
    Accepts mode id e a e' := by
  subst j y v
  exact .inr hstep

/-- Frames that an endpoint in `mode` sends: it creates its own IDs and answers those of its peer. -/
def Frame.From (mode : LinkMode) : Frame → Prop
  | .connCreate id => PeerID mode.peer id
  | .connAccept id | .error id _ => PeerID mode id
  | .connClose _ | .other => True

theorem enqueue_refuses (cfg : Config) (e : Endpoint) (id id' : ConnID) (code : ErrorCode) :
    (cfg.enqueue e.ctrlQueue (.error id' code)).countP (Job.refuses id) =
      e.ctrlQueue.countP (Job.refuses id) ∨
    (id' = id ∧ (cfg.enqueue e.ctrlQueue (.error id' code)).countP (Job.refuses id) =
      e.ctrlQueue.countP (Job.refuses id) + 1) := by
  unfold Config.enqueue
  split
  · by_cases hid : id' = id
    · exact .inr ⟨hid, by simp [Job.refuses, hid]⟩
    · exact .inl (by simp [Job.refuses, hid])
  · exact .inl rfl

@[simp] theorem hits_none (id : ConnID) : hits none id = 0 := rfl

@[simp] theorem hits_some (i id : ConnID) : hits (some i) id = if i = id then 1 else 0 := by
  by_cases hi : i = id <;> simp [hits, hi]

theorem Accepts.refusal {id i : ConnID} {code : ErrorCode} {held : List ConnID} {lock : Lock}
    (hheld : held.count id + lock.rest.count id + (if i = id then 1 else 0) =
      e.held.count id + e.lock.rest.count id) (hslot : lock.slot? = e.lock.slot?)
    (hi : seen id (taken e a) = none) (hx : seen id (put mode e a) = none) :
    Accepts mode id e a { e with
      ctrlQueue := cfg.enqueue e.ctrlQueue (.error i code), held := held, lock := lock } := by
  have hgrants : (cfg.enqueue e.ctrlQueue (.error i code)).countP (Job.grants id) = _ :=
    enqueue_countP _ _ rfl
  rcases enqueue_refuses cfg e id i code with hsame | ⟨rfl, hmore⟩
  · by_cases hid : i = id
    · rw [if_pos hid] at hheld
      refine .step (.admitLose (show 0 < e.held.count id + e.lock.rest.count id by omega)) ?_ hi hx
      simp only [pview, hgrants, hsame, hslot, ← hheld, Nat.add_sub_cancel]
    · rw [if_neg hid] at hheld
      refine .inl ⟨?_, hi, hx⟩
      simp only [pview, hgrants, hsame, hslot, ← hheld, Nat.add_zero]
  · rw [if_pos rfl] at hheld
    refine .step (.admitRefuse (show 0 < e.held.count i + e.lock.rest.count i by omega)) ?_ hi hx
    simp only [pview, hgrants, hmore, hslot, ← hheld, Nat.add_sub_cancel]
    congr 1
    omega

section Acceptor

variable {id : ConnID} (hk : Known mode e) (hrep : e.RepliesOk mode) (hid : PeerID mode id)
include hk hrep hid

theorem Known.peer_opened {st : Ref} (hst : st ∈ e.opened ∨ st ∈ e.accepted) (hst' : st.id = id)
    (hmade : e.made id ≤ 1) : st = ⟨id, 0⟩ ∧ st ∈ e.accepted := by
  have hgen := hk.gen_lt hrep hst
  obtain ⟨i, g⟩ := st
  dsimp only at hgen hst'
  subst hst'
  refine ⟨by rw [Nat.lt_one_iff.mp (lt_of_lt_of_le hgen hmade)], ?_⟩
  rcases hst with hst | hst
  · obtain ⟨k, hp⟩ := hk.opened _ hst
    obtain ⟨hpos, hle⟩ := hk.started hrep (k := k) (by simp [hp])
    have heq := hk.phases k _ (by rw [hp]; rfl)
    exact absurd (congrArg Ref.id heq) (hid.ne_own hpos hle)
  · exact hst

variable (hmade : e.made id ≤ 1)

include hmade in
theorem Known.closing_peer (st : Ref) (hc : (e.stream st).closing ≠ .live) : st = ⟨id, 0⟩ ∨ st.id ≠ id :=
  (em (st.id = id)).imp_left fun hi => (hk.peer_opened hrep hid (hk.closing st hc) hi hmade).1

variable (hnew : e.rx = .handling (.connCreate id) ∨ e.lock.slot? = some id → e.made id = 0)
variable (hfrom : ∀ f, e.rx = .handling f → f.From mode.peer)
variable (h : Branch mode cfg inc e a e')
include hmade hnew hfrom h

theorem Branch.accepts : Accepts mode id e a e' := by
  have hown : ∀ {k}, (e.calls k).phase ≠ .absent → connID mode k ≠ id := by
    intro k hp heq
    obtain ⟨hpos, hle⟩ := hk.started hrep hp
    exact hid.ne_own hpos hle heq.symm
  have hpending : ∀ {i k}, e.pendingConnections i = some k → i ≠ id := by
    intro i k hpend
    rw [hrep.own i k hpend]
    refine hown fun habs => ?_
    exact (hrep.early k (.inl habs)).2.1 _ hpend
  have hanswer : ∀ {i}, PeerID mode.peer i → i ≠ id := by
    rintro i hi rfl
    obtain ⟨k, hpos, hle, heq⟩ := hi
    rw [mode.peer_peer] at heq
    exact hid.ne_own hpos hle heq
  have hupdate : ∀ {β : Type} (f : ConnID → β) {i : ConnID} (b : β), i ≠ id →
      Function.update f i b id = f id := fun f _ b hi => Function.update_of_ne (Ne.symm hi) b f
  have hstream : ∀ {st : Ref} (x : Stream), st.id ≠ id →
      Function.update e.stream st x ⟨id, 0⟩ = e.stream ⟨id, 0⟩ :=
    fun x hi => Function.update_of_ne (fun heq => hi (congrArg Ref.id heq).symm) x e.stream
  cases h
  case register k hp _ | sendCreate k _ hp | cleanup k _ hp _ =>
    have hi := hown (k := k) (by simp [hp])
    exact .quiet
  case hold i hrx hlock _ _ =>
    rcases eq_or_ne i id with rfl | hi
    · exact .step .hold
    · exact .quiet
  case refuse i code hrx hlock =>
    rcases eq_or_ne i id with rfl | hi
    · refine .step .refuse ?_
      simp [pview, hrx]
      omega
    · exact .quiet
  case create i hrx hlock hlisten hvalid =>
    rcases eq_or_ne i id with rfl | hi
    · have hz := hnew (.inl hrx)
      have hno : (e.streams i).isSome = false := (Bool.or_eq_false_iff.mp hvalid).1
      exact .step (.create hno)
    · exact .quiet
  case connAccept hpend | error hpend | failPending hpend _ =>
    have hi := hpending hpend
    exact .quiet
  case connAcceptUnknown i hrx _ _ | errorUnknown i _ hrx _ _ =>
    have hi := hanswer (hfrom _ hrx : PeerID mode.peer i)
    exact .quiet
  case connClose i g hrx hlock hreg hpend =>
    rcases eq_or_ne i id with rfl | hi
    · exact .step (.close (by simp [pview, hreg]))
    · exact .quiet
  case connCloseUnknown i hrx hlock hunknown =>
    rcases eq_or_ne i id with rfl | hi
    · have hno : e.streams i = none := by
        refine hunknown.resolve_right fun hpend => ?_
        obtain ⟨k, hsome⟩ := Option.ne_none_iff_exists'.mp hpend
        exact hpending hsome rfl
      exact .step (.closeUnknown (by simp [pview, hno]))
    · exact .quiet
  case reserve st hrx _ =>
    by_cases hi : st.id = id
    · exact .step (.reserve (by simp [pview, hrx, hi]))
    · exact .quiet
  case reserveDrop st hrx _ _ =>
    by_cases hi : st.id = id
    · exact .step (.reserveDrop (by simp [pview, hrx, hi]))
    · exact .quiet
  case reserveFail st hrx _ _ | ctxDone st hrx _ _ =>
    by_cases hi : st.id = id
    · exact .step (.reserveLose (by simp [pview, hrx, hi]))
    · exact .quiet
  case forget st next hrx hlock =>
    rcases eq_or_ne st.id id with rfl | hi
    · cases next with
      | refuse code =>
        refine .step (.forgetDrop (by simp [pview, hrx])) ?_
        simp [pview, hrx, Next.rx]
        omega
      | fail why | unslot =>
        exact .step (.forgetLose (by simp [pview, hrx]))
    · refine .quiet (p := ?_)
      simp only [pview, hrx, Endpoint.forget, hupdate _ _ hi]
      cases next <;> simp [Next.rx, hi]
  case answerAccept st hrx _ =>
    by_cases hi : st.id = id
    · refine .step (.answer (by simp [pview, hrx, hi])) ?_
      simp [pview, hrx, hi, Job.grants, Job.refuses]
      omega
    · exact .quiet
  case answerFull st hrx _ =>
    by_cases hi : st.id = id
    · exact .step (.answerFull (by simp [pview, hrx, hi]))
    · exact .quiet
  case answerRefuse i code hrx =>
    have hgrants : (cfg.enqueue e.ctrlQueue (.error i code)).countP (Job.grants id) = _ :=
      enqueue_countP _ _ rfl
    rcases enqueue_refuses cfg e id i code with hsame | ⟨hi, hmore⟩
    · by_cases hi : i = id
      · refine .step .dropRefusal ?_
        simp only [pview, Endpoint.enqueue, hgrants, hsame, hrx]
        simp [hi]
        omega
      · exact .quiet
    · refine .quiet (p := ?_)
      simp only [pview, Endpoint.enqueue, hgrants, hmore, hrx]
      simp [hi]
      omega
  case markPeer st hrx =>
    by_cases hi : st.id = id
    · obtain rfl : st = ⟨id, 0⟩ := by
        have hlt := hk.peerClosing st hrx
        rw [hi] at hlt
        obtain ⟨i, g⟩ := st
        dsimp only at hi hlt
        rw [hi, Nat.lt_one_iff.mp (lt_of_lt_of_le hlt hmade)]
      exact .step (.markPeer (by simp [pview, hrx]))
    · exact .quiet
  case admitRefuse i rest code hlock | releaseRefuse i rest hlock =>
    refine .refusal ?_ (by simp [hlock]) rfl rfl
    simp [hlock, List.count_cons]
    omega
  case expire j i hheld hlock =>
    refine .refusal ?_ rfl rfl rfl
    have := count_eraseIdx_add hheld id
    simp only [Endpoint.enqueue]
    omega
  case admitSlot i rest hlock hvalid hroom =>
    by_cases hi : i = id
    · have hno : (e.streams id).isSome = false := hi ▸ (Bool.or_eq_false_iff.mp hvalid).1
      exact .step (.admitSlot (by simp [pview, hlock, hi]) hno)
    · exact .quiet
  case admitAccept i rest hlock hroom =>
    rcases eq_or_ne i id with rfl | hi
    · have hz := hnew (.inr (by simp [hlock]))
      refine .step (.admitAccept (by simp [pview, hlock])) ?_
      simp [pview, hlock, Endpoint.newRef, hz, Stream.new, Job.grants, Job.refuses]
      omega
    · exact .quiet
  case admitFull i rest hlock _ =>
    by_cases hi : i = id
    · exact .step (.admitFull (by simp [pview, hlock, hi]))
    · exact .quiet
  case pop job rest hsender hqueue =>
    refine .quiet (p := ?_)
    simp [pview, hsender, hqueue, Sender.delivering?, List.countP_cons]
    omega
  case send job hsender =>
    cases job with
    | accept st =>
      by_cases hi : st.id = id
      · exact .step (.sendAccept (by simp [pview, hsender, Job.grants, hi]))
      · exact .quiet
    | error i code =>
      by_cases hi : i = id
      · exact .step (.sendError (by simp [pview, hsender, Job.refuses, hi]))
      · exact .quiet
    | other => exact .quiet
  case deliver st hsender =>
    refine .quiet (p := ?_)
    simp [pview, hsender, Sender.delivering?, List.count_cons]
    omega
  case queueOther =>
    refine .quiet (p := ?_)
    simp only [pview, Endpoint.enqueue, enqueue_countP (Job.grants id) .other rfl,
      enqueue_countP (Job.refuses id) .other rfl]
  case acceptStream st rest hch =>
    refine .quiet (p := ?_)
    simp [pview, hch, List.count_cons]
    omega
  case releaseSlot j st hret =>
    have hret' : (e.returning.map Ref.id)[j]? = some st.id := by simp [hret]
    have := count_eraseIdx_add hret' id
    rw [List.eraseIdx_map] at this
    refine .quiet (p := ?_)
    simp [pview, List.count_cons]
    omega
  case mark i st pc hload hlive =>
    obtain ⟨hst, hread⟩ := hk.loads st pc (List.mem_of_getElem? hload)
    by_cases hi : st.id = id
    · obtain ⟨rfl, hacc⟩ := hk.peer_opened hrep hid hst hi hmade
      have hgranted : 0 < (pview id e).granted := by
        refine List.count_pos_iff.mpr (List.mem_map.mpr ⟨⟨id, 0⟩, ?_, rfl⟩)
        simp [hacc]
      exact .step (.mark hlive hgranted hread)
    · exact .quiet
  case closeForget st pc hc hlock =>
    obtain rfl | hi := hk.closing_peer hrep hid hmade st (by simp [hc])
    · exact .step (.forget hc)
    · exact .quiet
  case closeSilent st hc =>
    obtain rfl | hi := hk.closing_peer hrep hid hmade st (by simp [hc])
    · exact .step (.closeSilent hc)
    · exact .quiet
  case closeSend st hc =>
    obtain rfl | hi := hk.closing_peer hrep hid hmade st (by simp [hc])
    · exact .step (.closeSend hc)
    · exact .quiet
  all_goals exact .quiet

end Acceptor

end Hqq.Streams
