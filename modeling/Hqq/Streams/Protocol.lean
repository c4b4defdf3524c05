import Hqq.Streams.OneStream

/-!
# What holds of one stream

The create of a stream is one token that wanders from the opener to its peer and comes back as an
accept or an error.
-/

namespace Hqq.Streams.OneStream

variable {s s' : State} {l : Label}

def Acceptor.token (p : Acceptor) : Nat :=
  p.held + p.slotted + p.reserving + p.accepting + p.dropping + p.losing + p.granting + p.refusing

def Acceptor.places (p : Acceptor) : Nat :=
  p.reserving + p.accepting + p.dropping + p.losing + p.granting + p.granted

/-- The create or its answer, from the send of the create to the receipt of the answer. -/
def State.token (s : State) : Nat := s.up.creates + s.p.token + s.down.accepts + s.down.errors

structure Tokens (s : State) : Prop where
  one : s.o.call.unsent + s.token ≤ 1
  fresh : s.o.call.unsent + s.up.creates + s.p.held + s.p.slotted + s.p.made ≤ 1
  places : s.p.places ≤ s.p.made
  refused : s.p.refusing + s.down.errors + s.p.granted ≤ 1
  sent : s.down.accepts ≤ s.p.granted
  reg : s.p.registered = true → s.p.refusing + s.down.errors = 0 ∧ 0 < s.p.places

theorem Down.plus_le (d : Down) (k : Option Kind) :
    d.accepts ≤ (d.plus k).accepts ∧ d.errors ≤ (d.plus k).errors ∧ d.closes ≤ (d.plus k).closes := by
  rcases k with _ | k
  · exact ⟨le_rfl, le_rfl, le_rfl⟩
  · cases k <;> simp [Down.plus]

theorem Up.plus_creates (u : Up) {x : Option Kind} (hx : x ≠ some .create) :
    (u.plus x).creates = u.creates := by
  rcases x with _ | k
  · rfl
  · cases k <;> first | rfl | exact absurd rfl hx

theorem OStep.unsent {o o' : Opener} {i x : Option Kind} (h : OStep o l i x o') (u : Up) :
    o'.call.unsent + (u.plus x).creates ≤ o.call.unsent + u.creates := by
  cases h
  case allocate hc | register hc | sendFail hc | receiveAccepted hc _ | receiveRefused hc _ | giveUp hc
      | cleanup hc =>
    simp [Call.unsent, Up.plus, hc]
  case sendCreate hc =>
    simp only [Call.unsent, Up.plus, hc]
    omega
  all_goals exact le_rfl

theorem Tokens.opener (h : Tokens s) {i x : Option Kind} {o : Opener} {rest : Down}
    (hdown : s.down = rest.plus i) (hstep : OStep s.o l i x o) :
    Tokens (s.opener o x rest) := by
  obtain ⟨h1, h2, h3, h4, h5, h6⟩ := h
  have hu := hstep.unsent s.up
  obtain ⟨ha, he, -⟩ := rest.plus_le i
  rw [← hdown] at ha he
  unfold State.token at h1
  refine ⟨?_, ?_, h3, ?_, ?_, fun hr => ?_⟩
  case refine_5 => have := h6 hr; dsimp only; omega
  all_goals
    simp only [State.token]
    omega

section Peer

variable {i x : Option Kind} {p : Acceptor} {rest : Up} (hup : s.up = rest.plus i)
variable (hstep : PStep s.p i x p)
include hup hstep

theorem token_peer : (s.peer p x rest).token ≤ s.token := by
  unfold State.token Acceptor.token
  rw [hup]
  cases hstep
  all_goals
    simp only [Up.plus, Down.plus]
    omega

theorem fresh_peer : rest.creates + p.held + p.slotted + p.made ≤
    s.up.creates + s.p.held + s.p.slotted + s.p.made := by
  rw [hup]
  cases hstep
  all_goals
    simp only [Up.plus]
    omega

omit hup in
theorem places_peer (h : s.p.places ≤ s.p.made) : p.places ≤ p.made := by
  unfold Acceptor.places at h ⊢
  cases hstep
  case closeUnknown => exact h
  all_goals
    dsimp only
    omega

omit hup in
theorem sent_peer (h : s.down.accepts ≤ s.p.granted) : (s.down.plus x).accepts ≤ p.granted := by
  cases hstep
  all_goals
    simp only [Down.plus]
    omega

theorem Tokens.refused_peer (h : Tokens s) : p.refusing + (s.down.plus x).errors + p.granted ≤ 1 := by
  obtain ⟨h1, h2, h3, h4, -, -⟩ := h
  unfold State.token Acceptor.token at h1
  unfold Acceptor.places at h3
  rw [hup] at h1 h2
  cases hstep
  all_goals
    simp only [Up.plus, Down.plus] at h1 h2 ⊢
    omega

theorem Tokens.reg_peer (h : Tokens s) (hr : p.registered = true) :
    p.refusing + (s.down.plus x).errors = 0 ∧ 0 < p.places := by
  obtain ⟨h1, h2, h3, -, -, h6⟩ := h
  unfold State.token Acceptor.token at h1
  unfold Acceptor.places at h3 h6 ⊢
  rw [hup] at h1 h2
  cases hstep
  case forgetDrop | forgetLose | close | forget => cases hr
  case create | admitAccept =>
    simp only [Up.plus, Down.plus] at h1 ⊢
    omega
  all_goals
    have hold := h6 hr
    simp only [Up.plus, Down.plus] at h1 h2 ⊢
    omega

theorem Tokens.peer (h : Tokens s) : Tokens (s.peer p x rest) where
  one := by
    have := token_peer hup hstep
    have := h.one
    dsimp only
    omega
  fresh := by
    have := fresh_peer hup hstep
    have := h.fresh
    dsimp only
    omega
  places := places_peer hstep h.places
  refused := h.refused_peer hup hstep
  sent := sent_peer hstep h.sent
  reg := h.reg_peer hup hstep

end Peer

def Opener.accepted (o : Opener) : Prop :=
  o.call = .opened ∨ o.replying = some .accepted ∨ o.chan = some .accepted

def Opener.refused (o : Opener) : Prop :=
  o.replying = some .refused ∨ o.chan = some .refused ∨ o.call = .cleaning .refused ∨
    o.call = .cleaning .unsent

/-- The call has given up after its create was sent. -/
def Opener.gaveUp (o : Opener) : Prop := o.call = .cleaning .gaveUp ∨ o.call = .failed .gaveUp

theorem Opener.not_gaveUp {o : Opener} {c : Call} (hc : o.call = c) (hne : c ≠ .cleaning .gaveUp)
    (hne' : c ≠ .failed .gaveUp) : ¬ o.gaveUp := by
  rintro (hg | hg)
  · exact hne (hc.symm.trans hg)
  · exact hne' (hc.symm.trans hg)

structure Calls (s : State) : Prop where
  early : s.o.call = .absent ∨ s.o.call = .allocated →
    s.o.chan = none ∧ s.o.replying = none ∧ s.o.pending = false
  pending : s.o.pending = true → s.o.chan = none ∧ s.o.replying = none
  started : s.o.call = .registered → (s.o.pending = true ∧ s.o.registered = true) ∨ s.o.dead = true
  reg : s.o.registered = true →
    s.o.call ≠ .absent ∧ s.o.call ≠ .allocated ∧ ∀ why, s.o.call ≠ .failed why
  taken : 0 < s.p.granted → 0 < s.down.accepts ∨ s.o.pending = false
  accepted : s.o.accepted → 0 < s.p.granted ∧ s.down.accepts = 0 ∧ s.o.pending = false

structure Closes (s : State) : Prop where
  openerGone : s.o.closing.gone = true → s.o.registered = false
  openerOpen : s.o.closing ≠ .live → s.o.call = .opened
  openerRead : s.o.closing.silent = true → s.o.peerClosed = true
  peerGone : s.p.closing.gone = true → s.p.registered = false
  peerOpen : s.p.closing ≠ .live → 0 < s.p.granted
  peerRead : s.p.closing.silent = true → s.p.peerClosed = true
  toOpener : s.o.peerClosed = true ∨ s.o.peerClosing = true ∨ 0 < s.down.closes → s.p.closing = .done
  toPeer : s.p.peerClosed = true ∨ s.p.peerClosing = true ∨ 0 < s.up.closes → s.o.closing = .done

structure Agrees (s : State) : Prop where
  waits : 0 < s.token → (s.o.pending = true ∧ s.o.registered = true) ∨ s.o.gaveUp ∨ s.o.dead = true
  refused : s.o.refused → (s.token = 0 ∧ s.p.registered = false) ∨ s.o.dead = true
  grants : 0 < s.p.reserving + s.p.accepting + s.p.granting → s.p.registered = true
  back : s.p.registered = true → s.o.registered = true ∨ s.o.gaveUp ∨ s.o.dead = true ∨
    0 < s.up.closes ∨ s.o.closing = .forgotten false
  forth : s.o.registered = true → 0 < s.down.accepts ∨ s.o.accepted →
    s.p.registered = true ∨ 0 < s.down.closes ∨ s.p.closing = .forgotten false

/-- Who knows that the other end closed the stream has forgotten it. -/
structure Shut (s : State) : Prop where
  opener : s.o.peerClosing = true ∨ s.o.peerClosed = true → s.o.registered = false
  peer : s.p.peerClosing = true ∨ s.p.peerClosed = true → s.p.registered = false

structure Inv (s : State) : Prop where
  tokens : Tokens s
  calls : Calls s
  closes : Closes s
  shut : Shut s
  agrees : Agrees s

theorem Inv.init : Inv .init := by
  refine ⟨⟨?_, ?_, ?_, ?_, ?_, ?_⟩, ⟨?_, ?_, ?_, ?_, ?_, ?_⟩, ⟨?_, ?_, ?_, ?_, ?_, ?_, ?_, ?_⟩,
    ⟨?_, ?_⟩, ⟨?_, ?_, ?_, ?_, ?_⟩⟩ <;>
    simp [State.init, State.token, Acceptor.token, Acceptor.places, Call.unsent, Opener.accepted,
      Opener.refused, Opener.gaveUp, Closing.gone, Closing.silent]

section Step

variable (h : Inv s)
include h

theorem Inv.idle_of_unsent (hu : s.o.call.unsent = 1) :
    s.p.granted = 0 ∧ s.down.accepts = 0 ∧ s.p.registered = false ∧ s.token = 0 := by
  obtain ⟨h1, h2, h3, h4, h5, h6⟩ := h.tokens
  have hp : s.p.places = 0 := by omega
  have hg : s.p.granted = 0 := by
    unfold Acceptor.places at hp
    omega
  refine ⟨hg, by omega, ?_, by omega⟩
  by_contra hr
  have := (h6 (by simpa using hr)).2
  omega

theorem Inv.token_of_granted (hg : 0 < s.p.granted) : s.token = s.down.accepts ∧
    s.p.reserving + s.p.accepting + s.p.dropping + s.p.losing + s.p.granting = 0 := by
  obtain ⟨h1, h2, h3, h4, h5, h6⟩ := h.tokens
  unfold Acceptor.places at h3
  unfold State.token Acceptor.token
  omega

theorem Inv.token_of_accepted (ha : s.o.accepted) : s.token = 0 := by
  obtain ⟨hg, hz, -⟩ := h.calls.accepted ha
  rw [(h.token_of_granted hg).1, hz]

theorem Inv.live_of_call {c : Call} (hc : s.o.call = c) (hne : c ≠ .opened) : s.o.closing = .live := by
  by_contra hclosing
  exact hne (hc.symm.trans (h.closes.openerOpen hclosing))

omit h in
theorem token_opener {i x : Option Kind} (o : Opener) {rest : Down} (hdown : s.down = rest.plus i)
    (hx : x ≠ some .create) :
    (s.opener o x rest).token ≤ s.token := by
  obtain ⟨ha, he, -⟩ := rest.plus_le i
  rw [← hdown] at ha he
  simp only [State.token, s.up.plus_creates hx]
  omega

section Opener

variable {i x : Option Kind} {o : Opener} {rest : Down} (hstep : OStep s.o l i x o)
include hstep

theorem Inv.early_opener (hc : o.call = .absent ∨ o.call = .allocated) :
    o.chan = none ∧ o.replying = none ∧ o.pending = false := by
  have hold := h.calls.early
  clear h
  cases hstep <;> grind -ring -linarith

theorem Inv.pending_opener (hp : o.pending = true) : o.chan = none ∧ o.replying = none := by
  have hearly := h.calls.early
  have hold := h.calls.pending
  clear h
  cases hstep <;> grind -ring -linarith

theorem Inv.reg_opener (hr : o.registered = true) :
    o.call ≠ .absent ∧ o.call ≠ .allocated ∧ ∀ why, o.call ≠ .failed why := by
  have hold := h.calls.reg
  clear h
  cases hstep <;> grind -ring -linarith

theorem Inv.openerGone_opener (hg : o.closing.gone = true) : o.registered = false := by
  have hold := h.closes.openerGone
  clear h
  cases hstep
  case register => cases hg
  case mark => cases hg
  case cleanup | error | close | forget | failPending => rfl
  case closeSilent hc | closeSend hc => exact hold (by simp [hc, Closing.gone])
  all_goals exact hold hg

theorem Inv.openerOpen_opener (hc : o.closing ≠ .live) : o.call = .opened := by
  have hold := h.closes.openerOpen
  clear h
  cases hstep
  case register => exact absurd rfl hc
  case mark ho _ => exact ho
  case forget hm => exact hold (by simp [hm])
  case closeSilent hm | closeSend hm => exact hold (by simp [hm])
  case receiveAccepted => rfl
  case allocate hcall | sendCreate hcall | sendFail hcall | receiveRefused hcall _ | giveUp hcall
      | cleanup hcall =>
    have := hold hc
    simp [hcall] at this
  all_goals exact hold hc

theorem Inv.openerRead_opener (hs : o.closing.silent = true) : o.peerClosed = true := by
  have hold := h.closes.openerRead
  clear h
  cases hstep
  case register => cases hs
  case mark hpc => exact hpc hs
  case forget hm => exact hold (by simpa [hm, Closing.silent] using hs)
  case closeSilent | closeSend => cases hs
  case markPeer => rfl
  all_goals exact hold hs

theorem Inv.shut_opener : Shut (s.opener o x rest) := by
  refine ⟨?_, h.shut.peer⟩
  have hold := h.shut.opener
  intro hpc
  cases hstep
  case register hc =>
    -- a close that came back belongs to a stream that was granted
    simp only [Bool.false_eq_true, or_false] at hpc
    have hdone := h.closes.toOpener (.inr (.inl hpc))
    have hgranted := h.closes.peerOpen (by simp [hdone])
    have := (h.idle_of_unsent (by simp [hc, Call.unsent])).1
    omega
  case markPeer hp => exact hold (.inl hp)
  case cleanup | error | close | forget | failPending => rfl
  all_goals exact hold hpc

variable (hdown : s.down = rest.plus i)
include hdown

theorem Inv.started_opener (hc : o.call = .registered) :
    (o.pending = true ∧ o.registered = true) ∨ o.dead = true := by
  have hone := h.tokens.one
  have hopen := h.closes.openerOpen
  have hold := h.calls.started
  unfold State.token at hone
  rw [hdown] at hone
  clear h hdown
  cases hstep
  case accept hp | error hp =>
    have hunsent : s.o.call.unsent = 1 := by rw [show s.o.call = .registered from hc]; rfl
    simp only [Down.plus] at hone
    omega
  all_goals grind -ring -linarith

theorem Inv.taken_opener (hg : 0 < s.p.granted) : 0 < rest.accepts ∨ o.pending = false := by
  have hold := h.calls.taken hg
  have hidle := h.idle_of_unsent
  rw [hdown] at hold
  clear h hdown
  cases hstep
  case register hc =>
    have := (hidle (by simp [hc, Call.unsent])).1
    omega
  all_goals
    simp only [Down.plus] at hold
    grind -ring -linarith

theorem Inv.accepted_opener (ha : o.accepted) :
    0 < s.p.granted ∧ rest.accepts = 0 ∧ o.pending = false := by
  have hearly := h.calls.early
  have hpend := h.calls.pending
  have hold := h.calls.accepted
  have hone := h.tokens.one
  have hsent := h.tokens.sent
  unfold Opener.accepted at ha hold
  unfold State.token at hone
  rw [hdown] at hone hsent hold
  clear h hdown
  cases hstep
  case accept hp =>
    simp only [Down.plus] at hone hsent
    exact ⟨by omega, by omega, rfl⟩
  case failPending hp _ =>
    simp only [(hpend hp).1, Option.none_or] at ha
    rcases ha with ha | ha | ha
    · exact ⟨(hold (.inl ha)).1, (hold (.inl ha)).2.1, rfl⟩
    · exact ⟨(hold (.inr (.inl ha))).1, (hold (.inr (.inl ha))).2.1, rfl⟩
    · cases ha
  all_goals
    simp only [Down.plus] at hold
    grind -ring -linarith

theorem Inv.calls_opener : Calls (s.opener o x rest) where
  early := h.early_opener hstep
  pending := h.pending_opener hstep
  started := h.started_opener hstep hdown
  reg := h.reg_opener hstep
  taken := h.taken_opener hstep hdown
  accepted := h.accepted_opener hstep hdown

theorem Inv.closes_opener : Closes (s.opener o x rest) where
  openerGone := h.openerGone_opener hstep
  openerOpen := h.openerOpen_opener hstep
  openerRead := h.openerRead_opener hstep
  peerGone := h.closes.peerGone
  peerOpen := h.closes.peerOpen
  peerRead := h.closes.peerRead
  toOpener hc := by
    have hold := h.closes.toOpener
    obtain ⟨-, -, hle⟩ := rest.plus_le i
    rw [hdown] at hold
    clear h hdown
    have hdown' : 0 < rest.closes → 0 < (rest.plus i).closes := fun hpos => lt_of_lt_of_le hpos hle
    cases hstep
    case register =>
      rcases hc with hc | hc | hc
      · cases hc
      · exact hold (.inr (.inl hc))
      · exact hold (.inr (.inr (hdown' hc)))
    case close => exact hold (.inr (.inr (Nat.succ_pos _)))
    case markPeer hp => exact hold (.inr (.inl hp))
    all_goals exact hold (hc.imp id (Or.imp id hdown'))
  toPeer hc := by
    have hold := h.closes.toPeer
    have hopen := h.closes.openerOpen
    clear h hdown
    cases hstep
    case closeSend | closeSilent => rfl
    case register hcall =>
      have hdone := hold hc
      have := hopen (by simp [hdone])
      simp [hcall] at this
    case mark hm _ _ | forget hm =>
      have := hold hc
      simp [hm] at this
    all_goals exact hold hc

theorem Inv.waits_opener (htoken : 0 < (s.opener o x rest).token) :
    (o.pending = true ∧ o.registered = true) ∨ o.gaveUp ∨ o.dead = true := by
  have hone := h.tokens.one
  have hless : x ≠ some .create → 0 < s.token := fun hx =>
    lt_of_lt_of_le htoken (token_opener _ hdown hx)
  -- the call moves and neither gives up nor forgets its stream
  have hmove : ∀ {c}, s.o.call = c → c ≠ .cleaning .gaveUp → c ≠ .failed .gaveUp → 0 < s.token →
      ((s.o.pending = true ∧ s.o.registered = true) ∨ s.o.dead = true) := by
    intro c hc hne hne' ht
    rcases h.agrees.waits ht with hp | hg | hd
    · exact .inl hp
    · exact absurd hg (Opener.not_gaveUp hc hne hne')
    · exact .inr hd
  cases hstep
  case sendCreate hc => exact (h.calls.started hc).imp_right .inr
  case register => exact .inl ⟨rfl, rfl⟩
  case giveUp => exact .inr (.inl (.inl rfl))
  case allocate hc | sendFail hc | receiveAccepted hc _ | receiveRefused hc _ =>
    exact (hmove hc nofun nofun (hless nofun)).imp_right .inr
  case cleanup why hc =>
    cases why with
    | gaveUp => exact .inr (.inl (.inr rfl))
    | unsent | refused =>
      rcases h.agrees.refused (by simp [Opener.refused, hc]) with ⟨hz, -⟩ | hd
      · have := hless nofun
        omega
      · exact .inr (.inr hd)
  case accept hp | error hp =>
    -- the token is gone
    simp only [State.token, hdown, Down.plus, Up.plus] at htoken hone
    omega
  case close hr hp =>
    rcases h.agrees.waits (hless nofun) with ⟨hpend, -⟩ | hg
    · simp [hp] at hpend
    · exact .inr hg
  case forget hc =>
    have hopen := h.closes.openerOpen (by simp [hc])
    have := h.token_of_accepted (.inl hopen)
    have := hless nofun
    omega
  case failPending hd => exact .inr (.inr hd)
  case die => exact .inr (.inr rfl)
  case errorUnknown hp _ =>
    rcases h.agrees.waits (hless nofun) with ⟨hpend, -⟩ | hg | hd
    · simp [hp] at hpend
    · exact .inr (.inl hg)
    · simp_all
  all_goals exact h.agrees.waits (hless nofun)

theorem Inv.refused_opener (hr : o.refused) :
    ((s.opener o x rest).token = 0 ∧ s.p.registered = false) ∨
      o.dead = true := by
  have hone := h.tokens.one
  have hzero : x ≠ some .create → s.token = 0 →
      (s.opener o x rest).token = 0 := fun hx hz =>
    Nat.le_zero.mp (hz ▸ token_opener _ hdown hx)
  have hold := fun hx hr => (h.agrees.refused hr).imp_left (And.imp_left (hzero hx))
  unfold Opener.refused at hr
  cases hstep
  case error hp =>
    have hreg : s.p.registered = false := by
      by_contra hreg
      have := (h.tokens.reg (by simpa using hreg)).1
      simp only [hdown, Down.plus] at this
      omega
    refine .inl ⟨?_, hreg⟩
    simp only [State.token, hdown, Down.plus, Up.plus] at hone ⊢
    omega
  case sendFail hc =>
    obtain ⟨-, -, hreg, hz⟩ := h.idle_of_unsent (by simp [hc, Call.unsent])
    exact .inl ⟨hzero nofun hz, hreg⟩
  case sendCreate hc =>
    -- a reply before the create was sent comes from a dispatcher that failed
    rcases h.calls.started hc with ⟨hp, -⟩ | hd
    · obtain ⟨hchan, hrep⟩ := h.calls.pending hp
      simp [hchan, hrep] at hr
    · exact .inr hd
  case reply hrep hchan =>
    exact hold nofun (by simp only [Opener.refused]; grind -ring -linarith)
  case receiveAccepted | receiveRefused | allocate | register | cleanup | giveUp | accept =>
    exact hold nofun (by simp only [Opener.refused]; grind -ring -linarith)
  case failPending hd => exact .inr hd
  case die => exact .inr rfl
  case errorUnknown hd => exact .inl ((hold nofun hr).resolve_right (by simp [hd]))
  all_goals exact hold nofun hr

theorem Inv.back_opener (hr : s.p.registered = true) :
    o.registered = true ∨ o.gaveUp ∨ o.dead = true ∨ 0 < (s.up.plus x).closes ∨
      o.closing = .forgotten false := by
  -- a close that is on its way to the opener tells that the peer has forgotten the stream
  have hpeer : s.p.closing ≠ .done := by
    intro hd
    have := h.closes.peerGone (by rw [hd]; rfl)
    simp [hr] at this
  have hback := h.agrees.back hr
  have hmove : ∀ {c}, s.o.call = c → c ≠ .cleaning .gaveUp → c ≠ .failed .gaveUp → c ≠ .opened →
      s.o.registered = true ∨ s.o.dead = true ∨ 0 < s.up.closes := by
    intro c hc hne hne' hno
    rcases hback with hreg | hg | hd | hu | hf
    · exact .inl hreg
    · exact absurd hg (Opener.not_gaveUp hc hne hne')
    · exact .inr (.inl hd)
    · exact .inr (.inr hu)
    · simp [h.live_of_call hc hno] at hf
  cases hstep
  case allocate hc | sendFail hc | sendCreate hc | receiveAccepted hc _ | receiveRefused hc _ =>
    exact (hmove hc nofun nofun nofun).imp_right fun hrest => .inr (hrest.imp_right .inl)
  case register => exact .inl rfl
  case giveUp => exact .inr (.inl (.inl rfl))
  case cleanup why hc =>
    cases why with
    | gaveUp => exact .inr (.inl (.inr rfl))
    | unsent | refused =>
      rcases h.agrees.refused (by simp [Opener.refused, hc]) with ⟨-, hno⟩ | hd
      · simp [hr] at hno
      · exact .inr (.inr (.inl hd))
  case error hp =>
    have := (h.tokens.reg hr).1
    simp only [hdown, Down.plus] at this
    omega
  case close hreg hp =>
    exact absurd (h.closes.toOpener (by simp [hdown, Down.plus])) hpeer
  case mark hc _ _ =>
    simp only [hc, reduceCtorEq, or_false] at hback
    exact hback.imp_right (Or.imp_right (Or.imp_right .inl))
  case forget pc hc =>
    cases pc with
    | false => exact .inr (.inr (.inr (.inr rfl)))
    | true => exact absurd (h.closes.toOpener (.inl (h.closes.openerRead (by rw [hc]; rfl)))) hpeer
  case closeSilent hc =>
    exact absurd (h.closes.toOpener (.inl (h.closes.openerRead (by rw [hc]; rfl)))) hpeer
  case closeSend hc => exact .inr (.inr (.inr (.inl (Nat.succ_pos _))))
  case die => exact .inr (.inr (.inl rfl))
  case failPending hd => exact .inr (.inr (.inl hd))
  case errorUnknown hp hd =>
    simp only [hd, Bool.false_eq_true, false_or] at hback
    exact hback.imp_right (Or.imp_right .inr)
  all_goals exact hback

theorem Inv.forth_opener (hfirst : i = some .close → rest.accepts = 0) (hr : o.registered = true)
    (ha : 0 < rest.accepts ∨ o.accepted) :
    s.p.registered = true ∨ 0 < rest.closes ∨ s.p.closing = .forgotten false := by
  have hforth := h.agrees.forth
  rw [hdown] at hforth
  unfold Opener.accepted at ha hforth
  cases hstep
  case register hc =>
    obtain ⟨-, hz, -, -⟩ := h.idle_of_unsent (by simp [hc, Call.unsent])
    obtain ⟨hchan, hrep, -⟩ := h.calls.early (.inr hc)
    simp only [hdown, Down.plus] at hz
    simp [hchan, hrep, hz] at ha
  case accept hp => exact hforth hr (.inl (Nat.succ_pos _))
  case acceptUnknown hp => exact hforth hr (.inl (Nat.succ_pos _))
  case reply r hrep hchan =>
    refine hforth hr (ha.imp id fun ha => ?_)
    grind -ring -linarith
  case receiveAccepted hc hchan => exact hforth hr (.inr (.inr (.inr hchan)))
  case close | error | cleanup | forget | failPending => cases hr
  case closeUnknown hno =>
    -- a close that is not for a call that is still waiting
    rcases hno with hno | hp
    · simp [hr] at hno
    · rcases ha with ha | ha
      · have := hfirst rfl
        omega
      · have := (h.calls.accepted ha).2.2
        simp [hp] at this
  case allocate hc | sendFail hc | sendCreate hc | receiveRefused hc _ | giveUp hc =>
    exact hforth hr (by simp only [Down.plus]; grind -ring -linarith)
  all_goals exact hforth hr ha

theorem Inv.opener (hfirst : i = some .close → rest.accepts = 0) :
    Inv (s.opener o x rest) where
  tokens := h.tokens.opener hdown hstep
  calls := h.calls_opener hstep hdown
  closes := h.closes_opener hstep hdown
  shut := h.shut_opener hstep
  agrees := ⟨h.waits_opener hstep hdown, h.refused_opener hstep hdown, h.agrees.grants,
    h.back_opener hstep hdown, h.forth_opener hstep hdown hfirst⟩

end Opener

theorem Inv.live_of_made (hz : 0 < s.up.creates + s.p.slotted) : s.p.closing = .live := by
  have hfresh := h.tokens.fresh
  have hplaces := h.tokens.places
  by_contra hc
  have := h.closes.peerOpen hc
  unfold Acceptor.places at hplaces
  omega

section Peer

variable {i x : Option Kind} {p : Acceptor} {rest : Up} (hstep : PStep s.p i x p)
include hstep

theorem Inv.peerGone_peer (hg : p.closing.gone = true) : p.registered = false := by
  have hold := h.closes.peerGone
  clear h
  cases hstep
  case create | admitAccept | mark => cases hg
  case forgetDrop | forgetLose | close | forget => rfl
  case closeSilent hc | closeSend hc => exact hold (by simp [hc, Closing.gone])
  all_goals exact hold hg

theorem Inv.peerOpen_peer (hc : p.closing ≠ .live) : 0 < p.granted := by
  have hold := h.closes.peerOpen
  clear h
  cases hstep
  case create | admitAccept => exact absurd rfl hc
  case mark hg _ => exact hg
  case forget hm | closeSilent hm | closeSend hm => exact hold (by simp [hm])
  case sendAccept => exact Nat.succ_pos _
  all_goals exact hold hc

theorem Inv.peerRead_peer (hs : p.closing.silent = true) : p.peerClosed = true := by
  have hold := h.closes.peerRead
  clear h
  cases hstep
  case create | admitAccept | closeSilent | closeSend => cases hs
  case mark hpc => exact hpc hs
  case forget hm => exact hold (by simpa [hm, Closing.silent] using hs)
  case markPeer => rfl
  all_goals exact hold hs

variable (hup : s.up = rest.plus i)
include hup

omit h in
theorem registered_peer (hr : p.registered = true) : s.p.registered = true ∨ 0 < s.token := by
  unfold State.token Acceptor.token
  cases hstep
  case create =>
    simp only [hup, Up.plus]
    omega
  case admitAccept => omega
  case forgetDrop | forgetLose | close | forget => cases hr
  all_goals exact .inl hr

theorem Inv.calls_peer : Calls (s.peer p x rest) := by
  have hgranted := h.token_of_granted
  obtain ⟨h1, h2, h3, h4, h5, h6⟩ := h.calls
  cases hstep
  case sendAccept hg =>
    refine ⟨h1, h2, h3, h4, fun _ => .inl (Nat.succ_pos _), fun ha => ?_⟩
    have := (hgranted (h6 ha).1).2
    omega
  all_goals exact ⟨h1, h2, h3, h4, h5, h6⟩

theorem Inv.toOpener_peer
    (hc : s.o.peerClosed = true ∨ s.o.peerClosing = true ∨ 0 < (s.down.plus x).closes) :
    p.closing = .done := by
  have hold := h.closes.toOpener
  have hlive := h.live_of_made
  clear h
  cases hstep
  case closeSend | closeSilent => rfl
  case create =>
    have := hlive (by rw [hup]; simp only [Up.plus]; omega)
    simp [hold hc] at this
  case admitAccept hs =>
    have := hlive (by omega)
    simp [hold hc] at this
  case mark hm _ _ | forget hm =>
    have := hold hc
    simp [hm] at this
  all_goals exact hold hc

theorem Inv.toPeer_peer (hc : p.peerClosed = true ∨ p.peerClosing = true ∨ 0 < rest.closes) :
    s.o.closing = .done := by
  have hold := h.closes.toPeer
  rw [hup] at hold
  clear h hup
  cases hstep
  case create | admitAccept =>
    rcases hc with hc | hc
    · cases hc
    · exact hold (.inr hc)
  case close => exact hold (.inr (.inr (Nat.succ_pos _)))
  case closeUnknown => exact hold (.inr (.inr (Nat.succ_pos _)))
  case markPeer hp => exact hold (.inr (.inl hp))
  all_goals exact hold hc

theorem Inv.closes_peer : Closes (s.peer p x rest) where
  openerGone := h.closes.openerGone
  openerOpen := h.closes.openerOpen
  openerRead := h.closes.openerRead
  peerGone := h.peerGone_peer hstep
  peerOpen := h.peerOpen_peer hstep
  peerRead := h.peerRead_peer hstep
  toOpener := h.toOpener_peer hstep hup
  toPeer := h.toPeer_peer hstep hup

theorem Inv.shut_peer : Shut (s.peer p x rest) := by
  refine ⟨h.shut.opener, ?_⟩
  have hold := h.shut.peer
  -- while the create is on the way, the opener has not closed the stream
  have hnot : 0 < s.token → s.p.peerClosing = false := by
    intro htoken
    by_contra hpc
    have hdone := h.closes.toPeer (.inr (.inl (by simpa using hpc)))
    have := h.token_of_accepted (.inl (h.closes.openerOpen (by simp [hdone])))
    omega
  intro hpc
  cases hstep
  case create =>
    have := hnot (by simp only [State.token, hup, Up.plus]; omega)
    simp [this] at hpc
  case admitAccept hs =>
    have := hnot (by simp only [State.token, Acceptor.token]; omega)
    simp [this] at hpc
  case markPeer hp => exact hold (.inl hp)
  case forgetDrop | forgetLose | close | forget => rfl
  all_goals exact hold hpc

theorem Inv.grants_peer (hg : 0 < p.reserving + p.accepting + p.granting) : p.registered = true := by
  have hone := h.tokens.one
  have hgrants := h.agrees.grants
  unfold State.token Acceptor.token at hone
  cases hstep
  case create | admitAccept => rfl
  case reserve | reserveDrop | reserveLose | answer | answerFull | sendAccept => exact hgrants (by omega)
  case forgetDrop | forgetLose =>
    dsimp only at hg
    omega
  case close hr =>
    have hdone := h.closes.toPeer (by simp [hup, Up.plus])
    have hopen := h.closes.openerOpen (by simp [hdone])
    have := (h.token_of_granted (h.calls.accepted (.inl hopen)).1).2
    dsimp only at hg
    omega
  case forget hc =>
    have := (h.token_of_granted (h.closes.peerOpen (by simp [hc]))).2
    dsimp only at hg
    omega
  all_goals exact hgrants hg

theorem Inv.back_peer (hr : p.registered = true) :
    s.o.registered = true ∨ s.o.gaveUp ∨ s.o.dead = true ∨ 0 < rest.closes ∨
      s.o.closing = .forgotten false := by
  by_cases hold : s.p.registered = true
  · have hback := h.agrees.back hold
    rw [hup] at hback
    cases hstep
    case forgetDrop | forgetLose | close | forget => cases hr
    case closeUnknown hno => simp [hold] at hno
    all_goals exact hback
  · have htoken := (registered_peer hstep hup hr).resolve_left hold
    exact (h.agrees.waits htoken).imp And.right (Or.imp_right .inl)

theorem Inv.forth_peer (hr : s.o.registered = true) (ha : 0 < (s.down.plus x).accepts ∨ s.o.accepted) :
    p.registered = true ∨ 0 < (s.down.plus x).closes ∨ p.closing = .forgotten false := by
  have hlive : s.o.closing ≠ .done := by
    intro hd
    have := h.closes.openerGone (by rw [hd]; rfl)
    simp [hr] at this
  have hsent := h.tokens.sent
  have hgranted : x = none → 0 < s.p.granted := by
    rintro rfl
    rcases ha with ha | ha
    · simp only [Down.plus] at ha
      omega
    · exact (h.calls.accepted ha).1
  have hforth := h.agrees.forth hr
  cases hstep
  case create | admitAccept => exact .inl rfl
  case sendAccept hg => exact .inl (h.agrees.grants (by omega))
  case forgetDrop | forgetLose =>
    have := (h.token_of_granted (hgranted rfl)).2
    omega
  case close => exact absurd (h.closes.toPeer (by simp [hup, Up.plus])) hlive
  case forget pc hc =>
    cases pc with
    | false => exact .inr (.inr rfl)
    | true => exact absurd (h.closes.toPeer (.inl (h.closes.peerRead (by rw [hc]; rfl)))) hlive
  case closeSilent hc => exact absurd (h.closes.toPeer (.inl (h.closes.peerRead (by rw [hc]; rfl)))) hlive
  case closeSend => exact .inr (.inl (Nat.succ_pos _))
  case mark hc _ _ =>
    simp only [hc, reduceCtorEq, or_false] at hforth
    exact (hforth ha).imp_right .inl
  all_goals exact hforth ha

theorem Inv.peer : Inv (s.peer p x rest) where
  tokens := h.tokens.peer hup hstep
  calls := h.calls_peer hstep hup
  closes := h.closes_peer hstep hup
  shut := h.shut_peer hstep hup
  agrees := by
    refine ⟨fun ht => h.agrees.waits (lt_of_lt_of_le ht (token_peer hup hstep)), fun hr => ?_,
      h.grants_peer hstep hup, h.back_peer hstep hup, h.forth_peer hstep hup⟩
    rcases h.agrees.refused hr with ⟨hz, hno⟩ | hd
    · refine .inl ⟨Nat.le_zero.mp (hz ▸ token_peer hup hstep), ?_⟩
      by_contra hreg
      rcases registered_peer hstep hup (by simpa using hreg) with hreg | htoken
      · simp [hno] at hreg
      · omega
    · exact .inr hd

end Peer

theorem Inv.step (hs : Step s l s') : Inv s' := by
  cases hs with
  | opener hdown hfirst hstep => exact h.opener hstep hdown hfirst
  | peer hup hstep => exact h.peer hstep hup

end Step

/-! ## Late refusals -/

def State.refusable (s : State) : Nat :=
  s.up.creates + s.p.held + s.p.reserving + s.p.dropping + s.p.refusing + s.down.errors

/-- Whoever may still be refused waits for it. -/
structure Prompt (s : State) : Prop where
  late : 0 < s.refusable → s.o.pending = true ∨ s.o.dead = true
  gave : s.o.call = .cleaning .gaveUp → s.refusable = 0 ∨ s.o.dead = true

theorem Prompt.init : Prompt .init := ⟨nofun, nofun⟩

theorem refusable_le_token : s.refusable ≤ s.token := by
  unfold State.refusable State.token Acceptor.token
  omega

theorem refusable_peer {i x : Option Kind} {p : Acceptor} {rest : Up} (hup : s.up = rest.plus i)
    (hstep : PStep s.p i x p) :
    (s.peer p x rest).refusable ≤ s.refusable := by
  unfold State.refusable
  rw [hup]
  cases hstep
  all_goals
    simp only [Up.plus, Down.plus]
    omega

theorem Prompt.opener (h : Prompt s) (hinv : Inv s) {i x : Option Kind} {o : Opener} {rest : Down}
    (hdown : s.down = rest.plus i) (hstep : OStep s.o l i x o)
    (hok : l = .giveUp → s.refusable = 0 ∨ s.o.dead = true) :
    Prompt (s.opener o x rest) ∧ l ≠ .lateError := by
  have hone := hinv.tokens.one
  have hless : x ≠ some .create →
      (s.opener o x rest).refusable ≤ s.refusable := by
    intro hx
    obtain ⟨-, he, -⟩ := rest.plus_le i
    rw [← hdown] at he
    simp only [State.refusable, s.up.plus_creates hx]
    omega
  have hlate : x ≠ some .create →
      0 < (s.opener o x rest).refusable →
      s.o.pending = true ∨ s.o.dead = true := fun hx hpos => h.late (lt_of_lt_of_le hpos (hless hx))
  have hzero := fun hx (hz : s.refusable = 0) => Nat.le_zero.mp (hz ▸ hless hx)
  have hgave := fun hx hc => (h.gave hc).imp_left (hzero hx)
  cases hstep
  case errorUnknown hp hd =>
    rcases h.late (by simp only [State.refusable, hdown, Down.plus]; omega) with hpend | hdead
    · simp [hp] at hpend
    · simp [hd] at hdead
  case sendCreate hc =>
    refine ⟨⟨fun _ => ?_, nofun⟩, nofun⟩
    exact (hinv.calls.started hc).imp And.left id
  case giveUp hc => exact ⟨⟨hlate nofun, fun _ => (hok rfl).imp_left (hzero nofun)⟩, nofun⟩
  case cleanup why hc =>
    refine ⟨⟨fun hpos => ?_, nofun⟩, nofun⟩
    have hold := lt_of_lt_of_le hpos (hless nofun)
    cases why with
    | gaveUp =>
      rcases h.gave hc with hz | hd
      · omega
      · exact .inr hd
    | unsent | refused =>
      rcases hinv.agrees.refused (by simp [Opener.refused, hc]) with ⟨hz, -⟩ | hd
      · have := refusable_le_token (s := s)
        omega
      · exact .inr hd
  case accept hp | error hp =>
    -- the token was the answer
    have hz : ({ s with up := s.up.plus none, down := rest } : State).refusable = 0 := by
      simp only [State.token, Acceptor.token, hdown, Down.plus] at hone
      simp only [State.refusable, Up.plus]
      omega
    exact ⟨⟨fun hpos => absurd hz (Nat.pos_iff_ne_zero.mp hpos), fun _ => .inl hz⟩, nofun⟩
  case failPending hd => exact ⟨⟨fun _ => .inr hd, fun _ => .inr hd⟩, nofun⟩
  case die => exact ⟨⟨fun _ => .inr rfl, fun _ => .inr rfl⟩, nofun⟩
  case register => exact ⟨⟨fun _ => .inl rfl, nofun⟩, nofun⟩
  case allocate | sendFail | receiveAccepted | receiveRefused => exact ⟨⟨hlate nofun, nofun⟩, nofun⟩
  all_goals exact ⟨⟨hlate nofun, hgave nofun⟩, nofun⟩

/-- Nobody gets a refusal that is not waiting for it, as long as no call gives up while its create
may still be refused. -/
theorem Prompt.step (h : Prompt s) (hinv : Inv s) (hs : Step s l s')
    (hok : l = .giveUp → s.refusable = 0 ∨ s.o.dead = true) : Prompt s' ∧ l ≠ .lateError := by
  cases hs with
  | opener hdown hfirst hstep => exact h.opener hinv hdown hstep hok
  | peer hup hstep =>
    have hle := refusable_peer hup hstep
    exact ⟨⟨fun hpos => h.late (lt_of_lt_of_le hpos hle),
      fun hc => (h.gave hc).imp_left fun hz : s.refusable = 0 => Nat.le_zero.mp (hz ▸ hle)⟩, nofun⟩

end Hqq.Streams.OneStream
