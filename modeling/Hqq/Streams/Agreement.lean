import Hqq.Streams.Link
import Hqq.Streams.Accepts
import Mathlib.Data.List.Nodup

/-!
# Which streams are open

The two ends agree on the open streams once nothing is on the way, except for calls of
`OpenStream` that gave up.
-/

namespace Hqq.Streams

open OneStream

variable {cfg : LinkMode → Config} {s s' : Link} {m : LinkMode}

/-! ## Open streams -/

def Endpoint.isOpen (e : Endpoint) (id : ConnID) : Bool :=
  match e.streams id with
  | some g => (e.stream ⟨id, g⟩).closing == .live && !(e.stream ⟨id, g⟩).peerClosed
  | none => false

def Phase.finished : Phase → Bool
  | .absent | .failed _ | .opened _ => true
  | _ => false

structure Quiescent (s : Link) : Prop where
  rings : ∀ m, wire s m = []
  jobs : ∀ m, (s m).ctrlQueue = [] ∧ (s m).sender = .idle
  calls : ∀ m n, ((s m).calls n).phase.finished = true
  held : ∀ m, (s m).held = [] ∧ (s m).lock = .free
  received : ∀ m, (s m).rx = .idle
  closes : ∀ m st, ((s m).stream st).closing = .live ∨ ((s m).stream st).closing = .done

/-- An endpoint does not run out of stream IDs. -/
def HasIDs (s : Link) (x : LinkMode × Act) : Prop :=
  x.2 = .allocate → (s x.1).connectionIDGenerator < maxStreams

instance (s : Link) (x : LinkMode × Act) : Decidable (HasIDs s x) :=
  inferInstanceAs (Decidable (_ → _))

theorem link_inv (h : (linkMachine cfg).Reach HasIDs s) : LinkInv s := by
  refine h.invariant (I := LinkInv) .init ?_
  rintro s ⟨m, a⟩ s' - hinv hok hstep
  obtain ⟨e, hbranch, rfl⟩ := link_step hstep
  exact hinv.step hbranch hok

section Quiescent

variable (hinv : LinkInv s) (hq : Quiescent s)
include hinv hq

omit hinv in
theorem Quiescent.incoming_eq_nil (m : LinkMode) : incoming s m = [] := by
  simp [incoming, hq.received m, hq.rings m.peer]

omit hinv in
theorem Quiescent.isOpen {id : ConnID} {g : Nat} (hreg : (s m).streams id = some g)
    (hgone : ((s m).stream ⟨id, g⟩).closing.gone = true → ((s m).streams id).isSome = false)
    (hshut : ((s m).stream ⟨id, g⟩).peerClosed = true → ((s m).streams id).isSome = false) :
    (s m).isOpen id = true := by
  have hlive : ((s m).stream ⟨id, g⟩).closing = .live := by
    refine (hq.closes m ⟨id, g⟩).resolve_right fun hdone => ?_
    simpa [hreg] using hgone (by simp [hdone, Closing.gone])
  have hnot : ((s m).stream ⟨id, g⟩).peerClosed = false := by
    by_contra hpc
    simpa [hreg] using hshut (by simpa using hpc)
  simp [Endpoint.isOpen, hreg, hlive, hnot]

theorem LinkInv.opener_isOpen {n : Nat} (hpos : 0 < n) (hle : n ≤ maxStreams)
    (hreg : (view s m n).o.registered = true) : (s m).isOpen (connID m n) = true := by
  have hv := hinv.streams m n hpos hle
  obtain ⟨g, hg⟩ := Option.isSome_iff_exists.mp hreg
  have hlt : (⟨connID m n, g⟩ : Ref).gen < (s m).made (connID m n) := (hinv.known m).streams _ _ hg
  obtain rfl : g = 0 := congrArg Ref.gen ((hinv.known m).own_ref hpos hle hlt rfl)
  exact hq.isOpen hg hv.closes.openerGone fun hpc => hv.shut.opener (.inr hpc)

theorem LinkInv.acceptor_isOpen {n : Nat} (hpos : 0 < n) (hle : n ≤ maxStreams)
    (hreg : (view s m n).p.registered = true) : (s m.peer).isOpen (connID m n) = true := by
  have hv := hinv.streams m n hpos hle
  obtain ⟨g, hg⟩ := Option.isSome_iff_exists.mp hreg
  obtain rfl : g = 0 := by
    have hlt := (hinv.known m.peer).streams _ _ hg
    have hone : (s m.peer).made (connID m n) ≤ 1 := by
      have := hv.tokens.fresh
      simp only [view, pview] at this
      omega
    omega
  exact hq.isOpen hg hv.closes.peerGone fun hpc => hv.shut.peer (.inr hpc)

theorem LinkInv.open_forth {n : Nat} (hpos : 0 < n) (hle : n ≤ maxStreams)
    (hreg : (view s m n).o.registered = true) : (view s m n).p.registered = true := by
  have hv := hinv.streams m n hpos hle
  have hopened : (view s m n).o.call = .opened := by
    obtain ⟨hne, -, hfailed⟩ := hv.calls.reg hreg
    have hfin := hq.calls m n
    simp only [view, oview] at hne hfailed ⊢
    cases hp : ((s m).calls n).phase <;> simp_all [Phase.call, Phase.finished]
  rcases hv.agrees.forth hreg (.inr (.inl hopened)) with hp | hc | hc
  · exact hp
  · simp [view, hq.incoming_eq_nil, kinds, downOf] at hc
  · have := hq.closes m.peer ⟨connID m n, 0⟩
    simp only [view, pview] at hc
    simp [hc] at this

theorem LinkInv.open_back {n : Nat} (hpos : 0 < n) (hle : n ≤ maxStreams)
    (hreg : (view s m n).p.registered = true) :
    (view s m n).o.registered = true ∨ ((s m).calls n).phase = .failed .gaveUp := by
  have hv := hinv.streams m n hpos hle
  rcases hv.agrees.back hreg with ho | hg | hd | hc | hc
  · exact .inl ho
  · refine .inr ?_
    have hfin := hq.calls m n
    simp only [view, oview, Opener.gaveUp] at hg
    cases hp : ((s m).calls n).phase <;> simp_all [Phase.call, Phase.finished]
  · simp [view, oview, hq.received m] at hd
  · simp [view, hq.incoming_eq_nil, kinds, upOf] at hc
  · have := hq.closes m ⟨connID m n, 0⟩
    simp only [view, oview] at hc
    simp [hc] at this

end Quiescent

/-- A stream that is open at one end is open at the other, unless the other end is the one whose
`OpenStream` gave up on it. -/
theorem open_streams_agree (h : (linkMachine cfg).Reach HasIDs s) (hq : Quiescent s) (m : LinkMode)
    (id : ConnID) (hopen : (s m).isOpen id = true) : (s m.peer).isOpen id = true ∨
      ∃ n, id = connID m.peer n ∧ ((s m.peer).calls n).phase = .failed .gaveUp := by
  have hinv := link_inv h
  obtain ⟨g, hg⟩ : ∃ g, (s m).streams id = some g := by
    cases hreg : (s m).streams id with
    | none => simp [Endpoint.isOpen, hreg] at hopen
    | some g => exact ⟨g, rfl⟩
  have hmade := lt_of_le_of_lt (Nat.zero_le g) ((hinv.known m).streams id g hg)
  rcases hinv.made m id hmade with ⟨n, hpos, hle, rfl⟩ | ⟨n, hpos, hle, rfl⟩
  · have hp : (view s m.peer n).p.registered = true := by
      simp [view, pview, hg]
    rcases hinv.open_back hq hpos hle hp with ho | hgave
    · exact .inl (hinv.opener_isOpen hq hpos hle ho)
    · exact .inr ⟨n, rfl, hgave⟩
  · rw [LinkMode.peer_peer] at hg ⊢
    exact .inl (hinv.acceptor_isOpen hq hpos hle (hinv.open_forth hq hpos hle (by simp [view, oview, hg])))

def Link.checks (s : Link) (m : LinkMode) : Bool :=
  wire s m = [] && (s m).ctrlQueue = [] && (s m).sender = .idle && (s m).held = [] && (s m).lock = .free &&
    (s m).rx = .idle &&
    (List.range ((s m).connectionIDGenerator + 1)).all (fun n => ((s m).calls n).phase.finished) &&
    ((s m).opened ++ (s m).accepted).all fun st =>
      ((s m).stream st).closing = .live || ((s m).stream st).closing = .done

theorem LinkInv.quiescent (hinv : LinkInv s) (h : ∀ m, s.checks m = true) : Quiescent s := by
  simp only [Link.checks, Bool.and_eq_true, decide_eq_true_eq, List.all_eq_true, List.mem_range,
    Bool.or_eq_true, List.mem_append] at h
  refine ⟨fun m => ?_, fun m => ?_, fun m n => ?_, fun m => ?_, fun m => ?_, fun m st => ?_⟩
  · exact (h m).1.1.1.1.1.1.1
  · exact ⟨(h m).1.1.1.1.1.1.2, (h m).1.1.1.1.1.2⟩
  · by_cases hn : n < (s m).connectionIDGenerator + 1
    · exact (h m).1.2 n hn
    · rw [(hinv.replies m).later n (by omega)]
      rfl
  · exact ⟨(h m).1.1.1.1.2, (h m).1.1.1.2⟩
  · exact (h m).1.1.2
  · by_contra hnot
    obtain ⟨hlive, -⟩ := not_or.mp hnot
    exact hnot ((h m).2 st ((hinv.known m).closing st hlive))

def bothListen : List (LinkMode × Act) :=
  [LinkMode.primary, .secondary].flatMap fun m =>
    [(m, .startDispatcher), (m, .enter .dispatcher), (m, .listen), (m, .admitHeld)]

/-- `OpenStream` number `n` of one end, and `AcceptStream` at the other. -/
def openAccepted (m : LinkMode) (n : Nat) : List (LinkMode × Act) :=
  [(m, .allocate), (m, .register n), (m, .sendCreate n), (m.peer, .dequeue), (m.peer, .handle),
    (m.peer, .reserve), (m.peer, .answer), (m.peer, .pop), (m.peer, .send), (m.peer, .deliver),
    (m.peer, .acceptStream), (m.peer, .releaseSlot 0), (m, .dequeue), (m, .handle), (m, .reply),
    (m, .receiveReply n)]

theorem open_streams_agree_two : ∃ s : Link,
    (linkMachine fun _ => smallQueue .block).Reach HasIDs s ∧ Quiescent s ∧
      ((s .primary).isOpen 2 = true ∧ (s .secondary).isOpen 2 = true ∧ (s .primary).isOpen 4 = false) ∧
      ∀ m id, (s m).isOpen id = true → (s m.peer).isOpen id = true ∨
        ∃ n, id = connID m.peer n ∧ ((s m.peer).calls n).phase = .failed .gaveUp := by
  obtain ⟨s, hs, hp, hchecks⟩ : ∃ s, (linkMachine fun _ => smallQueue .block).Reach HasIDs s ∧
      (((s .primary).isOpen 2 = true ∧ (s .secondary).isOpen 2 = true ∧ (s .primary).isOpen 4 = false) ∧
        s.checks .primary = true ∧ s.checks .secondary = true) :=
    Machine.exists_reach (bothListen ++ openAccepted .primary 1 ++ openAccepted .primary 2 ++
      [(.secondary, .load ⟨4, 0⟩), (.secondary, .mark 0),
      (.secondary, .close ⟨4, 0⟩), (.secondary, .close ⟨4, 0⟩), (.primary, .dequeue), (.primary, .handle),
      (.primary, .markPeer)]) (by decide +kernel)
  have hq : Quiescent s := (link_inv hs).quiescent fun m => by
    cases m
    · exact hchecks.1
    · exact hchecks.2
  exact ⟨s, hs, hq, hp, open_streams_agree hs hq⟩

/-- `OpenStream` gives up while the accept is queued, and the peer keeps the stream. -/
theorem canceled_open_disagrees : ∃ s : Link,
    (linkMachine fun _ => smallQueue .block).Reach HasIDs s ∧ Quiescent s ∧
      (s .primary).isOpen 2 = false ∧ (s .secondary).isOpen 2 = true := by
  obtain ⟨s, hs, hp, hchecks⟩ : ∃ s, (linkMachine fun _ => smallQueue .block).Reach HasIDs s ∧
      (((s .primary).isOpen 2 = false ∧ (s .secondary).isOpen 2 = true) ∧
        s.checks .primary = true ∧ s.checks .secondary = true) :=
    Machine.exists_reach [(.primary, .startDispatcher), (.primary, .enter .dispatcher),
      (.secondary, .startDispatcher), (.secondary, .enter .dispatcher), (.secondary, .listen),
      (.secondary, .admitHeld), (.primary, .allocate), (.primary, .register 1), (.primary, .sendCreate 1),
      (.secondary, .dequeue), (.secondary, .handle), (.secondary, .reserve), (.secondary, .answer),
      (.primary, .giveUp 1), (.primary, .cleanup 1), (.secondary, .pop), (.secondary, .send),
      (.secondary, .deliver), (.secondary, .acceptStream), (.secondary, .releaseSlot 0),
      (.primary, .dequeue), (.primary, .handle)] (by decide +kernel)
  have hq : Quiescent s := (link_inv hs).quiescent fun m => by
    cases m
    · exact hchecks.1
    · exact hchecks.2
  exact ⟨s, hs, hq, hp⟩

/-- In a run no ID is used for two streams, and a stream that an end opened was delivered once at
the other end. -/
theorem stream_ids_apart (h : (linkMachine cfg).Reach HasIDs s) (m : LinkMode) :
    (((s m).opened ++ (s m).accepted).map Ref.id).Nodup ∧
    ∀ st ∈ (s m).opened, st.id ∉ (s m.peer).opened.map Ref.id ∧ (s m.peer).delivered.count st.id = 1 := by
  have hinv := link_inv h
  have hown m st (hst : st ∈ (s m).opened) :
      ∃ k, 0 < k ∧ k ≤ maxStreams ∧ st.id = connID m k ∧ ((s m).calls k).phase = .opened st := by
    obtain ⟨k, hp⟩ := (hinv.known m).opened st hst
    obtain ⟨hpos, hle⟩ := (hinv.known m).started (hinv.replies m) (k := k) (by simp [hp])
    exact ⟨k, hpos, hle, by rw [(hinv.known m).phases k st (by rw [hp]; rfl)], hp⟩
  have hpeer {st : Ref} (hst : st ∈ (s m).accepted) : PeerID m st.id :=
    ((hinv.known m).refs st (.accepted hst)).1
  have hne {st : Ref} {id : ConnID} (hst : st ∈ (s m).opened) (hid : PeerID m id) : st.id ≠ id := by
    obtain ⟨k, hpos, hle, heq, -⟩ := hown m st hst
    exact fun hsame => hid.ne_own hpos hle (hsame ▸ heq)
  refine ⟨?_, fun st hst => ⟨fun hmem => ?_, ?_⟩⟩
  · rw [List.map_append, List.nodup_append]
    refine ⟨(hinv.known m).once, List.nodup_iff_count_eq_one.mpr fun id hid => ?_, ?_⟩
    · have hsome := List.count_pos_iff.mpr hid
      obtain ⟨st, hst, rfl⟩ := List.mem_map.mp hid
      obtain ⟨k, hpos, hle, heq⟩ := hpeer hst
      have hone := (hinv.streams m.peer k hpos hle).tokens.refused
      simp only [view, pview, LinkMode.peer_peer, List.map_append, List.count_append] at hone
      rw [heq] at hsome ⊢
      omega
    · rintro _ hmem _ hmem' heq
      obtain ⟨st, hst, rfl⟩ := List.mem_map.mp hmem
      obtain ⟨st', hst', rfl⟩ := List.mem_map.mp hmem'
      exact hne hst (hpeer hst') heq
  · obtain ⟨st', hst', heq⟩ := List.mem_map.mp hmem
    obtain ⟨k, hpos, hle, hid, -⟩ := hown m.peer st' hst'
    exact hne hst ⟨k, hpos, hle, hid⟩ heq.symm
  · obtain ⟨k, hpos, hle, hid, hp⟩ := hown m st hst
    have hv := hinv.streams m k hpos hle
    have hsome := (hv.calls.accepted (.inl (by simp [view, oview, hp, Phase.call]))).1
    have hone := hv.tokens.refused
    simp only [view, pview, Endpoint.delivered, hid] at hsome hone ⊢
    omega

theorem stream_ids_apart_both : ∃ s : Link, (linkMachine fun _ => smallQueue .block).Reach HasIDs s ∧
    (((s .primary).opened = [⟨2, 0⟩] ∧ (s .primary).accepted = [⟨1, 0⟩] ∧
      (s .secondary).opened = [⟨1, 0⟩] ∧ (s .secondary).accepted = [⟨2, 0⟩]) ∧
    ∀ m, (((s m).opened ++ (s m).accepted).map Ref.id).Nodup ∧
      ∀ st ∈ (s m).opened, st.id ∉ (s m.peer).opened.map Ref.id ∧
        (s m.peer).delivered.count st.id = 1) :=
  Machine.exists_reach_and (bothListen ++ openAccepted .primary 1 ++ openAccepted .secondary 1)
    (by decide +kernel) fun _ hs _ => stream_ids_apart hs

end Hqq.Streams
