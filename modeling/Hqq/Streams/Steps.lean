import Hqq.Streams.Spec

/-!
# What a step of an endpoint can do

Every branch of `step`, with its guard and the endpoint after it.
-/

namespace Hqq.Streams

section Branch

variable (mode : LinkMode) (cfg : Config) (inc : Option Frame) (room : Bool)

inductive Branch (e : Endpoint) : Act → Endpoint → Prop
  | startDispatcher : Branch e .startDispatcher { e with dispatchStarted := true }
  | enter (who : Who) (hfree : e.receiver = none) : Branch e (.enter who) { e with receiver := some who }
  | leave {who : Who} (hrx : e.rx = .idle) (hwho : e.receiver = some who) :
    Branch e .leave { e with receiver := none }
  | leaveFailed {why : Failure} (hrx : e.rx = .failed why) (hwho : e.receiver = some .sync) :
    Branch e .leave { e with receiver := none, rx := .idle }
  | allocateZero (hzero : connID mode (e.connectionIDGenerator + 1) = 0) :
    Branch e .allocate { e with connectionIDGenerator := e.connectionIDGenerator + 1 }
  | allocate (hnz : connID mode (e.connectionIDGenerator + 1) ≠ 0) :
    Branch e .allocate { e.setPhase (e.connectionIDGenerator + 1) .allocated with
      connectionIDGenerator := e.connectionIDGenerator + 1 }
  | register {n : Nat} (hp : (e.calls n).phase = .allocated) (hlock : e.lock = .free) :
    Branch e (.register n) (((e.register (connID mode n)).setPending (connID mode n) (some n)).setPhase n
      (.registered (e.newRef (connID mode n))))
  | sendCreate {n : Nat} {st : Ref} (hp : (e.calls n).phase = .registered st) :
    Branch e (.sendCreate n) ((e.put (.connCreate (connID mode n))).setPhase n (.waiting st))
  | sendFail {n : Nat} {st : Ref} (hp : (e.calls n).phase = .registered st) :
    Branch e (.sendFail n) (e.setPhase n (.cleaning .unsent))
  | receiveAccepted {n : Nat} {st : Ref} (hp : (e.calls n).phase = .waiting st)
    (hr : (e.calls n).accepted = some .accepted) :
    Branch e (.receiveReply n) { e.setCall n ⟨.opened st, none⟩ with opened := st :: e.opened }
  | receiveRefused {n : Nat} {st : Ref} (hp : (e.calls n).phase = .waiting st)
    (hr : (e.calls n).accepted = some .refused) :
    Branch e (.receiveReply n) (e.setCall n ⟨.cleaning .refused, none⟩)
  | giveUp {n : Nat} {st : Ref} (hp : (e.calls n).phase = .waiting st) :
    Branch e (.giveUp n) (e.setPhase n (.cleaning .gaveUp))
  | cleanup {n : Nat} {why : Why} (hp : (e.calls n).phase = .cleaning why) (hlock : e.lock = .free) :
    Branch e (.cleanup n) (cleanup mode e n why)
  | dequeue {f : Frame} {who : Who} (hinc : inc = some f) (hrx : e.rx = .idle)
    (hwho : e.receiver = some who) :
    Branch e .dequeue { e with rx := .handling f, read := e.read + 1 }
  | hold {id : ConnID} (hrx : e.rx = .handling (.connCreate id)) (hlock : e.lock = .free)
    (hlisten : e.listening = false) (hroom : e.held.length + e.acceptSlots < cfg.queueSize) :
    Branch e .handle { e with held := e.held ++ [id], rx := .idle }
  | refuse {id : ConnID} {code : ErrorCode} (hrx : e.rx = .handling (.connCreate id))
    (hlock : e.lock = .free) : Branch e .handle { e with rx := .refusing id code }
  | create {id : ConnID} (hrx : e.rx = .handling (.connCreate id)) (hlock : e.lock = .free)
    (hlisten : e.listening = true) (hvalid : e.invalid mode id = false) :
    Branch e .handle { e.register id with rx := .reserving (e.newRef id) }
  | connAccept {id : ConnID} {n : Nat} (hrx : e.rx = .handling (.connAccept id)) (hlock : e.lock = .free)
    (hpend : e.pendingConnections id = some n) :
    Branch e .handle { e.setPending id none with rx := .replying n .accepted }
  | connAcceptUnknown {id : ConnID} (hrx : e.rx = .handling (.connAccept id)) (hlock : e.lock = .free)
    (hpend : e.pendingConnections id = none) : Branch e .handle { e with rx := .idle }
  | error {id : ConnID} {code : ErrorCode} {n : Nat} (hrx : e.rx = .handling (.error id code))
    (hlock : e.lock = .free) (hpend : e.pendingConnections id = some n) :
    Branch e .handle { (e.setPending id none).forget id with rx := .replying n .refused }
  | errorUnknown {id : ConnID} {code : ErrorCode} (hrx : e.rx = .handling (.error id code))
    (hlock : e.lock = .free) (hpend : e.pendingConnections id = none) :
    Branch e .handle { e with rx := .failed .opError }
  | connClose {id : ConnID} {g : Nat} (hrx : e.rx = .handling (.connClose id)) (hlock : e.lock = .free)
    (hreg : e.streams id = some g) (hpend : e.pendingConnections id = none) :
    Branch e .handle { e.forget id with rx := .peerClosing ⟨id, g⟩ }
  | connCloseUnknown {id : ConnID} (hrx : e.rx = .handling (.connClose id)) (hlock : e.lock = .free)
    (hunknown : e.streams id = none ∨ e.pendingConnections id ≠ none) :
    Branch e .handle { e with rx := .idle }
  | other (hrx : e.rx = .handling .other) : Branch e .handle { e with rx := .idle }
  | reserve {st : Ref} (hrx : e.rx = .reserving st) (hroom : e.acceptSlots < cfg.queueSize) :
    Branch e .reserve { e with acceptSlots := e.acceptSlots + 1, rx := .accepting st }
  | reserveDrop {st : Ref} (hrx : e.rx = .reserving st) (hfull : cfg.queueSize ≤ e.acceptSlots)
    (hpolicy : cfg.overflow = .drop) :
    Branch e .reserve { e with rx := .forgetting st (.refuse .bufferOverflow) }
  | reserveFail {st : Ref} (hrx : e.rx = .reserving st) (hfull : cfg.queueSize ≤ e.acceptSlots)
    (hpolicy : cfg.overflow = .fail) :
    Branch e .reserve { e with rx := .forgetting st (.fail .overflow) }
  | ctxDone {st : Ref} (hrx : e.rx = .reserving st) (hwho : e.receiver = some .sync)
    (hpolicy : cfg.overflow = .block) :
    Branch e .ctxDone { e with rx := .forgetting st (.fail .context) }
  | forget {st : Ref} {next : Next} (hrx : e.rx = .forgetting st next) (hlock : e.lock = .free) :
    Branch e .forget { e.forget st.id with rx := next.rx st }
  | unslot (hrx : e.rx = .unslotting) :
    Branch e .unslot { e with acceptSlots := e.acceptSlots - 1, rx := .idle }
  | answerAccept {st : Ref} (hrx : e.rx = .accepting st) (hroom : e.ctrlQueue.length < cfg.ctrlSize) :
    Branch e .answer { e with ctrlQueue := e.ctrlQueue ++ [.accept st], rx := .idle }
  | answerFull {st : Ref} (hrx : e.rx = .accepting st) (hfull : cfg.ctrlSize ≤ e.ctrlQueue.length) :
    Branch e .answer { e with rx := .forgetting st .unslot }
  | answerRefuse {id : ConnID} {code : ErrorCode} (hrx : e.rx = .refusing id code) :
    Branch e .answer { e.enqueue cfg (.error id code) with rx := .idle }
  | reply {n : Nat} {r : Reply} (hrx : e.rx = .replying n r) (hempty : (e.calls n).accepted = none) :
    Branch e .reply { e.setCall n { e.calls n with accepted := some r } with rx := .idle }
  | markPeer {st : Ref} (hrx : e.rx = .peerClosing st) :
    Branch e .markPeer { e.setStream st { e.stream st with peerClosed := true } with rx := .idle }
  | listen (hlock : e.lock = .free) :
    Branch e .listen { e with listening := true, held := [], lock := .admitting e.held }
  | unlisten (hlock : e.lock = .free) : Branch e .unlisten { e with listening := false }
  | admitDone (hlock : e.lock = .admitting []) : Branch e .admitHeld { e with lock := .free }
  | admitRefuse {id : ConnID} {rest : List ConnID} {code : ErrorCode}
    (hlock : e.lock = .admitting (id :: rest)) :
    Branch e .admitHeld { e.enqueue cfg (.error id code) with lock := .admitting rest }
  | admitSlot {id : ConnID} {rest : List ConnID} (hlock : e.lock = .admitting (id :: rest))
    (hvalid : e.invalid mode id = false) (hroom : e.acceptSlots < cfg.queueSize) :
    Branch e .admitHeld { e with acceptSlots := e.acceptSlots + 1, lock := .slotted id rest }
  | admitAccept {id : ConnID} {rest : List ConnID} (hlock : e.lock = .slotted id rest)
    (hroom : e.ctrlQueue.length < cfg.ctrlSize) :
    Branch e .admitHeld { e.register id with
      ctrlQueue := e.ctrlQueue ++ [.accept (e.newRef id)], lock := .admitting rest }
  | admitFull {id : ConnID} {rest : List ConnID} (hlock : e.lock = .slotted id rest)
    (hfull : cfg.ctrlSize ≤ e.ctrlQueue.length) :
    Branch e .admitHeld { e with lock := .unslotting rest }
  | admitUnslot {rest : List ConnID} (hlock : e.lock = .unslotting rest) :
    Branch e .admitHeld { e with acceptSlots := e.acceptSlots - 1, lock := .admitting rest }
  | releaseDone (hlock : e.lock = .releasing []) : Branch e .admitHeld { e with lock := .free }
  | releaseRefuse {id : ConnID} {rest : List ConnID} (hlock : e.lock = .releasing (id :: rest)) :
    Branch e .admitHeld { e.enqueue cfg (.error id .connNotFound) with lock := .releasing rest }
  | expire {i : Nat} {id : ConnID} (hheld : e.held[i]? = some id) (hlock : e.lock = .free) :
    Branch e (.expire i) { e.enqueue cfg (.error id .connNotFound) with held := e.held.eraseIdx i }
  | releaseHeld (hlock : e.lock = .free) :
    Branch e .releaseHeld { e with held := [], lock := .releasing e.held }
  | failPending {id : ConnID} {n : Nat} {why : Failure} (hrx : e.rx = .failed why)
    (hwho : e.receiver = some .dispatcher) (hpend : e.pendingConnections id = some n)
    (hlock : e.lock = .free) :
    Branch e (.failPending id) (((e.setPending id none).forget id).setCall n
      { e.calls n with accepted := (e.calls n).accepted.or (some .refused) })
  | pop {job : Job} {rest : List Job} (hsender : e.sender = .idle) (hqueue : e.ctrlQueue = job :: rest) :
    Branch e .pop { e with sender := .sending job, ctrlQueue := rest }
  | send {job : Job} (hsender : e.sender = .sending job) :
    Branch e .send { e.put job.frame with sender := job.sender }
  | deliver {st : Ref} (hsender : e.sender = .delivering st) :
    Branch e .deliver { e with acceptCh := e.acceptCh ++ [st], sender := .idle }
  | queueOther : Branch e .queueOther (e.enqueue cfg .other)
  | acceptStream {st : Ref} {rest : List Ref} (hch : e.acceptCh = st :: rest) :
    Branch e .acceptStream { e with acceptCh := rest, returning := e.returning ++ [st] }
  | releaseSlot {i : Nat} {st : Ref} (hret : e.returning[i]? = some st) :
    Branch e (.releaseSlot i) { e with
      acceptSlots := e.acceptSlots - 1
      returning := e.returning.eraseIdx i
      accepted := st :: e.accepted }
  | load {st : Ref} (hst : st ∈ e.opened ∨ st ∈ e.accepted) :
    Branch e (.load st) { e with loads := (st, (e.stream st).peerClosed) :: e.loads }
  | mark {i : Nat} {st : Ref} {pc : Bool} (hload : e.loads[i]? = some (st, pc))
    (hlive : (e.stream st).closing = .live) :
    Branch e (.mark i)
      { e.setStream st { e.stream st with closing := .marked pc } with loads := e.loads.eraseIdx i }
  | markTwice {i : Nat} : Branch e (.mark i) { e with loads := e.loads.eraseIdx i }
  | closeForget {st : Ref} {pc : Bool} (hc : (e.stream st).closing = .marked pc)
    (hlock : e.lock = .free) :
    Branch e (.close st) ((e.forget st.id).setStream st { e.stream st with closing := .forgotten pc })
  | closeSilent {st : Ref} (hc : (e.stream st).closing = .forgotten true) :
    Branch e (.close st) (e.setStream st { e.stream st with closing := .done })
  | closeSend {st : Ref} (hc : (e.stream st).closing = .forgotten false) :
    Branch e (.close st) ((e.put (.connClose st.id)).setStream st { e.stream st with closing := .done })

end Branch

variable {mode : LinkMode} {cfg : Config} {inc : Option Frame} {room : Bool} {e e' : Endpoint} {a : Act}

theorem handle_branch {f : Frame} (hrx : e.rx = .handling f) (hlock : e.lock = .free) :
    Branch mode cfg inc e .handle (handleFrame mode cfg e f) := by
  cases f with
  | connCreate id =>
    simp only [handleFrame, handleConnCreate]
    split
    · rename_i hlisten
      split
      · rename_i hgrace
        simp only [Bool.and_eq_true, decide_eq_true_eq] at hgrace
        exact .hold hrx hlock (by simpa using hlisten) hgrace.2
      · exact .refuse hrx hlock
    · rename_i hlisten
      split
      · exact .refuse hrx hlock
      · rename_i hvalid
        exact .create hrx hlock (by simpa using hlisten) (by simpa using hvalid)
  | connAccept id =>
    simp only [handleFrame, handleConnAccept]
    split
    · exact .connAccept hrx hlock ‹_›
    · exact .connAcceptUnknown hrx hlock ‹_›
  | connClose id =>
    simp only [handleFrame, handlePeerClose]
    split
    · exact .connClose hrx hlock ‹_› ‹_›
    · rename_i hnot
      refine .connCloseUnknown hrx hlock ?_
      rcases hreg : e.streams id with _ | g
      · exact .inl rfl
      · exact .inr fun hpend => hnot g hreg hpend
  | error id code =>
    simp only [handleFrame, routeControlError]
    split
    · exact .error hrx hlock ‹_›
    · exact .errorUnknown hrx hlock ‹_›
  | other => exact .other hrx

theorem admit_branch (hstep : admitHeld mode cfg e e.lock = some e') : Branch mode cfg inc e .admitHeld e' := by
  cases hlock : e.lock with
  | free => simp [admitHeld, hlock] at hstep
  | admitting rest =>
    rw [hlock] at hstep
    cases rest with
    | nil =>
      cases hstep
      exact .admitDone hlock
    | cons id rest =>
      simp only [admitHeld] at hstep
      split at hstep
      · cases hstep
        exact .admitRefuse hlock
      · rename_i hvalid
        split at hstep
        · cases hstep
          exact .admitSlot hlock (by simpa using hvalid) ‹_›
        · cases hstep
          exact .admitRefuse hlock
  | slotted id rest =>
    simp only [hlock, admitHeld] at hstep
    split at hstep
    · rename_i hroom
      cases hstep
      have h : Branch mode cfg inc e .admitHeld _ := .admitAccept hlock hroom
      simpa [Config.enqueue, hroom] using h
    · cases hstep
      exact .admitFull hlock (by omega)
  | unslotting rest =>
    rw [hlock] at hstep
    cases hstep
    exact .admitUnslot hlock
  | releasing rest =>
    rw [hlock] at hstep
    cases rest with
    | nil =>
      cases hstep
      exact .releaseDone hlock
    | cons id rest =>
      cases hstep
      exact .releaseRefuse hlock

theorem close_branch {st : Ref} (hstep : close room e st = some e') :
    Branch mode cfg inc e (.close st) e' := by
  unfold close at hstep
  split at hstep
  · obtain ⟨hlock, rfl⟩ := Machine.of_guard hstep
    exact .closeForget ‹_› hlock
  · cases hstep
    exact .closeSilent ‹_›
  · obtain ⟨-, rfl⟩ := Machine.of_guard hstep
    exact .closeSend ‹_›
  · cases hstep
  · cases hstep

theorem answer_branch (hstep : answer cfg e e.rx = some e') : Branch mode cfg inc e .answer e' := by
  unfold answer at hstep
  split at hstep
  · rename_i st hrx
    split at hstep
    · rename_i hroom
      cases hstep
      have h : Branch mode cfg inc e .answer _ := .answerAccept hrx hroom
      simpa [Config.enqueue, hroom] using h
    · cases hstep
      exact .answerFull hrx (by omega)
  · cases hstep
    exact .answerRefuse ‹_›
  · cases hstep

theorem reserve_branch {st : Ref} (hrx : e.rx = .reserving st) (hstep : reserve cfg e st = some e') :
    Branch mode cfg inc e .reserve e' := by
  unfold reserve at hstep
  split at hstep
  · cases hstep
    exact .reserve hrx ‹_›
  · split at hstep
    · cases hstep
    · cases hstep
      exact .reserveDrop hrx (by omega) ‹_›
    · cases hstep
      exact .reserveFail hrx (by omega) ‹_›

theorem step_branch (hstep : step mode cfg inc room e a = some e') : Branch mode cfg inc e a e' := by
  cases a with
  | startDispatcher =>
    cases hstep
    exact .startDispatcher
  | queueOther =>
    cases hstep
    exact .queueOther
  | admitHeld => exact admit_branch hstep
  | answer => exact answer_branch hstep
  | close st => exact close_branch hstep
  | enter who =>
    obtain ⟨⟨hfree, -⟩, rfl⟩ := Machine.of_guard hstep
    exact .enter who hfree
  | allocate =>
    simp only [step] at hstep
    split at hstep
    · cases hstep
    · split at hstep
      · cases hstep
        exact .allocateZero ‹_›
      · cases hstep
        exact .allocate ‹_›
  | register n =>
    obtain ⟨⟨hp, hlock⟩, rfl⟩ := Machine.of_guard hstep
    exact .register hp hlock
  | handle =>
    simp only [step] at hstep
    split at hstep
    · obtain ⟨hlock, rfl⟩ := Machine.of_guard hstep
      exact handle_branch ‹_› hlock
    · cases hstep
  | reserve =>
    simp only [step] at hstep
    split at hstep
    · exact reserve_branch ‹_› hstep
    · cases hstep
  | listen =>
    obtain ⟨⟨hlock, -⟩, rfl⟩ := Machine.of_guard hstep
    exact .listen hlock
  | unlisten | releaseHeld | load _ =>
    obtain ⟨hg, rfl⟩ := Machine.of_guard hstep
    constructor
    exact hg
  | mark i =>
    simp only [step] at hstep
    split at hstep
    · split at hstep
      · cases hstep
        exact .mark ‹_› ‹_›
      · cases hstep
        exact .markTwice
    · cases hstep
  -- the rest have one branch for each state that they match, under a guard or not
  | sendCreate _ | cleanup _ | forget | reply | failPending _ | send | deliver =>
    simp only [step] at hstep
    split at hstep
    · obtain ⟨hg, rfl⟩ := Machine.of_guard hstep
      constructor <;> assumption
    · cases hstep
  | _ =>
    simp only [step] at hstep
    split at hstep <;> cases hstep
    all_goals constructor <;> first | assumption | rfl

end Hqq.Streams
