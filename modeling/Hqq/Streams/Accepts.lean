import Hqq.Streams.Answers

/-!
# The endpoint settles

The goroutines of the link, the grace timers and calls of `AcceptStream` always lead to a state in
which every create is answered and every accepted stream returned.
-/

namespace Hqq.Streams

/-! ## The work that is left -/

def Rx.work : Rx → Nat
  | .idle | .failed _ => 0
  | .handling _ => 9
  | .reserving _ => 8
  | .forgetting _ _ => 7
  | .accepting _ | .refusing _ _ => 6
  | .unslotting | .replying _ _ | .peerClosing _ => 1

def Lock.work : Lock → Nat
  | .free => 0
  | .admitting rest | .releasing rest => 1 + 7 * rest.length
  | .slotted _ rest => 7 + 7 * rest.length
  | .unslotting rest => 2 + 7 * rest.length

def Sender.work : Sender → Nat
  | .idle => 0
  | .sending _ => 4
  | .delivering _ => 3

def Endpoint.work (e : Endpoint) : Nat :=
  e.rx.work + e.lock.work + 6 * e.held.length + 5 * e.ctrlQueue.length + e.sender.work +
    2 * e.acceptCh.length + e.returning.length

def Act.settles : Act → Bool
  | .handle | .reserve | .forget | .unslot | .answer | .reply | .markPeer | .admitHeld | .expire _ | .pop
  | .send | .deliver | .acceptStream | .releaseSlot _ => true
  | _ => false

variable {mode : LinkMode} {cfg : Config} {inc : Option Frame} {e e' : Endpoint} {a : Act}

variable (mode cfg inc e) in
def Progress : Prop :=
  ∃ a e', a.settles = true ∧ (a.answers = true → e.ctrlQueue.length < cfg.ctrlSize) ∧
    step mode cfg inc true e a = some e' ∧ e'.work < e.work

theorem Config.ctrlSize_pos (cfg : Config) : 0 < cfg.ctrlSize := by
  unfold Config.ctrlSize minControlQueue
  omega

/-! ## The control sender and AcceptStream -/

theorem progress_sending {job : Job} (hs : e.sender = .sending job) : Progress mode cfg inc e := by
  refine ⟨.send, { e.put job.frame with sender := job.sender }, rfl, nofun, by simp [step, hs], ?_⟩
  simp only [Endpoint.work, Endpoint.put, hs]
  cases job <;> simp only [Job.sender, Sender.work] <;> omega

theorem progress_delivering {st : Ref} (hslots : e.SlotsOk cfg) (hs : e.sender = .delivering st) :
    Progress mode cfg inc e := by
  obtain ⟨heq, hle⟩ := hslots
  have hroom : e.acceptCh.length < cfg.queueSize := by
    simp only [Endpoint.slots, hs, Sender.slots] at heq
    omega
  refine ⟨.deliver, { e with acceptCh := e.acceptCh ++ [st], sender := .idle }, rfl, by simp [Act.answers],
    by simp [step, hs, hroom], ?_⟩
  simp only [Endpoint.work, hs, Sender.work, List.length_append, List.length_singleton]
  omega

theorem progress_queue {job : Job} {rest : List Job} (hs : e.sender = .idle)
    (hq : e.ctrlQueue = job :: rest) : Progress mode cfg inc e := by
  refine ⟨.pop, { e with sender := .sending job, ctrlQueue := rest }, rfl, nofun,
    by simp [step, hs, hq], ?_⟩
  simp only [Endpoint.work, hs, hq, Sender.work, List.length_cons]
  omega

theorem progress_acceptCh {st : Ref} {rest : List Ref} (hch : e.acceptCh = st :: rest) :
    Progress mode cfg inc e := by
  refine ⟨.acceptStream, { e with acceptCh := rest, returning := e.returning ++ [st] }, rfl, nofun,
    by simp [step, hch], ?_⟩
  simp only [Endpoint.work, hch, List.length_cons, List.length_append, List.length_nil]
  omega

theorem progress_returning {st : Ref} {rest : List Ref} (hret : e.returning = st :: rest) :
    Progress mode cfg inc e := by
  refine ⟨.releaseSlot 0, _, rfl, nofun, by simp only [step, hret, List.getElem?_cons_zero]; rfl, ?_⟩
  simp only [Endpoint.work, hret, List.length_cons, List.eraseIdx_zero, List.tail_cons]
  omega

/-! ## ListenStreams and releaseHeld -/

theorem progress_lock (hq : e.ctrlQueue = []) (hlock : e.lock ≠ .free) : Progress mode cfg inc e := by
  have hroom : e.ctrlQueue.length < cfg.ctrlSize := by
    rw [hq]
    exact cfg.ctrlSize_pos
  -- what is left to show once the step is known
  have hdone : ∀ e', admitHeld mode cfg e e.lock = some e' → e'.work < e.work → Progress mode cfg inc e :=
    fun e' hs hlt => ⟨.admitHeld, e', rfl, fun _ => hroom, hs, hlt⟩
  cases hl : e.lock with
  | free => exact absurd hl hlock
  | admitting rest =>
    cases rest with
    | nil =>
      refine hdone { e with lock := .free } (by rw [hl]; rfl) ?_
      simp only [Endpoint.work, hl, Lock.work]
      omega
    | cons id rest =>
      have hrefuse : ∀ code, ({ e.enqueue cfg (.error id code) with lock := .admitting rest } :
          Endpoint).work < e.work := by
        intro code
        rw [Endpoint.enqueue, enqueue_of_room hroom]
        simp only [Endpoint.work, hl, Lock.work, List.length_append, List.length_cons, List.length_nil]
        omega
      by_cases hinvalid : e.invalid mode id = true
      · exact hdone _ (by rw [hl]; simp only [admitHeld, hinvalid, if_true]; rfl) (hrefuse _)
      · by_cases hslot : e.acceptSlots < cfg.queueSize
        · refine hdone { e with acceptSlots := e.acceptSlots + 1, lock := .slotted id rest }
            (by rw [hl]; simp [admitHeld, hinvalid, hslot]) ?_
          simp only [Endpoint.work, hl, Lock.work, List.length_cons]
          omega
        · exact hdone _ (by rw [hl]; simp only [admitHeld, hinvalid, hslot, if_false]; rfl) (hrefuse _)
  | slotted id rest =>
    refine hdone { (e.register id).enqueue cfg (.accept (e.newRef id)) with lock := .admitting rest }
      (by rw [hl]; simp [admitHeld, hroom]) ?_
    simp only [Endpoint.work, Endpoint.enqueue, Endpoint.register, enqueue_of_room hroom, hl, Lock.work,
      List.length_append, List.length_singleton]
    omega
  | unslotting rest =>
    refine hdone { e with acceptSlots := e.acceptSlots - 1, lock := .admitting rest }
      (by rw [hl]; rfl) ?_
    simp only [Endpoint.work, hl, Lock.work]
    omega
  | releasing rest =>
    cases rest with
    | nil =>
      refine hdone { e with lock := .free } (by rw [hl]; rfl) ?_
      simp only [Endpoint.work, hl, Lock.work]
      omega
    | cons id rest =>
      refine hdone { e.enqueue cfg (.error id .connNotFound) with lock := .releasing rest }
        (by rw [hl]; rfl) ?_
      rw [Endpoint.enqueue, enqueue_of_room hroom]
      simp only [Endpoint.work, hl, Lock.work, List.length_append, List.length_cons, List.length_nil]
      omega

theorem handleFrame_work {f : Frame} (hrx : e.rx = .handling f) :
    (handleFrame mode cfg e f).work < e.work := by
  unfold Endpoint.work
  rw [hrx]
  cases f with
  | connCreate id =>
    simp only [handleFrame, handleConnCreate]
    split
    · split
      · simp only [Rx.work, List.length_append, List.length_singleton]
        omega
      · simp only [Rx.work]
        omega
    · split
      · simp only [Rx.work]
        omega
      · simp only [Rx.work, Endpoint.register]
        omega
  | connAccept id =>
    simp only [handleFrame, handleConnAccept]
    split <;> simp only [Rx.work, Endpoint.setPending] <;> omega
  | connClose id =>
    simp only [handleFrame, handlePeerClose]
    split <;> simp only [Rx.work, Endpoint.forget] <;> omega
  | error id code =>
    simp only [handleFrame, routeControlError]
    split <;> simp only [Rx.work, Endpoint.setPending, Endpoint.forget] <;> omega
  | other =>
    simp only [handleFrame, Rx.work]
    omega

theorem progress_rx (hslots : e.SlotsOk cfg) (hreplies : e.RepliesOk mode) (hlock : e.lock = .free)
    (hq : e.ctrlQueue = []) (hsender : e.sender = .idle) (hch : e.acceptCh = [])
    (hret : e.returning = []) (hrx : 0 < e.rx.work) : Progress mode cfg inc e := by
  have hroom : e.ctrlQueue.length < cfg.ctrlSize := by
    rw [hq]
    exact cfg.ctrlSize_pos
  cases h : e.rx with
  | idle | failed why => simp [h, Rx.work] at hrx
  | handling f =>
    exact ⟨.handle, handleFrame mode cfg e f, rfl, by simp [Act.answers], by simp [step, h, hlock],
      handleFrame_work h⟩
  | reserving st =>
    -- nobody else has a slot
    have hfree : e.acceptSlots < cfg.queueSize := by
      have heq := hslots.1
      simp only [Endpoint.slots, h, hlock, hq, hsender, hch, hret, Rx.slots, Lock.slots, Sender.slots,
        List.countP_nil, List.length_nil] at heq
      have := cfg.queueSize_pos
      omega
    refine ⟨.reserve, { e with acceptSlots := e.acceptSlots + 1, rx := .accepting st }, rfl,
      by simp [Act.answers], by simp [step, h, reserve, hfree], ?_⟩
    simp only [Endpoint.work, h, Rx.work]
    omega
  | accepting st =>
    refine ⟨.answer, _, rfl, fun _ => hroom, by simp only [step, h, answer, hroom, if_true]; rfl, ?_⟩
    rw [Endpoint.enqueue, enqueue_of_room hroom]
    simp only [Endpoint.work, h, Rx.work, List.length_append, List.length_singleton]
    omega
  | refusing id code =>
    refine ⟨.answer, _, rfl, fun _ => hroom, by simp only [step, h, answer]; rfl, ?_⟩
    rw [Endpoint.enqueue, enqueue_of_room hroom]
    simp only [Endpoint.work, h, Rx.work, List.length_append, List.length_singleton]
    omega
  | forgetting st next =>
    refine ⟨.forget, { e.forget st.id with rx := next.rx st }, rfl, by simp [Act.answers],
      by simp [step, h, hlock], ?_⟩
    cases next <;> simp only [Endpoint.work, Endpoint.forget, h, Next.rx, Rx.work] <;> omega
  | unslotting =>
    refine ⟨.unslot, { e with acceptSlots := e.acceptSlots - 1, rx := .idle }, rfl, by simp [Act.answers],
      by simp [step, h], ?_⟩
    simp only [Endpoint.work, h, Rx.work]
    omega
  | replying n r =>
    have hempty := hreplies.replying n r h
    refine ⟨.reply, { e.setCall n { e.calls n with accepted := some r } with rx := .idle }, rfl,
      by simp [Act.answers], by simp [step, h, hempty], ?_⟩
    simp only [Endpoint.work, Endpoint.setCall, h, Rx.work]
    omega
  | peerClosing st =>
    refine ⟨.markPeer, _, rfl, by simp [Act.answers], by simp only [step, h]; rfl, ?_⟩
    simp only [Endpoint.work, Endpoint.setStream, h, Rx.work]
    omega

theorem progress_held {id : ConnID} {rest : List ConnID} (hlock : e.lock = .free) (hq : e.ctrlQueue = [])
    (hheld : e.held = id :: rest) : Progress mode cfg inc e := by
  have hroom : e.ctrlQueue.length < cfg.ctrlSize := by
    rw [hq]
    exact cfg.ctrlSize_pos
  refine ⟨.expire 0, _, rfl, fun _ => hroom,
    by simp only [step, hheld, hlock, List.getElem?_cons_zero]; rfl, ?_⟩
  rw [Endpoint.enqueue, enqueue_of_room hroom]
  simp only [Endpoint.work, hheld, List.length_append, List.length_cons, List.length_nil,
    List.eraseIdx_zero, List.tail_cons]
  omega

theorem progress (hslots : e.SlotsOk cfg) (hreplies : e.RepliesOk mode) (hwork : 0 < e.work) :
    Progress mode cfg inc e := by
  rcases hs : e.sender with _ | job | st
  · rcases hq : e.ctrlQueue with _ | ⟨job, rest⟩
    · rcases hch : e.acceptCh with _ | ⟨st, rest⟩
      · rcases hret : e.returning with _ | ⟨st, rest⟩
        · by_cases hlock : e.lock = .free
          · by_cases hrx : 0 < e.rx.work
            · exact progress_rx hslots hreplies hlock hq hs hch hret hrx
            · rcases hheld : e.held with _ | ⟨id, rest⟩
              · simp only [Endpoint.work, hs, hq, hch, hret, hlock, hheld, Lock.work, Sender.work,
                  List.length_nil] at hwork
                omega
              · exact progress_held hlock hq hheld
          · exact progress_lock hq hlock
        · exact progress_returning hret
      · exact progress_acceptCh hch
    · exact progress_queue hs hq
  · exact progress_sending hs
  · exact progress_delivering hslots hs

def Alone.received (s : Alone) : List ConnID := (s.inc.take s.ep.read).filterMap Frame.create?

/-- An answer to a create finds room in the control queue. -/
def HasRoom (cfg : Config) (s : Alone) : AloneAct → Prop
  | .arrive _ => True
  | .act a => a.answers = true → s.ep.ctrlQueue.length < cfg.ctrlSize

/-- And no receiver's context ends while it waits for an accept slot. -/
def Patient (cfg : Config) (s : Alone) (a : AloneAct) : Prop := HasRoom cfg s a ∧ a ≠ .act .ctxDone

structure Alone.Inv (mode : LinkMode) (cfg : Config) (s : Alone) : Prop where
  tally : ∀ id, s.ep.tally id = s.received.count id
  delivers : s.ep.Delivers
  slots : s.ep.SlotsOk cfg
  replies : s.ep.RepliesOk mode

theorem step_read {room : Bool} (hstep : step mode cfg inc room e a = some e') :
    e'.read = e.read ∨ (e'.read = e.read + 1 ∧ a = .dequeue ∧ inc.isSome) := by
  cases step_branch hstep
  case dequeue hinc _ _ => exact .inr ⟨rfl, rfl, by simp [hinc]⟩
  all_goals exact .inl rfl

theorem Act.received_of_ne (h : a ≠ .dequeue) : a.received inc = [] := by
  cases a <;> first | rfl | exact absurd rfl h

theorem count_take_succ {l : List Frame} {k : Nat} {f : Frame} (h : l[k]? = some f) (id : ConnID) :
    ((l.take (k + 1)).filterMap Frame.create?).count id =
      ((l.take k).filterMap Frame.create?).count id + f.create?.toList.count id := by
  rw [List.take_add_one, h]
  cases hf : f.create? <;> simp [hf]

section

variable {s s' : Alone}

theorem Alone.Inv.act (h : s.Inv mode cfg) (hpolicy : cfg.overflow ≠ .fail)
    (hroom : a.answers = true → s.ep.ctrlQueue.length < cfg.ctrlSize) (hctx : a ≠ .ctxDone)
    (hstep : step mode cfg s.inc[s.ep.read]? true s.ep a = some e') :
    Alone.Inv mode cfg { s with ep := e' } := by
  have hbranch := step_branch hstep
  refine ⟨fun id => ?_, hbranch.delivers h.delivers, hbranch.slotsOk h.slots,
    hbranch.repliesOk h.replies⟩
  rw [hbranch.tally hpolicy hroom hctx id, h.tally id]
  unfold Alone.received
  rcases step_read hstep with hread | ⟨hread, rfl, hsome⟩
  · have hne : a ≠ .dequeue := by
      rintro rfl
      cases hbranch
      simp at hread
    rw [Act.received_of_ne hne, hread]
    rfl
  · obtain ⟨f, hf⟩ := Option.isSome_iff_exists.mp hsome
    simp only [hread, count_take_succ hf, hf, Act.received, Option.bind_some]

theorem Alone.Inv.arrive (h : s.Inv mode cfg) (f : Frame) (hread : s.ep.read ≤ s.inc.length) :
    Alone.Inv mode cfg { s with inc := s.inc ++ [f] } := by
  refine ⟨fun id => ?_, h.delivers, h.slots, h.replies⟩
  rw [h.tally id]
  unfold Alone.received
  rw [List.take_append_of_le_length hread]

theorem Endpoint.fresh_sound : (Alone.mk [] .fresh).Inv mode cfg ∧ (Endpoint.fresh).read ≤ 0 := by
  refine ⟨⟨fun id => rfl, fun id => rfl, ⟨rfl, Nat.zero_le _⟩, ?_⟩, Nat.le_refl 0⟩
  exact ⟨fun _ _ => rfl, fun _ _ => ⟨rfl, nofun, nofun⟩, nofun, nofun, nofun⟩

theorem alone_inv (hpolicy : cfg.overflow ≠ .fail)
    (h : (aloneMachine mode cfg).Reach (Patient cfg) s) : s.Inv mode cfg ∧ s.ep.read ≤ s.inc.length := by
  refine h.invariant (I := fun s => s.Inv mode cfg ∧ s.ep.read ≤ s.inc.length) Endpoint.fresh_sound ?_
  rintro s a s' - ⟨hinv, hread⟩ ⟨hroom, hctx⟩ hstep
  cases a with
  | arrive f =>
    cases hstep
    refine ⟨hinv.arrive f hread, ?_⟩
    simp only [List.length_append, List.length_singleton]
    omega
  | act a =>
    obtain ⟨e', he', rfl⟩ := Option.map_eq_some_iff.mp hstep
    refine ⟨hinv.act hpolicy hroom (fun hc => hctx (by rw [hc])) he', ?_⟩
    rcases step_read he' with hsame | ⟨hnext, -, hsome⟩
    · exact hsame ▸ hread
    · obtain ⟨f, hf⟩ := Option.isSome_iff_exists.mp hsome
      have := (List.getElem?_eq_some_iff.mp hf).1
      dsimp only at hnext ⊢
      omega

/-! ## Every create is answered -/

variable (mode cfg) in
def SettlesBy (s : Alone) (as : List Act) (s' : Alone) : Prop :=
  (∀ a ∈ as, Act.settles a = true) ∧ (aloneMachine mode cfg).runFrom s (as.map .act) = some s'

theorem SettlesBy.cons {as : List Act} (ha : a.settles = true)
    (hstep : step mode cfg s.inc[s.ep.read]? true s.ep a = some e')
    (h : SettlesBy mode cfg { s with ep := e' } as s') : SettlesBy mode cfg s (a :: as) s' := by
  refine ⟨fun b hb => ?_, ?_⟩
  · rcases List.mem_cons.mp hb with rfl | hb
    · exact ha
    · exact h.1 b hb
  · rw [List.map_cons, Machine.runFrom_cons]
    have : (aloneMachine mode cfg).step s (.act a) = some { s with ep := e' } := by
      simp only [aloneMachine, hstep, Option.map_some]
    rw [this]
    exact h.2

theorem settles_read (ha : a.settles = true)
    (hstep : step mode cfg s.inc[s.ep.read]? true s.ep a = some e') : e'.read = s.ep.read := by
  rcases step_read hstep with hread | ⟨-, rfl, -⟩
  · exact hread
  · cases ha

theorem settles (hpolicy : cfg.overflow ≠ .fail) (h : s.Inv mode cfg) :
    ∃ as s', SettlesBy mode cfg s as s' ∧ s'.Inv mode cfg ∧ s'.ep.work = 0 ∧
      s'.received = s.received := by
  induction hw : s.ep.work using Nat.strong_induction_on generalizing s with
  | _ w ih =>
    by_cases hzero : 0 < s.ep.work
    · have hprogress : Progress mode cfg s.inc[s.ep.read]? s.ep := progress h.slots h.replies hzero
      obtain ⟨a, e', ha, hroom, hstep, hlt⟩ := hprogress
      have hctx : a ≠ .ctxDone := by
        rintro rfl
        cases ha
      have hnext := h.act hpolicy hroom hctx hstep
      obtain ⟨as, s', hrun, hinv, hdone, hsame⟩ := ih _ (hw ▸ hlt) hnext rfl
      refine ⟨a :: as, s', .cons ha hstep hrun, hinv, hdone, hsame.trans ?_⟩
      simp only [Alone.received, settles_read ha hstep]
    · exact ⟨[], s, ⟨nofun, rfl⟩, h, by omega, rfl⟩

theorem unanswered_of_work (h : e.work = 0) : e.unanswered = [] := by
  simp only [Endpoint.work] at h
  have hrx : e.rx.create? = none := by
    cases hr : e.rx with
    | idle | failed why | unslotting | replying n r | peerClosing st => rfl
    | handling f | reserving st | accepting st | forgetting st next | refusing id code =>
      simp only [hr, Rx.work] at h
      omega
  have hlock : e.lock = .free := by
    cases hl : e.lock with
    | free => rfl
    | admitting rest | slotted id rest | unslotting rest | releasing rest =>
      simp only [hl, Lock.work] at h
      omega
  have hsender : e.sender = .idle := by
    cases hs : e.sender with
    | idle => rfl
    | sending job | delivering st =>
      simp only [hs, Sender.work] at h
      omega
  have hheld : e.held = [] := List.eq_nil_of_length_eq_zero (by omega)
  have hqueue : e.ctrlQueue = [] := List.eq_nil_of_length_eq_zero (by omega)
  simp [Endpoint.unanswered, hrx, hlock, hsender, hheld, hqueue, Lock.creates, Sender.answer?]

theorem delivered_of_work (h : e.work = 0) : e.delivered = e.accepted.map Ref.id := by
  simp only [Endpoint.work] at h
  have hsender : e.sender = .idle := by
    cases hs : e.sender with
    | idle => rfl
    | sending job | delivering st =>
      simp only [hs, Sender.work] at h
      omega
  have hch : e.acceptCh = [] := List.eq_nil_of_length_eq_zero (by omega)
  have hret : e.returning = [] := List.eq_nil_of_length_eq_zero (by omega)
  simp [Endpoint.delivered, hsender, hch, hret, Sender.delivering?]

/-- Every create that was received is answered once, and every stream whose accept was sent is
given to `AcceptStream` once, after the accept. -/
structure AnsweredOnce (mode : LinkMode) (cfg : Config) (s : Alone) : Prop where
  once : ∀ id, s.received.count id = s.ep.unanswered.count id + s.ep.answers.count id
  delivered : ∀ id, (s.ep.sent.filterMap Frame.accept?).count id = s.ep.delivered.count id
  settles : ∃ as s', SettlesBy mode cfg s as s' ∧ s'.received = s.received ∧ s'.ep.unanswered = [] ∧
    ∀ id, s'.ep.answers.count id = s.received.count id ∧
      (s'.ep.accepted.map Ref.id).count id = (s'.ep.sent.filterMap Frame.accept?).count id

theorem creates_answered (hpolicy : cfg.overflow ≠ .fail)
    (h : (aloneMachine mode cfg).Reach (Patient cfg) s) : AnsweredOnce mode cfg s := by
  obtain ⟨hinv, -⟩ := alone_inv hpolicy h
  refine ⟨fun id => (hinv.tally id).symm, hinv.delivers, ?_⟩
  obtain ⟨as, s', hrun, hinv', hwork, hsame⟩ := Streams.settles hpolicy hinv
  have hnone := unanswered_of_work hwork
  refine ⟨as, s', hrun, hsame, hnone, fun id => ⟨?_, ?_⟩⟩
  · have htally := hinv'.tally id
    rw [hsame] at htally
    simpa [Endpoint.tally, hnone] using htally
  · rw [← delivered_of_work hwork]
    exact (hinv'.delivers id).symm

end

def smallQueue (overflow : OverflowPolicy) : Config where
  overflow := overflow
  queueSize := 1
  queueSize_pos := by decide
  bufferCount := 2
  bufferCount_pos := by decide
  grace := true

instance (cfg : Config) (s : Alone) (a : AloneAct) : Decidable (HasRoom cfg s a) :=
  match a with
  | .arrive _ => isTrue trivial
  | .act a => inferInstanceAs (Decidable (a.answers = true → _))

instance (cfg : Config) (s : Alone) (a : AloneAct) : Decidable (Patient cfg s a) :=
  inferInstanceAs (Decidable (_ ∧ _))

theorem creates_answered_held_and_dropped : ∃ s : Alone,
    (aloneMachine .primary (smallQueue .drop)).Reach (Patient (smallQueue .drop)) s ∧
      (s.received = [1, 3] ∧ s.ep.sent = [.connAccept 1, .error 3 .bufferOverflow]) ∧
      AnsweredOnce .primary (smallQueue .drop) s :=
  Machine.exists_reach_and [.act .startDispatcher, .act (.enter .dispatcher), .arrive (.connCreate 1),
    .arrive (.connCreate 3), .act .dequeue, .act .handle, .act .listen, .act .admitHeld, .act .admitHeld,
    .act .admitHeld, .act .pop, .act .send, .act .deliver, .act .dequeue, .act .handle, .act .reserve,
    .act .forget, .act .answer, .act .pop, .act .send] (by decide +kernel)
    fun _ hs _ => creates_answered (by decide) hs

/-- A `Recv` waits for an accept slot with the second create in its hands when its context ends. -/
theorem create_never_answered : ∃ s : Alone,
    (aloneMachine .primary (smallQueue .block)).Reach (HasRoom (smallQueue .block)) s ∧
      s.received = [1, 3] ∧ s.ep.sent = [.connAccept 1] ∧ s.ep.unanswered = [] ∧ s.ep.work = 0 :=
  Machine.exists_reach [.act (.enter .sync), .act .listen, .act .admitHeld, .act .startDispatcher,
    .arrive (.connCreate 1), .act .dequeue, .act .handle, .act .reserve, .act .answer, .act .pop,
    .act .send, .act .deliver, .arrive (.connCreate 3), .act .dequeue, .act .handle, .act .ctxDone,
    .act .forget, .act .leave, .act .acceptStream, .act (.releaseSlot 0)] (by decide +kernel)

end Hqq.Streams
