import Hqq.Slots
import Hqq.Streams.Steps

/-!
# Every create is answered once

A create that was received is in one place at a time until its answer is on the ring.
-/

namespace Hqq.Streams

/-! ## Where a create is -/

def Frame.create? : Frame → Option ConnID
  | .connCreate id => some id
  | _ => none

def Frame.accept? : Frame → Option ConnID
  | .connAccept id => some id
  | _ => none

def Frame.answer? : Frame → Option ConnID
  | .connAccept id | .error id _ => some id
  | _ => none

def Rx.create? : Rx → Option ConnID
  | .handling f => f.create?
  | .reserving st | .accepting st | .forgetting st (.refuse _) => some st.id
  | .refusing id _ => some id
  | _ => none

def Lock.creates : Lock → List ConnID
  | .free => []
  | .admitting rest | .unslotting rest | .releasing rest => rest
  | .slotted id rest => id :: rest

def Sender.answer? : Sender → Option ConnID
  | .sending job => job.frame.answer?
  | _ => none

def Endpoint.unanswered (e : Endpoint) : List ConnID :=
  e.rx.create?.toList ++ (e.held ++ (e.lock.creates ++
    ((e.ctrlQueue.map Job.frame).filterMap Frame.answer? ++ e.sender.answer?.toList)))

def Endpoint.answers (e : Endpoint) : List ConnID := e.sent.filterMap Frame.answer?

def Sender.delivering? : Sender → Option Ref
  | .delivering st => some st
  | _ => none

def Endpoint.delivered (e : Endpoint) : List ConnID :=
  (e.sender.delivering?.toList ++ (e.acceptCh ++ (e.returning ++ e.accepted))).map Ref.id

variable {mode : LinkMode} {cfg : Config} {inc : Option Frame} {e e' : Endpoint} {a : Act}

def Act.answers : Act → Bool
  | .answer | .admitHeld | .expire _ => true
  | _ => false

def Act.received (inc : Option Frame) : Act → List ConnID
  | .dequeue => (inc.bind Frame.create?).toList
  | _ => []

theorem enqueue_of_room {job : Job} (h : e.ctrlQueue.length < cfg.ctrlSize) :
    cfg.enqueue e.ctrlQueue job = e.ctrlQueue ++ [job] := if_pos h

theorem count_queue_append (l : List Job) (job : Job) (id : ConnID) :
    (((l ++ [job]).map Job.frame).filterMap Frame.answer?).count id =
      ((l.map Job.frame).filterMap Frame.answer?).count id + job.frame.answer?.toList.count id := by
  cases h : job.frame.answer? <;> simp [h]

theorem count_sent_append (l : List Frame) (f : Frame) (id : ConnID) :
    ((l ++ [f]).filterMap Frame.answer?).count id =
      (l.filterMap Frame.answer?).count id + f.answer?.toList.count id := by
  cases h : f.answer? <;> simp [h]

def Endpoint.tally (e : Endpoint) (id : ConnID) : Nat :=
  e.unanswered.count id + e.answers.count id

theorem tally_eq (id : ConnID) : e.tally id = e.rx.create?.toList.count id + e.held.count id +
    e.lock.creates.count id + ((e.ctrlQueue.map Job.frame).filterMap Frame.answer?).count id +
    e.sender.answer?.toList.count id + (e.sent.filterMap Frame.answer?).count id := by
  simp only [Endpoint.tally, Endpoint.unanswered, Endpoint.answers, List.count_append]
  omega

theorem Branch.tally (h : Branch mode cfg inc e a e') (hpolicy : cfg.overflow ≠ .fail)
    (hroom : a.answers = true → e.ctrlQueue.length < cfg.ctrlSize) (hctx : a ≠ .ctxDone) (id : ConnID) :
    e'.tally id = e.tally id + (a.received inc).count id := by
  cases h
  -- what the conditions exclude
  case reserveFail hpol => exact absurd hpol hpolicy
  case ctxDone => exact absurd rfl hctx
  case answerFull hfull => have := hroom rfl; omega
  case admitFull hfull => have := hroom rfl; omega
  -- a create comes in
  case dequeue f who hinc hrx _ =>
    simp only [tally_eq, hrx, hinc, Act.received, Rx.create?, Option.bind_some]
    simp
    omega
  -- the receive path passes it on
  case hold hrx _ _ _ | create hrx _ _ _ =>
    simp only [tally_eq, hrx, Endpoint.register, Endpoint.newRef, List.count_append]
    simp [Act.received, Rx.create?, Frame.create?]
    try omega
  case forget st next hrx _ =>
    cases next <;> simp [tally_eq, hrx, Act.received, Rx.create?, Next.rx]
  -- from the hold list to the lock
  case listen hlock | releaseHeld hlock =>
    simp only [tally_eq, hlock, Lock.creates, Act.received, List.count_nil]
    omega

  -- into the control queue
  case answerRefuse hrx =>
    rw [Endpoint.enqueue, enqueue_of_room (hroom rfl)]
    simp only [tally_eq, count_queue_append, hrx]
    simp [Act.received, Rx.create?, Job.frame, Frame.answer?]
    omega
  case answerAccept hrx _ =>
    simp only [tally_eq, count_queue_append, hrx]
    simp [Act.received, Rx.create?, Job.frame, Frame.answer?]
    omega
  case admitRefuse hlock | releaseRefuse hlock =>
    rw [Endpoint.enqueue, enqueue_of_room (hroom rfl)]
    simp only [tally_eq, count_queue_append, hlock]
    simp [Act.received, Lock.creates, Job.frame, Frame.answer?, List.count_cons]
    omega
  case admitAccept hlock _ =>
    simp only [tally_eq, count_queue_append, hlock]
    simp [Act.received, Lock.creates, Job.frame, Frame.answer?, List.count_cons, Endpoint.newRef]
    omega
  case expire hheld hlock =>
    rw [Endpoint.enqueue, enqueue_of_room (hroom rfl)]
    have hcount := count_eraseIdx_add hheld id
    simp only [tally_eq, count_queue_append]
    simp [Act.received, Job.frame, Frame.answer?, List.count_cons]
    omega
  case queueOther =>
    unfold Endpoint.enqueue Config.enqueue
    split
    · simp only [tally_eq, count_queue_append]
      simp [Act.received, Job.frame, Frame.answer?]
    · rfl
  -- and out on the ring
  case pop job rest hsender hqueue =>
    have hcons := count_queue_append rest job id
    have hperm : (((job :: rest).map Job.frame).filterMap Frame.answer?).count id =
        (((rest ++ [job]).map Job.frame).filterMap Frame.answer?).count id :=
      (((List.perm_append_singleton job rest).symm.map Job.frame).filterMap Frame.answer?).count_eq id
    simp only [tally_eq, hsender, hqueue, hperm, hcons]
    simp [Act.received, Sender.answer?]
    omega
  case send job hsender =>
    simp only [tally_eq, hsender, Endpoint.put, count_sent_append]
    cases job <;> simp [Act.received, Sender.answer?, Job.sender] <;> omega

  -- frames that answer nothing
  case sendCreate | closeSend =>
    simp only [tally_eq, Endpoint.put, Endpoint.setPhase, Endpoint.setCall, Endpoint.setStream,
      count_sent_append]
    simp [Act.received, Frame.answer?]
  all_goals
    first
    | rfl
    | simp [*, tally_eq, Act.received, Rx.create?, Frame.create?, Lock.creates, Sender.answer?]

theorem count_accepts_append (l : List Frame) (f : Frame) (id : ConnID) :
    ((l ++ [f]).filterMap Frame.accept?).count id =
      (l.filterMap Frame.accept?).count id + f.accept?.toList.count id := by
  cases h : f.accept? <;> simp [h]

/-- Each accept on the ring is one stream on its way to `AcceptStream`. -/
def Endpoint.Delivers (e : Endpoint) : Prop :=
  ∀ id, (e.sent.filterMap Frame.accept?).count id = e.delivered.count id

theorem Branch.delivers (h : Branch mode cfg inc e a e') (he : e.Delivers) : e'.Delivers := by
  intro id
  have hid := he id
  cases h
  case send job hsender =>
    simp only [Endpoint.put, count_accepts_append, hid, Endpoint.delivered, hsender]
    cases job <;> simp [Job.frame, Frame.accept?, Job.sender, Sender.delivering?, List.count_cons]
  case deliver st hsender =>
    rw [hid]
    simp only [Endpoint.delivered, hsender, Sender.delivering?, List.map_append, List.count_append]
    simp
    omega
  case pop hsender hqueue =>
    rw [hid]
    simp [Endpoint.delivered, hsender, Sender.delivering?]
  case acceptStream hch =>
    rw [hid]
    simp only [Endpoint.delivered, hch, List.map_append, List.count_append, List.map_cons,
      List.count_cons, List.map_nil, List.count_nil]
    omega
  case releaseSlot hret =>
    rw [hid]
    have hcount := ((perm_eraseIdx hret).map Ref.id).count_eq id
    simp only [Endpoint.delivered, List.map_append, List.count_append, List.map_cons,
      List.count_cons] at hcount ⊢
    omega
  case sendCreate | closeSend =>
    simp only [Endpoint.put, Endpoint.setPhase, Endpoint.setCall, Endpoint.setStream, count_accepts_append]
    simpa [Frame.accept?, Endpoint.delivered] using hid
  all_goals exact hid

/-! ## Accept slots -/

def Job.accepts : Job → Bool
  | .accept _ => true
  | .error _ _ | .other => false

def Rx.slots : Rx → Nat
  | .accepting _ | .forgetting _ .unslot | .unslotting => 1
  | _ => 0

def Lock.slots : Lock → Nat
  | .slotted _ _ | .unslotting _ => 1
  | _ => 0

def Sender.slots : Sender → Nat
  | .sending (.accept _) | .delivering _ => 1
  | _ => 0

def Endpoint.slots (e : Endpoint) : Nat :=
  e.rx.slots + e.lock.slots + e.ctrlQueue.countP Job.accepts + e.sender.slots + e.acceptCh.length +
    e.returning.length

def Endpoint.SlotsOk (cfg : Config) (e : Endpoint) : Prop :=
  e.acceptSlots = e.slots ∧ e.acceptSlots ≤ cfg.queueSize

theorem enqueue_countP (P : Job → Bool) (job : Job) (hjob : P job = false) :
    (cfg.enqueue e.ctrlQueue job).countP P = e.ctrlQueue.countP P := by
  unfold Config.enqueue
  split <;> simp [hjob]

/-- `x` slots more may be in hands that the endpoint does not know of. -/
theorem Branch.slots_add (h : Branch mode cfg inc e a e') {x : Nat} (heq : e.acceptSlots = e.slots + x)
    (hle : e.acceptSlots ≤ cfg.queueSize) :
    e'.acceptSlots = e'.slots + x ∧ e'.acceptSlots ≤ cfg.queueSize := by
  unfold Endpoint.slots at heq ⊢
  cases h
  case forget next hrx _ =>
    cases next <;> simp_all [Rx.slots, Next.rx, Endpoint.forget]
  case answerAccept hrx _ =>
    simp only [hrx, Rx.slots, List.countP_append, List.countP_singleton, Job.accepts] at heq ⊢
    simp only [if_true]
    omega
  case answerRefuse hrx =>
    simp only [Endpoint.enqueue, hrx, Rx.slots, enqueue_countP Job.accepts (.error _ _) rfl] at heq ⊢
    omega
  case expire =>
    simp only [Endpoint.enqueue, enqueue_countP Job.accepts (.error _ _) rfl] at heq ⊢
    omega
  case queueOther =>
    simp only [Endpoint.enqueue, enqueue_countP Job.accepts .other rfl] at heq ⊢
    omega
  case admitRefuse hlock | releaseRefuse hlock =>
    simp only [Endpoint.enqueue, hlock, Lock.slots, enqueue_countP Job.accepts (.error _ _) rfl] at heq ⊢
    omega
  case admitAccept hlock _ =>
    simp only [hlock, Lock.slots, List.countP_append, List.countP_singleton, Job.accepts,
      Endpoint.register] at heq ⊢
    simp only [if_true]
    omega
  case pop job rest hsender hqueue =>
    simp only [hsender, hqueue, Sender.slots, List.countP_cons] at heq ⊢
    cases job <;> simp [Job.accepts] at heq ⊢ <;> omega
  case send job hsender =>
    simp only [hsender, Endpoint.put] at heq ⊢
    cases job <;> simp only [Sender.slots, Job.sender] at heq ⊢ <;> omega
  case deliver hsender =>
    simp only [hsender, Sender.slots, List.length_append, List.length_singleton] at heq ⊢
    omega
  case acceptStream hch =>
    simp only [hch, List.length_append, List.length_cons, List.length_nil] at heq ⊢
    omega
  case releaseSlot hret =>
    have hlen := (perm_eraseIdx hret).length_eq
    simp only [List.length_cons] at hlen
    dsimp only
    omega
  all_goals
    first
    | exact ⟨heq, hle⟩
    | simp [*, Rx.slots, Lock.slots] at heq ⊢
      omega

theorem Branch.slotsOk (h : Branch mode cfg inc e a e') (he : e.SlotsOk cfg) : e'.SlotsOk cfg :=
  h.slots_add (x := 0) he.1 he.2

structure Endpoint.RepliesOk (mode : LinkMode) (e : Endpoint) : Prop where
  later : ∀ n, e.connectionIDGenerator < n → (e.calls n).phase = .absent
  early : ∀ n, (e.calls n).phase = .absent ∨ (e.calls n).phase = .allocated →
    (e.calls n).accepted = none ∧ (∀ id, e.pendingConnections id ≠ some n) ∧ ∀ r, e.rx ≠ .replying n r
  own : ∀ id n, e.pendingConnections id = some n → id = connID mode n
  pending : ∀ id n, e.pendingConnections id = some n →
    (e.calls n).accepted = none ∧ ∀ r, e.rx ≠ .replying n r
  replying : ∀ n r, e.rx = .replying n r → (e.calls n).accepted = none

section Replies

variable (he : e.RepliesOk mode)
include he

theorem Endpoint.RepliesOk.same (g : e'.connectionIDGenerator = e.connectionIDGenerator := by rfl)
    (c : e'.calls = e.calls := by rfl)
    (p : ∀ id n, e'.pendingConnections id = some n → e.pendingConnections id = some n := by
      exact fun _ _ => id)
    (x : ∀ n r, e'.rx = .replying n r → e.rx = .replying n r := by first | exact fun _ _ => id | nofun) :
    e'.RepliesOk mode where
  later n hn := by
    rw [c]
    exact he.later n (g ▸ hn)
  early n hp := by
    rw [c] at hp ⊢
    exact ⟨(he.early n hp).1, fun id hid => (he.early n hp).2.1 id (p id n hid),
      fun r hr => (he.early n hp).2.2 r (x n r hr)⟩
  own id n hid := he.own id n (p id n hid)
  pending id n hid := by
    rw [c]
    exact ⟨(he.pending id n (p id n hid)).1, fun r hr => (he.pending id n (p id n hid)).2 r (x n r hr)⟩
  replying n r hr := by
    rw [c]
    exact he.replying n r (x n r hr)

theorem Endpoint.RepliesOk.move {n : Nat} {c : Call} (hlater : n ≤ e.connectionIDGenerator)
    (hp : c.phase ≠ .absent ∧ c.phase ≠ .allocated)
    (hacc : c.accepted = (e.calls n).accepted ∨ c.accepted = none) : (e.setCall n c).RepliesOk mode := by
  have hnone : (e.calls n).accepted = none → c.accepted = none := by
    rcases hacc with hacc | hacc
    · exact fun h => hacc.trans h
    · exact fun _ => hacc
  have hcall : ∀ m, (e.calls m).accepted = none → ((e.setCall n c).calls m).accepted = none := by
    intro m hm
    by_cases hmn : m = n
    · subst hmn
      simpa using hnone hm
    · simpa [hmn] using hm
  refine ⟨fun m hm => ?_, fun m hm => ?_, he.own, fun id m hid => ?_, fun m r hr => ?_⟩
  · have hmn : m ≠ n := by
      rintro rfl
      exact absurd hm (by simpa using hlater)
    simpa [hmn] using he.later m hm
  · have hmn : m ≠ n := by
      rintro rfl
      simp only [Endpoint.setCall, Function.update_self] at hm
      exact hm.elim hp.1 hp.2
    simp only [Endpoint.setCall, Function.update_of_ne hmn] at hm ⊢
    exact he.early m hm
  · exact ⟨hcall m (he.pending id m hid).1, (he.pending id m hid).2⟩
  · exact hcall m (he.replying m r hr)

theorem Endpoint.RepliesOk.started {n : Nat} (hp : (e.calls n).phase ≠ .absent) :
    n ≤ e.connectionIDGenerator := by
  by_contra hn
  exact hp (he.later n (by omega))

theorem Endpoint.RepliesOk.setPhase {n : Nat} {p : Phase} (hold : (e.calls n).phase ≠ .absent)
    (hp : p ≠ .absent ∧ p ≠ .allocated) : (e.setPhase n p).RepliesOk mode :=
  he.move (he.started hold) hp (.inl rfl)

theorem Endpoint.RepliesOk.take {id : ConnID} {n : Nat} (hpend : e.pendingConnections id = some n)
    {r : Reply} (hgen : e'.connectionIDGenerator = e.connectionIDGenerator) (hcalls : e'.calls = e.calls)
    (hmap : e'.pendingConnections = Function.update e.pendingConnections id none)
    (hrx : e'.rx = .replying n r) : e'.RepliesOk mode := by
  have hgone : ∀ id' m, e'.pendingConnections id' = some m → e.pendingConnections id' = some m ∧ m ≠ n := by
    intro id' m hm
    rw [hmap] at hm
    have hne : id' ≠ id := by
      rintro rfl
      simp at hm
    rw [Function.update_of_ne hne] at hm
    refine ⟨hm, ?_⟩
    rintro rfl
    exact hne ((he.own id' m hm).trans (he.own id m hpend).symm)
  have hreply : ∀ m r', e'.rx = .replying m r' → m = n := by
    intro m r' hm
    rw [hrx] at hm
    cases hm
    rfl
  refine ⟨fun m hm => ?_, fun m hm => ?_, fun id' m hm => ?_, fun id' m hm => ?_, fun m r' hm => ?_⟩
  · rw [hcalls]
    exact he.later m (hgen ▸ hm)
  · rw [hcalls] at hm ⊢
    have hold := he.early m hm
    refine ⟨hold.1, fun id' hid => hold.2.1 id' (hgone id' m hid).1, fun r' hr' => ?_⟩
    obtain rfl := hreply m r' hr'
    exact hold.2.1 id hpend
  · exact he.own id' m (hgone id' m hm).1
  · rw [hcalls]
    refine ⟨(he.pending id' m (hgone id' m hm).1).1, fun r' hr' => ?_⟩
    exact (hgone id' m hm).2 (hreply m r' hr')
  · rw [hcalls, hreply m r' hm]
    exact (he.pending id n hpend).1

theorem Endpoint.RepliesOk.allocate (hgen : e'.connectionIDGenerator = e.connectionIDGenerator + 1)
    (hcalls : e'.calls = e.calls ∨
      e'.calls = (e.setPhase (e.connectionIDGenerator + 1) .allocated).calls)
    (hpend : e'.pendingConnections = e.pendingConnections) (hrx : e'.rx = e.rx) : e'.RepliesOk mode := by
  have hnew := he.later (e.connectionIDGenerator + 1) (by omega)
  have hphase : ∀ n, (e'.calls n).accepted = (e.calls n).accepted ∧
      ((e'.calls n).phase = (e.calls n).phase ∨ n = e.connectionIDGenerator + 1) := by
    intro n
    rcases hcalls with hcalls | hcalls
    · rw [hcalls]
      exact ⟨rfl, .inl rfl⟩
    · rw [hcalls]
      by_cases hn : n = e.connectionIDGenerator + 1
      · subst hn
        simp
      · simp [hn]
  refine ⟨fun n hn => ?_, fun n hn => ?_, fun id n hid => he.own id n (hpend ▸ hid), fun id n hid => ?_,
    fun n r hr => ?_⟩
  · rw [hgen] at hn
    rcases (hphase n).2 with hp | hp
    · rw [hp]
      exact he.later n (by omega)
    · omega
  · rw [(hphase n).1, hpend, hrx]
    rcases (hphase n).2 with hp | hp
    · exact he.early n (hp ▸ hn)
    · exact he.early n (.inl (hp ▸ hnew))
  · rw [hpend] at hid
    rw [(hphase n).1, hrx]
    exact he.pending id n hid
  · rw [hrx] at hr
    rw [(hphase n).1]
    exact he.replying n r hr

theorem Endpoint.RepliesOk.register {n : Nat} (hp : (e.calls n).phase = .allocated) :
    (((e.register (connID mode n)).setPending (connID mode n) (some n)).setPhase n
      (.registered (e.newRef (connID mode n)))).RepliesOk mode := by
  have hold := he.early n (.inr hp)
  have hmid : (e.setPhase n (.registered (e.newRef (connID mode n)))).RepliesOk mode :=
    he.setPhase (by simp [hp]) ⟨nofun, nofun⟩
  have hcases : ∀ id m, Function.update e.pendingConnections (connID mode n) (some n) id = some m →
      e.pendingConnections id = some m ∨ (id = connID mode n ∧ m = n) := by
    intro id m hm
    by_cases hid : id = connID mode n
    · subst hid
      simp only [Function.update_self, Option.some.injEq] at hm
      exact .inr ⟨rfl, hm.symm⟩
    · rw [Function.update_of_ne hid] at hm
      exact .inl hm
  refine ⟨hmid.later, fun m hm => ⟨(hmid.early m hm).1, fun id hid => ?_, (hmid.early m hm).2.2⟩,
    fun id m hid => ?_, fun id m hid => ?_, hmid.replying⟩
  · rcases hcases id m hid with hid | ⟨-, rfl⟩
    · exact (hmid.early m hm).2.1 id hid
    · simp at hm
  · rcases hcases id m hid with hid | ⟨rfl, rfl⟩
    · exact he.own id m hid
    · rfl
  · rcases hcases id m hid with hid | ⟨rfl, rfl⟩
    · exact hmid.pending id m hid
    · refine ⟨?_, hold.2.2⟩
      simpa using hold.1

theorem Endpoint.RepliesOk.fill {n : Nat} {x : Option Reply} (hgen : e'.connectionIDGenerator =
      e.connectionIDGenerator) (hphase : (e.calls n).phase ≠ .absent ∧ (e.calls n).phase ≠ .allocated)
    (hcalls : e'.calls = Function.update e.calls n { e.calls n with accepted := x })
    (hmap : ∀ id m, e'.pendingConnections id = some m → e.pendingConnections id = some m ∧ m ≠ n)
    (hrx : ∀ m r, e'.rx ≠ .replying m r) : e'.RepliesOk mode := by
  have hother : ∀ m, m ≠ n → e'.calls m = e.calls m := fun m hm => by
    rw [hcalls, Function.update_of_ne hm]
  have hsame : ∀ m, (e'.calls m).phase = (e.calls m).phase := by
    intro m
    by_cases hm : m = n
    · subst hm
      rw [hcalls, Function.update_self]
    · rw [hother m hm]
  refine ⟨fun m hm => ?_, fun m hm => ?_, fun id m hid => he.own id m (hmap id m hid).1, fun id m hid => ?_,
    fun m r hr => absurd hr (hrx m r)⟩
  · rw [hsame]
    exact he.later m (hgen ▸ hm)
  · rw [hsame] at hm
    have hne : m ≠ n := by
      rintro rfl
      exact hm.elim hphase.1 hphase.2
    rw [hother m hne]
    exact ⟨(he.early m hm).1, fun id hid => (he.early m hm).2.1 id (hmap id m hid).1, hrx m⟩
  · rw [hother m (hmap id m hid).2]
    exact ⟨(he.pending id m (hmap id m hid).1).1, hrx m⟩

omit he in
theorem Branch.repliesOk (h : Branch mode cfg inc e a e') (he : e.RepliesOk mode) :
    e'.RepliesOk mode := by
  cases h
  case allocateZero => exact he.allocate rfl (.inl rfl) rfl rfl
  case allocate => exact he.allocate rfl (.inr rfl) rfl rfl
  case register hp _ => exact he.register hp
  case sendCreate n st hp =>
    exact (he.setPhase (n := n) (p := .waiting st) (by simp [hp]) ⟨nofun, nofun⟩).same
  case sendFail hp | giveUp hp => exact he.setPhase (by simp [hp]) ⟨nofun, nofun⟩
  case receiveAccepted n st hp _ =>
    exact (he.move (n := n) (c := ⟨.opened st, none⟩) (he.started (by simp [hp])) ⟨nofun, nofun⟩
      (.inr rfl)).same
  case receiveRefused hp _ => exact he.move (he.started (by simp [hp])) ⟨nofun, nofun⟩ (.inr rfl)
  case cleanup n why hp _ =>
    refine (he.setPhase (n := n) (p := .failed why) (by simp [hp]) ⟨nofun, nofun⟩).same (p := ?_)
    intro id m hm
    simp only [Streams.cleanup, Endpoint.setPhase, Endpoint.setCall, Endpoint.forget,
      Endpoint.setPending] at hm ⊢
    by_cases hid : id = connID mode n
    · subst hid
      rw [Function.update_self] at hm
      split at hm
      · cases hm
      · exact hm
    · rwa [Function.update_of_ne hid] at hm
  case connAccept hpend | error hpend => exact he.take hpend rfl rfl rfl rfl
  case reply n r hrx hempty =>
    have hearly : (e.calls n).phase ≠ .absent ∧ (e.calls n).phase ≠ .allocated :=
      ⟨fun hp => (he.early n (.inl hp)).2.2 r hrx, fun hp => (he.early n (.inr hp)).2.2 r hrx⟩
    refine he.fill rfl hearly rfl (fun id m hid => ⟨hid, ?_⟩) fun m r' => nofun
    rintro rfl
    exact (he.pending id m hid).2 r hrx
  case failPending id n why hrx _ hpend _ =>
    have hearly : (e.calls n).phase ≠ .absent ∧ (e.calls n).phase ≠ .allocated :=
      ⟨fun hp => (he.early n (.inl hp)).2.1 id hpend, fun hp => (he.early n (.inr hp)).2.1 id hpend⟩
    refine he.fill rfl hearly rfl (fun id' m hm => ?_) fun m r' hr => ?_
    · simp only [Endpoint.setCall, Endpoint.forget, Endpoint.setPending] at hm
      have hne : id' ≠ id := by
        rintro rfl
        simp at hm
      rw [Function.update_of_ne hne] at hm
      refine ⟨hm, ?_⟩
      rintro rfl
      exact hne ((he.own id' m hm).trans (he.own id m hpend).symm)
    · simp [hrx] at hr
  case forget next _ _ => cases next <;> exact he.same
  all_goals exact he.same

end Replies

end Hqq.Streams
