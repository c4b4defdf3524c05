import Hqq.Streams.Answers

/-!
# What an endpoint knows about its streams

The IDs that the two ends allocate differ in their parity and no ID is allocated twice.
-/

namespace Hqq.Streams

/-- Up to here the IDs have not wrapped around. -/
def maxStreams : Nat := 2 ^ 63 - 1

theorem connID_toNat {m : LinkMode} {n : Nat} (hn : n ≤ maxStreams) (hpos : 0 < n) :
    (connID m n).toNat = match m with | .primary => 2 * n | .secondary => 2 * n - 1 := by
  unfold maxStreams at hn
  have hw : (word n <<< 1).toNat = 2 * n := by
    rw [BitVec.toNat_shiftLeft, word_toNat, Nat.shiftLeft_eq]
    omega
  cases m with
  | primary => exact hw
  | secondary =>
    simp only [connID]
    rw [BitVec.toNat_sub, hw]
    change (2 ^ 64 - 1 + 2 * n) % 2 ^ 64 = 2 * n - 1
    omega

theorem connID_inj {m m' : LinkMode} {n n' : Nat} (hn : n ≤ maxStreams) (hpos : 0 < n)
    (hn' : n' ≤ maxStreams) (hpos' : 0 < n') (h : connID m n = connID m' n') : m = m' ∧ n = n' := by
  have hnat := congrArg BitVec.toNat h
  rw [connID_toNat hn hpos, connID_toNat hn' hpos'] at hnat
  cases m <;> cases m' <;> simp only at hnat <;> first | exact ⟨rfl, by omega⟩ | omega

/-- An ID that the other end can have allocated. -/
def PeerID (mode : LinkMode) (id : ConnID) : Prop :=
  ∃ k, 0 < k ∧ k ≤ maxStreams ∧ id = connID mode.peer k

theorem PeerID.ne_own {mode : LinkMode} {id : ConnID} (h : PeerID mode id) {k : Nat} (hpos : 0 < k)
    (hle : k ≤ maxStreams) : id ≠ connID mode k := by
  rintro rfl
  obtain ⟨k', hpos', hle', hid⟩ := h
  exact mode.peer_ne (connID_inj hle hpos hle' hpos' hid).1.symm

/-! ## Where streams and IDs are -/

@[simp] def Rx.ref? : Rx → Option Ref
  | .reserving st | .accepting st | .forgetting st _ => some st
  | _ => none

@[simp] def Sender.ref? : Sender → Option Ref
  | .sending (.accept st) | .delivering st => some st
  | _ => none

/-- The endpoint holds a stream that its peer has asked for. -/
inductive Endpoint.HasRef (e : Endpoint) (st : Ref) : Prop
  | rx (h : e.rx.ref? = some st)
  | queue (h : .accept st ∈ e.ctrlQueue)
  | sender (h : e.sender.ref? = some st)
  | acceptCh (h : st ∈ e.acceptCh)
  | returning (h : st ∈ e.returning)
  | accepted (h : st ∈ e.accepted)

/-- The endpoint holds a create that it has not granted. -/
inductive Endpoint.Asked (e : Endpoint) (id : ConnID) : Prop
  | rx {code : ErrorCode} (h : e.rx = .refusing id code)
  | held (h : id ∈ e.held)
  | lock (h : id ∈ e.lock.creates)
  | queue {code : ErrorCode} (h : .error id code ∈ e.ctrlQueue)
  | sender {code : ErrorCode} (h : e.sender = .sending (.error id code))

def Phase.early : Phase → Bool
  | .absent | .allocated => true
  | _ => false

def Phase.ref? : Phase → Option Ref
  | .registered st | .waiting st | .opened st => some st
  | _ => none

/-- What an endpoint knows by itself: whose every stream and ID is that it holds, and that a stream
it has opened is the first of its ID. -/
structure Known (mode : LinkMode) (e : Endpoint) : Prop where
  small : e.connectionIDGenerator ≤ maxStreams
  zero : (e.calls 0).phase = .absent
  refs : ∀ st, e.HasRef st → PeerID mode st.id ∧ st.gen < e.made st.id
  asked : ∀ id, e.Asked id → PeerID mode id
  streams : ∀ id g, e.streams id = some g → g < e.made id
  peerClosing : ∀ st, e.rx = .peerClosing st → st.gen < e.made st.id
  phases : ∀ k st, (e.calls k).phase.ref? = some st → st = ⟨connID mode k, 0⟩
  opened : ∀ st ∈ e.opened, ∃ k, (e.calls k).phase = .opened st
  once : (e.opened.map Ref.id).Nodup
  loads : ∀ st pc, (st, pc) ∈ e.loads → (st ∈ e.opened ∨ st ∈ e.accepted) ∧
    (pc = true → (e.stream st).peerClosed = true)
  closing : ∀ st, (e.stream st).closing ≠ .live → st ∈ e.opened ∨ st ∈ e.accepted
  made : ∀ k, 0 < k → k ≤ maxStreams →
    e.made (connID mode k) = if (e.calls k).phase.early then 0 else 1

variable {mode : LinkMode} {cfg : Config} {inc : Option Frame} {e e' : Endpoint} {a : Act}

/-! ## What a step can do to them -/

theorem mem_enqueue {job j : Job} (h : j ∈ cfg.enqueue e.ctrlQueue job) : j ∈ e.ctrlQueue ∨ j = job := by
  unfold Config.enqueue at h
  split at h
  · simpa using h
  · exact .inl h

theorem Endpoint.HasRef.split {st : Ref} {P : Prop} (h : e'.HasRef st)
    (r : e'.rx.ref? = some st → e.HasRef st ∨ P := by
      first
        | exact fun h => .inl (.rx h)
        | simp; done
        | exact fun h => .inl (.rx (by simpa [*] using h)))
    (q : .accept st ∈ e'.ctrlQueue → e.HasRef st ∨ P := by exact fun h => .inl (.queue h))
    (s : e'.sender.ref? = some st → e.HasRef st ∨ P := by
      first | exact fun h => .inl (.sender h) | simp)
    (c : st ∈ e'.acceptCh → e.HasRef st ∨ P := by exact fun h => .inl (.acceptCh h))
    (t : st ∈ e'.returning → e.HasRef st ∨ P := by exact fun h => .inl (.returning h))
    (a : st ∈ e'.accepted → e.HasRef st ∨ P := by exact fun h => .inl (.accepted h)) :
    e.HasRef st ∨ P := by
  cases h
  exacts [r ‹_›, q ‹_›, s ‹_›, c ‹_›, t ‹_›, a ‹_›]

theorem Endpoint.Asked.split {id : ConnID} {P : Prop} (h : e'.Asked id)
    (r : ∀ code, e'.rx = .refusing id code → e.Asked id ∨ P := by
      first | exact fun _ h => .inl (.rx h) | simp)
    (k : id ∈ e'.held → e.Asked id ∨ P := by first | exact fun h => .inl (.held h) | simp)
    (l : id ∈ e'.lock.creates → e.Asked id ∨ P := by
      first
        | exact fun h => .inl (.lock h)
        | exact fun h => .inl (.lock (by simp_all [Lock.creates])))
    (q : ∀ code, .error id code ∈ e'.ctrlQueue → e.Asked id ∨ P := by
      first | exact fun _ h => .inl (.queue h) | exact fun _ h => .inl (.queue (by simpa using h)))
    (s : ∀ code, e'.sender = .sending (.error id code) → e.Asked id ∨ P := by
      first | exact fun _ h => .inl (.sender h) | simp) : e.Asked id ∨ P := by
  cases h
  exacts [r _ ‹_›, k ‹_›, l ‹_›, q _ ‹_›, s _ ‹_›]

section

variable (h : Branch mode cfg inc e a e')
include h

/-- A stream of the peer is made for a create, and it is the next one of its ID. -/
theorem Branch.hasRef {st : Ref} (hst : e'.HasRef st) : e.HasRef st ∨
    ∃ id, st = e.newRef id ∧ e'.made id = e.made id + 1 ∧
      (e.rx = .handling (.connCreate id) ∨ id ∈ e.lock.creates) := by
  cases h
  case create id hrx _ _ _ =>
    exact hst.split (r := fun hr => .inr ⟨id, by simpa using hr.symm, by simp, .inl hrx⟩)
  case admitAccept id rest hlock _ =>
    refine hst.split (q := fun hq => ?_)
    rcases List.mem_append.mp hq with hq | hq
    · exact .inl (.queue hq)
    · exact .inr ⟨id, by simpa using hq, by simp, .inr (by simp [hlock, Lock.creates])⟩
  case answerRefuse | expire | admitRefuse | releaseRefuse | queueOther =>
    exact hst.split (q := fun hq => .inl (.queue ((mem_enqueue hq).resolve_right (by simp))))
  case forget next hrx _ => cases next <;> exact hst.split (r := by simp [Next.rx])
  case answerAccept st' hrx _ =>
    refine hst.split (q := fun hq => .inl ?_)
    rcases List.mem_append.mp hq with hq | hq
    · exact .queue hq
    · exact .rx (by simpa [hrx, eq_comm] using hq)
  case pop job rest hsender hqueue =>
    refine hst.split (q := fun hq => .inl (.queue (by simp [hqueue, hq]))) (s := fun hs => ?_)
    cases job <;> simp only [Sender.ref?, Option.some.injEq, reduceCtorEq] at hs
    exact .inl (.queue (by simp [hqueue, hs]))
  case send job hsender =>
    refine hst.split (s := fun hs => ?_)
    cases job <;> simp only [Job.sender, Sender.ref?, Option.some.injEq, reduceCtorEq] at hs
    exact .inl (.sender (by simp [hsender, hs]))
  case deliver st' hsender =>
    refine hst.split (c := fun hc => .inl ?_)
    rcases List.mem_append.mp hc with hc | hc
    · exact .acceptCh hc
    · exact .sender (by simpa [hsender, eq_comm] using hc)
  case acceptStream st' rest hch =>
    refine hst.split (c := fun hc => .inl (.acceptCh (by simp [hch, hc]))) (t := fun ht => .inl ?_)
    rcases List.mem_append.mp ht with ht | ht
    · exact .returning ht
    · exact .acceptCh (by simp_all)
  case releaseSlot j st' hret =>
    have hin := List.mem_of_getElem? hret
    refine hst.split (t := fun ht => .inl (.returning (List.mem_of_mem_eraseIdx ht)))
      (a := fun ha => .inl ?_)
    rcases List.mem_cons.mp ha with rfl | ha
    · exact .returning hin
    · exact .accepted ha
  all_goals exact hst.split

theorem Branch.asked {id : ConnID} (hid : e'.Asked id) :
    e.Asked id ∨ e.rx = .handling (.connCreate id) ∨ ∃ st, e.HasRef st ∧ st.id = id := by
  -- a refusal that goes to the control queue
  have hqueue : ∀ {job}, (∀ code, job = .error id code → e.Asked id) →
      ∀ code, Job.error id code ∈ (e.enqueue cfg job).ctrlQueue → e.Asked id := by
    intro job hjob code hc
    rcases mem_enqueue hc with hc | rfl
    · exact .queue hc
    · exact hjob code rfl
  cases h
  case hold hrx _ _ _ =>
    refine hid.split (k := fun hk => ?_)
    rcases mem_concat.mp hk with hk | rfl
    · exact .inl (.held hk)
    · exact .inr (.inl hrx)
  case refuse hrx _ =>
    refine hid.split (r := fun code' hid => ?_)
    cases hid
    exact .inr (.inl hrx)
  case forget st next hrx _ =>
    refine hid.split (r := fun code' hid => ?_)
    cases next <;> cases hid
    exact .inr (.inr ⟨st, .rx (by rw [hrx]; rfl), rfl⟩)
  case answerRefuse id' code hrx =>
    refine hid.split (q := fun code hq => .inl (hqueue (fun _ heq => ?_) code hq))
    cases heq
    exact .rx hrx
  case expire i id' hheld hlock =>
    refine hid.split (k := fun hk => .inl (.held (List.mem_of_mem_eraseIdx hk)))
      (q := fun code hq => .inl (hqueue (fun _ heq => ?_) code hq))
    cases heq
    exact .held (List.mem_of_getElem? hheld)
  case admitRefuse hlock | releaseRefuse hlock =>
    refine hid.split (q := fun code hq => .inl (hqueue (fun _ heq => ?_) code hq))
    cases heq
    exact .lock (by simp [hlock, Lock.creates])
  case queueOther =>
    refine hid.split (q := fun code hq => .inl (hqueue (fun _ heq => ?_) code hq))
    cases heq
  case listen hlock | releaseHeld hlock => exact hid.split (l := fun hl => .inl (.held hl))
  case pop job rest hsender hq =>
    refine hid.split (q := fun _ hid => .inl (.queue (hq ▸ List.mem_cons_of_mem _ hid))) (s := fun _ hid => ?_)
    cases hid
    exact .inl (.queue (hq ▸ List.mem_cons_self))
  case send job hsender =>
    refine hid.split (s := fun code hid => ?_)
    cases job <;> cases hid
  all_goals exact hid.split

theorem Branch.made_le (id : ConnID) : e.made id ≤ e'.made id := by
  have hupdate : ∀ id', e.made id ≤ Function.update e.made id' (e.made id' + 1) id := by
    intro id'
    by_cases hid : id = id'
    · subst hid
      simp
    · simp [hid]
  cases h
  case register | create | admitAccept => exact hupdate _
  all_goals exact le_rfl

theorem Branch.stream_peerClosed {st : Ref} (hst : st.gen < e.made st.id)
    (hpc : (e.stream st).peerClosed = true) : (e'.stream st).peerClosed = true := by
  have hnew : ∀ id, st ≠ e.newRef id := by
    rintro id rfl
    simp [Endpoint.newRef] at hst
  have hset : ∀ st' (x : Stream), ((e.stream st').peerClosed = true → x.peerClosed = true) →
      (Function.update e.stream st' x st).peerClosed = true := by
    intro st' x hx
    by_cases hs : st = st'
    · subst hs
      rw [Function.update_self]
      exact hx hpc
    · rwa [Function.update_of_ne hs]
  cases h
  case register | create | admitAccept => simpa [hnew] using hpc
  case markPeer => exact hset _ _ fun _ => rfl
  case mark | closeForget | closeSilent | closeSend => exact hset _ _ id
  all_goals exact hpc

theorem Branch.stream_closing {st : Ref} (hst : (e'.stream st).closing ≠ .live) :
    (e.stream st).closing ≠ .live ∨ ∃ pc, (st, pc) ∈ e.loads := by
  have hset : ∀ st' (x : Stream), (Function.update e.stream st' x st).closing ≠ .live →
      (st = st' → x.closing ≠ .live → (e.stream st').closing ≠ .live ∨ ∃ pc, (st', pc) ∈ e.loads) →
      (e.stream st).closing ≠ .live ∨ ∃ pc, (st, pc) ∈ e.loads := by
    intro st' x hst hx
    by_cases hs : st = st'
    · subst hs
      rw [Function.update_self] at hst
      exact hx rfl hst
    · rw [Function.update_of_ne hs] at hst
      exact .inl hst
  cases h
  case register | create | admitAccept => exact hset _ _ hst fun _ hx => absurd rfl hx
  case markPeer => exact hset _ _ hst fun _ => .inl
  case mark i st' pc hload _ => exact hset st' _ hst fun _ _ => .inr ⟨pc, List.mem_of_getElem? hload⟩
  case closeForget hc _ | closeSilent hc | closeSend hc => exact hset _ _ hst fun _ _ => .inl (by simp [hc])
  all_goals exact .inl hst

theorem Branch.handles (st : Ref) : (st ∈ e.opened → st ∈ e'.opened) ∧
    (st ∈ e.accepted → st ∈ e'.accepted) := by
  cases h
  case receiveAccepted => exact ⟨List.mem_cons_of_mem _, id⟩
  case releaseSlot => exact ⟨id, List.mem_cons_of_mem _⟩
  all_goals exact ⟨id, id⟩

theorem Branch.mem_loads {st : Ref} {pc : Bool} (hload : (st, pc) ∈ e'.loads) : (st, pc) ∈ e.loads ∨
    ((st ∈ e.opened ∨ st ∈ e.accepted) ∧ pc = (e.stream st).peerClosed) := by
  cases h
  case load st' hst =>
    rcases List.mem_cons.mp hload with heq | hload
    · obtain ⟨rfl, rfl⟩ := Prod.mk.inj heq
      exact .inr ⟨hst, rfl⟩
    · exact .inl hload
  case mark | markTwice => exact .inl (List.mem_of_mem_eraseIdx hload)
  all_goals exact .inl hload

theorem Branch.phase (k : Nat) : (e'.calls k).phase = (e.calls k).phase ∨
    (k = e.connectionIDGenerator + 1 ∧ (e'.calls k).phase = .allocated) ∨
    (a = .register k ∧ (e.calls k).phase = .allocated ∧
      (e'.calls k).phase = .registered (e.newRef (connID mode k))) ∨
    ((e.calls k).phase.early = false ∧ (e'.calls k).phase.early = false ∧
      (∀ st, (e.calls k).phase ≠ .opened st) ∧
      ((e'.calls k).phase.ref? = none ∨ (e'.calls k).phase.ref? = (e.calls k).phase.ref?)) := by
  have hother : ∀ {n c}, k ≠ n → (Function.update e.calls n c k).phase = (e.calls k).phase :=
    fun hk => by rw [Function.update_of_ne hk]
  cases h
  case allocate =>
    by_cases hk : k = e.connectionIDGenerator + 1
    · exact .inr (.inl ⟨hk, by simp [hk]⟩)
    · exact .inl (hother hk)
  case register n hp _ =>
    by_cases hk : k = n
    · subst hk
      exact .inr (.inr (.inl ⟨rfl, hp, by simp⟩))
    · exact .inl (hother hk)
  case sendCreate n st hp | sendFail n st hp | giveUp n st hp | receiveAccepted n st hp _
      | receiveRefused n st hp _ =>
    by_cases hk : k = n
    · subst hk
      refine .inr (.inr (.inr ?_))
      simp [hp, Phase.early, Phase.ref?]
    · exact .inl (hother hk)
  case cleanup n why hp _ =>
    by_cases hk : k = n
    · subst hk
      refine .inr (.inr (.inr ?_))
      simp [Streams.cleanup, hp, Phase.early, Phase.ref?]
    · exact .inl (hother hk)
  case reply n _ _ _ | failPending n _ _ _ _ _ =>
    left
    by_cases hk : k = n
    · subst hk
      simp
    · exact hother hk
  all_goals exact .inl rfl

theorem Branch.opened : e'.opened = e.opened ∨ ∃ k st, e'.opened = st :: e.opened ∧
    (e.calls k).phase = .waiting st ∧ (e'.calls k).phase = .opened st := by
  cases h
  case receiveAccepted n st hp _ => exact .inr ⟨n, st, rfl, hp, by simp⟩
  all_goals exact .inl rfl

theorem Branch.made_eq (id : ConnID) : e'.made id = e.made id ∨
    (e'.made id = e.made id + 1 ∧ ((∃ n, a = .register n ∧ id = connID mode n) ∨
      e.rx = .handling (.connCreate id) ∨ id ∈ e.lock.creates)) := by
  have hupdate : ∀ id', Function.update e.made id' (e.made id' + 1) id = e.made id ∨
      (id = id' ∧ Function.update e.made id' (e.made id' + 1) id = e.made id + 1) := by
    intro id'
    by_cases hid : id = id'
    · subst hid
      exact .inr ⟨rfl, by simp⟩
    · exact .inl (by simp [hid])
  cases h
  case register n _ _ => exact (hupdate _).imp_right fun ⟨hid, hmore⟩ => ⟨hmore, .inl ⟨n, rfl, hid⟩⟩
  case create hrx _ _ _ => exact (hupdate _).imp_right fun ⟨hid, hmore⟩ => ⟨hmore, .inr (.inl (hid ▸ hrx))⟩
  case admitAccept hlock _ =>
    exact (hupdate _).imp_right fun ⟨hid, hmore⟩ => ⟨hmore, .inr (.inr (by simp [hlock, Lock.creates, hid]))⟩
  all_goals exact .inl rfl

theorem Branch.streams {id : ConnID} {g : Nat} (hid : e'.streams id = some g) :
    e.streams id = some g ∨ g < e'.made id := by
  have hforget : ∀ id', Function.update e.streams id' none id = some g → e.streams id = some g := by
    intro id' h
    by_cases hid : id = id'
    · subst hid
      simp at h
    · rwa [Function.update_of_ne hid] at h
  have hreg : ∀ id', Function.update e.streams id' (some (e.made id')) id = some g →
      e.streams id = some g ∨ g < Function.update e.made id' (e.made id' + 1) id := by
    intro id' h
    by_cases hid : id = id'
    · subst hid
      simp only [Function.update_self, Option.some.injEq] at h ⊢
      omega
    · rw [Function.update_of_ne hid] at h
      exact .inl h
  cases h
  case register | create | admitAccept => exact hreg _ hid
  case cleanup | error | connClose | forget | failPending | closeForget => exact .inl (hforget _ hid)
  all_goals exact .inl hid

theorem Branch.peerClosing {st : Ref} (hst : e'.rx = .peerClosing st) :
    e.rx = .peerClosing st ∨ e.streams st.id = some st.gen := by
  cases h
  case connClose hreg _ =>
    cases hst
    exact .inr hreg
  case forget next _ _ => cases next <;> cases hst
  all_goals first | exact .inl hst | cases hst

end

theorem Known.fresh : Known mode .fresh := by
  refine ⟨by simp [Endpoint.fresh, maxStreams], rfl, ?_, ?_, nofun, nofun, ?_, nofun, .nil, ?_, ?_, ?_⟩
  · rintro st (h | h | h | h | h | h) <;> simp [Endpoint.fresh, Rx.ref?, Sender.ref?] at h
  · rintro id (h | h | h | h | h) <;> simp [Endpoint.fresh, Lock.creates] at h
  · intro k st h
    simp [Endpoint.fresh, Phase.ref?] at h
  · intro st pc h
    simp [Endpoint.fresh] at h
  · intro st h
    simp [Endpoint.fresh, Stream.new] at h
  · intro k _ _
    rfl

section

variable (hk : Known mode e)
include hk

theorem Known.started (hrep : e.RepliesOk mode) {k : Nat} (hp : (e.calls k).phase ≠ .absent) :
    0 < k ∧ k ≤ maxStreams := by
  have hle := hrep.started hp
  have hsmall := hk.small
  refine ⟨Nat.pos_iff_ne_zero.mpr ?_, by omega⟩
  rintro rfl
  exact hp hk.zero

theorem Known.gen_lt {st : Ref} (hrep : e.RepliesOk mode) (hst : st ∈ e.opened ∨ st ∈ e.accepted) :
    st.gen < e.made st.id := by
  rcases hst with hst | hst
  · obtain ⟨k, hp⟩ := hk.opened st hst
    obtain rfl := hk.phases k st (by rw [hp]; rfl)
    obtain ⟨hpos, hle⟩ := hk.started hrep (k := k) (by simp [hp])
    have hmade := hk.made k hpos hle
    simp only [hp, Phase.early] at hmade
    simp [hmade]
  · exact (hk.refs st (.accepted hst)).2

theorem Known.of_lock {id : ConnID} (hid : id ∈ e.lock.creates) : PeerID mode id :=
  hk.asked id (.lock hid)

section

variable (h : Branch mode cfg inc e a e') (hrep : e.RepliesOk mode)
variable (hbound : a = .allocate → e.connectionIDGenerator < maxStreams)
variable (hhand : ∀ id, e.rx = .handling (.connCreate id) → PeerID mode id)
include h hrep

theorem Known.step_phases : ∀ k st, (e'.calls k).phase.ref? = some st → st = ⟨connID mode k, 0⟩ := by
  intro k st hst
  rcases h.phase k with hp | ⟨-, hp⟩ | ⟨-, hp, hp'⟩ | ⟨-, -, -, hp⟩
  · exact hk.phases k st (hp ▸ hst)
  · simp [hp, Phase.ref?] at hst
  · obtain ⟨hpos, hle⟩ := hk.started hrep (k := k) (by simp [hp])
    have hmade := hk.made k hpos hle
    simp only [hp, Phase.early, if_true] at hmade
    simp only [hp', Phase.ref?, Option.some.injEq] at hst
    rw [← hst, Endpoint.newRef, hmade]
  · rcases hp with hp | hp
    · simp [hp] at hst
    · exact hk.phases k st (hp ▸ hst)

include hhand in
theorem Known.step_made : ∀ k, 0 < k → k ≤ maxStreams →
    e'.made (connID mode k) = if (e'.calls k).phase.early then 0 else 1 := by
  intro k hpos hle
  have hold := hk.made k hpos hle
  have hmade : e'.made (connID mode k) = e.made (connID mode k) ∨
      (e'.made (connID mode k) = e.made (connID mode k) + 1 ∧ a = .register k) := by
    rcases h.made_eq (connID mode k) with hsame | ⟨hmore, ⟨n, ha, hid⟩ | hrx | hlock⟩
    · exact .inl hsame
    · subst ha
      have hreg : (e.calls n).phase = .allocated := by
        cases h
        assumption
      obtain ⟨hpos', hle'⟩ := hk.started hrep (k := n) (by simp [hreg])
      obtain ⟨-, rfl⟩ := connID_inj hle hpos hle' hpos' hid
      exact .inr ⟨hmore, rfl⟩
    · exact absurd rfl ((hhand _ hrx).ne_own hpos hle)
    · exact absurd rfl ((hk.of_lock hlock).ne_own hpos hle)
  have hnot : ∀ {p : Phase}, (e.calls k).phase = p → p ≠ .allocated → a ≠ .register k := by
    rintro p hp hne rfl
    cases h with
    | register hreg _ => exact hne (hp.symm.trans hreg)
  rcases h.phase k with hp | ⟨rfl, hp⟩ | ⟨ha, hp, hp'⟩ | ⟨hp, hp', -⟩
  · rw [hp]
    rcases hmade with hsame | ⟨-, ha⟩
    · rw [hsame, hold]
    · subst ha
      cases h with
      | register hreg _ => simp [hreg] at hp
  · have habs := hrep.later (e.connectionIDGenerator + 1) (by omega)
    rw [hp]
    rcases hmade with hsame | ⟨-, ha⟩
    · rw [hsame, hold, habs]
      rfl
    · exact absurd ha (hnot habs (by simp))
  · rcases hmade with hsame | ⟨hmore, -⟩
    · subst ha
      cases h with
      | register hreg _ =>
        simp at hsame
    · rw [hmore, hold, hp, hp']
      rfl
  · rcases hmade with hsame | ⟨-, ha⟩
    · rw [hsame, hold, hp, hp']
    · refine absurd ha (hnot rfl ?_)
      intro halloc
      simp [halloc, Phase.early] at hp

theorem Known.step_opened : ∀ st ∈ e'.opened, ∃ k, (e'.calls k).phase = .opened st := by
  intro st hst
  obtain hst | hnew : st ∈ e.opened ∨ ∃ k, (e'.calls k).phase = .opened st := by
    rcases h.opened with heq | ⟨k, st', heq, -, hp⟩ <;> rw [heq] at hst
    · exact .inl hst
    · exact (List.mem_cons.mp hst).elim (fun heq => .inr ⟨k, heq ▸ hp⟩) .inl
  · obtain ⟨k, hp⟩ := hk.opened st hst
    refine ⟨k, ?_⟩
    rcases h.phase k with hsame | ⟨rfl, -⟩ | ⟨-, halloc, -⟩ | ⟨-, -, hne, -⟩
    · rw [hsame, hp]
    · have := hrep.later (e.connectionIDGenerator + 1) (by omega)
      simp [hp] at this
    · simp [hp] at halloc
    · exact absurd hp (hne st)
  · exact hnew

theorem Known.step_once : (e'.opened.map Ref.id).Nodup := by
  rcases h.opened with heq | ⟨n, st, heq, hwait, -⟩ <;> rw [heq]
  · exact hk.once
  · refine List.nodup_cons.mpr ⟨fun hmem => ?_, hk.once⟩
    -- the stream with this ID was opened by the call that is still waiting for its reply
    obtain ⟨st', hst', hid⟩ := List.mem_map.mp hmem
    obtain ⟨k, hp⟩ := hk.opened st' hst'
    rw [hk.phases k st' (by rw [hp]; rfl), hk.phases n st (by rw [hwait]; rfl)] at hid
    obtain ⟨hpos, hle⟩ := hk.started hrep (k := k) (by simp [hp])
    obtain ⟨hpos', hle'⟩ := hk.started hrep (k := n) (by simp [hwait])
    obtain rfl := (connID_inj hle hpos hle' hpos' hid).2
    simp [hp] at hwait

theorem Known.step_loads : ∀ st pc, (st, pc) ∈ e'.loads → (st ∈ e'.opened ∨ st ∈ e'.accepted) ∧
    (pc = true → (e'.stream st).peerClosed = true) := by
  intro st pc hload
  have hkeep : st ∈ e.opened ∨ st ∈ e.accepted → (st ∈ e'.opened ∨ st ∈ e'.accepted) :=
    Or.imp (h.handles st).1 (h.handles st).2
  rcases h.mem_loads hload with hload | ⟨hst, rfl⟩
  · obtain ⟨hst, hpc⟩ := hk.loads st pc hload
    exact ⟨hkeep hst, fun ht => h.stream_peerClosed (hk.gen_lt hrep hst) (hpc ht)⟩
  · exact ⟨hkeep hst, h.stream_peerClosed (hk.gen_lt hrep hst)⟩

omit hrep in
theorem Known.step_closing : ∀ st, (e'.stream st).closing ≠ .live → st ∈ e'.opened ∨ st ∈ e'.accepted := by
  intro st hst
  have hkeep : st ∈ e.opened ∨ st ∈ e.accepted → (st ∈ e'.opened ∨ st ∈ e'.accepted) :=
    Or.imp (h.handles st).1 (h.handles st).2
  rcases h.stream_closing hst with hold | ⟨pc, hload⟩
  · exact hkeep (hk.closing st hold)
  · exact hkeep (hk.loads st pc hload).1

include hbound hhand in
theorem Known.step : Known mode e' where
  small := by
    cases h
    case allocateZero | allocate =>
      have := hbound rfl
      dsimp only
      omega
    all_goals exact hk.small
  zero := by
    rcases h.phase 0 with hp | ⟨hz, -⟩ | ⟨-, hp, -⟩ | ⟨hp, -, -⟩
    · rw [hp, hk.zero]
    · omega
    · simp [hk.zero] at hp
    · simp [hk.zero, Phase.early] at hp
  refs st hst := by
    rcases h.hasRef hst with hst | ⟨id, rfl, hmade, hown⟩
    · obtain ⟨hown, hlt⟩ := hk.refs st hst
      exact ⟨hown, lt_of_lt_of_le hlt (h.made_le st.id)⟩
    · refine ⟨hown.elim (hhand id) hk.of_lock, ?_⟩
      simp only [Endpoint.newRef]
      omega
  asked id hid := by
    rcases h.asked hid with hid | hid | ⟨st, hst, rfl⟩
    · exact hk.asked id hid
    · exact hhand id hid
    · exact (hk.refs st hst).1
  streams id g hid := by
    rcases h.streams hid with hid | hlt
    · exact lt_of_lt_of_le (hk.streams id g hid) (h.made_le id)
    · exact hlt
  peerClosing st hst := by
    rcases h.peerClosing hst with hst | hst
    · exact lt_of_lt_of_le (hk.peerClosing st hst) (h.made_le st.id)
    · exact lt_of_lt_of_le (hk.streams _ _ hst) (h.made_le st.id)
  phases := hk.step_phases h hrep
  opened := hk.step_opened h hrep
  once := hk.step_once h hrep
  loads := hk.step_loads h hrep
  closing := hk.step_closing h
  made := hk.step_made h hrep hhand

end

end

end Hqq.Streams
