import Hqq.Advanced.Delivery
import Hqq.Calls.Spec

/-!
# Refused messages

The receive path (`receiveNextLocked`, `route`, `routeResponse`, `refuseRequest`) with any
budget. A message can be refused at its first frame, or be reclaimed later.
-/

namespace Hqq.Advanced

structure CallKey where
  streamID : Word
  messageID : Word
  deriving DecidableEq, Repr

/-- A call that was not made yet, is in `pendingCalls`, stopped waiting, or got its result. -/
inductive CallStatus where
  | idle | waiting | gaveUp | done
  deriving DecidableEq, Repr

def Header.isRequest (h : Header) : Prop := Has h.flags advFlagRequest

def Header.isResponse (h : Header) : Prop := Has h.flags advFlagResponse

instance (h : Header) : Decidable h.isRequest := inferInstanceAs (Decidable (Has _ _))

instance (h : Header) : Decidable h.isResponse := inferInstanceAs (Decidable (Has _ _))

def Header.callKey (h : Header) : CallKey := ⟨h.streamID, h.messageID⟩

/-- `refusals` are the requests that an error response was queued for. -/
structure Path (ι : Type) where
  feed : Feed ι
  calls : CallKey → CallStatus
  results : List (CallKey × Except Err Seen)
  refusals : List Header

variable {ι : Type} [DecidableEq ι]

def Path.resolve (st : Path ι) (k : CallKey) (r : Except Err Seen) : Path ι :=
  if st.calls k = .waiting then
    { st with calls := Function.update st.calls k .done, results := st.results ++ [(k, r)] }
  else st

def Path.routeResponse (st : Path ι) (h : Header) (r : Except Err Seen) : Path ι :=
  st.resolve h.callKey r

def CallKey.on (k : CallKey) (link : Nat) : Calls.CallKey := ⟨link, k.streamID, k.messageID⟩

/-- The calls that wait are those in the `pendingCalls` of the link. -/
def Path.Pending {γ ν : Type} (st : Path ι) (link : Nat) (s : Calls.Process γ ν) : Prop :=
  ∀ k, st.calls k = .waiting ↔ (s.pendingCalls (k.on link)).isSome

omit [DecidableEq ι] in
/-- A response is a result here if `routeResponse` of the calls takes it to a channel. -/
theorem Path.Pending.routeResponse {γ ν : Type} [DecidableEq γ] [DecidableEq ν] {st : Path ι}
    {link : Nat} {s s' : Calls.Process γ ν} {key : γ → Calls.CallKey} {hdr : ν → Calls.CallKey} {n : ν}
    {h : Header} (hp : st.Pending link s) (hn : hdr n = h.callKey.on link)
    (hstep : Calls.step key hdr s (.routeResponse n) = some s') (r : Except Err Seen) :
    (st.routeResponse h r).Pending link s' ∧
      ((st.routeResponse h r).results = st.results ↔ s'.responses n = .dropped) := by
  have hkey : ∀ k : CallKey, k.on link = h.callKey.on link ↔ k = h.callKey := by
    rintro ⟨⟩
    simp [CallKey.on, Header.callKey]
  have hwait := hp h.callKey
  unfold Path.routeResponse Path.resolve
  unfold Calls.step at hstep
  dsimp only at hstep
  rw [hn] at hstep
  split at hstep <;> cases hstep
  · next ch c hs hfound =>
    rw [if_pos (hwait.mpr (by rw [hfound]; rfl))]
    refine ⟨fun k => ?_, by simp⟩
    by_cases hk : k = h.callKey
    · simp [hk, Calls.Process.delete]
    · simpa [hk, Calls.Process.delete, Function.update_of_ne (mt (hkey k).mp hk)] using hp k
  · next hs hfound =>
    rw [if_neg (mt hwait.mp (by rw [hfound]; simp))]
    exact ⟨hp, by simp⟩

/-- Best effort: `room` is whether the control queue takes the job. -/
def Path.refuseRequest (st : Path ι) (h : Header) (room : Bool) : Path ι :=
  if room then { st with refusals := st.refusals ++ [h] } else st

def Path.route (st : Path ι) (room : Bool) : Outcome → Path ι
  | .chunkPartial => st
  | .chunkComplete m =>
    if m.header.isResponse then st.routeResponse m.header (.ok (Outcome.chunkComplete m).seen) else st
  | .chunkAborted h => if h.isResponse then st.routeResponse h (.error .messageAborted) else st
  | .chunkRefused h =>
    if h.isResponse then st.routeResponse h (.error .reassemblyLimit)
    else if h.isRequest then st.refuseRequest h room
    else st

def Path.reportReclaimed (st : Path ι) (h : Header) (room : Bool) : Path ι :=
  if h.isResponse then st.routeResponse h (.error .reassemblyLimit) else st.refuseRequest h room

def Send.callKey (p : Send) : CallKey := ⟨p.connectionID, p.messageID⟩

inductive PathAct (ι : Type) where
  | frame (i : ι) (env : Env) (room : Bool)
  | report (room : Bool)
  | register (k : CallKey)
  | giveUp (k : CallKey)

variable (cfg : Config) {size : BufferSize} (sends : ι → Send) (tx : ι → Nat → Option (Slot size))

/-- The loop reports what was reclaimed before it takes the next frame. The peer answers
only calls that were made. -/
def pathStep (st : Path ι) : PathAct ι → Option (Path ι)
  | .frame i env room =>
    if st.feed.rx.reclaimed ≠ [] ∨
        ((sends i).key.kind = advFlagResponse ∧ st.calls (sends i).callKey = .idle) then none
    else match st.feed.queue i with
      | [] => none
      | f :: rest =>
        (consumeAdvancedChunk cfg env st.feed.rx f).map fun r =>
          let st' := { st with feed := st.feed.after sends i rest r }
          match r.2 with
          | .ok o => st'.route room o
          | .error _ => st'
  | .report room =>
    st.feed.rx.reclaimed.getLast?.map fun h =>
      let rx := { st.feed.rx with reclaimed := st.feed.rx.reclaimed.dropLast }
      { st with feed := { st.feed with rx := rx } }.reportReclaimed h room
  | .register k =>
    if st.calls k = .idle then some { st with calls := Function.update st.calls k .waiting }
    else none
  | .giveUp k =>
    if st.calls k = .waiting then some { st with calls := Function.update st.calls k .gaveUp }
    else none

def pathMachine : Machine (Path ι) (PathAct ι) where
  init := ⟨(feedMachine cfg sends tx).init, fun _ => .idle, [], []⟩
  step := pathStep cfg sends

/-! ## As if they had not been sent -/

variable {cfg sends tx} {feed t : Feed ι} {L : Finset ι} {i : ι} {env : Env}

theorem Tracks.live_of_inFlight (h : Tracks cfg sends tx feed)
    (hflight : feed.InFlight cfg sends tx i) (hkept : i ∉ feed.lost) :
    ∃ offset a, feed.rx.assemblies.lookup (sends i).key = some a ∧ a.Holds cfg (sends i) offset := by
  cases h.stage i with
  | fresh rest absent all none kept =>
    have := hflight.2.1
    rw [all] at this
    exact absurd this (Nat.lt_irrefl _)
  | live offset a lo hi rest fewer look holds none kept => exact ⟨offset, a, look, holds⟩
  | dropped offset lo hi rest look drained quiet gone => exact absurd gone hkept
  | ended empty closed absent good quiet =>
    rcases hflight.2.2 with hne | hcut
    · exact absurd empty hne
    · exact absurd hcut closed

theorem Tracks.queue_eq (h : Tracks cfg sends tx feed) (hkept : i ∉ feed.lost)
    (hlen : (feed.queue i).length = (sentBy cfg sends tx i).frames.length) :
    feed.queue i = (sentBy cfg sends tx i).frames := by
  cases h.stage i with
  | fresh rest absent all none kept => exact all
  | live offset a lo hi rest fewer look holds none kept => omega
  | dropped offset lo hi rest look drained quiet gone => exact absurd gone hkept
  | ended empty closed absent good quiet =>
    rw [empty] at hlen ⊢
    exact (List.eq_nil_of_length_eq_zero hlen.symm).symm

theorem inFlight_after {rest : List Frame} {f : Frame} {r : Rx × Result}
    (hall : f :: rest = (sentBy cfg sends tx i).frames)
    (hmany : size.1 < (sends i).totalSize cfg) :
    (feed.after sends i rest r).InFlight cfg sends tx i := by
  refine ⟨hmany, ?_, ?_⟩
  · rw [queue_after_self, ← hall]
    exact Nat.lt_succ_self _
  · have hrest := sendAdvancedPayload_rest cfg (tx i) (sends i)
    rw [queue_after_self]
    rw [show (sendAdvancedPayload cfg (tx i) (sends i)).frames = f :: rest from hall.symm] at hrest
    change Rest cfg size (sends i) 0 (f :: rest) (sentBy cfg sends tx i).fate at hrest
    generalize (sentBy cfg sends tx i).fate = fate at hrest
    cases hrest with
    | aborted hpos => exact absurd hpos (Nat.lt_irrefl 0)
    | chunk _ _ _ hnext =>
      cases hnext with
      | whole _ hle => omega
      | cut _ => exact .inr rfl
      | aborted _ _ _ | chunk _ _ _ _ => exact .inl (List.cons_ne_nil _ _)

/-- `t` is a run in which the messages of `L` were never sent. -/
structure AsIf (cfg : Config) {size : BufferSize} (sends : ι → Send)
    (tx : ι → Nat → Option (Slot size)) (L : Finset ι) (feed t : Feed ι) : Prop where
  tracks : Tracks cfg sends tx t
  none : t.lost = ∅
  same : ∀ j, j ∉ L → t.queue j = feed.queue j
  unsent : ∀ j, j ∈ L → t.queue j = (sentBy cfg sends tx j).frames
  log : t.log.map (fun e => (e.1, e.2.seen)) =
    (feed.log.filter (·.1 ∉ L)).map fun e => (e.1, e.2.seen)

theorem AsIf.hasRoom (h : AsIf cfg sends tx L feed t) (hkeys : Function.Injective fun i => (sends i).key)
    {rest : List Frame} {f : Frame} {r : Rx × Result}
    (hafter : Tracks cfg sends tx (feed.after sends i rest r))
    (hL : (feed.after sends i rest r).lost ⊆ L) (hi : i ∉ L)
    (hall : f :: rest = (sentBy cfg sends tx i).frames) (hqueue : t.queue i = f :: rest)
    (hmany : size.1 < (sends i).totalSize cfg) : t.rx.HasRoom cfg (sends i) := by
  obtain ⟨offset, a, hlook, hholds⟩ := hafter.live_of_inFlight (inFlight_after hall hmany)
    fun hin => hi (hL hin)
  have hle : Table.total Assembly.charged t.rx.assemblies ≤ Table.total Assembly.charged
      ((feed.after sends i rest r).rx.assemblies.erase (sends i).key) := by
    apply Table.total_le_total
    intro k b hb
    obtain ⟨j, rfl⟩ := h.tracks.owned k (by rw [hb]; rfl)
    have hflight := h.tracks.inFlight (i := j) (by rw [hb]; rfl)
    have hji : j ≠ i := by
      rintro rfl
      have := hflight.2.1
      rw [hqueue, hall] at this
      exact absurd this (Nat.lt_irrefl _)
    have hj : j ∉ L := by
      intro hin
      have := hflight.2.1
      rw [h.unsent j hin] at this
      exact absurd this (Nat.lt_irrefl _)
    have hsame : (feed.after sends i rest r).queue j = t.queue j :=
      (queue_after_ne hji).trans (h.same j hj).symm
    have hflight' : (feed.after sends i rest r).InFlight cfg sends tx j := by
      unfold Feed.InFlight
      rw [hsame]
      exact hflight
    obtain ⟨o', b', hlook', hholds'⟩ := hafter.live_of_inFlight hflight' fun hin => hj (hL hin)
    obtain ⟨-, -, o, b'', -, -, -, -, hb'', hholds''⟩ := h.tracks.live (i := j) (by rw [hb]; rfl)
    rw [hb, Option.some.injEq] at hb''
    refine ⟨b', (AList.lookup_erase_ne fun he => hji (hkeys he)).trans hlook', ?_⟩
    rw [Assembly.charged, Assembly.charged, hb'', hholds''.size, hholds'.size]
  have htotal := hafter.inv.bytes
  have hbound := hafter.inv.bounded
  rw [Table.total_erase hlook, Assembly.charged, hholds.size] at htotal
  rw [BitVec.le_def] at hbound
  unfold Rx.HasRoom
  rw [h.tracks.inv.bytes]
  omega

theorem AsIf.skip (h : AsIf cfg sends tx L feed t) {rest : List Frame} {r : Rx × Result}
    (hi : i ∈ L) : AsIf cfg sends tx L (feed.after sends i rest r) t where
  tracks := h.tracks
  none := h.none
  same j hj := by
    have hji : j ≠ i := fun he => hj (he ▸ hi)
    rw [queue_after_ne hji, h.same j hj]
  unsent := h.unsent
  log := by
    rw [h.log]
    simp [Feed.after, List.filter_append, hi]

theorem AsIf.frame (h : AsIf cfg sends tx L feed t) (env' : Env)
    (hkeys : Function.Injective fun i => (sends i).key)
    (hfeed : Tracks cfg sends tx feed) {f : Frame} {rest : List Frame} {r : Rx × Result}
    {ks : List Key} (hqueue : feed.queue i = f :: rest)
    (hf : FrameStep cfg env size (sends i) (sentBy cfg sends tx i) feed.rx f rest (i ∈ feed.lost)
      (feed.seen i) r.1 r.2 ks)
    (hL : (feed.after sends i rest r).lost ⊆ L) (hi : i ∉ L) :
    ∃ t', feedStep cfg sends t (i, env') = some t' ∧
      AsIf cfg sends tx L (feed.after sends i rest r) t' := by
  have hafter := hfeed.after hkeys hf
  have hkept : i ∉ feed.lost := fun hin => hi (hL (mem_lost_after.mpr (.inl hin)))
  have htqueue : t.queue i = f :: rest := (h.same i hi).trans hqueue
  obtain ⟨t', hstep⟩ := h.tracks.enabled env' (htqueue ▸ List.cons_ne_nil f rest)
  obtain ⟨f', rest', r', ks', hq', rfl, hf'⟩ := h.tracks.step_cases hstep
  obtain ⟨rfl, rfl⟩ := List.cons.inj (htqueue.symm.trans hq')
  have hroom : rest.length + 1 = (sentBy cfg sends tx i).frames.length →
      size.1 < (sends i).totalSize cfg → t.rx.HasRoom cfg (sends i) := by
    intro hlen hmany
    exact h.hasRoom hkeys hafter hL hi (hqueue ▸ hfeed.queue_eq hkept (hqueue ▸ hlen)) htqueue hmany
  have hnone := (h.tracks.lost_after_calm hkeys hf' (hf'.calm hroom)).trans h.none
  have htracks := h.tracks.after hkeys hf'
  have hseen : r'.2.seen = r.2.seen := by
    have h1 := (hafter.stage i).seen_eq fun hin => hi (hL hin)
    have h2 := (htracks.stage i).seen_eq (by rw [hnone]; exact Finset.notMem_empty i)
    rw [queue_after_self, seen_after_self] at h1
    rw [queue_after_self, ← h1, seen_after_self] at h2
    exact (List.cons.inj (List.append_inj' h2 rfl).2).1
  refine ⟨_, hstep, htracks, hnone, ?_, ?_, ?_⟩
  · intro j hj
    by_cases hji : j = i
    · subst hji
      rw [queue_after_self, queue_after_self]
    · rw [queue_after_ne hji, queue_after_ne hji, h.same j hj]
  · intro j hj
    have hji : j ≠ i := fun he => hi (he ▸ hj)
    rw [queue_after_ne hji, h.unsent j hj]
  · simp only [Feed.after, List.filter_append, List.map_append, h.log]
    simp [hi, hseen]

/-! ## What is reported -/

def Send.report (cfg : Config) (p : Send) : Header := p.header cfg advFlagAbort

def KindFlags (flags kind : Word) : Prop :=
  (Has flags advFlagRequest ↔ kind = advFlagRequest) ∧
    (Has flags advFlagResponse ↔ kind = advFlagResponse) ∧
    flags &&& (advFlagRequest ||| advFlagResponse) = kind

instance (flags kind : Word) : Decidable (KindFlags flags kind) := inferInstanceAs (Decidable (_ ∧ _))

variable (cfg) in
theorem kindFlags (p : Send) :
    KindFlags (p.baseFlags cfg ||| advFlagAbort) p.key.kind ∧
      KindFlags (advFlagAbort ||| p.baseFlags cfg) p.key.kind ∧
      KindFlags (p.baseFlags cfg ||| (advFlagBegin ||| advFlagEnd)) p.key.kind := by
  refine of_flagWords cfg p (P := fun w => KindFlags (w.2.1 ||| advFlagAbort) w.2.2.1 ∧
    KindFlags (advFlagAbort ||| w.2.1) w.2.2.1 ∧
    KindFlags (w.2.1 ||| (advFlagBegin ||| advFlagEnd)) w.2.2.1) ?_
  decide

theorem report_isRequest (p : Send) :
    (p.report cfg).isRequest ↔ p.key.kind = advFlagRequest := (kindFlags cfg p).1.1

theorem report_isResponse (p : Send) :
    (p.report cfg).isResponse ↔ p.key.kind = advFlagResponse := (kindFlags cfg p).1.2.1

theorem report_inj {p q : Send} (h : p.report cfg = q.report cfg) : p.key = q.key := by
  have hp := (kindFlags cfg p).1.2.2
  have hq := (kindFlags cfg q).1.2.2
  have hflags : p.baseFlags cfg ||| advFlagAbort = q.baseFlags cfg ||| advFlagAbort :=
    congrArg Header.flags h
  rw [hflags, hq] at hp
  have hstream : p.connectionID = q.connectionID := congrArg Header.streamID h
  have hid : p.messageID = q.messageID := congrArg Header.messageID h
  calc p.key = ⟨p.connectionID, p.messageID, p.key.kind⟩ := rfl
    _ = ⟨q.connectionID, q.messageID, q.key.kind⟩ := by rw [hstream, hid, hp]
    _ = q.key := rfl

def Send.Awaited (p : Send) : Prop := p.key.kind = advFlagRequest ∨ p.key.kind = advFlagResponse

instance (p : Send) : Decidable p.Awaited := inferInstanceAs (Decidable (_ ∨ _))

theorem eq_report_of_mem {p : Send} {x : Header}
    (h : x ∈ if p.Awaited then [p.report cfg] else []) : x = p.report cfg := by
  split at h
  · exact List.mem_singleton.mp h
  · cases h

theorem Tracks.reportOf (h : Tracks cfg sends tx feed)
    (hl : (feed.rx.assemblies.lookup (sends i).key).isSome) :
    feed.rx.reportOf (sends i).key =
      if (sends i).Awaited then [(sends i).report cfg] else [] := by
  obtain ⟨-, -, offset, a, -, -, -, -, hlook, hholds⟩ := h.live hl
  have hheader : a.header.abort = (sends i).report cfg := by
    rw [hholds.header]
    rfl
  unfold Rx.reportOf
  rw [hlook]
  dsimp only
  rw [hheader]
  exact if_congr (or_congr (report_isRequest _) (report_isResponse _)) rfl rfl

section Reports

variable (hkeys : Function.Injective fun i => (sends i).key) (h : Tracks cfg sends tx feed)
  {f : Frame} {rest : List Frame} {r : Rx × Result} {ks : List Key}
  (hf : FrameStep cfg env size (sends i) (sentBy cfg sends tx i) feed.rx f rest (i ∈ feed.lost)
    (feed.seen i) r.1 r.2 ks) (hempty : feed.rx.reclaimed = [])
include h hf hempty

omit hempty in
theorem Tracks.owner_of_mem {k : Key} (hk : k ∈ ks) :
    ∃ j, (sends j).key = k ∧ j ≠ i ∧ (feed.rx.assemblies.lookup (sends j).key).isSome := by
  have hrec := hf.moves.gone k hk
  obtain ⟨j, rfl⟩ := h.owned k hrec.live
  exact ⟨j, rfl, fun he => hf.moves.other (he ▸ hk), hrec.live⟩

theorem Tracks.mem_reclaimed_after {x : Header} :
    x ∈ r.1.reclaimed ↔ ∃ j, (sends j).key ∈ ks ∧ (sends j).Awaited ∧ x = (sends j).report cfg := by
  rw [hf.moves.reports, hempty, List.nil_append, List.mem_flatMap]
  constructor
  · rintro ⟨k, hk, hx⟩
    obtain ⟨j, rfl, -, hl⟩ := h.owner_of_mem hf hk
    rw [h.reportOf hl] at hx
    refine ⟨j, hk, ?_, eq_report_of_mem hx⟩
    by_contra hnot
    rw [if_neg hnot] at hx
    cases hx
  · rintro ⟨j, hk, haw, rfl⟩
    obtain ⟨j', hj', -, hl⟩ := h.owner_of_mem hf hk
    rw [hj'] at hl
    exact ⟨_, hk, by rw [h.reportOf hl, if_pos haw]; exact List.mem_singleton_self _⟩

theorem Tracks.nodup_reclaimed_after : r.1.reclaimed.Nodup := by
  rw [hf.moves.reports, hempty, List.nil_append, List.nodup_flatMap]
  constructor
  · intro k hk
    obtain ⟨j, rfl, -, hl⟩ := h.owner_of_mem hf hk
    rw [h.reportOf hl]
    split
    · exact List.nodup_singleton _
    · exact .nil
  · refine hf.moves.nodup.imp_of_mem fun {k k'} hk hk' hne => ?_
    obtain ⟨j, rfl, -, hl⟩ := h.owner_of_mem hf hk
    obtain ⟨j', rfl, -, hl'⟩ := h.owner_of_mem hf hk'
    rw [Function.onFun, h.reportOf hl, h.reportOf hl']
    intro x hx hx'
    exact hne (report_inj ((eq_report_of_mem hx).symm.trans (eq_report_of_mem hx')))

end Reports

end Hqq.Advanced
