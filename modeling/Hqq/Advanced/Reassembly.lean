import Hqq.Advanced.Chunking

/-!
# One message at the receiver

What `consumeAdvancedChunk` does with a frame of a sender that keeps to the protocol.
-/

namespace Hqq.Advanced

variable {cfg : Config} {env : Env} {size : BufferSize} {s : Rx} {f : Frame} {p : Send}
  {a : Assembly} {offset : Nat}

/-! ## What a caller sees of an outcome -/

inductive Seen where
  | nothing
  | message (header : Header) (bytes : Option (List Byte)) (msgMeta : MsgMeta)
  | aborted (header : Header)
  | refused (header : Header)
  deriving DecidableEq

def Outcome.seen : Outcome → Seen
  | .chunkPartial => .nothing
  | .chunkComplete m => .message m.header m.bytes { m.msgMeta with recvAt := 0 }
  | .chunkAborted h => .aborted h
  | .chunkRefused h => .refused h

def Send.header (cfg : Config) (p : Send) (flags : Word) : Header :=
  ⟨p.connectionID, p.messageID, p.baseFlags cfg ||| flags, p.aux⟩

def Send.told (cfg : Config) (p : Send) : MsgMeta :=
  match p.kind with
  | .request budget opts => if p.metaBlock cfg = [] then MsgMeta.none else MsgMeta.told budget opts
  | _ => MsgMeta.none

def Send.delivered (cfg : Config) (p : Send) : Seen :=
  .message (p.header cfg (advFlagBegin ||| advFlagEnd))
    (some (if p.metaBlock cfg = [] then p.body cfg else p.payload.1)) (p.told cfg)

theorem Send.metaBlock_eq (p : Send) (h : p.metaBlock cfg ≠ []) :
    ∃ budget opts, p.kind = .request budget opts ∧ p.metaBlock cfg = putMeta budget opts := by
  unfold Send.metaBlock at h ⊢
  split at h
  · rename_i budget opts hkind
    split at h
    · rename_i hon
      exact ⟨budget, opts, hkind, if_pos hon⟩
    · exact absurd rfl h
  · exact absurd rfl h

theorem finish_delivered {m : Message} (recvAt : Nat)
    (hheader : m.header = p.header cfg (advFlagBegin ||| advFlagEnd))
    (hflags : Has m.header.flags advFlagMeta ↔ p.metaBlock cfg ≠ [])
    (hn : m.n = p.totalSize cfg) (hoff : m.off = 0) (hmeta : m.msgMeta = MsgMeta.none)
    (hlen : m.n ≤ m.data.length) (hdata : m.data.take m.n = p.body cfg) :
    ∃ m', m.finish recvAt = some (.ok (.chunkComplete m')) ∧
      (Outcome.chunkComplete m').seen = p.delivered cfg := by
  have hlength := length_body cfg p
  unfold Message.finish
  by_cases hblock : p.metaBlock cfg = []
  · rw [if_neg (fun h => hflags.mp h hblock)]
    refine ⟨m, rfl, ?_⟩
    have hbytes : m.bytes = some (p.body cfg) := by
      rw [Message.bytes, hoff, Nat.zero_add, slice_zero hlen, hdata]
    have htold : p.told cfg = MsgMeta.none := by
      unfold Send.told
      split
      · exact if_pos hblock
      · rfl
    simp only [Outcome.seen, Send.delivered, hheader, hbytes, hmeta, htold, if_pos hblock]
    rfl
  · rw [if_pos (hflags.mpr hblock)]
    obtain ⟨budget, opts, hkind, hput⟩ := p.metaBlock_eq hblock
    have hbody : p.body cfg = putMeta budget opts ++ p.payload.1 := by
      rw [Send.body, Send.block, if_neg hblock, hput]
    have hparse : parseMeta (m.data.take m.n) =
        .ok (MsgMeta.told budget opts, (putMeta budget opts).length) := by
      rw [hdata, hbody]
      exact parseMeta_putMeta p.payload.1 (hput ▸ hblock)
    simp only [Message.stripMeta, slice_zero hlen, Option.map_some, hparse]
    refine ⟨_, rfl, ?_⟩
    have hsplit : (putMeta budget opts).length + p.payload.1.length = m.n := by
      rw [hn, ← hlength, hbody, List.length_append]
    have hbytes : slice m.data (putMeta budget opts).length m.n = some p.payload.1 := by
      rw [slice, if_pos ⟨by omega, hlen⟩, hdata, hbody, List.drop_left]
    have htold : p.told cfg = MsgMeta.told budget opts := by
      simp only [Send.told, hkind, if_neg hblock]
    simp only [Outcome.seen, Send.delivered, Message.bytes, hheader, htold, if_neg hblock]
    rw [show (putMeta budget opts).length + (m.n - (putMeta budget opts).length) = m.n by omega,
      hbytes]
    rfl

/-! ## The frames of a message pass the checks -/

theorem IsChunk.key (h : IsChunk cfg size p offset f) : f.key = p.key := by
  unfold Frame.key
  rw [h.connectionID, h.messageID, h.flags.kind]
  rfl

theorem or_and_self (x y : Word) : (x ||| y) &&& y = y := by
  ext i hi
  simp
  tauto

theorem IsChunk.sized (h : IsChunk cfg size p offset f)
    (hmax : p.totalSize cfg ≤ cfg.maxMessageSize.toNat)
    (hin : offset = 0 ∨ offset < p.totalSize cfg) : f.Sized cfg := by
  have htotal := h.total
  have hlength := h.length
  have hoffset := h.at_offset
  have hsize := size.2
  have hle := totalSize_le cfg p
  refine ⟨h.inBuffer, by omega, ?_, ?_, ?_, ?_, by unfold maxInt64; omega⟩
  · rw [BitVec.le_def, htotal]
    exact hmax
  · intro hzero
    have hempty : p.totalSize cfg = 0 := by rw [← htotal, hzero]; rfl
    rw [h.flags.whole (by omega) (by omega)]
    exact or_and_self _ _
  · intro hne hzero
    have hpos : 0 < f.totalSize.toNat := by
      have := pos_iff_ne_zero.mpr hne
      rwa [BitVec.lt_def] at this
    have hnone : f.chunkSize.toNat = 0 := by rw [hzero]; rfl
    omega
  · intro hne
    have hpos : offset ≠ 0 := by
      rintro rfl
      exact hne (BitVec.eq_of_toNat_eq hoffset)
    rw [h.aux, if_neg hpos]

/-! ## Which branch a frame takes -/

def Rx.counted (s : Rx) : Rx := { s with chunks := s.chunks + 1 }

theorem consume_first (h : IsChunk cfg size p 0 f) (hf : f.Sized cfg)
    (hlive : s.assemblies.lookup p.key = none) (hnew : ¬ s.isRejected p.key) :
    consumeAdvancedChunk cfg env s f =
      if p.totalSize cfg ≤ size.1 then s.counted.single cfg env f
      else s.counted.start cfg env f := by
  have hfree : ¬ (f.chunkOffset ≠ 0 ∨ (s.counted.assemblies.lookup f.key).isSome ∨
      s.counted.isRejected f.key) := by
    rw [h.key]
    rintro (ho | hl | hr)
    · exact ho (BitVec.eq_of_toNat_eq h.at_offset)
    · rw [show s.counted.assemblies = s.assemblies from rfl, hlive] at hl
      cases hl
    · exact hnew hr
  have hend : Has f.flags advFlagEnd ↔ p.totalSize cfg ≤ size.1 := by
    rw [h.flags.end_iff, Nat.zero_add]
  unfold consumeAdvancedChunk
  rw [if_neg h.flags.good, if_neg h.flags.notAbort, checkSizes_eq_none.mpr hf]
  rw [if_pos (h.flags.begin_iff.mpr rfl)]
  exact (if_neg hfree).trans (if_congr hend rfl rfl)

theorem consume_next (h : IsChunk cfg size p offset f) (hf : f.Sized cfg) (hpos : 0 < offset) :
    consumeAdvancedChunk cfg env s f =
      match s.assemblies.lookup p.key with
      | some a => s.counted.append f a
      | none => some (s.counted.orphan f) := by
  unfold consumeAdvancedChunk
  rw [if_neg h.flags.good, if_neg h.flags.notAbort, checkSizes_eq_none.mpr hf]
  rw [if_neg (fun hb => by have := h.flags.begin_iff.mp hb; omega), h.key]
  rfl

variable (env s) in
theorem consume_abort (h : IsAbort cfg p f) :
    consumeAdvancedChunk cfg env s f = some (s.counted.abort f) := by
  unfold consumeAdvancedChunk
  rw [if_neg h.good, if_pos h.isAbort]
  rfl

/-! ## An assembly on its way -/

structure Assembly.Holds (cfg : Config) (p : Send) (offset : Nat) (a : Assembly) : Prop where
  header : a.header = ⟨p.connectionID, p.messageID, p.baseFlags cfg, p.aux⟩
  size : a.size.toNat = p.totalSize cfg
  next : a.next.toNat = offset
  bytes : a.msg.data.take offset = (p.body cfg).take offset
  off : a.msg.off = 0
  msgMeta : a.msg.msgMeta = MsgMeta.none

theorem baseFlags_meta (p : Send) :
    Has (p.baseFlags cfg ||| (advFlagBegin ||| advFlagEnd)) advFlagMeta ↔ p.metaBlock cfg ≠ [] := by
  have h := flagsOk cfg p True True
  rw [← h.meta_iff, h.whole trivial trivial]

theorem IsChunk.continues (h : IsChunk cfg size p offset f) (ha : a.Holds cfg p offset) :
    f.chunkOffset = a.next ∧ a.size = f.totalSize := by
  constructor
  · exact BitVec.eq_of_toNat_eq (h.at_offset.trans ha.next.symm)
  · exact BitVec.eq_of_toNat_eq (ha.size.trans h.total.symm)

theorem Assembly.Holds.grown (ha : a.Holds cfg p offset) (hs : a.Sound)
    (h : IsChunk cfg size p offset f) (hf : f.Sized cfg) (chunks : Word) :
    (a.grown chunks f).Holds cfg p (min (offset + size.1) (p.totalSize cfg)) := by
  obtain ⟨hnext, hsize⟩ := h.continues ha
  have hin := hf.inMessage
  have hlength := h.length
  have hoffset := h.at_offset
  have htotal := h.total
  have hstop : min (offset + size.1) (p.totalSize cfg) = offset + f.chunkSize.toNat := by omega
  refine ⟨ha.header, ha.size, ?_, ?_, ha.off, ha.msgMeta⟩
  · rw [grown_next hf hnext, hoffset, hstop]
  · have hroom := hs.size_le
    have hdata : ((a.msg.data.take offset) ++ f.buffer.take f.chunkSize.toNat).length =
        offset + f.chunkSize.toNat := by
      have := h.inBuffer
      have := ha.size
      rw [List.length_append, List.length_take, List.length_take]
      omega
    rw [← length_body, ← List.take_eq_take_min, List.take_add, ← ha.bytes, ← h.bytes]
    simp only [Assembly.grown, hoffset]
    rw [length_body, hstop, ← hdata, List.take_left]

theorem append_more (hs : a.Sound) (ha : a.Holds cfg p offset) (h : IsChunk cfg size p offset f)
    (hf : f.Sized cfg) (hmore : offset + size.1 < p.totalSize cfg) :
    s.append f a = some (s.store p.key (a.grown s.chunks f), .ok .chunkPartial) := by
  obtain ⟨hnext, hsize⟩ := h.continues ha
  have hend : ¬ Has f.flags advFlagEnd := by
    rw [h.flags.end_iff]
    omega
  rw [append_eq hs hf hnext hsize]
  rw [if_pos hend, h.key]

theorem append_last (hs : a.Sound) (ha : a.Holds cfg p offset) (h : IsChunk cfg size p offset f)
    (hf : f.Sized cfg) (hlast : p.totalSize cfg ≤ offset + size.1) :
    ∃ m, s.append f a =
        some ((s.store p.key (a.grown s.chunks f)).dropAssembly p.key, .ok (.chunkComplete m)) ∧
      (Outcome.chunkComplete m).seen = p.delivered cfg := by
  obtain ⟨hnext, hsize⟩ := h.continues ha
  have hend : ¬¬ Has f.flags advFlagEnd := not_not.mpr (h.flags.end_iff.mpr hlast)
  have hg := ha.grown hs h hf s.chunks
  have hgs := hs.grown hf hnext hsize s.chunks
  rw [min_eq_right hlast] at hg
  have hfull : ¬ (a.grown s.chunks f).next ≠ f.totalSize :=
    not_not.mpr (BitVec.eq_of_toNat_eq (hg.next.trans h.total.symm))
  have hheader : (a.grown s.chunks f).message.header =
      p.header cfg (advFlagBegin ||| advFlagEnd) := by
    simp only [Assembly.message, hg.header]
    rfl
  have hn : (a.grown s.chunks f).message.n = p.totalSize cfg := hgs.length.trans hg.size
  have hbytes : (a.grown s.chunks f).message.data.take (a.grown s.chunks f).message.n =
      p.body cfg := by
    rw [hn]
    refine hg.bytes.trans ?_
    rw [← length_body, List.take_length]
  obtain ⟨m, hm, hseen⟩ := finish_delivered a.recvAt hheader
    (by rw [hheader]; exact baseFlags_meta p) hn hg.off hg.msgMeta
    (hgs.length.le.trans hgs.size_le) hbytes
  refine ⟨m, ?_, hseen⟩
  rw [append_eq hs hf hnext hsize]
  rw [if_neg hend, if_neg hfull, hm, h.key]
  rfl

/-! ## The first frame -/

variable (env s) in
theorem single_delivered (h : IsChunk cfg size p 0 f) (hf : f.Sized cfg)
    (hone : p.totalSize cfg ≤ size.1) :
    ∃ m, s.single cfg env f = some (s, .ok (.chunkComplete m)) ∧
      (Outcome.chunkComplete m).seen = p.delivered cfg := by
  have hlength := h.length
  have htotal := h.total
  have hall : f.chunkSize = f.totalSize := BitVec.eq_of_toNat_eq (by omega)
  obtain ⟨m, hm, hn, hoff, hmeta, hlen, hdata, hsingle⟩ := single_eq env s hf hall
  have hheader : m.header = p.header cfg (advFlagBegin ||| advFlagEnd) := by
    rw [hm, Frame.header, h.connectionID, h.messageID, h.aux, if_pos rfl,
      h.flags.whole rfl (by omega)]
    rfl
  have hbytes : m.data.take m.n = p.body cfg := by
    rw [hdata, ← hall, h.bytes, List.drop_zero]
    exact List.take_of_length_le (by rw [length_body]; exact hone)
  obtain ⟨m', hm', hseen⟩ := finish_delivered (f.recvAt env) hheader
    (by rw [hheader]; exact baseFlags_meta p) (hn.trans htotal) hoff hmeta hlen hbytes
  exact ⟨m', by rw [hsingle, hm']; rfl, hseen⟩

def Rx.HasRoom (cfg : Config) (s : Rx) (p : Send) : Prop :=
  s.assemblyBytes.toNat + (p.totalSize cfg + advancedAssemblyOverhead.toNat) ≤
    cfg.maxReassemblyBytes.toNat

theorem toNat_charge_of_chunk (h : IsChunk cfg size p offset f) (hf : f.Sized cfg) :
    (f.totalSize + advancedAssemblyOverhead).toNat =
      p.totalSize cfg + advancedAssemblyOverhead.toNat := by
  rw [toNat_charge hf.isInt, h.total]

theorem fits_iff {charge : Word} (hle : charge ≤ cfg.maxReassemblyBytes) :
    s.Fits cfg charge ↔ s.assemblyBytes.toNat + charge.toNat ≤ cfg.maxReassemblyBytes.toNat := by
  unfold Rx.Fits
  rw [BitVec.le_def, BitVec.toNat_sub_of_le hle]
  rw [BitVec.le_def] at hle
  omega

theorem hasRoom_iff (h : IsChunk cfg size p offset f) (hf : f.Sized cfg) :
    s.HasRoom cfg p ↔ ¬ (cfg.maxReassemblyBytes < f.totalSize + advancedAssemblyOverhead ∨
      ¬ s.Fits cfg (f.totalSize + advancedAssemblyOverhead)) := by
  have hc := toNat_charge_of_chunk h hf
  unfold Rx.HasRoom
  rw [not_or, not_not, BitVec.not_lt]
  constructor
  · intro hroom
    have hle : f.totalSize + advancedAssemblyOverhead ≤ cfg.maxReassemblyBytes := by
      rw [BitVec.le_def]
      omega
    exact ⟨hle, (fits_iff hle).mpr (by omega)⟩
  · rintro ⟨hle, hfits⟩
    have := (fits_iff hle).mp hfits
    omega

theorem reclaimIdle_of_hasRoom (h : IsChunk cfg size p offset f) (hf : f.Sized cfg)
    (hroom : s.HasRoom cfg p) :
    s.reclaimIdle cfg env (f.totalSize + advancedAssemblyOverhead) = s := by
  have := (hasRoom_iff h hf).mp hroom
  rw [not_or, not_not] at this
  unfold Rx.reclaimIdle
  rw [if_pos (.inr this.2)]

section Start

variable {t : Rx} (hsweep : s.reclaimIdle cfg env (f.totalSize + advancedAssemblyOverhead) = t)
include hsweep

theorem start_refused (h : IsChunk cfg size p 0 f) (hf : f.Sized cfg) (hfull : ¬ t.HasRoom cfg p) :
    s.start cfg env f =
      some (t.rejectMessage p.key, .ok (.chunkRefused (p.header cfg advFlagAbort))) := by
  rw [hasRoom_iff h hf, not_not] at hfull
  have hheader : f.assemblyHeader.abort = p.header cfg advFlagAbort := by
    simp only [Frame.assemblyHeader, Frame.header, Header.abort, h.connectionID, h.messageID, h.aux,
      h.flags.base, if_true, Send.header]
  unfold Rx.start
  dsimp only
  rw [hsweep, if_pos hfull, h.key, hheader]

theorem start_admitted (h : IsChunk cfg size p 0 f) (hf : f.Sized cfg)
    (hmany : size.1 < p.totalSize cfg) (hroom : t.HasRoom cfg p) :
    ∃ s1 a, s.start cfg env f = some (Rx.store s1 p.key a, .ok .chunkPartial) ∧
      a.Holds cfg p size.1 ∧
      (∀ k, k ≠ p.key → s1.assemblies.lookup k = t.assemblies.lookup k) ∧
      s1.rejected = t.rejected ∧ s1.rejectedEvicted = t.rejectedEvicted ∧
      s1.reclaimed = t.reclaimed := by
  rw [hasRoom_iff h hf] at hroom
  obtain ⟨m, hm, hn, hoff, hmeta, hlen⟩ := poolGet_eq env hf.notTooLong hf.isInt
  have hheader : f.assemblyHeader = ⟨p.connectionID, p.messageID, p.baseFlags cfg, p.aux⟩ := by
    simp only [Frame.assemblyHeader, Frame.header, h.connectionID, h.messageID, h.aux,
      h.flags.base, if_true]
  generalize ha : (⟨f.assemblyHeader, m, f.totalSize, 0, 0, f.recvAt env⟩ : Assembly) = a
  have hsound : a.Sound := ha ▸ ⟨Nat.zero_le _, hlen, hf.isInt, hn⟩
  have hholds : a.Holds cfg p 0 := ha ▸ ⟨hheader, h.total, rfl, by simp, hoff, hmeta⟩
  have hgrown (chunks : Word) : (a.grown chunks f).Holds cfg p size.1 := by
    have := hholds.grown hsound h hf chunks
    rwa [Nat.zero_add, min_eq_left hmany.le] at this
  unfold Rx.start
  dsimp only
  rw [hsweep, if_neg hroom, hm, Option.bind_eq_bind, Option.bind_some, ha,
    append_more hsound hholds h hf (by omega)]
  refine ⟨_, _, rfl, hgrown _, ?_, rfl, rfl, rfl⟩
  intro k hk
  exact lookup_store.trans (if_neg (h.key ▸ hk))

end Start

end Hqq.Advanced
