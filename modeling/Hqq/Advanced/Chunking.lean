import Hqq.Advanced.Budget

/-!
# Frames from messages

`sendAdvancedPayload` and `sendAdvancedChunk` (`advanced_io.go`), and the flags and blocks
that `Send`, `CallWith` and `sendResponse` hand to them.
-/

namespace Hqq.Advanced

/-- A byte slice. The Go runtime never allocates more than `2 ^ 48` bytes at once. -/
abbrev Slice := { l : List Byte // l.length ≤ 2 ^ 48 }

abbrev BufferSize := { n : Nat // 8 ≤ n }

abbrev Slot (size : BufferSize) := { l : List Byte // l.length = size.1 }

inductive Kind where
  | data
  | request (budget : Word) (opts : CallOptions)
  | response (failed : Bool)

/-- The arguments of one call. `lead` is the block in front of the payload where that
is not metadata. -/
structure Send where
  connectionID : Word
  messageID : Word
  kind : Kind
  aux : Word
  lead : Slice
  payload : Slice

def Send.metaBlock (cfg : Config) (p : Send) : List Byte :=
  match p.kind with
  | .request budget opts => if cfg.metadata then putMeta budget opts else []
  | _ => []

def Send.baseFlags (cfg : Config) (p : Send) : Word :=
  match p.kind with
  | .data => 0
  | .request _ _ => if p.metaBlock cfg = [] then advFlagRequest else advFlagRequest ||| advFlagMeta
  | .response failed => if failed then advFlagResponse ||| advFlagError else advFlagResponse

def Send.block (cfg : Config) (p : Send) : List Byte :=
  if p.metaBlock cfg = [] then p.lead.1 else p.metaBlock cfg

def Send.body (cfg : Config) (p : Send) : List Byte := p.block cfg ++ p.payload.1

def Send.totalSize (cfg : Config) (p : Send) : Nat := (p.block cfg).length + p.payload.1.length

def Send.key (p : Send) : Key :=
  ⟨p.connectionID, p.messageID,
    match p.kind with
    | .data => 0
    | .request _ _ => advFlagRequest
    | .response _ => advFlagResponse⟩

def goCopy (dst src : List Byte) : List Byte × Nat :=
  (src.take dst.length ++ dst.drop src.length, min dst.length src.length)

def sendAdvancedChunk {size : BufferSize} (slot : Slot size)
    (connectionID messageID totalSize chunkOffset flags aux : Word) (head tail : List Byte) :
    Frame :=
  let (buf, n) := goCopy slot.1 head
  let (rest, n') := goCopy (buf.drop n) tail
  ⟨connectionID, messageID, totalSize, chunkOffset, word (n + n'), flags, aux, buf.take n ++ rest⟩

variable (cfg : Config) {size : BufferSize}

def Send.chunk (p : Send) (offset : Nat) (slot : Slot size) : Frame :=
  let stop := min (offset + size.1) (p.totalSize cfg)
  let flags := p.baseFlags cfg ||| (if offset = 0 then advFlagBegin else 0) |||
    (if stop = p.totalSize cfg then advFlagEnd else 0)
  let chunkAux := if offset = 0 then p.aux else 0
  let block := p.block cfg
  let head := if offset < block.length then (block.take (min stop block.length)).drop offset else []
  let tail :=
    if block.length < stop then
      (p.payload.1.take (stop - block.length)).drop (max offset block.length - block.length)
    else []
  sendAdvancedChunk slot p.connectionID p.messageID (word (p.totalSize cfg)) (word offset) flags
    chunkAux head tail

def Send.abortChunk (p : Send) (slot : Slot size) : Frame :=
  sendAdvancedChunk slot p.connectionID p.messageID 0 0 (advFlagAbort ||| p.baseFlags cfg) 0 [] []

inductive Fate where
  | whole | aborted | cut
  deriving DecidableEq, Repr

structure Sent where
  frames : List Frame
  fate : Fate

/-- The loop of `sendAdvancedPayload`. `tx i` is the slot that attempt `i` to enqueue a frame
gets, or `none` if it fails. -/
def Send.chunks (p : Send) (tx : Nat → Option (Slot size)) : Nat → Nat → Nat → Sent
  | 0, _, _ => ⟨[], .cut⟩
  | fuel + 1, i, offset =>
    if offset < p.totalSize cfg then
      match tx i with
      | some slot =>
        let rest := p.chunks tx fuel (i + 1) (offset + size.1)
        ⟨p.chunk cfg offset slot :: rest.frames, rest.fate⟩
      | none =>
        if 0 < offset then
          match tx (i + 1) with
          | some slot => ⟨[p.abortChunk cfg slot], .aborted⟩
          | none => ⟨[], .cut⟩
        else ⟨[], .cut⟩
    else ⟨[], .whole⟩

def sendAdvancedPayload (tx : Nat → Option (Slot size)) (p : Send) : Sent :=
  if 0 < cfg.maxMessageSize ∧ cfg.maxMessageSize.toNat < p.totalSize cfg then ⟨[], .cut⟩
  else if p.totalSize cfg = 0 then
    match tx 0 with
    | some slot =>
      ⟨[sendAdvancedChunk slot p.connectionID p.messageID 0 0
        (advFlagBegin ||| advFlagEnd ||| p.baseFlags cfg) p.aux [] []], .whole⟩
    | none => ⟨[], .cut⟩
  else p.chunks cfg tx (p.totalSize cfg + 1) 0 0

/-! ## The flags of a frame -/

structure FlagsOk (cfg : Config) (p : Send) (first last : Prop) (flags : Word) : Prop where
  kind : flags &&& (advFlagRequest ||| advFlagResponse) = p.key.kind
  good : ¬ BadFlags (knownFlags cfg) flags
  notAbort : ¬ Has flags advFlagAbort
  begin_iff : Has flags advFlagBegin ↔ first
  end_iff : Has flags advFlagEnd ↔ last
  meta_iff : Has flags advFlagMeta ↔ p.metaBlock cfg ≠ []
  base : flags &&& ~~~ (advFlagBegin ||| advFlagEnd) = p.baseFlags cfg
  whole : first → last → flags = p.baseFlags cfg ||| (advFlagBegin ||| advFlagEnd)

variable {cfg}

def flagWords : List (Word × Word × Word × Bool) :=
  [(63, 0, 0, false), (63, 8, 8, false), (63, 16, 16, false), (63, 48, 16, false),
   (127, 0, 0, false), (127, 8, 8, false), (127, 16, 16, false), (127, 48, 16, false),
   (127, 72, 8, true)]

theorem flagWords_mem (p : Send) :
    (knownFlags cfg, p.baseFlags cfg, p.key.kind, decide (p.metaBlock cfg ≠ [])) ∈ flagWords := by
  unfold knownFlags Send.baseFlags Send.metaBlock Send.key
  cases hk : p.kind with
  | data =>
    dsimp only
    rw [decide_eq_false (not_not.mpr rfl)]
    split <;> decide
  | request budget opts =>
    dsimp only
    by_cases hm : (if cfg.metadata = true then putMeta budget opts else []) = []
    · rw [if_pos hm, decide_eq_false (not_not.mpr hm)]
      split <;> decide
    · have hon : cfg.metadata = true := by
        by_contra hoff
        exact hm (if_neg hoff)
      rw [if_neg hm, decide_eq_true hm, if_pos hon]
      decide
  | response failed =>
    dsimp only
    rw [decide_eq_false (not_not.mpr rfl)]
    cases failed <;> split <;> decide

variable (cfg) in
theorem of_flagWords (p : Send) {P : Word × Word × Word × Bool → Prop} [DecidablePred P]
    (h : (flagWords.all fun w => P w) = true) :
    P (knownFlags cfg, p.baseFlags cfg, p.key.kind, decide (p.metaBlock cfg ≠ [])) :=
  of_decide_eq_true (List.all_eq_true.mp h _ (flagWords_mem p))

def FlagFacts (known base kind : Word) (block first last : Bool) : Prop :=
  let flags := base ||| (if first then advFlagBegin else 0) ||| (if last then advFlagEnd else 0)
  flags &&& (advFlagRequest ||| advFlagResponse) = kind ∧
  ¬ BadFlags known flags ∧
  ¬ Has flags advFlagAbort ∧
  (Has flags advFlagBegin ↔ first = true) ∧
  (Has flags advFlagEnd ↔ last = true) ∧
  (Has flags advFlagMeta ↔ block = true) ∧
  flags &&& ~~~ (advFlagBegin ||| advFlagEnd) = base ∧
  (first = true → last = true → flags = base ||| (advFlagBegin ||| advFlagEnd))

instance (known base kind : Word) (block first last : Bool) :
    Decidable (FlagFacts known base kind block first last) :=
  inferInstanceAs (Decidable (_ ∧ _))

variable (cfg) in
theorem flagFacts (p : Send) (first last : Bool) :
    FlagFacts (knownFlags cfg) (p.baseFlags cfg) p.key.kind (p.metaBlock cfg ≠ []) first last := by
  refine of_flagWords cfg p
    (P := fun w => ∀ first last, FlagFacts w.1 w.2.1 w.2.2.1 w.2.2.2 first last) ?_ first last
  decide

variable (cfg) in
theorem flagsOk (p : Send) (first last : Prop) [Decidable first] [Decidable last] :
    FlagsOk cfg p first last (p.baseFlags cfg ||| (if first then advFlagBegin else 0) |||
      (if last then advFlagEnd else 0)) := by
  have h := flagFacts cfg p (decide first) (decide last)
  simp only [FlagFacts, decide_eq_true_eq] at h
  obtain ⟨hkind, hgood, habort, hfirst, hlast, hmeta, hbase, hwhole⟩ := h
  exact ⟨hkind, hgood, habort, hfirst, hlast, hmeta, hbase, hwhole⟩

variable (cfg) in
theorem abortFlags (p : Send) :
    ¬ BadFlags (knownFlags cfg) (advFlagAbort ||| p.baseFlags cfg) ∧
      Has (advFlagAbort ||| p.baseFlags cfg) advFlagAbort ∧
      (advFlagAbort ||| p.baseFlags cfg) &&& (advFlagRequest ||| advFlagResponse) = p.key.kind := by
  refine of_flagWords cfg p (P := fun w => ¬ BadFlags w.1 (advFlagAbort ||| w.2.1) ∧
    Has (advFlagAbort ||| w.2.1) advFlagAbort ∧
    (advFlagAbort ||| w.2.1) &&& (advFlagRequest ||| advFlagResponse) = w.2.2.1) ?_
  decide

/-! ## The bytes of a frame -/

theorem length_putMeta_le (budget : Word) (opts : CallOptions) : (putMeta budget opts).length ≤ 2 ^ 48 := by
  have := length_putTlvs_lt budget opts
  unfold putMeta
  dsimp only
  split
  · exact Nat.zero_le _
  · simp only [List.length_append, length_le, List.length_cons, List.length_nil]
    omega

variable (cfg) in
theorem totalSize_le (p : Send) : p.totalSize cfg ≤ 2 ^ 49 := by
  have hblock : (p.block cfg).length ≤ 2 ^ 48 := by
    unfold Send.block
    split
    · exact p.lead.2
    · unfold Send.metaBlock
      split
      · split
        · exact length_putMeta_le _ _
        · exact Nat.zero_le _
      · exact Nat.zero_le _
  have := p.payload.2
  unfold Send.totalSize
  omega

variable (cfg) in
theorem length_body (p : Send) : (p.body cfg).length = p.totalSize cfg := List.length_append

theorem sendAdvancedChunk_eq {slot : Slot size} {conn id total off flags aux : Word}
    {head tail : List Byte} (hfit : (head ++ tail).length ≤ size.1) :
    sendAdvancedChunk slot conn id total off flags aux head tail =
      ⟨conn, id, total, off, word (head ++ tail).length, flags, aux,
        head ++ tail ++ slot.1.drop (head ++ tail).length⟩ := by
  have hslot := slot.2
  rw [List.length_append] at hfit ⊢
  have hhead : goCopy slot.1 head = (head ++ slot.1.drop head.length, head.length) := by
    unfold goCopy
    rw [List.take_of_length_le (by omega), min_eq_right (by omega)]
  have htail : goCopy (slot.1.drop head.length) tail =
      (tail ++ slot.1.drop (head.length + tail.length), tail.length) := by
    have hlen : tail.length ≤ (slot.1.drop head.length).length := by
      rw [List.length_drop]
      omega
    unfold goCopy
    rw [List.take_of_length_le hlen, min_eq_right hlen, List.drop_drop]
  unfold sendAdvancedChunk
  rw [hhead]
  dsimp only
  rw [List.drop_left, htail, List.take_left, List.append_assoc]

theorem head_append_tail (block payload : List Byte) (offset stop : Nat) :
    (if offset < block.length then (block.take (min stop block.length)).drop offset else []) ++
      (if block.length < stop then
        (payload.take (stop - block.length)).drop (max offset block.length - block.length)
      else []) = ((block ++ payload).take stop).drop offset := by
  rw [List.take_append, List.drop_append, List.length_take]
  congr 1
  · split_ifs with hin
    · rw [← List.take_eq_take_min]
    · rw [List.drop_eq_nil_of_le]
      rw [List.length_take]
      omega
  · split_ifs with hin
    · congr 1
      omega
    · rw [show stop - block.length = 0 by omega, List.take_zero, List.drop_nil]

/-! ## What the receiver may rely on -/

variable (cfg size)

structure IsChunk (p : Send) (offset : Nat) (f : Frame) : Prop where
  connectionID : f.connectionID = p.connectionID
  messageID : f.messageID = p.messageID
  flags : FlagsOk cfg p (offset = 0) (p.totalSize cfg ≤ offset + size.1) f.flags
  aux : f.aux = if offset = 0 then p.aux else 0
  total : f.totalSize.toNat = p.totalSize cfg
  at_offset : f.chunkOffset.toNat = offset
  length : f.chunkSize.toNat = min size.1 (p.totalSize cfg - offset)
  inBuffer : f.chunkSize.toNat ≤ f.buffer.length
  bytes : f.buffer.take f.chunkSize.toNat = ((p.body cfg).drop offset).take size.1

structure IsAbort (p : Send) (f : Frame) : Prop where
  header : f.header = ⟨p.connectionID, p.messageID, advFlagAbort ||| p.baseFlags cfg, 0⟩
  key : f.key = p.key
  good : ¬ BadFlags (knownFlags cfg) f.flags
  isAbort : Has f.flags advFlagAbort

variable {cfg size}

theorem Send.isChunk (p : Send) {offset : Nat} (slot : Slot size)
    (hin : offset = 0 ∨ offset < p.totalSize cfg) :
    IsChunk cfg size p offset (p.chunk cfg offset slot) := by
  have htotal := totalSize_le cfg p
  have hsize := size.2
  have hbytes : ((p.body cfg).take (min (offset + size.1) (p.totalSize cfg))).drop offset =
      ((p.body cfg).drop offset).take size.1 := by
    rw [← length_body, ← List.take_eq_take_min, List.drop_take]
    congr 1
    omega
  have hlen : (((p.body cfg).drop offset).take size.1).length =
      min size.1 (p.totalSize cfg - offset) := by
    rw [List.length_take, List.length_drop, length_body]
  have hflags := flagsOk cfg p (offset = 0)
    (min (offset + size.1) (p.totalSize cfg) = p.totalSize cfg)
  have hlast : min (offset + size.1) (p.totalSize cfg) = p.totalSize cfg ↔
      p.totalSize cfg ≤ offset + size.1 := min_eq_right_iff
  have hjoin := head_append_tail (p.block cfg) p.payload.1 offset
    (min (offset + size.1) (p.totalSize cfg))
  rw [show p.block cfg ++ p.payload.1 = p.body cfg from rfl, hbytes] at hjoin
  unfold Send.chunk
  rw [sendAdvancedChunk_eq (by rw [hjoin, hlen]; exact min_le_left _ _), hjoin, hlen]
  have hword {n : Nat} (hn : n ≤ 2 ^ 49) : (word n).toNat = n := by
    rw [word_toNat]
    exact Nat.mod_eq_of_lt (by omega)
  have hn : (word (min size.1 (p.totalSize cfg - offset))).toNat =
      min size.1 (p.totalSize cfg - offset) := hword (by omega)
  refine ⟨rfl, rfl, ?_, rfl, hword htotal, hword (by omega), hn, ?_, ?_⟩
  · exact ⟨hflags.kind, hflags.good, hflags.notAbort, hflags.begin_iff, hflags.end_iff.trans hlast,
      hflags.meta_iff, hflags.base, fun hfirst hl => hflags.whole hfirst (hlast.mpr hl)⟩
  · rw [hn, List.length_append, hlen]
    exact Nat.le_add_right _ _
  · dsimp only
    rw [hn, ← hlen, List.take_left]

theorem Send.isAbort (p : Send) (slot : Slot size) : IsAbort cfg p (p.abortChunk cfg slot) := by
  obtain ⟨hgood, habort, hkind⟩ := abortFlags cfg p
  refine ⟨rfl, ?_, hgood, habort⟩
  exact congrArg (Key.mk p.connectionID p.messageID) hkind

/-- What is left of the frames of `p` once the receiver has had the bytes before `offset`. -/
inductive Rest (cfg : Config) (size : BufferSize) (p : Send) : Nat → List Frame → Fate → Prop
  | whole {offset : Nat} : 0 < offset → p.totalSize cfg ≤ offset → Rest cfg size p offset [] .whole
  | cut {offset : Nat} : (offset = 0 ∨ offset < p.totalSize cfg) → Rest cfg size p offset [] .cut
  | aborted {offset : Nat} {f : Frame} : 0 < offset → offset < p.totalSize cfg → IsAbort cfg p f →
      Rest cfg size p offset [f] .aborted
  | chunk {offset : Nat} {f : Frame} {frames : List Frame} {fate : Fate} :
      p.totalSize cfg ≤ cfg.maxMessageSize.toNat → (offset = 0 ∨ offset < p.totalSize cfg) →
      IsChunk cfg size p offset f → Rest cfg size p (offset + size.1) frames fate →
      Rest cfg size p offset (f :: frames) fate

/-- The loop sends the rest. A round takes one from the fuel and at least eight from what
is left to send, so the fuel never runs out. -/
theorem Send.chunks_rest (p : Send) (tx : Nat → Option (Slot size))
    (hmax : p.totalSize cfg ≤ cfg.maxMessageSize.toNat) {fuel offset : Nat} (i : Nat)
    (hfuel : p.totalSize cfg < offset + fuel) (hleft : 0 < fuel)
    (hstart : offset = 0 → 0 < p.totalSize cfg) :
    Rest cfg size p offset (p.chunks cfg tx fuel i offset).frames
      (p.chunks cfg tx fuel i offset).fate := by
  induction fuel generalizing i offset with
  | zero => exact absurd hleft (Nat.lt_irrefl 0)
  | succ fuel ih =>
    have hsize := size.2
    unfold Send.chunks
    split
    · rename_i hlt
      split
      · refine .chunk hmax (.inr hlt) (p.isChunk _ (.inr hlt)) ?_
        exact ih _ (by omega) (by omega) (by omega)
      · split_ifs with hpos
        · split
          · exact .aborted hpos hlt (p.isAbort _)
          · exact .cut (.inr hlt)
        · exact .cut (.inr hlt)
    · exact .whole (by omega) (by omega)

theorem Send.chunk_of_empty (p : Send) (slot : Slot size) (hzero : p.totalSize cfg = 0) :
    p.chunk cfg 0 slot = sendAdvancedChunk slot p.connectionID p.messageID 0 0
      (advFlagBegin ||| advFlagEnd ||| p.baseFlags cfg) p.aux [] [] := by
  have hblock : p.block cfg = [] := by
    unfold Send.totalSize at hzero
    exact List.eq_nil_of_length_eq_zero (by omega)
  unfold Send.chunk
  simp only [hzero, hblock, Nat.min_zero, List.length_nil, lt_self_iff_false, if_false, if_true]
  rw [BitVec.or_assoc, BitVec.or_comm (p.baseFlags cfg)]
  rfl

variable (cfg) in
theorem sendAdvancedPayload_rest (tx : Nat → Option (Slot size)) (p : Send) :
    Rest cfg size p 0 (sendAdvancedPayload cfg tx p).frames (sendAdvancedPayload cfg tx p).fate := by
  have hpos : 0 < cfg.maxMessageSize := pos_iff_ne_zero.mpr cfg.maxMessageSize_ne
  unfold sendAdvancedPayload
  split_ifs with hbig hzero
  · exact .cut (.inl rfl)
  · split
    · rename_i slot _
      rw [← p.chunk_of_empty slot hzero]
      refine .chunk (by omega) (.inl rfl) (p.isChunk slot (.inl rfl)) (.whole ?_ ?_)
      · exact lt_of_lt_of_le (by decide) (Nat.le_add_left_of_le size.2)
      · omega
    · exact .cut (.inl rfl)
  · have hmax : p.totalSize cfg ≤ cfg.maxMessageSize.toNat := by
      by_contra h
      exact hbig ⟨hpos, by omega⟩
    exact p.chunks_rest tx hmax 0 (by omega) (by omega) (by omega)

theorem Rest.of_total_le {p : Send} {offset : Nat} {frames : List Frame} {fate : Fate}
    (h : Rest cfg size p offset frames fate) (hpos : 0 < offset)
    (hall : p.totalSize cfg ≤ offset) : frames = [] ∧ fate = .whole := by
  cases h with
  | whole _ _ => exact ⟨rfl, rfl⟩
  | cut hin => omega
  | aborted _ hlt _ => omega
  | chunk _ hin _ _ => omega

end Hqq.Advanced
