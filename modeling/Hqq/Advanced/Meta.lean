import Hqq.Bytes

/-!
# The metadata block of a request

`putMeta`, `parseMeta` (`advanced_request.go`).
-/

namespace Hqq.Advanced

inductive Err where
  | invalidSize | bufferOverflow | protocol | messageAborted | reassemblyLimit
  deriving DecidableEq, Repr

abbrev Trace := { l : List Byte // l.length = 16 }

def Trace.zero : Trace := ⟨List.replicate 16 0, by decide⟩

structure CallOptions where
  caller : Word
  trace : Trace

structure MsgMeta where
  present : Bool
  hasBudget : Bool
  budget : Word
  recvAt : Nat
  caller : Word
  trace : Trace
  deriving DecidableEq

def MsgMeta.none : MsgMeta := ⟨false, false, 0, 0, 0, Trace.zero⟩

def MsgMeta.found : MsgMeta := ⟨true, false, 0, 0, 0, Trace.zero⟩

def metaHeaderSize : Nat := 4

def metaTagBudget : Byte := 1
def metaTagCaller : Byte := 2
def metaTagTrace : Byte := 3

def maxInt64 : Nat := 2 ^ 63 - 1

def tlv (tag : Byte) (value : List Byte) : List Byte :=
  tag :: BitVec.ofNat 8 value.length :: value

def putTlvs (budget : Word) (opts : CallOptions) : List Byte :=
  (if 0 < budget.toInt then tlv metaTagBudget (le 8 budget.toNat) else []) ++
  (if opts.caller ≠ 0 then tlv metaTagCaller (le 8 opts.caller.toNat) else []) ++
  (if opts.trace ≠ Trace.zero then tlv metaTagTrace opts.trace.1 else [])

/-- The block for a budget in nanoseconds (an `int64`), or nothing. -/
def putMeta (budget : Word) (opts : CallOptions) : List Byte :=
  let tlvs := putTlvs budget opts
  if tlvs = [] then [] else le 2 tlvs.length ++ [0, 0] ++ tlvs

def MsgMeta.take (m : MsgMeta) (tag : Byte) (value : List Byte) : Option MsgMeta :=
  if tag = metaTagBudget then
    if value.length = 8 then
      some { m with hasBudget := true, budget := word (min (ofLe value) maxInt64) }
    else .none
  else if tag = metaTagCaller then
    if value.length = 8 then some { m with caller := word (ofLe value) } else .none
  else if tag = metaTagTrace then
    if h : value.length = 16 then some { m with trace := ⟨value, h⟩ } else .none
  else some m

/-- The loop over the tags. A round takes two bytes at least, so the length is fuel
enough. -/
def parseTlvs : Nat → MsgMeta → List Byte → Except Err MsgMeta
  | _, m, [] => .ok m
  | fuel + 1, m, tag :: len :: rest =>
    if rest.length < len.toNat then .error .protocol
    else match m.take tag (rest.take len.toNat) with
      | some m => parseTlvs fuel m (rest.drop len.toNat)
      | .none => .error .protocol
  | _, _, _ => .error .protocol

def parseMeta (data : List Byte) : Except Err (MsgMeta × Nat) :=
  if data.length < metaHeaderSize then .error .protocol
  else
    let stop := metaHeaderSize + ofLe (data.take 2)
    if data.length < stop then .error .protocol
    else
      let tlvs := (data.take stop).drop metaHeaderSize
      (parseTlvs tlvs.length MsgMeta.found tlvs).map (·, stop)

/-! ## What is written is what is read -/

def MsgMeta.told (budget : Word) (opts : CallOptions) : MsgMeta where
  present := true
  hasBudget := 0 < budget.toInt
  budget := if 0 < budget.toInt then budget else 0
  recvAt := 0
  caller := opts.caller
  trace := opts.trace

@[simp] theorem parseTlvs_nil (fuel : Nat) (m : MsgMeta) : parseTlvs fuel m [] = .ok m := by
  cases fuel <;> rfl

@[simp] theorem length_tlv (tag : Byte) (value : List Byte) :
    (tlv tag value).length = value.length + 2 := rfl

theorem parseTlvs_tlv {fuel : Nat} {m m' : MsgMeta} {tag : Byte} {value rest : List Byte}
    (hlen : value.length < 256) (hm : m.take tag value = some m') :
    parseTlvs (fuel + 1) m (tlv tag value ++ rest) = parseTlvs fuel m' rest := by
  have hbyte : (BitVec.ofNat 8 value.length).toNat = value.length := by
    rw [BitVec.toNat_ofNat]
    exact Nat.mod_eq_of_lt hlen
  simp [tlv, parseTlvs, hbyte, hm]

theorem parseTlvs_opt {p : Prop} [Decidable p] (fuel : Nat) {m m' : MsgMeta} {tag : Byte}
    {value rest : List Byte} (hlen : value.length < 256) (hm : p → m.take tag value = some m') :
    ∃ k, parseTlvs (fuel + 1) m ((if p then tlv tag value else []) ++ rest) =
      parseTlvs (fuel + k) (if p then m' else m) rest := by
  by_cases hp : p
  · refine ⟨0, ?_⟩
    simp only [if_pos hp]
    exact parseTlvs_tlv hlen (hm hp)
  · refine ⟨1, ?_⟩
    simp only [if_neg hp, List.nil_append]

theorem take_budget {m : MsgMeta} {budget : Word} (h : 0 < budget.toInt) :
    m.take metaTagBudget (le 8 budget.toNat) =
      some { m with hasBudget := true, budget := budget } := by
  have hlt : budget.toNat < 256 ^ 8 := budget.isLt
  have hmin : min budget.toNat maxInt64 = budget.toNat := by
    have := BitVec.toInt_pos_iff.mp h.le
    unfold maxInt64
    omega
  simp [MsgMeta.take, ofLe_le hlt, hmin, word]

theorem take_caller {m : MsgMeta} {caller : Word} :
    m.take metaTagCaller (le 8 caller.toNat) = some { m with caller := caller } := by
  have hlt : caller.toNat < 256 ^ 8 := caller.isLt
  simp [MsgMeta.take, metaTagCaller, metaTagBudget, ofLe_le hlt, word]

theorem take_trace {m : MsgMeta} {trace : Trace} :
    m.take metaTagTrace trace.1 = some { m with trace := trace } := by
  simp [MsgMeta.take, metaTagTrace, metaTagCaller, metaTagBudget, trace.2]

theorem parseTlvs_putTlvs (fuel : Nat) (budget : Word) (opts : CallOptions) :
    parseTlvs (fuel + 3) MsgMeta.found (putTlvs budget opts) =
      .ok (MsgMeta.told budget opts) := by
  have hlen (x : Word) : (le 8 x.toNat).length < 256 := by simp
  have htrace : opts.trace.1.length < 256 := by simp [opts.trace.2]
  unfold putTlvs
  rw [List.append_assoc, ← List.append_nil (if opts.trace ≠ Trace.zero then _ else _)]
  obtain ⟨k, hk⟩ := parseTlvs_opt (fuel + 2) (hlen budget) take_budget
  obtain ⟨k', hk'⟩ := parseTlvs_opt (fuel + 1 + k) (hlen opts.caller)
    (fun _ : opts.caller ≠ 0 => take_caller)
  obtain ⟨k'', hk''⟩ := parseTlvs_opt (fuel + k + k') htrace
    (fun _ : opts.trace ≠ Trace.zero => take_trace)
  rw [hk, show fuel + 2 + k = fuel + 1 + k + 1 by omega, hk',
    show fuel + 1 + k + k' = fuel + k + k' + 1 by omega, hk'', parseTlvs_nil]
  -- A field that was not sent has its zero value at both ends.
  by_cases hb : 0 < budget.toInt <;> by_cases hc : opts.caller = 0#64 <;>
    by_cases ht : opts.trace = Trace.zero <;> simp [MsgMeta.told, MsgMeta.found, hb, hc, ht]

theorem length_putTlvs_lt (budget : Word) (opts : CallOptions) :
    (putTlvs budget opts).length < 256 := by
  unfold putTlvs
  split_ifs <;> simp [opts.trace.2]

theorem three_le_length_putTlvs {budget : Word} {opts : CallOptions} (h : putTlvs budget opts ≠ []) :
    3 ≤ (putTlvs budget opts).length := by
  revert h
  unfold putTlvs
  split_ifs <;> simp [opts.trace.2]

theorem parseMeta_putMeta {budget : Word} {opts : CallOptions} (payload : List Byte)
    (h : putMeta budget opts ≠ []) :
    parseMeta (putMeta budget opts ++ payload) =
      .ok (MsgMeta.told budget opts, (putMeta budget opts).length) := by
  have hne : putTlvs budget opts ≠ [] := by
    intro hnil
    exact h (by simp [putMeta, hnil])
  have hput : putMeta budget opts =
      le 2 (putTlvs budget opts).length ++ [0, 0] ++ putTlvs budget opts := by
    simp only [putMeta, if_neg hne]
  have hlt := length_putTlvs_lt budget opts
  have hge := three_le_length_putTlvs hne
  have hfuel : (putTlvs budget opts).length = (putTlvs budget opts).length - 3 + 3 := by omega
  have hsize : ofLe (le 2 (putTlvs budget opts).length) = (putTlvs budget opts).length :=
    ofLe_le (by omega)
  have hparse := parseTlvs_putTlvs ((putTlvs budget opts).length - 3) budget opts
  rw [← hfuel] at hparse
  have hlen : (putMeta budget opts).length = metaHeaderSize + (putTlvs budget opts).length := by
    simp only [hput, metaHeaderSize, List.length_append, length_le, List.length_cons,
      List.length_nil]
  have hstop : ((putMeta budget opts ++ payload).take 2) = le 2 (putTlvs budget opts).length := by
    simp [hput, List.append_assoc]
  have htlvs : ((putMeta budget opts ++ payload).take (putMeta budget opts).length).drop
      metaHeaderSize = putTlvs budget opts := by
    rw [List.take_left, hput]
    exact List.drop_left' (by simp [metaHeaderSize])
  have hlong : ¬ (putMeta budget opts ++ payload).length < (putMeta budget opts).length := by
    simp
  have hheader : ¬ (putMeta budget opts ++ payload).length < metaHeaderSize := by
    rw [List.length_append]
    omega
  simp only [parseMeta, hstop, hsize, ← hlen, htlvs, hparse, if_neg hheader, if_neg hlong]
  rfl

/-! ## Tags that the receiver does not know -/

/-- `area` has the TLVs of `tlvs`, and others with unknown tags at any place between them. -/
inductive Extends : List Byte → List Byte → Prop
  | nil : Extends [] []
  | both {area tlvs value : List Byte} {tag : Byte} (hlen : value.length < 256)
      (h : Extends area tlvs) : Extends (tlv tag value ++ area) (tlv tag value ++ tlvs)
  | extra {area tlvs value : List Byte} {tag : Byte} (hlen : value.length < 256)
      (htag : tag ∉ [metaTagBudget, metaTagCaller, metaTagTrace]) (h : Extends area tlvs) :
      Extends (tlv tag value ++ area) tlvs

theorem parseTlvs_extends {area tlvs : List Byte} (h : Extends area tlvs) {k n : Nat}
    (hk : area.length ≤ k) (hn : tlvs.length ≤ n) (m : MsgMeta) :
    parseTlvs k m area = parseTlvs n m tlvs := by
  induction h generalizing k n m with
  | nil => simp
  | @both area tlvs value tag hlen h ih =>
    rw [List.length_append, length_tlv] at hk hn
    obtain ⟨k, rfl⟩ : ∃ j, k = j + 1 := ⟨k - 1, by omega⟩
    obtain ⟨n, rfl⟩ : ∃ j, n = j + 1 := ⟨n - 1, by omega⟩
    cases hm : m.take tag value with
    | none => simp [tlv, parseTlvs, Nat.mod_eq_of_lt hlen, hm]
    | some m' =>
      rw [parseTlvs_tlv hlen hm, parseTlvs_tlv hlen hm]
      exact ih (by omega) (by omega) m'
  | @extra area tlvs value tag hlen htag h ih =>
    rw [List.length_append, length_tlv] at hk
    obtain ⟨k, rfl⟩ : ∃ j, k = j + 1 := ⟨k - 1, by omega⟩
    simp only [List.mem_cons, List.not_mem_nil, or_false, not_or] at htag
    have hm : m.take tag value = some m := by simp only [MsgMeta.take, htag, if_false]
    exact (parseTlvs_tlv hlen hm).trans (ih (by omega) hn m)

/-- Whatever a later version adds, the block says what was put and ends where the payload starts. -/
theorem unknown_tags_ignored {budget : Word} {opts : CallOptions} {area reserved : List Byte}
    (h : Extends area (putTlvs budget opts)) (hsize : area.length < 2 ^ 16)
    (hreserved : reserved.length = 2) (payload : List Byte) :
    parseMeta (le 2 area.length ++ reserved ++ area ++ payload) =
      .ok (MsgMeta.told budget opts, metaHeaderSize + area.length) := by
  have hhead : (le 2 area.length ++ reserved).length = metaHeaderSize := by
    simp [hreserved, metaHeaderSize]
  have hstop : ofLe ((le 2 area.length ++ reserved ++ area ++ payload).take 2) = area.length := by
    rw [List.append_assoc, List.append_assoc, List.take_left' (length_le ..), ofLe_le hsize]
  have hlen : (le 2 area.length ++ reserved ++ area ++ payload).length =
      metaHeaderSize + area.length + payload.length := by
    rw [List.length_append, List.length_append, hhead]
  have htlvs : ((le 2 area.length ++ reserved ++ area ++ payload).take
      (metaHeaderSize + area.length)).drop metaHeaderSize = area := by
    rw [List.take_left' (by rw [List.length_append, hhead]), List.drop_left' hhead]
  have hparse := parseTlvs_extends h le_rfl (Nat.le_add_right _ 3) MsgMeta.found
  rw [parseTlvs_putTlvs] at hparse
  unfold parseMeta
  rw [hstop, hlen, if_neg (by omega), if_neg (by omega), htlvs]
  dsimp only
  rw [hparse]
  rfl

theorem unknown_tags_ignored_between : parseMeta (le 2 15 ++ [1, 2] ++
    (tlv 9 [7] ++ (tlv metaTagBudget (le 8 5) ++ (tlv 200 [] ++ []))) ++ [4]) =
      .ok (MsgMeta.told 5 ⟨0, Trace.zero⟩, 19) :=
  unknown_tags_ignored (.extra (by decide) (by decide) (.both (by decide)
    (.extra (by decide) (by decide) .nil))) (by decide) rfl [4]

end Hqq.Advanced
