import Mathlib.Algebra.Order.Group.Nat
import Hqq.Negotiation.Spec

/-!
# The negotiation of the C implementation

`negotiate_run` and `answer_negotiation` of `hqq_adv_link.c`. The Go code narrows the version to two
bytes before it compares, the C code does not.
-/

namespace Hqq.Negotiation

/-- What one packet does to a negotiation. It goes on, or it ends after at most one more packet
was sent. -/
inductive Reaction where
  | again
  | fails (sends : Option Packet)
  | agrees (sends : Option Packet) (version features : Word)
  deriving DecidableEq

namespace C

def advMajor : Word := 1
def advMinor : Word := 1
def hqqFeatureCancel : Word := 0x04
def hqqFeatureMetadata : Word := 0x08
def advFeaturesSupported : Word := 0x0F

-- `*version` is a `uint16_t`.
def outVersion (w : Word) : Word := (w.setWidth 16).setWidth 64

def answerNegotiation (requested reqFeatures allowed : Word) : Reaction :=
  let major := requested >>> 8
  let minor := requested &&& 0xFF
  if major ≠ advMajor then .fails (some .error)
  else
    let minor := if minor > advMinor then advMinor else minor
    let f := reqFeatures &&& advFeaturesSupported &&& allowed
    let f := if minor < 1 then f &&& ~~~ (hqqFeatureCancel ||| hqqFeatureMetadata) else f
    let version := advMajor <<< 8 ||| minor
    .agrees (some (.protoAck version f)) (outVersion version) f

def negotiateRun (initiate : Bool) (mode : LinkMode) (features : Word) : Packet → Reaction
  | .tombstone => .again
  | .protoAck av af =>
    if initiate then
      if av >>> 8 ≠ advMajor ∨ av &&& 0xFF > advMinor ∨
          af &&& ~~~ (features &&& advFeaturesSupported) ≠ 0 then
        .fails none
      else .agrees none (outVersion av) af
    else .fails none
  | .protoNegotiate rv rf =>
    if initiate ∧ mode = .primary then .again else answerNegotiation rv rf features
  | .error => .fails none
  | .other => .fails none

end C

def Task.reaction (task : Task) : Reaction :=
  match task with
  | .sendReject => .fails (task.packet.map Prod.fst)
  | .sendAck version features => .agrees (task.packet.map Prod.fst) version.encode features
  | .storeResult version features => .agrees none version.encode features
  | _ => .again

def End.reaction (e : End) : Reaction := (e.task.map Task.reaction).getD (.fails none)

def negotiateLoop (initiate : Bool) (mode : LinkMode) (features : Word) (p : Packet) : Reaction :=
  if initiate then
    let e := { End.fresh with state := .negotiating, task := some (.awaitAck features) }
    (e.onReply mode features p).reaction
  else
    let e := { End.fresh with state := .negotiating, task := some (.awaitRequest features) }
    (e.onRequest features p).reaction

/-! ## Where they agree -/

/-- The version that decides what is done, where the rest of the packet does not. -/
def Packet.decides (initiate : Bool) (mode : LinkMode) (features : Word) : Packet → Option Word
  | .protoNegotiate version _ => if initiate ∧ mode = .primary then none else some version
  | .protoAck version acked =>
    if initiate ∧ ¬ version &&& 0xFF > C.advMinor ∧
        acked &&& ~~~ (features &&& C.advFeaturesSupported) = 0 then
      some version
    else none
  | .tombstone | .error | .other => none

/-- The C code compares all bits above the minor version, the Go code the eight that it keeps. -/
def SameMajor (version : Word) : Prop :=
  version >>> 8 = C.advMajor ↔ (decodeVersion version).major = hqqProtocolMajorVersion

instance (version : Word) : Decidable (SameMajor version) := inferInstanceAs (Decidable (_ ↔ _))

theorem setWidth_lt {a b : Byte} : a.setWidth 64 < b.setWidth 64 ↔ a < b := by
  have ha := a.isLt
  have hb := b.isLt
  rw [BitVec.lt_def, BitVec.lt_def, BitVec.toNat_setWidth, BitVec.toNat_setWidth]
  omega

theorem decodeVersion_minor (w : Word) : w &&& 0xFF = (decodeVersion w).minor.setWidth 64 := by
  apply BitVec.eq_of_toNat_eq
  unfold decodeVersion
  rw [BitVec.toNat_and, BitVec.toNat_setWidth, BitVec.toNat_setWidth]
  change w.toNat &&& (2 ^ 8 - 1) = _
  rw [Nat.and_two_pow_sub_one_eq_mod]
  omega

theorem encode_toNat (v : ProtocolVersion) :
    v.encode.toNat = v.major.toNat * 2 ^ 8 + v.minor.toNat := by
  have hmajor := v.major.isLt
  have hminor := v.minor.isLt
  unfold ProtocolVersion.encode
  rw [BitVec.toNat_or, BitVec.toNat_shiftLeft, BitVec.toNat_setWidth, BitVec.toNat_setWidth,
    Nat.mod_eq_of_lt (by omega : v.major.toNat < 2 ^ 64),
    Nat.mod_eq_of_lt (by omega : v.minor.toNat < 2 ^ 64), Nat.shiftLeft_eq,
    Nat.mod_eq_of_lt (by omega : v.major.toNat * 2 ^ 8 < 2 ^ 64), ← Nat.shiftLeft_eq,
    ← Nat.shiftLeft_add_eq_or_of_lt hminor]

theorem encode_decodeVersion {w : Word} (h : w < 0x10000) : (decodeVersion w).encode = w := by
  have hw : w.toNat < 2 ^ 16 := BitVec.lt_def.mp h
  apply BitVec.eq_of_toNat_eq
  rw [encode_toNat]
  unfold decodeVersion
  rw [BitVec.toNat_setWidth, BitVec.toNat_setWidth, BitVec.toNat_ushiftRight,
    Nat.shiftRight_eq_div_pow]
  omega

theorem outVersion_eq {w : Word} (h : w < 0x10000) : C.outVersion w = w := by
  have hw : w.toNat < 2 ^ 16 := BitVec.lt_def.mp h
  apply BitVec.eq_of_toNat_eq
  unfold C.outVersion
  rw [BitVec.toNat_setWidth, BitVec.toNat_setWidth]
  omega

theorem encode_lt (v : ProtocolVersion) : v.encode < 0x10000 := by
  have hmajor := v.major.isLt
  have hminor := v.minor.isLt
  rw [BitVec.lt_def, encode_toNat]
  change _ < 2 ^ 16
  omega

theorem lt_of_major {w : Word} (h : w >>> 8 = C.advMajor) : w < 0x10000 := by
  have hw := congrArg BitVec.toNat h
  rw [BitVec.toNat_ushiftRight, Nat.shiftRight_eq_div_pow] at hw
  change _ = 1 at hw
  rw [BitVec.lt_def]
  change _ < 2 ^ 16
  omega

theorem minor_gt_iff {w : Word} :
    w &&& 0xFF > C.advMinor ↔ hqqProtocolMinorVersion < (decodeVersion w).minor := by
  rw [decodeVersion_minor, ← setWidth_lt]
  rfl

theorem clamp_minor (w : Word) :
    (if w &&& 0xFF > C.advMinor then C.advMinor else w &&& 0xFF) =
      (if (decodeVersion w).minor ≤ hqqProtocolMinorVersion then (decodeVersion w).minor
        else hqqProtocolMinorVersion).setWidth 64 := by
  have hle : (decodeVersion w).minor ≤ hqqProtocolMinorVersion ↔ ¬ w &&& 0xFF > C.advMinor := by
    rw [minor_gt_iff, BitVec.not_lt]
  split
  · next hgt =>
    rw [if_neg (fun h => hle.mp h hgt)]
    rfl
  · next hgt =>
    rw [if_pos (hle.mpr hgt)]
    exact decodeVersion_minor w

theorem ite_agree {go c : Prop} [Decidable go] [Decidable c] {fails x y : Reaction} (hx : x ≠ fails)
    (hy : y ≠ fails) (heq : c → go → x = y) :
    (if ¬ go then fails else x) = (if ¬ c then fails else y) ↔ (c ↔ go) := by
  by_cases hgo : go <;> by_cases hc : c
  · simp [hgo, hc, heq hc hgo]
  · simp [hgo, hc, hx]
  · simp [hgo, hc, hy.symm]
  · simp [hgo, hc]

theorem answerNegotiation_agree (e : End) (version features allowed : Word) :
    (e.answerNegotiation version features allowed).reaction =
      C.answerNegotiation version features allowed ↔ SameMajor version := by
  unfold End.answerNegotiation C.answerNegotiation
  simp only [clamp_minor, apply_ite End.reaction]
  generalize (if (decodeVersion version).minor ≤ hqqProtocolMinorVersion then
    (decodeVersion version).minor else hqqProtocolMinorVersion) = minor
  have hzero : minor.setWidth 64 < 1 ↔ minor < 1 := setWidth_lt (b := 1)
  have hword : C.advMajor <<< 8 ||| minor.setWidth 64 =
      (⟨hqqProtocolMajorVersion, minor⟩ : ProtocolVersion).encode := rfl
  refine ite_agree nofun nofun fun _ hmajor => ?_
  rw [hmajor, hword, outVersion_eq (encode_lt _)]
  simp only [hzero]
  rfl

theorem onReply_agree (e : End) (mode : LinkMode) (version acked features : Word) :
    (e.onReply mode features (.protoAck version acked)).reaction =
      C.negotiateRun true mode features (.protoAck version acked) ↔
    ∀ w ∈ (Packet.protoAck version acked).decides true mode features, SameMajor w := by
  have hsupported : supportedFeatures = C.advFeaturesSupported := rfl
  unfold End.onReply C.negotiateRun Packet.decides
  simp only [← minor_gt_iff, hsupported, true_and, if_true]
  by_cases hrest : version &&& 0xFF > C.advMinor ∨
      acked &&& ~~~ (features &&& C.advFeaturesSupported) ≠ 0
  · rw [if_pos (.inr hrest), if_pos (.inr hrest), if_neg (by rwa [not_and_or, not_not])]
    exact iff_of_true rfl nofun
  · simp only [or_iff_left hrest, apply_ite End.reaction]
    rw [not_or, not_not] at hrest
    simp only [if_pos hrest, Option.mem_def, Option.some.injEq, forall_eq']
    refine ite_agree nofun nofun fun hwide _ => ?_
    have hlt := lt_of_major hwide
    rw [outVersion_eq hlt]
    simp only [End.reaction, Option.map_some, Option.getD_some, Task.reaction, encode_decodeVersion hlt]

/-- The two implementations react alike to a packet exactly if they take the version that decides
for the same major version. -/
theorem implementations_agree (initiate : Bool) (mode : LinkMode) (features : Word) (p : Packet) :
    negotiateLoop initiate mode features p = C.negotiateRun initiate mode features p ↔
      ∀ version ∈ p.decides initiate mode features, SameMajor version := by
  unfold negotiateLoop
  cases p with
  | protoNegotiate version requested =>
    have hsome : SameMajor version ↔ ∀ w ∈ some version, SameMajor w := by simp
    cases initiate with
    | false => exact (answerNegotiation_agree _ version requested features).trans hsome
    | true =>
      cases mode with
      | primary => exact iff_of_true rfl nofun
      | secondary => exact (answerNegotiation_agree _ version requested features).trans hsome
  | protoAck version acked =>
    cases initiate with
    | false => exact iff_of_true rfl nofun
    | true => exact onReply_agree _ mode version acked features
  | tombstone | error | other => cases initiate <;> exact iff_of_true rfl nofun

-- both refuse the first, and only the C code refuses the second
example : SameMajor 0x20000 ∧ ¬ SameMajor 0x10101 := by decide

/-- The version `0x10101` is 1.1 for the Go code, and of major version 257 for the C code. -/
theorem wide_version_disagrees :
    (negotiateLoop false .secondary 0xF (.protoNegotiate 0x10101 0xF) =
        .agrees (some (.protoAck 0x101 0xF)) 0x101 0xF ∧
      C.negotiateRun false .secondary 0xF (.protoNegotiate 0x10101 0xF) = .fails (some .error)) ∧
    negotiateLoop true .primary 0xF (.protoAck 0x10101 0xF) = .agrees none 0x101 0xF ∧
      C.negotiateRun true .primary 0xF (.protoAck 0x10101 0xF) = .fails none := by
  decide

end Hqq.Negotiation
