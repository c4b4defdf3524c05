import Hqq.Layout
import Mathlib.Data.Nat.Bitwise

/-!
# Two computations of the layout

`computeLayout` in Go works on words of the platform, `hqq_layout_compute` in C on 64-bit words.
Both are compared with the same sums over plain numbers.
-/

namespace Hqq.Regions

/-- `ok` is the flag that the caller passes in. -/
def hqqAlignedSum (a b page : Nat) (ok : Bool) : Nat × Bool :=
  let s := (a + b) % 2 ^ 64
  if s < a ∨ (s + (page - 1)) % 2 ^ 64 < s then (0, false)
  else ((s + page - 1) % 2 ^ 64 / page * page, ok)

def hqqGeometryValid (count size : Nat) : Bool :=
  decide (2 ≤ count) && decide (count ≤ 2 ^ 24) && (count &&& (count - 1)) == 0 &&
  decide (8 ≤ size) && decide (size ≤ 2 ^ 30) && size % 8 == 0

def hqqLayoutCompute (page count size maxTotal : Nat) : SegmentLayout × Bool :=
  if page < 4096 ∨ (page &&& (page - 1)) ≠ 0 ∨ !hqqGeometryValid count size then ({}, false) else
  let ringBytes := (512 + 128 * count) % 2 ^ 64
  let buffers := count * size % 2 ^ 64
  let ring0 := (384 + page - 1) % 2 ^ 64 / page * page
  let (buf0, ok) := hqqAlignedSum ring0 ringBytes page true
  let (ring1, ok) := hqqAlignedSum buf0 buffers page ok
  let (buf1, ok) := hqqAlignedSum ring1 ringBytes page ok
  let (total, ok) := hqqAlignedSum buf1 buffers page ok
  ({ ring0, buf0, ring1, buf1, total }, ok && decide (total ≤ maxTotal))

def lsnLayoutSize (capacity page : Nat) : Nat :=
  if capacity < 2 ∨ 65536 < capacity ∨ (capacity &&& (capacity - 1)) ≠ 0 then 0
  else
    let (total, ok) := hqqAlignedSum 4096 (512 + capacity * 256) page true
    if ok then total else 0

/-- The stride of a slot with a connect record is 256. -/
def listenerLayoutSize (pf : Platform) (capacity : Int) : Nat :=
  if !isPowerOfTwo capacity ∨ capacity < 2 ∨ 65536 < capacity then 0
  else
    let ring := sizeMPMCRing pf 256 capacity.toNat
    if ring = 0 then 0 else (alignedSum pf 4096 ring).getD 0

/-! ## Plain numbers -/

def ringSize (count : Nat) : Nat := headerSize + packetStride * count

def exactLayout (pf : Platform) (count size : Nat) : SegmentLayout :=
  let ring0 := alignPage pf superblockSize
  let buf0 := alignPage pf (ring0 + ringSize count)
  let ring1 := alignPage pf (buf0 + count * size)
  let buf1 := alignPage pf (ring1 + ringSize count)
  { ring0, buf0, ring1, buf1, total := alignPage pf (buf1 + count * size) }

/-- Words of 32 or 64 bits, and pages of a power of two from 4096 to `2 ^ 30` bytes. -/
structure Supported (pf : Platform) : Prop where
  bits : pf.bits = 32 ∨ pf.bits = 64
  page : ∃ k, 12 ≤ k ∧ k ≤ 30 ∧ pf.pagesize = 2 ^ k

variable {pf : Platform} {page a b n count size : Nat}

namespace Supported

variable (h : Supported pf)
include h

theorem bounds :
    4096 ≤ pf.pagesize ∧ pf.pagesize ≤ 2 ^ 30 ∧ (pf.pagesize &&& (pf.pagesize - 1)) = 0 := by
  obtain ⟨k, hlo, hhi, hk⟩ := h.page
  rw [hk, Nat.and_two_pow_sub_one_eq_mod, Nat.mod_self]
  exact ⟨Nat.pow_le_pow_right (Nat.zero_lt_two) hlo, Nat.pow_le_pow_right (Nat.zero_lt_two) hhi, rfl⟩

theorem le_alignPage (n : Nat) : n ≤ alignPage pf n ∧ alignPage pf n < n + pf.pagesize := by
  have hlo := h.bounds.1
  have hmod := Nat.mod_lt (n + pf.pagesize - 1) (by omega : 0 < pf.pagesize)
  have hdiv := Nat.div_add_mod' (n + pf.pagesize - 1) pf.pagesize
  unfold alignPage
  omega

theorem maxInt_bounds : 2 ^ 31 - 1 ≤ pf.maxInt ∧ pf.maxInt + 2 ^ 30 < 2 ^ pf.bits := by
  unfold Platform.maxInt
  rcases h.bits with hb | hb <;> rw [hb] <;> decide

theorem alignedSum_eq (hfits : alignPage pf (a + b) ≤ pf.maxInt) :
    alignedSum pf a b = some (alignPage pf (a + b)) := by
  obtain ⟨hlo, hhi, -⟩ := h.bounds
  have hup := h.le_alignPage (a + b)
  have hmax := h.maxInt_bounds.2
  unfold alignedSum
  rw [if_neg (by omega), if_neg (by omega), ← Nat.add_sub_assoc (by omega)]
  rfl

theorem of_alignedSum {c : Nat} (hsum : alignedSum pf a b = some c) : c = alignPage pf (a + b) := by
  have hlo := h.bounds.1
  unfold alignedSum at hsum
  split_ifs at hsum
  cases hsum
  rw [← Nat.add_sub_assoc (by omega)]
  rfl

theorem sizeMPMCRing_eq (stride : Nat) (hstride : 0 < stride) (hn : 2 ≤ n) (hpow : (n &&& (n - 1)) = 0)
    (hfits : headerSize + stride * n < 2 ^ 32) : sizeMPMCRing pf stride n = headerSize + stride * n := by
  have hbits : 2 ^ 32 ≤ 2 ^ pf.bits := by rcases h.bits with hb | hb <;> simp [hb]
  have hlt : n < 2 ^ 32 := by
    have := Nat.le_mul_of_pos_left n hstride
    omega
  have hsize : Ring.validRingSize (word n) = true := by
    have hand : word n &&& (word n - 1) = 0 := by
      apply BitVec.eq_of_toNat_eq
      rw [BitVec.toNat_and, show (1 : Word) = word 1 from rfl,
        word_sub_toNat (by omega) (by omega), word_toNat, Nat.mod_eq_of_lt (by omega), hpow]
      rfl
    rw [Ring.validRingSize, hand]
    simp [BitVec.le_def, word]
    omega
  unfold sizeMPMCRing
  rw [if_neg (by simp [hsize]), if_neg]
  rw [Nat.not_lt, Nat.le_div_iff_mul_le hstride, Nat.mul_comm]
  omega

theorem hqqAlignedSum_eq (hfits : a + b < 2 ^ 63) (ok : Bool) :
    hqqAlignedSum a b pf.pagesize ok = (alignPage pf (a + b), ok) := by
  obtain ⟨hlo, hhi, -⟩ := h.bounds
  unfold hqqAlignedSum
  rw [Nat.mod_eq_of_lt (by omega : a + b < 2 ^ 64)]
  dsimp only
  rw [Nat.mod_eq_of_lt (by omega), if_neg (by omega), Nat.mod_eq_of_lt (by omega)]
  rfl

end Supported

structure Ordered (page count size : Nat) (l : SegmentLayout) : Prop where
  aligned : ∀ x ∈ [l.ring0, l.buf0, l.ring1, l.buf1, l.total], page ∣ x
  superblock : superblockSize ≤ l.ring0
  ring0 : l.ring0 + ringSize count ≤ l.buf0
  buf0 : l.buf0 + count * size ≤ l.ring1
  ring1 : l.ring1 + ringSize count ≤ l.buf1
  buf1 : l.buf1 + count * size ≤ l.total

theorem Supported.ordered (h : Supported pf) :
    Ordered pf.pagesize count size (exactLayout pf count size) where
  aligned x hx := by
    simp only [exactLayout, List.mem_cons, List.not_mem_nil, or_false] at hx
    rcases hx with rfl | rfl | rfl | rfl | rfl <;> exact Nat.dvd_mul_left ..
  superblock := (h.le_alignPage _).1
  ring0 := (h.le_alignPage _).1
  buf0 := (h.le_alignPage _).1
  ring1 := (h.le_alignPage _).1
  buf1 := (h.le_alignPage _).1

theorem Supported.total_lt (h : Supported pf) (count size : Nat) : (exactLayout pf count size).total <
    384 + 2 * ringSize count + 2 * (count * size) + 5 * pf.pagesize := by
  have hup := fun n => (h.le_alignPage n).2
  have hsuper : superblockSize = 384 := rfl
  unfold exactLayout
  grind -ring -linarith

section Go

variable {count size : Int} (h : Supported pf) (hvalid : validConfig count size = true)
include h hvalid

theorem Supported.ringSize_eq : sizeMPMCRing pf packetStride count.toNat = ringSize count.toNat := by
  obtain ⟨⟨hlo, hhi⟩, -⟩ := validConfig_bounds hvalid
  simp only [validConfig, isPowerOfTwo, Bool.and_eq_true, beq_iff_eq] at hvalid
  refine h.sizeMPMCRing_eq _ (by decide) (by omega) hvalid.1.1.1.1.1.2 ?_
  simp only [headerSize, packetStride]
  omega

theorem Supported.computeLayout_eq
    (hfits : (exactLayout pf count.toNat size.toNat).total ≤ pf.maxInt) :
    computeLayout pf count size = (exactLayout pf count.toNat size.toNat, true) := by
  obtain ⟨-, hsuper, hring0, hbuf0, hring1, hbuf1⟩ : Ordered pf.pagesize count.toNat size.toNat _ :=
    h.ordered
  have hmax := h.maxInt_bounds.2
  simp only [exactLayout] at *
  unfold computeLayout
  rw [if_neg (by simp [hvalid]), h.ringSize_eq hvalid]
  dsimp only
  rw [if_neg (by simp [ringSize, headerSize]), if_neg (by omega)]
  rw [h.alignedSum_eq (by omega)]
  dsimp only
  rw [h.alignedSum_eq (by omega)]
  dsimp only
  rw [h.alignedSum_eq (by omega)]
  dsimp only
  rw [h.alignedSum_eq (by omega)]
  simpa using hfits

theorem Supported.of_computeLayout (hok : (computeLayout pf count size).2 = true) :
    (exactLayout pf count.toNat size.toNat).total ≤ pf.maxInt := by
  unfold computeLayout at hok
  rw [if_neg (by simp [hvalid]), h.ringSize_eq hvalid] at hok
  dsimp only at hok
  split_ifs at hok
  split at hok
  · cases hok
  next buf0 hbuf0 =>
  split at hok
  · cases hok
  next ring1 hring1 =>
  split at hok
  · cases hok
  next buf1 hbuf1 =>
  split at hok
  · cases hok
  next total htotal =>
  rw [h.of_alignedSum hbuf0] at hring1
  rw [h.of_alignedSum hring1] at hbuf1
  rw [h.of_alignedSum hbuf1] at htotal
  rw [h.of_alignedSum htotal] at hok
  exact of_decide_eq_true hok

end Go

theorem hqqGeometryValid_eq {count size : Int} (hcount : 0 ≤ count) (hsize : 0 ≤ size) :
    hqqGeometryValid count.toNat size.toNat = validConfig count size := by
  lift count to Nat using hcount
  lift size to Nat using hsize
  have hmax : maxBufferCount = 2 ^ 24 ∧ maxBufferSize = 2 ^ 30 := ⟨rfl, rfl⟩
  rw [Bool.eq_iff_iff]
  simp only [hqqGeometryValid, validConfig, isPowerOfTwo, Bool.and_eq_true, decide_eq_true_eq,
    beq_iff_eq, Int.toNat_natCast]
  simp only [minBufferCount, minBufferSize, bufferSizeAlignment, hmax]
  omega

theorem Supported.hqqLayoutCompute_eq (h : Supported pf) (maxTotal : Nat)
    (hvalid : hqqGeometryValid count size = true) :
    hqqLayoutCompute pf.pagesize count size maxTotal = (exactLayout pf count size,
      decide ((exactLayout pf count size).total ≤ maxTotal)) := by
  obtain ⟨hlo, hhi, hpow⟩ := h.bounds
  have hbounds : count ≤ 2 ^ 24 ∧ size ≤ 2 ^ 30 := by simp_all [hqqGeometryValid]
  have hbuffers : count * size ≤ 2 ^ 24 * 2 ^ 30 := Nat.mul_le_mul hbounds.1 hbounds.2
  have hring : 512 + 128 * count = ringSize count := rfl
  have hsmall : ringSize count ≤ 2 ^ 32 := by
    rw [← hring]
    omega
  obtain ⟨-, -, hring0, hbuf0, hring1, hbuf1⟩ : Ordered pf.pagesize count size _ := h.ordered
  have htotal := h.total_lt count size
  simp only [exactLayout] at hring0 hbuf0 hring1 hbuf1 htotal
  unfold hqqLayoutCompute
  rw [if_neg (by simp [hvalid, hpow]; omega), hring, Nat.mod_eq_of_lt (by omega),
    Nat.mod_eq_of_lt (by omega : count * size < _), Nat.mod_eq_of_lt (by omega)]
  rw [show (384 + pf.pagesize - 1) / pf.pagesize * pf.pagesize = alignPage pf superblockSize from rfl]
  dsimp only
  rw [h.hqqAlignedSum_eq (by omega)]
  dsimp only
  rw [h.hqqAlignedSum_eq (by omega)]
  dsimp only
  rw [h.hqqAlignedSum_eq (by omega)]
  dsimp only
  rw [h.hqqAlignedSum_eq (by omega), Bool.true_and]
  rfl

theorem Supported.listener_eq (h : Supported pf) {capacity : Int} (hcap : 0 ≤ capacity) :
    listenerLayoutSize pf capacity = lsnLayoutSize capacity.toNat pf.pagesize := by
  have hmax := h.maxInt_bounds.1
  obtain ⟨hlo, hhi, -⟩ := h.bounds
  unfold listenerLayoutSize lsnLayoutSize
  lift capacity to Nat using hcap
  rw [Int.toNat_natCast]
  by_cases hok : 2 ≤ capacity ∧ capacity ≤ 65536 ∧ (capacity &&& (capacity - 1)) = 0
  · obtain ⟨h2, hle, hpow⟩ := hok
    have hring : sizeMPMCRing pf 256 capacity = 512 + capacity * 256 := by
      rw [h.sizeMPMCRing_eq 256 (by decide) h2 hpow (by unfold headerSize; omega), Nat.mul_comm]
      rfl
    have hup := h.le_alignPage (4096 + (512 + capacity * 256))
    rw [if_neg (by simp [isPowerOfTwo, hpow]; omega), hring]
    dsimp only
    rw [if_neg (by omega), h.alignedSum_eq (by omega), if_neg (by simp [hpow]; omega),
      h.hqqAlignedSum_eq (by omega)]
    rfl
  · rw [if_pos, if_pos]
    · omega
    · simp only [isPowerOfTwo, Bool.not_eq_true', Bool.and_eq_false_iff, decide_eq_false_iff_not,
        beq_eq_false_iff_ne, Int.toNat_natCast]
      omega

theorem Supported.computeLayout_iff (h : Supported pf) {count size : Int} :
    (computeLayout pf count size).2 = true ↔ validConfig count size = true ∧
      (exactLayout pf count.toNat size.toNat).total ≤ pf.maxInt := by
  refine ⟨fun hok => ?_, fun ⟨hvalid, hfits⟩ => by rw [h.computeLayout_eq hvalid hfits]⟩
  have hvalid : validConfig count size = true := by
    by_contra hbad
    rw [computeLayout, if_pos (by simpa using hbad)] at hok
    cases hok
  exact ⟨hvalid, h.of_computeLayout hvalid hok⟩

theorem Supported.eq_exactLayout (h : Supported pf) {count size : Int}
    (hok : (computeLayout pf count size).2 = true) :
    computeLayout pf count size = (exactLayout pf count.toNat size.toNat, true) :=
  h.computeLayout_eq (h.computeLayout_iff.mp hok).1 (h.computeLayout_iff.mp hok).2

/-- `computeLayout` accepts what fits, and C agrees where both are defined. -/
theorem layouts_agree (pf : Platform) (h : Supported pf) (count size : Int) :
    ((computeLayout pf count size).2 = true ↔ validConfig count size = true ∧
      (exactLayout pf count.toNat size.toNat).total ≤ pf.maxInt) ∧
    ((computeLayout pf count size).2 = true →
      Ordered pf.pagesize count.toNat size.toNat (computeLayout pf count size).1) ∧
    (0 ≤ count → 0 ≤ size →
      (hqqLayoutCompute pf.pagesize count.toNat size.toNat pf.maxInt).2 =
        (computeLayout pf count size).2 ∧
      ((computeLayout pf count size).2 = true →
        hqqLayoutCompute pf.pagesize count.toNat size.toNat pf.maxInt = computeLayout pf count size)) ∧
    ∀ capacity : Int, 0 ≤ capacity →
      listenerLayoutSize pf capacity = lsnLayoutSize capacity.toNat pf.pagesize := by
  refine ⟨h.computeLayout_iff, fun hok => h.eq_exactLayout hok ▸ h.ordered, fun hcount hsize => ?_,
    fun _ => h.listener_eq⟩
  have hc := hqqGeometryValid_eq hcount hsize
  cases hvalid : validConfig count size with
  | false =>
    rw [hvalid] at hc
    rw [computeLayout, if_pos (by simp [hvalid]), hqqLayoutCompute, if_pos (by simp [hc])]
    exact ⟨rfl, fun _ => rfl⟩
  | true =>
    rw [h.hqqLayoutCompute_eq _ (hc.trans hvalid)]
    refine ⟨?_, fun hok => ?_⟩
    · rw [Bool.eq_iff_iff, h.computeLayout_iff, decide_eq_true_iff]
      simp [hvalid]
    · rw [h.eq_exactLayout hok]
      simpa using (h.computeLayout_iff.mp hok).2

theorem layouts_agree_smallest :
    (computeLayout ⟨32, 4096⟩ 2 8).2 = true ∧
      Ordered 4096 2 8 (computeLayout ⟨32, 4096⟩ 2 8).1 := by
  have hok : (computeLayout ⟨32, 4096⟩ 2 8).2 = true := by decide +kernel
  exact ⟨hok, (layouts_agree ⟨32, 4096⟩ ⟨.inl rfl, 12, by decide⟩ 2 8).2.1 hok⟩

end Hqq.Regions
