import Hqq.Superblock.Spec

/-!
# Marks of progress

How many bytes an initializer that keeps its ownership writes between the store of `initHeartbeat`
in `beginInit` and `commitInit`, and where it stores `initHeartbeat` again.
-/

namespace Hqq.Marks

open Superblock (Code Endpoint zeroSlice)

inductive Effect where
  | write (bytes : Nat)
  | mark
  deriving DecidableEq

def packetSize : Nat := 64

def formatSlots : Nat → List Effect
  | 0 => []
  | n + 1 => .write packetSize :: .write 8 :: formatSlots n

def formatGuarded (size : Nat) : List Effect :=
  [.write 8, .write 8] ++ formatSlots size ++
    [.write 8, .write 8, .write 4, .write 4, .write 4, .write 4, .write 8, .write 8, .write 8, .write 8,
      .write 8]

def zeroChunk : Nat := 8 <<< 20

def zeroInChunks (chunk len : Nat) : List Effect :=
  if len = 0 ∨ chunk = 0 then []
  else .write (min len chunk) :: .mark :: zeroInChunks chunk (len - min len chunk)
termination_by len
decreasing_by omega

def publishSuperblock : List Effect := List.replicate 16 (.write 8)

def initSegment (bufferCount bufferSize : Int) : List Effect :=
  let buffersSize := bufferCount.toNat * bufferSize.toNat
  formatGuarded bufferCount.toNat ++ .mark :: formatGuarded bufferCount.toNat ++ .mark ::
    (zeroInChunks zeroSlice buffersSize ++ zeroInChunks zeroSlice buffersSize ++ publishSuperblock)

/-! ## The instructions of an initializer -/

/-- The stores of an initializer that finds `token` in `initToken`, up to its commit. A `skip` stands
for writes outside of the superblock, and these are counted above. -/
def stores (token : Word) : Code → List Effect
  | .load f k => stores token (k (if f = .initToken then token else 0))
  | .store f _ k => (if f = .initHeartbeat then .mark else .write 8) :: stores token k
  | .clock k => stores token (k 0)
  | .skip k => stores token k
  | .cas .. | .add .. | .jump _ => []

section

variable {ep : Endpoint} {k : Code}

@[simp] theorem stores_check : stores ep.token (Superblock.check ep k) = stores ep.token k := by
  simp [Superblock.check, stores]

@[simp] theorem stores_progress :
    stores ep.token (Superblock.progress ep k) = .mark :: stores ep.token k := by
  simp [Superblock.progress, stores]

@[simp] theorem stores_formatGuarded :
    stores ep.token (Superblock.formatGuarded ep k) = stores ep.token k := by
  have hslices : ∀ n, stores ep.token (Superblock.formatSlices ep n k) = stores ep.token k := by
    intro n
    induction n with
    | zero => simp [Superblock.formatSlices, stores]
    | succ n ih => simp [Superblock.formatSlices, stores, ih]
  simp [Superblock.formatGuarded, stores, hslices]

@[simp] theorem stores_zeroChunks (n : Nat) :
    stores ep.token (Superblock.zeroChunks ep n k) = List.replicate n .mark ++ stores ep.token k := by
  induction n with
  | zero => rfl
  | succ n ih => simp [Superblock.zeroChunks, stores, ih, List.replicate_succ]

end

theorem marks_formatGuarded (size : Nat) : (formatGuarded size).filter (· = .mark) = [] := by
  have hslots : (formatSlots size).filter (· = .mark) = [] := by
    induction size with
    | zero => rfl
    | succ size ih => simpa [formatSlots] using ih
  simp [formatGuarded, hslots]

theorem marks_zeroInChunks (len : Nat) : (zeroInChunks zeroSlice len).filter (· = .mark) =
    List.replicate ((len + zeroSlice - 1) / zeroSlice) .mark := by
  have hslice : zeroSlice = 262144 := rfl
  induction len using Nat.strongRecOn with
  | ind len ih =>
    unfold zeroInChunks
    split
    · next hdone =>
      rw [Nat.div_eq_of_lt (by omega)]
      rfl
    · have hcount : (len + zeroSlice - 1) / zeroSlice =
          (len - min len zeroSlice + zeroSlice - 1) / zeroSlice + 1 := by
        rw [hslice]
        omega
      rw [hcount, List.replicate_succ, ← ih _ (by omega)]
      simp

/-- The code has the marks of `initSegment`, and then the words of `publishSuperblock`. -/
theorem stores_initSegment (ep : Endpoint) : stores ep.token (Superblock.initSegment ep) =
    (initSegment ep.bufferCount ep.bufferSize).filter (· = .mark) ++ publishSuperblock := by
  have hpublish : stores ep.token (Superblock.publishSuperblock ep) = publishSuperblock := by
    simp [Superblock.publishSuperblock, Superblock.stampLayout, Superblock.storeGeometry,
      Superblock.clearEndpoint, Superblock.fillEndpoint, Superblock.commitInit, stores]
    rfl
  have hnone : publishSuperblock.filter (· = .mark) = [] := by decide
  simp [Superblock.initSegment, Superblock.zero, initSegment, marks_formatGuarded,
    marks_zeroInChunks, hpublish, hnone, ← List.append_assoc]

/-! ## Between two marks -/

def gaps : Nat → List Effect → List Nat
  | _, [] => []
  | n, .write k :: l => gaps (n + k) l
  | n, .mark :: l => n :: gaps 0 l

def ringBytes (size : Nat) : Nat := 88 + 72 * size

theorem gaps_formatSlots (size n : Nat) (l : List Effect) :
    gaps n (formatSlots size ++ l) = gaps (n + 72 * size) l := by
  induction size generalizing n with
  | zero => rfl
  | succ size ih =>
    have heq : n + packetSize + 8 + 72 * size = n + 72 * (size + 1) := by
      simp only [packetSize]
      omega
    simp only [formatSlots, List.cons_append, gaps, ih, heq]

theorem gaps_formatGuarded (size n : Nat) (l : List Effect) :
    gaps n (formatGuarded size ++ .mark :: l) = (n + ringBytes size) :: gaps 0 l := by
  simp only [formatGuarded, List.append_assoc, List.cons_append, List.nil_append, gaps, gaps_formatSlots]
  congr 1
  simp only [ringBytes]
  omega

theorem gaps_zeroInChunks (chunk : Nat) (hchunk : 0 < chunk) (len : Nat) (l : List Effect) :
    ∃ ns, gaps 0 (zeroInChunks chunk len ++ l) = ns ++ gaps 0 l ∧ ns.sum = len ∧ ∀ n ∈ ns, n ≤ chunk := by
  induction len using Nat.strongRecOn with
  | ind len ih =>
    unfold zeroInChunks
    split
    · exact ⟨[], rfl, by simp; omega, by simp⟩
    · obtain ⟨ns, hns, hsum, hle⟩ := ih (len - min len chunk) (by omega)
      refine ⟨min len chunk :: ns, ?_, by rw [List.sum_cons, hsum]; omega, ?_⟩
      · simp [gaps, hns]
      · simpa using hle

theorem gaps_initSegment (bufferCount bufferSize : Int) :
    ∃ ns, gaps 0 (initSegment bufferCount bufferSize) =
        ringBytes bufferCount.toNat :: ringBytes bufferCount.toNat :: ns ∧
      ∀ n ∈ ns, n ≤ zeroSlice := by
  obtain ⟨ns, hns, -, hle⟩ := gaps_zeroInChunks zeroSlice (by decide)
    (bufferCount.toNat * bufferSize.toNat) publishSuperblock
  obtain ⟨ms, hms, -, hle'⟩ := gaps_zeroInChunks zeroSlice (by decide)
    (bufferCount.toNat * bufferSize.toNat)
    (zeroInChunks zeroSlice (bufferCount.toNat * bufferSize.toNat) ++ publishSuperblock)
  have hnone : gaps 0 publishSuperblock = [] := by decide
  refine ⟨ms ++ ns, ?_, ?_⟩
  · simp only [initSegment, List.append_assoc, List.cons_append, gaps_formatGuarded, hms, hns, hnone,
      List.append_nil, Nat.zero_add]
  · simpa [or_imp, forall_and] using ⟨hle', hle⟩

/-- Between two marks there is a whole ring or a slice of a buffer, so the rings decide. -/
theorem marked_work_bounded (pf : Platform) (bufferCount bufferSize : Int)
    (_ : (computeLayout pf bufferCount bufferSize).2 = true) :
    (∀ n ∈ gaps 0 (initSegment bufferCount bufferSize), n ≤ max (ringBytes bufferCount.toNat) zeroSlice) ∧
    ((∀ n ∈ gaps 0 (initSegment bufferCount bufferSize), n ≤ zeroChunk) ↔
      ringBytes bufferCount.toNat ≤ zeroChunk) := by
  obtain ⟨ns, hns, hle⟩ := gaps_initSegment bufferCount bufferSize
  rw [hns]
  have hsmall : zeroSlice ≤ zeroChunk := by decide
  have hall : ∀ b, ringBytes bufferCount.toNat ≤ b → zeroSlice ≤ b →
      ∀ n ∈ ringBytes bufferCount.toNat :: ringBytes bufferCount.toNat :: ns, n ≤ b := by
    intro b hring hslice n hn
    simp only [List.mem_cons] at hn
    rcases hn with rfl | rfl | hn
    · exact hring
    · exact hring
    · exact (hle n hn).trans hslice
  exact ⟨hall _ (le_max_left _ _) (le_max_right _ _), fun h => h _ (by simp), fun h => hall _ h hsmall⟩

theorem marked_work_bounded_small :
    (computeLayout ⟨64, 4096⟩ 65536 8).2 = true ∧
      ∀ n ∈ gaps 0 (initSegment 65536 8), n ≤ zeroChunk :=
  ⟨by decide +kernel, (marked_work_bounded ⟨64, 4096⟩ 65536 8 (by decide +kernel)).2.mpr (by decide)⟩

/-- A ring of `1 << 17` slots takes more than `zeroChunk`. -/
theorem large_ring_unmarked :
    (computeLayout ⟨64, 4096⟩ 131072 8).2 = true ∧
      ∃ n ∈ gaps 0 (initSegment 131072 8), zeroChunk < n := by
  refine ⟨by decide +kernel, ?_⟩
  obtain ⟨ns, hns, -⟩ := gaps_initSegment 131072 8
  rw [hns]
  exact ⟨_, List.mem_cons_self, by decide⟩

end Hqq.Marks
