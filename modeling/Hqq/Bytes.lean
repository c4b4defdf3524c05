import Hqq.Word

/-!
# Bytes

Numbers as little-endian bytes, and slices of byte buffers. A slice out of range is
`none`.
-/

namespace Hqq

abbrev Byte := BitVec 8

def le : Nat → Nat → List Byte
  | 0, _ => []
  | k + 1, x => BitVec.ofNat 8 x :: le k (x / 256)

def ofLe : List Byte → Nat
  | [] => 0
  | b :: bs => b.toNat + 256 * ofLe bs

@[simp] theorem length_le (k x : Nat) : (le k x).length = k := by
  induction k generalizing x with
  | zero => rfl
  | succ k ih => simp [le, ih]

theorem ofLe_le {k x : Nat} (hx : x < 256 ^ k) : ofLe (le k x) = x := by
  induction k generalizing x with
  | zero =>
    simp only [pow_zero] at hx
    simp only [le, ofLe]
    omega
  | succ k ih =>
    have hrest : x / 256 < 256 ^ k := Nat.div_lt_of_lt_mul (by rwa [pow_succ'] at hx)
    simp only [le, ofLe, ih hrest, BitVec.toNat_ofNat]
    omega

theorem le_concat (j k : Nat) {x : Nat} (y : Nat) (hx : x < 256 ^ j) :
    le (j + k) (x + 256 ^ j * y) = le j x ++ le k y := by
  induction j generalizing x with
  | zero =>
    simp only [pow_zero, Nat.lt_one_iff] at hx
    simp [le, hx]
  | succ j ih =>
    have hrest : x / 256 < 256 ^ j := Nat.div_lt_of_lt_mul (by rwa [pow_succ'] at hx)
    have hdiv : (x + 256 ^ (j + 1) * y) / 256 = x / 256 + 256 ^ j * y := by
      rw [pow_succ', mul_assoc, Nat.add_mul_div_left _ _ (by decide)]
    have hbyte : BitVec.ofNat 8 (x + 256 ^ (j + 1) * y) = BitVec.ofNat 8 x := by
      apply BitVec.eq_of_toNat_eq
      rw [BitVec.toNat_ofNat, BitVec.toNat_ofNat, pow_succ', mul_assoc]
      omega
    rw [Nat.succ_add]
    simp only [le, List.cons_append]
    rw [hbyte, hdiv, ih hrest]

variable {α : Type*}

def slice (l : List α) (lo hi : Nat) : Option (List α) :=
  if lo ≤ hi ∧ hi ≤ l.length then some ((l.take hi).drop lo) else none

/-- `copy(l[lo:hi], src)` for a source of at most that length. -/
def copyTo (l : List α) (lo hi : Nat) (src : List α) : Option (List α) :=
  if lo ≤ hi ∧ hi ≤ l.length ∧ src.length ≤ hi - lo then
    some (l.take lo ++ src ++ l.drop (lo + src.length))
  else none

theorem slice_zero {l : List α} {n : Nat} (h : n ≤ l.length) : slice l 0 n = some (l.take n) := by
  simp [slice, h]

theorem copyTo_eq {l src : List α} {lo hi : Nat} (hlo : lo ≤ hi) (hhi : hi ≤ l.length)
    (hsrc : src.length ≤ hi - lo) :
    copyTo l lo hi src = some (l.take lo ++ src ++ l.drop (lo + src.length)) := by
  simp [copyTo, hlo, hhi, hsrc]

end Hqq
