import Mathlib.Data.Nat.Basic
import Mathlib.Tactic.Ring
import Mathlib.Tactic.NormNum

/-!
# Positions as 64-bit words

Independent of the program that is verified. A counter that only goes up is kept in a 64-bit word
and wraps. Two positions that are less than `2 ^ 64` apart are equal when their words are.
-/

namespace Hqq

theorem mod_inj {N p q : Nat} (h : p % N = q % N) (h1 : p < q + N) (h2 : q < p + N) : p = q := by
  rcases Nat.le_total p q with hle | hle
  · have := Nat.sub_mod_eq_zero_of_mod_eq h.symm
    rw [Nat.mod_eq_of_lt (by omega)] at this
    omega
  · have := Nat.sub_mod_eq_zero_of_mod_eq h
    rw [Nat.mod_eq_of_lt (by omega)] at this
    omega

abbrev Word := BitVec 64

def word (p : Nat) : Word := BitVec.ofNat 64 p

@[simp] theorem word_toNat (p : Nat) : (word p).toNat = p % 2 ^ 64 := by simp [word]

theorem word_add (p q : Nat) : word p + word q = word (p + q) := by
  simp [word, BitVec.ofNat_add]

theorem word_succ (p : Nat) : word p + 1 = word (p + 1) := word_add p 1

theorem word_toNat_self (x : Word) : word x.toNat = x := by simp [word]

theorem word_inj {p q : Nat} (h1 : p < q + 2 ^ 64) (h2 : q < p + 2 ^ 64) :
    word p = word q ↔ p = q := by
  constructor
  · intro h
    have := congrArg BitVec.toNat h
    simp only [word_toNat] at this
    omega
  · rintro rfl; rfl

theorem word_sub_toNat {p q : Nat} (h : q ≤ p) (hlt : p - q < 2 ^ 64) :
    (word p - word q).toNat = p - q := by
  rw [BitVec.toNat_sub, word_toNat, word_toNat]
  omega

/-! ## Powers of two -/

theorem isPowerOfTwo_of_and_sub_one {n : Word} (h0 : n ≠ 0) (h : n &&& (n - 1) = 0) :
    n.toNat.isPowerOfTwo := by
  have hpos : n.toNat ≠ 0 := fun hz => h0 (BitVec.eq_of_toNat_eq hz)
  have hlt : n.toNat < 2 ^ 64 := n.isLt
  have hsub : (n - 1).toNat = n.toNat - 1 := by
    rw [BitVec.toNat_sub]
    change (2 ^ 64 - 1 + n.toNat) % 2 ^ 64 = _
    omega
  have hand : n.toNat &&& (n.toNat - 1) = 0 := by
    have := congrArg BitVec.toNat h
    rwa [BitVec.toNat_and, hsub] at this
  exact (Nat.and_sub_one_eq_zero_iff_isPowerOfTwo hpos).mp hand

theorem word_and_mask {n : Word} {k : Nat} (hk : k ≤ 63) (hn : n.toNat = 2 ^ k) (p : Nat) :
    (word p &&& (n - 1)).toNat = p % n.toNat := by
  have hpow : (2 : Nat) ^ k ≤ 2 ^ 63 := Nat.pow_le_pow_right (by norm_num) hk
  have hpos : 0 < (2 : Nat) ^ k := Nat.pow_pos (by norm_num)
  have hsub : (n - 1).toNat = 2 ^ k - 1 := by
    rw [BitVec.toNat_sub, hn]
    change (2 ^ 64 - 1 + 2 ^ k) % 2 ^ 64 = _
    omega
  rw [BitVec.toNat_and, hsub, word_toNat, Nat.and_two_pow_sub_one_eq_mod, hn]
  exact Nat.mod_mod_of_dvd _ (Nat.pow_dvd_pow 2 (by omega))

/-! ## Numbers that skip zero -/

/-- What follows in a cycle of 32-bit numbers in which 0 is never used. -/
def nextID (id : BitVec 32) : BitVec 32 := if id + 1 = 0 then 1 else id + 1

theorem nextID_toNat (id : BitVec 32) :
    (nextID id).toNat = if id.toNat = 2 ^ 32 - 1 then 1 else id.toNat + 1 := by
  have hlt := id.isLt
  have hadd : (id + 1).toNat = (id.toNat + 1) % 2 ^ 32 := by
    rw [BitVec.toNat_add]
    rfl
  unfold nextID
  by_cases hmax : id.toNat = 2 ^ 32 - 1
  · have hzero : id + 1 = 0 := BitVec.eq_of_toNat_eq (by rw [hadd, hmax]; rfl)
    rw [if_pos hzero, if_pos hmax]
    rfl
  · have hne : id + 1 ≠ 0 := by
      intro hzero
      rw [hzero] at hadd
      change 0 = _ at hadd
      omega
    rw [if_neg hne, if_neg hmax, hadd, Nat.mod_eq_of_lt (by omega)]

theorem nextID_ne_zero (id : BitVec 32) : nextID id ≠ 0 := by
  intro hzero
  have h := nextID_toNat id
  rw [hzero] at h
  change 0 = _ at h
  split at h <;> omega

end Hqq
