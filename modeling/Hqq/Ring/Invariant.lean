import Hqq.Slots
import Hqq.Ring.Spec

/-!
# The invariant of the ring

`σ` gives each slot the number that its sequence word stands for, without wrap. The positions from
the consumer cursor on, one ring size of them, meet every slot once. A position that was published
for its producer (`History.recovered`) is in too, with nothing said about its payload.
-/

namespace Hqq.Ring

section Slots

variable {size : Word}

theorem validRingSize_pow (h : validRingSize size = true) :
    ∃ k, 1 ≤ k ∧ k ≤ 63 ∧ size.toNat = 2 ^ k := by
  simp only [validRingSize, Bool.and_eq_true, decide_eq_true_eq, beq_iff_eq] at h
  have h2 : 2 ≤ size.toNat := h.1
  obtain ⟨k, hk⟩ := isPowerOfTwo_of_and_sub_one (by rintro rfl; simp at h2) h.2
  have hlt : (2 : Nat) ^ k < 2 ^ 64 := hk ▸ size.isLt
  refine ⟨k, ?_, ?_, hk⟩
  · by_contra hk0
    obtain rfl : k = 0 := by omega
    rw [hk] at h2
    norm_num at h2
  · have := (Nat.pow_lt_pow_iff_right (by norm_num : 1 < 2)).mp hlt
    omega

theorem size_bounds (h : validRingSize size = true) : 2 ≤ size.toNat ∧ size.toNat ≤ 2 ^ 63 := by
  obtain ⟨k, h1, h63, hk⟩ := validRingSize_pow h
  rw [hk]
  exact ⟨Nat.pow_le_pow_right (by norm_num : 0 < 2) h1, Nat.pow_le_pow_right (by norm_num) h63⟩

theorem slot_word (h : validRingSize size = true) (p : Nat) :
    slot size (word p) = p % size.toNat := by
  obtain ⟨k, -, h63, hk⟩ := validRingSize_pow h
  exact word_and_mask h63 hk p

theorem exists_window {N : Nat} (hN : 0 < N) (base a n : Nat) :
    ∃ m, a ≤ m ∧ m < a + N ∧ (base + m) % N = (base + n) % N := by
  have hlt := Nat.mod_lt (n + (N - 1) * a) hN
  refine ⟨a + (n + (N - 1) * a) % N, by omega, by omega, ?_⟩
  have hN1 : a + (N - 1) * a = N * a := by
    rw [Nat.add_comm, ← Nat.succ_mul, Nat.succ_eq_add_one, Nat.sub_add_cancel hN]
  rw [← Nat.add_assoc, Nat.add_mod, Nat.mod_mod, ← Nat.add_mod]
  rw [show base + a + (n + (N - 1) * a) = base + n + N * a by omega]
  exact Nat.add_mul_mod_self_left _ _ _

end Slots

variable {V Tid : Type} {width : Nat}

def Holds (size : Word) (base : Nat) (σ : Nat → Nat) (m : Mem V width)
    (h : History Tid V width) (t : Tid) : Pc V width → Prop
  | .seqW _ _ pos | .waitW _ pos =>
    pos = word (base + h.loaded t) ∧ h.loaded t ≤ h.produced.length
  | .casW _ _ pos =>
    pos = word (base + h.loaded t) ∧ h.loaded t ≤ h.produced.length ∧
    -- The swap only works while nobody claimed the position, and then the slot is still free.
    (h.loaded t = h.produced.length → σ ((base + h.loaded t) % size.toNat) = base + h.loaded t)
  | .write e pos i =>
    pos = word (base + h.loaded t) ∧ h.produced[h.loaded t]? = some (t, pos, e) ∧ i ≤ width ∧
    h.loaded t ∉ h.published ∧
    (h.loaded t ∉ h.recovered → h.consumed.length ≤ h.loaded t ∧
      σ ((base + h.loaded t) % size.toNat) = base + h.loaded t ∧
      ∀ c : Fin width, c.val < i → m.data ((base + h.loaded t) % size.toNat) c = e c)
  | .seqR _ pos | .waitR pos =>
    pos = word (base + h.loaded t) ∧ h.loaded t ≤ h.consumed.length
  | .casR _ pos =>
    pos = word (base + h.loaded t) ∧ h.loaded t ≤ h.consumed.length ∧
    (h.loaded t = h.consumed.length → σ ((base + h.loaded t) % size.toNat) = base + h.loaded t + 1)
  | .read pos got =>
    pos = word (base + h.loaded t) ∧ h.consumed[h.loaded t]? = some (t, pos) ∧
    σ ((base + h.loaded t) % size.toNat) = base + h.loaded t + 1 ∧
    h.produced.length ≤ h.loaded t + size.toNat ∧ h.loaded t ∉ h.delivered.map Prod.fst ∧
    got.length ≤ width ∧
    (h.loaded t ∉ h.recovered → ∃ u e, h.produced[h.loaded t]? = some (u, pos, e) ∧
      m.data ((base + h.loaded t) % size.toNat) = e ∧ got = (List.ofFn e).take got.length)
  | _ => True

structure History.Ok (base : Nat) (h : History Tid V width) : Prop where
  produced_pos : ∀ n t pos e, h.produced[n]? = some (t, pos, e) → pos = word (base + n)
  consumed_pos : ∀ n t pos, h.consumed[n]? = some (t, pos) → pos = word (base + n)
  published_lt : ∀ n ∈ h.published, n < h.produced.length
  published_nodup : h.published.Nodup
  recovered_lt : ∀ n ∈ h.recovered, n < h.produced.length
  consumed_after : ∀ n < h.consumed.length, n ∈ h.published ∨ n ∈ h.recovered
  delivered_lt : ∀ d ∈ h.delivered, d.1 < h.consumed.length
  delivered_nodup : (h.delivered.map Prod.fst).Nodup
  delivered_eq : ∀ d ∈ h.delivered, d.1 ∉ h.recovered →
    ∃ u pos e, h.produced[d.1]? = some (u, pos, e) ∧ d.2 = List.ofFn e

structure Inv (size : Word) (base : Nat) (s : State Tid V width) (σ : Nat → Nat) : Prop where
  size_ok : validRingSize size = true
  seq_eq : ∀ j < size.toNat, s.mem.seq j = word (σ j)
  w_eq : s.mem.w = word (base + s.hist.produced.length)
  r_eq : s.mem.r = word (base + s.hist.consumed.length)
  le : s.hist.consumed.length ≤ s.hist.produced.length
  room : s.hist.produced.length ≤ s.hist.consumed.length + size.toNat
  filled : ∀ n, s.hist.consumed.length ≤ n → n < s.hist.produced.length →
    (σ ((base + n) % size.toNat) = base + n ∧ n ∉ s.hist.published ∧ n ∉ s.hist.recovered) ∨
    (σ ((base + n) % size.toNat) = base + n + 1 ∧ (n ∈ s.hist.recovered ∨
      n ∈ s.hist.published ∧ ∃ u pos e, s.hist.produced[n]? = some (u, pos, e) ∧
        s.mem.data ((base + n) % size.toNat) = e))
  free : ∀ n, s.hist.produced.length ≤ n → n < s.hist.consumed.length + size.toNat →
    σ ((base + n) % size.toNat) = base + n ∨
    σ ((base + n) % size.toNat) + size.toNat = base + n + 1
  reading : ∀ n < s.hist.consumed.length, n ∈ s.hist.delivered.map Prod.fst ∨
    ∃ t pos got, s.pc t = .read pos got ∧ s.hist.loaded t = n
  holds : ∀ t, Holds size base σ s.mem s.hist t (s.pc t)
  hist : s.hist.Ok base

end Hqq.Ring
