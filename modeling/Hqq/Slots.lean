import Mathlib.Data.List.Count
import Mathlib.Data.List.Perm.Basic

/-!
# Lists with one element replaced or taken out

Independent of the program that is verified.
-/

namespace Hqq

variable {α : Type} {l : List α} {i : Nat} {a b : α}

theorem countP_set_add (f : α → Bool) (hi : l[i]? = some a) :
    (l.set i b).countP f + (if f a then 1 else 0) = l.countP f + (if f b then 1 else 0) := by
  obtain ⟨hlt, rfl⟩ := List.getElem?_eq_some_iff.mp hi
  have hpos : f l[i] = true → 0 < l.countP f := fun hf =>
    List.countP_pos_iff.mpr ⟨_, List.getElem_mem hlt, hf⟩
  rw [List.countP_set hlt]
  split
  · rename_i hf
    have := hpos hf
    omega
  · omega

theorem mem_set_of_ne {c : α} (hi : l[i]? = some a) (hc : c ∈ l) (hne : c ≠ a) : c ∈ l.set i b := by
  obtain ⟨j, hj, rfl⟩ := List.getElem_of_mem hc
  have hij : i ≠ j := by
    rintro rfl
    exact hne (Option.some.inj ((List.getElem?_eq_getElem hj).symm.trans hi))
  refine List.mem_iff_getElem.mpr ⟨j, by simpa using hj, ?_⟩
  rw [List.getElem_set_ne hij]

theorem mem_set_new (hi : l[i]? = some a) : b ∈ l.set i b := by
  obtain ⟨hlt, -⟩ := List.getElem?_eq_some_iff.mp hi
  exact List.mem_set hlt b

theorem perm_eraseIdx (hi : l[i]? = some a) : (a :: l.eraseIdx i).Perm l := by
  obtain ⟨hlt, rfl⟩ := List.getElem?_eq_some_iff.mp hi
  exact List.getElem_cons_eraseIdx_perm hlt

theorem count_eraseIdx_add [DecidableEq α] (hi : l[i]? = some a) (c : α) :
    (l.eraseIdx i).count c + (if a = c then 1 else 0) = l.count c := by
  rw [← (perm_eraseIdx hi).count_eq c, List.count_cons]
  simp

theorem erase_add [DecidableEq α] (ha : a ∈ l) : (l.erase a).length + 1 = l.length ∧
    ∀ c, (l.erase a).count c + (if a == c then 1 else 0) = l.count c := by
  have hperm := List.perm_cons_erase ha
  exact ⟨hperm.length_eq.symm, fun c => by rw [hperm.count_eq c, List.count_cons]⟩

theorem mem_concat : b ∈ l ++ [a] ↔ b ∈ l ∨ b = a := by
  rw [List.mem_append, List.mem_singleton]

theorem getElem?_append_of_eq_some (hi : l[i]? = some a) (l' : List α) : (l ++ l')[i]? = some a := by
  obtain ⟨hlt, -⟩ := List.getElem?_eq_some_iff.mp hi
  rw [List.getElem?_append_left hlt, hi]

theorem getElem?_concat_eq_some :
    (l ++ [a])[i]? = some b ↔ l[i]? = some b ∨ i = l.length ∧ a = b := by
  rcases Nat.lt_trichotomy i l.length with hlt | rfl | hgt
  · rw [List.getElem?_append_left hlt]
    exact ⟨.inl, fun h => h.resolve_right fun hlen => Nat.ne_of_lt hlt hlen.1⟩
  · simp
  · rw [List.getElem?_eq_none (by simpa using Nat.succ_le_of_lt hgt),
      List.getElem?_eq_none (Nat.le_of_lt hgt)]
    simp [Nat.ne_of_gt hgt]

theorem getElem?_modify_eq_some {f : α → α} {j : Nat} :
    (l.modify i f)[j]? = some b ↔ ∃ a, l[j]? = some a ∧ (if i = j then f a else a) = b := by
  rw [List.getElem?_modify]
  cases l[j]? <;> simp

/-! ## Taking one out by moving the last into its place -/

/-- Takes `a` out of `l`. The last element moves into its place. -/
def swapRemove [DecidableEq α] (l : List α) (a : α) : List α :=
  match l.getLast? with
  | none => l
  | some z => if a ∈ l then (l.set (l.idxOf a) z).dropLast else l

theorem swapRemove_perm [DecidableEq α] (l : List α) (a : α) : (swapRemove l a).Perm (l.erase a) := by
  unfold swapRemove
  rcases List.eq_nil_or_concat l with rfl | ⟨front, z, rfl⟩
  · rfl
  rw [List.concat_eq_append, List.getLast?_concat]
  dsimp only
  split
  · next hmem =>
    rcases Decidable.em (a ∈ front) with hfront | hfront
    · have hlt := List.idxOf_lt_length_of_mem hfront
      rw [List.idxOf_append_of_mem hfront, List.set_append_left _ _ hlt, List.dropLast_concat,
        List.erase_append_left _ hfront, List.erase_eq_eraseIdx_of_idxOf rfl]
      exact (List.set_perm_cons_eraseIdx hlt z).trans (List.perm_append_singleton z _).symm
    · have hlast : a = z := by simpa [hfront] using hmem
      subst hlast
      rw [List.idxOf_append_of_notMem hfront, List.erase_append_right _ hfront]
      simp
  · next hmem => rw [List.erase_of_not_mem hmem]

theorem getElem?_set_dropLast {z : α} {j : Nat} (hj : (l.set i z).dropLast[j]? = some b) :
    j = i ∧ b = z ∨ j ≠ i ∧ j + 1 < l.length ∧ l[j]? = some b := by
  rw [List.getElem?_dropLast] at hj
  split at hj
  · next hlt =>
    rw [List.length_set] at hlt
    rw [List.getElem?_set] at hj
    split at hj
    · next heq =>
      rw [if_pos (by omega)] at hj
      exact .inl ⟨heq.symm, (Option.some.inj hj).symm⟩
    · next hne => exact .inr ⟨Ne.symm hne, by omega, hj⟩
  · cases hj

/-- A list is without repetition if each element knows its place. -/
theorem nodup_of_index (f : α → Nat) (h : ∀ i a, l[i]? = some a → f a = i) : l.Nodup := by
  unfold List.Nodup
  rw [List.pairwise_iff_getElem]
  intro i j hi hj hij heq
  have hi' := h i _ (List.getElem?_eq_getElem hi)
  have hj' := h j _ (List.getElem?_eq_getElem hj)
  rw [heq] at hi'
  omega

end Hqq
