import Mathlib.Data.List.AList
import Mathlib.Algebra.BigOperators.Group.Finset.Basic
import Mathlib.Algebra.Order.BigOperators.Group.Finset

/-!
# Totals over a finite map

Independent of the program that is verified. Every entry of a map has a weight. The total is kept in
step when an entry is put in or taken out.
-/

namespace Hqq

abbrev Table (K V : Type) := AList fun _ : K => V

namespace Table

variable {K V : Type} (w : V → Nat)

def total (t : Table K V) : Nat := (t.entries.map fun e => w e.2).foldr (· + ·) 0

variable [DecidableEq K] {w} {t : Table K V} {k : K} {v : V}

theorem total_erase (h : t.lookup k = some v) :
    total w t = w v + total w (t.erase k) := by
  have hmem : k ∈ t.entries.keys := by
    rw [← List.dlookup_isSome, show List.dlookup k t.entries = some v from h]
    rfl
  obtain ⟨v', l1, l2, -, hl, he⟩ := List.exists_of_kerase hmem
  have hv : v' = v := by
    have hin : (⟨k, v'⟩ : Sigma fun _ : K => V) ∈ t.entries := by simp [hl]
    have := (List.mem_dlookup_iff t.nodupKeys).mpr hin
    rw [show List.dlookup k t.entries = some v from h] at this
    simpa using this.symm
  subst hv
  change (t.entries.map fun e => w e.2).sum = w v' + ((t.entries.kerase k).map fun e => w e.2).sum
  rw [he]
  simp only [hl, List.map_append, List.map_cons, List.sum_append, List.sum_cons]
  omega

theorem erase_of_lookup_none (h : t.lookup k = none) : t.erase k = t := by
  apply AList.ext
  exact List.kerase_of_notMem_keys (AList.lookup_eq_none.mp h)

theorem total_insert : total w (t.insert k v) = w v + total w (t.erase k) := by
  change ((t.insert k v).entries.map fun e => w e.2).foldr (· + ·) 0 = _
  rw [AList.entries_insert, List.map_cons, List.foldr_cons]
  rfl

theorem total_insert_new (h : t.lookup k = none) : total w (t.insert k v) = w v + total w t := by
  rw [total_insert, erase_of_lookup_none h]

theorem total_insert_same {v' : V} (h : t.lookup k = some v') (hw : w v = w v') :
    total w (t.insert k v) = total w t := by
  rw [total_insert, total_erase h, hw]

theorem total_le_sum {ι : Type} [DecidableEq ι] {S : Finset ι} {pays : ι → Nat} {f : ι → K}
    (h : ∀ k v, t.lookup k = some v → ∃ i ∈ S, f i = k ∧ w v ≤ pays i) :
    total w t ≤ ∑ i ∈ S, pays i := by
  suffices hlist : ∀ (l : List (Sigma fun _ : K => V)), l.NodupKeys → ∀ S : Finset ι,
      (∀ e ∈ l, ∃ i ∈ S, f i = e.1 ∧ w e.2 ≤ pays i) →
      (l.map fun e => w e.2).sum ≤ ∑ i ∈ S, pays i by
    refine hlist t.entries t.nodupKeys S fun e he => h e.1 e.2 ?_
    exact (List.mem_dlookup_iff t.nodupKeys).mpr he
  intro l
  induction l with
  | nil => exact fun _ S _ => Nat.zero_le _
  | cons e l ih =>
    intro hnodup S howned
    obtain ⟨i, hi, hname, hpays⟩ := howned e (List.mem_cons_self ..)
    rw [List.nodupKeys_cons] at hnodup
    have hrest : (l.map fun e => w e.2).sum ≤ ∑ j ∈ S.erase i, pays j := by
      refine ih hnodup.2 (S.erase i) fun e' he' => ?_
      obtain ⟨j, hj, hname', hpays'⟩ := howned e' (List.mem_cons_of_mem _ he')
      refine ⟨j, Finset.mem_erase.mpr ⟨?_, hj⟩, hname', hpays'⟩
      rintro rfl
      exact hnodup.1 (hname ▸ hname' ▸ List.mem_keys_of_mem he')
    rw [← Finset.add_sum_erase S pays hi, List.map_cons, List.sum_cons]
    omega

theorem total_le_total {u : Table K V}
    (h : ∀ k v, t.lookup k = some v → ∃ v', u.lookup k = some v' ∧ w v ≤ w v') :
    total w t ≤ total w u := by
  suffices hlist : ∀ (l : List (Sigma fun _ : K => V)), l.NodupKeys → ∀ u : Table K V,
      (∀ e ∈ l, ∃ v', u.lookup e.1 = some v' ∧ w e.2 ≤ w v') →
      (l.map fun e => w e.2).sum ≤ total w u by
    refine hlist t.entries t.nodupKeys u fun e he => h e.1 e.2 ?_
    exact (List.mem_dlookup_iff t.nodupKeys).mpr he
  intro l
  induction l with
  | nil => exact fun _ u _ => Nat.zero_le _
  | cons e l ih =>
    intro hnodup u hmatch
    rw [List.nodupKeys_cons] at hnodup
    obtain ⟨v', hv', hle⟩ := hmatch e (List.mem_cons_self ..)
    have hrest : (l.map fun e => w e.2).sum ≤ total w (u.erase e.1) := by
      refine ih hnodup.2 (u.erase e.1) fun e' he' => ?_
      obtain ⟨v'', hv'', hle'⟩ := hmatch e' (List.mem_cons_of_mem _ he')
      have hne : e'.1 ≠ e.1 := fun he => hnodup.1 (he ▸ List.mem_keys_of_mem he')
      exact ⟨v'', (AList.lookup_erase_ne hne).trans hv'', hle'⟩
    rw [total_erase hv', List.map_cons, List.sum_cons]
    omega

end Table

end Hqq
