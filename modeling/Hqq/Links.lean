import Mathlib.Data.List.Basic
import Mathlib.Data.List.Nodup
import Mathlib.Logic.Function.Basic

/-!
# A doubly linked list threaded through the slots of an array

Independent of the program that is verified. A slot is a number and 0 is no slot. `append` and
`unlink` are the usual pointer updates.
-/

namespace Hqq

structure Links where
  prev : Nat → Nat
  next : Nat → Nat
  head : Nat
  tail : Nat

namespace Links

def empty : Links := ⟨fun _ => 0, fun _ => 0, 0, 0⟩

/-- The slot `x` becomes the last one. -/
def append (l : Links) (x : Nat) : Links where
  prev := Function.update l.prev x l.tail
  next :=
    let next := Function.update l.next x 0
    if l.tail ≠ 0 then Function.update next l.tail x else next
  head := if l.tail ≠ 0 then l.head else x
  tail := x

/-- The neighbours of `x` become neighbours. -/
def unlink (l : Links) (x : Nat) : Links where
  prev :=
    let prev := if l.next x ≠ 0 then Function.update l.prev (l.next x) (l.prev x) else l.prev
    Function.update prev x 0
  next :=
    let next := if l.prev x ≠ 0 then Function.update l.next (l.prev x) (l.next x) else l.next
    Function.update next x 0
  head := if l.prev x ≠ 0 then l.head else l.next x
  tail := if l.next x ≠ 0 then l.tail else l.prev x

/-! ## Slots up to a bound -/

structure Below (l : Links) (n : Nat) : Prop where
  head : l.head ≤ n
  tail : l.tail ≤ n
  prev : ∀ i, l.prev i ≤ n
  next : ∀ i, l.next i ≤ n

theorem update_le {f : Nat → Nat} {n v : Nat} (hf : ∀ i, f i ≤ n) (hv : v ≤ n) (x i : Nat) :
    Function.update f x v i ≤ n := by
  obtain rfl | hi := eq_or_ne i x
  · rwa [Function.update_self]
  · rw [Function.update_of_ne hi]
    exact hf i

theorem Below.append {l : Links} {n x : Nat} (h : l.Below n) (hx : x ≤ n) : (l.append x).Below n where
  head := by
    unfold Links.append
    split
    · exact h.head
    · exact hx
  tail := hx
  prev := update_le h.prev h.tail x
  next := by
    unfold Links.append
    split
    · exact update_le (update_le h.next (Nat.zero_le _) x) hx l.tail
    · exact update_le h.next (Nat.zero_le _) x

theorem Below.unlink {l : Links} {n : Nat} (h : l.Below n) (x : Nat) : (l.unlink x).Below n where
  head := by
    unfold Links.unlink
    dsimp only
    split
    · exact h.head
    · exact h.next x
  tail := by
    unfold Links.unlink
    split
    · exact h.tail
    · exact h.prev x
  prev := by
    unfold Links.unlink
    refine update_le (fun i => ?_) (Nat.zero_le _) x
    split
    · exact update_le h.prev (h.prev x) _ i
    · exact h.prev i
  next := by
    unfold Links.unlink
    refine update_le (fun i => ?_) (Nat.zero_le _) x
    split
    · exact update_le h.next (h.next x) _ i
    · exact h.next i

theorem Below.mono {l : Links} {m n : Nat} (h : l.Below m) (hmn : m ≤ n) : l.Below n :=
  ⟨Nat.le_trans h.head hmn, Nat.le_trans h.tail hmn, fun i => Nat.le_trans (h.prev i) hmn,
    fun i => Nat.le_trans (h.next i) hmn⟩

/-! ## The list that the links spell -/

def lastSlot (xs : List Nat) : Nat := xs.getLast?.getD 0

def firstSlot (xs : List Nat) : Nat := xs.head?.getD 0

@[simp] theorem lastSlot_nil : lastSlot [] = 0 := rfl

@[simp] theorem firstSlot_nil : firstSlot [] = 0 := rfl

@[simp] theorem firstSlot_cons (x : Nat) (xs : List Nat) : firstSlot (x :: xs) = x := rfl

@[simp] theorem lastSlot_concat (xs : List Nat) (x : Nat) : lastSlot (xs ++ [x]) = x := by
  simp [lastSlot]

theorem lastSlot_append_cons (xs : List Nat) (x : Nat) (ys : List Nat) :
    lastSlot (xs ++ x :: ys) = lastSlot (x :: ys) := by
  simp [lastSlot, List.getLast?_append, List.getLast?_cons]

theorem lastSlot_mem {xs : List Nat} (h : xs ≠ []) : lastSlot xs ∈ xs := by
  obtain ⟨ys, y, rfl⟩ := List.eq_nil_or_concat' xs |>.resolve_left h
  simp

theorem firstSlot_mem {xs : List Nat} (h : xs ≠ []) : firstSlot xs ∈ xs := by
  obtain ⟨x, ys, rfl⟩ := List.exists_cons_of_ne_nil h
  simp

/-- From the head to the tail the links go through `xs`. -/
structure Spells (l : Links) (xs : List Nat) : Prop where
  nodup : xs.Nodup
  nonzero : 0 ∉ xs
  head : l.head = firstSlot xs
  tail : l.tail = lastSlot xs
  mid : ∀ ys x zs, xs = ys ++ x :: zs → l.prev x = lastSlot ys ∧ l.next x = firstSlot zs

variable {l : Links} {xs : List Nat}

theorem Spells.empty : empty.Spells [] :=
  ⟨List.nodup_nil, List.not_mem_nil, rfl, rfl, fun ys _ _ h => by simp at h⟩

theorem Spells.tail_eq_zero (h : l.Spells xs) : l.tail = 0 ↔ xs = [] := by
  rw [h.tail]
  refine ⟨fun hzero => by_contra fun hne => h.nonzero (hzero ▸ lastSlot_mem hne), ?_⟩
  rintro rfl
  rfl

theorem Spells.append (h : l.Spells xs) {x : Nat} (hx : x ∉ xs) (hpos : x ≠ 0) :
    (l.append x).Spells (xs ++ [x]) where
  nodup := List.nodup_append'.2 ⟨h.nodup, List.nodup_singleton x, by simpa using hx⟩
  nonzero := by simpa using ⟨h.nonzero, hpos.symm⟩
  head := by
    unfold Links.append
    dsimp only
    rcases eq_or_ne xs [] with rfl | hne
    · rw [if_neg (not_not.2 (h.tail_eq_zero.2 rfl))]
      rfl
    · rw [if_pos (mt h.tail_eq_zero.1 hne), h.head]
      obtain ⟨a, as, rfl⟩ := List.exists_cons_of_ne_nil hne
      rfl
  tail := by simp [Links.append]
  mid := by
    intro ys y zs heq
    obtain rfl | ⟨zs, z, rfl⟩ := List.eq_nil_or_concat' zs
    · -- the new slot
      obtain ⟨rfl, hy⟩ := List.append_inj' heq rfl
      obtain rfl : x = y := by simpa using hy
      have htail : l.tail ≠ x := fun ht => by
        rcases eq_or_ne xs [] with rfl | hne
        · exact hpos (by simpa [h.tail] using ht.symm)
        · exact hx (ht ▸ h.tail ▸ lastSlot_mem hne)
      unfold Links.append
      dsimp only
      refine ⟨by rw [Function.update_self, h.tail], ?_⟩
      split
      · rw [Function.update_of_ne htail.symm, Function.update_self]
        rfl
      · rw [Function.update_self]
        rfl
    · -- an old slot: only the last one points to the new slot now
      rw [← List.cons_append, ← List.append_assoc] at heq
      obtain ⟨rfl, hz⟩ := List.append_inj' heq rfl
      obtain rfl : x = z := by simpa using hz
      obtain ⟨hprev, hnext⟩ := h.mid ys y zs rfl
      have hne : y ≠ x := by
        rintro rfl
        exact hx (by simp)
      have htail : l.tail ≠ 0 := by simp [h.tail_eq_zero]
      unfold Links.append
      dsimp only
      refine ⟨by rw [Function.update_of_ne hne, hprev], ?_⟩
      rw [if_pos htail]
      rcases eq_or_ne zs [] with rfl | hzs
      · have hy : l.tail = y := by
          rw [h.tail]
          simp
        rw [hy, Function.update_self]
        rfl
      · have hy : y ≠ l.tail := by
          rw [h.tail, lastSlot_append_cons]
          obtain ⟨as, a, rfl⟩ := List.eq_nil_or_concat' zs |>.resolve_left hzs
          rw [← List.cons_append, lastSlot_concat]
          rintro rfl
          have := h.nodup
          simp [List.nodup_append'] at this
        rw [Function.update_of_ne hy, Function.update_of_ne hne, hnext]
        obtain ⟨a, as, rfl⟩ := List.exists_cons_of_ne_nil hzs
        rfl

theorem lastSlot_append {xs : List Nat} (h : xs ≠ []) (ys : List Nat) :
    lastSlot (ys ++ xs) = lastSlot xs := by
  obtain ⟨x, as, rfl⟩ := List.exists_cons_of_ne_nil h
  exact lastSlot_append_cons ys x as

theorem lastSlot_cons {xs : List Nat} (h : xs ≠ []) (x : Nat) : lastSlot (x :: xs) = lastSlot xs :=
  lastSlot_append h [x]

theorem firstSlot_append {xs : List Nat} (h : xs ≠ []) (ys : List Nat) :
    firstSlot (xs ++ ys) = firstSlot xs := by
  obtain ⟨x, as, rfl⟩ := List.exists_cons_of_ne_nil h
  rfl

theorem relink {f : Nat → Nat} {x y z v : Nat} (hy : y ≠ x) :
    Function.update (if z ≠ 0 then Function.update f z v else f) x 0 y =
      if z ≠ 0 ∧ y = z then v else f y := by
  rw [Function.update_of_ne hy]
  split_ifs with hn hc hc
  · rw [hc.2, Function.update_self]
  · rw [Function.update_of_ne fun h => hc ⟨hn, h⟩]
  · exact absurd hc.1 hn
  · rfl

theorem unlink_prev {x y : Nat} (hy : y ≠ x) :
    (l.unlink x).prev y = if l.next x ≠ 0 ∧ y = l.next x then l.prev x else l.prev y :=
  relink hy

theorem unlink_next {x y : Nat} (hy : y ≠ x) :
    (l.unlink x).next y = if l.prev x ≠ 0 ∧ y = l.prev x then l.next x else l.next y :=
  relink hy

theorem split_cases {ys zs as bs : List Nat} {y : Nat} (h : ys ++ zs = as ++ y :: bs) :
    (∃ cs, ys = as ++ y :: cs ∧ bs = cs ++ zs) ∨ ∃ cs, as = ys ++ cs ∧ zs = cs ++ y :: bs := by
  obtain ⟨cs, has, hzs⟩ | ⟨cs, hys, hbs⟩ := List.append_eq_append_iff.1 h
  · exact .inr ⟨cs, has, hzs⟩
  · cases cs with
    | nil => exact .inr ⟨[], by simpa using hys.symm, by simpa using hbs.symm⟩
    | cons c cs =>
      obtain ⟨rfl, rfl⟩ := List.cons.inj hbs
      exact .inl ⟨cs, hys, rfl⟩

theorem Spells.unlink {x : Nat} {ys zs : List Nat} (h : l.Spells (ys ++ x :: zs)) :
    (l.unlink x).Spells (ys ++ zs) := by
  obtain ⟨hprev, hnext⟩ := h.mid ys x zs rfl
  have hnonzero := h.nonzero
  obtain ⟨hys, hxs, hdisjoint⟩ := List.nodup_append'.1 h.nodup
  obtain ⟨hx, hzs⟩ := List.nodup_cons.1 hxs
  simp only [List.mem_append, List.mem_cons, not_or] at hnonzero
  obtain ⟨hys0, hx0, hzs0⟩ := hnonzero
  have hxys : x ∉ ys := fun hmem => hdisjoint hmem (by simp)
  have hyz : ∀ y ∈ ys, y ∉ zs := fun y hy hz => hdisjoint hy (by simp [hz])
  have hp : l.prev x ≠ 0 ↔ ys ≠ [] := by
    rw [hprev]
    refine ⟨fun hne => by rintro rfl; exact hne rfl, fun hne hzero => hys0 (hzero ▸ lastSlot_mem hne)⟩
  have hn : l.next x ≠ 0 ↔ zs ≠ [] := by
    rw [hnext]
    refine ⟨fun hne => by rintro rfl; exact hne rfl, fun hne hzero => hzs0 (hzero ▸ firstSlot_mem hne)⟩
  refine ⟨List.nodup_append'.2 ⟨hys, hzs, fun y hy hz => hyz y hy hz⟩, by simp [hys0, hzs0], ?_, ?_, ?_⟩
  · change (if l.prev x ≠ 0 then l.head else l.next x) = _
    split_ifs with hc
    · rw [h.head, firstSlot_append (hp.1 hc), firstSlot_append (hp.1 hc)]
    · obtain rfl := not_not.1 (mt hp.2 hc)
      exact hnext
  · change (if l.next x ≠ 0 then l.tail else l.prev x) = _
    split_ifs with hc
    · rw [h.tail, lastSlot_append_cons, lastSlot_cons (hn.1 hc), lastSlot_append (hn.1 hc)]
    · obtain rfl := not_not.1 (mt hn.2 hc)
      rw [List.append_nil]
      exact hprev
  · intro as y bs heq
    obtain ⟨cs, rfl, rfl⟩ | ⟨cs, rfl, rfl⟩ := split_cases heq
    · -- before the member: the slot right before it points past it now
      have hy : y ≠ x := by
        rintro rfl
        exact hxys (by simp)
      obtain ⟨hyprev, hynext⟩ := h.mid as y (cs ++ x :: zs) (by simp)
      rw [unlink_prev hy, unlink_next hy, hyprev, hynext, hnext, hprev]
      refine ⟨if_neg ?_, ?_⟩
      · rintro ⟨hne, rfl⟩
        exact hyz _ (by simp) (firstSlot_mem (hn.1 (hnext ▸ hne)))
      · rcases eq_or_ne cs [] with rfl | hcs
        · have hlast : lastSlot (as ++ [y]) = y := lastSlot_concat as y
          rw [hlast, if_pos ⟨fun hzero => hys0 (by simp [hzero]), rfl⟩]
          rfl
        · have hlast : lastSlot (as ++ y :: cs) ∈ cs := by
            rw [lastSlot_append_cons, lastSlot_cons hcs]
            exact lastSlot_mem hcs
          rw [if_neg, firstSlot_append hcs, firstSlot_append hcs]
          rintro ⟨-, hmem⟩
          rw [← hmem] at hlast
          simp [List.nodup_append', hlast] at hys
    · -- after the member
      have hy : y ≠ x := by
        rintro rfl
        exact hx (by simp)
      obtain ⟨hyprev, hynext⟩ := h.mid (ys ++ x :: cs) y bs (by simp)
      rw [unlink_prev hy, unlink_next hy, hyprev, hynext, hnext, hprev]
      refine ⟨?_, if_neg ?_⟩
      · rcases eq_or_ne cs [] with rfl | hcs
        · have hfirst : firstSlot ([] ++ y :: bs) = y := rfl
          rw [hfirst, if_pos ⟨fun hzero => hzs0 (by simp [hzero]), rfl⟩, List.append_nil]
        · have hfirst : firstSlot (cs ++ y :: bs) ∈ cs := by
            rw [firstSlot_append hcs]
            exact firstSlot_mem hcs
          rw [if_neg, lastSlot_append_cons, lastSlot_cons hcs, lastSlot_append hcs]
          rintro ⟨-, hmem⟩
          rw [← hmem] at hfirst
          simp [List.nodup_append', hfirst] at hzs
      · rintro ⟨hne, rfl⟩
        exact hyz _ (lastSlot_mem (hp.1 (hprev ▸ hne))) (by simp)

end Links

/-! ## A stack of slots -/

/-- From `top` the links go through `xs`. -/
def Stack (next : Nat → Nat) : Nat → List Nat → Prop
  | top, [] => top = 0
  | top, x :: xs => top = x ∧ x ≠ 0 ∧ Stack next (next x) xs

namespace Stack

variable {next next' : Nat → Nat} {top : Nat} {xs : List Nat}

theorem congr (h : Stack next top xs) (heq : ∀ x ∈ xs, next' x = next x) : Stack next' top xs := by
  induction xs generalizing top with
  | nil => exact h
  | cons x xs ih =>
    obtain ⟨htop, hx, hrest⟩ := h
    refine ⟨htop, hx, ?_⟩
    rw [heq x (by simp)]
    exact ih hrest fun y hy => heq y (by simp [hy])

theorem eq_zero_iff (h : Stack next top xs) : top = 0 ↔ xs = [] := by
  cases xs with
  | nil => exact ⟨fun _ => rfl, fun _ => h⟩
  | cons x xs => simp [h.1, h.2.1]

theorem pop (h : Stack next top xs) (htop : top ≠ 0) :
    ∃ rest, xs = top :: rest ∧ Stack next (next top) rest := by
  cases xs with
  | nil => exact absurd h htop
  | cons x xs =>
    obtain ⟨rfl, -, hrest⟩ := h
    exact ⟨xs, rfl, hrest⟩

end Stack

end Hqq
