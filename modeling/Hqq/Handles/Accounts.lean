import Hqq.Handles.History
import Mathlib.Algebra.Order.Group.Nat
import Mathlib.Data.List.Range

/-!
# The live list and the free list share the indices

Every index up to the high-water mark is on one of them, and the log says what a live one
holds.
-/

namespace Hqq.Handles

/-- `live` and `free` are the live list and the free list of the table. -/
structure Wf (c : Iface) (s : Ledger) (live free : List Nat) : Prop where
  spells : s.store.links.Spells live
  stack : Stack (fun i => (s.store.tab i).freeNext) s.store.freeHead free
  perm : (live ++ free).Perm (List.range' 1 s.store.highWater)
  liveCount : s.store.liveCount = live.length
  freeCount : s.store.freeCount = free.length
  high : s.store.highWater ≤ c.maxHandles
  held : ∀ i ∈ live, (s.store.tab i).live = true ∧ ∃ o, (s.store.tab i).ptr = some o ∧
    current i s.log = some
      ⟨handleID (s.store.tab i).gen i, (s.store.tab i).type, (s.store.tab i).parent, o⟩
  idle : ∀ i, i ∉ live → (s.store.tab i).live = false ∧ current i s.log = none
  gen : ∀ i, 0 < i → i ≤ s.store.highWater → (s.store.tab i).gen = 1 + frees i s.log % 65535
  unborn : ∀ i, s.store.highWater < i → frees i s.log = 0
  history : History s.log
  fresh : ∀ e ∈ s.log, e.obj < s.nextObj

variable {c : Iface} {s : Ledger} {live free : List Nat}

theorem Wf.empty : Wf c .empty [] [] where
  spells := .empty
  stack := rfl
  perm := .nil
  liveCount := rfl
  freeCount := rfl
  high := Nat.zero_le _
  held := by simp
  idle := fun _ _ => ⟨rfl, rfl⟩
  gen := fun i hpos hle => absurd hle (Nat.not_le.2 hpos)
  unborn := fun _ _ => rfl
  history := .nil
  fresh := fun _ h => by cases h

theorem Wf.mem_iff (h : Wf c s live free) {i : Nat} :
    i ∈ live ∨ i ∈ free ↔ 0 < i ∧ i ≤ s.store.highWater := by
  rw [← List.mem_append, h.perm.mem_iff, List.mem_range'_1]
  omega

theorem Wf.nodup (h : Wf c s live free) : (live ++ free).Nodup :=
  h.perm.nodup_iff.2 List.nodup_range'

theorem Wf.le (h : Wf c s live free) {i : Nat} (hi : i ∈ live) : 0 < i ∧ i ≤ 65535 := by
  obtain ⟨hpos, hle⟩ := h.mem_iff.1 (.inl hi)
  exact ⟨hpos, hle.trans (h.high.trans c.maxHandles_le)⟩

theorem nextGen {gen n : Nat} (h : gen = 1 + n % 65535) :
    (if gen = 65535 then 1 else gen + 1) = 1 + (n + 1) % 65535 := by
  split <;> omega

theorem Wf.ne_of_mem {ys zs : List Nat} {i j : Nat} (h : Wf c s (ys ++ i :: zs) free)
    (hj : j ∈ ys ++ zs) : j ≠ i := by
  rintro rfl
  have := h.spells.nodup
  rw [List.nodup_middle, List.nodup_cons] at this
  exact this.1 hj

theorem Wf.freed {ys zs : List Nat} {i : Nat} {o : Obj} {e : Ev}
    (h : Wf c s (ys ++ i :: zs) free) (hptr : (s.store.tab i).ptr = some o)
    (hfrees : e.frees = true) (hid : e.id = handleID (s.store.tab i).gen i) (hobj : e.obj = o) :
    Wf c { s with store := s.store.entryFree i, log := e :: s.log } (ys ++ zs) (i :: free) := by
  have hi : i ∈ ys ++ i :: zs := by simp
  obtain ⟨hpos, hle⟩ := h.le hi
  have hidx : e.id % 65536 = i := hid ▸ handleID_mod hle
  have hnodup := h.nodup
  have hne : ∀ j ∈ ys ++ zs, j ≠ i := fun j => h.ne_of_mem
  have hfree : i ∉ free := fun hmem => (List.nodup_append'.1 hnodup).2.2 hi hmem
  have htab : ∀ j, j ≠ i → (s.store.entryFree i).tab j = s.store.tab j := fun j hj =>
    Function.update_of_ne hj ..
  obtain ⟨-, o', hptr', hcur⟩ := h.held i hi
  obtain rfl : o = o' := Option.some.inj (hptr.symm.trans hptr')
  refine ⟨h.spells.unlink, ⟨rfl, hpos.ne', ?_⟩, ?_, ?_, ?_, h.high, ?_, ?_, ?_, ?_, ?_, ?_⟩
  · have hnext : ((s.store.entryFree i).tab i).freeNext = s.store.freeHead := by
      simp [Store.entryFree]
    change Stack _ ((s.store.entryFree i).tab i).freeNext free
    rw [hnext]
    refine h.stack.congr fun j hj => ?_
    change ((s.store.entryFree i).tab j).freeNext = _
    rw [htab j fun heq => hfree (heq ▸ hj)]
  · refine List.Perm.trans ?_ h.perm
    rw [List.append_assoc, List.append_assoc]
    exact List.Perm.append_left ys List.perm_middle
  · change s.store.liveCount - 1 = _
    rw [h.liveCount]
    simp
  · change s.store.freeCount + 1 = _
    rw [h.freeCount, List.length_cons]
  · intro j hj
    have hji := hne j hj
    change ((s.store.entryFree i).tab j).live = true ∧ ∃ o, ((s.store.entryFree i).tab j).ptr = some o ∧
      current j (e :: s.log) = some ⟨handleID ((s.store.entryFree i).tab j).gen j,
        ((s.store.entryFree i).tab j).type, ((s.store.entryFree i).tab j).parent, o⟩
    rw [htab j hji, current_cons_of_ne (hidx ▸ hji.symm)]
    refine h.held j ?_
    rcases List.mem_append.1 hj with hj | hj <;> simp [hj]
  · intro j hj
    change ((s.store.entryFree i).tab j).live = false ∧ current j (e :: s.log) = none
    obtain rfl | hji := eq_or_ne j i
    · refine ⟨by simp [Store.entryFree], ?_⟩
      rw [current, if_pos hidx]
      exact Ev.reg_of_frees hfrees
    · rw [htab j hji, current_cons_of_ne (hidx ▸ hji.symm)]
      refine h.idle j fun hmem => hj ?_
      simp only [List.mem_append, List.mem_cons] at hmem ⊢
      tauto
  · intro j hjpos hjle
    change ((s.store.entryFree i).tab j).gen = 1 + frees j (e :: s.log) % 65535
    rw [frees_cons, hfrees, hidx]
    obtain rfl | hji := eq_or_ne j i
    · have hgen := nextGen (h.gen j hjpos hjle)
      simpa [Store.entryFree] using hgen
    · rw [htab j hji]
      simpa [hji.symm] using h.gen j hjpos hjle
  · intro j hj
    have hji : i ≠ j := by
      rintro rfl
      exact absurd (h.mem_iff.1 (.inl hi)).2 (Nat.not_le.2 hj)
    change frees j (e :: s.log) = 0
    rw [frees_cons, hidx]
    simpa [hji] using h.unborn j hj
  · rw [← hidx] at hcur
    exact .free h.history hfrees hcur (by rw [hidx, hid]) hobj.symm
  · intro e' he'
    rcases List.mem_cons.1 he' with rfl | he'
    · rw [hobj]
      exact h.fresh _ (current_mem hcur)
    · exact h.fresh e' he'

structure Chosen (c : Iface) (s : Ledger) (st : Store) (idx : Nat) (live free : List Nat) : Prop where
  pos : 0 < idx
  le : idx ≤ st.highWater
  high : st.highWater ≤ c.maxHandles
  new : idx ∉ live
  others : ∀ j, j ≠ idx → st.tab j = s.store.tab j
  old : ∀ j, j ≠ idx → j ≤ st.highWater → j ≤ s.store.highWater
  grows : s.store.highWater ≤ st.highWater
  links : st.links = s.store.links
  liveCount : st.liveCount = s.store.liveCount
  stack : Stack (fun i => (st.tab i).freeNext) st.freeHead free
  perm : ((live ++ [idx]) ++ free).Perm (List.range' 1 st.highWater)
  freeCount : st.freeCount = free.length
  gen : (st.tab idx).gen = 1 + frees idx s.log % 65535

theorem Wf.chosen {idx : Nat} {st : Store} (h : Wf c s live free)
    (hpick : s.store.pick c = some (idx, st)) : ∃ free', Chosen c s st idx live free' := by
  unfold Store.pick at hpick
  split at hpick
  · rename_i htop
    cases hpick
    obtain ⟨rest, rfl, hrest⟩ := h.stack.pop htop
    have hmem : s.store.freeHead ∈ live ∨ s.store.freeHead ∈ s.store.freeHead :: rest := by simp
    obtain ⟨hpos, hle⟩ := h.mem_iff.1 hmem
    refine ⟨rest, hpos, hle, h.high, ?_, fun _ _ => rfl, fun _ _ hj => hj, le_rfl, rfl, rfl, hrest, ?_,
      ?_, h.gen _ hpos hle⟩
    · exact fun hlive => (List.nodup_append'.1 h.nodup).2.2 hlive (by simp)
    · simpa using h.perm
    · change s.store.freeCount - 1 = _
      rw [h.freeCount, List.length_cons, Nat.add_sub_cancel]
  · rename_i htop
    obtain rfl := h.stack.eq_zero_iff.1 (not_not.1 htop)
    split at hpick
    · cases hpick
    rename_i hroom
    cases hpick
    have hnew : s.store.highWater + 1 ∉ live := fun hmem =>
      absurd (h.mem_iff.1 (.inl hmem)).2 (Nat.not_succ_le_self _)
    refine ⟨[], Nat.succ_pos _, le_rfl, by dsimp only; omega, hnew, fun j hj => Function.update_of_ne hj ..,
      fun j hj hle => ?_, Nat.le_succ _, rfl, rfl, not_not.1 htop, ?_, h.freeCount, ?_⟩
    · dsimp only at hle
      omega
    · have hperm := h.perm
      rw [List.append_nil] at hperm
      rw [List.append_nil, List.range'_concat]
      rw [Nat.one_mul, Nat.add_comm 1]
      exact hperm.append_right _
    · rw [h.unborn _ (Nat.lt_succ_self _)]
      simp

theorem Wf.fill {idx t parent : Nat} {st : Store} {free' : List Nat} (h : Wf c s live free)
    (hc : Chosen c s st idx live free') {reg : List Nat} {reserved : Nat} :
    Wf c ⟨{ st with
        tab := Function.update st.tab idx ⟨some s.nextObj, t, parent, true, (st.tab idx).gen, 0⟩
        links := st.links.append idx
        liveCount := st.liveCount + 1
        hreserved := reserved
        reg := reg }, s.nextObj + 1,
      .put ⟨handleID (st.tab idx).gen idx, t, parent, s.nextObj⟩ :: s.log⟩ (live ++ [idx]) free' := by
  have hle : idx ≤ 65535 := hc.le.trans (hc.high.trans c.maxHandles_le)
  have hidx : handleID (st.tab idx).gen idx % 65536 = idx := handleID_mod hle
  have hnodup : ((live ++ [idx]) ++ free').Nodup := hc.perm.nodup_iff.2 List.nodup_range'
  have hfree : idx ∉ free' := fun hmem => (List.nodup_append'.1 hnodup).2.2 (by simp) hmem
  have hfrees : ∀ j, frees j (.put ⟨handleID (st.tab idx).gen idx, t, parent, s.nextObj⟩ :: s.log) =
      frees j s.log := fun j => by simp [frees_cons, Ev.frees]
  refine ⟨?_, ?_, hc.perm, ?_, hc.freeCount, hc.high, ?_, ?_, ?_, ?_, ?_, ?_⟩
  · change (st.links.append idx).Spells _
    rw [hc.links]
    exact h.spells.append hc.new hc.pos.ne'
  · refine hc.stack.congr fun j hj => ?_
    have hne : j ≠ idx := by
      rintro rfl
      exact hfree hj
    dsimp only
    rw [Function.update_of_ne hne]
  · change st.liveCount + 1 = _
    rw [hc.liveCount, h.liveCount, List.length_append, List.length_singleton]
  · intro j hj
    dsimp only
    obtain rfl | hne := eq_or_ne j idx
    · rw [Function.update_self]
      refine ⟨rfl, s.nextObj, rfl, ?_⟩
      exact if_pos hidx
    · rw [Function.update_of_ne hne, hc.others j hne, current, if_neg (by simpa [Ev.id, hidx] using hne.symm)]
      refine h.held j ?_
      simpa [hne] using hj
  · intro j hj
    simp only [List.mem_append, List.mem_singleton, not_or] at hj
    dsimp only
    rw [Function.update_of_ne hj.2, hc.others j hj.2, current,
      if_neg (by simpa [Ev.id, hidx] using Ne.symm hj.2)]
    exact h.idle j hj.1
  · intro j hpos hj
    rw [hfrees]
    dsimp only
    obtain rfl | hne := eq_or_ne j idx
    · rw [Function.update_self]
      exact hc.gen
    · rw [Function.update_of_ne hne, hc.others j hne]
      exact h.gen j hpos (hc.old j hne hj)
  · intro j hj
    rw [hfrees]
    exact h.unborn j (hc.grows.trans_lt hj)
  · refine .put h.history ?_ h.fresh ?_
    · rw [hidx]
      exact (h.idle idx hc.new).2
    · rw [hidx]
      change handleID _ _ / 65536 = _
      rw [handleID_div hle]
      exact hc.gen
  · intro e he
    rcases List.mem_cons.1 he with rfl | he
    · exact Nat.lt_succ_self _
    · exact Nat.lt_succ_of_lt (h.fresh e he)

theorem Wf.put {t parent : Nat} {mem : Bool} {s' : Ledger} (h : Wf c s live free)
    (hput : s.put c t parent mem = some s') : ∃ idx free', Wf c s' (live ++ [idx]) free' := by
  obtain ⟨⟨st', id⟩, hst, rfl⟩ := Option.map_eq_some_iff.1 hput
  unfold Store.put at hst
  split at hst
  · cases hst
  split at hst
  · cases hst
  split at hst
  · cases hst
  split at hst
  · cases hst
  rename_i idx st hpick
  cases hst
  obtain ⟨free', hc⟩ := h.chosen hpick
  exact ⟨idx, free', h.fill hc⟩

theorem Store.entryFree_mark (st : Store) (i : Nat) : (st.mark i).entryFree i = st.entryFree i := by
  unfold Store.entryFree Store.mark
  simp [Function.update_idem]

theorem Wf.entryDestroy {ys zs : List Nat} {i : Nat} (h : Wf c s (ys ++ i :: zs) free) :
    Wf c (s.entryDestroy i) (ys ++ zs) (i :: free) := by
  obtain ⟨-, o, hptr, -⟩ := h.held i (by simp)
  unfold Ledger.entryDestroy
  dsimp only
  rw [hptr, Store.entryFree_mark]
  exact h.freed hptr rfl rfl rfl

theorem Wf.lookup (h : Wf c s live free) {id : Nat} {e : Entry} (hlookup : s.store.lookup id = some e) :
    id % 65536 ∈ live ∧ e = s.store.tab (id % 65536) ∧ id = handleID e.gen (id % 65536) := by
  simp only [Store.lookup] at hlookup
  split at hlookup
  · cases hlookup
  split at hlookup
  · cases hlookup
  rename_i hlive
  cases hlookup
  rw [not_or, Bool.not_eq_false] at hlive
  refine ⟨by_contra fun hmem => ?_, rfl, ?_⟩
  · rw [(h.idle _ hmem).1] at hlive
    cases hlive.1
  · rw [not_not.1 hlive.2]
    unfold handleID
    omega

theorem Wf.lookup_live (h : Wf c s live free) {i : Nat} (hi : i ∈ live) :
    s.store.lookup (handleID (s.store.tab i).gen i) = some (s.store.tab i) := by
  obtain ⟨hpos, hle⟩ := h.mem_iff.1 (.inl hi)
  have hle' := (h.le hi).2
  unfold Store.lookup
  simp only [handleID_mod hle', handleID_div hle']
  rw [if_neg (by omega), if_neg (by simp [(h.held i hi).1])]

theorem Wf.consume (h : Wf c s live free) (id : Nat) :
    ∃ live' free', Wf c (s.consume id) live' free' := by
  unfold Ledger.consume Store.consume
  cases hlookup : s.store.lookup id with
  | none => exact ⟨live, free, h⟩
  | some e =>
    obtain ⟨hmem, rfl, hid⟩ := h.lookup hlookup
    obtain ⟨ys, zs, rfl⟩ := List.append_of_mem hmem
    obtain ⟨-, o, hptr, -⟩ := h.held _ hmem
    rw [if_pos Option.isSome_some, Option.bind_some, hptr]
    exact ⟨_, _, h.freed hptr rfl hid rfl⟩

theorem Wf.destroyWalk {root n : Nat} {ys zs : List Nat} (h : Wf c s (ys ++ zs) free)
    (hn : ys.length ≤ n) :
    ∃ live' free', Wf c (Ledger.destroyWalk c root n (Links.lastSlot ys) s) live' free' := by
  induction n generalizing s ys zs free with
  | zero => exact ⟨_, _, h⟩
  | succ n ih =>
    obtain rfl | ⟨ys, y, rfl⟩ := List.eq_nil_or_concat' ys
    · exact ⟨_, _, h⟩
    · rw [List.length_append, List.length_singleton] at hn
      have hsplit : ys ++ [y] ++ zs = ys ++ y :: zs := by simp
      rw [hsplit] at h
      obtain ⟨hprev, -⟩ := h.spells.mid ys y zs rfl
      have hpos := (h.le (i := y) (by simp)).1
      rw [Links.lastSlot_concat, Ledger.destroyWalk, if_neg hpos.ne', hprev]
      split
      · exact ih h.entryDestroy (by omega)
      · exact ih h (by omega)

theorem Wf.length_le (h : Wf c s live free) : live.length ≤ s.store.highWater := by
  have hlen := h.perm.length_eq
  rw [List.length_append, List.length_range'] at hlen
  omega

theorem Wf.destroyChildren (h : Wf c s live free) (id : Nat) :
    ∃ live' free', Wf c (s.destroyChildren c id) live' free' := by
  unfold Ledger.destroyChildren
  split
  · exact ⟨live, free, h⟩
  · rw [h.spells.tail]
    have hall : Wf c s (live ++ []) free := by simpa using h
    exact hall.destroyWalk h.length_le

theorem Wf.destroyAll {n : Nat} (h : Wf c s live free) (hn : live.length ≤ n) :
    ∃ free', Wf c (Ledger.destroyAll n s) [] free' := by
  induction n generalizing s live free with
  | zero =>
    obtain rfl := List.eq_nil_of_length_eq_zero (Nat.le_zero.1 hn)
    exact ⟨free, h⟩
  | succ n ih =>
    rw [Ledger.destroyAll]
    obtain rfl | ⟨ys, y, rfl⟩ := List.eq_nil_or_concat' live
    · rw [if_pos (h.spells.tail_eq_zero.2 rfl)]
      exact ⟨free, h⟩
    · have htail : s.store.links.tail = y := by
        rw [h.spells.tail, Links.lastSlot_concat]
      have hpos := (h.le (i := y) (by simp)).1
      rw [if_neg (htail ▸ hpos.ne'), htail]
      rw [List.length_append, List.length_singleton] at hn
      have hnext := h.entryDestroy
      rw [List.append_nil] at hnext
      exact ih hnext (by omega)

theorem Wf.rollback (h : Wf c s live free) (reg : List Nat) :
    ∃ live' free', Wf c (Ledger.rollback reg s) live' free' := by
  induction reg generalizing s live free with
  | nil => exact ⟨live, free, h⟩
  | cons id reg ih =>
    rw [Ledger.rollback]
    cases hlookup : s.store.lookup id with
    | none => exact ih h
    | some e =>
      obtain ⟨ys, zs, rfl⟩ := List.append_of_mem (h.lookup hlookup).1
      rw [if_pos Option.isSome_some]
      exact ih h.entryDestroy

theorem Wf.of_call (h : Wf c s live free) (cap reserved : Nat) (reg : List Nat) :
    Wf c { s with store := { s.store with tabCap := cap, hreserved := reserved, reg := reg } } live free :=
  ⟨h.spells, h.stack, h.perm, h.liveCount, h.freeCount, h.high, h.held, h.idle, h.gen, h.unborn,
    h.history, h.fresh⟩

theorem Wf.callEnd (h : Wf c s live free) (roll : Bool) :
    ∃ live' free', Wf c (s.callEnd roll) live' free' := by
  unfold Ledger.callEnd
  cases roll with
  | false => exact ⟨live, free, h.of_call _ _ _⟩
  | true =>
    obtain ⟨live', free', h'⟩ := h.rollback s.store.reg
    exact ⟨live', free', h'.of_call _ _ _⟩

/-! ## Room for what is reserved -/

structure Room (c : Iface) (st : Store) : Prop where
  cover : st.hreserved ≤ st.freeCount + (c.maxHandles - st.highWater)
  cap : st.freeCount < st.hreserved → st.highWater + (st.hreserved - st.freeCount) < st.tabCap

theorem lt_growCap {top n cap : Nat} (h : top < cap * 2 ^ n) : top < growCap top n cap := by
  induction n generalizing cap with
  | zero => simpa [growCap] using h
  | succ n ih =>
    rw [growCap]
    split
    · refine ih ?_
      rwa [Nat.mul_assoc, ← Nat.pow_succ']
    · omega

theorem Store.grow_cap {st st' : Store} {top : Nat} {mem : Bool} (h : st.grow c top mem = some st')
    (htop : top ≤ c.maxHandles) : ∃ cap, st' = { st with tabCap := cap } ∧ top < cap := by
  unfold Store.grow at h
  split at h
  · cases h
    exact ⟨st.tabCap, rfl, ‹_›⟩
  split at h
  · cases h
    refine ⟨_, rfl, Nat.lt_min.2 ⟨lt_growCap ?_, by omega⟩⟩
    have hpow : top < 2 ^ top := Nat.lt_two_pow_self
    have hpos : 0 < if st.tabCap ≠ 0 then st.tabCap else 32 := by split <;> omega
    exact hpow.trans_le (Nat.le_mul_of_pos_left _ hpos)
  · cases h

theorem Store.reserve_room {st st' : Store} {n : Nat} {mem : Bool} (h : st.reserve c n mem = some st')
    (hhigh : st.highWater ≤ c.maxHandles) :
    Room c st' ∧ ∃ cap, st' = { st with tabCap := cap, hreserved := st.hreserved + n } := by
  simp only [Store.reserve] at h
  split at h
  · cases h
  rename_i havail
  obtain ⟨grown, hgrow, rfl⟩ := Option.map_eq_some_iff.1 h
  split at hgrow
  · rename_i hlt
    rw [if_pos (by omega)] at hgrow
    obtain ⟨cap, rfl, htop⟩ := Store.grow_cap hgrow (by omega)
    exact ⟨⟨by dsimp only; omega, fun _ => htop⟩, cap, rfl⟩
  · rename_i hle
    rw [if_neg (by simp)] at hgrow
    cases hgrow
    exact ⟨⟨by dsimp only; omega, fun hlt => absurd hlt hle⟩, st.tabCap, rfl⟩

theorem Room.entryFree {st : Store} (h : Room c st) (i : Nat) : Room c (st.entryFree i) := by
  obtain ⟨hcover, hcap⟩ := h
  unfold Store.entryFree
  constructor
  · dsimp only
    omega
  · dsimp only
    omega

theorem Wf.room (h : Wf c s live free) (hroom : Room c s.store) (hres : 0 < s.store.hreserved) :
    ∃ p, s.store.pick c = some p := by
  unfold Store.pick
  split
  · exact ⟨_, rfl⟩
  rename_i htop
  have hfree : s.store.freeCount = 0 := by
    rw [h.freeCount, h.stack.eq_zero_iff.1 (not_not.1 htop)]
    rfl
  have hcover := hroom.cover
  have hcap := hroom.cap (by omega)
  rw [if_neg (by omega)]
  exact ⟨_, rfl⟩

theorem Wf.put_room {t parent : Nat} {mem : Bool} {s' : Ledger} (h : Wf c s live free)
    (hroom : Room c s.store) (hput : s.put c t parent mem = some s') :
    Room c s'.store ∧ s'.store.hreserved + 1 = s.store.hreserved := by
  obtain ⟨⟨st', id⟩, hst, rfl⟩ := Option.map_eq_some_iff.1 hput
  unfold Store.put at hst
  split at hst
  · cases hst
  rename_i hres
  split at hst
  · cases hst
  split at hst
  · cases hst
  split at hst
  · cases hst
  rename_i idx st hpick
  cases hst
  obtain ⟨hcover, hcap⟩ := hroom
  unfold Store.pick at hpick
  split at hpick
  · rename_i htop
    cases hpick
    have hfree : 0 < s.store.freeCount := by
      rw [h.freeCount]
      exact List.length_pos_of_ne_nil (mt h.stack.eq_zero_iff.2 htop)
    refine ⟨⟨?_, ?_⟩, ?_⟩ <;> dsimp only <;> omega
  · rename_i htop
    have hfree : s.store.freeCount = 0 := by
      rw [h.freeCount, h.stack.eq_zero_iff.1 (not_not.1 htop)]
      rfl
    split at hpick
    · cases hpick
    cases hpick
    refine ⟨⟨?_, ?_⟩, ?_⟩ <;> dsimp only <;> omega

/-! ## Every sequence of operations -/

theorem Ledger.destroyWalk_keeps {P : Ledger → Prop} (hP : ∀ s i, P s → P (s.entryDestroy i))
    (root n i : Nat) {s : Ledger} (h : P s) : P (Ledger.destroyWalk c root n i s) := by
  induction n generalizing s i with
  | zero => exact h
  | succ n ih =>
    rw [Ledger.destroyWalk]
    split
    · exact h
    · dsimp only
      split
      · exact ih _ (hP s i h)
      · exact ih _ h

theorem Ledger.destroyChildren_keeps {P : Ledger → Prop} (hP : ∀ s i, P s → P (s.entryDestroy i))
    (id : Nat) {s : Ledger} (h : P s) : P (s.destroyChildren c id) := by
  unfold Ledger.destroyChildren
  split
  · exact h
  · exact Ledger.destroyWalk_keeps hP _ _ _ h

theorem Ledger.destroyAll_keeps {P : Ledger → Prop} (hP : ∀ s i, P s → P (s.entryDestroy i))
    (n : Nat) {s : Ledger} (h : P s) : P (Ledger.destroyAll n s) := by
  induction n generalizing s with
  | zero => exact h
  | succ n ih =>
    rw [Ledger.destroyAll]
    split
    · exact h
    · exact ih (hP s _ h)

def Op.inCall : Op → Bool
  | .callEnd _ | .teardown => false
  | _ => true

def Op.isPut : Op → Bool
  | .put _ _ _ => true
  | _ => false

structure Ledger.Ok (c : Iface) (s : Ledger) : Prop where
  lists : ∃ live free, Wf c s live free
  room : Room c s.store

theorem Ledger.Ok.empty : Ledger.Ok c .empty :=
  ⟨⟨[], [], Wf.empty⟩, ⟨Nat.zero_le _, fun h => absurd h (Nat.lt_irrefl 0)⟩⟩

theorem room_entryDestroy (k : Nat) (s : Ledger) (i : Nat)
    (h : Room c s.store ∧ s.store.hreserved = k) :
    Room c (s.entryDestroy i).store ∧ (s.entryDestroy i).store.hreserved = k := by
  unfold Ledger.entryDestroy
  rw [Store.entryFree_mark]
  exact ⟨h.1.entryFree i, h.2⟩

theorem Ledger.Ok.in_call (h : s.Ok c) {a : Op} (ha : a.inCall = true) :
    (s.apply c a).Ok c ∧
      s.store.hreserved ≤ (s.apply c a).store.hreserved + if a.isPut then 1 else 0 := by
  obtain ⟨⟨live, free, hwf⟩, hroom⟩ := h
  cases a with
  | reserve n mem =>
    rw [Ledger.apply]
    split
    · rename_i st hst
      obtain ⟨hroom', cap, rfl⟩ := Store.reserve_room hst hwf.high
      exact ⟨⟨⟨live, free, hwf.of_call _ _ _⟩, hroom'⟩, Nat.le_add_right _ _⟩
    · exact ⟨⟨⟨live, free, hwf⟩, hroom⟩, Nat.le_add_right _ _⟩
  | put t parent mem =>
    rw [Ledger.apply]
    cases hput : s.put c t parent mem with
    | none => exact ⟨⟨⟨live, free, hwf⟩, hroom⟩, Nat.le_add_right _ _⟩
    | some s' =>
      obtain ⟨idx, free', hwf'⟩ := hwf.put hput
      obtain ⟨hroom', hres⟩ := hwf.put_room hroom hput
      exact ⟨⟨⟨_, free', hwf'⟩, hroom'⟩, hres.ge⟩
  | consume id =>
    refine ⟨⟨hwf.consume id, ?_⟩, ?_⟩ <;> rw [Ledger.apply] <;> unfold Ledger.consume Store.consume <;>
      dsimp only <;> split
    · exact hroom.entryFree _
    · exact hroom
    · exact Nat.le_add_right _ _
    · exact Nat.le_add_right _ _
  | destroyChildren id =>
    have hkeeps : Room c (s.destroyChildren c id).store ∧
        (s.destroyChildren c id).store.hreserved = s.store.hreserved :=
      Ledger.destroyChildren_keeps (room_entryDestroy s.store.hreserved) id ⟨hroom, rfl⟩
    exact ⟨⟨hwf.destroyChildren id, hkeeps.1⟩, hkeeps.2.ge⟩
  | callEnd roll => cases ha
  | teardown => cases ha

theorem Ledger.Ok.of_step (h : s.Ok c) (a : Op) : (s.apply c a).Ok c := by
  by_cases ha : a.inCall = true
  · exact (h.in_call ha).1
  obtain ⟨⟨live, free, hwf⟩, hroom⟩ := h
  cases a with
  | callEnd roll =>
    refine ⟨hwf.callEnd roll, ⟨Nat.zero_le _, fun hlt => absurd hlt (Nat.not_lt_zero _)⟩⟩
  | teardown =>
    obtain ⟨free', hwf'⟩ := hwf.destroyAll hwf.length_le
    have hkeeps := Ledger.destroyAll_keeps (room_entryDestroy s.store.hreserved)
      s.store.highWater ⟨hroom, rfl⟩
    exact ⟨⟨[], free', hwf'⟩, hkeeps.1⟩
  | reserve n mem => exact absurd rfl ha
  | put t parent mem => exact absurd rfl ha
  | consume id => exact absurd rfl ha
  | destroyChildren id => exact absurd rfl ha

theorem Ledger.Ok.run (h : s.Ok c) (as : List Op) (has : ∀ a ∈ as, a.inCall = true) :
    (as.foldl (Ledger.apply c) s).Ok c ∧
      s.store.hreserved ≤ (as.foldl (Ledger.apply c) s).store.hreserved + as.countP Op.isPut := by
  induction as generalizing s with
  | nil => exact ⟨h, Nat.le_refl _⟩
  | cons a as ih =>
    obtain ⟨hok, hres⟩ := h.in_call (has a (by simp))
    obtain ⟨hok', hres'⟩ := ih hok fun b hb => has b (by simp [hb])
    refine ⟨hok', ?_⟩
    rw [List.countP_cons, List.foldl_cons]
    omega

theorem Ledger.Ok.put_isSome (h : s.Ok c) (hres : 0 < s.store.hreserved) {t parent : Nat} (ht : 0 < t)
    (htypes : t ≤ c.types.length) (hparent : parent = 0 ∨ s.store.lookup parent ≠ none) :
    (s.put c t parent true).isSome = true := by
  obtain ⟨⟨live, free, hwf⟩, hroom⟩ := h
  obtain ⟨p, hpick⟩ := hwf.room hroom hres
  unfold Ledger.put Store.put
  rw [if_neg (by omega), if_neg (by tauto), if_neg (by simp), hpick]
  rfl

theorem Wf.get_iff (h : Wf c s live free) {id t : Nat} {nullable : Bool} {o : Obj} :
    s.store.get id t nullable = some (some o) ↔
      ∃ parent, current (id % 65536) s.log = some ⟨id, t, parent, o⟩ := by
  unfold Store.get
  constructor
  · intro hget
    split at hget
    · split at hget <;> cases hget
    split at hget
    · cases hget
    rename_i e hlookup
    split at hget
    · cases hget
    rename_i htype
    obtain ⟨hmem, rfl, hid⟩ := h.lookup hlookup
    obtain ⟨-, o', hptr, hcur⟩ := h.held _ hmem
    have ho : o' = o := Option.some.inj (hptr.symm.trans (Option.some.inj hget))
    rw [← hid, not_not.1 htype, ho] at hcur
    exact ⟨_, hcur⟩
  · rintro ⟨parent, hcur⟩
    have hmem : id % 65536 ∈ live := by
      by_contra hmem
      rw [(h.idle _ hmem).2] at hcur
      cases hcur
    obtain ⟨-, o', hptr, hcur'⟩ := h.held _ hmem
    obtain ⟨hid, htype, -, rfl⟩ := Reg.mk.inj (Option.some.inj (hcur.symm.trans hcur'))
    have hpos := (h.le hmem).1
    have hlookup := h.lookup_live hmem
    rw [← hid] at hlookup
    rw [if_neg (by omega), hlookup]
    dsimp only
    rw [if_neg (not_not.2 htype.symm), hptr]

theorem Ledger.Ok.of_reachable (h : (ledgerMachine c).Reachable s) : s.Ok c :=
  h.invariant Ledger.Ok.empty fun _ a _ _ hI _ hstep => Option.some.inj hstep ▸ hI.of_step a

/-- In every sequence of operations of a session a lookup finds exactly what is registered, and an
ID comes back only after 65535 frees of its index. -/
theorem handle_table_ok (h : (ledgerMachine c).Reachable s) :
    (∃ live free, s.store.links.Spells live ∧
      Stack (fun i => (s.store.tab i).freeNext) s.store.freeHead free ∧
      (live ++ free).Perm (List.range' 1 s.store.highWater) ∧
      s.store.liveCount = live.length ∧ s.store.freeCount = free.length ∧
      s.store.liveCount + s.store.freeCount = s.store.highWater) ∧
    (∀ id t nullable o, s.store.get id t nullable = some (some o) ↔
      ∃ parent newer older, s.log = newer ++ .put ⟨id, t, parent, o⟩ :: older ∧
        ∀ e ∈ newer, e.frees = true → e.obj ≠ o) ∧
    (∀ newer mid older r e, s.log = newer ++ .put r :: (mid ++ e :: older) → e.frees = true →
      e.id = r.id → 65535 ≤ frees (r.id % 65536) (mid ++ [e])) ∧
    (∀ n mem st, s.store.reserve c n mem = some st → ∀ as : List Op, (∀ a ∈ as, a.inCall = true) →
      as.countP Op.isPut < n → ∀ t parent, 0 < t → t ≤ c.types.length →
      (parent = 0 ∨ (as.foldl (Ledger.apply c) { s with store := st }).store.lookup parent ≠ none) →
      ((as.foldl (Ledger.apply c) { s with store := st }).put c t parent true).isSome = true) := by
  have hok := Ledger.Ok.of_reachable h
  obtain ⟨live, free, hwf⟩ := hok.lists
  refine ⟨⟨live, free, hwf.spells, hwf.stack, hwf.perm, hwf.liveCount, hwf.freeCount, ?_⟩, ?_, ?_, ?_⟩
  · have hlen := hwf.perm.length_eq
    rw [List.length_append, List.length_range'] at hlen
    rw [hwf.liveCount, hwf.freeCount, hlen]
  · intro id t nullable o
    rw [hwf.get_iff]
    constructor
    · rintro ⟨parent, hcur⟩
      obtain ⟨newer, older, hlog, hkept⟩ := hwf.history.kept hcur
      exact ⟨parent, newer, older, hlog, hkept⟩
    · rintro ⟨parent, newer, older, hlog, hkept⟩
      have hhistory := hwf.history
      rw [hlog] at hhistory
      exact ⟨parent, hlog ▸ hhistory.current_of_put hkept⟩
  · intro newer mid older r e hlog hfrees hid
    exact (hlog ▸ hwf.history).frees_between hfrees hid
  · intro n mem st hreserve as has hcount t parent ht htypes hparent
    have hstart : Ledger.Ok c { s with store := st } := by
      have hstep := hok.of_step (.reserve n mem)
      rwa [Ledger.apply, hreserve] at hstep
    obtain ⟨-, cap, hst⟩ := Store.reserve_room hreserve hwf.high
    obtain ⟨hend, hres⟩ := hstart.run as has
    refine hend.put_isSome ?_ ht htypes hparent
    have hn : n ≤ st.hreserved := by
      rw [hst]
      exact Nat.le_add_left _ _
    change st.hreserved ≤ _ at hres
    omega

theorem handle_table_ok_two :
    ∃ c s, (ledgerMachine c).Reachable s ∧ s.store.liveCount = 1 ∧ s.store.freeCount = 1 ∧
      s.store.liveCount + s.store.freeCount = s.store.highWater := by
  let c : Iface := ⟨[⟨0, true, true, false⟩], 4, by decide⟩
  obtain ⟨s, hs, hcounts⟩ : ∃ s, (ledgerMachine c).Reachable s ∧
      s.store.liveCount = 1 ∧ s.store.freeCount = 1 :=
    Machine.exists_reachable [.reserve 2 true, .put 1 0 true, .put 1 0 true, .consume 65537]
      (by decide +kernel)
  obtain ⟨⟨live, free, -, -, -, -, -, hsum⟩, -⟩ := handle_table_ok hs
  exact ⟨c, s, hs, hcounts.1, hcounts.2, hsum⟩

end Hqq.Handles
