import Hqq.Handles.Accounts
import Mathlib.Logic.Relation

/-!
# Handles own handles

The generated glue registers a handle under a live handle of the type that owns its type, so the
live handles are a forest. `is_descendant` gives up after as many steps as there are types.
-/

namespace Hqq.Handles

def Iface.ownerOf (c : Iface) (t : Nat) : Nat := ((c.type? t).map (·.owner)).getD 0

def Iface.Acyclic (c : Iface) : Prop :=
  ∀ t, ¬Relation.TransGen (fun a b => c.ownerOf a = b ∧ b ≠ 0) t t

def OwnedBy (log : List Ev) (o p : Obj) : Prop :=
  ∃ newer older r r', log = newer ++ .put r :: older ∧ r.obj = o ∧ r.parent ≠ 0 ∧
    current (r.parent % 65536) older = some r' ∧ r'.id = r.parent ∧ r'.obj = p

def leaves (o : Obj) (log : List Ev) : Nat := log.countP fun e => e.frees && e.obj == o

theorem leaves_cons (o : Obj) (e : Ev) (log : List Ev) :
    leaves o (e :: log) = leaves o log + if e.frees && e.obj == o then 1 else 0 :=
  List.countP_cons ..

theorem History.leaves {log : List Ev} (h : History log) {r : Reg} (hr : .put r ∈ log) :
    (current (r.id % 65536) log = some r ∧ leaves r.obj log = 0) ∨
      (current (r.id % 65536) log ≠ some r ∧ leaves r.obj log = 1) := by
  induction h with
  | nil => cases hr
  | @put log r' h hidle hnew hgen ih =>
    have hsame : Handles.leaves r.obj (.put r' :: log) = Handles.leaves r.obj log := by
      simp [leaves_cons, Ev.frees]
    rw [hsame]
    rcases List.mem_cons.1 hr with heq | hold
    · obtain rfl := Ev.put.inj heq
      refine .inl ⟨current_cons_self (e := .put r), List.countP_eq_zero.2 fun e he => ?_⟩
      have hne : e.obj ≠ r.obj := (hnew e he).ne
      simp [hne]
    · have hne : r' ≠ r := by
        rintro rfl
        exact absurd (hnew _ hold) (lt_irrefl _)
      by_cases hi : r'.id % 65536 = r.id % 65536
      · have hcur : current (r.id % 65536) log ≠ some r := by
          rw [← hi, hidle]
          simp
        refine .inr ⟨?_, ((ih hold).resolve_left fun h => hcur h.1).2⟩
        rw [current, if_pos (show (Ev.put r').id % 65536 = _ from hi)]
        exact fun h => hne (Option.some.inj h)
      · rw [current_cons_of_ne (e := .put r') hi]
        exact ih hold
  | @free log e r' h hfrees hcur hid hobj ih =>
    have hold : .put r ∈ log := by
      rcases List.mem_cons.1 hr with rfl | hold
      · cases hfrees
      · exact hold
    by_cases heq : r' = r
    · subst heq
      rw [← hid] at hcur
      obtain ⟨-, hzero⟩ := (ih hold).resolve_right fun h => h.1 hcur
      refine .inr ⟨?_, ?_⟩
      · rw [current, if_pos (by rw [hid]), Ev.reg_of_frees hfrees]
        simp
      · rw [leaves_cons, hzero]
        simp [hfrees, hobj]
    · have hne : e.obj ≠ r.obj := fun hsame =>
        heq (h.unique (current_mem hcur) hold (hobj.trans hsame))
      have hsame : Handles.leaves r.obj (e :: log) = Handles.leaves r.obj log := by
        simp [leaves_cons, hne]
      rw [hsame]
      by_cases hi : e.id % 65536 = r.id % 65536
      · have hother : current (r.id % 65536) log ≠ some r := by
          rw [← hi, hcur]
          exact fun h => heq (Option.some.inj h)
        refine .inr ⟨?_, ((ih hold).resolve_left fun h => hother h.1).2⟩
        rw [current, if_pos hi, Ev.reg_of_frees hfrees]
        simp
      · rw [current_cons_of_ne hi]
        exact ih hold

theorem leaves_eq_zero {o : Obj} {log : List Ev} :
    leaves o log = 0 ↔ ∀ e ∈ log, e.frees = true → e.obj ≠ o := by
  simp [leaves, List.countP_eq_zero]

theorem split_unique {α : Type} {as bs as' bs' : List α} {x : α} (hbs : x ∉ bs) (hbs' : x ∉ bs')
    (h : as ++ x :: bs = as' ++ x :: bs') : bs = bs' := by
  obtain ⟨cs, -, hcs⟩ | ⟨cs, -, hcs⟩ := List.append_eq_append_iff.1 h
  · cases cs with
    | nil => exact (List.cons.inj hcs).2
    | cons c cs => exact absurd (by rw [(List.cons.inj hcs).2]; simp) hbs
  · cases cs with
    | nil => exact (List.cons.inj hcs).2.symm
    | cons c cs => exact absurd (by rw [(List.cons.inj hcs).2]; simp) hbs'

theorem History.owner_unique {log : List Ev} (h : History log) {o p q : Obj} (hp : OwnedBy log o p)
    (hq : OwnedBy log o q) : p = q := by
  obtain ⟨as, bs, r, rp, rfl, hr, -, hcur, -, rfl⟩ := hp
  obtain ⟨as', bs', r', rq, hlog, hr', -, hcur', -, rfl⟩ := hq
  obtain rfl : r = r' := h.unique (by simp) (by rw [hlog]; simp) (hr.trans hr'.symm)
  have hnot : ∀ as bs : List Ev, History (as ++ .put r :: bs) → .put r ∉ bs := by
    intro as bs hist hmem
    exact absurd (hist.suffix.of_put.2.1 _ hmem) (lt_irrefl _)
  obtain rfl : bs = bs' := split_unique (hnot as bs h) (hnot as' bs' (hlog ▸ h)) hlog
  rw [hcur] at hcur'
  exact congrArg Reg.obj (Option.some.inj hcur')

def Ledger.obj (s : Ledger) (i : Nat) : Obj := (s.store.tab i).ptr.getD 0

def Ledger.idOf (s : Ledger) (i : Nat) : Nat := handleID (s.store.tab i).gen i

structure Forest (c : Iface) (s : Ledger) (live : List Nat) : Prop where
  order : live.Pairwise fun i j => s.obj i < s.obj j
  types : ∀ i ∈ live, 0 < (s.store.tab i).type ∧ (s.store.tab i).type ≤ c.types.length
  parents : ∀ i ∈ live, (s.store.tab i).parent ≠ 0 → ∃ j ∈ live,
    (s.store.tab i).parent = s.idOf j ∧ s.obj j < s.obj i ∧
      c.ownerOf (s.store.tab i).type = (s.store.tab j).type ∧ OwnedBy s.log (s.obj i) (s.obj j)

variable {c : Iface} {s : Ledger} {live free : List Nat} {root : Nat}

theorem Wf.lookup_idOf (h : Wf c s live free) {i : Nat} (hi : i ∈ live) :
    s.store.lookup (s.idOf i) = some (s.store.tab i) := h.lookup_live hi

theorem Wf.idOf_ne_zero (h : Wf c s live free) {i : Nat} (hi : i ∈ live) : s.idOf i ≠ 0 := by
  have hpos := (h.le hi).1
  unfold Ledger.idOf handleID
  omega

theorem Wf.idOf_inj (h : Wf c s live free) {i j : Nat} (hi : i ∈ live) (hj : j ∈ live)
    (heq : s.idOf i = s.idOf j) : i = j := by
  have hmod := congrArg (· % 65536) heq
  dsimp only [Ledger.idOf] at hmod
  rwa [handleID_mod (h.le hi).2, handleID_mod (h.le hj).2] at hmod

def Ledger.regOf (s : Ledger) (i : Nat) : Reg :=
  ⟨s.idOf i, (s.store.tab i).type, (s.store.tab i).parent, s.obj i⟩

theorem Wf.current_eq (h : Wf c s live free) {i : Nat} (hi : i ∈ live) :
    current i s.log = some (s.regOf i) := by
  obtain ⟨-, o, hptr, hcur⟩ := h.held i hi
  rw [hcur]
  simp [Ledger.regOf, Ledger.obj, Ledger.idOf, hptr]

theorem Wf.obj_inj (h : Wf c s live free) {i j : Nat} (hi : i ∈ live) (hj : j ∈ live)
    (heq : s.obj i = s.obj j) : i = j := by
  have hreg : s.regOf i = s.regOf j :=
    h.history.unique (current_mem (h.current_eq hi)) (current_mem (h.current_eq hj)) heq
  exact h.idOf_inj hi hj (congrArg Reg.id hreg)

/-! ## Descendants -/

theorem Forest.reaches_iff (hf : Forest c s live) (hwf : Wf c s live free) {i n : Nat} (hi : i ∈ live) :
    s.store.reaches root (n + 1) (s.store.tab i).parent = true ↔
      ∃ j ∈ live, (s.store.tab i).parent = s.idOf j ∧ s.obj j < s.obj i ∧
        c.ownerOf (s.store.tab i).type = (s.store.tab j).type ∧ OwnedBy s.log (s.obj i) (s.obj j) ∧
        (s.idOf j = root ∨ s.store.reaches root n (s.store.tab j).parent = true) := by
  rw [Store.reaches]
  constructor
  · intro h
    split at h
    · cases h
    rename_i hparent
    obtain ⟨j, hj, hid, hobj, howner, howned⟩ := hf.parents i hi hparent
    refine ⟨j, hj, hid, hobj, howner, howned, ?_⟩
    rw [hid, hwf.lookup_idOf hj] at h
    split at h
    · exact .inl ‹_›
    · exact .inr h
  · rintro ⟨j, hj, hid, -, -, -, hnext⟩
    rw [hid, if_neg (hwf.idOf_ne_zero hj), hwf.lookup_idOf hj]
    split
    · rfl
    · exact hnext.resolve_left ‹_›

/-- The walk needs no more steps than there are types: those it has seen on its way are all
different. -/
theorem Forest.reaches_bound (hf : Forest c s live) (hwf : Wf c s live free) (hacyc : c.Acyclic)
    {n i : Nat} (hi : i ∈ live) (seen : List Nat) (hnodup : seen.Nodup)
    (hseen : ∀ t ∈ seen, (0 < t ∧ t ≤ c.types.length) ∧
      Relation.TransGen (fun a b => c.ownerOf a = b ∧ b ≠ 0) t (s.store.tab i).type)
    (h : s.store.reaches root n (s.store.tab i).parent = true) :
    s.store.reaches root (c.types.length + 1 - seen.length) (s.store.tab i).parent = true := by
  induction n generalizing i seen with
  | zero => cases h
  | succ n ih =>
    obtain ⟨j, hj, hid, hobj, howner, howned, hnext⟩ := (hf.reaches_iff hwf hi).1 h
    have hnew : (s.store.tab i).type ∉ seen := fun hmem => hacyc _ (hseen _ hmem).2
    have hnodup' : ((s.store.tab i).type :: seen).Nodup := List.nodup_cons.2 ⟨hnew, hnodup⟩
    have hsub : (s.store.tab i).type :: seen ⊆ List.range' 1 c.types.length := by
      intro t ht
      have hrange : 0 < t ∧ t ≤ c.types.length := by
        rcases List.mem_cons.1 ht with rfl | ht
        · exact hf.types i hi
        · exact (hseen t ht).1
      rw [List.mem_range'_1]
      omega
    have hlen : seen.length + 1 ≤ c.types.length := by
      have := (List.subperm_of_subset hnodup' hsub).length_le
      rwa [List.length_range', List.length_cons] at this
    have hfuel : c.types.length + 1 - seen.length = (c.types.length + 1 - (seen.length + 1)) + 1 := by
      omega
    rw [hfuel, hf.reaches_iff hwf hi]
    refine ⟨j, hj, hid, hobj, howner, howned, hnext.imp id fun hrest => ?_⟩
    refine ih hj ((s.store.tab i).type :: seen) hnodup' ?_ hrest
    have hown : c.ownerOf (s.store.tab i).type = (s.store.tab j).type ∧ (s.store.tab j).type ≠ 0 :=
      ⟨howner, (hf.types j hj).1.ne'⟩
    intro t ht
    rcases List.mem_cons.1 ht with rfl | ht
    · exact ⟨hf.types i hi, .single hown⟩
    · exact ⟨(hseen t ht).1, (hseen t ht).2.tail hown⟩

theorem Forest.isDescendant_iff (hf : Forest c s live) (hwf : Wf c s live free) (hacyc : c.Acyclic)
    {i : Nat} (hi : i ∈ live) :
    s.store.isDescendant c i root = true ↔
      ∃ n, s.store.reaches root n (s.store.tab i).parent = true := by
  refine ⟨fun h => ⟨_, h⟩, ?_⟩
  rintro ⟨n, h⟩
  exact hf.reaches_bound hwf hacyc hi [] List.nodup_nil (by simp) h

theorem Wf.live_of_put (h : Wf c s live free) {r : Reg} (hr : .put r ∈ s.log)
    (hleaves : leaves r.obj s.log = 0) : ∃ i ∈ live, s.regOf i = r := by
  obtain ⟨hcur, -⟩ := (h.history.leaves hr).resolve_right fun h => by omega
  have hi : r.id % 65536 ∈ live := by
    by_contra hi
    rw [(h.idle _ hi).2] at hcur
    cases hcur
  exact ⟨_, hi, Option.some.inj ((h.current_eq hi).symm.trans hcur)⟩

theorem Forest.owner (hf : Forest c s live) (hwf : Wf c s live free) {i : Nat} (hi : i ∈ live) {p : Obj}
    (h : OwnedBy s.log (s.obj i) p) : ∃ j ∈ live, (s.store.tab i).parent = s.idOf j ∧ s.obj j = p := by
  have hparent : (s.store.tab i).parent ≠ 0 := by
    obtain ⟨newer, older, r, r', hlog, hobj, hparent, -⟩ := h
    obtain rfl : r = s.regOf i :=
      hwf.history.unique (by rw [hlog]; simp) (current_mem (hwf.current_eq hi)) hobj
    exact hparent
  obtain ⟨j, hj, hid, -, -, howned⟩ := hf.parents i hi hparent
  exact ⟨j, hj, hid, hwf.history.owner_unique howned h⟩

theorem Forest.isDescendant_iff_owned (hf : Forest c s live) (hwf : Wf c s live free)
    (hacyc : c.Acyclic) {i p : Nat} (hi : i ∈ live) (hp : p ∈ live) :
    s.store.isDescendant c i (s.idOf p) = true ↔
      Relation.TransGen (OwnedBy s.log) (s.obj i) (s.obj p) := by
  rw [hf.isDescendant_iff hwf hacyc hi]
  constructor
  · rintro ⟨n, h⟩
    induction n generalizing i with
    | zero => cases h
    | succ n ih =>
      obtain ⟨j, hj, -, -, -, howned, hroot | hrest⟩ := (hf.reaches_iff hwf hi).1 h
      · obtain rfl := hwf.idOf_inj hj hp hroot
        exact .single howned
      · exact .head howned (ih hj hrest)
  · intro h
    generalize ho : s.obj i = o at h
    induction h using Relation.TransGen.head_induction_on generalizing i with
    | single h =>
      subst ho
      obtain ⟨j, hj, hid, hobj⟩ := hf.owner hwf hi h
      obtain rfl := hwf.obj_inj hj hp hobj
      refine ⟨1, ?_⟩
      rw [Store.reaches, hid, if_neg (hwf.idOf_ne_zero hj), if_pos rfl]
    | head h _ ih =>
      subst ho
      obtain ⟨j, hj, hid, hobj⟩ := hf.owner hwf hi h
      obtain ⟨n, hn⟩ := ih hj hobj
      refine ⟨n + 1, ?_⟩
      rw [Store.reaches, hid, if_neg (hwf.idOf_ne_zero hj), hwf.lookup_idOf hj]
      split
      · rfl
      · exact hn

/-! ## Objects leave after what they own -/

def Ordered (log : List Ev) : Prop :=
  ∀ newer e older, log = newer ++ e :: older → e.frees = true →
    ∀ o, Relation.TransGen (OwnedBy older) o e.obj → ∃ e' ∈ older, e'.frees = true ∧ e'.obj = o

theorem Ordered.cons {log : List Ev} {e : Ev} (h : Ordered log)
    (he : e.frees = true → ∀ o, Relation.TransGen (OwnedBy log) o e.obj →
      ∃ e' ∈ log, e'.frees = true ∧ e'.obj = o) : Ordered (e :: log) := by
  intro newer e' older hlog hfrees
  cases newer with
  | nil =>
    obtain ⟨rfl, rfl⟩ := List.cons.inj hlog
    exact he hfrees
  | cons a newer => exact h newer e' older (List.cons.inj hlog).2 hfrees

theorem OwnedBy.cons {log : List Ev} {o p : Obj} (h : OwnedBy log o p) (e : Ev) :
    OwnedBy (e :: log) o p := by
  obtain ⟨newer, older, r, r', rfl, hrest⟩ := h
  exact ⟨e :: newer, older, r, r', rfl, hrest⟩

def Ledger.Childless (s : Ledger) (live : List Nat) (y : Nat) : Prop :=
  ∀ k ∈ live, (s.store.tab k).parent ≠ s.idOf y

theorem Forest.owned_left (hf : Forest c s live) (hwf : Wf c s live free) {y : Nat} (hy : y ∈ live)
    (hchild : s.Childless live y) {o : Obj} (ho : Relation.TransGen (OwnedBy s.log) o (s.obj y)) :
    ∃ e ∈ s.log, e.frees = true ∧ e.obj = o := by
  by_contra hnone
  have hleaves : leaves o s.log = 0 := leaves_eq_zero.2 fun e he hfrees hobj =>
    hnone ⟨e, he, hfrees, hobj⟩
  -- the object is live
  obtain ⟨i, hi, rfl⟩ : ∃ i ∈ live, s.obj i = o := by
    obtain ⟨q, ⟨newer, older, r, r', hlog, rfl, -⟩, -⟩ := Relation.TransGen.head'_iff.1 ho
    obtain ⟨i, hi, hreg⟩ := hwf.live_of_put (r := r) (by rw [hlog]; simp) hleaves
    exact ⟨i, hi, congrArg Reg.obj hreg⟩
  clear hnone hleaves
  -- and so are its owners, up to a child of the entry
  generalize hobj : s.obj i = o at ho
  induction ho using Relation.TransGen.head_induction_on generalizing i with
  | single h =>
    subst hobj
    obtain ⟨j, hj, hid, hobj⟩ := hf.owner hwf hi h
    obtain rfl := hwf.obj_inj hj hy hobj
    exact hchild i hi hid
  | head h _ ih =>
    subst hobj
    obtain ⟨j, hj, hid, hobj⟩ := hf.owner hwf hi h
    exact ih j hj hobj

structure Tended (c : Iface) (s : Ledger) (live free : List Nat) : Prop where
  wf : Wf c s live free
  forest : Forest c s live
  ordered : Ordered s.log

theorem Tended.empty : Tended c .empty [] [] :=
  ⟨Wf.empty, ⟨.nil, by simp, by simp⟩, fun newer _ _ h => by cases newer <;> cases h⟩

theorem Forest.of_tab {s' : Ledger} {live' : List Nat} (hf : Forest c s live)
    (hsub : live'.Sublist live) (htab : ∀ i ∈ live', s'.store.tab i = s.store.tab i)
    (howned : ∀ o p, OwnedBy s.log o p → OwnedBy s'.log o p)
    (hparents : ∀ i ∈ live', ∀ j ∈ live, (s.store.tab i).parent = s.idOf j → j ∈ live') :
    Forest c s' live' := by
  have hobj : ∀ i ∈ live', s'.obj i = s.obj i := fun i hi => by
    unfold Ledger.obj
    rw [htab i hi]
  have hid : ∀ i ∈ live', s'.idOf i = s.idOf i := fun i hi => by
    unfold Ledger.idOf
    rw [htab i hi]
  refine ⟨?_, ?_, ?_⟩
  · refine (hf.order.sublist hsub).imp_of_mem fun {i j} hi hj hlt => ?_
    rwa [hobj i hi, hobj j hj]
  · intro i hi
    rw [htab i hi]
    exact hf.types i (hsub.subset hi)
  · intro i hi hparent
    rw [htab i hi] at hparent ⊢
    obtain ⟨j, hj, hpar, hlt, howner, ho⟩ := hf.parents i (hsub.subset hi) hparent
    have hj' := hparents i hi j hj hpar
    refine ⟨j, hj', ?_⟩
    rw [htab j hj', hobj i hi, hobj j hj', hid j hj']
    exact ⟨hpar, hlt, howner, howned _ _ ho⟩

theorem Tended.freed {ys zs : List Nat} {y : Nat} {e : Ev} (h : Tended c s (ys ++ y :: zs) free)
    (hfrees : e.frees = true) (hid : e.id = s.idOf y) (hobj : e.obj = s.obj y)
    (hchild : s.Childless (ys ++ y :: zs) y) :
    Tended c { s with store := s.store.entryFree y, log := e :: s.log } (ys ++ zs) (y :: free) := by
  have hy : y ∈ ys ++ y :: zs := by simp
  obtain ⟨-, o, hptr, -⟩ := h.wf.held y hy
  have ho : s.obj y = o := by simp [Ledger.obj, hptr]
  have hsub : (ys ++ zs).Sublist (ys ++ y :: zs) := List.Sublist.append_left (List.sublist_cons_self y zs) ys
  refine ⟨h.wf.freed hptr hfrees hid (hobj.trans ho), ?_, ?_⟩
  · refine h.forest.of_tab hsub ?_ (fun o p howned => howned.cons e) ?_
    · exact fun i hi => Function.update_of_ne (h.wf.ne_of_mem hi) ..
    · intro i hi j hj hpar
      have hne : j ≠ y := by
        rintro rfl
        exact hchild i (hsub.subset hi) hpar
      simpa [hne] using hj
  · refine h.ordered.cons fun _ o' ho' => ?_
    rw [hobj] at ho'
    exact h.forest.owned_left h.wf hy hchild ho'

theorem Tended.entryDestroy {ys zs : List Nat} {y : Nat} (h : Tended c s (ys ++ y :: zs) free)
    (hchild : s.Childless (ys ++ y :: zs) y) :
    Tended c (s.entryDestroy y) (ys ++ zs) (y :: free) ∧
      (s.entryDestroy y).log = .destroyed (s.idOf y) (s.obj y) :: s.log := by
  obtain ⟨-, o, hptr, -⟩ := h.wf.held y (by simp)
  have ho : s.obj y = o := by simp [Ledger.obj, hptr]
  unfold Ledger.entryDestroy
  dsimp only
  rw [hptr, Store.entryFree_mark, ho]
  exact ⟨h.freed rfl rfl ho.symm hchild, rfl⟩

theorem Wf.obj_lt (h : Wf c s live free) {i : Nat} (hi : i ∈ live) : s.obj i < s.nextObj :=
  h.fresh _ (current_mem (h.current_eq hi))

/-- What the glue passes to `hqqrpc_handle_put`: no parent, or a live one of the type that
owns the new one. -/
def PutOk (c : Iface) (s : Ledger) (t parent : Nat) : Prop :=
  parent = 0 ∨ (s.store.lookup parent).any (fun e => c.ownerOf t == e.type) = true

instance (c : Iface) (s : Ledger) (t parent : Nat) : Decidable (PutOk c s t parent) :=
  inferInstanceAs (Decidable (_ ∨ _))

theorem Forest.add {s' : Ledger} {idx : Nat} (hf : Forest c s live) (hwf : Wf c s live free)
    (htab : ∀ i ∈ live, s'.store.tab i = s.store.tab i) (hobj : s'.obj idx = s.nextObj)
    (htypes : 0 < (s'.store.tab idx).type ∧ (s'.store.tab idx).type ≤ c.types.length)
    (hlog : s'.log = .put (s'.regOf idx) :: s.log)
    (hok : PutOk c s (s'.store.tab idx).type (s'.store.tab idx).parent) :
    Forest c s' (live ++ [idx]) := by
  have howned : ∀ o p, OwnedBy s.log o p → OwnedBy s'.log o p := by
    intro o p h
    rw [hlog]
    exact h.cons _
  have hold : Forest c s' live :=
    hf.of_tab (List.Sublist.refl live) htab howned fun _ _ j hj _ => hj
  have hobjs : ∀ i ∈ live, s'.obj i = s.obj i := fun i hi => by
    unfold Ledger.obj
    rw [htab i hi]
  have hlt : ∀ i ∈ live, s'.obj i < s'.obj idx := fun i hi => by
    rw [hobjs i hi, hobj]
    exact hwf.obj_lt hi
  refine ⟨?_, ?_, ?_⟩
  · rw [List.pairwise_append]
    refine ⟨hold.order, List.pairwise_singleton _ _, fun i hi j hj => ?_⟩
    rw [List.mem_singleton.1 hj]
    exact hlt i hi
  · intro i hi
    rcases List.mem_append.1 hi with hi | hi
    · exact hold.types i hi
    · rw [List.mem_singleton.1 hi]
      exact htypes
  · intro i hi hparent
    rcases List.mem_append.1 hi with hi | hi
    · obtain ⟨j, hj, hrest⟩ := hold.parents i hi hparent
      exact ⟨j, List.mem_append_left _ hj, hrest⟩
    · obtain rfl := List.mem_singleton.1 hi
      obtain ⟨e, hlookup, howner⟩ := (Option.any_eq_true _ _).1 (hok.resolve_left hparent)
      obtain ⟨hj, rfl, hid⟩ := hwf.lookup hlookup
      have hcur := hwf.current_eq hj
      refine ⟨_, List.mem_append_left _ hj, ?_, hlt _ hj, ?_, ?_⟩
      · unfold Ledger.idOf
        rw [htab _ hj]
        exact hid
      · rw [htab _ hj]
        exact beq_iff_eq.1 howner
      · rw [hlog, hobjs _ hj]
        exact ⟨[], s.log, s'.regOf i, _, rfl, rfl, hparent, hcur, hid.symm, rfl⟩

theorem Tended.put {t parent : Nat} {mem : Bool} {s' : Ledger} (h : Tended c s live free)
    (hok : PutOk c s t parent) (hput : s.put c t parent mem = some s') :
    ∃ idx free', Tended c s' (live ++ [idx]) free' ∧ idx ∉ live ∧
      (∀ i ∈ live, s'.store.tab i = s.store.tab i) ∧ s'.obj idx = s.nextObj ∧
      s'.nextObj = s.nextObj + 1 ∧ s'.store.reg = s'.idOf idx :: s.store.reg ∧
      s'.log = .put (s'.regOf idx) :: s.log := by
  obtain ⟨⟨st', id⟩, hst, rfl⟩ := Option.map_eq_some_iff.1 hput
  unfold Store.put at hst
  split at hst
  · cases hst
  rename_i htype
  split at hst
  · cases hst
  split at hst
  · cases hst
  split at hst
  · cases hst
  rename_i idx st hpick
  obtain ⟨free', hc⟩ := h.wf.chosen hpick
  have hreg : st.reg = s.store.reg := by
    unfold Store.pick at hpick
    split at hpick
    · cases hpick
      rfl
    split at hpick <;> cases hpick
    rfl
  cases hst
  have htab : ∀ i ∈ live, Function.update st.tab idx
      ⟨some s.nextObj, t, parent, true, (st.tab idx).gen, 0⟩ i = s.store.tab i := by
    intro i hi
    have hne : i ≠ idx := by
      rintro rfl
      exact hc.new hi
    rw [Function.update_of_ne hne, hc.others i hne]
  refine ⟨idx, free', ⟨h.wf.fill hc, ?_, h.ordered.cons (by simp [Ev.frees])⟩, hc.new, htab, ?_, rfl, ?_, ?_⟩
  · refine h.forest.add h.wf htab ?_ ?_ ?_ ?_
    · simp [Ledger.obj]
    · simp only [Function.update_self]
      omega
    · simp [Ledger.regOf, Ledger.idOf, Ledger.obj]
    · simpa only [Function.update_self] using hok
  · simp [Ledger.obj]
  · simp [Ledger.idOf, hreg]
  · simp [Ledger.regOf, Ledger.idOf, Ledger.obj]

end Hqq.Handles
