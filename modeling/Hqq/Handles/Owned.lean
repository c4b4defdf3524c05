import Hqq.Handles.Forest
import Hqq.Slots

/-!
# Every object goes once, after what it owns
-/

namespace Hqq.Handles

variable {c : Iface} {s s' : Ledger} {live free : List Nat}

/-! ## Owners come before -/

theorem OwnedBy.lt {log : List Ev} {o p : Obj} (h : OwnedBy log o p) (hist : History log) : p < o := by
  obtain ⟨newer, older, r, r', rfl, rfl, -, hcur, -, rfl⟩ := h
  exact hist.suffix.of_put.2.1 _ (current_mem hcur)

theorem owned_lt {log : List Ev} (hist : History log) {o p : Obj}
    (h : Relation.TransGen (OwnedBy log) o p) : p < o := by
  induction h with
  | single h => exact h.lt hist
  | tail _ h ih => exact (h.lt hist).trans ih

theorem ownedBy_cons {log : List Ev} {e : Ev} (h : e.frees = true) : OwnedBy (e :: log) = OwnedBy log := by
  funext o p
  refine propext ⟨?_, fun howned => howned.cons e⟩
  rintro ⟨newer, older, r, r', hlog, hrest⟩
  cases newer with
  | nil =>
    obtain ⟨rfl, -⟩ := List.cons.inj hlog
    cases h
  | cons a newer => exact ⟨newer, older, r, r', (List.cons.inj hlog).2, hrest⟩

theorem Tended.child (h : Tended c s live free) {k y : Nat} (hk : k ∈ live) (hy : y ∈ live)
    (hpar : (s.store.tab k).parent = s.idOf y) :
    s.obj y < s.obj k ∧ OwnedBy s.log (s.obj k) (s.obj y) := by
  have hparent : (s.store.tab k).parent ≠ 0 := by
    rw [hpar]
    exact h.wf.idOf_ne_zero hy
  obtain ⟨j, hj, hid, hlt, -, howned⟩ := h.forest.parents k hk hparent
  obtain rfl : j = y := h.wf.idOf_inj hj hy (hid.symm.trans hpar)
  exact ⟨hlt, howned⟩

def Ledger.destroyEv (s : Ledger) (i : Nat) : Ev := .destroyed (s.idOf i) (s.obj i)

/-- `s'` is `s` without the entries that are not in `live'`, and `es` says how they went. -/
structure Shrunk (c : Iface) (s s' : Ledger) (live live' : List Nat) (es : List Ev) : Prop where
  tended : ∃ free, Tended c s' live' free
  sublist : live'.Sublist live
  tab : ∀ i ∈ live', s'.store.tab i = s.store.tab i
  nextObj : s'.nextObj = s.nextObj
  reg : s'.store.reg = s.store.reg
  log : s'.log = es ++ s.log

theorem Shrunk.refl (h : Tended c s live free) : Shrunk c s s live live [] :=
  ⟨⟨free, h⟩, .refl live, fun _ _ => rfl, rfl, rfl, rfl⟩

theorem Shrunk.trans {s₁ s₂ s₃ : Ledger} {l₁ l₂ l₃ : List Nat} {es es' : List Ev}
    (h : Shrunk c s₁ s₂ l₁ l₂ es) (h' : Shrunk c s₂ s₃ l₂ l₃ es') :
    Shrunk c s₁ s₃ l₁ l₃ (es' ++ es) :=
  ⟨h'.tended, h'.sublist.trans h.sublist,
    fun i hi => (h'.tab i hi).trans (h.tab i (h'.sublist.subset hi)),
    h'.nextObj.trans h.nextObj, h'.reg.trans h.reg, by rw [h'.log, h.log, List.append_assoc]⟩

section Shrunk

variable {live' : List Nat} {es : List Ev} (h : Shrunk c s s' live live' es) {i : Nat} (hi : i ∈ live')
include h hi

theorem Shrunk.obj : s'.obj i = s.obj i := by
  unfold Ledger.obj
  rw [h.tab i hi]

theorem Shrunk.regOf : s'.regOf i = s.regOf i := by
  unfold Ledger.regOf Ledger.obj Ledger.idOf
  rw [h.tab i hi]

theorem Shrunk.idOf : s'.idOf i = s.idOf i := congrArg Reg.id (h.regOf hi)

theorem Shrunk.destroyEv : s'.destroyEv i = s.destroyEv i := by
  unfold Ledger.destroyEv
  rw [h.idOf hi, h.obj hi]

end Shrunk

theorem Tended.shrunk_destroy {ys zs : List Nat} {y : Nat} (h : Tended c s (ys ++ y :: zs) free)
    (hchild : s.Childless (ys ++ y :: zs) y) :
    Shrunk c s (s.entryDestroy y) (ys ++ y :: zs) (ys ++ zs) [s.destroyEv y] := by
  obtain ⟨hnext, hlog⟩ := h.entryDestroy hchild
  refine ⟨⟨_, hnext⟩, .append_left (List.sublist_cons_self y zs) ys, fun i hi => ?_, rfl, rfl, hlog⟩
  unfold Ledger.entryDestroy
  rw [Store.entryFree_mark]
  exact Function.update_of_ne (h.wf.ne_of_mem hi) ..

theorem Tended.destroyAll {n : Nat} (h : Tended c s live free) (hn : live.length ≤ n) :
    Shrunk c s (Ledger.destroyAll n s) live [] (live.map s.destroyEv) := by
  induction n generalizing s live free with
  | zero =>
    obtain rfl := List.eq_nil_of_length_eq_zero (Nat.le_zero.1 hn)
    exact .refl h
  | succ n ih =>
    rw [Ledger.destroyAll]
    obtain rfl | ⟨ys, y, rfl⟩ := List.eq_nil_or_concat' live
    · rw [if_pos (h.wf.spells.tail_eq_zero.2 rfl)]
      exact .refl h
    · have htail : s.store.links.tail = y := by
        rw [h.wf.spells.tail, Links.lastSlot_concat]
      have hpos := (h.wf.le (i := y) (by simp)).1
      rw [if_neg (htail ▸ hpos.ne'), htail]
      rw [List.length_append, List.length_singleton] at hn
      -- nothing is newer than the last entry
      have hchild : s.Childless (ys ++ [y]) y := by
        intro k hk hpar
        obtain ⟨hlt, -⟩ := h.child hk (by simp) hpar
        rcases mem_concat.1 hk with hk | rfl
        · have hky := (List.pairwise_append.1 h.forest.order).2.2 k hk y (by simp)
          exact lt_irrefl _ (hlt.trans hky)
        · exact lt_irrefl _ hlt
      have hshrunk := h.shrunk_destroy hchild
      rw [List.append_nil] at hshrunk
      obtain ⟨_, hnext⟩ := hshrunk.tended
      have hevs : ys.map (s.entryDestroy y).destroyEv = ys.map s.destroyEv :=
        List.map_congr_left fun i hi => hshrunk.destroyEv hi
      rw [List.map_append, ← hevs]
      exact hshrunk.trans (ih hnext (by omega))

def Ledger.under (c : Iface) (s : Ledger) (p i : Nat) : Bool := s.store.isDescendant c i (s.idOf p)

theorem Tended.under_iff (hacyc : c.Acyclic) (h : Tended c s live free) {i p : Nat} (hi : i ∈ live)
    (hp : p ∈ live) :
    s.under c p i = true ↔ Relation.TransGen (OwnedBy s.log) (s.obj i) (s.obj p) :=
  h.forest.isDescendant_iff_owned h.wf hacyc hi hp

theorem Tended.under_self (hacyc : c.Acyclic) (h : Tended c s live free) {p : Nat} (hp : p ∈ live) :
    s.under c p p = false := by
  rw [Bool.eq_false_iff, ne_eq, h.under_iff hacyc hp hp]
  exact fun howned => lt_irrefl _ (owned_lt h.wf.history howned)

theorem Tended.destroyWalk (hacyc : c.Acyclic) {n p : Nat} {ys zs : List Nat}
    (h : Tended c s (ys ++ zs) free) (hp : p ∈ ys ++ zs) (hdone : ∀ k ∈ zs, s.under c p k = false)
    (hn : ys.length ≤ n) :
    Shrunk c s (Ledger.destroyWalk c (s.idOf p) n (Links.lastSlot ys) s) (ys ++ zs)
      (ys.filter (!s.under c p ·) ++ zs) ((ys.filter (s.under c p)).map s.destroyEv) := by
  induction n generalizing s ys zs free with
  | zero =>
    obtain rfl := List.eq_nil_of_length_eq_zero (Nat.le_zero.1 hn)
    exact .refl h
  | succ n ih =>
    obtain rfl | ⟨ys, y, rfl⟩ := List.eq_nil_or_concat' ys
    · exact .refl h
    rw [List.length_append, List.length_singleton] at hn
    have hsplit : ys ++ [y] ++ zs = ys ++ y :: zs := by simp
    rw [hsplit] at h hp ⊢
    have hy : y ∈ ys ++ y :: zs := by simp
    obtain ⟨hprev, -⟩ := h.wf.spells.mid ys y zs rfl
    have hpos := (h.wf.le hy).1
    rw [Links.lastSlot_concat, Ledger.destroyWalk, if_neg hpos.ne', hprev]
    change Shrunk c s (Ledger.destroyWalk c _ n _ (if s.under c p y = true then _ else _)) _ _ _
    cases hdesc : s.under c p y with
    | false =>
      rw [if_neg (by simp)]
      have hend := ih h hp (List.forall_mem_cons.2 ⟨hdesc, hdone⟩) (by omega)
      simpa [hdesc] using hend
    | true =>
      rw [if_pos rfl]
      have howned := (h.under_iff hacyc hy hp).1 hdesc
      have hpy : p ≠ y := by
        rintro rfl
        rw [h.under_self hacyc hp] at hdesc
        cases hdesc
      -- what is registered under `y` is a descendant too, and newer
      have hchild : s.Childless (ys ++ y :: zs) y := by
        intro k hk hpar
        obtain ⟨hlt, hky⟩ := h.child hk hy hpar
        have hkdesc := (h.under_iff hacyc hk hp).2 (.head hky howned)
        rcases List.mem_append.1 hk with hk | hk
        · have hky := (List.pairwise_append.1 h.forest.order).2.2 k hk y (by simp)
          exact lt_irrefl _ (hlt.trans hky)
        rcases List.mem_cons.1 hk with rfl | hk
        · exact lt_irrefl _ hlt
        · rw [hdone k hk] at hkdesc
          cases hkdesc
      have hshrunk := h.shrunk_destroy hchild
      obtain ⟨_, hnext⟩ := hshrunk.tended
      have hp' : p ∈ ys ++ zs := by simpa [hpy] using hp
      -- the entries that are left have the same owners
      have hsame : ∀ i ∈ ys ++ zs, (s.entryDestroy y).under c p i = s.under c p i := by
        intro i hi
        have hiff := hnext.under_iff hacyc hi hp'
        rw [hshrunk.log, List.singleton_append, ownedBy_cons rfl, hshrunk.obj hi, hshrunk.obj hp',
          ← h.under_iff hacyc (hshrunk.sublist.subset hi) hp] at hiff
        exact Bool.eq_iff_iff.2 hiff
      have hend := ih hnext hp' (fun k hk => by rw [hsame k (by simp [hk])]; exact hdone k hk) (by omega)
      rw [hshrunk.idOf hp'] at hend
      have hkeep : (ys ++ [y]).filter (!s.under c p ·) =
          ys.filter (!(s.entryDestroy y).under c p ·) := by
        rw [List.filter_append, List.filter_singleton, hdesc, Bool.not_true, cond_false, List.append_nil]
        exact List.filter_congr fun i hi => congrArg not (hsame i (by simp [hi])).symm
      have hgone : ((ys ++ [y]).filter (s.under c p)).map s.destroyEv =
          (ys.filter ((s.entryDestroy y).under c p)).map (s.entryDestroy y).destroyEv ++
            [s.destroyEv y] := by
        rw [List.filter_append, List.filter_singleton, hdesc, cond_true, List.map_append,
          List.filter_congr fun i hi => hsame i (by simp [hi])]
        refine congrArg (· ++ _) (List.map_congr_left fun i hi => (hshrunk.destroyEv ?_).symm)
        exact List.mem_append_left _ (List.mem_filter.1 hi).1
      rw [hkeep, hgone]
      exact hshrunk.trans hend

theorem Tended.destroyChildren (hacyc : c.Acyclic) {p : Nat} (h : Tended c s live free) (hp : p ∈ live) :
    Shrunk c s (s.destroyChildren c (s.idOf p)) live (live.filter (!s.under c p ·))
      ((live.filter (s.under c p)).map s.destroyEv) := by
  unfold Ledger.destroyChildren
  rw [if_neg (by rw [h.wf.lookup_idOf hp]; simp), h.wf.spells.tail]
  have hall : Tended c s (live ++ []) free := by simpa using h
  have hend := hall.destroyWalk hacyc (by simpa using hp) (by simp) h.wf.length_le
  simpa only [List.append_nil] using hend

theorem Tended.consume {y : Nat} (h : Tended c s live free) (hy : y ∈ live) (hchild : s.Childless live y) :
    ∃ live', Shrunk c s (s.consume (s.idOf y)) live live' [.consumed (s.idOf y) (s.obj y)] := by
  obtain ⟨-, o, hptr, -⟩ := h.wf.held y hy
  have ho : s.obj y = o := by simp [Ledger.obj, hptr]
  have hmod : s.idOf y % 65536 = y := handleID_mod (h.wf.le hy).2
  obtain ⟨ys, zs, rfl⟩ := List.append_of_mem hy
  unfold Ledger.consume Store.consume
  rw [h.wf.lookup_idOf hy, if_pos Option.isSome_some, Option.bind_some, hptr, hmod, ho]
  refine ⟨ys ++ zs, ⟨y :: free, h.freed rfl rfl ho.symm hchild⟩, ?_, fun i hi => ?_, rfl, rfl, rfl⟩
  · exact .append_left (List.sublist_cons_self y zs) ys
  · exact Function.update_of_ne (h.wf.ne_of_mem hi) ..

/-- `calls` is what the running call has registered, the newest first; `start` was the next
object when the call began. -/
structure Calls (s : Ledger) (live : List Nat) (start : Obj) (calls : List Reg) : Prop where
  put : ∀ r ∈ calls, .put r ∈ s.log ∧ start ≤ r.obj
  order : calls.Pairwise fun a b => b.obj < a.obj
  all : ∀ i ∈ live, start ≤ s.obj i → s.regOf i ∈ calls

theorem Calls.of_shrunk {live' : List Nat} {start : Obj} {calls : List Reg} {es : List Ev}
    (h : Calls s live start calls) (hshrunk : Shrunk c s s' live live' es) :
    Calls s' live' start calls where
  put := fun r hr => ⟨by rw [hshrunk.log]; exact List.mem_append_right _ (h.put r hr).1, (h.put r hr).2⟩
  order := h.order
  all := fun i hi hstart => by
    rw [hshrunk.regOf hi]
    exact h.all i (hshrunk.sublist.subset hi) (hshrunk.obj hi ▸ hstart)

theorem History.put_le {log : List Ev} (h : History log) {r r' : Reg} (hr : .put r ∈ log)
    (hcur : current (r.id % 65536) log = some r') : r.obj ≤ r'.obj := by
  obtain ⟨-, newer, older, rfl, hnewer⟩ := current_split hcur
  rcases List.mem_append.1 hr with hmem | hmem
  · exact absurd rfl (hnewer _ hmem)
  rcases List.mem_cons.1 hmem with heq | hmem
  · rw [Ev.put.inj heq]
  · exact (h.suffix.of_put.2.1 _ hmem).le

theorem Tended.rollback {start : Obj} {calls : List Reg} (h : Tended c s live free)
    (hcalls : Calls s live start calls) :
    ∃ live' es, Shrunk c s (Ledger.rollback (calls.map Reg.id) s) live live' es ∧
      (∀ i ∈ live', s.obj i < start) ∧
      (∀ e ∈ es, (∃ id o, e = .destroyed id o) ∧ ∃ r ∈ calls, r.obj = e.obj) ∧
      es.Pairwise fun a b => a.obj < b.obj := by
  induction calls generalizing s live free with
  | nil =>
    refine ⟨live, [], .refl h, fun i hi => ?_, by simp, .nil⟩
    by_contra hge
    cases hcalls.all i hi (not_lt.1 hge)
  | cons r calls ih =>
    obtain ⟨hnewest, horder⟩ := List.pairwise_cons.1 hcalls.order
    rw [List.map_cons, Ledger.rollback]
    cases hlookup : s.store.lookup r.id with
    | none =>
      -- the handle is gone already
      have hcalls' : Calls s live start calls := by
        refine ⟨fun r' hr' => hcalls.put r' (by simp [hr']), horder, fun i hi hstart => ?_⟩
        refine (List.mem_cons.1 (hcalls.all i hi hstart)).resolve_left fun hreg => ?_
        have hid : s.idOf i = r.id := congrArg Reg.id hreg
        rw [← hid, h.wf.lookup_idOf hi] at hlookup
        cases hlookup
      obtain ⟨live', es, hshrunk, hlive, hes, hpair⟩ := ih h hcalls'
      refine ⟨live', es, hshrunk, hlive, fun e he => ?_, hpair⟩
      obtain ⟨hev, r', hr', hobj⟩ := hes e he
      exact ⟨hev, r', by simp [hr'], hobj⟩
    | some e =>
      rw [if_pos Option.isSome_some]
      obtain ⟨hy, rfl, hid⟩ := h.wf.lookup hlookup
      generalize hidx : r.id % 65536 = y at *
      have hyid : s.idOf y = r.id := hid.symm
      -- the entry holds the newest object of the call
      have hle : r.obj ≤ s.obj y := h.wf.history.put_le (hcalls.put r (by simp)).1
        (by rw [hidx]; exact h.wf.current_eq hy)
      have hreg : s.regOf y = r := by
        have hmem := hcalls.all y hy ((hcalls.put r (by simp)).2.trans hle)
        refine (List.mem_cons.1 hmem).resolve_right fun hrest => ?_
        exact absurd (hnewest _ hrest) (not_lt.2 hle)
      have hyobj : s.obj y = r.obj := congrArg Reg.obj hreg
      have hbelow : ∀ i ∈ live, start ≤ s.obj i → s.obj i ≤ s.obj y := by
        intro i hi hstart
        rcases List.mem_cons.1 (hcalls.all i hi hstart) with hi | hi
        · rw [hyobj]
          exact (congrArg Reg.obj hi).le
        · rw [hyobj]
          exact (hnewest _ hi).le
      have hstart : start ≤ s.obj y := hyobj ▸ (hcalls.put r (by simp)).2
      have hchild : s.Childless live y := by
        intro k hk hpar
        have hlt := (h.child hk hy hpar).1
        exact absurd (hbelow k hk (hstart.trans hlt.le)) (not_le.2 hlt)
      obtain ⟨ys, zs, rfl⟩ := List.append_of_mem hy
      have hshrunk := h.shrunk_destroy hchild
      obtain ⟨_, hnext⟩ := hshrunk.tended
      have hcalls' : Calls (s.entryDestroy y) (ys ++ zs) start calls := by
        have hold := hcalls.of_shrunk hshrunk
        refine ⟨fun r' hr' => hold.put r' (by simp [hr']), horder, fun i hi hstart => ?_⟩
        refine (List.mem_cons.1 (hold.all i hi hstart)).resolve_left fun hsame => ?_
        rw [hshrunk.regOf hi, ← hreg] at hsame
        exact h.wf.ne_of_mem hi
          (h.wf.idOf_inj (hshrunk.sublist.subset hi) hy (congrArg Reg.id hsame))
      obtain ⟨live', es, hshrunk', hlive, hes, hpair⟩ := ih hnext hcalls'
      refine ⟨live', es ++ [s.destroyEv y], hshrunk.trans hshrunk', ?_, ?_, ?_⟩
      · intro i hi
        rw [← hshrunk.obj (hshrunk'.sublist.subset hi)]
        exact hlive i hi
      · intro e he
        rcases mem_concat.1 he with he | rfl
        · obtain ⟨hev, r', hr', hobj⟩ := hes e he
          exact ⟨hev, r', by simp [hr'], hobj⟩
        · exact ⟨⟨_, _, rfl⟩, r, by simp, hyobj.symm⟩
      · rw [List.pairwise_append]
        refine ⟨hpair, List.pairwise_singleton _ _, fun a ha b hb => ?_⟩
        rw [List.mem_singleton.1 hb]
        obtain ⟨-, r', hr', hobj⟩ := hes a ha
        rw [← hobj]
        change r'.obj < s.obj y
        rw [hyobj]
        exact hnewest r' hr'

/-! ## The generated glue -/

/-- The destroy operation of the glue. -/
def Ledger.destroyOp (c : Iface) (s : Ledger) (id : Nat) (consumes : Bool) : Ledger :=
  match s.store.lookup id with
  | none => s
  | some e =>
    let s := if c.children e.type then s.destroyChildren c id else s
    if consumes then s.consume id else s

/-- `finish_call`: the table when the call is over, and whether an error response is sent
then. -/
def Ledger.finishCall (s : Ledger) (committed ended : Bool) : Ledger × Bool :=
  if committed || ended then (s.callEnd false, false) else (s.callEnd true, true)

structure Glue where
  ledger : Ledger
  callStart : Obj
  torn : Bool

inductive GlueOp where
  | reserve (n : Nat) (mem : Bool)
  | put (type parent : Nat) (mem : Bool)
  | destroy (id : Nat) (consumes : Bool)
  | finish (committed ended : Bool)
  | teardown
  deriving DecidableEq

def glueStep (c : Iface) (g : Glue) (a : GlueOp) : Option Glue :=
  if g.torn then none
  else
    match a with
    | .reserve n mem => some { g with ledger := g.ledger.apply c (.reserve n mem) }
    | .put t parent mem =>
      if PutOk c g.ledger t parent then some { g with ledger := g.ledger.apply c (.put t parent mem) }
      else none
    | .destroy id consumes => some { g with ledger := g.ledger.destroyOp c id consumes }
    | .finish committed ended =>
      let s := (g.ledger.finishCall committed ended).1
      some { g with ledger := s, callStart := s.nextObj }
    | .teardown => some { g with ledger := g.ledger.apply c .teardown, torn := true }

def glueMachine (c : Iface) : Machine Glue GlueOp where
  init := ⟨.empty, 0, false⟩
  step := glueStep c

structure Glue.Ok (c : Iface) (g : Glue) (live free : List Nat) (calls : List Reg) : Prop where
  tended : Tended c g.ledger live free
  running : Calls g.ledger live g.callStart calls
  reg : g.ledger.store.reg = calls.map Reg.id
  torn : g.torn = true → live = []

variable {g g' : Glue} {calls : List Reg}

theorem Wf.lookup_entry (h : Wf c s live free) {id : Nat} {e : Entry}
    (hlookup : s.store.lookup id = some e) : ∃ y ∈ live, id = s.idOf y ∧ e = s.store.tab y := by
  obtain ⟨hy, rfl, hid⟩ := h.lookup hlookup
  exact ⟨_, hy, hid, rfl⟩

theorem Tended.childless_of_owns (h : Tended c s live free) {y : Nat} (hy : y ∈ live)
    (howns : c.owns (s.store.tab y).type = false) : s.Childless live y := by
  intro k hk hpar
  have hparent : (s.store.tab k).parent ≠ 0 := by
    rw [hpar]
    exact h.wf.idOf_ne_zero hy
  obtain ⟨j, hj, hid, -, howner, -⟩ := h.forest.parents k hk hparent
  obtain rfl : j = y := h.wf.idOf_inj hj hy (hid.symm.trans hpar)
  obtain ⟨hpos, hle⟩ := h.forest.types k hk
  have htype : c.type? (s.store.tab k).type = c.types[(s.store.tab k).type - 1]? := if_neg hpos.ne'
  have hlt : (s.store.tab k).type - 1 < c.types.length := by omega
  rw [List.getElem?_eq_getElem hlt] at htype
  rw [Iface.ownerOf, htype] at howner
  rw [Iface.owns, List.any_eq_false] at howns
  exact howns _ (List.getElem_mem hlt) (by simpa using howner)

theorem Tended.cascade (hacyc : c.Acyclic) (h : Tended c s live free) {y : Nat} (hy : y ∈ live) :
    ∃ live' es, Shrunk c s (s.destroyChildren c (s.idOf y)) live live' es ∧ y ∈ live' ∧
      (s.destroyChildren c (s.idOf y)).Childless live' y := by
  have hshrunk := h.destroyChildren hacyc hy
  have hy' : y ∈ live.filter (!s.under c y ·) :=
    List.mem_filter.2 ⟨hy, by simp [h.under_self hacyc hy]⟩
  refine ⟨_, _, hshrunk, hy', fun k hk hpar => ?_⟩
  obtain ⟨hk', hnot⟩ := List.mem_filter.1 hk
  rw [hshrunk.tab k hk, hshrunk.idOf hy'] at hpar
  have howned := (h.child hk' hy hpar).2
  rw [(h.under_iff hacyc hk' hy).2 (.single howned)] at hnot
  cases hnot

theorem Tended.destroyOp (hacyc : c.Acyclic) (h : Tended c s live free) (id : Nat) (consumes : Bool) :
    ∃ live' es, Shrunk c s (s.destroyOp c id consumes) live live' es := by
  unfold Ledger.destroyOp
  cases hlookup : s.store.lookup id with
  | none => exact ⟨live, [], .refl h⟩
  | some e =>
    obtain ⟨y, hy, rfl, rfl⟩ := h.wf.lookup_entry hlookup
    dsimp only
    -- the table before the handle is consumed
    generalize hs₁ : (if c.children (s.store.tab y).type then s.destroyChildren c (s.idOf y) else s) = s₁
    obtain ⟨live₁, es₁, hshrunk₁, hy₁, hchild₁⟩ :
        ∃ live₁ es₁, Shrunk c s s₁ live live₁ es₁ ∧ y ∈ live₁ ∧ s₁.Childless live₁ y := by
      subst hs₁
      split
      · exact h.cascade hacyc hy
      · rename_i hchildren
        simp only [Iface.children, Bool.or_eq_true, not_or, Bool.not_eq_true] at hchildren
        exact ⟨live, [], .refl h, hy, h.childless_of_owns hy hchildren.2⟩
    cases consumes with
    | false => exact ⟨live₁, es₁, hshrunk₁⟩
    | true =>
      obtain ⟨_, h₁⟩ := hshrunk₁.tended
      obtain ⟨live₂, hshrunk₂⟩ := h₁.consume hy₁ hchild₁
      rw [hshrunk₁.idOf hy₁] at hshrunk₂
      exact ⟨live₂, _, hshrunk₁.trans hshrunk₂⟩

theorem Tended.of_call (h : Tended c s live free) (cap reserved : Nat) (reg : List Nat) :
    Tended c { s with store := { s.store with tabCap := cap, hreserved := reserved, reg := reg } }
      live free :=
  ⟨h.wf.of_call cap reserved reg, ⟨h.forest.order, h.forest.types, h.forest.parents⟩, h.ordered⟩

theorem Tended.no_calls (h : Tended c s live free) : Calls s live s.nextObj [] := by
  refine ⟨by simp, .nil, fun i hi hstart => ?_⟩
  exact absurd (h.wf.obj_lt hi) (not_lt.2 hstart)

theorem Calls.add {idx : Nat} {start : Obj} (h : Calls s live start calls) (hwf : Wf c s live free)
    (hstart : start ≤ s.nextObj) (htab : ∀ i ∈ live, s'.store.tab i = s.store.tab i)
    (hobj : s'.obj idx = s.nextObj) (hlog : s'.log = .put (s'.regOf idx) :: s.log) :
    Calls s' (live ++ [idx]) start (s'.regOf idx :: calls) := by
  have hshrunk : ∀ i ∈ live, s'.regOf i = s.regOf i := fun i hi => by
    unfold Ledger.regOf Ledger.obj Ledger.idOf
    rw [htab i hi]
  refine ⟨fun r hr => ?_, List.pairwise_cons.2 ⟨fun r hr => ?_, h.order⟩, fun i hi hge => ?_⟩
  · rw [hlog]
    rcases List.mem_cons.1 hr with rfl | hr
    · exact ⟨List.mem_cons_self, by rw [Ledger.regOf, hobj]; exact hstart⟩
    · exact ⟨List.mem_cons_of_mem _ (h.put r hr).1, (h.put r hr).2⟩
  · rw [Ledger.regOf, hobj]
    exact hwf.fresh _ (h.put r hr).1
  · rcases List.mem_append.1 hi with hi | hi
    · have hreg := hshrunk i hi
      have hobjs : s'.obj i = s.obj i := congrArg Reg.obj hreg
      rw [hobjs] at hge
      rw [hreg]
      exact List.mem_cons_of_mem _ (h.all i hi hge)
    · rw [List.mem_singleton.1 hi]
      exact List.mem_cons_self

theorem Glue.Ok.empty : Glue.Ok c ⟨.empty, 0, false⟩ [] [] [] :=
  ⟨.empty, ⟨by simp, .nil, by simp⟩, rfl, by simp⟩

theorem Glue.Ok.finishCall (h : g.Ok c live free calls) (committed ended : Bool) :
    ∃ live' free' es, Tended c (g.ledger.finishCall committed ended).1 live' free' ∧
      (g.ledger.finishCall committed ended).1.store.reg = [] ∧
      (g.ledger.finishCall committed ended).1.log = es ++ g.ledger.log ∧
      (∀ e ∈ es, ∃ id o, e = .destroyed id o) ∧ (es.Pairwise fun a b => a.obj < b.obj) ∧
      ((g.ledger.finishCall committed ended).2 = true → ∀ i ∈ live',
        (g.ledger.finishCall committed ended).1.obj i < g.callStart) := by
  unfold Ledger.finishCall
  split
  · exact ⟨live, free, [], h.tended.of_call _ _ _, rfl, rfl, by simp, .nil, by simp⟩
  · obtain ⟨live', es, hshrunk, hlive, hes, hpair⟩ := h.tended.rollback h.running
    rw [← h.reg] at hshrunk
    obtain ⟨free', hend⟩ := hshrunk.tended
    refine ⟨live', free', es, hend.of_call _ _ _, rfl, hshrunk.log, fun e he => (hes e he).1, hpair, ?_⟩
    intro _ i hi
    have hobj := hlive i hi
    rwa [← hshrunk.obj hi] at hobj

theorem Glue.Ok.of_step (hacyc : c.Acyclic) (h : g.Ok c live free calls)
    (hstart : g.callStart ≤ g.ledger.nextObj) {a : GlueOp} (hstep : glueStep c g a = some g') :
    (∃ live' free' calls', g'.Ok c live' free' calls') ∧ g'.callStart ≤ g'.ledger.nextObj := by
  unfold glueStep at hstep
  split at hstep
  · cases hstep
  rename_i htorn
  cases a with
  | reserve n mem =>
    cases hstep
    unfold Ledger.apply
    dsimp only
    split
    · rename_i st hst
      obtain ⟨-, cap, rfl⟩ := Store.reserve_room hst h.tended.wf.high
      have hr := h.running
      exact ⟨⟨live, free, calls, h.tended.of_call _ _ _, ⟨hr.put, hr.order, hr.all⟩, h.reg, h.torn⟩,
        hstart⟩
    · exact ⟨⟨live, free, calls, h⟩, hstart⟩
  | put t parent mem =>
    dsimp only at hstep
    split at hstep
    · rename_i hok
      cases hstep
      unfold Ledger.apply
      dsimp only
      cases hput : g.ledger.put c t parent mem with
      | none => exact ⟨⟨live, free, calls, h⟩, hstart⟩
      | some s' =>
        obtain ⟨idx, free', hend, -, htab, hobj, hnext, hreg, hlog⟩ := h.tended.put hok hput
        refine ⟨⟨live ++ [idx], free', s'.regOf idx :: calls, hend,
          h.running.add h.tended.wf hstart htab hobj hlog, ?_, fun ht => absurd ht htorn⟩, ?_⟩
        · change s'.store.reg = _
          rw [hreg, h.reg]
          rfl
        · change g.callStart ≤ s'.nextObj
          rw [hnext]
          exact Nat.le_succ_of_le hstart
    · cases hstep
  | destroy id consumes =>
    cases hstep
    obtain ⟨live', es, hshrunk⟩ := h.tended.destroyOp hacyc id consumes
    obtain ⟨free', hend⟩ := hshrunk.tended
    exact ⟨⟨live', free', calls, hend, h.running.of_shrunk hshrunk, hshrunk.reg.trans h.reg,
      fun ht => absurd ht htorn⟩, hstart.trans_eq hshrunk.nextObj.symm⟩
  | finish committed ended =>
    cases hstep
    obtain ⟨live', free', es, hend, hreg, -⟩ := h.finishCall committed ended
    exact ⟨⟨live', free', [], hend, hend.no_calls, hreg, fun ht => absurd ht htorn⟩, Nat.le_refl _⟩
  | teardown =>
    cases hstep
    have hshrunk := h.tended.destroyAll h.tended.wf.length_le
    obtain ⟨free', hend⟩ := hshrunk.tended
    exact ⟨⟨[], free', calls, hend, h.running.of_shrunk hshrunk, hshrunk.reg.trans h.reg, fun _ => rfl⟩,
      hstart.trans_eq hshrunk.nextObj.symm⟩

theorem Glue.ok_of_reachable (hacyc : c.Acyclic) (h : (glueMachine c).Reachable g) :
    (∃ live free calls, g.Ok c live free calls) ∧ g.callStart ≤ g.ledger.nextObj := by
  have hempty : ∃ live free calls, Glue.Ok c (glueMachine c).init live free calls :=
    ⟨[], [], [], Glue.Ok.empty⟩
  refine h.invariant (I := fun g => (∃ live free calls, g.Ok c live free calls) ∧
    g.callStart ≤ g.ledger.nextObj) ⟨hempty, Nat.le_refl _⟩ fun s a s' _ hI _ hstep => ?_
  obtain ⟨⟨live, free, calls, hok⟩, hstart⟩ := hI
  exact hok.of_step hacyc hstart hstep

/-! ## What has left -/

theorem Tended.left_or_live (h : Tended c s live free) {r : Reg} (hr : .put r ∈ s.log) :
    (leaves r.obj s.log = 0 ∧ ∃ i ∈ live, s.obj i = r.obj) ∨ leaves r.obj s.log = 1 := by
  rcases h.wf.history.leaves hr with ⟨-, hzero⟩ | ⟨-, hone⟩
  · obtain ⟨i, hi, hreg⟩ := h.wf.live_of_put hr hzero
    exact .inl ⟨hzero, i, hi, congrArg Reg.obj hreg⟩
  · exact .inr hone

theorem Tended.leaves_live (h : Tended c s live free) {i : Nat} (hi : i ∈ live) :
    leaves (s.obj i) s.log = 0 := by
  have hcur := h.wf.current_eq hi
  have hmod : s.idOf i % 65536 = i := handleID_mod (h.wf.le hi).2
  refine ((h.wf.history.leaves (current_mem hcur)).resolve_right fun hleft => hleft.1 ?_).2
  change current (s.idOf i % 65536) s.log = _
  rw [hmod]
  exact hcur

theorem destroyEvs (h : live.Pairwise fun i j => s.obj i < s.obj j) :
    (∀ e ∈ live.map s.destroyEv, ∃ id o, e = .destroyed id o) ∧
      (live.map s.destroyEv).Pairwise fun a b => a.obj < b.obj := by
  refine ⟨fun e he => ?_, List.pairwise_map.2 h⟩
  obtain ⟨i, -, rfl⟩ := List.mem_map.1 he
  exact ⟨_, _, rfl⟩

theorem Tended.descendants (hacyc : c.Acyclic) (h : Tended c s live free) {id : Nat} {e : Entry} {o : Obj}
    (hlookup : s.store.lookup id = some e) (hptr : e.ptr = some o) :
    ∃ es, (s.destroyChildren c id).log = es ++ s.log ∧
      (∀ e ∈ es, ∃ id o, e = .destroyed id o) ∧ (es.Pairwise fun a b => a.obj < b.obj) ∧
      ∀ q, (∃ e ∈ es, e.obj = q) ↔
        leaves q s.log = 0 ∧ Relation.TransGen (OwnedBy s.log) q o := by
  obtain ⟨p, hp, rfl, rfl⟩ := h.wf.lookup_entry hlookup
  have hobj : s.obj p = o := by simp [Ledger.obj, hptr]
  obtain ⟨hes, hpair⟩ := destroyEvs (h.forest.order.filter (s.under c p))
  refine ⟨_, (h.destroyChildren hacyc hp).log, hes, hpair, fun q => ⟨?_, ?_⟩⟩
  · rintro ⟨e, he, rfl⟩
    obtain ⟨i, hi, rfl⟩ := List.mem_map.1 he
    obtain ⟨hlive, hdesc⟩ := List.mem_filter.1 hi
    refine ⟨h.leaves_live hlive, ?_⟩
    rw [← hobj]
    exact (h.under_iff hacyc hlive hp).1 hdesc
  · rintro ⟨hzero, howned⟩
    -- the object was put, so an entry holds it
    obtain ⟨_, ⟨newer, older, r, r', hsplit, rfl, -⟩, -⟩ := Relation.TransGen.head'_iff.1 howned
    obtain ⟨i, hi, hreg⟩ := h.wf.live_of_put (r := r) (by rw [hsplit]; simp) hzero
    have hri : s.obj i = r.obj := congrArg Reg.obj hreg
    rw [← hri, ← hobj] at howned
    exact ⟨s.destroyEv i,
      List.mem_map_of_mem (List.mem_filter.2 ⟨hi, (h.under_iff hacyc hi hp).2 howned⟩), hri⟩

/-- Every sequence of handle operations of the glue, up to the teardown of the session. -/
theorem handles_released (hacyc : c.Acyclic) (h : (glueMachine c).Reachable g) :
    (∀ r, .put r ∈ g.ledger.log → leaves r.obj g.ledger.log ≤ 1 ∧
      (g.torn = true → leaves r.obj g.ledger.log = 1)) ∧
    (∀ newer e older, g.ledger.log = newer ++ e :: older → e.frees = true →
      ∀ o, Relation.TransGen (OwnedBy older) o e.obj → ∃ e' ∈ older, e'.frees = true ∧ e'.obj = o) ∧
    (∃ es, (g.ledger.apply c .teardown).log = es ++ g.ledger.log ∧
      (∀ e ∈ es, ∃ id o, e = .destroyed id o) ∧ es.Pairwise fun a b => a.obj < b.obj) ∧
    (∀ committed ended, ∃ es, (g.ledger.finishCall committed ended).1.log = es ++ g.ledger.log ∧
      (∀ e ∈ es, ∃ id o, e = .destroyed id o) ∧ (es.Pairwise fun a b => a.obj < b.obj) ∧
      ((g.ledger.finishCall committed ended).2 = true → ∀ r, .put r ∈ g.ledger.log →
        g.callStart ≤ r.obj → leaves r.obj (g.ledger.finishCall committed ended).1.log = 1)) ∧
    (∀ id e o, g.ledger.store.lookup id = some e → e.ptr = some o →
      ∃ es, (g.ledger.destroyChildren c id).log = es ++ g.ledger.log ∧
        (∀ e ∈ es, ∃ id o, e = .destroyed id o) ∧ (es.Pairwise fun a b => a.obj < b.obj) ∧
        ∀ q, (∃ e ∈ es, e.obj = q) ↔
          leaves q g.ledger.log = 0 ∧ Relation.TransGen (OwnedBy g.ledger.log) q o) := by
  obtain ⟨⟨live, free, calls, hok⟩, -⟩ := Glue.ok_of_reachable hacyc h
  refine ⟨fun r hr => ?_, hok.tended.ordered, ?_, fun committed ended => ?_, fun id e o hlookup hptr => ?_⟩
  · rcases hok.tended.left_or_live hr with ⟨hzero, i, hi, -⟩ | hone
    · refine ⟨by omega, fun htorn => ?_⟩
      rw [hok.torn htorn] at hi
      cases hi
    · exact ⟨by omega, fun _ => hone⟩
  · exact ⟨_, (hok.tended.destroyAll hok.tended.wf.length_le).log, destroyEvs hok.tended.forest.order⟩
  · obtain ⟨live', free', es, hend, -, hlog, hes, hpair, hgone⟩ := hok.finishCall committed ended
    refine ⟨es, hlog, hes, hpair, fun herr r hr hstart => ?_⟩
    have hr' : .put r ∈ (g.ledger.finishCall committed ended).1.log := by
      rw [hlog]
      exact List.mem_append_right _ hr
    refine (hend.left_or_live hr').resolve_left ?_
    rintro ⟨-, i, hi, hobj⟩
    have hlt := hgone herr i hi
    rw [hobj] at hlt
    exact absurd hlt (not_lt.2 hstart)
  · exact hok.tended.descendants hacyc hlookup hptr

theorem Iface.acyclic_of_lt (h : ∀ t, c.ownerOf t ≠ 0 → c.ownerOf t < t) : c.Acyclic := by
  have hlt : ∀ a b, Relation.TransGen (fun a b => c.ownerOf a = b ∧ b ≠ 0) a b → b < a := by
    intro a b hab
    induction hab with
    | single hab => exact hab.1 ▸ h a (hab.1 ▸ hab.2)
    | tail _ hbc ih => exact (hbc.1 ▸ h _ (hbc.1 ▸ hbc.2)).trans ih
  exact fun t ht => lt_irrefl t (hlt t t ht)

theorem handles_released_two :
    ∃ c g, c.Acyclic ∧ (glueMachine c).Reachable g ∧ g.torn = true ∧
      .put ⟨65538, 2, 65537, 1⟩ ∈ g.ledger.log ∧ leaves 1 g.ledger.log = 1 := by
  let c : Iface := ⟨[⟨0, true, true, false⟩, ⟨1, true, false, false⟩], 4, by decide⟩
  have hacyc : c.Acyclic := by
    refine Iface.acyclic_of_lt fun t => ?_
    match t with
    | 0 | 1 | 2 => decide
    | t + 3 => exact fun hne => absurd rfl hne
  obtain ⟨g, hg, htorn, hput⟩ : ∃ g, (glueMachine c).Reachable g ∧ g.torn = true ∧
      .put ⟨65538, 2, 65537, 1⟩ ∈ g.ledger.log :=
    Machine.exists_reachable [.reserve 2 true, .put 1 0 true, .put 2 65537 true, .finish true false,
      .teardown] (by decide +kernel)
  exact ⟨c, g, hacyc, hg, htorn, hput, ((handles_released hacyc hg).1 _ hput).2 htorn⟩

end Hqq.Handles
