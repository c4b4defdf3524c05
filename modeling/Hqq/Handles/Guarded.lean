import Hqq.Handles.Hooks
import Hqq.Handles.Ledger

/-!
# No hook once a destroy has started

The session thread marks an entry not live, or stores its ID in `destroy_id`, in a critical
section before it calls the destroy function.
-/

namespace Hqq.Handles

variable {c : Iface} {s s' : State}

theorem mem_toList_map {o : Option Obj} {e : Event} {k : Obj → Event}
    (h : e ∈ (o.map k).toList) : ∃ ob, o = some ob ∧ e = k ob := by
  cases o with
  | none => cases h
  | some ob => exact ⟨ob, rfl, by simpa using h⟩

/-! ## Steps of the session thread -/

theorem Inv.handleID_ne_zero (h : Inv c s) {i : Nat} {o : Obj} (hheld : s.store.Held i o) :
    handleID (s.store.tab i).gen i ≠ 0 := by
  have hpos := (h.store.range i o hheld.2).1
  unfold handleID
  omega

theorem Inv.target_of_shrinks (h : Inv c s) {st : Store} (hshrinks : s.store.Shrinks st) {t : Thread}
    (hsame : t.target = s.thread.target) (f : Fn) (id : Nat) (o : Obj) (past : Bool)
    (ht : t.target = some (f, id, o, past)) (i : Nat) (hheld : st.Held i o) :
    handleID (st.tab i).gen i = id ∧ f.destroys = some (st.tab i).type ∧
      (past = true → c.cancel (st.tab i).type = true → s.destroyID = id) := by
  obtain ⟨hold, htype, hgen⟩ := hshrinks.held hheld
  rw [hgen, htype]
  exact h.target f id o past (hsame ▸ ht) i hold

theorem Inv.keep (h : Inv c s) {t : Thread} (htarget : t.target = s.thread.target)
    (hold : s.thread.calling = none) (hmarked : t.marked = none) (hrefused : t.refused = none)
    (hbound : ∀ i ∈ t.indices, i ≤ s.store.highWater) : Inv c { s with thread := t } := by
  refine h.move (h.target_of_shrinks (.refl rfl) htarget) (fun _ _ _ hc => absurd hc (by rw [hold]; nofun))
    ?_ ?_ hbound (.refl rfl) rfl (fun hb => hb) le_rfl [] rfl nofun
  · intro i o ht
    rw [hmarked] at ht
    cases ht
  · intro o ht
    rw [hrefused] at ht
    cases ht

theorem Inv.arm (h : Inv c s) {f : Fn} {id : Nat} {o : Option Obj}
    (ht : s.thread = .op f (.got id o)) :
    Inv c { s with destroyID := id, thread := .op f (.cascade id o s.store.links.tail) } := by
  refine h.move ?_ (fun _ _ _ hc => absurd hc (by rw [ht]; nofun)) nofun nofun ?_ (.refl rfl) rfl
    (fun hb => hb) le_rfl [] rfl nofun
  · intro f' id' ob past htarget i hheld
    cases o with
    | none => cases htarget
    | some ob' =>
      cases htarget
      obtain ⟨hid, hf, -⟩ := h.target f id ob false (by rw [ht]; rfl) i hheld
      exact ⟨hid, hf, fun _ _ => rfl⟩
  · intro i hi
    rw [List.mem_singleton.1 hi]
    exact h.store.bounded.links.tail

theorem Inv.skip (h : Inv c s) {f : Fn} {id : Nat} {o : Option Obj}
    (ht : s.thread = .op f (.got id o))
    (hskip : ¬(f.cascades c id = true ∧ (s.store.lookup id).isSome = true)) :
    Inv c { s with thread := .op f (.ready id o) } := by
  refine h.move (fun f' id' ob past htarget i hheld => ?_)
    (fun _ _ _ hc => absurd hc (by rw [ht]; nofun)) nofun nofun nofun (.refl rfl) rfl (fun hb => hb)
    le_rfl [] rfl nofun
  cases o with
  | none => cases htarget
  | some ob' =>
    cases htarget
    obtain ⟨rfl, hf, -⟩ := h.target f id ob false (by rw [ht]; rfl) i hheld
    refine ⟨rfl, hf, fun _ hcancel => absurd ⟨?_, ?_⟩ hskip⟩
    · have hne := h.handleID_ne_zero hheld
      simp [Fn.cascades, hf, Iface.children, hcancel, hne]
    · rw [h.store.lookup hheld]
      rfl

theorem Inv.call (h : Inv c s) {f : Fn} {id : Nat} {o : Option Obj}
    (ht : s.thread = .op f (.ready id o)) :
    Inv c ({ s with thread := .op f (.called id o) }.record o .start) := by
  refine h.move (h.target_of_shrinks (.refl rfl) (by rw [ht]; cases o <;> rfl))
    (fun _ _ _ hc => absurd hc (by rw [ht]; nofun)) nofun nofun nofun (.refl rfl) rfl (fun hb => hb)
    le_rfl _ rfl ?_
  intro e he
  obtain ⟨ob, rfl, rfl⟩ := mem_toList_map he
  exact ⟨fun _ => by simp, fun _ _ => rfl⟩

theorem Inv.ret (h : Inv c s) {f : Fn} {id : Nat} {o : Option Obj} {ok : Bool}
    (ht : s.thread = .op f (.called id o)) :
    Inv c ({ s with thread := .op f (.post id o ok) }.record o (.finish · ok)) := by
  refine h.move (h.target_of_shrinks (.refl rfl) (by rw [ht]; cases o <;> rfl)) ?_ nofun ?_ nofun
    (.refl rfl) rfl (fun hb => hb) le_rfl _ rfl ?_
  · intro i ob _ hcalling hne
    rw [ht] at hcalling
    exact absurd hcalling hne
  · intro ob hr
    cases ok with
    | true => cases hr
    | false =>
      change o = some ob at hr
      subst hr
      change life ob (.finish ob false :: s.log) = .failed
      simp [life, Event.obj, Event.apply]
  · intro e he
    obtain ⟨ob, rfl, rfl⟩ := mem_toList_map he
    exact ⟨fun _ => by simp, fun _ _ => rfl⟩

theorem Inv.consume_called (h : Inv c s) {f : Fn} {id : Nat} {o : Option Obj} {ok : Bool}
    (ht : s.thread = .op f (.post id o ok)) {i : Nat} {ob : Obj}
    (hheld : (s.store.consume id).Held i ob) : s.thread.calling ≠ some ob := by
  intro hcalling
  rw [ht] at hcalling
  change o = some ob at hcalling
  subst hcalling
  have hold := ((s.store.shrinks_consume id).held hheld).1
  obtain ⟨rfl, -⟩ := h.target f id ob true (by rw [ht]; rfl) i hold
  have hi : i ≤ 65535 :=
    (h.store.range i ob hold.2).2.trans (h.store.high.trans c.maxHandles_le)
  exact (Store.consume_ptr (h.store.lookup hold) hheld.2).1 (handleID_mod hi).symm

theorem Inv.consume_gone (h : Inv c s) {id i : Nat} {ob : Obj}
    (hob : (s.store.lookup id).bind (·.ptr) = some ob) : ¬(s.store.consume id).Held i ob := by
  intro hheld
  obtain ⟨e, hlookup, hptr⟩ := Option.bind_eq_some_iff.1 hob
  have hi := (Store.consume_ptr hlookup hheld.2).1
  obtain rfl := Store.lookup_eq hlookup
  exact hi (h.store.inj _ _ ob (s.store.shrinks_consume id i ob hheld.2).1 hptr)

theorem Inv.consume (h : Inv c s) {f : Fn} {id : Nat} {o : Option Obj} {ok : Bool}
    (ht : s.thread = .op f (.post id o ok)) :
    Inv c ({ s with store := s.store.consume id, thread := .op f .produce }.record
      ((s.store.lookup id).bind (·.ptr)) .consumed) := by
  refine h.move nofun (fun _ _ hheld hcalling _ => absurd hcalling (h.consume_called ht hheld)) nofun
    nofun nofun (s.store.shrinks_consume id) (s.store.highWater_consume id) (fun hb => hb.consume id)
    le_rfl _ rfl ?_
  intro e he
  obtain ⟨ob, hob, rfl⟩ := mem_toList_map he
  exact ⟨fun _ => by simp, fun _ hheld => absurd hheld (h.consume_gone hob)⟩

theorem Inv.retain (h : Inv c s) {f : Fn} {id : Nat} {o : Option Obj} {ok : Bool}
    (ht : s.thread = .op f (.post id o ok)) (hkeep : ¬f.consumes c id ok = true) :
    Inv c { s with thread := .op f .produce } := by
  refine h.move nofun (fun i ob hheld hcalling _ => ?_) nofun nofun nofun (.refl rfl) rfl (fun hb => hb)
    le_rfl [] rfl nofun
  rw [ht] at hcalling
  change o = some ob at hcalling
  subst hcalling
  obtain ⟨rfl, hf, -⟩ := h.target f id ob true (by rw [ht]; rfl) i hheld
  have hne := h.handleID_ne_zero hheld
  simp only [Fn.consumes, hf, Option.isSome_some, Option.any_some, Bool.true_and, bne_iff_ne, ne_eq,
    hne, not_false_eq_true, Bool.and_eq_true, true_and, Bool.or_eq_true, not_or,
    Bool.not_eq_true', Bool.not_eq_false, Bool.not_eq_true] at hkeep
  obtain ⟨⟨-, hretain⟩, rfl⟩ := hkeep
  exact .inr ⟨h.refused ob (by rw [ht]; rfl), hretain⟩

/-! ## Steps of `entry_destroy` -/

theorem Back.target_eq (back : Back) {i t : Nat} {o : Option Obj} {work : Work} :
    (Thread.destroying i t o work back).target = (Thread.mark i back).target ∧
      back.resume.target = (Thread.destroying i t o work back).target := by
  cases back with
  | cascade f id o j => cases o <;> exact ⟨rfl, rfl⟩
  | rollback | teardown => exact ⟨rfl, rfl⟩

theorem Inv.mark (h : Inv c s) {i : Nat} {back : Back} (ht : s.thread = .mark i back) :
    Inv c { s with store := s.store.mark i,
                   thread := .destroying i (s.store.tab i).type (s.store.tab i).ptr .adapter back } := by
  refine h.move (h.target_of_shrinks (s.store.shrinks_mark i) (by rw [ht]; exact back.target_eq.1))
    (fun _ _ _ hc => absurd hc (by rw [ht]; nofun)) ?_ nofun ?_ (s.store.shrinks_mark i) rfl
    (fun hb => hb.mark i) le_rfl [] rfl nofun
  · intro j o hm
    cases hm
    have heq : (s.store.mark i).tab i = { s.store.tab i with live := false } :=
      Function.update_self ..
    exact heq ▸ ⟨rfl, rfl⟩
  · intro j hj
    exact h.bound j (by rw [ht]; exact hj)

theorem Inv.not_held (h : Inv c s) {i j : Nat} {ob : Obj}
    (hm : s.thread.marked = some (i, some ob)) : ¬s.store.Held j ob := by
  intro hheld
  obtain ⟨hlive, hptr⟩ := h.marked i _ hm
  obtain rfl := h.store.inj _ _ ob hheld.2 hptr
  rw [hheld.1] at hlive
  cases hlive

theorem Inv.adapter (h : Inv c s) {i t : Nat} {o : Option Obj} {work : Work} {back : Back}
    (ht : s.thread = .destroying i t o work back) (work' : Work) (es : List Event)
    (hes : ∀ e ∈ es, (∀ ob, e ≠ .hook ob) ∧ o = some e.obj) :
    Inv c { s with thread := .destroying i t o work' back, log := es ++ s.log } := by
  refine h.move (h.target_of_shrinks (.refl rfl) ?_) (fun _ _ _ hc => absurd hc (by rw [ht]; nofun)) ?_
    nofun ?_ (.refl rfl) rfl (fun hb => hb) le_rfl es rfl ?_
  · rw [ht]
    exact back.target_eq.2.symm.trans back.target_eq.2
  · intro j ob hm
    exact h.marked j ob (by rw [ht]; exact hm)
  · intro j hj
    exact h.bound j (by rw [ht]; exact hj)
  · intro e he
    have hm : s.thread.marked = some (i, some e.obj) := by
      rw [ht, (hes e he).2]
      rfl
    exact ⟨(hes e he).1, fun j hheld => absurd hheld (h.not_held hm)⟩

theorem Inv.free (h : Inv c s) {i t : Nat} {o : Option Obj} {work : Work} {back : Back}
    (ht : s.thread = .destroying i t o work back) :
    Inv c ({ s with store := s.store.entryFree i, thread := back.resume }.record o .consumed) := by
  have hi : i ≤ s.store.highWater := h.bound i (by rw [ht]; exact List.mem_cons_self)
  refine h.move (h.target_of_shrinks (s.store.shrinks_entryFree i) (by rw [ht]; exact back.target_eq.2))
    (fun _ _ _ hc => absurd hc (by rw [ht]; nofun)) ?_ ?_ ?_ (s.store.shrinks_entryFree i) rfl
    (fun hb => hb.entryFree hi) le_rfl _ rfl ?_
  · intro j ob hm
    cases back <;> cases hm
  · intro ob hr
    cases back <;> cases hr
  · intro j hj
    refine h.bound j ?_
    rw [ht]
    refine List.mem_cons_of_mem _ ?_
    cases back <;> exact hj
  · intro e he
    obtain ⟨ob, rfl, rfl⟩ := mem_toList_map he
    refine ⟨fun _ => by simp, fun j hheld => absurd ?_ (h.not_held (j := j) (by rw [ht]; rfl))⟩
    exact ((s.store.shrinks_entryFree i).held hheld).1

theorem Inv.proceed (h : Inv c s) (hstep : s.proceed c = some s') : Inv c s' := by
  unfold State.proceed at hstep
  split at hstep
  · rename_i f id o ht
    split at hstep
    · split at hstep
      · cases hstep
        exact h.arm ht
      · cases hstep
    · cases hstep
      exact h.skip ht ‹_›
  · rename_i f id o i ht
    have hcalling : s.thread.calling = none := by rw [ht]; rfl
    have hprev : s.store.links.prev i ≤ s.store.highWater := h.store.bounded.links.prev i
    split at hstep
    · cases hstep
      exact h.keep (by rw [ht]; cases o <;> rfl) hcalling rfl rfl (fun _ hi => by cases hi)
    · dsimp only at hstep
      split at hstep
      · cases hstep
        refine h.keep (by rw [ht]; cases o <;> rfl) hcalling rfl rfl ?_
        intro j hj
        obtain rfl | hj := List.mem_cons.1 hj
        · exact h.bound j (by rw [ht]; exact List.mem_singleton_self j)
        · exact (List.mem_singleton.1 hj) ▸ hprev
      · cases hstep
        refine h.keep (by rw [ht]; cases o <;> rfl) hcalling rfl rfl ?_
        intro j hj
        exact (List.mem_singleton.1 hj) ▸ hprev
  · rename_i f id o ht
    cases hstep
    exact h.call ht
  · rename_i f id o ok ht
    split at hstep
    · split at hstep
      · cases hstep
        exact h.consume ht
      · cases hstep
    · cases hstep
      exact h.retain ht ‹_›
  · rename_i i back ht
    split at hstep
    · cases hstep
      exact h.mark ht
    · cases hstep
  · rename_i i t o back ht
    split at hstep
    · cases hstep
      refine h.adapter ht .running _ fun e he => ?_
      obtain ⟨ob, rfl, rfl⟩ := mem_toList_map he
      exact ⟨fun _ => by simp, rfl⟩
    · cases hstep
      exact h.adapter ht .free [] fun _ he => by cases he
  · rename_i i t o back ht
    split at hstep
    · cases hstep
      exact h.free ht
    · cases hstep
  · rename_i rollback ht
    split at hstep
    · -- the destroy of an operation is behind the call, so its ID is not needed
      split at hstep <;> cases hstep <;> exact h.pass
    · cases hstep
  · rename_i ht
    split at hstep
    · cases hstep
      exact h.pass
    · rename_i id reg hreg
      have hpop : Inv c { s with store := { s.store with reg := reg }, thread := .rollback } := h.pass
      split at hstep
      · rename_i hlookup
        cases hstep
        refine hpop.keep rfl rfl rfl rfl ?_
        intro j hj
        rw [List.mem_singleton.1 hj]
        exact Store.lookup_le hlookup
      · cases hstep
        rw [ht]
        exact hpop
  · rename_i ht
    split at hstep <;> cases hstep
    · exact h.pass
    · refine h.keep (by rw [ht]; rfl) (by rw [ht]; rfl) rfl rfl ?_
      intro j hj
      rw [List.mem_singleton.1 hj]
      exact h.store.bounded.links.tail
  · cases hstep

/-! ## Registering an object -/

structure Picked (c : Iface) (st st' : Store) (idx : Nat) : Prop where
  pos : 0 < idx
  le : idx ≤ st'.highWater
  grows : st.highWater ≤ st'.highWater
  high : st'.highWater ≤ c.maxHandles
  others : ∀ j, j ≠ idx → st'.tab j = st.tab j
  bounded : st'.Bounded

theorem Store.Bounded.pick {st st' : Store} {idx : Nat} (h : st.Bounded)
    (hhigh : st.highWater ≤ c.maxHandles) (hpick : st.pick c = some (idx, st')) :
    Picked c st st' idx := by
  unfold Store.pick at hpick
  split at hpick
  · rename_i hfree
    cases hpick
    exact ⟨Nat.pos_of_ne_zero hfree, h.freeHead, le_rfl, hhigh, fun _ _ => rfl,
      ⟨h.freeNext _, h.freeNext, h.links⟩⟩
  split at hpick
  · cases hpick
  rename_i hfull
  cases hpick
  refine ⟨Nat.succ_pos _, le_rfl, Nat.le_succ _, by dsimp only; omega,
    fun j hj => Function.update_of_ne hj .., ⟨h.freeHead.trans (Nat.le_succ _), fun j => ?_,
      h.links.mono (Nat.le_succ _)⟩⟩
  refine le_trans ?_ (Nat.le_succ st.highWater)
  obtain rfl | hj := eq_or_ne j (st.highWater + 1)
  · simpa only [Function.update_self] using h.freeNext _
  · simpa only [Function.update_of_ne hj] using h.freeNext j

theorem Store.Bounded.put {st st' : Store} {t parent id : Nat} {o : Obj} {mem : Bool} (h : st.Bounded)
    (hhigh : st.highWater ≤ c.maxHandles) (hput : st.put c t o parent mem = some (st', id)) :
    ∃ idx, Picked c st st' idx ∧ (st'.tab idx).ptr = some o ∧ (st'.tab idx).type = t := by
  unfold Store.put at hput
  split at hput
  · cases hput
  split at hput
  · cases hput
  split at hput
  · cases hput
  split at hput
  · cases hput
  rename_i idx st1 hpick
  have hp := h.pick hhigh hpick
  cases hput
  refine ⟨idx, ⟨hp.pos, hp.le, hp.grows, hp.high, fun j hj => ?_, ⟨hp.bounded.freeHead, fun j => ?_,
    hp.bounded.links.append hp.le⟩⟩, ?_, ?_⟩
  · exact (Function.update_of_ne hj ..).trans (hp.others j hj)
  · obtain rfl | hj := eq_or_ne j idx
    · simp only [Function.update_self, Nat.zero_le]
    · simpa only [Function.update_of_ne hj] using hp.bounded.freeNext j
  · simp only [Function.update_self]
  · simp only [Function.update_self]

theorem Inv.put (h : Inv c s) {f : Fn} {t parent id : Nat} {mem : Bool} {st : Store}
    (ht : s.thread = .op f .produce) (hput : s.store.put c t s.nextObj parent mem = some (st, id)) :
    Inv c { s with store := st, nextObj := s.nextObj + 1, log := .put s.nextObj t :: s.log } := by
  obtain ⟨idx, hp, hptr, htype⟩ := h.store.bounded.put h.store.high hput
  -- an entry holds the new object or what it held
  have hcases : ∀ i o, (st.tab i).ptr = some o →
      (i = idx ∧ o = s.nextObj) ∨
        (st.tab i = s.store.tab i ∧ (s.store.tab i).ptr = some o ∧ o < s.nextObj) := by
    intro i o hi
    obtain rfl | hne := eq_or_ne i idx
    · rw [hptr] at hi
      exact .inl ⟨rfl, (Option.some.inj hi).symm⟩
    · rw [hp.others i hne] at hi ⊢
      exact .inr ⟨rfl, hi, (h.store.known i o hi).1⟩
  refine ⟨⟨?_, ?_, hp.high, hp.bounded, ?_⟩, ?_, ?_, ?_, ?_, ?_, ?_⟩
  · intro i j o hi hj
    obtain ⟨rfl, rfl⟩ | ⟨-, hi, hlt⟩ := hcases i o hi
    · obtain ⟨rfl, -⟩ | ⟨-, -, hlt⟩ := hcases j _ hj
      · rfl
      · exact absurd hlt (lt_irrefl _)
    · obtain ⟨-, rfl⟩ | ⟨-, hj, -⟩ := hcases j _ hj
      · exact absurd hlt (lt_irrefl _)
      · exact h.store.inj i j o hi hj
  · intro i o hi
    obtain ⟨rfl, rfl⟩ | ⟨-, hi, -⟩ := hcases i o hi
    · exact ⟨hp.pos, hp.le⟩
    · exact ⟨(h.store.range i o hi).1, (h.store.range i o hi).2.trans hp.grows⟩
  · intro i o hi
    obtain ⟨rfl, rfl⟩ | ⟨heq, hi, hlt⟩ := hcases i o hi
    · exact ⟨Nat.lt_succ_self _, by rw [htype]; exact List.mem_cons_self⟩
    · refine ⟨Nat.lt_succ_of_lt hlt, List.mem_cons_of_mem _ ?_⟩
      change .put o (st.tab i).type ∈ s.log
      rw [heq]
      exact (h.store.known i o hi).2
  · intro i o hheld _
    obtain ⟨rfl, rfl⟩ | ⟨heq, hi, hlt⟩ := hcases i o hheld.2
    · exact .inl (by simp [life, Event.obj, Event.apply])
    · have hgood := h.clear i o ⟨heq ▸ hheld.1, hi⟩ (by simp [ht, Thread.calling])
      have hlife : life o ([.put s.nextObj t] ++ s.log) = life o s.log := by
        refine life_append fun e he => ?_
        rw [List.mem_singleton.1 he]
        exact hlt.ne'
      unfold Good at hgood ⊢
      change life o ([.put s.nextObj t] ++ s.log) = _ ∨
        life o ([.put s.nextObj t] ++ s.log) = _ ∧ c.retainOnFail (st.tab i).type = true
      rwa [hlife, heq]
  · intro f' id' o past htarget
    rw [ht] at htarget
    cases htarget
  · intro i o hm
    rw [ht] at hm
    cases hm
  · intro o hr
    rw [ht] at hr
    cases hr
  · intro i hi
    rw [ht] at hi
    cases hi
  · change Safe c ([.put s.nextObj t] ++ s.log)
    refine h.safe.append fun e he o => ?_
    rw [List.mem_singleton.1 he]
    simp

theorem Inv.good (h : Inv c s) {i : Nat} {o : Obj} (hhooks : s.hooks c i = true)
    (hptr : (s.store.tab i).ptr = some o) : Good c s.log (s.store.tab i).type o := by
  simp only [State.hooks, Bool.and_eq_true, bne_iff_ne, ne_eq] at hhooks
  obtain ⟨⟨hlive, hid⟩, hcancel⟩ := hhooks
  refine h.clear i o ⟨hlive, hptr⟩ fun hcalling => hid ?_
  -- the operation that destroys the object has stored its ID
  obtain ⟨f, id, htarget⟩ : ∃ f id, s.thread.target = some (f, id, o, true) := by
    revert hcalling
    unfold Thread.calling
    split <;> intro hcalling
    · rename_i f id ob ht
      subst hcalling
      exact ⟨f, id, by rw [ht]; rfl⟩
    · rename_i f id ob ok ht
      subst hcalling
      exact ⟨f, id, by rw [ht]; rfl⟩
    · cases hcalling
  obtain ⟨heq, -, harmed⟩ := h.target f id o true htarget i ⟨hlive, hptr⟩
  rw [heq, harmed rfl hcancel]

theorem Inv.of_req (h : Inv c s) (req : Session.State) (walk : Option Nat) :
    Inv c { s with req := req, walk := walk } :=
  ⟨h.store, h.clear, h.target, h.marked, h.refused, h.bound, h.safe⟩

theorem Inv.hook (h : Inv c s) {i : Nat} (hhooks : s.hooks c i = true) :
    Inv c (s.record (s.store.tab i).ptr .hook) := by
  unfold State.record
  cases hptr : (s.store.tab i).ptr with
  | none => exact h
  | some o =>
    change Inv c { s with log := .hook o :: s.log }
    refine ⟨⟨h.store.inj, h.store.range, h.store.high, h.store.bounded, fun j ob hj => ?_⟩,
      fun j ob hheld hne => ?_, h.target, h.marked, fun ob hr => ?_, h.bound, ?_⟩
    · exact ⟨(h.store.known j ob hj).1, List.mem_cons_of_mem _ (h.store.known j ob hj).2⟩
    · unfold Good
      rw [life_hook]
      exact h.clear j ob hheld hne
    · dsimp only
      rw [life_hook]
      exact h.refused ob hr
    · exact h.safe.hook (h.store.known i o hptr).2 (h.good hhooks hptr)

theorem Store.grow_spec {st st' : Store} {top : Nat} {mem : Bool} (h : st.grow c top mem = some st') :
    ∃ cap, st' = { st with tabCap := cap } := by
  unfold Store.grow at h
  split at h
  · cases h
    exact ⟨st.tabCap, rfl⟩
  split at h
  · cases h
    exact ⟨_, rfl⟩
  · cases h

theorem Store.reserve_spec {st st' : Store} {n : Nat} {mem : Bool}
    (h : st.reserve c n mem = some st') :
    ∃ cap reserved, st' = { st with tabCap := cap, hreserved := reserved } := by
  simp only [Store.reserve] at h
  split at h
  · cases h
  obtain ⟨grown, hgrow, rfl⟩ := Option.map_eq_some_iff.1 h
  obtain ⟨cap, rfl⟩ : ∃ cap, grown = { st with tabCap := cap } := by
    generalize (if st.freeCount < st.hreserved + n then _ else _) = fresh at hgrow
    split at hgrow
    · exact Store.grow_spec hgrow
    · cases hgrow
      exact ⟨st.tabCap, rfl⟩
  exact ⟨cap, st.hreserved + n, rfl⟩

theorem Store.Ok.get {st : Store} {next : Obj} {log : List Event} (h : st.Ok c next log)
    {id t i : Nat} {nullable : Bool} {o : Obj} (hget : st.get id t nullable = some (some o))
    (hheld : st.Held i o) : handleID (st.tab i).gen i = id ∧ (st.tab i).type = t := by
  unfold Store.get at hget
  split at hget
  · split at hget <;> cases hget
  split at hget
  · cases hget
  rename_i e hlookup
  split at hget
  · cases hget
  rename_i htype
  have hptr : e.ptr = some o := Option.some.inj hget
  have hgen := Store.lookup_gen hlookup
  obtain rfl := Store.lookup_eq hlookup
  obtain rfl := h.inj _ _ o hheld.2 hptr
  refine ⟨?_, not_not.1 htype⟩
  unfold handleID
  omega

theorem Inv.get (h : Inv c s) {f : Fn} {t id : Nat} {o : Option Obj}
    (ht : s.thread = .op f .decode) (hf : f.destroys = some t)
    (hget : s.store.get id t f.nullable = some o) : Inv c { s with thread := .op f (.got id o) } := by
  refine h.move (fun f' id' ob past htarget i hheld => ?_)
    (fun _ _ _ hc => absurd hc (by rw [ht]; nofun)) nofun nofun nofun (.refl rfl) rfl (fun hb => hb)
    le_rfl [] rfl nofun
  cases o with
  | none => cases htarget
  | some ob' =>
    cases htarget
    obtain ⟨hid, htype⟩ := h.store.get hget hheld
    exact ⟨hid, by rw [hf, htype], by simp⟩

theorem Inv.discard (h : Inv c s) {f : Fn} {ok : Bool} (ht : s.thread = .op f .produce) :
    Inv c { s with nextObj := s.nextObj + 1
                   log := .finish s.nextObj ok :: .start s.nextObj :: s.log } := by
  refine h.move (h.target_of_shrinks (.refl rfl) rfl) (fun _ _ _ hc => absurd hc (by rw [ht]; nofun)) h.marked
    ?_ h.bound (.refl rfl) rfl (fun hb => hb) (Nat.le_succ _) [.finish s.nextObj ok, .start s.nextObj] rfl ?_
  · intro o hr
    change s.thread.refused = some o at hr
    rw [ht] at hr
    cases hr
  · intro e he
    have hobj : e.obj = s.nextObj ∧ ∀ o, e ≠ .hook o := by
      rcases List.mem_cons.1 he with rfl | he
      · exact ⟨rfl, by simp⟩
      · rw [List.mem_singleton.1 he]
        exact ⟨rfl, by simp⟩
    refine ⟨hobj.2, fun i hheld => ?_⟩
    have hlt := (h.store.known i _ hheld.2).1
    rw [hobj.1] at hlt
    exact absurd hlt (lt_irrefl _)

theorem Inv.of_step (h : Inv c s) {a : Act} (hstep : (machine c).step s a = some s') : Inv c s' := by
  change Handles.step c s a = some s' at hstep
  unfold Handles.step at hstep
  cases a with
  | submit =>
    obtain ⟨req, -, rfl⟩ := Option.map_eq_some_iff.1 hstep
    exact h.of_req req s.walk
  | receive =>
    dsimp only at hstep
    split at hstep
    · obtain ⟨req, -, rfl⟩ := Option.map_eq_some_iff.1 hstep
      exact h.of_req req s.walk
    · cases hstep
  | refuse =>
    dsimp only at hstep
    split at hstep
    · rename_i hidle
      obtain ⟨req, -, rfl⟩ := Option.map_eq_some_iff.1 hstep
      have hpass : Inv c { s with store := s.store.callEnd, req := req, thread := .idle } := h.pass
      rwa [← hidle.1] at hpass
    · cases hstep
  | stop =>
    dsimp only at hstep
    split at hstep
    · obtain ⟨req, -, rfl⟩ := Option.map_eq_some_iff.1 hstep
      exact h.of_req req s.walk
    · cases hstep
  | dispatch f =>
    dsimp only at hstep
    split at hstep
    · rename_i hidle
      obtain ⟨req, -, rfl⟩ := Option.map_eq_some_iff.1 hstep
      exact h.pass
    · cases hstep
  | reserve n mem =>
    dsimp only at hstep
    split at hstep
    · rename_i f ht
      split at hstep
      · obtain ⟨st, hreserve, rfl⟩ := Option.map_eq_some_iff.1 hstep
        obtain ⟨cap, reserved, rfl⟩ := Store.reserve_spec hreserve
        exact h.pass (m := by rw [ht]; exact ⟨rfl, rfl, rfl, rfl⟩) (b := by simp [ht, Thread.indices])
      · cases hstep
    · cases hstep
  | get id =>
    dsimp only at hstep
    split at hstep
    · rename_i f ht
      split at hstep
      · cases hstep
      · rename_i t hf
        obtain ⟨o, hget, rfl⟩ := Option.map_eq_some_iff.1 hstep
        exact h.get ht hf hget
    · cases hstep
  | call =>
    dsimp only at hstep
    split at hstep
    · rename_i f ht
      split at hstep
      · cases hstep
        exact h.pass
      · cases hstep
    · cases hstep
  | fail =>
    dsimp only at hstep
    split at hstep
    all_goals first
      | (cases hstep; exact h.pass)
      | cases hstep
  | ret ok =>
    dsimp only at hstep
    split at hstep
    · rename_i f id o ht
      cases hstep
      exact h.ret ht
    · rename_i i t o back ht
      cases hstep
      refine h.adapter ht .free _ fun e he => ?_
      obtain ⟨ob, rfl, rfl⟩ := mem_toList_map he
      exact ⟨fun _ => by simp, rfl⟩
    · cases hstep
  | put t parent mem =>
    dsimp only at hstep
    split at hstep
    · rename_i f ht
      split at hstep
      · obtain ⟨⟨st, id⟩, hput, rfl⟩ := Option.map_eq_some_iff.1 hstep
        exact h.put ht hput
      · cases hstep
    · cases hstep
  | discard ok =>
    dsimp only at hstep
    split at hstep
    · rename_i f ht
      cases hstep
      exact h.discard ht
    · cases hstep
  | leave committed =>
    dsimp only at hstep
    split at hstep
    · rename_i f ht
      cases hstep
      exact h.pass
    · cases hstep
  | complete =>
    dsimp only at hstep
    split at hstep
    · rename_i committed ht
      split at hstep
      · obtain ⟨req, -, rfl⟩ := Option.map_eq_some_iff.1 hstep
        exact h.pass
      · cases hstep
    · cases hstep
  | teardown =>
    dsimp only at hstep
    split at hstep
    · rename_i hidle
      cases hstep
      exact h.pass
    · cases hstep
  | proceed => exact h.proceed hstep
  | cancel id =>
    cases hstep
    exact h.of_req _ s.walk
  | round i =>
    dsimp only at hstep
    split at hstep
    · obtain ⟨req, -, rfl⟩ := Option.map_eq_some_iff.1 hstep
      exact h.of_req req _
    · cases hstep
  | visit =>
    dsimp only at hstep
    split at hstep
    · cases hstep
    · cases hstep
      exact h.of_req s.req none
    · rename_i i _
      split at hstep
      · rename_i hhooks
        cases hstep
        exact (h.hook hhooks).of_req s.req _
      · cases hstep
        exact h.of_req s.req _

/-! ## The steps of one destroy -/

/-- What the session thread does from the mark on; `ok` is what the destroy function returns. -/
def destroyActs (c : Iface) (t : Nat) (ok : Bool) : List Act :=
  [.proceed, .proceed] ++ (if c.destroy t then [.ret ok] else []) ++ [.proceed]

/-- With no walk in between, the steps do to the table what `Ledger.entryDestroy` does at once. -/
theorem entryDestroy_store {l : Ledger} {i : Nat} {back : Back} (ok : Bool)
    (hthread : s.thread = .mark i back) (hwalk : s.walk = none) (hstore : s.store = l.store) :
    ∃ s', (machine c).runFrom s (destroyActs c (s.store.tab i).type ok) = some s' ∧
      s'.thread = back.resume ∧ s'.walk = none ∧ s'.store = (l.entryDestroy i).store := by
  unfold destroyActs Ledger.entryDestroy
  rw [← hstore]
  -- a type without a destroy function goes from the mark straight to the free list
  by_cases hdestroy : c.destroy (s.store.tab i).type = true <;>
    simp [Machine.runFrom_cons, machine, step, State.proceed, State.record, hthread, hwalk, hdestroy]

/-- Every interleaving of the session thread with cancel calls. -/
theorem hooks_guarded (h : (machine c).Reachable s) {newer older : List Event} {o : Obj}
    (hlog : s.log = newer ++ .hook o :: older) :
    ∃ t, .put o t ∈ older ∧
      (life o older = .registered ∨ (life o older = .failed ∧ c.retainOnFail t = true)) :=
  have hinv : Inv c s := h.invariant Inv.fresh fun _ _ _ _ hI _ hstep => Inv.of_step hI hstep
  hinv.safe newer older o hlog

theorem hooks_guarded_running :
    ∃ c s, (machine c).Reachable s ∧ s.log = [] ++ [.hook 1, .start 0, .put 1 1, .put 0 1] ∧
      ∃ t, .put 1 t ∈ [.start 0, Event.put 1 1, .put 0 1] ∧
        (life 1 [.start 0, .put 1 1, .put 0 1] = .registered ∨
          (life 1 [.start 0, .put 1 1, .put 0 1] = .failed ∧ c.retainOnFail t = true)) := by
  let c : Iface := ⟨[⟨0, true, true, false⟩], 4, by decide⟩
  -- the walk of the cancel call passes over the entry whose destroy function is running
  obtain ⟨s, hs, hlog⟩ : ∃ s, (machine c).Reachable s ∧
      s.log = [] ++ [.hook 1, .start 0, .put 1 1, .put 0 1] :=
    Machine.exists_reachable [.submit, .submit, .receive, .dispatch ⟨none, false, false⟩,
      .reserve 2 true, .call, .put 1 0 true, .put 1 0 true, .leave true, .complete, .proceed,
      .receive, .dispatch ⟨some 1, false, false⟩, .get 65537, .proceed, .proceed, .proceed,
      .proceed, .proceed, .cancel 2, .round 0, .visit, .visit, .visit] (by decide +kernel)
  exact ⟨c, s, hs, hlog, hooks_guarded hs hlog⟩

end Hqq.Handles
