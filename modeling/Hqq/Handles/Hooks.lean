import Hqq.Handles.Table
import Hqq.Session.Cancel

/-!
# Cancel hooks beside destroy functions

The session thread runs operations, ends calls and tears down. A round of
`hqqrpc_session_cancel` on another thread holds `cancel_mu` while it walks the live list and
calls hooks. A log records what happened to each object.
-/

namespace Hqq.Handles

inductive Event where
  | put (o : Obj) (t : Nat)
  | start (o : Obj)
  | finish (o : Obj) (ok : Bool)
  | consumed (o : Obj)
  | hook (o : Obj)
  deriving DecidableEq

def Event.obj : Event → Obj
  | .put o _ | .start o | .finish o _ | .consumed o | .hook o => o

inductive Life where
  | unknown
  | registered
  | started
  | failed
  | destroyed
  | consumed
  deriving DecidableEq

def Event.apply (e : Event) (l : Life) : Life :=
  match e with
  | .put _ _ => .registered
  | .start _ => .started
  | .finish _ ok => if ok then .destroyed else .failed
  | .consumed _ => .consumed
  | .hook _ => l

/-- What has become of an object; the log has the newest event first. -/
def life (o : Obj) : List Event → Life
  | [] => .unknown
  | e :: log => if e.obj = o then e.apply (life o log) else life o log

structure Fn where
  destroys : Option Nat
  nullable : Bool
  void : Bool
  deriving DecidableEq

inductive Stage where
  | decode
  | got (id : Nat) (o : Option Obj)
  | cascade (id : Nat) (o : Option Obj) (i : Nat)
  | ready (id : Nat) (o : Option Obj)
  | called (id : Nat) (o : Option Obj)
  | post (id : Nat) (o : Option Obj) (ok : Bool)
  | produce
  deriving DecidableEq

inductive Back where
  | cascade (f : Fn) (id : Nat) (o : Option Obj) (i : Nat)
  | rollback
  | teardown
  deriving DecidableEq

inductive Work where
  | adapter
  | running
  | free
  deriving DecidableEq

inductive Thread where
  | idle
  | op (f : Fn) (stage : Stage)
  | mark (i : Nat) (back : Back)
  | destroying (i type : Nat) (ptr : Option Obj) (work : Work) (back : Back)
  | returned (committed : Bool)
  | ending (rollback : Bool)
  | rollback
  | teardown
  | torn
  deriving DecidableEq

structure State where
  req : Session.State
  store : Store
  destroyID : Nat
  thread : Thread
  walk : Option Nat
  nextObj : Obj
  log : List Event

def State.fresh : State := ⟨.fresh, .empty, 0, .idle, none, 0, []⟩

def Back.resume : Back → Thread
  | .cascade f id o i => .op f (.cascade id o i)
  | .rollback => .rollback
  | .teardown => .teardown

/-! ## The session thread -/

variable (c : Iface)

def Fn.cascades (f : Fn) (id : Nat) : Bool := f.destroys.any c.children && id != 0

def Fn.consumes (f : Fn) (id : Nat) (ok : Bool) : Bool :=
  f.destroys.isSome && id != 0 && (f.void || !f.destroys.any c.retainOnFail || ok)

def State.record (s : State) (o : Option Obj) (e : Obj → Event) : State :=
  { s with log := (o.map e).toList ++ s.log }

def State.proceed (s : State) : Option State :=
  match s.thread with
  | .op f (.got id o) =>
    if f.cascades c id ∧ (s.store.lookup id).isSome then
      if s.walk = none then
        some { s with destroyID := id, thread := .op f (.cascade id o s.store.links.tail) }
      else none
    else some { s with thread := .op f (.ready id o) }
  | .op f (.cascade id o i) =>
    if i = 0 then some { s with thread := .op f (.ready id o) }
    else
      let i' := s.store.links.prev i
      if s.store.isDescendant c i id then some { s with thread := .mark i (.cascade f id o i') }
      else some { s with thread := .op f (.cascade id o i') }
  -- the library call
  | .op f (.ready id o) => some ({ s with thread := .op f (.called id o) }.record o .start)
  | .op f (.post id _ ok) =>
    if f.consumes c id ok then
      if s.walk = none then
        let s' := { s with store := s.store.consume id, thread := .op f .produce }
        some (s'.record ((s.store.lookup id).bind (·.ptr)) .consumed)
      else none
    else some { s with thread := .op f .produce }
  | .mark i back =>
    if s.walk = none then
      let e := s.store.tab i
      some { s with store := s.store.mark i, thread := .destroying i e.type e.ptr .adapter back }
    else none
  | .destroying i t o .adapter back =>
    if c.destroy t then
      some ({ s with thread := .destroying i t o .running back }.record o .start)
    else some { s with thread := .destroying i t o .free back }
  | .destroying i _ o .free back =>
    if s.walk = none then
      some ({ s with store := s.store.entryFree i, thread := back.resume }.record o .consumed)
    else none
  | .ending rollback =>
    if s.destroyID = 0 ∨ s.walk = none then
      let s := { s with destroyID := 0 }
      if rollback then some { s with thread := .rollback }
      else some { s with store := s.store.callEnd, thread := .idle }
    else none
  | .rollback =>
    match s.store.reg with
    | [] => some { s with store := s.store.callEnd, thread := .idle }
    | id :: reg =>
      let s' := { s with store := { s.store with reg := reg } }
      if (s.store.lookup id).isSome then some { s' with thread := .mark (id % 65536) .rollback }
      else some s'
  | .teardown =>
    if s.store.links.tail = 0 then some { s with thread := .torn }
    else some { s with thread := .mark s.store.links.tail .teardown }
  | _ => none

inductive Act where
  | submit
  | receive
  | refuse
  | stop
  | dispatch (f : Fn)
  | reserve (n : Nat) (mem : Bool)
  | get (id : Nat)
  | call
  | fail
  | ret (ok : Bool)
  | put (type parent : Nat) (mem : Bool)
  | discard (ok : Bool)
  | leave (committed : Bool)
  | complete
  | teardown
  | proceed
  | cancel (id : Session.ReqID)
  | round (i : Nat)
  | visit
  deriving DecidableEq

def State.hooks (s : State) (i : Nat) : Bool :=
  let e := s.store.tab i
  e.live && handleID e.gen i != s.destroyID && c.cancel e.type

def step (s : State) : Act → Option State
  | .submit => (Session.step s.req .submit).map fun req => { s with req := req }
  | .receive =>
    if s.thread = .idle then (Session.step s.req .receive).map fun req => { s with req := req }
    else none
  -- finish_call or answer_without_call: the call state is empty
  | .refuse =>
    if s.thread = .idle ∧ s.walk = none then
      (Session.step s.req .refuse).map fun req => { s with req := req, store := s.store.callEnd }
    else none
  | .stop =>
    if s.walk = none then (Session.step s.req .finish).map fun req => { s with req := req } else none
  -- run_request
  | .dispatch f =>
    if s.thread = .idle ∧ s.walk = none then
      (Session.step s.req .dispatch).map fun req =>
        { s with req := req, store := s.store.callEnd, thread := .op f .decode }
    else none
  | .reserve n mem =>
    match s.thread with
    | .op _ .decode =>
      if s.walk = none then (s.store.reserve c n mem).map fun st => { s with store := st } else none
    | _ => none
  | .get id =>
    match s.thread with
    | .op f .decode =>
      match f.destroys with
      | none => none
      | some t => (s.store.get id t f.nullable).map fun o => { s with thread := .op f (.got id o) }
    | _ => none
  | .call =>
    match s.thread with
    | .op f .decode => if f.destroys = none then some { s with thread := .op f .produce } else none
    | _ => none
  | .fail =>
    match s.thread with
    | .op _ .decode | .op _ (.got _ _) | .op _ (.ready _ _) => some { s with thread := .returned false }
    | _ => none
  | .ret ok =>
    match s.thread with
    | .op f (.called id o) =>
      some ({ s with thread := .op f (.post id o ok) }.record o (.finish · ok))
    | .destroying i t o .running back =>
      some ({ s with thread := .destroying i t o .free back }.record o (.finish · ok))
    | _ => none
  | .put t parent mem =>
    match s.thread with
    | .op _ .produce =>
      if s.walk = none then
        (s.store.put c t s.nextObj parent mem).map fun (st, _) =>
          { s with store := st, nextObj := s.nextObj + 1, log := .put s.nextObj t :: s.log }
      else none
    | _ => none
  | .discard ok =>
    match s.thread with
    | .op _ .produce =>
      some { s with nextObj := s.nextObj + 1
                    log := .finish s.nextObj ok :: .start s.nextObj :: s.log }
    | _ => none
  | .leave committed =>
    match s.thread with
    | .op _ .produce => some { s with thread := .returned committed }
    | _ => none
  | .complete =>
    match s.thread with
    | .returned committed =>
      if s.walk = none then
        (Session.step s.req .complete).map fun req =>
          { s with req := req, thread := .ending (!committed && !s.req.ended) }
      else none
    | _ => none
  -- hqqrpc_session_finish
  | .teardown =>
    if s.thread = .idle ∧ s.walk = none then
      some { s with req := { s.req with ended := true }, thread := .teardown }
    else none
  | .proceed => s.proceed c
  | .cancel id =>
    some { s with req := { s.req with
      cancels := s.req.cancels ++ [⟨s.req.submitted, id, 0, 0, false⟩] } }
  | .round i =>
    if s.walk = none then
      (Session.step s.req (.round i)).map fun req =>
        { s with req := req
                 walk := if req.hooks.length = s.req.hooks.length then none
                         else some s.store.links.head }
    else none
  | .visit =>
    match s.walk with
    | none => none
    | some 0 => some { s with walk := none }
    | some (i + 1) =>
      let s' := { s with walk := some (s.store.links.next (i + 1)) }
      if s.hooks c (i + 1) then some (s'.record (s.store.tab (i + 1)).ptr .hook) else some s'

def machine : Machine State Act where
  init := .fresh
  step := step c

/-! ## What the log may say -/

def Good (log : List Event) (t : Nat) (o : Obj) : Prop :=
  life o log = .registered ∨ (life o log = .failed ∧ c.retainOnFail t = true)

/-- Every hook in the log was called on an object that was registered and whose destroy had
not started, or had failed and left it in the table. -/
def Safe (log : List Event) : Prop :=
  ∀ newer older o, log = newer ++ .hook o :: older → ∃ t, .put o t ∈ older ∧ Good c older t o

theorem life_append {o : Obj} {es log : List Event} (h : ∀ e ∈ es, e.obj ≠ o) :
    life o (es ++ log) = life o log := by
  induction es with
  | nil => rfl
  | cons e es ih =>
    rw [List.cons_append, life, if_neg (h e (by simp)), ih fun e he => h e (by simp [he])]

theorem life_hook (o o' : Obj) (log : List Event) : life o (.hook o' :: log) = life o log := by
  simp only [life, Event.apply, ite_self]

variable {c}

theorem Safe.append {es log : List Event} (h : Safe c log) (hes : ∀ e ∈ es, ∀ o, e ≠ .hook o) :
    Safe c (es ++ log) := by
  intro newer older o hlog
  obtain ⟨as, hn, hl⟩ | ⟨bs, he, hl⟩ := List.append_eq_append_iff.1 hlog
  · exact h as older o hl
  · cases bs with
    | nil => exact h [] older o (by simpa using hl.symm)
    | cons b bs =>
      obtain ⟨rfl, -⟩ := List.cons.inj hl
      exact absurd rfl (hes _ (by simp [he]) o)

theorem Safe.hook {log : List Event} {o : Obj} {t : Nat} (h : Safe c log) (hput : .put o t ∈ log)
    (hgood : Good c log t o) : Safe c (.hook o :: log) := by
  intro newer older o' hlog
  cases newer with
  | nil =>
    obtain ⟨heq, rfl⟩ := List.cons.inj hlog
    cases heq
    exact ⟨t, hput, hgood⟩
  | cons e newer => exact h newer older o' (List.cons.inj hlog).2

def Store.Held (s : Store) (i : Nat) (o : Obj) : Prop :=
  (s.tab i).live = true ∧ (s.tab i).ptr = some o

structure Store.Bounded (s : Store) : Prop where
  freeHead : s.freeHead ≤ s.highWater
  freeNext : ∀ i, (s.tab i).freeNext ≤ s.highWater
  links : s.links.Below s.highWater

structure Store.Ok (c : Iface) (s : Store) (next : Obj) (log : List Event) : Prop where
  inj : ∀ i j o, (s.tab i).ptr = some o → (s.tab j).ptr = some o → i = j
  range : ∀ i o, (s.tab i).ptr = some o → 0 < i ∧ i ≤ s.highWater
  high : s.highWater ≤ c.maxHandles
  bounded : s.Bounded
  known : ∀ i o, (s.tab i).ptr = some o → o < next ∧ .put o (s.tab i).type ∈ log

def Back.indices : Back → List Nat
  | .cascade _ _ _ i => [i]
  | _ => []

namespace Thread

def indices : Thread → List Nat
  | .op _ (.cascade _ _ i) => [i]
  | .mark i back | .destroying i _ _ _ back => i :: back.indices
  | _ => []

/-- The handle that the operation destroys, and whether the cascade is behind it. -/
def target : Thread → Option (Fn × Nat × Obj × Bool)
  | .op f (.got id (some o)) => some (f, id, o, false)
  | .op f (.cascade id (some o) _) => some (f, id, o, true)
  | .op f (.ready id (some o)) => some (f, id, o, true)
  | .op f (.called id (some o)) => some (f, id, o, true)
  | .op f (.post id (some o) _) => some (f, id, o, true)
  | .mark _ (.cascade f id (some o) _) => some (f, id, o, true)
  | .destroying _ _ _ _ (.cascade f id (some o) _) => some (f, id, o, true)
  | _ => none

def calling : Thread → Option Obj
  | .op _ (.called _ o) => o
  | .op _ (.post _ o _) => o
  | _ => none

def marked : Thread → Option (Nat × Option Obj)
  | .destroying i _ o _ _ => some (i, o)
  | _ => none

def refused : Thread → Option Obj
  | .op _ (.post _ o false) => o
  | _ => none

end Thread

structure Inv (c : Iface) (s : State) : Prop where
  store : s.store.Ok c s.nextObj s.log
  clear : ∀ i o, s.store.Held i o → s.thread.calling ≠ some o →
    Good c s.log (s.store.tab i).type o
  target : ∀ f id o past, s.thread.target = some (f, id, o, past) → ∀ i, s.store.Held i o →
    handleID (s.store.tab i).gen i = id ∧ f.destroys = some (s.store.tab i).type ∧
      (past = true → c.cancel (s.store.tab i).type = true → s.destroyID = id)
  marked : ∀ i o, s.thread.marked = some (i, o) →
    (s.store.tab i).live = false ∧ (s.store.tab i).ptr = o
  refused : ∀ o, s.thread.refused = some o → life o s.log = .failed
  bound : ∀ i ∈ s.thread.indices, i ≤ s.store.highWater
  safe : Safe c s.log

theorem Inv.fresh : Inv c .fresh where
  store :=
    ⟨fun _ _ _ h => (by cases h), fun _ _ h => (by cases h), Nat.zero_le _,
      ⟨le_rfl, fun _ => le_rfl, ⟨le_rfl, le_rfl, fun _ => le_rfl, fun _ => le_rfl⟩⟩,
      fun _ _ h => (by cases h)⟩
  clear := fun _ _ h => by cases h.2
  target := fun _ _ _ _ h => by cases h
  marked := fun _ _ h => by cases h
  refused := fun _ h => by cases h
  bound := fun _ h => by cases h
  safe := fun newer _ _ h => by cases newer <;> cases h

variable {s s' : State}

theorem Store.Ok.lookup {st : Store} {next : Obj} {log : List Event} {i : Nat} {o : Obj}
    (h : st.Ok c next log) (hheld : st.Held i o) :
    st.lookup (handleID (st.tab i).gen i) = some (st.tab i) := by
  obtain ⟨hpos, hle⟩ := h.range i o hheld.2
  have hi : i ≤ 65535 := hle.trans (h.high.trans c.maxHandles_le)
  unfold Store.lookup
  simp only [handleID_mod hi, handleID_div hi]
  rw [if_neg (by omega), if_neg (by simp [hheld.1])]

def Store.Shrinks (s s' : Store) : Prop :=
  ∀ i o, (s'.tab i).ptr = some o → (s.tab i).ptr = some o ∧ (s'.tab i).type = (s.tab i).type ∧
    (s'.tab i).gen = (s.tab i).gen ∧ ((s'.tab i).live = true → (s.tab i).live = true)

theorem Store.Shrinks.refl {st st' : Store} (h : st'.tab = st.tab) : st.Shrinks st' := by
  intro i o hptr
  rw [h] at hptr ⊢
  exact ⟨hptr, rfl, rfl, id⟩

theorem Store.Shrinks.held {st st' : Store} {i : Nat} {o : Obj} (h : st.Shrinks st')
    (hheld : st'.Held i o) :
    st.Held i o ∧ (st'.tab i).type = (st.tab i).type ∧ (st'.tab i).gen = (st.tab i).gen :=
  have hi := h i o hheld.2
  ⟨⟨hi.2.2.2 hheld.1, hi.1⟩, hi.2.1, hi.2.2.1⟩

theorem Store.shrinks_mark (st : Store) (i : Nat) : st.Shrinks (st.mark i) := by
  intro j o hptr
  obtain rfl | hj := eq_or_ne j i
  · have heq : (st.mark j).tab j = { st.tab j with live := false } := Function.update_self ..
    rw [heq] at hptr ⊢
    exact ⟨hptr, rfl, rfl, by simp⟩
  · have heq : (st.mark i).tab j = st.tab j := Function.update_of_ne hj ..
    rw [heq] at hptr ⊢
    exact ⟨hptr, rfl, rfl, id⟩

theorem Store.entryFree_ptr {st : Store} {i j : Nat} {o : Obj}
    (h : ((st.entryFree i).tab j).ptr = some o) :
    j ≠ i ∧ (st.entryFree i).tab j = st.tab j := by
  obtain rfl | hj := eq_or_ne j i
  · simp only [Store.entryFree, Function.update_self] at h
    cases h
  · exact ⟨hj, by simp only [Store.entryFree, Function.update_of_ne hj]⟩

theorem Store.shrinks_entryFree (st : Store) (i : Nat) : st.Shrinks (st.entryFree i) := by
  intro j o hptr
  obtain ⟨-, heq⟩ := Store.entryFree_ptr hptr
  rw [heq] at hptr ⊢
  exact ⟨hptr, rfl, rfl, id⟩

theorem Store.shrinks_consume (st : Store) (id : Nat) : st.Shrinks (st.consume id) := by
  unfold Store.consume
  split
  · exact st.shrinks_entryFree _
  · exact .refl rfl

theorem Store.Bounded.mark {st : Store} (h : st.Bounded) (i : Nat) : (st.mark i).Bounded := by
  refine ⟨h.freeHead, fun j => ?_, h.links⟩
  obtain rfl | hj := eq_or_ne j i
  · simpa only [Store.mark, Function.update_self] using h.freeNext j
  · simpa only [Store.mark, Function.update_of_ne hj] using h.freeNext j

theorem Store.Bounded.entryFree {st : Store} (h : st.Bounded) {i : Nat} (hi : i ≤ st.highWater) :
    (st.entryFree i).Bounded := by
  refine ⟨hi, fun j => ?_, h.links.unlink i⟩
  obtain rfl | hj := eq_or_ne j i
  · simpa only [Store.entryFree, Function.update_self] using h.freeHead
  · simpa only [Store.entryFree, Function.update_of_ne hj] using h.freeNext j

theorem Store.lookup_le {st : Store} {id : Nat} (h : (st.lookup id).isSome = true) :
    id % 65536 ≤ st.highWater := by
  unfold Store.lookup at h
  by_contra hlt
  rw [if_pos (Or.inr (by omega))] at h
  cases h

theorem Store.Bounded.consume {st : Store} (h : st.Bounded) (id : Nat) : (st.consume id).Bounded := by
  unfold Store.consume
  split
  · exact h.entryFree (Store.lookup_le ‹_›)
  · exact h

theorem Store.highWater_consume (st : Store) (id : Nat) :
    (st.consume id).highWater = st.highWater := by
  unfold Store.consume
  split <;> rfl

theorem Store.lookup_eq {st : Store} {id : Nat} {e : Entry} (h : st.lookup id = some e) :
    e = st.tab (id % 65536) := by
  simp only [Store.lookup] at h
  split at h
  · cases h
  split at h
  · cases h
  exact (Option.some.inj h).symm

theorem Store.lookup_gen {st : Store} {id : Nat} {e : Entry} (h : st.lookup id = some e) :
    e.gen = id / 65536 := by
  simp only [Store.lookup] at h
  split at h
  · cases h
  split at h
  · cases h
  rename_i hlive
  cases h
  exact not_not.1 fun hne => hlive (.inr hne)

theorem Store.consume_ptr {st : Store} {id j : Nat} {o : Obj} {e : Entry}
    (hlookup : st.lookup id = some e) (h : ((st.consume id).tab j).ptr = some o) :
    j ≠ id % 65536 ∧ (st.consume id).tab j = st.tab j := by
  unfold Store.consume at h ⊢
  rw [hlookup] at h ⊢
  exact Store.entryFree_ptr h

/-- A step that registers nothing and calls no hook keeps the invariant. -/
theorem Inv.move (h : Inv c s)
    (htarget : ∀ f id o past, s'.thread.target = some (f, id, o, past) →
      ∀ i, s'.store.Held i o →
        handleID (s'.store.tab i).gen i = id ∧ f.destroys = some (s'.store.tab i).type ∧
          (past = true → c.cancel (s'.store.tab i).type = true → s'.destroyID = id))
    (hcall : ∀ i o, s'.store.Held i o → s.thread.calling = some o → s'.thread.calling ≠ some o →
      Good c s'.log (s'.store.tab i).type o)
    (hmarked : ∀ i o, s'.thread.marked = some (i, o) →
      (s'.store.tab i).live = false ∧ (s'.store.tab i).ptr = o)
    (hrefused : ∀ o, s'.thread.refused = some o → life o s'.log = .failed)
    (hbound : ∀ i ∈ s'.thread.indices, i ≤ s.store.highWater) (hshrinks : s.store.Shrinks s'.store)
    (hhigh : s'.store.highWater = s.store.highWater) (hbounded : s.store.Bounded → s'.store.Bounded)
    (hnext : s.nextObj ≤ s'.nextObj) (es : List Event) (hlog : s'.log = es ++ s.log)
    (hes : ∀ e ∈ es, (∀ o, e ≠ .hook o) ∧
      ∀ i, s'.store.Held i e.obj → s'.thread.calling = some e.obj) : Inv c s' where
  store :=
    { inj := fun i j o hi hj => h.store.inj i j o (hshrinks i o hi).1 (hshrinks j o hj).1
      range := fun i o hi => by rw [hhigh]; exact h.store.range i o (hshrinks i o hi).1
      high := by rw [hhigh]; exact h.store.high
      bounded := hbounded h.store.bounded
      known := fun i o hi => by
        obtain ⟨hold, htype, -⟩ := hshrinks i o hi
        obtain ⟨hlt, hput⟩ := h.store.known i o hold
        rw [htype, hlog]
        exact ⟨hlt.trans_le hnext, List.mem_append_right _ hput⟩ }
  clear := by
    intro i o hheld hne
    by_cases hcalling : s.thread.calling = some o
    · exact hcall i o hheld hcalling hne
    · obtain ⟨hold, htype, -⟩ := hshrinks.held hheld
      have hgood := h.clear i o hold hcalling
      -- no event is about the object
      have hlife : life o s'.log = life o s.log := by
        rw [hlog]
        refine life_append fun e he heq => ?_
        subst heq
        exact hne ((hes e he).2 i hheld)
      unfold Good at hgood ⊢
      rwa [hlife, htype]
  target := htarget
  marked := hmarked
  refused := hrefused
  bound := fun i hi => hhigh ▸ hbound i hi
  safe := hlog ▸ h.safe.append fun e he => (hes e he).1

structure Thread.Calm (t : Thread) : Prop where
  target : t.target = none
  calling : t.calling = none
  marked : t.marked = none
  refused : t.refused = none

theorem Inv.pass (h : Inv c s) (d : s.thread.calling = none := by simp only [*]; rfl)
    (m : s'.thread.Calm := by exact ⟨rfl, rfl, rfl, rfl⟩)
    (b : ∀ i ∈ s'.thread.indices, i ≤ s.store.highWater := by exact fun _ hi => by cases hi)
    (t : s'.store.tab = s.store.tab := by rfl) (k : s'.store.links = s.store.links := by rfl)
    (f : s'.store.freeHead = s.store.freeHead := by rfl)
    (g : s'.store.highWater = s.store.highWater := by rfl) (n : s'.nextObj = s.nextObj := by rfl)
    (l : s'.log = s.log := by rfl) : Inv c s' := by
  refine h.move (fun f id o past ht => ?_) (fun i o _ hold => ?_) (fun i o ht => ?_) (fun o ht => ?_) b
    (.refl t) g (fun hb => ⟨?_, ?_, ?_⟩) n.ge [] l nofun
  · rw [m.target] at ht
    cases ht
  · rw [d] at hold
    cases hold
  · rw [m.marked] at ht
    cases ht
  · rw [m.refused] at ht
    cases ht
  · rw [f, g]
    exact hb.freeHead
  · rw [t, g]
    exact hb.freeNext
  · rw [k, g]
    exact hb.links

end Hqq.Handles
