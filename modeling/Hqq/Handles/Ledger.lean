import Hqq.Handles.Table
import Hqq.Machine
import Mathlib.Data.List.Count

/-!
# What the operations of a session do to the handle table

A log records under which ID, type and parent each object was registered and when it left the
table.
-/

namespace Hqq.Handles

structure Reg where
  id : Nat
  type : Nat
  parent : Nat
  obj : Obj
  deriving DecidableEq

inductive Ev where
  | put (r : Reg)
  | destroyed (id : Nat) (o : Obj)
  | consumed (id : Nat) (o : Obj)
  deriving DecidableEq

namespace Ev

def id : Ev → Nat
  | .put r => r.id
  | .destroyed id _ | .consumed id _ => id

def obj : Ev → Obj
  | .put r => r.obj
  | .destroyed _ o | .consumed _ o => o

def frees : Ev → Bool
  | .put _ => false
  | .destroyed _ _ | .consumed _ _ => true

def reg : Ev → Option Reg
  | .put r => some r
  | .destroyed _ _ | .consumed _ _ => none

end Ev

/-- What index `i` holds; the log has the newest event first. -/
def current (i : Nat) : List Ev → Option Reg
  | [] => none
  | e :: log => if e.id % 65536 = i then e.reg else current i log

def frees (i : Nat) (log : List Ev) : Nat := log.countP fun e => e.frees && e.id % 65536 == i

structure Ledger where
  store : Store
  nextObj : Obj
  log : List Ev

namespace Ledger

def empty : Ledger := ⟨.empty, 0, []⟩

variable (c : Iface) (s : Ledger)

def entryDestroy (i : Nat) : Ledger :=
  let e := s.store.tab i
  { s with
    store := (s.store.mark i).entryFree i
    log := (e.ptr.map (.destroyed (handleID e.gen i))).toList ++ s.log }

def consume (id : Nat) : Ledger :=
  { s with
    store := s.store.consume id
    log := (((s.store.lookup id).bind (·.ptr)).map (.consumed id)).toList ++ s.log }

def destroyWalk (root : Nat) : Nat → Nat → Ledger → Ledger
  | 0, _, s => s
  | n + 1, i, s =>
    if i = 0 then s
    else
      let prev := s.store.links.prev i
      destroyWalk root n prev (if s.store.isDescendant c i root then s.entryDestroy i else s)

def destroyChildren (id : Nat) : Ledger :=
  if s.store.lookup id = none then s
  else destroyWalk c id s.store.highWater s.store.links.tail s

def destroyAll : Nat → Ledger → Ledger
  | 0, s => s
  | n + 1, s =>
    if s.store.links.tail = 0 then s else destroyAll n (s.entryDestroy s.store.links.tail)

def rollback : List Nat → Ledger → Ledger
  | [], s => s
  | id :: reg, s =>
    rollback reg (if (s.store.lookup id).isSome then s.entryDestroy (id % 65536) else s)

def callEnd (roll : Bool) : Ledger :=
  let s := if roll then rollback s.store.reg s else s
  { s with store := s.store.callEnd }

def put (type parent : Nat) (mem : Bool) : Option Ledger :=
  (s.store.put c type s.nextObj parent mem).map fun (st, id) =>
    ⟨st, s.nextObj + 1, .put ⟨id, type, parent, s.nextObj⟩ :: s.log⟩

end Ledger

inductive Op where
  | reserve (n : Nat) (mem : Bool)
  | put (type parent : Nat) (mem : Bool)
  | consume (id : Nat)
  | destroyChildren (id : Nat)
  | callEnd (roll : Bool)
  | teardown
  deriving DecidableEq

def Ledger.apply (c : Iface) (s : Ledger) : Op → Ledger
  | .reserve n mem =>
    match s.store.reserve c n mem with
    | some st => { s with store := st }
    | none => s
  | .put type parent mem => (s.put c type parent mem).getD s
  | .consume id => s.consume id
  | .destroyChildren id => s.destroyChildren c id
  | .callEnd roll => s.callEnd roll
  | .teardown => Ledger.destroyAll s.store.highWater s

def ledgerMachine (c : Iface) : Machine Ledger Op where
  init := .empty
  step s a := some (s.apply c a)

end Hqq.Handles
