import Hqq.Links

/-!
# The handle table of a C session

Each object has a 32-bit ID made of the index of its entry and the generation of that index.
-/

namespace Hqq.Handles

/-- An object of the library. No two objects are the same, even at one address. -/
abbrev Obj := Nat

structure HandleType where
  owner : Nat
  destroy : Bool
  cancel : Bool
  retainOnFail : Bool

structure Iface where
  types : List HandleType
  maxHandles : Nat
  maxHandles_le : maxHandles ≤ 65535

namespace Iface

variable (c : Iface)

def type? (t : Nat) : Option HandleType := if t = 0 then none else c.types[t - 1]?

def destroy (t : Nat) : Bool := (c.type? t).any (·.destroy)

def cancel (t : Nat) : Bool := (c.type? t).any (·.cancel)

def retainOnFail (t : Nat) : Bool := (c.type? t).any (·.retainOnFail)

def owns (t : Nat) : Bool := c.types.any (·.owner = t)

/-- `children` of `newCGen`: the types whose destroy operation calls
`hqqrpc_handle_destroy_children` first. -/
def children (t : Nat) : Bool := c.cancel t || c.owns t

end Iface

structure Entry where
  ptr : Option Obj
  type : Nat
  parent : Nat
  live : Bool
  gen : Nat
  freeNext : Nat

def Entry.zero : Entry := ⟨none, 0, 0, false, 0, 0⟩

structure Store where
  tab : Nat → Entry
  links : Links
  tabCap : Nat
  highWater : Nat
  freeHead : Nat
  freeCount : Nat
  liveCount : Nat
  hreserved : Nat
  reg : List Nat

def Store.empty : Store := ⟨fun _ => .zero, .empty, 0, 0, 0, 0, 0, 0, []⟩

def handleID (gen idx : Nat) : Nat := gen * 65536 + idx

theorem handleID_mod {gen i : Nat} (hi : i ≤ 65535) : handleID gen i % 65536 = i := by
  unfold handleID
  omega

theorem handleID_div {gen i : Nat} (hi : i ≤ 65535) : handleID gen i / 65536 = gen := by
  unfold handleID
  omega

def growCap (top : Nat) : Nat → Nat → Nat
  | 0, cap => cap
  | n + 1, cap => if cap ≤ top then growCap top n (cap * 2) else cap

namespace Store

variable (c : Iface) (s : Store)

def lookup (id : Nat) : Option Entry :=
  let idx := id % 65536
  let gen := id / 65536
  if idx = 0 ∨ s.highWater < idx then none
  else
    let e := s.tab idx
    if e.live = false ∨ e.gen ≠ gen then none else some e

def get (id type : Nat) (nullable : Bool) : Option (Option Obj) :=
  if id = 0 then if nullable then some none else none
  else
    match s.lookup id with
    | none => none
    | some e => if e.type ≠ type then none else some e.ptr

def grow (top : Nat) (mem : Bool) : Option Store :=
  if top < s.tabCap then some s
  else if mem then
    let cap := growCap top top (if s.tabCap ≠ 0 then s.tabCap else 32)
    some { s with tabCap := min cap (c.maxHandles + 1) }
  else none

def reserve (n : Nat) (mem : Bool) : Option Store :=
  let avail := s.freeCount + (c.maxHandles - s.highWater)
  let want := s.hreserved + n
  if avail < want then none
  else
    let fresh := if s.freeCount < want then want - s.freeCount else 0
    let grown := if fresh ≠ 0 then s.grow c (s.highWater + fresh) mem else some s
    grown.map fun s => { s with hreserved := s.hreserved + n }

def pick : Option (Nat × Store) :=
  if s.freeHead ≠ 0 then
    some (s.freeHead,
      { s with freeHead := (s.tab s.freeHead).freeNext, freeCount := s.freeCount - 1 })
  else if c.maxHandles ≤ s.highWater ∨ s.tabCap ≤ s.highWater + 1 then none
  else
    let idx := s.highWater + 1
    some (idx,
      { s with highWater := idx, tab := Function.update s.tab idx { s.tab idx with gen := 1 } })

/-- `hqqrpc_handle_put`: the entry is filled in, goes to the end of the live list and its ID
to `reg`. `mem` says whether `reg` had room or could grow. -/
def put (type : Nat) (o : Obj) (parent : Nat) (mem : Bool) : Option (Store × Nat) :=
  if s.hreserved = 0 ∨ type = 0 ∨ c.types.length < type then none
  else if parent ≠ 0 ∧ s.lookup parent = none then none
  else if mem = false then none
  else
    match s.pick c with
    | none => none
    | some (idx, s) =>
      let e : Entry := ⟨some o, type, parent, true, (s.tab idx).gen, 0⟩
      let id := handleID e.gen idx
      some ({ s with
        tab := Function.update s.tab idx e
        links := s.links.append idx
        liveCount := s.liveCount + 1
        hreserved := s.hreserved - 1
        reg := id :: s.reg }, id)

def entryFree (idx : Nat) : Store :=
  let e := s.tab idx
  { s with
    tab := Function.update s.tab idx
      { ptr := none, type := 0, parent := 0, live := false,
        gen := if e.gen = 65535 then 1 else e.gen + 1, freeNext := s.freeHead }
    links := s.links.unlink idx
    freeHead := idx
    freeCount := s.freeCount + 1
    liveCount := s.liveCount - 1 }

def consume (id : Nat) : Store :=
  if (s.lookup id).isSome then s.entryFree (id % 65536) else s

def mark (idx : Nat) : Store :=
  { s with tab := Function.update s.tab idx { s.tab idx with live := false } }

def reaches (root : Nat) : Nat → Nat → Bool
  | 0, _ => false
  | n + 1, pid =>
    if pid = 0 then false
    else if pid = root then true
    else
      match s.lookup pid with
      | none => false
      | some e => reaches root n e.parent

def isDescendant (idx root : Nat) : Bool :=
  s.reaches root (c.types.length + 1) (s.tab idx).parent

def callEnd : Store := { s with hreserved := 0, reg := [] }

end Store

end Hqq.Handles
