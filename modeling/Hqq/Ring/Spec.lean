import Hqq.Machine
import Hqq.Word
import Mathlib.Logic.Function.Basic

/-!
# The ring of `internal/mpmc`

Memory, the claim loops and the completing stores of `mpmc.go`, one atomic step at a time. A copy
of a payload takes one step for each of its words. Parking only delays the next step of a thread.
-/

namespace Hqq.Ring

abbrev Elem (V : Type) (width : Nat) := Fin width → V

structure Mem (V : Type) (width : Nat) where
  r : Word
  w : Word
  seq : Nat → Word
  data : Nat → Elem V width

def validRingSize (n : Word) : Bool := decide (2 ≤ n) && (n &&& (n - 1)) == 0

def slot (size pos : Word) : Nat := (pos &&& (size - 1)).toNat

variable {V Tid : Type} {width : Nat}

def formatSlot (zero : V) (m : Mem V width) (i : Nat) : Mem V width :=
  { m with data := Function.update m.data i fun _ => zero, seq := Function.update m.seq i (word i) }

def format (zero : V) (size : Word) (m : Mem V width) : Mem V width :=
  { (List.range size.toNat).foldl (formatSlot zero) m with r := 0, w := 0 }

/-- A ring with nothing in it whose next position is `base`. The slot of each of the next `size`
positions holds the number of that position. -/
structure StartsAt (size : Word) (base : Nat) (m : Mem V width) : Prop where
  r_eq : m.r = word base
  w_eq : m.w = word base
  seq_eq : ∀ i < size.toNat, m.seq ((base + i) % size.toNat) = word (base + i)

def publish (size pos : Word) (m : Mem V width) : Mem V width :=
  { m with seq := Function.update m.seq (slot size pos) (pos + 1) }

def release (size pos : Word) (m : Mem V width) : Mem V width :=
  { m with seq := Function.update m.seq (slot size pos) (pos + (size - 1) + 1) }

/-- `publish` for a claim that callers may have copied: a compare-and-swap. -/
def publishSlot (size pos : Word) (m : Mem V width) : Mem V width × Bool :=
  if m.seq (slot size pos) = pos then (publish size pos m, true) else (m, false)

def releaseSlot (size pos : Word) (m : Mem V width) : Mem V width × Bool :=
  if m.seq (slot size pos) = pos + 1 then (release size pos m, true) else (m, false)

def storeWord (slot : Nat) (i : Fin width) (v : V) (m : Mem V width) : Mem V width :=
  { m with data := Function.update m.data slot (Function.update (m.data slot) i v) }

/-- Where a thread is. `slow` says which of the two loops of a claim it runs: only the slow one
waits. -/
inductive Pc (V : Type) (width : Nat)
  | idle
  /-- `claimProducer`, about to load `w`. -/
  | loadW (slow : Bool) (e : Elem V width)
  /-- About to load the sequence word of `pos`. -/
  | seqW (slow : Bool) (e : Elem V width) (pos : Word)
  /-- Saw the slot free, about to swap `w`. -/
  | casW (slow : Bool) (e : Elem V width) (pos : Word)
  | waitW (e : Elem V width) (pos : Word)
  /-- Owns `pos` and has stored the first `i` words of `e`. -/
  | write (e : Elem V width) (pos : Word) (i : Nat)
  | loadR (slow : Bool)
  | seqR (slow : Bool) (pos : Word)
  | casR (slow : Bool) (pos : Word)
  | waitR (pos : Word)
  /-- Owns `pos` and has loaded the words `got`. -/
  | read (pos : Word) (got : List V)

/-- What happened so far. Positions count from the first claim, without wrap, and no step looks
at any of this. -/
structure History (Tid V : Type) (width : Nat) where
  produced : List (Tid × Word × Elem V width)
  consumed : List (Tid × Word)
  published : List Nat
  /-- The positions that somebody else published for their producer. Nothing in this module does. -/
  recovered : List Nat
  delivered : List (Nat × List V)
  /-- How many claims its side had seen when a thread last loaded the cursor. -/
  loaded : Tid → Nat

structure State (Tid V : Type) (width : Nat) where
  mem : Mem V width
  pc : Tid → Pc V width
  hist : History Tid V width

inductive Act (Tid V : Type) (width : Nat)
  | enqueue (t : Tid) (e : Elem V width)
  | dequeue (t : Tid)
  | next (t : Tid)
  | giveUp (t : Tid)
  | commit (t : Tid)

variable [DecidableEq Tid]

def State.goto (s : State Tid V width) (t : Tid) (pc : Pc V width) : State Tid V width :=
  { s with pc := Function.update s.pc t pc }

/-- The switch of a claim loop over `int64(seq - target)`. -/
def onDiff {α : Type} (seq target : Word) (free taken blocked : α) : α :=
  if (seq - target).toInt = 0 then free else if (seq - target).toInt > 0 then taken else blocked

def History.load (h : History Tid V width) (t : Tid) (n : Nat) : History Tid V width :=
  { h with loaded := Function.update h.loaded t n }

def State.published (s : State Tid V width) (t : Tid) (m : Mem V width) : State Tid V width :=
  { s.goto t .idle with
    mem := m
    hist := { s.hist with published := s.hist.published ++ [s.hist.loaded t] } }

def State.released (s : State Tid V width) (t : Tid) (got : List V) (m : Mem V width) :
    State Tid V width :=
  { s.goto t .idle with
    mem := m
    hist := { s.hist with delivered := s.hist.delivered ++ [(s.hist.loaded t, got)] } }

def next (size : Word) (s : State Tid V width) (t : Tid) : Option (State Tid V width) :=
  match s.pc t with
  | .idle => none
  | .loadW slow e => some
      { s.goto t (.seqW slow e s.mem.w) with hist := s.hist.load t s.hist.produced.length }
  | .seqW slow e pos => some <| s.goto t <|
      onDiff (s.mem.seq (slot size pos)) pos (.casW slow e pos) (.loadW slow e)
        -- A full ring sends the fast loop to the slow one, which looks again and then waits.
        (if slow then .waitW e pos else .seqW true e pos)
  | .casW slow e pos =>
    if s.mem.w = pos then some
      { s.goto t (.write e pos 0) with
        mem := { s.mem with w := pos + 1 }
        hist := { s.hist with produced := s.hist.produced ++ [(t, pos, e)] } }
    else some (s.goto t (.loadW slow e))
  | .waitW e pos => some (s.goto t (.seqW true e pos))
  | .write e pos i =>
    if h : i < width then some
      { s.goto t (.write e pos (i + 1)) with
        mem := storeWord (slot size pos) ⟨i, h⟩ (e ⟨i, h⟩) s.mem }
    else some (s.published t (publish size pos s.mem))
  | .loadR slow => some
      { s.goto t (.seqR slow s.mem.r) with hist := s.hist.load t s.hist.consumed.length }
  | .seqR slow pos => some <| s.goto t <|
      onDiff (s.mem.seq (slot size pos)) (pos + 1) (.casR slow pos) (.loadR slow)
        (if slow then .waitR pos else .seqR true pos)
  | .casR slow pos =>
    if s.mem.r = pos then some
      { s.goto t (.read pos []) with
        mem := { s.mem with r := pos + 1 }
        hist := { s.hist with consumed := s.hist.consumed ++ [(t, pos)] } }
    else some (s.goto t (.loadR slow))
  | .waitR pos => some (s.goto t (.seqR true pos))
  | .read pos got =>
    if h : got.length < width then some <| s.goto t <|
      .read pos (got ++ [s.mem.data (slot size pos) ⟨got.length, h⟩])
    else some (s.released t got (release size pos s.mem))

def step (size : Word) (s : State Tid V width) : Act Tid V width → Option (State Tid V width)
  | .enqueue t e => match s.pc t with
    | .idle => some (s.goto t (.loadW false e))
    | _ => none
  | .dequeue t => match s.pc t with
    | .idle => some (s.goto t (.loadR false))
    | _ => none
  | .next t => next size s t
  | .giveUp t => match s.pc t with
    | .waitW _ _ => some (s.goto t .idle)
    | .waitR _ => some (s.goto t .idle)
    | _ => none
  | .commit t => match s.pc t with
    | .write _ pos i => if i = width then match publishSlot size pos s.mem with
        | (m, true) => some (s.published t m)
        | (_, false) => some (s.goto t .idle)
      else none
    | .read pos got => if got.length = width then match releaseSlot size pos s.mem with
        | (m, true) => some (s.released t got m)
        | (_, false) => some (s.goto t .idle)
      else none
    | _ => none

def machine (Tid : Type) [DecidableEq Tid] (size : Word) (m : Mem V width) :
    Machine (State Tid V width) (Act Tid V width) where
  init := ⟨m, fun _ => .idle, ⟨[], [], [], [], [], fun _ => 0⟩⟩
  step := step size

end Hqq.Ring
