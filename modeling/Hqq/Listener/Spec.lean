import Hqq.Ring.Spec

/-!
# The connect ring of a listener

Clients enqueue connect records (`connectOnce`), one goroutine of the acceptor dequeues them
(`dispatch`), and another one publishes a slot for a client that claimed it and does not finish
(`recoverStuckSlot`).
-/

namespace Hqq.Listener

open Hqq.Ring (Mem Elem History Pc)

variable {Cid V Req : Type} {width : Nat}

/-- Where `recoverStuckSlot` is. Every case knows the time that the ticker gave it. -/
inductive Sweep
  | idle
  | loadW (since : Nat) (r : Word)
  | loadSeq (since : Nat) (r w : Word)
  | swap (r : Word)
  deriving DecidableEq

/-- `none` is the dispatcher, and `some c` is the client `c`. -/
structure State (Cid V : Type) (width : Nat) where
  ring : Ring.State (Option Cid) V width
  sweep : Sweep
  stuckSeen : Bool
  stuckPos : Word
  stuckSince : Nat
  stuckSlots : Nat
  clock : Nat
  dead : Cid → Bool
  /-- How many records were claimed when the sweep loaded `r`. No step looks at this. -/
  sweptAt : Nat

inductive Act (Cid V Req : Type) (width : Nat)
  /-- A client starts to enqueue the record `e` of its request `q`. -/
  | connect (c : Cid) (q : Req) (e : Elem V width)
  | client (c : Cid)
  | giveUp (c : Cid)
  | kill (c : Cid)
  | dispatch
  | tick
  | sweep

structure Setup (V Req : Type) (width : Nat) where
  size : Word
  /-- In ticks. Not positive: no recovery. -/
  stuckSlotTimeout : Int
  conforming : Req → Elem V width → Bool

variable [DecidableEq Cid]

def State.onRing (cfg : Setup V Req width) (s : State Cid V width)
    (a : Ring.Act (Option Cid) V width) : Option (State Cid V width) :=
  (Ring.step cfg.size s.ring a).map fun ring => { s with ring }

def State.recovered (cfg : Setup V Req width) (s : State Cid V width) (r : Word) :
    State Cid V width :=
  { s with
    ring := { s.ring with
      mem := Ring.publish cfg.size r s.ring.mem
      hist := { s.ring.hist with recovered := s.ring.hist.recovered ++ [s.sweptAt] } }
    sweep := .idle
    stuckSeen := false
    stuckSlots := s.stuckSlots + 1 }

def sweepNext (cfg : Setup V Req width) (s : State Cid V width) : Option (State Cid V width) :=
  match s.sweep with
  | .idle =>
    if cfg.stuckSlotTimeout ≤ 0 then none
    else some { s with
      sweep := .loadW s.clock s.ring.mem.r
      sweptAt := s.ring.hist.consumed.length }
  | .loadW now r => some { s with sweep := .loadSeq now r s.ring.mem.w }
  | .loadSeq now r w =>
    if (w - r).toInt ≤ 0 ∨ s.ring.mem.seq (Ring.slot cfg.size r) ≠ r then
      some { s with sweep := .idle, stuckSeen := false }
    else if !s.stuckSeen ∨ s.stuckPos ≠ r then
      some { s with sweep := .idle, stuckSeen := true, stuckPos := r, stuckSince := now }
    else if (now : Int) - s.stuckSince < cfg.stuckSlotTimeout then some { s with sweep := .idle }
    else some { s with sweep := .swap r }
  | .swap r =>
    if s.ring.mem.seq (Ring.slot cfg.size r) = r then some (s.recovered cfg r)
    else some { s with sweep := .idle, stuckSeen := false }

def step (cfg : Setup V Req width) (s : State Cid V width) :
    Act Cid V Req width → Option (State Cid V width)
  | .connect c q e =>
    if s.dead c || !cfg.conforming q e then none else s.onRing cfg (.enqueue (some c) e)
  | .client c => if s.dead c then none else s.onRing cfg (.next (some c))
  | .giveUp c => if s.dead c then none else s.onRing cfg (.giveUp (some c))
  | .kill c => some { s with dead := Function.update s.dead c true }
  | .dispatch => match s.ring.pc none with
    | .idle => s.onRing cfg (.dequeue none)
    | _ => s.onRing cfg (.next none)
  | .tick => some { s with clock := s.clock + 1 }
  | .sweep => sweepNext cfg s

def machine (Cid : Type) [DecidableEq Cid] (cfg : Setup V Req width) (m : Mem V width) :
    Machine (State Cid V width) (Act Cid V Req width) where
  init :=
    { ring := (Ring.machine (Option Cid) cfg.size m).init
      sweep := .idle
      stuckSeen := false
      stuckPos := 0
      stuckSince := 0
      stuckSlots := 0
      clock := 0
      dead := fun _ => false
      sweptAt := 0 }
  step := step cfg

end Hqq.Listener
