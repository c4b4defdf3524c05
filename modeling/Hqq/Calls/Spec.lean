import Hqq.Machine
import Hqq.Word
import Mathlib.Logic.Function.Basic

/-!
# Calls and their result channels

`CallWith` and `awaitResponse`, the routing of responses, and the channels that both share.
They come from `pendingPool`, which all links of a process use.
-/

namespace Hqq.Calls

/-- `advancedCallKey`, with the link whose map it is a key of. -/
structure CallKey where
  link : Nat
  streamID : Word
  messageID : Word
  deriving DecidableEq

inductive Err where
  | send
  | streamClosed
  | context
  | receive
  | dispatch
  deriving DecidableEq

inductive Result (ι ν : Type) where
  | response (n : ν) (dest : ι)
  | failure (dest : ι)
  deriving DecidableEq

def Result.dest {ι ν : Type} : Result ι ν → ι
  | .response _ c => c
  | .failure c => c

inductive Outcome (ι ν : Type) where
  | result (r : Result ι ν)
  | error (e : Err)
  deriving DecidableEq

inductive Phase (ι ν : Type) where
  | absent
  | got (ch : Nat)
  | sending (ch : Nat)
  | waiting (ch : Nat)
  | unregistering (ch : Nat) (e : Err)
  | putting (ch : Nat) (o : Outcome ι ν)
  | abandoning (ch : Nat) (canceled : Bool) (e : Err)
  | canceling (e : Err)
  | returned (o : Outcome ι ν)
  deriving DecidableEq

/-- Where a response is. `flying` is between the removal of an entry and the send on its channel. -/
inductive Journey (ι : Type) where
  | absent
  | flying (ch : Nat) (dest : ι)
  | delivered (dest : ι)
  | dropped
  deriving DecidableEq

/-- The keys of the calls that gave up on a link, and in which order they did. -/
structure GoSet (κ : Type) where
  abandoned : List κ
  abandonedOrder : List κ

def GoSet.abandonCall {κ : Type} [DecidableEq κ] (K : Nat) (s : GoSet κ) (k : κ) : GoSet κ :=
  let evict := if s.abandonedOrder.length ≥ K then s.abandonedOrder.head? else none
  let rest := if s.abandonedOrder.length ≥ K then s.abandonedOrder.tail else s.abandonedOrder
  { abandoned := k :: s.abandoned.filter fun x => x ≠ k ∧ some x ≠ evict
    abandonedOrder := rest ++ [k] }

/-- `routeResponse` takes the key of a late response out. -/
def GoSet.take {κ : Type} [DecidableEq κ] (s : GoSet κ) (k : κ) : Option (GoSet κ) :=
  if k ∈ s.abandoned then some { s with abandoned := s.abandoned.filter (· ≠ k) } else none

structure Process (ι ν : Type) where
  chans : Nat → Option (Result ι ν)
  made : Nat
  pendingPool : List Nat
  pendingCalls : CallKey → Option (Nat × ι)
  abandoned : Nat → GoSet CallKey
  calls : ι → Phase ι ν
  responses : ν → Journey ι
  canceled : List ι

def Process.fresh (ι ν : Type) : Process ι ν where
  chans _ := none
  made := 0
  pendingPool := []
  pendingCalls _ := none
  abandoned _ := ⟨[], []⟩
  calls _ := .absent
  responses _ := .absent
  canceled := []

variable {ι ν : Type} [DecidableEq ι] [DecidableEq ν]

def Process.setCall (s : Process ι ν) (c : ι) (p : Phase ι ν) : Process ι ν :=
  { s with calls := Function.update s.calls c p }

def Process.delete (s : Process ι ν) (k : CallKey) : Process ι ν :=
  { s with pendingCalls := Function.update s.pendingCalls k none }

def Process.put (s : Process ι ν) (ch : Nat) (x : Option (Result ι ν)) : Process ι ν :=
  { s with chans := Function.update s.chans ch x }

inductive Stop where
  | streamClosed
  | contextDone
  | dispatchDone
  /-- `receiveRoute` returned an error; whether the context had ended then. -/
  | receiveFailed (ctxEnded : Bool)
  | dispatcherRefused
  deriving DecidableEq

def Stop.phase {ι ν : Type} (ch : Nat) : Stop → Phase ι ν
  | .streamClosed => .abandoning ch false .streamClosed
  | .contextDone => .abandoning ch true .context
  | .dispatchDone => .abandoning ch false .dispatch
  | .receiveFailed ctxEnded => .abandoning ch ctxEnded .receive
  | .dispatcherRefused => .unregistering ch .dispatch

inductive Act (ι ν : Type) where
  | get (c : ι) (pooled : Option Nat)
  | collect (ch : Nat)
  | register (c : ι)
  | sent (c : ι) (ok : Bool)
  | unregister (c : ι)
  | recycle (c : ι)
  | receive (c : ι)
  | stop (c : ι) (why : Stop)
  | abandon (c : ι)
  | cancelPending (c : ι) (queued : Bool)
  | routeResponse (n : ν)
  | deliver (n : ν)
  | failPending (k : CallKey)
  deriving DecidableEq

def maxAbandonedCalls : Nat := 4096

def Process.remember (s : Process ι ν) (k : CallKey) : Process ι ν :=
  let set := (s.abandoned k.link).abandonCall maxAbandonedCalls k
  { s with abandoned := Function.update s.abandoned k.link set }

def Process.forget (s : Process ι ν) (k : CallKey) : Process ι ν :=
  let set := s.abandoned k.link
  { s with abandoned := Function.update s.abandoned k.link ((set.take k).getD set) }

section Step

variable (key : ι → CallKey) (hdr : ν → CallKey)

def step (s : Process ι ν) : Act ι ν → Option (Process ι ν)
  -- pendingPool.Get: a pooled channel, or a new one
  | .get c pooled =>
    match s.calls c, pooled with
    | .absent, some ch =>
      if ch ∈ s.pendingPool then
        some { s.setCall c (.got ch) with pendingPool := s.pendingPool.erase ch }
      else none
    | .absent, none => some { s.setCall c (.got s.made) with made := s.made + 1 }
    | _, _ => none
  -- the garbage collector empties the pool
  | .collect ch => some { s with pendingPool := s.pendingPool.erase ch }
  -- registerPendingCall
  | .register c =>
    match s.calls c with
    | .got ch => some { s.setCall c (.sending ch) with
        pendingCalls := Function.update s.pendingCalls (key c) (some (ch, c)) }
    | _ => none
  -- sendAdvancedPayload returns
  | .sent c ok =>
    match s.calls c with
    | .sending ch => some (s.setCall c (if ok then .waiting ch else .unregistering ch .send))
    | _ => none
  -- unregisterPendingCall
  | .unregister c =>
    match s.calls c with
    | .unregistering ch e =>
      if (s.pendingCalls (key c)).map Prod.fst = some ch then
        some ((s.delete (key c)).setCall c (.putting ch (.error e)))
      else some (s.setCall c (.returned (.error e)))
    | _ => none
  -- pendingPool.Put
  | .recycle c =>
    match s.calls c with
    | .putting ch o =>
      some { s.setCall c (.returned o) with pendingPool := ch :: s.pendingPool }
    | _ => none
  -- awaitResponse receives
  | .receive c =>
    match s.calls c with
    | .waiting ch =>
      match s.chans ch with
      | some r => some ((s.put ch none).setCall c (.putting ch (.result r)))
      | none => none
    | _ => none
  | .stop c why =>
    match s.calls c with
    | .waiting ch => some (s.setCall c (why.phase ch))
    | _ => none
  -- abandonCall
  | .abandon c =>
    match s.calls c with
    | .abandoning ch canceled e =>
      if (s.pendingCalls (key c)).map Prod.fst = some ch then
        some (((s.delete (key c)).remember (key c)).setCall c
          (if canceled then .canceling e else .returned (.error e)))
      else some (s.setCall c (.returned (.error e)))
    | _ => none
  | .cancelPending c queued =>
    match s.calls c with
    | .canceling e => some { s.setCall c (.returned (.error e)) with
        canceled := if queued then c :: s.canceled else s.canceled }
    | _ => none
  -- routeResponse, up to the unlock
  | .routeResponse n =>
    match s.responses n, s.pendingCalls (hdr n) with
    | .absent, some (ch, c) => some { s.delete (hdr n) with
        responses := Function.update s.responses n (.flying ch c) }
    | .absent, none => some { s.forget (hdr n) with
        responses := Function.update s.responses n .dropped }
    | _, _ => none
  -- routeResponse sends on the channel
  | .deliver n =>
    match s.responses n with
    | .flying ch c =>
      if s.chans ch = none then
        some { s.put ch (some (.response n c)) with
          responses := Function.update s.responses n (.delivered c) }
      else none
    | _ => none
  -- one round of the loop of failPendingCalls, with the send that gives up on a full channel
  | .failPending k =>
    match s.pendingCalls k with
    | some (ch, c) =>
      if s.chans ch = none then some ((s.delete k).put ch (some (.failure c)))
      else some (s.delete k)
    | none => none

def machine : Machine (Process ι ν) (Act ι ν) where
  init := .fresh ι ν
  step := step key hdr

end Step

end Hqq.Calls
