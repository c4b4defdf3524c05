import Hqq.Listener.Record
import Hqq.Machine
import Hqq.Slots

/-!
# The counters of an acceptor

`dispatch`, `handshake` and `Accept` in `listener.go`. Handshakes have numbers, in the order in
which they start.
-/

namespace Hqq.Counters

open Listener

structure Cfg where
  platform : Platform
  limits : Limits
  backlog : Int
  maxHandshakes : Int

def normalized (n : Int) : Nat := if n ≤ 0 then 16 else n.toNat

inductive Dispatcher
  | top
  | validating (rec : ConnectRecord)
  | acquiring
  | returned
  deriving DecidableEq

structure State where
  records : Nat := 0
  malformed : Nat := 0
  unreachable : Nat := 0
  handshakeFailed : Nat := 0
  accepted : Nat := 0
  dispatcher : Dispatcher := .top
  sem : Nat := 0
  ready : Nat := 0
  done : Bool := false
  canceled : Bool := false
  -- The handshakes, by what they do next.
  opening : List Nat := []
  negotiating : List Nat := []
  sending : List Nat := []
  leaving : List Nat := []
  started : Nat := 0
  /-- Who took a slot out of `sem`. No step looks at this. -/
  released : List Nat := []
  taken : Nat := 0

inductive Act
  | dequeue (rec : ConnectRecord)
  | validate
  | acquire
  | returns
  | opened (k : Nat) (ok : Bool)
  | negotiated (k : Nat) (ok : Bool)
  | send (k : Nat)
  | closeLink (k : Nat)
  | release (k : Nat)
  | receive
  | count
  | close
  | cancel
  | drain

def step (cfg : Cfg) (s : State) : Act → Option State
  | .dequeue rec =>
    if s.dispatcher = .top then
      some { s with dispatcher := .validating rec, records := s.records + 1 }
    else none
  | .validate =>
    match s.dispatcher with
    | .validating rec =>
      if (validate cfg.platform cfg.limits rec).isNone then
        some { s with dispatcher := .top, malformed := s.malformed + 1 }
      else some { s with dispatcher := .acquiring }
    | _ => none
  | .acquire =>
    if s.dispatcher = .acquiring ∧ s.sem < normalized cfg.maxHandshakes then
      some { s with
        dispatcher := .top, sem := s.sem + 1
        opening := s.started :: s.opening, started := s.started + 1 }
    else none
  | .returns =>
    if s.done ∧ (s.dispatcher = .top ∨ s.dispatcher = .acquiring) then
      some { s with dispatcher := .returned }
    else none
  | .opened k ok =>
    if k ∈ s.opening then
      let s' := { s with opening := s.opening.erase k }
      if ok then some { s' with negotiating := k :: s.negotiating }
      else if s.canceled then some { s' with leaving := k :: s.leaving }
      else some { s' with leaving := k :: s.leaving, unreachable := s.unreachable + 1 }
    else none
  | .negotiated k ok =>
    if k ∈ s.negotiating then
      let s' := { s with negotiating := s.negotiating.erase k }
      if ok then some { s' with sending := k :: s.sending }
      else if s.canceled then some { s' with leaving := k :: s.leaving }
      else some { s' with leaving := k :: s.leaving, handshakeFailed := s.handshakeFailed + 1 }
    else none
  | .send k =>
    if k ∈ s.sending ∧ s.ready < normalized cfg.backlog then
      some { s with
        sending := s.sending.erase k, leaving := k :: s.leaving, ready := s.ready + 1 }
    else none
  | .closeLink k =>
    if k ∈ s.sending ∧ s.done then
      some { s with sending := s.sending.erase k, leaving := k :: s.leaving }
    else none
  | .release k =>
    if k ∈ s.leaving then
      some { s with
        leaving := s.leaving.erase k, sem := s.sem - 1, released := k :: s.released }
    else none
  | .receive =>
    if 0 < s.ready then some { s with ready := s.ready - 1, taken := s.taken + 1 } else none
  | .count =>
    if 0 < s.taken then some { s with taken := s.taken - 1, accepted := s.accepted + 1 } else none
  | .close => some { s with done := true }
  | .cancel => if s.done then some { s with canceled := true } else none
  -- `Close` has waited for the dispatcher and the handshakes.
  | .drain =>
    if s.done ∧ s.dispatcher = .returned ∧ s.sem = 0 then some { s with ready := 0 } else none

def machine (cfg : Cfg) : Machine State Act := ⟨{}, step cfg⟩

def State.handshakes (s : State) : List Nat := s.opening ++ s.negotiating ++ s.sending

def Dispatcher.held : Dispatcher → Nat
  | .validating _ | .acquiring => 1
  | .top | .returned => 0

def State.processing (s : State) : Nat := s.dispatcher.held + s.handshakes.length + s.ready

structure Inv (cfg : Cfg) (s : State) : Prop where
  counted : s.done = false → s.records = s.malformed + s.unreachable + s.handshakeFailed +
    s.accepted + s.processing + s.taken
  alive : s.done = false → s.canceled = false
  backlog : s.ready ≤ normalized cfg.backlog
  slots : s.sem = s.handshakes.length + s.leaving.length
  bounded : s.sem ≤ normalized cfg.maxHandshakes
  placed : ∀ k, s.handshakes.count k + s.leaving.count k + s.released.count k =
    if k < s.started then 1 else 0

variable {cfg : Cfg} {s s' : State}

theorem Inv.step {a : Act} (h : Inv cfg s) (hstep : step cfg s a = some s') : Inv cfg s' := by
  obtain ⟨hcounted, halive, hbacklog, hslots, hbounded, hplaced⟩ := id h
  simp only [State.handshakes, State.processing, List.length_append, List.count_append]
    at hcounted hslots hplaced
  cases a with
  | dequeue | receive | count =>
    obtain ⟨hg, rfl⟩ := Machine.of_guard hstep
    refine { h with counted := fun hd => ?_, backlog := by grind }
    have := hcounted hd
    simp_all only [State.processing, State.handshakes, Dispatcher.held, List.length_append]
    omega
  | validate =>
    simp only [Counters.step] at hstep
    split at hstep
    · next rec hrec =>
      simp only [hrec, Dispatcher.held] at hcounted
      split at hstep <;> cases hstep <;> refine { h with counted := fun hd => ?_ } <;> rw [hcounted hd] <;>
        simp only [State.processing, State.handshakes, Dispatcher.held, List.length_append]
      omega
    · cases hstep
  | acquire =>
    obtain ⟨⟨hd, hlt⟩, rfl⟩ := Machine.of_guard hstep
    refine { h with counted := fun ho => ?_, slots := ?_, bounded := hlt, placed := fun k => ?_ }
    · rw [hcounted ho, hd]
      simp only [State.processing, State.handshakes, Dispatcher.held, List.length_append,
        List.length_cons]
      omega
    · simp only [State.handshakes, List.length_append, List.length_cons]
      omega
    · have := hplaced k
      simp only [State.handshakes, List.count_append, List.count_cons, beq_iff_eq]
      split_ifs at this ⊢ <;> omega
  | close =>
    cases hstep
    exact { h with counted := nofun, alive := nofun }
  | returns | cancel | drain =>
    obtain ⟨hg, rfl⟩ := Machine.of_guard hstep
    have hd : ¬ s.done = false := by simp_all
    exact { h with
      counted := fun ho => absurd ho hd, alive := fun ho => absurd ho hd, backlog := by simp [hbacklog] }
  | send k | closeLink k | release k =>
    obtain ⟨hg, rfl⟩ := Machine.of_guard hstep
    obtain ⟨hlen, hcount⟩ := erase_add (by first | exact hg | exact hg.1)
    constructor <;> grind -ring -linarith [State.handshakes, State.processing]
  | opened k ok | negotiated k ok =>
    simp only [Counters.step] at hstep
    split at hstep
    · next hk =>
      obtain ⟨hlen, hcount⟩ := erase_add hk
      split_ifs at hstep <;> cases hstep <;>
        constructor <;> grind -ring -linarith [State.handshakes, State.processing]
    · cases hstep

structure Accounted (cfg : Cfg) (s : State) : Prop where
  counted : s.done = false → s.records = s.malformed + s.unreachable + s.handshakeFailed +
    s.accepted + (s.processing + s.taken)
  bounded : s.processing ≤ 1 + normalized cfg.maxHandshakes + normalized cfg.backlog
  holds : s.sem = (s.handshakes ++ s.leaving).length
  once : ∀ k < s.started, s.released.count k = if k ∈ s.handshakes ++ s.leaving then 0 else 1

theorem records_accounted (cfg : Cfg) {s : State} (h : (machine cfg).Reachable s) :
    Accounted cfg s := by
  obtain ⟨hcounted, -, hbacklog, hslots, hbounded, hplaced⟩ : Inv cfg s :=
    h.invariant ⟨fun _ => rfl, fun _ => rfl, Nat.zero_le _, rfl, Nat.zero_le _,
      by simp [machine, State.handshakes]⟩ fun _ _ _ _ hi _ hstep => hi.step hstep
  refine ⟨fun hd => by rw [hcounted hd]; omega, ?_, by simpa using hslots, fun k hk => ?_⟩
  · have : s.dispatcher.held ≤ 1 := by cases s.dispatcher <;> simp [Dispatcher.held]
    unfold State.processing
    omega
  · have := hplaced k
    rw [if_pos hk] at this
    split
    · next hmem =>
      rw [← List.count_pos_iff, List.count_append] at hmem
      omega
    · next hmem =>
      rw [← List.count_eq_zero, List.count_append] at hmem
      omega

def sampleRecord : ConnectRecord where
  clientToken := 7
  bufferCount := 2
  bufferSize := 8
  features := 0
  nameLen := 16
  clientPID := 0
  name := .ofFn fun _ => 48

def sampleCfg : Cfg := ⟨⟨64, 4096⟩, ⟨2, 8, 1048576, []⟩, 0, 1⟩

theorem records_accounted_sending : ∃ s, (machine sampleCfg).Reachable s ∧
    (s.records = 2 ∧ s.done = false ∧ s.sending = [0] ∧ s.processing = 2) ∧ Accounted sampleCfg s :=
  Machine.exists_reachable_and [.dequeue sampleRecord, .validate, .acquire, .opened 0 true,
    .dequeue sampleRecord, .negotiated 0 true, .validate] (by decide +kernel) fun _ hs _ => records_accounted _ hs

end Hqq.Counters
