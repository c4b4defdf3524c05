import Hqq.Door
import Hqq.Ring.Finished
import Hqq.Slots

/-!
# Reading what a closed peer left behind

One direction of a link: the threads of the peer publish packets into the ring, then the peer
closes, and any number of local threads read. The close is seen in a word outside of the ring, so
`dequeueDrained` and `reserveDrained` try once more without waiting before they report it.
-/

namespace Hqq.Drain

open Hqq.Ring (Elem Mem Move)

inductive Lost
  | closed
  | gone
  deriving DecidableEq

inductive Phase
  | idle
  | first
  | retry (why : Lost)
  | failed (why : Lost)
  deriving DecidableEq

inductive Sight
  | fine
  | replaced
  | stale
  deriving DecidableEq

structure State (P R V : Type) (width : Nat) where
  ring : Ring.State (P ⊕ R) V width
  tx : Door P
  settled : Bool
  detached : Bool
  status : Option Lost
  phase : R → Phase

inductive Act (P R V : Type) (width : Nat)
  | enterTx (p : P)
  /-- `admitTx`, and the start of an enqueue if that lets the call in. -/
  | admitTx (p : P) (e : Elem V width)
  | send (p : P) (mv : Move)
  | exitTx (p : P)
  | close
  | settle
  | detach
  | read (r : R)
  | receive (r : R) (mv : Move)
  | check (r : R) (sight : Sight)
  | poll (sight : Sight)

variable {P R V : Type} {width : Nat} [DecidableEq P] [DecidableEq R]

/-- `checkPeer`. The lock and the stickiness of the status make it one step: of the words it reads
under the lock only the token of the peer changes meanwhile, and that is read once. -/
def checkPeer (s : State P R V width) (sight : Sight) : Option Lost :=
  match s.status with
  | some why => some why
  | none => match sight with
    | .replaced => some .gone
    | .stale => if s.detached then some .closed else some .gone
    | .fine => if s.detached then some .closed else none

def Phase.onward (phase : Phase) : Ring.Pc V width → Phase
  | .idle => .idle
  | _ => phase

def receive (size : Word) (s : State P R V width) (r : R) (mv : Move) :
    Option (State P R V width) :=
  match s.phase r with
  | .idle | .failed _ => none
  | .first => (Ring.step size s.ring (mv.act (.inr r))).map fun ring =>
      { s with
        ring := ring
        phase := Function.update s.phase r (Phase.onward .first (ring.pc (.inr r))) }
  | .retry why =>
    match s.ring.pc (.inr r), mv with
    -- `NoWait`: where the first attempt waits, the second one ends.
    | .waitR _, .next => none
    | .waitR _, _ => (Ring.step size s.ring (mv.act (.inr r))).map fun ring =>
        { s with ring := ring, phase := Function.update s.phase r (.failed why) }
    | _, _ => (Ring.step size s.ring (mv.act (.inr r))).map fun ring =>
        { s with
          ring := ring
          phase := Function.update s.phase r (Phase.onward (.retry why) (ring.pc (.inr r))) }

def retry (size : Word) (s : State P R V width) (r : R) (why : Lost) :
    Option (State P R V width) :=
  (Ring.step size s.ring (.giveUp (.inr r))).bind fun ring =>
    (Ring.step size ring (.dequeue (.inr r))).map fun ring' =>
      { s with
        ring := ring', status := some why
        phase := Function.update s.phase r (.retry why) }

def step (size : Word) (s : State P R V width) : Act P R V width → Option (State P R V width)
  | .enterTx p => if s.tx.stage p = .out then some { s with tx := s.tx.enter p } else none
  | .admitTx p e =>
    if s.tx.stage p = .counted then
      if s.tx.closed then some { s with tx := s.tx.look p }
      else (Ring.step size s.ring (.enqueue (.inl p) e)).map fun ring =>
        { s with ring := ring, tx := s.tx.look p }
    else none
  | .send p mv =>
    if s.tx.stage p = .inside then
      (Ring.step size s.ring (mv.act (.inl p))).map fun ring => { s with ring := ring }
    else none
  | .exitTx p => match s.tx.stage p, s.ring.pc (.inl p) with
    | .inside, .idle | .refused, _ => some { s with tx := s.tx.leave p }
    | _, _ => none
  | .close => some { s with tx := s.tx.shut }
  | .settle =>
    if s.tx.closed ∧ s.tx.counter = 0 then some { s with settled := true } else none
  | .detach => if s.settled then some { s with detached := true } else none
  | .read r => match s.phase r with
    | .idle | .failed _ => (Ring.step size s.ring (.dequeue (.inr r))).map fun ring =>
        { s with ring := ring, phase := Function.update s.phase r .first }
    | _ => none
  | .receive r mv => receive size s r mv
  | .check r sight => match s.phase r, s.ring.pc (.inr r) with
    | .first, .waitR _ => match checkPeer s sight with
      | none => some s
      | some why => retry size s r why
    | _, _ => none
  | .poll sight => some { s with status := checkPeer s sight }

def machine (P R : Type) [DecidableEq P] [DecidableEq R] (size : Word) (m : Mem V width) :
    Machine (State P R V width) (Act P R V width) where
  init := ⟨(Ring.machine (P ⊕ R) size m).init, .fresh P, false, false, none, fun _ => .idle⟩
  step := step size

/-- No thread sleeps through `2 ^ 63` positions of the ring. -/
def StepAwake (s : State P R V width) : Act P R V width → Prop
  | .send p .next => Ring.Awake s.ring (.inl p)
  | .receive r .next => Ring.Awake s.ring (.inr r)
  | _ => True

def Knows (size : Word) (s : State P R V width) (r : R) : Phase → Prop
  | .retry .closed => s.detached = true ∧ Ring.Fresh size s.ring (.inr r)
  | .failed .closed =>
    s.detached = true ∧ s.ring.hist.produced.length ≤ s.ring.hist.consumed.length
  | _ => True

structure RingOk (size : Word) (base : Nat) (ring : Ring.State (P ⊕ R) V width) : Prop where
  inv : ∃ σ, Ring.Inv size base ring σ
  recovered : ring.hist.recovered = []
  writing : Ring.Writing ring
  sends : ∀ p, (ring.pc (.inl p)).Producing
  reads : ∀ r, (ring.pc (.inr r)).Consuming
  locals : ∀ x ∈ ring.hist.consumed, ∃ r, x.1 = .inr r

structure Inv (size : Word) (base : Nat) (s : State P R V width) : Prop where
  ring : RingOk size base s.ring
  counts : s.tx.Counts
  outside : ∀ p, s.tx.stage p ≠ .inside → s.ring.pc (.inl p) = .idle
  settled : s.settled = true → s.tx.Quiet
  detached : s.detached = true → s.settled = true
  status : s.status = some .closed → s.detached = true
  knows : ∀ r, Knows size s r (s.phase r)

variable {size : Word} {base : Nat} {s s' : State P R V width} {ring ring' : Ring.State (P ⊕ R) V width}

theorem RingOk.of_producer (h : RingOk size base ring)
    {p : P} (hp : Ring.ProducerStep (.inl p) ring ring') {a : Ring.Act (P ⊕ R) V width}
    (hstep : Ring.step size ring a = some ring') (hawake : Ring.StepAwake ring a) :
    RingOk size base ring' := by
  obtain ⟨σ, hi⟩ := h.inv
  obtain ⟨σ', -, hi'⟩ := hi.of_step hawake (Ring.stepOnTime_of_no_recovery h.recovered a) hstep
  refine ⟨⟨σ', hi'⟩, hp.recovered_eq.trans h.recovered,
    h.writing.of_step hi h.recovered hawake hstep, fun q => ?_, fun r => ?_, ?_⟩
  · rcases eq_or_ne q p with rfl | hne
    · exact hp.producing
    · rw [hp.pc_eq _ (by simpa using hne)]
      exact h.sends q
  · rw [hp.pc_eq _ (by simp)]
    exact h.reads r
  · rw [hp.consumed_eq]
    exact h.locals

theorem RingOk.of_reader (h : RingOk size base ring)
    {r : R} (hr : Ring.ReaderStep (.inr r) ring ring') {a : Ring.Act (P ⊕ R) V width}
    (hstep : Ring.step size ring a = some ring') (hawake : Ring.StepAwake ring a) :
    RingOk size base ring' := by
  obtain ⟨σ, hi⟩ := h.inv
  obtain ⟨σ', -, hi'⟩ := hi.of_step hawake (Ring.stepOnTime_of_no_recovery h.recovered a) hstep
  refine ⟨⟨σ', hi'⟩, hr.recovered_eq.trans h.recovered,
    h.writing.of_step hi h.recovered hawake hstep, fun p => ?_, fun q => ?_, ?_⟩
  · rw [hr.pc_eq _ (by simp)]
    exact h.sends p
  · rcases eq_or_ne q r with rfl | hne
    · exact hr.consuming
    · rw [hr.pc_eq _ (by simpa using hne)]
      exact h.reads q
  · rcases hr.consumed with heq | ⟨pos, heq⟩ <;> rw [heq]
    · exact h.locals
    · intro x hx
      rcases mem_concat.mp hx with hx | rfl
      · exact h.locals x hx
      · exact ⟨r, rfl⟩

omit [DecidableEq P] [DecidableEq R] in
theorem Inv.attached (h : Inv size base s) {p : P} (hp : s.tx.stage p = .inside) :
    s.detached = false := by
  by_contra hd
  exact (h.settled (h.detached (by simpa using hd))).outside p hp

omit [DecidableEq P] [DecidableEq R] in
theorem Inv.all_published (h : Inv size base s) (hd : s.detached = true) {n : Nat}
    (hn : n < s.ring.hist.produced.length) : n ∈ s.ring.hist.published := by
  refine h.ring.writing.all_published (fun t => ?_) hn
  cases t with
  | inl p =>
    rw [h.outside p ((h.settled (h.detached hd)).outside p)]
    trivial
  | inr r => exact h.ring.reads r

omit [DecidableEq P] [DecidableEq R] in
theorem Knows.of_attached {r : R} {phase : Phase} (h : Knows size s r phase)
    (hd : s.detached = false) : Knows size s' r phase := by
  cases phase with
  | idle | first => trivial
  | retry why | failed why =>
    cases why with
    | gone => trivial
    | closed => exact absurd (hd.symm.trans h.1) (by simp)

omit [DecidableEq P] [DecidableEq R] in
theorem Knows.of_reader {r u : R} {phase : Phase} (h : Knows size s u phase) (hne : u ≠ r)
    (hr : Ring.ReaderStep (.inr r) s.ring s'.ring) (hd : s'.detached = s.detached) :
    Knows size s' u phase := by
  have hne' : (Sum.inr u : P ⊕ R) ≠ .inr r := by simpa using hne
  cases phase with
  | idle | first => trivial
  | retry why =>
    cases why with
    | gone => trivial
    | closed =>
      exact ⟨hd.trans h.1, h.2.of_eq (hr.pc_eq _ hne') (hr.loaded_eq _ hne') hr.produced_eq⟩
  | failed why =>
    cases why with
    | gone => trivial
    | closed => exact ⟨hd.trans h.1, by rw [hr.produced_eq]; exact h.2.trans hr.consumed_le⟩

omit [DecidableEq P] [DecidableEq R] in
theorem Knows.detach {r : R} {phase : Phase} (h : Knows size s r phase) :
    Knows size { s with detached := true } r phase := by
  cases phase with
  | idle | first => trivial
  | retry why | failed why =>
    cases why with
    | gone => trivial
    | closed => exact ⟨rfl, h.2⟩

omit [DecidableEq P] in
theorem Inv.of_reader (h : Inv size base s) (hok : RingOk size base ring') {r : R}
    (hr : Ring.ReaderStep (.inr r) s.ring ring') {status : Option Lost} {phase : Phase}
    (hst : status = some .closed → s.detached = true)
    (hk : Knows size { s with ring := ring', status := status } r phase) :
    Inv size base { s with
      ring := ring', status := status, phase := Function.update s.phase r phase } where
  ring := hok
  counts := h.counts
  outside p hp := (hr.pc_eq _ (by simp)).trans (h.outside p hp)
  settled := h.settled
  detached := h.detached
  status := hst
  knows u := by
    change Knows size _ u (Function.update s.phase r phase u)
    rcases eq_or_ne u r with rfl | hne
    · rw [Function.update_self]
      unfold Knows at hk ⊢
      exact hk
    · rw [Function.update_of_ne hne]
      exact (h.knows u).of_reader hne hr rfl

omit [DecidableEq P] [DecidableEq R] in
theorem Inv.of_sender (h : Inv size base s) (hok : RingOk size base ring') {p : P} {tx : Door P}
    (hp : Ring.ProducerStep (.inl p) s.ring ring') (htx : tx.Counts)
    (hin : tx.stage p = .inside) (hkeep : ∀ q ≠ p, tx.stage q = s.tx.stage q)
    (hd : s.detached = false) (hsettled : s.settled = true → tx.Quiet) :
    Inv size base { s with ring := ring', tx := tx } where
  ring := hok
  counts := htx
  outside q hq := by
    have hne : q ≠ p := by rintro rfl; exact hq hin
    rw [hp.pc_eq _ (by simpa using hne)]
    exact h.outside q (by rwa [← hkeep q hne])
  settled := hsettled
  detached := h.detached
  status := h.status
  knows r := (h.knows r).of_attached hd

omit [DecidableEq P] [DecidableEq R] in
theorem Inv.of_door (h : Inv size base s) {tx : Door P} (htx : tx.Counts)
    (hout : ∀ p, tx.stage p ≠ .inside → s.tx.stage p = .inside → s.ring.pc (.inl p) = .idle)
    (hquiet : s.tx.Quiet → tx.Quiet) : Inv size base { s with tx := tx } where
  ring := h.ring
  counts := htx
  outside p hp := by
    rcases eq_or_ne (s.tx.stage p) .inside with hin | hne
    · exact hout p hp hin
    · exact h.outside p hne
  settled hs := hquiet (h.settled hs)
  detached := h.detached
  status := h.status
  knows := h.knows

omit [DecidableEq P] [DecidableEq R] in
theorem Inv.checkPeer_closed (h : Inv size base s) {sight : Sight}
    (hc : checkPeer s sight = some .closed) : s.detached = true := by
  unfold checkPeer at hc
  cases hst : s.status with
  | some why =>
    simp only [hst, Option.some.injEq] at hc
    exact h.status (by rw [hst, hc])
  | none =>
    simp only [hst] at hc
    cases sight with
    | replaced => simp at hc
    | stale | fine =>
      by_contra hd
      simp [hd] at hc

theorem Inv.of_receive (h : Inv size base s) {r : R}
    {mv : Move} (hawake : StepAwake s (.receive r mv)) (hstep : receive size s r mv = some s') :
    Inv size base s' := by
  have hringawake : Ring.StepAwake s.ring (mv.act (.inr r) : Ring.Act (P ⊕ R) V width) := by
    cases mv with
    | next => exact hawake
    | _ => trivial
  have hpc := h.ring.reads r
  unfold receive at hstep
  cases hph : s.phase r with
  | idle | failed why => simp [hph] at hstep
  | first =>
    simp only [hph, Option.map_eq_some_iff] at hstep
    obtain ⟨ring', hring, rfl⟩ := hstep
    have hr := Ring.ReaderStep.of_move hpc hring
    refine h.of_reader (h.ring.of_reader hr hring hringawake) hr h.status ?_
    unfold Phase.onward
    split <;> trivial
  | retry why =>
    have hknow := h.knows r
    rw [hph] at hknow
    simp only [hph] at hstep
    split at hstep
    · simp at hstep
    · -- The second attempt found nothing either.
      rename_i pos mv' hwait hne
      simp only [Option.map_eq_some_iff] at hstep
      obtain ⟨ring', hring, rfl⟩ := hstep
      have hr := Ring.ReaderStep.of_move hpc hring
      refine h.of_reader (h.ring.of_reader hr hring hringawake) hr h.status ?_
      cases why with
      | gone => trivial
      | closed =>
        obtain ⟨σ, hi⟩ := h.ring.inv
        have hend : s.ring.hist.produced.length ≤ s.ring.hist.loaded (.inr r) := by
          have := hknow.2
          simpa only [Ring.Fresh, hwait] using this
        have hloaded := hi.holds (.inr r)
        simp only [hwait, Ring.Holds] at hloaded
        refine ⟨hknow.1, ?_⟩
        rw [hr.produced_eq]
        exact hend.trans (hloaded.2.trans hr.consumed_le)
    · rename_i hne1 hne2
      simp only [Option.map_eq_some_iff] at hstep
      obtain ⟨ring', hring, rfl⟩ := hstep
      have hr := Ring.ReaderStep.of_move hpc hring
      refine h.of_reader (h.ring.of_reader hr hring hringawake) hr h.status ?_
      cases why with
      | gone => unfold Phase.onward; split <;> trivial
      | closed =>
        obtain ⟨σ, hi⟩ := h.ring.inv
        have hfresh := hknow.2.of_move hi (fun n hn => h.all_published hknow.1 hn) hpc
          (fun pos hw => hne2 pos hw) hring
        unfold Phase.onward
        split
        · trivial
        · exact ⟨hknow.1, hfresh⟩

theorem Inv.of_retry (h : Inv size base s) {r : R}
    {why : Lost} (hwhy : why = .closed → s.detached = true) (hstep : retry size s r why = some s') :
    Inv size base s' := by
  unfold retry at hstep
  obtain ⟨ring1, hring1, hstep⟩ := Option.bind_eq_some_iff.mp hstep
  obtain ⟨ring2, hring2, rfl⟩ := Option.map_eq_some_iff.mp hstep
  have hr1 : Ring.ReaderStep (.inr r) s.ring ring1 :=
    .of_move (h.ring.reads r) (show Ring.step size s.ring (Move.giveUp.act (.inr r)) = _ from hring1)
  have hok1 := h.ring.of_reader hr1 hring1 trivial
  have hr2 := Ring.ReaderStep.of_dequeue hring2
  refine h.of_reader (hok1.of_reader hr2 hring2 trivial)
    (hr1.trans hr2 (Ring.giveUp_consumed hring1))
    (fun hst => hwhy (Option.some.inj hst)) ?_
  cases why with
  | gone => trivial
  | closed =>
    -- The second attempt is about to load the cursor.
    refine ⟨hwhy rfl, ?_⟩
    simp only [Ring.step] at hring2
    split at hring2 <;> cases hring2
    simp [Ring.Fresh, Ring.State.goto]

theorem Inv.of_read (h : Inv size base s) {r : R}
    (hstep : ((Ring.step size s.ring (.dequeue (.inr r))).map fun ring =>
      { s with ring := ring, phase := Function.update s.phase r .first }) = some s') :
    Inv size base s' := by
  obtain ⟨ring', hring, rfl⟩ := Option.map_eq_some_iff.mp hstep
  have hr := Ring.ReaderStep.of_dequeue hring
  exact h.of_reader (h.ring.of_reader hr hring trivial) hr h.status trivial

theorem Inv.of_step (h : Inv size base s)
    {a : Act P R V width} (hawake : StepAwake s a) (hstep : step size s a = some s') :
    Inv size base s' := by
  cases a with
  | enterTx p =>
    simp only [step] at hstep
    split_ifs at hstep with hout
    cases hstep
    refine h.of_door (h.counts.enter hout) (fun q hq hin => ?_) fun hq => hq.enter p
    rcases eq_or_ne q p with rfl | hne
    · simp [hout] at hin
    · simp [Door.enter, hne, hin] at hq
  | admitTx p e =>
    simp only [step] at hstep
    split_ifs at hstep with hcounted hclosed
    · cases hstep
      refine h.of_door (h.counts.look (by simp [hcounted])) (fun q hq hin => ?_) fun hq => hq.look p
      rcases eq_or_ne q p with rfl | hne
      · simp [hcounted] at hin
      · simp [Door.look, hne, hin] at hq
    · obtain ⟨ring', hring, rfl⟩ := Option.map_eq_some_iff.mp hstep
      have hp := Ring.ProducerStep.of_enqueue hring
      have hd : s.detached = false := by
        by_contra hd
        exact hclosed (h.settled (h.detached (by simpa using hd))).closed
      refine h.of_sender (h.ring.of_producer hp hring trivial) hp
        (h.counts.look (by simp [hcounted])) (by simp [Door.look, hclosed])
        (fun q hne => by simp [Door.look, hne]) hd fun hs => ?_
      exact absurd (h.settled hs).closed hclosed
  | send p mv =>
    simp only [step] at hstep
    split_ifs at hstep with hin
    obtain ⟨ring', hring, rfl⟩ := Option.map_eq_some_iff.mp hstep
    have hp := Ring.ProducerStep.of_move (h.ring.sends p) hring
    have hringawake : Ring.StepAwake s.ring (mv.act (.inl p) : Ring.Act (P ⊕ R) V width) := by
      cases mv with
      | next => exact hawake
      | _ => trivial
    exact h.of_sender (h.ring.of_producer hp hring hringawake) hp h.counts hin
      (fun _ _ => rfl) (h.attached hin) h.settled
  | exitTx p =>
    have hleave : (s.tx.stage p = .inside → s.ring.pc (.inl p) = .idle) → s.tx.stage p ≠ .out →
        Inv size base { s with tx := s.tx.leave p } := by
      intro hidle hne
      refine h.of_door (h.counts.leave hne) (fun q hq hin => ?_) fun hq => hq.leave p
      rcases eq_or_ne q p with rfl | hqp
      · exact hidle hin
      · simp [Door.leave, hqp, hin] at hq
    simp only [step] at hstep
    split at hstep <;> cases hstep
    · rename_i hin hidle
      exact hleave (fun _ => hidle) (by simp [hin])
    · rename_i href
      exact hleave (fun hin => by simp [href] at hin) (by simp [href])
  | close =>
    simp only [step, Option.some.injEq] at hstep
    subst hstep
    exact h.of_door h.counts.shut (fun p hp hin => absurd hin hp) fun hq => ⟨rfl, hq.outside⟩
  | settle =>
    simp only [step] at hstep
    split_ifs at hstep with hc
    cases hstep
    exact { h with settled := fun _ => h.counts.quiet hc.1 hc.2, detached := fun _ => rfl }
  | detach =>
    simp only [step] at hstep
    split_ifs at hstep with hs
    cases hstep
    exact { h with detached := fun _ => hs, status := fun _ => rfl, knows := fun r => (h.knows r).detach }
  | read r =>
    simp only [step] at hstep
    split at hstep
    · exact h.of_read hstep
    · exact h.of_read hstep
    · simp at hstep
  | receive r mv => exact h.of_receive hawake hstep
  | check r sight =>
    simp only [step] at hstep
    split at hstep
    · split at hstep
      · simp only [Option.some.injEq] at hstep
        exact hstep ▸ h
      · rename_i why hwhy
        exact h.of_retry (fun hc => h.checkPeer_closed (hc ▸ hwhy)) hstep
    · simp at hstep
  | poll sight =>
    simp only [step, Option.some.injEq] at hstep
    subst hstep
    exact { h with status := h.checkPeer_closed, knows := h.knows }

theorem Inv.of_reach {m : Mem V width} (hsize : Ring.validRingSize size = true)
    (hstart : Ring.StartsAt size base m) (h : (machine P R size m).Reach StepAwake s) :
    Inv size base s := by
  refine h.invariant ?_ fun s a s' _ hI hawake hstep => hI.of_step hawake hstep
  exact
    { ring :=
        { inv := ⟨_, Ring.Inv.start hsize hstart⟩, recovered := rfl
          writing := fun n hn => absurd hn (by simp [machine, Ring.machine])
          sends := fun _ => trivial, reads := fun _ => trivial
          locals := fun x hx => absurd hx (by simp [machine, Ring.machine]) }
      counts := .fresh
      outside := fun _ _ => rfl
      settled := by simp [machine]
      detached := by simp [machine]
      status := by simp [machine]
      knows := fun _ => trivial }

/-- A read returns `ErrPeerClosed` (or `io.EOF` for it) only when the peer has detached and every
packet that it claimed a slot for is published and claimed by a local thread. -/
theorem closed_after_drain {m : Mem V width} (hsize : Ring.validRingSize size = true)
    (hstart : Ring.StartsAt size base m) (h : (machine P R size m).Reach StepAwake s) {r : R}
    (hr : s.phase r = .failed .closed) :
    s.detached = true ∧ ∀ n < s.ring.hist.produced.length, n ∈ s.ring.hist.published ∧
      ∃ u, s.ring.hist.consumed[n]? = some (.inr u, word (base + n)) := by
  have hI := Inv.of_reach hsize hstart h
  have hknow := hI.knows r
  rw [hr] at hknow
  obtain ⟨hd, hall⟩ := hknow
  refine ⟨hd, fun n hn => ⟨hI.all_published hd hn, ?_⟩⟩
  obtain ⟨σ, hi⟩ := hI.ring.inv
  have hget := List.getElem?_eq_getElem (hn.trans_le hall)
  obtain ⟨u, hu⟩ := hI.ring.locals _ (List.getElem_mem (hn.trans_le hall))
  refine ⟨u, ?_⟩
  rw [hget, Option.some.injEq]
  exact Prod.ext hu (hi.hist.consumed_pos n _ _ hget)

instance (s : State P R V width) : (a : Act P R V width) → Decidable (StepAwake s a)
  | .send p .next => inferInstanceAs (Decidable (Ring.Awake s.ring (.inl p)))
  | .receive r .next => inferInstanceAs (Decidable (Ring.Awake s.ring (.inr r)))
  | .send _ .giveUp | .send _ .commit | .receive _ .giveUp | .receive _ .commit | .enterTx _
  | .admitTx _ _ | .exitTx _ | .close | .settle | .detach | .read _ | .check _ _ | .poll _ =>
    inferInstanceAs (Decidable True)

def twoSlots : Mem Nat 1 := Ring.format 0 2 ⟨0, 0, fun _ => 0, fun _ _ => 0⟩

theorem twoSlots_startsAt : Ring.StartsAt 2 0 twoSlots := by
  unfold twoSlots
  exact Ring.format_startsAt 0 _

/-- A read waits, and the peer sends one packet and closes. -/
def lastPacket : List (Act Unit Unit Nat 1) :=
  [.read (), .receive () .next, .receive () .next, .receive () .next,
    .enterTx (), .admitTx () fun _ => 7] ++ List.replicate 5 (.send () .next) ++
  [.exitTx (), .close, .settle, .detach, .check () .fine] ++ List.replicate 5 (.receive () .next) ++
  [.read (), .receive () .next, .receive () .next, .receive () .next, .check () .fine,
    .receive () .next, .receive () .next, .receive () .next, .receive () .giveUp]

theorem closed_after_drain_lastPacket : ∃ s, (machine Unit Unit 2 twoSlots).Reach StepAwake s ∧
    s.phase () = .failed .closed ∧ s.ring.hist.produced.length = 1 ∧
    s.ring.hist.delivered = [(0, [7])] ∧
    (s.detached = true ∧ ∀ n < s.ring.hist.produced.length, n ∈ s.ring.hist.published ∧
      ∃ u, s.ring.hist.consumed[n]? = some (.inr u, word (0 + n))) := by
  obtain ⟨s, hs, h1, h2, h3⟩ : ∃ s, (machine Unit Unit 2 twoSlots).Reach StepAwake s ∧
      s.phase () = .failed .closed ∧ s.ring.hist.produced.length = 1 ∧
      s.ring.hist.delivered = [(0, [7])] :=
    Machine.exists_reach lastPacket (by decide +kernel)
  exact ⟨s, hs, h1, h2, h3, closed_after_drain (by decide) twoSlots_startsAt hs h1⟩

end Hqq.Drain
