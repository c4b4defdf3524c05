import Hqq.Link.Tails
import Hqq.Ring.Finished

/-!
# Reservations and their copies

`StandardWriteReservation` and `StandardReadReservation` are Go values. Callers may copy them, and
each copy has its own `done`. For a slot the sequence word says whether the claim is still open,
for a tail only the flag of the copy does.
Calls on one reservation do not overlap. Everything else does.
-/

namespace Hqq.Reserve

open Tails (Buf Remainder)

inductive Handle
  | producer (pos : Word)
  | consumer (pos : Word)
  | tail (b : Buf)
  deriving DecidableEq

inductive Op
  | commit (n : Int)
  | abort (reason : Word)
  | release
  deriving DecidableEq

inductive Outcome
  | ok
  | invalidSize
  | bufferOverflow
  | invalidOp
  deriving DecidableEq

inductive Packet
  | copy (copyID slot size : Word)
  | tombstone (copyID slot reason : Word)
  deriving DecidableEq

inductive Stage (K : Type)
  | none
  | write (k : K) (op : Op)
  | swap (k : K) (op : Op)
  deriving DecidableEq

structure Config where
  size : Word
  bufferSize : Nat
  txBase : Word

structure State (X K O : Type) where
  /-- The threads are the reservations and everybody else. Packets are kept apart. -/
  ring : Ring.State (X ⊕ O) Unit 0
  packet : Nat → Packet
  tails : Remainder
  lent : List (X × Buf)
  handle : X → Option Handle
  copies : X → K → Option Bool
  stage : X → Stage K
  effects : X → Nat
  log : X → List Outcome

inductive Act (X K O : Type)
  | reserveWrite (x : X)
  | reserveRead (x : X)
  | claim (x : X) (k : K)
  | giveUp (x : X)
  | takeTail (x : X) (k : K)
  | copy (x : X) (k k' : K)
  | call (x : X) (k : K) (op : Op)
  | write (x : X)
  | swap (x : X)
  | other (a : Ring.Act (X ⊕ O) Unit 0)
  | fill (o : O) (p : Packet)
  | store (n : Nat)
  | read (len : Nat) (discard : Bool)

def errCodeInvalidSize : Word := 2
def errCodeInvalidOp : Word := 6
def errCodeBufferOverflow : Word := 7

def completion (cfg : Config) (pos : Word) : Op → Packet × Outcome
  | .commit n =>
    if n ≤ 0 then (.tombstone copyID slot errCodeInvalidSize, .invalidSize)
    else if cfg.bufferSize < n then (.tombstone copyID slot errCodeBufferOverflow, .bufferOverflow)
    else (.copy copyID slot (BitVec.ofInt 64 n), .ok)
  | .abort reason =>
    (.tombstone copyID slot (if reason = 0 then errCodeInvalidOp else reason), .ok)
  | .release => (.tombstone copyID slot 0, .ok)
where
  copyID := pos - cfg.txBase + 1
  slot := pos &&& (cfg.size - 1)

variable {X K O : Type} [DecidableEq X] [DecidableEq K] [DecidableEq O]

def Handle.claimed : Handle → Word
  | .producer pos => pos
  | .consumer pos => pos + 1
  | .tail _ => 0

def Handle.pos : Handle → Word
  | .producer pos | .consumer pos => pos
  | .tail _ => 0

def owned (cfg : Config) (s : State X K O) (h : Handle) : Bool :=
  s.ring.mem.seq (Ring.slot cfg.size h.pos) == h.claimed

def buffer (cfg : Config) (s : State X K O) (x : X) (k : K) : Bool :=
  match s.copies x k, s.handle x with
  | some false, some (.tail _) => true
  | some false, some h => owned cfg s h
  | _, _ => false

def State.logged (s : State X K O) (x : X) (o : Outcome) : State X K O :=
  { s with log := Function.update s.log x (s.log x ++ [o]) }

def State.completed (s : State X K O) (x : X) (k : K) (o : Outcome) : State X K O :=
  { s.logged x o with
    copies := Function.update s.copies x (Function.update (s.copies x) k (some true))
    stage := Function.update s.stage x .none
    effects := Function.update s.effects x (s.effects x + 1) }

def State.granted (s : State X K O) (x : X) (k : K) (h : Handle) : State X K O :=
  { s with
    handle := Function.update s.handle x (some h)
    copies := Function.update s.copies x (Function.update (s.copies x) k (some false)) }

def call (cfg : Config) (s : State X K O) (x : X) (k : K) (op : Op) : Option (State X K O) :=
  match s.stage x, s.copies x k, s.handle x with
  | .none, some done, some h => match h, op with
    | .producer _, .commit _ | .producer _, .abort _ =>
      if done ∨ owned cfg s h = false then some (s.logged x .invalidOp)
      else some { s with stage := Function.update s.stage x (.write k op) }
    | .consumer _, .release =>
      if done ∨ owned cfg s h = false then some (s.logged x .invalidOp)
      else some { s with stage := Function.update s.stage x (.swap k op) }
    -- Only the flag of this copy is checked.
    | .tail b, .release =>
      if done then some (s.logged x .invalidOp)
      else some { s.completed x k .ok with
        tails := Tails.giveBack s.tails b, lent := s.lent.erase (x, b) }
    | _, _ => none
  | _, _, _ => none

def swap (cfg : Config) (s : State X K O) (x : X) : Option (State X K O) :=
  match s.stage x, s.handle x with
  | .swap k op, some (.producer pos) => match Ring.publishSlot cfg.size pos s.ring.mem with
    | (m, true) => some { s.completed x k (completion cfg pos op).2 with
        ring := s.ring.published (.inl x) m }
    | (_, false) => some { s.completed x k .invalidOp with effects := s.effects }
  | .swap k _, some (.consumer pos) => match Ring.releaseSlot cfg.size pos s.ring.mem with
    | (m, true) => some { s.completed x k .ok with ring := s.ring.released (.inl x) [] m }
    | (_, false) => some { s.completed x k .invalidOp with effects := s.effects }
  | _, _ => none

def Handle.ofPc : Ring.Pc Unit 0 → Option Handle
  | .write _ pos _ => some (.producer pos)
  | .read pos _ => some (.consumer pos)
  | _ => none

def step (cfg : Config) (s : State X K O) : Act X K O → Option (State X K O)
  | .reserveWrite x => match s.handle x with
    | none => (Ring.step cfg.size s.ring (.enqueue (.inl x) fun _ => ())).map fun ring =>
        { s with ring := ring }
    | some _ => none
  | .reserveRead x => match s.handle x with
    | none => (Ring.step cfg.size s.ring (.dequeue (.inl x))).map fun ring => { s with ring := ring }
    | some _ => none
  | .claim x k => match s.handle x with
    | none => (Ring.step cfg.size s.ring (.next (.inl x))).map fun ring =>
        match Handle.ofPc (ring.pc (.inl x)) with
        | none => { s with ring := ring }
        | some h => ({ s with ring := ring } : State X K O).granted x k h
    | some _ => none
  | .giveUp x => match s.handle x with
    | none => (Ring.step cfg.size s.ring (.giveUp (.inl x))).map fun ring => { s with ring := ring }
    | some _ => none
  | .takeTail x k => match s.handle x, s.ring.pc (.inl x), Tails.take s.tails with
    | none, .idle, some (t, tails) => some { s.granted x k (.tail t.buf) with
        tails := tails, lent := (x, t.buf) :: s.lent }
    | _, _, _ => none
  | .copy x k k' => match s.copies x k with
    | some done => some { s with
        copies := Function.update s.copies x (Function.update (s.copies x) k' (some done)) }
    | none => none
  | .call x k op => call cfg s x k op
  | .write x => match s.stage x, s.handle x with
    | .write k op, some (.producer pos) => some { s with
        packet := Function.update s.packet (Ring.slot cfg.size pos) (completion cfg pos op).1
        stage := Function.update s.stage x (.swap k op) }
    | _, _ => none
  | .swap x => swap cfg s x
  | .other a => match a.tid with
    | .inl _ => none
    | .inr _ => (Ring.step cfg.size s.ring a).map fun ring => { s with ring := ring }
  | .fill o p => match s.ring.pc (.inr o) with
    | .write _ pos _ => some { s with
        packet := Function.update s.packet (Ring.slot cfg.size pos) p }
    | _ => none
  | .store n => some { s with tails := Tails.store s.tails n }
  | .read len discard => (Tails.read s.tails len discard).map fun got => { s with tails := got.2 }

def machine (X K O : Type) [DecidableEq X] [DecidableEq K] [DecidableEq O] (cfg : Config)
    (m : Ring.Mem Unit 0) : Machine (State X K O) (Act X K O) where
  init :=
    { ring := (Ring.machine (X ⊕ O) cfg.size m).init, packet := fun _ => .tombstone 0 0 0
      tails := ⟨[], [], cfg.bufferSize, 0⟩, lent := [], handle := fun _ => none
      copies := fun _ _ => none, stage := fun _ => .none, effects := fun _ => 0, log := fun _ => [] }
  step := step cfg

/-- Fewer than `2 ^ 63` positions were claimed since the reservation was made. -/
def Young (s : State X K O) (x : X) : Prop :=
  s.ring.hist.produced.length < s.ring.hist.loaded (.inl x) + 2 ^ 63

/-- No tail is used through two copies, no copy is used after `2 ^ 63` positions, and no thread
sleeps through that many. -/
def Careful (s : State X K O) : Act X K O → Prop
  | .copy x _ _ => ∀ b, s.handle x ≠ some (.tail b)
  | .call x _ _ => (∀ b, s.handle x ≠ some (.tail b)) → Young s x
  | .claim x _ => Ring.Awake s.ring (.inl x)
  | .other a => Ring.StepAwake s.ring a
  | _ => True

/-- What is known about the slot of a reservation that was completed `effects` times. -/
def SlotOk (cfg : Config) (base : Nat) (σ : Nat → Nat) (ring : Ring.State (X ⊕ O) Unit 0) (x : X)
    (effects : Nat) : Handle → Prop
  | .producer pos => pos = word (base + ring.hist.loaded (.inl x)) ∧
    (effects = 0 → ∃ e, ring.pc (.inl x) = .write e pos 0) ∧
    (effects ≠ 0 → ring.hist.loaded (.inl x) < ring.hist.produced.length ∧
      base + ring.hist.loaded (.inl x) + 1 ≤
        σ ((base + ring.hist.loaded (.inl x)) % cfg.size.toNat))
  | .consumer pos => pos = word (base + ring.hist.loaded (.inl x)) ∧
    (effects = 0 → ring.pc (.inl x) = .read pos []) ∧
    (effects ≠ 0 → ring.hist.loaded (.inl x) < ring.hist.produced.length ∧
      base + ring.hist.loaded (.inl x) + cfg.size.toNat ≤
        σ ((base + ring.hist.loaded (.inl x)) % cfg.size.toNat))
  | .tail _ => True

structure Slots (cfg : Config) (base : Nat) (ring : Ring.State (X ⊕ O) Unit 0)
    (handle : X → Option Handle) (effects : X → Nat) (σ : Nat → Nat) : Prop where
  inv : Ring.Inv cfg.size base ring σ
  recovered : ring.hist.recovered = []
  slots : ∀ x h, handle x = some h → SlotOk cfg base σ ring x (effects x) h

variable {cfg : Config} {base : Nat} {ring ring' : Ring.State (X ⊕ O) Unit 0} {σ σ' : Nat → Nat}
  {handle : X → Option Handle} {effects : X → Nat} {x : X} {h : Handle}

omit [DecidableEq X] [DecidableEq O] in
theorem SlotOk.of_frame {n : Nat} (hs : SlotOk cfg base σ ring x n h)
    (hpc : ring'.pc (.inl x) = ring.pc (.inl x))
    (hload : ring'.hist.loaded (.inl x) = ring.hist.loaded (.inl x))
    (hgrow : Ring.Grows ring ring') (hσ : Ring.Advances cfg.size σ σ') :
    SlotOk cfg base σ' ring' x n h := by
  have hle := fun j => (hσ j).1
  cases h with
  | tail b => trivial
  | producer pos | consumer pos =>
    obtain ⟨hpos, hopen, hdone⟩ := hs
    unfold SlotOk
    rw [hpc, hload]
    refine ⟨hpos, hopen, fun hn => ?_⟩
    obtain ⟨h1, h2⟩ := hdone hn
    exact ⟨h1.trans_le hgrow.produced, h2.trans (hle _)⟩

theorem Slots.of_step (hs : Slots cfg base ring handle effects σ) {a : Ring.Act (X ⊕ O) Unit 0}
    (hstep : Ring.step cfg.size ring a = some ring') (hawake : Ring.StepAwake ring a)
    (hnone : ∀ x, a.tid = .inl x → handle x = none) :
    ∃ σ', Slots cfg base ring' handle effects σ' := by
  obtain ⟨hframe, hgrow⟩ := Ring.Frame.of_step hstep
  obtain ⟨σ', hσ, hi⟩ := hs.inv.of_step hawake
    (Ring.stepOnTime_of_no_recovery hs.recovered a) hstep
  refine ⟨σ', hi, hframe.recovered_eq.trans hs.recovered, fun y h hy => ?_⟩
  have hne : (Sum.inl y : X ⊕ O) ≠ a.tid := by
    intro heq
    rw [hnone y heq.symm] at hy
    cases hy
  exact (hs.slots y h hy).of_frame (hframe.pc_eq _ hne) (hframe.loaded_eq _ hne) hgrow hσ

omit [DecidableEq O] in
theorem Slots.of_claim (hs : Slots cfg base ring handle effects σ) (h0 : effects x = 0)
    (hpc : Handle.ofPc (ring.pc (.inl x)) = some h) :
    Slots cfg base ring (Function.update handle x (some h)) effects σ := by
  refine ⟨hs.inv, hs.recovered, fun y g hy => ?_⟩
  rcases eq_or_ne y x with rfl | hne
  · simp only [Function.update_self, Option.some.injEq] at hy
    subst hy
    have hhold := hs.inv.holds (.inl y)
    unfold Handle.ofPc at hpc
    split at hpc <;> cases hpc
    · rename_i e pos i hw
      simp only [hw, Ring.Holds] at hhold
      obtain rfl : i = 0 := by omega
      exact ⟨hhold.1, fun _ => ⟨e, hw⟩, fun hn => absurd h0 hn⟩
    · rename_i pos got hr
      simp only [hr, Ring.Holds] at hhold
      obtain rfl : got = [] := List.length_eq_zero_iff.mp (by omega)
      exact ⟨hhold.1, fun _ => hr, fun hn => absurd h0 hn⟩
  · rw [Function.update_of_ne hne] at hy
    exact hs.slots y g hy

omit [DecidableEq O] in
theorem Slots.of_tail (hs : Slots cfg base ring handle effects σ) (b : Buf) :
    Slots cfg base ring (Function.update handle x (some (.tail b))) effects σ := by
  refine ⟨hs.inv, hs.recovered, fun y g hy => ?_⟩
  rcases eq_or_ne y x with rfl | hne
  · simp only [Function.update_self, Option.some.injEq] at hy
    subst hy
    trivial
  · rw [Function.update_of_ne hne] at hy
    exact hs.slots y g hy

omit [DecidableEq X] [DecidableEq O] in
theorem Slots.open_owned (hs : Slots cfg base ring handle effects σ) (hx : handle x = some h)
    (h0 : effects x = 0)
    (htail : ∀ b, h ≠ .tail b) : ring.mem.seq (Ring.slot cfg.size h.pos) = h.claimed := by
  have hslot := hs.slots x h hx
  have hhold := hs.inv.holds (.inl x)
  cases h with
  | tail b => exact absurd rfl (htail b)
  | producer pos =>
    obtain ⟨hpos, hopen, -⟩ := hslot
    obtain ⟨e, hpc⟩ := hopen h0
    simp only [hpc, Ring.Holds] at hhold
    obtain ⟨-, -, -, -, hown⟩ := hhold
    have hσ := (hown (by simp [hs.recovered])).2.1
    change ring.mem.seq (Ring.slot cfg.size pos) = pos
    rw [hpos, hs.inv.slot_seq, hσ]
  | consumer pos =>
    obtain ⟨hpos, hopen, -⟩ := hslot
    have hpc := hopen h0
    simp only [hpc, Ring.Holds] at hhold
    change ring.mem.seq (Ring.slot cfg.size pos) = pos + 1
    rw [hpos, hs.inv.slot_seq, hhold.2.2.1, word_succ]

omit [DecidableEq X] [DecidableEq O] in
theorem Slots.done_not_owned (hs : Slots cfg base ring handle effects σ) (hx : handle x = some h)
    (hn : effects x ≠ 0) (hyoung : ring.hist.produced.length < ring.hist.loaded (.inl x) + 2 ^ 63)
    (htail : ∀ b, h ≠ .tail b) : ring.mem.seq (Ring.slot cfg.size h.pos) ≠ h.claimed := by
  have hN := Ring.size_bounds hs.inv.size_ok
  have hle := hs.inv.le
  have hnear := hs.inv.near (ring.hist.loaded (.inl x))
  have hslot := hs.slots x h hx
  cases h with
  | tail b => exact absurd rfl (htail b)
  | producer pos =>
    obtain ⟨hpos, -, hdone⟩ := hslot
    obtain ⟨hlt, hσ⟩ := hdone hn
    change ring.mem.seq (Ring.slot cfg.size pos) ≠ pos
    rw [hpos, hs.inv.slot_seq, ne_eq, word_inj (by omega) (by omega)]
    omega
  | consumer pos =>
    obtain ⟨hpos, -, hdone⟩ := hslot
    obtain ⟨hlt, hσ⟩ := hdone hn
    change ring.mem.seq (Ring.slot cfg.size pos) ≠ pos + 1
    rw [hpos, hs.inv.slot_seq, word_succ, ne_eq, word_inj (by omega) (by omega)]
    omega

omit [DecidableEq O] in
theorem Slots.of_swap (hs : Slots cfg base ring handle effects σ) (hx : handle x = some h)
    (hi : Ring.Inv cfg.size base ring' σ') (hσ : Ring.Advances cfg.size σ σ')
    (hframe : Ring.Frame (.inl x) ring ring') (hgrow : Ring.Grows ring ring')
    (hok : SlotOk cfg base σ' ring' x 1 h) (h0 : effects x = 0) :
    Slots cfg base ring' handle (Function.update effects x (effects x + 1)) σ' := by
  refine ⟨hi, hframe.recovered_eq.trans hs.recovered, fun y g hy => ?_⟩
  rcases eq_or_ne y x with rfl | hne
  · rw [hx, Option.some.injEq] at hy
    rw [Function.update_self, h0, ← hy]
    exact hok
  · rw [Function.update_of_ne hne]
    have hne' : (Sum.inl y : X ⊕ O) ≠ .inl x := by simpa using hne
    exact (hs.slots y g hy).of_frame (hframe.pc_eq _ hne') (hframe.loaded_eq _ hne') hgrow hσ

theorem Slots.publish (hs : Slots cfg base ring handle effects σ) {pos : Word}
    (hx : handle x = some (.producer pos)) (h0 : effects x = 0) :
    ∃ σ', Slots cfg base (ring.published (.inl x) (Ring.publish cfg.size pos ring.mem)) handle
      (Function.update effects x (effects x + 1)) σ' := by
  have hN := Ring.size_bounds hs.inv.size_ok
  obtain ⟨hpos, hopen, -⟩ := hs.slots x _ hx
  obtain ⟨e, hpc⟩ := hopen h0
  have hhold := hs.inv.holds (.inl x)
  simp only [hpc, Ring.Holds] at hhold
  obtain ⟨-, hprod, -, -, hown⟩ := hhold
  have hσx := (hown (by simp [hs.recovered])).2.1
  obtain ⟨σ', hσ, hi⟩ := hs.inv.published hpc
    (Ring.onTime_of_no_recovery hs.recovered _)
  refine ⟨σ', hs.of_swap hx hi hσ (Ring.Frame.goto (fun _ _ => rfl) rfl) ⟨le_refl _, le_refl _⟩
    ⟨hpos, by simp, fun _ => ⟨Ring.lt_of_getElem? hprod, ?_⟩⟩ h0⟩
  -- The word of the slot is the next one now, and so is its number.
  have hseq := hi.slot_seq (ring.hist.loaded (.inl x))
  have hword : (ring.published (.inl x) (Ring.publish cfg.size pos ring.mem)).mem.seq
      (Ring.slot cfg.size (word (base + ring.hist.loaded (.inl x)))) =
        word (base + ring.hist.loaded (.inl x) + 1) := by
    rw [← hpos, ← word_succ, ← hpos]
    exact Function.update_self ..
  rw [hword] at hseq
  have hnear := hσ ((base + ring.hist.loaded (.inl x)) % cfg.size.toNat)
  rw [hσx] at hnear
  have := (word_inj (by omega) (by omega)).mp hseq
  exact this.le

theorem Slots.release (hs : Slots cfg base ring handle effects σ) {pos : Word}
    (hx : handle x = some (.consumer pos)) (h0 : effects x = 0) :
    ∃ σ', Slots cfg base (ring.released (.inl x) [] (Ring.release cfg.size pos ring.mem)) handle
      (Function.update effects x (effects x + 1)) σ' := by
  have hN := Ring.size_bounds hs.inv.size_ok
  obtain ⟨hpos, hopen, -⟩ := hs.slots x _ hx
  have hpc := hopen h0
  have hhold := hs.inv.holds (.inl x)
  simp only [hpc, Ring.Holds] at hhold
  obtain ⟨-, hcons, hσx, -⟩ := hhold
  have hlt : ring.hist.loaded (.inl x) < ring.hist.produced.length :=
    (Ring.lt_of_getElem? hcons).trans_le hs.inv.le
  obtain ⟨σ', hσ, hi⟩ := hs.inv.released hpc rfl
  refine ⟨σ', hs.of_swap hx hi hσ (Ring.Frame.goto (fun _ _ => rfl) rfl) ⟨le_refl _, le_refl _⟩
    ⟨hpos, by simp, fun _ => ⟨hlt, ?_⟩⟩ h0⟩
  have hseq := hi.slot_seq (ring.hist.loaded (.inl x))
  have hword : (ring.released (.inl x) [] (Ring.release cfg.size pos ring.mem)).mem.seq
      (Ring.slot cfg.size (word (base + ring.hist.loaded (.inl x)))) =
        word (base + ring.hist.loaded (.inl x) + cfg.size.toNat) := by
    rw [← hpos, ← word_add, ← hpos, word_toNat_self]
    refine (Function.update_self ..).trans ?_
    rw [BitVec.add_assoc, BitVec.sub_add_cancel]
  rw [hword] at hseq
  have hnear := hσ ((base + ring.hist.loaded (.inl x)) % cfg.size.toNat)
  rw [hσx] at hnear
  have := (word_inj (by omega) (by omega)).mp hseq
  exact this.le

end Hqq.Reserve
