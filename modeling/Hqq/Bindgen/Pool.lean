import Hqq.Machine
import Hqq.Slots

/-!
# The pool of connections

`rt/pool.go`. The state counts the goroutines that are at one point outside of the lock, or lists
what each of them holds. Everything under one lock is one step.
-/

namespace Hqq.Pool

structure State where
  -- The newest idle value comes first, as it is the one to be lent next.
  idle : List Nat := []
  n : Nat := 0
  closed : Bool := false
  waiters : List Nat := []
  /-- Wake-ups that were sent, by their channel. Their goroutine has not locked the pool since. -/
  woken : List Nat := []
  -- In `dialNew`: in `p.dial`, with the error of it, and with the value of it.
  dialing : Nat := 0
  failed : Nat := 0
  dialed : List Nat := []
  lent : List Nat := []
  -- In `discard`: before `closeFn`, and after it.
  returned : List Nat := []
  freeing : Nat := 0
  -- In `Close`, after the lock.
  toWake : List Nat := []
  toClose : List Nat := []
  made : Nat := 0
  chans : Nat := 0
  /-- The calls of `closeFn`. No step looks at them. -/
  closes : List Nat := []

inductive Act
  | get
  | resume (w : Nat)
  | cancel (w : Nat)
  | dialed
  | dialFailed
  | dialErr
  | check (v : Nat)
  | put (v : Nat)
  | discard (v : Nat)
  | closeFn (v : Nat)
  | free
  | close
  | send
  | closeIdle

def State.wakeLocked (s : State) : State :=
  match s.waiters with
  | [] => s
  | w :: rest => { s with waiters := rest, woken := w :: s.woken }

def State.get (max : Nat) (s : State) : State :=
  if s.closed then s
  else match s.idle with
    | v :: rest => { s with idle := rest, lent := v :: s.lent }
    | [] =>
      if s.n < max then { s with n := s.n + 1, dialing := s.dialing + 1 }
      else { s with waiters := s.waiters ++ [s.chans], chans := s.chans + 1 }

def State.free (s : State) : State := { s with n := s.n - 1 }.wakeLocked

def step (max : Nat) (s : State) : Act → Option State
  | .get => some (s.get max)
  | .resume w => if w ∈ s.woken then some ({ s with woken := s.woken.erase w }.get max) else none
  | .cancel w =>
    if w ∈ s.waiters then some { s with waiters := s.waiters.erase w }
    else if w ∈ s.woken then some { s with woken := s.woken.erase w }.wakeLocked
    -- `Close` is going to send on a channel that nobody receives from any more.
    else if w ∈ s.toWake then some { s with toWake := s.toWake.erase w }.wakeLocked
    else none
  | .dialed =>
    if 0 < s.dialing then
      some { s with dialing := s.dialing - 1, dialed := s.made :: s.dialed, made := s.made + 1 }
    else none
  | .dialFailed =>
    if 0 < s.dialing then some { s with dialing := s.dialing - 1, failed := s.failed + 1 } else none
  | .dialErr => if 0 < s.failed then some { s with failed := s.failed - 1 }.free else none
  | .check v =>
    if v ∈ s.dialed then
      some (if s.closed then { s with dialed := s.dialed.erase v, returned := v :: s.returned }
        else { s with dialed := s.dialed.erase v, lent := v :: s.lent })
    else none
  | .put v =>
    if v ∈ s.lent then
      some (if s.closed then { s with lent := s.lent.erase v, returned := v :: s.returned }
        else { s with lent := s.lent.erase v, idle := v :: s.idle }.wakeLocked)
    else none
  | .discard v =>
    if v ∈ s.lent then some { s with lent := s.lent.erase v, returned := v :: s.returned } else none
  | .closeFn v =>
    if v ∈ s.returned then
      some { s with returned := s.returned.erase v, freeing := s.freeing + 1, closes := v :: s.closes }
    else none
  | .free => if 0 < s.freeing then some { s with freeing := s.freeing - 1 }.free else none
  | .close =>
    some (if s.closed then s
      else
        { s with
          closed := true, idle := [], n := s.n - s.idle.length, waiters := []
          toWake := s.waiters, toClose := s.idle })
  | .send =>
    match s.toWake with
    | [] => none
    | w :: rest => some { s with toWake := rest, woken := w :: s.woken }
  | .closeIdle =>
    match s.toWake, s.toClose with
    | [], v :: rest => some { s with toClose := rest, closes := v :: s.closes }
    | _, _ => none

def limit (max : Int) : Nat := if max < 1 then 1 else max.toNat

def newPool (max : Int) : Machine State Act := ⟨{}, step (limit max)⟩

def State.lentOut (s : State) : Nat := s.lent.length + s.returned.length + s.freeing

def State.dials (s : State) : Nat := s.dialing + s.failed + s.dialed.length

/-- `x` is how many values or slots are about to be offered, or taken by somebody who was woken. -/
structure Inv (max x : Nat) (s : State) : Prop where
  counted : s.n = s.idle.length + s.lentOut + s.dials
  bounded : s.n ≤ max
  placed : ∀ v, s.idle.count v + s.dialed.count v + s.lent.count v + s.returned.count v +
    s.toClose.count v + s.closes.count v = if v < s.made then 1 else 0
  swept : if s.closed then s.idle = [] else s.toClose = []
  awaited : s.closed = false → s.waiters ≠ [] → s.idle.length + (max - s.n) ≤ s.woken.length + x

variable {max : Nat} {s s' : State}

theorem Inv.wakeLocked (h : Inv max 1 s) : Inv max 0 s.wakeLocked := by
  unfold State.wakeLocked
  split
  · next hnone => exact { h with awaited := fun _ hw => absurd hnone hw }
  · next w rest hsome =>
    exact { h with awaited := fun ho _ => by simpa using h.awaited ho (by simp [hsome]) }

theorem Inv.get (h : Inv max 1 s) : Inv max 0 (s.get max) := by
  obtain ⟨hcounted, hbounded, hplaced, hswept, hawaited⟩ := id h
  simp only [State.lentOut, State.dials] at hcounted
  unfold State.get
  split
  · next hc => exact { h with awaited := fun ho => absurd ho (by simp [hc]) }
  split
  · next v rest hidle =>
    refine ⟨?_, hbounded, ?_, ?_, ?_⟩ <;> grind -ring -linarith [State.lentOut, State.dials]
  split
  · next hn =>
    refine { h with counted := ?_, bounded := hn, awaited := ?_ } <;>
      grind -ring -linarith [State.lentOut, State.dials]
  · next hidle hn =>
    -- Whoever queues has found neither a value nor a slot.
    refine { h with awaited := fun _ _ => ?_ }
    simp only [hidle, List.length_nil]
    omega

theorem Inv.weaken (h : Inv max 0 s) : Inv max 1 s :=
  { h with awaited := fun ho hw => Nat.le_succ_of_le (h.awaited ho hw) }

theorem Inv.act (h : Inv max 0 s) {w : Nat} (hw : w ∈ s.woken) :
    Inv max 1 { s with woken := s.woken.erase w } := by
  refine { h with awaited := fun ho hne => ?_ }
  have := h.awaited ho hne
  have := List.length_pos_of_mem hw
  simp only [List.length_erase_of_mem hw]
  omega

theorem Inv.free {failed freeing : Nat} (h : Inv max 0 s)
    (hone : failed + freeing + 1 = s.failed + s.freeing) :
    Inv max 0 ({ s with failed := failed, freeing := freeing }).free := by
  have hcounted := h.counted
  simp only [State.lentOut, State.dials] at hcounted
  have hbounded := h.bounded
  refine Inv.wakeLocked { h with counted := ?_, bounded := ?_, awaited := fun ho hne => ?_ }
  · simp only [State.lentOut, State.dials]
    omega
  · simp only
    omega
  · have := h.awaited ho hne
    simp only
    omega

theorem Inv.step (h : Inv max 0 s) {a : Act} (hstep : step max s a = some s') : Inv max 0 s' := by
  obtain ⟨hcounted, hbounded, hplaced, hswept, hawaited⟩ := id h
  simp only [State.lentOut, State.dials] at hcounted
  cases a with
  | get =>
    cases hstep
    exact h.weaken.get
  | resume w =>
    obtain ⟨hw, rfl⟩ := Machine.of_guard hstep
    exact (h.act hw).get
  | cancel w =>
    simp only [Pool.step] at hstep
    split_ifs at hstep with hq hw hc <;> cases hstep
    · refine { h with awaited := fun ho _ => h.awaited ho fun hnil => ?_ }
      simp [hnil] at hq
    · exact (h.act hw).wakeLocked
    · exact Inv.wakeLocked { h.weaken with }
  | dialed =>
    obtain ⟨hd, rfl⟩ := Machine.of_guard hstep
    refine { h with counted := ?_, placed := fun u => ?_ }
    · simp only [State.lentOut, State.dials, List.length_cons]
      omega
    · have := hplaced u
      simp only [List.count_cons, beq_iff_eq]
      grind -ring -linarith
  | dialFailed =>
    obtain ⟨hd, rfl⟩ := Machine.of_guard hstep
    refine { h with counted := ?_ }
    simp only [State.lentOut, State.dials]
    omega
  | dialErr | free =>
    obtain ⟨hf, rfl⟩ := Machine.of_guard hstep
    exact h.free (by omega)
  | check v =>
    obtain ⟨hv, rfl⟩ := Machine.of_guard hstep
    obtain ⟨hlen, hcount⟩ := erase_add hv
    split <;> refine { h with counted := ?_, placed := ?_ } <;> grind -ring -linarith [State.lentOut, State.dials]
  | put v =>
    obtain ⟨hv, rfl⟩ := Machine.of_guard hstep
    obtain ⟨hlen, hcount⟩ := erase_add hv
    split
    · refine { h with counted := ?_, placed := ?_ } <;> grind -ring -linarith [State.lentOut, State.dials]
    · refine Inv.wakeLocked ⟨?_, hbounded, ?_, ?_, ?_⟩ <;> grind -ring -linarith [State.lentOut, State.dials]
  | discard v | closeFn v =>
    obtain ⟨hv, rfl⟩ := Machine.of_guard hstep
    obtain ⟨hlen, hcount⟩ := erase_add hv
    refine { h with counted := ?_, placed := ?_ } <;> grind -ring -linarith [State.lentOut, State.dials]
  | close =>
    cases hstep
    split
    · exact h
    refine ⟨?_, ?_, ?_, ?_, ?_⟩ <;> grind -ring -linarith [State.lentOut, State.dials]
  | send =>
    simp only [Pool.step] at hstep
    split at hstep <;> cases hstep
    refine { h with awaited := fun ho hne => ?_ }
    exact Nat.le_succ_of_le (hawaited ho hne)
  | closeIdle =>
    simp only [Pool.step] at hstep
    split at hstep <;> cases hstep
    refine { h with placed := ?_, swept := ?_ } <;> grind -ring -linarith

structure Sound (max : Nat) (s : State) : Prop where
  counted : s.n = s.idle.length + s.lentOut + s.dials
  bounded : s.n ≤ max
  closedOnce : ∀ v, s.closes.count v ≤ 1
  closedBack : s.closed = true → ∀ v < s.made, v ∉ s.dialed → v ∉ s.lent → v ∉ s.returned →
    v ∉ s.toClose → s.closes.count v = 1
  awaited : s.closed = false → s.waiters ≠ [] → s.idle.length + (max - s.n) ≤ s.woken.length

theorem pool_keeps_count (max : Int) {s : State} (h : (newPool max).Reachable s) :
    Sound (limit max) s := by
  have hinv : Inv (limit max) 0 s := by
    refine h.invariant ?_ fun _ _ _ _ hi _ hstep => hi.step hstep
    refine ⟨rfl, Nat.zero_le _, fun v => ?_, rfl, fun _ hw => absurd rfl hw⟩
    simp [newPool]
  refine ⟨hinv.counted, hinv.bounded, ?_, ?_, hinv.awaited⟩ <;> grind -ring -linarith [Inv]

theorem pool_keeps_count_woken : ∃ s, (newPool 1).Reachable s ∧
    (s.closed = false ∧ s.waiters = [1] ∧ s.woken = [0] ∧ s.idle = [0]) ∧ Sound (limit 1) s :=
  Machine.exists_reachable_and [.get, .dialed, .check 0, .get, .get, .put 0] (by decide +kernel)
    fun _ hs _ => pool_keeps_count 1 hs

end Hqq.Pool
