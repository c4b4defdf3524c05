import Hqq.Machine
import Hqq.Slots
import Mathlib.Algebra.Order.Ring.Int

/-!
# Shutdown and the requests in flight

`inflightN` counts the requests from their arrival to the release of their message. A request
is counted before it looks at the flag of `Shutdown`, so it is refused or waited for.
-/

namespace Hqq.Shutdown

inductive Phase where
  | counted
  | refused
  | accepted
  | queued
  | running
  | ended
  | signaling
  | gone
  deriving DecidableEq

def Phase.inFlight : Phase → Bool
  | .counted | .refused | .accepted | .queued | .running => true
  | .ended | .signaling | .gone => false

inductive Stage where
  | starting
  | releasingHeld
  | checking
  | waiting
  | stopping
  | returnedNil
  | returnedErr
  deriving DecidableEq

structure Link where
  inflightN : Int
  shuttingDown : Bool
  drained : Bool
  serveStopped : Bool
  requests : List Phase
  calls : List Stage
  deriving DecidableEq

def Link.fresh : Link := ⟨0, false, false, false, [], []⟩

def Link.setRequest (s : Link) (i : Nat) (p : Phase) : Link :=
  { s with requests := s.requests.set i p }

def Link.setCall (s : Link) (c : Nat) (w : Stage) : Link := { s with calls := s.calls.set c w }

def Phase.releasable : Phase → Bool
  | .refused | .accepted | .running => true
  | _ => false

inductive Act where
  | arrive
  | route (i : Nat)
  | enqueue (i : Nat)
  | take (i : Nat)
  | release (i : Nat)
  | load (i : Nat)
  | signal (i : Nat)
  | shutdown
  | store (c : Nat)
  | releaseHeld (c : Nat)
  | check (c : Nat)
  | wake (c : Nat)
  | giveUp (c : Nat)
  | stopServe (c : Nat)
  deriving DecidableEq

def step (s : Link) : Act → Option Link
  -- newRequestCtx
  | .arrive => some { s with inflightN := s.inflightN + 1, requests := s.requests ++ [.counted] }
  -- routeRequest
  | .route i =>
    if s.requests[i]? = some .counted then
      some (s.setRequest i (if s.shuttingDown then .refused else .accepted))
    else none
  | .enqueue i => if s.requests[i]? = some .accepted then some (s.setRequest i .queued) else none
  | .take i => if s.requests[i]? = some .queued then some (s.setRequest i .running) else none
  -- Message.Release and requestDone
  | .release i =>
    if s.requests[i]?.any Phase.releasable then
      some { s.setRequest i (if s.inflightN - 1 = 0 then .ended else .gone) with
        inflightN := s.inflightN - 1 }
    else none
  | .load i =>
    if s.requests[i]? = some .ended then
      some (s.setRequest i (if s.shuttingDown then .signaling else .gone))
    else none
  | .signal i =>
    if s.requests[i]? = some .signaling then some { s.setRequest i .gone with drained := true }
    else none
  -- Shutdown
  | .shutdown => some { s with calls := s.calls ++ [.starting] }
  | .store c =>
    if s.calls[c]? = some .starting then
      some { s.setCall c .releasingHeld with shuttingDown := true }
    else none
  | .releaseHeld c =>
    if s.calls[c]? = some .releasingHeld then some (s.setCall c .checking) else none
  | .check c =>
    if s.calls[c]? = some .checking then
      some (s.setCall c (if 0 < s.inflightN then .waiting else .stopping))
    else none
  | .wake c =>
    if s.calls[c]? = some .waiting ∧ s.drained = true then
      some { s.setCall c .checking with drained := false }
    else none
  | .giveUp c => if s.calls[c]? = some .waiting then some (s.setCall c .returnedErr) else none
  | .stopServe c =>
    if s.calls[c]? = some .stopping then
      some { s.setCall c .returnedNil with serveStopped := true }
    else none

def machine : Machine Link Act where
  init := .fresh
  step := step

def Link.Stable (s : Link) : Prop := ∀ p ∈ s.requests, p = .gone

instance (s : Link) : Decidable s.Stable := inferInstanceAs (Decidable (∀ p ∈ _, _))

def Act.Advances (c : Nat) : Act → Prop
  | .store d | .releaseHeld d | .check d | .wake d | .stopServe d => d = c
  | _ => False

structure ShutdownOk (s : Link) : Prop where
  counts : s.inflightN = s.requests.countP Phase.inFlight
  /-- Once a call returned nil, all that was accepted is released, and nothing will be accepted. -/
  nilMeansReleased : .returnedNil ∈ s.calls → s.shuttingDown = true ∧
    ∀ p ∈ s.requests, p ≠ .accepted ∧ p ≠ .queued ∧ p ≠ .running
  notStuck : s.Stable → ∀ c w, s.calls[c]? = some w → w ≠ .returnedErr →
    ∃ as s', (∀ a ∈ as, a.Advances c) ∧ machine.runFrom s as = some s' ∧
      s'.calls[c]? = some .returnedNil

def OneWaits (s : Link) (a : Act) : Prop :=
  ∀ c, a = .check c → 0 < s.inflightN → .waiting ∉ s.calls

instance (s : Link) (a : Act) : Decidable (OneWaits s a) :=
  match a with
  | .check c => decidable_of_iff (0 < s.inflightN → .waiting ∉ s.calls)
      ⟨fun h _ _ => h, fun h => h c rfl⟩
  | .arrive | .route _ | .enqueue _ | .take _ | .release _ | .load _ | .signal _ | .shutdown
  | .store _ | .releaseHeld _ | .wake _ | .giveUp _ | .stopServe _ =>
    .isTrue fun _ h => by cases h

def Phase.admitted : Phase → Bool
  | .accepted | .queued | .running => true
  | _ => false

structure Inv (s : Link) : Prop where
  counts : s.inflightN = s.requests.countP Phase.inFlight
  flagged : ∀ w ∈ s.calls, w ≠ .starting → s.shuttingDown = true
  released : ∀ w ∈ s.calls, w = .stopping ∨ w = .returnedNil → ∀ p ∈ s.requests, p.admitted = false
  oneWaits : s.calls.countP (· = .waiting) ≤ 1
  woken : .waiting ∈ s.calls →
    s.drained = true ∨ 0 < s.inflightN ∨ .ended ∈ s.requests ∨ .signaling ∈ s.requests

theorem Inv.init : Inv .fresh := by
  constructor <;> simp [Link.fresh]

variable {s s' : Link} {i c : Nat}

theorem Inv.moves (h : Inv s) {p p' : Phase} (hi : s.requests[i]? = some p)
    (hp : p.inFlight = true) (hp' : p'.inFlight = true)
    (hgate : p'.admitted = true → p.admitted = true ∨ s.shuttingDown = false) :
    Inv (s.setRequest i p') where
  counts := by
    have := countP_set_add (b := p') Phase.inFlight hi
    rw [if_pos hp, if_pos hp'] at this
    simp only [Link.setRequest, h.counts]
    omega
  flagged := h.flagged
  released w hw hdone q hq := by
    rcases List.mem_or_eq_of_mem_set hq with hold | rfl
    · exact h.released w hw hdone q hold
    · rw [← Bool.not_eq_true]
      intro hadm
      rcases hgate hadm with hadm | hflag
      · simp [h.released w hw hdone p (List.mem_of_getElem? hi)] at hadm
      · rw [h.flagged w hw (by rcases hdone with rfl | rfl <;> nofun)] at hflag
        cases hflag
  oneWaits := h.oneWaits
  woken hw := by
    have hne : ∀ q, q.inFlight = false → q ≠ p := by
      rintro q hq rfl
      simp [hp] at hq
    rcases h.woken hw with hd | hn | he | hs
    · exact .inl hd
    · exact .inr (.inl hn)
    · exact .inr (.inr (.inl (mem_set_of_ne hi he (hne _ rfl))))
    · exact .inr (.inr (.inr (mem_set_of_ne hi hs (hne _ rfl))))

theorem Inv.arrive (h : Inv s) : Inv { s with
    inflightN := s.inflightN + 1, requests := s.requests ++ [.counted] } where
  counts := by
    simp only [h.counts, List.countP_append, List.countP_singleton, Phase.inFlight]
    push_cast
    rfl
  flagged := h.flagged
  released w hw hdone q hq := by
    rcases List.mem_append.mp hq with hold | hnew
    · exact h.released w hw hdone q hold
    · rw [List.mem_singleton.mp hnew]
      rfl
  oneWaits := h.oneWaits
  woken _ := by
    have := h.counts
    refine .inr (.inl ?_)
    dsimp only
    omega

theorem Inv.release (h : Inv s) {p : Phase} (hi : s.requests[i]? = some p)
    (hp : p.releasable = true) :
    Inv { s.setRequest i (if s.inflightN - 1 = 0 then .ended else .gone) with
      inflightN := s.inflightN - 1 } := by
  have hfly : p.inFlight = true := by cases p <;> first | rfl | cases hp
  have hpos : 0 < s.requests.countP Phase.inFlight :=
    List.countP_pos_iff.mpr ⟨p, List.mem_of_getElem? hi, hfly⟩
  have hcounts := h.counts
  generalize hnew : (if s.inflightN - 1 = 0 then Phase.ended else .gone) = p'
  have hp' : p'.inFlight = false ∧ p'.admitted = false := by
    rw [← hnew]
    split <;> exact ⟨rfl, rfl⟩
  refine ⟨?_, h.flagged, fun w hw hdone q hq => ?_, h.oneWaits, fun hw => ?_⟩
  · have := countP_set_add (b := p') Phase.inFlight hi
    rw [if_pos hfly, if_neg (by simp [hp'.1])] at this
    simp only [Link.setRequest]
    omega
  · rcases List.mem_or_eq_of_mem_set hq with hold | rfl
    · exact h.released w hw hdone q hold
    · exact hp'.2
  · by_cases hzero : s.inflightN - 1 = 0
    · rw [if_pos hzero] at hnew
      subst hnew
      exact .inr (.inr (.inl (mem_set_new hi)))
    · refine .inr (.inl ?_)
      dsimp only
      omega

theorem Inv.load (h : Inv s) (hi : s.requests[i]? = some .ended) :
    Inv (s.setRequest i (if s.shuttingDown then .signaling else .gone)) := by
  generalize hnew : (if s.shuttingDown then Phase.signaling else .gone) = p'
  have hp' : p'.inFlight = false ∧ p'.admitted = false := by
    rw [← hnew]
    split <;> exact ⟨rfl, rfl⟩
  refine ⟨?_, h.flagged, fun w hw hdone q hq => ?_, h.oneWaits, fun hw => ?_⟩
  · have := countP_set_add (b := p') Phase.inFlight hi
    rw [if_neg (by simp [Phase.inFlight]), if_neg (by simp [hp'.1])] at this
    simp only [Link.setRequest, h.counts]
    omega
  · rcases List.mem_or_eq_of_mem_set hq with hold | rfl
    · exact h.released w hw hdone q hold
    · exact hp'.2
  · rw [if_pos (h.flagged _ hw nofun)] at hnew
    subst hnew
    exact .inr (.inr (.inr (mem_set_new hi)))

theorem Inv.signal (h : Inv s) (hi : s.requests[i]? = some .signaling) :
    Inv { s.setRequest i .gone with drained := true } where
  counts := by
    have := countP_set_add (b := .gone) Phase.inFlight hi
    rw [if_neg (by simp [Phase.inFlight]), if_neg (by simp [Phase.inFlight])] at this
    simp only [Link.setRequest, h.counts]
    omega
  flagged := h.flagged
  released w hw hdone q hq := by
    rcases List.mem_or_eq_of_mem_set hq with hold | rfl
    · exact h.released w hw hdone q hold
    · rfl
  oneWaits := h.oneWaits
  woken _ := .inl rfl

theorem Inv.shutdown (h : Inv s) : Inv { s with calls := s.calls ++ [.starting] } where
  counts := h.counts
  flagged w hw hne := by
    rcases List.mem_append.mp hw with hold | hnew
    · exact h.flagged w hold hne
    · exact absurd (List.mem_singleton.mp hnew) hne
  released w hw hdone := by
    rcases List.mem_append.mp hw with hold | hnew
    · exact h.released w hold hdone
    · rw [List.mem_singleton.mp hnew] at hdone
      rcases hdone with hdone | hdone <;> cases hdone
  oneWaits := by
    have := h.oneWaits
    simpa [List.countP_append] using this
  woken hw := by
    rcases List.mem_append.mp hw with hold | hnew
    · exact h.woken hold
    · cases List.mem_singleton.mp hnew

theorem Inv.callMoves (h : Inv s) {w x : Stage} (hc : s.calls[c]? = some w)
    (hx : x ≠ .waiting) (hflag : s.shuttingDown = true)
    (hdone : x = .stopping ∨ x = .returnedNil → ∀ p ∈ s.requests, p.admitted = false) :
    Inv (s.setCall c x) where
  counts := h.counts
  flagged _ _ _ := hflag
  released v hv hd := by
    rcases List.mem_or_eq_of_mem_set hv with hold | rfl
    · exact h.released v hold hd
    · exact hdone hd
  oneWaits := by
    have := countP_set_add (b := x) (fun x => decide (x = .waiting)) hc
    have hnone : (if decide (x = .waiting) = true then 1 else 0) = 0 := if_neg (by simpa using hx)
    have := h.oneWaits
    simp only [Link.setCall]
    omega
  woken hw := by
    rcases List.mem_or_eq_of_mem_set hw with hold | heq
    · exact h.woken hold
    · exact absurd heq.symm hx

theorem Inv.store (h : Inv s) (hc : s.calls[c]? = some .starting) :
    Inv { s.setCall c .releasingHeld with shuttingDown := true } := by
  have hset : Inv { s with shuttingDown := true } :=
    ⟨h.counts, fun _ _ _ => rfl, h.released, h.oneWaits, h.woken⟩
  exact hset.callMoves hc nofun rfl (by rintro (he | he) <;> cases he)

theorem Inv.check (h : Inv s) (hc : s.calls[c]? = some .checking) (hok : OneWaits s (.check c)) :
    Inv (s.setCall c (if 0 < s.inflightN then .waiting else .stopping)) := by
  have hflag := h.flagged _ (List.mem_of_getElem? hc) nofun
  by_cases hpos : 0 < s.inflightN
  · rw [if_pos hpos]
    have hnone := hok c rfl hpos
    refine ⟨h.counts, fun _ _ _ => hflag, fun v hv hd => ?_, ?_, fun _ => .inr (.inl hpos)⟩
    · rcases List.mem_or_eq_of_mem_set hv with hold | rfl
      · exact h.released v hold hd
      · rcases hd with hd | hd <;> cases hd
    · have hadd := countP_set_add (b := .waiting) (fun x => decide (x = Stage.waiting)) hc
      have hzero : s.calls.countP (fun x => decide (x = Stage.waiting)) = 0 := by
        rw [List.countP_eq_zero]
        rintro x hx
        simp only [decide_eq_true_eq]
        rintro rfl
        exact hnone hx
      simp only [Link.setCall]
      simp [hzero] at hadd
      omega
  · rw [if_neg hpos]
    refine h.callMoves hc nofun hflag fun _ p hp => ?_
    -- Nothing is in flight, so nothing that was accepted is left.
    have hzero : s.requests.countP Phase.inFlight = 0 := by
      have := h.counts
      omega
    have hidle := List.countP_eq_zero.mp hzero p hp
    cases p <;> first | rfl | exact absurd rfl hidle

theorem Inv.wake (h : Inv s) (hc : s.calls[c]? = some .waiting) :
    Inv { s.setCall c .checking with drained := false } := by
  have hmoved := h.callMoves hc (x := .checking) nofun (h.flagged _ (List.mem_of_getElem? hc) nofun)
    (by rintro (he | he) <;> cases he)
  refine ⟨hmoved.counts, hmoved.flagged, hmoved.released, hmoved.oneWaits, fun hw => ?_⟩
  -- The call that took the token was the only one that waited.
  have hadd := countP_set_add (b := .checking) (fun x => decide (x = Stage.waiting)) hc
  have hone := h.oneWaits
  have hpos : 0 < (s.calls.set c .checking).countP (fun x => decide (x = Stage.waiting)) :=
    List.countP_pos_iff.mpr ⟨_, hw, by simp⟩
  simp at hadd
  omega

theorem Inv.step (h : Inv s) {a : Act} (hok : OneWaits s a) (hstep : step s a = some s') : Inv s' := by
  cases a with
  | arrive => exact Option.some.inj hstep ▸ h.arrive
  | route i =>
    obtain ⟨hi, rfl⟩ := Machine.of_guard hstep
    refine h.moves hi rfl ?_ fun hadm => .inr ?_
    · split <;> rfl
    · rw [← Bool.not_eq_true]
      intro hflag
      simp [hflag, Phase.admitted] at hadm
  | enqueue i | take i =>
    obtain ⟨hi, rfl⟩ := Machine.of_guard hstep
    exact h.moves hi rfl rfl fun _ => .inl rfl
  | release i =>
    obtain ⟨hi, hs⟩ := Option.ite_none_right_eq_some.mp hstep
    cases hp : s.requests[i]? with
    | none => simp [hp] at hi
    | some p =>
      rw [hp] at hi
      exact Option.some.inj hs ▸ h.release hp hi
  | load i =>
    obtain ⟨hi, rfl⟩ := Machine.of_guard hstep
    exact h.load hi
  | signal i =>
    obtain ⟨hi, rfl⟩ := Machine.of_guard hstep
    exact h.signal hi
  | shutdown => exact Option.some.inj hstep ▸ h.shutdown
  | store c =>
    obtain ⟨hc, rfl⟩ := Machine.of_guard hstep
    exact h.store hc
  | releaseHeld c =>
    obtain ⟨hc, rfl⟩ := Machine.of_guard hstep
    exact h.callMoves hc nofun (h.flagged _ (List.mem_of_getElem? hc) nofun)
      (by rintro (he | he) <;> cases he)
  | check c =>
    obtain ⟨hc, rfl⟩ := Machine.of_guard hstep
    exact h.check hc hok
  | wake c =>
    obtain ⟨hc, rfl⟩ := Machine.of_guard hstep
    exact h.wake hc.1
  | giveUp c =>
    obtain ⟨hc, rfl⟩ := Machine.of_guard hstep
    exact h.callMoves hc nofun (h.flagged _ (List.mem_of_getElem? hc) nofun)
      (by rintro (he | he) <;> cases he)
  | stopServe c =>
    obtain ⟨hc, hs⟩ := Option.ite_none_right_eq_some.mp hstep
    have hmoved := h.callMoves hc (x := .returnedNil) nofun
      (h.flagged _ (List.mem_of_getElem? hc) nofun)
      fun _ => h.released _ (List.mem_of_getElem? hc) (.inl rfl)
    exact Option.some.inj hs ▸ ⟨hmoved.counts, hmoved.flagged, hmoved.released, hmoved.oneWaits,
      hmoved.woken⟩

theorem Inv.stable (h : Inv s) (hs : s.Stable) :
    s.inflightN = 0 ∧ (.waiting ∈ s.calls → s.drained = true) := by
  have hzero : s.inflightN = 0 := by
    rw [h.counts, List.countP_eq_zero.mpr]
    · rfl
    · intro p hp
      rw [hs p hp]
      nofun
  refine ⟨hzero, fun hw => ?_⟩
  rcases h.woken hw with hd | hn | he | he
  · exact hd
  · omega
  · cases hs _ he
  · cases hs _ he

theorem runFrom_check {w : Stage} (hw : s.calls[c]? = some w) (hc : w = .checking)
    (hzero : s.inflightN = 0) :
    ∃ t, machine.runFrom s [.check c, .stopServe c] = some t ∧ t.calls[c]? = some .returnedNil := by
  subst hc
  obtain ⟨hlt, hval⟩ := List.getElem?_eq_some_iff.mp hw
  refine ⟨{ s with calls := (s.calls.set c .stopping).set c .returnedNil, serveStopped := true }, ?_, ?_⟩
  · simp [Machine.runFrom, machine, step, hzero, Link.setCall, hlt, hval]
  · simp [hlt]

theorem Inv.notStuck (h : Inv s) (hs : s.Stable) {w : Stage} (hc : s.calls[c]? = some w)
    (hw : w ≠ .returnedErr) :
    ∃ as s', (∀ a ∈ as, a.Advances c) ∧ machine.runFrom s as = some s' ∧
      s'.calls[c]? = some .returnedNil := by
  obtain ⟨hzero, hdrained⟩ := h.stable hs
  obtain ⟨hlt, hval⟩ := List.getElem?_eq_some_iff.mp hc
  have hadv : ∀ a ∈ [Act.check c, .stopServe c], a.Advances c := by simp [Act.Advances]
  -- What leads to the check comes first, the rest is the same for every stage.
  have hfrom : ∀ (pre : List Act) (t : Link), (∀ a ∈ pre, a.Advances c) →
      machine.runFrom s pre = some t → t.calls[c]? = some .checking → t.inflightN = 0 →
      ∃ as s', (∀ a ∈ as, a.Advances c) ∧ machine.runFrom s as = some s' ∧
        s'.calls[c]? = some .returnedNil := by
    intro pre t hpre hrun hcheck ht
    obtain ⟨u, hu, hnil⟩ := runFrom_check hcheck rfl ht
    refine ⟨pre ++ [.check c, .stopServe c], u, fun a ha => ?_, ?_, hnil⟩
    · rcases List.mem_append.mp ha with ha | ha
      · exact hpre a ha
      · exact hadv a ha
    · rw [Machine.runFrom_append, hrun, Option.bind_some]
      exact hu
  cases w with
  | starting =>
    refine hfrom [.store c, .releaseHeld c] { s with
      calls := (s.calls.set c .releasingHeld).set c .checking, shuttingDown := true }
      (by simp [Act.Advances]) ?_ (by simp [hlt]) hzero
    simp [Machine.runFrom, machine, Shutdown.step, Link.setCall, hlt, hval]
  | releasingHeld =>
    refine hfrom [.releaseHeld c] { s with calls := s.calls.set c .checking }
      (by simp [Act.Advances]) ?_ (by simp [hlt]) hzero
    simp [Machine.runFrom, machine, Shutdown.step, Link.setCall, hlt, hval]
  | checking => exact hfrom [] s (by simp) rfl hc hzero
  | waiting =>
    have hd := hdrained (List.mem_of_getElem? hc)
    refine hfrom [.wake c] { s with calls := s.calls.set c .checking, drained := false }
      (by simp [Act.Advances]) ?_ (by simp [hlt]) hzero
    simp [Machine.runFrom, machine, Shutdown.step, Link.setCall, hlt, hval, hd]
  | stopping =>
    refine ⟨[.stopServe c], { s with calls := s.calls.set c .returnedNil, serveStopped := true },
      by simp [Act.Advances], ?_, by simp [hlt]⟩
    simp [Machine.runFrom, machine, Shutdown.step, Link.setCall, hlt, hval]
  | returnedNil => exact ⟨[], s, by simp, rfl, hc⟩
  | returnedErr => exact absurd rfl hw

theorem shutdown_drains (s : Link) (h : machine.Reach OneWaits s) : ShutdownOk s := by
  have hinv : Inv s := h.invariant Inv.init fun s a s' _ hs hok hstep => hs.step hok hstep
  refine ⟨hinv.counts, fun hnil => ⟨hinv.flagged _ hnil nofun, fun p hp => ?_⟩,
    fun hs c w hc hw => hinv.notStuck hs hc hw⟩
  have hadm := hinv.released _ hnil (.inr rfl) p hp
  refine ⟨?_, ?_, ?_⟩ <;> rintro rfl <;> cases hadm

def oneCall : List Act :=
  [.arrive, .route 0, .enqueue 0, .take 0, .shutdown, .store 0, .releaseHeld 0, .check 0,
   .release 0, .load 0, .signal 0, .wake 0, .check 0, .stopServe 0]

theorem shutdown_drains_one_call :
    ∃ s, machine.Reach OneWaits s ∧ .returnedNil ∈ s.calls ∧ ShutdownOk s :=
  Machine.exists_reach_and oneCall (by decide +kernel) fun s hs _ => shutdown_drains s hs

def twoCalls : List Act :=
  [.arrive, .route 0, .enqueue 0, .take 0,
   .shutdown, .store 0, .releaseHeld 0, .check 0,
   .shutdown, .store 1, .releaseHeld 1, .check 1,
   .release 0, .load 0, .signal 0, .wake 0, .check 0, .stopServe 0]

/-- The second call waits for a token that nobody will send. -/
theorem second_call_stays_blocked :
    ∃ s, machine.Reachable s ∧ (s.Stable ∧ s.calls[0]? = some .returnedNil ∧
      s.calls[1]? = some .waiting ∧ step s (.wake 1) = none) :=
  Machine.exists_reachable twoCalls (by decide +kernel)

end Hqq.Shutdown
