import Hqq.Listener.Spec
import Hqq.Ring.Sides

/-!
# The invariant of the connect ring

Clients stay on the producer side, the dispatcher is the only consumer, and the sweep remembers a
position that the dispatcher has not passed when it loaded it.
-/

namespace Hqq.Listener

open Hqq.Ring (Mem Elem Advances)

variable {Cid V Req : Type} {width : Nat} {cfg : Setup V Req width} {base : Nat}
  {s s' : State Cid V width} {σ : Nat → Nat}

/-! ## What a step may assume -/

def Awake (s : State Cid V width) : Act Cid V Req width → Prop
  | .client c => Ring.Awake s.ring (some c)
  | .sweep => s.sweep ≠ .idle → s.ring.hist.consumed.length < s.sweptAt + 2 ^ 63
  | _ => True

/-- A client whose slot was recovered stores into it only until the dispatcher releases it. -/
def OnTime (s : State Cid V width) : Act Cid V Req width → Prop
  | .client c => Ring.OnTime s.ring (some c)
  | _ => True

instance (s : State Cid V width) : (a : Act Cid V Req width) → Decidable (Awake s a)
  | .client c => inferInstanceAs (Decidable (Ring.Awake s.ring (some c)))
  | .sweep => inferInstanceAs (Decidable (_ → _))
  | .connect _ _ _ | .giveUp _ | .kill _ | .dispatch | .tick => inferInstanceAs (Decidable True)

instance (s : State Cid V width) : (a : Act Cid V Req width) → Decidable (OnTime s a)
  | .client c => inferInstanceAs (Decidable (Ring.OnTime s.ring (some c)))
  | .connect _ _ _ | .giveUp _ | .kill _ | .dispatch | .tick | .sweep =>
    inferInstanceAs (Decidable True)

def Sweep.Knows (base : Nat) (s : State Cid V width) : Sweep → Prop
  | .idle => True
  | .loadW _ r => r = word (base + s.sweptAt) ∧ s.sweptAt ≤ s.ring.hist.consumed.length
  | .loadSeq _ r w => r = word (base + s.sweptAt) ∧ s.sweptAt ≤ s.ring.hist.consumed.length ∧
      ∃ n, w = word (base + n) ∧ s.sweptAt ≤ n ∧ n ≤ s.ring.hist.produced.length
  | .swap r => r = word (base + s.sweptAt) ∧ s.sweptAt ≤ s.ring.hist.consumed.length ∧
      s.sweptAt < s.ring.hist.produced.length

structure Inv (cfg : Setup V Req width) (base : Nat) (s : State Cid V width) (σ : Nat → Nat) :
    Prop where
  ring : Ring.Inv cfg.size base s.ring σ
  clients : ∀ c, (s.ring.pc (some c)).Producing
  dispatcher : Ring.Alone s.ring none
  sweep : s.sweep.Knows base s

theorem Sweep.Knows.mono {p : Sweep} (h : p.Knows base s) (hat : s'.sweptAt = s.sweptAt)
    (hc : s.ring.hist.consumed.length ≤ s'.ring.hist.consumed.length)
    (hp : s.ring.hist.produced.length ≤ s'.ring.hist.produced.length) : p.Knows base s' := by
  cases p with
  | idle => trivial
  | loadW _ r =>
    simp only [Sweep.Knows, hat] at h ⊢
    exact ⟨h.1, by omega⟩
  | loadSeq _ r w =>
    simp only [Sweep.Knows, hat] at h ⊢
    obtain ⟨h1, h2, n, h3, h4, h5⟩ := h
    exact ⟨h1, by omega, n, h3, h4, by omega⟩
  | swap r =>
    simp only [Sweep.Knows, hat] at h ⊢
    exact ⟨h.1, by omega, by omega⟩

/-! ## Steps on the ring -/

theorem Inv.clientStep (hi : Inv cfg base s σ) {c : Cid} {ring : Ring.State (Option Cid) V width}
    {σ' : Nat → Nat} (hring : Ring.Inv cfg.size base ring σ')
    (hstep : Ring.ProducerStep (some c) s.ring ring) : Inv cfg base { s with ring } σ' := by
  refine ⟨hring, fun c' => ?_, ?_, ?_⟩
  · rcases eq_or_ne c' c with rfl | hne
    · exact hstep.producing
    · rw [show ring.pc (some c') = s.ring.pc (some c') from hstep.pc_eq _ (by simpa using hne)]
      exact hi.clients c'
  · have := hi.dispatcher
    simp only [Ring.Alone, hstep.pc_eq none (by simp), hstep.loaded_eq none (by simp),
      hstep.consumed_eq] at this ⊢
    exact this
  · exact hi.sweep.mono rfl (by simp [hstep.consumed_eq]) hstep.produced_le

theorem Inv.dispatcherStep (hi : Inv cfg base s σ) {ring : Ring.State (Option Cid) V width}
    {σ' : Nat → Nat} (hring : Ring.Inv cfg.size base ring σ')
    (hstep : Ring.ConsumerStep none s.ring ring) : Inv cfg base { s with ring } σ' := by
  refine ⟨hring, fun c => ?_, hstep.alone, ?_⟩
  · rw [show ring.pc (some c) = s.ring.pc (some c) from hstep.pc_eq _ (by simp)]
    exact hi.clients c
  · exact hi.sweep.mono rfl hstep.consumed_le (by simp [hstep.produced_eq])

variable [DecidableEq Cid]

omit [DecidableEq Cid] in
/-- The cursor of the only consumer does not run away from it. -/
theorem awake_of_alone {Tid : Type} {s : Ring.State Tid V width} {t : Tid} (h : Ring.Alone s t) :
    Ring.Awake s t ∧ Ring.OnTime s t := by
  simp only [Ring.Alone] at h
  cases hpc : s.pc t <;> simp_all [Ring.Awake, Ring.OnTime, Ring.Pc.seeksW, Ring.Pc.seeksR,
    Ring.Pc.stores]

theorem Inv.of_dispatch (hi : Inv cfg base s σ)
    (h : step cfg s .dispatch = some s') :
    Ring.ConsumerStep none s.ring s'.ring ∧ s' = { s with ring := s'.ring } ∧
    ∃ σ', Advances cfg.size σ σ' ∧ Inv cfg base s' σ' := by
  have halone := hi.dispatcher
  cases hpc : s.ring.pc none with
  | idle =>
    simp only [step, hpc, State.onRing, Option.map_eq_some_iff] at h
    obtain ⟨ring, hring, rfl⟩ := h
    obtain ⟨σ', hadv, hi'⟩ := hi.ring.of_step (a := .dequeue none) trivial trivial hring
    simp only [Ring.step, hpc, Option.some.injEq] at hring
    subst hring
    have hstep : Ring.ConsumerStep none s.ring (s.ring.goto none (.loadR false)) :=
      ⟨Ring.Frame.goto (fun _ _ => rfl) rfl, by simp [Ring.Alone, Ring.State.goto], rfl, rfl, rfl,
        le_refl _⟩
    exact ⟨hstep, rfl, σ', hadv, hi.dispatcherStep hi' hstep⟩
  | _ =>
    simp only [step, hpc, State.onRing, Option.map_eq_some_iff] at h
    obtain ⟨ring, hring, rfl⟩ := h
    obtain ⟨hawake, htime⟩ := awake_of_alone halone
    obtain ⟨σ', hadv, hi'⟩ := hi.ring.of_next hawake htime hring
    have hstep := Ring.ConsumerStep.of_next halone hring
    exact ⟨hstep, rfl, σ', hadv, hi.dispatcherStep hi' hstep⟩

omit [DecidableEq Cid] in
theorem Inv.stuck (hi : Inv cfg base s σ)
    (hle : s.sweptAt ≤ s.ring.hist.consumed.length)
    (hlt : s.ring.hist.consumed.length < s.sweptAt + 2 ^ 63)
    (hseq : s.ring.mem.seq (Ring.slot cfg.size (word (base + s.sweptAt))) =
      word (base + s.sweptAt)) :
    s.sweptAt = s.ring.hist.consumed.length ∧
      σ ((base + s.sweptAt) % cfg.size.toNat) = base + s.sweptAt := by
  have hN := Ring.size_bounds hi.ring.size_ok
  have hnear := hi.ring.near s.sweptAt
  rw [hi.ring.slot_seq] at hseq
  have hσ := (word_inj (by omega) (by omega)).mp hseq
  refine ⟨?_, hσ⟩
  by_contra hne
  have := hi.ring.passed (show s.sweptAt < s.ring.hist.consumed.length by omega)
  omega

omit [DecidableEq Cid] in
theorem Inv.of_sweepNext (hi : Inv cfg base s σ)
    (hawake : Awake s (.sweep : Act Cid V Req width)) (h : sweepNext cfg s = some s') :
    ∃ σ', Advances cfg.size σ σ' ∧ Inv cfg base s' σ' := by
  have hsame := Advances.refl (σ := σ) hi.ring.size_ok
  have hk := hi.sweep
  unfold sweepNext at h
  cases hp : s.sweep with
  | idle =>
    simp only [hp] at h
    split_ifs at h
    cases h
    exact ⟨σ, hsame, hi.ring, hi.clients, hi.dispatcher, hi.ring.r_eq, le_refl _⟩
  | loadW now r =>
    simp only [hp, Option.some.injEq, Sweep.Knows] at h hk
    subst h
    exact ⟨σ, hsame, hi.ring, hi.clients, hi.dispatcher, hk.1, hk.2, _, hi.ring.w_eq,
      hk.2.trans hi.ring.le, le_refl _⟩
  | loadSeq now r w =>
    simp only [hp, Sweep.Knows] at h hk
    obtain ⟨hr, hle, n, hw, hn, hnp⟩ := hk
    split_ifs at h with h1 h2 h3 <;> cases h
    · exact ⟨σ, hsame, hi.ring, hi.clients, hi.dispatcher, trivial⟩
    · exact ⟨σ, hsame, hi.ring, hi.clients, hi.dispatcher, trivial⟩
    · exact ⟨σ, hsame, hi.ring, hi.clients, hi.dispatcher, trivial⟩
    · refine ⟨σ, hsame, hi.ring, hi.clients, hi.dispatcher, hr, hle, ?_⟩
      -- The producer cursor was seen ahead.
      have hne : s.sweptAt ≠ n := by
        rintro rfl
        rw [hw, hr] at h1
        simp at h1
      change s.sweptAt < s.ring.hist.produced.length
      omega
  | swap r =>
    replace hawake := hawake (by simp [hp])
    simp only [hp, Sweep.Knows] at h hk
    obtain ⟨hr, hle, hlt⟩ := hk
    split_ifs at h with hseq <;> cases h
    · rw [hr] at hseq
      obtain ⟨heq, hσ⟩ := hi.stuck hle hawake hseq
      obtain ⟨σ', hadv, hi'⟩ := hi.ring.recovered (by omega) hlt hσ
      rw [← hr] at hi'
      exact ⟨σ', hadv, hi', hi.clients, hi.dispatcher, trivial⟩
    · exact ⟨σ, hsame, hi.ring, hi.clients, hi.dispatcher, trivial⟩

theorem Inv.of_step (hi : Inv cfg base s σ)
    {a : Act Cid V Req width} (hawake : Awake s a) (htime : OnTime s a)
    (h : step cfg s a = some s') : ∃ σ', Advances cfg.size σ σ' ∧ Inv cfg base s' σ' := by
  have hsame := Advances.refl (σ := σ) hi.ring.size_ok
  cases a with
  | connect c q e =>
    simp only [step] at h
    split_ifs at h
    simp only [State.onRing, Option.map_eq_some_iff] at h
    obtain ⟨ring, hring, rfl⟩ := h
    obtain ⟨σ', hadv, hi'⟩ := hi.ring.of_step (a := .enqueue (some c) e) trivial trivial hring
    simp only [Ring.step] at hring
    split at hring <;> cases hring
    refine ⟨σ', hadv, hi.clientStep hi' ⟨Ring.Frame.goto (fun _ _ => rfl) rfl, ?_, rfl, rfl, rfl,
      le_refl _⟩⟩
    simp [Ring.State.goto, Ring.Pc.Producing]
  | client c =>
    simp only [step] at h
    split_ifs at h
    simp only [State.onRing, Option.map_eq_some_iff] at h
    obtain ⟨ring, hring, rfl⟩ := h
    obtain ⟨σ', hadv, hi'⟩ := hi.ring.of_next hawake htime hring
    exact ⟨σ', hadv, hi.clientStep hi' (Ring.ProducerStep.of_next (hi.clients c) hring)⟩
  | giveUp c =>
    simp only [step] at h
    split_ifs at h
    simp only [State.onRing, Option.map_eq_some_iff] at h
    obtain ⟨ring, hring, rfl⟩ := h
    obtain ⟨σ', hadv, hi'⟩ := hi.ring.of_step (a := .giveUp (some c)) trivial trivial hring
    simp only [Ring.step] at hring
    split at hring <;> simp only [Option.some.injEq, reduceCtorEq] at hring
    all_goals
      subst hring
      refine ⟨σ', hadv, hi.clientStep hi' ⟨Ring.Frame.goto (fun _ _ => rfl) rfl, ?_, rfl, rfl, rfl,
        le_refl _⟩⟩
      simp [Ring.State.goto, Ring.Pc.Producing]
  | kill c =>
    simp only [step, Option.some.injEq] at h
    subst h
    exact ⟨σ, hsame, hi.ring, hi.clients, hi.dispatcher, hi.sweep.mono rfl (le_refl _) (le_refl _)⟩
  | dispatch => exact (hi.of_dispatch h).2.2
  | tick =>
    simp only [step, Option.some.injEq] at h
    subst h
    exact ⟨σ, hsame, hi.ring, hi.clients, hi.dispatcher, hi.sweep.mono rfl (le_refl _) (le_refl _)⟩
  | sweep => exact hi.of_sweepNext hawake h

theorem Inv.start {m : Mem V width} (hsize : Ring.validRingSize cfg.size = true)
    (hstart : Ring.StartsAt cfg.size base m) :
    Inv cfg base (machine Cid cfg m).init (Ring.firstAt cfg.size base) :=
  ⟨Ring.Inv.start hsize hstart, fun _ => trivial, trivial, trivial⟩

end Hqq.Listener
