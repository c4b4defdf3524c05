import Hqq.Listener.Invariant
import Hqq.Ring.Delivery
import Mathlib.Logic.Relation

/-!
# Recovery of stuck slots

The producer completes its slot with a plain store, so everything depends on that store coming
before the dispatcher releases the slot.
-/

namespace Hqq.Listener

open Hqq.Ring (Mem Elem Advances)
open Relation (ReflTransGen)

variable {Cid V Req : Type} [DecidableEq Cid] {width : Nat} {cfg : Setup V Req width} {base : Nat}
  {s s' : State Cid V width} {σ : Nat → Nat} {m : Mem V width}

/-! ## Sequence words go up -/

theorem toInt_word_sub_nonneg {p q : Nat} (h1 : p ≤ q) (h2 : q < p + 2 ^ 63) :
    0 ≤ (word q - word p).toInt := by
  have h := word_sub_toNat h1 (by omega)
  rw [BitVec.toInt_eq_toNat_of_lt (by omega)]
  exact Int.natCast_nonneg _

theorem Inv.seq_mono (hi : Inv cfg base s σ)
    {a : Act Cid V Req width} (hawake : Awake s a) (htime : OnTime s a)
    (h : step cfg s a = some s') {j : Nat} (hj : j < cfg.size.toNat) :
    0 ≤ (s'.ring.mem.seq j - s.ring.mem.seq j).toInt := by
  have hN := Ring.size_bounds hi.ring.size_ok
  obtain ⟨σ', hadv, hi'⟩ := hi.of_step hawake htime h
  rw [hi'.ring.seq_eq j hj, hi.ring.seq_eq j hj]
  have := hadv j
  exact toInt_word_sub_nonneg this.1 (by omega)

/-! ## A late producer -/

theorem Inv.late_producer (hi : Inv cfg base s σ)
    {c : Cid} {e : Elem V width} {pos : Word} {i : Nat}
    (hpc : s.ring.pc (some c) = .write e pos i)
    (hrec : s.ring.hist.loaded (some c) ∈ s.ring.hist.recovered)
    (htime : OnTime s (.client c : Act Cid V Req width))
    (h : step cfg s (.client c) = some s') :
    s'.ring.mem.seq = s.ring.mem.seq ∧
    ∀ n, s.ring.hist.loaded (some c) < n → n < s.ring.hist.produced.length →
      s'.ring.mem.data (Ring.slot cfg.size (word (base + n))) =
        s.ring.mem.data (Ring.slot cfg.size (word (base + n))) := by
  obtain ⟨hlt, hlap, hσ⟩ := hi.ring.writer hpc htime
  have hw := hi.ring.holds (some c)
  simp only [hpc, Ring.Holds] at hw
  have hseq : s.ring.mem.seq (Ring.slot cfg.size pos) = pos + 1 := by
    rw [hw.1, hi.ring.slot_seq, hσ hrec, word_succ]
  simp only [step] at h
  split_ifs at h
  simp only [State.onRing, Option.map_eq_some_iff, Ring.step, Ring.next, hpc] at h
  obtain ⟨ring, hring, rfl⟩ := h
  split_ifs at hring with hi' <;> cases hring
  · refine ⟨rfl, fun n hn hnp => ?_⟩
    refine Function.update_of_ne ?_ _ _
    rw [hw.1, Ring.slot_word hi.ring.size_ok, Ring.slot_word hi.ring.size_ok]
    intro hslot
    have := Ring.lap_inj hnp (by omega) hlt hlap hslot
    omega
  · refine ⟨?_, fun _ _ _ => rfl⟩
    change Function.update s.ring.mem.seq (Ring.slot cfg.size pos) (pos + 1) = _
    rw [← hseq, Function.update_eq_self]

/-! ## The ring stays usable -/

def Act.OfAcceptor : Act Cid V Req width → Prop
  | .dispatch | .tick | .sweep => True
  | _ => False

def AcceptorStep (cfg : Setup V Req width) (s s' : State Cid V width) : Prop :=
  ∃ a : Act Cid V Req width, a.OfAcceptor ∧ step cfg s a = some s'

theorem exists_run (h : ReflTransGen (AcceptorStep cfg) s s') :
    ∃ as : List (Act Cid V Req width), (∀ a ∈ as, a.OfAcceptor) ∧
      (machine Cid cfg m).runFrom s as = some s' := by
  induction h with
  | refl => exact ⟨[], by simp, rfl⟩
  | tail _ hstep ih =>
    obtain ⟨as, has, hrun⟩ := ih
    obtain ⟨a, ha, hstep⟩ := hstep
    refine ⟨as ++ [a], by simpa using fun b hb => hb.elim (has b) (· ▸ ha), ?_⟩
    rw [Machine.runFrom_append, hrun, Option.bind_some, Machine.runFrom_cons]
    change (step cfg _ a).bind _ = _
    rw [hstep]
    rfl

/-- An upper bound for the steps of the dispatcher to its next claim, if there is something to
claim. -/
def rank : Ring.Pc V width → Nat
  | .seqR _ _ => 1
  | .waitR _ | .loadR _ => 2
  | .idle => 3
  | .read _ got => 4 + (width - got.length)
  | _ => 0

def Progress (s s' : State Cid V width) : Prop :=
  s'.ring.hist.consumed.length = s.ring.hist.consumed.length + 1 ∨
  s'.ring.hist.consumed = s.ring.hist.consumed ∧ rank (s'.ring.pc none) < rank (s.ring.pc none)

theorem dispatch_of_next {ring : Ring.State (Option Cid) V width} (hpc : s.ring.pc none ≠ .idle)
    (h : Ring.next cfg.size s.ring none = some ring) :
    step cfg s .dispatch = some { s with ring } := by
  simp only [step, State.onRing, Ring.step, h, Option.map_some]

theorem Inv.dispatch_progress (hi : Inv cfg base s σ)
    (hready : s.ring.hist.consumed.length ∈ s.ring.hist.published ∨
      s.ring.hist.consumed.length ∈ s.ring.hist.recovered) :
    ∃ s', step cfg s .dispatch = some s' ∧ Progress s s' := by
  have hσ := hi.ring.readable (le_refl _) hready
  have halone := hi.dispatcher
  have hpcs := hi.ring.holds none
  simp only [Ring.Alone] at halone
  -- A step that claims nothing moves the dispatcher to a program counter of lower rank.
  have hmove : ∀ ring : Ring.State (Option Cid) V width, ring.hist.consumed = s.ring.hist.consumed →
      rank (ring.pc none) < rank (s.ring.pc none) → step cfg s .dispatch = some { s with ring } →
      ∃ s', step cfg s .dispatch = some s' ∧ Progress s s' :=
    fun ring hc hr h => ⟨_, h, Or.inr ⟨hc, hr⟩⟩
  cases hpc : s.ring.pc none with
  | idle =>
    refine hmove (s.ring.goto none (.loadR false)) rfl ?_ ?_
    · simp [Ring.State.goto, hpc, rank]
    · simp [step, hpc, State.onRing, Ring.step]
  | loadR slow =>
    refine hmove { s.ring.goto none (.seqR slow s.ring.mem.r) with
      hist := s.ring.hist.load none s.ring.hist.consumed.length } rfl ?_ ?_
    · simp [Ring.State.goto, hpc, rank]
    · exact dispatch_of_next (by simp [hpc]) (by simp [Ring.next, hpc])
  | waitR pos =>
    refine hmove (s.ring.goto none (.seqR true pos)) rfl ?_ ?_
    · simp [Ring.State.goto, hpc, rank]
    · exact dispatch_of_next (by simp [hpc]) (by simp [Ring.next, hpc])
  | seqR slow pos =>
    simp only [hpc, Ring.Holds] at halone hpcs
    have hseq : s.ring.mem.seq (Ring.slot cfg.size pos) = pos + 1 := by
      rw [hpcs.1, hi.ring.slot_seq, halone, hσ, word_succ]
    refine hmove (s.ring.goto none (.casR slow pos)) rfl ?_ ?_
    · simp [Ring.State.goto, hpc, rank]
    · exact dispatch_of_next (by simp [hpc]) (by simp [Ring.next, hpc, Ring.onDiff, hseq])
  | casR slow pos =>
    simp only [hpc, Ring.Holds] at halone hpcs
    have hr : s.ring.mem.r = pos := by rw [hi.ring.r_eq, hpcs.1, halone]
    refine ⟨_, dispatch_of_next (by simp [hpc])
      (by simp only [Ring.next, hpc, hr, if_true]; rfl), Or.inl ?_⟩
    simp
  | read pos got =>
    by_cases hlt : got.length < width
    · refine hmove (s.ring.goto none
        (.read pos (got ++ [s.ring.mem.data (Ring.slot cfg.size pos) ⟨got.length, hlt⟩]))) rfl ?_ ?_
      · simp only [Ring.State.goto, Function.update_self, hpc, rank, List.length_append,
          List.length_singleton]
        omega
      · exact dispatch_of_next (by simp [hpc]) (by simp [Ring.next, hpc, hlt])
    · refine hmove (s.ring.released none got (Ring.release cfg.size pos s.ring.mem)) rfl ?_ ?_
      · simp only [Ring.State.released, Ring.State.goto, Function.update_self, hpc, rank]
        omega
      · exact dispatch_of_next (by simp [hpc]) (by simp [Ring.next, hpc, hlt])
  | loadW | seqW | casW | waitW | write => simp [hpc] at halone

structure Kept (s s' : State Cid V width) : Prop where
  produced_eq : s'.ring.hist.produced = s.ring.hist.produced
  published_eq : s'.ring.hist.published = s.ring.hist.published
  recovered_le : ∀ n ∈ s.ring.hist.recovered, n ∈ s'.ring.hist.recovered

omit [DecidableEq Cid] in
theorem Kept.trans {s1 : State Cid V width} (h1 : Kept s s1) (h2 : Kept s1 s') : Kept s s' :=
  ⟨h2.produced_eq.trans h1.produced_eq, h2.published_eq.trans h1.published_eq,
    fun n hn => h2.recovered_le n (h1.recovered_le n hn)⟩

theorem Inv.dispatch_run (hi : Inv cfg base s σ)
    (hready : s.ring.hist.consumed.length ∈ s.ring.hist.published ∨
      s.ring.hist.consumed.length ∈ s.ring.hist.recovered) :
    ∃ s' σ', ReflTransGen (AcceptorStep cfg) s s' ∧ Inv cfg base s' σ' ∧ Kept s s' ∧
      s'.sweep = s.sweep ∧
      s'.ring.hist.consumed.length = s.ring.hist.consumed.length + 1 := by
  generalize hk : rank (s.ring.pc none) = k
  induction k using Nat.strong_induction_on generalizing s σ with
  | _ k ih =>
    obtain ⟨s1, hstep, hprog⟩ := hi.dispatch_progress hready
    obtain ⟨hcons, heq, σ1, -, hi1⟩ := hi.of_dispatch hstep
    have hkept : Kept s s1 :=
      ⟨hcons.produced_eq, hcons.published_eq, fun n hn => by rw [hcons.recovered_eq]; exact hn⟩
    have hsweep : s1.sweep = s.sweep := by rw [heq]
    have hone : ReflTransGen (AcceptorStep cfg) s s1 := .single ⟨.dispatch, trivial, hstep⟩
    rcases hprog with hlen | ⟨hsame, hlt⟩
    · exact ⟨s1, σ1, hone, hi1, hkept, hsweep, hlen⟩
    · obtain ⟨s2, σ2, hrun, hi2, hkept2, hsweep2, hlen⟩ := ih _ (hk ▸ hlt) hi1
        (by rw [hsame, hcons.published_eq, hcons.recovered_eq]; exact hready) rfl
      exact ⟨s2, σ2, hone.trans hrun, hi2, hkept.trans hkept2, hsweep2.trans hsweep,
        hlen.trans (by rw [hsame])⟩

/-! ## The sweep gets there -/

omit [DecidableEq Cid] in
theorem Kept.of_sweepNext (h : sweepNext cfg s = some s') :
    Kept s s' ∧ s'.ring.hist.consumed = s.ring.hist.consumed := by
  unfold sweepNext at h
  cases hp : s.sweep with
  | idle =>
    simp only [hp] at h
    split_ifs at h
    cases h
    exact ⟨⟨rfl, rfl, fun _ hn => hn⟩, rfl⟩
  | loadW now r =>
    simp only [hp, Option.some.injEq] at h
    subst h
    exact ⟨⟨rfl, rfl, fun _ hn => hn⟩, rfl⟩
  | loadSeq now r w =>
    simp only [hp] at h
    split_ifs at h <;> cases h
    all_goals exact ⟨⟨rfl, rfl, fun _ hn => hn⟩, rfl⟩
  | swap r =>
    simp only [hp] at h
    split_ifs at h <;> cases h
    · exact ⟨⟨rfl, rfl, fun _ hn => List.mem_append_left _ hn⟩, rfl⟩
    · exact ⟨⟨rfl, rfl, fun _ hn => hn⟩, rfl⟩

def sweepRank : Sweep → Nat
  | .idle => 0
  | .swap _ => 1
  | .loadSeq _ _ _ => 2
  | .loadW _ _ => 3

omit [DecidableEq Cid] in
theorem sweepNext_progress (cfg : Setup V Req width) (h : s.sweep ≠ .idle) :
    ∃ s', sweepNext cfg s = some s' ∧ s'.sweptAt = s.sweptAt ∧
      sweepRank s'.sweep < sweepRank s.sweep := by
  unfold sweepNext
  cases hp : s.sweep with
  | idle => exact absurd hp h
  | loadW now r => exact ⟨_, rfl, rfl, by simp [sweepRank]⟩
  | loadSeq now r w => dsimp only; split_ifs <;> exact ⟨_, rfl, rfl, by simp [sweepRank]⟩
  | swap r => dsimp only; split_ifs <;> exact ⟨_, rfl, rfl, by simp [sweepRank, State.recovered]⟩

theorem Inv.sweep_run (hi : Inv cfg base s σ)
    (hawake : Awake s (.sweep : Act Cid V Req width)) :
    ∃ s' σ', ReflTransGen (AcceptorStep cfg) s s' ∧ Inv cfg base s' σ' ∧ Kept s s' ∧
      s'.sweep = .idle ∧ s'.ring.hist.consumed = s.ring.hist.consumed := by
  generalize hk : sweepRank s.sweep = k
  induction k using Nat.strong_induction_on generalizing s σ with
  | _ k ih =>
    by_cases hidle : s.sweep = .idle
    · exact ⟨s, σ, .refl, hi, ⟨rfl, rfl, fun _ hn => hn⟩, hidle, rfl⟩
    · obtain ⟨s1, hstep, hat, hlt⟩ := sweepNext_progress cfg hidle
      obtain ⟨σ1, -, hi1⟩ := hi.of_sweepNext hawake hstep
      obtain ⟨hkept, hcons⟩ := Kept.of_sweepNext hstep
      have hawake1 : Awake s1 (.sweep : Act Cid V Req width) := by
        intro _
        rw [hcons, hat]
        exact hawake hidle
      obtain ⟨s2, σ2, hrun, hi2, hkept2, hend, hcons2⟩ := ih _ (hk ▸ hlt) hi1 hawake1 rfl
      exact ⟨s2, σ2, .head ⟨.sweep, trivial, hstep⟩ hrun, hi2, hkept.trans hkept2, hend,
        hcons2.trans hcons⟩

theorem tick_run (cfg : Setup V Req width) (s : State Cid V width) (n : Nat) :
    ReflTransGen (AcceptorStep cfg) s { s with clock := s.clock + n } := by
  induction n with
  | zero => exact .refl
  | succ n ih => exact ih.tail ⟨.tick, trivial, rfl⟩

structure Stuck (cfg : Setup V Req width) (s : State Cid V width) : Prop where
  ahead : 0 < (s.ring.mem.w - s.ring.mem.r).toInt
  claimed : s.ring.mem.seq (Ring.slot cfg.size s.ring.mem.r) = s.ring.mem.r

def Overdue (cfg : Setup V Req width) (s : State Cid V width) : Prop :=
  s.stuckSeen = true ∧ s.stuckPos = s.ring.mem.r ∧
    cfg.stuckSlotTimeout ≤ (s.clock : Int) - s.stuckSince

theorem look_run (htimeout : 0 < cfg.stuckSlotTimeout) (hidle : s.sweep = .idle)
    (hstuck : Stuck cfg s) :
    ∃ s', ReflTransGen (AcceptorStep cfg) s s' ∧ s'.ring = s.ring ∧
      (s'.sweep = .swap s.ring.mem.r ∧ s'.sweptAt = s.ring.hist.consumed.length ∨
        s'.sweep = .idle ∧ s'.stuckSeen = true ∧ s'.stuckPos = s.ring.mem.r ∧
          ¬ Overdue cfg s) := by
  let s1 : State Cid V width :=
    { s with sweep := .loadW s.clock s.ring.mem.r, sweptAt := s.ring.hist.consumed.length }
  let s2 : State Cid V width := { s1 with sweep := .loadSeq s.clock s.ring.mem.r s.ring.mem.w }
  have h1 : AcceptorStep cfg s s1 :=
    ⟨.sweep, trivial, by simp [step, sweepNext, hidle, not_le.mpr htimeout, s1]⟩
  have h2 : AcceptorStep cfg s1 s2 := ⟨.sweep, trivial, rfl⟩
  have hlook : ¬ ((s.ring.mem.w - s.ring.mem.r).toInt ≤ 0 ∨
      s.ring.mem.seq (Ring.slot cfg.size s.ring.mem.r) ≠ s.ring.mem.r) := by
    rw [not_or, not_le, not_not]
    exact ⟨hstuck.ahead, hstuck.claimed⟩
  have hrun : ReflTransGen (AcceptorStep cfg) s s2 := (ReflTransGen.single h1).tail h2
  have h3 : step cfg s2 .sweep = if !s.stuckSeen ∨ s.stuckPos ≠ s.ring.mem.r then
      some { s2 with sweep := .idle, stuckSeen := true, stuckPos := s.ring.mem.r,
                     stuckSince := s.clock }
    else if (s.clock : Int) - s.stuckSince < cfg.stuckSlotTimeout then
      some { s2 with sweep := .idle }
    else some { s2 with sweep := .swap s.ring.mem.r } := by
    simp only [step, sweepNext, s2, s1, hlook, if_false]
  split_ifs at h3 with hseen hyoung
  · refine ⟨_, hrun.tail ⟨.sweep, trivial, h3⟩, rfl, Or.inr ⟨rfl, rfl, rfl, ?_⟩⟩
    rintro ⟨ho1, ho2, -⟩
    simp [ho1, ho2] at hseen
  · simp only [Bool.not_eq_true', ne_eq, not_or, Bool.not_eq_false, not_not] at hseen
    refine ⟨_, hrun.tail ⟨.sweep, trivial, h3⟩, rfl, Or.inr ⟨rfl, hseen.1, hseen.2, ?_⟩⟩
    rintro ⟨-, -, ho⟩
    omega
  · exact ⟨_, hrun.tail ⟨.sweep, trivial, h3⟩, rfl, Or.inl ⟨rfl, rfl⟩⟩

omit [DecidableEq Cid] in
theorem Inv.resweep (hi : Inv cfg base s σ) (hring : s'.ring = s.ring)
    (hsweep : s'.sweep.Knows base s') : Inv cfg base s' σ := by
  refine ⟨?_, ?_, ?_, hsweep⟩ <;> rw [hring]
  · exact hi.ring
  · exact hi.clients
  · exact hi.dispatcher

theorem Inv.swap_run (hi : Inv cfg base s σ)
    (hstuck : Stuck cfg s) (hlt : s.ring.hist.consumed.length < s.ring.hist.produced.length)
    (hring : s'.ring = s.ring) (hswap : s'.sweep = .swap s.ring.mem.r)
    (hat : s'.sweptAt = s.ring.hist.consumed.length) :
    ∃ s'' σ'', ReflTransGen (AcceptorStep cfg) s' s'' ∧ Inv cfg base s'' σ'' ∧ Kept s s'' ∧
      s''.sweep = .idle ∧ s''.ring.hist.consumed = s.ring.hist.consumed ∧
      s.ring.hist.consumed.length ∈ s''.ring.hist.recovered := by
  have hi' : Inv cfg base s' σ := by
    refine hi.resweep hring ?_
    simp only [hswap, Sweep.Knows, hat, hring]
    exact ⟨hi.ring.r_eq, le_refl _, hlt⟩
  have hstep : sweepNext cfg s' = some (s'.recovered cfg s.ring.mem.r) := by
    simp only [sweepNext, hswap, hring, hstuck.claimed, if_true]
  have hawake : Awake s' (.sweep : Act Cid V Req width) := by
    intro _
    rw [hat, hring]
    omega
  obtain ⟨σ'', -, hi''⟩ := hi'.of_sweepNext hawake hstep
  obtain ⟨hkept, hcons⟩ := Kept.of_sweepNext hstep
  refine ⟨_, σ'', .single ⟨.sweep, trivial, hstep⟩, hi'', ?_, rfl, ?_, ?_⟩
  · exact Kept.trans ⟨by rw [hring], by rw [hring], fun n hn => by rwa [hring]⟩ hkept
  · rw [hcons, hring]
  · simp [State.recovered, hat]

def validQueueSize (n : Word) : Bool := Ring.validRingSize n && decide (n ≤ 1 <<< 16)

omit [DecidableEq Cid] in
theorem Inv.stuck_of_unpublished (hi : Inv cfg base s σ) (hq : validQueueSize cfg.size = true)
    (hlt : s.ring.hist.consumed.length < s.ring.hist.produced.length)
    (hpub : s.ring.hist.consumed.length ∉ s.ring.hist.published)
    (hrec : s.ring.hist.consumed.length ∉ s.ring.hist.recovered) : Stuck cfg s := by
  simp only [validQueueSize, Bool.and_eq_true, decide_eq_true_eq] at hq
  have hN : cfg.size.toNat ≤ 65536 := hq.2
  have hroom := hi.ring.room
  have hsub : (s.ring.mem.w - s.ring.mem.r).toNat =
      s.ring.hist.produced.length - s.ring.hist.consumed.length := by
    rw [hi.ring.w_eq, hi.ring.r_eq, word_sub_toNat (by omega) (by omega)]
    omega
  constructor
  · rw [BitVec.toInt_eq_toNat_of_lt (by omega)]
    omega
  · rcases hi.ring.filled _ (le_refl _) hlt with ⟨hσ, -⟩ | ⟨-, h | ⟨h, -⟩⟩
    · rw [hi.ring.r_eq, hi.ring.slot_seq, hσ]
    · exact absurd h hrec
    · exact absurd h hpub

theorem Inv.recover_run (hi : Inv cfg base s σ) (htimeout : 0 < cfg.stuckSlotTimeout)
    (hidle : s.sweep = .idle) (hstuck : Stuck cfg s)
    (hlt : s.ring.hist.consumed.length < s.ring.hist.produced.length) :
    ∃ s' σ', ReflTransGen (AcceptorStep cfg) s s' ∧ Inv cfg base s' σ' ∧ Kept s s' ∧
      s'.sweep = .idle ∧ s'.ring.hist.consumed = s.ring.hist.consumed ∧
      s.ring.hist.consumed.length ∈ s'.ring.hist.recovered := by
  obtain ⟨s1, hrun1, hring1, ⟨hswap, hat⟩ | ⟨hidle1, hseen, hpos, -⟩⟩ :=
    look_run htimeout hidle hstuck
  · obtain ⟨s2, σ2, hrun2, h⟩ := hi.swap_run hstuck hlt hring1 hswap hat
    exact ⟨s2, σ2, hrun1.trans hrun2, h⟩
  · -- The first look only notes the slot. Wait for the timeout and look again.
    let s2 : State Cid V width :=
      { s1 with clock := s1.clock + (s1.stuckSince + cfg.stuckSlotTimeout.toNat) }
    have hrun2 : ReflTransGen (AcceptorStep cfg) s1 s2 := tick_run cfg s1 _
    have hring2 : s2.ring = s.ring := hring1
    have hover : Overdue cfg s2 := by
      refine ⟨hseen, by rw [hring2]; exact hpos, ?_⟩
      change cfg.stuckSlotTimeout ≤
        ((s1.clock + (s1.stuckSince + cfg.stuckSlotTimeout.toNat) : Nat) : Int) - s1.stuckSince
      omega
    obtain ⟨s3, hrun3, hring3, ⟨hswap, hat⟩ | ⟨-, -, -, hnot⟩⟩ :=
      look_run (s := s2) htimeout hidle1 (by constructor <;> rw [hring2]; exacts [hstuck.1, hstuck.2])
    · rw [hring2] at hring3 hswap hat
      obtain ⟨s4, σ4, hrun4, h⟩ := hi.swap_run hstuck hlt hring3 hswap hat
      exact ⟨s4, σ4, ((hrun1.trans hrun2).trans hrun3).trans hrun4, h⟩
    · exact absurd hover hnot

theorem Inv.usable_of_idle (hi : Inv cfg base s σ) (hq : validQueueSize cfg.size = true)
    (htimeout : 0 < cfg.stuckSlotTimeout) (hidle : s.sweep = .idle) :
    ∃ s', ReflTransGen (AcceptorStep cfg) s s' ∧ s'.ring.mem.r = s'.ring.mem.w := by
  generalize hk : s.ring.hist.produced.length - s.ring.hist.consumed.length = k
  induction k generalizing s σ with
  | zero =>
    have := hi.ring.le
    refine ⟨s, .refl, ?_⟩
    rw [hi.ring.r_eq, hi.ring.w_eq]
    congr 2
    omega
  | succ k ih =>
    -- First make the oldest record readable, then let the dispatcher take it.
    obtain ⟨s1, σ1, hrun1, hi1, hkept1, hidle1, hcons1, hready⟩ : ∃ s1 σ1,
        ReflTransGen (AcceptorStep cfg) s s1 ∧ Inv cfg base s1 σ1 ∧ Kept s s1 ∧ s1.sweep = .idle ∧
        s1.ring.hist.consumed = s.ring.hist.consumed ∧
        (s1.ring.hist.consumed.length ∈ s1.ring.hist.published ∨
          s1.ring.hist.consumed.length ∈ s1.ring.hist.recovered) := by
      by_cases hready : s.ring.hist.consumed.length ∈ s.ring.hist.published ∨
          s.ring.hist.consumed.length ∈ s.ring.hist.recovered
      · exact ⟨s, σ, .refl, hi, ⟨rfl, rfl, fun _ hn => hn⟩, hidle, rfl, hready⟩
      · rw [not_or] at hready
        have hlt : s.ring.hist.consumed.length < s.ring.hist.produced.length := by omega
        obtain ⟨s1, σ1, hrun, hi1, hkept, hidle1, hcons, hrec⟩ := hi.recover_run htimeout hidle
          (hi.stuck_of_unpublished hq hlt hready.1 hready.2) hlt
        exact ⟨s1, σ1, hrun, hi1, hkept, hidle1, hcons, Or.inr (by rwa [hcons])⟩
    obtain ⟨s2, σ2, hrun2, hi2, hkept2, hsweep2, hlen⟩ := hi1.dispatch_run hready
    obtain ⟨s3, hrun3, heq⟩ := ih hi2 (hsweep2.trans hidle1) (by
      rw [hkept2.produced_eq, hkept1.produced_eq, hlen, hcons1]
      omega)
    exact ⟨s3, (hrun1.trans hrun2).trans hrun3, heq⟩

/-- What holds of the ring in a state `s`, also across its next step. -/
structure Recovers (cfg : Setup V Req width) (base : Nat) (m : Mem V width)
    (s : State Cid V width) : Prop where
  seq_mono : ∀ (a : Act Cid V Req width) s', Awake s a → OnTime s a → step cfg s a = some s' →
    ∀ j < cfg.size.toNat, 0 ≤ (s'.ring.mem.seq j - s.ring.mem.seq j).toInt
  late_producer : ∀ c e pos i s', s.ring.pc (some c) = .write e pos i →
    s.ring.hist.loaded (some c) ∈ s.ring.hist.recovered →
    OnTime s (.client c : Act Cid V Req width) → step cfg s (.client c) = some s' →
    s'.ring.mem.seq = s.ring.mem.seq ∧
    ∀ n, s.ring.hist.loaded (some c) < n → n < s.ring.hist.produced.length →
      s'.ring.mem.data (Ring.slot cfg.size (word (base + n))) =
        s.ring.mem.data (Ring.slot cfg.size (word (base + n)))
  /-- Whatever the clients left behind, the acceptor alone brings `r` to `w`. -/
  usable : 0 < cfg.stuckSlotTimeout → Awake s (.sweep : Act Cid V Req width) →
    ∃ (as : List (Act Cid V Req width)) (s' : State Cid V width), (∀ a ∈ as, a.OfAcceptor) ∧
      (machine Cid cfg m).runFrom s as = some s' ∧ s'.ring.mem.r = s'.ring.mem.w

def Timely (s : State Cid V width) (a : Act Cid V Req width) : Prop := Awake s a ∧ OnTime s a

instance (s : State Cid V width) (a : Act Cid V Req width) : Decidable (Timely s a) :=
  inferInstanceAs (Decidable (_ ∧ _))

theorem inv_of_reach (hsize : Ring.validRingSize cfg.size = true)
    (hstart : Ring.StartsAt cfg.size base m) {ok : State Cid V width → Act Cid V Req width → Prop}
    (hok : ∀ s a, ok s a → Timely s a) (hs : (machine Cid cfg m).Reach ok s) :
    ∃ σ, Inv cfg base s σ := by
  refine hs.invariant (I := fun s => ∃ σ, Inv cfg base s σ) ⟨_, Inv.start hsize hstart⟩ ?_
  rintro s a s' - ⟨σ, hi⟩ h hstep
  obtain ⟨hawake, htime⟩ := hok s a h
  obtain ⟨σ', -, hi'⟩ := hi.of_step hawake htime hstep
  exact ⟨σ', hi'⟩

theorem recovery_keeps_ring (hq : validQueueSize cfg.size = true)
    (hstart : Ring.StartsAt cfg.size base m) (hs : (machine Cid cfg m).Reach Timely s) :
    Recovers cfg base m s := by
  have hsize : Ring.validRingSize cfg.size = true := by
    simp only [validQueueSize, Bool.and_eq_true] at hq
    exact hq.1
  obtain ⟨σ, hi⟩ := inv_of_reach hsize hstart (fun _ _ h => h) hs
  refine ⟨fun a s' hawake htime h j hj => hi.seq_mono hawake htime h hj,
    fun c e pos i s' => hi.late_producer, fun htimeout hawake => ?_⟩
  obtain ⟨s1, σ1, hrun1, hi1, -, hidle, -⟩ := hi.sweep_run hawake
  obtain ⟨s2, hrun2, heq⟩ := hi1.usable_of_idle hq htimeout hidle
  obtain ⟨as, has, hrun⟩ := exists_run (m := m) (hrun1.trans hrun2)
  exact ⟨as, s2, has, hrun, heq⟩

/-! ## A client that comes back late -/

def small : Setup Nat Unit 1 := ⟨2, 1, fun _ _ => true⟩

def smallRing : Mem Nat 1 := Ring.format 0 2 ⟨0, 0, fun _ => 0, fun _ _ => 0⟩

def stallAndRecover : List (Act Unit Nat Unit 1) :=
  [.connect () () fun _ => 7, .client (), .client (), .client (), .sweep, .sweep, .sweep, .tick,
    .sweep, .sweep, .sweep, .sweep]

theorem recovery_keeps_ring_on_time : ∃ s, (machine Unit small smallRing).runWith Timely
      (machine Unit small smallRing).init (stallAndRecover ++ [.dispatch, .client (), .client ()]) =
        some s ∧
    s.ring.hist.recovered = [0] ∧ s.ring.hist.published = [0] ∧ Recovers small 0 smallRing s := by
  have hrun : ((machine Unit small smallRing).runWith Timely (machine Unit small smallRing).init
      (stallAndRecover ++ [.dispatch, .client (), .client ()])).map
      (fun s => (s.ring.hist.recovered, s.ring.hist.published)) = some ([0], [0]) := by
    decide +kernel
  obtain ⟨s, hs, heq⟩ := Option.map_eq_some_iff.mp hrun
  simp only [Prod.mk.injEq] at heq
  exact ⟨s, hs, heq.1, heq.2, recovery_keeps_ring (by decide) (Ring.format_startsAt 0 _)
    (Machine.Reach.runWith .init hs)⟩

/-- The client comes back after the dispatcher released the slot. Its plain store takes the
sequence word from 2 back to 1. -/
theorem late_publish_turns_seq_back : ∃ s s', (machine Unit small smallRing).Reachable s ∧
    step small s (.client ()) = some s' ∧
    (s'.ring.mem.seq 0 - s.ring.mem.seq 0).toInt < 0 := by
  have hrun : ((machine Unit small smallRing).runFrom (machine Unit small smallRing).init
      (stallAndRecover ++ List.replicate 6 .dispatch ++ [.client ()])).bind (fun s =>
        (step small s (.client ())).map fun s' =>
          decide ((s'.ring.mem.seq 0 - s.ring.mem.seq 0).toInt < 0)) = some true := by
    decide +kernel
  obtain ⟨s, hs, h⟩ := Option.bind_eq_some_iff.mp hrun
  obtain ⟨s', hs', hlt⟩ := Option.map_eq_some_iff.mp h
  exact ⟨s, s', Machine.Reachable.runFrom .init _ hs, hs', of_decide_eq_true hlt⟩

end Hqq.Listener
