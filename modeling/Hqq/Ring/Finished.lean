import Hqq.Ring.Delivery
import Hqq.Ring.Sides

/-!
# A ring whose producers are done

When every claimed slot is published and no producer is left, a consumer that finds the ring empty
at a position it loaded after that has seen the end.
-/

namespace Hqq.Ring

variable {V Tid : Type} {width : Nat} {size : Word} {base : Nat} {s s' : State Tid V width}
  {σ : Nat → Nat} {t : Tid}

/-! ## Claimed slots are in somebody's hands -/

def Writing (s : State Tid V width) : Prop :=
  ∀ n < s.hist.produced.length, n ∈ s.hist.published ∨
    ∃ t e pos i, s.pc t = .write e pos i ∧ s.hist.loaded t = n

def Pc.Consuming : Pc V width → Prop
  | .idle | .loadR _ | .seqR _ _ | .casR _ _ | .waitR _ | .read _ _ => True
  | _ => False

theorem Writing.all_published (h : Writing s) (hpc : ∀ t, (s.pc t).Consuming) {n : Nat}
    (hn : n < s.hist.produced.length) : n ∈ s.hist.published := by
  rcases h n hn with hpub | ⟨t, e, pos, i, ht, -⟩
  · exact hpub
  · have := hpc t
    simp [ht, Pc.Consuming] at this

variable [DecidableEq Tid]

theorem Writing.moved (h : Writing s) {pc : Pc V width} {m : Mem V width} {g : History Tid V width}
    (hpc : ∀ e pos i, s.pc t = .write e pos i → ∃ e' pos' i', pc = .write e' pos' i')
    (hprod : g.produced = s.hist.produced) (hpub : g.published = s.hist.published)
    (hload : ∀ u, (∃ e pos i, s.pc u = .write e pos i) → g.loaded u = s.hist.loaded u) :
    Writing { s.goto t pc with mem := m, hist := g } := by
  intro n hn
  change n < g.produced.length at hn
  change n ∈ g.published ∨ _
  rw [hprod] at hn
  rw [hpub]
  rcases h n hn with hp | ⟨u, e, pos, i, hu, hl⟩
  · exact Or.inl hp
  · refine Or.inr ⟨u, ?_⟩
    have hl' : g.loaded u = n := (hload u ⟨e, pos, i, hu⟩).trans hl
    rcases eq_or_ne u t with rfl | hne
    · obtain ⟨e', pos', i', rfl⟩ := hpc e pos i hu
      exact ⟨e', pos', i', Function.update_self .., hl'⟩
    · exact ⟨e, pos, i, (Function.update_of_ne hne ..).trans hu, hl'⟩

theorem Writing.claim (h : Writing s) {e : Elem V width} {pos : Word} {m : Mem V width}
    (hpc : ∀ e pos i, s.pc t ≠ .write e pos i)
    (hload : s.hist.loaded t = s.hist.produced.length) :
    Writing { s.goto t (.write e pos 0) with
      mem := m
      hist := { s.hist with produced := s.hist.produced ++ [(t, pos, e)] } } := by
  intro n hn
  simp only [List.length_append, List.length_singleton] at hn
  rcases Nat.lt_or_ge n s.hist.produced.length with hlt | hge
  · rcases h n hlt with hp | ⟨u, e', pos', i, hu, hl⟩
    · exact Or.inl hp
    · have hne : u ≠ t := by rintro rfl; exact hpc _ _ _ hu
      exact Or.inr ⟨u, e', pos', i, (Function.update_of_ne hne ..).trans hu, hl⟩
  · exact Or.inr ⟨t, e, pos, 0, Function.update_self .., hload.trans (by omega)⟩

theorem Writing.published (h : Writing s) {m : Mem V width} : Writing (s.published t m) := by
  intro n hn
  rcases h n hn with hp | ⟨u, e, pos, i, hu, hl⟩
  · exact Or.inl (List.mem_append_left _ hp)
  · rcases eq_or_ne u t with rfl | hne
    · exact Or.inl (by simp [State.published, hl])
    · exact Or.inr ⟨u, e, pos, i, (Function.update_of_ne hne ..).trans hu, hl⟩

theorem Writing.of_next (h : Writing s) (hi : Inv size base s σ) (hawake : Awake s t)
    (hstep : next size s t = some s') : Writing s' := by
  unfold next at hstep
  cases hpc : s.pc t with
  | idle => simp [hpc] at hstep
  | casW slow e pos =>
    have ht := hi.holds t
    replace hawake := hawake.1 (by rw [hpc]; rfl)
    simp only [hpc, Holds] at hstep ht
    split_ifs at hstep with hw <;> cases hstep
    · rw [hi.w_eq, ht.1] at hw
      have hn := (word_inj (by omega) (by omega)).mp hw
      exact h.claim (by simp [hpc]) (by omega)
    · exact h.moved (by simp [hpc]) rfl rfl fun _ _ => rfl
  | write e pos i =>
    simp only [hpc] at hstep
    split_ifs at hstep with hlt <;> cases hstep
    · exact h.moved (fun _ _ _ _ => ⟨_, _, _, rfl⟩) rfl rfl fun _ _ => rfl
    · exact h.published
  | loadW slow | loadR slow =>
    simp only [hpc, Option.some.injEq] at hstep
    subst hstep
    refine h.moved (by simp [hpc]) rfl rfl ?_
    rintro u ⟨e, pos, i, hu⟩
    have hne : u ≠ t := by rintro rfl; simp [hpc] at hu
    exact Function.update_of_ne hne ..
  | casR slow pos | read pos got =>
    simp only [hpc] at hstep
    split_ifs at hstep <;> cases hstep
    all_goals exact h.moved (by simp [hpc]) rfl rfl fun _ _ => rfl
  | seqW | waitW | seqR | waitR =>
    simp only [hpc, Option.some.injEq] at hstep
    subst hstep
    exact h.moved (by simp [hpc]) rfl rfl fun _ _ => rfl

omit [DecidableEq Tid] in
theorem Inv.publishSlot_true (hi : Inv size base s σ)
    (hrec : s.hist.recovered = []) {e : Elem V width} {pos : Word} {i : Nat}
    (hpc : s.pc t = .write e pos i) : publishSlot size pos s.mem = (publish size pos s.mem, true) := by
  have ht := hi.holds t
  simp only [hpc, Holds] at ht
  have hσ := (ht.2.2.2.2 (by simp [hrec])).2.1
  have hseq : s.mem.seq (slot size pos) = pos := by
    rw [ht.1, hi.slot_seq, hσ]
  rw [publishSlot, if_pos hseq]

omit [DecidableEq Tid] in
theorem stepOnTime_of_no_recovery (hrec : s.hist.recovered = []) (a : Act Tid V width) :
    StepOnTime s a := by
  cases a with
  | next t | commit t => exact onTime_of_no_recovery hrec t
  | _ => trivial

theorem Writing.of_step (h : Writing s) (hi : Inv size base s σ) (hrec : s.hist.recovered = [])
    {a : Act Tid V width}
    (hawake : StepAwake s a) (hstep : step size s a = some s') : Writing s' := by
  cases a with
  | next t => exact h.of_next hi hawake hstep
  | enqueue t | dequeue t | giveUp t =>
    simp only [step] at hstep
    split at hstep <;> simp only [Option.some.injEq, reduceCtorEq] at hstep
    all_goals
      subst hstep
      exact h.moved (by simp [*]) rfl rfl fun _ _ => rfl
  | commit t =>
    cases hpc : s.pc t with
    | write e pos i =>
      simp only [step, hpc, hi.publishSlot_true hrec hpc] at hstep
      split_ifs at hstep
      cases hstep
      exact h.published
    | read pos got =>
      simp only [step, hpc, releaseSlot] at hstep
      split_ifs at hstep <;> cases hstep
      all_goals exact h.moved (by simp [hpc]) rfl rfl fun _ _ => rfl
    | _ => simp [step, hpc] at hstep

/-! ## Any number of consumers -/

inductive Move
  | next
  | giveUp
  | commit
  deriving DecidableEq

def Move.act (t : Tid) : Move → Act Tid V width
  | .next => .next t
  | .giveUp => .giveUp t
  | .commit => .commit t

structure ReaderStep (t : Tid) (s s' : State Tid V width) : Prop extends Frame t s s' where
  consuming : (s'.pc t).Consuming
  produced_eq : s'.hist.produced = s.hist.produced
  published_eq : s'.hist.published = s.hist.published
  consumed : s'.hist.consumed = s.hist.consumed ∨
    ∃ pos, s'.hist.consumed = s.hist.consumed ++ [(t, pos)]

omit [DecidableEq Tid] in
theorem ReaderStep.consumed_le (h : ReaderStep t s s') :
    s.hist.consumed.length ≤ s'.hist.consumed.length := by
  rcases h.consumed with heq | ⟨pos, heq⟩ <;> simp [heq]

omit [DecidableEq Tid] in
theorem ReaderStep.trans {s1 : State Tid V width} (h1 : ReaderStep t s s1)
    (h2 : ReaderStep t s1 s') (hsame : s1.hist.consumed = s.hist.consumed) : ReaderStep t s s' where
  pc_eq u hu := (h2.pc_eq u hu).trans (h1.pc_eq u hu)
  loaded_eq u hu := (h2.loaded_eq u hu).trans (h1.loaded_eq u hu)
  recovered_eq := h2.recovered_eq.trans h1.recovered_eq
  consuming := h2.consuming
  produced_eq := h2.produced_eq.trans h1.produced_eq
  published_eq := h2.published_eq.trans h1.published_eq
  consumed := hsame ▸ h2.consumed

theorem giveUp_consumed (h : step size s (.giveUp t) = some s') :
    s'.hist.consumed = s.hist.consumed := by
  simp only [step] at h
  split at h <;> simp only [Option.some.injEq, reduceCtorEq] at h <;> subst h <;> rfl

theorem ReaderStep.goto {pc : Pc V width} {m : Mem V width} {g : History Tid V width}
    (hpc : pc.Consuming) (hload : ∀ u ≠ t, g.loaded u = s.hist.loaded u)
    (hrec : g.recovered = s.hist.recovered) (hprod : g.produced = s.hist.produced)
    (hpub : g.published = s.hist.published)
    (hcons : g.consumed = s.hist.consumed ∨ ∃ pos, g.consumed = s.hist.consumed ++ [(t, pos)]) :
    ReaderStep t s { s.goto t pc with mem := m, hist := g } :=
  ⟨Frame.goto hload hrec, by simpa [State.goto] using hpc, hprod, hpub, hcons⟩

theorem ReaderStep.of_next (hpc : (s.pc t).Consuming) (h : next size s t = some s') :
    ReaderStep t s s' := by
  unfold next at h
  cases hp : s.pc t with
  | loadR slow =>
    simp only [hp, Option.some.injEq] at h
    subst h
    exact .goto trivial (fun u hu => Function.update_of_ne hu ..) rfl rfl rfl (Or.inl rfl)
  | seqR slow pos =>
    simp only [hp, Option.some.injEq] at h
    subst h
    refine .goto ?_ (fun _ _ => rfl) rfl rfl rfl (Or.inl rfl)
    unfold onDiff
    split_ifs <;> trivial
  | casR slow pos =>
    simp only [hp] at h
    split_ifs at h <;> cases h
    · exact .goto trivial (fun _ _ => rfl) rfl rfl rfl (Or.inr ⟨pos, rfl⟩)
    · exact .goto trivial (fun _ _ => rfl) rfl rfl rfl (Or.inl rfl)
  | waitR pos =>
    simp only [hp, Option.some.injEq] at h
    subst h
    exact .goto trivial (fun _ _ => rfl) rfl rfl rfl (Or.inl rfl)
  | read pos got =>
    simp only [hp] at h
    split_ifs at h <;> cases h
    all_goals exact .goto trivial (fun _ _ => rfl) rfl rfl rfl (Or.inl rfl)
  | idle => simp [hp] at h
  | loadW | seqW | casW | waitW | write => simp [hp, Pc.Consuming] at hpc

theorem ReaderStep.of_move (hpc : (s.pc t).Consuming) {mv : Move}
    (h : step size s (mv.act t) = some s') : ReaderStep t s s' := by
  cases mv with
  | next => exact .of_next hpc h
  | giveUp =>
    simp only [Move.act, step] at h
    split at h <;> simp only [Option.some.injEq, reduceCtorEq] at h
    all_goals
      subst h
      exact .goto trivial (fun _ _ => rfl) rfl rfl rfl (Or.inl rfl)
  | commit =>
    cases hp : s.pc t with
    | read pos got =>
      simp only [Move.act, step, hp, releaseSlot] at h
      split_ifs at h <;> cases h
      all_goals exact .goto trivial (fun _ _ => rfl) rfl rfl rfl (Or.inl rfl)
    | write => simp [hp, Pc.Consuming] at hpc
    | _ => simp [Move.act, step, hp] at h

theorem ProducerStep.of_move (hpc : (s.pc t).Producing) {mv : Move}
    (h : step size s (mv.act t) = some s') : ProducerStep t s s' := by
  have hidle : ∀ (m : Mem V width) (g : History Tid V width),
      (({ s.goto t .idle with mem := m, hist := g } : State Tid V width).pc t).Producing := by
    intro m g
    simp [State.goto, Pc.Producing]
  cases mv with
  | next => exact .of_next hpc h
  | giveUp =>
    simp only [Move.act, step] at h
    split at h <;> simp only [Option.some.injEq, reduceCtorEq] at h
    all_goals
      subst h
      exact ⟨Frame.goto (fun _ _ => rfl) rfl, hidle _ _, rfl, rfl, rfl, le_refl _⟩
  | commit =>
    cases hp : s.pc t with
    | write e pos i =>
      simp only [Move.act, step, hp, publishSlot] at h
      split_ifs at h <;> cases h
      all_goals exact ⟨Frame.goto (fun _ _ => rfl) rfl, hidle _ _, rfl, rfl, rfl, le_refl _⟩
    | read => simp [hp, Pc.Producing] at hpc
    | _ => simp [Move.act, step, hp] at h

theorem ReaderStep.of_dequeue (h : step size s (.dequeue t) = some s') : ReaderStep t s s' := by
  simp only [step] at h
  split at h <;> cases h
  exact .goto trivial (fun _ _ => rfl) rfl rfl rfl (Or.inl rfl)

theorem ProducerStep.of_enqueue {e : Elem V width} (h : step size s (.enqueue t e) = some s') :
    ProducerStep t s s' := by
  simp only [step] at h
  split at h <;> cases h
  exact ⟨Frame.goto (fun _ _ => rfl) rfl, by simp [State.goto, Pc.Producing], rfl, rfl, rfl, le_refl _⟩

/-! ## Any step of one thread -/

def Act.tid : Act Tid V width → Tid
  | .enqueue t _ | .dequeue t | .next t | .giveUp t | .commit t => t

structure Grows (s s' : State Tid V width) : Prop where
  produced : s.hist.produced.length ≤ s'.hist.produced.length
  consumed : s.hist.consumed.length ≤ s'.hist.consumed.length

theorem Frame.of_step {a : Act Tid V width} (h : step size s a = some s') :
    Frame a.tid s s' ∧ Grows s s' := by
  have hgoto : ∀ (t : Tid) (pc : Pc V width) (m : Mem V width),
      Frame t s { s.goto t pc with mem := m } ∧ Grows s { s.goto t pc with mem := m } :=
    fun t pc m => ⟨Frame.goto (fun _ _ => rfl) rfl, le_refl _, le_refl _⟩
  cases a with
  | enqueue t | dequeue t | giveUp t =>
    simp only [step] at h
    split at h <;> cases h
    all_goals exact hgoto _ _ _
  | commit t =>
    simp only [step, publishSlot, releaseSlot] at h
    split at h <;> (try split_ifs at h) <;> cases h
    all_goals exact ⟨Frame.goto (fun _ _ => rfl) rfl, le_refl _, le_refl _⟩
  | next t =>
    simp only [step, next] at h
    split at h <;> (try split_ifs at h) <;> cases h
    -- Steps that move the thread, that publish or release, that claim, and that load a cursor.
    all_goals first
      | exact hgoto _ _ _
      | exact ⟨Frame.goto (fun _ _ => rfl) rfl, le_refl _, le_refl _⟩
      | exact ⟨Frame.goto (fun _ _ => rfl) rfl, by simp, by simp⟩
      | exact ⟨Frame.goto (fun u hu => Function.update_of_ne hu ..) rfl, le_refl _, le_refl _⟩

/-! ## The end of the ring -/

/-- What a consumer knows that loaded its position after the last claim of a producer. Once it
waits, nothing is behind this position. -/
def Fresh (size : Word) (s : State Tid V width) (t : Tid) : Prop :=
  match s.pc t with
  | .seqR _ _ | .casR _ _ => s.hist.produced.length ≤ s.hist.loaded t + size.toNat
  | .waitR _ => s.hist.produced.length ≤ s.hist.loaded t
  | _ => True

omit [DecidableEq Tid] in
theorem Fresh.of_eq (h : Fresh size s t) (hpc : s'.pc t = s.pc t)
    (hload : s'.hist.loaded t = s.hist.loaded t)
    (hprod : s'.hist.produced = s.hist.produced) : Fresh size s' t := by
  unfold Fresh at h ⊢
  rwa [hpc, hload, hprod]

omit [DecidableEq Tid] in
theorem Inv.not_blocked (hi : Inv size base s σ) {n : Nat}
    (hn : n < s.hist.produced.length) (hlap : s.hist.produced.length ≤ n + size.toNat)
    (hle : n ≤ s.hist.consumed.length) (hpub : n ∈ s.hist.published) :
    0 ≤ (s.mem.seq (slot size (word (base + n))) - (word (base + n) + 1)).toInt := by
  have hN := size_bounds hi.size_ok
  have hσ : base + n + 1 ≤ σ ((base + n) % size.toNat) := by
    rcases Nat.lt_or_ge n s.hist.consumed.length with hlt | hge
    · exact hi.passed hlt
    · exact (hi.readable hge (Or.inl hpub)).ge
  have hσ' : σ ((base + n) % size.toNat) ≤ base + n + size.toNat := by
    obtain ⟨m, hm1, hm2, hm⟩ :=
      exists_window (by omega : 0 < size.toNat) base s.hist.consumed.length n
    -- The window meets the slot at `n` itself or one lap later.
    have hm3 : m < n + 2 * size.toNat := by have := hi.le; omega
    rw [← hm]
    rcases Nat.lt_or_ge m s.hist.produced.length with hp | hp
    · rcases hi.filled m hm1 hp with ⟨h, -⟩ | ⟨h, -⟩ <;> omega
    · have hlap' : m ≤ n + size.toNat := by
        by_contra hgt
        have hcong : (base + m) % size.toNat = (base + (n + size.toNat)) % size.toNat := by
          rw [hm, ← Nat.add_assoc, Nat.add_mod_right]
        have := mod_inj hcong (by omega) (by omega)
        omega
      rcases hi.free m hp hm2 with h | h <;> omega
  have hsub := word_sub_toNat hσ (by omega)
  rw [hi.slot_seq, word_succ, BitVec.toInt_eq_toNat_cond, hsub]
  split_ifs <;> omega

theorem Fresh.of_move (h : Fresh size s t) (hi : Inv size base s σ)
    (hall : ∀ n < s.hist.produced.length, n ∈ s.hist.published)
    (hpc : (s.pc t).Consuming) {mv : Move} (hwait : ∀ pos, s.pc t = .waitR pos → mv ≠ .next)
    (hstep : step size s (mv.act t) = some s') : Fresh size s' t := by
  have hself : ∀ (pc : Pc V width) (m : Mem V width) (g : History Tid V width),
      ({ s.goto t pc with mem := m, hist := g } : State Tid V width).pc t = pc :=
    fun _ _ _ => Function.update_self ..
  have ht := hi.holds t
  unfold Fresh at h ⊢
  cases mv with
  | next =>
    change next size s t = some s' at hstep
    unfold next at hstep
    cases hp : s.pc t with
    | loadR slow =>
      simp only [hp, Option.some.injEq] at hstep
      subst hstep
      simpa [State.goto, History.load] using hi.room
    | seqR slow pos =>
      simp only [hp, Holds, Option.some.injEq] at hstep h ht
      subst hstep
      rw [hself, onDiff]
      split_ifs with h0 hpos hslow
      · exact h
      · trivial
      · -- The thread found nothing, so its position is not one of the published ones.
        change s.hist.produced.length ≤ s.hist.loaded t
        by_contra hlt
        have := hi.not_blocked (Nat.lt_of_not_le hlt) h ht.2 (hall _ (Nat.lt_of_not_le hlt))
        rw [← ht.1] at this
        omega
      · exact h
    | casR slow pos =>
      simp only [hp] at hstep
      split_ifs at hstep <;> simp only [Option.some.injEq] at hstep <;> subst hstep <;>
        rw [hself] <;> trivial
    | read pos got =>
      simp only [hp] at hstep
      split_ifs at hstep <;> cases hstep
      · rw [hself]; trivial
      · simp [State.released, State.goto]
    | waitR pos => exact absurd rfl (hwait pos hp)
    | idle => simp [hp] at hstep
    | loadW | seqW | casW | waitW | write => simp [hp, Pc.Consuming] at hpc
  | giveUp =>
    simp only [Move.act, step] at hstep
    split at hstep <;> simp only [Option.some.injEq, reduceCtorEq] at hstep <;> subst hstep <;>
      rw [hself] <;> trivial
  | commit =>
    cases hp : s.pc t with
    | read pos got =>
      simp only [Move.act, step, hp, releaseSlot] at hstep
      split_ifs at hstep <;> cases hstep
      · simp [State.released, State.goto]
      · rw [hself]; trivial
    | write => simp [hp, Pc.Consuming] at hpc
    | _ => simp [Move.act, step, hp] at hstep

end Hqq.Ring
