import Hqq.Ring.Complete

/-!
# The ring delivers every element once and in order

The step lemmas put together, and what they say about every run.
-/

namespace Hqq.Ring

variable {V Tid : Type} {width : Nat} {size : Word} {base : Nat} {s s' : State Tid V width}
  {σ : Nat → Nat}

theorem toInt_sub_eq_zero {x y : Word} (h : (x - y).toInt = 0) : x = y := by
  have h0 : x - y = 0 := BitVec.eq_of_toInt_eq (h.trans (by decide))
  bv_omega

def Pc.seeksW : Pc V width → Bool
  | .seqW _ _ _ | .casW _ _ _ => true
  | _ => false

def Pc.seeksR : Pc V width → Bool
  | .seqR _ _ | .casR _ _ => true
  | _ => false

/-- A thread in a claim loop looks at a position that its side left behind less than `2 ^ 63`
claims ago. -/
def Awake (s : State Tid V width) (t : Tid) : Prop :=
  ((s.pc t).seeksW = true → s.hist.produced.length < s.hist.loaded t + 2 ^ 63) ∧
  ((s.pc t).seeksR = true → s.hist.consumed.length < s.hist.loaded t + 2 ^ 63)

instance (s : State Tid V width) (t : Tid) : Decidable (Awake s t) :=
  inferInstanceAs (Decidable ((_ → _) ∧ (_ → _)))

theorem Inv.free_of_seq (hi : Inv size base s σ) {n : Nat}
    (hle : n ≤ s.hist.produced.length) (hlt : s.hist.produced.length < n + 2 ^ 63)
    (h : s.mem.seq (slot size (word (base + n))) = word (base + n)) :
    σ ((base + n) % size.toNat) = base + n := by
  have hN := size_bounds hi.size_ok
  have hnear := hi.near n
  have hroom := hi.room
  have hcp := hi.le
  rw [hi.slot_seq] at h
  exact (word_inj (by omega) (by omega)).mp h

theorem Inv.ready_of_seq (hi : Inv size base s σ) {n : Nat}
    (hle : n ≤ s.hist.consumed.length) (hlt : s.hist.consumed.length < n + 2 ^ 63)
    (h : s.mem.seq (slot size (word (base + n))) = word (base + n) + 1) :
    σ ((base + n) % size.toNat) = base + n + 1 := by
  have hN := size_bounds hi.size_ok
  have hnear := hi.near n
  rw [hi.slot_seq, word_succ] at h
  exact (word_inj (by omega) (by omega)).mp h

variable [DecidableEq Tid]

theorem Inv.of_next (hi : Inv size base s σ) {t : Tid}
    (hawake : Awake s t) (htime : OnTime s t) (h : next size s t = some s') :
    ∃ σ', Advances size σ σ' ∧ Inv size base s' σ' := by
  have hsame := Advances.refl (σ := σ) hi.size_ok
  have ht := hi.holds t
  unfold next at h
  cases hpc : s.pc t with
  | idle => simp [hpc] at h
  | loadW slow e =>
    simp only [hpc, Option.some.injEq] at h
    subst h
    refine ⟨σ, hsame, hi.load (by simp [hpc]) ?_⟩
    simp [Holds, History.load, hi.w_eq]
  | seqW slow e pos =>
    replace hawake := hawake.1 (by rw [hpc]; rfl)
    simp only [hpc, Option.some.injEq, Holds] at h ht
    subst h
    refine ⟨σ, hsame, hi.goto (by simp [hpc]) ?_⟩
    simp only [onDiff]
    split_ifs with h0
    · refine ⟨ht.1, ht.2, fun _ => hi.free_of_seq ht.2 hawake ?_⟩
      rw [← ht.1]
      exact toInt_sub_eq_zero h0
    · trivial
    · exact ht
    · exact ht
  | casW slow e pos =>
    replace hawake := hawake.1 (by rw [hpc]; rfl)
    simp only [hpc, Holds] at h ht
    split_ifs at h with hw
    · cases h
      rw [hi.w_eq, ht.1] at hw
      have hn := (word_inj (by omega) (by omega)).mp hw
      exact ⟨σ, hsame, hi.claimW hpc (by omega)⟩
    · cases h
      exact ⟨σ, hsame, hi.goto (by simp [hpc]) trivial⟩
  | waitW e pos =>
    simp only [hpc, Option.some.injEq, Holds] at h ht
    subst h
    exact ⟨σ, hsame, hi.goto (by simp [hpc]) ht⟩
  | write e pos i =>
    simp only [hpc, Holds] at h ht
    split_ifs at h with hlt
    · cases h
      exact ⟨σ, hsame, hi.store hpc htime hlt⟩
    · cases h
      obtain rfl : i = width := by omega
      exact hi.published hpc htime
  | loadR slow =>
    simp only [hpc, Option.some.injEq] at h
    subst h
    refine ⟨σ, hsame, hi.load (by simp [hpc]) ?_⟩
    simp [Holds, History.load, hi.r_eq]
  | seqR slow pos =>
    replace hawake := hawake.2 (by rw [hpc]; rfl)
    simp only [hpc, Option.some.injEq, Holds] at h ht
    subst h
    refine ⟨σ, hsame, hi.goto (by simp [hpc]) ?_⟩
    simp only [onDiff]
    split_ifs with h0
    · refine ⟨ht.1, ht.2, fun _ => hi.ready_of_seq ht.2 hawake ?_⟩
      rw [← ht.1]
      exact toInt_sub_eq_zero h0
    · trivial
    · exact ht
    · exact ht
  | casR slow pos =>
    replace hawake := hawake.2 (by rw [hpc]; rfl)
    simp only [hpc, Holds] at h ht
    split_ifs at h with hr
    · cases h
      rw [hi.r_eq, ht.1] at hr
      have hn := (word_inj (by omega) (by omega)).mp hr
      exact ⟨σ, hsame, hi.claimR hpc (by omega)⟩
    · cases h
      exact ⟨σ, hsame, hi.goto (by simp [hpc]) trivial⟩
  | waitR pos =>
    simp only [hpc, Option.some.injEq, Holds] at h ht
    subst h
    exact ⟨σ, hsame, hi.goto (by simp [hpc]) ht⟩
  | read pos got =>
    simp only [hpc, Holds] at h ht
    split_ifs at h with hlt
    · cases h
      exact ⟨σ, hsame, hi.fetch hpc hlt⟩
    · cases h
      exact hi.released hpc (by omega)

theorem Inv.of_commit (hi : Inv size base s σ) {t : Tid}
    (htime : OnTime s t) (h : step size s (.commit t) = some s') :
    ∃ σ', Advances size σ σ' ∧ Inv size base s' σ' := by
  have ht := hi.holds t
  cases hpc : s.pc t with
  | write e pos i =>
    simp only [step, hpc, publishSlot] at h
    split_ifs at h with hi' hseq
    · simp only [Option.some.injEq] at h
      subst hi' h
      exact hi.published hpc htime
    · cases h
      exact ⟨σ, Advances.refl hi.size_ok, hi.goto (by simp [hpc]) trivial⟩
  | read pos got =>
    simp only [hpc, Holds] at ht
    have hseq : s.mem.seq (slot size pos) = pos + 1 := by
      rw [ht.1, hi.slot_seq, ht.2.2.1, word_succ]
    simp only [step, hpc, releaseSlot, hseq, if_true] at h
    split_ifs at h with hgot
    cases h
    exact hi.released hpc hgot
  | _ => simp [step, hpc] at h

/-- The assumption on one step: its thread did not sleep through `2 ^ 63` positions. -/
def StepAwake (s : State Tid V width) : Act Tid V width → Prop
  | .next t => Awake s t
  | _ => True

instance (s : State Tid V width) : (a : Act Tid V width) → Decidable (StepAwake s a)
  | .next t => inferInstanceAs (Decidable (Awake s t))
  | .enqueue _ _ | .dequeue _ | .giveUp _ | .commit _ => inferInstanceAs (Decidable True)

def StepOnTime (s : State Tid V width) : Act Tid V width → Prop
  | .next t | .commit t => OnTime s t
  | _ => True

theorem Inv.of_step (hi : Inv size base s σ)
    {a : Act Tid V width} (hawake : StepAwake s a) (htime : StepOnTime s a)
    (h : step size s a = some s') : ∃ σ', Advances size σ σ' ∧ Inv size base s' σ' := by
  have hsame := Advances.refl (σ := σ) hi.size_ok
  cases a with
  | enqueue t e | dequeue t =>
    simp only [step] at h
    split at h <;> simp only [Option.some.injEq, reduceCtorEq] at h
    next hpc =>
    subst h
    exact ⟨σ, hsame, hi.goto (by simp [hpc]) trivial⟩
  | next t => exact hi.of_next hawake htime h
  | giveUp t =>
    simp only [step] at h
    split at h <;> simp only [Option.some.injEq, reduceCtorEq] at h
    all_goals
      subst h
      exact ⟨σ, hsame, hi.goto (by simp [*]) trivial⟩
  | commit t => exact hi.of_commit htime h

omit [DecidableEq Tid] in
theorem format_foldl (zero : V) (m : Mem V width) (n : Nat) :
    ((List.range n).foldl (formatSlot zero) m).seq =
      fun i => if i < n then word i else m.seq i := by
  induction n with
  | zero => rfl
  | succ n ih =>
    funext i
    rw [List.range_succ, List.foldl_append, List.foldl_cons, List.foldl_nil, formatSlot, ih]
    rcases eq_or_ne i n with rfl | hne
    · simp
    · simp only [Function.update_of_ne hne]
      congr 1
      exact propext ⟨fun h => by omega, fun h => by omega⟩

theorem format_startsAt (zero : V) (m : Mem V width) : StartsAt size 0 (format zero size m) := by
  refine ⟨rfl, rfl, fun i hi => ?_⟩
  simp only [format, format_foldl, Nat.zero_add, Nat.mod_eq_of_lt hi, if_pos hi]

def firstAt (size : Word) (base j : Nat) : Nat :=
  base + (j + size.toNat - base % size.toNat) % size.toNat

theorem mod_firstAt {j : Nat} (hj : j < size.toNat) : firstAt size base j % size.toNat = j := by
  have hlt := Nat.mod_lt base (Nat.zero_lt_of_lt hj)
  rw [firstAt, Nat.add_mod_mod, ← Nat.mod_add_mod,
    show base % size.toNat + (j + size.toNat - base % size.toNat) = j + size.toNat by omega,
    Nat.add_mod_right, Nat.mod_eq_of_lt hj]

theorem firstAt_mod {n : Nat} (hn : n < size.toNat) :
    firstAt size base ((base + n) % size.toNat) = base + n := by
  have hpos := Nat.zero_lt_of_lt hn
  have h := @mod_firstAt size base _ (Nat.mod_lt (base + n) hpos)
  have hlt := Nat.mod_lt ((base + n) % size.toNat + size.toNat - base % size.toNat) hpos
  simp only [firstAt] at h ⊢
  exact mod_inj h (by omega) (by omega)

theorem Inv.start {m : Mem V width} (hsize : validRingSize size = true)
    (hstart : StartsAt size base m) :
    Inv size base (machine Tid size m).init (firstAt size base) := by
  refine ⟨hsize, ?_, hstart.w_eq, hstart.r_eq, le_refl _, Nat.zero_le _, ?_, ?_, ?_, fun _ => trivial, ?_⟩
  · intro j hj
    have hlt := Nat.mod_lt (j + size.toNat - base % size.toNat) (Nat.zero_lt_of_lt hj)
    have := hstart.seq_eq _ hlt
    change m.seq (firstAt size base j % size.toNat) = word (firstAt size base j) at this
    rwa [mod_firstAt hj] at this
  · intro n _ hn
    exact absurd hn (Nat.not_lt_zero n)
  · intro n _ hn
    exact Or.inl (firstAt_mod (by simpa [machine] using hn))
  · intro n hn
    exact absurd hn (Nat.not_lt_zero n)
  · refine ⟨?_, ?_, ?_, List.nodup_nil, ?_, ?_, ?_, List.nodup_nil, ?_⟩ <;> simp [machine]

end Hqq.Ring
