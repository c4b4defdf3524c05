import Hqq.Ring.Proofs
import Mathlib.Tactic.IntervalCases

/-!
# The ring delivers every element once and in order
-/

namespace Hqq.Ring

variable {V Tid : Type} {width : Nat} {size : Word} {base : Nat} {s s' : State Tid V width}
  {σ : Nat → Nat} {m : Mem V width} [DecidableEq Tid]

/-! ## A whole `Dequeue` -/

def dequeueActs (t : Tid) (width : Nat) : List (Act Tid V width) :=
  .dequeue t :: List.replicate (3 + width + 1) (.next t)

theorem goto_self {t : Tid} {pc : Pc V width} (h : s.pc t = pc) : s.goto t pc = s := by
  subst h
  simp [State.goto]

theorem runFrom_next {t : Tid} {k : Nat} {s1 : State Tid V width} (h : next size s t = some s1) :
    (machine Tid size m).runFrom s (List.replicate (k + 1) (.next t)) =
      (machine Tid size m).runFrom s1 (List.replicate k (.next t)) := by
  rw [List.replicate_succ, Machine.runFrom_cons]
  exact congrArg (Option.bind · _) h

theorem Inv.fetch_run {k : Nat} (hi : Inv size base s σ)
    {t : Tid} {pos : Word} {got : List V} (hpc : s.pc t = .read pos got)
    (hk : got.length + k = width) :
    ∃ got', got'.length = width ∧
      (machine Tid size m).runFrom s (List.replicate k (.next t)) =
        some (s.goto t (.read pos got')) ∧
      Inv size base (s.goto t (.read pos got')) σ := by
  induction k generalizing s got with
  | zero => exact ⟨got, hk, by rw [goto_self hpc]; rfl, by rwa [goto_self hpc]⟩
  | succ k ih =>
    have hlt : got.length < width := by omega
    have hnext : next size s t = some (s.goto t
        (.read pos (got ++ [s.mem.data (slot size pos) ⟨got.length, hlt⟩]))) := by
      simp [next, hpc, hlt]
    obtain ⟨got', hlen, hrun, hi'⟩ := ih (hi.fetch hpc hlt) (Function.update_self ..)
      (by simp only [List.length_append, List.length_singleton]; omega)
    rw [runFrom_next hnext]
    simp only [State.goto, Function.update_idem] at hrun hi' ⊢
    exact ⟨got', hlen, hrun, hi'⟩

/-- What `k` calls of `Dequeue` in `t` leave behind: the `k` oldest positions are claimed and
delivered. -/
structure Dequeued (base : Nat) (t : Tid) (k : Nat) (s s' : State Tid V width) : Prop where
  pc_eq : s'.pc = s.pc
  produced_eq : s'.hist.produced = s.hist.produced
  published_eq : s'.hist.published = s.hist.published
  recovered_eq : s'.hist.recovered = s.hist.recovered
  consumed_eq : s'.hist.consumed = s.hist.consumed ++
    (List.range' s.hist.consumed.length k).map fun n => (t, word (base + n))
  delivered_eq : s'.hist.delivered.map Prod.fst =
    s.hist.delivered.map Prod.fst ++ List.range' s.hist.consumed.length k

theorem Inv.dequeue_run (hi : Inv size base s σ) {t : Tid}
    (hpc : s.pc t = .idle)
    (hσ : σ ((base + s.hist.consumed.length) % size.toNat) = base + s.hist.consumed.length + 1) :
    ∃ s' σ', (machine Tid size m).runFrom s (dequeueActs t width) = some s' ∧
      Inv size base s' σ' ∧ Dequeued base t 1 s s' := by
  have hseq := hi.slot_seq s.hist.consumed.length
  rw [← hi.r_eq, hσ, ← word_succ, ← hi.r_eq] at hseq
  set pos := s.mem.r with hpos
  -- Up to the swap nothing changes but the counter of `t`.
  let s1 : State Tid V width := s.goto t (.loadR false)
  let s2 : State Tid V width :=
    { s.goto t (.seqR false pos) with hist := s.hist.load t s.hist.consumed.length }
  let s3 : State Tid V width :=
    { s.goto t (.casR false pos) with hist := s.hist.load t s.hist.consumed.length }
  have hstep : step size s (.dequeue t) = some s1 := by simp [step, hpc, s1]
  have hnext1 : next size s1 t = some s2 := by simp [next, s1, s2, State.goto, hpos]
  have hnext2 : next size s2 t = some s3 := by
    simp [next, s2, s3, State.goto, onDiff, hseq]
  have hi3 : Inv size base s3 σ := by
    refine hi.load (by simp [hpc]) ?_
    simp only [Holds, History.load, Function.update_self]
    exact ⟨hi.r_eq, le_refl _, fun _ => hσ⟩
  -- The swap works, since nobody else moved.
  have hpc3 : s3.pc t = .casR false pos := Function.update_self ..
  have hi4 := hi3.claimR hpc3 (by simp [s3, History.load])
  set s4 : State Tid V width := { s3.goto t (.read pos []) with
    mem := { s3.mem with r := pos + 1 }
    hist := { s3.hist with consumed := s3.hist.consumed ++ [(t, pos)] } } with hs4
  have hnext3 : next size s3 t = some s4 := by
    simp [next, s3, hs4, State.goto, hpos]
  obtain ⟨got, hlen, hrun, hi5⟩ := hi4.fetch_run (m := m) (k := width)
    (Function.update_self ..) (by simp)
  obtain ⟨σ', -, hi6⟩ := hi5.released (Function.update_self ..) hlen
  refine ⟨_, σ', ?_, hi6, ?_⟩
  · have hlast : next size (s4.goto t (.read pos got)) t = some
        ((s4.goto t (.read pos got)).released t got
          (release size pos (s4.goto t (.read pos got)).mem)) := by
      simp [next, State.goto, hlen]
    rw [dequeueActs, Machine.runFrom_cons]
    change (step size s (.dequeue t)).bind _ = _
    rw [hstep, Option.bind_some, show 3 + width + 1 = width + 1 + 1 + 1 + 1 by omega,
      runFrom_next hnext1, runFrom_next hnext2, runFrom_next hnext3, List.replicate_succ',
      Machine.runFrom_append, hrun, Option.bind_some]
    exact runFrom_next (k := 0) hlast
  · have hpc' : s.pc = Function.update s.pc t .idle := by rw [← hpc, Function.update_eq_self]
    refine ⟨?_, rfl, rfl, rfl, ?_, ?_⟩
    · simp [State.released, State.goto, hs4, s3, ← hpc']
    · rw [List.range'_one, List.map_singleton, ← hi.r_eq]
      rfl
    · simp [State.released, State.goto, hs4, s3, History.load]

omit [DecidableEq Tid] in
theorem Inv.readable (hi : Inv size base s σ) {n : Nat} (hn : s.hist.consumed.length ≤ n)
    (h : n ∈ s.hist.published ∨ n ∈ s.hist.recovered) :
    σ ((base + n) % size.toNat) = base + n + 1 := by
  have hlt : n < s.hist.produced.length := h.elim (hi.hist.published_lt n) (hi.hist.recovered_lt n)
  rcases hi.filled n hn hlt with ⟨-, hp, hr⟩ | ⟨hσ, -⟩
  · exact absurd h (not_or.mpr ⟨hp, hr⟩)
  · exact hσ

theorem Inv.drain {k : Nat} (hi : Inv size base s σ) {t : Tid}
    (hpc : s.pc t = .idle)
    (hk : ∀ n, s.hist.consumed.length ≤ n → n < s.hist.consumed.length + k →
      n ∈ s.hist.published ∨ n ∈ s.hist.recovered) :
    ∃ s' σ', (machine Tid size m).runFrom s (List.replicate k (dequeueActs t width)).flatten =
      some s' ∧ Inv size base s' σ' ∧ Dequeued base t k s s' := by
  induction k generalizing s σ with
  | zero => exact ⟨s, σ, rfl, hi, rfl, rfl, rfl, rfl, by simp, by simp⟩
  | succ k ih =>
    obtain ⟨s1, σ1, hrun1, hi1, hd1⟩ := hi.dequeue_run (m := m) hpc
      (hi.readable (le_refl _) (hk _ (le_refl _) (by omega)))
    have hlen : s1.hist.consumed.length = s.hist.consumed.length + 1 := by
      rw [hd1.consumed_eq]; simp
    obtain ⟨s2, σ2, hrun2, hi2, hd2⟩ := ih hi1 (by rw [hd1.pc_eq, hpc]) (by
      rw [hlen, hd1.published_eq, hd1.recovered_eq]
      exact fun n h1 h2 => hk n (by omega) (by omega))
    refine ⟨s2, σ2, ?_, hi2, ?_⟩
    · rw [List.replicate_succ, List.flatten_cons, Machine.runFrom_append, hrun1]
      exact hrun2
    · exact
        { pc_eq := hd2.pc_eq.trans hd1.pc_eq
          produced_eq := hd2.produced_eq.trans hd1.produced_eq
          published_eq := hd2.published_eq.trans hd1.published_eq
          recovered_eq := hd2.recovered_eq.trans hd1.recovered_eq
          consumed_eq := by rw [hd2.consumed_eq, hlen, hd1.consumed_eq]; simp [List.range'_succ]
          delivered_eq := by rw [hd2.delivered_eq, hlen, hd1.delivered_eq]; simp [List.range'_succ] }

def Owns (s : State Tid V width) (t : Tid) (pos : Word) : Prop :=
  (∃ e i, s.pc t = .write e pos i) ∨ ∃ got, s.pc t = .read pos got

/-- What the ring promises in a state `s` of a run that started at position `base` with memory
`m`. -/
structure Safe (size : Word) (base : Nat) (m : Mem V width) (s : State Tid V width) : Prop where
  one_owner : ∀ t u p q, Owns s t p → Owns s u q → slot size p = slot size q → t = u
  writer_seq : ∀ t e p i, s.pc t = .write e p i → s.mem.seq (slot size p) = p
  reader_seq : ∀ t p got, s.pc t = .read p got → s.mem.seq (slot size p) = p + 1
  room : (s.mem.w - s.mem.r).toNat ≤ size.toNat
  copied : ∀ t p got, s.pc t = .read p got → ∃ (n : Nat) (u : Tid) (e : Elem V width),
    s.hist.produced[n]? = some (u, p, e) ∧
    s.hist.consumed[n]? = some (t, p) ∧ got = (List.ofFn e).take got.length
  delivered : ∀ d ∈ s.hist.delivered, ∃ u t p e, s.hist.produced[d.1]? = some (u, p, e) ∧
    s.hist.consumed[d.1]? = some (t, p) ∧ d.2 = List.ofFn e
  /-- The claims of each side go through the positions one by one, and a consumer only gets what
  was published. -/
  produced_pos : ∀ n t p e, s.hist.produced[n]? = some (t, p, e) → p = word (base + n)
  consumed_pos : ∀ n t p, s.hist.consumed[n]? = some (t, p) →
    p = word (base + n) ∧ n ∈ s.hist.published
  published_once : s.hist.published.Nodup
  delivered_once : (s.hist.delivered.map Prod.fst).Nodup
  claimable : ∀ t n, s.pc t = .idle → s.hist.consumed.length ≤ n →
    (∀ k, s.hist.consumed.length ≤ k → k ≤ n → k ∈ s.hist.published) →
    ∃ k s', (machine Tid size m).runFrom s (List.replicate k (dequeueActs t width)).flatten =
      some s' ∧ s'.hist.consumed[n]? = some (t, word (base + n))

omit [DecidableEq Tid] in
theorem onTime_of_no_recovery (hrec : s.hist.recovered = []) (t : Tid) : OnTime s t := by
  simp [OnTime, hrec]

omit [DecidableEq Tid] in
theorem Inv.owner (hi : Inv size base s σ) (hrec : s.hist.recovered = []) {t : Tid} {p : Word}
    (h : Owns s t p) : p = word (base + s.hist.loaded t) ∧
    s.hist.loaded t < s.hist.produced.length ∧
    s.hist.produced.length ≤ s.hist.loaded t + size.toNat ∧
    ((∃ e, s.hist.produced[s.hist.loaded t]? = some (t, p, e) ∧
        s.hist.consumed.length ≤ s.hist.loaded t) ∨
      s.hist.consumed[s.hist.loaded t]? = some (t, p)) := by
  have ht := hi.holds t
  rcases h with ⟨e, i, hpc⟩ | ⟨got, hpc⟩
  · obtain ⟨h1, h2, -⟩ := hi.writer hpc (onTime_of_no_recovery hrec t)
    simp only [hpc, Holds] at ht
    exact ⟨ht.1, h1, h2, Or.inl ⟨e, ht.2.1, (ht.2.2.2.2 (by simp [hrec])).1⟩⟩
  · simp only [hpc, Holds] at ht
    have := lt_of_getElem? ht.2.1
    have := hi.le
    exact ⟨ht.1, by omega, ht.2.2.2.1, Or.inr ht.2.1⟩

omit [DecidableEq Tid] in
theorem Inv.one_owner (hi : Inv size base s σ)
    (hrec : s.hist.recovered = []) {t u : Tid} {p q : Word} (ht : Owns s t p) (hu : Owns s u q)
    (hslot : slot size p = slot size q) : t = u := by
  obtain ⟨hp, ht1, ht2, ht3⟩ := hi.owner hrec ht
  obtain ⟨hq, hu1, hu2, hu3⟩ := hi.owner hrec hu
  rw [hp, hq, slot_word hi.size_ok, slot_word hi.size_ok] at hslot
  have hn := lap_inj ht1 ht2 hu1 hu2 hslot
  rw [hn] at ht3
  rcases ht3 with ⟨e, h1, h2⟩ | h1 <;> rcases hu3 with ⟨e', h3, h4⟩ | h3
  · rw [h1] at h3
    simp only [Option.some.injEq, Prod.mk.injEq] at h3
    exact h3.1
  · exact absurd (lt_of_getElem? h3) (by omega)
  · exact absurd (lt_of_getElem? h1) (by omega)
  · rw [h1] at h3
    simp only [Option.some.injEq, Prod.mk.injEq] at h3
    exact h3.1

theorem Inv.safe (hi : Inv size base s σ)
    (hrec : s.hist.recovered = []) : Safe size base m s := by
  have hN := size_bounds hi.size_ok
  have hroom := hi.room
  have hno : ∀ n, n ∉ s.hist.recovered := by simp [hrec]
  refine ⟨fun t u p q => hi.one_owner hrec, ?_, ?_, ?_, ?_, ?_, hi.hist.produced_pos, ?_,
    hi.hist.published_nodup, hi.hist.delivered_nodup, ?_⟩
  · intro t e p i hpc
    have ht := hi.holds t
    simp only [hpc, Holds] at ht
    rw [ht.1, hi.slot_seq, (ht.2.2.2.2 (hno _)).2.1]
  · intro t p got hpc
    have ht := hi.holds t
    simp only [hpc, Holds] at ht
    rw [ht.1, hi.slot_seq, ht.2.2.1, word_succ]
  · have hcp := hi.le
    rw [hi.w_eq, hi.r_eq, word_sub_toNat (by omega) (by omega)]
    omega
  · intro t p got hpc
    have ht := hi.holds t
    simp only [hpc, Holds] at ht
    obtain ⟨u, e, hprod, -, hgot⟩ := ht.2.2.2.2.2.2 (hno _)
    exact ⟨_, u, e, hprod, ht.2.1, hgot⟩
  · intro d hd
    obtain ⟨u, p, e, hprod, heq⟩ := hi.hist.delivered_eq d hd (hno _)
    have hlt := hi.hist.delivered_lt d hd
    have hcons := List.getElem?_eq_getElem hlt
    refine ⟨u, s.hist.consumed[d.1].1, p, e, hprod, ?_, heq⟩
    rw [hcons, hi.hist.produced_pos _ _ _ _ hprod, ← hi.hist.consumed_pos _ _ _ hcons]
    rfl
  · intro n t p h
    refine ⟨hi.hist.consumed_pos n t p h, ?_⟩
    exact (hi.hist.consumed_after n (lt_of_getElem? h)).resolve_right (hno n)
  · intro t n hpc hn hpub
    obtain ⟨s', σ', hrun, -, hd⟩ := hi.drain (m := m) (k := n + 1 - s.hist.consumed.length) hpc
      fun k h1 h2 => Or.inl (hpub k h1 (by omega))
    refine ⟨_, s', hrun, ?_⟩
    rw [hd.consumed_eq, List.getElem?_append_right hn, List.getElem?_map,
      List.getElem?_range' (by omega)]
    simp only [Option.map_some, Nat.one_mul, Nat.add_sub_cancel' hn]

theorem step_recovered {a : Act Tid V width} (h : step size s a = some s') :
    s'.hist.recovered = s.hist.recovered := by
  cases a with
  | next t =>
    simp only [step, next] at h
    split at h <;> (try split_ifs at h) <;> simp only [Option.some.injEq, reduceCtorEq] at h <;>
      subst h <;> rfl
  | commit t =>
    simp only [step, publishSlot, releaseSlot] at h
    split at h <;> (try split_ifs at h) <;> simp only [Option.some.injEq, reduceCtorEq] at h <;>
      subst h <;> rfl
  | _ =>
    simp only [step] at h
    split at h <;> simp only [Option.some.injEq, reduceCtorEq] at h <;> subst h <;> rfl

/-- Any number of producers and consumers, any ring size, any starting position and any
interleaving, as long as no thread sleeps through `2 ^ 63` positions. -/
theorem ring_safe (hsize : validRingSize size = true) (hstart : StartsAt size base m)
    (hs : (machine Tid size m).Reach StepAwake s) : Safe size base m s := by
  suffices h : (∃ σ, Inv size base s σ) ∧ s.hist.recovered = [] by
    obtain ⟨⟨σ, hi⟩, hrec⟩ := h
    exact hi.safe hrec
  refine hs.invariant (I := fun s => (∃ σ, Inv size base s σ) ∧ s.hist.recovered = []) ?_ ?_
  · exact ⟨⟨_, Inv.start hsize hstart⟩, rfl⟩
  · rintro s a s' - ⟨⟨σ, hi⟩, hrec⟩ hawake hstep
    have htime : StepOnTime s a := by
      cases a with
      | next t | commit t => exact onTime_of_no_recovery hrec t
      | _ => trivial
    obtain ⟨σ', -, hi'⟩ := hi.of_step hawake htime hstep
    exact ⟨⟨σ', hi'⟩, (step_recovered hstep).trans hrec⟩

theorem step_lengths {a : Act Tid V width} (h : step size s a = some s') :
    s'.hist.produced.length ≤ s.hist.produced.length + 1 ∧
    s'.hist.consumed.length ≤ s.hist.consumed.length + 1 := by
  cases a with
  | next t =>
    simp only [step, next] at h
    split at h <;> (try split_ifs at h) <;> simp only [Option.some.injEq, reduceCtorEq] at h <;>
      subst h <;> simp [State.goto, State.published, State.released, History.load]
  | commit t =>
    simp only [step, publishSlot, releaseSlot] at h
    split at h <;> (try split_ifs at h) <;> simp only [Option.some.injEq, reduceCtorEq] at h <;>
      subst h <;> simp [State.goto, State.published, State.released]
  | _ =>
    simp only [step] at h
    split at h <;> simp only [Option.some.injEq, reduceCtorEq] at h <;> subst h <;> simp [State.goto]

theorem reach_of_short {as : List (Act Tid V width)} {n : Nat}
    (hs : (machine Tid size m).Reach StepAwake s)
    (hp : s.hist.produced.length ≤ n) (hc : s.hist.consumed.length ≤ n)
    (hn : n + as.length < 2 ^ 63) (hrun : (machine Tid size m).runFrom s as = some s') :
    (machine Tid size m).Reach StepAwake s' := by
  induction as generalizing s n with
  | nil =>
    simp only [Machine.runFrom_nil, Option.some.injEq] at hrun
    exact hrun ▸ hs
  | cons a rest ih =>
    rw [Machine.runFrom_cons, Option.bind_eq_some_iff] at hrun
    obtain ⟨s1, hs1, hrest⟩ := hrun
    have hlen := step_lengths hs1
    simp only [List.length_cons] at hn
    have hawake : StepAwake s a := by
      cases a with
      | next t => exact ⟨fun _ => by omega, fun _ => by omega⟩
      | _ => trivial
    exact ih (n := n + 1) (.step hs hawake hs1) (by omega) (by omega) (by omega) hrest

def beforeWrap : Mem Nat 1 where
  r := word (2 ^ 64 - 1)
  w := word (2 ^ 64 - 1)
  seq i := if i = 0 then 0 else word (2 ^ 64 - 1)
  data _ _ := 0

/-- Two elements go through the ring across the wrap, and the second one is claimed while the first
is still in its slot. -/
def acrossWrap : List (Act Bool Nat 1) :=
  [.enqueue false fun _ => 7] ++ List.replicate 5 (.next false) ++
  [.enqueue false fun _ => 8, .dequeue true] ++ List.replicate 3 (.next false) ++
  List.replicate 5 (.next true) ++ [.next false, .commit false, .dequeue true] ++
  List.replicate 5 (.next true)

theorem ring_safe_across_wrap : ∃ s, (machine Bool 2 beforeWrap).runFrom
    (machine Bool 2 beforeWrap).init acrossWrap = some s ∧
    s.hist.delivered = [(0, [7]), (1, [8])] ∧ Safe 2 (2 ^ 64 - 1) beforeWrap s := by
  have hstart : StartsAt 2 (2 ^ 64 - 1) beforeWrap := by
    refine ⟨rfl, rfl, fun i hi => ?_⟩
    have hi : i < 2 := hi
    interval_cases i <;> decide
  have hrun : ((machine Bool 2 beforeWrap).runFrom (machine Bool 2 beforeWrap).init acrossWrap).map
      (·.hist.delivered) = some [(0, [7]), (1, [8])] := by decide +kernel
  obtain ⟨s, hs, hd⟩ := Option.map_eq_some_iff.mp hrun
  exact ⟨s, hs, hd, ring_safe (by decide) hstart
    (reach_of_short .init (le_refl 0) (le_refl 0) (by decide) hs)⟩

end Hqq.Ring
