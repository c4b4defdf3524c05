import Hqq.Ring.Proofs

/-!
# Threads that stay on one side of the ring

Where a thread only ever enqueues, or is the only one that dequeues, its steps
leave the other side alone.
-/

namespace Hqq.Ring

variable {V Tid : Type} {width : Nat} {size : Word} {base : Nat} {s s' : State Tid V width}
  {σ : Nat → Nat} {t : Tid}

def Pc.Producing : Pc V width → Prop
  | .idle | .loadW _ _ | .seqW _ _ _ | .casW _ _ _ | .waitW _ _ | .write _ _ _ => True
  | _ => False

/-- `t` is the only consumer, so the cursor is where it last saw it. -/
def Alone (s : State Tid V width) (t : Tid) : Prop :=
  match s.pc t with
  | .idle | .loadR _ | .read _ _ => True
  | .seqR _ _ | .casR _ _ | .waitR _ => s.hist.loaded t = s.hist.consumed.length
  | _ => False

structure Frame (t : Tid) (s s' : State Tid V width) : Prop where
  pc_eq : ∀ u ≠ t, s'.pc u = s.pc u
  loaded_eq : ∀ u ≠ t, s'.hist.loaded u = s.hist.loaded u
  recovered_eq : s'.hist.recovered = s.hist.recovered

structure ProducerStep (t : Tid) (s s' : State Tid V width) : Prop extends Frame t s s' where
  producing : (s'.pc t).Producing
  r_eq : s'.mem.r = s.mem.r
  consumed_eq : s'.hist.consumed = s.hist.consumed
  delivered_eq : s'.hist.delivered = s.hist.delivered
  produced_le : s.hist.produced.length ≤ s'.hist.produced.length

structure ConsumerStep (t : Tid) (s s' : State Tid V width) : Prop extends Frame t s s' where
  alone : Alone s' t
  w_eq : s'.mem.w = s.mem.w
  produced_eq : s'.hist.produced = s.hist.produced
  published_eq : s'.hist.published = s.hist.published
  consumed_le : s.hist.consumed.length ≤ s'.hist.consumed.length

variable [DecidableEq Tid]

theorem Frame.goto {pc : Pc V width} {m : Mem V width} {h : History Tid V width}
    (hload : ∀ u ≠ t, h.loaded u = s.hist.loaded u) (hrec : h.recovered = s.hist.recovered) :
    Frame t s { s.goto t pc with mem := m, hist := h } :=
  ⟨fun _ hu => Function.update_of_ne hu .., hload, hrec⟩

theorem ProducerStep.of_next (hpc : (s.pc t).Producing) (h : next size s t = some s') :
    ProducerStep t s s' := by
  have hself : ∀ pc : Pc V width, (s.goto t pc).pc t = pc := fun _ => Function.update_self ..
  unfold next at h
  cases hp : s.pc t with
  | loadW slow e =>
    simp only [hp, Option.some.injEq] at h
    subst h
    refine ⟨Frame.goto (fun u hu => Function.update_of_ne hu ..) rfl, ?_, rfl, rfl, rfl, le_refl _⟩
    rw [hself]; trivial
  | seqW slow e pos =>
    simp only [hp, Option.some.injEq] at h
    subst h
    refine ⟨Frame.goto (fun _ _ => rfl) rfl, ?_, rfl, rfl, rfl, le_refl _⟩
    simp only [hself, onDiff]
    split_ifs <;> trivial
  | casW slow e pos =>
    simp only [hp] at h
    split_ifs at h <;> cases h
    · refine ⟨Frame.goto (fun _ _ => rfl) rfl, ?_, rfl, rfl, rfl, by simp⟩
      rw [hself]; trivial
    · refine ⟨Frame.goto (fun _ _ => rfl) rfl, ?_, rfl, rfl, rfl, le_refl _⟩
      rw [hself]; trivial
  | waitW e pos =>
    simp only [hp, Option.some.injEq] at h
    subst h
    refine ⟨Frame.goto (fun _ _ => rfl) rfl, ?_, rfl, rfl, rfl, le_refl _⟩
    rw [hself]; trivial
  | write e pos i =>
    simp only [hp] at h
    split_ifs at h <;> cases h
    all_goals
      refine ⟨Frame.goto (fun _ _ => rfl) rfl, ?_, rfl, rfl, rfl, le_refl _⟩
    · rw [hself]; trivial
    · rw [State.published, hself]; trivial
  | idle => simp [hp] at h
  | loadR | seqR | casR | waitR | read => simp [hp, Pc.Producing] at hpc

theorem ConsumerStep.of_next (halone : Alone s t) (h : next size s t = some s') :
    ConsumerStep t s s' := by
  have hself : ∀ pc : Pc V width, (s.goto t pc).pc t = pc := fun _ => Function.update_self ..
  unfold next at h
  unfold Alone at halone
  cases hp : s.pc t with
  | loadR slow =>
    simp only [hp, Option.some.injEq] at h
    subst h
    refine ⟨Frame.goto (fun u hu => Function.update_of_ne hu ..) rfl, ?_, rfl, rfl, rfl, le_refl _⟩
    simp [Alone, hself, History.load]
  | seqR slow pos =>
    simp only [hp, Option.some.injEq] at h halone
    subst h
    refine ⟨Frame.goto (fun _ _ => rfl) rfl, ?_, rfl, rfl, rfl, le_refl _⟩
    simp only [Alone, hself, onDiff]
    split_ifs <;> trivial
  | casR slow pos =>
    simp only [hp] at h halone
    split_ifs at h <;> cases h
    · refine ⟨Frame.goto (fun _ _ => rfl) rfl, ?_, rfl, rfl, rfl, by simp⟩
      simp only [Alone, hself]
    · refine ⟨Frame.goto (fun _ _ => rfl) rfl, ?_, rfl, rfl, rfl, le_refl _⟩
      simp only [Alone, hself]
  | waitR pos =>
    simp only [hp, Option.some.injEq] at h halone
    subst h
    refine ⟨Frame.goto (fun _ _ => rfl) rfl, ?_, rfl, rfl, rfl, le_refl _⟩
    simp only [Alone, hself]
    exact halone
  | read pos got =>
    simp only [hp] at h
    split_ifs at h <;> cases h
    all_goals
      refine ⟨Frame.goto (fun _ _ => rfl) rfl, ?_, rfl, rfl, rfl, le_refl _⟩
      simp only [Alone, State.released, hself]
  | idle => simp [hp] at h
  | loadW | seqW | casW | waitW | write => simp [hp] at halone

def Pc.payload : Pc V width → Option (Elem V width)
  | .loadW _ e | .seqW _ e _ | .casW _ e _ | .waitW e _ | .write e _ _ => some e
  | _ => none

/-- What a step of a producer does with payloads: it keeps its own, enters it in the history when
it claims a position, and stores into the slot of that position only. -/
structure Sends (size : Word) (t : Tid) (s s' : State Tid V width) : Prop where
  payload_of : ∀ e, (s'.pc t).payload = some e → (s.pc t).payload = some e
  produced_eq : s'.hist.produced = s.hist.produced ∨
    ∃ pos e, (s.pc t).payload = some e ∧ s'.hist.produced = s.hist.produced ++ [(t, pos, e)]
  data_eq : s'.mem.data = s.mem.data ∨
    ∃ e pos i, s.pc t = .write e pos i ∧ ∀ k ≠ slot size pos, s'.mem.data k = s.mem.data k

theorem Sends.of_next (hpc : (s.pc t).Producing) (h : next size s t = some s') :
    Sends size t s s' := by
  have hself : ∀ pc : Pc V width, (s.goto t pc).pc t = pc := fun _ => Function.update_self ..
  unfold next at h
  cases hp : s.pc t with
  | loadW slow e | waitW e pos =>
    simp only [hp, Option.some.injEq] at h
    subst h
    refine ⟨fun e' he => ?_, Or.inl rfl, Or.inl rfl⟩
    rw [hself] at he; rw [hp]; exact he
  | seqW slow e pos =>
    simp only [hp, Option.some.injEq] at h
    subst h
    refine ⟨fun e' he => ?_, Or.inl rfl, Or.inl rfl⟩
    simp only [hself, onDiff] at he
    rw [hp]
    split_ifs at he <;> exact he
  | casW slow e pos =>
    simp only [hp] at h
    split_ifs at h <;> cases h
    · refine ⟨fun e' he => ?_, Or.inr ⟨pos, e, by rw [hp]; rfl, rfl⟩, Or.inl rfl⟩
      rw [hself] at he; rw [hp]; exact he
    · refine ⟨fun e' he => ?_, Or.inl rfl, Or.inl rfl⟩
      rw [hself] at he; rw [hp]; exact he
  | write e pos i =>
    simp only [hp] at h
    split_ifs at h <;> cases h
    · refine ⟨fun e' he => ?_, Or.inl rfl, Or.inr ⟨e, pos, i, hp, fun k hk => ?_⟩⟩
      · rw [hself] at he; rw [hp]; exact he
      · exact Function.update_of_ne hk ..
    · refine ⟨fun e' he => ?_, Or.inl rfl, Or.inl rfl⟩
      rw [State.published, hself] at he
      cases he
  | idle => simp [hp] at h
  | loadR | seqR | casR | waitR | read => simp [hp, Pc.Producing] at hpc

/-- What a step of a consumer does with payloads: it copies one more word of its slot, or it
delivers the copy. -/
structure Receives (size : Word) (t : Tid) (s s' : State Tid V width) : Prop where
  data_eq : s'.mem.data = s.mem.data
  delivered_eq : s'.hist.delivered = s.hist.delivered ∨
    ∃ pos got, s.pc t = .read pos got ∧ width ≤ got.length ∧ s'.pc t = .idle ∧
      s'.hist.delivered = s.hist.delivered ++ [(s.hist.loaded t, got)]
  read_of : ∀ pos got, s'.pc t = .read pos got → got = [] ∨
    ∃ got' : List V, ∃ hlt : got'.length < width, s.pc t = .read pos got' ∧
      s'.hist.loaded t = s.hist.loaded t ∧
      got = got' ++ [s.mem.data (slot size pos) ⟨got'.length, hlt⟩]

theorem Receives.of_next (halone : Alone s t) (h : next size s t = some s') :
    Receives size t s s' := by
  have hself : ∀ pc : Pc V width, (s.goto t pc).pc t = pc := fun _ => Function.update_self ..
  unfold next at h
  unfold Alone at halone
  cases hp : s.pc t with
  | loadR slow | waitR pos =>
    simp only [hp, Option.some.injEq] at h
    subst h
    refine ⟨rfl, Or.inl rfl, fun pos' got hr => ?_⟩
    rw [hself] at hr
    cases hr
  | seqR slow pos =>
    simp only [hp, Option.some.injEq] at h
    subst h
    refine ⟨rfl, Or.inl rfl, fun pos' got hr => ?_⟩
    simp only [hself, onDiff] at hr
    split_ifs at hr
  | casR slow pos =>
    simp only [hp] at h
    split_ifs at h <;> cases h
    · refine ⟨rfl, Or.inl rfl, fun pos' got hr => Or.inl ?_⟩
      rw [hself] at hr
      cases hr
      rfl
    · refine ⟨rfl, Or.inl rfl, fun pos' got hr => ?_⟩
      rw [hself] at hr
      cases hr
  | read pos got =>
    simp only [hp] at h
    split_ifs at h with hlt <;> cases h
    · refine ⟨rfl, Or.inl rfl, fun pos' got' hr => Or.inr ⟨got, hlt, ?_⟩⟩
      rw [hself] at hr
      cases hr
      exact ⟨hp, rfl, rfl⟩
    · refine ⟨rfl, Or.inr ⟨pos, got, hp, by omega, ?_, rfl⟩, fun pos' got' hr => ?_⟩
      · rw [State.released, hself]
      · rw [State.released, hself] at hr
        cases hr
  | idle => simp [hp] at h
  | loadW | seqW | casW | waitW | write => simp [hp] at halone

end Hqq.Ring
