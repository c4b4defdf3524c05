import Hqq.Link.Reserve

/-!
# A reservation is completed once

For a slot the sequence word gives that. For a tail it rests on the callers: a second copy has a
flag of its own, gives the buffer back once more, and then two tails share it.
-/

namespace Hqq.Reserve

open Tails (Buf Remainder)

variable {X K O : Type}

/-! ## The life of one reservation -/

def Stage.via : Stage K → Option K
  | .none => Option.none
  | .write k _ | .swap k _ => some k

/-- The records of a reservation: what it stands for, how often it was completed, what its calls
returned, the call that runs, and the copies. -/
structure Life (handle : Option Handle) (effects : Nat) (log : List Outcome) (stage : Stage K)
    (copies : K → Option Bool) : Prop where
  unused : handle = none → effects = 0 ∧ stage = .none ∧ ∀ k, copies k = none
  once : effects ≤ 1
  flag : ∀ k, copies k = some true → effects = 1
  running : stage ≠ .none → effects = 0
  via : ∀ k, stage.via = some k → copies k ≠ none
  silent : effects = 0 → log = []
  first : effects = 1 → ∃ o rest, log = o :: rest ∧ o ≠ .invalidOp ∧ ∀ o' ∈ rest, o' = .invalidOp
  alone : ∀ b, handle = some (.tail b) → stage = .none ∧
    (∀ k k', copies k ≠ none → copies k' ≠ none → k = k') ∧ (effects = 1 → ∀ k, copies k ≠ some false)

variable {handle : Option Handle} {effects : Nat} {log : List Outcome} {stage : Stage K}
  {copies : K → Option Bool}

theorem Life.start : Life none 0 [] (.none : Stage K) fun _ => none where
  unused _ := ⟨rfl, rfl, fun _ => rfl⟩
  once := Nat.zero_le _
  flag _ hk := by cases hk
  running _ := rfl
  via k hk := by cases hk
  silent _ := rfl
  first h := by cases h
  alone b hb := by cases hb

theorem Life.refused (l : Life handle effects log stage copies) (h1 : effects = 1) :
    Life handle effects (log ++ [.invalidOp]) stage copies := by
  refine { l with silent := fun h0 => by omega, first := fun _ => ?_ }
  obtain ⟨o, rest, hlog, ho, hrest⟩ := l.first h1
  refine ⟨o, rest ++ [.invalidOp], by simp [hlog], ho, fun o' ho' => ?_⟩
  rcases List.mem_append.mp ho' with hmem | hmem
  · exact hrest o' hmem
  · exact List.mem_singleton.mp hmem

theorem Life.begun (l : Life handle effects log stage copies) (h0 : effects = 0)
    (hslot : ∀ b, handle ≠ some (.tail b)) {k : K} (hk : copies k ≠ none) {stage' : Stage K}
    (hvia : stage'.via = some k) : Life handle effects log stage' copies :=
  { l with
    unused := fun hn => absurd ((l.unused hn).2.2 k) hk
    running := fun _ => h0
    via := fun _ hk' => Option.some.inj (hvia.symm.trans hk') ▸ hk
    alone := fun b hb => absurd hb (hslot b) }

variable [DecidableEq K]

theorem Life.granted (l : Life none effects log stage copies) (h : Handle) (k : K) :
    Life (some h) effects log stage (Function.update copies k (some false)) := by
  obtain ⟨h0, hstage, hnone⟩ := l.unused rfl
  have honly : ∀ k', Function.update copies k (some false) k' ≠ none → k' = k := by
    intro k' hk'
    by_contra hne
    exact hk' ((Function.update_of_ne hne ..).trans (hnone k'))
  refine
    { unused := fun hn => by cases hn
      once := l.once
      flag := fun k' hk' => ?_
      running := l.running
      via := fun k' hk' => by rw [hstage] at hk'; cases hk'
      silent := l.silent
      first := l.first
      alone := fun b _ => ⟨hstage, fun k1 k2 h1 h2 => ?_, fun h1 => by omega⟩ }
  · obtain rfl := honly k' (by simp [hk'])
    simp at hk'
  · rw [honly k1 h1, honly k2 h2]

theorem Life.copied (l : Life handle effects log stage copies) {k k' : K} {done : Bool}
    (hk : copies k = some done) (hslot : ∀ b, handle ≠ some (.tail b)) :
    Life handle effects log stage (Function.update copies k' (some done)) := by
  refine
    { l with
      unused := fun hn => ?_
      flag := fun k1 hk1 => ?_
      via := fun k1 hk1 => ?_
      alone := fun b hb => absurd hb (hslot b) }
  · rw [(l.unused hn).2.2 k] at hk
    cases hk
  · rcases eq_or_ne k1 k' with rfl | hne
    · simp only [Function.update_self, Option.some.injEq] at hk1
      exact l.flag k (hk.trans (congrArg some hk1))
    · rw [Function.update_of_ne hne] at hk1
      exact l.flag k1 hk1
  · rcases eq_or_ne k1 k' with rfl | hne
    · simp
    · rw [Function.update_of_ne hne]
      exact l.via k1 hk1

theorem Life.completed (l : Life handle effects log stage copies) (h0 : effects = 0)
    {k : K} (hk : copies k ≠ none) {o : Outcome} (ho : o ≠ .invalidOp) :
    Life handle (effects + 1) (log ++ [o]) (.none : Stage K)
      (Function.update copies k (some true)) := by
  subst h0
  refine
    { unused := fun hn => absurd ((l.unused hn).2.2 k) hk
      once := le_refl _
      flag := fun _ _ => rfl
      running := fun hs => absurd rfl hs
      via := fun _ h => by cases h
      silent := fun h => by omega
      first := fun _ => ⟨o, [], by simp [l.silent rfl], ho, by simp⟩
      alone := fun b hb => ⟨rfl, fun k1 k2 h1 h2 => ?_, fun _ k1 h1 => ?_⟩ }
  · -- The copies are the ones that were there.
    have hold : ∀ k1, Function.update copies k (some true) k1 ≠ none → copies k1 ≠ none := by
      intro k1 hk1
      rcases eq_or_ne k1 k with rfl | hne
      · exact hk
      · rwa [Function.update_of_ne hne] at hk1
    exact (l.alone b hb).2.1 k1 k2 (hold k1 h1) (hold k2 h2)
  · rcases eq_or_ne k1 k with rfl | hne
    · simp at h1
    · rw [Function.update_of_ne hne] at h1
      exact hne ((l.alone b hb).2.1 k1 k (by simp [h1]) hk)

variable [DecidableEq X] [DecidableEq O] {cfg : Config} {base : Nat} {s s' : State X K O} {x : X}

def State.Life (s : State X K O) (x : X) : Prop :=
  Reserve.Life (s.handle x) (s.effects x) (s.log x) (s.stage x) (s.copies x)

structure Inv (cfg : Config) (base : Nat) (s : State X K O) : Prop where
  slots : ∃ σ, Slots cfg base s.ring s.handle s.effects σ
  life : ∀ x, s.Life x
  tails : Tails.Sound s.tails (s.lent.map fun l => l.2.id : List Nat)
  lent : ∀ x b, (x, b) ∈ s.lent ↔ s.handle x = some (.tail b) ∧ s.effects x = 0

structure Same (x : X) (s s' : State X K O) : Prop where
  handle : ∀ y ≠ x, s'.handle y = s.handle y
  effects : ∀ y ≠ x, s'.effects y = s.effects y
  log : ∀ y ≠ x, s'.log y = s.log y
  stage : ∀ y ≠ x, s'.stage y = s.stage y
  copies : ∀ y ≠ x, s'.copies y = s.copies y

omit [DecidableEq K] [DecidableEq X] [DecidableEq O] in
theorem Same.life (h : Same x s s') (hl : ∀ y, s.Life y) (hx : s'.Life x) : ∀ y, s'.Life y := by
  intro y
  rcases eq_or_ne y x with rfl | hne
  · exact hx
  · unfold State.Life
    rw [h.handle y hne, h.effects y hne, h.log y hne, h.stage y hne, h.copies y hne]
    exact hl y

omit [DecidableEq K] [DecidableEq O] in
theorem Same.logged (s : State X K O) (x : X) (o : Outcome) : Same x s (s.logged x o) :=
  ⟨fun _ _ => rfl, fun _ _ => rfl, fun _ hy => Function.update_of_ne hy .., fun _ _ => rfl,
    fun _ _ => rfl⟩

omit [DecidableEq O] in
theorem Same.completed (s : State X K O) (x : X) (k : K) (o : Outcome) :
    Same x s (s.completed x k o) :=
  ⟨fun _ _ => rfl, fun _ hy => Function.update_of_ne hy .., fun _ hy => Function.update_of_ne hy ..,
    fun _ hy => Function.update_of_ne hy .., fun _ hy => Function.update_of_ne hy ..⟩

omit [DecidableEq O] in
theorem Same.granted (s : State X K O) (x : X) (k : K) (h : Handle) : Same x s (s.granted x k h) :=
  ⟨fun _ hy => Function.update_of_ne hy .., fun _ _ => rfl, fun _ _ => rfl, fun _ _ => rfl,
    fun _ hy => Function.update_of_ne hy ..⟩

omit [DecidableEq K] [DecidableEq X] [DecidableEq O] in
theorem Inv.lent_of_same (h : Inv cfg base s) (hsame : Same x s s') (hlent : s'.lent = s.lent)
    (hx : ∀ b, s'.handle x = some (.tail b) ∧ s'.effects x = 0 ↔
      s.handle x = some (.tail b) ∧ s.effects x = 0) :
    ∀ y b, (y, b) ∈ s'.lent ↔ s'.handle y = some (.tail b) ∧ s'.effects y = 0 := by
  intro y b
  rw [hlent, h.lent]
  rcases eq_or_ne y x with rfl | hne
  · exact (hx b).symm
  · rw [hsame.handle y hne, hsame.effects y hne]

omit [DecidableEq K] [DecidableEq O] in
theorem Inv.refused (h : Inv cfg base s) (h1 : s.effects x = 1) :
    Inv cfg base (s.logged x .invalidOp) := by
  have hsame := Same.logged s x .invalidOp
  refine ⟨h.slots, hsame.life h.life ?_, h.tails, h.lent_of_same hsame rfl fun _ => Iff.rfl⟩
  have := (h.life x).refused h1
  unfold State.Life
  simpa [State.logged] using this

omit [DecidableEq K] [DecidableEq O] in
theorem Inv.begun (h : Inv cfg base s) (h0 : s.effects x = 0)
    (hslot : ∀ b, s.handle x ≠ some (.tail b)) {k : K} (hk : s.copies x k ≠ none) {stage : Stage K}
    (hvia : stage.via = some k) :
    Inv cfg base { s with stage := Function.update s.stage x stage } := by
  have hsame : Same x s { s with stage := Function.update s.stage x stage } :=
    ⟨fun _ _ => rfl, fun _ _ => rfl, fun _ _ => rfl, fun _ hy => Function.update_of_ne hy ..,
      fun _ _ => rfl⟩
  refine ⟨h.slots, hsame.life h.life ?_, h.tails, h.lent⟩
  have := (h.life x).begun h0 hslot hk hvia
  unfold State.Life
  simpa using this

omit [DecidableEq O] in
theorem Inv.swapped (h : Inv cfg base s) (h0 : s.effects x = 0)
    (hslot : ∀ b, s.handle x ≠ some (.tail b)) {k : K} (hk : s.copies x k ≠ none) {o : Outcome}
    (ho : o ≠ .invalidOp) {ring : Ring.State (X ⊕ O) Unit 0}
    (hslots : ∃ σ, Slots cfg base ring s.handle (Function.update s.effects x (s.effects x + 1)) σ) :
    Inv cfg base { s.completed x k o with ring := ring } := by
  have hsame := Same.completed s x k o
  have hlife := hsame.life h.life (by
    have := (h.life x).completed h0 hk ho
    unfold State.Life
    simpa [State.completed, State.logged] using this)
  have hlent := h.lent_of_same hsame rfl fun b =>
    ⟨fun hb => absurd hb.1 (hslot b), fun hb => absurd hb.1 (hslot b)⟩
  exact ⟨hslots, hlife, h.tails, hlent⟩

omit [DecidableEq O] in
theorem Inv.gaveBack (h : Inv cfg base s) (h0 : s.effects x = 0) {b : Buf}
    (hx : s.handle x = some (.tail b)) {k : K} (hk : s.copies x k ≠ none) :
    Inv cfg base { s.completed x k .ok with
      tails := Tails.giveBack s.tails b, lent := s.lent.erase (x, b) } := by
  have hsame := Same.completed s x k .ok
  have hmem : (x, b) ∈ s.lent := (h.lent x b).mpr ⟨hx, h0⟩
  have hlife := hsame.life h.life (by
    have := (h.life x).completed h0 hk (show Outcome.ok ≠ .invalidOp by decide)
    unfold State.Life
    simpa [State.completed, State.logged] using this)
  obtain ⟨σ, hslots⟩ := h.slots
  have hperm := (List.perm_cons_erase hmem).map fun l => l.2.id
  have hnodup : s.lent.Nodup := by
    have := Multiset.nodup_of_le (Multiset.le_add_left _ _) h.tails.nodup
    exact List.Nodup.of_map _ (Multiset.coe_nodup.mp this)
  refine ⟨⟨σ, hslots.inv, hslots.recovered, fun y g hy => ?_⟩, hlife, ?_, fun y c => ?_⟩
  · change s.handle y = some g at hy
    change SlotOk cfg base σ s.ring y (Function.update s.effects x _ y) g
    rcases eq_or_ne y x with rfl | hne
    · rw [hx, Option.some.injEq] at hy
      rw [← hy]
      trivial
    · rw [Function.update_of_ne hne]
      exact hslots.slots y g hy
  · -- The buffer goes from the borrower to the spares.
    refine Tails.Sound.giveBack ?_
    have hcoe := Multiset.coe_eq_coe.mpr hperm
    rw [List.map_cons, ← Multiset.cons_coe] at hcoe
    rw [← hcoe]
    exact h.tails
  · change (y, c) ∈ s.lent.erase (x, b) ↔
      s.handle y = some (.tail c) ∧ Function.update s.effects x _ y = 0
    rw [hnodup.mem_erase_iff, h.lent]
    rcases eq_or_ne y x with rfl | hne
    · rw [Function.update_self, hx]
      simp only [ne_eq, Prod.mk.injEq, true_and, Option.some.injEq, Handle.tail.injEq]
      constructor
      · rintro ⟨hcb, rfl, -⟩
        exact absurd rfl hcb
      · rintro ⟨-, hn⟩
        exact absurd hn (Nat.succ_ne_zero _)
    · rw [Function.update_of_ne hne]
      simp [hne]

omit [DecidableEq O] in
theorem Inv.granted (h : Inv cfg base s) (hx : s.handle x = none) (k : K) (g : Handle)
    {ring : Ring.State (X ⊕ O) Unit 0} {tails : Remainder} {lent : List (X × Buf)}
    (hslots : ∃ σ, Slots cfg base ring (Function.update s.handle x (some g)) s.effects σ)
    (htails : Tails.Sound tails (lent.map fun l => l.2.id : List Nat))
    (hlent : ∀ y b, (y, b) ∈ lent ↔ (y, b) ∈ s.lent ∨ y = x ∧ g = .tail b) :
    Inv cfg base { s.granted x k g with ring := ring, tails := tails, lent := lent } := by
  have hsame := Same.granted s x k g
  have hlife := h.life x
  unfold State.Life at hlife
  rw [hx] at hlife
  refine ⟨hslots, hsame.life h.life ?_, htails, fun y b => ?_⟩
  · have := hlife.granted g k
    unfold State.Life
    simpa [State.granted] using this
  · change (y, b) ∈ lent ↔ Function.update s.handle x (some g) y = some (.tail b) ∧ s.effects y = 0
    rw [hlent, h.lent]
    rcases eq_or_ne y x with rfl | hne
    · rw [Function.update_self, hx]
      simp [(hlife.unused rfl).1]
    · rw [Function.update_of_ne hne]
      simp [hne]

omit [DecidableEq K] [DecidableEq X] [DecidableEq O] in
theorem Inv.of_ring (h : Inv cfg base s) {ring : Ring.State (X ⊕ O) Unit 0}
    (hslots : ∃ σ, Slots cfg base ring s.handle s.effects σ) :
    Inv cfg base { s with ring := ring } :=
  ⟨hslots, h.life, h.tails, h.lent⟩

omit [DecidableEq K] [DecidableEq X] [DecidableEq O] in
theorem Inv.owned_iff (h : Inv cfg base s)
    {g : Handle} (hx : s.handle x = some g) (htail : ∀ b, g ≠ .tail b) (hyoung : Young s x) :
    owned cfg s g = true ↔ s.effects x = 0 := by
  obtain ⟨σ, hslots⟩ := h.slots
  rw [owned, beq_iff_eq]
  constructor
  · intro hseq
    by_contra hn
    exact hslots.done_not_owned hx hn hyoung htail hseq
  · exact fun h0 => hslots.open_owned hx h0 htail

omit [DecidableEq K] [DecidableEq X] [DecidableEq O] in
theorem Inv.checks (h : Inv cfg base s) {g : Handle}
    (hx : s.handle x = some g) (htail : ∀ b, g ≠ .tail b) (hyoung : Young s x) {k : K} {done : Bool}
    (hk : s.copies x k = some done) :
    (done = true ∨ owned cfg s g = false) ↔ s.effects x = 1 := by
  have hiff := h.owned_iff hx htail hyoung
  have honce := (h.life x).once
  constructor
  · rintro (rfl | hno)
    · exact (h.life x).flag k hk
    · have hn : s.effects x ≠ 0 := fun h0 => by simp [hiff.mpr h0] at hno
      omega
  · intro h1
    right
    by_contra hyes
    have := hiff.mp (by simpa using hyes)
    omega

omit [DecidableEq K] [DecidableEq O] in
theorem Inv.of_checks (h : Inv cfg base s)
    {g : Handle} (hx : s.handle x = some g) (htail : ∀ b, g ≠ .tail b) (hyoung : Young s x) {k : K}
    {done : Bool} (hk : s.copies x k = some done) {stage : Stage K} (hvia : stage.via = some k)
    (hstep : (if done ∨ owned cfg s g = false then some (s.logged x .invalidOp)
      else some { s with stage := Function.update s.stage x stage }) = some s') :
    Inv cfg base s' := by
  have hcheck := h.checks hx htail hyoung hk
  split_ifs at hstep with hc <;> cases hstep
  · exact h.refused (hcheck.mp hc)
  · have hn := mt hcheck.mpr hc
    have honce := (h.life x).once
    exact h.begun (by omega) (fun b hb => htail b (Option.some.inj (hx.symm.trans hb)))
      (by simp [hk]) hvia

omit [DecidableEq O] in
theorem Inv.of_call (h : Inv cfg base s) {k : K}
    {op : Op} (hcare : Careful s (.call x k op)) (hstep : call cfg s x k op = some s') :
    Inv cfg base s' := by
  unfold call at hstep
  split at hstep
  · rename_i done g hstage hk hx
    have hyoung : (∀ b, g ≠ .tail b) → Young s x :=
      fun hg => hcare fun b hb => hg b (Option.some.inj (hx.symm.trans hb))
    split at hstep
    · exact h.of_checks hx (by simp) (hyoung (by simp)) hk rfl hstep
    · exact h.of_checks hx (by simp) (hyoung (by simp)) hk rfl hstep
    · exact h.of_checks hx (by simp) (hyoung (by simp)) hk rfl hstep
    · -- `Release` of a tail
      rename_i b
      split_ifs at hstep with hdone <;> cases hstep
      · exact h.refused ((h.life x).flag k (by rw [hk, hdone]))
      · refine h.gaveBack ?_ hx (by simp [hk])
        have hnot := ((h.life x).alone b hx).2.2
        have honce := (h.life x).once
        by_contra hn
        exact hnot (by omega) k (by rw [hk]; simpa using hdone)
    · simp at hstep
  · simp at hstep

theorem Inv.of_swap (h : Inv cfg base s)
    (hstep : swap cfg s x = some s') : Inv cfg base s' := by
  obtain ⟨σ, hslots⟩ := h.slots
  unfold swap at hstep
  split at hstep
  · rename_i k op pos hstage hx
    have h0 : s.effects x = 0 := (h.life x).running (by simp [hstage])
    have hk := (h.life x).via k (by simp [hstage, Stage.via])
    have hseq : s.ring.mem.seq (Ring.slot cfg.size pos) = pos :=
      hslots.open_owned hx h0 (by simp)
    simp only [Ring.publishSlot, hseq, if_true, Option.some.injEq] at hstep
    subst hstep
    refine h.swapped h0 (by simp [hx]) hk ?_ (hslots.publish hx h0)
    unfold completion
    split <;> (try split_ifs) <;> simp
  · rename_i k op pos hstage hx
    have h0 : s.effects x = 0 := (h.life x).running (by simp [hstage])
    have hk := (h.life x).via k (by simp [hstage, Stage.via])
    have hseq : s.ring.mem.seq (Ring.slot cfg.size pos) = pos + 1 :=
      hslots.open_owned hx h0 (by simp)
    simp only [Ring.releaseSlot, hseq, if_true, Option.some.injEq] at hstep
    subst hstep
    exact h.swapped h0 (by simp [hx]) hk (by simp) (hslots.release hx h0)
  · simp at hstep

omit [DecidableEq K] in
theorem Inv.of_ring_step (h : Inv cfg base s)
    {a : Ring.Act (X ⊕ O) Unit 0} {ring : Ring.State (X ⊕ O) Unit 0}
    (hstep : Ring.step cfg.size s.ring a = some ring) (hawake : Ring.StepAwake s.ring a)
    (hnone : ∀ x, a.tid = .inl x → s.handle x = none) : Inv cfg base { s with ring := ring } := by
  obtain ⟨σ, hslots⟩ := h.slots
  exact h.of_ring (hslots.of_step hstep hawake hnone)

theorem Inv.of_step (h : Inv cfg base s)
    {a : Act X K O} (hcare : Careful s a) (hstep : step cfg s a = some s') : Inv cfg base s' := by
  have hself : ∀ x, s.handle x = none → ∀ y, (Sum.inl x : X ⊕ O) = .inl y → s.handle y = none := by
    intro x hx y hy
    rwa [← Sum.inl.inj hy]
  cases a with
  | reserveWrite x | reserveRead x | giveUp x =>
    simp only [step] at hstep
    split at hstep
    · rename_i hx
      obtain ⟨ring, hring, rfl⟩ := Option.map_eq_some_iff.mp hstep
      exact h.of_ring_step hring trivial (hself x hx)
    · simp at hstep
  | claim x k =>
    simp only [step] at hstep
    split at hstep
    · rename_i hx
      obtain ⟨ring, hring, rfl⟩ := Option.map_eq_some_iff.mp hstep
      have h' := h.of_ring_step hring hcare (hself x hx)
      split
      · exact h'
      · rename_i g hg
        obtain ⟨σ, hslots⟩ := h'.slots
        refine h'.granted hx k g ⟨σ, hslots.of_claim ?_ hg⟩ h'.tails fun y b => ?_
        · exact ((h.life x).unused hx).1
        · have hnot : g ≠ .tail b := by
            rintro rfl
            unfold Handle.ofPc at hg
            split at hg <;> simp at hg
          simp [hnot]
    · simp at hstep
  | takeTail x k =>
    simp only [step] at hstep
    split at hstep
    · rename_i t tails hx hpc htake
      cases hstep
      obtain ⟨σ, hslots⟩ := h.slots
      refine h.granted hx k (.tail t.buf) ⟨σ, hslots.of_tail t.buf⟩ ?_ fun y b => ?_
      · exact h.tails.take htake
      · simp only [List.mem_cons, Prod.mk.injEq, Handle.tail.injEq]
        constructor
        · rintro (⟨rfl, rfl⟩ | hmem)
          · exact Or.inr ⟨rfl, rfl⟩
          · exact Or.inl hmem
        · rintro (hmem | ⟨rfl, rfl⟩)
          · exact Or.inr hmem
          · exact Or.inl ⟨rfl, rfl⟩
    · simp at hstep
  | copy x k k' =>
    simp only [step] at hstep
    split at hstep
    · rename_i done hk
      cases hstep
      have hsame : Same x s { s with
          copies := Function.update s.copies x (Function.update (s.copies x) k' (some done)) } :=
        ⟨fun _ _ => rfl, fun _ _ => rfl, fun _ _ => rfl, fun _ _ => rfl,
          fun _ hy => Function.update_of_ne hy ..⟩
      refine ⟨h.slots, hsame.life h.life ?_, h.tails, h.lent⟩
      have hlife : Reserve.Life _ _ _ _ (Function.update (s.copies x) k' (some done)) :=
        (h.life x).copied hk hcare
      unfold State.Life
      simpa using hlife
    · simp at hstep
  | call x k op => exact h.of_call hcare hstep
  | write x =>
    simp only [step] at hstep
    split at hstep
    · rename_i k op pos hstage hx
      cases hstep
      have h0 : s.effects x = 0 := (h.life x).running (by simp [hstage])
      have hk := (h.life x).via k (by simp [hstage, Stage.via])
      have h' : Inv cfg base { s with stage := Function.update s.stage x (.swap k op) } :=
        h.begun h0 (by simp [hx]) hk rfl
      exact ⟨h'.slots, h'.life, h'.tails, h'.lent⟩
    · simp at hstep
  | swap x => exact h.of_swap hstep
  | other a =>
    simp only [step] at hstep
    split at hstep
    · simp at hstep
    · rename_i o ho
      obtain ⟨ring, hring, rfl⟩ := Option.map_eq_some_iff.mp hstep
      exact h.of_ring_step hring hcare fun y hy => by rw [ho] at hy; cases hy
  | fill o p =>
    simp only [step] at hstep
    split at hstep
    · cases hstep
      exact ⟨h.slots, h.life, h.tails, h.lent⟩
    · simp at hstep
  | store n =>
    simp only [step, Option.some.injEq] at hstep
    subst hstep
    exact ⟨h.slots, h.life, h.tails.store n, h.lent⟩
  | read len discard =>
    obtain ⟨got, hgot, rfl⟩ := Option.map_eq_some_iff.mp hstep
    exact ⟨h.slots, h.life, h.tails.read hgot, h.lent⟩

theorem Inv.of_reach {m : Ring.Mem Unit 0} (hsize : Ring.validRingSize cfg.size = true)
    (hstart : Ring.StartsAt cfg.size base m) (h : (machine X K O cfg m).Reach Careful s) :
    Inv cfg base s := by
  refine h.invariant ?_ fun s a s' _ hI hcare hstep => hI.of_step hcare hstep
  exact
    { slots := ⟨_, Ring.Inv.start hsize hstart, rfl, fun x g hx => by cases hx⟩
      life := fun _ => Life.start
      tails := ⟨by simp [machine, Tails.held], by simp [machine, Tails.held]⟩
      lent := fun x b => by simp [machine] }

omit [DecidableEq O] in
theorem Inv.call_done (h : Inv cfg base s) {k : K}
    {op : Op} (h1 : s.effects x = 1) (hcare : Careful s (.call x k op))
    (hstep : call cfg s x k op = some s') : s' = s.logged x .invalidOp := by
  unfold call at hstep
  split at hstep
  · rename_i done g hstage hk hx
    have hchecks : (∀ b, g ≠ .tail b) → (done = true ∨ owned cfg s g = false) := fun hg =>
      (h.checks hx hg (hcare fun b hb => hg b (Option.some.inj (hx.symm.trans hb))) hk).mpr h1
    split at hstep
    · rw [if_pos (hchecks (by simp)), Option.some.injEq] at hstep
      exact hstep.symm
    · rw [if_pos (hchecks (by simp)), Option.some.injEq] at hstep
      exact hstep.symm
    · rw [if_pos (hchecks (by simp)), Option.some.injEq] at hstep
      exact hstep.symm
    · rename_i b
      have hdone : done = true := by
        by_contra hne
        exact ((h.life x).alone b hx).2.2 h1 k (by rw [hk]; simpa using hne)
      rw [if_pos hdone, Option.some.injEq] at hstep
      exact hstep.symm
    · simp at hstep
  · simp at hstep

omit [DecidableEq K] [DecidableEq X] [DecidableEq O] in
theorem Inv.buffer_done (h : Inv cfg base s)
    (h1 : s.effects x = 1) (hyoung : (∀ b, s.handle x ≠ some (.tail b)) → Young s x) (k : K) :
    buffer cfg s x k = false := by
  unfold buffer
  split
  · rename_i b hk hx
    exact absurd hk (((h.life x).alone b hx).2.2 h1 k)
  · rename_i g hnot hk hx
    have htail : ∀ b, g ≠ .tail b := by
      rintro b rfl
      exact hnot b rfl
    have hiff := h.owned_iff hx htail
      (hyoung fun b hb => htail b (Option.some.inj (hx.symm.trans hb)))
    by_contra hyes
    have := hiff.mp (by simpa using hyes)
    omega
  · rfl

/-- One call completes a reservation, the first one that returns. Later ones are refused and change
nothing. -/
theorem completed_once {m : Ring.Mem Unit 0} (hsize : Ring.validRingSize cfg.size = true)
    (hstart : Ring.StartsAt cfg.size base m) (h : (machine X K O cfg m).Reach Careful s) :
    (∀ x, s.log x = [] ∧ s.effects x = 0 ∨ ∃ o rest, s.log x = o :: rest ∧ o ≠ .invalidOp ∧
      (∀ o' ∈ rest, o' = .invalidOp) ∧ s.effects x = 1) ∧
    (∀ x k op s', s.effects x = 1 → Careful s (.call x k op) →
      step cfg s (.call x k op) = some s' → s' = s.logged x .invalidOp) ∧
    (∀ x pos, s.stage x ≠ .none → s.handle x = some (.producer pos) →
      ∃ e, s.ring.pc (.inl x) = .write e pos 0) ∧
    (∀ x k, s.effects x = 1 → ((∀ b, s.handle x ≠ some (.tail b)) → Young s x) →
      buffer cfg s x k = false) ∧
    (s.tails.free.map Buf.id).Nodup ∧
    ∀ b ∈ s.tails.free, b.id ∉ s.tails.queue.map (fun t => t.buf.id) ∧
      ∀ x b', s.handle x = some (.tail b') → s.effects x = 0 → b'.id ≠ b.id := by
  have hI := Inv.of_reach hsize hstart h
  obtain ⟨hnodup, hfree⟩ := hI.tails.free
  refine ⟨fun x => ?_, fun x k op s' h1 hcare hstep => hI.call_done h1 hcare hstep,
    fun x pos hst hx => ?_, fun x k h1 hyoung => hI.buffer_done h1 hyoung k, hnodup,
    fun b hb => ⟨(hfree b hb).1, fun x b' hx h0 heq => ?_⟩⟩
  · have hlife := hI.life x
    rcases Nat.eq_zero_or_pos (s.effects x) with h0 | hpos
    · exact Or.inl ⟨hlife.silent h0, h0⟩
    · have h1 : s.effects x = 1 := by have := hlife.once; omega
      obtain ⟨o, rest, hlog, ho, hrest⟩ := hlife.first h1
      exact Or.inr ⟨o, rest, hlog, ho, hrest, h1⟩
  · obtain ⟨σ, hslots⟩ := hI.slots
    exact (hslots.slots x _ hx).2.1 ((hI.life x).running hst)
  · refine (hfree b hb).2 (Multiset.mem_coe.mpr (List.mem_map.mpr ⟨(x, b'), ?_, heq⟩))
    exact (hI.lent x b').mpr ⟨hx, h0⟩

instance (s : State X K O) (x : X) : Decidable (Young s x) := inferInstanceAs (Decidable (_ < _))

instance (s : State X K O) : (a : Act X K O) → Decidable (Careful s a)
  | .copy x _ _ => match hx : s.handle x with
    | some (.tail b) => isFalse fun h => h b hx
    | some (.producer _) | some (.consumer _) | none => isTrue (by simp [Careful, hx])
  | .call x _ _ => match hx : s.handle x with
    | some (.tail b) => isTrue fun h => absurd hx (h b)
    | some (.producer _) | some (.consumer _) | none =>
      decidable_of_iff (Young s x) (by simp [Careful, hx])
  | .claim x _ => inferInstanceAs (Decidable (Ring.Awake s.ring (.inl x)))
  | .other a => inferInstanceAs (Decidable (Ring.StepAwake s.ring a))
  | .reserveWrite _ | .reserveRead _ | .giveUp _ | .takeTail _ _ | .write _ | .swap _ | .fill _ _
  | .store _ | .read _ _ => inferInstanceAs (Decidable True)

def small : Config := ⟨2, 8, 0⟩

def twoSlots : Ring.Mem Unit 0 := Ring.format () 2 ⟨0, 0, fun _ => 0, fun _ _ => ()⟩

theorem twoSlots_startsAt : Ring.StartsAt 2 0 twoSlots := by
  unfold twoSlots
  exact Ring.format_startsAt () _

/-- A write reservation is committed through one copy and aborted through the other. Another one
reads a tail. -/
def commitThenAbort : List (Act Bool Bool Unit) :=
  [.reserveWrite false, .claim false false, .claim false false, .claim false false,
    .copy false false true, .call false false (.commit 5), .write false, .swap false,
    .call false true (.abort 0), .store 3, .takeTail true false, .call true false .release,
    .call true false .release]

theorem completed_once_commit : ∃ s, (machine Bool Bool Unit small twoSlots).Reach Careful s ∧
    s.log false = [.ok, .invalidOp] ∧ s.log true = [.ok, .invalidOp] ∧ s.effects false = 1 ∧
    Young s false ∧ buffer small s false true = false ∧ (s.tails.free.map Buf.id).Nodup := by
  obtain ⟨s, hs, h1, h2, h3, h4⟩ : ∃ s, (machine Bool Bool Unit small twoSlots).Reach Careful s ∧
      s.log false = [.ok, .invalidOp] ∧ s.log true = [.ok, .invalidOp] ∧ s.effects false = 1 ∧
      Young s false :=
    Machine.exists_reach commitThenAbort (by decide +kernel)
  have h := completed_once (by decide) twoSlots_startsAt hs
  exact ⟨s, hs, h1, h2, h3, h4, h.2.2.2.1 false true h3 fun _ => h4, h.2.2.2.2.1⟩

/-- A tail is released through two copies. Both calls succeed, and its buffer is a spare twice. -/
theorem tail_released_twice : ∃ s, (machine Unit Bool Unit small twoSlots).Reachable s ∧
    s.log () = [.ok, .ok] ∧ s.effects () = 2 ∧ s.tails.free.map Buf.id = [0, 0] :=
  Machine.exists_reachable [.store 3, .takeTail () false, .copy () false true,
    .call () false .release, .call () true .release] (by decide +kernel)

end Hqq.Reserve
