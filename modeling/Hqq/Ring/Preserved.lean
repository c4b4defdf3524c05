import Hqq.Ring.Invariant

/-!
# Each step keeps the invariant of the ring

One lemma per kind of step. Only six kinds change memory or the history.
-/

namespace Hqq.Ring

variable {V Tid : Type} {width : Nat} {size : Word} {base : Nat} {s : State Tid V width}
  {σ : Nat → Nat}

theorem lap_inj {P m n N : Nat} (hm : m < P) (hm' : P ≤ m + N) (hn : n < P) (hn' : P ≤ n + N)
    (h : (base + m) % N = (base + n) % N) : m = n := by
  have := mod_inj h (by omega) (by omega)
  omega

theorem lt_of_getElem? {α : Type} {l : List α} {n : Nat} {x : α} (h : l[n]? = some x) :
    n < l.length := (List.getElem?_eq_some_iff.mp h).1

theorem Inv.near (hi : Inv size base s σ) (n : Nat) :
    σ ((base + n) % size.toNat) ≤ base + s.hist.consumed.length + size.toNat ∧
    base + s.hist.consumed.length + 1 ≤ σ ((base + n) % size.toNat) + size.toNat := by
  have hN := size_bounds hi.size_ok
  obtain ⟨m, hm1, hm2, hm⟩ := exists_window (by omega : 0 < size.toNat) base s.hist.consumed.length n
  rw [← hm]
  rcases Nat.lt_or_ge m s.hist.produced.length with hp | hp
  · rcases hi.filled m hm1 hp with ⟨h, -⟩ | ⟨h, -⟩ <;> omega
  · rcases hi.free m hp hm2 with h | h <;> omega

theorem Inv.passed (hi : Inv size base s σ) {n : Nat}
    (hn : n < s.hist.consumed.length) : base + n < σ ((base + n) % size.toNat) := by
  have hN := size_bounds hi.size_ok
  obtain ⟨m, hm1, hm2, hm⟩ := exists_window (by omega : 0 < size.toNat) base s.hist.consumed.length n
  -- The window has another position of this slot, at least one lap later.
  have hlap : n + size.toNat ≤ m := by
    by_contra hlt
    have := mod_inj hm (by omega) (by omega)
    omega
  rw [← hm]
  rcases Nat.lt_or_ge m s.hist.produced.length with hp | hp
  · rcases hi.filled m hm1 hp with ⟨h, -⟩ | ⟨h, -⟩ <;> omega
  · rcases hi.free m hp hm2 with h | h <;> omega

theorem Inv.slot_seq (hi : Inv size base s σ) (n : Nat) :
    s.mem.seq (slot size (word (base + n))) = word (σ ((base + n) % size.toNat)) := by
  have hN := size_bounds hi.size_ok
  rw [slot_word hi.size_ok, hi.seq_eq _ (Nat.mod_lt _ (by omega))]

variable [DecidableEq Tid]

theorem forall_goto {P : Tid → Pc V width → Prop} {t : Tid} {pc : Pc V width} (ht : P t pc)
    (hother : ∀ u, u ≠ t → P u (s.pc u)) (u : Tid) : P u ((s.goto t pc).pc u) := by
  rcases eq_or_ne u t with rfl | hut
  · simpa [State.goto] using ht
  · simpa [State.goto, hut] using hother u hut

theorem Inv.reading_goto (hi : Inv size base s σ) {t : Tid} {pc : Pc V width}
    (hread : ∀ pos got, s.pc t ≠ .read pos got) {n : Nat} (hn : n < s.hist.consumed.length) :
    n ∈ s.hist.delivered.map Prod.fst ∨
      ∃ u pos got, (s.goto t pc).pc u = .read pos got ∧ s.hist.loaded u = n := by
  rcases hi.reading n hn with h | ⟨u, pos, got, hu, hl⟩
  · exact Or.inl h
  · have hut : u ≠ t := by rintro rfl; exact hread _ _ hu
    exact Or.inr ⟨u, pos, got, by simp [State.goto, hut, hu], hl⟩

theorem Inv.goto (hi : Inv size base s σ) {t : Tid} {pc : Pc V width}
    (hread : ∀ pos got, s.pc t = .read pos got → ∃ got', pc = .read pos got')
    (hpc : Holds size base σ s.mem s.hist t pc) : Inv size base (s.goto t pc) σ := by
  refine { hi with reading := fun n hn => ?_, holds := forall_goto hpc fun u _ => hi.holds u }
  rcases hi.reading n hn with h | ⟨u, pos, got, hu, hl⟩
  · exact Or.inl h
  · right
    by_cases hut : u = t
    · subst hut
      obtain ⟨got', rfl⟩ := hread pos got hu
      exact ⟨u, pos, got', by simp [State.goto], hl⟩
    · exact ⟨u, pos, got, by simp [State.goto, hut, hu], hl⟩

theorem holds_load_of_ne {m : Mem V width} {h : History Tid V width} {t u : Tid} (hut : u ≠ t)
    (n : Nat) (pc : Pc V width) :
    Holds size base σ m (h.load t n) u pc ↔ Holds size base σ m h u pc := by
  have : (h.load t n).loaded u = h.loaded u := by simp [History.load, hut]
  cases pc <;> simp only [Holds, this] <;> rfl

theorem History.Ok.load {h : History Tid V width} (ok : h.Ok base) (t : Tid) (n : Nat) :
    (h.load t n).Ok base :=
  ⟨ok.produced_pos, ok.consumed_pos, ok.published_lt, ok.published_nodup, ok.recovered_lt,
    ok.consumed_after, ok.delivered_lt, ok.delivered_nodup, ok.delivered_eq⟩

theorem Inv.load (hi : Inv size base s σ) {t : Tid} {pc : Pc V width} {n : Nat}
    (hread : ∀ pos got, s.pc t ≠ .read pos got)
    (hpc : Holds size base σ s.mem (s.hist.load t n) t pc) :
    Inv size base { s.goto t pc with hist := s.hist.load t n } σ := by
  refine { hi with
    reading := fun m hm => ?_
    holds := forall_goto hpc fun u hut => (holds_load_of_ne hut n _).mpr (hi.holds u)
    hist := hi.hist.load t n }
  rcases hi.reading m hm with h | ⟨u, pos, got, hu, hl⟩
  · exact Or.inl h
  · have hut : u ≠ t := by rintro rfl; exact hread _ _ hu
    exact Or.inr ⟨u, pos, got, by simp [State.goto, hut, hu], by simp [History.load, hut, hl]⟩

omit [DecidableEq Tid] in
theorem History.Ok.produce {h : History Tid V width} (ok : h.Ok base) (t : Tid) (e : Elem V width) :
    ({ h with produced := h.produced ++ [(t, word (base + h.produced.length), e)] } :
      History Tid V width).Ok base := by
  refine { ok with produced_pos := ?_, published_lt := ?_, recovered_lt := ?_, delivered_eq := ?_ }
  · intro n t' pos' e' hnew
    rcases getElem?_concat_eq_some.mp hnew with hold | ⟨rfl, heq⟩
    · exact ok.produced_pos _ _ _ _ hold
    · cases heq; rfl
  · intro n h
    have := ok.published_lt n h
    rw [List.length_append]; omega
  · intro n h
    have := ok.recovered_lt n h
    rw [List.length_append]; omega
  · intro d hd hr
    obtain ⟨u, pos', e', hprod, heq⟩ := ok.delivered_eq d hd hr
    exact ⟨u, pos', e', getElem?_append_of_eq_some hprod _, heq⟩

omit [DecidableEq Tid] in
theorem History.Ok.consume {h : History Tid V width} (ok : h.Ok base) (t : Tid)
    (hready : h.consumed.length ∈ h.published ∨ h.consumed.length ∈ h.recovered) :
    ({ h with consumed := h.consumed ++ [(t, word (base + h.consumed.length))] } :
      History Tid V width).Ok base := by
  refine { ok with consumed_pos := ?_, consumed_after := ?_, delivered_lt := ?_ }
  · intro n t' pos' hnew
    rcases getElem?_concat_eq_some.mp hnew with hold | ⟨rfl, heq⟩
    · exact ok.consumed_pos _ _ _ hold
    · cases heq; rfl
  · intro n hn
    rw [List.length_append, List.length_singleton] at hn
    rcases Nat.lt_succ_iff_lt_or_eq.mp hn with hn | rfl
    · exact ok.consumed_after n hn
    · exact hready
  · intro d hd
    have := ok.delivered_lt d hd
    rw [List.length_append]; omega

theorem Inv.claimW (hi : Inv size base s σ) {t : Tid}
    {slow : Bool} {e : Elem V width} {pos : Word} (hpc : s.pc t = .casW slow e pos)
    (hn : s.hist.loaded t = s.hist.produced.length) :
    Inv size base
      { s.goto t (.write e pos 0) with
        mem := { s.mem with w := pos + 1 }
        hist := { s.hist with produced := s.hist.produced ++ [(t, pos, e)] } } σ := by
  have hN := size_bounds hi.size_ok
  have ht := hi.holds t
  simp only [hpc, Holds] at ht
  obtain ⟨hpos, -, hfree⟩ := ht
  have hσ := hfree hn
  rw [hn] at hpos hσ
  -- A full ring has an unreleased element in this slot, so the slot would not be free.
  have hroom : s.hist.produced.length < s.hist.consumed.length + size.toNat := by
    by_contra hfull
    have hR : s.hist.produced.length = s.hist.consumed.length + size.toNat := by
      have := hi.room; omega
    have hmod : (base + s.hist.produced.length) % size.toNat =
        (base + s.hist.consumed.length) % size.toNat := by
      rw [hR, ← Nat.add_assoc, Nat.add_mod_right]
    rw [hmod] at hσ
    rcases hi.filled _ (le_refl _) (by omega) with ⟨h, -⟩ | ⟨h, -⟩ <;> omega
  have hlen : (s.hist.produced ++ [(t, pos, e)]).length = s.hist.produced.length + 1 := by simp
  refine { hi with
    w_eq := ?_, le := ?_, room := ?_, filled := ?_, free := ?_
    reading := fun n hn => hi.reading_goto (by simp [hpc]) hn
    holds := forall_goto ?_ fun u hut => ?_
    hist := hpos ▸ hi.hist.produce t e }
  · change pos + 1 = word (base + (s.hist.produced ++ [(t, pos, e)]).length)
    rw [hlen, hpos, word_succ, Nat.add_assoc]
  · have := hi.le
    simp only [hlen]; omega
  · simp only [hlen]; omega
  · intro n hcn hnp
    simp only [hlen] at hnp
    rcases Nat.lt_or_ge n s.hist.produced.length with hlt | hge
    · rcases hi.filled n hcn hlt with h | ⟨h, hrec | ⟨hpub, u, pos', e', hprod, hdata⟩⟩
      · exact Or.inl h
      · exact Or.inr ⟨h, Or.inl hrec⟩
      · exact Or.inr ⟨h, Or.inr ⟨hpub, u, pos', e', getElem?_append_of_eq_some hprod _, hdata⟩⟩
    · obtain rfl : n = s.hist.produced.length := by omega
      refine Or.inl ⟨hσ, fun h => ?_, fun h => ?_⟩
      · exact absurd (hi.hist.published_lt _ h) (lt_irrefl _)
      · exact absurd (hi.hist.recovered_lt _ h) (lt_irrefl _)
  · intro n hpn hnr
    simp only [hlen] at hpn
    exact hi.free n (by omega) hnr
  · simp only [Holds, hn]
    refine ⟨hpos, by simp, Nat.zero_le _, fun h => ?_, fun _ => ⟨hi.le, hσ, by simp⟩⟩
    exact absurd (hi.hist.published_lt _ h) (lt_irrefl _)
  · have hu := hi.holds u
    cases hpcu : s.pc u with
    | idle | loadW | loadR => trivial
    | seqW | waitW =>
      simp only [hpcu, Holds, hlen] at hu ⊢
      exact ⟨hu.1, by omega⟩
    | casW =>
      simp only [hpcu, Holds, hlen] at hu ⊢
      exact ⟨hu.1, by omega, fun h => by omega⟩
    | write =>
      simp only [hpcu, Holds] at hu ⊢
      exact ⟨hu.1, getElem?_append_of_eq_some hu.2.1 _, hu.2.2⟩
    | seqR | waitR | casR => simpa only [hpcu, Holds] using hu
    | read =>
      simp only [hpcu, Holds, hlen] at hu ⊢
      obtain ⟨h1, h2, h3, h4, h5, h6, h7⟩ := hu
      refine ⟨h1, h2, h3, ?_, h5, h6, fun hr => ?_⟩
      · -- The reader of the lap before would still hold this slot.
        by_contra hcon
        have hP : s.hist.produced.length = s.hist.loaded u + size.toNat := by omega
        rw [hP, ← Nat.add_assoc, Nat.add_mod_right] at hσ
        omega
      · obtain ⟨u', e', hprod, hdata⟩ := h7 hr
        exact ⟨u', e', getElem?_append_of_eq_some hprod _, hdata⟩

theorem Inv.claimR (hi : Inv size base s σ) {t : Tid}
    {slow : Bool} {pos : Word} (hpc : s.pc t = .casR slow pos)
    (hn : s.hist.loaded t = s.hist.consumed.length) :
    Inv size base
      { s.goto t (.read pos []) with
        mem := { s.mem with r := pos + 1 }
        hist := { s.hist with consumed := s.hist.consumed ++ [(t, pos)] } } σ := by
  have hN := size_bounds hi.size_ok
  have ht := hi.holds t
  simp only [hpc, Holds] at ht
  obtain ⟨hpos, -, hpub⟩ := ht
  have hσ := hpub hn
  rw [hn] at hpos hσ
  -- An empty ring has a free slot here, and a free slot does not look published.
  have hlt : s.hist.consumed.length < s.hist.produced.length := by
    by_contra hempty
    rcases hi.free s.hist.consumed.length (by omega) (by omega) with h | h <;> omega
  have hready : s.hist.consumed.length ∈ s.hist.recovered ∨
      s.hist.consumed.length ∈ s.hist.published ∧ ∃ u pos' e,
        s.hist.produced[s.hist.consumed.length]? = some (u, pos', e) ∧
        s.mem.data ((base + s.hist.consumed.length) % size.toNat) = e := by
    rcases hi.filled _ (le_refl _) hlt with ⟨h, -⟩ | ⟨-, h⟩
    · omega
    · exact h
  have hlen : (s.hist.consumed ++ [(t, pos)]).length = s.hist.consumed.length + 1 := by simp
  refine { hi with
    r_eq := ?_, le := ?_, room := ?_, filled := ?_, free := ?_, reading := ?_
    holds := forall_goto ?_ fun u hut => ?_
    hist := hpos ▸ hi.hist.consume t (hready.symm.imp_left And.left) }
  · change pos + 1 = word (base + (s.hist.consumed ++ [(t, pos)]).length)
    rw [hlen, hpos, word_succ, Nat.add_assoc]
  · simp only [hlen]; omega
  · have := hi.room
    simp only [hlen]; omega
  · intro n hcn hnp
    simp only [hlen] at hcn
    exact hi.filled n (by omega) hnp
  · intro n hpn hnr
    simp only [hlen] at hnr
    rcases Nat.lt_or_ge n (s.hist.consumed.length + size.toNat) with h | h
    · exact hi.free n hpn h
    · obtain rfl : n = s.hist.consumed.length + size.toNat := by omega
      right
      rw [← Nat.add_assoc, Nat.add_mod_right, hσ]
      omega
  · intro n hcn
    simp only [hlen] at hcn
    rcases Nat.lt_or_ge n s.hist.consumed.length with h | h
    · exact hi.reading_goto (by simp [hpc]) h
    · exact Or.inr ⟨t, pos, [], by simp [State.goto], by simp only [hn]; omega⟩
  · simp only [Holds, hn]
    refine ⟨hpos, by simp, hσ, hi.room, fun h => ?_, Nat.zero_le _, fun hr => ?_⟩
    · obtain ⟨d, hd, hd1⟩ := List.mem_map.mp h
      have := hi.hist.delivered_lt d hd
      omega
    · obtain ⟨-, u', pos', e, hprod, hdata⟩ := hready.resolve_left hr
      have hp := hi.hist.produced_pos _ _ _ _ hprod
      rw [← hpos] at hp
      subst hp
      exact ⟨u', e, hprod, hdata, by simp⟩
  · have hu := hi.holds u
    cases hpcu : s.pc u with
    | idle | loadW | loadR => trivial
    | seqW | waitW | casW => simpa only [hpcu, Holds] using hu
    | write =>
      simp only [hpcu, Holds, hlen] at hu ⊢
      obtain ⟨h1, h2, h3, h4, h5⟩ := hu
      refine ⟨h1, h2, h3, h4, fun hr => ?_⟩
      obtain ⟨h6, h7, h8⟩ := h5 hr
      -- Its position is not the claimed one, which is published.
      have hne : s.hist.loaded u ≠ s.hist.consumed.length := by
        intro h; rw [h, hσ] at h7; omega
      exact ⟨by omega, h7, h8⟩
    | seqR | waitR =>
      simp only [hpcu, Holds, hlen] at hu ⊢
      exact ⟨hu.1, by omega⟩
    | casR =>
      simp only [hpcu, Holds, hlen] at hu ⊢
      exact ⟨hu.1, by omega, fun h => by omega⟩
    | read =>
      simp only [hpcu, Holds] at hu ⊢
      exact ⟨hu.1, getElem?_append_of_eq_some hu.2.1 _, hu.2.2⟩

/-! ## The owner of a slot -/

def Pc.stores : Pc V width → Bool
  | .write _ _ _ => true
  | _ => false

/-- If `t` stores a payload, its slot is not released yet. A producer whose position was published
for it can come too late. -/
def OnTime (s : State Tid V width) (t : Tid) : Prop :=
  (s.pc t).stores = true → s.hist.loaded t ∈ s.hist.recovered →
    s.hist.loaded t ∉ s.hist.delivered.map Prod.fst

instance (s : State Tid V width) (t : Tid) : Decidable (OnTime s t) :=
  inferInstanceAs (Decidable (_ → _ → ¬ _))

omit [DecidableEq Tid] in
theorem Inv.writer (hi : Inv size base s σ) {t : Tid} {e : Elem V width} {pos : Word} {i : Nat}
    (hpc : s.pc t = .write e pos i) (htime : OnTime s t) :
    s.hist.loaded t < s.hist.produced.length ∧
    s.hist.produced.length ≤ s.hist.loaded t + size.toNat ∧
    (s.hist.loaded t ∈ s.hist.recovered →
      σ ((base + s.hist.loaded t) % size.toNat) = base + s.hist.loaded t + 1) := by
  have ht := hi.holds t
  simp only [hpc, Holds] at ht
  replace htime := htime (by rw [hpc]; rfl)
  obtain ⟨-, hprod, -, -, hown⟩ := ht
  have hlt := lt_of_getElem? hprod
  have hroom := hi.room
  rcases Nat.lt_or_ge (s.hist.loaded t) s.hist.consumed.length with hc | hc
  · -- Claimed by a consumer, so it was recovered, and the consumer still reads it.
    have hrec : s.hist.loaded t ∈ s.hist.recovered := by
      by_contra hr
      have := (hown hr).1
      omega
    obtain ⟨u, pos', got, hu, hl⟩ := (hi.reading _ hc).resolve_left (htime hrec)
    have hr := hi.holds u
    simp only [hu, Holds, hl] at hr
    exact ⟨hlt, hr.2.2.2.1, fun _ => hr.2.2.1⟩
  · refine ⟨hlt, by omega, fun hrec => ?_⟩
    rcases hi.filled _ hc hlt with ⟨-, -, h⟩ | ⟨h, -⟩
    · exact absurd hrec h
    · exact h

end Hqq.Ring
