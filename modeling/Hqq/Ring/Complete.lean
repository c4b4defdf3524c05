import Hqq.Ring.Preserved
import Mathlib.Data.List.Nodup

/-!
# Copying and completing keep the invariant of the ring

Each of these changes one slot, and `lap_inj` says that no other owner has that slot.
-/

namespace Hqq.Ring

variable {V Tid : Type} {width : Nat} {size : Word} {base : Nat} {s : State Tid V width}
  {σ : Nat → Nat}

theorem update_keep {j k x y : Nat} (h : σ j = x) (hne : j = k → σ k ≠ x) :
    Function.update σ k y j = x := by
  rcases eq_or_ne j k with rfl | hjk
  · exact absurd h (hne rfl)
  · rw [Function.update_of_ne hjk, h]

theorem slot_succ_ne (hsize : validRingSize size = true) (p : Nat) :
    p % size.toNat ≠ (p + 1) % size.toNat := by
  have hN := size_bounds hsize
  intro h
  have := mod_inj h (by omega) (by omega)
  omega

theorem nodup_append_one {l : List Nat} {n : Nat} (hl : l.Nodup) (hn : n ∉ l) : (l ++ [n]).Nodup := by
  rw [← List.concat_eq_append]
  exact List.Nodup.concat hn hl

theorem Inv.writer_ne (hi : Inv size base s σ) {t u : Tid} (hut : u ≠ t) {e e' : Elem V width}
    {pos pos' : Word} {i i' : Nat} (ht : s.pc t = .write e pos i) (hu : s.pc u = .write e' pos' i') :
    s.hist.loaded u ≠ s.hist.loaded t := by
  have h1 := hi.holds t
  have h2 := hi.holds u
  simp only [ht, hu, Holds] at h1 h2
  intro h
  have := h2.2.1
  rw [h, h1.2.1] at this
  simp only [Option.some.injEq, Prod.mk.injEq] at this
  exact hut this.1.symm

theorem Inv.reader_ne (hi : Inv size base s σ) {t u : Tid} (hut : u ≠ t) {pos pos' : Word}
    {got got' : List V} (ht : s.pc t = .read pos got) (hu : s.pc u = .read pos' got') :
    s.hist.loaded u ≠ s.hist.loaded t := by
  have h1 := hi.holds t
  have h2 := hi.holds u
  simp only [ht, hu, Holds] at h1 h2
  intro h
  have := h2.2.1
  rw [h, h1.2.1] at this
  simp only [Option.some.injEq, Prod.mk.injEq] at this
  exact hut this.1.symm

variable [DecidableEq Tid]

theorem Inv.store (hi : Inv size base s σ) {t : Tid}
    {e : Elem V width} {pos : Word} {i : Nat} (hpc : s.pc t = .write e pos i)
    (htime : OnTime s t) (hlt : i < width) :
    Inv size base
      { s.goto t (.write e pos (i + 1)) with
        mem := storeWord (slot size pos) ⟨i, hlt⟩ (e ⟨i, hlt⟩) s.mem } σ := by
  obtain ⟨hnP, hPn, -⟩ := hi.writer hpc htime
  have ht := hi.holds t
  simp only [hpc, Holds] at ht
  obtain ⟨hpos, hprod, hiw, hunp, hown⟩ := ht
  have hslot : slot size pos = (base + s.hist.loaded t) % size.toNat := by
    rw [hpos, slot_word hi.size_ok]
  rw [hslot]
  -- Another position of the last lap keeps its payload.
  have hdata : ∀ m, m < s.hist.produced.length → s.hist.produced.length ≤ m + size.toNat →
      m ≠ s.hist.loaded t →
      (storeWord ((base + s.hist.loaded t) % size.toNat) ⟨i, hlt⟩ (e ⟨i, hlt⟩) s.mem).data
        ((base + m) % size.toNat) = s.mem.data ((base + m) % size.toNat) := by
    intro m hm hm' hne
    exact Function.update_of_ne (fun h => hne (lap_inj hm hm' hnP hPn h)) _ _
  refine { hi with
    seq_eq := hi.seq_eq, filled := ?_, reading := fun n hn => hi.reading_goto (by simp [hpc]) hn
    holds := forall_goto ?_ fun u hut => ?_ }
  · intro n (hcn : s.hist.consumed.length ≤ n) hnp
    rcases hi.filled n hcn hnp with h | ⟨h, hrec | ⟨hpub, u, pos', e', hprod', hdata'⟩⟩
    · exact Or.inl h
    · exact Or.inr ⟨h, Or.inl hrec⟩
    · have hne : n ≠ s.hist.loaded t := by rintro rfl; exact hunp hpub
      refine Or.inr ⟨h, Or.inr ⟨hpub, u, pos', e', hprod', ?_⟩⟩
      have := hi.room
      exact (hdata n hnp (by omega) hne).trans hdata'
  · dsimp only [State.goto, Holds]
    refine ⟨hpos, hprod, hlt, hunp, fun hr => ?_⟩
    obtain ⟨h1, h2, h3⟩ := hown hr
    refine ⟨h1, h2, fun c hc => ?_⟩
    rcases eq_or_ne c ⟨i, hlt⟩ with rfl | hne
    · simp [storeWord]
    · have hci : c.val < i := by
        have : c.val ≠ i := fun h => hne (Fin.ext h)
        omega
      simp only [storeWord, Function.update_self, Function.update_of_ne hne]
      exact h3 c hci
  · have hu := hi.holds u
    cases hpcu : s.pc u with
    | idle | loadW | loadR => trivial
    | seqW | waitW | casW | seqR | waitR | casR => simpa only [hpcu, Holds, State.goto] using hu
    | write =>
      have hne := hi.writer_ne hut hpc hpcu
      simp only [hpcu, Holds, State.goto] at hu ⊢
      refine ⟨hu.1, hu.2.1, hu.2.2.1, hu.2.2.2.1, fun hr => ?_⟩
      obtain ⟨h1, h2, h3⟩ := hu.2.2.2.2 hr
      refine ⟨h1, h2, fun c hc => ?_⟩
      have := hi.room
      rw [hdata _ (lt_of_getElem? hu.2.1) (by omega) hne]
      exact h3 c hc
    | read =>
      simp only [hpcu, Holds, State.goto] at hu ⊢
      obtain ⟨h1, h2, h3, h4, h5, h6, h7⟩ := hu
      refine ⟨h1, h2, h3, h4, h5, h6, fun hr => ?_⟩
      obtain ⟨u', e', hprod', hdata', hgot⟩ := h7 hr
      have := lt_of_getElem? h2
      -- A reader of this position would mean that somebody else published it.
      have hne : s.hist.loaded u ≠ s.hist.loaded t := by
        intro h
        have := (hown (h ▸ hr)).1
        omega
      have := hi.le
      exact ⟨u', e', hprod', (hdata _ (by omega) h4 hne).trans hdata', hgot⟩

theorem take_ofFn_append (e : Elem V width) {got : List V} (hlt : got.length < width)
    (h : got = (List.ofFn e).take got.length) : got ++ [e ⟨got.length, hlt⟩] =
      (List.ofFn e).take (got ++ [e ⟨got.length, hlt⟩]).length := by
  rw [List.length_append, List.length_singleton, List.take_add_one, ← h]
  simp [hlt]

theorem Inv.fetch (hi : Inv size base s σ) {t : Tid}
    {pos : Word} {got : List V} (hpc : s.pc t = .read pos got) (hlt : got.length < width) :
    Inv size base
      (s.goto t (.read pos (got ++ [s.mem.data (slot size pos) ⟨got.length, hlt⟩]))) σ := by
  refine hi.goto (fun pos' got' h => ?_) ?_
  · rw [hpc] at h
    cases h
    exact ⟨_, rfl⟩
  · have ht := hi.holds t
    simp only [hpc, Holds] at ht ⊢
    obtain ⟨hpos, h2, h3, h4, h5, h6, h7⟩ := ht
    refine ⟨hpos, h2, h3, h4, h5, by simpa [Nat.succ_le_iff] using hlt, fun hr => ?_⟩
    obtain ⟨u, e, hprod, hdata, hgot⟩ := h7 hr
    refine ⟨u, e, hprod, hdata, ?_⟩
    rw [hpos, slot_word hi.size_ok, hdata]
    exact take_ofFn_append e hlt hgot

/-! ## The next sequence number -/

def Advances (size : Word) (σ σ' : Nat → Nat) : Prop :=
  ∀ j, σ j ≤ σ' j ∧ σ' j < σ j + size.toNat

theorem Advances.refl (hsize : validRingSize size = true) : Advances size σ σ := by
  have hN := size_bounds hsize
  exact fun j => ⟨le_refl _, by omega⟩

theorem Advances.update {k x : Nat} (hsize : validRingSize size = true) (h1 : σ k ≤ x)
    (h2 : x < σ k + size.toNat) : Advances size σ (Function.update σ k x) := by
  intro j
  rcases eq_or_ne j k with rfl | hne
  · rw [Function.update_self]
    exact ⟨h1, h2⟩
  · rw [Function.update_of_ne hne]
    exact Advances.refl hsize j

omit [DecidableEq Tid] in
theorem Inv.seq_update (hi : Inv size base s σ) {n : Nat}
    {pos : Word} (hpos : pos = word (base + n)) (x : Nat) :
    ∀ j < size.toNat, Function.update s.mem.seq (slot size pos) (word x) j =
      word (Function.update σ ((base + n) % size.toNat) x j) := by
  intro j hj
  rw [hpos, slot_word hi.size_ok]
  rcases eq_or_ne j ((base + n) % size.toNat) with rfl | hne
  · simp
  · simp [hne, hi.seq_eq j hj]

omit [DecidableEq Tid] in
theorem Inv.holds_ready (hi : Inv size base s σ) {m : Nat}
    (hmp : m < s.hist.produced.length) (hσ : σ ((base + m) % size.toNat) = base + m)
    {mem : Mem V width} {h : History Tid V width} (hdata : mem.data = s.mem.data)
    (hprod : h.produced = s.hist.produced) (hcons : h.consumed = s.hist.consumed)
    (hdel : h.delivered = s.hist.delivered) (hload : h.loaded = s.hist.loaded)
    (hrec : ∀ n ∈ s.hist.recovered, n ∈ h.recovered) {u : Tid}
    (hwriter : ∀ e pos i, s.pc u = .write e pos i →
      s.hist.loaded u ∉ h.published ∧ (s.hist.loaded u = m → m ∈ h.recovered)) :
    Holds size base (Function.update σ ((base + m) % size.toNat) (base + m + 1)) mem h u
      (s.pc u) := by
  have hu := hi.holds u
  cases hpcu : s.pc u with
  | idle | loadW | loadR => trivial
  | seqW | waitW | seqR | waitR =>
    simp only [hpcu, Holds, hprod, hcons, hload] at hu ⊢
    exact hu
  | casW =>
    simp only [hpcu, Holds, hprod, hload] at hu ⊢
    exact ⟨hu.1, hu.2.1, fun h => update_keep (hu.2.2 h) (by omega)⟩
  | casR =>
    simp only [hpcu, Holds, hcons, hload] at hu ⊢
    refine ⟨hu.1, hu.2.1, fun h => update_keep (hu.2.2 h) fun hs hx => ?_⟩
    refine slot_succ_ne hi.size_ok (base + s.hist.loaded u) ?_
    rw [hs, show base + s.hist.loaded u + 1 = base + m by omega]
  | write e pos i =>
    obtain ⟨hp, hr⟩ := hwriter _ _ _ hpcu
    simp only [hpcu, Holds, hdata, hprod, hcons, hload] at hu ⊢
    refine ⟨hu.1, hu.2.1, hu.2.2.1, hp, fun hr' => ?_⟩
    obtain ⟨h1, h2, h3⟩ := hu.2.2.2.2 (fun hx => hr' (hrec _ hx))
    have hne : s.hist.loaded u ≠ m := fun hx => hr' (hx ▸ hr hx)
    exact ⟨h1, update_keep h2 (by omega), h3⟩
  | read =>
    simp only [hpcu, Holds, hdata, hprod, hcons, hdel, hload] at hu ⊢
    obtain ⟨h1, h2, h3, h4, h5, h6, h7⟩ := hu
    refine ⟨h1, h2, update_keep h3 fun hs hx => ?_, h4, h5, h6, fun hr => h7 fun hx => hr (hrec _ hx)⟩
    refine slot_succ_ne hi.size_ok (base + s.hist.loaded u) ?_
    rw [hs, show base + s.hist.loaded u + 1 = base + m by omega]

omit [DecidableEq Tid] in
theorem Inv.ready (hi : Inv size base s σ) {m : Nat}
    (hcm : s.hist.consumed.length ≤ m) (hmp : m < s.hist.produced.length)
    (hσ : σ ((base + m) % size.toNat) = base + m) {s' : State Tid V width}
    (hmem : s'.mem = publish size (word (base + m)) s.mem)
    (hprod : s'.hist.produced = s.hist.produced) (hcons : s'.hist.consumed = s.hist.consumed)
    (hdel : s'.hist.delivered = s.hist.delivered) (hload : s'.hist.loaded = s.hist.loaded)
    (hpub : ∀ n ≠ m, (n ∈ s'.hist.published ↔ n ∈ s.hist.published))
    (hrec : ∀ n ≠ m, (n ∈ s'.hist.recovered ↔ n ∈ s.hist.recovered))
    (hready : m ∈ s'.hist.recovered ∨ m ∈ s'.hist.published ∧ ∃ u pos e,
      s.hist.produced[m]? = some (u, pos, e) ∧ s.mem.data ((base + m) % size.toNat) = e)
    (hpc : ∀ u, s'.pc u = s.pc u ∨ s'.pc u = .idle ∧ ∀ pos got, s.pc u ≠ .read pos got)
    (hwriter : ∀ u e pos i, s'.pc u = .write e pos i →
      s.hist.loaded u ∉ s'.hist.published ∧ (s.hist.loaded u = m → m ∈ s'.hist.recovered))
    (hok : s'.hist.Ok base) :
    Inv size base s' (Function.update σ ((base + m) % size.toNat) (base + m + 1)) := by
  have hN := size_bounds hi.size_ok
  have hroom := hi.room
  -- The window from the consumer cursor on meets the slot of `m` only at `m`.
  have hother : ∀ n, s.hist.consumed.length ≤ n → n < s.hist.consumed.length + size.toNat → n ≠ m →
      Function.update σ ((base + m) % size.toNat) (base + m + 1) ((base + n) % size.toNat) =
        σ ((base + n) % size.toNat) := by
    intro n h1 h2 hne
    refine Function.update_of_ne (fun h => hne ?_) _ _
    have := mod_inj h (by omega) (by omega)
    omega
  have hrec' : ∀ n ∈ s.hist.recovered, n ∈ s'.hist.recovered := by
    intro n hn
    have hne : n ≠ m := by
      rintro rfl
      rcases hi.filled n hcm hmp with ⟨-, -, h⟩ | ⟨h, -⟩
      · exact h hn
      · omega
    exact (hrec n hne).mpr hn
  refine ⟨hi.size_ok, ?_, ?_, ?_, ?_, ?_, ?_, ?_, ?_, ?_, hok⟩
  · rw [hmem]
    have := hi.seq_update (n := m) rfl (base + m + 1)
    simpa only [publish, word_succ] using this
  · rw [hmem, hprod]; exact hi.w_eq
  · rw [hmem, hcons]; exact hi.r_eq
  · rw [hprod, hcons]; exact hi.le
  · rw [hprod, hcons]; exact hi.room
  · rw [hprod, hcons]
    intro n hcn hnp
    rcases eq_or_ne n m with rfl | hne
    · right
      rw [Function.update_self, hmem]
      exact ⟨rfl, hready⟩
    · rw [hother n hcn (by omega) hne, hpub n hne, hrec n hne, hmem]
      exact hi.filled n hcn hnp
  · rw [hprod, hcons]
    intro n hpn hnr
    rw [hother n (by omega) hnr (by omega)]
    exact hi.free n hpn hnr
  · rw [hcons, hdel, hload]
    intro n hn
    rcases hi.reading n hn with h | ⟨u, pos, got, hu, hl⟩
    · exact Or.inl h
    · rcases hpc u with h | ⟨-, h⟩
      · exact Or.inr ⟨u, pos, got, h.trans hu, hl⟩
      · exact absurd hu (h _ _)
  · intro u
    rcases hpc u with h | ⟨h, -⟩
    · rw [h]
      exact hi.holds_ready hmp hσ (by rw [hmem]; rfl) hprod hcons hdel hload hrec'
        fun e pos i hw => hwriter u e pos i (h.trans hw)
    · rw [h]; trivial

omit [DecidableEq Tid] in
theorem History.Ok.publish {h : History Tid V width} (ok : h.Ok base) {n : Nat}
    (hlt : n < h.produced.length) (hn : n ∉ h.published) :
    ({ h with published := h.published ++ [n] } : History Tid V width).Ok base := by
  refine { ok with published_lt := ?_, published_nodup := ?_, consumed_after := ?_ }
  · intro m hm
    rcases mem_concat.mp hm with hm | rfl
    · exact ok.published_lt m hm
    · exact hlt
  · exact nodup_append_one ok.published_nodup hn
  · intro m hm
    exact (ok.consumed_after m hm).imp_left (List.mem_append_left _)

/-- A producer publishes the position it owns. If somebody did that before, and the position is
still unreleased, the store changes nothing. -/
theorem Inv.published (hi : Inv size base s σ) {t : Tid}
    {e : Elem V width} {pos : Word} (hpc : s.pc t = .write e pos width) (htime : OnTime s t) :
    ∃ σ', Advances size σ σ' ∧ Inv size base (s.published t (publish size pos s.mem)) σ' := by
  obtain ⟨hnP, hPn, hσrec⟩ := hi.writer hpc htime
  have ht := hi.holds t
  simp only [hpc, Holds] at ht
  obtain ⟨hpos, hprod, -, hunp, hown⟩ := ht
  have hwriter : ∀ u e' pos' i', (s.goto t .idle).pc u = .write e' pos' i' →
      s.hist.loaded u ≠ s.hist.loaded t ∧
        s.hist.loaded u ∉ s.hist.published ++ [s.hist.loaded t] := by
    intro u e' pos' i' hu
    have hut : u ≠ t := by rintro rfl; simp [State.goto] at hu
    replace hu : s.pc u = .write e' pos' i' := by simpa [State.goto, hut] using hu
    have hne := hi.writer_ne hut hpc hu
    have := hi.holds u
    simp only [hu, Holds] at this
    exact ⟨hne, by simp [hne, this.2.2.2.1]⟩
  have hpcs : ∀ u, (s.goto t .idle).pc u = s.pc u ∨
      (s.goto t .idle).pc u = .idle ∧ ∀ pos got, s.pc u ≠ .read pos got := by
    intro u
    rcases eq_or_ne u t with rfl | hut
    · exact Or.inr ⟨Function.update_self .., by simp [hpc]⟩
    · exact Or.inl (Function.update_of_ne hut ..)
  have hN := size_bounds hi.size_ok
  have hok := hi.hist.publish hnP hunp
  by_cases hr : s.hist.loaded t ∈ s.hist.recovered
  · refine ⟨σ, Advances.refl hi.size_ok, { hi with
      seq_eq := ?_, filled := ?_, reading := fun n hn => hi.reading_goto (by simp [hpc]) hn
      holds := forall_goto trivial fun u hut => ?_, hist := hok }⟩
    · have := hi.seq_update hpos (base + s.hist.loaded t + 1)
      rw [← hσrec hr, Function.update_eq_self, hσrec hr, ← word_succ, ← hpos] at this
      exact this
    · intro n hcn hnp
      rcases hi.filled n hcn hnp with ⟨h1, h2, h3⟩ | ⟨h1, h2⟩
      · refine Or.inl ⟨h1, fun h => ?_, h3⟩
        rcases mem_concat.mp h with h | rfl
        · exact h2 h
        · exact h3 hr
      · exact Or.inr ⟨h1, h2.imp_right (And.imp_left (List.mem_append_left _))⟩
    · have hu := hi.holds u
      cases hpcu : s.pc u with
      | idle | loadW | loadR => trivial
      | seqW | waitW | casW | seqR | waitR | casR | read => rw [hpcu] at hu; exact hu
      | write =>
        have hw := hwriter u _ _ _ ((Function.update_of_ne hut ..).trans hpcu)
        simp only [hpcu, Holds] at hu ⊢
        exact ⟨hu.1, hu.2.1, hu.2.2.1, hw.2, hu.2.2.2.2⟩
  · obtain ⟨hcn, hσ, hdata⟩ := hown hr
    refine ⟨_, Advances.update hi.size_ok (by omega) (by omega),
      hi.ready hcn hnP hσ (by rw [← hpos]; rfl) rfl rfl rfl rfl ?_ (fun _ _ => Iff.rfl) ?_ hpcs ?_ hok⟩
    · intro n hne
      simp [State.published, hne]
    · refine Or.inr ⟨by simp [State.published], t, pos, e, hprod, funext fun c => hdata c c.isLt⟩
    · intro u e' pos' i' hu
      obtain ⟨h1, h2⟩ := hwriter u e' pos' i' hu
      exact ⟨h2, fun h => absurd h h1⟩

omit [DecidableEq Tid] in
theorem Inv.recovered (hi : Inv size base s σ) {m : Nat}
    (hcm : s.hist.consumed.length ≤ m) (hmp : m < s.hist.produced.length)
    (hσ : σ ((base + m) % size.toNat) = base + m) :
    ∃ σ', Advances size σ σ' ∧ Inv size base
      { s with
        mem := publish size (word (base + m)) s.mem
        hist := { s.hist with recovered := s.hist.recovered ++ [m] } } σ' := by
  have hN := size_bounds hi.size_ok
  refine ⟨_, Advances.update hi.size_ok (by omega) (by omega),
    hi.ready hcm hmp hσ rfl rfl rfl rfl rfl (fun _ _ => Iff.rfl) ?_ ?_ ?_ ?_ ?_⟩
  · intro n hne
    simp [hne]
  · exact Or.inl (by simp)
  · exact fun u => Or.inl rfl
  · intro u e pos i hu
    have := hi.holds u
    simp only [show s.pc u = .write e pos i from hu, Holds] at this
    exact ⟨this.2.2.2.1, by simp⟩
  · refine { hi.hist with recovered_lt := ?_, consumed_after := ?_, delivered_eq := ?_ }
    · intro n hn
      rcases mem_concat.mp hn with hn | rfl
      · exact hi.hist.recovered_lt n hn
      · exact hmp
    · intro n hn
      exact (hi.hist.consumed_after n hn).imp_right (List.mem_append_left _)
    · intro d hd hr
      exact hi.hist.delivered_eq d hd fun h => hr (List.mem_append_left _ h)

theorem Inv.released (hi : Inv size base s σ) {t : Tid}
    {pos : Word} {got : List V} (hpc : s.pc t = .read pos got) (hgot : got.length = width) :
    ∃ σ', Advances size σ σ' ∧ Inv size base (s.released t got (release size pos s.mem)) σ' := by
  have hN := size_bounds hi.size_ok
  have ht := hi.holds t
  simp only [hpc, Holds] at ht
  obtain ⟨hpos, hcons, hσ, hPn, hnd, -, hdata⟩ := ht
  have hnR := lt_of_getElem? hcons
  have hroom := hi.room
  have hle := hi.le
  set n := s.hist.loaded t with hn
  refine ⟨Function.update σ ((base + n) % size.toNat) (base + n + size.toNat),
    Advances.update hi.size_ok (by omega) (by omega), { hi with
      seq_eq := ?_, filled := ?_, free := ?_, reading := ?_
      holds := forall_goto trivial fun u hut => ?_, hist := ?_ }⟩
  · have hseq : pos + (size - 1) + 1 = word (base + n + size.toNat) := by
      rw [← word_add, ← hpos, word_toNat_self, BitVec.add_assoc, BitVec.sub_add_cancel]
    have := hi.seq_update hpos (base + n + size.toNat)
    rw [← hseq] at this
    exact this
  · intro m hcm hmp
    replace hcm : s.hist.consumed.length ≤ m := hcm
    replace hmp : m < s.hist.produced.length := hmp
    have hslot : (base + m) % size.toNat ≠ (base + n) % size.toNat := by
      intro h
      have := mod_inj h (by omega) (by omega)
      omega
    rw [Function.update_of_ne hslot]
    exact hi.filled m hcm hmp
  · intro m hpm hmr
    replace hpm : s.hist.produced.length ≤ m := hpm
    replace hmr : m < s.hist.consumed.length + size.toNat := hmr
    have := hi.free m hpm hmr
    rcases eq_or_ne ((base + m) % size.toNat) ((base + n) % size.toNat) with h | h
    · rw [h, hσ] at this
      rw [h, Function.update_self]
      rcases this with h' | h'
      · exact absurd (by rw [h', h]) (slot_succ_ne hi.size_ok (base + n))
      · exact Or.inl (by omega)
    · rwa [Function.update_of_ne h]
  · intro m hm
    replace hm : m < s.hist.consumed.length := hm
    rcases eq_or_ne m n with rfl | hne
    · exact Or.inl (by simp [State.released, n])
    · rcases hi.reading m hm with h | ⟨u, pos', got', hu, hl⟩
      · left
        simp only [State.released, List.map_append, List.mem_append]
        exact Or.inl h
      · have hut : u ≠ t := by rintro rfl; exact hne hl.symm
        exact Or.inr ⟨u, pos', got', by simp [State.released, State.goto, hut, hu], hl⟩
  · have hu := hi.holds u
    cases hpcu : s.pc u with
    | idle | loadW | loadR => trivial
    | seqW | waitW | seqR | waitR => simpa only [hpcu, Holds, State.released] using hu
    | casW =>
      simp only [hpcu, Holds, State.released] at hu ⊢
      refine ⟨hu.1, hu.2.1, fun h => update_keep (hu.2.2 h) fun hs hx => ?_⟩
      exact slot_succ_ne hi.size_ok (base + n) (by rw [← hs, ← hx, hσ])
    | casR =>
      simp only [hpcu, Holds, State.released] at hu ⊢
      exact ⟨hu.1, hu.2.1, fun h => update_keep (hu.2.2 h) (by omega)⟩
    | write =>
      simp only [hpcu, Holds, State.released] at hu ⊢
      refine ⟨hu.1, hu.2.1, hu.2.2.1, hu.2.2.2.1, fun hr => ?_⟩
      obtain ⟨h1, h2, h3⟩ := hu.2.2.2.2 hr
      refine ⟨h1, update_keep h2 fun hs hx => ?_, h3⟩
      exact slot_succ_ne hi.size_ok (base + n) (by rw [← hs, ← hx, hσ])
    | read =>
      have hne := hi.reader_ne hut hpc hpcu
      simp only [hpcu, Holds, State.released] at hu ⊢
      obtain ⟨h1, h2, h3, h4, h5, h6⟩ := hu
      refine ⟨h1, h2, update_keep h3 (by omega), h4, fun h => ?_, h6⟩
      rw [List.map_append] at h
      exact (mem_concat.mp h).elim h5 hne
  · refine { hi.hist with delivered_lt := ?_, delivered_nodup := ?_, delivered_eq := ?_ }
    · intro d hd
      rcases mem_concat.mp hd with hd | rfl
      · exact hi.hist.delivered_lt d hd
      · exact hnR
    · simp only [State.released, List.map_append, List.map_cons, List.map_nil]
      exact nodup_append_one hi.hist.delivered_nodup hnd
    · intro d hd hr
      rcases mem_concat.mp hd with hd | rfl
      · exact hi.hist.delivered_eq d hd hr
      · obtain ⟨u, e, hprod, -, hgot'⟩ := hdata hr
        refine ⟨u, pos, e, hprod, ?_⟩
        change got = _
        rw [hgot', hgot, List.take_of_length_le (by simp)]

end Hqq.Ring
