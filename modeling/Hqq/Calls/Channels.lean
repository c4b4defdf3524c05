import Hqq.Calls.Spec
import Mathlib.Data.List.Count

/-!
# Who may use a channel

A channel has one of six roles, and goes back to the pool only from the role in which nothing
is left that could send on it.
-/

namespace Hqq.Calls

variable {ι ν : Type}

def Phase.holds : Phase ι ν → Option Nat
  | .got ch | .sending ch | .waiting ch | .unregistering ch _ | .putting ch _
  | .abandoning ch _ _ => some ch
  | .absent | .canceling _ | .returned _ => none

def Phase.registered : Phase ι ν → Option Nat
  | .sending ch | .waiting ch | .unregistering ch _ | .abandoning ch _ _ => some ch
  | .absent | .got _ | .putting _ _ | .canceling _ | .returned _ => none

/-- What is outstanding on a channel: its content, its entry, the response on its way, and how
often it is in the pool. -/
structure At (s : Process ι ν) (ch : Nat) (x : Option (Result ι ν)) (entry : Option (CallKey × ι))
    (flyer : Option (ν × ι)) (pooled : Nat) : Prop where
  content : s.chans ch = x
  entries : ∀ k c, s.pendingCalls k = some (ch, c) ↔ entry = some (k, c)
  flyers : ∀ n c, s.responses n = .flying ch c ↔ flyer = some (n, c)
  count : s.pendingPool.count ch = pooled

def Holds (s : Process ι ν) (ch : Nat) (c : ι) : Prop := (s.calls c).holds = some ch

section Role

variable (key : ι → CallKey) (hdr : ν → CallKey)

inductive Role (s : Process ι ν) (ch : Nat) : Prop
  | unmade (new : s.made ≤ ch) (at_ : At s ch none none none 0) (free : ∀ c, ¬ Holds s ch c)
  | pooled (old : ch < s.made) (at_ : At s ch none none none 1) (free : ∀ c, ¬ Holds s ch c)
  | quiet (old : ch < s.made) (at_ : At s ch none none none 0)
      (one : ∀ c d, Holds s ch c → Holds s ch d → c = d)
  | registered (k : CallKey) (c : ι) (old : ch < s.made) (at_ : At s ch none (some (k, c)) none 0)
      (own : key c = k) (phase : (s.calls c).registered = some ch)
      (one : ∀ d, Holds s ch d → d = c)
  | flying (n : ν) (c : ι) (old : ch < s.made) (at_ : At s ch none none (some (n, c)) 0)
      (own : hdr n = key c)
      (one : ∀ d, Holds s ch d → d = c ∧ (s.calls d).registered = some ch)
  | full (r : Result ι ν) (old : ch < s.made) (at_ : At s ch (some r) none none 0)
      (one : ∀ d, Holds s ch d → d = r.dest ∧ (s.calls d).registered = some ch)

end Role

variable {key : ι → CallKey} {hdr : ν → CallKey} {s s' : Process ι ν} {ch : Nat} {c : ι}

structure Same (s s' : Process ι ν) (ch : Nat) : Prop where
  chans : s'.chans ch = s.chans ch
  entries : ∀ k c, s'.pendingCalls k = some (ch, c) ↔ s.pendingCalls k = some (ch, c)
  flyers : ∀ n c, s'.responses n = .flying ch c ↔ s.responses n = .flying ch c
  count : s'.pendingPool.count ch = s.pendingPool.count ch
  calls : ∀ c, ((s'.calls c).holds = some ch ↔ (s.calls c).holds = some ch) ∧
    ((s'.calls c).registered = some ch ↔ (s.calls c).registered = some ch)
  made : s'.made ≤ ch ↔ s.made ≤ ch

theorem Same.refl (s : Process ι ν) (ch : Nat) : Same s s ch :=
  ⟨rfl, fun _ _ => .rfl, fun _ _ => .rfl, rfl, fun _ => ⟨.rfl, .rfl⟩, .rfl⟩

theorem Same.at {x : Option (Result ι ν)} {entry : Option (CallKey × ι)} {flyer : Option (ν × ι)}
    {pooled : Nat} (h : Same s s' ch) (ha : At s ch x entry flyer pooled) :
    At s' ch x entry flyer pooled where
  content := h.chans.trans ha.content
  entries k c := (h.entries k c).trans (ha.entries k c)
  flyers n c := (h.flyers n c).trans (ha.flyers n c)
  count := h.count.trans ha.count

theorem Role.same (hr : Role key hdr s ch) (h : Same s s' ch) : Role key hdr s' ch := by
  have hold : ∀ d, Holds s' ch d → Holds s ch d := fun d => (h.calls d).1.mp
  have hmade : ch < s.made → ch < s'.made := fun hlt => by
    have := h.made
    omega
  have hown : ∀ {d e}, (Holds s ch d → d = e ∧ (s.calls d).registered = some ch) →
      Holds s' ch d → d = e ∧ (s'.calls d).registered = some ch := fun {d _} one hd =>
    ⟨(one (hold d hd)).1, (h.calls d).2.mpr (one (hold d hd)).2⟩
  cases hr with
  | unmade new at_ free => exact .unmade (h.made.mpr new) (h.at at_) fun c hc => free c (hold c hc)
  | pooled old at_ free => exact .pooled (hmade old) (h.at at_) fun c hc => free c (hold c hc)
  | quiet old at_ one =>
    exact .quiet (hmade old) (h.at at_) fun c d hc hd => one c d (hold c hc) (hold d hd)
  | registered k c old at_ own phase one =>
    exact .registered k c (hmade old) (h.at at_) own ((h.calls c).2.mpr phase)
      fun d hd => one d (hold d hd)
  | flying n c old at_ own one => exact .flying n c (hmade old) (h.at at_) own fun d => hown (one d)
  | full r old at_ one => exact .full r (hmade old) (h.at at_) fun d => hown (one d)

variable (key hdr) in
def Roles (s : Process ι ν) : Prop := ∀ ch, Role key hdr s ch

/-! ## What the roles say about a phase -/

theorem holds_of_registered {p : Phase ι ν} (h : p.registered = some ch) : p.holds = some ch := by
  cases p <;> first | exact h | cases h

theorem Role.quiet_of_holds (hr : Role key hdr s ch) (hold : Holds s ch c)
    (hreg : (s.calls c).registered ≠ some ch) :
    ch < s.made ∧ At s ch none none none 0 ∧ ∀ d, Holds s ch d → d = c := by
  cases hr with
  | unmade _ _ free | pooled _ _ free => exact absurd hold (free c)
  | quiet old at_ one => exact ⟨old, at_, fun d hd => one d c hd hold⟩
  | registered k c' old at_ own phase one =>
    obtain rfl := one c hold
    exact absurd phase hreg
  | flying _ _ _ _ _ one | full _ _ _ one => exact absurd (one c hold).2 hreg

theorem Role.of_entry (hr : Role key hdr s ch) {k : CallKey} (he : s.pendingCalls k = some (ch, c)) :
    ch < s.made ∧ At s ch none (some (k, c)) none 0 ∧ key c = k ∧
      (s.calls c).registered = some ch ∧ ∀ d, Holds s ch d → d = c := by
  cases hr with
  | registered k' c' old at_ own phase one =>
    cases (at_.entries k c).mp he
    exact ⟨old, at_, own, phase, one⟩
  | unmade _ at_ _ | pooled _ at_ _ | quiet _ at_ _ | flying _ _ _ at_ _ _ | full _ _ at_ _ =>
    cases (at_.entries k c).mp he

theorem Roles.init : Roles key hdr (.fresh ι ν) := fun _ =>
  .unmade (Nat.zero_le _) ⟨rfl, fun _ _ => by simp [Process.fresh], fun _ _ => by simp [Process.fresh],
    rfl⟩ fun _ => by simp [Holds, Process.fresh, Phase.holds]

theorem Role.of_content (hr : Role key hdr s ch) {r : Result ι ν} (hx : s.chans ch = some r) :
    ch < s.made ∧ At s ch (some r) none none 0 ∧
      ∀ d, Holds s ch d → d = r.dest ∧ (s.calls d).registered = some ch := by
  cases hr with
  | full r' old at_ one =>
    cases at_.content.symm.trans hx
    exact ⟨old, at_, one⟩
  | unmade _ at_ _ | pooled _ at_ _ | quiet _ at_ _ | registered _ _ _ at_ _ _ _ | flying _ _ _ at_ _ _ =>
    cases at_.content.symm.trans hx

theorem Role.of_flyer (hr : Role key hdr s ch) {n : ν} (hn : s.responses n = .flying ch c) :
    ch < s.made ∧ At s ch none none (some (n, c)) 0 ∧ hdr n = key c ∧
      ∀ d, Holds s ch d → d = c ∧ (s.calls d).registered = some ch := by
  cases hr with
  | flying n' c' old at_ own one =>
    cases (at_.flyers n c).mp hn
    exact ⟨old, at_, own, one⟩
  | unmade _ at_ _ | pooled _ at_ _ | quiet _ at_ _ | registered _ _ _ at_ _ _ _ | full _ _ at_ _ =>
    cases (at_.flyers n c).mp hn

theorem delete_entries {k : CallKey} (at_ : At s ch none (some (k, c)) none 0) (k' : CallKey) (d : ι) :
    Function.update s.pendingCalls k none k' ≠ some (ch, d) := by
  by_cases hk : k' = k
  · subst hk
    simp
  · rw [Function.update_of_ne hk]
    intro he
    have := Option.some.inj ((at_.entries k' d).mp he)
    exact hk (Prod.mk.inj this).1.symm

theorem delete_other {k : CallKey} (he : s.pendingCalls k = some (ch, c)) {ch' : Nat}
    (hne : ch' ≠ ch) (k' : CallKey) (d : ι) :
    Function.update s.pendingCalls k none k' = some (ch', d) ↔ s.pendingCalls k' = some (ch', d) := by
  by_cases hk : k' = k
  · subst hk
    rw [Function.update_self, he]
    simp [Ne.symm hne]
  · rw [Function.update_of_ne hk]

theorem chans_other {x : Option (Result ι ν)} {ch' : Nat} (hne : ch' ≠ ch) :
    (s.put ch x).chans ch' = s.chans ch' := Function.update_of_ne hne _ _

theorem Roles.collect (h : Roles key hdr s) (ch : Nat) :
    Roles key hdr { s with pendingPool := s.pendingPool.erase ch } := by
  intro ch'
  by_cases hne : ch' = ch
  · subst hne
    have hcount := List.count_erase_self (a := ch') (l := s.pendingPool)
    have hat : ∀ {x entry flyer}, At s ch' x entry flyer 0 →
        At { s with pendingPool := s.pendingPool.erase ch' } ch' x entry flyer 0 := fun ha =>
      ⟨ha.content, ha.entries, ha.flyers, by rw [hcount, ha.count]⟩
    cases h ch' with
    | unmade new at_ free => exact .unmade new (hat at_) free
    | pooled old at_ free =>
      exact .quiet old ⟨at_.content, at_.entries, at_.flyers, by rw [hcount, at_.count]⟩
        fun c d hc _ => absurd hc (free c)
    | quiet old at_ one => exact .quiet old (hat at_) one
    | registered k c old at_ own phase one => exact .registered k c old (hat at_) own phase one
    | flying n c old at_ own one => exact .flying n c old (hat at_) own one
    | full r old at_ one => exact .full r old (hat at_) one
  · exact (h ch').same { Same.refl s ch' with count := List.count_erase_of_ne hne }

theorem Roles.fail (h : Roles key hdr s) {k : CallKey} (he : s.pendingCalls k = some (ch, c)) :
    s.chans ch = none ∧ Roles key hdr ((s.delete k).put ch (some (.failure c))) := by
  obtain ⟨old, at_, -, phase, one⟩ := (h ch).of_entry he
  refine ⟨at_.content, fun ch' => ?_⟩
  by_cases hne : ch' = ch
  · subst hne
    refine .full (.failure c) old ⟨Function.update_self .., fun k d => ?_, at_.flyers, at_.count⟩
      fun d hd => ?_
    · exact ⟨fun he => absurd he (delete_entries at_ k d), nofun⟩
    · obtain rfl := one d hd
      exact ⟨rfl, phase⟩
  · exact (h ch').same { Same.refl s ch' with chans := chans_other hne, entries := delete_other he hne }

section Responses

variable [DecidableEq ν]

theorem Roles.route (h : Roles key hdr s) {n : ν} (hn : s.responses n = .absent)
    (he : s.pendingCalls (hdr n) = some (ch, c)) :
    Roles key hdr { s.delete (hdr n) with
      responses := Function.update s.responses n (.flying ch c) } := by
  obtain ⟨old, at_, own, phase, one⟩ := (h ch).of_entry he
  intro ch'
  by_cases hne : ch' = ch
  · subst hne
    refine .flying n c old ⟨at_.content, fun k d => ?_, fun m d => ?_, at_.count⟩ own.symm
      fun d hd => ?_
    · exact ⟨fun he => absurd he (delete_entries at_ k d), nofun⟩
    · by_cases hm : m = n
      · subst hm
        simp
      · have := at_.flyers m d
        simp only [Function.update_of_ne hm, this]
        simp [Ne.symm hm]
    · obtain rfl := one d hd
      exact ⟨rfl, phase⟩
  · refine (h ch').same { Same.refl s ch' with entries := delete_other he hne, flyers := fun m d => ?_ }
    by_cases hm : m = n
    · subst hm
      simp [hn, Ne.symm hne]
    · simp [Function.update_of_ne hm]

theorem Roles.discard (h : Roles key hdr s) {n : ν} (hn : s.responses n = .absent) :
    Roles key hdr { s.forget (hdr n) with
      responses := Function.update s.responses n .dropped } := by
  intro ch
  refine (h ch).same { Same.refl s ch with flyers := fun m d => ?_ }
  by_cases hm : m = n
  · subst hm
    simp [hn]
  · simp [Function.update_of_ne hm]

theorem Roles.deliver (h : Roles key hdr s) {n : ν} (hn : s.responses n = .flying ch c) :
    s.chans ch = none ∧ Roles key hdr { s.put ch (some (.response n c)) with
      responses := Function.update s.responses n (.delivered c) } := by
  obtain ⟨old, at_, own, one⟩ := (h ch).of_flyer hn
  refine ⟨at_.content, fun ch' => ?_⟩
  by_cases hne : ch' = ch
  · subst hne
    refine .full (.response n c) old ⟨Function.update_self .., at_.entries, fun m d => ?_, at_.count⟩ one
    by_cases hm : m = n
    · subst hm
      simp
    · have := at_.flyers m d
      simp only [Function.update_of_ne hm, this]
      simp [Ne.symm hm]
  · refine (h ch').same { Same.refl s ch' with chans := chans_other hne, flyers := fun m d => ?_ }
    by_cases hm : m = n
    · subst hm
      simp [hn, Ne.symm hne]
    · simp [Function.update_of_ne hm]

end Responses

section Phases

variable [DecidableEq ι] {calls : ι → Phase ι ν} {p : Phase ι ν}

variable (calls c p) in
theorem holds_other {ch' : Nat} (hne : ch' ≠ ch)
    (hold : (calls c).holds = some ch ∨ (calls c).holds = none)
    (hnew : p.holds = some ch ∨ p.holds = none) (d : ι) :
    ((Function.update calls c p d).holds = some ch' ↔ (calls d).holds = some ch') ∧
    ((Function.update calls c p d).registered = some ch' ↔ (calls d).registered = some ch') := by
  have hno : ∀ q : Phase ι ν, q.holds = some ch ∨ q.holds = none →
      q.holds ≠ some ch' ∧ q.registered ≠ some ch' := by
    intro q hq
    have hq' : q.holds ≠ some ch' := by
      rcases hq with hq | hq
      · rw [hq]
        exact fun he => hne (Option.some.inj he).symm
      · rw [hq]
        nofun
    exact ⟨hq', fun hreg => hq' (holds_of_registered hreg)⟩
  by_cases hd : d = c
  · subst hd
    rw [Function.update_self]
    obtain ⟨h1, h2⟩ := hno _ hold
    obtain ⟨h3, h4⟩ := hno _ hnew
    exact ⟨⟨fun h => absurd h h3, fun h => absurd h h1⟩, ⟨fun h => absurd h h4, fun h => absurd h h2⟩⟩
  · rw [Function.update_of_ne hd]
    exact ⟨Iff.rfl, Iff.rfl⟩

theorem holds_update {d : ι} (h : (Function.update calls c p d).holds = some ch) :
    d = c ∨ (calls d).holds = some ch := by
  by_cases hd : d = c
  · exact .inl hd
  · rw [Function.update_of_ne hd] at h
    exact .inr h

theorem holds_released (hp : p.holds = none) {d : ι}
    (h : (Function.update calls c p d).holds = some ch) :
    d ≠ c ∧ (calls d).holds = some ch ∧ Function.update calls c p d = calls d := by
  by_cases hd : d = c
  · subst hd
    rw [Function.update_self, hp] at h
    cases h
  · rw [Function.update_of_ne hd] at h ⊢
    exact ⟨hd, h, rfl⟩

end Phases

variable [DecidableEq ι]

theorem Roles.relabel (h : Roles key hdr s) {p : Phase ι ν} (hh : p.holds = (s.calls c).holds)
    (hr : p.registered = (s.calls c).registered) : Roles key hdr (s.setCall c p) := by
  intro ch
  refine (h ch).same { Same.refl s ch with calls := fun d => ?_ }
  by_cases hd : d = c
  · subst hd
    simp [Process.setCall, hh, hr]
  · simp [Process.setCall, hd]

theorem Roles.take (h : Roles key hdr s) (habs : s.calls c = .absent) (hmem : ch ∈ s.pendingPool) :
    Roles key hdr { s.setCall c (.got ch) with pendingPool := s.pendingPool.erase ch } := by
  intro ch'
  by_cases hne : ch' = ch
  · subst hne
    have hcount : 0 < s.pendingPool.count ch' := List.count_pos_iff.mpr hmem
    cases h ch' with
    | pooled old at_ free =>
      refine .quiet old ⟨at_.content, at_.entries, at_.flyers, ?_⟩ fun d e hd he => ?_
      · dsimp only
        rw [List.count_erase_self, at_.count]
      · have hd := (holds_update hd).resolve_right (free d)
        exact hd.trans ((holds_update he).resolve_right (free e)).symm
    | unmade _ at_ _ | quiet _ at_ _ | registered _ _ _ at_ _ _ _ | flying _ _ _ at_ _ _ | full _ _ at_ _ =>
      have := at_.count
      omega
  · have hother := holds_other c s.calls (.got ch) hne (.inr (by rw [habs]; rfl)) (.inl rfl)
    exact (h ch').same { Same.refl s ch' with count := List.count_erase_of_ne hne, calls := hother }

theorem Roles.make (h : Roles key hdr s) (habs : s.calls c = .absent) :
    Roles key hdr { s.setCall c (.got s.made) with made := s.made + 1 } := by
  intro ch'
  by_cases hne : ch' = s.made
  · subst hne
    obtain ⟨at_, free⟩ : At s s.made none none none 0 ∧ ∀ c, ¬ Holds s s.made c := by
      cases h s.made
      case unmade at_ free => exact ⟨at_, free⟩
      all_goals omega
    refine .quiet (Nat.lt_succ_self _) ⟨at_.content, at_.entries, at_.flyers, at_.count⟩
      fun d e hd he => ?_
    have hd := (holds_update hd).resolve_right (free d)
    exact hd.trans ((holds_update he).resolve_right (free e)).symm
  · have hother := holds_other c s.calls (.got s.made) hne (.inr (by rw [habs]; rfl)) (.inl rfl)
    refine (h ch').same { Same.refl s ch' with calls := hother, made := ?_ }
    dsimp only
    omega

/-- The new entry may take the place of another one with the same key. -/
theorem Roles.register (h : Roles key hdr s) (hgot : s.calls c = .got ch) :
    Roles key hdr { s.setCall c (.sending ch) with
      pendingCalls := Function.update s.pendingCalls (key c) (some (ch, c)) } := by
  intro ch'
  have hholds : Holds s ch c := by rw [Holds, hgot]; rfl
  by_cases hne : ch' = ch
  · subst hne
    obtain ⟨old, at_, one⟩ := (h ch').quiet_of_holds hholds (by rw [hgot]; nofun)
    refine .registered (key c) c old ⟨at_.content, fun k d => ?_, at_.flyers, at_.count⟩ rfl ?_ ?_
    · by_cases hk : k = key c
      · subst hk
        simp
      · have := at_.entries k d
        simp only [Function.update_of_ne hk, this]
        simp [Ne.symm hk]
    · simp [Process.setCall, Phase.registered]
    · intro d hd
      exact (holds_update hd).elim id (one d)
  · have hother := holds_other c s.calls (.sending ch) hne (.inl (by rw [hgot]; rfl)) (.inl rfl)
    by_cases hentry : ∃ d, s.pendingCalls (key c) = some (ch', d)
    · obtain ⟨d, hd⟩ := hentry
      obtain ⟨old, at_, -, -, one⟩ := (h ch').of_entry hd
      refine .quiet old ⟨at_.content, fun k e => ?_, at_.flyers, at_.count⟩ fun e f he hf => ?_
      · by_cases hk : k = key c
        · subst hk
          simp [Ne.symm hne]
        · have := at_.entries k e
          simp only [Function.update_of_ne hk, this]
          simp [Ne.symm hk]
      · exact (one e ((hother e).1.mp he)).trans (one f ((hother f).1.mp hf)).symm
    · refine (h ch').same { Same.refl s ch' with entries := fun k d => ?_, calls := hother }
      by_cases hk : k = key c
      · subst hk
        simp only [Function.update_self, Option.some.injEq, Prod.mk.injEq]
        exact ⟨fun he => absurd he.1.symm hne, fun he => absurd ⟨d, he⟩ hentry⟩
      · simp [Function.update_of_ne hk]

/-- A call gives up on a channel without an entry of its own. -/
theorem Roles.drop (h : Roles key hdr s) (hholds : Holds s ch c)
    (hnone : (s.pendingCalls (key c)).map Prod.fst ≠ some ch) {p : Phase ι ν} (hp : p.holds = none) :
    Roles key hdr (s.setCall c p) := by
  intro ch'
  by_cases hne : ch' = ch
  · subst hne
    cases h ch' with
    | unmade _ _ free | pooled _ _ free => exact absurd hholds (free c)
    | quiet old at_ one =>
      exact .quiet old ⟨at_.content, at_.entries, at_.flyers, at_.count⟩ fun d e hd he =>
        one d e (holds_released hp hd).2.1 (holds_released hp he).2.1
    | registered k c' old at_ own phase one =>
      obtain rfl := one c hholds
      have hentry := (at_.entries k c).mpr rfl
      rw [← own] at hentry
      simp [hentry] at hnone
    | flying n c' old at_ own one =>
      refine .flying n c' old ⟨at_.content, at_.entries, at_.flyers, at_.count⟩ own fun d hd => ?_
      exact absurd ((one d (holds_released hp hd).2.1).1.trans (one c hholds).1.symm)
        (holds_released hp hd).1
    | full r old at_ one =>
      refine .full r old ⟨at_.content, at_.entries, at_.flyers, at_.count⟩ fun d hd => ?_
      exact absurd ((one d (holds_released hp hd).2.1).1.trans (one c hholds).1.symm)
        (holds_released hp hd).1
  · have hother := holds_other c s.calls p hne (.inl hholds) (.inr hp)
    exact (h ch').same { Same.refl s ch' with calls := hother }

/-- The call itself takes its entry out. Now nobody can send on the channel. -/
theorem Roles.unregister (h : Roles key hdr s) (hholds : Holds s ch c) {d : ι}
    (he : s.pendingCalls (key c) = some (ch, d)) {p : Phase ι ν}
    (hp : p.holds = some ch ∨ p.holds = none) :
    Roles key hdr ((s.delete (key c)).setCall c p) := by
  obtain ⟨old, at_, -, -, one⟩ := (h ch).of_entry he
  obtain rfl := one c hholds
  intro ch'
  by_cases hne : ch' = ch
  · subst hne
    refine .quiet old ⟨at_.content, fun k d => ?_, at_.flyers, at_.count⟩ fun d e hd he => ?_
    · exact ⟨fun he => absurd he (delete_entries at_ k d), nofun⟩
    · have hd := (holds_update hd).elim id (one d)
      exact hd.trans ((holds_update he).elim id (one e)).symm
  · have hother := holds_other c s.calls p hne (.inl hholds) hp
    exact (h ch').same { Same.refl s ch' with entries := delete_other he hne, calls := hother }

theorem Roles.recycle (h : Roles key hdr s) {o : Outcome ι ν} (hput : s.calls c = .putting ch o) :
    Roles key hdr { s.setCall c (.returned o) with pendingPool := ch :: s.pendingPool } := by
  have hholds : Holds s ch c := by rw [Holds, hput]; rfl
  intro ch'
  by_cases hne : ch' = ch
  · subst hne
    obtain ⟨old, at_, one⟩ := (h ch').quiet_of_holds hholds (by rw [hput]; nofun)
    refine .pooled old ⟨at_.content, at_.entries, at_.flyers, ?_⟩ fun d hd => ?_
    · dsimp only
      rw [List.count_cons_self, at_.count]
    · obtain ⟨hdc, hd, -⟩ := holds_released rfl hd
      exact hdc (one d hd)
  · have hother := holds_other c s.calls (.returned o) hne (.inl hholds) (.inr rfl)
    exact (h ch').same { Same.refl s ch' with count := List.count_cons_of_ne (Ne.symm hne), calls := hother }

theorem Roles.receive (h : Roles key hdr s) (hwait : s.calls c = .waiting ch) {r : Result ι ν}
    (hx : s.chans ch = some r) :
    Roles key hdr ((s.put ch none).setCall c (.putting ch (.result r))) := by
  have hholds : Holds s ch c := by rw [Holds, hwait]; rfl
  obtain ⟨old, at_, one⟩ := (h ch).of_content hx
  intro ch'
  by_cases hne : ch' = ch
  · subst hne
    refine .quiet old ⟨Function.update_self .., at_.entries, at_.flyers, at_.count⟩
      fun d e hd he => ?_
    have hc := (one c hholds).1
    have hd := (holds_update hd).elim (·.trans hc) fun hd => (one d hd).1
    exact hd.trans ((holds_update he).elim (·.trans hc) fun he => (one e he).1).symm
  · have hother := holds_other c s.calls (.putting ch (.result r)) hne (.inl hholds)
      (.inl rfl)
    exact (h ch').same { Same.refl s ch' with chans := chans_other hne, calls := hother }

end Hqq.Calls
