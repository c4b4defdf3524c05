import Hqq.Calls.Channels

/-!
# What a call returns

A response that takes the entry of a call goes to that call and to nobody else. The
peer is told to cancel only if no response took the entry.
-/

namespace Hqq.Calls

variable {ι ν : Type}

/-- The call whose entry the response took. -/
def Journey.dest : Journey ι → Option ι
  | .flying _ c | .delivered c => some c
  | .absent | .dropped => none

def Phase.outcome : Phase ι ν → Option (Outcome ι ν)
  | .putting _ o | .returned o => some o
  | _ => none

/-- The call has not registered yet. -/
def Phase.early : Phase ι ν → Bool
  | .absent | .got _ => true
  | _ => false

/-- A phase behind the registration, without a result and without a cancel to send. -/
def Phase.plain : Phase ι ν → Bool
  | .sending _ | .waiting _ | .unregistering _ _ | .abandoning _ _ _ | .putting _ (.error _)
  | .returned (.error _) => true
  | _ => false

section

variable (key : ι → CallKey) (hdr : ν → CallKey)

/-- A response in `r` is for the call that it names, and it took the entry of that call. -/
def Genuine (s : Process ι ν) (r : Result ι ν) : Prop :=
  ∀ n c, r = .response n c → hdr n = key c ∧ s.responses n = .delivered c

/-- Where a response or a cancel of a call can be, beside the roles of the channels. -/
structure Facts (s : Process ι ν) : Prop where
  full : ∀ ch r, s.chans ch = some r → Genuine key hdr s r
  outcome : ∀ c r, (s.calls c).outcome = some (.result r) → r.dest = c ∧ Genuine key hdr s r
  unrouted : ∀ k ch c, s.pendingCalls k = some (ch, c) → ∀ n, (s.responses n).dest ≠ some c
  early : ∀ c, (s.calls c).early = true → ∀ n, (s.responses n).dest ≠ some c
  canceled : ∀ c, (c ∈ s.canceled ∨ ∃ e, s.calls c = .canceling e) →
    (∀ n, (s.responses n).dest ≠ some c) ∧ ∀ k ch, s.pendingCalls k ≠ some (ch, c)
  done : ∀ c ∈ s.canceled, ∃ o, s.calls c = .returned o

end

variable {key : ι → CallKey} {hdr : ν → CallKey} {s s' : Process ι ν} {ch : Nat} {c : ι}

theorem Facts.init : Facts key hdr (.fresh ι ν) := by
  constructor <;> simp [Process.fresh, Phase.outcome, Journey.dest]

theorem delete_eq_some {k k' : CallKey} {e : Nat × ι} :
    (s.delete k).pendingCalls k' = some e ↔ k' ≠ k ∧ s.pendingCalls k' = some e := by
  by_cases hk : k' = k <;> simp [Process.delete, hk]

theorem Facts.same (h : Facts key hdr s) (hresp : s'.responses = s.responses)
    (hcancel : s'.canceled = s.canceled) (hcalls : s'.calls = s.calls)
    (hchans : ∀ ch n c, s'.chans ch = some (.response n c) → s.chans ch = some (.response n c))
    (hentries : ∀ k e, s'.pendingCalls k = some e → s.pendingCalls k = some e) : Facts key hdr s' where
  full ch r hr n c he := by
    subst he
    rw [hresp]
    exact h.full ch _ (hchans ch n c hr) n c rfl
  outcome c r hr := by
    rw [hcalls] at hr
    unfold Genuine
    rw [hresp]
    exact h.outcome c r hr
  unrouted k ch c he := by
    rw [hresp]
    exact h.unrouted k ch c (hentries k _ he)
  early c hc := by
    rw [hcalls] at hc
    rw [hresp]
    exact h.early c hc
  canceled c hc := by
    rw [hcancel, hcalls] at hc
    rw [hresp]
    exact ⟨(h.canceled c hc).1, fun k ch he => (h.canceled c hc).2 k ch (hentries k _ he)⟩
  done c hc := by
    rw [hcancel] at hc
    rw [hcalls]
    exact h.done c hc

theorem Facts.congr (h : Facts key hdr s) (hresp : s'.responses = s.responses)
    (hcancel : s'.canceled = s.canceled) (hcalls : s'.calls = s.calls) (hchans : s'.chans = s.chans)
    (hentries : s'.pendingCalls = s.pendingCalls) : Facts key hdr s' :=
  h.same hresp hcancel hcalls (fun _ _ _ => hchans ▸ id) fun _ _ => hentries ▸ id

theorem Facts.delete (h : Facts key hdr s) (k : CallKey) : Facts key hdr (s.delete k) :=
  h.same rfl rfl rfl (fun _ _ _ => id) fun _ _ he => (delete_eq_some.mp he).2

theorem Roles.entry_gone (h : Roles key hdr s) {k : CallKey} (he : s.pendingCalls k = some (ch, c))
    (k' : CallKey) (ch' : Nat) : (s.delete k).pendingCalls k' ≠ some (ch', c) := by
  intro he'
  obtain ⟨hk, he'⟩ := delete_eq_some.mp he'
  exact hk (((h ch').of_entry he').2.2.1.symm.trans ((h ch).of_entry he).2.2.1)

theorem Facts.unregister (h : Facts key hdr s) (hroles : Roles key hdr s) (hholds : Holds s ch c)
    {d : ι} (he : s.pendingCalls (key c) = some (ch, d)) :
    (∀ n, (s.responses n).dest ≠ some c) ∧ ∀ k ch', (s.delete (key c)).pendingCalls k ≠ some (ch', c) := by
  obtain ⟨-, -, -, -, one⟩ := (hroles ch).of_entry he
  obtain rfl := one c hholds
  exact ⟨h.unrouted _ _ _ he, hroles.entry_gone he⟩

section Moves

variable [DecidableEq ι]

theorem Facts.move (h : Facts key hdr s) {p : Phase ι ν} (hlive : ∀ o, s.calls c ≠ .returned o)
    (hout : ∀ r, p.outcome = some (.result r) → r.dest = c ∧ Genuine key hdr s r)
    (hearly : p.early = true → (s.calls c).early = true)
    (hcancel : ∀ e, p = .canceling e → (∀ n, (s.responses n).dest ≠ some c) ∧
      ∀ k ch, s.pendingCalls k ≠ some (ch, c)) : Facts key hdr (s.setCall c p) where
  full := h.full
  outcome d r hr := by
    by_cases hd : d = c
    · subst hd
      simp only [Process.setCall, Function.update_self] at hr
      exact hout r hr
    · simp only [Process.setCall, Function.update_of_ne hd] at hr
      exact h.outcome d r hr
  unrouted := h.unrouted
  early d hd := by
    by_cases hdc : d = c
    · subst hdc
      simp only [Process.setCall, Function.update_self] at hd
      exact h.early d (hearly hd)
    · simp only [Process.setCall, Function.update_of_ne hdc] at hd
      exact h.early d hd
  canceled d hd := by
    by_cases hdc : d = c
    · subst hdc
      simp only [Process.setCall, Function.update_self] at hd
      rcases hd with hd | ⟨e, hd⟩
      · exact h.canceled d (.inl hd)
      · exact hcancel e hd
    · simp only [Process.setCall, Function.update_of_ne hdc] at hd
      exact h.canceled d hd
  done d hd := by
    have hdc : d ≠ c := by
      rintro rfl
      obtain ⟨o, ho⟩ := h.done d hd
      exact hlive o ho
    simp only [Process.setCall, Function.update_of_ne hdc]
    exact h.done d hd

theorem Facts.moveOn (h : Facts key hdr s) {p : Phase ι ν} (hlive : ∀ o, s.calls c ≠ .returned o)
    (hp : p.plain = true) : Facts key hdr (s.setCall c p) := by
  have hplain : (∀ r, p.outcome ≠ some (.result r)) ∧ p.early = false ∧ ∀ e, p ≠ .canceling e := by
    unfold Phase.plain at hp
    split at hp
    all_goals simp_all [Phase.outcome, Phase.early]
  obtain ⟨hout, hearly, hcancel⟩ := hplain
  exact h.move hlive (fun r hr => absurd hr (hout r)) (by simp [hearly]) fun e he => absurd he (hcancel e)

theorem Facts.got (h : Facts key hdr s) (habs : s.calls c = .absent) (ch : Nat) :
    Facts key hdr (s.setCall c (.got ch)) :=
  h.move (by simp [habs]) (by simp [Phase.outcome]) (fun _ => by rw [habs]; rfl) (by simp)

theorem Facts.register (h : Facts key hdr s) (hgot : s.calls c = .got ch) :
    Facts key hdr { s.setCall c (.sending ch) with
      pendingCalls := Function.update s.pendingCalls (key c) (some (ch, c)) } := by
  have hmoved := h.moveOn (c := c) (p := .sending ch) (by simp [hgot]) rfl
  have hearly := h.early c (by rw [hgot]; rfl)
  refine ⟨hmoved.full, hmoved.outcome, fun k ch' d he => ?_, hmoved.early, fun d hd => ?_, hmoved.done⟩
  · by_cases hk : k = key c
    · subst hk
      simp only [Function.update_self, Option.some.injEq, Prod.mk.injEq] at he
      exact he.2 ▸ hearly
    · simp only [Function.update_of_ne hk] at he
      exact h.unrouted k ch' d he
  · refine ⟨(hmoved.canceled d hd).1, fun k ch' he => ?_⟩
    by_cases hk : k = key c
    · subst hk
      simp only [Function.update_self, Option.some.injEq, Prod.mk.injEq] at he
      -- The call that registers has not been canceled.
      obtain ⟨-, rfl⟩ := he
      rcases hd with hd | ⟨e, hd⟩
      · obtain ⟨o, ho⟩ := h.done c hd
        simp [hgot] at ho
      · simp [Process.setCall] at hd
    · simp only [Function.update_of_ne hk] at he
      exact (hmoved.canceled d hd).2 k ch' he

theorem Facts.cancelPending (h : Facts key hdr s) {e : Err} (hc : s.calls c = .canceling e)
    (queued : Bool) : Facts key hdr { s.setCall c (.returned (.error e)) with
      canceled := if queued then c :: s.canceled else s.canceled } := by
  have hmoved := h.moveOn (c := c) (p := .returned (.error e)) (by simp [hc]) rfl
  have hsub : ∀ d, d ∈ (if queued then c :: s.canceled else s.canceled) → d = c ∨ d ∈ s.canceled := by
    intro d hd
    split at hd
    · exact List.mem_cons.mp hd
    · exact .inr hd
  refine ⟨hmoved.full, hmoved.outcome, hmoved.unrouted, hmoved.early, fun d hd => ?_, fun d hd => ?_⟩
  · rcases hd with hd | hd
    · rcases hsub d hd with rfl | hd
      · exact h.canceled d (.inr ⟨e, hc⟩)
      · exact h.canceled d (.inl hd)
    · exact hmoved.canceled d (.inr hd)
  · rcases hsub d hd with rfl | hd
    · exact ⟨_, by simp [Process.setCall]; rfl⟩
    · exact hmoved.done d hd

end Moves

section Responses

variable [DecidableEq ν]

theorem Facts.journey (h : Facts key hdr s) {n : ν} {j : Journey ι}
    (hold : ∀ c, s.responses n ≠ .delivered c)
    (hnew : ∀ c, j.dest = some c → (s.responses n).dest = some c ∨
      ((∀ k ch, s'.pendingCalls k ≠ some (ch, c)) ∧ (s.calls c).early = false ∧
        (c ∉ s.canceled ∧ ∀ e, s.calls c ≠ .canceling e)))
    (hresp : s'.responses = Function.update s.responses n j) (hcancel : s'.canceled = s.canceled)
    (hcalls : s'.calls = s.calls)
    (hchans : ∀ ch r, s'.chans ch = some r → s.chans ch = some r ∨ Genuine key hdr s' r)
    (hentries : ∀ k e, s'.pendingCalls k = some e → s.pendingCalls k = some e) :
    Facts key hdr s' := by
  have hgen : ∀ r, Genuine key hdr s r → Genuine key hdr s' r := by
    intro r hr m c he
    obtain ⟨hown, hdel⟩ := hr m c he
    refine ⟨hown, ?_⟩
    have hm : m ≠ n := by
      rintro rfl
      exact hold c hdel
    rw [hresp, Function.update_of_ne hm]
    exact hdel
  have hdest : ∀ m c, (s'.responses m).dest = some c → (s.responses m).dest = some c ∨
      (m = n ∧ j.dest = some c) := by
    intro m c hm
    rw [hresp] at hm
    by_cases hmn : m = n
    · subst hmn
      rw [Function.update_self] at hm
      exact .inr ⟨rfl, hm⟩
    · rw [Function.update_of_ne hmn] at hm
      exact .inl hm
  refine ⟨fun ch r hr => ?_, fun c r hr => ?_, fun k ch c he m hm => ?_, fun c hc m hm => ?_,
    fun c hc => ⟨fun m hm => ?_, fun k ch he => ?_⟩, fun c hc => ?_⟩
  · exact (hchans ch r hr).elim (fun hr => hgen r (h.full ch r hr)) id
  · rw [hcalls] at hr
    exact ⟨(h.outcome c r hr).1, hgen r (h.outcome c r hr).2⟩
  · have hold' := h.unrouted k ch c (hentries k _ he)
    rcases hdest m c hm with hm | ⟨-, hj⟩
    · exact hold' m hm
    · exact (hnew c hj).elim (hold' n) fun hn => hn.1 k ch he
  · rw [hcalls] at hc
    have hold' := h.early c hc
    rcases hdest m c hm with hm | ⟨-, hj⟩
    · exact hold' m hm
    · exact (hnew c hj).elim (hold' n) fun hn => by simp [hc] at hn
  · rw [hcancel, hcalls] at hc
    have hold' := (h.canceled c hc).1
    rcases hdest m c hm with hm | ⟨-, hj⟩
    · exact hold' m hm
    · refine (hnew c hj).elim (hold' n) fun hn => ?_
      rcases hc with hc | ⟨e, hc⟩
      · exact hn.2.2.1 hc
      · exact hn.2.2.2 e hc
  · rw [hcancel, hcalls] at hc
    exact (h.canceled c hc).2 k ch (hentries k _ he)
  · rw [hcancel] at hc
    rw [hcalls]
    exact h.done c hc

end Responses

variable [DecidableEq ι] [DecidableEq ν]

variable (key hdr) in
structure Inv (s : Process ι ν) : Prop where
  roles : Roles key hdr s
  facts : Facts key hdr s

section Step

variable (h : Inv key hdr s)
include h

theorem Inv.get {pooled : Option Nat} (hstep : step key hdr s (.get c pooled) = some s') :
    Inv key hdr s' := by
  unfold step at hstep
  dsimp only at hstep
  split at hstep
  · rename_i ch habs
    obtain ⟨hmem, rfl⟩ := Machine.of_guard hstep
    exact ⟨h.roles.take habs hmem, (h.facts.got habs ch).congr rfl rfl rfl rfl rfl⟩
  · rename_i habs
    cases hstep
    exact ⟨h.roles.make habs, (h.facts.got habs s.made).congr rfl rfl rfl rfl rfl⟩
  · cases hstep

theorem Inv.sent {ok : Bool} (hstep : step key hdr s (.sent c ok) = some s') : Inv key hdr s' := by
  unfold step at hstep
  dsimp only at hstep
  split at hstep
  · rename_i ch hsend
    cases hstep
    cases ok with
    | true | false =>
      exact ⟨h.roles.relabel (by rw [hsend]; rfl) (by rw [hsend]; rfl),
        h.facts.moveOn (by simp [hsend]) rfl⟩
  · cases hstep

theorem Inv.unregister (hstep : step key hdr s (.unregister c) = some s') : Inv key hdr s' := by
  unfold step at hstep
  dsimp only at hstep
  split at hstep
  · rename_i ch e hc
    have hholds : Holds s ch c := by rw [Holds, hc]; rfl
    split at hstep
    · rename_i hmine
      cases hstep
      obtain ⟨⟨ch', d⟩, he, rfl⟩ := Option.map_eq_some_iff.mp hmine
      exact ⟨h.roles.unregister hholds he (.inl rfl),
        (h.facts.delete _).moveOn (by simp [Process.delete, hc]) rfl⟩
    · rename_i hnone
      cases hstep
      exact ⟨h.roles.drop hholds hnone rfl, h.facts.moveOn (by simp [hc]) rfl⟩
  · cases hstep

theorem Inv.recycle (hstep : step key hdr s (.recycle c) = some s') : Inv key hdr s' := by
  unfold step at hstep
  dsimp only at hstep
  split at hstep
  · rename_i ch o hc
    cases hstep
    refine ⟨h.roles.recycle hc, ?_⟩
    have hout := h.facts.outcome c
    rw [hc] at hout
    exact (h.facts.move (c := c) (p := .returned o) (by simp [hc]) hout (by simp [Phase.early])
      (by simp)).congr rfl rfl rfl rfl rfl
  · cases hstep

theorem Inv.receive (hstep : step key hdr s (.receive c) = some s') : Inv key hdr s' := by
  unfold step at hstep
  dsimp only at hstep
  split at hstep
  · rename_i ch hc
    split at hstep
    · rename_i r hr
      cases hstep
      refine ⟨h.roles.receive hc hr, ?_⟩
      have hput : Facts key hdr (s.put ch none) := by
        refine h.facts.same rfl rfl rfl (fun ch' n d he => ?_) fun _ _ => id
        by_cases hne : ch' = ch
        · subst hne
          simp [Process.put] at he
        · simpa [Process.put, hne] using he
      refine hput.move (by simp [Process.put, hc]) (fun r' hr' => ?_) (by simp [Phase.early]) (by simp)
      simp only [Phase.outcome, Option.some.injEq, Outcome.result.injEq] at hr'
      subst hr'
      have hdest := ((h.roles ch).of_content hr).2.2 c (by rw [Holds, hc]; rfl)
      exact ⟨hdest.1.symm, h.facts.full ch r hr⟩
    · cases hstep
  · cases hstep

theorem Inv.stop {why : Stop} (hstep : step key hdr s (.stop c why) = some s') :
    Inv key hdr s' := by
  unfold step at hstep
  dsimp only at hstep
  split at hstep
  · rename_i ch hc
    cases hstep
    have hphase : (why.phase ch : Phase ι ν).holds = some ch ∧
        (why.phase ch : Phase ι ν).registered = some ch ∧ (why.phase ch : Phase ι ν).plain = true := by
      cases why <;> exact ⟨rfl, rfl, rfl⟩
    obtain ⟨h1, h2, h3⟩ := hphase
    exact ⟨h.roles.relabel (by rw [hc]; exact h1) (by rw [hc]; exact h2),
      h.facts.moveOn (by simp [hc]) h3⟩
  · cases hstep

theorem Inv.abandon (hstep : step key hdr s (.abandon c) = some s') : Inv key hdr s' := by
  unfold step at hstep
  dsimp only at hstep
  split at hstep
  · rename_i ch canceled e hc
    have hholds : Holds s ch c := by rw [Holds, hc]; rfl
    split at hstep
    · rename_i hmine
      cases hstep
      obtain ⟨⟨ch', d⟩, he, rfl⟩ := Option.map_eq_some_iff.mp hmine
      have hfree := h.facts.unregister h.roles hholds he
      have hremember : ∀ p : Phase ι ν, Inv key hdr ((s.delete (key c)).setCall c p) →
          Inv key hdr (((s.delete (key c)).remember (key c)).setCall c p) := fun p hp =>
        ⟨fun ch => (hp.roles ch).same { Same.refl _ ch with }, hp.facts.congr rfl rfl rfl rfl rfl⟩
      refine hremember _ ⟨h.roles.unregister hholds he (.inr ?_), (h.facts.delete _).move ?_ ?_ ?_ ?_⟩
      · split <;> rfl
      · simp [Process.delete, hc]
      · split <;> simp [Phase.outcome]
      · split <;> simp [Phase.early]
      · exact fun _ _ => hfree
    · rename_i hnone
      cases hstep
      exact ⟨h.roles.drop hholds hnone rfl, h.facts.moveOn (by simp [hc]) rfl⟩
  · cases hstep

theorem Inv.cancelPending {queued : Bool}
    (hstep : step key hdr s (.cancelPending c queued) = some s') : Inv key hdr s' := by
  unfold step at hstep
  dsimp only at hstep
  split at hstep
  · rename_i e hc
    cases hstep
    have hroles := h.roles.relabel (c := c) (p := .returned (.error e)) (by rw [hc]; rfl) (by rw [hc]; rfl)
    exact ⟨fun ch => (hroles ch).same { Same.refl _ ch with }, h.facts.cancelPending hc queued⟩
  · cases hstep

theorem Inv.routeResponse {n : ν} (hstep : step key hdr s (.routeResponse n) = some s') :
    Inv key hdr s' := by
  unfold step at hstep
  dsimp only at hstep
  split at hstep
  · rename_i ch c hn he
    cases hstep
    refine ⟨h.roles.route hn he, ?_⟩
    obtain ⟨-, -, -, hreg, -⟩ := (h.roles ch).of_entry he
    refine h.facts.journey (n := n) (j := .flying ch c) (by simp [hn]) (fun d hd => .inr ?_) rfl rfl rfl
      (fun _ _ => .inl) fun k e he' => (delete_eq_some.mp he').2
    cases hd
    refine ⟨h.roles.entry_gone he, ?_, fun hcan => ?_, fun e hcan => ?_⟩
    · cases hp : s.calls c <;> rw [hp] at hreg <;> first | rfl | cases hreg
    · exact (h.facts.canceled c (.inl hcan)).2 _ _ he
    · exact (h.facts.canceled c (.inr ⟨e, hcan⟩)).2 _ _ he
  · rename_i hn he
    cases hstep
    exact ⟨h.roles.discard hn, h.facts.journey (n := n) (j := .dropped) (by simp [hn])
      (fun d hd => by cases hd) rfl rfl rfl (fun _ _ => .inl) fun _ _ => id⟩
  · cases hstep

theorem Inv.deliver {n : ν} (hstep : step key hdr s (.deliver n) = some s') : Inv key hdr s' := by
  unfold step at hstep
  dsimp only at hstep
  split at hstep
  · rename_i ch c hn
    obtain ⟨-, rfl⟩ := Machine.of_guard hstep
    refine ⟨(h.roles.deliver hn).2, ?_⟩
    have hown := ((h.roles ch).of_flyer hn).2.2.1
    refine h.facts.journey (n := n) (j := .delivered c) (by simp [hn])
      (fun d hd => .inl (by rw [hn]; exact hd)) rfl rfl rfl (fun ch' r hr => ?_) fun _ _ => id
    by_cases hne : ch' = ch
    · subst hne
      simp only [Process.put, Function.update_self, Option.some.injEq] at hr
      subst hr
      refine .inr fun m d he => ?_
      obtain ⟨rfl, rfl⟩ := Result.response.inj he
      exact ⟨hown, Function.update_self ..⟩
    · exact .inl (by simpa [Process.put, hne] using hr)
  · cases hstep

theorem Inv.failPending {k : CallKey} (hstep : step key hdr s (.failPending k) = some s') :
    Inv key hdr s' := by
  unfold step at hstep
  dsimp only at hstep
  split at hstep
  · rename_i ch c he
    obtain ⟨hnone, hroles⟩ := h.roles.fail he
    rw [if_pos hnone] at hstep
    cases hstep
    refine ⟨hroles, (h.facts.delete k).same rfl rfl rfl (fun ch' n d hr => ?_) fun _ _ => id⟩
    by_cases hne : ch' = ch
    · subst hne
      simp [Process.put] at hr
    · simpa [Process.put, hne] using hr
  · cases hstep

theorem Inv.step {a : Act ι ν} (hstep : step key hdr s a = some s') : Inv key hdr s' := by
  cases a with
  | get c pooled => exact h.get hstep
  | collect ch =>
    cases hstep
    exact ⟨h.roles.collect ch, h.facts.congr rfl rfl rfl rfl rfl⟩
  | register c =>
    simp only [Calls.step] at hstep
    split at hstep
    · rename_i ch hc
      cases hstep
      exact ⟨h.roles.register hc, h.facts.register hc⟩
    · cases hstep
  | sent c ok => exact h.sent hstep
  | unregister c => exact h.unregister hstep
  | recycle c => exact h.recycle hstep
  | receive c => exact h.receive hstep
  | stop c why => exact h.stop hstep
  | abandon c => exact h.abandon hstep
  | cancelPending c queued => exact h.cancelPending hstep
  | routeResponse n => exact h.routeResponse hstep
  | deliver n => exact h.deliver hstep
  | failPending k => exact h.failPending hstep

end Step

end Hqq.Calls
