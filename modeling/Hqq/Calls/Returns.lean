import Hqq.Calls.Outcomes

/-!
# Every call returns once, with its own response

A call that waits is never forgotten: its entry is in the map, or its result is on the way.
-/

namespace Hqq.Calls

variable {ι ν : Type} [DecidableEq ι] [DecidableEq ν]
variable {key : ι → CallKey} {hdr : ν → CallKey} {s s' : Process ι ν} {ch : Nat} {c : ι}
variable {a : Act ι ν}

/-! ## One step moves at most one call -/

/-- How `a` may move the call `c`: a result is final, and only `register` adds an entry. -/
def Moves (a : Act ι ν) (c : ι) (p q : Phase ι ν) : Prop :=
  (∀ o, p ≠ .returned o) ∧ (q.early = true → p.early = true) ∧
    ∀ ch, q.registered = some ch → p.registered = some ch ∨ a = .register c

theorem step_calls (hstep : step key hdr s a = some s') :
    s'.calls = s.calls ∨ ∃ c p, s'.calls = Function.update s.calls c p ∧ Moves a c (s.calls c) p := by
  cases a with
  | collect ch =>
    cases hstep
    exact .inl rfl
  | routeResponse n =>
    simp only [step] at hstep
    split at hstep
    · cases hstep
      exact .inl rfl
    · cases hstep
      exact .inl rfl
    · cases hstep
  | failPending k =>
    simp only [step] at hstep
    split at hstep
    · rename_i ch c he
      have hs : s' = (if s.chans ch = none then (s.delete k).put ch (some (.failure c))
          else s.delete k) := by
        rw [← Option.some.inj (hstep.symm.trans (apply_ite some ..).symm)]
      rw [hs]
      split <;> exact .inl rfl
    · cases hstep
  | deliver n =>
    simp only [step] at hstep
    split at hstep
    · obtain ⟨-, rfl⟩ := Machine.of_guard hstep
      exact .inl rfl
    · cases hstep
  | get c pooled =>
    simp only [step] at hstep
    split at hstep
    · rename_i ch habs
      obtain ⟨-, rfl⟩ := Machine.of_guard hstep
      exact .inr ⟨c, .got ch, rfl, by simp [Moves, habs, Phase.early, Phase.registered]⟩
    · rename_i habs
      cases hstep
      exact .inr ⟨c, .got s.made, rfl, by simp [Moves, habs, Phase.early, Phase.registered]⟩
    · cases hstep
  | stop c why =>
    simp only [step] at hstep
    split at hstep
    · rename_i ch hc
      cases hstep
      refine .inr ⟨c, why.phase ch, rfl, ?_⟩
      cases why <;> simp [Moves, hc, Phase.early, Phase.registered, Stop.phase]
    · cases hstep
  | sent c ok =>
    simp only [step] at hstep
    split at hstep
    · rename_i ch hc
      cases hstep
      refine .inr ⟨c, _, rfl, ?_⟩
      cases ok <;> simp [Moves, hc, Phase.early, Phase.registered]
    · cases hstep
  | register c | recycle c | cancelPending c queued =>
    simp only [step] at hstep
    split at hstep
    · rename_i hc
      cases hstep
      exact .inr ⟨c, _, rfl, by simp [Moves, hc, Phase.early, Phase.registered]⟩
    · cases hstep
  | receive c =>
    simp only [step] at hstep
    split at hstep
    · rename_i ch hc
      split at hstep
      · cases hstep
        exact .inr ⟨c, _, rfl, by simp [Moves, hc, Phase.early, Phase.registered]⟩
      · cases hstep
    · cases hstep
  | unregister c =>
    simp only [step] at hstep
    split at hstep
    · rename_i ch e hc
      split at hstep
      all_goals
        cases hstep
        exact .inr ⟨c, _, rfl, by simp [Moves, hc, Phase.early, Phase.registered]⟩
    · cases hstep
  | abandon c =>
    simp only [step] at hstep
    split at hstep
    · rename_i ch canceled e hc
      split at hstep
      · cases hstep
        refine .inr ⟨c, _, rfl, ?_⟩
        cases canceled <;> simp [Moves, hc, Phase.early, Phase.registered]
      · cases hstep
        exact .inr ⟨c, _, rfl, by simp [Moves, hc, Phase.early, Phase.registered]⟩
    · cases hstep

theorem step_returned (hstep : step key hdr s a = some s') {o : Outcome ι ν}
    (hc : s.calls c = .returned o) : s'.calls c = .returned o := by
  rcases step_calls hstep with hsame | ⟨d, p, hcalls, hlive, -⟩
  · rw [hsame, hc]
  · have hne : c ≠ d := by
      rintro rfl
      exact hlive o hc
    rw [hcalls, Function.update_of_ne hne, hc]

theorem step_early (hstep : step key hdr s a = some s') (hc : (s.calls c).early = false) :
    (s'.calls c).early = false := by
  rcases step_calls hstep with hsame | ⟨d, p, hcalls, -, hearly, -⟩
  · rw [hsame, hc]
  · rw [hcalls]
    by_cases hcd : c = d
    · subst hcd
      rw [Function.update_self]
      by_contra hp
      simp [hearly (by simpa using hp)] at hc
    · rw [Function.update_of_ne hcd, hc]

/-! ## A call that waits is not forgotten -/

variable (key) in
/-- What `c` waits for on `ch`. In the last case another call with its key has taken the entry. -/
def Awaited (s : Process ι ν) (c : ι) (ch : Nat) : Prop :=
  s.pendingCalls (key c) = some (ch, c) ∨ (∃ n, s.responses n = .flying ch c) ∨
    (∃ r, s.chans ch = some r ∧ r.dest = c) ∨ ∃ d, d ≠ c ∧ key d = key c ∧ (s.calls d).early = false

variable (key) in
def AllAwaited (s : Process ι ν) : Prop :=
  ∀ c ch, (s.calls c).registered = some ch → Awaited key s c ch

theorem Awaited.step (h : Awaited key s c ch) (hstep : step key hdr s a = some s')
    (hentry : s.pendingCalls (key c) = some (ch, c) → Awaited key s' c ch)
    (hflying : ∀ n, s.responses n = .flying ch c → Awaited key s' c ch)
    (hfull : ∀ r, s.chans ch = some r → r.dest = c → Awaited key s' c ch) : Awaited key s' c ch := by
  rcases h with he | ⟨n, hn⟩ | ⟨r, hr, hd⟩ | ⟨d, hne, hkey, hearly⟩
  · exact hentry he
  · exact hflying n hn
  · exact hfull r hr hd
  · exact .inr (.inr (.inr ⟨d, hne, hkey, step_early hstep hearly⟩))

theorem Awaited.same (h : Awaited key s c ch) (hstep : Calls.step key hdr s a = some s')
    (hentry : s'.pendingCalls (key c) = s.pendingCalls (key c)) (hresp : s'.responses = s.responses)
    (hchan : s'.chans ch = s.chans ch) : Awaited key s' c ch :=
  h.step hstep (fun he => .inl (hentry.trans he)) (fun n hn => .inr (.inl ⟨n, by rw [hresp, hn]⟩))
    fun r hr hd => .inr (.inr (.inl ⟨r, hchan.trans hr, hd⟩))

theorem step_registered {d : ι} (hstep : step key hdr s a = some s') (hne : a ≠ .register d)
    (hreg : (s'.calls d).registered = some ch) : (s.calls d).registered = some ch := by
  rcases step_calls hstep with hsame | ⟨c, p, hcalls, -, -, hmove⟩
  · rwa [hsame] at hreg
  · rw [hcalls] at hreg
    by_cases hdc : d = c
    · subst hdc
      rw [Function.update_self] at hreg
      exact (hmove ch hreg).resolve_right hne
    · rwa [Function.update_of_ne hdc] at hreg

omit [DecidableEq ι] [DecidableEq ν] in
theorem Inv.entry_owner (h : Inv key hdr s) {k : CallKey} {d : ι}
    (he : s.pendingCalls k = some (ch, d)) (hholds : Holds s ch c) : c = d :=
  ((h.roles ch).of_entry he).2.2.2.2 c hholds

theorem AllAwaited.register (h : AllAwaited key s)
    (hstep : step key hdr s (.register c) = some s') : AllAwaited key s' := by
  intro d ch' hreg
  have hsame := hstep
  simp only [step] at hsame
  split at hsame
  · rename_i ch hc
    cases hsame
    by_cases hdc : d = c
    · subst hdc
      simp only [Process.setCall, Function.update_self, Phase.registered, Option.some.injEq] at hreg
      subst hreg
      exact .inl (Function.update_self ..)
    · have hold : Awaited key s d ch' := h d ch' (by
        simpa [Process.setCall, Function.update_of_ne hdc] using hreg)
      by_cases hkey : key d = key c
      · -- the new entry takes the place of the old one
        exact .inr (.inr (.inr ⟨c, Ne.symm hdc, hkey.symm, by simp [Process.setCall, Phase.early]⟩))
      · exact hold.same hstep (by simp [Function.update_of_ne hkey]) rfl rfl
  · cases hsame

theorem AllAwaited.remove (h : AllAwaited key s) (hinv : Inv key hdr s)
    (hstep : step key hdr s a = some s') (hne : ∀ d, a ≠ .register d) (hholds : Holds s ch c)
    (hentries : s'.pendingCalls = if (s.pendingCalls (key c)).map Prod.fst = some ch then
      Function.update s.pendingCalls (key c) none else s.pendingCalls)
    (hgone : (s'.calls c).registered = none)
    (hresp : s'.responses = s.responses) (hchans : s'.chans = s.chans) : AllAwaited key s' := by
  intro d ch' hreg
  have hdc : d ≠ c := by
    rintro rfl
    simp [hgone] at hreg
  have hold := h d ch' (step_registered hstep (hne d) hreg)
  refine hold.step hstep (fun he => .inl ?_) (fun n hn => .inr (.inl ⟨n, by rw [hresp, hn]⟩))
    fun r hr hd => .inr (.inr (.inl ⟨r, by rw [hchans, hr], hd⟩))
  rw [hentries]
  split
  · rename_i hown
    obtain ⟨⟨_, c'⟩, hc', rfl⟩ := Option.map_eq_some_iff.mp hown
    obtain rfl := hinv.entry_owner hc' hholds
    have hkey : key d ≠ key c := by
      intro hkey
      rw [hkey, hc'] at he
      simp only [Option.some.injEq, Prod.mk.injEq] at he
      exact hdc he.2.symm
    rw [Function.update_of_ne hkey, he]
  · exact he

theorem AllAwaited.receive (h : AllAwaited key s) (hinv : Inv key hdr s)
    (hstep : step key hdr s (.receive c) = some s') : AllAwaited key s' := by
  intro d ch' hreg
  have hold := h d ch' (step_registered hstep nofun hreg)
  simp only [step] at hstep
  split at hstep
  · rename_i ch hc
    split at hstep
    · rename_i r hr
      have hs : Calls.step key hdr s (.receive c) = some s' := by
        simp only [step, hc, hr]
        exact hstep
      cases hstep
      have hdc : d ≠ c := by
        rintro rfl
        simp [Process.setCall, Phase.registered] at hreg
      have hch : ch' ≠ ch := by
        rintro rfl
        have hholds : Holds s ch' d := by
          refine holds_of_registered ?_
          simpa [Process.setCall, Process.put, Function.update_of_ne hdc] using hreg
        have hone := ((hinv.roles ch').of_content hr).2.2
        exact hdc ((hone d hholds).1.trans (hone c (by rw [Holds, hc]; rfl)).1.symm)
      refine hold.same hs rfl rfl ?_
      · simp [Process.setCall, Process.put, Function.update_of_ne hch]
    · cases hstep
  · cases hstep

theorem AllAwaited.routeResponse (h : AllAwaited key s) {n : ν}
    (hstep : step key hdr s (.routeResponse n) = some s') : AllAwaited key s' := by
  intro d ch' hreg
  have hold := h d ch' (step_registered hstep nofun hreg)
  have hother : s.responses n = .absent → ∀ m, s.responses m = .flying ch' d →
      ∀ j, Function.update s.responses n j m = .flying ch' d := by
    intro hn m hm j
    have hmn : m ≠ n := by
      rintro rfl
      simp [hn] at hm
    rw [Function.update_of_ne hmn, hm]
  have hs := hstep
  simp only [Calls.step] at hs
  split at hs
  · rename_i ch c hn he
    cases hs
    refine hold.step hstep (fun hown => ?_) (fun m hm => .inr (.inl ⟨m, hother hn m hm _⟩))
      fun r hr hd => .inr (.inr (.inl ⟨r, hr, hd⟩))
    by_cases hkey : key d = hdr n
    · rw [hkey, he] at hown
      obtain ⟨rfl, rfl⟩ := Prod.mk.inj (Option.some.inj hown)
      exact .inr (.inl ⟨n, Function.update_self ..⟩)
    · exact .inl (by simpa [Process.delete, Function.update_of_ne hkey] using hown)
  · rename_i hn he
    cases hs
    exact hold.step hstep (fun hown => .inl hown) (fun m hm => .inr (.inl ⟨m, hother hn m hm _⟩))
      fun r hr hd => .inr (.inr (.inl ⟨r, hr, hd⟩))
  · cases hs

theorem AllAwaited.deliver (h : AllAwaited key s) {n : ν}
    (hstep : step key hdr s (.deliver n) = some s') : AllAwaited key s' := by
  intro d ch' hreg
  have hold := h d ch' (step_registered hstep nofun hreg)
  have hs := hstep
  simp only [Calls.step] at hs
  split at hs
  · rename_i ch c hn
    obtain ⟨hnone, rfl⟩ := Machine.of_guard hs
    refine hold.step hstep (fun he => .inl he) (fun m hm => ?_) fun r hr hd => ?_
    · by_cases hmn : m = n
      · subst hmn
        obtain ⟨rfl, rfl⟩ := Journey.flying.inj (hn.symm.trans hm)
        exact .inr (.inr (.inl ⟨.response m c, by simp [Process.put], rfl⟩))
      · exact .inr (.inl ⟨m, by simpa [Function.update_of_ne hmn] using hm⟩)
    · have hch : ch' ≠ ch := by
        rintro rfl
        simp [hnone] at hr
      exact .inr (.inr (.inl ⟨r, by simpa [Process.put, Function.update_of_ne hch] using hr, hd⟩))
  · cases hs

theorem AllAwaited.failPending (h : AllAwaited key s) (hinv : Inv key hdr s) {k : CallKey}
    (hstep : step key hdr s (.failPending k) = some s') : AllAwaited key s' := by
  intro d ch' hreg
  have hold := h d ch' (step_registered hstep nofun hreg)
  have hs := hstep
  simp only [Calls.step] at hs
  split at hs
  · rename_i ch c he
    have hnone := (hinv.roles.fail he).1
    rw [if_pos hnone] at hs
    cases hs
    refine hold.step hstep (fun hown => ?_) (fun m hm => .inr (.inl ⟨m, hm⟩)) fun r hr hd => ?_
    · by_cases hkey : key d = k
      · rw [hkey, he] at hown
        obtain ⟨rfl, rfl⟩ := Prod.mk.inj (Option.some.inj hown)
        exact .inr (.inr (.inl ⟨.failure c, by simp [Process.put], rfl⟩))
      · exact .inl (by simpa [Process.put, Process.delete, Function.update_of_ne hkey] using hown)
    · have hch : ch' ≠ ch := by
        rintro rfl
        simp [hnone] at hr
      exact .inr (.inr (.inl ⟨r, by
        simpa [Process.put, Process.delete, Function.update_of_ne hch] using hr, hd⟩))
  · cases hs

theorem AllAwaited.step (h : AllAwaited key s) (hinv : Inv key hdr s)
    (hstep : step key hdr s a = some s') : AllAwaited key s' := by
  have hsame : (∀ d, a ≠ .register d) → s'.pendingCalls = s.pendingCalls →
      s'.responses = s.responses → s'.chans = s.chans → AllAwaited key s' :=
    fun hne hentries hresp hchans d ch' hreg =>
      (h d ch' (step_registered hstep (hne d) hreg)).same hstep (by rw [hentries]) hresp (by rw [hchans])
  have hs := hstep
  cases a with
  | register c => exact h.register hstep
  | receive c => exact h.receive hinv hstep
  | routeResponse n => exact h.routeResponse hstep
  | deliver n => exact h.deliver hstep
  | failPending k => exact h.failPending hinv hstep
  | collect ch =>
    cases hs
    exact hsame (by simp) rfl rfl rfl
  | get c pooled =>
    simp only [Calls.step] at hs
    split at hs
    · obtain ⟨-, rfl⟩ := Machine.of_guard hs
      exact hsame (by simp) rfl rfl rfl
    · cases hs
      exact hsame (by simp) rfl rfl rfl
    · cases hs
  | sent c ok | recycle c | stop c why | cancelPending c queued =>
    simp only [Calls.step] at hs
    split at hs
    · cases hs
      exact hsame (by simp) rfl rfl rfl
    · cases hs
  | unregister c =>
    simp only [Calls.step] at hs
    split at hs
    · rename_i ch e hc
      have hholds : Holds s ch c := by rw [Holds, hc]; rfl
      split at hs
      · rename_i hmine
        cases hs
        exact h.remove hinv hstep (by simp) hholds (if_pos hmine).symm
          (by simp [Process.setCall, Phase.registered]) rfl rfl
      · rename_i hnone
        cases hs
        exact h.remove hinv hstep (by simp) hholds (if_neg hnone).symm
          (by simp [Process.setCall, Phase.registered]) rfl rfl
    · cases hs
  | abandon c =>
    simp only [Calls.step] at hs
    split at hs
    · rename_i ch canceled e hc
      have hholds : Holds s ch c := by rw [Holds, hc]; rfl
      split at hs
      · rename_i hmine
        cases hs
        exact h.remove hinv hstep (by simp) hholds (if_pos hmine).symm
          (by cases canceled <;> simp [Process.setCall, Phase.registered]) rfl rfl
      · rename_i hnone
        cases hs
        exact h.remove hinv hstep (by simp) hholds (if_neg hnone).symm
          (by simp [Process.setCall, Phase.registered]) rfl rfl
    · cases hs

omit [DecidableEq ι] [DecidableEq ν] in
theorem Inv.init : Inv key hdr (.fresh ι ν) := ⟨Roles.init, Facts.init⟩

theorem reachable_inv (h : (machine key hdr).Reachable s) : Inv key hdr s ∧ AllAwaited key s := by
  refine h.invariant (I := fun s => Inv key hdr s ∧ AllAwaited key s) ⟨Inv.init, fun _ _ h => by cases h⟩ ?_
  intro s a s' _ hinv _ hstep
  exact ⟨hinv.1.step hstep, hinv.2.step hinv.1 hstep⟩

/-! ## A call can always return -/

def Act.caller : Act ι ν → Option ι
  | .get c _ | .register c | .sent c _ | .unregister c | .recycle c | .receive c | .stop c _
  | .abandon c | .cancelPending c _ => some c
  | .collect _ | .routeResponse _ | .deliver _ | .failPending _ => none

variable (key hdr) in
/-- The call returns by steps of its own, without the peer and the other calls. -/
def CanReturn (s : Process ι ν) (c : ι) : Prop :=
  ∃ as s' o, (∀ a ∈ as, Act.caller a = some c) ∧ (machine key hdr).runFrom s as = some s' ∧
    s'.calls c = .returned o

theorem CanReturn.of_step (a : Act ι ν) (hcaller : a.caller = some c)
    (hstep : step key hdr s a = some s') (h : CanReturn key hdr s' c) : CanReturn key hdr s c := by
  obtain ⟨as, s'', o, hcallers, hrun, ho⟩ := h
  refine ⟨a :: as, s'', o, fun b hb => ?_, ?_, ho⟩
  · rcases List.mem_cons.mp hb with rfl | hb
    · exact hcaller
    · exact hcallers b hb
  · rw [Machine.runFrom_cons, show (machine key hdr).step s a = some s' from hstep]
    exact hrun

theorem canReturn_returned {o : Outcome ι ν} (hc : s.calls c = .returned o) : CanReturn key hdr s c :=
  ⟨[], s, o, by simp, rfl, hc⟩

theorem canReturn_putting (ch : Nat) {o : Outcome ι ν} (hc : s.calls c = .putting ch o) :
    CanReturn key hdr s c := by
  refine .of_step (.recycle c) rfl (by simp only [step, hc]; rfl) (canReturn_returned (o := o) ?_)
  simp [Process.setCall]

theorem canReturn_unregistering {e : Err} (hc : s.calls c = .unregistering ch e) :
    CanReturn key hdr s c := by
  by_cases hmine : (s.pendingCalls (key c)).map Prod.fst = some ch
  · refine .of_step (.unregister c) rfl (by simp only [step, hc, if_pos hmine]; rfl)
      (canReturn_putting ch (o := .error e) ?_)
    simp [Process.setCall]
  · refine .of_step (.unregister c) rfl (by simp only [step, hc, if_neg hmine]; rfl)
      (canReturn_returned (o := .error e) ?_)
    simp [Process.setCall]

theorem canReturn_canceling {e : Err} (hc : s.calls c = .canceling e) : CanReturn key hdr s c := by
  refine .of_step (.cancelPending c true) rfl (by simp only [step, hc]; rfl)
    (canReturn_returned (o := .error e) ?_)
  simp [Process.setCall]

theorem canReturn_abandoning (ch : Nat) (canceled : Bool) {e : Err}
    (hc : s.calls c = .abandoning ch canceled e) : CanReturn key hdr s c := by
  by_cases hmine : (s.pendingCalls (key c)).map Prod.fst = some ch
  · refine .of_step (.abandon c) rfl (by simp only [step, hc, if_pos hmine]; rfl) ?_
    cases canceled with
    | true => exact canReturn_canceling (e := e) (by simp [Process.setCall])
    | false => exact canReturn_returned (o := .error e) (by simp [Process.setCall])
  · refine .of_step (.abandon c) rfl (by simp only [step, hc, if_neg hmine]; rfl)
      (canReturn_returned (o := .error e) ?_)
    simp [Process.setCall]

theorem canReturn_waiting (ch : Nat) (hc : s.calls c = .waiting ch) : CanReturn key hdr s c := by
  refine .of_step (.stop c .contextDone) rfl (by simp only [step, hc]; rfl)
    (canReturn_abandoning ch true (e := .context) ?_)
  simp [Process.setCall, Stop.phase]

theorem canReturn_sending (ch : Nat) (hc : s.calls c = .sending ch) : CanReturn key hdr s c := by
  refine .of_step (.sent c true) rfl (by simp only [step, hc]; rfl) (canReturn_waiting ch ?_)
  simp [Process.setCall]

theorem canReturn (hc : s.calls c ≠ .absent) : CanReturn key hdr s c := by
  cases hp : s.calls c with
  | absent => exact absurd hp hc
  | got ch =>
    refine .of_step (.register c) rfl (by simp only [step, hp]; rfl) (canReturn_sending ch ?_)
    simp [Process.setCall]
  | sending ch => exact canReturn_sending ch hp
  | waiting ch => exact canReturn_waiting ch hp
  | unregistering ch e => exact canReturn_unregistering hp
  | putting ch o => exact canReturn_putting ch hp
  | abandoning ch canceled e => exact canReturn_abandoning ch canceled hp
  | canceling e => exact canReturn_canceling hp
  | returned o => exact canReturn_returned hp

/-! ## The calls of a process -/

variable (key hdr) in
/-- What holds of the calls in every state of a process. -/
structure CallsOk (s : Process ι ν) : Prop where
  final : ∀ a s' c o, step key hdr s a = some s' → s.calls c = .returned o → s'.calls c = .returned o
  returns : ∀ c, s.calls c ≠ .absent → CanReturn key hdr s c
  awaited : ∀ c ch, s.calls c = .waiting ch → Awaited key s c ch
  own : ∀ c r, s.calls c = .returned (.result r) → r.dest = c
  response : ∀ c n d, s.calls c = .returned (.result (.response n d)) → hdr n = key c
  once : ∀ c c' n d d', s.calls c = .returned (.result (.response n d)) →
    s.calls c' = .returned (.result (.response n d')) → c = c'
  pooled : ∀ ch ∈ s.pendingPool, s.pendingPool.count ch = 1 ∧ s.chans ch = none ∧
    (∀ k c, s.pendingCalls k ≠ some (ch, c)) ∧ (∀ n c, s.responses n ≠ .flying ch c) ∧
    ∀ c, (s.calls c).holds ≠ some ch
  canceled : ∀ c ∈ s.canceled, ∀ n, (s.responses n).dest ≠ some c

omit [DecidableEq ι] [DecidableEq ν] in
theorem Roles.pooled (h : Roles key hdr s) (hmem : ch ∈ s.pendingPool) :
    At s ch none none none 1 ∧ ∀ c, ¬ Holds s ch c := by
  have hpos : 0 < s.pendingPool.count ch := List.count_pos_iff.mpr hmem
  cases h ch with
  | pooled old at_ free => exact ⟨at_, free⟩
  | unmade new at_ free | quiet old at_ one | registered k c old at_ own phase one
  | flying n c old at_ own one | full r old at_ one =>
    have hcount := at_.count
    omega

/-- A call returns at most once, and with its own result. A channel in the pool is empty, and no
entry, response or call has it. -/
theorem calls_ok (h : (machine key hdr).Reachable s) : CallsOk key hdr s := by
  obtain ⟨hinv, hawaited⟩ := reachable_inv h
  have hresult : ∀ c r, s.calls c = .returned (.result r) → r.dest = c ∧ Genuine key hdr s r := by
    intro c r hc
    exact hinv.facts.outcome c r (by rw [hc]; rfl)
  refine ⟨fun a s' c o hstep => step_returned hstep, fun c => canReturn, fun c ch hc => ?_,
    fun c r hc => (hresult c r hc).1, fun c n d hc => ?_, fun c c' n d d' hc hc' => ?_,
    fun ch hmem => ?_, fun c hc => (hinv.facts.canceled c (.inl hc)).1⟩
  · exact hawaited c ch (by rw [hc]; rfl)
  · obtain ⟨rfl, hgen⟩ := hresult c _ hc
    exact (hgen n d rfl).1
  · obtain ⟨rfl, hgen⟩ := hresult c _ hc
    obtain ⟨rfl, hgen'⟩ := hresult c' _ hc'
    exact Journey.delivered.inj ((hgen n d rfl).2.symm.trans (hgen' n d' rfl).2)
  · obtain ⟨hat, hfree⟩ := hinv.roles.pooled hmem
    refine ⟨hat.count, hat.content, fun k c he => ?_, fun n c hn => ?_, hfree⟩
    · cases (hat.entries k c).mp he
    · cases (hat.flyers n c).mp hn

def twoCalls : Bool → CallKey
  | false => ⟨0, 0, 1⟩
  | true => ⟨1, 0, 1⟩

theorem calls_ok_recycled : ∃ s : Process Bool Bool,
    (machine twoCalls twoCalls).Reachable s ∧
      (s.calls false = .returned (.result (.response false false)) ∧
        s.calls true = .returned (.error .context) ∧ s.canceled = [true] ∧
        s.responses true = .dropped) ∧ CallsOk twoCalls twoCalls s :=
  Machine.exists_reachable_and
    [.get false none, .register false, .sent false true, .routeResponse false, .deliver false,
      .receive false, .recycle false, .get true (some 0), .register true, .sent true true,
      .stop true .contextDone, .abandon true, .cancelPending true true, .routeResponse true]
    (by decide +kernel) fun _ hs _ => calls_ok hs

end Hqq.Calls
