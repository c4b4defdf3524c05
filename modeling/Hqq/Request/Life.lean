import Hqq.Request.Context

/-!
# One request after the other

A context goes back to the pool when nobody uses it any more.
-/

namespace Hqq.RequestCtx

variable {C H : Type} {s s' : State C H} {w : Who C H} {p : Pc}

/-! ## Where everybody is -/

/-- Inside of a call of `Done` or `Err`. -/
def Pc.inCall : Pc → Bool
  | .doing (.returned _) | .erring (.returned ..) => false
  | .doing _ | .erring _ => true
  | _ => false

/-- The timer of a request may be armed or run only here. -/
def Pc.timed : Pc → Bool
  | .handling | .endTimer | .endAwait => true
  | _ => false

def Pc.unregistered : Pc → Bool
  | .idle | .recycle | .retired => true
  | _ => false

def Cancels (s : State C H) (w : Who C H) : Then → Prop
  | .unlock => s.inflightMu = some w ∧ s.registered = true
  | .add => w = .timer
  | .refuse | .finish => w = .server

/-- What a goroutine has where it is: the lock of the link, or a call that is counted. -/
def Has (s : State C H) (w : Who C H) : Pc → Prop
  | .canceling k _ => Cancels s w k
  | .cancelLook _ | .cancelUnlock => s.inflightMu = some w
  | p => p.inCall = true → ∃ h, w = .handler h ∧ h ∈ s.inCall

structure Life (s : State C H) : Prop where
  has : ∀ w, Has s w (s.pc w)
  timer : s.pc .timer ≠ .idle →
    (s.pc .server).timed = true ∧ s.fires = s.armedFires ∧ s.timerArmed = true
  quiet : s.inCall ≠ [] → s.pc .server = .handling ∨ s.ctx.made = true
  registered : s.registered = true → (s.pc .server).unregistered = false

/-- `w` may go on to `p`: what `Life` says of it there. -/
structure May (s : State C H) (w : Who C H) (p : Pc) : Prop where
  has : Has s w p
  timer : w = .timer → p ≠ .idle →
    (s.pc .server).timed = true ∧ s.fires = s.armedFires ∧ s.timerArmed = true
  timed : w = .server → s.pc .timer ≠ .idle → p.timed = true
  quiet : w = .server → s.inCall ≠ [] → p = .handling ∨ s.ctx.made = true
  registered : w = .server → s.registered = true → p.unregistered = false

theorem May.handler {g : H} (h : Has s (.handler g) p) : May s (.handler g) p :=
  ⟨h, nofun, nofun, nofun, nofun⟩

theorem May.canceler {i : C} (h : Has s (.cancel i) p) : May s (.cancel i) p :=
  ⟨h, nofun, nofun, nofun, nofun⟩

theorem May.ofTimer (h : Has s .timer p) (ht : p ≠ .idle →
    (s.pc .server).timed = true ∧ s.fires = s.armedFires ∧ s.timerArmed = true) : May s .timer p :=
  ⟨h, fun _ => ht, nofun, nofun, nofun⟩

theorem May.stop : May s .timer .idle := .ofTimer nofun fun h => absurd rfl h

theorem Has.inCall (h : Has s w p) (hin : p.inCall = true) : ∃ h, w = .handler h ∧ h ∈ s.inCall := by
  cases p with
  | canceling k pc | cancelLook code | cancelUnlock => cases hin
  | _ => exact h hin

theorem Has.mono (h : Has s w p)
    (l : s.inflightMu = some w → s'.inflightMu = some w)
    (r : s.inflightMu = some w → s.registered = true → s'.registered = true)
    (i : ∀ h, w = .handler h → h ∈ s.inCall → h ∈ s'.inCall) :
    Has s' w p := by
  cases p with
  | canceling k pc =>
    cases k with
    | unlock => exact ⟨l h.1, r h.1 h.2⟩
    | _ => exact h
  | cancelLook code | cancelUnlock => exact l h
  | _ =>
    intro hin
    obtain ⟨g, hg, hmem⟩ := h hin
    exact ⟨g, hg, i g hg hmem⟩

/-- What `Life` reads of a state, apart from the context. -/
def State.life (s : State C H) :=
  (s.pc, s.inflightMu, s.registered, s.fires, s.armedFires, s.timerArmed, s.inCall)

theorem Life.congr (hl : Life s) (h : s'.life = s.life)
    (m : s.ctx.made = true → s'.ctx.made = true) : Life s' := by
  simp only [State.life, Prod.mk.injEq] at h
  obtain ⟨c, l, r, f, a, t, i⟩ := h
  refine ⟨fun w => ?_, fun h => ?_, fun h => ?_, fun h => ?_⟩
  · rw [c]
    exact (hl.has w).mono l.trans (fun _ => r.trans) fun h _ => i ▸ id
  · rw [c, f, a, t]
    exact hl.timer (c ▸ h)
  · rw [c]
    exact (hl.quiet (i ▸ h)).imp_right m
  · rw [c]
    exact hl.registered (r ▸ h)

theorem Life.timer_idle (hl : Life s) (h : (s.pc .server).timed = false) : s.pc .timer = .idle := by
  by_contra hne
  rw [(hl.timer hne).1] at h
  cases h

theorem May.cancel (hl : Life s) {k : Then} {pc : Canceling} (hpc : s.pc w = .canceling k pc)
    (hp : (∃ pc', p = .canceling k pc') ∨ p = State.after k) : May s w p := by
  have hhas : Has s w (.canceling k pc) := hpc ▸ hl.has w
  have hserver : w = .server → s.pc .server = .canceling k pc := fun h => h ▸ hpc
  have hidle : w = .server → s.pc .timer = .idle := fun h => hl.timer_idle (by rw [hserver h]; rfl)
  refine ⟨?_, fun h _ => hl.timer (by rw [← h, hpc]; simp), fun h hne => absurd (hidle h) hne,
    fun h hin => .inr ((hl.quiet hin).resolve_left (by rw [hserver h]; simp)), fun _ _ => ?_⟩
  · rcases hp with ⟨pc', rfl⟩ | rfl
    · exact hhas
    · cases k with
      | unlock => exact hhas.1
      | _ => rintro ⟨⟩
  · rcases hp with ⟨pc', rfl⟩ | rfl
    · rfl
    · cases k <;> rfl

def Pc.calls : Pc → Bool
  | .doing _ | .erring _ => true
  | _ => false

theorem Has.call {g : H} (hcall : p.calls = true) (hp : p.inCall = true → g ∈ s.inCall) :
    Has s (.handler g) p := by
  cases p with
  | doing pc | erring pc => exact fun hin => ⟨g, rfl, hp hin⟩
  | _ => cases hcall

theorem May.serve (hl : Life s) {p0 : Pc} (hpc : s.pc .server = p0) (h : p0 ≠ .handling := by simp)
    (v : Has s .server p := by rintro ⟨⟩)
    (t : p0.timed = true → p.timed = true ∨ s.pc .timer = .idle := by simp [Pc.timed])
    (r : s.registered = true → p.unregistered = false := by exact fun _ => rfl) :
    May s .server p where
  has := v
  timer := nofun
  timed _ hne := (t (hpc ▸ (hl.timer hne).1)).resolve_right hne
  quiet _ hin := .inr ((hl.quiet hin).resolve_left (by rwa [hpc]))
  registered _ := r

theorem Life.timed (hl : Life s) (hidle : s.pc .timer = .idle) (armedFires : Nat) (timerArmed : Bool) :
    Life { s with armedFires := armedFires, timerArmed := timerArmed } :=
  ⟨hl.has, fun h => absurd hidle h, hl.quiet, hl.registered⟩

theorem Life.unregister (hl : Life s) (hfree : s.inflightMu = none) :
    Life { s with registered := false } :=
  ⟨fun w => (hl.has w).mono id (fun h => by cases hfree.symm.trans h) fun _ _ => id, hl.timer, hl.quiet, by simp⟩

theorem Life.at_recycle (hl : Life s) (hpc : s.pc .server = .recycle) :
    s.registered = false ∧ s.pc .timer = .idle := by
  refine ⟨?_, hl.timer_idle (by rw [hpc]; rfl)⟩
  by_contra h
  have := hl.registered (by simpa using h)
  rw [hpc] at this
  cases this

theorem Life.recycled (hl : Life s) (hpc : s.pc .server = .recycle) : Life s.recycled := by
  obtain ⟨hreg, htimer⟩ := hl.at_recycle hpc
  refine ⟨fun w => ?_, fun h => absurd htimer h, fun h => absurd rfl h, fun h => ?_⟩
  · cases w with
    | server | handler h => rintro ⟨⟩
    | timer | cancel i =>
      -- they are where they were, and nobody of them is inside of a call
      exact (hl.has _).mono id (fun _ => id) nofun
  · cases hreg.symm.trans h

theorem Life.roles_recycled (hl : Life s) (hpc : s.pc .server = .recycle) (w : Who C H) :
    s.recycled.roles w = .out := by
  obtain ⟨hreg, htimer⟩ := hl.at_recycle hpc
  cases w with
  | server => rfl
  | handler h => rfl
  | timer =>
    change (s.pc .timer).role = .out
    rw [htimer]
    rfl
  | cancel i =>
    change (s.pc (.cancel i)).role = .out
    have hhas := hl.has (.cancel i)
    cases hi : s.pc (.cancel i) with
    | canceling k pc =>
      rw [hi] at hhas
      cases k with
      | unlock => cases hreg.symm.trans hhas.2
      | _ => cases hhas
    | doing pc =>
      by_cases hin : (Pc.doing pc).inCall = true
      · obtain ⟨g, hg, -⟩ := hhas.inCall (hi ▸ hin)
        cases hg
      · cases pc <;> first | rfl | exact absurd rfl hin
    | _ => rfl

theorem Channels.recycled (hc : Channels s) (hl : Life s) (hpc : s.pc .server = .recycle)
    (hmade : s.ctx.made = false) : Channels s.recycled :=
  ⟨hc.cell.renew hmade (hl.roles_recycled hpc), fun h => by cases h⟩

variable [DecidableEq C] [DecidableEq H]

theorem Life.goto (hl : Life s) (hp : May s w p) : Life (s.goto w p) := by
  have hpc : ∀ w', (s.goto w p).pc w' = if w' = w then p else s.pc w' := fun w' =>
    Function.update_apply ..
  refine ⟨fun w' => ?_, fun h => ?_, fun h => ?_, fun h => ?_⟩
  · rw [hpc]
    split
    · next heq =>
      subst heq
      exact hp.has
    · exact hl.has w'
  · rw [hpc] at h
    rw [hpc]
    split at h
    · next heq =>
      obtain ⟨htimed, hrest⟩ := hp.timer heq.symm h
      rw [if_neg (by rw [← heq]; simp)]
      exact ⟨htimed, hrest⟩
    · obtain ⟨htimed, hrest⟩ := hl.timer h
      refine ⟨?_, hrest⟩
      split
      · next heq => exact hp.timed heq.symm h
      · exact htimed
  · rw [hpc]
    split
    · next heq => exact hp.quiet heq.symm h
    · exact hl.quiet h
  · rw [hpc]
    split
    · next heq => exact hp.registered heq.symm h
    · exact hl.registered h

/-! ### Calls of `cancel` -/

theorem Life.cancel (hl : Life s) {k : Then} {pc : Canceling} (hpc : s.pc w = .canceling k pc)
    (hs : s.cancel w k pc = some s') : Life s' := by
  have hgo : ∀ pc', Life (s.goto w (.canceling k pc')) :=
    fun pc' => hl.goto (.cancel hl hpc (.inl ⟨pc', rfl⟩))
  have hafter : Life (s.goto w (State.after k)) := hl.goto (.cancel hl hpc (.inr rfl))
  cases pc with
  | swap code =>
    simp only [State.cancel] at hs
    split at hs <;> cases hs
    · exact (hgo .hasDone).congr rfl id
    · exact hafter
  | hasDone =>
    simp only [State.cancel] at hs
    split at hs <;> cases hs
    · exact hgo .lock
    · exact hafter.congr rfl id
  | lock =>
    simp only [State.cancel] at hs
    split at hs <;> cases hs
    exact (hgo .close).congr rfl id
  | close =>
    cases hs
    exact (hgo .unlock).congr rfl s.ctx.shut_made.trans
  | unlock =>
    cases hs
    exact hafter.congr rfl id

/-! ### Calls of the handler -/

theorem Life.inside (hl : Life s) {g : H} (hin : (s.pc (.handler g)).inCall = true)
    (hcall : p.calls = true) : Life (s.goto (.handler g) p) := by
  obtain ⟨g', heq, hmem⟩ := (hl.has _).inCall hin
  cases heq
  exact hl.goto (.handler (.call hcall fun _ => hmem))

theorem Life.leave (hl : Life s) {g : H} (hcall : p.calls = true) (hout : p.inCall = false) :
    Life { s.goto (.handler g) p with inCall := s.inCall.erase g } := by
  have hgo := hl.goto (.handler (g := g) (.call hcall (by simp [hout])))
  refine ⟨fun w => ?_, hgo.timer, fun hne => hgo.quiet fun hnil => hne ?_, hgo.registered⟩
  · by_cases hw : w = .handler g
    · subst hw
      change Has _ _ ((s.goto (.handler g) p).pc (.handler g))
      rw [State.goto_self]
      exact .call hcall (by simp [hout])
    · refine (hgo.has w).mono id (fun _ => id) fun h hwh => (List.mem_erase_of_ne ?_).mpr
      rintro rfl
      exact hw hwh
  · have hnil : s.inCall = [] := hnil
    change s.inCall.erase g = []
    rw [hnil]
    rfl

theorem Life.done (hl : Life s) {g : H} {pc : Doing} (hpc : s.pc (.handler g) = .doing pc)
    (hs : s.done g pc = some s') : Life s' := by
  cases pc with
  | load =>
    simp only [State.done] at hs
    split at hs <;> cases hs
    · exact (hl.leave (p := .doing (.returned .closedDone)) rfl rfl).congr rfl id
    · exact hl.inside (by rw [hpc]; rfl) rfl
  | lock =>
    simp only [State.done] at hs
    split at hs <;> cases hs
    exact (hl.inside (p := .doing .create) (by rw [hpc]; rfl) rfl).congr rfl id
  | create =>
    cases hs
    exact (hl.inside (p := .doing .reread) (by rw [hpc]; rfl) rfl).congr rfl fun _ => rfl
  | reread =>
    have hgo := hl.inside (p := .doing .unlock) (by rw [hpc]; rfl) rfl
    simp only [State.done] at hs
    split at hs <;> cases hs
    · exact hgo.congr rfl s.ctx.shut_made.trans
    · exact hgo
  | unlock =>
    cases hs
    exact (hl.leave (p := .doing (.returned .own)) rfl rfl).congr rfl id
  | returned ch => cases hs

theorem Life.err (hl : Life s) {g : H} {pc : Erring} (hpc : s.pc (.handler g) = .erring pc)
    (hs : s.err g pc = some s') : Life s' := by
  cases pc with
  | load before =>
    simp only [State.err] at hs
    split at hs <;> cases hs
    · exact (hl.leave (p := .erring (.returned before _)) rfl rfl).congr rfl id
    · exact hl.inside (by rw [hpc]; rfl) rfl
  | parent before =>
    cases hs
    exact (hl.leave (p := .erring (.returned before _)) rfl rfl).congr rfl id
  | returned before e => cases hs

/-! ### The `Serve` call and its timer -/

theorem Life.serve (hl : Life s) {b : Bool} {p0 : Pc} (hpc : s.pc .server = p0)
    (hs : s.serve b p0 = some s') : Life s' := by
  cases p0 with
  | queued =>
    cases hs
    exact hl.goto (.serve hl hpc)
  | beginLoad | beginStopped | beginParent =>
    cases hs
    split <;> exact hl.goto (.serve hl hpc)
  | beginBudget =>
    simp only [State.serve] at hs
    have hidle : s.pc .timer = .idle := hl.timer_idle (by rw [hpc]; rfl)
    split at hs
    · cases hs
      exact hl.goto (.serve hl hpc)
    split at hs
    · cases hs
      exact hl.goto (.serve hl hpc (v := rfl))
    · cases hs
      have harmed := hl.timed hidle s.fires true
      have hgo := harmed.goto (.serve (p := .handling) harmed hpc)
      exact hgo.goto (.ofTimer nofun fun _ => ⟨rfl, rfl, rfl⟩)
  | endTimer =>
    simp only [State.serve] at hs
    split at hs
    · next hoff =>
      cases hs
      refine hl.goto (.serve hl hpc (t := fun _ => .inr ?_))
      by_contra hne
      rw [(hl.timer hne).2.2] at hoff
      cases hoff
    split at hs
    · cases hs
      have hstop : Life (s.goto .timer .idle) := hl.goto .stop
      have hidle : (s.goto .timer .idle).pc .timer = .idle := State.goto_self ..
      have hpc' : (s.goto .timer .idle).pc .server = .endTimer := (State.goto_of_ne (by simp)).trans hpc
      have hgo := hstop.goto (.serve (p := .endLoad) hstop hpc' (t := fun _ => .inr hidle))
      exact hgo.timed ((State.goto_of_ne (by simp)).trans hidle) _ false
    · cases hs
      exact hl.goto (.serve hl hpc (t := fun _ => .inl rfl))
  | endAwait =>
    simp only [State.serve] at hs
    split at hs
    · cases hs
    · next hfired =>
      cases hs
      have hidle : s.pc .timer = .idle := by
        by_contra hne
        exact hfired (hl.timer hne).2.1
      have hgo := hl.goto (.serve (p := .endLoad) hl hpc (t := fun _ => .inr hidle))
      exact hgo.timed ((State.goto_of_ne (by simp)).trans hidle) _ false
  | endLoad =>
    cases hs
    exact hl.goto (.serve hl hpc (v := rfl))
  | endOwner =>
    cases hs
    exact hl.goto (.serve hl hpc)
  | unregister =>
    simp only [State.serve] at hs
    split at hs <;> cases hs
    next hfree =>
    have hout := hl.unregister hfree
    exact hout.goto (.serve hout hpc (r := fun h => by cases h))
  | recycle =>
    simp only [State.serve] at hs
    split at hs <;> cases hs
    · refine hl.goto (.serve hl hpc (r := fun h => ?_))
      have := hl.registered h
      rw [hpc] at this
      cases this
    · exact hl.recycled hpc
  | canceling k pc => exact hl.cancel hpc hs
  | _ => cases hs

theorem Life.onTimer (hl : Life s) {p0 : Pc} (hpc : s.pc .timer = p0) (hs : s.onTimer p0 = some s') :
    Life s' := by
  cases p0 with
  | canceling k pc => exact hl.cancel hpc hs
  | timerAdd =>
    cases hs
    have hgo : Life (s.goto .timer .idle) := hl.goto .stop
    exact ⟨hgo.has, fun h => absurd (s.goto_self .timer .idle) h,
      hgo.quiet, hgo.registered⟩
  | _ => cases hs

/-! ### Those who cancel -/

theorem Life.cancelRequests (hl : Life s) {i : C} {b : Bool} {p0 : Pc} (hpc : s.pc (.cancel i) = p0)
    (hs : s.cancelRequests i b p0 = some s') : Life s' := by
  cases p0 with
  | cancelLock code =>
    simp only [State.cancelRequests] at hs
    split at hs <;> cases hs
    next hfree =>
    have hlocked : Life { s with inflightMu := some (.cancel i) } :=
      by
      refine ⟨fun w => (hl.has w).mono (fun h => ?_) (fun _ => id) fun _ _ => id, hl.timer,
        hl.quiet, hl.registered⟩
      cases hfree.symm.trans h
    exact hlocked.goto (.canceler rfl)
  | cancelLook code =>
    cases hs
    have hmu : Has s (.cancel i) (.cancelLook code) := hpc ▸ hl.has (.cancel i)
    split
    · next hsel => exact hl.goto (.canceler ⟨hmu, ((Bool.and_eq_true _ _).mp hsel).1⟩)
    · exact hl.goto (.canceler hmu)
  | cancelUnlock =>
    cases hs
    have hmu : Has s (.cancel i) .cancelUnlock := hpc ▸ hl.has (.cancel i)
    have hgo : Life (s.goto (.cancel i) .idle) := hl.goto (.canceler nofun)
    refine ⟨fun w => ?_, hgo.timer, hgo.quiet, hgo.registered⟩
    by_cases hw : w = .cancel i
    · subst hw
      change Has _ _ ((s.goto (.cancel i) .idle).pc (.cancel i))
      rw [State.goto_self]
      rintro ⟨⟩
    · -- nobody else holds `inflightMu`
      exact (hgo.has w).mono (fun h => absurd (Option.some.inj (h.symm.trans hmu)) hw) (fun _ => id)
        fun _ _ => id
  | canceling k pc => exact hl.cancel hpc hs
  | _ => cases hs

theorem Channels.serve (hc : Channels s) (hl : Life s) {b : Bool} {p0 : Pc} (hpc : s.pc .server = p0)
    (hs : s.serve b p0 = some s') : Channels s' := by
  have hplain : ∀ p : Pc, p.role = .out → p0.role = .out → Channels (s.goto .server p) :=
    fun p hp h0 => hc.plain (by rw [hpc, h0, hp])
  cases p0 with
  | canceling k pc => exact hc.cancel hpc hs
  | recycle =>
    simp only [State.serve] at hs
    split at hs <;> cases hs
    · exact hplain .retired rfl rfl
    · next hmade => exact hc.recycled hl hpc (by simpa using hmade)
  | beginBudget =>
    simp only [State.serve] at hs
    have hidle : s.pc .timer = .idle := hl.timer_idle (by rw [hpc]; rfl)
    split at hs
    · cases hs
      exact hplain .handling rfl rfl
    split at hs <;> cases hs
    · exact hc.plain (by rw [hpc]; rfl)
    · have hgo : Channels ((s.goto .server .handling).goto .timer .armed) :=
        (hplain .handling rfl rfl).plain (by rw [State.goto_of_ne (by simp), hidle]; rfl)
      exact ⟨hgo.cell, hgo.closedDone⟩
  | endTimer =>
    simp only [State.serve] at hs
    split at hs
    · cases hs
      exact hplain .endLoad rfl rfl
    split at hs <;> cases hs
    · next harmed =>
      have hstop : Channels (s.goto .timer .idle) := hc.plain (by rw [harmed]; rfl)
      have hgo : Channels ((s.goto .timer .idle).goto .server .endLoad) :=
        hstop.plain (by rw [State.goto_of_ne (by simp), hpc]; rfl)
      exact ⟨hgo.cell, hgo.closedDone⟩
    · exact hplain .endAwait rfl rfl
  | endAwait =>
    simp only [State.serve] at hs
    split at hs <;> cases hs
    have hgo := hplain .endLoad rfl rfl
    exact ⟨hgo.cell, hgo.closedDone⟩
  | unregister =>
    simp only [State.serve] at hs
    split at hs <;> cases hs
    have hgo := hplain .recycle rfl rfl
    exact ⟨hgo.cell, hgo.closedDone⟩
  | beginLoad | beginStopped | beginParent =>
    cases hs
    split <;> exact hplain _ rfl rfl
  | endLoad =>
    cases hs
    exact hc.plain (by rw [hpc]; rfl)
  | queued | endOwner =>
    cases hs
    exact hplain _ rfl rfl
  | _ => cases hs

theorem Channels.onTimer (hc : Channels s) {p0 : Pc} (hpc : s.pc .timer = p0)
    (hs : s.onTimer p0 = some s') : Channels s' := by
  cases p0 with
  | canceling k pc => exact hc.cancel hpc hs
  | timerAdd =>
    cases hs
    have hgo : Channels (s.goto .timer .idle) := hc.plain (by rw [hpc]; rfl)
    exact ⟨hgo.cell, hgo.closedDone⟩
  | _ => cases hs

theorem Channels.cancelRequests (hc : Channels s) {i : C} {b : Bool} {p0 : Pc}
    (hpc : s.pc (.cancel i) = p0) (hs : s.cancelRequests i b p0 = some s') : Channels s' := by
  cases p0 with
  | canceling k pc => exact hc.cancel hpc hs
  | cancelLock code =>
    simp only [State.cancelRequests] at hs
    split at hs <;> cases hs
    have hgo : Channels (s.goto (.cancel i) (.cancelLook code)) := hc.plain (by rw [hpc]; rfl)
    exact ⟨hgo.cell, hgo.closedDone⟩
  | cancelLook code =>
    cases hs
    split <;> exact hc.plain (by rw [hpc]; rfl)
  | cancelUnlock =>
    cases hs
    have hgo : Channels (s.goto (.cancel i) .idle) := hc.plain (by rw [hpc]; rfl)
    exact ⟨hgo.cell, hgo.closedDone⟩
  | _ => cases hs

theorem Channels.err (hc : Channels s) {g : H} {pc : Erring} (hpc : s.pc (.handler g) = .erring pc)
    (hs : s.err g pc = some s') : Channels s' := by
  have hgo : ∀ pc', Channels (s.goto (.handler g) (.erring pc')) :=
    fun pc' => hc.plain (by rw [hpc]; rfl)
  cases pc with
  | load before =>
    simp only [State.err] at hs
    split at hs <;> cases hs
    · exact ⟨(hgo _).cell, hc.closedDone⟩
    · exact hgo _
  | parent before =>
    cases hs
    exact ⟨(hgo _).cell, hc.closedDone⟩
  | returned before e => cases hs

structure Inv (s : State C H) : Prop where
  life : Life s
  channels : Channels s

theorem Inv.next (hi : Inv s) {b : Bool} (hs : s.next b w = some s') : Inv s' := by
  cases w with
  | server => exact ⟨hi.life.serve rfl hs, hi.channels.serve hi.life rfl hs⟩
  | timer => exact ⟨hi.life.onTimer rfl hs, hi.channels.onTimer rfl hs⟩
  | cancel i => exact ⟨hi.life.cancelRequests rfl hs, hi.channels.cancelRequests rfl hs⟩
  | handler g =>
    simp only [State.next] at hs
    split at hs
    · next pc hpc => exact ⟨hi.life.done hpc hs, hi.channels.done hpc hs⟩
    · next pc hpc => exact ⟨hi.life.err hpc hs, hi.channels.err hpc hs⟩
    · cases hs

theorem Inv.begin (hi : Inv s) {g : H} (hmay : s.mayCall g = true) (hcall : p.calls = true)
    (hrole : p.role = .out) : Inv { s.goto (.handler g) p with inCall := g :: s.inCall } := by
  obtain ⟨hopen, hpc⟩ := (Bool.and_eq_true _ _).mp hmay
  have hlife : Life { s with inCall := g :: s.inCall } := by
    refine ⟨fun w => ?_, hi.life.timer, fun _ => by simpa using hopen, hi.life.registered⟩
    exact (hi.life.has w).mono id (fun _ => id) fun _ _ => List.mem_cons_of_mem _
  have hgo := hlife.goto (.handler (.call hcall fun _ => List.mem_cons_self))
  have hchan : Channels (s.goto (.handler g) p) := by
    refine hi.channels.plain ?_
    rw [hrole]
    split at hpc
    · next heq => rw [heq]; rfl
    · next heq => rw [heq]; rfl
    · next heq => rw [heq]; rfl
    · cases hpc
  exact ⟨hgo, hchan.cell, hchan.closedDone⟩

theorem Inv.of_step (hi : Inv s) {a : Act C H} (h : step s a = some s') : Inv s' := by
  cases a with
  | attach hasBudget parent stopped =>
    obtain ⟨⟨hpc, hfree⟩, h⟩ := Option.ite_none_right_eq_some.mp h
    cases h
    have hgo : Life (s.goto .server .queued) := hi.life.goto (.serve hi.life hpc)
    have hchan : Channels (s.goto .server .queued) := hi.channels.plain (by rw [hpc]; rfl)
    refine ⟨⟨fun w => (hgo.has w).mono id (fun _ _ => rfl) fun _ _ => id, hgo.timer, hgo.quiet, fun _ => ?_⟩,
      hchan.cell, hchan.closedDone⟩
    change ((s.goto .server .queued).pc .server).unregistered = false
    rw [State.goto_self]
    rfl
  | next w b => exact hi.next h
  | cancel i code =>
    obtain ⟨hpc, h⟩ := Option.ite_none_right_eq_some.mp h
    cases h
    exact ⟨hi.life.goto (.canceler nofun), hi.channels.plain (by rw [hpc]; rfl)⟩
  | fire =>
    obtain ⟨hpc, h⟩ := Option.ite_none_right_eq_some.mp h
    cases h
    exact ⟨hi.life.goto (.ofTimer rfl fun _ => hi.life.timer (by rw [hpc]; simp)),
      hi.channels.plain (by rw [hpc]; rfl)⟩
  | callErr g | callDone g =>
    obtain ⟨hmay, h⟩ := Option.ite_none_right_eq_some.mp h
    cases h
    exact hi.begin hmay rfl rfl
  | returns =>
    obtain ⟨⟨hpc, hquiet⟩, h⟩ := Option.ite_none_right_eq_some.mp h
    cases h
    have hmay : May s .server .endTimer :=
      ⟨nofun, nofun, fun _ _ => rfl, fun _ hin => .inr (hquiet.resolve_right hin), fun _ _ => rfl⟩
    exact ⟨hi.life.goto hmay, hi.channels.plain (by rw [hpc]; rfl)⟩
  | drop =>
    obtain ⟨hpc, h⟩ := Option.ite_none_right_eq_some.mp h
    cases h
    exact ⟨hi.life.goto (.serve hi.life hpc),
      hi.channels.plain (by rw [hpc]; rfl)⟩
  | endParent e =>
    obtain ⟨-, h⟩ := Option.ite_none_right_eq_some.mp h
    cases h
    exact ⟨hi.life.congr rfl id, hi.channels.cell, hi.channels.closedDone⟩
  | stop =>
    cases h
    exact ⟨hi.life.congr rfl id, hi.channels.cell, hi.channels.closedDone⟩

omit [DecidableEq C] [DecidableEq H] in
theorem Inv.start : Inv (start : State C H) where
  life := ⟨fun _ h => (by cases h), fun h => absurd rfl h, fun h => absurd rfl h, fun h => (by cases h)⟩
  channels := ⟨.fresh fun _ => rfl, fun h => (by cases h)⟩

end Hqq.RequestCtx
