import Hqq.Request.Life

/-!
# The contract of a request context

`Done` keeps the contract of `context.Context` in every run. `Err` does not.
-/

namespace Hqq.RequestCtx

variable {C H : Type} [DecidableEq C] [DecidableEq H] {s s' : State C H} {w : Who C H} {p : Pc}

/-! ## What `Err` returned -/

structure Errs (s : State C H) : Prop where
  errs : ∀ e ∈ s.errs, ∃ why, s.ctx.reason = some why ∧ why.err = e
  settled : s.errs ≠ [] → s.settled = true
  load : ∀ w before, s.pc w = .erring (.load before) → ∀ e ∈ before, e ∈ s.errs
  parent : ∀ w before, s.pc w = .erring (.parent before) → before = []
  returned : ∀ w before err, s.pc w = .erring (.returned before err) → ∀ e ∈ before, err = some e

structure Elsewhere (s s' : State C H) : Prop where
  reason : s.ctx.reason ≠ none → s'.ctx.reason = s.ctx.reason
  settled : s.settled = true → s'.settled = true
  errs : s'.errs = s.errs
  pc : ∀ w pc, s'.pc w = .erring pc → s.pc w = .erring pc

omit [DecidableEq C] [DecidableEq H] in
theorem Errs.elsewhere (h : Errs s) (he : Elsewhere s s') : Errs s' := by
  refine ⟨fun e hmem => ?_, fun hne => he.settled (h.settled (he.errs ▸ hne)), fun w before hw e hmem => ?_,
    fun w before hw => h.parent w before (he.pc w _ hw),
    fun w before err hw => h.returned w before err (he.pc w _ hw)⟩
  · obtain ⟨why, hwhy, heq⟩ := h.errs e (he.errs ▸ hmem)
    exact ⟨why, (he.reason (by simp [hwhy])).trans hwhy, heq⟩
  · rw [he.errs]
    exact h.load w before (he.pc w _ hw) e hmem

theorem pc_goto (hp : ∀ pc, p ≠ .erring pc) (w' : Who C H) (pc : Erring)
    (h : (s.goto w p).pc w' = .erring pc) : s.pc w' = .erring pc := by
  by_cases heq : w' = w
  · subst heq
    rw [State.goto_self] at h
    exact absurd h (hp pc)
  · rwa [State.goto_of_ne heq] at h

theorem Elsewhere.goto (hp : ∀ pc, p ≠ .erring pc) : Elsewhere s (s.goto w p) :=
  ⟨fun _ => rfl, id, rfl, pc_goto hp⟩

theorem elsewhere_cancel {k : Then} {pc : Canceling} (hs : s.cancel w k pc = some s') : Elsewhere s s' := by
  have hafter : ∀ pc, State.after k ≠ .erring pc := by
    intro pc
    cases k <;> simp [State.after]
  cases pc with
  | swap code =>
    simp only [State.cancel] at hs
    split at hs <;> cases hs
    · next hnone => exact ⟨fun h => absurd hnone h, id, rfl, pc_goto (by simp)⟩
    · exact .goto hafter
  | hasDone =>
    simp only [State.cancel] at hs
    split at hs <;> cases hs
    · exact .goto (by simp)
    · exact ⟨fun _ => rfl, fun _ => rfl, rfl, pc_goto hafter⟩
  | lock =>
    simp only [State.cancel] at hs
    split at hs <;> cases hs
    exact ⟨fun _ => rfl, id, rfl, pc_goto (by simp)⟩
  | close =>
    cases hs
    exact ⟨fun _ => s.ctx.shut_reason, id, rfl, pc_goto (by simp)⟩
  | unlock =>
    cases hs
    exact ⟨fun _ => rfl, fun _ => rfl, rfl, pc_goto hafter⟩

theorem elsewhere_done {g : H} {pc : Doing} (hs : s.done g pc = some s') : Elsewhere s s' := by
  cases pc with
  | load =>
    simp only [State.done] at hs
    split at hs <;> cases hs <;> exact ⟨fun _ => rfl, id, rfl, pc_goto (by simp)⟩
  | lock =>
    simp only [State.done] at hs
    split at hs <;> cases hs
    exact ⟨fun _ => rfl, id, rfl, pc_goto (by simp)⟩
  | create | unlock =>
    cases hs
    exact ⟨fun _ => rfl, id, rfl, pc_goto (by simp)⟩
  | reread =>
    simp only [State.done] at hs
    split at hs <;> cases hs
    · exact ⟨fun _ => s.ctx.shut_reason, id, rfl, pc_goto (by simp)⟩
    · exact .goto (by simp)
  | returned ch => cases hs

omit [DecidableEq C] [DecidableEq H] in
theorem Errs.recycled (h : Errs s) (hl : Life s) : Errs s.recycled := by
  have hnone : ∀ w pc, s.recycled.pc w = .erring pc → ∃ before e, pc = .returned before e ∧
      s.pc w = .erring pc := by
    intro w pc hw
    cases w with
    | server => cases hw
    | handler g => cases hw
    | _ =>
      have hw : s.pc _ = .erring pc := hw
      cases pc with
      | returned before e => exact ⟨before, e, rfl, hw⟩
      | _ =>
        obtain ⟨g, hg, -⟩ := (hl.has _).inCall (by rw [hw]; rfl)
        cases hg
  refine ⟨fun e hmem => (by cases hmem), fun hne => absurd rfl hne, fun w before hw => ?_,
    fun w before hw => ?_, fun w before err hw => ?_⟩
  · obtain ⟨_, _, heq, -⟩ := hnone w _ hw
    cases heq
  · obtain ⟨_, _, heq, -⟩ := hnone w _ hw
    cases heq
  · obtain ⟨_, _, -, hold⟩ := hnone w _ hw
    exact h.returned w before err hold

theorem Errs.serve (h : Errs s) (hl : Life s) {b : Bool} {p0 : Pc} (hpc : s.pc .server = p0)
    (hs : s.serve b p0 = some s') : Errs s' := by
  cases p0 with
  | canceling k pc => exact h.elsewhere (elsewhere_cancel hs)
  | recycle =>
    simp only [State.serve] at hs
    split at hs <;> cases hs
    · exact h.elsewhere (.goto (by simp))
    · exact h.recycled hl
  | beginBudget =>
    simp only [State.serve] at hs
    split at hs
    · cases hs
      exact h.elsewhere (.goto (by simp))
    split at hs <;> cases hs
    · exact h.elsewhere (.goto (by simp))
    · exact h.elsewhere ⟨fun _ => rfl, id, rfl,
        fun w pc hw => pc_goto (by simp) w pc (pc_goto (by simp) w pc hw)⟩
  | endTimer =>
    simp only [State.serve] at hs
    split at hs
    · cases hs
      exact h.elsewhere (.goto (by simp))
    split at hs <;> cases hs
    · exact h.elsewhere ⟨fun _ => rfl, id, rfl,
        fun w pc hw => pc_goto (by simp) w pc (pc_goto (by simp) w pc hw)⟩
    · exact h.elsewhere (.goto (by simp))
  | endAwait | unregister =>
    simp only [State.serve] at hs
    split at hs <;> cases hs
    exact h.elsewhere ⟨fun _ => rfl, id, rfl, pc_goto (by simp)⟩
  | beginLoad | beginStopped | beginParent =>
    cases hs
    split <;> exact h.elsewhere (.goto (by simp))
  | queued | endLoad | endOwner =>
    cases hs
    exact h.elsewhere (.goto (by simp))
  | _ => cases hs

theorem elsewhere_cancelRequests {i : C} {b : Bool} {p0 : Pc}
    (hs : s.cancelRequests i b p0 = some s') : Elsewhere s s' := by
  cases p0 with
  | canceling k pc => exact elsewhere_cancel hs
  | cancelLock code =>
    simp only [State.cancelRequests] at hs
    split at hs <;> cases hs
    exact ⟨fun _ => rfl, id, rfl, pc_goto (by simp)⟩
  | cancelLook code =>
    cases hs
    split <;> exact .goto (by simp)
  | cancelUnlock =>
    cases hs
    exact ⟨fun _ => rfl, id, rfl, pc_goto (by simp)⟩
  | _ => cases hs

theorem elsewhere_onTimer {p0 : Pc} (hs : s.onTimer p0 = some s') : Elsewhere s s' := by
  cases p0 with
  | canceling k pc => exact elsewhere_cancel hs
  | timerAdd =>
    cases hs
    exact ⟨fun _ => rfl, id, rfl, pc_goto (by simp)⟩
  | _ => cases hs

theorem erring_goto {g : H} {q pc : Erring}
    (h : (s.goto (.handler g) (.erring q)).pc w = .erring pc) : q = pc ∨ s.pc w = .erring pc := by
  by_cases heq : w = .handler g
  · subst heq
    rw [State.goto_self] at h
    exact .inl (Pc.erring.inj h)
  · rw [State.goto_of_ne heq] at h
    exact .inr h

theorem Errs.err (h : Errs s) {g : H} {pc : Erring} (hpc : s.pc (.handler g) = .erring pc)
    (hload : (Pc.erring pc).loadsErrv = true → s.ctx.reason = none ∨ s.settled = true)
    (hparent : (Pc.erring pc).loadsParent = true → s.parent = none)
    (hs : s.err g pc = some s') : Errs s' := by
  cases pc with
  | load before =>
    have hbefore := h.load _ before hpc
    simp only [State.err] at hs
    split at hs <;> cases hs
    · next why hwhy =>
      have hagree : ∀ e ∈ s.errs, e = why.err := by
        intro e hmem
        obtain ⟨why', hwhy', rfl⟩ := h.errs e hmem
        cases hwhy.symm.trans hwhy'
        rfl
      refine ⟨fun e hmem => ?_, fun _ => (hload rfl).resolve_left (by simp [hwhy]), fun w b hw e hmem => ?_,
        fun w b hw => ?_, fun w b err hw e hmem => ?_⟩
      · rcases List.mem_cons.mp hmem with rfl | hold
        · exact ⟨why, hwhy, rfl⟩
        · exact h.errs e hold
      · rcases erring_goto hw with heq | hold
        · cases heq
        · exact List.mem_cons_of_mem _ (h.load w b hold e hmem)
      · rcases erring_goto hw with heq | hold
        · cases heq
        · exact h.parent w b hold
      · rcases erring_goto hw with heq | hold
        · cases heq
          rw [hagree e (hbefore e hmem)]
        · exact h.returned w b err hold e hmem
    · next hnone =>
      -- nobody has got an error, because there is no reason
      have hempty : s.errs = [] := by
        by_contra hne
        obtain ⟨e, hmem⟩ := List.exists_mem_of_ne_nil _ hne
        obtain ⟨why, hwhy, -⟩ := h.errs e hmem
        rw [hnone] at hwhy
        cases hwhy
      refine ⟨h.errs, h.settled, fun w b hw => ?_, fun w b hw => ?_, fun w b err hw => ?_⟩
      · rcases erring_goto hw with heq | hold
        · cases heq
        · exact h.load w b hold
      · rcases erring_goto hw with heq | hold
        · cases heq
          exact List.eq_nil_iff_forall_not_mem.mpr fun e hmem => by simpa [hempty] using hbefore e hmem
        · exact h.parent w b hold
      · rcases erring_goto hw with heq | hold
        · cases heq
        · exact h.returned w b err hold
  | parent before =>
    have hlive := hparent rfl
    have hbefore := h.parent _ before hpc
    cases hs
    have herrs : s.parent.toList ++ s.errs = s.errs := by
      rw [hlive]
      rfl
    refine ⟨fun e hmem => h.errs e (herrs ▸ hmem), fun hne => h.settled (herrs ▸ hne),
      fun w b hw e hmem => ?_, fun w b hw => ?_, fun w b err hw e hmem => ?_⟩
    · rcases erring_goto hw with heq | hold
      · cases heq
      · exact herrs.symm ▸ h.load w b hold e hmem
    · rcases erring_goto hw with heq | hold
      · cases heq
      · exact h.parent w b hold
    · rcases erring_goto hw with heq | hold
      · cases heq
        rw [hbefore] at hmem
        cases hmem
      · exact h.returned w b err hold e hmem
  | returned before e => cases hs

theorem Errs.of_step (h : Errs s) (hl : Life s) {a : Act C H} (hok : Orderly s a)
    (hstep : step s a = some s') : Errs s' := by
  cases a with
  | next w b =>
    cases w with
    | server => exact h.serve hl rfl hstep
    | timer => exact h.elsewhere (elsewhere_onTimer hstep)
    | cancel i => exact h.elsewhere (elsewhere_cancelRequests hstep)
    | handler g =>
      obtain ⟨hload, hparent⟩ := hok
      change s.next b (.handler g) = some s' at hstep
      simp only [State.next] at hstep
      split at hstep
      · exact h.elsewhere (elsewhere_done hstep)
      · next pc hpc =>
        rw [hpc] at hload hparent
        exact h.err hpc hload hparent hstep
      · cases hstep
  | callErr g =>
    obtain ⟨-, rfl⟩ := Machine.of_guard hstep
    refine ⟨h.errs, h.settled, fun w b hw e hmem => ?_, fun w b hw => ?_, fun w b err hw => ?_⟩
    · rcases erring_goto hw with heq | hold
      · cases heq
        exact hmem
      · exact h.load w b hold e hmem
    · rcases erring_goto hw with heq | hold
      · cases heq
      · exact h.parent w b hold
    · rcases erring_goto hw with heq | hold
      · cases heq
      · exact h.returned w b err hold
  | attach hasBudget parent stopped | cancel i code | fire | callDone g | returns | drop =>
    obtain ⟨-, rfl⟩ := Machine.of_guard hstep
    exact h.elsewhere ⟨fun _ => rfl, id, rfl, pc_goto (by simp)⟩
  | endParent e =>
    obtain ⟨-, rfl⟩ := Machine.of_guard hstep
    exact h.elsewhere ⟨fun _ => rfl, id, rfl, fun _ _ hw => hw⟩
  | stop =>
    cases hstep
    exact h.elsewhere ⟨fun _ => rfl, id, rfl, fun _ _ hw => hw⟩

/-- `Done` keeps its promise in every run, and `Err` in every run in which no call of it looks at
the wrong moment. -/
theorem request_context_contract :
    (∀ s : State C H, machine.Reachable s → DoneContract s) ∧
    (∀ s : State C H, machine.Reach Orderly s → ErrContract s) := by
  have hinv : ∀ {ok : State C H → Act C H → Prop} {s}, machine.Reach ok s → Inv s :=
    fun h => h.invariant .start fun _ _ _ _ hi _ hstep => hi.of_step hstep
  refine ⟨fun s h => (hinv h).channels.contract, fun s h => ?_⟩
  have herrs : Errs s := h.invariant
    ⟨fun _ h => (by cases h), fun h => absurd rfl h, fun _ _ h => (by cases h), fun _ _ h => (by cases h),
      fun _ _ _ h => (by cases h)⟩
    fun _ _ _ hreach hs hok hstep => hs.of_step (hinv hreach).life hok hstep
  have hdone := (hinv h).channels.contract
  exact ⟨fun g before err hpc => herrs.returned _ before err hpc, fun hne => hdone.closed (herrs.settled hne)⟩

section Examples

abbrev Acts := List (Act Unit Unit)

def nexts (n : Nat) (w : Who Unit Unit) : Acts := List.replicate n (.next w true)

def handled : Acts :=
  [.attach false none false] ++ nexts 5 .server ++ [.callDone ()] ++ nexts 5 (.handler ())

def canceled (code : Reason) : Acts := [.cancel () code] ++ nexts 8 (.cancel ())

def peerCancels : Acts :=
  handled ++ canceled .peerCancel ++ [.callErr ()] ++ nexts 1 (.handler ()) ++ [.callErr ()] ++
    nexts 1 (.handler ())

theorem request_context_contract_peer :
    ∃ s : State Unit Unit, machine.Reach Orderly s ∧
      s.pc (.handler ()) = .erring (.returned [.canceled] (some .canceled)) ∧ .own ∈ s.handed ∧
      ErrContract s ∧ DoneContract s := by
  obtain ⟨s, hs, hpc, hown⟩ : ∃ s : State Unit Unit, machine.Reach Orderly s ∧
      s.pc (.handler ()) = .erring (.returned [.canceled] (some .canceled)) ∧ .own ∈ s.handed :=
    Machine.exists_reach peerCancels (by decide +kernel)
  exact ⟨s, hs, hpc, hown, request_context_contract.2 s hs,
    request_context_contract.1 s (hs.mono fun _ _ _ => trivial)⟩

def serveEnds : Acts := handled ++ [.endParent .deadlineExceeded, .callErr ()] ++ nexts 2 (.handler ())

def serveEnded : Acts :=
  serveEnds ++ [.stop] ++ canceled .canceled ++ [.callErr ()] ++ nexts 1 (.handler ())

def midCancel : Acts :=
  handled ++ [.cancel () .peerCancel] ++ nexts 3 (.cancel ()) ++ [.callErr ()] ++ nexts 1 (.handler ())

/-- `Err` returns an error while the channel is open, and then another one. -/
theorem err_breaks_contract :
    (∃ s : State Unit Unit, machine.Reachable s ∧ s.errs = [.deadlineExceeded] ∧ .own ∈ s.handed ∧
      s.isClosed .own = false) ∧
    (∃ s : State Unit Unit, machine.Reachable s ∧
      s.pc (.handler ()) = .erring (.returned [.deadlineExceeded] (some .canceled))) ∧
    (∃ s : State Unit Unit, machine.Reachable s ∧ s.parent = none ∧ s.errs = [.canceled] ∧
      .own ∈ s.handed ∧ s.isClosed .own = false) :=
  ⟨Machine.exists_reachable serveEnds (by decide +kernel),
    Machine.exists_reachable serveEnded (by decide +kernel),
    Machine.exists_reachable midCancel (by decide +kernel)⟩

end Examples

end Hqq.RequestCtx
