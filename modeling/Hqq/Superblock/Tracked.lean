import Hqq.Superblock.Walk

/-!
# Endpoints with a view of their own

The endpoints of `Spec.lean` on a segment with any content, each one followed by the view of some
discipline.
-/

namespace Hqq.Superblock

variable {Eid : Type} [DecidableEq Eid] {V : Type}

abbrev Tracked (Eid V : Type) := Threads Eid Field Word Label V

def Tracked.start (ep : Eid → Endpoint) (mem : Mem) (t0 : Nat) (v : V) : Tracked Eid V where
  mem := mem
  prog := fun e => claimSuperblock (ep e)
  dead := fun _ => false
  clock := t0
  view := fun _ => v

def tracked (d : Endpoint → Discipline Field Word Label V) (code : Endpoint → Label → Option Code)
    (ep : Eid → Endpoint) (mem : Mem) (t0 : Nat) (v : V) : Machine (Tracked Eid V) (Act Eid) where
  init := .start ep mem t0 v
  step := Threads.step (fun e => (d (ep e)).toTracker) (fun e => code (ep e)) fun e => closing (ep e)

theorem runFrom_bare (d : Endpoint → Discipline Field Word Label V) (ep : Eid → Endpoint) (t0 : Nat)
    (v : V) (as : List (Act Eid)) {s : State Eid} {t : Tracked Eid V} (h : s.bare = t.bare) :
    ((machine ep t0).runFrom s as).map (fun s => s.bare) =
      ((tracked d code ep (fun _ => 0) t0 v).runFrom t as).map Threads.bare := by
  induction as generalizing s t with
  | nil => exact congrArg some h
  | cons a as ih =>
    have hstep : ((machine ep t0).step s a).map (fun s => s.bare) =
        ((tracked d code ep (fun _ => 0) t0 v).step t a).map Threads.bare := by
      change Option.map _ (Option.map _ _) = _
      rw [Option.map_map]
      exact Threads.step_bare h a
    rw [Machine.runFrom_cons, Machine.runFrom_cons]
    cases hs : (machine ep t0).step s a with
    | none =>
      rw [hs] at hstep
      rw [Option.map_eq_none_iff.mp hstep.symm]
      rfl
    | some s' =>
      rw [hs] at hstep
      obtain ⟨t', ht, hbare⟩ := Option.map_eq_some_iff.mp hstep.symm
      rw [ht]
      exact ih hbare.symm

/-- Whatever the discipline, the views do not change what the endpoints of `Spec.lean` do. -/
theorem run_bare (d : Endpoint → Discipline Field Word Label V) (ep : Eid → Endpoint) (t0 : Nat)
    (v : V) (as : List (Act Eid)) :
    ((machine ep t0).runFrom (start ep t0) as).map (fun s => s.bare) =
      ((tracked d code ep (fun _ => 0) t0 v).runFrom (.start ep (fun _ => 0) t0 v) as).map
        Threads.bare :=
  runFrom_bare d ep t0 v as rfl

/-! ## Everybody keeps the discipline -/

/-- What is promised holds in every state, and the code of every label keeps the discipline. -/
structure Kept (d : Endpoint → Discipline Field Word Label V) (code : Endpoint → Label → Option Code)
    (ep : Eid → Endpoint) (t0 : Nat) (v : V) : Prop where
  start : ∀ e, (d (ep e)).Follows v (claimSuperblock (ep e))
  code : ∀ e l q v, (d (ep e)).mayJump v l → code (ep e) l = some q → (d (ep e)).Follows v q
  close : ∀ e i v, (d (ep e)).mayJump v (.live i) → (d (ep e)).Follows v (close (ep e) i)
  load : ∀ e v f w, (d (ep e)).mayLoad v f w
  lose : ∀ e v f, (d (ep e)).mayLose v f
  look : ∀ e v t, t0 ≤ t → t < 2 ^ 63 → (d (ep e)).mayLook v t

structure Follow (d : Endpoint → Discipline Field Word Label V) (ep : Eid → Endpoint) (t0 : Nat)
    (s : Tracked Eid V) : Prop where
  prog : ∀ e, (d (ep e)).Follows (s.view e) (s.prog e)
  clock : t0 ≤ s.clock ∧ s.clock < 2 ^ 63

variable {d : Endpoint → Discipline Field Word Label V} {code : Endpoint → Label → Option Code}
  {ep : Eid → Endpoint} {s s' : Tracked Eid V} {a : Act Eid} {mem : Mem} {t0 : Nat} {v : V}

theorem Follow.of_step (hd : Kept d code ep t0 v) (hs : Follow d ep t0 s)
    (h : (tracked d code ep mem t0 v).step s a = some s') : Follow d ep t0 s' := by
  refine ⟨Threads.follows_step (d := fun e => d (ep e)) hs.prog (fun e _ => ?_) hd.code ?_ h, ?_⟩
  · cases s.prog e with
    | load f k => exact hd.load e _ _ _
    | cas f old new k => exact fun _ => hd.lose e _ _
    | clock k => exact hd.look e _ _ hs.clock.1 hs.clock.2
    | _ => trivial
  · intro e l q v hl hq
    cases l <;> cases hq
    exact hd.close e _ v hl
  · rcases Threads.step_cases h with ⟨e, rfl, hn⟩ | hidle
    · exact hn.clock ▸ hs.clock
    · exact ⟨hs.clock.1.trans hidle.clock.1, hidle.clock.2 hs.clock.2⟩

theorem follow_of_reach {ok : Tracked Eid V → Act Eid → Prop}
    (hd : Kept d code ep t0 v) (ht0 : t0 < 2 ^ 63) (h : (tracked d code ep mem t0 v).Reach ok s) :
    Follow d ep t0 s :=
  h.invariant ⟨hd.start, le_rfl, ht0⟩ fun _ _ _ _ hs _ hstep => hs.of_step hd hstep

end Hqq.Superblock
