import Hqq.Machine
import Hqq.Prog
import Mathlib.Algebra.Order.Group.Nat

/-!
# Threads on shared words

Independent of the program that is verified. Any number of threads with one clock, each with its
program and with the view of a tracker. A dead thread takes no further step, and `leave` says what a
thread turns to that is closed at a label.
-/

namespace Hqq

structure Threads (Eid A W L V : Type) where
  mem : A → W
  prog : Eid → Prog A W L
  dead : Eid → Bool
  clock : Nat
  view : Eid → V

namespace Threads

inductive Act (Eid : Type)
  | next (e : Eid)
  | close (e : Eid)
  | kill (e : Eid)
  | tick (d : Nat)
  deriving DecidableEq

variable {Eid A W L V : Type} [DecidableEq Eid] [DecidableEq A] [DecidableEq W] [Add W]
  (track : Eid → Tracker A W V) (code leave : Eid → L → Option (Prog A W L))

def step (s : Threads Eid A W L V) : Act Eid → Option (Threads Eid A W L V)
  | .next e =>
    if s.dead e then none
    else ((s.prog e).exec (code e) s.mem s.clock).map fun r =>
      { s with mem := r.1, prog := Function.update s.prog e r.2
               view := Function.update s.view e
                ((track e).after s.mem s.clock (s.view e) (s.prog e)) }
  | .close e =>
    if s.dead e then none
    else match s.prog e with
      | .jump l => (leave e l).map fun p => { s with prog := Function.update s.prog e p }
      | _ => none
  | .kill e => some { s with dead := Function.update s.dead e true }
  | .tick d => if s.clock + d < 2 ^ 63 then some { s with clock := s.clock + d } else none

structure Next (s : Threads Eid A W L V) (e : Eid) (s' : Threads Eid A W L V) : Prop where
  alive : s.dead e = false
  exec : ∃ mem p, (s.prog e).exec (code e) s.mem s.clock = some (mem, p) ∧
    s'.mem = mem ∧ s'.prog = Function.update s.prog e p
  view : s'.view =
    Function.update s.view e ((track e).after s.mem s.clock (s.view e) (s.prog e))
  dead : s'.dead = s.dead
  clock : s'.clock = s.clock

/-- A step that is no instruction. -/
structure Idle (s : Threads Eid A W L V) (a : Act Eid) (s' : Threads Eid A W L V) : Prop where
  mem : s'.mem = s.mem
  view : s'.view = s.view
  dead : s'.dead = s.dead ∨ ∃ e, a = .kill e ∧ s'.dead = Function.update s.dead e true
  clock : s.clock ≤ s'.clock ∧ (s.clock < 2 ^ 63 → s'.clock < 2 ^ 63)
  prog : s'.prog = s.prog ∨ ∃ e l p, s.prog e = .jump l ∧ leave e l = some p ∧
    s'.prog = Function.update s.prog e p

variable {track code leave} {s s' : Threads Eid A W L V} {a : Act Eid} {e : Eid}

theorem step_cases (h : step track code leave s a = some s') :
    (∃ e, a = .next e ∧ s.Next track code e s') ∨ s.Idle leave a s' := by
  cases a with
  | next e =>
    simp only [step] at h
    split at h
    · cases h
    next hdead =>
    obtain ⟨r, hr, rfl⟩ := Option.map_eq_some_iff.mp h
    exact .inl ⟨e, rfl, Bool.not_eq_true _ ▸ hdead, ⟨r.1, r.2, hr, rfl, rfl⟩, rfl, rfl, rfl⟩
  | close e =>
    simp only [step] at h
    split at h
    · cases h
    split at h
    · next l hprog =>
      obtain ⟨p, hp, rfl⟩ := Option.map_eq_some_iff.mp h
      exact .inr ⟨rfl, rfl, .inl rfl, ⟨Nat.le_refl _, id⟩, .inr ⟨e, l, p, hprog, hp, rfl⟩⟩
    · cases h
  | kill e =>
    cases h
    exact .inr ⟨rfl, rfl, .inr ⟨e, rfl, rfl⟩, ⟨Nat.le_refl _, id⟩, .inl rfl⟩
  | tick n =>
    obtain ⟨hlt, rfl⟩ := Machine.of_guard h
    exact .inr ⟨rfl, rfl, .inl rfl, ⟨Nat.le_add_right _ _, fun _ => hlt⟩, .inl rfl⟩

omit [DecidableEq A] [DecidableEq W] [Add W] in
theorem Idle.alive (h : s.Idle leave a s') (hd : s'.dead e = false) : s.dead e = false := by
  rcases h.dead with hdead | ⟨e', -, hdead⟩
  · rwa [hdead] at hd
  rw [hdead] at hd
  rcases eq_or_ne e e' with rfl | hne
  · simp at hd
  · rwa [Function.update_of_ne hne] at hd

/-! ## What is left without the views -/

def bare (s : Threads Eid A W L V) : (A → W) × (Eid → Prog A W L) × (Eid → Bool) × Nat :=
  (s.mem, s.prog, s.dead, s.clock)

theorem step_bare {V' : Type} {track' : Eid → Tracker A W V'} {t : Threads Eid A W L V'}
    (h : s.bare = t.bare) (a : Act Eid) :
    (step track code leave s a).map bare = (step track' code leave t a).map bare := by
  obtain ⟨mem, prog, dead, clock, view⟩ := s
  obtain ⟨mem', prog', dead', clock', view'⟩ := t
  obtain ⟨rfl, rfl, rfl, rfl⟩ : mem = mem' ∧ prog = prog' ∧ dead = dead' ∧ clock = clock' := by
    simpa [bare] using h
  cases a with
  | next e =>
    simp only [step]
    split
    · rfl
    · simp [bare, Function.comp_def]
  | close e =>
    simp only [step]
    split
    · rfl
    split
    · simp [bare, Function.comp_def]
    · rfl
  | kill e => rfl
  | tick n =>
    simp only [step]
    split <;> rfl

/-! ## Threads that keep a discipline -/

inductive Effect (d : Discipline A W L V) (s : Threads Eid A W L V) (e : Eid)
    (s' : Threads Eid A W L V) : Prop
  | none (mem : s'.mem = s.mem) (read : s'.view = Function.update s.view e (s.view e) ∨
      (∃ f, s'.view = Function.update s.view e (d.load (s.view e) f (s.mem f))) ∨
      s'.view = Function.update s.view e (d.look (s.view e) s.clock))
  | store (f : A) (w : W) (may : d.mayStore (s.view e) f w)
      (mem : s'.mem = Function.update s.mem f w)
      (view : s'.view = Function.update s.view e (d.store (s.view e) f w)) (k : Prog A W L)
      (prog : s.prog e = .store f w k)
  | swap (f : A) (old new : W) (may : d.maySwap (s.view e) f old new) (found : s.mem f = old)
      (mem : s'.mem = Function.update s.mem f new)
      (view : s'.view = Function.update s.view e (d.swap (s.view e) f new))
  | add (f : A) (w : W) (may : d.mayAdd (s.view e) f w)
      (mem : s'.mem = Function.update s.mem f (s.mem f + w))
      (view : s'.view = Function.update s.view e (s.view e))

variable {d : Eid → Discipline A W L V}

theorem Next.effect (hn : s.Next (fun e => (d e).toTracker) code e s')
    (hfollow : (d e).Follows (s.view e) (s.prog e)) : s.Effect (d e) e s' := by
  obtain ⟨mem, p, hp, hmem, -⟩ := hn.exec
  have hview := hn.view
  cases hcode : s.prog e with
  | load f k =>
    rw [hcode] at hp hview
    cases hp
    exact .none hmem (.inr (.inl ⟨f, hview⟩))
  | store f w k =>
    rw [hcode] at hp hview hfollow
    cases hp
    exact .store f w hfollow.1 hmem hview _ hcode
  | cas f old new k =>
    rw [hcode] at hp hview hfollow
    unfold Prog.exec at hp
    unfold Tracker.after at hview
    dsimp only at hp hview
    split at hp <;> cases hp
    · next heq =>
      rw [if_pos heq] at hview
      exact .swap f old new hfollow.1 heq hmem hview
    · next hne =>
      rw [if_neg hne] at hview
      exact .none hmem (.inl hview)
  | add f w k =>
    rw [hcode] at hp hview hfollow
    cases hp
    exact .add f w hfollow.1 hmem hview
  | clock k =>
    rw [hcode] at hp hview
    cases hp
    exact .none hmem (.inr (.inr hview))
  | skip k =>
    rw [hcode] at hp hview
    cases hp
    exact .none hmem (.inl hview)
  | jump l =>
    rw [hcode] at hp hview
    obtain ⟨q, -, hq⟩ := Option.map_eq_some_iff.mp hp
    cases hq
    exact .none hmem (.inl hview)

theorem follows_step (hf : ∀ e, (d e).Follows (s.view e) (s.prog e))
    (hgranted : ∀ e, s.dead e = false → (d e).Granted s.mem s.clock (s.view e) (s.prog e))
    (hcode : ∀ e l q v, (d e).mayJump v l → code e l = some q → (d e).Follows v q)
    (hleave : ∀ e l q v, (d e).mayJump v l → leave e l = some q → (d e).Follows v q)
    (h : step (fun e => (d e).toTracker) code leave s a = some s') (e' : Eid) :
    (d e').Follows (s'.view e') (s'.prog e') := by
  rcases step_cases h with ⟨e, rfl, hn⟩ | hidle
  · obtain ⟨mem, p, hp, -, hprog⟩ := hn.exec
    rw [hn.view, hprog]
    rcases eq_or_ne e' e with rfl | he
    · rw [Function.update_self, Function.update_self]
      exact (hf e').exec (hgranted e' hn.alive) (fun l q hl hq => hcode e' l q _ hl hq) hp
    · rw [Function.update_of_ne he, Function.update_of_ne he]
      exact hf e'
  · rw [hidle.view]
    rcases hidle.prog with hprog | ⟨e, l, p, hjump, hleft, hprog⟩
    · rw [hprog]
      exact hf e'
    rw [hprog]
    rcases eq_or_ne e' e with rfl | he
    · rw [Function.update_self]
      have hl := hf e'
      rw [hjump] at hl
      exact hleave e' l p _ hl hleft
    · rw [Function.update_of_ne he]
      exact hf e'

end Threads

end Hqq
