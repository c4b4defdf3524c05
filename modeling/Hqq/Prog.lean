import Mathlib.Logic.Function.Basic

/-!
# Programs on shared words

Independent of the program that is verified. A thread is a tree of atomic instructions on shared
words that branches on what was loaded. A loop jumps to a label, and `code` says what the label
stands for.

A tracker gives each thread a view of what it did and saw, and a discipline says what it may do with
which view. `Follows` checks a program against it, without the other threads.
-/

namespace Hqq

inductive Prog (A W L : Type)
  | load (a : A) (k : W → Prog A W L)
  | store (a : A) (w : W) (k : Prog A W L)
  | cas (a : A) (old new : W) (k : Bool → Prog A W L)
  | add (a : A) (w : W) (k : W → Prog A W L)
  | clock (k : Nat → Prog A W L)
  | skip (k : Prog A W L)
  | jump (l : L)

namespace Prog

variable {A W L : Type} [DecidableEq A] [DecidableEq W] [Add W]

def exec (code : L → Option (Prog A W L)) (mem : A → W) (now : Nat) :
    Prog A W L → Option ((A → W) × Prog A W L)
  | .load a k => some (mem, k (mem a))
  | .store a w k => some (Function.update mem a w, k)
  | .cas a old new k =>
    if mem a = old then some (Function.update mem a new, k true) else some (mem, k false)
  | .add a w k => some (Function.update mem a (mem a + w), k (mem a + w))
  | .clock k => some (mem, k now)
  | .skip k => some (mem, k)
  | .jump l => (code l).map (mem, ·)

end Prog

/-- How a view changes with each instruction. -/
structure Tracker (A W V : Type) where
  load : V → A → W → V
  store : V → A → W → V
  swap : V → A → W → V
  look : V → Nat → V

def Tracker.after {A W L V : Type} [DecidableEq W] (t : Tracker A W V) (mem : A → W) (now : Nat)
    (v : V) : Prog A W L → V
  | .load a _ => t.load v a (mem a)
  | .store a w _ => t.store v a w
  | .cas a old new _ => if mem a = old then t.swap v a new else v
  | .clock _ => t.look v now
  | .add .. | .skip _ | .jump _ => v

/-- What a thread with a view may do. It may rely on `mayLoad`, `mayLook` and `mayLose`. -/
structure Discipline (A W L V : Type) extends Tracker A W V where
  mayLoad : V → A → W → Prop
  mayLook : V → Nat → Prop
  mayLose : V → A → Prop
  mayStore : V → A → W → Prop
  maySwap : V → A → W → W → Prop
  mayAdd : V → A → W → Prop
  mayJump : V → L → Prop

namespace Discipline

variable {A W L V : Type} (d : Discipline A W L V)

def Follows : V → Prog A W L → Prop
  | v, .load a k => ∀ w, d.mayLoad v a w → Follows (d.load v a w) (k w)
  | v, .store a w k => d.mayStore v a w ∧ Follows (d.store v a w) k
  | v, .cas a old new k => d.maySwap v a old new ∧ Follows (d.swap v a new) (k true) ∧
      (d.mayLose v a → Follows v (k false))
  | v, .add a w k => d.mayAdd v a w ∧ ∀ w, Follows v (k w)
  | v, .clock k => ∀ t, d.mayLook v t → Follows (d.look v t) (k t)
  | v, .skip k => Follows v k
  | v, .jump l => d.mayJump v l

variable [DecidableEq W]

def Granted (mem : A → W) (now : Nat) (v : V) : Prog A W L → Prop
  | .load a _ => d.mayLoad v a (mem a)
  | .cas a old _ _ => mem a ≠ old → d.mayLose v a
  | .clock _ => d.mayLook v now
  | .store .. | .add .. | .skip _ | .jump _ => True

variable {d} [DecidableEq A] [Add W]

theorem Follows.exec {code : L → Option (Prog A W L)} {mem mem' : A → W} {now : Nat} {v : V}
    {p p' : Prog A W L} (h : d.Follows v p) (hg : d.Granted mem now v p)
    (hcode : ∀ l q, d.mayJump v l → code l = some q → d.Follows v q)
    (hx : p.exec code mem now = some (mem', p')) : d.Follows (d.after mem now v p) p' := by
  cases p with
  | load a k => cases hx; exact h _ hg
  | store a w k => cases hx; exact h.2
  | cas a old new k =>
    by_cases hw : mem a = old
    · simp only [Prog.exec, hw, if_true] at hx
      cases hx
      simpa [Tracker.after, hw] using h.2.1
    · simp only [Prog.exec, hw, if_false] at hx
      cases hx
      simpa [Tracker.after, hw] using h.2.2 (hg hw)
  | add a w k => cases hx; exact h.2 _
  | clock k => cases hx; exact h _ hg
  | skip k => cases hx; exact h
  | jump l =>
    obtain ⟨q, hq, hx⟩ := Option.map_eq_some_iff.mp hx
    cases hx
    exact hcode l _ h hq

end Discipline

end Hqq
