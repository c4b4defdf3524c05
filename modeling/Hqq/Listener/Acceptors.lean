import Mathlib.Data.Fintype.Basic
import Hqq.Listener.ClaimView

/-!
# One acceptor at a time

The two words of the ownership are those of a link, and so are the two windows.
-/

namespace Hqq.Acceptors

open Superblock (heartbeatFresh)
variable {Eid : Type}

abbrev State.Owned (s : State Eid) : Prop :=
  Hqq.Owned stateInitializing 0 (s.mem .state) (s.mem .initToken) s.InWindow

def State.Agrees (s : State Eid) (e : Eid) : Prop :=
  ∀ f w, f.server = true → (s.view e).wrote f = some w → s.mem f = w

/-- The words of `e` are those in the header: it initializes, it commits, or it serves. -/
def State.Holds (ep : Eid → Acceptor) (s : State Eid) (e : Eid) : Prop :=
  ((s.view e).phase = .owner ∧ s.mem .initToken = (ep e).token) ∨
  (s.dead e = false ∧ (s.view e).phase = .committing) ∨
  (s.mem .state = stateReady ∧ s.commits.getLast? = some e ∧ (s.view e).phase = .settled)

structure Record (ep : Eid → Acceptor) (s : State Eid) : Prop where
  mine : ∀ e w, (s.view e).wrote .serverToken = some w → w = (ep e).token
  agrees : ∀ e, s.Holds ep e → s.Agrees e
  published : ∀ e, s.Holds ep e → (s.view e).phase ≠ .owner → (s.view e).Published (ep e)

structure Inv (ep : Eid → Acceptor) (s : State Eid) : Prop
    extends Threads.Timely Field.beat s.toThreads where
  owned : s.Owned
  record : Record ep s
  follows : ∀ e, Follows (ep e) (s.view e) (s.prog e)
  clock : s.clock < 2 ^ 63

variable [DecidableEq Eid]

/-! ## One turn of an acceptor -/

def Field.watched : Field → Bool
  | .state | .initToken => true
  | f => f.server

abbrev State.put (s : State Eid) (e : Eid) (mem : Mem) (v : View) (p : Code) : State Eid :=
  { s with mem := mem, view := Function.update s.view e v, prog := Function.update s.prog e p }

abbrev State.stored (s : State Eid) (e : Eid) (f : Field) (w : Word) (p : Code) : State Eid :=
  s.put e (Function.update s.mem f w) ((s.view e).store f w) p

abbrev State.swapped (s : State Eid) (e : Eid) (f : Field) (w : Word) (p : Code) : State Eid :=
  s.put e (Function.update s.mem f w) ((s.view e).swap f w) p

/-- What an instruction of acceptor `e` may do to the header and to the history. -/
inductive Turn (ep : Eid → Acceptor) (s : State Eid) (e : Eid) : State Eid → Prop
  | quiet {mem : Mem} {v : View} {p : Code} (hmem : ∀ f, f.watched = true → mem f = s.mem f)
      (hview : Keeps (s.view e) v)
      (hread : ∀ f w, v.read f = some w → (s.view e).read f = some w ∨ w = s.mem f)
      (htime : v.time ≤ s.clock) : Turn ep s e (s.put e mem v p)
  | server {f : Field} {w : Word} {p : Code} (hp : ∃ k, s.prog e = .store f w k)
      (hf : f.server = true) (hw : (s.view e).MayStore (ep e) f w) : Turn ep s e (s.stored e f w p)
  | settle {p : Code} (hv : (s.view e).phase = .committing) :
      Turn ep s e { s.stored e .state stateReady p with commits := s.commits ++ [e] }
  | claim {old : Word} {p : Code} (hv : (s.view e).phase = .outside) (hstate : s.mem .state = old)
      (hp : ∃ new k, s.prog e = .cas .state old new k)
      (hold : old = stateEmpty ∨ old = stateReady ∧ (s.view e).JudgedDead (ep e)) :
      Turn ep s e (s.swapped e .state stateInitializing p)
  | own {p : Code}
      (hv : (s.view e).phase = .claimed ∧ s.mem .initToken = 0 ∨ (s.view e).phase = .outside)
      (hp : ∃ new k, s.prog e = .cas .initToken (s.mem .initToken) new k) :
      Turn ep s e (s.swapped e .initToken (ep e).token p)
  | release {p : Code} (hv : (s.view e).phase = .owner) (htok : s.mem .initToken = (ep e).token)
      (hpub : (s.view e).Published (ep e)) : Turn ep s e (s.swapped e .initToken 0 p)
  | detach {p : Code} (hv : (s.view e).phase = .settled) (htok : s.mem .serverToken = (ep e).token) :
      Turn ep s e (s.swapped e .serverToken detachedToken p)

variable {ep : Eid → Acceptor} {s s' : State Eid} {e : Eid}

omit [DecidableEq Eid] in
theorem Inv.granted (hi : Inv ep s) (halive : s.dead e = false) :
    (discipline (ep e)).Granted s.mem s.clock (s.view e) (s.prog e) := by
  refine Threads.Owned.granted hi.owned hi.toTimely hi.clock halive rfl rfl rfl ?_ (hi.follows e)
  rintro old new (⟨-, ⟨-, hz⟩ | hout⟩ | ⟨hown, -⟩) hc
  · exact hz
  · simp [hc] at hout
  · simp [hc] at hown

theorem turn_of_store (hi : Inv ep s) {f : Field} {w : Word} {k : Code} (p : Code)
    (hp : s.prog e = .store f w k) (hf : (s.view e).MayStore (ep e) f w) :
    Turn ep s e { s.stored e f w p with commits := s.note e } := by
  simp only [State.note, hp]
  rcases eq_or_ne f .state with rfl | hs
  · obtain ⟨hv, rfl⟩ := hf.state rfl
    exact .settle hv
  rw [if_neg hs]
  rcases Bool.eq_false_or_eq_true f.server with hserver | hserver
  · exact .server ⟨k, hp⟩ hserver hf
  · refine .quiet (fun g hg => ?_) (.of_store hs hserver) (fun _ _ => .inl) (hi.time e)
    refine Function.update_of_ne ?_ _ _
    rintro rfl
    have hinit := hf.initToken
    cases g <;> simp_all [Field.watched]

theorem turn_of_swap {f : Field} {old new : Word} {k : Bool → Code} (p : Code)
    (hp : s.prog e = .cas f old new k) (hf : (s.view e).MaySwap (ep e) old new f)
    (hold : s.mem f = old) :
    Turn ep s e (s.swapped e f new p) := by
  cases f with
  | state =>
    obtain ⟨hv, rfl, hold'⟩ := hf
    exact .claim hv hold ⟨_, k, hp⟩ hold'
  | initToken =>
    obtain ⟨rfl, hv⟩ | ⟨hv, rfl, rfl, hpub⟩ := hf
    · subst hold
      exact .own hv ⟨_, k, hp⟩
    · exact .release hv hold hpub
  | serverToken =>
    obtain ⟨hv, rfl, rfl⟩ := hf
    exact .detach hv hold
  | _ => exact hf.elim

theorem Inv.turn (hi : Inv ep s) (h : step ep s (.next e) = some s') :
    s.dead e = false ∧ Turn ep s e s' := by
  have hf := hi.follows e
  obtain ⟨t, ht, rfl⟩ := Option.map_eq_some_iff.mp h
  simp only [Threads.step, Option.ite_none_left_eq_some, Bool.not_eq_true] at ht
  obtain ⟨halive, ht⟩ := ht
  refine ⟨halive, ?_⟩
  obtain ⟨⟨mem, p⟩, hx, rfl⟩ := Option.map_eq_some_iff.mp ht
  have hsame : ∀ mem : Mem, (∀ f, f.watched = true → mem f = s.mem f) →
      Turn ep s e (s.put e mem (s.view e) p) :=
    fun mem hm => .quiet hm .refl (fun _ _ => .inl) (hi.time e)
  cases hp : s.prog e with
  | load f k =>
    rw [hp] at hx
    cases hx
    simp only [State.note, hp]
    refine .quiet (fun _ _ => rfl) .of_load (fun g w hw => ?_) (hi.time e)
    rcases View.load_read hw with ⟨rfl, rfl⟩ | ⟨-, hw⟩
    · exact .inr rfl
    · exact .inl hw
  | store f w k =>
    rw [hp] at hx hf
    cases hx
    exact turn_of_store hi _ hp hf.1
  | cas f old new k =>
    rw [hp] at hx hf
    simp only [State.note, hp]
    rcases Decidable.em (s.mem f = old) with hold | hold
    · simp only [Prog.exec, hold, if_true] at hx
      cases hx
      simpa [Tracker.after, hold] using turn_of_swap _ hp hf.1 hold
    · simp only [Prog.exec, hold, if_false] at hx
      cases hx
      simpa [State.put, Tracker.after, hold] using hsame s.mem fun _ _ => rfl
  | add f w k =>
    rw [hp] at hx hf
    cases hx
    obtain rfl : f = .epoch := hf.1
    simp only [State.note, hp]
    refine hsame _ fun f hf => Function.update_of_ne ?_ _ _
    rintro rfl
    simp [Field.watched, Field.server] at hf
  | clock k =>
    rw [hp] at hx
    cases hx
    simp only [State.note, hp]
    exact .quiet (fun _ _ => rfl) .of_look (fun _ _ => .inl) le_rfl
  | skip k =>
    rw [hp] at hx
    cases hx
    simp only [State.note, hp]
    exact hsame _ fun _ _ => rfl
  | jump l =>
    rw [hp] at hx
    obtain ⟨q, -, hx⟩ := Option.map_eq_some_iff.mp hx
    cases hx
    simp only [State.note, hp]
    exact hsame _ fun _ _ => rfl

/-! ## What an acceptor must not do -/

def State.reusing (s : State Eid) (e : Eid) : Bool :=
  match s.prog e with
  | .cas .state old _ _ => decide (old = stateReady ∧ s.mem .state = stateReady)
  | _ => false

def State.stampsServer (s : State Eid) (e : Eid) : Bool :=
  match s.prog e with
  | .store f _ _ => f.server
  | _ => false

def Undisturbed (s : State Eid) (e : Eid) : Prop :=
  s.reusing e = true → s.unchanged e .serverToken = true ∧ s.unchanged e .serverInterval = true ∧
    s.unchanged e .serverHeartbeat = true

/-- An initializer stores them only while `initToken` is its own, and an acceptor that serves only
while nobody has taken its segment. -/
def InOffice (ep : Eid → Acceptor) (s : State Eid) (e : Eid) : Prop :=
  s.stampsServer e = true →
    if (s.view e).phase = .owner then s.mem .initToken = (ep e).token
    else s.mem .state = stateReady ∧ s.commits.getLast? = some e

def Careful (ep : Eid → Acceptor) (s : State Eid) : Act Eid → Prop
  | .next e => s.toThreads.Exclusive stateInitializing e ∧ Undisturbed s e ∧ InOffice ep s e
  | .close _ | .kill _ | .tick _ => True

/-! ## Turns keep the ownership -/

theorem Field.ne_of_server {f g : Field} (hf : f.server = true) (hg : g.server = false) : g ≠ f := by
  rintro rfl
  simp [hg] at hf

theorem stateReady_ne : stateReady ≠ stateInitializing := by decide

theorem stateEmpty_ne : stateEmpty ≠ stateInitializing := by decide

theorem owned_of_turn (hep : Distinct ep) (ho : s.Owned) (halive : s.dead e = false)
    (hok : s.toThreads.Exclusive stateInitializing e) (ht : Turn ep s e s') : s'.Owned := by
  cases ht with
  | quiet hmem hview hread htime =>
    exact .of_words (ho.mono fun _ => Threads.inWindow_of_phase halive rfl rfl hview.phase) (hmem .state rfl)
      (hmem .initToken rfl)
  | @server f w p hp hf hw =>
    have hphase := View.store_phase (v := s.view e) (w := w) (Field.ne_of_server (g := .state) hf rfl).symm
    exact .of_words (ho.mono fun _ => Threads.inWindow_of_phase halive rfl rfl hphase)
      (Function.update_of_ne (Field.ne_of_server hf rfl) ..)
      (Function.update_of_ne (Field.ne_of_server hf rfl) ..)
  | settle hv =>
    refine .of_words (ho.settle ⟨halive, .inr hv⟩ fun _ h => ?_) rfl (by simp)
    exact Threads.inWindow_other h rfl rfl (by simp [View.store])
  | claim hv hstate hp hold =>
    have hne : s.mem .state ≠ stateInitializing := by
      rw [hstate]
      rcases hold with rfl | ⟨rfl, -⟩
      · exact stateEmpty_ne
      · exact stateReady_ne
    exact .of_words (ho.claim hne fun _ => Threads.inWindow_or rfl rfl) (by simp) (by simp)
  | own hv hp =>
    obtain ⟨hstate, hone⟩ := Threads.Owned.before_own ho halive hok hv hp
    refine .of_words (Owned.own hstate hone fun _ h => Threads.inWindow_other h rfl rfl ?_) (by simp) rfl
    simp [View.swap_own_phase _ (hep.token_ne e)]
  | release hv htok hpub =>
    exact .of_words (ho.release (htok ▸ hep.token_ne e) fun _ => Threads.inWindow_or rfl rfl) (by simp) (by simp)
  | detach hv htok =>
    refine .of_words (ho.mono fun _ h => ?_) (by simp) (by simp)
    exact (Threads.inWindow_other (s := s.toThreads) h rfl rfl (by simp [View.swap])).2

/-! ## Turns keep the record -/

omit [DecidableEq Eid] in
theorem State.Agrees.congr {e' : Eid} (h : s.Agrees e') (hmem : ∀ f, f.server = true → s'.mem f = s.mem f)
    (hwrote : ∀ f, f.server = true → (s'.view e').wrote f = (s.view e').wrote f) : s'.Agrees e' := by
  intro f w hf hw
  rw [hmem f hf]
  exact h f w hf (hwrote f hf ▸ hw)

omit [DecidableEq Eid] in
theorem holds_unique (hep : Distinct ep) (ho : s.Owned) {e' : Eid} (h : s.Holds ep e)
    (h' : s.Holds ep e') : e' = e := by
  have hinit : ∀ {e}, s.mem .initToken = (ep e).token → s.mem .state = stateInitializing :=
    fun {e} htok => ho.held (htok ▸ hep.token_ne e)
  have hready : s.mem .state = stateReady → s.mem .state ≠ stateInitializing :=
    fun hs hi => stateReady_ne (hs.symm.trans hi)
  rcases h with ⟨-, htok⟩ | ⟨hd, hv⟩ | ⟨hs, hl, -⟩
  · rcases h' with ⟨-, htok'⟩ | ⟨hd', hv'⟩ | ⟨hs', -⟩
    · exact hep.inj _ _ (htok'.symm.trans htok)
    · have hzero := (ho.window e' ⟨hd', .inr hv'⟩).2.1
      exact absurd (htok.symm.trans hzero) (hep.token_ne e)
    · exact absurd (hinit htok) (hready hs')
  · have hwin := ho.window e ⟨hd, .inr hv⟩
    rcases h' with ⟨-, htok'⟩ | ⟨hd', hv'⟩ | ⟨hs', -⟩
    · exact absurd (htok'.symm.trans hwin.2.1) (hep.token_ne e')
    · exact hwin.2.2 e' ⟨hd', .inr hv'⟩
    · exact absurd hwin.1 (hready hs')
  · rcases h' with ⟨-, htok'⟩ | ⟨hd', hv'⟩ | ⟨-, hl', -⟩
    · exact absurd (hinit htok') (hready hs)
    · exact absurd (ho.window e' ⟨hd', .inr hv'⟩).1 (hready hs)
    · exact Option.some.inj (hl'.symm.trans hl)

theorem Record.of_view (hr : Record ep s) {v : View} (hview : s'.view = Function.update s.view e v)
    (hmine : ∀ w, v.wrote .serverToken = some w → w = (ep e).token)
    (hself : s'.Holds ep e → s'.Agrees e ∧ (v.phase ≠ .owner → v.Published (ep e)))
    (hother : ∀ e', e' ≠ e → s'.Holds ep e' → s.Holds ep e' ∧ ∀ f w, f.server = true →
      (s.view e').wrote f = some w → s'.mem f = s.mem f) : Record ep s' := by
  have hsame : ∀ e', e' ≠ e → s'.view e' = s.view e' := by
    intro e' he
    rw [hview, Function.update_of_ne he]
  have hown : s'.view e = v := by rw [hview, Function.update_self]
  refine ⟨fun e' w hw => ?_, fun e' h => ?_, fun e' h hv => ?_⟩
  all_goals rcases eq_or_ne e' e with rfl | he
  · exact hmine w (hown ▸ hw)
  · exact hr.mine e' w (hsame e' he ▸ hw)
  · exact (hself h).1
  · obtain ⟨hold, hmem⟩ := hother e' he h
    intro f w hf hw
    rw [hsame e' he] at hw
    rw [hmem f w hf hw]
    exact hr.agrees e' hold f w hf hw
  · rw [hown] at hv ⊢
    exact (hself h).2 hv
  · rw [hsame e' he] at hv ⊢
    exact hr.published e' (hother e' he h).1 hv

theorem holds_other {v : View} {e' : Eid} (h : s'.Holds ep e') (he : e' ≠ e)
    (hview : s'.view = Function.update s.view e v) (hdead : s'.dead = s.dead)
    (hinit : s'.mem .initToken = (ep e').token → s.mem .initToken = (ep e').token)
    (hready : s'.mem .state = stateReady ∧ s'.commits.getLast? = some e' →
      s.mem .state = stateReady ∧ s.commits.getLast? = some e') : s.Holds ep e' := by
  unfold State.Holds at h
  rw [hview, Function.update_of_ne he, hdead, ← and_assoc] at h
  rcases h with ⟨hv, htok⟩ | hcom | ⟨hserves, hv⟩
  · exact .inl ⟨hv, hinit htok⟩
  · exact .inr (.inl hcom)
  · exact .inr (.inr ⟨(hready hserves).1, (hready hserves).2, hv⟩)

omit [DecidableEq Eid] in
theorem words_update {g : Field} {w : Word} (hg : g.server = false) (f : Field) (hf : f.server = true) :
    Function.update s.mem g w f = s.mem f :=
  Function.update_of_ne (Field.ne_of_server hf hg).symm _ _

theorem Field.watched_of_server {f : Field} (hf : f.server = true) : f.watched = true := by
  cases f <;> first | rfl | exact hf

theorem holds_of_keep {mem : Mem} {v : View} {p : Code} {e' : Eid} (hphase : v.phase = (s.view e).phase)
    (hstate : mem .state = s.mem .state) (hinit : mem .initToken = s.mem .initToken)
    (h : State.Holds ep (s.put e mem v p) e') : s.Holds ep e' := by
  unfold State.Holds at h ⊢
  dsimp only at h
  rw [hstate, hinit] at h
  rcases eq_or_ne e' e with rfl | he
  · rw [Function.update_self, hphase] at h
    exact h
  · rw [Function.update_of_ne he] at h
    exact h

theorem Record.of_quiet (hr : Record ep s) {mem : Mem} {v : View} {p : Code}
    (hmem : ∀ f, f.watched = true → mem f = s.mem f) (hview : Keeps (s.view e) v) :
    Record ep (s.put e mem v p) := by
  have hkeep : ∀ {e'}, State.Holds ep _ e' → s.Holds ep e' :=
    holds_of_keep (p := p) hview.phase (hmem .state rfl) (hmem .initToken rfl)
  have hwords : ∀ f, f.server = true → mem f = s.mem f := fun f hf => hmem f (Field.watched_of_server hf)
  refine hr.of_view rfl (fun w hw => hr.mine e w (hview.wrote .serverToken rfl ▸ hw)) (fun h => ?_)
    fun e' he h => ⟨hkeep h, fun f w hf _ => hwords f hf⟩
  refine ⟨(hr.agrees e (hkeep h)).congr hwords fun f hf => ?_, fun hv => ?_⟩
  · dsimp only
    rw [Function.update_self]
    exact hview.wrote f hf
  · exact (hr.published e (hkeep h) (hview.phase ▸ hv)).keep hview

theorem Record.of_server (hep : Distinct ep) (hr : Record ep s) (ho : s.Owned) (hholds : s.Holds ep e)
    {f : Field} {w : Word} {p : Code} (hf : f.server = true) (hw : (s.view e).MayStore (ep e) f w) :
    Record ep (s.stored e f w p) := by
  have hstate := Field.ne_of_server (g := .state) hf rfl
  have hinit := Field.ne_of_server (g := .initToken) hf rfl
  have hphase : ((s.view e).store f w).phase = (s.view e).phase := View.store_phase hstate.symm
  have hkeep : ∀ {e'}, State.Holds ep _ e' → s.Holds ep e' := holds_of_keep (p := p) hphase
    (Function.update_of_ne hstate w s.mem) (Function.update_of_ne hinit w s.mem)
  refine hr.of_view rfl (fun w' hw' => ?_) (fun _ => ⟨fun g w' hg hw' => ?_, fun hv => ?_⟩) fun e' he h => ?_
  · rcases eq_or_ne .serverToken f with rfl | hne
    · rw [View.store_wrote_self] at hw'
      exact (Option.some.inj hw').symm.trans (hw.token rfl)
    · rw [View.store_wrote_of_ne hne] at hw'
      exact hr.mine e w' hw'
  · dsimp only at hw' ⊢
    rw [Function.update_self] at hw'
    rcases eq_or_ne g f with rfl | hne
    · rw [View.store_wrote_self] at hw'
      rw [Function.update_self]
      exact Option.some.inj hw'
    · rw [View.store_wrote_of_ne hne] at hw'
      rw [Function.update_of_ne hne]
      exact hr.agrees e hholds g w' hg hw'
  · -- An acceptor that serves stores heartbeats only.
    rw [hphase] at hv
    obtain ⟨-, rfl⟩ := (hw.server hf).resolve_left hv
    have hpub := hr.published e hholds hv
    exact ⟨by simpa using hpub.token, by simpa using hpub.interval, by simp⟩
  · exact absurd (holds_unique hep ho hholds (hkeep h)) he

theorem Record.of_turn (hep : Distinct ep) (hr : Record ep s) (ho : s.Owned)
    (halive : s.dead e = false) (hok : InOffice ep s e) (ht : Turn ep s e s') : Record ep s' := by
  cases ht with
  | quiet hmem hview hread htime => exact hr.of_quiet hmem hview
  | @server f w p hp hf hw =>
    refine hr.of_server hep ho ?_ hf hw
    obtain ⟨k, hp⟩ := hp
    have hoffice := hok (by simp [State.stampsServer, hp, hf])
    rcases hw.server hf with hv | ⟨hv, -⟩
    · rw [if_pos hv] at hoffice
      exact .inl ⟨hv, hoffice⟩
    · rw [if_neg (by simp [hv])] at hoffice
      exact .inr (.inr ⟨hoffice.1, hoffice.2, hv⟩)
  | settle hv =>
    have hholds : s.Holds ep e := .inr (.inl ⟨halive, hv⟩)
    have hkeeps : ∀ f, f.server = true →
        ((s.view e).store .state stateReady).wrote f = (s.view e).wrote f :=
      fun f hf => View.store_wrote_of_ne (Field.ne_of_server hf rfl).symm
    refine hr.of_view rfl (fun w hw => hr.mine e w (hkeeps .serverToken rfl ▸ hw))
      (fun _ => ⟨(hr.agrees e hholds).congr (words_update rfl) fun f hf => ?_, fun _ => ?_⟩)
      fun e' he h => ⟨holds_other h he rfl rfl (by simp) ?_, fun f w hf _ => words_update rfl f hf⟩
    · dsimp only
      rw [Function.update_self, hkeeps f hf]
    · have hpub := hr.published e hholds (by simp [hv])
      exact ⟨(hkeeps _ rfl).trans hpub.token, (hkeeps _ rfl).trans hpub.interval,
        (hkeeps .serverHeartbeat rfl).symm ▸ hpub.heartbeat⟩
    · rintro ⟨-, hlast⟩
      simp only [List.getLast?_concat, Option.some.injEq] at hlast
      exact absurd hlast.symm he
  | claim hv hstate hp hold =>
    refine hr.of_view rfl (fun w hw => hr.mine e w hw) (fun h => ?_) fun e' he h =>
      ⟨holds_other h he rfl rfl (by simp) ?_, fun f w hf _ => words_update rfl f hf⟩
    · exfalso
      unfold State.Holds at h
      simp [View.swap] at h
    · rintro ⟨hready, -⟩
      simp only [Function.update_self] at hready
      exact absurd hready.symm stateReady_ne
  | own hv hp =>
    have hswap := (s.view e).swap_own (hep.token_ne e)
    refine hr.of_view rfl (fun w hw => ?_) (fun _ => ⟨fun f w _ hw => ?_, fun hne => ?_⟩) fun e' he h =>
      ⟨holds_other h he rfl rfl (fun htok => ?_) (by simp), fun f w hf _ => words_update rfl f hf⟩
    · rw [hswap] at hw
      exact absurd hw (by simp)
    · dsimp only at hw
      rw [Function.update_self, hswap] at hw
      exact absurd hw (by simp)
    · exact absurd (View.swap_own_phase _ (hep.token_ne e)) hne
    · simp only [Function.update_self] at htok
      exact absurd (hep.inj _ _ htok.symm) he
  | release hv htok hpub =>
    have hholds : s.Holds ep e := .inl ⟨hv, htok⟩
    have hswap : (s.view e).swap .initToken 0 = { s.view e with phase := .committing } := by
      simp [View.swap]
    refine hr.of_view rfl (fun w hw => ?_)
      (fun _ => ⟨(hr.agrees e hholds).congr (words_update rfl) fun f _ => ?_, fun _ => ?_⟩)
      fun e' he h => ⟨holds_other h he rfl rfl (fun htok => ?_) (by simp),
        fun f w hf _ => words_update rfl f hf⟩
    · rw [hswap] at hw
      exact hr.mine e w hw
    · dsimp only
      rw [Function.update_self, hswap]
    · rw [hswap]
      exact ⟨hpub.token, hpub.interval, hpub.heartbeat⟩
    · simp only [Function.update_self] at htok
      exact absurd htok.symm (hep.token_ne e')
  | detach hv htok =>
    refine hr.of_view rfl (fun w hw => hr.mine e w hw) (fun h => ?_) fun e' he h => ?_
    · exfalso
      unfold State.Holds at h
      simp [View.swap] at h
    · have hholds : s.Holds ep e' := holds_other h he rfl rfl (by simp) (by simp)
      refine ⟨hholds, fun f w hf hw => Function.update_of_ne ?_ _ _⟩
      -- The token in the header is that of `e`.
      rintro rfl
      have hmem := hr.agrees e' hholds .serverToken w rfl hw
      rw [htok, hr.mine e' w hw] at hmem
      exact he (hep.inj _ _ hmem).symm

theorem Turn.clock_eq (ht : Turn ep s e s') : s'.clock = s.clock := by
  cases ht <;> rfl

theorem timely_of_turn (hi : s.Timely Field.beat) (ht : Turn ep s e s') : s'.Timely Field.beat := by
  cases ht with
  | quiet hmem hview hread htime =>
    refine hi.of_view rfl (fun f hf => ?_) rfl htime hread
    have hwatched : f.watched = true := by
      cases f <;> first | rfl | cases hf
    dsimp only
    rw [hmem f hwatched]
    exact hi.beat f hf
  | @server f w p hp hf hw =>
    refine hi.of_word rfl rfl (fun hbeat => ?_) rfl rfl rfl
    exact (hw.heartbeat hbeat).trans (hi.time e)
  | settle hv => exact hi.of_word rfl rfl nofun rfl rfl rfl
  | _ => exact hi.of_word rfl rfl nofun rfl (by simp) (by simp)

omit [DecidableEq Eid] in
theorem Inv.of_idle (hi : Inv ep s) (hmem : s'.mem = s.mem) (hview : s'.view = s.view)
    (hcommits : s'.commits = s.commits) (hdead : ∀ e, s'.dead e = false → s.dead e = false)
    (hclock : s.clock ≤ s'.clock) (hlt : s'.clock < 2 ^ 63)
    (hfollows : ∀ e, Follows (ep e) (s'.view e) (s'.prog e)) : Inv ep s' := by
  have hholds : ∀ e, s'.Holds ep e → s.Holds ep e := by
    intro e h
    unfold State.Holds at h ⊢
    rw [hmem, hview, hcommits] at h
    exact h.imp_right (Or.imp_left fun hc => ⟨hdead e hc.1, hc.2⟩)
  have howned : s'.Owned := by
    unfold State.Owned
    rw [hmem]
    refine hi.owned.mono fun e he => ⟨hdead e he.1, ?_⟩
    have := he.2
    rwa [hview] at this
  have hagrees : ∀ e, s.Agrees e → s'.Agrees e := fun e ha =>
    ha.congr (fun _ _ => by rw [hmem]) fun _ _ => by rw [hview]
  refine { hi.toTimely.later hmem hview hclock with
    owned := howned
    record := ⟨?_, ?_, ?_⟩
    follows := hfollows
    clock := hlt }
  · intro e w hw
    rw [hview] at hw
    exact hi.record.mine e w hw
  · exact fun e h => hagrees e (hi.record.agrees e (hholds e h))
  · intro e h hv
    rw [hview] at hv ⊢
    exact hi.record.published e (hholds e h) hv

theorem step_idle {a : Act Eid} (ha : ∀ e, a ≠ .next e) (h : step ep s a = some s') :
    s'.commits = s.commits ∧ s.Idle (fun e => closing (ep e)) a s'.toThreads := by
  obtain ⟨t, ht, rfl⟩ := Option.map_eq_some_iff.mp h
  rcases Threads.step_cases ht with ⟨e, rfl, -⟩ | hidle
  · exact absurd rfl (ha e)
  refine ⟨?_, hidle⟩
  cases a with
  | next e => exact absurd rfl (ha e)
  | close e | kill e | tick d => rfl

theorem Inv.of_step (hep : Distinct ep) (hi : Inv ep s) {a : Act Eid} (hok : Careful ep s a)
    (h : step ep s a = some s') : Inv ep s' := by
  have hfollows : ∀ e, Follows (ep e) (s'.view e) (s'.prog e) := by
    obtain ⟨t, ht, rfl⟩ := Option.map_eq_some_iff.mp h
    exact Threads.follows_step (d := fun e => discipline (ep e)) hi.follows (fun e => hi.granted)
      (fun e l q v hl => follows_code (hep.token_ne e) hl) (fun e l q v => follows_closing) ht
  by_cases ha : ∃ e, a = .next e
  · obtain ⟨e, rfl⟩ := ha
    obtain ⟨halive, ht⟩ := hi.turn h
    exact { timely_of_turn hi.toTimely ht with
      owned := owned_of_turn hep hi.owned halive hok.1 ht
      record := hi.record.of_turn hep hi.owned halive hok.2.2 ht
      follows := hfollows
      clock := ht.clock_eq ▸ hi.clock }
  · obtain ⟨hcommits, hidle⟩ := step_idle (fun e he => ha ⟨e, he⟩) h
    exact hi.of_idle hidle.mem hidle.view hcommits (fun _ => hidle.alive) hidle.clock.1
      (hidle.clock.2 hi.clock) hfollows

omit [DecidableEq Eid] in
theorem Inv.start {t0 : Nat} (ht0 : t0 < 2 ^ 63) : Inv ep (start ep t0) where
  time := by simp [Acceptors.start]
  beat := by simp [Acceptors.start]
  beatRead := by simp [Acceptors.start]
  owned := ⟨by simp [Threads.InWindow, Acceptors.start], by simp [Acceptors.start]⟩
  record := ⟨by simp [Acceptors.start], by simp [State.Agrees, Acceptors.start],
    by simp [State.Holds, Acceptors.start]⟩
  follows := fun e => follows_claimListener rfl
  clock := ht0

theorem inv_of_reach (hep : Distinct ep) {t0 : Nat} (ht0 : t0 < 2 ^ 63)
    (hs : (machine ep t0).Reach (Careful ep) s) : Inv ep s :=
  hs.invariant (.start ht0) fun _ _ _ _ hi hok h => hi.of_step hep hok h

/-! ## An acceptor that is alive -/

/-- The acceptor serves the `Ready` segment, and its last heartbeat is less than four of its
intervals old. -/
structure State.OnTime (ep : Eid → Acceptor) (s : State Eid) (e : Eid) : Prop where
  ready : s.mem .state = stateReady
  last : s.commits.getLast? = some e
  serving : (s.view e).phase = .settled
  beat : ∃ h, (s.view e).wrote .serverHeartbeat = some h ∧
    (s.clock : Int) < h.toNat + 4 * (ep e).heartbeatInterval.toInt

theorem four_intervals {interval : Word} (hpos : 0 < interval.toInt) (hhour : interval.toInt ≤ hour) :
    (4 * interval).toInt = 4 * interval.toInt := by
  rw [BitVec.toInt_mul]
  change (4 * interval.toInt).bmod (2 ^ 64) = _
  unfold hour Superblock.second at hhour
  rw [Int.bmod_eq_of_le (by omega) (by omega)]

theorem le_effectivePeerTimeout (a : Acceptor) (interval : Word) :
    (4 * interval).toInt ≤ effectivePeerTimeout a interval := by
  unfold effectivePeerTimeout
  split <;> omega

omit [DecidableEq Eid] in
theorem Inv.not_onTime (hi : Inv ep s) {b : Eid} (hdead : (s.view e).JudgedDead (ep e))
    (htok : s.unchanged e .serverToken = true) (hint : s.unchanged e .serverInterval = true)
    (hbeat : s.unchanged e .serverHeartbeat = true) (howner : isOwnerToken (ep b).token = true) :
    ¬ s.OnTime ep b := by
  intro hb
  obtain ⟨h, hwrote, hrecent⟩ := hb.beat
  have hholds : s.Holds ep b := .inr (.inr ⟨hb.ready, hb.last, hb.serving⟩)
  have hpub := hi.record.published b hholds (by simp [hb.serving])
  have hagrees := hi.record.agrees b hholds
  obtain ⟨tok, hread, hstale⟩ := hdead
  have htoken : tok = (ep b).token := by
    rw [← Threads.unchanged_eq htok hread]
    exact hagrees _ _ rfl hpub.token
  obtain ⟨interval, hb', hri, hrh, hpos, hhour, -, hle, hfresh⟩ := hstale (htoken ▸ howner)
  have hinterval : interval = (ep b).heartbeatInterval := by
    rw [← Threads.unchanged_eq hint hri]
    exact hagrees _ _ rfl hpub.interval
  have hheartbeat : hb' = h := by
    rw [← Threads.unchanged_eq hbeat hrh]
    exact hagrees _ _ rfl hwrote
  subst hinterval hheartbeat
  have hlater := Superblock.View.heartbeatFresh_later hfresh hle (hi.time e) hi.clock
  have htimeout := le_effectivePeerTimeout (ep e) (ep b).heartbeatInterval
  rw [four_intervals hpos hhour] at htimeout
  have hclock := hi.clock
  have htime := hi.time e
  have hsigned : hb'.toInt = hb'.toNat := BitVec.toInt_eq_toNat_of_lt (by omega)
  simp only [heartbeatFresh, Superblock.second, hsigned, Bool.and_eq_false_iff,
    decide_eq_false_iff_not] at hlater
  omega

/-! ## One acceptor -/

def State.Passes (ep : Eid → Acceptor) (s : State Eid) (e : Eid) : Prop :=
  s.mem .initToken = (ep e).token

/-- At most one acceptor passes the check, and only while the header says `Initializing`. -/
structure OneAcceptor (ep : Eid → Acceptor) (s : State Eid) : Prop where
  initializing : ∀ e, s.Passes ep e → s.mem .state = stateInitializing
  alone : ∀ e e', s.Passes ep e → s.Passes ep e' → e' = e
  spares : ∀ a s', Careful ep s a → step ep s a = some s' → s.mem .state = stateReady →
    s'.mem .state ≠ stateReady → ∀ b, ¬ s.OnTime ep b

theorem Turn.reuses (ht : Turn ep s e s') (hbefore : s.mem .state = stateReady)
    (hafter : s'.mem .state ≠ stateReady) : s.reusing e = true ∧ (s.view e).JudgedDead (ep e) := by
  cases ht with
  | claim hv hstate hp hold =>
    obtain ⟨new, k, hp⟩ := hp
    rcases hold with rfl | ⟨rfl, hdead⟩
    · exact absurd (hstate.symm.trans hbefore) (by decide)
    · exact ⟨by simp [State.reusing, hp, hbefore], hdead⟩
  | quiet hmem => exact absurd ((hmem .state rfl).trans hbefore) hafter
  | @server f w p hp hf hw =>
    have hne := Field.ne_of_server (g := .state) hf rfl
    exact absurd ((Function.update_of_ne hne _ _).trans hbefore) hafter
  | settle hv => simp at hafter
  | _ => simp_all

theorem one_acceptor (hep : Distinct ep) {t0 : Nat} (ht0 : t0 < 2 ^ 63)
    (hs : (machine ep t0).Reach (Careful ep) s) : OneAcceptor ep s := by
  have hi := inv_of_reach hep ht0 hs
  refine ⟨fun e he => ?_, fun e e' he he' => ?_, fun a s' hok h hbefore hafter b => ?_⟩
  · exact hi.owned.held fun h0 => hep.token_ne e (he.symm.trans h0)
  · exact hep.inj _ _ (he'.symm.trans he)
  · by_cases ha : ∃ e, a = .next e
    · obtain ⟨e, rfl⟩ := ha
      obtain ⟨hreusing, hdead⟩ := (hi.turn h).2.reuses hbefore hafter
      obtain ⟨htok, hint, hbeat⟩ := hok.2.1 hreusing
      exact hi.not_onTime hdead htok hint hbeat (hep.owner b)
    · have hidle := (step_idle (fun e he => ha ⟨e, he⟩) h).2
      exact absurd (hidle.mem ▸ hbefore) hafter

omit [DecidableEq Eid] in
instance (s : State Eid) (e : Eid) : Decidable (Undisturbed s e) :=
  inferInstanceAs (Decidable (_ → _))

instance (ep : Eid → Acceptor) (s : State Eid) (e : Eid) : Decidable (InOffice ep s e) :=
  inferInstanceAs (Decidable (_ → ite _ _ _))

instance [Fintype Eid] (ep : Eid → Acceptor) (s : State Eid) : ∀ a, Decidable (Careful ep s a)
  | .next _ => inferInstanceAs (Decidable (_ ∧ _ ∧ _))
  | .close _ | .kill _ | .tick _ => .isTrue trivial

omit [DecidableEq Eid] in
instance (ep : Eid → Acceptor) (s : State Eid) (e : Eid) : Decidable (s.Passes ep e) :=
  inferInstanceAs (Decidable (_ = _))

def rivals (i : Fin 3) : Acceptor where
  token := 100 + BitVec.ofNat 64 i
  creatorToken := 0
  pid := 1
  heartbeatInterval := 500000000
  peerTimeout := 3000000000
  attachTimeout := 5000000000
  initStale := 0
  queueSize := 2
  layoutSize := 4096
  maxBufferCount := 0
  maxBufferSize := 0
  maxLinkSize := 0
  features := 0
  prefixLen := 0
  prefixWord := fun _ => 0

theorem rivals_distinct : Distinct rivals := by
  constructor <;> decide

def turns (n : Nat) (e : Eid) : List (Act Eid) := List.replicate n (.next e)

/-- The first acceptor serves and dies. The second one judges it dead, watches it for a while and
takes the segment. -/
def succession : List (Act (Fin 3)) :=
  turns 74 0 ++ [.kill 0, .tick 10000000000] ++ turns 11 1 ++ [.tick 2000000000] ++ turns 13 1

theorem one_acceptor_succession :
    ∃ s, (machine rivals 1).Reach (Careful rivals) s ∧ s.Passes rivals 1 ∧ s.commits = [0] ∧
      OneAcceptor rivals s := by
  obtain ⟨s, hs, hpass, hcommits⟩ : ∃ s, (machine rivals 1).Reach (Careful rivals) s ∧
      s.Passes rivals 1 ∧ s.commits = [0] :=
    Machine.exists_reach succession (by decide +kernel)
  exact ⟨s, hs, hpass, hcommits, one_acceptor rivals_distinct (by decide) hs⟩

/-- The first acceptor sleeps after its swap of `state`. The second one takes over from the token
0 and serves. -/
def lateClaim : List (Act (Fin 3)) :=
  turns 30 0 ++ turns 11 1 ++ [.tick 3000000000] ++ turns 52 1 ++ turns 5 0

/-- The first acceptor dies, and two others judge it dead. One of them sleeps before its swap. -/
def lateSwap : List (Act (Fin 3)) :=
  turns 74 0 ++ [.kill 0, .tick 10000000000] ++ turns 11 1 ++ turns 11 2 ++ [.tick 2000000000] ++
    turns 2 2 ++ turns 47 1

/-- An acceptor passes the check of a segment that another one serves, and an acceptor that has
just started to serve loses its segment. -/
theorem late_acceptor_takes_over :
    (∃ s, (machine rivals 1).Reachable s ∧ s.mem .state = stateReady ∧ s.commits = [1] ∧
      s.dead 1 = false ∧ s.Passes rivals 0) ∧
    ∃ s s', (machine rivals 1).Reachable s ∧ s.dead 1 = false ∧ s.OnTime rivals 1 ∧
      step rivals s (.next 2) = some s' ∧ s'.mem .state = stateInitializing := by
  refine ⟨Machine.exists_reachable lateClaim (by decide +kernel), ?_⟩
  obtain ⟨s, hs, halive, hready, hlast, hserving, hbeat, hclock, hnext⟩ :
      ∃ s, (machine rivals 1).Reachable s ∧ s.dead 1 = false ∧ s.mem .state = stateReady ∧
        s.commits.getLast? = some 1 ∧ (s.view 1).phase = .settled ∧
        (s.view 1).wrote .serverHeartbeat = some 12000000001 ∧ s.clock = 12000000001 ∧
        (step rivals s (.next 2)).map (·.mem .state) = some stateInitializing :=
    Machine.exists_reachable lateSwap (by decide +kernel)
  obtain ⟨s', hstep, hstate⟩ := Option.map_eq_some_iff.mp hnext
  refine ⟨s, s', hs, halive, ⟨hready, hlast, hserving, _, hbeat, ?_⟩, hstep, hstate⟩
  rw [hclock]
  decide

end Hqq.Acceptors
