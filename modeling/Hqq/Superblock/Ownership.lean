import Mathlib.Data.Fintype.Basic
import Hqq.Superblock.View

/-!
# Who may initialize

`state` says that there is an initializer, and `initToken` says who it is. An endpoint owns the
initialization with its swap of `state` before its token stands in `initToken`, and still owns it
after it took the token out and before it stores `Ready`. In these two windows `initToken` is 0.
-/

namespace Hqq.Superblock

variable {Eid : Type}

abbrev State.Owned (s : State Eid) : Prop :=
  Hqq.Owned stateInitializing 0 (s.mem .state) (s.mem .initToken) s.InWindow

variable [DecidableEq Eid]

/-! ## One turn of an endpoint -/

def Field.watched : Field → Bool
  | .state | .initToken => true
  | f => f.published

abbrev State.put (s : State Eid) (e : Eid) (mem : Mem) (v : View) (p : Code) : State Eid :=
  { s with mem := mem, view := Function.update s.view e v, prog := Function.update s.prog e p }

abbrev State.stored (s : State Eid) (e : Eid) (f : Field) (w : Word) (p : Code) : State Eid :=
  s.put e (Function.update s.mem f w) ((s.view e).store f w) p

abbrev State.swapped (s : State Eid) (e : Eid) (f : Field) (w : Word) (p : Code) : State Eid :=
  s.put e (Function.update s.mem f w) ((s.view e).swap f w) p

/-- What an instruction of endpoint `e` may do to the segment and to the history. -/
inductive Turn (ep : Eid → Endpoint) (s : State Eid) (e : Eid) : State Eid → Prop
  | quiet {mem : Mem} {v : View} {p : Code}
      (hmem : ∀ f, f.watched = true → mem f = s.mem f)
      (hbeat : ∀ f, f.beat = true → (mem f).toNat ≤ s.clock)
      (hview : Keeps (s.view e) v)
      (hread : ∀ f w, v.read f = some w →
        (s.view e).read f = some w ∨ f ≠ .state ∧ w = s.mem f)
      (htime : v.time ≤ s.clock) : Turn ep s e (s.put e mem v p)
  | look {p : Code} :
      Turn ep s e { s.put e s.mem ((s.view e).load .state (s.mem .state)) p with
        takesSeen := Function.update s.takesSeen e s.takes.length
        epochSeen := Function.update s.epochSeen e s.commits.length }
  | publish {f : Field} {w : Word} {p : Code} (hf : f.published = true)
      (hv : (s.view e).phase = .owner) (hp : ∃ k, s.prog e = .store f w k)
      (hw : f = .token .secondary → w = 0) : Turn ep s e (s.stored e f w p)
  | settle {p : Code} (hv : (s.view e).phase = .committing) :
      Turn ep s e { s.stored e .state stateReady p with commits := s.commits ++ [e] }
  | claim {p : Code} (hv : (s.view e).phase = .outside) (hstate : s.mem .state = stateEmpty) :
      Turn ep s e (s.swapped e .state stateInitializing p)
  | reuse {p : Code} (hv : (s.view e).phase = .outside) (hstate : s.mem .state = stateReady)
      (hp : ∃ new k, s.prog e = .cas .state stateReady new k)
      (hread : (s.view e).read .state = some stateReady)
      (hprim : (s.view e).JudgedDead (ep e) .primary)
      (hsec : (s.view e).JudgedDead (ep e) .secondary) :
      Turn ep s e { s.swapped e .state stateInitializing p with
        takes := s.takes ++ [⟨e, s.epochSeen e, s.commits.length, s.mem, s.clock⟩] }
  | own {p : Code}
      (hv : (s.view e).phase = .claimed ∧ s.mem .initToken = 0 ∨ (s.view e).phase = .outside)
      (hp : ∃ new k, s.prog e = .cas .initToken (s.mem .initToken) new k) :
      Turn ep s e (s.swapped e .initToken (ep e).token p)
  | release {p : Code} (hv : (s.view e).phase = .owner)
      (htok : s.mem .initToken = (ep e).token) (hpub : (s.view e).Published (ep e)) :
      Turn ep s e (s.swapped e .initToken 0 p)
  | join {p : Code} (hmatch : (s.view e).Matched (ep e)) (hfree : s.mem (.token .secondary) = 0)
      (hp : ∃ new k, s.prog e = .cas (.token .secondary) 0 new k) :
      Turn ep s e { s.swapped e (.token .secondary) (ep e).token p with
        joins := s.joins ++ [⟨e, s.commits.length, s.mem .state, geometryOf s.mem⟩] }
  | detach {i : Slot} {p : Code} (htok : s.mem (.token i) = (ep e).token) :
      Turn ep s e (s.swapped e (.token i) detachedToken p)

structure Inv (ep : Eid → Endpoint) (s : State Eid) : Prop
    extends Threads.Timely Field.beat s.toThreads where
  owned : s.Owned
  follows : ∀ e, Follows (ep e) (s.view e) (s.prog e)
  clock : s.clock < 2 ^ 63

variable {ep : Eid → Endpoint} {s s' : State Eid} {e : Eid}

omit [DecidableEq Eid] in
theorem Inv.granted (hi : Inv ep s) (halive : s.dead e = false) :
    (discipline (ep e)).Granted s.mem s.clock (s.view e) (s.prog e) := by
  refine Threads.Owned.granted hi.owned hi.toTimely hi.clock halive rfl rfl rfl ?_ (hi.follows e)
  rintro old new (⟨-, ⟨-, hz⟩ | hout⟩ | ⟨hown, -⟩) hc
  · exact hz
  · simp [hc] at hout
  · simp [hc] at hown

theorem turn_of_store (hi : Inv ep s) {f : Field} {w : Word} {k : Code} (p : Code)
    (hp : s.prog e = .store f w k) (hf : (s.view e).MayStore f w) :
    Turn ep s e { s.note e with toThreads := (s.stored e f w p).toThreads } := by
  simp only [State.note, hp]
  rcases eq_or_ne f .state with rfl | hs
  · obtain ⟨hv, rfl⟩ := hf.state rfl
    exact .settle hv
  rw [if_neg hs]
  rcases Bool.eq_false_or_eq_true f.published with hpub | hpub
  · exact .publish hpub (hf.published hpub) ⟨k, hp⟩ hf.secondary
  · refine .quiet (fun g hg => ?_) (fun g hg => ?_) (.of_store hs hpub) (fun _ _ => .inl) (hi.time e)
    · refine Function.update_of_ne ?_ _ _
      rintro rfl
      cases g <;> simp_all [Field.watched]
      exact hf.initToken rfl
    · rw [Function.update_apply]
      split
      · next h =>
        subst h
        exact (hf.heartbeat hg).trans (hi.time e)
      · exact hi.beat g hg

theorem turn_of_swap (hep : (ep e).token ≠ 0) {f : Field} {old new : Word} {k : Bool → Code}
    (p : Code) (hp : s.prog e = .cas f old new k)
    (hf : (s.view e).MaySwap (ep e) old new f) (hold : s.mem f = old) :
    Turn ep s e { s.note e with toThreads := (s.swapped e f new p).toThreads } := by
  subst hold
  simp only [State.note, hp, ne_eq, not_true_eq_false, if_false]
  cases f with
  | state =>
    obtain ⟨hv, rfl, hold | ⟨hold, hread, hprim, hsec⟩⟩ := hf
    · simpa [hold, stateEmpty, stateReady] using Turn.claim hv hold
    · simpa [hold] using Turn.reuse hv hold ⟨_, k, hold ▸ hp⟩ hread hprim hsec
  | initToken =>
    obtain ⟨rfl, hv⟩ | ⟨hv, hold, rfl, hpub⟩ := hf
    · simpa using Turn.own hv ⟨_, k, hp⟩
    · simpa using Turn.release hv hold hpub
  | token i =>
    obtain ⟨rfl, hold, rfl, hm⟩ | ⟨hold, rfl⟩ := hf
    · simpa [hold] using Turn.join hm hold ⟨_, k, hold ▸ hp⟩
    · have hne : s.mem (.token i) ≠ 0 := hold ▸ hep
      simp only [reduceCtorEq, false_and, hne, and_false, if_false]
      exact .detach hold
  | _ => exact hf.elim

theorem Inv.turn (hep : Distinct ep) (hi : Inv ep s) (h : step ep s (.next e) = some s') :
    s.dead e = false ∧ Turn ep s e s' := by
  have hf := hi.follows e
  obtain ⟨t, ht, rfl⟩ := Option.map_eq_some_iff.mp h
  simp only [Threads.step, Option.ite_none_left_eq_some, Bool.not_eq_true] at ht
  obtain ⟨halive, ht⟩ := ht
  refine ⟨halive, ?_⟩
  obtain ⟨⟨mem, p⟩, hx, rfl⟩ := Option.map_eq_some_iff.mp ht
  have hsame : ∀ mem : Mem, (∀ f, f.watched = true → mem f = s.mem f) →
      (∀ f, f.beat = true → mem f = s.mem f) →
      Turn ep s e (s.put e mem (s.view e) p) :=
    fun mem hm hb => .quiet hm (fun f hf => hb f hf ▸ hi.beat f hf) .refl (fun _ _ => .inl) (hi.time e)
  cases hp : s.prog e with
  | load f k =>
    rw [hp] at hx
    cases hx
    simp only [State.note, hp]
    split
    · next hs =>
      subst hs
      exact .look
    · refine .quiet (fun _ _ => rfl) hi.beat .of_load (fun g w hw => ?_) (hi.time e)
      rcases View.load_read hw with ⟨rfl, rfl⟩ | ⟨-, hw⟩
      · exact .inr ⟨‹_›, rfl⟩
      · exact .inl hw
  | store f w k =>
    rw [hp] at hx hf
    cases hx
    exact turn_of_store hi _ hp hf.1
  | cas f old new k =>
    rw [hp] at hx hf
    by_cases hold : s.mem f = old
    · simp only [Prog.exec, hold, if_true] at hx
      cases hx
      simpa [Tracker.after, hold] using turn_of_swap (hep.token_ne e) _ hp hf.1 hold
    · simp only [Prog.exec, hold, if_false] at hx
      cases hx
      simpa [State.note, State.put, Tracker.after, hp, hold] using hsame s.mem (fun _ _ => rfl) fun _ _ => rfl
  | add f w k =>
    rw [hp] at hx hf
    cases hx
    obtain rfl : f = .epoch := hf.1
    simp only [State.note, hp]
    refine hsame _ (fun f hf => Function.update_of_ne ?_ _ _) fun f hf => Function.update_of_ne ?_ _ _
    all_goals rintro rfl
    all_goals simp [Field.watched, Field.published, Field.beat] at hf
  | clock k =>
    rw [hp] at hx
    cases hx
    simp only [State.note, hp]
    exact .quiet (fun _ _ => rfl) hi.beat .of_look (fun _ _ => .inl) le_rfl
  | skip k =>
    rw [hp] at hx
    cases hx
    simp only [State.note, hp]
    exact hsame _ (fun _ _ => rfl) fun _ _ => rfl
  | jump l =>
    rw [hp] at hx
    obtain ⟨q, -, hx⟩ := Option.map_eq_some_iff.mp hx
    cases hx
    simp only [State.note, hp]
    exact hsame _ (fun _ _ => rfl) fun _ _ => rfl

/-! ## Turns keep the ownership -/

/-- No takeover replaces a 0 while another endpoint is in one of the two windows, or
after the segment has become `Ready`. -/
def Exclusive (s : State Eid) : Act Eid → Prop
  | .next e => s.toThreads.Exclusive stateInitializing e
  | _ => True

theorem Field.ne_of_published {f g : Field} (hf : f.published = true)
    (hg : g.published = false) : g ≠ f := by
  rintro rfl
  simp [hg] at hf

theorem Field.watched_of_published {f : Field} (hf : f.published = true) :
    f.watched = true := by
  cases f <;> first | exact hf | rfl

theorem owned_of_turn (hep : Distinct ep) (ho : s.Owned) (halive : s.dead e = false)
    (hok : Exclusive s (.next e)) (ht : Turn ep s e s') : s'.Owned := by
  have hclaim : s.mem .state ≠ stateInitializing → ∀ {s' : State Eid} {v}, s'.mem =
      Function.update s.mem .state stateInitializing → s'.view = Function.update s.view e v →
      s'.dead = s.dead → s'.Owned := by
    intro hne s' v hmem hview hdead
    exact .of_words (ho.claim hne fun _ => Threads.inWindow_or hdead hview) (by simp [hmem])
      (by simp [hmem])
  cases ht with
  | quiet hmem _ hview _ _ =>
    exact .of_words (ho.mono fun _ => Threads.inWindow_of_phase halive rfl rfl hview.phase)
      (hmem _ rfl) (hmem _ rfl)
  | look => exact ho.mono fun _ => Threads.inWindow_of_phase halive rfl rfl rfl
  | publish hf hv =>
    have hne := (Field.ne_of_published (g := .state) hf rfl).symm
    exact .of_words (ho.mono fun _ => Threads.inWindow_of_phase halive rfl rfl (View.store_phase hne))
      (Function.update_of_ne (Field.ne_of_published hf rfl) ..)
      (Function.update_of_ne (Field.ne_of_published hf rfl) ..)
  | settle hv =>
    exact .of_words (ho.settle ⟨halive, .inr hv⟩ fun _ h =>
      Threads.inWindow_other h rfl rfl (by simp [View.store])) rfl (by simp)
  | claim hv hstate => exact hclaim (by simp [hstate, stateEmpty, stateInitializing]) rfl rfl rfl
  | reuse hv hstate => exact hclaim (by simp [hstate, stateReady, stateInitializing]) rfl rfl rfl
  | own hv hp =>
    obtain ⟨hstate, hone⟩ := Threads.Owned.before_own ho halive hok hv hp
    refine .of_words (Owned.own hstate hone fun _ h => Threads.inWindow_other h rfl rfl ?_) (by simp) rfl
    simp [View.swap_own _ (hep.token_ne e)]
  | release hv htok hpub =>
    exact .of_words (ho.release (htok ▸ hep.token_ne e) fun _ => Threads.inWindow_or rfl rfl)
      (by simp) (by simp)
  | join hmatch hfree hp | detach htok =>
    refine .of_words (ho.mono fun e' h => (?_ : e' ≠ e ∧ s.InWindow e').2) (by simp) (by simp)
    exact Threads.inWindow_other h rfl rfl (by simp [View.swap])

theorem Turn.clock_eq (ht : Turn ep s e s') : s'.clock = s.clock := by
  cases ht <;> rfl

theorem Field.beat_of_watched {f : Field} (hf : f.watched = true) : f.beat = false := by
  cases f <;> first | rfl | cases hf

theorem timely_of_turn (hi : s.Timely Field.beat) (ht : Turn ep s e s') : s'.Timely Field.beat := by
  have hno : ∀ {f : Field} {w : Word}, f.beat = false → f.beat = true → w.toNat ≤ s.clock := by
    intro f w h h'
    rw [h] at h'
    cases h'
  cases ht with
  | quiet hmem hbeat hview hread htime =>
    exact hi.of_view rfl hbeat rfl htime fun f w hw => (hread f w hw).imp id And.right
  | look =>
    refine hi.of_view rfl hi.beat rfl (hi.time e) fun f w hw => ?_
    rcases View.load_read hw with ⟨rfl, rfl⟩ | ⟨-, hw⟩
    · exact .inr rfl
    · exact .inl hw
  | publish hf hv =>
    exact hi.of_word rfl rfl (hno (Field.beat_of_watched (Field.watched_of_published hf))) rfl rfl rfl
  | settle hv => exact hi.of_word rfl rfl (hno rfl) rfl rfl rfl
  | _ => exact hi.of_word rfl rfl (hno rfl) rfl (by simp) (by simp)

structure Idle (s s' : State Eid) : Prop where
  mem : s'.mem = s.mem
  view : s'.view = s.view
  commits : s'.commits = s.commits
  takes : s'.takes = s.takes
  joins : s'.joins = s.joins
  takesSeen : s'.takesSeen = s.takesSeen
  epochSeen : s'.epochSeen = s.epochSeen
  dead : ∀ e, s'.dead e = false → s.dead e = false
  clock : s.clock ≤ s'.clock ∧ (s.clock < 2 ^ 63 → s'.clock < 2 ^ 63)

theorem Inv.step_cases (hep : Distinct ep) (hi : Inv ep s) {a : Act Eid}
    (h : step ep s a = some s') :
    (∃ e, a = .next e ∧ s.dead e = false ∧ Turn ep s e s') ∨ Idle s s' := by
  obtain ⟨t, ht, hs⟩ := Option.map_eq_some_iff.mp h
  obtain ⟨e, rfl, -⟩ | hidle := Threads.step_cases ht
  · exact .inl ⟨e, rfl, hi.turn hep h⟩
  cases a with
  | next e => exact .inl ⟨e, rfl, hi.turn hep h⟩
  | close e | kill e | tick d =>
    subst hs
    exact .inr ⟨hidle.mem, hidle.view, rfl, rfl, rfl, rfl, rfl, fun _ => hidle.alive, hidle.clock⟩

theorem Inv.of_step (hep : Distinct ep) (hi : Inv ep s) {a : Act Eid} (hok : Exclusive s a)
    (h : step ep s a = some s') : Inv ep s' := by
  obtain ⟨t, ht, hs⟩ := Option.map_eq_some_iff.mp h
  have hfollows := Threads.follows_step (d := fun e => discipline (ep e)) hi.follows
    (fun e => hi.granted) (fun e l q v hl => follows_code (hep.token_ne e) hl)
    (fun e l q v hl => follows_closing) ht
  obtain rfl : s'.toThreads = t := by rw [← hs]
  obtain ⟨e, rfl, halive, hturn⟩ | hidle := hi.step_cases hep h
  · exact ⟨timely_of_turn hi.toTimely hturn, owned_of_turn hep hi.owned halive hok hturn, hfollows,
      hturn.clock_eq ▸ hi.clock⟩
  · refine ⟨hi.later hidle.mem hidle.view hidle.clock.1, ?_, hfollows, hidle.clock.2 hi.clock⟩
    refine .of_words (hi.owned.mono fun e he => ⟨hidle.dead e he.1, ?_⟩) ?_ ?_
    · exact hidle.view ▸ he.2
    · rw [hidle.mem]
    · rw [hidle.mem]

omit [DecidableEq Eid] in
theorem Inv.start {t0 : Nat} (ht0 : t0 < 2 ^ 63) : Inv ep (start ep t0) where
  owned := ⟨by simp [Threads.InWindow, Superblock.start], by simp [Superblock.start]⟩
  time := by simp [Superblock.start]
  beat := by simp [Superblock.start]
  beatRead := by simp [Superblock.start]
  follows := fun e => follows_claimSuperblock rfl
  clock := ht0

theorem inv_of_reach (hep : Distinct ep) {t0 : Nat} (ht0 : t0 < 2 ^ 63)
    (hs : (machine ep t0).Reach Exclusive s) : Inv ep s :=
  hs.invariant (.start ht0) fun _ _ _ _ hi hok h => hi.of_step hep hok h

/-! ## One initializer -/

theorem Turn.settles (ht : Turn ep s e s') (hbefore : s.mem .state ≠ stateReady)
    (hafter : s'.mem .state = stateReady) : (s.view e).phase = .committing := by
  cases ht with
  | settle hv => exact hv
  | quiet hmem => exact absurd ((hmem .state rfl).symm.trans hafter) hbefore
  | look => exact absurd hafter hbefore
  | publish hf hv =>
    have hne := Field.ne_of_published (g := .state) hf rfl
    exact absurd ((Function.update_of_ne hne _ _).symm.trans hafter) hbefore
  | _ => simp_all [stateInitializing, stateReady]

theorem step_settles (hep : Distinct ep) (hi : Inv ep s) {a : Act Eid}
    (h : step ep s a = some s') (hbefore : s.mem .state ≠ stateReady)
    (hafter : s'.mem .state = stateReady) :
    ∃ e, a = .next e ∧ s.dead e = false ∧ (s.view e).phase = .committing := by
  obtain ⟨e, rfl, halive, ht⟩ | hidle := hi.step_cases hep h
  · exact ⟨e, rfl, halive, ht.settles hbefore hafter⟩
  · exact absurd (hidle.mem ▸ hafter) hbefore

def State.Passes (ep : Eid → Endpoint) (s : State Eid) (e : Eid) : Prop :=
  s.mem .initToken = (ep e).token

omit [DecidableEq Eid] in
theorem Inv.not_passes_of_ready (hep : Distinct ep) (hi : Inv ep s)
    (hready : s.mem .state = stateReady) : (∀ e, ¬ s.Passes ep e) ∧ ∀ e, ¬ s.InWindow e := by
  have hne : s.mem .state ≠ stateInitializing := by simp [hready, stateReady, stateInitializing]
  refine ⟨fun e he => hne (hi.owned.held fun h0 => hep.token_ne e (he.symm.trans h0)), ?_⟩
  exact fun e he => hne (hi.owned.window e he).1

/-- While an endpoint passes its check the segment is `Initializing`, and nobody else
passes or is in a claim or a commit. -/
structure OneInitializer (ep : Eid → Endpoint) (s : State Eid) : Prop where
  initializing : ∀ e, s.Passes ep e → s.mem .state = stateInitializing
  alone : ∀ e, s.Passes ep e → ∀ e', s.Passes ep e' ∨ s.InWindow e' → e' = e
  commit : ∀ a s', step ep s a = some s' → s.mem .state ≠ stateReady →
    s'.mem .state = stateReady →
    ∃ e, a = .next e ∧ (s.view e).phase = .committing ∧ ∀ e', s.InWindow e' → e' = e
  ready : s.mem .state = stateReady → (∀ e, ¬ s.Passes ep e) ∧ ∀ e, ¬ s.InWindow e

theorem one_initializer (hep : Distinct ep) {t0 : Nat} (ht0 : t0 < 2 ^ 63)
    (hs : (machine ep t0).Reach Exclusive s) : OneInitializer ep s := by
  have hi := inv_of_reach hep ht0 hs
  have hheld : ∀ e, s.Passes ep e → s.mem .initToken ≠ 0 :=
    fun e he h0 => hep.token_ne e (he.symm.trans h0)
  refine ⟨fun e he => hi.owned.held (hheld e he), ?_, ?_, hi.not_passes_of_ready hep⟩
  · rintro e he e' (he' | hw)
    · exact hep.inj _ _ (he'.symm.trans he)
    · exact absurd (hi.owned.window e' hw).2.1 (hheld e he)
  · intro a s' h hbefore hafter
    obtain ⟨e, rfl, halive, hphase⟩ := step_settles hep hi h hbefore hafter
    exact ⟨e, rfl, hphase, (hi.owned.window e ⟨halive, .inr hphase⟩).2.2⟩

/-! ## Two creators

The first one stops between the two swaps of its claim, before or after it put its
token into `initToken`. The second one takes the initialization over. -/

instance [Fintype Eid] (s : State Eid) : ∀ a, Decidable (Exclusive s a)
  | .next _ => inferInstanceAs (Decidable (Threads.Exclusive _ _ _))
  | .close _ | .kill _ | .tick _ => .isTrue trivial

instance (ep : Eid → Endpoint) (s : State Eid) (e : Eid) : Decidable (s.Passes ep e) :=
  inferInstanceAs (Decidable (_ = _))

inductive Party
  | first
  | second
  | third
  deriving DecidableEq

instance : Fintype Party where
  elems := {.first, .second, .third}
  complete x := by cases x <;> decide

def creator (token : Word) : Endpoint where
  role := .creator
  platform := ⟨64, 4096⟩
  bufferCount := 2
  bufferSize := 8
  token := token
  creatorToken := 0
  pid := 1
  heartbeatInterval := 500000000
  peerTimeout := 3000000000
  attachTimeout := 5000000000
  initStale := 0

def creators : Party → Endpoint
  | .first => creator 100
  | .second => creator 101
  | .third => creator 102

theorem creators_distinct : Distinct creators := by
  constructor <;> decide

def turns (n : Nat) (e : Eid) : List (Act Eid) := List.replicate n (.next e)

def takeover : List (Act Party) :=
  turns 30 .first ++ [.kill .first] ++ turns 10 .second ++ [.tick 3000000000] ++
    turns 61 .second

theorem one_initializer_takeover :
    ∃ s, (machine creators 1).Reach Exclusive s ∧ s.Passes creators .second ∧
      OneInitializer creators s :=
  Machine.exists_reach_and takeover (by decide +kernel) fun _ hs _ =>
    one_initializer creators_distinct (by decide) hs

/-- The first creator sleeps after its swap of `state`. The second one takes over from
the token 0 and commits. Then the first one wakes up. -/
def lateClaim : List (Act Party) :=
  turns 25 .first ++ turns 11 .second ++ [.tick 3000000000] ++ turns 65 .second ++
    turns 5 .first

/-- The segment is `Ready` with a live primary, and the check of the other creator lets
it format the segment. -/
theorem late_claim_passes_while_ready :
    ∃ s, (machine creators 1).Reachable s ∧ s.mem .state = stateReady ∧
      s.mem (.token .primary) = (creators .second).token ∧ s.commits = [.second] ∧
      s.dead .second = false ∧ s.dead .first = false ∧ s.Passes creators .first :=
  Machine.exists_reachable lateClaim (by decide +kernel)

end Hqq.Superblock
