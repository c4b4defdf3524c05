import Hqq.Superblock.Ownership

/-!
# An initializer that lost the segment

One initializer, in Go or in C, which may sleep anywhere. Everybody else may change the segment in
any way, except that nobody puts its token into `initToken` again.
-/

namespace Hqq.Superblock

/-! ## The initializer in C -/

namespace C

/-- `hqq_sb_publish` checks once, and then makes all five steps. -/
def sbPublish (ep : Endpoint) : Code :=
  check ep <| stampLayout <| storeGeometry ep <| clearEndpoint .secondary <|
  .store (.token .primary) ep.token <| fillEndpoint ep .primary <|
  .store .magic superblockMagic <| commitInit ep

/-- `hqq_sb_initialize`. The slices of the rings and of the buffers are those of Go. -/
def sbInitialize (ep : Endpoint) : Code :=
  formatGuarded ep <| progress ep <| formatGuarded ep <| progress ep <|
  zero ep <| zero ep <| sbPublish ep

end C

inductive Impl where
  | go
  | c
  deriving DecidableEq

def Impl.initSegment : Impl → Endpoint → Code
  | .go => Superblock.initSegment
  | .c => C.sbInitialize

/-! ## Write steps -/

/-- `slice` is a slice of a ring or of a buffer, and the next five are P1 to P5. -/
inductive WriteStep where
  | slice
  | layout
  | geometry
  | secondary
  | primary
  | magic
  | progress
  | claim
  | epoch
  | ready
  deriving DecidableEq

def Field.writeStep : Field → WriteStep
  | .major | .minor | .requiredFeatures => .layout
  | .pageSize | .bufferCount | .bufferSize | .layoutSize => .geometry
  | .token .secondary | .pid .secondary | .heartbeat .secondary | .interval .secondary => .secondary
  | .token .primary | .pid .primary | .heartbeat .primary | .interval .primary => .primary
  | .magic => .magic
  | .initHeartbeat => .progress
  | .initToken | .creatorToken => .claim
  | .epoch => .epoch
  | .state => .ready

def WriteStep.bounded : WriteStep → Bool
  | .slice | .layout | .geometry | .secondary | .primary | .magic => true
  | .progress | .claim | .epoch | .ready => false

def addStore (ws : List WriteStep) (f : Field) : List WriteStep :=
  if ws.getLast? = some f.writeStep then ws else ws ++ [f.writeStep]

structure Solo where
  mem : Mem
  prog : Code
  clock : Nat
  /-- The step of its last store since it last loaded `initToken`. -/
  last : Option WriteStep
  lost : Bool
  writes : List WriteStep

def Solo.note (s : Solo) : Solo :=
  match s.prog with
  | .load f _ => if f = .initToken then { s with last := none } else s
  | .store f _ _ =>
    { s with last := some f.writeStep, writes := if s.lost then addStore s.writes f else s.writes }
  | .skip _ =>
    { s with last := some .slice, writes := if s.lost then s.writes ++ [.slice] else s.writes }
  | .add f _ _ => { s with writes := if s.lost then addStore s.writes f else s.writes }
  | .cas .. | .clock _ | .jump _ => s

inductive SoloAct where
  | next
  /-- What everybody else did, until `clock`. -/
  | others (mem : Mem) (clock : Nat)

def Solo.step (ep : Endpoint) (s : Solo) : SoloAct → Option Solo
  | .next => (s.prog.exec (fun _ => none) s.mem s.clock).map fun r =>
      { s.note with mem := r.1, prog := r.2 }
  | .others mem clock =>
    if mem .initToken = s.mem .initToken ∨ mem .initToken ≠ ep.token then
      some { s with mem := mem, clock := clock, lost := s.lost || mem .initToken ≠ s.mem .initToken }
    else none

/-- Starts after `beginInit`, whose stores of `creatorToken` and `initHeartbeat` have no check in
front of them and come right after the swap that takes the segment. -/
def solo (impl : Impl) (ep : Endpoint) (mem : Mem) : Machine Solo SoloAct where
  init := ⟨mem, impl.initSegment ep, 0, none, mem .initToken ≠ ep.token, []⟩
  step := Solo.step ep

/-! ## Where it must not lose the segment -/

/-- The next instruction belongs to a write that no check of its own is in front of. -/
def exposed (impl : Impl) (last : Option WriteStep) : Code → Bool
  | .store f _ _ => f = .initHeartbeat || f = .state || (impl = .c && f ≠ .magic)
  | .clock _ => last = none || impl = .c
  | .add .. => true
  | .load .. | .cas .. | .skip _ | .jump _ => false

def LosesAtCheck (impl : Impl) (s : Solo) : SoloAct → Prop
  | .next => True
  | .others mem _ =>
    s.lost = false → mem .initToken ≠ s.mem .initToken → exposed impl s.last s.prog = false

def AtMostOneStep (ws : List WriteStep) : Prop := ws.length ≤ 1 ∧ ∀ w ∈ ws, w.bounded = true

/-! ## After the loss -/

section Walk

variable {ep : Endpoint} {impl : Impl} {last : Option WriteStep} {own : Bool} {k : Code}

def Stops (ep : Endpoint) : List WriteStep → Code → Prop
  | ws, .load f k => ∀ w, (f = .initToken → w ≠ ep.token) → Stops ep ws (k w)
  | ws, .store f _ k => AtMostOneStep (addStore ws f) ∧ Stops ep (addStore ws f) k
  | ws, .cas f old _ k => f = .initToken ∧ old = ep.token ∧ Stops ep ws (k false)
  | _, .add .. => False
  | ws, .clock k => ∀ t, Stops ep ws (k t)
  | ws, .skip k => AtMostOneStep (ws ++ [.slice]) ∧ Stops ep (ws ++ [.slice]) k
  | _, .jump _ => True

def Halts (ep : Endpoint) (k : Code) : Prop := ∀ ws, Stops ep ws k

theorem halts_check : Halts ep (check ep k) := by
  intro ws w hw
  dsimp only
  rw [if_neg (hw rfl)]
  trivial

theorem halts_progress (h : Halts ep k) : Halts ep (progress ep k) := by
  intro ws w hw
  dsimp only
  rw [if_neg (hw rfl)]
  exact h ws

theorem halts_formatSlices (n : Nat) : Halts ep (formatSlices ep n k) := by
  cases n with
  | zero => exact halts_check
  | succ n => exact halts_check

theorem halts_zeroChunks (h : Halts ep k) (n : Nat) : Halts ep (zeroChunks ep n k) := by
  cases n with
  | zero => exact h
  | succ n => exact halts_check

theorem halts_commitInit : Halts ep (commitInit ep) := fun _ => ⟨rfl, rfl, trivial⟩

/-! ## Before the loss -/

/-- The rest of an initializer that has not lost the segment. Wherever it is not exposed, it can
lose it. `own` is whether its token is in `initToken`. -/
def Sound (impl : Impl) (ep : Endpoint) : Bool → Option WriteStep → Code → Prop
  | own, last, .load f k => Stops ep [] (.load f k) ∧
      if f = .initToken then own = true ∧ Sound impl ep own none (k ep.token)
      else ∀ w, Sound impl ep own last (k w)
  | own, last, .store f w k => f ≠ .initToken ∧
      (exposed impl last (.store f w k) = false → Stops ep [] (.store f w k)) ∧
        Sound impl ep own (some f.writeStep) k
  | own, last, .cas f old new k => Stops ep [] (.cas f old new k) ∧ f = .initToken ∧ own = true ∧
      old = ep.token ∧ Sound impl ep false last (k true)
  | own, last, .add f _ k => f ≠ .initToken ∧ ∀ w, Sound impl ep own last (k w)
  | own, last, .clock k => (exposed impl last (.clock k) = false → Stops ep [] (.clock k)) ∧
      ∀ t, Sound impl ep own last (k t)
  | own, _, .skip k => Stops ep [] (.skip k) ∧ Sound impl ep own (some .slice) k
  | _, _, .jump _ => True

theorem sound_check (h : ∀ last, Sound impl ep true last k) : Sound impl ep true last (check ep k) := by
  refine ⟨halts_check [], ?_⟩
  rw [if_pos rfl]
  refine ⟨rfl, ?_⟩
  dsimp only
  rw [if_pos rfl]
  exact h none

theorem sound_slice (h : ∀ last, Sound impl ep true last k) (hh : Halts ep k) :
    Sound impl ep true last (.skip k) :=
  ⟨⟨by simp [AtMostOneStep, WriteStep.bounded], hh _⟩, h _⟩

theorem sound_progress (h : ∀ last, Sound impl ep true last k) (hh : Halts ep k) :
    Sound impl ep true last (progress ep k) := by
  refine ⟨halts_progress hh [], ?_⟩
  rw [if_pos rfl]
  refine ⟨rfl, ?_⟩
  dsimp only
  rw [if_pos rfl]
  exact ⟨by simp [exposed], fun now => ⟨by simp, by simp [exposed], h _⟩⟩

theorem sound_formatSlices (n : Nat) (h : ∀ last, Sound impl ep true last k) (hh : Halts ep k) :
    Sound impl ep true last (formatSlices ep n k) := by
  induction n generalizing last with
  | zero => exact sound_check fun _ => sound_slice h hh
  | succ n ih => exact sound_check fun _ => sound_slice (fun _ => ih) (halts_formatSlices n)

theorem sound_formatGuarded (h : ∀ last, Sound impl ep true last k) (hh : Halts ep k) :
    Sound impl ep true last (formatGuarded ep k) :=
  sound_check fun _ => sound_slice (fun _ => sound_formatSlices _ h hh) (halts_formatSlices _)

theorem sound_zeroChunks (n : Nat) (h : ∀ last, Sound impl ep true last k) (hh : Halts ep k) :
    Sound impl ep true last (zeroChunks ep n k) := by
  induction n generalizing last with
  | zero => exact h last
  | succ n ih =>
    have hrest := halts_zeroChunks hh n
    exact sound_check fun _ => sound_slice (fun _ => sound_progress (fun _ => ih) hrest) (halts_progress hrest)

theorem sound_initSegment {publish : Code} (h : ∀ last, Sound impl ep true last publish)
    (hh : Halts ep publish) : Sound impl ep true last (formatGuarded ep <| progress ep <|
      formatGuarded ep <| progress ep <| zero ep <| zero ep publish) := by
  have hzero : Halts ep (zero ep (zero ep publish)) := halts_zeroChunks (halts_zeroChunks hh _) _
  refine sound_formatGuarded (fun _ => sound_progress (fun _ => ?_) halts_check) (halts_progress halts_check)
  refine sound_formatGuarded (fun _ => sound_progress (fun _ => ?_) hzero) (halts_progress hzero)
  exact sound_zeroChunks _ (fun _ => sound_zeroChunks _ h hh) (halts_zeroChunks hh _)

theorem sound_commitInit : Sound impl ep true last (commitInit ep) :=
  ⟨halts_commitInit [], rfl, rfl, rfl, by simp, fun _ => ⟨by simp, by simp [exposed], trivial⟩⟩

theorem sound_magic : Sound impl ep true last (.store .magic superblockMagic (commitInit ep)) := by
  refine ⟨by simp, fun _ => ⟨?_, halts_commitInit _⟩, sound_commitInit⟩
  simp [addStore, Field.writeStep, AtMostOneStep, WriteStep.bounded]

def storeAll (fs : List (Field × Word)) (k : Code) : Code := fs.foldr (fun p => .store p.1 p.2) k

theorem stops_storeAll {step : WriteStep} (hstep : step.bounded = true) {fs : List (Field × Word)}
    (hfs : ∀ p ∈ fs, p.1.writeStep = step) (hh : Stops ep [step] k) : Stops ep [step] (storeAll fs k) := by
  induction fs with
  | nil => exact hh
  | cons p fs ih =>
    have hadd : addStore [step] p.1 = [step] := by simp [addStore, hfs p List.mem_cons_self]
    refine ⟨?_, ?_⟩
    · rw [hadd]
      simp [AtMostOneStep, hstep]
    · rw [hadd]
      exact ih fun q hq => hfs q (List.mem_cons_of_mem p hq)

theorem stops_storeAll_first {step : WriteStep} (hstep : step.bounded = true) {p : Field × Word}
    {fs : List (Field × Word)} (hfs : ∀ q ∈ p :: fs, q.1.writeStep = step) (hh : Stops ep [step] k) :
    Stops ep [] (storeAll (p :: fs) k) := by
  have hadd : addStore [] p.1 = [step] := by simp [addStore, hfs p List.mem_cons_self]
  refine ⟨?_, ?_⟩
  · rw [hadd]
    simp [AtMostOneStep, hstep]
  · rw [hadd]
    exact stops_storeAll hstep (fun q hq => hfs q (List.mem_cons_of_mem p hq)) hh

theorem sound_storeAll (step : WriteStep) (fs : List (Field × Word)) (hstep : step.bounded = true)
    (hmagic : step ≠ .magic) (hfs : ∀ p ∈ fs, p.1.writeStep = step)
    (h : ∀ last, Sound impl ep true last k) (hh : impl = .go → Stops ep [step] k) :
    Sound impl ep true last (storeAll fs k) := by
  induction fs generalizing last with
  | nil => exact h last
  | cons p fs ih =>
    have hp := hfs p List.mem_cons_self
    refine ⟨?_, fun hexposed => ?_, ih fun q hq => hfs q (List.mem_cons_of_mem p hq)⟩
    · intro htoken
      rw [htoken] at hp
      subst hp
      exact absurd hstep (by decide)
    · cases impl with
      | go => exact stops_storeAll_first hstep hfs (hh rfl)
      | c =>
        have hne : p.1 ≠ .magic := fun heq => hmagic (by rw [← hp, heq]; rfl)
        simp [exposed, hne] at hexposed

theorem sound_stampLayout (h : ∀ last, Sound impl ep true last k) (hh : impl = .go → Halts ep k) :
    Sound impl ep true last (stampLayout k) :=
  sound_storeAll .layout [(.major, superblockMajor), (.minor, superblockMinor),
    (.requiredFeatures, 0)] rfl (by decide) (by decide) h fun hgo => hh hgo _

theorem sound_storeGeometry (h : ∀ last, Sound impl ep true last k) (hh : impl = .go → Halts ep k) :
    Sound impl ep true last (storeGeometry ep k) :=
  sound_storeAll .geometry [(.pageSize, ep.geometry.pageSize),
    (.bufferCount, ep.geometry.bufferCount), (.bufferSize, ep.geometry.bufferSize),
    (.layoutSize, ep.geometry.layoutSize)] rfl (by decide) (by simp [Field.writeStep]) h fun hgo => hh hgo _

theorem sound_clearSecondary (h : ∀ last, Sound impl ep true last k) (hh : impl = .go → Halts ep k) :
    Sound impl ep true last (clearEndpoint .secondary k) :=
  sound_storeAll .secondary [(.token .secondary, 0), (.pid .secondary, 0),
    (.heartbeat .secondary, 0), (.interval .secondary, 0)] rfl (by decide) (by decide) h fun hgo => hh hgo _

theorem sound_fillPrimary (h : ∀ last, Sound impl ep true last k) (hh : impl = .go → Halts ep k) :
    Sound impl ep true last (.store (.token .primary) ep.token (fillEndpoint ep .primary k)) := by
  have hbeat : ∀ now, ∀ p ∈ [(Field.heartbeat .primary, word now)], p.1.writeStep = .primary := by
    simp [Field.writeStep]
  refine sound_storeAll .primary [(.token .primary, ep.token), (.pid .primary, ep.pid),
    (.interval .primary, ep.heartbeatInterval)] rfl (by decide) (by simp [Field.writeStep]) (fun last => ?_)
    fun hgo now => stops_storeAll rfl (hbeat now) (hh hgo _)
  refine ⟨fun hexposed now => ?_, fun now => sound_storeAll _ _ rfl (by decide) (hbeat now) h fun hgo => hh hgo _⟩
  cases impl with
  | go => exact stops_storeAll_first rfl (hbeat now) (hh rfl _)
  | c => simp [exposed] at hexposed

theorem sound_publishSuperblock : Sound .go ep true last (publishSuperblock ep) := by
  refine sound_check fun _ => sound_stampLayout (fun _ => ?_) fun _ => halts_check
  refine sound_check fun _ => sound_storeGeometry (fun _ => ?_) fun _ => halts_check
  refine sound_check fun _ => sound_clearSecondary (fun _ => ?_) fun _ => halts_check
  refine sound_check fun _ => sound_fillPrimary (fun _ => ?_) fun _ => halts_check
  exact sound_check fun _ => sound_magic

theorem sound_sbPublish : Sound .c ep true last (C.sbPublish ep) := by
  have hc : Impl.c = .go → ∀ k, Halts ep k := by simp
  refine sound_check fun _ => sound_stampLayout (fun _ => ?_) fun h => hc h _
  refine sound_storeGeometry (fun _ => ?_) fun h => hc h _
  refine sound_clearSecondary (fun _ => ?_) fun h => hc h _
  exact sound_fillPrimary (fun _ => sound_magic) fun h => hc h _

theorem sound_initializer (impl : Impl) : Sound impl ep true last (impl.initSegment ep) := by
  cases impl with
  | go => exact sound_initSegment (fun _ => sound_publishSuperblock) halts_check
  | c => exact sound_initSegment (fun _ => sound_sbPublish) halts_check

theorem halts_initializer (impl : Impl) : Halts ep (impl.initSegment ep) := by
  cases impl with
  | go => exact halts_check
  | c => exact halts_check

theorem Sound.stops {p : Code} (h : Sound impl ep own last p) (hexposed : exposed impl last p = false) :
    Stops ep [] p := by
  cases p with
  | load f k => exact h.1
  | store f w k => exact h.2.1 hexposed
  | cas f old new k => exact h.1
  | add f w k => exact absurd hexposed (by simp [exposed])
  | clock k => exact h.1 hexposed
  | skip k => exact h.1
  | jump l => trivial

end Walk

def SoloInv (impl : Impl) (ep : Endpoint) (s : Solo) : Prop :=
  if s.lost then s.mem .initToken ≠ ep.token ∧ AtMostOneStep s.writes ∧ Stops ep s.writes s.prog
  else s.writes = [] ∧ ∃ own, (own = true → s.mem .initToken = ep.token) ∧ Sound impl ep own s.last s.prog

variable {impl : Impl} {ep : Endpoint} {s s' : Solo} {mem : Mem}

theorem SoloInv.init : SoloInv impl ep (solo impl ep mem).init := by
  unfold SoloInv solo
  split
  · next hlost => exact ⟨of_decide_eq_true hlost, by simp [AtMostOneStep], halts_initializer impl []⟩
  · next hown =>
    refine ⟨rfl, true, fun _ => ?_, sound_initializer impl⟩
    simpa using hown

theorem SoloInv.others {clock : Nat} (h : SoloInv impl ep s) (hok : LosesAtCheck impl s (.others mem clock))
    (hs : s.step ep (.others mem clock) = some s') : SoloInv impl ep s' := by
  change (if _ then some _ else none) = some s' at hs
  split at hs
  case isFalse => exact absurd hs (by simp)
  next hothers =>
  cases hs
  unfold SoloInv at h ⊢
  dsimp only
  rcases Bool.eq_false_or_eq_true s.lost with hlost | hlost
  · rw [if_pos hlost] at h
    rw [hlost, Bool.true_or, if_pos rfl]
    refine ⟨?_, h.2⟩
    rcases hothers with hsame | hne
    · rw [hsame]
      exact h.1
    · exact hne
  · rw [if_neg (by simp [hlost])] at h
    obtain ⟨hwrites, own, hown, hsound⟩ := h
    rcases Decidable.em (mem .initToken = s.mem .initToken) with hsame | hne
    · rw [if_neg (by simp [hlost, hsame])]
      exact ⟨hwrites, own, fun ho => hsame.trans (hown ho), hsound⟩
    · -- The loss: here the initializer is not exposed.
      rw [if_pos (by simp [hne]), hwrites]
      refine ⟨hothers.resolve_left hne, by simp [AtMostOneStep], ?_⟩
      exact hsound.stops (hok hlost hne)

theorem Stops.next {mem' : Mem} {p : Code} (hlost : s.lost = true) (htok : s.mem .initToken ≠ ep.token)
    (hone : AtMostOneStep s.writes) (h : Stops ep s.writes s.prog)
    (hx : s.prog.exec (fun _ => none) s.mem s.clock = some (mem', p)) :
    mem' .initToken ≠ ep.token ∧ AtMostOneStep s.note.writes ∧ Stops ep s.note.writes p := by
  unfold Solo.note
  cases hp : s.prog with
  | load f k =>
    rw [hp] at h hx
    cases hx
    have hw := h (s.mem f) (by rintro rfl; exact htok)
    dsimp only
    split <;> exact ⟨htok, hone, hw⟩
  | store f w k =>
    rw [hp] at h hx
    cases hx
    have hf : Field.initToken ≠ f := by
      rintro rfl
      have hmem : WriteStep.claim ∈ addStore s.writes .initToken := by
        unfold addStore
        split
        · next hlast => exact List.mem_of_getLast? hlast
        · exact List.mem_append_right _ List.mem_cons_self
      exact absurd (h.1.2 _ hmem) (by decide)
    simp only [hlost, if_true]
    exact ⟨by rwa [Function.update_of_ne hf], h⟩
  | cas f old new k =>
    rw [hp] at h hx
    obtain ⟨rfl, rfl, hfail⟩ := h
    rw [Prog.exec, if_neg htok] at hx
    cases hx
    exact ⟨htok, hone, hfail⟩
  | add f w k =>
    rw [hp] at h
    exact h.elim
  | clock k =>
    rw [hp] at h hx
    cases hx
    exact ⟨htok, hone, h _⟩
  | skip k =>
    rw [hp] at h hx
    cases hx
    simp only [hlost, if_true]
    exact ⟨htok, h⟩
  | jump l =>
    rw [hp] at hx
    exact absurd hx (by simp [Prog.exec])

theorem Sound.next {own : Bool} {mem' : Mem} {p : Code} (hlost : s.lost = false)
    (hown : own = true → s.mem .initToken = ep.token) (h : Sound impl ep own s.last s.prog)
    (hx : s.prog.exec (fun _ => none) s.mem s.clock = some (mem', p)) :
    s.note.writes = s.writes ∧
      ∃ own', (own' = true → mem' .initToken = ep.token) ∧ Sound impl ep own' s.note.last p := by
  unfold Solo.note
  cases hp : s.prog with
  | load f k =>
    rw [hp] at h hx
    cases hx
    obtain ⟨-, hrest⟩ := h
    split at hrest
    · next hf =>
      subst hf
      dsimp only
      rw [if_pos rfl]
      refine ⟨rfl, own, hown, ?_⟩
      rw [hown hrest.1]
      exact hrest.2
    · next hf =>
      dsimp only
      rw [if_neg hf]
      exact ⟨rfl, own, hown, hrest _⟩
  | store f w k =>
    rw [hp] at h hx
    cases hx
    simp only [hlost, Bool.false_eq_true, if_false]
    refine ⟨trivial, own, fun ho => ?_, h.2.2⟩
    rw [Function.update_of_ne h.1.symm]
    exact hown ho
  | cas f old new k =>
    rw [hp] at h hx
    obtain ⟨-, rfl, ho, rfl, htrue⟩ := h
    rw [Prog.exec, if_pos (hown ho)] at hx
    cases hx
    exact ⟨rfl, false, by simp, htrue⟩
  | add f w k =>
    rw [hp] at h hx
    cases hx
    simp only [hlost, Bool.false_eq_true, if_false]
    refine ⟨trivial, own, fun ho => ?_, h.2 _⟩
    rw [Function.update_of_ne h.1.symm]
    exact hown ho
  | clock k =>
    rw [hp] at h hx
    cases hx
    exact ⟨rfl, own, hown, h.2 _⟩
  | skip k =>
    rw [hp] at h hx
    cases hx
    simp only [hlost, Bool.false_eq_true, if_false]
    exact ⟨trivial, own, hown, h.2⟩
  | jump l =>
    rw [hp] at hx
    exact absurd hx (by simp [Prog.exec])

theorem note_lost (s : Solo) : s.note.lost = s.lost := by
  unfold Solo.note
  repeat' split
  all_goals rfl

theorem SoloInv.next (h : SoloInv impl ep s) (hs : s.step ep .next = some s') : SoloInv impl ep s' := by
  obtain ⟨⟨mem', p⟩, hx, rfl⟩ := Option.map_eq_some_iff.mp hs
  unfold SoloInv at h ⊢
  rw [note_lost]
  split at h
  · next hlost =>
    rw [if_pos hlost]
    exact Stops.next hlost h.1 h.2.1 h.2.2 hx
  · next hlost =>
    obtain ⟨hwrites, own, hown, hsound⟩ := h
    have hnext := Sound.next (by simpa using hlost) hown hsound hx
    rw [if_neg hlost, hnext.1]
    exact ⟨hwrites, hnext.2⟩

/-- An initializer that lost the segment makes at most one more write step, which is a slice or
one of P1 to P5. So it does not make the segment `Ready`. -/
theorem lost_initializer_stops (h : (solo impl ep mem).Reach (LosesAtCheck impl) s) :
    AtMostOneStep s.writes := by
  have hinv : SoloInv impl ep s := by
    refine Machine.Reach.invariant SoloInv.init (fun s a s' _ hi hok hs => ?_) h
    cases a with
    | next => exact hi.next hs
    | others mem clock => exact hi.others hok hs
  unfold SoloInv at hinv
  split at hinv
  · exact hinv.2.1
  · rw [hinv.1]
    simp [AtMostOneStep]

/-! ## One initializer with the smallest geometry -/

instance (impl : Impl) (s : Solo) : (a : SoloAct) → Decidable (LosesAtCheck impl s a)
  | .next => .isTrue trivial
  | .others _ _ => inferInstanceAs (Decidable (_ → _))

def claimedBy (token : Word) : Mem := Function.update (fun _ => 0) .initToken token

def losesAfter (n m : Nat) : List SoloAct :=
  List.replicate n .next ++ [.others (claimedBy 101) 0] ++ List.replicate m .next

theorem lost_initializer_stops_layout :
    ∃ s, (solo .go (creator 100) (claimedBy 100)).Reach (LosesAtCheck .go) s ∧ s.lost = true ∧
      s.writes = [.layout] ∧ AtMostOneStep s.writes := by
  obtain ⟨s, hs, hlost, hwrites⟩ : ∃ s,
      (solo .go (creator 100) (claimedBy 100)).Reach (LosesAtCheck .go) s ∧ s.lost = true ∧
      s.writes = [.layout] := Machine.exists_reach (losesAfter 25 4) (by decide +kernel)
  exact ⟨s, hs, hlost, hwrites, lost_initializer_stops hs⟩

/-- In both implementations it makes the segment `Ready` if it loses it right after the swap of its
commit. -/
theorem lost_initializer_publishes :
    (∃ s, (solo .c (creator 100) (claimedBy 100)).Reachable s ∧ s.lost = true ∧
      s.writes = [.layout, .geometry, .secondary, .primary, .magic]) ∧
    (∃ s, (solo .c (creator 100) (claimedBy 100)).Reachable s ∧ s.lost = true ∧
      s.mem .initToken = 101 ∧ s.mem .state = stateReady ∧ s.writes = [.epoch, .ready]) ∧
    ∃ s, (solo .go (creator 100) (claimedBy 100)).Reachable s ∧ s.lost = true ∧
      s.mem .initToken = 101 ∧ s.mem .state = stateReady ∧ s.writes = [.epoch, .ready] :=
  ⟨Machine.exists_reachable (losesAfter 25 17) (by decide +kernel),
    Machine.exists_reachable (losesAfter 43 2) (by decide +kernel),
    Machine.exists_reachable (losesAfter 47 2) (by decide +kernel)⟩

end Hqq.Superblock
