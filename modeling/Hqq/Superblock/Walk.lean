import Hqq.Superblock.Spec

/-!
# Walking through the programs

The programs of `Spec.lean` are checked against a discipline here, as far as that does not depend on
what the discipline is about. The code that only looks comes first, then the initializer.
-/

namespace Hqq.Superblock

variable {V : Type} {d : Discipline Field Word Label V} {ep : Endpoint}

/-! ## Programs that only look -/

/-- With the view `v` an endpoint may give up and may start over, and looking does not change it. -/
structure Blind (d : Discipline Field Word Label V) (v : V) : Prop where
  load : ∀ f w, f ≠ .state → d.load v f w = v
  look : ∀ t, d.look v t = v
  fails : ∀ err, d.mayJump v (.failed err)
  restarts : ∀ loc, d.mayJump v (.again loc)

section Blind

variable {v : V} {loc : Locals} {f : Field} {p : Code} {k : Bool → Code} {i : Slot} {primaryAlive : Bool}
  (hb : Blind d v)
include hb

theorem Blind.follows_load {k : Word → Code} (h : ∀ w, d.Follows v (k w))
    (hf : f ≠ .state := by simp) : d.Follows v (.load f k) :=
  fun w _ => (hb.load f w hf).symm ▸ h w

theorem Blind.follows_clock {k : Nat → Code} (h : ∀ t, d.mayLook v t → d.Follows v (k t)) :
    d.Follows v (.clock k) :=
  fun t ht => (hb.look t).symm ▸ h t ht

theorem Blind.follows_check (h : d.Follows v p) : d.Follows v (check ep p) := by
  refine hb.follows_load fun t => ?_
  split
  · exact h
  · exact hb.fails _

theorem Blind.follows_formatSlices (n : Nat) (h : d.Follows v p) :
    d.Follows v (formatSlices ep n p) := by
  induction n with
  | zero => exact hb.follows_check h
  | succ n ih => exact hb.follows_check ih

theorem Blind.follows_formatGuarded (h : d.Follows v p) : d.Follows v (formatGuarded ep p) :=
  hb.follows_check (hb.follows_formatSlices _ h)

theorem Blind.follows_wait (stalling emptyWait : Bool) :
    d.Follows v (wait ep loc stalling emptyWait) := by
  unfold wait
  split
  · exact hb.restarts _
  generalize (if stalling = true then loc.watch else none) = watch
  refine hb.follows_clock fun now _ => ?_
  split
  · exact hb.restarts _
  cases watch with
  | none => exact hb.fails _
  | some w =>
    refine hb.follows_clock fun now _ => ?_
    split
    · exact hb.restarts _
    · exact hb.fails _

theorem Blind.follows_expired (since : Nat) : d.Follows v (.clock fun now =>
    if ep.attachTimeout ≤ (now : Int) - since then fail .segmentNotReady
    else wait ep { loc with emptySince := some since } false true) := by
  refine hb.follows_clock fun now _ => ?_
  split
  · exact hb.fails _
  · exact hb.follows_wait _ _

theorem Blind.follows_checkLayoutCompat (initializing : Bool) (h : d.Follows v p) :
    d.Follows v (checkLayoutCompat initializing p) := by
  refine hb.follows_load fun features => ?_
  split
  · exact hb.fails _
  refine hb.follows_load fun magic => hb.follows_load fun major => ?_
  have htoken : d.Follows v (.load .initToken fun t => if t ≠ 0 then fail .incompatibleLayout else p) := by
    refine hb.follows_load fun t => ?_
    split
    · exact hb.fails _
    · exact h
  repeat' split
  all_goals first
    | exact h
    | exact htoken
    | exact hb.fails _

theorem Blind.follows_claimInitializing (h : ∀ tok loc, ep.role ≠ .opener →
    d.Follows v (beginInit ep tok fun
      | true => initSegment ep
      | false => wait ep loc true false)) : d.Follows v (claimInitializing ep loc) := by
  refine hb.follows_load fun tok => hb.follows_load fun beat => hb.follows_checkLayoutCompat true ?_
  split
  · exact hb.follows_wait _ _
  next hrole =>
  refine hb.follows_clock fun now _ => ?_
  dsimp only
  repeat' split
  all_goals first
    | exact hb.follows_wait _ _
    | exact h _ _ hrole

theorem Blind.follows_aliveAtOpen
    (hwatch : ∀ tok beat stop, d.mayJump v (.watch loc i primaryAlive tok beat stop))
    (h : ∀ b, d.Follows v (k b)) : d.Follows v (aliveAtOpen ep loc i primaryAlive k) := by
  refine hb.follows_load fun tok => ?_
  split
  · exact h false
  refine hb.follows_load fun interval => ?_
  split
  · exact h true
  refine hb.follows_load fun beat => ?_
  split
  · exact h true
  refine hb.follows_clock fun now _ => ?_
  split
  · exact h true
  · exact hb.follows_clock fun _ _ => hwatch _ _ _

theorem Blind.follows_watchRound {tok beat : Word} {stop : Int}
    (hwatch : d.mayJump v (.watch loc i primaryAlive tok beat stop)) (h : ∀ b, d.Follows v (k b)) :
    d.Follows v (watchRound loc i primaryAlive tok beat stop k) := by
  refine hb.follows_clock fun now _ => ?_
  split
  · exact h false
  refine hb.follows_load fun h' => ?_
  split
  · exact hb.follows_load fun t => h _
  refine hb.follows_load fun t => ?_
  split
  · exact hb.follows_load fun t => h _
  · exact hwatch

theorem Blind.follows_claimJudged {secondaryAlive : Bool}
    (htake : ep.role ≠ .opener → d.Follows v (.cas .state stateReady stateInitializing fun
      | true => claimed ep
      | false => again loc))
    (hjoin : d.Follows v (.cas (.token .secondary) 0 ep.token fun
      | true => fillEndpoint ep .secondary (.load .epoch fun _ => .jump (.live .secondary))
      | false => again loc)) : d.Follows v (claimJudged ep loc primaryAlive secondaryAlive) := by
  unfold claimJudged
  split
  · split
    · exact hb.fails _
    · exact htake ‹_›
  split
  · exact hb.fails _
  refine hb.follows_load fun bufferCount => hb.follows_load fun bufferSize => ?_
  refine hb.follows_load fun layoutSize => hb.follows_load fun pageSize => ?_
  dsimp only
  split
  · exact hb.fails _
  split
  · exact hb.fails _
  refine hb.follows_load fun t => ?_
  split
  · exact hb.fails _
  · exact hjoin

theorem Blind.follows_afterVerdict {alive : Bool}
    (hwatch : ∀ i primaryAlive tok beat stop, d.mayJump v (.watch loc i primaryAlive tok beat stop))
    (h : ∀ primaryAlive alive, d.Follows v (claimJudged ep loc primaryAlive alive)) :
    d.Follows v (afterVerdict ep loc i primaryAlive alive) := by
  cases i with
  | primary => exact hb.follows_aliveAtOpen (hwatch _ _) fun b => h _ _
  | secondary => exact h _ _

theorem Blind.follows_claimPage (hstate : ∀ w, Blind d (d.load v .state w))
    (hclaim : ep.role ≠ .opener → d.maySwap v .state stateEmpty stateInitializing ∧
      d.Follows (d.swap v .state stateInitializing) (claimed ep)) (b : Bool) :
    d.Follows v (claimPage ep loc b) := by
  cases b with
  | false =>
    intro state _
    dsimp only
    split
    · exact (hstate state).restarts _
    · exact (hstate state).fails _
  | true =>
    unfold claimPage
    dsimp only
    split
    · split
      · exact hb.follows_expired _
      · exact hb.follows_clock fun since _ => hb.follows_expired since
    · next hrole =>
      obtain ⟨hmay, hclaimed⟩ := hclaim hrole
      exact ⟨hmay, hclaimed, fun _ => hb.follows_wait _ _⟩

end Blind

/-! ## Programs that initialize -/

/-- What an initializer stores into a word, the state and the heartbeats apart. -/
def initWord (ep : Endpoint) : Field → Word
  | .magic => superblockMagic
  | .major => superblockMajor
  | .minor => superblockMinor
  | .pageSize => ep.geometry.pageSize
  | .bufferCount => ep.geometry.bufferCount
  | .bufferSize => ep.geometry.bufferSize
  | .layoutSize => ep.geometry.layoutSize
  | .creatorToken => ep.creatorToken
  | .token .primary => ep.token
  | .pid .primary => ep.pid
  | .interval .primary => ep.heartbeatInterval
  | _ => 0

def Field.initialized : Field → Bool
  | .state | .epoch | .initToken | .initHeartbeat | .heartbeat .primary => false
  | _ => true

/-- What an initializer has stored when it commits, the last one first. -/
def initFields : List Field :=
  [.magic, .heartbeat .primary, .interval .primary, .pid .primary, .token .primary,
    .interval .secondary, .heartbeat .secondary, .pid .secondary, .token .secondary,
    .layoutSize, .bufferSize, .bufferCount, .pageSize, .requiredFeatures, .minor, .major]

/-- An endpoint with a view in `I l` is an initializer, and it has stored the words of `l`. -/
structure Initializes (d : Discipline Field Word Label V) (ep : Endpoint) (I : List Field → V → Prop) :
    Prop where
  load : ∀ {l v} w, I l v → I l (d.load v .initToken w)
  store : ∀ {l v f}, I l v → f.initialized = true →
    d.mayStore v f (initWord ep f) ∧ I (f :: l) (d.store v f (initWord ep f))
  beat : ∀ {l v f t}, I l v → d.mayLook v t → f = .initHeartbeat ∨ f = .heartbeat .primary →
    d.mayStore (d.look v t) f (word t) ∧ I (f :: l) (d.store (d.look v t) f (word t))
  forget : ∀ {f l v}, I (f :: l) v → I l v
  fails : ∀ {l v}, I l v → d.mayJump v (.failed .initContended)
  commit : ∀ {l v}, I (initFields ++ l) v → d.Follows v (commitInit ep)

section Initializes

variable {I : List Field → V → Prop} {l : List Field} {v : V} {f : Field} {p : Code}
  (hd : Initializes d ep I)
include hd

theorem Initializes.follows_check (hv : I l v) (h : ∀ v', I l v' → d.Follows v' p) :
    d.Follows v (check ep p) := by
  intro t _
  dsimp only
  split
  · exact h _ (hd.load t hv)
  · exact hd.fails (hd.load t hv)

theorem Initializes.follows_store (hv : I l v) (h : ∀ v', I (f :: l) v' → d.Follows v' p)
    (hf : f.initialized = true := by rfl) : d.Follows v (.store f (initWord ep f) p) :=
  have hstore := hd.store hv hf
  ⟨hstore.1, h _ hstore.2⟩

theorem Initializes.follows_beat (hv : I l v) (h : ∀ v', I (f :: l) v' → d.Follows v' p)
    (hf : f = .initHeartbeat ∨ f = .heartbeat .primary := by simp) :
    d.Follows v (.clock fun now => .store f (word now) p) := by
  intro t ht
  have hstore := hd.beat hv ht hf
  exact ⟨hstore.1, h _ hstore.2⟩

theorem Initializes.follows_progress (hv : I l v) (h : ∀ v', I l v' → d.Follows v' p) :
    d.Follows v (progress ep p) := by
  intro t _
  dsimp only
  split
  · exact hd.follows_beat (hd.load t hv) fun v' hv' => h v' (hd.forget hv')
  · exact h _ (hd.load t hv)

theorem Initializes.follows_formatSlices (n : Nat) (hv : I l v) (h : ∀ v', I l v' → d.Follows v' p) :
    d.Follows v (formatSlices ep n p) := by
  induction n generalizing v with
  | zero => exact hd.follows_check hv h
  | succ n ih => exact hd.follows_check hv fun _ hv' => ih hv'

theorem Initializes.follows_formatGuarded (hv : I l v) (h : ∀ v', I l v' → d.Follows v' p) :
    d.Follows v (formatGuarded ep p) :=
  hd.follows_check hv fun _ hv' => hd.follows_formatSlices _ hv' h

theorem Initializes.follows_zeroChunks (n : Nat) (hv : I l v) (h : ∀ v', I l v' → d.Follows v' p) :
    d.Follows v (zeroChunks ep n p) := by
  induction n generalizing v with
  | zero => exact h v hv
  | succ n ih => exact hd.follows_check hv fun _ hv' => hd.follows_progress hv' fun _ hv'' => ih hv''

theorem Initializes.follows_stampLayout (hv : I l v)
    (h : ∀ v', I (.requiredFeatures :: .minor :: .major :: l) v' → d.Follows v' p) :
    d.Follows v (stampLayout p) :=
  hd.follows_store hv fun _ hv => hd.follows_store hv fun _ hv => hd.follows_store hv h

theorem Initializes.follows_publishSuperblock (hv : I l v) : d.Follows v (publishSuperblock ep) := by
  refine hd.follows_check hv fun _ hv => hd.follows_stampLayout hv fun _ hv => ?_
  -- `storeGeometry`
  refine hd.follows_check hv fun _ hv => hd.follows_store hv fun _ hv => hd.follows_store hv fun _ hv => ?_
  refine hd.follows_store hv fun _ hv => hd.follows_store hv fun _ hv => ?_
  -- `clearEndpoint`
  refine hd.follows_check hv fun _ hv => hd.follows_store hv fun _ hv => hd.follows_store hv fun _ hv => ?_
  refine hd.follows_store hv fun _ hv => hd.follows_store hv fun _ hv => ?_
  -- the token and `fillEndpoint`
  refine hd.follows_check hv fun _ hv => hd.follows_store hv fun _ hv => hd.follows_store hv fun _ hv => ?_
  refine hd.follows_store hv fun _ hv => hd.follows_beat hv fun _ hv => ?_
  exact hd.follows_check hv fun _ hv => hd.follows_store hv fun _ hv => hd.commit hv

theorem Initializes.follows_initSegment (hv : I l v) : d.Follows v (initSegment ep) := by
  refine hd.follows_formatGuarded hv fun _ hv => hd.follows_progress hv fun _ hv => ?_
  refine hd.follows_formatGuarded hv fun _ hv => hd.follows_progress hv fun _ hv => ?_
  refine hd.follows_zeroChunks _ hv fun _ hv => hd.follows_zeroChunks _ hv fun _ hv => ?_
  exact hd.follows_publishSuperblock hv

/-- What `beginInit` does once it has the token. -/
theorem Initializes.follows_begun (hv : I l v) : d.Follows v <|
    .store .creatorToken ep.creatorToken <|
      .clock fun now => .store .initHeartbeat (word now) (initSegment ep) :=
  hd.follows_store hv fun _ hv => hd.follows_beat hv fun _ hv => hd.follows_initSegment hv

theorem Initializes.follows_beginInit {expected : Word} {lost : Code} (hv : I l v)
    (hswap : ∀ v', I (.requiredFeatures :: .minor :: .major :: l) v' →
      d.maySwap v' .initToken expected ep.token ∧ I l (d.swap v' .initToken ep.token) ∧ d.Follows v' lost) :
    d.Follows v (beginInit ep expected fun
      | true => initSegment ep
      | false => lost) := by
  refine hd.follows_stampLayout hv fun v' hv' => ?_
  obtain ⟨hmay, howner, hlost⟩ := hswap v' hv'
  exact ⟨hmay, hd.follows_begun howner, fun _ => hlost⟩

end Initializes

end Hqq.Superblock
