import Hqq.Superblock.Walk

/-!
# What an endpoint knows

The discipline of an endpoint. The programs of `claimSuperblock` are walked once, here.
-/

namespace Hqq.Superblock

/-- The words that a joiner compares and the word that it swaps. Only an initializer
stores them. -/
def Field.published : Field → Bool
  | .bufferCount | .bufferSize | .layoutSize | .pageSize | .token .secondary => true
  | _ => false

def Field.beat : Field → Bool
  | .heartbeat _ => true
  | _ => false

namespace View

variable (ep : Endpoint) (v : View)

def Stale (i : Slot) : Prop :=
  ∃ interval hb, v.read (.interval i) = some interval ∧ v.read (.heartbeat i) = some hb ∧
    0 < interval.toInt ∧ hb ≠ 0 ∧ hb.toNat ≤ v.time ∧
    heartbeatFresh v.time hb (effectivePeerTimeout ep interval) = false

def JudgedDead (i : Slot) : Prop :=
  ∃ tok, v.read (.token i) = some tok ∧ (isOwnerToken tok = true → v.Stale ep i)

structure Matched : Prop where
  ready : v.read .state = some stateReady
  bufferCount : v.read .bufferCount = some ep.geometry.bufferCount
  bufferSize : v.read .bufferSize = some ep.geometry.bufferSize
  layoutSize : v.read .layoutSize = some ep.geometry.layoutSize
  pageSize : v.read .pageSize = some ep.geometry.pageSize

structure Published : Prop where
  bufferCount : v.wrote .bufferCount = some ep.geometry.bufferCount
  bufferSize : v.wrote .bufferSize = some ep.geometry.bufferSize
  layoutSize : v.wrote .layoutSize = some ep.geometry.layoutSize
  pageSize : v.wrote .pageSize = some ep.geometry.pageSize
  secondary : v.wrote (.token .secondary) = some 0

/-! ## What a program may do -/

structure MayStore (f : Field) (w : Word) : Prop where
  state : f = .state → v.phase = .committing ∧ w = stateReady
  initToken : f ≠ .initToken
  heartbeat : f.beat = true → w.toNat ≤ v.time
  published : f.published = true → v.phase = .owner
  secondary : f = .token .secondary → w = 0

def MaySwap (old new : Word) : Field → Prop
  | .state => v.phase = .outside ∧ new = stateInitializing ∧
      (old = stateEmpty ∨
        old = stateReady ∧ v.read .state = some stateReady ∧
          v.JudgedDead ep .primary ∧ v.JudgedDead ep .secondary)
  | .initToken =>
      (new = ep.token ∧ (v.phase = .claimed ∧ old = 0 ∨ v.phase = .outside)) ∨
      (v.phase = .owner ∧ old = ep.token ∧ new = 0 ∧ v.Published ep)
  | .token i => (i = .secondary ∧ old = 0 ∧ new = ep.token ∧ v.Matched ep) ∨
      (old = ep.token ∧ new = detachedToken)
  | _ => False

def MayJump : Label → Prop
  | .again _ => v.phase = .outside
  | .watch _ i primaryAlive tok hb _ =>
    v.phase = .outside ∧ v.read .state = some stateReady ∧
    v.read (.token i) = some tok ∧ v.read (.heartbeat i) = some hb ∧ v.Stale ep i ∧
    (i = .secondary → primaryAlive = false → v.JudgedDead ep .primary)
  | .live _ | .failed _ | .closed => True

end View

def discipline (ep : Endpoint) : Discipline Field Word Label View where
  toTracker := View.tracker
  mayLoad := View.MayLoad
  mayLook := View.MayLook Field.beat
  mayLose := View.MayLose
  mayStore := View.MayStore
  maySwap := fun v f old new => v.MaySwap ep old new f
  mayAdd := fun _ f _ => f = .epoch
  mayJump := fun v => v.MayJump ep

abbrev Follows (ep : Endpoint) (v : View) (p : Code) : Prop := (discipline ep).Follows v p

abbrev Keeps (v v' : View) : Prop := View.Keeps Field.published v v'

/-! ## How views change -/

namespace View

variable {ep : Endpoint} {v v' : View} {f : Field} {w : Word} {t : Nat} {i : Slot}

theorem Stale.load (h : v.Stale ep i) (hf : f ≠ .state) (hi : Field.interval i ≠ f)
    (hb : Field.heartbeat i ≠ f) : Stale ep (v.load f w) i := by
  simpa [Stale, hf, hi, hb] using h

theorem JudgedDead.load (h : v.JudgedDead ep i) (hf : f ≠ .state) (ht : Field.token i ≠ f)
    (hi : Field.interval i ≠ f) (hb : Field.heartbeat i ≠ f) :
    JudgedDead ep (v.load f w) i := by
  obtain ⟨tok, hr, hs⟩ := h
  exact ⟨tok, by simpa [hf, ht] using hr, fun ho => (hs ho).load hf hi hb⟩

theorem heartbeatFresh_later {now now' : Nat} {hb : Word} {timeout : Int}
    (h : heartbeatFresh now hb timeout = false) (hb' : hb.toNat ≤ now) (hle : now ≤ now')
    (hlt : now' < 2 ^ 63) : heartbeatFresh now' hb timeout = false := by
  have hint : hb.toInt = hb.toNat := BitVec.toInt_eq_toNat_of_lt (by omega)
  simp only [heartbeatFresh, second, hint, Bool.and_eq_false_iff, decide_eq_false_iff_not] at h ⊢
  omega

theorem Stale.look (h : v.Stale ep i) (ht : v.MayLook Field.beat t) : Stale ep (v.look t) i := by
  obtain ⟨interval, hb, hri, hrh, hpos, hne, hle, hfresh⟩ := h
  exact ⟨interval, hb, hri, hrh, hpos, hne, hle.trans ht.1,
    heartbeatFresh_later hfresh hle ht.1 ht.2.1⟩

theorem JudgedDead.look (h : v.JudgedDead ep i) (ht : v.MayLook Field.beat t) :
    JudgedDead ep (v.look t) i := by
  obtain ⟨tok, hr, hs⟩ := h
  exact ⟨tok, hr, fun ho => (hs ho).look ht⟩

end View

/-! ## Initializing follows the discipline -/

section Programs

variable {ep : Endpoint} {v : View} {loc : Locals} {k : Code}

theorem follows_load {f : Field} {k : Word → Code} (h : ∀ w, Follows ep (v.load f w) (k w)) :
    Follows ep v (.load f k) :=
  fun w _ => h w

def Field.free : Field → Bool
  | .state | .initToken | .heartbeat _ => false
  | f => !f.published

theorem View.mayStore_free {f : Field} {w : Word} (h : f.free = true) : v.MayStore f w := by
  have hsec : f = .token .secondary → w = 0 := by
    rintro rfl
    simp [Field.free, Field.published] at h
  refine ⟨?_, ?_, ?_, ?_, hsec⟩ <;> cases f <;> simp_all [Field.free, Field.beat]

theorem Keeps.of_free {f : Field} {w : Word} (h : f.free = true) :
    Keeps v (v.store f w) := by
  refine .of_store ?_ ?_ <;> cases f <;> simp_all [Field.free, Field.published]

theorem follows_free {f : Field} {w : Word} (hf : f.free = true)
    (h : ∀ v', Keeps v v' → Follows ep v' k) : Follows ep v (.store f w k) :=
  ⟨View.mayStore_free hf, h _ (.of_free hf)⟩

theorem follows_fail {err : Err} : Follows ep v (fail err) := trivial

theorem follows_again (h : v.phase = .outside) : Follows ep v (again loc) := h

theorem follows_beat {i : Slot} (h : ∀ v', Keeps v v' → Follows ep v' k) :
    Follows ep v (.clock fun now => .store (.heartbeat i) (word now) k) := by
  intro now hnow
  refine ⟨⟨by simp, by simp, ?_, by simp [Field.published], by simp⟩, ?_⟩
  · intro _
    change (word now).toNat ≤ now
    rw [word_toNat]
    exact Nat.mod_le _ _
  · exact h _ (View.Keeps.of_look.trans (.of_store (by simp) rfl))

theorem follows_stampLayout (h : ∀ v', Keeps v v' → Follows ep v' k) :
    Follows ep v (stampLayout k) :=
  follows_free rfl fun _ h1 => follows_free rfl fun _ h2 => follows_free rfl fun v3 h3 =>
    h v3 ((h1.trans h2).trans h3)

theorem follows_fillEndpoint {i : Slot} (h : ∀ v', Keeps v v' → Follows ep v' k) :
    Follows ep v (fillEndpoint ep i k) :=
  follows_free rfl fun _ h1 => follows_free rfl fun _ h2 => follows_beat fun v3 h3 =>
    h v3 ((h1.trans h2).trans h3)

/-- The words of `l` that a joiner compares hold what an initializer stores into them. -/
def View.Wrote (ep : Endpoint) (l : List Field) (v : View) : Prop :=
  v.phase = .owner ∧ ∀ f ∈ l, f.published = true → v.wrote f = some (initWord ep f)

theorem View.Wrote.store {l : List Field} {f : Field} {w : Word} (h : v.Wrote ep l) (hf : f ≠ .state)
    (hw : f.published = true → w = initWord ep f) : View.Wrote ep (f :: l) (v.store f w) := by
  refine ⟨(Hqq.View.store_phase hf).trans h.1, fun g hg hpub => ?_⟩
  by_cases hgf : g = f
  · subst hgf
    rw [Hqq.View.store_wrote_self, hw hpub]
  · rw [Hqq.View.store_wrote_of_ne hgf]
    exact h.2 g ((List.mem_cons.mp hg).resolve_left hgf) hpub

theorem View.initializes (ep : Endpoint) : Initializes (discipline ep) ep (View.Wrote ep) where
  load _ hv := hv
  store {l v f} hv hf := by
    have hstate : f ≠ .state := by
      rintro rfl
      cases hf
    refine ⟨⟨fun h => absurd h hstate, ?_, ?_, fun _ => hv.1, ?_⟩, hv.store hstate fun _ => rfl⟩
    · rintro rfl
      cases hf
    · intro hbeat
      cases f with
      | heartbeat i =>
        cases i with
        | primary => cases hf
        | secondary => exact Nat.zero_le _
      | _ => cases hbeat
    · rintro rfl
      rfl
  beat {l v f t} hv _ hf := by
    have hlook : View.Wrote ep l (v.look t) := hv
    have htime : (word t).toNat ≤ t := (word_toNat t).trans_le (Nat.mod_le _ _)
    obtain rfl | rfl := hf
    · exact ⟨⟨by simp, by simp, fun _ => htime, by simp [Field.published], by simp⟩,
        hlook.store (by simp) (by simp [Field.published])⟩
    · exact ⟨⟨by simp, by simp, fun _ => htime, by simp [Field.published], by simp⟩,
        hlook.store (by simp) (by simp [Field.published])⟩
  forget hv := ⟨hv.1, fun f hf => hv.2 f (.tail _ hf)⟩
  fails _ := trivial
  commit {l v} hv := by
    have hwrote {f : Field} (hf : f ∈ initFields) := hv.2 f (List.mem_append_left _ hf)
    have hpub : v.Published ep :=
      { bufferCount := hwrote (by simp [initFields]) rfl
        bufferSize := hwrote (by simp [initFields]) rfl
        layoutSize := hwrote (by simp [initFields]) rfl
        pageSize := hwrote (by simp [initFields]) rfl
        secondary := hwrote (by simp [initFields]) rfl }
    refine ⟨.inr ⟨hv.1, rfl, rfl, hpub⟩, ⟨rfl, fun _ => ⟨?_, trivial⟩⟩, fun _ => trivial⟩
    exact ⟨fun _ => ⟨by simp [discipline, View.swap], rfl⟩, by simp, nofun,
      by simp [Field.published], by simp⟩

theorem View.swap_own (v : View) {new : Word} (hnew : new ≠ 0) :
    v.swap .initToken new = { v with phase := .owner, wrote := fun _ => none } :=
  Hqq.View.swap_own hnew

theorem View.Wrote.own (hep : ep.token ≠ 0) : View.Wrote ep [] (v.swap .initToken ep.token) := by
  rw [v.swap_own hep]
  exact ⟨rfl, nofun⟩

theorem follows_claimed (hep : ep.token ≠ 0) (hv : v.phase = .claimed) :
    Follows ep v (claimed ep) := by
  intro expected hexp
  obtain rfl : expected = 0 := hexp rfl hv
  refine follows_stampLayout fun v1 h1 => ?_
  have hv1 : v1.phase = .claimed := h1.phase.trans hv
  refine ⟨.inl ⟨rfl, .inl ⟨hv1, rfl⟩⟩, (View.initializes ep).follows_begun (.own hep), ?_⟩
  exact fun hlose => absurd ⟨rfl, hv1⟩ hlose

/-! ## Claiming follows the discipline -/

theorem follows_waitFor {watch : Option Watch} (hv : v.phase = .outside) :
    Follows ep v (waitFor ep loc watch) := by
  intro now _
  dsimp only
  split
  · exact follows_again hv
  cases watch with
  | none => exact follows_fail
  | some w =>
    intro now _
    dsimp only
    split
    · exact follows_again hv
    · exact follows_fail

theorem follows_wait {stalling emptyWait : Bool} (hv : v.phase = .outside) :
    Follows ep v (wait ep loc stalling emptyWait) := by
  unfold wait
  split
  · exact follows_again hv
  · exact follows_waitFor hv

theorem follows_takeover {expected : Word} {k : Code} (hep : ep.token ≠ 0)
    (hv : v.phase = .outside) (h : ∀ v', v'.phase = .outside → Follows ep v' k) :
    Follows ep v (beginInit ep expected fun
      | true => initSegment ep
      | false => k) := by
  refine follows_stampLayout fun v1 h1 => ?_
  have hv1 : v1.phase = .outside := h1.phase.trans hv
  exact ⟨.inl ⟨rfl, .inr hv1⟩, (View.initializes ep).follows_begun (.own hep), fun _ => h v1 hv1⟩

theorem follows_checkLayoutCompat {initializing : Bool}
    (h : ∀ v', v'.phase = v.phase → v'.read .state = v.read .state → Follows ep v' k) :
    Follows ep v (checkLayoutCompat initializing k) := by
  refine follows_load fun features => ?_
  split
  · exact follows_fail
  refine follows_load fun magic => follows_load fun major => ?_
  repeat' split
  all_goals first
    | exact follows_fail
    | exact h _ rfl (by simp)
    | skip
  refine follows_load fun t => ?_
  split
  · exact follows_fail
  · exact h _ rfl (by simp)

theorem follows_firstPageZero {k : Bool → Code}
    (h : ∀ v' b, v'.phase = v.phase → Follows ep v' (k b)) (fs : List Field) :
    Follows ep v (firstPageZero k fs) := by
  induction fs generalizing v with
  | nil => exact h v true rfl
  | cons f fs ih =>
    refine follows_load fun w => ?_
    split
    · exact h _ false rfl
    · exact ih h

theorem follows_claimEmpty (hep : ep.token ≠ 0) (hv : v.phase = .outside) :
    Follows ep v (claimEmpty ep loc) := by
  refine follows_firstPageZero (fun v b hb => ?_) pageFields
  replace hv : v.phase = .outside := hb.trans hv
  cases b with
  | false =>
    refine follows_load fun state => ?_
    split
    · exact follows_again hv
    · exact follows_fail
  | true =>
    have hexpired : ∀ (since : Nat) v, v.phase = .outside → Follows ep v (.clock fun now =>
        if ep.attachTimeout ≤ (now : Int) - since then fail .segmentNotReady
        else wait ep { loc with emptySince := some since } false true) := by
      intro since v hv now _
      dsimp only
      split
      · exact follows_fail
      · exact follows_wait hv
    unfold claimPage
    dsimp only
    split
    · split
      · exact hexpired _ _ hv
      · exact fun since _ => hexpired since _ hv
    · refine ⟨⟨hv, rfl, .inl rfl⟩, follows_claimed hep ?_, fun _ => follows_wait hv⟩
      simp [discipline, View.swap]

theorem follows_claimInitializing (hep : ep.token ≠ 0) (hv : v.phase = .outside) :
    Follows ep v (claimInitializing ep loc) := by
  refine follows_load fun tok => follows_load fun hb => follows_checkLayoutCompat fun v' hv' _ => ?_
  replace hv : v'.phase = .outside := hv'.trans hv
  split
  · exact follows_wait hv
  intro now _
  dsimp only
  split
  · exact follows_wait hv
  split
  · exact follows_wait hv
  split
  · exact follows_takeover hep hv fun _ hw => follows_wait hw
  · exact follows_wait hv

structure View.Judging (ep : Endpoint) (i : Slot) (primaryAlive : Bool) (v : View) : Prop where
  outside : v.phase = .outside
  ready : v.read .state = some stateReady
  primary : i = .secondary → primaryAlive = false → v.JudgedDead ep .primary

theorem View.Judging.load {i : Slot} {primaryAlive : Bool} {f : Field} {w : Word}
    (h : v.Judging ep i primaryAlive)
    (hf : f = .token i ∨ f = .interval i ∨ f = .heartbeat i) :
    View.Judging ep i primaryAlive (v.load f w) := by
  refine ⟨h.outside, ?_, fun hi hp => (h.primary hi hp).load ?_ ?_ ?_ ?_⟩
  · rw [View.load_read_of_ne] <;> first | exact h.ready | (rintro rfl; simp at hf)
  all_goals rintro rfl
  all_goals simp_all

theorem View.Judging.look {i : Slot} {primaryAlive : Bool} {t : Nat}
    (h : v.Judging ep i primaryAlive) (ht : v.MayLook Field.beat t) :
    View.Judging ep i primaryAlive (v.look t) :=
  ⟨h.outside, h.ready, fun hi hp => (h.primary hi hp).look ht⟩

def AfterVerdict (ep : Endpoint) (i : Slot) (primaryAlive : Bool) (k : Bool → Code) : Prop :=
  ∀ v alive, v.Judging ep i primaryAlive → (alive = false → v.JudgedDead ep i) →
    Follows ep v (k alive)

theorem follows_aliveAtOpen {i : Slot} {primaryAlive : Bool} {k : Bool → Code}
    (hv : v.Judging ep i primaryAlive) (hk : AfterVerdict ep i primaryAlive k) :
    Follows ep v (aliveAtOpen ep loc i primaryAlive k) := by
  refine follows_load fun tok => ?_
  have hv1 := hv.load (w := tok) (.inl rfl)
  split
  case isTrue hno =>
    exact hk _ false hv1 fun _ => ⟨tok, by simp, fun ho => by simp [ho] at hno⟩
  refine follows_load fun interval => ?_
  have hv2 := hv1.load (w := interval) (.inr (.inl rfl))
  split
  · exact hk _ true hv2 (by simp)
  refine follows_load fun hb => ?_
  have hv3 := hv2.load (w := hb) (.inr (.inr rfl))
  split
  · exact hk _ true hv3 (by simp)
  intro now hnow
  dsimp only
  split
  · exact hk _ true (hv3.look hnow) (by simp)
  case isFalse hpos hne hfresh =>
    intro now' hnow'
    have hstale : View.Stale ep ((((v.load (.token i) tok).load (.interval i) interval).load
        (.heartbeat i) hb).look now) i :=
      ⟨interval, hb, by simp, by simp, by omega, hne, hnow.2.2 (.heartbeat i) hb rfl (by simp),
        by simpa using hfresh⟩
    have hv4 := (hv3.look hnow).look hnow'
    exact ⟨hv4.outside, hv4.ready, by simp [discipline], by simp [discipline],
      hstale.look hnow', hv4.primary⟩

theorem follows_watchRound {i : Slot} {primaryAlive : Bool} {tok hb : Word} {stop : Int}
    {k : Bool → Code} (hk : AfterVerdict ep i primaryAlive k)
    (hv : v.MayJump ep (.watch loc i primaryAlive tok hb stop)) :
    Follows ep v (watchRound loc i primaryAlive tok hb stop k) := by
  obtain ⟨hout, hready, htok, hhb, hstale, hprim⟩ := hv
  intro now hnow
  have hj : View.Judging ep i primaryAlive (v.look now) :=
    View.Judging.look ⟨hout, hready, hprim⟩ hnow
  replace hstale := hstale.look hnow
  -- A change of the heartbeat or of the token: the record is judged by its token alone.
  have hchanged : ∀ v' : View, v'.Judging ep i primaryAlive →
      Follows ep v' (.load (.token i) fun t => k (isOwnerToken t)) := by
    intro v' hv'
    refine follows_load fun t => hk _ _ (hv'.load (.inl rfl)) fun ho => ?_
    exact ⟨t, by simp, fun ho' => by simp [ho'] at ho⟩
  dsimp only
  split
  · exact hk _ false hj fun _ => ⟨tok, htok, fun _ => hstale⟩
  refine follows_load fun h => ?_
  have hj1 := hj.load (w := h) (.inr (.inr rfl))
  split
  · exact hchanged _ hj1
  case isFalse hsame =>
    obtain rfl : h = hb := not_not.mp hsame
    refine follows_load fun t => ?_
    have hj2 := hj1.load (w := t) (.inl rfl)
    split
    · exact hchanged _ hj2
    case isFalse hsame =>
      obtain rfl : t = tok := not_not.mp hsame
      refine ⟨hj2.outside, hj2.ready, by simp [discipline], by simp [discipline], ?_, hj2.primary⟩
      obtain ⟨interval, hb, hri, hrh, hrest⟩ := hstale
      obtain rfl : hb = h := by simpa [hhb] using hrh.symm
      exact ⟨interval, hb, by simpa [discipline] using hri, by simp [discipline], hrest⟩

theorem follows_claimJudged {primaryAlive secondaryAlive : Bool} (hep : ep.token ≠ 0)
    (hv : v.Judging ep .secondary primaryAlive)
    (hdead : secondaryAlive = false → v.JudgedDead ep .secondary) :
    Follows ep v (claimJudged ep loc primaryAlive secondaryAlive) := by
  unfold claimJudged
  split
  case isTrue hboth =>
    simp only [Bool.and_eq_true, Bool.not_eq_true'] at hboth
    split
    · exact follows_fail
    · refine ⟨⟨hv.outside, rfl, .inr ⟨rfl, hv.ready, hv.primary rfl hboth.1, hdead hboth.2⟩⟩,
        follows_claimed hep ?_, fun _ => follows_again hv.outside⟩
      simp [discipline, View.swap]
  split
  · exact follows_fail
  refine follows_load fun _ => follows_load fun _ => follows_load fun _ => follows_load fun _ => ?_
  dsimp only
  split
  · exact follows_fail
  case isFalse hgeo =>
    have hgeo := not_not.mp hgeo
    split
    · exact follows_fail
    refine follows_load fun t => ?_
    split
    · exact follows_fail
    refine ⟨.inl ⟨rfl, rfl, rfl, ?_⟩, ?_, fun _ => follows_again hv.outside⟩
    · constructor <;> simp [hv.ready, ← hgeo]
    · exact follows_fillEndpoint fun _ _ => follows_load fun _ => trivial

theorem follows_afterVerdict {i : Slot} {primaryAlive : Bool} (hep : ep.token ≠ 0) :
    AfterVerdict ep i primaryAlive (afterVerdict ep loc i primaryAlive) := by
  intro v alive hv hdead
  cases i with
  | primary =>
    refine follows_aliveAtOpen ⟨hv.outside, hv.ready, fun _ => hdead⟩ ?_
    exact fun _ _ hv' hdead' => follows_claimJudged hep hv' hdead'
  | secondary => exact follows_claimJudged hep hv hdead

theorem follows_claimRound (hep : ep.token ≠ 0) (hv : v.phase = .outside) :
    Follows ep v (claimRound ep loc) := by
  refine follows_load fun state => ?_
  split
  · exact follows_claimEmpty hep hv
  split
  · exact follows_claimInitializing hep hv
  split
  case isTrue hready =>
    refine follows_checkLayoutCompat fun v' hphase hstate => ?_
    refine follows_aliveAtOpen ⟨hphase.trans hv, ?_, by simp⟩ (follows_afterVerdict hep)
    simpa [hready] using hstate
  · exact follows_fail

theorem follows_closing {l : Label} {p : Code} (hp : closing ep l = some p) : Follows ep v p := by
  cases l <;> cases hp
  exact ⟨.inr ⟨rfl, rfl⟩, trivial, fun _ => trivial⟩

theorem follows_claimSuperblock (hv : v.phase = .outside) : Follows ep v (claimSuperblock ep) :=
  fun _ _ => follows_again hv

theorem follows_code (hep : ep.token ≠ 0) {l : Label} {p : Code} (hl : v.MayJump ep l)
    (hp : code ep l = some p) : Follows ep v p := by
  cases l with
  | again loc => cases hp; exact follows_claimRound hep hl
  | watch loc i primaryAlive tok hb stop =>
    cases hp
    exact follows_watchRound (follows_afterVerdict hep) hl
  | live i =>
    simp only [code, Option.ite_none_left_eq_some, Option.some.injEq] at hp
    obtain ⟨-, rfl⟩ := hp
    refine follows_load fun _ => ?_
    split
    · exact follows_beat fun _ _ => trivial
    · trivial
  | failed err => cases hp
  | closed => cases hp

end Programs

end Hqq.Superblock
