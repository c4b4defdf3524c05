import Hqq.Listener.Claim
import Hqq.Superblock.View

/-!
# What an acceptor knows

The discipline of an acceptor. The programs of `claimListener` are walked once, here.
-/

namespace Hqq.Acceptors

open Superblock (heartbeatFresh)

def Field.server : Field → Bool
  | .serverToken | .serverInterval | .serverHeartbeat => true
  | _ => false

def Field.beat : Field → Bool
  | .serverHeartbeat => true
  | _ => false

namespace View

variable (a : Acceptor) (v : View)

/-- The heartbeat that was read is too old at the time of the view. -/
def Stale : Prop :=
  ∃ interval hb, v.read .serverInterval = some interval ∧ v.read .serverHeartbeat = some hb ∧
    0 < interval.toInt ∧ interval.toInt ≤ hour ∧ hb ≠ 0 ∧ hb.toNat ≤ v.time ∧
    heartbeatFresh v.time hb (effectivePeerTimeout a interval) = false

/-- What the acceptor has to have read before it takes the place of a server. -/
def JudgedDead : Prop :=
  ∃ tok, v.read .serverToken = some tok ∧ (isOwnerToken tok = true → v.Stale a)

/-- The record of the server is complete. -/
structure Published : Prop where
  token : v.wrote .serverToken = some a.token
  interval : v.wrote .serverInterval = some a.heartbeatInterval
  heartbeat : (v.wrote .serverHeartbeat).isSome = true

/-! ## What a program may do -/

/-- The owner of the initialization stores the record. Later only the heartbeat is stored. -/
structure MayStore (f : Field) (w : Word) : Prop where
  state : f = .state → v.phase = .committing ∧ w = stateReady
  initToken : f ≠ .initToken
  heartbeat : f.beat = true → w.toNat ≤ v.time
  server : f.server = true → v.phase = .owner ∨ v.phase = .settled ∧ f = .serverHeartbeat
  token : f = .serverToken → w = a.token

/-- The state is taken from empty, or from a server that was judged dead. The claim is given up only
when the record is complete. -/
def MaySwap (old new : Word) : Field → Prop
  | .state => v.phase = .outside ∧ new = stateInitializing ∧
      (old = stateEmpty ∨ old = stateReady ∧ v.JudgedDead a)
  | .initToken =>
      (new = a.token ∧ (v.phase = .claimed ∧ old = 0 ∨ v.phase = .outside)) ∨
      (v.phase = .owner ∧ old = a.token ∧ new = 0 ∧ v.Published a)
  | .serverToken => v.phase = .settled ∧ old = a.token ∧ new = detachedToken
  | _ => False

def MayJump : Label → Prop
  | .again _ => v.phase = .outside
  | .watch _ tok hb _ => v.phase = .outside ∧ v.read .serverToken = some tok ∧
      v.read .serverHeartbeat = some hb ∧ v.Stale a
  | .live => v.phase = .settled
  | .failed _ | .closed => True

end View

def discipline (a : Acceptor) : Discipline Field Word Label View where
  toTracker := View.tracker
  mayLoad := View.MayLoad
  mayLook := View.MayLook Field.beat
  mayLose := View.MayLose
  mayStore := fun v f w => v.MayStore a f w
  maySwap := fun v f old new => v.MaySwap a old new f
  mayAdd := fun _ f _ => f = .epoch
  mayJump := fun v => v.MayJump a

abbrev Follows (a : Acceptor) (v : View) (p : Code) : Prop := (discipline a).Follows v p

abbrev Keeps (v v' : View) : Prop := View.Keeps Field.server v v'

/-! ## How views change -/

namespace View

variable {a : Acceptor} {v v' : View} {w : Word} {t : Nat}

theorem swap_own (v : View) (hw : w ≠ 0) :
    v.swap .initToken w = { v with phase := .owner, wrote := fun _ => none } :=
  Hqq.View.swap_own hw

theorem swap_own_phase (v : View) (hw : w ≠ 0) : (v.swap .initToken w).phase = .owner := by
  rw [v.swap_own hw]

theorem Stale.look (h : v.Stale a) (ht : v.MayLook Field.beat t) : Stale a (v.look t) := by
  obtain ⟨interval, hb, hri, hrh, hpos, hhour, hne, hle, hfresh⟩ := h
  exact ⟨interval, hb, hri, hrh, hpos, hhour, hne, hle.trans ht.1,
    Superblock.View.heartbeatFresh_later hfresh hle ht.1 ht.2.1⟩

theorem Published.keep (h : v.Published a) (hk : Keeps v v') : v'.Published a where
  token := (hk.wrote _ rfl).trans h.token
  interval := (hk.wrote _ rfl).trans h.interval
  heartbeat := (hk.wrote .serverHeartbeat rfl).symm ▸ h.heartbeat

end View

/-! ## Initializing follows the discipline -/

section Programs

variable {a : Acceptor} {v : View} {loc : Locals} {k : Code}

theorem follows_load {f : Field} {k : Word → Code} (h : ∀ w, Follows a (v.load f w) (k w)) :
    Follows a v (.load f k) :=
  fun w _ => h w

def Field.free : Field → Bool
  | .state | .initToken => false
  | f => !f.server

theorem View.mayStore_free {f : Field} {w : Word} (h : f.free = true) : v.MayStore a f w := by
  refine ⟨?_, ?_, ?_, ?_, ?_⟩ <;> cases f <;> simp_all [Field.free, Field.server, Field.beat]

theorem Keeps.of_free {f : Field} {w : Word} (h : f.free = true) : Keeps v (v.store f w) := by
  refine .of_store ?_ ?_ <;> cases f <;> simp_all [Field.free, Field.server]

theorem follows_free {f : Field} {w : Word} (hf : f.free = true)
    (h : ∀ v', Keeps v v' → Follows a v' k) : Follows a v (.store f w k) :=
  ⟨View.mayStore_free hf, h _ (.of_free hf)⟩

theorem follows_storeAll {fs : List (Field × Word)} (hfs : ∀ p ∈ fs, p.1.free = true)
    (h : ∀ v', Keeps v v' → Follows a v' k) : Follows a v (storeAll fs k) := by
  induction fs generalizing v with
  | nil => exact h v .refl
  | cons p fs ih =>
    refine follows_free (hfs p List.mem_cons_self) fun v1 h1 => ?_
    exact ih (fun q hq => hfs q (List.mem_cons_of_mem p hq)) fun v2 h2 => h v2 (h1.trans h2)

theorem follows_fail {err : Err} : Follows a v (fail err) := trivial

theorem follows_again (h : v.phase = .outside) : Follows a v (again loc) := h

theorem follows_check (h : ∀ v', Keeps v v' → Follows a v' k) : Follows a v (check a k) := by
  refine follows_load fun w => ?_
  split
  · exact h _ .of_load
  · exact follows_fail

theorem follows_note_progress (h : ∀ v', Keeps v v' → Follows a v' k) :
    Follows a v (.clock fun now => .store .initHeartbeat (word now) k) :=
  fun _ _ => follows_free rfl fun v' hv' => h v' (View.Keeps.of_look.trans hv')

theorem follows_formatSlices {n : Nat} (h : ∀ v', Keeps v v' → Follows a v' k) :
    Follows a v (formatSlices a n k) := by
  induction n generalizing v with
  | zero => exact follows_check h
  | succ n ih => exact follows_check fun v' hv' => ih fun w hw => h w (hv'.trans hw)

theorem follows_formatGuarded (h : ∀ v', Keeps v v' → Follows a v' k) :
    Follows a v (formatGuarded a k) :=
  follows_check fun _ hv' => follows_formatSlices fun w hw => h w (hv'.trans hw)

theorem follows_stampListener (h : ∀ v', Keeps v v' → Follows a v' k) :
    Follows a v (stampListener k) :=
  follows_storeAll (by decide) h

theorem follows_storeLimits (h : ∀ v', Keeps v v' → Follows a v' k) : Follows a v (storeLimits a k) :=
  follows_storeAll (by simp [Field.free, Field.server]) h

theorem follows_commitInit (hv : v.phase = .owner) (hp : v.Published a) : Follows a v (commitInit a) := by
  refine ⟨.inr ⟨hv, rfl, rfl, hp⟩, ⟨rfl, fun _ => ⟨?_, ?_⟩⟩, fun _ => trivial⟩
  · exact ⟨fun _ => ⟨by simp [discipline, View.swap], rfl⟩, by simp, nofun, by simp [Field.server], by simp⟩
  · change View.phase _ = .settled
    simp [discipline, View.store]

theorem follows_storeServer (hv : v.phase = .owner) : Follows a v <|
    .store .serverInterval a.heartbeatInterval <| .clock fun now =>
      .store .serverHeartbeat (word now) <| .store .serverToken a.token <|
        .store .magic listenerMagic <| commitInit a := by
  refine ⟨⟨by simp, by simp, nofun, fun _ => .inl hv, by simp⟩, fun now hnow => ?_⟩
  refine ⟨⟨by simp, by simp, fun _ => ?_, fun _ => .inl (by simpa [discipline] using hv), by simp⟩, ?_⟩
  · change (word now).toNat ≤ now
    rw [word_toNat]
    exact Nat.mod_le _ _
  refine ⟨⟨by simp, by simp, nofun, fun _ => .inl (by simpa [discipline] using hv), fun _ => rfl⟩, ?_⟩
  refine follows_free rfl fun v' hv' => ?_
  refine follows_commitInit (hv'.phase.trans (by simpa [discipline] using hv)) (View.Published.keep ?_ hv')
  exact ⟨by simp [discipline], by simp [discipline], by simp [discipline]⟩

theorem follows_initHeader (hv : v.phase = .owner) : Follows a v (initHeader a) := by
  refine follows_formatGuarded fun v1 h1 => follows_note_progress fun v2 h2 => ?_
  refine follows_check fun v3 h3 => follows_stampListener fun v4 h4 => follows_storeLimits fun v5 h5 => ?_
  exact follows_storeServer (((((h1.trans h2).trans h3).trans h4).trans h5).phase.trans hv)

theorem follows_begun (hv : v.phase = .owner) : Follows a v <|
    .store .creatorToken a.creatorToken <|
      .clock fun now => .store .initHeartbeat (word now) (initHeader a) :=
  follows_free rfl fun _ h1 => follows_note_progress fun _ h2 =>
    follows_initHeader ((h1.trans h2).phase.trans hv)

theorem follows_claimed (hep : a.token ≠ 0) (hv : v.phase = .claimed) : Follows a v (claimed a) := by
  intro expected hexp
  obtain rfl : expected = 0 := hexp rfl hv
  refine follows_stampListener fun v1 h1 => ?_
  have hv1 : v1.phase = .claimed := h1.phase.trans hv
  refine ⟨.inl ⟨rfl, .inl ⟨hv1, rfl⟩⟩, follows_begun (v1.swap_own_phase hep), ?_⟩
  exact fun hlose => absurd ⟨rfl, hv1⟩ hlose

/-! ## Claiming follows the discipline -/

theorem follows_wait {stalling : Bool} (hv : v.phase = .outside) : Follows a v (wait a loc stalling) := by
  unfold wait
  generalize (if stalling then loc.watch else none) = watch
  intro now _
  dsimp only
  split
  · exact follows_again hv
  cases watch with
  | none => exact follows_fail
  | some w =>
    intro now _
    dsimp only
    split
    · exact follows_again hv
    · exact follows_fail

theorem follows_takeover {expected : Word} {k : Code} (hep : a.token ≠ 0) (hv : v.phase = .outside)
    (h : ∀ v', v'.phase = .outside → Follows a v' k) :
    Follows a v (beginListenerInit a expected fun
      | true => initHeader a
      | false => k) := by
  refine follows_stampListener fun v1 h1 => ?_
  have hv1 : v1.phase = .outside := h1.phase.trans hv
  exact ⟨.inl ⟨rfl, .inr hv1⟩, follows_begun (v1.swap_own_phase hep), fun _ => h v1 hv1⟩

theorem follows_checkListenerCompat {initializing : Bool} (h : ∀ v', v'.phase = v.phase → Follows a v' k) :
    Follows a v (checkListenerCompat initializing k) := by
  refine follows_load fun features => ?_
  split
  · exact follows_fail
  refine follows_load fun magic => follows_load fun major => ?_
  repeat' split
  all_goals first
    | exact follows_fail
    | exact h _ rfl
    | skip
  refine follows_load fun t => ?_
  split
  · exact follows_fail
  · exact h _ rfl

theorem follows_listenerHeaderZero {k : Bool → Code} (h : ∀ v' b, v'.phase = v.phase → Follows a v' (k b))
    (fs : List Field) : Follows a v (listenerHeaderZero k fs) := by
  induction fs generalizing v with
  | nil => exact h v true rfl
  | cons f fs ih =>
    refine follows_load fun w => ?_
    split
    · exact h _ false rfl
    · exact ih h

theorem follows_claimEmpty (hep : a.token ≠ 0) (hv : v.phase = .outside) :
    Follows a v (claimEmpty a loc) := by
  refine follows_listenerHeaderZero (fun v b hb => ?_) headerFields
  replace hv : v.phase = .outside := hb.trans hv
  cases b with
  | false =>
    refine follows_load fun state => ?_
    split
    · exact follows_again hv
    · exact follows_fail
  | true =>
    refine ⟨⟨hv, rfl, .inl rfl⟩, follows_claimed hep ?_, fun _ => follows_wait hv⟩
    simp [discipline, View.swap]

theorem follows_claimInitializing (hep : a.token ≠ 0) (hv : v.phase = .outside) :
    Follows a v (claimInitializing a loc) := by
  refine follows_load fun tok => follows_load fun hb => follows_checkListenerCompat fun v' hv' => ?_
  replace hv : v'.phase = .outside := hv'.trans hv
  intro now _
  dsimp only
  split
  · exact follows_wait hv
  split
  · exact follows_wait hv
  split
  · exact follows_takeover hep hv fun _ hw => follows_wait hw
  · exact follows_wait hv

theorem follows_claimJudged {alive : Bool} (hep : a.token ≠ 0) (hv : v.phase = .outside)
    (hdead : alive = false → v.JudgedDead a) : Follows a v (claimJudged a loc alive) := by
  unfold claimJudged
  cases alive with
  | true => exact follows_fail
  | false =>
    refine ⟨⟨hv, rfl, .inr ⟨rfl, hdead rfl⟩⟩, follows_claimed hep ?_, fun _ => follows_again hv⟩
    simp [discipline, View.swap]

theorem follows_listenerServerAlive (hep : a.token ≠ 0) (hv : v.phase = .outside) :
    Follows a v (listenerServerAlive a loc (claimJudged a loc)) := by
  refine follows_load fun tok => ?_
  split
  case isTrue hno =>
    refine follows_claimJudged hep hv fun _ => ⟨tok, by simp, fun ho => ?_⟩
    simp [ho] at hno
  refine follows_load fun interval => ?_
  split
  · exact follows_claimJudged hep hv nofun
  case isFalse hinterval =>
  obtain ⟨hpos, hhour⟩ := not_or.mp hinterval
  refine follows_load fun hb => ?_
  split
  · exact follows_claimJudged hep hv nofun
  case isFalse hne =>
  intro now hnow
  dsimp only
  split
  · exact follows_claimJudged hep hv nofun
  case isFalse hfresh =>
    intro now' hnow'
    have hstale : View.Stale a ((((v.load .serverToken tok).load .serverInterval interval).load
        .serverHeartbeat hb).look now) :=
      ⟨interval, hb, by simp, by simp, by omega, by omega, hne, hnow.2.2 .serverHeartbeat hb rfl (by simp),
        by simpa using hfresh⟩
    exact ⟨hv, by simp [discipline], by simp [discipline], hstale.look hnow'⟩

theorem follows_watchRound {tok hb : Word} {stop : Int} (hep : a.token ≠ 0)
    (hv : v.MayJump a (.watch loc tok hb stop)) :
    Follows a v (watchRound loc tok hb stop (claimJudged a loc)) := by
  obtain ⟨hout, htok, hhb, hstale⟩ := hv
  intro now hnow
  replace hstale := hstale.look hnow
  -- A change of the heartbeat or of the token: the acceptor is judged by its token alone.
  have hchanged : ∀ v' : View, v'.phase = .outside →
      Follows a v' (.load .serverToken fun t => claimJudged a loc (isOwnerToken t)) := by
    intro v' hv'
    refine follows_load fun t => follows_claimJudged hep hv' fun ho => ⟨t, by simp, fun ho' => ?_⟩
    simp [ho'] at ho
  dsimp only
  split
  · exact follows_claimJudged hep hout fun _ => ⟨tok, htok, fun _ => hstale⟩
  refine follows_load fun h => ?_
  split
  · exact hchanged _ hout
  case isFalse hsame =>
    obtain rfl : h = hb := not_not.mp hsame
    refine follows_load fun t => ?_
    split
    · exact hchanged _ hout
    case isFalse hsame =>
      obtain rfl : t = tok := not_not.mp hsame
      refine ⟨hout, by simp [discipline], by simp [discipline], ?_⟩
      obtain ⟨interval, hb, hri, hrh, hrest⟩ := hstale
      obtain rfl : hb = h := by simpa [hhb] using hrh.symm
      exact ⟨interval, hb, by simpa [discipline] using hri, by simp [discipline], hrest⟩

theorem follows_claimRound (hep : a.token ≠ 0) (hv : v.phase = .outside) :
    Follows a v (claimRound a loc) := by
  refine follows_load fun state => ?_
  split
  · exact follows_claimEmpty hep hv
  split
  · exact follows_claimInitializing hep hv
  split
  · exact follows_checkListenerCompat fun v' hv' => follows_listenerServerAlive hep (hv'.trans hv)
  · exact follows_fail

theorem follows_closing {l : Label} {p : Code} (hl : v.MayJump a l) (hp : closing a l = some p) :
    Follows a v p := by
  cases l <;> cases hp
  exact ⟨⟨hl, rfl, rfl⟩, trivial, fun _ => trivial⟩

theorem follows_claimListener (hv : v.phase = .outside) : Follows a v (claimListener a) :=
  fun _ _ => follows_again hv

theorem follows_heartbeatRound (hv : v.phase = .settled) : Follows a v (heartbeatRound a) := by
  refine follows_load fun t => ?_
  split
  · intro now _
    refine ⟨⟨by simp, by simp, fun _ => ?_, fun _ => .inr ⟨hv, rfl⟩, by simp⟩, ?_⟩
    · change (word now).toNat ≤ now
      rw [word_toNat]
      exact Nat.mod_le _ _
    · change View.phase _ = .settled
      simpa [discipline] using hv
  · exact hv

/-- Whatever the program counter, the code there follows the discipline. -/
theorem follows_code (hep : a.token ≠ 0) {l : Label} {p : Code} (hl : v.MayJump a l)
    (hp : code a l = some p) : Follows a v p := by
  cases l with
  | again loc => cases hp; exact follows_claimRound hep hl
  | watch loc tok hb stop => cases hp; exact follows_watchRound hep hl
  | live =>
    simp only [code, Option.ite_none_left_eq_some, Option.some.injEq] at hp
    obtain ⟨-, rfl⟩ := hp
    exact follows_heartbeatRound hl
  | failed err => cases hp
  | closed => cases hp

end Programs

end Hqq.Acceptors
