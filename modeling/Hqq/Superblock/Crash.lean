import Hqq.Superblock.Ownership
import Hqq.Superblock.Tracked

/-!
# A segment that everybody has left

An endpoint may crash between any two stores. If a joiner dies before it filled its record,
`endpointAliveAtOpen` takes it for alive.
-/

namespace Hqq.Superblock

/-! ## What an endpoint stores into the records -/

inductive Filling
  | no
  | token
  | interval
  deriving DecidableEq

structure Records where
  wrote : Field → Bool
  filling : Filling

def Good (w : Word) : Field → Prop
  | .interval .primary => 0 < w.toInt
  | .heartbeat .primary => w ≠ 0
  | .magic => w = superblockMagic
  | .major => w = superblockMajor
  | .requiredFeatures => w = 0
  | _ => True

def Field.identifies : Field → Bool
  | .interval .primary | .heartbeat .primary | .magic | .major => true
  | _ => false

namespace Records

variable (ep : Endpoint) (v : Records)

def store (f : Field) : Records where
  wrote := Function.update v.wrote f true
  filling :=
    if f = .interval .secondary ∧ v.filling = .token then .interval
    else if f = .heartbeat .secondary ∧ v.filling = .interval then .no
    else v.filling

def swap (f : Field) (new : Word) : Records :=
  if f = .token .secondary ∧ new ≠ detachedToken then { v with filling := .token } else v

/-- Zeros are stored by an initializer, which is no joiner. -/
structure MayStore (f : Field) (w : Word) : Prop where
  good : Good w f
  ready : f = .state → w = stateReady ∧ ∀ g, g.identifies = true → v.wrote g = true
  token : f = .token .secondary → w = 0
  interval : f = .interval .secondary → v.filling = .no ∧ w = 0 ∨ v.filling = .token ∧ 0 < w.toInt
  heartbeat : f = .heartbeat .secondary → w ≠ 0 ∧ v.filling ≠ .token ∨ w = 0 ∧ v.filling = .no

def MaySwap (old new : Word) : Field → Prop
  | .state => new = stateInitializing
  | .initToken => True
  | .token .secondary => old = 0 ∧ new = ep.token ∨ new = detachedToken
  | .token .primary => True
  | _ => False

end Records

def recordRules (ep : Endpoint) : Discipline Field Word Label Records where
  load v _ _ := v
  store v f _ := v.store f
  swap := Records.swap
  look v _ := v
  mayLoad _ _ _ := True
  mayLook _ t := 0 < t ∧ t < 2 ^ 63
  mayLose _ _ := True
  mayStore := Records.MayStore
  maySwap _ f old new := Records.MaySwap ep old new f
  mayAdd _ f _ := f = .epoch
  mayJump v _ := v.filling = .no

abbrev Fills (ep : Endpoint) (v : Records) (p : Code) : Prop := (recordRules ep).Follows v p

/-! ## The code keeps the rules -/

section Programs

variable {ep : Endpoint} {v : Records} {loc : Locals} {k : Code} {f : Field} {w : Word}

theorem Records.wrote_store (v : Records) (f : Field) : (v.store f).wrote f = true := by
  simp [store]

theorem Records.wrote_of_wrote {g : Field} (h : v.wrote g = true) : (v.store f).wrote g = true := by
  by_cases hfg : g = f
  · rw [hfg]
    exact v.wrote_store f
  · simpa [store, hfg] using h

theorem Records.store_filling (hv : v.filling = .no) : (v.store f).filling = .no := by
  simp [Records.store, hv]

theorem Records.swap_filling (hv : v.filling = .no) (hf : f = .token .secondary → w = detachedToken) :
    (v.swap f w).filling = .no := by
  unfold Records.swap
  rw [if_neg fun h => h.2 (hf h.1)]
  exact hv

theorem fills_jump {l : Label} (hv : v.filling = .no) : Fills ep v (.jump l) := hv

theorem Records.blind (hv : v.filling = .no) : Blind (recordRules ep) v :=
  ⟨fun _ _ _ => rfl, fun _ => rfl, fun _ => hv, fun _ => hv⟩

theorem word_ne_zero {now : Nat} (h : 0 < now ∧ now < 2 ^ 63) : word now ≠ 0 := by
  intro h0
  have := congrArg BitVec.toNat h0
  rw [word_toNat, Nat.mod_eq_of_lt (by omega)] at this
  simp at this
  omega

theorem fills_fillSecondary (hep : 0 < ep.heartbeatInterval.toInt) (hv : v.filling = .token)
    (h : ∀ v', v'.filling = .no → Fills ep v' k) : Fills ep v (fillEndpoint ep .secondary k) := by
  refine ⟨⟨trivial, by simp, by simp, by simp, by simp⟩, ?_⟩
  change Fills ep (v.store (.pid .secondary)) _
  have hv1 : (v.store (.pid .secondary)).filling = .token := by simp [Records.store, hv]
  generalize v.store (.pid .secondary) = v1 at hv1 ⊢
  refine ⟨⟨trivial, by simp, by simp, fun _ => .inr ⟨hv1, hep⟩, by simp⟩, fun now hnow => ?_⟩
  have hv2 : (v1.store (.interval .secondary)).filling = .interval := by simp [Records.store, hv1]
  refine ⟨⟨trivial, by simp, by simp, by simp, fun _ => .inl ⟨word_ne_zero hnow, ?_⟩⟩, h _ ?_⟩
  · exact fun hno => absurd (hv2.symm.trans hno) (by simp)
  · change ((v1.store (.interval .secondary)).store (.heartbeat .secondary)).filling = .no
    rw [Records.store, hv2]
    simp

/-! What an initializer does. It is not filling a record as a joiner. -/

def Records.Wrote (fs : List Field) (v : Records) : Prop :=
  v.filling = .no ∧ ∀ f ∈ fs, v.wrote f = true

theorem Records.Wrote.store {fs : List Field} (h : v.Wrote fs) : (v.store f).Wrote (f :: fs) :=
  ⟨store_filling h.1, List.forall_mem_cons.mpr ⟨v.wrote_store f, fun g hg => v.wrote_of_wrote (h.2 g hg)⟩⟩

variable (hep : 0 < ep.heartbeatInterval.toInt)

include hep in
theorem Records.initializes : Initializes (recordRules ep) ep Records.Wrote where
  load _ hv := hv
  store {fs v f} hv hf := by
    refine ⟨⟨?_, ?_, ?_, ?_, ?_⟩, hv.store⟩
    · cases f with
      | heartbeat i | interval i => cases i <;> trivial
      | _ => first | rfl | trivial
    · rintro rfl
      cases hf
    · rintro rfl
      rfl
    · rintro rfl
      exact .inl ⟨hv.1, rfl⟩
    · rintro rfl
      exact .inr ⟨rfl, hv.1⟩
  beat hv ht hf := by
    refine ⟨?_, hv.store⟩
    obtain rfl | rfl := hf
    · exact ⟨trivial, by simp, by simp, by simp, by simp⟩
    · exact ⟨word_ne_zero ht, by simp, by simp, by simp, by simp⟩
  forget hv := ⟨hv.1, fun f hf => hv.2 f (.tail _ hf)⟩
  fails hv := hv.1
  commit {fs v} hv := by
    have hstore : Records.MayStore v .state stateReady := by
      refine ⟨trivial, fun _ => ⟨rfl, fun g hg => hv.2 g (List.mem_append_left _ ?_)⟩, by simp, by simp, by simp⟩
      unfold Field.identifies at hg
      split at hg
      · simp [initFields]
      · simp [initFields]
      · simp [initFields]
      · simp [initFields]
      · cases hg
    exact ⟨trivial, ⟨rfl, fun _ => ⟨hstore, store_filling hv.1⟩⟩, fun _ => hv.1⟩

variable (hv : v.filling = .no)
include hep hv

theorem fills_beginInit (expected : Word) {lost : Code}
    (h : ∀ v', v'.filling = .no → Fills ep v' lost) :
    Fills ep v (beginInit ep expected fun
      | true => initSegment ep
      | false => lost) :=
  (Records.initializes hep).follows_beginInit (l := []) ⟨hv, nofun⟩ fun v' hv' =>
    ⟨trivial, ⟨Records.swap_filling hv'.1 (by simp), nofun⟩, h v' hv'.1⟩

theorem fills_claimed : Fills ep v (claimed ep) :=
  fun expected _ => fills_beginInit hep hv expected fun _ hv' => hv'

omit hep hv in
theorem fills_firstPageZero {k : Bool → Code} (h : ∀ b, Fills ep v (k b)) (fs : List Field) :
    Fills ep v (firstPageZero k fs) := by
  induction fs with
  | nil => exact h true
  | cons f fs ih =>
    intro w _
    dsimp only
    split
    · exact h false
    · exact ih

theorem fills_claimEmpty : Fills ep v (claimEmpty ep loc) :=
  fills_firstPageZero ((Records.blind hv).follows_claimPage (fun _ => Records.blind hv) fun _ =>
    ⟨rfl, fills_claimed hep (Records.swap_filling hv (by simp))⟩) pageFields

variable (htok : ep.token ≠ detachedToken)
include htok

theorem fills_claimJudged (primaryAlive secondaryAlive : Bool) :
    Fills ep v (claimJudged ep loc primaryAlive secondaryAlive) := by
  refine (Records.blind hv).follows_claimJudged (fun _ => ⟨rfl, ?_, fun _ => hv⟩)
    ⟨.inl ⟨rfl, rfl⟩, ?_, fun _ => hv⟩
  · exact fills_claimed hep (Records.swap_filling hv (by simp))
  · refine fills_fillSecondary hep ?_ fun v' hv' _ _ => hv'
    simp [recordRules, Records.swap, htok]

theorem fills_afterVerdict {i : Slot} {primaryAlive alive : Bool} :
    Fills ep v (afterVerdict ep loc i primaryAlive alive) :=
  (Records.blind hv).follows_afterVerdict (fun _ _ _ _ _ => hv) (fills_claimJudged hep hv htok)

theorem fills_claimRound : Fills ep v (claimRound ep loc) := by
  intro state _
  dsimp only
  split
  · exact fills_claimEmpty hep hv
  split
  · exact (Records.blind hv).follows_claimInitializing fun _ _ _ =>
      fills_beginInit hep hv _ fun _ hv' => (Records.blind hv').follows_wait _ _
  split
  · refine (Records.blind hv).follows_checkLayoutCompat false ?_
    exact (Records.blind hv).follows_aliveAtOpen (fun _ _ _ => hv) fun _ => fills_afterVerdict hep hv htok
  · exact hv

theorem fills_code {l : Label} {p : Code} (hp : code ep l = some p) : Fills ep v p := by
  cases l with
  | again loc =>
    cases hp
    exact fills_claimRound hep hv htok
  | watch loc i primaryAlive tok hb stop =>
    cases hp
    exact (Records.blind hv).follows_watchRound hv fun _ => fills_afterVerdict hep hv htok
  | live i =>
    simp only [code, Option.ite_none_left_eq_some, Option.some.injEq] at hp
    obtain ⟨-, rfl⟩ := hp
    intro t _
    dsimp only
    split
    · intro now hnow
      cases i with
      | primary =>
        exact ⟨⟨word_ne_zero hnow, by simp, by simp, by simp, by simp⟩,
          fills_jump (Records.store_filling hv)⟩
      | secondary =>
        refine ⟨⟨trivial, by simp, by simp, by simp, fun _ => .inl ⟨word_ne_zero hnow, ?_⟩⟩,
          fills_jump (Records.store_filling hv)⟩
        change v.filling ≠ .token
        rw [hv]
        simp
    · exact hv
  | failed err => cases hp
  | closed => cases hp

omit hep htok in
theorem fills_close (i : Slot) : Fills ep v (close ep i) := by
  refine ⟨?_, fills_jump (Records.swap_filling hv fun _ => rfl), fun _ => hv⟩
  cases i with
  | primary => trivial
  | secondary => exact .inr rfl

end Programs

/-! ## The records of a segment -/

section Runs

variable {Eid : Type} [DecidableEq Eid] {ep : Eid → Endpoint} {s s' : Tracked Eid Records} {t0 : Nat}

structure Beating (ep : Eid → Endpoint) : Prop extends Distinct ep where
  interval : ∀ e, 0 < (ep e).heartbeatInterval.toInt

omit [DecidableEq Eid] in
theorem kept_recordRules (hep : Beating ep) (ht0 : 0 < t0) :
    Superblock.Kept recordRules code ep t0 ⟨fun _ => false, .no⟩ where
  start e := fun _ _ => rfl
  code e l q v hl hq := by
    refine fills_code (hep.interval e) hl (fun h => ?_) hq
    have := hep.owner e
    rw [h] at this
    cases this
  close e i v hl := fills_close hl i
  load _ _ _ _ := trivial
  lose _ _ _ := trivial
  look _ _ t h0 h1 := ⟨lt_of_lt_of_le ht0 h0, h1⟩

def recorded (ep : Eid → Endpoint) (t0 : Nat) : Machine (Tracked Eid Records) (Act Eid) :=
  tracked recordRules code ep (fun _ => 0) t0 ⟨fun _ => false, .no⟩

def clearsSecondary : Code → Bool
  | .store f w _ => (f = .interval .secondary || f = .heartbeat .secondary) && w = 0
  | _ => false

/-- A joiner does not die before its record is filled, and nobody clears the interval or the
heartbeat of a record with an owner. -/
def InOrder (s : Tracked Eid Records) : Act Eid → Prop
  | .kill e => (s.view e).filling = .no
  | .next e => clearsSecondary (s.prog e) = true →
      isOwnerToken (s.mem (.token .secondary)) = false
  | .close _ | .tick _ => True

def Judgeable (ep : Eid → Endpoint) (s : Tracked Eid Records) : Prop :=
  isOwnerToken (s.mem (.token .secondary)) = true →
    (0 < (s.mem (.interval .secondary)).toInt ∧ s.mem (.heartbeat .secondary) ≠ 0) ∨
    ∃ e, s.mem (.token .secondary) = (ep e).token ∧ s.dead e = false ∧
      ((s.view e).filling = .token ∨
        (s.view e).filling = .interval ∧ 0 < (s.mem (.interval .secondary)).toInt)

structure RecordInv (ep : Eid → Endpoint) (s : Tracked Eid Records) : Prop where
  features : s.mem .requiredFeatures = 0
  wrote : ∀ e f, f.identifies = true → (s.view e).wrote f = true → Good (s.mem f) f
  ready : s.mem .state = stateReady → ∀ f, f.identifies = true → Good (s.mem f) f
  secondary : Judgeable ep s

omit [DecidableEq Eid] in
theorem RecordInv.congr (hi : RecordInv ep s) (hmem : ∀ f, f ≠ .epoch → s'.mem f = s.mem f)
    (hview : s'.view = s.view)
    (hdead : ∀ e, (s.view e).filling ≠ .no → s'.dead e = s.dead e) : RecordInv ep s' where
  features := (hmem _ (by simp)).trans hi.features
  wrote e f hf hw := by
    rw [hmem f (by rintro rfl; cases hf)]
    exact hi.wrote e f hf (hview ▸ hw)
  ready hready f hf := by
    rw [hmem f (by rintro rfl; cases hf)]
    rw [hmem _ (by simp)] at hready
    exact hi.ready hready f hf
  secondary howner := by
    rw [hmem _ (by simp)] at howner
    rw [hmem _ (by simp), hmem _ (by simp), hmem _ (by simp), hview]
    refine (hi.secondary howner).imp_right fun ⟨e, htok, halive, hfill⟩ => ⟨e, htok, ?_, hfill⟩
    rw [hdead e]
    · exact halive
    · rcases hfill with hfill | ⟨hfill, -⟩ <;> rw [hfill] <;> simp

section Store

variable {e : Eid} {f : Field} {w : Word} (hmay : (s.view e).MayStore f w)
  (hok : (f = .interval .secondary ∨ f = .heartbeat .secondary) → w = 0 →
    isOwnerToken (s.mem (.token .secondary)) = false)
  (hmem : s'.mem = Function.update s.mem f w)
  (hview : s'.view = Function.update s.view e ((s.view e).store f)) (hdead : s'.dead = s.dead)
include hmay hok hmem hview hdead

theorem Judgeable.of_store (hj : Judgeable ep s) : Judgeable ep s' := by
  intro howner
  have hself : s'.mem f = w := by rw [hmem, Function.update_self]
  have hother : ∀ g, g ≠ f → s'.mem g = s.mem g := by
    intro g hg
    rw [hmem, Function.update_of_ne hg]
  have hviews : ∀ e', e' ≠ e → (s'.view e').filling = (s.view e').filling := by
    intro e' he
    rw [hview, Function.update_of_ne he]
  have hviewe : (s'.view e).filling = ((s.view e).store f).filling := by rw [hview, Function.update_self]
  have hftok : .token .secondary ≠ f := by
    rintro rfl
    rw [hself, hmay.token rfl] at howner
    cases howner
  rw [hother _ hftok] at howner ⊢
  have hnz : (f = .interval .secondary ∨ f = .heartbeat .secondary) → w ≠ 0 := by
    intro hf h0
    rw [hok hf h0] at howner
    cases howner
  rw [hdead]
  by_cases hint : f = .interval .secondary
  · subst hint
    obtain ⟨hfill, hpos⟩ := (hmay.interval rfl).resolve_left fun h => hnz (.inl rfl) h.2
    rw [hself, hother (.heartbeat .secondary) (by simp)]
    rcases hj howner with ⟨-, hbeat⟩ | ⟨e', htok, hlive, hfill'⟩
    · exact .inl ⟨hpos, hbeat⟩
    refine .inr ⟨e', htok, hlive, ?_⟩
    by_cases he : e' = e
    · subst he
      rw [hviewe]
      exact .inr ⟨by simp [Records.store, hfill], hpos⟩
    · rw [hviews e' he]
      exact hfill'.imp_right fun h => ⟨h.1, hpos⟩
  by_cases hbeat : f = .heartbeat .secondary
  · subst hbeat
    obtain ⟨hpos, hfill⟩ := (hmay.heartbeat rfl).resolve_right fun h => hnz (.inr rfl) h.1
    rw [hself, hother (.interval .secondary) (by simp)]
    rcases hj howner with ⟨hint, -⟩ | ⟨e', htok, hlive, hfill'⟩
    · exact .inl ⟨hint, hpos⟩
    by_cases he : e' = e
    · subst he
      exact .inl ⟨(hfill'.resolve_left hfill).2, hpos⟩
    · refine .inr ⟨e', htok, hlive, ?_⟩
      rwa [hviews e' he]
  · have hfill : ((s.view e).store f).filling = (s.view e).filling := by simp [Records.store, hint, hbeat]
    rw [hother _ (Ne.symm hint), hother _ (Ne.symm hbeat)]
    refine (hj howner).imp_right fun ⟨e', htok, hlive, hfill'⟩ => ⟨e', htok, hlive, ?_⟩
    by_cases he : e' = e
    · subst he
      rwa [hviewe, hfill]
    · rwa [hviews e' he]

theorem RecordInv.of_store (hi : RecordInv ep s) : RecordInv ep s' := by
  have hgood : ∀ g, Good (s.mem g) g → Good (s'.mem g) g := by
    intro g hg
    rw [hmem]
    by_cases hgf : g = f
    · rw [hgf, Function.update_self]
      exact hmay.good
    · rwa [Function.update_of_ne hgf]
  refine ⟨hgood .requiredFeatures hi.features, fun e' g hg hw => ?_, fun hready g hg => ?_,
    .of_store hmay hok hmem hview hdead hi.secondary⟩
  · by_cases hgf : g = f
    · rw [hmem, hgf, Function.update_self]
      exact hmay.good
    · refine hgood g (hi.wrote e' g hg ?_)
      rw [hview] at hw
      by_cases he : e' = e
      · subst he
        rw [Function.update_self] at hw
        simpa [Records.store, hgf] using hw
      · rwa [Function.update_of_ne he] at hw
  · by_cases hf : f = .state
    · exact hgood g (hi.wrote e g hg ((hmay.ready hf).2 g hg))
    · rw [hmem, Function.update_of_ne fun h => hf h.symm] at hready
      exact hgood g (hi.ready hready g hg)

end Store

theorem RecordInv.of_swap (hi : RecordInv ep s) {e : Eid} {f : Field} {old new : Word}
    (halive : s.dead e = false) (hmay : Records.MaySwap (ep e) old new f)
    (hmem : s'.mem = Function.update s.mem f new)
    (hview : s'.view = Function.update s.view e ((s.view e).swap f new))
    (hdead : s'.dead = s.dead) : RecordInv ep s' := by
  have hother : ∀ g, g ≠ f → s'.mem g = s.mem g := by
    intro g hg
    rw [hmem, Function.update_of_ne hg]
  have hwrote : ∀ e' g, (s'.view e').wrote g = (s.view e').wrote g := by
    intro e' g
    rw [hview]
    by_cases he : e' = e
    · subst he
      rw [Function.update_self]
      unfold Records.swap
      split <;> rfl
    · rw [Function.update_of_ne he]
  have hrest : f.identifies = false ∧ f ≠ .requiredFeatures ∧ f ≠ .interval .secondary ∧
      f ≠ .heartbeat .secondary ∧ (f = .state → new = stateInitializing) := by
    cases f with
    | state => exact ⟨rfl, by simp, by simp, by simp, fun _ => hmay⟩
    | initToken | token i => exact ⟨rfl, by simp, by simp, by simp, by simp⟩
    | _ => exact hmay.elim
  obtain ⟨hid, hfeat, hint, hbeat, hstate⟩ := hrest
  have hne : ∀ g, g.identifies = true → g ≠ f := by
    rintro g hg rfl
    rw [hid] at hg
    cases hg
  refine ⟨(hother _ hfeat.symm).trans hi.features, fun e' g hg hw => ?_, fun hready g hg => ?_, fun howner => ?_⟩
  · rw [hother g (hne g hg)]
    exact hi.wrote e' g hg (hwrote e' g ▸ hw)
  · rw [hother g (hne g hg)]
    by_cases hf : f = .state
    · subst hf
      rw [hmem, Function.update_self, hstate rfl] at hready
      cases hready
    · rw [hother _ fun h => hf h.symm] at hready
      exact hi.ready hready g hg
  · rw [hother _ hint.symm, hother _ hbeat.symm, hdead]
    by_cases hf : f = .token .secondary
    · subst hf
      rw [hmem, Function.update_self] at howner ⊢
      rcases hmay with ⟨-, rfl⟩ | rfl
      · refine .inr ⟨e, rfl, halive, .inl ?_⟩
        have hne : (ep e).token ≠ detachedToken := by
          intro h
          rw [h] at howner
          cases howner
        rw [hview, Function.update_self]
        simp [Records.swap, hne]
      · cases howner
    · rw [hother _ fun h => hf h.symm] at howner ⊢
      have hview' : s'.view = s.view := by
        rw [hview, Records.swap, if_neg fun h => hf h.1, Function.update_eq_self]
      rw [hview']
      exact hi.secondary howner

theorem RecordInv.of_step (hfollow : Follow recordRules ep t0 s) (hi : RecordInv ep s) {a : Act Eid}
    (hok : InOrder s a) (h : (recorded ep t0).step s a = some s') : RecordInv ep s' := by
  rcases Threads.step_cases h with ⟨e, rfl, hn⟩ | hidle
  · cases hn.effect (hfollow.prog e) with
    | none hmem hview =>
      refine hi.congr (fun f _ => by rw [hmem]) ?_ fun _ _ => by rw [hn.dead]
      rw [← Function.update_eq_self e s.view]
      rcases hview with hview | ⟨f, hview⟩ | hview <;> exact hview
    | store f w hmay hmem hview k hcode =>
      refine RecordInv.of_store hmay (fun hf hw => hok ?_) hmem hview hn.dead hi
      rw [hcode]
      simpa [clearsSecondary, hw] using hf
    | swap f old new hmay _ hmem hview => exact hi.of_swap hn.alive hmay hmem hview hn.dead
    | add f w hmay hmem hview =>
      obtain rfl : f = .epoch := hmay
      refine hi.congr (fun g hg => ?_) (hview.trans (Function.update_eq_self e s.view))
        fun _ _ => by rw [hn.dead]
      rw [hmem, Function.update_of_ne hg]
  · refine hi.congr (fun f _ => by rw [hidle.mem]) hidle.view fun e hfill => ?_
    rcases hidle.dead with hdead | ⟨e', rfl, hdead⟩
    · rw [hdead]
    · rw [hdead, Function.update_of_ne]
      rintro rfl
      exact hfill hok

theorem recordInv_of_reach (hep : Beating ep) (ht0 : 0 < t0 ∧ t0 < 2 ^ 63)
    (h : (recorded ep t0).Reach InOrder s) : RecordInv ep s := by
  refine h.invariant ?_ fun s a s' hr hi hok hstep => ?_
  · refine ⟨rfl, ?_, ?_, ?_⟩
    · intro e f _ hw
      cases hw
    · intro hready
      cases hready
    · intro howner
      cases howner
  · exact hi.of_step (follow_of_reach (kept_recordRules hep ht0.1) ht0.2 hr) hok hstep

end Runs

/-! ## One creator alone

Nobody is left who writes the segment. A creator opens it, and its instruction number `n` runs at
time `clk n`. -/

def alone (ep : Endpoint) (clk : Nat → Nat) : Nat → Nat → Mem × Code → Option (Mem × Code)
  | _, 0, r => some r
  | n, m + 1, r => (r.2.exec (code ep) r.1 (clk n)).bind (alone ep clk (n + 1) m)

/-- From its instruction number `n` on, a creator with the code `p` gets to where `goal` holds. -/
def Gets (ep : Endpoint) (clk : Nat → Nat) (mem : Mem) (goal : Nat → Mem × Code → Prop) (n : Nat)
    (p : Code) : Prop :=
  ∃ m r, alone ep clk n m (mem, p) = some r ∧ goal (n + m) r

def Taken (clk : Nat → Nat) (mem : Mem) (limit : Nat) (n : Nat) (r : Mem × Code) : Prop :=
  r.1 = Function.update mem .state stateInitializing ∧ clk n ≤ limit

abbrev Takes (ep : Endpoint) (clk : Nat → Nat) (mem : Mem) (limit : Nat) (n : Nat) (p : Code) : Prop :=
  Gets ep clk mem (Taken clk mem limit) n p

section Alone

variable {ep : Endpoint} {clk : Nat → Nat} {mem : Mem} {limit n : Nat} {loc : Locals}
  {goal : Nat → Mem × Code → Prop}

theorem gets_of_exec {p q : Code} (hexec : p.exec (code ep) mem (clk n) = some (mem, q))
    (h : Gets ep clk mem goal (n + 1) q) : Gets ep clk mem goal n p := by
  obtain ⟨m, r, hrun, hgoal⟩ := h
  refine ⟨m + 1, r, ?_, ?_⟩
  · unfold alone
    rw [hexec]
    exact hrun
  · rwa [show n + (m + 1) = n + 1 + m by omega]

theorem gets_load {f : Field} {k : Word → Code} (h : Gets ep clk mem goal (n + 1) (k (mem f))) :
    Gets ep clk mem goal n (.load f k) := gets_of_exec rfl h

theorem gets_clock {k : Nat → Code} (h : Gets ep clk mem goal (n + 1) (k (clk n))) :
    Gets ep clk mem goal n (.clock k) := gets_of_exec rfl h

theorem gets_jump {l : Label} {q : Code} (hl : code ep l = some q)
    (h : Gets ep clk mem goal (n + 1) q) : Gets ep clk mem goal n (.jump l) :=
  gets_of_exec (by simp [Prog.exec, hl]) h

theorem takes_claimJudged (hrole : ep.role ≠ .opener) (hstate : mem .state = stateReady)
    (hle : clk (n + 1) ≤ limit) : Takes ep clk mem limit n (claimJudged ep loc false false) := by
  refine ⟨1, (Function.update mem .state stateInitializing, claimed ep), ?_, rfl, hle⟩
  unfold claimJudged
  simp [alone, hrole, Prog.exec, hstate]

variable {gap : Nat}

/-- The clock goes on without end, and at most `gap` from one instruction to the next. -/
structure Ticking (clk : Nat → Nat) (gap : Nat) : Prop where
  next : ∀ n, clk n ≤ clk (n + 1) ∧ clk (n + 1) ≤ clk n + gap
  unbounded : ∀ t, ∃ n, t ≤ clk n

theorem Ticking.mono (h : Ticking clk gap) {n n' : Nat} (hle : n ≤ n') : clk n ≤ clk n' :=
  monotone_nat_of_le_succ (fun n => (h.next n).1) hle

theorem Ticking.within (h : Ticking clk gap) (n m : Nat) : clk (n + m) ≤ clk n + m * gap := by
  induction m with
  | zero => simp
  | succ m ih =>
    have hnext := (h.next (n + m)).2
    rw [Nat.succ_mul]
    have hadd : n + (m + 1) = n + m + 1 := by omega
    rw [hadd]
    omega

theorem takes_watchRound (hclk : Ticking clk gap) (latest : Nat) (i : Slot) (primaryAlive : Bool)
    {stop : Int} {k : Bool → Code}
    (hcode : code ep (.watch loc i primaryAlive (mem (.token i)) (mem (.heartbeat i)) stop) =
      some (watchRound loc i primaryAlive (mem (.token i)) (mem (.heartbeat i)) stop k))
    (hstop : stop + 5 * gap ≤ latest)
    (hdone : ∀ n', n ≤ n' → clk n' ≤ latest → Takes ep clk mem limit n' (k false))
    (hn : clk n + gap ≤ latest) :
    Takes ep clk mem limit n (watchRound loc i primaryAlive (mem (.token i)) (mem (.heartbeat i)) stop k) := by
  obtain ⟨last, hlast⟩ := hclk.unbounded stop.toNat
  -- the number of rounds that are left at most
  obtain ⟨d, hd⟩ : ∃ d, last ≤ n + d := ⟨last, by omega⟩
  induction d generalizing n with
  | zero =>
    have hle : last ≤ n := by omega
    have := hclk.mono hle
    apply gets_clock
    rw [if_pos (by omega)]
    exact hdone _ (by omega) (by have := (hclk.next n).2; omega)
  | succ d ih =>
    apply gets_clock
    split
    · exact hdone _ (by omega) (by have := (hclk.next n).2; omega)
    apply gets_load
    rw [if_neg (by simp)]
    apply gets_load
    rw [if_neg (by simp)]
    refine gets_jump hcode (ih (fun n' hn' => hdone n' (by omega)) ?_ (by omega))
    have := hclk.within n 4
    rw [show n + 1 + 1 + 1 + 1 = n + 4 by omega]
    omega

theorem takes_aliveAtOpen (hclk : Ticking clk gap) (i : Slot) (primaryAlive : Bool) {k : Bool → Code}
    (hcode : ∀ tok hb stop, code ep (.watch loc i primaryAlive tok hb stop) =
      some (watchRound loc i primaryAlive tok hb stop k))
    (hrecord : isOwnerToken (mem (.token i)) = true →
      0 < (mem (.interval i)).toInt ∧ mem (.heartbeat i) ≠ 0)
    (hstale : ∀ n, (mem (.heartbeat i)).toInt + effectivePeerTimeout ep (mem (.interval i)) ≤ clk n)
    (hdone : ∀ n', n ≤ n' → clk n' ≤ clk n + 2000000000 + 9 * gap → Takes ep clk mem limit n' (k false)) :
    Takes ep clk mem limit n (aliveAtOpen ep loc i primaryAlive k) := by
  apply gets_load
  split
  · exact hdone _ (by omega) (by have := (hclk.next n).2; omega)
  next howner =>
  obtain ⟨hint, hbeat⟩ := hrecord (by simpa using howner)
  apply gets_load
  rw [if_neg (by omega)]
  apply gets_load
  rw [if_neg hbeat]
  apply gets_clock
  have hfresh : heartbeatFresh (clk (n + 1 + 1 + 1)) (mem (.heartbeat i))
      (effectivePeerTimeout ep (mem (.interval i))) = false := by
    have := hstale (n + 1 + 1 + 1)
    simp only [heartbeatFresh, Bool.and_eq_false_iff, decide_eq_false_iff_not]
    right
    omega
  rw [hfresh]
  apply gets_clock
  refine gets_jump (hcode _ _ _) (takes_watchRound hclk (clk n + 2000000000 + 9 * gap) i
    primaryAlive (hcode _ _ _) ?_ (fun n' hn' hle => hdone n' (by omega) hle) ?_)
  · have h4 := hclk.within n 4
    have hmin : min (3 * mem (.interval i)).toInt (2 * second) ≤ 2000000000 := min_le_right _ _
    rw [show n + 1 + 1 + 1 + 1 = n + 4 by omega]
    omega
  · have h6 := hclk.within n 6
    rw [show n + 1 + 1 + 1 + 1 + 1 + 1 = n + 6 by omega]
    omega

def Settled (mem : Mem) : Prop :=
  mem .state = stateReady ∧ mem .magic = superblockMagic ∧ mem .major = superblockMajor ∧
    mem .requiredFeatures = 0

structure Left (mem : Mem) : Prop where
  settled : Settled mem
  records : ∀ i, isOwnerToken (mem (.token i)) = true →
    0 < (mem (.interval i)).toInt ∧ mem (.heartbeat i) ≠ 0

theorem gets_claimSuperblock (hs : Settled mem)
    (h : ∀ loc, Gets ep clk mem goal 6 (aliveAtOpen ep loc .primary false (afterVerdict ep loc .primary false))) :
    Gets ep clk mem goal 0 (claimSuperblock ep) := by
  obtain ⟨hready, hmagic, hmajor, hfeatures⟩ := hs
  apply gets_clock
  refine gets_jump rfl (gets_load ?_)
  rw [hready, if_neg (by decide), if_neg (by decide), if_pos rfl]
  apply gets_load
  rw [hfeatures, if_neg (by decide)]
  apply gets_load
  apply gets_load
  rw [hmagic, hmajor, if_pos (by decide), if_neg (by simp)]
  exact h _

theorem Left.takes (hleft : Left mem) (hrole : ep.role ≠ .opener) (hclk : Ticking clk gap)
    (hstale : ∀ i n, (mem (.heartbeat i)).toInt + effectivePeerTimeout ep (mem (.interval i)) ≤ clk n) :
    Takes ep clk mem (clk 0 + 4000000000 + 25 * gap) 0 (claimSuperblock ep) := by
  refine gets_claimSuperblock hleft.settled fun loc => ?_
  have h6 : clk 6 ≤ clk 0 + 6 * gap := hclk.within 0 6
  refine takes_aliveAtOpen hclk .primary false (fun _ _ _ => rfl) (hleft.records .primary)
    (hstale .primary) fun n1 _ hn1 => ?_
  refine takes_aliveAtOpen hclk .secondary false (fun _ _ _ => rfl) (hleft.records .secondary)
    (hstale .secondary) fun n2 _ hn2 => ?_
  have hnext := (hclk.next n2).2
  exact takes_claimJudged hrole hleft.settled.1 (by omega)

end Alone

/-! ## Everybody has left -/

section Left

variable {Eid : Type} [DecidableEq Eid] {ep : Eid → Endpoint} {s : Tracked Eid Records} {t0 : Nat}

/-- The owner of every record has died. An owner that has closed has no token in it any more. -/
def NobodyAlive (ep : Eid → Endpoint) (s : Tracked Eid Records) : Prop :=
  ∀ e i, s.mem (.token i) = (ep e).token → s.dead e = true

omit [DecidableEq Eid] in
theorem RecordInv.left (hi : RecordInv ep s) (hready : s.mem .state = stateReady)
    (hgone : NobodyAlive ep s) : Left s.mem where
  settled := ⟨hready, hi.ready hready .magic rfl, hi.ready hready .major rfl, hi.features⟩
  records i howner := by
    cases i with
    | primary => exact ⟨hi.ready hready (.interval .primary) rfl, hi.ready hready (.heartbeat .primary) rfl⟩
    | secondary =>
      refine (hi.secondary howner).resolve_right ?_
      rintro ⟨e, htok, halive, -⟩
      rw [hgone e .secondary htok] at halive
      cases halive

/-- A segment that everybody has left is taken by every creator that comes late enough, after it
has watched each record for two seconds at most. -/
theorem dead_segment_taken (hep : Beating ep) (ht0 : 0 < t0 ∧ t0 < 2 ^ 63)
    (h : (recorded ep t0).Reach InOrder s) (hready : s.mem .state = stateReady)
    (hgone : NobodyAlive ep s) (cr : Endpoint) (hrole : cr.role ≠ .opener) :
    ∃ t, ∀ clk gap, t ≤ clk 0 → Ticking clk gap →
      Takes cr clk s.mem (clk 0 + 4000000000 + 25 * gap) 0 (claimSuperblock cr) := by
  have hleft := (recordInv_of_reach hep ht0 h).left hready hgone
  let due (i : Slot) : Int :=
    (s.mem (.heartbeat i)).toInt + effectivePeerTimeout cr (s.mem (.interval i))
  refine ⟨max (due .primary).toNat (due .secondary).toNat, fun clk gap ht hclk => ?_⟩
  refine hleft.takes hrole hclk fun i n => ?_
  have hn := hclk.mono (Nat.zero_le n)
  change due i ≤ clk n
  cases i <;> omega

end Left

/-! ## A joiner that dies early -/

instance {Eid : Type} [DecidableEq Eid] (s : Tracked Eid Records) : ∀ a, Decidable (InOrder s a)
  | .kill _ => inferInstanceAs (Decidable (_ = _))
  | .next _ => inferInstanceAs (Decidable (_ → _))
  | .close _ | .tick _ => .isTrue trivial

instance {Eid : Type} [Fintype Eid] (ep : Eid → Endpoint) (s : Tracked Eid Records) :
    Decidable (NobodyAlive ep s) :=
  decidable_of_iff (∀ e, (s.mem (.token .primary) = (ep e).token → s.dead e = true) ∧
      (s.mem (.token .secondary) = (ep e).token → s.dead e = true))
    ⟨fun h e i => by cases i; exacts [(h e).1, (h e).2], fun h e => ⟨h e .primary, h e .secondary⟩⟩

def couple : Party → Endpoint
  | .first => creator 100
  | .second => { creator 101 with role := .opener }
  | .third => creator 102

theorem couple_beating : Beating couple := by
  refine ⟨⟨?_, ?_⟩, ?_⟩ <;> decide

def bothDie : List (Act Party) := turns 82 .first ++ turns 22 .second ++ [.kill .second, .kill .first]

theorem dead_segment_taken_couple :
    ∃ s, (recorded couple 1).Reach InOrder s ∧ s.mem .state = stateReady ∧
      NobodyAlive couple s ∧ ∃ t, ∀ clk gap, t ≤ clk 0 → Ticking clk gap →
        Takes (couple .third) clk s.mem (clk 0 + 4000000000 + 25 * gap) 0
          (claimSuperblock (couple .third)) := by
  obtain ⟨s, hs, hready, hgone⟩ : ∃ s, (recorded couple 1).Reach InOrder s ∧
      s.mem .state = stateReady ∧ NobodyAlive couple s :=
    Machine.exists_reach bothDie (by decide +kernel)
  exact ⟨s, hs, hready, hgone,
    dead_segment_taken couple_beating (by decide) hs hready hgone (couple .third) (by decide)⟩

/-- The joiner dies `n` instructions after its swap, and the creator closes. -/
def diesEarly (n : Nat) : List (Act Party) :=
  turns 82 .first ++ turns (17 + n) .second ++ [.kill .second, .close .first] ++ turns 1 .first

/-- Whenever a creator comes, it gives up with `ErrLinkBusy`. -/
def BusyForever (ep : Endpoint) (mem : Mem) : Prop :=
  ∀ clk, Gets ep clk mem (fun _ r => r = (mem, fail .linkBusy)) 0 (claimSuperblock ep)

def Unfilled (mem : Mem) : Prop :=
  Settled mem ∧ mem (.token .primary) = detachedToken ∧
    isOwnerToken (mem (.token .secondary)) = true ∧ (mem (.interval .secondary) = 0 ∨
      0 < (mem (.interval .secondary)).toInt ∧ mem (.heartbeat .secondary) = 0)

instance (mem : Mem) : Decidable (Unfilled mem) := by
  unfold Unfilled Settled
  infer_instance

theorem Unfilled.busy {mem : Mem} {ep : Endpoint} (h : Unfilled mem) (hrole : ep.role = .creator) :
    BusyForever ep mem := by
  intro clk
  obtain ⟨hsettled, hprimary, hsecondary, hrecord⟩ := h
  refine gets_claimSuperblock hsettled fun loc => gets_load ?_
  rw [hprimary, if_pos (by decide)]
  apply gets_load
  rw [hsecondary, if_neg (by simp)]
  have hbusy : claimJudged ep loc false true = fail .linkBusy := by simp [claimJudged, hrole]
  have hdone : ∀ n, Gets ep clk mem (fun _ r => r = (mem, fail .linkBusy)) n (claimJudged ep loc false true) :=
    fun n => ⟨0, _, rfl, by rw [hbusy]⟩
  apply gets_load
  rcases hrecord with hint | ⟨hint, hbeat⟩
  · rw [hint, if_pos (by decide)]
    exact hdone _
  · rw [if_neg (not_le.mpr hint)]
    apply gets_load
    rw [if_pos hbeat]
    exact hdone _

/-- The joiner dies right after its swap, or after it has stored its interval. -/
theorem early_death_busy_forever :
    (∃ s, (recorded couple 1).Reachable s ∧ NobodyAlive couple s ∧
      s.mem (.interval .secondary) = 0 ∧ BusyForever (couple .third) s.mem) ∧
    ∃ s, (recorded couple 1).Reachable s ∧ NobodyAlive couple s ∧
      s.mem (.heartbeat .secondary) = 0 ∧ BusyForever (couple .third) s.mem := by
  constructor
  · obtain ⟨s, hs, hgone, hint, hunfilled⟩ : ∃ s, (recorded couple 1).Reachable s ∧
        NobodyAlive couple s ∧ s.mem (.interval .secondary) = 0 ∧ Unfilled s.mem :=
      Machine.exists_reachable (diesEarly 0) (by decide +kernel)
    exact ⟨s, hs, hgone, hint, hunfilled.busy rfl⟩
  · obtain ⟨s, hs, hgone, hbeat, hunfilled⟩ : ∃ s, (recorded couple 1).Reachable s ∧
        NobodyAlive couple s ∧ s.mem (.heartbeat .secondary) = 0 ∧ Unfilled s.mem :=
      Machine.exists_reachable (diesEarly 2) (by decide +kernel)
    exact ⟨s, hs, hgone, hbeat, hunfilled.busy rfl⟩

end Hqq.Superblock
