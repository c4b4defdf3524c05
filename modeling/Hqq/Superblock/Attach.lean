import Hqq.Superblock.Crash

/-!
# What an attach may write

`claimSuperblock` on a segment with any content, also in the words of the page that the layout
does not use.
-/

namespace Hqq.Superblock

def fieldAt : Nat → Option Field
  | 0 => some .magic
  | 1 => some .state
  | 2 => some .major
  | 3 => some .minor
  | 4 => some .pageSize
  | 5 => some .bufferCount
  | 6 => some .bufferSize
  | 7 => some .layoutSize
  | 8 => some .epoch
  | 9 => some .initToken
  | 10 => some .initHeartbeat
  | 11 => some .requiredFeatures
  | 12 => some .creatorToken
  | 16 => some (.token .primary)
  | 17 => some (.pid .primary)
  | 18 => some (.heartbeat .primary)
  | 19 => some (.interval .primary)
  | 32 => some (.token .secondary)
  | 33 => some (.pid .secondary)
  | 34 => some (.heartbeat .secondary)
  | 35 => some (.interval .secondary)
  | _ => none

def pageWord (reserved : Nat → Word) (mem : Mem) (n : Nat) : Word :=
  match fieldAt n with
  | some f => mem f
  | none => reserved n

/-- `firstPageZero`, for the words with the given indices. Nobody writes a reserved word, so a
look at it is no access to a shared one. -/
def readPage (reserved : Nat → Word) (k : Bool → Code) : List Nat → Code
  | [] => k true
  | n :: ns =>
    match fieldAt n with
    | some f => .load f fun v => if v ≠ 0 then k false else readPage reserved k ns
    | none => if reserved n ≠ 0 then k false else readPage reserved k ns

def pageIndices (ep : Endpoint) : List Nat := List.range (ep.platform.pagesize / 8)

def attachRound (reserved : Nat → Word) (ep : Endpoint) (loc : Locals) : Code :=
  .load .state fun state =>
  if state = stateEmpty then readPage reserved (claimPage ep { loc with watch := none }) (pageIndices ep)
  else if state = stateInitializing then claimInitializing ep { loc with emptySince := none }
  else if state = stateReady then claimReady ep ⟨loc.deadline, none, none⟩
  else fail .incompatibleLayout

def attachCode (reserved : Nat → Word) (ep : Endpoint) : Label → Option Code
  | .again loc => some (attachRound reserved ep loc)
  | l => code ep l

theorem readPage_zero (k : Bool → Code) (ns : List Nat) :
    readPage (fun _ => 0) k ns = firstPageZero k (ns.filterMap fieldAt) := by
  induction ns with
  | nil => rfl
  | cons n ns ih =>
    cases hf : fieldAt n with
    | some f => simp only [readPage, List.filterMap_cons, firstPageZero, hf, ih]
    | none => simp only [readPage, List.filterMap_cons, hf, ih, ne_eq, not_true_eq_false, if_false]

theorem filterMap_fieldAt (n : Nat) (hn : 36 ≤ n) : (List.range n).filterMap fieldAt = pageFields := by
  obtain ⟨m, rfl⟩ := Nat.exists_eq_add_of_le hn
  rw [List.range_add, List.filterMap_append, List.filterMap_map]
  have hrest : (List.range m).filterMap (fieldAt ∘ (36 + ·)) = [] := by
    refine List.filterMap_eq_nil_iff.mpr fun i _ => ?_
    rw [Function.comp_apply, Nat.add_comm]
    rfl
  rw [hrest]
  rfl

/-- With zeros in the reserved words this is the code of `Spec.lean`, which leaves them out. -/
theorem attachCode_zero (ep : Endpoint) (hpage : superblockSize ≤ ep.platform.pagesize) :
    attachCode (fun _ => 0) ep = code ep := by
  have hround : attachRound (fun _ => 0) ep = claimRound ep := by
    unfold attachRound claimRound claimEmpty pageIndices
    rw [superblockSize] at hpage
    simp only [readPage_zero, filterMap_fieldAt _ (by omega : 36 ≤ ep.platform.pagesize / 8)]
  funext l
  cases l with
  | again loc => exact congrArg (fun round => some (round loc)) hround
  | _ => rfl

/-! ## Foreign content -/

/-- The layout that a segment which is being initialized already names. -/
def ConflictInitializing (mem : Mem) : Prop :=
  mem .requiredFeatures &&& ~~~knownRequiredFeatures ≠ 0 ∨ (mem .magic ≠ 0 ∧ mem .magic ≠ superblockMagic) ∨
    (mem .major ≠ superblockMajor ∧ (mem .major ≠ 0 ∨ mem .initToken ≠ 0))

def ConflictReady (mem : Mem) : Prop :=
  mem .requiredFeatures &&& ~~~knownRequiredFeatures ≠ 0 ∨ mem .magic ≠ superblockMagic ∨
    mem .major ≠ superblockMajor

/-- This is not a segment of the layout, or not of a version that is known. -/
def Foreign (reserved : Nat → Word) (page : Nat) (mem : Mem) : Prop :=
  (mem .state = stateEmpty ∧ ∃ n < page / 8, pageWord reserved mem n ≠ 0) ∨
  (mem .state ≠ stateEmpty ∧ mem .state ≠ stateInitializing ∧ mem .state ≠ stateReady) ∨
  (mem .state = stateInitializing ∧ ConflictInitializing mem) ∨
  (mem .state = stateReady ∧ ConflictReady mem)

/-- `n` instructions, none of which changes a word, and then `ErrIncompatibleLayout`. -/
def Refuses (reserved : Nat → Word) (ep : Endpoint) (mem : Mem) : Nat → Code → Prop
  | 0, p => p = fail .incompatibleLayout
  | n + 1, p => (∀ i, p ≠ .jump (.live i)) ∧
      ∀ now, ∃ q, p.exec (attachCode reserved ep) mem now = some (mem, q) ∧ Refuses reserved ep mem n q

section Foreign

variable {reserved : Nat → Word} {ep : Endpoint} {mem : Mem} {n : Nat} {page : Nat}

theorem refuses_load {f : Field} {k : Word → Code} (h : Refuses reserved ep mem n (k (mem f))) :
    Refuses reserved ep mem (n + 1) (.load f k) := ⟨by simp, fun _ => ⟨_, rfl, h⟩⟩

/-- The same number of instructions, whatever the variables of the loop are. -/
def RefusesAll (reserved : Nat → Word) (ep : Endpoint) (mem : Mem) (p : Locals → Code) : Prop :=
  ∃ n, ∀ loc, Refuses reserved ep mem n (p loc)

theorem refusesAll_fail : RefusesAll reserved ep mem fun _ => fail .incompatibleLayout :=
  ⟨0, fun _ => rfl⟩

theorem refusesAll_load {f : Field} {k : Locals → Word → Code}
    (h : RefusesAll reserved ep mem fun loc => k loc (mem f)) :
    RefusesAll reserved ep mem fun loc => .load f (k loc) := by
  obtain ⟨n, hn⟩ := h
  exact ⟨n + 1, fun loc => refuses_load (hn loc)⟩

theorem refusesAll_pos {p q : Locals → Code} {b : Prop} [Decidable b] (hb : b)
    (h : RefusesAll reserved ep mem p) : RefusesAll reserved ep mem fun loc => if b then p loc else q loc := by
  simpa only [if_pos hb] using h

theorem refusesAll_neg {p q : Locals → Code} {b : Prop} [Decidable b] (hb : ¬ b)
    (h : RefusesAll reserved ep mem q) : RefusesAll reserved ep mem fun loc => if b then p loc else q loc := by
  simpa only [if_neg hb] using h

theorem refusesAll_readPage {k : Locals → Bool → Code}
    (hk : RefusesAll reserved ep mem fun loc => k loc false) (ns : List Nat)
    (hns : ∃ n ∈ ns, pageWord reserved mem n ≠ 0) :
    RefusesAll reserved ep mem fun loc => readPage reserved (k loc) ns := by
  induction ns with
  | nil =>
    obtain ⟨n, hn, -⟩ := hns
    cases hn
  | cons n ns ih =>
    have hrest : pageWord reserved mem n = 0 → RefusesAll reserved ep mem fun loc =>
        readPage reserved (k loc) ns := by
      intro h0
      obtain ⟨n', hn', hne⟩ := hns
      refine ih ⟨n', (List.mem_cons.mp hn').resolve_left ?_, hne⟩
      rintro rfl
      exact hne h0
    unfold readPage
    unfold pageWord at hrest
    cases hf : fieldAt n with
    | some f =>
      rw [hf] at hrest
      apply refusesAll_load
      by_cases h0 : mem f = 0
      · exact refusesAll_neg (by simp [h0]) (hrest h0)
      · exact refusesAll_pos h0 hk
    | none =>
      rw [hf] at hrest
      by_cases h0 : reserved n = 0
      · exact refusesAll_neg (by simp [h0]) (hrest h0)
      · exact refusesAll_pos h0 hk

theorem refusesAll_initializing (h : ConflictInitializing mem) (k : Locals → Code) :
    RefusesAll reserved ep mem fun loc => checkLayoutCompat true (k loc) := by
  apply refusesAll_load
  by_cases hfeatures : mem .requiredFeatures &&& ~~~knownRequiredFeatures ≠ 0
  · exact refusesAll_pos hfeatures refusesAll_fail
  refine refusesAll_neg hfeatures (refusesAll_load (refusesAll_load (refusesAll_neg (by simp) ?_)))
  by_cases hmagic : mem .magic ≠ 0 ∧ mem .magic ≠ superblockMagic
  · exact refusesAll_pos hmagic refusesAll_fail
  obtain ⟨hmajor, hrest⟩ := (h.resolve_left hfeatures).resolve_left hmagic
  refine refusesAll_neg hmagic (refusesAll_neg hmajor ?_)
  by_cases h0 : mem .major ≠ 0
  · exact refusesAll_pos h0 refusesAll_fail
  · refine refusesAll_neg h0 (refusesAll_load ?_)
    exact refusesAll_pos (hrest.resolve_left h0) refusesAll_fail

theorem refusesAll_ready (h : ConflictReady mem) (k : Locals → Code) :
    RefusesAll reserved ep mem fun loc => checkLayoutCompat false (k loc) := by
  apply refusesAll_load
  by_cases hfeatures : mem .requiredFeatures &&& ~~~knownRequiredFeatures ≠ 0
  · exact refusesAll_pos hfeatures refusesAll_fail
  refine refusesAll_neg hfeatures (refusesAll_load (refusesAll_load (refusesAll_pos (by simp) ?_)))
  exact refusesAll_pos (h.resolve_left hfeatures) refusesAll_fail

theorem Foreign.attachRound (h : Foreign reserved page mem) (hpage : ep.platform.pagesize = page) :
    RefusesAll reserved ep mem (attachRound reserved ep) := by
  apply refusesAll_load
  rcases h with ⟨hstate, n, hn, hword⟩ | ⟨hne0, hne1, hne2⟩ | ⟨hstate, hconflict⟩ | ⟨hstate, hconflict⟩
  · refine refusesAll_pos hstate (refusesAll_readPage ?_ _ ⟨n, List.mem_range.mpr (hpage ▸ hn), hword⟩)
    exact refusesAll_load (refusesAll_neg (by simp [hstate]) refusesAll_fail)
  · exact refusesAll_neg hne0 (refusesAll_neg hne1 (refusesAll_neg hne2 refusesAll_fail))
  · refine refusesAll_neg (by rw [hstate]; decide) (refusesAll_pos hstate ?_)
    exact refusesAll_load (refusesAll_load (refusesAll_initializing hconflict _))
  · refine refusesAll_neg (by rw [hstate]; decide) (refusesAll_neg (by rw [hstate]; decide) ?_)
    exact refusesAll_pos hstate (refusesAll_ready hconflict _)

theorem Foreign.refuses (h : Foreign reserved page mem) (hpage : ep.platform.pagesize = page) :
    ∃ n, Refuses reserved ep mem n (claimSuperblock ep) := by
  obtain ⟨n, hn⟩ := h.attachRound hpage
  exact ⟨n + 2, by simp [claimSuperblock], fun now => ⟨_, rfl, by simp [again], fun _ => ⟨_, rfl, hn _⟩⟩⟩

end Foreign

/-! ## What an endpoint may write -/

structure Seen where
  past : Bool
  joined : Bool
  wrote : Field → Bool

def Field.secondary : Field → Bool
  | .token i | .pid i | .heartbeat i | .interval i => i = .secondary
  | _ => false

def Supported (w : Word) : Field → Prop
  | .magic => w = superblockMagic
  | .major => w = superblockMajor
  | .requiredFeatures => w = 0
  | _ => True

namespace Seen

variable (ep : Endpoint) (v : Seen)

def load (f : Field) (w : Word) : Seen :=
  if f = .state ∧ w ≠ stateEmpty then { v with past := true } else v

def store (f : Field) : Seen := { v with wrote := Function.update v.wrote f true }

def swap (f : Field) : Seen :=
  { v with past := v.past || f = .state, joined := v.joined || f = .token .secondary }

structure MayStore (f : Field) (w : Word) : Prop where
  past : v.past = true
  supported : Supported w f
  ready : f = .state → w = stateReady ∧ v.wrote .magic = true ∧ v.wrote .major = true
  token : f ≠ .initToken
  opener : ep.role = .opener → v.joined = true ∧ f.secondary = true

def MaySwap (old new : Word) : Field → Prop
  | .state => ep.role ≠ .opener ∧ new = stateInitializing
  | .initToken => ep.role ≠ .opener ∧ v.past = true ∧ (new = 0 ∨ v.wrote .major = true)
  | .token .primary => ep.role ≠ .opener ∧ v.past = true
  | .token .secondary => v.past = true ∧
      (ep.role = .opener → v.joined = true ∨ old = 0 ∧ new = ep.token)
  | _ => False

def MayJump : Label → Prop
  | .live i => v.past = true ∧ (ep.role = .opener → v.joined = true ∧ i = .secondary)
  | .watch .. => v.past = true
  | _ => True

end Seen

def seenRules (ep : Endpoint) : Discipline Field Word Label Seen where
  load := Seen.load
  store v f _ := v.store f
  swap v f _ := v.swap f
  look v _ := v
  mayLoad _ _ _ := True
  mayLook _ _ := True
  mayLose _ _ := True
  mayStore := Seen.MayStore ep
  maySwap v f old new := Seen.MaySwap ep v old new f
  mayAdd v f _ := f = .epoch ∧ v.past = true ∧ ep.role ≠ .opener
  mayJump := Seen.MayJump ep

abbrev Sees (ep : Endpoint) (v : Seen) (p : Code) : Prop := (seenRules ep).Follows v p

section Programs

variable {ep : Endpoint} {v : Seen} {loc : Locals} {k : Code} {f : Field} {w : Word}

theorem Seen.past_swap (hv : v.past = true) : (v.swap f).past = true := by
  simp [swap, hv]

theorem Seen.blind : Blind (seenRules ep) v :=
  ⟨fun _ _ hf => if_neg fun hs => hf hs.1, fun _ => rfl, fun _ => trivial, fun _ => trivial⟩

/-! What an initializer does. It is no opener, and it has claimed the segment. -/

def Seen.Wrote (fs : List Field) (v : Seen) : Prop := v.past = true ∧ ∀ f ∈ fs, v.wrote f = true

theorem Seen.Wrote.store {fs : List Field} (h : v.Wrote fs) : (v.store f).Wrote (f :: fs) := by
  refine ⟨h.1, fun g hg => ?_⟩
  by_cases hfg : g = f
  · simp [Seen.store, hfg]
  · simpa [Seen.store, hfg] using h.2 g ((List.mem_cons.mp hg).resolve_left hfg)

theorem Seen.initializes (hrole : ep.role ≠ .opener) : Initializes (seenRules ep) ep Seen.Wrote where
  load {fs v} w hv := by
    have hload : (seenRules ep).load v .initToken w = v := Seen.blind.load _ _ (by simp)
    rwa [hload]
  store {fs v f} hv hf := by
    refine ⟨⟨hv.1, ?_, ?_, ?_, fun ho => absurd ho hrole⟩, hv.store⟩
    · cases f <;> first | rfl | trivial
    all_goals
      rintro rfl
      cases hf
  beat hv _ hf := by
    refine ⟨⟨hv.1, ?_, ?_, ?_, fun ho => absurd ho hrole⟩, hv.store⟩
    all_goals obtain rfl | rfl := hf <;> simp [Supported]
  forget hv := ⟨hv.1, fun f hf => hv.2 f (.tail _ hf)⟩
  fails _ := trivial
  commit {fs v} hv := by
    have hwrote : v.wrote .magic = true ∧ v.wrote .major = true :=
      ⟨hv.2 _ (by simp [initFields]), hv.2 _ (by simp [initFields])⟩
    have hswap := Seen.past_swap (f := .initToken) hv.1
    refine ⟨⟨hrole, hv.1, .inl rfl⟩, ⟨⟨rfl, hswap, hrole⟩, fun _ => ⟨?_, ?_⟩⟩, fun _ => trivial⟩
    · exact ⟨hswap, trivial, fun _ => ⟨rfl, hwrote⟩, by simp, fun ho => absurd ho hrole⟩
    · exact ⟨hswap, fun ho => absurd ho hrole⟩

theorem sees_beginInit (hrole : ep.role ≠ .opener) (hv : v.past = true) (expected : Word)
    {lost : Code} (h : ∀ v', Sees ep v' lost) :
    Sees ep v (beginInit ep expected fun
      | true => initSegment ep
      | false => lost) :=
  (Seen.initializes hrole).follows_beginInit (l := []) ⟨hv, nofun⟩ fun v' hv' =>
    ⟨⟨hrole, hv'.1, .inr (hv'.2 _ (by simp))⟩, ⟨Seen.past_swap hv'.1, nofun⟩, h v'⟩

theorem sees_claimed (hrole : ep.role ≠ .opener) (hv : v.past = true) : Sees ep v (claimed ep) :=
  Seen.blind.follows_load fun expected => sees_beginInit hrole hv expected fun _ => trivial

/-! The loop. -/

theorem sees_readPage {reserved : Nat → Word} {k : Bool → Code} (h : ∀ v b, Sees ep v (k b))
    (ns : List Nat) (v : Seen) : Sees ep v (readPage reserved k ns) := by
  induction ns generalizing v with
  | nil => exact h v true
  | cons n ns ih =>
    unfold readPage
    split
    · intro w _
      dsimp only
      split
      · exact h _ false
      · exact ih _
    · split
      · exact h v false
      · exact ih v

theorem sees_claimPage (b : Bool) : Sees ep v (claimPage ep loc b) :=
  Seen.blind.follows_claimPage (fun _ => Seen.blind)
    (fun hrole => ⟨⟨hrole, rfl⟩, sees_claimed hrole (by simp [seenRules, Seen.swap])⟩) b

theorem sees_storeSecondary (hv : v.past = true) (hjoined : v.joined = true)
    (hf : f.secondary = true) (h : Sees ep (v.store f) k) : Sees ep v (.store f w k) := by
  have hne : f ≠ .state ∧ f ≠ .initToken ∧ Supported w f := by
    cases f <;> simp_all [Field.secondary, Supported]
  exact ⟨⟨hv, hne.2.2, fun hs => absurd hs hne.1, hne.2.1, fun _ => ⟨hjoined, hf⟩⟩, h⟩

theorem sees_claimJudged (hv : v.past = true) (primaryAlive secondaryAlive : Bool) :
    Sees ep v (claimJudged ep loc primaryAlive secondaryAlive) := by
  have hswap : (v.swap (.token .secondary)).past = true := Seen.past_swap hv
  have hjoined : (v.swap (.token .secondary)).joined = true := by simp [Seen.swap]
  refine Seen.blind.follows_claimJudged (fun hrole => ⟨⟨hrole, rfl⟩, ?_, fun _ => trivial⟩)
    ⟨⟨hv, fun _ => .inr ⟨rfl, rfl⟩⟩, ?_, fun _ => trivial⟩
  · exact sees_claimed hrole (by simp [seenRules, Seen.swap])
  refine sees_storeSecondary hswap hjoined rfl (sees_storeSecondary hswap hjoined rfl ?_)
  refine Seen.blind.follows_clock fun _ _ => sees_storeSecondary hswap hjoined rfl ?_
  exact Seen.blind.follows_load fun _ => ⟨hswap, fun _ => ⟨hjoined, rfl⟩⟩

theorem sees_afterVerdict (hv : v.past = true) {i : Slot} {primaryAlive alive : Bool} :
    Sees ep v (afterVerdict ep loc i primaryAlive alive) :=
  Seen.blind.follows_afterVerdict (fun _ _ _ _ _ => hv) (sees_claimJudged hv)

theorem sees_attachRound (reserved : Nat → Word) (loc : Locals) :
    Sees ep v (attachRound reserved ep loc) := by
  intro state _
  dsimp only
  split
  · exact sees_readPage (fun _ _ => sees_claimPage _) _ _
  next hne =>
  have hv : ((seenRules ep).load v .state state).past = true := by
    simp [seenRules, Seen.load, hne]
  split
  · exact Seen.blind.follows_claimInitializing fun _ _ hrole =>
      sees_beginInit hrole hv _ fun _ => Seen.blind.follows_wait _ _
  split
  · refine Seen.blind.follows_checkLayoutCompat false ?_
    exact Seen.blind.follows_aliveAtOpen (fun _ _ _ => hv) fun _ => sees_afterVerdict hv
  · trivial

theorem sees_code {reserved : Nat → Word} {l : Label} {p : Code} (hv : v.MayJump ep l)
    (hp : attachCode reserved ep l = some p) : Sees ep v p := by
  cases l with
  | again loc =>
    cases hp
    exact sees_attachRound reserved loc
  | watch loc i primaryAlive tok hb stop =>
    cases hp
    exact Seen.blind.follows_watchRound hv fun _ => sees_afterVerdict hv
  | live i =>
    simp only [attachCode, code, Option.ite_none_left_eq_some, Option.some.injEq] at hp
    obtain ⟨-, rfl⟩ := hp
    refine Seen.blind.follows_load fun t => ?_
    split
    · refine Seen.blind.follows_clock fun now _ => ⟨⟨hv.1, trivial, by simp, by simp, fun ho => ?_⟩, hv⟩
      obtain ⟨hjoined, rfl⟩ := hv.2 ho
      exact ⟨hjoined, rfl⟩
    · exact hv
  | failed err => cases hp
  | closed => cases hp

theorem sees_close {i : Slot} (hv : v.MayJump ep (.live i)) : Sees ep v (close ep i) := by
  refine ⟨?_, trivial, fun _ => trivial⟩
  cases i with
  | primary => exact ⟨fun ho => absurd (hv.2 ho).2 (by simp), hv.1⟩
  | secondary => exact ⟨hv.1, fun ho => .inl (hv.2 ho).1⟩

end Programs

/-! ## Content of this layout -/

structure Compatible (reserved : Nat → Word) (page : Nat) (mem : Mem) : Prop where
  state : mem .state = stateEmpty ∨ mem .state = stateInitializing ∨ mem .state = stateReady
  zero : mem .state = stateEmpty → ∀ n < page / 8, pageWord reserved mem n = 0
  features : mem .requiredFeatures = 0
  magic : mem .magic = 0 ∨ mem .magic = superblockMagic
  major : mem .major = superblockMajor ∨ mem .major = 0 ∧ mem .initToken = 0
  ready : mem .state = stateReady → mem .magic = superblockMagic ∧ mem .major = superblockMajor

section Content

variable {reserved : Nat → Word} {page : Nat} {mem mem' : Mem} {f : Field} {w : Word}

theorem Compatible.not_foreign (h : Compatible reserved page mem) : ¬ Foreign reserved page mem := by
  have hfeatures : ¬ mem .requiredFeatures &&& ~~~knownRequiredFeatures ≠ 0 := by
    simp [h.features]
  rintro (⟨hstate, n, hn, hword⟩ | ⟨h0, h1, h2⟩ | ⟨-, hc | ⟨h0, hne⟩ | ⟨hne, hold⟩⟩ | ⟨hstate, hc | hne⟩)
  · exact hword (h.zero hstate n hn)
  · exact h.state.elim h0 fun hs => hs.elim h1 h2
  · exact hfeatures hc
  · exact h.magic.elim h0 hne
  · obtain ⟨hmajor, htoken⟩ := h.major.resolve_left hne
    exact hold.elim (fun h' => h' hmajor) fun h' => h' htoken
  · exact hfeatures hc
  · exact hne.elim (fun h' => h' (h.ready hstate).1) fun h' => h' (h.ready hstate).2

theorem and_not_known (w : Word) : w &&& ~~~knownRequiredFeatures = w := by
  have hall : ~~~knownRequiredFeatures = BitVec.allOnes 64 := by decide
  rw [hall, BitVec.and_allOnes]

theorem compatible_of_not_foreign (hpage : superblockSize ≤ page)
    (h : ¬ Foreign reserved page mem) : Compatible reserved page mem := by
  have hcount : 48 ≤ page / 8 := by
    unfold superblockSize at hpage
    omega
  simp only [Foreign, ConflictInitializing, ConflictReady, and_not_known, not_or, not_and, not_exists,
    not_not] at h
  obtain ⟨hempty, hknown, hinit, hready⟩ := h
  by_cases h0 : mem .state = stateEmpty
  · have hzero := hempty h0
    exact ⟨.inl h0, fun _ => hzero, hzero 11 (by omega), .inl (hzero 0 (by omega)),
      .inr ⟨hzero 2 (by omega), hzero 9 (by omega)⟩, fun hr => absurd (h0.symm.trans hr) (by decide)⟩
  by_cases h1 : mem .state = stateInitializing
  · obtain ⟨hfeatures, hmagic, hmajor⟩ := hinit h1
    refine ⟨.inr (.inl h1), fun h0' => absurd h0' h0, hfeatures, ?_, ?_,
      fun hr => absurd (h1.symm.trans hr) (by decide)⟩
    · exact or_iff_not_imp_left.mpr hmagic
    · exact or_iff_not_imp_left.mpr hmajor
  · have h2 := hknown h0 h1
    obtain ⟨hfeatures, hmagic, hmajor⟩ := hready h2
    exact ⟨.inr (.inr h2), fun h0' => absurd h0' h0, hfeatures, .inr hmagic, .inl hmajor,
      fun _ => ⟨hmagic, hmajor⟩⟩

theorem Compatible.update (h : Compatible reserved page mem) (hw : Supported w f)
    (hpast : f ≠ .state → mem .state ≠ stateEmpty)
    (hstate : f = .state → w = stateInitializing ∨
      w = stateReady ∧ mem .magic = superblockMagic ∧ mem .major = superblockMajor)
    (htoken : f = .initToken → w = 0 ∨ mem .major = superblockMajor) :
    Compatible reserved page (Function.update mem f w) := by
  by_cases hf : f = .state
  · subst hf
    obtain ⟨hne, hknown, hready⟩ : w ≠ stateEmpty ∧ (w = stateInitializing ∨ w = stateReady) ∧
        (w = stateReady → mem .magic = superblockMagic ∧ mem .major = superblockMajor) := by
      rcases hstate rfl with rfl | ⟨rfl, hnames⟩
      · exact ⟨by decide, .inl rfl, fun h' => absurd h' (by decide)⟩
      · exact ⟨by decide, .inr rfl, fun _ => hnames⟩
    refine ⟨?_, ?_, ?_, ?_, ?_, ?_⟩ <;>
      simp only [Function.update_self, ne_eq, reduceCtorEq, not_false_eq_true, Function.update_of_ne]
    · exact .inr hknown
    · exact fun h0 => absurd h0 hne
    · exact h.features
    · exact h.magic
    · exact h.major
    · exact hready
  · have hkeep : Function.update mem f w .state = mem .state := Function.update_of_ne (Ne.symm hf) _ _
    refine ⟨hkeep ▸ h.state, fun h0 => absurd (hkeep ▸ h0) (hpast hf), ?_, ?_, ?_, ?_⟩
    all_goals simp only [Function.update_apply, Ne.symm hf, if_false]
    · split
      · next hg => subst hg; exact hw
      · exact h.features
    · split
      · next hg => subst hg; exact .inr hw
      · exact h.magic
    · split
      · next hg => subst hg; exact .inl hw
      next hg =>
      split
      · next ht =>
        subst ht
        rcases htoken rfl with rfl | hmajor
        · exact h.major.imp_right fun h' => ⟨h'.1, rfl⟩
        · exact .inl hmajor
      · exact h.major
    · intro hready
      refine ⟨?_, ?_⟩
      · split
        · next hg => subst hg; exact hw
        · exact (h.ready hready).1
      · split
        · next hg => subst hg; exact hw
        · exact (h.ready hready).2

end Content

section Runs

variable {Eid : Type} [DecidableEq Eid] {reserved : Nat → Word} {ep : Eid → Endpoint} {mem0 : Mem}
  {s s' : Tracked Eid Seen} {t0 page : Nat} {e : Eid}

omit [DecidableEq Eid] in
theorem kept_seenRules : Kept seenRules (attachCode reserved) ep t0 ⟨false, false, fun _ => false⟩ where
  start _ := fun _ _ => trivial
  code _ _ _ _ hl hq := sees_code hl hq
  close _ _ _ hl := sees_close hl
  load _ _ _ _ := trivial
  lose _ _ _ := trivial
  look _ _ _ _ _ := trivial

def attaching (reserved : Nat → Word) (ep : Eid → Endpoint) (mem0 : Mem) (t0 : Nat) :
    Machine (Tracked Eid Seen) (Act Eid) :=
  tracked seenRules (attachCode reserved) ep mem0 t0 ⟨false, false, fun _ => false⟩

structure AttachInv (reserved : Nat → Word) (page : Nat) (s : Tracked Eid Seen) : Prop where
  compatible : Compatible reserved page s.mem
  past : ∀ e, (s.view e).past = true → s.mem .state ≠ stateEmpty
  wrote : ∀ e f, (s.view e).wrote f = true → Supported (s.mem f) f

theorem supported_update {mem : Mem} {f g : Field} {w : Word} (hw : Supported w f)
    (hg : g ≠ f → Supported (mem g) g) : Supported (Function.update mem f w g) g := by
  by_cases hgf : g = f
  · subst hgf
    rwa [Function.update_self]
  · rw [Function.update_of_ne hgf]
    exact hg hgf

theorem AttachInv.of_write (hi : AttachInv reserved page s) {f : Field} {w : Word} {v : Seen}
    (hmem : s'.mem = Function.update s.mem f w) (hview : s'.view = Function.update s.view e v)
    (hw : Supported w f) (hpast : f ≠ .state → s.mem .state ≠ stateEmpty)
    (hstate : f = .state → w = stateInitializing ∨
      w = stateReady ∧ s.mem .magic = superblockMagic ∧ s.mem .major = superblockMajor)
    (htoken : f = .initToken → w = 0 ∨ s.mem .major = superblockMajor)
    (hv : ∀ g, g ≠ f → v.wrote g = true → (s.view e).wrote g = true) : AttachInv reserved page s' := by
  refine ⟨hmem ▸ hi.compatible.update hw hpast hstate htoken, fun e' _ => ?_, fun e' g hg => ?_⟩
  · rw [hmem, Function.update_apply]
    split
    · next hf =>
      rcases hstate hf.symm with rfl | ⟨rfl, -⟩ <;> decide
    · next hf => exact hpast (Ne.symm hf)
  · rw [hmem]
    refine supported_update hw fun hgf => ?_
    rw [hview] at hg
    by_cases he : e' = e
    · subst he
      rw [Function.update_self] at hg
      exact hi.wrote e' g (hv g hgf hg)
    · rw [Function.update_of_ne he] at hg
      exact hi.wrote e' g hg

theorem AttachInv.of_look (hi : AttachInv reserved page s) {v : Seen} (hmem : s'.mem = s.mem)
    (hview : s'.view = Function.update s.view e v)
    (hpast : v.past = true → s.mem .state ≠ stateEmpty)
    (hv : v.wrote = (s.view e).wrote) : AttachInv reserved page s' := by
  refine ⟨hmem ▸ hi.compatible, fun e' he' => ?_, fun e' g hg => ?_⟩
  · rw [hmem]
    rw [hview] at he'
    by_cases he : e' = e
    · subst he
      rw [Function.update_self] at he'
      exact hpast he'
    · rw [Function.update_of_ne he] at he'
      exact hi.past e' he'
  · rw [hmem]
    rw [hview] at hg
    by_cases he : e' = e
    · subst he
      rw [Function.update_self, hv] at hg
      exact hi.wrote e' g hg
    · rw [Function.update_of_ne he] at hg
      exact hi.wrote e' g hg

theorem AttachInv.of_effect (hi : AttachInv reserved page s)
    (he : s.Effect (seenRules (ep e)) e s') : AttachInv reserved page s' := by
  cases he with
  | none hmem hread =>
    rcases hread with hview | ⟨f, hview⟩ | hview
    · exact hi.of_look hmem hview (hi.past e) rfl
    · refine hi.of_look hmem hview ?_ ?_ <;> unfold seenRules Seen.load <;> dsimp only <;> split
      · next hf => exact fun _ => hf.1 ▸ hf.2
      · exact hi.past e
      · rfl
      · rfl
    · exact hi.of_look hmem hview (hi.past e) rfl
  | store f w may hmem hview =>
    refine hi.of_write hmem hview may.supported (fun _ => hi.past e may.past) (fun hf => ?_)
      (fun hf => absurd hf may.token) fun g hgf hg => ?_
    · obtain ⟨hw, hmagic, hmajor⟩ := may.ready hf
      exact .inr ⟨hw, hi.wrote e _ hmagic, hi.wrote e _ hmajor⟩
    · simpa [seenRules, Seen.store, hgf] using hg
  | swap f old new may found hmem hview =>
    change Seen.MaySwap (ep e) (s.view e) old new f at may
    unfold Seen.MaySwap at may
    split at may
    · exact hi.of_write hmem hview trivial (by simp) (fun _ => .inl may.2) (by simp) fun _ _ hg => hg
    · exact hi.of_write hmem hview trivial (fun _ => hi.past e may.2.1) (by simp)
        (fun _ => may.2.2.imp_right (hi.wrote e _)) fun _ _ hg => hg
    · exact hi.of_write hmem hview trivial (fun _ => hi.past e may.2) (by simp) (by simp) fun _ _ hg => hg
    · exact hi.of_write hmem hview trivial (fun _ => hi.past e may.1) (by simp) (by simp) fun _ _ hg => hg
    · exact may.elim
  | add f w may hmem hview =>
    obtain ⟨rfl, hpast, -⟩ := may
    exact hi.of_write hmem hview trivial (fun _ => hi.past e hpast) (by simp) (by simp) fun _ _ hg => hg

theorem AttachInv.of_step (hi : AttachInv reserved page s) (hs : Follow seenRules ep t0 s) {a : Act Eid}
    (h : (attaching reserved ep mem0 t0).step s a = some s') : AttachInv reserved page s' := by
  rcases Threads.step_cases h with ⟨e, rfl, hn⟩ | hidle
  · exact hi.of_effect (hn.effect (hs.prog e))
  · exact ⟨hidle.mem ▸ hi.compatible, fun e he => hidle.mem ▸ hi.past e (hidle.view ▸ he),
      fun e f hf => hidle.mem ▸ hi.wrote e f (hidle.view ▸ hf)⟩

theorem attachInv_of_reachable (hpage : superblockSize ≤ page) (ht0 : t0 < 2 ^ 63)
    (hmem0 : ¬ Foreign reserved page mem0) (h : (attaching reserved ep mem0 t0).Reachable s) :
    AttachInv reserved page s := by
  refine h.invariant ?_ fun s a s' hreach hi _ hstep => ?_
  · exact ⟨compatible_of_not_foreign hpage hmem0, fun _ hv => (Bool.false_ne_true hv).elim,
      fun _ _ hv => (Bool.false_ne_true hv).elim⟩
  · exact hi.of_step (follow_of_reach kept_seenRules ht0 hreach) hstep

theorem effect_opener (he : s.Effect (seenRules (ep e)) e s') (hrole : (ep e).role = .opener)
    {f : Field} (hf : s'.mem f ≠ s.mem f) : f.secondary = true ∧ (s'.view e).joined = true := by
  have hwritten : ∀ {g : Field} {w : Word}, s'.mem = Function.update s.mem g w → f = g := by
    intro g w hmem
    by_contra hfg
    exact hf (by rw [hmem, Function.update_of_ne hfg])
  cases he with
  | none hmem => exact absurd (congrFun hmem f) hf
  | store g w may hmem hview =>
    obtain rfl := hwritten hmem
    rw [hview, Function.update_self]
    exact (may.opener hrole).symm
  | swap g old new may found hmem hview =>
    obtain rfl := hwritten hmem
    rw [hview, Function.update_self]
    change Seen.MaySwap (ep e) (s.view e) old new f at may
    unfold Seen.MaySwap at may
    split at may
    · exact absurd hrole may.1
    · exact absurd hrole may.1
    · exact absurd hrole may.1
    · exact ⟨rfl, by simp [seenRules, Seen.swap]⟩
    · exact may.elim
  | add g w may hmem => exact absurd hrole may.2.2

/-- Everybody is on the way to `ErrIncompatibleLayout`, on a segment that nobody has changed. -/
structure Untouched (reserved : Nat → Word) (ep : Eid → Endpoint) (mem0 : Mem) (s : Tracked Eid Seen) :
    Prop where
  mem : s.mem = mem0
  refuses : ∀ e, ∃ n, Refuses reserved (ep e) mem0 n (s.prog e)

theorem Untouched.of_step (hi : Untouched reserved ep mem0 s) {a : Act Eid}
    (h : (attaching reserved ep mem0 t0).step s a = some s') : Untouched reserved ep mem0 s' := by
  rcases Threads.step_cases h with ⟨e, rfl, hn⟩ | hidle
  · obtain ⟨mem, p, hexec, hmem, hprog⟩ := hn.exec
    obtain ⟨n, hrefuses⟩ := hi.refuses e
    cases n with
    | zero =>
      rw [show s.prog e = fail .incompatibleLayout from hrefuses] at hexec
      cases hexec
    | succ n =>
      obtain ⟨q, hq, hnext⟩ := hrefuses.2 s.clock
      rw [hi.mem, hq] at hexec
      cases hexec
      refine ⟨hmem, fun e' => ?_⟩
      rw [hprog]
      by_cases he : e' = e
      · subst he
        exact ⟨n, by rwa [Function.update_self]⟩
      · rw [Function.update_of_ne he]
        exact hi.refuses e'
  · refine ⟨hidle.mem.trans hi.mem, fun e' => ?_⟩
    rcases hidle.prog with hprog | ⟨e, l, p, hjump, hleave, -⟩
    · rw [hprog]
      exact hi.refuses e'
    · obtain ⟨n, hrefuses⟩ := hi.refuses e
      cases l <;> cases hleave
      cases n with
      | zero =>
        rw [show s.prog e = fail .incompatibleLayout from hrefuses] at hjump
        cases hjump
      | succ n => exact absurd hjump (hrefuses.1 _)

theorem untouched_of_reachable (hpage : ∀ e, (ep e).platform.pagesize = page)
    (hmem0 : Foreign reserved page mem0) (h : (attaching reserved ep mem0 t0).Reachable s) :
    Untouched reserved ep mem0 s :=
  h.invariant ⟨rfl, fun e => hmem0.refuses (hpage e)⟩ fun _ _ _ _ hi _ hstep => hi.of_step hstep

/-- Whatever the segment holds at first, nobody changes one that is foreign, and everybody who
opens it gets `ErrIncompatibleLayout`. -/
theorem attach_spares_foreign (hpage : ∀ e, (ep e).platform.pagesize = page)
    (hfits : superblockSize ≤ page) (ht0 : t0 < 2 ^ 63)
    (h : (attaching reserved ep mem0 t0).Reachable s) :
    (∀ a s', (attaching reserved ep mem0 t0).step s a = some s' →
      (∀ f, s'.mem f ≠ s.mem f → ∃ e, a = .next e ∧
        ((ep e).role = .opener → f.secondary = true ∧ (s'.view e).joined = true)) ∧
      (Foreign reserved page s.mem → s'.mem = s.mem)) ∧
    (Foreign reserved page mem0 → s.mem = mem0) ∧
    (Foreign reserved page s.mem → Foreign reserved page mem0 ∧
      ∀ e, ∃ n, Refuses reserved (ep e) s.mem n (s.prog e)) := by
  have hforeign : Foreign reserved page s.mem → Foreign reserved page mem0 := by
    intro hs
    by_contra hmem0
    exact (attachInv_of_reachable hfits ht0 hmem0 h).compatible.not_foreign hs
  refine ⟨fun a s' hstep => ⟨fun f hf => ?_, fun hs => ?_⟩, fun hmem0 => ?_, fun hs => ?_⟩
  · rcases Threads.step_cases hstep with ⟨e, rfl, hn⟩ | hidle
    · have heffect := hn.effect ((follow_of_reach kept_seenRules ht0 h).prog e)
      exact ⟨e, rfl, fun hrole => effect_opener heffect hrole hf⟩
    · exact absurd (congrFun hidle.mem f) hf
  · have hi := untouched_of_reachable hpage (hforeign hs) h
    rw [(hi.of_step hstep).mem, hi.mem]
  · exact (untouched_of_reachable hpage hmem0 h).mem
  · have hi := untouched_of_reachable hpage (hforeign hs) h
    exact ⟨hforeign hs, hi.mem ▸ hi.refuses⟩

end Runs

def strayWord (n : Nat) : Word := if n = 40 then 7 else 0

/-- On an empty page the creator formats the segment and the opener joins it. With a stray word on
the page nobody touches it. -/
theorem attach_spares_foreign_couple :
    (∃ s s', (attaching (fun _ => 0) couple (fun _ => 0) 1).Reachable s ∧
      (attaching (fun _ => 0) couple (fun _ => 0) 1).step s (.next .second) = some s' ∧
      s'.mem (.token .secondary) = (couple .second).token ∧ (s'.view .second).joined = true) ∧
    ∃ s, (attaching strayWord couple (fun _ => 0) 1).Reachable s ∧ Foreign strayWord 4096 s.mem ∧
      ∀ e, ∃ n, Refuses strayWord (couple e) s.mem n (s.prog e) := by
  have hpage : ∀ e, (couple e).platform.pagesize = 4096 := by
    intro e
    cases e <;> rfl
  refine ⟨?_, ?_⟩
  · obtain ⟨s, hs, hnext⟩ : ∃ s, (attaching (fun _ => 0) couple (fun _ => 0) 1).Reachable s ∧
        ((attaching (fun _ => 0) couple (fun _ => 0) 1).step s (.next .second)).any (fun s' =>
          s'.mem (.token .secondary) = (couple .second).token ∧
          s.mem (.token .secondary) = 0) = true :=
      Machine.exists_reachable (turns 82 .first ++ turns 16 .second) (by decide +kernel)
    obtain ⟨s', hs', hprop⟩ := Machine.exists_of_any hnext
    have hsafe := attach_spares_foreign hpage (by decide) (by decide) hs
    obtain ⟨e, he, hopener⟩ := (hsafe.1 _ _ hs').1 (.token .secondary) (by
      rw [hprop.1, hprop.2]
      decide)
    cases he
    exact ⟨s, s', hs, hs', hprop.1, (hopener rfl).2⟩
  · obtain ⟨s, hs, -⟩ : ∃ s, (attaching strayWord couple (fun _ => 0) 1).Reachable s ∧ True :=
      Machine.exists_reachable (turns 20 .first) (by decide +kernel)
    have hforeign : Foreign strayWord 4096 (fun _ => 0) := .inl ⟨rfl, 40, by decide, by decide⟩
    have hsafe := attach_spares_foreign hpage (by decide) (by decide) hs
    have hkept : Foreign strayWord 4096 s.mem := by
      rw [hsafe.2.1 hforeign]
      exact hforeign
    exact ⟨s, hs, hkept, (hsafe.2.2 hkept).2⟩

end Hqq.Superblock
