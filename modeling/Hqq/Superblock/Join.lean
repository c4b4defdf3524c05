import Hqq.Superblock.Reuse

/-!
# Joining a session

A joiner swaps its token into the secondary record if that still is 0. Every initialization puts
the 0 back, so the swap alone does not say which session it hit.
-/

namespace Hqq.Superblock

variable {Eid : Type} [DecidableEq Eid]

def State.joining (s : State Eid) (e : Eid) : Bool :=
  match s.prog e with
  | .cas (.token .secondary) old _ _ => decide (old = 0 ∧ s.mem (.token .secondary) = 0)
  | _ => false

/-- When an endpoint joins, nobody has taken the segment for reuse since it found it
`Ready`. -/
def JoinsInTime (s : State Eid) : Act Eid → Prop
  | .next e => s.joining e = true → s.takesSeen e = s.takes.length
  | _ => True

/-- No endpoint stores a published word after it has lost the initialization. -/
def StoresInTime (ep : Eid → Endpoint) (s : State Eid) : Act Eid → Prop
  | .next e => match s.prog e with
    | .store f _ _ => f.published = true → s.Passes ep e
    | _ => True
  | _ => True

structure InTime (ep : Eid → Endpoint) (s : State Eid) (a : Act Eid) : Prop where
  exclusive : Exclusive s a
  join : JoinsInTime s a
  store : StoresInTime ep s a

/-! ## Where a published word changes -/

variable {ep : Eid → Endpoint} {s s' : State Eid} {e e' : Eid} {f : Field}

/-- What a turn may do to a published word. -/
inductive Publishes (ep : Eid → Endpoint) (s : State Eid) (e : Eid) (f : Field)
    (s' : State Eid) : Prop
  | keep (h : s'.mem f = s.mem f)
  | store (hv : (s.view e).phase = .owner) (hpass : s.Passes ep e)
  | join (hf : f = .token .secondary) (hmatch : (s.view e).Matched (ep e))
      (hseen : s.takesSeen e = s.takes.length) (hfree : s.mem f = 0) (hmem : s'.mem f = (ep e).token)
  | detach (hf : f = .token .secondary) (htok : s.mem f = (ep e).token)
      (hmem : s'.mem f = detachedToken)

theorem Turn.published (ht : Turn ep s e s') (hok : InTime ep s (.next e))
    (hf : f.published = true) : Publishes ep s e f s' := by
  have hstate : f ≠ .state := (Field.ne_of_published hf rfl).symm
  have htok : f ≠ .initToken := (Field.ne_of_published hf rfl).symm
  cases ht with
  | quiet hmem => exact .keep (hmem f (Field.watched_of_published hf))
  | look => exact .keep rfl
  | publish hg hv hp =>
    obtain ⟨k, hp⟩ := hp
    have hpass := hok.store
    simp only [StoresInTime, hp] at hpass
    exact .store hv (hpass hg)
  | join hmatch hfree hp =>
    by_cases hsec : f = .token .secondary
    · subst hsec
      obtain ⟨new, k, hp⟩ := hp
      exact .join rfl hmatch (hok.join (by simp [State.joining, hp, hfree])) hfree (by simp)
    · exact .keep (Function.update_of_ne hsec _ _)
  | @detach i _ hmem =>
    by_cases hi : f = .token i
    · subst hi
      cases i with
      | primary => simp [Field.published] at hf
      | secondary => exact .detach rfl hmem (by simp)
    · exact .keep (Function.update_of_ne hi _ _)
  | settle | claim | reuse => exact .keep (Function.update_of_ne hstate _ _)
  | own | release => exact .keep (Function.update_of_ne htok _ _)

omit [DecidableEq Eid] in
theorem Publishes.keeps (hpub : Publishes ep s e f s') (hnot : ¬ s.Passes ep e)
    (hne : f ≠ .token .secondary) : s'.mem f = s.mem f := by
  cases hpub with
  | keep h => exact h
  | store _ hpass => exact absurd hpass hnot
  | join hf => exact absurd hf hne
  | detach hf => exact absurd hf hne

theorem Turn.dead_eq (ht : Turn ep s e s') : s'.dead = s.dead := by
  cases ht <;> rfl

theorem Turn.view_of_ne (ht : Turn ep s e s') (hne : e' ≠ e) : s'.view e' = s.view e' := by
  cases ht <;> simp [hne]

theorem Turn.passes_of_ne (hep : Distinct ep) (ht : Turn ep s e s') (hne : e' ≠ e)
    (hpass : s'.Passes ep e') : s.Passes ep e' := by
  cases ht with
  | quiet hmem => exact (hmem _ rfl).symm.trans hpass
  | publish hf =>
    have hf' := Field.ne_of_published (g := .initToken) hf rfl
    exact (Function.update_of_ne hf' _ _).symm.trans hpass
  | own => exact absurd (hep.inj _ _ (by simpa [State.Passes] using hpass)) hne.symm
  | release => exact absurd (by simpa [State.Passes] using hpass.symm) (hep.token_ne e')
  | _ => simpa [State.Passes] using hpass

/-! ## What the initializer wrote -/

structure Written (ep : Eid → Endpoint) (s : State Eid) : Prop where
  secondary : ∀ e w, (s.view e).wrote (.token .secondary) = some w → w = 0
  words : ∀ e f w, (s.view e).phase = .owner → s.Passes ep e → f.published = true →
    (s.view e).wrote f = some w → s.mem f = w

omit [DecidableEq Eid] in
theorem SameSession.ready (hs : SameSession s) (hmatch : (s.view e).Matched (ep e))
    (hseen : s.takesSeen e = s.takes.length) : s.mem .state = stateReady :=
  (hs.same e hmatch.ready hseen).1

theorem Written.words_of_ne (hep : Distinct ep) (hi : Inv ep s) (hs : SameSession s)
    (hw : Written ep s) (hok : InTime ep s (.next e)) (ht : Turn ep s e s') (hne : e' ≠ e)
    {w : Word} (hphase : (s'.view e').phase = .owner) (hpass : s'.Passes ep e')
    (hf : f.published = true) (hwrote : (s'.view e').wrote f = some w) : s'.mem f = w := by
  rw [ht.view_of_ne hne] at hphase hwrote
  replace hpass := ht.passes_of_ne hep hne hpass
  have hbefore := hw.words e' f w hphase hpass hf hwrote
  cases ht.published hok hf with
  | keep h => exact h.trans hbefore
  | store hv hpass' => exact absurd (hep.inj _ _ (hpass.symm.trans hpass')) hne
  | join _ hmatch hseen =>
    exact absurd hpass ((hi.not_passes_of_ready hep (hs.ready hmatch hseen)).1 e')
  | detach hsec htok =>
    subst hsec
    obtain rfl := hw.secondary e' w hwrote
    exact absurd (htok.symm.trans hbefore) (hep.token_ne e)

theorem Written.words_of_self (hep : Distinct ep) (hw : Written ep s) (ht : Turn ep s e s') {w : Word}
    (hphase : (s'.view e).phase = .owner) (hpass : s'.Passes ep e)
    (hf : f.published = true) (hwrote : (s'.view e).wrote f = some w) : s'.mem f = w := by
  cases ht with
  | quiet hmem _ hview =>
    simp only [Function.update_self] at hphase hwrote
    have hpass' : s.Passes ep e := (hmem _ rfl).symm.trans hpass
    exact (hmem f (Field.watched_of_published hf)).trans <|
      hw.words e f w (hview.phase.symm.trans hphase) hpass' hf
        ((hview.wrote f hf).symm.trans hwrote)
  | look => exact hw.words e f w (by simpa using hphase) hpass hf (by simpa using hwrote)
  | publish hg hv =>
    have hne := Field.ne_of_published (g := .initToken) hg rfl
    have hpass' : s.Passes ep e := (Function.update_of_ne hne _ _).symm.trans hpass
    simp only [Function.update_self, View.store, Function.update_apply] at hwrote
    simp only [Function.update_apply]
    split at hwrote
    case isTrue h => simpa [h] using hwrote
    case isFalse h => simpa [h] using hw.words e f w hv hpass' hf hwrote
  | own => simp [View.swap_own _ (hep.token_ne e)] at hwrote
  | _ => simp [View.store, View.swap] at hphase

theorem Written.secondary_of_turn (hep : Distinct ep) (hw : Written ep s) (ht : Turn ep s e s')
    {w : Word} (hwrote : (s'.view e').wrote (.token .secondary) = some w) : w = 0 := by
  by_cases he : e' = e
  case neg => exact hw.secondary e' w (ht.view_of_ne he ▸ hwrote)
  subst he
  cases ht with
  | quiet _ _ hview =>
    simp only [Function.update_self] at hwrote
    exact hw.secondary e' w ((hview.wrote _ rfl).symm.trans hwrote)
  | publish hg hv hp hzero =>
    simp only [Function.update_self, View.store, Function.update_apply] at hwrote
    split at hwrote
    case isTrue hsec =>
      cases hwrote
      exact hzero hsec.symm
    · exact hw.secondary e' w hwrote
  | own => simp [View.swap_own _ (hep.token_ne e')] at hwrote
  | _ => exact hw.secondary e' w (by simpa [View.swap, View.store] using hwrote)

theorem Written.of_turn (hep : Distinct ep) (hi : Inv ep s) (hs : SameSession s)
    (hw : Written ep s) (hok : InTime ep s (.next e)) (ht : Turn ep s e s') : Written ep s' := by
  refine ⟨fun e' w hwrote => hw.secondary_of_turn hep ht hwrote, ?_⟩
  intro e' f w hphase hpass hf hwrote
  by_cases he : e' = e
  · subst he
    exact hw.words_of_self hep ht hphase hpass hf hwrote
  · exact hw.words_of_ne hep hi hs hok ht he hphase hpass hf hwrote

/-! ## What a commit publishes -/

def Cleared (ep : Eid → Endpoint) (s : State Eid) : Prop :=
  ∀ e, s.dead e = false → (s.view e).phase = .committing →
    geometryOf s.mem = (ep e).geometry ∧ s.mem (.token .secondary) = 0

omit [DecidableEq Eid] in
theorem geometryOf_eq (hpub : ∀ f, f.published = true → Publishes ep s e f s')
    (hnot : ¬ s.Passes ep e) : geometryOf s'.mem = geometryOf s.mem := by
  have hkeep : ∀ f, f.published = true → f ≠ .token .secondary → s'.mem f = s.mem f :=
    fun f hf hne => (hpub f hf).keeps hnot hne
  simp [geometryOf, hkeep .bufferCount rfl, hkeep .bufferSize rfl, hkeep .layoutSize rfl,
    hkeep .pageSize rfl]

theorem Turn.committing (hep : Distinct ep) (ht : Turn ep s e s')
    (hphase : (s'.view e').phase = .committing) :
    (s.view e').phase = .committing ∨ e' = e ∧ (s.view e).phase = .owner ∧ s.Passes ep e ∧
      (s.view e).Published (ep e) ∧ ∀ f, f.published = true → s'.mem f = s.mem f := by
  by_cases he : e' = e
  case neg => exact .inl (ht.view_of_ne he ▸ hphase)
  subst he
  cases ht with
  | release hv htok hpub =>
    refine .inr ⟨rfl, hv, htok, hpub, fun f hf => Function.update_of_ne ?_ _ _⟩
    exact (Field.ne_of_published hf rfl).symm
  | quiet _ _ hview =>
    simp only [Function.update_self] at hphase
    exact .inl (hview.phase.symm.trans hphase)
  | publish hg hv =>
    simp [View.store_phase (Field.ne_of_published (g := .state) hg rfl).symm, hv] at hphase
  | own => simp [View.swap_own _ (hep.token_ne e')] at hphase
  | look => exact .inl (by simpa using hphase)
  | _ => simp [View.store, View.swap] at hphase

theorem Cleared.of_turn (hep : Distinct ep) (hi : Inv ep s) (hs : SameSession s)
    (hw : Written ep s) (hc : Cleared ep s) (hok : InTime ep s (.next e))
    (ht : Turn ep s e s') : Cleared ep s' := by
  intro e' halive hphase
  rw [ht.dead_eq] at halive
  have hpub : ∀ f, f.published = true → Publishes ep s e f s' := fun f hf => ht.published hok hf
  obtain hcommit | ⟨rfl, hown, hpass, hp, hsame⟩ := ht.committing hep hphase
  · obtain ⟨hstate, htok, -⟩ := hi.owned.window e' ⟨halive, .inr hcommit⟩
    obtain ⟨hgeo, hfree⟩ := hc e' halive hcommit
    have hnot : ¬ s.Passes ep e := fun hpass => hep.token_ne e (hpass.symm.trans htok)
    refine ⟨(geometryOf_eq hpub hnot).trans hgeo, ?_⟩
    cases hpub (.token .secondary) rfl with
    | keep h => exact h.trans hfree
    | store _ hpass => exact absurd hpass hnot
    | join _ hmatch hseen =>
      have := hs.ready hmatch hseen
      simp [hstate, stateInitializing, stateReady] at this
    | detach _ htok => exact absurd (htok.symm.trans hfree) (hep.token_ne e)
  · -- The swap that releases `initToken`: the words are those that the endpoint wrote.
    have hword : ∀ f w, f.published = true → (s.view e').wrote f = some w → s'.mem f = w :=
      fun f w hf h => (hsame f hf).trans (hw.words e' f w hown hpass hf h)
    refine ⟨?_, hword _ _ rfl hp.secondary⟩
    simp only [geometryOf, hword _ _ rfl hp.bufferCount, hword _ _ rfl hp.bufferSize,
      hword _ _ rfl hp.layoutSize, hword _ _ rfl hp.pageSize]

/-! ## What a joiner reads -/

def ReadBack (s : State Eid) : Prop :=
  ∀ e f w, (s.view e).read .state = some stateReady → s.takesSeen e = s.takes.length →
    f.published = true → f ≠ .token .secondary → (s.view e).read f = some w → s.mem f = w

theorem Turn.in_session (hs : SameSession s) (ht : Turn ep s e s')
    (hready : (s'.view e').read .state = some stateReady)
    (hseen : s'.takesSeen e' = s'.takes.length) (hne : f ≠ .state) {w : Word}
    (hread : (s'.view e').read f = some w) :
    (s.view e').read .state = some stateReady ∧ s.takesSeen e' = s.takes.length ∧
      ((s.view e').read f = some w ∨ w = s.mem f) := by
  by_cases he : e' = e
  case neg =>
    rw [ht.view_of_ne he] at hready hread
    refine ⟨hready, ?_, .inl hread⟩
    cases ht with
    | look => simpa [he] using hseen
    | reuse =>
      have := hs.seen_le e'
      simp only [List.length_append, List.length_singleton] at hseen
      omega
    | _ => exact hseen
  subst he
  cases ht with
  | quiet _ _ _ hr =>
    simp only [Function.update_self] at hready hread
    exact ⟨(hr _ _ hready).resolve_right (by simp), hseen, (hr _ _ hread).imp id And.right⟩
  | look => simp [View.load, hne] at hread
  | reuse =>
    have := hs.seen_le e'
    simp only [List.length_append, List.length_singleton] at hseen
    omega
  | _ => exact ⟨by simpa using hready, hseen, .inl (by simpa using hread)⟩

theorem ReadBack.of_turn (hep : Distinct ep) (hi : Inv ep s) (hs : SameSession s)
    (hr : ReadBack s) (hok : InTime ep s (.next e)) (ht : Turn ep s e s') : ReadBack s' := by
  intro e' f w hready hseen hf hne hread
  obtain ⟨hready', hseen', hw⟩ :=
    ht.in_session hs hready hseen (Field.ne_of_published hf rfl).symm hread
  have hnot := (hi.not_passes_of_ready hep (hs.same e' hready' hseen').1).1 e
  rw [(ht.published hok hf).keeps hnot hne]
  obtain hw | rfl := hw
  · exact hr e' f w hready' hseen' hf hne hw
  · rfl

/-! ## Sessions and their joiners -/

/-- The swap hit a `Ready` segment, in the session of a committer with the geometry of the
joiner. -/
structure GoodJoin (ep : Eid → Endpoint) (commits : List Eid) (j : Join Eid) : Prop where
  state : j.state = stateReady
  geometry : j.geometry = (ep j.who).geometry
  session : ∃ e, commits[j.epoch - 1]? = some e ∧ (ep e).geometry = j.geometry
  epoch : 0 < j.epoch ∧ j.epoch ≤ commits.length

structure Sessions (ep : Eid → Endpoint) (s : State Eid) : Prop where
  current : s.mem .state = stateReady →
    ∃ e, s.commits.getLast? = some e ∧ geometryOf s.mem = (ep e).geometry
  free : s.mem .state = stateReady → s.mem (.token .secondary) = 0 →
    ∀ j ∈ s.joins, j.epoch < s.commits.length
  good : ∀ j ∈ s.joins, GoodJoin ep s.commits j
  once : (s.joins.map Join.epoch).Nodup

omit [DecidableEq Eid] in
theorem Sessions.congr (hse : Sessions ep s) (hcommits : s'.commits = s.commits)
    (hjoins : s'.joins = s.joins)
    (hready : s'.mem .state = stateReady → s.mem .state = stateReady)
    (hgeo : s.mem .state = stateReady → geometryOf s'.mem = geometryOf s.mem)
    (hfree : s.mem .state = stateReady → s'.mem (.token .secondary) = 0 →
      s.mem (.token .secondary) = 0) : Sessions ep s' where
  current h := by
    rw [hcommits, hgeo (hready h)]
    exact hse.current (hready h)
  free h h0 := by
    rw [hcommits, hjoins]
    exact hse.free (hready h) (hfree (hready h) h0)
  good := by
    rw [hcommits, hjoins]
    exact hse.good
  once := by
    rw [hjoins]
    exact hse.once

omit [DecidableEq Eid] in
theorem GoodJoin.later {commits : List Eid} {j : Join Eid} (h : GoodJoin ep commits j) (e : Eid) :
    GoodJoin ep (commits ++ [e]) j := by
  obtain ⟨c, hc, hg⟩ := h.session
  refine ⟨h.state, h.geometry, ⟨c, ?_, hg⟩, h.epoch.1, ?_⟩
  · rw [List.getElem?_append_left (by have := h.epoch; omega)]
    exact hc
  · simpa using Nat.le_succ_of_le h.epoch.2

theorem Sessions.of_settle (hse : Sessions ep s) {p : Code} {v : View}
    (hgeo : geometryOf s.mem = (ep e).geometry) :
    Sessions ep { s with mem := Function.update s.mem .state stateReady
                         view := Function.update s.view e v
                         prog := Function.update s.prog e p
                         commits := s.commits ++ [e] } where
  current _ := ⟨e, by simp, by simpa [geometryOf] using hgeo⟩
  free _ _ j hj := by
    have := (hse.good j hj).epoch.2
    simpa using Nat.lt_succ_of_le this
  good j hj := (hse.good j hj).later e
  once := hse.once

theorem Sessions.of_join (hep : Distinct ep) (hse : Sessions ep s) (hr : ReadBack s) {p : Code}
    {v : View} (hmatch : (s.view e).Matched (ep e)) (hseen : s.takesSeen e = s.takes.length)
    (hready : s.mem .state = stateReady) (hfree : s.mem (.token .secondary) = 0) :
    Sessions ep { s with mem := Function.update s.mem (.token .secondary) (ep e).token
                         view := Function.update s.view e v
                         prog := Function.update s.prog e p
                         joins := s.joins ++
                          [⟨e, s.commits.length, s.mem .state, geometryOf s.mem⟩] } := by
  obtain ⟨c, hc, hgeo⟩ := hse.current hready
  have hread : ∀ f w, f.published = true → f ≠ .token .secondary →
      (s.view e).read f = some w → s.mem f = w :=
    fun f w => hr e f w hmatch.ready hseen
  have hown : geometryOf s.mem = (ep e).geometry := by
    simp only [geometryOf, hread _ _ rfl (by simp) hmatch.bufferCount,
      hread _ _ rfl (by simp) hmatch.bufferSize, hread _ _ rfl (by simp) hmatch.layoutSize,
      hread _ _ rfl (by simp) hmatch.pageSize]
  have hpos : 0 < s.commits.length := by
    rw [List.length_pos_iff]
    rintro h
    simp [h] at hc
  refine ⟨fun _ => ⟨c, hc, by simpa [geometryOf] using hgeo⟩, ?_, ?_, ?_⟩
  · intro _ h0
    simp only [Function.update_self] at h0
    exact absurd h0 (hep.token_ne e)
  · intro j hj
    obtain hj | hj := List.mem_append.mp hj
    · exact hse.good j hj
    · obtain rfl := List.mem_singleton.mp hj
      refine ⟨hready, hown, ⟨c, ?_, hgeo.symm⟩, hpos, le_rfl⟩
      rw [← List.getLast?_eq_getElem?]
      exact hc
  · rw [List.map_append, List.map_singleton]
    refine List.nodup_append.mpr ⟨hse.once, List.nodup_singleton _, ?_⟩
    rintro n hn m hm rfl
    obtain ⟨j, hj, rfl⟩ := List.mem_map.mp hn
    have := hse.free hready hfree j hj
    simp only [List.mem_singleton] at hm
    omega

theorem Sessions.of_turn (hep : Distinct ep) (hi : Inv ep s) (hs : SameSession s)
    (hc : Cleared ep s) (hr : ReadBack s) (hse : Sessions ep s) (halive : s.dead e = false)
    (hok : InTime ep s (.next e)) (ht : Turn ep s e s') : Sessions ep s' := by
  have hpub : ∀ f, f.published = true → Publishes ep s e f s' := fun f hf => ht.published hok hf
  have hnot : s.mem .state = stateReady → ¬ s.Passes ep e :=
    fun h => (hi.not_passes_of_ready hep h).1 e
  have hgeo : s.mem .state = stateReady → geometryOf s'.mem = geometryOf s.mem :=
    fun h => geometryOf_eq hpub (hnot h)
  have hfree : s.mem .state = stateReady → s'.mem (.token .secondary) = 0 →
      s.mem (.token .secondary) = 0 := by
    intro h h0
    cases hpub (.token .secondary) rfl with
    | keep hk => exact hk.symm.trans h0
    | store _ hpass => exact absurd hpass (hnot h)
    | join _ _ _ hfree => exact hfree
    | detach _ _ hmem => simp [hmem, detachedToken] at h0
  cases ht with
  | settle hv => exact hse.of_settle (hc e halive hv).1
  | join hmatch hempty hp =>
    obtain ⟨new, k, hp⟩ := hp
    have hseen := hok.join (by simp [State.joining, hp, hempty])
    exact hse.of_join hep hr hmatch hseen (hs.ready hmatch hseen) hempty
  | quiet hmem => exact hse.congr rfl rfl (fun h => (hmem .state rfl).symm.trans h) hgeo hfree
  | publish hf =>
    have hne := Field.ne_of_published (g := .state) hf rfl
    exact hse.congr rfl rfl (fun h => (Function.update_of_ne hne _ _).symm.trans h) hgeo hfree
  | claim | reuse => exact hse.congr rfl rfl (by simp [stateInitializing, stateReady]) hgeo hfree
  | _ => exact hse.congr rfl rfl (by simp) hgeo hfree

structure JoinInv (ep : Eid → Endpoint) (s : State Eid) : Prop where
  inv : Inv ep s
  same : SameSession s
  written : Written ep s
  cleared : Cleared ep s
  readBack : ReadBack s
  sessions : Sessions ep s

theorem JoinInv.of_step (hep : Distinct ep) (hj : JoinInv ep s) {a : Act Eid}
    (hok : InTime ep s a) (h : step ep s a = some s') : JoinInv ep s' := by
  have hinv := hj.inv.of_step hep hok.exclusive h
  have hsame := hj.same.of_step hep hj.inv h
  obtain ⟨e, rfl, halive, ht⟩ | hidle := hj.inv.step_cases hep h
  · exact ⟨hinv, hsame, hj.written.of_turn hep hj.inv hj.same hok ht,
      hj.cleared.of_turn hep hj.inv hj.same hj.written hok ht,
      hj.readBack.of_turn hep hj.inv hj.same hok ht,
      hj.sessions.of_turn hep hj.inv hj.same hj.cleared hj.readBack halive hok ht⟩
  · have hw : Written ep s' := by
      refine ⟨fun e w h => hj.written.secondary e w (hidle.view ▸ h), ?_⟩
      intro e f w hphase hpass hf hwrote
      simp only [hidle.view, State.Passes, hidle.mem] at hphase hpass hwrote ⊢
      exact hj.written.words e f w hphase hpass hf hwrote
    have hc : Cleared ep s' := by
      intro e hd hphase
      rw [hidle.view] at hphase
      rw [hidle.mem]
      exact hj.cleared e (hidle.dead e hd) hphase
    have hr : ReadBack s' := by
      unfold ReadBack
      rw [hidle.view, hidle.takesSeen, hidle.takes, hidle.mem]
      exact hj.readBack
    have hse : Sessions ep s' := by
      refine hj.sessions.congr hidle.commits hidle.joins ?_ ?_ ?_
      all_goals rw [hidle.mem]
      · exact id
      · exact fun _ => rfl
      · exact fun _ => id
    exact ⟨hinv, hsame, hw, hc, hr, hse⟩

omit [DecidableEq Eid] in
theorem JoinInv.start {t0 : Nat} (ht0 : t0 < 2 ^ 63) : JoinInv ep (start ep t0) where
  inv := .start ht0
  same := .start ep t0
  written := ⟨by simp [Superblock.start], by simp [Superblock.start]⟩
  cleared := by simp [Cleared, Superblock.start]
  readBack := by simp [ReadBack, Superblock.start]
  sessions := ⟨by simp [Superblock.start, stateReady], by simp [Superblock.start],
    by simp [Superblock.start], by simp [Superblock.start]⟩

/-- Every join hit a `Ready` session of the joiner's own geometry, and no session was joined
twice. -/
structure JoinsOneSession (ep : Eid → Endpoint) (s : State Eid) : Prop where
  good : ∀ j ∈ s.joins, GoodJoin ep s.commits j
  once : (s.joins.map Join.epoch).Nodup
  token : ∀ a s', InTime ep s a → step ep s a = some s' → s.mem .state = stateReady →
    s'.mem (.token .secondary) = s.mem (.token .secondary) ∨
    (∃ e, s.mem (.token .secondary) = 0 ∧ s'.mem (.token .secondary) = (ep e).token) ∨
    ∃ e, s.mem (.token .secondary) = (ep e).token ∧
      s'.mem (.token .secondary) = detachedToken

theorem joins_one_session (hep : Distinct ep) {t0 : Nat} (ht0 : t0 < 2 ^ 63)
    (hs : (machine ep t0).Reach (InTime ep) s) : JoinsOneSession ep s := by
  have hj : JoinInv ep s := hs.invariant (.start ht0) fun _ _ _ _ hj hok h => hj.of_step hep hok h
  refine ⟨hj.sessions.good, hj.sessions.once, fun a s' hok h hready => ?_⟩
  obtain ⟨e, rfl, -, ht⟩ | hidle := hj.inv.step_cases hep h
  case inr => exact .inl (by rw [hidle.mem])
  cases ht.published (f := .token .secondary) hok rfl with
  | keep h => exact .inl h
  | store _ hpass => exact absurd hpass ((hj.inv.not_passes_of_ready hep hready).1 e)
  | join _ _ _ hfree hmem => exact .inr (.inl ⟨e, hfree, hmem⟩)
  | detach _ htok hmem => exact .inr (.inr ⟨e, htok, hmem⟩)

/-! ## A creator, a joiner and a second creator

The two creators use different geometries. -/

instance (s : State Eid) : ∀ a, Decidable (JoinsInTime s a)
  | .next _ => inferInstanceAs (Decidable (_ → _))
  | .close _ | .kill _ | .tick _ => .isTrue trivial

instance (ep : Eid → Endpoint) (s : State Eid) : ∀ a, Decidable (StoresInTime ep s a)
  | .next e => match h : s.prog e with
    | .store f _ _ => decidable_of_iff (f.published = true → s.Passes ep e) (by
        simp [StoresInTime, h])
    | .load .. | .cas .. | .add .. | .clock _ | .skip _ | .jump _ =>
      .isTrue (by simp [StoresInTime, h])
  | .close _ | .kill _ | .tick _ => .isTrue trivial

instance [Fintype Eid] (ep : Eid → Endpoint) (s : State Eid) (a : Act Eid) :
    Decidable (InTime ep s a) :=
  decidable_of_iff (Exclusive s a ∧ JoinsInTime s a ∧ StoresInTime ep s a)
    ⟨fun h => ⟨h.1, h.2.1, h.2.2⟩, fun h => ⟨h.1, h.2, h.3⟩⟩

def mixed : Party → Endpoint
  | .first => creator 100
  | .second => { creator 101 with role := .opener }
  | .third => { creator 102 with bufferSize := 16 }

theorem mixed_distinct : Distinct mixed := by
  constructor <;> decide

def joined : List (Act Party) := turns 82 .first ++ turns 22 .second

theorem joins_one_session_joined :
    ∃ s, (machine mixed 1).Reach (InTime mixed) s ∧
      (s.joins.map fun j => (j.who, j.epoch)) = [(.second, 1)] ∧ JoinsOneSession mixed s :=
  Machine.exists_reach_and joined (by decide +kernel) fun _ hs _ =>
    joins_one_session mixed_distinct (by decide) hs

/-- The joiner sleeps before its swap. The primary closes, and the second creator takes the segment
and commits its own geometry. -/
def lateJoin : List (Act Party) :=
  turns 82 .first ++ turns 16 .second ++ [.close .first] ++ turns 1 .first ++ turns 66 .third ++
    turns 1 .second

theorem late_join_hits_other_geometry :
    ∃ s, (machine mixed 1).Reach (fun s a => Exclusive s a ∧ StoresInTime mixed s a) s ∧
      (s.joins.map fun j => (j.who, j.epoch, j.geometry)) =
        [(.second, 2, (mixed .third).geometry)] ∧
      s.commits = [.first, .third] ∧ s.dead .third = false ∧
      (mixed .third).geometry ≠ (mixed .second).geometry :=
  Machine.exists_reach lateJoin (by decide +kernel)

end Hqq.Superblock
