import Hqq.Superblock.Ownership

/-!
# Taking a dead segment

A creator judges the two records of a `Ready` segment and then swaps `state`. The swap compares
`state` only, so it may hit a later session than the one that was judged.
-/

namespace Hqq.Superblock

variable {Eid : Type}

/-! ## The session that was found `Ready` -/

structure SameSession (s : State Eid) : Prop where
  seen_le : ∀ e, s.takesSeen e ≤ s.takes.length
  same : ∀ e, (s.view e).read .state = some stateReady → s.takesSeen e = s.takes.length →
    s.mem .state = stateReady ∧ s.epochSeen e = s.commits.length

variable {ep : Eid → Endpoint} {s s' : State Eid} {e : Eid}

theorem SameSession.congr (hi : SameSession s) (hstate : s'.mem .state = s.mem .state)
    (htakes : s'.takes = s.takes) (hcommits : s'.commits = s.commits)
    (hseen : s'.takesSeen = s.takesSeen) (hepoch : s'.epochSeen = s.epochSeen)
    (hread : ∀ e, (s'.view e).read .state = some stateReady →
      (s.view e).read .state = some stateReady) : SameSession s' := by
  refine ⟨?_, fun e hr => ?_⟩
  · rw [hseen, htakes]
    exact hi.seen_le
  · rw [hseen, htakes, hstate, hepoch, hcommits]
    exact hi.same e (hread e hr)

variable [DecidableEq Eid]

theorem read_update {v : View} {f : Field} {w : Word} {e' : Eid}
    (hv : v.read f = some w → (s.view e).read f = some w)
    (h : (Function.update s.view e v e').read f = some w) : (s.view e').read f = some w := by
  by_cases he : e' = e
  · subst he
    rw [Function.update_self] at h
    exact hv h
  · rwa [Function.update_of_ne he] at h

theorem SameSession.of_turn (hi : SameSession s) (ho : s.Owned) (halive : s.dead e = false)
    (ht : Turn ep s e s') : SameSession s' := by
  cases ht with
  | quiet hmem _ _ hread _ =>
    refine hi.congr (hmem _ rfl) rfl rfl rfl rfl fun e' => read_update fun h => ?_
    obtain h | ⟨hne, -⟩ := hread _ _ h
    · exact h
    · exact absurd rfl hne
  | look =>
    refine ⟨fun e' => ?_, fun e' hr => ?_⟩ <;> dsimp only at * <;> by_cases he : e' = e
    · subst he; simp
    · simpa [he] using hi.seen_le e'
    · subst he
      simp only [Function.update_self, View.load_read_self, Option.some.injEq] at hr
      exact fun _ => ⟨hr, by simp⟩
    · simp only [Function.update_of_ne he] at hr ⊢
      exact hi.same e' hr
  | publish hf hv =>
    exact hi.congr (Function.update_of_ne (Field.ne_of_published hf rfl) _ _) rfl rfl rfl rfl
      fun e' => read_update id
  | settle hv =>
    -- Before the store the segment was `Initializing`, so nobody counts as in its session.
    have hstate := (ho.window e ⟨halive, .inr hv⟩).1
    refine ⟨hi.seen_le, fun e' hr hseen => ?_⟩
    have := (hi.same e' (read_update (v := (s.view e).store .state stateReady) id hr) hseen).1
    simp [hstate, stateInitializing, stateReady] at this
  | claim hv hstate =>
    refine ⟨hi.seen_le, fun e' hr hseen => ?_⟩
    have := (hi.same e' (read_update (by simp) hr) hseen).1
    simp [hstate, stateEmpty, stateReady] at this
  | reuse hv hstate =>
    refine ⟨fun e' => ?_, fun e' hr hseen => ?_⟩ <;> have := hi.seen_le e'
    · simpa using Nat.le_succ_of_le this
    · simp only [List.length_append, List.length_singleton] at hseen
      omega
  | _ => exact hi.congr (by simp) rfl rfl rfl rfl fun e' => read_update (by simp)

theorem SameSession.of_step (hep : Distinct ep) (hi : Inv ep s) (hs : SameSession s)
    {a : Act Eid} (h : step ep s a = some s') : SameSession s' := by
  obtain ⟨e, rfl, halive, ht⟩ | hidle := hi.step_cases hep h
  · exact hs.of_turn hi.owned halive ht
  · exact hs.congr (by rw [hidle.mem]) hidle.takes hidle.commits hidle.takesSeen
      hidle.epochSeen fun e hr => hidle.view ▸ hr

omit [DecidableEq Eid] in
theorem SameSession.start (ep : Eid → Endpoint) (t0 : Nat) : SameSession (start ep t0) :=
  ⟨fun _ => le_rfl, fun e hr => by simp [Superblock.start] at hr⟩

theorem sameSession_of_reach (hep : Distinct ep) {t0 : Nat} (ht0 : t0 < 2 ^ 63)
    (hs : (machine ep t0).Reach Exclusive s) : SameSession s :=
  hs.invariant (.start ep t0) fun _ _ _ hr hi _ h => hi.of_step hep (inv_of_reach hep ht0 hr) h

/-! ## The swap -/

def State.reusing (s : State Eid) (e : Eid) : Bool :=
  match s.prog e with
  | .cas .state old _ _ => decide (old = stateReady ∧ s.mem .state = stateReady)
  | _ => false

/-- When an endpoint takes a `Ready` segment, nobody has taken it since the endpoint found
it `Ready`, and the two records still hold the words that it judged. -/
def Undisturbed (s : State Eid) : Act Eid → Prop
  | .next e => s.reusing e = true → s.takesSeen e = s.takes.length ∧ ∀ i : Slot,
      s.unchanged e (.token i) = true ∧ s.unchanged e (.interval i) = true ∧
      s.unchanged e (.heartbeat i) = true
  | _ => True

def LiveRecord (ep : Endpoint) (mem : Mem) (now : Nat) (i : Slot) : Prop :=
  isOwnerToken (mem (.token i)) = true ∧
    ((mem (.interval i)).toInt ≤ 0 ∨ mem (.heartbeat i) = 0 ∨
      heartbeatFresh now (mem (.heartbeat i)) (effectivePeerTimeout ep (mem (.interval i))) = true)

omit [DecidableEq Eid] in
theorem Inv.not_live (hi : Inv ep s) {i : Slot} (hdead : (s.view e).JudgedDead (ep e) i)
    (htok : s.unchanged e (.token i) = true) (hint : s.unchanged e (.interval i) = true)
    (hbeat : s.unchanged e (.heartbeat i) = true) : ¬ LiveRecord (ep e) s.mem s.clock i := by
  rintro ⟨howner, hlive⟩
  obtain ⟨tok, hr, hstale⟩ := hdead
  obtain ⟨interval, hb, hri, hrh, hpos, hne, hle, hfresh⟩ :=
    hstale (Threads.unchanged_eq htok hr ▸ howner)
  rw [Threads.unchanged_eq hint hri, Threads.unchanged_eq hbeat hrh] at hlive
  have hlater := View.heartbeatFresh_later hfresh hle (hi.time e) hi.clock
  obtain h | h | h := hlive
  · omega
  · exact hne h
  · simp [hlater] at h

theorem Turn.takes_eq (ht : Turn ep s e s') : s'.takes = s.takes ∨
    s'.takes = s.takes ++ [⟨e, s.epochSeen e, s.commits.length, s.mem, s.clock⟩] ∧
      s.reusing e = true ∧ (s.view e).read .state = some stateReady ∧
      ∀ i, (s.view e).JudgedDead (ep e) i := by
  cases ht with
  | reuse hv hstate hp hread hprim hsec =>
    obtain ⟨new, k, hp⟩ := hp
    refine .inr ⟨rfl, by simp [State.reusing, hp, hstate], hread, fun i => ?_⟩
    cases i with
    | primary => exact hprim
    | secondary => exact hsec
  | _ => exact .inl rfl

def TakesDead (ep : Eid → Endpoint) (s : State Eid) : Prop :=
  ∀ t ∈ s.takes, t.epochSeen = t.epoch ∧ ∀ i, ¬ LiveRecord (ep t.who) t.mem t.clock i

theorem TakesDead.of_step (hep : Distinct ep) (hi : Inv ep s) (hs : SameSession s)
    (hd : TakesDead ep s) {a : Act Eid} (hok : Undisturbed s a) (h : step ep s a = some s') :
    TakesDead ep s' := by
  obtain ⟨e, rfl, -, ht⟩ | hidle := hi.step_cases hep h
  case inr => rwa [TakesDead, hidle.takes]
  obtain hsame | ⟨htakes, hreusing, hread, hdead⟩ := ht.takes_eq
  case inl => rwa [TakesDead, hsame]
  intro t hmem
  rw [htakes] at hmem
  obtain hmem | hmem := List.mem_append.mp hmem
  · exact hd t hmem
  · obtain rfl := List.mem_singleton.mp hmem
    obtain ⟨hseen, hwords⟩ := hok hreusing
    exact ⟨(hs.same e hread hseen).2, fun i =>
      hi.not_live (hdead i) (hwords i).1 (hwords i).2.1 (hwords i).2.2⟩

theorem reuse_takes_dead (hep : Distinct ep) {t0 : Nat} (ht0 : t0 < 2 ^ 63)
    (hs : (machine ep t0).Reach (fun s a => Exclusive s a ∧ Undisturbed s a) s) :
    TakesDead ep s := by
  refine hs.invariant (by simp [TakesDead, machine, start]) fun s a s' hr hd hok h => ?_
  have hr' : (machine ep t0).Reach Exclusive s := hr.mono fun _ _ => And.left
  exact hd.of_step hep (inv_of_reach hep ht0 hr') (sameSession_of_reach hep ht0 hr') hok.2 h

/-! ## Three creators

The first one commits and dies. Much later the two others judge the segment. -/

instance (s : State Eid) : ∀ a, Decidable (Undisturbed s a)
  | .next _ => decidable_of_iff (_ → _ ∧ (_ ∧ _ ∧ _) ∧ (_ ∧ _ ∧ _)) <|
      imp_congr_right fun _ => and_congr_right fun _ =>
        ⟨fun h i => by cases i; exacts [h.1, h.2], fun h => ⟨h .primary, h .secondary⟩⟩
  | .close _ | .kill _ | .tick _ => .isTrue trivial

instance (ep : Endpoint) (mem : Mem) (now : Nat) (i : Slot) :
    Decidable (LiveRecord ep mem now i) :=
  inferInstanceAs (Decidable (_ ∧ _))

/-- The first creator commits and dies. Ten seconds later the two others watch its record. -/
def crashed : List (Act Party) :=
  turns 82 .first ++ [.kill .first, .tick 10000000000] ++ turns 11 .second ++
    turns 11 .third ++ [.tick 2000000000] ++ turns 3 .third

theorem reuse_takes_dead_crashed :
    ∃ s, (machine creators 1).Reach (fun s a => Exclusive s a ∧ Undisturbed s a) s ∧
      (s.takes.map Take.who) = [.third] ∧ TakesDead creators s :=
  Machine.exists_reach_and (crashed ++ turns 1 .third) (by decide +kernel) fun _ hs _ =>
    reuse_takes_dead creators_distinct (by decide) hs

/-- The second creator is faster. It takes the segment, initializes it and is the primary of
a new session before the third one swaps `state`. -/
def raced : List (Act Party) := crashed ++ turns 61 .second ++ turns 1 .third

/-- The second take hits a live primary, in a session that started after the judgement. -/
theorem late_swap_evicts_live :
    ∃ s, (machine creators 1).Reach Exclusive s ∧ s.dead .second = false ∧
      ∃ t ∈ s.takes, t.who = .third ∧ t.epochSeen = 1 ∧ t.epoch = 2 ∧
        t.mem (.token .primary) = (creators .second).token ∧
        LiveRecord (creators .third) t.mem t.clock .primary :=
  Machine.exists_reach raced (by decide +kernel)

end Hqq.Superblock
