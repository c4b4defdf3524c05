import Hqq.Advanced.Feed

/-!
# Every message that is sent arrives

The frames of all calls are mixed in any order that keeps the order of each call.
-/

namespace Hqq.Advanced

variable {ι : Type} [DecidableEq ι]

/-! ## The frames of many calls -/

/-- `queue i` is what call `i` has still to put on the ring, `log` the result of every frame so
far, and `lost` the messages the receiver gave up. -/
structure Feed (ι : Type) where
  rx : Rx
  queue : ι → List Frame
  log : List (ι × Result)
  lost : Finset ι

def Feed.seen (st : Feed ι) (i : ι) : List (Except Err Seen) :=
  (st.log.filter (·.1 = i)).map fun e => e.2.seen

def Feed.started (st : Feed ι) : Finset ι := (st.log.map Prod.fst).toFinset

variable (cfg : Config) {size : BufferSize} (sends : ι → Send) (tx : ι → Nat → Option (Slot size))

def Feed.reclaimed (st : Feed ι) (i : ι) (rx : Rx) : Finset ι :=
  st.started.filter fun j =>
    j ≠ i ∧ (st.rx.assemblies.lookup (sends j).key).isSome ∧
      (rx.assemblies.lookup (sends j).key).isNone

def Feed.after (st : Feed ι) (i : ι) (rest : List Frame) (r : Rx × Result) : Feed ι where
  rx := r.1
  queue := Function.update st.queue i rest
  log := st.log ++ [(i, r.2)]
  lost := st.lost ∪ st.reclaimed sends i r.1 ∪ (if r.2.isRefused then {i} else ∅)

def feedStep (st : Feed ι) (act : ι × Env) : Option (Feed ι) :=
  match st.queue act.1 with
  | [] => none
  | f :: rest => (consumeAdvancedChunk cfg act.2 st.rx f).map (st.after sends act.1 rest)

def sentBy (i : ι) : Sent := sendAdvancedPayload cfg (tx i) (sends i)

def feedMachine : Machine (Feed ι) (ι × Env) where
  init := ⟨Rx.fresh, fun i => (sentBy cfg sends tx i).frames, [], ∅⟩
  step := feedStep cfg sends

structure Tracks (st : Feed ι) : Prop where
  inv : RxInv cfg st.rx
  stage : ∀ i, Stage cfg size (sends i) (sentBy cfg sends tx i) st.rx (st.queue i) (i ∈ st.lost)
    (st.seen i)
  owned : ∀ k, (st.rx.assemblies.lookup k).isSome → ∃ i, (sends i).key = k

variable {cfg sends tx} {st st' : Feed ι} {i : ι} {env : Env}

theorem queue_after_self {rest : List Frame} {r : Rx × Result} :
    (st.after sends i rest r).queue i = rest := Function.update_self ..

theorem queue_after_ne {rest : List Frame} {r : Rx × Result} {j : ι} (h : j ≠ i) :
    (st.after sends i rest r).queue j = st.queue j := Function.update_of_ne h ..

theorem seen_after_self {rest : List Frame} {r : Rx × Result} :
    (st.after sends i rest r).seen i = st.seen i ++ [r.2.seen] := by
  simp [Feed.seen, Feed.after, List.filter_append]

theorem seen_after_ne {rest : List Frame} {r : Rx × Result} {j : ι} (h : j ≠ i) :
    (st.after sends i rest r).seen j = st.seen j := by
  simp [Feed.seen, Feed.after, List.filter_append, h.symm]

theorem mem_started_of_seen (h : st.seen i ≠ []) : i ∈ st.started := by
  have hne : st.log.filter (·.1 = i) ≠ [] := fun hnil => h (by rw [Feed.seen, hnil]; rfl)
  obtain ⟨e, he⟩ := List.exists_mem_of_ne_nil _ hne
  rw [List.mem_filter, decide_eq_true_eq] at he
  rw [Feed.started, List.mem_toFinset, List.mem_map]
  exact ⟨e, he⟩

theorem Tracks.live (h : Tracks cfg sends tx st)
    (hl : (st.rx.assemblies.lookup (sends i).key).isSome) :
    i ∈ st.started ∧ i ∉ st.lost ∧ ∃ offset a, size.1 ≤ offset ∧
      offset < (sends i).totalSize cfg ∧
      Rest cfg size (sends i) offset (st.queue i) (sentBy cfg sends tx i).fate ∧
      (st.queue i).length < (sentBy cfg sends tx i).frames.length ∧
      st.rx.assemblies.lookup (sends i).key = some a ∧ a.Holds cfg (sends i) offset := by
  cases h.stage i with
  | fresh rest absent all none kept => simp [absent.1] at hl
  | live offset a lo hi rest fewer look holds none kept =>
    refine ⟨mem_started_of_seen ?_, kept, offset, a, lo, hi, rest, fewer, look, holds⟩
    rw [none]
    intro hnil
    have := congrArg List.length hnil
    simp at this
    omega
  | dropped offset lo hi rest look drained quiet gone => simp [look] at hl
  | ended empty closed absent good quiet => simp [absent.1] at hl

theorem Tracks.init : Tracks cfg sends tx (feedMachine cfg sends tx).init where
  inv := RxInv.fresh
  stage i := .fresh (sendAdvancedPayload_rest cfg (tx i) (sends i))
    ⟨rfl, by simp [feedMachine, Rx.isRejected, Rx.fresh]⟩ rfl rfl (by simp [feedMachine])
  owned k h := by simp [feedMachine, Rx.fresh] at h

theorem mem_reclaimed {rx : Rx} {j : ι} :
    j ∈ st.reclaimed sends i rx ↔ j ∈ st.started ∧ j ≠ i ∧
      (st.rx.assemblies.lookup (sends j).key).isSome ∧
      rx.assemblies.lookup (sends j).key = none := by
  rw [Feed.reclaimed, Finset.mem_filter, Option.isNone_iff_eq_none]

theorem mem_lost_after {rest : List Frame} {r : Rx × Result} {j : ι} :
    j ∈ (st.after sends i rest r).lost ↔
      j ∈ st.lost ∨ j ∈ st.reclaimed sends i r.1 ∨ (j = i ∧ r.2.isRefused = true) := by
  simp only [Feed.after, Finset.mem_union, or_assoc]
  split <;> simp [*]

theorem lost_after_self {rest : List Frame} {r : Rx × Result} :
    i ∈ (st.after sends i rest r).lost ↔ i ∈ st.lost ∨ r.2.isRefused = true := by
  simp [mem_lost_after, mem_reclaimed]

section Step

variable (hkeys : Function.Injective fun i => (sends i).key) (h : Tracks cfg sends tx st)
  {f : Frame} {rest : List Frame} {r : Rx × Result} {ks : List Key}
  (hf : FrameStep cfg env size (sends i) (sentBy cfg sends tx i) st.rx f rest (i ∈ st.lost)
    (st.seen i) r.1 r.2 ks)
include hkeys h hf

theorem Tracks.lost_other {j : ι} (hj : j ≠ i) :
    j ∈ (st.after sends i rest r).lost ↔ j ∈ st.lost ∨ (sends j).key ∈ ks := by
  have hkey : (sends j).key ≠ (sends i).key := fun he => hj (hkeys he)
  rw [mem_lost_after]
  constructor
  · rintro (hold | hrec | hself)
    · exact .inl hold
    · obtain ⟨-, -, hlive, hgone⟩ := mem_reclaimed.mp hrec
      by_contra hout
      rw [(hf.moves.kept _ hkey fun hin => hout (.inr hin)).lookup] at hgone
      simp [hgone] at hlive
    · exact absurd hself.1 hj
  · rintro (hold | hin)
    · exact .inl hold
    · have hrec := hf.moves.gone _ hin
      exact .inr (.inl (mem_reclaimed.mpr ⟨(h.live hrec.live).1, hj, hrec.live, hrec.gone⟩))

theorem Tracks.lost_after_calm (hcalm : ks = [] ∧ r.2.isRefused = false) :
    (st.after sends i rest r).lost = st.lost := by
  obtain ⟨rfl, hrefused⟩ := hcalm
  ext j
  by_cases hj : j = i
  · subst hj
    simp [lost_after_self, hrefused]
  · simp [h.lost_other hkeys hf hj]

theorem Tracks.after : Tracks cfg sends tx (st.after sends i rest r) where
  inv := by
    obtain ⟨r', hr', hinv⟩ := consumeAdvancedChunk_some h.inv env f
    rw [hf.consumed, Option.some.injEq] at hr'
    subst hr'
    exact hinv
  stage j := by
    by_cases hj : j = i
    · subst hj
      rw [seen_after_self, lost_after_self, queue_after_self]
      exact hf.stage
    · have hkey : (sends j).key ≠ (sends i).key := fun he => hj (hkeys he)
      rw [seen_after_ne hj, h.lost_other hkeys hf hj, queue_after_ne hj]
      by_cases hin : (sends j).key ∈ ks
      · simp only [hin, or_true]
        exact (h.stage j).reclaims (hf.moves.gone _ hin)
      · simp only [hin, or_false]
        exact (h.stage j).keeps (hf.moves.kept _ hkey hin)
  owned k hk := by
    by_cases hself : k = (sends i).key
    · exact ⟨i, hself.symm⟩
    · by_cases hin : k ∈ ks
      · exact h.owned k (hf.moves.gone k hin).live
      · refine h.owned k ?_
        rw [← (hf.moves.kept k hself hin).lookup]
        exact hk

end Step

theorem Tracks.step_cases (h : Tracks cfg sends tx st)
    (hstep : feedStep cfg sends st (i, env) = some st') :
    ∃ f rest r ks, st.queue i = f :: rest ∧ st' = st.after sends i rest r ∧
      FrameStep cfg env size (sends i) (sentBy cfg sends tx i) st.rx f rest (i ∈ st.lost)
        (st.seen i) r.1 r.2 ks := by
  unfold feedStep at hstep
  split at hstep
  · cases hstep
  · rename_i f rest hqueue
    have hstage := h.stage i
    rw [show st.queue i = f :: rest from hqueue] at hstage
    obtain ⟨rx', r, ks, hf⟩ := hstage.frame env h.inv
    rw [hf.consumed, Option.map_some, Option.some.injEq] at hstep
    exact ⟨f, rest, (rx', r), ks, hqueue, hstep.symm, hf⟩

theorem Tracks.enabled (h : Tracks cfg sends tx st) (env : Env) (hq : st.queue i ≠ []) :
    ∃ st', feedStep cfg sends st (i, env) = some st' := by
  unfold feedStep
  split
  · exact absurd ‹_› hq
  · rename_i f rest _
    obtain ⟨r, hr, -⟩ := consumeAdvancedChunk_some h.inv env f
    exact ⟨_, by rw [hr]; rfl⟩

/-! ## Within the budget -/

variable (cfg sends tx)

def Feed.InFlight (st : Feed ι) (i : ι) : Prop :=
  size.1 < (sends i).totalSize cfg ∧
  (st.queue i).length < (sentBy cfg sends tx i).frames.length ∧
  (st.queue i ≠ [] ∨ (sentBy cfg sends tx i).fate = .cut)

def Feed.Counts (st : Feed ι) (i j : ι) : Prop :=
  st.InFlight cfg sends tx j ∨ (j = i ∧ size.1 < (sends j).totalSize cfg)

instance (i j : ι) : Decidable (st.Counts cfg sends tx i j) :=
  inferInstanceAs (Decidable ((_ ∧ _ ∧ (¬ _ ∨ _)) ∨ _))

def Feed.announced (st : Feed ι) (i : ι) : Nat :=
  ∑ j ∈ (insert i st.started).filter (st.Counts cfg sends tx i),
    ((sends j).totalSize cfg + advancedAssemblyOverhead.toNat)

/-- The announced messages in flight never exceed `MaxReassemblyBytes`. -/
def WithinBudget (st : Feed ι) (act : ι × Env) : Prop :=
  st.announced cfg sends tx act.1 ≤ cfg.maxReassemblyBytes.toNat

instance (act : ι × Env) : Decidable (WithinBudget cfg sends tx st act) :=
  inferInstanceAs (Decidable (_ ≤ _))

variable {cfg sends tx}

theorem Tracks.inFlight (h : Tracks cfg sends tx st)
    (hl : (st.rx.assemblies.lookup (sends i).key).isSome) : st.InFlight cfg sends tx i := by
  obtain ⟨-, -, offset, a, lo, hi, hrest, fewer, -, -⟩ := h.live hl
  refine ⟨lt_of_le_of_lt lo hi, fewer, ?_⟩
  by_contra hnot
  rw [not_or, not_not] at hnot
  rw [hnot.1] at hrest
  generalize (sentBy cfg sends tx i).fate = fate at hrest hnot
  cases hrest with
  | whole _ hall => omega
  | cut _ => exact hnot.2 rfl

variable (env) in
theorem Tracks.hasRoom (h : Tracks cfg sends tx st)
    (hopen : (st.queue i).length = (sentBy cfg sends tx i).frames.length)
    (hmany : size.1 < (sends i).totalSize cfg) (hok : WithinBudget cfg sends tx st (i, env)) :
    st.rx.HasRoom cfg (sends i) := by
  have hbound : Table.total Assembly.charged st.rx.assemblies ≤
      ∑ j ∈ ((insert i st.started).filter (st.Counts cfg sends tx i)).erase i,
        ((sends j).totalSize cfg + advancedAssemblyOverhead.toNat) := by
    apply Table.total_le_sum (f := fun j => (sends j).key)
    intro k a hlook
    obtain ⟨j, rfl⟩ := h.owned k (by rw [hlook]; rfl)
    have hflight := h.inFlight (i := j) (by rw [hlook]; rfl)
    obtain ⟨hstarted, -, offset, a', -, -, -, -, hlook', hholds⟩ := h.live (i := j) (by rw [hlook]; rfl)
    have hji : j ≠ i := by
      rintro rfl
      have := hflight.2.1
      omega
    rw [hlook, Option.some.injEq] at hlook'
    refine ⟨j, ?_, rfl, ?_⟩
    · rw [Finset.mem_erase, Finset.mem_filter]
      exact ⟨hji, Finset.mem_insert_of_mem hstarted, .inl hflight⟩
    · rw [Assembly.charged, hlook', hholds.size]
  have hmem : i ∈ (insert i st.started).filter (st.Counts cfg sends tx i) :=
    Finset.mem_filter.mpr ⟨Finset.mem_insert_self _ _, .inr ⟨rfl, hmany⟩⟩
  have hsum := Finset.add_sum_erase _
    (fun j => (sends j).totalSize cfg + advancedAssemblyOverhead.toNat) hmem
  unfold WithinBudget Feed.announced at hok
  unfold Rx.HasRoom
  rw [h.inv.bytes]
  dsimp only at hsum hok
  omega

theorem Tracks.none_lost (hkeys : Function.Injective fun i => (sends i).key)
    (h : (feedMachine cfg sends tx).Reach (WithinBudget cfg sends tx) st) :
    Tracks cfg sends tx st ∧ st.lost = ∅ := by
  refine h.invariant (I := fun st => Tracks cfg sends tx st ∧ st.lost = ∅) ⟨Tracks.init, rfl⟩ ?_
  rintro st ⟨i, env⟩ st' - ⟨hst, hnone⟩ hok hstep
  obtain ⟨f, rest, r, ks, hqueue, rfl, hf⟩ := hst.step_cases hstep
  have hroom : rest.length + 1 = (sentBy cfg sends tx i).frames.length →
      size.1 < (sends i).totalSize cfg → st.rx.HasRoom cfg (sends i) := by
    intro hlen hmany
    exact hst.hasRoom env (by rw [hqueue]; exact hlen) hmany hok
  exact ⟨hst.after hkeys hf, (hst.lost_after_calm hkeys hf (hf.calm hroom)).trans hnone⟩

theorem Stage.seen_eq {p : Send} {sent : Sent} {rx : Rx} {queue : List Frame} {lost : Prop}
    {seen : List (Except Err Seen)} (h : Stage cfg size p sent rx queue lost seen)
    (hkept : ¬ lost) : seen = (p.expected cfg sent).take (sent.frames.length - queue.length) := by
  cases h with
  | fresh rest absent all none kept =>
    rw [none, all, Nat.sub_self, List.take_zero]
  | live offset a lo hi rest fewer look holds none kept =>
    -- A message on its way has a frame to come, or its sender fell silent.
    rw [none, Send.expected]
    generalize sent.fate = fate at rest
    cases rest with
    | whole _ hall => omega
    | cut _ => simp
    | aborted => simp
    | chunk _ _ _ _ =>
      rw [List.length_cons] at fewer ⊢
      cases fate with
      | cut => rw [List.take_replicate, min_eq_left (by omega)]
      | whole | aborted =>
        rw [List.take_append_of_le_length (by rw [List.length_replicate]; omega),
          List.take_replicate, min_eq_left (by omega)]
  | dropped offset lo hi rest look drained quiet gone => exact absurd gone hkept
  | ended empty closed absent good quiet =>
    obtain ⟨hne, hseen⟩ := good hkept
    have hpos := List.length_pos_iff.mpr hne
    rw [hseen, empty, List.length_nil, Nat.sub_zero, List.take_of_length_le]
    unfold Send.expected
    split <;> simp <;> omega

/-- Each frame gives what it is to give: the last one its message, an abort its report, and every
other one nothing. -/
theorem messages_delivered (cfg : Config) (size : BufferSize) (sends : ι → Send)
    (tx : ι → Nat → Option (Slot size)) (hkeys : Function.Injective fun i => (sends i).key)
    (st : Feed ι) (h : (feedMachine cfg sends tx).Reach (WithinBudget cfg sends tx) st) (i : ι) :
    st.seen i = ((sends i).expected cfg (sentBy cfg sends tx i)).take
        ((sentBy cfg sends tx i).frames.length - (st.queue i).length) ∧
      (st.queue i ≠ [] → ∀ env, ∃ st', feedStep cfg sends st (i, env) = some st') := by
  obtain ⟨hst, hnone⟩ := Tracks.none_lost hkeys h
  refine ⟨(hst.stage i).seen_eq ?_, fun hq env => hst.enabled env hq⟩
  rw [hnone]
  exact Finset.notMem_empty i

def twoSends : Bool → Send
  | true => ⟨0, 1, .data, 0, ⟨[], by decide⟩, ⟨List.replicate 12 5, by decide⟩⟩
  | false => ⟨0, 2, .response false, 0, ⟨[], by decide⟩, ⟨[6, 6, 6], by decide⟩⟩

def eightBytes : BufferSize := ⟨8, by decide⟩

def emptySlots : Bool → Nat → Option (Slot eightBytes) := fun _ _ => some ⟨List.replicate 8 0, rfl⟩

theorem messages_delivered_interleaved :
    ∃ st, (feedMachine (newAdvancedLink ⟨0, 0, false⟩) twoSends emptySlots).Reach
        (WithinBudget (newAdvancedLink ⟨0, 0, false⟩) twoSends emptySlots) st ∧
      ((st.queue true).length = 0 ∧ (st.queue false).length = 0 ∧ st.log.length = 3) ∧
      st.seen true = ((twoSends true).expected (newAdvancedLink ⟨0, 0, false⟩)
        (sentBy (newAdvancedLink ⟨0, 0, false⟩) twoSends emptySlots true)).take
          ((sentBy (newAdvancedLink ⟨0, 0, false⟩) twoSends emptySlots true).frames.length -
            (st.queue true).length) := by
  have hkeys : Function.Injective fun i => (twoSends i).key := by
    intro i j
    revert i j
    decide
  exact Machine.exists_reach_and [(true, plainEnv), (false, plainEnv), (true, plainEnv)]
    (by decide +kernel) fun st hst _ => (messages_delivered _ _ _ _ hkeys st hst true).1

end Hqq.Advanced
