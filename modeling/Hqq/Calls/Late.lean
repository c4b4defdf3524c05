import Hqq.Calls.Spec
import Mathlib.Data.List.Nodup

/-!
# Late responses

A call that gives up leaves its key behind. Go keeps these keys in a map and their order in a
slice, C keeps them in an array that is used as a ring. Both forget a key when there are more
than `K`.
-/

namespace Hqq.Late

open Calls (GoSet)

variable {κ σ : Type} [DecidableEq κ]

structure Memory (κ σ : Type) where
  empty : σ
  add : σ → κ → σ
  take : σ → κ → Option σ

inductive Event (κ : Type) where
  | call (k : κ)
  | unregister (k : κ)
  | abandon (k : κ)
  | respond (k : κ)
  deriving DecidableEq

inductive Class where
  | delivered
  | abandoned
  | unmatched
  deriving DecidableEq

/-- `log` is history, with the newest event first. -/
structure State (κ σ : Type) where
  pending : List κ
  memory : σ
  log : List (Event κ)

/-- What `routeResponse` and `adv_route` make of a response that arrives now. -/
def State.classify (m : Memory κ σ) (s : State κ σ) (k : κ) : Class :=
  if k ∈ s.pending then .delivered
  else if (m.take s.memory k).isSome then .abandoned
  else .unmatched

def step (m : Memory κ σ) (s : State κ σ) (e : Event κ) : Option (State κ σ) :=
  match e with
  | .call k => if e ∈ s.log then none else some { s with pending := k :: s.pending, log := e :: s.log }
  | .unregister k =>
    if k ∈ s.pending then some { s with pending := s.pending.erase k, log := e :: s.log } else none
  -- abandonCall does nothing for a call that was routed already
  | .abandon k =>
    if k ∈ s.pending then
      some { pending := s.pending.erase k, memory := m.add s.memory k, log := e :: s.log }
    else none
  | .respond k =>
    if k ∈ s.pending then some { s with pending := s.pending.erase k, log := e :: s.log }
    else some { s with memory := (m.take s.memory k).getD s.memory, log := e :: s.log }

def machine (m : Memory κ σ) : Machine (State κ σ) (Event κ) where
  init := ⟨[], m.empty, []⟩
  step := step m

/-! ## What is known of a call -/

/-- How many calls were abandoned after `k`, if `k` was abandoned and its response has not come. -/
def awaited : List (Event κ) → κ → Option Nat
  | [], _ => none
  | .abandon x :: log, k => if x = k then some 0 else (awaited log k).map (· + 1)
  | .respond x :: log, k => if x = k then none else awaited log k
  | _ :: log, k => awaited log k

def abandons : List (Event κ) → List κ
  | [] => []
  | .abandon x :: log => x :: abandons log
  | _ :: log => abandons log

omit [DecidableEq κ] in
theorem mem_abandons {log : List (Event κ)} {k : κ} : k ∈ abandons log ↔ .abandon k ∈ log := by
  induction log with
  | nil => simp [abandons]
  | cons e log ih => cases e <;> simp [abandons, ih]

theorem abandons_awaited {log : List (Event κ)} {k : κ} {n : Nat} (h : awaited log k = some n) :
    (abandons log)[n]? = some k := by
  induction log generalizing n with
  | nil => cases h
  | cons e log ih =>
    cases e with
    | call | unregister => exact ih h
    | respond x =>
      rw [awaited] at h
      split at h
      · cases h
      · exact ih h
    | abandon x =>
      rw [awaited] at h
      split at h
      · cases h
        simpa [abandons]
      · obtain ⟨p, hp, rfl⟩ := Option.map_eq_some_iff.mp h
        simpa [abandons] using ih hp

theorem abandon_of_awaited {log : List (Event κ)} {k : κ} {n : Nat} (h : awaited log k = some n) :
    .abandon k ∈ log :=
  mem_abandons.mp (List.mem_of_getElem? (abandons_awaited h))

def Event.Quiet (log : List (Event κ)) : Event κ → Prop
  | .abandon _ => False
  | .respond k => .abandon k ∉ log
  | _ => True

theorem Event.Quiet.same {log : List (Event κ)} {e : Event κ} (h : e.Quiet log) :
    abandons (e :: log) = abandons log ∧ awaited (e :: log) = awaited log := by
  cases e with
  | call | unregister => exact ⟨rfl, rfl⟩
  | abandon => exact h.elim
  | respond x =>
    refine ⟨rfl, funext fun k => ?_⟩
    rw [awaited]
    split
    · rename_i hx
      subst hx
      cases hk : awaited log x with
      | none => rfl
      | some n => exact absurd (abandon_of_awaited hk) h
    · rfl

structure Orderly (s : State κ σ) : Prop where
  nodup : s.pending.Nodup
  called : ∀ k ∈ s.pending, .call k ∈ s.log
  waits : ∀ k ∈ s.pending, .abandon k ∉ s.log
  abandoned : ∀ k, .abandon k ∈ s.log → .call k ∈ s.log

variable {m : Memory κ σ} {ok : State κ σ → Event κ → Prop} {s s' : State κ σ}

theorem Orderly.erase (h : Orderly s) {k : κ} (hk : k ∈ s.pending) {e : Event κ}
    (he : e = .abandon k ∨ e.Quiet s.log) {mem : σ} :
    Orderly { pending := s.pending.erase k, memory := mem, log := e :: s.log } where
  nodup := h.nodup.erase k
  called x hx := List.mem_cons_of_mem _ (h.called x (List.mem_of_mem_erase hx))
  waits x hx := by
    obtain ⟨hne, hx⟩ := h.nodup.mem_erase_iff.mp hx
    have hwait := h.waits x hx
    rcases he with rfl | he
    · simpa [hne] using hwait
    · cases e <;> simp_all [Event.Quiet]
  abandoned x hx := by
    rcases List.mem_cons.mp hx with rfl | hx
    · rcases he with he | he
      · cases he
        exact List.mem_cons_of_mem _ (h.called _ hk)
      · exact he.elim
    · exact List.mem_cons_of_mem _ (h.abandoned x hx)

/-- The rule for a memory: an invariant has to survive the calls that it is told of. -/
theorem remembers {J : σ → List (Event κ) → Prop} (h0 : J m.empty [])
    (hquiet : ∀ {mem log e}, J mem log → Event.Quiet log e → J mem (e :: log))
    (hadd : ∀ {s k}, J s.memory s.log → ok s (.abandon k) → .abandon k ∉ s.log →
      J (m.add s.memory k) (.abandon k :: s.log))
    (htake : ∀ {mem log} k, J mem log → J ((m.take mem k).getD mem) (.respond k :: log))
    (h : (machine m).Reach ok s) : Orderly s ∧ J s.memory s.log := by
  have hnew : Orderly (machine m).init := ⟨.nil, by simp [machine], by simp [machine], by simp [machine]⟩
  refine h.invariant (I := fun s => Orderly s ∧ J s.memory s.log) ⟨hnew, h0⟩ ?_
  rintro s e s' - ⟨ho, hJ⟩ hok hstep
  cases e <;> simp only [machine, step] at hstep <;> split at hstep <;> cases hstep
  case call k hnew =>
    refine ⟨⟨List.nodup_cons.mpr ⟨fun hk => hnew (ho.called k hk), ho.nodup⟩, ?_, ?_, ?_⟩,
      hquiet hJ trivial⟩
    · simpa using fun x hx => .inr (ho.called x hx)
    · have hk : .abandon k ∉ s.log := fun hk => hnew (ho.abandoned k hk)
      simpa [hk] using ho.waits
    · simpa using fun x hx => .inr (ho.abandoned x hx)
  case unregister k hk => exact ⟨ho.erase hk (.inr (by trivial)), hquiet hJ trivial⟩
  case abandon k hk => exact ⟨ho.erase hk (.inl rfl), hadd hJ hok (ho.waits k hk)⟩
  case respond.isTrue k hk =>
    have hq : (Event.respond k).Quiet s.log := ho.waits k hk
    exact ⟨ho.erase hk (.inr hq), hquiet hJ hq⟩
  case respond.isFalse k _ =>
    refine ⟨⟨ho.nodup, ?_, ?_, ?_⟩, htake k hJ⟩
    · simpa using ho.called
    · simpa using ho.waits
    · simpa using ho.abandoned

theorem Orderly.classify (h : Orderly s) {k : κ} (hk : .abandon k ∈ s.log) :
    s.classify m k = .abandoned ↔ (m.take s.memory k).isSome := by
  have hne : k ∉ s.pending := fun hp => h.waits k hp hk
  rw [State.classify, if_neg hne]
  split <;> simp_all

theorem take_of_classify {k : κ} (h : s.classify m k = .abandoned) : (m.take s.memory k).isSome := by
  unfold State.classify at h
  split at h
  · cases h
  · split at h
    · assumption
    · cases h

/-! ## The map of Go -/

def goMemory (κ : Type) [DecidableEq κ] (K : Nat) : Memory κ (GoSet κ) where
  empty := ⟨[], []⟩
  add := GoSet.abandonCall K
  take := GoSet.take

/-- The map has exactly those of the last `K` abandoned calls whose response has not come. -/
structure GoOk (K : Nat) (s : GoSet κ) (log : List (Event κ)) : Prop where
  nodup : (abandons log).Nodup
  order : s.abandonedOrder = ((abandons log).take K).reverse
  known : ∀ k, k ∈ s.abandoned ↔ ∃ n < K, awaited log k = some n

variable {K : Nat}

/-- The key that an abandon drops is that of the `K`-th last abandoned call. -/
theorem GoOk.evicts {s : GoSet κ} {log : List (Event κ)} (h : GoOk K s log) (hK : 0 < K) :
    (if s.abandonedOrder.length ≥ K then s.abandonedOrder.head? else none) = (abandons log)[K - 1]? := by
  rw [h.order, List.length_reverse, List.length_take]
  split
  · rename_i hfull
    rw [List.head?_reverse, List.getLast?_eq_getElem?, List.length_take, List.getElem?_take,
      Nat.min_eq_left (by omega), if_pos (by omega)]
  · exact (List.getElem?_eq_none (by omega)).symm

theorem GoOk.add {s : GoSet κ} {log : List (Event κ)} (h : GoOk K s log) (hK : 0 < K) {k : κ}
    (hk : .abandon k ∉ log) : GoOk K (s.abandonCall K k) (.abandon k :: log) where
  nodup := List.nodup_cons.mpr ⟨fun hm => hk (mem_abandons.mp hm), h.nodup⟩
  order := by
    obtain ⟨K, rfl⟩ := Nat.exists_eq_add_of_lt hK
    simp only [GoSet.abandonCall, h.order, abandons, Nat.zero_add, List.take_succ_cons,
      List.reverse_cons, List.length_reverse, List.length_take]
    congr 1
    split
    · rename_i hfull
      have hlen : K + 1 ≤ (abandons log).length := Nat.le_trans hfull (Nat.min_le_right _ _)
      rw [List.tail_reverse, List.dropLast_eq_take, List.take_take, List.length_take,
        Nat.min_eq_left hlen, Nat.min_eq_left (Nat.sub_le _ _)]
      rfl
    · rw [List.take_of_length_le (by omega), List.take_of_length_le (by omega)]
  known x := by
    simp only [GoSet.abandonCall, h.evicts hK, List.mem_cons, List.mem_filter, decide_eq_true_eq,
      h.known, awaited]
    by_cases hx : k = x
    · simp [hx, hK]
    · simp only [Ne.symm hx, false_or, if_neg hx, Option.map_eq_some_iff, ne_eq, not_false_eq_true,
        true_and]
      constructor
      · rintro ⟨⟨n, hn, hw⟩, hne⟩
        have hlast : n ≠ K - 1 := by
          rintro rfl
          exact hne (abandons_awaited hw).symm
        exact ⟨n + 1, by omega, n, hw, rfl⟩
      · rintro ⟨_, hn, n, hw, rfl⟩
        refine ⟨⟨n, by omega, hw⟩, fun he => ?_⟩
        -- an abandoned key is in the list once, so it would be the one at `K - 1`
        obtain ⟨hlt, -⟩ := List.getElem?_eq_some_iff.mp he.symm
        have := (List.getElem?_inj hlt h.nodup).mp (he.symm.trans (abandons_awaited hw).symm)
        omega

theorem awaited_respond {log : List (Event κ)} {k x : κ} {n : Nat} :
    awaited (.respond k :: log) x = some n ↔ x ≠ k ∧ awaited log x = some n := by
  rw [awaited]
  split
  · rename_i h
    simp [h]
  · rename_i h
    simp [Ne.symm h]

theorem GoOk.take {s : GoSet κ} {log : List (Event κ)} (h : GoOk K s log) (k : κ) :
    GoOk K (((goMemory κ K).take s k).getD s) (.respond k :: log) := by
  have hmem : ∀ x, x ∈ (((goMemory κ K).take s k).getD s).abandoned ↔ x ∈ s.abandoned ∧ x ≠ k := by
    intro x
    simp only [goMemory, GoSet.take]
    split
    · simp
    · rename_i hk
      simp only [Option.getD_none, iff_self_and]
      rintro hx rfl
      exact hk hx
  refine ⟨h.nodup, ?_, fun x => ?_⟩
  · refine Eq.trans ?_ h.order
    simp only [goMemory, GoSet.take]
    split <;> rfl
  · rw [hmem, h.known]
    simp only [awaited_respond]
    grind -ring -linarith

theorem go_remembers {s : State κ (GoSet κ)} (hK : 0 < K) (h : (machine (goMemory κ K)).Reachable s) :
    Orderly s ∧ GoOk K s.memory s.log :=
  remembers (J := GoOk K) ⟨.nil, by simp [goMemory, abandons], by simp [goMemory, awaited]⟩
    (fun hJ hq => ⟨hq.same.1 ▸ hJ.nodup, hq.same.1 ▸ hJ.order, hq.same.2 ▸ hJ.known⟩)
    (fun hJ _ hk => hJ.add hK hk) (fun k hJ => hJ.take k) h

/-! ## The ring of C -/

structure CSet (κ : Type) where
  abandoned : Nat → κ
  head : Nat
  count : Nat

def CSet.at (K : Nat) (s : CSet κ) (i : Nat) : κ := s.abandoned ((s.head + i) % K)

def CSet.abandon (K : Nat) (s : CSet κ) (k : κ) : CSet κ :=
  let s := if s.count = K then { s with head := (s.head + 1) % K, count := s.count - 1 } else s
  { s with
    abandoned := Function.update s.abandoned ((s.head + s.count) % K) k
    count := s.count + 1 }

/-- `adv_take_abandoned_locked`. The newest entry goes where the key was. -/
def CSet.takeAbandoned (K : Nat) (s : CSet κ) (k : κ) : Option (CSet κ) :=
  ((List.range s.count).find? fun i => s.at K i = k).map fun i =>
    { s with
      abandoned := Function.update s.abandoned ((s.head + i) % K) (s.at K (s.count - 1))
      count := s.count - 1 }

/-- The array is not cleared before it is used. -/
def cMemory (K : Nat) (junk : Nat → κ) : Memory κ (CSet κ) where
  empty := ⟨junk, 0, 0⟩
  add := CSet.abandon K
  take := CSet.takeAbandoned K

omit [DecidableEq κ] in
theorem at_update {s : CSet κ} {i j n : Nat} (hi : i < K) (hj : j < K) (x : κ) :
    CSet.at K ⟨Function.update s.abandoned ((s.head + i) % K) x, s.head, n⟩ j =
      if j = i then x else s.at K j := by
  change Function.update _ _ _ _ = _
  by_cases h : j = i
  · simp [h]
  · have hne : (s.head + j) % K ≠ (s.head + i) % K := fun he =>
      h (Nat.add_left_cancel (mod_inj he (by omega) (by omega)))
    rw [Function.update_of_ne hne, if_neg h]
    rfl

/-- `roomy`: no call was abandoned while the array was full. -/
structure COk (K : Nat) (roomy : Prop) (s : CSet κ) (log : List (Event κ)) : Prop where
  fits : s.count ≤ K
  inj : ∀ {i j}, i < s.count → j < s.count → s.at K i = s.at K j → i = j
  only : ∀ {i}, i < s.count → ∃ n, awaited log (s.at K i) = some n
  all : roomy → ∀ {k n}, awaited log k = some n → ∃ i < s.count, s.at K i = k

variable {roomy : Prop} {c : CSet κ} {log : List (Event κ)}

theorem COk.evict (h : COk K roomy c log) (hfull : c.count = K) (hr : ¬roomy) :
    COk K roomy { c with head := (c.head + 1) % K, count := c.count - 1 } log := by
  have hat : ∀ i, CSet.at K { c with head := (c.head + 1) % K, count := c.count - 1 } i = c.at K (i + 1) := by
    intro i
    simp only [CSet.at, Nat.mod_add_mod]
    congr 2
    omega
  refine ⟨by dsimp only; omega, ?_, ?_, fun h => absurd h hr⟩
  · intro i j hi hj he
    dsimp only at hi hj
    rw [hat, hat] at he
    have := h.inj (i := i + 1) (j := j + 1) (by omega) (by omega) he
    omega
  · intro i hi
    dsimp only at hi
    rw [hat]
    exact h.only (by omega)

theorem COk.push (h : COk K roomy c log) (hroom : c.count < K) {k : κ} (hk : .abandon k ∉ log) :
    COk K roomy ⟨Function.update c.abandoned ((c.head + c.count) % K) k, c.head, c.count + 1⟩
      (.abandon k :: log) := by
  have hold : ∀ {i}, i < c.count → c.at K i ≠ k := by
    rintro i hi rfl
    obtain ⟨n, hn⟩ := h.only hi
    exact hk (abandon_of_awaited hn)
  refine ⟨hroom, ?_, ?_, ?_⟩
  · intro i j hi hj he
    dsimp only at hi hj
    rw [at_update hroom (by omega), at_update hroom (by omega)] at he
    have := @h.inj i j
    have := @hold i
    have := @hold j
    grind -ring -linarith
  · intro i hi
    dsimp only at hi
    rw [at_update hroom (by omega), awaited]
    split
    · exact ⟨0, by simp⟩
    · have hi' : i < c.count := by omega
      obtain ⟨n, hn⟩ := h.only hi'
      exact ⟨n + 1, by simp [Ne.symm (hold hi'), hn]⟩
  · intro hr x n hx
    rw [awaited] at hx
    split at hx
    · exact ⟨c.count, by simp, by rw [at_update hroom hroom, if_pos rfl]; assumption⟩
    · obtain ⟨n, hn, -⟩ := Option.map_eq_some_iff.mp hx
      obtain ⟨i, hi, rfl⟩ := h.all hr hn
      exact ⟨i, by dsimp only; omega, by rw [at_update hroom (by omega), if_neg (by omega)]⟩

theorem COk.add (h : COk K roomy c log) (hK : 0 < K) (hroom : roomy → c.count < K) {k : κ}
    (hk : .abandon k ∉ log) : COk K roomy (c.abandon K k) (.abandon k :: log) := by
  unfold CSet.abandon
  have := h.fits
  split
  · rename_i hfull
    exact (h.evict hfull fun hr => by have := hroom hr; omega).push (by dsimp only; omega) hk
  · exact h.push (by omega) hk

theorem takeAbandoned_isSome {k : κ} : (c.takeAbandoned K k).isSome ↔ ∃ i < c.count, c.at K i = k := by
  simp [CSet.takeAbandoned, List.find?_isSome]

theorem COk.take (h : COk K roomy c log) (k : κ) :
    COk K roomy ((c.takeAbandoned K k).getD c) (.respond k :: log) := by
  unfold CSet.takeAbandoned
  cases hf : (List.range c.count).find? fun i => c.at K i = k with
  | none =>
    have hnone : ∀ i, i < c.count → c.at K i ≠ k := by simpa using hf
    refine ⟨h.fits, h.inj, fun hi => ?_, fun hr _ _ hx => h.all hr (awaited_respond.mp hx).2⟩
    obtain ⟨n, hn⟩ := h.only hi
    exact ⟨n, awaited_respond.mpr ⟨hnone _ hi, hn⟩⟩
  | some i =>
    have hi : i < c.count := List.mem_range.mp (List.mem_of_find?_eq_some hf)
    have hk : c.at K i = k := by simpa using List.find?_some hf
    have hfits := h.fits
    have hat : ∀ {j}, j < c.count - 1 →
        CSet.at K ⟨Function.update c.abandoned ((c.head + i) % K) (c.at K (c.count - 1)), c.head,
          c.count - 1⟩ j = c.at K (if j = i then c.count - 1 else j) := by
      intro j hj
      rw [at_update (by omega) (by omega)]
      split <;> rfl
    refine ⟨by simp only [Option.map_some, Option.getD_some]; omega, ?_, ?_, ?_⟩ <;>
      simp only [Option.map_some, Option.getD_some]
    · intro a b ha hb he
      rw [hat ha, hat hb] at he
      have := h.inj (by split <;> omega) (by split <;> omega) he
      grind -ring -linarith
    · intro j hj
      rw [hat hj]
      obtain ⟨n, hn⟩ := h.only (i := if j = i then c.count - 1 else j) (by split <;> omega)
      refine ⟨n, awaited_respond.mpr ⟨fun he => ?_, hn⟩⟩
      have := h.inj (by split <;> omega) hi (he.trans hk.symm)
      split at this <;> omega
    · intro hr x n hx
      obtain ⟨hne, hx⟩ := awaited_respond.mp hx
      obtain ⟨j, hj, rfl⟩ := h.all hr hx
      have hij : j ≠ i := by
        rintro rfl
        exact hne hk
      by_cases hlast : j = c.count - 1
      · exact ⟨i, by omega, by rw [hat (by omega), if_pos rfl, hlast]⟩
      · exact ⟨j, by omega, by rw [hat (by omega), if_neg hij]⟩

theorem c_remembers (roomy : Prop) {junk : Nat → κ} (hK : 0 < K) {s : State κ (CSet κ)}
    {ok : State κ (CSet κ) → Event κ → Prop}
    (hok : ∀ {s k}, ok s (.abandon k) → roomy → s.memory.count < K)
    (h : (machine (cMemory K junk)).Reach ok s) : Orderly s ∧ COk K roomy s.memory s.log := by
  refine remembers ?_ ?_ (fun hJ ha hk => hJ.add hK (hok ha) hk) (fun k hJ => hJ.take k) h
  · exact ⟨Nat.zero_le _, by simp [cMemory], by simp [cMemory], by simp [awaited]⟩
  · exact fun hJ hq => ⟨hJ.fits, hJ.inj, hq.same.2 ▸ hJ.only, hq.same.2 ▸ hJ.all⟩

/-- No call is abandoned while the array is full. -/
def Roomy (K : Nat) (s : State κ (CSet κ)) : Event κ → Prop
  | .abandon _ => s.memory.count < K
  | _ => True

instance (K : Nat) (s : State κ (CSet κ)) (e : Event κ) : Decidable (Roomy K s e) := by
  cases e <;> unfold Roomy <;> infer_instance

/-- A response counts as abandoned only if its call was and no response came before, and always
if besides fewer than `K` calls were abandoned after it. -/
def Classifies (K : Nat) (m : Memory κ σ) (s : State κ σ) : Prop :=
  ∀ k, (s.classify m k = .abandoned → ∃ n, awaited s.log k = some n) ∧
    ∀ n < K, awaited s.log k = some n → s.classify m k = .abandoned

theorem COk.awaited {k : κ} (h : COk K roomy c log) (hk : (c.takeAbandoned K k).isSome) :
    ∃ n, awaited log k = some n := by
  obtain ⟨i, hi, rfl⟩ := takeAbandoned_isSome.mp hk
  exact h.only hi

theorem late_responses_classified (K : Nat) (hK : 0 < K) (junk : Nat → κ) :
    (∀ s, (machine (goMemory κ K)).Reachable s → Classifies K (goMemory κ K) s) ∧
    (∀ s, (machine (cMemory K junk)).Reach (Roomy K) s → Classifies K (cMemory K junk) s) ∧
    ∀ s, (machine (cMemory K junk)).Reachable s →
      ∀ k, s.classify (cMemory K junk) k = .abandoned → ∃ n, awaited s.log k = some n := by
  refine ⟨fun s hs k => ?_, fun s hs k => ?_, fun s hs k hk => ?_⟩
  · obtain ⟨ho, hg⟩ := go_remembers hK hs
    have htake : ((goMemory κ K).take s.memory k).isSome ↔ ∃ n < K, awaited s.log k = some n := by
      rw [← hg.known]
      simp only [goMemory, GoSet.take]
      split <;> simp_all
    refine ⟨fun hk => ?_, fun n hn hw => ?_⟩
    · obtain ⟨n, -, hw⟩ := htake.mp (take_of_classify hk)
      exact ⟨n, hw⟩
    · exact (ho.classify (abandon_of_awaited hw)).mpr (htake.mpr ⟨n, hn, hw⟩)
  · obtain ⟨ho, hc⟩ := c_remembers True hK (fun h _ => h) hs
    refine ⟨fun hk => hc.awaited (take_of_classify hk), fun n _ hw => ?_⟩
    exact (ho.classify (abandon_of_awaited hw)).mpr (takeAbandoned_isSome.mpr (hc.all trivial hw))
  · obtain ⟨-, hc⟩ := c_remembers False hK (fun _ h => h.elim) hs
    exact hc.awaited (take_of_classify hk)

theorem late_responses_classified_two :
    ∃ s, (machine (cMemory 2 fun _ => 0)).Reach (Roomy 2) s ∧ awaited s.log 1 = some 1 ∧
      s.classify (cMemory 2 fun _ => 0) 1 = .abandoned :=
  Machine.exists_reach_and [.call 1, .call 2, .abandon 1, .abandon 2] (by decide +kernel) fun s hs hw =>
    ((late_responses_classified 2 (by decide) fun _ => 0).2.1 s hs 1).2 1 (by decide) hw

/-- The response to call 1 moves the entry of call 3 to the head, where the next abandon that
finds the array full drops it. -/
theorem moved_entry_forgotten :
    ∃ s, (machine (cMemory 3 fun _ => 0)).Reachable s ∧ awaited s.log 3 = some 2 ∧
      s.classify (cMemory 3 fun _ => 0) 3 = .unmatched :=
  Machine.exists_reachable
    [.call 1, .call 2, .call 3, .call 4, .call 5, .abandon 1, .abandon 2, .abandon 3, .respond 1,
      .abandon 4, .abandon 5]
    (by decide +kernel)

end Hqq.Late
