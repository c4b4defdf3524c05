import Hqq.Listener.Record
import Hqq.Listener.Recovery

/-!
# What the acceptor dispatches

The dispatcher copies a record out of its slot, releases the slot and validates the copy. Nothing
clears the slot, so a recovered slot delivers whatever its words hold.
-/

namespace Hqq.Listener

open Hqq.Ring (Mem Elem Pc Advances)

def listener (pf : Platform) (lim : Limits) (size : Word) (timeout : Int) :
    Setup Word Request 31 :=
  ⟨size, timeout, conforming pf lim⟩

variable {Cid : Type} {pf : Platform} {lim : Limits} {size : Word} {timeout : Int} {base : Nat}
  {s s' : State Cid Word 31} {σ : Nat → Nat} {m : Mem Word 31}

/-! ## What a run has to avoid -/

/-- A client whose slot was recovered stores nothing into it. -/
def StaysAway (s : State Cid Word 31) : Act Cid Word Request 31 → Prop
  | .client c => (s.ring.pc (some c)).stores = true →
      s.ring.hist.loaded (some c) ∉ s.ring.hist.recovered
  | _ => True

def Sweep.target : Sweep → Option Word
  | .swap r => some r
  | _ => none

/-- The sweep only publishes a slot whose words are no valid record. -/
def RejectsStale (pf : Platform) (lim : Limits) (size : Word) (s : State Cid Word 31) :
    Act Cid Word Request 31 → Prop
  | .sweep => s.sweep.target.all fun r => s.ring.mem.seq (Ring.slot size r) != r ||
      (validate pf lim (decode (s.ring.mem.data (Ring.slot size r)))).isNone
  | _ => True

def Clean (pf : Platform) (lim : Limits) (size : Word) (s : State Cid Word 31)
    (a : Act Cid Word Request 31) : Prop :=
  Awake s a ∧ StaysAway s a ∧ RejectsStale pf lim size s a

instance (s : State Cid Word 31) : (a : Act Cid Word Request 31) → Decidable (StaysAway s a)
  | .client _ => inferInstanceAs (Decidable (_ → ¬ _))
  | .connect _ _ _ | .giveUp _ | .kill _ | .dispatch | .tick | .sweep =>
    inferInstanceAs (Decidable True)

instance (s : State Cid Word 31) :
    (a : Act Cid Word Request 31) → Decidable (RejectsStale pf lim size s a)
  | .sweep => inferInstanceAs (Decidable (_ = true))
  | .connect _ _ _ | .client _ | .giveUp _ | .kill _ | .dispatch | .tick =>
    inferInstanceAs (Decidable True)

instance (s : State Cid Word 31) (a : Act Cid Word Request 31) :
    Decidable (Clean pf lim size s a) :=
  inferInstanceAs (Decidable (_ ∧ _ ∧ _))

theorem Clean.timely {a : Act Cid Word Request 31} (h : Clean pf lim size s a) : Timely s a := by
  refine ⟨h.1, ?_⟩
  cases a with
  | client c => exact fun hs hr => absurd hr (h.2.1 hs)
  | _ => trivial

structure Records (pf : Platform) (lim : Limits) (size : Word) (base : Nat)
    (s : State Cid Word 31) : Prop where
  sending : ∀ c e, (s.ring.pc (some c)).payload = some e → ∃ q, conforming pf lim q e = true
  produced : ∀ p ∈ s.ring.hist.produced,
    (∃ c, p.1 = some c) ∧ ∃ q, conforming pf lim q p.2.2 = true
  waiting : ∀ n ∈ s.ring.hist.recovered, n ∉ s.ring.hist.delivered.map Prod.fst →
    validate pf lim (decode (s.ring.mem.data ((base + n) % size.toNat))) = none
  reading : ∀ pos got, s.ring.pc none = .read pos got →
    s.ring.hist.loaded none ∈ s.ring.hist.recovered → got =
      (List.ofFn (s.ring.mem.data ((base + s.ring.hist.loaded none) % size.toNat))).take got.length
  delivered : ∀ d ∈ s.ring.hist.delivered, d.1 ∈ s.ring.hist.recovered →
    ∃ e, d.2 = List.ofFn e ∧ validate pf lim (decode e) = none

theorem recovered_lap {ring : Ring.State (Option Cid) Word 31}
    (hi : Ring.Inv size base ring σ) {n : Nat} (hn : n ∈ ring.hist.recovered)
    (hd : n ∉ ring.hist.delivered.map Prod.fst) :
    n < ring.hist.produced.length ∧ ring.hist.produced.length ≤ n + size.toNat := by
  refine ⟨hi.hist.recovered_lt n hn, ?_⟩
  rcases Nat.lt_or_ge n ring.hist.consumed.length with hlt | hge
  · obtain ⟨t, pos, got, hpc, hl⟩ := (hi.reading n hlt).resolve_left hd
    have := hi.holds t
    simp only [hpc, Ring.Holds, hl] at this
    exact this.2.2.2.1
  · have := hi.room
    omega

theorem undelivered_of_reading {ring : Ring.State (Option Cid) Word 31} {t : Option Cid}
    (hi : Ring.Inv size base ring σ) {pos : Word} {got : List Word}
    (hpc : ring.pc t = .read pos got) :
    ring.hist.loaded t ∉ ring.hist.delivered.map Prod.fst ∧
      ring.hist.loaded t < ring.hist.consumed.length ∧ pos = word (base + ring.hist.loaded t) := by
  have := hi.holds t
  simp only [hpc, Ring.Holds] at this
  exact ⟨this.2.2.2.2.1, Ring.lt_of_getElem? this.2.1, this.1⟩

theorem Records.client (hr : Records pf lim size base s) (hi : Ring.Inv size base s.ring σ)
    {c : Cid} {ring : Ring.State (Option Cid) Word 31} (haway : (s.ring.pc (some c)).stores = true →
      s.ring.hist.loaded (some c) ∉ s.ring.hist.recovered)
    (hstep : Ring.ProducerStep (some c) s.ring ring) (hsends : Ring.Sends size (some c) s.ring ring) :
    Records pf lim size base { s with ring } := by
  -- The slots of recovered positions are not written.
  have hdata : ∀ n ∈ s.ring.hist.recovered, n ∉ s.ring.hist.delivered.map Prod.fst →
      ring.mem.data ((base + n) % size.toNat) = s.ring.mem.data ((base + n) % size.toNat) := by
    intro n hn hd
    rcases hsends.data_eq with h | ⟨e, pos, i, hpc, h⟩
    · rw [h]
    · have hnot := haway (by rw [hpc]; rfl)
      obtain ⟨hlt, hlap, -⟩ := hi.writer hpc fun _ hrec => absurd hrec hnot
      have hw := hi.holds (some c)
      simp only [hpc, Ring.Holds] at hw
      obtain ⟨hnlt, hnlap⟩ := recovered_lap hi hn hd
      refine h _ fun hslot => ?_
      rw [hw.1, Ring.slot_word hi.size_ok] at hslot
      exact hnot (Ring.lap_inj hnlt hnlap hlt hlap hslot ▸ hn)
  refine ⟨?_, ?_, ?_, ?_, ?_⟩
  · intro c' e he
    rcases eq_or_ne c' c with rfl | hne
    · exact hr.sending c' e (hsends.payload_of e he)
    · exact hr.sending c' e (hstep.pc_eq (some c') (by simpa using hne) ▸ he)
  · intro p hp
    rcases hsends.produced_eq with h | ⟨pos, e, he, h⟩
    · exact hr.produced p (h ▸ hp)
    · rcases List.mem_append.mp (h ▸ hp) with hp | hp
      · exact hr.produced p hp
      · obtain rfl := List.mem_singleton.mp hp
        exact ⟨⟨c, rfl⟩, hr.sending c e he⟩
  · intro n hn hd
    rw [show ring.hist.recovered = _ from hstep.recovered_eq] at hn
    rw [show ring.hist.delivered = _ from hstep.delivered_eq] at hd
    rw [show ({ s with ring } : State Cid Word 31).ring.mem.data _ = _ from hdata n hn hd]
    exact hr.waiting n hn hd
  · intro pos got hpc hrec
    replace hpc : s.ring.pc none = .read pos got := hstep.pc_eq none (by simp) ▸ hpc
    have hl : ring.hist.loaded none = s.ring.hist.loaded none := hstep.loaded_eq none (by simp)
    change ring.hist.loaded none ∈ ring.hist.recovered at hrec
    change got = (List.ofFn (ring.mem.data ((base + ring.hist.loaded none) % size.toNat))).take _
    rw [hl, hstep.recovered_eq] at hrec
    rw [hl, hdata _ hrec (undelivered_of_reading hi hpc).1]
    exact hr.reading pos got hpc hrec
  · intro d hd hrec
    rw [show ring.hist.recovered = _ from hstep.recovered_eq] at hrec
    rw [show ring.hist.delivered = _ from hstep.delivered_eq] at hd
    exact hr.delivered d hd hrec

theorem Records.dispatcher (hr : Records pf lim size base s) (hi : Ring.Inv size base s.ring σ)
    {ring : Ring.State (Option Cid) Word 31}
    (hstep : Ring.ConsumerStep none s.ring ring) (hrecv : Ring.Receives size none s.ring ring) :
    Records pf lim size base { s with ring } := by
  refine ⟨?_, ?_, ?_, ?_, ?_⟩
  · intro c e he
    exact hr.sending c e (hstep.pc_eq (some c) (by simp) ▸ he)
  · intro p hp
    rw [show ring.hist.produced = _ from hstep.produced_eq] at hp
    exact hr.produced p hp
  · intro n hn hd
    rw [show ring.hist.recovered = _ from hstep.recovered_eq] at hn
    rw [show ({ s with ring } : State Cid Word 31).ring.mem.data = _ from hrecv.data_eq]
    refine hr.waiting n hn fun h => hd ?_
    rcases hrecv.delivered_eq with heq | ⟨pos, got, -, -, -, heq⟩
    · rw [show ring.hist.delivered = _ from heq]; exact h
    · rw [show ring.hist.delivered = _ from heq, List.map_append]
      exact List.mem_append_left _ h
  · intro pos got hpc hrec
    change ring.hist.loaded none ∈ ring.hist.recovered at hrec
    change got = (List.ofFn (ring.mem.data ((base + ring.hist.loaded none) % size.toNat))).take _
    rw [hstep.recovered_eq] at hrec
    rcases hrecv.read_of pos got hpc with rfl | ⟨got', hlt, hpc', hl, rfl⟩
    · simp
    · rw [hl] at hrec ⊢
      rw [hrecv.data_eq, (undelivered_of_reading hi hpc').2.2, Ring.slot_word hi.size_ok]
      exact Ring.take_ofFn_append _ hlt (hr.reading pos got' hpc' hrec)
  · intro d hd hrec
    rw [show ring.hist.recovered = _ from hstep.recovered_eq] at hrec
    rcases hrecv.delivered_eq with heq | ⟨pos, got, hpc, hlen, -, heq⟩
    · exact hr.delivered d (heq ▸ hd) hrec
    · rcases List.mem_append.mp (heq ▸ hd) with hd | hd
      · exact hr.delivered d hd hrec
      · obtain rfl := List.mem_singleton.mp hd
        have hgot := hr.reading pos got hpc hrec
        rw [List.take_of_length_le (by simpa using hlen)] at hgot
        exact ⟨_, hgot, hr.waiting _ hrec (undelivered_of_reading hi hpc).1⟩

theorem Records.sweep (hr : Records pf lim size base s)
    (hi : Inv (listener pf lim size timeout) base s σ)
    (hawake : Awake s (.sweep : Act Cid Word Request 31))
    (hstale : RejectsStale pf lim size s .sweep)
    (h : sweepNext (listener pf lim size timeout) s = some s') :
    Records pf lim size base s' := by
  have hk := hi.sweep
  unfold sweepNext at h
  cases hp : s.sweep with
  | idle =>
    simp only [hp] at h
    split_ifs at h
    cases h
    exact ⟨hr.sending, hr.produced, hr.waiting, hr.reading, hr.delivered⟩
  | loadW now r =>
    simp only [hp, Option.some.injEq] at h
    subst h
    exact ⟨hr.sending, hr.produced, hr.waiting, hr.reading, hr.delivered⟩
  | loadSeq now r w =>
    simp only [hp] at h
    split_ifs at h <;> cases h
    all_goals exact ⟨hr.sending, hr.produced, hr.waiting, hr.reading, hr.delivered⟩
  | swap r =>
    simp only [hp, Sweep.Knows] at h hk
    obtain ⟨hpos, hle, hlt⟩ := hk
    split_ifs at h with hseq <;> cases h
    · have hbad : validate pf lim (decode (s.ring.mem.data (Ring.slot size r))) = none := by
        simp only [RejectsStale, hp, Sweep.target, Option.all_some, Bool.or_eq_true, bne_iff_ne,
          Option.isNone_iff_eq_none] at hstale
        exact hstale.resolve_left (not_not.mpr hseq)
      rw [hpos, show Ring.slot size _ = _ from Ring.slot_word hi.ring.size_ok _] at hbad
      rw [hpos] at hseq
      obtain ⟨heq, -⟩ := hi.stuck hle (hawake (by simp [hp])) hseq
      refine ⟨hr.sending, hr.produced, ?_, ?_, ?_⟩
      · intro n hn hd
        rcases List.mem_append.mp hn with hn | hn
        · exact hr.waiting n hn hd
        · obtain rfl := List.mem_singleton.mp hn
          exact hbad
      · intro pos got hpc hrec
        rcases List.mem_append.mp hrec with hrec | hrec
        · exact hr.reading pos got hpc hrec
        · have hlt := (undelivered_of_reading hi.ring hpc).2.1
          exact absurd (List.mem_singleton.mp hrec) (by change s.ring.hist.loaded none ≠ _; omega)
      · intro d hd hrec
        rcases List.mem_append.mp hrec with hrec | hrec
        · exact hr.delivered d hd hrec
        · have hlt := hi.ring.hist.delivered_lt d hd
          exact absurd (List.mem_singleton.mp hrec) (by omega)
    · exact ⟨hr.sending, hr.produced, hr.waiting, hr.reading, hr.delivered⟩

variable [DecidableEq Cid]

theorem Records.of_step (hr : Records pf lim size base s)
    (hi : Inv (listener pf lim size timeout) base s σ)
    {a : Act Cid Word Request 31} (hclean : Clean pf lim size s a)
    (h : step (listener pf lim size timeout) s a = some s') : Records pf lim size base s' := by
  cases a with
  | connect c q e =>
    simp only [step] at h
    split_ifs at h with hok
    simp only [State.onRing, Option.map_eq_some_iff, Ring.step] at h
    obtain ⟨ring, hring, rfl⟩ := h
    split at hring <;> cases hring
    refine ⟨fun c' e' he => ?_, hr.produced, hr.waiting, ?_, hr.delivered⟩
    · rcases eq_or_ne c' c with rfl | hne
      · simp only [Ring.State.goto, Function.update_self, Ring.Pc.payload, Option.some.injEq] at he
        subst he
        simp only [listener, Bool.or_eq_true, Bool.not_eq_true', not_or, Bool.not_eq_false] at hok
        exact ⟨q, hok.2⟩
      · simp only [Ring.State.goto] at he
        rw [Function.update_of_ne (by simpa using hne)] at he
        exact hr.sending c' e' he
    · intro pos got hpc hrec
      simp only [Ring.State.goto] at hpc
      rw [Function.update_of_ne (by simp)] at hpc
      exact hr.reading pos got hpc hrec
  | client c =>
    simp only [step] at h
    split_ifs at h
    simp only [State.onRing, Option.map_eq_some_iff] at h
    obtain ⟨ring, hring, rfl⟩ := h
    exact hr.client hi.ring hclean.2.1 (Ring.ProducerStep.of_next (hi.clients c) hring)
      (Ring.Sends.of_next (hi.clients c) hring)
  | giveUp c =>
    simp only [step] at h
    split_ifs at h
    simp only [State.onRing, Option.map_eq_some_iff, Ring.step] at h
    obtain ⟨ring, hring, rfl⟩ := h
    split at hring <;> simp only [Option.some.injEq, reduceCtorEq] at hring
    all_goals
      rename_i hpc
      subst hring
      refine hr.client hi.ring (fun hs => by simp [hpc, Ring.Pc.stores] at hs)
        ⟨Ring.Frame.goto (fun _ _ => rfl) rfl, by simp [Ring.State.goto, Ring.Pc.Producing], rfl, rfl,
          rfl, le_refl _⟩
        ⟨fun e he => by simp [Ring.State.goto, Ring.Pc.payload] at he, Or.inl rfl, Or.inl rfl⟩
  | kill c =>
    simp only [step, Option.some.injEq] at h
    subst h
    exact ⟨hr.sending, hr.produced, hr.waiting, hr.reading, hr.delivered⟩
  | dispatch =>
    obtain ⟨hstep, heq, -⟩ := hi.of_dispatch h
    rw [heq]
    refine hr.dispatcher hi.ring hstep ?_
    cases hpc : s.ring.pc none with
    | idle =>
      simp only [step, hpc, State.onRing, Option.map_eq_some_iff, Ring.step, Option.some.injEq] at h
      obtain ⟨ring, rfl, rfl⟩ := h
      exact ⟨rfl, Or.inl rfl, fun pos got hread => by simp [Ring.State.goto] at hread⟩
    | _ =>
      simp only [step, hpc, State.onRing, Option.map_eq_some_iff] at h
      obtain ⟨ring, hring, rfl⟩ := h
      exact Ring.Receives.of_next hi.dispatcher hring
  | tick =>
    simp only [step, Option.some.injEq] at h
    subst h
    exact ⟨hr.sending, hr.produced, hr.waiting, hr.reading, hr.delivered⟩
  | sweep => exact hr.sweep hi hclean.1 hclean.2.2 h

theorem Records.start : Records pf lim size base
    (machine Cid (listener pf lim size timeout) m).init := by
  constructor <;> simp [machine, Ring.machine, Ring.Pc.payload]

structure DispatchedOnce (pf : Platform) (lim : Limits) (s : State Cid Word 31) : Prop where
  /-- A recovered slot gives a record that fails validation. -/
  recovered_rejected : ∀ d ∈ s.ring.hist.delivered, d.1 ∈ s.ring.hist.recovered →
    ∃ e, d.2 = List.ofFn e ∧ validate pf lim (decode e) = none
  own_record : ∀ d ∈ s.ring.hist.delivered, d.1 ∉ s.ring.hist.recovered → ∃ c pos q e,
    s.ring.hist.produced[d.1]? = some (some c, pos, e) ∧ conforming pf lim q e = true ∧
    d.2 = List.ofFn e
  /-- A record that one client enqueued, once, is dispatched at most once. -/
  once : ∀ n t pos e, s.ring.hist.produced[n]? = some (t, pos, e) →
    (∀ (n' : Nat) t' pos', s.ring.hist.produced[n']? = some (t', pos', e) → n' = n) →
    s.ring.hist.delivered.countP (fun d => d.2 = List.ofFn e) ≤ 1

theorem countP_le_one {l : List (Nat × List Word)} (hl : (l.map Prod.fst).Nodup) {n : Nat}
    {p : Nat × List Word → Bool} (hp : ∀ d ∈ l, p d = true → d.1 = n) : l.countP p ≤ 1 := by
  calc l.countP p ≤ l.countP (fun d => d.1 == n) :=
        List.countP_mono_left fun d hd h => by simpa using hp d hd h
    _ = (l.map Prod.fst).count n := by rw [List.count, List.countP_map]; rfl
    _ ≤ 1 := List.nodup_iff_count_le_one.mp hl n

/-- Clients keep away from recovered slots, and a slot is recovered only while its words are no
valid record. -/
theorem dispatched_once (hsize : Ring.validRingSize size = true) (hstart : Ring.StartsAt size base m)
    (hs : (machine Cid (listener pf lim size timeout) m).Reach (Clean pf lim size) s) :
    DispatchedOnce pf lim s := by
  obtain ⟨⟨σ, hi⟩, hr⟩ : (∃ σ, Inv (listener pf lim size timeout) base s σ) ∧
      Records pf lim size base s := by
    refine hs.invariant (I := fun s => (∃ σ, Inv (listener pf lim size timeout) base s σ) ∧
      Records pf lim size base s) ⟨⟨_, Inv.start hsize hstart⟩, Records.start⟩ ?_
    rintro s a s' - ⟨⟨σ, hi⟩, hr⟩ hclean hstep
    obtain ⟨hawake, htime⟩ := hclean.timely
    obtain ⟨σ', -, hi'⟩ := hi.of_step hawake htime hstep
    exact ⟨⟨σ', hi'⟩, hr.of_step hi hclean hstep⟩
  have hown : ∀ d ∈ s.ring.hist.delivered, d.1 ∉ s.ring.hist.recovered → ∃ c pos q e,
      s.ring.hist.produced[d.1]? = some (some c, pos, e) ∧ conforming pf lim q e = true ∧
      d.2 = List.ofFn e := by
    intro d hd hrec
    obtain ⟨t, pos, e, hprod, heq⟩ := hi.ring.hist.delivered_eq d hd hrec
    obtain ⟨⟨c, rfl⟩, q, hq⟩ := hr.produced _ (List.mem_of_getElem? hprod)
    exact ⟨c, pos, q, e, hprod, hq, heq⟩
  refine ⟨hr.delivered, hown, fun n t pos e hprod huniq => ?_⟩
  refine countP_le_one hi.ring.hist.delivered_nodup (n := n) fun d hd heq => ?_
  simp only [decide_eq_true_eq] at heq
  -- The record is valid, so it did not come from a recovered slot.
  have hnot : d.1 ∉ s.ring.hist.recovered := by
    intro hrec
    obtain ⟨e', he', hbad⟩ := hr.delivered d hd hrec
    obtain rfl := List.ofFn_injective (he'.symm.trans heq)
    obtain ⟨-, q, hq⟩ := hr.produced _ (List.mem_of_getElem? hprod)
    simp [validate_conforming hq] at hbad
  obtain ⟨c, pos', q, e', hprod', -, he'⟩ := hown d hd hnot
  obtain rfl := List.ofFn_injective (he'.symm.trans heq)
  exact huniq _ _ _ hprod'

def plain : Platform := ⟨64, 4096⟩

def wide : Limits := ⟨4096, 1 <<< 20, 256 <<< 20, [46]⟩

def client (n : Nat) : Request := ⟨2, 8, 0, 0, word (n + 2), word n⟩

/-- The memory of the record of `client n`, for `n` below 10. Its name is `.n00000000000000n`. -/
def record (n : Nat) : Elem Word 31
  | 0 => word (n + 2)
  | 1 => 2
  | 2 => 8
  | 5 => 17
  | 8 => 0x303030303030002e + word (256 * (48 + n))
  | 9 => 0x3030303030303030
  | 10 => word (48 + n)
  | _ => 0

def twoSlots : Setup Word Request 31 := listener plain wide 2 1

def zeroRing : Mem Word 31 := Ring.format 0 2 ⟨0, 0, fun _ => 0, fun _ _ => 0⟩

def serve (n : Nat) : List (Act Nat Word Request 31) :=
  .connect n (client n) (record n) :: List.replicate 35 (.client n) ++ List.replicate 36 .dispatch

def stall (n : Nat) : List (Act Nat Word Request 31) :=
  .connect n (client n) (record n) :: List.replicate 3 (.client n) ++
  [.sweep, .sweep, .sweep, .tick, .sweep, .sweep, .sweep, .sweep] ++ List.replicate 36 .dispatch

theorem dispatched_once_first_lap : ∃ s, (machine Nat twoSlots zeroRing).runWith (Clean plain wide 2)
      (machine Nat twoSlots zeroRing).init (stall 0 ++ serve 1) = some s ∧
    s.ring.hist.recovered = [0] ∧ s.ring.hist.delivered.map Prod.fst = [0, 1] ∧
    DispatchedOnce plain wide s := by
  have hrun : ((machine Nat twoSlots zeroRing).runWith (Clean plain wide 2)
      (machine Nat twoSlots zeroRing).init (stall 0 ++ serve 1)).map
      (fun s => (s.ring.hist.recovered, s.ring.hist.delivered.map Prod.fst)) =
        some ([0], [0, 1]) := by
    decide +kernel
  obtain ⟨s, hs, heq⟩ := Option.map_eq_some_iff.mp hrun
  simp only [Prod.mk.injEq] at heq
  exact ⟨s, hs, heq.1, heq.2, dispatched_once (by decide) (Ring.format_startsAt 0 _)
    (Machine.Reach.runWith .init hs)⟩

/-- On the second lap the recovered slot still holds the record of the first one. The acceptor
dispatches it again, and it is valid. -/
theorem stale_record_dispatched_again : ∃ s, (machine Nat twoSlots zeroRing).Reachable s ∧
    s.ring.hist.recovered = [2] ∧
    s.ring.hist.delivered =
      [(0, List.ofFn (record 0)), (1, List.ofFn (record 1)), (2, List.ofFn (record 0))] ∧
    (validate plain wide (decode (record 0))).isSome = true := by
  have hrun : ((machine Nat twoSlots zeroRing).runFrom (machine Nat twoSlots zeroRing).init
      (serve 0 ++ serve 1 ++ stall 2)).map
      (fun s => (s.ring.hist.recovered, s.ring.hist.delivered)) = some ([2],
        [(0, List.ofFn (record 0)), (1, List.ofFn (record 1)), (2, List.ofFn (record 0))]) := by
    decide +kernel
  obtain ⟨s, hs, heq⟩ := Option.map_eq_some_iff.mp hrun
  simp only [Prod.mk.injEq] at heq
  exact ⟨s, Machine.Reachable.runFrom .init _ hs, heq.1, heq.2, by decide +kernel⟩

end Hqq.Listener
