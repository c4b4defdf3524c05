import Hqq.Streams.Answers

/-!
# The tokens of the accept queue

The same endpoint on a link that may fail. A token is then given back by the control sender.
-/

namespace Hqq.Streams

/-- `failed` is an accept that could not be sent, and whether its stream was forgotten already. -/
structure Failing where
  link : Alone
  failed : Option (Ref × Bool)

inductive FailAct where
  | base (a : AloneAct)
  | sendFails
  | forgetFailed
  | releaseFailed
  | answerClosed
  | admitClosed
  | holdClosed
  | discardHeld

def Failing.ep (s : Failing) : Endpoint := s.link.ep

def Failing.set (s : Failing) (e : Endpoint) : Failing := { s with link := { s.link with ep := e } }

def failStep (mode : LinkMode) (cfg : Config) (s : Failing) : FailAct → Option Failing
  | .base a =>
    -- the sender is busy with the failed job
    if a = .act .pop ∧ s.failed.isSome then none
    else ((aloneMachine mode cfg).step s.link a).map fun l => { s with link := l }
  | .sendFails =>
    match s.ep.sender with
    | .sending (.accept st) => some { s.set { s.ep with sender := .idle } with failed := some (st, false) }
    | .sending _ => some (s.set { s.ep with sender := .idle })
    | _ => none
  | .forgetFailed =>
    match s.failed, s.ep.lock with
    | some (st, false), .free => some { s.set (s.ep.forget st.id) with failed := some (st, true) }
    | _, _ => none
  | .releaseFailed =>
    match s.failed with
    | some (_, true) => some { s.set { s.ep with acceptSlots := s.ep.acceptSlots - 1 } with failed := none }
    | _ => none
  | .answerClosed =>
    match s.ep.rx with
    | .accepting st => some (s.set { s.ep with rx := .forgetting st .unslot })
    | .refusing _ _ => some (s.set { s.ep with rx := .idle })
    | _ => none
  | .admitClosed =>
    match s.ep.lock with
    | .slotted _ rest => some (s.set { s.ep with lock := .unslotting rest })
    | .releasing (_ :: rest) => some (s.set { s.ep with lock := .releasing rest })
    | .admitting (id :: rest) =>
      if s.ep.invalid mode id ∨ cfg.queueSize ≤ s.ep.acceptSlots then
        some (s.set { s.ep with lock := .admitting rest })
      else none
    | _ => none
  | .holdClosed =>
    match s.ep.rx, s.ep.lock with
    | .handling (.connCreate id), .free =>
      if s.ep.listening then none else some (s.set { s.ep with rx := .refusing id .connNotFound })
    | _, _ => none
  | .discardHeld => if s.ep.lock = .free then some (s.set { s.ep with held := [] }) else none

def failMachine (mode : LinkMode) (cfg : Config) : Machine Failing FailAct where
  init := ⟨⟨[], .fresh⟩, none⟩
  step := failStep mode cfg

/-! ## Room for the held creates -/

def Lock.admits : Lock → Nat
  | .admitting rest | .slotted _ rest | .unslotting rest => rest.length
  | .free | .releasing _ => 0

/-- The receive path has a create of its own, which takes a token, has it or gives it back. -/
def Rx.creates : Rx → Bool
  | .reserving _ | .accepting _ | .forgetting _ .unslot | .unslotting => true
  | _ => false

structure Endpoint.Bounded (cfg : Config) (e : Endpoint) : Prop where
  listens : e.listening = true → e.held = []
  creates : e.rx.creates = true → e.held = [] ∧ e.lock.admits = 0 ∧ e.lock.slots = 0
  room : e.held.length + e.lock.admits + e.acceptSlots ≤ cfg.queueSize

variable {mode : LinkMode} {cfg : Config} {inc : Option Frame} {e e' : Endpoint} {a : Act}

theorem Endpoint.Bounded.receives (h : e.Bounded cfg) (hheld : e'.held = e.held)
    (hlisten : e'.listening = e.listening) (hlock : e'.lock = e.lock)
    (hslots : e'.acceptSlots ≤ e.acceptSlots)
    (hrx : e'.rx.creates = true → e.rx.creates = true) : e'.Bounded cfg := by
  refine ⟨by rw [hlisten, hheld]; exact h.listens, fun hc => ?_, ?_⟩
  · rw [hheld, hlock]
    exact h.creates (hrx hc)
  · have := h.room
    rw [hheld, hlock]
    omega

theorem Endpoint.Bounded.drops (h : e.Bounded cfg) (hheld : e'.held = [] ∨ e'.held = e.held)
    (hlisten : e'.listening = true → e.listening = true ∨ e'.held = []) (hrx : e'.rx = e.rx)
    (hslots : e'.lock.slots ≤ e.lock.slots) (hadmits : e'.lock.admits ≤ e.lock.admits)
    (htokens : e'.acceptSlots ≤ e.acceptSlots) : e'.Bounded cfg := by
  refine ⟨fun hl => ?_, fun hc => ?_, ?_⟩
  · rcases hlisten hl with hl | hl
    · rcases hheld with hh | hh
      · exact hh
      · rw [hh, h.listens hl]
    · exact hl
  · obtain ⟨h1, h2, h3⟩ := h.creates (hrx ▸ hc)
    exact ⟨hheld.elim id fun hh => hh.trans h1, by omega, by omega⟩
  · have := h.room
    rcases hheld with hh | hh <;> rw [hh]
    · simp only [List.length_nil]
      omega
    · omega

theorem Branch.bounded (h : Branch mode cfg inc e a e') (hb : e.Bounded cfg) : e'.Bounded cfg := by
  have hroom := hb.room
  cases h
  case hold hrx hlock hlisten hheld =>
    refine ⟨fun hl => absurd hl (by simp [hlisten]), (fun hf => by cases hf), ?_⟩
    simp only [hlock, Lock.admits, List.length_append, List.length_singleton] at hroom ⊢
    omega
  case create hrx hlock hlisten _ =>
    exact ⟨hb.listens, fun _ => ⟨hb.listens hlisten, by simp [hlock, Lock.admits],
      by simp [hlock, Lock.slots]⟩, hroom⟩
  case reserve hrx hfree =>
    obtain ⟨h1, h2, h3⟩ := hb.creates (by simp [hrx, Rx.creates])
    refine ⟨hb.listens, fun _ => ⟨h1, h2, h3⟩, ?_⟩
    simp only [h1, h2, List.length_nil]
    omega
  case listen hlock =>
    refine ⟨fun _ => rfl, fun hc => ?_, ?_⟩
    · exact ⟨rfl, by simp [Lock.admits, (hb.creates hc).1], rfl⟩
    · simp only [hlock, Lock.admits, List.length_nil] at hroom ⊢
      omega
  case admitSlot hlock _ _ =>
    refine ⟨hb.listens, fun hc => ?_, ?_⟩
    · have := (hb.creates hc).2.1
      simp [hlock, Lock.admits] at this
    · simp only [hlock, Lock.admits, List.length_cons] at hroom ⊢
      omega
  case expire hheld hlock =>
    have hlen := (perm_eraseIdx hheld).length_eq
    simp only [List.length_cons] at hlen
    have hne : e.held ≠ [] := by
      rintro hnil
      simp [hnil] at hheld
    refine ⟨fun hl => absurd (hb.listens hl) hne, fun hc => absurd (hb.creates hc).1 hne, ?_⟩
    dsimp only [Endpoint.enqueue]
    omega
  case releaseHeld hlock =>
    exact hb.drops (.inl rfl) (fun _ => .inr rfl) rfl (by simp [Lock.slots]) (by simp [Lock.admits]) le_rfl
  case admitDone hlock | releaseDone hlock | admitRefuse hlock | releaseRefuse hlock
      | admitAccept hlock _ | admitFull hlock _ =>
    exact hb.drops (.inr rfl) .inl rfl (by simp [hlock, Lock.slots]) (by simp [hlock, Lock.admits]) le_rfl
  case admitUnslot hlock =>
    exact hb.drops (.inr rfl) .inl rfl (by simp [hlock, Lock.slots]) (by simp [hlock, Lock.admits])
      (Nat.sub_le _ _)
  case unlisten => exact ⟨(fun hf => by cases hf), hb.creates, hroom⟩
  case forget next hrx _ =>
    refine hb.receives rfl rfl rfl le_rfl fun hc => ?_
    cases next <;> simp_all [Next.rx, Rx.creates]
  case answerFull hrx _ => exact hb.receives rfl rfl rfl le_rfl fun _ => by simp [hrx, Rx.creates]
  case unslot | releaseSlot => exact hb.receives rfl rfl rfl (Nat.sub_le _ _) (by simp [Rx.creates])
  all_goals first
    | exact hb.receives rfl rfl rfl le_rfl id
    | exact hb.receives rfl rfl rfl le_rfl fun hf => by cases hf

/-! ## Every token is in somebody's hands -/

def Failing.failedSlots (s : Failing) : Nat := if s.failed.isSome then 1 else 0

structure FailInv (cfg : Config) (s : Failing) : Prop where
  slots : s.ep.acceptSlots = s.ep.slots + s.failedSlots
  fits : s.ep.acceptSlots ≤ cfg.queueSize
  bounded : s.ep.Bounded cfg
  idle : s.failed.isSome → s.ep.sender = .idle

variable {s s' : Failing}

/-- A failure that only moves things around among those that the endpoint knows of. -/
theorem FailInv.set (h : FailInv cfg s) (hb : e.Bounded cfg) (htokens : e.acceptSlots = s.ep.acceptSlots)
    (hslots : e.slots = s.ep.slots) (hsender : e.sender = s.ep.sender) : FailInv cfg (s.set e) where
  slots := by
    change e.acceptSlots = e.slots + s.failedSlots
    rw [htokens, hslots]
    exact h.slots
  fits := htokens ▸ h.fits
  bounded := hb
  idle hf := hsender.trans (h.idle hf)

theorem Branch.sender_idle (h : Branch mode cfg inc e a e') (hpop : a ≠ .pop) (he : e.sender = .idle) :
    e'.sender = .idle := by
  cases h
  case pop => exact absurd rfl hpop
  case send hsender | deliver hsender => simp [he] at hsender
  all_goals exact he

theorem FailInv.of_step (h : FailInv cfg s) {b : FailAct} (hstep : failStep mode cfg s b = some s') :
    FailInv cfg s' := by
  have hslots := h.slots
  have hfits := h.fits
  cases b with
  | base b =>
    obtain ⟨hpop, hs⟩ := Option.ite_none_left_eq_some.mp hstep
    obtain ⟨l, hl, rfl⟩ := Option.map_eq_some_iff.mp hs
    cases b with
    | arrive f =>
      cases hl
      exact ⟨hslots, hfits, h.bounded, h.idle⟩
    | act a =>
      obtain ⟨e, he, rfl⟩ := Option.map_eq_some_iff.mp hl
      have hbranch := step_branch he
      obtain ⟨h1, h2⟩ := hbranch.slots_add hslots hfits
      refine ⟨h1, h2, hbranch.bounded h.bounded, fun hf => hbranch.sender_idle ?_ (h.idle hf)⟩
      rintro rfl
      exact hpop ⟨rfl, hf⟩
  | sendFails =>
    have hidle : Endpoint.slots { s.ep with sender := .idle } + s.ep.sender.slots = s.ep.slots := by
      simp only [Endpoint.slots, Sender.slots]
      omega
    simp only [failStep] at hstep
    split at hstep <;> cases hstep
    · rename_i st hsender
      have hnone : s.failedSlots = 0 := if_neg fun hf => by simp [h.idle hf] at hsender
      refine ⟨?_, hfits, h.bounded.receives rfl rfl rfl le_rfl id, fun _ => rfl⟩
      change s.ep.acceptSlots = Endpoint.slots { s.ep with sender := .idle } + 1
      rw [hsender] at hidle
      change _ + 1 = _ at hidle
      omega
    · rename_i job hjob hsender
      have hzero : s.ep.sender.slots = 0 := by
        rw [hsender]
        cases job
        case accept st => exact (hjob st rfl).elim
        all_goals rfl
      refine ⟨?_, hfits, h.bounded.receives rfl rfl rfl le_rfl id, fun _ => rfl⟩
      change s.ep.acceptSlots = Endpoint.slots { s.ep with sender := .idle } + s.failedSlots
      omega
  | forgetFailed =>
    simp only [failStep] at hstep
    split at hstep <;> cases hstep
    rename_i st hf _
    have hidle := h.idle (by simp [hf])
    simp only [Failing.failedSlots, hf, Option.isSome_some, if_true] at hslots
    exact ⟨hslots, hfits, h.bounded.receives rfl rfl rfl le_rfl id, fun _ => hidle⟩
  | releaseFailed =>
    simp only [failStep] at hstep
    split at hstep <;> cases hstep
    rename_i st hf
    simp only [Failing.failedSlots, hf, Option.isSome_some, if_true] at hslots
    refine ⟨?_, Nat.le_trans (Nat.sub_le _ _) hfits, h.bounded.receives rfl rfl rfl (Nat.sub_le _ _) id,
      fun hf => by cases hf⟩
    change s.ep.acceptSlots - 1 = s.ep.slots + 0
    omega
  | answerClosed =>
    simp only [failStep] at hstep
    split at hstep <;> cases hstep
    · rename_i st hrx
      refine h.set (h.bounded.receives rfl rfl rfl le_rfl fun _ => by simp [hrx, Rx.creates]) rfl ?_ rfl
      simp [Endpoint.slots, hrx, Rx.slots]
    · rename_i hrx
      refine h.set (h.bounded.receives rfl rfl rfl le_rfl fun hf => by cases hf) rfl ?_ rfl
      simp [Endpoint.slots, hrx, Rx.slots]
  | admitClosed =>
    have hshrink : ∀ {lock : Lock}, lock.slots = s.ep.lock.slots → lock.admits ≤ s.ep.lock.admits →
        FailInv cfg (s.set { s.ep with lock := lock }) := fun {lock} h1 h2 =>
      h.set (h.bounded.drops (.inr rfl) .inl rfl (le_of_eq h1) h2 le_rfl) rfl
        (by simp [Endpoint.slots, h1]) rfl
    simp only [failStep] at hstep
    split at hstep
    · cases hstep
      exact hshrink (by simp [*, Lock.slots]) (by simp [*, Lock.admits])
    · cases hstep
      exact hshrink (by simp [*, Lock.slots]) (by simp [*, Lock.admits])
    · split at hstep <;> cases hstep
      exact hshrink (by simp [*, Lock.slots]) (by simp [*, Lock.admits])
    · cases hstep
  | holdClosed =>
    simp only [failStep] at hstep
    split at hstep
    · split at hstep <;> cases hstep
      refine h.set (h.bounded.receives rfl rfl rfl le_rfl fun hf => by cases hf) rfl ?_ rfl
      simp [*, Endpoint.slots, Rx.slots]
    · cases hstep
  | discardHeld =>
    obtain ⟨hlock, rfl⟩ := Machine.of_guard hstep
    exact h.set (h.bounded.drops (.inl rfl) .inl rfl le_rfl le_rfl le_rfl) rfl rfl rfl

/-- The tokens, by who has them. -/
structure SlotsSound (cfg : Config) (s : Failing) : Prop where
  count : s.ep.acceptSlots = (s.ep.ctrlQueue.countP Job.accepts + (s.ep.sender.slots + s.failedSlots) +
    s.ep.acceptCh.length) + s.ep.returning.length + (s.ep.rx.slots + s.ep.lock.slots)
  one : s.ep.rx.slots + s.ep.lock.slots ≤ 1
  held : s.ep.listening = false → s.ep.held.length + s.ep.acceptSlots ≤ cfg.queueSize
  delivers : ∀ st, s.ep.sender = .delivering st → s.ep.acceptCh.length < cfg.queueSize
  admits : ∀ id rest, s.ep.lock = .admitting (id :: rest) → s.ep.acceptSlots < cfg.queueSize
  releases : s.ep.rx = .unslotting ∨ (∃ rest, s.ep.lock = .unslotting rest) ∨ s.ep.returning ≠ [] ∨
    s.failed.isSome → 0 < s.ep.acceptSlots

theorem accept_tokens_accounted (mode : LinkMode) (cfg : Config)
    (h : (failMachine mode cfg).Reachable s) : SlotsSound cfg s := by
  have hinv : FailInv cfg s := by
    refine h.invariant ⟨rfl, Nat.zero_le _, ⟨fun _ => rfl, nofun, Nat.zero_le _⟩, nofun⟩ ?_
    exact fun s b s' _ hi _ hstep => hi.of_step hstep
  have hslots := hinv.slots
  have hroom := hinv.bounded.room
  unfold Endpoint.slots at hslots
  refine ⟨by omega, ?_, fun _ => by omega, fun st hst => ?_, fun id rest hlock => ?_, ?_⟩
  · by_cases hc : s.ep.rx.creates = true
    · rw [(hinv.bounded.creates hc).2.2]
      unfold Rx.slots
      split <;> omega
    · have hzero : s.ep.rx.slots = 0 := by
        cases hrx : s.ep.rx <;> simp_all [Rx.creates, Rx.slots]
        split <;> simp_all
      rw [hzero]
      unfold Lock.slots
      split <;> omega
  · simp only [hst, Sender.slots] at hslots
    omega
  · simp only [hlock, Lock.admits, List.length_cons] at hroom
    omega
  · rintro (hrx | ⟨rest, hlock⟩ | hret | hf)
    · simp only [hrx, Rx.slots] at hslots
      omega
    · simp only [hlock, Lock.slots] at hslots
      omega
    · have := List.length_pos_iff.mpr hret
      omega
    · simp only [Failing.failedSlots, hf, if_true] at hslots
      omega

theorem accept_tokens_accounted_failed :
    ∃ s, (failMachine .primary ⟨.block, 1, by decide, 1, by decide, true⟩).Reachable s ∧
      s.failed.isSome ∧ 0 < s.ep.acceptSlots := by
  obtain ⟨s, hs, hf⟩ := Machine.exists_reachable
    (m := failMachine .primary ⟨.block, 1, by decide, 1, by decide, true⟩)
    (P := fun s => s.failed.isSome = true)
    (FailAct.base (.arrive (.connCreate 1)) ::
      ([Act.startDispatcher, .enter .dispatcher, .dequeue, .handle, .listen, .admitHeld, .admitHeld, .pop].map
        fun a => FailAct.base (.act a)) ++ [.sendFails])
    (by decide +kernel)
  exact ⟨s, hs, hf, (accept_tokens_accounted _ _ hs).releases (.inr (.inr (.inr hf)))⟩

end Hqq.Streams
