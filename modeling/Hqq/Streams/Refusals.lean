import Hqq.Streams.Agreement

/-!
# Late refusals

`routeControlError` returns an error when nobody waits for the refusal.
-/

namespace Hqq.Streams

open OneStream

/-! ## Why the receive path fails -/

/-- The error that the receive path returns, or is about to. -/
def Rx.fault : Rx → Option Failure
  | .failed why | .forgetting _ (.fail why) => some why
  | _ => none

/-- An `OverflowFail` queue is full, or the context of the `Recv` itself ended. -/
def Excused (cfg : Config) (receiver : Option Who) (why : Failure) : Prop :=
  (why = .overflow ∧ cfg.overflow = .fail) ∨ (why = .context ∧ receiver = some .sync)

theorem Branch.fault {mode : LinkMode} {cfg : Config} {inc : Option Frame} {e e' : Endpoint} {a : Act}
    (h : Branch mode cfg inc e a e')
    (hold : ∀ why, e.rx.fault = some why → Excused cfg e.receiver why) {why : Failure}
    (hf : e'.rx.fault = some why) : Excused cfg e'.receiver why ∨
      ∃ id code, e.rx = .handling (.error id code) ∧ e.pendingConnections id = none := by
  cases h
  case errorUnknown id code hrx _ hpend => exact .inr ⟨id, code, hrx, hpend⟩
  case reserveFail hpolicy =>
    cases hf
    exact .inl (.inl ⟨rfl, hpolicy⟩)
  case ctxDone hwho _ =>
    cases hf
    exact .inl (.inr ⟨rfl, hwho⟩)
  case forget next hrx _ =>
    refine .inl (hold why ?_)
    rw [hrx]
    cases next <;> exact hf
  case enter who hfree =>
    rcases hold why hf with hover | ⟨-, hsync⟩
    · exact .inl (.inl hover)
    · simp [hfree] at hsync
  case leave hrx _ =>
    rw [hrx] at hf
    cases hf
  all_goals first | exact .inl (hold why hf) | cases hf

/-! ## Whoever gives up -/

def Act.gaveUp? : Act → Option Nat
  | .giveUp n => some n
  | _ => none

/-- No call gives up while its create is on the ring, held or waiting for a slot at the peer, or
its refusal is on the way. A dispatcher that has failed is past caring. -/
def InTime (s : Link) (x : LinkMode × Act) : Prop :=
  HasIDs s x ∧ ∀ n ∈ x.2.gaveUp?, (view s x.1 n).refusable = 0 ∨ (s x.1).rx.dead (s x.1).receiver = true

instance (s : Link) (x : LinkMode × Act) : Decidable (InTime s x) :=
  inferInstanceAs (Decidable (_ ∧ _))

variable {cfg : LinkMode → Config} {s : Link}

structure PromptInv (cfg : LinkMode → Config) (s : Link) : Prop where
  link : LinkInv s
  prompt : ∀ m n, 0 < n → n ≤ maxStreams → Prompt (view s m n)
  excused : ∀ m why, (s m).rx.fault = some why → Excused (cfg m) (s m).receiver why

theorem PromptInv.init : PromptInv cfg (linkMachine cfg).init where
  link := .init
  prompt _ _ _ _ := .init
  excused _ _ := nofun

theorem PromptInv.waits (h : PromptInv cfg s) {m : LinkMode} {id : ConnID} {code : ErrorCode}
    (hrx : (s m).rx = .handling (.error id code)) : (s m).pendingConnections id ≠ none := by
  obtain ⟨n, hpos, hle, hid⟩ := h.link.from_hand hrx
  rw [LinkMode.peer_peer] at hid
  subst hid
  have herror : 0 < (view s m n).refusable := by
    have : 0 < (view s m n).down.errors := by
      simp [view, incoming, hrx, kinds, Frame.kind, downOf]
    unfold State.refusable
    omega
  rcases (h.prompt m n hpos hle).late herror with hpend | hdead
  · intro hnone
    simp [view, oview, hnone] at hpend
  · simp [view, oview, hrx] at hdead

theorem PromptInv.step (h : PromptInv cfg s) {m : LinkMode} {a : Act} {e : Endpoint}
    (hbranch : Branch m (cfg m) (wire s m.peer).head? (s m) a e) (hok : InTime s (m, a)) :
    PromptInv cfg (Function.update s m e) where
  link := h.link.step hbranch hok.1
  prompt k n hpos hle := by
    rcases h.link.view_step hbranch k hpos hle with hsame | ⟨l, hstep, hl⟩
    · rw [hsame]
      exact h.prompt k n hpos hle
    · refine ((h.prompt k n hpos hle).step (h.link.streams k n hpos hle) hstep fun hg => ?_).1
      obtain ⟨rfl, rfl⟩ := hl hg
      exact hok.2 n rfl
  excused k why hf := by
    by_cases hk : k = m
    · subst hk
      rw [Function.update_self] at hf ⊢
      rcases hbranch.fault (h.excused k) hf with hex | ⟨id, code, hrx, hnone⟩
      · exact hex
      · exact absurd hnone (h.waits hrx)
    · rw [Function.update_of_ne hk] at hf ⊢
      exact h.excused k why hf

/-- In a link whose calls give up in time, no frame makes the receive path fail: what is left is an
`OverflowFail` queue and the caller's own context. -/
theorem receive_fails_excused (h : (linkMachine cfg).Reach InTime s) (m : LinkMode) (why : Failure)
    (hf : (s m).rx = .failed why) : Excused (cfg m) (s m).receiver why := by
  have hinv : PromptInv cfg s := by
    refine h.invariant .init ?_
    rintro s ⟨m, a⟩ s' - hinv hok hstep
    obtain ⟨e, hbranch, rfl⟩ := link_step hstep
    exact hinv.step hbranch hok
  exact hinv.excused m why (by rw [hf]; rfl)

theorem receive_fails_excused_overflow : ∃ s : Link,
    (linkMachine fun _ => smallQueue .fail).Reach InTime s ∧
      ((s .primary).rx = .idle ∧ ((s .primary).calls 1).phase = .failed .gaveUp ∧
        (s .secondary).rx = .failed .overflow) ∧
      Excused (smallQueue .fail) (s .secondary).receiver .overflow :=
  Machine.exists_reach_and [(.primary, .startDispatcher), (.primary, .enter .dispatcher),
    (.secondary, .startDispatcher), (.secondary, .enter .dispatcher), (.secondary, .listen),
    (.secondary, .admitHeld), (.primary, .allocate), (.primary, .register 1), (.primary, .sendCreate 1),
    (.secondary, .dequeue), (.secondary, .handle), (.secondary, .reserve), (.secondary, .answer),
    (.primary, .giveUp 1), (.primary, .cleanup 1), (.secondary, .pop), (.secondary, .send),
    (.secondary, .deliver), (.primary, .dequeue), (.primary, .handle), (.primary, .allocate),
    (.primary, .register 2), (.primary, .sendCreate 2), (.secondary, .dequeue), (.secondary, .handle),
    (.secondary, .reserve), (.secondary, .forget)] (by decide +kernel)
    fun _ hs hp => receive_fails_excused hs .secondary .overflow hp.2.2

/-- The peer holds the create longer than `OpenStream` waits, and its refusal ends the link. -/
theorem late_refusal_fails_link : ∃ s : Link, (linkMachine fun _ => smallQueue .block).Reachable s ∧
    (s .primary).rx = .failed .opError ∧ (s .primary).receiver = some .dispatcher ∧
      (s .secondary).sent = [.error 2 .connNotFound] :=
  Machine.exists_reachable [(.primary, .startDispatcher), (.primary, .enter .dispatcher),
    (.secondary, .startDispatcher), (.secondary, .enter .dispatcher), (.primary, .allocate),
    (.primary, .register 1), (.primary, .sendCreate 1), (.secondary, .dequeue), (.secondary, .handle),
    (.primary, .giveUp 1), (.primary, .cleanup 1), (.secondary, .expire 0), (.secondary, .pop),
    (.secondary, .send), (.primary, .dequeue), (.primary, .handle)] (by decide +kernel)

end Hqq.Streams
