import Hqq.Link.Drain

/-!
# A sender that sleeps through `2 ^ 64` positions

A thread that looked at a free slot and then sleeps until its side claimed `2 ^ 64` positions more
swaps the cursor as if nothing had happened, also when the slot is in use by then.
-/

namespace Hqq.Drain

open Hqq.Ring (Elem Mem History Pc)

/-! ## Calls that nobody disturbs -/

def scene (m : Mem Nat 1) (h : History (Bool ⊕ Bool) Nat 1) (tx : Door Bool) (u v : Pc Nat 1)
    (phase : Phase) : State Bool Bool Nat 1 where
  ring :=
    { mem := m
      pc := fun
        | .inl false => u
        | .inr false => v
        | _ => .idle
      hist := h }
  tx := tx
  settled := false
  detached := false
  status := none
  phase r := if r then .idle else phase

def sleeper : Door Bool := ⟨1, false, fun p => if p then .out else .inside⟩

def nobody : Door Bool := ⟨0, false, fun _ => .out⟩

def sent (size : Word) (v : Nat) (m : Mem Nat 1) : Mem Nat 1 :=
  Ring.publish size m.w { Ring.storeWord (Ring.slot size m.w) 0 v m with w := m.w + 1 }

def taken (size : Word) (m : Mem Nat 1) : Mem Nat 1 :=
  { Ring.release size m.r m with r := m.r + 1 }

theorem onDiff_self {α : Type} (p : Word) (free taken blocked : α) :
    Ring.onDiff p p free taken blocked = free := by
  simp [Ring.onDiff]

theorem onDiff_succ {α : Type} (p : Word) (free taken blocked : α) :
    Ring.onDiff p (p + 1#64) free taken blocked = blocked := by
  have h : p - (p + 1#64) = -1 := by bv_omega
  rw [Ring.onDiff, h]
  simp

theorem ext_pc {f g : Bool ⊕ Bool → Pc Nat 1} (h1 : f (.inl false) = g (.inl false))
    (h2 : f (.inl true) = g (.inl true)) (h3 : f (.inr false) = g (.inr false))
    (h4 : f (.inr true) = g (.inr true)) : f = g := by
  funext t
  rcases t with (_ | _) | (_ | _) <;> assumption

theorem ext_bool {α : Type} {f g : Bool → α} (h1 : f false = g false) (h2 : f true = g true) :
    f = g := by
  funext b
  cases b <;> assumption

variable {size : Word} {m m0 : Mem Nat 1} {h : History (Bool ⊕ Bool) Nat 1} {tx : Door Bool}
  {u v : Pc Nat 1} {phase : Phase}

theorem send_reach
    (hs : (machine Bool Bool size m0).Reachable (scene m h sleeper u v phase))
    (hseq : m.seq (Ring.slot size m.w) = m.w) :
    ∃ h', (machine Bool Bool size m0).Reachable (scene (sent size 8 m) h' sleeper u v phase) ∧
      h'.produced.length = h.produced.length + 1 ∧ h'.consumed = h.consumed := by
  refine ⟨{ h with
    produced := h.produced ++ [(.inl true, m.w, fun _ => 8)]
    published := h.published ++ [h.produced.length]
    loaded := Function.update h.loaded (.inl true) h.produced.length },
    hs.runFrom ([.enterTx true, .admitTx true fun _ => 8] ++
      List.replicate 5 (.send true .next) ++ [.exitTx true]) ?_, by simp, rfl⟩
  simp [Machine.runFrom, machine, step, scene, sleeper, hseq, Door.enter, Door.look,
    Door.leave, Ring.step, Ring.next, Ring.Move.act, Ring.State.goto, onDiff_self, List.replicate,
    Ring.State.published, Ring.publish, Ring.storeWord, History.load, sent]

theorem read_reach (hs : (machine Bool Bool size m0).Reachable (scene m h tx u v phase))
    (hseq : m.seq (Ring.slot size m.r) = m.r + 1) :
    ∃ h', (machine Bool Bool size m0).Reachable (scene (taken size m) h' tx u v phase) ∧
      h'.produced = h.produced ∧ h'.consumed.length = h.consumed.length + 1 := by
  refine ⟨{ h with
    consumed := h.consumed ++ [(.inr true, m.r)]
    delivered := h.delivered ++ [(h.consumed.length, [m.data (Ring.slot size m.r) 0])]
    loaded := Function.update h.loaded (.inr true) h.consumed.length },
    hs.runFrom (.read true :: List.replicate 5 (.receive true .next)) ?_, rfl, by simp⟩
  simp [Machine.runFrom, machine, step, scene, hseq, Ring.step, Ring.next, Ring.Move.act,
    Ring.State.goto, onDiff_self, receive, Phase.onward, List.replicate, Ring.State.released,
    Ring.release, History.load, taken]

theorem claim_reach (hs : (machine Bool Bool size m0).Reachable (scene m h tx u .idle .idle))
    (hseq : m.seq (Ring.slot size m.r) = m.r + 1) :
    ∃ h', (machine Bool Bool size m0).Reachable
        (scene { m with r := m.r + 1 } h' tx u (.read m.r []) .first) ∧
      h'.produced = h.produced ∧ h'.consumed.length = h.consumed.length + 1 := by
  refine ⟨{ h with
    consumed := h.consumed ++ [(.inr false, m.r)]
    loaded := Function.update h.loaded (.inr false) h.consumed.length },
    hs.runFrom (.read false :: List.replicate 3 (.receive false .next)) ?_, rfl, by simp⟩
  simp [Machine.runFrom, machine, step, scene, hseq, Ring.step, Ring.next, Ring.Move.act,
    Ring.State.goto, onDiff_self, receive, Phase.onward, List.replicate, History.load]
  exact ⟨ext_pc rfl rfl rfl rfl, ext_bool rfl rfl⟩

theorem wake_reach {e : Elem Nat 1} {p : Word}
    (hs : (machine Bool Bool size m0).Reachable (scene m h sleeper (.casW false e p) v phase))
    (hw : m.w = p) :
    ∃ h', (machine Bool Bool size m0).Reachable
        (scene (sent size (e 0) m) h' nobody .idle v phase) ∧
      h'.produced.length = h.produced.length + 1 ∧ h'.consumed = h.consumed := by
  subst hw
  refine ⟨{ h with
    produced := h.produced ++ [(.inl false, m.w, e)]
    published := h.published ++ [h.loaded (.inl false)] },
    hs.runFrom (List.replicate 3 (.send false .next) ++ [.exitTx false]) ?_, by simp, rfl⟩
  simp [Machine.runFrom, machine, step, scene, sleeper, nobody, Door.leave, Ring.step, Ring.next,
    Ring.Move.act, Ring.State.goto, List.replicate, Ring.State.published, Ring.publish,
    Ring.storeWord, sent]
  exact ⟨ext_pc rfl rfl rfl rfl, ext_bool rfl rfl⟩

theorem release_reach {p : Word}
    (hs : (machine Bool Bool size m0).Reachable (scene m h tx u (.read p []) .first)) :
    ∃ h', (machine Bool Bool size m0).Reachable (scene (Ring.release size p m) h' tx u .idle .idle) ∧
      h'.produced = h.produced ∧ h'.consumed = h.consumed := by
  refine ⟨{ h with
    delivered := h.delivered ++ [(h.loaded (.inr false), [m.data (Ring.slot size p) 0])] },
    hs.runFrom (List.replicate 2 (.receive false .next)) ?_, rfl, rfl⟩
  simp [Machine.runFrom, machine, step, scene, Ring.step, Ring.next, Ring.Move.act,
    Ring.State.goto, receive, Phase.onward, List.replicate, Ring.State.released, Ring.release]
  exact ⟨ext_pc rfl rfl rfl rfl, ext_bool rfl rfl⟩

def ended (m : Mem Nat 1) (h : History (Bool ⊕ Bool) Nat 1) (v : Pc Nat 1) (status : Option Lost)
    (phase : Phase) : State Bool Bool Nat 1 where
  ring :=
    { mem := m
      pc := fun
        | .inr true => v
        | _ => .idle
      hist := h }
  tx := nobody.shut
  settled := true
  detached := true
  status := status
  phase r := if r then phase else .idle

theorem close_reach
    (hs : (machine Bool Bool size m0).Reachable (scene m h nobody .idle .idle .idle)) :
    (machine Bool Bool size m0).Reachable (ended m h .idle none .idle) := by
  refine hs.runFrom [.close, .settle, .detach] ?_
  simp [Machine.runFrom, machine, step, scene, ended, nobody, Door.shut]
  exact ext_pc rfl rfl rfl rfl

theorem first_reach (hs : (machine Bool Bool size m0).Reachable (ended m h .idle none .idle))
    (hseq : m.seq (Ring.slot size m.r) = m.r) :
    ∃ h', (machine Bool Bool size m0).Reachable
        (ended m h' (.loadR false) (some .closed) (.retry .closed)) ∧
      h'.produced = h.produced ∧ h'.consumed = h.consumed := by
  refine ⟨h.load (.inr true) h.consumed.length, hs.runFrom (.read true ::
    List.replicate 3 (.receive true .next) ++ [.check true .fine]) ?_, rfl, rfl⟩
  simp [Machine.runFrom, machine, step, ended, hseq, Ring.step, Ring.next, Ring.Move.act,
    Ring.State.goto, onDiff_succ, receive, retry, checkPeer, Phase.onward, List.replicate, History.load]
  exact ⟨ext_pc rfl rfl rfl rfl, ext_bool rfl rfl⟩

theorem second_reach
    (hs : (machine Bool Bool size m0).Reachable
      (ended m h (.loadR false) (some .closed) (.retry .closed)))
    (hseq : m.seq (Ring.slot size m.r) = m.r) :
    ∃ h', (machine Bool Bool size m0).Reachable
        (ended m h' .idle (some .closed) (.failed .closed)) ∧
      h'.produced = h.produced ∧ h'.consumed = h.consumed := by
  refine ⟨h.load (.inr true) h.consumed.length, hs.runFrom
    (List.replicate 3 (.receive true .next) ++ [.receive true .giveUp]) ?_, rfl, rfl⟩
  simp [Machine.runFrom, machine, step, ended, hseq, Ring.step, Ring.next, Ring.Move.act,
    Ring.State.goto, onDiff_succ, receive, Phase.onward, List.replicate, History.load]
  exact ⟨ext_pc rfl rfl rfl rfl, ext_bool rfl rfl⟩

def asleep (m : Mem Nat 1) (h : History (Bool ⊕ Bool) Nat 1) : State Bool Bool Nat 1 :=
  scene m h sleeper (.casW false (fun _ => 7) 0) .idle .idle

theorem asleep_reach : ∃ h, (machine Bool Bool 2 twoSlots).Reachable (asleep twoSlots h) ∧
    h.produced = [] ∧ h.consumed = [] := by
  have hseq : twoSlots.seq (Ring.slot 2#64 0#64) = 0 := by decide
  have hw : twoSlots.w = 0 := rfl
  refine ⟨⟨[], [], [], [], [], Function.update (fun _ => 0) (.inl false) 0⟩,
    Machine.Reachable.runFrom .init [.enterTx false, .admitTx false fun _ => 7,
      .send false .next, .send false .next] ?_, rfl, rfl⟩
  simp [Machine.runFrom, machine, step, asleep, scene, sleeper, hseq, hw, Door.enter,
    Door.look, Door.fresh, Ring.machine, Ring.step, Ring.next, Ring.Move.act, Ring.State.goto,
    onDiff_self, History.load]
  exact ⟨ext_pc rfl rfl rfl rfl, ext_bool rfl rfl⟩

structure Lapped (n : Nat) (m : Mem Nat 1) : Prop where
  r_eq : m.r = word n
  w_eq : m.w = word n
  seq_eq : m.seq (n % 2) = word n
  seq_succ : m.seq ((n + 1) % 2) = word (n + 1)

theorem slot_two (n : Nat) : Ring.slot 2 (word n) = n % 2 := Ring.slot_word (by decide) n

theorem word_lap (n : Nat) : word n + (2 - 1) + 1 = word (n + 2) := by
  rw [show (2 - 1 : Word) = 1 by decide, word_succ, word_succ]

theorem Lapped.again {n : Nat} (hm : Lapped n m) : Lapped (n + 1) (taken 2 (sent 2 8 m)) := by
  have hne : (n + 1) % 2 ≠ n % 2 := by omega
  have hslot : (n + 1 + 1) % 2 = n % 2 := by omega
  refine ⟨?_, ?_, ?_, ?_⟩
  · simp only [taken, sent, Ring.publish, Ring.storeWord, hm.r_eq, word_succ]
  · simp only [taken, sent, Ring.release, Ring.publish, hm.w_eq, word_succ]
  · simp only [taken, sent, Ring.release, Ring.publish, Ring.storeWord, hm.w_eq, hm.r_eq, slot_two,
      Function.update_of_ne hne, hm.seq_succ]
  · simp only [taken, sent, Ring.release, Ring.publish, Ring.storeWord, hm.w_eq, hm.r_eq, slot_two,
      hslot, Function.update_self, word_lap]

theorem laps (n : Nat) : ∃ m h, (machine Bool Bool 2 twoSlots).Reachable (asleep m h) ∧
    Lapped n m ∧ h.produced.length = n ∧ h.consumed.length = n := by
  induction n with
  | zero =>
    obtain ⟨h, hreach, hp, hc⟩ := asleep_reach
    refine ⟨_, h, hreach, ⟨rfl, rfl, ?_, ?_⟩, by simp [hp], by simp [hc]⟩ <;> decide
  | succ n ih =>
    obtain ⟨m, h, hreach, hm, hp, hc⟩ := ih
    obtain ⟨h1, hreach1, hp1, hc1⟩ := send_reach hreach (by rw [hm.w_eq, slot_two, hm.seq_eq])
    obtain ⟨h2, hreach2, hp2, hc2⟩ := read_reach hreach1 (by
      simp only [sent, Ring.publish, Ring.storeWord, hm.w_eq, hm.r_eq, Function.update_self])
    refine ⟨_, h2, hreach2, hm.again, ?_, ?_⟩
    · rw [hp2, hp1, hp]
    · rw [hc2, hc1, hc]

/-! ## The packet that is lost -/

/-- The sleeper wakes up `2 ^ 64` positions later, in a slot that is being read. Its packet is
never claimed, and a read reports the close. -/
theorem sleeper_loses_packet : ∃ s, (machine Bool Bool 2 twoSlots).Reachable s ∧
    s.phase true = .failed .closed ∧ s.detached = true ∧ (∀ p, s.ring.pc (.inl p) = .idle) ∧
    ∃ n < s.ring.hist.produced.length, s.ring.hist.consumed[n]? = none := by
  obtain ⟨m, h, hreach, hm, hp, hc⟩ := laps (2 ^ 64 - 2)
  have hr : m.r = 0xfffffffffffffffe := hm.r_eq
  have hw : m.w = 0xfffffffffffffffe := hm.w_eq
  have hseq0 : m.seq 0 = 0xfffffffffffffffe := hm.seq_eq
  have hseq1 : m.seq 1 = 0xffffffffffffffff := hm.seq_succ
  have hslot0 : Ring.slot 2 0xfffffffffffffffe = 0 := by decide
  have hslot1 : Ring.slot 2 0xffffffffffffffff = 1 := by decide
  have hsucc : (0xfffffffffffffffe : Word) + 1 = 0xffffffffffffffff := by decide
  have hwrap : (0xffffffffffffffff : Word) + 1 = 0 := by decide
  -- The reader `false` claims the last packet but one, and the last one goes through.
  obtain ⟨h1, hreach1, hp1, hc1⟩ := send_reach hreach (by rw [hw, hslot0, hseq0])
  obtain ⟨h2, hreach2, hp2, hc2⟩ := claim_reach hreach1 (by
    simp only [sent, Ring.publish, Ring.storeWord, hr, hw, Function.update_self])
  obtain ⟨h3, hreach3, hp3, hc3⟩ := send_reach hreach2 (by
    simp only [sent, Ring.publish, Ring.storeWord, hr, hw, hsucc, hslot0, hslot1, hseq1,
      Function.update_of_ne (show (1 : Nat) ≠ 0 by decide)])
  obtain ⟨h4, hreach4, hp4, hc4⟩ := read_reach hreach3 (by
    simp only [sent, Ring.publish, Ring.storeWord, hr, hw, hsucc, Function.update_self])
  -- Now the cursor is where the sleeper saw it.
  obtain ⟨h5, hreach5, hp5, hc5⟩ := wake_reach hreach4 (by
    simp only [taken, sent, Ring.release, Ring.publish, Ring.storeWord, hw, hsucc, hwrap])
  obtain ⟨h6, hreach6, hp6, hc6⟩ := release_reach hreach5
  -- The release wrote over what the sleeper published.
  have hend := close_reach hreach6
  generalize hm6 : Ring.release 2 (sent 2 8 m).r _ = m6 at hend
  have hempty : m6.seq (Ring.slot 2 m6.r) = m6.r := by
    have hr6 : m6.r = 0 := by
      rw [← hm6]
      simp only [taken, sent, Ring.release, Ring.publish, Ring.storeWord, hr, hsucc, hwrap]
    have hseq6 : m6.seq 0 = 0 := by
      rw [← hm6]
      simp only [sent, Ring.release, Ring.publish, Ring.storeWord, hr, hslot0, Function.update_self]
      decide
    rw [hr6, show Ring.slot 2 0 = 0 by decide, hseq6]
  obtain ⟨h7, hreach7, hp7, hc7⟩ := first_reach hend hempty
  obtain ⟨h8, hreach8, hp8, hc8⟩ := second_reach hreach7 hempty
  refine ⟨_, hreach8, rfl, rfl, fun p => by cases p <;> rfl, 2 ^ 64, ?_, ?_⟩
  · change 2 ^ 64 < h8.produced.length
    rw [hp8, hp7, hp6, hp5, hp4, hp3, hp2, hp1, hp]
    norm_num
  · change h8.consumed[2 ^ 64]? = none
    rw [List.getElem?_eq_none_iff, hc8, hc7, hc6, hc5, hc4, hc3, hc2, hc1, hc]
    norm_num

end Hqq.Drain
