import Hqq.Bindgen.Gate

/-!
# What `Kill` guarantees

While the kill bit is set no span starts, so once there is none there will be none. And a deadline
that the owner sets is followed by a look at the kill bit before the next wait.
-/

namespace Hqq.Bindgen

def Expired (deadline : Option Nat) (clock : Nat) : Prop := ∃ d, deadline = some d ∧ d ≤ clock

namespace KillPc

def wakes : KillPc → Bool
  | .clock | .setRead _ | .setWrite _ | .returned true => true
  | _ => false

def readSet : KillPc → Bool
  | .setWrite _ | .returned true => true
  | _ => false

def Past (clock : Nat) : KillPc → Prop
  | .setRead now | .setWrite now => now ≤ clock
  | _ => True

end KillPc

structure Inv (s : State) : Prop where
  place : s.ctl = .panicked ∨ Placed s.spans s.conn.closed (s.conn, s.ctl)
  count : s.count = s.spans + if s.ctl.op = .refuse then 1 else 0
  runs : s.runs = if s.once = .fresh then 0 else 1
  owner : s.once = .running none → s.ctl.op = .close
  last : s.ctl.lastClose = true → s.spans = 0
  closing : ∀ i, s.kills[i]? = some .closing ↔ s.once = .running (some i)
  killed : ∀ pc ∈ s.kills, s.killed = true
  shut : ∀ pc ∈ s.kills, pc = .close ∨ pc = .closing → s.spans = 0
  ended : .returned false ∈ s.kills → s.once = .done
  woke : ∀ pc ∈ s.kills, pc.wakes = true → s.count = 0 → s.once ≠ .fresh ∨ s.ctl.lastClose = true
  closed : s.conn.closed = true → s.once = .fresh → s.ctl.inClose = true ∨ s.ctl = .panicked
  past : ∀ pc ∈ s.kills, pc.Past s.clock
  reads : ∀ pc ∈ s.kills, pc.readSet = true → s.ctl.reads = true → Expired s.readDeadline s.clock
  writes : .returned true ∈ s.kills → s.conn.closed = false ∨ s.ctl = .closeReserve →
    Expired s.writeDeadline s.clock

theorem inv_start : Inv .start where
  place := .inr ⟨⟨Conn.wf_new, by simp [State.start, Conn.new], by simp [State.start, Conn.new]⟩,
    trivial, rfl, rfl⟩
  count := rfl
  runs := rfl
  owner := fun h => absurd h (by simp [State.start])
  last := fun h => absurd h (by simp [State.start, Ctl.lastClose])
  closing := fun i => by simp [State.start]
  killed := fun pc h => absurd h List.not_mem_nil
  shut := fun pc h => absurd h List.not_mem_nil
  ended := fun h => absurd h List.not_mem_nil
  woke := fun pc h => absurd h List.not_mem_nil
  closed := fun h => absurd h (by simp [State.start, Conn.new])
  past := fun pc h => absurd h List.not_mem_nil
  reads := fun pc h => absurd h List.not_mem_nil
  writes := fun h => absurd h List.not_mem_nil

variable {k : Cfg} {s s' : State}

theorem Ctl.op_of_reads {ctl : Ctl} (h : ctl.reads = true) : ctl.op = .waitRead ∨ ctl.op = .slot := by
  cases ctl with
  | read => exact .inl rfl
  | release => exact .inr rfl
  | closeRead => exact .inl rfl
  | closeRelease => exact .inr rfl
  | _ => cases h

theorem Ctl.not_quiet_of_reads {ctl : Ctl} (h : ctl.reads = true) : ctl.quiet = false := by
  cases ctl with
  | read | release | closeRead | closeRelease => rfl
  | _ => cases h

theorem Ctl.op_of_lastClose {ctl : Ctl} (h : ctl.lastClose = true) : ctl.op = .close := by
  cases ctl with
  | refusedClose | leaveClose => rfl
  | _ => cases h

theorem Ctl.eq_enter {ctl : Ctl} (h : ctl.op = .enter) : ∃ m, ctl = .enter m := by
  cases ctl with
  | enter m => exact ⟨m, rfl⟩
  | _ => cases h

theorem Ctl.eq_refused {ctl : Ctl} (h : ctl.op = .refuse) : ∃ m, ctl = .refused m := by
  cases ctl with
  | refused m => exact ⟨m, rfl⟩
  | _ => cases h

theorem Ctl.eq_leave {ctl : Ctl} (h : ctl.op = .leave) : ∃ a, ctl = .leave a := by
  cases ctl with
  | leave a => exact ⟨a, rfl⟩
  | _ => cases h

theorem Ctl.eq_closeArmWrite {ctl : Ctl} (h : ctl.op = .closeSetWrite) : ctl = .closeArmWrite := by
  cases ctl with
  | closeArmWrite => rfl
  | _ => cases h

theorem Follows.of_reads {ctl ctl' : Ctl} {a : Ans} (h : Follows ctl a ctl') (hr : ctl'.reads = true) :
    ctl.reads = true ∨ a = .gate false ∧ (ctl.op = .enter ∨ ctl.op = .load) := by
  cases h with
  | quiet hq => exact absurd (hq.symm.trans (Ctl.not_quiet_of_reads hr)) (by simp)
  | reads _ h => exact .inl h
  | checked hop _ => exact .inr ⟨rfl, .inr hop⟩
  | entered _ => exact .inr ⟨rfl, .inl rfl⟩
  | refused m => cases hr
  | last _ hl =>
    generalize ctl' = ctl' at *
    cases ctl' with
    | refusedClose | leaveClose => cases hr
    | _ => cases hl
  | reserve => cases hr

theorem Follows.of_last {ctl ctl' : Ctl} {a : Ans} (h : Follows ctl a ctl') (hl : ctl'.lastClose = true) :
    a = .gate true ∧ (ctl.op = .refuse ∨ ctl.op = .leave) := by
  have hquiet : ctl'.quiet = false ∧ ctl'.reads = false := by
    cases ctl' with
    | refusedClose | leaveClose => exact ⟨rfl, rfl⟩
    | _ => cases hl
  cases h with
  | quiet hq => exact absurd (hq.symm.trans hquiet.1) (by simp)
  | reads hq _ => simp [hquiet] at hq
  | checked _ hr => exact absurd (hr.symm.trans hquiet.2) (by simp)
  | entered hq => simp [hquiet] at hq
  | refused m => cases hl
  | last hop _ => exact ⟨rfl, hop⟩
  | reserve => cases hl

theorem Follows.of_reserve {ctl : Ctl} {a : Ans} (h : Follows ctl a .closeReserve) :
    a = .gate false ∧ ctl.op = .load := by
  cases h with
  | quiet hq => cases hq
  | reads hq _ => exact absurd hq (by simp [Ctl.quiet, Ctl.reads])
  | checked _ hr => cases hr
  | entered hq => exact absurd hq (by simp [Ctl.quiet, Ctl.reads])
  | last _ hl => cases hl
  | reserve => exact ⟨rfl, rfl⟩

theorem refuse_iff {c : Conn} {ctl : Ctl} {a : Ans} {p : Conn × Ctl} (h : c.next k ctl a = some p) :
    p.2.op = .refuse ↔ ctl.op = .enter ∧ a = .gate true := by
  constructor
  · intro hop
    obtain ⟨m, hm⟩ := Ctl.eq_refused hop
    have hfollows := next_follows h
    rw [hm] at hfollows
    cases hfollows with
    | quiet hq => cases hq
    | reads hq => exact absurd hq (by simp [Ctl.quiet, Ctl.reads])
    | checked _ hr => cases hr
    | entered hq => exact absurd hq (by simp [Ctl.quiet, Ctl.reads])
    | refused => exact ⟨rfl, rfl⟩
    | last _ hl => cases hl
  · rintro ⟨hop, rfl⟩
    obtain ⟨m, rfl⟩ := Ctl.eq_enter hop
    cases h
    rfl

theorem Inv.go (hi : Inv s) {a : Ans} {p : Conn × Ctl} {n m cd : Nat} {o : Once} {rd wd : Option Nat}
    (hnext : s.conn.next k s.ctl a = some p) (hm : m = Conn.spansAfter s.spans s.ctl a)
    (hn : n = m + if s.ctl.op = .enter ∧ a = .gate true then 1 else 0)
    (ho : o = s.once ∧ s.ctl.op ≠ .close ∨ o = .done ∧ s.once ≠ .fresh ∧ ∀ i, s.once ≠ .running (some i))
    (hshut : s.spans = 0 → s.killed = true → m = 0)
    (hlast : p.2.lastClose = true → m = 0)
    (hzero : n = 0 → s.killed = true → n = s.count ∨ p.2.lastClose = true)
    (hgate : a = .gate false → s.ctl.op = .enter ∨ s.ctl.op = .load → s.killed = false)
    (hrd : s.ctl.reads = true → rd = s.readDeadline)
    (hwd : wd = s.writeDeadline ∨ s.ctl.op = .closeSetWrite) :
    Inv { s with
      conn := p.1, ctl := p.2, count := n, spans := m, once := o, readDeadline := rd,
      writeDeadline := wd, closeDeadline := cd } := by
  have hplace : Placed s.spans s.conn.closed (s.conn, s.ctl) := by
    refine hi.place.resolve_left fun hpanic => ?_
    rw [hpanic] at hnext
    cases a <;> cases hnext
  have hfollows := next_follows hnext
  have hkilled : ∀ pc ∈ s.kills, a = .gate false → s.ctl.op = .enter ∨ s.ctl.op = .load → False := by
    intro pc hpc ha hop
    exact absurd ((hi.killed pc hpc).symm.trans (hgate ha hop)) (by simp)
  have honce : o = s.once ∧ s.ctl.op ≠ .close ∨ o = .done := ho.imp_right And.left
  obtain ⟨hclosed, hplaced⟩ : p.1.closed = s.conn.closed ∧
      (p.2 = .panicked ∨ Placed m p.1.closed p) := by
    rcases Conn.placed_or_panicked hplace hnext with hp | ⟨rfl, -⟩
    · exact ⟨hp.closed, .inr (hm ▸ hp.closed.symm ▸ hp)⟩
    · exact ⟨rfl, .inl rfl⟩
  refine ⟨hplaced, ?_, ?_, ?_, hlast, ?_, hi.killed, ?_, ?_, ?_, ?_, hi.past, ?_, ?_⟩
  · dsimp only
    rw [hn]
    simp only [refuse_iff hnext]
  · dsimp only
    rcases ho with ⟨rfl, -⟩ | ⟨rfl, hnot, -⟩
    · exact hi.runs
    · rw [hi.runs, if_neg hnot]
      rfl
  · intro hrunning
    rcases honce with ⟨rfl, hop⟩ | rfl
    · exact absurd (hi.owner hrunning) hop
    · cases hrunning
  · intro i
    rcases ho with ⟨rfl, -⟩ | ⟨rfl, -, hnot⟩
    · exact hi.closing i
    · exact ⟨fun h => absurd ((hi.closing i).mp h) (hnot i), fun h => by cases h⟩
  · intro pc hpc hclose
    exact hshut (hi.shut pc hpc hclose) (hi.killed pc hpc)
  · intro hret
    rcases honce with ⟨rfl, -⟩ | rfl
    · exact hi.ended hret
    · rfl
  · intro pc hpc hwakes h0
    rcases honce with ⟨rfl, hop⟩ | rfl
    · rcases hzero h0 (hi.killed pc hpc) with heq | hl
      · rcases hi.woke pc hpc hwakes (heq ▸ h0) with h | h
        · exact .inl h
        · exact absurd (Ctl.op_of_lastClose h) hop
      · exact .inr hl
    · exact .inl (by simp)
  · intro hc hfresh
    rcases honce with ⟨rfl, hop⟩ | rfl
    · left
      have hin := (hi.closed (hclosed ▸ hc) hfresh).resolve_right fun hpanic => by
        have hfits := hplace.fits
        rw [hpanic] at hfits
        exact hfits
      refine (next_inClose hnext hin).resolve_right ?_
      rintro ⟨err, herr⟩
      rw [herr] at hop
      exact hop rfl
    · cases hfresh
  · intro pc hpc hset hreads
    rcases hfollows.of_reads hreads with h | ⟨ha, hop⟩
    · dsimp only
      rw [hrd h]
      exact hi.reads pc hpc hset h
    · exact (hkilled pc hpc ha hop).elim
  · intro hret hcond
    have hsame : wd = s.writeDeadline ∨ s.conn.closed = true := by
      refine hwd.imp_right fun hop => ?_
      have hfits := hplace.fits
      rw [Ctl.eq_closeArmWrite hop] at hfits
      exact hfits.2
    rcases hcond with hc | hc
    · have hopen : s.conn.closed = false := hclosed.symm.trans hc
      rcases hsame with rfl | hsame
      · exact hi.writes hret (.inl hopen)
      · exact absurd (hsame.symm.trans hopen) (by simp)
    · dsimp only at hc
      rw [hc] at hfollows
      obtain ⟨ha, hop⟩ := hfollows.of_reserve
      exact (hkilled _ hret ha (.inr hop)).elim

theorem spansAfter_same {n : Nat} {ctl : Ctl} {a : Ans} (henter : ctl.op ≠ .enter)
    (hleave : ctl.op ≠ .leave) : Conn.spansAfter n ctl a = n := by
  cases ctl with
  | enter => exact absurd rfl henter
  | leave => exact absurd rfl hleave
  | _ => rfl

theorem Inv.goes (hi : Inv s) {a : Ans} {p : Conn × Ctl} {cd : Nat} {o : Once} {rd wd : Option Nat}
    (hnext : s.conn.next k s.ctl a = some p) (henter : s.ctl.op ≠ .enter) (hleave : s.ctl.op ≠ .leave)
    (hrefuse : s.ctl.op ≠ .refuse)
    (ho : o = s.once ∧ s.ctl.op ≠ .close ∨ o = .done ∧ s.once ≠ .fresh ∧ ∀ i, s.once ≠ .running (some i))
    (hgate : a = .gate false → s.ctl.op = .load → s.killed = false)
    (hrd : s.ctl.reads = true → rd = s.readDeadline)
    (hwd : wd = s.writeDeadline ∨ s.ctl.op = .closeSetWrite) :
    Inv { s with
      conn := p.1, ctl := p.2, once := o, readDeadline := rd, writeDeadline := wd,
      closeDeadline := cd } := by
  have hcount := hi.count
  rw [if_neg hrefuse] at hcount
  refine hi.go hnext (spansAfter_same henter hleave).symm ?_ ho (fun h _ => h) ?_ (fun _ _ => .inl rfl)
    (fun ha hop => hgate ha (hop.resolve_left henter)) hrd hwd
  · rw [if_neg fun h => henter h.1]
    exact hcount
  · intro hlast
    rcases ((next_follows hnext).of_last hlast).2 with hop | hop
    · exact absurd hop hrefuse
    · exact absurd hop hleave

theorem Inv.ownerClose (hi : Inv s) {a : Ans} (hop : s.ctl.op = .close)
    (h : s.ownerClose k a = some s') : Inv s' := by
  unfold State.ownerClose at h
  have hgo : ∀ {p}, s.conn.next k s.ctl a = some p → s.once ≠ .fresh →
      (∀ i, s.once ≠ .running (some i)) → Inv { s with conn := p.1, ctl := p.2, once := .done } := by
    intro p hp hfresh hrunning
    exact hi.goes hp (by simp [hop]) (by simp [hop]) (by simp [hop]) (.inr ⟨rfl, hfresh, hrunning⟩)
      (fun _ hload => by simp [hop] at hload) (fun _ => rfl) (.inl rfl)
  split at h
  · next hfresh =>
    cases h
    have hruns := hi.runs
    rw [if_pos hfresh] at hruns
    refine { hi with
      runs := ?_, owner := fun _ => hop, closing := fun i => ?_, ended := fun hret => ?_,
      woke := fun _ _ _ _ => .inl (by simp), closed := fun _ h => by cases h }
    · dsimp only
      rw [hruns]
      rfl
    · rw [hi.closing i, hfresh]
      simp
    · exact absurd ((hi.ended hret).symm.trans hfresh) (by simp)
  · next hrunning =>
    obtain ⟨p, hp, rfl⟩ := Option.map_eq_some_iff.mp h
    exact hgo hp (by simp [hrunning]) (by simp [hrunning])
  · cases h
  · next hdone =>
    obtain ⟨p, hp, rfl⟩ := Option.map_eq_some_iff.mp h
    have hinv := hgo hp (by simp [hdone]) (by simp [hdone])
    rw [← hdone] at hinv
    exact hinv

theorem Inv.enter (hi : Inv s) (hop : s.ctl.op = .enter) {p : Conn × Ctl}
    (hp : s.conn.next k s.ctl (.gate s.killed) = some p) :
    Inv { s with
      conn := p.1, ctl := p.2, count := s.count + 1,
      spans := if s.killed then s.spans else s.spans + 1 } := by
  obtain ⟨m, hm⟩ := Ctl.eq_enter hop
  have hcount := hi.count
  rw [if_neg (by simp [hop])] at hcount
  refine hi.go hp ?_ ?_ (.inl ⟨rfl, by simp [hop]⟩) ?_ ?_ ?_ ?_ (fun _ => rfl) (.inl rfl)
  · rw [hm]
    cases s.killed <;> rfl
  · rw [hcount]
    cases s.killed <;> simp [hop]
  · intro hzero hkilled
    rw [hkilled]
    exact hzero
  · intro hlast
    rcases ((next_follows hp).of_last hlast).2 with h | h <;> simp [hop] at h
  · intro hzero
    exact absurd hzero (by simp)
  · intro ha _
    exact Ans.gate.inj ha

theorem Inv.leave (hi : Inv s) (hop : s.ctl.op = .refuse ∨ s.ctl.op = .leave) {m : Nat} {p : Conn × Ctl}
    (hp : s.conn.next k s.ctl (.gate s.lastOut) = some p)
    (hm : m = Conn.spansAfter s.spans s.ctl (.gate s.lastOut)) (hcount : s.count - 1 = m)
    (hshut : s.spans = 0 → m = 0) :
    Inv { s with conn := p.1, ctl := p.2, count := s.count - 1, spans := m } := by
  have hne : s.ctl.op ≠ .enter ∧ s.ctl.op ≠ .close ∧ s.ctl.op ≠ .load := by
    rcases hop with h | h <;> simp [h]
  refine hi.go hp hm ?_ (.inl ⟨rfl, hne.2.1⟩) (fun h _ => hshut h) ?_ ?_ ?_ (fun _ => rfl) (.inl rfl)
  · rw [if_neg fun h => hne.1 h.1]
    exact hcount
  · intro hlast
    have hout := Ans.gate.inj ((next_follows hp).of_last hlast).1
    simp only [State.lastOut, Bool.and_eq_true, decide_eq_true_eq] at hout
    omega
  · intro hzero hkilled
    right
    have hout : s.lastOut = true := by simp [State.lastOut, hkilled, hzero]
    rw [hout] at hp
    rcases hop with h | h
    · obtain ⟨m, hm⟩ := Ctl.eq_refused h
      rw [hm] at hp
      cases hp
      rfl
    · obtain ⟨a, ha⟩ := Ctl.eq_leave h
      rw [ha] at hp
      cases hp
      rfl
  · rintro - (h | h)
    · exact absurd h hne.1
    · exact absurd h hne.2.2

theorem Inv.ownerStep (hi : Inv s) {a : Ans} (h : s.owner k a = some s') : Inv s' := by
  unfold State.owner at h
  have hplain : ∀ {p cd rd wd}, s.conn.next k s.ctl a = some p →
      s.ctl.op ∉ [Op.enter, .leave, .refuse, .load, .close] →
      (s.ctl.reads = true → rd = s.readDeadline) →
      (wd = s.writeDeadline ∨ s.ctl.op = .closeSetWrite) →
      Inv { s with
        conn := p.1, ctl := p.2, readDeadline := rd, writeDeadline := wd, closeDeadline := cd } := by
    intro p cd rd wd hp hop
    simp only [List.mem_cons, List.not_mem_nil, or_false, not_or] at hop
    exact hi.goes hp hop.1 hop.2.1 hop.2.2.1 (.inl ⟨rfl, hop.2.2.2.2⟩) fun _ h => absurd h hop.2.2.2.1
  have hreads : s.ctl.op ≠ .waitRead → s.ctl.op ≠ .slot → s.ctl.reads = true → False := by
    intro h1 h2 hr
    rcases Ctl.op_of_reads hr with h | h
    · exact h1 h
    · exact h2 h
  cases hop : s.ctl.op <;> rw [hop] at h <;> dsimp only at h
  case none => cases h
  case close => exact hi.ownerClose hop h
  all_goals obtain ⟨p, hp, rfl⟩ := Option.map_eq_some_iff.mp h
  case enter => exact hi.enter hop hp
  case refuse =>
    have hcount := hi.count
    rw [if_pos hop] at hcount
    exact hi.leave (.inl hop) hp (spansAfter_same (by simp [hop]) (by simp [hop])).symm
      (by dsimp only; omega) id
  case leave =>
    have hcount := hi.count
    rw [if_neg (by simp [hop])] at hcount
    obtain ⟨a, ha⟩ := Ctl.eq_leave hop
    refine hi.leave (.inr hop) hp ?_ ?_ ?_
    · rw [ha]
      rfl
    · dsimp only
      omega
    · intro hzero
      dsimp only
      omega
  case load =>
    exact hi.goes hp (by simp [hop]) (by simp [hop]) (by simp [hop]) (.inl ⟨rfl, by simp [hop]⟩)
      (fun ha _ => Ans.gate.inj ha) (fun _ => rfl) (.inl rfl)
  case setRead | closeSetRead =>
    exact hplain hp (by simp [hop]) (fun hr => (hreads (by simp [hop]) (by simp [hop]) hr).elim) (.inl rfl)
  case closeSetWrite => exact hplain hp (by simp [hop]) (fun _ => rfl) (.inr hop)
  case waitRead | waitWrite | slot => exact hplain hp (by simp [hop]) (fun _ => rfl) (.inl rfl)

/-! ## Calls of methods -/

theorem quiet_invoke {c : Conn} {m : Method} {p : Conn × Ctl} (h : c.invoke k m = some p) :
    p.2.quiet = true := by
  cases m <;> simp only [Conn.invoke, Option.some.injEq] at h
  case abort =>
    subst h
    repeat' split
    all_goals first | rfl | exact quiet_afterOp
  case close =>
    subst h
    repeat' split
    · rfl
    · rfl
    · refine quiet_orPanic (fun d => ?_) _
      split <;> rfl
  case release =>
    repeat' split at h
    all_goals cases h
    all_goals first | rfl | exact quiet_afterOp
  all_goals
    repeat' split at h
    all_goals cases h
    all_goals rfl

theorem Ctl.quiet_facts {ctl : Ctl} (h : ctl.quiet = true) :
    ctl.reads = false ∧ ctl.op ≠ .refuse ∧ ctl.lastClose = false ∧ ctl ≠ .closeReserve := by
  cases ctl with
  | read | release | closeRead | closeRelease | refused | refusedClose | leaveClose
  | closeReserve => cases h
  | _ => simp [Ctl.reads, Ctl.op, Ctl.lastClose]

theorem closed_of_inClose {c : Conn} {ctl : Ctl} (h : c.Fits ctl) (hin : ctl.inClose = true) :
    c.closed = true := by
  cases ctl with
  | enter m | refused m | refusedClose m =>
    cases m with
    | close => exact h.2
    | _ => cases hin
  | leave a | leaveClose a =>
    cases a with
    | closed err => exact h.2
    | _ => cases hin
  | closeArmWrite | closeKilledWrite | closeReserve | closeCommit | closeArmRead | closeKilledRead
  | closeRead | closeRelease | closeFailed | closeLink => exact h.2
  | _ => cases hin

theorem Inv.invoke (hi : Inv s) {m : Method} {last : Ret} (hidle : s.ctl = .idle last)
    {p : Conn × Ctl} (h : s.conn.invoke k m = some p) : Inv { s with conn := p.1, ctl := p.2 } := by
  have hplace := hi.place.resolve_left (by simp [hidle])
  obtain ⟨hp, hclosed⟩ := Conn.placed_invoke hplace.steady h
  obtain ⟨hreads, hrefuse, hlast, hreserve⟩ := Ctl.quiet_facts (quiet_invoke h)
  have hspans : s.conn.spans = s.spans := by
    have := hplace.spans
    rw [hidle] at this
    exact this
  have hcount := hi.count
  rw [if_neg (by simp [hidle, Ctl.op])] at hcount
  rw [hspans] at hp
  exact { hi with
    place := .inr hp
    count := by
      rw [if_neg hrefuse]
      exact hcount
    owner := fun hrunning => absurd (hi.owner hrunning) (by simp [hidle, Ctl.op])
    last := fun h => absurd (hlast.symm.trans h) (by simp)
    woke := fun pc hpc hwakes h0 => by
      rcases hi.woke pc hpc hwakes h0 with h | h
      · exact .inl h
      · rw [hidle] at h
        cases h
    closed := fun hc hfresh => by
      rcases hclosed with hsame | hin
      · rcases hi.closed (hsame ▸ hc) hfresh with h | h
        · rw [hidle] at h
          cases h
        · rw [hidle] at h
          cases h
      · exact .inl hin
    reads := fun pc hpc hset h => absurd (hreads.symm.trans h) (by simp)
    writes := fun hret hcond => by
      rcases hcond with hc | hc
      · rcases hclosed with hsame | hin
        · exact hi.writes hret (.inl (hsame ▸ hc))
        · exact absurd ((closed_of_inClose hp.fits hin).symm.trans hc) (by simp)
      · exact absurd hc hreserve }

/-! ## Steps of `Kill` -/

theorem Inv.kill (hi : Inv s) :
    Inv { s with killed := true, kills := s.kills ++ [if s.count = 0 then .close else .clock] } := by
  have hmem : ∀ pc ∈ s.kills ++ [if s.count = 0 then KillPc.close else .clock],
      pc ∈ s.kills ∨ (pc = .close ∧ s.count = 0) ∨ (pc = .clock ∧ s.count ≠ 0) := by
    intro pc hpc
    rcases List.mem_append.mp hpc with h | h
    · exact .inl h
    · rw [List.mem_singleton.mp h]
      split
      · next h0 => exact .inr (.inl ⟨rfl, h0⟩)
      · next h0 => exact .inr (.inr ⟨rfl, h0⟩)
  have hcount := hi.count
  exact { hi with
    closing := fun i => by
      rw [← hi.closing i, getElem?_concat_eq_some]
      constructor
      · rintro (h | ⟨-, h⟩)
        · exact h
        · split at h <;> cases h
      · exact .inl
    killed := fun _ _ => rfl
    shut := fun pc hpc h => by
      rcases hmem pc hpc with hold | ⟨-, h0⟩ | ⟨rfl, -⟩
      · exact hi.shut pc hold h
      · dsimp only at *
        omega
      · simp at h
    ended := fun hret => by
      rcases hmem _ hret with h | ⟨h, -⟩ | ⟨h, -⟩
      · exact hi.ended h
      · cases h
      · cases h
    woke := fun pc hpc hwakes h0 => by
      rcases hmem pc hpc with h | ⟨rfl, -⟩ | ⟨rfl, hne⟩
      · exact hi.woke pc h hwakes h0
      · cases hwakes
      · exact absurd h0 hne
    past := fun pc hpc => by
      rcases hmem pc hpc with h | ⟨rfl, -⟩ | ⟨rfl, -⟩
      · exact hi.past pc h
      · trivial
      · trivial
    reads := fun pc hpc hset => by
      rcases hmem pc hpc with h | ⟨rfl, -⟩ | ⟨rfl, -⟩
      · exact hi.reads pc h hset
      · cases hset
      · cases hset
    writes := fun hret => by
      rcases hmem _ hret with h | ⟨h, -⟩ | ⟨h, -⟩
      · exact hi.writes h
      · cases h
      · cases h }

theorem Inv.setKill (hi : Inv s) {i : Nat} {old new : KillPc} {rd wd : Option Nat}
    (hold : s.kills[i]? = some old) (hnot : old ≠ .closing ∧ new ≠ .closing) (hclose : new ≠ .close)
    (hended : new = .returned false → s.once = .done) (hwakes : new.wakes = true → old.wakes = true)
    (hpast : new.Past s.clock)
    (hrd : rd = s.readDeadline ∨ Expired rd s.clock)
    (hwd : wd = s.writeDeadline ∨ Expired wd s.clock)
    (hset : new.readSet = true → old.readSet = true ∨ Expired rd s.clock)
    (hret : new = .returned true → old = .returned true ∨ Expired wd s.clock) :
    Inv { s.setKill i new with readDeadline := rd, writeDeadline := wd } := by
  have hmem : ∀ pc ∈ s.kills.set i new, pc ∈ s.kills ∨ pc = new := fun _ => List.mem_or_eq_of_mem_set
  have holdmem := List.mem_of_getElem? hold
  exact { hi with
    closing := fun j => by
      change (s.kills.set i new)[j]? = _ ↔ s.once = _
      rw [← hi.closing j, List.getElem?_set]
      split
      · next heq =>
        subst heq
        rw [hold]
        obtain ⟨hlt, -⟩ := List.getElem?_eq_some_iff.mp hold
        rw [if_pos hlt, Option.some.injEq, Option.some.injEq]
        exact ⟨fun h => absurd h hnot.2, fun h => absurd h hnot.1⟩
      · rfl
    killed := fun pc hpc => hi.killed old holdmem
    shut := fun pc hpc h => by
      rcases hmem pc hpc with hm | rfl
      · exact hi.shut pc hm h
      · rcases h with h | h
        · exact absurd h hclose
        · exact absurd h hnot.2
    ended := fun h => by
      rcases hmem _ h with hm | hm
      · exact hi.ended hm
      · exact hended hm.symm
    woke := fun pc hpc hw h0 => by
      rcases hmem pc hpc with hm | rfl
      · exact hi.woke pc hm hw h0
      · exact hi.woke old holdmem (hwakes hw) h0
    past := fun pc hpc => by
      rcases hmem pc hpc with hm | rfl
      · exact hi.past pc hm
      · exact hpast
    reads := fun pc hpc hs hr => by
      have hread : old.readSet = true ∨ pc ∈ s.kills ∧ pc.readSet = true ∨ Expired rd s.clock := by
        rcases hmem pc hpc with hm | rfl
        · exact .inr (.inl ⟨hm, hs⟩)
        · exact (hset hs).imp_right .inr
      rcases hrd with rfl | hexp
      · rcases hread with h | ⟨hm, h⟩ | h
        · exact hi.reads old holdmem h hr
        · exact hi.reads pc hm h hr
        · exact h
      · exact hexp
    writes := fun h hcond => by
      rcases hwd with rfl | hexp
      · rcases hmem _ h with hm | hm
        · exact hi.writes hm hcond
        · rcases hret hm.symm with hm | hexp
          · exact hi.writes (hm ▸ holdmem) hcond
          · exact hexp
      · exact hexp }

theorem Inv.startClose (hi : Inv s) {i : Nat} (hold : s.kills[i]? = some .close)
    (hfresh : s.once = .fresh) :
    Inv { s.setKill i .closing with once := .running (some i), runs := s.runs + 1 } := by
  have hmem : ∀ pc ∈ s.kills.set i .closing, pc ∈ s.kills ∨ pc = .closing :=
    fun _ => List.mem_or_eq_of_mem_set
  have holdmem := List.mem_of_getElem? hold
  have hruns := hi.runs
  rw [if_pos hfresh] at hruns
  exact { hi with
    runs := by
      dsimp only
      rw [hruns]
      rfl
    owner := fun h => by cases h
    closing := fun j => by
      change (s.kills.set i .closing)[j]? = _ ↔ Once.running (some i) = .running (some j)
      rw [List.getElem?_set]
      split
      · next heq =>
        subst heq
        simpa using (List.getElem?_eq_some_iff.mp hold).1
      · next hne =>
        rw [hi.closing j, hfresh]
        simp [hne]
    killed := fun pc hpc => hi.killed _ holdmem
    shut := fun pc hpc h => by
      rcases hmem pc hpc with hm | rfl
      · exact hi.shut pc hm h
      · exact hi.shut _ holdmem (.inl rfl)
    ended := fun h => by
      rcases hmem _ h with hm | hm
      · exact absurd ((hi.ended hm).symm.trans hfresh) (by simp)
      · cases hm
    woke := fun _ _ _ _ => .inl (by simp)
    closed := fun _ h => by cases h
    past := fun pc hpc => by
      rcases hmem pc hpc with hm | rfl
      · exact hi.past pc hm
      · trivial
    reads := fun pc hpc hs => by
      rcases hmem pc hpc with hm | rfl
      · exact hi.reads pc hm hs
      · cases hs
    writes := fun h => by
      rcases hmem _ h with hm | hm
      · exact hi.writes hm
      · cases hm }

theorem Inv.endClose (hi : Inv s) {i : Nat} (hold : s.kills[i]? = some .closing) :
    Inv { s.setKill i (.returned false) with once := .done } := by
  have hmem : ∀ pc ∈ s.kills.set i (.returned false), pc ∈ s.kills ∨ pc = .returned false :=
    fun _ => List.mem_or_eq_of_mem_set
  have holdmem := List.mem_of_getElem? hold
  have hrunning := (hi.closing i).mp hold
  have hruns := hi.runs
  rw [if_neg (by simp [hrunning])] at hruns
  exact { hi with
    runs := hruns
    owner := fun h => by cases h
    closing := fun j => by
      change (s.kills.set i (.returned false))[j]? = _ ↔ Once.done = .running (some j)
      rw [List.getElem?_set]
      split
      · split <;> simp
      · next hne =>
        rw [hi.closing j, hrunning]
        simp [hne]
    killed := fun pc hpc => hi.killed _ holdmem
    shut := fun pc hpc h => by
      rcases hmem pc hpc with hm | rfl
      · exact hi.shut pc hm h
      · simp at h
    ended := fun _ => rfl
    woke := fun _ _ _ _ => .inl (by simp)
    closed := fun _ h => by cases h
    past := fun pc hpc => by
      rcases hmem pc hpc with hm | rfl
      · exact hi.past pc hm
      · trivial
    reads := fun pc hpc hs => by
      rcases hmem pc hpc with hm | rfl
      · exact hi.reads pc hm hs
      · cases hs
    writes := fun h => by
      rcases hmem _ h with hm | hm
      · exact hi.writes hm
      · cases hm }

theorem Inv.killer (hi : Inv s) {i : Nat} (h : s.killer i = some s') : Inv s' := by
  unfold State.killer at h
  split at h
  · next hold =>
    split at h
    · next hfresh =>
      cases h
      exact hi.startClose hold hfresh
    · cases h
    · next hdone =>
      cases h
      exact hi.setKill hold (by simp) (by simp) (fun _ => hdone) (by simp [KillPc.wakes]) trivial
        (.inl rfl) (.inl rfl) (by simp [KillPc.readSet]) (by simp)
  · next hold =>
    cases h
    exact hi.endClose hold
  · next hold =>
    cases h
    exact hi.setKill hold (by simp) (by simp) (by simp) (fun _ => rfl) le_rfl (.inl rfl) (.inl rfl)
      (by simp [KillPc.readSet]) (by simp)
  · next now hold =>
    cases h
    have hpast : now ≤ s.clock := hi.past _ (List.mem_of_getElem? hold)
    have hexp : Expired (some now) s.clock := ⟨now, rfl, hpast⟩
    exact hi.setKill hold (by simp) (by simp) (by simp) (fun _ => rfl) hpast (.inr hexp) (.inl rfl)
      (fun _ => .inr hexp) (by simp)
  · next now hold =>
    cases h
    have hexp : Expired (some now) s.clock := ⟨now, rfl, hi.past _ (List.mem_of_getElem? hold)⟩
    exact hi.setKill hold (by simp) (by simp) (by simp) (fun _ => rfl) trivial (.inl rfl) (.inr hexp)
      (fun _ => .inl rfl) (fun _ => .inr hexp)
  · cases h
  · cases h

theorem Expired.later {d : Option Nat} {t : Nat} (h : Expired d t) (dt : Nat) : Expired d (t + dt) := by
  obtain ⟨x, hx, hle⟩ := h
  exact ⟨x, hx, hle.trans (Nat.le_add_right t dt)⟩

theorem Inv.tick (hi : Inv s) (d : Nat) : Inv { s with clock := s.clock + d } :=
  { hi with
    past := fun pc hpc => by
      have := hi.past pc hpc
      cases pc with
      | setRead now | setWrite now => exact this.trans (Nat.le_add_right s.clock d)
      | _ => trivial
    reads := fun pc hpc hs hr => (hi.reads pc hpc hs hr).later d
    writes := fun h hcond => (hi.writes h hcond).later d }

theorem inv_of_reachable (h : (machine k).Reachable s) : Inv s := by
  refine Machine.Reach.invariant inv_start ?_ h
  intro s a s' _ hi _ hstep
  change s.step k a = some s' at hstep
  cases a with
  | invoke m =>
    simp only [State.step] at hstep
    split at hstep
    · next last hidle =>
      obtain ⟨p, hp, rfl⟩ := Option.map_eq_some_iff.mp hstep
      exact hi.invoke hidle hp
    · cases hstep
  | owner a => exact hi.ownerStep hstep
  | kill =>
    cases hstep
    exact hi.kill
  | killer i => exact hi.killer hstep
  | tick d =>
    cases hstep
    exact hi.tick d

/-! ## What `Kill` guarantees -/

def Ctl.isIdle : Ctl → Bool
  | .idle _ => true
  | _ => false

def State.reserved (s : State) : Bool :=
  s.conn.rxHeld || (s.conn.txOpen && !s.conn.enc.multi) || s.ctl.op = .slot

/-- `closeFn` is called once, and never while the owner is in a span, unless by the owner itself
with nothing reserved. -/
structure Guarded (s : State) : Prop where
  once : s.runs ≤ 1
  killed : ∀ woke, .returned woke ∈ s.kills → s.spans = 0 → s.ctl.isIdle = true → s.runs = 1
  closed : s.conn.closed = true → s.ctl.isIdle = true → s.runs = 1
  byKill : ∀ i, s.once = .running (some i) → s.spans = 0
  byOwner : s.once = .running none → s.spans = 0 ∨ s.reserved = false
  reads : .returned true ∈ s.kills → s.ctl.op = .waitRead → Expired s.readDeadline s.clock
  writes : .returned true ∈ s.kills → s.ctl.op = .waitWrite → Expired s.writeDeadline s.clock

theorem Inv.runs_one (hi : Inv s) (h : s.once ≠ .fresh) : s.runs = 1 := by
  rw [hi.runs, if_neg h]

theorem Inv.byOwner (hi : Inv s) (h : s.once = .running none) : s.spans = 0 ∨ s.reserved = false := by
  have hop := hi.owner h
  have hplace := hi.place.resolve_left fun hpanic => by
    rw [hpanic] at hop
    cases hop
  have hfits := hplace.fits
  have hspans := hplace.spans
  cases hctl : s.ctl with
  | refusedClose m | leaveClose a => exact .inl (hi.last (by rw [hctl]; rfl))
  | afterOp a =>
    rw [hctl] at hfits
    right
    unfold State.reserved
    rw [hplace.steady.not_held hfits.1.2, hfits.1.1, hctl]
    rfl
  | syncRefused =>
    rw [hctl] at hfits hspans
    rw [Conn.Bare.spans hfits] at hspans
    exact .inl hspans.symm
  | closeLink err =>
    rw [hctl] at hfits hspans
    rw [Conn.Bare.spans hfits.1] at hspans
    exact .inl hspans.symm
  | _ =>
    rw [hctl] at hop
    cases hop

theorem Inv.waitsWrite (hi : Inv s) (hret : .returned true ∈ s.kills) (hop : s.ctl.op = .waitWrite) :
    Expired s.writeDeadline s.clock := by
  have hplace := hi.place.resolve_left fun hpanic => by
    rw [hpanic] at hop
    cases hop
  have hfits := hplace.fits
  cases hctl : s.ctl with
  | reserve op bodyLen respMax rf =>
    rw [hctl] at hfits
    exact hi.writes hret (.inl hfits.2)
  | send body off committed =>
    rw [hctl] at hfits
    refine hi.writes hret (.inl ?_)
    by_contra hclosed
    have htx := hplace.steady.closed (Bool.not_eq_false _ ▸ hclosed)
    exact absurd (htx.symm.trans hfits) (by simp)
  | closeReserve => exact hi.writes hret (.inr hctl)
  | _ =>
    rw [hctl] at hop
    cases hop

theorem kill_guards (h : (machine k).Reachable s) : Guarded s := by
  have hi := inv_of_reachable h
  have hidle : s.ctl.isIdle = true → ∃ last, s.ctl = .idle last := by
    intro h
    cases hctl : s.ctl with
    | idle last => exact ⟨last, rfl⟩
    | _ =>
      rw [hctl] at h
      cases h
  refine ⟨?_, ?_, ?_, ?_, hi.byOwner, ?_, hi.waitsWrite⟩
  · rw [hi.runs]
    split <;> omega
  · intro woke hret hspans hin
    obtain ⟨last, hctl⟩ := hidle hin
    apply hi.runs_one
    cases woke with
    | false => simp [hi.ended hret]
    | true =>
      have hcount := hi.count
      rw [hctl, hspans] at hcount
      have hwoke := hi.woke _ hret rfl hcount
      rw [hctl] at hwoke
      exact hwoke.resolve_right (by simp [Ctl.lastClose])
  · intro hclosed hin
    obtain ⟨last, hctl⟩ := hidle hin
    apply hi.runs_one
    intro hfresh
    have hclose := hi.closed hclosed hfresh
    rw [hctl] at hclose
    simp [Ctl.inClose] at hclose
  · intro i hrunning
    exact hi.shut .closing (List.mem_of_getElem? ((hi.closing i).mpr hrunning)) (.inr rfl)
  · intro hret hop
    refine hi.reads _ hret rfl ?_
    cases hctl : s.ctl with
    | read | closeRead => rfl
    | _ =>
      rw [hctl] at hop
      cases hop

def submits : List Act := [.owner .ok, .invoke (.submit []), .owner .ok, .owner .ok]

/-- A third request reads the first response to make room, so that its call is recycled while the
two others are live, and `Kill` comes during the `Wait` for the second one. -/
def killedWait : List Act :=
  [.invoke (.beginRequest 1 0 0), .owner .ok] ++ submits ++
    [.invoke (.beginRequest 1 0 0), .owner .ok] ++ submits ++
    [.invoke (.beginRequest 1 0 0), .owner .ok, .owner .ok, .owner .ok,
      .owner (.frame (putHeader ⟨kindResponse, 0, 1, 1, 0, 0⟩)), .owner .ok] ++ submits ++
    [.invoke (.wait (some 0) 1), .owner .ok, .invoke (.release 1), .owner .ok,
      .invoke (.wait (some 1) 2), .owner .ok, .owner .ok, .owner .ok,
      .tick 7, .kill, .killer 0, .killer 0, .killer 0]

theorem kill_guards_wait :
    ∃ s, (machine smallCfg).Reachable s ∧ (.returned true ∈ s.kills ∧ s.ctl.op = .waitRead) ∧
      Guarded s :=
  Machine.exists_reachable_and killedWait (by decide +kernel) fun _ hs _ => kill_guards hs

/-- Whatever `Kill` does between two steps of the owner, the tables of calls stay in order. -/
theorem call_tables_kept (h : (machine k).Reachable s) (hctl : s.ctl ≠ .panicked) : s.conn.Wf :=
  ((inv_of_reachable h).place.resolve_left hctl).steady.wf

theorem call_tables_kept_wait :
    ∃ s, (machine smallCfg).Reachable s ∧
      (s.ctl.op = .waitRead ∧ s.conn.live = [2, 1] ∧ s.conn.free = [0]) ∧ s.conn.Wf :=
  Machine.exists_reachable_and killedWait (by decide +kernel) fun _ hs hp =>
    call_tables_kept hs fun hctl => by simp [hctl, Ctl.op] at hp

end Hqq.Bindgen
