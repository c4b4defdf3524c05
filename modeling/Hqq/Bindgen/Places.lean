import Hqq.Bindgen.Calls
import Hqq.Bindgen.Owner

/-!
# Where the owner may be

Each control point with what is known there of the open `Enc`, the open `Dec` and the calls, and
with the number of spans that the owner is in.
-/

namespace Hqq.Bindgen

def Run.spans : Run → Nat
  | .await _ => 0
  | .room .. | .sync => 1

def Ctl.spans : Ctl → Nat
  | .idle _ | .enter _ | .refused _ | .refusedClose _ | .commit _ | .send .. | .sendCommit ..
  | .endRx | .leaveClose _ | .syncRefused | .errCheck | .closeLink _ | .panicked => 0
  | .arm r _ | .armed r | .read r | .release r _ | .readError r _ => r.spans
  | .reserve .. | .reserveFailed .. | .sendFailed .. | .aborting | .afterOp _ | .leave _
  | .closeArmWrite | .closeKilledWrite | .closeReserve | .closeCommit | .closeArmRead
  | .closeKilledRead | .closeRead | .closeRelease _ | .closeFailed _ => 1

def Ctl.inClose : Ctl → Bool
  | .enter .close | .refused .close | .refusedClose .close | .leave (.closed _)
  | .leaveClose (.closed _) | .closeArmWrite | .closeKilledWrite | .closeReserve | .closeCommit
  | .closeArmRead | .closeKilledRead | .closeRead | .closeRelease _ | .closeFailed _
  | .closeLink _ => true
  | _ => false

namespace Conn

def spans (c : Conn) : Nat := c.txOpen.toNat + c.rxOpen.toNat

def Bare (c : Conn) : Prop := c.txOpen = false ∧ c.rxOpen = false

def FitsRun (c : Conn) : Run → Prop
  | .room .. => c.Bare ∧ c.closed = false
  | .await r => c.rxOpen = true ∧ c.rxHeld = false ∧ r ∈ c.live
  | .sync => c.Bare

def FitsMethod (c : Conn) : Method → Prop
  | .beginRequest .. => c.Bare ∧ c.closed = false
  | .wait (some r) _ => c.rxOpen = false ∧ r ∈ c.live
  | .sync => c.Bare
  | .close => c.Bare ∧ c.closed = true
  | _ => False

def FitsAfter (c : Conn) : After → Prop
  | .ret _ => True
  | .synced _ => c.Bare
  | .closed _ => c.Bare ∧ c.closed = true

def Fits (c : Conn) : Ctl → Prop
  | .idle _ | .errCheck => True
  | .panicked => False
  | .enter m | .refused m | .refusedClose m => c.FitsMethod m
  | .arm r _ | .armed r | .read r | .release r _ | .readError r _ => c.FitsRun r
  | .reserve .. | .reserveFailed .. => c.Bare ∧ c.closed = false
  | .commit _ | .send .. | .sendCommit .. => c.txOpen = true
  | .sendFailed .. | .aborting => c.txOpen = false
  | .endRx => c.rxOpen = true ∧ c.rxHeld = false
  | .afterOp a => c.Bare ∧ c.FitsAfter a
  | .leave a | .leaveClose a => c.FitsAfter a
  | .syncRefused => c.Bare
  | .closeArmWrite | .closeKilledWrite | .closeReserve | .closeCommit | .closeArmRead
  | .closeKilledRead | .closeRead | .closeRelease _ | .closeFailed _ | .closeLink _ =>
    c.Bare ∧ c.closed = true

structure Steady (c : Conn) : Prop where
  wf : Wf c
  held : c.rxHeld = true → c.rxOpen = true
  closed : c.closed = true → c.txOpen = false

end Conn

/-- The owner is at a place of its code, inside `n` spans, and `Close` was called or not. -/
structure Placed (n : Nat) (closed : Bool) (p : Conn × Ctl) : Prop where
  steady : p.1.Steady
  fits : p.1.Fits p.2
  spans : p.1.spans + p.2.spans = n
  closed : p.1.closed = closed

namespace Conn

variable {k : Cfg} {c c' : Conn} {r : CallRef} {run : Run} {a : After} {e : LinkErr}

/-! ## What keeps a session steady -/

theorem Kept.spans (h : Kept c c') : c'.spans = c.spans := by
  unfold Conn.spans
  rw [h.txOpen, h.rxOpen]

theorem Kept.bare (h : Kept c c') : c'.Bare ↔ c.Bare := by
  unfold Bare
  rw [h.txOpen, h.rxOpen]

theorem Steady.kept (hs : Steady c) (h : Kept c c') (hwf : Wf c') : Steady c' where
  wf := hwf
  held := by
    rw [h.rxHeld, h.rxOpen]
    exact hs.held
  closed := by
    rw [h.closed, h.txOpen]
    exact hs.closed

theorem Bare.spans (h : c.Bare) : c.spans = 0 := by
  unfold Conn.spans
  rw [h.1, h.2]
  rfl

theorem Steady.not_held (hs : Steady c) (h : c.rxOpen = false) : c.rxHeld = false := by
  by_contra hheld
  have := hs.held (Bool.not_eq_false _ ▸ hheld)
  rw [h] at this
  cases this

theorem Steady.closeRx (hs : Steady c) (h : c.rxHeld = false) : Steady { c with rxOpen := false } where
  wf := { hs.wf with }
  held := fun hheld => absurd (h.symm.trans hheld) (by simp)
  closed := hs.closed

theorem Steady.closeTx (hs : Steady c) : Steady { c with txOpen := false } where
  wf := { hs.wf with }
  held := hs.held
  closed := fun _ => rfl

theorem spans_closeRx (h : c.rxOpen = true) : { c with rxOpen := false }.spans + 1 = c.spans := by
  unfold Conn.spans
  rw [h]
  rfl

theorem spans_closeTx (h : c.txOpen = true) : { c with txOpen := false }.spans + 1 = c.spans := by
  unfold Conn.spans
  rw [h]
  change 0 + c.rxOpen.toNat + 1 = 1 + c.rxOpen.toNat
  omega

theorem failRx_eq (c : Conn) (err : SessErr) :
    ∃ b, c.failRx err = { c with rxDead := true, broken := b } := by
  unfold failRx
  split
  · exact ⟨_, rfl⟩
  · exact ⟨c.broken, rfl⟩

theorem failTx_eq (c : Conn) (e : LinkErr) : ∃ b, c.failTx e = { c with broken := b } := by
  unfold failTx
  split
  · exact ⟨_, rfl⟩
  · exact ⟨c.broken, rfl⟩

theorem Steady.marked (hs : Steady c) (d : Bool) (b : Option SessErr) :
    Steady { c with rxDead := d, broken := b } where
  wf := { hs.wf with }
  held := hs.held
  closed := hs.closed

theorem FitsRun.marked (h : c.FitsRun run) (d : Bool) (b : Option SessErr) :
    { c with rxDead := d, broken := b }.FitsRun run := by
  cases run <;> exact h

theorem placed_afterOp (hs : Steady c) (ha : c.FitsAfter a) : Placed (c.spans + 1) c.closed (c.afterOp a) := by
  unfold Conn.afterOp
  split
  · next h => exact ⟨hs, ⟨⟨h.2.1, h.2.2⟩, ha⟩, rfl, rfl⟩
  · exact ⟨hs, ha, rfl, rfl⟩

theorem placed_resume (hs : Steady c) (ha : c.FitsAfter a) : Placed c.spans c.closed (c.resume a) := by
  cases a with
  | ret r => exact ⟨hs, trivial, rfl, rfl⟩
  | synced rerr =>
    obtain ⟨d, hd, hwf, -⟩ := hs.wf.discardAnswered
    have hkept := kept_discardFrom hd
    unfold Conn.resume
    rw [hd]
    exact ⟨hs.kept hkept hwf, trivial, hkept.spans, hkept.closed⟩
  | closed err => exact ⟨hs, ha, rfl, rfl⟩

theorem placed_answered (hs : Steady c) (hr : r ∈ c.live) (hdone : (c.heap r).done = true)
    (hopen : c.rxOpen = true) (hstatus : (c.heap r).status ≠ 0 → c.rxHeld = false) :
    Placed c.spans c.closed (c.answered r) := by
  unfold Conn.answered
  dsimp only
  split
  · next hne =>
    obtain ⟨d, hd, hends⟩ := hs.wf.recycle hr hdone
    have hkept := kept_recycle hd
    have hheld := hkept.rxHeld.trans (hstatus hne)
    have hspans := spans_closeRx (hkept.rxOpen.trans hopen)
    rw [hd]
    have h := placed_afterOp (a := .ret (.err (.status (c.heap r).op (c.heap r).status (c.heap r).msg)))
      ((hs.kept hkept hends.wf).closeRx hheld) trivial
    rw [hspans, hkept.spans] at h
    exact hkept.closed ▸ h
  · have hs' : Steady { c with rxGen := c.rxGen + 1 } := ⟨{ hs.wf with }, hs.held, hs.closed⟩
    obtain ⟨d, hd, hends⟩ := hs'.wf.recycle hr hdone
    have hkept := kept_recycle hd
    rw [hd]
    exact ⟨hs'.kept hkept hends.wf, trivial, hkept.spans, hkept.closed⟩

theorem placed_reserveRequest (hs : Steady c) (hbare : c.Bare) (hclosed : c.closed = false)
    {op : U16} {bodyLen respMax rf : Nat} :
    Placed 1 c.closed (c.reserveRequest k op bodyLen respMax rf) := by
  unfold Conn.reserveRequest
  split
  · exact ⟨hs, ⟨hbare, hclosed⟩, by rw [hbare.spans]; rfl, rfl⟩
  · refine ⟨⟨{ hs.wf with }, hs.held, fun h => absurd (hclosed.symm.trans h) (by simp)⟩, trivial, ?_, rfl⟩
    unfold Conn.spans
    rw [hbare.2]
    rfl

theorem FitsRun.not_held (hs : Steady c) (h : c.FitsRun run) : c.rxHeld = false := by
  cases run with
  | room => exact hs.not_held h.1.2
  | await r => exact h.2.1
  | sync => exact hs.not_held h.2

theorem placed_runFailed (hs : Steady c) (h : c.FitsRun run) :
    Placed (c.spans + run.spans) c.closed (c.runFailed e run) := by
  have hheld := h.not_held hs
  cases run with
  | room op bodyLen respMax rf => exact ⟨hs, trivial, rfl, rfl⟩
  | await r =>
    obtain ⟨hopen, -, hr⟩ := h
    have hspans := spans_closeRx hopen
    have hs' := hs.closeRx hheld
    unfold Conn.runFailed
    dsimp only
    split
    · obtain ⟨d, hd, hends⟩ := hs'.wf.endCall hr
      have hkept := kept_endCall hd
      unfold Conn.abandonCall
      rw [hd]
      have h := placed_afterOp (a := .ret (.err (.session (some (c.heap r).op) c.broken)))
        (hs'.kept hkept hends.wf) trivial
      rw [hkept.spans, hspans, hkept.closed] at h
      exact h
    · exact ⟨hs', trivial, hspans, rfl⟩
  | sync =>
    unfold Conn.runFailed
    dsimp only
    split
    · obtain ⟨d, hd, hwf, -⟩ := hs.wf.abandon
      have hkept := kept_abandon hd
      rw [hd]
      have h := placed_afterOp (a := .ret (.err (.session none d.broken))) (hs.kept hkept hwf) trivial
      rw [hkept.spans, hkept.closed] at h
      exact h
    · exact ⟨hs, h, rfl, rfl⟩

theorem placed_failRx (hs : Steady c) (h : c.FitsRun run) (err : SessErr) :
    Placed (c.spans + run.spans) c.closed ((c.failRx err).runFailed e run) := by
  obtain ⟨b, hb⟩ := failRx_eq c err
  rw [hb]
  exact placed_runFailed (hs.marked true b) (h.marked true b)

theorem placed_armRead (hs : Steady c) (h : c.FitsRun run) :
    Placed (c.spans + run.spans) c.closed (c.armRead k run) := by
  have harmed : ∀ b, Placed (c.spans + run.spans) c.closed ({ c with rdArmed := b }, .arm run b) :=
    fun b => ⟨⟨{ hs.wf with }, hs.held, hs.closed⟩, by cases run <;> exact h, rfl, rfl⟩
  unfold Conn.armRead
  split
  · exact harmed true
  split
  · exact harmed false
  · exact ⟨hs, h, rfl, rfl⟩

theorem placed_runHead (run : Run) (hs : Steady c) (h : c.FitsRun run) (armed : Bool) :
    Placed (c.spans + run.spans) c.closed (c.runHead k run armed) := by
  have hrest : Placed (c.spans + run.spans) c.closed (if armed then (c, .read run) else c.armRead k run) := by
    split
    · exact ⟨hs, h, rfl, rfl⟩
    · exact placed_armRead hs h
  unfold Conn.runHead
  cases run with
  | room op bodyLen respMax rf =>
    dsimp only
    split
    · rw [h.1.spans]
      exact placed_reserveRequest hs h.1 h.2
    split
    · exact placed_runFailed hs h
    · exact hrest
  | await r =>
    dsimp only
    split
    · next hdone => exact placed_answered hs h.2.2 hdone h.1 fun _ => h.2.1
    split
    · exact placed_runFailed hs h
    · exact hrest
  | sync =>
    dsimp only
    split
    · split
      · exact placed_runFailed hs h
      · exact ⟨hs, h, rfl, rfl⟩
    · exact hrest

theorem placed_armFailed (hs : Steady c) (h : c.FitsRun run) :
    Placed (c.spans + run.spans) c.closed (c.armFailed e run) := by
  cases run with
  | room => exact placed_runFailed hs h
  | await r | sync => exact ⟨hs, h, rfl, rfl⟩

theorem placed_released (hs : Steady c) (h : c.FitsRun run) (out : Except SessErr Bool)
    (rerr : Option LinkErr) : Placed (c.spans + run.spans) c.closed (c.released k run out rerr) := by
  unfold Conn.released
  split
  case h_4 => exact placed_runHead run hs h true
  case h_5 => exact ⟨hs, h, rfl, rfl⟩
  all_goals exact placed_failRx hs h _

theorem placed_readFailed (hs : Steady c) (h : c.FitsRun run) (killed : Bool) :
    Placed (c.spans + run.spans) c.closed (c.readFailed run e killed) := by
  unfold Conn.readFailed
  split
  · exact placed_failRx hs h _
  split
  · exact placed_runFailed hs h
  · exact placed_failRx hs h _

theorem FitsRun.kept (h : c.FitsRun run) (hkept : Kept c c') (hlive : c'.live = c.live) :
    c'.FitsRun run := by
  cases run with
  | room => exact ⟨hkept.bare.mpr h.1, hkept.closed.trans h.2⟩
  | await r => exact ⟨hkept.rxOpen.trans h.1, hkept.rxHeld.trans h.2.1, hlive ▸ h.2.2⟩
  | sync => exact hkept.bare.mpr h

theorem mode_hold (h : c.mode run = .hold) : ∃ r, run = .await r ∧ c.unans.head? = some r := by
  cases run with
  | room => cases h
  | await r =>
    simp only [mode] at h
    split at h
    · next hr => exact ⟨r, rfl, hr⟩
    · cases h
  | sync => cases h

theorem placed_readFrame (hs : Steady c) (h : c.FitsRun run) {b : List Byte}
    (hok : c.acceptFrame k b (c.mode run) ≠ none) :
    Placed (c.spans + run.spans) c.closed (c.readFrame k run b) := by
  unfold Conn.readFrame
  cases hout : c.acceptFrame k b (c.mode run) with
  | none => exact absurd hout hok
  | some p =>
    obtain ⟨d, out⟩ := p
    have hkept := kept_acceptFrame hout
    have hs' := hs.kept hkept (hs.wf.acceptFrame hout)
    have hfits := h.kept hkept (live_acceptFrame hout)
    rw [← hkept.spans, ← hkept.closed]
    cases out with
    | fault _ | complete | more => exact ⟨hs', hfits, rfl, rfl⟩
    | held =>
      obtain ⟨r, rfl, hr⟩ := mode_hold (acceptFrame_held hout)
      obtain ⟨hdone, hstatus⟩ := hs.wf.held hr hout
      have hheld : Steady { d with rxHeld := true } := ⟨{ hs'.wf with }, fun _ => hfits.1, hs'.closed⟩
      unfold Conn.runHead
      dsimp only
      rw [if_pos hdone]
      exact placed_answered hheld hfits.2.2 hdone hfits.1 fun hne => absurd hstatus hne

/-! ## Sending and releasing -/

theorem spans_register (id : U32) : (c.register id).1.spans = c.spans ∧
    (c.register id).1.rxOpen = c.rxOpen ∧ (c.register id).1.rxHeld = c.rxHeld ∧
    (c.register id).1.txOpen = c.txOpen ∧ (c.register id).1.closed = c.closed := by
  unfold Conn.register Conn.newCall
  cases c.free <;> exact ⟨rfl, rfl, rfl, rfl, rfl⟩

theorem placed_submitted (hs : Steady c) (htx : c.txOpen = true) : Placed c.spans c.closed c.submitted := by
  unfold Conn.submitted
  have hs' := hs.closeTx
  obtain ⟨hspans, hrx, hheld, htx', hclosed⟩ :=
    spans_register (c := { c with txOpen := false }) (nextID c.lastID)
  have hsteady : Steady ({ c with txOpen := false }.register (nextID c.lastID)).1 := by
    refine ⟨hs'.wf.register _, ?_, fun _ => htx'⟩
    rw [hheld, hrx]
    exact hs'.held
  have h := placed_afterOp (a := .ret (.call
    ({ c with txOpen := false }.register (nextID c.lastID)).2 (nextID c.lastID)))
    hsteady trivial
  rw [hspans, spans_closeTx htx, hclosed] at h
  exact h

theorem placed_endRx (hs : Steady c) (hopen : c.rxOpen = true) (hheld : c.rxHeld = false) :
    Placed c.spans c.closed c.endRx := by
  rw [← spans_closeRx hopen]
  exact placed_afterOp (hs.closeRx hheld) trivial

theorem txFailed_eq (c : Conn) (e : LinkErr) (killed : Bool) :
    ∃ d b e', c.txFailed e killed = ({ c with rxDead := d, broken := b }, e') := by
  unfold txFailed markKilled
  split
  · obtain ⟨b, hb⟩ := failRx_eq c (.transport .closed)
    exact ⟨true, b, .closed, by rw [hb]⟩
  · obtain ⟨b, hb⟩ := failTx_eq c e
    exact ⟨c.rxDead, b, e, by rw [hb]⟩

theorem rfOf_eq (k : Cfg) (c : Conn) (op : U16) (respMax : Nat) :
    ∃ t rf, c.rfOf k op respMax = ({ c with rfs := t }, rf) := by
  unfold rfOf
  dsimp only
  split
  · exact ⟨c.rfs, _, rfl⟩
  · exact ⟨_, _, rfl⟩

theorem placed_entered {m : Method} {p : Conn × Ctl} (hs : Steady c) (hm : c.FitsMethod m)
    (h : c.entered k m = some p) : Placed (c.spans + 1) c.closed p := by
  unfold Conn.entered at h
  split at h
  · next op bodyLen respMax =>
    obtain ⟨t, rf, hrf⟩ := rfOf_eq k c op respMax.toNat
    rw [hrf] at h
    cases h
    exact placed_runHead (c := { c with rfs := t })
      (.room op bodyLen.toNat respMax.toNat rf) ⟨{ hs.wf with }, hs.held, hs.closed⟩ hm false
  · next r _ =>
    cases h
    have hspans : { c with rxOpen := true }.spans = c.spans + 1 := by
      unfold Conn.spans
      rw [hm.1]
      rfl
    rw [← hspans]
    exact placed_runHead (c := { c with rxOpen := true }) (.await r)
      ⟨{ hs.wf with }, fun _ => rfl, hs.closed⟩ ⟨rfl, hs.not_held hm.1, hm.2⟩ false
  · cases h
    exact placed_runHead .sync hs hm false
  · cases h
    exact ⟨hs, hm, rfl, rfl⟩
  · cases h

theorem placed_notEntered {m : Method} {p : Conn × Ctl} (hs : Steady c) (hm : c.FitsMethod m)
    (h : c.notEntered m = some p) : Placed c.spans c.closed p := by
  obtain ⟨b, hb⟩ := failRx_eq c (.transport .closed)
  have hs' := hs.marked true b
  unfold Conn.notEntered at h
  unfold markKilled at h
  rw [hb] at h
  split at h
  · cases h
    exact ⟨hs', trivial, rfl, rfl⟩
  · next r _ =>
    obtain ⟨d, hd, hends⟩ := hs'.wf.endCall hm.2
    have hkept := kept_endCall hd
    unfold Conn.abandonCall at h
    rw [hd] at h
    cases h
    exact ⟨hs'.kept hkept hends.wf, trivial, hkept.spans, hkept.closed⟩
  · obtain ⟨d, hd, hwf, -⟩ := hs'.wf.abandon
    have hkept := kept_abandon hd
    rw [hd] at h
    cases h
    dsimp only [Option.map_some, orPanic]
    split
    · exact ⟨hs'.kept hkept hwf, hkept.bare.mpr hm, hkept.spans, hkept.closed⟩
    · exact ⟨hs'.kept hkept hwf, trivial, hkept.spans, hkept.closed⟩
  · cases h
    exact ⟨hs', hm, rfl, rfl⟩
  · cases h

theorem placed_invoke {m : Method} {p : Conn × Ctl} (hs : Steady c)
    (h : c.invoke k m = some p) :
    Placed c.spans p.1.closed p ∧ (p.1.closed = c.closed ∨ p.2.inClose = true) := by
  have hbare : ¬ (c.txOpen = true ∨ c.rxOpen = true) → c.Bare := by
    intro hnot
    push Not at hnot
    exact ⟨Bool.not_eq_true _ ▸ hnot.1, Bool.not_eq_true _ ▸ hnot.2⟩
  have hsame : ∀ {p : Conn × Ctl}, Placed c.spans c.closed p →
      Placed c.spans p.1.closed p ∧ (p.1.closed = c.closed ∨ p.2.inClose = true) :=
    fun hp => ⟨hp.closed.symm ▸ hp, .inl hp.closed⟩
  have hidle : ∀ ret, Placed c.spans c.closed (c, .idle ret) := fun ret => ⟨hs, trivial, rfl, rfl⟩
  cases m with
  | beginRequest op bodyLen respMax =>
    cases h
    apply hsame
    split
    · exact hidle _
    next hopen =>
    split
    · exact hidle _
    split
    · exact hidle _
    next hclosed =>
    split
    · exact hidle _
    · exact ⟨hs, ⟨hbare hopen, Bool.not_eq_true _ ▸ hclosed⟩, rfl, rfl⟩
  | submit body =>
    apply hsame
    simp only [Conn.invoke] at h
    split at h
    · cases h
      exact hidle _
    next htx =>
    have htx : c.txOpen = true := Bool.not_eq_false _ ▸ htx
    split at h
    · cases h
    split at h <;> cases h
    · exact ⟨hs, htx, rfl, rfl⟩
    · exact ⟨hs, htx, rfl, rfl⟩
  | abort =>
    cases h
    apply hsame
    split
    · exact hidle _
    next htx =>
    have htx : c.txOpen = true := Bool.not_eq_false _ ▸ htx
    dsimp only
    rw [← spans_closeTx htx]
    split
    · exact placed_afterOp (a := .ret .unit) hs.closeTx trivial
    · exact ⟨hs.closeTx, rfl, rfl, rfl⟩
  | wait call id =>
    apply hsame
    unfold Conn.invoke at h
    cases call with
    | none =>
      cases h
      exact hidle _
    | some r =>
      dsimp only at h
      split at h
      · cases h
      cases h
      split
      · exact hidle _
      next hpending =>
      split
      · exact hidle _
      next hopen =>
      push Not at hpending
      have hlive := hs.wf.pending r (Bool.not_eq_false _ ▸ hpending.1)
      exact ⟨hs, ⟨Bool.not_eq_true _ ▸ hopen, hlive⟩, rfl, rfl⟩
  | release gen =>
    cases h
    apply hsame
    split
    · exact hidle _
    next hgen =>
    push Not at hgen
    have hopen : c.rxOpen = true := Bool.not_eq_false _ ▸ hgen.2
    split
    · refine ⟨⟨{ hs.wf with }, fun hheld => absurd hheld (by simp), hs.closed⟩, ⟨hopen, rfl⟩, rfl, rfl⟩
    · next hheld => exact placed_endRx hs hopen (Bool.not_eq_true _ ▸ hheld)
  | malformed fn =>
    cases h
    apply hsame
    obtain ⟨b, hb⟩ := failRx_eq c (.protocol ("malformed response body of " ++ fn))
    rw [hb]
    exact ⟨hs.marked true b, trivial, rfl, rfl⟩
  | sync =>
    cases h
    apply hsame
    split
    · exact hidle _
    · next hopen => exact ⟨hs, hbare hopen, rfl, rfl⟩
  | close =>
    cases h
    split
    · exact hsame (hidle _)
    next hopen =>
    split
    · exact hsame (hidle _)
    have hs' : Steady { c with closed := true } := ⟨{ hs.wf with }, hs.held, fun _ => (hbare hopen).1⟩
    obtain ⟨d, hd, hwf, -⟩ := hs'.wf.abandon
    have hkept := kept_abandon hd
    have hfits : d.Bare ∧ d.closed = true := ⟨hkept.bare.mpr (hbare hopen), hkept.closed⟩
    rw [hd]
    dsimp only [Option.map_some, orPanic]
    split <;> exact ⟨⟨hs'.kept hkept hwf, hfits, hkept.spans, rfl⟩, .inr rfl⟩
  | err =>
    cases h
    apply hsame
    split
    · exact ⟨hs, trivial, rfl, rfl⟩
    · exact hidle _

theorem placed_closeFrame (hs : Steady c) (h : c.Bare ∧ c.closed = true) (b : List Byte) :
    Placed (c.spans + 1) c.closed (c.closeFrame b) := by
  unfold Conn.closeFrame
  dsimp only
  split_ifs <;> exact ⟨hs, h, rfl, rfl⟩

def spansAfter (n : Nat) : Ctl → Ans → Nat
  | .enter _, .gate false => n + 1
  | .leave _, _ => n - 1
  | _, _ => n

theorem placed_next {n : Nat} {b : Bool} {ctl : Ctl} {ans : Ans} {p : Conn × Ctl} (hp : Placed n b (c, ctl))
    (h : c.next k ctl ans = some p)
    (hok : ∀ run b, ctl = .read run → ans = .frame b → c.acceptFrame k b (c.mode run) ≠ none) :
    Placed (spansAfter n ctl ans) b p := by
  obtain ⟨hs, hfits, hspans, hclosed⟩ := hp
  subst hspans hclosed
  -- one goal for each answer that the control point may get
  cases ctl <;> cases ans
  case reserveFailed.gate op e killed =>
    obtain ⟨d, b, e', hb⟩ := txFailed_eq c e killed
    simp only [Conn.next, hb] at h
    cases h
    exact ⟨hs.marked d b, trivial, rfl, rfl⟩
  case sendFailed.gate e committed killed =>
    obtain ⟨d, b, e', hb⟩ := txFailed_eq c e killed
    simp only [Conn.next, hb] at h
    cases h
    exact placed_afterOp (hs.marked d b) trivial
  all_goals try cases h
  case enter.gate m killed =>
    cases killed with
    | true =>
      cases h
      exact ⟨hs, hfits, rfl, rfl⟩
    | false => exact placed_entered hs hfits h
  case refused.gate m last =>
    cases last with
    | true =>
      cases h
      exact ⟨hs, hfits, rfl, rfl⟩
    | false => exact placed_notEntered hs hfits h
  case refusedClose.ok | refusedClose.fail => exact placed_notEntered hs hfits h
  case arm.fail => exact placed_armFailed hs hfits
  case armed.gate run killed =>
    cases killed with
    | true => exact placed_armFailed hs hfits
    | false => exact ⟨hs, hfits, rfl, rfl⟩
  case read.frame run b => exact placed_readFrame hs hfits (hok run b rfl rfl)
  case release.ok run out => exact placed_released hs hfits out none
  case release.fail run out e => exact placed_released hs hfits out (some e)
  case readError.gate run e killed => exact placed_readFailed hs hfits killed
  case reserve.ok =>
    refine ⟨⟨{ hs.wf with }, hs.held, fun hclosed => ?_⟩, trivial, ?_, rfl⟩
    · exact absurd (hfits.2.symm.trans hclosed) (by simp)
    · change true.toNat + c.rxOpen.toNat + 0 = c.spans + 1
      rw [hfits.1.spans, hfits.1.2]
      rfl
  case commit.ok => exact placed_submitted hs hfits
  case commit.fail | send.fail | sendCommit.fail => exact ⟨hs.closeTx, rfl, spans_closeTx hfits, rfl⟩
  case sendCommit.ok =>
    split
    · exact placed_submitted hs hfits
    · exact ⟨hs, hfits, rfl, rfl⟩
  case aborting.ok => exact placed_afterOp hs trivial
  case aborting.fail e =>
    obtain ⟨b, hb⟩ := failTx_eq c e
    rw [hb]
    exact placed_afterOp (hs.marked c.rxDead b) trivial
  case endRx.ok => exact placed_endRx hs hfits.1 hfits.2
  case endRx.fail e =>
    obtain ⟨b, hb⟩ := failRx_eq c (.transport e)
    rw [hb]
    exact placed_endRx (hs.marked true b) hfits.1 hfits.2
  case afterOp.ok | afterOp.fail => exact ⟨hs, hfits.2, rfl, rfl⟩
  case leave.gate =>
    split
    · exact ⟨hs, hfits, rfl, rfl⟩
    · exact placed_resume hs hfits
  case leaveClose.ok | leaveClose.fail => exact placed_resume hs hfits
  case syncRefused.ok | syncRefused.fail => exact ⟨hs, trivial, rfl, rfl⟩
  case errCheck.gate =>
    obtain ⟨b, hb⟩ := failRx_eq c (.transport .closed)
    split
    · unfold markKilled
      rw [hb]
      exact ⟨hs.marked true b, trivial, rfl, rfl⟩
    · exact ⟨hs, trivial, rfl, rfl⟩
  case closeKilledWrite.gate killed | closeKilledRead.gate killed =>
    cases killed <;> exact ⟨hs, hfits, rfl, rfl⟩
  case closeArmRead.ok => exact ⟨⟨{ hs.wf with }, hs.held, hs.closed⟩, hfits, rfl, rfl⟩
  case closeRelease.ok b => exact placed_closeFrame hs hfits b
  case closeLink.ok | closeLink.fail =>
    exact ⟨⟨{ hs.wf with }, hs.held, hs.closed⟩, trivial, rfl, rfl⟩
  all_goals exact ⟨hs, hfits, rfl, rfl⟩

theorem placed_or_panicked {n : Nat} {b : Bool} {ctl : Ctl} {ans : Ans} {p : Conn × Ctl}
    (hp : Placed n b (c, ctl)) (h : c.next k ctl ans = some p) :
    Placed (spansAfter n ctl ans) b p ∨ p = (c, .panicked) ∧ ∃ run f, ctl = .read run ∧
      ans = .frame f ∧ c.acceptFrame k f (c.mode run) = none := by
  by_cases hok : ∃ run f, ctl = .read run ∧ ans = .frame f ∧ c.acceptFrame k f (c.mode run) = none
  · obtain ⟨run, f, rfl, rfl, hnone⟩ := hok
    refine .inr ⟨?_, run, f, rfl, rfl, hnone⟩
    have hp' : p = c.readFrame k run f := (Option.some.inj h).symm
    rw [hp']
    unfold Conn.readFrame
    rw [hnone]
  · push Not at hok
    exact .inl (placed_next hp h hok)

end Conn

end Hqq.Bindgen
