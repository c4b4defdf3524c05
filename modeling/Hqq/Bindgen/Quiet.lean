import Hqq.Bindgen.Places

/-!
# What the methods do to the calls

Apart from a frame that is read and a request that is committed, every step of the owner leaves
the unanswered calls alone or drops all of them.
-/

namespace Hqq.Bindgen

/-! ## Inside of `Sync` -/

def Run.inSync : Run → Bool
  | .sync => true
  | .room .. | .await _ => false

def After.inSync : After → Bool
  | .synced _ => true
  | .ret _ | .closed _ => false

/-- `Sync` has not returned yet. -/
def Ctl.inSync : Ctl → Bool
  | .arm r _ | .armed r | .read r | .release r _ | .readError r _ => r.inSync
  | .afterOp a | .leave a | .leaveClose a => a.inSync
  | _ => false

def After.Plain (a : After) : Prop := ∀ r d, a ≠ .ret (.dec r d)

/-- The method that ends here does not return a decoder. -/
def Ctl.Plain : Ctl → Prop
  | .afterOp a | .leave a | .leaveClose a => a.Plain
  | _ => True

namespace Conn

variable {k : Cfg} {c c' : Conn} {r : CallRef} {run : Run} {a : After} {e : LinkErr} {sync : Bool}
  {p : Conn × Ctl}

/-! ## The end of `Sync` -/

theorem unregister_before (h : c.unregister r = some c') {j : Nat} (hj : j < (c.heap r).idx) :
    c'.live[j]? = c.live[j]? := by
  unfold Conn.unregister at h
  split at h
  · cases h
  dsimp only at h
  split at h <;> cases h
  next hlt =>
  rw [List.getElem?_dropLast, List.length_set, if_pos (by omega), List.getElem?_set_ne (by omega)]

theorem recycle_before (h : c.recycle r = some c') {j : Nat} (hj : j < (c.heap r).idx) :
    c'.live[j]? = c.live[j]? := by
  obtain ⟨d, hd, rfl⟩ := Option.map_eq_some_iff.mp h
  rw [live_putFree]
  exact unregister_before hd hj

theorem Wf.discardFrom_open (hc : Wf c) {i n : Nat} (hn : c.live.length ≤ i + n)
    (hopen : ∀ j < i, ∀ q, c.live[j]? = some q → (c.heap q).done = false)
    (h : c.discardFrom i n = some c') : ∀ q ∈ c'.live, (c'.heap q).done = false := by
  induction n generalizing c i with
  | zero =>
    cases h
    intro q hq
    obtain ⟨j, hj⟩ := List.mem_iff_getElem?.mp hq
    have hlt := (List.getElem?_eq_some_iff.mp hj).1
    exact hopen j (by omega) q hj
  | succ n ih =>
    unfold Conn.discardFrom at h
    split at h
    · next hnone =>
      cases h
      intro q hq
      obtain ⟨j, hj⟩ := List.mem_iff_getElem?.mp hq
      have hlt := (List.getElem?_eq_some_iff.mp hj).1
      have hlen := List.getElem?_eq_none_iff.mp hnone
      exact hopen j (by omega) q hj
    · next r hr =>
      have hmem := List.mem_of_getElem? hr
      split at h
      · next hdone =>
        obtain ⟨d, hd, hrest⟩ := Option.bind_eq_some_iff.mp h
        obtain ⟨d', hd', hends⟩ := hc.recycle hmem hdone
        obtain rfl := Option.some.inj (hd.symm.trans hd')
        have hlen := hends.length
        refine ih hends.wf (by omega) (fun j hj q hq => ?_) hrest
        obtain ⟨i', hheap⟩ := (hends.ended.live q (List.mem_of_getElem? hq)).2
        rw [recycle_before hd ((hc.idx i r hr).symm ▸ hj)] at hq
        rw [hheap]
        exact hopen j hj q hq
      · next hdone =>
        refine ih hc (by omega) (fun j hj q hq => ?_) h
        rcases Nat.lt_succ_iff_lt_or_eq.mp hj with hj | rfl
        · exact hopen j hj q hq
        · obtain rfl := Option.some.inj (hr.symm.trans hq)
          exact Bool.not_eq_true _ ▸ hdone

theorem Wf.discardAnswered_open (hc : Wf c) (h : c.discardAnswered = some c') :
    ∀ q ∈ c'.live, (c'.heap q).done = false :=
  hc.discardFrom_open (by omega) (fun j hj => absurd hj (Nat.not_lt_zero j)) h

/-! ## Quiet steps -/

structure SameCalls (c c' : Conn) : Prop where
  unans : c'.unans = c.unans
  unansRF : c'.unansRF = c.unansRF
  asm : c'.asm = c.asm
  live : c'.live = c.live
  heap : c'.heap = c.heap

theorem SameCalls.refl (c : Conn) : SameCalls c c := ⟨rfl, rfl, rfl, rfl, rfl⟩

theorem SameCalls.ended (h : SameCalls c c') : Ended c c' where
  unans := h.unans
  unansRF := h.unansRF
  asm := h.asm
  live q hq := ⟨h.live ▸ hq, (c.heap q).idx, by rw [h.heap]⟩
  open_ q _ := ⟨(c.heap q).pending, (c.heap q).body, (c.heap q).idx, by rw [h.heap]⟩

/-- Every call has been dropped. -/
structure Gone (c : Conn) : Prop where
  live : c.live = []
  unans : c.unans = []
  unansRF : c.unansRF = 0
  asm : c.asm = .none

/-- The step from `c` to `p` answers no call. When it ends `Sync` no answered call is left, and a
decoder that it returns is of an answered call. -/
structure Quiet (c : Conn) (sync : Bool) (p : Conn × Ctl) : Prop where
  calls : Ended c p.1 ∨ p.1.Gone
  synced : sync = true → p.2.inSync = true ∨ ∀ r ∈ p.1.live, (p.1.heap r).done = false
  plain : p.2.Plain
  dec : ∀ r d, p.2 = .idle (.dec r d) → sync = false ∧ r ∈ c.live ∧ (c.heap r).done = true ∧
    (c.heap r).status = 0 ∧ d.body = (c.heap r).body

theorem Quiet.same (hp : Quiet c' sync p) (h : SameCalls c c') : Quiet c sync p where
  calls := hp.calls.imp_left fun hended => h.ended.trans hended
  synced := hp.synced
  plain := hp.plain
  dec r d hd := by
    rw [← h.live, ← h.heap]
    exact hp.dec r d hd

def Other (ctl : Ctl) : Prop := ctl.Plain ∧ ∀ r d, ctl ≠ .idle (.dec r d)

theorem quiet_move {ctl : Ctl} (hsame : SameCalls c c') (hother : Other ctl)
    (hsync : sync = true → ctl.inSync = true) : Quiet c sync (c', ctl) where
  calls := .inl hsame.ended
  synced h := .inl (hsync h)
  plain := hother.1
  dec r d hd := absurd hd (hother.2 r d)

theorem quiet_ended {ctl : Ctl} (hended : Ended c c') (hother : Other ctl) :
    Quiet c false (c', ctl) where
  calls := .inl hended
  synced h := by cases h
  plain := hother.1
  dec r d hd := absurd hd (hother.2 r d)

theorem quiet_gone {ctl : Ctl} (hgone : c'.Gone) (hother : Other ctl) : Quiet c sync (c', ctl) where
  calls := .inr hgone
  synced _ := .inr fun _ hr => absurd (hgone.live ▸ hr) List.not_mem_nil
  plain := hother.1
  dec r d hd := absurd hd (hother.2 r d)

theorem Wf.abandon_gone (h : Wf c) (hd : c.abandon = some c') : c'.Gone := by
  obtain ⟨d, hd', -, hlive, hunans, hrf, hasm⟩ := h.abandon
  obtain rfl := Option.some.inj (hd.symm.trans hd')
  exact ⟨hlive, hunans, hrf, hasm⟩

theorem afterOp_eq (c : Conn) (ha : a.Plain) : ∃ ctl, c.afterOp a = (c, ctl) ∧ Other ctl := by
  unfold Conn.afterOp
  split
  · exact ⟨_, rfl, ha, by simp⟩
  · exact ⟨_, rfl, ha, by simp⟩

theorem plain_err (err : Err) : (After.ret (.err err)).Plain := by
  intro r d h
  cases h

theorem plain_unit : (After.ret .unit).Plain := by
  intro r d h
  cases h

theorem plain_synced (rerr : Option LinkErr) : (After.synced rerr).Plain := by
  intro r d h
  cases h

theorem plain_closed (err : Option Err) : (After.closed err).Plain := by
  intro r d h
  cases h

theorem quiet_afterOp (hended : Ended c c') (ha : a.Plain) : Quiet c false (c'.afterOp a) := by
  obtain ⟨ctl, hctl, hother⟩ := afterOp_eq c' ha
  rw [hctl]
  exact quiet_ended hended hother

theorem quiet_resume (hc : Wf c) (ha : a.Plain) : Quiet c a.inSync (c.resume a) := by
  cases a with
  | ret ret =>
    refine quiet_move (.refl c) ⟨trivial, fun r d h => ?_⟩ (by simp [After.inSync])
    cases h
    exact ha r d rfl
  | synced rerr =>
    obtain ⟨d, hd, -, hended⟩ := hc.discardAnswered
    unfold Conn.resume
    rw [hd]
    refine ⟨.inl hended, fun _ => .inr (hc.discardAnswered_open hd), trivial, fun r d h => ?_⟩
    dsimp only [Option.map_some, orPanic] at h
    split at h <;> cases h
  | closed err => exact quiet_move (.refl c) ⟨trivial, by simp⟩ (by simp [After.inSync])

theorem quiet_answered (hc : Wf c) (hr : r ∈ c.live) (hdone : (c.heap r).done = true) :
    Quiet c false (c.answered r) := by
  unfold Conn.answered
  dsimp only
  split
  · obtain ⟨d, hd, hends⟩ := hc.recycle hr hdone
    rw [hd]
    apply quiet_afterOp (hends.ended.trans _) (plain_err _)
    exact SameCalls.ended ⟨rfl, rfl, rfl, rfl, rfl⟩
  · next hstatus =>
    have hc' : Wf { c with rxGen := c.rxGen + 1 } := { hc with }
    obtain ⟨d, hd, hends⟩ := hc'.recycle hr hdone
    rw [hd]
    have hsame : SameCalls c { c with rxGen := c.rxGen + 1 } := ⟨rfl, rfl, rfl, rfl, rfl⟩
    refine ⟨.inl (hsame.ended.trans hends.ended), by simp, trivial, fun q dec h => ?_⟩
    cases h
    exact ⟨rfl, hr, hdone, not_not.mp hstatus, rfl⟩

theorem quiet_runFailed (hs : Steady c) (h : c.FitsRun run) :
    Quiet c run.inSync (c.runFailed e run) := by
  cases run with
  | room => exact quiet_move (.refl c) ⟨plain_err _, by simp⟩ (by simp [Run.inSync])
  | await r =>
    have hsame : SameCalls c { c with rxOpen := false } := ⟨rfl, rfl, rfl, rfl, rfl⟩
    unfold Conn.runFailed
    dsimp only
    split
    · obtain ⟨d, hd, hends⟩ := (hs.closeRx h.2.1).wf.endCall h.2.2
      unfold Conn.abandonCall
      rw [hd]
      exact quiet_afterOp (hsame.ended.trans hends.ended) (plain_err _)
    · exact quiet_move hsame ⟨plain_err _, by simp⟩ (by simp [Run.inSync])
  | sync =>
    unfold Conn.runFailed
    dsimp only
    split
    · obtain ⟨d, hd, -⟩ := hs.wf.abandon
      obtain ⟨ctl, hctl, hother⟩ := afterOp_eq d (plain_err (.session none d.broken))
      rw [hd]
      dsimp only [Option.map_some, orPanic]
      rw [hctl]
      exact quiet_gone (hs.wf.abandon_gone hd) hother
    · exact quiet_move (.refl c) ⟨plain_synced _, by simp⟩ fun _ => rfl

theorem quiet_failRx (hs : Steady c) (h : c.FitsRun run) (err : SessErr) :
    Quiet c run.inSync ((c.failRx err).runFailed e run) := by
  obtain ⟨b, hb⟩ := failRx_eq c err
  rw [hb]
  exact (quiet_runFailed (hs.marked true b) (h.marked true b)).same ⟨rfl, rfl, rfl, rfl, rfl⟩

theorem quiet_run {ctl : Ctl} (hsame : SameCalls c c') (hctl : ctl.inSync = run.inSync)
    (hother : Other ctl) : Quiet c run.inSync (c', ctl) :=
  quiet_move hsame hother fun h => hctl.trans h

theorem quiet_armRead : Quiet c run.inSync (c.armRead k run) := by
  unfold Conn.armRead
  split
  · exact quiet_run ⟨rfl, rfl, rfl, rfl, rfl⟩ rfl ⟨trivial, by simp⟩
  split
  · exact quiet_run ⟨rfl, rfl, rfl, rfl, rfl⟩ rfl ⟨trivial, by simp⟩
  · exact quiet_run (.refl c) rfl ⟨trivial, by simp⟩

theorem quiet_reserveRequest {op : U16} {bodyLen respMax rf : Nat} :
    Quiet c false (c.reserveRequest k op bodyLen respMax rf) := by
  unfold Conn.reserveRequest
  split
  · exact quiet_move (.refl c) ⟨trivial, by simp⟩ (by simp)
  · exact quiet_move ⟨rfl, rfl, rfl, rfl, rfl⟩ ⟨trivial, by simp⟩ (by simp)

theorem quiet_runHead (run : Run) (hs : Steady c) (h : c.FitsRun run) (armed : Bool) :
    Quiet c run.inSync (c.runHead k run armed) := by
  have hrest : Quiet c run.inSync (if armed then (c, .read run) else c.armRead k run) := by
    split
    · exact quiet_run (.refl c) rfl ⟨trivial, by simp⟩
    · exact quiet_armRead
  unfold Conn.runHead
  cases run with
  | room op bodyLen respMax rf =>
    dsimp only
    split
    · exact quiet_reserveRequest
    split
    · exact quiet_runFailed hs h
    · exact hrest
  | await r =>
    dsimp only
    split
    · next hdone => exact quiet_answered hs.wf h.2.2 hdone
    split
    · exact quiet_runFailed hs h
    · exact hrest
  | sync =>
    dsimp only
    split
    · split
      · exact quiet_runFailed hs h
      · exact quiet_move (.refl c) ⟨plain_synced _, by simp⟩ fun _ => rfl
    · exact hrest

theorem quiet_armFailed (hs : Steady c) (h : c.FitsRun run) : Quiet c run.inSync (c.armFailed e run) := by
  cases run with
  | room => exact quiet_runFailed hs h
  | await r | sync => exact quiet_run (.refl c) rfl ⟨trivial, by simp⟩

theorem quiet_released (hs : Steady c) (h : c.FitsRun run) (out : Except SessErr Bool)
    (rerr : Option LinkErr) : Quiet c run.inSync (c.released k run out rerr) := by
  unfold Conn.released
  split
  · exact quiet_failRx hs h _
  · exact quiet_failRx hs h _
  · exact quiet_failRx hs h _
  · exact quiet_runHead run hs h true
  · exact quiet_run (.refl c) rfl ⟨trivial, by simp⟩

theorem quiet_readFailed (hs : Steady c) (h : c.FitsRun run) (killed : Bool) :
    Quiet c run.inSync (c.readFailed run e killed) := by
  unfold Conn.readFailed
  split
  · exact quiet_failRx hs h _
  split
  · exact quiet_runFailed hs h
  · exact quiet_failRx hs h _

theorem quiet_readFrame (hs : Steady c) (h : c.FitsRun run) {b : List Byte} {d : Conn} {out : Accepted}
    (hout : c.acceptFrame k b (c.mode run) = some (d, out)) :
    Quiet d run.inSync (c.readFrame k run b) := by
  unfold Conn.readFrame
  rw [hout]
  cases out with
  | fault err | complete | more => exact quiet_run (.refl d) rfl ⟨trivial, by simp⟩
  | held =>
    obtain ⟨r, rfl, hr⟩ := mode_hold (acceptFrame_held hout)
    obtain ⟨hdone, -⟩ := hs.wf.held hr hout
    have hwf : Wf { d with rxHeld := true } := { hs.wf.acceptFrame hout with }
    have hlive : r ∈ d.live := live_acceptFrame hout ▸ h.2.2
    unfold Conn.runHead
    dsimp only
    rw [if_pos hdone]
    exact (quiet_answered hwf hlive hdone).same ⟨rfl, rfl, rfl, rfl, rfl⟩

theorem quiet_entered {m : Method} (hs : Steady c) (hm : c.FitsMethod m) (h : c.entered k m = some p) :
    Quiet c false p := by
  have hrun : ∀ {c' p} run, Quiet c' (Run.inSync run) p → SameCalls c c' → Quiet c false p :=
    fun run hq hsame => ⟨(hq.same hsame).calls, by simp, hq.plain, fun r d hd =>
      ⟨rfl, ((hq.same hsame).dec r d hd).2⟩⟩
  unfold Conn.entered at h
  split at h
  · next op bodyLen respMax =>
    obtain ⟨t, rf, hrf⟩ := rfOf_eq k c op respMax.toNat
    rw [hrf] at h
    cases h
    have hs' : Steady { c with rfs := t } := ⟨{ hs.wf with }, hs.held, hs.closed⟩
    exact hrun _ (quiet_runHead (.room op bodyLen.toNat respMax.toNat rf) hs' hm false)
      ⟨rfl, rfl, rfl, rfl, rfl⟩
  · next r _ =>
    cases h
    have hs' : Steady { c with rxOpen := true } := ⟨{ hs.wf with }, fun _ => rfl, hs.closed⟩
    exact hrun _ (quiet_runHead (.await r) hs' ⟨rfl, hs.not_held hm.1, hm.2⟩ false)
      ⟨rfl, rfl, rfl, rfl, rfl⟩
  · cases h
    exact hrun _ (quiet_runHead .sync hs hm false) (.refl c)
  · cases h
    exact quiet_move (.refl c) ⟨trivial, by simp⟩ (by simp)
  · cases h

theorem quiet_notEntered {m : Method} (hs : Steady c) (hm : c.FitsMethod m)
    (h : c.notEntered m = some p) : Quiet c false p := by
  obtain ⟨b, hb⟩ := failRx_eq c (.transport .closed)
  have hs' := hs.marked true b
  have hsame : SameCalls c { c with rxDead := true, broken := b } := ⟨rfl, rfl, rfl, rfl, rfl⟩
  unfold Conn.notEntered at h
  unfold markKilled at h
  rw [hb] at h
  split at h
  · cases h
    exact quiet_move hsame ⟨trivial, by simp⟩ (by simp)
  · next r _ =>
    obtain ⟨d, hd, hends⟩ := hs'.wf.endCall hm.2
    unfold Conn.abandonCall at h
    rw [hd] at h
    cases h
    exact quiet_ended (hsame.ended.trans hends.ended) ⟨trivial, by simp⟩
  · obtain ⟨d, hd, -⟩ := hs'.wf.abandon
    have hgone := hs'.wf.abandon_gone hd
    rw [hd] at h
    cases h
    dsimp only [Option.map_some, orPanic]
    split
    · exact quiet_gone hgone ⟨trivial, by simp⟩
    · exact quiet_gone hgone ⟨trivial, by simp⟩
  · cases h
    exact quiet_move hsame ⟨trivial, by simp⟩ (by simp)
  · cases h

theorem quiet_endRx : Quiet c false c.endRx :=
  quiet_afterOp (SameCalls.ended ⟨rfl, rfl, rfl, rfl, rfl⟩) plain_unit

theorem quiet_invoke {m : Method} (hs : Steady c) (h : c.invoke k m = some p) : Quiet c false p := by
  have hidle : ∀ {ret}, (∀ r d, ret ≠ .dec r d) → Quiet c false (c, .idle ret) := by
    intro ret hret
    exact quiet_move (.refl c) ⟨trivial, fun r d h => hret r d (by cases h; rfl)⟩ (by simp)
  have hmove : ∀ {ctl}, Other ctl → Quiet c false (c, ctl) :=
    fun hother => quiet_move (.refl c) hother (by simp)
  cases m with
  | beginRequest op bodyLen respMax =>
    cases h
    split
    · exact hidle (by simp)
    split
    · exact hidle (by simp)
    split
    · exact hidle (by simp)
    split
    · exact hidle (by simp)
    · exact hmove ⟨trivial, by simp⟩
  | submit body =>
    simp only [Conn.invoke] at h
    split at h
    · cases h
      exact hidle (by simp)
    split at h
    · cases h
    split at h <;> cases h
    · exact hmove ⟨trivial, by simp⟩
    · exact hmove ⟨trivial, by simp⟩
  | abort =>
    cases h
    split
    · exact hidle (by simp)
    dsimp only
    split
    · exact quiet_afterOp (SameCalls.ended ⟨rfl, rfl, rfl, rfl, rfl⟩) plain_unit
    · exact quiet_move ⟨rfl, rfl, rfl, rfl, rfl⟩ ⟨trivial, by simp⟩ (by simp)
  | wait call id =>
    unfold Conn.invoke at h
    cases call with
    | none =>
      cases h
      exact hidle (by simp)
    | some r =>
      dsimp only at h
      split at h
      · cases h
      cases h
      split
      · exact hidle (by simp)
      split
      · exact hidle (by simp)
      · exact hmove ⟨trivial, by simp⟩
  | release gen =>
    cases h
    split
    · exact hidle (by simp)
    split
    · exact quiet_move ⟨rfl, rfl, rfl, rfl, rfl⟩ ⟨trivial, by simp⟩ (by simp)
    · exact quiet_endRx
  | malformed fn =>
    cases h
    obtain ⟨b, hb⟩ := failRx_eq c (.protocol ("malformed response body of " ++ fn))
    rw [hb]
    exact quiet_move ⟨rfl, rfl, rfl, rfl, rfl⟩ ⟨trivial, by simp⟩ (by simp)
  | sync =>
    cases h
    split
    · exact hidle (by simp)
    · exact hmove ⟨trivial, by simp⟩
  | close =>
    cases h
    split
    · exact hidle (by simp)
    split
    · exact hidle (by simp)
    have hc : Wf { c with closed := true } := { hs.wf with }
    obtain ⟨d, hd, -⟩ := hc.abandon
    rw [hd]
    dsimp only [Option.map_some, orPanic]
    split
    · exact quiet_gone (hc.abandon_gone hd) ⟨trivial, by simp⟩
    · exact quiet_gone (hc.abandon_gone hd) ⟨trivial, by simp⟩
  | err =>
    cases h
    split
    · exact hmove ⟨trivial, by simp⟩
    · exact hidle (by simp)

theorem quiet_closeFrame (b : List Byte) : Quiet c false (c.closeFrame b) := by
  have hleave : ∀ err, Quiet c false (c, .leave (.closed err)) :=
    fun err => quiet_move (.refl c) ⟨plain_closed err, by simp⟩ (by simp)
  unfold Conn.closeFrame
  dsimp only
  split
  · exact hleave _
  split
  · exact quiet_move (.refl c) ⟨trivial, by simp⟩ (by simp)
  split
  · split
    · exact hleave _
    · exact hleave _
  · exact hleave _

/-- A frame is read. -/
def Reads (ctl : Ctl) (ans : Ans) : Prop := ∃ run b, ctl = .read run ∧ ans = .frame b

/-- The last chunk of a request is committed. -/
def Commits (k : Cfg) (ctl : Ctl) (ans : Ans) : Prop :=
  ans = .ok ∧ ((∃ body, ctl = .commit body) ∨
    ∃ body off committed, ctl = .sendCommit body off committed ∧
      body.length ≤ off + min (body.length - off) k.chunk)

theorem quiet_next {ctl : Ctl} {ans : Ans} (hs : Steady c) (hfits : c.Fits ctl) (hplain : ctl.Plain)
    (h : c.next k ctl ans = some p) (hread : ¬ Reads ctl ans) (hcommit : ¬ Commits k ctl ans) :
    Quiet c ctl.inSync p := by
  have hmove : ∀ {c' ctl'}, SameCalls c c' → Other ctl' → Quiet c false (c', ctl') :=
    fun hsame hother => quiet_move hsame hother (by simp)
  have hrun : ∀ {run : Run} {ctl' : Ctl}, ctl'.inSync = run.inSync → Other ctl' →
      Quiet c run.inSync (c, ctl') := fun hsync hother => quiet_run (.refl c) hsync hother
  have hsame : ∀ d b, SameCalls c { c with rxDead := d, broken := b } :=
    fun _ _ => ⟨rfl, rfl, rfl, rfl, rfl⟩
  cases ctl <;> cases ans
  case reserveFailed.gate op e killed =>
    obtain ⟨d, b, e', hb⟩ := txFailed_eq c e killed
    simp only [Conn.next, hb] at h
    cases h
    exact hmove (hsame d b) ⟨plain_err _, by simp⟩
  case sendFailed.gate e committed killed =>
    obtain ⟨d, b, e', hb⟩ := txFailed_eq c e killed
    simp only [Conn.next, hb] at h
    cases h
    exact quiet_afterOp (hsame d b).ended (plain_err _)
  all_goals try cases h
  case enter.gate m killed =>
    cases killed with
    | true =>
      cases h
      exact hmove (.refl c) ⟨trivial, by simp⟩
    | false => exact quiet_entered hs hfits h
  case refused.gate m last =>
    cases last with
    | true =>
      cases h
      exact hmove (.refl c) ⟨trivial, by simp⟩
    | false => exact quiet_notEntered hs hfits h
  case refusedClose.ok | refusedClose.fail => exact quiet_notEntered hs hfits h
  case arm.ok | read.fail => exact hrun rfl ⟨trivial, by simp⟩
  case arm.fail => exact quiet_armFailed hs hfits
  case armed.gate run killed =>
    cases killed with
    | true => exact quiet_armFailed hs hfits
    | false => exact hrun rfl ⟨trivial, by simp⟩
  case read.frame run b => exact absurd ⟨run, b, rfl, rfl⟩ hread
  case release.ok run out => exact quiet_released hs hfits out none
  case release.fail run out e => exact quiet_released hs hfits out (some e)
  case readError.gate run e killed => exact quiet_readFailed hs hfits killed
  case commit.ok body => exact absurd ⟨rfl, .inl ⟨body, rfl⟩⟩ hcommit
  case sendCommit.ok body off committed =>
    split
    · next hlast => exact absurd ⟨rfl, .inr ⟨body, off, committed, rfl, hlast⟩⟩ hcommit
    · exact hmove (.refl c) ⟨trivial, by simp⟩
  case aborting.ok => exact quiet_afterOp (.refl c) plain_unit
  case aborting.fail e =>
    obtain ⟨b, hb⟩ := failTx_eq c e
    rw [hb]
    exact quiet_afterOp (hsame c.rxDead b).ended plain_unit
  case endRx.ok => exact quiet_endRx
  case endRx.fail e =>
    obtain ⟨b, hb⟩ := failRx_eq c (.transport e)
    rw [hb]
    exact quiet_endRx.same (hsame true b)
  case afterOp.ok | afterOp.fail => exact quiet_move (.refl c) ⟨hplain, by simp⟩ fun h => h
  case leave.gate =>
    split
    · exact quiet_move (.refl c) ⟨hplain, by simp⟩ fun h => h
    · exact quiet_resume hs.wf hplain
  case leaveClose.ok | leaveClose.fail => exact quiet_resume hs.wf hplain
  case errCheck.gate =>
    obtain ⟨b, hb⟩ := failRx_eq c (.transport .closed)
    split
    · unfold markKilled
      rw [hb]
      exact hmove (hsame true b) ⟨trivial, by simp⟩
    · exact hmove (.refl c) ⟨trivial, by simp⟩
  case closeKilledWrite.gate killed | closeKilledRead.gate killed =>
    cases killed <;> exact hmove (.refl c) ⟨trivial, by simp⟩
  case closeRelease.ok b => exact quiet_closeFrame b
  case closeFailed.gate => exact hmove (.refl c) ⟨plain_closed _, by simp⟩
  all_goals exact hmove ⟨rfl, rfl, rfl, rfl, rfl⟩ ⟨trivial, by simp⟩

end Conn

end Hqq.Bindgen
