import Hqq.Machine
import Hqq.Bindgen.Quiet

/-!
# The bodies of responses

A response of several frames is put together in the buffer of its call. `resp` has for each call
the bytes that were read for its response, and `kept` says whether all frames of the open message
were written to the buffer. `Sync` does not write what it reads.
-/

namespace Hqq.Bindgen

namespace Slice

variable {b b' : Slice} {off n : Nat} {src : List Byte}

theorem copyAt_eq_none : b.copyAt off src = none ↔ b.len < off := by
  unfold copyAt
  split
  · next h => simpa using h
  · next h => simpa using h

theorem copyAt_eq (h : b.copyAt off src = some b') (hfits : off + src.length ≤ b.len) :
    b'.len = b.len ∧ b'.mem.take (off + src.length) = b.mem.take off ++ src := by
  unfold copyAt at h
  rw [dif_pos (by omega)] at h
  cases h
  have hn : min (b.len - off) src.length = src.length := by omega
  have hoff : (b.mem.take off ++ src).length = off + src.length := by
    have := b.len_le
    simp
    omega
  refine ⟨rfl, ?_⟩
  dsimp only
  rw [hn, List.take_length, ← hoff]
  exact List.take_left

theorem growTo_len : (b.growTo n).len = n := by
  unfold growTo
  split <;> rfl

end Slice

namespace Conn

variable {k : Cfg} {c c' : Conn} {r : CallRef} {h : Header} {b body : List Byte} {mode : RxMode}
  {out : Accepted}

/-! ## What the calls have got -/

def Answers (resp : CallRef → List Byte) (c : Conn) : Prop :=
  ∀ r ∈ c.live, (c.heap r).done = true → (c.heap r).status = 0 → (c.heap r).body = resp r

/-- The open message belongs to the oldest unanswered call, whose buffer has what was read of it. -/
def Assembling (resp : CallRef → List Byte) (kept : Bool) (c : Conn) : Prop :=
  c.asm.active = true → ∃ r, c.unans.head? = some r ∧ (resp r).length = c.asm.got ∧
    c.asm.got ≤ c.asm.total.toNat ∧ (kept = true → (c.heap r).buf.len = c.asm.total.toNat ∧
      (c.heap r).buf.mem.take c.asm.got = resp r)

def noteResp (resp : CallRef → List Byte) (c : Conn) (body : List Byte) : CallRef → List Byte :=
  match c.unans.head? with
  | none => resp
  | some r => Function.update resp r (if c.asm.active then resp r ++ body else body)

def noteKept (kept : Bool) (c : Conn) (mode : RxMode) : Bool :=
  (!c.asm.active || kept) && mode ≠ .discard

variable {resp : CallRef → List Byte} {kept : Bool}

theorem noteResp_eq (resp : CallRef → List Byte) (body : List Byte) (hr : c.unans.head? = some r) :
    noteResp resp c body = Function.update resp r (if c.asm.active then resp r ++ body else body) := by
  unfold noteResp
  rw [hr]

theorem assembling_of_inactive (h : c.asm.active = false) : Assembling resp kept c := by
  intro hactive
  rw [h] at hactive
  cases hactive

theorem Answers.ended (hans : Answers resp c) (h : Ended c c' ∨ c'.Gone) : Answers resp c' := by
  intro q hq
  rcases h with hended | hgone
  · obtain ⟨hmem, i, hi⟩ := hended.live q hq
    rw [hi]
    exact hans q hmem
  · rw [hgone.live] at hq
    cases hq

theorem Assembling.ended (hasm : Assembling resp kept c) (h : Ended c c' ∨ c'.Gone) :
    Assembling resp kept c' := by
  intro hactive
  rcases h with hended | hgone
  · rw [hended.asm] at hactive ⊢
    obtain ⟨r, hr, hlen, hle, hbuf⟩ := hasm hactive
    obtain ⟨p, body, i, hi⟩ := hended.open_ r (mem_of_head? hr)
    rw [hended.unans]
    refine ⟨r, hr, hlen, hle, ?_⟩
    rw [hi]
    exact hbuf
  · rw [hgone.asm] at hactive
    cases hactive

theorem Answers.finish (hans : Answers resp c) {call : Call} {v : List Byte}
    (hbody : call.status = 0 → call.body = v) :
    Answers (Function.update resp r v) ((c.setCall r call).finish r) := by
  intro q hq hdone hstatus
  by_cases hne : q = r
  · subst hne
    rw [heap_finish] at hstatus ⊢
    rw [Function.update_self]
    exact hbody hstatus
  · rw [heap_finish_of_ne _ hne] at hdone hstatus ⊢
    rw [Function.update_of_ne hne]
    exact hans q hq hdone hstatus

theorem Answers.setCall (hc : Wf c) (hans : Answers resp c) (hr : c.unans.head? = some r) {call : Call}
    (hdone : call.done = (c.heap r).done) (v : List Byte) (a : Assembly) :
    Answers (Function.update resp r v) ((c.setCall r call).setAsm a) := by
  intro q hq hq' hstatus
  by_cases hne : q = r
  · subst hne
    have hself : ((c.setCall q call).setAsm a).heap q = call := heap_setCall call
    rw [hself, hdone, (hc.unans_clear q (mem_of_head? hr)).1] at hq'
    cases hq'
  · have hother : ((c.setCall r call).setAsm a).heap q = c.heap q := heap_setCall_of_ne call hne
    rw [hother] at hq' hstatus ⊢
    rw [Function.update_of_ne hne]
    exact hans q hq hq' hstatus

structure Noted (resp : CallRef → List Byte) (kept : Bool) (mode : RxMode) (c c' : Conn)
    (body : List Byte) (out : Accepted) : Prop where
  valid : ∀ e, out ≠ .fault e
  assembling : Assembling (noteResp resp c body) (noteKept kept c mode) c'
  answers : mode ≠ .discard → Answers resp c → Answers (noteResp resp c body) c'

theorem noted_cont (hc : Wf c) (hasm : Assembling resp kept c) (hactive : c.asm.active = true)
    (hok : mode ≠ .discard → kept = true)
    (hout : c.acceptCont k h body mode = some (c', out)) :
    (∃ e, c' = c ∧ out = .fault e) ∨ Noted resp kept mode c c' body out := by
  obtain ⟨r, hr, hlen, hle, hbuf⟩ := hasm hactive
  rcases acceptCont_cases hout with hfault | ⟨-, hbody, ⟨hnone, -⟩ | ⟨q, buf, hq, hcont, hrest⟩⟩
  · exact .inl hfault
  · rw [hnone] at hr
    cases hr
  obtain rfl := Option.some.inj (hr.symm.trans hq)
  have hfits : c.asm.got + body.length ≤ c.asm.total.toNat := by omega
  -- the frame goes behind what is there, if it is kept
  have hkept : mode ≠ .discard → buf.len = c.asm.total.toNat ∧
      buf.mem.take (c.asm.got + body.length) = resp r ++ body := by
    intro hmode
    obtain ⟨htotal, htake⟩ := hbuf (hok hmode)
    unfold contBuf at hcont
    rw [if_neg hmode] at hcont
    obtain ⟨hlen', hmem⟩ := Slice.copyAt_eq hcont (by omega)
    exact ⟨hlen'.trans htotal, by rw [hmem, htake]⟩
  have hnote := noteResp_eq resp body hr
  rw [hactive, if_pos rfl] at hnote
  refine .inr ?_
  rcases hrest with ⟨hlt, rfl, rfl⟩ | ⟨hge, rfl, rfl⟩
  · refine ⟨by simp, fun _ => ⟨r, hr, ?_, hlt.le, fun hk => ?_⟩, fun hmode hans => ?_⟩
    · rw [hnote, Function.update_self, List.length_append, hlen]
      rfl
    · have hself : ((c.setCall r { c.heap r with buf := buf }).setAsm
          { c.asm with got := c.asm.got + body.length }).heap r = { c.heap r with buf := buf } :=
        heap_setCall _
      rw [hself, hnote, Function.update_self]
      refine hkept fun hmode => ?_
      rw [noteKept, hmode] at hk
      simp at hk
    · rw [hnote]
      apply hans.setCall hc hr
      rfl
  · refine ⟨by simp, assembling_of_inactive rfl, fun hmode hans => ?_⟩
    rw [hnote]
    apply hans.finish
    intro _
    dsimp only
    obtain ⟨htotal, htake⟩ := hkept hmode
    rw [if_neg hmode, Slice.bytes, htotal, ← htake]
    congr 1
    omega

theorem noted_status (hr : c.unans.head? = some r)
    (hout : (c', out) = c.statusResponse r h body) :
    (∃ e, c' = c ∧ out = .fault e) ∨ Noted resp kept mode c c' body out := by
  rcases statusResponse_cases c r h body with ⟨e, he⟩ | ⟨msg, hstatus, heq⟩
  · rw [he] at hout
    cases hout
    exact .inl ⟨e, rfl, rfl⟩
  · rw [heq] at hout
    cases hout
    refine .inr ⟨by simp, assembling_of_inactive rfl, fun _ hans => ?_⟩
    rw [noteResp_eq resp body hr]
    apply hans.finish
    intro hzero
    dsimp only at hzero
    rw [hzero] at hstatus
    cases hstatus

theorem noted_first (hc : Wf c) (hactive : c.asm.active = false) (hr : c.unans.head? = some r)
    (hbody : body.length = min h.total.toNat k.chunk)
    (hout : c.acceptFirst k r h body mode = some (c', out)) : Noted resp kept mode c c' body out := by
  have hnote := noteResp_eq resp body hr
  rw [hactive, if_neg (by simp)] at hnote
  rcases acceptFirst_cases hout with ⟨hlt, rfl, buf, hbuf, rfl⟩ | ⟨-, hdone, buf, body', hbody', rfl⟩
  · refine ⟨by simp, fun _ => ⟨r, hr, ?_, ?_, fun hk => ?_⟩, fun hmode hans => ?_⟩
    · rw [hnote, Function.update_self]
      rfl
    · change body.length ≤ h.total.toNat
      omega
    · have hself : ((c.setCall r { c.heap r with flags := h.flags, buf := buf }).setAsm
          ⟨true, h.id, h.total, body.length⟩).heap r = { c.heap r with flags := h.flags, buf := buf } :=
        heap_setCall _
      have hmode : mode ≠ .discard := by
        intro hmode
        rw [noteKept, hmode] at hk
        simp at hk
      unfold firstBuf at hbuf
      rw [if_neg hmode] at hbuf
      obtain ⟨hlen, hmem⟩ := Slice.copyAt_eq hbuf (by rw [Slice.growTo_len]; omega)
      rw [Slice.growTo_len] at hlen
      rw [hself, hnote, Function.update_self]
      refine ⟨hlen, ?_⟩
      change buf.mem.take body.length = body
      simpa using hmem
    · rw [hnote]
      apply hans.setCall hc hr
      rfl
  · refine ⟨?_, assembling_of_inactive rfl, fun hmode hans => ?_⟩
    · rcases hdone with rfl | rfl <;> simp
    rw [hnote]
    exact hans.finish fun _ => hbody' hmode

theorem noted_acceptFrame (hc : Wf c) (hasm : Assembling resp kept c)
    (hok : c.asm.active = true → mode ≠ .discard → kept = true)
    (hout : c.acceptFrame k b mode = some (c', out)) :
    (∃ e, c' = c ∧ out = .fault e) ∨ Noted resp kept mode c c' (b.drop headerSize) out := by
  apply acceptFrame_ind (P := fun c' out => (∃ e, c' = c ∧ out = .fault e) ∨
    Noted resp kept mode c c' (b.drop headerSize) out) hout
  · exact fun e => .inl ⟨e, rfl, rfl⟩
  · exact fun hactive hcont => noted_cont hc hasm hactive (hok hactive) hcont
  · exact fun r _ hr hstatus => noted_status hr hstatus
  · exact fun r hactive hr hbody _ hfirst => .inr (noted_first hc hactive hr hbody hfirst)

theorem acceptFrame_ne_none (hasm : Assembling resp kept c)
    (hok : c.asm.active = true → mode ≠ .discard → kept = true) : c.acceptFrame k b mode ≠ none := by
  unfold acceptFrame
  dsimp only
  split
  · simp
  split
  · simp
  split
  · next hactive =>
    obtain ⟨r, hr, -, hle, hbuf⟩ := hasm hactive
    unfold acceptCont
    dsimp only
    split
    · simp
    split
    · simp
    rw [hr]
    intro hnone
    have hnone := Option.map_eq_none_iff.mp hnone
    split at hnone
    · cases hnone
    · next hmode =>
      have hlen := (hbuf (hok hactive hmode)).1
      have := Slice.copyAt_eq_none.mp hnone
      omega
  · unfold acceptResponse
    split
    · simp
    split
    · simp
    split
    · simp
    split
    · simp
    split
    · simp
    unfold acceptFor
    split
    · simp
    split
    · simp
    split
    · simp
    unfold acceptFirst
    dsimp only
    split
    · split
      · simp
      · intro hnone
        have := Slice.copyAt_eq_none.mp (Option.map_eq_none_iff.mp hnone)
        omega
    · split <;> simp

/-! ## A new call -/

theorem Registered.answers {id : U32} (hreg : Registered c id r c') (hans : Answers resp c) :
    Answers resp c' := by
  intro q hq hdone hstatus
  rw [hreg.live] at hq
  by_cases hne : q = r
  · subst hne
    rw [hreg.clear.1] at hdone
    cases hdone
  · rw [hreg.heap q hne] at hdone hstatus ⊢
    refine hans q ((List.mem_append.mp hq).resolve_right ?_) hdone hstatus
    simpa using hne

theorem Registered.assembling {id : U32} (hreg : Registered c id r c') (hasm : Assembling resp kept c) :
    Assembling resp kept c' := by
  intro hactive
  rw [hreg.asm] at hactive ⊢
  obtain ⟨q, hq, hrest⟩ := hasm hactive
  have hmem := mem_of_head? hq
  refine ⟨q, ?_, ?_⟩
  · rw [hreg.unans, List.head?_append, hq]
    rfl
  · rw [hreg.heap q fun heq => hreg.fresh.2 (heq ▸ hmem)]
    exact hrest

end Conn

namespace Bodies

structure State where
  conn : Conn
  ctl : Ctl
  resp : CallRef → List Byte
  kept : Bool

inductive Act
  | call (m : Method)
  | answer (a : Ans)

def note (k : Cfg) (s : State) : Ctl → Ans → (CallRef → List Byte) × Bool
  | .read run, .frame b =>
    match s.conn.acceptFrame k b (s.conn.mode run) with
    | none | some (_, .fault _) => (s.resp, s.kept)
    | some _ => (s.conn.noteResp s.resp (b.drop headerSize), s.conn.noteKept s.kept (s.conn.mode run))
  | _, _ => (s.resp, s.kept)

/-- The owner calls a method, or gets an answer. The answers are arbitrary: a frame, a timeout or
another error of the link, the kill bit. -/
def step (k : Cfg) (s : State) : Act → Option State
  | .call m =>
    match s.ctl with
    | .idle _ => (s.conn.invoke k m).map fun p => { s with conn := p.1, ctl := p.2 }
    | _ => none
  | .answer a =>
    (s.conn.next k s.ctl a).map fun p => ⟨p.1, p.2, (note k s s.ctl a).1, (note k s s.ctl a).2⟩

def machine (k : Cfg) : Machine State Act where
  init := ⟨.new, .idle .unit, fun _ => [], false⟩
  step := step k

/-- A frame that goes on with a message, and is not discarded, meets a buffer with all of the
frames before it. -/
def Careful (s : State) (a : Act) : Prop :=
  (match s.ctl, a with
    | .read run, .answer (.frame _) =>
      !s.conn.asm.active || s.conn.mode run = .discard || s.kept
    | _, _ => true) = true

instance (s : State) (a : Act) : Decidable (Careful s a) := inferInstanceAs (Decidable (_ = true))

structure Inv (s : State) : Prop where
  placed : ∃ n b, Placed n b (s.conn, s.ctl)
  plain : s.ctl.Plain
  answers : s.ctl.inSync = true ∨ s.conn.Answers s.resp
  assembling : s.conn.Assembling s.resp s.kept
  dec : ∀ r d, s.ctl = .idle (.dec r d) → d.body = s.resp r

variable {k : Cfg} {s s' : State} {resp : CallRef → List Byte} {kept sync : Bool}

theorem inv_quiet {c : Conn} {p : Conn × Ctl} (hp : ∃ n b, Placed n b p) (hq : c.Quiet sync p)
    (hans : sync = true ∨ c.Answers resp) (hasm : c.Assembling resp kept) :
    Inv ⟨p.1, p.2, resp, kept⟩ where
  placed := hp
  plain := hq.plain
  answers := by
    rcases hans with hsync | hans
    · refine (hq.synced hsync).imp_right fun hopen r hr hdone => ?_
      rw [hopen r hr] at hdone
      cases hdone
    · exact .inr (hans.ended hq.calls)
  assembling := hasm.ended hq.calls
  dec r d hd := by
    obtain ⟨hsync, hlive, hdone, hstatus, hbody⟩ := hq.dec r d hd
    have hans := hans.resolve_left (by simp [hsync])
    exact hbody.trans (hans r hlive hdone hstatus)

theorem note_of_not_reads {a : Ans} (h : ¬ Conn.Reads s.ctl a) : note k s s.ctl a = (s.resp, s.kept) := by
  unfold note
  split
  · next run b hctl => exact absurd ⟨run, b, hctl, rfl⟩ h
  · rfl

theorem inv_call {m : Method} (hi : Inv s) (h : step k s (.call m) = some s') : Inv s' := by
  simp only [step] at h
  split at h
  · next last hctl =>
    obtain ⟨p, hp, rfl⟩ := Option.map_eq_some_iff.mp h
    obtain ⟨n, b, hplace⟩ := hi.placed
    have hans : s.conn.Answers s.resp := hi.answers.resolve_left (by simp [hctl, Ctl.inSync])
    exact inv_quiet ⟨_, _, (Conn.placed_invoke hplace.steady hp).1⟩
      (Conn.quiet_invoke hplace.steady hp) (.inr hans) hi.assembling
  · cases h

theorem mode_eq_discard (c : Conn) (run : Run) : c.mode run = .discard ↔ run.inSync = true := by
  cases run with
  | room => simp [Conn.mode, Run.inSync]
  | await r =>
    unfold Conn.mode
    dsimp only
    split <;> simp [Run.inSync]
  | sync => simp [Conn.mode, Run.inSync]

theorem inv_frame {run : Run} {f : List Byte} (hi : Inv s) (hctl : s.ctl = .read run)
    (hok : s.conn.asm.active = true → s.conn.mode run ≠ .discard → s.kept = true)
    (h : step k s (.answer (.frame f)) = some s') : Inv s' := by
  obtain ⟨n, b, hplace⟩ := hi.placed
  have hans := hi.answers
  have hne := Conn.acceptFrame_ne_none (k := k) (b := f) hi.assembling hok
  obtain ⟨⟨d, out⟩, hout⟩ := Option.ne_none_iff_exists'.mp hne
  obtain ⟨p, hp, rfl⟩ := Option.map_eq_some_iff.mp h
  rw [hctl] at hp hplace hans ⊢
  cases hp
  have hplace' := Conn.placed_readFrame hplace.steady hplace.fits hne
  have hquiet := Conn.quiet_readFrame hplace.steady hplace.fits hout
  rcases Conn.noted_acceptFrame hplace.steady.wf hi.assembling hok hout with ⟨e, rfl, rfl⟩ | hnoted
  · have hnote : note k s (.read run) (.frame f) = (s.resp, s.kept) := by
      unfold note
      dsimp only
      rw [hout]
    rw [hnote]
    exact inv_quiet ⟨_, _, hplace'⟩ hquiet hans hi.assembling
  · have hnote : note k s (.read run) (.frame f) =
        (s.conn.noteResp s.resp (f.drop headerSize), s.conn.noteKept s.kept (s.conn.mode run)) := by
      unfold note
      dsimp only
      rw [hout]
      cases out with
      | fault e => exact absurd rfl (hnoted.valid e)
      | _ => rfl
    rw [hnote]
    refine inv_quiet ⟨_, _, hplace'⟩ hquiet ?_ hnoted.assembling
    by_cases hsync : run.inSync = true
    · exact .inl hsync
    · refine .inr (hnoted.answers ?_ (hans.resolve_left hsync))
      rwa [Ne, mode_eq_discard]

theorem inv_commit {a : Ans} (hi : Inv s) (hcommit : Conn.Commits k s.ctl a)
    (h : step k s (.answer a) = some s') : Inv s' := by
  obtain ⟨n, b, hplace⟩ := hi.placed
  have hread : ¬ Conn.Reads s.ctl a := by
    rintro ⟨run, f, -, rfl⟩
    cases hcommit.1
  have hplain : s.ctl.inSync = false ∧ s.conn.next k s.ctl a = some s.conn.submitted := by
    obtain ⟨rfl, ⟨body, hctl⟩ | ⟨body, off, committed, hctl, hlast⟩⟩ := hcommit
    · rw [hctl]
      exact ⟨rfl, rfl⟩
    · rw [hctl]
      unfold Conn.next
      dsimp only
      rw [if_pos hlast]
      exact ⟨rfl, rfl⟩
  obtain ⟨p, hp, rfl⟩ := Option.map_eq_some_iff.mp h
  have hplace' := Conn.placed_next hplace hp fun run f hctl ha => absurd ⟨run, f, hctl, ha⟩ hread
  obtain rfl := Option.some.inj (hplain.2.symm.trans hp)
  rw [note_of_not_reads hread]
  have hans := hi.answers.resolve_left (by simp [hplain.1])
  have hwf : Conn.Wf { s.conn with txOpen := false } := { hplace.steady.wf with }
  have hreg := hwf.registered (nextID s.conn.lastID)
  have hq : Conn.Quiet _ false s.conn.submitted :=
    Conn.quiet_afterOp (.refl _) (by intro r d h; cases h)
  exact inv_quiet ⟨_, _, hplace'⟩ hq (.inr (hreg.answers hans)) (hreg.assembling hi.assembling)

theorem inv_step {act : Act} (hi : Inv s) (hok : Careful s act) (h : step k s act = some s') : Inv s' := by
  cases act with
  | call m => exact inv_call hi h
  | answer a =>
    by_cases hread : Conn.Reads s.ctl a
    · obtain ⟨run, f, hctl, rfl⟩ := hread
      refine inv_frame hi hctl (fun hactive hmode => ?_) h
      unfold Careful at hok
      rw [hctl] at hok
      simpa [hactive, hmode] using hok
    by_cases hcommit : Conn.Commits k s.ctl a
    · exact inv_commit hi hcommit h
    obtain ⟨n, b, hplace⟩ := hi.placed
    obtain ⟨p, hp, rfl⟩ := Option.map_eq_some_iff.mp h
    have hplace' := Conn.placed_next hplace hp fun run f hctl ha => absurd ⟨run, f, hctl, ha⟩ hread
    rw [note_of_not_reads hread]
    exact inv_quiet ⟨_, _, hplace'⟩
      (Conn.quiet_next hplace.steady hplace.fits hi.plain hp hread hcommit) hi.answers hi.assembling

theorem inv_of_reach (h : (machine k).Reach Careful s) : Inv s := by
  refine h.invariant ?_ fun s a s' _ hi hok hstep => inv_step hi hok hstep
  refine ⟨⟨0, false, ⟨⟨Conn.wf_new, by simp [machine, Conn.new], by simp [machine, Conn.new]⟩, trivial,
    rfl, rfl⟩⟩, trivial, .inr ?_, Conn.assembling_of_inactive rfl, by simp [machine]⟩
  intro r hr
  cases hr

/-- A `Wait` that succeeds returns what was read for its call, and nothing panics. -/
theorem wait_returns_response (h : (machine k).Reach Careful s) :
    s.ctl ≠ .panicked ∧ ∀ r d, s.ctl = .idle (.dec r d) → d.body = s.resp r := by
  have hi := inv_of_reach h
  refine ⟨fun hpanic => ?_, hi.dec⟩
  obtain ⟨n, b, hplace⟩ := hi.placed
  have hfits := hplace.fits
  rw [hpanic] at hfits
  exact hfits

def request : List Act :=
  [.call (.beginRequest 1 0 300), .answer (.gate false), .answer .ok, .call (.submit []), .answer .ok,
    .answer (.gate false)]

def frame (id : U32) (x : Byte) (off : Nat) : List Byte :=
  putHeader (if off = 0 then ⟨kindResponse, 0, 1, id, 300, 0⟩
    else ⟨kindCont, 0, 0, id, 300, BitVec.ofNat 32 off⟩) ++ List.replicate (min (300 - off) 112) x

def reads (id : U32) (x : Byte) (off : Nat) : List Act := [.answer (.frame (frame id x off)), .answer .ok]

def start (m : Method) : List Act :=
  [.call m, .answer (.gate false), .answer .ok, .answer (.gate false)]

def timesOut (m : Method) (id : U32) (x : Byte) : List Act :=
  start m ++ reads id x 0 ++
    [.answer (.fail .timeout), .answer (.gate false), .answer (.gate false)]

def waits (id : U32) (x : Byte) : List Act :=
  start (.wait (some 0) id) ++ reads id x 112 ++ reads id x 224

def wrongBody (s : State) : Bool :=
  match s.ctl with
  | .idle (.dec r d) => d.body ≠ s.resp r
  | _ => false

def rightBody (s : State) : Bool :=
  match s.ctl with
  | .idle (.dec r d) => d.body = s.resp r ∧ d.body.length = 300
  | _ => false

def panicked (s : State) : Bool :=
  match s.ctl with
  | .panicked => true
  | _ => false

/-- A `Sync` that times out after the first frame, and then a `Wait`. -/
theorem sync_then_wait :
    (∃ s, (machine smallCfg).Reachable s ∧ s.ctl = .panicked) ∧
      ∃ s r d, (machine smallCfg).Reachable s ∧ s.ctl = .idle (.dec r d) ∧ d.body ≠ s.resp r := by
  constructor
  · obtain ⟨s, hs, hpanic⟩ : ∃ s, (machine smallCfg).Reachable s ∧ panicked s = true :=
      Machine.exists_reachable (request ++ timesOut .sync 1 0x55 ++
        start (.wait (some 0) 1) ++ [.answer (.frame (frame 1 0x55 112))])
        (by decide +kernel)
    refine ⟨s, hs, ?_⟩
    unfold panicked at hpanic
    split at hpanic
    · assumption
    · cases hpanic
  · obtain ⟨s, hs, hwrong⟩ : ∃ s, (machine smallCfg).Reachable s ∧ wrongBody s = true :=
      Machine.exists_reachable (request ++ timesOut (.wait (some 0) 1) 1 0xaa ++ waits 1 0xaa ++
        [.call (.release 1), .answer (.gate false)] ++
        request ++ timesOut .sync 2 0x55 ++ waits 2 0x55) (by decide +kernel)
    unfold wrongBody at hwrong
    split at hwrong
    · next r d hctl => exact ⟨s, r, d, hs, hctl, by simpa using hwrong⟩
    · cases hwrong

theorem wait_returns_response_resumed :
    ∃ s r d, (machine smallCfg).Reach Careful s ∧ s.ctl = .idle (.dec r d) ∧ d.body.length = 300 ∧
      d.body = s.resp r := by
  obtain ⟨s, hs, hright⟩ : ∃ s, (machine smallCfg).Reach Careful s ∧ rightBody s = true :=
    Machine.exists_reach (request ++ timesOut (.wait (some 0) 1) 1 0xaa ++ waits 1 0xaa)
      (by decide +kernel)
  unfold rightBody at hright
  split at hright
  · next r d hctl =>
    have hlen : d.body = s.resp r ∧ d.body.length = 300 := by simpa using hright
    exact ⟨s, r, d, hs, hctl, hlen.2, (wait_returns_response hs).2 r d hctl⟩
  · cases hright

end Bodies

end Hqq.Bindgen
