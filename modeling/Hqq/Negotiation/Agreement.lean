import Hqq.Negotiation.Spec
import Hqq.Slots

/-!
# Both ends agree

An end gets its result from an ack: from its own, if it answered, or from the peer's. Only one end
ever sends an ack.
-/

namespace Hqq.Negotiation

theorem decodeVersion_encode (v : ProtocolVersion) : decodeVersion v.encode = v := by
  obtain ⟨major, minor⟩ := v
  unfold decodeVersion ProtocolVersion.encode
  congr 1
  · ext i hi
    simp
    grind -ring -linarith
  · ext i hi
    simp

def Within (f g : Word) : Prop := f &&& ~~~ g = 0

instance (f g : Word) : Decidable (Within f g) := inferInstanceAs (Decidable (_ = _))

theorem within_iff {f g : Word} : Within f g ↔ ∀ i < 64, f.getLsbD i = true → g.getLsbD i = true := by
  unfold Within
  constructor
  · intro h i hi hf
    have := congrArg (·.getLsbD i) h
    simp [hi, hf] at this
    exact this
  · intro h
    ext i hi
    have := h i hi
    simp only [BitVec.getLsbD_eq_getElem hi] at this
    simp
    exact this

structure Granted (requested : ProtocolVersion) (asked allowed : Word) (v : ProtocolVersion)
    (f : Word) : Prop where
  minor_le : v.minor ≤ requested.minor
  supported : v.minor ≤ hqqProtocolMinorVersion
  asked : Within f asked
  allowed : Within f allowed
  old : v.minor = 0 → Within f (~~~ featuresSince11)

theorem answerNegotiation_task (e : End) (version features allowed : Word) :
    e.answerNegotiation version features allowed = { e with task := some .sendReject } ∨
    ∃ v f, e.answerNegotiation version features allowed = { e with task := some (.sendAck v f) } ∧
      Granted (decodeVersion version) features allowed v f := by
  unfold End.answerNegotiation
  dsimp only
  split
  · exact .inl rfl
  refine .inr ⟨_, _, rfl, ?_, ?_, ?_, ?_, ?_⟩
  · dsimp only
    split
    · exact BitVec.le_refl _
    · rename_i hgt
      exact BitVec.le_of_lt (BitVec.not_le.mp hgt)
  · dsimp only
    split
    · assumption
    · exact BitVec.le_refl _
  · rw [within_iff]
    intro i hi
    split_ifs <;> simp +contextual
  · rw [within_iff]
    intro i hi
    split_ifs <;> simp +contextual
  · intro hzero
    dsimp only at hzero ⊢
    rw [hzero, if_pos (by decide), within_iff]
    intro i hi
    simp +contextual

def HasAck (fs : List Frame) (v : ProtocolVersion) (f : Word) : Prop :=
  ∃ x ∈ fs, ∃ w, x.packet = .protoAck w f ∧ decodeVersion w = v

def End.Stored (e : End) : Prop :=
  e.task = some .storeNegotiated ∨ e.task = some .storeState ∨ e.state = .negotiated

structure Answered (mode : LinkMode) (mine theirs : Option Ask) (v : ProtocolVersion) (f : Word)
    (a b : Ask) : Prop where
  mine : mine = some a
  theirs : theirs = some b
  initiates : b.initiates = true
  yields : a.initiates = true → mode = .secondary
  granted : Granted b.version b.features a.features v f

def NoAck (fs : List Frame) : Prop := ∀ v f, ¬ HasAck fs v f

/-- Of the frames that came, `read` were taken. -/
def TaskOk (mode : LinkMode) (mine theirs : Option Ask) (out came read : List Frame) : Task → Prop
  | .sendRequest version features =>
    mine = some ⟨true, version, features⟩ ∧ NoAck out ∧ NoAck read
  | .awaitAck features =>
    (∃ a, mine = some a ∧ a.initiates = true ∧ features = a.features) ∧ NoAck out ∧ NoAck read
  | .awaitRequest allowed =>
    (∃ a, mine = some a ∧ a.initiates = false ∧ allowed = a.features) ∧ NoAck out ∧ NoAck read
  | .sendReject => NoAck out
  | .sendAck version features =>
    NoAck out ∧ ∃ a b, Answered mode mine theirs version features a b
  | .storeResult version features => HasAck out version features ∨ HasAck came version features
  | .storeNegotiated | .storeState => True

structure EndInv (mode : LinkMode) (e p : End) : Prop where
  taken_le : e.taken ≤ p.sent.length
  fresh : e.state = .none → e.ask = none ∧ e.taken = 0 ∧ ∀ x ∈ e.sent, x.packet = .tombstone
  busy : e.task ≠ none → e.state = .negotiating
  waits : ∀ a, e.ask = some a → a.initiates = false → a.version = currentProtocolVersion
  task : ∀ t, e.task = some t → TaskOk mode e.ask p.ask e.sent p.sent (p.sent.take e.taken) t
  request : ∀ x ∈ e.sent, ∀ v f, x.packet = .protoNegotiate v f →
    ∃ a, e.ask = some a ∧ a.initiates = true ∧ v = a.version.encode ∧ f = a.features
  ack : ∀ v f, HasAck e.sent v f → (∃ a b, Answered mode e.ask p.ask v f a b) ∧
    (e.task = some (.storeResult v f) ∨
      (e.Stored ∧ e.negotiatedVersion = v ∧ e.negotiatedFeatures = f))
  stored : e.Stored → HasAck e.sent e.negotiatedVersion e.negotiatedFeatures ∨
    HasAck p.sent e.negotiatedVersion e.negotiatedFeatures
  bit : e.negotiated = true → e.Stored
  late : ∀ k x, e.sent[k]? = some x → x.late = true →
    (∃ v f, HasAck (e.sent.take k) v f) ∨ ∃ v f, HasAck p.sent v f
  tookLate : e.tookLate = false

theorem EndInv.init (mode : LinkMode) : EndInv mode .fresh .fresh := by
  constructor <;> simp [End.fresh, HasAck, End.Stored]

/-! ## The peer moves -/

structure Grows (p p' : End) : Prop where
  sent : ∃ new, p'.sent = p.sent ++ new
  ask : ∀ b, p.ask = some b → p'.ask = some b

variable {mode : LinkMode} {e e' p p' : End}

theorem HasAck.mono {fs gs : List Frame} {v : ProtocolVersion} {f : Word} (h : HasAck fs v f)
    (hsub : ∀ x ∈ fs, x ∈ gs) : HasAck gs v f := by
  obtain ⟨x, hx, hp⟩ := h
  exact ⟨x, hsub x hx, hp⟩

theorem Grows.hasAck (h : Grows p p') {v : ProtocolVersion} {f : Word} (hack : HasAck p.sent v f) :
    HasAck p'.sent v f := by
  obtain ⟨new, hnew⟩ := h.sent
  exact hack.mono fun x hx => hnew ▸ List.mem_append_left _ hx

theorem Grows.take (h : Grows p p') {k : Nat} (hk : k ≤ p.sent.length) :
    p'.sent.take k = p.sent.take k := by
  obtain ⟨new, hnew⟩ := h.sent
  rw [hnew, List.take_append_of_le_length hk]

theorem Answered.grows {mine : Option Ask} {v : ProtocolVersion} {f : Word} {a b : Ask}
    (h : Answered mode mine p.ask v f a b) (hp : Grows p p') : Answered mode mine p'.ask v f a b :=
  ⟨h.mine, hp.ask b h.theirs, h.initiates, h.yields, h.granted⟩

theorem TaskOk.grows {mine : Option Ask} {out read : List Frame} {t : Task}
    (h : TaskOk mode mine p.ask out p.sent read t) (hp : Grows p p') :
    TaskOk mode mine p'.ask out p'.sent read t := by
  cases t with
  | sendRequest version features | awaitAck features | awaitRequest allowed | sendReject => exact h
  | sendAck version features =>
    obtain ⟨hno, a, b, hans⟩ := h
    exact ⟨hno, a, b, hans.grows hp⟩
  | storeResult version features => exact h.imp id hp.hasAck
  | storeNegotiated | storeState => trivial

theorem EndInv.grows (h : EndInv mode e p) (hp : Grows p p') : EndInv mode e p' where
  taken_le := by
    obtain ⟨new, hnew⟩ := hp.sent
    have := h.taken_le
    rw [hnew, List.length_append]
    omega
  fresh := h.fresh
  busy := h.busy
  waits := h.waits
  task t ht := by
    rw [hp.take h.taken_le]
    exact (h.task t ht).grows hp
  request := h.request
  ack v f hack := by
    obtain ⟨⟨a, b, hans⟩, hsettled⟩ := h.ack v f hack
    exact ⟨⟨a, b, hans.grows hp⟩, hsettled⟩
  stored hs := (h.stored hs).imp id hp.hasAck
  bit := h.bit
  late k x hx hl := (h.late k x hx hl).imp id fun ⟨v, f, hack⟩ => ⟨v, f, hp.hasAck hack⟩
  tookLate := h.tookLate

/-! ## The end moves -/

theorem hasAck_append {fs : List Frame} {x : Frame} {v : ProtocolVersion} {f : Word} :
    HasAck (fs ++ [x]) v f ↔
      HasAck fs v f ∨ ∃ w, x.packet = .protoAck w f ∧ decodeVersion w = v := by
  unfold HasAck
  simp only [List.mem_append, List.mem_singleton, or_and_right, exists_or, exists_eq_left]

theorem noAck_of_tombstones {fs : List Frame} (h : ∀ x ∈ fs, x.packet = .tombstone) : NoAck fs := by
  rintro v f ⟨x, hx, w, hp, -⟩
  rw [h x hx] at hp
  cases hp

theorem noAck_append {fs : List Frame} {x : Frame} (h : NoAck fs)
    (hx : ∀ w f, x.packet ≠ .protoAck w f) : NoAck (fs ++ [x]) := by
  intro v f hack
  rcases hasAck_append.mp hack with hold | ⟨w, hw, -⟩
  · exact h v f hold
  · exact hx w f hw

theorem EndInv.late_put (h : EndInv mode e p) (q : Packet) (k : Nat) (x : Frame)
    (hx : (e.put q).sent[k]? = some x) (hl : x.late = true) :
    (∃ v f, HasAck ((e.put q).sent.take k) v f) ∨ ∃ v f, HasAck p.sent v f := by
  unfold End.put at hx ⊢
  rcases Nat.lt_or_ge k e.sent.length with hk | hk
  · rw [List.getElem?_append_left hk] at hx
    rw [List.take_append_of_le_length hk.le]
    exact h.late k x hx hl
  · obtain rfl : k = e.sent.length := by
      have := (List.getElem?_eq_some_iff.mp hx).1
      simp only [List.length_append, List.length_singleton] at this
      omega
    rw [List.getElem?_concat_length, Option.some.injEq] at hx
    rw [List.take_left]
    subst hx
    -- The bit is set after the result is stored, and the result comes from an ack.
    rcases h.stored (h.bit hl) with hown | hpeer
    · exact .inl ⟨_, _, hown⟩
    · exact .inr ⟨_, _, hpeer⟩

theorem not_stored_of_task {t : Task} (h : EndInv mode e p) (ht : e.task = some t)
    (h1 : t ≠ .storeNegotiated) (h2 : t ≠ .storeState) : ¬ e.Stored := by
  have hbusy := h.busy (by simp [ht])
  rintro (hs | hs | hs)
  · exact h1 (Option.some.inj (ht.symm.trans hs))
  · exact h2 (Option.some.inj (ht.symm.trans hs))
  · rw [hbusy] at hs
    cases hs

theorem EndInv.not_negotiated (h : EndInv mode e p) (hs : e.state = .none) : e.negotiated ≠ true := by
  intro hb
  rcases h.bit hb with ht | ht | ht
  · exact absurd (h.busy (by simp [ht])) (by simp [hs])
  · exact absurd (h.busy (by simp [ht])) (by simp [hs])
  · simp [hs] at ht

theorem EndInv.failed (h : EndInv mode e p) (hstored : ¬ e.Stored) (hno : NoAck e.sent) :
    EndInv mode e.setProtocolFailed p where
  taken_le := h.taken_le
  fresh hs := by cases hs
  busy ht := absurd rfl ht
  waits := h.waits
  task t ht := by cases ht
  request := h.request
  ack v f hack := absurd hack (hno v f)
  stored hs := by rcases hs with hs | hs | hs <;> cases hs
  bit hb := absurd (h.bit hb) hstored
  late := h.late
  tookLate := h.tookLate

theorem EndInv.goOn (h : EndInv mode e p) (hstored : ¬ e.Stored) (hno : NoAck e.sent)
    (hstate : e.state = .negotiating) {t : Task} (h1 : t ≠ .storeNegotiated) (h2 : t ≠ .storeState)
    (ht : TaskOk mode e.ask p.ask e.sent p.sent (p.sent.take e.taken) t) :
    EndInv mode { e with task := some t } p where
  taken_le := h.taken_le
  fresh hs := h.fresh hs
  busy _ := hstate
  waits := h.waits
  task t' ht' := Option.some.inj ht' ▸ ht
  request := h.request
  ack v f hack := absurd hack (hno v f)
  stored hs := by
    rcases hs with hs | hs | hs
    · exact absurd (Option.some.inj hs) h1
    · exact absurd (Option.some.inj hs) h2
    · exact absurd (.inr (.inr hs)) hstored
  bit hb := absurd (h.bit hb) hstored
  late := h.late
  tookLate := h.tookLate

theorem TaskOk.put {mine theirs : Option Ask} {out came read : List Frame} {t : Task} {x : Frame}
    (h : TaskOk mode mine theirs out came read t) (hx : ∀ w f, x.packet ≠ .protoAck w f) :
    TaskOk mode mine theirs (out ++ [x]) came read t := by
  cases t with
  | sendRequest version features | awaitAck features | awaitRequest allowed =>
    exact ⟨h.1, noAck_append h.2.1 hx, h.2.2⟩
  | sendReject => exact noAck_append h hx
  | sendAck version features => exact ⟨noAck_append h.1 hx, h.2⟩
  | storeResult version features => exact h.imp (fun hack => hasAck_append.mpr (.inl hack)) id
  | storeNegotiated | storeState => trivial

theorem EndInv.put (h : EndInv mode e p) {q : Packet} (hack : ∀ w f, q ≠ .protoAck w f)
    (hreq : ∀ v f, q = .protoNegotiate v f →
      ∃ a, e.ask = some a ∧ a.initiates = true ∧ v = a.version.encode ∧ f = a.features)
    (hfresh : e.state = .none → q = .tombstone) : EndInv mode (e.put q) p where
  taken_le := h.taken_le
  fresh hs := by
    obtain ⟨hask, htaken, htomb⟩ := h.fresh hs
    refine ⟨hask, htaken, fun x hx => ?_⟩
    rcases mem_concat.mp hx with hold | rfl
    · exact htomb x hold
    · exact hfresh hs
  busy := h.busy
  waits := h.waits
  task t ht := (h.task t ht).put hack
  request x hx v f hp := by
    rcases mem_concat.mp hx with hold | rfl
    · exact h.request x hold v f hp
    · exact hreq v f hp
  ack v f ha := by
    rcases hasAck_append.mp ha with hold | ⟨w, hw, -⟩
    · exact h.ack v f hold
    · exact absurd hw (hack w f)
  stored hs := (h.stored hs).imp (fun ha => hasAck_append.mpr (.inl ha)) id
  bit := h.bit
  late := h.late_put q
  tookLate := h.tookLate

theorem EndInv.sendOther (h : EndInv mode e p) {q : Packet} (hstep : e.sendOther q = some e') :
    EndInv mode e' p := by
  cases q with
  | tombstone =>
    cases hstep
    exact h.put (fun _ _ => nofun) (fun _ _ => nofun) fun _ => rfl
  | protoNegotiate v f | protoAck v f => cases hstep
  | error | other =>
    simp only [End.sendOther, Option.ite_none_right_eq_some, Option.some.injEq] at hstep
    exact hstep.2 ▸ h.put (fun _ _ => nofun) (fun _ _ => nofun)
      fun hs => absurd hstep.1 (h.not_negotiated hs)

theorem EndInv.begin (h : EndInv mode e p) (c : Call) : EndInv mode (e.begin mode c) p := by
  unfold End.begin
  split
  · rename_i hnone
    obtain ⟨hask, htaken, htomb⟩ := h.fresh hnone
    have hno := noAck_of_tombstones htomb
    have hread : NoAck (p.sent.take e.taken) := by
      rw [htaken, List.take_zero]
      exact noAck_of_tombstones fun x hx => by cases hx
    refine ⟨h.taken_le, fun hs => (by cases hs), fun _ => rfl, ?_, ?_, ?_,
      fun v f hack => absurd hack (hno v f), ?_, fun hb => absurd hb (h.not_negotiated hnone), h.late,
      h.tookLate⟩
    · intro a ha hw
      cases ha
      cases c with
      | negotiate features | waitForNegotiation => rfl
      | negotiateProtocol version features => cases hw
    · intro t ht
      cases ht
      unfold Ask.task
      split
      · rename_i hinit
        exact ⟨by rw [← hinit], hno, hread⟩
      · rename_i hwait
        exact ⟨⟨_, rfl, by simpa using hwait, rfl⟩, hno, hread⟩
    · intro x hx v f hp
      rw [htomb x hx] at hp
      cases hp
    · intro hs
      exfalso
      unfold End.Stored Ask.task at hs
      split at hs <;> simp at hs
  · exact h

theorem EndInv.sendAck (h : EndInv mode e p) {v : ProtocolVersion} {f : Word}
    (ht : e.task = some (.sendAck v f)) :
    EndInv mode { e.put (.protoAck v.encode f) with task := some (.storeResult v f) } p := by
  obtain ⟨hno, a, b, hans⟩ := h.task _ ht
  have hstored := not_stored_of_task h ht nofun nofun
  have hmine : HasAck (e.put (.protoAck v.encode f)).sent v f :=
    hasAck_append.mpr (.inr ⟨_, rfl, decodeVersion_encode v⟩)
  refine ⟨h.taken_le, fun hs => ?_, fun _ => h.busy (by simp [ht]), h.waits, ?_, ?_, ?_, ?_,
    fun hb => absurd (h.bit hb) hstored, h.late_put _, h.tookLate⟩
  · have hneg : e.state = .negotiating := h.busy (by simp [ht])
    exact absurd (hneg.symm.trans hs) nofun
  · intro t ht'
    obtain rfl := Option.some.inj ht'
    exact .inl hmine
  · intro x hx v' f' hp
    rcases mem_concat.mp hx with hold | rfl
    · exact h.request x hold v' f' hp
    · cases hp
  · intro v' f' hack
    rcases hasAck_append.mp hack with hold | ⟨w, hw, hv⟩
    · exact absurd hold (hno v' f')
    · simp only [Packet.protoAck.injEq] at hw
      obtain ⟨rfl, rfl⟩ := hw
      obtain rfl := (decodeVersion_encode v).symm.trans hv
      exact ⟨⟨a, b, hans⟩, .inl rfl⟩
  · rintro (hs | hs | hs)
    · cases hs
    · cases hs
    · exact absurd (.inr (.inr hs)) hstored

theorem EndInv.send (h : EndInv mode e p) {sends : Bool} (hstep : e.send sends = some e') :
    EndInv mode e' p := by
  unfold End.send at hstep
  cases ht : e.task with
  | none => simp [ht] at hstep
  | some t =>
    have hok := h.task t ht
    have hneg : e.state = .negotiating := h.busy (by simp [ht])
    rw [ht] at hstep
    cases t with
    | sendRequest version features =>
      have hstored := not_stored_of_task h ht nofun nofun
      cases sends with
      | false => exact Option.some.inj hstep ▸ h.failed hstored hok.2.1
      | true =>
        have hput := h.put (q := .protoNegotiate version.encode features) (fun _ _ => nofun)
          (fun v f he => by cases he; exact ⟨_, hok.1, rfl, rfl, rfl⟩)
          (fun hs => by rw [hneg] at hs; cases hs)
        have hno := noAck_append (x := ⟨.protoNegotiate version.encode features, e.negotiated⟩) hok.2.1
          (fun _ _ => nofun)
        refine Option.some.inj hstep ▸ hput.goOn hstored hno hneg nofun nofun ?_
        exact ⟨⟨_, hok.1, rfl, rfl⟩, hno, hok.2.2⟩
    | sendReject =>
      have hstored := not_stored_of_task h ht nofun nofun
      cases sends with
      | false => exact Option.some.inj hstep ▸ h.failed hstored hok
      | true =>
        have hput := h.put (q := .error) (fun _ _ => nofun) (fun _ _ => nofun)
          (fun hs => by rw [hneg] at hs; cases hs)
        exact Option.some.inj hstep ▸ hput.failed hstored (noAck_append hok fun _ _ => nofun)
    | sendAck version features =>
      cases sends with
      | false =>
        exact Option.some.inj hstep ▸ h.failed (not_stored_of_task h ht nofun nofun) hok.1
      | true => exact Option.some.inj hstep ▸ h.sendAck ht
    | _ => cases hstep

/-! ## A frame comes in -/

def Task.Awaits : Task → Prop
  | .awaitAck _ | .awaitRequest _ => True
  | _ => False

theorem TaskOk.awaits {mine theirs : Option Ask} {out came read : List Frame} {t : Task}
    (h : TaskOk mode mine theirs out came read t) (ht : t.Awaits) : NoAck out ∧ NoAck read := by
  cases t with
  | awaitAck features | awaitRequest allowed => exact h.2
  | _ => cases ht

theorem EndInv.not_late (h : EndInv mode e p) (hp : EndInv mode.peer p e) {t : Task}
    (ht : e.task = some t) (hawaits : t.Awaits) {x : Frame} (hx : p.sent[e.taken]? = some x) :
    x.late = false := by
  obtain ⟨hout, hread⟩ := (h.task t ht).awaits hawaits
  rw [← Bool.not_eq_true]
  intro hl
  rcases hp.late _ x hx hl with ⟨v, f, hack⟩ | ⟨v, f, hack⟩
  · exact hread v f hack
  · exact hout v f hack

def End.between (e : End) (x : Frame) : End :=
  { e with taken := e.taken + 1, tookLate := e.tookLate || x.late, task := none }

section Recv

variable {t : Task} {x : Frame} (h : EndInv mode e p) (hp : EndInv mode.peer p e)
  (ht : e.task = some t) (hawaits : t.Awaits) (hx : p.sent[e.taken]? = some x)
include h ht hawaits

theorem EndInv.waiting : ¬ e.Stored ∧ e.state = .negotiating ∧ NoAck e.sent ∧
    NoAck (p.sent.take e.taken) := by
  refine ⟨not_stored_of_task h ht ?_ ?_, h.busy (by simp [ht]), (h.task t ht).awaits hawaits⟩
  · rintro rfl
    exact hawaits
  · rintro rfl
    exact hawaits

theorem EndInv.between_not_stored : ¬ (e.between x).Stored := by
  obtain ⟨hstored, -⟩ := h.waiting ht hawaits
  rintro (hs | hs | hs)
  · cases hs
  · cases hs
  · exact hstored (.inr (.inr hs))

include hp hx

theorem EndInv.between : EndInv mode (e.between x) p := by
  obtain ⟨hstored, hneg, hout, -⟩ := h.waiting ht hawaits
  have hlate := h.not_late hp ht hawaits hx
  refine ⟨(List.getElem?_eq_some_iff.mp hx).1, fun hs => ?_, fun hne => absurd rfl hne, h.waits,
    fun t ht => (by cases ht), h.request, fun v f hack => absurd hack (hout v f), ?_,
    fun hb => absurd (h.bit hb) hstored, h.late, ?_⟩
  · exact absurd (hneg.symm.trans hs) nofun
  · rintro (hs | hs | hs)
    · cases hs
    · cases hs
    · exact absurd (.inr (.inr hs)) hstored
  · simp [End.between, h.tookLate, hlate]

theorem EndInv.fails : EndInv mode (e.between x).setProtocolFailed p :=
  (h.between hp ht hawaits hx).failed (h.between_not_stored ht hawaits)
    (h.waiting ht hawaits).2.2.1

theorem EndInv.waitsOn (hack : ∀ w f, x.packet ≠ .protoAck w f) :
    EndInv mode { e.between x with task := some t } p := by
  obtain ⟨-, hneg, hout, hread⟩ := h.waiting ht hawaits
  have hread' : NoAck (p.sent.take (e.taken + 1)) := by
    rw [List.take_add_one, hx]
    exact noAck_append hread hack
  have hok := h.task t ht
  refine (h.between hp ht hawaits hx).goOn (h.between_not_stored ht hawaits) hout hneg ?_ ?_ ?_
  · rintro rfl
    exact hawaits
  · rintro rfl
    exact hawaits
  · cases t with
    | awaitAck features | awaitRequest allowed => exact ⟨hok.1, hout, hread'⟩
    | _ => cases hawaits

theorem EndInv.answers {v f : Word} (hreq : x.packet = .protoNegotiate v f) {a : Ask}
    (ha : e.ask = some a) (hyields : a.initiates = true → mode = .secondary) :
    EndInv mode ((e.between x).answerNegotiation v f a.features) p := by
  obtain ⟨-, hneg, hout, -⟩ := h.waiting ht hawaits
  have hbetween := h.between hp ht hawaits hx
  have hns : ¬ (e.between x).Stored := h.between_not_stored ht hawaits
  rcases answerNegotiation_task (e.between x) v f a.features with heq | ⟨v', f', heq, hgranted⟩
  · rw [heq]
    exact hbetween.goOn hns hout hneg nofun nofun hout
  · rw [heq]
    obtain ⟨b, hb, hinit, rfl, rfl⟩ := hp.request x (List.mem_of_getElem? hx) v f hreq
    rw [decodeVersion_encode] at hgranted
    exact hbetween.goOn hns hout hneg nofun nofun ⟨hout, a, b, ha, hb, hinit, hyields, hgranted⟩

end Recv

theorem EndInv.recv (h : EndInv mode e p) (hp : EndInv mode.peer p e) {x : Frame}
    (hx : p.sent[e.taken]? = some x) (hstep : e.recv mode x = some e') : EndInv mode e' p := by
  unfold End.recv at hstep
  cases ht : e.task with
  | none => simp [ht] at hstep
  | some t =>
    have hok := h.task t ht
    simp only [ht] at hstep
    cases t with
    | awaitAck features =>
      obtain ⟨⟨a, ha, hinit, rfl⟩, hout, hread⟩ := hok
      rw [Option.some.injEq] at hstep
      subst hstep
      cases hpk : x.packet with
      | tombstone => exact h.waitsOn hp ht trivial hx (by simp [hpk])
      | protoNegotiate v f =>
        rw [End.onReply]
        split
        · rename_i hsec
          exact h.answers hp ht trivial hx hpk ha fun _ => hsec
        · exact h.waitsOn hp ht trivial hx (by simp [hpk])
      | protoAck v f =>
        rw [End.onReply]
        split
        · exact h.fails hp ht trivial hx
        · refine (h.between hp ht trivial hx).goOn (h.between_not_stored ht trivial) hout
            (h.waiting ht trivial).2.1 nofun nofun (.inr ⟨x, List.mem_of_getElem? hx, v, hpk, rfl⟩)
      | error | other => exact h.fails hp ht trivial hx
    | awaitRequest allowed =>
      obtain ⟨⟨a, ha, hwait, rfl⟩, hout, hread⟩ := hok
      rw [Option.some.injEq] at hstep
      subst hstep
      cases hpk : x.packet with
      | tombstone => exact h.waitsOn hp ht trivial hx (by simp [hpk])
      | protoNegotiate v f =>
        exact h.answers hp ht trivial hx hpk ha fun hinit => absurd (hwait.symm.trans hinit) nofun
      | protoAck v f | error | other => exact h.fails hp ht trivial hx
    | _ => cases hstep

/-! ## The result is stored -/

theorem EndInv.giveUp (h : EndInv mode e p) (hstep : e.giveUp = some e') : EndInv mode e' p := by
  unfold End.giveUp at hstep
  cases ht : e.task with
  | none => simp [ht] at hstep
  | some t =>
    rw [ht] at hstep
    cases t with
    | awaitAck features | awaitRequest allowed =>
      have hw := h.waiting ht trivial
      exact Option.some.inj hstep ▸ h.failed hw.1 hw.2.2.1
    | _ => cases hstep

theorem EndInv.settle (h : EndInv mode e p) (hstep : e.settle = some e') : EndInv mode e' p := by
  unfold End.settle at hstep
  cases ht : e.task with
  | none => simp [ht] at hstep
  | some t =>
    have hok := h.task t ht
    have hneg : e.state = .negotiating := h.busy (by simp [ht])
    rw [ht] at hstep
    cases t with
    | storeResult v f =>
      have hstored := not_stored_of_task h ht nofun nofun
      cases hstep
      refine ⟨h.taken_le, h.fresh, fun _ => hneg, h.waits, ?_, h.request, fun v' f' hack => ?_,
        fun _ => hok, fun hb => absurd (h.bit hb) hstored, h.late, h.tookLate⟩
      · rintro t ht
        cases ht
        trivial
      · obtain ⟨hans, hset⟩ := h.ack v' f' hack
        rcases hset with hset | hset
        · rw [ht, Option.some.injEq, Task.storeResult.injEq] at hset
          exact ⟨hans, .inr ⟨.inl rfl, hset⟩⟩
        · exact absurd hset.1 hstored
    | storeNegotiated =>
      cases hstep
      refine ⟨h.taken_le, h.fresh, fun _ => hneg, h.waits, ?_, h.request, fun v f hack => ?_,
        fun _ => h.stored (.inl ht), fun _ => .inr (.inl rfl), h.late, h.tookLate⟩
      · rintro t ht
        cases ht
        trivial
      · obtain ⟨hans, hset⟩ := h.ack v f hack
        rcases hset with hset | hset
        · exact absurd (ht.symm.trans hset) nofun
        · exact ⟨hans, .inr ⟨.inr (.inl rfl), hset.2⟩⟩
    | storeState =>
      cases hstep
      refine ⟨h.taken_le, fun hs => (by cases hs), fun hne => absurd rfl hne, h.waits,
        fun t ht => (by cases ht), h.request, fun v f hack => ?_, fun _ => h.stored (.inr (.inl ht)),
        fun _ => .inr (.inr rfl), h.late, h.tookLate⟩
      obtain ⟨hans, hset⟩ := h.ack v f hack
      rcases hset with hset | hset
      · exact absurd (ht.symm.trans hset) nofun
      · exact ⟨hans, .inr ⟨.inr (.inr rfl), hset.2⟩⟩
    | _ => cases hstep

theorem grows_put (e : End) (q : Packet) : Grows e (e.put q) := ⟨⟨_, rfl⟩, fun _ h => h⟩

theorem grows_of_eq (hsent : e'.sent = e.sent) (hask : e'.ask = e.ask) : Grows e e' :=
  ⟨⟨[], by rw [hsent, List.append_nil]⟩, fun _ h => hask ▸ h⟩

theorem answerNegotiation_same (e : End) (version features allowed : Word) :
    (e.answerNegotiation version features allowed).sent = e.sent ∧
      (e.answerNegotiation version features allowed).ask = e.ask := by
  rcases answerNegotiation_task e version features allowed with heq | ⟨v, f, heq, -⟩
  · rw [heq]
    exact ⟨rfl, rfl⟩
  · rw [heq]
    exact ⟨rfl, rfl⟩

theorem recv_grows {x : Frame} (hstep : e.recv mode x = some e') : Grows e e' := by
  unfold End.recv at hstep
  split at hstep
  · cases hstep
    unfold End.onReply
    split
    · exact grows_of_eq rfl rfl
    · dsimp only
      split <;> exact grows_of_eq rfl rfl
    · split
      · exact grows_of_eq (answerNegotiation_same _ _ _ _).1 (answerNegotiation_same _ _ _ _).2
      · exact grows_of_eq rfl rfl
    · exact grows_of_eq rfl rfl
    · exact grows_of_eq rfl rfl
  · cases hstep
    unfold End.onRequest
    split
    · exact grows_of_eq rfl rfl
    · exact grows_of_eq (answerNegotiation_same _ _ _ _).1 (answerNegotiation_same _ _ _ _).2
    · exact grows_of_eq rfl rfl
    · exact grows_of_eq rfl rfl
    · exact grows_of_eq rfl rfl
  · cases hstep

theorem send_grows {sends : Bool} (hstep : e.send sends = some e') : Grows e e' := by
  unfold End.send at hstep
  split at hstep
  · cases hstep
  · split at hstep
    · exact Option.some.inj hstep ▸ ⟨⟨_, rfl⟩, fun _ h => h⟩
    · exact Option.some.inj hstep ▸ ⟨⟨_, rfl⟩, fun _ h => h⟩
    · exact Option.some.inj hstep ▸ grows_of_eq rfl rfl

theorem EndInv.step_grows (h : EndInv mode e p) {next : Option Frame} {act : Act}
    (hstep : e.step mode next act = some e') : Grows e e' := by
  cases act with
  | call c =>
    cases hstep
    unfold End.begin
    split
    · rename_i hnone
      exact ⟨⟨[], (List.append_nil _).symm⟩, fun b hb => absurd ((h.fresh hnone).1.symm.trans hb) nofun⟩
    · exact grows_of_eq rfl rfl
  | send sends => exact send_grows hstep
  | recv =>
    obtain ⟨x, -, hx⟩ := Option.bind_eq_some_iff.mp hstep
    exact recv_grows hx
  | giveUp =>
    simp only [End.step, End.giveUp] at hstep
    split at hstep
    · exact Option.some.inj hstep ▸ grows_of_eq rfl rfl
    · exact Option.some.inj hstep ▸ grows_of_eq rfl rfl
    · cases hstep
  | settle =>
    simp only [End.step, End.settle] at hstep
    split at hstep
    · exact Option.some.inj hstep ▸ grows_of_eq rfl rfl
    · exact Option.some.inj hstep ▸ grows_of_eq rfl rfl
    · exact Option.some.inj hstep ▸ grows_of_eq rfl rfl
    · cases hstep
  | sendOther q =>
    simp only [End.step, End.sendOther] at hstep
    split at hstep
    · exact Option.some.inj hstep ▸ grows_put _ _
    · rw [Option.ite_none_right_eq_some] at hstep
      exact Option.some.inj hstep.2 ▸ grows_put _ _
    · rw [Option.ite_none_right_eq_some] at hstep
      exact Option.some.inj hstep.2 ▸ grows_put _ _
    · cases hstep
    · cases hstep

theorem EndInv.step (h : EndInv mode e p) (hp : EndInv mode.peer p e) {act : Act}
    (hstep : e.step mode p.sent[e.taken]? act = some e') : EndInv mode e' p := by
  cases act with
  | call c => exact Option.some.inj hstep ▸ h.begin c
  | send sends => exact h.send hstep
  | recv =>
    obtain ⟨x, hx, hrecv⟩ := Option.bind_eq_some_iff.mp hstep
    exact h.recv hp hx hrecv
  | giveUp => exact h.giveUp hstep
  | settle => exact h.settle hstep
  | sendOther q => exact h.sendOther hstep

def LinkInv (l : Link) : Prop := ∀ m, EndInv m (l m) (l m.peer)

theorem LinkInv.step {l l' : Link} {a : LinkMode × Act} (h : LinkInv l)
    (hstep : linkMachine.step l a = some l') : LinkInv l' := by
  obtain ⟨m, act⟩ := a
  obtain ⟨e', he, rfl⟩ := Option.map_eq_some_iff.mp hstep
  have hpeer : EndInv m.peer (l m.peer) (l m) := by
    have := h m.peer
    rwa [LinkMode.peer_peer] at this
  intro n
  rcases n.eq_or_eq_peer m with rfl | rfl
  · rw [Function.update_self, Function.update_of_ne n.peer_ne]
    exact (h n).step hpeer he
  · rw [Function.update_of_ne m.peer_ne, LinkMode.peer_peer, Function.update_self]
    exact hpeer.grows ((h m).step_grows he)

/-- The result of a negotiation. If both initiate, the request of the Primary is answered. -/
structure Agreed (l : Link) : Prop where
  version : (l .primary).negotiatedVersion = (l .secondary).negotiatedVersion
  features : (l .primary).negotiatedFeatures = (l .secondary).negotiatedFeatures
  within : ∀ m a, (l m).ask = some a → Within (l m).negotiatedFeatures a.features
  old : ∀ m, (l m).negotiatedVersion.minor = 0 → (l m).negotiatedFeatures &&& featuresSince11 = 0
  supported : ∀ m, (l m).negotiatedVersion.minor ≤ hqqProtocolMinorVersion
  minor_le : ∀ m a, (l m).ask = some a →
    (m = .secondary → a.initiates = true → ∀ b, (l .primary).ask = some b → b.initiates = false) →
    (l m).negotiatedVersion.minor ≤ a.version.minor

theorem LinkInv.agreed {l : Link} (h : LinkInv l) {m : LinkMode} {v : ProtocolVersion} {f : Word}
    (hack : HasAck (l m).sent v f) (hv : ∀ n, (l n).negotiatedVersion = v)
    (hf : ∀ n, (l n).negotiatedFeatures = f) : Agreed l := by
  obtain ⟨⟨a, b, hans⟩, -⟩ := (h m).ack v f hack
  have hboth : ∀ n c, (l n).ask = some c → n = m ∧ c = a ∨ n = m.peer ∧ c = b := by
    intro n c hc
    rcases n.eq_or_eq_peer m with rfl | rfl
    · exact .inl ⟨rfl, Option.some.inj (hc.symm.trans hans.mine)⟩
    · exact .inr ⟨rfl, Option.some.inj (hc.symm.trans hans.theirs)⟩
  refine ⟨by rw [hv, hv], by rw [hf, hf], fun n c hc => ?_, fun n hz => ?_, fun n => ?_,
    fun n c hc hlost => ?_⟩
  · rw [hf]
    rcases hboth n c hc with ⟨-, rfl⟩ | ⟨-, rfl⟩
    · exact hans.granted.allowed
    · exact hans.granted.asked
  · rw [hv] at hz
    rw [hf]
    simpa [Within] using hans.granted.old hz
  · rw [hv]
    exact hans.granted.supported
  · rw [hv]
    rcases hboth n c hc with ⟨rfl, rfl⟩ | ⟨-, rfl⟩
    · cases hinit : c.initiates with
      | false =>
        rw [(h n).waits c hc hinit]
        exact hans.granted.supported
      | true =>
        obtain rfl := hans.yields hinit
        exact absurd (hlost rfl hinit b hans.theirs) (by simp [hans.initiates])
    · exact hans.granted.minor_le

theorem negotiation_agrees (l : Link) (h : linkMachine.Reachable l) :
    (∀ m, (l m).tookLate = false) ∧ ((∀ m, (l m).state = .negotiated) → Agreed l) := by
  have hinv : LinkInv l := h.invariant EndInv.init fun s a s' _ hs _ hstep => hs.step hstep
  refine ⟨fun m => (hinv m).tookLate, fun hdone => ?_⟩
  -- Somebody sent the ack: the Primary has its result from its own or from that of the peer.
  obtain ⟨m, hack⟩ : ∃ m, HasAck (l m).sent (l .primary).negotiatedVersion
      (l .primary).negotiatedFeatures := by
    rcases (hinv .primary).stored (.inr (.inr (hdone _))) with hown | hpeer
    · exact ⟨_, hown⟩
    · exact ⟨_, hpeer⟩
  have hsame : ∀ n v f, HasAck (l n).sent v f →
      (l n).negotiatedVersion = v ∧ (l n).negotiatedFeatures = f := by
    intro n v f hn
    rcases ((hinv n).ack v f hn).2 with htask | hset
    · exact absurd ((hinv n).busy (by simp [htask])) (by simp [hdone n])
    · exact hset.2
  -- Nobody but `m` sent an ack, because its peer is the one that initiated.
  have honly : ∀ v f, ¬ HasAck (l m.peer).sent v f := by
    intro v f hpeer
    obtain ⟨⟨a, b, hans⟩, -⟩ := (hinv m).ack _ _ hack
    obtain ⟨⟨a', b', hans'⟩, -⟩ := (hinv m.peer).ack v f hpeer
    have hb : b = a' := Option.some.inj (hans.theirs.symm.trans hans'.mine)
    have ha : a = b' := by
      have := hans'.theirs
      rw [LinkMode.peer_peer] at this
      exact Option.some.inj (hans.mine.symm.trans this)
    have h1 := hans.yields (by rw [ha]; exact hans'.initiates)
    have h2 := hans'.yields (by rw [← hb]; exact hans.initiates)
    rw [h1] at h2
    cases h2
  have hpeer : (l m.peer).negotiatedVersion = (l m).negotiatedVersion ∧
      (l m.peer).negotiatedFeatures = (l m).negotiatedFeatures := by
    rcases (hinv m.peer).stored (.inr (.inr (hdone _))) with hown | hother
    · exact absurd hown (honly _ _)
    · rw [LinkMode.peer_peer] at hother
      obtain ⟨h1, h2⟩ := hsame m _ _ hother
      exact ⟨h1.symm, h2.symm⟩
  have hm := hsame m _ _ hack
  refine hinv.agreed hack (fun n => ?_) (fun n => ?_)
  · rcases n.eq_or_eq_peer m with rfl | rfl
    · exact hm.1
    · exact hpeer.1.trans hm.1
  · rcases n.eq_or_eq_peer m with rfl | rfl
    · exact hm.2
    · exact hpeer.2.trans hm.2

/-! ## Both ends initiate -/

def bothInitiate : List (LinkMode × Act) :=
  [(.primary, .call (.negotiateProtocol ⟨1, 1⟩ 15)),
   (.secondary, .call (.negotiateProtocol ⟨1, 0⟩ 15)),
   (.primary, .send true), (.secondary, .send true),
   (.secondary, .recv), (.secondary, .send true),
   (.secondary, .settle), (.secondary, .settle), (.secondary, .settle),
   (.primary, .recv), (.primary, .recv),
   (.primary, .settle), (.primary, .settle), (.primary, .settle)]

theorem negotiation_agrees_both_initiate :
    ∃ l, linkMachine.Reachable l ∧ ((l .primary).state = .negotiated ∧
      (l .secondary).state = .negotiated) ∧ Agreed l :=
  Machine.exists_reachable_and bothInitiate (by decide +kernel) fun l hl hdone =>
    (negotiation_agrees l hl).2 fun
      | .primary => hdone.1
      | .secondary => hdone.2

/-- The Secondary brought 1.0 and ends with 1.1. -/
theorem secondary_exceeds_own_version :
    ∃ l, linkMachine.Reachable l ∧
      ((l .primary).state = .negotiated ∧ (l .secondary).state = .negotiated ∧
        (l .secondary).ask = some ⟨true, ⟨1, 0⟩, 15⟩ ∧
        ¬ (l .secondary).negotiatedVersion.minor ≤ (⟨1, 0⟩ : ProtocolVersion).minor) :=
  Machine.exists_reachable bothInitiate (by decide +kernel)

end Hqq.Negotiation
