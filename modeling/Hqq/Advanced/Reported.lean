import Hqq.Advanced.Refusal

/-!
# Every refusal is reported once

Over every run: with any budget, any number of refusals, and calls that give up at any time.
-/

namespace Hqq.Advanced

variable {ι : Type} {cfg : Config} {size : BufferSize} {sends : ι → Send}
  {tx : ι → Nat → Option (Slot size)}

/-! ## Results of calls -/

def Path.resultsOf (st : Path ι) (k : CallKey) : List (CallKey × Except Err Seen) :=
  st.results.filter (·.1 = k)

variable {st st' : Path ι} {k k' : CallKey} {x : Except Err Seen} {i : ι}

theorem resolve_of_not_waiting (h : st.calls k ≠ .waiting) : st.resolve k x = st := if_neg h

@[simp] theorem resolve_feed : (st.resolve k x).feed = st.feed := by
  unfold Path.resolve
  split <;> rfl

@[simp] theorem resolve_refusals : (st.resolve k x).refusals = st.refusals := by
  unfold Path.resolve
  split <;> rfl

variable (st x) in
theorem resolve_ne (h : k' ≠ k) :
    (st.resolve k x).calls k' = st.calls k' ∧ (st.resolve k x).resultsOf k' = st.resultsOf k' := by
  unfold Path.resolve Path.resultsOf
  split
  · simp [List.filter_append, h, h.symm]
  · exact ⟨rfl, rfl⟩

theorem resolve_waiting (h : st.calls k = .waiting) :
    (st.resolve k x).calls k = .done ∧
      (st.resolve k x).resultsOf k = st.resultsOf k ++ [(k, x)] := by
  unfold Path.resolve Path.resultsOf
  rw [if_pos h]
  simp [List.filter_append]

/-- Where the call for a response stands. `listed` is whether the response waits on the list of
reclaimed messages. -/
inductive CallStage (k : CallKey) (lost listed heard finished : Prop) (status : CallStatus)
    (results : List (CallKey × Except Err Seen)) : Prop
  | waiting (kept : ¬ lost) (none : results = []) (undone : status ≠ .done)
      (made : heard → status ≠ .idle)
  | pending (gone : lost) (onList : listed) (none : results = [])
      (made : status = .waiting ∨ status = .gaveUp)
  | failed (gone : lost) (unlisted : ¬ listed)
      (result : (status = .done ∧ results = [(k, .error .reassemblyLimit)]) ∨
        (status = .gaveUp ∧ results = []))
  | ended (kept : ¬ lost) (silent : finished) (clean : ∀ e ∈ results, e.2 ≠ .error .reassemblyLimit)

section CallStage

variable {lost listed heard finished : Prop} {status status' : CallStatus}
  {results : List (CallKey × Except Err Seen)}

theorem CallStage.caller (h : CallStage k lost listed heard finished status results)
    (hstep : (status = .idle ∧ status' = .waiting) ∨ (status = .waiting ∧ status' = .gaveUp)) :
    CallStage k lost listed heard finished status' results := by
  rcases hstep with ⟨rfl, rfl⟩ | ⟨rfl, rfl⟩
  · cases h with
    | waiting kept none undone made => exact .waiting kept none (by simp) (by simp)
    | pending gone onList none made => simp at made
    | failed gone unlisted result => simp at result
    | ended kept silent clean => exact .ended kept silent clean
  · cases h with
    | waiting kept none undone made => exact .waiting kept none (by simp) (by simp)
    | pending gone onList none made => exact .pending gone onList none (.inr rfl)
    | failed gone unlisted result => simp at result
    | ended kept silent clean => exact .ended kept silent clean

theorem CallStage.limit (hunlisted : ¬ listed) (hlost : lost) (hstatus : st.calls k = status)
    (hresults : st.resultsOf k = [])
    (hmade : status = .waiting ∨ status = .gaveUp) :
    CallStage k lost listed heard finished
      ((st.resolve k (.error .reassemblyLimit)).calls k)
      ((st.resolve k (.error .reassemblyLimit)).resultsOf k) := by
  refine .failed hlost hunlisted ?_
  rcases hmade with rfl | rfl
  · obtain ⟨hc, hr⟩ := resolve_waiting (x := .error .reassemblyLimit) hstatus
    exact .inl ⟨hc, by rw [hr, hresults, List.nil_append]⟩
  · rw [resolve_of_not_waiting (by simp [hstatus])]
    exact .inr ⟨hstatus, hresults⟩

section Own

variable {listed' heard' finished' : Prop} (h : CallStage k lost False heard finished status results)
  (hover : ¬ finished) (hmade : status ≠ .idle) (hlisted : ¬ listed')
include h hover hmade hlisted

theorem CallStage.quiet : CallStage k lost listed' heard' finished' status results := by
  cases h with
  | waiting kept none undone made => exact .waiting kept none undone fun _ => hmade
  | pending gone onList none made => exact onList.elim
  | failed gone unlisted result => exact .failed gone hlisted result
  | ended kept silent clean => exact absurd silent hover

theorem CallStage.news (hstatus : st.calls k = status) (hresults : st.resultsOf k = results)
    (hx : x ≠ .error .reassemblyLimit) (hover' : ¬ lost → finished') :
    CallStage k lost listed' heard' finished' ((st.resolve k x).calls k)
      ((st.resolve k x).resultsOf k) := by
  cases h with
  | waiting kept none undone made =>
    refine .ended kept (hover' kept) fun e he => ?_
    by_cases hw : st.calls k = .waiting
    · rw [(resolve_waiting hw).2, hresults, none, List.nil_append, List.mem_singleton] at he
      rw [he]
      exact hx
    · rw [resolve_of_not_waiting hw, hresults, none] at he
      cases he
  | pending gone onList none made => exact onList.elim
  | failed gone unlisted result =>
    have hw : st.calls k ≠ .waiting := by
      rw [hstatus]
      rcases result with ⟨rfl, -⟩ | ⟨rfl, -⟩ <;> simp
    rw [resolve_of_not_waiting hw, hstatus, hresults]
    exact .failed gone hlisted result
  | ended kept silent clean => exact absurd silent hover

variable (st) in
theorem CallStage.refused (hstatus : st.calls k = status) (hresults : st.resultsOf k = results)
    (hkept : ¬ lost) {lost' : Prop} (hlost : lost') :
    CallStage k lost' listed' heard' finished' ((st.resolve k (.error .reassemblyLimit)).calls k)
      ((st.resolve k (.error .reassemblyLimit)).resultsOf k) := by
  cases h with
  | waiting kept none undone made =>
    refine .limit hlisted hlost hstatus (hresults.trans none) ?_
    cases status <;> simp_all
  | pending gone onList none made => exact onList.elim
  | failed gone unlisted result => exact absurd gone hkept
  | ended kept silent clean => exact absurd silent hover

end Own

end CallStage

theorem callKey_ne (hkeys : Function.Injective fun i => (sends i).key) {j : ι} (hij : i ≠ j)
    (hi : (sends i).key.kind = advFlagResponse) (hj : (sends j).key.kind = advFlagResponse) :
    (sends i).callKey ≠ (sends j).callKey := by
  intro he
  have h1 : (sends i).connectionID = (sends j).connectionID := congrArg CallKey.streamID he
  have h2 : (sends i).messageID = (sends j).messageID := congrArg CallKey.messageID he
  refine hij (hkeys ?_)
  calc (sends i).key = ⟨(sends i).connectionID, (sends i).messageID, (sends i).key.kind⟩ := rfl
    _ = ⟨(sends j).connectionID, (sends j).messageID, (sends j).key.kind⟩ := by rw [h1, h2, hi, hj]
    _ = (sends j).key := rfl

variable [DecidableEq ι]

variable (cfg sends) in
def Path.CallOk (st : Path ι) (i : ι) : Prop :=
  CallStage (sends i).callKey (i ∈ st.feed.lost) ((sends i).report cfg ∈ st.feed.rx.reclaimed)
    (st.feed.seen i ≠ [])
    (st.feed.queue i = [] ∧ st.feed.rx.assemblies.lookup (sends i).key = none)
    (st.calls (sends i).callKey) (st.resultsOf (sends i).callKey)

variable (cfg sends tx) in
/-- `busy` is the message whose result is being routed. -/
structure PathInv (busy : ι → Prop) (st : Path ι) : Prop where
  tracks : Tracks cfg sends tx st.feed
  fine : ∀ e ∈ st.feed.log, ∃ o, e.2 = .ok o
  nodup : st.feed.rx.reclaimed.Nodup
  listed : ∀ x ∈ st.feed.rx.reclaimed,
    ∃ i ∈ st.feed.lost, (sends i).Awaited ∧ x = (sends i).report cfg
  calls : ∀ i, ¬ busy i → (sends i).key.kind = advFlagResponse → st.CallOk cfg sends i
  once : st.refusals.Nodup
  refused : ∀ x ∈ st.refusals, x ∉ st.feed.rx.reclaimed ∧
    ∃ i ∈ st.feed.lost, (sends i).key.kind = advFlagRequest ∧ x = (sends i).report cfg
  asIf : ∀ L : Finset ι, st.feed.lost ⊆ L → ∀ sch : List (ι × Env),
    sch.map Prod.fst = (st.feed.log.map Prod.fst).filter (· ∉ L) →
    ∃ t, (feedMachine cfg sends tx).runFrom (feedMachine cfg sends tx).init sch = some t ∧
      AsIf cfg sends tx L st.feed t

def Nobody (_ : ι) : Prop := False

theorem PathInv.init : PathInv cfg sends tx Nobody (pathMachine cfg sends tx).init where
  tracks := Tracks.init
  fine e he := by simp [pathMachine, feedMachine] at he
  nodup := .nil
  listed x hx := by simp [pathMachine, feedMachine, Rx.fresh] at hx
  calls i _ hi := .waiting (by simp [pathMachine, feedMachine]) rfl (by simp [pathMachine])
    fun h => absurd rfl h
  once := .nil
  refused x hx := by simp [pathMachine] at hx
  asIf L hL sch hsch := by
    have : sch = [] := by simpa [pathMachine, feedMachine] using hsch
    subst this
    exact ⟨_, rfl, Tracks.init, rfl, fun _ _ => rfl, fun _ _ => rfl, rfl⟩

theorem PathInv.caller (h : PathInv cfg sends tx Nobody st) {status : CallStatus}
    (hstep : (st.calls k = .idle ∧ status = .waiting) ∨ (st.calls k = .waiting ∧ status = .gaveUp)) :
    PathInv cfg sends tx Nobody { st with calls := Function.update st.calls k status } := by
  refine ⟨h.tracks, h.fine, h.nodup, h.listed, fun i hb hi => ?_, h.once, h.refused, h.asIf⟩
  have hcall := h.calls i hb hi
  unfold Path.CallOk at hcall ⊢
  dsimp only
  by_cases hk : (sends i).callKey = k
  · rw [hk, Function.update_self]
    rw [hk] at hcall
    exact hcall.caller hstep
  · rw [Function.update_of_ne hk]
    exact hcall

/-! ## Routing a result -/

section Route

variable (h : PathInv cfg sends tx (· = i) st)
include h

theorem PathInv.resolve (hkeys : Function.Injective fun i => (sends i).key)
    (hi : (sends i).key.kind = advFlagResponse)
    (hcall : (st.resolve (sends i).callKey x).CallOk cfg sends i) :
    PathInv cfg sends tx Nobody (st.resolve (sends i).callKey x) := by
  constructor
  · rw [resolve_feed]
    exact h.tracks
  · rw [resolve_feed]
    exact h.fine
  · rw [resolve_feed]
    exact h.nodup
  · rw [resolve_feed]
    exact h.listed
  · intro j _ hj
    by_cases hji : j = i
    · exact hji ▸ hcall
    · have hold := h.calls j hji hj
      have hne := resolve_ne st x (callKey_ne hkeys hji hj hi)
      unfold Path.CallOk at hold ⊢
      rw [resolve_feed, hne.1, hne.2]
      exact hold
  · rw [resolve_refusals]
    exact h.once
  · rw [resolve_refusals, resolve_feed]
    exact h.refused
  · rw [resolve_feed]
    exact h.asIf

theorem PathInv.same (hcall : (sends i).key.kind = advFlagResponse → st.CallOk cfg sends i) :
    PathInv cfg sends tx Nobody st := by
  refine ⟨h.tracks, h.fine, h.nodup, h.listed, fun j _ hj => ?_, h.once, h.refused, h.asIf⟩
  by_cases hji : j = i
  · subst hji
    exact hcall hj
  · exact h.calls j hji hj

theorem PathInv.refuse (hi : (sends i).key.kind = advFlagRequest) (hlost : i ∈ st.feed.lost)
    (hnew : (sends i).report cfg ∉ st.refusals)
    (hunlisted : (sends i).report cfg ∉ st.feed.rx.reclaimed) (room : Bool) :
    PathInv cfg sends tx Nobody (st.refuseRequest ((sends i).report cfg) room) := by
  have hsame : PathInv cfg sends tx Nobody st := h.same fun hresp => by
    rw [hi] at hresp
    exact absurd hresp (by decide)
  unfold Path.refuseRequest
  split
  · refine ⟨h.tracks, h.fine, h.nodup, h.listed, hsame.calls, ?_, ?_, h.asIf⟩
    · exact h.once.append (List.nodup_singleton _) (List.disjoint_singleton.mpr hnew)
    · intro y hy
      rcases List.mem_append.mp hy with hold | hlast
      · exact h.refused y hold
      · obtain rfl := List.mem_singleton.mp hlast
        exact ⟨hunlisted, i, hlost, hi, rfl⟩
  · exact hsame

end Route

/-! ## A report -/

theorem Tracks.withReclaimed {feed : Feed ι} (h : Tracks cfg sends tx feed) (xs : List Header) :
    Tracks cfg sends tx { feed with rx := { feed.rx with reclaimed := xs } } where
  inv := ⟨h.inv.bytes, h.inv.bounded, h.inv.sound, h.inv.rejected, h.inv.nodup, h.inv.few,
    h.inv.apart⟩
  stage i := (h.stage i).keeps ⟨rfl, id, id⟩
  owned := h.owned

theorem PathInv.unlist (hkeys : Function.Injective fun i => (sends i).key)
    (h : PathInv cfg sends tx Nobody st) {xs : List Header}
    (hxs : st.feed.rx.reclaimed = xs ++ [(sends i).report cfg]) :
    PathInv cfg sends tx (· = i)
      { st with feed := { st.feed with rx := { st.feed.rx with reclaimed := xs } } } := by
  have hsub : ∀ y ∈ xs, y ∈ st.feed.rx.reclaimed := fun y hy => by
    rw [hxs]
    exact List.mem_append_left _ hy
  refine ⟨h.tracks.withReclaimed xs, h.fine, ?_, fun y hy => h.listed y (hsub y hy), ?_, h.once,
    fun y hy => ⟨fun hin => (h.refused y hy).1 (hsub y hin), (h.refused y hy).2⟩, ?_⟩
  · have hnodup := h.nodup
    rw [hxs] at hnodup
    exact hnodup.of_append_left
  · intro j hji hj
    have hcall := h.calls j id hj
    have hlisted : (sends j).report cfg ∈ st.feed.rx.reclaimed ↔ (sends j).report cfg ∈ xs := by
      have hne : (sends j).report cfg ≠ (sends i).report cfg := fun he => hji (hkeys (report_inj he))
      rw [hxs, List.mem_append, List.mem_singleton]
      exact ⟨fun hor => hor.resolve_right hne, .inl⟩
    unfold Path.CallOk at hcall ⊢
    rw [propext hlisted] at hcall
    exact hcall
  · intro L hL sch hsch
    obtain ⟨t, ht, hasif⟩ := h.asIf L hL sch hsch
    exact ⟨t, ht, hasif.tracks, hasif.none, hasif.same, hasif.unsent, hasif.log⟩

theorem PathInv.of_report (hkeys : Function.Injective fun i => (sends i).key)
    (h : PathInv cfg sends tx Nobody st) {room : Bool}
    (hstep : pathStep cfg sends st (.report room) = some st') :
    PathInv cfg sends tx Nobody st' := by
  simp only [pathStep, Option.map_eq_some_iff] at hstep
  obtain ⟨x, hx, rfl⟩ := hstep
  obtain ⟨xs, hxs⟩ := List.getLast?_eq_some_iff.mp hx
  obtain ⟨i, hi, haw, rfl⟩ := h.listed x (by rw [hxs]; simp)
  have hmem : (sends i).report cfg ∈ st.feed.rx.reclaimed := by rw [hxs]; simp
  have hout : (sends i).report cfg ∉ xs := fun hin => by
    have hnodup := h.nodup
    rw [hxs, List.nodup_append] at hnodup
    exact hnodup.2.2 _ hin _ (List.mem_singleton_self _) rfl
  have hbase := h.unlist hkeys hxs
  rw [show st.feed.rx.reclaimed.dropLast = xs by rw [hxs, List.dropLast_concat]]
  unfold Path.reportReclaimed
  split
  · rename_i hresp
    rw [report_isResponse] at hresp
    refine hbase.resolve hkeys hresp ?_
    have hcall := h.calls i id hresp
    unfold Path.CallOk at hcall ⊢
    rw [resolve_feed]
    cases hcall with
    | waiting kept none undone made => exact absurd hi kept
    | pending gone onList none made => exact .limit hout hi rfl none made
    | failed gone unlisted result => exact absurd hmem unlisted
    | ended kept silent clean => exact absurd hi kept
  · rename_i hresp
    rw [report_isResponse] at hresp
    exact hbase.refuse (haw.resolve_right hresp) hi (fun hin => (h.refused _ hin).1 hmem) hout room

theorem seen_ne_nil {feed : Feed ι} (h : i ∈ feed.started) : feed.seen i ≠ [] := by
  rw [Feed.started, List.mem_toFinset, List.mem_map] at h
  obtain ⟨e, he, rfl⟩ := h
  intro hnil
  rw [Feed.seen, List.map_eq_nil_iff, List.filter_eq_nil_iff] at hnil
  exact hnil e he (by simp)

theorem Stage.ended_of_news {p : Send} {sent : Sent} {rx : Rx} {queue : List Frame} {lost : Prop}
    {seen : List (Except Err Seen)} {o : Seen}
    (h : Stage cfg size p sent rx queue lost (seen ++ [.ok o])) (hkept : ¬ lost)
    (hnews : o ≠ .nothing) : queue = [] ∧ rx.assemblies.lookup p.key = none := by
  cases h with
  | fresh rest absent all none kept => simp at none
  | live offset a lo hi rest fewer look holds none kept =>
    have hmem : Except.ok o ∈ List.replicate (sent.frames.length - queue.length)
        (Except.ok (ε := Err) Seen.nothing) := none ▸ List.mem_append_right _ (List.mem_singleton_self _)
    exact absurd (Except.ok.inj (List.eq_of_mem_replicate hmem)) hnews
  | dropped offset lo hi rest look drained quiet gone => exact absurd gone hkept
  | ended empty closed absent good quiet => exact ⟨empty, absent.1⟩

variable (st) in
omit [DecidableEq ι] in
theorem route_response {p : Send} (hp : p.key.kind = advFlagResponse) {o : Outcome} {lost : Prop}
    (hcame : Result.From cfg p lost (.ok o)) (room : Bool) :
    (st.route room o = st ∧ o = .chunkPartial) ∨
    ∃ x, st.route room o = st.resolve p.callKey x ∧ o.seen ≠ .nothing ∧
      (Result.isRefused (.ok o) = true → x = .error .reassemblyLimit) ∧
      (Result.isRefused (.ok o) = false → x ≠ .error .reassemblyLimit) := by
  cases o with
  | chunkPartial => exact .inl ⟨rfl, rfl⟩
  | chunkComplete m =>
    have hheader : m.header = p.header cfg (advFlagBegin ||| advFlagEnd) := by
      have hseen := hcame.2
      simp only [Outcome.seen, Send.delivered, Seen.message.injEq] at hseen
      exact hseen.1
    have hresp : m.header.isResponse := by
      rw [hheader]
      exact (kindFlags cfg p).2.2.2.1.mpr hp
    refine .inr ⟨.ok (Outcome.chunkComplete m).seen, ?_, by simp [Outcome.seen],
      by simp [Result.isRefused], by simp⟩
    simp only [Path.route, if_pos hresp, Path.routeResponse]
    rw [hheader]
    rfl
  | chunkAborted header =>
    obtain rfl : header = p.abortHeader cfg := hcame
    have hresp : (p.abortHeader cfg).isResponse := (kindFlags cfg p).2.1.2.1.mpr hp
    refine .inr ⟨.error .messageAborted, ?_, by simp [Outcome.seen], by simp [Result.isRefused],
      by simp⟩
    simp only [Path.route, if_pos hresp, Path.routeResponse]
    rfl
  | chunkRefused header =>
    obtain rfl : header = p.report cfg := hcame.2
    have hresp : (p.report cfg).isResponse := (report_isResponse p).mpr hp
    refine .inr ⟨.error .reassemblyLimit, ?_, by simp [Outcome.seen], by simp, by simp [Result.isRefused]⟩
    simp only [Path.route, if_pos hresp, Path.routeResponse]
    rfl

omit [DecidableEq ι] in
theorem route_other {p : Send} (hp : p.key.kind ≠ advFlagResponse) {o : Outcome} {lost : Prop}
    (hcame : Result.From cfg p lost (.ok o)) (room : Bool) :
    st.route room o =
      if p.key.kind = advFlagRequest ∧ Result.isRefused (.ok o) = true then
        st.refuseRequest (p.report cfg) room
      else st := by
  cases o with
  | chunkPartial => simp [Path.route, Result.isRefused]
  | chunkComplete m =>
    have hheader : m.header = p.header cfg (advFlagBegin ||| advFlagEnd) := by
      have hseen := hcame.2
      simp only [Outcome.seen, Send.delivered, Seen.message.injEq] at hseen
      exact hseen.1
    have hresp : ¬ m.header.isResponse := by
      rw [hheader]
      exact fun h => hp ((kindFlags cfg p).2.2.2.1.mp h)
    simp [Path.route, Result.isRefused, hresp]
  | chunkAborted header =>
    obtain rfl : header = p.abortHeader cfg := hcame
    have hresp : ¬ (p.abortHeader cfg).isResponse := fun h => hp ((kindFlags cfg p).2.1.2.1.mp h)
    simp [Path.route, Result.isRefused, hresp]
  | chunkRefused header =>
    obtain rfl : header = p.report cfg := hcame.2
    have hresp : ¬ (p.report cfg).isResponse := fun h => hp ((report_isResponse p).mp h)
    simp only [Path.route, if_neg hresp, Result.isRefused, and_true]
    exact if_congr (report_isRequest p) rfl rfl

section Frame

variable (hkeys : Function.Injective fun i => (sends i).key)
  (h : PathInv cfg sends tx Nobody st) (hempty : st.feed.rx.reclaimed = [])
  {f : Frame} {rest : List Frame} {r : Rx × Result} {ks : List Key} {env : Env}
  (hqueue : st.feed.queue i = f :: rest)
  (hf : FrameStep cfg env size (sends i) (sentBy cfg sends tx i) st.feed.rx f rest
    (i ∈ st.feed.lost) (st.feed.seen i) r.1 r.2 ks)
include hkeys h hempty hf

omit hkeys in
theorem PathInv.listed_after {j : ι} (hj : (sends j).Awaited) :
    (sends j).report cfg ∈ r.1.reclaimed ↔ (sends j).key ∈ ks := by
  rw [h.tracks.mem_reclaimed_after hf hempty]
  constructor
  · rintro ⟨j', hin, -, he⟩
    exact report_inj he ▸ hin
  · exact fun hin => ⟨j, hin, hj, rfl⟩

theorem PathInv.call_other {j : ι} (hji : j ≠ i) (hj : (sends j).key.kind = advFlagResponse) :
    { st with feed := st.feed.after sends i rest r }.CallOk cfg sends j := by
  have hkey : (sends j).key ≠ (sends i).key := fun he => hji (hkeys he)
  have hcall := h.calls j id hj
  unfold Path.CallOk at hcall ⊢
  rw [hempty, eq_false (List.not_mem_nil)] at hcall
  rw [h.tracks.lost_other hkeys hf hji, seen_after_ne hji, queue_after_ne hji,
    show (st.feed.after sends i rest r).rx = r.1 from rfl,
    propext (h.listed_after hempty hf (.inr hj))]
  by_cases hin : (sends j).key ∈ ks
  · have hlive := (hf.moves.gone _ hin).live
    obtain ⟨hstarted, hkept, -⟩ := h.tracks.live hlive
    cases hcall with
    | waiting kept none undone made =>
      refine .pending (.inr hin) hin none ?_
      have hidle := made (seen_ne_nil hstarted)
      change st.calls _ = _ ∨ st.calls _ = _
      cases hs : st.calls (sends j).callKey <;> simp_all
    | pending gone onList none made => exact onList.elim
    | failed gone unlisted result => exact absurd gone hkept
    | ended kept silent clean => simp [silent.2] at hlive
  · rw [(hf.moves.kept _ hkey hin).lookup, eq_false hin, or_false]
    exact hcall

include hqueue in
theorem PathInv.frame_base : PathInv cfg sends tx (· = i)
    { st with feed := st.feed.after sends i rest r } where
  tracks := h.tracks.after hkeys hf
  fine e he := by
    rcases List.mem_append.mp he with hold | hnew
    · exact h.fine e hold
    · rw [List.mem_singleton.mp hnew]
      have hcame := hf.came
      generalize r.2 = result at hcame
      cases result with
      | error e => exact hcame.elim
      | ok o => exact ⟨o, rfl⟩
  nodup := h.tracks.nodup_reclaimed_after hf hempty
  listed x hx := by
    obtain ⟨j, hin, haw, rfl⟩ := (h.tracks.mem_reclaimed_after hf hempty).mp hx
    have hji : j ≠ i := fun he => hf.moves.other (he ▸ hin)
    exact ⟨j, (h.tracks.lost_other hkeys hf hji).mpr (.inr hin), haw, rfl⟩
  calls j hji hj := h.call_other hkeys hempty hf hji hj
  once := h.once
  refused x hx := by
    obtain ⟨-, j, hj, hreq, rfl⟩ := h.refused x hx
    refine ⟨fun hin => ?_, j, mem_lost_after.mpr (.inl hj), hreq, rfl⟩
    have hin := (h.listed_after hempty hf (.inl hreq)).mp hin
    exact (h.tracks.live (hf.moves.gone _ hin).live).2.1 hj
  asIf L hL sch hsch := by
    have hold : st.feed.lost ⊆ L := fun j hj => hL (mem_lost_after.mpr (.inl hj))
    simp only [Feed.after, List.map_append, List.map_cons, List.map_nil, List.filter_append] at hsch
    by_cases hi : i ∈ L
    · rw [List.filter_cons_of_neg (by simpa using hi), List.filter_nil, List.append_nil] at hsch
      obtain ⟨t, ht, hasif⟩ := h.asIf L hold sch hsch
      exact ⟨t, ht, hasif.skip hi⟩
    · rw [List.filter_cons_of_pos (by simpa using hi), List.filter_nil] at hsch
      obtain ⟨sch0, last, rfl, hsch0, hlast⟩ := List.map_eq_append_iff.mp hsch
      obtain ⟨act, rfl, hact⟩ := List.map_eq_singleton_iff.mp hlast
      obtain ⟨t, ht, hasif⟩ := h.asIf L hold sch0 hsch0
      obtain ⟨t', ht', hasif'⟩ := hasif.frame act.2 hkeys h.tracks hqueue hf hL hi
      refine ⟨t', ?_, hasif'⟩
      rw [Machine.runFrom_append, ht, Option.bind_some, Machine.runFrom_cons]
      rw [show act = (i, act.2) from Prod.ext hact rfl,
        show (feedMachine cfg sends tx).step t (i, act.2) = some t' from ht', Option.bind_some,
        Machine.runFrom_nil]

include hqueue in
theorem PathInv.routed (hmade : (sends i).key.kind = advFlagResponse →
      st.calls (sends i).callKey ≠ .idle) {o : Outcome} (ho : r.2 = .ok o) (room : Bool) :
    PathInv cfg sends tx Nobody ({ st with feed := st.feed.after sends i rest r }.route room o) := by
  have hbase := h.frame_base hkeys hempty hqueue hf
  have hcame := hf.came
  rw [ho] at hcame
  have hlost : i ∈ (st.feed.after sends i rest r).lost ↔
      i ∈ st.feed.lost ∨ Result.isRefused (.ok o) = true := ho ▸ lost_after_self
  have hkept : Result.isRefused (.ok o) = true → i ∉ st.feed.lost := by
    intro href
    cases o with
    | chunkRefused header => exact hcame.1
    | _ => cases href
  by_cases hi : (sends i).key.kind = advFlagResponse
  · have hunlisted : (sends i).report cfg ∉ r.1.reclaimed := fun hin =>
      hf.moves.other ((h.listed_after hempty hf (.inr hi)).mp hin)
    have hcall := h.calls i id hi
    unfold Path.CallOk at hcall
    rw [hempty, eq_false (List.not_mem_nil)] at hcall
    have hover : ¬ (st.feed.queue i = [] ∧
        st.feed.rx.assemblies.lookup (sends i).key = none) := by simp [hqueue]
    rcases route_response { st with feed := st.feed.after sends i rest r } hi hcame room with
      ⟨hroute, rfl⟩ | ⟨x, hroute, hnews, hlimit, hother⟩
    · rw [hroute]
      refine hbase.same fun _ => ?_
      unfold Path.CallOk
      rw [propext hlost]
      simp only [Result.isRefused, Bool.false_eq_true, or_false]
      exact hcall.quiet hover (hmade hi) hunlisted
    · rw [hroute]
      refine hbase.resolve hkeys hi ?_
      unfold Path.CallOk
      rw [resolve_feed, propext hlost]
      cases href : Result.isRefused (.ok o) with
      | true =>
        rw [hlimit href]
        exact hcall.refused { st with feed := st.feed.after sends i rest r } hover (hmade hi)
          hunlisted rfl rfl (hkept href) (.inr rfl)
      | false =>
        simp only [Bool.false_eq_true, or_false]
        refine hcall.news hover (hmade hi) hunlisted rfl rfl (hother href) fun hk => ?_
        have hstage := hbase.tracks.stage i
        rw [seen_after_self, ho] at hstage
        refine hstage.ended_of_news ?_ hnews
        rw [hlost, href]
        simpa using hk
  · rw [route_other hi hcame room]
    split
    · rename_i hreq
      refine hbase.refuse hreq.1 (hlost.mpr (.inr hreq.2)) (fun hin => ?_) (fun hin => ?_) room
      · obtain ⟨-, j, hj, -, he⟩ := h.refused _ hin
        exact hkept hreq.2 (hkeys (report_inj he) ▸ hj)
      · exact hf.moves.other ((h.listed_after hempty hf (.inl hreq.1)).mp hin)
    · exact hbase.same fun hresp => absurd hresp hi

end Frame

theorem PathInv.of_frame (hkeys : Function.Injective fun i => (sends i).key)
    (h : PathInv cfg sends tx Nobody st) {env : Env} {room : Bool}
    (hstep : pathStep cfg sends st (.frame i env room) = some st') :
    PathInv cfg sends tx Nobody st' := by
  simp only [pathStep] at hstep
  split at hstep
  · cases hstep
  rename_i hguard
  rw [not_or, not_not, not_and] at hguard
  split at hstep
  · cases hstep
  rename_i f rest hqueue
  have hstage := h.tracks.stage i
  rw [hqueue] at hstage
  obtain ⟨rx', r, ks, hf⟩ := hstage.frame env h.tracks.inv
  rw [hf.consumed, Option.map_some, Option.some.injEq] at hstep
  have hcame := hf.came
  cases r with
  | error e => exact hcame.elim
  | ok o =>
    subst hstep
    exact h.routed (r := (rx', .ok o)) hkeys hguard.1 hqueue hf hguard.2 rfl room

theorem PathInv.of_step (hkeys : Function.Injective fun i => (sends i).key)
    (h : PathInv cfg sends tx Nobody st) {act : PathAct ι}
    (hstep : pathStep cfg sends st act = some st') : PathInv cfg sends tx Nobody st' := by
  cases act with
  | frame i env room => exact h.of_frame hkeys hstep
  | report room => exact h.of_report hkeys hstep
  | register k =>
    simp only [pathStep] at hstep
    split at hstep
    · rename_i hidle
      exact Option.some.inj hstep ▸ h.caller (.inl ⟨hidle, rfl⟩)
    · cases hstep
  | giveUp k =>
    simp only [pathStep] at hstep
    split at hstep
    · rename_i hwait
      exact Option.some.inj hstep ▸ h.caller (.inr ⟨hwait, rfl⟩)
    · cases hstep

variable (cfg sends tx) in
/-- What the receive path owes. A frame is only taken once all reclaimed messages are reported. -/
structure RefusedCleanly (st : Path ι) : Prop where
  noError : ∀ e ∈ st.feed.log, ∃ o, e.2 = .ok o
  undelivered : ∀ i ∈ st.feed.lost, ∀ r ∈ st.feed.seen i, Quiet r
  reportsFirst : ∀ i env room st', pathStep cfg sends st (.frame i env room) = some st' →
    st.feed.rx.reclaimed = []
  reports : ∀ room, st.feed.rx.reclaimed ≠ [] →
    ∃ st', pathStep cfg sends st (.report room) = some st'
  callFails : ∀ i ∈ st.feed.lost, (sends i).key.kind = advFlagResponse →
    (sends i).report cfg ∉ st.feed.rx.reclaimed →
    (st.calls (sends i).callKey = .done ∧
      st.resultsOf (sends i).callKey = [((sends i).callKey, .error .reassemblyLimit)]) ∨
    (st.calls (sends i).callKey = .gaveUp ∧ st.resultsOf (sends i).callKey = [])
  onlyTheirs : ∀ i, i ∉ st.feed.lost → (sends i).key.kind = advFlagResponse →
    ∀ e ∈ st.resultsOf (sends i).callKey, e.2 ≠ .error .reassemblyLimit
  answeredOnce : st.refusals.Nodup
  answered : ∀ x ∈ st.refusals,
    ∃ i ∈ st.feed.lost, (sends i).key.kind = advFlagRequest ∧ x = (sends i).report cfg
  asIfUnsent : ∀ sch : List (ι × Env),
    sch.map Prod.fst = (st.feed.log.map Prod.fst).filter (· ∉ st.feed.lost) →
    ∃ t, (feedMachine cfg sends tx).runFrom (feedMachine cfg sends tx).init sch = some t ∧
      t.log.map (fun e => (e.1, e.2.seen)) =
        (st.feed.log.filter (·.1 ∉ st.feed.lost)).map fun e => (e.1, e.2.seen)

theorem Tracks.quiet {feed : Feed ι} (h : Tracks cfg sends tx feed) (hi : i ∈ feed.lost) :
    ∀ r ∈ feed.seen i, Quiet r := by
  cases h.stage i with
  | fresh rest absent all none kept => exact absurd hi kept
  | live offset a lo hi rest fewer look holds none kept => exact absurd ‹i ∈ _› kept
  | dropped offset lo hi rest look drained quiet gone => exact quiet
  | ended empty closed absent good quiet => exact quiet hi

theorem CallStage.clean {lost listed heard finished : Prop} {status : CallStatus}
    {results : List (CallKey × Except Err Seen)}
    (h : CallStage k lost listed heard finished status results) (hkept : ¬ lost) :
    ∀ e ∈ results, e.2 ≠ .error .reassemblyLimit := by
  cases h with
  | waiting kept none undone made => simp [none]
  | pending gone onList none made => exact absurd gone hkept
  | failed gone unlisted result => exact absurd gone hkept
  | ended kept silent clean => exact clean

theorem CallStage.result {lost listed heard finished : Prop} {status : CallStatus}
    {results : List (CallKey × Except Err Seen)}
    (h : CallStage k lost listed heard finished status results) (hlost : lost) (hlisted : ¬ listed) :
    (status = .done ∧ results = [(k, .error .reassemblyLimit)]) ∨
      (status = .gaveUp ∧ results = []) := by
  cases h with
  | waiting kept none undone made => exact absurd hlost kept
  | pending gone onList none made => exact absurd onList hlisted
  | failed gone unlisted result => exact result
  | ended kept silent clean => exact absurd hlost kept

theorem PathInv.refusedCleanly (h : PathInv cfg sends tx Nobody st) :
    RefusedCleanly cfg sends tx st where
  noError := h.fine
  undelivered i hi := h.tracks.quiet hi
  reportsFirst i env room st' hstep := by
    by_contra hne
    simp only [pathStep] at hstep
    rw [if_pos (.inl hne)] at hstep
    cases hstep
  reports room hne := by
    rw [← Option.isSome_iff_exists, pathStep, Option.isSome_map]
    exact List.getLast?_isSome.mpr hne
  callFails i hi hresp hout := (h.calls i id hresp).result hi hout
  onlyTheirs i hi hresp := (h.calls i id hresp).clean hi
  answeredOnce := h.once
  answered x hx := (h.refused x hx).2
  asIfUnsent sch hsch := by
    obtain ⟨t, ht, hasif⟩ := h.asIf _ (Finset.Subset.refl _) sch hsch
    exact ⟨t, ht, hasif.log⟩

/-- Whatever the budget refuses or takes back, nobody else notices, and whoever waits for it
is told once. -/
theorem refused_cleanly (cfg : Config) (size : BufferSize) (sends : ι → Send)
    (tx : ι → Nat → Option (Slot size)) (hkeys : Function.Injective fun i => (sends i).key)
    (st : Path ι) (h : (pathMachine cfg sends tx).Reachable st) : RefusedCleanly cfg sends tx st := by
  suffices hinv : PathInv cfg sends tx Nobody st from hinv.refusedCleanly
  exact h.invariant PathInv.init fun s act s' _ hs _ hstep => hs.of_step hkeys hstep

def twoResponses (first : Bool) : Send :=
  if first then { twoSends true with kind := .response false }
  else { twoSends true with
    messageID := 2
    kind := .response false
    payload := ⟨List.replicate 12 6, (twoSends true).payload.2⟩ }

theorem refused_cleanly_second :
    ∃ st, (pathMachine (newAdvancedLink ⟨0, 300, false⟩) twoResponses emptySlots).Reachable st ∧
      (st.calls ⟨0, 1⟩ = .done ∧ false ∈ st.feed.lost ∧ true ∉ st.feed.lost ∧
        st.feed.log.length = 4) ∧
      RefusedCleanly (newAdvancedLink ⟨0, 300, false⟩) twoResponses emptySlots st := by
  have hkeys : Function.Injective fun i => (twoResponses i).key := by
    intro i j
    revert i j
    decide
  exact Machine.exists_reachable_and [.register ⟨0, 1⟩, .register ⟨0, 2⟩, .frame true plainEnv true,
    .frame false plainEnv true, .frame true plainEnv true, .frame false plainEnv true]
    (by decide +kernel) fun st hst _ => refused_cleanly _ _ _ _ hkeys st hst

end Hqq.Advanced
