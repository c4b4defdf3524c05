import Hqq.Advanced.Reassembly
import Mathlib.Data.Fintype.Defs
import Mathlib.Data.Finset.Filter

/-!
# Many messages at the receiver

Every message is in one of four stages: not started, on its way, given up by the
receiver, or over.
-/

namespace Hqq.Advanced

variable {cfg : Config} {env : Env} {size : BufferSize} {s s' : Rx} {f : Frame} {p : Send}
  {a : Assembly} {k key : Key}

/-! ## What a frame does to the other messages -/

structure Rx.Keeps (s s' : Rx) (k : Key) : Prop where
  lookup : s'.assemblies.lookup k = s.assemblies.lookup k
  rejected : s'.isRejected k → s.isRejected k
  drained : s.isRejected k ∨ s.rejectedEvicted = true → s'.isRejected k ∨ s'.rejectedEvicted = true

structure Rx.Reclaims (s s' : Rx) (k : Key) : Prop where
  live : (s.assemblies.lookup k).isSome
  gone : s'.assemblies.lookup k = none
  drained : s'.isRejected k ∨ s'.rejectedEvicted = true

def Rx.reportOf (s : Rx) (k : Key) : List Header :=
  match s.assemblies.lookup k with
  | some a =>
    if Has a.header.abort.flags advFlagRequest ∨ Has a.header.abort.flags advFlagResponse then
      [a.header.abort]
    else []
  | none => []

structure Rx.Moves (s s' : Rx) (key : Key) (ks : List Key) : Prop where
  nodup : ks.Nodup
  other : key ∉ ks
  gone : ∀ k ∈ ks, s.Reclaims s' k
  kept : ∀ k, k ≠ key → k ∉ ks → s.Keeps s' k
  reports : s'.reclaimed = s.reclaimed ++ ks.flatMap s.reportOf

theorem Rx.Keeps.refl (s : Rx) (k : Key) : s.Keeps s k := ⟨rfl, id, id⟩

theorem Rx.Keeps.trans {s'' : Rx} (h : s.Keeps s' k) (h' : s'.Keeps s'' k) : s.Keeps s'' k :=
  ⟨h'.lookup.trans h.lookup, h.rejected ∘ h'.rejected, h'.drained ∘ h.drained⟩

theorem Rx.Reclaims.keeps {s'' : Rx} (h : s.Reclaims s' k) (h' : s'.Keeps s'' k) :
    s.Reclaims s'' k :=
  ⟨h.live, h'.lookup.trans h.gone, h'.drained h.drained⟩

theorem Rx.Moves.of_keeps (h : ∀ k, k ≠ key → s.Keeps s' k) (hr : s'.reclaimed = s.reclaimed) :
    s.Moves s' key [] :=
  ⟨.nil, List.not_mem_nil, fun _ hk => absurd hk List.not_mem_nil, fun k hk _ => h k hk, by simpa using hr⟩

theorem Rx.Moves.keeps {s'' : Rx} {ks : List Key} (h : s.Moves s' key ks)
    (h' : ∀ k, k ≠ key → s'.Keeps s'' k) (hr : s''.reclaimed = s'.reclaimed) :
    s.Moves s'' key ks where
  nodup := h.nodup
  other := h.other
  gone k hk := (h.gone k hk).keeps (h' k fun he => h.other (he ▸ hk))
  kept k hne hk := (h.kept k hne hk).trans (h' k hne)
  reports := hr.trans h.reports

theorem keeps_dropAssembly (hk : k ≠ key) : s.Keeps (s.dropAssembly key) k where
  lookup := lookup_dropAssembly.trans (if_neg hk)
  rejected := by simp [Rx.isRejected]
  drained := by simp [Rx.isRejected]

theorem keeps_forgetRejected (hk : k ≠ key) : s.Keeps (s.forgetRejected key) k where
  lookup := by rw [forgetRejected_assemblies]
  rejected h := (isRejected_forgetRejected.mp h).2
  drained h := by
    rw [isRejected_forgetRejected, forgetRejected_rejectedEvicted]
    exact h.imp_left fun hr => ⟨hk, hr⟩

theorem keeps_rejectMessage (hk : k ≠ key) : s.Keeps (s.rejectMessage key) k where
  lookup := by rw [rejectMessage_assemblies]
  rejected h := (of_isRejected_rejectMessage h).resolve_left hk
  drained := isRejected_rejectMessage

theorem keeps_store (hk : k ≠ key) : s.Keeps (s.store key a) k :=
  ⟨lookup_store.trans (if_neg hk), id, id⟩

theorem keeps_counted : s.Keeps s.counted k := ⟨rfl, id, id⟩

theorem Rx.Moves.counted {ks : List Key} (h : s.counted.Moves s' key ks) : s.Moves s' key ks :=
  ⟨h.nodup, h.other, fun k hk => ⟨(h.gone k hk).live, (h.gone k hk).gone, (h.gone k hk).drained⟩,
    fun k hne hk => keeps_counted.trans (h.kept k hne hk), h.reports⟩

/-! ## What a sweep does -/

theorem reclaim_eq (s : Rx) (key : Key) (a : Assembly) :
    (s.reclaim key a).rejected = ((s.dropAssembly key).rejectMessage key).rejected ∧
      (s.reclaim key a).rejectedEvicted =
        ((s.dropAssembly key).rejectMessage key).rejectedEvicted := by
  unfold Rx.reclaim
  split <;> exact ⟨rfl, rfl⟩

theorem keeps_reclaim (hk : k ≠ key) : s.Keeps (s.reclaim key a) k := by
  obtain ⟨hrej, hev⟩ := reclaim_eq s key a
  have h := (keeps_dropAssembly (s := s) hk).trans (keeps_rejectMessage hk)
  refine ⟨?_, fun hr => h.rejected ?_, fun hd => ?_⟩
  · rw [reclaim_assemblies, ← rejectMessage_assemblies (k := key)]
    exact h.lookup
  · unfold Rx.isRejected at hr ⊢
    rwa [hrej] at hr
  · unfold Rx.isRejected
    rw [hrej, hev]
    exact h.drained hd

theorem reclaim_reports (ha : s.assemblies.lookup key = some a) :
    (s.reclaim key a).reclaimed = s.reclaimed ++ s.reportOf key := by
  unfold Rx.reclaim Rx.reportOf
  rw [ha]
  dsimp only
  split
  · dsimp only
    rw [rejectMessage_reclaimed, dropAssembly_reclaimed]
  · rw [rejectMessage_reclaimed, dropAssembly_reclaimed, List.append_nil]

theorem reclaims_reclaim (ha : s.assemblies.lookup key = some a) :
    s.Reclaims (s.reclaim key a) key where
  live := by rw [ha]; rfl
  gone := by rw [reclaim_assemblies, lookup_dropAssembly, if_pos rfl]
  drained := by
    left
    unfold Rx.isRejected
    rw [(reclaim_eq s key a).1]
    exact isRejected_rejectMessage_self

variable (cfg env) in
theorem reclaimIdle_moves (charge : Word) (hnone : s.assemblies.lookup key = none) :
    ∃ ks, s.Moves (s.reclaimIdle cfg env charge) key ks := by
  suffices h : (s.reclaimIdle cfg env charge).assemblies.lookup key = none ∧
      ∃ ks, s.Moves (s.reclaimIdle cfg env charge) key ks from h.2
  refine reclaimIdle_invariant
    (P := fun t => t.assemblies.lookup key = none ∧ ∃ ks, s.Moves t key ks) ?_ ?_ ?_
  · rintro t k a ⟨hkey, ks, h⟩ ha
    have hk : k ∉ ks := fun hin => by
      have := (h.gone k hin).gone
      rw [ha] at this
      cases this
    have hne : k ≠ key := by
      rintro rfl
      rw [hkey] at ha
      cases ha
    have hlook : s.assemblies.lookup k = some a := (h.kept k hne hk).lookup.symm.trans ha
    refine ⟨(keeps_reclaim hne.symm).lookup.trans hkey, ks ++ [k], ?_⟩
    constructor
    · exact h.nodup.append (List.nodup_singleton k) (List.disjoint_singleton.mpr hk)
    · simp only [List.mem_append, List.mem_singleton, not_or]
      exact ⟨h.other, hne.symm⟩
    · intro k' hk'
      rcases List.mem_append.mp hk' with hold | hnew
      · exact (h.gone k' hold).keeps (keeps_reclaim fun he => hk (he ▸ hold))
      · obtain rfl := List.mem_singleton.mp hnew
        have hr := reclaims_reclaim ha
        exact ⟨by rw [hlook]; rfl, hr.gone, hr.drained⟩
    · intro k' hne' hk'
      simp only [List.mem_append, List.mem_singleton, not_or] at hk'
      exact (h.kept k' hne' hk'.1).trans (keeps_reclaim hk'.2)
    · rw [reclaim_reports ha, h.reports, List.flatMap_append, List.append_assoc]
      congr 2
      simp only [List.flatMap_cons, List.flatMap_nil, List.append_nil, Rx.reportOf, ha, hlook]
  · rintro t n ⟨hkey, ks, h⟩
    exact ⟨hkey, ks, h.keeps (fun _ _ => ⟨rfl, id, id⟩) rfl⟩
  · exact ⟨hnone, [], .of_keeps (fun k _ => .refl s k) rfl⟩

/-! ## The stages of a message -/

def Rx.Absent (s : Rx) (k : Key) : Prop := s.assemblies.lookup k = none ∧ ¬ s.isRejected k

def Result.seen (r : Result) : Except Err Seen := r.map Outcome.seen

def Quiet (r : Except Err Seen) : Prop :=
  ∃ o, r = .ok o ∧ ∀ header bytes msgMeta, o ≠ .message header bytes msgMeta

def Send.abortHeader (cfg : Config) (p : Send) : Header :=
  ⟨p.connectionID, p.messageID, advFlagAbort ||| p.baseFlags cfg, 0⟩

/-- What the frames of one call are to give, one outcome for each. -/
def Send.expected (cfg : Config) (p : Send) (sent : Sent) : List (Except Err Seen) :=
  match sent.fate with
  | .whole => List.replicate (sent.frames.length - 1) (.ok .nothing) ++ [.ok (p.delivered cfg)]
  | .aborted =>
    List.replicate (sent.frames.length - 1) (.ok .nothing) ++ [.ok (.aborted (p.abortHeader cfg))]
  | .cut => List.replicate sent.frames.length (.ok .nothing)

/-- Where a message stands: the frames that are still to come, whether the receiver gave
it up, and what its frames gave so far. -/
inductive Stage (cfg : Config) (size : BufferSize) (p : Send) (sent : Sent) (rx : Rx)
    (queue : List Frame) (lost : Prop) (seen : List (Except Err Seen)) : Prop
  | fresh (rest : Rest cfg size p 0 queue sent.fate) (absent : rx.Absent p.key)
      (all : queue = sent.frames) (none : seen = []) (kept : ¬ lost)
  | live (offset : Nat) (a : Assembly) (lo : size.1 ≤ offset) (hi : offset < p.totalSize cfg)
      (rest : Rest cfg size p offset queue sent.fate) (fewer : queue.length < sent.frames.length)
      (look : rx.assemblies.lookup p.key = some a) (holds : a.Holds cfg p offset)
      (none : seen = List.replicate (sent.frames.length - queue.length) (.ok .nothing))
      (kept : ¬ lost)
  | dropped (offset : Nat) (lo : size.1 ≤ offset) (hi : offset < p.totalSize cfg)
      (rest : Rest cfg size p offset queue sent.fate) (look : rx.assemblies.lookup p.key = none)
      (drained : rx.isRejected p.key ∨ rx.rejectedEvicted = true) (quiet : ∀ r ∈ seen, Quiet r)
      (gone : lost)
  | ended (empty : queue = []) (closed : sent.fate ≠ .cut) (absent : rx.Absent p.key)
      (good : ¬ lost → sent.frames ≠ [] ∧ seen = p.expected cfg sent)
      (quiet : lost → ∀ r ∈ seen, Quiet r)

variable {rx rx' : Rx} {sent : Sent} {queue : List Frame} {lost : Prop}
  {seen : List (Except Err Seen)}

theorem Rx.Absent.keeps (h : rx.Absent k) (hk : rx.Keeps rx' k) : rx'.Absent k :=
  ⟨hk.lookup.trans h.1, fun hr => h.2 (hk.rejected hr)⟩

theorem Stage.keeps (h : Stage cfg size p sent rx queue lost seen) (hk : rx.Keeps rx' p.key) :
    Stage cfg size p sent rx' queue lost seen := by
  cases h with
  | fresh rest absent all none kept => exact .fresh rest (absent.keeps hk) all none kept
  | live offset a lo hi rest fewer look holds none kept =>
    exact .live offset a lo hi rest fewer (hk.lookup.trans look) holds none kept
  | dropped offset lo hi rest look drained quiet gone =>
    exact .dropped offset lo hi rest (hk.lookup.trans look) (hk.drained drained) quiet gone
  | ended empty closed absent good quiet => exact .ended empty closed (absent.keeps hk) good quiet

theorem quiet_nothing : Quiet (.ok .nothing) := ⟨_, rfl, by simp⟩

theorem quiet_append {r : Except Err Seen} (hseen : ∀ r ∈ seen, Quiet r) (hr : Quiet r) :
    ∀ r' ∈ seen ++ [r], Quiet r' := by
  intro r' hin
  rcases List.mem_append.mp hin with hold | hnew
  · exact hseen r' hold
  · exact List.mem_singleton.mp hnew ▸ hr

theorem quiet_of_mem_replicate {n : Nat} : ∀ r ∈ List.replicate n (Except.ok Seen.nothing), Quiet r := by
  intro r hr
  rw [List.eq_of_mem_replicate hr]
  exact quiet_nothing

theorem Stage.reclaims (h : Stage cfg size p sent rx queue lost seen)
    (hk : rx.Reclaims rx' p.key) : Stage cfg size p sent rx' queue True seen := by
  have hlive := hk.live
  cases h with
  | fresh rest absent all none kept => simp [absent.1] at hlive
  | live offset a lo hi rest fewer look holds none kept =>
    exact .dropped offset lo hi rest hk.gone hk.drained (none ▸ quiet_of_mem_replicate) trivial
  | dropped offset lo hi rest look drained quiet gone => simp [look] at hlive
  | ended empty closed absent good quiet => simp [absent.1] at hlive

def Result.isRefused : Result → Bool
  | .ok (.chunkRefused _) => true
  | _ => false

def Result.From (cfg : Config) (p : Send) (lost : Prop) : Result → Prop
  | .error _ => False
  | .ok .chunkPartial => True
  | .ok (.chunkComplete m) => ¬ lost ∧ (Outcome.chunkComplete m).seen = p.delivered cfg
  | .ok (.chunkAborted h) => h = p.abortHeader cfg
  | .ok (.chunkRefused h) => ¬ lost ∧ h = p.header cfg advFlagAbort

/-- What the next frame of a message does. Only a first frame that finds no room can cost
a message. -/
structure FrameStep (cfg : Config) (env : Env) (size : BufferSize) (p : Send) (sent : Sent)
    (rx : Rx) (f : Frame) (rest : List Frame) (lost : Prop) (seen : List (Except Err Seen))
    (rx' : Rx) (r : Result) (ks : List Key) : Prop where
  consumed : consumeAdvancedChunk cfg env rx f = some (rx', r)
  moves : rx.Moves rx' p.key ks
  stage : Stage cfg size p sent rx' rest (lost ∨ r.isRefused = true) (seen ++ [r.seen])
  calm : (rest.length + 1 = sent.frames.length → size.1 < p.totalSize cfg → rx.HasRoom cfg p) →
    ks = [] ∧ r.isRefused = false
  came : r.From cfg p lost

variable {rest : List Frame} {offset : Nat}

theorem FrameStep.single (h : IsChunk cfg size p 0 f) (hf : f.Sized cfg)
    (hrest : Rest cfg size p (0 + size.1) rest sent.fate) (absent : rx.Absent p.key)
    (all : f :: rest = sent.frames) (kept : ¬ lost) (hone : p.totalSize cfg ≤ size.1) :
    ∃ rx' r ks, FrameStep cfg env size p sent rx f rest lost [] rx' r ks := by
  have hpos := size.2
  obtain ⟨rfl, hfate⟩ := hrest.of_total_le (by omega) (by omega)
  obtain ⟨m, hm, hseen⟩ := single_delivered env rx.counted h hf hone
  refine ⟨rx.counted, .ok (.chunkComplete m), [], ?_, .of_keeps (fun _ _ => keeps_counted) rfl, ?_,
    fun _ => ⟨rfl, rfl⟩, ⟨kept, hseen⟩⟩
  · rw [consume_first h hf absent.1 absent.2, if_pos hone, hm]
  · refine .ended rfl (by simp [hfate]) (absent.keeps keeps_counted) (fun _ => ?_) (fun hl => ?_)
    · refine ⟨all ▸ List.cons_ne_nil _ _, ?_⟩
      simp only [Send.expected, hfate, ← all, Result.seen, Except.map, hseen]
      rfl
    · exact absurd hl (by simpa [Result.isRefused] using kept)

theorem FrameStep.start (h : IsChunk cfg size p 0 f) (hf : f.Sized cfg)
    (hrest : Rest cfg size p (0 + size.1) rest sent.fate) (absent : rx.Absent p.key)
    (all : f :: rest = sent.frames) (kept : ¬ lost) (hmany : size.1 < p.totalSize cfg) :
    ∃ rx' r ks, FrameStep cfg env size p sent rx f rest lost [] rx' r ks := by
  have hn : sent.frames.length = rest.length + 1 := by rw [← all]; rfl
  rw [Nat.zero_add] at hrest
  have habsent : rx.counted.Absent p.key := absent.keeps keeps_counted
  generalize ht : rx.counted.reclaimIdle cfg env (f.totalSize + advancedAssemblyOverhead) = t
  have hgone : t.Absent p.key := ht ▸ reclaimIdle_absent cfg env _ habsent.1 habsent.2
  obtain ⟨ks, hmoves, hroomy⟩ :
      ∃ ks, rx.Moves t p.key ks ∧ (rx.HasRoom cfg p → ks = [] ∧ t.HasRoom cfg p) := by
    by_cases hroom : rx.HasRoom cfg p
    · have : rx.counted = t := ht ▸ (reclaimIdle_of_hasRoom (s := rx.counted) h hf hroom).symm
      exact ⟨[], this ▸ .of_keeps (fun _ _ => keeps_counted) rfl, fun _ => ⟨rfl, this ▸ hroom⟩⟩
    · obtain ⟨ks, hks⟩ := reclaimIdle_moves cfg env
        (f.totalSize + advancedAssemblyOverhead) habsent.1
      exact ⟨ks, ht ▸ hks.counted, fun hr => absurd hr hroom⟩
  have hconsume : consumeAdvancedChunk cfg env rx f = rx.counted.start cfg env f := by
    rw [consume_first h hf absent.1 absent.2, if_neg (by omega)]
  by_cases hroom : t.HasRoom cfg p
  · obtain ⟨s1, a, hstart, hholds, hlook, hrej, hev, hrec⟩ := start_admitted ht h hf hmany hroom
    have hkeeps {k : Key} (hk : k ≠ p.key) : t.Keeps (s1.store p.key a) k :=
      ⟨(lookup_store.trans (if_neg hk)).trans (hlook k hk),
        by simp only [Rx.isRejected, Rx.store, hrej, imp_self],
        by simp only [Rx.isRejected, Rx.store, hrej, hev, imp_self]⟩
    refine ⟨_, _, ks, hconsume.trans hstart, hmoves.keeps (fun _ => hkeeps) hrec, ?_, ?_, trivial⟩
    · refine .live size.1 a le_rfl hmany hrest (by omega) (lookup_store.trans (if_pos rfl)) hholds ?_ ?_
      · rw [hn, show rest.length + 1 - rest.length = 1 by omega]
        rfl
      · simpa [Result.isRefused] using kept
    · exact fun hr => ⟨(hroomy (hr hn.symm hmany)).1, rfl⟩
  · refine ⟨_, _, ks, hconsume.trans (start_refused ht h hf hroom),
      hmoves.keeps (fun _ => keeps_rejectMessage) rejectMessage_reclaimed, ?_, ?_, ⟨kept, rfl⟩⟩
    · refine .dropped size.1 le_rfl hmany hrest ?_ (.inl isRejected_rejectMessage_self) ?_ (.inr rfl)
      · rw [rejectMessage_assemblies]
        exact hgone.1
      · intro r hr
        rw [List.nil_append, List.mem_singleton] at hr
        exact ⟨_, hr, by simp [Outcome.seen]⟩
    · exact fun hr => absurd (hroomy (hr hn.symm hmany)).2 hroom

theorem FrameStep.append {a : Assembly} (hinv : RxInv cfg rx) (h : IsChunk cfg size p offset f)
    (hf : f.Sized cfg) (hrest : Rest cfg size p (offset + size.1) rest sent.fate)
    (lo : size.1 ≤ offset) (fewer : (f :: rest).length < sent.frames.length)
    (look : rx.assemblies.lookup p.key = some a) (holds : a.Holds cfg p offset)
    (none : seen = List.replicate (sent.frames.length - (f :: rest).length) (.ok .nothing))
    (kept : ¬ lost) :
    ∃ rx' r ks, FrameStep cfg env size p sent rx f rest lost seen rx' r ks := by
  have hpos := size.2
  have hsound := hinv.sound p.key a look
  have hconsume : consumeAdvancedChunk cfg env rx f = rx.counted.append f a := by
    rw [consume_next h hf (by omega), look]
  rw [List.length_cons] at fewer none
  by_cases hmore : offset + size.1 < p.totalSize cfg
  · refine ⟨_, _, [], hconsume.trans (append_more hsound holds h hf hmore),
      .of_keeps (fun _ hk => keeps_counted.trans (keeps_store hk)) rfl, ?_, fun _ => ⟨rfl, rfl⟩,
      trivial⟩
    refine .live (offset + size.1) _ (by omega) hmore hrest (by omega)
      (lookup_store.trans (if_pos rfl)) ?_ ?_ ?_
    · have := holds.grown hsound h hf rx.counted.chunks
      rwa [min_eq_left hmore.le] at this
    · rw [none, show sent.frames.length - rest.length =
        sent.frames.length - (rest.length + 1) + 1 by omega, List.replicate_succ']
      rfl
    · simpa [Result.isRefused] using kept
  · obtain ⟨rfl, hfate⟩ := hrest.of_total_le (by omega) (by omega)
    obtain ⟨m, hm, hseen⟩ := append_last (s := rx.counted) hsound holds h hf (by omega)
    refine ⟨_, _, [], hconsume.trans hm, .of_keeps (fun _ hk => (keeps_counted.trans
      (keeps_store hk)).trans (keeps_dropAssembly hk)) ?_, ?_, fun _ => ⟨rfl, rfl⟩, ⟨kept, hseen⟩⟩
    · rw [dropAssembly_reclaimed]
      rfl
    · refine .ended rfl (by simp [hfate]) ⟨lookup_dropAssembly.trans (if_pos rfl), ?_⟩
        (fun _ => ?_) (fun hl => ?_)
      · unfold Rx.isRejected
        rw [dropAssembly_rejected]
        exact hinv.apart p.key (by rw [look]; rfl)
      · refine ⟨List.ne_nil_of_length_pos (by omega), ?_⟩
        simp only [Send.expected, hfate, none, Result.seen, Except.map, hseen]
        rfl
      · exact absurd hl (by simpa [Result.isRefused] using kept)

theorem FrameStep.orphan (h : IsChunk cfg size p offset f) (hf : f.Sized cfg)
    (hrest : Rest cfg size p (offset + size.1) rest sent.fate) (lo : size.1 ≤ offset)
    (look : rx.assemblies.lookup p.key = none)
    (drained : rx.isRejected p.key ∨ rx.rejectedEvicted = true) (quiet : ∀ r ∈ seen, Quiet r)
    (gone : lost) :
    ∃ rx' r ks, FrameStep cfg env size p sent rx f rest lost seen rx' r ks := by
  have hpos := size.2
  have hquiet := quiet_append quiet quiet_nothing
  have hconsume : consumeAdvancedChunk cfg env rx f =
      some (if Has f.flags advFlagEnd then rx.counted.forgetRejected p.key else rx.counted,
        .ok .chunkPartial) := by
    have hdrained : rx.counted.isRejected p.key ∨ rx.counted.rejectedEvicted = true := drained
    rw [consume_next h hf (by omega), look, Rx.orphan, h.key]
    rw [if_pos hdrained]
  refine ⟨_, _, [], hconsume, ?_, ?_, fun _ => ⟨rfl, rfl⟩, trivial⟩
  · split
    · exact .of_keeps (fun _ hk => keeps_counted.trans (keeps_forgetRejected hk))
        forgetRejected_reclaimed
    · exact .of_keeps (fun _ _ => keeps_counted) rfl
  · by_cases hmore : offset + size.1 < p.totalSize cfg
    · rw [if_neg (by rw [h.flags.end_iff]; omega)]
      exact .dropped (offset + size.1) (by omega) hmore hrest look drained hquiet (.inl gone)
    · obtain ⟨rfl, hfate⟩ := hrest.of_total_le (by omega) (by omega)
      rw [if_pos (h.flags.end_iff.mpr (by omega))]
      refine .ended rfl (by simp [hfate]) ⟨?_, ?_⟩ (fun hl => absurd (.inl gone) hl) fun _ => hquiet
      · rw [forgetRejected_assemblies]
        exact look
      · exact fun hr => (isRejected_forgetRejected.mp hr).1 rfl

/-- An abort drops what there is. It is news only for a message on its way, or for one
whose refusal was forgotten. -/
theorem abort_eq (h : IsAbort cfg p f)
    (hlook : rx.assemblies.lookup p.key = none ∨ ¬ rx.isRejected p.key) :
    rx.abort f =
      if rx.isRejected p.key then (rx.forgetRejected p.key, .ok .chunkPartial)
      else (rx.dropAssembly p.key, .ok (.chunkAborted (p.abortHeader cfg))) := by
  have hsame : (rx.dropAssembly p.key).isRejected p.key ↔ rx.isRejected p.key := by
    simp [Rx.isRejected]
  unfold Rx.abort
  rw [h.key, h.header]
  by_cases hr : rx.isRejected p.key
  · rw [if_pos (hsame.mpr hr), if_pos hr, dropAssembly_of_none (hlook.resolve_right (not_not.mpr hr))]
  · rw [if_neg (fun h => hr (hsame.mp h)), if_neg hr]
    rfl

theorem FrameStep.abortLive {a : Assembly} (hinv : RxInv cfg rx) (h : IsAbort cfg p f)
    (hfate : sent.fate = .aborted) (look : rx.assemblies.lookup p.key = some a)
    (fewer : 1 < sent.frames.length)
    (none : seen = List.replicate (sent.frames.length - 1) (.ok .nothing)) (kept : ¬ lost) :
    ∃ rx' r ks, FrameStep cfg env size p sent rx f [] lost seen rx' r ks := by
  have hout : ¬ rx.counted.isRejected p.key := hinv.apart p.key (by rw [look]; rfl)
  refine ⟨rx.counted.dropAssembly p.key,
    .ok (.chunkAborted (p.abortHeader cfg)), [], ?_, ?_, ?_, fun _ => ⟨rfl, rfl⟩, rfl⟩
  · rw [consume_abort env rx h, abort_eq h (.inr hout), if_neg hout]
  · exact .of_keeps (fun _ hk => keeps_counted.trans (keeps_dropAssembly hk)) dropAssembly_reclaimed
  · refine .ended rfl (by simp [hfate]) ⟨lookup_dropAssembly.trans (if_pos rfl), ?_⟩
      (fun _ => ?_) (fun hl => ?_)
    · unfold Rx.isRejected
      rw [dropAssembly_rejected]
      exact hout
    · refine ⟨List.ne_nil_of_length_pos (by omega), ?_⟩
      simp only [Send.expected, hfate, none]
      rfl
    · exact absurd hl (by simpa [Result.isRefused] using kept)

theorem FrameStep.abortDropped (h : IsAbort cfg p f) (hfate : sent.fate = .aborted)
    (look : rx.assemblies.lookup p.key = none)
    (quiet : ∀ r ∈ seen, Quiet r) (gone : lost) :
    ∃ rx' r ks, FrameStep cfg env size p sent rx f [] lost seen rx' r ks := by
  have hlook : rx.counted.assemblies.lookup p.key = none := look
  have hconsume := consume_abort env rx h
  rw [abort_eq h (.inl hlook), dropAssembly_of_none hlook] at hconsume
  by_cases hrej : rx.counted.isRejected p.key
  · rw [if_pos hrej] at hconsume
    refine ⟨_, _, [], hconsume, .of_keeps (fun _ hk => keeps_counted.trans (keeps_forgetRejected hk))
      forgetRejected_reclaimed, ?_, fun _ => ⟨rfl, rfl⟩, trivial⟩
    refine .ended rfl (by simp [hfate]) ⟨?_, ?_⟩ (fun hl => absurd (.inl gone) hl)
      fun _ => quiet_append quiet quiet_nothing
    · rw [forgetRejected_assemblies]
      exact look
    · exact fun hr => (isRejected_forgetRejected.mp hr).1 rfl
  · rw [if_neg hrej] at hconsume
    refine ⟨_, _, [], hconsume, .of_keeps (fun _ _ => keeps_counted) rfl, ?_, fun _ => ⟨rfl, rfl⟩, rfl⟩
    exact .ended rfl (by simp [hfate]) ⟨look, hrej⟩ (fun hl => absurd (.inl gone) hl)
      fun _ => quiet_append quiet ⟨_, rfl, by simp [Outcome.seen]⟩

variable (env) in
theorem Stage.frame (hinv : RxInv cfg rx) (h : Stage cfg size p sent rx (f :: rest) lost seen) :
    ∃ rx' r ks, FrameStep cfg env size p sent rx f rest lost seen rx' r ks := by
  cases h with
  | fresh hrest absent all none kept =>
    subst none
    generalize hfate : sent.fate = fate at hrest
    cases hrest with
    | chunk hmax hin hchunk hrest =>
      have hf := hchunk.sized hmax hin
      by_cases hone : p.totalSize cfg ≤ size.1
      · exact FrameStep.single hchunk hf (hfate ▸ hrest) absent all kept hone
      · exact FrameStep.start hchunk hf (hfate ▸ hrest) absent all kept (by omega)
    | aborted hpos => exact absurd hpos (Nat.lt_irrefl 0)
  | live offset a lo hi hrest fewer look holds none kept =>
    generalize hfate : sent.fate = fate at hrest
    cases hrest with
    | chunk hmax hin hchunk hrest =>
      exact FrameStep.append hinv hchunk (hchunk.sized hmax hin) (hfate ▸ hrest) lo fewer look holds none kept
    | aborted _ _ habort => exact FrameStep.abortLive hinv habort hfate look fewer none kept
  | dropped offset lo hi hrest look drained quiet gone =>
    generalize hfate : sent.fate = fate at hrest
    cases hrest with
    | chunk hmax hin hchunk hrest =>
      exact FrameStep.orphan hchunk (hchunk.sized hmax hin) (hfate ▸ hrest) lo look drained quiet gone
    | aborted _ _ habort => exact FrameStep.abortDropped habort hfate look quiet gone
  | ended empty => cases empty

end Hqq.Advanced
