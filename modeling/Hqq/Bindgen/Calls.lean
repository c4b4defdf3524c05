import Mathlib.Data.List.Nodup
import Hqq.Slots
import Hqq.Bindgen.Conn

/-!
# The calls of a session

Which lists a call stands in. With this invariant no index of `live` is out of range.
-/

namespace Hqq.Bindgen

theorem Slice.fill_bytes (k : Cfg) {b : Slice} {src : List Byte} : (b.fill k src).bytes = src := by
  unfold Slice.fill Slice.bytes
  split <;> exact List.take_left

namespace Conn

def SameButIdx (c c' : Conn) : Prop := ∀ q, ∃ i, c'.heap q = { c.heap q with idx := i }

structure Wf (c : Conn) : Prop where
  idx : ∀ i r, c.live[i]? = some r → (c.heap r).idx = i
  unans_nodup : c.unans.Nodup
  free_nodup : c.free.Nodup
  free_unans : ∀ r ∈ c.free, r ∉ c.unans
  free_live : ∀ r ∈ c.free, r ∉ c.live
  bound : ∀ r, r ∈ c.live ∨ r ∈ c.unans ∨ r ∈ c.free → r < c.allocated
  unans_clear : ∀ r ∈ c.unans, (c.heap r).done = false ∧ (c.heap r).status = 0
  free_clear : ∀ r ∈ c.free, (c.heap r).done = false ∧ (c.heap r).status = 0
  pending : ∀ r, (c.heap r).pending = true → r ∈ c.live
  waiting : ∀ r ∈ c.live, (c.heap r).done = false → r ∈ c.unans

variable {c c' : Conn} {r : CallRef}

theorem heap_setCall (call : Call) : (c.setCall r call).heap r = call := Function.update_self _ _ _

theorem heap_setCall_of_ne (call : Call) {q : CallRef} (hq : q ≠ r) :
    (c.setCall r call).heap q = c.heap q := Function.update_of_ne hq _ _

theorem wf_new : Wf .new := by
  constructor <;> simp [Conn.new, Call.new]

theorem Wf.live_nodup (h : Wf c) : c.live.Nodup := nodup_of_index (fun r => (c.heap r).idx) h.idx

theorem Wf.idx_eq (h : Wf c) (hr : r ∈ c.live) : (c.heap r).idx = c.live.idxOf r :=
  h.idx _ _ (List.getElem?_idxOf hr)

/-! ## Taking a call out -/

structure Unregistered (c : Conn) (r : CallRef) (c' : Conn) : Prop where
  length : c'.live.length + 1 = c.live.length
  mem : ∀ q, q ∈ c'.live ↔ q ∈ c.live ∧ q ≠ r
  idx : ∀ i q, c'.live[i]? = some q → (c'.heap q).idx = i
  heap : SameButIdx c c'
  unans : c'.unans = c.unans
  unansRF : c'.unansRF = c.unansRF
  asm : c'.asm = c.asm
  free : c'.free = c.free
  allocated : c'.allocated = c.allocated

theorem Wf.unregister (h : Wf c) (hr : r ∈ c.live) :
    ∃ c', c.unregister r = some c' ∧ Unregistered c r c' := by
  have hidx := h.idx_eq hr
  have hlt := List.idxOf_lt_length_of_mem hr
  obtain ⟨moved, hmoved⟩ : ∃ moved, c.live.getLast? = some moved :=
    Option.isSome_iff_exists.mp (by rw [List.getLast?_isSome]; exact List.ne_nil_of_mem hr)
  refine ⟨{ c.setCall moved { c.heap moved with idx := (c.heap r).idx } with
    live := swapRemove c.live r }, ?_, ?_⟩
  · unfold Conn.unregister swapRemove
    rw [hmoved]
    dsimp only
    rw [if_pos (hidx ▸ hlt), if_pos hr, hidx]
  have hother : ∀ q, q ≠ moved →
      (c.setCall moved { c.heap moved with idx := (c.heap r).idx }).heap q = c.heap q :=
    fun q hq => Function.update_of_ne hq _ _
  have hself : (c.setCall moved { c.heap moved with idx := (c.heap r).idx }).heap moved =
      { c.heap moved with idx := (c.heap r).idx } := Function.update_self _ _ _
  refine ⟨?_, fun q => ?_, fun i q hq => ?_, fun q => ?_, rfl, rfl, rfl, rfl, rfl⟩
  · rw [(swapRemove_perm c.live r).length_eq, List.length_erase_of_mem hr]
    omega
  · rw [(swapRemove_perm c.live r).mem_iff, h.live_nodup.mem_erase_iff, and_comm]
  · dsimp only at hq ⊢
    unfold swapRemove at hq
    rw [hmoved] at hq
    dsimp only at hq
    rw [if_pos hr] at hq
    rcases getElem?_set_dropLast hq with ⟨rfl, rfl⟩ | ⟨-, hi, hold⟩
    · rw [hself, hidx]
    · have hne : q ≠ moved := by
        rintro rfl
        have hlast := h.idx _ _ (List.getLast?_eq_getElem? ▸ hmoved)
        have hi' := h.idx _ _ hold
        omega
      rw [hother q hne]
      exact h.idx _ _ hold
  · by_cases hq : q = moved
    · subst hq
      exact ⟨_, hself⟩
    · exact ⟨(c.heap q).idx, hother q hq⟩

/-- Some calls have ended. Those which are still live only moved, and the unanswered ones are what
they were, also if nobody waits for them any more. -/
structure Ended (c c' : Conn) : Prop where
  unans : c'.unans = c.unans
  unansRF : c'.unansRF = c.unansRF
  asm : c'.asm = c.asm
  live : ∀ q ∈ c'.live, q ∈ c.live ∧ ∃ i, c'.heap q = { c.heap q with idx := i }
  open_ : ∀ q ∈ c.unans, ∃ pending body i,
    c'.heap q = { c.heap q with pending := pending, body := body, idx := i }

theorem Ended.refl (c : Conn) : Ended c c :=
  ⟨rfl, rfl, rfl, fun q hq => ⟨hq, (c.heap q).idx, rfl⟩,
    fun q _ => ⟨(c.heap q).pending, (c.heap q).body, (c.heap q).idx, rfl⟩⟩

theorem Ended.trans {c'' : Conn} (h : Ended c c') (h' : Ended c' c'') : Ended c c'' := by
  refine ⟨h'.unans.trans h.unans, h'.unansRF.trans h.unansRF, h'.asm.trans h.asm, ?_, ?_⟩
  · intro q hq
    obtain ⟨hq, i, hi⟩ := h'.live q hq
    obtain ⟨hq, j, hj⟩ := h.live q hq
    exact ⟨hq, i, by rw [hi, hj]⟩
  · intro q hq
    obtain ⟨p, b, i, hi⟩ := h.open_ q hq
    obtain ⟨p', b', i', hi'⟩ := h'.open_ q (h.unans ▸ hq)
    exact ⟨p', b', i', by rw [hi', hi]⟩

theorem Unregistered.setCall (hu : Unregistered c r c') (call : Call) (q : CallRef) :
    (q = r ∧ (c'.setCall r call).heap q = call) ∨
      (q ≠ r ∧ ∃ i, (c'.setCall r call).heap q = { c.heap q with idx := i }) := by
  by_cases hq : q = r
  · subst hq
    exact .inl ⟨rfl, Function.update_self _ _ _⟩
  · obtain ⟨i, hi⟩ := hu.heap q
    exact .inr ⟨hq, i, (Function.update_of_ne hq _ _).trans hi⟩

theorem Unregistered.live_setCall {call : Call} (hu : Unregistered c r c') {q : CallRef}
    (hq : q ∈ c'.live) : (c'.setCall r call).heap q = c'.heap q :=
  Function.update_of_ne ((hu.mem q).mp hq).2 _ _

theorem Wf.ended (h : Wf c) (hr : r ∈ c.live) (hu : Unregistered c r c') {call : Call}
    (hpending : call.pending = false) (hdone : call.done = false)
    (hstatus : r ∈ c.unans → call.status = 0) : Wf (c'.setCall r call) := by
  constructor
  · intro i q hq
    rw [hu.live_setCall (List.mem_of_getElem? hq)]
    exact hu.idx i q hq
  · exact hu.unans ▸ h.unans_nodup
  · exact hu.free ▸ h.free_nodup
  · intro q hq
    exact hu.unans ▸ h.free_unans q (hu.free ▸ hq)
  · intro q hq hlive
    exact h.free_live q (hu.free ▸ hq) ((hu.mem q).mp hlive).1
  · intro q hq
    change q ∈ c'.live ∨ q ∈ c'.unans ∨ q ∈ c'.free at hq
    rw [hu.mem, hu.unans, hu.free] at hq
    exact hu.allocated ▸ h.bound q (hq.imp_left And.left)
  · intro q hq
    have hmem : q ∈ c.unans := hu.unans ▸ hq
    rcases hu.setCall call q with ⟨rfl, hset⟩ | ⟨-, i, hset⟩
    · rw [hset]
      exact ⟨hdone, hstatus hmem⟩
    · rw [hset]
      exact h.unans_clear q hmem
  · intro q hq
    have hmem : q ∈ c.free := hu.free ▸ hq
    rcases hu.setCall call q with ⟨rfl, -⟩ | ⟨-, i, hset⟩
    · exact absurd hr (h.free_live q hmem)
    · rw [hset]
      exact h.free_clear q hmem
  · intro q hq
    rcases hu.setCall call q with ⟨rfl, hset⟩ | ⟨hne, i, hset⟩
    · rw [hset, hpending] at hq
      cases hq
    · rw [hset] at hq
      exact (hu.mem q).mpr ⟨h.pending q hq, hne⟩
  · intro q hq hopen
    have hq : q ∈ c'.live := hq
    rcases hu.setCall call q with ⟨rfl, -⟩ | ⟨-, i, hset⟩
    · exact absurd rfl ((hu.mem q).mp hq).2
    · rw [hset] at hopen
      exact hu.unans ▸ h.waiting q ((hu.mem q).mp hq).1 hopen

theorem Unregistered.ended (hu : Unregistered c r c') {call : Call}
    (hopen : r ∈ c.unans → ∃ pending body i,
      call = { c.heap r with pending := pending, body := body, idx := i }) :
    Ended c (c'.setCall r call) := by
  refine ⟨hu.unans, hu.unansRF, hu.asm, fun q hq => ?_, fun q hq => ?_⟩
  · have hq : q ∈ c'.live := hq
    obtain ⟨i, hi⟩ := hu.heap q
    exact ⟨((hu.mem q).mp hq).1, i, (hu.live_setCall hq).trans hi⟩
  · rcases hu.setCall call q with ⟨rfl, hset⟩ | ⟨-, i, hset⟩
    · rw [hset]
      exact hopen hq
    · exact ⟨_, _, i, hset⟩

theorem Wf.putFree (h : Wf c) (hlive : r ∉ c.live) (hunans : r ∉ c.unans) (hfree : r ∉ c.free)
    (hbound : r < c.allocated) (hclear : (c.heap r).done = false ∧ (c.heap r).status = 0) :
    Wf (c.putFree r) := by
  unfold Conn.putFree
  split
  · exact { h with
      free_nodup := List.nodup_cons.mpr ⟨hfree, h.free_nodup⟩
      free_unans := List.forall_mem_cons.mpr ⟨hunans, h.free_unans⟩
      free_live := List.forall_mem_cons.mpr ⟨hlive, h.free_live⟩
      free_clear := List.forall_mem_cons.mpr ⟨hclear, h.free_clear⟩
      bound := by
        intro q hq
        rcases hq with hq | hq | hq
        · exact h.bound q (.inl hq)
        · exact h.bound q (.inr (.inl hq))
        · rcases List.mem_cons.mp hq with rfl | hq
          · exact hbound
          · exact h.bound q (.inr (.inr hq)) }
  · exact h

theorem ended_putFree : Ended c (c.putFree r) := by
  unfold Conn.putFree
  split
  · exact ⟨rfl, rfl, rfl, fun q hq => ⟨hq, (c.heap q).idx, rfl⟩, fun q _ => ⟨_, _, _, rfl⟩⟩
  · exact .refl c

theorem live_putFree : (c.putFree r).live = c.live := by
  unfold Conn.putFree
  split <;> rfl

structure EndsIn (c c' : Conn) : Prop where
  wf : Wf c'
  ended : Ended c c'
  length : c'.live.length + 1 = c.live.length

theorem Wf.dropCall (h : Wf c) (hr : r ∈ c.live) (hdone : (c.heap r).done = false) :
    ∃ c', c.dropCall r = some c' ∧ EndsIn c c' := by
  obtain ⟨d, hd, hu⟩ := h.unregister hr
  obtain ⟨i, hi⟩ := hu.heap r
  unfold Conn.dropCall
  rw [hd]
  refine ⟨_, rfl, h.ended hr hu rfl rfl fun hunans => ?_, hu.ended fun hunans => ?_, hu.length⟩
  · rw [hi]
    exact (h.unans_clear r hunans).2
  · refine ⟨false, [], i, ?_⟩
    rw [hi, ← hdone]

theorem Wf.recycle (h : Wf c) (hr : r ∈ c.live) (hdone : (c.heap r).done = true) :
    ∃ c', c.recycle r = some c' ∧ EndsIn c c' := by
  obtain ⟨d, hd, hu⟩ := h.unregister hr
  have hunans : r ∉ c.unans := by
    intro hmem
    rw [(h.unans_clear r hmem).1] at hdone
    cases hdone
  unfold Conn.recycle
  rw [hd]
  refine ⟨_, rfl, ?_, ?_, ?_⟩
  · apply (h.ended hr hu rfl rfl fun _ => rfl).putFree
    · intro hlive
      exact ((hu.mem r).mp hlive).2 rfl
    · exact hu.unans ▸ hunans
    · intro hfree
      exact h.free_live r (hu.free ▸ hfree) hr
    · exact hu.allocated ▸ h.bound r (.inl hr)
    · simp [Conn.setCall]
  · exact (hu.ended fun hmem => absurd hmem hunans).trans ended_putFree
  · rw [live_putFree]
    exact hu.length

theorem Wf.endCall (h : Wf c) (hr : r ∈ c.live) : ∃ c', c.endCall r = some c' ∧ EndsIn c c' := by
  unfold Conn.endCall
  split
  · next hdone => exact h.recycle hr hdone
  · next hdone => exact h.dropCall hr (Bool.not_eq_true _ ▸ hdone)

theorem Wf.discardFrom (h : Wf c) (i n : Nat) :
    ∃ c', c.discardFrom i n = some c' ∧ Wf c' ∧ Ended c c' := by
  induction n generalizing c i with
  | zero => exact ⟨c, rfl, h, .refl c⟩
  | succ n ih =>
    unfold Conn.discardFrom
    split
    · exact ⟨c, rfl, h, .refl c⟩
    · next r hr =>
      split
      · next hdone =>
        obtain ⟨d, hd, hends⟩ := h.recycle (List.mem_of_getElem? hr) hdone
        obtain ⟨c', hc', hwf, hended⟩ := ih hends.wf i
        rw [hd]
        exact ⟨c', hc', hwf, hends.ended.trans hended⟩
      · exact ih h (i + 1)

theorem Wf.discardAnswered (h : Wf c) : ∃ c', c.discardAnswered = some c' ∧ Wf c' ∧ Ended c c' :=
  h.discardFrom 0 _

theorem Wf.endCalls (h : Wf c) {n : Nat} (hn : c.live.length = n) :
    ∃ c', c.endCalls n = some c' ∧ Wf c' ∧ c'.live = [] := by
  induction n generalizing c with
  | zero => exact ⟨c, rfl, h, List.length_eq_zero_iff.mp hn⟩
  | succ n ih =>
    unfold Conn.endCalls
    split
    · next hnone => exact ⟨c, rfl, h, List.getLast?_eq_none_iff.mp hnone⟩
    · next r hr =>
      obtain ⟨d, hd, hends⟩ := h.endCall (List.mem_of_getLast? hr)
      rw [hd]
      exact ih hends.wf (by have := hends.length; omega)

theorem Wf.abandon (h : Wf c) :
    ∃ c', c.abandon = some c' ∧ Wf c' ∧ c'.live = [] ∧ c'.unans = [] ∧ c'.unansRF = 0 ∧
      c'.asm = .none := by
  obtain ⟨d, hd, hwf, hlive⟩ := h.endCalls rfl
  unfold Conn.abandon
  rw [hd]
  refine ⟨_, rfl, ?_, hlive, rfl, rfl, rfl⟩
  exact { hwf with
    unans_nodup := List.nodup_nil
    free_unans := fun _ _ => List.not_mem_nil
    unans_clear := fun _ hq => absurd hq List.not_mem_nil
    waiting := fun q hq => absurd (hlive ▸ hq) List.not_mem_nil
    bound := fun q hq => hwf.bound q (hq.imp_right fun hq => hq.imp_left fun hq =>
      absurd hq List.not_mem_nil) }

/-! ## A new call -/

theorem Wf.newCall (h : Wf c) :
    Wf c.newCall.1 ∧ c.newCall.2 ∉ c.newCall.1.live ∧ c.newCall.2 ∉ c.newCall.1.unans ∧
      c.newCall.2 ∉ c.newCall.1.free ∧ c.newCall.2 < c.newCall.1.allocated ∧
      (c.newCall.1.heap c.newCall.2).done = false ∧ (c.newCall.1.heap c.newCall.2).status = 0 := by
  unfold Conn.newCall
  split
  · next r rest hfree =>
    have hmem : r ∈ c.free := hfree ▸ List.mem_cons_self
    have hrest : ∀ q ∈ rest, q ∈ c.free := fun q hq => hfree ▸ List.mem_cons_of_mem r hq
    have hnodup := List.nodup_cons.mp (hfree ▸ h.free_nodup)
    refine ⟨?_, h.free_live r hmem, h.free_unans r hmem, hnodup.1, h.bound r (.inr (.inr hmem)),
      h.free_clear r hmem⟩
    exact { h with
      free_nodup := hnodup.2
      free_unans := fun q hq => h.free_unans q (hrest q hq)
      free_live := fun q hq => h.free_live q (hrest q hq)
      free_clear := fun q hq => h.free_clear q (hrest q hq)
      bound := fun q hq => h.bound q (hq.imp_right fun hq => hq.imp_right (hrest q)) }
  · next hfree =>
    have hnew : ∀ q, q ∈ c.live ∨ q ∈ c.unans ∨ q ∈ c.free → q ≠ c.allocated :=
      fun q hq => (h.bound q hq).ne
    have hheap : ∀ q, q ≠ c.allocated → (c.setCall c.allocated .new).heap q = c.heap q :=
      fun q hq => Function.update_of_ne hq _ _
    have hself : (c.setCall c.allocated .new).heap c.allocated = .new := Function.update_self _ _ _
    refine ⟨?_, fun hq => hnew _ (.inl hq) rfl, fun hq => hnew _ (.inr (.inl hq)) rfl,
      fun hq => hnew _ (.inr (.inr hq)) rfl, Nat.lt_succ_self _, ?_⟩
    · constructor
      · intro i q hq
        change ((c.setCall c.allocated .new).heap q).idx = i
        rw [hheap q (hnew q (.inl (List.mem_of_getElem? hq)))]
        exact h.idx i q hq
      · exact h.unans_nodup
      · exact h.free_nodup
      · exact h.free_unans
      · exact h.free_live
      · exact fun q hq => (h.bound q hq).trans (Nat.lt_succ_self _)
      · intro q hq
        change ((c.setCall c.allocated .new).heap q).done = false ∧ _
        rw [hheap q (hnew q (.inr (.inl hq)))]
        exact h.unans_clear q hq
      · intro q hq
        change ((c.setCall c.allocated .new).heap q).done = false ∧ _
        rw [hheap q (hnew q (.inr (.inr hq)))]
        exact h.free_clear q hq
      · intro q hq
        change ((c.setCall c.allocated .new).heap q).pending = true at hq
        by_cases hne : q = c.allocated
        · subst hne
          rw [hself] at hq
          cases hq
        · rw [hheap q hne] at hq
          exact h.pending q hq
      · intro q hq hopen
        change ((c.setCall c.allocated .new).heap q).done = false at hopen
        rw [hheap q (hnew q (.inl hq))] at hopen
        exact h.waiting q hq hopen
    · change ((c.setCall c.allocated .new).heap c.allocated).done = false ∧ _
      rw [hself]
      exact ⟨rfl, rfl⟩

theorem Wf.register (h : Wf c) (id : U32) : Wf (c.register id).1 := by
  have h' : Wf { c with lastID := id } := { h with }
  obtain ⟨hwf, hlive, hunans, hfree, hbound, hdone, hstatus⟩ := h'.newCall
  unfold Conn.register
  generalize { c with lastID := id }.newCall = p at *
  obtain ⟨d, r⟩ := p
  dsimp only at *
  have hheap : ∀ call q, q ≠ r → (d.setCall r call).heap q = d.heap q :=
    fun call q hq => Function.update_of_ne hq _ _
  have hself : ∀ call, (d.setCall r call).heap r = call := fun call => Function.update_self _ _ _
  have hne : ∀ {l : List CallRef} {q}, r ∉ l → q ∈ l → q ≠ r := fun hr hq heq => hr (heq ▸ hq)
  constructor
  · intro i q hq
    rcases getElem?_concat_eq_some.mp hq with hq | ⟨rfl, rfl⟩
    · dsimp only
      rw [hheap _ q (hne hlive (List.mem_of_getElem? hq))]
      exact hwf.idx i q hq
    · dsimp only
      rw [hself]
  · exact List.nodup_append.mpr ⟨hwf.unans_nodup, List.nodup_singleton _, fun a ha b hb =>
      List.mem_singleton.mp hb ▸ hne hunans ha⟩
  · exact hwf.free_nodup
  · intro q hq hmem
    rcases List.mem_append.mp hmem with hmem | hmem
    · exact hwf.free_unans q hq hmem
    · exact hne hfree hq (List.mem_singleton.mp hmem)
  · intro q hq hmem
    rcases List.mem_append.mp hmem with hmem | hmem
    · exact hwf.free_live q hq hmem
    · exact hne hfree hq (List.mem_singleton.mp hmem)
  · intro q hq
    change q < d.allocated
    simp only [List.mem_append, List.mem_singleton] at hq
    by_cases heq : q = r
    · exact heq ▸ hbound
    · exact hwf.bound q (by tauto)
  · intro q hq
    rcases List.mem_append.mp hq with hq | hq
    · dsimp only
      rw [hheap _ q (hne hunans hq)]
      exact hwf.unans_clear q hq
    · obtain rfl := List.mem_singleton.mp hq
      rw [hself]
      exact ⟨hdone, hstatus⟩
  · intro q hq
    rw [hheap _ q (hne hfree hq)]
    exact hwf.free_clear q hq
  · intro q hq
    by_cases heq : q = r
    · exact List.mem_append_right _ (List.mem_singleton.mpr heq)
    · dsimp only at hq
      rw [hheap _ q heq] at hq
      exact List.mem_append_left _ (hwf.pending q hq)
  · intro q hq hopen
    by_cases heq : q = r
    · exact List.mem_append_right _ (List.mem_singleton.mpr heq)
    · dsimp only at hopen
      rw [hheap _ q heq] at hopen
      rcases List.mem_append.mp hq with hq | hq
      · exact List.mem_append_left _ (hwf.waiting q hq hopen)
      · exact absurd (List.mem_singleton.mp hq) heq

structure Registered (c : Conn) (id : U32) (r : CallRef) (c' : Conn) : Prop where
  fresh : r ∉ c.live ∧ r ∉ c.unans
  live : c'.live = c.live ++ [r]
  unans : c'.unans = c.unans ++ [r]
  unansRF : c'.unansRF = c.unansRF + c.enc.rf
  asm : c'.asm = c.asm
  call : (c'.heap r).id = id ∧ (c'.heap r).op = c.enc.op ∧ (c'.heap r).rf = c.enc.rf ∧
    (c'.heap r).respMax = c.enc.respMax
  clear : (c'.heap r).done = false ∧ (c'.heap r).status = 0
  heap : ∀ q ≠ r, c'.heap q = c.heap q

theorem newCall_heap {q : CallRef} (hq : q ≠ c.newCall.2) : c.newCall.1.heap q = c.heap q := by
  unfold newCall at hq ⊢
  split at hq
  · rfl
  · exact heap_setCall_of_ne _ hq

theorem Wf.registered (hc : Wf c) (id : U32) : Registered c id (c.register id).2 (c.register id).1 := by
  have h : Wf { c with lastID := id } := { hc with }
  obtain ⟨-, hlive, hunans, -, -, hclear⟩ := h.newCall
  have hheap : ∀ q ≠ ({ c with lastID := id }.newCall).2,
      ({ c with lastID := id }.newCall).1.heap q = c.heap q := fun q hq => newCall_heap hq
  have hkept : ({ c with lastID := id }.newCall).1.live = c.live ∧
      ({ c with lastID := id }.newCall).1.unans = c.unans ∧
      ({ c with lastID := id }.newCall).1.unansRF = c.unansRF ∧
      ({ c with lastID := id }.newCall).1.asm = c.asm := by
    unfold Conn.newCall
    split <;> exact ⟨rfl, rfl, rfl, rfl⟩
  unfold Conn.register
  generalize { c with lastID := id }.newCall = p at *
  obtain ⟨d, r⟩ := p
  dsimp only at *
  obtain ⟨hl, hu, hrf, ha⟩ := hkept
  refine ⟨⟨hl ▸ hlive, hu ▸ hunans⟩, by rw [hl], by rw [hu], by rw [hrf], ha, ?_, ?_, ?_⟩
  · rw [heap_setCall]
    exact ⟨rfl, rfl, rfl, rfl⟩
  · rw [heap_setCall]
    exact hclear
  · intro q hq
    rw [heap_setCall_of_ne _ hq]
    exact hheap q hq

theorem heap_finish (call : Call) : ((c.setCall r call).finish r).heap r = { call with done := true } := by
  simp [Conn.finish, Conn.setCall]

theorem heap_finish_of_ne (call : Call) {q : CallRef} (hq : q ≠ r) :
    ((c.setCall r call).finish r).heap q = c.heap q := by
  simp [Conn.finish, Conn.setCall, hq]

theorem mem_of_head? {l : List CallRef} (h : l.head? = some r) : r ∈ l := by
  cases l with
  | nil => cases h
  | cons a l =>
    cases h
    exact List.mem_cons_self

theorem Wf.setCall (h : Wf c) {call : Call} (hidx : call.idx = (c.heap r).idx)
    (hpending : call.pending = (c.heap r).pending) (hdone : call.done = (c.heap r).done)
    (hstatus : call.status = (c.heap r).status) : Wf (c.setCall r call) := by
  have hheap : ∀ q, ((c.setCall r call).heap q).idx = (c.heap q).idx ∧
      ((c.setCall r call).heap q).pending = (c.heap q).pending ∧
      ((c.setCall r call).heap q).done = (c.heap q).done ∧
      ((c.setCall r call).heap q).status = (c.heap q).status := by
    intro q
    by_cases hq : q = r
    · subst hq
      have hself : (c.setCall q call).heap q = call := Function.update_self _ _ _
      rw [hself]
      exact ⟨hidx, hpending, hdone, hstatus⟩
    · have hother : (c.setCall r call).heap q = c.heap q := Function.update_of_ne hq _ _
      rw [hother]
      exact ⟨rfl, rfl, rfl, rfl⟩
  exact { h with
    idx := fun i q hq => (hheap q).1.trans (h.idx i q hq)
    unans_clear := fun q hq => by
      rw [(hheap q).2.2.1, (hheap q).2.2.2]
      exact h.unans_clear q hq
    free_clear := fun q hq => by
      rw [(hheap q).2.2.1, (hheap q).2.2.2]
      exact h.free_clear q hq
    pending := fun q hq => h.pending q ((hheap q).2.1 ▸ hq)
    waiting := fun q hq hopen => h.waiting q hq ((hheap q).2.2.1 ▸ hopen) }

theorem Wf.setAsm (h : Wf c) (a : Assembly) : Wf (c.setAsm a) := { h with }

theorem Wf.finish (h : Wf c) {call : Call} (hr : c.unans.head? = some r)
    (hidx : call.idx = (c.heap r).idx) (hpending : call.pending = (c.heap r).pending) :
    Wf ((c.setCall r call).finish r) := by
  have hself : ((c.setCall r call).finish r).heap r = { call with done := true } := by
    simp [Conn.finish, Conn.setCall]
  have hother : ∀ q, q ≠ r → ((c.setCall r call).finish r).heap q = c.heap q := by
    intro q hq
    simp [Conn.finish, Conn.setCall, hq]
  obtain ⟨rest, hunans⟩ : ∃ rest, c.unans = r :: rest := by
    cases hc : c.unans with
    | nil =>
      rw [hc] at hr
      cases hr
    | cons a rest =>
      rw [hc] at hr
      exact ⟨rest, by rw [Option.some.inj hr]⟩
  have htail : ((c.setCall r call).finish r).unans = rest := by
    change c.unans.tail = rest
    rw [hunans]
    rfl
  have hnodup := List.nodup_cons.mp (hunans ▸ h.unans_nodup)
  have hrest : ∀ q ∈ rest, q ∈ c.unans := fun q hq => hunans ▸ List.mem_cons_of_mem r hq
  have hr := mem_of_head? hr
  constructor
  · intro i q hq
    by_cases hne : q = r
    · subst hne
      rw [hself]
      exact hidx.trans (h.idx i q hq)
    · rw [hother q hne]
      exact h.idx i q hq
  · exact htail ▸ hnodup.2
  · exact h.free_nodup
  · exact fun q hq hmem => h.free_unans q hq (hrest q (htail ▸ hmem))
  · exact h.free_live
  · intro q hq
    refine h.bound q (hq.imp_right fun hq => hq.imp_left fun hq => hrest q (htail ▸ hq))
  · intro q hq
    rw [htail] at hq
    rw [hother q fun heq => hnodup.1 (heq ▸ hq)]
    exact h.unans_clear q (hrest q hq)
  · intro q hq
    rw [hother q fun heq => h.free_unans q hq (heq ▸ hr)]
    exact h.free_clear q hq
  · intro q hq
    by_cases hne : q = r
    · subst hne
      rw [hself] at hq
      exact h.pending q (hpending ▸ hq)
    · rw [hother q hne] at hq
      exact h.pending q hq
  · intro q hq hopen
    by_cases hne : q = r
    · subst hne
      rw [hself] at hopen
      cases hopen
    · rw [hother q hne] at hopen
      have hmem := h.waiting q hq hopen
      rw [hunans] at hmem
      exact htail ▸ (List.mem_cons.mp hmem).resolve_left hne

variable {k : Cfg} {h : Header} {b body : List Byte} {mode : RxMode} {out : Accepted}

def contBuf (c : Conn) (r : CallRef) (body : List Byte) (mode : RxMode) : Option Slice :=
  if mode = .discard then some (c.heap r).buf else (c.heap r).buf.copyAt c.asm.got body

theorem acceptCont_cases (hout : c.acceptCont k h body mode = some (c', out)) :
    (∃ e, c' = c ∧ out = .fault e) ∨
    (contMatches h c.asm = true ∧ body.length = min (c.asm.total.toNat - c.asm.got) k.chunk ∧
      ((c.unans = [] ∧ out = .more ∧ c' = c.setAsm { c.asm with got := c.asm.got + body.length }) ∨
      ∃ r buf, c.unans.head? = some r ∧ c.contBuf r body mode = some buf ∧
        ((c.asm.got + body.length < c.asm.total.toNat ∧ out = .more ∧
          c' = (c.setCall r { c.heap r with buf := buf }).setAsm
            { c.asm with got := c.asm.got + body.length }) ∨
        (c.asm.total.toNat ≤ c.asm.got + body.length ∧ out = .complete ∧
          c' = (c.setCall r { c.heap r with
            buf := buf, body := if mode = .discard then (c.heap r).body else buf.bytes }).finish r)))) := by
  simp only [acceptCont] at hout
  split at hout
  · cases hout
    exact .inl ⟨_, rfl, rfl⟩
  next hmatch =>
  split at hout
  · cases hout
    exact .inl ⟨_, rfl, rfl⟩
  next hlen =>
  refine .inr ⟨by simpa using hmatch, not_not.mp hlen, ?_⟩
  split at hout
  · next hnone =>
    split at hout <;> cases hout
    exact .inl ⟨List.head?_eq_none_iff.mp hnone, rfl, rfl⟩
  · next r hr =>
    obtain ⟨buf, hbuf, hrest⟩ := Option.map_eq_some_iff.mp hout
    refine .inr ⟨r, buf, hr, hbuf, ?_⟩
    split at hrest
    · next hlt =>
      cases hrest
      exact .inl ⟨hlt, rfl, rfl⟩
    · next hlt =>
      refine .inr ⟨not_lt.mp hlt, ?_⟩
      have hself : ∀ call a, ((c.setCall r call).setAsm a).heap r = call :=
        fun call a => Function.update_self _ _ _
      rw [hself] at hrest
      split at hrest
      · next hmode =>
        cases hrest
        refine ⟨rfl, ?_⟩
        rw [if_pos hmode]
        rfl
      · next hmode =>
        cases hrest
        refine ⟨rfl, ?_⟩
        rw [if_neg hmode]
        simp [Conn.setCall, Conn.setAsm, Conn.finish, Function.update_idem]

theorem statusResponse_cases (c : Conn) (r : CallRef) (h : Header) (body : List Byte) :
    (∃ e, c.statusResponse r h body = (c, .fault e)) ∨
      ∃ msg, callStatusOK h.aux = true ∧ c.statusResponse r h body =
        ((c.setCall r { c.heap r with status := h.aux, msg := msg }).finish r, .complete) := by
  unfold statusResponse
  split
  · exact .inl ⟨_, rfl⟩
  split
  · exact .inl ⟨_, rfl⟩
  next hstatus =>
  split
  · exact .inl ⟨_, rfl⟩
  split
  · exact .inl ⟨_, rfl⟩
  split
  · exact .inl ⟨_, rfl⟩
  · exact .inr ⟨_, Bool.not_eq_false _ ▸ hstatus, rfl⟩

def firstBuf (c : Conn) (r : CallRef) (total : Nat) (body : List Byte) (mode : RxMode) :
    Option Slice :=
  if mode = .discard then some (c.heap r).buf else ((c.heap r).buf.growTo total).copyAt 0 body

theorem acceptFirst_cases (hout : c.acceptFirst k r h body mode = some (c', out)) :
    (k.chunk < h.total.toNat ∧ out = .more ∧ ∃ buf,
      c.firstBuf r h.total.toNat body mode = some buf ∧
      c' = (c.setCall r { c.heap r with flags := h.flags, buf := buf }).setAsm
        ⟨true, h.id, h.total, body.length⟩) ∨
    (h.total.toNat ≤ k.chunk ∧ (out = .held ∨ out = .complete) ∧ ∃ buf body',
      (mode ≠ .discard → body' = body) ∧
      c' = (c.setCall r { c.heap r with flags := h.flags, buf := buf, body := body' }).finish r) := by
  unfold acceptFirst at hout
  split at hout
  · next hlt =>
    obtain ⟨buf, hbuf, heq⟩ := Option.map_eq_some_iff.mp hout
    cases heq
    exact .inl ⟨hlt, rfl, buf, hbuf, rfl⟩
  · next hlt =>
    refine .inr ⟨not_lt.mp hlt, ?_⟩
    split at hout <;> cases hout
    · exact ⟨.inl rfl, _, _, fun _ => rfl, rfl⟩
    · exact ⟨.inr rfl, _, _, fun _ => Slice.fill_bytes k, rfl⟩
    · exact ⟨.inr rfl, _, _, fun hmode => absurd rfl hmode, rfl⟩

theorem Wf.acceptCont (hc : Wf c) (hout : c.acceptCont k h body mode = some (c', out)) : Wf c' := by
  rcases acceptCont_cases hout with ⟨e, rfl, -⟩ | ⟨-, -, ⟨-, -, rfl⟩ | ⟨r, buf, hr, -, hrest⟩⟩
  · exact hc
  · exact hc.setAsm _
  · rcases hrest with ⟨-, -, rfl⟩ | ⟨-, -, rfl⟩
    · apply Wf.setAsm
      exact hc.setCall rfl rfl rfl rfl
    · exact hc.finish hr rfl rfl

theorem Wf.statusResponse (hc : Wf c) (hr : c.unans.head? = some r) :
    Wf (c.statusResponse r h body).1 := by
  rcases statusResponse_cases c r h body with ⟨e, he⟩ | ⟨msg, -, heq⟩
  · rw [he]
    exact hc
  · rw [heq]
    exact hc.finish hr rfl rfl

theorem Wf.acceptFirst (hc : Wf c) (hr : c.unans.head? = some r)
    (hout : c.acceptFirst k r h body mode = some (c', out)) : Wf c' := by
  rcases acceptFirst_cases hout with ⟨-, -, buf, -, rfl⟩ | ⟨-, -, buf, body', -, rfl⟩
  · apply Wf.setAsm
    exact hc.setCall rfl rfl rfl rfl
  · exact hc.finish hr rfl rfl

theorem Wf.acceptFrame (hc : Wf c) (hout : c.acceptFrame k b mode = some (c', out)) : Wf c' := by
  apply acceptFrame_ind (P := fun c' _ => Wf c') hout
  · exact fun _ => hc
  · exact fun _ hcont => hc.acceptCont hcont
  · intro r _ hr hstatus
    rw [show c' = _ from congrArg Prod.fst hstatus]
    exact hc.statusResponse hr
  · exact fun r _ hr _ _ hfirst => hc.acceptFirst hr hfirst

theorem live_acceptFrame (hout : c.acceptFrame k b mode = some (c', out)) : c'.live = c.live := by
  apply acceptFrame_ind (P := fun c' _ => c'.live = c.live) hout
  · exact fun _ => rfl
  · intro _ hcont
    rcases acceptCont_cases hcont with ⟨e, rfl, -⟩ | ⟨-, -, ⟨-, -, rfl⟩ | ⟨r, buf, -, -, hrest⟩⟩
    · rfl
    · rfl
    · rcases hrest with ⟨-, -, rfl⟩ | ⟨-, -, rfl⟩ <;> rfl
  · intro r _ hr hstatus
    rw [show c' = _ from congrArg Prod.fst hstatus]
    rcases statusResponse_cases c r (loadHeader b) (b.drop headerSize) with ⟨e, he⟩ | ⟨msg, -, heq⟩
    · rw [he]
    · rw [heq]
      rfl
  · intro r _ _ _ _ hfirst
    rcases acceptFirst_cases hfirst with ⟨-, -, buf, -, rfl⟩ | ⟨-, -, buf, body', -, rfl⟩ <;> rfl

theorem Wf.held (hc : Wf c) (hr : c.unans.head? = some r)
    (hout : c.acceptFrame k b mode = some (c', .held)) :
    (c'.heap r).done = true ∧ (c'.heap r).status = 0 := by
  have hclear := (hc.unans_clear r (mem_of_head? hr)).2
  apply acceptFrame_ind (P := fun c' out => out = .held → (c'.heap r).done = true ∧
    (c'.heap r).status = 0) hout
  · intro e h
    cases h
  · exact fun _ hcont h => absurd h (acceptCont_ne_held hcont)
  · exact fun r _ _ hstatus h => absurd ((congrArg Prod.snd hstatus).symm.trans h) statusResponse_ne_held
  · intro q _ hq _ _ hfirst _
    obtain rfl := Option.some.inj (hr.symm.trans hq)
    rcases acceptFirst_cases hfirst with ⟨-, hmore, -⟩ | ⟨-, -, buf, body', -, rfl⟩
    · cases hmore
    · rw [heap_finish]
      exact ⟨rfl, hclear⟩
  · rfl

end Conn

end Hqq.Bindgen
