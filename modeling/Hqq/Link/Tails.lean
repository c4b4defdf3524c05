import Mathlib.Data.Multiset.UnionInter

/-!
# The unread tails of messages

`recvRemainder`: a queue of tails, each in a buffer of its own, and a short list of spare buffers.
Every method holds the lock of the queue, so each is one step. A buffer is known by its number, and
its bytes are left out. The slice and its head index are the list of the tails that are left.
-/

namespace Hqq.Tails

structure Buf where
  id : Nat
  cap : Nat
  deriving DecidableEq

structure Tail where
  buf : Buf
  off : Nat
  stop : Nat
  deriving DecidableEq

structure Remainder where
  queue : List Tail
  free : List Buf
  size : Nat
  made : Nat

def maxSpareTails : Nat := 4

def makeBuf (r : Remainder) (n : Nat) : Buf × Remainder :=
  (⟨r.made, max n r.size⟩, { r with made := r.made + 1 })

def getBuf (r : Remainder) (n : Nat) : Buf × Remainder :=
  match r.free with
  | [] => makeBuf r n
  -- A spare that is too small is dropped.
  | b :: rest => if n ≤ b.cap then (b, { r with free := rest }) else makeBuf { r with free := rest } n

def putBuf (r : Remainder) (b : Buf) : Remainder :=
  if r.free.length < maxSpareTails then { r with free := b :: r.free } else r

def store (r : Remainder) (n : Nat) : Remainder :=
  let (b, r') := getBuf r n
  { r' with queue := r'.queue ++ [⟨b, 0, n⟩] }

def read (r : Remainder) (len : Nat) (discard : Bool) : Option (Nat × Remainder) :=
  match r.queue with
  | [] => none
  | t :: rest =>
    let n := min len (t.stop - t.off)
    if discard ∨ t.off + n = t.stop then some (n, putBuf { r with queue := rest } t.buf)
    else some (n, { r with queue := { t with off := t.off + n } :: rest })

def take (r : Remainder) : Option (Tail × Remainder) :=
  match r.queue with
  | [] => none
  | t :: rest => some (t, { r with queue := rest })

def giveBack (r : Remainder) (b : Buf) : Remainder := putBuf r b

/-! ## Every buffer has one place -/

def held (r : Remainder) : Multiset Nat :=
  (r.queue.map fun t => t.buf.id : List Nat) + (r.free.map Buf.id : List Nat)

/-- With the buffers `lent` in the hands of borrowers. -/
structure Sound (r : Remainder) (lent : Multiset Nat) : Prop where
  nodup : (held r + lent).Nodup
  made : ∀ i ∈ held r + lent, i < r.made

variable {r r' : Remainder} {lent : Multiset Nat}

theorem Sound.of_le {lent' : Multiset Nat} (h : Sound r lent) (hle : held r' + lent' ≤ held r + lent)
    (hmade : r'.made = r.made) : Sound r' lent' :=
  ⟨Multiset.nodup_of_le hle h.nodup, fun i hi => hmade ▸ h.made i (Multiset.mem_of_le hle hi)⟩

theorem held_putBuf (r : Remainder) (b : Buf) : held (putBuf r b) ≤ b.id ::ₘ held r := by
  unfold putBuf
  split_ifs
  · apply le_of_eq
    simp only [held, List.map_cons, ← Multiset.cons_coe, Multiset.add_cons]
  · exact Multiset.le_cons_self ..

theorem made_putBuf (r : Remainder) (b : Buf) : (putBuf r b).made = r.made := by
  unfold putBuf
  split_ifs <;> rfl

theorem Sound.giveBack {b : Buf} (h : Sound r (b.id ::ₘ lent)) : Sound (giveBack r b) lent := by
  refine h.of_le ?_ (made_putBuf r b)
  calc held (putBuf r b) + lent ≤ (b.id ::ₘ held r) + lent :=
        Multiset.add_le_add_iff_right.mpr (held_putBuf r b)
    _ = held r + (b.id ::ₘ lent) := by rw [Multiset.cons_add, Multiset.add_cons]

theorem Sound.take {t : Tail} (h : Sound r lent) (ht : take r = some (t, r')) :
    Sound r' (t.buf.id ::ₘ lent) := by
  unfold Tails.take at ht
  split at ht
  · cases ht
  · rename_i t' rest hq
    simp only [Option.some.injEq, Prod.mk.injEq] at ht
    obtain ⟨rfl, rfl⟩ := ht
    refine h.of_le (le_of_eq ?_) rfl
    simp only [held, hq, List.map_cons, ← Multiset.cons_coe, Multiset.cons_add, Multiset.add_cons]

theorem Sound.read {n len : Nat} {discard : Bool} (h : Sound r lent)
    (hr : read r len discard = some (n, r')) : Sound r' lent := by
  unfold Tails.read at hr
  split at hr
  · cases hr
  · rename_i t rest hq
    simp only at hr
    split_ifs at hr <;> simp only [Option.some.injEq, Prod.mk.injEq] at hr <;> obtain ⟨-, rfl⟩ := hr
    · -- The tail is used up, and its buffer becomes a spare.
      have htake : Sound { r with queue := rest } (t.buf.id ::ₘ lent) :=
        h.take (by simp [Tails.take, hq])
      exact htake.giveBack
    · refine h.of_le (le_of_eq ?_) rfl
      simp only [held, hq, List.map_cons]

theorem Sound.makeBuf {n : Nat} {b : Buf} (h : Sound r lent) (hb : makeBuf r n = (b, r')) :
    Sound r' (b.id ::ₘ lent) := by
  simp only [Tails.makeBuf, Prod.mk.injEq] at hb
  obtain ⟨rfl, rfl⟩ := hb
  have hnew : r.made ∉ held r + lent := fun hmem => lt_irrefl _ (h.made _ hmem)
  refine ⟨?_, fun i hi => ?_⟩
  · rw [Multiset.add_cons]
    exact Multiset.nodup_cons.mpr ⟨hnew, h.nodup⟩
  · rw [Multiset.add_cons, Multiset.mem_cons] at hi
    rcases hi with rfl | hi
    · exact Nat.lt_succ_self _
    · exact Nat.lt_succ_of_lt (h.made i hi)

theorem Sound.getBuf {n : Nat} {b : Buf} (h : Sound r lent) (hb : getBuf r n = (b, r')) :
    Sound r' (b.id ::ₘ lent) := by
  unfold Tails.getBuf at hb
  split at hb
  · exact h.makeBuf hb
  · rename_i b' rest hf
    have hdrop : held r = b'.id ::ₘ held { r with free := rest } := by
      simp only [held, hf, List.map_cons, ← Multiset.cons_coe, Multiset.add_cons]
    split_ifs at hb
    · simp only [Prod.mk.injEq] at hb
      obtain ⟨rfl, rfl⟩ := hb
      refine h.of_le (le_of_eq ?_) rfl
      rw [hdrop, Multiset.add_cons, Multiset.cons_add]
    · have hrest : Sound { r with free := rest } lent := by
        refine h.of_le ?_ rfl
        rw [hdrop, Multiset.cons_add]
        exact Multiset.le_cons_self ..
      exact hrest.makeBuf hb

theorem Sound.store (h : Sound r lent) (n : Nat) : Sound (store r n) lent := by
  unfold Tails.store
  generalize hb : Tails.getBuf r n = got
  obtain ⟨b, r'⟩ := got
  refine (h.getBuf hb).of_le (le_of_eq ?_) rfl
  simp only [held, List.map_append, List.map_cons, List.map_nil, ← Multiset.coe_add,
    ← Multiset.cons_coe, Multiset.coe_nil, Multiset.add_cons, Multiset.cons_add, Multiset.add_zero]

theorem Sound.free (h : Sound r lent) : (r.free.map Buf.id).Nodup ∧
    ∀ b ∈ r.free, b.id ∉ r.queue.map (fun t => t.buf.id) ∧ b.id ∉ lent := by
  have hnodup := h.nodup
  rw [held, Multiset.nodup_add, Multiset.nodup_add] at hnodup
  obtain ⟨⟨-, hfree, hqf⟩, -, hlent⟩ := hnodup
  refine ⟨Multiset.coe_nodup.mp hfree, fun b hb => ⟨fun hq => ?_, fun hl => ?_⟩⟩
  · exact Multiset.disjoint_left.mp hqf (Multiset.mem_coe.mpr hq)
      (Multiset.mem_coe.mpr (List.mem_map_of_mem hb))
  · exact Multiset.disjoint_left.mp hlent
      (Multiset.mem_add.mpr (Or.inr (Multiset.mem_coe.mpr (List.mem_map_of_mem hb)))) hl

end Hqq.Tails
