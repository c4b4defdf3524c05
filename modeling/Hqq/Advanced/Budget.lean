import Hqq.Advanced.Spec
import Mathlib.Tactic.SplitIfs

/-!
# The budget holds against any peer

The frames are arbitrary: any operands, any flags, in any order.
-/

namespace Hqq.Advanced

variable {cfg : Config} {env : Env} {s : Rx} {f : Frame} {key k : Key} {a : Assembly}

/-! ## Sizes that pass the checks -/

structure Frame.Sized (cfg : Config) (f : Frame) : Prop where
  inBuffer : f.chunkSize.toNat ≤ f.buffer.length
  inMessage : f.chunkOffset.toNat + f.chunkSize.toNat ≤ f.totalSize.toNat
  notTooLong : f.totalSize ≤ cfg.maxMessageSize
  whenEmpty : f.totalSize = 0 →
    f.flags &&& (advFlagBegin ||| advFlagEnd) = advFlagBegin ||| advFlagEnd
  notEmpty : f.totalSize ≠ 0 → f.chunkSize ≠ 0
  auxFirst : f.chunkOffset ≠ 0 → f.aux = 0
  isInt : f.totalSize.toNat ≤ maxInt64

theorem pos_iff_ne_zero {x : Word} : 0 < x ↔ x ≠ 0 := by
  rw [BitVec.lt_def, ne_eq, ← BitVec.toNat_inj]
  exact Nat.pos_iff_ne_zero

theorem checkSizes_eq_none : checkSizes cfg f = none ↔ f.Sized cfg := by
  have hpos : 0 < cfg.maxMessageSize := pos_iff_ne_zero.mpr cfg.maxMessageSize_ne
  constructor
  · intro h
    unfold checkSizes at h
    split_ifs at h with h1 h2 h3 h4 h5 h6
    simp only [not_or, not_lt, BitVec.not_lt] at h1
    obtain ⟨hbuf, hoff, hchunk⟩ := h1
    rw [BitVec.le_def, BitVec.toNat_sub_of_le hoff] at hchunk
    rw [BitVec.le_def] at hoff
    refine ⟨hbuf, by omega, ?_, ?_, ?_, ?_, by omega⟩
    · exact BitVec.not_lt.mp fun hlt => h2 ⟨hpos, hlt⟩
    · intro hzero
      by_contra hflags
      exact h3 ⟨hzero, .inr (.inr hflags)⟩
    · exact fun hne hzero => h4 ⟨pos_iff_ne_zero.mpr hne, hzero⟩
    · intro hne
      by_contra haux
      exact h5 ⟨hne, haux⟩
  · intro h
    have hoff : f.chunkOffset ≤ f.totalSize := by
      have := h.inMessage
      rw [BitVec.le_def]
      omega
    have hzero : f.totalSize = 0 → f.chunkOffset = 0 ∧ f.chunkSize = 0 := by
      intro hz
      have := h.inMessage
      rw [hz] at this
      constructor <;> apply BitVec.eq_of_toNat_eq <;> simp_all
    unfold checkSizes
    rw [if_neg, if_neg, if_neg, if_neg, if_neg, if_neg]
    · exact not_lt.mpr h.isInt
    · exact fun ⟨hne, haux⟩ => haux (h.auxFirst hne)
    · exact fun ⟨hlt, hz⟩ => h.notEmpty (pos_iff_ne_zero.mp hlt) hz
    · rintro ⟨hz, ho | hc | hfl⟩
      · exact ho (hzero hz).1
      · exact hc (hzero hz).2
      · exact hfl (h.whenEmpty hz)
    · exact fun ⟨_, hlt⟩ => BitVec.not_lt.mpr h.notTooLong hlt
    · rintro (hb | ho | hc)
      · exact absurd h.inBuffer (not_le.mpr hb)
      · exact BitVec.not_lt.mpr hoff ho
      · rw [BitVec.lt_def, BitVec.toNat_sub_of_le hoff] at hc
        have := h.inMessage
        omega

/-! ## Buffers from the pool -/

theorem classOf_le_iff {n c : Nat} : classOf n ≤ c ↔ n ≤ 2 ^ (c + minMessageClass) := by
  unfold classOf len64
  split_ifs with h h0
  · have : 2 ^ minMessageClass ≤ 2 ^ (c + minMessageClass) := Nat.pow_le_pow_right (by omega) (by omega)
    exact ⟨fun _ => h.trans this, fun _ => Nat.zero_le c⟩
  · simp only [minMessageClass] at h
    omega
  · have hlog := Nat.log2_lt (k := c + minMessageClass) h0
    omega

theorem classOf_mono {m n : Nat} (h : m ≤ n) : classOf m ≤ classOf n :=
  classOf_le_iff.mpr (h.trans (classOf_le_iff.mp le_rfl))

variable (env) in
/-- A buffer for a message that passed the size checks exists and is large enough. -/
theorem poolGet_eq {n : Nat} (hmax : n ≤ cfg.maxMessageSize.toNat) (hint : n ≤ maxInt64) :
    ∃ m, poolGet cfg env n = some m ∧ m.n = n ∧ m.off = 0 ∧ m.msgMeta = MsgMeta.none ∧
      n ≤ m.data.length := by
  have htop : classOf n ≤ topClass cfg := classOf_mono (by omega)
  have hclass : classOf n ≤ 57 := classOf_le_iff.mpr (by
    simp only [maxInt64, minMessageClass] at *
    omega)
  have hsize : n ≤ classSize cfg (classOf n) := by
    have hpow : 2 ^ (classOf n + minMessageClass) < 2 ^ 64 :=
      Nat.pow_lt_pow_right (by omega) (by simp only [minMessageClass]; omega)
    have hfit := classOf_le_iff.mp (le_refl (classOf n))
    unfold classSize
    rw [Nat.mod_eq_of_lt hpow]
    exact le_min hfit hmax
  refine ⟨_, by rw [poolGet, if_pos htop], rfl, rfl, rfl, ?_⟩
  simpa using hsize

structure Assembly.Sound (a : Assembly) : Prop where
  next_le : a.next ≤ a.size
  size_le : a.size.toNat ≤ a.msg.data.length
  isInt : a.size.toNat ≤ maxInt64
  length : a.msg.n = a.size.toNat

def Assembly.charged (a : Assembly) : Nat := a.size.toNat + advancedAssemblyOverhead.toNat

theorem toNat_overhead : advancedAssemblyOverhead.toNat = 256 := rfl

theorem toNat_charge {size : Word} (h : size.toNat ≤ maxInt64) :
    (size + advancedAssemblyOverhead).toNat = size.toNat + advancedAssemblyOverhead.toNat := by
  simp only [maxInt64] at h
  rw [BitVec.toNat_add, toNat_overhead]
  omega

structure RxInv (cfg : Config) (s : Rx) : Prop where
  bytes : s.assemblyBytes.toNat = s.assemblies.total Assembly.charged
  bounded : s.assemblyBytes ≤ cfg.maxReassemblyBytes
  sound : ∀ k a, s.assemblies.lookup k = some a → a.Sound
  rejected : s.rejected = s.rejectedOrder.toFinset
  nodup : s.rejectedOrder.Nodup
  few : s.rejectedOrder.length ≤ maxRejectedMessages
  apart : ∀ k, (s.assemblies.lookup k).isSome → ¬ s.isRejected k

theorem RxInv.fresh : RxInv cfg Rx.fresh where
  bytes := rfl
  bounded := Nat.zero_le _
  sound k a h := by simp [Rx.fresh] at h
  rejected := rfl
  nodup := .nil
  few := Nat.zero_le _
  apart k h := by simp [Rx.fresh] at h

/-! ## What each operation changes -/

theorem store_assemblies : (s.store key a).assemblies = s.assemblies.insert key a := rfl

theorem lookup_store :
    (s.store key a).assemblies.lookup k = if k = key then some a else s.assemblies.lookup k := by
  split_ifs with h
  · exact h ▸ AList.lookup_insert _
  · exact AList.lookup_insert_ne h

theorem store_store {b : Assembly} : (s.store key a).store key b = s.store key b := by
  simp [Rx.store]

theorem lookup_dropAssembly :
    (s.dropAssembly key).assemblies.lookup k =
      if k = key then none else s.assemblies.lookup k := by
  unfold Rx.dropAssembly
  split
  · split_ifs with h
    · exact h ▸ AList.lookup_erase _ _
    · exact AList.lookup_erase_ne h
  · split_ifs with h
    · subst h
      assumption
    · rfl

@[simp] theorem dropAssembly_rejected : (s.dropAssembly key).rejected = s.rejected := by
  unfold Rx.dropAssembly
  split <;> rfl

@[simp] theorem dropAssembly_rejectedOrder :
    (s.dropAssembly key).rejectedOrder = s.rejectedOrder := by
  unfold Rx.dropAssembly
  split <;> rfl

@[simp] theorem dropAssembly_rejectedEvicted :
    (s.dropAssembly key).rejectedEvicted = s.rejectedEvicted := by
  unfold Rx.dropAssembly
  split <;> rfl

@[simp] theorem dropAssembly_reclaimed : (s.dropAssembly key).reclaimed = s.reclaimed := by
  unfold Rx.dropAssembly
  split <;> rfl

theorem dropAssembly_of_none (h : s.assemblies.lookup key = none) : s.dropAssembly key = s := by
  simp only [Rx.dropAssembly, h]

@[simp] theorem forgetRejected_assemblies : (s.forgetRejected key).assemblies = s.assemblies := by
  unfold Rx.forgetRejected
  split <;> rfl

@[simp] theorem forgetRejected_rejectedEvicted :
    (s.forgetRejected key).rejectedEvicted = s.rejectedEvicted := by
  unfold Rx.forgetRejected
  split <;> rfl

@[simp] theorem forgetRejected_reclaimed : (s.forgetRejected key).reclaimed = s.reclaimed := by
  unfold Rx.forgetRejected
  split <;> rfl

theorem isRejected_forgetRejected :
    (s.forgetRejected key).isRejected k ↔ k ≠ key ∧ s.isRejected k := by
  unfold Rx.forgetRejected
  split_ifs with h
  · exact Finset.mem_erase
  · exact ⟨fun hk => ⟨fun he => h (he ▸ hk), hk⟩, fun hk => hk.2⟩

@[simp] theorem rejectMessage_assemblies : (s.rejectMessage k).assemblies = s.assemblies := by
  unfold Rx.rejectMessage
  split <;> rfl

@[simp] theorem rejectMessage_reclaimed : (s.rejectMessage key).reclaimed = s.reclaimed := by
  unfold Rx.rejectMessage
  split <;> rfl

theorem isRejected_rejectMessage_self : (s.rejectMessage key).isRejected key := by
  unfold Rx.rejectMessage
  split <;> exact Finset.mem_insert_self _ _

theorem of_isRejected_rejectMessage (h : (s.rejectMessage key).isRejected k) :
    k = key ∨ s.isRejected k := by
  unfold Rx.rejectMessage at h
  split at h
  · refine (Finset.mem_insert.mp h).imp_right fun hk => ?_
    cases hhead : s.rejectedOrder.head? with
    | none => simpa [Rx.isRejected, hhead] using hk
    | some k0 =>
      rw [hhead] at hk
      exact Finset.mem_of_mem_erase hk
  · exact Finset.mem_insert.mp h

/-- A refused key stays, or the code knows that one was pushed out. -/
theorem isRejected_rejectMessage (h : s.isRejected k ∨ s.rejectedEvicted = true) :
    (s.rejectMessage key).isRejected k ∨ (s.rejectMessage key).rejectedEvicted = true := by
  unfold Rx.rejectMessage
  split
  · exact .inr rfl
  · exact h.imp_left Finset.mem_insert_of_mem

@[simp] theorem reclaim_assemblies :
    (s.reclaim key a).assemblies = (s.dropAssembly key).assemblies := by
  simp only [Rx.reclaim]
  split <;> exact rejectMessage_assemblies

theorem RxInv.withChunks (h : RxInv cfg s) (n : Word) : RxInv cfg { s with chunks := n } :=
  ⟨h.bytes, h.bounded, h.sound, h.rejected, h.nodup, h.few, h.apart⟩

theorem RxInv.toNat_charge_of (h : RxInv cfg s) (ha : s.assemblies.lookup key = some a) :
    a.charge.toNat = a.charged :=
  toNat_charge (h.sound key a ha).isInt

theorem RxInv.dropAssembly_bytes (h : RxInv cfg s) (ha : s.assemblies.lookup key = some a) :
    (s.dropAssembly key).assemblyBytes.toNat + a.charged = s.assemblyBytes.toNat := by
  have hc := h.toNat_charge_of ha
  have hb := h.bytes
  rw [Table.total_erase ha] at hb
  have hle : a.charge ≤ s.assemblyBytes := by
    rw [BitVec.le_def]
    omega
  have hdrop : (s.dropAssembly key).assemblyBytes = s.assemblyBytes - a.charge := by
    simp only [Rx.dropAssembly, ha]
  rw [hdrop, BitVec.toNat_sub_of_le hle, hc]
  omega

theorem RxInv.dropAssembly (h : RxInv cfg s) (key : Key) : RxInv cfg (s.dropAssembly key) := by
  cases ha : s.assemblies.lookup key with
  | none => rwa [dropAssembly_of_none ha]
  | some a =>
    have hb := h.dropAssembly_bytes ha
    have hsome {k : Key} {a : Assembly} (hk : (s.dropAssembly key).assemblies.lookup k = some a) :
        s.assemblies.lookup k = some a := by
      rw [lookup_dropAssembly] at hk
      split_ifs at hk with hne
      exact hk
    refine ⟨?_, ?_, fun k a hk => h.sound k a (hsome hk), ?_, ?_, ?_, ?_⟩
    · have ht := h.bytes
      rw [Table.total_erase ha] at ht
      have herase : (s.dropAssembly key).assemblies = s.assemblies.erase key := by
        simp only [Rx.dropAssembly, ha]
      rw [herase]
      omega
    · have := h.bounded
      rw [BitVec.le_def] at *
      omega
    · simpa using h.rejected
    · simpa using h.nodup
    · simpa using h.few
    · intro k hk
      obtain ⟨a, hk⟩ := Option.isSome_iff_exists.mp hk
      have := h.apart k (by rw [hsome hk]; rfl)
      simpa [Rx.isRejected] using this

theorem RxInv.forgetRejected (h : RxInv cfg s) (key : Key) : RxInv cfg (s.forgetRejected key) := by
  unfold Rx.forgetRejected
  split_ifs with hr
  · refine ⟨h.bytes, h.bounded, h.sound, ?_, h.nodup.erase key, ?_, ?_⟩
    · rw [h.rejected]
      ext k
      simp [h.nodup.mem_erase_iff]
    · exact (List.length_erase_le).trans h.few
    · exact fun k hk hin => h.apart k hk (Finset.mem_of_mem_erase hin)
  · exact h

/-- A refused key is new, and an old one makes room for it in time. -/
theorem RxInv.rejectMessage (h : RxInv cfg s) (hlive : s.assemblies.lookup key = none)
    (hnew : ¬ s.isRejected key) : RxInv cfg (s.rejectMessage key) := by
  have hout : key ∉ s.rejectedOrder := by
    rw [← List.mem_toFinset, ← h.rejected]
    exact hnew
  unfold Rx.rejectMessage
  split_ifs with hfull
  · cases horder : s.rejectedOrder with
    | nil => simp [horder, maxRejectedMessages] at hfull
    | cons k0 rest =>
      have hn := h.nodup
      rw [horder] at hn hout
      have hsub : ∀ k ∈ s.rejected.erase k0, k ∈ s.rejected := fun k => Finset.mem_of_mem_erase
      refine ⟨h.bytes, h.bounded, h.sound, ?_, ?_, ?_, ?_⟩
      · rw [h.rejected, horder]
        ext k
        have : k ∈ rest → k ≠ k0 := fun hk he => (List.nodup_cons.mp hn).1 (he ▸ hk)
        simp
        tauto
      · exact hn.of_cons.append (List.nodup_singleton key)
          (List.disjoint_singleton.mpr fun hin => hout (List.mem_cons_of_mem _ hin))
      · have := h.few
        simp [horder] at this ⊢
        omega
      · intro k hk hin
        rcases Finset.mem_insert.mp hin with rfl | hin
        · simp [hlive] at hk
        · exact h.apart k hk (hsub k hin)
  · refine ⟨h.bytes, h.bounded, h.sound, ?_, ?_, ?_, ?_⟩
    · rw [h.rejected]
      ext k
      simp
    · exact h.nodup.append (List.nodup_singleton key) (List.disjoint_singleton.mpr hout)
    · simp
      omega
    · intro k hk hin
      rcases Finset.mem_insert.mp hin with rfl | hin
      · simp [hlive] at hk
      · exact h.apart k hk hin

theorem RxInv.reclaim (h : RxInv cfg s) (ha : s.assemblies.lookup key = some a) :
    RxInv cfg (s.reclaim key a) := by
  have hgone : (s.dropAssembly key).assemblies.lookup key = none := by
    rw [lookup_dropAssembly, if_pos rfl]
  have hnew : ¬ (s.dropAssembly key).isRejected key := by
    have := h.apart key (by rw [ha]; rfl)
    simpa [Rx.isRejected] using this
  have hr := (h.dropAssembly key).rejectMessage hgone hnew
  simp only [Rx.reclaim]
  split_ifs
  · exact ⟨hr.bytes, hr.bounded, hr.sound, hr.rejected, hr.nodup, hr.few, hr.apart⟩
  · exact hr

/-- What holds before a sweep and through each reclaim holds after it. -/
theorem sweep_invariant {P : Rx → Prop} {charge : Word}
    (hreclaim : ∀ s key a, P s → s.assemblies.lookup key = some a → P (s.reclaim key a)) :
    ∀ (keys : List Key) (s : Rx), P s → P (s.sweep cfg charge keys) := by
  intro keys
  induction keys with
  | nil => exact fun s hs => hs
  | cons key keys ih =>
    intro s hs
    unfold Rx.sweep
    split
    · exact hs
    · split
      · rename_i a ha
        split
        · exact ih _ (hreclaim s key a hs ha)
        · exact ih s hs
      · exact ih s hs

theorem reclaimIdle_invariant {P : Rx → Prop} {charge : Word}
    (hreclaim : ∀ s key a, P s → s.assemblies.lookup key = some a → P (s.reclaim key a))
    (hswept : ∀ s n, P s → P { s with chunksAtSweep := n }) (hs : P s) :
    P (s.reclaimIdle cfg env charge) := by
  unfold Rx.reclaimIdle
  split
  · exact hs
  · split
    · exact hs
    · exact sweep_invariant hreclaim _ _ (hswept s s.chunks hs)

variable (env) in
theorem RxInv.reclaimIdle (h : RxInv cfg s) (charge : Word) :
    RxInv cfg (s.reclaimIdle cfg env charge) :=
  reclaimIdle_invariant (fun _ _ _ hs ha => hs.reclaim ha)
    (fun _ _ hs => ⟨hs.bytes, hs.bounded, hs.sound, hs.rejected, hs.nodup, hs.few, hs.apart⟩) h

variable (cfg env) in
theorem reclaimIdle_absent (charge : Word) (hlive : s.assemblies.lookup key = none)
    (hnew : ¬ s.isRejected key) :
    (s.reclaimIdle cfg env charge).assemblies.lookup key = none ∧
      ¬ (s.reclaimIdle cfg env charge).isRejected key := by
  refine reclaimIdle_invariant (P := fun s => s.assemblies.lookup key = none ∧ ¬ s.isRejected key)
    ?_ (fun _ _ hs => hs) ⟨hlive, hnew⟩
  rintro s k a ⟨hl, hn⟩ ha
  have hne : key ≠ k := by
    rintro rfl
    rw [hl] at ha
    cases ha
  constructor
  · rw [reclaim_assemblies, lookup_dropAssembly, if_neg hne, hl]
  · intro hrej
    have hrej : ((s.dropAssembly k).rejectMessage k).isRejected key := by
      unfold Rx.reclaim at hrej
      split at hrej <;> exact hrej
    rcases of_isRejected_rejectMessage hrej with he | hold
    · exact hne he
    · exact hn (by simpa [Rx.isRejected] using hold)

theorem RxInv.fail (h : RxInv cfg s) (key : Key) (e : Err) : RxInv cfg (s.fail key e).1 :=
  (h.dropAssembly key).forgetRejected key

theorem RxInv.abort (h : RxInv cfg s) (f : Frame) : RxInv cfg (s.abort f).1 := by
  simp only [Rx.abort]
  split_ifs
  · exact (h.dropAssembly f.key).forgetRejected f.key
  · exact h.dropAssembly f.key

theorem RxInv.orphan (h : RxInv cfg s) (f : Frame) : RxInv cfg (s.orphan f).1 := by
  unfold Rx.orphan
  split_ifs
  · exact h.forgetRejected f.key
  · exact h
  · exact h

theorem RxInv.replace {a' : Assembly} (h : RxInv cfg s) (ha : s.assemblies.lookup key = some a)
    (hsize : a'.size = a.size) (hsound : a'.Sound) :
    RxInv cfg (s.store key a') := by
  refine ⟨?_, h.bounded, ?_, h.rejected, h.nodup, h.few, ?_⟩
  · have hsame : a'.charged = a.charged := by rw [Assembly.charged, hsize, Assembly.charged]
    rw [store_assemblies, Table.total_insert_same ha hsame]
    exact h.bytes
  · intro k b hb
    rw [lookup_store] at hb
    split_ifs at hb with hk
    · exact Option.some.inj hb ▸ hsound
    · exact h.sound k b hb
  · intro k hk
    refine h.apart k ?_
    rw [lookup_store] at hk
    split_ifs at hk with he
    · rw [he, ha]
      rfl
    · exact hk

theorem RxInv.insert (h : RxInv cfg s) (hlive : s.assemblies.lookup key = none)
    (hnew : ¬ s.isRejected key) (hsound : a.Sound) (hcharge : a.charge ≤ cfg.maxReassemblyBytes)
    (hfits : s.Fits cfg a.charge) :
    RxInv cfg { s.store key a with assemblyBytes := s.assemblyBytes + a.charge } := by
  have hc : a.charge.toNat = a.charged := toNat_charge hsound.isInt
  have hroom : s.assemblyBytes.toNat + a.charge.toNat ≤ cfg.maxReassemblyBytes.toNat := by
    unfold Rx.Fits at hfits
    rw [BitVec.le_def, BitVec.toNat_sub_of_le hcharge] at hfits
    rw [BitVec.le_def] at hcharge
    omega
  have hsum : (s.assemblyBytes + a.charge).toNat = s.assemblyBytes.toNat + a.charge.toNat := by
    rw [BitVec.toNat_add]
    exact Nat.mod_eq_of_lt (lt_of_le_of_lt hroom cfg.maxReassemblyBytes.isLt)
  refine ⟨?_, ?_, ?_, h.rejected, h.nodup, h.few, ?_⟩
  · rw [hsum, hc, h.bytes, Nat.add_comm, store_assemblies, Table.total_insert_new hlive]
  · rw [BitVec.le_def, hsum]
    exact hroom
  · intro k b hb
    rw [lookup_store] at hb
    split_ifs at hb with hk
    · exact Option.some.inj hb ▸ hsound
    · exact h.sound k b hb
  · intro k hk
    have hk : ((s.store key a).assemblies.lookup k).isSome := hk
    rw [lookup_store] at hk
    split_ifs at hk with he
    · exact he ▸ hnew
    · exact h.apart k hk

theorem finish_isSome {m : Message} (recvAt : Nat) (h : m.n ≤ m.data.length) :
    ∃ r, m.finish recvAt = some r := by
  unfold Message.finish
  split
  · simp [Message.stripMeta, slice_zero h]
  · exact ⟨_, rfl⟩

def Assembly.grown (a : Assembly) (chunks : Word) (f : Frame) : Assembly :=
  { a with
    seen := chunks
    next := a.next + f.chunkSize
    msg := { a.msg with
      data := a.msg.data.take f.chunkOffset.toNat ++ f.buffer.take f.chunkSize.toNat ++
        a.msg.data.drop (f.chunkOffset.toNat + f.chunkSize.toNat) } }

theorem put_eq (hs : a.Sound) (hf : f.Sized cfg) (hsize : a.size = f.totalSize) (chunks : Word) :
    { a with seen := chunks }.put f = some (a.grown chunks f) := by
  have hsl := hs.size_le
  have hin := hf.inMessage
  have hlen : (f.buffer.take f.chunkSize.toNat).length = f.chunkSize.toNat := by
    rw [List.length_take]
    exact min_eq_left hf.inBuffer
  rw [hsize] at hsl
  simp only [Assembly.put, slice_zero hf.inBuffer]
  rw [Option.bind_eq_bind, Option.bind_some, copyTo_eq (by omega) (by omega) (by omega), hlen]
  rfl

theorem grown_next (hf : f.Sized cfg) (hnext : f.chunkOffset = a.next) (chunks : Word) :
    (a.grown chunks f).next.toNat = f.chunkOffset.toNat + f.chunkSize.toNat := by
  have hin := hf.inMessage
  have := f.totalSize.isLt
  simp only [Assembly.grown, ← hnext, BitVec.toNat_add]
  omega

theorem Assembly.Sound.grown (hs : a.Sound) (hf : f.Sized cfg) (hnext : f.chunkOffset = a.next)
    (hsize : a.size = f.totalSize) (chunks : Word) : (a.grown chunks f).Sound := by
  have hin := hf.inMessage
  refine ⟨?_, ?_, hs.isInt, hs.length⟩
  · rw [BitVec.le_def, grown_next hf hnext]
    simp only [Assembly.grown, hsize]
    exact hin
  · have hsl := hs.size_le
    have := hf.inBuffer
    rw [hsize] at hsl
    simp only [Assembly.grown, List.length_append, List.length_take, List.length_drop, hsize]
    omega

theorem append_eq (hs : a.Sound) (hf : f.Sized cfg) (hnext : f.chunkOffset = a.next)
    (hsize : a.size = f.totalSize) :
    s.append f a =
      let a' := a.grown s.chunks f
      let s' := s.store f.key a'
      if ¬ Has f.flags advFlagEnd then some (s', .ok .chunkPartial)
      else if a'.next ≠ f.totalSize then some (s'.fail f.key .invalidSize)
      else (a'.message.finish a.recvAt).map (s'.dropAssembly f.key, ·) := by
  have hgood : ¬ (f.chunkOffset ≠ a.next ∨ a.size ≠ f.totalSize) := by
    simp only [hnext, hsize, ne_eq, not_true_eq_false, or_self, not_false_eq_true]
  simp only [Rx.append]
  rw [if_neg hgood, put_eq hs hf hsize, Option.bind_eq_bind, Option.bind_some, store_store]
  rfl

theorem RxInv.append (h : RxInv cfg s) (hf : f.Sized cfg)
    (ha : s.assemblies.lookup f.key = some a) : ∃ r, s.append f a = some r ∧ RxInv cfg r.1 := by
  have hs := h.sound f.key a ha
  by_cases hgood : f.chunkOffset = a.next ∧ a.size = f.totalSize
  · obtain ⟨hnext, hsize⟩ := hgood
    have hs' := hs.grown hf hnext hsize s.chunks
    have hstore : RxInv cfg (s.store f.key (a.grown s.chunks f)) := h.replace ha rfl hs'
    rw [append_eq hs hf hnext hsize]
    dsimp only
    split
    · exact ⟨_, rfl, hstore⟩
    · split
      · exact ⟨_, rfl, hstore.fail f.key _⟩
      · obtain ⟨r, hr⟩ := finish_isSome (m := (a.grown s.chunks f).message) a.recvAt
          (hs'.length.le.trans hs'.size_le)
        exact ⟨_, by rw [hr]; rfl, hstore.dropAssembly f.key⟩
  · have hbad : f.chunkOffset ≠ a.next ∨ a.size ≠ f.totalSize := by tauto
    simp only [Rx.append]
    rw [if_pos hbad]
    refine ⟨_, rfl, RxInv.fail ?_ f.key _⟩
    exact h.replace ha rfl ⟨hs.next_le, hs.size_le, hs.isInt, hs.length⟩

variable (env s) in
theorem single_eq (hf : f.Sized cfg) (hall : f.chunkSize = f.totalSize) :
    ∃ m : Message, m.header = f.header ∧ m.n = f.totalSize.toNat ∧ m.off = 0 ∧
      m.msgMeta = MsgMeta.none ∧ m.n ≤ m.data.length ∧
      m.data.take m.n = f.buffer.take f.totalSize.toNat ∧
      s.single cfg env f = (m.finish (f.recvAt env)).map (s, ·) := by
  obtain ⟨m, hm, hn, hoff, hmeta, hlen⟩ := poolGet_eq env hf.notTooLong hf.isInt
  have hbuf : f.totalSize.toNat ≤ f.buffer.length := hall ▸ hf.inBuffer
  have htake : (f.buffer.take f.totalSize.toNat).length = f.totalSize.toNat := by
    rw [List.length_take]
    exact min_eq_left hbuf
  refine ⟨{ m with
    header := f.header
    data := m.data.take 0 ++ f.buffer.take f.totalSize.toNat ++
      m.data.drop (0 + (f.buffer.take f.totalSize.toNat).length) }, rfl, hn, hoff, hmeta, ?_, ?_, ?_⟩
  · simp only [hn, List.length_append, htake]
    omega
  · simp only [hn, List.take_zero, List.nil_append]
    exact List.take_left' htake
  · unfold Rx.single
    rw [if_neg (not_not.mpr hall), hm, hall, slice_zero hbuf]
    simp only [Option.bind_eq_bind, Option.bind_some]
    rw [copyTo_eq (Nat.zero_le _) le_rfl (by omega)]
    rfl

theorem RxInv.single (h : RxInv cfg s) (hf : f.Sized cfg) :
    ∃ r, s.single cfg env f = some r ∧ RxInv cfg r.1 := by
  by_cases hall : f.chunkSize = f.totalSize
  · obtain ⟨m, -, -, -, -, hlen, -, hm⟩ := single_eq env s hf hall
    obtain ⟨r, hr⟩ := finish_isSome (f.recvAt env) hlen
    exact ⟨_, by rw [hm, hr]; rfl, h⟩
  · unfold Rx.single
    rw [if_pos hall]
    exact ⟨_, rfl, h.fail f.key _⟩

theorem RxInv.start (h : RxInv cfg s) (hf : f.Sized cfg)
    (hlive : s.assemblies.lookup f.key = none) (hnew : ¬ s.isRejected f.key) :
    ∃ r, s.start cfg env f = some r ∧ RxInv cfg r.1 := by
  have hc := h.reclaimIdle env (f.totalSize + advancedAssemblyOverhead)
  obtain ⟨hlive', hnew'⟩ := reclaimIdle_absent cfg env (f.totalSize + advancedAssemblyOverhead)
    hlive hnew
  simp only [Rx.start]
  generalize s.reclaimIdle cfg env (f.totalSize + advancedAssemblyOverhead) = s' at *
  split_ifs with hroom
  · exact ⟨_, rfl, hc.rejectMessage hlive' hnew'⟩
  · simp only [not_or, not_not, BitVec.not_lt] at hroom
    obtain ⟨m, hm, hn, -, -, hlen⟩ := poolGet_eq env hf.notTooLong hf.isInt
    have ha : Assembly.Sound ⟨f.assemblyHeader, m, f.totalSize, 0, 0, f.recvAt env⟩ :=
      ⟨Nat.zero_le _, hlen, hf.isInt, hn⟩
    rw [hm, Option.bind_eq_bind, Option.bind_some]
    refine RxInv.append (hc.insert hlive' hnew' ha hroom.1 hroom.2) hf ?_
    exact lookup_store.trans (if_pos rfl)

theorem consumeAdvancedChunk_some (h : RxInv cfg s) (env : Env) (f : Frame) :
    ∃ r, consumeAdvancedChunk cfg env s f = some r ∧ RxInv cfg r.1 := by
  have hc := h.withChunks (s.chunks + 1)
  unfold consumeAdvancedChunk
  dsimp only
  split
  · exact ⟨_, rfl, hc⟩
  split
  · exact ⟨_, rfl, hc.abort f⟩
  split
  · exact ⟨_, rfl, hc.fail f.key _⟩
  rename_i hsizes
  have hf := checkSizes_eq_none.mp hsizes
  split
  · split
    · exact ⟨_, rfl, hc.fail f.key _⟩
    · rename_i hfree
      simp only [not_or, Option.isSome_iff_ne_none, ne_eq, not_not] at hfree
      split
      · exact hc.single hf
      · exact hc.start hf hfree.2.1 hfree.2.2
  · split
    · rename_i a ha
      exact hc.append hf ha
    · exact ⟨_, rfl, hc.orphan f⟩

theorem RxInv.of_step {act : RxAct} {s' : Rx} (h : RxInv cfg s) (hstep : rxStep cfg s act = some s') :
    RxInv cfg s' := by
  cases act with
  | frame env f =>
    obtain ⟨r, hr, hinv⟩ := consumeAdvancedChunk_some h env f
    simp only [rxStep, hr, Option.map_some, Option.some.injEq] at hstep
    exact hstep ▸ hinv
  | report =>
    simp only [rxStep, Option.some.injEq] at hstep
    subst hstep
    exact ⟨h.bytes, h.bounded, h.sound, h.rejected, h.nodup, h.few, h.apart⟩

theorem RxInv.of_reachable (h : (rxMachine cfg).Reachable s) : RxInv cfg s :=
  h.invariant RxInv.fresh fun _ _ _ _ hs _ hstep => hs.of_step hstep

structure NoWrap (cfg : Config) (s : Rx) : Prop where
  announced : ∀ f, checkSizes cfg f = none →
    (f.totalSize + advancedAssemblyOverhead).toNat =
      f.totalSize.toNat + advancedAssemblyOverhead.toNat
  charge : ∀ k a, s.assemblies.lookup k = some a → a.charge.toNat = a.charged
  release : ∀ k a, s.assemblies.lookup k = some a →
    (s.dropAssembly k).assemblyBytes.toNat + a.charged = s.assemblyBytes.toNat

/-- Whatever the peer sends, the receiver keeps its books, and no frame makes it panic. -/
theorem reassembly_within_budget (opts : Options) (s : Rx)
    (h : (rxMachine (newAdvancedLink opts)).Reachable s) :
    RxInv (newAdvancedLink opts) s ∧ NoWrap (newAdvancedLink opts) s ∧
      ∀ env f, ∃ r, consumeAdvancedChunk (newAdvancedLink opts) env s f = some r ∧
        RxInv (newAdvancedLink opts) r.1 := by
  have hs := RxInv.of_reachable h
  refine ⟨hs, ⟨?_, ?_, ?_⟩, consumeAdvancedChunk_some hs⟩
  · intro f hf
    exact toNat_charge (checkSizes_eq_none.mp hf).isInt
  · exact fun k a => hs.toNat_charge_of
  · exact fun k a => hs.dropAssembly_bytes

def openingFrame (messageID size : Word) : Frame := ⟨0, messageID, size, 0, 1, advFlagBegin, 0, [7]⟩

def plainEnv : Env := ⟨[], fun _ => 0, 0⟩

/-- One message is live, a second one found no room. -/
theorem reassembly_within_budget_refusing :
    ∃ s, (rxMachine (newAdvancedLink ⟨0, 1000, false⟩)).Reachable s ∧
      (s.assemblies.keys.length = 1 ∧ s.rejectedOrder.length = 1) ∧
      RxInv (newAdvancedLink ⟨0, 1000, false⟩) s :=
  Machine.exists_reachable_and
    [.frame plainEnv (openingFrame 1 100), .frame plainEnv (openingFrame 2 600)]
    (by decide +kernel) fun s hs _ => (reassembly_within_budget _ s hs).1

end Hqq.Advanced
