import Hqq.Listener.Record
import Hqq.Superblock.Regions

/-!
# Names and records in Go and in C

The functions of `hqq_listener.c` next to those of Go.
-/

namespace Hqq.Listener

open Regions

def scopes : List (List Byte) := [[71, 108, 111, 98, 97, 108, 92], [76, 111, 99, 97, 108, 92]]

def stemLen : Nat := 12

def foldByte (a b : Byte) : Bool :=
  let (lo, hi) := if b < a then (b, a) else (a, b)
  a == b || (decide (65 ≤ lo) && decide (lo ≤ 90) && hi == lo + 32)

/-- `strings.EqualFold` for a `t` in ASCII. Of the runes that are not, only the Kelvin sign and the
long s fold to one that is. -/
def equalFold : List Byte → List Byte → Bool
  | [], t => t.isEmpty
  | _ :: _, [] => false
  | a :: s, b :: t =>
    if a < 128 then foldByte a b && equalFold s t
    else match s with
      | [] => false
      | x :: s =>
        if a = 0xc5 ∧ x = 0xbf then (b == 83 || b == 115) && equalFold s t
        else match s with
          | [] => false
          | y :: s => a == 0xe2 && x == 0x84 && y == 0xaa && (b == 75 || b == 107) && equalFold s t

def splitScope (name : List Byte) : List (List Byte) → List Byte × List Byte
  | [] => ([], name)
  | p :: ps =>
    if p.length < name.length ∧ equalFold (name.take p.length) p then
      (name.take p.length, name.drop p.length)
    else splitScope name ps

def stemByte (c : Byte) : Byte :=
  if (97 ≤ c ∧ c ≤ 122) ∨ (65 ≤ c ∧ c ≤ 90) ∨ (48 ≤ c ∧ c ≤ 57) ∨ c = 95 ∨ c = 45 then c else 95

def trimSlash (s : List Byte) : List Byte := if s.head? = some 47 then s.tail else s

def listenerLinkPrefix (name : List Byte) : List Byte :=
  let (scope, rest) := splitScope name scopes
  scope ++ ((trimSlash rest).take stemLen).map stemByte ++ [46]

def lsnNameMax : Nat := 184

def lsnPrefixMax : Nat := 32

def lsnStemMax : Nat := 12

def strlen (s : List Byte) : Nat := (s.takeWhile (· != 0)).length

def lsnLower (c : Byte) : Byte := if 65 ≤ c ∧ c ≤ 90 then c + 32 else c

def lsnIequal (a b : List Byte) (n : Nat) : Bool := (a.take n).map lsnLower == (b.take n).map lsnLower

def lsnScopeLen (name : List Byte) (n : Nat) : List (List Byte) → Nat
  | [] => 0
  | p :: ps => if p.length < n ∧ lsnIequal name p p.length then p.length else lsnScopeLen name n ps

def lsnStemChar (c : Byte) : Bool :=
  decide (97 ≤ c ∧ c ≤ 122) || decide (65 ≤ c ∧ c ≤ 90) || decide (48 ≤ c ∧ c ≤ 57) || c == 95 || c == 45

def lsnDerivePrefix (name : List Byte) : Option (List Byte) :=
  let n := strlen name
  let sl := lsnScopeLen name n scopes
  let rest := (name.drop sl).take (n - sl)
  let rest := if rest.head? = some 47 then rest.tail else rest
  let out := name.take sl ++ ((rest.take lsnStemMax).map fun c => if lsnStemChar c then c else 95) ++ [46]
  if out.length ≤ lsnPrefixMax then some out else none

def lsnLinkNameOk (linkPrefix name : List Byte) : Bool :=
  name.length == linkPrefix.length + suffixLen && name.take linkPrefix.length == linkPrefix &&
  (name.drop linkPrefix.length).all isHexDigit

def lsnLinkName (linkPrefix : List Byte) (r : Word) : List Byte :=
  linkPrefix ++ (List.range suffixLen).map fun i => hexDigit ((r >>> (60 - 4 * i)) &&& 0xf).toNat

def hqqStandardSize (pf : Platform) (count size : Nat) : Nat :=
  let (l, ok) := hqqLayoutCompute pf.pagesize count size pf.maxInt
  if ok then l.total else 0

/-- The name that is returned ends with a NUL. -/
def lsnValidate (pf : Platform) (lim : Limits) (r : ConnectRecord) : Option (List Byte) :=
  let nlen := r.nameLen.toNat
  let bc := r.bufferCount
  let bs := r.bufferSize
  if r.flags ≠ 0 ∨ nlen = 0 ∨ lsnNameMax < nlen then none
  else if !lsnLinkNameOk lim.linkPrefix (r.name.val.take nlen) then none
  else if !isOwnerToken r.clientToken then none
  else if BitVec.ofInt 64 lim.maxBufferCount < bc ∨ BitVec.ofInt 64 lim.maxBufferSize < bs ∨
      !hqqGeometryValid bc.toNat bs.toNat then none
  else
    let total := hqqStandardSize pf bc.toNat bs.toNat
    if total = 0 ∨ lim.maxLinkSize.toNat < total then none else some (r.name.val.take nlen ++ [0])

theorem foldByte_eq {a b : Byte} (ha : a < 128) (hb : b < 128) :
    foldByte a b = (lsnLower a == lsnLower b) := by
  rw [Bool.eq_iff_iff]
  simp only [foldByte, lsnLower]
  split <;> split <;> split <;> simp <;> bv_omega

theorem lsnLower_lt {b : Byte} (hb : b < 128) : lsnLower b < 128 := by
  unfold lsnLower
  split <;> bv_omega

theorem equalFold_eq {s t : List Byte} (hlen : s.length = t.length)
    (ht : ∀ b ∈ t, b < 128 ∧ b ∉ [75, 107, 83, 115]) :
    equalFold s t = (s.map lsnLower == t.map lsnLower) := by
  induction s generalizing t with
  | nil => cases t <;> simp_all [equalFold]
  | cons a s ih =>
    cases t with
    | nil => cases hlen
    | cons b t =>
      obtain ⟨⟨hb, hplain⟩, ht⟩ := List.forall_mem_cons.mp ht
      simp only [List.mem_cons, List.not_mem_nil, or_false, not_or] at hplain
      have hother : (b == 75 || b == 107) = false ∧ (b == 83 || b == 115) = false := by
        simpa [and_assoc] using hplain
      rw [List.map_cons, List.map_cons, List.cons_beq_cons]
      unfold equalFold
      by_cases ha : a < 128
      · rw [if_pos ha, foldByte_eq ha hb, ih (by simpa using hlen) ht]
      · -- such a byte is no letter of `t`, in whatever rune it stands
        have hne : (lsnLower a == lsnLower b) = false := by
          have hlow := lsnLower_lt hb
          have hsame : lsnLower a = a := by
            unfold lsnLower
            rw [if_neg (by bv_omega)]
          rw [hsame, beq_eq_false_iff_ne]
          rintro rfl
          exact ha hlow
        rw [if_neg ha, hne, Bool.false_and]
        split
        · rfl
        · split
          · rw [hother.2, Bool.false_and]
          · split
            · rfl
            · rw [hother.1, Bool.and_false, Bool.false_and]

theorem strlen_append {name : List Byte} (h : 0 ∉ name) : strlen (name ++ [0]) = name.length := by
  have hall : ∀ c ∈ name, (c != 0) = true := fun c hc => by
    rw [bne_iff_ne]
    rintro rfl
    exact h hc
  rw [strlen, List.takeWhile_append_of_pos hall]
  simp

theorem splitScope_eq (name : List Byte) (ps : List (List Byte))
    (hps : ∀ p ∈ ps, ∀ b ∈ p, b < 128 ∧ b ∉ [75, 107, 83, 115]) :
    let k := lsnScopeLen (name ++ [0]) name.length ps
    splitScope name ps = (name.take k, name.drop k) ∧ k ≤ name.length := by
  induction ps with
  | nil => simp [splitScope, lsnScopeLen]
  | cons p ps ih =>
    obtain ⟨hp, hps⟩ := List.forall_mem_cons.mp hps
    simp only [splitScope, lsnScopeLen]
    by_cases hlt : p.length < name.length
    · have heq : equalFold (name.take p.length) p = lsnIequal (name ++ [0]) p p.length := by
        rw [equalFold_eq (by simp; omega) hp, lsnIequal, List.take_append_of_le_length hlt.le,
          List.take_length]
      rw [heq]
      split
      · exact ⟨rfl, hlt.le⟩
      · exact ih hps
    · rw [if_neg (fun h => hlt h.1), if_neg (fun h => hlt h.1)]
      exact ih hps

theorem stemByte_eq (c : Byte) : (if lsnStemChar c then c else 95) = stemByte c := by
  simp only [lsnStemChar, stemByte, Bool.or_eq_true, decide_eq_true_eq, beq_iff_eq, or_assoc]

theorem lsnScopeLen_le (name : List Byte) (n : Nat) (ps : List (List Byte)) (h : ∀ p ∈ ps, p.length ≤ 7) :
    lsnScopeLen name n ps ≤ 7 := by
  induction ps with
  | nil => exact Nat.zero_le _
  | cons p ps ih =>
    obtain ⟨hp, hps⟩ := List.forall_mem_cons.mp h
    simp only [lsnScopeLen]
    split
    · exact hp
    · exact ih hps

theorem listenerLinkPrefix_length (name : List Byte) : (listenerLinkPrefix name).length ≤ 20 := by
  obtain ⟨hsplit, -⟩ := splitScope_eq name scopes (by decide)
  have hscope := lsnScopeLen_le (name ++ [0]) name.length scopes (by decide)
  simp only [listenerLinkPrefix, hsplit, stemLen, List.length_append, List.length_take, List.length_map,
    List.length_singleton]
  omega

theorem lsnDerivePrefix_eq {name : List Byte} (h : 0 ∉ name) :
    lsnDerivePrefix (name ++ [0]) = some (listenerLinkPrefix name) := by
  have hlen := listenerLinkPrefix_length name
  obtain ⟨hsplit, hle⟩ := splitScope_eq name scopes (by decide)
  simp only [listenerLinkPrefix, lsnDerivePrefix, strlen_append h, stemByte_eq, hsplit] at hlen ⊢
  generalize lsnScopeLen (name ++ [0]) name.length scopes = k at *
  have hrest : ((name ++ [0]).drop k).take (name.length - k) = name.drop k := by
    rw [List.drop_append_of_le_length hle, List.take_left' (by simp)]
  rw [hrest, List.take_append_of_le_length hle]
  exact if_pos (hlen.trans (show 20 ≤ lsnPrefixMax by decide))

/-- The last `n` digits of `v`, with zeros in front. -/
def hexDigits (n v : Nat) : List Byte :=
  (List.range n).map fun i => hexDigit (v / 16 ^ (n - 1 - i) % 16)

def hex16 (t : Word) : List Byte := hexDigits suffixLen t.toNat

theorem hexDigit_inj {d e : Nat} (hd : d < 16) (he : e < 16) (h : hexDigit d = hexDigit e) : d = e := by
  interval_cases d <;> interval_cases e <;> first | rfl | exact absurd h (by decide)

theorem hexDigits_succ (n v : Nat) :
    hexDigits (n + 1) v = hexDigits n (v / 16) ++ [hexDigit (v % 16)] := by
  unfold hexDigits
  rw [List.range_succ, List.map_append, List.map_singleton]
  congr 1
  · refine List.map_congr_left fun i hi => ?_
    rw [List.mem_range] at hi
    rw [Nat.div_div_eq_div_mul, ← Nat.pow_succ', show n + 1 - 1 - i = n - 1 - i + 1 by omega]
  · simp

theorem hexDigits_inj (n : Nat) {v w : Nat} (hv : v < 16 ^ n) (hw : w < 16 ^ n)
    (h : hexDigits n v = hexDigits n w) : v = w := by
  induction n generalizing v w with
  | zero => omega
  | succ n ih =>
    rw [hexDigits_succ, hexDigits_succ] at h
    obtain ⟨hrest, hlast⟩ := List.append_inj' h rfl
    have h1 := ih (by rw [Nat.pow_succ] at hv; omega) (by rw [Nat.pow_succ] at hw; omega) hrest
    have h2 := hexDigit_inj (Nat.mod_lt v (by omega)) (Nat.mod_lt w (by omega)) (by simpa using hlast)
    omega

theorem hex16_length (t : Word) : (hex16 t).length = suffixLen := by simp [hex16, hexDigits]

theorem hex16_inj {t u : Word} (h : hex16 t = hex16 u) : t = u :=
  BitVec.eq_of_toNat_eq (hexDigits_inj suffixLen t.isLt u.isLt h)

theorem exists_hexDigit {c : Byte} (h : isHexDigit c = true) : ∃ d < 16, hexDigit d = c := by
  revert c
  decide +kernel

theorem exists_hexDigits (n : Nat) {l : List Byte} (hlen : l.length = n) (hl : ∀ c ∈ l, isHexDigit c = true) :
    ∃ v < 16 ^ n, hexDigits n v = l := by
  induction n generalizing l with
  | zero => exact ⟨0, by simp, (List.eq_nil_of_length_eq_zero hlen).symm⟩
  | succ n ih =>
    obtain rfl | ⟨l, c, rfl⟩ := List.eq_nil_or_concat l
    · cases hlen
    obtain ⟨v, hv, hdigits⟩ := ih (by simpa using hlen) fun x hx => hl x (by simp [hx])
    obtain ⟨d, hd, hc⟩ := exists_hexDigit (hl c (by simp))
    refine ⟨16 * v + d, by rw [Nat.pow_succ]; omega, ?_⟩
    rw [hexDigits_succ, show (16 * v + d) / 16 = v by omega, show (16 * v + d) % 16 = d by omega,
      hdigits, hc, List.concat_eq_append]

theorem appendHex_eq (n : Nat) {v : Nat} (hlo : 16 ^ n ≤ v) (hhi : v < 16 ^ (n + 1)) :
    appendHex (n + 1) v = hexDigits (n + 1) v := by
  induction n generalizing v with
  | zero =>
    rw [hexDigits_succ, appendHex, if_pos (by simpa using hhi), Nat.mod_eq_of_lt (by simpa using hhi)]
    rfl
  | succ n ih =>
    have hpos : 0 < 16 ^ n := by positivity
    rw [Nat.pow_succ] at hlo hhi
    rw [hexDigits_succ, appendHex, if_neg (by omega), ih (by omega) (by omega)]

theorem appendHex_head (fuel : Nat) {v : Nat} (h0 : 0 < v) (hv : v < 16 ^ fuel) :
    ∃ d ds, appendHex fuel v = hexDigit d :: ds ∧ 0 < d ∧ d < 16 := by
  induction fuel generalizing v with
  | zero => omega
  | succ fuel ih =>
    rw [appendHex]
    split
    · next hlt => exact ⟨v, [], rfl, h0, hlt⟩
    · rw [Nat.pow_succ] at hv
      obtain ⟨d, ds, heq, hd⟩ := ih (v := v / 16) (by omega) (by omega)
      exact ⟨d, ds ++ [hexDigit (v % 16)], by rw [heq, List.cons_append], hd⟩

theorem lsnLinkName_eq (linkPrefix : List Byte) (r : Word) :
    lsnLinkName linkPrefix r = linkPrefix ++ hex16 r := by
  unfold lsnLinkName hex16
  congr 1
  refine List.map_congr_left fun i hi => ?_
  have hshift : 60 - 4 * i = 4 * (suffixLen - 1 - i) := by simp [suffixLen]; omega
  have hmask : (15 : Word).toNat = 2 ^ 4 - 1 := rfl
  rw [BitVec.toNat_and, BitVec.toNat_ushiftRight, Nat.shiftRight_eq_div_pow, hshift, Nat.pow_mul, hmask,
    Nat.and_two_pow_sub_one_eq_mod]

theorem hex16_isHexDigit (t : Word) : (hex16 t).all isHexDigit = true := by
  rw [List.all_eq_true]
  intro c hc
  obtain ⟨i, -, rfl⟩ := List.mem_map.mp hc
  exact hexDigit_isHexDigit (Nat.mod_lt _ (by decide))

theorem lsnLinkNameOk_eq (linkPrefix name : List Byte) :
    lsnLinkNameOk linkPrefix name = validLinkName linkPrefix name := by
  rw [Bool.eq_iff_iff]
  simp only [lsnLinkNameOk, validLinkName, Bool.and_eq_true, beq_iff_eq, List.isPrefixOf_iff_prefix]
  rw [List.prefix_iff_eq_take, eq_comm (a := linkPrefix)]

theorem validLinkName_lsnLinkName (linkPrefix : List Byte) (r : Word) :
    validLinkName linkPrefix (lsnLinkName linkPrefix r) = true := by
  rw [lsnLinkName_eq]
  simp [validLinkName, hex16_isHexDigit, hex16_length]

theorem setName_isSome (r : ConnectRecord) {name : List Byte} (h0 : 0 < name.length)
    (hmax : name.length ≤ maxNameLen) : (r.setName name).bind (·.recordName) = some name := by
  obtain ⟨r', hr⟩ : ∃ r', r.setName name = some r' := ⟨_, if_neg (by omega)⟩
  rw [hr]
  exact (recordName_setName hr).1

theorem geometry_eq (bc bs : Word) :
    hqqGeometryValid bc.toNat bs.toNat = validConfig bc.toInt bs.toInt := by
  by_cases hsmall : bc.toNat < 2 ^ 63 ∧ bs.toNat < 2 ^ 63
  · rw [BitVec.toInt_eq_toNat_of_lt (by omega), BitVec.toInt_eq_toNat_of_lt (by omega),
      ← hqqGeometryValid_eq (Int.natCast_nonneg _) (Int.natCast_nonneg _), Int.toNat_natCast,
      Int.toNat_natCast]
  · have hc : hqqGeometryValid bc.toNat bs.toNat = false := by
      rw [Bool.eq_false_iff]
      intro hv
      simp only [hqqGeometryValid, Bool.and_eq_true, decide_eq_true_eq] at hv
      omega
    have hg : validConfig bc.toInt bs.toInt = false := by
      rw [Bool.eq_false_iff]
      intro hv
      have := validConfig_bounds hv
      rw [BitVec.toInt_eq_toNat_cond, BitVec.toInt_eq_toNat_cond] at this
      split_ifs at this <;> omega
    rw [hc, hg]

theorem hqqStandardSize_eq {pf : Platform} (h : Supported pf) {bc bs : Word}
    (hvalid : validConfig bc.toInt bs.toInt = true) :
    hqqStandardSize pf bc.toNat bs.toNat =
      if (computeLayout pf bc.toInt bs.toInt).2 then (computeLayout pf bc.toInt bs.toInt).1.total else 0 := by
  have hb := validConfig_bounds hvalid
  have hnat : ∀ x : Word, 0 ≤ x.toInt → x.toInt.toNat = x.toNat := fun x hx => by
    rw [BitVec.toInt_eq_toNat_cond] at hx ⊢
    split_ifs at hx ⊢ <;> omega
  have hiff : (computeLayout pf bc.toInt bs.toInt).2 = true ↔ _ := h.computeLayout_iff
  rw [hnat bc (by omega), hnat bs (by omega)] at hiff
  rw [hqqStandardSize, h.hqqLayoutCompute_eq _ ((geometry_eq bc bs).trans hvalid)]
  by_cases hok : (computeLayout pf bc.toInt bs.toInt).2 = true
  · have hfits := (hiff.mp hok).2
    rw [if_pos hok, h.eq_exactLayout hok, hnat bc (by omega), hnat bs (by omega)]
    simp [hfits]
  · rw [if_neg hok]
    exact if_neg fun hfits => hok (hiff.mpr ⟨hvalid, of_decide_eq_true hfits⟩)

theorem computeLayout_total_pos {pf : Platform} (h : Supported pf) {count size : Int}
    (hok : (computeLayout pf count size).2 = true) : 0 < (computeLayout pf count size).1.total := by
  rw [h.eq_exactLayout hok]
  obtain ⟨-, hsuper, h0, h1, h2, h3⟩ : Ordered pf.pagesize count.toNat size.toNat _ := h.ordered
  have : superblockSize = 384 := rfl
  dsimp only
  omega

theorem recordName_eq (r : ConnectRecord) : r.recordName =
    if r.nameLen.toNat = 0 ∨ lsnNameMax < r.nameLen.toNat then none
    else some (r.name.val.take r.nameLen.toNat) := by
  have hzero : r.nameLen = 0 ↔ r.nameLen.toNat = 0 := by
    rw [BitVec.toNat_eq]
    rfl
  exact if_congr (or_congr hzero BitVec.lt_def) rfl rfl

theorem lsnValidate_eq {pf : Platform} (h : Supported pf) (lim : Limits) (r : ConnectRecord) :
    lsnValidate pf lim r = (validate pf lim r).map (· ++ [0]) := by
  simp only [lsnValidate, validate, recordName_eq, lsnLinkNameOk_eq, geometry_eq]
  by_cases hflags : r.flags ≠ 0
  · rw [if_pos (.inl hflags), if_pos hflags]
    rfl
  by_cases hlen : r.nameLen.toNat = 0 ∨ lsnNameMax < r.nameLen.toNat
  · rw [if_pos (.inr hlen), if_neg hflags, if_pos hlen]
    rfl
  rw [if_neg (not_or.mpr ⟨hflags, hlen⟩), if_neg hflags, if_neg hlen]
  dsimp only
  cases validLinkName lim.linkPrefix (r.name.val.take r.nameLen.toNat) with
  | false => rfl
  | true =>
  cases isOwnerToken r.clientToken with
  | false => rfl
  | true =>
  simp only [Bool.not_true, Bool.false_eq_true, if_false]
  by_cases hlim : BitVec.ofInt 64 lim.maxBufferCount < r.bufferCount ∨
      BitVec.ofInt 64 lim.maxBufferSize < r.bufferSize
  · rw [if_pos (or_assoc.mp (.inl hlim)), if_pos hlim]
    rfl
  rw [if_neg hlim]
  simp only [not_or] at hlim
  simp only [hlim.1, hlim.2, false_or]
  cases hvalid : validConfig r.bufferCount.toInt r.bufferSize.toInt with
  | false =>
    have hbad : (computeLayout pf r.bufferCount.toInt r.bufferSize.toInt).2 = false := by
      rw [Bool.eq_false_iff, Ne, h.computeLayout_iff, hvalid]
      exact fun hok => Bool.false_ne_true hok.1
    rw [hbad]
    rfl
  | true =>
    rw [hqqStandardSize_eq h hvalid]
    cases hok : (computeLayout pf r.bufferCount.toInt r.bufferSize.toInt).2 with
    | false => rfl
    | true =>
      have hpos := computeLayout_total_pos h hok
      simp only [Bool.not_true, Bool.false_eq_true, if_false, if_true, hpos.ne', false_or]
      split <;> rfl

structure Limits.Admits (pf : Platform) (lim : Limits) (r : ConnectRecord) : Prop where
  valid : validConfig r.bufferCount.toInt r.bufferSize.toInt = true
  count : r.bufferCount ≤ BitVec.ofInt 64 lim.maxBufferCount
  size : r.bufferSize ≤ BitVec.ofInt 64 lim.maxBufferSize
  total : (computeLayout pf r.bufferCount.toInt r.bufferSize.toInt).1.total ≤ lim.maxLinkSize.toNat

theorem of_validate {pf : Platform} (h : Supported pf) {lim : Limits} {r : ConnectRecord} {name : List Byte}
    (hval : validate pf lim r = some name) : lim.linkPrefix <+: name ∧ lim.Admits pf r := by
  unfold validate at hval
  split at hval
  · cases hval
  split at hval
  · cases hval
  dsimp only at hval
  split_ifs at hval with hname htoken hlim hsize
  cases hval
  simp only [not_or, Bool.not_eq_true', Bool.not_eq_false] at hname hlim hsize
  refine ⟨?_, (h.computeLayout_iff.mp hsize.1).1, BitVec.not_lt.mp hlim.1, BitVec.not_lt.mp hlim.2,
    not_lt.mp hsize.2⟩
  simp only [validLinkName, Bool.and_eq_true, List.isPrefixOf_iff_prefix] at hname
  exact hname.1.2

/-- Both sides derive one prefix, what they build from it passes every check, and they accept the same
records. -/
theorem names_and_records_agree :
    (∀ name : List Byte, 0 ∉ name → lsnDerivePrefix (name ++ [0]) = some (listenerLinkPrefix name) ∧
      ∀ token : Word, ∀ link ∈ [newLinkName (listenerLinkPrefix name) token,
          lsnLinkName (listenerLinkPrefix name) token],
        (∀ r : ConnectRecord, (r.setName link).bind (·.recordName) = some link) ∧
          validLinkName (listenerLinkPrefix name) link = true ∧
          lsnLinkNameOk (listenerLinkPrefix name) link = true) ∧
    ∀ k, 12 ≤ k → k ≤ 30 → ∀ (lim : Limits) (r : ConnectRecord),
      lsnValidate ⟨64, 2 ^ k⟩ lim r = (validate ⟨64, 2 ^ k⟩ lim r).map (· ++ [0]) ∧
      ∀ name, validate ⟨64, 2 ^ k⟩ lim r = some name →
        lim.linkPrefix <+: name ∧ lim.Admits ⟨64, 2 ^ k⟩ r := by
  refine ⟨fun name hname => ⟨lsnDerivePrefix_eq hname, fun token link hlink => ?_⟩,
    fun k hlo hhi lim r => ?_⟩
  · have hvalid : validLinkName (listenerLinkPrefix name) link = true := by
      simp only [List.mem_cons, List.not_mem_nil, or_false] at hlink
      rcases hlink with rfl | rfl
      · exact validLinkName_newLinkName ..
      · exact validLinkName_lsnLinkName ..
    have hlen : link.length = (listenerLinkPrefix name).length + 16 := by
      simp only [validLinkName, Bool.and_eq_true, beq_iff_eq] at hvalid
      exact hvalid.1.1
    have hmax : link.length ≤ maxNameLen := by
      have := listenerLinkPrefix_length name
      unfold maxNameLen
      omega
    exact ⟨fun r => setName_isSome r (by omega) hmax, hvalid, (lsnLinkNameOk_eq ..).trans hvalid⟩
  · have h : Supported ⟨64, 2 ^ k⟩ := ⟨.inr rfl, k, hlo, hhi, rfl⟩
    exact ⟨lsnValidate_eq h lim r, fun name => of_validate h⟩

def smallLimits : Limits := ⟨2, 8, 0x100000, [97, 46]⟩

def smallRecord : ConnectRecord where
  clientToken := 2
  bufferCount := 2
  bufferSize := 8
  features := 0
  nameLen := 18
  clientPID := 0
  name := .ofFn fun i => (newLinkName [97, 46] 5).getD i 0

theorem names_and_records_agree_small :
    lsnDerivePrefix [97, 0] = some [97, 46] ∧ ∃ name,
      validate ⟨64, 2 ^ 12⟩ smallLimits smallRecord = some name ∧
      lsnValidate ⟨64, 2 ^ 12⟩ smallLimits smallRecord = some (name ++ [0]) ∧
      smallLimits.Admits ⟨64, 2 ^ 12⟩ smallRecord := by
  have hval : validate ⟨64, 2 ^ 12⟩ smallLimits smallRecord = some (newLinkName [97, 46] 5) := by
    decide +kernel
  obtain ⟨hsame, hadmits⟩ := names_and_records_agree.2 12 le_rfl (by decide) smallLimits smallRecord
  exact ⟨(names_and_records_agree.1 [97] (by decide)).1, _, hval, by rw [hsame, hval]; rfl,
    (hadmits _ hval).2⟩

theorem newLinkName_eq (linkPrefix : List Byte) {token : Word} (h : 2 ^ 60 ≤ token.toNat) :
    newLinkName linkPrefix token = linkPrefix ++ hex16 token := by
  have hdigits : appendHex suffixLen token.toNat = hex16 token := appendHex_eq 15 h token.isLt
  simp [newLinkName, hdigits, hex16_length]

theorem newLinkName_zero (linkPrefix : List Byte) : newLinkName linkPrefix 0 = linkPrefix ++ hex16 0 :=
  congrArg (linkPrefix ++ ·) (show _ = hex16 0 by decide)

/-- The first digit of the name is the first digit of the token, which is not 0. -/
theorem newLinkName_full (linkPrefix : List Byte) {token : Word} (h : token ≠ 0) :
    ∃ u : Word, 2 ^ 60 ≤ u.toNat ∧ newLinkName linkPrefix token = newLinkName linkPrefix u := by
  have h0 : 0 < token.toNat := Nat.pos_of_ne_zero fun hzero => h (BitVec.eq_of_toNat_eq hzero)
  obtain ⟨d, ds, hdigits, hpos, hd⟩ := appendHex_head suffixLen h0 token.isLt
  have hvalid := validLinkName_newLinkName [] token
  simp only [validLinkName, Bool.and_eq_true, beq_iff_eq, List.all_eq_true] at hvalid
  obtain ⟨v, hv, hname⟩ := exists_hexDigits suffixLen (by simpa using hvalid.1.1) hvalid.2
  have hhead : (newLinkName [] token).head? = some (hexDigit d) := by
    simp only [newLinkName, hdigits, List.nil_append, List.cons_append]
    cases suffixLen - (hexDigit d :: ds).length <;> simp
  have hfirst : hexDigit (v / 16 ^ 15 % 16) = hexDigit d := by
    rw [List.length_nil, List.drop_zero] at hname
    rw [← hname] at hhead
    exact Option.some.inj hhead
  have hmod := hexDigit_inj (Nat.mod_lt _ (by decide)) hd hfirst
  have hu : (BitVec.ofNat 64 v).toNat = v := Nat.mod_eq_of_lt hv
  have hlow : 2 ^ 60 ≤ (BitVec.ofNat 64 v).toNat := by omega
  refine ⟨BitVec.ofNat 64 v, hlow, ?_⟩
  rw [newLinkName_eq linkPrefix hlow, hex16, hu, hname]
  rfl

/-- The suffix of the name is the token exactly if this has 16 digits or none. The name of any other
token is also that of one with 16 digits. In C every word is the suffix of its name. -/
theorem link_names_padded (linkPrefix : List Byte) :
    (∀ token : Word, newLinkName linkPrefix token = linkPrefix ++ hex16 token ↔
      token = 0 ∨ 2 ^ 60 ≤ token.toNat) ∧
    (∀ t : Word, (∀ u : Word, 2 ^ 60 ≤ u.toNat →
        newLinkName linkPrefix t = newLinkName linkPrefix u → t = u) ↔
      t = 0 ∨ 2 ^ 60 ≤ t.toNat) ∧
    (∀ r : Word, lsnLinkName linkPrefix r = linkPrefix ++ hex16 r) ∧
    ∀ r r' : Word, lsnLinkName linkPrefix r = lsnLinkName linkPrefix r' → r = r' := by
  have hpadded : ∀ t : Word, t = 0 ∨ 2 ^ 60 ≤ t.toNat →
      newLinkName linkPrefix t = linkPrefix ++ hex16 t := by
    rintro t (rfl | ht)
    · exact newLinkName_zero linkPrefix
    · exact newLinkName_eq linkPrefix ht
  have hown : ∀ t u : Word, 2 ^ 60 ≤ u.toNat → newLinkName linkPrefix t = newLinkName linkPrefix u →
      newLinkName linkPrefix t = linkPrefix ++ hex16 t → t = u := by
    intro t u hu hsame ht
    rw [ht, newLinkName_eq _ hu] at hsame
    exact hex16_inj (List.append_cancel_left hsame)
  have hfull : ∀ t : Word, (∀ u : Word, 2 ^ 60 ≤ u.toNat →
      newLinkName linkPrefix t = newLinkName linkPrefix u → t = u) → t = 0 ∨ 2 ^ 60 ≤ t.toNat := by
    intro t hall
    by_cases h0 : t = 0
    · exact .inl h0
    · obtain ⟨u, hu, hsame⟩ := newLinkName_full linkPrefix h0
      exact .inr (hall u hu hsame ▸ hu)
  refine ⟨fun t => ⟨fun ht => hfull t fun u hu hsame => hown t u hu hsame ht, hpadded t⟩,
    fun t => ⟨hfull t, fun ht u hu hsame => hown t u hu hsame (hpadded t ht)⟩,
    lsnLinkName_eq linkPrefix, fun r r' h => ?_⟩
  rw [lsnLinkName_eq, lsnLinkName_eq] at h
  exact hex16_inj (List.append_cancel_left h)

theorem link_names_padded_full :
    newLinkName [46] 0x1111111111111111 = [46] ++ List.replicate 16 49 ∧
      newLinkName [46] 0x12 ≠ [46] ++ hex16 0x12 := by
  constructor
  · rw [((link_names_padded [46]).1 _).mpr (by decide)]
    decide
  · rw [Ne, (link_names_padded [46]).1]
    decide

/-- The 15 digits of a token stay where `AppendUint` has put them, too. -/
theorem short_token_not_padded :
    newLinkName [46] 0x111111111111111 = newLinkName [46] 0x1111111111111111 ∧
    newLinkName [46] 0x111111111111111 ≠ [46] ++ hex16 0x111111111111111 := by
  decide +kernel

end Hqq.Listener
