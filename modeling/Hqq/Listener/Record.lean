import Hqq.Bytes
import Hqq.Layout
import Mathlib.Data.List.OfFn
import Mathlib.Tactic.IntervalCases

/-!
# Connect records

`listener_layout.go` and `Acceptor.validate`. A slot of the ring is 31 words. The acceptor reads
whatever they hold, so every 31 words are a record.
-/

namespace Hqq.Listener

def suffixLen : Nat := 16

def maxNameLen : Nat := 184

def hexDigit (d : Nat) : Byte := BitVec.ofNat 8 (if d < 10 then 48 + d else 87 + d)

def isHexDigit (c : Byte) : Bool := decide (48 ≤ c ∧ c ≤ 57) || decide (97 ≤ c ∧ c ≤ 102)

/-- `strconv.AppendUint` in base 16. A number below `16 ^ fuel` has at most `fuel` digits. -/
def appendHex : Nat → Nat → List Byte
  | 0, _ => []
  | fuel + 1, v => if v < 16 then [hexDigit v] else appendHex fuel (v / 16) ++ [hexDigit (v % 16)]

/-- `AppendUint` stores the digits at the start of the buffer of zeros, where they stay when they are
copied to its end. -/
def newLinkName (linkPrefix : List Byte) (token : Word) : List Byte :=
  let digits := appendHex suffixLen token.toNat
  let buf := digits ++ List.replicate (suffixLen - digits.length) 48
  linkPrefix ++ (buf.take (suffixLen - digits.length) ++ digits)

def validLinkName (linkPrefix name : List Byte) : Bool :=
  name.length == linkPrefix.length + suffixLen && linkPrefix.isPrefixOf name &&
  (name.drop linkPrefix.length).all isHexDigit

abbrev NameField := { name : List Byte // name.length = maxNameLen }

def NameField.ofFn (f : Nat → Byte) : NameField :=
  ⟨List.ofFn fun i : Fin maxNameLen => f i, List.length_ofFn⟩

structure ConnectRecord where
  clientToken : Word
  bufferCount : Word
  bufferSize : Word
  features : Word
  flags : Word := 0
  nameLen : Word := 0
  clientPID : Word
  reserved : Word := 0
  name : NameField := .ofFn fun _ => 0
  deriving DecidableEq

def byteOf (x : Word) (k : Nat) : Byte := (x >>> (8 * k)).setWidth 8

def decode (e : Ring.Elem Word 31) : ConnectRecord where
  clientToken := e 0
  bufferCount := e 1
  bufferSize := e 2
  features := e 3
  flags := e 4
  nameLen := e 5
  clientPID := e 6
  reserved := e 7
  name := .ofFn fun i => byteOf (e (Fin.ofNat 31 (8 + i / 8))) (i % 8)

def ConnectRecord.recordName (r : ConnectRecord) : Option (List Byte) :=
  if r.nameLen = 0 ∨ word maxNameLen < r.nameLen then none
  else some (r.name.val.take r.nameLen.toNat)

def ConnectRecord.setName (r : ConnectRecord) (name : List Byte) : Option ConnectRecord :=
  if name.length = 0 ∨ maxNameLen < name.length then none
  else some { r with nameLen := word name.length, name := .ofFn fun i => name.getD i 0 }

structure Limits where
  maxBufferCount : Int
  maxBufferSize : Int
  maxLinkSize : Word
  linkPrefix : List Byte

def validate (pf : Platform) (lim : Limits) (r : ConnectRecord) : Option (List Byte) :=
  if r.flags ≠ 0 then none else
  match r.recordName with
  | none => none
  | some name =>
    if !validLinkName lim.linkPrefix name then none
    else if !isOwnerToken r.clientToken then none
    else if BitVec.ofInt 64 lim.maxBufferCount < r.bufferCount ∨
        BitVec.ofInt 64 lim.maxBufferSize < r.bufferSize then none
    else
      let (layout, ok) := computeLayout pf r.bufferCount.toInt r.bufferSize.toInt
      if !ok ∨ lim.maxLinkSize.toNat < layout.total then none else some name

structure Request where
  bufferCount : Int
  bufferSize : Int
  features : Word
  pid : Word
  token : Word
  nameToken : Word

/-- `listenerClient.admits`, with the limits that the acceptor published in the header. -/
def admits (pf : Platform) (lim : Limits) (q : Request) : Bool :=
  validConfig q.bufferCount q.bufferSize &&
  decide (BitVec.ofInt 64 q.bufferCount ≤ BitVec.ofInt 64 lim.maxBufferCount) &&
  decide (BitVec.ofInt 64 q.bufferSize ≤ BitVec.ofInt 64 lim.maxBufferSize) &&
  decide ((computeLayout pf q.bufferCount q.bufferSize).1.total ≤ lim.maxLinkSize.toNat)

def clientRecord (lim : Limits) (q : Request) : Option ConnectRecord :=
  ConnectRecord.setName
    { clientToken := q.token
      bufferCount := BitVec.ofInt 64 q.bufferCount
      bufferSize := BitVec.ofInt 64 q.bufferSize
      features := q.features
      clientPID := q.pid }
    (newLinkName lim.linkPrefix q.nameToken)

/-- `e` is the memory of a record that `connectOnce` enqueues: the listener admits the geometry,
and a link segment with it could be created. -/
def conforming (pf : Platform) (lim : Limits) (q : Request) (e : Ring.Elem Word 31) : Bool :=
  admits pf lim q && (computeLayout pf q.bufferCount q.bufferSize).2 && isOwnerToken q.token &&
  clientRecord lim q == some (decode e)

/-! ## What a client sends is valid -/

theorem hexDigit_isHexDigit {d : Nat} (h : d < 16) : isHexDigit (hexDigit d) = true := by
  interval_cases d <;> decide

theorem appendHex_length (fuel v : Nat) : (appendHex fuel v).length ≤ fuel := by
  induction fuel generalizing v with
  | zero => simp [appendHex]
  | succ fuel ih =>
    simp only [appendHex]
    split
    · simp
    · have := ih (v / 16)
      simp only [List.length_append, List.length_singleton]
      omega

theorem appendHex_isHexDigit (fuel v : Nat) : (appendHex fuel v).all isHexDigit = true := by
  induction fuel generalizing v with
  | zero => rfl
  | succ fuel ih =>
    simp only [appendHex]
    split
    · rename_i h
      simp [hexDigit_isHexDigit h]
    · simp [ih, hexDigit_isHexDigit (Nat.mod_lt v (by omega : 0 < 16))]

theorem validLinkName_newLinkName (linkPrefix : List Byte) (token : Word) :
    validLinkName linkPrefix (newLinkName linkPrefix token) = true := by
  have hlen := appendHex_length suffixLen token.toNat
  have hdigits := List.all_eq_true.mp (appendHex_isHexDigit suffixLen token.toNat)
  simp only [validLinkName, newLinkName, Bool.and_eq_true, beq_iff_eq, List.isPrefixOf_iff_prefix,
    List.length_append, List.length_take, List.length_replicate, List.drop_left, List.all_eq_true]
  refine ⟨⟨by omega, List.prefix_append _ _⟩, fun c hc => ?_⟩
  rcases List.mem_append.mp hc with hc | hc
  · rcases List.mem_append.mp (List.mem_of_mem_take hc) with hc | hc
    · exact hdigits c hc
    · rw [List.eq_of_mem_replicate hc]
      decide
  · exact hdigits c hc

theorem take_ofFn_getD {n : Nat} (name : List Byte) (h : name.length ≤ n) :
    (List.ofFn fun i : Fin n => name.getD i 0).take name.length = name := by
  apply List.ext_getElem
  · simp [h]
  · intro i h1 h2
    simp [h2]

theorem recordName_setName {r r' : ConnectRecord} {name : List Byte}
    (h : r.setName name = some r') : r'.recordName = some name ∧ r'.flags = r.flags ∧
    r'.clientToken = r.clientToken ∧ r'.bufferCount = r.bufferCount ∧
    r'.bufferSize = r.bufferSize := by
  simp only [ConnectRecord.setName] at h
  split_ifs at h with hlen
  cases h
  have h184 : name.length ≤ 184 := by simp [maxNameLen] at hlen; omega
  have h0 : name.length ≠ 0 := by simp at hlen; simpa using hlen.1
  have hto : (word name.length).toNat = name.length := by
    rw [word_toNat]; omega
  refine ⟨?_, rfl, rfl, rfl, rfl⟩
  simp only [ConnectRecord.recordName]
  rw [if_neg]
  · rw [hto, NameField.ofFn, take_ofFn_getD (n := maxNameLen) name h184]
  · rintro (hz | hz)
    · exact h0 (by rw [← hto, hz]; rfl)
    · rw [BitVec.lt_def, hto, word_toNat] at hz
      simp only [maxNameLen] at hz
      omega

theorem toInt_ofInt {x : Int} (h0 : 0 ≤ x) (h : x ≤ 2 ^ 30) : (BitVec.ofInt 64 x).toInt = x := by
  rw [BitVec.toInt_ofInt]
  exact Int.bmod_eq_of_le_mul_two (by omega) (by omega)

theorem validate_conforming {pf : Platform} {lim : Limits} {q : Request} {e : Ring.Elem Word 31}
    (h : conforming pf lim q e = true) :
    validate pf lim (decode e) = some (newLinkName lim.linkPrefix q.nameToken) := by
  simp only [conforming, admits, Bool.and_eq_true, decide_eq_true_eq, beq_iff_eq] at h
  obtain ⟨⟨⟨⟨⟨⟨hvalid, hcount⟩, hsize⟩, htotal⟩, hok⟩, htoken⟩, hrec⟩ := h
  obtain ⟨hname, hflags, htok, hc, hs⟩ := recordName_setName hrec
  have hb := validConfig_bounds hvalid
  simp only [validate, hname, hflags, htok, hc, hs]
  rw [toInt_ofInt (by omega) (by omega), toInt_ofInt (by omega) (by omega)]
  simp [validLinkName_newLinkName, htoken, hcount, hsize, hok, htotal]

end Hqq.Listener
