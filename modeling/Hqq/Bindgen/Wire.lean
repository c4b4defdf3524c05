import Mathlib.Algebra.Order.Group.Nat
import Mathlib.Tactic.Ring
import Hqq.Bytes

/-!
# The frames of a session

`wire.go`, and `GetStr` of `codec.go` for the text of a status response.
-/

namespace Hqq.Bindgen

abbrev U16 := BitVec 16
abbrev U32 := BitVec 32

def headerSize : Nat := 16
def msgMax : Nat := 32
def errBodyMax : Nat := 37
def nullLen : Nat := 0xFFFFFFFF

def kindResponse : Byte := 0x02
def kindCont : Byte := 0x03
def kindCloseAck : Byte := 0x09

def flagDetail : Byte := 0x01
def flagFail : Byte := 0x02
def flagsKnown : Byte := flagDetail ||| flagFail

def statusOK : U32 := 0
def statusUnknownOp : U32 := 1
def statusInternal : U32 := 6
def statusProtocol : U32 := 7
def statusShuttingDown : U32 := 8
def statusAppMin : U32 := 0x0100
def statusAppMax : U32 := 0xFFFF

structure Header where
  kind : Byte
  flags : Byte
  op : U16
  id : U32
  total : U32
  aux : U32
  deriving DecidableEq

def leAt (b : List Byte) (lo k : Nat) : Nat := ofLe ((b.drop lo).take k)

def loadHeader (b : List Byte) : Header where
  kind := b.getD 0 0
  flags := b.getD 1 0
  op := BitVec.ofNat 16 (leAt b 2 2)
  id := BitVec.ofNat 32 (leAt b 4 4)
  total := BitVec.ofNat 32 (leAt b 8 4)
  aux := BitVec.ofNat 32 (leAt b 12 4)

/-- The first eight bytes are stored as one number. -/
def putHeader (h : Header) : List Byte :=
  le 8 (h.kind.toNat + h.flags.toNat * 2 ^ 8 + h.op.toNat * 2 ^ 16 + h.id.toNat * 2 ^ 32) ++
    le 4 h.total.toNat ++ le 4 h.aux.toNat

@[simp] theorem length_putHeader (h : Header) : (putHeader h).length = headerSize := by
  simp [putHeader, headerSize]

def getStr (b : List Byte) (limit : Nat) : Option (List Byte × Nat) :=
  let n := leAt b 0 4
  if b.length < 4 then none
  else if n = nullLen ∨ limit < n then none
  else if b.length - 4 < n + 1 then none
  else
    let text := (b.drop 4).take n
    if b.getD (4 + n) 0 ≠ 0 ∨ (0 : Byte) ∈ text then none else some (text, 4 + n + 1)

def callStatusOK (s : U32) : Bool :=
  (statusUnknownOp ≤ s ∧ s ≤ statusInternal) ∨ (statusAppMin ≤ s ∧ s ≤ statusAppMax)

/-! ## A header is read back as it was put -/

theorem le_one (b : Byte) : le 1 b.toNat = [b] := by simp [le]

theorem putHeader_eq (h : Header) :
    putHeader h = h.kind :: h.flags :: (le 2 h.op.toNat ++ (le 4 h.id.toNat ++
      (le 4 h.total.toNat ++ le 4 h.aux.toNat))) := by
  have hnum : h.kind.toNat + h.flags.toNat * 2 ^ 8 + h.op.toNat * 2 ^ 16 + h.id.toNat * 2 ^ 32 =
      h.kind.toNat + 256 ^ 1 * (h.flags.toNat + 256 ^ 1 * (h.op.toNat + 256 ^ 2 * h.id.toNat)) := by
    ring
  unfold putHeader
  rw [hnum, le_concat 1 7 _ h.kind.isLt, le_concat 1 6 _ h.flags.isLt, le_concat 2 4 _ h.op.isLt,
    le_one, le_one]
  simp only [List.cons_append, List.nil_append, List.append_assoc]

theorem leAt_append {k x : Nat} (hx : x < 256 ^ k) (pre rest : List Byte) :
    leAt (pre ++ (le k x ++ rest)) pre.length k = x := by
  unfold leAt
  rw [List.drop_left, List.take_left' (length_le k x), ofLe_le hx]

theorem loadHeader_putHeader (h : Header) (body : List Byte) :
    loadHeader (putHeader h ++ body) = h := by
  rw [putHeader_eq]
  have hop := leAt_append (k := 2) h.op.isLt [h.kind, h.flags]
    (le 4 h.id.toNat ++ (le 4 h.total.toNat ++ (le 4 h.aux.toNat ++ body)))
  have hid := leAt_append (k := 4) h.id.isLt (h.kind :: h.flags :: le 2 h.op.toNat)
    (le 4 h.total.toNat ++ (le 4 h.aux.toNat ++ body))
  have htotal := leAt_append (k := 4) h.total.isLt
    (h.kind :: h.flags :: (le 2 h.op.toNat ++ le 4 h.id.toNat)) (le 4 h.aux.toNat ++ body)
  have haux := leAt_append (k := 4) h.aux.isLt
    (h.kind :: h.flags :: (le 2 h.op.toNat ++ (le 4 h.id.toNat ++ le 4 h.total.toNat))) body
  unfold loadHeader
  simp only [List.cons_append, List.append_assoc, List.nil_append, List.length_cons, List.length_nil,
    List.length_append, length_le, Nat.zero_add, Nat.reduceAdd] at hop hid htotal haux ⊢
  rw [hop, hid, htotal, haux]
  simp

end Hqq.Bindgen
