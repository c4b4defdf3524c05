import Hqq.Ring.Spec

/-!
# The geometry of a segment

`computeLayout` and the functions it calls in `superblock.go`, for a machine word of `bits` bits.
The source checks for overflow, so plain numbers with the same checks compute the same.
-/

namespace Hqq

structure Platform where
  bits : Nat
  pagesize : Nat

def Platform.maxInt (pf : Platform) : Nat := 2 ^ (pf.bits - 1) - 1

def minBufferCount : Int := 2
def maxBufferCount : Int := 1 <<< 24
def minBufferSize : Int := 8
def maxBufferSize : Int := 1 <<< 30
def bufferSizeAlignment : Int := 8

def superblockSize : Nat := 384

def headerSize : Nat := 512

def packetStride : Nat := 128

def isPowerOfTwo (v : Int) : Bool := decide (0 < v) && (v.toNat &&& (v.toNat - 1)) == 0

def validConfig (bufferCount bufferSize : Int) : Bool :=
  isPowerOfTwo bufferCount && decide (minBufferCount ≤ bufferCount) &&
  decide (bufferCount ≤ maxBufferCount) && decide (minBufferSize ≤ bufferSize) &&
  decide (bufferSize ≤ maxBufferSize) && bufferSize % bufferSizeAlignment == 0

def sizeMPMCRing (pf : Platform) (stride n : Nat) : Nat :=
  if !Ring.validRingSize (word n) then 0
  else if (2 ^ pf.bits - 1 - headerSize) / stride < n then 0
  else headerSize + stride * n

def alignedSum (pf : Platform) (a b : Nat) : Option Nat :=
  if 2 ^ pf.bits ≤ a + b then none
  else if 2 ^ pf.bits ≤ a + b + (pf.pagesize - 1) then none
  else some ((a + b + (pf.pagesize - 1)) / pf.pagesize * pf.pagesize)

def alignPage (pf : Platform) (size : Nat) : Nat :=
  (size + pf.pagesize - 1) / pf.pagesize * pf.pagesize

structure SegmentLayout where
  ring0 : Nat := 0
  buf0 : Nat := 0
  ring1 : Nat := 0
  buf1 : Nat := 0
  total : Nat := 0
  deriving DecidableEq

/-- The offsets that were computed before the first check that failed, and whether none failed. -/
def computeLayout (pf : Platform) (bufferCount bufferSize : Int) : SegmentLayout × Bool :=
  if !validConfig bufferCount bufferSize then ({}, false) else
  let ringSize := sizeMPMCRing pf packetStride bufferCount.toNat
  if ringSize = 0 then ({}, false) else
  let buffersSize := bufferCount.toNat * bufferSize.toNat
  if 2 ^ pf.bits ≤ buffersSize ∨ pf.maxInt < buffersSize then ({}, false) else
  let ring0 := alignPage pf superblockSize
  match alignedSum pf ring0 ringSize with
  | none => ({ ring0 }, false)
  | some buf0 =>
  match alignedSum pf buf0 buffersSize with
  | none => ({ ring0, buf0 }, false)
  | some ring1 =>
  match alignedSum pf ring1 ringSize with
  | none => ({ ring0, buf0, ring1 }, false)
  | some buf1 =>
  match alignedSum pf buf1 buffersSize with
  | none => ({ ring0, buf0, ring1, buf1 }, false)
  | some total => ({ ring0, buf0, ring1, buf1, total }, decide (total ≤ pf.maxInt))

theorem validConfig_bounds {count size : Int} (h : validConfig count size = true) :
    (2 ≤ count ∧ count ≤ 2 ^ 24) ∧ 8 ≤ size ∧ size ≤ 2 ^ 30 := by
  simp only [validConfig, Bool.and_eq_true, decide_eq_true_eq] at h
  obtain ⟨⟨⟨⟨⟨-, h1⟩, h2⟩, h3⟩, h4⟩, -⟩ := h
  exact ⟨⟨h1, h2⟩, h3, h4⟩

/-- The token of an endpoint that closed gracefully. -/
def detachedToken : Word := 1

def isOwnerToken (t : Word) : Bool := t != 0 && t != detachedToken

end Hqq
