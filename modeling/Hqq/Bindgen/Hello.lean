import Hqq.Bindgen.Wire

/-!
# HELLO and its reply

The client resolves its options and sends HELLO. `on_hello` checks it against the options of the
server and grants limits. The client checks what was granted against its options again.
-/

namespace Hqq.Bindgen

def kindHello : Byte := 0x04
def kindHelloReply : Byte := 0x05

def helloBody : Nat := 64
def protoMajor : Nat := 1
def protoMinor : Nat := 0
def minBufferSize : Nat := 128
def maxBufferSize : Nat := 1048576
def minBufferCount : Nat := 2
def maxBufferCount : Nat := 4096
def hardMaxMessage : Nat := 1073741824
def minMaxMessage : Nat := 4096
def maxHandleCount : Nat := 65535

def magic : List Byte := [0x48, 0x51, 0x42, 0x47]

abbrev Digest := { d : List Byte // d.length = 32 }

def helloOK : U32 := 0
def helloDigestMismatch : U32 := 1
def helloVersion : U32 := 2
def helloGeometry : U32 := 3
def helloLimit : U32 := 4
def helloBad : U32 := 5

/-! ## The options of the client -/

structure Options where
  bufferCount : Int
  bufferSize : Int
  maxInFlight : Int
  maxMessage : Int
  connectTimeout : Int
  closeTimeout : Int
  callTimeout : Int

structure Config where
  bufferCount : Int
  bufferSize : Int
  maxInFlight : Int
  maxMessage : Int
  connectTimeout : Int
  closeTimeout : Int
  callTimeout : Int
  deriving DecidableEq

def isPow2 (n : Nat) : Bool := n &&& (n - 1) = 0

def validBufferCount (n : Int) : Bool :=
  minBufferCount ≤ n ∧ n ≤ maxBufferCount ∧ isPow2 n.toNat

def validBufferSize (n : Int) : Bool := minBufferSize ≤ n ∧ n ≤ maxBufferSize ∧ n % 64 = 0

def withDefault (x d : Int) : Int := if x = 0 then d else x

def Options.resolve (o : Options) : Option Config :=
  let bufferCount := withDefault o.bufferCount 64
  let c : Config :=
    { bufferCount := bufferCount
      bufferSize := withDefault o.bufferSize 16384
      maxInFlight := withDefault o.maxInFlight bufferCount
      maxMessage := withDefault o.maxMessage 16777216
      connectTimeout := withDefault o.connectTimeout 5000000000
      closeTimeout := withDefault o.closeTimeout 5000000000
      callTimeout := o.callTimeout }
  if validBufferCount c.bufferCount = false ∨ validBufferSize c.bufferSize = false ∨
      (c.maxInFlight < 1 ∨ c.bufferCount < c.maxInFlight) ∨
      (c.maxMessage < minMaxMessage ∨ hardMaxMessage < c.maxMessage) ∨
      c.connectTimeout < 0 ∨ c.closeTimeout < 0 ∨ c.callTimeout < 0 then none
  else some c

structure Grant where
  count : Nat
  size : Nat
  deriving DecidableEq

structure Bounds where
  bufferCount : Nat
  bufferSize : Nat
  maxInFlight : Nat
  maxMessage : Nat
  maxHandles : Nat
  deriving DecidableEq

/-! ## The options of the server -/

structure ServerOptions where
  defaultBufferCount : U32
  defaultBufferSize : U32
  maxBufferCount : U32
  maxBufferSize : U32
  maxHandles : U32
  maxSegmentBytes : BitVec 64
  maxInFlight : U32
  maxMessage : U32
  openTimeout : Int
  shutdownTimeout : Int
  writeStallTimeout : Int

structure ServerCfg where
  bufferCount : Nat
  bufferSize : Nat
  maxBufferCount : Nat
  maxBufferSize : Nat
  maxHandles : Nat
  maxSegmentBytes : Nat
  maxInFlight : Nat
  maxMessage : Nat
  openTimeout : Int
  shutdownTimeout : Int
  writeStallTimeout : Int
  deriving DecidableEq

def orDefault {w : Nat} (x : BitVec w) (d : Nat) : Nat := if x ≠ 0 then x.toNat else d

def ServerCfg.geometryOK (c : ServerCfg) (count size : Nat) : Bool :=
  ¬(count = 0 ∨ isPow2 count = false ∨ count < minBufferCount ∨ c.maxBufferCount < count ∨
    size % 64 ≠ 0 ∨ size < minBufferSize ∨ c.maxBufferSize < size ∨
    c.maxSegmentBytes < 2 * count * size)

def ServerOptions.resolve (o : ServerOptions) : Option ServerCfg :=
  let c : ServerCfg :=
    { bufferCount := orDefault o.defaultBufferCount 64
      bufferSize := orDefault o.defaultBufferSize 16384
      maxBufferCount := orDefault o.maxBufferCount Bindgen.maxBufferCount
      maxBufferSize := orDefault o.maxBufferSize Bindgen.maxBufferSize
      maxHandles := orDefault o.maxHandles 4096
      maxSegmentBytes := orDefault o.maxSegmentBytes 67108864
      maxInFlight := o.maxInFlight.toNat
      maxMessage := orDefault o.maxMessage 16777216
      openTimeout := withDefault o.openTimeout 5000000000
      shutdownTimeout := withDefault o.shutdownTimeout 5000000000
      writeStallTimeout := withDefault o.writeStallTimeout 10000000000 }
  if Bindgen.maxBufferCount < c.maxBufferCount ∨ Bindgen.maxBufferSize < c.maxBufferSize ∨
      maxHandleCount < c.maxHandles ∨ hardMaxMessage < c.maxMessage ∨ c.maxMessage < minMaxMessage then
    none
  else if c.openTimeout < 0 ∨ c.shutdownTimeout < 0 ∨ c.writeStallTimeout < 0 then none
  else if c.geometryOK c.bufferCount c.bufferSize = false then none
  else some c

def ServerCfg.grant (c : ServerCfg) (count size : Nat) : Option Grant :=
  let count := if count = 0 then c.bufferCount else count
  let size := if size = 0 then c.bufferSize else size
  if c.geometryOK count size then some ⟨count, size⟩ else none

/-! ## HELLO -/

/-- The 64 bytes of both bodies: the magic, the version, the numbers at 8, 12, ..., 28 and the
digest. -/
def helloBytes (minor n8 n12 n16 n20 n24 n28 : Nat) (digest : Digest) : List Byte :=
  magic ++ (le 2 protoMajor ++ (le 2 minor ++ (le 4 n8 ++ (le 4 n12 ++ (le 4 n16 ++ (le 4 n20 ++
    (le 4 n24 ++ (le 4 n28 ++ digest.1))))))))

def putHello (digest : Digest) (g : Grant) (cfg : Config) : List Byte :=
  putHeader ⟨kindHello, 0, 0, 0, BitVec.ofNat 32 helloBody, 0⟩ ++
    helloBytes protoMinor 0 g.size g.count cfg.maxInFlight.toNat cfg.maxMessage.toNat 0 digest

structure Session where
  cfg : ServerCfg
  geometry : Grant
  digest : Digest

structure Granted where
  maxInFlight : Nat
  maxMessage : Nat
  deriving DecidableEq

def Session.reply (s : Session) (aux : U32) (minor : Nat) (g : Granted) : List Byte :=
  putHeader ⟨kindHelloReply, 0, 0, 0, BitVec.ofNat 32 helloBody, aux⟩ ++
    helloBytes minor 0 (if aux = 0 then g.maxInFlight else 0) (if aux = 0 then g.maxMessage else 0)
      (if aux = 0 then s.cfg.maxHandles else 0) 0 0 s.digest

structure HelloResult where
  reply : List Byte
  active : Option Granted

def Session.helloAux (s : Session) (body : List Byte) (total : Nat) : U32 :=
  let mif := leAt body 20 4
  let msg := leAt body 24 4
  if total ≠ helloBody then helloBad
  else if body.take 4 ≠ magic ∨ leAt body 8 4 ≠ 0 ∨ leAt body 28 4 ≠ 0 then helloBad
  else if leAt body 4 2 ≠ protoMajor then helloVersion
  else if (body.drop 32).take 32 ≠ s.digest.1 then helloDigestMismatch
  else if leAt body 12 4 ≠ s.geometry.size ∨ leAt body 16 4 ≠ s.geometry.count then helloGeometry
  else if (msg ≠ 0 ∧ (msg < minMaxMessage ∨ hardMaxMessage < msg)) ∨ s.geometry.count < mif then
    helloLimit
  else helloOK

def Session.limits (s : Session) (body : List Byte) : Granted :=
  let mif := leAt body 20 4
  let msg := leAt body 24 4
  let cap := if s.cfg.maxInFlight ≠ 0 then min s.cfg.maxInFlight s.geometry.count else s.geometry.count
  ⟨min (if mif ≠ 0 then mif else s.geometry.count) cap,
    min (if msg ≠ 0 then msg else s.cfg.maxMessage) s.cfg.maxMessage⟩

def Session.onHello (s : Session) (body : List Byte) (total : Nat) : HelloResult :=
  let aux := s.helloAux body total
  let minor := if total ≠ helloBody then 0 else min (leAt body 6 2) protoMinor
  if aux ≠ helloOK then ⟨s.reply aux minor ⟨0, 0⟩, none⟩
  else ⟨s.reply helloOK minor (s.limits body), some (s.limits body)⟩

def Session.rxHello (s : Session) (frame : List Byte) : Option HelloResult :=
  if frame.length < headerSize then none
  else
    let h := loadHeader frame
    let body := frame.drop headerSize
    if h.flags ≠ 0 then none
    else if h.kind ≠ kindHello then none
    else if body.length ≠ min h.total.toNat (s.geometry.size - headerSize) ∨
        s.cfg.maxMessage < h.total.toNat ∨ hardMaxMessage < h.total.toNat then none
    else some (s.onHello body h.total.toNat)

/-! ## HELLO_REPLY -/

inductive ReplyError where
  | protocol (reason : String)
  | mismatch (reason : U32) (here remote : List Byte)
  deriving DecidableEq

def parseHelloReply (frame : List Byte) (n : Nat) (digest : Digest) (cfg : Config) (g : Grant) :
    Except ReplyError Bounds :=
  let bad (reason : String) : Except ReplyError Bounds := .error (.protocol ("HELLO_REPLY: " ++ reason))
  if n ≠ headerSize + helloBody then bad "frame length"
  else
    let h := loadHeader frame
    if h.kind ≠ kindHelloReply ∨ h.flags ≠ 0 ∨ h.op ≠ 0 ∨ h.id ≠ 0 ∨ h.total.toNat ≠ helloBody then
      bad "header"
    else
      let p := (frame.take n).drop headerSize
      let remote := (p.drop 32).take 32
      let mif := leAt p 12 4
      let mm := leAt p 16 4
      let mh := leAt p 20 4
      if p.take 4 ≠ magic then bad "magic"
      else if h.aux ≠ helloOK then .error (.mismatch h.aux digest.1 remote)
      else if leAt p 4 2 ≠ protoMajor ∨ protoMinor < leAt p 6 2 then bad "protocol revision"
      else if leAt p 8 4 ≠ 0 then bad "flags granted that were not requested"
      else if remote ≠ digest.1 then .error (.mismatch helloDigestMismatch digest.1 remote)
      else if mif < 1 ∨ cfg.maxInFlight < mif ∨ g.count < mif then bad "granted max_in_flight"
      else if mm < minMaxMessage ∨ cfg.maxMessage < mm then bad "granted max_message"
      else if mh < 1 ∨ maxHandleCount < mh then bad "granted max_handles"
      else .ok ⟨g.count, g.size, mif, mm, mh⟩

def readReply (frame : List Byte) (digest : Digest) (cfg : Config) (g : Grant) : Except ReplyError Bounds :=
  parseHelloReply ((frame ++ List.replicate 80 0).take 80) frame.length digest cfg g

/-! ## Both bodies are read back as they were put -/

structure HelloFields (b : List Byte) (minor n8 n12 n16 n20 n24 n28 : Nat) (digest : Digest) : Prop where
  length : b.length = helloBody
  magic : b.take 4 = magic
  major : leAt b 4 2 = protoMajor
  minor : leAt b 6 2 = minor
  n8 : leAt b 8 4 = n8
  n12 : leAt b 12 4 = n12
  n16 : leAt b 16 4 = n16
  n20 : leAt b 20 4 = n20
  n24 : leAt b 24 4 = n24
  n28 : leAt b 28 4 = n28
  digest : (b.drop 32).take 32 = digest.1

theorem leAt_skip (pre b : List Byte) (lo k : Nat) : leAt (pre ++ b) (pre.length + lo) k = leAt b lo k := by
  unfold leAt
  rw [List.drop_append, List.drop_eq_nil_of_le (Nat.le_add_right _ _), List.nil_append,
    Nat.add_sub_cancel_left]

theorem leAt_skip_le (j x : Nat) (b : List Byte) (lo k : Nat) :
    leAt (le j x ++ b) (j + lo) k = leAt b lo k := by
  have h := leAt_skip (le j x) b lo k
  rwa [length_le] at h

theorem leAt_head {k x : Nat} (hx : x < 256 ^ k) (rest : List Byte) : leAt (le k x ++ rest) 0 k = x :=
  leAt_append hx [] rest

theorem helloBytes_fields {minor n8 n12 n16 n20 n24 n28 : Nat} (digest : Digest) (hminor : minor < 65536)
    (h8 : n8 < 4294967296) (h12 : n12 < 4294967296) (h16 : n16 < 4294967296) (h20 : n20 < 4294967296)
    (h24 : n24 < 4294967296) (h28 : n28 < 4294967296) :
    HelloFields (helloBytes minor n8 n12 n16 n20 n24 n28 digest) minor n8 n12 n16 n20 n24 n28 digest := by
  have hskip : ∀ b lo k, leAt (Bindgen.magic ++ b) (4 + lo) k = leAt b lo k := leAt_skip Bindgen.magic
  refine ⟨?_, ?_, ?_, ?_, ?_, ?_, ?_, ?_, ?_, ?_, ?_⟩
  · simp [helloBytes, Bindgen.magic, helloBody, digest.2]
  · rfl
  · exact (hskip _ 0 2).trans (leAt_head (by decide) _)
  · rw [show 6 = 4 + (2 + 0) from rfl, helloBytes, hskip, leAt_skip_le]
    exact leAt_head hminor _
  · rw [show 8 = 4 + (2 + (2 + 0)) from rfl, helloBytes, hskip, leAt_skip_le, leAt_skip_le]
    exact leAt_head h8 _
  · rw [show 12 = 4 + (2 + (2 + (4 + 0))) from rfl, helloBytes, hskip]
    simp only [leAt_skip_le]
    exact leAt_head h12 _
  · rw [show 16 = 4 + (2 + (2 + (4 + (4 + 0)))) from rfl, helloBytes, hskip]
    simp only [leAt_skip_le]
    exact leAt_head h16 _
  · rw [show 20 = 4 + (2 + (2 + (4 + (4 + (4 + 0))))) from rfl, helloBytes, hskip]
    simp only [leAt_skip_le]
    exact leAt_head h20 _
  · rw [show 24 = 4 + (2 + (2 + (4 + (4 + (4 + (4 + 0)))))) from rfl, helloBytes, hskip]
    simp only [leAt_skip_le]
    exact leAt_head h24 _
  · rw [show 28 = 4 + (2 + (2 + (4 + (4 + (4 + (4 + (4 + 0))))))) from rfl, helloBytes, hskip]
    simp only [leAt_skip_le]
    exact leAt_head h28 _
  · have hpre : helloBytes minor n8 n12 n16 n20 n24 n28 digest =
        (Bindgen.magic ++ le 2 protoMajor ++ le 2 minor ++ le 4 n8 ++ le 4 n12 ++ le 4 n16 ++ le 4 n20 ++
          le 4 n24 ++ le 4 n28) ++ digest.1 := by
      simp only [helloBytes, List.append_assoc]
    rw [hpre, List.drop_left' (by simp [Bindgen.magic])]
    exact List.take_of_length_le digest.2.le

/-! ## What the options allow -/

structure Config.Valid (c : Config) : Prop where
  count : 2 ≤ c.bufferCount ∧ c.bufferCount ≤ 4096
  size : 128 ≤ c.bufferSize ∧ c.bufferSize ≤ 1048576
  inFlight : 1 ≤ c.maxInFlight ∧ c.maxInFlight ≤ c.bufferCount
  message : 4096 ≤ c.maxMessage ∧ c.maxMessage ≤ 1073741824

theorem Options.resolve_valid {o : Options} {c : Config} (h : o.resolve = some c) : c.Valid := by
  simp only [Options.resolve] at h
  split at h
  · cases h
  rename_i hok
  cases h
  simp only [not_or, Bool.not_eq_false, not_lt, validBufferCount, validBufferSize,
    decide_eq_true_eq] at hok
  obtain ⟨hcount, hsize, hmif, hmsg, -⟩ := hok
  exact ⟨⟨hcount.1, hcount.2.1⟩, ⟨hsize.1, hsize.2.1⟩, hmif, hmsg⟩

structure ServerCfg.Valid (c : ServerCfg) : Prop where
  count : c.maxBufferCount ≤ 4096
  size : c.maxBufferSize ≤ 1048576
  handles : 1 ≤ c.maxHandles ∧ c.maxHandles ≤ 65535
  message : 4096 ≤ c.maxMessage ∧ c.maxMessage ≤ 1073741824

theorem orDefault_pos {w : Nat} (x : BitVec w) {d : Nat} (hd : 0 < d) : 0 < orDefault x d := by
  unfold orDefault
  split
  · rename_i hx
    exact Nat.pos_of_ne_zero fun hzero => hx (BitVec.eq_of_toNat_eq (by simpa using hzero))
  · exact hd

theorem ServerOptions.resolve_valid {o : ServerOptions} {c : ServerCfg} (h : o.resolve = some c) :
    c.Valid := by
  simp only [ServerOptions.resolve] at h
  split at h
  · cases h
  rename_i hmax
  split at h
  · cases h
  split at h
  · cases h
  cases h
  simp only [not_or, not_lt] at hmax
  obtain ⟨hcount, hsize, hhandles, hmsg, hmin⟩ := hmax
  exact ⟨hcount, hsize, ⟨orDefault_pos o.maxHandles (by decide), hhandles⟩, hmin, hmsg⟩

structure Grant.Valid (g : Grant) (c : ServerCfg) : Prop where
  count : 2 ≤ g.count ∧ g.count ≤ c.maxBufferCount
  pow2 : isPow2 g.count = true
  size : 128 ≤ g.size ∧ g.size ≤ c.maxBufferSize
  mult : g.size % 64 = 0

theorem ServerCfg.grant_valid {c : ServerCfg} {count size : Nat} {g : Grant}
    (h : c.grant count size = some g) : g.Valid c ∧
      (count ≠ 0 → g.count = count) ∧ (size ≠ 0 → g.size = size) := by
  simp only [ServerCfg.grant] at h
  rw [Option.ite_none_right_eq_some] at h
  obtain ⟨hok, h⟩ := h
  cases h
  simp only [ServerCfg.geometryOK, decide_eq_true_eq, not_or, not_lt, not_not, Bool.not_eq_false] at hok
  obtain ⟨-, hpow, hcount, hcount', hmod, hsize, hsize', -⟩ := hok
  exact ⟨⟨⟨hcount, hcount'⟩, hpow, ⟨hsize, hsize'⟩, hmod⟩, fun hne => if_neg hne, fun hne => if_neg hne⟩

variable {s : Session} {body : List Byte}

theorem Session.helloAux_eq_ok :
    s.helloAux body helloBody = helloOK ↔
      body.take 4 = magic ∧ leAt body 8 4 = 0 ∧ leAt body 28 4 = 0 ∧ leAt body 4 2 = protoMajor ∧
        (body.drop 32).take 32 = s.digest.1 ∧ leAt body 12 4 = s.geometry.size ∧
        leAt body 16 4 = s.geometry.count ∧
        (leAt body 24 4 ≠ 0 → 4096 ≤ leAt body 24 4 ∧ leAt body 24 4 ≤ 1073741824) ∧
        leAt body 20 4 ≤ s.geometry.count := by
  have hreasons : helloBad ≠ helloOK ∧ helloVersion ≠ helloOK ∧ helloDigestMismatch ≠ helloOK ∧
      helloGeometry ≠ helloOK ∧ helloLimit ≠ helloOK := by decide
  unfold Session.helloAux
  dsimp only
  rw [if_neg (by simp)]
  split_ifs with h1 h2 h3 h4 h5
  · simp only [hreasons.1, false_iff]
    tauto
  · simp only [hreasons.2.1, false_iff]
    tauto
  · simp only [hreasons.2.2.1, false_iff]
    tauto
  · simp only [hreasons.2.2.2.1, false_iff]
    tauto
  · simp only [hreasons.2.2.2.2, false_iff, minMaxMessage, hardMaxMessage] at h5 ⊢
    omega
  · simp only [minMaxMessage, hardMaxMessage, not_or, not_and, not_lt, not_not] at h1 h2 h3 h4 h5
    simp only [true_iff]
    exact ⟨h1.1, h1.2.1, h1.2.2, h2, h3, h4.1, h4.2, fun hne => by have := h5.1 hne; omega, h5.2⟩

structure Session.Within (s : Session) (body : List Byte) (g : Granted) : Prop where
  inFlight : 1 ≤ g.maxInFlight ∧ g.maxInFlight ≤ s.geometry.count
  inFlightCfg : s.cfg.maxInFlight ≠ 0 → g.maxInFlight ≤ s.cfg.maxInFlight
  inFlightReq : leAt body 20 4 ≠ 0 → g.maxInFlight ≤ leAt body 20 4
  message : 4096 ≤ g.maxMessage ∧ g.maxMessage ≤ s.cfg.maxMessage
  messageReq : leAt body 24 4 ≠ 0 → g.maxMessage ≤ leAt body 24 4
  handles : 1 ≤ s.cfg.maxHandles ∧ s.cfg.maxHandles ≤ 65535

theorem Session.limits_within (hcfg : s.cfg.Valid) (hgeo : s.geometry.Valid s.cfg)
    (hok : s.helloAux body helloBody = helloOK) : s.Within body (s.limits body) := by
  obtain ⟨-, -, -, -, -, -, -, hmsg, hmif⟩ := Session.helloAux_eq_ok.1 hok
  have hcount := hgeo.count
  have hmessage := hcfg.message
  unfold Session.limits
  constructor
  · dsimp only
    split_ifs <;> omega
  · intro hne
    dsimp only
    rw [if_pos hne]
    omega
  · intro hne
    dsimp only
    rw [if_pos hne]
    exact Nat.min_le_left _ _
  · dsimp only
    split_ifs with hne
    · have := hmsg hne
      omega
    · omega
  · intro hne
    dsimp only
    rw [if_pos hne]
    exact Nat.min_le_left _ _
  · exact hcfg.handles

theorem Session.reply_parts (aux : U32) {minor : Nat} (hminor : minor ≤ protoMinor) {g : Granted}
    (hcfg : s.cfg.Valid) (hmif : g.maxInFlight ≤ 4096) (hmsg : g.maxMessage ≤ 1073741824) :
    (s.reply aux minor g).length = 80 ∧
      loadHeader (s.reply aux minor g) = ⟨kindHelloReply, 0, 0, 0, BitVec.ofNat 32 helloBody, aux⟩ ∧
      HelloFields ((s.reply aux minor g).drop headerSize) minor 0
        (if aux = 0 then g.maxInFlight else 0) (if aux = 0 then g.maxMessage else 0)
        (if aux = 0 then s.cfg.maxHandles else 0) 0 0 s.digest := by
  have hhandles := hcfg.handles
  unfold protoMinor at hminor
  have hfields : HelloFields (helloBytes minor 0 (if aux = 0 then g.maxInFlight else 0)
      (if aux = 0 then g.maxMessage else 0) (if aux = 0 then s.cfg.maxHandles else 0) 0 0 s.digest)
      minor 0 (if aux = 0 then g.maxInFlight else 0) (if aux = 0 then g.maxMessage else 0)
      (if aux = 0 then s.cfg.maxHandles else 0) 0 0 s.digest := by
    refine helloBytes_fields s.digest (by omega) (by decide) ?_ ?_ ?_ (by decide) (by decide)
    · split <;> omega
    · split <;> omega
    · split <;> omega
  refine ⟨?_, loadHeader_putHeader _ _, ?_⟩
  · have hlen := hfields.length
    unfold Session.reply
    rw [List.length_append, length_putHeader, hlen]
    rfl
  · unfold Session.reply
    rwa [List.drop_left' (length_putHeader _)]

theorem readReply_eq {frame : List Byte} (hlen : frame.length = 80) (digest : Digest) (cfg : Config)
    (g : Grant) : readReply frame digest cfg g = parseHelloReply frame 80 digest cfg g := by
  unfold readReply
  rw [List.take_left' hlen, hlen]

theorem readReply_mismatch {aux : U32} (haux : aux ≠ helloOK) {minor : Nat} (hminor : minor ≤ protoMinor)
    (hcfg : s.cfg.Valid) (digest : Digest) (cfg : Config) (g : Grant) :
    readReply (s.reply aux minor ⟨0, 0⟩) digest cfg g =
      .error (.mismatch aux digest.1 s.digest.1) := by
  obtain ⟨hlen, hheader, hfields⟩ := Session.reply_parts (s := s) aux hminor (g := ⟨0, 0⟩) hcfg
    (by decide) (by decide)
  have htake : (s.reply aux minor ⟨0, 0⟩).take 80 = s.reply aux minor ⟨0, 0⟩ :=
    List.take_of_length_le hlen.le
  rw [readReply_eq hlen]
  unfold parseHelloReply
  dsimp only
  rw [if_neg (by decide), hheader, if_neg (by simp [helloBody]), htake, hfields.magic, if_neg (by simp),
    if_pos haux, hfields.digest]

theorem readReply_ok {minor : Nat} (hminor : minor ≤ protoMinor) (hcfg : s.cfg.Valid) {g : Granted}
    {cfg : Config} {grant : Grant} (hcount : grant.count ≤ 4096)
    (hmif : 1 ≤ g.maxInFlight ∧ (g.maxInFlight : Int) ≤ cfg.maxInFlight ∧ g.maxInFlight ≤ grant.count)
    (hmsg : 4096 ≤ g.maxMessage ∧ (g.maxMessage : Int) ≤ cfg.maxMessage ∧ g.maxMessage ≤ 1073741824) :
    readReply (s.reply helloOK minor g) s.digest cfg grant =
      .ok ⟨grant.count, grant.size, g.maxInFlight, g.maxMessage, s.cfg.maxHandles⟩ := by
  obtain ⟨hlen, hheader, hfields⟩ := Session.reply_parts (s := s) helloOK hminor (g := g) hcfg
    (by omega) (by omega)
  have htake : (s.reply helloOK minor g).take 80 = s.reply helloOK minor g :=
    List.take_of_length_le hlen.le
  have hhandles := hcfg.handles
  have hok : helloOK = 0 := rfl
  rw [if_pos hok, if_pos hok, if_pos hok] at hfields
  rw [readReply_eq hlen]
  unfold parseHelloReply
  dsimp only
  rw [if_neg (by decide), hheader, if_neg (by simp [helloBody]), htake, hfields.magic, if_neg (by simp),
    if_neg (by simp), hfields.major, hfields.minor, if_neg (by omega), hfields.n8, if_neg (by simp),
    hfields.digest, if_neg (by simp), hfields.n12, hfields.n16, hfields.n20,
    if_neg (by omega), if_neg (by unfold minMaxMessage; omega), if_neg (by unfold maxHandleCount; omega)]

theorem Session.rx_putHello (hscfg : s.cfg.Valid) (hgeo : s.geometry.Valid s.cfg) {cfg : Config}
    (hcfg : cfg.Valid) (hcount : (s.geometry.count : Int) = cfg.bufferCount) :
    ∃ body, leAt body 20 4 = cfg.maxInFlight.toNat ∧ leAt body 24 4 = cfg.maxMessage.toNat ∧
      s.helloAux body helloBody = helloOK ∧
      s.rxHello (putHello s.digest s.geometry cfg) = some (s.onHello body helloBody) := by
  have hsize := hgeo.size
  have hsize' := hscfg.size
  have hcount' := hscfg.count
  have hgcount := hgeo.count
  have hmif := hcfg.inFlight
  have hmsg := hcfg.message
  have hsmsg := hscfg.message
  have hfields : HelloFields (helloBytes protoMinor 0 s.geometry.size s.geometry.count
      cfg.maxInFlight.toNat cfg.maxMessage.toNat 0 s.digest) protoMinor 0 s.geometry.size s.geometry.count
      cfg.maxInFlight.toNat cfg.maxMessage.toNat 0 s.digest :=
    helloBytes_fields s.digest (by decide) (by decide) (by omega) (by omega) (by omega) (by omega)
      (by decide)
  refine ⟨_, hfields.n20, hfields.n24, ?_, ?_⟩
  · rw [Session.helloAux_eq_ok]
    refine ⟨hfields.magic, hfields.n8, hfields.n28, hfields.major, hfields.digest, hfields.n12,
      hfields.n16, fun _ => ?_, ?_⟩
    · rw [hfields.n24]
      omega
    · rw [hfields.n20]
      omega
  · unfold Session.rxHello putHello
    dsimp only
    have hlen : (helloBytes protoMinor 0 s.geometry.size s.geometry.count cfg.maxInFlight.toNat
      cfg.maxMessage.toNat 0 s.digest).length = 64 := hfields.length
    rw [loadHeader_putHeader, List.drop_left' (length_putHeader _), hlen,
      if_neg (by rw [List.length_append, length_putHeader]; omega), if_neg (by simp), if_neg (by simp)]
    have htotal : (BitVec.ofNat 32 helloBody).toNat = 64 := by decide
    rw [htotal, if_neg]
    · rfl
    · unfold headerSize hardMaxMessage
      omega

/-- With equal digests the HELLO that `putHello` builds is accepted and so is its reply. Every
HELLO of 64 bytes activates the session or is answered with a reason that the client reports. -/
theorem hello_settled {so : ServerOptions} {sc : ServerCfg} (hsc : so.resolve = some sc)
    {reqCount reqSize : Nat} {g : Grant} (hgrant : sc.grant reqCount reqSize = some g) (d : Digest) :
    (∀ o cfg, Options.resolve o = some cfg → cfg.bufferCount = reqCount → cfg.bufferSize = reqSize →
      ∃ r granted, (Session.mk sc g d).rxHello (putHello d g cfg) = some r ∧ r.active = some granted ∧
        validBufferCount g.count = true ∧ validBufferSize g.size = true ∧
        g.count = reqCount ∧ g.size = reqSize ∧
        readReply r.reply d cfg g =
          .ok ⟨g.count, g.size, granted.maxInFlight, granted.maxMessage, sc.maxHandles⟩ ∧
        (1 ≤ granted.maxInFlight ∧ granted.maxInFlight ≤ g.count ∧
          (granted.maxInFlight : Int) ≤ cfg.maxInFlight ∧
          (sc.maxInFlight ≠ 0 → granted.maxInFlight ≤ sc.maxInFlight)) ∧
        (4096 ≤ granted.maxMessage ∧ (granted.maxMessage : Int) ≤ cfg.maxMessage ∧
          granted.maxMessage ≤ sc.maxMessage)) ∧
    (∀ body : List Byte, body.length = helloBody →
      (∃ granted, ((Session.mk sc g d).onHello body helloBody).active = some granted ∧
        (Session.mk sc g d).Within body granted) ∨
      (((Session.mk sc g d).onHello body helloBody).active = none ∧
        ∃ reason, reason ≠ helloOK ∧ ∀ digest cfg g',
          readReply ((Session.mk sc g d).onHello body helloBody).reply digest cfg g' =
            .error (.mismatch reason digest.1 d.1))) := by
  have hscfg := ServerOptions.resolve_valid hsc
  obtain ⟨hgeo, hreqCount, hreqSize⟩ := ServerCfg.grant_valid hgrant
  constructor
  · intro o cfg ho hcount hsize
    have hcfg := Options.resolve_valid ho
    have hccount := hcfg.count
    have hcsize := hcfg.size
    have hgcount := hgeo.count
    have hgsize := hgeo.size
    have hc : g.count = reqCount := hreqCount (by omega)
    have hs : g.size = reqSize := hreqSize (by omega)
    obtain ⟨body, hmif, hmsg, haux, hrx⟩ := Session.rx_putHello (s := ⟨sc, g, d⟩) hscfg hgeo hcfg
      (by dsimp only; omega)
    have hwithin := Session.limits_within (s := ⟨sc, g, d⟩) hscfg hgeo haux
    have hin := hcfg.inFlight
    have hmm := hcfg.message
    have hbufs := hscfg.count
    have hsizes := hscfg.size
    have hsmsg := hscfg.message
    have hmif' := hwithin.inFlightReq (by omega)
    have hmsg' := hwithin.messageReq (by omega)
    have h1 := hwithin.inFlight
    have h2 := hwithin.message
    dsimp only at h1 h2
    refine ⟨_, (Session.mk sc g d).limits body, hrx, ?_, ?_, ?_, hc, hs, ?_, ⟨h1.1, h1.2, by omega,
      hwithin.inFlightCfg⟩, h2.1, by omega, h2.2⟩
    · unfold Session.onHello
      dsimp only
      rw [haux, if_neg (by simp)]
    · unfold validBufferCount minBufferCount maxBufferCount
      exact decide_eq_true ⟨by omega, by omega, hgeo.pow2⟩
    · have hmult := hgeo.mult
      unfold validBufferSize minBufferSize maxBufferSize
      exact decide_eq_true ⟨by omega, by omega, by omega⟩
    · unfold Session.onHello
      dsimp only
      rw [haux, if_neg (by simp)]
      refine readReply_ok (s := ⟨sc, g, d⟩) ?_ hscfg (by omega) ⟨h1.1, by omega, h1.2⟩ ⟨h2.1, by omega, by omega⟩
      rw [if_neg (by simp)]
      exact Nat.min_le_right _ _
  · intro body hlen
    unfold Session.onHello
    dsimp only
    by_cases haux : (Session.mk sc g d).helloAux body helloBody = helloOK
    · rw [if_neg (not_not.2 haux)]
      exact .inl ⟨_, rfl, Session.limits_within (s := ⟨sc, g, d⟩) hscfg hgeo haux⟩
    · rw [if_pos haux]
      refine .inr ⟨rfl, _, haux, fun digest cfg g' => ?_⟩
      refine readReply_mismatch (s := ⟨sc, g, d⟩) haux ?_ hscfg digest cfg g'
      rw [if_neg (by simp)]
      exact Nat.min_le_right _ _

theorem hello_settled_limits :
    ∃ so sc g o cfg, ServerOptions.resolve so = some sc ∧ sc.grant 64 16384 = some g ∧
      Options.resolve o = some cfg ∧ cfg.bufferCount = (64 : Nat) ∧ cfg.bufferSize = (16384 : Nat) ∧
      sc.maxInFlight = 16 ∧ cfg.maxInFlight = 32 ∧ sc.maxMessage = 65536 ∧ cfg.maxMessage = 8192 ∧
      ∀ d, ∃ r granted, (Session.mk sc g d).rxHello (putHello d g cfg) = some r ∧
        r.active = some granted ∧ granted.maxInFlight ≤ 16 ∧ granted.maxMessage ≤ 8192 := by
  let so : ServerOptions := ⟨0, 0, 0, 0, 0, 0, 16, 65536, 0, 0, 0⟩
  let o : Options := ⟨0, 0, 32, 8192, 0, 0, 0⟩
  let sc : ServerCfg := ⟨64, 16384, 4096, 1048576, 4096, 67108864, 16, 65536, 5000000000, 5000000000,
    10000000000⟩
  have hsc : so.resolve = some sc := by decide +kernel
  have hg : sc.grant 64 16384 = some ⟨64, 16384⟩ := by decide +kernel
  let cfg : Config := ⟨64, 16384, 32, 8192, 5000000000, 5000000000, 0⟩
  have hcfg : o.resolve = some cfg := by decide +kernel
  refine ⟨so, sc, ⟨64, 16384⟩, o, cfg, hsc, hg, hcfg, rfl, rfl, rfl, rfl, rfl, rfl, fun d => ?_⟩
  obtain ⟨r, granted, hrx, hactive, -, -, -, -, -, ⟨-, -, -, hin⟩, -, hmessage, -⟩ :=
    (hello_settled hsc hg d).1 o cfg hcfg rfl rfl
  exact ⟨r, granted, hrx, hactive, hin (by decide), Int.ofNat_le.mp hmessage⟩

end Hqq.Bindgen
