import Hqq.Advanced.Chunking

/-!
# The body of a response

`ResponseWriter` and `respond` (`rpc.go`) on the message pool. `none` is a panic.
-/

namespace Hqq.Advanced

def errCodeInvalidOp : Word := 6
def errCodeBufferOverflow : Word := 7

/-- `got` counts the calls of `pool.get`, and `released` has the numbers of those whose buffer was
given back. The body is from the last one. -/
structure ResponseWriter where
  body : Option Message
  status : Word
  failed : Bool
  got : Nat
  released : List Nat
  deriving DecidableEq

namespace ResponseWriter

def fresh : ResponseWriter := ⟨none, 0, false, 0, []⟩

/-- `w.body.Release()`, which does nothing for `nil`. -/
def release (w : ResponseWriter) : List Nat :=
  if w.body.isSome then w.released ++ [w.got - 1] else w.released

variable (cfg : Config) (env : Env)

/-- The `switch` of `Write`. -/
def grow (w : ResponseWriter) (n need : Nat) : Option ResponseWriter :=
  match w.body with
  | none => do
    let g ← poolGet cfg env need
    return { w with body := some g, got := w.got + 1 }
  | some m =>
    if m.data.length < need then do
      let g ← poolGet cfg env need
      let old ← slice m.data 0 n
      let data ← copyTo g.data 0 g.data.length old
      return { w with body := some { g with data := data }, got := w.got + 1, released := w.release }
    else some w

/-- `false` is `ErrBufferOverflow`. -/
def write (w : ResponseWriter) (p : Slice) : Option (ResponseWriter × Bool) :=
  let n := (w.body.map Message.n).getD 0
  let limit := if word n ≤ cfg.maxMessageSize then word n else cfg.maxMessageSize
  if cfg.maxMessageSize - limit < word p.1.length then some (w, false)
  -- `need` is an `int`. If the sum wraps it is negative, and no slice ends there.
  else if maxInt64 < n + p.1.length then none
  else do
    let w ← w.grow cfg env n (n + p.1.length)
    let m ← w.body
    let data ← copyTo m.data n (n + p.1.length) p.1
    return ({ w with body := some { m with data := data, n := n + p.1.length } }, true)

/-- `WriteError` up to its call of `Write`. -/
def fail (w : ResponseWriter) (status : Word) : ResponseWriter where
  body := w.body.map fun m => { m with n := 0 }
  status := if status = 0 then errCodeInvalidOp else status
  failed := true
  got := w.got
  released := w.released

def writeError (w : ResponseWriter) (status : Word) (p : Slice) : Option ResponseWriter := do
  let (w, ok) ← (w.fail status).write cfg env p
  return if ok then w else { w with status := errCodeBufferOverflow }

end ResponseWriter

/-- What `sendResponse` hands to `sendAdvancedPayload`. -/
structure Response where
  flags : Word
  aux : Word
  payload : List Byte
  deriving DecidableEq

def sendResponse (w : ResponseWriter) : Option Response := do
  let payload ← match w.body with
    | some m => m.bytes
    | none => some []
  return ⟨if w.failed then advFlagResponse ||| advFlagError else advFlagResponse,
    if w.failed then w.status else 0, payload⟩

/-- The response, if one is sent, and the buffers that were given back. -/
def respond (w : ResponseWriter) (skip : Bool) : Option (Option Response × List Nat) := do
  let sent ← if skip then some none else (sendResponse w).map some
  return (sent, w.release)

inductive Reply where
  | write (env : Env) (p : Slice)
  | writeError (env : Env) (status : Word) (p : Slice)

def ResponseWriter.reply (cfg : Config) (w : ResponseWriter) : Reply → Option ResponseWriter
  | .write env p => (w.write cfg env p).map Prod.fst
  | .writeError env status p => w.writeError cfg env status p

/-- The calls of a handler. -/
def serve (cfg : Config) (w : ResponseWriter) (calls : List Reply) : Option ResponseWriter :=
  calls.foldlM (fun w call => w.reply cfg call) w

/-- What a response is to be: `WriteError` replaces it, and `Write` appends what fits. -/
structure Answer where
  body : List Byte
  failed : Bool
  status : Word

def Answer.next (max : Nat) (a : Answer) : Reply → Answer
  | .write _ p => if a.body.length + p.1.length ≤ max then { a with body := a.body ++ p.1 } else a
  | .writeError _ status p =>
    if p.1.length ≤ max then ⟨p.1, true, if status = 0 then errCodeInvalidOp else status⟩
    else ⟨[], true, errCodeBufferOverflow⟩

def Answer.all (cfg : Config) (calls : List Reply) : Answer :=
  calls.foldl (Answer.next cfg.maxMessageSize.toNat) ⟨[], false, 0⟩

def Answer.response (a : Answer) : Response :=
  ⟨if a.failed then advFlagResponse ||| advFlagError else advFlagResponse,
    if a.failed then a.status else 0, a.body⟩

namespace ResponseWriter

structure Holds (cfg : Config) (w : ResponseWriter) (a : Answer) : Prop where
  limit : a.body.length ≤ cfg.maxMessageSize.toNat
  nil : w.body = none → a.body = []
  room : ∀ m, w.body = some m → m.off = 0 ∧ m.n = a.body.length ∧ m.n ≤ m.data.length ∧
    m.data.take m.n = a.body
  books : w.release = List.range w.got
  failed : w.failed = a.failed
  status : w.status = a.status

variable {cfg : Config} {w w' : ResponseWriter} {a : Answer}

theorem Holds.n_eq (h : w.Holds cfg a) : (w.body.map Message.n).getD 0 = a.body.length := by
  cases hbody : w.body with
  | none => simp [h.nil hbody]
  | some m => exact (h.room m hbody).2.1

/-- The unsigned test is the one on numbers. -/
theorem limit_iff {n : Nat} (hn : n ≤ cfg.maxMessageSize.toNat) (p : Slice) :
    cfg.maxMessageSize - (if word n ≤ cfg.maxMessageSize then word n else cfg.maxMessageSize) <
      word p.1.length ↔ cfg.maxMessageSize.toNat < n + p.1.length := by
  have hmax := cfg.maxMessageSize.isLt
  have hword : (word n).toNat = n := by rw [word_toNat, Nat.mod_eq_of_lt (by omega)]
  have hle : word n ≤ cfg.maxMessageSize := by rwa [BitVec.le_def, hword]
  have hlen := p.2
  rw [if_pos hle, BitVec.lt_def, BitVec.toNat_sub_of_le hle, hword, word_toNat,
    Nat.mod_eq_of_lt (by omega)]
  omega

theorem Holds.grow (h : w.Holds cfg a) (env : Env) {need : Nat} (hn : a.body.length ≤ need)
    (hmax : need ≤ cfg.maxMessageSize.toNat) (hint : need ≤ maxInt64) :
    ∃ m k released, w.grow cfg env a.body.length need =
        some { w with body := some m, got := k, released := released } ∧
      m.off = 0 ∧ need ≤ m.data.length ∧ m.data.take a.body.length = a.body ∧
      released ++ [k - 1] = List.range k := by
  obtain ⟨g, hg, -, hoff, -, hlen⟩ := poolGet_eq env hmax hint
  have hbooks := h.books
  unfold ResponseWriter.grow
  unfold release at hbooks
  cases hbody : w.body with
  | none =>
    rw [hbody, if_neg (by simp)] at hbooks
    simp only [hg, Option.bind_eq_bind, Option.bind_some]
    exact ⟨g, _, _, rfl, hoff, hlen, by simp [h.nil hbody], by simp [hbooks, List.range_succ]⟩
  | some m =>
    obtain ⟨hmoff, hmn, hmlen, hmtake⟩ := h.room m hbody
    rw [hmn] at hmlen hmtake
    dsimp only
    by_cases hsmall : m.data.length < need
    · rw [if_pos hsmall, hg, slice_zero hmlen, hmtake, h.books]
      simp only [Option.bind_eq_bind, Option.bind_some]
      rw [copyTo_eq (Nat.zero_le _) le_rfl (by omega)]
      refine ⟨_, _, _, rfl, hoff, ?_, by simp, by simp [List.range_succ]⟩
      simp only [List.take_zero, List.nil_append, List.length_append, List.length_drop]
      omega
    · rw [if_neg hsmall]
      rw [hbody, if_pos Option.isSome_some] at hbooks
      exact ⟨m, _, _, by rw [← hbody], hmoff, by omega, hmtake, hbooks⟩

/-- All that `Write` can do. -/
theorem Holds.write (h : w.Holds cfg a) (env : Env) (p : Slice) :
    match w.write cfg env p with
    | none => maxInt64 < a.body.length + p.1.length ∧
        a.body.length + p.1.length ≤ cfg.maxMessageSize.toNat
    | some (w', false) => cfg.maxMessageSize.toNat < a.body.length + p.1.length ∧ w' = w
    | some (w', true) => a.body.length + p.1.length ≤ cfg.maxMessageSize.toNat ∧
        a.body.length + p.1.length ≤ maxInt64 ∧ w'.Holds cfg { a with body := a.body ++ p.1 } := by
  have hlimit := limit_iff h.limit p
  unfold ResponseWriter.write
  rw [h.n_eq]
  dsimp only
  by_cases hbig : cfg.maxMessageSize.toNat < a.body.length + p.1.length
  · rw [if_pos (hlimit.2 hbig)]
    exact ⟨hbig, rfl⟩
  rw [if_neg (mt hlimit.1 hbig)]
  by_cases hwrap : maxInt64 < a.body.length + p.1.length
  · rw [if_pos hwrap]
    exact ⟨hwrap, not_lt.1 hbig⟩
  rw [not_lt] at hbig hwrap
  obtain ⟨m, k, released, hgrow, hoff, hlen, htake, hbooks⟩ :=
    h.grow env (Nat.le_add_right _ _) hbig hwrap
  rw [if_neg (not_lt.2 hwrap), hgrow]
  simp only [Option.bind_eq_bind, Option.bind_some]
  rw [copyTo_eq (Nat.le_add_right _ _) hlen (by omega), htake]
  refine ⟨hbig, hwrap, by simpa using hbig, nofun, ?_, hbooks, h.failed, h.status⟩
  rintro _ ⟨⟩
  refine ⟨hoff, by simp, ?_, by simp [List.take_append]⟩
  simp only [List.length_append, List.length_drop]
  omega

theorem Holds.fail (h : w.Holds cfg a) (status : Word) :
    (w.fail status).Holds cfg ⟨[], true, if status = 0 then errCodeInvalidOp else status⟩ where
  limit := Nat.zero_le _
  nil := fun _ => rfl
  room := fun m hm => by
    obtain ⟨m', hm', rfl⟩ := Option.map_eq_some_iff.1 hm
    exact ⟨(h.room m' hm').1, rfl, Nat.zero_le _, rfl⟩
  books := by simpa [release, ResponseWriter.fail] using h.books
  failed := rfl
  status := rfl

theorem Holds.reply (h : w.Holds cfg a) {call : Reply} (hw : w.reply cfg call = some w') :
    w'.Holds cfg (a.next cfg.maxMessageSize.toNat call) := by
  cases call with
  | write env p =>
    obtain ⟨⟨w₁, ok⟩, hwrite, rfl⟩ := Option.map_eq_some_iff.1 hw
    have hspec := h.write env p
    rw [hwrite] at hspec
    unfold Answer.next
    dsimp only
    cases ok with
    | false => rwa [if_neg (not_le.2 hspec.1), hspec.2]
    | true =>
      rw [if_pos hspec.1]
      exact hspec.2.2
  | writeError env status p =>
    obtain ⟨⟨w₁, ok⟩, hwrite, hw'⟩ := Option.bind_eq_some_iff.1 hw
    have hfail := h.fail status
    have hspec := hfail.write env p
    rw [hwrite] at hspec
    simp only [List.length_nil, Nat.zero_add] at hspec
    unfold Answer.next
    dsimp only
    cases ok with
    | false =>
      obtain ⟨hbig, rfl⟩ := hspec
      rw [if_neg (not_le.2 hbig)]
      cases hw'
      exact ⟨hfail.limit, hfail.nil, hfail.room, hfail.books, rfl, rfl⟩
    | true =>
      rw [if_pos hspec.1]
      cases hw'
      exact hspec.2.2

/-- The body is empty, and no slice is longer than `MaxInt64`. -/
theorem Holds.writeError (h : w.Holds cfg a) (env : Env) (status : Word) (p : Slice) :
    ∃ w', w.writeError cfg env status p = some w' := by
  have hspec := (h.fail status).write env p
  unfold ResponseWriter.writeError
  cases hwrite : (w.fail status).write cfg env p with
  | none =>
    rw [hwrite] at hspec
    simp only [List.length_nil, Nat.zero_add] at hspec
    exact absurd hspec.1 (not_lt.2 (p.2.trans (by decide)))
  | some r => exact ⟨_, rfl⟩

theorem Holds.serve {calls : List Reply} (h : w.Holds cfg a) (hw : serve cfg w calls = some w') :
    w'.Holds cfg (calls.foldl (Answer.next cfg.maxMessageSize.toNat) a) := by
  induction calls generalizing w a with
  | nil =>
    cases hw
    exact h
  | cons call calls ih =>
    obtain ⟨w₁, hw₁, hrest⟩ := Option.bind_eq_some_iff.1 hw
    exact ih (h.reply hw₁) hrest

theorem Holds.fresh : fresh.Holds cfg ⟨[], false, 0⟩ :=
  ⟨Nat.zero_le _, fun _ => rfl, nofun, rfl, rfl, rfl⟩

theorem Holds.respond (h : w.Holds cfg a) (skip : Bool) :
    respond w skip = some (if skip then none else some a.response, List.range w.got) := by
  have hsend : sendResponse w = some a.response := by
    unfold sendResponse Answer.response
    cases hbody : w.body with
    | none => simp [h.failed, h.status, h.nil hbody]
    | some m =>
      obtain ⟨hoff, -, hlen, htake⟩ := h.room m hbody
      simp [Message.bytes, hoff, slice_zero hlen, htake, h.failed, h.status]
  unfold Hqq.Advanced.respond
  rw [hsend, h.books]
  cases skip <;> rfl

end ResponseWriter

/-- A handler that writes its response in any way sends the one that it is to be. Its body always
has room in its buffer, and every buffer that was taken from the pool is given back once. -/
theorem response_sent (cfg : Config) {calls : List Reply} {w : ResponseWriter}
    (h : serve cfg .fresh calls = some w) :
    (∀ skip, respond w skip =
      some (if skip then none else some (Answer.all cfg calls).response, List.range w.got)) ∧
    (∀ m, w.body = some m → m.n ≤ m.data.length) ∧
    (∀ env p, match w.write cfg env p with
      | none => maxInt64 < (Answer.all cfg calls).body.length + p.1.length ∧
          (Answer.all cfg calls).body.length + p.1.length ≤ cfg.maxMessageSize.toNat
      | some (w', accepted) => (accepted = true ↔
            (Answer.all cfg calls).body.length + p.1.length ≤ cfg.maxMessageSize.toNat) ∧
          (accepted = false → w' = w)) ∧
    ∀ env status p, ∃ w', w.writeError cfg env status p = some w' ∧
      respond w' false = some (some (Answer.all cfg (calls ++ [.writeError env status p])).response,
        List.range w'.got) := by
  have hholds := ResponseWriter.Holds.fresh.serve h
  refine ⟨hholds.respond, fun m hm => (hholds.room m hm).2.2.1, fun env p => ?_, fun env status p => ?_⟩
  · have hspec := hholds.write env p
    rcases hwrite : w.write cfg env p with _ | ⟨w', _ | _⟩ <;> rw [hwrite] at hspec
    · exact hspec
    · exact ⟨⟨nofun, fun hle => absurd hspec.1 (not_lt.2 hle)⟩, fun _ => hspec.2⟩
    · exact ⟨⟨fun _ => hspec.1, fun _ => rfl⟩, nofun⟩
  · obtain ⟨w', hw'⟩ := hholds.writeError env status p
    have hreply : w.reply cfg (.writeError env status p) = some w' := hw'
    refine ⟨w', hw', ?_⟩
    rw [Answer.all, List.foldl_append]
    exact (hholds.reply hreply).respond false

/-- The second body needs a larger buffer, the error does not fit, and a byte follows it. -/
theorem response_sent_grown :
    let cfg := newAdvancedLink ⟨100, 0, false⟩
    let env : Env := ⟨[], fun _ => 7, 0⟩
    let calls := [Reply.write env ⟨[1], by decide⟩, .write env ⟨List.replicate 80 2, by decide⟩,
      .writeError env 9 ⟨List.replicate 101 3, by decide⟩, .write env ⟨[4], by decide⟩]
    ∃ w, serve cfg .fresh calls = some w ∧
      respond w false = some (some ⟨48, errCodeBufferOverflow, [4]⟩, [0, 1]) ∧
      ∃ w', w.writeError cfg env 9 ⟨[5], by decide⟩ = some w' := by
  intro cfg env calls
  have hserve : (serve cfg .fresh calls).any (fun w => w.got == 2) = true := by decide +kernel
  obtain ⟨w, hw, hgot⟩ := (Option.any_eq_true _ _).1 hserve
  obtain ⟨hsent, -, -, herror⟩ := response_sent cfg hw
  obtain ⟨w', hw', -⟩ := herror env 9 ⟨[5], by decide⟩
  refine ⟨w, hw, (hsent false).trans ?_, w', hw'⟩
  rw [beq_iff_eq.1 hgot]
  decide +kernel

end Hqq.Advanced
