import Hqq.Superblock.Spec

/-!
# Is the peer alive

One endpoint record, read by openers (`endpointAliveAtOpen`) and by the link on the other side of
it (`checkPeer`, from any number of goroutines). `clock` is monotonic. The wall clock shows anything
at any time.
-/

namespace Hqq.Superblock.Peer

/-! ## The words that are read -/

structure Shared where
  token : Word
  interval : Word
  heartbeat : Word
  epoch : Word
  self : Word

def freshAt (wall : Int) (ts : Word) (timeout : Int) : Bool :=
  decide (-second < wall - ts.toInt) && decide (wall - ts.toInt < timeout)

def watchWindow (interval : Word) : Int := min (3 * interval).toInt (2 * second)

def millisecond : Int := 1000000

def watchStep (interval : Word) : Int := max (interval.toInt / 4) millisecond

/-- The variables of the loop that waits for progress. No instruction reads the last two, the times
at the load of `hb` and at the last load of the heartbeat. -/
structure Watching where
  tok : Word
  interval : Word
  hb : Word
  stop : Int
  loadedAt : Nat
  sampledAt : Nat
  deriving DecidableEq

inductive Opening
  | token
  | interval (tok : Word)
  | heartbeat (tok interval : Word)
  | fresh (tok interval hb : Word) (loadedAt : Nat)
  | window (tok interval hb : Word) (loadedAt : Nat)
  | watch (w : Watching)
  | sleep (w : Watching) (wake : Int)
  | sample (w : Watching)
  | sampleToken (w : Watching)
  | verdict
  | returned (alive : Bool)
  | cancelled
  deriving DecidableEq

def endpointAliveAtOpen (ep : Endpoint) (mem : Shared) (wall : Int) (clock : Nat) :
    Opening → Option Opening
  | .token => some (if !isOwnerToken mem.token then .returned false else .interval mem.token)
  | .interval tok =>
    some (if mem.interval.toInt ≤ 0 then .returned true else .heartbeat tok mem.interval)
  | .heartbeat tok interval =>
    some (if mem.heartbeat = 0 then .returned true else .fresh tok interval mem.heartbeat clock)
  | .fresh tok interval hb loadedAt =>
    some (if freshAt wall hb (effectivePeerTimeout ep interval) then .returned true
      else .window tok interval hb loadedAt)
  | .window tok interval hb loadedAt =>
    some (.watch ⟨tok, interval, hb, clock + watchWindow interval, loadedAt, loadedAt⟩)
  | .watch w =>
    some (if (clock : Int) < w.stop then .sleep w (clock + watchStep w.interval) else .returned false)
  | .sleep w wake => if wake ≤ clock then some (.sample w) else none
  | .sample w =>
    some (if mem.heartbeat ≠ w.hb then .verdict else .sampleToken { w with sampledAt := clock })
  | .sampleToken w => some (if mem.token ≠ w.tok then .verdict else .watch w)
  | .verdict => some (.returned (isOwnerToken mem.token))
  | .returned _ | .cancelled => none

/-! ## The instructions of a check

`Superblock.code` has one clock for both and does not sleep. -/

def shared (mem : Mem) (i : Slot) : Shared where
  token := mem (.token i)
  interval := mem (.interval i)
  heartbeat := mem (.heartbeat i)
  epoch := mem .epoch
  self := mem (.token (match i with | .primary => .secondary | .secondary => .primary))

section

variable (ep : Endpoint) (loc : Locals) (i : Slot) (primaryAlive : Bool)

/-- What is left of `aliveAtOpen` and `watchRound`. -/
def left (o : Opening) : Code :=
  let k := afterVerdict ep loc i primaryAlive
  let window (tok interval hb : Word) : Code :=
    .clock fun now => .jump (.watch loc i primaryAlive tok hb (now + watchWindow interval))
  let fresh (tok interval hb : Word) : Code := .clock fun now =>
    if heartbeatFresh now hb (effectivePeerTimeout ep interval) then k true
    else window tok interval hb
  let heartbeat (tok interval : Word) : Code := .load (.heartbeat i) fun hb =>
    if hb = 0 then k true else fresh tok interval hb
  let verdict : Code := .load (.token i) fun t => k (isOwnerToken t)
  let sampleToken (w : Watching) : Code := .load (.token i) fun t =>
    if t ≠ w.tok then verdict else .jump (.watch loc i primaryAlive w.tok w.hb w.stop)
  match o with
  | .token => aliveAtOpen ep loc i primaryAlive k
  | .interval tok => .load (.interval i) fun interval =>
      if interval.toInt ≤ 0 then k true else heartbeat tok interval
  | .heartbeat tok interval => heartbeat tok interval
  | .fresh tok interval hb _ => fresh tok interval hb
  | .window tok interval hb _ => window tok interval hb
  | .watch w => .jump (.watch loc i primaryAlive w.tok w.hb w.stop)
  | .sleep w _ | .sample w => .load (.heartbeat i) fun h =>
      if h ≠ w.hb then verdict else sampleToken w
  | .sampleToken w => sampleToken w
  | .verdict => verdict
  | .returned alive => k alive
  | .cancelled => .jump .closed

/-- A phase is at most two instructions of `openStandardLink`, which change nothing. -/
theorem endpointAliveAtOpen_exec {mem : Mem} {now : Nat} {o o' : Opening}
    (h : endpointAliveAtOpen ep (shared mem i) now now o = some o') :
    Relation.ReflTransGen (fun p q => p.exec (Superblock.code ep) mem now = some (mem, q))
      (left ep loc i primaryAlive o) (left ep loc i primaryAlive o') := by
  cases o with
  | token | interval | heartbeat | fresh | sample | sampleToken =>
    cases h
    rw [apply_ite (left ep loc i primaryAlive)]
    exact .single rfl
  | window | verdict =>
    cases h
    exact .single rfl
  | watch w =>
    cases h
    -- the jump, and then the clock
    refine .head rfl (.single ?_)
    rw [apply_ite (left ep loc i primaryAlive), ← ite_not]
    simp only [not_lt]
    rfl
  | sleep w wake =>
    simp only [endpointAliveAtOpen] at h
    split at h
    · cases h
      exact .refl
    · cases h
  | returned | cancelled => cases h

end

/-! ## Watching the peer -/

inductive PeerState
  | notConnected
  | connected
  | closed
  | gone
  deriving DecidableEq

inductive PeerErr
  | peerClosed
  | peerGone
  deriving DecidableEq

def PeerState.err : PeerState → Option PeerErr
  | .closed => some .peerClosed
  | .gone => some .peerGone
  | .notConnected | .connected => none

/-- `peerMonitor`. `loadedAt` is the time of the clock at the load of `lastHB`, and nobody reads it. -/
structure Monitor (Tid : Type) where
  status : PeerState
  mu : Option Tid
  token : Word
  lastHB : Word
  lastChange : Nat
  loadedAt : Nat

inductive Checking
  | status
  | lock
  | lockedStatus
  | epoch
  | self
  | token
  | now (tok : Word)
  | judge (tok : Word) (now : Nat)
  | register (tok : Word) (now : Nat)
  | interval (now : Nat)
  | heartbeat (now : Nat) (interval : Word)
  | stale
  | set (st : PeerState)
  | unlock (err : Option PeerErr)
  | returned (err : Option PeerErr)
  deriving DecidableEq

structure Link where
  ep : Endpoint
  epoch : Word

def checkPeer {Tid : Type} (l : Link) (mem : Shared) (clock : Nat) (t : Tid) (m : Monitor Tid) :
    Checking → Option (Checking × Monitor Tid)
  | .status =>
    match m.status.err with
    | some err => some (.returned (some err), m)
    | none => some (.lock, m)
  | .lock =>
    match m.mu with
    | none => some (.lockedStatus, { m with mu := some t })
    | some _ => none
  | .lockedStatus =>
    match m.status.err with
    | some err => some (.unlock (some err), m)
    | none => some (.epoch, m)
  | .epoch => some (if mem.epoch ≠ l.epoch then .set .gone else .self, m)
  | .self => some (if mem.self ≠ l.ep.token then .set .gone else .token, m)
  | .token => some (.now mem.token, m)
  | .now tok => some (.judge tok clock, m)
  | .judge tok now =>
    if tok = detachedToken then some (.set .closed, m)
    else if m.token = 0 then some (if tok ≠ 0 then .register tok now else .unlock none, m)
    else some (if tok ≠ m.token then .set .gone else .interval now, m)
  | .register tok now =>
    some (.set .connected,
      { m with token := tok, lastHB := mem.heartbeat, lastChange := now, loadedAt := clock })
  | .interval now =>
    some (if mem.interval.toInt ≤ 0 then .unlock none else .heartbeat now mem.interval, m)
  | .heartbeat now interval =>
    if mem.heartbeat ≠ m.lastHB then
      some (.unlock none, { m with lastHB := mem.heartbeat, lastChange := now, loadedAt := clock })
    else some (if effectivePeerTimeout l.ep interval < (now : Int) - m.lastChange then .stale
      else .unlock none, m)
  | .stale => some (.unlock PeerState.gone.err, { m with status := .gone })
  | .set st => some (.unlock st.err, { m with status := st })
  | .unlock err => some (.returned err, { m with mu := none })
  | .returned _ => none

inductive Call
  | idle
  | opening (o : Opening)
  | checking (c : Checking)
  deriving DecidableEq

def Call.over : Call → Bool
  | .idle | .opening (.returned _) | .opening .cancelled | .checking (.returned _) => true
  | _ => false

structure State (Tid : Type) where
  mem : Shared
  wall : Int
  clock : Nat
  mon : Monitor Tid
  call : Tid → Call
  /-- The heartbeats so far, and the time of the last one. Nobody reads them. -/
  used : List Word
  storedAt : Nat

inductive Act (Tid : Type)
  | opens (t : Tid)
  | checks (t : Tid)
  | next (t : Tid)
  | cancel (t : Tid)
  | tick (d : Nat)
  | jump (wall : Int)
  | beat (hb : Word)
  | change (mem : Shared)

variable {Tid : Type} [DecidableEq Tid]

def State.set (s : State Tid) (t : Tid) (c : Call) : State Tid :=
  { s with call := Function.update s.call t c }

def step (opts : Tid → Endpoint) (l : Link) (s : State Tid) : Act Tid → Option (State Tid)
  | .opens t => if (s.call t).over then some (s.set t (.opening .token)) else none
  | .checks t => if (s.call t).over then some (s.set t (.checking .status)) else none
  | .next t =>
    match s.call t with
    | .idle => none
    | .opening o =>
      (endpointAliveAtOpen (opts t) s.mem s.wall s.clock o).map fun o' => s.set t (.opening o')
    | .checking c =>
      (checkPeer l s.mem s.clock t s.mon c).map fun r =>
        { s.set t (.checking r.1) with mon := r.2 }
  | .cancel t =>
    match s.call t with
    | .opening (.sleep ..) => some (s.set t (.opening .cancelled))
    | _ => none
  | .tick d => some { s with clock := s.clock + d }
  | .jump wall => some { s with wall := wall }
  | .beat hb => some { s with mem := { s.mem with heartbeat := hb }
                              used := hb :: s.used, storedAt := s.clock }
  | .change mem => some { s with mem := mem }

def start (mem : Shared) (wall : Int) (t0 : Nat) : State Tid where
  mem := mem
  wall := wall
  clock := t0
  mon := ⟨.notConnected, none, 0, 0, 0, 0⟩
  call := fun _ => .idle
  used := [mem.heartbeat]
  storedAt := t0

def machine (opts : Tid → Endpoint) (l : Link) (mem : Shared) (wall : Int) (t0 : Nat) :
    Machine (State Tid) (Act Tid) where
  init := start mem wall t0
  step := step opts l

/-- The peer stays attached, and stores a heartbeat that it never stored before at least once in
every interval of the monotonic clock. -/
def Beats (s : State Tid) : Act Tid → Prop
  | .beat hb => hb ∉ s.used
  | .tick d => (s.clock : Int) + d ≤ s.storedAt + s.mem.interval.toInt
  | .change mem => mem.token = s.mem.token ∧ mem.interval = s.mem.interval ∧
      mem.heartbeat = s.mem.heartbeat
  | _ => True

instance (s : State Tid) : (a : Act Tid) → Decidable (Beats s a)
  | .beat hb => inferInstanceAs (Decidable (hb ∉ s.used))
  | .tick _ => inferInstanceAs (Decidable (_ ≤ _))
  | .change _ => inferInstanceAs (Decidable (_ ∧ _ ∧ _))
  | .opens _ | .checks _ | .next _ | .cancel _ | .jump _ => .isTrue trivial

def Call.watching : Call → Option Watching
  | .opening (.watch w) => some w
  | _ => none

def Call.loads : Call → Option Nat
  | .checking (.register _ now) | .checking (.heartbeat now _) => some now
  | _ => none

/-- Between a load of the heartbeat and its next look at the clock an opener is held up for less
than what its window has beyond one interval. -/
def SamplesPromptly (s : State Tid) : Act Tid → Prop
  | .next t => ∀ w ∈ (s.call t).watching,
      (s.clock : Int) + w.interval.toInt < w.sampledAt + watchWindow w.interval
  | _ => True

instance (s : State Tid) : (a : Act Tid) → Decidable (SamplesPromptly s a)
  | .next t => inferInstanceAs (Decidable (∀ w ∈ (s.call t).watching, _))
  | .opens _ | .checks _ | .cancel _ | .tick _ | .jump _ | .beat _ | .change _ => .isTrue trivial

/-- A link is not held up between its look at the clock and its load of the heartbeat for more
than three intervals. -/
def LoadsPromptly (s : State Tid) : Act Tid → Prop
  | .next t => ∀ now ∈ (s.call t).loads, (s.clock : Int) ≤ now + 3 * s.mem.interval.toInt
  | _ => True

instance (s : State Tid) : (a : Act Tid) → Decidable (LoadsPromptly s a)
  | .next t => inferInstanceAs (Decidable (∀ now ∈ (s.call t).loads, _))
  | .opens _ | .checks _ | .cancel _ | .tick _ | .jump _ | .beat _ | .change _ => .isTrue trivial

inductive Outside (s : State Tid) : Act Tid → State Tid → Prop
  | tick (d : Nat) : Outside s (.tick d) { s with clock := s.clock + d }
  | jump (wall : Int) : Outside s (.jump wall) { s with wall := wall }
  | beat (hb : Word) : Outside s (.beat hb)
      { s with mem := { s.mem with heartbeat := hb }, used := hb :: s.used, storedAt := s.clock }
  | change (mem : Shared) : Outside s (.change mem) { s with mem := mem }

variable {opts : Tid → Endpoint} {l : Link} {s s' : State Tid} {a : Act Tid} {mem : Shared}

structure SameWorld (s s' : State Tid) : Prop where
  mem : s'.mem = s.mem
  clock : s'.clock = s.clock
  used : s'.used = s.used
  storedAt : s'.storedAt = s.storedAt

inductive Stepped (opts : Tid → Endpoint) (l : Link) (s : State Tid) (a : Act Tid) (s' : State Tid) :
    Prop
  | opening (t : Tid) (o o' : Opening) (act : a = .next t) (call : s.call t = .opening o)
      (next : endpointAliveAtOpen (opts t) s.mem s.wall s.clock o = some o')
      (calls : s'.call = Function.update s.call t (.opening o')) (mon : s'.mon = s.mon)
      (world : SameWorld s s')
  | checking (t : Tid) (c c' : Checking) (act : a = .next t) (call : s.call t = .checking c)
      (next : checkPeer l s.mem s.clock t s.mon c = some (c', s'.mon))
      (calls : s'.call = Function.update s.call t (.checking c')) (world : SameWorld s s')
  | turn (t : Tid) (c : Call)
      (fresh : c = .opening .token ∨ c = .checking .status ∨ c = .opening .cancelled)
      (calls : s'.call = Function.update s.call t c) (mon : s'.mon = s.mon) (world : SameWorld s s')
  | outside (out : Outside s a s')

theorem call_cases {t t' : Tid} {c c' : Call} (hcalls : s'.call = Function.update s.call t c)
    (h : s'.call t' = c') : (t' = t ∧ c = c') ∨ (t' ≠ t ∧ s.call t' = c') := by
  rw [hcalls] at h
  by_cases ht : t' = t
  · subst ht
    rw [Function.update_self] at h
    exact .inl ⟨rfl, h⟩
  · rw [Function.update_of_ne ht] at h
    exact .inr ⟨ht, h⟩

omit [DecidableEq Tid] in
theorem Outside.observers (h : Outside s a s') : s'.call = s.call ∧ s'.mon = s.mon := by
  cases h <;> exact ⟨rfl, rfl⟩

theorem step_cases (h : step opts l s a = some s') : Stepped opts l s a s' := by
  cases a with
  | opens t =>
    obtain ⟨-, rfl⟩ := Machine.of_guard h
    exact .turn t _ (.inl rfl) rfl rfl ⟨rfl, rfl, rfl, rfl⟩
  | checks t =>
    obtain ⟨-, rfl⟩ := Machine.of_guard h
    exact .turn t _ (.inr (.inl rfl)) rfl rfl ⟨rfl, rfl, rfl, rfl⟩
  | next t =>
    simp only [step] at h
    split at h
    · cases h
    · next o hcall =>
      obtain ⟨o', ho', rfl⟩ := Option.map_eq_some_iff.mp h
      exact .opening t o o' rfl hcall ho' rfl rfl ⟨rfl, rfl, rfl, rfl⟩
    · next c hcall =>
      obtain ⟨⟨c', m⟩, hc', rfl⟩ := Option.map_eq_some_iff.mp h
      exact .checking t c c' rfl hcall hc' rfl ⟨rfl, rfl, rfl, rfl⟩
  | cancel t =>
    simp only [step] at h
    split at h <;> cases h
    exact .turn t _ (.inr (.inr rfl)) rfl rfl ⟨rfl, rfl, rfl, rfl⟩
  | tick d =>
    cases h
    exact .outside (.tick d)
  | jump wall =>
    cases h
    exact .outside (.jump wall)
  | beat hb =>
    cases h
    exact .outside (.beat hb)
  | change mem =>
    cases h
    exact .outside (.change mem)

/-! ## A peer that beats -/

structure Beating (mem : Shared) (s : State Tid) : Prop where
  token : s.mem.token = mem.token
  interval : s.mem.interval = mem.interval
  used : s.mem.heartbeat ∈ s.used
  stored : s.storedAt ≤ s.clock
  due : (s.clock : Int) ≤ s.storedAt + mem.interval.toInt

def Stamped (s : State Tid) (hb : Word) (since : Nat) : Prop :=
  hb ∈ s.used ∧ (s.mem.heartbeat = hb → s.storedAt ≤ since)

structure Later (s s' : State Tid) : Prop where
  stamped : ∀ hb since, Stamped s hb since → Stamped s' hb since
  clock : s.clock ≤ s'.clock

omit [DecidableEq Tid] in
theorem Beating.stamp (hb : Beating mem s) : Stamped s s.mem.heartbeat s.clock :=
  ⟨hb.used, fun _ => hb.stored⟩

omit [DecidableEq Tid] in
theorem Beating.recent (hb : Beating mem s) {since : Nat} (h : Stamped s s.mem.heartbeat since) :
    (s.clock : Int) ≤ since + mem.interval.toInt := by
  have hdue := hb.due
  have hstored := h.2 rfl
  omega

omit [DecidableEq Tid] in
theorem Beating.of_outside (hi : 0 < mem.interval.toInt) (hb : Beating mem s) (h : Outside s a s')
    (hok : Beats s a) : Beating mem s' ∧ Later s s' := by
  cases h with
  | tick d =>
    have hdue : (s.clock : Int) + d ≤ s.storedAt + s.mem.interval.toInt := hok
    rw [hb.interval] at hdue
    refine ⟨⟨hb.token, hb.interval, hb.used, hb.stored.trans (Nat.le_add_right _ _), ?_⟩,
      fun _ _ h => h, Nat.le_add_right _ _⟩
    push_cast
    exact hdue
  | jump wall => exact ⟨⟨hb.token, hb.interval, hb.used, hb.stored, hb.due⟩, fun _ _ h => h, le_rfl⟩
  | beat w =>
    refine ⟨⟨hb.token, hb.interval, List.mem_cons_self, le_rfl, by dsimp only; omega⟩,
      fun v since hv => ?_, le_rfl⟩
    -- a heartbeat that was loaded before is not the new one
    refine ⟨List.mem_cons_of_mem _ hv.1, fun heq => absurd hv.1 ?_⟩
    rw [← show w = v from heq]
    exact hok
  | change r =>
    obtain ⟨htoken, hinterval, hbeat⟩ := hok
    refine ⟨⟨htoken.trans hb.token, hinterval.trans hb.interval, ?_, hb.stored, hb.due⟩,
      fun v since hv => ⟨hv.1, fun heq => hv.2 (hbeat.symm.trans heq)⟩, le_rfl⟩
    rw [hbeat]
    exact hb.used

omit [DecidableEq Tid] in
theorem Beating.same (hb : Beating mem s) (h : SameWorld s s') : Beating mem s' ∧ Later s s' := by
  refine ⟨⟨?_, ?_, ?_, ?_, ?_⟩, fun v since hv => ?_, h.clock.ge⟩
  · rw [h.mem, hb.token]
  · rw [h.mem, hb.interval]
  · rw [h.mem, h.used]
    exact hb.used
  · rw [h.storedAt, h.clock]
    exact hb.stored
  · rw [h.storedAt, h.clock]
    exact hb.due
  · unfold Stamped
    rw [h.used, h.mem, h.storedAt]
    exact hv

structure Watching.Ok (mem : Shared) (s : State Tid) (w : Watching) : Prop where
  tok : w.tok = mem.token
  interval : w.interval = mem.interval
  stamped : Stamped s w.hb w.loadedAt
  sampled : (w.sampledAt : Int) ≤ w.loadedAt + mem.interval.toInt
  stop : w.loadedAt + watchWindow mem.interval ≤ w.stop

def Opening.Ok (mem : Shared) (s : State Tid) : Opening → Prop
  | .interval tok => tok = mem.token
  | .heartbeat tok i => tok = mem.token ∧ i = mem.interval
  | .fresh tok i hb loadedAt | .window tok i hb loadedAt =>
    tok = mem.token ∧ i = mem.interval ∧ Stamped s hb loadedAt ∧ loadedAt ≤ s.clock
  | .watch w | .sleep w _ | .sample w | .sampleToken w => w.Ok mem s
  | .returned alive => alive = true
  | .token | .verdict | .cancelled => True

omit [DecidableEq Tid] in
theorem Watching.Ok.later {w : Watching} (h : w.Ok mem s) (hl : Later s s') : w.Ok mem s' :=
  ⟨h.tok, h.interval, hl.stamped _ _ h.stamped, h.sampled, h.stop⟩

omit [DecidableEq Tid] in
theorem Opening.Ok.later {o : Opening} (h : o.Ok mem s) (hl : Later s s') : o.Ok mem s' := by
  cases o with
  | fresh tok interval hb loadedAt | window tok interval hb loadedAt =>
    exact ⟨h.1, h.2.1, hl.stamped _ _ h.2.2.1, h.2.2.2.trans hl.clock⟩
  | watch w | sleep w wake | sample w | sampleToken w => exact Watching.Ok.later h hl
  | _ => exact h

omit [DecidableEq Tid] in
theorem Opening.Ok.next {ep : Endpoint} {o o' : Opening} (htok : isOwnerToken mem.token = true)
    (hi : 0 < mem.interval.toInt) (hb : Beating mem s) (h : o.Ok mem s)
    (hprompt : ∀ w, o = .watch w →
      (s.clock : Int) + w.interval.toInt < w.sampledAt + watchWindow w.interval)
    (hnext : endpointAliveAtOpen ep s.mem s.wall s.clock o = some o') : o'.Ok mem s := by
  cases o with
  | token =>
    cases hnext
    rw [hb.token, htok]
    rfl
  | interval tok =>
    cases hnext
    split
    · rfl
    · exact ⟨h, hb.interval⟩
  | heartbeat tok interval =>
    cases hnext
    split
    · rfl
    · exact ⟨h.1, h.2, hb.stamp, le_rfl⟩
  | fresh tok interval hb loadedAt =>
    cases hnext
    split
    · rfl
    · exact h
  | window tok interval hb loadedAt =>
    cases hnext
    obtain ⟨htok', rfl, hstamped, hclock⟩ := h
    exact ⟨htok', rfl, hstamped, by dsimp only; omega, by dsimp only; omega⟩
  | watch w =>
    cases hnext
    have hlate := hprompt w rfl
    have h : w.Ok mem s := h
    have hsampled := h.sampled
    have hstop := h.stop
    rw [h.interval] at hlate
    rw [if_pos (by omega)]
    exact h
  | sleep w wake =>
    obtain ⟨-, hnext⟩ := Option.ite_none_right_eq_some.mp hnext
    cases hnext
    exact h
  | sample w =>
    cases hnext
    split
    · trivial
    · next heq =>
      have h : w.Ok mem s := h
      have hstamped := h.stamped
      rw [← not_not.mp heq] at hstamped
      exact ⟨h.tok, h.interval, h.stamped, hb.recent hstamped, h.stop⟩
  | sampleToken w =>
    cases hnext
    have h : w.Ok mem s := h
    rw [if_neg (not_not.mpr (hb.token.trans h.tok.symm))]
    exact h
  | verdict =>
    cases hnext
    rw [hb.token, htok]
    rfl
  | returned alive => cases hnext
  | cancelled => cases hnext

def Monitor.Ok (mem : Shared) (s : State Tid) (m : Monitor Tid) : Prop :=
  m.token ≠ 0 → Stamped s m.lastHB m.loadedAt ∧
    (m.loadedAt : Int) ≤ m.lastChange + 3 * mem.interval.toInt

def Checking.Ok (mem : Shared) (s : State Tid) (m : Monitor Tid) : Checking → Prop
  | .judge _ time => time ≤ s.clock
  | .register tok time => tok ≠ 0 ∧ time ≤ s.clock
  | .interval time => m.token ≠ 0 ∧ time ≤ s.clock
  | .heartbeat time i => m.token ≠ 0 ∧ time ≤ s.clock ∧ i = mem.interval
  | .stale => False
  | _ => True

omit [DecidableEq Tid] in
theorem Monitor.Ok.later {m : Monitor Tid} (h : m.Ok mem s) (hl : Later s s') : m.Ok mem s' :=
  fun hm => ⟨hl.stamped _ _ (h hm).1, (h hm).2⟩

omit [DecidableEq Tid] in
theorem Checking.Ok.later {m m' : Monitor Tid} {c : Checking} (h : c.Ok mem s m) (hl : Later s s')
    (hm : m.token ≠ 0 → m'.token ≠ 0) : c.Ok mem s' m' := by
  have hclock := hl.clock
  cases c with
  | judge tok now => exact le_trans h hclock
  | register tok now => exact ⟨h.1, h.2.trans hclock⟩
  | interval now => exact ⟨hm h.1, h.2.trans hclock⟩
  | heartbeat now interval => exact ⟨hm h.1, h.2.1.trans hclock, h.2.2⟩
  | _ => exact h

theorem four_intervals_le (ep : Endpoint) {interval : Word} (hi : 0 < interval.toInt)
    (hmax : 4 * interval.toInt < 2 ^ 63) : 4 * interval.toInt ≤ effectivePeerTimeout ep interval := by
  have hmul : (4 * interval).toInt = 4 * interval.toInt := by
    rw [BitVec.toInt_mul]
    apply Int.bmod_eq_of_le <;> simp <;> omega
  unfold effectivePeerTimeout
  rw [hmul]
  split <;> omega

omit [DecidableEq Tid] in
theorem Checking.Ok.next {t : Tid} {m m' : Monitor Tid} {c c' : Checking} (hi : 0 < mem.interval.toInt)
    (hmax : 4 * mem.interval.toInt < 2 ^ 63) (hb : Beating mem s) (hm : m.Ok mem s) (h : c.Ok mem s m)
    (hprompt : ∀ time ∈ (Call.checking c).loads, (s.clock : Int) ≤ time + 3 * mem.interval.toInt)
    (hnext : checkPeer l s.mem s.clock t m c = some (c', m')) :
    c'.Ok mem s m' ∧ m'.Ok mem s ∧ (m.token ≠ 0 → m'.token ≠ 0) := by
  cases c with
  | status | lockedStatus =>
    simp only [checkPeer] at hnext
    split at hnext <;> cases hnext <;> exact ⟨trivial, hm, id⟩
  | lock =>
    simp only [checkPeer] at hnext
    split at hnext <;> cases hnext
    exact ⟨trivial, hm, id⟩
  | epoch | self =>
    cases hnext
    refine ⟨?_, hm, id⟩
    split <;> trivial
  | token | set st | unlock err | stale =>
    cases hnext
    exact ⟨trivial, hm, id⟩
  | now tok =>
    cases hnext
    exact ⟨le_rfl, hm, id⟩
  | judge tok time =>
    simp only [checkPeer] at hnext
    split at hnext
    · cases hnext
      exact ⟨trivial, hm, id⟩
    split at hnext <;> cases hnext <;> refine ⟨?_, hm, id⟩ <;> split
    · next hne => exact ⟨hne, h⟩
    · trivial
    · trivial
    · next hm0 _ => exact ⟨hm0, h⟩
  | register tok time =>
    cases hnext
    exact ⟨trivial, fun _ => ⟨hb.stamp, hprompt time rfl⟩, fun _ => h.1⟩
  | interval time =>
    cases hnext
    refine ⟨?_, hm, id⟩
    split
    · trivial
    · exact ⟨h.1, h.2, hb.interval⟩
  | heartbeat time i =>
    simp only [checkPeer] at hnext
    split at hnext <;> cases hnext
    · exact ⟨trivial, fun _ => ⟨hb.stamp, hprompt time rfl⟩, id⟩
    · next heq =>
      refine ⟨?_, hm, id⟩
      obtain ⟨hm0, htime, rfl⟩ := h
      obtain ⟨hstamped, hnoticed⟩ := hm hm0
      rw [← not_not.mp heq] at hstamped
      have hrecent := hb.recent hstamped
      have hfour := four_intervals_le l.ep hi hmax
      rw [if_neg (by omega)]
      trivial
  | returned err => cases hnext

omit [DecidableEq Tid] in
theorem Beating.start (wall : Int) (t0 : Nat) (hi : 0 < mem.interval.toInt) :
    Beating mem (Peer.start mem wall t0 : State Tid) :=
  ⟨rfl, rfl, List.mem_singleton_self _, le_rfl, by dsimp only [Peer.start]; omega⟩

theorem Beating.of_step (hi : 0 < mem.interval.toInt) (hb : Beating mem s) (hok : Beats s a)
    (h : step opts l s a = some s') : Beating mem s' ∧ Later s s' := by
  cases step_cases h with
  | opening t o o' hact hcall hnext hcalls hmon hworld => exact hb.same hworld
  | checking t c c' hact hcall hnext hcalls hworld => exact hb.same hworld
  | turn t c hfresh hcalls hmon hworld => exact hb.same hworld
  | outside hout => exact hb.of_outside hi hout hok

structure OpenInv (mem : Shared) (s : State Tid) : Prop where
  beating : Beating mem s
  call : ∀ t o, s.call t = .opening o → o.Ok mem s

theorem OpenInv.of_step (htok : isOwnerToken mem.token = true) (hi : 0 < mem.interval.toInt)
    (hs : OpenInv mem s) (hok : Beats s a) (hprompt : SamplesPromptly s a)
    (h : step opts l s a = some s') : OpenInv mem s' := by
  obtain ⟨hb, hl⟩ := hs.beating.of_step hi hok h
  refine ⟨hb, fun t' o' ho' => ?_⟩
  cases step_cases h with
  | opening t o o1 hact hcall hnext hcalls hmon hworld =>
    rcases call_cases hcalls ho' with ⟨rfl, heq⟩ | ⟨-, hold⟩
    · cases heq
      refine Opening.Ok.later (Opening.Ok.next htok hi hs.beating (hs.call t' o hcall) ?_ hnext) hl
      rintro w rfl
      subst hact
      exact hprompt w (by rw [hcall]; rfl)
    · exact (hs.call t' o' hold).later hl
  | checking t c c' hact hcall hnext hcalls hworld =>
    rcases call_cases hcalls ho' with ⟨rfl, heq⟩ | ⟨-, hold⟩
    · cases heq
    · exact (hs.call t' o' hold).later hl
  | turn t c hfresh hcalls hmon hworld =>
    rcases call_cases hcalls ho' with ⟨rfl, rfl⟩ | ⟨-, hold⟩
    · rcases hfresh with hc | hc | hc <;> cases hc <;> trivial
    · exact (hs.call t' o' hold).later hl
  | outside hout => exact (hs.call t' o' (hout.observers.1 ▸ ho')).later hl

structure CheckInv (mem : Shared) (s : State Tid) : Prop where
  beating : Beating mem s
  mon : s.mon.Ok mem s
  call : ∀ t c, s.call t = .checking c → c.Ok mem s s.mon

theorem CheckInv.of_step (hi : 0 < mem.interval.toInt) (hmax : 4 * mem.interval.toInt < 2 ^ 63)
    (hs : CheckInv mem s) (hok : Beats s a) (hprompt : LoadsPromptly s a)
    (h : step opts l s a = some s') : CheckInv mem s' := by
  obtain ⟨hb, hl⟩ := hs.beating.of_step hi hok h
  have hkept : ∀ t' c', s'.mon = s.mon → s.call t' = .checking c' → c'.Ok mem s' s'.mon :=
    fun t' c' hmon hold => (hs.call t' c' hold).later hl (by rw [hmon]; exact id)
  cases step_cases h with
  | opening t o o1 hact hcall hnext hcalls hmon hworld =>
    refine ⟨hb, hmon ▸ hs.mon.later hl, fun t' c' hc' => ?_⟩
    rcases call_cases hcalls hc' with ⟨rfl, heq⟩ | ⟨-, hold⟩
    · cases heq
    · exact hkept t' c' hmon hold
  | checking t c c1 hact hcall hnext hcalls hworld =>
    subst hact
    simp only [LoadsPromptly] at hprompt
    rw [hcall, hs.beating.interval] at hprompt
    obtain ⟨hc1, hm, htoken⟩ :=
      Checking.Ok.next hi hmax hs.beating hs.mon (hs.call t c hcall) hprompt hnext
    refine ⟨hb, hm.later hl, fun t' c' hc' => ?_⟩
    rcases call_cases hcalls hc' with ⟨rfl, heq⟩ | ⟨-, hold⟩
    · cases heq
      exact hc1.later hl id
    · exact (hs.call t' c' hold).later hl htoken
  | turn t c hfresh hcalls hmon hworld =>
    refine ⟨hb, hmon ▸ hs.mon.later hl, fun t' c' hc' => ?_⟩
    rcases call_cases hcalls hc' with ⟨rfl, rfl⟩ | ⟨-, hold⟩
    · rcases hfresh with hc | hc | hc <;> cases hc
      trivial
    · exact hkept t' c' hmon hold
  | outside hout =>
    obtain ⟨hcall, hmon⟩ := hout.observers
    exact ⟨hb, hmon ▸ hs.mon.later hl, fun t' c' hc' => hkept t' c' hmon (hcall ▸ hc')⟩

/-! ## A failure is sticky -/

def Checking.holds : Checking → Bool
  | .status | .lock | .returned _ => false
  | _ => true

def Checking.passed : Checking → Bool
  | .status | .lock | .lockedStatus | .unlock _ | .returned _ => false
  | _ => true

structure LockInv (s : State Tid) : Prop where
  held : ∀ t c, s.call t = .checking c → c.holds = true → s.mon.mu = some t
  passed : ∀ t c, s.call t = .checking c → c.passed = true → s.mon.status.err = none

theorem Checking.holds_of_passed {c : Checking} (h : c.passed = true) : c.holds = true := by
  cases c <;> first | rfl | cases h

inductive Monitored (t : Tid) (m : Monitor Tid) (c : Checking) (m' : Monitor Tid) (c' : Checking) : Prop
  | lock (before : c.holds = false) (free : m.mu = none) (mu : m'.mu = some t)
      (status : m'.status = m.status) (passed : c'.passed = false)
  | inside (before : c.holds = true) (mu : m'.mu = m.mu) (status : m'.status = m.status)
      (passed : c'.passed = true → m.status.err = none)
  | store (before : c.passed = true) (mu : m'.mu = m.mu) (after : c'.passed = false)
  | unlock (before : c.holds = true) (status : m'.status = m.status) (after : c'.holds = false)
  | out (before : c.holds = false) (eq : m' = m) (after : c'.holds = false)

omit [DecidableEq Tid] in
theorem checkPeer_monitored {t : Tid} {m m' : Monitor Tid} {c c' : Checking} {clock : Nat}
    (hpassed : c.passed = true → m.status.err = none)
    (h : checkPeer l mem clock t m c = some (c', m')) : Monitored t m c m' c' := by
  cases c with
  | status =>
    simp only [checkPeer] at h
    split at h <;> cases h <;> exact .out rfl rfl rfl
  | lock =>
    simp only [checkPeer] at h
    split at h <;> cases h
    next hfree => exact .lock rfl hfree rfl rfl rfl
  | lockedStatus =>
    simp only [checkPeer] at h
    split at h <;> cases h
    · exact .inside rfl rfl rfl fun hc => by cases hc
    · next hnone => exact .inside rfl rfl rfl fun _ => hnone
  | judge tok time =>
    simp only [checkPeer] at h
    split at h
    · cases h
      exact .inside rfl rfl rfl fun _ => hpassed rfl
    split at h <;> cases h <;> exact .inside rfl rfl rfl fun _ => hpassed rfl
  | heartbeat time i =>
    simp only [checkPeer] at h
    split at h <;> cases h <;> exact .inside rfl rfl rfl fun _ => hpassed rfl
  | stale | set st =>
    cases h
    exact .store rfl rfl rfl
  | unlock err =>
    cases h
    exact .unlock rfl rfl rfl
  | returned err => cases h
  | _ =>
    cases h
    exact .inside rfl rfl rfl fun _ => hpassed rfl

theorem LockInv.of_step (hs : LockInv s) (h : step opts l s a = some s') : LockInv s' := by
  cases step_cases h with
  | opening t o o1 hact hcall hnext hcalls hmon hworld =>
    have hold : ∀ t' c', s'.call t' = .checking c' → s.call t' = .checking c' := by
      intro t' c' hc'
      rcases call_cases hcalls hc' with ⟨rfl, heq⟩ | ⟨-, hold⟩
      · cases heq
      · exact hold
    exact ⟨fun t' c' hc' hh => hmon ▸ hs.held t' c' (hold t' c' hc') hh,
      fun t' c' hc' hp => hmon ▸ hs.passed t' c' (hold t' c' hc') hp⟩
  | checking t c c1 hact hcall hnext hcalls hworld =>
    have hmoved := checkPeer_monitored (hs.passed t c hcall) hnext
    -- whoever else holds the lock keeps the caller out
    have hother : ∀ t' c', t' ≠ t → s.call t' = .checking c' → c'.holds = true → c.holds = false := by
      intro t' c' ht hold hh
      by_contra hc
      have h1 := hs.held t' c' hold hh
      have h2 := hs.held t c hcall (by simpa using hc)
      exact ht (Option.some.inj (h1.symm.trans h2))
    refine ⟨fun t' c' hc' hh => ?_, fun t' c' hc' hp => ?_⟩
    · rcases call_cases hcalls hc' with ⟨rfl, heq⟩ | ⟨ht, hold⟩
      · cases heq
        cases hmoved with
        | lock before free mu status passed => exact mu
        | inside before mu status passed => rw [mu]; exact hs.held t' c hcall before
        | store before mu after => rw [mu]; exact hs.held t' c hcall (Checking.holds_of_passed before)
        | unlock before status after => rw [after] at hh; cases hh
        | out before eq after => rw [after] at hh; cases hh
      · have hout := hother t' c' ht hold hh
        have hheld := hs.held t' c' hold hh
        cases hmoved with
        | lock before free mu status passed => rw [free] at hheld; cases hheld
        | inside before mu status passed => rw [before] at hout; cases hout
        | store before mu after => rw [Checking.holds_of_passed before] at hout; cases hout
        | unlock before status after => rw [before] at hout; cases hout
        | out before eq after => rw [eq]; exact hheld
    · rcases call_cases hcalls hc' with ⟨rfl, heq⟩ | ⟨ht, hold⟩
      · cases heq
        cases hmoved with
        | lock before free mu status passed => rw [passed] at hp; cases hp
        | inside before mu status passed => rw [status]; exact passed hp
        | store before mu after => rw [after] at hp; cases hp
        | unlock before status after => rw [Checking.holds_of_passed hp] at after; cases after
        | out before eq after => rw [Checking.holds_of_passed hp] at after; cases after
      · have hh := Checking.holds_of_passed hp
        have hout := hother t' c' ht hold hh
        have hnone := hs.passed t' c' hold hp
        cases hmoved with
        | lock before free mu status passed => rw [status]; exact hnone
        | inside before mu status passed => rw [before] at hout; cases hout
        | store before mu after => rw [Checking.holds_of_passed before] at hout; cases hout
        | unlock before status after => rw [before] at hout; cases hout
        | out before eq after => rw [eq]; exact hnone
  | turn t c hfresh hcalls hmon hworld =>
    have hold : ∀ t' c', c'.holds = true → s'.call t' = .checking c' → s.call t' = .checking c' := by
      intro t' c' hh hc'
      rcases call_cases hcalls hc' with ⟨rfl, rfl⟩ | ⟨-, hold⟩
      · rcases hfresh with hc | hc | hc <;> cases hc
        cases hh
      · exact hold
    exact ⟨fun t' c' hc' hh => hmon ▸ hs.held t' c' (hold t' c' hh hc') hh, fun t' c' hc' hp =>
      hmon ▸ hs.passed t' c' (hold t' c' (Checking.holds_of_passed hp) hc') hp⟩
  | outside hout =>
    obtain ⟨hcall, hmon⟩ := hout.observers
    exact ⟨fun t' c' hc' hh => hmon ▸ hs.held t' c' (hcall ▸ hc') hh,
      fun t' c' hc' hp => hmon ▸ hs.passed t' c' (hcall ▸ hc') hp⟩

theorem LockInv.sticky (hs : LockInv s) (h : step opts l s a = some s') (hfailed : s.mon.status.err ≠ none) :
    s'.mon.status = s.mon.status := by
  cases step_cases h with
  | opening t o o1 hact hcall hnext hcalls hmon hworld => rw [hmon]
  | checking t c c1 hact hcall hnext hcalls hworld =>
    cases checkPeer_monitored (hs.passed t c hcall) hnext with
    | lock before free mu status passed => exact status
    | inside before mu status passed => exact status
    | store before mu after => exact absurd (hs.passed t c hcall before) hfailed
    | unlock before status after => exact status
    | out before eq after => rw [eq]
  | turn t c hfresh hcalls hmon hworld => rw [hmon]
  | outside hout => rw [hout.observers.2]

theorem LockInv.sticky_run {m : Machine (State Tid) (Act Tid)} (hm : m.step = step opts l)
    (hs : LockInv s) (hfailed : s.mon.status.err ≠ none) {as : List (Act Tid)}
    (h : m.runFrom s as = some s') : s'.mon.status = s.mon.status := by
  induction as generalizing s with
  | nil => cases h; rfl
  | cons a as ih =>
    rw [Machine.runFrom_cons, Option.bind_eq_some_iff] at h
    obtain ⟨s1, hs1, hrest⟩ := h
    rw [hm] at hs1
    have hstatus := hs.sticky hs1 hfailed
    rw [ih (hs.of_step hs1) (hstatus ▸ hfailed) hrest, hstatus]

/-- A peer that beats is not judged dead by an opener that samples promptly, and not reported as
gone for its heartbeat by a link that loads it promptly. A failure of the peer stays one. -/
theorem beating_peer_is_alive {wall : Int} {t0 : Nat} (htok : isOwnerToken mem.token = true)
    (hi : 0 < mem.interval.toInt) :
    (∀ s, (machine opts l mem wall t0).Reach (fun s a => Beats s a ∧ SamplesPromptly s a) s →
      ∀ t, s.call t ≠ .opening (.returned false)) ∧
    (4 * mem.interval.toInt < 2 ^ 63 → ∀ s,
      (machine opts l mem wall t0).Reach (fun s a => Beats s a ∧ LoadsPromptly s a) s →
      ∀ t, s.call t ≠ .checking .stale) ∧
    (∀ s, (machine opts l mem wall t0).Reachable s → s.mon.status.err ≠ none →
      ∀ as s', (machine opts l mem wall t0).runFrom s as = some s' →
        s'.mon.status = s.mon.status) := by
  refine ⟨fun s h t ht => ?_, fun hmax s h t ht => ?_, fun s h hfailed as s' hrun => ?_⟩
  · have hinv : OpenInv mem s := h.invariant ⟨.start wall t0 hi, fun _ _ hc => (by cases hc)⟩
      fun _ _ _ _ hs hok hstep => hs.of_step htok hi hok.1 hok.2 hstep
    exact Bool.false_ne_true (hinv.call t _ ht)
  · have hinv : CheckInv mem s := h.invariant
      ⟨.start wall t0 hi, fun hne => absurd rfl hne, fun _ _ hc => (by cases hc)⟩
      fun _ _ _ _ hs hok hstep => hs.of_step hi hmax hok.1 hok.2 hstep
    exact hinv.call t _ ht
  · have hinv : LockInv s := h.invariant
      ⟨fun _ _ hc => (by cases hc), fun _ _ hc => (by cases hc)⟩ fun _ _ _ _ hs _ hstep => hs.of_step hstep
    exact hinv.sticky_run rfl hfailed hrun

section Examples

def options : Endpoint where
  role := .any
  platform := ⟨64, 4096⟩
  bufferCount := 2
  bufferSize := 8
  token := 100
  creatorToken := 0
  pid := 1
  heartbeatInterval := 500000000
  peerTimeout := 3000000000
  attachTimeout := 5000000000
  initStale := 0

def peerWith (interval : Word) : Shared := ⟨101, interval, 1, 1, 100⟩

def observe (interval : Word) (wall : Int) : Machine (State Unit) (Act Unit) :=
  machine (fun _ => options) ⟨options, 1⟩ (peerWith interval) wall 0

def nexts (n : Nat) : List (Act Unit) := List.replicate n (.next ())

def watched : List (Act Unit) :=
  [.opens ()] ++ nexts 6 ++ [.tick 125000000] ++ nexts 4 ++ [.tick 125000000, .beat 2] ++ nexts 3

def checkedTwice : List (Act Unit) :=
  [.checks ()] ++ nexts 11 ++ [.tick 500000000, .beat 2, .checks ()] ++ nexts 11

theorem beating_peer_is_alive_observed :
    (∃ s, (observe 500000000 3600000000000).Reach (fun s a => Beats s a ∧ SamplesPromptly s a) s ∧
      s.call () = .opening (.returned true) ∧ s.call () ≠ .opening (.returned false)) ∧
    (∃ s, (observe 500000000 3600000000000).Reach (fun s a => Beats s a ∧ LoadsPromptly s a) s ∧
      s.mon.status = .connected ∧ s.call () ≠ .checking .stale) := by
  obtain ⟨s, hs, htrue⟩ : ∃ s, (observe 500000000 3600000000000).Reach
      (fun s a => Beats s a ∧ SamplesPromptly s a) s ∧ s.call () = .opening (.returned true) :=
    Machine.exists_reach watched (by decide +kernel)
  obtain ⟨s', hs', hstatus⟩ : ∃ s, (observe 500000000 3600000000000).Reach
      (fun s a => Beats s a ∧ LoadsPromptly s a) s ∧ s.mon.status = .connected :=
    Machine.exists_reach checkedTwice (by decide +kernel)
  exact ⟨⟨s, hs, htrue, (beating_peer_is_alive (by decide) (by decide)).1 s hs ()⟩,
    s', hs', hstatus, (beating_peer_is_alive (by decide) (by decide)).2.1 (by decide) s' hs' ()⟩

/-- An interval of ten seconds. The opener gives up after two. -/
def cutShort : List (Act Unit) :=
  [.opens ()] ++ nexts 6 ++ [.tick 2500000000] ++ nexts 4

/-- The link is suspended between its look at the clock and its first load of the heartbeat, for
seven intervals. -/
def heldUp : List (Act Unit) :=
  [.checks ()] ++ nexts 8 ++
    (List.range 7).flatMap (fun n => [.tick 500000000, .beat (.ofNat 64 (n + 2))]) ++
    nexts 3 ++ [.checks ()] ++ nexts 10

/-- The wall clock is an hour ahead of the heartbeat. Both peers beat all the time. -/
theorem beating_peer_is_given_up :
    (∃ s, (observe 10000000000 3600000000000).Reach Beats s ∧ s.call () = .opening (.returned false)) ∧
    ∃ s, (observe 500000000 3600000000000).Reach Beats s ∧ s.call () = .checking .stale :=
  ⟨Machine.exists_reach cutShort (by decide +kernel), Machine.exists_reach heldUp (by decide +kernel)⟩

end Examples

end Hqq.Superblock.Peer
