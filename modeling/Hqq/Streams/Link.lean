import Hqq.Streams.Views
import Hqq.Streams.Protocol

/-!
# Both ends of a link

Every step of a link is, for every stream, a step of the protocol of that stream. So what
holds of one stream holds of all of them at once.
-/

namespace Hqq.Streams

open OneStream

/-! ## One stream of a link -/

/-- The frames on their way to `m`, with the one that it has in hand. -/
def incoming (s : Link) (m : LinkMode) : List Frame := (s m).rx.hand.toList ++ wire s m.peer

def kinds (id : ConnID) (l : List Frame) : List Kind := l.filterMap (Frame.kind id)

def upOf (l : List Kind) : Up := ⟨l.count .create, l.count .close⟩

def downOf (l : List Kind) : Down := ⟨l.count .accept, l.count .error, l.count .close⟩

/-- What the link is for the stream that `m` opens with its `n`th ID. -/
def view (s : Link) (m : LinkMode) (n : Nat) : State where
  o := oview m n (s m)
  p := pview (connID m n) (s m.peer)
  up := upOf (kinds (connID m n) (incoming s m.peer))
  down := downOf (kinds (connID m n) (incoming s m))

theorem kinds_cons (id : ConnID) (f : Option Frame) (l : List Frame) :
    kinds id (f.toList ++ l) = (seen id f).toList ++ kinds id l := by
  cases f with
  | none => rfl
  | some f => cases hf : Frame.kind id f <;> simp [kinds, hf]

theorem kinds_append (id : ConnID) (f : Option Frame) (l : List Frame) :
    kinds id (l ++ f.toList) = kinds id l ++ (seen id f).toList := by
  cases f with
  | none => simp [kinds]
  | some f => cases hf : Frame.kind id f <;> simp [kinds, hf]

theorem upOf_cons (k : Option Kind) (l : List Kind) : upOf (k.toList ++ l) = (upOf l).plus k := by
  rcases k with _ | k
  · rfl
  · cases k <;> simp [upOf, Up.plus]

theorem upOf_append (k : Option Kind) (l : List Kind) : upOf (l ++ k.toList) = (upOf l).plus k := by
  rcases k with _ | k
  · simp [Up.plus]
  · cases k <;> simp [upOf, Up.plus]

theorem downOf_cons (k : Option Kind) (l : List Kind) : downOf (k.toList ++ l) = (downOf l).plus k := by
  rcases k with _ | k
  · rfl
  · cases k <;> simp [downOf, Down.plus]

theorem downOf_append (k : Option Kind) (l : List Kind) : downOf (l ++ k.toList) = (downOf l).plus k := by
  rcases k with _ | k
  · simp [Down.plus]
  · cases k <;> simp [downOf, Down.plus]

variable {cfg : LinkMode → Config} {s s' : Link} {m : LinkMode} {a : Act} {e : Endpoint}

theorem link_step {x : LinkMode × Act} (h : (linkMachine cfg).step s x = some s') :
    ∃ e, Branch x.1 (cfg x.1) (wire s x.1.peer).head? (s x.1) x.2 e ∧ s' = Function.update s x.1 e := by
  obtain ⟨m, a⟩ := x
  obtain ⟨e, he, rfl⟩ := Option.map_eq_some_iff.mp h
  exact ⟨e, step_branch he, rfl⟩

theorem update_peer (s : Link) (m : LinkMode) (e : Endpoint) : Function.update s m e m.peer = s m.peer :=
  Function.update_of_ne m.peer_ne e s

section

variable (h : Branch m (cfg m) (wire s m.peer).head? (s m) a e)
include h

theorem incoming_own :
    incoming s m = (taken (s m) a).toList ++ incoming (Function.update s m e) m := by
  have hwire : wire s m.peer = (s m.peer).sent.drop (s m).read := by simp [wire]
  have hwire' : wire (Function.update s m e) m.peer = (s m.peer).sent.drop e.read := by
    simp [wire, update_peer]
  simp only [incoming, Function.update_self, hwire']
  rcases h.hand with ⟨hread, hnone, hhand, htaken, -⟩ | ⟨hread, hhand⟩
  · rw [hread, hnone, hhand, htaken, hwire, ← List.tail_drop]
    cases (s m.peer).sent.drop (s m).read <;> rfl
  · rw [hread, ← List.append_assoc, ← hhand, hwire]

theorem incoming_peer (hread : (s m.peer).read ≤ (s m).sent.length) :
    incoming (Function.update s m e) m.peer = incoming s m.peer ++ (put m (s m) a).toList := by
  simp only [incoming, wire, update_peer, LinkMode.peer_peer, Function.update_self, h.sent,
    List.drop_append_of_le_length hread, List.append_assoc]

end

theorem OneStream.PStep.granting_pos {p p' : Acceptor} {i : Option Kind}
    (h : PStep p i (some .accept) p') : 0 < p.granting := by
  cases h
  assumption

/-- The invariant of both ends. What holds of each stream comes from the protocol of one stream. -/
structure LinkInv (s : Link) : Prop where
  known : ∀ m, Known m (s m)
  replies : ∀ m, (s m).RepliesOk m
  read : ∀ m : LinkMode, (s m.peer).read ≤ (s m).sent.length
  from_peer : ∀ m, ∀ f ∈ incoming s m, f.From m.peer
  ordered : ∀ m n, 0 < n → n ≤ maxStreams → .accept ∉ (kinds (connID m n) (incoming s m)).tail
  streams : ∀ m n, 0 < n → n ≤ maxStreams → OneStream.Inv (view s m n)
  made : ∀ m id, 0 < (s m).made id → PeerID m id ∨ PeerID m.peer id

theorem LinkInv.init : LinkInv (linkMachine cfg).init where
  known _ := .fresh
  replies _ := ⟨fun _ _ => rfl, fun _ _ => ⟨rfl, nofun, nofun⟩, nofun, nofun, nofun⟩
  read _ := le_rfl
  from_peer _ := nofun
  ordered _ _ _ _ := nofun
  streams _ _ _ _ := .init
  made _ _ := nofun

section Step

variable (hinv : LinkInv s)
include hinv

theorem LinkInv.from_hand {f : Frame} (hf : (s m).rx = .handling f) : f.From m.peer :=
  hinv.from_peer m f (by simp [incoming, hf])

theorem LinkInv.create_hand {id : ConnID} (hf : (s m).rx = .handling (.connCreate id)) : PeerID m id := by
  have h := hinv.from_hand hf
  rwa [Frame.From, LinkMode.peer_peer] at h

theorem LinkInv.kinds_eq_nil {n : Nat} (hpos : 0 < n) (hle : n ≤ maxStreams)
    (hg : 0 < (view s m n).p.granting) : kinds (connID m n) (incoming s m) = [] := by
  have hv := hinv.streams m n hpos hle
  have hone := hv.tokens.one
  have hsmall : (view s m n).down.accepts = 0 ∧ (view s m n).down.errors = 0 := by
    simp only [State.token, Acceptor.token] at hone
    omega
  have hcloses : (view s m n).down.closes = 0 := by
    by_contra hc
    have hdone := hv.closes.toOpener (.inr (.inr (Nat.pos_of_ne_zero hc)))
    have := (hv.token_of_granted (hv.closes.peerOpen (by simp [hdone]))).2
    omega
  refine List.eq_nil_iff_forall_not_mem.mpr fun k hk => ?_
  cases k with
  | accept => exact List.count_eq_zero.mp hsmall.1 hk
  | error => exact List.count_eq_zero.mp hsmall.2 hk
  | close => exact List.count_eq_zero.mp hcloses hk
  | create =>
    obtain ⟨f, hf, hkind⟩ := List.mem_filterMap.mp hk
    have hfrom := hinv.from_peer m f hf
    cases f <;> simp only [Frame.kind] at hkind
    case connCreate id =>
      split at hkind
      · rename_i hid
        rw [Frame.From, LinkMode.peer_peer] at hfrom
        exact hfrom.ne_own hpos hle hid
      · cases hkind
    all_goals
      first
      | (split at hkind <;> cases hkind)
      | cases hkind

section Branch

variable (h : Branch m (cfg m) (wire s m.peer).head? (s m) a e)
include h

theorem LinkInv.view_opener {n : Nat} (hpos : 0 < n) (hle : n ≤ maxStreams) :
    view (Function.update s m e) m n = view s m n ∨
      ∃ l, OneStream.Step (view s m n) l (view (Function.update s m e) m n) ∧
        (l = .giveUp → a = .giveUp n) := by
  obtain ⟨l, hmove, hl⟩ := h.opens (hinv.known m) (hinv.replies m) hpos hle fun _ => hinv.create_hand
  have hown := incoming_own h
  have hpeer := incoming_peer h (hinv.read m)
  have hdown : (view s m n).down = (view (Function.update s m e) m n).down.plus
      (seen (connID m n) (taken (s m) a)) := by
    simp only [view, hown, kinds_cons, downOf_cons]
  have hup : (view (Function.update s m e) m n).up =
      (view s m n).up.plus (seen (connID m n) (put m (s m) a)) := by
    simp only [view, hpeer, kinds_append, upOf_append]
  have hview : view (Function.update s m e) m n = { view s m n with
      o := oview m n e, up := (view s m n).up.plus (seen (connID m n) (put m (s m) a))
      down := (view (Function.update s m e) m n).down } := by
    rw [← hup]
    simp only [view, Function.update_self, update_peer]
  rcases hmove with ⟨ho, rfl, hi, hx⟩ | hstep
  · left
    rw [hview, hx, ho]
    rw [hi] at hdown
    simp only [Up.plus, Down.plus] at hdown ⊢
    rw [← hdown]
    rfl
  · refine .inr ⟨l, ?_, hl⟩
    rw [hview]
    refine .opener hdown (fun hc => ?_) hstep
    have htail := hinv.ordered m n hpos hle
    rw [hown, kinds_cons, hc] at htail
    exact List.count_eq_zero.mpr htail

theorem LinkInv.accepts {n : Nat} (hpos : 0 < n) (hle : n ≤ maxStreams) :
    Accepts m (connID m.peer n) (s m) a e := by
  have hfresh := (hinv.streams m.peer n hpos hle).tokens.fresh
  simp only [view, LinkMode.peer_peer] at hfresh
  refine h.accepts (hinv.known m) (hinv.replies m) ⟨n, hpos, hle, rfl⟩ (by simp only [pview] at hfresh; omega)
    ?_ fun _ => hinv.from_hand
  rintro (hrx | hslot)
  · have hcreate : 0 < (upOf (kinds (connID m.peer n) (incoming s m))).creates := by
      simp [upOf, kinds, incoming, hrx, Frame.kind]
    simp only [pview] at hfresh
    omega
  · simp only [pview, hslot, hits_some, if_true] at hfresh
    omega

theorem LinkInv.view_acceptor {n : Nat} (hpos : 0 < n) (hle : n ≤ maxStreams) :
    view (Function.update s m e) m.peer n = view s m.peer n ∨
      OneStream.Step (view s m.peer n) .other (view (Function.update s m e) m.peer n) := by
  have hown := incoming_own h
  have hpeer := incoming_peer h (hinv.read m)
  have hup : (view s m.peer n).up = (view (Function.update s m e) m.peer n).up.plus
      (seen (connID m.peer n) (taken (s m) a)) := by
    simp only [view, LinkMode.peer_peer, hown, kinds_cons, upOf_cons]
  have hdown : (view (Function.update s m e) m.peer n).down =
      (view s m.peer n).down.plus (seen (connID m.peer n) (put m (s m) a)) := by
    simp only [view, hpeer, kinds_append, downOf_append]
  have hview : view (Function.update s m e) m.peer n = { view s m.peer n with
      p := pview (connID m.peer n) e, up := (view (Function.update s m e) m.peer n).up
      down := (view s m.peer n).down.plus (seen (connID m.peer n) (put m (s m) a)) } := by
    rw [← hdown]
    simp only [view, LinkMode.peer_peer, Function.update_self, update_peer]
  rcases hinv.accepts h hpos hle with ⟨hp, hi, hx⟩ | hstep
  · left
    rw [hview, hx, hp]
    rw [hi] at hup
    simp only [Up.plus, Down.plus] at hup ⊢
    rw [← hup]
    simp only [view, LinkMode.peer_peer]
  · right
    rw [hview]
    refine .peer hup ?_
    simpa only [view, LinkMode.peer_peer] using hstep

/-- A step of the link is a step of the protocol of each stream, or none. -/
theorem LinkInv.view_step (k : LinkMode) {n : Nat} (hpos : 0 < n) (hle : n ≤ maxStreams) :
    view (Function.update s m e) k n = view s k n ∨
      ∃ l, OneStream.Step (view s k n) l (view (Function.update s m e) k n) ∧
        (l = .giveUp → k = m ∧ a = .giveUp n) := by
  rcases k.eq_or_eq_peer m with rfl | rfl
  · rcases hinv.view_opener h hpos hle with hsame | ⟨l, hstep, hl⟩
    · exact .inl hsame
    · exact .inr ⟨l, hstep, fun hg => ⟨rfl, hl hg⟩⟩
  · rcases hinv.view_acceptor h hpos hle with hsame | hstep
    · exact .inl hsame
    · exact .inr ⟨.other, hstep, nofun⟩

theorem LinkInv.step_ordered (k : LinkMode) {n : Nat} (hpos : 0 < n) (hle : n ≤ maxStreams) :
    .accept ∉ (kinds (connID k n) (incoming (Function.update s m e) k)).tail := by
  have hold := hinv.ordered k n hpos hle
  rcases k.eq_or_eq_peer m with rfl | rfl
  · rw [incoming_own h, kinds_cons] at hold
    cases hi : seen (connID k n) (taken (s k) a) with
    | none => rwa [hi] at hold
    | some x =>
      rw [hi] at hold
      exact fun hmem => hold (List.mem_of_mem_tail hmem)
  · rw [incoming_peer h (hinv.read m), kinds_append]
    cases hx : seen (connID m.peer n) (put m (s m) a) with
    | none => simpa using hold
    | some x =>
      cases hkinds : kinds (connID m.peer n) (incoming s m.peer) with
      | nil => simp
      | cons y l =>
        rw [hkinds] at hold
        simp only [List.cons_append, List.tail_cons, Option.toList_some, List.mem_append,
          List.mem_singleton, not_or] at hold ⊢
        refine ⟨hold, ?_⟩
        rintro rfl
        rcases hinv.accepts h hpos hle with ⟨-, -, hnone⟩ | hstep
        · cases hx.symm.trans hnone
        · rw [hx] at hstep
          have hg : 0 < (view s m.peer n).p.granting := by
            simpa only [view, LinkMode.peer_peer] using hstep.granting_pos
          simp [hinv.kinds_eq_nil hpos hle hg] at hkinds

theorem LinkInv.put_from {f : Frame} (hf : put m (s m) a = some f) : f.From m := by
  have hk := hinv.known m
  cases h
  case sendCreate n st hp =>
    obtain ⟨hpos, hle⟩ := hk.started (hinv.replies m) (k := n) (by simp [hp])
    cases hf
    exact ⟨n, hpos, hle, by rw [LinkMode.peer_peer]⟩
  case send job hsender =>
    simp only [put, hsender, Sender.jobs, List.head?_cons, Option.map_some, Option.some.injEq] at hf
    subst hf
    cases job with
    | accept st => exact (hk.refs st (.sender (by simp [hsender, Sender.ref?]))).1
    | error id code => exact hk.asked id (.sender hsender)
    | other => trivial
  case closeForget hc _ | closeSilent hc => simp [hc] at hf
  case closeSend hc =>
    simp only [put, hc, Option.some.injEq] at hf
    subst hf
    trivial
  all_goals cases hf

theorem LinkInv.step_from (k : LinkMode) : ∀ f ∈ incoming (Function.update s m e) k, f.From k.peer := by
  intro f hf
  rcases k.eq_or_eq_peer m with rfl | rfl
  · refine hinv.from_peer k f ?_
    rw [incoming_own h]
    exact List.mem_append_right _ hf
  · rw [incoming_peer h (hinv.read m)] at hf
    rcases List.mem_append.mp hf with hf | hf
    · exact hinv.from_peer m.peer f hf
    · rw [LinkMode.peer_peer]
      exact hinv.put_from h (Option.mem_toList.mp hf)

theorem LinkInv.step_made {id : ConnID} (hid : 0 < e.made id) : PeerID m id ∨ PeerID m.peer id := by
  have hk := hinv.known m
  rcases h.made_eq id with hsame | ⟨-, ⟨n, rfl, rfl⟩ | hrx | hlock⟩
  · exact hinv.made m id (hsame ▸ hid)
  · have hp : ((s m).calls n).phase = .allocated := by
      cases h
      assumption
    obtain ⟨hpos, hle⟩ := hk.started (hinv.replies m) (k := n) (by simp [hp])
    exact .inr ⟨n, hpos, hle, by rw [LinkMode.peer_peer]⟩
  · exact .inl (hinv.create_hand hrx)
  · exact .inl (hk.of_lock hlock)

theorem LinkInv.step_read (k : LinkMode) :
    (Function.update s m e k.peer).read ≤ (Function.update s m e k).sent.length := by
  have hold := hinv.read k
  rcases k.eq_or_eq_peer m with rfl | rfl
  · rw [update_peer, Function.update_self, h.sent, List.length_append]
    omega
  · rw [update_peer, LinkMode.peer_peer, Function.update_self]
    rw [LinkMode.peer_peer] at hold
    rcases h.hand with ⟨hread, -, -, -, hsome⟩ | ⟨hread, -⟩
    · rw [List.isSome_head?, wire, LinkMode.peer_peer] at hsome
      have := List.length_pos_iff.mpr (by simpa using hsome : (s m.peer).sent.drop (s m).read ≠ [])
      rw [List.length_drop] at this
      omega
    · rwa [hread]

theorem LinkInv.step (hbound : a = .allocate → (s m).connectionIDGenerator < maxStreams) :
    LinkInv (Function.update s m e) where
  known k := by
    by_cases hk : k = m
    · subst hk
      rw [Function.update_self]
      exact (hinv.known k).step h (hinv.replies k) hbound fun _ => hinv.create_hand
    · rw [Function.update_of_ne hk]
      exact hinv.known k
  replies k := by
    by_cases hk : k = m
    · subst hk
      rw [Function.update_self]
      exact h.repliesOk (hinv.replies k)
    · rw [Function.update_of_ne hk]
      exact hinv.replies k
  read := hinv.step_read h
  from_peer := hinv.step_from h
  ordered k _ := hinv.step_ordered h k
  streams k n hpos hle := by
    rcases hinv.view_step h k hpos hle with hsame | ⟨l, hstep, -⟩
    · rw [hsame]
      exact hinv.streams k n hpos hle
    · exact (hinv.streams k n hpos hle).step hstep
  made k id hid := by
    by_cases hk : k = m
    · subst hk
      rw [Function.update_self] at hid
      exact hinv.step_made h hid
    · rw [Function.update_of_ne hk] at hid
      exact hinv.made k id hid

end Branch

end Step

end Hqq.Streams
