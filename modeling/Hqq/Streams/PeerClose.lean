import Hqq.Streams.COpen

/-!
# A close that follows the accept

`handle_peer_close` decides from the `adv_open` record whether the stream is still opening, and the
record outlives the accept.
-/

namespace Hqq.COpen

variable {mode : LinkMode} {s s' : State} {next next' id : Word} {streams : List Stream} {reg reg' : List Nat}
  {closes : List Nat} {handled : List Frame} {o : OpenCall} {t : Stream} {i c : Nat}

/-! ## The numbers of the streams that are opened here -/

theorem openID_primary {n : Word} (h : n.toNat < 2 ^ 63) : (openID .primary n).toNat = 2 * n.toNat := by
  unfold openID
  rw [if_pos rfl, BitVec.toNat_shiftLeft, Nat.shiftLeft_eq]
  omega

theorem openID_secondary {n : Word} (h : n.toNat < 2 ^ 63) (hpos : 0 < n.toNat) :
    (openID .secondary n).toNat = 2 * n.toNat - 1 := by
  unfold openID
  rw [if_neg (by decide), BitVec.toNat_sub, BitVec.toNat_mul]
  change (2 ^ 64 - 1 + 2 * n.toNat % 2 ^ 64) % 2 ^ 64 = _
  omega

theorem openID_inj {n n' : Word} (h : n.toNat < 2 ^ 63) (hpos : 0 < n.toNat) (h' : n'.toNat < 2 ^ 63)
    (hpos' : 0 < n'.toNat) (heq : openID mode n = openID mode n') : n = n' := by
  have heq := congrArg BitVec.toNat heq
  apply BitVec.eq_of_toNat_eq
  cases mode with
  | primary =>
    rw [openID_primary h, openID_primary h'] at heq
    omega
  | secondary =>
    rw [openID_secondary h hpos, openID_secondary h' hpos'] at heq
    omega

theorem and_one_ne_zero_iff {w : Word} : w &&& 1 ≠ 0 ↔ w.toNat % 2 = 1 := by
  have hand : (w &&& 1).toNat = w.toNat % 2 := by
    rw [BitVec.toNat_and]
    exact Nat.and_two_pow_sub_one_eq_mod w.toNat 1
  rw [ne_eq, ← BitVec.toNat_inj, hand]
  change ¬ w.toNat % 2 = 0 ↔ _
  omega

theorem openID_own (mode : LinkMode) {n : Word} (h : n.toNat < 2 ^ 63) (hpos : 0 < n.toNat) :
    openID mode n ≠ 0 ∧ peerOwnsID mode (openID mode n) = false := by
  have hne : openID mode n ≠ 0 := by
    intro hz
    have hz := congrArg BitVec.toNat hz
    change _ = 0 at hz
    cases mode with
    | primary => rw [openID_primary h] at hz; omega
    | secondary => rw [openID_secondary h hpos] at hz; omega
  refine ⟨hne, ?_⟩
  unfold peerOwnsID
  rw [if_neg hne]
  cases mode with
  | primary =>
    have heven : ¬ openID .primary n &&& 1 ≠ 0 := by
      rw [and_one_ne_zero_iff, openID_primary h]
      omega
    simpa using heven
  | secondary =>
    have hodd : openID .secondary n &&& 1 ≠ 0 := by
      rw [and_one_ne_zero_iff, openID_secondary h hpos]
      omega
    simpa using hodd

/-- `id` is one of the first `next` that this side gave to a stream. -/
def Mine (mode : LinkMode) (next id : Word) : Prop :=
  ∃ n : Word, 0 < n.toNat ∧ n.toNat ≤ next.toNat ∧ id = openID mode n

theorem Mine.mono (h : Mine mode next id) (hle : next.toNat ≤ next'.toNat) : Mine mode next' id := by
  obtain ⟨n, hpos, hn, hid⟩ := h
  exact ⟨n, hpos, hn.trans hle, hid⟩

structure RegInv (mode : LinkMode) (next : Word) (streams : List Stream) (reg : List Nat) : Prop where
  small : next.toNat < 2 ^ 63
  known : ∀ i ∈ reg, ∃ t, streams[i]? = some t ∧
    (t.id = 0 ∨ peerOwnsID mode t.id = true ∨ Mine mode next t.id)
  inj : ∀ i ∈ reg, ∀ j ∈ reg, ∀ t u, streams[i]? = some t → streams[j]? = some u → t.id = u.id → i = j

structure CallInv (reg closes : List Nat) (handled : List Frame) (o : OpenCall) (t : Stream) : Prop where
  sameID : t.id = o.id
  live : t.state = .live → o.stream ∈ reg
  failing : ∀ st, o.stage = .failing st → st ≠ .ok
  failed : ∀ st, o.stage = .returned st → st ≠ .ok → t.state = .closedLocal
  closed : t.state = .closedLocal → (∃ st, o.stage = .returned st ∧ st ≠ .ok) ∨ o.stream ∈ closes
  done : o.acceptedAt.isSome = true → o.done = true
  answered : o.done = true → o.status = .ok → o.acceptedAt.isSome = true
  opened : o.stage = .returned .ok → o.acceptedAt.isSome = true
  seen : ∀ n, o.acceptedAt = some n → .close o.id ∈ handled.drop n → t.state ≠ .live

structure Inv (mode : LinkMode) (s : State) : Prop where
  rx : ∀ err ∈ s.rxErr, err ≠ .ok
  reg : RegInv mode s.nextStreamN s.streams s.reg
  mine : ∀ (c : Nat) (o : OpenCall), s.calls[c]? = some o → Mine mode s.nextStreamN o.id
  inj : ∀ (c c' : Nat) (o o' : OpenCall), s.calls[c]? = some o → s.calls[c']? = some o' → o.id = o'.id → c = c'
  call : ∀ (c : Nat) (o : OpenCall), s.calls[c]? = some o →
    ∃ t, s.streams[o.stream]? = some t ∧ CallInv s.reg s.closes s.handled o t

theorem Inv.fresh : Inv mode .fresh where
  rx := by simp [State.fresh]
  reg := ⟨by decide, by simp [State.fresh], by simp [State.fresh]⟩
  mine := by simp [State.fresh]
  inj := by simp [State.fresh]
  call := by simp [State.fresh]

theorem Inv.of_calls (h : Inv mode s) (hrx : ∀ err ∈ s'.rxErr, err ≠ .ok)
    (hreg : RegInv mode s'.nextStreamN s'.streams s'.reg)
    (hnext : s'.nextStreamN = s.nextStreamN)
    (hcall : ∀ (c : Nat) (o' : OpenCall), s'.calls[c]? = some o' →
      ∃ o, s.calls[c]? = some o ∧ o'.id = o.id ∧
        ∀ t, s.streams[o.stream]? = some t → CallInv s.reg s.closes s.handled o t →
          ∃ t', s'.streams[o'.stream]? = some t' ∧ CallInv s'.reg s'.closes s'.handled o' t') :
    Inv mode s' where
  rx := hrx
  reg := hreg
  mine c o' ho' := by
    obtain ⟨o, ho, hid, -⟩ := hcall c o' ho'
    rw [hid, hnext]
    exact h.mine c o ho
  inj c c' o o' ho ho' hid := by
    obtain ⟨p, hp, hpid, -⟩ := hcall c o ho
    obtain ⟨p', hp', hpid', -⟩ := hcall c' o' ho'
    exact h.inj c c' p p' hp hp' (by rw [← hpid, ← hpid', hid])
  call c o' ho' := by
    obtain ⟨o, ho, -, hinv⟩ := hcall c o' ho'
    obtain ⟨t, ht, hcall⟩ := h.call c o ho
    exact hinv t ht hcall

theorem RegInv.modify (h : RegInv mode next streams reg) {f : Stream → Stream} (hf : ∀ t, (f t).id = t.id)
    (hreg : ∀ j ∈ reg', j ∈ reg) : RegInv mode next (streams.modify i f) reg' := by
  refine ⟨h.small, fun j hj => ?_, fun j hj k hk t' u' ht' hu' heq => ?_⟩
  · obtain ⟨t, ht, hknown⟩ := h.known j (hreg j hj)
    refine ⟨_, getElem?_modify_eq_some.mpr ⟨t, ht, rfl⟩, ?_⟩
    split
    · rw [hf t]
      exact hknown
    · exact hknown
  · obtain ⟨t, ht, rfl⟩ := getElem?_modify_eq_some.mp ht'
    obtain ⟨u, hu, rfl⟩ := getElem?_modify_eq_some.mp hu'
    have hti : (if i = j then f t else t).id = t.id := by split <;> simp [hf]
    have hui : (if i = k then f u else u).id = u.id := by split <;> simp [hf]
    exact h.inj j (hreg j hj) k (hreg k hk) t u ht hu (by rw [← hti, ← hui, heq])

theorem mem_of_mem_swapRemove {a b : Nat} (h : a ∈ swapRemove reg b) : a ∈ reg :=
  List.mem_of_mem_erase ((swapRemove_perm reg b).mem_iff.mp h)

theorem mem_swapRemove_of_ne {a b : Nat} (h : a ∈ reg) (hne : a ≠ b) : a ∈ swapRemove reg b :=
  (swapRemove_perm reg b).mem_iff.mpr ((List.mem_erase_of_ne hne).mpr h)

theorem RegInv.lookup_eq (h : RegInv mode next s.streams s.reg) (hi : i ∈ s.reg)
    (ht : s.streams[i]? = some t) : s.lookup t.id = some i := by
  unfold State.lookup
  cases hfind : s.reg.find? fun i => (s.streams[i]?).any fun u => u.id == t.id with
  | none =>
    have := List.find?_eq_none.mp hfind i hi
    simp [ht] at this
  | some j =>
    have hj := List.mem_of_find?_eq_some hfind
    have hid := List.find?_some hfind
    obtain ⟨u, hu, -⟩ := h.known j hj
    rw [hu] at hid
    rw [h.inj j hj i hi u t hu ht (by simpa using hid)]

theorem RegInv.append (h : RegInv mode next streams reg) (hnext : next'.toNat < 2 ^ 63)
    (hle : next.toNat ≤ next'.toNat) (hown : peerOwnsID mode id = true ∨ Mine mode next' id)
    (hnew : ∀ j ∈ reg, ∀ t, streams[j]? = some t → t.id ≠ id) :
    RegInv mode next' (streams ++ [⟨id, .live, true, []⟩]) (reg ++ [streams.length]) := by
  have hold : ∀ j ∈ reg, ∃ t, (streams ++ [⟨id, .live, true, []⟩])[j]? = some t ∧ streams[j]? = some t ∧
      t.id ≠ id ∧ (t.id = 0 ∨ peerOwnsID mode t.id = true ∨ Mine mode next' t.id) := by
    intro j hj
    obtain ⟨t, ht, hknown⟩ := h.known j hj
    refine ⟨t, getElem?_append_of_eq_some ht _, ht, hnew j hj t ht, ?_⟩
    rcases hknown with hz | hp | hmine
    · exact .inl hz
    · exact .inr (.inl hp)
    · exact .inr (.inr (hmine.mono hle))
  have hlast : (streams ++ [(⟨id, .live, true, []⟩ : Stream)])[streams.length]? = some ⟨id, .live, true, []⟩ :=
    List.getElem?_concat_length
  have hmem : ∀ j, j ∈ reg ++ [streams.length] → j ∈ reg ∨ j = streams.length := by simp
  refine ⟨hnext, fun j hj => ?_, fun j hj k hk t u ht hu heq => ?_⟩
  · rcases hmem j hj with hj | rfl
    · obtain ⟨t, ht, -, -, hknown⟩ := hold j hj
      exact ⟨t, ht, hknown⟩
    · exact ⟨_, hlast, .inr hown⟩
  · rcases hmem j hj with hj | rfl <;> rcases hmem k hk with hk | rfl
    · obtain ⟨t', ht', htold, -⟩ := hold j hj
      obtain ⟨u', hu', huold, -⟩ := hold k hk
      obtain rfl := Option.some.inj (ht.symm.trans ht')
      obtain rfl := Option.some.inj (hu.symm.trans hu')
      exact h.inj j hj k hk t u htold huold heq
    · obtain ⟨t', ht', -, hne, -⟩ := hold j hj
      obtain rfl := Option.some.inj (ht.symm.trans ht')
      obtain rfl := Option.some.inj (hu.symm.trans hlast)
      exact absurd heq hne
    · obtain ⟨u', hu', -, hne, -⟩ := hold k hk
      obtain rfl := Option.some.inj (hu.symm.trans hu')
      obtain rfl := Option.some.inj (ht.symm.trans hlast)
      exact absurd heq.symm hne
    · rfl

theorem Inv.modifyCalls (h : Inv mode s) {calls : List OpenCall}
    (hcall : ∀ (c : Nat) (o' : OpenCall), calls[c]? = some o' → ∃ o, s.calls[c]? = some o ∧
      o'.id = o.id ∧ o'.stream = o.stream ∧
        ∀ t, CallInv s.reg s.closes s.handled o t → CallInv s.reg s.closes s.handled o' t) :
    Inv mode { s with calls := calls } := by
  refine h.of_calls h.rx h.reg rfl fun c o' ho' => ?_
  obtain ⟨o, ho, hid, hstream, hinv⟩ := hcall c o' ho'
  exact ⟨o, ho, hid, fun t ht hold => ⟨t, hstream ▸ ht, hinv t hold⟩⟩

theorem Inv.modifyCall (h : Inv mode s) {f : OpenCall → OpenCall} (hid : ∀ o, (f o).id = o.id)
    (hstream : ∀ o, (f o).stream = o.stream)
    (hcall : ∀ o t, s.calls[c]? = some o → CallInv s.reg s.closes s.handled o t →
      CallInv s.reg s.closes s.handled (f o) t) : Inv mode { s with calls := s.calls.modify c f } := by
  refine h.modifyCalls fun d o' ho' => ?_
  obtain ⟨o, ho, rfl⟩ := getElem?_modify_eq_some.mp ho'
  split
  · next hcd => exact ⟨o, ho, hid o, hstream o, fun t => hcall o t (hcd ▸ ho)⟩
  · exact ⟨o, ho, rfl, rfl, fun t ht => ht⟩

theorem Inv.modifyStream (h : Inv mode s) {f : Stream → Stream} (hid : ∀ t, (f t).id = t.id)
    (hreg : ∀ j ∈ reg, j ∈ s.reg) (hother : ∀ j ∈ s.reg, j ≠ i → j ∈ reg)
    (hcloses : ∀ j ∈ s.closes, j ∈ closes)
    (hcall : ∀ o t, (∃ c : Nat, s.calls[c]? = some o) → o.stream = i → s.streams[i]? = some t →
      CallInv s.reg s.closes s.handled o t → CallInv reg closes s.handled o (f t)) :
    Inv mode { s with streams := s.streams.modify i f, reg := reg, closes := closes } := by
  refine h.of_calls h.rx (h.reg.modify hid hreg) rfl fun c o ho => ⟨o, ho, rfl, fun t ht hinv => ?_⟩
  refine ⟨_, getElem?_modify_eq_some.mpr ⟨t, ht, rfl⟩, ?_⟩
  split
  · next his => exact hcall o t ⟨c, ho⟩ his.symm (his ▸ ht) hinv
  · next hne =>
    exact { hinv with
      live := fun hl => hother _ (hinv.live hl) (Ne.symm hne)
      closed := fun hc => (hinv.closed hc).imp_right (hcloses _) }

theorem statusFromCode_ne_ok (code : Word) : statusFromCode code ≠ .ok := by
  unfold statusFromCode
  repeat' split
  all_goals decide

theorem Inv.handleAccept (h : Inv mode s) (id : Word) : Inv mode (s.handleAccept id) := by
  unfold State.handleAccept
  split
  · exact h
  · refine h.modifyCall (fun _ => rfl) (fun _ => rfl) fun o t ho hinv => ?_
    -- Nothing has been handled since the accept.
    have hseen : ∀ n, some s.handled.length = some n → .close o.id ∈ s.handled.drop n → t.state ≠ .live := by
      rintro n ⟨⟩ hmem
      rw [List.drop_length] at hmem
      exact absurd hmem List.not_mem_nil
    exact { hinv with
      done := fun _ => rfl, answered := fun _ _ => rfl, opened := fun _ => rfl, seen := hseen }

theorem CallInv.answer_error (h : CallInv reg closes handled o t) {st : Status} (hst : st ≠ .ok) :
    CallInv reg closes handled { o with done := true, status := st } t :=
  { h with done := fun _ => rfl, answered := fun _ hok => absurd hok hst }

theorem Inv.failAll (h : Inv mode s) {err : Status} (herr : err ≠ .ok) : Inv mode (s.failAll err) := by
  have hget : s.rxErr.getD err ≠ .ok := by
    cases hs : s.rxErr with
    | none => exact herr
    | some e => exact h.rx e hs
  refine h.of_calls (by rintro e ⟨⟩; exact hget) h.reg rfl fun c o' ho' => ?_
  change (s.calls.mapIdx _)[c]? = some o' at ho'
  rw [List.getElem?_mapIdx, Option.map_eq_some_iff] at ho'
  obtain ⟨o, ho, rfl⟩ := ho'
  refine ⟨o, ho, ?_⟩
  split
  · exact ⟨rfl, fun t ht hinv => ⟨t, ht, hinv.answer_error hget⟩⟩
  · exact ⟨rfl, fun t ht hinv => ⟨t, ht, hinv⟩⟩

theorem Inv.handleError (h : Inv mode s) (ctxID code : Word) : Inv mode (s.handleError ctxID code) := by
  unfold State.handleError
  split
  · exact h.failAll (statusFromCode_ne_ok code)
  · exact h.modifyCall (fun _ => rfl) (fun _ => rfl) fun o t _ hinv =>
      hinv.answer_error (statusFromCode_ne_ok code)

theorem Inv.modifyQueue (h : Inv mode s) {f : Stream → Stream}
    (hf : ∀ t, (f t).id = t.id ∧ (f t).state = t.state) :
    Inv mode { s with streams := s.streams.modify i f } := by
  refine h.modifyStream (fun t => (hf t).1) (fun _ hj => hj) (fun _ hj _ => hj) (fun _ hj => hj)
    fun o t _ _ _ hinv => ?_
  obtain ⟨hid, hstate⟩ := hf t
  exact { hinv with
    sameID := hid.trans hinv.sameID
    live := fun hl => hinv.live (hstate ▸ hl)
    failed := fun st hst hne => hstate ▸ hinv.failed st hst hne
    closed := fun hc => hinv.closed (hstate ▸ hc)
    seen := fun n hn hmem => hstate ▸ hinv.seen n hn hmem }

theorem unregister_setState (s : State) (i : Nat) (f : StreamState → StreamState) :
    (s.unregister i).setState i f = { s with
      reg := swapRemove s.reg i
      streams := s.streams.modify i fun t => { t with registered := false, state := f t.state } } := by
  unfold State.unregister State.setState
  simp only [List.modify_modify_eq]
  rfl

theorem Inv.retire (h : Inv mode s) {f : StreamState → StreamState} (hlive : ∀ st, f st ≠ .live)
    (hclosed : ∀ st, f st = .closedLocal → st = .closedLocal) (hstay : f .closedLocal = .closedLocal) :
    Inv mode ((s.unregister i).setState i f) := by
  rw [unregister_setState]
  refine h.modifyStream (fun _ => rfl) (fun _ => mem_of_mem_swapRemove) (fun _ => mem_swapRemove_of_ne)
    (fun _ hj => hj) fun o t _ _ _ hinv => ?_
  exact { hinv with
    live := fun hl => absurd hl (hlive _)
    failed := fun st hst hne => (congrArg f (hinv.failed st hst hne)).trans hstay
    closed := fun hc => hinv.closed (hclosed _ hc)
    seen := fun _ _ _ => hlive _ }

theorem Inv.handlePeerClose (h : Inv mode s) (id : Word) : Inv mode (s.handlePeerClose id) := by
  unfold State.handlePeerClose
  split
  · exact h
  split
  · exact h
  split
  · exact h
  · refine h.retire (fun st => ?_) (fun st => ?_) rfl
    all_goals cases st <;> decide

theorem handlePeerClose_live (ht : (s.handlePeerClose id).streams[i]? = some t) (hlive : t.state = .live) :
    ∃ u, s.streams[i]? = some u ∧ u.state = .live := by
  unfold State.handlePeerClose at ht
  split at ht
  · exact ⟨t, ht, hlive⟩
  split at ht
  · exact ⟨t, ht, hlive⟩
  split at ht
  · exact ⟨t, ht, hlive⟩
  · rw [unregister_setState] at ht
    obtain ⟨u, hu, rfl⟩ := getElem?_modify_eq_some.mp ht
    refine ⟨u, hu, ?_⟩
    grind -ring -linarith

theorem Inv.peerClose_seen (h : Inv mode s) (ho : s.calls[c]? = some o)
    (hlinked : (s.opens.any fun d => (s.calls[d]?).any fun p => p.id == o.id) = false)
    (ht : (s.handlePeerClose o.id).streams[o.stream]? = some t) : t.state ≠ .live := by
  obtain ⟨u, hu, hinv⟩ := h.call c o ho
  obtain ⟨n, hpos, hn, hid⟩ := h.mine c o ho
  have hne : o.id ≠ 0 := by
    rw [hid]
    exact (openID_own _ (hn.trans_lt h.reg.small) hpos).1
  intro hlive
  obtain ⟨v, hv, hvlive⟩ := handlePeerClose_live ht hlive
  obtain rfl := Option.some.inj (hu.symm.trans hv)
  have hlookup := h.reg.lookup_eq (hinv.live hvlive) hu
  rw [hinv.sameID] at hlookup
  unfold State.handlePeerClose at ht
  rw [if_neg (by simp [hlinked]), hlookup] at ht
  dsimp only at ht
  rw [if_neg hne, unregister_setState] at ht
  obtain ⟨w, hw, rfl⟩ := getElem?_modify_eq_some.mp ht
  obtain rfl := Option.some.inj (hu.symm.trans hw)
  simp [hvlive] at hlive

theorem lookup_none_ne (h : s.lookup id = none) : ∀ j ∈ s.reg, ∀ t, s.streams[j]? = some t → t.id ≠ id := by
  rintro j hj t ht rfl
  have := List.find?_eq_none.mp h j hj
  simp [ht] at this

theorem Inv.handleCreate (h : Inv mode s) (id : Word) : Inv mode (s.handleCreate mode id) := by
  unfold State.handleCreate
  split
  · exact h
  next hcond =>
  simp only [Bool.or_eq_true, Bool.not_eq_true', not_or, Bool.not_eq_false, Bool.not_eq_true,
    Option.isSome_eq_false_iff, Option.isNone_iff_eq_none] at hcond
  obtain ⟨hpeer, hlookup⟩ := hcond
  refine h.of_calls h.rx (h.reg.append h.reg.small le_rfl (.inl hpeer) (lookup_none_ne hlookup)) rfl
    fun c o ho => ⟨o, ho, rfl, fun t ht hinv => ⟨t, getElem?_append_of_eq_some ht _, ?_⟩⟩
  exact { hinv with live := fun hl => List.mem_append_left _ (hinv.live hl) }

theorem Inv.handleData (h : Inv mode s) (id : Word) (msg : Nat) : Inv mode (s.handleData id msg) := by
  unfold State.handleData
  split
  · exact h
  · refine h.modifyQueue fun t => ?_
    split <;> exact ⟨rfl, rfl⟩

theorem mem_drop_concat {f g : Frame} {n : Nat} (h : f ∈ (handled ++ [g]).drop n) :
    f ∈ handled.drop n ∨ f = g := by
  rw [List.drop_append, List.mem_append] at h
  exact h.imp_right fun hg => List.mem_singleton.mp (List.mem_of_mem_drop hg)

theorem Inv.log (h : Inv mode s) (f : Frame)
    (hclose : ∀ (c : Nat) (o : OpenCall) (t : Stream), s.calls[c]? = some o → f = .close o.id →
      o.acceptedAt.isSome = true → s.streams[o.stream]? = some t → t.state ≠ .live) :
    Inv mode { s with handled := s.handled ++ [f] } := by
  refine h.of_calls h.rx h.reg rfl fun c o ho => ⟨o, ho, rfl, fun t ht hinv => ⟨t, ht, ?_⟩⟩
  refine { hinv with seen := fun n hn hmem => ?_ }
  rcases mem_drop_concat hmem with hold | hnew
  · exact hinv.seen n hn hold
  · exact hclose c o t ho hnew.symm (by rw [hn]; rfl) ht

/-- No close is handled while the record of an open that was answered for its ID is linked, and
the numbers of the streams do not wrap. -/
def CloseWaits (s : State) : Act → Prop
  | .frame (.close id) _ => ∀ c ∈ s.opens, ∀ o ∈ s.calls[c]?, o.id = id → o.done = false
  | .start _ => s.nextStreamN.toNat + 1 < 2 ^ 63
  | _ => True

instance (s : State) (a : Act) : Decidable (CloseWaits s a) := by
  unfold CloseWaits
  split <;> infer_instance

theorem handled_handle (s : State) (room : Bool) (f : Frame) : (s.handle mode room f).handled = s.handled := by
  unfold State.handle State.handleCreate State.handleAccept State.handlePeerClose State.handleError
    State.handleData
  cases f <;> dsimp only <;> repeat' split
  all_goals rfl

theorem Inv.handle (h : Inv mode s) (room : Bool) (f : Frame) : Inv mode (s.handle mode room f) := by
  unfold State.handle
  cases f with
  | create id =>
    cases room with
    | true => exact h.handleCreate id
    | false => exact h
  | accept id => exact h.handleAccept id
  | close id => exact h.handlePeerClose id
  | error ctxID code => exact h.handleError ctxID code
  | data id msg =>
    cases room with
    | true => exact h.handleData id msg
    | false => exact h

theorem calls_handlePeerClose (s : State) (id : Word) : (s.handlePeerClose id).calls = s.calls := by
  unfold State.handlePeerClose
  repeat' split
  all_goals rfl

theorem Inv.frame (h : Inv mode s) {f : Frame} {room : Bool} (hok : CloseWaits s (.frame f room)) :
    Inv mode { s.handle mode room f with handled := s.handled ++ [f] } := by
  rw [← handled_handle s room f]
  refine (h.handle room f).log f fun c o t ho hf hacc ht => ?_
  subst hf
  change (s.handlePeerClose o.id).streams[o.stream]? = some t at ht
  change (s.handlePeerClose o.id).calls[c]? = some o at ho
  rw [calls_handlePeerClose] at ho
  obtain ⟨u, -, hinv⟩ := h.call c o ho
  refine h.peerClose_seen ho ?_ ht
  -- A linked record with this ID is that of the call itself, which is answered.
  rw [List.any_eq_false]
  intro d hd hany
  cases hp : s.calls[d]? with
  | none => simp [hp] at hany
  | some p =>
    have hid : p.id = o.id := by simpa [hp] using hany
    obtain rfl := h.inj d c p o hp ho hid
    obtain rfl := Option.some.inj (hp.symm.trans ho)
    have hdone := hok d hd p hp rfl
    rw [hinv.done hacc] at hdone
    exact Bool.noConfusion hdone

theorem nextStreamN_succ {n : Word} (h : n.toNat + 1 < 2 ^ 63) : (n + 1).toNat = n.toNat + 1 := by
  rw [BitVec.toNat_add]
  change (n.toNat + 1) % 2 ^ 64 = _
  omega

theorem Mine.ne_next (h : Mine mode next id) (hnext : next.toNat + 1 < 2 ^ 63) : id ≠ openID mode (next + 1) := by
  obtain ⟨n, hpos, hn, rfl⟩ := h
  have hsucc := nextStreamN_succ hnext
  intro heq
  have hsame := openID_inj (by omega) hpos (by omega) (by omega) heq
  rw [hsame] at hn
  omega

theorem mine_next (hnext : next.toNat + 1 < 2 ^ 63) : Mine mode (next + 1) (openID mode (next + 1)) :=
  ⟨next + 1, by rw [nextStreamN_succ hnext]; omega, le_rfl, rfl⟩

theorem RegInv.start (h : RegInv mode next streams reg) (hnext : next.toNat + 1 < 2 ^ 63) :
    RegInv mode (next + 1) (streams ++ [⟨openID mode (next + 1), .live, true, []⟩])
      (reg ++ [streams.length]) := by
  have hsucc := nextStreamN_succ hnext
  refine h.append (by omega) (by omega) (.inr (mine_next hnext)) fun j hj t ht => ?_
  obtain ⟨u, hu, hknown⟩ := h.known j hj
  obtain rfl := Option.some.inj (ht.symm.trans hu)
  have hown := openID_own mode (n := next + 1) (by omega) (by omega)
  rcases hknown with hz | hpeer | hmine
  · rw [hz]
    exact hown.1.symm
  · intro heq
    rw [heq, hown.2] at hpeer
    exact Bool.noConfusion hpeer
  · exact hmine.ne_next hnext

theorem Inv.start (h : Inv mode s) (memory : Bool) (hnext : s.nextStreamN.toNat + 1 < 2 ^ 63) :
    Inv mode (s.start mode memory) := by
  have hsucc := nextStreamN_succ hnext
  have hlt : (s.nextStreamN + 1).toNat < 2 ^ 63 := by omega
  have hle : s.nextStreamN.toNat ≤ (s.nextStreamN + 1).toNat := by omega
  unfold State.start
  split
  · refine ⟨h.rx, h.reg.start hnext, fun c o ho => ?_, fun c c' o o' ho ho' hid => ?_, fun c o ho => ?_⟩
    · rcases getElem?_concat_eq_some.mp ho with hold | ⟨-, rfl⟩
      · exact (h.mine c o hold).mono hle
      · exact mine_next hnext
    · rcases getElem?_concat_eq_some.mp ho with hold | ⟨rfl, rfl⟩ <;>
        rcases getElem?_concat_eq_some.mp ho' with hold' | ⟨rfl, rfl⟩
      · exact h.inj c c' o o' hold hold' hid
      · exact absurd hid ((h.mine c o hold).ne_next hnext)
      · exact absurd hid.symm ((h.mine c' o' hold').ne_next hnext)
      · rfl
    · rcases getElem?_concat_eq_some.mp ho with hold | ⟨-, rfl⟩
      · obtain ⟨t, ht, hinv⟩ := h.call c o hold
        exact ⟨t, getElem?_append_of_eq_some ht _,
          { hinv with live := fun hl => List.mem_append_left _ (hinv.live hl) }⟩
      · refine ⟨_, List.getElem?_concat_length, ?_⟩
        constructor
        all_goals simp [State.register]
  · refine ⟨h.rx, ⟨hlt, fun j hj => ?_, h.reg.inj⟩, fun c o ho => (h.mine c o ho).mono hle, h.inj, h.call⟩
    obtain ⟨t, ht, hknown⟩ := h.reg.known j hj
    exact ⟨t, ht, hknown.imp_right (Or.imp_right (Mine.mono · hle))⟩

theorem Inv.setStage (h : Inv mode s) {stage : Stage} (hok : ∀ st, stage = .failing st → st ≠ .ok)
    (hret : ∀ st, stage ≠ .returned st) (hpending : ∀ o, s.calls[c]? = some o → ∀ st, o.stage ≠ .returned st) :
    Inv mode (s.setStage c stage) := by
  refine h.modifyCall (fun _ => rfl) (fun _ => rfl) fun o t ho hinv => ?_
  exact { hinv with
    failing := hok
    failed := fun st hst => absurd hst (hret st)
    closed := fun hc => .inr ((hinv.closed hc).resolve_left fun ⟨st, hst, _⟩ => hpending o ho st hst)
    opened := fun hst => absurd hst (hret _) }

theorem Inv.sent (h : Inv mode s) {st : Status} (hs : s.sent c st = some s') : Inv mode s' := by
  obtain ⟨o, ho, hs⟩ := Option.bind_eq_some_iff.mp hs
  split at hs
  · next hstage =>
    cases hs
    refine h.setStage ?_ ?_ ?_
    · intro st' hst'
      split at hst'
      · exact Stage.noConfusion hst'
      · next hne =>
        obtain rfl := Stage.failing.inj hst'
        exact hne
    · intro st'
      split <;> nofun
    · intro p hp st' hst'
      obtain rfl := Option.some.inj (ho.symm.trans hp)
      rw [hstage] at hst'
      exact Stage.noConfusion hst'
  · exact absurd hs (by simp)

theorem Inv.stream_inj (h : Inv mode s) {d : Nat} {p : OpenCall} (ho : s.calls[c]? = some o)
    (hp : s.calls[d]? = some p) (hstream : o.stream = p.stream) : c = d := by
  obtain ⟨t, ht, hinv⟩ := h.call c o ho
  obtain ⟨u, hu, hinv'⟩ := h.call d p hp
  rw [hstream] at ht
  obtain rfl := Option.some.inj (ht.symm.trans hu)
  exact h.inj c d o p ho hp (by rw [← hinv.sameID, ← hinv'.sameID])

theorem Inv.finish (h : Inv mode s) (ho : s.calls[c]? = some o) {st : Status}
    (hpending : ∀ st, o.stage ≠ .returned st) (hacc : st = .ok → o.acceptedAt.isSome = true) :
    Inv mode (s.finish c o st) := by
  unfold State.finish
  split
  · next hok =>
    subst hok
    refine h.of_calls h.rx h.reg rfl fun d o' ho' => ?_
    obtain ⟨p, hp, rfl⟩ := getElem?_modify_eq_some.mp ho'
    split
    · next hcd =>
      subst hcd
      obtain rfl := Option.some.inj (ho.symm.trans hp)
      refine ⟨o, ho, rfl, fun t ht hinv => ⟨t, ht, ?_⟩⟩
      exact { hinv with
        failing := nofun
        failed := fun st hst hne => absurd (Stage.returned.inj hst).symm hne
        closed := fun hc => .inr ((hinv.closed hc).resolve_left fun ⟨st, hst, _⟩ => hpending st hst)
        opened := fun _ => hacc rfl }
    · exact ⟨p, hp, rfl, fun t ht hinv => ⟨t, ht, hinv⟩⟩
  · next hne =>
    rw [unregister_setState]
    refine h.of_calls h.rx (h.reg.modify (fun _ => rfl) fun _ => mem_of_mem_swapRemove) rfl fun d o' ho' => ?_
    obtain ⟨p, hp, rfl⟩ := getElem?_modify_eq_some.mp ho'
    split
    · next hcd =>
      subst hcd
      obtain rfl := Option.some.inj (ho.symm.trans hp)
      refine ⟨o, ho, rfl, fun t ht hinv => ⟨_, getElem?_modify_eq_some.mpr ⟨t, ht, rfl⟩, ?_⟩⟩
      rw [if_pos rfl]
      exact { hinv with
        live := nofun
        failing := nofun
        failed := fun _ _ _ => rfl
        closed := fun _ => .inl ⟨st, rfl, hne⟩
        opened := fun hst => absurd (Stage.returned.inj hst) hne
        seen := fun _ _ _ => nofun }
    · next hcd =>
      have hstream : o.stream ≠ p.stream := fun heq => hcd (h.stream_inj ho hp heq)
      refine ⟨p, hp, rfl, fun t ht hinv => ⟨_, getElem?_modify_eq_some.mpr ⟨t, ht, rfl⟩, ?_⟩⟩
      rw [if_neg hstream]
      exact { hinv with live := fun hl => mem_swapRemove_of_ne (hinv.live hl) hstream.symm }

theorem Inv.run (h : Inv mode s) {check : Status} (hs : s.run c check = some s') : Inv mode s' := by
  obtain ⟨o, ho, hs⟩ := Option.bind_eq_some_iff.mp hs
  obtain ⟨t, ht, hinv⟩ := h.call c o ho
  have hpending : ∀ stage, o.stage = stage → (∀ st, stage ≠ .returned st) → ∀ st, o.stage ≠ .returned st := by
    rintro stage rfl hst
    exact hst
  split at hs
  · next hstage =>
    have hpending := hpending _ hstage nofun
    split at hs
    · next hdone =>
      cases hs
      exact h.finish ho hpending (hinv.answered hdone)
    split at hs
    · next hcheck =>
      cases hs
      exact h.finish ho hpending fun hok => absurd hok hcheck
    · cases hs
      exact h
  · next st hstage =>
    cases hs
    exact h.finish ho (hpending _ hstage nofun) fun hok => absurd hok (hinv.failing st hstage)
  · exact absurd hs (by simp)
  · exact absurd hs (by simp)

/-! ## The application and the control sender -/

theorem Inv.dropAccept (h : Inv mode s) (ht : s.streams[i]? = some t) (hpeer : peerOwnsID mode t.id = true) :
    Inv mode (s.unregister i) := by
  refine h.modifyStream (fun _ => rfl) (fun _ => mem_of_mem_swapRemove) (fun _ => mem_swapRemove_of_ne)
    (fun _ hj => hj) ?_
  -- The stream of a call has an ID of this side.
  rintro o u ⟨c, ho⟩ - hu hinv
  obtain rfl := Option.some.inj (ht.symm.trans hu)
  obtain ⟨n, hpos, hn, hid⟩ := h.mine c o ho
  have hown := (openID_own mode (hn.trans_lt h.reg.small) hpos).2
  rw [← hid, ← hinv.sameID, hpeer] at hown
  exact Bool.noConfusion hown

theorem Inv.closeLocal (h : Inv mode s) {f : Stream → Stream}
    (hf : ∀ t, (f t).id = t.id ∧ (f t).state = .closedLocal) (hreg : ∀ j ∈ reg, j ∈ s.reg)
    (hother : ∀ j ∈ s.reg, j ≠ i → j ∈ reg) :
    Inv mode { s with streams := s.streams.modify i f, reg := reg, closes := i :: s.closes } := by
  refine h.modifyStream (fun t => (hf t).1) hreg hother (fun _ => List.mem_cons_of_mem i)
    fun o t _ hstream _ hinv => ?_
  obtain ⟨hid, hstate⟩ := hf t
  exact { hinv with
    sameID := hid.trans hinv.sameID
    live := fun hl => absurd (hstate.symm.trans hl) nofun
    failed := fun _ _ _ => hstate
    closed := fun _ => .inr (hstream ▸ List.mem_cons_self)
    seen := fun _ _ _ hl => absurd (hstate.symm.trans hl) nofun }

theorem Inv.close (h : Inv mode s) (hs : s.close i = some s') : Inv mode s' := by
  unfold State.close at hs
  split at hs
  · exact absurd hs (by simp)
  obtain ⟨t, ht, hs⟩ := Option.bind_eq_some_iff.mp hs
  split at hs
  · cases hs
    exact h
  cases hs
  unfold State.setState State.unregister
  split
  · simp only [List.modify_modify_eq]
    exact h.closeLocal (fun _ => ⟨rfl, rfl⟩) (fun _ => mem_of_mem_swapRemove) fun _ => mem_swapRemove_of_ne
  · simp only [List.modify_modify_eq]
    exact h.closeLocal (fun _ => ⟨rfl, rfl⟩) (fun _ hj => hj) fun _ hj _ => hj

theorem Inv.step (h : Inv mode s) {a : Act} (hok : CloseWaits s a) (hs : COpen.step mode s a = some s') :
    Inv mode s' := by
  cases a with
  | start memory =>
    cases hs
    exact h.start memory hok
  | sent c st => exact h.sent hs
  | run c check => exact h.run hs
  | frame f room =>
    cases hs
    exact h.frame hok
  | listen id =>
    cases hs
    exact h.handleCreate id
  | dropAccept i =>
    obtain ⟨t, ht, hs⟩ := Option.bind_eq_some_iff.mp hs
    split at hs
    · next hpeer =>
      cases hs
      exact h.dropAccept ht hpeer
    · exact absurd hs (by simp)
  | failRx err =>
    change (if err = .ok then none else some (s.failAll err)) = some s' at hs
    split at hs
    · exact absurd hs (by simp)
    · next herr =>
      cases hs
      exact h.failAll herr
  | close i => exact h.close hs
  | recv i =>
    cases hs
    exact h.modifyQueue fun _ => ⟨rfl, rfl⟩

theorem inv_of_reach (h : (machine mode).Reach CloseWaits s) : Inv mode s :=
  Machine.Reach.invariant Inv.fresh (fun _ _ _ _ hi hok hs => hi.step hok hs) h

theorem recv_not_live (hlive : t.state ≠ .live) : s.recv t ≠ .parks := by
  unfold State.recv
  cases t.queue with
  | cons m rest => nofun
  | nil =>
    cases hstate : t.state with
    | live => exact absurd hstate hlive
    | closedLocal => nofun
    | closedPeer => nofun

/-- A call that returned a stream was accepted. Once a close was handled after that, a receive on
the stream never parks. -/
theorem close_after_accept_seen (h : (machine mode).Reach CloseWaits s) (ho : s.calls[c]? = some o)
    (hopened : o.stage = .returned .ok) :
    ∃ n t, o.acceptedAt = some n ∧ s.streams[o.stream]? = some t ∧
      (.close o.id ∈ s.handled.drop n → s.recv t ≠ .parks ∧
        (o.stream ∉ s.closes →
          t.state = .closedPeer ∧ (t.queue = [] → s.recv t = .fails .peerClosed))) := by
  obtain ⟨t, ht, hinv⟩ := (inv_of_reach h).call c o ho
  obtain ⟨n, hn⟩ := Option.isSome_iff_exists.mp (hinv.opened hopened)
  refine ⟨n, t, hn, ht, fun hclose => ?_⟩
  have hlive := hinv.seen n hn hclose
  refine ⟨recv_not_live hlive, fun hmine => ?_⟩
  have hstate : t.state = .closedPeer := by
    cases hstate : t.state with
    | live => exact absurd hstate hlive
    | closedPeer => rfl
    | closedLocal =>
      rcases hinv.closed hstate with ⟨st, hst, hne⟩ | hcloses
      · rw [hopened] at hst
        exact absurd (Stage.returned.inj hst).symm hne
      · exact absurd hcloses hmine
  refine ⟨hstate, fun hqueue => ?_⟩
  unfold State.recv
  rw [hqueue, hstate]

theorem close_after_accept_seen_once : ∃ s : State, (machine .primary).Reach CloseWaits s ∧
    s.calls[0]? = some ⟨2, 1, .returned .ok, true, .ok, some 0⟩ ∧ s.closes = [] ∧
    .close 2 ∈ s.handled.drop 0 ∧
    ∃ n t, some 0 = some n ∧ s.streams[1]? = some t ∧ (.close 2 ∈ s.handled.drop n → s.recv t ≠ .parks ∧
      (1 ∉ s.closes → t.state = .closedPeer ∧ (t.queue = [] → s.recv t = .fails .peerClosed))) := by
  obtain ⟨s, hs, hcall, hcloses, hclose⟩ : ∃ s, (machine .primary).Reach CloseWaits s ∧
      s.calls[0]? = some ⟨2, 1, .returned .ok, true, .ok, some 0⟩ ∧ s.closes = [] ∧
      .close 2 ∈ s.handled.drop 0 :=
    Machine.exists_reach [.start true, .sent 0 .ok, .frame (.accept 2) true, .run 0 .ok,
      .frame (.close 2) true] (by decide +kernel)
  exact ⟨s, hs, hcall, hcloses, hclose, close_after_accept_seen hs hcall rfl⟩

/-- The close is handled before the call runs again: it is lost, and a receive parks. -/
theorem close_before_wake_lost : ∃ s : State, (machine .primary).Reachable s ∧
    s.calls[0]? = some ⟨2, 1, .returned .ok, true, .ok, some 0⟩ ∧ s.closes = [] ∧
    .close 2 ∈ s.handled.drop 0 ∧
    s.streams[1]?.any (fun t => t.state = .live && s.recv t = .parks) = true :=
  Machine.exists_reachable [.start true, .sent 0 .ok, .frame (.accept 2) true, .frame (.close 2) true,
    .run 0 .ok] (by decide +kernel)

end Hqq.COpen
