import Hqq.Handles.Ledger

/-!
# What the log of a handle table says

An index holds what was put there last, until it is freed. The generation of an ID counts how
often its index was freed before.
-/

namespace Hqq.Handles

/-- Only a free index is filled, with a new object and the generation that its frees give,
and only what an index holds leaves it. -/
inductive History : List Ev → Prop
  | nil : History []
  | put {log : List Ev} {r : Reg} (h : History log) (hidle : current (r.id % 65536) log = none)
      (hnew : ∀ e ∈ log, e.obj < r.obj)
      (hgen : r.id / 65536 = 1 + frees (r.id % 65536) log % 65535) : History (.put r :: log)
  | free {log : List Ev} {e : Ev} {r : Reg} (h : History log) (hfrees : e.frees = true)
      (hcur : current (e.id % 65536) log = some r) (hid : r.id = e.id) (hobj : r.obj = e.obj) :
      History (e :: log)

theorem History.tail {e : Ev} {log : List Ev} (h : History (e :: log)) : History log := by
  cases h with
  | put h _ _ _ => exact h
  | free h _ _ _ _ => exact h

theorem History.of_put {r : Reg} {log : List Ev} (h : History (.put r :: log)) :
    current (r.id % 65536) log = none ∧ (∀ e ∈ log, e.obj < r.obj) ∧
      r.id / 65536 = 1 + frees (r.id % 65536) log % 65535 := by
  cases h with
  | put _ hidle hnew hgen => exact ⟨hidle, hnew, hgen⟩
  | free _ hfrees _ _ _ => cases hfrees

theorem History.of_free {e : Ev} {log : List Ev} (h : History (e :: log)) (hfrees : e.frees = true) :
    ∃ r, current (e.id % 65536) log = some r ∧ r.id = e.id ∧ r.obj = e.obj := by
  cases h with
  | put _ _ _ _ => cases hfrees
  | @free _ _ r _ _ hcur hid hobj => exact ⟨r, hcur, hid, hobj⟩

theorem History.suffix {newer older : List Ev} (h : History (newer ++ older)) : History older := by
  induction newer with
  | nil => exact h
  | cons e newer ih => exact ih h.tail

theorem Ev.reg_of_frees {e : Ev} (h : e.frees = true) : e.reg = none := by
  cases e with
  | put r => cases h
  | destroyed id o => rfl
  | consumed id o => rfl

theorem frees_append (i : Nat) (as bs : List Ev) : frees i (as ++ bs) = frees i as + frees i bs :=
  List.countP_append ..

theorem frees_cons (i : Nat) (e : Ev) (log : List Ev) :
    frees i (e :: log) = frees i log + if e.frees && e.id % 65536 == i then 1 else 0 :=
  List.countP_cons ..

theorem current_cons_of_ne {i : Nat} {e : Ev} {log : List Ev} (h : e.id % 65536 ≠ i) :
    current i (e :: log) = current i log := if_neg h

theorem current_cons_self {e : Ev} {log : List Ev} : current (e.id % 65536) (e :: log) = e.reg :=
  if_pos rfl

theorem current_split {i : Nat} {log : List Ev} {r : Reg} (h : current i log = some r) :
    r.id % 65536 = i ∧ ∃ newer older, log = newer ++ .put r :: older ∧
      ∀ e ∈ newer, e.id % 65536 ≠ i := by
  induction log with
  | nil => cases h
  | cons e log ih =>
    by_cases hi : e.id % 65536 = i
    · rw [current, if_pos hi] at h
      cases e with
      | put r' =>
        obtain rfl : r' = r := Option.some.inj h
        exact ⟨hi, [], log, rfl, by simp⟩
      | destroyed id o => cases h
      | consumed id o => cases h
    · rw [current_cons_of_ne hi] at h
      obtain ⟨hid, newer, older, rfl, hnewer⟩ := ih h
      refine ⟨hid, e :: newer, older, rfl, fun e' he' => ?_⟩
      rcases List.mem_cons.1 he' with rfl | he'
      · exact hi
      · exact hnewer e' he'

theorem current_append {i : Nat} {newer older : List Ev} (h : ∀ e ∈ newer, e.id % 65536 ≠ i) :
    current i (newer ++ older) = current i older := by
  induction newer with
  | nil => rfl
  | cons e newer ih =>
    rw [List.cons_append, current_cons_of_ne (h e (by simp)), ih fun e he => h e (by simp [he])]

theorem History.gen {log : List Ev} (h : History log) {i : Nat} {r : Reg} (hcur : current i log = some r) :
    r.id / 65536 = 1 + frees i log % 65535 := by
  induction h with
  | nil => cases hcur
  | @put log r' _ _ _ hgen ih =>
    have hsame : frees i (.put r' :: log) = frees i log := by simp [frees_cons, Ev.frees]
    rw [hsame]
    by_cases hi : r'.id % 65536 = i
    · subst hi
      obtain rfl : r' = r := Option.some.inj (current_cons_self.symm.trans hcur)
      exact hgen
    · exact ih (current_cons_of_ne (e := .put r') hi ▸ hcur)
  | @free log e r' _ hfrees _ _ _ ih =>
    by_cases hi : e.id % 65536 = i
    · subst hi
      rw [current_cons_self, Ev.reg_of_frees hfrees] at hcur
      cases hcur
    · have hsame : frees i (e :: log) = frees i log := by simp [frees_cons, hi]
      rw [hsame]
      exact ih (current_cons_of_ne hi ▸ hcur)

theorem History.current_of_put {newer older : List Ev} {r : Reg}
    (h : History (newer ++ .put r :: older))
    (hkeeps : ∀ e ∈ newer, e.frees = true → e.obj ≠ r.obj) :
    current (r.id % 65536) (newer ++ .put r :: older) = some r := by
  induction newer with
  | nil => exact current_cons_self (e := .put r)
  | cons e newer ih =>
    rw [List.cons_append] at h ⊢
    have hcur := ih h.tail fun e he => hkeeps e (by simp [he])
    by_cases hi : e.id % 65536 = r.id % 65536
    · exfalso
      cases hfrees : e.frees with
      | true =>
        obtain ⟨r', hcur', -, hobj⟩ := h.of_free hfrees
        rw [hi, hcur] at hcur'
        obtain rfl := Option.some.inj hcur'
        exact hkeeps e (by simp) hfrees hobj.symm
      | false =>
        cases e with
        | put r' =>
          have hidle := h.of_put.1
          rw [show r'.id % 65536 = r.id % 65536 from hi, hcur] at hidle
          cases hidle
        | destroyed id o => cases hfrees
        | consumed id o => cases hfrees
    · rw [current_cons_of_ne hi, hcur]

theorem current_mem {i : Nat} {log : List Ev} {r : Reg} (h : current i log = some r) :
    .put r ∈ log := by
  obtain ⟨-, newer, older, rfl, -⟩ := current_split h
  simp

theorem History.unique {log : List Ev} (h : History log) {r r' : Reg} (hr : .put r ∈ log)
    (hr' : .put r' ∈ log) (hobj : r.obj = r'.obj) : r = r' := by
  induction h with
  | nil => cases hr
  | put _ _ hnew _ ih =>
    rcases List.mem_cons.1 hr with heq | hold <;> rcases List.mem_cons.1 hr' with heq' | hold'
    · exact (Ev.put.inj heq).trans (Ev.put.inj heq').symm
    · obtain rfl := Ev.put.inj heq
      exact absurd hobj.symm (Nat.ne_of_lt (hnew _ hold'))
    · obtain rfl := Ev.put.inj heq'
      exact absurd hobj (Nat.ne_of_lt (hnew _ hold))
    · exact ih hold hold'
  | @free log e _ _ hfrees _ _ _ ih =>
    have hold : ∀ r : Reg, .put r ∈ e :: log → .put r ∈ log := by
      intro r hmem
      rcases List.mem_cons.1 hmem with rfl | hmem
      · cases hfrees
      · exact hmem
    exact ih (hold r hr) (hold r' hr')

theorem History.kept {log : List Ev} (h : History log) {i : Nat} {r : Reg}
    (hcur : current i log = some r) :
    ∃ newer older, log = newer ++ .put r :: older ∧ ∀ e ∈ newer, e.frees = true → e.obj ≠ r.obj := by
  obtain ⟨hid, newer, older, rfl, hnewer⟩ := current_split hcur
  refine ⟨newer, older, rfl, fun e he hfrees hobj => ?_⟩
  -- the event frees the index that holds the object, which is `i`
  obtain ⟨as, bs, rfl⟩ := List.append_of_mem he
  rw [List.append_assoc] at h
  have hsuffix := h.suffix
  have hkeep : ∀ e ∈ bs, e.id % 65536 ≠ i := fun e he => hnewer e (by simp [he])
  have hcur' : current i (bs ++ .put r :: older) = some r := by
    rw [current_append hkeep]
    exact if_pos hid
  obtain ⟨r', hcurE, hidE, hobjE⟩ := hsuffix.of_free hfrees
  obtain rfl : r' = r :=
    hsuffix.tail.unique (current_mem hcurE) (current_mem hcur') (hobjE.trans hobj)
  exact hnewer e (by simp) (hidE ▸ hid)

theorem History.frees_between {newer mid older : List Ev} {r : Reg} {e : Ev}
    (h : History (newer ++ .put r :: (mid ++ e :: older))) (hfrees : e.frees = true)
    (hid : e.id = r.id) : 65535 ≤ frees (r.id % 65536) (mid ++ [e]) := by
  have hput := h.suffix
  have hfree := hput.tail.suffix
  obtain ⟨r', hcur, hid', -⟩ := hfree.of_free hfrees
  -- both generations are the same, so the frees between are a multiple of 65535
  have hgen := hfree.tail.gen hcur
  have hgen' := hput.of_put.2.2
  rw [frees_append, frees_cons] at hgen'
  rw [frees_append]
  have hone : frees (r.id % 65536) [e] = 1 := by simp [frees, hfrees, hid]
  rw [hid', hid] at hgen
  simp only [hfrees, hid, beq_self_eq_true, Bool.and_self, if_true] at hgen'
  omega

end Hqq.Handles
