import AskFable.General.Distinct

/-!
# A bounded memo

A memo keeps the results of its last calls, one for each key, and forgets the key used longest
ago. Its function may return something else the next time. A call is then as good as a fresh one
when the key, if it is still remembered, stands for what it stood for at its last use.
-/
namespace AskFable.Lru

variable {κ α ε : Type*} [DecidableEq κ]

/-- A call of the memo: what it returns and what it keeps, the key used last first. `fresh` is
what the function would return now; a failure is not kept. -/
def call (size : ℕ) (key : κ) (fresh : Except ε α) (cache : List (κ × α)) :
    Except ε α × List (κ × α) :=
  match cache.lookup key with
  | some a => (.ok a, (key, a) :: cache.filter fun entry => entry.1 ≠ key)
  | none =>
    match fresh with
    | .error e => (.error e, cache)
    | .ok a => (.ok a, ((key, a) :: cache).take size)

/-- The calls of the function that did not fail, the last first. -/
def record (key : κ) (fresh : Except ε α) (history : List (κ × α)) : List (κ × α) :=
  match fresh with
  | .error _ => history
  | .ok a => (key, a) :: history

/-- What a memo that was never wrong holds. -/
def remembered (size : ℕ) (history : List (κ × α)) : List (κ × α) :=
  (Distinct.firsts Prod.fst [] history).take size

/-- If the key was used before, and fewer than `size` others since, it stands for the same. -/
def Steady (size : ℕ) (key : κ) (fresh : Except ε α) (history : List (κ × α)) : Prop :=
  ∀ newer a older, history = newer ++ (key, a) :: older → key ∉ newer.map Prod.fst →
    (Distinct.firsts Prod.fst [] newer).length < size → fresh = .ok a

theorem Steady.of_forall {size : ℕ} {key : κ} {fresh : Except ε α} {history : List (κ × α)}
    (h : ∀ entry ∈ history, entry.1 = key → fresh = .ok entry.2) :
    Steady size key fresh history := by
  rintro newer a older rfl - -
  exact h (key, a) (List.mem_append_right _ List.mem_cons_self) rfl

/-! ### The keys used last -/

theorem firsts_cons (k : κ) (seen : List κ) (l : List (κ × α)) :
    Distinct.firsts Prod.fst (k :: seen) l =
      (Distinct.firsts Prod.fst seen l).filter fun entry => entry.1 ≠ k := by
  induction l generalizing seen with
  | nil => rfl
  | cons p l ih =>
    rw [Distinct.firsts_cons, Distinct.firsts_cons]
    by_cases hk : p.1 = k
    · rw [if_pos (hk ▸ List.mem_cons_self), ih]
      split_ifs with hseen
      · rfl
      · rw [List.filter_cons_of_neg (by simp [hk]), hk, ih, List.filter_filter]
        simp
    · have hmem : p.1 ∈ k :: seen ↔ p.1 ∈ seen := by simp [hk]
      by_cases hseen : p.1 ∈ seen
      · rw [if_pos (hmem.mpr hseen), if_pos hseen, ih]
      · rw [if_neg (mt hmem.mp hseen), if_neg hseen, List.filter_cons_of_pos (by simp [hk]), ← ih]
        congr 1
        exact Distinct.firsts_congr fun x => by simp [or_left_comm]

/-- The last use of a key that was used, and what was used since. -/
theorem exists_of_mem_firsts {p : κ × α} {seen : List κ} {l : List (κ × α)} {n : ℕ}
    (h : p ∈ (Distinct.firsts Prod.fst seen l).take n) :
    ∃ newer older, l = newer ++ p :: older ∧ p.1 ∉ newer.map Prod.fst ∧
      (Distinct.firsts Prod.fst seen newer).length < n := by
  induction l generalizing seen n with
  | nil => simp [Distinct.firsts] at h
  | cons q l ih =>
    rw [Distinct.firsts_cons] at h
    by_cases hq : q.1 ∈ seen
    · rw [if_pos hq] at h
      obtain ⟨newer, older, rfl, hnew, hlen⟩ := ih h
      have hp : p.1 ∉ seen := Distinct.notMem_of_firsts (List.mem_of_mem_take h)
      refine ⟨q :: newer, older, rfl, ?_, by rwa [Distinct.firsts_cons, if_pos hq]⟩
      rw [List.map_cons, List.mem_cons, not_or]
      exact ⟨fun heq => hp (heq ▸ hq), hnew⟩
    · rw [if_neg hq] at h
      cases n with
      | zero => cases h
      | succ n =>
        rw [List.take_succ_cons, List.mem_cons] at h
        rcases h with rfl | h
        · exact ⟨[], l, rfl, by simp, Nat.succ_pos n⟩
        obtain ⟨newer, older, rfl, hnew, hlen⟩ := ih h
        have hp : p.1 ∉ q.1 :: seen := Distinct.notMem_of_firsts (List.mem_of_mem_take h)
        refine ⟨q :: newer, older, rfl, ?_, ?_⟩
        · rw [List.map_cons, List.mem_cons, not_or]
          exact ⟨fun heq => hp (heq ▸ List.mem_cons_self), hnew⟩
        · rw [Distinct.firsts_cons, if_neg hq, List.length_cons]
          exact Nat.succ_lt_succ hlen

/-! ### Calls -/

theorem take_filter {β : Type*} {p : β → Bool} {l : List β} {n : ℕ}
    (h : ∀ b ∈ l.take n, p b = true) : (l.filter p).take n = l.take n := by
  induction l generalizing n with
  | nil => rfl
  | cons b l ih =>
    cases n with
    | zero => rfl
    | succ n =>
      rw [List.take_succ_cons, List.forall_mem_cons] at h
      rw [List.filter_cons_of_pos h.1, List.take_succ_cons, List.take_succ_cons, ih h.2]

/-- Taking a key out of the list leaves room for one more at its end. -/
theorem filter_take {key : κ} {l : List (κ × α)} {n : ℕ} (hnodup : (l.map Prod.fst).Nodup)
    (h : key ∈ (l.take n).map Prod.fst) :
    (l.take n).filter (fun entry => entry.1 ≠ key) =
      (l.filter fun entry => entry.1 ≠ key).take (n - 1) := by
  induction l generalizing n with
  | nil => simp at h
  | cons q l ih =>
    rw [List.map_cons, List.nodup_cons] at hnodup
    cases n with
    | zero => cases h
    | succ n =>
      rw [List.take_succ_cons, Nat.add_sub_cancel]
      by_cases hq : q.1 = key
      · have hout : ∀ entry ∈ l, decide (entry.1 ≠ key) = true := by
          intro entry hentry
          rw [decide_eq_true_eq, ← hq]
          exact fun heq => hnodup.1 (heq ▸ List.mem_map_of_mem hentry)
        rw [List.filter_cons_of_neg (by simp [hq]), List.filter_cons_of_neg (by simp [hq]),
          List.filter_eq_self.mpr hout,
          List.filter_eq_self.mpr fun entry hentry => hout entry (List.mem_of_mem_take hentry)]
      · rw [List.take_succ_cons, List.map_cons, List.mem_cons] at h
        have hmem := h.resolve_left (Ne.symm hq)
        obtain ⟨m, rfl⟩ : ∃ m, n = m + 1 := by
          cases n with
          | zero => simp at hmem
          | succ m => exact ⟨m, rfl⟩
        rw [List.filter_cons_of_pos (by simp [hq]), List.filter_cons_of_pos (by simp [hq]),
          ih hnodup.2 hmem, List.take_succ_cons, Nat.add_sub_cancel]

/-- A call returns what its function would, and the memo stays one that was never wrong. -/
theorem call_of_steady {size : ℕ} {key : κ} {fresh : Except ε α} {history : List (κ × α)}
    (h : Steady size key fresh history) :
    call size key fresh (remembered size history) =
      (fresh, remembered size (record key fresh history)) := by
  have hrecord (a : α) : Distinct.firsts Prod.fst [] ((key, a) :: history) =
      (key, a) :: (Distinct.firsts Prod.fst [] history).filter fun entry => entry.1 ≠ key := by
    rw [Distinct.firsts_cons, if_neg List.not_mem_nil, firsts_cons]
  unfold call
  cases hlookup : (remembered size history).lookup key with
  | some a =>
    have hmem : (key, a) ∈ remembered size history := by
      obtain ⟨x, y, hxy, -⟩ := List.lookup_eq_some_iff.mp hlookup
      exact hxy ▸ List.mem_append_right x List.mem_cons_self
    obtain ⟨newer, older, hsplit, hnew, hlen⟩ := exists_of_mem_firsts hmem
    obtain rfl : fresh = .ok a := h newer a older hsplit hnew hlen
    have hpos : 0 < size := Nat.lt_of_le_of_lt (Nat.zero_le _) hlen
    have hfilter := filter_take (Distinct.nodup_firsts Prod.fst [] history)
      (List.mem_map_of_mem (f := Prod.fst) hmem)
    simp only [record, remembered, hrecord]
    rw [hfilter, List.take_cons hpos]
  | none =>
    rw [List.lookup_eq_none_iff] at hlookup
    cases fresh with
    | error e => rfl
    | ok a =>
      simp only [record, remembered, hrecord]
      cases size with
      | zero => rfl
      | succ n =>
        have hkeep : ∀ entry ∈ (Distinct.firsts Prod.fst [] history).take n,
            decide (entry.1 ≠ key) = true := by
          intro entry hentry
          have hne := hlookup entry
            (List.take_subset_take_left _ (Nat.le_succ n) hentry)
          rw [bne_iff_ne] at hne
          exact decide_eq_true (Ne.symm hne)
        rw [List.take_succ_cons, List.take_succ_cons, take_filter hkeep, List.take_take,
          Nat.min_eq_left (Nat.le_succ n)]

end AskFable.Lru
