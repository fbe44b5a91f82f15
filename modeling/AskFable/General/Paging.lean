import Mathlib.Data.List.Basic
import Mathlib.Order.Lattice
import Mathlib.Order.Basic

/-!
# Pages by a strict cursor

A list in descending order of a key is handed out in pages of one size. The cursor of a page
is the key of its last element, and the next page starts strictly below it. So what ties
with the last element of a page and is not on it is never handed out.
-/
namespace AskFable.Paging

variable {α κ : Type*} [LinearOrder κ] (key : α → κ) (size : ℕ)

/-- What is strictly below the cursor. -/
def below (l : List α) : Option κ → List α
  | none => l
  | some s => l.filter fun a => key a < s

/-- A page, and the next cursor if something is left. -/
def page (l : List α) (before : Option κ) : List α × Option κ :=
  ((below key l before).take size,
    if size < (below key l before).length then (below key l before)[size - 1]?.map key else none)

/-- All pages from a cursor on, none when the fuel does not last. -/
def walk (l : List α) : (fuel : ℕ) → Option κ → Option (List α)
  | 0, _ => none
  | fuel + 1, before =>
    match page key size l before with
    | (as, none) => some as
    | (as, some s) => (walk l fuel (some s)).map (as ++ ·)

/-- No page ends between two elements of one key. -/
def Untied (l : List α) : Prop :=
  ∀ p, 0 < p → size ∣ p → ∀ h : p < l.length, key l[p - 1] ≠ key l[p]

/-- No multiple of the page size falls inside the elements of one key: strictly between the
number of elements above a key and the number of those at or above it. -/
def Separated (l : List α) : Prop :=
  ∀ s p, size ∣ p → l.countP (fun a => s < key a) < p → l.countP (fun a => s ≤ key a) ≤ p

variable {key size} {l : List α}

theorem mem_of_mem_below {before : Option κ} {a : α} (h : a ∈ below key l before) : a ∈ l := by
  cases before with
  | none => exact h
  | some s => exact List.mem_of_mem_filter h

/-- A cursor is the key of an element. -/
theorem exists_of_cursor {before : Option κ} {s : κ} (h : (page key size l before).2 = some s) :
    ∃ a ∈ l, key a = s := by
  simp only [page, Option.ite_none_right_eq_some, Option.map_eq_some_iff] at h
  obtain ⟨-, a, ha, rfl⟩ := h
  exact ⟨a, mem_of_mem_below (List.mem_of_getElem? ha), rfl⟩

theorem walk_succ {fuel : ℕ} {before : Option κ} {result : List α}
    (h : walk key size l fuel before = some result) :
    walk key size l (fuel + 1) before = some result := by
  induction fuel generalizing before result with
  | zero => simp [walk] at h
  | succ fuel ih =>
    rw [walk] at h ⊢
    rcases hpage : page key size l before with ⟨as, _ | s⟩
    · simpa [hpage] using h
    · simp only [hpage, Option.map_eq_some_iff] at h ⊢
      obtain ⟨rest, hrest, rfl⟩ := h
      exact ⟨rest, ih hrest, rfl⟩

theorem walk_unique {fuel fuel' : ℕ} {before : Option κ} {r r' : List α}
    (h : walk key size l fuel before = some r) (h' : walk key size l fuel' before = some r') :
    r = r' := by
  have hmono {f : ℕ} {x : List α} (hx : walk key size l f before = some x) (k : ℕ) :
      walk key size l (f + k) before = some x := by
    induction k with
    | zero => exact hx
    | succ k ih => exact walk_succ ih
  have hr := hmono h fuel'
  have hr' := hmono h' fuel
  rw [Nat.add_comm, hr'] at hr
  exact (Option.some.inj hr).symm

/-- In descending order a lower set of positions has a property that lower keys lose. -/
theorem lt_countP_iff {q : α → Bool} (hq : ∀ a b, key b ≤ key a → q b = true → q a = true)
    (hsorted : l.Pairwise fun a b => key b ≤ key a) {i : ℕ} (hi : i < l.length) :
    q l[i] = true ↔ i < l.countP q := by
  induction l generalizing i with
  | nil => simp at hi
  | cons a l ih =>
    rw [List.pairwise_cons] at hsorted
    by_cases ha : q a = true
    · rw [List.countP_cons_of_pos ha]
      cases i with
      | zero => simp [ha]
      | succ i => simpa using ih hsorted.2 (by simpa using hi)
    · have hnone : l.countP q = 0 :=
        List.countP_eq_zero.mpr fun b hb hqb => ha (hq a b (hsorted.1 b hb) hqb)
      rw [List.countP_cons_of_neg ha, hnone]
      cases i with
      | zero => simp [ha]
      | succ i =>
        have hmem := List.getElem_mem (by simpa using hi : i < l.length)
        simpa using fun hqb => ha (hq a _ (hsorted.1 _ hmem) hqb)

theorem untied_iff_separated (hsorted : l.Pairwise fun a b => key b ≤ key a) :
    Untied key size l ↔ Separated key size l := by
  have habove (s : κ) {i : ℕ} (hi : i < l.length) :
      s < key l[i] ↔ i < l.countP fun a => s < key a := by
    have h := lt_countP_iff (q := fun a => s < key a)
      (fun a b hba hb => by simpa using lt_of_lt_of_le (by simpa using hb) hba) hsorted hi
    simpa using h
  have hfrom (s : κ) {i : ℕ} (hi : i < l.length) :
      s ≤ key l[i] ↔ i < l.countP fun a => s ≤ key a := by
    have h := lt_countP_iff (q := fun a => s ≤ key a)
      (fun a b hba hb => by simpa using le_trans (by simpa using hb) hba) hsorted hi
    simpa using h
  refine ⟨fun h s p hp hlow => ?_, fun h p hpos hp hlt htie => ?_⟩
  · by_contra hle
    have hhigh := Nat.lt_of_not_le hle
    have hlen : p < l.length := Nat.lt_of_lt_of_le hhigh List.countP_le_length
    have hlast : p - 1 < l.length := by omega
    have hdesc : key l[p] ≤ key l[p - 1] :=
      List.pairwise_iff_getElem.mp hsorted (p - 1) p hlast hlen (by omega)
    have hnot : key l[p - 1] ≤ s := not_lt.mp fun hs => absurd ((habove s hlast).mp hs) (by omega)
    have hself : s ≤ key l[p] := (hfrom s hlen).mpr hhigh
    exact h p (by omega) hp hlen (le_antisymm (hnot.trans hself) hdesc)
  · have hlast : p - 1 < l.length := by omega
    have hlow : l.countP (fun a => key l[p] < key a) < p := by
      have hnot := (not_congr (habove (key l[p]) hlast)).mp (by rw [htie]; exact lt_irrefl _)
      omega
    have hhigh := (hfrom (key l[p]) hlt).mp le_rfl
    exact absurd (h (key l[p]) p hp hlow) (by omega)

theorem separated_perm {l' : List α} (h : l.Perm l') :
    Separated key size l ↔ Separated key size l' := by
  unfold Separated
  simp only [h.countP_eq]

/-! ### What the pages hold together -/

theorem below_below {l : List α} {before : Option κ} {a : α} (ha : a ∈ below key l before) :
    below key l (some (key a)) = (below key l before).filter fun b => key b < key a := by
  cases before with
  | none => rfl
  | some s =>
    have hs : key a < s := by simpa using (List.mem_filter.mp ha).2
    rw [below, below, List.filter_filter]
    refine List.filter_congr fun b _ => ?_
    by_cases hb : key b < key a
    · simp [hb, hb.trans hs]
    · simp [hb]

theorem below_sorted (hsorted : l.Pairwise fun a b => key b ≤ key a) (before : Option κ) :
    (below key l before).Pairwise fun a b => key b ≤ key a := by
  cases before with
  | none => exact hsorted
  | some s => exact hsorted.filter _

/-- Strictly below what a page is not below stands only what is behind the page. -/
theorem filter_below {r : List α} {s : κ} (h : ∀ b ∈ r.take size, s ≤ key b) :
    (r.filter fun b => key b < s) = (r.drop size).filter fun b => key b < s := by
  have hnone : ((r.take size).filter fun b => key b < s) = [] :=
    List.filter_eq_nil_iff.mpr fun b hb => by simpa using h b hb
  calc (r.filter fun b => key b < s)
      = (r.take size ++ r.drop size).filter fun b => key b < s := by rw [List.take_append_drop]
    _ = (r.drop size).filter fun b => key b < s := by
        rw [List.filter_append, hnone, List.nil_append]

theorem last_le {r : List α} (hsorted : r.Pairwise fun a b => key b ≤ key a)
    (h : size - 1 < r.length) : ∀ b ∈ r.take size, key r[size - 1] ≤ key b := by
  intro b hb
  obtain ⟨i, hi, rfl⟩ := List.mem_iff_getElem.mp hb
  rw [List.length_take] at hi
  rw [List.getElem_take]
  by_cases heq : i = size - 1
  · simp only [heq, le_refl]
  · exact List.pairwise_iff_getElem.mp hsorted i (size - 1) _ _ (by omega)

/-- What is behind the page is below its last element exactly when the first of it is. -/
theorem filter_drop_eq_iff {r : List α} (hsorted : r.Pairwise fun a b => key b ≤ key a) {s : κ}
    (h : size < r.length) :
    (r.drop size).filter (fun b => key b < s) = r.drop size ↔ key r[size] < s := by
  rw [List.filter_eq_self]
  refine ⟨fun hall => ?_, fun hfirst b hb => ?_⟩
  · have hmem : r[size] ∈ r.drop size := List.mem_drop_iff_getElem.mpr ⟨0, by omega, by simp⟩
    simpa using hall _ hmem
  · obtain ⟨i, hi, rfl⟩ := List.mem_drop_iff_getElem.mp hb
    have hle : key r[size + i] ≤ key r[size] := by
      by_cases hzero : i = 0
      · simp only [hzero, Nat.add_zero, le_refl]
      · exact List.pairwise_iff_getElem.mp hsorted size (size + i) _ _ (by omega)
    simpa [Nat.add_comm] using lt_of_le_of_lt hle hfirst

omit [LinearOrder κ] in
theorem untied_step {r : List α} (hsize : 0 < size) (h : size < r.length) :
    Untied key size r ↔ key r[size - 1] ≠ key r[size] ∧ Untied key size (r.drop size) := by
  refine ⟨fun hr => ⟨hr size hsize (Nat.dvd_refl _) h, fun p hpos hp hlt => ?_⟩,
    fun ⟨hfirst, hrest⟩ p hpos hp hlt => ?_⟩
  · rw [List.length_drop] at hlt
    have hstep := hr (size + p) (by omega) ((Nat.dvd_add_right (Nat.dvd_refl _)).mpr hp) (by omega)
    have hprev : size + p - 1 = size + (p - 1) := by omega
    simpa [List.getElem_drop, hprev] using hstep
  · by_cases heq : p = size
    · subst heq
      exact hfirst
    · obtain ⟨q, rfl⟩ := Nat.exists_eq_add_of_le (Nat.le_of_dvd hpos hp)
      have hq : size ∣ q := (Nat.dvd_add_right (Nat.dvd_refl _)).mp hp
      have hprev : size + q - 1 = size + (q - 1) := by omega
      have hstep := hrest q (by omega) hq (by rw [List.length_drop]; omega)
      simpa [List.getElem_drop, hprev] using hstep

/-- The pages end, hand out a part of the list in its order, and all of it exactly when no
page ends within a tie. -/
theorem walk_spec (hsorted : l.Pairwise fun a b => key b ≤ key a) (hsize : 0 < size) {fuel : ℕ}
    (before : Option κ) (hfuel : (below key l before).length < fuel) :
    ∃ result, walk key size l fuel before = some result ∧ result.Sublist (below key l before) ∧
      (result = below key l before ↔ Untied key size (below key l before)) := by
  induction fuel generalizing before with
  | zero => omega
  | succ fuel ih =>
    have hr := below_sorted hsorted before
    by_cases hmore : size < (below key l before).length
    · have hlast : size - 1 < (below key l before).length := by omega
      have hnext := below_below (List.getElem_mem hlast)
      rw [filter_below (last_le hr hlast)] at hnext
      have hbehind := filter_drop_eq_iff hr (s := key (below key l before)[size - 1]) hmore
      rw [← hnext] at hbehind
      have hrest : (below key l (some (key (below key l before)[size - 1]))).Sublist
          ((below key l before).drop size) := hnext ▸ List.filter_sublist
      have hshort := hrest.length_le
      rw [List.length_drop] at hshort
      obtain ⟨result, hwalk, hsub, hall⟩ :=
        ih (some (key (below key l before)[size - 1])) (by omega)
      have hjoin := List.take_append_drop size (below key l before)
      refine ⟨(below key l before).take size ++ result, ?_, ?_, ?_⟩
      · simp only [walk, page, if_pos hmore, List.getElem?_eq_getElem hlast, Option.map_some, hwalk]
      · have hwhole := (hsub.trans hrest).append_left ((below key l before).take size)
        rwa [hjoin] at hwhole
      · have hcut : (below key l before).take size ++ result = below key l before ↔
            result = (below key l before).drop size := by
          refine ⟨fun h => List.append_cancel_left (h.trans hjoin.symm), fun h => by rw [h, hjoin]⟩
        have hle : key (below key l before)[size] ≤ key (below key l before)[size - 1] :=
          List.pairwise_iff_getElem.mp hr (size - 1) size hlast hmore (by omega)
        rw [hcut, untied_step hsize hmore]
        refine ⟨fun h => ?_, fun ⟨hne, huntied⟩ => ?_⟩
        · -- the rest is a part of the next list, which is a part of what is behind the page
          have hsame := hrest.antisymm (h ▸ hsub)
          refine ⟨(ne_of_lt (hbehind.mp hsame)).symm, ?_⟩
          rw [← hsame]
          exact hall.mp (h.trans hsame.symm)
        · have hsame := hbehind.mpr (lt_of_le_of_ne hle hne.symm)
          rw [← hsame] at huntied
          exact (hall.mpr huntied).trans hsame
    · refine ⟨(below key l before).take size, ?_, List.take_sublist _ _, ?_⟩
      · simp [walk, page, hmore]
      · rw [List.take_of_length_le (Nat.le_of_not_lt hmore)]
        refine iff_of_true rfl fun p hpos hp hlt => ?_
        have := Nat.le_of_dvd hpos hp
        omega

/-- All pages from the start hold the whole list only in its order, and do exactly when no
page ends within a tie. -/
theorem walk_whole_iff (hsorted : l.Pairwise fun a b => key b ≤ key a) (hsize : 0 < size)
    (result : List α) : (∃ fuel, walk key size l fuel none = some result ∧ result.Perm l) ↔
      result = l ∧ Separated key size l := by
  obtain ⟨all, hwalk, hsub, hall⟩ := walk_spec hsorted hsize none (Nat.lt_succ_self _)
  simp only [below] at hwalk hsub hall
  rw [untied_iff_separated hsorted] at hall
  refine ⟨fun ⟨fuel, h, hperm⟩ => ?_, fun ⟨h, hsep⟩ => ⟨l.length + 1, ?_, h ▸ .refl _⟩⟩
  · have hsame := walk_unique h hwalk
    subst hsame
    have hwhole := hsub.eq_of_length hperm.length_eq
    exact ⟨hwhole, hall.mp hwhole⟩
  · rw [h, ← hall.mpr hsep, ← hwalk, hall.mpr hsep]

end AskFable.Paging
