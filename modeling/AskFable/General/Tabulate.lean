import Mathlib.Algebra.BigOperators.Group.List.Basic
import Mathlib.Data.List.AList
import Mathlib.Data.List.Induction

/-!
# A stream tallied into accounts and a total

Each item of a stream goes into the account of its key, if it has one, and into the total. What
an item adds is measured in a commutative monoid; it may also fail to be read, and then there is
no result at all. The total is worth what the accounts are worth and the items without a key,
and the order of the stream does not show.
-/
namespace AskFable.Tabulate

structure Books (κ σ : Type*) where
  accounts : AList fun _ : κ => σ
  total : σ

/-- Add an item to its account, which is opened at need, and to the total. -/
def post {α σ κ : Type*} [DecidableEq κ] (fresh : σ) (add : σ → α → Option σ) (b : Books κ σ)
    (e : Option κ × α) : Option (Books κ σ) :=
  match e.1 with
  | none => (add b.total e.2).map fun total => ⟨b.accounts, total⟩
  | some k =>
    (add ((b.accounts.lookup k).getD fresh) e.2).bind fun s =>
      (add b.total e.2).map fun total => ⟨b.accounts.insert k s, total⟩

def run {α σ κ : Type*} [DecidableEq κ] (fresh : σ) (add : σ → α → Option σ)
    (es : List (Option κ × α)) : Option (Books κ σ) := es.foldlM (post fresh add) ⟨∅, fresh⟩

/-- How an item is added to an account, and what the account is worth before and after. -/
structure Meter (α σ M : Type*) [AddCommMonoid M] where
  fresh : σ
  add : σ → α → Option σ
  value : σ → M
  gain : α → Option M
  value_fresh : value fresh = 0
  value_add : ∀ s a, (add s a).map value = (gain a).map (value s + ·)

variable {α σ M κ : Type*} [AddCommMonoid M] [DecidableEq κ] {m : Meter α σ M}

/-- What the readable items add. -/
def Meter.sum (m : Meter α σ M) (es : List (Option κ × α)) : M :=
  (es.filterMap fun e => m.gain e.2).sum

/-- The items of a key. -/
def under (k : Option κ) (es : List (Option κ × α)) : List (Option κ × α) :=
  es.filter fun e => e.1 = k

omit [DecidableEq κ] in
theorem sum_concat (es : List (Option κ × α)) {e : Option κ × α} {g : M} (hg : m.gain e.2 = some g) :
    m.sum (es ++ [e]) = m.sum es + g := by
  simp [Meter.sum, List.filterMap_append, hg]

theorem under_concat (k : Option κ) (es : List (Option κ × α)) (e : Option κ × α) :
    under k (es ++ [e]) = if e.1 = k then under k es ++ [e] else under k es := by
  by_cases hk : e.1 = k <;> simp [under, hk]

theorem run_concat (es : List (Option κ × α)) (e : Option κ × α) :
    run m.fresh m.add (es ++ [e]) = (run m.fresh m.add es).bind (post m.fresh m.add · e) := by
  simp [run, List.foldlM_append]

/-- An addition by what it does to the worth. -/
theorem add_eq_some {s s' : σ} {a : α} (h : m.add s a = some s') :
    ∃ g, m.gain a = some g ∧ m.value s' = m.value s + g := by
  have hvalue := m.value_add s a
  rw [h, Option.map_some] at hvalue
  obtain ⟨g, hg, hs'⟩ := Option.map_eq_some_iff.mp hvalue.symm
  exact ⟨g, hg, hs'.symm⟩

theorem add_isSome (s : σ) (a : α) : (m.add s a).isSome = (m.gain a).isSome := by
  rw [← Option.isSome_map, m.value_add, Option.isSome_map]

/-! ### The worth of the accounts -/

/-- What a set of accounts is worth. -/
def worth (f : σ → M) (l : AList fun _ : κ => σ) : M := (l.entries.map fun p => f p.2).sum

theorem sum_kerase (f : σ → M) (k : κ) (l : List (Sigma fun _ : κ => σ)) :
    (l.map fun p => f p.2).sum =
      ((l.dlookup k).map f).getD 0 + ((l.kerase k).map fun p => f p.2).sum := by
  induction l with
  | nil => simp
  | cons p l ih =>
    obtain ⟨j, s⟩ := p
    by_cases hk : k = j
    · subst hk
      have hkept : List.kerase k (⟨k, s⟩ :: l) = l := List.kerase_cons_eq rfl
      rw [List.dlookup_cons_eq, hkept]
      rfl
    · rw [List.dlookup_cons_ne _ _ hk, List.kerase_cons_ne hk, List.map_cons, List.sum_cons, ih,
        List.map_cons, List.sum_cons, add_left_comm]

theorem worth_insert (f : σ → M) (l : AList fun _ : κ => σ) (k : κ) {s : σ} {g : M}
    (hs : f s = ((l.lookup k).map f).getD 0 + g) : worth f (l.insert k s) = worth f l + g := by
  have hold : worth f l = ((l.lookup k).map f).getD 0 +
      ((l.entries.kerase k).map fun p => f p.2).sum := sum_kerase f k l.entries
  have hnew : worth f (l.insert k s) = f s + ((l.entries.kerase k).map fun p => f p.2).sum := rfl
  rw [hold, hnew, hs, add_right_comm]

/-! ### Balanced books -/

/-- The books hold what the items add. -/
structure Balanced (m : Meter α σ M) (es : List (Option κ × α)) (b : Books κ σ) : Prop where
  total : m.value b.total = m.sum es
  account : ∀ k, (b.accounts.lookup k).map m.value =
    if under (some k) es = [] then none else some (m.sum (under (some k) es))
  split : m.value b.total = worth m.value b.accounts + m.sum (under none es)

theorem balanced_nil : Balanced m ([] : List (Option κ × α)) ⟨∅, m.fresh⟩ :=
  ⟨m.value_fresh, fun _ => rfl, by simp [m.value_fresh, worth, Meter.sum, under]⟩

/-- The worth of an account that may not be there yet. -/
theorem Balanced.value_getD {es : List (Option κ × α)} {b : Books κ σ} (h : Balanced m es b)
    (k : κ) : m.value ((b.accounts.lookup k).getD m.fresh) = m.sum (under (some k) es) := by
  have haccount := h.account k
  cases hlook : b.accounts.lookup k with
  | none =>
    rw [hlook] at haccount
    by_cases hnil : under (some k) es = []
    · rw [hnil, Option.getD_none, m.value_fresh]
      rfl
    · simp [hnil] at haccount
  | some s =>
    rw [hlook] at haccount
    by_cases hnil : under (some k) es = []
    · simp [hnil] at haccount
    · rw [if_neg hnil] at haccount
      exact Option.some.inj haccount

theorem balanced_post {es : List (Option κ × α)} {b b' : Books κ σ} {e : Option κ × α}
    (h : Balanced m es b) (hpost : post m.fresh m.add b e = some b') : Balanced m (es ++ [e]) b' := by
  obtain ⟨k?, a⟩ := e
  cases k? with
  | none =>
    obtain ⟨total, htotal, rfl⟩ := Option.map_eq_some_iff.mp hpost
    obtain ⟨g, hg, hvalue⟩ := add_eq_some htotal
    refine ⟨?_, fun k => ?_, ?_⟩
    · rw [hvalue, h.total, sum_concat es hg]
    · have hother : under (some k) (es ++ [(none, a)]) = under (some k) es :=
        (under_concat _ es _).trans (if_neg (by simp))
      rw [hother]
      exact h.account k
    · rw [under_concat, if_pos rfl, hvalue, h.split, sum_concat _ hg, add_assoc]
  | some k =>
    obtain ⟨s, hs, hrest⟩ := Option.bind_eq_some_iff.mp hpost
    obtain ⟨total, htotal, rfl⟩ := Option.map_eq_some_iff.mp hrest
    obtain ⟨g, hg, hvalue⟩ := add_eq_some htotal
    have hworth : m.value s = m.sum (under (some k) es) + g := by
      obtain ⟨g', hg', hvalue'⟩ := add_eq_some hs
      rw [hvalue', h.value_getD k, Option.some.inj (hg'.symm.trans hg)]
    refine ⟨?_, fun j => ?_, ?_⟩
    · rw [hvalue, h.total, sum_concat es hg]
    · by_cases hj : j = k
      · subst hj
        have hmore : under (some j) (es ++ [(some j, a)]) = under (some j) es ++ [(some j, a)] :=
          (under_concat _ es _).trans (if_pos rfl)
        rw [hmore, AList.lookup_insert, if_neg (by simp), sum_concat _ hg]
        exact congrArg some hworth
      · have hother : under (some j) (es ++ [(some k, a)]) = under (some j) es :=
          (under_concat _ es _).trans (if_neg (by simpa using Ne.symm hj))
        rw [hother, AList.lookup_insert_ne hj]
        exact h.account j
    · have hold : ((b.accounts.lookup k).map m.value).getD 0 = m.sum (under (some k) es) := by
        rw [h.account k]
        split_ifs with hnil
        · rw [hnil]
          rfl
        · rfl
      rw [under_concat, if_neg (by simp), worth_insert m.value b.accounts k (hold ▸ hworth), hvalue,
        h.split, add_right_comm]

/-- Whatever comes out of a run is balanced. -/
theorem balanced_run {es : List (Option κ × α)} {b : Books κ σ} (h : run m.fresh m.add es = some b) :
    Balanced m es b := by
  induction es using List.reverseRecOn generalizing b with
  | nil =>
    obtain rfl := Option.some.inj h
    exact balanced_nil
  | append_singleton es e ih =>
    rw [run_concat] at h
    obtain ⟨b₀, hb₀, hpost⟩ := Option.bind_eq_some_iff.mp h
    exact balanced_post (ih hb₀) hpost

theorem post_isSome (b : Books κ σ) (e : Option κ × α) :
    (post m.fresh m.add b e).isSome = (m.gain e.2).isSome := by
  obtain ⟨k?, a⟩ := e
  cases k? with
  | none => rw [post, Option.isSome_map, add_isSome]
  | some k =>
    have htotal := add_isSome (m := m) b.total a
    cases hs : m.add ((b.accounts.lookup k).getD m.fresh) a with
    | none =>
      have hnone := add_isSome (m := m) ((b.accounts.lookup k).getD m.fresh) a
      rw [hs] at hnone
      simp [post, hs, ← hnone]
    | some s => simp [post, hs, htotal]

/-- A run fails exactly when an item cannot be read. -/
theorem run_isSome (es : List (Option κ × α)) :
    (run m.fresh m.add es).isSome = true ↔ ∀ e ∈ es, (m.gain e.2).isSome = true := by
  induction es using List.reverseRecOn with
  | nil => simp [run]
  | append_singleton es e ih =>
    rw [run_concat, List.forall_mem_append, ← ih]
    cases run m.fresh m.add es with
    | none => simp
    | some b => simp [post_isSome]

/-! ### The order of the stream -/

omit [DecidableEq κ] in
theorem sum_perm {es es' : List (Option κ × α)} (h : es.Perm es') : m.sum es = m.sum es' :=
  (h.filterMap _).sum_eq

/-- What the accounts are worth, one line for each. -/
def readings (m : Meter α σ M) (b : Books κ σ) : List (κ × M) :=
  b.accounts.entries.map fun p => (p.1, m.value p.2)

theorem mem_readings {b : Books κ σ} {k : κ} {v : M} :
    (k, v) ∈ readings m b ↔ (b.accounts.lookup k).map m.value = some v := by
  unfold readings
  rw [List.mem_map, Option.map_eq_some_iff]
  constructor
  · rintro ⟨⟨j, s⟩, hp, hjv⟩
    obtain ⟨rfl, rfl⟩ := Prod.mk.inj hjv
    exact ⟨s, AList.mem_lookup_iff.mpr hp, rfl⟩
  · rintro ⟨s, hs, rfl⟩
    exact ⟨⟨k, s⟩, AList.mem_lookup_iff.mp hs, rfl⟩

omit [DecidableEq κ] in
theorem nodup_readings (b : Books κ σ) : ((readings m b).map Prod.fst).Nodup := by
  unfold readings
  rw [List.map_map]
  exact b.accounts.nodupKeys

/-- The books of a stream in another order say the same. -/
theorem readings_perm {es es' : List (Option κ × α)} (h : es.Perm es') {b b' : Books κ σ}
    (hb : Balanced m es b) (hb' : Balanced m es' b') :
    (readings m b).Perm (readings m b') ∧ m.value b.total = m.value b'.total := by
  refine ⟨?_, by rw [hb.total, hb'.total, sum_perm h]⟩
  rw [List.perm_ext_iff_of_nodup (nodup_readings b).of_map (nodup_readings b').of_map]
  rintro ⟨k, v⟩
  have hunder : (under (some k) es).Perm (under (some k) es') := h.filter _
  have hnil : under (some k) es = [] ↔ under (some k) es' = [] := by
    rw [← List.length_eq_zero_iff, ← List.length_eq_zero_iff, hunder.length_eq]
  rw [mem_readings, mem_readings, hb.account, hb'.account, sum_perm hunder]
  simp only [hnil]

end AskFable.Tabulate
