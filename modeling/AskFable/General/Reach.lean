import Mathlib.Logic.Relation
import Mathlib.Data.List.Basic
import Mathlib.Tactic.Common

/-!
# Reachability in a finite graph

A graph is a list of edges. The search below keeps a stack and marks a node when it takes
it off, so a node may stand on the stack several times and is still left only once: an edge
is walked once at most, and the search ends after as many rounds as there are edges and
nodes to start from. One more edge closes a cycle in a graph without one exactly when its
source can be reached from its target.
-/
namespace AskFable.Reach
open Relation

variable {V : Type*}

/-! ### Cycles -/

/-- No node can be reached from itself. -/
def Acyclic (r : V → V → Prop) : Prop := ∀ v, ¬TransGen r v v

/-- A relation with one more pair. -/
def extend (r : V → V → Prop) (s d : V) (v w : V) : Prop := r v w ∨ v = s ∧ w = d

theorem Acyclic.mono {r q : V → V → Prop} (h : Acyclic r) (hle : ∀ v w, q v w → r v w) :
    Acyclic q := fun v hv => h v (TransGen.mono hle v v hv)

theorem acyclic_empty {r : V → V → Prop} (h : ∀ v w, ¬r v w) : Acyclic r := by
  intro v hv
  obtain ⟨w, hw, -⟩ := TransGen.head'_iff.mp hv
  exact h v w hw

/-- A path that uses the new edge gets to its source and goes on from its target. -/
theorem transGen_extend {r : V → V → Prop} {s d v w : V} (h : TransGen (extend r s d) v w) :
    TransGen r v w ∨ ReflTransGen r v s ∧ ReflTransGen r d w := by
  induction h with
  | single h =>
    rcases h with h | ⟨rfl, rfl⟩
    · exact .inl (.single h)
    · exact .inr ⟨.refl, .refl⟩
  | tail _ h ih =>
    rcases h with h | ⟨rfl, rfl⟩
    · rcases ih with ih | ⟨hv, hd⟩
      · exact .inl (ih.tail h)
      · exact .inr ⟨hv, hd.tail h⟩
    · rcases ih with ih | ⟨hv, -⟩
      · exact .inr ⟨ih.to_reflTransGen, .refl⟩
      · exact .inr ⟨hv, .refl⟩

/-- The new edge adds no way to its own source. -/
theorem reflTransGen_extend_source {r : V → V → Prop} {s d v : V} :
    ReflTransGen (extend r s d) v s ↔ ReflTransGen r v s := by
  refine ⟨fun h => ?_, fun h => ReflTransGen.mono (fun _ _ => .inl) v s h⟩
  induction h using ReflTransGen.head_induction_on with
  | refl => exact .refl
  | head h _ ih =>
    rcases h with h | ⟨rfl, rfl⟩
    · exact .head h ih
    · exact .refl

theorem Acyclic.extend_iff {r : V → V → Prop} (h : Acyclic r) (s d : V) :
    Acyclic (extend r s d) ↔ ¬ReflTransGen r d s := by
  refine ⟨fun hext hds => ?_, fun hds v hv => ?_⟩
  · have hback : ReflTransGen (extend r s d) d s :=
      ReflTransGen.mono (fun _ _ => .inl) d s hds
    exact hext s (TransGen.head' (.inr ⟨rfl, rfl⟩) hback)
  · rcases transGen_extend hv with hv | ⟨hs, hd⟩
    · exact h v hv
    · exact hds (hd.trans hs)

/-! ### The search -/

/-- An edge of the list. -/
def Joins (es : List (V × V)) (v w : V) : Prop := (v, w) ∈ es

section
variable [DecidableEq V] (es : List (V × V)) (goal : V)

/-- Where the edges of a node lead, in their order. -/
def targets (v : V) : List V := (es.filter fun e => e.1 = v).map Prod.snd

/-- Search for `goal` from the nodes of a stack, `none` when it has not ended after so many
rounds. -/
def search : ℕ → List V → List V → Option Bool
  | 0, _, _ => none
  | _ + 1, _, [] => some false
  | n + 1, seen, v :: stack =>
    if v = goal then some true
    else if v ∈ seen then search n seen stack
    else search n (v :: seen) ((targets es v).reverse ++ stack)

variable {es goal}

theorem mem_targets {v w : V} : w ∈ targets es v ↔ Joins es v w := by
  simp [targets, Joins]

theorem exists_reaching {n : ℕ} {seen stack : List V} (h : search es goal n seen stack = some true) :
    ∃ v ∈ stack, ReflTransGen (Joins es) v goal := by
  induction n generalizing seen stack with
  | zero => nomatch h
  | succ n ih =>
    cases stack with
    | nil => nomatch h
    | cons v stack =>
      rw [search] at h
      split_ifs at h with hgoal hseen
      · exact ⟨v, List.mem_cons_self, hgoal ▸ .refl⟩
      · obtain ⟨w, hw, hpath⟩ := ih h
        exact ⟨w, List.mem_cons_of_mem v hw, hpath⟩
      · obtain ⟨w, hw, hpath⟩ := ih h
        rcases List.mem_append.mp hw with hw | hw
        · have hedge := mem_targets.mp (List.mem_reverse.mp hw)
          exact ⟨v, List.mem_cons_self, .head hedge hpath⟩
        · exact ⟨w, List.mem_cons_of_mem v hw, hpath⟩

variable (es goal) in
/-- The marked nodes are not the goal, and what they lead to is marked or on the stack. -/
structure Explored (seen stack : List V) : Prop where
  goal : goal ∉ seen
  edges : ∀ v ∈ seen, ∀ w, Joins es v w → w ∈ seen ∨ w ∈ stack

omit [DecidableEq V] in
theorem Explored.skip {v : V} {seen stack : List V} (h : Explored es goal seen (v :: stack))
    (hv : v ∈ seen) : Explored es goal seen stack := by
  refine ⟨h.goal, fun u hu w hw => ?_⟩
  rcases h.edges u hu w hw with hw | hw
  · exact .inl hw
  · rcases List.mem_cons.mp hw with rfl | hw
    · exact .inl hv
    · exact .inr hw

theorem Explored.leave {v : V} {seen stack : List V} (h : Explored es goal seen (v :: stack))
    (hv : v ≠ goal) : Explored es goal (v :: seen) ((targets es v).reverse ++ stack) := by
  refine ⟨fun hgoal => ?_, fun u hu w hw => ?_⟩
  · rcases List.mem_cons.mp hgoal with rfl | hgoal
    · exact hv rfl
    · exact h.goal hgoal
  · rw [List.mem_append, List.mem_reverse, mem_targets]
    rcases List.mem_cons.mp hu with rfl | hu
    · exact .inr (.inl hw)
    · rcases h.edges u hu w hw with hw | hw
      · exact .inl (List.mem_cons_of_mem v hw)
      · rcases List.mem_cons.mp hw with rfl | hw
        · exact .inl List.mem_cons_self
        · exact .inr (.inr hw)

/-- A search that finds nothing ends with a closed set of marked nodes. -/
theorem exists_explored {n : ℕ} {seen stack : List V}
    (h : search es goal n seen stack = some false) (hex : Explored es goal seen stack) :
    ∃ all, Explored es goal all [] ∧ ∀ v, v ∈ seen ∨ v ∈ stack → v ∈ all := by
  induction n generalizing seen stack with
  | zero => nomatch h
  | succ n ih =>
    cases stack with
    | nil => exact ⟨seen, hex, fun v hv => hv.resolve_right List.not_mem_nil⟩
    | cons v stack =>
      rw [search] at h
      split_ifs at h with hgoal hseen
      · nomatch h
      · obtain ⟨all, hall, hmem⟩ := ih h (hex.skip hseen)
        refine ⟨all, hall, fun w hw => hmem w ?_⟩
        rcases hw with hw | hw
        · exact .inl hw
        · rcases List.mem_cons.mp hw with rfl | hw
          · exact .inl hseen
          · exact .inr hw
      · obtain ⟨all, hall, hmem⟩ := ih h (hex.leave hgoal)
        refine ⟨all, hall, fun w hw => hmem w ?_⟩
        rcases hw with hw | hw
        · exact .inl (List.mem_cons_of_mem v hw)
        · rcases List.mem_cons.mp hw with rfl | hw
          · exact .inl List.mem_cons_self
          · exact .inr (List.mem_append_right _ hw)

omit [DecidableEq V] in
theorem Explored.not_reached {all : List V} (h : Explored es goal all []) {v : V} (hv : v ∈ all) :
    ¬ReflTransGen (Joins es) v goal := by
  intro hpath
  induction hpath using ReflTransGen.head_induction_on with
  | refl => exact h.goal hv
  | head hedge _ ih => exact ih ((h.edges _ hv _ hedge).resolve_right List.not_mem_nil)

/-- What a search that ends has decided. -/
theorem search_iff {n : ℕ} {start : V} {b : Bool} (h : search es goal n [] [start] = some b) :
    b = true ↔ ReflTransGen (Joins es) start goal := by
  cases b with
  | true =>
    obtain ⟨v, hv, hpath⟩ := exists_reaching h
    rw [List.mem_singleton.mp hv] at hpath
    exact iff_of_true rfl hpath
  | false =>
    obtain ⟨all, hall, hmem⟩ := exists_explored h ⟨List.not_mem_nil, fun v hv => nomatch hv⟩
    exact iff_of_false Bool.false_ne_true
      (hall.not_reached (hmem start (.inr (List.mem_singleton.mpr rfl))))

/-! ### Its length -/

/-- The edges that leave nodes not yet marked. -/
def ahead (es : List (V × V)) (seen : List V) : ℕ := es.countP fun e => e.1 ∉ seen

theorem ahead_cons (es : List (V × V)) {v : V} {seen : List V} (hv : v ∉ seen) :
    ahead es (v :: seen) + (targets es v).length = ahead es seen := by
  induction es with
  | nil => rfl
  | cons e es ih =>
    unfold ahead targets at ih ⊢
    rw [List.length_map] at ih ⊢
    by_cases he : e.1 = v
    · have hleft : e.1 ∉ seen := he ▸ hv
      simp [he, hv]
      simp at ih
      omega
    · by_cases hleft : e.1 ∈ seen <;> simp [he, hleft] <;> simp at ih <;> omega

/-- The search ends: each round takes one node off the stack, and puts on it what only one
round puts on it. -/
theorem search_ends {n : ℕ} {seen stack : List V} (h : stack.length + ahead es seen < n) :
    ∃ b, search es goal n seen stack = some b := by
  induction n generalizing seen stack with
  | zero => omega
  | succ n ih =>
    cases stack with
    | nil => exact ⟨false, rfl⟩
    | cons v stack =>
      rw [List.length_cons] at h
      rw [search]
      split_ifs with hgoal hseen
      · exact ⟨true, rfl⟩
      · exact ih (by omega)
      · have hahead := ahead_cons es hseen
        refine ih ?_
        rw [List.length_append, List.length_reverse]
        omega

/-- More rounds than it takes change nothing. -/
theorem search_mono {m n : ℕ} (hmn : m ≤ n) {seen stack : List V} {b : Bool}
    (h : search es goal m seen stack = some b) : search es goal n seen stack = some b := by
  induction m generalizing n seen stack with
  | zero => nomatch h
  | succ m ih =>
    cases n with
    | zero => omega
    | succ n =>
      have hle : m ≤ n := by omega
      cases stack with
      | nil => exact h
      | cons v stack =>
        rw [search] at h ⊢
        split_ifs at h ⊢
        · exact h
        · exact ih hle h
        · exact ih hle h

theorem ahead_le (es : List (V × V)) (seen : List V) : ahead es seen ≤ es.length :=
  List.countP_le_length

end

end AskFable.Reach
