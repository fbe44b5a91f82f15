import AskFable.Falsify.Fixpoint
import AskFable.General.Reach

/-!
# The graph of contradictions

`has_cycle` looks for the source of a new edge from its target, over the `contra` edges and
the new one. The new edge leads away from the node that is looked for, so it changes
nothing; and an edge is added to a ledger only where the search found no way back.
-/
namespace AskFable.Falsify
open AskFable.Text AskFable.Python AskFable.Machine AskFable.Reach Relation

/-- The `contra` edges, each as its two ends. -/
def contras (es : List Edge) : List (Str × Str) :=
  (es.filter fun e => e.kind == txt "contra").map fun e => (e.src, e.dst)

theorem contras_concat (es : List Edge) (src dst : Str) :
    contras (es ++ [⟨src, txt "contra", dst⟩]) = contras es ++ [(src, dst)] := by
  simp [contras]

theorem length_contras_le (es : List Edge) : (contras es).length ≤ es.length := by
  rw [contras, List.length_map]
  exact List.length_filter_le _ es

theorem joins_concat (es : List Edge) (src dst : Str) :
    Joins (contras (es ++ [⟨src, txt "contra", dst⟩])) = extend (Joins (contras es)) src dst := by
  funext v w
  simp [contras_concat, Joins, extend]

theorem targets_contras (es : List Edge) (v : Str) :
    (es.filter fun e => e.kind == txt "contra" && e.src == v).map Edge.dst =
      targets (contras es) v := by
  rw [targets, contras, List.filter_map, List.map_map, List.filter_filter]
  refine congrArg (List.map Edge.dst) (List.filter_congr fun e _ => ?_)
  simp [Bool.and_comm, Bool.beq_eq_decide_eq]

/-- A search that ends has found what the loop finds. -/
theorem reaches_of_search {es : List (Str × Str)} {goal : Str} {n : ℕ} {seen stack : List Str}
    {b : Bool} (h : search es goal n seen stack = some b) :
    reaches (targets es) goal n seen stack = b := by
  induction n generalizing seen stack with
  | zero => nomatch h
  | succ n ih =>
    cases stack with
    | nil => exact Option.some.inj h
    | cons v stack =>
      rw [search] at h
      rw [reaches]
      split_ifs at h ⊢
      · exact Option.some.inj h
      · exact ih h
      · exact ih h

section
variable (es : List Edge) (src dst : Str)

theorem search_hasCycle :
    search (contras (es ++ [⟨src, txt "contra", dst⟩])) src (es.length + 3) [] [dst] =
      some (hasCycle es src dst) := by
  have hle := length_contras_le (es ++ [⟨src, txt "contra", dst⟩])
  rw [List.length_append, List.length_singleton] at hle
  have hahead := ahead_le (contras (es ++ [⟨src, txt "contra", dst⟩])) []
  have hstart : [dst].length + ahead (contras (es ++ [⟨src, txt "contra", dst⟩])) [] <
      es.length + 3 := by
    rw [List.length_singleton]
    omega
  have hended : ∃ b, search (contras (es ++ [⟨src, txt "contra", dst⟩])) src (es.length + 3) []
      [dst] = some b := search_ends hstart
  obtain ⟨b, hb⟩ := hended
  have hloop := reaches_of_search hb
  rw [hb, hasCycle, List.length_append, List.length_singleton]
  simp only [targets_contras]
  exact congrArg some hloop.symm

theorem hasCycle_iff :
    hasCycle es src dst = true ↔ ReflTransGen (Joins (contras es)) dst src := by
  rw [search_iff (search_hasCycle es src dst), joins_concat, reflTransGen_extend_source]

end

/-! ### Every reachable ledger -/

section
variable [Host]

/-- No claim contradicts itself, directly or through others. -/
def Ledger.Acyclic (led : Ledger) : Prop := Reach.Acyclic (Joins (contras led.edges))

theorem Ledger.Acyclic.clerkAttack {led : Ledger} (h : led.Acyclic) (killer corpus : Str)
    (roundNo : ℕ) (gate : Bool) (box : Sandbox) (row : Dict × ℕ) :
    (clerkAttack killer corpus roundNo gate box led row).Acyclic := by
  unfold Ledger.Acyclic at h ⊢
  rcases clerkAttack_edges killer corpus roundNo gate box led row with
    hsame | ⟨src, dst, hno, hnew⟩
  · rwa [hsame]
  · have hback : ¬ReflTransGen (Joins (contras led.edges)) dst src := by
      rw [← hasCycle_iff, hno]
      exact Bool.false_ne_true
    rw [hnew, joins_concat]
    exact (h.extend_iff src dst).mpr hback

theorem Ledger.Acyclic.step {led : Ledger} (h : led.Acyclic) (call : Call) :
    (step led call).Acyclic := by
  cases call with
  | asserts block author corpus gate box =>
    have hedges := applyAsserts_edges (assertedRows block author) (led, [], [])
    unfold Ledger.Acyclic at h ⊢
    exact hedges.symm ▸ h
  | attacks block killer corpus roundNo gate box =>
    exact foldl_invariant _ (fun _ row hs => hs.clerkAttack killer corpus roundNo gate box row) h _
  | credit before =>
    unfold Ledger.Acyclic at h ⊢
    exact (creditSurvivors_edges before led).symm ▸ h
  | metamorph | resolve | mark => exact h

omit [Host] in
theorem newLedger_acyclic (session : Str) : (newLedger session).Acyclic :=
  acyclic_empty fun _ _ h => nomatch h

/-- The search ends, after a round for each edge, the new one and the start at most, and
finds exactly whether the new edge would close a cycle; and no ledger has one. -/
theorem contras_acyclic :
    (∀ (es : List Edge) (src dst : Str),
      (∀ n, search (contras (es ++ [⟨src, txt "contra", dst⟩])) src (es.length + 3 + n) [] [dst] =
        some (hasCycle es src dst)) ∧
      (hasCycle es src dst = true ↔ src = dst ∨ TransGen (Joins (contras es)) dst src)) ∧
    ∀ (session : Str) (calls : List Call),
      (calls.foldl Falsify.step (newLedger session)).Acyclic := by
  refine ⟨fun es src dst => ⟨fun n => ?_, ?_⟩, fun session calls => ?_⟩
  · exact search_mono (Nat.le_add_right _ n) (search_hasCycle es src dst)
  · rw [hasCycle_iff, reflTransGen_iff_eq_or_transGen]
  · exact foldl_invariant Falsify.step (fun _ call hs => hs.step call) (newLedger_acyclic session)
      calls

end

end AskFable.Falsify
