import AskFable.General.Front
import AskFable.Index.Fresh
import AskFable.Python.Json
import Mathlib.Data.List.Sort

/-!
# Hybrid search and its reranking

Keyword ranks and vector ranks are fused into one score for each chunk, the best chunks that are
not blocked are the hits, and a chat model may put the first of them in another order. What it
replies is a list of indexes that nothing keeps from repeating one.
-/
namespace AskFable.Index
open AskFable.Text AskFable.Python AskFable.Pack AskFable.Front

def RERANK_CANDIDATES : ℕ := 12

/-- `_WORD_RE`'s characters. -/
def termChar (c : Cp) : Bool := isAlnum c || [cp '_', cp '.', cp '/', cp '-'].contains c

/-- `_WORD_RE.findall`. -/
def queryTerms (query : Str) : List Str :=
  (query.splitOnP fun c => !termChar c).filter fun t => 2 ≤ t.length

inductive Why
  | keyword
  | semantic
  | both
  deriving DecidableEq

structure Hit (S : Type*) where
  path : Str
  start : ℕ
  stop : ℕ
  text : Str
  score : S
  why : Why
  deriving DecidableEq

def hitOf {S : Type*} (row : Row) (score : S) (why : Why) : Hit S :=
  ⟨row.path, row.chunk.start, row.chunk.stop, row.chunk.piece, score, why⟩

/-- What a hit says of its chunk. -/
structure Hit.Of {S : Type*} (row : Row) (h : Hit S) : Prop where
  path : h.path = row.path
  start : h.start = row.chunk.start
  stop : h.stop = row.chunk.stop
  text : h.text = row.chunk.piece

/-- The chunks that match a query, best first: rows of the table, each once. -/
structure Ranking {V : Type*} (db : Db V) where
  rows : List Row
  mem : ∀ row ∈ rows, row ∈ db.chunks
  ids : (rows.map Row.id).Nodup

/-- Reciprocal ranks and their sum, as floats. -/
structure Scores (S : Type*) where
  rrf : ℕ → S
  add : S → S → S

variable {S V : Type*}

/-- `setdefault`, and the rank added to the score. -/
def addRank (scores : Scores S) (merged : List (ℕ × Hit S)) (p : Row × ℕ) : List (ℕ × Hit S) :=
  if p.1.id ∈ merged.map Prod.fst then
    merged.map fun e =>
      if e.1 = p.1.id then
        (e.1, { e.2 with
          score := scores.add e.2.score (scores.rrf p.2)
          why := if e.2.why = .keyword then .both else e.2.why })
      else e
  else merged ++ [(p.1.id, hitOf p.1 (scores.rrf p.2) .semantic)]

/-- The merged hits, by row id. -/
def merge (scores : Scores S) (keyword semantic : List Row) : List (ℕ × Hit S) :=
  semantic.zipIdx.foldl (addRank scores)
    (keyword.zipIdx.map fun p => (p.1.id, hitOf p.1 (scores.rrf p.2) .keyword))

section
variable [Pack.Unicode]

/-- The hits that may be served. -/
def live (extra : List Str) (merged : List (ℕ × Hit S)) : List (Hit S) :=
  (merged.map Prod.snd).filter fun h => !isBlocked h.path extra

/-- The hits, best first and as many as asked for. -/
def hits [LinearOrder S] (scores : Scores S) (extra : List Str) (k : ℤ)
    (keyword semantic : List Row) : List (Hit S) :=
  ((live extra (merge scores keyword semantic)).insertionSort fun a b => b.score ≤ a.score).take
    (max 1 k).toNat

end

/-! ### The model's order -/

/-- What comes back from a host: nothing, with the error; a body in which no array is found; or
the array. -/
inductive Reply
  | down (err : Str)
  | unparseable
  | order (xs : List Json)

/-- How an array is read: as the places it names, in vain, or with an error nobody catches. -/
inductive Order
  | places (is : List ℕ)
  | unparseable
  | raises
  deriving DecidableEq

def Order.cons (i : ℕ) : Order → Order
  | places is => places (i :: is)
  | unparseable => unparseable
  | raises => raises

/-- `int(i)` of each entry, and those in range. -/
def readOrder [Host] (n : ℕ) : List Json → Order
  | [] => .places []
  | x :: xs =>
    match x.intOf with
    | .value i => if 0 ≤ i ∧ i < n then (readOrder n xs).cons i.toNat else readOrder n xs
    | .mismatch => .unparseable
    | .overflow => .raises

section
variable [DecidableEq S]

/-- The hosts one after the other, with the errors so far; `none` is an `OverflowError`. -/
def askHosts [Host] (hits : List (Hit S)) :
    List (Str × Reply) → List Str → Option (List (Hit S) × Str)
  | [], errors => some (hits, txt "unavailable: " ++ (txt "; ").intercalate errors)
  | (host, reply) :: replies, errors =>
    match reply with
    | .down err =>
      askHosts hits replies (errors ++ [host ++ txt ": " ++ if err = [] then txt "empty" else err])
    | .unparseable => askHosts hits replies (errors ++ [host ++ txt ": unparseable ranking"])
    | .order xs =>
      match readOrder hits.length xs with
      | .places is => some (front hits (pick hits is), txt "applied")
      | .unparseable => askHosts hits replies (errors ++ [host ++ txt ": unparseable ranking"])
      | .raises => none

/-- `_rerank`. -/
def rerank [Host] (model : Str) (hits : List (Hit S)) (replies : List (Str × Reply)) :
    Option (List (Hit S) × Str) :=
  if model = [] ∨ hits.length < 2 then some (hits, txt "skipped") else askHosts hits replies []

/-- The hits of a search that reranks: the candidates in the model's order, and then what stands
in the hits from their number on. -/
def reranked [Host] (model : Str) (hits : List (Hit S)) (replies : List (Str × Reply)) :
    Option (List (Hit S) × Str) :=
  (rerank model (hits.take RERANK_CANDIDATES) replies).map fun p =>
    (p.1 ++ hits.drop p.1.length, p.2)

end

/-! ### What is served -/

section
variable {db : Db V}

theorem merge_spec (scores : Scores S) (keyword semantic : Ranking db) :
    ((merge scores keyword.rows semantic.rows).map Prod.fst).Nodup ∧
      ∀ e ∈ merge scores keyword.rows semantic.rows, ∃ row ∈ db.chunks, row.id = e.1 ∧
        e.2.Of row := by
  have hfold : ∀ (ps : List (Row × ℕ)) (merged : List (ℕ × Hit S)), (∀ p ∈ ps, p.1 ∈ db.chunks) →
      (merged.map Prod.fst).Nodup →
      (∀ e ∈ merged, ∃ row ∈ db.chunks, row.id = e.1 ∧ e.2.Of row) →
      ((ps.foldl (addRank scores) merged).map Prod.fst).Nodup ∧
        ∀ e ∈ ps.foldl (addRank scores) merged, ∃ row ∈ db.chunks, row.id = e.1 ∧ e.2.Of row := by
    intro ps
    induction ps with
    | nil => exact fun merged _ hnodup hrows => ⟨hnodup, hrows⟩
    | cons p ps ih =>
      intro merged hps hnodup hrows
      obtain ⟨hp, hps⟩ := List.forall_mem_cons.mp hps
      rw [List.foldl_cons]
      refine ih _ hps ?_ ?_
      · unfold addRank
        split_ifs with hmem
        · have hkeys : (merged.map fun e => if e.1 = p.1.id then (e.1, { e.2 with
              score := scores.add e.2.score (scores.rrf p.2)
              why := if e.2.why = .keyword then .both else e.2.why }) else e).map Prod.fst =
              merged.map Prod.fst := by
            rw [List.map_map]
            refine List.map_congr_left fun e _ => ?_
            rw [Function.comp_apply]
            split_ifs <;> rfl
          rwa [hkeys]
        · rw [List.map_append]
          exact hnodup.append (List.nodup_singleton _) (by simpa using hmem)
      · unfold addRank
        intro e he
        split_ifs at he with hmem
        · obtain ⟨e₀, he₀, rfl⟩ := List.mem_map.mp he
          obtain ⟨row, hrow, hid, hof⟩ := hrows e₀ he₀
          by_cases hsame : e₀.1 = p.1.id
          · rw [if_pos hsame]
            exact ⟨row, hrow, hid, hof.path, hof.start, hof.stop, hof.text⟩
          · rw [if_neg hsame]
            exact ⟨row, hrow, hid, hof⟩
        · rcases List.mem_append.mp he with he | he
          · exact hrows e he
          · rw [List.mem_singleton.mp he]
            exact ⟨p.1, hp, rfl, rfl, rfl, rfl, rfl⟩
  refine hfold _ _ (fun p hp => semantic.mem _ (List.fst_mem_of_mem_zipIdx hp)) ?_ fun e he => ?_
  · rw [List.map_map]
    have hfst : (keyword.rows.zipIdx.map (Prod.fst ∘ fun p =>
        (p.1.id, hitOf p.1 (scores.rrf p.2) Why.keyword))) = keyword.rows.map Row.id := by
      rw [← List.zipIdx_map_fst 0 keyword.rows, List.map_map]
      simp [Function.comp_def]
    rw [hfst]
    exact keyword.ids
  · obtain ⟨p, hp, rfl⟩ := List.mem_map.mp he
    exact ⟨p.1, keyword.mem _ (List.fst_mem_of_mem_zipIdx hp), rfl, rfl, rfl, rfl, rfl⟩

theorem mem_chunksOf {row : Row} (h : row ∈ db.chunks) : row.chunk ∈ db.chunksOf row.path :=
  List.mem_map.mpr ⟨row, List.mem_filter.mpr ⟨h, by simp⟩, rfl⟩

end

/-! ### Reranking -/

section
variable [Host]

/-- The reply that decides: the first that names places or raises. -/
def deciding (n : ℕ) : List (Str × Reply) → Order
  | [] => .unparseable
  | (_, .order xs) :: replies =>
    match readOrder n xs with
    | .unparseable => deciding n replies
    | .places is => .places is
    | .raises => .raises
  | (_, .down _) :: replies | (_, .unparseable) :: replies => deciding n replies

theorem readOrder_lt {n : ℕ} {xs : List Json} {is : List ℕ} (h : readOrder n xs = .places is) :
    ∀ i ∈ is, i < n := by
  induction xs generalizing is with
  | nil =>
    obtain rfl := Order.places.inj h
    simp
  | cons x xs ih =>
    rw [readOrder] at h
    cases hx : x.intOf with
    | mismatch => simp [hx] at h
    | overflow => simp [hx] at h
    | value i =>
      rw [hx] at h
      dsimp only at h
      split_ifs at h with hi
      · cases hrest : readOrder n xs with
        | unparseable => simp [hrest, Order.cons] at h
        | raises => simp [hrest, Order.cons] at h
        | places js =>
          rw [hrest] at h
          obtain rfl := Order.places.inj h
          exact List.forall_mem_cons.mpr ⟨by omega, ih hrest⟩
      · exact ih h

theorem deciding_lt {n : ℕ} {replies : List (Str × Reply)} {is : List ℕ}
    (h : deciding n replies = .places is) : ∀ i ∈ is, i < n := by
  induction replies with
  | nil => nomatch h
  | cons p replies ih =>
    obtain ⟨host, reply⟩ := p
    cases reply with
    | down | unparseable => exact ih h
    | order xs =>
      rw [deciding] at h
      cases hxs : readOrder n xs with
      | unparseable => exact ih (by simpa [hxs] using h)
      | raises => simp [hxs] at h
      | places js =>
        rw [hxs] at h
        obtain rfl := Order.places.inj h
        exact readOrder_lt hxs

theorem askHosts_eq [DecidableEq S] (hits : List (Hit S)) (replies : List (Str × Reply))
    (errors : List Str) :
    match deciding hits.length replies with
    | .places is => askHosts hits replies errors = some (front hits (pick hits is), txt "applied")
    | .unparseable => ∃ note, askHosts hits replies errors = some (hits, note)
    | .raises => askHosts hits replies errors = none := by
  induction replies generalizing errors with
  | nil => exact ⟨_, rfl⟩
  | cons p replies ih =>
    obtain ⟨host, reply⟩ := p
    cases reply with
    | down | unparseable => exact ih _
    | order xs =>
      rw [deciding, askHosts]
      cases hxs : readOrder hits.length xs with
      | unparseable => exact ih _
      | raises => exact rfl
      | places is => exact rfl

/-- Reranking serves no chunk that was no hit and leaves none of the candidates out. Where no reply
decides it changes nothing; where one does, the hits are permuted exactly when the reply names no
place twice, and each place named again is one more hit than there was room for, once the hits
beyond the candidates are used up. -/
theorem reranked_perm_iff [DecidableEq S] (model : Str) (hits : List (Hit S))
    (replies : List (Str × Reply)) (hmodel : model ≠ []) (hmany : 2 ≤ hits.length) :
    let candidates := hits.take RERANK_CANDIDATES
    match deciding candidates.length replies with
    | .places is => ∃ r, reranked model hits replies = some (r, txt "applied") ∧ r ⊆ hits ∧
        candidates ⊆ r ∧
        (hits.Nodup → (r.Perm hits ↔ is.Nodup) ∧
          r.length = max hits.length (candidates.length + (is.length - is.dedup.length)))
    | .unparseable => ∃ note, reranked model hits replies = some (hits, note)
    | .raises => reranked model hits replies = none := by
  intro candidates
  have hskip : ¬(model = [] ∨ candidates.length < 2) := by
    have hlength : candidates.length = min RERANK_CANDIDATES hits.length := List.length_take
    rw [RERANK_CANDIDATES] at hlength
    rw [not_or]
    exact ⟨hmodel, by omega⟩
  have hrerank : reranked model hits replies = (askHosts candidates replies []).map fun p =>
      (p.1 ++ hits.drop p.1.length, p.2) := by
    rw [reranked, rerank, if_neg hskip]
  have hsame : candidates ++ hits.drop candidates.length = hits := by
    conv_rhs => rw [← List.take_append_drop RERANK_CANDIDATES hits]
    rw [show candidates.length = min RERANK_CANDIDATES hits.length from List.length_take]
    rcases Nat.le_total RERANK_CANDIDATES hits.length with hle | hle
    · rw [Nat.min_eq_left hle]
    · rw [Nat.min_eq_right hle, List.drop_length, List.drop_eq_nil_of_le hle]
  have hask := askHosts_eq candidates replies []
  cases hdecide : deciding candidates.length replies with
  | raises =>
    rw [hdecide] at hask
    rw [hrerank, show askHosts candidates replies [] = none from hask]
    exact rfl
  | unparseable =>
    rw [hdecide] at hask
    obtain ⟨note, hask⟩ := hask
    refine ⟨note, ?_⟩
    rw [hrerank, hask, Option.map_some, hsame]
  | places is =>
    rw [hdecide] at hask
    have hlt := deciding_lt hdecide
    have hsub : pick candidates is ⊆ candidates := pick_subset is
    refine ⟨_, by rw [hrerank, hask]; rfl, fun x hx => ?_, fun x hx => ?_, fun hnodup => ?_⟩
    · rcases List.mem_append.mp hx with hx | hx
      · exact List.mem_of_mem_take ((mem_front hsub).mp hx)
      · exact List.mem_of_mem_drop hx
    · exact List.mem_append_left _ ((mem_front hsub).mpr hx)
    · have hcand : candidates.Nodup := hnodup.sublist (List.take_sublist _ _)
      have hperm := front_pick_perm_iff hcand hlt
      dsimp only
      refine ⟨⟨fun h => ?_, fun h => ?_⟩, ?_⟩
      · have hfront := (List.nodup_append.mp (h.nodup_iff.mpr hnodup)).1
        exact (nodup_pick_iff hcand hlt).mp (List.nodup_append.mp hfront).1
      · have hfront := hperm.mpr h
        rw [hfront.length_eq]
        conv_rhs => rw [← hsame]
        exact hfront.append_right _
      · rw [List.length_append, List.length_drop, length_front_pick hcand hlt]
        omega

end

/-- A reply that names the first hit twice serves it twice. -/
theorem reranked_perm_iff_twice :
    let _ := Host.ascii
    let hits : List (Hit ℕ) :=
      [⟨txt "a", 1, 2, txt "x", 9, .keyword⟩, ⟨txt "b", 1, 2, txt "y", 8, .both⟩]
    ∃ r, reranked (txt "m") hits [(txt "h", .order [.int 0, .int 0])] = some (r, txt "applied") ∧
      ¬r.Perm hits ∧ r.length = 3 := by
  intro _ hits
  have hreranked := reranked_perm_iff (txt "m") hits [(txt "h", .order [.int 0, .int 0])]
    (by decide) (by decide)
  have hdecide : deciding (hits.take RERANK_CANDIDATES).length
      [(txt "h", .order [.int 0, .int 0])] = .places [0, 0] := by decide
  simp only [hdecide] at hreranked
  obtain ⟨r, hr, -, -, hiff⟩ := hreranked
  obtain ⟨hperm, hlength⟩ := hiff (by decide)
  exact ⟨r, hr, fun h => absurd (hperm.mp h) (by decide), hlength.trans (by decide)⟩

end AskFable.Index
