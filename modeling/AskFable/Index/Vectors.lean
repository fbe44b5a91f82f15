import AskFable.Index.Fresh

/-!
# Vectors that belong to their chunks

A row id is given out again once its chunk is gone, and the new chunk starts without a vector.
Over all calls, a vector is the answer some host gave for the text of the chunk it is stored
with, and what a call reports of files, chunks and vectors adds up.
-/
namespace AskFable.Index
open AskFable.Text AskFable.Python AskFable.Pack

variable {V : Type*} {db : Db V}

/-- A vector for a chunk of this model. -/
def Db.Embedded (db : Db V) (model : Str) (id : ℕ) : Prop :=
  ∃ v ∈ db.vectors, v.chunkId = id ∧ v.model = model

/-- Each vector is one of these answers, by model and text, for the text of its chunk. -/
def Db.Backed (answers : Set (Str × Str × V)) (db : Db V) : Prop :=
  ∀ v ∈ db.vectors, ∃ row ∈ db.chunks, row.id = v.chunkId ∧
    (v.model, row.chunk.piece, v.vector) ∈ answers

section
variable {given : Set (Str × Str × V)}

namespace Db.Backed

theorem deleteChunks (h : db.Backed given) (path : Str) :
    (db.deleteChunks path).Backed given := by
  intro v hv
  obtain ⟨hmem, hkept⟩ := List.mem_filter.mp hv
  obtain ⟨row, hrow, hid, hgiven⟩ := h v hmem
  have hpath := List.all_eq_true.mp hkept row hrow
  simp only [hid, ne_eq, not_true_eq_false, or_false, decide_eq_true_eq] at hpath
  exact ⟨row, List.mem_filter.mpr ⟨hrow, by simpa using hpath⟩, hid, hgiven⟩

theorem setFile (h : db.Backed given) (hids : (db.chunks.map Row.id).Nodup) (path sha : Str)
    (cs : List Chunk) : (db.setFile path sha cs).Backed given := by
  have hdel := h.deleteChunks path
  have hids' : ((db.deleteChunks path).chunks.map Row.id).Nodup :=
    hids.sublist (List.filter_sublist.map _)
  obtain ⟨-, rows, hrows, -⟩ := Db.foldl_insertChunk_rows path cs hids'
  intro v hv
  have hv' : v ∈ (db.deleteChunks path).vectors :=
    Db.foldl_insertChunk_vectors (db.deleteChunks path) path cs ▸ hv
  obtain ⟨row, hrow, hid, hgiven⟩ := hdel v hv'
  have hrow' : row ∈ (cs.foldl (Db.insertChunk path) (db.deleteChunks path)).chunks := by
    rw [hrows]
    exact List.mem_append_left _ hrow
  exact ⟨row, hrow', hid, hgiven⟩

theorem putVector (h : db.Backed given) {v : VectorRow V}
    (hv : ∃ row ∈ db.chunks, row.id = v.chunkId ∧ (v.model, row.chunk.piece, v.vector) ∈ given) :
    (db.putVector v).Backed given := by
  intro w hw
  rcases List.mem_append.mp hw with hw | hw
  · exact h w (List.mem_filter.mp hw).1
  · exact List.mem_singleton.mp hw ▸ hv

theorem mono (h : db.Backed given) {more : Set (Str × Str × V)} (hle : given ⊆ more) :
    db.Backed more := fun v hv => by
  obtain ⟨row, hrow, hid, hgiven⟩ := h v hv
  exact ⟨row, hrow, hid, hle hgiven⟩

end Db.Backed

theorem foldl_visit_backed {sha1 : Sha1} {r : Run V} {p : Pass V} (hs : p.db.Sound)
    (h : p.db.Backed given) (paths : List Str) :
    (paths.foldl (visit sha1 r) p).db.Backed given := by
  induction paths generalizing p with
  | nil => exact h
  | cons path paths ih =>
    refine ih (visit_sound hs path) ?_
    unfold visit
    cases readText r.cap (r.again path) with
    | none => exact h
    | some text =>
      by_cases hsame : p.known.lookup path = some (digest sha1 text) ∧ r.force = false
      · simp only [if_pos hsame]
        exact h
      · simp only [if_neg hsame]
        exact h.setFile hs.ids _ _ _

theorem foldl_forget_backed {p : Pass V} (h : p.db.Backed given) (paths : List Str) :
    (paths.foldl forget p).db.Backed given := by
  induction paths generalizing p with
  | nil => exact h
  | cons path paths ih => exact ih (h.deleteChunks path)

/-- The answers a call stores, by model and text. -/
def stored (r : Run V) (db : Db V) : List (Str × Str × V) :=
  (sent r db).map fun p => (p.1.model, p.2, p.1.vector)

theorem passVectors_backed {r : Run V} (h : db.Backed given)
    (hstored : ∀ a ∈ stored r db, a ∈ given) : (passVectors r db).Backed given := by
  have hfold : ∀ (sent : List (VectorRow V × Str)) (db : Db V), db.Backed given →
      (∀ p ∈ sent, ∃ row ∈ db.chunks, row.id = p.1.chunkId ∧
        (p.1.model, row.chunk.piece, p.1.vector) ∈ given) →
      ((sent.map Prod.fst).foldl Db.putVector db).Backed given := by
    intro sent
    induction sent with
    | nil => exact fun db h _ => h
    | cons p sent ih =>
      intro db h hsent
      obtain ⟨hp, hsent⟩ := List.forall_mem_cons.mp hsent
      exact ih _ (h.putVector hp) hsent
  rw [passVectors_eq]
  refine hfold _ db h fun p hp => ?_
  obtain ⟨v, text⟩ := p
  obtain ⟨-, row, hrow, hid, htext⟩ := sent_spec hp
  refine ⟨row, (List.mem_filter.mp hrow).1, hid, hstored _ ?_⟩
  exact List.mem_map.mpr ⟨(v, text), hp, by rw [htext]⟩

/-! ### No chunk left without a vector -/

theorem Db.Embedded.putVector {model : Str} {id : ℕ} (h : db.Embedded model id)
    {v : VectorRow V} (hv : v.model = model) : (db.putVector v).Embedded model id := by
  obtain ⟨w, hw, hid, hmodel⟩ := h
  by_cases hsame : w.chunkId = v.chunkId
  · exact ⟨v, by simp [Db.putVector], hsame ▸ hid, hv⟩
  · exact ⟨w, by simp [Db.putVector, hw, hsame], hid, hmodel⟩

theorem foldl_putVector_embedded {model : Str} {id : ℕ} {vs : List (VectorRow V)}
    (hvs : ∀ v ∈ vs, v.model = model)
    (h : db.Embedded model id ∨ ∃ v ∈ vs, v.chunkId = id) :
    (vs.foldl Db.putVector db).Embedded model id := by
  induction vs generalizing db with
  | nil => exact h.resolve_right (by simp)
  | cons v vs ih =>
    obtain ⟨hv, hvs⟩ := List.forall_mem_cons.mp hvs
    refine ih hvs ?_
    rcases h with h | ⟨w, hw, hid⟩
    · exact .inl (h.putVector hv)
    · rcases List.mem_cons.mp hw with rfl | hw
      · exact .inl ⟨w, by simp [Db.putVector], hid, hv⟩
      · exact .inr ⟨w, hw, hid⟩

theorem mem_pending {model : Str} {row : Row} :
    row ∈ pending db model ↔ row ∈ db.chunks ∧ ¬db.Embedded model row.id := by
  rw [pending, List.mem_filter, List.all_eq_true]
  refine and_congr_right fun _ => ?_
  simp only [decide_eq_true_eq, Db.Embedded, not_exists, not_and]
  exact ⟨fun h v hv hid => (h v hv).resolve_left (not_not.mpr hid),
    fun h v hv => or_iff_not_imp_left.mpr fun hid => h v hv (not_not.mp hid)⟩

theorem length_answers {r : Run V} {host : Str} {vectors : List V}
    (h : answers r db = .ok (host, vectors)) : vectors.length = (pending db r.model).length := by
  unfold answers at h
  cases hans : embedTexts r.hosts r.post ((pending db r.model).map (·.chunk.piece)) with
  | error e => simp [hans, bind, Except.bind] at h
  | ok answer =>
    by_cases hlen : answer.2.length = (pending db r.model).length
    · simp only [hans, bind, Except.bind, pure, Except.pure, if_neg (not_not.mpr hlen)] at h
      rw [← hlen, ← (Prod.mk.inj (Except.ok.inj h)).2]
    · simp [hans, bind, Except.bind, hlen, throw, throwThe, MonadExceptOf.throw] at h

/-- When the hosts have answered, no chunk is without a vector. -/
theorem pending_passVectors {r : Run V} :
    (pending (passVectors r db) r.model).length =
      if (answers r db).isOk then 0 else (pending db r.model).length := by
  cases hans : answers r db with
  | error e => simp [passVectors, hans, Except.isOk, Except.toBool]
  | ok answer =>
    obtain ⟨host, vectors⟩ := answer
    have hlen := length_answers hans
    change (pending (passVectors r db) r.model).length = 0
    rw [List.length_eq_zero_iff, List.eq_nil_iff_forall_not_mem]
    intro row hrow
    obtain ⟨hmem, hnot⟩ := mem_pending.mp hrow
    refine hnot ?_
    rw [passVectors_shown.2] at hmem
    have hvs : passVectors r db = (vectorRows r db vectors).foldl Db.putVector db := by
      rw [passVectors, hans]
    rw [hvs]
    refine foldl_putVector_embedded (fun v hv => ?_) ?_
    · obtain ⟨i, hi⟩ := List.mem_iff_getElem?.mp hv
      obtain ⟨_, _, -, -, rfl⟩ := List.getElem?_zipWith_eq_some.mp hi
      rfl
    · by_cases hbefore : db.Embedded r.model row.id
      · exact .inl hbefore
      · obtain ⟨i, hi⟩ := List.mem_iff_getElem?.mp (mem_pending.mpr ⟨hmem, hbefore⟩)
        obtain ⟨hlt, -⟩ := List.getElem?_eq_some_iff.mp hi
        obtain ⟨v, hv⟩ : ∃ v, vectors[i]? = some v :=
          ⟨_, List.getElem?_eq_getElem (hlen ▸ hlt)⟩
        exact .inr ⟨⟨row.id, r.model, v⟩, List.mem_of_getElem? (i := i)
          (List.getElem?_zipWith_eq_some.mpr ⟨row, v, hi, hv, rfl⟩), rfl⟩

/-! ### Counts -/

theorem length_filter_ne {files : List (Str × Str)} (h : (files.map Prod.fst).Nodup) (path : Str) :
    (files.filter fun f => f.1 ≠ path).length + (if (files.lookup path).isSome then 1 else 0) =
      files.length := by
  induction files with
  | nil => simp
  | cons f files ih =>
    obtain ⟨p, sha⟩ := f
    obtain ⟨hp, hrest⟩ := List.nodup_cons.mp h
    by_cases hpath : p = path
    · subst hpath
      have hnone : files.lookup p = none := by
        rw [← Option.not_isSome_iff_eq_none, lookup_isSome_iff]
        exact hp
      have hkeep := ih hrest
      simp only [hnone, Option.isSome_none, Bool.false_eq_true, if_false, Nat.add_zero] at hkeep
      rw [List.filter_cons_of_neg (by simp), List.lookup_cons_self, List.length_cons, hkeep]
      rfl
    · have hne : (path == p) = false := beq_false_of_ne (Ne.symm hpath)
      have hkeep := ih hrest
      rw [List.filter_cons_of_pos (by simpa using hpath), List.lookup_cons, hne, List.length_cons,
        List.length_cons]
      dsimp only
      omega

/-- The files come to so far are counted once each, and so is each known file. -/
theorem foldl_visit_counts (sha1 : Sha1) (r : Run V) (p : Pass V)
    (hknown : (p.known.map Prod.fst).Nodup) (paths : List Str) :
    let q := paths.foldl (visit sha1 r) p
    q.counts.added + q.counts.changed + q.counts.unchanged + q.counts.refused =
      p.counts.added + p.counts.changed + p.counts.unchanged + p.counts.refused + paths.length ∧
    q.counts.changed + q.counts.unchanged + q.known.length =
      p.counts.changed + p.counts.unchanged + p.known.length ∧
    q.counts.removed = p.counts.removed := by
  induction paths generalizing p with
  | nil => exact ⟨rfl, rfl, rfl⟩
  | cons path paths ih =>
    have hone : (((visit sha1 r p path).known.map Prod.fst).Nodup) ∧
        (visit sha1 r p path).counts.added + (visit sha1 r p path).counts.changed +
          (visit sha1 r p path).counts.unchanged + (visit sha1 r p path).counts.refused =
        p.counts.added + p.counts.changed + p.counts.unchanged + p.counts.refused + 1 ∧
        (visit sha1 r p path).counts.changed + (visit sha1 r p path).counts.unchanged +
          (visit sha1 r p path).known.length =
        p.counts.changed + p.counts.unchanged + p.known.length ∧
        (visit sha1 r p path).counts.removed = p.counts.removed := by
      have hlength := length_filter_ne hknown path
      have hnodup : ((p.known.filter fun f => f.1 ≠ path).map Prod.fst).Nodup :=
        hknown.sublist (List.filter_sublist.map _)
      unfold visit
      cases readText r.cap (r.again path) with
      | none => exact ⟨hknown, by dsimp only; omega, rfl, rfl⟩
      | some text =>
        by_cases hsame : p.known.lookup path = some (digest sha1 text) ∧ r.force = false
        · simp only [if_pos hsame]
          rw [hsame.1] at hlength
          simp only [Option.isSome_some, if_true] at hlength
          exact ⟨hnodup, by omega, by omega, trivial⟩
        · simp only [if_neg hsame]
          by_cases hsome : (p.known.lookup path).isSome = true
          · simp only [if_pos hsome] at hlength ⊢
            exact ⟨hnodup, by omega, by omega, trivial⟩
          · simp only [if_neg hsome] at hlength ⊢
            exact ⟨hnodup, by omega, by omega, trivial⟩
    obtain ⟨hnodup, hall, hold, hremoved⟩ := hone
    obtain ⟨hall', hold', hremoved'⟩ := ih _ hnodup
    rw [List.foldl_cons, List.length_cons]
    exact ⟨by omega, by omega, hremoved'.trans hremoved⟩

theorem foldl_forget_counts {p : Pass V} (paths : List Str) :
    let q := paths.foldl forget p
    q.counts = { p.counts with removed := p.counts.removed + paths.length } := by
  induction paths generalizing p with
  | nil => rfl
  | cons path paths ih =>
    rw [List.foldl_cons]
    dsimp only at ih ⊢
    rw [ih, List.length_cons]
    simp only [forget, Counts.mk.injEq, true_and, and_true]
    omega

/-! ### Runs -/

variable [Pack.Unicode]

/-- All answers that calls store, one call after the other. -/
def history (sha1 : Sha1) : Db V → List (Run V) → List (Str × Str × V)
  | _, [] => []
  | db, r :: rs =>
    (if r.stop = .never then stored r (passFiles sha1 r db).db else []) ++
      history sha1 (index sha1 db r) rs

theorem index_backed {sha1 : Sha1} {r : Run V} (hs : db.Sound) (h : db.Backed given)
    (hstored : r.stop = .never → ∀ a ∈ stored r (passFiles sha1 r db).db, a ∈ given) :
    (index sha1 db r).Backed given := by
  have hfiled : (passFiles sha1 r db).db.Backed given :=
    foldl_forget_backed (foldl_visit_backed hs h _) _
  unfold index
  cases hstop : r.stop with
  | never => exact passVectors_backed hfiled (hstored hstop)
  | files => exact h
  | vectors => exact hfiled

end

end AskFable.Index
