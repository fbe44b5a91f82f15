import AskFable.Index.Refresh

/-!
# An index refreshed is an index built anew

Whatever calls came before, a call that gets to its first commit leaves for each file it read the
chunks of its text, and nothing for any other path. A vector goes with its chunk, so a row id that
comes back has none, and each vector was the answer for the text of its chunk.
-/
namespace AskFable.Index
open AskFable.Text AskFable.Python AskFable.Pack AskFable.Derived

variable {V : Type*} {db : Db V}

/-! ### Tables -/

namespace Db

theorem chunksOf_deleteChunks (path q : Str) :
    (db.deleteChunks path).chunksOf q = if q = path then [] else db.chunksOf q := by
  by_cases hq : q = path
  · rw [if_pos hq, chunksOf, List.map_eq_nil_iff, List.filter_eq_nil_iff]
    intro r hr
    have hne := (List.mem_filter.mp hr).2
    simp only [decide_eq_true_eq] at hne ⊢
    rwa [hq]
  · rw [if_neg hq, chunksOf, chunksOf, deleteChunks, List.filter_filter]
    congr 1
    refine List.filter_congr fun r _ => ?_
    by_cases hr : r.path = q
    · simp [hr, hq]
    · simp [hr]

theorem foldl_insertChunk_files (path : Str) (cs : List Chunk) :
    (cs.foldl (insertChunk path) db).files = db.files := by
  induction cs generalizing db with
  | nil => rfl
  | cons c cs ih => exact ih

theorem foldl_insertChunk_vectors (db : Db V) (path : Str) (cs : List Chunk) :
    (cs.foldl (insertChunk path) db).vectors = db.vectors := by
  induction cs generalizing db with
  | nil => rfl
  | cons c cs ih => exact ih _

theorem chunksOf_foldl_insertChunk (path q : Str) (cs : List Chunk) :
    (cs.foldl (insertChunk path) db).chunksOf q =
      db.chunksOf q ++ if q = path then cs else [] := by
  induction cs generalizing db with
  | nil => simp
  | cons c cs ih =>
    rw [List.foldl_cons, ih]
    have hone : (insertChunk path db c).chunksOf q =
        db.chunksOf q ++ if q = path then [c] else [] := by
      by_cases hq : q = path
      · simp [chunksOf, insertChunk, hq]
      · simp [chunksOf, insertChunk, hq, Ne.symm hq]
    rw [hone]
    split_ifs <;> simp

/-- A file's digest and chunks are written. -/
def setFile (db : Db V) (path sha : Str) (cs : List Chunk) : Db V :=
  (cs.foldl (insertChunk path) (db.deleteChunks path)).putFile path sha

/-- A file leaves the index. -/
def dropFile (db : Db V) (path : Str) : Db V := (db.deleteChunks path).deleteFile path

theorem lookup_filter_ne (files : List (Str × Str)) (path q : Str) :
    (files.filter fun f => f.1 ≠ path).lookup q = if q = path then none else files.lookup q := by
  induction files with
  | nil => simp
  | cons f files ih =>
    obtain ⟨p, sha⟩ := f
    by_cases hp : p = path
    · rw [List.filter_cons_of_neg (by simp [hp]), ih, List.lookup_cons]
      by_cases hq : q = path
      · simp [hq]
      · have hne : (q == p) = false := beq_false_of_ne fun h => hq (h.trans hp)
        simp [hq, hne]
    · rw [List.filter_cons_of_pos (by simpa using hp), List.lookup_cons, ih, List.lookup_cons]
      by_cases hqp : q = p
      · have hq : q ≠ path := fun h => hp (hqp.symm.trans h)
        simp [hqp, hp]
      · simp [beq_false_of_ne hqp]

theorem shown_setFile (path sha : Str) (cs : List Chunk) :
    (db.setFile path sha cs).shown = Function.update db.shown path (some (sha, cs)) := by
  have hfiles : (db.setFile path sha cs).files =
      db.files.filter (fun f => f.1 ≠ path) ++ [(path, sha)] := by
    simp only [setFile, putFile, foldl_insertChunk_files, deleteChunks]
  have hchunks (q : Str) : (db.setFile path sha cs).chunksOf q =
      if q = path then cs else db.chunksOf q := by
    have hput : (db.setFile path sha cs).chunksOf q =
        (cs.foldl (insertChunk path) (db.deleteChunks path)).chunksOf q := rfl
    rw [hput, chunksOf_foldl_insertChunk, chunksOf_deleteChunks]
    split_ifs <;> simp
  funext q
  rw [shown, hfiles, hchunks, List.lookup_append, lookup_filter_ne]
  by_cases hq : q = path
  · subst hq
    simp
  · rw [Function.update_of_ne hq, if_neg hq, if_neg hq, shown]
    simp [beq_false_of_ne hq]

theorem shown_dropFile (path : Str) : (db.dropFile path).shown = Derived.drop db.shown path := by
  funext q
  have hlookup : (db.dropFile path).files.lookup q =
      if q = path then none else db.files.lookup q := lookup_filter_ne _ _ _
  have hchunks : (db.dropFile path).chunksOf q = (db.deleteChunks path).chunksOf q := rfl
  rw [shown, hlookup, hchunks, chunksOf_deleteChunks, Derived.drop]
  by_cases hq : q = path
  · simp [hq]
  · rw [Function.update_of_ne hq, if_neg hq, if_neg hq, shown]

/-- Keys are keys, every chunk is of a known file, and every vector of a chunk. -/
structure Sound (db : Db V) : Prop where
  files : (db.files.map Prod.fst).Nodup
  known : ∀ row ∈ db.chunks, row.path ∈ db.files.map Prod.fst
  ids : (db.chunks.map Row.id).Nodup
  vectors : (db.vectors.map VectorRow.chunkId).Nodup
  cascade : ∀ v ∈ db.vectors, v.chunkId ∈ db.chunks.map Row.id

theorem sound_empty : (empty : Db V).Sound := by constructor <;> simp [empty]

theorem lt_nextId {row : Row} (h : row ∈ db.chunks) : row.id < db.nextId := by
  have hle : ∀ (ids : List ℕ), ∀ n ∈ ids, n ≤ ids.foldr max 0 := by
    intro ids
    induction ids with
    | nil => simp
    | cons m ids ih =>
      refine List.forall_mem_cons.mpr ⟨Nat.le_max_left _ _, fun n hn => ?_⟩
      exact (ih n hn).trans (Nat.le_max_right _ _)
  exact Nat.lt_succ_of_le (hle _ _ (List.mem_map_of_mem h))

/-- The rows a file's chunks are put in: what was there stays, the new ids are new. -/
theorem foldl_insertChunk_rows (path : Str) (cs : List Chunk)
    (hids : (db.chunks.map Row.id).Nodup) :
    ((cs.foldl (insertChunk path) db).chunks.map Row.id).Nodup ∧
      ∃ rows, (cs.foldl (insertChunk path) db).chunks = db.chunks ++ rows ∧
        ∀ row ∈ rows, row.path = path := by
  induction cs generalizing db with
  | nil => exact ⟨hids, [], by simp, by simp⟩
  | cons c cs ih =>
    have hnew : ((insertChunk path db c).chunks.map Row.id).Nodup := by
      rw [insertChunk, List.map_append]
      refine hids.append (List.nodup_singleton _) ?_
      rw [List.map_singleton, List.disjoint_singleton]
      intro hmem
      obtain ⟨row, hrow, hid⟩ := List.mem_map.mp hmem
      exact absurd (lt_nextId hrow) (by simp [hid])
    obtain ⟨hnodup, rows, hrows, hpath⟩ := ih hnew
    refine ⟨hnodup, ⟨db.nextId, path, c⟩ :: rows, ?_, List.forall_mem_cons.mpr ⟨rfl, hpath⟩⟩
    rw [List.foldl_cons, hrows, insertChunk, List.append_assoc, List.singleton_append]

namespace Sound

theorem deleteChunks (h : db.Sound) (path : Str) : (db.deleteChunks path).Sound where
  files := h.files
  known := fun row hrow => h.known row (List.mem_filter.mp hrow).1
  ids := h.ids.sublist (List.filter_sublist.map _)
  vectors := h.vectors.sublist (List.filter_sublist.map _)
  cascade := fun v hv => by
    obtain ⟨hmem, hkept⟩ := List.mem_filter.mp hv
    obtain ⟨row, hrow, hid⟩ := List.mem_map.mp (h.cascade v hmem)
    have hpath := List.all_eq_true.mp hkept row hrow
    simp only [hid, ne_eq, not_true_eq_false, or_false, decide_eq_true_eq] at hpath
    exact List.mem_map.mpr ⟨row, List.mem_filter.mpr ⟨hrow, by simpa using hpath⟩, hid⟩

theorem setFile (h : db.Sound) (path sha : Str) (cs : List Chunk) :
    (db.setFile path sha cs).Sound := by
  have hdel := h.deleteChunks path
  obtain ⟨hids, rows, hrows, hpath⟩ := foldl_insertChunk_rows path cs hdel.ids
  have hfiles : (db.setFile path sha cs).files =
      db.files.filter (fun f => f.1 ≠ path) ++ [(path, sha)] := by
    simp only [Db.setFile, putFile, foldl_insertChunk_files, Db.deleteChunks]
  have hchunks : (db.setFile path sha cs).chunks = (db.deleteChunks path).chunks ++ rows := hrows
  have hvectors : (db.setFile path sha cs).vectors = (db.deleteChunks path).vectors :=
    foldl_insertChunk_vectors _ path cs
  refine ⟨?_, fun row hrow => ?_, hids, hvectors ▸ hdel.vectors, fun v hv => ?_⟩
  · rw [hfiles, List.map_append]
    refine (h.files.sublist (List.filter_sublist.map _)).append (List.nodup_singleton _) ?_
    simp [List.disjoint_singleton]
  · rw [hfiles, List.map_append, List.mem_append]
    rw [hchunks] at hrow
    rcases List.mem_append.mp hrow with hrow | hrow
    · obtain ⟨hmem, hne⟩ := List.mem_filter.mp hrow
      obtain ⟨f, hf, hfp⟩ := List.mem_map.mp (h.known row hmem)
      exact .inl (List.mem_map.mpr ⟨f, List.mem_filter.mpr ⟨hf, by simpa [hfp] using hne⟩, hfp⟩)
    · exact .inr (by simp [hpath row hrow])
  · rw [hchunks, List.map_append, List.mem_append]
    exact .inl (hdel.cascade v (hvectors ▸ hv))

theorem dropFile (h : db.Sound) (path : Str) : (db.dropFile path).Sound := by
  have hdel := h.deleteChunks path
  refine ⟨h.files.sublist (List.filter_sublist.map _), fun row hrow => ?_, hdel.ids, hdel.vectors,
    hdel.cascade⟩
  obtain ⟨hmem, hne⟩ := List.mem_filter.mp hrow
  obtain ⟨f, hf, hfp⟩ := List.mem_map.mp (h.known row hmem)
  exact List.mem_map.mpr ⟨f, List.mem_filter.mpr ⟨hf, by simpa [hfp] using hne⟩, hfp⟩

theorem putVector (h : db.Sound) {v : VectorRow V} (hv : v.chunkId ∈ db.chunks.map Row.id) :
    (db.putVector v).Sound := by
  refine ⟨h.files, h.known, h.ids, ?_, fun w hw => ?_⟩
  · rw [Db.putVector, List.map_append]
    refine (h.vectors.sublist (List.filter_sublist.map _)).append (List.nodup_singleton _) ?_
    simp [List.disjoint_singleton]
  · rcases List.mem_append.mp hw with hw | hw
    · exact h.cascade w (List.mem_filter.mp hw).1
    · exact List.mem_singleton.mp hw ▸ hv

/-- A path without a file has no chunks. -/
theorem chunksOf_eq (h : db.Sound) (path : Str) :
    db.chunksOf path = ((db.shown path).map Prod.snd).getD [] := by
  rw [shown]
  cases hf : db.files.lookup path with
  | some sha => rfl
  | none =>
    rw [chunksOf, Option.map_none, Option.map_none, Option.getD_none, List.map_eq_nil_iff,
      List.filter_eq_nil_iff]
    intro row hrow heq
    obtain ⟨f, hmem, hfp⟩ := List.mem_map.mp (h.known row hrow)
    have hnone := List.lookup_eq_none_iff.mp hf f hmem
    simp only [decide_eq_true_eq] at heq
    simp [hfp, heq] at hnone

end Sound

end Db

/-! ### The files of a call -/

section
variable {sha1 : Sha1} {r : Run V} {p : Pass V} {among : Set Str}

/-- What is known of a file that was not come to yet is what the index has. -/
def Pass.Abreast (p : Pass V) : Prop :=
  ∀ path sha, p.known.lookup path = some sha → p.db.files.lookup path = some sha

/-- A file that is read is settled. -/
theorem visit_some (sha1 : Sha1) {path text : Str} (h : p.Abreast)
    (htext : readText r.cap (r.again path) = some text) :
    (∃ stay, (visit sha1 r p path).db.shown = settle (scheme sha1) stay p.db.shown path text) ∧
      (visit sha1 r p path).Abreast ∧
      (visit sha1 r p path).known = p.known.filter fun f => f.1 ≠ path := by
  unfold visit
  rw [htext]
  dsimp only
  have hknown (q sha : Str) (hq : (p.known.filter fun f => f.1 ≠ path).lookup q = some sha) :
      q ≠ path ∧ p.db.files.lookup q = some sha := by
    rw [Db.lookup_filter_ne] at hq
    split_ifs at hq with hne
    exact ⟨hne, h q sha hq⟩
  by_cases hsame : p.known.lookup path = some (digest sha1 text) ∧ r.force = false
  · rw [if_pos hsame]
    refine ⟨⟨true, ?_⟩, fun q sha hq => (hknown q sha hq).2, rfl⟩
    rw [settle, if_pos]
    rw [Db.shown, h path _ hsame.1]
    exact ⟨rfl, rfl⟩
  · rw [if_neg hsame]
    refine ⟨⟨false, ?_⟩, fun q sha hq => ?_, rfl⟩
    · have hupdate : settle (scheme sha1) false p.db.shown path text =
          Function.update p.db.shown path (some ((scheme sha1).entry text)) :=
        if_neg fun hstay => Bool.false_ne_true hstay.1
      rw [hupdate]
      exact Db.shown_setFile path (digest sha1 text) (chunksFor text)
    · obtain ⟨hne, hfile⟩ := hknown q sha hq
      have hfiles : (p.db.setFile path (digest sha1 text) (chunksFor text)).files =
          p.db.files.filter (fun f => f.1 ≠ path) ++ [(path, digest sha1 text)] := by
        simp only [Db.setFile, Db.putFile, Db.foldl_insertChunk_files, Db.deleteChunks]
      change (p.db.setFile path (digest sha1 text) (chunksFor text)).files.lookup q = some sha
      rw [hfiles, List.lookup_append, Db.lookup_filter_ne, if_neg hne, hfile, Option.some_or]

theorem visit_none (sha1 : Sha1) (p : Pass V) {path : Str} (htext : readText r.cap (r.again path) = none) :
    (visit sha1 r p path).db = p.db ∧ (visit sha1 r p path).known = p.known := by
  unfold visit
  rw [htext]
  exact ⟨rfl, rfl⟩

theorem visit_sound (h : p.db.Sound) (path : Str) : (visit sha1 r p path).db.Sound := by
  unfold visit
  cases readText r.cap (r.again path) with
  | none => exact h
  | some text =>
    by_cases hsame : p.known.lookup path = some (digest sha1 text) ∧ r.force = false
    · simp only [if_pos hsame]
      exact h
    · simp only [if_neg hsame]
      exact h.setFile _ _ _

/-- The files on disk: each that is read has the chunks of its text and is not known any more,
and nothing else has changed. -/
theorem foldl_visit (sha1 : Sha1) (r : Run V) (p : Pass V) (hsep : Separates (scheme sha1) among) (paths : List Str)
    (hmem : ∀ path ∈ paths, ∀ text ∈ readText r.cap (r.again path), text ∈ among)
    (habreast : p.Abreast) (hfaithful : Faithful (scheme sha1) among p.db.shown) :
    (∀ q, (paths.foldl (visit sha1 r) p).db.shown q =
      if q ∈ paths ∧ (readText r.cap (r.again q)).isSome then
        (readText r.cap (r.again q)).map (scheme sha1).entry
      else p.db.shown q) ∧
    (∀ q, q ∈ (paths.foldl (visit sha1 r) p).known.map Prod.fst ↔
      q ∈ p.known.map Prod.fst ∧ ¬(q ∈ paths ∧ (readText r.cap (r.again q)).isSome)) ∧
    Faithful (scheme sha1) among (paths.foldl (visit sha1 r) p).db.shown := by
  induction paths generalizing p with
  | nil => simp [hfaithful]
  | cons path paths ih =>
    have hrest := fun q hq => hmem q (List.mem_cons_of_mem path hq)
    rw [List.foldl_cons]
    cases htext : readText r.cap (r.again path) with
    | none =>
      obtain ⟨hdb, hknown⟩ := visit_none sha1 p htext
      have hiff (q : Str) : (q ∈ path :: paths ∧ (readText r.cap (r.again q)).isSome) ↔
          (q ∈ paths ∧ (readText r.cap (r.again q)).isSome) := by
        by_cases hq : q = path
        · simp [hq, htext]
        · simp [hq]
      have habreast' : (visit sha1 r p path).Abreast := by
        unfold Pass.Abreast
        rwa [hdb, hknown]
      obtain ⟨hshown, hkeys, hf⟩ := ih _ hrest habreast' (hdb ▸ hfaithful)
      refine ⟨fun q => ?_, fun q => ?_, hf⟩
      · simp only [hshown, hdb, hiff]
      · simp only [hkeys, hknown, hiff]
    | some text =>
      have hamong := hmem path List.mem_cons_self text (by simp [htext])
      obtain ⟨⟨stay, hsettle⟩, habreast', hknown⟩ := visit_some sha1 habreast htext
      rw [settle_eq hfaithful hamong] at hsettle
      obtain ⟨hshown, hkeys, hf⟩ :=
        ih _ hrest habreast' (hsettle ▸ hfaithful.update hsep hamong)
      refine ⟨fun q => ?_, fun q => ?_, hf⟩
      · rw [hshown, hsettle]
        by_cases hq : q = path
        · subst hq
          simp [htext]
        · simp [hq]
      · rw [hkeys, hknown]
        by_cases hq : q = path
        · subst hq
          simp [htext]
        · have hkept : q ∈ (p.known.filter fun f => f.1 ≠ path).map Prod.fst ↔
              q ∈ p.known.map Prod.fst := by
            simp only [List.mem_map, List.mem_filter]
            exact ⟨fun ⟨f, ⟨hf, _⟩, hfq⟩ => ⟨f, hf, hfq⟩,
              fun ⟨f, hf, hfq⟩ => ⟨f, ⟨hf, by simpa [hfq] using hq⟩, hfq⟩⟩
          rw [hkept]
          simp [hq]

theorem foldl_visit_sound (h : p.db.Sound) (paths : List Str) :
    (paths.foldl (visit sha1 r) p).db.Sound := by
  induction paths generalizing p with
  | nil => exact h
  | cons path paths ih => exact ih (visit_sound h path)

theorem foldl_forget (paths : List Str) :
    (paths.foldl forget p).db.shown = paths.foldl Derived.drop p.db.shown ∧
      (p.db.Sound → (paths.foldl forget p).db.Sound) := by
  induction paths generalizing p with
  | nil => exact ⟨rfl, id⟩
  | cons path paths ih =>
    obtain ⟨hshown, hsound⟩ := ih (p := forget p path)
    rw [List.foldl_cons, List.foldl_cons, hshown]
    exact ⟨congrArg (paths.foldl Derived.drop) (Db.shown_dropFile path), fun h => hsound (h.dropFile path)⟩

theorem lookup_isSome_iff (files : List (Str × Str)) (q : Str) :
    (files.lookup q).isSome ↔ q ∈ files.map Prod.fst := by
  rw [← not_iff_not, Option.not_isSome_iff_eq_none, List.lookup_eq_none_iff, List.mem_map]
  simp only [bne_iff_ne, ne_eq, not_exists, not_and]
  exact ⟨fun h f hf heq => h f hf heq.symm, fun h f hf heq => h f hf heq.symm⟩

/-! ### The vectors of a call -/

/-- The vectors of a call: where they go, with the text the host was sent. -/
def sent (r : Run V) (db : Db V) : List (VectorRow V × Str) :=
  match answers r db with
  | .ok (_, vectors) =>
    (pending db r.model).zipWith (fun row v => (⟨row.id, r.model, v⟩, row.chunk.piece)) vectors
  | .error _ => []

theorem passVectors_eq : passVectors r db = ((sent r db).map Prod.fst).foldl Db.putVector db := by
  unfold passVectors sent vectorRows
  cases answers r db with
  | error e => rfl
  | ok answer => rw [List.map_zipWith]

theorem foldl_putVector (db : Db V) (vs : List (VectorRow V)) :
    (vs.foldl Db.putVector db).files = db.files ∧ (vs.foldl Db.putVector db).chunks = db.chunks := by
  induction vs generalizing db with
  | nil => exact ⟨rfl, rfl⟩
  | cons v vs ih => exact ih _

theorem passVectors_shown : (passVectors r db).shown = db.shown ∧
    (passVectors r db).chunks = db.chunks := by
  obtain ⟨hfiles, hchunks⟩ := foldl_putVector db ((sent r db).map Prod.fst)
  rw [passVectors_eq]
  refine ⟨?_, hchunks⟩
  funext path
  rw [Db.shown, Db.shown, hfiles, Db.chunksOf, Db.chunksOf, hchunks]

/-- A vector goes to a chunk that is pending, with its text. -/
theorem sent_spec {v : VectorRow V} {text : Str} (h : (v, text) ∈ sent r db) :
    v.model = r.model ∧ ∃ row ∈ pending db r.model, row.id = v.chunkId ∧ row.chunk.piece = text := by
  unfold sent at h
  cases hans : answers r db with
  | error e => simp [hans] at h
  | ok answer =>
    rw [hans] at h
    obtain ⟨i, hi⟩ := List.mem_iff_getElem?.mp h
    obtain ⟨row, w, hrow, -, heq⟩ := List.getElem?_zipWith_eq_some.mp hi
    obtain ⟨rfl, rfl⟩ := Prod.mk.inj heq
    exact ⟨rfl, row, List.mem_of_getElem? hrow, rfl, rfl⟩

theorem foldl_putVector_sound (h : db.Sound) (vs : List (VectorRow V))
    (hvs : ∀ v ∈ vs, v.chunkId ∈ db.chunks.map Row.id) : (vs.foldl Db.putVector db).Sound := by
  induction vs generalizing db with
  | nil => exact h
  | cons v vs ih =>
    obtain ⟨hv, hvs⟩ := List.forall_mem_cons.mp hvs
    exact ih (h.putVector hv) hvs

theorem passVectors_sound (h : db.Sound) : (passVectors r db).Sound := by
  rw [passVectors_eq]
  refine foldl_putVector_sound h _ fun v hv => ?_
  obtain ⟨⟨w, text⟩, hw, rfl⟩ := List.mem_map.mp hv
  obtain ⟨-, row, hrow, hid, -⟩ := sent_spec hw
  exact List.mem_map.mpr ⟨row, (List.mem_filter.mp hrow).1, hid⟩

/-- No two of these texts have one SHA-1. -/
def CollisionFree (sha1 : Sha1) (among : Set Str) : Prop :=
  ∀ text ∈ among, ∀ text' ∈ among, sha1.hex text = sha1.hex text' → text = text'

/-- A digest with a tag is no digest without one. -/
theorem digest_inj (h : CollisionFree sha1 among) {text text' : Str} (ht : text ∈ among)
    (ht' : text' ∈ among) (hdigest : digest sha1 text = digest sha1 text') : text = text' := by
  have hlength : (sha1.hex text).length = (sha1.hex text').length := by
    rw [sha1.length_hex, sha1.length_hex]
  exact h text ht text' ht' (List.append_inj hdigest hlength).1

/-- An index as an earlier version may have left it: each file has the chunks of its text under
its digest; but where lines were once counted otherwise, it has any chunks under its SHA-1. -/
def Db.Earlier (sha1 : Sha1) (among : Set Str) (db : Db V) : Prop :=
  ∀ path sha, db.files.lookup path = some sha → ∃ text ∈ among,
    (sha = digest sha1 text ∧ db.chunksOf path = chunksFor text) ∨
      (sha = sha1.hex text ∧ extraBreak text = true)

theorem Db.Earlier.faithful (hsep : CollisionFree sha1 among) (h : db.Earlier sha1 among) :
    Faithful (scheme sha1) among db.shown := by
  intro path d cs hpath text htext hdigest
  obtain ⟨sha, hsha, heq⟩ := Option.map_eq_some_iff.mp hpath
  obtain ⟨rfl, rfl⟩ := Prod.mk.inj heq
  change digest sha1 text = sha at hdigest
  obtain ⟨old, hold, ⟨rfl, hchunks⟩ | ⟨rfl, hbreak⟩⟩ := h path sha hsha
  · obtain rfl := digest_inj hsep htext hold hdigest
    exact hchunks.symm
  · -- an untagged digest is that of no text it could stand for
    have hlength := congrArg List.length hdigest
    rw [digest, List.length_append, sha1.length_hex, sha1.length_hex] at hlength
    by_cases htag : extraBreak text = true
    · rw [if_pos htag] at hlength
      exact absurd hlength (by decide)
    · rw [digest, if_neg htag, List.append_nil] at hdigest
      obtain rfl := hsep text htext old hold hdigest
      exact absurd hbreak htag

/-! ### Runs -/

variable [Pack.Unicode]

theorem passFiles_sound (h : db.Sound) : (passFiles sha1 r db).db.Sound :=
  (foldl_forget _).2 (foldl_visit_sound h _)

/-- The files of a call are the texts it read, indexed anew. -/
theorem passFiles_shown (hsep : Separates (scheme sha1) among)
    (hmem : ∀ path, ∀ text ∈ r.text path, text ∈ among)
    (hfaithful : Faithful (scheme sha1) among db.shown) :
    (passFiles sha1 r db).db.shown = anew (scheme sha1) r.text := by
  have hread : ∀ path ∈ r.onDisk, ∀ text ∈ readText r.cap (r.again path), text ∈ among :=
    fun path hpath text htext => hmem path text (by rwa [Run.text, if_pos hpath])
  obtain ⟨hshown, hkeys, -⟩ := foldl_visit sha1 r
    ⟨db, db.files, ⟨0, 0, 0, 0, (iterFiles r.extra r.cap r.entries).2⟩⟩ hsep r.onDisk hread
    (fun _ _ h => h) hfaithful
  rw [passFiles, (foldl_forget _).1]
  funext q
  rw [foldl_drop, hshown]
  simp only [hkeys]
  unfold anew Run.text
  by_cases hdisk : q ∈ r.onDisk
  · rw [if_pos hdisk]
    cases htext : readText r.cap (r.again q) with
    | some text => simp [hdisk]
    | none =>
      cases hfile : db.files.lookup q with
      | none => simp [Db.shown, hfile]
      | some sha =>
        have := (lookup_isSome_iff db.files q).mp (by simp [hfile])
        simp [this]
  · rw [if_neg hdisk]
    cases hfile : db.files.lookup q with
    | none => simp [Db.shown, hfile, hdisk]
    | some sha =>
      have := (lookup_isSome_iff db.files q).mp (by simp [hfile])
      simp [this, hdisk]

theorem index_sound (h : db.Sound) : (index sha1 db r).Sound := by
  unfold index
  cases r.stop with
  | never => exact passVectors_sound (passFiles_sound h)
  | files => exact h
  | vectors => exact passFiles_sound h

/-- A call that is not rolled back leaves the files indexed anew. -/
theorem index_shown (hsep : Separates (scheme sha1) among)
    (hmem : ∀ path, ∀ text ∈ r.text path, text ∈ among)
    (hfaithful : Faithful (scheme sha1) among db.shown) (hstop : r.stop ≠ .files) :
    (index sha1 db r).shown = anew (scheme sha1) r.text := by
  have hshown := passFiles_shown hsep hmem hfaithful
  unfold index
  cases h : r.stop with
  | never => exact passVectors_shown.1.trans hshown
  | files => exact absurd h hstop
  | vectors => exact hshown

theorem faithful_anew (hsep : Separates (scheme sha1) among)
    (hmem : ∀ path, ∀ text ∈ r.text path, text ∈ among) :
    Faithful (scheme sha1) among (anew (scheme sha1) r.text) := by
  intro path d cs hpath text htext hdigest
  obtain ⟨text', htext', heq⟩ := Option.map_eq_some_iff.mp hpath
  obtain ⟨rfl, rfl⟩ := Prod.mk.inj heq
  exact hsep text htext text' (hmem path text' htext') hdigest

/-- An index that any calls have left, some of them rolled back, is after a call that gets to its
first commit what an index built anew would be: each file the call read has its digest and the
chunks of its text, and nothing else is indexed. -/
theorem index_fresh (sha1 : Sha1) (among : Set Str) (hsep : CollisionFree sha1 among)
    (db : Db V) (hsound : db.Sound) (hearlier : db.Earlier sha1 among) (rs : List (Run V))
    (r : Run V) (hmem : ∀ r' ∈ rs ++ [r], ∀ path, ∀ text ∈ r'.text path, text ∈ among)
    (hstop : r.stop ≠ .files) :
    let after := (rs ++ [r]).foldl (index sha1) db
    after.Sound ∧ ∀ path, after.files.lookup path = (r.text path).map (digest sha1) ∧
      after.chunksOf path = ((r.text path).map chunksFor).getD [] := by
  have hseparates : Separates (scheme sha1) among := fun text ht text' ht' hdigest => by
    rw [digest_inj hsep ht ht' hdigest]
  have hrun : ∀ (rs : List (Run V)) (db : Db V), db.Sound →
      Faithful (scheme sha1) among db.shown →
      (∀ r' ∈ rs, ∀ path, ∀ text ∈ r'.text path, text ∈ among) →
      (rs.foldl (index sha1) db).Sound ∧
        Faithful (scheme sha1) among (rs.foldl (index sha1) db).shown := by
    intro rs
    induction rs with
    | nil => exact fun db hs hf _ => ⟨hs, hf⟩
    | cons r' rs ih =>
      intro db hs hf hmem
      obtain ⟨hr', hrs⟩ := List.forall_mem_cons.mp hmem
      refine ih _ (index_sound hs) ?_ hrs
      by_cases hstop' : r'.stop = .files
      · simpa only [index, hstop'] using hf
      · rw [index_shown hseparates hr' hf hstop']
        exact faithful_anew hseparates hr'
  intro after
  obtain ⟨hrs, hr⟩ := List.forall_mem_append.mp hmem
  obtain ⟨hs, hf⟩ := hrun rs db hsound (hearlier.faithful hsep) hrs
  have hafter : after = index sha1 (rs.foldl (index sha1) db) r := by
    rw [show after = (rs ++ [r]).foldl (index sha1) db from rfl, List.foldl_append,
      List.foldl_cons, List.foldl_nil]
  have hshown := index_shown hseparates (hr r (List.mem_singleton_self r)) hf hstop
  rw [← hafter] at hshown
  have hsound' : after.Sound := hafter ▸ index_sound hs
  refine ⟨hsound', fun path => ⟨?_, ?_⟩⟩
  · have hpath := congrArg (Option.map Prod.fst) (congrFun hshown path)
    simpa [Db.shown, anew, Scheme.entry, scheme, Function.comp_def] using hpath
  · rw [hsound'.chunksOf_eq, hshown, anew, Option.map_map]
    rfl

end

/-- A stand-in for a digest: what begins a text. -/
def paddedDigest : Sha1 where
  hex text := (text ++ List.replicate 40 (cp '0')).take 40
  length_hex text := by simp

/-- A call on a project of one file. -/
def oneFile (data : Bytes) (stop : Stop) : Run ℕ where
  force := false
  model := txt "m"
  extra := []
  cap := 100
  entries := [⟨txt "a.py", false, some 1, true, some data⟩]
  again _ := some data
  hosts := []
  post _ _ _ := .ok []
  stop := stop

/-- A file that changes is indexed anew, also after a call that was rolled back. -/
theorem index_fresh_changed :
    let _ := Pack.Unicode.ascii
    let after := ([oneFile [97] .never, oneFile [98] .files] ++ [oneFile [98] .vectors]).foldl
      (index paddedDigest) Db.empty
    after.files.lookup (txt "a.py") = some (digest paddedDigest (txt "b")) := by
  intro _ after
  have htext (data : Bytes) (stop : Stop) (path text : Str)
      (h : text ∈ (oneFile data stop).text path) : readText 100 (some data) = some text := by
    unfold Run.text at h
    split_ifs at h
    · exact h
    · simp at h
  have hfree : CollisionFree paddedDigest {txt "a", txt "b"} := by
    rintro text (rfl | rfl) text' (rfl | rfl) h
    · rfl
    · exact absurd h (by decide)
    · exact absurd h (by decide)
    · rfl
  have hfresh := (index_fresh paddedDigest {txt "a", txt "b"} hfree Db.empty Db.sound_empty
    (fun path sha h => by simp [Db.empty] at h)
    [oneFile [97] .never, oneFile [98] .files] (oneFile [98] .vectors) (fun r hr path text h => by
      simp only [List.cons_append, List.nil_append, List.mem_cons, List.not_mem_nil, or_false] at hr
      rcases hr with rfl | rfl | rfl
      · have hread := htext _ _ path text h
        rw [show readText 100 (some [97]) = some (txt "a") by decide] at hread
        exact .inl (Option.some.inj hread).symm
      all_goals
        have hread := htext _ _ path text h
        rw [show readText 100 (some [98]) = some (txt "b") by decide] at hread
        exact .inr (Option.some.inj hread).symm) (by decide)).2 (txt "a.py")
  have hnow : (oneFile [98] .vectors).text (txt "a.py") = some (txt "b") := by decide
  rw [hnow] at hfresh
  exact hfresh.1

end AskFable.Index
