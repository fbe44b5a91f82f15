import AskFable.Pack.Verdicts

/-!
# The account of a pack

Every spec has a fate, and bundle, `included` and `skipped` are what the fates say, each spec
in its place. That holds of every call that returns; a call raises when a spec has a range
with a bound of more digits than `int` reads.
-/
namespace AskFable.Pack
open AskFable.Text AskFable.Python

/-! ### Resolution -/

section
variable (resolve : Str → Option (Except Reason Resolved))

/-- The item of a spec and its place. -/
def itemAt (p : Str × ℕ) : Option Item :=
  match resolve (strip p.1) with
  | some (.ok r) => some ⟨p.2, r, strip p.1⟩
  | _ => none

def refusedAt (p : Str × ℕ) : Option Skip :=
  match resolve (strip p.1) with
  | some (.error reason) => some ⟨strip p.1, reason⟩
  | _ => none

theorem resolveAll_eq (idx : ℕ) (specs : List Str) :
    resolveAll resolve idx specs =
      if ∀ spec ∈ specs, (resolve (strip spec)).isSome = true then
        some ((specs.zipIdx idx).filterMap (refusedAt resolve),
          (specs.zipIdx idx).filterMap (itemAt resolve))
      else none := by
  induction specs generalizing idx with
  | nil => rfl
  | cons spec specs ih =>
    rw [resolveAll]
    simp only [ih]
    cases h : resolve (strip spec) with
    | none => simp [h]
    | some r =>
      by_cases hrest : ∀ s ∈ specs, (resolve (strip s)).isSome = true
      · have hall : ∀ s ∈ spec :: specs, (resolve (strip s)).isSome = true :=
          List.forall_mem_cons.mpr ⟨by rw [h]; rfl, hrest⟩
        rw [if_pos hrest, if_pos hall, List.zipIdx_cons]
        cases r <;> simp [refusedAt, itemAt, h]
      · have hall : ¬∀ s ∈ spec :: specs, (resolve (strip s)).isSome = true := fun h =>
          hrest (List.forall_mem_cons.mp h).2
        rw [if_neg hrest, if_neg hall]
        rfl

theorem itemAt_eq_some (p : Str × ℕ) (it : Item) : itemAt resolve p = some it ↔
    resolve (strip p.1) = some (.ok it.resolved) ∧ it.idx = p.2 ∧ it.spec = strip p.1 := by
  obtain ⟨idx, r, spec⟩ := it
  unfold itemAt
  split
  · rename_i r' hr
    simp only [hr, Option.some.injEq, Item.mk.injEq, Except.ok.injEq]
    tauto
  · rename_i hr
    simp only [reduceCtorEq, false_iff]
    exact fun h => hr r h.1

theorem pairwise_zipIdx (specs : List Str) (idx : ℕ) :
    (specs.zipIdx idx).Pairwise fun p q => p.2 < q.2 := by
  rw [← List.pairwise_map (f := Prod.snd), List.zipIdx_map_snd]
  exact List.pairwise_lt_range'

/-- Items come in input order. -/
theorem ordered_items (specs : List Str) (idx : ℕ) :
    Ordered ((specs.zipIdx idx).filterMap (itemAt resolve)) := by
  rw [Ordered, List.pairwise_map, List.pairwise_filterMap]
  refine (pairwise_zipIdx specs idx).imp fun hlt a ha b hb => ?_
  rw [((itemAt_eq_some resolve _ _).mp ha).2.1, ((itemAt_eq_some resolve _ _).mp hb).2.1]
  exact hlt

end

theorem zip_map_zipIdx {β : Type*} (specs : List Str) (idx : ℕ) (f : Str × ℕ → β) :
    specs.zip ((specs.zipIdx idx).map f) = (specs.zipIdx idx).map fun p => (p.1, f p) := by
  induction specs generalizing idx with
  | nil => rfl
  | cons spec specs ih => rw [List.zipIdx_cons, List.map_cons, List.zip_cons_cons, ih, List.map_cons]

/-! ### The account -/

section
variable [Unicode]

/-- What the spec at a place resolves to. -/
def Call.resolvedAt (c : Call) (i : ℕ) : Option Resolved :=
  c.specs[i]?.bind fun spec =>
    match c.resolve (strip spec) with
    | some (.ok r) => some r
    | _ => none

/-- An earlier spec resolves to the same file and range. -/
def Call.Duplicate (c : Call) (i : ℕ) : Prop :=
  ∃ r, c.resolvedAt i = some r ∧ ∃ j < i, ∃ r', c.resolvedAt j = some r' ∧ r'.sig = r.sig

/-- Each spec has one fate, and the result is what the fates say: the blocks that went in
and their entries stand in input order, a refused spec is skipped once, and nothing else is
listed. Duplicates and ranges of an admitted file are exactly the specs that are so. -/
structure Accounts [Host] (c : Call) (p : PackResult) (fates : List Fate) : Prop where
  every : fates.length = c.specs.length
  bundle : p.bundle = joined (txt "\n\n") (fates.filterMap Fate.block?)
  included : p.included = (c.specs.zip fates).filterMap fun sf => sf.2.included? (strip sf.1)
  skipped : p.skipped.Perm ((c.specs.zip fates).filterMap fun sf => sf.2.skipped? (strip sf.1))
  refused : ∀ (i : ℕ) spec reason, c.specs[i]? = some spec →
    c.resolve (strip spec) = some (.error reason) → fates[i]? = some (Fate.skipped reason)
  complete : p.complete = true ↔ ∀ f ∈ fates, ∀ reason, f ≠ .skipped reason
  content : ∀ i r content, fates[i]? = some (.included r content) →
    c.resolvedAt i = some r ∧ ∃ n, c.limits.read r = .ok (content, n)
  duplicate : ∀ i, fates[i]? = some .duplicate ↔ c.Duplicate i
  covered : ∀ i, fates[i]? = some .covered ↔ ¬c.Duplicate i ∧
    ∃ r, c.resolvedAt i = some r ∧ r.range.isSome = true ∧ ∃ (j : ℕ) (w : Resolved) (content : Str),
      fates[j]? = some (Fate.included w content) ∧ w.range = none ∧ w.absPath = r.absPath

variable (c : Call) (fate : Item → Fate)

def fateAt (p : Str × ℕ) : Fate :=
  match c.resolve (strip p.1) with
  | some (.ok r) => fate ⟨p.2, r, strip p.1⟩
  | some (.error reason) => .skipped reason
  | none => .duplicate

def Call.items : List Item := c.specs.zipIdx.filterMap (itemAt c.resolve)

def fates : List Fate := c.specs.zipIdx.map (fateAt c fate)

theorem fates_getElem? (i : ℕ) :
    (fates c fate)[i]? = c.specs[i]?.map fun spec => fateAt c fate (spec, i) := by
  simp [fates, Option.map_map, Function.comp_def]

theorem map_snd_zip_fates : (c.specs.zip (fates c fate)).map Prod.snd = fates c fate :=
  List.map_snd_zip (by simp [fates])

theorem mem_items (it : Item) : it ∈ c.items ↔
    ∃ spec, c.specs[it.idx]? = some spec ∧ c.resolve (strip spec) = some (.ok it.resolved) ∧
      it.spec = strip spec := by
  rw [Call.items, List.mem_filterMap]
  constructor
  · rintro ⟨⟨spec, i⟩, hmem, hitem⟩
    obtain ⟨hr, rfl, hstrip⟩ := (itemAt_eq_some _ _ _).mp hitem
    exact ⟨spec, List.mk_mem_zipIdx_iff_getElem?.mp hmem, hr, hstrip⟩
  · rintro ⟨spec, hspec, hr, hstrip⟩
    exact ⟨(spec, it.idx), List.mk_mem_zipIdx_iff_getElem?.mpr hspec,
      (itemAt_eq_some _ _ _).mpr ⟨hr, rfl, hstrip⟩⟩

/-- An item is what the spec at its place resolves to, and its fate is the fate there. -/
theorem item_fate {it : Item} (hit : it ∈ c.items) :
    c.resolvedAt it.idx = some it.resolved ∧ (fates c fate)[it.idx]? = some (fate it) := by
  obtain ⟨spec, hspec, hr, hstrip⟩ := (mem_items c it).mp hit
  refine ⟨by simp [Call.resolvedAt, hspec, hr], ?_⟩
  obtain ⟨idx, r, spec'⟩ := it
  obtain rfl : spec' = strip spec := hstrip
  rw [fates_getElem?, hspec, Option.map_some]
  simp only [fateAt, hr]

theorem exists_item {i : ℕ} {r : Resolved} (h : c.resolvedAt i = some r) :
    ∃ it ∈ c.items, it.idx = i ∧ it.resolved = r := by
  obtain ⟨spec, hspec, hr⟩ := Option.bind_eq_some_iff.mp h
  split at hr
  · rename_i r' hok
    obtain rfl := Option.some.inj hr
    exact ⟨⟨i, r', strip spec⟩, (mem_items c _).mpr ⟨spec, hspec, hok, rfl⟩, rfl, rfl⟩
  · cases hr

variable (hall : ∀ spec ∈ c.specs, (c.resolve (strip spec)).isSome = true)
include hall

/-- A fate is an item's, or a refusal by the resolution. -/
theorem fates_cases {i : ℕ} {f : Fate} (h : (fates c fate)[i]? = some f) :
    (∃ it ∈ c.items, it.idx = i ∧ f = fate it) ∨ ∃ reason, f = .skipped reason := by
  rw [fates_getElem?] at h
  obtain ⟨spec, hspec, rfl⟩ := Option.map_eq_some_iff.mp h
  obtain ⟨result, hr⟩ := Option.isSome_iff_exists.mp (hall spec (List.mem_of_getElem? hspec))
  cases result with
  | error reason => exact .inr ⟨reason, by simp only [fateAt, hr]⟩
  | ok r =>
    refine .inl ⟨⟨i, r, strip spec⟩, (mem_items c _).mpr ⟨spec, hspec, hr, rfl⟩, rfl, ?_⟩
    simp only [fateAt, hr]

/-- What is read off the items is read off the specs in their places. -/
theorem filterMap_items {β : Type*} {g : Str → Fate → Option β}
    (hg : ∀ spec reason, g spec (.skipped reason) = none) :
    c.items.filterMap (fun it => g it.spec (fate it)) =
      (c.specs.zip (fates c fate)).filterMap fun sf => g (strip sf.1) sf.2 := by
  rw [fates, zip_map_zipIdx, List.filterMap_map, Call.items, List.filterMap_filterMap]
  refine List.filterMap_congr fun p hp => ?_
  have hspec : p.1 ∈ c.specs := List.mem_of_getElem? (List.mem_zipIdx_iff_getElem?.mp hp)
  obtain ⟨result, hr⟩ := Option.isSome_iff_exists.mp (hall p.1 hspec)
  cases result <;> simp [itemAt, fateAt, hr, hg]

omit hall in
/-- The items that are no first ones are the duplicates. -/
theorem isFirst_eq_false {it : Item} (hit : it ∈ c.items) :
    isFirst c.items it = false ↔ c.Duplicate it.idx := by
  rw [← Bool.not_eq_true, isFirst_iff]
  have hr := (item_fate c (fun _ => .duplicate) hit).1
  constructor
  · intro h
    by_contra hnot
    exact h fun j hj hlt hsig => hnot ⟨it.resolved, hr, j.idx, hlt, j.resolved,
      (item_fate c (fun _ => .duplicate) hj).1, hsig⟩
  · rintro ⟨r, hr', j, hlt, r', hj, hsig⟩ hfirst
    obtain rfl := Option.some.inj (hr.symm.trans hr')
    obtain ⟨it', hit', rfl, rfl⟩ := exists_item c hj
    exact hfirst it' hit' hlt hsig

/-- The refusals of the resolution and those of the loop are one refusal for a spec at most. -/
theorem skipped_perm : (c.specs.zipIdx.filterMap (refusedAt c.resolve) ++
    c.items.filterMap fun it => (fate it).skipped? it.spec).Perm
      ((c.specs.zip (fates c fate)).filterMap fun sf => sf.2.skipped? (strip sf.1)) := by
  rw [fates, zip_map_zipIdx, List.filterMap_map, Call.items, List.filterMap_filterMap]
  refine (Sorting.filterMap_append_perm (fun p => ?_) _).trans (List.Perm.of_eq ?_)
  · unfold refusedAt itemAt
    split
    · exact .inr (by simp [*])
    · exact .inl rfl
  · refine List.filterMap_congr fun p hp => ?_
    have hspec : p.1 ∈ c.specs := List.mem_of_getElem? (List.mem_zipIdx_iff_getElem?.mp hp)
    obtain ⟨result, hr⟩ := Option.isSome_iff_exists.mp (hall p.1 hspec)
    cases result <;> simp [refusedAt, itemAt, fateAt, hr, Fate.skipped?]

end

theorem admitted?_block (f : Fate) (it : Item) :
    (f.admitted? it).map Admitted.block = f.block? := by cases f <;> rfl

theorem admitted?_info (f : Fate) (it : Item) :
    (f.admitted? it).map Admitted.info = f.included? it.spec := by cases f <;> rfl

theorem skipped?_eq_none (f : Fate) (spec : Str) :
    f.skipped? spec = none ↔ ∀ reason, f ≠ .skipped reason := by
  cases f <;> simp [Fate.skipped?]

theorem ascending_admitted {items : List Item} (h : Ordered items) (fate : Item → Fate) :
    ((items.filterMap fun it => (fate it).admitted? it).map Admitted.idx).Pairwise (· < ·) := by
  have hidx {it : Item} {a : Admitted} (ha : (fate it).admitted? it = some a) : a.idx = it.idx := by
    simp only [Fate.admitted?, Option.bind_eq_some_iff, Option.map_eq_some_iff] at ha
    obtain ⟨_, -, _, -, rfl⟩ := ha
    rfl
  rw [List.pairwise_map, List.pairwise_filterMap]
  refine (List.pairwise_map.mp h).imp fun hlt a ha b hb => ?_
  rw [hidx ha, hidx hb]
  exact hlt

section
variable [Host] [Unicode] {c : Call} {fate : Item → Fate} {skipped : List Skip} {s : Packing}
  (hall : ∀ spec ∈ c.specs, (c.resolve (strip spec)).isSome = true)
  (hfate : Assigned c.limits c.items skipped s fate)
include hall hfate

/-! ### The fates at a place -/

theorem content_at {i : ℕ} {r : Resolved} {content : Str}
    (hi : (fates c fate)[i]? = some (.included r content)) :
    c.resolvedAt i = some r ∧ ∃ n, c.limits.read r = .ok (content, n) := by
  obtain ⟨it, hit, rfl, hf⟩ | ⟨reason, hf⟩ := fates_cases c fate hall hi
  · obtain ⟨rfl, hread⟩ := hfate.content it r content hf.symm
    exact ⟨(item_fate c fate hit).1, hread⟩
  · cases hf

theorem duplicate_at_iff (i : ℕ) :
    (fates c fate)[i]? = some .duplicate ↔ c.Duplicate i := by
  constructor
  · intro hi
    obtain ⟨it, hit, rfl, hf⟩ | ⟨reason, hf⟩ := fates_cases c fate hall hi
    · exact (isFirst_eq_false c hit).mp ((hfate.duplicate it hit).mp hf.symm)
    · cases hf
  · rintro ⟨r, hr, hearlier⟩
    obtain ⟨it, hit, rfl, rfl⟩ := exists_item c hr
    rw [(item_fate c fate hit).2, (hfate.duplicate it hit).mpr
      ((isFirst_eq_false c hit).mpr ⟨_, hr, hearlier⟩)]

theorem of_covered_at {i : ℕ} (hi : (fates c fate)[i]? = some .covered) :
    ¬c.Duplicate i ∧ ∃ r, c.resolvedAt i = some r ∧ r.range.isSome = true ∧
      ∃ (j : ℕ) (w : Resolved) (content : Str),
        (fates c fate)[j]? = some (Fate.included w content) ∧ w.range = none ∧
          w.absPath = r.absPath := by
  obtain ⟨it, hit, rfl, hf⟩ | ⟨reason, hf⟩ := fates_cases c fate hall hi
  · obtain ⟨hfirst, hrange, w, hw, hwrange, hpath, hinc⟩ := (hfate.covered it hit).mp hf.symm
    refine ⟨fun hdup => ?_, it.resolved, (item_fate c fate hit).1, hrange, ?_⟩
    · rw [(isFirst_eq_false c hit).mpr hdup] at hfirst
      cases hfirst
    · cases hw' : fate w with
      | included r content =>
        obtain ⟨rfl, -⟩ := hfate.content w r content hw'
        exact ⟨w.idx, w.resolved, content, hw' ▸ (item_fate c fate hw).2, hwrange, hpath⟩
      | _ =>
        rw [hw'] at hinc
        cases hinc
  · cases hf

theorem covered_at {i j : ℕ} {r w : Resolved} {content : Str} (hdup : ¬c.Duplicate i)
    (hr : c.resolvedAt i = some r) (hrange : r.range.isSome = true)
    (hj : (fates c fate)[j]? = some (Fate.included w content)) (hwrange : w.range = none)
    (hpath : w.absPath = r.absPath) : (fates c fate)[i]? = some .covered := by
  obtain ⟨it, hit, rfl, rfl⟩ := exists_item c hr
  obtain ⟨it', hit', rfl, hf⟩ | ⟨reason, hf⟩ := fates_cases c fate hall hj
  · obtain ⟨rfl, -⟩ := hfate.content it' w content hf.symm
    rw [(item_fate c fate hit).2, (hfate.covered it hit).mpr ⟨?_, hrange, it', hit', hwrange,
      hpath, hf ▸ rfl⟩]
    by_contra hfirst
    exact hdup ((isFirst_eq_false c hit).mp (by simpa using hfirst))
  · cases hf

end

/-- Whatever its arguments and the files are, a call that returns accounts for every spec. -/
theorem packResolved_accounts [Host] [Unicode] (c : Call)
    (hall : ∀ spec ∈ c.specs, (c.resolve (strip spec)).isSome = true) :
    ∃ fs, Accounts c
      (packResolved c.limits (c.specs.zipIdx.filterMap (refusedAt c.resolve)) c.items) fs := by
  have hordered : Ordered c.items := ordered_items c.resolve c.specs 0
  obtain ⟨fate, hfate⟩ := exists_assigned c.limits hordered
    (c.specs.zipIdx.filterMap (refusedAt c.resolve))
  let s := (order c.items).foldl (consider c.limits (dedupe c.items).held)
    ⟨[], 0, false, c.specs.zipIdx.filterMap (refusedAt c.resolve)⟩
  have hblocks : (c.items.filterMap fun it => (fate it).admitted? it).map Admitted.block =
      (fates c fate).filterMap Fate.block? := by
    rw [List.map_filterMap, ← map_snd_zip_fates c fate, List.filterMap_map]
    exact (List.filterMap_congr fun it _ => admitted?_block (fate it) it).trans
      (filterMap_items c fate hall (g := fun _ f => f.block?) fun _ _ => rfl)
  have hinfos : (c.items.filterMap fun it => (fate it).admitted? it).map Admitted.info =
      (c.specs.zip (fates c fate)).filterMap fun sf => sf.2.included? (strip sf.1) := by
    rw [List.map_filterMap]
    exact (List.filterMap_congr fun it _ => admitted?_info (fate it) it).trans
      (filterMap_items c fate hall (g := fun spec f => f.included? spec) fun _ _ => rfl)
  have hsorted : s.admitted.insertionSort (fun a b => a.idx ≤ b.idx) =
      c.items.filterMap fun it => (fate it).admitted? it :=
    Sorting.insertionSort_eq_of_perm Admitted.idx hfate.admitted (ascending_admitted hordered fate)
  have hskipped : s.skipped.Perm
      ((c.specs.zip (fates c fate)).filterMap fun sf => sf.2.skipped? (strip sf.1)) :=
    hfate.skipped.trans (skipped_perm c fate hall)
  refine ⟨fates c fate, by simp [fates], ?_, ?_, hskipped, fun i spec reason hspec hr => ?_, ?_,
    fun i r content hi => content_at hall hfate hi, duplicate_at_iff hall hfate,
    fun i => ⟨of_covered_at hall hfate, ?_⟩⟩
  · rw [← hblocks, ← hsorted]
    rfl
  · rw [← hinfos, ← hsorted]
    rfl
  · rw [fates_getElem?, hspec, Option.map_some]
    simp only [fateAt, hr]
  · rw [← map_snd_zip_fates c fate, List.forall_mem_map]
    change s.skipped.isEmpty = true ↔ _
    rw [List.isEmpty_iff, ← List.perm_nil, hskipped.congr_left, List.perm_nil,
      List.filterMap_eq_nil_iff]
    exact forall₂_congr fun sf _ => skipped?_eq_none sf.2 _
  · rintro ⟨hdup, r, hr, hrange, j, w, content, hj, hwrange, hpath⟩
    exact covered_at hall hfate hdup hr hrange hj hwrange hpath

theorem isSome_resolve_iff [Unicode] (c : Call) :
    (∀ spec ∈ c.specs, (c.resolve (strip spec)).isSome = true) ↔
      ∀ spec ∈ c.specs, ¬Overlong spec := by
  refine forall₂_congr fun spec _ => ?_
  rw [Option.isSome_iff_ne_none, Call.resolve, Ne, resolveWithin_eq_none, overlong_strip]

/-- `pack` raises when a bound has too many digits. -/
theorem pack_eq_none [Host] [Unicode] {c : Call} {spec : Str} (hspec : spec ∈ c.specs)
    (h : Overlong spec) : pack c = none := by
  have hnot : ¬∀ spec ∈ c.specs, (c.resolve (strip spec)).isSome = true := by
    rw [isSome_resolve_iff]
    exact fun hall => hall spec hspec h
  rw [pack, resolveAll_eq, if_neg hnot, Option.map_none]

/-- A call returns, and accounts for every spec, exactly when no spec has a range with a bound
of more than 4300 digits. -/
theorem pack_accounts_iff [Host] [Unicode] (c : Call) :
    (∃ p, pack c = some p ∧ ∃ fs, Accounts c p fs) ↔ ∀ spec ∈ c.specs, ¬Overlong spec := by
  constructor
  · rintro ⟨p, hp, -⟩ spec hspec hlong
    rw [pack_eq_none hspec hlong] at hp
    cases hp
  · intro h
    have hall := (isSome_resolve_iff c).mpr h
    obtain ⟨fs, hfs⟩ := packResolved_accounts c hall
    refine ⟨_, ?_, fs, hfs⟩
    rw [pack, resolveAll_eq, if_pos hall, Option.map_some]
    rfl

/-- A range that ends at line 99…9, a number of 4301 digits. -/
def farRange : Str := txt "a:1-" ++ List.replicate 4301 (cp '9')

theorem overlong_farRange [Unicode] : Overlong farRange := by
  have hnine : isDecimal (cp '9') = true := by
    have hdigit : isDigit (cp '9') = true := by decide
    simp [isDecimal, hdigit]
  have hone : isDecimal (cp '1') = true := by
    have hdigit : isDigit (cp '1') = true := by decide
    simp [isDecimal, hdigit]
  have hstrip : strip farRange = farRange := by
    have hhead : farRange.dropWhile isSpace = farRange := rfl
    have hlast : farRange = (txt "a:1-" ++ List.replicate 4300 (cp '9')) ++ [cp '9'] := by
      rw [farRange, List.replicate_succ', List.append_assoc]
    rw [strip, hhead, hlast, List.rdropWhile_concat_neg _ _ _ (by decide)]
  refine ⟨txt "a", txt "1", List.replicate 4301 (cp '9'), ⟨?_, ⟨by decide, by decide⟩,
    ⟨by decide, by simpa [txt] using hone⟩, ?_, ?_⟩, Or.inr ?_⟩
  · rw [hstrip]
    rfl
  · exact List.ne_nil_of_length_pos (by rw [List.length_replicate]; omega)
  · exact List.all_eq_true.mpr fun d hd => List.eq_of_mem_replicate hd ▸ hnine
  · rw [List.length_replicate]
    decide

/-- A file system without files. -/
def Fs.empty : Fs := ⟨fun _ => none, fun _ => false, fun _ => none⟩

theorem farRange_unaccounted :
    let : Host := Host.ascii
    let : Unicode := Unicode.ascii
    let c : Call := ⟨[farRange], txt "/r", none, none, [], fun _ => none, Fs.empty⟩
    ¬∃ p, pack c = some p ∧ ∃ fs, Accounts c p fs := by
  intro host unicode c
  rintro ⟨p, hp, -⟩
  rw [pack_eq_none List.mem_cons_self overlong_farRange] at hp
  cases hp

end AskFable.Pack
