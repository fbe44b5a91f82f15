import AskFable.Review.Metrics
import AskFable.General.Fallible

/-!
# The reviewer cannot certify itself

Two turns whose objections differ in nothing but the fields only the clerk may write are
the same review, and the backed classes are given for what this call established: a check
it ran, or a quote of the caller's own context.
-/
namespace AskFable.Review
open AskFable.Text AskFable.Python AskFable.Extract
open AskFable.Falsify hiding CLERK_FIELDS
open AskFable.Extract.Verify (CLERK_FIELDS scrubItem scrub)

/-! ### Reading alike -/

/-- The same value under every key. -/
def Same (d e : Dict) : Prop := ∀ k, Dict.get d k = Dict.get e k

/-- Two objections that differ at most in fields only the clerk may write, at their own
level or in the receipt. -/
structure SameFinding (d e : Dict) : Prop where
  fields : ∀ k ∉ CLERK_FIELDS, k ≠ txt "receipt" → Dict.get d k = Dict.get e k
  receipt : Option.Rel (fun r s => ∀ k ∉ CLERK_FIELDS, Dict.get r k = Dict.get s k)
    (receiptOf d) (receiptOf e)

/-- Two entries of the raw list: the same value, or two such objections. -/
inductive SameEntry : Json → Json → Prop
  | same (v : Json) : SameEntry v v
  | finding {d e : Dict} (h : SameFinding d e) : SameEntry (.obj d) (.obj e)

/-- Nothing tells the two objections apart. -/
structure Alike (d e : Dict) : Prop where
  fields : ∀ k, k ≠ txt "receipt" → Dict.get d k = Dict.get e k
  receipt : Option.Rel Same (receiptOf d) (receiptOf e)

theorem receiptOf_scrubItem (d : Dict) :
    receiptOf (scrubItem d) = (receiptOf d).map (Dict.without CLERK_FIELDS) := by
  have hkey : txt "receipt" ∉ CLERK_FIELDS := by decide
  have hget := Dict.get_without CLERK_FIELDS d (txt "receipt")
  rw [if_neg hkey] at hget
  cases h : receiptOf d with
  | none =>
    have hitem : scrubItem d = Dict.without CLERK_FIELDS d := by
      unfold receiptOf at h
      unfold scrubItem
      simp only [hget]
      split at h <;> simp_all
    rw [hitem, Option.map_none]
    unfold receiptOf at h ⊢
    rw [hget]
    exact h
  | some r =>
    have hr := receiptOf_eq.mp h
    rw [hr] at hget
    simp only [scrubItem, hget]
    exact receiptOf_set _ _

theorem get_scrubItem (d : Dict) {k : Str} (hk : k ≠ txt "receipt") :
    Dict.get (scrubItem d) k = if k ∈ CLERK_FIELDS then none else Dict.get d k := by
  rw [← Dict.get_without]
  unfold scrubItem
  dsimp only
  split
  · exact Dict.get_set_ne _ _ hk.symm
  · rfl

/-- Scrubbing removes the difference. -/
theorem SameFinding.scrubbed {d e : Dict} (h : SameFinding d e) :
    Alike (scrubItem d) (scrubItem e) := by
  refine ⟨fun k hk => ?_, ?_⟩
  · rw [get_scrubItem d hk, get_scrubItem e hk]
    split_ifs with hc
    · rfl
    · exact h.fields k hc hk
  · rw [receiptOf_scrubItem, receiptOf_scrubItem]
    have hrel := h.receipt
    generalize receiptOf d = r, receiptOf e = s at hrel
    cases hrel with
    | none => exact .none
    | some hr =>
      refine .some fun k => ?_
      rw [Dict.get_without, Dict.get_without]
      split_ifs with hc
      · rfl
      · exact hr k hc

theorem Alike.refl (d : Dict) : Alike d d := by
  refine ⟨fun _ _ => rfl, ?_⟩
  cases receiptOf d with
  | none => exact .none
  | some r => exact .some fun _ => rfl

theorem scrub_alike {raw raw' : List Json} (h : List.Forall₂ SameEntry raw raw') :
    List.Forall₂ Alike (scrub raw) (scrub raw') := by
  unfold scrub
  have hdicts : List.Forall₂ (fun d e => Alike (scrubItem d) (scrubItem e))
      ((raw.take Extract.Verify.MAX_OBJECTIONS).filterMap Json.asDict)
      ((raw'.take Extract.Verify.MAX_OBJECTIONS).filterMap Json.asDict) := by
    refine List.rel_filterMap (fun v w hvw => ?_) (List.forall₂_take _ h)
    cases hvw with
    | same v =>
      cases v.asDict with
      | none => exact .none
      | some d => exact .some (.refl _)
    | finding hf => exact .some hf.scrubbed
  exact List.forall₂_map_left_iff.mpr (List.forall₂_map_right_iff.mpr hdicts)

theorem forall₂_mapIdx {α β : Type*} {R : α → α → Prop} {S : β → β → Prop} {l l' : List α}
    (h : List.Forall₂ R l l') {f : ℕ → α → β} (hf : ∀ i a b, R a b → S (f i a) (f i b)) :
    List.Forall₂ S (l.mapIdx f) (l'.mapIdx f) := by
  induction h generalizing f with
  | nil => simp
  | cons hab _ ih =>
    rw [List.mapIdx_cons, List.mapIdx_cons]
    exact .cons (hf 0 _ _ hab) (ih fun i a b => hf (i + 1) a b)

section
variable [Host]

theorem Same.text {r s : Dict} (h : Same r s) (k : Str) : Dict.text r k = Dict.text s k := by
  simp only [Dict.text, Dict.getOr, h k]

omit [Host] in
theorem Same.getIs {r s : Dict} (h : Same r s) (k t : Str) : Dict.getIs r k t = Dict.getIs s k t := by
  simp only [Dict.getIs, h k]

theorem Same.kindOf {r s : Dict} (h : Same r s) : kindOf r = Review.kindOf s := by
  simp only [Review.kindOf, h.text]

omit [Host] in
theorem Same.set {r s : Dict} (h : Same r s) (k : Str) (v : Json) :
    Same (Dict.set r k v) (Dict.set s k v) := by
  intro j
  rw [Dict.get_set, Dict.get_set, h j]

theorem Same.stamped {r s : Dict} (h : Same r s) (x : Execution) (i : ℕ) :
    Same (x.stamped i r) (x.stamped i s) := by
  unfold Execution.stamped
  rw [h.kindOf, h.text]
  split_ifs
  · exact h.set _ _
  · exact h

theorem executeItem_alike {d e : Dict} (h : Alike d e) (x : Execution) (i : ℕ) :
    Alike (executeItem x i d) (executeItem x i e) := by
  refine ⟨fun k hk => ?_, ?_⟩
  · rw [get_executeItem x i d hk.symm, get_executeItem x i e hk.symm]
    exact h.fields k hk
  · rw [receiptOf_executeItem, receiptOf_executeItem]
    have hrel := h.receipt
    generalize receiptOf d = r, receiptOf e = s at hrel
    cases hrel with
    | none => exact .none
    | some hr => exact .some (hr.stamped x i)

theorem Same.citeSupported {r s : Dict} (h : Same r s) (corpus : Str) :
    citeSupported r corpus = Falsify.citeSupported s corpus := by
  simp only [Falsify.citeSupported, h.getIs, h.text]

theorem Alike.classify {d e : Dict} (h : Alike d e) (draft corpus : Str) :
    classify d draft corpus = Review.classify e draft corpus := by
  unfold Review.classify
  have hrel := h.receipt
  generalize receiptOf d = r, receiptOf e = s at hrel
  cases hrel with
  | none => rfl
  | some hr =>
    simp only [hr.kindOf, classifyRun, classifyCite, hr.getIs, hr.text, hr.citeSupported]

/-! ### Counting alike -/

omit [Host] in
theorem Alike.hasClass {d e : Dict} (h : Alike d e) (c : ReceiptClass) :
    hasClass c d = Review.hasClass c e := by
  simp only [Review.hasClass, Dict.getIs, h.fields (txt "receipt_class") (by decide)]

theorem Alike.spanOf {d e : Dict} (h : Alike d e) : spanOf d = Review.spanOf e := by
  have hspan := h.fields (txt "span") (by decide)
  have htruthy : Dict.truthy d (txt "span") = Dict.truthy e (txt "span") := by
    simp only [Dict.truthy, hspan]
  have htext : Dict.text d (txt "span") = Dict.text e (txt "span") := by
    simp only [Dict.text, Dict.getOr, hspan]
  rw [Review.spanOf, htruthy, htext, Review.spanOf]

omit [Host] in
theorem countP_alike {l l' : List Dict} (h : List.Forall₂ Alike l l') {p : Dict → Bool}
    (hp : ∀ d e, Alike d e → p d = p e) : l.countP p = l'.countP p := by
  induction h with
  | nil => rfl
  | cons hde _ ih => rw [List.countP_cons, List.countP_cons, ih, hp _ _ hde]

omit [Host] in
theorem any_alike {l l' : List Dict} (h : List.Forall₂ Alike l l') {p : Dict → Bool}
    (hp : ∀ d e, Alike d e → p d = p e) : l.any p = l'.any p := by
  induction h with
  | nil => rfl
  | cons hde _ ih => rw [List.any_cons, List.any_cons, ih, hp _ _ hde]

omit [Host] in
theorem Alike.isBacked {d e : Dict} (h : Alike d e) : isBacked d = Review.isBacked e := by
  simp only [Review.isBacked, h.hasClass]

theorem spans_alike {l l' : List Dict} (h : List.Forall₂ Alike l l') :
    (l.filter isBacked).filterMap spanOf = (l'.filter isBacked).filterMap spanOf := by
  induction h with
  | nil => rfl
  | cons hde _ ih =>
    rw [List.filter_cons, List.filter_cons, hde.isBacked]
    split_ifs
    · rw [List.filterMap_cons, List.filterMap_cons, ih, hde.spanOf]
    · exact ih

omit [Host] in
theorem Alike.set {d e : Dict} (h : Alike d e) {k : Str} (hk : k ≠ txt "receipt") (v : Json) :
    Alike (Dict.set d k v) (Dict.set e k v) := by
  refine ⟨fun j hj => ?_, ?_⟩
  · rw [Dict.get_set, Dict.get_set, h.fields j hj]
  · have hkeep (o : Dict) : receiptOf (Dict.set o k v) = receiptOf o := by
      simp only [receiptOf, Dict.get_set_ne _ _ hk]
    rw [hkeep, hkeep]
    exact h.receipt

theorem report_alike {l l' : List Dict} (h : List.Forall₂ Alike l l') : report l = report l' := by
  have hany (c : ReceiptClass) := any_alike h (p := hasClass c) fun _ _ hde => hde.hasClass c
  have hcount (c : ReceiptClass) := countP_alike h (p := hasClass c) fun _ _ hde => hde.hasClass c
  have hbacked := countP_alike h (p := isBacked) fun _ _ hde => hde.isBacked
  have hnil : l = [] ↔ l' = [] := by
    rw [← List.length_eq_zero_iff, h.length_eq, List.length_eq_zero_iff]
  simp only [report, verdict, selfQuoteRatio, hany, hcount, hnil, h.length_eq, spans_alike h,
    ← List.countP_eq_length_filter, hbacked]

/-! ### The review -/

/-- The raw list a turn's block holds, if there is one block and it holds a list. -/
def parsedObjections (text : Str) : Except JsonText.LoadError (Option (List Json)) :=
  (cut Extract.Verify.MARK text).map fun r =>
    match (single r.2).bind fun o => Dict.get o (txt "objections") with
    | some (.arr raw) => some raw
    | _ => none

theorem objectionsOf_some (text : Str) :
    objectionsOf (some text) = (parsedObjections text).map fun raw => raw.elim [] scrub := by
  have hsome : objectionsOf (some text) = (Extract.Verify.extract text).map fun r => r.2.1 := rfl
  rw [hsome, Extract.Verify.extract, parsedObjections]
  generalize cut Extract.Verify.MARK text = res
  cases res with
  | error e => rfl
  | ok r =>
    simp only [Except.map]
    by_cases hnil : r.2 = []
    · simp [hnil, single]
    · rw [if_neg hnil, Extract.Verify.readBlock]
      dsimp only
      split <;> simp_all

/-- The classes of a review, in order. -/
def classesOf (r : List Dict × Report) : List (Option Json) :=
  r.1.map fun o => Dict.get o (txt "receipt_class")

/-- Reading two turns alike gives the same review. -/
theorem review_alike {t t' : Str} {p p' : Option (List Json)} (ht : parsedObjections t = .ok p)
    (ht' : parsedObjections t' = .ok p') (hp : Option.Rel (List.Forall₂ SameEntry) p p')
    (x : Execution) (draft context : Str) :
    (review x draft context (some t)).map (fun r => (classesOf r, r.2)) =
      (review x draft context (some t')).map fun r => (classesOf r, r.2) := by
  have hscrub : List.Forall₂ Alike (p.elim [] scrub) (p'.elim [] scrub) := by
    cases hp with
    | none => exact .nil
    | some h => exact scrub_alike h
  have hexec := forall₂_mapIdx hscrub fun i _ _ hde => executeItem_alike hde x i
  have hclassed : List.Forall₂ Alike
      ((execute x (p.elim [] scrub)).map fun o =>
        Dict.set o (txt "receipt_class") (.str (classify o draft context).text))
      ((execute x (p'.elim [] scrub)).map fun o =>
        Dict.set o (txt "receipt_class") (.str (classify o draft context).text)) := by
    refine List.forall₂_map_left_iff.mpr (List.forall₂_map_right_iff.mpr (hexec.imp ?_))
    intro d e hde
    rw [hde.classify]
    exact hde.set (by decide) _
  have hclasses : ∀ l l' : List Dict, List.Forall₂ Alike l l' →
      l.map (fun o => Dict.get o (txt "receipt_class")) =
        l'.map fun o => Dict.get o (txt "receipt_class") := by
    intro l l' h
    induction h with
    | nil => rfl
    | cons hde _ ih => rw [List.map_cons, List.map_cons, ih, hde.fields _ (by decide)]
  simp only [review, objectionsOf_some, ht, ht', Except.map, classesOf, report_alike hclassed,
    hclasses _ _ hclassed]

omit [Host] in
theorem hasClass_set (o : Dict) (c d : ReceiptClass) :
    hasClass c (Dict.set o (txt "receipt_class") (.str d.text)) = true ↔ d = c := by
  have htext : d.text = c.text ↔ d = c := by cases c <;> cases d <;> decide
  rw [hasClass, Dict.getIs_iff, Dict.get_set_self, Option.some.injEq, Json.str.injEq, htext]

theorem classify_eq_executed {o : Dict} {draft corpus : Str}
    (h : classify o draft corpus = .executed) :
    ∃ receipt, receiptOf o = some receipt ∧ kindOf receipt = txt "run" ∧
      Dict.get receipt (txt "clerk_verdict") = some (.str (txt "failed")) := by
  unfold classify at h
  cases hr : receiptOf o with
  | none => simp [hr] at h
  | some receipt =>
    simp only [hr] at h
    split_ifs at h with hrun hcite
    · unfold classifyRun at h
      split_ifs at h with hfailed
      exact ⟨receipt, rfl, hrun, Dict.getIs_iff.mp hfailed⟩
    · unfold classifyCite at h
      dsimp only at h
      split_ifs at h

theorem classify_eq_inputGrounded {o : Dict} {draft corpus : Str}
    (h : classify o draft corpus = .inputGrounded) :
    ∃ receipt, receiptOf o = some receipt ∧ kindOf receipt = txt "cite" ∧
      MIN_QUOTE_CHARS ≤ (strip (Dict.text receipt (txt "quote"))).length ∧
      strip (Dict.text receipt (txt "quote")) <:+: corpus ∧
      isCitable (Dict.text receipt (txt "quote")) corpus = true := by
  unfold classify at h
  cases hr : receiptOf o with
  | none => simp [hr] at h
  | some receipt =>
    simp only [hr] at h
    split_ifs at h with hrun hcite
    · unfold classifyRun at h
      split_ifs at h
    · unfold classifyCite at h
      dsimp only at h
      split_ifs at h with hlen hcited hcitable
      have hin : Dict.text receipt (txt "quote") <:+: corpus := by
        simp only [citeSupported, Bool.and_eq_true, contains_iff] at hcited
        exact hcited.2.2
      exact ⟨receipt, rfl, hcite, not_lt.mp hlen, ( strip_infix _).trans hin, hcitable⟩

/-- The clerk's fields change neither classes nor report; `executed` is given for a check
this call ran to a failure, `input-grounded` for a citable quote of the caller's context. -/
theorem review_self_certification (x : Execution) (draft context : Str) :
    (∀ t t' p p', parsedObjections t = .ok p → parsedObjections t' = .ok p' →
      Option.Rel (List.Forall₂ SameEntry) p p' →
      (review x draft context (some t)).map (fun r => (classesOf r, r.2)) =
        (review x draft context (some t')).map fun r => (classesOf r, r.2)) ∧
    ∀ turn r, review x draft context turn = .ok r → ∀ i obj, r.1[i]? = some obj →
      (hasClass .executed obj = true → ∃ receipt, receiptOf obj = some receipt ∧
        kindOf receipt = txt "run" ∧
        x.verdict i (Dict.text receipt (txt "code")) = .failed) ∧
      (hasClass .inputGrounded obj = true → ∃ receipt, receiptOf obj = some receipt ∧
        kindOf receipt = txt "cite" ∧
        MIN_QUOTE_CHARS ≤ (strip (Dict.text receipt (txt "quote"))).length ∧
        strip (Dict.text receipt (txt "quote")) <:+: context ∧
        isCitable (Dict.text receipt (txt "quote")) context = true) := by
  refine ⟨fun t t' p p' ht ht' hp => review_alike ht ht' hp x draft context, ?_⟩
  intro turn r hr i obj hobj
  obtain ⟨objections, -, rfl⟩ := Fallible.map_eq_ok.mp hr
  rw [List.getElem?_map, execute_getElem?, Option.map_map] at hobj
  obtain ⟨item, -, rfl⟩ := Option.map_eq_some_iff.mp hobj
  have hkeep (o : Dict) (v : Json) :
      receiptOf (Dict.set o (txt "receipt_class") v) = receiptOf o := by
    simp only [receiptOf, Dict.get_set_ne _ _ (show txt "receipt_class" ≠ txt "receipt" by decide)]
  simp only [Function.comp_apply, hasClass_set, hkeep]
  refine ⟨fun h => ?_, classify_eq_inputGrounded⟩
  obtain ⟨receipt, hreceipt, hrun, hfailed⟩ := classify_eq_executed h
  refine ⟨receipt, hreceipt, hrun, ?_⟩
  -- the verdict on the receipt was written by this call, over whatever stood there
  rw [receiptOf_executeItem] at hreceipt
  obtain ⟨given, -, rfl⟩ := Option.map_eq_some_iff.mp hreceipt
  unfold Execution.stamped at hrun hfailed ⊢
  split_ifs at hrun hfailed ⊢ with hk
  · rw [Dict.get_set_self, Option.some.injEq, Json.str.injEq] at hfailed
    rw [Dict.text_set_ne _ _ (by decide)]
    revert hfailed
    cases x.verdict i (Dict.text given (txt "code")) <;> decide
  · exact absurd hrun hk

end

end AskFable.Review
