import AskFable.Review.Metrics

/-!
# The spelling of a receipt's kind

The executor and the classifier read the kind without its case and the whitespace around it; the
cite check they lean on compares it as it stands. Where that makes a difference is said here.
-/
namespace AskFable.Review
open AskFable.Text AskFable.Python AskFable.Extract AskFable.Falsify

/-- The objection with the kind of its receipt replaced. -/
def respell (obj receipt : Dict) (kind : Str) : Dict :=
  Dict.set obj (txt "receipt") (.obj (Dict.set receipt (txt "kind") (.str kind)))

/-- `str.lower`, of which is used that only letters of ASCII become `run` and `cite`. -/
structure Lowers (low : Str → Str) : Prop where
  run : ∀ s, low s = txt "run" ↔ lower s = txt "run"
  cite : ∀ s, low s = txt "cite" ↔ lower s = txt "cite"

section
variable [Host]

/-- `_execute` hands the code of the objection to the sandbox. -/
def Execution.tries (x : Execution) (i : ℕ) (obj : Dict) : Bool :=
  (receiptOf obj).any fun receipt =>
    kindOf receipt = txt "run" && x.submits i (Dict.text receipt (txt "code"))

/-- The quote stands in the corpus and is more than noise, and it is worth more there than in the
draft. -/
def Counts (receipt : Dict) (draft corpus : Str) : Prop :=
  let quote := Dict.text receipt (txt "quote")
  MIN_QUOTE_CHARS ≤ (strip quote).length ∧ contains corpus quote = true ∧
    (isCitable quote corpus = true ∨ contains draft (strip quote) = true)

/-- Of two spellings of `cite` one is the exact one, and the quote counts. -/
def Misread (receipt : Dict) (kind kind' draft corpus : Str) : Prop :=
  lower (strip kind) = txt "cite" ∧ (kind = txt "cite" ↔ kind' ≠ txt "cite") ∧
    Counts receipt draft corpus

/-! ### What is read of a receipt -/

theorem kindOf_of_str {receipt : Dict} {kind : Str}
    (h : Dict.get receipt (txt "kind") = some (.str kind)) :
    kindOf receipt = lower (strip kind) := by
  cases kind with
  | nil => simp [kindOf, Dict.text, Dict.getOr, h, Json.truthy, Json.pyStr]
  | cons c s => simp [kindOf, Dict.text, Dict.getOr, h, Json.truthy, Json.pyStr]

/-- The class of a receipt. -/
def classOf (receipt : Dict) (draft corpus : Str) : ReceiptClass :=
  if kindOf receipt = txt "run" then classifyRun receipt
  else if kindOf receipt = txt "cite" then classifyCite receipt draft corpus
  else .noObjection

theorem classify_eq_classOf {obj receipt : Dict} (h : receiptOf obj = some receipt)
    (draft corpus : Str) : classify obj draft corpus = classOf receipt draft corpus := by
  rw [classify, h, classOf]

theorem classify_executeItem {obj receipt : Dict} (h : receiptOf obj = some receipt)
    (x : Execution) (i : ℕ) (draft corpus : Str) :
    classify (executeItem x i obj) draft corpus = classOf (x.stamped i receipt) draft corpus := by
  refine classify_eq_classOf ?_ draft corpus
  rw [receiptOf_executeItem, h, Option.map_some]

/-- Support is worth something only to a quote that counts. -/
theorem classifyCite_eq_iff {r s : Dict} {draft corpus : Str}
    (hquote : Dict.text r (txt "quote") = Dict.text s (txt "quote"))
    (hr : Dict.getIs r (txt "kind") (txt "cite") = true)
    (hs : Dict.getIs s (txt "kind") (txt "cite") = false) :
    classifyCite r draft corpus = classifyCite s draft corpus ↔ ¬Counts s draft corpus := by
  unfold classifyCite Counts
  simp only [hquote, citeSupported, hr, hs, Bool.true_and, Bool.false_and, Bool.false_eq_true,
    if_false]
  generalize Dict.text s (txt "quote") = quote
  by_cases hshort : (strip quote).length < MIN_QUOTE_CHARS
  · simp [hshort]
  · have hlong := Nat.le_of_not_lt hshort
    have hnonempty : quote.isEmpty = false := by
      cases quote with
      | nil => simp [strip, MIN_QUOTE_CHARS] at hlong
      | cons c q => rfl
    simp only [hshort, if_false, hlong, true_and, hnonempty, Bool.not_false, Bool.true_and]
    by_cases hcorpus : contains corpus quote = true
    · by_cases hcitable : isCitable quote corpus = true <;>
        by_cases hdraft : contains draft (strip quote) = true <;> simp [hcorpus, hcitable, hdraft]
    · simp [hcorpus]

omit [Host] in
theorem getIs_cite {receipt : Dict} {kind : Str}
    (h : Dict.get receipt (txt "kind") = some (.str kind)) :
    Dict.getIs receipt (txt "kind") (txt "cite") = true ↔ kind = txt "cite" := by
  rw [Dict.getIs_iff, h]
  simp

theorem classifyCite_respelled_iff {r s : Dict} {kind kind' draft corpus : Str}
    (hquote : Dict.text r (txt "quote") = Dict.text s (txt "quote"))
    (hr : Dict.get r (txt "kind") = some (.str kind))
    (hs : Dict.get s (txt "kind") = some (.str kind')) :
    classifyCite r draft corpus = classifyCite s draft corpus ↔
      ¬((kind = txt "cite" ↔ kind' ≠ txt "cite") ∧ Counts r draft corpus) := by
  have hcounts : Counts s draft corpus ↔ Counts r draft corpus := by simp only [Counts, hquote]
  have hexact := getIs_cite hr
  have hexact' := getIs_cite hs
  by_cases hkind : kind = txt "cite" <;> by_cases hkind' : kind' = txt "cite"
  · have hsame : classifyCite r draft corpus = classifyCite s draft corpus := by
      simp only [classifyCite, citeSupported, hquote, hexact.mpr hkind, hexact'.mpr hkind']
    simp [hsame, hkind, hkind']
  · rw [classifyCite_eq_iff hquote (hexact.mpr hkind) (by simpa using mt hexact'.mp hkind'), hcounts]
    simp [hkind, hkind']
  · rw [eq_comm, classifyCite_eq_iff hquote.symm (hexact'.mpr hkind')
      (by simpa using mt hexact.mp hkind)]
    simp [hkind, hkind']
  · have hoff : Dict.getIs r (txt "kind") (txt "cite") = false := by simpa using mt hexact.mp hkind
    have hoff' : Dict.getIs s (txt "kind") (txt "cite") = false := by
      simpa using mt hexact'.mp hkind'
    have hsame : classifyCite r draft corpus = classifyCite s draft corpus := by
      simp only [classifyCite, citeSupported, hquote, hoff, hoff']
    simp [hsame, hkind, hkind']

/-- Respelling the kind of a receipt, in case or surrounding whitespace, changes neither whether
its code runs nor its class, before or after the run, exactly when no cite whose quote counts
gains or loses the exact spelling. -/
theorem kinds_read_alike_iff {low : Str → Str} (hlow : Lowers low) {obj receipt : Dict}
    (hreceipt : receiptOf obj = some receipt) {kind kind' : Str}
    (hkind : Dict.get receipt (txt "kind") = some (.str kind))
    (halike : low (strip kind) = low (strip kind')) (draft corpus : Str) :
    (∀ (x : Execution) (i : ℕ),
        x.tries i obj = x.tries i (respell obj receipt kind') ∧
        classify (executeItem x i obj) draft corpus =
          classify (executeItem x i (respell obj receipt kind')) draft corpus) ∧
      classify obj draft corpus = classify (respell obj receipt kind') draft corpus ↔
    ¬Misread receipt kind kind' draft corpus := by
  have hreceipt' : receiptOf (respell obj receipt kind') =
      some (Dict.set receipt (txt "kind") (.str kind')) := receiptOf_set _ _
  have hkind' : Dict.get (Dict.set receipt (txt "kind") (.str kind')) (txt "kind") =
      some (.str kind') := Dict.get_set_self _ _ _
  generalize respell obj receipt kind' = obj' at hreceipt' ⊢
  have htext {k : Str} (hk : txt "kind" ≠ k) :
      Dict.text (Dict.set receipt (txt "kind") (.str kind')) k = Dict.text receipt k :=
    Dict.text_set_ne _ _ hk
  have hgetIs {k s : Str} (hk : txt "kind" ≠ k) :
      Dict.getIs (Dict.set receipt (txt "kind") (.str kind')) k s = Dict.getIs receipt k s :=
    Dict.getIs_set_ne _ _ hk _
  generalize Dict.set receipt (txt "kind") (.str kind') = receipt' at *
  have hread := kindOf_of_str hkind
  have hread' := kindOf_of_str hkind'
  have hrun : kindOf receipt' = txt "run" ↔ kindOf receipt = txt "run" := by
    rw [hread, hread', ← hlow.run, ← hlow.run, halike]
  have hcite : kindOf receipt' = txt "cite" ↔ kindOf receipt = txt "cite" := by
    rw [hread, hread', ← hlow.cite, ← hlow.cite, halike]
  have hcode := htext (k := txt "code") (by decide)
  have htries (x : Execution) (i : ℕ) : x.tries i obj = x.tries i obj' := by
    simp only [Execution.tries, hreceipt, hreceipt', Option.any_some, hrun, hcode]
  simp only [classify_executeItem hreceipt, classify_executeItem hreceipt', htries, true_and,
    classify_eq_classOf hreceipt, classify_eq_classOf hreceipt']
  by_cases hisrun : kindOf receipt = txt "run"
  · have hnot : ¬Misread receipt kind kind' draft corpus := by
      rintro ⟨hcites, -⟩
      rw [← hread, hisrun] at hcites
      exact absurd hcites (by decide)
    refine iff_of_true ⟨fun x i => ?_, ?_⟩ hnot
    · simp only [classOf, Execution.stamped, hisrun, hrun.mpr hisrun, if_true, kindOf_stamped,
        classifyRun, Dict.getIs, Dict.get_set_self, hcode]
    · simp only [classOf, if_pos hisrun, if_pos (hrun.mpr hisrun), classifyRun,
        hgetIs (k := txt "clerk_verdict") (by decide)]
  · have hisrun' : ¬kindOf receipt' = txt "run" := mt hrun.mp hisrun
    simp only [Execution.stamped, if_neg hisrun, if_neg hisrun', classOf]
    by_cases hiscite : kindOf receipt = txt "cite"
    · simp only [if_pos hiscite, if_pos (hcite.mpr hiscite)]
      rw [and_iff_right_of_imp fun h _ _ => h,
        classifyCite_respelled_iff (htext (by decide)).symm hkind hkind', Misread, ← hread]
      simp [hiscite]
    · have hnot : ¬Misread receipt kind kind' draft corpus := fun h => hiscite (hread.trans h.1)
      simp [hiscite, mt hcite.mp hiscite, hnot]

end

/-- One objection that cites. -/
def citing (kind quote : String) : Dict :=
  [(txt "receipt", .obj [(txt "kind", .str (txt kind)), (txt "quote", .str (txt quote))])]

/-- A quote that is not in the corpus. -/
theorem kinds_read_alike_unsupported :
    let : Host := Host.ascii
    classify (citing "cite" "not there") [] [] =
      classify (respell (citing "cite" "not there")
        [(txt "kind", .str (txt "cite")), (txt "quote", .str (txt "not there"))] (txt " CITE"))
        [] [] :=
  let _ : Host := Host.ascii
  ((@kinds_read_alike_iff _ lower ⟨fun _ => Iff.rfl, fun _ => Iff.rfl⟩
    (citing "cite" "not there")
    [(txt "kind", .str (txt "cite")), (txt "quote", .str (txt "not there"))] rfl
    (txt "cite") (txt " CITE") rfl (by decide) [] []).mpr
      (fun h => absurd h.2.2.2.1 (by decide))).2

/-- `Cite` instead of `cite` loses the support of the corpus. -/
theorem capital_cite_unbacked :
    let : Host := Host.ascii
    ¬∀ (obj receipt : Dict) (kind kind' draft corpus : Str), receiptOf obj = some receipt →
      Dict.get receipt (txt "kind") = some (.str kind) →
      lower (strip kind) = lower (strip kind') →
        classify obj draft corpus = classify (respell obj receipt kind') draft corpus := by
  intro host h
  have hsame := h (citing "cite" "a line of the source, word for word")
    [(txt "kind", .str (txt "cite")), (txt "quote", .str (txt "a line of the source, word for word"))]
    (txt "cite") (txt "Cite") [] (txt "a line of the source, word for word") rfl rfl (by decide)
  exact absurd hsame (by decide +kernel)

end AskFable.Review
