import AskFable.Falsify.Invariant

/-!
# A model does not certify its own claims

Two runs of an assertor's turn whose blocks differ only in fields a model may not decide
end in the same ledger. Over a whole run, every receipt that counts as support was put
there by a call that checked it.
-/
namespace AskFable.Falsify
open AskFable.Text AskFable.Python AskFable.Machine Relation

/-! ### Blocks that differ in undecidable fields only -/

/-- The fields of a claim row that a model does not decide, its receipts apart. -/
def HARNESS_FIELDS : List Str :=
  [txt "author", txt "status", txt "kills", txt "attempts", txt "reopens"]

/-- Equal outside the clerk's verdicts. -/
def SameReceipt (x y : Json) : Prop :=
  x = y ∨ ∃ r s, x = .obj r ∧ y = .obj s ∧ Dict.without CLERK_FIELDS r = Dict.without CLERK_FIELDS s

/-- A whole receipt of kind `metamorph`. -/
def IsMetamorph (x : Json) : Prop :=
  ∃ r, x = .obj r ∧ Dict.get r (txt "kind") = some (.str (txt "metamorph"))

/-- Equal but for verdicts and for `metamorph` receipts on either side. -/
inductive SameReceipts : List Json → List Json → Prop
  | nil : SameReceipts [] []
  | cons {x y xs ys} : SameReceipt x y → SameReceipts xs ys → SameReceipts (x :: xs) (y :: ys)
  | left {x xs ys} : IsMetamorph x → SameReceipts xs ys → SameReceipts (x :: xs) ys
  | right {y xs ys} : IsMetamorph y → SameReceipts xs ys → SameReceipts xs (y :: ys)

/-- The elements of a list-valued field; anything else holds none. -/
def elements : Option Json → List Json
  | some (.arr xs) => xs
  | _ => []

structure SameRow (r s : Dict) : Prop where
  fields : ∀ k, k ∉ HARNESS_FIELDS → k ≠ txt "receipts" → Dict.get r k = Dict.get s k
  receipts : SameReceipts (elements (Dict.get r (txt "receipts")))
    (elements (Dict.get s (txt "receipts")))

def SameEntry (x y : Json) : Prop :=
  x = y ∨ ∃ r s, x = .obj r ∧ y = .obj s ∧ SameRow r s

/-- Two assertor blocks that differ only in what a model may not decide. -/
def SameBlock (b b' : Option Json) : Prop :=
  b = b' ∨ ∃ items items', b = some (.obj items) ∧ b' = some (.obj items') ∧
    (∀ k, k ≠ txt "claims" → Dict.get items k = Dict.get items' k) ∧
    List.Forall₂ SameEntry (elements (Dict.get items (txt "claims")))
      (elements (Dict.get items' (txt "claims")))

/-! ### Scrubbing forgets the difference -/

theorem dictRows_eq (x : Option Json) : dictRows x = (elements x).filterMap Json.asDict := by
  cases x with
  | none => rfl
  | some x => cases x <;> rfl

/-- What `scrub_receipts` makes of one entry. -/
def scrubReceipt (x : Json) : Option Dict :=
  x.asDict.bind fun r =>
    if Dict.getIs r (txt "kind") (txt "metamorph") then none
    else some (Dict.without CLERK_FIELDS r)

theorem scrubReceipts_eq (x : Option Json) :
    scrubReceipts x = (elements x).filterMap scrubReceipt := by
  have hmap (xs : List Json) : (xs.filterMap Json.asDict).filterMap (fun r =>
      if Dict.getIs r (txt "kind") (txt "metamorph") then none
      else some (Dict.without CLERK_FIELDS r)) = xs.filterMap scrubReceipt := by
    rw [List.filterMap_filterMap]
    rfl
  cases x with
  | none => rfl
  | some x =>
    cases x <;> first | rfl | exact hmap _

theorem scrubReceipt_metamorph {x : Json} (h : IsMetamorph x) : scrubReceipt x = none := by
  obtain ⟨r, rfl, hk⟩ := h
  rw [← Dict.getIs_iff] at hk
  simp [scrubReceipt, Json.asDict, hk]

theorem scrubReceipt_same {x y : Json} (h : SameReceipt x y) : scrubReceipt x = scrubReceipt y := by
  rcases h with rfl | ⟨r, s, rfl, rfl, hrs⟩
  · rfl
  · have hk : txt "kind" ∉ CLERK_FIELDS := by decide
    have hkind : Dict.getIs r (txt "kind") (txt "metamorph") =
        Dict.getIs s (txt "kind") (txt "metamorph") := by
      rw [← getIs_without hk, hrs, getIs_without hk]
    simp [scrubReceipt, Json.asDict, hkind, hrs]

theorem SameReceipts.scrub {xs ys : List Json} (h : SameReceipts xs ys) :
    xs.filterMap scrubReceipt = ys.filterMap scrubReceipt := by
  induction h with
  | nil => rfl
  | cons hxy _ ih => simp only [List.filterMap_cons, scrubReceipt_same hxy, ih]
  | left hx _ ih => simp only [List.filterMap_cons, scrubReceipt_metamorph hx, ih]
  | right hy _ ih => simp only [List.filterMap_cons, scrubReceipt_metamorph hy, ih]

/-- The fields that registration reads from a stamped row. -/
def READ_FIELDS : List Str :=
  [txt "id", txt "author", txt "domain", txt "claim", txt "receipts"]

def SameStamped (r s : Dict) : Prop := ∀ k ∈ READ_FIELDS, Dict.get r k = Dict.get s k

theorem SameRow.stamp {r s : Dict} (h : SameRow r s) (author : Str) :
    SameStamped (stamp author r) (stamp author s) := by
  have hreceipts : scrubReceipts (Dict.get r (txt "receipts")) =
      scrubReceipts (Dict.get s (txt "receipts")) := by
    rw [scrubReceipts_eq, scrubReceipts_eq, h.receipts.scrub]
  have hne : txt "author" ≠ txt "receipts" := by decide
  intro k hk
  simp only [Falsify.stamp, Dict.get_set_ne _ _ hne, hreceipts, Dict.get_set]
  split_ifs with hrec hauthor
  · rfl
  · rfl
  · refine h.fields k ?_ (Ne.symm hrec)
    simp only [READ_FIELDS, List.mem_cons, List.not_mem_nil, or_false] at hk
    rcases hk with rfl | rfl | rfl | rfl | rfl
    · decide
    · exact absurd rfl hauthor
    · decide
    · decide
    · exact absurd rfl hrec

section
variable [Host]

theorem SameStamped.text {r s : Dict} (h : SameStamped r s) {k : Str} (hk : k ∈ READ_FIELDS) :
    Dict.text r k = Dict.text s k := by
  simp only [Dict.text, Dict.getOr, h k hk]

theorem SameStamped.normalizeClaim {r s : Dict} (h : SameStamped r s) :
    Falsify.normalizeClaim r = Falsify.normalizeClaim s := by
  have hdomain : Dict.getOr r (txt "domain") (.str (txt "general")) =
      Dict.getOr s (txt "domain") (.str (txt "general")) := by
    simp only [Dict.getOr, h (txt "domain") (by decide)]
  have hid : Dict.text r (txt "id") = Dict.text s (txt "id") := h.text (by decide)
  have hclaim : Dict.text r (txt "claim") = Dict.text s (txt "claim") := h.text (by decide)
  have hauthor : Dict.text r (txt "author") = Dict.text s (txt "author") := h.text (by decide)
  simp only [Falsify.normalizeClaim, hid, hclaim, hauthor, hdomain,
    h (txt "receipts") (by decide)]

theorem SameStamped.noReassert {r s : Dict} (h : SameStamped r s) (led : Ledger) :
    Falsify.noReassert led r = Falsify.noReassert led s := by
  have hid : Dict.text r (txt "id") = Dict.text s (txt "id") := h.text (by decide)
  simp only [Falsify.noReassert, addressesKill, hid, h (txt "receipts") (by decide)]

/-- Only the rejected rows may tell the two runs apart. -/
theorem applyAsserts_same {raws raws' : List Dict} (h : List.Forall₂ SameStamped raws raws')
    (led : Ledger) (accepted : List Str) (rejected rejected' : List Dict) :
    (raws.foldl applyAssert (led, accepted, rejected)).1 =
        (raws'.foldl applyAssert (led, accepted, rejected')).1 ∧
      (raws.foldl applyAssert (led, accepted, rejected)).2.1 =
        (raws'.foldl applyAssert (led, accepted, rejected')).2.1 := by
  induction h generalizing led accepted rejected rejected' with
  | nil => exact ⟨rfl, rfl⟩
  | cons hrs _ ih =>
    rw [List.foldl_cons, List.foldl_cons]
    simp only [applyAssert, hrs.noReassert, hrs.normalizeClaim]
    split_ifs
    · exact ih _ _ _ _
    · split
      · exact ih _ _ _ _
      · split_ifs <;> exact ih _ _ _ _

omit [Host] in
theorem SameEntry.rows {xs ys : List Json} (h : List.Forall₂ SameEntry xs ys) (author : Str) :
    List.Forall₂ SameStamped ((xs.filterMap Json.asDict).map (stamp author))
      ((ys.filterMap Json.asDict).map (stamp author)) := by
  induction h with
  | nil => exact .nil
  | @cons x y xs ys hxy _ ih =>
    rcases hxy with rfl | ⟨r, s, rfl, rfl, hrs⟩
    · cases hx : x.asDict with
      | none => simpa only [List.filterMap_cons, hx] using ih
      | some r =>
        simp only [List.filterMap_cons, hx, List.map_cons]
        exact .cons (fun _ _ => rfl) ih
    · simp only [List.filterMap_cons, Json.asDict, List.map_cons]
      exact .cons (hrs.stamp author) ih

omit [Host] in
theorem SameBlock.rows {b b' : Option Json} (h : SameBlock b b') (author : Str) :
    List.Forall₂ SameStamped (assertedRows b author) (assertedRows b' author) := by
  rcases h with rfl | ⟨items, items', rfl, rfl, -, hrows⟩
  · exact List.forall₂_same.mpr fun _ _ _ _ => rfl
  · simp only [assertedRows, turnRows, dictRows_eq]
    exact SameEntry.rows hrows author

theorem clerkAsserts_same {b b' : Option Json} (h : SameBlock b b') (led : Ledger)
    (author corpus : Str) (gate : Bool) (box : Sandbox) :
    (clerkAsserts led b author corpus gate box).1 =
      (clerkAsserts led b' author corpus gate box).1 := by
  obtain ⟨hled, hacc⟩ := applyAsserts_same (h.rows author) led [] [] []
  exact congrArg₂ (fun led' accepted => verifyAccepted led corpus gate box accepted led') hled hacc

/-! ### Support over a run -/

theorem ClaimStep.extended {call : Call} {c c' : Claim} (h : ClaimStep call c c') :
    Extended (Checked call) c c' := by
  cases call with
  | asserts block author corpus gate box => exact Reasserted.extended h
  | metamorph m => exact h.1
  | attacks block killer corpus roundNo gate box => exact Struck.extended h _
  | resolve =>
    subst h
    unfold Claim.settle
    split_ifs <;> exact ⟨rfl, rfl, rfl, rfl, [], (List.append_nil _).symm, by simp⟩
  | credit before => exact h ▸ .refl _ c
  | mark round status => exact h ▸ .refl _ c

theorem ClaimBirth.checked {call : Call} {c : Claim} (h : ClaimBirth call c) :
    ∀ r ∈ c.receipts, Checked call r := by
  cases call with
  | asserts block author corpus gate box => exact h.receipts
  | attacks block killer corpus roundNo gate box =>
    obtain ⟨c₀, hborn, hs⟩ := h
    obtain ⟨rs, hrs, hP⟩ :=
      (hs.extended (Checked (.attacks block killer corpus roundNo gate box))).receipts
    intro r hr
    rw [hrs] at hr
    rcases List.mem_append.mp hr with hr | hr
    · exact hborn.receipts r hr
    · exact hP r hr
  | metamorph | resolve | credit | mark => exact h.elim

/-- The claim `cid` holds receipt `r` at position `i`. -/
def HoldsAt (led : Ledger) (cid : Str) (i : ℕ) (r : Dict) : Prop :=
  ∃ c ∈ led.claims, c.id = cid ∧ c.receipts[i]? = some r

/-- A receipt that a call puts in the ledger counts as support only if the call
checked it. -/
theorem step_checked {led : Ledger} (hled : led.Sound) {call : Call} {cid : Str} {i : ℕ}
    {r : Dict} (hbefore : ¬HoldsAt led cid i r) (hafter : HoldsAt (step led call) cid i r) :
    Checked call r := by
  obtain ⟨c', hc', rfl, hr⟩ := hafter
  rcases (step_evolves hled.nodup call).origin c' hc' with ⟨c, hc, hid, hs⟩ | ⟨-, hborn⟩
  · obtain ⟨rs, hrs, hP⟩ := hs.extended.receipts
    by_cases hi : i < c.receipts.length
    · rw [hrs, List.getElem?_append_left hi] at hr
      exact absurd ⟨c, hc, hid.symm, hr⟩ hbefore
    · rw [hrs, List.getElem?_append_right (by omega)] at hr
      exact hP r (List.mem_of_getElem? hr)
  · exact hborn.checked r (List.mem_of_getElem? hr)

/-- Two assertor blocks that differ in undecidable fields only leave the same ledger, and
every supporting receipt of a reachable ledger was added by a call that checked it. -/
theorem no_self_certification :
    (∀ (led : Ledger) (b b' : Option Json) (author corpus : Str) (gate : Bool) (box : Sandbox),
      SameBlock b b' → (clerkAsserts led b author corpus gate box).1 =
        (clerkAsserts led b' author corpus gate box).1) ∧
    ∀ (session : Str) (calls : List Call), ∀ c ∈ (calls.foldl step (newLedger session)).claims,
      ∀ i r, c.receipts[i]? = some r → supporting r = true →
        ∃ pre call post, calls = pre ++ call :: post ∧
          ¬HoldsAt (pre.foldl step (newLedger session)) c.id i r ∧
          HoldsAt (step (pre.foldl step (newLedger session)) call) c.id i r ∧
          Justifies call r := by
  refine ⟨fun led b b' author corpus gate box h => clerkAsserts_same h led author corpus gate box,
    fun session calls c hc i r hr hsup => ?_⟩
  have hstart : ¬HoldsAt (newLedger session) c.id i r := by
    rintro ⟨c₀, hc₀, -⟩
    exact absurd hc₀ (by simp [newLedger])
  have hend : HoldsAt (calls.foldl step (newLedger session)) c.id i r := ⟨c, hc, rfl, hr⟩
  obtain ⟨pre, call, post, heq, hbefore, hafter⟩ := exists_establishing_step
    (P := fun led => HoldsAt led c.id i r) step hstart hend
  exact ⟨pre, call, post, heq, hbefore, hafter,
    step_checked (run_sound session pre) hbefore hafter hsup⟩

end

end AskFable.Falsify
