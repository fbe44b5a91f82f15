import AskFable.Falsify.Evolution

/-!
# What an assertor's turn can do

Registering, restating and reopening claims, and the verdicts the clerk writes on the
receipts that came with them. A receipt that reaches the ledger has lost every verdict
its author put on it, so a verdict found there later is one the clerk computed.
-/
namespace AskFable.Falsify
open AskFable.Text AskFable.Python Relation

variable [Host]

/-! ### Assertions -/

theorem normalizeClaim_spec {raw : Dict} {norm : Claim} (h : normalizeClaim raw = some norm) :
    norm.id = strip (Dict.text raw (txt "id")) ∧ norm.id ≠ [] ∧
      norm.receipts = dictRows (Dict.get raw (txt "receipts")) ∧
      norm.status = .open ∧ norm.kills = [] ∧ norm.attempts = 0 ∧ norm.reopens = 0 := by
  simp only [normalizeClaim] at h
  split_ifs at h with hnamed
  rw [← Option.some.inj h]
  exact ⟨rfl, fun hid => hnamed (.inl hid), rfl, rfl, rfl, rfl, rfl⟩

theorem normalizeClaim_newborn {raw : Dict} {norm : Claim} (h : normalizeClaim raw = some norm)
    {P : Dict → Prop} (hP : ∀ r ∈ dictRows (Dict.get raw (txt "receipts")), P r) :
    Newborn P norm := by
  obtain ⟨-, hid, hrs, hs, hk, ha, hr⟩ := normalizeClaim_spec h
  exact ⟨hid, hs, hk, ha, hr, hrs ▸ hP⟩

omit [Host] in
theorem reassert_id (rs : List Dict) (c : Claim) : (c.reassert rs).id = c.id := by
  unfold Claim.reassert
  split_ifs <;> rfl

omit [Host] in
theorem reassert_extended {P : Dict → Prop} {rs : List Dict} (hP : ∀ r ∈ rs, P r) (c : Claim) :
    Extended P c (c.reassert rs) := by
  unfold Claim.reassert
  split_ifs <;> exact ⟨rfl, rfl, rfl, rfl, rs, rfl, hP⟩

/-- An assertion that is not rejected as a re-assert answers the kill. -/
theorem noReassert_false {led : Ledger} {raw : Dict} (h : noReassert led raw = false)
    {c : Claim} (hc : byId led (strip (Dict.text raw (txt "id"))) = some c)
    (hk : c.status = .killed) : c.reopens < MAX_REOPENS ∧ Answers c.id raw := by
  have hid := (mem_of_byId hc).2
  simp only [noReassert, hc, hk, ne_eq, not_true_eq_false, if_false] at h
  split_ifs at h with hr
  rw [ge_iff_le, not_le] at hr
  refine ⟨hr, hid.symm, ?_⟩
  rw [hid]
  simpa using h

theorem applyAssert_evolves {raw : Dict} {P : Dict → Prop}
    (hP : ∀ r ∈ dictRows (Dict.get raw (txt "receipts")), P r)
    (acc : Ledger × List Str × List Dict) (hn : acc.1.ids.Nodup) :
    Evolves (Reasserted [raw] P) (Newborn P) acc.1 (applyAssert acc raw).1 := by
  obtain ⟨led, accepted, rejected⟩ := acc
  have hself : Evolves (Reasserted [raw] P) (Newborn P) led led := .refl (.refl _ _) hn
  simp only [applyAssert]
  cases hre : noReassert led raw with
  | true => exact hself
  | false =>
    cases hnorm : normalizeClaim raw with
    | none => exact hself
    | some norm =>
      obtain ⟨hid, -, hrs, -⟩ := normalizeClaim_spec hnorm
      simp only [Bool.false_eq_true, if_false]
      split_ifs with hex
      · refine evolves_modify hn norm.id (reassert_id norm.receipts) ?_ (.refl _ _)
        intro c hc hcid
        have hby : byId led (strip (Dict.text raw (txt "id"))) = some c := by
          rw [← hid, ← hcid]
          exact byId_of_mem hn hc
        refine ⟨reassert_extended (hrs ▸ hP) c, ?_⟩
        unfold Claim.reassert
        split_ifs with hk
        · obtain ⟨hlt, hans⟩ := noReassert_false hre hby hk
          exact .inr ⟨hk, hlt, ⟨raw, by simp, hans⟩, rfl, rfl, rfl, rfl⟩
        · exact .inl ⟨rfl, rfl, rfl, rfl⟩
      · refine evolves_append hn ?_ (normalizeClaim_newborn hnorm hP) (.refl _ _)
        rw [← byId_eq_none]
        simpa using hex

theorem Reasserted.mono {raws raws' : List Dict} (hsub : ∀ r ∈ raws, r ∈ raws')
    {P : Dict → Prop} {c c' : Claim} (h : Reasserted raws P c c') : Reasserted raws' P c c' := by
  refine ⟨h.extended, h.fate.imp_right fun hf => ?_⟩
  obtain ⟨raw, hraw, hans⟩ := hf.answered
  exact { hf with answered := ⟨raw, hsub raw hraw, hans⟩ }

theorem applyAsserts_evolves {raws : List Dict} {P : Dict → Prop}
    (hP : ∀ raw ∈ raws, ∀ r ∈ dictRows (Dict.get raw (txt "receipts")), P r)
    (acc : Ledger × List Str × List Dict) (hn : acc.1.ids.Nodup) :
    Evolves (Reasserted raws P) (Newborn P) acc.1 (raws.foldl applyAssert acc).1 := by
  induction raws generalizing acc with
  | nil => exact .refl (.refl _ _) hn
  | cons raw raws ih =>
    have h1 := applyAssert_evolves (hP raw (by simp)) acc hn
    have h2 := ih (fun r hr => hP r (by simp [hr])) _ h1.nodup
    refine h1.trans h2 ?_ (fun _ _ hb hr => hb.reasserted hr) fun _ h => h
    exact fun _ _ _ h h' => (h.mono (by simp)).trans (h'.mono fun r hr => by simp [hr])

/-! ### Where support comes from -/

/-- A `cite` whose nonempty quote is a substring of the corpus. -/
def Cited (corpus : Str) (r : Dict) : Prop :=
  Dict.get r (txt "kind") = some (.str (txt "cite")) ∧ Dict.text r (txt "quote") ≠ [] ∧
    Dict.text r (txt "quote") <:+: corpus

/-- A `run` whose code the open gate sent to the sandbox, where it exited 0. -/
def RanClean (gate : Bool) (box : Sandbox) (r : Dict) : Prop :=
  Dict.get r (txt "kind") = some (.str (txt "run")) ∧ gate = true ∧ box.enabled = true ∧
    ∃ place, (box.exec place (Dict.text r (txt "code"))).returncode = some 0 ∧
      (box.exec place (Dict.text r (txt "code"))).timedOut = false

/-- The receipt the clerk wrote for a cold judge that answered TRUE. -/
def JudgedTrue (m : Metamorph) (r : Dict) : Prop :=
  ∃ i para reply, m.judge i para = some reply ∧ parseVerdict reply = .true ∧
    r = metamorphReceipt para .true

/-- Why a call may count a receipt as support. -/
def Justifies : Call → Dict → Prop
  | .asserts _ _ corpus gate box, r => Cited corpus r ∨ RanClean gate box r
  | .attacks _ _ corpus _ _ _, r => Cited corpus r
  | .metamorph m, r => JudgedTrue m r
  | _, _ => False

/-- A receipt of this call supports only for a reason the call checked. -/
def Checked (call : Call) (r : Dict) : Prop := supporting r = true → Justifies call r

/-- No verdict of a model is left on the receipt. -/
def Scrubbed (r : Dict) : Prop :=
  Dict.get r (txt "ok") = none ∧ Dict.getIs r (txt "kind") (txt "metamorph") = false

omit [Host] in
theorem Scrubbed.not_supporting {r : Dict} (h : Scrubbed r) : supporting r = false := by
  simp [supporting, stableMetamorph, Dict.truthy, h.1, h.2]

omit [Host] in
theorem filterMap_asDict_obj (rs : List Dict) :
    (rs.map Json.obj).filterMap Json.asDict = rs := by
  induction rs with
  | nil => rfl
  | cons r rs ih => simp [Json.asDict, ih]

omit [Host] in
theorem stamp_receipts (author : Str) (r : Dict) :
    dictRows (Dict.get (stamp author r) (txt "receipts")) =
      scrubReceipts (Dict.get r (txt "receipts")) := by
  simp only [stamp, Dict.get_set_self, dictRows, filterMap_asDict_obj]
  rw [Dict.get_set_ne _ _ (by decide)]

omit [Host] in
theorem mem_scrubReceipts {x : Option Json} {r : Dict} (h : r ∈ scrubReceipts x) :
    ∃ r₀ ∈ dictRows x, Dict.getIs r₀ (txt "kind") (txt "metamorph") = false ∧
      r = Dict.without CLERK_FIELDS r₀ := by
  cases x with
  | none => simp [scrubReceipts] at h
  | some x =>
    cases x <;> simp only [scrubReceipts, List.not_mem_nil] at h
    obtain ⟨r₀, hr₀, heq⟩ := List.mem_filterMap.mp h
    split_ifs at heq with hm
    exact ⟨r₀, hr₀, by simpa using hm, (Option.some.inj heq).symm⟩

omit [Host] in
theorem getIs_without {r : Dict} {k : Str} (hk : k ∉ CLERK_FIELDS) (s : Str) :
    Dict.getIs (Dict.without CLERK_FIELDS r) k s = Dict.getIs r k s := by
  simp only [Dict.getIs, Dict.get_without, if_neg hk]

theorem text_without {r : Dict} {k : Str} (hk : k ∉ CLERK_FIELDS) :
    Dict.text (Dict.without CLERK_FIELDS r) k = Dict.text r k := by
  simp only [Dict.text, Dict.getOr, Dict.get_without, if_neg hk]

omit [Host] in
theorem scrubReceipts_scrubbed {x : Option Json} {r : Dict} (h : r ∈ scrubReceipts x) :
    Scrubbed r := by
  obtain ⟨r₀, -, hm, rfl⟩ := mem_scrubReceipts h
  exact ⟨by rw [Dict.get_without, if_pos (by decide)], by rw [getIs_without (by decide), hm]⟩

/-- What the stamped claim answers, the model's own row answers. -/
theorem Answers.of_stamp {cid author : Str} {row : Dict} (h : Answers cid (stamp author row)) :
    Answers cid row := by
  have hid : Dict.text (stamp author row) (txt "id") = Dict.text row (txt "id") := by
    simp only [Dict.text, Dict.getOr, stamp]
    rw [Dict.get_set_ne _ _ (by decide), Dict.get_set_ne _ _ (by decide)]
  refine ⟨hid ▸ h.1, ?_⟩
  have haddr := h.2
  simp only [addressesKill, stamp_receipts, List.any_eq_true, beq_iff_eq] at haddr ⊢
  obtain ⟨r, hr, htext⟩ := haddr
  obtain ⟨r₀, hr₀, -, rfl⟩ := mem_scrubReceipts hr
  exact ⟨r₀, hr₀, by rw [← htext, text_without (by decide)]⟩

omit [Host] in
theorem runVerdict_pass {box : Sandbox} {gate : Bool} {place : ℕ × ℕ} {code : Str}
    (h : runVerdict box gate place code = .pass) :
    gate = true ∧ box.enabled = true ∧ (box.exec place code).returncode = some 0 ∧
      (box.exec place code).timedOut = false := by
  cases gate with
  | false => simp [runVerdict] at h
  | true =>
  have hok : (runPython box place code).status = .ok := by
    simp only [runVerdict, Bool.not_true, Bool.false_eq_true, if_false] at h
    cases hs : (runPython box place code).status <;> simp only [hs] at h
    case ok => rfl
    case fail => split_ifs at h
    all_goals simp at h
  simp only [runPython] at hok
  split_ifs at hok with he hs ha ht
  split at hok
  · simp at hok
  · next rc hrc =>
    split_ifs at hok with hsetup hzero
    exact ⟨rfl, by simpa using he, by rw [hrc, hzero], by simpa using ht⟩

omit [Host] in
theorem truthy_set_ok (r : Dict) (b : Bool) :
    Dict.truthy (Dict.set r (txt "ok") (.bool b)) (txt "ok") = b := by
  simp [Dict.truthy, Dict.get_set_self, Json.truthy]

/-- The verdict the clerk writes on a scrubbed receipt is its own. -/
theorem verifyReceipt_checked {r : Dict} (h : Scrubbed r) (block : Option Json)
    (author corpus : Str) (gate : Bool) (box : Sandbox) (place : ℕ × ℕ) :
    Checked (.asserts block author corpus gate box) (verifyReceipt corpus gate box place r) := by
  intro hsup
  simp only [verifyReceipt] at hsup ⊢
  split_ifs at hsup ⊢ with hcite hrun hinc
  · left
    rw [Dict.getIs_iff] at hcite
    have hok : citeSupported r corpus = true := by
      have hns : Dict.getIs (Dict.set r (txt "ok") (.bool (citeSupported r corpus))) (txt "kind")
          (txt "metamorph") = false := by rw [Dict.getIs_set_ne _ _ (by decide)]; exact h.2
      simp only [supporting, stableMetamorph, hns, truthy_set_ok, Bool.false_and, Bool.or_false,
        Bool.and_eq_true] at hsup
      exact hsup.2
    simp only [citeSupported, Bool.and_eq_true, Bool.not_eq_true', List.isEmpty_eq_false_iff,
      contains_iff] at hok
    refine ⟨?_, ?_, ?_⟩
    · rw [Dict.get_set_ne _ _ (by decide)]
      exact hcite
    · rw [Dict.text_set_ne _ _ (by decide)]
      exact hok.2.1
    · rw [Dict.text_set_ne _ _ (by decide)]
      exact hok.2.2
  · -- an inconclusive run carries `ok: false`
    exfalso
    have hok : Dict.truthy (Dict.set (Dict.set r (txt "ok") (.bool (runVerdict box gate place
        (Dict.text r (txt "code")) == .pass))) (txt "inconclusive") (.bool true)) (txt "ok") =
        false := by
      simp [Dict.truthy, Dict.get_set_ne _ _ (show txt "inconclusive" ≠ txt "ok" by decide),
        Dict.get_set_self, Json.truthy, hinc]
    have hns : Dict.getIs (Dict.set (Dict.set r (txt "ok") (.bool (runVerdict box gate place
        (Dict.text r (txt "code")) == .pass))) (txt "inconclusive") (.bool true)) (txt "kind")
        (txt "metamorph") = false := by
      rw [Dict.getIs_set_ne _ _ (by decide), Dict.getIs_set_ne _ _ (by decide)]
      exact h.2
    simp [supporting, stableMetamorph, hok, hns] at hsup
  · right
    rw [Dict.getIs_iff] at hrun
    have hpass : runVerdict box gate place (Dict.text r (txt "code")) = .pass := by
      have hns : Dict.getIs (Dict.set r (txt "ok") (.bool (runVerdict box gate place
          (Dict.text r (txt "code")) == .pass))) (txt "kind") (txt "metamorph") = false := by
        rw [Dict.getIs_set_ne _ _ (by decide)]; exact h.2
      simp only [supporting, stableMetamorph, hns, truthy_set_ok, Bool.false_and, Bool.or_false,
        Bool.and_eq_true, beq_iff_eq] at hsup
      exact hsup.2
    obtain ⟨hg, he, hrc, ht⟩ := runVerdict_pass hpass
    refine ⟨?_, hg, he, place, ?_⟩
    · rw [Dict.get_set_ne _ _ (by decide)]
      exact hrun
    · rw [Dict.text_set_ne _ _ (by decide)]
      exact ⟨hrc, ht⟩
  · rw [h.not_supporting] at hsup
    exact absurd hsup (by simp)

/-! ### The whole turn -/

/-- The clerk rewrites only what was appended to the receipts it held. -/
theorem verifyNew_receipts {corpus : Str} {gate : Bool} {box : Sandbox} {i : ℕ} {c : Claim}
    {old rs : List Dict} (h : c.receipts = old ++ rs) :
    (verifyNew corpus gate box old.length i c).receipts =
      old ++ rs.mapIdx fun j r => verifyReceipt corpus gate box (i, j + old.length) r := by
  simp only [verifyNew, h, List.mapIdx_append]
  congr 1
  · refine List.ext_getElem (by simp) fun j hj _ => ?_
    rw [List.length_mapIdx] at hj
    simp [Nat.not_le.mpr hj]
  · simp

theorem verifyNew_checked {block : Option Json} {author corpus : Str} {gate : Bool}
    {box : Sandbox} {rs : List Dict} (h : ∀ r ∈ rs, Scrubbed r) (i n : ℕ) :
    ∀ r ∈ rs.mapIdx fun j r => verifyReceipt corpus gate box (i, j + n) r,
      Checked (.asserts block author corpus gate box) r := by
  intro r hr
  obtain ⟨j, hj, rfl⟩ := List.mem_mapIdx.mp hr
  exact verifyReceipt_checked (h _ (List.getElem_mem hj)) _ _ _ _ _ _

theorem Scrubbed.checked {r : Dict} (h : Scrubbed r) (call : Call) : Checked call r :=
  fun hs => absurd hs (by simp [h.not_supporting])

def assertedRows (block : Option Json) (author : Str) : List Dict :=
  (turnRows block (txt "claims")).map (stamp author)

omit [Host] in
theorem assertedRows_scrubbed (block : Option Json) (author : Str) :
    ∀ raw ∈ assertedRows block author, ∀ r ∈ dictRows (Dict.get raw (txt "receipts")),
      Scrubbed r := by
  intro raw hraw r hr
  obtain ⟨row, -, rfl⟩ := List.mem_map.mp hraw
  rw [stamp_receipts] at hr
  exact scrubReceipts_scrubbed hr

theorem clerkAsserts_evolves {led : Ledger} (hn : led.ids.Nodup) (block : Option Json)
    (author corpus : Str) (gate : Bool) (box : Sandbox) :
    let call := Call.asserts block author corpus gate box
    Evolves (Reasserted (assertedRows block author) (Checked call)) (Newborn (Checked call)) led
      (clerkAsserts led block author corpus gate box).1 := by
  intro call
  have h := applyAsserts_evolves (assertedRows_scrubbed block author) (led, [], []) hn
  -- verification keeps every id, so only the claims' receipts are left to follow
  let f : ℕ → Claim → Claim := fun i c =>
    if c.id ∈ (applyAsserts led (assertedRows block author)).2.1 then
      verifyNew corpus gate box (heldReceipts led c.id) i c else c
  have hid (i : ℕ) (c : Claim) : (f i c).id = c.id := by
    by_cases hacc : c.id ∈ (applyAsserts led (assertedRows block author)).2.1 <;>
      simp [f, hacc, verifyNew]
  have hclaims : (clerkAsserts led block author corpus gate box).1.claims =
      ((assertedRows block author).foldl applyAssert (led, [], [])).1.claims.mapIdx f := rfl
  have hids : (clerkAsserts led block author corpus gate box).1.ids =
      ((assertedRows block author).foldl applyAssert (led, [], [])).1.ids := by
    rw [Ledger.ids, hclaims]
    exact Keyed.map_mapIdx hid _
  refine ⟨hids ▸ h.ids, hids ▸ h.nodup, fun c' hc' => ?_⟩
  rw [hclaims] at hc'
  obtain ⟨i, hi, rfl⟩ := List.mem_mapIdx.mp hc'
  have hmem := List.getElem_mem hi
  generalize ((assertedRows block author).foldl applyAssert (led, [], [])).1.claims[i] = c₁ at *
  rw [hid]
  rcases h.origin c₁ hmem with ⟨c, hc, hcid, hre⟩ | ⟨hnew, hborn⟩
  · refine .inl ⟨c, hc, hcid, ?_⟩
    obtain ⟨rs, hrs, hscr⟩ := hre.extended.receipts
    have hheld : heldReceipts led c₁.id = c.receipts.length := by
      rw [hcid, heldReceipts, byId_of_mem hn hc, Option.elim_some]
    obtain ⟨hext, hfate⟩ := hre
    by_cases hacc : c₁.id ∈ (applyAsserts led (assertedRows block author)).2.1
    · simp only [f, if_pos hacc, hheld]
      refine ⟨⟨hext.id, hext.author, hext.domain, hext.claim, _, verifyNew_receipts hrs,
        verifyNew_checked hscr i _⟩, hfate.imp (fun h => ⟨h.status, h.kills, h.attempts,
        h.reopens⟩) fun h => ⟨h.killed, h.bounded, h.answered, h.status, h.kills, h.attempts,
        h.reopens⟩⟩
    · simp only [f, if_neg hacc]
      exact ⟨{ hext with receipts := ⟨rs, hrs, fun r hr => (hscr r hr).checked call⟩ }, hfate⟩
  · refine .inr ⟨hnew, ?_⟩
    have hheld : heldReceipts led c₁.id = ([] : List Dict).length := by
      rw [heldReceipts, byId_eq_none.mpr hnew, Option.elim_none, List.length_nil]
    by_cases hacc : c₁.id ∈ (applyAsserts led (assertedRows block author)).2.1
    · simp only [f, if_pos hacc, hheld]
      refine ⟨hborn.named, hborn.status, hborn.kills, hborn.attempts, hborn.reopens, ?_⟩
      rw [verifyNew_receipts (List.nil_append _).symm, List.nil_append]
      exact verifyNew_checked hborn.receipts i _
    · simp only [f, if_neg hacc]
      exact { hborn with receipts := fun r hr => (hborn.receipts r hr).checked call }

end AskFable.Falsify
