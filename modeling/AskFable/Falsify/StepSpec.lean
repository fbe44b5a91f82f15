import AskFable.Falsify.Asserts

/-!
# What each operation can do

The inversion lemma of the machine: `step_evolves` says, for every call, how an old
claim may change and what a new one looks like. Every invariant of a run is read off
`ClaimStep` and `ClaimBirth`; none unfolds the clerk.
-/
namespace AskFable.Falsify
open AskFable.Text AskFable.Python Relation

variable [Host]

/-! ### Attacks -/

omit [Host] in
theorem strike_id (kill : Kill) (c : Claim) : (c.strike kill).id = c.id := by
  unfold Claim.strike
  split_ifs <;> rfl

omit [Host] in
/-- An attempt on a claim that is not dead. -/
theorem recordKill_evolves {N : Claim → Prop} {led : Ledger} (hn : led.ids.Nodup)
    {targetId : Str} {target : Claim} (ht : byId led targetId = some target)
    (halive : target.status ≠ .killed) (killer : Str) (kind : Move) (accepted : Bool)
    (roundNo : ℕ) :
    Evolves Struck N led (recordKill led targetId killer kind accepted roundNo) := by
  refine evolves_modify hn targetId (strike_id _) ?_ fun _ => .refl
  rintro c hc rfl
  have hct : c = target := Option.some.inj ((byId_of_mem hn hc).symm.trans ht)
  subst hct
  exact .single (.mk c _ halive rfl)

/-- At most one claim was registered, under a new id and backed by a checked quote;
nothing else a claim or a counter says has changed. -/
structure Registered (corpus : Str) (led led₁ : Ledger) : Prop where
  claims : led₁.claims = led.claims ∨
    ∃ c, Newborn (Cited corpus) c ∧ c.id ∉ led.ids ∧ led₁.claims = led.claims ++ [c]
  rep : led₁.rep = led.rep

theorem Registered.refl (corpus : Str) (led : Ledger) : Registered corpus led led :=
  ⟨.inl rfl, rfl⟩

theorem Registered.evolves {corpus : Str} {led led₁ : Ledger} (h : Registered corpus led led₁)
    (hn : led.ids.Nodup) : Evolves Eq (Newborn (Cited corpus)) led led₁ := by
  rcases h.claims with heq | ⟨c, hborn, hnew, heq⟩
  · have hself : Evolves Eq (Newborn (Cited corpus)) led led := .refl (fun _ => rfl) hn
    exact hself.congr_right heq
  · exact (evolves_append hn hnew hborn fun _ => rfl).congr_right heq

/-- A claim that was there is found as it was. -/
theorem Registered.byId {corpus : Str} {led led₁ : Ledger} (h : Registered corpus led led₁)
    (hn : led.ids.Nodup) {cid : Str} {c : Claim} (hc : byId led cid = some c) :
    Falsify.byId led₁ cid = some c := by
  have hev := h.evolves hn
  obtain ⟨c', hc', -, rfl⟩ := hev.successor hn (mem_of_byId hc).1
  rw [← (mem_of_byId hc).2]
  exact byId_of_mem hev.nodup hc'

/-- Asserting a quoted claim under an id the ledger does not have. -/
theorem applyAsserts_registered {corpus : Str} {led : Ledger} {raw : Dict}
    (hid : strip (Dict.text raw (txt "id")) ∉ led.ids)
    (hcited : ∀ r ∈ dictRows (Dict.get raw (txt "receipts")), Cited corpus r) :
    Registered corpus led (applyAsserts led [raw]).1 := by
  have hre : noReassert led raw = false := by simp [noReassert, byId_eq_none.mpr hid]
  simp only [applyAsserts, List.foldl_cons, List.foldl_nil, applyAssert, hre,
    Bool.false_eq_true, if_false]
  cases hnorm : normalizeClaim raw with
  | none => exact .refl corpus led
  | some norm =>
    have hfresh : norm.id ∉ led.ids := (normalizeClaim_spec hnorm).1 ▸ hid
    simp only [byId_eq_none.mpr hfresh, Option.isSome_none, Bool.false_eq_true, if_false]
    exact ⟨.inr ⟨norm, normalizeClaim_newborn hnorm hcited, hfresh, rfl⟩, rfl⟩

theorem contraRaw_id (atk : Dict) {newId : Str} (h : newId ≠ []) (targetId killer domain
    quote : Str) : Dict.text (contraRaw atk newId targetId killer domain quote) (txt "id") =
      newId := by
  cases newId with
  | nil => exact absurd rfl h
  | cons a s => simp [contraRaw, Dict.text, Dict.getOr, Dict.get, Json.truthy, Json.pyStr]

omit [Host] in
theorem contraRaw_receipts (atk : Dict) (newId targetId killer domain quote : Str) :
    dictRows (Dict.get (contraRaw atk newId targetId killer domain quote) (txt "receipts")) =
      [[(txt "kind", .str (txt "cite")), (txt "quote", .str quote), (txt "ok", .bool true)]] := by
  rfl

/-- The receipt of a contradiction quotes the corpus of its call. -/
theorem contraReceipt_cited {corpus quote : Str} (hq : quote ≠ []) (hin : quote <:+: corpus) :
    Cited corpus
      [(txt "kind", .str (txt "cite")), (txt "quote", .str quote), (txt "ok", .bool true)] := by
  have htext : Dict.text [(txt "kind", .str (txt "cite")), (txt "quote", .str quote),
      (txt "ok", .bool true)] (txt "quote") = quote := by
    cases quote with
    | nil => exact absurd rfl hq
    | cons a s => rfl
  exact ⟨rfl, by rw [htext]; exact hq, by rw [htext]; exact hin⟩

/-- What an attack comes to: at most one claim is registered, then one attempt on a
claim that is not dead is recorded, and reputation moves when the attempt lands. -/
inductive Attacked (corpus killer : Str) (roundNo : ℕ) (led : Ledger) : Ledger → Prop
  | ignored : Attacked corpus killer roundNo led led
  | failed {led₁ targetId target} (kind : Move) (registered : Registered corpus led led₁)
      (found : byId led targetId = some target) (alive : target.status ≠ .killed) :
      Attacked corpus killer roundNo led (recordKill led₁ targetId killer kind false roundNo)
  | landed {led₁ targetId target} (author domain : Str) (kind : Move)
      (registered : Registered corpus led led₁) (found : byId led targetId = some target)
      (alive : target.status ≠ .killed) :
      Attacked corpus killer roundNo led
        (landKill led₁ targetId killer author domain kind roundNo)

theorem contraMove_attacked {led : Ledger} {targetId : Str} {target : Claim}
    (ht : byId led targetId = some target) (halive : target.status ≠ .killed) (atk : Dict)
    (killer author domain corpus : Str) (roundNo : ℕ) :
    Attacked corpus killer roundNo led
      (contraMove led atk targetId killer author domain corpus roundNo) := by
  simp only [contraMove]
  by_cases hguard : strip (Dict.text atk (txt "new_id")) ≠ [] ∧
      (!(Dict.text atk (txt "quote")).isEmpty &&
        contains corpus (Dict.text atk (txt "quote"))) = true ∧
      byId led (strip (Dict.text atk (txt "new_id"))) = none
  · rw [if_pos hguard]
    obtain ⟨hne, hpresent, hnone⟩ := hguard
    simp only [Bool.and_eq_true, Bool.not_eq_true', List.isEmpty_eq_false_iff,
      contains_iff] at hpresent
    have hid : strip (Dict.text (contraRaw atk (strip (Dict.text atk (txt "new_id"))) targetId
        killer domain (Dict.text atk (txt "quote"))) (txt "id")) ∉ led.ids := by
      rw [contraRaw_id _ hne, strip_strip]
      exact byId_eq_none.mp hnone
    have hreg := applyAsserts_registered hid (by
      rw [contraRaw_receipts]
      intro r hr
      rw [List.mem_singleton] at hr
      subst hr
      exact contraReceipt_cited hpresent.1 hpresent.2)
    split_ifs
    · exact .landed author domain .contra ⟨hreg.claims, hreg.rep⟩ ht halive
    · exact .failed .contra hreg ht halive
  · rw [if_neg hguard]
    exact .failed .contra (.refl corpus led) ht halive

theorem clerkAttack_attacked (killer corpus : Str) (roundNo : ℕ) (gate : Bool) (box : Sandbox)
    (led : Ledger) (row : Dict × ℕ) :
    Attacked corpus killer roundNo led (clerkAttack killer corpus roundNo gate box led row) := by
  obtain ⟨atk, place⟩ := row
  have hself := Registered.refl corpus led
  simp only [clerkAttack]
  cases ht : byId led (strip (Dict.text atk (txt "target"))) with
  | none => exact .ignored
  | some target =>
    simp only
    split_ifs with hk hcontra hrun
    · exact .ignored
    · exact contraMove_attacked ht hk _ _ _ _ _ _
    · unfold runMove
      cases runVerdict box gate (place, 0) (Dict.text atk (txt "code")) with
      | fail => exact .landed _ _ .run hself ht hk
      | pass => exact .failed .run hself ht hk
      | inconclusive => exact .ignored
    · unfold challengeMove
      split_ifs
      · exact .failed .challenge hself ht hk
      · exact .landed _ _ .challenge hself ht hk

/-- A claim that entered the ledger during this turn and was attacked in it. -/
def BornStruck (P : Dict → Prop) (c : Claim) : Prop := ∃ c₀, Newborn P c₀ ∧ Struck c₀ c

theorem Attacked.evolves {corpus killer : Str} {roundNo : ℕ} {led led' : Ledger}
    (h : Attacked corpus killer roundNo led led') (hn : led.ids.Nodup) :
    Evolves Struck (BornStruck (Cited corpus)) led led' := by
  have hstruck {led₁ led₂ : Ledger} (hreg : Registered corpus led led₁)
      (h : Evolves Struck (fun _ => False) led₁ led₂) :
      Evolves Struck (BornStruck (Cited corpus)) led led₂ :=
    (hreg.evolves hn).trans h (fun _ _ _ heq hs => heq ▸ hs) (fun _ _ hb hs => ⟨_, hb, hs⟩)
      fun _ => False.elim
  cases h with
  | ignored => exact .refl (fun _ => .refl) hn
  | failed kind hreg ht halive =>
    exact hstruck hreg
      (recordKill_evolves (hreg.evolves hn).nodup (hreg.byId hn ht) halive _ _ _ _)
  | landed author domain kind hreg ht halive =>
    have hkill := recordKill_evolves (N := fun _ => False) (hreg.evolves hn).nodup
      (hreg.byId hn ht) halive killer kind true roundNo
    exact hstruck hreg (hkill.congr_right rfl)

theorem clerkAttacks_evolves {led : Ledger} (hn : led.ids.Nodup) (block : Option Json)
    (killer corpus : Str) (roundNo : ℕ) (gate : Bool) (box : Sandbox) :
    Evolves Struck (BornStruck (Cited corpus)) led
      (clerkAttacks led block killer corpus roundNo gate box) := by
  unfold clerkAttacks
  generalize (turnRows block (txt "attacks")).zipIdx = rows
  induction rows generalizing led with
  | nil => exact .refl (fun _ => .refl) hn
  | cons row rows ih =>
    have h := (clerkAttack_attacked killer corpus roundNo gate box led row).evolves hn
    exact h.trans (ih h.nodup) (fun _ _ _ h h' => h.trans h')
      (fun _ _ ⟨c₀, hb, hs⟩ h' => ⟨c₀, hb, hs.trans h'⟩) fun _ h => h

/-! ### The judge, the resolution and the bookkeeping -/

omit [Host] in
theorem supporting_metamorphReceipt (para : Str) (v : Verdict) :
    supporting (metamorphReceipt para v) = (v == .true) := by
  cases v <;> rfl

theorem metamorphCheck_judged {m : Metamorph} {i : ℕ} {text : Str} {r : Dict}
    (h : metamorphCheck m i text = some r) : Checked (.metamorph m) r := by
  intro hsup
  unfold metamorphCheck at h
  split_ifs at h
  cases hp : m.paraphrase i text with
  | none => simp [hp] at h
  | some para =>
    simp only [hp] at h
    split_ifs at h
    obtain ⟨reply, hj, rfl⟩ := Option.map_eq_some_iff.mp h
    rw [supporting_metamorphReceipt, beq_iff_eq] at hsup
    exact ⟨i, para, reply, hj, hsup, by rw [hsup]⟩

theorem clerkMetamorph_evolves {led : Ledger} (hn : led.ids.Nodup) (m : Metamorph)
    {N : Claim → Prop} :
    Evolves (fun c c' => Extended (Checked (.metamorph m)) c c' ∧ SameFate c c') N led
      (clerkMetamorph m led) := by
  refine evolves_mapIdx hn (fun i c => ?_) fun i c _ => ?_
  · split_ifs
    · rfl
    · rfl
    · cases metamorphCheck m i c.claim <;> rfl
  · split_ifs
    · exact ⟨.refl _ c, .refl c⟩
    · exact ⟨.refl _ c, .refl c⟩
    · cases h : metamorphCheck m i c.claim with
      | none => exact ⟨.refl _ c, .refl c⟩
      | some r =>
        refine ⟨⟨rfl, rfl, rfl, rfl, [r], rfl, ?_⟩, rfl, rfl, rfl, rfl⟩
        intro r' hr'
        rw [List.mem_singleton] at hr'
        exact hr' ▸ metamorphCheck_judged h

omit [Host] in
theorem resolve_evolves {led : Ledger} (hn : led.ids.Nodup) (k : ℕ) {N : Claim → Prop} :
    Evolves (fun c c' => c' = c.settle k) N led (resolve k led) := by
  have h := evolves_mapIdx (R := fun c c' => c' = c.settle k) (N := N) hn
    (f := fun _ c => c.settle k) (fun _ c => settle_id k c) fun _ _ _ => rfl
  have hmap : led.claims.mapIdx (fun _ c => c.settle k) = led.claims.map (Claim.settle k) :=
    List.ext_getElem (by simp) fun i _ _ => by simp
  exact h.congr_right hmap.symm

omit [Host] in
theorem creditSurvivor_claims (led : Ledger) (cid : Str) :
    (creditSurvivor led cid).claims = led.claims := by
  unfold creditSurvivor
  cases byId led cid <;> rfl

omit [Host] in
theorem creditSurvivors_claims (before after : Ledger) :
    (creditSurvivors before after).claims = after.claims := by
  unfold creditSurvivors
  generalize (survivedIds after).filter _ = cids
  induction cids generalizing after with
  | nil => rfl
  | cons cid cids ih =>
    rw [List.foldl_cons, ih, creditSurvivor_claims]

/-! ### Every operation -/

/-- What a call does to a claim that was there. -/
def ClaimStep : Call → Claim → Claim → Prop
  | .asserts block author corpus gate box =>
    Reasserted (assertedRows block author) (Checked (.asserts block author corpus gate box))
  | .metamorph m => fun c c' => Extended (Checked (.metamorph m)) c c' ∧ SameFate c c'
  | .attacks _ _ _ _ _ _ => Struck
  | .resolve => fun c c' => c' = c.settle DEFAULT_K
  | .credit _ | .mark _ _ => Eq

/-- What a claim registered by a call looks like after it. -/
def ClaimBirth (call : Call) (c : Claim) : Prop :=
  match call with
  | .asserts _ _ _ _ _ => Newborn (Checked call) c
  | .attacks _ _ _ _ _ _ => BornStruck (Checked call) c
  | _ => False

theorem step_evolves {led : Ledger} (hn : led.ids.Nodup) (call : Call) :
    Evolves (ClaimStep call) (ClaimBirth call) led (step led call) := by
  cases call with
  | asserts block author corpus gate box =>
    exact clerkAsserts_evolves hn block author corpus gate box
  | metamorph m => exact clerkMetamorph_evolves hn m
  | attacks block killer corpus roundNo gate box =>
    refine (clerkAttacks_evolves hn block killer corpus roundNo gate box).mono
      (fun _ _ h => h) ?_
    rintro c ⟨c₀, hborn, hs⟩
    exact ⟨c₀, { hborn with receipts := fun r hr _ => hborn.receipts r hr }, hs⟩
  | resolve => exact resolve_evolves hn DEFAULT_K
  | credit before =>
    have hself : Evolves (ClaimStep (.credit before)) (ClaimBirth (.credit before)) led led :=
      .refl (fun _ => rfl) hn
    exact hself.congr_right (creditSurvivors_claims before led)
  | mark round status =>
    have hself : Evolves (ClaimStep (.mark round status)) (ClaimBirth (.mark round status)) led
      led := .refl (fun _ => rfl) hn
    exact hself.congr_right rfl

end AskFable.Falsify
