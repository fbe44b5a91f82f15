import AskFable.Falsify.Certification
import AskFable.Falsify.Reputation

/-!
# The fixpoint test

`is_fixpoint` compares a summary of two ledgers: id, status, attempts and number of
receipts of each claim, and the number of edges. Between the two ends of a round nothing
cancels out in it: a reopening brings a receipt, an attempt on a live claim raises its
count or kills it, and nothing brings a claim back after the attacks.
-/
namespace AskFable.Falsify
open AskFable.Text AskFable.Python AskFable.Machine Relation

/-- What a round may not change for the loop to stop. -/
structure Same (a b : Ledger) : Prop where
  claims : b.claims = a.claims
  edges : b.edges = a.edges
  rep : b.rep = a.rep

theorem Same.trans {a b c : Ledger} (h : Same a b) (h' : Same b c) : Same a c :=
  ⟨h'.claims.trans h.claims, h'.edges.trans h.edges, h'.rep.trans h.rep⟩

/-- The row of a claim in the signature. -/
def Claim.row (c : Claim) : Str × Status × ℕ × ℕ := (c.id, c.status, c.attempts, c.receipts.length)

theorem signature_eq {a b : Ledger} :
    signature a = signature b ↔
      a.claims.map Claim.row = b.claims.map Claim.row ∧ a.edges.length = b.edges.length := by
  simp only [signature, Signature.mk.injEq]
  rfl

/-! ### One claim -/

/-- Receipts only accumulate, and a reopening brings one. -/
structure Grown (c c' : Claim) : Prop where
  receipts : c.receipts.length ≤ c'.receipts.length
  reopens : c.reopens ≤ c'.reopens
  answered : c.reopens < c'.reopens → c.receipts.length < c'.receipts.length

theorem Grown.refl (c : Claim) : Grown c c := ⟨le_rfl, le_rfl, fun h => absurd h (lt_irrefl _)⟩

theorem Grown.trans {a b c : Claim} (h : Grown a b) (h' : Grown b c) : Grown a c := by
  refine ⟨h.receipts.trans h'.receipts, h.reopens.trans h'.reopens, fun hlt => ?_⟩
  by_cases hab : a.reopens < b.reopens
  · exact (h.answered hab).trans_le h'.receipts
  · have hba := h.reopens
    exact h.receipts.trans_lt (h'.answered (by omega))

theorem Extended.eq {P : Dict → Prop} {c c' : Claim} (h : Extended P c c') (hfate : SameFate c c')
    (hlen : c'.receipts.length ≤ c.receipts.length) : c' = c := by
  obtain ⟨rs, hrs, -⟩ := h.receipts
  have hnil : rs = [] := by
    rw [hrs, List.length_append] at hlen
    exact List.length_eq_zero_iff.mp (by omega)
  have hreceipts : c'.receipts = c.receipts := by rw [hrs, hnil, List.append_nil]
  obtain ⟨id, author, domain, claim, status, receipts, kills, attempts, reopens⟩ := c
  obtain ⟨id', author', domain', claim', status', receipts', kills', attempts', reopens'⟩ := c'
  obtain ⟨rfl, rfl, rfl, rfl, -⟩ := h
  obtain ⟨rfl, rfl, rfl, rfl⟩ := hfate
  rw [Claim.mk.injEq]
  exact ⟨rfl, rfl, rfl, rfl, rfl, hreceipts, rfl, rfl, rfl⟩

/-- An assertion that leaves the receipts as they are leaves the claim as it is. -/
theorem Reasserted.eq [Host] {raws : List Dict} {P : Dict → Prop} {c c' : Claim}
    (h : Reasserted raws P c c') (hgrown : Grown c c')
    (hlen : c'.receipts.length ≤ c.receipts.length) : c' = c := by
  rcases h.fate with hfate | hre
  · exact h.extended.eq hfate hlen
  · have hmore := hgrown.answered (by rw [hre.reopens]; exact Nat.lt_succ_self _)
    omega

/-- Attempts leave a trace: a higher count, or a claim that has died. -/
theorem Struck.trace {c c' : Claim} (h : Struck c c') :
    c' = c ∨ c.attempts < c'.attempts ∨ (c.status ≠ .killed ∧ c'.status = .killed) := by
  induction h with
  | refl => exact .inl rfl
  | @tail b _ hcb hs ih =>
    obtain ⟨kill, alive, -⟩ := hs
    have hattempts : b.attempts ≤ (b.strike kill).attempts := by
      unfold Claim.strike
      split_ifs <;> simp
    rcases ih with rfl | hlt | ⟨-, hdead⟩
    · by_cases ha : kill.accepted = true
      · exact .inr (.inr ⟨alive, by rw [Claim.strike, if_pos ha]⟩)
      · exact .inr (.inl (by rw [Claim.strike, if_neg ha]; exact Nat.lt_succ_self _))
    · exact .inr (.inl (hlt.trans_le hattempts))
    · exact absurd hdead alive

theorem settle_row (k : ℕ) (c : Claim) :
    (c.settle k).attempts = c.attempts ∧ (c.settle k).receipts = c.receipts ∧
      ((c.settle k).status = c.status → c.settle k = c) := by
  obtain ⟨id, author, domain, claim, status, receipts, kills, attempts, reopens⟩ := c
  unfold Claim.settle
  split_ifs <;> exact ⟨rfl, rfl, fun h => by simp_all⟩

/-- Attempts that resolve to the same row were none. -/
theorem Struck.eq_of_settled {c c₁ : Claim} (hc : c.Sound) (h : Struck c c₁)
    (hrow : (c₁.settle DEFAULT_K).row = c.row) : c₁ = c := by
  simp only [Claim.row, Prod.mk.injEq] at hrow
  obtain ⟨-, hstatus, hattempts, -⟩ := hrow
  rw [(settle_row DEFAULT_K c₁).1] at hattempts
  rcases h.trace with heq | hlt | ⟨halive, hdead⟩
  · exact heq
  · omega
  · rw [(hc.of_struck h).settle_killed hdead, hdead] at hstatus
    exact absurd hstatus.symm halive

/-! ### The claims of a ledger -/

section
variable {R R' : Claim → Claim → Prop} {N N' : Claim → Prop} {a b d : Ledger}

theorem Evolves.and (h : Evolves R N a b) (h' : Evolves R' N' a b) (ha : a.ids.Nodup) :
    Evolves (fun c c' => R c c' ∧ R' c c') N a b := by
  refine ⟨h.ids, h.nodup, fun c' hc' => ?_⟩
  rcases h.origin c' hc' with ⟨c, hc, hid, hR⟩ | hnew
  · rcases h'.origin c' hc' with ⟨c₀, hc₀, hid₀, hR'⟩ | ⟨hnot, -⟩
    · have hsame : c₀ = c := List.inj_on_of_nodup_map ha hc₀ hc (hid₀.symm.trans hid)
      exact .inl ⟨c, hc, hid, hR, hsame ▸ hR'⟩
    · exact absurd (hid ▸ List.mem_map_of_mem hc) hnot
  · exact .inr hnew

/-- What comes between two ledgers with the same rows has the same claims, as far as the
rows of each claim tell. -/
theorem Evolves.claims_eq (h : Evolves R N a b) (h' : Evolves R' N' b d) (ha : a.ids.Nodup)
    (hrows : d.claims.map Claim.row = a.claims.map Claim.row)
    (heq : ∀ c ∈ a.claims, ∀ c₁ c', R c c₁ → R' c₁ c' → c'.row = c.row → c₁ = c) :
    b.claims = a.claims := by
  have hids : d.ids = a.ids := by
    have hfst := congrArg (List.map Prod.fst) hrows
    rw [List.map_map, List.map_map] at hfst
    exact hfst
  have hbids : b.ids = a.ids := by
    obtain ⟨new, hnew⟩ := h.ids
    obtain ⟨new', hnew'⟩ := h'.ids
    have hlen := congrArg List.length (hids.symm.trans (hnew'.trans (congrArg (· ++ new') hnew)))
    simp only [List.length_append] at hlen
    rw [hnew, List.length_eq_zero_iff.mp (show new.length = 0 by omega), List.append_nil]
  have hlen : b.claims.length = a.claims.length := by
    simpa only [Ledger.ids, List.length_map] using congrArg List.length hbids
  refine List.ext_getElem hlen fun i hb hi => ?_
  have hid : b.claims[i].id = a.claims[i].id := by
    have hget := congrArg (·[i]?) hbids
    simpa [Ledger.ids, List.getElem?_eq_getElem, hb, hi] using hget
  have hmem : a.claims[i] ∈ a.claims := List.getElem_mem hi
  rcases h.origin _ (List.getElem_mem hb) with ⟨c, hc, hcid, hR⟩ | ⟨hnot, -⟩
  · have hci : c = a.claims[i] := List.inj_on_of_nodup_map ha hc hmem (hcid.symm.trans hid)
    obtain ⟨c', hc', hid', hR'⟩ := h'.successor h.nodup (List.getElem_mem hb)
    obtain ⟨c₀, hc₀, hrow⟩ := List.mem_map.mp (hrows ▸ List.mem_map_of_mem hc')
    have hc₀i : c₀ = a.claims[i] := by
      refine List.inj_on_of_nodup_map ha hc₀ hmem ?_
      rw [← hid, ← hid']
      exact congrArg Prod.fst hrow
    exact heq _ hmem _ c' (hci ▸ hR) hR' (hc₀i ▸ hrow.symm)
  · exact absurd (hid ▸ List.mem_map_of_mem hmem) hnot

end

section
variable [Host]

/-! ### Each operation -/

/-- A reopening assertion carries the receipt that answers the kill. -/
theorem reassert_grown {led : Ledger} {raw : Dict} {norm c : Claim}
    (hre : noReassert led raw = false) (hnorm : normalizeClaim raw = some norm)
    (hc : byId led norm.id = some c) : Grown c (c.reassert norm.receipts) := by
  obtain ⟨hid, -, hrs, -⟩ := normalizeClaim_spec hnorm
  unfold Claim.reassert
  by_cases hk : c.status = .killed
  · obtain ⟨-, -, hans⟩ := noReassert_false hre (hid ▸ hc) hk
    have hne : norm.receipts ≠ [] := by
      rintro hnil
      rw [addressesKill, ← hrs, hnil] at hans
      simp at hans
    have hpos := List.length_pos_of_ne_nil hne
    rw [if_pos hk]
    refine ⟨?_, Nat.le_succ _, fun _ => ?_⟩ <;> simp only [List.length_append] <;> omega
  · rw [if_neg hk]
    exact ⟨by simp, le_rfl, fun h => absurd h (lt_irrefl _)⟩

theorem applyAssert_grown (raw : Dict) (acc : Ledger × List Str × List Dict)
    (hn : acc.1.ids.Nodup) :
    Evolves Grown (fun _ => True) acc.1 (applyAssert acc raw).1 := by
  obtain ⟨led, accepted, rejected⟩ := acc
  have hself : Evolves Grown (fun _ => True) led led := .refl .refl hn
  simp only [applyAssert]
  cases hre : noReassert led raw with
  | true => exact hself
  | false =>
    cases hnorm : normalizeClaim raw with
    | none => exact hself
    | some norm =>
      simp only [Bool.false_eq_true, if_false]
      split_ifs with hex
      · refine evolves_modify hn norm.id (reassert_id norm.receipts) (fun c hc hcid => ?_) .refl
        exact reassert_grown hre hnorm (hcid ▸ byId_of_mem hn hc)
      · refine evolves_append hn ?_ trivial .refl
        rw [← byId_eq_none]
        simpa using hex

theorem clerkAsserts_grown {led : Ledger} (hn : led.ids.Nodup) (block : Option Json)
    (author corpus : Str) (gate : Bool) (box : Sandbox) :
    Evolves Grown (fun _ => True) led (clerkAsserts led block author corpus gate box).1 := by
  have hfold (raws : List Dict) (acc : Ledger × List Str × List Dict) (hn : acc.1.ids.Nodup) :
      Evolves Grown (fun _ => True) acc.1 (raws.foldl applyAssert acc).1 := by
    induction raws generalizing acc with
    | nil => exact .refl .refl hn
    | cons raw raws ih =>
      have h := applyAssert_grown raw acc hn
      exact h.trans (ih _ h.nodup) (fun _ _ _ => .trans) (fun _ _ _ _ => trivial) fun _ h => h
  have h := hfold (assertedRows block author) (led, [], []) hn
  refine h.trans (evolves_mapIdx h.nodup (R := Grown) (N := fun _ => True) (fun i c => ?_)
    fun i c _ => ?_) (fun _ _ _ => .trans) (fun _ _ _ _ => trivial) fun _ h => h
  · split_ifs <;> rfl
  · -- the verdicts are written on the receipts in place
    split_ifs
    · exact ⟨by simp [verifyNew], le_rfl, fun h => absurd h (lt_irrefl _)⟩
    · exact .refl c

/-- Receipts accumulate over every operation, and only an answered kill reopens. -/
theorem step_grown {led : Ledger} (hn : led.ids.Nodup) (call : Call) :
    Evolves Grown (fun _ => True) led (step led call) := by
  have hsame {c c' : Claim} {P : Dict → Prop} (h : Extended P c c') (hr : c'.reopens = c.reopens) :
      Grown c c' := by
    obtain ⟨rs, hrs, -⟩ := h.receipts
    exact ⟨by simp [hrs], hr.ge, fun hlt => absurd hlt (by omega)⟩
  cases call with
  | asserts block author corpus gate box => exact clerkAsserts_grown hn block author corpus gate box
  | metamorph m =>
    exact (step_evolves hn (.metamorph m)).mono (fun _ _ h => hsame h.1 h.2.reopens)
      fun _ _ => trivial
  | attacks block killer corpus roundNo gate box =>
    exact (step_evolves hn (.attacks block killer corpus roundNo gate box)).mono
      (fun _ _ h => hsame (Struck.extended h (fun _ => True)) (Struck.reopens h)) fun _ _ => trivial
  | resolve =>
    refine (step_evolves hn .resolve).mono (fun c _ h => hsame (ClaimStep.extended h) ?_)
      fun _ _ => trivial
    rw [show _ = c.settle DEFAULT_K from h, Claim.settle]
    split_ifs <;> rfl
  | credit before =>
    exact (step_evolves hn (.credit before)).mono (fun c _ h => h ▸ .refl c) fun _ _ => trivial
  | mark round status =>
    exact (step_evolves hn (.mark round status)).mono (fun c _ h => h ▸ .refl c)
      fun _ _ => trivial

theorem applyAsserts_edges (raws : List Dict) (acc : Ledger × List Str × List Dict) :
    (raws.foldl applyAssert acc).1.edges = acc.1.edges := by
  induction raws generalizing acc with
  | nil => rfl
  | cons raw raws ih =>
    rw [List.foldl_cons, ih]
    obtain ⟨led, accepted, rejected⟩ := acc
    simp only [applyAssert]
    split_ifs
    · rfl
    · cases normalizeClaim raw with
      | none => rfl
      | some norm =>
        simp only
        split_ifs <;> rfl

omit [Host] in
theorem contraValid_acyclic {src dst : Str} {led : Ledger} (h : contraValid src dst led = true) :
    hasCycle led.edges src dst = false := by
  unfold contraValid at h
  split at h
  · rw [Bool.and_eq_true, Bool.not_eq_true'] at h
    exact h.2
  · exact absurd h Bool.false_ne_true

/-- An attack adds one edge at most, which closed no cycle when it was added. -/
theorem clerkAttack_edges (killer corpus : Str) (roundNo : ℕ) (gate : Bool) (box : Sandbox)
    (led : Ledger) (row : Dict × ℕ) :
    (clerkAttack killer corpus roundNo gate box led row).edges = led.edges ∨
      ∃ src dst, hasCycle led.edges src dst = false ∧
        (clerkAttack killer corpus roundNo gate box led row).edges =
          led.edges ++ [⟨src, txt "contra", dst⟩] := by
  obtain ⟨atk, place⟩ := row
  simp only [clerkAttack]
  cases byId led (strip (Dict.text atk (txt "target"))) with
  | none => exact .inl rfl
  | some target =>
    simp only
    split_ifs
    · exact .inl rfl
    · simp only [contraMove]
      -- a contradiction registers a claim first, which has no edge yet
      have hreg (raw : Dict) : (applyAsserts led [raw]).1.edges = led.edges :=
        applyAsserts_edges [raw] (led, [], [])
      split_ifs with hnew hvalid
      · right
        have hacyclic := contraValid_acyclic hvalid.2
        rw [hreg] at hacyclic
        exact ⟨_, _, hacyclic, congrArg (· ++ _) (hreg _)⟩
      · exact .inl (hreg _)
      · exact .inl rfl
    · unfold runMove
      cases runVerdict box gate (place, 0) (Dict.text atk (txt "code")) <;> exact .inl rfl
    · unfold challengeMove
      split_ifs <;> exact .inl rfl

omit [Host] in
theorem creditSurvivors_edges (before after : Ledger) :
    (creditSurvivors before after).edges = after.edges := by
  unfold creditSurvivors
  generalize (survivedIds after).filter _ = cids
  induction cids generalizing after with
  | nil => rfl
  | cons cid cids ih =>
    rw [List.foldl_cons, ih, creditSurvivor]
    cases byId after cid <;> rfl

/-- Edges are only ever appended. -/
theorem step_edges (led : Ledger) (call : Call) : led.edges <+: (step led call).edges := by
  cases call with
  | asserts block author corpus gate box =>
    exact (applyAsserts_edges (assertedRows block author) (led, [], [])).symm ▸ List.prefix_rfl
  | attacks block killer corpus roundNo gate box =>
    refine foldl_invariant (I := fun s : Ledger => led.edges <+: s.edges) _ (fun s row h => ?_)
      List.prefix_rfl _
    rcases clerkAttack_edges killer corpus roundNo gate box s row with hsame | ⟨src, dst, -, hnew⟩
    · exact hsame ▸ h
    · exact hnew ▸ h.trans (List.prefix_append _ _)
  | credit before => exact (creditSurvivors_edges before led).symm ▸ List.prefix_rfl
  | metamorph | resolve | mark => exact List.prefix_rfl

/-- Reputation moves only with an accepted kill. -/
theorem Attacked.rep {corpus killer : Str} {roundNo : ℕ} {led led' : Ledger}
    (h : Attacked corpus killer roundNo led led') (hn : led.ids.Nodup) :
    led'.rep = led.rep ∨ led.acceptedKills < led'.acceptedKills := by
  cases h with
  | ignored => exact .inl rfl
  | failed kind hreg _ _ => exact .inl hreg.rep
  | landed author domain kind hreg ht _ =>
    have hland := landKill_conserved (hreg.byId hn ht) killer author domain kind roundNo
    have hkills := hland.acceptedKills
    rw [hreg.sameKills.acceptedKills] at hkills
    exact .inr (by omega)

theorem clerkAttacks_rep {led : Ledger} (hn : led.ids.Nodup) (block : Option Json)
    (killer corpus : Str) (roundNo : ℕ) (gate : Bool) (box : Sandbox) :
    (clerkAttacks led block killer corpus roundNo gate box).rep = led.rep ∨
      led.acceptedKills < (clerkAttacks led block killer corpus roundNo gate box).acceptedKills := by
  unfold clerkAttacks
  generalize (turnRows block (txt "attacks")).zipIdx = rows
  induction rows generalizing led with
  | nil => exact .inl rfl
  | cons row rows ih =>
    have hatk := clerkAttack_attacked killer corpus roundNo gate box led row
    obtain ⟨m, hm⟩ := hatk.conserved hn
    have hle := hm.acceptedKills
    have hrest := foldl_invariant (clerkAttack killer corpus roundNo gate box)
      (I := fun s : Ledger => s.ids.Nodup ∧
        (clerkAttack killer corpus roundNo gate box led row).acceptedKills ≤ s.acceptedKills)
      (fun s row hs => ?_) ⟨(hatk.evolves hn).nodup, le_rfl⟩ rows
    · rcases ih (hatk.evolves hn).nodup with heq | hlt
      · rcases hatk.rep hn with heq' | hlt'
        · exact .inl (heq.trans heq')
        · exact .inr (hlt'.trans_le hrest.2)
      · exact .inr (by simp only [List.foldl_cons]; omega)
    · have hatk' := clerkAttack_attacked killer corpus roundNo gate box s row
      obtain ⟨n, hn'⟩ := hatk'.conserved hs.1
      have := hn'.acceptedKills
      exact ⟨(hatk'.evolves hs.1).nodup, by omega⟩

/-- An operation that leaves the claims leaves the reputation, and a credit for claims
that survived before is none. -/
theorem step_rep {led : Ledger} (hn : led.ids.Nodup) {call : Call}
    (hclaims : (step led call).claims = led.claims)
    (hcredit : ∀ before, call = .credit before → before.claims = led.claims) :
    (step led call).rep = led.rep := by
  cases call with
  | asserts block author corpus gate box => exact (clerkAsserts_sameKills ..).rep
  | metamorph m => exact (clerkMetamorph_sameKills m led).rep
  | attacks block killer corpus roundNo gate box =>
    rcases clerkAttacks_rep hn block killer corpus roundNo gate box with heq | hlt
    · exact heq
    · have hkills : (step led (.attacks block killer corpus roundNo gate box)).acceptedKills =
          led.acceptedKills := by rw [Ledger.acceptedKills, hclaims, ← Ledger.acceptedKills]
      simp only [step] at hkills
      omega
  | credit before =>
    have hids : survivedIds before = survivedIds led := by
      rw [survivedIds, hcredit before rfl, ← survivedIds]
    have hnone : (survivedIds led).filter (fun cid => !(survivedIds before).contains cid) = [] := by
      rw [hids, List.filter_eq_nil_iff]
      simp
    simp only [step, creditSurvivors, hnone, List.foldl_nil]
  | resolve | mark => rfl

/-! ### A claim along a round -/

/-- What a claim may become over some operations. -/
def ClaimPath : List Call → Claim → Claim → Prop
  | [], c, c' => c' = c
  | call :: calls, c, c' => ∃ c₁, (ClaimStep call c c₁ ∧ Grown c c₁) ∧ ClaimPath calls c₁ c'

theorem ClaimPath.grown {calls : List Call} {c c' : Claim} (h : ClaimPath calls c c') :
    Grown c c' := by
  induction calls generalizing c with
  | nil => exact h ▸ .refl c
  | cons call calls ih =>
    obtain ⟨c₁, ⟨-, hgrown⟩, hrest⟩ := h
    exact hgrown.trans (ih hrest)

theorem step_claimPath {led : Ledger} (hn : led.ids.Nodup) (call : Call) :
    Evolves (fun c c₁ => ClaimStep call c c₁ ∧ Grown c c₁) (ClaimBirth call) led
      (step led call) := (step_evolves hn call).and (step_grown hn call) hn

theorem calls_claimPath {led : Ledger} (hn : led.ids.Nodup) (calls : List Call) :
    Evolves (ClaimPath calls) (fun _ => True) led (calls.foldl step led) := by
  induction calls generalizing led with
  | nil => exact .refl (fun _ => rfl) hn
  | cons call calls ih =>
    have h := step_claimPath hn call
    exact h.trans (ih h.nodup) (fun c c₁ c' hs hrest => ⟨c₁, hs, hrest⟩)
      (fun _ _ _ _ => trivial) fun _ h => h

/-- What the operation does to a claim still shows in its row after the operations
`post`. -/
def Shows (call : Call) (post : List Call) : Prop :=
  ∀ c c₁ c' : Claim, c.Sound → ClaimStep call c c₁ → Grown c c₁ → ClaimPath post c₁ c' →
    c'.row = c.row → c₁ = c

def AllShow : List Call → Prop
  | [] => True
  | call :: post => Shows call post ∧ AllShow post

omit [Host] in
theorem Claim.row_eq {c c' : Claim} (h : c'.row = c.row) :
    c'.id = c.id ∧ c'.status = c.status ∧ c'.attempts = c.attempts ∧
      c'.receipts.length = c.receipts.length := by
  simpa only [Claim.row, Prod.mk.injEq] using h

theorem shows_asserts (block : Option Json) (author corpus : Str) (gate : Bool) (box : Sandbox)
    (post : List Call) : Shows (.asserts block author corpus gate box) post := by
  intro c c₁ c' _ hstep hgrown hpath hrow
  exact Reasserted.eq hstep hgrown ((Claim.row_eq hrow).2.2.2 ▸ hpath.grown.receipts)

theorem shows_metamorph (m : Metamorph) (post : List Call) : Shows (.metamorph m) post := by
  intro c c₁ c' _ hstep _ hpath hrow
  exact hstep.1.eq hstep.2 ((Claim.row_eq hrow).2.2.2 ▸ hpath.grown.receipts)

/-- After the attacks of a round comes nothing that could hide them. -/
theorem shows_attacks (block : Option Json) (killer corpus : Str) (roundNo : ℕ) (gate : Bool)
    (box : Sandbox) (before : Ledger) (round : ℕ) (status : LedgerStatus) :
    Shows (.attacks block killer corpus roundNo gate box)
      [.resolve, .credit before, .mark round status] := by
  rintro c c₁ c' hc hstep - ⟨c₂, ⟨hsettle, -⟩, c₃, ⟨hcredit, -⟩, c₄, ⟨hmark, -⟩, hend⟩ hrow
  rw [hend, ← hmark, ← hcredit, show c₂ = c₁.settle DEFAULT_K from hsettle] at hrow
  exact Struck.eq_of_settled hc hstep hrow

theorem shows_resolve (before : Ledger) (round : ℕ) (status : LedgerStatus) :
    Shows .resolve [.credit before, .mark round status] := by
  rintro c c₁ c' - hstep - ⟨c₃, ⟨hcredit, -⟩, c₄, ⟨hmark, -⟩, hend⟩ hrow
  have hsettle : c₁ = c.settle DEFAULT_K := hstep
  rw [hend, ← hmark, ← hcredit, hsettle] at hrow
  rw [hsettle]
  exact (settle_row DEFAULT_K c).2.2 (Claim.row_eq hrow).2.1

theorem round_shows (led : Ledger) (r : Round) : AllShow (r.calls led) := by
  have hmark (round : ℕ) (status : LedgerStatus) (post : List Call) :
      Shows (.mark round status) post := fun _ _ _ _ hstep _ _ _ => hstep.symm
  have hcredit (before : Ledger) (post : List Call) : Shows (.credit before) post :=
    fun _ _ _ _ hstep _ _ _ => hstep.symm
  unfold Round.calls
  have hend : AllShow [.resolve, .credit { led with status := .active },
      .mark (led.round + 1) (playRound led r).status] :=
    ⟨shows_resolve _ _ _, hcredit _ _, hmark _ _ _, trivial⟩
  have hattacks := shows_attacks r.attackBlock r.killer r.corpus (led.round + 1) r.gate
    r.attackBox { led with status := .active } (led.round + 1) (playRound led r).status
  cases r.metamorph with
  | none => exact ⟨hmark _ _ _, shows_asserts _ _ _ _ _ _, hattacks, hend⟩
  | some m =>
    exact ⟨hmark _ _ _, shows_asserts _ _ _ _ _ _, shows_metamorph _ _, hattacks, hend⟩

/-! ### The whole round -/

/-- When the ends of a run have one signature and each operation shows in it, none of them
has changed anything. -/
theorem along_same {led : Ledger} (hled : led.Sound) {calls : List Call} (hshow : AllShow calls)
    (hcredit : ∀ before, .credit before ∈ calls → before.claims = led.claims)
    (hsig : signature led = signature (calls.foldl step led)) :
    Along step (fun s call => Same s (step s call)) led calls := by
  induction calls generalizing led with
  | nil => trivial
  | cons call calls ih =>
    obtain ⟨hrows, hedges⟩ := signature_eq.mp hsig
    have hclaims : (step led call).claims = led.claims :=
      (step_claimPath hled.nodup call).claims_eq (calls_claimPath (hled.step call).nodup calls)
        hled.nodup hrows.symm fun c hc c₁ c' hstep hpath hrow =>
          hshow.1 c c₁ c' (hled.claims c hc) hstep.1 hstep.2 hpath hrow
    have hprefix : (step led call).edges <+: (calls.foldl step (step led call)).edges :=
      foldl_invariant step (I := fun s : Ledger => (step led call).edges <+: s.edges)
        (fun s call h => h.trans (step_edges s call)) List.prefix_rfl calls
    have hsame : Same led (step led call) := by
      refine ⟨hclaims, ?_, step_rep hled.nodup hclaims fun before heq => ?_⟩
      · have hle := hprefix.length_le
        rw [← List.foldl_cons, ← hedges] at hle
        exact ((step_edges led call).eq_of_length_le hle).symm
      · exact hcredit before (heq ▸ List.mem_cons_self)
    refine ⟨hsame, ih (hled.step call) hshow.2 (fun before hmem => ?_) ?_⟩
    · rw [hcredit before (List.mem_cons_of_mem _ hmem), hclaims]
    · rw [← List.foldl_cons, ← hsig]
      exact signature_eq.mpr ⟨by rw [hclaims], by rw [hsame.edges]⟩

theorem playRound_status (led : Ledger) (r : Round) :
    (playRound led r).status = .fixpoint ↔ isFixpoint led (playRound led r) = true := by
  simp only [playRound]
  split_ifs with hfix
  · exact iff_of_true rfl hfix
  · exact iff_of_false (by simp) hfix

/-- A round whose ends pass the fixpoint test changed no claim, edge or counter, by any of
its operations; and only such a round stops the loop. -/
theorem fixpoint_iff_unchanged (session : Str) (calls : List Call) (r : Round) :
    let led := calls.foldl step (newLedger session)
    (isFixpoint led (playRound led r) = true ↔ Same led (playRound led r)) ∧
    (isFixpoint led (playRound led r) = true →
      Along step (fun s call => Same s (step s call)) led (r.calls led)) ∧
    ((playRound led r).status = .fixpoint ↔ isFixpoint led (playRound led r) = true) := by
  intro led
  have hled : led.Sound := run_sound session calls
  have halong (hfix : isFixpoint led (playRound led r) = true) :
      Along step (fun s call => Same s (step s call)) led (r.calls led) := by
    refine along_same hled (round_shows led r) (fun before hmem => ?_) ?_
    · unfold Round.calls at hmem
      cases hm : r.metamorph <;> simp [hm] at hmem <;> rw [hmem]
    · rw [← playRound_eq_calls]
      simpa [isFixpoint] using hfix
  refine ⟨⟨fun hfix => ?_, fun hsame => ?_⟩, halong, playRound_status led r⟩
  · rw [playRound_eq_calls]
    exact foldl_invariant_along step (I := Same led) (fun s call h h' => h.trans h')
      ⟨rfl, rfl, rfl⟩ (halong hfix)
  · rw [isFixpoint, beq_iff_eq, signature_eq, hsame.claims, hsame.edges]
    exact ⟨rfl, rfl⟩

end

end AskFable.Falsify
