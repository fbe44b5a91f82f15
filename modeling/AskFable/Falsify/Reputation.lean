import AskFable.Falsify.Invariant
import Mathlib.Algebra.GroupWithZero.Nat

/-!
# Dead claims and the conservation of reputation

Each accepted kill moves one `kills` and one `deaths` counter, and each claim that
reaches `survived` in a round moves one `survives` counter: the counters of a session
always add up to what its claims record.
-/
namespace AskFable.Falsify
open AskFable.Text AskFable.Python AskFable.Machine

/-! ### The totals -/

def Bucket.get : RepField → Bucket → ℕ
  | .kills, b => b.kills
  | .deaths, b => b.deaths
  | .survives, b => b.survives

/-- The sum of one counter over all agents and domains. -/
def Ledger.total (led : Ledger) (field : RepField) : ℕ :=
  (led.rep.map fun p => p.2.get field).sum

/-- The accepted kill records over all claims. -/
def Ledger.acceptedKills (led : Ledger) : ℕ :=
  (led.claims.map fun c => c.kills.countP Kill.accepted).sum

theorem get_bump (f g : RepField) (b : Bucket) :
    (b.bump f).get g = b.get g + if f = g then 1 else 0 := by
  cases f <;> cases g <;> rfl

theorem sum_bumpKey (key : Str) (f g : RepField) (rep : List (Str × Bucket)) :
    ((bumpKey key f rep).map fun p => p.2.get g).sum =
      (rep.map fun p => p.2.get g).sum + if f = g then 1 else 0 := by
  induction rep with
  | nil =>
    have hzero : (⟨0, 0, 0⟩ : Bucket).get g = 0 := by cases g <;> rfl
    simp [bumpKey, get_bump, hzero]
  | cons p rest ih =>
    obtain ⟨k, b⟩ := p
    by_cases hk : k = key
    · simp only [bumpKey, if_pos hk, List.map_cons, List.sum_cons, get_bump]
      omega
    · simp only [bumpKey, if_neg hk, List.map_cons, List.sum_cons, ih]
      omega

theorem total_bumpRep (led : Ledger) (agent domain : Str) (f g : RepField) :
    (bumpRep led agent domain f).total g = led.total g + if f = g then 1 else 0 :=
  sum_bumpKey _ f g led.rep

/-- Neither the counters nor the kill records have changed. -/
structure SameKills (led led' : Ledger) : Prop where
  rep : led'.rep = led.rep
  acceptedKills : led'.acceptedKills = led.acceptedKills

theorem SameKills.refl (led : Ledger) : SameKills led led := ⟨rfl, rfl⟩

theorem SameKills.trans {a b c : Ledger} (h : SameKills a b) (h' : SameKills b c) :
    SameKills a c := ⟨h'.rep.trans h.rep, h'.acceptedKills.trans h.acceptedKills⟩

theorem SameKills.total {led led' : Ledger} (h : SameKills led led') (f : RepField) :
    led'.total f = led.total f := by rw [Ledger.total, h.rep, ← Ledger.total]

/-- Rewriting claims at their places without touching what their kills count to. -/
theorem sameKills_mapIdx (led : Ledger) {f : ℕ → Claim → Claim}
    (h : ∀ i c, (f i c).kills.countP Kill.accepted = c.kills.countP Kill.accepted) :
    SameKills led { led with claims := led.claims.mapIdx f } :=
  ⟨rfl, congrArg List.sum (Keyed.map_mapIdx h led.claims)⟩

/-! ### Each operation -/

theorem acceptedKills_recordKill {led : Ledger} {targetId : Str} {target : Claim}
    (h : byId led targetId = some target) (killer : Str) (kind : Move) (accepted : Bool)
    (roundNo : ℕ) :
    (recordKill led targetId killer kind accepted roundNo).acceptedKills =
      led.acceptedKills + if accepted = true then 1 else 0 := by
  have hsum := Keyed.sum_modifyLast Claim.id (fun c => c.kills.countP Kill.accepted)
    (f := Claim.strike ⟨killer, kind, roundNo, accepted, false⟩) h
  have hstrike : (target.strike ⟨killer, kind, roundNo, accepted, false⟩).kills.countP
      Kill.accepted = target.kills.countP Kill.accepted + if accepted = true then 1 else 0 := by
    cases accepted <;> simp [Claim.strike, List.countP_append]
  simp only [Ledger.acceptedKills, recordKill, Ledger.modify]
  omega

section
variable [Host]

theorem applyAsserts_sameKills (raws : List Dict) (acc : Ledger × List Str × List Dict) :
    SameKills acc.1 (raws.foldl applyAssert acc).1 := by
  induction raws generalizing acc with
  | nil => exact .refl _
  | cons raw raws ih =>
    refine SameKills.trans ?_ (ih (applyAssert acc raw))
    obtain ⟨led, accepted, rejected⟩ := acc
    simp only [applyAssert]
    split_ifs
    · exact .refl led
    · cases hnorm : normalizeClaim raw with
      | none => exact .refl led
      | some norm =>
        simp only
        split_ifs
        · refine ⟨rfl, congrArg List.sum (Keyed.map_modifyLast Claim.id (fun c => ?_) _ _)⟩
          unfold Claim.reassert
          split_ifs
          · exact countP_accepted_address c.kills
          · rfl
        · obtain ⟨-, -, -, -, hk, -⟩ := normalizeClaim_spec hnorm
          exact ⟨rfl, by simp [Ledger.acceptedKills, hk]⟩

theorem clerkAsserts_sameKills (led : Ledger) (block : Option Json) (author corpus : Str)
    (gate : Bool) (box : Sandbox) :
    SameKills led (clerkAsserts led block author corpus gate box).1 := by
  refine (applyAsserts_sameKills _ (led, [], [])).trans (sameKills_mapIdx _ fun i c => ?_)
  split_ifs <;> rfl

theorem clerkMetamorph_sameKills (m : Metamorph) (led : Ledger) :
    SameKills led (clerkMetamorph m led) := by
  refine sameKills_mapIdx led fun i c => ?_
  split_ifs
  · rfl
  · rfl
  · cases metamorphCheck m i c.claim <;> rfl

omit [Host] in
theorem resolve_sameKills (k : ℕ) (led : Ledger) : SameKills led (resolve k led) := by
  refine ⟨rfl, ?_⟩
  simp only [Ledger.acceptedKills, resolve, List.map_map]
  refine congrArg List.sum (List.map_congr_left fun c _ => ?_)
  simp only [Function.comp_apply, Claim.settle]
  split_ifs <;> rfl

theorem Registered.sameKills {corpus : Str} {led led₁ : Ledger} (h : Registered corpus led led₁) :
    SameKills led led₁ := by
  refine ⟨h.rep, ?_⟩
  rcases h.claims with heq | ⟨c, hborn, -, heq⟩
  · rw [Ledger.acceptedKills, heq, ← Ledger.acceptedKills]
  · simp [Ledger.acceptedKills, heq, hborn.kills]

/-- Kills, deaths and accepted kill records move together. -/
structure Conserved (led led' : Ledger) (n : ℕ) : Prop where
  kills : led'.total .kills = led.total .kills + n
  deaths : led'.total .deaths = led.total .deaths + n
  acceptedKills : led'.acceptedKills = led.acceptedKills + n
  survives : led'.total .survives = led.total .survives

omit [Host] in
theorem SameKills.conserved {led led' : Ledger} (h : SameKills led led') : Conserved led led' 0 :=
  ⟨h.total _, h.total _, h.acceptedKills, h.total _⟩

omit [Host] in
theorem Conserved.trans {a b c : Ledger} {m n : ℕ} (h : Conserved a b m) (h' : Conserved b c n) :
    Conserved a c (m + n) := by
  obtain ⟨h1, h2, h3, h4⟩ := h
  obtain ⟨h1', h2', h3', h4'⟩ := h'
  constructor <;> omega

omit [Host] in
theorem landKill_conserved {led : Ledger} {targetId : Str} {target : Claim}
    (h : byId led targetId = some target) (killer author domain : Str) (kind : Move)
    (roundNo : ℕ) :
    Conserved led (landKill led targetId killer author domain kind roundNo) 1 := by
  have hrec (g : RepField) : (recordKill led targetId killer kind true roundNo).total g =
      led.total g := rfl
  have hkill := acceptedKills_recordKill h killer kind true roundNo
  constructor
  · simp [landKill, total_bumpRep, hrec]
  · simp [landKill, total_bumpRep, hrec]
  · exact hkill
  · simp [landKill, total_bumpRep, hrec]

theorem Attacked.conserved {corpus killer : Str} {roundNo : ℕ} {led led' : Ledger}
    (h : Attacked corpus killer roundNo led led') (hn : led.ids.Nodup) :
    ∃ n, Conserved led led' n := by
  cases h with
  | ignored => exact ⟨0, (SameKills.refl led).conserved⟩
  | @failed led₁ targetId target kind hreg ht halive =>
    have hkill := acceptedKills_recordKill (hreg.byId hn ht) killer kind false roundNo
    have hrec : SameKills led₁ (recordKill led₁ targetId killer kind false roundNo) :=
      ⟨rfl, by simpa using hkill⟩
    exact ⟨0, (hreg.sameKills.trans hrec).conserved⟩
  | landed author domain kind hreg ht halive =>
    exact ⟨0 + 1, hreg.sameKills.conserved.trans
      (landKill_conserved (hreg.byId hn ht) killer author domain kind roundNo)⟩

theorem clerkAttacks_conserved {led : Ledger} (hn : led.ids.Nodup) (block : Option Json)
    (killer corpus : Str) (roundNo : ℕ) (gate : Bool) (box : Sandbox) :
    ∃ n, Conserved led (clerkAttacks led block killer corpus roundNo gate box) n := by
  unfold clerkAttacks
  generalize (turnRows block (txt "attacks")).zipIdx = rows
  induction rows generalizing led with
  | nil => exact ⟨0, (SameKills.refl led).conserved⟩
  | cons row rows ih =>
    have hatk := clerkAttack_attacked killer corpus roundNo gate box led row
    obtain ⟨m, hm⟩ := hatk.conserved hn
    obtain ⟨n, hn'⟩ := ih (hatk.evolves hn).nodup
    exact ⟨m + n, hm.trans hn'⟩

omit [Host] in
theorem total_creditSurvivor (led : Ledger) (cid : Str) (g : RepField) :
    (creditSurvivor led cid).total g = led.total g + if RepField.survives = g then 1 else 0 := by
  unfold creditSurvivor
  cases byId led cid <;> exact total_bumpRep _ _ _ _ _

/-- The claims that are `survived` now and were not before. -/
def newlySurvivedIds (before after : Ledger) : List Str :=
  (survivedIds after).filter fun cid => !(survivedIds before).contains cid

omit [Host] in
theorem total_creditSurvivors (before after : Ledger) (g : RepField) :
    (creditSurvivors before after).total g = after.total g +
      if RepField.survives = g then (newlySurvivedIds before after).length else 0 := by
  unfold creditSurvivors newlySurvivedIds
  generalize (survivedIds after).filter _ = cids
  induction cids generalizing after with
  | nil => simp
  | cons cid cids ih =>
    rw [List.foldl_cons, ih, total_creditSurvivor]
    split_ifs <;> simp; omega

omit [Host] in
theorem acceptedKills_creditSurvivors (before after : Ledger) :
    (creditSurvivors before after).acceptedKills = after.acceptedKills := by
  rw [Ledger.acceptedKills, creditSurvivors_claims, ← Ledger.acceptedKills]

/-! ### Every run -/

/-- The counters of kills and deaths both count the accepted kill records. -/
def Ledger.Balanced (led : Ledger) : Prop :=
  led.total .kills = led.acceptedKills ∧ led.total .deaths = led.acceptedKills

omit [Host] in
theorem Conserved.balanced {led led' : Ledger} {n : ℕ} (h : Conserved led led' n)
    (hb : led.Balanced) : led'.Balanced := by
  obtain ⟨hk, hd⟩ := hb
  exact ⟨by rw [h.kills, h.acceptedKills, hk], by rw [h.deaths, h.acceptedKills, hd]⟩

theorem step_balanced {led : Ledger} (hn : led.ids.Nodup) (hb : led.Balanced) (call : Call) :
    (step led call).Balanced := by
  cases call with
  | asserts block author corpus gate box =>
    exact (clerkAsserts_sameKills led block author corpus gate box).conserved.balanced hb
  | metamorph m => exact (clerkMetamorph_sameKills m led).conserved.balanced hb
  | attacks block killer corpus roundNo gate box =>
    obtain ⟨n, hcons⟩ := clerkAttacks_conserved hn block killer corpus roundNo gate box
    exact hcons.balanced hb
  | resolve => exact (resolve_sameKills DEFAULT_K led).conserved.balanced hb
  | credit before =>
    simp only [Ledger.Balanced, step, total_creditSurvivors, acceptedKills_creditSurvivors]
    simpa [Ledger.Balanced] using hb
  | mark round status => exact hb

theorem run_balanced (session : Str) (calls : List Call) :
    (calls.foldl step (newLedger session)).Balanced := by
  have h := foldl_invariant step (I := fun led => led.Sound ∧ led.Balanced)
    (fun led call hs => ⟨hs.1.step call, step_balanced hs.1.nodup hs.2 call⟩)
    ⟨newLedger_sound session, rfl, rfl⟩ calls
  exact h.2

/-- A dead claim out of reopenings. -/
def Claim.Buried (c : Claim) : Prop := c.status = .killed ∧ c.reopens = MAX_REOPENS

theorem Claim.Buried.of_step {call : Call} {c c' : Claim} (h : c.Buried) (hs : c.Sound)
    (h' : ClaimStep call c c') : c'.Buried := by
  obtain ⟨hk, hr⟩ := h
  have hsame (hf : SameFate c c') : c'.Buried := ⟨hf.status.trans hk, hf.reopens.trans hr⟩
  cases call with
  | asserts block author corpus gate box =>
    rcases h'.fate with hf | hre
    · exact hsame hf
    · have := hre.bounded
      omega
  | metamorph m => exact hsame h'.2
  | attacks block killer corpus roundNo gate box => exact Struck.eq_of_killed h' hk ▸ ⟨hk, hr⟩
  | resolve =>
    rw [show c' = c from h'.trans (hs.settle_killed hk _)]
    exact ⟨hk, hr⟩
  | credit before => exact h' ▸ ⟨hk, hr⟩
  | mark round status => exact h' ▸ ⟨hk, hr⟩

theorem run_buried {led : Ledger} (hled : led.Sound) {c : Claim} (hc : c ∈ led.claims)
    (h : c.Buried) (calls : List Call) :
    ∃ c' ∈ (calls.foldl step led).claims, c'.id = c.id ∧ c'.Buried := by
  have hinv := foldl_invariant step
    (I := fun led => led.Sound ∧ ∃ c' ∈ led.claims, c'.id = c.id ∧ c'.Buried)
    (fun led call ⟨hs, c₁, hc₁, hid, hb⟩ => by
      obtain ⟨c₂, hc₂, hid₂, hstep⟩ := (step_evolves hs.nodup call).successor hs.nodup hc₁
      exact ⟨hs.step call, c₂, hc₂, hid₂.trans hid, hb.of_step (hs.claims c₁ hc₁) hstep⟩)
    ⟨hled, c, hc, rfl, h⟩ calls
  exact hinv.2

/-- A claim leaves `killed` only by an assertion that answers its kill. -/
theorem step_leaves_killed {led : Ledger} (hled : led.Sound) {call : Call} {c c' : Claim}
    (hc : c ∈ led.claims) (hk : c.status = .killed) (hc' : c' ∈ (step led call).claims)
    (hid : c'.id = c.id) (hleft : c'.status ≠ .killed) :
    ∃ block author corpus gate box, call = .asserts block author corpus gate box ∧
      ∃ row ∈ turnRows block (txt "claims"), Answers c.id row := by
  have hev := step_evolves hled.nodup call
  obtain ⟨c₁, hc₁, hid₁, hstep⟩ := hev.successor hled.nodup hc
  obtain rfl : c₁ = c' := List.inj_on_of_nodup_map hev.nodup hc₁ hc' (hid₁.trans hid.symm)
  cases call with
  | asserts block author corpus gate box =>
    rcases hstep.fate with hf | hre
    · exact absurd (hf.status.trans hk) hleft
    · obtain ⟨raw, hraw, hans⟩ := hre.answered
      obtain ⟨row, hrow, rfl⟩ := List.mem_map.mp hraw
      exact ⟨block, author, corpus, gate, box, rfl, row, hrow, hans.of_stamp⟩
  | metamorph m => exact absurd (hstep.2.status.trans hk) hleft
  | attacks block killer corpus roundNo gate box =>
    exact absurd (Struck.eq_of_killed hstep hk ▸ hk) hleft
  | resolve =>
    rw [show c₁ = c from hstep.trans ((hled.claims c hc).settle_killed hk _)] at hleft
    exact absurd hk hleft
  | credit before => exact absurd (hstep ▸ hk) hleft
  | mark round status => exact absurd (hstep ▸ hk) hleft

/-! ### Rounds -/

theorem rounds_eq_calls (rounds : List Round) (led : Ledger) :
    ∃ calls : List Call, rounds.foldl playRound led = calls.foldl step led := by
  induction rounds generalizing led with
  | nil => exact ⟨[], rfl⟩
  | cons r rounds ih =>
    obtain ⟨calls, h⟩ := ih (playRound led r)
    refine ⟨r.calls led ++ calls, ?_⟩
    rw [List.foldl_cons, h, List.foldl_append, playRound_eq_calls]

omit [Host] in
/-- A claim that is not in the ledger yet counts as open. -/
def statusIn (led : Ledger) (cid : Str) : Status := (byId led cid).elim .open Claim.status

/-- The claims whose status changed to `survived` between two ledgers. -/
def newlySurvived (before after : Ledger) : ℕ :=
  after.claims.countP fun c => c.status == .survived && statusIn before c.id != .survived

/-- The status changes to `survived` over the rounds from `led`. -/
def survivals (led : Ledger) : List Round → ℕ
  | [] => 0
  | r :: rounds => newlySurvived led (playRound led r) + survivals (playRound led r) rounds

omit [Host] in
theorem mem_survivedIds {led : Ledger} (hled : led.Sound) (cid : Str) :
    cid ∈ survivedIds led ↔ statusIn led cid = .survived := by
  simp only [survivedIds, List.mem_map, List.mem_filter, Bool.and_eq_true, beq_iff_eq, statusIn]
  constructor
  · rintro ⟨c, ⟨hc, hs, -⟩, rfl⟩
    rw [byId_of_mem hled.nodup hc]
    exact hs
  · intro h
    cases hby : byId led cid with
    | none => simp [hby] at h
    | some c =>
      rw [hby] at h
      obtain ⟨hc, rfl⟩ := mem_of_byId hby
      exact ⟨c, ⟨hc, h, by simpa using (hled.claims c hc).named⟩, rfl⟩

omit [Host] in
theorem length_newlySurvivedIds {before after : Ledger} (hb : before.Sound) (ha : after.Sound) :
    (newlySurvivedIds before after).length = newlySurvived before after := by
  simp only [newlySurvivedIds, survivedIds, List.filter_map, List.length_map, newlySurvived,
    List.filter_filter, ← List.countP_eq_length_filter]
  refine List.countP_congr fun c hc => ?_
  have hnamed : c.id ≠ [] := (ha.claims c hc).named
  have hmem := mem_survivedIds hb c.id
  unfold survivedIds at hmem
  simp [hnamed, ← hmem, and_comm]

/-- A round up to its resolution, credits apart. -/
def Round.resolved (led : Ledger) (r : Round) : Ledger :=
  let before := { led with status := .active }
  let led := (clerkAsserts before r.assertBlock r.author r.corpus r.gate r.assertBox).1
  let led := r.metamorph.elim led fun m => clerkMetamorph m led
  resolve DEFAULT_K
    (clerkAttacks led r.attackBlock r.killer r.corpus (before.round + 1) r.gate r.attackBox)

theorem playRound_claims (led : Ledger) (r : Round) :
    (playRound led r).claims = (r.resolved led).claims := by
  cases h : r.metamorph <;> simp [playRound, Round.resolved, creditSurvivors_claims, h]

theorem playRound_total (led : Ledger) (r : Round) (g : RepField) :
    (playRound led r).total g =
      (creditSurvivors { led with status := .active } (r.resolved led)).total g := by
  cases h : r.metamorph <;> simp [playRound, Round.resolved, Ledger.total, h]

theorem resolved_spec {led : Ledger} (hled : led.Sound) (r : Round) :
    (r.resolved led).Sound ∧ (r.resolved led).total .survives = led.total .survives := by
  have hbefore : ({ led with status := .active } : Ledger).Sound := ⟨hled.nodup, hled.claims⟩
  have h1 := hbefore.step (.asserts r.assertBlock r.author r.corpus r.gate r.assertBox)
  have hs1 := clerkAsserts_sameKills { led with status := .active } r.assertBlock r.author
    r.corpus r.gate r.assertBox
  have hattack {led₁ : Ledger} (h : led₁.Sound) (n : ℕ) :
      (resolve DEFAULT_K (clerkAttacks led₁ r.attackBlock r.killer r.corpus n r.gate
        r.attackBox)).Sound ∧
      (resolve DEFAULT_K (clerkAttacks led₁ r.attackBlock r.killer r.corpus n r.gate
        r.attackBox)).total .survives = led₁.total .survives := by
    have h2 := h.step (.attacks r.attackBlock r.killer r.corpus n r.gate r.attackBox)
    obtain ⟨m, hm⟩ := clerkAttacks_conserved h.nodup r.attackBlock r.killer r.corpus n r.gate
      r.attackBox
    exact ⟨h2.step .resolve, ((resolve_sameKills _ _).total _).trans hm.survives⟩
  unfold Round.resolved
  cases hm : r.metamorph with
  | none =>
    obtain ⟨hsound, htotal⟩ := hattack h1 (led.round + 1)
    exact ⟨hsound, htotal.trans (hs1.total _)⟩
  | some m =>
    obtain ⟨hsound, htotal⟩ := hattack (h1.step (.metamorph m)) (led.round + 1)
    exact ⟨hsound, htotal.trans (((clerkMetamorph_sameKills m _).total _).trans (hs1.total _))⟩

theorem total_survives_playRound {led : Ledger} (hled : led.Sound) (r : Round) :
    (playRound led r).total .survives =
      led.total .survives + newlySurvived led (playRound led r) := by
  have hbefore : ({ led with status := .active } : Ledger).Sound := ⟨hled.nodup, hled.claims⟩
  obtain ⟨hsound, htotal⟩ := resolved_spec hled r
  have hsame : newlySurvived led (playRound led r) =
      newlySurvived { led with status := .active } (r.resolved led) := by
    simp only [newlySurvived, playRound_claims]
    rfl
  rw [playRound_total, total_creditSurvivors, if_pos rfl, htotal, hsame,
    length_newlySurvivedIds hbefore hsound]

theorem playRound_sound {led : Ledger} (hled : led.Sound) (r : Round) : (playRound led r).Sound := by
  rw [playRound_eq_calls]
  exact hled.run _

theorem total_survives_rounds {led : Ledger} (hled : led.Sound) (rounds : List Round) :
    (rounds.foldl playRound led).total .survives = led.total .survives + survivals led rounds := by
  induction rounds generalizing led with
  | nil => rfl
  | cons r rounds ih =>
    rw [List.foldl_cons, ih (playRound_sound hled r), total_survives_playRound hled, survivals]
    omega

/-- A claim dies at most once more than it was reopened, and for good once its reopenings
are used up; only an answering assertion brings it back; the counters of a session add up
to its accepted kills and to its changes to `survived`. -/
theorem dead_claims_and_reputation (session : Str) :
    (∀ calls : List Call, ∀ c ∈ (calls.foldl step (newLedger session)).claims,
      c.kills.countP Kill.accepted ≤ 1 + c.reopens ∧ c.reopens ≤ MAX_REOPENS ∧
      (c.status = .killed → c.reopens = MAX_REOPENS → ∀ later : List Call,
        (byId ((calls ++ later).foldl step (newLedger session)) c.id).map Claim.status =
          some .killed) ∧
      ∀ call, ∀ c' ∈ (step (calls.foldl step (newLedger session)) call).claims,
        c'.id = c.id → c.status = .killed → c'.status ≠ .killed →
          ∃ block author corpus gate box, call = .asserts block author corpus gate box ∧
            ∃ row ∈ turnRows block (txt "claims"), Answers c.id row) ∧
    (∀ calls : List Call,
      (calls.foldl step (newLedger session)).total .kills =
          (calls.foldl step (newLedger session)).acceptedKills ∧
        (calls.foldl step (newLedger session)).total .deaths =
          (calls.foldl step (newLedger session)).acceptedKills) ∧
    ∀ rounds : List Round,
      (∃ calls : List Call, rounds.foldl playRound (newLedger session) =
        calls.foldl step (newLedger session)) ∧
      (rounds.foldl playRound (newLedger session)).total .survives =
        survivals (newLedger session) rounds := by
  refine ⟨fun calls c hc => ?_, fun calls => run_balanced session calls,
    fun rounds => ⟨rounds_eq_calls rounds _, ?_⟩⟩
  · have hsound := run_sound session calls
    have hcs := hsound.claims c hc
    have hacc := hcs.accepted
    refine ⟨by split_ifs at hacc <;> omega, hcs.reopens, fun hk hr later => ?_,
      fun call c' hc' hid hk hleft => step_leaves_killed hsound hc hk hc' hid hleft⟩
    obtain ⟨c', hc', hid, hdead, -⟩ := run_buried hsound hc ⟨hk, hr⟩ later
    rw [List.foldl_append, ← hid, byId_of_mem (hsound.run later).nodup hc']
    exact congrArg some hdead
  · have hstart : (newLedger session).total .survives = 0 := rfl
    rw [total_survives_rounds (newLedger_sound session), hstart, Nat.zero_add]

end

end AskFable.Falsify
