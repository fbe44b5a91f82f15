import AskFable.Falsify.Clerk
import Mathlib.Logic.Relation

/-!
# What each operation does to a claim

One relation between a ledger and its successor covers every operation: old claims
evolve in place, new ones are appended under new ids. What an operation may do to one
old claim, and what a claim it registers looks like, is said once here; the invariants
of later files are read off these relations and never unfold the clerk again.
-/
namespace AskFable.Falsify
open AskFable.Text AskFable.Python Relation

/-! ### One claim -/

/-- The claim keeps its identity and only gains receipts, each of them a `P`. -/
structure Extended (P : Dict → Prop) (c c' : Claim) : Prop where
  id : c'.id = c.id
  author : c'.author = c.author
  domain : c'.domain = c.domain
  claim : c'.claim = c.claim
  receipts : ∃ rs, c'.receipts = c.receipts ++ rs ∧ ∀ r ∈ rs, P r

theorem Extended.refl (P : Dict → Prop) (c : Claim) : Extended P c c :=
  ⟨rfl, rfl, rfl, rfl, [], by simp, by simp⟩

theorem Extended.trans {P : Dict → Prop} {a b c : Claim} (h : Extended P a b)
    (h' : Extended P b c) : Extended P a c := by
  obtain ⟨rs, hrs, hP⟩ := h.receipts
  obtain ⟨rs', hrs', hP'⟩ := h'.receipts
  refine ⟨h'.id.trans h.id, h'.author.trans h.author, h'.domain.trans h.domain,
    h'.claim.trans h.claim, rs ++ rs', by rw [hrs', hrs, List.append_assoc], ?_⟩
  intro r hr
  rcases List.mem_append.mp hr with hr | hr
  · exact hP r hr
  · exact hP' r hr

/-- Receipts that were supporting stay so. -/
theorem Extended.support {P : Dict → Prop} {c c' : Claim} (h : Extended P c c')
    (hs : hasSupport c = true) : hasSupport c' = true := by
  obtain ⟨rs, hrs, -⟩ := h.receipts
  simp only [hasSupport, List.any_eq_true] at hs ⊢
  obtain ⟨r, hr, hsup⟩ := hs
  exact ⟨r, by rw [hrs]; exact List.mem_append_left _ hr, hsup⟩

/-- Status, kills and counters are untouched. -/
structure SameFate (c c' : Claim) : Prop where
  status : c'.status = c.status
  kills : c'.kills = c.kills
  attempts : c'.attempts = c.attempts
  reopens : c'.reopens = c.reopens

theorem SameFate.refl (c : Claim) : SameFate c c := ⟨rfl, rfl, rfl, rfl⟩

/-- A raw claim that answers the kill of claim `cid`. -/
def Answers [Host] (cid : Str) (raw : Dict) : Prop :=
  strip (Dict.text raw (txt "id")) = cid ∧ addressesKill raw cid = true

/-- A killed claim comes back to `open`, answered by one of `raws`. -/
structure Reopened [Host] (raws : List Dict) (c c' : Claim) : Prop where
  killed : c.status = .killed
  bounded : c.reopens < MAX_REOPENS
  answered : ∃ raw ∈ raws, Answers c.id raw
  status : c'.status = .open
  kills : c'.kills = c.kills.map Kill.address
  attempts : c'.attempts = 0
  reopens : c'.reopens = c.reopens + 1

/-- What asserting `raws` does to an old claim. -/
structure Reasserted [Host] (raws : List Dict) (P : Dict → Prop) (c c' : Claim) : Prop where
  extended : Extended P c c'
  fate : SameFate c c' ∨ Reopened raws c c'

theorem Reasserted.refl [Host] (raws : List Dict) (P : Dict → Prop) (c : Claim) :
    Reasserted raws P c c := ⟨.refl P c, .inl (.refl c)⟩

theorem Reasserted.trans [Host] {raws : List Dict} {P : Dict → Prop} {a b c : Claim}
    (h : Reasserted raws P a b) (h' : Reasserted raws P b c) : Reasserted raws P a c := by
  refine ⟨h.extended.trans h'.extended, ?_⟩
  rcases h.fate with hf | hf <;> rcases h'.fate with hf' | hf'
  · exact .inl ⟨hf'.status.trans hf.status, hf'.kills.trans hf.kills,
      hf'.attempts.trans hf.attempts, hf'.reopens.trans hf.reopens⟩
  · refine .inr ⟨hf.status ▸ hf'.killed, hf.reopens ▸ hf'.bounded, ?_, hf'.status, ?_,
      hf'.attempts, ?_⟩
    · rw [← h.extended.id]
      exact hf'.answered
    · rw [hf'.kills, hf.kills]
    · rw [hf'.reopens, hf.reopens]
  · exact .inr ⟨hf.killed, hf.bounded, hf.answered, hf'.status.trans hf.status,
      hf'.kills.trans hf.kills, hf'.attempts.trans hf.attempts, hf'.reopens.trans hf.reopens⟩
  -- a claim that has just been reopened is not killed, so it cannot reopen again
  · exact absurd (hf.status.symm.trans hf'.killed) (by simp)

/-- A claim as it is registered. -/
structure Newborn (P : Dict → Prop) (c : Claim) : Prop where
  named : c.id ≠ []
  status : c.status = .open
  kills : c.kills = []
  attempts : c.attempts = 0
  reopens : c.reopens = 0
  receipts : ∀ r ∈ c.receipts, P r

theorem Newborn.reasserted [Host] {raws : List Dict} {P : Dict → Prop} {c c' : Claim}
    (h : Newborn P c) (h' : Reasserted raws P c c') : Newborn P c' := by
  rcases h'.fate with hf | hf
  · obtain ⟨rs, hrs, hP⟩ := h'.extended.receipts
    refine ⟨h'.extended.id ▸ h.named, hf.status.trans h.status, hf.kills.trans h.kills,
      hf.attempts.trans h.attempts, hf.reopens.trans h.reopens, ?_⟩
    intro r hr
    rw [hrs] at hr
    rcases List.mem_append.mp hr with hr | hr
    · exact h.receipts r hr
    · exact hP r hr
  · exact absurd (h.status.symm.trans hf.killed) (by simp)

/-- One recorded attempt against a claim that is not killed. -/
inductive Strike : Claim → Claim → Prop
  | mk (c : Claim) (kill : Kill) (alive : c.status ≠ .killed) (fresh : kill.addressed = false) :
    Strike c (c.strike kill)

/-- The attempts of one falsifier turn. -/
abbrev Struck : Claim → Claim → Prop := ReflTransGen Strike

theorem Strike.extended {c c' : Claim} (h : Strike c c') (P : Dict → Prop) : Extended P c c' := by
  obtain ⟨kill, -, -⟩ := h
  by_cases ha : kill.accepted = true <;>
    exact ⟨by simp [Claim.strike, ha], by simp [Claim.strike, ha], by simp [Claim.strike, ha],
      by simp [Claim.strike, ha], [], by simp [Claim.strike, ha], by simp⟩

theorem Struck.extended {c c' : Claim} (h : Struck c c') (P : Dict → Prop) :
    Extended P c c' := by
  induction h with
  | refl => exact .refl P c
  | tail _ hs ih => exact ih.trans (hs.extended P)

theorem Struck.reopens {c c' : Claim} (h : Struck c c') : c'.reopens = c.reopens := by
  induction h with
  | refl => rfl
  | tail _ hs ih =>
    obtain ⟨kill, -, -⟩ := hs
    rw [← ih]
    by_cases ha : kill.accepted = true <;> simp [Claim.strike, ha]

/-- A killed claim is not attacked again. -/
theorem Struck.eq_of_killed {c c' : Claim} (h : Struck c c') (hk : c.status = .killed) :
    c' = c := by
  induction h with
  | refl => rfl
  | tail _ hs ih =>
    subst ih
    obtain ⟨kill, alive, -⟩ := hs
    exact absurd hk alive

theorem settle_id (k : ℕ) (c : Claim) : (c.settle k).id = c.id := by
  unfold Claim.settle
  split_ifs <;> rfl

/-! ### The whole ledger -/

/-- Old claims evolve by `R`; new ones satisfy `N` and take new ids. -/
structure Evolves (R : Claim → Claim → Prop) (N : Claim → Prop) (led led' : Ledger) : Prop where
  ids : ∃ new, led'.ids = led.ids ++ new
  nodup : led'.ids.Nodup
  origin : ∀ c' ∈ led'.claims,
    (∃ c ∈ led.claims, c'.id = c.id ∧ R c c') ∨ (c'.id ∉ led.ids ∧ N c')

namespace Evolves

variable {R R' R'' : Claim → Claim → Prop} {N N' N'' : Claim → Prop} {a b c led : Ledger}

theorem refl (hR : ∀ c, R c c) (h : led.ids.Nodup) : Evolves R N led led :=
  ⟨⟨[], by simp⟩, h, fun c hc => .inl ⟨c, hc, rfl, hR c⟩⟩

theorem trans (h : Evolves R N a b) (h' : Evolves R' N' b c)
    (hR : ∀ x y z, R x y → R' y z → R'' x z) (hN : ∀ y z, N y → R' y z → N'' z)
    (hN' : ∀ z, N' z → N'' z) : Evolves R'' N'' a c := by
  obtain ⟨new, hnew⟩ := h.ids
  obtain ⟨new', hnew'⟩ := h'.ids
  refine ⟨⟨new ++ new', by rw [hnew', hnew, List.append_assoc]⟩, h'.nodup, ?_⟩
  intro z hz
  rcases h'.origin z hz with ⟨y, hy, hid, hyz⟩ | ⟨hid, hNz⟩
  · rcases h.origin y hy with ⟨x, hx, hid', hxy⟩ | ⟨hid', hNy⟩
    · exact .inl ⟨x, hx, hid.trans hid', hR x y z hxy hyz⟩
    · exact .inr ⟨hid ▸ hid', hN y z hNy hyz⟩
  · refine .inr ⟨fun hmem => hid ?_, hN' z hNz⟩
    rw [hnew]
    exact List.mem_append_left _ hmem

theorem mono (h : Evolves R N a b) (hR : ∀ x y, R x y → R' x y) (hN : ∀ z, N z → N' z) :
    Evolves R' N' a b := by
  refine ⟨h.ids, h.nodup, fun z hz => ?_⟩
  rcases h.origin z hz with ⟨x, hx, hid, hxz⟩ | ⟨hid, hz⟩
  · exact .inl ⟨x, hx, hid, hR x z hxz⟩
  · exact .inr ⟨hid, hN z hz⟩

/-- Only the claims matter. -/
theorem congr_right (h : Evolves R N a b) (hbc : c.claims = b.claims) : Evolves R N a c := by
  have hids : c.ids = b.ids := by rw [Ledger.ids, Ledger.ids, hbc]
  exact ⟨hids ▸ h.ids, hids ▸ h.nodup, by rw [hbc]; exact h.origin⟩

/-- A property of claims that births have and evolution keeps. -/
theorem forall_claims {I : Claim → Prop} (h : Evolves R N a b) (hI : ∀ c ∈ a.claims, I c)
    (hR : ∀ c c', R c c' → I c → I c') (hN : ∀ c, N c → I c) : ∀ c ∈ b.claims, I c := by
  intro c' hc'
  rcases h.origin c' hc' with ⟨c, hc, -, hcc'⟩ | ⟨-, hn⟩
  · exact hR c c' hcc' (hI c hc)
  · exact hN c' hn

/-- Every old claim is still there, evolved. -/
theorem successor (h : Evolves R N a b) (ha : a.ids.Nodup) {c : Claim} (hc : c ∈ a.claims) :
    ∃ c' ∈ b.claims, c'.id = c.id ∧ R c c' := by
  obtain ⟨new, hnew⟩ := h.ids
  have hmem : c.id ∈ b.ids := by
    rw [hnew]
    exact List.mem_append_left _ (List.mem_map_of_mem hc)
  obtain ⟨c', hc', hid⟩ := List.mem_map.mp hmem
  rcases h.origin c' hc' with ⟨c₀, hc₀, hid₀, hR⟩ | ⟨hnot, -⟩
  · have : c₀ = c := List.inj_on_of_nodup_map ha hc₀ hc (hid₀.symm.trans hid)
    exact ⟨c', hc', hid, this ▸ hR⟩
  · exact absurd (hid ▸ List.mem_map_of_mem hc) hnot

end Evolves

theorem byId_eq_none {led : Ledger} {cid : Str} : byId led cid = none ↔ cid ∉ led.ids :=
  Keyed.lookupLast_none Claim.id led.claims cid

theorem mem_of_byId {led : Ledger} {cid : Str} {c : Claim} (h : byId led cid = some c) :
    c ∈ led.claims ∧ c.id = cid := Keyed.mem_of_lookupLast Claim.id h

theorem byId_of_mem {led : Ledger} (h : led.ids.Nodup) {c : Claim} (hc : c ∈ led.claims) :
    byId led c.id = some c := (Keyed.lookupLast_some Claim.id h c).mpr hc

theorem modify_claims {led : Ledger} (h : led.ids.Nodup) (cid : Str) (f : Claim → Claim) :
    (led.modify cid f).claims = led.claims.map fun c => if c.id = cid then f c else c :=
  Keyed.modifyLast_eq_map Claim.id h cid f

/-- Changing one claim in place. -/
theorem evolves_modify {R : Claim → Claim → Prop} {N : Claim → Prop} {led : Ledger}
    (h : led.ids.Nodup) (cid : Str) {f : Claim → Claim} (hid : ∀ c, (f c).id = c.id)
    (hf : ∀ c ∈ led.claims, c.id = cid → R c (f c)) (hR : ∀ c, R c c) :
    Evolves R N led (led.modify cid f) := by
  have hids : (led.modify cid f).ids = led.ids := by
    rw [Ledger.ids, modify_claims h]
    exact Keyed.map_key_modify Claim.id cid hid
  refine ⟨⟨[], by simp [hids]⟩, hids ▸ h, ?_⟩
  intro c' hc'
  rw [modify_claims h] at hc'
  obtain ⟨c, hc, rfl⟩ := List.mem_map.mp hc'
  by_cases hcid : c.id = cid
  · rw [if_pos hcid]
    exact .inl ⟨c, hc, hid c, hf c hc hcid⟩
  · rw [if_neg hcid]
    exact .inl ⟨c, hc, rfl, hR c⟩

/-- Registering one claim under a new id. -/
theorem evolves_append {R : Claim → Claim → Prop} {N : Claim → Prop} {led : Ledger}
    (h : led.ids.Nodup) {c : Claim} (hnew : c.id ∉ led.ids) (hN : N c) (hR : ∀ c, R c c) :
    Evolves R N led { led with claims := led.claims ++ [c] } := by
  refine ⟨⟨[c.id], by simp [Ledger.ids]⟩, ?_, ?_⟩
  · rw [Ledger.ids, List.map_append]
    exact List.nodup_append.mpr ⟨h, by simp, fun x hx y hy => by
      rintro rfl
      simp only [List.map_cons, List.map_nil, List.mem_singleton] at hy
      exact hnew (hy ▸ hx)⟩
  · intro c' hc'
    rcases List.mem_append.mp hc' with hc' | hc'
    · exact .inl ⟨c', hc', rfl, hR c'⟩
    · rw [List.mem_singleton] at hc'
      subst hc'
      exact .inr ⟨hnew, hN⟩

/-- Rewriting every claim at its place. -/
theorem evolves_mapIdx {R : Claim → Claim → Prop} {N : Claim → Prop} {led : Ledger}
    (h : led.ids.Nodup) {f : ℕ → Claim → Claim} (hid : ∀ i c, (f i c).id = c.id)
    (hR : ∀ i, ∀ c ∈ led.claims, R c (f i c)) :
    Evolves R N led { led with claims := led.claims.mapIdx f } := by
  have hids : (led.claims.mapIdx f).map Claim.id = led.ids := Keyed.map_mapIdx hid _
  refine ⟨⟨[], by simp [Ledger.ids, hids]⟩, by rw [Ledger.ids, hids]; exact h, ?_⟩
  intro c' hc'
  obtain ⟨i, hi, rfl⟩ := List.mem_mapIdx.mp hc'
  exact .inl ⟨_, List.getElem_mem hi, hid _ _, hR i _ (List.getElem_mem hi)⟩

end AskFable.Falsify
