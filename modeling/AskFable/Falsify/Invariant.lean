import AskFable.Falsify.StepSpec
import AskFable.General.Machine

/-!
# The status invariant of the ledger

What holds of every claim of every ledger reached from `newLedger`, whatever the models
wrote and whatever the sandbox answered: a claim is killed exactly while it has an
unanswered accepted kill, of which there is at most one; each accepted kill but the
last was paid for by a reopening; and a survivor is supported and withstood enough
attempts, counted since its last reopening.
-/
namespace AskFable.Falsify
open AskFable.Text AskFable.Python AskFable.Machine Relation

/-! ### One claim -/

structure Claim.Sound (c : Claim) : Prop where
  named : c.id ≠ []
  live : c.kills.countP Kill.live = if c.status = .killed then 1 else 0
  accepted : c.kills.countP Kill.accepted = c.reopens + if c.status = .killed then 1 else 0
  reopens : c.reopens ≤ MAX_REOPENS
  survived : c.status = .survived → hasSupport c = true ∧ DEFAULT_K ≤ c.attempts

theorem countP_live_address (ks : List Kill) : (ks.map Kill.address).countP Kill.live = 0 := by
  rw [List.countP_eq_zero]
  intro k hk
  obtain ⟨k₀, -, rfl⟩ := List.mem_map.mp hk
  by_cases h : k₀.accepted = true <;> simp [Kill.address, Kill.live, h]

theorem countP_accepted_address (ks : List Kill) :
    (ks.map Kill.address).countP Kill.accepted = ks.countP Kill.accepted := by
  rw [List.countP_map]
  refine List.countP_congr fun k _ => ?_
  by_cases h : k.accepted = true <;> simp [Kill.address, h]

namespace Claim.Sound

variable {c c' : Claim}

theorem of_newborn {P : Dict → Prop} (h : Newborn P c) : c.Sound := by
  refine ⟨h.named, ?_, ?_, ?_, ?_⟩
  · simp [h.kills, h.status]
  · simp [h.kills, h.status, h.reopens]
  · simp [h.reopens]
  · simp [h.status]

theorem of_sameFate {P : Dict → Prop} (h : c.Sound) (hext : Extended P c c')
    (hfate : SameFate c c') : c'.Sound := by
  refine ⟨hext.id ▸ h.named, ?_, ?_, hfate.reopens ▸ h.reopens, fun hs => ?_⟩
  · rw [hfate.kills, hfate.status, h.live]
  · rw [hfate.kills, hfate.status, hfate.reopens, h.accepted]
  · rw [hfate.attempts]
    exact (h.survived (hfate.status ▸ hs)).imp_left hext.support

theorem of_reasserted [Host] {raws : List Dict} {P : Dict → Prop} (h : c.Sound)
    (h' : Reasserted raws P c c') : c'.Sound := by
  rcases h'.fate with hfate | hre
  · exact h.of_sameFate h'.extended hfate
  · refine ⟨h'.extended.id ▸ h.named, ?_, ?_, hre.reopens ▸ hre.bounded, ?_⟩
    · rw [hre.kills, countP_live_address, hre.status]
      simp
    · -- the kill that is answered is the one the reopening pays for
      rw [hre.kills, countP_accepted_address, h.accepted, hre.status, hre.reopens, hre.killed]
      simp
    · simp [hre.status]

theorem of_strike (h : c.Sound) (h' : Strike c c') : c'.Sound := by
  obtain ⟨kill, alive, fresh⟩ := h'
  have hlive := h.live
  have haccepted := h.accepted
  rw [if_neg alive] at hlive haccepted
  by_cases ha : kill.accepted = true
  · refine ⟨?_, ?_, ?_, ?_, ?_⟩ <;> simp only [Claim.strike, if_pos ha]
    · exact h.named
    · simp [List.countP_append, hlive, Kill.live, ha, fresh]
    · simp [List.countP_append, haccepted, ha]
    · exact h.reopens
    · simp
  · refine ⟨?_, ?_, ?_, ?_, ?_⟩ <;> simp only [Claim.strike, if_neg ha]
    · exact h.named
    · simp [List.countP_append, hlive, Kill.live, ha, alive]
    · simp [List.countP_append, haccepted, ha, alive]
    · exact h.reopens
    · intro hs
      obtain ⟨hsup, hk⟩ := h.survived hs
      exact ⟨hsup, by omega⟩

theorem of_struck (h : c.Sound) (h' : Struck c c') : c'.Sound := by
  induction h' with
  | refl => exact h
  | tail _ hs ih => exact ih.of_strike hs

/-- A sound claim is killed exactly while it has a live kill. -/
theorem killed_iff (h : c.Sound) : c.status = .killed ↔ ∃ k ∈ c.kills, k.live = true := by
  rw [← List.countP_pos_iff, h.live]
  by_cases hk : c.status = .killed <;> simp [hk]

theorem settle_killed (h : c.Sound) (hk : c.status = .killed) (k : ℕ) : c.settle k = c := by
  have hany : c.kills.any Kill.live = true := by
    rw [List.any_eq_true]
    exact h.killed_iff.mp hk
  unfold Claim.settle
  rw [if_pos hany, ← hk]

theorem of_settle (h : c.Sound) : (c.settle DEFAULT_K).Sound := by
  by_cases hk : c.status = .killed
  · rw [h.settle_killed hk]
    exact h
  · have hlive := h.live
    have haccepted := h.accepted
    rw [if_neg hk] at hlive haccepted
    have hany : ¬c.kills.any Kill.live = true := by
      rw [List.any_eq_true, ← h.killed_iff]
      exact hk
    simp only [Claim.settle, if_neg hany, if_pos hk]
    split_ifs with hs
    · exact ⟨h.named, by simpa using hlive, by simpa using haccepted, h.reopens, fun _ => hs⟩
    · exact ⟨h.named, by simpa using hlive, by simpa using haccepted, h.reopens, by simp⟩

theorem of_step [Host] {call : Call} (h : c.Sound) (h' : ClaimStep call c c') : c'.Sound := by
  cases call with
  | asserts block author corpus gate box => exact h.of_reasserted h'
  | metamorph m => exact h.of_sameFate h'.1 h'.2
  | attacks block killer corpus roundNo gate box => exact h.of_struck h'
  | resolve => exact h' ▸ h.of_settle
  | credit before => exact h' ▸ h
  | mark round status => exact h' ▸ h

theorem of_birth [Host] {call : Call} (h : ClaimBirth call c) : c.Sound := by
  cases call with
  | asserts block author corpus gate box => exact .of_newborn h
  | attacks block killer corpus roundNo gate box =>
    obtain ⟨c₀, hborn, hs⟩ := h
    exact (of_newborn hborn).of_struck hs
  | metamorph | resolve | credit | mark => exact h.elim

end Claim.Sound

/-! ### Every reachable ledger -/

section
variable [Host]

structure Ledger.Sound (led : Ledger) : Prop where
  nodup : led.ids.Nodup
  claims : ∀ c ∈ led.claims, c.Sound

theorem Ledger.Sound.step {led : Ledger} (h : led.Sound) (call : Call) :
    (step led call).Sound := by
  have hev := step_evolves h.nodup call
  exact ⟨hev.nodup, hev.forall_claims h.claims (fun _ _ hs hc => hc.of_step hs)
    fun _ => .of_birth⟩

omit [Host] in
theorem newLedger_sound (session : Str) : (newLedger session).Sound :=
  ⟨List.nodup_nil, by simp [newLedger]⟩

theorem Ledger.Sound.run {led : Ledger} (h : led.Sound) (calls : List Call) :
    (calls.foldl Falsify.step led).Sound :=
  foldl_invariant Falsify.step (fun _ call hs => hs.step call) h calls

theorem run_sound (session : Str) (calls : List Call) :
    (calls.foldl step (newLedger session)).Sound := (newLedger_sound session).run calls

/-! ### Attempts are counted since the last reopening -/

/-- `since` of the claim's kill records are older than its last reopening. -/
def Claim.Counted (since : ℕ) (c : Claim) : Prop :=
  since ≤ c.kills.length ∧ c.attempts = (c.kills.drop since).countP fun k => !k.accepted

omit [Host] in
theorem Claim.Counted.of_struck {since : ℕ} {c c' : Claim} (h : c.Counted since)
    (h' : Struck c c') : c'.Counted since := by
  induction h' with
  | refl => exact h
  | tail _ hs ih =>
    obtain ⟨kill, -, -⟩ := hs
    obtain ⟨hle, hcount⟩ := ih
    by_cases ha : kill.accepted = true <;>
      simp [Claim.strike, Claim.Counted, ha, List.drop_append_of_le_length hle, hcount] <;> omega

omit [Host] in
theorem Claim.Counted.of_newborn {P : Dict → Prop} {c : Claim} (h : Newborn P c) :
    c.Counted 0 := by
  simp [Claim.Counted, h.kills, h.attempts]

theorem Claim.Counted.of_birth {call : Call} {c : Claim} (h : ClaimBirth call c) :
    c.Counted 0 := by
  cases call with
  | asserts block author corpus gate box => exact .of_newborn h
  | attacks block killer corpus roundNo gate box =>
    obtain ⟨c₀, hborn, hs⟩ := h
    exact (of_newborn hborn).of_struck hs
  | metamorph | resolve | credit | mark => exact h.elim

theorem Claim.Counted.of_step {since : ℕ} {call : Call} {c c' : Claim} (h : c.Counted since)
    (h' : ClaimStep call c c') :
    c'.Counted (if c.reopens < c'.reopens then c'.kills.length else since) := by
  have hsame (hf : SameFate c c') :
      c'.Counted (if c.reopens < c'.reopens then c'.kills.length else since) := by
    rw [if_neg (by rw [hf.reopens]; exact lt_irrefl _), Claim.Counted, hf.kills, hf.attempts]
    exact h
  cases call with
  | asserts block author corpus gate box =>
    rcases h'.fate with hf | hre
    · exact hsame hf
    · rw [if_pos (by rw [hre.reopens]; exact Nat.lt_succ_self _)]
      exact ⟨le_rfl, by simp [hre.attempts]⟩
  | metamorph m => exact hsame h'.2
  | attacks block killer corpus roundNo gate box =>
    rw [if_neg (by rw [Struck.reopens h']; exact lt_irrefl _)]
    exact h.of_struck h'
  | resolve =>
    subst h'
    have hset : (c.settle DEFAULT_K).kills = c.kills ∧
        (c.settle DEFAULT_K).attempts = c.attempts ∧
        (c.settle DEFAULT_K).reopens = c.reopens := by
      unfold Claim.settle
      split_ifs <;> exact ⟨rfl, rfl, rfl⟩
    obtain ⟨hk, ha, hr⟩ := hset
    rw [if_neg (by rw [hr]; exact lt_irrefl _), Claim.Counted, hk, ha]
    exact h
  | credit before => exact hsame (h' ▸ .refl c)
  | mark round status => exact hsame (h' ▸ .refl c)

/-- Remember how many kill records a claim has when it reopens. -/
def noteReopen (led led' : Ledger) (since : Str → ℕ) (cid : Str) : ℕ :=
  match byId led cid, byId led' cid with
  | some c, some c' => if c.reopens < c'.reopens then c'.kills.length else since cid
  | _, _ => since cid

/-- For each claim, the number of kill records it had at its last reopening. -/
def killsAtReopen (session : Str) (calls : List Call) : Str → ℕ :=
  (calls.foldl (withHistory step noteReopen) (newLedger session, fun _ => 0)).2

/-- The run's ledger with the remembered counts. -/
def Tracked (p : Ledger × (Str → ℕ)) : Prop :=
  p.1.Sound ∧ (∀ c ∈ p.1.claims, c.Counted (p.2 c.id)) ∧ ∀ cid ∉ p.1.ids, p.2 cid = 0

theorem Tracked.step {p : Ledger × (Str → ℕ)} (h : Tracked p) (call : Call) :
    Tracked (withHistory Falsify.step noteReopen p call) := by
  obtain ⟨led, since⟩ := p
  obtain ⟨hsound, hcount, habsent⟩ := h
  have hev := step_evolves hsound.nodup call
  refine ⟨hsound.step call, fun c' hc' => ?_, fun cid hcid => ?_⟩
  · have hc'' : byId (Falsify.step led call) c'.id = some c' := byId_of_mem hev.nodup hc'
    rcases hev.origin c' hc' with ⟨c, hc, hid, hstep⟩ | ⟨hnew, hborn⟩
    · have hby : byId led c'.id = some c := hid ▸ byId_of_mem hsound.nodup hc
      simp only [withHistory, noteReopen, hby, hc'']
      rw [hid]
      exact (hcount c hc).of_step hstep
    · simp only [withHistory, noteReopen, byId_eq_none.mpr hnew]
      rw [show since c'.id = 0 from habsent c'.id hnew]
      exact .of_birth hborn
  · have hold : cid ∉ led.ids := by
      obtain ⟨new, hnew⟩ := hev.ids
      intro hmem
      exact hcid (show cid ∈ (Falsify.step led call).ids from
        hnew ▸ List.mem_append_left new hmem)
    simp only [withHistory, noteReopen, byId_eq_none.mpr hold]
    exact habsent cid hold

theorem run_tracked (session : Str) (calls : List Call) :
    Tracked (calls.foldl step (newLedger session), killsAtReopen session calls) := by
  have h0 : Tracked (newLedger session, fun _ => 0) :=
    ⟨newLedger_sound session, by simp [newLedger], fun _ _ => rfl⟩
  have h : Tracked (calls.foldl (withHistory step noteReopen) (newLedger session, fun _ => 0)) :=
    foldl_invariant (withHistory step noteReopen) (fun _ call hp => hp.step call) h0 calls
  have hfst : (calls.foldl (withHistory step noteReopen) (newLedger session, fun _ => 0)).1 =
      calls.foldl step (newLedger session) := foldl_withHistory_fst _ _ _ _
  rw [← hfst]
  exact h

/-- Distinct ids; killed exactly while an accepted kill is unanswered, and never twice
over; a survivor is supported and withstood enough attempts since its last reopening. -/
theorem run_status_invariant (session : Str) (calls : List Call) :
    let led := calls.foldl step (newLedger session)
    led.ids.Nodup ∧ ∀ c ∈ led.claims,
      (c.status = .killed ↔ ∃ k ∈ c.kills, k.accepted = true ∧ k.addressed = false) ∧
      c.kills.countP (fun k => k.accepted && !k.addressed) ≤ 1 ∧
      (c.status = .survived →
        (∀ k ∈ c.kills, ¬(k.accepted = true ∧ k.addressed = false)) ∧
          hasSupport c = true ∧ DEFAULT_K ≤ c.attempts) ∧
      killsAtReopen session calls c.id ≤ c.kills.length ∧
      c.attempts =
        (c.kills.drop (killsAtReopen session calls c.id)).countP fun k => !k.accepted := by
  intro led
  obtain ⟨hsound, hcount, -⟩ := run_tracked session calls
  refine ⟨hsound.nodup, fun c hc => ?_⟩
  have hc' := hsound.claims c hc
  have hiff : c.status = .killed ↔ ∃ k ∈ c.kills, k.accepted = true ∧ k.addressed = false := by
    rw [hc'.killed_iff]
    simp [Kill.live]
  refine ⟨hiff, ?_, fun hs => ⟨fun k hk hlive => ?_, hc'.survived hs⟩, hcount c hc⟩
  · have hlive := hc'.live
    unfold Kill.live at hlive
    rw [hlive]
    split_ifs <;> omega
  · have := hiff.mpr ⟨k, hk, hlive⟩
    simp [hs] at this

end

end AskFable.Falsify
