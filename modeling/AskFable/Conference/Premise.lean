import AskFable.Conference.Talk

/-!
# Who attacks the premise

The premise reply names pseudonyms. The code turns them into labels, and looks for a seat
whose label is not among them, though two seats can have one label. So a seat that was not
named counts as named with another, and when none is left the last speaker attacks, named or
not. It goes right exactly where no seat that is named shares its label with another.
-/
namespace AskFable.Conference
open AskFable.Text AskFable.Python AskFable.Debate AskFable.Roster

section
variable [Host] {s : Setup} {ask : Oracle} {st : State} {a : Attack}

/-- The reply names the pseudonym of a seat. -/
def IsNamed (s : Setup) (ask : Oracle) (st : State) (k : Str) : Prop :=
  participant st.speakers s.synthesizer k ∈ (premiseReply s ask st).2.2

instance (k : Str) : Decidable (IsNamed s ask st k) := inferInstanceAs (Decidable (_ ∈ _))

/-- If some seat that spoke was not named, one that was not named attacks. -/
def Spared (s : Setup) (ask : Oracle) (st : State) (a : Attack) : Prop :=
  (∃ k ∈ st.speakers, ¬IsNamed s ask st k) → ¬IsNamed s ask st a.attacker

/-- The labels in the report are those of the seats that were named, one for each, and of no
other seat. -/
structure Listed (s : Setup) (ask : Oracle) (st : State) (a : Attack) : Prop where
  perm : (a.report s.label).assertedBy.Perm
    ((st.speakers.filter (IsNamed s ask st ·)).map s.label)
  only : ∀ k ∈ st.speakers, s.label k ∈ (a.report s.label).assertedBy → IsNamed s ask st k

/-- No seat that was named has the label of another seat that spoke. -/
def Distinguished (s : Setup) (ask : Oracle) (st : State) : Prop :=
  ∀ k ∈ st.speakers, IsNamed s ask st k → ∀ j ∈ st.speakers, s.label j = s.label k → j = k

/-! ### What the reply leads to -/

theorem attackOf_eq_some (h : attackOf s ask st = some a) :
    a.attacker = chooseAttacker s.label st.speakers a.assertedReal ∧
      a.assertedReal = ((premiseReply s ask st).2.2.filterMap fun p =>
        (legendOf s.label st.speakers s.synthesizer).lookup p).dedup := by
  rcases hreply : premiseReply s ask st with ⟨found, claim, asserted⟩
  rw [attackOf, hreply] at h
  dsimp only at h
  split_ifs at h
  cases h
  exact ⟨rfl, rfl⟩

theorem mem_assertedReal (h : attackOf s ask st = some a) (hnodup : st.speakers.Nodup)
    {who : Str} :
    who ∈ a.assertedReal ↔ ∃ k ∈ st.speakers, IsNamed s ask st k ∧ s.label k = who := by
  rw [(attackOf_eq_some h).2, List.mem_dedup, List.mem_filterMap]
  simp only [lookup_legendOf hnodup]
  constructor
  · rintro ⟨p, hp, k, hk, rfl, rfl⟩
    exact ⟨k, hk, hp, rfl⟩
  · rintro ⟨k, hk, hnamed, rfl⟩
    exact ⟨_, hnamed, k, hk, rfl, rfl⟩

theorem mem_assertedBy (h : attackOf s ask st = some a) (hnodup : st.speakers.Nodup)
    {who : Str} : who ∈ (a.report s.label).assertedBy ↔
      ∃ k ∈ st.speakers, IsNamed s ask st k ∧ s.label k = who := by
  rw [Attack.report, List.mem_insertionSort, mem_assertedReal h hnodup]

theorem nodup_assertedBy (h : attackOf s ask st = some a) :
    (a.report s.label).assertedBy.Nodup := by
  rw [Attack.report, (List.perm_insertionSort _ _).nodup_iff, (attackOf_eq_some h).2]
  exact List.nodup_dedup _

/-- The attacker is the first seat whose label was not named, or the last of all. -/
theorem attacker_cases (h : attackOf s ask st = some a) (hnodup : st.speakers.Nodup)
    (hne : st.speakers ≠ []) :
    (a.attacker ∈ st.speakers ∧
      ∀ k ∈ st.speakers, IsNamed s ask st k → s.label k ≠ s.label a.attacker) ∨
    (a.attacker = st.speakers.getLast hne ∧
      ∀ j ∈ st.speakers, ∃ k ∈ st.speakers, IsNamed s ask st k ∧ s.label k = s.label j) := by
  have hmem (who : Str) : who ∈ a.assertedReal ↔
      ∃ k ∈ st.speakers, IsNamed s ask st k ∧ s.label k = who := mem_assertedReal h hnodup
  have hlast : st.speakers.getLast?.getD [] = st.speakers.getLast hne := by
    rw [List.getLast?_eq_some_getLast hne, Option.getD_some]
  rw [(attackOf_eq_some h).1, chooseAttacker, hlast]
  by_cases hnil : a.assertedReal = []
  · -- no name was resolved: nobody was named, and the last speaker will do
    rw [if_pos hnil]
    refine .inl ⟨List.getLast_mem hne, fun k hk hnamed => ?_⟩
    exact absurd ((hmem _).mpr ⟨k, hk, hnamed, rfl⟩) (hnil ▸ List.not_mem_nil)
  · rw [if_neg hnil]
    cases hfind : st.speakers.find? fun k => s.label k ∉ a.assertedReal with
    | none =>
      refine .inr ⟨rfl, fun j hj => (hmem _).mp ?_⟩
      simpa using List.find?_eq_none.mp hfind j hj
    | some k =>
      have hother : s.label k ∉ a.assertedReal := by simpa using List.find?_some hfind
      refine .inl ⟨List.mem_of_find?_eq_some hfind, fun j hj hnamed heq => hother ?_⟩
      exact (hmem _).mpr ⟨j, hj, hnamed, heq⟩

/-! ### When it goes right -/

theorem spared_iff (h : attackOf s ask st = some a) (hnodup : st.speakers.Nodup)
    (hne : st.speakers ≠ []) :
    Spared s ask st a ↔ (∀ k ∈ st.speakers, IsNamed s ask st k) ∨
      (∃ j ∈ st.speakers, ∀ k ∈ st.speakers, IsNamed s ask st k → s.label k ≠ s.label j) ∨
      ¬IsNamed s ask st (st.speakers.getLast hne) := by
  constructor
  · intro hspared
    by_cases hall : ∀ k ∈ st.speakers, IsNamed s ask st k
    · exact .inl hall
    · have hnot : ¬IsNamed s ask st a.attacker := hspared (by simpa using hall)
      rcases attacker_cases h hnodup hne with ⟨hattacker, hdiff⟩ | ⟨hlast, -⟩
      · exact .inr (.inl ⟨a.attacker, hattacker, hdiff⟩)
      · exact .inr (.inr (hlast ▸ hnot))
  · rintro hcases ⟨k, hk, hnot⟩
    rcases attacker_cases h hnodup hne with ⟨hattacker, hdiff⟩ | ⟨hlast, hshared⟩
    · exact fun hnamed => hdiff a.attacker hattacker hnamed rfl
    · rcases hcases with hall | ⟨j, hj, hdiff⟩ | hfree
      · exact absurd (hall k hk) hnot
      · obtain ⟨i, hi, hnamed, heq⟩ := hshared j hj
        exact absurd heq (hdiff i hi hnamed)
      · rwa [hlast]

theorem spared_of_distinguished (h : attackOf s ask st = some a) (hnodup : st.speakers.Nodup)
    (hne : st.speakers ≠ []) (hd : Distinguished s ask st) : Spared s ask st a := by
  rw [spared_iff h hnodup hne]
  by_cases hall : ∀ k ∈ st.speakers, IsNamed s ask st k
  · exact .inl hall
  · obtain ⟨j, hj, hnot⟩ : ∃ j ∈ st.speakers, ¬IsNamed s ask st j := by simpa using hall
    refine .inr (.inl ⟨j, hj, fun k hk hnamed heq => hnot ?_⟩)
    rwa [hd k hk hnamed j hj heq.symm]

/-- The report lists no seat that was not named, where no named seat shares its label with one
of these. -/
theorem listed_only_iff (h : attackOf s ask st = some a) (hnodup : st.speakers.Nodup) :
    (∀ k ∈ st.speakers, s.label k ∈ (a.report s.label).assertedBy → IsNamed s ask st k) ↔
      ∀ k ∈ st.speakers, IsNamed s ask st k → ∀ j ∈ st.speakers, s.label j = s.label k →
        IsNamed s ask st j := by
  constructor
  · intro honly k hk hnamed j hj heq
    exact honly j hj ((mem_assertedBy h hnodup).mpr ⟨k, hk, hnamed, heq.symm⟩)
  · intro hshared k hk hmem
    obtain ⟨j, hj, hnamed, heq⟩ := (mem_assertedBy h hnodup).mp hmem
    exact hshared j hj hnamed k hk heq.symm

theorem listed_iff (h : attackOf s ask st = some a) (hnodup : st.speakers.Nodup) :
    Listed s ask st a ↔ Distinguished s ask st := by
  have hfilter {k : Str} : k ∈ st.speakers.filter (IsNamed s ask st ·) ↔
      k ∈ st.speakers ∧ IsNamed s ask st k := by simp
  constructor
  · intro hlisted k hk hnamed j hj heq
    have hj' : IsNamed s ask st j :=
      (listed_only_iff h hnodup).mp hlisted.only k hk hnamed j hj heq
    have honce := hlisted.perm.nodup_iff.mp (nodup_assertedBy h)
    exact List.inj_on_of_nodup_map honce (hfilter.mpr ⟨hj, hj'⟩) (hfilter.mpr ⟨hk, hnamed⟩) heq
  · intro hd
    have hinj : ∀ j ∈ st.speakers.filter (IsNamed s ask st ·),
        ∀ k ∈ st.speakers.filter (IsNamed s ask st ·), s.label j = s.label k → j = k :=
      fun j hj k hk heq => hd k (hfilter.mp hk).1 (hfilter.mp hk).2 j (hfilter.mp hj).1 heq
    refine ⟨?_, (listed_only_iff h hnodup).mpr fun k hk hnamed j hj heq => ?_⟩
    · rw [List.perm_ext_iff_of_nodup (nodup_assertedBy h) ((hnodup.filter _).map_on hinj)]
      intro who
      rw [mem_assertedBy h hnodup, List.mem_map]
      simp only [hfilter, and_assoc]
    · rwa [hd k hk hnamed j hj heq]

/-! ### A conference -/

theorem attack_inv (h : (discussion s ask).2.2 = some a) :
    attackOf s ask (blindRound s ask) = some a ∧ (blindRound s ask).speakers ≠ [] := by
  have hround : (premiseRound s ask (blindRound s ask)).2 = some a := h
  unfold premiseRound at hround
  split_ifs at hround with hattacks
  · simp only [Setup.attacks, Bool.and_eq_true, decide_eq_true_eq] at hattacks
    have hthree := hattacks.2
    refine ⟨?_, List.ne_nil_of_length_pos (by omega)⟩
    cases hattack : attackOf s ask (blindRound s ask) with
    | none =>
      rw [hattack] at hround
      cases hround
    | some b =>
      rw [hattack] at hround
      exact hround

end

/-- Three seats, two of them the same model behind different gateways. -/
def gatewaysSetup (label : Str → Str) : Setup where
  topic := txt "t"
  context := []
  bench := [txt "atlas:m", txt "openrouter:m", txt "opus"]
  seated := List.cons_ne_nil _ _
  rounds := 2
  synthesizer := txt "fable"
  attackPremise := true
  label := label

/-- Everyone has an answer, and the premise is said to be the first's and the third's. -/
def firstAndThird : Oracle
  | .premise, _, _ =>
    ⟨.ok, [], txt "CLAIM: c\nASSERTED_BY: Participant 1, Participant 3", [], []⟩
  | _, _, _ => ⟨.ok, [], txt "yes", [], []⟩

/-- The label of the two is the model behind them. -/
def gatewayLabel (k : Str) : Str := if k = txt "opus" then k else txt "m"

end AskFable.Conference
