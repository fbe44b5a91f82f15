import AskFable.Debate.Run

/-!
# Whose answer a debate returns

Each exit of a debate closes it with one of its turns: the adjudicator's where the
resolution says that a judge decided, else the proposer's latest one that is ok. From this
one lemma follow the confidence of the answer and whether it is cached.
-/
namespace AskFable.Debate
open AskFable.Text AskFable.Python AskFable.Extract

/-- A judge's resolution. -/
def Resolution.judged : Resolution → Bool
  | .adjudicated | .stalemate => true
  | _ => false

/-- A resolution that passes the proposer's confidence through. -/
def Resolution.confident : Resolution → Bool
  | .conceded | .converged | .degradedSingleCritic => true
  | _ => false

/-- The payload of a debate whose turns were `turns`, as an answer of turn `t`. -/
structure Sourced (turns : List Turn) (t : Turn) (p : Payload) : Prop where
  rows : p.turns = turns.map row
  played : t ∈ turns
  ok : t.isOk = true
  answer : p.answer = t.reply.prose ∧ p.answeredBy = t.reply.res.model
  sidecar : p.sidecar =
    if p.debate.resolution.unsettled then t.reply.sidecar.map downgraded else t.reply.sidecar
  judge : t.role = .adjudicate ↔ p.debate.resolution.judged = true
  proposer : t.role ≠ .adjudicate → (own turns).getLast? = some t
  confidence : t.role ≠ .adjudicate → p.debate.resolution.confident = false →
    p.sidecar = t.reply.sidecar.map downgraded
  cache : p.cached = true → p.debate.resolution.degraded = false ∧
    p.debate.resolution ≠ .adjudicatorUnavailable ∧ ∀ u ∈ turns, u.isOk = true → u.isPartial = false

/-- The turns so far, in the order a debate makes them, with what each model replied. -/
structure Played (replies : List Reply) (turns : List Turn) : Prop where
  replies : turns.map (·.reply) <+: replies
  roles : turns.map (·.role) <+: [.propose, .refute, .revise, .refute] ∨
    ∃ roles, roles <+: [.propose, .refute, .revise, .refute] ∧
      turns.map (·.role) = roles ++ [.adjudicate]

/-- A decided debate answers with one of its turns. -/
def Outcome.FromTurn (replies : List Reply) : Outcome → Prop
  | .decided p => ∃ turns t, Played replies turns ∧ Sourced turns t p
  | _ => True

section

variable (s : Setup)

theorem finish_sourced {turns : List Turn} {t : Turn} {v : Verdict} (hplayed : t ∈ turns)
    (hok : t.isOk = true) (hjudge : t.role = .adjudicate ↔ v.resolution.judged = true)
    (hproposer : t.role ≠ .adjudicate → (own turns).getLast? = some t) :
    Sourced turns t (finish s turns t.reply v) where
  rows := rfl
  played := hplayed
  ok := hok
  answer := ⟨rfl, rfl⟩
  sidecar := rfl
  judge := hjudge
  proposer := hproposer
  confidence := fun hrole hconfident => by
    have hunsettled : v.resolution.unsettled = true := by
      cases hv : v.resolution <;> simp_all [finish, Resolution.judged, Resolution.confident,
        Resolution.unsettled]
    simp [finish, hunsettled]
  cache := fun hcached => by
    simp only [finish, Bool.not_eq_true', Bool.or_eq_false_iff, decide_eq_false_iff_not,
      Bool.not_eq_false', List.isEmpty_iff, List.map_eq_nil_iff] at hcached
    refine ⟨hcached.1.1, hcached.1.2, fun u hu huok => ?_⟩
    by_contra hpartial
    have hmem : u ∈ (turns.filter Turn.isOk).filter Turn.isPartial := by
      simpa [hu, huok] using hpartial
    rw [hcached.2] at hmem
    nomatch hmem

/-- The proposer's latest answer closes a debate that no judge decides. -/
theorem finish_latest {turns : List Turn} {t : Turn} {v : Verdict}
    (hbest : (own turns).getLast? = some t) (hv : v.resolution.judged = false) :
    Sourced turns t (finish s turns t.reply v) := by
  obtain ⟨hmem, hown⟩ := List.mem_filter.mp (List.mem_of_getLast? hbest)
  simp only [Bool.and_eq_true, Bool.or_eq_true, decide_eq_true_eq] at hown
  have hrole : t.role ≠ .adjudicate := by
    rcases hown.1 with hrole | hrole <;> simp [hrole]
  exact finish_sourced s hmem hown.2 (iff_of_false hrole (by simp [hv])) fun _ => hbest

theorem own_append_other (turns : List Turn) {t : Turn}
    (h : t.role ≠ .propose ∧ t.role ≠ .revise ∨ t.isOk = false) : own (turns ++ [t]) = own turns := by
  rcases h with ⟨hp, hv⟩ | hok
  · simp [own, hp, hv]
  · simp [own, hok]

theorem own_append_own (turns : List Turn) {t : Turn} (hrole : t.role = .propose ∨ t.role = .revise)
    (hok : t.isOk = true) : (own (turns ++ [t])).getLast? = some t := by
  rcases hrole with hrole | hrole <;> simp [own, hrole, hok]

/-- Up to the judge's turn. -/
def Order (turns : List Turn) : Prop :=
  turns.map (·.role) <+: [.propose, .refute, .revise, .refute]

variable {s} {replies : List Reply} (rest : List Reply) {turns : List Turn} (best : Turn)

theorem timedOut_fromTurn [Host] (hreplies : replies = turns.map (·.reply) ++ rest)
    (horder : Order turns) (stillOpen : List Str) :
    (timedOut s turns stillOpen).FromTurn replies := by
  rw [timedOut]
  cases hlast : (own turns).getLast? with
  | none => trivial
  | some t => exact ⟨turns, t, ⟨⟨rest, hreplies.symm⟩, Or.inl horder⟩, finish_latest s hlast rfl⟩

/-- The adjudicator's own answer, or the proposer's latest. -/
theorem adjudicate_fromTurn [Host] (hreplies : replies = turns.map (·.reply) ++ rest)
    (horder : Order turns) (hbest : (own turns).getLast? = some best) {v : Verdict}
    (hv : v.resolution.judged = true) (stillOpen : List Str) :
    (adjudicate s turns best.reply stillOpen v rest).FromTurn replies := by
  cases rest with
  | nil => exact timedOut_fromTurn [] hreplies horder stillOpen
  | cons j rest =>
    rw [adjudicate]
    have hplayed : Played replies (turns ++ [⟨.adjudicate, j⟩]) :=
      ⟨⟨rest, by simp [hreplies]⟩, Or.inr ⟨_, horder, by simp⟩⟩
    split_ifs with hj
    · refine ⟨_, ⟨.adjudicate, j⟩, hplayed, finish_sourced s (by simp) (by simp [Turn.isOk, hj])
        (by simp [hv]) (by simp)⟩
    · refine ⟨_, best, hplayed, finish_latest s ?_ rfl⟩
      rw [own_append_other _ (Or.inl (by simp)), hbest]

/-- An exit that no judge decides, with the proposer's latest answer. -/
theorem settled_fromTurn (hreplies : replies = turns.map (·.reply) ++ rest) (horder : Order turns)
    (hbest : (own turns).getLast? = some best) {v : Verdict} (hv : v.resolution.judged = false) :
    (Outcome.decided (finish s turns best.reply v)).FromTurn replies :=
  ⟨turns, best, ⟨⟨rest, hreplies.symm⟩, Or.inl horder⟩, finish_latest s hbest hv⟩

theorem rebut_fromTurn [Host] {p r v : Reply} (hv : v.res.status = .ok) (openIds : List Str)
    (lowEffort : Bool) : (rebut s p r v openIds lowEffort rest).FromTurn (p :: r :: v :: rest) := by
  have hbest : (own [⟨.propose, p⟩, ⟨.refute, r⟩, ⟨.revise, v⟩]).getLast? = some ⟨.revise, v⟩ :=
    own_append_own [⟨.propose, p⟩, ⟨.refute, r⟩] (Or.inr rfl) (by simp [Turn.isOk, hv])
  cases rest with
  | nil => exact timedOut_fromTurn [] (by simp) (by simp [Order]) openIds
  | cons rb rest =>
    have hbest' : (own [⟨.propose, p⟩, ⟨.refute, r⟩, ⟨.revise, v⟩, ⟨.refute, rb⟩]).getLast? =
        some ⟨.revise, v⟩ := by
      rw [← hbest]
      exact congrArg List.getLast? (own_append_other
        [⟨.propose, p⟩, ⟨.refute, r⟩, ⟨.revise, v⟩] (Or.inl (by simp)))
    rw [rebut]
    dsimp only
    split_ifs
    · exact adjudicate_fromTurn rest ⟨.revise, v⟩ (by simp) (by simp [Order]) hbest' rfl openIds
    · exact settled_fromTurn rest ⟨.revise, v⟩ (by simp) (by simp [Order]) hbest' rfl
    · exact adjudicate_fromTurn rest ⟨.revise, v⟩ (by simp) (by simp [Order]) hbest' rfl openIds
    · exact adjudicate_fromTurn rest ⟨.revise, v⟩ (by simp) (by simp [Order]) hbest' rfl openIds

theorem revise_fromTurn [Host] {p r : Reply} (hp : p.res.status = .ok) (contested : List Str)
    (lowEffort : Bool) : (revise s p r contested lowEffort rest).FromTurn (p :: r :: rest) := by
  have hfirst : (own [⟨.propose, p⟩, ⟨.refute, r⟩]).getLast? = some ⟨.propose, p⟩ := by
    simp [own, Turn.isOk, hp]
  cases rest with
  | nil => exact timedOut_fromTurn [] (by simp) (by simp [Order]) contested
  | cons v rest =>
    have hbest (hv : v.res.status = .ok) :
        (own [⟨.propose, p⟩, ⟨.refute, r⟩, ⟨.revise, v⟩]).getLast? = some ⟨.revise, v⟩ :=
      own_append_own [⟨.propose, p⟩, ⟨.refute, r⟩] (Or.inr rfl) (by simp [Turn.isOk, hv])
    rw [revise]
    dsimp only
    by_cases hfailed : v.res.status ≠ .ok ∨ v.ledger = none
    · rw [if_pos hfailed]
      by_cases hv : v.res.status = .ok
      · rw [if_pos hv]
        exact adjudicate_fromTurn rest ⟨.revise, v⟩ (by simp) (by simp [Order]) (hbest hv) rfl contested
      · rw [if_neg hv]
        refine adjudicate_fromTurn rest ⟨.propose, p⟩ (by simp) (by simp [Order]) ?_ rfl contested
        rw [← hfirst]
        exact congrArg List.getLast? (own_append_other [⟨.propose, p⟩, ⟨.refute, r⟩]
          (Or.inr (by simp [Turn.isOk, hv])))
    · rw [if_neg hfailed]
      rw [not_or, not_not] at hfailed
      have hlatest := hbest hfailed.1
      split_ifs
      · exact settled_fromTurn rest ⟨.revise, v⟩ (by simp) (by simp [Order]) hlatest rfl
      · exact rebut_fromTurn rest hfailed.1 _ lowEffort
      · exact adjudicate_fromTurn rest ⟨.revise, v⟩ (by simp) (by simp [Order]) hlatest rfl _

theorem refute_fromTurn [Host] {p : Reply} (hp : p.res.status = .ok) :
    (refute s p rest).FromTurn (p :: rest) := by
  have hfirst : (own [⟨.propose, p⟩]).getLast? = some ⟨.propose, p⟩ := by simp [own, Turn.isOk, hp]
  cases rest with
  | nil => exact timedOut_fromTurn [] (by simp) (by simp [Order]) []
  | cons r rest =>
    have hbest : (own [⟨.propose, p⟩, ⟨.refute, r⟩]).getLast? = some ⟨.propose, p⟩ := by
      rw [← hfirst]
      exact congrArg List.getLast? (own_append_other [⟨.propose, p⟩] (Or.inl (by simp)))
    rw [refute]
    dsimp only
    split_ifs
    · exact settled_fromTurn rest ⟨.propose, p⟩ (by simp) (by simp [Order]) hbest rfl
    · exact adjudicate_fromTurn rest ⟨.propose, p⟩ (by simp) (by simp [Order]) hbest rfl []
    · exact settled_fromTurn rest ⟨.propose, p⟩ (by simp) (by simp [Order]) hbest rfl
    · exact revise_fromTurn rest hp _ _

/-- Whatever the turns and wherever the cap fires, the answer of a decided debate is that of
the adjudicator exactly where a judge decided, and else the proposer's latest; its
confidence is passed through only where the proposal stands, and only a debate that is
neither degraded nor cut off is cached. -/
theorem debate_answer_provenance [Host] (s : Setup) (replies : List Reply) :
    (debate s replies).FromTurn replies := by
  cases replies with
  | nil => trivial
  | cons p rest =>
    rw [debate]
    cases hp : p.res.status with
    | refused => trivial
    | error => trivial
    | ok => exact refute_fromTurn rest hp

end

end AskFable.Debate
