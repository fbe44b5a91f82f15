import AskFable.Debate.Settled
import Mathlib.Data.Finset.Card

/-!
# What is still contested

A debate leaves its turns in one of a few ways, and each hands on a list of open claims: to the
adjudicator, who is asked to rule on them, and to the closing function, which counts them. What
is contested after the turns that were parsed is stated beside it, turn by turn.
-/
namespace AskFable.Debate
open AskFable.Text AskFable.Python

/-! ### The exits -/

/-- How a debate leaves its turns. -/
inductive Exit
  | refused (text : Str)
  | failed (kind detail : Str)
  /-- The wall-clock cap fires in the next turn. -/
  | timedOut (turns : List Turn) (stillOpen : List Str)
  /-- One of the turns is the answer. -/
  | closed (turns : List Turn) (best : Reply) (v : Verdict)
  /-- The adjudicator is asked to rule on the open ids of the verdict. -/
  | ruling (turns : List Turn) (best : Reply) (v : Verdict) (rest : List Reply)

namespace Exit

def outcome [Host] (s : Setup) : Exit → Outcome
  | refused text => .refused text
  | failed kind detail => .error kind detail
  | timedOut turns stillOpen => Debate.timedOut s turns stillOpen
  | closed turns best v => .decided (finish s turns best v)
  | ruling turns best v rest => adjudicate s turns best v.openIds v rest

/-- The turns before the adjudicator's. -/
def turns : Exit → List Turn
  | refused _ | failed _ _ => []
  | timedOut turns _ | closed turns _ _ | ruling turns _ _ _ => turns

/-- The claims handed on as open. -/
def openIds : Exit → List Str
  | refused _ | failed _ _ => []
  | timedOut _ stillOpen => stillOpen
  | closed _ _ v | ruling _ _ v _ => v.openIds

/-- What the adjudicator is asked to rule on, if it is asked. -/
def docket : Exit → Option (List Str)
  | ruling _ _ v _ => some v.openIds
  | _ => none

end Exit

section
variable [Host] (s : Setup)

def rebutExit (p r v : Reply) (openIds : List Str) (lowEffort : Bool) : List Reply → Exit
  | [] => .timedOut [⟨.propose, p⟩, ⟨.refute, r⟩, ⟨.revise, v⟩] openIds
  | rb :: rest =>
    let turns : List Turn := [⟨.propose, p⟩, ⟨.refute, r⟩, ⟨.revise, v⟩, ⟨.refute, rb⟩]
    let ruling (resolution : Resolution) : Exit := .ruling turns v
      { resolution := resolution, openIds := openIds, lowEffort := lowEffort } rest
    if rb.res.status ≠ .ok ∨ rb.ledger = none then ruling .adjudicated
    else if stillContestedAfterRebut rb.ledger = [] then
      .closed turns v { resolution := .converged, lowEffort := lowEffort }
    else if isStalemate rb.ledger openIds then ruling .stalemate
    else ruling .adjudicated

def reviseExit (p r : Reply) (contested : List Str) (lowEffort : Bool) : List Reply → Exit
  | [] => .timedOut [⟨.propose, p⟩, ⟨.refute, r⟩] contested
  | v :: rest =>
    let turns : List Turn := [⟨.propose, p⟩, ⟨.refute, r⟩, ⟨.revise, v⟩]
    if v.res.status ≠ .ok ∨ v.ledger = none then
      .ruling turns (if v.res.status = .ok then v else p)
        { resolution := .adjudicated
          openIds := contested
          lowEffort := lowEffort
          flags := if v.ledger = none then [.ledgerUnparseable .revise] else [] } rest
    else
      let openIds := openAfterRevise contested v.ledger
      if openIds = [] ∧ recsMatch r v then
        .closed turns v { resolution := .converged, lowEffort := lowEffort }
      else if openIds ≠ [] ∧ 2 ≤ s.rounds then rebutExit p r v openIds lowEffort rest
      else .ruling turns v
        { resolution := .adjudicated, openIds := openIds, lowEffort := lowEffort } rest

def refuteExit (p : Reply) : List Reply → Exit
  | [] => .timedOut [⟨.propose, p⟩] []
  | r :: rest =>
    let turns : List Turn := [⟨.propose, p⟩, ⟨.refute, r⟩]
    if r.res.status ≠ .ok then
      .closed turns p { resolution := .degradedSingleCritic, flags := [.degradedReason r.res.why] }
    else if r.ledger = none then
      .ruling turns p { resolution := .adjudicated, flags := [.ledgerUnparseable .refute] } rest
    else
      let contested := contestedAfterRefute r.ledger
      let lowEffort := lowEffortOpposition r.ledger
      if contested = [] then .closed turns p { resolution := .conceded, lowEffort := lowEffort }
      else reviseExit s p r contested lowEffort rest

def exit : List Reply → Exit
  | [] => .timedOut [] []
  | p :: rest =>
    match p.res.status with
    | .refused => .refused p.res.text
    | .error => .failed p.res.kind p.res.text
    | .ok => refuteExit s p rest

theorem rebut_eq (p r v : Reply) (openIds : List Str) (lowEffort : Bool) (rest : List Reply) :
    rebut s p r v openIds lowEffort rest =
      (rebutExit p r v openIds lowEffort rest).outcome s := by
  cases rest with
  | nil => rfl
  | cons rb rest =>
    rw [rebut, rebutExit]
    dsimp only
    split_ifs <;> rfl

theorem revise_eq (p r : Reply) (contested : List Str) (lowEffort : Bool) (rest : List Reply) :
    revise s p r contested lowEffort rest =
      (reviseExit s p r contested lowEffort rest).outcome s := by
  cases rest with
  | nil => rfl
  | cons v rest =>
    rw [revise, reviseExit]
    dsimp only
    split_ifs <;> first | rfl | exact rebut_eq s p r v _ lowEffort rest

theorem refute_eq (p : Reply) (rest : List Reply) :
    refute s p rest = (refuteExit s p rest).outcome s := by
  cases rest with
  | nil => rfl
  | cons r rest =>
    rw [refute, refuteExit]
    dsimp only
    split_ifs
    · rfl
    · rfl
    · rfl
    · exact revise_eq s p r _ _ rest

/-- A debate is what it leaves its turns with. -/
theorem debate_eq (replies : List Reply) : debate s replies = (exit s replies).outcome s := by
  cases replies with
  | nil => rfl
  | cons p rest =>
    rw [debate, exit]
    cases p.res.status with
    | ok => exact refute_eq s p rest
    | refused => rfl
    | error => rfl

/-- However a debate ends, it counts the claims it handed on. -/
theorem remaining {e : Exit} {p : Payload} (h : e.outcome s = .decided p) :
    p.debate.contestedRemaining = e.openIds.length := by
  have htimed {turns : List Turn} {ids : List Str} (h : timedOut s turns ids = .decided p) :
      p.debate.contestedRemaining = ids.length := by
    rw [timedOut] at h
    cases hown : (own turns).getLast? with
    | none => simp [hown] at h
    | some best =>
      rw [hown] at h
      rw [← Outcome.decided.inj h]
      rfl
  cases e with
  | refused text => cases h
  | failed kind detail => cases h
  | timedOut turns ids => exact htimed h
  | closed turns best v =>
    rw [← Outcome.decided.inj h]
    rfl
  | ruling turns best v rest =>
    cases rest with
    | nil => exact htimed h
    | cons j rest =>
      rw [Exit.outcome, adjudicate] at h
      split_ifs at h <;>
      · rw [← Outcome.decided.inj h]
        rfl

/-! ### What the ledgers leave contested -/

/-- The ledger of a turn, if it was that turn and its ledger was parsed. -/
def ledgerAt (turns : List Turn) (i : ℕ) (role : Role) : Ledger :=
  turns[i]?.bind fun t => if t.role = role then t.reply.ledger else none

/-- The ids that a ledger concedes. -/
def concededIds (l : Ledger) : List Str :=
  ((dispositions l).filter fun d => concedes d && named d).map rowId

def contestedIds (l : Ledger) : List Str :=
  ((dispositions l).filter fun d => contests d && named d).map rowId

def addedIds (l : Ledger) : List Str := ((addedClaims l).filter named).map rowId

/-- The open ids after a rebuttal: without those it concedes, and with those it newly contests
or adds. -/
def afterRebut (openIds : List Str) (l : Ledger) : List Str :=
  openIds.filter (· ∉ concededIds l) ++ (contestedIds l).filter (· ∉ openIds) ++ addedIds l

/-- The ids that are still contested after these turns. A turn without a ledger changes nothing. -/
def openNow (turns : List Turn) : List Str :=
  afterRebut
    (openAfterRevise (contestedAfterRefute (ledgerAt turns 1 .refute)) (ledgerAt turns 2 .revise))
    (ledgerAt turns 3 .refute)

/-- The open claims that a debate hands on are current: what the adjudicator is asked to rule on
is what is still contested, and so many claims are reported as remaining. -/
structure Current (replies : List Reply) : Prop where
  asked : ∀ ids ∈ (exit s replies).docket, ∀ id,
    id ∈ ids ↔ id ∈ openNow (exit s replies).turns
  reported : ∀ p, debate s replies = .decided p →
    p.debate.contestedRemaining = (openNow (exit s replies).turns).toFinset.card

/-- A parsed rebuttal leaves the open ids as they are. One that contests nothing, which ends the
debate, concedes them all and adds none. -/
def Steady : List Reply → Prop
  | p :: r :: v :: rb :: _ =>
    let openIds := openAfterRevise (contestedAfterRefute r.ledger) v.ledger
    p.res.status = .ok → v.ledger ≠ none → openIds ≠ [] → 2 ≤ s.rounds → rb.ledger ≠ none →
      if stillContestedAfterRebut rb.ledger = [] then
        (∀ id ∈ openIds, id ∈ concededIds rb.ledger) ∧ addedIds rb.ledger = []
      else
        (∀ id ∈ openIds, id ∈ concededIds rb.ledger → id ∈ addedIds rb.ledger) ∧
          ∀ id ∈ contestedAfterRefute rb.ledger, id ∈ openIds
  | _ => True

/-! ### One turn after the other -/

@[simp] theorem openAfterRevise_none (contested : List Str) :
    openAfterRevise contested none = contested :=
  List.filter_eq_self.mpr fun _ _ => rfl

@[simp] theorem afterRebut_none (openIds : List Str) : afterRebut openIds none = openIds := by
  simp [afterRebut, concededIds, contestedIds, addedIds, dispositions, addedClaims, rows]

theorem openNow_refute (p r : Reply) :
    openNow [⟨.propose, p⟩, ⟨.refute, r⟩] = contestedAfterRefute r.ledger := by
  simp [openNow, ledgerAt]

theorem openNow_revise (p r v : Reply) :
    openNow [⟨.propose, p⟩, ⟨.refute, r⟩, ⟨.revise, v⟩] =
      openAfterRevise (contestedAfterRefute r.ledger) v.ledger := by
  simp [openNow, ledgerAt]

theorem openNow_rebut (p r v rb : Reply) :
    openNow [⟨.propose, p⟩, ⟨.refute, r⟩, ⟨.revise, v⟩, ⟨.refute, rb⟩] =
      afterRebut (openAfterRevise (contestedAfterRefute r.ledger) v.ledger) rb.ledger := by
  simp [openNow, ledgerAt]

omit [Host] in
theorem nodup_dedup (ids : List Str) : (dedup ids).Nodup := by
  induction ids with
  | nil => exact List.nodup_nil
  | cons i ids ih => exact List.nodup_cons.mpr ⟨by simp, ih.filter _⟩

theorem nodup_openAfterRevise (refute revise : Ledger) :
    (openAfterRevise (contestedAfterRefute refute) revise).Nodup := (nodup_dedup _).filter _

theorem mem_afterRebut {id : Str} {openIds : List Str} {l : Ledger} :
    id ∈ afterRebut openIds l ↔ (id ∈ openIds ∧ id ∉ concededIds l) ∨
      (id ∈ contestedIds l ∧ id ∉ openIds) ∨ id ∈ addedIds l := by
  simp [afterRebut]

theorem mem_contested_iff {id : Str} {l : Ledger} :
    id ∈ contestedAfterRefute l ↔ id ∈ contestedIds l ∨ id ∈ addedIds l := by
  rw [contestedAfterRefute, mem_dedup, List.mem_append]
  rfl

/-- A rebuttal leaves the ids as they are. -/
theorem afterRebut_same_iff (openIds : List Str) (l : Ledger) :
    (∀ id, id ∈ openIds ↔ id ∈ afterRebut openIds l) ↔
      (∀ id ∈ openIds, id ∈ concededIds l → id ∈ addedIds l) ∧
        ∀ id ∈ contestedAfterRefute l, id ∈ openIds := by
  simp only [mem_afterRebut, mem_contested_iff]
  constructor
  · intro hsame
    refine ⟨fun id hid hconceded => ?_, fun id hid => (hsame id).mpr ?_⟩
    · obtain h | h | h := (hsame id).mp hid
      · exact absurd hconceded h.2
      · exact absurd hid h.2
      · exact h
    · by_cases hopen : id ∈ openIds
      · exact (hsame id).mp hopen
      · exact Or.inr (hid.imp_left fun h => ⟨h, hopen⟩)
  · rintro ⟨hadded, hraised⟩ id
    constructor
    · intro hid
      by_cases hconceded : id ∈ concededIds l
      · exact Or.inr (Or.inr (hadded id hid hconceded))
      · exact Or.inl ⟨hid, hconceded⟩
    · rintro (h | h | h)
      · exact h.1
      · exact hraised id (Or.inl h.1)
      · exact hraised id (Or.inr h)

/-- A rebuttal that contests nothing leaves nothing open. -/
theorem afterRebut_nil_iff {openIds : List Str} {l : Ledger}
    (hquiet : stillContestedAfterRebut l = []) : afterRebut openIds l = [] ↔
      (∀ id ∈ openIds, id ∈ concededIds l) ∧ addedIds l = [] := by
  have hnone : contestedIds l = [] := by
    have hsub : contestedIds l = ((stillContestedAfterRebut l).filter named).map rowId := by
      rw [contestedIds, stillContestedAfterRebut, List.filter_filter]
      simp only [Bool.and_comm]
    rw [hsub, hquiet]
    rfl
  simp [afterRebut, hnone]

/-! ### The claims at each exit -/

omit [Host] in
theorem docket_eq {e : Exit} {ids : List Str} (h : ids ∈ e.docket) : ids = e.openIds := by
  cases e with
  | ruling turns best v rest => exact (Option.some.inj h).symm
  | _ => nomatch h

variable {s}

/-- Where the claims handed on are those still contested. -/
theorem current_of_eq {replies : List Reply} {e : Exit} (hexit : exit s replies = e)
    (heq : e.openIds = openNow e.turns) (hnodup : e.openIds.Nodup) : Current s replies := by
  refine ⟨fun ids hids id => ?_, fun p hp => ?_⟩
  · rw [hexit] at hids ⊢
    rw [docket_eq hids, heq]
  · rw [debate_eq] at hp
    rw [remaining s hp, hexit, ← heq, List.toFinset_card_of_nodup hnodup]

/-- Where the adjudicator is asked. -/
theorem current_ruling_iff {replies : List Reply} {turns : List Turn} {best : Reply} {v : Verdict}
    {rest : List Reply} (hexit : exit s replies = .ruling turns best v rest)
    (hnodup : v.openIds.Nodup) :
    Current s replies ↔ ∀ id, id ∈ v.openIds ↔ id ∈ openNow turns := by
  constructor
  · intro hcurrent id
    have hasked := hcurrent.asked v.openIds (by rw [hexit]; rfl) id
    rwa [hexit] at hasked
  · intro hsame
    refine ⟨fun ids hids id => ?_, fun p hp => ?_⟩
    · rw [hexit] at hids ⊢
      rw [docket_eq hids]
      exact hsame id
    · have hset : v.openIds.toFinset = (openNow turns).toFinset := by
        ext id
        simp [hsame id]
      rw [debate_eq] at hp
      rw [remaining s hp, hexit]
      change v.openIds.length = (openNow turns).toFinset.card
      rw [← hset, List.toFinset_card_of_nodup hnodup]

/-- Where a turn is the answer, and nothing is said to be open. -/
theorem current_closed_iff {replies : List Reply} {turns : List Turn} {best : Reply} {v : Verdict}
    (hexit : exit s replies = .closed turns best v) (hnone : v.openIds = []) :
    Current s replies ↔ openNow turns = [] := by
  constructor
  · intro hcurrent
    have hdebate : debate s replies = .decided (finish s turns best v) := by
      rw [debate_eq, hexit]
      rfl
    have hreported := hcurrent.reported _ hdebate
    rw [hexit] at hreported
    have hcard : (openNow turns).toFinset.card = 0 := by
      rw [← show (finish s turns best v).debate.contestedRemaining = 0 from
        congrArg List.length hnone]
      exact hreported.symm
    exact List.toFinset_eq_empty_iff _ |>.mp (Finset.card_eq_zero.mp hcard)
  · intro hnow
    exact current_of_eq hexit (hnone.trans hnow.symm) (by
      change v.openIds.Nodup
      rw [hnone]
      exact List.nodup_nil)

omit [Host] in
/-- A reply that is not ok has no ledger. -/
theorem ledger_none {a : Reply} (h : a.res.status ≠ .ok ∨ a.ledger = none) : a.ledger = none :=
  h.elim (fun h => (a.unread h).2.2) id

theorem rebut_current_iff {replies : List Reply} {p r v : Reply} {lowEffort : Bool}
    {rest : List Reply} (hexit : exit s replies = rebutExit p r v
      (openAfterRevise (contestedAfterRefute r.ledger) v.ledger) lowEffort rest) :
    Current s replies ↔
      match rest with
      | rb :: _ => rb.ledger ≠ none →
        if stillContestedAfterRebut rb.ledger = [] then
          (∀ id ∈ openAfterRevise (contestedAfterRefute r.ledger) v.ledger,
            id ∈ concededIds rb.ledger) ∧ addedIds rb.ledger = []
        else
          (∀ id ∈ openAfterRevise (contestedAfterRefute r.ledger) v.ledger,
            id ∈ concededIds rb.ledger → id ∈ addedIds rb.ledger) ∧
            ∀ id ∈ contestedAfterRefute rb.ledger,
              id ∈ openAfterRevise (contestedAfterRefute r.ledger) v.ledger
      | [] => True := by
  have hnodup := nodup_openAfterRevise r.ledger v.ledger
  have hsame (rb : Reply) := afterRebut_same_iff
    (openAfterRevise (contestedAfterRefute r.ledger) v.ledger) rb.ledger
  cases rest with
  | nil => exact iff_true_intro (current_of_eq hexit (openNow_revise p r v).symm hnodup)
  | cons rb rest =>
    dsimp only
    rw [rebutExit] at hexit
    dsimp only at hexit
    by_cases hfailed : rb.res.status ≠ .ok ∨ rb.ledger = none
    · rw [if_pos hfailed] at hexit
      have hledger := ledger_none hfailed
      have hnow := openNow_rebut p r v rb
      rw [hledger, afterRebut_none] at hnow
      exact iff_of_true (current_of_eq hexit hnow.symm hnodup) fun h => absurd hledger h
    · rw [if_neg hfailed] at hexit
      have hledger : rb.ledger ≠ none := fun h => hfailed (Or.inr h)
      by_cases hquiet : stillContestedAfterRebut rb.ledger = []
      · rw [if_pos hquiet] at hexit
        rw [current_closed_iff hexit rfl, openNow_rebut, afterRebut_nil_iff hquiet]
        simp [hledger, hquiet]
      · obtain ⟨resolution, hruling⟩ : ∃ resolution, exit s replies = .ruling
            [⟨.propose, p⟩, ⟨.refute, r⟩, ⟨.revise, v⟩, ⟨.refute, rb⟩] v
            { resolution := resolution
              openIds := openAfterRevise (contestedAfterRefute r.ledger) v.ledger
              lowEffort := lowEffort } rest := by
          rw [if_neg hquiet] at hexit
          split_ifs at hexit
          · exact ⟨_, hexit⟩
          · exact ⟨_, hexit⟩
        rw [current_ruling_iff hruling hnodup, openNow_rebut, hsame rb]
        simp [hledger, hquiet]

theorem revise_current_iff {replies : List Reply} {p r : Reply} (hp : p.res.status = .ok)
    {lowEffort : Bool} {rest : List Reply}
    (hexit : exit s replies = reviseExit s p r (contestedAfterRefute r.ledger) lowEffort rest) :
    Current s replies ↔ Steady s (p :: r :: rest) := by
  have hcontested := nodup_dedup (((dispositions r.ledger).filter fun d =>
    contests d && named d).map rowId ++ ((addedClaims r.ledger).filter named).map rowId)
  cases rest with
  | nil => exact iff_of_true (current_of_eq hexit (openNow_refute p r).symm hcontested) trivial
  | cons v rest =>
    have hnodup := nodup_openAfterRevise r.ledger v.ledger
    rw [reviseExit] at hexit
    dsimp only at hexit
    by_cases hfailed : v.res.status ≠ .ok ∨ v.ledger = none
    · rw [if_pos hfailed] at hexit
      have hledger := ledger_none hfailed
      have hnow := openNow_revise p r v
      rw [hledger, openAfterRevise_none] at hnow
      refine iff_of_true (current_of_eq hexit hnow.symm hcontested) ?_
      cases rest with
      | nil => trivial
      | cons rb rest => exact fun _ h => absurd hledger h
    · rw [if_neg hfailed] at hexit
      have hledger : v.ledger ≠ none := fun h => hfailed (Or.inr h)
      by_cases hround : openAfterRevise (contestedAfterRefute r.ledger) v.ledger ≠ [] ∧ 2 ≤ s.rounds
      · rw [if_neg (fun h => hround.1 h.1), if_pos hround] at hexit
        rw [rebut_current_iff hexit]
        cases rest with
        | nil => exact Iff.rfl
        | cons rb rest =>
          simp only [Steady, hp, hledger, hround.1, hround.2, ne_eq, not_false_eq_true,
            forall_const]
      · have hsteady : Steady s (p :: r :: v :: rest) := by
          cases rest with
          | nil => trivial
          | cons rb rest => exact fun _ _ hopen hrounds => absurd ⟨hopen, hrounds⟩ hround
        refine iff_of_true ?_ hsteady
        by_cases hconverged : openAfterRevise (contestedAfterRefute r.ledger) v.ledger = [] ∧
            recsMatch r v = true
        · rw [if_pos hconverged] at hexit
          rw [current_closed_iff hexit rfl, openNow_revise]
          exact hconverged.1
        · rw [if_neg hconverged, if_neg hround] at hexit
          exact current_of_eq hexit (openNow_revise p r v).symm hnodup

/-- Where nothing was contested, no rebuttal changes anything. -/
theorem steady_of_nil {p r : Reply} (h : contestedAfterRefute r.ledger = []) (rest : List Reply) :
    Steady s (p :: r :: rest) := by
  match rest with
  | [] | [_] => trivial
  | v :: rb :: rest =>
    intro _ _ hopen
    rw [h] at hopen
    exact absurd rfl hopen

/-- The open claims that a debate hands on are current exactly when a parsed rebuttal does not
change them. -/
theorem current_iff_steady (replies : List Reply) : Current s replies ↔ Steady s replies := by
  cases replies with
  | nil => exact iff_of_true (current_of_eq rfl rfl List.nodup_nil) trivial
  | cons p rest =>
    cases hp : p.res.status with
    | refused =>
      have hexit : exit s (p :: rest) = .refused p.res.text := by rw [exit, hp]
      refine iff_of_true (current_of_eq hexit rfl List.nodup_nil) ?_
      match rest with
      | [] | [_] | [_, _] => trivial
      | r :: v :: rb :: rest => exact fun h => absurd (hp.symm.trans h) (by decide)
    | error =>
      have hexit : exit s (p :: rest) = .failed p.res.kind p.res.text := by rw [exit, hp]
      refine iff_of_true (current_of_eq hexit rfl List.nodup_nil) ?_
      match rest with
      | [] | [_] | [_, _] => trivial
      | r :: v :: rb :: rest => exact fun h => absurd (hp.symm.trans h) (by decide)
    | ok =>
      have hexit : exit s (p :: rest) = refuteExit s p rest := by rw [exit, hp]
      cases rest with
      | nil => exact iff_of_true (current_of_eq hexit rfl List.nodup_nil) trivial
      | cons r rest =>
        rw [refuteExit] at hexit
        dsimp only at hexit
        by_cases hfailed : r.res.status ≠ .ok
        · rw [if_pos hfailed] at hexit
          have hnone : contestedAfterRefute r.ledger = [] := by
            rw [ledger_none (Or.inl hfailed)]
            rfl
          rw [current_closed_iff hexit rfl, openNow_refute]
          exact iff_of_true hnone (steady_of_nil hnone rest)
        · rw [if_neg hfailed] at hexit
          by_cases hledger : r.ledger = none
          · rw [if_pos hledger] at hexit
            have hnone : contestedAfterRefute r.ledger = [] := by
              rw [hledger]
              rfl
            exact iff_of_true (current_of_eq hexit ((openNow_refute p r).trans hnone).symm
              List.nodup_nil) (steady_of_nil hnone rest)
          · rw [if_neg hledger] at hexit
            by_cases hnone : contestedAfterRefute r.ledger = []
            · rw [if_pos hnone] at hexit
              rw [current_closed_iff hexit rfl, openNow_refute]
              exact iff_of_true hnone (steady_of_nil hnone rest)
            · rw [if_neg hnone] at hexit
              exact revise_current_iff hp hexit

end

/-- A disposition of a claim. -/
def verdictOn (id verdict : String) : Json :=
  .obj [(txt "id", .str (txt id)), (txt "verdict", .str (txt verdict))]

/-- The rebuttal concedes one of the two open claims. -/
def halfConceded : List Reply :=
  [plainReply (txt "fable") (some []),
    plainReply (txt "minimax")
      (some [(txt "dispositions", .arr [verdictOn "C1" "contest", verdictOn "C2" "contest"])]),
    plainReply (txt "fable") (some [(txt "resolutions", .arr [])]),
    plainReply (txt "minimax")
      (some [(txt "dispositions", .arr [verdictOn "C1" "concede", verdictOn "C2" "contest"])]),
    plainReply (txt "opus") (some [])]

/-- The judge is asked to rule on both claims, and two are reported as remaining. -/
theorem conceded_still_asked :
    let : Host := Host.ascii
    let s : Setup := ⟨txt "fable", txt "minimax", 2, txt "600"⟩
    (exit s halfConceded).docket = some [txt "C1", txt "C2"] ∧
      openNow (exit s halfConceded).turns = [txt "C2"] ∧
        (∃ p, debate s halfConceded = .decided p ∧ p.debate.contestedRemaining = 2) ∧
          ¬Current s halfConceded := by
  intro host s
  have hdocket : (exit s halfConceded).docket = some [txt "C1", txt "C2"] := by decide
  have hnow : openNow (exit s halfConceded).turns = [txt "C2"] := by decide
  refine ⟨hdocket, hnow, ?_, fun hcurrent => ?_⟩
  · exact ⟨_, rfl, by decide⟩
  · have hasked := hcurrent.asked _ hdocket (txt "C1")
    rw [hnow] at hasked
    exact absurd (hasked.mp (by decide)) (by decide)

end AskFable.Debate
