import AskFable.Falsify.Ledger
import AskFable.General.Upsert
import AskFable.Python.JsonPlain
import AskFable.Python.Utf8

/-!
# The calibration store

Each settled claim of a ledger is one datapoint for its author, under a key of the session, the
claim's id and a hash of its text. A repeat writes nothing and a flip renews the row. The hash
is taken of the text's UTF-8, outside the guard that keeps the store from raising.
-/
namespace AskFable.Calibration
open AskFable.Text AskFable.Python AskFable.Python.Bytes AskFable.Python.Utf8

/-! ### The store -/

structure Row where
  model : Str
  domain : Str
  correct : Bool
  ts : ℚ
  deriving DecidableEq

/-- The values of an `INSERT`. -/
structure Entry where
  session : Str
  claimKey : Str
  model : Str
  domain : Str
  correct : Bool
  ts : ℚ

/-- The table `outcomes`, by its primary key. -/
abbrev Outcomes := Str × Str → Option Row

/-- `ON CONFLICT DO UPDATE SET correct, ts WHERE outcomes.correct <> excluded.correct`. -/
def schema : Upsert.Schema (Str × Str) Bool Row Entry where
  key e := (e.session, e.claimKey)
  value := Entry.correct
  shown := Row.correct
  fresh e := ⟨e.model, e.domain, e.correct, e.ts⟩
  renew r e := ⟨r.model, r.domain, e.correct, e.ts⟩
  shown_fresh _ := rfl
  shown_renew _ _ := rfl

/-- A text that SQLite can bind. -/
def encodable (s : Str) : Bool := !s.any isSurrogate

/-- `_insert`; what SQLite cannot bind is caught there. -/
def insert (o : Outcomes) (e : Entry) : Outcomes × Bool :=
  let model := strip e.model
  let domain := strip (if e.domain = [] then txt "general" else e.domain)
  if model = [] then (o, false)
  else if [e.session, e.claimKey, model, domain].all encodable = true then
    Upsert.upsert schema o ⟨e.session, e.claimKey, model, domain, e.correct, e.ts⟩
  else (o, false)

section
variable (sha256 : Bytes → Str)

/-- The digest's part in a key. -/
def fingerprint (bs : Bytes) : Str := (sha256 bs).take 16

/-- `_outcome_key`; `none` is `UnicodeEncodeError`. -/
def outcomeKey (claimId claimText : Str) : Option Str :=
  (encode claimText).map fun bs => strip claimId ++ cp ':' :: fingerprint sha256 bs

/-- `record_outcome`; `none` is `UnicodeEncodeError`. -/
def recordOutcome (o : Outcomes) (session claimId claimText model domain : Str) (correct : Bool)
    (now : ℚ) : Option (Outcomes × Bool) :=
  let session := strip session
  if session = [] then some (o, false)
  else (outcomeKey sha256 claimId claimText).map fun key =>
    insert o ⟨session, key, model, domain, correct, now⟩

end

section
variable [Host] (sha256 : Bytes → Str)

/-- `c.get("status") in ("survived", "killed")`. -/
def settled (c : Dict) : Bool :=
  Dict.getIs c (txt "status") (txt "survived") || Dict.getIs c (txt "status") (txt "killed")

/-- The loop over the claims; `none` is an exception, after the rows already written. -/
def recordClaims (session : Str) (clock : ℕ → ℚ) : ℕ → Outcomes → List Dict → Outcomes × Option ℕ
  | _, o, [] => (o, some 0)
  | i, o, c :: rest =>
    let author := strip (Dict.text c (txt "author"))
    if settled c = false ∨ author = [] then recordClaims session clock (i + 1) o rest
    else
      match recordOutcome sha256 o session (Dict.text c (txt "id")) (Dict.text c (txt "claim"))
        author (Dict.getOr c (txt "domain") (.str (txt "general"))).pyStr
        (Dict.getIs c (txt "status") (txt "survived")) (clock i) with
      | none => (o, none)
      | some (o, wrote) =>
        let rest := recordClaims session clock (i + 1) o rest
        (rest.1, rest.2.map (· + wrote.toNat))

/-- `record_ledger_outcomes`, with the readings of the clock. -/
def recordLedgerOutcomes (clock : ℕ → ℚ) (o : Outcomes) (ledger : Dict) : Outcomes × Option ℕ :=
  recordClaims sha256 (strip (Dict.text ledger (txt "session"))) clock 0 o
    (Falsify.dictRows (Dict.get ledger (txt "claims")))

end

/-! ### What a ledger settles -/

/-- A settled claim with an author. -/
structure Settlement where
  session : Str
  id : Str
  text : Str
  author : Str
  domain : Str
  correct : Bool
  deriving DecidableEq

def Settlement.claim (e : Settlement) : Str × Str × Str := (e.session, e.id, e.text)

section
variable [Host]

def settlement? (session : Str) (c : Dict) : Option Settlement :=
  let author := strip (Dict.text c (txt "author"))
  if settled c = false ∨ author = [] then none
  else some ⟨session, strip (Dict.text c (txt "id")), Dict.text c (txt "claim"), author,
    (Dict.getOr c (txt "domain") (.str (txt "general"))).pyStr,
    Dict.getIs c (txt "status") (txt "survived")⟩

def settlements (ledger : Dict) : List Settlement :=
  (Falsify.dictRows (Dict.get ledger (txt "claims"))).filterMap
    (settlement? (strip (Dict.text ledger (txt "session"))))

end

/-- The claim has a session, and all its texts can be encoded. -/
def Settlement.Plain (e : Settlement) : Prop :=
  e.session ≠ [] ∧ ∀ s ∈ [e.session, e.id, e.text, e.author, e.domain], encodable s = true

/-- Every settled claim can be recorded, and no claim is settled both ways. -/
structure Plain [Host] (ledger : Dict) : Prop where
  plain : ∀ e ∈ settlements ledger, e.Plain
  agree : ∀ e ∈ settlements ledger, ∀ e' ∈ settlements ledger,
    e.claim = e'.claim → e.correct = e'.correct

/-! ### Keys -/

/-- `hexdigest`: 64 ASCII characters. -/
def IsHexDigest (sha256 : Bytes → Str) : Prop :=
  ∀ bs, (sha256 bs).length = 64 ∧ ∀ c ∈ sha256 bs, c.val < 128

/-- The hashes of these claims' texts do not collide. -/
def CollisionFree (sha256 : Bytes → Str) (es : List Settlement) : Prop :=
  ∀ e ∈ es, ∀ e' ∈ es,
    fingerprint sha256 (encodePass e.text) = fingerprint sha256 (encodePass e'.text) →
      e.text = e'.text

/-- The key of a claim's row. -/
def storeKey (sha256 : Bytes → Str) (claim : Str × Str × Str) : Str × Str :=
  (claim.1, claim.2.1 ++ cp ':' :: fingerprint sha256 (encodePass claim.2.2))

theorem storeKey_inj {sha256 : Bytes → Str} (hsha : IsHexDigest sha256) {es : List Settlement}
    (hfree : CollisionFree sha256 es) {e e' : Settlement} (he : e ∈ es) (he' : e' ∈ es) :
    storeKey sha256 e.claim = storeKey sha256 e'.claim ↔ e.claim = e'.claim := by
  refine ⟨fun h => ?_, fun h => h ▸ rfl⟩
  simp only [storeKey, Settlement.claim, Prod.mk.injEq] at h ⊢
  obtain ⟨hsession, hkey⟩ := h
  have hlen (bs : Bytes) : (cp ':' :: fingerprint sha256 bs).length = 17 := by
    simp [fingerprint, (hsha bs).1]
  obtain ⟨hid, hhash⟩ := List.append_inj' hkey ((hlen _).trans (hlen _).symm)
  exact ⟨hsession, hid, hfree e he e' he' (List.cons.inj hhash).2⟩

theorem encodable_of_subset {s t : Str} (h : encodable t = true) (hsub : ∀ c ∈ s, c ∈ t) :
    encodable s = true := by
  simp only [encodable, Bool.not_eq_true', List.any_eq_false] at h ⊢
  exact fun c hc => h c (hsub c hc)

theorem encodable_strip {s : Str} (h : encodable s = true) : encodable (strip s) = true := by
  have hin := strip_infix s
  exact encodable_of_subset h fun _ hc => hin.subset hc

theorem encodable_key {sha256 : Bytes → Str} (hsha : IsHexDigest sha256) {id : Str}
    (h : encodable id = true) (bs : Bytes) :
    encodable (id ++ cp ':' :: fingerprint sha256 bs) = true := by
  have hhash : (fingerprint sha256 bs).any isSurrogate = false :=
    JsonText.ascii_surrogate fun c hc => (hsha bs).2 c (List.mem_of_mem_take hc)
  have hcolon : isSurrogate (cp ':') = false := by decide
  simp only [encodable, Bool.not_eq_true'] at h ⊢
  rw [List.any_append, h, List.any_cons, hcolon, hhash]
  rfl

/-! ### One ledger -/

/-- The row that a settled claim asks for. -/
def Settlement.entry (sha256 : Bytes → Str) (e : Settlement) (ts : ℚ) : Entry :=
  ⟨e.session, e.id ++ cp ':' :: fingerprint sha256 (encodePass e.text), e.author,
    strip (if e.domain = [] then txt "general" else e.domain), e.correct, ts⟩

section
variable [Host] {sha256 : Bytes → Str} {session : Str}

theorem recordOutcome_of_plain (hsha : IsHexDigest sha256) (hsession : strip session = session)
    {c : Dict} {e : Settlement} (he : settlement? session c = some e) (hplain : e.Plain)
    (o : Outcomes) (now : ℚ) :
    recordOutcome sha256 o session (Dict.text c (txt "id")) (Dict.text c (txt "claim"))
      (strip (Dict.text c (txt "author")))
      (Dict.getOr c (txt "domain") (.str (txt "general"))).pyStr
      (Dict.getIs c (txt "status") (txt "survived")) now =
        some (Upsert.upsert schema o (e.entry sha256 now)) := by
  unfold settlement? at he
  simp only at he
  split_ifs at he with hskip
  rw [not_or] at hskip
  obtain rfl := Option.some.inj he
  obtain ⟨hne, henc⟩ := hplain
  simp only [List.forall_mem_cons] at hne henc
  obtain ⟨hs, hid, htext, hauthor, hdomain, -⟩ := henc
  have hencode : encode (Dict.text c (txt "claim")) =
      some (encodePass (Dict.text c (txt "claim"))) := by
    simp only [encodable, Bool.not_eq_true'] at htext
    rw [encode, htext, if_neg (by decide)]
  have hgeneral : encodable (strip (if
      (Dict.getOr c (txt "domain") (.str (txt "general"))).pyStr = [] then txt "general"
      else (Dict.getOr c (txt "domain") (.str (txt "general"))).pyStr)) = true := by
    refine encodable_strip ?_
    split_ifs
    · decide
    · exact hdomain
  have hall : [session, strip (Dict.text c (txt "id")) ++ cp ':' ::
      fingerprint sha256 (encodePass (Dict.text c (txt "claim"))),
      strip (Dict.text c (txt "author")), strip (if
        (Dict.getOr c (txt "domain") (.str (txt "general"))).pyStr = [] then txt "general"
        else (Dict.getOr c (txt "domain") (.str (txt "general"))).pyStr)].all encodable = true := by
    simp only [List.all_cons, List.all_nil, hs, encodable_key hsha hid, hauthor, hgeneral,
      Bool.and_self]
  rw [recordOutcome, hsession]
  simp only [hne, if_false, outcomeKey, hencode, Option.map_some, insert, strip_strip, hskip.2,
    hall, if_true]
  rfl

/-- The rows that the claims ask for, with the readings of the clock. -/
def entries (sha256 : Bytes → Str) (session : Str) (clock : ℕ → ℚ) : ℕ → List Dict → List Entry
  | _, [] => []
  | i, c :: rest =>
    match settlement? session c with
    | none => entries sha256 session clock (i + 1) rest
    | some e => e.entry sha256 (clock i) :: entries sha256 session clock (i + 1) rest

theorem recordClaims_of_plain (hsha : IsHexDigest sha256) (hsession : strip session = session)
    {cs : List Dict} (hplain : ∀ e ∈ cs.filterMap (settlement? session), e.Plain)
    (clock : ℕ → ℚ) (i : ℕ) (o : Outcomes) :
    recordClaims sha256 session clock i o cs =
      ((Upsert.upserts schema o (entries sha256 session clock i cs)).1,
        some (Upsert.upserts schema o (entries sha256 session clock i cs)).2) := by
  induction cs generalizing i o with
  | nil => rfl
  | cons c cs ih =>
    unfold recordClaims entries
    cases he : settlement? session c with
    | none =>
      have hskip : settled c = false ∨ strip (Dict.text c (txt "author")) = [] := by
        by_contra hnot
        simp [settlement?, hnot] at he
      rw [List.filterMap_cons_none he] at hplain
      simp only [hskip, if_true]
      exact ih hplain (i + 1) o
    | some e =>
      have hskip : ¬(settled c = false ∨ strip (Dict.text c (txt "author")) = []) := by
        intro hskip
        simp [settlement?, hskip] at he
      rw [List.filterMap_cons_some he, List.forall_mem_cons] at hplain
      simp only [hskip, if_false, recordOutcome_of_plain hsha hsession he hplain.1]
      rw [ih hplain.2]
      rfl

theorem map_entries_pair (clock : ℕ → ℚ) (i : ℕ) (cs : List Dict) :
    (entries sha256 session clock i cs).map (fun e => (schema.key e, schema.value e)) =
      (cs.filterMap (settlement? session)).map fun e => (storeKey sha256 e.claim, e.correct) := by
  induction cs generalizing i with
  | nil => rfl
  | cons c cs ih =>
    unfold entries
    cases he : settlement? session c with
    | none => rw [List.filterMap_cons_none he, ← ih]
    | some e =>
      rw [List.filterMap_cons_some he, List.map_cons, List.map_cons, ← ih (i + 1)]
      rfl

theorem recordLedgerOutcomes_of_plain (hsha : IsHexDigest sha256) {ledger : Dict}
    (hplain : Plain ledger) (clock : ℕ → ℚ) (o : Outcomes) :
    ∃ es : List Entry, (es.map fun e => (schema.key e, schema.value e)) =
        (settlements ledger).map (fun e => (storeKey sha256 e.claim, e.correct)) ∧
      recordLedgerOutcomes sha256 clock o ledger =
        ((Upsert.upserts schema o es).1, some (Upsert.upserts schema o es).2) :=
  ⟨_, map_entries_pair clock 0 _,
    recordClaims_of_plain hsha (strip_strip _) hplain.plain clock 0 o⟩

/-! ### Every sequence of ledgers -/

/-- A ledger that is recorded, with the readings of the clock. -/
structure Recording where
  ledger : Dict
  clock : ℕ → ℚ

/-- The store after these recordings. -/
def run (sha256 : Bytes → Str) (recs : List Recording) : Outcomes :=
  recs.foldl (fun o r => (recordLedgerOutcomes sha256 r.clock o r.ledger).1) fun _ => none

/-- What was settled, in the order it was recorded. -/
def history (recs : List Recording) : List Settlement :=
  recs.flatMap fun r => settlements r.ledger

/-- The store has one row for each claim that was settled, and no other, and the row has the
latest settlement. -/
structure Calibrated (sha256 : Bytes → Str) (o : Outcomes) (es : List Settlement) : Prop where
  rows : Set.BijOn (storeKey sha256) {claim | ∃ e ∈ es, e.claim = claim} {k | o k ≠ none}
  correct : ∀ e ∈ es, (o (storeKey sha256 e.claim)).map Row.correct =
    (Keyed.lookupLast Settlement.claim es e.claim).map Settlement.correct

/-- A recording returns the number of rows that are new or flipped, and to repeat it at any time
changes nothing and returns 0. -/
structure Counted (sha256 : Bytes → Str) (o : Outcomes) (r : Recording) : Prop where
  returned : (recordLedgerOutcomes sha256 r.clock o r.ledger).2 =
    some (Upsert.changed o (recordLedgerOutcomes sha256 r.clock o r.ledger).1).ncard
  repeated : ∀ clock : ℕ → ℚ,
    recordLedgerOutcomes sha256 clock (recordLedgerOutcomes sha256 r.clock o r.ledger).1 r.ledger =
      ((recordLedgerOutcomes sha256 r.clock o r.ledger).1, some 0)

omit [Host] in
theorem latest_pair {α K V : Type*} [DecidableEq K] (key : α → K) (value : α → V) (l : List α)
    (k : K) : (Keyed.lookupLast key l k).map value =
      (Keyed.lookupLast Prod.fst (l.map fun a => (key a, value a)) k).map Prod.snd := by
  rw [Keyed.lookupLast_map, Option.map_map]
  rfl

theorem run_shown (hsha : IsHexDigest sha256) {recs : List Recording}
    (hplain : ∀ r ∈ recs, Plain r.ledger) (k : Str × Str) :
    (run sha256 recs k).map Row.correct =
      (Keyed.lookupLast (fun e => storeKey sha256 e.claim) (history recs) k).map
        Settlement.correct := by
  induction recs using List.reverseRecOn with
  | nil => rfl
  | append_singleton recs r ih =>
    obtain ⟨es, hpairs, hrecord⟩ := recordLedgerOutcomes_of_plain hsha
      (hplain r (List.mem_append_right _ (List.mem_singleton_self r))) r.clock (run sha256 recs)
    have hrun : run sha256 (recs ++ [r]) = (Upsert.upserts schema (run sha256 recs) es).1 := by
      rw [run, List.foldl_append]
      exact congrArg Prod.fst hrecord
    have hhistory : history (recs ++ [r]) = history recs ++ settlements r.ledger := by
      simp [history]
    have hshown := Upsert.shown_upserts (s := schema) (run sha256 recs) es k
    rw [latest_pair, hpairs, ← latest_pair] at hshown
    rw [hrun, hhistory, Keyed.lookupLast_append]
    refine hshown.trans ?_
    rw [Option.map_or]
    exact congrArg _ (ih fun r hr => hplain r (List.mem_append_left _ hr))

omit [Host] in
theorem calibrated_of_shown (hsha : IsHexDigest sha256) {o : Outcomes} {es : List Settlement}
    (hfree : CollisionFree sha256 es)
    (h : ∀ k, (o k).map Row.correct =
      (Keyed.lookupLast (fun e => storeKey sha256 e.claim) es k).map Settlement.correct) :
    Calibrated sha256 o es := by
  have hrow (k : Str × Str) : o k ≠ none ↔ ∃ e ∈ es, storeKey sha256 e.claim = k := by
    have hk := h k
    rw [Ne, ← Option.map_eq_none_iff, hk, Option.map_eq_none_iff, Keyed.lookupLast_none, not_not,
      List.mem_map]
  refine ⟨⟨?_, ?_, ?_⟩, ?_⟩
  · rintro claim ⟨e, he, rfl⟩
    exact (hrow _).mpr ⟨e, he, rfl⟩
  · rintro claim ⟨e, he, rfl⟩ claim' ⟨e', he', rfl⟩ hkey
    exact (storeKey_inj hsha hfree he he').mp hkey
  · intro k hk
    obtain ⟨e, he, hkey⟩ := (hrow k).mp hk
    exact ⟨e.claim, ⟨e, he, rfl⟩, hkey⟩
  · intro e he
    rw [h, Keyed.lookupLast_congr _ fun e' he' => storeKey_inj hsha hfree he' he]

theorem counted_of_plain (hsha : IsHexDigest sha256) {r : Recording} (hplain : Plain r.ledger)
    (hfree : CollisionFree sha256 (settlements r.ledger)) (o : Outcomes) :
    Counted sha256 o r := by
  have hagree : ∀ p ∈ (settlements r.ledger).map fun e => (storeKey sha256 e.claim, e.correct),
      ∀ q ∈ (settlements r.ledger).map fun e => (storeKey sha256 e.claim, e.correct),
        p.1 = q.1 → p.2 = q.2 := by
    rw [List.forall_mem_map]
    intro e he
    rw [List.forall_mem_map]
    intro e' he' hkey
    exact hplain.agree e he e' he' ((storeKey_inj hsha hfree he he').mp hkey)
  obtain ⟨es, hpairs, hrecord⟩ := recordLedgerOutcomes_of_plain hsha hplain r.clock o
  have hconsistent : Upsert.Consistent schema es := by
    rw [← hpairs, List.forall_mem_map] at hagree
    intro e he e' he' hkey
    exact List.forall_mem_map.mp (hagree e he) e' he' hkey
  refine ⟨?_, fun clock => ?_⟩
  · rw [hrecord, hconsistent.count]
  · obtain ⟨es', hpairs', hrecord'⟩ := recordLedgerOutcomes_of_plain hsha hplain clock
      (recordLedgerOutcomes sha256 r.clock o r.ledger).1
    have hshown : ∀ p ∈ es.map fun e => (schema.key e, schema.value e),
        (((Upsert.upserts schema o es).1 p.1).map schema.shown) = some p.2 :=
      List.forall_mem_map.mpr (hconsistent.shown o)
    rw [hpairs, ← hpairs', List.forall_mem_map] at hshown
    rw [hrecord', hrecord, Upsert.upserts_of_shown hshown]

/-- After any sequence of ledgers whose settled claims can be encoded and are not settled both
ways, the store has exactly one row for each claim that was settled, with its latest settlement,
each recording returned how many rows it created or flipped, and to repeat it would have changed
nothing. -/
theorem ledgers_counted_once (hsha : IsHexDigest sha256) {recs : List Recording}
    (hplain : ∀ r ∈ recs, Plain r.ledger) (hfree : CollisionFree sha256 (history recs)) :
    Calibrated sha256 (run sha256 recs) (history recs) ∧
      ∀ pre r post, recs = pre ++ r :: post → Counted sha256 (run sha256 pre) r := by
  refine ⟨calibrated_of_shown hsha hfree (run_shown hsha hplain), ?_⟩
  rintro pre r post rfl
  refine counted_of_plain hsha (hplain r (by simp)) ?_ _
  have hsub : ∀ e ∈ settlements r.ledger, e ∈ history (pre ++ r :: post) := by
    intro e he
    exact List.mem_flatMap.mpr ⟨r, by simp, he⟩
  exact fun e he e' he' => hfree e (hsub e he) e' (hsub e' he')

end

/-- A ledger of the session `s` with these claims of one author, each an id, a text and a status. -/
def ledgerOf (claims : List (Str × Str × Str)) : Dict :=
  [(txt "session", .str (txt "s")),
    (txt "claims", .arr (claims.map fun (id, text, status) => .obj [(txt "id", .str id),
      (txt "author", .str (txt "mA")), (txt "domain", .str (txt "algo")),
      (txt "claim", .str text), (txt "status", .str status)]))]

def SHA_OF_C : Str := txt "2e7d2c03a9507ae265ecf5b5356885a53393a2029d241394997265a1a25aefc6"

/-- SHA-256 where it is taken of the one byte `c`. -/
def hashOfC (_ : Bytes) : Str := SHA_OF_C

/-- The claim `c` under the id `H1`, settled. -/
def settledC (correct : Bool) : Settlement :=
  ⟨txt "s", txt "H1", txt "c", txt "mA", txt "algo", correct⟩

/-- One claim survives and is killed later. -/
def flipped : List Recording :=
  [⟨ledgerOf [(txt "H1", txt "c", txt "survived")], fun _ => 1⟩,
    ⟨ledgerOf [(txt "H1", txt "c", txt "killed")], fun _ => 2⟩]

theorem ledgers_counted_once_flipped :
    let : Host := Host.ascii
    Calibrated hashOfC (run hashOfC flipped) (history flipped) ∧
      ∀ pre r post, flipped = pre ++ r :: post → Counted hashOfC (run hashOfC pre) r := by
  intro host
  have hsha : IsHexDigest hashOfC := by
    have hlength : SHA_OF_C.length = 64 := by decide +kernel
    have hascii : (SHA_OF_C.all fun c => c.val < 128) = true := by decide +kernel
    exact fun _ => ⟨hlength, fun c hc => by simpa using List.all_eq_true.mp hascii c hc⟩
  have hsettled : ∀ r ∈ flipped, ∃ correct, settlements r.ledger = [settledC correct] := by
    simp only [flipped, List.forall_mem_cons, List.not_mem_nil, false_implies, implies_true,
      and_true]
    exact ⟨⟨true, by decide +kernel⟩, ⟨false, by decide +kernel⟩⟩
  have hplain : ∀ r ∈ flipped, Plain r.ledger := by
    intro r hr
    obtain ⟨correct, hone⟩ := hsettled r hr
    refine ⟨?_, ?_⟩
    · rw [hone]
      rintro e he
      obtain rfl := List.mem_singleton.mp he
      cases correct <;> exact ⟨by decide, by decide⟩
    · rw [hone]
      intro e he e' he' _
      rw [List.mem_singleton.mp he, List.mem_singleton.mp he']
  have hfree : CollisionFree hashOfC (history flipped) := by
    have htext : ∀ e ∈ history flipped, e.text = txt "c" := by decide +kernel
    exact fun e he e' he' _ => (htext e he).trans (htext e' he').symm
  exact ledgers_counted_once hsha hplain hfree

/-- A lone surrogate in the first claim's text: the recording raises, and the second claim is
never counted. -/
theorem surrogate_uncounted :
    let : Host := Host.ascii
    let r : Recording :=
      ⟨ledgerOf [(txt "H1", [0xD800], txt "survived"), (txt "H2", txt "c", txt "killed")],
        fun _ => 1⟩
    (recordLedgerOutcomes hashOfC r.clock (fun _ => none) r.ledger).2 = none ∧
      ¬Calibrated hashOfC (run hashOfC [r]) (history [r]) := by
  intro host r
  refine ⟨by decide +kernel, fun h => ?_⟩
  have hlast : (⟨txt "s", txt "H2", txt "c", txt "mA", txt "algo", false⟩ : Settlement) ∈
      history [r] := by decide +kernel
  exact h.rows.mapsTo ⟨_, hlast, rfl⟩ (by decide +kernel)

end AskFable.Calibration
