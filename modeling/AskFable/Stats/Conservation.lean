import AskFable.General.Sorting
import AskFable.Stats.Amounts
import Mathlib.Data.Multiset.Sort

/-!
# Conservation of calls

In the sums a call is in one class, unless its decision is none of the known ones: then it is a
call of no class. The totals are the buckets and what no bucket takes, and the report does not
show in which order the records were read.
-/
namespace AskFable.Stats
open AskFable.Text AskFable.Python AskFable.Tabulate

/-! ### The classes -/

/-- The calls that are in a class, and the queued calls. -/
def inClass (counts : Counter → ℕ) : ℕ :=
  counts .allowed + counts .refused + counts .errors + counts .cancelled

/-- The columns of the classes. -/
def settles : Counter → Bool
  | .calls | .allowed | .refused | .errors | .cancelled => true
  | _ => false

/-- The call came back, or was cut off, with a decision that has a class. -/
def isClassified [Host] (record : Dict) : Bool :=
  decision record ∈ [txt "allowed", txt "refused", txt "denied", txt "error", txt "incomplete"] ||
    isCancelled record

/-- The record is counted as a call. -/
def isCall (record : Dict) : Bool := !isShed record && !isQueued record

/-- Counted as cancelled, but not as a call. -/
def isSkipped (record : Dict) : Bool := !isShed record && isQueued record

section
variable {V : Type*}

/-- A change that leaves the columns of the classes alone. -/
def Keeps (f : Bucket V → Option (Bucket V)) : Prop :=
  ∀ b b', f b = some b' → ∀ c, settles c = true → b'.counts c = b.counts c

theorem Keeps.bind {f f' : Bucket V → Option (Bucket V)} (h : Keeps f) (h' : Keeps f') :
    Keeps fun b => (f b).bind f' := by
  intro b b' hb c hc
  obtain ⟨b₁, hb₁, hb'⟩ := Option.bind_eq_some_iff.mp hb
  rw [h' b₁ b' hb' c hc, h b b₁ hb₁ c hc]

theorem Keeps.map {f : Bucket V → Option (Bucket V)} (h : Keeps f) {f' : Bucket V → Bucket V}
    (h' : Keeps fun b => some (f' b)) : Keeps fun b => (f b).map f' := by
  intro b b' hb c hc
  obtain ⟨b₁, hb₁, rfl⟩ := Option.map_eq_some_iff.mp hb
  rw [h' b₁ _ rfl c hc, h b b₁ hb₁ c hc]

theorem Keeps.refl : Keeps fun b : Bucket V => some b := by
  intro b b' hb c _
  rw [Option.some.inj hb]

theorem keeps_bump {c : Counter} (hc : settles c = false) :
    Keeps fun b : Bucket V => some (b.bump c) := by
  intro b b' hb d hd
  obtain rfl := Option.some.inj hb
  have hne : d ≠ c := by
    rintro rfl
    rw [hc] at hd
    exact Bool.noConfusion hd
  simp [Bucket.bump, hne]

theorem keeps_read {α : Type*} {p : Prop} [Decidable p] (x : Option α)
    {f : α → Bucket V → Bucket V} (hf : ∀ a b, (f a b).counts = b.counts) :
    Keeps fun b => if p then x.map (f · b) else some b := by
  intro b b' hb c _
  by_cases hp : p
  · simp only [hp, if_true] at hb
    obtain ⟨a, -, rfl⟩ := Option.map_eq_some_iff.mp hb
    rw [hf]
  · simp only [hp, if_false] at hb
    rw [Option.some.inj hb]

theorem keeps_countCache (record : Dict) :
    Keeps fun b : Bucket V => some (b.countCache record) := by
  unfold Bucket.countCache
  cases dictAt record "cache" with
  | none => exact Keeps.refl
  | some cache =>
    simp only
    split_ifs
    · exact keeps_bump rfl
    · exact keeps_bump rfl
    · exact Keeps.refl

theorem keeps_addConsensus (record : Dict) :
    Keeps fun b : Bucket V => some (b.addConsensus record) := by
  intro b b' hb c _
  obtain rfl := Option.some.inj hb
  unfold Bucket.addConsensus
  cases valueAt record "consensus" with
  | str s => by_cases hs : s = [] <;> simp [hs]
  | _ => rfl

theorem keeps_addFallback (record : Dict) :
    Keeps fun b : Bucket V => some (b.addFallback record) := by
  unfold Bucket.addFallback
  split
  · exact keeps_bump rfl
  · exact Keeps.refl

variable [AddCommMonoid V] [Numbers V] [Host]

theorem keeps_addUsage (record : Dict) :
    Keeps fun b : Bucket V => b.addUsage record := by
  unfold Bucket.addUsage
  cases dictAt record "usage" with
  | none => exact Keeps.refl
  | some usage =>
    have htokens : Keeps (Bucket.addTokens usage : Bucket V → Option (Bucket V)) :=
      keeps_read _ fun _ _ => rfl
    have hcost : Keeps (Bucket.addCost usage : Bucket V → Option (Bucket V)) := by
      refine keeps_read _ fun x b => ?_
      split_ifs <;> rfl
    have hnotional : Keeps (Bucket.addNotional usage : Bucket V → Option (Bucket V)) :=
      keeps_read _ fun _ _ => rfl
    have hcover : Keeps fun b : Bucket V => some (b.cover usage) := by
      unfold Bucket.cover
      split_ifs
      · exact keeps_bump rfl
      · exact Keeps.refl
    exact (((keeps_bump (c := .usageCoverage) rfl).bind htokens).bind (hcost.bind hnotional)).map
      hcover

/-- What is added after a call has its class. -/
theorem keeps_rest (record : Dict) : Keeps fun b : Bucket V =>
    ((b.addLatency record).map (Bucket.countCache record)).bind fun b =>
      (b.addUsage record).map fun b => (b.addConsensus record).addFallback record := by
  have htimed : Keeps (Bucket.addLatency record : Bucket V → Option (Bucket V)) :=
    keeps_read _ fun _ _ => rfl
  exact (htimed.map (keeps_countCache record)).bind
    ((keeps_addUsage record).map ((keeps_addConsensus record).map (keeps_addFallback record)))

omit [AddCommMonoid V] [Numbers V] [Host] in
theorem bump_class {c : Counter} (hc : c ∈ [Counter.allowed, .refused, .errors, .cancelled])
    (b : Bucket V) : (b.bump c).counts .calls = b.counts .calls ∧
      inClass (b.bump c).counts = inClass b.counts + 1 := by
  simp only [List.mem_cons, List.not_mem_nil, or_false] at hc
  obtain rfl | rfl | rfl | rfl := hc <;> simp [inClass, Bucket.bump] <;> omega

theorem isClassified_iff (record : Dict) : isClassified record = true ↔
    decision record = txt "allowed" ∨ decision record ∈ [txt "refused", txt "denied"] ∨
      isCancelled record = true ∨ decision record = txt "error" ∨ isIncomplete record = true := by
  simp only [isClassified, isIncomplete, List.mem_cons, List.not_mem_nil, or_false,
    Bool.or_eq_true, decide_eq_true_eq, beq_iff_eq, or_assoc]
  rw [or_comm (a := isCancelled record = true), or_assoc]

omit [AddCommMonoid V] [Numbers V] in
theorem classify_counts (record : Dict) (b : Bucket V) :
    (b.classify record).counts .calls = b.counts .calls ∧
      inClass (b.classify record).counts =
        inClass b.counts + if isClassified record = true then 1 else 0 := by
  have hclass := isClassified_iff record
  unfold Bucket.classify
  by_cases hallowed : decision record = txt "allowed"
  · rw [if_pos hallowed, if_pos (hclass.mpr (Or.inl hallowed))]
    exact bump_class (by simp) b
  by_cases hrefused : decision record ∈ [txt "refused", txt "denied"]
  · rw [if_neg hallowed, if_pos hrefused, if_pos (hclass.mpr (Or.inr (Or.inl hrefused)))]
    exact bump_class (by simp) b
  by_cases hcancelled : isCancelled record = true
  · rw [if_neg hallowed, if_neg hrefused, if_pos hcancelled,
      if_pos (hclass.mpr (Or.inr (Or.inr (Or.inl hcancelled))))]
    exact bump_class (by simp) b
  by_cases herror : decision record = txt "error" ∨ isIncomplete record = true
  · rw [if_neg hallowed, if_neg hrefused, if_neg hcancelled, if_pos herror,
      if_pos (hclass.mpr (Or.inr (Or.inr (Or.inr herror))))]
    exact bump_class (by simp) b
  · have hnone : ¬isClassified record = true := by
      rw [hclass]
      exact fun h => h.elim hallowed fun h => h.elim hrefused fun h => h.elim hcancelled herror
    rw [if_neg hallowed, if_neg hrefused, if_neg hcancelled, if_neg herror, if_neg hnone]
    exact ⟨rfl, rfl⟩

omit [AddCommMonoid V] [Numbers V] [Host] in
theorem class_congr {b b' : Bucket V} (h : ∀ c, settles c = true → b'.counts c = b.counts c) :
    b'.counts .calls = b.counts .calls ∧ inClass b'.counts = inClass b.counts :=
  ⟨h .calls rfl, by
    simp only [inClass, h .allowed rfl, h .refused rfl, h .errors rfl, h .cancelled rfl]⟩

/-- A record is one call or none, and a call is in one class unless it has none. -/
theorem gain_class {record : Dict} {g : Tally V} (hg : gain record = some g) :
    g.1 .calls + (if isSkipped record = true then 1 else 0) =
      inClass g.1 + if isCall record = true ∧ isClassified record = false then 1 else 0 := by
  obtain ⟨b, hb, rfl⟩ := Option.map_eq_some_iff.mp hg
  change b.counts .calls + _ = inClass b.counts + _
  unfold Bucket.add at hb
  unfold isCall isSkipped
  by_cases hshed : isShed record = true
  · rw [if_pos hshed] at hb
    obtain ⟨hcalls, hclass⟩ := class_congr (keeps_countCache record _ b hb)
    have hnone : (Bucket.empty.bump .circuitOpen : Bucket V).counts .calls = 0 := rfl
    have hopen : inClass (Bucket.empty.bump .circuitOpen : Bucket V).counts = 0 := rfl
    rw [hcalls, hclass, hnone, hopen]
    simp [hshed]
  · rw [if_neg hshed] at hb
    by_cases hqueued : isQueued record = true
    · rw [if_pos hqueued] at hb
      obtain ⟨hcalls, hclass⟩ := class_congr (keeps_countCache record _ b hb)
      have hnone : (Bucket.empty.bump .cancelled : Bucket V).counts .calls = 0 := rfl
      have hone : inClass (Bucket.empty.bump .cancelled : Bucket V).counts = 1 := rfl
      rw [hcalls, hclass, hnone, hone]
      simp [hshed, hqueued]
    · rw [if_neg hqueued] at hb
      obtain ⟨hcalls, hclass⟩ := class_congr (keeps_rest record _ b hb)
      obtain ⟨hkept, hone⟩ := classify_counts record (Bucket.empty.bump .calls : Bucket V)
      have hcall : (Bucket.empty.bump .calls : Bucket V).counts .calls = 1 := rfl
      have hnone : inClass (Bucket.empty.bump .calls : Bucket V).counts = 0 := rfl
      rw [hcalls, hclass, hkept, hone, hcall, hnone]
      cases isClassified record <;> simp [hshed, hqueued]

/-- A call of no class. -/
def isLost (record : Dict) : Bool := isCall record && !isClassified record

/-- The same over any records that were added. -/
theorem sum_class {es : List (Option Str × Dict)}
    (hread : ∀ e ∈ es, (gain e.2 : Option (Tally V)).isSome = true) :
    ((meter : Meter Dict (Bucket V) (Tally V)).sum es).1 .calls + es.countP (isSkipped ·.2) =
      inClass (meter.sum es : Tally V).1 + es.countP (isLost ·.2) := by
  induction es with
  | nil => rfl
  | cons e es ih =>
    obtain ⟨g, hg⟩ := Option.isSome_iff_exists.mp (hread e List.mem_cons_self)
    have hsum : (meter.sum (e :: es) : Tally V) = g + meter.sum es := by
      simp [Meter.sum, meter, hg]
    have hrest := ih fun e' he' => hread e' (List.mem_cons_of_mem _ he')
    have hone := gain_class hg
    have hadd : inClass (g + meter.sum es : Tally V).1 =
        inClass g.1 + inClass (meter.sum es : Tally V).1 := by
      simp only [inClass, Prod.fst_add, Pi.add_apply]
      omega
    rw [hsum, hadd, Prod.fst_add, Pi.add_apply, List.countP_cons, List.countP_cons]
    simp only [isLost, Bool.and_eq_true, Bool.not_eq_true'] at hrest ⊢
    omega

/-- A bucket of these records: calls are allowed, refused, errors or cancelled without having
been queued. -/
def Balances (es : List (Option Str × Dict)) (counts : Counter → ℕ) : Prop :=
  counts .calls + es.countP (isSkipped ·.2) = inClass counts

theorem balances_iff {es : List (Option Str × Dict)}
    (hread : ∀ e ∈ es, (gain e.2 : Option (Tally V)).isSome = true) {b : Bucket V}
    (hb : b.tally = meter.sum es) :
    Balances es b.counts ↔ ∀ e ∈ es, isCall e.2 = true → isClassified e.2 = true := by
  have hcounts : b.counts = (meter.sum es : Tally V).1 := congrArg Prod.fst hb
  have hsum := sum_class hread
  have hlost : es.countP (isLost ·.2) = 0 ↔
      ∀ e ∈ es, isCall e.2 = true → isClassified e.2 = true := by
    simp [List.countP_eq_zero, isLost]
  rw [Balances, hcounts, ← hlost]
  omega

end

/-! ### The order of the log -/

section
variable {V : Type*} [AddCommMonoid V] [Numbers V] [Host]

variable (V) in
/-- The time that an event gives the second schema. -/
def startOf (record : Dict) : Option ℚ :=
  if isV2 record && record.getIs (txt "event_name") (txt "tool.completed") then
    timeOf V record "timestamp"
  else none

omit [AddCommMonoid V] in
variable (V) in
theorem v2Start_perm {records records' : List Dict} (h : records.Perm records') :
    v2Start V records = v2Start V records' := by
  have hstep (records : List Dict) : v2Start V records = records.foldl (fun start r =>
      (startOf V r).elim start fun ts => some (start.elim ts (min ts))) none := by
    unfold v2Start startOf
    congr 1
    funext start r
    split_ifs with hv2
    · cases timeOf V r "timestamp" <;> simp [← min_def_lt]
    · rfl
  rw [hstep, hstep]
  refine h.foldl_eq' (fun r _ r' _ start => ?_) none
  cases startOf V r with
  | none => rfl
  | some ts =>
    cases startOf V r' with
    | none => rfl
    | some ts' =>
      cases start with
      | none => simp [min_comm]
      | some s => simp [min_left_comm]

omit [AddCommMonoid V] in
variable (V) in
theorem routed_perm (q : Query) {records records' : List Dict} (h : records.Perm records') :
    (routed V q records).Perm (routed V q records') := by
  unfold routed
  rw [v2Start_perm V h]
  exact h.filterMap _

omit [AddCommMonoid V] [Host] in
/-- A row shows no more of a bucket than its amounts. -/
theorem finalize_congr (key : Str) {b b' : Bucket V} (h : b.tally = b'.tally) :
    finalize key b = finalize key b' := by
  obtain ⟨hcounts, hlat, htokens, hcosts, hconsensus⟩ :
      b.counts = b'.counts ∧ b.lat.Perm b'.lat ∧ b.totalTokens = b'.totalTokens ∧
        (b.costUsd = b'.costUsd ∧ b.costUsdNotional = b'.costUsdNotional) ∧
          b.consensusCounts = b'.consensusCounts := by
    simpa [Bucket.tally] using h
  have hsorted : b.lat.insertionSort (· ≤ ·) = b'.lat.insertionSort (· ≤ ·) :=
    Sorting.insertionSort_congr id hlat fun _ _ _ _ => id
  unfold finalize
  rw [hsorted, hcounts, htokens, hcosts.1, hcosts.2, hconsensus]

omit [AddCommMonoid V] [Host] in
theorem finalize_eq_some {key : Str} {b : Bucket V} {row : Row V}
    (h : finalize key b = some row) : row.key = key ∧ row.counts = b.counts := by
  unfold finalize at h
  obtain ⟨avgMs, -, h⟩ := Option.bind_eq_some_iff.mp h
  obtain ⟨errorRate, -, h⟩ := Option.bind_eq_some_iff.mp h
  obtain ⟨shedRate, -, h⟩ := Option.bind_eq_some_iff.mp h
  obtain ⟨cacheHitRate, -, rfl⟩ := Option.map_eq_some_iff.mp h
  exact ⟨rfl, rfl⟩

/-- A bucket of given amounts. -/
def bucketOf (t : Tally V) : Bucket V :=
  ⟨t.1, Multiset.sort t.2.1, t.2.2.1, t.2.2.2.1.1, t.2.2.2.1.2, t.2.2.2.2⟩

omit [AddCommMonoid V] [Numbers V] [Host] in
theorem tally_bucketOf (t : Tally V) : (bucketOf t).tally = t := by
  unfold bucketOf Bucket.tally
  simp only [Multiset.sort_eq]

omit [AddCommMonoid V] [Host] in
theorem keys_of_map {l : List (Sigma fun _ : Str => Bucket V)} {rows : List (Row V)}
    (h : (l.map fun p => finalize p.1 p.2) = rows.map some) :
    rows.map Row.key = l.map Sigma.fst := by
  induction l generalizing rows with
  | nil =>
    cases rows with
    | nil => rfl
    | cons row rows => simp at h
  | cons p l ih =>
    cases rows with
    | nil => simp at h
    | cons row rows =>
      obtain ⟨hrow, hrows⟩ := List.cons.inj h
      rw [List.map_cons, List.map_cons, (finalize_eq_some hrow).1, ih hrows]

omit [AddCommMonoid V] [Host] in
/-- The rows are those of the buckets, each under its key. -/
theorem rows_spec {accounts : AList fun _ : Str => Bucket V} {rows : List (Row V)}
    (h : (accounts.entries.mapM fun p => finalize p.1 p.2) = some rows) :
    (rows.map Row.key).Nodup ∧
      ∀ row ∈ rows, ∃ b, accounts.lookup row.key = some b ∧ row.counts = b.counts := by
  have hmap := Sorting.mapM_eq_some.mp h
  refine ⟨?_, fun row hrow => ?_⟩
  · rw [keys_of_map hmap]
    exact accounts.nodupKeys
  · have hmem : some row ∈ accounts.entries.map fun p => finalize p.1 p.2 := by
      rw [hmap]
      exact List.mem_map_of_mem hrow
    obtain ⟨p, hp, hfinal⟩ := List.mem_map.mp hmem
    obtain ⟨hkey, hcounts⟩ := finalize_eq_some hfinal
    exact ⟨p.2, hkey ▸ AList.mem_lookup_iff.mpr hp, hcounts⟩

/-- The report of the same records in another order. -/
theorem aggregate_perm (q : Query) {records records' : List Dict} (h : records.Perm records')
    {report : Report V} (hreport : aggregate q records = some report) :
    aggregate q records' = some report := by
  obtain ⟨books, hbooks, hpublish⟩ := Option.bind_eq_some_iff.mp hreport
  have hrouted := routed_perm V q h
  have hread : (accumulate q records' : Option (Books Str (Bucket V))).isSome = true := by
    refine (run_isSome (m := meter) _).mpr fun e he => ?_
    have hall := (run_isSome (m := meter) (routed V q records)).mp
      (Option.isSome_of_eq_some hbooks)
    exact hall e (hrouted.mem_iff.mpr he)
  obtain ⟨books', hbooks'⟩ := Option.isSome_iff_exists.mp hread
  obtain ⟨hreadings, htotal⟩ := readings_perm (m := meter) hrouted (balanced_run hbooks)
    (balanced_run hbooks')
  obtain ⟨rows, hrows, hlast⟩ := Option.bind_eq_some_iff.mp hpublish
  obtain ⟨totals, htotals, rfl⟩ := Option.map_eq_some_iff.mp hlast
  have hfinal (books : Books Str (Bucket V)) :
      (books.accounts.entries.map fun p => finalize p.1 p.2) =
        (readings meter books).map fun p => finalize p.1 (bucketOf p.2) := by
    unfold readings
    rw [List.map_map]
    exact List.map_congr_left fun p _ => finalize_congr p.1 (tally_bucketOf _).symm
  have hperm : (books.accounts.entries.map fun p => finalize p.1 p.2).Perm
      (books'.accounts.entries.map fun p => finalize p.1 p.2) := by
    rw [hfinal, hfinal]
    exact hreadings.map _
  obtain ⟨rows', hrows', hsame⟩ := Sorting.mapM_perm hperm hrows
  have htotals' : finalize (txt "all") books'.total = some totals := by
    rw [← htotals]
    exact finalize_congr _ htotal.symm
  have hsorted : rows'.insertionSort (sortKey q.view · ≤ sortKey q.view ·) =
      rows.insertionSort (sortKey q.view · ≤ sortKey q.view ·) := by
    refine (Sorting.insertionSort_congr _ hsame fun row hrow row' hrow' hkey => ?_).symm
    have hname : row.key = row'.key := congrArg (fun k => (ofLex k).2) hkey
    exact List.inj_on_of_nodup_map (rows_spec hrows).1 hrow hrow' hname
  rw [aggregate, hbooks', Option.bind_some, publish, hrows', Option.bind_some, htotals', hsorted]
  rfl

/-- The statistics conserve calls: each in one class, in the totals and in every bucket; the
totals are the buckets and what the view cannot bucket; the order of the records is left out. -/
structure Conserves (q : Query) (records : List Dict) (report : Report V) : Prop where
  totals : Balances (routed V q records) report.totals.counts
  buckets : ∀ row ∈ report.buckets,
    Balances (under (some row.key) (routed V q records)) row.counts
  split : ∃ books : Books Str (Bucket V), accumulate q records = some books ∧
    publish q books = some report ∧ books.total.tally =
      worth Bucket.tally books.accounts + meter.sum (under none (routed V q records))
  order : ∀ records', records.Perm records' → aggregate q records' = some report

/-- A report conserves calls exactly when every call it counts has a decision with a class. -/
theorem conserves_iff {q : Query} {records : List Dict} {report : Report V}
    (h : aggregate q records = some report) :
    Conserves q records report ↔
      ∀ e ∈ routed V q records, isCall e.2 = true → isClassified e.2 = true := by
  obtain ⟨books, hbooks, hpublish⟩ := Option.bind_eq_some_iff.mp h
  obtain ⟨rows, hrows, hlast⟩ := Option.bind_eq_some_iff.mp hpublish
  obtain ⟨totals, htotals, hreport⟩ := Option.map_eq_some_iff.mp hlast
  have hread := (run_isSome (m := meter) (routed V q records)).mp
    (Option.isSome_of_eq_some hbooks)
  have hbalanced := balanced_run (m := meter) hbooks
  have htotal : report.totals.counts = books.total.counts := by
    rw [← hreport]
    exact (finalize_eq_some htotals).2
  have hiff := balances_iff hread hbalanced.total
  constructor
  · intro hconserves
    exact hiff.mp (htotal ▸ hconserves.totals)
  · intro hclassified
    refine ⟨htotal ▸ hiff.mpr hclassified, fun row hrow => ?_,
      ⟨books, hbooks, hpublish, hbalanced.split⟩, fun _ hperm => aggregate_perm q hperm h⟩
    rw [← hreport] at hrow
    obtain ⟨b, hb, hcounts⟩ := (rows_spec hrows).2 row ((List.mem_insertionSort _).mp hrow)
    have hsub : ∀ e ∈ under (some row.key) (routed V q records), e ∈ routed V q records :=
      fun e he => (List.mem_filter.mp he).1
    have haccount := hbalanced.account row.key
    rw [hb, Option.map_some] at haccount
    have hsum : b.tally = meter.sum (under (some row.key) (routed V q records)) := by
      by_cases hnil : under (some row.key) (routed V q records) = []
      · simp [hnil] at haccount
      · rw [if_neg hnil] at haccount
        exact Option.some.inj haccount
    rw [hcounts, balances_iff (fun e he => hread e (hsub e he)) hsum]
    exact fun e he => hclassified e (hsub e he)

end

/-! ### A report that loses a call -/

/-- Arithmetic without rounding, and the one time the examples read. -/
@[reducible] def Numbers.exact : Numbers ℚ where
  parseTs text := if text = txt "2026-09-01T12:00:00Z" then some 1788264000 else none
  sub := (· - ·)
  mul := (· * ·)
  div m n := some (m / n)
  round x k := (Rat.floor (x * 10 ^ k + 1 / 2) : ℚ) / 10 ^ k
  ofInt n := some n
  ofFloat _ := 0
  round6 x := x

/-- A call of `ask_fable` that came back with a status. -/
def completed (status : String) : Dict :=
  [(txt "schema_version", .int 2), (txt "event_name", .str (txt "tool.completed")),
   (txt "timestamp", .str (txt "2026-09-01T12:00:00Z")), (txt "tool", .str (txt "ask_fable")),
   (txt "status", .str (txt status)), (txt "duration_ms", .int 1200), (txt "error", .null)]

def byTool : Query := ⟨txt "all", txt "tool", none, none, 1788267600⟩

theorem conserves_ok :
    let : Host := Host.ascii
    let : Numbers ℚ := Numbers.exact
    ∃ report : Report ℚ, Conserves byTool [completed "ok", completed "error"] report := by
  intro host numbers
  have hsome : (aggregate byTool [completed "ok", completed "error"] :
      Option (Report ℚ)).isSome = true := by decide +kernel
  obtain ⟨report, hreport⟩ := Option.isSome_iff_exists.mp hsome
  exact ⟨report, (conserves_iff hreport).mpr (by decide +kernel)⟩

/-- A call that ended because the context was exhausted is counted, and is in no class. -/
theorem exhausted_lost :
    let : Host := Host.ascii
    let : Numbers ℚ := Numbers.exact
    ∃ report : Report ℚ, aggregate byTool [completed "context_exhausted"] = some report ∧
      report.totals.counts .calls = 1 ∧ inClass report.totals.counts = 0 ∧
        ¬Conserves byTool [completed "context_exhausted"] report := by
  intro host numbers
  have hrun : (aggregate byTool [completed "context_exhausted"] : Option (Report ℚ)).map
      (fun report => (report.totals.counts .calls, inClass report.totals.counts)) =
        some (1, 0) := by decide +kernel
  obtain ⟨report, hreport, hcounts⟩ := Option.map_eq_some_iff.mp hrun
  obtain ⟨hcalls, hclass⟩ := Prod.mk.inj hcounts
  refine ⟨report, hreport, hcalls, hclass, fun hconserves => ?_⟩
  have htotals := hconserves.totals
  rw [Balances, hcalls, hclass] at htotals
  omega

end AskFable.Stats
