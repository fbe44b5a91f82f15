import AskFable.Stats.Aggregate

/-!
# What a record adds

Every record adds a fixed amount to a bucket, whatever the bucket holds, or cannot be read
whatever the bucket holds. So the buckets and the totals are sums over the records.
-/
namespace AskFable.Stats
open AskFable.Text AskFable.Python AskFable.Tabulate

variable {V : Type*} [AddCommMonoid V]

/-- What a bucket holds, as a sum of records: the order of its latencies is left out. -/
abbrev Tally (V : Type*) := (Counter → ℕ) × Multiset ℤ × ℤ × (V × V) × Multiset Str

def Bucket.tally (b : Bucket V) : Tally V :=
  (b.counts, b.lat, b.totalTokens, (b.costUsd, b.costUsdNotional), b.consensusCounts)

/-- A change that adds the same to every bucket. -/
def Shifts (f : Bucket V → Bucket V) : Prop := ∃ t : Tally V, ∀ b, (f b).tally = b.tally + t

/-- A change that adds the same to every bucket, or fails on every one. -/
def Gains (f : Bucket V → Option (Bucket V)) : Prop :=
  ∃ g : Option (Tally V), ∀ b, (f b).map Bucket.tally = g.map (b.tally + ·)

theorem Shifts.id : Shifts fun b : Bucket V => b := ⟨0, fun b => (add_zero b.tally).symm⟩

theorem Shifts.comp {f f' : Bucket V → Bucket V} (h : Shifts f) (h' : Shifts f') :
    Shifts fun b => f' (f b) := by
  obtain ⟨t, ht⟩ := h
  obtain ⟨t', ht'⟩ := h'
  exact ⟨t + t', fun b => by rw [ht', ht, add_assoc]⟩

theorem Shifts.gains {f : Bucket V → Bucket V} (h : Shifts f) : Gains fun b => some (f b) := by
  obtain ⟨t, ht⟩ := h
  exact ⟨some t, fun b => congrArg some (ht b)⟩

theorem Gains.bind {f f' : Bucket V → Option (Bucket V)} (h : Gains f) (h' : Gains f') :
    Gains fun b => (f b).bind f' := by
  obtain ⟨g, hg⟩ := h
  obtain ⟨g', hg'⟩ := h'
  refine ⟨g.bind fun t => g'.map (t + ·), fun b => ?_⟩
  have hb := hg b
  cases hf : f b with
  | none =>
    rw [hf] at hb
    obtain rfl : g = none := Option.map_eq_none_iff.mp hb.symm
    simp [hf]
  | some b₁ =>
    rw [hf] at hb
    obtain ⟨t, rfl, ht⟩ := Option.map_eq_some_iff.mp hb.symm
    simp only [hf, Option.bind_some, hg', ← ht, Option.map_map]
    exact Option.map_congr fun t' _ => add_assoc _ _ _

theorem Gains.map {f : Bucket V → Option (Bucket V)} (h : Gains f) {f' : Bucket V → Bucket V}
    (h' : Shifts f') : Gains fun b => (f b).map f' := by
  have hbind : (fun b => (f b).map f') = fun b => (f b).bind fun b => some (f' b) := by
    funext b
    cases f b <;> rfl
  rw [hbind]
  exact h.bind h'.gains

theorem shifts_bump (c : Counter) : Shifts (Bucket.bump c : Bucket V → Bucket V) :=
  ⟨(Pi.single c 1, 0), fun b => by simp [Bucket.tally, Bucket.bump]⟩

theorem shifts_countCache (record : Dict) :
    Shifts (Bucket.countCache record : Bucket V → Bucket V) := by
  unfold Bucket.countCache
  cases dictAt record "cache" with
  | none => exact Shifts.id
  | some cache =>
    simp only
    split_ifs
    · exact shifts_bump _
    · exact shifts_bump _
    · exact Shifts.id

/-- A number that is read once and then added. -/
theorem gains_read {α : Type*} {p : Prop} [Decidable p] (x : Option α)
    {f : α → Bucket V → Bucket V} (hf : ∀ a, Shifts (f a)) :
    Gains fun b => if p then x.map (f · b) else some b := by
  by_cases hp : p
  · simp only [hp, if_true]
    cases x with
    | none => exact ⟨none, fun b => rfl⟩
    | some a => exact (hf a).gains
  · simp only [hp, if_false]
    exact Shifts.id.gains

theorem shifts_cover (usage : Dict) : Shifts (Bucket.cover usage : Bucket V → Bucket V) := by
  unfold Bucket.cover
  split_ifs
  · exact shifts_bump _
  · exact Shifts.id

theorem shifts_addConsensus (record : Dict) :
    Shifts (Bucket.addConsensus record : Bucket V → Bucket V) := by
  unfold Bucket.addConsensus
  cases valueAt record "consensus" with
  | str s =>
    simp only
    split_ifs
    · exact Shifts.id
    · refine ⟨(0, 0, 0, 0, {s}), fun b => ?_⟩
      simp [Bucket.tally, add_comm _ ({s} : Multiset Str)]
  | _ => exact Shifts.id

theorem shifts_addFallback (record : Dict) :
    Shifts (Bucket.addFallback record : Bucket V → Bucket V) := by
  unfold Bucket.addFallback
  split
  · exact shifts_bump _
  · exact Shifts.id

section
variable [Numbers V]

theorem gains_addCost (usage : Dict) :
    Gains (Bucket.addCost usage : Bucket V → Option (Bucket V)) := by
  refine gains_read (floatAt (valueAt usage "cost_usd")) fun x => ?_
  split_ifs
  · exact ⟨(0, 0, 0, (0, x), 0), fun b => by simp [Bucket.tally]⟩
  · exact ⟨(0, 0, 0, (x, 0), 0), fun b => by simp [Bucket.tally]⟩

theorem gains_addNotional (usage : Dict) :
    Gains (Bucket.addNotional usage : Bucket V → Option (Bucket V)) :=
  gains_read (floatAt (valueAt usage "cost_usd_notional"))
    fun x => ⟨(0, 0, 0, (0, x), 0), fun b => by simp [Bucket.tally]⟩

end

section
variable [Host]

theorem shifts_classify (record : Dict) :
    Shifts (Bucket.classify record : Bucket V → Bucket V) := by
  unfold Bucket.classify
  split_ifs
  · exact shifts_bump _
  · exact shifts_bump _
  · exact shifts_bump _
  · exact shifts_bump _
  · exact Shifts.id

theorem gains_addLatency (record : Dict) :
    Gains (Bucket.addLatency record : Bucket V → Option (Bucket V)) :=
  gains_read (intAt (valueAt record "duration_ms"))
    fun ms => ⟨(0, {ms}, 0), fun b => by simp [Bucket.tally, ← Multiset.coe_add]⟩

theorem gains_addTokens (usage : Dict) :
    Gains (Bucket.addTokens usage : Bucket V → Option (Bucket V)) :=
  gains_read (intAt (valueAt usage "total_tokens"))
    fun n => ⟨(0, 0, n, 0), fun b => by simp [Bucket.tally]⟩

end

variable [Numbers V] [Host]

theorem gains_addUsage (record : Dict) :
    Gains (Bucket.addUsage record : Bucket V → Option (Bucket V)) := by
  unfold Bucket.addUsage
  cases dictAt record "usage" with
  | none => exact Shifts.id.gains
  | some usage =>
    have hcosts := (gains_addCost (V := V) usage).bind (gains_addNotional usage)
    exact (((shifts_bump .usageCoverage).gains.bind (gains_addTokens usage)).bind hcosts).map
      (shifts_cover usage)

/-- A record adds the same to every bucket. -/
theorem gains_add (record : Dict) : Gains fun b : Bucket V => b.add record := by
  unfold Bucket.add
  split_ifs
  · exact ((shifts_bump .circuitOpen).comp (shifts_countCache record)).gains
  · exact ((shifts_bump .cancelled).comp (shifts_countCache record)).gains
  · have hcall := (shifts_bump (V := V) .calls).comp (shifts_classify record)
    have htimed := (hcall.gains.bind (gains_addLatency record)).map (shifts_countCache record)
    exact htimed.bind ((gains_addUsage record).map
      ((shifts_addConsensus record).comp (shifts_addFallback record)))

/-- The record as an amount. -/
def gain (record : Dict) : Option (Tally V) := ((Bucket.empty : Bucket V).add record).map Bucket.tally

/-- Buckets measure records. -/
def meter : Meter Dict (Bucket V) (Tally V) where
  fresh := .empty
  add := Bucket.add
  value := Bucket.tally
  gain := gain
  value_fresh := rfl
  value_add b record := by
    obtain ⟨g, hg⟩ := gains_add (V := V) record
    have hgain : gain record = g := by
      have hempty : (Bucket.empty : Bucket V).tally = 0 := rfl
      rw [gain, hg, hempty]
      simp
    rw [hg, hgain]

end AskFable.Stats
