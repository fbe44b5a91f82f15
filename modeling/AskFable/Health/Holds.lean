import AskFable.Health.Arithmetic
import AskFable.Health.Runs

/-!
# Quota holds over a run

A `rate_limit` extends the oracle's hold and, when no hold is live, counts one step. What a hold
adds is capped, so it never ends later than the cap after the last `rate_limit`. The power of two
is not capped: the step after the 1024th makes `record` raise.
-/
namespace AskFable.Health
open AskFable.Text

/-- What decides on a hold. -/
structure Held where
  heldUntil : ℚ
  holdStep : ℕ

def OracleState.held (s : OracleState) : Held := ⟨s.heldUntil, s.holdStep⟩

def Breaker.held (b : Breaker) (key : Str) : Held := ((b key).getD .fresh).held

/-- The outcome is a `rate_limit` of the oracle, with holds switched on. -/
def Call.holds (c : Call) (key : Str) : Bool :=
  c.key = key && !isIgnored c.status c.kind && isHold c.cfg c.status c.kind

/-- The outcome is a success of the oracle. -/
def Call.clears (c : Call) (key : Str) : Bool := c.key = key && !c.isError

/-- The step after a `rate_limit`. -/
def Held.next (h : Held) (now : ℚ) : ℕ := if h.heldUntil ≤ now then h.holdStep + 1 else h.holdStep

section
variable [Floats]

/-- `1.1 * _QUOTA_HOLD_MAX`. -/
def HOLD_CAP : ℚ := Floats.mul QUOTA_HOLD_MAX (Floats.add 1 Environ.TENTH)

/-! ### One record -/

/-- What a hold does: too high a power of two raises, and otherwise a capped time is added. -/
theorem hold_cases (s : OracleState) (base : Seconds) (t : Tick) :
    (1024 < s.held.next t.first ∧ (s.hold base t).2 = none ∧
      (s.hold base t).1.held = ⟨s.heldUntil, s.held.next t.first⟩) ∨
    (s.held.next t.first ≤ 1024 ∧ (s.hold base t).2 = some none ∧
      ∃ capped ≤ QUOTA_HOLD_MAX, (s.hold base t).1.held =
        ⟨max s.heldUntil (Floats.add t.first (Floats.mul capped (Floats.add 1 t.jitter))),
          s.held.next t.first⟩) := by
  unfold OracleState.hold Held.next OracleState.held
  simp only
  generalize (if s.heldUntil ≤ t.first then s.holdStep + 1 else s.holdStep) = step
  by_cases hstep : 1024 < step
  · exact .inl ⟨hstep, by simp [doubled, hstep], by simp [doubled, hstep]⟩
  · refine .inr ⟨Nat.le_of_not_lt hstep, by simp [doubled, hstep], ?_⟩
    simp only [doubled, hstep, if_false]
    cases base with
    | none => exact ⟨QUOTA_HOLD_MAX, le_rfl, rfl⟩
    | some base => exact ⟨_, min_le_right _ _, rfl⟩

theorem take_held (s : OracleState) (c : Call) :
    (s.take c.cfg c.key c.isError c.tick).1.held = if c.isError then s.held else ⟨0, 0⟩ := by
  unfold OracleState.take OracleState.held
  cases c.isError with
  | false =>
    simp only [if_true, Bool.false_eq_true, if_false]
    split_ifs <;> rfl
  | true =>
    simp only [Bool.true_eq_false, if_true, if_false]
    split_ifs <;> rfl

omit [Floats] in
theorem held_set (b : Breaker) (key k : Str) (s : OracleState) :
    (b.set key s).held k = if k = key then s.held else b.held k := by
  unfold Breaker.held Breaker.set
  split_ifs <;> rfl

theorem record_of_holds (b : Breaker) {c : Call} {key : Str} (h : c.holds key = true) :
    b.record c.cfg c.key c.status c.kind c.tick =
      (b.set key (((b key).getD .fresh).hold c.cfg.quotaHold c.tick).1,
        (((b key).getD .fresh).hold c.cfg.quotaHold c.tick).2) := by
  simp only [Call.holds, Bool.and_eq_true, Bool.not_eq_true', decide_eq_true_eq] at h
  obtain ⟨⟨rfl, hignored⟩, hheld⟩ := h
  simp [Breaker.record, hignored, hheld]

/-- The step after the 1024th raises. -/
theorem record_eq_none {b : Breaker} {c : Call} (hholds : c.holds c.key = true)
    (h : 1024 < (b.held c.key).next c.tick.first) :
    (b.record c.cfg c.key c.status c.kind c.tick).2 = none := by
  rw [record_of_holds b hholds]
  rcases hold_cases ((b c.key).getD .fresh) c.cfg.quotaHold c.tick with
    ⟨-, hnone, -⟩ | ⟨hshort, -⟩
  · exact hnone
  · exact absurd h (Nat.not_lt_of_le hshort)

/-- What is no `rate_limit` raises nothing; a success clears the hold, and the rest leaves it. -/
theorem held_of_not_holds (b : Breaker) {c : Call} {key : Str} (h : c.holds key = false) :
    (b.step (.record c)).held key = if c.clears key = true then ⟨0, 0⟩ else b.held key := by
  unfold Breaker.step Breaker.record
  by_cases hignored : isIgnored c.status c.kind = true
  · have herr : c.isError = true := by
      simp only [isIgnored, decide_eq_true_eq] at hignored
      simp [Call.isError, hignored.1]
    simp [hignored, Call.clears, herr]
  · by_cases hheld : isHold c.cfg c.status c.kind = true
    · have hkey : key ≠ c.key := by
        rintro rfl
        simp [Call.holds, hignored, hheld] at h
      simp [hignored, hheld, held_set, hkey, Call.clears, Ne.symm hkey]
    · simp only [hignored, hheld, Bool.false_eq_true, if_false, held_set]
      by_cases hkey : key = c.key
      · rw [if_pos hkey, hkey]
        change (((b c.key).getD .fresh).take c.cfg c.key c.isError c.tick).1.held = _
        rw [take_held]
        cases herr : c.isError <;> simp [Call.clears, herr, Breaker.held]
      · simp [hkey, Call.clears, Ne.symm hkey]

theorem returns_of_not_holds (b : Breaker) {c : Call} (h : c.holds c.key = false) :
    (b.record c.cfg c.key c.status c.kind c.tick).2 ≠ none := by
  unfold Breaker.record
  by_cases hignored : isIgnored c.status c.kind = true
  · simp [hignored]
  · have hheld : isHold c.cfg c.status c.kind = false := by
      simpa [Call.holds, hignored] using h
    simp [hignored, hheld]

/-! ### Runs -/

/-- A record returns, shortens no hold that it does not clear, and counts a `rate_limit` exactly
when it finds no live hold. -/
structure Orderly (b : Breaker) (c : Call) : Prop where
  returns : (b.record c.cfg c.key c.status c.kind c.tick).2 ≠ none
  kept : ∀ key, c.clears key = false →
    (b.held key).heldUntil ≤ ((b.step (.record c)).held key).heldUntil
  counted : ∀ key, c.clears key = false → ((b.step (.record c)).held key).holdStep =
    if c.holds key = true then (b.held key).next c.tick.first else (b.held key).holdStep

/-- One record is in order exactly when it does not take the step beyond 1024. -/
theorem orderly_iff (b : Breaker) (c : Call) :
    Orderly b c ↔ (c.holds c.key = true → (b.held c.key).next c.tick.first ≤ 1024) := by
  constructor
  · intro h hholds
    exact Nat.le_of_not_lt fun hstep => h.returns (record_eq_none hholds hstep)
  · intro h
    have hset (key : Str) (hholds : c.holds key = true) : c.key = key := by
      simp only [Call.holds, Bool.and_eq_true, decide_eq_true_eq] at hholds
      exact hholds.1.1
    refine ⟨?_, ?_, ?_⟩
    · by_cases hholds : c.holds c.key = true
      · rw [record_of_holds b hholds]
        rcases hold_cases ((b c.key).getD .fresh) c.cfg.quotaHold c.tick with
          ⟨hstep, -⟩ | ⟨-, hsome, -⟩
        · exact absurd (h hholds) (Nat.not_le_of_lt hstep)
        · simp [hsome]
      · exact returns_of_not_holds b (by simpa using hholds)
    · intro key hclears
      by_cases hholds : c.holds key = true
      · rw [Breaker.step, record_of_holds b hholds, held_set, if_pos rfl]
        rcases hold_cases ((b key).getD .fresh) c.cfg.quotaHold c.tick with
          ⟨-, -, hheld⟩ | ⟨-, -, capped, -, hheld⟩
        · rw [hheld]
          exact le_rfl
        · rw [hheld]
          exact le_max_left _ _
      · rw [held_of_not_holds b (by simpa using hholds), hclears, if_neg (by decide)]
    · intro key hclears
      by_cases hholds : c.holds key = true
      · rw [if_pos hholds, Breaker.step, record_of_holds b hholds, held_set, if_pos rfl]
        rcases hold_cases ((b key).getD .fresh) c.cfg.quotaHold c.tick with
          ⟨-, -, hheld⟩ | ⟨-, -, capped, -, hheld⟩ <;>
        · rw [hheld]
          rfl
      · rw [held_of_not_holds b (by simpa using hholds), hclears, if_neg (by decide), if_neg hholds]

/-- When the `rate_limit`s of an oracle came. -/
def holdTimes (ops : List Op) (key : Str) : List ℚ :=
  ops.filterMap fun
    | .record c => if c.holds key = true then some c.tick.first else none
    | .reset _ => none

/-- The clock at the records, which never goes back. -/
def Clocked (ops : List Op) : Prop :=
  (ops.filterMap fun | .record c => some c.tick.first | .reset _ => none).Pairwise (· ≤ ·)

/-- `random.uniform(-0.1, 0.1)`. -/
def Jittered (ops : List Op) : Prop :=
  ∀ c, Op.record c ∈ ops → -Environ.TENTH ≤ c.tick.jitter ∧ c.tick.jitter ≤ Environ.TENTH

/-- There is no hold, or it ends within the cap after the last `rate_limit`. -/
def Capped (ops : List Op) (key : Str) : Prop :=
  ((Breaker.run ops).held key).heldUntil = 0 ∨ ∃ t, (holdTimes ops key).getLast? = some t ∧
    ((Breaker.run ops).held key).heldUntil ≤ Floats.add t HOLD_CAP

theorem run_concat (ops : List Op) (op : Op) :
    Breaker.run (ops ++ [op]) = (Breaker.run ops).step op := by
  rw [Breaker.run, List.foldl_append]
  rfl

theorem held_reset (b : Breaker) (key k : Str) :
    (b.step (.reset key)).held k = if k = key then ⟨0, 0⟩ else b.held k := by
  have hstep : b.step (.reset key) = fun k => if k = key then none else b k := rfl
  rw [hstep, Breaker.held, Breaker.held]
  by_cases hkey : k = key
  · simp [hkey, OracleState.fresh, OracleState.held]
  · simp [hkey]

variable {rnd : ℚ → ℚ}

/-- No hold is longer than the cap. -/
theorem hold_le_cap (hfl : Floats.Correct rnd) {capped jitter : ℚ}
    (hcapped : capped ≤ QUOTA_HOLD_MAX) (hlow : -Environ.TENTH ≤ jitter)
    (hhigh : jitter ≤ Environ.TENTH) (t : ℚ) :
    Floats.add t (Floats.mul capped (Floats.add 1 jitter)) ≤ Floats.add t HOLD_CAP := by
  have hfactor : 0 ≤ Floats.add 1 jitter := by
    have htenth : Environ.TENTH ≤ 1 := by decide +kernel
    rw [hfl.add, ← hfl.zero]
    exact hfl.mono (by linarith)
  have hmax : (0 : ℚ) ≤ QUOTA_HOLD_MAX := by decide +kernel
  exact hfl.add_le le_rfl (hfl.mul_le hcapped (hfl.add_le le_rfl hhigh) hmax hfactor)

theorem capped_run (hfl : Floats.Correct rnd) {ops : List Op} (hclock : Clocked ops)
    (hjitter : Jittered ops) (key : Str) : Capped ops key := by
  induction ops using List.reverseRecOn with
  | nil => exact .inl rfl
  | append_singleton ops op ih =>
    rw [Clocked, List.filterMap_append, List.pairwise_append] at hclock
    have hold : Capped ops key :=
      ih hclock.1 fun c hc => hjitter c (List.mem_append_left _ hc)
    unfold Capped
    rw [run_concat, holdTimes, List.filterMap_append, ← holdTimes]
    cases op with
    | reset k =>
      rw [held_reset]
      split_ifs
      · exact .inl rfl
      · rw [List.filterMap_cons, List.filterMap_nil, List.append_nil]
        exact hold
    | record c =>
      by_cases hholds : c.holds key = true
      · obtain ⟨hlow, hhigh⟩ := hjitter c (List.mem_append_right _ (List.mem_singleton_self _))
        -- the hold before ended within the cap after an earlier `rate_limit`
        have hbefore : ((Breaker.run ops).held key).heldUntil = 0 ∨
            ((Breaker.run ops).held key).heldUntil ≤ Floats.add c.tick.first HOLD_CAP := by
          refine hold.imp_right ?_
          rintro ⟨t, ht, hle⟩
          refine hle.trans (hfl.add_le ?_ le_rfl)
          obtain ⟨op, hop, hnow⟩ := List.mem_filterMap.mp (List.mem_of_getLast? ht)
          cases op with
          | reset k => cases hnow
          | record d =>
            have hd : d.tick.first = t := by
              simp only [Option.ite_none_right_eq_some, Option.some.injEq] at hnow
              exact hnow.2
            rw [← hd]
            exact hclock.2.2 _ (List.mem_filterMap.mpr ⟨_, hop, rfl⟩) _ (by simp)
        rw [Breaker.step, record_of_holds _ hholds, held_set, if_pos rfl]
        simp only [hholds, if_true, List.filterMap_cons, List.filterMap_nil,
          List.getLast?_append, List.getLast?_singleton, Option.some_or, Option.some.injEq,
          exists_eq_left']
        rcases hold_cases (((Breaker.run ops) key).getD .fresh) c.cfg.quotaHold c.tick with
          ⟨-, -, hheld⟩ | ⟨-, -, capped, hcapped, hheld⟩
        · rw [hheld]
          exact hbefore
        · rw [hheld]
          have hnew := hold_le_cap hfl hcapped hlow hhigh c.tick.first
          rcases hbefore with hzero | hle
          · rcases max_choice (((Breaker.run ops) key).getD .fresh).heldUntil
              (Floats.add c.tick.first (Floats.mul capped (Floats.add 1 c.tick.jitter))) with
              hmax | hmax
            · exact .inl (hmax.trans hzero)
            · exact .inr (hmax.trans_le hnew)
          · exact .inr (max_le hle hnew)
      · rw [held_of_not_holds _ (by simpa using hholds)]
        split_ifs
        · exact .inl rfl
        · simp only [hholds, Bool.false_eq_true, if_false, List.filterMap_cons, List.filterMap_nil,
            List.append_nil]
          exact hold

/-- Whenever a `rate_limit` finds no live hold, fewer than 1024 have done so since the last
success. -/
def Unescalated (ops : List Op) : Prop :=
  ∀ pre c post, ops = pre ++ .record c :: post → c.holds c.key = true →
    ((Breaker.run pre).held c.key).heldUntil ≤ c.tick.first →
      ((Breaker.run pre).held c.key).holdStep < 1024

theorem holdStep_run_le {ops pre post : List Op} (h : Unescalated ops) (hops : ops = pre ++ post)
    (key : Str) : ((Breaker.run pre).held key).holdStep ≤ 1024 := by
  induction pre using List.reverseRecOn generalizing post key with
  | nil => exact Nat.zero_le _
  | append_singleton pre op ih =>
    rw [List.append_assoc] at hops
    have hold := ih hops
    rw [run_concat]
    cases op with
    | reset k =>
      rw [held_reset]
      split_ifs
      · exact Nat.zero_le _
      · exact hold key
    | record c =>
      by_cases hholds : c.holds key = true
      · have hkey : c.key = key := by
          simp only [Call.holds, Bool.and_eq_true, decide_eq_true_eq] at hholds
          exact hholds.1.1
        have hnext : ((Breaker.run pre).held key).next c.tick.first ≤ 1024 := by
          unfold Held.next
          split_ifs with hended
          · exact hkey ▸ h pre c post hops (hkey ▸ hholds) (hkey ▸ hended)
          · exact hold key
        rw [Breaker.step, record_of_holds _ hholds, held_set, if_pos rfl]
        rcases hold_cases (((Breaker.run pre) key).getD .fresh) c.cfg.quotaHold c.tick with
          ⟨-, -, hheld⟩ | ⟨-, -, capped, -, hheld⟩ <;>
        · rw [hheld]
          exact hnext
      · rw [held_of_not_holds _ (by simpa using hholds)]
        split_ifs
        · exact Nat.zero_le _
        · exact hold key

/-- In a run with a clock that does not go back, every record returns, no hold is shortened but by
a success or a reset, every hold ends within the cap after the last `rate_limit`, and the steps
are counted one for each `rate_limit` that finds no live hold, exactly when no such `rate_limit`
is the 1025th since the last success or reset. -/
theorem holds_in_order_iff (hfl : Floats.Correct rnd) {ops : List Op} (hclock : Clocked ops)
    (hjitter : Jittered ops) :
    ((∀ pre c post, ops = pre ++ .record c :: post → Orderly (Breaker.run pre) c) ∧
      ∀ pre key, pre <+: ops → Capped pre key) ↔ Unescalated ops := by
  constructor
  · rintro ⟨horderly, -⟩ pre c post hops hholds hended
    have hnext := (orderly_iff _ c).mp (horderly pre c post hops) hholds
    rw [Held.next, if_pos hended] at hnext
    exact hnext
  · intro h
    refine ⟨?_, ?_⟩
    · intro pre c post hops
      refine (orderly_iff _ c).mpr fun hholds => ?_
      unfold Held.next
      split_ifs with hended
      · exact h pre c post hops hholds hended
      · exact holdStep_run_le h hops c.key
    · rintro pre key ⟨post, rfl⟩
      rw [Clocked, List.filterMap_append, List.pairwise_append] at hclock
      exact capped_run hfl hclock.1 (fun c hc => hjitter c (List.mem_append_left _ hc)) key

end

/-! ### A long outage -/

/-- A `rate_limit` every 10000 seconds, longer apart than any hold. -/
def rateLimits (n : ℕ) : List Op :=
  (List.range n).map fun i : ℕ => .record (failure holding "rate_limit" (10000 * (i + 1)))

theorem holds_rateLimit (now : ℚ) :
    (failure holding "rate_limit" now).holds (txt "m3") = true := by
  have hheld : isHold holding (txt "error") (txt "rate_limit") = true := by decide
  have hignored : isIgnored (txt "error") (txt "rate_limit") = false := by decide
  simp [Call.holds, failure, hheld, hignored]

theorem held_rateLimits {n : ℕ} (h : n ≤ 1024) :
    let : Floats := Floats.exact
    ((Breaker.run (rateLimits n)).held (txt "m3")).holdStep = n ∧
      ((Breaker.run (rateLimits n)).held (txt "m3")).heldUntil ≤ 10000 * n + 3600 := by
  intro floats
  induction n with
  | zero => exact ⟨rfl, by norm_num [rateLimits, Breaker.run, Breaker.held, OracleState.held,
      OracleState.fresh]⟩
  | succ n ih =>
    obtain ⟨hstep, huntil⟩ := ih (by omega)
    have hrange : rateLimits (n + 1) = rateLimits n ++
        [Op.record (failure holding "rate_limit" (10000 * (n + 1)))] := by
      rw [rateLimits, List.range_succ, List.map_append]
      rfl
    have hnext : ((Breaker.run (rateLimits n)).held (txt "m3")).next (10000 * (n + 1)) = n + 1 := by
      rw [Held.next, if_pos (by linarith), hstep]
    rw [hrange, run_concat, Breaker.step, record_of_holds _ (holds_rateLimit _), held_set,
      if_pos rfl]
    rcases hold_cases (((Breaker.run (rateLimits n)) (txt "m3")).getD .fresh)
      holding.quotaHold ⟨10000 * (n + 1), 10000 * (n + 1), 0⟩ with
      ⟨hlong, -⟩ | ⟨-, -, capped, hcapped, hheld⟩
    · exact absurd (hlong.trans_eq hnext) (by omega)
    · refine ⟨(congrArg Held.holdStep hheld).trans hnext, ?_⟩
      refine (congrArg Held.heldUntil hheld).trans_le (max_le ?_ ?_)
      · push_cast
        refine huntil.trans ?_
        linarith
      · change 10000 * ((n : ℚ) + 1) + capped * (1 + 0) ≤ _
        have hmax : QUOTA_HOLD_MAX = 3600 := rfl
        push_cast
        linarith

/-- The 1025th `rate_limit` of an outage, each after the hold before it, raises. -/
theorem rateLimits_overflow :
    let : Floats := Floats.exact
    let c := failure holding "rate_limit" 10250000
    ((Breaker.run (rateLimits 1024)).record c.cfg c.key c.status c.kind c.tick).2 = none := by
  intro floats c
  refine record_eq_none (holds_rateLimit _) ?_
  obtain ⟨hstep, huntil⟩ := held_rateLimits (le_refl 1024)
  have hended : ((Breaker.run (rateLimits 1024)).held (txt "m3")).heldUntil ≤ 10250000 :=
    huntil.trans (by norm_num)
  change 1024 < ((Breaker.run (rateLimits 1024)).held (txt "m3")).next 10250000
  rw [Held.next, if_pos hended, hstep]
  decide

/-- Two `rate_limit`s in a row: the second extends the first hold and counts no step. -/
theorem holds_in_order_iff_twice :
    let : Floats := Floats.double
    let ops : List Op := [100, 110].map fun now => .record (failure holding "rate_limit" now)
    ((∀ pre c post, ops = pre ++ .record c :: post → Orderly (Breaker.run pre) c) ∧
      ∀ pre key, pre <+: ops → Capped pre key) ↔ Unescalated ops := by
  intro floats ops
  have hclock : Clocked ops := by
    change List.Pairwise (· ≤ ·) [(100 : ℚ), 110]
    decide +kernel
  have hjitter : Jittered ops := by
    intro c hc
    obtain ⟨now, -, hnow⟩ := List.mem_map.mp hc
    obtain rfl := Op.record.inj hnow
    have hzero : -Environ.TENTH ≤ 0 ∧ 0 ≤ Environ.TENTH := by decide +kernel
    exact hzero
  exact holds_in_order_iff double_correct hclock hjitter

end AskFable.Health
