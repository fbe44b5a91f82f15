import AskFable.Health.Breaker

/-!
# Runs of the breaker

What a run does to one oracle's window and to the time it tripped is done by the outcomes that
go into the window. From that follow when the breaker is open after a row of errors, and where
its report and its gate say the same.
-/
namespace AskFable.Health
open AskFable.Text

/-- One call of `record`. -/
structure Call where
  cfg : Settings
  key : Str
  status : Str
  kind : Str
  tick : Tick

inductive Op
  | record (c : Call)
  | reset (key : Str)

section
variable [Floats]

def Breaker.step (b : Breaker) : Op → Breaker
  | .record c => (b.record c.cfg c.key c.status c.kind c.tick).1
  | .reset key => b.reset key

def Breaker.run (ops : List Op) : Breaker := ops.foldl Breaker.step fun _ => none

/-! ### The window and the trip -/

/-- What decides on `closed` and `open`. -/
structure Mark where
  outcomes : List Bool
  openedAt : ℚ

def OracleState.mark (s : OracleState) : Mark := ⟨s.outcomes, s.openedAt⟩

def Breaker.mark (b : Breaker) (key : Str) : Mark := ((b key).getD .fresh).mark

/-- The outcome goes into the window of the oracle. -/
def Call.feeds (c : Call) (key : Str) : Bool :=
  c.key = key && !isIgnored c.status c.kind && !isHold c.cfg c.status c.kind

def Call.isError (c : Call) : Bool := c.status = txt "error"

def Mark.step (h : Mark) (c : Call) : Mark :=
  let outcomes := Window.push c.cfg.window h.outcomes c.isError
  if c.isError = false then if h.openedAt = 0 then ⟨outcomes, 0⟩ else ⟨[false], 0⟩
  else if c.cfg.enabled = true ∧ MIN_SAMPLES ≤ outcomes.length ∧
      c.cfg.threshold ≤ Floats.quot (outcomes.count true) outcomes.length then
    ⟨outcomes, c.tick.second⟩
  else ⟨outcomes, h.openedAt⟩

theorem take_mark (s : OracleState) (c : Call) :
    (s.take c.cfg c.key c.isError c.tick).1.mark = s.mark.step c := by
  unfold OracleState.take Mark.step
  simp only [OracleState.mark]
  by_cases herr : c.isError = false
  · by_cases hopen : s.openedAt = 0 <;> simp [herr, hopen]
  · rw [Bool.not_eq_false] at herr
    simp only [herr, Bool.true_eq_false, if_false]
    split_ifs <;> rfl

omit [Floats] in
theorem mark_set (b : Breaker) (key k : Str) (s : OracleState) :
    (b.set key s).mark k = if k = key then s.mark else b.mark k := by
  unfold Breaker.mark Breaker.set
  split_ifs <;> rfl

theorem hold_mark (s : OracleState) (base : Seconds) (t : Tick) :
    (s.hold base t).1.mark = s.mark := by
  unfold OracleState.hold
  simp only
  split <;> rfl

theorem mark_record (b : Breaker) (c : Call) (key : Str) :
    (b.step (.record c)).mark key =
      if c.feeds key then (b.mark key).step c else b.mark key := by
  unfold Breaker.step Breaker.record
  by_cases hignored : isIgnored c.status c.kind = true
  · simp [hignored, Call.feeds]
  · simp only [hignored, Bool.false_eq_true, if_false]
    by_cases hheld : isHold c.cfg c.status c.kind = true
    · simp only [hheld, if_true, mark_set, hold_mark]
      by_cases hkey : key = c.key
      · simp [hkey, Call.feeds, hheld, Breaker.mark]
      · simp [hkey, Call.feeds, hheld]
    · simp only [hheld, Bool.false_eq_true, if_false, mark_set]
      by_cases hkey : key = c.key
      · have hfeeds : c.feeds key = true := by simp [Call.feeds, hkey, hignored, hheld]
        rw [if_pos hkey, if_pos hfeeds, hkey]
        exact take_mark _ c
      · have hfeeds : c.feeds key = false := by simp [Call.feeds, Ne.symm hkey]
        simp [hkey, hfeeds]

/-- Only what goes into the window of an oracle changes its mark. -/
theorem mark_run (calls : List Call) (key : Str) :
    (Breaker.run (calls.map .record)).mark key =
      (calls.filter (·.feeds key)).foldl Mark.step ⟨[], 0⟩ := by
  induction calls using List.reverseRecOn with
  | nil => rfl
  | append_singleton calls c ih =>
    rw [Breaker.run, List.map_append, List.foldl_append]
    change (Breaker.step (Breaker.run (calls.map .record)) (.record c)).mark key = _
    rw [mark_record, ih, List.filter_append, List.foldl_append]
    by_cases hfeeds : c.feeds key = true <;> simp [hfeeds]

/-! ### A row of errors -/

/-- All calls read the breaker as enabled, and the same window and threshold. -/
def Fixed (w : ℕ) (threshold : ℚ) (calls : List Call) : Prop :=
  ∀ c ∈ calls, c.cfg.enabled = true ∧ c.cfg.window = w ∧ c.cfg.threshold = threshold

/-- A window holds no more than its width, and one too narrow never trips the breaker. -/
structure Mark.Bounded (w : ℕ) (h : Mark) : Prop where
  length : h.outcomes.length ≤ w
  untripped : w < MIN_SAMPLES → h.openedAt = 0

theorem bounded_step {w : ℕ} {h : Mark} (hb : h.Bounded w) {c : Call} (hw : c.cfg.window = w) :
    (h.step c).Bounded w := by
  have hpos : 1 ≤ w := hw ▸ c.cfg.window_pos
  have hpush : (Window.push w h.outcomes c.isError).length ≤ w :=
    Window.length_push_le hpos hb.length _
  unfold Mark.step
  simp only [hw]
  split_ifs with herr hopen htrip
  · exact ⟨hpush, fun _ => rfl⟩
  · exact ⟨hpos, fun _ => rfl⟩
  · exact ⟨hpush, fun hnarrow => absurd htrip.2.1 (by omega)⟩
  · exact ⟨hpush, hb.untripped⟩

theorem bounded_foldl {w : ℕ} {h : Mark} (hb : h.Bounded w) {calls : List Call}
    (hw : ∀ c ∈ calls, c.cfg.window = w) : (calls.foldl Mark.step h).Bounded w := by
  induction calls generalizing h with
  | nil => exact hb
  | cons c calls ih =>
    exact ih (bounded_step hb (hw c List.mem_cons_self))
      fun d hd => hw d (List.mem_cons_of_mem _ hd)

/-- Errors slide through the window. -/
theorem outcomes_errors {w : ℕ} {errs : List Call}
    (herr : ∀ c ∈ errs, c.isError = true ∧ c.cfg.window = w) (h : Mark) :
    (errs.foldl Mark.step h).outcomes =
      (List.replicate errs.length true).foldl (Window.push w) h.outcomes := by
  induction errs generalizing h with
  | nil => rfl
  | cons c errs ih =>
    obtain ⟨hc, hw⟩ := herr c List.mem_cons_self
    have hstep : (h.step c).outcomes = Window.push w h.outcomes true := by
      unfold Mark.step
      simp only [hc, hw, Bool.true_eq_false, if_false]
      split_ifs <;> rfl
    rw [List.foldl_cons, ih (fun c hc => herr c (List.mem_cons_of_mem _ hc)), hstep]
    rfl

/-- The last of enough errors trips the breaker, unless the window is too narrow. -/
theorem tripped_iff {w : ℕ} {threshold : ℚ} {h : Mark} (hb : h.Bounded w) {errs : List Call}
    {last : Call} (hfixed : Fixed w threshold (errs ++ [last]))
    (herr : ∀ c ∈ errs ++ [last], c.isError = true) (hlen : w ≤ (errs ++ [last]).length) :
    ((errs ++ [last]).foldl Mark.step h).openedAt =
      if MIN_SAMPLES ≤ w then last.tick.second else 0 := by
  have hlast : last ∈ errs ++ [last] := by simp
  obtain ⟨henabled, hw, hthreshold⟩ := hfixed last hlast
  have hpos : 1 ≤ w := hw ▸ last.cfg.window_pos
  have hslide := outcomes_errors (h := h) fun c hc => ⟨herr c hc, (hfixed c hc).2.1⟩
  rw [Window.foldl_push_replicate hpos hlen hb.length, List.foldl_append, List.foldl_cons,
    List.foldl_nil] at hslide
  by_cases hwide : MIN_SAMPLES ≤ w
  · rw [if_pos hwide, List.foldl_append, List.foldl_cons, List.foldl_nil]
    generalize errs.foldl Mark.step h = h' at hslide ⊢
    have hpush : Window.push w h'.outcomes true = List.replicate w true := by
      rw [← hslide]
      unfold Mark.step
      simp only [herr last hlast, hw, Bool.true_eq_false, if_false]
      split_ifs <;> rfl
    have hrate : last.cfg.threshold ≤ Floats.quot w w := by
      rw [Floats.quot_self w hpos]
      exact last.cfg.threshold_le
    unfold Mark.step
    simp only [herr last hlast, hw, hpush, henabled, List.length_replicate, List.count_replicate_self,
      hwide, hrate, and_self, if_true, Bool.true_eq_false, if_false]
  · rw [if_neg hwide]
    have hrun : ((errs ++ [last]).foldl Mark.step h).Bounded w :=
      bounded_foldl hb fun c hc => (hfixed c hc).2.1
    exact hrun.untripped (Nat.lt_of_not_le hwide)

theorem state_eq_open (cfg : Settings) (b : Breaker) (key : Str) (now : ℚ) :
    b.state cfg key now = .open ↔ cfg.enabled = true ∧ (b.mark key).openedAt ≠ 0 ∧
      ((Floats.sub now (b.mark key).openedAt : ℚ) : Seconds) < cfg.cooldown := by
  unfold Breaker.state Breaker.mark
  cases cfg.enabled with
  | false => simp
  | true =>
    cases b key with
    | none => simp [OracleState.fresh, OracleState.mark]
    | some s =>
      simp only [Bool.true_eq_false, if_false, Option.getD_some, OracleState.mark, true_and,
        OracleState.cooled, decide_eq_true_eq]
      split_ifs with hzero hcooled
      · simp [hzero]
      · simp [hcooled]
      · simpa [hzero] using hcooled

/-- With the breaker enabled and a fixed window and threshold, after a run whose last outcomes of
an oracle, at least five and at least a window full, are health errors, the breaker is open for
it until the cooldown is over, exactly when the window can hold the minimum of samples; and the
clock did not read the very 0 that stands for a closed breaker. -/
theorem opens_iff {w : ℕ} {threshold : ℚ} {calls : List Call} (hfixed : Fixed w threshold calls)
    (key : Str) {earlier errs : List Call} {last : Call}
    (hfed : calls.filter (·.feeds key) = earlier ++ (errs ++ [last]))
    (hlen : (errs ++ [last]).length = max MIN_SAMPLES w)
    (herr : ∀ c ∈ errs ++ [last], c.isError = true) {cfg : Settings} (henabled : cfg.enabled = true)
    {now : ℚ} (hnow : ((Floats.sub now last.tick.second : ℚ) : Seconds) < cfg.cooldown) :
    (Breaker.run (calls.map .record)).state cfg key now = .open ↔
      MIN_SAMPLES ≤ w ∧ last.tick.second ≠ 0 := by
  have hsub : ∀ c ∈ earlier ++ (errs ++ [last]), c ∈ calls := fun c hc =>
    (List.mem_filter.mp (hfed ▸ hc)).1
  have hlast := hfixed last (hsub last (by simp))
  have hearlier : (earlier.foldl Mark.step ⟨[], 0⟩).Bounded w :=
    bounded_foldl ⟨Nat.zero_le _, fun _ => rfl⟩ fun c hc =>
      (hfixed c (hsub c (List.mem_append_left _ hc))).2.1
  have hrow : Fixed w threshold (errs ++ [last]) := fun c hc =>
    hfixed c (hsub c (List.mem_append_right _ hc))
  have htrip := tripped_iff hearlier hrow herr (by omega)
  have hmark : ((Breaker.run (calls.map .record)).mark key).openedAt =
      if MIN_SAMPLES ≤ w then last.tick.second else 0 := by
    rw [mark_run, hfed, List.foldl_append, htrip]
  rw [state_eq_open, hmark]
  split_ifs with hwide
  · simp [henabled, hwide, hnow]
  · simp [hwide]

/-! ### The report and the gate -/

/-- The report at an instant says what the gate does. -/
structure Agrees (b : Breaker) (cfg : Settings) (key : Str) (now : ℚ) : Prop where
  skip : (b.snapshot cfg key now).skipReason ≠ none ↔ b.shouldSkip cfg key now = true
  state : (b.snapshot cfg key now).state = b.state cfg key now
  resume : (b.snapshot cfg key now).resumeInS = none ↔ (b.snapshot cfg key now).skipReason = none

/-- A hold that is not over, while holds are switched off and the breaker is not open. -/
def OracleState.Stranded (s : OracleState) (cfg : Settings) (now : ℚ) : Prop :=
  cfg.quotaHold ≤ 0 ∧ now < s.heldUntil ∧
    ¬(cfg.enabled = true ∧ s.openedAt ≠ 0 ∧ s.cooled cfg now = false)

section
variable {b : Breaker} {cfg : Settings} {key : Str} {now : ℚ} {s : OracleState}

theorem snapshot_state (hkey : b key = some s) :
    (b.snapshot cfg key now).state = b.state cfg key now := by
  unfold Breaker.snapshot Breaker.state
  rw [hkey]
  by_cases henabled : cfg.enabled = false <;> simp [henabled]

theorem snapshot_skipReason (hkey : b key = some s) :
    (b.snapshot cfg key now).skipReason =
      if b.state cfg key now = .open then some .circuitOpen
      else if now < s.heldUntil then some .quotaHold else none := by
  rw [← snapshot_state hkey]
  unfold Breaker.snapshot
  simp only [hkey, decide_eq_true_eq]

theorem snapshot_resume (hkey : b key = some s) :
    (b.snapshot cfg key now).resumeInS = none ↔
      b.state cfg key now ≠ .open ∧ ¬now < s.heldUntil := by
  rw [← snapshot_state hkey]
  unfold Breaker.snapshot
  simp only [hkey, decide_eq_true_eq, Option.map_eq_none_iff]
  generalize (if cfg.enabled = false ∨ s.openedAt = 0 then GateState.closed
    else if s.cooled cfg now = true then .halfOpen else .open) = state
  by_cases hheld : now < s.heldUntil
  · simp [hheld]
  · by_cases hopen : state = .open <;> simp [hheld, hopen]

theorem shouldSkip_iff (hkey : b key = some s) :
    b.shouldSkip cfg key now = true ↔
      b.state cfg key now = .open ∨ (¬cfg.quotaHold ≤ 0 ∧ now < s.heldUntil) := by
  unfold Breaker.shouldSkip
  by_cases hopen : b.state cfg key now = .open
  · simp [hopen]
  · by_cases hoff : cfg.quotaHold ≤ 0 <;> simp [hopen, hoff, hkey]

theorem open_iff (hkey : b key = some s) : b.state cfg key now = .open ↔
    cfg.enabled = true ∧ s.openedAt ≠ 0 ∧ s.cooled cfg now = false := by
  unfold Breaker.state
  cases cfg.enabled <;> by_cases hzero : s.openedAt = 0 <;>
    cases hcooled : s.cooled cfg now <;> simp [hkey, hzero, hcooled]

end

theorem agrees_iff (b : Breaker) (cfg : Settings) (key : Str) (now : ℚ) :
    Agrees b cfg key now ↔ ∀ s, b key = some s → ¬s.Stranded cfg now := by
  cases hkey : b key with
  | none =>
    refine iff_of_true ⟨?_, ?_, ?_⟩ (by simp)
    · simp [Breaker.snapshot, Breaker.shouldSkip, Breaker.state, hkey]
    · simp [Breaker.snapshot, Breaker.state, hkey]
    · simp [Breaker.snapshot, hkey]
  | some s =>
    simp only [Option.some.injEq, forall_eq', OracleState.Stranded, ← open_iff hkey]
    have hskip : (b.snapshot cfg key now).skipReason =
        if b.state cfg key now = .open then some .circuitOpen
        else if now < s.heldUntil then some .quotaHold else none := snapshot_skipReason hkey
    constructor
    · rintro ⟨hagree, -, -⟩ ⟨hoff, hheld, hopen⟩
      rw [hskip, if_neg hopen, if_pos hheld, shouldSkip_iff hkey] at hagree
      simp [hopen, hoff] at hagree
    · intro hnot
      refine ⟨?_, snapshot_state hkey, ?_⟩
      · rw [hskip, shouldSkip_iff hkey]
        by_cases hopen : b.state cfg key now = .open
        · simp [hopen]
        · by_cases hheld : now < s.heldUntil
          · have hon : ¬cfg.quotaHold ≤ 0 := fun hoff => hnot ⟨hoff, hheld, hopen⟩
            simp [hheld, hopen, hon]
          · simp [hheld, hopen]
      · rw [snapshot_resume hkey, hskip]
        by_cases hopen : b.state cfg key now = .open
        · simp [hopen]
        · by_cases hheld : now < s.heldUntil <;> simp [hopen, hheld]

/-- In every state reached by records and resets, report and gate agree on an oracle exactly when
it has no hold left over from before the holds were switched off. -/
theorem run_agrees_iff (ops : List Op) (cfg : Settings) (key : Str) (now : ℚ) :
    Agrees (Breaker.run ops) cfg key now ↔
      ∀ s, Breaker.run ops key = some s → ¬s.Stranded cfg now :=
  agrees_iff _ cfg key now

end

/-! ### Settings that matter -/

/-- The defaults with another window and another hold. -/
def withWindow (window : ℕ) (hold : ℚ) (hwindow : 1 ≤ window) (hhold : 0 ≤ (hold : Seconds)) :
    Settings where
  enabled := true
  window := window
  threshold := 1 / 2
  cooldown := 300
  quotaHold := hold
  window_pos := hwindow
  threshold_le := by decide +kernel
  cooldown_ge := by decide +kernel
  quotaHold_ge := hhold

def narrow : Settings := withWindow 3 0 (by decide) (by decide +kernel)

def holding : Settings := withWindow 20 60 (by decide) (by decide +kernel)

def holdless : Settings := withWindow 20 0 (by decide) (by decide +kernel)

def failure (cfg : Settings) (kind : String) (now : ℚ) : Call :=
  ⟨cfg, txt "m3", txt "error", txt kind, ⟨now, now, 0⟩⟩

/-- Five timeouts in five seconds. -/
def outage (cfg : Settings) : List Call := [1, 2, 3, 4, 5].map (failure cfg "timeout")

/-- A window of three never holds five samples. -/
theorem narrow_never_opens :
    let : Floats := Floats.exact
    Fixed 3 (1 / 2) (outage narrow) ∧ (outage narrow).length = max MIN_SAMPLES 3 ∧
      (∀ c ∈ outage narrow, c.feeds (txt "m3") = true ∧ c.isError = true) ∧
      (Breaker.run ((outage narrow).map .record)).state narrow (txt "m3") 5 ≠ .open := by
  intro floats
  refine ⟨?_, by decide, by decide +kernel, by decide +kernel⟩
  intro c hc
  obtain ⟨now, -, rfl⟩ := List.mem_map.mp hc
  exact ⟨rfl, rfl, rfl⟩

theorem opens_iff_twenty :
    let : Floats := Floats.exact
    (Breaker.run ((List.replicate 20 (failure holdless "timeout" 7)).map .record)).state holdless
      (txt "m3") 8 = .open ↔ MIN_SAMPLES ≤ 20 ∧ (7 : ℚ) ≠ 0 := by
  intro floats
  have hfixed : Fixed 20 (1 / 2) (List.replicate 20 (failure holdless "timeout" 7)) := by
    intro c hc
    rw [List.eq_of_mem_replicate hc]
    exact ⟨rfl, rfl, rfl⟩
  have herr : ∀ c ∈ List.replicate 19 (failure holdless "timeout" 7) ++
      [failure holdless "timeout" 7], c.isError = true := by decide +kernel
  have hfed : (List.replicate 20 (failure holdless "timeout" 7)).filter (·.feeds (txt "m3")) =
      [] ++ (List.replicate 19 (failure holdless "timeout" 7) ++
        [failure holdless "timeout" 7]) := by
    refine (List.filter_eq_self.mpr fun c hc => ?_).trans rfl
    rw [List.eq_of_mem_replicate hc]
    decide +kernel
  exact opens_iff hfixed (txt "m3") hfed (by decide) herr rfl (by decide +kernel)

/-- A hold of a minute, and ten seconds later the holds are switched off: the report still names
it, and the gate lets the oracle through. -/
theorem stranded_hold_reported :
    let : Floats := Floats.exact
    let b := Breaker.run [.record (failure holding "rate_limit" 100)]
    (b.snapshot holdless (txt "m3") 110).skipReason = some .quotaHold ∧
      b.shouldSkip holdless (txt "m3") 110 = false := by
  decide +kernel

end AskFable.Health
