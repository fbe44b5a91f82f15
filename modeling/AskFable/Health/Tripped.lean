import AskFable.Health.Arithmetic
import AskFable.Health.Runs

/-!
# The breaker's invariant

While the trip mark is set, the window shows why: it holds the minimum of samples and enough
errors. An error can only raise their share, so a failed probe trips the breaker again.
-/
namespace AskFable.Health
open AskFable.Text

section
variable [Floats] {rnd : ℚ → ℚ}

/-- The window is not too long, and when the breaker has tripped it is over the threshold. -/
structure Mark.Sound (cfg : Settings) (m : Mark) : Prop where
  width : m.outcomes.length ≤ cfg.window
  tripped : m.openedAt ≠ 0 → MIN_SAMPLES ≤ m.outcomes.length ∧
    cfg.threshold ≤ Floats.quot (m.outcomes.count true) m.outcomes.length

/-- One more error keeps a window over the threshold. -/
theorem Mark.Sound.push_error (hfl : Floats.Correct rnd) {cfg : Settings} {m : Mark}
    (h : m.Sound cfg) (hopen : m.openedAt ≠ 0) :
    MIN_SAMPLES ≤ (Window.push cfg.window m.outcomes true).length ∧
      cfg.threshold ≤ Floats.quot ((Window.push cfg.window m.outcomes true).count true)
        (Window.push cfg.window m.outcomes true).length := by
  obtain ⟨hmin, hrate⟩ := h.tripped hopen
  have hpos : 0 < m.outcomes.length := lt_of_lt_of_le (by decide) hmin
  have hgrow : m.outcomes.length ≤ (Window.push cfg.window m.outcomes true).length := by
    rw [Window.push, Window.evict_eq, List.length_append, List.length_drop, List.length_singleton]
    have hwidth := h.width
    omega
  refine ⟨hmin.trans hgrow, hrate.trans ?_⟩
  exact hfl.quot_le hpos (hpos.trans_le hgrow) (Window.share_le_push h.width true)

/-- An error while the breaker is open or half open sets the mark anew. -/
theorem Mark.Sound.step_error (hfl : Floats.Correct rnd) {c : Call} {m : Mark}
    (h : m.Sound c.cfg) (hon : c.cfg.enabled = true) (hopen : m.openedAt ≠ 0)
    (herr : c.isError = true) :
    m.step c = ⟨Window.push c.cfg.window m.outcomes true, c.tick.second⟩ := by
  unfold Mark.step
  simp only [herr, Bool.true_eq_false, if_false]
  rw [if_pos ⟨hon, h.push_error hfl hopen⟩]

theorem Mark.step_success {c : Call} {m : Mark} (hopen : m.openedAt ≠ 0)
    (hok : c.isError = false) : m.step c = ⟨[false], 0⟩ := by
  unfold Mark.step
  rw [if_pos hok, if_neg hopen]

theorem Mark.Sound.step (hfl : Floats.Correct rnd) {c : Call} {m : Mark} (h : m.Sound c.cfg)
    (hon : c.cfg.enabled = true) : (m.step c).Sound c.cfg := by
  have hpush (isError : Bool) :
      (Window.push c.cfg.window m.outcomes isError).length ≤ c.cfg.window :=
    Window.length_push_le c.cfg.window_pos h.width isError
  by_cases herr : c.isError = true
  · by_cases hopen : m.openedAt = 0
    · unfold Mark.step
      simp only [herr, Bool.true_eq_false, if_false]
      split_ifs with htrip
      · exact ⟨hpush true, fun _ => htrip.2⟩
      · exact ⟨hpush true, fun hset => absurd hopen hset⟩
    · rw [h.step_error hfl hon hopen herr]
      exact ⟨hpush true, fun _ => h.push_error hfl hopen⟩
  · rw [Bool.not_eq_true] at herr
    by_cases hopen : m.openedAt = 0
    · unfold Mark.step
      rw [if_pos herr, if_pos hopen]
      exact ⟨hpush _, fun hset => absurd rfl hset⟩
    · rw [Mark.step_success hopen herr]
      exact ⟨c.cfg.window_pos, fun hset => absurd rfl hset⟩

theorem sound_run (hfl : Floats.Correct rnd) {cfg : Settings} (hon : cfg.enabled = true)
    {calls : List Call} (hcfg : ∀ c ∈ calls, c.cfg = cfg) (key : Str) :
    ((Breaker.run (calls.map .record)).mark key).Sound cfg := by
  rw [mark_run]
  have hfed : ∀ c ∈ calls.filter (·.feeds key), c.cfg = cfg := fun c hc =>
    hcfg c (List.mem_of_mem_filter hc)
  generalize calls.filter (·.feeds key) = fed at hfed
  have hstart : Mark.Sound cfg ⟨[], 0⟩ := ⟨Nat.zero_le _, fun hset => absurd rfl hset⟩
  generalize (⟨[], 0⟩ : Mark) = m at hstart
  induction fed generalizing m with
  | nil => exact hstart
  | cons c fed ih =>
    have hc := hfed c List.mem_cons_self
    refine ih (fun d hd => hfed d (List.mem_cons_of_mem _ hd)) _ ?_
    rw [← hc] at hstart hon ⊢
    exact hstart.step hfl hon

/-- The state of an enabled breaker is read off the mark. -/
theorem state_eq {cfg : Settings} (hon : cfg.enabled = true) (b : Breaker) (key : Str) (now : ℚ) :
    b.state cfg key now =
      if (b.mark key).openedAt = 0 then .closed
      else if cfg.cooldown ≤ (Floats.sub now (b.mark key).openedAt : ℚ) then .halfOpen
      else .open := by
  unfold Breaker.state Breaker.mark
  cases b key with
  | none => simp [OracleState.fresh, OracleState.mark]
  | some s =>
    by_cases hcooled : cfg.cooldown ≤ (Floats.sub now s.openedAt : ℚ) <;>
      simp [hon, OracleState.mark, OracleState.cooled, hcooled]

/-- What an outcome does to a breaker that is open or half open: an error restarts the cooldown
at the clock's reading, and a success closes the breaker with a window of its own. -/
structure Probed (cfg : Settings) (b : Breaker) (key : Str) (c : Call) : Prop where
  error : c.isError = true →
    ((b.step (.record c)).mark key).openedAt = c.tick.second ∧
      ∀ now, ((Floats.sub now c.tick.second : ℚ) : Seconds) < cfg.cooldown →
        (b.step (.record c)).state cfg key now = if c.tick.second = 0 then .closed else .open
  success : c.isError = false →
    (b.step (.record c)).mark key = ⟨[false], 0⟩ ∧
      ∀ now, (b.step (.record c)).state cfg key now = .closed

/-- With fixed settings and the breaker enabled, after any run of records: the trip mark is set
only if the window holds the minimum of samples with an error rate of at least the threshold, the
window is never longer than configured, and while the breaker is not closed an error restarts the
cooldown and a success closes it. The clock's reading 0 is the mark of a closed breaker. -/
theorem breaker_invariant (hfl : Floats.Correct rnd) {cfg : Settings} (hon : cfg.enabled = true)
    {calls : List Call} (hcfg : ∀ c ∈ calls, c.cfg = cfg) (key : Str) :
    ((Breaker.run (calls.map .record)).mark key).Sound cfg ∧
      ∀ c, c.cfg = cfg → c.feeds key = true →
        ∀ t, (Breaker.run (calls.map .record)).state cfg key t ≠ .closed →
          Probed cfg (Breaker.run (calls.map .record)) key c := by
  have hsound := sound_run hfl hon hcfg key
  refine ⟨hsound, ?_⟩
  generalize Breaker.run (calls.map .record) = b at hsound ⊢
  rintro c rfl hfeeds t hstate
  have hopen : (b.mark key).openedAt ≠ 0 := by
    intro hzero
    rw [state_eq hon, if_pos hzero] at hstate
    exact hstate rfl
  have hmark := mark_record b c key
  rw [if_pos hfeeds] at hmark
  refine ⟨fun herr => ?_, fun hok => ?_⟩
  · rw [hsound.step_error hfl hon hopen herr] at hmark
    refine ⟨congrArg Mark.openedAt hmark, fun now hnow => ?_⟩
    rw [state_eq hon, hmark, if_neg hnow.not_ge]
  · rw [Mark.step_success hopen hok] at hmark
    refine ⟨hmark, fun now => ?_⟩
    rw [state_eq hon, hmark, if_pos rfl]

end

/-- Five timeouts, and a sixth when the cooldown is over. -/
theorem breaker_invariant_outage :
    let : Floats := Floats.double
    let b := Breaker.run ((outage holdless).map .record)
    (b.mark (txt "m3")).Sound holdless ∧
      Probed holdless b (txt "m3") (failure holdless "timeout" 306) := by
  intro floats b
  have hcfg : ∀ c ∈ outage holdless, c.cfg = holdless := by
    intro c hc
    obtain ⟨now, -, rfl⟩ := List.mem_map.mp hc
    rfl
  obtain ⟨hsound, hprobed⟩ := breaker_invariant double_correct rfl hcfg (txt "m3")
  exact ⟨hsound, hprobed _ rfl (by decide +kernel) 306 (by decide +kernel)⟩

end AskFable.Health
