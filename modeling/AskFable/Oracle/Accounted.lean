import AskFable.General.Accounts
import AskFable.General.Machine
import AskFable.Oracle.Calls

/-!
# What every call leaves behind

A move takes one call from where it waits to where it ends, or to its backend. What it adds to the
log, to a breaker and to the cache depends on that alone; so each of the three can be read off the
calls, in every order of moves.
-/
namespace AskFable.Oracle
open AskFable.Text AskFable.Python AskFable.Debate AskFable.Trace AskFable.Health AskFable.Caching
open AskFable.Accounts

/-! ### What an outcome says -/

/-- What of a report says how the call went. -/
structure Gist where
  transport : Option Str
  status : Status
  kind : Str
  answer : Option Str
  deriving DecidableEq

def Report.gist (r : Report) : Gist := ⟨r.telemetry.transport, r.status, r.kind, r.answer⟩

/-- A result with its own telemetry; one from the cache is nobody's attempt. -/
def OracleResult.gist (r : OracleResult) : Option Gist :=
  r.telemetry.bind fun t =>
    if t.transport = some (txt "cache") then none
    else some ⟨t.transport, r.status, r.kind, if r.status = .ok then some r.text else none⟩

/-- How the oracle of a key is reached. -/
def reach (key : Str) : Str := if key ∈ ANTHROPIC then txt "sdk" else txt "bridge"

/-- A call that ends without a result. -/
def unfinished (key kind : Str) : Option Gist :=
  if key = txt "websearch" then none else some ⟨some (reach key), .error, kind, none⟩

def Outcome.gist (key : Str) : Outcome → Option Gist
  | .disabled _ => none
  | .hit .. => none
  | .shed _ => some ⟨some (txt "skipped"), .error, txt "circuit_open", none⟩
  | .answered _ _ r => r.gist
  | .failed => unfinished key (txt "sdk_error")
  | .cancelled => unfinished key (txt "cancelled")
  | .dropped => some ⟨some (txt "skipped"), .error, txt "cancelled", none⟩

/-- What a call has to report. -/
def Call.gist (c : Call) : Option Gist :=
  if c.ask.traced then
    match c.stage with
    | .ended o => o.gist c.ask.key
    | .queued | .flying .. => none
  else none

/-- What is told to a breaker. -/
abbrev Verdict := Str × Str × Str

def verdict (c : Health.Call) : Verdict := (c.key, c.status, c.kind)

/-- What a call has its breaker told: what its backend answered. -/
def Stage.verdict (a : Ask) : Stage → Option Verdict
  | .ended (.answered _ (some _) r) => some (a.key, statusText r.status, r.kind)
  | .ended (.answered _ none _) | .ended (.disabled _) | .ended (.hit ..) | .ended (.shed _)
  | .ended .failed | .ended .cancelled | .ended .dropped | .queued | .flying .. => none

/-- The call is under way. -/
def Stage.waits : Stage → Bool
  | .queued | .flying .. => true
  | .ended _ => false

/-- The lookup is that of the call; an effort that was named stands in it as it is. -/
structure Ask.Looked (a : Ask) (requested : Str) (l : Lookup) : Prop where
  tool : l.tool = txt "oracle:" ++ a.key
  models : l.models = [requested]
  question : l.question = a.question
  context : l.context = a.context
  effort : a.effort.getD [] ≠ [] → l.effort = a.effort

/-- Only a call of the search router looks nothing up. -/
def Ask.Routed (a : Ask) (requested : Str) (lookup : Option Lookup) : Prop :=
  (lookup = none ↔ a.key = txt "websearch") ∧ ∀ l ∈ lookup, a.Looked requested l

def Stage.Routed (a : Ask) : Stage → Prop
  | .flying requested lookup => a.Routed requested lookup
  | .ended (.answered requested lookup _) => a.Routed requested lookup
  | .ended (.hit requested l p _ r) =>
    a.Looked requested l ∧ p.status = .ok ∧
      (r.status, r.text, r.kind, r.model, r.thinking) =
        (p.status, p.text, p.kind, p.model, p.thinking)
  | .ended (.disabled _) | .ended (.shed _) | .ended .failed | .ended .cancelled | .ended .dropped
  | .queued => True

/-- The row is what the call's answer put into the cache. -/
def Stage.Wrote [Floats] (u : Caching.Unicode) (h : Hash) (a : Ask) (row : Row Stored) :
    Stage → Prop
  | .ended (.answered requested (some l) r) =>
    cacheable a.key requested r ∧ row.key = l.key u h ∧ row.payload = .of a.traceId r
  | .ended (.answered _ none _) | .ended (.disabled _) | .ended (.hit ..) | .ended (.shed _)
  | .ended .failed | .ended .cancelled | .ended .dropped | .queued | .flying .. => False

/-! ### What one move does -/

/-- What the call has reported so far. -/
def World.reports (w : World) (i : ℕ) : List Gist :=
  (w.log.filter (·.1 = i)).map (·.2.gist)

def World.opened (w : World) (a : Ask) : World := { w with calls := w.calls ++ [⟨a, .queued⟩] }

section
variable [Floats] (u : Caching.Unicode) (h : Hash) (ttl cap : ℤ)

/-- One call goes on: all that a move does. -/
structure Moved (w w' : World) (i : ℕ) (a : Ask) (s s' : Stage) : Prop where
  was : w.calls[i]? = some ⟨a, s⟩
  waits : s.waits = true
  calls : w'.calls = w.calls.set i ⟨a, s'⟩
  routed : s.Routed a → s'.Routed a
  reports : s.Routed a → ∀ j, w'.reports j =
    w.reports j ++ if j = i then (Call.gist ⟨a, s'⟩).toList else []
  told : ∃ cs : List Health.Call, cs.map verdict = (s'.verdict a).toList ∧
    w'.told = Function.update w.told a.process (w.told a.process ++ cs) ∧
    w'.breakers = Function.update w.breakers a.process
      ((cs.map .record).foldl Breaker.step (w.breakers a.process))
  uses : ∃ us, w'.uses = w.uses ++ us ∧
    (∀ row swept, Use.put row swept ∈ us → s'.Wrote u h a row) ∧
    ∀ requested l p age r, s' = .ended (.hit requested l p age r) →
      ∃ now, us = [.get (l.key u h) now] ∧
        (get ttl now (l.key u h) (Caching.uses ttl cap w.uses)).2 = some (p, age)

variable {u h ttl cap} {w : World} {i : ℕ} {a : Ask} {site : Site} {requested : Str}

omit [Floats] in
theorem reports_report (w : World) (i : ℕ) (c : Call) (r : Option Report) (j : ℕ) :
    (w.report i c r).reports j =
      w.reports j ++
        if j = i then (if c.ask.traced then r.map Report.gist else none).toList else [] := by
  unfold World.reports World.report
  rw [List.filter_append, List.map_append]
  congr 1
  by_cases htraced : c.ask.traced = true
  · rw [if_pos htraced, if_pos htraced]
    cases r with
    | none => simp
    | some r => by_cases hj : j = i <;> simp [hj, Ne.symm, eq_comm]
  · rw [if_neg htraced, if_neg htraced]
    simp

omit [Floats] in
theorem gist_recordProvider (t : ProviderTelemetry) (status : Status) (thinking kind : Str)
    (answer : Option Str) :
    (recordProvider t status thinking kind answer).map Report.gist =
      if t.transport = some (txt "cache") then none
      else some ⟨t.transport, status, kind, answer⟩ := by
  unfold recordProvider
  split_ifs <;> rfl

omit [Floats] in
theorem gist_recordUnfinished (key requested kind transport : Str) (wall : Millis)
    (htransport : transport ≠ txt "cache") :
    (recordUnfinished key requested wall kind transport).map Report.gist =
      some ⟨some (orText transport (reach key)), .error, kind, none⟩ := by
  have hcache : orText transport (reach key) ≠ txt "cache" := by
    unfold orText reach
    split_ifs
    · decide
    · decide
    · exact htransport
  rw [recordUnfinished, gist_recordProvider, if_neg]
  · rfl
  · exact fun h => hcache (Option.some.inj h)

omit [Floats] in
/-- What the end of `run` does; a result that has its own telemetry keeps it. -/
theorem finish_spec (w : World) (i : ℕ) (c : Call) (site : Site) (requested : Str)
    (r : OracleResult) (o : OracleResult → Outcome) :
    ∃ t, (r.placeholder = false → r.telemetry = some t) ∧
      (w.finish i c site requested r o).calls =
        w.calls.set i { c with stage := .ended (o { r with telemetry := some t }) } ∧
      ∀ j, (w.finish i c site requested r o).reports j = w.reports j ++ if j = i then
        (if c.ask.traced then OracleResult.gist { r with telemetry := some t } else none).toList
        else [] := by
  refine ⟨_, fun hr => ?_, rfl, fun j => ?_⟩
  · rw [OracleResult.filled, if_neg (by simp [hr])]
    cases htelemetry : r.telemetry with
    | none => simp [OracleResult.placeholder, htelemetry] at hr
    | some t => rfl
  · refine (reports_report w i c _ j).trans ?_
    rw [gist_recordProvider]
    rfl

/-- A move that tells the breakers nothing and puts nothing into the cache. -/
theorem Moved.quiet {w' : World} {s s' : Stage} (hwas : w.calls[i]? = some ⟨a, s⟩)
    (hwaits : s.waits = true) (hcalls : w'.calls = w.calls.set i ⟨a, s'⟩)
    (hrouted : s.Routed a → s'.Routed a)
    (hreports : s.Routed a → ∀ j, w'.reports j =
      w.reports j ++ if j = i then (Call.gist ⟨a, s'⟩).toList else [])
    (htold : w'.told = w.told) (hbreakers : w'.breakers = w.breakers)
    (hquiet : s'.verdict a = none) {us : List (Use Stored)} (huses : w'.uses = w.uses ++ us)
    (hputs : ∀ row swept, Use.put row swept ∉ us)
    (hhit : ∀ requested l p age r, s' = .ended (.hit requested l p age r) →
      ∃ now, us = [.get (l.key u h) now] ∧
        (get ttl now (l.key u h) (Caching.uses ttl cap w.uses)).2 = some (p, age)) :
    Moved u h ttl cap w w' i a s s' where
  was := hwas
  waits := hwaits
  calls := hcalls
  routed := hrouted
  reports := hreports
  told := ⟨[], by rw [hquiet]; rfl, by simp [htold], by simp [hbreakers]⟩
  uses := ⟨us, huses, fun row swept hput => absurd hput (hputs row swept), hhit⟩

/-- A miss; what was looked up before it may be nothing. -/
theorem moved_dispatch (hwas : w.calls[i]? = some ⟨a, .queued⟩) (hkey : a.key ≠ txt "websearch")
    {us : List (Use Stored)} (hputs : ∀ row swept, Use.put row swept ∉ us) {looked : World}
    (hlooked : looked = { w with uses := w.uses ++ us }) {l : Lookup} (hl : a.Looked requested l) :
    ∃ s', Moved u h ttl cap w (looked.dispatch i ⟨a, .queued⟩ site requested l) i a .queued s' := by
  subst hlooked
  unfold World.dispatch
  dsimp only
  split_ifs with hskip
  · obtain ⟨t, ht, hcalls, hreports⟩ := finish_spec { w with uses := w.uses ++ us } i ⟨a, .queued⟩
      site requested (shedResult site (w.breakers a.process) a.key requested) .shed
    refine ⟨_, .quiet hwas rfl hcalls (fun _ => trivial) (fun _ j => ?_) rfl rfl rfl rfl hputs
      fun _ _ _ _ _ hhit => nomatch hhit⟩
    rw [hreports j]
    obtain rfl := Option.some.inj (ht rfl)
    rfl
  · refine ⟨_, .quiet hwas rfl rfl (fun _ => ⟨?_, ?_⟩) (fun _ j => ?_) rfl rfl rfl rfl hputs
      fun _ _ _ _ _ hhit => nomatch hhit⟩
    · simp [hkey]
    · intro l' hl'
      rw [← Option.some.inj hl']
      exact hl
    · simp [Call.gist]
      rfl

omit [Floats] in
theorem looked_lookup (site : Site) (a : Ask) (requested : Str) :
    a.Looked requested (a.lookup site requested) where
  tool := rfl
  models := rfl
  question := rfl
  context := rfl
  effort heffort := if_pos (.inl heffort)

theorem moved_begin (site : Site) (hwas : w.calls[i]? = some ⟨a, .queued⟩) :
    ∃ s', Moved u h ttl cap w (w.begin u h ttl cap i ⟨a, .queued⟩ site) i a .queued s' := by
  unfold World.begin
  dsimp only
  have hquiet (k : Str) (now : ℚ) (row : Row Stored) (swept : Option ℚ) :
      Use.put row swept ∉ [Use.get k now] := by simp
  split_ifs with hdisabled hkey hreachable
  · refine ⟨_, .quiet hwas rfl rfl (fun _ => trivial) (fun _ j => ?_)
      rfl rfl rfl (List.append_nil _).symm (by simp) fun _ _ _ _ _ hhit => nomatch hhit⟩
    simp [Call.gist, Outcome.gist]
    rfl
  · refine ⟨_, .quiet hwas rfl rfl (fun _ => ⟨by simp [hkey], by simp⟩) (fun _ j => ?_)
      rfl rfl rfl (List.append_nil _).symm (by simp) fun _ _ _ _ _ hhit => nomatch hhit⟩
    simp [Call.gist]
    rfl
  · split
    · rename_i payload age hserved
      split_ifs with hok
      · obtain ⟨t, ht, hcalls, hreports⟩ := finish_spec
          { w with uses := w.uses ++ [.get ((a.lookup site _).key u h) site.now] } i ⟨a, .queued⟩
          site (orText (a.model.getD []) (site.label a.key))
          (hitResult a.key (orText (a.model.getD []) (site.label a.key)) payload)
          (.hit _ (a.lookup site _) payload age)
        refine ⟨_, .quiet hwas rfl hcalls (fun _ => ⟨looked_lookup site a _, hok, rfl⟩)
          (fun _ j => ?_) rfl rfl rfl rfl (hquiet _ _) fun _ _ _ _ _ hhit => ?_⟩
        · rw [hreports j]
          obtain rfl := Option.some.inj (ht rfl)
          rfl
        · cases hhit
          exact ⟨site.now, rfl, hserved⟩
      · exact moved_dispatch hwas hkey (hquiet _ _) rfl (looked_lookup site a _)
    · exact moved_dispatch hwas hkey (hquiet _ _) rfl (looked_lookup site a _)
  · have hnone (row : Row Stored) (swept : Option ℚ) : Use.put row swept ∉ [] := List.not_mem_nil
    exact moved_dispatch hwas hkey hnone (by simp) (looked_lookup site a _)

theorem moved_stop {lookup : Option Lookup} {kind : Str} {o : Outcome}
    (hwas : w.calls[i]? = some ⟨a, .flying requested lookup⟩)
    (ho : o.gist a.key = unfinished a.key kind) (hquiet : Stage.verdict a (.ended o) = none)
    (hrouted : Stage.Routed a (.ended o))
    (hhit : ∀ requested l p age r, o ≠ .hit requested l p age r) :
    Moved u h ttl cap w (w.stop i ⟨a, .flying requested lookup⟩ site requested lookup kind o) i a
      (.flying requested lookup) (.ended o) := by
  refine .quiet hwas rfl rfl (fun _ => hrouted) (fun hr j => ?_) rfl rfl hquiet
    (List.append_nil _).symm (by simp) fun _ _ _ _ _ heq =>
      absurd (Stage.ended.inj heq) (hhit _ _ _ _ _)
  refine (reports_report w i _ _ j).trans ?_
  rw [Call.gist]
  dsimp only
  rw [ho, unfinished]
  cases lookup with
  | none => rw [if_pos (hr.1.mp rfl)]; rfl
  | some l =>
    have hkey : a.key ≠ txt "websearch" := fun hkey => nomatch hr.1.mpr hkey
    rw [if_neg hkey, Option.bind_some, gist_recordUnfinished _ _ _ _ _ (by decide)]
    rfl

/-- An answer, with what it puts into the cache. -/
theorem moved_told {l : Lookup} {r : OracleResult} {us : List (Use Stored)}
    (hwas : w.calls[i]? = some ⟨a, .flying requested (some l)⟩)
    (hputs : ∀ row swept, Use.put row swept ∈ us →
      cacheable a.key requested r ∧ row.key = l.key u h ∧ row.payload = .of a.traceId r)
    {told : World} (htold : told = { w.tell a.process
      ⟨site.settings, a.key, statusText r.status, r.kind, site.tick⟩ with uses := w.uses ++ us }) :
    ∃ s', Moved u h ttl cap w (told.finish i ⟨a, .flying requested (some l)⟩ site requested r
      (.answered requested (some l))) i a (.flying requested (some l)) s' := by
  subst htold
  obtain ⟨t, -, hcalls, hreports⟩ := finish_spec { w.tell a.process
    ⟨site.settings, a.key, statusText r.status, r.kind, site.tick⟩ with uses := w.uses ++ us }
    i ⟨a, .flying requested (some l)⟩ site requested r (.answered requested (some l))
  exact ⟨_, {
    was := hwas
    waits := rfl
    calls := hcalls
    routed := id
    reports := fun _ j => hreports j
    told := ⟨[⟨site.settings, a.key, statusText r.status, r.kind, site.tick⟩], rfl, rfl, rfl⟩
    uses := ⟨us, rfl, hputs, fun _ _ _ _ _ hhit => nomatch hhit⟩ }⟩

theorem moved_answer (site : Site) (r : OracleResult) {lookup : Option Lookup}
    (hwas : w.calls[i]? = some ⟨a, .flying requested lookup⟩) :
    ∃ s', Moved u h ttl cap w
      (w.answer u h i ⟨a, .flying requested lookup⟩ site requested lookup r) i a
      (.flying requested lookup) s' := by
  unfold World.answer
  cases lookup with
  | none =>
    obtain ⟨t, -, hcalls, hreports⟩ := finish_spec w i ⟨a, .flying requested none⟩ site requested r
      (.answered requested none)
    exact ⟨_, .quiet hwas rfl hcalls (fun hr => hr) (fun _ j => hreports j) rfl rfl rfl
      (List.append_nil _).symm (by simp) fun _ _ _ _ _ hhit => nomatch hhit⟩
  | some l =>
    dsimp only
    split_ifs with hput
    · refine moved_told hwas (fun row swept hmem => ?_) rfl
      cases List.mem_singleton.mp hmem
      exact ⟨hput.1, rfl, rfl⟩
    · have hnone (row : Row Stored) (swept : Option ℚ) (hmem : Use.put row swept ∈ []) :
          cacheable a.key requested r ∧ row.key = l.key u h ∧ row.payload = .of a.traceId r :=
        absurd hmem List.not_mem_nil
      exact moved_told hwas hnone (by simp [World.tell])

/-- A move does nothing, or begins a call, or takes one on; a call that waits for nobody is begun
and taken on at once. -/
theorem step_cases (w : World) (m : Move) :
    w.step u h ttl cap m = w ∨ (∃ a, w.step u h ttl cap m = w.opened a) ∨
      ∃ w₁ i a s s', (w₁ = w ∨ ∃ b, w₁ = w.opened b) ∧
        Moved u h ttl cap w₁ (w.step u h ttl cap m) i a s s' := by
  cases m with
  | ask a bounded site =>
    rw [World.step]
    split_ifs with hbounded
    · exact .inr (.inl ⟨a, rfl⟩)
    · obtain ⟨s', hmoved⟩ := moved_begin (w := w.opened a) site
        (List.getElem?_concat_length : (w.calls ++ [⟨a, .queued⟩])[w.calls.length]? = _)
      exact .inr (.inr ⟨_, _, _, _, s', .inr ⟨a, rfl⟩, hmoved⟩)
  | enter i site =>
    rw [World.step]
    split
    · rename_i a hwas
      obtain ⟨s', hmoved⟩ := moved_begin site hwas
      exact .inr (.inr ⟨w, i, a, _, s', .inl rfl, hmoved⟩)
    · exact .inl rfl
  | answer i r site =>
    rw [World.step]
    split
    · rename_i a requested lookup hwas
      obtain ⟨s', hmoved⟩ := moved_answer site r hwas
      exact .inr (.inr ⟨w, i, a, _, s', .inl rfl, hmoved⟩)
    · exact .inl rfl
  | fail i site =>
    rw [World.step]
    split
    · rename_i a requested lookup hwas
      exact .inr (.inr ⟨w, i, a, _, _, .inl rfl,
        moved_stop hwas rfl rfl trivial fun _ _ _ _ _ hhit => nomatch hhit⟩)
    · exact .inl rfl
  | cancel i site =>
    rw [World.step]
    split
    · rename_i a requested lookup hwas
      exact .inr (.inr ⟨w, i, a, _, _, .inl rfl,
        moved_stop hwas rfl rfl trivial fun _ _ _ _ _ hhit => nomatch hhit⟩)
    · rename_i a hwas
      refine .inr (.inr ⟨w, i, a, _, _, .inl rfl, .quiet hwas rfl rfl (fun _ => trivial)
        (fun _ j => ?_) rfl rfl rfl (List.append_nil _).symm (by simp)
        fun _ _ _ _ _ hhit => nomatch hhit⟩)
      refine (reports_report w i _ _ j).trans ?_
      rw [gist_recordUnfinished _ _ _ _ _ (by decide)]
      rfl
    · exact .inl rfl

variable (u h ttl cap) in
/-- What holds at the start, and is kept by a call that begins and by one that goes on, holds after
every run. -/
theorem run_invariant {I : World → Prop} (hstart : I .start)
    (hopened : ∀ w a, I w → I (w.opened a))
    (hmoved : ∀ w w' i a s s', Moved u h ttl cap w w' i a s s' → I w → I w') (ms : List Move) :
    I (World.start.run u h ttl cap ms) := by
  refine Machine.foldl_invariant _ (fun w m hw => ?_) hstart ms
  rcases step_cases w m with heq | ⟨a, heq⟩ | ⟨w₁, i, a, s, s', hw₁, hmove⟩
  · rwa [heq]
  · exact heq ▸ hopened w a hw
  · refine hmoved w₁ _ i a s s' hmove ?_
    rcases hw₁ with rfl | ⟨b, rfl⟩
    · exact hw
    · exact hopened w b hw

/-! ### The log and the breakers -/

/-- What a call has the breaker of a process told. -/
def Call.verdict (p : ℕ) (c : Call) : Option Verdict :=
  if c.ask.process = p then c.stage.verdict c.ask else none

/-- The log and the breakers are what the calls make of them. -/
structure Accounted (w : World) : Prop where
  routed : ∀ c ∈ w.calls, c.stage.Routed c.ask
  reports : Recorded Call.gist w.reports w.calls
  breakers : ∀ p, w.breakers p = Breaker.run ((w.told p).map .record)
  told : ∀ p, Collected (Call.verdict p) ((w.told p).map verdict) w.calls

theorem Accounted.start : Accounted .start where
  routed _ hc := nomatch hc
  reports _ := rfl
  breakers _ := rfl
  told _ := List.Perm.refl []

theorem Accounted.opened {w : World} (hw : Accounted w) (a : Ask) : Accounted (w.opened a) where
  routed c hc := by
    rcases List.mem_append.mp hc with hc | hc
    · exact hw.routed c hc
    · rw [List.mem_singleton.mp hc]
      trivial
  reports := hw.reports.append (by simp [Call.gist])
  breakers := hw.breakers
  told p := (hw.told p).append (by simp [Call.verdict, Stage.verdict])

omit [Floats] in
/-- A call that is under way has nothing to say. -/
theorem silent_of_waits {s : Stage} (hs : s.waits = true) (a : Ask) :
    Call.gist ⟨a, s⟩ = none ∧ ∀ p, Call.verdict p ⟨a, s⟩ = none := by
  cases s with
  | ended o => nomatch hs
  | _ => simp [Call.gist, Call.verdict, Stage.verdict]

theorem Accounted.moved {w w' : World} {i : ℕ} {a : Ask} {s s' : Stage}
    (hmove : Moved u h ttl cap w w' i a s s') (hw : Accounted w) : Accounted w' := by
  have hrouted : s.Routed a := hw.routed _ (List.mem_of_getElem? hmove.was)
  have hsilent := silent_of_waits hmove.waits a
  obtain ⟨cs, hcs, htold, hbreakers⟩ := hmove.told
  exact {
    routed := fun c hc => by
      rw [hmove.calls] at hc
      rcases List.mem_or_eq_of_mem_set hc with hc | rfl
      · exact hw.routed c hc
      · exact hmove.routed hrouted
    reports := hmove.calls ▸ hw.reports.settle hmove.was hsilent.1 ⟨a, s'⟩ (hmove.reports hrouted)
    breakers := fun p => by
      rw [hbreakers, htold]
      by_cases hp : p = a.process
      · rw [hp, Function.update_self, Function.update_self, List.map_append, Breaker.run,
          List.foldl_append, hw.breakers a.process, ← Breaker.run]
      · rw [Function.update_of_ne hp, Function.update_of_ne hp, hw.breakers p]
    told := fun p => by
      have hsettle := (hw.told p).settle hmove.was (hsilent.2 p) ⟨a, s'⟩
      rw [htold, hmove.calls]
      by_cases hp : p = a.process
      · rw [hp, Call.verdict, if_pos rfl] at hsettle
        rw [hp, Function.update_self, List.map_append, hcs]
        exact hsettle
      · rw [Call.verdict, if_neg (Ne.symm hp), Option.toList_none, List.append_nil] at hsettle
        rwa [Function.update_of_ne hp] }

variable (u h ttl cap) in
theorem accounted_run (ms : List Move) : Accounted (World.start.run u h ttl cap ms) :=
  run_invariant u h ttl cap .start (fun _ a hw => hw.opened a)
    (fun _ _ _ _ _ _ hmove hw => hw.moved hmove) ms

variable (u h ttl cap) in
/-- In every order of moves a call that is traced reports once how it went, and that is all the
log has of it: nothing before it has ended, and nothing at all where the backend is disabled, the
answer comes from a cache, or the search router ends without one. And the breaker of a process
stands where the answers of its backends have brought it, each told once: no cached answer, no shed
call, no exception and no cancellation is told to it. -/
theorem calls_accounted (ms : List Move) :
    let w := World.start.run u h ttl cap ms
    (∀ i, w.reports i = (w.calls[i]?.bind Call.gist).toList) ∧
      ∀ p, ∃ told : List Health.Call, w.breakers p = Breaker.run (told.map .record) ∧
        (told.map verdict).Perm (w.calls.filterMap (Call.verdict p)) := by
  intro w
  have hw := accounted_run u h ttl cap ms
  exact ⟨hw.reports, fun p => ⟨w.told p, hw.breakers p, hw.told p⟩⟩

end

end AskFable.Oracle
