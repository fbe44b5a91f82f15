import AskFable.Config.File
import AskFable.General.Linear
import AskFable.General.Machine

/-!
# Saves of many processes

Any number of processes save and load the configuration at once. A save takes the lock, reads the
file, merges its patch and puts a new file in the old one's place. It may fail at any point before
that, and a process may die at any point, which frees the lock; a file that is there may fail to be
read, and then reads as empty. The log of what took effect is bookkeeping.
-/
namespace AskFable.Config
open AskFable.Text AskFable.Python AskFable.Python.Bytes AskFable.Python.JsonText AskFable.Linear

inductive Op
  | save (patch : Patch)
  | load

inductive Stage
  | waiting
  | locked
  | read (current : Dict) (seen : Bool)
  | replaced
  | saved (ok : Bool) (ended : ℕ)
  /-- What `load` returned, if it did. -/
  | loaded (d : Option Dict) (seen : Bool) (ended : ℕ)
  | dead

/-- `began` and `ended` are the lengths of the log there. -/
structure Call where
  op : Op
  began : ℕ
  stage : Stage

inductive Effect
  | save (seen : Bool) (patch : Patch)
  | load

structure World where
  content : Option Bytes
  holder : Option ℕ
  calls : List Call
  log : List (Event Effect)

def World.start (content : Option Bytes) : World := ⟨content, none, [], []⟩

inductive Move
  | begin (op : Op)
  | go (i : ℕ) (seen : Bool)
  | fail (i : ℕ)
  | die (i : ℕ)

/-- The lock after the process of a call let it go. -/
def World.freed (w : World) (i : ℕ) : Option ℕ := if w.holder = some i then none else w.holder

def World.at (w : World) (i : ℕ) (c : Call) (stage : Stage) : List Call :=
  w.calls.set i { c with stage }

section
variable [Host]

/-- The settings that are read. -/
def base (seen : Bool) (content : Option Bytes) : Option Dict :=
  if seen then load content else some []

def Effect.apply (content : Option Bytes) : Effect → Option Bytes
  | .save seen patch => (base seen content).elim content fun d => some (written (merge d patch))
  | .load => content

/-- The next step of a call. -/
def World.go (w : World) (i : ℕ) (c : Call) (seen : Bool) : World :=
  match c.op, c.stage with
  | .save _, .waiting =>
    if w.holder = none then { w with holder := some i, calls := w.at i c .locked } else w
  | .save _, .locked =>
    match base seen w.content with
    | some d => { w with calls := w.at i c (.read d seen) }
    | none =>
      { w with holder := w.freed i, calls := w.at i c (.saved false w.log.length) }
  | .save patch, .read d seen =>
    { w with
      content := some (written (merge d patch))
      calls := w.at i c .replaced
      log := w.log ++ [⟨some i, .save seen patch⟩] }
  | .save _, .replaced =>
    { w with holder := w.freed i, calls := w.at i c (.saved true w.log.length) }
  | .load, .waiting =>
    { w with
      calls := w.at i c (.loaded (base seen w.content) seen (w.log.length + 1))
      log := w.log ++ [⟨some i, .load⟩] }
  | _, _ => w

/-- The call has not replaced the file and may still fail. -/
def Call.fallible (c : Call) : Bool :=
  match c.op, c.stage with
  | .save _, .waiting | .save _, .locked | .save _, .read _ _ => true
  | _, _ => false

def Call.ended (c : Call) : Bool :=
  match c.stage with
  | .saved _ _ | .loaded _ _ _ | .dead => true
  | _ => false

def World.step (w : World) : Move → World
  | .begin op => { w with calls := w.calls ++ [⟨op, w.log.length, .waiting⟩] }
  | .go i seen =>
    match w.calls[i]? with
    | some c => w.go i c seen
    | none => w
  | .fail i =>
    match w.calls[i]? with
    | some c =>
      if c.fallible then
        { w with holder := w.freed i, calls := w.at i c (.saved false w.log.length) }
      else w
    | none => w
  | .die i =>
    match w.calls[i]? with
    | some c =>
      if c.ended then w else { w with holder := w.freed i, calls := w.at i c .dead }
    | none => w

def World.run (w : World) (moves : List Move) : World := moves.foldl World.step w

/-! ### What a call knows -/

/-- The contents when the log began. -/
abbrev Acted (content₀ : Option Bytes) (log : List (Event Effect)) (i began ended : ℕ)
    (P : Option Bytes → Effect → Prop) : Prop :=
  Took Effect.apply content₀ log i began ended P

/-- The effect is what the call is for. -/
def Op.Asks : Op → Effect → Prop
  | .save patch, e => ∃ seen, e = .save seen patch
  | .load, e => e = .load

/-- What is true of a call at its stage. -/
def Call.Sound (content₀ : Option Bytes) (w : World) (i : ℕ) (c : Call) : Prop :=
  match c.stage with
  | .waiting => Idle w.log i
  | .locked => Idle w.log i ∧ w.holder = some i
  | .read d seen => Idle w.log i ∧ w.holder = some i ∧ base seen w.content = some d
  | .replaced => w.holder = some i ∧
    Acted content₀ w.log i c.began w.log.length fun _ => c.op.Asks
  | .saved true ended => Acted content₀ w.log i c.began ended fun _ => c.op.Asks
  | .saved false _ => Idle w.log i
  | .loaded d seen ended =>
    Acted content₀ w.log i c.began ended fun content e => e = .load ∧ base seen content = d
  | .dead => True

/-- The process of a call has the lock. -/
def Call.holds (c : Call) : Prop :=
  c.stage = .locked ∨ (∃ d seen, c.stage = .read d seen) ∨ c.stage = .replaced

/-- The invariant of a run. -/
structure World.Sound (content₀ : Option Bytes) (w : World) : Prop where
  content : w.content = state Effect.apply content₀ w.log
  once : Once w.log
  asked : ∀ e ∈ w.log, ∃ i c, e.call = some i ∧ w.calls[i]? = some c ∧ c.op.Asks e.effect
  began : ∀ (i : ℕ) (c : Call), w.calls[i]? = some c → c.began ≤ w.log.length
  calls : ∀ (i : ℕ) (c : Call), w.calls[i]? = some c → c.Sound content₀ w i
  holder : ∀ i, w.holder = some i → ∃ c, w.calls[i]? = some c ∧ c.holds

variable {content₀ : Option Bytes} {w : World}

theorem sound_start : (World.start content₀).Sound content₀ where
  content := rfl
  once := List.nodup_nil
  asked := nofun
  began := nofun
  calls := nofun
  holder := nofun

/-- What others do changes nothing of a call. -/
theorem Call.Sound.frame {c : Call} {i : ℕ} (h : c.Sound content₀ w i) {w' : World}
    {more : List (Event Effect)} (hlog : w'.log = w.log ++ more) (hmore : Idle more i)
    (hholder : w.holder = some i → w'.holder = some i)
    (hcontent : w.holder = some i → w'.content = w.content) : c.Sound content₀ w' i := by
  have hacted {ended ended' : ℕ} {P : Option Bytes → Effect → Prop}
      (hacted : Acted content₀ w.log i c.began ended P) (hle : ended ≤ ended') :
      Acted content₀ w'.log i c.began ended' P := by
    rw [hlog]
    exact (hacted.append more).imp hle fun _ _ => id
  have hidle (hidle : Idle w.log i) : Idle w'.log i := hlog ▸ hidle.append hmore
  have hlength : w.log.length ≤ w'.log.length := by
    rw [hlog, List.length_append]
    exact Nat.le_add_right _ _
  unfold Call.Sound at h ⊢
  cases hstage : c.stage with
  | waiting =>
    rw [hstage] at h
    exact hidle h
  | locked =>
    rw [hstage] at h
    exact ⟨hidle h.1, hholder h.2⟩
  | read d seen =>
    rw [hstage] at h
    obtain ⟨hlog, hheld, hbase⟩ := h
    exact ⟨hidle hlog, hholder hheld, hcontent hheld ▸ hbase⟩
  | replaced =>
    rw [hstage] at h
    exact ⟨hholder h.1, hacted h.2 hlength⟩
  | saved ok ended =>
    rw [hstage] at h
    cases ok with
    | true => exact hacted h le_rfl
    | false => exact hidle h
  | loaded d seen ended =>
    rw [hstage] at h
    exact hacted h le_rfl
  | dead => trivial

/-- A call goes on to a stage, and what it does is logged. -/
theorem World.Sound.set (h : w.Sound content₀) {i : ℕ} {c : Call} (hc : w.calls[i]? = some c)
    (effect : Option Effect) (holder : Option ℕ) (stage : Stage)
    (hidle : effect ≠ none → Idle w.log i) (hasks : ∀ e ∈ effect, c.op.Asks e)
    (hfree : ∀ j, j ≠ i → (holder = some j ↔ w.holder = some j))
    (hholds : holder = some i → ({ c with stage } : Call).holds)
    (hwrite : effect = none ∨ w.holder = some i ∨ effect = some .load)
    (hcall : Call.Sound content₀ ⟨effect.elim w.content (Effect.apply w.content), holder,
      w.at i c stage, w.log ++ acts i effect⟩ i { c with stage }) :
    World.Sound content₀ ⟨effect.elim w.content (Effect.apply w.content), holder, w.at i c stage,
      w.log ++ acts i effect⟩ := by
  have hlt : i < w.calls.length := (List.getElem?_eq_some_iff.mp hc).1
  have hself : (w.at i c stage)[i]? = some { c with stage } := by
    rw [World.at, List.getElem?_set_self hlt]
  have hother {j : ℕ} (hij : i ≠ j) : (w.at i c stage)[j]? = w.calls[j]? := by
    rw [World.at, List.getElem?_set_ne hij]
  have hkept {j : ℕ} {d : Call} (hd : w.calls[j]? = some d) :
      ∃ d', (w.at i c stage)[j]? = some d' ∧ d'.op = d.op := by
    by_cases hij : i = j
    · obtain rfl := hij
      obtain rfl := Option.some.inj (hc.symm.trans hd)
      exact ⟨_, hself, rfl⟩
    · exact ⟨d, (hother hij).trans hd, rfl⟩
  refine ⟨?_, h.once.acts hidle, fun e he => ?_, fun j d hd => ?_, fun j d hd => ?_, fun j hj => ?_⟩
  · cases effect with
    | none => simpa [acts] using h.content
    | some e =>
      dsimp only [Option.elim_some]
      rw [state_acts, ← h.content]
  · rcases List.mem_append.mp he with hold | hnew
    · obtain ⟨j, d, hcall, hd, hask⟩ := h.asked e hold
      obtain ⟨d', hd', hop⟩ := hkept hd
      exact ⟨j, d', hcall, hd', hop ▸ hask⟩
    · exact ⟨i, _, (mem_acts hnew).1, hself, hasks _ (mem_acts hnew).2⟩
  · dsimp only at hd ⊢
    rw [List.length_append]
    by_cases hij : i = j
    · obtain rfl := hij
      obtain rfl := Option.some.inj (hself.symm.trans hd)
      exact (h.began i c hc).trans (Nat.le_add_right _ _)
    · exact (h.began j d ((hother hij).symm.trans hd)).trans (Nat.le_add_right _ _)
  · by_cases hij : i = j
    · obtain rfl := hij
      obtain rfl := Option.some.inj (hself.symm.trans hd)
      exact hcall
    · refine (h.calls j d ((hother hij).symm.trans hd)).frame rfl (idle_acts hij effect)
        (fun hheld => (hfree j (Ne.symm hij)).mpr hheld) fun hheld => ?_
      -- another call that has the lock sees no new file
      rcases hwrite with rfl | hmine | rfl
      · rfl
      · exact absurd (Option.some.inj (hmine.symm.trans hheld)) hij
      · rfl
  · by_cases hij : i = j
    · obtain rfl := hij
      exact ⟨_, hself, hholds hj⟩
    · obtain ⟨d, hd, hheld⟩ := h.holder j ((hfree j (Ne.symm hij)).mp hj)
      exact ⟨d, (hother hij).trans hd, hheld⟩

omit [Host] in
theorem freed_iff {i j : ℕ} (hij : j ≠ i) : w.freed i = some j ↔ w.holder = some j := by
  unfold World.freed
  split_ifs with hi
  · rw [hi]
    simpa using Ne.symm hij
  · rfl

omit [Host] in
theorem freed_ne (i : ℕ) : w.freed i ≠ some i := by
  unfold World.freed
  split_ifs with hi
  · exact nofun
  · exact hi

/-- A call that ends without an effect. -/
theorem World.Sound.leave (h : w.Sound content₀) {i : ℕ} {c : Call} (hc : w.calls[i]? = some c)
    {stage : Stage} (hstage : stage = .dead ∨ ∃ ended, stage = .saved false ended ∧ Idle w.log i) :
    World.Sound content₀ { w with holder := w.freed i, calls := w.at i c stage } := by
  have hset := h.set hc none (w.freed i) stage (by simp) (by simp) (fun j hj => freed_iff hj)
    (fun hi => absurd hi (freed_ne i)) (.inl rfl)
  rw [append_acts_none] at hset
  refine hset ?_
  rcases hstage with rfl | ⟨ended, rfl, hidle⟩
  · trivial
  · exact hidle

/-- The next step of a call. -/
theorem World.Sound.go (h : w.Sound content₀) {i : ℕ} {c : Call} (hc : w.calls[i]? = some c)
    (seen : Bool) : (w.go i c seen).Sound content₀ := by
  have hcall := h.calls i c hc
  have hbegan := h.began i c hc
  obtain ⟨op, began, stage⟩ := c
  -- a call that goes on without an effect
  have hquiet (holder : Option ℕ) (stage' : Stage)
      (hfree : ∀ j, j ≠ i → (holder = some j ↔ w.holder = some j))
      (hholds : holder = some i → (Call.mk op began stage').holds)
      (hnew : Call.Sound content₀ { w with holder, calls := w.at i ⟨op, began, stage⟩ stage' } i
        ⟨op, began, stage'⟩) :
      World.Sound content₀ { w with holder, calls := w.at i ⟨op, began, stage⟩ stage' } := by
    have hset := h.set hc none holder stage' (by simp) (by simp) hfree hholds (.inl rfl)
    rw [append_acts_none] at hset
    exact hset hnew
  cases op with
  | load =>
    cases stage with
    | waiting =>
      have hacted : Acted content₀ (w.log ++ [⟨some i, Effect.load⟩]) i began
          (w.log ++ [Event.mk (some i) Effect.load]).length fun content e =>
            e = .load ∧ base seen content = base seen w.content :=
        took_last hbegan ⟨rfl, by rw [h.content]⟩
      rw [List.length_append, List.length_singleton] at hacted
      refine h.set hc (some .load) w.holder _ (fun _ => hcall) (by simp [Op.Asks])
        (fun _ _ => Iff.rfl) (fun hi => ?_) (.inr (.inr rfl)) hacted
      -- a load has no lock
      obtain ⟨c, hc', hholds⟩ := h.holder i hi
      obtain rfl := Option.some.inj (hc.symm.trans hc')
      simp [Call.holds] at hholds
    | locked | read | replaced | saved | loaded | dead => exact h
  | save patch =>
    cases stage with
    | waiting =>
      simp only [World.go]
      by_cases hfree : w.holder = none
      · rw [if_pos hfree]
        refine hquiet (some i) .locked (fun j hj => ?_) (fun _ => .inl rfl) ⟨hcall, rfl⟩
        rw [hfree]
        simpa using Ne.symm hj
      · rw [if_neg hfree]
        exact h
    | locked =>
      obtain ⟨hidle, hheld⟩ := hcall
      simp only [World.go]
      cases hbase : base seen w.content with
      | none => exact h.leave hc (.inr ⟨_, rfl, hidle⟩)
      | some d =>
        exact hquiet w.holder (.read d seen) (fun _ _ => Iff.rfl)
          (fun _ => .inr (.inl ⟨d, seen, rfl⟩)) ⟨hidle, hheld, hbase⟩
    | read d seen' =>
      obtain ⟨hidle, hheld, hbase⟩ := hcall
      have hacted : Acted content₀ (w.log ++ [⟨some i, Effect.save seen' patch⟩]) i began
          (w.log ++ [Event.mk (some i) (Effect.save seen' patch)]).length fun _ =>
            (Op.save patch).Asks :=
        took_last hbegan ⟨seen', rfl⟩
      have hwritten : Effect.apply w.content (.save seen' patch) =
          some (written (merge d patch)) := by
        rw [Effect.apply, hbase]
        rfl
      have hset := h.set hc (some (.save seen' patch)) w.holder .replaced (fun _ => hidle)
        (fun e he => ⟨seen', (Option.some.inj he).symm⟩) (fun _ _ => Iff.rfl)
        (fun _ => .inr (.inr rfl)) (.inr (.inl hheld)) ⟨hheld, hacted⟩
      rwa [Option.elim_some, hwritten] at hset
    | replaced =>
      obtain ⟨hheld, hacted⟩ := hcall
      exact hquiet (w.freed i) (.saved true w.log.length) (fun j hj => freed_iff hj)
        (fun hi => absurd hi (freed_ne i)) hacted
    | saved | loaded | dead => exact h

theorem World.Sound.step (h : w.Sound content₀) (m : Move) : (w.step m).Sound content₀ := by
  cases m with
  | begin op =>
    have hnew : Idle w.log w.calls.length := by
      intro e he hcall
      obtain ⟨i, c, hi, hc, -⟩ := h.asked e he
      obtain rfl := Option.some.inj (hi.symm.trans hcall)
      exact absurd (List.getElem?_eq_some_iff.mp hc).1 (lt_irrefl _)
    have hold {i : ℕ} {c : Call} (hc : w.calls[i]? = some c) :
        (w.step (.begin op)).calls[i]? = some c :=
      (List.getElem?_append_left (List.getElem?_eq_some_iff.mp hc).1).trans hc
    have hcases {i : ℕ} {c : Call} (hc : (w.step (.begin op)).calls[i]? = some c) :
        w.calls[i]? = some c ∨ i = w.calls.length ∧ c = ⟨op, w.log.length, .waiting⟩ := by
      dsimp only [World.step] at hc
      rw [List.getElem?_append] at hc
      split_ifs at hc with hi
      · exact .inl hc
      · obtain ⟨hzero, rfl⟩ := List.getElem?_eq_some_iff.mp hc
        rw [List.length_singleton] at hzero
        have hi' : i = w.calls.length := by omega
        exact .inr ⟨hi', by simp [hi']⟩
    refine ⟨h.content, h.once, fun e he => ?_, fun i c hc => ?_, fun i c hc => ?_, fun i hi => ?_⟩
    · obtain ⟨i, c, hi, hc, hask⟩ := h.asked e he
      exact ⟨i, c, hi, hold hc, hask⟩
    · rcases hcases hc with hc | ⟨rfl, rfl⟩
      · exact h.began i c hc
      · exact le_rfl
    · rcases hcases hc with hc | ⟨rfl, rfl⟩
      · exact (h.calls i c hc).frame (List.append_nil _).symm nofun id fun _ => rfl
      · exact hnew
    · obtain ⟨c, hc, hholds⟩ := h.holder i hi
      exact ⟨c, hold hc, hholds⟩
  | go i seen =>
    dsimp only [World.step]
    cases hc : w.calls[i]? with
    | none => exact h
    | some c => exact h.go hc seen
  | fail i =>
    dsimp only [World.step]
    cases hc : w.calls[i]? with
    | none => exact h
    | some c =>
      dsimp only
      by_cases hfallible : c.fallible = true
      · rw [if_pos hfallible]
        refine h.leave hc (.inr ⟨_, rfl, ?_⟩)
        have hcall := h.calls i c hc
        obtain ⟨op, began, stage⟩ := c
        cases op with
        | load => simp [Call.fallible] at hfallible
        | save patch =>
          cases stage with
          | waiting => exact hcall
          | locked => exact hcall.1
          | read d seen => exact hcall.1
          | replaced | saved | loaded | dead => simp [Call.fallible] at hfallible
      · rw [if_neg hfallible]
        exact h
  | die i =>
    dsimp only [World.step]
    cases hc : w.calls[i]? with
    | none => exact h
    | some c =>
      dsimp only
      by_cases hended : c.ended = true
      · rw [if_pos hended]
        exact h
      · rw [if_neg hended]
        exact h.leave hc (.inl rfl)

/-! ### What the settings are -/

/-- What an effect does to the settings: those that a patch names are as it says, its strings
mended, the others as they were read. -/
def Effect.fields (m : Str → Option Json) : Effect → Str → Option Json
  | .save seen patch => fun k => (patch.items.lookup k).elim (if seen then m k else none)
    fun v => v.map fun v => v.mend.json
  | .load => m

theorem fields_state (hnest : 2 ≤ Host.nestLimit) {d₀ : Dict} (h₀ : load content₀ = some d₀)
    (hd₀ : Steady d₀) (log : List (Event Effect)) :
    ∃ d, load (state Effect.apply content₀ log) = some d ∧ Steady d ∧
      ∀ k, Dict.get d k = state Effect.fields (Dict.get d₀) log k := by
  induction log using List.reverseRecOn with
  | nil => exact ⟨d₀, h₀, hd₀, fun _ => rfl⟩
  | append_singleton log e ih =>
    obtain ⟨d, hload, hsteady, hfields⟩ := ih
    rw [state_append, state_append]
    obtain ⟨call, effect⟩ := e
    cases effect with
    | load => exact ⟨d, hload, hsteady, hfields⟩
    | save seen patch =>
      have hbase : ∃ b, base seen (state Effect.apply content₀ log) = some b ∧ Steady b ∧
          ∀ k, Dict.get b k =
            if seen then state Effect.fields (Dict.get d₀) log k else none := by
        cases seen with
        | true => exact ⟨d, hload, hsteady, hfields⟩
        | false => exact ⟨[], rfl, steady_nil, fun _ => rfl⟩
      obtain ⟨b, hb, hsteady', hget⟩ := hbase
      obtain ⟨d', hload', hsteady'', hget'⟩ := load_saved hnest hsteady' patch
      refine ⟨d', ?_, hsteady'', fun k => ?_⟩
      · rw [Effect.apply, hb]
        exact hload'
      · rw [hget', hget]
        rfl

theorem sound_run (content₀ : Option Bytes) (moves : List Move) :
    ((World.start content₀).run moves).Sound content₀ :=
  Machine.foldl_invariant _ (fun _ m h => h.step m) sound_start moves

/-- However many processes save and load at once, fail and die: the file is what whole saves made
of it one after another, each on what the one before it left; a save that succeeded is one of
them, between its beginning and its end, and one that failed is not; a load returns what the file
was at one point between its beginning and its end; only a call at work has the lock. Where the
file was of settings, each is as the last save that named it left it, if no save failed to read the
file. -/
theorem saves_serial (content₀ : Option Bytes) (moves : List Move) :
    ((World.start content₀).run moves).Sound content₀ ∧
      ∀ d₀, 2 ≤ Host.nestLimit → load content₀ = some d₀ → Steady d₀ →
        ∃ d, load ((World.start content₀).run moves).content = some d ∧
          ∀ k, Dict.get d k =
            state Effect.fields (Dict.get d₀) ((World.start content₀).run moves).log k := by
  have h := sound_run content₀ moves
  refine ⟨h, fun d₀ hnest h₀ hd₀ => ?_⟩
  obtain ⟨d, hload, -, hfields⟩ := fields_state hnest h₀ hd₀ ((World.start content₀).run moves).log
  exact ⟨d, h.content ▸ hload, hfields⟩

end

end AskFable.Config
