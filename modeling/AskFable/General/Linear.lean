import Mathlib.Data.List.Basic
import Mathlib.Data.List.Nodup
import Mathlib.Order.Nat

/-!
# Calls that take effect at a point

Calls begin and end, and each takes effect at most once, somewhere in between or later. The log has
the effects in their order, with those that no call asked for; the state is what they make one
after another, and a call that is told something of it is told it as it stood where the call took
effect.
-/
namespace AskFable.Linear

structure Event (ε : Type*) where
  call : Option ℕ
  effect : ε

variable {σ ε : Type*}

/-- The state after the effects of a log. -/
def state (apply : σ → ε → σ) (start : σ) (log : List (Event ε)) : σ :=
  log.foldl (fun s e => apply s e.effect) start

/-- No call takes effect twice. -/
def Once (log : List (Event ε)) : Prop := (log.filterMap Event.call).Nodup

/-- The call takes no effect. -/
def Idle (log : List (Event ε)) (call : ℕ) : Prop := ∀ e ∈ log, e.call ≠ some call

theorem Idle.append {log more : List (Event ε)} {call : ℕ} (h : Idle log call)
    (hmore : Idle more call) : Idle (log ++ more) call :=
  fun e he => (List.mem_append.mp he).elim (h e) (hmore e)

theorem Once.append {log : List (Event ε)} (h : Once log) {call : Option ℕ}
    (hidle : ∀ i ∈ call, Idle log i) (effect : ε) : Once (log ++ [⟨call, effect⟩]) := by
  rw [Once, List.filterMap_append, List.nodup_append]
  refine ⟨h, ?_, fun a ha b hb hab => ?_⟩
  · cases call <;> simp
  · obtain ⟨e, he, hcall⟩ := List.mem_filterMap.mp ha
    obtain ⟨e', he', hnew⟩ := List.mem_filterMap.mp hb
    rw [List.mem_singleton.mp he'] at hnew
    exact hidle b hnew e he (hab ▸ hcall)

variable {apply : σ → ε → σ} {start : σ}

/-- The call took effect after `began` effects, before there were `ended`, on a state of which
this holds. -/
def Took (apply : σ → ε → σ) (start : σ) (log : List (Event ε)) (call began ended : ℕ)
    (P : σ → ε → Prop) : Prop :=
  ∃ n effect, log[n]? = some ⟨some call, effect⟩ ∧ began ≤ n ∧ n < ended ∧
    P (state apply start (log.take n)) effect

/-- What has happened is not undone. -/
theorem Took.append {log : List (Event ε)} {call began ended : ℕ} {P : σ → ε → Prop}
    (h : Took apply start log call began ended P) (rest : List (Event ε)) :
    Took apply start (log ++ rest) call began ended P := by
  obtain ⟨n, effect, hn, hbegan, hended, hP⟩ := h
  have hlt : n < log.length := (List.getElem?_eq_some_iff.mp hn).1
  refine ⟨n, effect, ?_, hbegan, hended, ?_⟩
  · rw [List.getElem?_append_left hlt, hn]
  · rwa [List.take_append_of_le_length hlt.le]

theorem Took.imp {log : List (Event ε)} {call began ended ended' : ℕ} {P Q : σ → ε → Prop}
    (h : Took apply start log call began ended P) (hended : ended ≤ ended')
    (hPQ : ∀ s e, P s e → Q s e) : Took apply start log call began ended' Q := by
  obtain ⟨n, effect, hn, hbegan, hlt, hP⟩ := h
  exact ⟨n, effect, hn, hbegan, hlt.trans_le hended, hPQ _ _ hP⟩

/-- The call that takes effect now. -/
theorem took_last {log : List (Event ε)} {call began : ℕ} {P : σ → ε → Prop} {effect : ε}
    (hbegan : began ≤ log.length) (hP : P (state apply start log) effect) :
    Took apply start (log ++ [⟨some call, effect⟩]) call began
      (log ++ [Event.mk (some call) effect]).length P := by
  refine ⟨log.length, effect, List.getElem?_concat_length, hbegan, by simp, ?_⟩
  rwa [List.take_left]

theorem state_append (log : List (Event ε)) (e : Event ε) :
    state apply start (log ++ [e]) = apply (state apply start log) e.effect := by
  rw [state, List.foldl_append, List.foldl_cons, List.foldl_nil, ← state]

/-! ### What a call does at once -/

/-- The events of a call that has an effect now, or has none. -/
def acts (call : ℕ) (effect : Option ε) : List (Event ε) := (effect.map (⟨some call, ·⟩)).toList

theorem append_acts_none (log : List (Event ε)) (call : ℕ) : log ++ acts call none = log :=
  List.append_nil _

theorem mem_acts {call : ℕ} {effect : Option ε} {e : Event ε} (h : e ∈ acts call effect) :
    e.call = some call ∧ e.effect ∈ effect := by
  cases effect with
  | none => nomatch h
  | some eff =>
    rw [List.mem_singleton.mp h]
    exact ⟨rfl, rfl⟩

theorem idle_acts {i j : ℕ} (h : i ≠ j) (effect : Option ε) : Idle (acts i effect) j :=
  fun _ he heq => h (Option.some.inj ((mem_acts he).1.symm.trans heq))

theorem Once.acts {log : List (Event ε)} (h : Once log) {call : ℕ} {effect : Option ε}
    (hidle : effect ≠ none → Idle log call) : Once (log ++ acts call effect) := by
  cases effect with
  | none => rwa [append_acts_none]
  | some e =>
    refine h.append (fun i hi => ?_) e
    obtain rfl := Option.some.inj hi
    exact hidle (by simp)

theorem state_acts (log : List (Event ε)) (call : ℕ) (e : ε) :
    state apply start (log ++ acts call (some e)) = apply (state apply start log) e :=
  state_append log ⟨some call, e⟩

end AskFable.Linear
