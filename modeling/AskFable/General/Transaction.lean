import AskFable.General.Machine

/-!
# Transactions of many processes on one store

A transaction is a script of statements, each of which may depend on what the ones before it
left. One process at a time writes, on a copy of its own: the copy becomes the store when the
script is through, and is thrown away when a statement fails or the process dies. Whatever
the processes do, the store is what whole transactions, one after the other, make of it.
-/
namespace AskFable.Transaction

/-- The statements of a transaction up to its commit. -/
inductive Script (σ : Type*) where
  | commit
  | statement (f : σ → σ) (rest : σ → Script σ)

section
variable {σ : Type*}

namespace Script

/-- What a transaction that goes through makes of the store. -/
def run : Script σ → σ → σ
  | commit, s => s
  | statement f rest, s => (rest (f s)).run (f s)

/-- Statements that do not depend on each other's results. -/
def ofList : List (σ → σ) → Script σ
  | [] => commit
  | f :: fs => statement f fun _ => ofList fs

@[simp] theorem run_commit (s : σ) : commit.run s = s := rfl

@[simp] theorem run_statement (f : σ → σ) (rest : σ → Script σ) (s : σ) :
    (statement f rest).run s = (rest (f s)).run (f s) := rfl

theorem run_ofList (fs : List (σ → σ)) (s : σ) :
    (ofList fs).run s = fs.foldl (fun s f => f s) s := by
  induction fs generalizing s with
  | nil => rfl
  | cons f fs ih => exact ih (f s)

end Script

end

variable {ι ω σ : Type*} [DecidableEq ι]

/-- The process that writes, its copy of the store and what it still has to do. -/
structure Writer (ι σ : Type*) where
  process : ι
  copy : σ
  rest : Script σ

structure System (ι σ : Type*) where
  stored : σ
  writer : Option (Writer ι σ)

/-- A process starts an operation, goes on with the one it is in, or loses it. -/
inductive Action (ι ω : Type*) where
  | start (i : ι) (op : ω)
  | next (i : ι)
  | fail (i : ι)

variable (script : ω → Script σ)

/-- Nobody starts while another process writes, and only the writer goes on or fails. -/
def step (s : System ι σ) : Action ι ω → System ι σ
  | .start i op =>
    match s.writer with
    | none => ⟨s.stored, some ⟨i, s.stored, script op⟩⟩
    | some _ => s
  | .next i =>
    match s.writer with
    | none => s
    | some w =>
      if w.process = i then
        match w.rest with
        | .commit => ⟨w.copy, none⟩
        | .statement f rest => ⟨s.stored, some ⟨i, f w.copy, rest (f w.copy)⟩⟩
      else s
  | .fail i =>
    match s.writer with
    | none => s
    | some w => if w.process = i then ⟨s.stored, none⟩ else s

/-- The store after a run of the processes. -/
def after (s₀ : σ) (actions : List (Action ι ω)) : σ :=
  (actions.foldl (step script) ⟨s₀, none⟩).stored

/-- The store was made by whole transactions, and the writer's copy will be one of them more. -/
structure Serial (s₀ : σ) (s : System ι σ) : Prop where
  stored : ∃ ops : List ω, s.stored = ops.foldl (fun t op => (script op).run t) s₀
  writer : ∀ w, s.writer = some w → ∃ op, w.rest.run w.copy = (script op).run s.stored

theorem serial_step (s₀ : σ) (s : System ι σ) (a : Action ι ω) (h : Serial script s₀ s) :
    Serial script s₀ (step script s a) := by
  have hfail : Serial script s₀ (⟨s.stored, none⟩ : System ι σ) := ⟨h.stored, by simp⟩
  cases a with
  | start i op =>
    cases hw : s.writer with
    | none =>
      rw [step, hw]
      refine ⟨h.stored, fun w hw' => ⟨op, ?_⟩⟩
      obtain rfl := Option.some.inj hw'
      rfl
    | some w => simpa only [step, hw] using h
  | next i =>
    cases hw : s.writer with
    | none => simpa only [step, hw] using h
    | some w =>
      by_cases hi : w.process = i
      · obtain ⟨op, hop⟩ := h.writer w hw
        cases hrest : w.rest with
        | commit =>
          simp only [step, hw, hi, if_true, hrest]
          obtain ⟨ops, hops⟩ := h.stored
          -- The copy that becomes the store is one transaction further than the store was.
          refine ⟨⟨ops ++ [op], ?_⟩, by simp⟩
          rw [List.foldl_append, ← hops, List.foldl_cons, List.foldl_nil, ← hop, hrest,
            Script.run_commit]
        | statement f rest =>
          simp only [step, hw, hi, if_true, hrest]
          refine ⟨h.stored, fun w' hw' => ⟨op, ?_⟩⟩
          obtain rfl := Option.some.inj hw'
          rw [← hop, hrest, Script.run_statement]
      · simpa only [step, hw, hi, if_false] using h
  | fail i =>
    cases hw : s.writer with
    | none => simpa only [step, hw] using h
    | some w =>
      by_cases hi : w.process = i
      · simpa only [step, hw, hi, if_true] using hfail
      · simpa only [step, hw, hi, if_false] using h

/-- After any run the store is what some sequence of whole transactions makes of it. -/
theorem after_serial (s₀ : σ) (actions : List (Action ι ω)) :
    ∃ ops : List ω, after script s₀ actions = ops.foldl (fun t op => (script op).run t) s₀ :=
  (Machine.foldl_invariant (step script) (serial_step script s₀)
    (s := ⟨s₀, none⟩) ⟨⟨[], rfl⟩, by simp⟩ actions).stored

/-- What every whole transaction keeps holds of the store after any run. -/
theorem after_invariant {I : σ → Prop} (hkeep : ∀ op s, I s → I ((script op).run s)) {s₀ : σ}
    (hs : I s₀) (actions : List (Action ι ω)) : I (after script s₀ actions) := by
  obtain ⟨ops, hops⟩ := after_serial script s₀ actions
  rw [hops]
  exact Machine.foldl_invariant _ (fun s op => hkeep op s) hs ops

end AskFable.Transaction
