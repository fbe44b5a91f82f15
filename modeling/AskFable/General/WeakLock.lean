import Mathlib.Data.List.Nodup
import Mathlib.Logic.Function.Basic

/-!
# Locks kept in a weak dictionary

Tasks take a lock by its key. The dictionary makes a lock when a key has none and may
drop one that no task refers to, so the lock of a key can change over time. Two tasks
that hold a key at once still hold the same lock, hence are one task.
-/
namespace AskFable.WeakLock

variable {κ τ : Type*}

/-- A task's reference to the lock it waits for or holds. -/
structure Ref (κ τ : Type*) where
  task : τ
  key : κ
  lock : ℕ

structure Table (κ τ : Type*) where
  entry : κ → Option ℕ
  fresh : ℕ
  holder : ℕ → Option τ
  refs : List (Ref κ τ)

namespace Table

def empty : Table κ τ := ⟨fun _ => none, 0, fun _ => none, []⟩

section
variable [DecidableEq κ] [DecidableEq τ]

/-- The reference of a task. -/
def ref (w : Table κ τ) (t : τ) : Option (Ref κ τ) := w.refs.find? fun r => r.task = t

/-- A task that refers to no lock looks its key up, and makes a lock where there is none. -/
def request (w : Table κ τ) (t : τ) (k : κ) : Table κ τ :=
  if (w.ref t).isSome then w
  else
    match w.entry k with
    | some l => { w with refs := ⟨t, k, l⟩ :: w.refs }
    | none =>
      { w with
        entry := Function.update w.entry k (some w.fresh)
        fresh := w.fresh + 1
        refs := ⟨t, k, w.fresh⟩ :: w.refs }

/-- The lock a task waits for is free. -/
def grantable (w : Table κ τ) (t : τ) : Bool :=
  match w.ref t with
  | some r => (w.holder r.lock).isNone
  | none => false

def holding (w : Table κ τ) (t : τ) : Bool :=
  match w.ref t with
  | some r => w.holder r.lock = some t
  | none => false

def acquire (w : Table κ τ) (t : τ) : Table κ τ :=
  match w.ref t with
  | some r =>
    if w.holder r.lock = none then { w with holder := Function.update w.holder r.lock (some t) }
    else w
  | none => w

/-- A task gives its lock up, held or not. -/
def drop (w : Table κ τ) (t : τ) : Table κ τ :=
  match w.ref t with
  | some r =>
    { w with
      holder := if w.holder r.lock = some t then Function.update w.holder r.lock none else w.holder
      refs := w.refs.filter fun r => r.task ≠ t }
  | none => w

/-- The dictionary drops a lock that no task refers to. -/
def evict (w : Table κ τ) (k : κ) : Table κ τ :=
  match w.entry k with
  | some l =>
    if w.refs.all fun r => r.lock ≠ l then { w with entry := Function.update w.entry k none } else w
  | none => w

end

/-- The task holds the lock it refers to. -/
def Holds (w : Table κ τ) (t : τ) : Prop := ∃ r ∈ w.refs, r.task = t ∧ w.holder r.lock = some t

/-- A lock in use is the one in the dictionary, under one key, and a holder refers to it. -/
structure Sound (w : Table κ τ) : Prop where
  current : ∀ r ∈ w.refs, w.entry r.key = some r.lock
  made : ∀ k l, w.entry k = some l → l < w.fresh
  apart : ∀ k k' l, w.entry k = some l → w.entry k' = some l → k = k'
  referred : ∀ l t, w.holder l = some t → ∃ r ∈ w.refs, r.task = t ∧ r.lock = l
  once : (w.refs.map (·.task)).Nodup

/-- Two references under one key are to one lock. -/
theorem Sound.lock_eq {w : Table κ τ} (h : w.Sound) {r r' : Ref κ τ} (hr : r ∈ w.refs)
    (hr' : r' ∈ w.refs) (hkey : r.key = r'.key) : r.lock = r'.lock := by
  have hlock := h.current r' hr'
  rw [← hkey, h.current r hr] at hlock
  exact Option.some.inj hlock

/-- Only one task holds a key. -/
theorem Sound.exclusive {w : Table κ τ} (h : w.Sound) {r r' : Ref κ τ} (hr : r ∈ w.refs)
    (hr' : r' ∈ w.refs) (hkey : r.key = r'.key) (hholds : w.holder r.lock = some r.task)
    (hholds' : w.holder r'.lock = some r'.task) : r.task = r'.task := by
  rw [h.lock_eq hr hr' hkey, hholds'] at hholds
  exact (Option.some.inj hholds).symm

theorem sound_empty : (empty : Table κ τ).Sound := by
  constructor <;> simp [empty]

/-- A task has one reference. -/
theorem Sound.ref_eq {w : Table κ τ} (h : w.Sound) {r r' : Ref κ τ} (hr : r ∈ w.refs)
    (hr' : r' ∈ w.refs) (htask : r.task = r'.task) : r = r' :=
  List.inj_on_of_nodup_map h.once hr hr' htask

variable [DecidableEq τ]

theorem ref_spec {w : Table κ τ} {t : τ} {r : Ref κ τ} (h : w.ref t = some r) :
    r ∈ w.refs ∧ r.task = t :=
  ⟨List.mem_of_find?_eq_some h, by simpa using List.find?_some h⟩

theorem ref_none {w : Table κ τ} {t : τ} (h : w.ref t = none) : ∀ r ∈ w.refs, r.task ≠ t := by
  simpa [ref] using h

theorem Sound.acquire {w : Table κ τ} (h : w.Sound) (t : τ) : (w.acquire t).Sound := by
  rw [Table.acquire]
  cases hr : w.ref t with
  | none => exact h
  | some r =>
    dsimp only
    split_ifs with hfree
    · refine ⟨h.current, h.made, h.apart, fun l u hu => ?_, h.once⟩
      dsimp only at hu
      by_cases hl : l = r.lock
      · subst hl
        rw [Function.update_self] at hu
        obtain ⟨hmem, htask⟩ := ref_spec hr
        exact ⟨r, hmem, htask.trans (Option.some.inj hu), rfl⟩
      · rw [Function.update_of_ne hl] at hu
        exact h.referred l u hu
    · exact h

theorem Sound.drop {w : Table κ τ} (h : w.Sound) (t : τ) : (w.drop t).Sound := by
  rw [Table.drop]
  cases hr : w.ref t with
  | none => exact h
  | some r =>
    obtain ⟨hmem, htask⟩ := ref_spec hr
    refine ⟨fun r' hr' => h.current r' (List.mem_filter.mp hr').1, h.made, h.apart,
      fun l u hu => ?_, h.once.sublist (List.filter_sublist.map _)⟩
    -- whoever holds a lock after the step held it before, and is another task
    have hheld : w.holder l = some u ∧ u ≠ t := by
      dsimp only at hu
      split_ifs at hu with hmine
      · by_cases hl : l = r.lock
        · rw [hl, Function.update_self] at hu
          cases hu
        · rw [Function.update_of_ne hl] at hu
          refine ⟨hu, fun heq => hl ?_⟩
          obtain ⟨r', hr', htask', rfl⟩ := h.referred l u hu
          rw [h.ref_eq hr' hmem (htask'.trans (heq.trans htask.symm))]
      · refine ⟨hu, fun heq => hmine ?_⟩
        obtain ⟨r', hr', htask', rfl⟩ := h.referred l u hu
        rw [← h.ref_eq hr' hmem (htask'.trans (heq.trans htask.symm)), hu, heq]
    obtain ⟨r', hr', rfl, hlock⟩ := h.referred l u hheld.1
    exact ⟨r', List.mem_filter.mpr ⟨hr', by simpa using hheld.2⟩, rfl, hlock⟩

variable [DecidableEq κ]

theorem Sound.request {w : Table κ τ} (h : w.Sound) (t : τ) (k : κ) : (w.request t k).Sound := by
  rw [Table.request]
  split_ifs with hbusy
  · exact h
  · have hnone : w.ref t = none := by simpa using hbusy
    have honce : (t :: w.refs.map (·.task)).Nodup :=
      List.nodup_cons.mpr ⟨by simpa [List.mem_map] using ref_none hnone, h.once⟩
    have hreferred : ∀ (r₀ : Ref κ τ) l u, w.holder l = some u →
        ∃ r ∈ r₀ :: w.refs, r.task = u ∧ r.lock = l := fun r₀ l u hu => by
      obtain ⟨r, hr, hru⟩ := h.referred l u hu
      exact ⟨r, List.mem_cons_of_mem _ hr, hru⟩
    cases hk : w.entry k with
    | some l =>
      exact ⟨by simpa [hk] using h.current, h.made, h.apart, hreferred _, honce⟩
    | none =>
      -- the new lock is none that was made before
      have hnew {k' l} (hl : Function.update w.entry k (some w.fresh) k' = some l) :
          k' = k ∧ l = w.fresh ∨ w.entry k' = some l := by
        by_cases hkk : k' = k
        · subst hkk
          rw [Function.update_self] at hl
          exact Or.inl ⟨rfl, (Option.some.inj hl).symm⟩
        · rw [Function.update_of_ne hkk] at hl
          exact Or.inr hl
      dsimp only
      refine ⟨fun r hr => ?_, fun k' l hl => ?_, fun k' k'' l hl hl' => ?_, hreferred _, honce⟩
      · dsimp only
        rcases List.mem_cons.mp hr with rfl | hr
        · exact Function.update_self ..
        · have hne : r.key ≠ k := fun heq => by simp [heq ▸ h.current r hr] at hk
          rw [Function.update_of_ne hne]
          exact h.current r hr
      · rcases hnew hl with ⟨-, rfl⟩ | hl
        · exact Nat.lt_succ_self _
        · exact Nat.lt_succ_of_lt (h.made k' l hl)
      · rcases hnew hl with ⟨rfl, rfl⟩ | hold <;> rcases hnew hl' with ⟨rfl, hlock⟩ | hold'
        · rfl
        · exact absurd (h.made _ _ hold') (Nat.lt_irrefl _)
        · exact absurd (hlock ▸ h.made _ _ hold) (Nat.lt_irrefl _)
        · exact h.apart _ _ _ hold hold'

omit [DecidableEq τ] in
theorem Sound.evict {w : Table κ τ} (h : w.Sound) (k : κ) : (w.evict k).Sound := by
  rw [Table.evict]
  cases hk : w.entry k with
  | none => exact h
  | some l =>
    dsimp only
    split_ifs with hidle
    · have hkept {k' l'} (hl : Function.update w.entry k none k' = some l') :
          w.entry k' = some l' := by
        by_cases hkk : k' = k
        · subst hkk
          simp at hl
        · rwa [Function.update_of_ne hkk] at hl
      refine ⟨fun r hr => ?_, fun k' l' hl => h.made k' l' (hkept hl),
        fun k' k'' l' hl hl' => h.apart k' k'' l' (hkept hl) (hkept hl'), h.referred, h.once⟩
      dsimp only
      have hne : r.key ≠ k := fun heq => by
        have hcurrent := h.current r hr
        rw [heq, hk] at hcurrent
        have := List.all_eq_true.mp hidle r hr
        simp [Option.some.inj hcurrent] at this
      rw [Function.update_of_ne hne]
      exact h.current r hr
    · exact h

section

variable {w : Table κ τ} {t u : τ}

omit [DecidableEq κ] in
theorem Sound.holding_iff (h : w.Sound) : w.holding t = true ↔ w.Holds t := by
  constructor
  · intro hholding
    rw [holding] at hholding
    cases hr : w.ref t with
    | none => simp [hr] at hholding
    | some r => exact ⟨r, (ref_spec hr).1, (ref_spec hr).2, by simpa [hr] using hholding⟩
  · rintro ⟨r, hr, rfl, hholder⟩
    rw [holding]
    cases href : w.ref r.task with
    | none => exact absurd rfl (ref_none href r hr)
    | some r' =>
      rw [h.ref_eq (ref_spec href).1 hr (ref_spec href).2]
      simpa using hholder

omit [DecidableEq κ] in
theorem grantable_spec (h : w.grantable t = true) :
    ∃ r ∈ w.refs, r.task = t ∧ w.holder r.lock = none := by
  rw [grantable] at h
  cases hr : w.ref t with
  | none => simp [hr] at h
  | some r => exact ⟨r, (ref_spec hr).1, (ref_spec hr).2, by simpa [hr] using h⟩

omit [DecidableEq κ] in
theorem acquire_refs : (w.acquire t).refs = w.refs := by
  rw [acquire]
  cases w.ref t with
  | none => rfl
  | some r => dsimp only; split_ifs <;> rfl

omit [DecidableEq κ] in
/-- A task that acquires is the only one that begins to hold. -/
theorem holds_of_acquire (h : (w.acquire t).Holds u) : u = t ∨ w.Holds u := by
  obtain ⟨r, hr, hru, hholder⟩ := h
  rw [acquire_refs] at hr
  rw [acquire] at hholder
  cases href : w.ref t with
  | none => exact Or.inr ⟨r, hr, hru, by simpa [href] using hholder⟩
  | some r' =>
    rw [href] at hholder
    dsimp only at hholder
    split_ifs at hholder
    · dsimp only at hholder
      by_cases hl : r.lock = r'.lock
      · rw [hl, Function.update_self] at hholder
        exact Or.inl (Option.some.inj hholder).symm
      · rw [Function.update_of_ne hl] at hholder
        exact Or.inr ⟨r, hr, hru, hholder⟩
    · exact Or.inr ⟨r, hr, hru, hholder⟩

omit [DecidableEq κ] in
theorem mem_drop_refs {r : Ref κ τ} (h : r ∈ (w.drop t).refs) : r ∈ w.refs ∧ r.task ≠ t := by
  rw [drop] at h
  cases href : w.ref t with
  | none =>
    rw [href] at h
    exact ⟨h, ref_none href r h⟩
  | some r' =>
    rw [href] at h
    simpa using h

omit [DecidableEq κ] in
theorem holds_of_drop (h : (w.drop t).Holds u) : u ≠ t ∧ w.Holds u := by
  obtain ⟨r, hr, rfl, hholder⟩ := h
  obtain ⟨hr, hne⟩ := mem_drop_refs hr
  refine ⟨hne, r, hr, rfl, ?_⟩
  rw [drop] at hholder
  cases href : w.ref t with
  | none => simpa [href] using hholder
  | some r' =>
    rw [href] at hholder
    dsimp only at hholder
    split_ifs at hholder
    · by_cases hl : r.lock = r'.lock
      · simp [hl] at hholder
      · rwa [Function.update_of_ne hl] at hholder
    · exact hholder

theorem mem_request_refs {k : κ} {r : Ref κ τ} (h : r ∈ (w.request t k).refs) :
    r ∈ w.refs ∨ r.task = t ∧ r.key = k := by
  rw [request] at h
  split_ifs at h
  · exact Or.inl h
  · cases hk : w.entry k <;> rw [hk] at h <;> rcases List.mem_cons.mp h with rfl | h
    · exact Or.inr ⟨rfl, rfl⟩
    · exact Or.inl h
    · exact Or.inr ⟨rfl, rfl⟩
    · exact Or.inl h

theorem request_holder {k : κ} : (w.request t k).holder = w.holder := by
  rw [request]
  split_ifs
  · rfl
  · cases w.entry k <;> rfl

/-- Asking for a lock does not yet hold it. -/
theorem Sound.holds_of_request (hw : w.Sound) {k : κ} (h : (w.request t k).Holds u) :
    w.Holds u := by
  obtain ⟨r, hr, hru, hholder⟩ := h
  rw [request_holder] at hholder
  rw [Table.request] at hr
  split_ifs at hr with hbusy
  · exact ⟨r, hr, hru, hholder⟩
  · obtain ⟨r', hr', hru', hlock⟩ := hw.referred _ _ hholder
    exact ⟨r', hr', hru', hlock ▸ hholder⟩

omit [DecidableEq τ] in
theorem evict_refs {k : κ} : (w.evict k).refs = w.refs ∧ (w.evict k).holder = w.holder := by
  rw [evict]
  cases w.entry k with
  | none => exact ⟨rfl, rfl⟩
  | some l => dsimp only; split_ifs <;> exact ⟨rfl, rfl⟩

end

end Table

end AskFable.WeakLock
