import Mathlib.Data.List.Count
import Mathlib.Logic.Function.Basic

/-!
# Counting semaphores

A table of semaphores, one for each key that has been used, and clients that each hold at
most one permit. A permit is with a client or still in its semaphore, so what is left and
what is held add up to the limit. The rules say how a move of one client keeps this.
-/
namespace AskFable.Permits

structure Semaphore where
  limit : ℕ
  value : ℕ
  deriving DecidableEq

variable {κ α : Type*} [DecidableEq κ] {table : κ → Option Semaphore} {slot : α → Option κ}
  {clients : List α} {i : ℕ} {c c' : α} {k : κ} {sem : Semaphore}

/-- How many clients hold a permit of a key. -/
def held (slot : α → Option κ) (k : κ) (clients : List α) : ℕ :=
  clients.countP fun c => slot c = some k

/-- No permit is lost and none is made. -/
structure Conserved (table : κ → Option Semaphore) (slot : α → Option κ) (clients : List α) :
    Prop where
  total : ∀ k sem, table k = some sem → sem.value + held slot k clients = sem.limit
  made : ∀ c ∈ clients, ∀ k, slot c = some k → (table k).isSome

theorem held_pos (hc : clients[i]? = some c) (hslot : slot c = some k) :
    0 < held slot k clients :=
  List.countP_pos_iff.mpr ⟨c, List.mem_of_getElem? hc, by simpa using hslot⟩

theorem held_set (hc : clients[i]? = some c) (k : κ) :
    held slot k (clients.set i c') =
      held slot k clients - (if slot c = some k then 1 else 0) + if slot c' = some k then 1 else 0 := by
  obtain ⟨hi, rfl⟩ := List.getElem?_eq_some_iff.mp hc
  simp [held, List.countP_set hi]

namespace Conserved

theorem empty : Conserved (fun _ : κ => none) slot [] :=
  ⟨fun k sem h => absurd h (by simp), by simp⟩

/-- No more permits are held than there are. -/
theorem held_le (h : Conserved table slot clients) (hk : table k = some sem) :
    held slot k clients ≤ sem.limit := by
  have := h.total k sem hk
  omega

/-- A client that holds nothing comes in. -/
theorem append (h : Conserved table slot clients) (hc : slot c = none) :
    Conserved table slot (clients ++ [c]) := by
  refine ⟨fun k sem hk => ?_, fun d hd k hslot => ?_⟩
  · have := h.total k sem hk
    simpa [held, List.countP_append, hc] using this
  · rcases List.mem_append.mp hd with hd | hd
    · exact h.made d hd k hslot
    · rw [List.mem_singleton.mp hd, hc] at hslot
      nomatch hslot

/-- A client moves on and keeps what it holds. -/
theorem keep (h : Conserved table slot clients) (hc : clients[i]? = some c)
    (hslot : slot c' = slot c) : Conserved table slot (clients.set i c') := by
  refine ⟨fun k sem hk => ?_, fun d hd k hd' => ?_⟩
  · have htotal := h.total k sem hk
    rw [held_set hc, hslot]
    split_ifs with hheld
    · have := held_pos hc hheld
      omega
    · omega
  · rcases List.mem_or_eq_of_mem_set hd with hd | rfl
    · exact h.made d hd k hd'
    · exact h.made c (List.mem_of_getElem? hc) k (hslot ▸ hd')

/-- A key is used for the first time. -/
theorem make (h : Conserved table slot clients) (hk : table k = none) (limit : ℕ) :
    Conserved (Function.update table k (some ⟨limit, limit⟩)) slot clients := by
  refine ⟨fun j sem hj => ?_, fun c hc j hslot => ?_⟩
  · by_cases hjk : j = k
    · subst hjk
      rw [Function.update_self] at hj
      have hnone : held slot j clients = 0 := by
        refine List.countP_eq_zero.mpr fun c hc hslot => ?_
        have := h.made c hc j (by simpa using hslot)
        simp [hk] at this
      simp [← Option.some.inj hj, hnone]
    · rw [Function.update_of_ne hjk] at hj
      exact h.total j sem hj
  · by_cases hjk : j = k
    · simp [hjk]
    · rw [Function.update_of_ne hjk]
      exact h.made c hc j hslot

/-- A permit is taken. -/
theorem acquire (h : Conserved table slot clients) (hc : clients[i]? = some c)
    (hk : table k = some sem) (hvalue : 0 < sem.value) (hnone : slot c = none)
    (hslot : slot c' = some k) :
    Conserved (Function.update table k (some { sem with value := sem.value - 1 })) slot
      (clients.set i c') := by
  refine ⟨fun j sem' hj => ?_, fun d hd j hd' => ?_⟩
  · rw [held_set hc, hnone, hslot]
    by_cases hjk : j = k
    · subst hjk
      rw [Function.update_self] at hj
      have htotal := h.total j sem hk
      simp only [← Option.some.inj hj, reduceCtorEq, if_false, if_true]
      omega
    · rw [Function.update_of_ne hjk] at hj
      have htotal := h.total j sem' hj
      simp only [reduceCtorEq, Option.some.injEq, Ne.symm hjk, if_false]
      omega
  · by_cases hjk : j = k
    · simp [hjk]
    · rw [Function.update_of_ne hjk]
      rcases List.mem_or_eq_of_mem_set hd with hd | rfl
      · exact h.made d hd j hd'
      · exact absurd (Option.some.inj (hslot.symm.trans hd')).symm hjk

/-- A permit is given back. -/
theorem release (h : Conserved table slot clients) (hc : clients[i]? = some c)
    (hk : table k = some sem) (hslot : slot c = some k) (hnone : slot c' = none) :
    Conserved (Function.update table k (some { sem with value := sem.value + 1 })) slot
      (clients.set i c') := by
  refine ⟨fun j sem' hj => ?_, fun d hd j hd' => ?_⟩
  · rw [held_set hc, hnone, hslot]
    by_cases hjk : j = k
    · subst hjk
      rw [Function.update_self] at hj
      have htotal := h.total j sem hk
      have := held_pos hc hslot
      simp only [← Option.some.inj hj, reduceCtorEq, if_false, if_true]
      omega
    · rw [Function.update_of_ne hjk] at hj
      have htotal := h.total j sem' hj
      simp only [reduceCtorEq, Option.some.injEq, Ne.symm hjk, if_false]
      omega
  · by_cases hjk : j = k
    · simp [hjk]
    · rw [Function.update_of_ne hjk]
      rcases List.mem_or_eq_of_mem_set hd with hd | rfl
      · exact h.made d hd j hd'
      · rw [hnone] at hd'
        nomatch hd'

/-- When nobody holds a permit, every permit is in its semaphore. -/
theorem full (h : Conserved table slot clients) (hnone : ∀ c ∈ clients, slot c = none)
    (hk : table k = some sem) : sem.value = sem.limit := by
  have htotal := h.total k sem hk
  have hheld : held slot k clients = 0 :=
    List.countP_eq_zero.mpr fun c hc => by simp [hnone c hc]
  omega

end Conserved

end AskFable.Permits
