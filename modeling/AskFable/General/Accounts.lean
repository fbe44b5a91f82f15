import Mathlib.Data.List.Basic
import Mathlib.Order.Nat

/-!
# Accounts of clients

Clients come in one after another, and each has at most one thing to say, once it has come to its
end. What has been said, by each of them or by all, is then what the clients as they stand have to
say. The rules say how a client that comes in and one that goes on keep this.
-/
namespace AskFable.Accounts

variable {α β : Type*} {what : α → Option β} {clients : List α} {i : ℕ} {c : α}

/-- What each client has said. -/
def Recorded (what : α → Option β) (said : ℕ → List β) (clients : List α) : Prop :=
  ∀ i, said i = (clients[i]?.bind what).toList

/-- What all the clients have said, in some order. -/
def Collected (what : α → Option β) (said : List β) (clients : List α) : Prop :=
  said.Perm (clients.filterMap what)

theorem Recorded.append {said : ℕ → List β} (h : Recorded what said clients) (hc : what c = none) :
    Recorded what said (clients ++ [c]) := by
  intro i
  rw [h i]
  congr 1
  rcases lt_trichotomy i clients.length with hi | rfl | hi
  · rw [List.getElem?_append_left hi]
  · rw [List.getElem?_concat_length, List.getElem?_eq_none le_rfl, Option.bind_some, hc]
    rfl
  · have hlength : (clients ++ [c]).length ≤ i := by
      rw [List.length_append, List.length_singleton]
      exact hi
    rw [List.getElem?_eq_none hi.le, List.getElem?_eq_none hlength]

/-- A client that had nothing to say goes on, and says what it then has to. -/
theorem Recorded.settle {said said' : ℕ → List β} (h : Recorded what said clients)
    (hi : clients[i]? = some c) (hc : what c = none) (c' : α)
    (hsaid : ∀ j, said' j = said j ++ if j = i then (what c').toList else []) :
    Recorded what said' (clients.set i c') := by
  intro j
  rw [hsaid j, h j]
  by_cases hj : j = i
  · have hlt : i < clients.length := (List.getElem?_eq_some_iff.mp hi).1
    rw [hj, if_pos rfl, List.getElem?_set_self hlt, hi, Option.bind_some, Option.bind_some, hc]
    rfl
  · rw [if_neg hj, List.getElem?_set_ne (Ne.symm hj), List.append_nil]

theorem Collected.append {said : List β} (h : Collected what said clients) (hc : what c = none) :
    Collected what said (clients ++ [c]) := by
  rw [Collected, List.filterMap_append, List.filterMap_cons_none hc, List.filterMap_nil,
    List.append_nil]
  exact h

theorem filterMap_set_perm (hi : clients[i]? = some c) (hc : what c = none) (c' : α) :
    (clients.filterMap what ++ (what c').toList).Perm ((clients.set i c').filterMap what) := by
  induction clients generalizing i with
  | nil => nomatch hi
  | cons d clients ih =>
    cases i with
    | zero =>
      obtain rfl : d = c := Option.some.inj hi
      rw [List.set_cons_zero, List.filterMap_cons_none hc, List.filterMap_cons]
      cases what c' with
      | none => simp
      | some b => exact List.perm_append_singleton b _
    | succ i =>
      rw [List.set_cons_succ, List.filterMap_cons, List.filterMap_cons]
      cases what d with
      | none => exact ih hi
      | some b => exact (ih hi).cons b

theorem Collected.settle {said : List β} (h : Collected what said clients)
    (hi : clients[i]? = some c) (hc : what c = none) (c' : α) :
    Collected what (said ++ (what c').toList) (clients.set i c') :=
  (h.append_right _).trans (filterMap_set_perm hi hc c')

end AskFable.Accounts
