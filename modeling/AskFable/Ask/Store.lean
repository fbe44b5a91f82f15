import AskFable.Debate.Run
import Mathlib.Logic.Function.Basic

/-!
# Conversations and their keys

`SessionStore` and the keys it is read under: a label under the name space of its model
family. Fable has none, so the labels that look like an Opus key are refused.
-/
namespace AskFable.Ask
open AskFable.Text AskFable.Python

inductive Family
  | fable
  | opus
  deriving DecidableEq

/-- A label of a family. -/
structure Slot where
  family : Family
  label : Str
  deriving DecidableEq

def OPUS_SESSION_NS : Str := txt "opus5:"

/-- `session_prefix`. -/
def Family.namespace : Family → Str
  | .fable => []
  | .opus => OPUS_SESSION_NS

/-- `_session_key`. -/
def sessionKey (s : Slot) : Str := s.family.namespace ++ s.label

/-- `_session_label_error`, as a condition. -/
def sessionLabelError (s : Slot) : Bool := s.family = .fable ∧ OPUS_SESSION_NS <+: s.label

/-- Accepted labels are told apart by their keys. -/
theorem sessionKey_inj {s s' : Slot} (hs : sessionLabelError s = false)
    (hs' : sessionLabelError s' = false) (h : sessionKey s = sessionKey s') : s = s' := by
  simp only [sessionLabelError, decide_eq_false_iff_not, not_and] at hs hs'
  obtain ⟨family, label⟩ := s
  obtain ⟨family', label'⟩ := s'
  simp only [sessionKey] at h
  cases family <;> cases family' <;> simp only [Family.namespace, List.nil_append] at h
  · rw [h]
  · exact absurd ⟨label', h.symm⟩ (hs rfl)
  · exact absurd ⟨label, h⟩ (hs' rfl)
  · rw [List.append_cancel_left h]

structure Turn where
  q : Str
  a : Str
  think : Str
  deriving DecidableEq

structure Session where
  sdkSessionId : Option Str := none
  turns : List Turn := []
  blockedStreak : ℕ := 0
  deriving DecidableEq

abbrev SessionStore := Str → Option Session

namespace SessionStore

variable (store : SessionStore) (key : Str)

/-- `get`, which makes the session where there is none. -/
def get : Session := (store key).getD {}

def put (s : Session) : SessionStore := Function.update store key (some s)

def resumeId : Option Str := (store key).bind (·.sdkSessionId)

/-- `blocked_streak`, none being zero. -/
def streak : ℕ := (store key).elim 0 (·.blockedStreak)

def forgetResume : SessionStore :=
  match store key with
  | some s => store.put key { s with sdkSessionId := none }
  | none => store

def bumpBlocked (blocked : Bool) : SessionStore :=
  let s := store.get key
  store.put key { s with blockedStreak := if blocked then s.blockedStreak + 1 else 0 }

def recordTurn (turn : Turn) (sessionId : Option Str) : SessionStore :=
  let s := store.get key
  store.put key
    { s with
      sdkSessionId := (sessionId.filter (· ≠ [])).or s.sdkSessionId
      turns := s.turns ++ [turn] }

/-- `reset`, with the session whose transcript it saves. -/
def reset (save : Bool) : SessionStore × Option Session :=
  (Function.update store key none,
    (store key).filter fun s => save && !s.turns.isEmpty)

/-- What of a conversation the next turn depends on. -/
def view : Option Str × ℕ := (store.resumeId key, store.streak key)

variable {store key}

theorem view_forgetResume : (store.forgetResume key).view key = (none, store.streak key) := by
  cases h : store key <;> simp [forgetResume, view, resumeId, streak, put, h]

theorem view_bump_record (blocked : Bool) (turn : Turn) (sessionId : Option Str) :
    ((store.bumpBlocked key blocked).recordTurn key turn sessionId).view key =
      ((sessionId.filter (· ≠ [])).or (store.resumeId key),
        if blocked then store.streak key + 1 else 0) := by
  cases h : store key <;>
    simp [bumpBlocked, recordTurn, view, resumeId, streak, put, get, h]

theorem view_reset (save : Bool) : ((store.reset key save).1).view key = (none, 0) := by
  simp [reset, view, resumeId, streak]

section
variable {key' : Str} (hne : key' ≠ key)

include hne

theorem view_forgetResume_of_ne : (store.forgetResume key).view key' = store.view key' := by
  cases h : store key <;> simp [forgetResume, view, resumeId, streak, put, h, hne]

theorem view_bump_record_of_ne (blocked : Bool) (turn : Turn) (sessionId : Option Str) :
    ((store.bumpBlocked key blocked).recordTurn key turn sessionId).view key' =
      store.view key' := by
  simp [bumpBlocked, recordTurn, view, resumeId, streak, put, hne]

theorem view_reset_of_ne (save : Bool) : ((store.reset key save).1).view key' = store.view key' := by
  simp [reset, view, resumeId, streak, hne]

end

end SessionStore

end AskFable.Ask
