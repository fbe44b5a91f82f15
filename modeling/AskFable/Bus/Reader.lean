import AskFable.Bus.Daemon

/-!
# Reading from the bus

The client's side of a read: the cross-check of the daemon's metadata, the opening of the
envelope, and the rollback guard with its per-key high-water marks.
-/
namespace AskFable.Bus
open AskFable.Text AskFable.Python

def SLACK_NS : ℤ := FLOOR_SLACK_NS

/-! ### The high-water marks -/

/-- The guard's table: the newest timestamp accepted per key. -/
abbrev Marks := Str → Option ℤ

inductive HwmError
  | unavailable (detail : Str)
  /-- The store raised; the text is the exception's. -/
  | failed (f : Fault)
  | rollback (detail : Str)
  deriving DecidableEq

/-- How the guard is set up. -/
structure Guard where
  enabled : Bool
  path : Str

/-- `_bump`: `MAX(existing, observed)`. -/
def bump (m : Marks) (key : Str) (ts : ℤ) : Marks :=
  Function.update m key (some ((m key).elim ts (max ts)))

def rollbackText (key : Str) (ts mark : ℤ) : Str :=
  txt "rollback guard: '" ++ key ++ txt "' was served with ts=" ++ intStr ts ++
    txt ", older than the high-water mark " ++ intStr mark ++
    txt (" (possible stale or rolled-back owner); refusing the value. If this is an " ++
      "intentional restore, set ASK_FABLE_CONTEXT_HWM=0 or delete the guard database")

/-- Whether the mark of a key forbids a timestamp. -/
def stale (m : Marks) (key : Str) (ts : ℤ) : Bool :=
  (m key).any fun mark => decide (ts < mark - SLACK_NS)

/-- `check`; the store is `none` when it cannot be opened. -/
def check (g : Guard) (store : Option Marks) (key : Str) (ts : ℤ) :
    Option Marks × Except HwmError Unit :=
  if g.enabled then
    match store with
    | none =>
      (none, .error (.unavailable (txt "rollback guard store unavailable: " ++ g.path)))
    | some m =>
      match bindText key, bindInt ts with
      | .error f, _ => (some m, .error (.failed f))
      | .ok _, fits =>
        if stale m key ts then
          (some m, .error (.rollback (rollbackText key ts ((m key).getD 0))))
        else
          match fits with
          | .error f => (some m, .error (.failed f))
          | .ok _ => (some (bump m key ts), .ok ())
  else (store, .ok ())

/-! ### Opening what was served -/

section
variable [Host]

/-- `_check_meta`: the `BusProtocolError` it raises, if any. -/
def checkMeta (key envelope writer : Str) (ts : ℤ) : Except Fault (Option Str) :=
  match envelopeMeta envelope with
  | .error (.crypto e) => .ok (some
      (txt "daemon served an unparseable envelope for '" ++ key ++ txt "': " ++ e.detail))
  | .error (.fault f) => .error f
  | .ok (_, _, headWriter, headTs) =>
    if writer ≠ headWriter ∨ ts ≠ headTs then .ok (some
      (txt "metadata mismatch for '" ++ key ++ txt "': daemon claims writer=" ++
        Host.shown (.str writer) ++ txt " ts=" ++ intStr ts ++
        txt ", envelope header says writer=" ++ Host.shown (.str headWriter) ++ txt " ts=" ++
        natStr headTs))
    else .ok none

inductive ReadError
  | refused (text : Str)
  | guard (key : Str) (e : HwmError)

/-- A value read back, with the description it was sealed with. -/
abbrev ReadResult := Except ReadError (Str × Option Str)

/-- `_readable`, in bus mode when `bus`; `keyring` is what `load_keyring` returned or
raised. -/
def readable (lib : Library) (bus : Bool) (g : Guard) (store : Option Marks)
    (keyring : Except CryptoError Keyring) (stored key : Str) :
    Option Marks × Except Raised ReadResult :=
  if isSealed stored then
    let opened : Except Raised (Str × Str) :=
      match keyring with
      | .error e => .error (.crypto e)
      | .ok kr => «unseal» lib stored key (.ok kr)
    match opened with
    | .error (.fault f) => (store, .error (.fault f))
    | .error (.crypto e) =>
      (store, .ok (.error (.refused (txt "sealed context at '" ++ key ++ txt "': " ++ e.detail))))
    | .ok (value, description) =>
      if bus then
        match envelopeMeta stored with
        -- only the guard's own errors are caught here
        | .error e => (store, .error e)
        | .ok (_, _, _, headTs) =>
          let (store, guarded) := check g store key headTs
          match guarded with
          | .error e => (store, .ok (.error (.guard key e)))
          | .ok _ => (store, .ok (.ok (value, some description)))
      else (store, .ok (.ok (value, some description)))
  else if bus then
    (store, .ok (.error (.refused (txt "context read at '" ++ key ++
      txt "': the owner served an unsealed value on the bus"))))
  else (store, .ok (.ok (stored, none)))

end

end AskFable.Bus
