import AskFable.Python.Utf8
import AskFable.Python.JsonText

/-!
# The envelope codec

Sealing and opening a context blob, with every exception a call can end in: one of the
codec's own errors, which callers catch as a group, or a fault of the language that
passes them by. The AEAD and the key derivation are third-party and enter as a
parameter.
-/
namespace AskFable.Bus
open AskFable.Text AskFable.Python AskFable.Python.Bytes

def MAGIC : Str := txt "afctx1:"
def VER : Byte := 1
def SALT_LEN : ℕ := 16
def NONCE_LEN : ℕ := 12
def KEY_LEN : ℕ := 32
def TAG_LEN : ℕ := 16
def WRITER_MAX : ℕ := 0xFFFF
def MIN_ENVELOPE : ℕ := 1 + 1 + 2 + 8 + SALT_LEN + NONCE_LEN + TAG_LEN

/-- The subclasses of `CryptoError`. -/
inductive CryptoKind
  | CryptoUnavailable
  | KeyringError
  | SealedError
  | UnknownKidError
  | CorruptEnvelopeError
  deriving DecidableEq, Repr

structure CryptoError where
  kind : CryptoKind
  detail : Str
  deriving DecidableEq

/-- Exceptions that are no `CryptoError`. -/
inductive Fault
  | UnicodeDecodeError
  | UnicodeEncodeError
  | OverflowError
  | ValueError
  | RecursionError
  deriving DecidableEq, Repr

inductive Raised
  | crypto (e : CryptoError)
  | fault (f : Fault)
  deriving DecidableEq

def corrupt (detail : Str) : Raised := .crypto ⟨.CorruptEnvelopeError, detail⟩

/-- The call returned or raised a `CryptoError`. -/
def Closed {α : Type*} (r : Except Raised α) : Prop := ∀ f, r ≠ .error (.fault f)

/-- The `cryptography` package: whether it can be imported, ChaCha20-Poly1305 by key,
nonce, text and associated data, and HKDF-SHA256 by key and salt. Encryption gives no
result when it raises on oversized input, decryption when it raises at all. -/
structure Library where
  available : Bool
  encrypt : Bytes → Bytes → Bytes → Bytes → Option Bytes
  decrypt : Bytes → Bytes → Bytes → Bytes → Option Bytes
  hkdf : Bytes → Bytes → Bytes

/-- A keyring as `load_keyring` returns it. -/
structure Keyring where
  entries : List (Byte × Bytes)
  nonempty : entries ≠ []
  kids : (entries.map Prod.fst).Nodup
  psk : ∀ e ∈ entries, e.2.length = KEY_LEN

def Keyring.active (kr : Keyring) : Byte × Bytes := kr.entries.head kr.nonempty

def Keyring.get (kr : Keyring) (kid : Byte) : Option Bytes :=
  (kr.entries.find? fun e => e.1 == kid).map Prod.snd

/-- Bytes of a fixed length, as `os.urandom` returns them. -/
abbrev Fixed (n : ℕ) := { b : Bytes // b.length = n }

/-! ### Framing -/

/-- `_lp`: the length in four bytes, then the bytes. -/
def lp (b : Bytes) : Except Raised Bytes :=
  if b.length < 256 ^ 4 then .ok (ofNat 4 b.length ++ b) else .error (.fault .OverflowError)

/-- `str(n)` of an integer, refused past the interpreter's digit limit. -/
def strInt (n : ℤ) : Except Raised Str :=
  if JsonText.MAX_INT_DIGITS < (natStr n.natAbs).length then .error (.fault .ValueError)
  else .ok (intStr n)

def asciiBytes (s : Str) : Bytes := s.map fun c => byte c.val

/-- `_aad`. -/
def aad (ver kid : Byte) (keyName writer : Str) (tsNs : ℤ) : Except Raised Bytes := do
  let a ← lp [ver]
  let b ← lp [kid]
  let c ← lp (Utf8.encodePass keyName)
  let d ← lp (Utf8.encodePass writer)
  let ts ← strInt tsNs
  let e ← lp (asciiBytes ts)
  return a ++ b ++ c ++ d ++ e

/-- The envelope's bytes for header fields that fit. -/
def layout (ver kid : Byte) (w : Bytes) (ts : ℕ) (salt nonce ct : Bytes) : Bytes :=
  [ver, kid] ++ ofNat 2 w.length ++ w ++ ofNat 8 ts ++ salt ++ nonce ++ ct

/-- `_pack`. -/
def pack (ver kid : Byte) (writer : Str) (tsNs : ℤ) (salt : Fixed SALT_LEN)
    (nonce : Fixed NONCE_LEN) (ct : Bytes) : Except Raised Bytes :=
  let w := Utf8.encodePass writer
  if WRITER_MAX < w.length then
    .error (.crypto ⟨.SealedError, txt "writer id too long for the envelope header"⟩)
  else if tsNs < 0 ∨ 256 ^ 8 ≤ tsNs then .error (.fault .OverflowError)
  else .ok (layout ver kid w tsNs.toNat salt.1 nonce.1 ct)

structure Envelope where
  ver : Byte
  kid : Byte
  writer : Str
  tsNs : ℕ
  salt : Bytes
  nonce : Bytes
  ct : Bytes
  deriving DecidableEq

/-- The fields of an unarmored envelope that is long enough for its writer. -/
def fields (env : Bytes) (wlen : ℕ) (writer : Str) : Envelope :=
  let rest := env.drop (4 + wlen)
  { ver := env.getD 0 0
    kid := env.getD 1 0
    writer
    tsNs := toNat (rest.take 8)
    salt := (rest.drop 8).take SALT_LEN
    nonce := (rest.drop (8 + SALT_LEN)).take NONCE_LEN
    ct := rest.drop (8 + SALT_LEN + NONCE_LEN) }

def writerLength (env : Bytes) : ℕ := toNat ((env.drop 2).take 2)

def writerBytes (env : Bytes) : Bytes := (env.drop 4).take (writerLength env)

/-- The unarmored bytes, or why the armor is refused. -/
def dearmor (armored : Str) : Except Raised Bytes :=
  if MAGIC.isPrefixOf armored then
    match b64decode (armored.drop MAGIC.length) with
    | some env => .ok env
    | none => .error (corrupt (txt "armor is not valid base64"))
  else .error (corrupt (txt "missing afctx1: armor"))

/-- `_parse` of a string. -/
def parse (armored : Str) : Except Raised Envelope := do
  let env ← dearmor armored
  if env.length < MIN_ENVELOPE then .error (corrupt (txt "envelope is too short"))
  else if env.length < 4 + writerLength env + 8 + SALT_LEN + NONCE_LEN + TAG_LEN then
    .error (corrupt (txt "envelope is truncated"))
  else
    match Utf8.decodePass (writerBytes env) with
    -- nothing here catches the decoder's error
    | none => .error (.fault .UnicodeDecodeError)
    | some writer => .ok (fields env (writerLength env) writer)

def isSealed (value : Str) : Bool :=
  match dearmor value with
  | .ok env => decide (MIN_ENVELOPE ≤ env.length) && env.getD 0 0 == VER
  | .error _ => false

def envelopeMeta (armored : Str) : Except Raised (Byte × Byte × Str × ℕ) := do
  let e ← parse armored
  return (e.ver, e.kid, e.writer, e.tsNs)

/-! ### Sealing and opening -/

section
variable (lib : Library)

def requireCrypto : Except Raised Unit :=
  if lib.available then .ok ()
  else .error (.crypto ⟨.CryptoUnavailable,
    txt "the 'cryptography' package is required for LAN context blobs; install ask-fable[lan]"⟩)

/-- `json.dumps({"v": value, "d": description}, ensure_ascii=False)`. -/
def blobText (value description : Str) : Str :=
  txt "\x7b\"v\": " ++ JsonText.dumpStr value ++ txt ", \"d\": " ++ JsonText.dumpStr description ++
    txt "\x7d"

/-- `.encode("utf-8")`. -/
def encodeStrict (s : Str) : Except Raised Bytes :=
  match Utf8.encode s with
  | some b => .ok b
  | none => .error (.fault .UnicodeEncodeError)

def sealRaw (value description keyName writer : Str) (tsNs : ℤ) (kid : Byte) (psk : Bytes)
    (salt : Fixed SALT_LEN) (nonce : Fixed NONCE_LEN) : Except Raised Str := do
  requireCrypto lib
  let ad ← aad VER kid keyName writer tsNs
  let dk := lib.hkdf psk salt.1
  let plaintext ← encodeStrict (blobText value description)
  match lib.encrypt dk nonce.1 plaintext ad with
  | none => .error (.fault .OverflowError)
  | some ct =>
    let env ← pack VER kid writer tsNs salt nonce ct
    return MAGIC ++ b64encode env

/-- `seal` with the salt and nonce it drew. -/
def «seal» (value description keyName writer : Str) (tsNs : ℤ)
    (keyring : Except CryptoError Keyring) (salt : Fixed SALT_LEN) (nonce : Fixed NONCE_LEN) :
    Except Raised Str :=
  match keyring with
  | .error e => .error (.crypto e)
  | .ok kr => sealRaw lib value description keyName writer tsNs kr.active.1 kr.active.2 salt nonce

variable [Host]

/-- The value and the description of a blob's document. -/
def blobOf (doc : Json) : Except Raised (Str × Str) :=
  match doc with
  | .obj items =>
    match Dict.get items (txt "v") with
    | some (.str v) => .ok (v, Dict.text items (txt "d"))
    | _ => .error (corrupt (txt "sealed plaintext has an unexpected shape"))
  | _ => .error (corrupt (txt "sealed plaintext has an unexpected shape"))

/-- The opened blob, read back. -/
def readBlob (plaintext : Bytes) : Except Raised (Str × Str) :=
  match Utf8.decode plaintext with
  | none => .error (corrupt (txt "sealed plaintext is not valid JSON"))
  | some text =>
    match JsonText.loads text with
    | .error .value | .error .digits =>
      .error (corrupt (txt "sealed plaintext is not valid JSON"))
    | .error .recursion => .error (.fault .RecursionError)
    | .ok doc => blobOf doc

/-- `unseal`; `keyring` is the one given, or what `load_keyring` returned or raised. -/
def «unseal» (armored keyName : Str) (keyring : Except CryptoError Keyring) :
    Except Raised (Str × Str) := do
  requireCrypto lib
  let e ← parse armored
  if e.ver ≠ VER then
    .error (corrupt (txt "unsupported envelope version " ++ natStr e.ver.val))
  else
    match keyring with
    | .error err => .error (.crypto err)
    | .ok kr =>
      match kr.get e.kid with
      | none => .error (.crypto ⟨.UnknownKidError,
          txt "envelope kid " ++ natStr e.kid.val ++ txt " is not in the keyring"⟩)
      | some psk =>
        let ad ← aad e.ver e.kid keyName e.writer e.tsNs
        match lib.decrypt (lib.hkdf psk e.salt) e.nonce e.ct ad with
        | none =>
          .error (corrupt (txt "authentication failed (wrong key, key name, or tampering)"))
        | some plaintext => readBlob plaintext

end

end AskFable.Bus
