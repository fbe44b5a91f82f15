import AskFable.Bus.RoundTrip
import AskFable.Bus.Reader

/-!
# Which exceptions leave the codec

For each entry point of the envelope codec, and for the callers that catch its errors as a
group, the exact inputs on which only a `CryptoError` can come out.
-/
namespace AskFable.Bus
open AskFable.Text AskFable.Python AskFable.Python.Bytes

@[simp] theorem closed_ok {α : Type*} (a : α) : Closed (.ok a) := fun _ h => by simp at h

@[simp] theorem closed_crypto {α : Type*} (e : CryptoError) :
    Closed (.error (.crypto e) : Except Raised α) := fun _ h => by simp at h

@[simp] theorem closed_fault {α : Type*} (f : Fault) :
    ¬Closed (.error (.fault f) : Except Raised α) := fun h => h f rfl

/-! ### Parsing -/

/-- The bytes behind a valid armor. -/
def Armored (s : Str) (env : Bytes) : Prop :=
  MAGIC <+: s ∧ b64decode (s.drop MAGIC.length) = some env

/-- A well-armored envelope of the right length whose writer bytes are no UTF-8. -/
def Undecodable (s : Str) : Prop :=
  ∃ env, Armored s env ∧ 4 + writerLength env + 8 + SALT_LEN + NONCE_LEN + TAG_LEN ≤ env.length ∧
    Utf8.decodePass (writerBytes env) = none

theorem dearmor_ok {s : Str} {env : Bytes} : dearmor s = .ok env ↔ Armored s env := by
  unfold dearmor Armored
  rw [← List.isPrefixOf_iff_prefix]
  split_ifs with hmagic
  · cases b64decode (s.drop MAGIC.length) <;> simp [hmagic]
  · simp [hmagic]

theorem dearmor_closed (s : Str) : Closed (dearmor s) := by
  unfold dearmor
  split_ifs
  · cases b64decode (s.drop MAGIC.length) <;> simp [corrupt]
  · simp [corrupt]

/-- `_parse` lets an exception through on the undecodable envelopes and on no others. -/
theorem parse_cases (s : Str) :
    (Undecodable s ∧ parse s = .error (.fault .UnicodeDecodeError)) ∨
      (¬Undecodable s ∧ Closed (parse s)) := by
  unfold parse
  cases hd : dearmor s with
  | error r =>
    refine .inr ⟨?_, ?_⟩
    · rintro ⟨env, harm, -⟩
      rw [dearmor_ok.mpr harm] at hd
      exact absurd hd (by simp)
    · intro f hf
      have hr : r = .fault f := Except.error.inj hf
      exact dearmor_closed s f (hd.trans (by rw [hr]))
  | ok env =>
    have hunique {env' : Bytes} (h : Armored s env') : env' = env :=
      Except.ok.inj ((dearmor_ok.mpr h).symm.trans hd)
    simp only [bind, Except.bind]
    split_ifs with hmin hfit
    · refine .inr ⟨?_, closed_crypto _⟩
      rintro ⟨env', harm, hlen, -⟩
      rw [hunique harm] at hlen
      unfold MIN_ENVELOPE at hmin
      omega
    · refine .inr ⟨?_, closed_crypto _⟩
      rintro ⟨env', harm, hlen, -⟩
      rw [hunique harm] at hlen
      omega
    · cases hw : Utf8.decodePass (writerBytes env) with
      | none => exact .inl ⟨⟨env, dearmor_ok.mp hd, by omega, hw⟩, rfl⟩
      | some writer =>
        refine .inr ⟨?_, closed_ok _⟩
        rintro ⟨env', harm, -, hnone⟩
        rw [hunique harm, hw] at hnone
        exact absurd hnone (by simp)

theorem parse_closed (s : Str) : Closed (parse s) ↔ ¬Undecodable s := by
  rcases parse_cases s with ⟨hu, hp⟩ | ⟨hu, hp⟩
  · simp [hp, hu]
  · simp [hp, hu]

/-- What a parsed header can be. -/
theorem parse_ok {s : Str} {e : Envelope} (h : parse s = .ok e) :
    (Utf8.encodePass e.writer).length ≤ WRITER_MAX ∧ e.tsNs < 256 ^ 8 := by
  unfold parse at h
  cases hd : dearmor s with
  | error r => simp [hd, bind, Except.bind] at h
  | ok env =>
    simp only [hd, bind, Except.bind] at h
    split_ifs at h with hmin hfit
    cases hw : Utf8.decodePass (writerBytes env) with
    | none => simp [hw] at h
    | some writer =>
      simp only [hw, Except.ok.injEq] at h
      subst h
      have hwlen : writerLength env < 256 ^ 2 := by
        refine (toNat_lt _).trans_le (Nat.pow_le_pow_right (by omega) ?_)
        simp
      have hbytes : (writerBytes env).length ≤ writerLength env := by
        simp [writerBytes]
      refine ⟨?_, ?_⟩
      · have hle : (Utf8.encodePass writer).length ≤ (writerBytes env).length :=
          (congrArg List.length (Utf8.encodePass_of_decode hw)).le
        show (Utf8.encodePass writer).length ≤ WRITER_MAX
        unfold WRITER_MAX
        omega
      · refine (toNat_lt _).trans_le (Nat.pow_le_pow_right (by omega) ?_)
        simp

theorem envelopeMeta_closed (s : Str) : Closed (envelopeMeta s) ↔ ¬Undecodable s := by
  rw [← parse_closed]
  unfold envelopeMeta
  cases parse s with
  | ok e => simp [bind, Except.bind, pure, Except.pure]
  | error r => cases r <;> simp [bind, Except.bind]

/-! ### Sealing -/

/-- The AEAD takes a plaintext and associated data of at most 2^31 - 1 bytes each. -/
structure Library.Bounded (lib : Library) : Prop where
  encrypts : ∀ k n p a, (lib.encrypt k n p a).isSome = true ↔ p.length < 2 ^ 31 ∧ a.length < 2 ^ 31

/-- What can be sealed, or is refused by the codec itself. -/
structure Sealable (v d keyName writer : Str) (ts : ℤ) : Prop where
  digits : (natStr ts.natAbs).length ≤ JsonText.MAX_INT_DIGITS
  text : v.any isSurrogate = false ∧ d.any isSurrogate = false
  plaintext : (Utf8.encodePass (blobText v d)).length < 2 ^ 31
  aad : 22 + (Utf8.encodePass keyName).length + (Utf8.encodePass writer).length +
    (intStr ts).length < 2 ^ 31
  header : WRITER_MAX < (Utf8.encodePass writer).length ∨ 0 ≤ ts ∧ ts < 2 ^ 64

theorem length_lp {b x : Bytes} (h : lp b = .ok x) : x.length = 4 + b.length := by
  obtain ⟨-, rfl⟩ := lp_ok h
  rw [List.length_append, length_ofNat]

theorem length_aad {ver kid : Byte} {keyName writer : Str} {ts : ℤ} {ad : Bytes}
    (h : aad ver kid keyName writer ts = .ok ad) :
    ad.length = 22 + (Utf8.encodePass keyName).length + (Utf8.encodePass writer).length +
      (intStr ts).length := by
  obtain ⟨a, b, c, d, e, ha, hb, hc, hd, he, rfl⟩ := aad_ok h
  have hlen : (asciiBytes (intStr ts)).length = (intStr ts).length := List.length_map _
  simp only [List.length_append, length_lp ha, length_lp hb, length_lp hc, length_lp hd,
    length_lp he, List.length_cons, List.length_nil, hlen]
  omega

theorem lp_fault (b : Bytes) :
    (b.length < 256 ^ 4 ∧ ∃ x, lp b = .ok x) ∨
      (256 ^ 4 ≤ b.length ∧ lp b = .error (.fault .OverflowError)) := by
  unfold lp
  by_cases h : b.length < 256 ^ 4
  · exact .inl ⟨h, _, if_pos h⟩
  · exact .inr ⟨by omega, if_neg h⟩

/-- The associated data exists, or a fault says which field does not fit. -/
theorem aad_cases (ver kid : Byte) (keyName writer : Str) (ts : ℤ) :
    ((natStr ts.natAbs).length ≤ JsonText.MAX_INT_DIGITS ∧
        ∃ ad, aad ver kid keyName writer ts = .ok ad) ∨
      ((∃ f, aad ver kid keyName writer ts = .error (.fault f)) ∧
        (256 ^ 4 ≤ (Utf8.encodePass keyName).length ∨ 256 ^ 4 ≤ (Utf8.encodePass writer).length ∨
          JsonText.MAX_INT_DIGITS < (natStr ts.natAbs).length ∨ 256 ^ 4 ≤ (intStr ts).length)) := by
  have hlen : (asciiBytes (intStr ts)).length = (intStr ts).length := List.length_map _
  simp only [aad, bind, Except.bind, lp_of_lt (b := [ver]) (by simp), lp_of_lt (b := [kid])
    (by simp)]
  rcases lp_fault (Utf8.encodePass keyName) with ⟨-, c, hc⟩ | ⟨hbig, hc⟩
  · rcases lp_fault (Utf8.encodePass writer) with ⟨-, d, hd⟩ | ⟨hbig, hd⟩
    · by_cases hdigits : JsonText.MAX_INT_DIGITS < (natStr ts.natAbs).length
      · refine .inr ⟨⟨.ValueError, ?_⟩, .inr (.inr (.inl hdigits))⟩
        simp only [hc, hd, strInt, if_pos hdigits]
      · rcases lp_fault (asciiBytes (intStr ts)) with ⟨-, e, he⟩ | ⟨hbig, he⟩
        · refine .inl ⟨by omega, ?_⟩
          simp only [hc, hd, strInt, if_neg hdigits, he]
          exact ⟨_, rfl⟩
        · refine .inr ⟨⟨.OverflowError, ?_⟩, .inr (.inr (.inr (hlen ▸ hbig)))⟩
          simp only [hc, hd, strInt, if_neg hdigits, he]
    · refine .inr ⟨⟨.OverflowError, ?_⟩, .inr (.inl hbig)⟩
      simp only [hc, hd]
  · refine .inr ⟨⟨.OverflowError, ?_⟩, .inl hbig⟩
    simp only [hc]

theorem encodeStrict_cases (s : Str) :
    (s.any isSurrogate = false ∧ encodeStrict s = .ok (Utf8.encodePass s)) ∨
      (s.any isSurrogate = true ∧ encodeStrict s = .error (.fault .UnicodeEncodeError)) := by
  unfold encodeStrict Utf8.encode
  by_cases h : s.any isSurrogate = true <;> simp [h]

theorem requireCrypto_cases (lib : Library) :
    (lib.available = true ∧ requireCrypto lib = .ok ()) ∨
      (lib.available = false ∧ ∃ e, requireCrypto lib = .error (.crypto e)) := by
  unfold requireCrypto
  cases lib.available with
  | true => exact .inl ⟨rfl, rfl⟩
  | false => exact .inr ⟨rfl, _, rfl⟩

theorem pack_closed (ver kid : Byte) (writer : Str) (ts : ℤ) (salt : Fixed SALT_LEN)
    (nonce : Fixed NONCE_LEN) (ct : Bytes) : Closed (pack ver kid writer ts salt nonce ct) ↔
      WRITER_MAX < (Utf8.encodePass writer).length ∨ 0 ≤ ts ∧ ts < 2 ^ 64 := by
  simp only [pack]
  split_ifs with hlong hrange
  · simp [hlong]
  · simp only [closed_fault, hlong, false_or, false_iff]
    omega
  · simp only [closed_ok, true_iff]
    omega

theorem sealRaw_closed {lib : Library} (hlib : lib.Bounded) (v d keyName writer : Str) (ts : ℤ)
    (kid : Byte) (psk : Bytes) (salt : Fixed SALT_LEN) (nonce : Fixed NONCE_LEN) :
    Closed (sealRaw lib v d keyName writer ts kid psk salt nonce) ↔
      (lib.available = true → Sealable v d keyName writer ts) := by
  unfold sealRaw
  simp only [bind, Except.bind]
  rcases requireCrypto_cases lib with ⟨hav, hreq⟩ | ⟨hav, e, hreq⟩
  swap
  · simp [hreq, hav]
  simp only [hreq, hav, true_imp_iff]
  rcases aad_cases VER kid keyName writer ts with ⟨hdigits, ad, had⟩ | ⟨⟨f, had⟩, hbig⟩
  swap
  · simp only [had, closed_fault, false_iff]
    rintro ⟨hdigits, -, -, haad, -⟩
    omega
  have hlen := length_aad had
  rcases encodeStrict_cases (blobText v d) with ⟨htext, henc⟩ | ⟨htext, henc⟩
  swap
  · simp only [had, henc, closed_fault, false_iff]
    rintro ⟨-, ⟨hv, hd⟩, -, -, -⟩
    rw [blobText_surrogate, hv, hd] at htext
    exact absurd htext (by simp)
  have htext' : v.any isSurrogate = false ∧ d.any isSurrogate = false := by
    rw [blobText_surrogate, Bool.or_eq_false_iff] at htext
    exact htext
  have hbounded := hlib.encrypts (lib.hkdf psk salt.1) nonce.1 (Utf8.encodePass (blobText v d)) ad
  simp only [had, henc]
  cases hct : lib.encrypt (lib.hkdf psk salt.1) nonce.1 (Utf8.encodePass (blobText v d)) ad with
  | none =>
    simp only [closed_fault, false_iff]
    rintro ⟨-, -, hplain, haad, -⟩
    rw [hct] at hbounded
    exact absurd (hbounded.mpr ⟨hplain, by omega⟩) (by simp)
  | some ct =>
    rw [hct] at hbounded
    obtain ⟨hplain, haad⟩ := hbounded.mp rfl
    have hpack : Closed (pack VER kid writer ts salt nonce ct) ↔
        Sealable v d keyName writer ts := by
      rw [pack_closed]
      exact ⟨fun h => ⟨hdigits, htext', hplain, by omega, h⟩, fun h => h.header⟩
    rw [← hpack]
    cases hp : pack VER kid writer ts salt nonce ct with
    | ok env => simp [hp, pure, Except.pure]
    | error r => cases r <;> simp [hp]

/-! ### Opening -/

section
variable [Host] {lib : Library}

theorem blobOf_closed (doc : Json) : Closed (blobOf doc) := by
  unfold blobOf
  split
  · split <;> simp [corrupt]
  · simp [corrupt]

theorem readBlob_closed (plaintext : Bytes) : Closed (readBlob plaintext) ↔
    ∀ text, Utf8.decode plaintext = some text → JsonText.loads text ≠ .error .recursion := by
  unfold readBlob
  cases hd : Utf8.decode plaintext with
  | none => simp [corrupt]
  | some text =>
    have hall : (∀ text', some text = some text' → JsonText.loads text' ≠ .error .recursion) ↔
        JsonText.loads text ≠ .error .recursion := by simp
    rw [hall]
    cases hl : JsonText.loads text with
    | error e => cases e <;> simp [hl, corrupt]
    | ok doc => simp [hl, blobOf_closed]

/-- A well-formed envelope of the known version under a key the ring holds. -/
def Addressed (s : Str) (kr : Keyring) (e : Envelope) (psk : Bytes) : Prop :=
  parse s = .ok e ∧ e.ver = VER ∧ kr.get e.kid = some psk

/-- The AEAD opens the envelope to these bytes. -/
def Opens (lib : Library) (s keyName : Str) (kr : Keyring) (plaintext : Bytes) : Prop :=
  ∃ e psk ad, Addressed s kr e psk ∧ aad e.ver e.kid keyName e.writer e.tsNs = .ok ad ∧
    lib.decrypt (lib.hkdf psk e.salt) e.nonce e.ct ad = some plaintext

/-- What can be opened, or is refused by the codec itself. -/
structure Openable (lib : Library) (s keyName : Str) (keyring : Except CryptoError Keyring) :
    Prop where
  header : ¬Undecodable s
  name : ∀ kr e psk, keyring = .ok kr → Addressed s kr e psk →
    (Utf8.encodePass keyName).length < 2 ^ 32
  nesting : ∀ kr plaintext text, keyring = .ok kr → Opens lib s keyName kr plaintext →
    Utf8.decode plaintext = some text → JsonText.loads text ≠ .error .recursion

/-- Where no key of the ring addresses the envelope nothing is left to refuse. -/
theorem openable_of_unaddressed {s keyName : Str} {keyring : Except CryptoError Keyring}
    (hheader : ¬Undecodable s)
    (hnone : ∀ kr e psk, keyring = .ok kr → ¬Addressed s kr e psk) :
    Openable lib s keyName keyring where
  header := hheader
  name kr e psk hkr h := absurd h (hnone kr e psk hkr)
  nesting kr _ _ hkr hopen := by
    obtain ⟨e, psk, _, h, -⟩ := hopen
    exact absurd h (hnone kr e psk hkr)

omit [Host] in
/-- There is one envelope in a text, and one way to open it. -/
theorem opens_addressed_iff {s keyName : Str} {kr : Keyring} {e : Envelope} {psk ad plaintext : Bytes}
    (h : Addressed s kr e psk) (had : aad VER e.kid keyName e.writer e.tsNs = .ok ad) :
    Opens lib s keyName kr plaintext ↔
      lib.decrypt (lib.hkdf psk e.salt) e.nonce e.ct ad = some plaintext := by
  obtain ⟨hparse, hver, hpsk⟩ := h
  constructor
  · rintro ⟨e', psk', ad', ⟨hparse', -, hpsk'⟩, had', hdec⟩
    obtain rfl := Except.ok.inj (hparse'.symm.trans hparse)
    obtain rfl := Option.some.inj (hpsk.symm.trans hpsk')
    rw [hver] at had'
    obtain rfl := Except.ok.inj (had.symm.trans had')
    exact hdec
  · exact fun hdec => ⟨e, psk, ad, ⟨hparse, hver, hpsk⟩, by rw [hver]; exact had, hdec⟩

/-- An addressed envelope whose data can be bound is openable when what it opens to is. -/
theorem openable_of_opened {s keyName : Str} {kr : Keyring} {e : Envelope} {psk ad : Bytes}
    (hheader : ¬Undecodable s) (h : Addressed s kr e psk)
    (had : aad VER e.kid keyName e.writer e.tsNs = .ok ad)
    (hnesting : ∀ plaintext text,
      lib.decrypt (lib.hkdf psk e.salt) e.nonce e.ct ad = some plaintext →
        Utf8.decode plaintext = some text → JsonText.loads text ≠ .error .recursion) :
    Openable lib s keyName (.ok kr) where
  header := hheader
  name _ _ _ _ _ := by
    obtain ⟨_, _, c, _, _, -, -, hc, -⟩ := aad_ok had
    exact (lp_ok hc).1
  nesting kr' plaintext text hkr hopen := by
    obtain rfl := Except.ok.inj hkr
    exact hnesting plaintext text ((opens_addressed_iff h had).mp hopen)

theorem unseal_closed (s keyName : Str) (keyring : Except CryptoError Keyring) :
    Closed («unseal» lib s keyName keyring) ↔
      (lib.available = true → Openable lib s keyName keyring) := by
  unfold «unseal»
  simp only [bind, Except.bind]
  rcases requireCrypto_cases lib with ⟨hav, hreq⟩ | ⟨hav, e, hreq⟩
  swap
  · simp [hreq, hav]
  simp only [hreq, hav, true_imp_iff]
  rcases parse_cases s with ⟨hu, hp⟩ | ⟨hu, hp⟩
  · simp only [hp, closed_fault, false_iff]
    exact fun h => h.header hu
  cases hparse : parse s with
  | error r =>
    cases r with
    | fault f => exact absurd hparse (hp f)
    | crypto e =>
      simp only [closed_crypto, true_iff]
      refine openable_of_unaddressed hu fun kr e psk _ h => ?_
      exact absurd (hparse.symm.trans h.1) (by simp)
  | ok e =>
    have haddressed {kr : Keyring} {e' : Envelope} {psk : Bytes} (h : Addressed s kr e' psk) :
        e' = e := Except.ok.inj (h.1.symm.trans hparse)
    simp only
    by_cases hver : e.ver = VER
    swap
    · simp only [ne_eq, hver, not_false_eq_true, if_true, corrupt, closed_crypto, true_iff]
      exact openable_of_unaddressed hu fun kr e' psk _ h => hver (haddressed h ▸ h.2.1)
    simp only [ne_eq, hver, not_true_eq_false, if_false]
    cases keyring with
    | error err =>
      simp only [closed_crypto, true_iff]
      exact openable_of_unaddressed hu fun _ _ _ hkr => nomatch hkr
    | ok kr =>
      cases hpsk : kr.get e.kid with
      | none =>
        simp only [hpsk, closed_crypto, true_iff]
        refine openable_of_unaddressed hu fun kr' e' psk hkr h => ?_
        obtain rfl := Except.ok.inj hkr
        exact absurd (hpsk.symm.trans (haddressed h ▸ h.2.2)) (by simp)
      | some psk =>
        have haddr : Addressed s kr e psk := ⟨hparse, hver, hpsk⟩
        rcases aad_cases VER e.kid keyName e.writer e.tsNs with ⟨-, ad, had⟩ | ⟨⟨f, had⟩, -⟩
        · simp only [hpsk, had]
          cases hdec : lib.decrypt (lib.hkdf psk e.salt) e.nonce e.ct ad with
          | none =>
            simp only [corrupt, closed_crypto, true_iff]
            refine openable_of_opened hu haddr had fun plaintext text hopened => ?_
            exact absurd (hdec.symm.trans hopened) (by simp)
          | some plaintext =>
            simp only [readBlob_closed]
            refine ⟨fun h => openable_of_opened hu haddr had fun bs text hopened => ?_,
              fun h text => h.nesting kr plaintext text rfl ((opens_addressed_iff haddr had).mpr hdec)⟩
            obtain rfl := Option.some.inj (hdec.symm.trans hopened)
            exact h text
        · simp only [hpsk, had, closed_fault, false_iff]
          intro h
          obtain ⟨hw, hts⟩ := parse_ok hparse
          obtain ⟨ad, had'⟩ := aad_exists VER e.kid (h.name kr e psk rfl haddr) hw hts
          rw [had] at had'
          exact absurd had' (by simp)

/-! ### The callers -/

omit [Host] in
/-- A malformed envelope is answered with 400, unless its header kills the handler. -/
theorem headerOf_malformed {envelope : Str} (h : ∀ e, parse envelope ≠ .ok e) :
    (Undecodable envelope ∧ headerOf envelope = .error (.died .UnicodeDecodeError)) ∨
      (¬Undecodable envelope ∧ ∃ text, headerOf envelope = refuse 400 text) := by
  unfold headerOf envelopeMeta
  rcases parse_cases envelope with ⟨hu, hp⟩ | ⟨hu, hp⟩
  · exact .inl ⟨hu, by rw [hp]; rfl⟩
  · refine .inr ⟨hu, ?_⟩
    cases hparse : parse envelope with
    | ok e => exact absurd hparse (h e)
    | error r =>
      cases r with
      | crypto e => exact ⟨_, rfl⟩
      | fault f => exact absurd hparse (hp f)

theorem put_malformed (st : Daemon) (maxRows : ℕ) (payload : Dict) (ifMatch : Option Str)
    (now received : ℤ) (h : ∀ e, parse (Dict.text payload (txt "envelope")) ≠ .ok e) :
    (∃ text, (st.put maxRows payload ifMatch now received).2 = .ok (.reject 400 text)) ↔
      (strip (Dict.text payload (txt "key")) = [] ∨
        ¬Undecodable (Dict.text payload (txt "envelope"))) := by
  have hempty (hnil : Dict.text payload (txt "envelope") = []) :
      ¬Undecodable (Dict.text payload (txt "envelope")) := by
    rintro ⟨env, ⟨hmagic, -⟩, -⟩
    rw [hnil, List.prefix_nil] at hmagic
    exact absurd hmagic (by decide)
  by_cases hreq : strip (Dict.text payload (txt "key")) = [] ∨
      Dict.text payload (txt "envelope") = []
  · have hput : putRequest payload ifMatch now received =
        refuse 400 (txt "key and envelope are required") := by
      unfold putRequest
      exact if_pos hreq
    rw [Daemon.put, hput]
    exact iff_of_true ⟨_, rfl⟩ (hreq.imp_right hempty)
  · have hkey : strip (Dict.text payload (txt "key")) ≠ [] := fun hk => hreq (.inl hk)
    have hput {e : Stop} (he : headerOf (Dict.text payload (txt "envelope")) = .error e) :
        putRequest payload ifMatch now received = .error e := by
      simp only [putRequest, if_neg hreq, he, bind, Except.bind]
    rcases headerOf_malformed h with ⟨hu, hh⟩ | ⟨hu, text, hh⟩
    · rw [Daemon.put, hput hh]
      refine iff_of_false (fun ⟨text, htext⟩ => ?_) (by simp [hkey, hu])
      exact absurd htext (by simp)
    · rw [Daemon.put, hput hh]
      exact iff_of_true ⟨text, rfl⟩ (.inr hu)

theorem checkMeta_closed (key envelope writer : Str) (ts : ℤ) :
    (∀ f, checkMeta key envelope writer ts ≠ .error f) ↔ ¬Undecodable envelope := by
  rw [← envelopeMeta_closed]
  unfold checkMeta
  cases hm : envelopeMeta envelope with
  | error r => cases r <;> simp
  | ok m =>
    obtain ⟨ver, kid, headWriter, headTs⟩ := m
    simp only [closed_ok, iff_true]
    split_ifs <;> simp

/-- What opens has a header that decodes. -/
theorem unseal_ok {s keyName : Str} {keyring : Except CryptoError Keyring} {p : Str × Str}
    (h : «unseal» lib s keyName keyring = .ok p) : ¬Undecodable s := by
  have hclosed : Closed («unseal» lib s keyName keyring) := h ▸ closed_ok p
  rcases requireCrypto_cases lib with ⟨hav, -⟩ | ⟨-, e, hreq⟩
  · exact ((unseal_closed s keyName keyring).mp hclosed hav).header
  · simp [«unseal», hreq, bind, Except.bind] at h

/-- A read of a stored value fails only as the codec does. -/
theorem readable_closed (bus : Bool) (g : Guard) (store : Option Marks)
    (keyring : Except CryptoError Keyring) (stored key : Str) :
    Closed (readable lib bus g store keyring stored key).2 ↔
      (isSealed stored = true → ∀ kr, keyring = .ok kr → lib.available = true →
        Openable lib stored key (.ok kr)) := by
  unfold readable
  by_cases hsealed : isSealed stored = true
  swap
  · simp only [hsealed, Bool.false_eq_true, if_false, false_imp_iff, iff_true]
    split_ifs <;> simp
  simp only [hsealed, if_true, true_imp_iff]
  cases keyring with
  | error e => simp
  | ok kr =>
    have hring : (∀ kr', (.ok kr : Except CryptoError Keyring) = .ok kr' → lib.available = true →
        Openable lib stored key (.ok kr')) ↔ Closed («unseal» lib stored key (.ok kr)) := by
      rw [unseal_closed]
      simp
    rw [hring]
    cases hopen : «unseal» lib stored key (.ok kr) with
    | error r => cases r <;> simp [hopen]
    | ok p =>
      have hmeta : Closed (envelopeMeta stored) :=
        (envelopeMeta_closed stored).mpr (unseal_ok hopen)
      simp only [hopen, closed_ok, iff_true]
      cases bus with
      | false => exact closed_ok _
      | true =>
        cases hm : envelopeMeta stored with
        | error r =>
          cases r with
          | fault f => exact absurd hm (hmeta f)
          | crypto e => exact closed_crypto e
        | ok m =>
          simp only [if_true]
          split <;> exact closed_ok _

/-- The inputs on which the codec and its callers keep to `CryptoError`. -/
theorem codec_closed (hlib : lib.Bounded) :
    (∀ s, Closed (envelopeMeta s) ↔ ¬Undecodable s) ∧
    (∀ (v d keyName writer : Str) (ts : ℤ) (kid : Byte) (psk : Bytes) (salt : Fixed SALT_LEN)
        (nonce : Fixed NONCE_LEN),
      Closed (sealRaw lib v d keyName writer ts kid psk salt nonce) ↔
        (lib.available = true → Sealable v d keyName writer ts)) ∧
    (∀ s keyName keyring, Closed («unseal» lib s keyName keyring) ↔
      (lib.available = true → Openable lib s keyName keyring)) ∧
    (∀ (st : Daemon) (maxRows : ℕ) (payload : Dict) (ifMatch : Option Str) (now received : ℤ),
      (∀ e, parse (Dict.text payload (txt "envelope")) ≠ .ok e) →
      ((∃ text, (st.put maxRows payload ifMatch now received).2 = .ok (.reject 400 text)) ↔
        (strip (Dict.text payload (txt "key")) = [] ∨
          ¬Undecodable (Dict.text payload (txt "envelope"))))) ∧
    (∀ key envelope writer ts,
      (∀ f, checkMeta key envelope writer ts ≠ .error f) ↔ ¬Undecodable envelope) ∧
    ∀ bus g store keyring stored key,
      Closed (readable lib bus g store keyring stored key).2 ↔
        (isSealed stored = true → ∀ kr, keyring = .ok kr → lib.available = true →
          Openable lib stored key (.ok kr)) :=
  ⟨envelopeMeta_closed, sealRaw_closed hlib, unseal_closed, put_malformed, checkMeta_closed,
    readable_closed⟩

end

/-- The transparent cipher with the AEAD's size limit. -/
def Library.limited : Library :=
  { Library.clear with
    encrypt := fun k n p a =>
      if p.length < 2 ^ 31 ∧ a.length < 2 ^ 31 then Library.clear.encrypt k n p a else none }

theorem Library.limited_bounded : Library.limited.Bounded where
  encrypts k n p a := by
    by_cases h : p.length < 2 ^ 31 ∧ a.length < 2 ^ 31
    · have hsome : Library.limited.encrypt k n p a = Library.clear.encrypt k n p a := if_pos h
      exact iff_of_true (hsome ▸ rfl) h
    · have hnone : Library.limited.encrypt k n p a = none := if_neg h
      exact iff_of_false (by simp [hnone]) h

theorem codec_closed_limited :
    letI := Host.ascii
    Closed (sealRaw Library.limited (txt "v") (txt "d") (txt "k") (txt "w") 5 1 (zeros KEY_LEN).1
      (zeros SALT_LEN) (zeros NONCE_LEN)) := by
  let _ := Host.ascii
  refine ((codec_closed Library.limited_bounded).2.1 _ _ _ _ _ _ _ _ _).mpr fun _ => ?_
  exact ⟨by decide, by decide, by decide, by decide, .inr (by decide)⟩

/-- An envelope whose writer is the byte 0xFF. -/
def badWriter : Str :=
  MAGIC ++ b64encode (layout VER 1 [255] 0 (zeros SALT_LEN).1 (zeros NONCE_LEN).1 (zeros TAG_LEN).1)

/-- Its header is malformed, yet no `CryptoError` says so and the daemon does not answer. -/
theorem bad_writer_escapes :
    letI := Host.ascii
    (∀ e, parse badWriter ≠ .ok e) ∧ ¬Closed (envelopeMeta badWriter) ∧
      (Daemon.put ⟨.empty, 0⟩ 0 [(txt "key", .str (txt "k")), (txt "envelope", .str badWriter)]
        none 0 0).2 = .error .UnicodeDecodeError := by
  let _ := Host.ascii
  have hparse : parse badWriter = .error (.fault .UnicodeDecodeError) :=
    parse_layout VER 1 (by decide) (by decide) (zeros SALT_LEN).2 (zeros NONCE_LEN).2
      (zeros TAG_LEN).2.ge
  have hmeta : envelopeMeta badWriter = .error (.fault .UnicodeDecodeError) := by
    rw [envelopeMeta, hparse]
    rfl
  have hkey : Dict.text [(txt "key", .str (txt "k")), (txt "envelope", .str badWriter)]
      (txt "key") = txt "k" := by decide
  have henv : Dict.text [(txt "key", .str (txt "k")), (txt "envelope", .str badWriter)]
      (txt "envelope") = badWriter := by
    have hne : txt "key" ≠ txt "envelope" := by decide
    have hcons : badWriter ≠ [] := by simp [badWriter, MAGIC, txt]
    cases hw : badWriter with
    | nil => exact absurd hw hcons
    | cons c w => simp [Dict.text, Dict.getOr, Dict.get, hne, Json.truthy, Json.pyStr]
  have hreq : ¬(strip (txt "k") = [] ∨ badWriter = []) := by
    rintro (h | h)
    · exact absurd h (by decide)
    · simp [badWriter, MAGIC, txt] at h
  refine ⟨fun e he => ?_, fun h => h _ hmeta, ?_⟩
  · rw [hparse] at he
    exact absurd he (by simp)
  · have hput : putRequest [(txt "key", .str (txt "k")), (txt "envelope", .str badWriter)] none 0
        0 = .error (.died .UnicodeDecodeError) := by
      simp only [putRequest, hkey, henv, if_neg hreq, headerOf, hmeta, bind, Except.bind]
    rw [Daemon.put, hput]

end AskFable.Bus
