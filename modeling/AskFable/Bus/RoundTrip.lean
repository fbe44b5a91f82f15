import AskFable.Bus.Crypto
import AskFable.General.Fallible

/-!
# The envelope format and its binding

`_parse` undoes the armor and the packing for every header that fits; the associated
data determines the header and the storage key; and an ideal AEAD makes of these two
that a sealed blob opens to what was sealed, and under no other name or header.
-/
namespace AskFable.Bus
open AskFable.Text AskFable.Python AskFable.Python.Bytes AskFable.Fallible

/-! ### The format -/

theorem layout_eq (ver kid : Byte) (w : Bytes) (ts : ℕ) (salt nonce ct : Bytes) :
    layout ver kid w ts salt nonce ct =
      ver :: kid :: (ofNat 2 w.length ++ (w ++ (ofNat 8 ts ++ (salt ++ (nonce ++ ct))))) := by
  simp [layout]

theorem dearmor_armor (env : Bytes) : dearmor (MAGIC ++ b64encode env) = .ok env := by
  have hpre : MAGIC.isPrefixOf (MAGIC ++ b64encode env) = true := by
    rw [List.isPrefixOf_iff_prefix]
    exact List.prefix_append _ _
  rw [dearmor, if_pos hpre, List.drop_left, b64decode_b64encode]

section
variable {ver kid : Byte} {w : Bytes} {ts : ℕ} {salt nonce ct : Bytes}

theorem writerLength_layout (hw : w.length ≤ WRITER_MAX) :
    writerLength (layout ver kid w ts salt nonce ct) = w.length := by
  have htake : ((layout ver kid w ts salt nonce ct).drop 2).take 2 = ofNat 2 w.length := by
    rw [layout_eq]
    exact List.take_left' (length_ofNat 2 _)
  rw [writerLength, htake]
  refine toNat_ofNat ?_
  unfold WRITER_MAX at hw
  omega

theorem drop_layout : (layout ver kid w ts salt nonce ct).drop 4 =
    w ++ (ofNat 8 ts ++ (salt ++ (nonce ++ ct))) := by
  rw [layout_eq]
  exact List.drop_left' (length_ofNat 2 _)

theorem writerBytes_layout (hw : w.length ≤ WRITER_MAX) :
    writerBytes (layout ver kid w ts salt nonce ct) = w := by
  rw [writerBytes, writerLength_layout hw, drop_layout]
  exact List.take_left

theorem length_layout (hsalt : salt.length = SALT_LEN) (hnonce : nonce.length = NONCE_LEN) :
    (layout ver kid w ts salt nonce ct).length =
      4 + w.length + 8 + SALT_LEN + NONCE_LEN + ct.length := by
  simp only [layout_eq, List.length_cons, List.length_append, length_ofNat, hsalt, hnonce]
  omega

theorem fields_layout (hts : ts < 256 ^ 8) (hsalt : salt.length = SALT_LEN)
    (hnonce : nonce.length = NONCE_LEN) (writer : Str) :
    fields (layout ver kid w ts salt nonce ct) w.length writer =
      ⟨ver, kid, writer, ts, salt, nonce, ct⟩ := by
  have hrest : (layout ver kid w ts salt nonce ct).drop (4 + w.length) =
      ofNat 8 ts ++ (salt ++ (nonce ++ ct)) := by
    rw [← List.drop_drop, drop_layout]
    exact List.drop_left
  have hsalted : (ofNat 8 ts ++ (salt ++ (nonce ++ ct))).drop 8 = salt ++ (nonce ++ ct) :=
    List.drop_left' (length_ofNat 8 _)
  have hnonced : (ofNat 8 ts ++ (salt ++ (nonce ++ ct))).drop (8 + SALT_LEN) = nonce ++ ct := by
    rw [← List.drop_drop, hsalted]
    exact List.drop_left' hsalt
  have hct : (ofNat 8 ts ++ (salt ++ (nonce ++ ct))).drop (8 + SALT_LEN + NONCE_LEN) = ct := by
    rw [← List.drop_drop, hnonced]
    exact List.drop_left' hnonce
  have htake : (ofNat 8 ts ++ (salt ++ (nonce ++ ct))).take 8 = ofNat 8 ts :=
    List.take_left' (length_ofNat 8 _)
  have htake' : (salt ++ (nonce ++ ct)).take SALT_LEN = salt := List.take_left' hsalt
  have htake'' : (nonce ++ ct).take NONCE_LEN = nonce := List.take_left' hnonce
  have hver : (layout ver kid w ts salt nonce ct).getD 0 0 = ver := by rw [layout_eq]; rfl
  have hkid : (layout ver kid w ts salt nonce ct).getD 1 0 = kid := by rw [layout_eq]; rfl
  simp only [fields, hrest, hsalted, hnonced, hct, htake, htake', htake'', hver, hkid,
    toNat_ofNat hts]

end

/-- An armored layout is parsed down to its writer's bytes. -/
theorem parse_layout (ver kid : Byte) {w : Bytes} {ts : ℕ} {salt nonce ct : Bytes}
    (hw : w.length ≤ WRITER_MAX) (hts : ts < 256 ^ 8) (hsalt : salt.length = SALT_LEN)
    (hnonce : nonce.length = NONCE_LEN) (hct : TAG_LEN ≤ ct.length) :
    parse (MAGIC ++ b64encode (layout ver kid w ts salt nonce ct)) =
      match Utf8.decodePass w with
      | none => .error (.fault .UnicodeDecodeError)
      | some writer => .ok ⟨ver, kid, writer, ts, salt, nonce, ct⟩ := by
  have hlen : (layout ver kid w ts salt nonce ct).length =
      4 + w.length + 8 + SALT_LEN + NONCE_LEN + ct.length := length_layout hsalt hnonce
  have hmin : ¬(layout ver kid w ts salt nonce ct).length < MIN_ENVELOPE := by
    unfold MIN_ENVELOPE
    omega
  have hfit : ¬(layout ver kid w ts salt nonce ct).length <
      4 + w.length + 8 + SALT_LEN + NONCE_LEN + TAG_LEN := by omega
  cases hwriter : Utf8.decodePass w <;>
    simp only [parse, dearmor_armor, bind, Except.bind, writerLength_layout hw, if_neg hmin,
      if_neg hfit, writerBytes_layout hw, fields_layout hts hsalt hnonce, hwriter]

/-- `_parse` is a left inverse of packing and armoring. -/
theorem parse_armor (ver kid : Byte) {writer : Str} {ts : ℕ} {salt nonce ct : Bytes}
    (hw : (Utf8.encodePass writer).length ≤ WRITER_MAX) (hts : ts < 256 ^ 8)
    (hsalt : salt.length = SALT_LEN) (hnonce : nonce.length = NONCE_LEN)
    (hct : TAG_LEN ≤ ct.length) :
    parse (MAGIC ++ b64encode (layout ver kid (Utf8.encodePass writer) ts salt nonce ct)) =
      .ok ⟨ver, kid, writer, ts, salt, nonce, ct⟩ := by
  rw [parse_layout ver kid hw hts hsalt hnonce hct, Utf8.decodePass_encodePass]

/-! ### The associated data -/

theorem lp_ok {b x : Bytes} (h : lp b = .ok x) :
    b.length < 256 ^ 4 ∧ x = ofNat 4 b.length ++ b := by
  unfold lp at h
  split_ifs at h with hlt
  exact ⟨hlt, (Except.ok.inj h).symm⟩

/-- A framed field can be read off the front. -/
theorem lp_append_inj {b b' x x' r r' : Bytes} (h : lp b = .ok x) (h' : lp b' = .ok x')
    (heq : x ++ r = x' ++ r') : b = b' ∧ r = r' := by
  obtain ⟨hlt, rfl⟩ := lp_ok h
  obtain ⟨hlt', rfl⟩ := lp_ok h'
  rw [List.append_assoc, List.append_assoc] at heq
  have hsplit := List.append_inj heq (by rw [length_ofNat, length_ofNat])
  have hlen : b.length = b'.length := by
    rw [← toNat_ofNat hlt, hsplit.1, toNat_ofNat hlt']
  exact List.append_inj hsplit.2 hlen

theorem asciiBytes_intStr_injective {m n : ℤ} (h : asciiBytes (intStr m) = asciiBytes (intStr n)) :
    m = n := by
  apply intStr_injective
  refine List.ext_getElem ?_ fun i hi hi' => ?_
  · have := congrArg List.length h
    simpa only [asciiBytes, List.length_map] using this
  · have hi1 := intStr_ascii m _ (List.getElem_mem hi)
    have hi2 := intStr_ascii n _ (List.getElem_mem hi')
    have hbyte : byte (intStr m)[i].val = byte (intStr n)[i].val := by
      have := congrArg (fun bs => bs[i]?) h
      simpa [asciiBytes, hi, hi'] using this
    have hval := congrArg Fin.val hbyte
    rw [byte_val, byte_val] at hval
    exact Fin.ext (by omega)

theorem strInt_ok {n : ℤ} {s : Str} (h : strInt n = .ok s) : s = intStr n := by
  unfold strInt at h
  split_ifs at h
  exact (Except.ok.inj h).symm

/-- The five framed fields behind an associated data. -/
theorem aad_ok {ver kid : Byte} {keyName writer : Str} {tsNs : ℤ} {ad : Bytes}
    (h : aad ver kid keyName writer tsNs = .ok ad) :
    ∃ a b c d e, lp [ver] = .ok a ∧ lp [kid] = .ok b ∧ lp (Utf8.encodePass keyName) = .ok c ∧
      lp (Utf8.encodePass writer) = .ok d ∧ lp (asciiBytes (intStr tsNs)) = .ok e ∧
      ad = a ++ (b ++ (c ++ (d ++ (e ++ [])))) := by
  obtain ⟨a, ha, h⟩ := of_bind_ok h
  obtain ⟨b, hb, h⟩ := of_bind_ok h
  obtain ⟨c, hc, h⟩ := of_bind_ok h
  obtain ⟨d, hd, h⟩ := of_bind_ok h
  obtain ⟨ts, hts, h⟩ := of_bind_ok h
  obtain ⟨e, he, h⟩ := of_bind_ok h
  rw [strInt_ok hts] at he
  exact ⟨a, b, c, d, e, ha, hb, hc, hd, he, by simpa using (Except.ok.inj h).symm⟩

/-- Header and key name are determined by the associated data. -/
theorem aad_injective {ver kid ver' kid' : Byte} {keyName writer keyName' writer' : Str}
    {tsNs tsNs' : ℤ} {ad : Bytes} (h : aad ver kid keyName writer tsNs = .ok ad)
    (h' : aad ver' kid' keyName' writer' tsNs' = .ok ad) :
    ver = ver' ∧ kid = kid' ∧ keyName = keyName' ∧ writer = writer' ∧ tsNs = tsNs' := by
  obtain ⟨a, b, c, d, e, ha, hb, hc, hd, he, rfl⟩ := aad_ok h
  obtain ⟨a', b', c', d', e', ha', hb', hc', hd', he', heq⟩ := aad_ok h'
  obtain ⟨hver, heq⟩ := lp_append_inj ha ha' heq
  obtain ⟨hkid, heq⟩ := lp_append_inj hb hb' heq
  obtain ⟨hkey, heq⟩ := lp_append_inj hc hc' heq
  obtain ⟨hwriter, heq⟩ := lp_append_inj hd hd' heq
  obtain ⟨hts, -⟩ := lp_append_inj he he' heq
  exact ⟨(List.cons.inj hver).1, (List.cons.inj hkid).1, Utf8.encodePass_injective hkey,
    Utf8.encodePass_injective hwriter, asciiBytes_intStr_injective hts⟩

theorem lp_of_lt {b : Bytes} (h : b.length < 256 ^ 4) : lp b = .ok (ofNat 4 b.length ++ b) := by
  rw [lp, if_pos h]

/-- The digits of a timestamp that fits its eight bytes. -/
theorem length_natStr_le {n : ℕ} (h : n < 256 ^ 8) : (natStr n).length ≤ 20 := by
  rw [natStr, List.length_map]
  exact (Nat.length_toDigits_le_iff (by omega) (by omega)).mpr (by omega)

theorem strInt_of_lt {n : ℕ} (h : n < 256 ^ 8) : strInt n = .ok (intStr n) := by
  have hlen := length_natStr_le h
  have hle : ¬JsonText.MAX_INT_DIGITS < (natStr (n : ℤ).natAbs).length := by
    rw [Int.natAbs_natCast]
    unfold JsonText.MAX_INT_DIGITS
    omega
  rw [strInt, if_neg hle]

/-- The associated data exists for every header that fits. -/
theorem aad_exists (ver kid : Byte) {keyName writer : Str} {ts : ℕ}
    (hkey : (Utf8.encodePass keyName).length < 256 ^ 4)
    (hw : (Utf8.encodePass writer).length ≤ WRITER_MAX) (hts : ts < 256 ^ 8) :
    ∃ ad, aad ver kid keyName writer ts = .ok ad := by
  have hw' : (Utf8.encodePass writer).length < 256 ^ 4 := by
    unfold WRITER_MAX at hw
    omega
  have hlen : (asciiBytes (intStr ts)).length < 256 ^ 4 := by
    have := length_natStr_le hts
    rw [asciiBytes, List.length_map, show intStr ts = natStr ts from rfl]
    omega
  simp only [aad, bind, Except.bind, lp_of_lt (b := [ver]) (by simp), lp_of_lt (b := [kid])
    (by simp), lp_of_lt hkey, lp_of_lt hw', strInt_of_lt hts, lp_of_lt hlen]
  exact ⟨_, rfl⟩

/-! ### The sealed text -/

section
variable [Host]

/-- A dumped string is read back, whatever follows it. -/
theorem scanOnce_dumpStr (fuel room : ℕ) (s rest : Str) :
    JsonText.scanOnce (fuel + 1) room (JsonText.dumpStr s ++ rest) = .ok (.str s, rest) := by
  have htext : JsonText.dumpStr s ++ rest =
      cp '"' :: (s.flatMap JsonText.escapeChar ++ cp '"' :: rest) := by simp [JsonText.dumpStr]
  rw [htext, JsonText.scanOnce.eq_def]
  simp only [if_true, JsonText.scanStr_flatMap]

omit [Host] in
theorem skipWs_dumpStr (s rest : Str) :
    JsonText.skipWs (JsonText.dumpStr s ++ rest) = JsonText.dumpStr s ++ rest := by
  have hq : JsonText.isWs (cp '"') = false := by decide
  simp [JsonText.skipWs, JsonText.dumpStr, hq]

omit [Host] in
/-- A key of one letter and the colon after it. -/
theorem scanKey_dumpStr {k : Cp} (h1 : k ≠ cp '"') (h2 : k ≠ cp '\\') (h3 : 32 ≤ k.val)
    (s rest : Str) :
    JsonText.scanKey ([cp '"', k, cp '"', cp ':', cp ' '] ++ (JsonText.dumpStr s ++ rest)) =
      some ([k], JsonText.dumpStr s ++ rest) := by
  have hspace : JsonText.skipWs (cp ' ' :: (JsonText.dumpStr s ++ rest)) =
      JsonText.dumpStr s ++ rest := by
    rw [JsonText.skipWs, List.dropWhile_cons_of_pos (by decide), ← JsonText.skipWs, skipWs_dumpStr]
  have hcolon (t : Str) : JsonText.skipWs (cp ':' :: t) = cp ':' :: t :=
    List.dropWhile_cons_of_neg (by decide)
  have hpast (t : Str) : JsonText.past [cp ':'] (cp ':' :: t) = some t := by
    simp [JsonText.past]
  have hend (t : Str) : JsonText.scanStr .plain (cp '"' :: t) = some ([], t) := by
    rw [JsonText.scanStr_plain_cons, if_pos rfl]
  simp only [List.cons_append, List.nil_append, JsonText.scanKey, if_true,
    JsonText.scanStr_plain h1 h2 h3, hend, JsonText.emit, Option.map_some, Option.bind_some,
    hcolon, hpast, hspace]

theorem loads_blobText (v d : Str) :
    JsonText.loads (blobText v d) = .ok (.obj [(txt "v", .str v), (txt "d", .str d)]) := by
  have hpast (c : Cp) (t : Str) : JsonText.past [c] (c :: t) = some t := by simp [JsonText.past]
  have hother {a c : Cp} (h : a ≠ c) (t : Str) : JsonText.past [a] (c :: t) = none := by
    simp [JsonText.past, h]
  have hstay {c : Cp} (h : JsonText.isWs c = false) (t : Str) :
      JsonText.skipWs (c :: t) = c :: t := List.dropWhile_cons_of_neg (by simp [h])
  have hskip (t : Str) : JsonText.skipWs (cp ' ' :: t) = JsonText.skipWs t :=
    List.dropWhile_cons_of_pos (by decide)
  have htext : blobText v d = cp '{' :: ([cp '"', cp 'v', cp '"', cp ':', cp ' '] ++
      (JsonText.dumpStr v ++ cp ',' :: cp ' ' :: ([cp '"', cp 'd', cp '"', cp ':', cp ' '] ++
        (JsonText.dumpStr d ++ [cp '}'])))) := by
    simp only [blobText, txt, List.append_assoc]
    rfl
  obtain ⟨room, hroom⟩ : ∃ room, Host.nestLimit = room + 1 :=
    ⟨_, (Nat.succ_pred_eq_of_pos Host.nest_pos).symm⟩
  obtain ⟨fuel, hfuel⟩ : ∃ fuel, 2 * (blobText v d).length + 2 = fuel + 1 + 1 + 1 + 1 := by
    refine ⟨2 * (blobText v d).length - 2, ?_⟩
    have : 1 ≤ (blobText v d).length := by rw [htext, List.length_cons]; omega
    omega
  -- the two members, each scanned in one step
  have hmembers : JsonText.scanMembers (fuel + 1 + 1 + 1) room []
      ([cp '"', cp 'v', cp '"', cp ':', cp ' '] ++ (JsonText.dumpStr v ++ cp ',' :: cp ' ' ::
        ([cp '"', cp 'd', cp '"', cp ':', cp ' '] ++ (JsonText.dumpStr d ++ [cp '}'])))) =
      .ok (.obj [(txt "v", .str v), (txt "d", .str d)], []) := by
    rw [JsonText.scanMembers, scanKey_dumpStr (by decide) (by decide) (by decide)]
    simp only [scanOnce_dumpStr, hstay (show JsonText.isWs (cp ',') = false by decide),
      hother (show cp '}' ≠ cp ',' by decide), hpast, hskip]
    rw [List.cons_append, hstay (show JsonText.isWs (cp '"') = false by decide),
      ← List.cons_append, JsonText.scanMembers,
      scanKey_dumpStr (by decide) (by decide) (by decide)]
    simp only [scanOnce_dumpStr, hstay (show JsonText.isWs (cp '}') = false by decide), hpast]
    rfl
  rw [JsonText.loads, if_neg (by rw [htext, List.head?_cons]; decide), hfuel, hroom, htext,
    hstay (show JsonText.isWs (cp '{') = false by decide), JsonText.scanOnce,
    if_neg (by decide), if_pos rfl]
  simp only [List.cons_append, hstay (show JsonText.isWs (cp '"') = false by decide),
    hother (show cp '}' ≠ cp '"' by decide)]
  simp only [List.cons_append] at hmembers
  rw [hmembers]
  rfl

omit [Host] in
theorem blobText_surrogate (v d : Str) :
    (blobText v d).any isSurrogate = (v.any isSurrogate || d.any isSurrogate) := by
  have h1 : (txt "\x7b\"v\": ").any isSurrogate = false := by decide
  have h2 : (txt ", \"d\": ").any isSurrogate = false := by decide
  have h3 : (txt "\x7d").any isSurrogate = false := by decide
  simp only [blobText, List.any_append, h1, h2, h3, JsonText.dumpStr_surrogate, Bool.false_or,
    Bool.or_false]

/-- Encoding and reading a blob gives the value and the description back. -/
theorem readBlob_encode {v d : Str} (hv : v.any isSurrogate = false)
    (hd : d.any isSurrogate = false) :
    ∃ bs, encodeStrict (blobText v d) = .ok bs ∧ readBlob bs = .ok (v, d) := by
  have hencode : Utf8.encode (blobText v d) = some (Utf8.encodePass (blobText v d)) := by
    rw [Utf8.encode, blobText_surrogate, hv, hd]
    rfl
  refine ⟨Utf8.encodePass (blobText v d), by rw [encodeStrict, hencode], ?_⟩
  have hkey : txt "v" ≠ txt "d" := by decide
  have hdesc : Dict.text [(txt "v", .str v), (txt "d", .str d)] (txt "d") = d := by
    cases d with
    | nil => simp [Dict.text, Dict.getOr, Dict.get, hkey, Json.truthy, Json.pyStr]
    | cons c d => simp [Dict.text, Dict.getOr, Dict.get, hkey, Json.truthy, Json.pyStr]
  have hget : Dict.get [(txt "v", .str v), (txt "d", .str d)] (txt "v") = some (.str v) := by
    simp [Dict.get]
  simp only [readBlob, blobOf, Utf8.decode_encode hencode, loads_blobText, hget, hdesc]

end

/-! ### An ideal AEAD -/

/-- The AEAD opens what it sealed, and nothing it sealed under other associated data. -/
structure Library.Ideal (lib : Library) : Prop where
  available : lib.available = true
  opens : ∀ k n p a, ∃ c, lib.encrypt k n p a = some c ∧ TAG_LEN ≤ c.length ∧
    lib.decrypt k n c a = some p
  binds : ∀ k k' n p a a' c, lib.encrypt k n p a = some c → a' ≠ a →
    lib.decrypt k' n c a' = none

/-- The error is one of those a reader raises on an envelope it must not open. -/
def Refused (r : Except Raised (Str × Str)) : Prop :=
  ∃ e : CryptoError, r = .error (.crypto e) ∧
    (e.kind = .CorruptEnvelopeError ∨ e.kind = .UnknownKidError)

section
variable [Host] {lib : Library}

omit [Host] in
theorem requireCrypto_ok (hlib : lib.Ideal) : requireCrypto lib = .ok () := by
  rw [requireCrypto, if_pos hlib.available]

/-- What sealing builds, when everything fits. -/
theorem sealRaw_ok (hlib : lib.Ideal) {v d keyName writer : Str} {ts : ℕ} (kid : Byte)
    (psk : Bytes) (salt : Fixed SALT_LEN) (nonce : Fixed NONCE_LEN)
    (hv : v.any isSurrogate = false) (hd : d.any isSurrogate = false)
    (hkey : (Utf8.encodePass keyName).length < 256 ^ 4)
    (hw : (Utf8.encodePass writer).length ≤ WRITER_MAX) (hts : ts < 256 ^ 8) :
    ∃ ad bs ct, aad VER kid keyName writer ts = .ok ad ∧ readBlob bs = .ok (v, d) ∧
      lib.encrypt (lib.hkdf psk salt.1) nonce.1 bs ad = some ct ∧ TAG_LEN ≤ ct.length ∧
      lib.decrypt (lib.hkdf psk salt.1) nonce.1 ct ad = some bs ∧
      sealRaw lib v d keyName writer ts kid psk salt nonce =
        .ok (MAGIC ++
          b64encode (layout VER kid (Utf8.encodePass writer) ts salt.1 nonce.1 ct)) := by
  obtain ⟨ad, had⟩ := aad_exists VER kid hkey hw hts
  obtain ⟨bs, hbs, hread⟩ := readBlob_encode hv hd
  obtain ⟨ct, henc, htag, hdec⟩ := hlib.opens (lib.hkdf psk salt.1) nonce.1 bs ad
  have hpack : pack VER kid writer ts salt nonce ct =
      .ok (layout VER kid (Utf8.encodePass writer) ts salt.1 nonce.1 ct) := by
    have hrange : ¬((ts : ℤ) < 0 ∨ 256 ^ 8 ≤ (ts : ℤ)) := by omega
    simp only [pack, if_neg (Nat.not_lt.mpr hw), if_neg hrange, Int.toNat_natCast]
  refine ⟨ad, bs, ct, had, hread, henc, htag, hdec, ?_⟩
  simp only [sealRaw, bind, Except.bind, requireCrypto_ok hlib, had, hbs, henc, hpack]
  rfl

/-- Opening an envelope with a header that fits, by what the AEAD makes of it. -/
theorem unseal_armor (hlib : lib.Ideal) {kid : Byte} {keyName writer : Str} {ts : ℕ}
    {salt nonce ct psk ad : Bytes} {kr : Keyring}
    (hw : (Utf8.encodePass writer).length ≤ WRITER_MAX) (hts : ts < 256 ^ 8)
    (hsalt : salt.length = SALT_LEN) (hnonce : nonce.length = NONCE_LEN)
    (hct : TAG_LEN ≤ ct.length) (hpsk : kr.get kid = some psk)
    (had : aad VER kid keyName writer ts = .ok ad) :
    «unseal» lib (MAGIC ++ b64encode (layout VER kid (Utf8.encodePass writer) ts salt nonce ct))
        keyName (.ok kr) =
      match lib.decrypt (lib.hkdf psk salt) nonce ct ad with
      | none => .error (corrupt (txt "authentication failed (wrong key, key name, or tampering)"))
      | some plaintext => readBlob plaintext := by
  cases hopen : lib.decrypt (lib.hkdf psk salt) nonce ct ad <;>
    simp only [«unseal», bind, Except.bind, requireCrypto_ok hlib, hopen,
      parse_armor VER kid hw hts hsalt hnonce hct, ne_eq, not_true_eq_false, if_false, hpsk, had]

/-- An envelope whose header or key name is not the one it was sealed under is refused. -/
theorem unseal_refused (hlib : lib.Ideal) {ver kid kid₀ : Byte} {keyName writer key₀ writer₀ : Str}
    {ts ts₀ : ℕ} {salt nonce ct k p ad₀ : Bytes} {kr : Keyring}
    (hsealed : lib.encrypt k nonce p ad₀ = some ct)
    (had₀ : aad VER kid₀ key₀ writer₀ ts₀ = .ok ad₀)
    (hkey : (Utf8.encodePass keyName).length < 256 ^ 4)
    (hw : (Utf8.encodePass writer).length ≤ WRITER_MAX) (hts : ts < 256 ^ 8)
    (hsalt : salt.length = SALT_LEN) (hnonce : nonce.length = NONCE_LEN)
    (hct : TAG_LEN ≤ ct.length)
    (hne : (ver, kid, keyName, writer, ts) ≠ (VER, kid₀, key₀, writer₀, ts₀)) :
    Refused («unseal» lib
      (MAGIC ++ b64encode (layout ver kid (Utf8.encodePass writer) ts salt nonce ct)) keyName
      (.ok kr)) := by
  by_cases hver : ver = VER
  · subst hver
    cases hpsk : kr.get kid with
    | none =>
      refine ⟨⟨.UnknownKidError,
        txt "envelope kid " ++ natStr kid.val ++ txt " is not in the keyring"⟩, ?_, .inr rfl⟩
      simp only [«unseal», bind, Except.bind, requireCrypto_ok hlib,
        parse_armor VER kid hw hts hsalt hnonce hct, ne_eq, not_true_eq_false, if_false, hpsk]
    | some psk =>
      obtain ⟨ad, had⟩ := aad_exists VER kid hkey hw hts
      have hdiff : ad ≠ ad₀ := by
        rintro rfl
        obtain ⟨-, rfl, rfl, rfl, hts'⟩ := aad_injective had had₀
        exact hne (by rw [Int.ofNat.inj hts'])
      rw [unseal_armor hlib hw hts hsalt hnonce hct hpsk had,
        hlib.binds _ _ _ _ _ _ _ hsealed hdiff]
      exact ⟨_, rfl, .inl rfl⟩
  · refine ⟨⟨.CorruptEnvelopeError, txt "unsupported envelope version " ++ natStr ver.val⟩, ?_,
      .inl rfl⟩
    simp only [«unseal», bind, Except.bind, requireCrypto_ok hlib,
      parse_armor ver kid hw hts hsalt hnonce hct, ne_eq, hver, not_false_eq_true, if_true]
    rfl

omit [Host] in
theorem isSealed_armor {kid : Byte} {writer : Str} {ts : ℕ} {salt nonce ct : Bytes}
    (hsalt : salt.length = SALT_LEN) (hnonce : nonce.length = NONCE_LEN)
    (hct : TAG_LEN ≤ ct.length) :
    isSealed (MAGIC ++ b64encode (layout VER kid (Utf8.encodePass writer) ts salt nonce ct)) =
      true := by
  have hlen : (layout VER kid (Utf8.encodePass writer) ts salt nonce ct).length =
      4 + (Utf8.encodePass writer).length + 8 + SALT_LEN + NONCE_LEN + ct.length :=
    length_layout hsalt hnonce
  have hmin : MIN_ENVELOPE ≤ (layout VER kid (Utf8.encodePass writer) ts salt nonce ct).length := by
    unfold MIN_ENVELOPE
    omega
  have hver : (layout VER kid (Utf8.encodePass writer) ts salt nonce ct).getD 0 0 = VER := by
    rw [layout_eq]
    rfl
  simp only [isSealed, dearmor_armor, hmin, hver, decide_true, beq_self_eq_true, Bool.and_self]

/-- Sealing and opening are inverse, the header reads back, and a changed header or key
name is refused; the format and the associated data lose nothing. -/
theorem seal_round_trip (hlib : lib.Ideal) :
    (∀ (v d keyName writer : Str) (ts : ℕ) (kid : Byte) (psk : Bytes) (salt : Fixed SALT_LEN)
        (nonce : Fixed NONCE_LEN) (kr : Keyring),
      v.any isSurrogate = false → d.any isSurrogate = false →
      (Utf8.encodePass keyName).length < 2 ^ 32 →
      (Utf8.encodePass writer).length ≤ WRITER_MAX → ts < 2 ^ 64 → kr.get kid = some psk →
      ∃ ct, TAG_LEN ≤ ct.length ∧
        (let envelope := fun (ver kid : Byte) (writer : Str) (ts : ℕ) =>
          MAGIC ++ b64encode (layout ver kid (Utf8.encodePass writer) ts salt.1 nonce.1 ct)
        sealRaw lib v d keyName writer ts kid psk salt nonce =
            .ok (envelope VER kid writer ts) ∧
          «unseal» lib (envelope VER kid writer ts) keyName (.ok kr) = .ok (v, d) ∧
          envelopeMeta (envelope VER kid writer ts) = .ok (VER, kid, writer, ts) ∧
          isSealed (envelope VER kid writer ts) = true ∧
          ∀ (ver' kid' : Byte) (writer' keyName' : Str) (ts' : ℕ) (kr' : Keyring),
            (Utf8.encodePass keyName').length < 2 ^ 32 →
            (Utf8.encodePass writer').length ≤ WRITER_MAX → ts' < 2 ^ 64 →
            (ver', kid', keyName', writer', ts') ≠ (VER, kid, keyName, writer, ts) →
            Refused («unseal» lib (envelope ver' kid' writer' ts') keyName' (.ok kr')))) ∧
    (∀ (ver kid : Byte) (writer : Str) (ts : ℕ) (salt : Fixed SALT_LEN)
        (nonce : Fixed NONCE_LEN) (ct env : Bytes),
      TAG_LEN ≤ ct.length → pack ver kid writer ts salt nonce ct = .ok env →
      parse (MAGIC ++ b64encode env) = .ok ⟨ver, kid, writer, ts, salt.1, nonce.1, ct⟩) ∧
    ∀ (ver kid ver' kid' : Byte) (keyName writer keyName' writer' : Str) (ts ts' : ℤ)
        (ad : Bytes), aad ver kid keyName writer ts = .ok ad →
      aad ver' kid' keyName' writer' ts' = .ok ad →
      (ver, kid, keyName, writer, ts) = (ver', kid', keyName', writer', ts') := by
  refine ⟨fun v d keyName writer ts kid psk salt nonce kr hv hd hkey hw hts hpsk => ?_,
    fun ver kid writer ts salt nonce ct env hct henv => ?_,
    fun ver kid ver' kid' keyName writer keyName' writer' ts ts' ad h h' => ?_⟩
  · obtain ⟨ad, bs, ct, had, hread, henc, htag, hdec, hseal⟩ :=
      sealRaw_ok hlib kid psk salt nonce hv hd (by omega) hw (by omega)
    refine ⟨ct, htag, hseal, ?_, ?_, isSealed_armor salt.2 nonce.2 htag, ?_⟩
    · simp only [unseal_armor hlib hw (by omega) salt.2 nonce.2 htag hpsk had, hdec, hread]
    · simp only [envelopeMeta, bind, Except.bind,
        parse_armor VER kid hw (by omega) salt.2 nonce.2 htag]
      rfl
    · intro ver' kid' writer' keyName' ts' kr' hkey' hw' hts' hne
      exact unseal_refused hlib henc had (by omega) hw' (by omega) salt.2 nonce.2 htag hne
  · unfold pack at henv
    simp only at henv
    split_ifs at henv with hlong hrange
    rw [← Except.ok.inj henv]
    exact parse_armor ver kid (Nat.not_lt.mp hlong) (by omega) salt.2 nonce.2 hct
  · obtain ⟨rfl, rfl, rfl, rfl, rfl⟩ := aad_injective h h'
    rfl

end

/-! ### A cipher that only authenticates -/

/-- The associated data, marked off byte by byte from what follows it. -/
def frame (a p : Bytes) : Bytes :=
  match a with
  | [] => 0 :: p
  | b :: a => 1 :: b :: frame a p

/-- What follows the given associated data. -/
def unframe : Bytes → Bytes → Option Bytes
  | [], x :: p => if x = 0 then some p else none
  | b :: a, x :: y :: c => if x = 1 ∧ y = b then unframe a c else none
  | _, _ => none

theorem unframe_frame (a p : Bytes) : unframe a (frame a p) = some p := by
  induction a with
  | nil => simp [frame, unframe]
  | cons b a ih => simp [frame, unframe, ih]

theorem unframe_other (a a' p : Bytes) (h : a' ≠ a) : unframe a' (frame a p) = none := by
  induction a generalizing a' with
  | nil =>
    cases a' with
    | nil => exact absurd rfl h
    | cons b a' => cases p <;> simp [frame, unframe]
  | cons b a ih =>
    cases a' with
    | nil => simp [frame, unframe]
    | cons b' a' =>
      by_cases hb : b = b'
      · subst hb
        have hne : a' ≠ a := fun heq => h (by rw [heq])
        simp only [frame, unframe, and_self, if_true]
        exact ih a' hne
      · simp [frame, unframe, hb]

/-- A library whose ciphertexts are the plaintext behind a blank tag. -/
def Library.clear : Library where
  available := true
  encrypt _ _ p a := some (List.replicate TAG_LEN 0 ++ frame a p)
  decrypt _ _ c a := unframe a (c.drop TAG_LEN)
  hkdf psk _ := psk

theorem Library.clear_ideal : Library.clear.Ideal where
  available := rfl
  opens k n p a := by
    refine ⟨_, rfl, ?_, ?_⟩
    · rw [List.length_append, List.length_replicate]
      omega
    · have hdrop : (List.replicate TAG_LEN (0 : Byte) ++ frame a p).drop TAG_LEN = frame a p :=
        List.drop_left' List.length_replicate
      show unframe a _ = _
      rw [hdrop, unframe_frame]
  binds k k' n p a a' c henc hne := by
    have hdrop : (List.replicate TAG_LEN (0 : Byte) ++ frame a p).drop TAG_LEN = frame a p :=
      List.drop_left' List.length_replicate
    show unframe a' _ = _
    rw [← Option.some.inj henc, hdrop, unframe_other a a' p hne]

/-- A keyring of one key. -/
def Keyring.single (kid : Byte) (psk : Fixed KEY_LEN) : Keyring where
  entries := [(kid, psk.1)]
  nonempty := List.cons_ne_nil _ _
  kids := by simp
  psk e he := by
    rw [List.mem_singleton.mp he]
    exact psk.2

theorem Keyring.get_single (kid : Byte) (psk : Fixed KEY_LEN) :
    (Keyring.single kid psk).get kid = some psk.1 := by
  simp [Keyring.get, Keyring.single]

def zeros (n : ℕ) : Fixed n := ⟨List.replicate n 0, List.length_replicate⟩

theorem seal_round_trip_clear :
    letI := Host.ascii
    ∃ armored, sealRaw Library.clear (txt "v") (txt "d") (txt "k") (txt "w") 5 1
        (zeros KEY_LEN).1 (zeros SALT_LEN) (zeros NONCE_LEN) = .ok armored ∧
      «unseal» Library.clear armored (txt "k") (.ok (.single 1 (zeros KEY_LEN))) =
        .ok (txt "v", txt "d") ∧
      Refused («unseal» Library.clear armored (txt "K") (.ok (.single 1 (zeros KEY_LEN)))) := by
  let _ := Host.ascii
  obtain ⟨ct, -, hseal, hopen, -, -, hother⟩ := (seal_round_trip Library.clear_ideal).1
    (txt "v") (txt "d") (txt "k") (txt "w") 5 1 (zeros KEY_LEN).1 (zeros SALT_LEN)
    (zeros NONCE_LEN) (.single 1 (zeros KEY_LEN)) (by decide) (by decide) (by decide) (by decide)
    (by decide) (Keyring.get_single _ _)
  exact ⟨_, hseal, hopen, hother VER 1 (txt "w") (txt "K") 5 _ (by decide) (by decide) (by decide)
    (by decide)⟩

theorem length_encodePass_replicate (n : ℕ) :
    (Utf8.encodePass (List.replicate n (cp 'a'))).length = n := by
  have hone : (Utf8.encodeChar (cp 'a')).length = 1 := by decide
  rw [Utf8.encodePass, List.length_flatMap, List.map_replicate, hone,
    List.sum_replicate_nat, Nat.mul_one]

/-- A key name whose length does not fit in four bytes is never sealed. -/
theorem sealRaw_overflow {lib : Library} (hlib : lib.Ideal) (v d : Str) {keyName : Str}
    (writer : Str) (ts : ℤ) (kid : Byte) (psk : Bytes) (salt : Fixed SALT_LEN)
    (nonce : Fixed NONCE_LEN) (h : 2 ^ 32 ≤ (Utf8.encodePass keyName).length) :
    sealRaw lib v d keyName writer ts kid psk salt nonce = .error (.fault .OverflowError) := by
  have hlp : lp (Utf8.encodePass keyName) = .error (.fault .OverflowError) := by
    rw [lp, if_neg (by omega)]
  simp only [sealRaw, aad, bind, Except.bind, requireCrypto_ok hlib,
    lp_of_lt (b := [VER]) (by simp), lp_of_lt (b := [kid]) (by simp), hlp]

theorem long_key_name_not_sealed :
    Library.clear.Ideal ∧
      sealRaw Library.clear [] [] (List.replicate (2 ^ 32) (cp 'a')) [] 0 1 (zeros KEY_LEN).1
        (zeros SALT_LEN) (zeros NONCE_LEN) = .error (.fault .OverflowError) := by
  have hlen : 2 ^ 32 ≤ (Utf8.encodePass (List.replicate (2 ^ 32) (cp 'a'))).length :=
    le_of_eq (length_encodePass_replicate (2 ^ 32)).symm
  exact ⟨Library.clear_ideal, sealRaw_overflow Library.clear_ideal _ _ _ _ _ _ _ _ hlen⟩

end AskFable.Bus
