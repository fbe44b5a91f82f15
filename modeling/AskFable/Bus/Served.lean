import AskFable.Bus.Owner
import AskFable.Bus.ReplayFloor

/-!
# Rows, sealed

What was sealed opens, for whoever has the secrets, to what was sealed. A request the owner takes
changes its table as the request says, and the rows go on being the contents sealed; the client
reads the answers as they were meant.
-/
namespace AskFable.Bus
open AskFable.Text AskFable.Python AskFable.Python.Bytes AskFable.Python.JsonText AskFable.Linear
open AskFable.Fallible

section
variable [Host] {lib : Library} {secrets : Byte → Bytes}

/-! ### Envelopes -/

variable (lib secrets) in
/-- Who has the secrets opens the envelope to this value and description, under whatever name. -/
def OpensTo (envelope v d : Str) : Prop :=
  ∀ kr : Keyring, kr.Shares secrets → ∀ key r, «unseal» lib envelope key (.ok kr) = .ok r →
    r = (v, d)

omit [Host] in
theorem Keyring.get_active (kr : Keyring) : kr.get kr.active.1 = some kr.active.2 := by
  obtain ⟨entries, nonempty, kids, psk⟩ := kr
  cases entries with
  | nil => exact absurd rfl nonempty
  | cons e es => simp [Keyring.get, Keyring.active]

/-- What was sealed opens to what was sealed. -/
theorem opensTo_seal (hlib : lib.Ideal) {v d key writer : Str} {ts : ℤ} {kr : Keyring}
    (hkr : kr.Shares secrets) {salt : Fixed SALT_LEN} {nonce : Fixed NONCE_LEN} {envelope : Str}
    (h : «seal» lib v d key writer ts (.ok kr) salt nonce = .ok envelope) :
    OpensTo lib secrets envelope v d ∧ envelope.any isSurrogate = false ∧ ts.natAbs < 256 ^ 8 := by
  dsimp only [«seal»] at h
  obtain ⟨_, -, h⟩ := of_bind_ok h
  obtain ⟨ad, had, h⟩ := of_bind_ok h
  obtain ⟨plaintext, hplain, h⟩ := of_bind_ok h
  cases henc : lib.encrypt (lib.hkdf kr.active.2 salt.1) nonce.1 plaintext ad with
  | none => simp [henc] at h
  | some ct =>
    rw [henc] at h
    obtain ⟨env, hpack, h⟩ := of_bind_ok h
    obtain rfl := Except.ok.inj h
    unfold pack at hpack
    dsimp only at hpack
    split_ifs at hpack with hw hts
    obtain rfl := Except.ok.inj hpack
    obtain ⟨ct', hct', htag, hdec⟩ := hlib.opens (lib.hkdf kr.active.2 salt.1) nonce.1 plaintext ad
    obtain rfl := Option.some.inj (henc.symm.trans hct')
    have hparse := parse_armor VER kr.active.1 (not_lt.mp hw) (show ts.toNat < 256 ^ 8 by omega)
      salt.2 nonce.2 htag
    refine ⟨fun kr' hkr' key' r hopen => ?_, ?_, by omega⟩
    · obtain ⟨e, psk, ad', p, ⟨hparse', hver, hpsk⟩, had', hdec', hread⟩ := unseal_opened hopen
      obtain rfl := Except.ok.inj (hparse.symm.trans hparse')
      -- the reader's key under this id is the writer's, so only the name can differ
      have hsecret : psk = kr.active.2 :=
        (hkr' _ _ hpsk).trans (hkr _ _ kr.get_active).symm
      obtain rfl := hsecret
      have hsame : ad' = ad := by
        by_contra hne
        rw [hlib.binds _ _ _ _ _ _ _ henc hne] at hdec'
        nomatch hdec'
      rw [hsame, hdec] at hdec'
      obtain rfl := Option.some.inj hdec'
      exact Except.ok.inj (hread.symm.trans (readBlob_of_encode hplain))
    · rw [List.any_append, b64encode_surrogate, Bool.or_false]
      decide

/-! ### What the client makes of an answer -/

theorem text_str {d : Dict} {k s : Str} (h : Dict.get d k = some (.str s)) :
    Dict.text d k = s := by
  unfold Dict.text Dict.getOr
  rw [h]
  cases s <;> rfl

/-- The numbers of a row fit their fields, and its envelope has no surrogate. -/
structure Clean (r : BusRow) : Prop where
  writerTs : r.writerTs.natAbs < 256 ^ 8
  plaintextBytes : r.plaintextBytes.natAbs < 256 ^ 8
  envelope : r.envelope.any isSurrogate = false

theorem sound_proto : Sound protoMember := sound_int (by decide) (by decide)

theorem legible_flag {name : Str} (hname : mend name = name) (hne : txt "proto" ≠ name) (b : Bool) :
    Legible [protoMember, boolMember name b] := by
  refine ⟨by simp, ?_, ?_⟩
  · simpa [protoMember, intMember, boolMember] using hne
  · simp only [List.forall_mem_cons]
    exact ⟨sound_proto, sound_bool hname b, List.forall_mem_nil _⟩

theorem legible_row (clock : Clock) {r : BusRow} (hr : Clean r) :
    Legible (protoMember :: rowMembers clock r) := by
  refine ⟨by simp, (by decide : [txt "proto", txt "found", txt "key", txt "envelope", txt "writer",
    txt "ts_ns", txt "received_ts", txt "plaintext_bytes"].Nodup), ?_⟩
  have hreceived : mend (txt "received_ts") = txt "received_ts" := by decide
  simp only [rowMembers, List.forall_mem_cons]
  exact ⟨sound_proto, sound_bool (by decide) _, sound_str (by decide) _, sound_str (by decide) _,
    sound_str (by decide) _, sound_int (by decide) hr.writerTs,
    ⟨⟨hreceived, reads_number (clock.reads _)⟩, clock.ascii _⟩,
    sound_int (by decide) hr.plaintextBytes, List.forall_mem_nil _⟩

/-- An answer that is accepted came back, and is read. -/
theorem request_ok {net : Net} {m : Message} {obj : Dict} (h : (request net m).2 = .ok obj) :
    ∃ reply : ℕ × Bytes, net.exchange = .ok reply ∧ response reply.1 reply.2 = .ok obj := by
  unfold request at h
  split_ifs at h
  · nomatch h
  · nomatch h
  · cases htoken : net.token with
    | some e => simp [htoken] at h
    | none =>
      cases hconnection : net.connection with
      | some e => simp [htoken, hconnection] at h
      | none =>
        cases hexchange : net.exchange with
        | error detail => simp [htoken, hconnection, hexchange, refused] at h
        | ok reply =>
          simp only [htoken, hconnection, hexchange] at h
          exact ⟨reply, rfl, h⟩

variable {F : Type} {floatOf : Json → Option F}

theorem row_ok {net : Net} {key : Str} {r : Option (Str × F)}
    (h : row floatOf net key = .ok r) :
    ∃ (reply : ℕ × Bytes) (obj : Dict), net.exchange = .ok reply ∧
      response reply.1 reply.2 = .ok obj ∧
      (r = none ∧ Dict.truthy obj (txt "found") = false ∨
        ∃ received, r = some (Dict.text obj (txt "envelope"), received) ∧
          Dict.truthy obj (txt "found") = true) := by
  unfold row at h
  obtain ⟨obj, hobj, h⟩ := of_bind_ok h
  obtain ⟨reply, hreply, hok⟩ := request_ok hobj
  refine ⟨reply, obj, hreply, hok, ?_⟩
  split_ifs at h with hfound
  · obtain ⟨envelope, henvelope, h⟩ := of_bind_ok h
    obtain ⟨received, -, h⟩ := of_bind_ok h
    obtain ⟨ts, -, henvelope⟩ := of_bind_ok henvelope
    refine .inr ⟨received, ?_, hfound⟩
    rw [← Except.ok.inj h]
    split at henvelope
    · nomatch henvelope
    · nomatch henvelope
    · rw [Except.ok.inj henvelope]
  · exact .inl ⟨(Except.ok.inj h).symm, by simpa using hfound⟩

theorem fetch_none {env : Env} {marks : Marks} {key : Str}
    (h : (fetch lib env floatOf marks key).2 = .returned none none) :
    row floatOf env.net (strip key) = .ok none := by
  unfold fetch at h
  dsimp only at h
  cases hrow : row floatOf env.net (strip key) with
  | error f => cases f <;> simp [hrow, caught] at h
  | ok r =>
    cases r with
    | none => rfl
    | some p =>
      rw [hrow] at h
      dsimp only at h
      obtain ⟨marks', reading, hopen⟩ : ∃ marks' reading,
          openServed lib env 0 marks p.1 (strip key) = (marks', reading) := ⟨_, _, rfl⟩
      rw [hopen] at h
      cases reading with
      | error r => simp at h
      | ok reading => cases reading <;> simp at h

theorem delete_ok {env : Env} {marks : Marks} {key : Str} {b : Bool} (hkey : strip key ≠ [])
    (h : (delete env marks key).2 = .returned b none) :
    ∃ (reply : ℕ × Bytes) (obj : Dict), env.net.exchange = .ok reply ∧
      response reply.1 reply.2 = .ok obj ∧ Dict.truthy obj (txt "deleted") = b := by
  unfold delete at h
  dsimp only at h
  rw [if_neg hkey] at h
  cases hans : (request env.net (.delete (strip key))).2 with
  | error f => cases f <;> simp [hans, caught] at h
  | ok obj =>
    obtain ⟨reply, hreply, hok⟩ := request_ok hans
    refine ⟨reply, obj, hreply, hok, ?_⟩
    rw [hans] at h
    dsimp only at h
    split_ifs at h with hdeleted
    · simp only [Ending.returned.injEq, and_true] at h
      rw [hdeleted, h]
    · simp only [Ending.returned.injEq, and_true] at h
      rw [← h]
      simpa using hdeleted

/-! ### What the owner makes of a request -/

/-- A handler that turns a request away says so by a status of 400 or more. -/
def Turns {α : Type} (r : Except Stop α) : Prop :=
  ∀ status error, r = .error (.refused status error) → 400 ≤ status

omit [Host] in
theorem turns_ok {α : Type} (a : α) : Turns (.ok a) := fun _ _ h => nomatch h

omit [Host] in
theorem turns_refuse {α : Type} {status : ℕ} (h : 400 ≤ status) (error : Str) :
    Turns (refuse status error : Except Stop α) := by
  intro status' error' heq
  rw [refuse, Except.error.injEq, Stop.refused.injEq] at heq
  rwa [← heq.1]

omit [Host] in
theorem turns_died {α : Type} (f : Fault) : Turns (.error (.died f) : Except Stop α) :=
  fun _ _ h => nomatch h

omit [Host] in
theorem Turns.bind {α β : Type} {x : Except Stop α} {f : α → Except Stop β} (hx : Turns x)
    (hf : ∀ a, Turns (f a)) : Turns (x >>= f) := by
  cases x with
  | error e =>
    exact fun status error h => hx status error (by simpa [Bind.bind, Except.bind] using h)
  | ok a => exact hf a

omit [Host] in
theorem turns_check {α : Type} {c : Prop} [Decidable c] {status : ℕ} (h : 400 ≤ status)
    (error : Str) {x : Except Stop α} (hx : Turns x) :
    Turns (if c then refuse status error else x) := by
  split_ifs
  · exact turns_refuse h error
  · exact hx

omit [Host] in
theorem turns_bound (r : Except Fault Unit) : Turns (bound r) := by
  cases r with
  | ok _ => exact turns_ok ()
  | error f => exact turns_died f

omit [Host] in
theorem turns_headerOf (envelope : Str) : Turns (headerOf envelope) := by
  unfold headerOf
  split
  · exact turns_ok _
  · exact turns_refuse (by decide) _
  · exact turns_died _

theorem turns_putRequest (payload : Dict) (ifMatch : Option Str) (now received : ℤ) :
    Turns (putRequest payload ifMatch now received) := by
  have hsent : Turns (sentTs payload) := by
    unfold sentTs
    split
    · exact turns_ok _
    · exact turns_ok _
    · exact turns_died _
  have hbytes : Turns (sentBytes payload) := by
    unfold sentBytes
    split
    · exact turns_ok _
    · exact turns_ok _
    · exact turns_died _
  have hmatch : Turns (matchTs ifMatch) := by
    unfold matchTs
    split
    · exact turns_ok _
    · split
      · exact turns_ok _
      · exact turns_refuse (by decide) _
  unfold putRequest
  dsimp only
  refine turns_check (by decide) _ ?_
  refine (turns_headerOf _).bind fun header => turns_check (by decide) _ ?_
  refine hsent.bind fun sent => turns_check (by decide) _ (turns_check (by decide) _ ?_)
  refine hbytes.bind fun bytes => hmatch.bind fun expected => ?_
  iterate 6 refine (turns_bound _).bind fun _ => ?_
  exact turns_ok _

/-- The row of a put that gets as far as the table; without the header it asks for no timestamp. -/
theorem putRequest_row {payload : Dict} {now received : ℤ} {row : BusRow} {expected : Option ℤ}
    (h : putRequest payload none now received = .ok (row, expected)) :
    row.key = strip (Dict.text payload (txt "key")) ∧
      row.envelope = Dict.text payload (txt "envelope") ∧ Clean row ∧ expected = none := by
  unfold putRequest at h
  dsimp only at h
  obtain ⟨-, h⟩ := check_ok h
  obtain ⟨⟨writer, ts⟩, -, h⟩ := of_bind_ok h
  obtain ⟨-, h⟩ := check_ok h
  obtain ⟨sent, -, h⟩ := of_bind_ok h
  obtain ⟨-, h⟩ := check_ok h
  obtain ⟨-, h⟩ := check_ok h
  obtain ⟨bytes, -, h⟩ := of_bind_ok h
  obtain ⟨exp, hexp, h⟩ := of_bind_ok h
  obtain ⟨_, -, h⟩ := of_bind_ok h
  obtain ⟨_, -, h⟩ := of_bind_ok h
  obtain ⟨_, hts, h⟩ := of_bind_ok h
  obtain ⟨_, henvelope, h⟩ := of_bind_ok h
  obtain ⟨_, hbytes, h⟩ := of_bind_ok h
  obtain ⟨_, -, h⟩ := of_bind_ok h
  simp only [pure, Except.pure, Except.ok.injEq, Prod.mk.injEq] at h
  obtain ⟨rfl, hexpected⟩ := h
  have hfits {n : ℤ} (hn : bindInt n = .ok ()) : n.natAbs < 256 ^ 8 := by
    unfold bindInt at hn
    split_ifs at hn with hrange
    omega
  refine ⟨rfl, rfl, ⟨hfits (bound_ok hts), hfits (bound_ok hbytes), ?_⟩,
    hexpected.symm.trans (Except.ok.inj hexp).symm⟩
  have hbind := bound_ok henvelope
  unfold bindText at hbind
  split_ifs at hbind with hsurrogate
  simpa using hsurrogate

variable (clock : Clock) (st : Daemon) (now received : ℤ)

/-- A put either replaces the row of its key and is acknowledged, or leaves everything as it is
and is not. -/
theorem serve_put (key writer : Str) {envelope : Str} {tsNs : ℤ} {bytes : ℕ}
    (hsized : (Message.put key envelope writer tsNs bytes).Sized)
    (henvelope : envelope.any isSurrogate = false) :
    (∃ row, row.key = strip (mend key) ∧ row.envelope = envelope ∧ Clean row ∧
      (upsert st.table row none).2 = true ∧
      st.serve clock (.put key envelope writer tsNs bytes) now received =
        (st.accepted 0 (upsert st.table row none).1, some acknowledged)) ∨
    ∃ reply, st.serve clock (.put key envelope writer tsNs bytes) now received =
      (st, reply) ∧ ∀ r ∈ reply, 400 ≤ r.1 := by
  have hkey : Dict.text (dictOf (Message.put key envelope writer tsNs bytes).payload) (txt "key") =
      mend key := text_str rfl
  have henv : Dict.text (dictOf (Message.put key envelope writer tsNs bytes).payload)
      (txt "envelope") = envelope := (text_str rfl).trans (mend_eq henvelope)
  unfold Daemon.serve
  rw [loads_body hsized]
  dsimp only
  unfold Daemon.put
  cases hreq : putRequest (dictOf (Message.put key envelope writer tsNs bytes).payload) none now
      received with
  | error stop =>
    refine .inr ?_
    cases stop with
    | refused status error =>
      refine ⟨_, rfl, fun r hr => ?_⟩
      rw [← Option.some.inj hr]
      exact turns_putRequest _ _ _ _ status error hreq
    | died f => exact ⟨none, rfl, fun r hr => nomatch hr⟩
  | ok p =>
    obtain ⟨row, expected⟩ := p
    obtain ⟨hrowKey, hrowEnvelope, hclean, rfl⟩ := putRequest_row hreq
    rw [hkey] at hrowKey
    rw [henv] at hrowEnvelope
    obtain ⟨t, changed, hup⟩ : ∃ t changed, upsert st.table row none = (t, changed) := ⟨_, _, rfl⟩
    cases changed with
    | true =>
      refine .inl ⟨row, hrowKey, hrowEnvelope, hclean, by rw [hup], ?_⟩
      simp only [hup, if_true]
    | false =>
      refine .inr ?_
      have hconflict : conflict st.table row.key none =
          .reject 409 (txt "stale writer_ts (possible replay)") := rfl
      refine ⟨some (rejection 409 (txt "stale writer_ts (possible replay)")), ?_, fun r hr => ?_⟩
      · simp only [hup, hconflict, Bool.false_eq_true, if_false]
      · rw [← Option.some.inj hr]
        exact (by decide : 400 ≤ 409)

/-- A read is answered with the row, or the handler dies. -/
theorem serve_get (key : Str) :
    st.serve clock (.get key) now received =
        (st, some (found clock (st.table.row? (strip (mend key))))) ∨
      st.serve clock (.get key) now received = (st, none) := by
  have hkey : Dict.text (dictOf (Message.get key).payload) (txt "key") = mend key := text_str rfl
  unfold Daemon.serve
  rw [loads_body (show (Message.get key).Sized from trivial)]
  dsimp only
  unfold Daemon.get
  dsimp only
  rw [hkey]
  cases bindText (strip (mend key)) with
  | error f => exact .inr rfl
  | ok _ => exact .inl rfl

/-- A delete removes the row and says whether there was one, or the handler dies. -/
theorem serve_delete (key : Str) :
    st.serve clock (.delete key) now received =
        ({ st with table := st.table.remove (· == strip (mend key)) },
          some (deleted (st.table.row? (strip (mend key))).isSome)) ∨
      st.serve clock (.delete key) now received = (st, none) := by
  have hkey : Dict.text (dictOf (Message.delete key).payload) (txt "key") = mend key := text_str rfl
  unfold Daemon.serve
  rw [loads_body (show (Message.delete key).Sized from trivial)]
  dsimp only
  unfold Daemon.delete
  dsimp only
  rw [hkey]
  cases bindText (strip (mend key)) with
  | error f => exact .inr rfl
  | ok _ => exact .inl rfl

theorem serve_list :
    st.serve clock .list now received =
      (st, some (200, listBounded clock.shown st.table)) := by
  unfold Daemon.serve
  rw [loads_body (show Message.list.Sized from trivial)]

/-! ### What the table holds -/

variable (lib secrets) in
/-- The rows are the contents, sealed. -/
structure Holds (t : BusTable) (m : Contents) : Prop where
  absent : ∀ k, t.row? k = none → m k = none
  present : ∀ k r, t.row? k = some r →
    Clean r ∧ ∃ p, m k = some p ∧ OpensTo lib secrets r.envelope p.1 p.2

theorem holds_empty : Holds lib secrets .empty fun _ => none where
  absent _ _ := rfl
  present _ _ h := nomatch h

/-- A put that is accepted. -/
theorem Holds.put {m : Contents} (h : Holds lib secrets st.table m) {row : BusRow}
    (hclean : Clean row) {v d : Str} (hopens : OpensTo lib secrets row.envelope v d)
    (hchanged : (upsert st.table row none).2 = true) :
    Holds lib secrets (st.accepted 0 (upsert st.table row none).1).table
      (Effect.apply m (.put row.key v d)) := by
  rcases upsert_cases st.table row none with ⟨hno, -⟩ | ⟨-, hrow, -⟩
  · rw [hno] at hchanged
    nomatch hchanged
  have hsame : (st.accepted 0 (upsert st.table row none).1).table =
      (upsert st.table row none).1 := by
    unfold Daemon.accepted sweepBus
    simp
  rw [hsame]
  refine ⟨fun k hk => ?_, fun k r hk => ?_⟩
  · rw [hrow] at hk
    split_ifs at hk with hkey
    dsimp only [Effect.apply]
    rw [Function.update_of_ne (Ne.symm hkey)]
    exact h.absent k hk
  · rw [hrow] at hk
    dsimp only [Effect.apply]
    split_ifs at hk with hkey
    · obtain rfl := Option.some.inj hk
      rw [hkey, Function.update_self]
      exact ⟨hclean, (v, d), rfl, hopens⟩
    · rw [Function.update_of_ne (Ne.symm hkey)]
      exact h.present k r hk

/-- Rows are taken away. -/
theorem Holds.remove {t : BusTable} {m m' : Contents} (h : Holds lib secrets t m)
    {p : Str → Bool} (hm : ∀ k, m' k = if p k then none else m k) :
    Holds lib secrets (t.remove p) m' := by
  refine ⟨fun k hk => ?_, fun k r hk => ?_⟩
  · rw [BusTable.row?_remove] at hk
    rw [hm]
    split_ifs at hk ⊢
    · rfl
    · exact h.absent k hk
  · rw [BusTable.row?_remove] at hk
    rw [hm]
    split_ifs at hk ⊢
    exact h.present k r hk

theorem Holds.delete {t : BusTable} {m : Contents} (h : Holds lib secrets t m) (key : Str) :
    Holds lib secrets (t.remove (· == key)) (Effect.apply m (.delete key)) := by
  refine h.remove fun k => ?_
  simp only [Effect.apply, Function.update_apply, beq_iff_eq]

theorem Holds.evict {t : BusTable} {m : Contents} (h : Holds lib secrets t m) (keys : List Str) :
    Holds lib secrets (t.remove keys.contains) (Effect.apply m (.evict keys)) := by
  refine h.remove fun k => ?_
  simp only [Effect.apply, List.contains_iff_mem]

end

end AskFable.Bus
