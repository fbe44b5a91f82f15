import AskFable.Bus.Served

/-!
# The bus is one register for each key

Whatever machines write, read and delete through a bus with its owner at the same time, each call
that returns took effect at one point between its beginning and its end, and was told how things
stood there: as if the calls had come one after another.
-/
namespace AskFable.Bus
open AskFable.Text AskFable.Python AskFable.Python.Bytes AskFable.Python.JsonText AskFable.Linear
open AskFable.Fallible

section
variable [Host] {lib : Library} {secrets : Byte → Bytes} (clock : Clock) (st : Daemon)
  (now received : ℤ)

/-! ### Requests of a caller -/

theorem request_left {net : Net} {m m' : Message} (h : (request net m).1 = some m') : m' = m := by
  unfold request at h
  split_ifs at h
  cases htoken : net.token with
  | some e => simp [htoken] at h
  | none =>
    cases hconnection : net.connection with
    | some e => simp [htoken, hconnection] at h
    | none =>
      simp only [htoken, hconnection, Option.some.injEq] at h
      exact h.symm

/-- The request of a put carries the value sealed. -/
theorem put_request {env : Env} {w : Write} {m : Message}
    (h : (Op.put w).request lib env = some m) :
    ∃ envelope kr, env.keyring = .ok kr ∧
      «seal» lib w.value w.description (strip w.key) w.writer w.tsNs (.ok kr) w.salt w.nonce =
        .ok envelope ∧
      m = .put (strip w.key) envelope w.writer w.tsNs w.value.length := by
  dsimp only [Op.request] at h
  unfold Bus.put at h
  by_cases hnil : strip w.key = []
  · simp [hnil] at h
  rw [if_neg hnil] at h
  cases hm : w.message lib env with
  | error r => cases r <;> simp [hm] at h
  | ok m' =>
    rw [hm] at h
    have hleft : (request env.net m').1 = some m := by
      dsimp only at h
      cases hans : (request env.net m').2 with
      | error f => simpa [hans] using h
      | ok obj => simpa [hans] using h
    obtain rfl := request_left hleft
    obtain ⟨envelope, hseal, hmessage⟩ := of_bind_ok hm
    cases hkr : env.keyring with
    | error e =>
      rw [hkr] at hseal
      nomatch hseal
    | ok kr =>
      rw [hkr] at hseal
      exact ⟨envelope, kr, rfl, hseal, (Except.ok.inj hmessage).symm⟩

theorem fetch_request {env : Env} {key : Str} {m : Message}
    (h : (Op.fetch key).request lib env = some m) : m = .get (strip key) := request_left h

theorem delete_request {env : Env} {key : Str} {m : Message}
    (h : (Op.delete key).request lib env = some m) : m = .delete (strip key) := by
  dsimp only [Op.request] at h
  split_ifs at h
  exact request_left h

/-! ### Calls -/

/-- The call took effect between its beginning and `ended`, on contents of which this holds. -/
abbrev Acted (log : List (Event Effect)) (i began ended : ℕ) (P : Contents → Effect → Prop) :
    Prop :=
  Took Effect.apply (fun _ => none) log i began ended P

/-- The effect is what the operation is for. -/
def Op.Asks : Op → Effect → Prop
  | .put w, e => e = .put (wire w.key) w.value w.description
  | .fetch key, e => e = .get (wire key)
  | .delete key, e => e = .delete (wire key)
  | .entries, _ => False

omit [Host] in
theorem asks_effect (op : Op) (reply : Option (ℕ × Bytes)) : ∀ e ∈ op.effect reply, op.Asks e := by
  intro e he
  cases op with
  | put w =>
    dsimp only [Op.effect] at he
    split_ifs at he
    · exact (Option.some.inj he).symm
    · nomatch he
  | fetch key =>
    obtain ⟨_, -, rfl⟩ := Option.map_eq_some_iff.mp he
    rfl
  | delete key =>
    obtain ⟨_, -, rfl⟩ := Option.map_eq_some_iff.mp he
    rfl
  | entries => nomatch he

variable (lib secrets) in
/-- A row and what it holds. -/
def Rendered (row : Option BusRow) (held : Option (Str × Str)) : Prop :=
  row = none ∧ held = none ∨ ∃ r p, row = some r ∧ Clean r ∧ held = some p ∧
    OpensTo lib secrets r.envelope p.1 p.2

theorem Rendered.isSome {row : Option BusRow} {held : Option (Str × Str)}
    (h : Rendered lib secrets row held) : row.isSome = held.isSome := by
  rcases h with ⟨rfl, rfl⟩ | ⟨r, p, rfl, -, rfl, -⟩ <;> rfl

variable (lib secrets) in
/-- An answer is a refusal of what takes no effect, or what the operation found when it took
effect. -/
def Answered (log : List (Event Effect)) (i began ended : ℕ) (reply : ℕ × Bytes) : Op → Prop
  | .put w => 400 ≤ reply.1 ∧ Idle log i ∨
    reply = acknowledged ∧ Acted log i began ended fun _ => (Op.put w).Asks
  | .fetch key => 400 ≤ reply.1 ∨ ∃ row, reply = found clock row ∧
    Acted log i began ended fun m e => e = .get (wire key) ∧ Rendered lib secrets row (m (wire key))
  | .delete key => 400 ≤ reply.1 ∧ Idle log i ∨ ∃ was, reply = deleted was ∧
    Acted log i began ended fun m e => e = .delete (wire key) ∧ was = (m (wire key)).isSome
  | .entries => True

variable {clock} in
theorem Answered.append {log : List (Event Effect)} {i began ended : ℕ} {reply : ℕ × Bytes}
    {op : Op} (h : Answered lib secrets clock log i began ended reply op)
    {more : List (Event Effect)} (hmore : Idle more i) {ended' : ℕ} (hended : ended ≤ ended') :
    Answered lib secrets clock (log ++ more) i began ended' reply op := by
  have hidle (hlog : Idle log i) : Idle (log ++ more) i := hlog.append hmore
  cases op with
  | put w =>
    exact h.imp (.imp_right hidle)
      (.imp_right fun ha => (ha.append more).imp hended fun _ _ => id)
  | fetch key =>
    exact h.imp_right fun ⟨row, hreply, ha⟩ =>
      ⟨row, hreply, (ha.append more).imp hended fun _ _ => id⟩
  | delete key =>
    exact h.imp (.imp_right hidle) fun ⟨was, hreply, ha⟩ =>
      ⟨was, hreply, (ha.append more).imp hended fun _ _ => id⟩
  | entries => trivial

theorem Holds.rendered {t : BusTable} {m : Contents} (h : Holds lib secrets t m) (k : Str) :
    Rendered lib secrets (t.row? k) (m k) := by
  cases hrow : t.row? k with
  | none => exact .inl ⟨rfl, h.absent k hrow⟩
  | some r =>
    obtain ⟨hclean, p, hp, hopens⟩ := h.present k r hrow
    exact .inr ⟨r, p, rfl, hclean, hp, hopens⟩

/-- The contents after a log. -/
abbrev contents (log : List (Event Effect)) : Contents := state Effect.apply (fun _ => none) log

/-- A request that is served takes effect as its answer says. -/
theorem serve_op (hlib : lib.Ideal) {c : Caller secrets} {m : Message}
    (hm : c.op.request lib c.env = some m) {log : List (Event Effect)}
    (hholds : Holds lib secrets st.table (contents log)) {i began : ℕ} (hbegan : began ≤ log.length)
    (hidle : Idle log i) {daemon : Daemon} {reply : Option (ℕ × Bytes)}
    (hserve : st.serve clock m now received = (daemon, reply)) :
    Holds lib secrets daemon.table
        (contents (log ++ acts i (c.op.effect reply))) ∧
      ∀ r ∈ reply, Answered lib secrets clock
        (log ++ acts i (c.op.effect reply)) i began
        (log ++ acts i (c.op.effect reply)).length r c.op := by
  obtain ⟨machine, env, op, hshares, hsized⟩ := c
  dsimp only at hm ⊢
  cases op with
  | put w =>
    obtain ⟨envelope, kr, hkr, hseal, rfl⟩ := put_request hm
    obtain ⟨hopens, hsurrogate, hts⟩ := opensTo_seal hlib (hshares kr hkr) hseal
    have hbytes : w.value.length < 256 ^ 8 := by
      have := hsized w rfl
      omega
    rcases serve_put clock st now received (strip w.key) w.writer ⟨hts, hbytes⟩
      hsurrogate with
      ⟨row, hkey, henvelope, hclean, hchanged, heq⟩ | ⟨reply', heq, hreply⟩
    · obtain ⟨rfl, rfl⟩ := Prod.mk.inj (hserve.symm.trans heq)
      have hwire : wire w.key = row.key := hkey.symm
      simp only [Op.effect, if_true]
      rw [contents, state_acts, hwire]
      refine ⟨hholds.put st hclean (henvelope ▸ hopens) hchanged, fun r hr => ?_⟩
      exact .inr ⟨(Option.some.inj hr).symm, took_last hbegan (hwire ▸ rfl)⟩
    · obtain ⟨rfl, rfl⟩ := Prod.mk.inj (hserve.symm.trans heq)
      have hnot : reply ≠ some acknowledged := by
        rintro rfl
        exact absurd (hreply _ rfl) (by decide)
      simp only [Op.effect, if_neg hnot]
      rw [acts, Option.map_none, Option.toList_none, List.append_nil]
      exact ⟨hholds, fun r hr => .inl ⟨hreply r hr, hidle⟩⟩
  | fetch key =>
    obtain rfl := fetch_request hm
    rcases serve_get clock st now received (strip key) with heq | heq
    · obtain ⟨rfl, rfl⟩ := Prod.mk.inj (hserve.symm.trans heq)
      simp only [Op.effect, Option.map_some]
      rw [contents, state_acts]
      refine ⟨hholds, fun r hr => .inr ⟨_, (Option.some.inj hr).symm, took_last hbegan ⟨rfl, ?_⟩⟩⟩
      exact hholds.rendered _
    · obtain ⟨rfl, rfl⟩ := Prod.mk.inj (hserve.symm.trans heq)
      simp only [Op.effect, Option.map_none, acts, Option.toList_none, List.append_nil]
      exact ⟨hholds, fun r hr => nomatch hr⟩
  | delete key =>
    obtain rfl := delete_request hm
    rcases serve_delete clock st now received (strip key) with heq | heq
    · obtain ⟨rfl, rfl⟩ := Prod.mk.inj (hserve.symm.trans heq)
      simp only [Op.effect, Option.map_some]
      rw [contents, state_acts]
      refine ⟨hholds.delete _, fun r hr => .inr ⟨_, (Option.some.inj hr).symm, ?_⟩⟩
      exact took_last hbegan ⟨rfl, (hholds.rendered (wire key)).isSome⟩
    · obtain ⟨rfl, rfl⟩ := Prod.mk.inj (hserve.symm.trans heq)
      simp only [Op.effect, Option.map_none, acts, Option.toList_none, List.append_nil]
      exact ⟨hholds, fun r hr => nomatch hr⟩
  | entries =>
    obtain rfl : m = .list := request_left hm
    obtain ⟨rfl, rfl⟩ := Prod.mk.inj (hserve.symm.trans (serve_list clock st now received))
    simp only [Op.effect, acts, Option.map_none, Option.toList_none, List.append_nil]
    exact ⟨hholds, fun r hr => trivial⟩

/-! ### What the client is told -/

variable {F : Type} {floatOf : Json → Option F} {age : F → Option ℤ}

/-- The owner was not reached, or its answer did not come back: the request may have been taken, or
be taken later. -/
def Ending.Unreachable {α : Type} : Ending α → Prop
  | .returned _ (some (.bus e)) => e.kind = .BusUnreachable
  | _ => False

omit [Host] in
theorem Ending.Unreachable.ne {α : Type} {e : Ending α} (h : e.Unreachable) (a : α) :
    e ≠ .returned a none := by
  rintro rfl
  exact h

/-- What the result of a call says. -/
def Told (log : List (Event Effect)) (i began ended : ℕ) : Op → Result F → Prop
  | .put w, .put e =>
    (e = .returned true none → Acted log i began ended fun _ => (Op.put w).Asks) ∧
      (e ≠ .returned true none → e.Unreachable ∨ Idle log i)
  | .fetch key, .fetch e => ∀ r, e = .returned r none → Acted log i began ended fun m e =>
    e = .get (wire key) ∧ r.map (fun p => (p.1, p.2.1)) = m (wire key)
  | .delete key, .delete e =>
    (∀ b, e = .returned b none → strip key ≠ [] → Acted log i began ended fun m e =>
      e = .delete (wire key) ∧ b = (m (wire key)).isSome) ∧
      ((strip key = [] ∨ ∀ b, e ≠ .returned b none) → e.Unreachable ∨ Idle log i)
  | .entries, .entries _ => True
  | _, _ => False

/-- An answer of a few members is taken for what it says. -/
theorem response_short {ms : List Member} (h : Legible (protoMember :: ms))
    (hlength : (dumped (protoMember :: ms)).length ≤ MAX_RESPONSE) :
    response 200 (dumped (protoMember :: ms)) = .ok (dictOf (protoMember :: ms)) := by
  have hproto : (Dict.get (dictOf (protoMember :: ms)) (txt "proto")).any isProto = true := by
    rw [show Dict.get (dictOf (protoMember :: ms)) (txt "proto") = some (.int PROTO) from rfl]
    rfl
  unfold response
  rw [List.take_of_length_le (by omega)]
  simp only [document_dumped h, bind, Except.bind, Json.asDict]
  rw [if_neg (by decide), if_neg (by decide), if_neg (by decide), if_neg (by omega), if_pos hproto]

theorem response_acknowledged : ∃ obj, response acknowledged.1 acknowledged.2 = .ok obj :=
  ⟨_, response_short (legible_flag (by decide) (by decide) true) (by decide)⟩

theorem response_deleted (was : Bool) :
    ∃ obj, response (deleted was).1 (deleted was).2 = .ok obj := by
  refine ⟨_, response_short (legible_flag (by decide) (by decide) was) ?_⟩
  cases was <;> decide

/-- What becomes of a request: it does not leave, or it is not answered, or it is. -/
theorem request_cases (net : Net) (m : Message) (exchange : Except Str (ℕ × Bytes)) :
    (request net m).1 = none ∧ (∃ f, (request { net with exchange } m).2 = .error f) ∨
      (∃ detail, (request { net with exchange } m).2 = refused .BusUnreachable detail) ∨
      ∃ reply : ℕ × Bytes, exchange = .ok reply ∧
        (request { net with exchange } m).2 = response reply.1 reply.2 := by
  unfold request
  dsimp only
  by_cases hurl : strip net.url = []
  · rw [if_pos hurl, if_pos hurl]
    exact .inl ⟨rfl, _, rfl⟩
  rw [if_neg hurl, if_neg hurl]
  by_cases hcap : net.cap < m.body.length
  · rw [if_pos hcap, if_pos hcap]
    exact .inl ⟨rfl, _, rfl⟩
  rw [if_neg hcap, if_neg hcap]
  cases net.token with
  | some e => exact .inl ⟨rfl, _, rfl⟩
  | none =>
    cases net.connection with
    | some e => exact .inl ⟨rfl, _, rfl⟩
    | none =>
      cases exchange with
      | error detail => exact .inr (.inl ⟨_, rfl⟩)
      | ok reply => exact .inr (.inr ⟨reply, rfl, rfl⟩)

variable (lib) in
theorem put_ending (env : Env) (marks : Marks) (w : Write) (exchange : Except Str (ℕ × Bytes))
    {e : Ending Bool}
    (he : (put lib { env with net := { env.net with exchange } } marks w).2.2 = e) :
    (Op.put w).request lib env = none ∧ e ≠ .returned true none ∨ e.Unreachable ∨
      ∃ reply : ℕ × Bytes, exchange = .ok reply ∧
        ((∃ obj, response reply.1 reply.2 = .ok obj) ↔ e = .returned true none) := by
  dsimp only [Op.request]
  unfold put at he ⊢
  by_cases hnil : strip w.key = []
  · rw [if_pos hnil] at he
    rw [if_pos hnil, ← he]
    exact .inl ⟨rfl, by simp⟩
  rw [if_neg hnil] at he
  rw [if_neg hnil]
  have hmessage : w.message lib { env with net := { env.net with exchange } } =
      w.message lib env := rfl
  rw [hmessage] at he
  cases hm : w.message lib env with
  | error r =>
    rw [hm] at he
    cases r with
    | crypto err => exact .inl ⟨rfl, by rw [← he]; simp⟩
    | fault f => exact .inl ⟨rfl, by rw [← he]; simp⟩
  | ok m =>
    rw [hm] at he
    dsimp only at he ⊢
    rcases request_cases env.net m exchange with ⟨hnone, f, hf⟩ | ⟨detail, hd⟩ | ⟨reply, rfl, hr⟩
    · rw [hf] at he
      refine .inl ⟨?_, by rw [← he]; cases f <;> simp [caught]⟩
      cases hans : (request env.net m).2 <;> exact hnone
    · rw [hd] at he
      refine .inr (.inl ?_)
      rw [← he]
      exact (rfl : BusKind.BusUnreachable = .BusUnreachable)
    · refine .inr (.inr ⟨reply, rfl, ?_⟩)
      rw [hr] at he
      cases hresponse : response reply.1 reply.2 with
      | error f =>
        rw [hresponse] at he
        rw [← he]
        cases f <;> simp [caught]
      | ok obj =>
        rw [hresponse] at he
        exact iff_of_true ⟨obj, rfl⟩ he.symm

variable (lib) in
theorem delete_ending (env : Env) (marks : Marks) (key : Str)
    (exchange : Except Str (ℕ × Bytes)) {e : Ending Bool}
    (he : (delete { env with net := { env.net with exchange } } marks key).2 = e) :
    (Op.delete key).request lib env = none ∧ (strip key ≠ [] → ∀ b, e ≠ .returned b none) ∨
      e.Unreachable ∨ ∃ reply : ℕ × Bytes, exchange = .ok reply ∧ strip key ≠ [] ∧
        ((∃ obj, response reply.1 reply.2 = .ok obj ∧
          e = .returned (Dict.truthy obj (txt "deleted")) none) ∨
        ((∀ obj, response reply.1 reply.2 ≠ .ok obj) ∧ ∀ b, e ≠ .returned b none)) := by
  dsimp only [Op.request]
  unfold delete at he
  dsimp only at he
  by_cases hnil : strip key = []
  · rw [if_pos hnil]
    exact .inl ⟨rfl, fun hne => absurd hnil hne⟩
  rw [if_neg hnil] at he ⊢
  rcases request_cases env.net (.delete (strip key)) exchange with
    ⟨hnone, f, hf⟩ | ⟨detail, hd⟩ | ⟨reply, rfl, hr⟩
  · rw [hf] at he
    refine .inl ⟨hnone, fun _ b => ?_⟩
    rw [← he]
    cases f <;> simp [caught]
  · rw [hd] at he
    refine .inr (.inl ?_)
    rw [← he]
    exact (rfl : BusKind.BusUnreachable = .BusUnreachable)
  · refine .inr (.inr ⟨reply, rfl, hnil, ?_⟩)
    rw [hr] at he
    cases hresponse : response reply.1 reply.2 with
    | error f =>
      rw [hresponse] at he
      rw [← he]
      refine .inr ⟨by simp, fun b => ?_⟩
      cases f <;> simp [caught]
    | ok obj =>
      rw [hresponse] at he
      refine .inl ⟨obj, rfl, ?_⟩
      rw [← he]
      dsimp only
      split_ifs with hdeleted
      · rw [hdeleted]
      · rw [Bool.not_eq_true] at hdeleted
        rw [hdeleted]

variable (lib secrets floatOf age) in
/-- The answer a result was made of, if there was one. -/
def Explained (c : Call secrets F) (log : List (Event Effect)) (i : ℕ) (r : Result F)
    (ended : ℕ) : Prop :=
  ∃ exchange marks, r = (c.caller.op.finish lib floatOf age c.caller.env exchange marks).2 ∧
    ∀ reply, exchange = .ok reply → c.reply = some reply ∧
      Answered lib secrets clock log i c.began ended reply c.caller.op

variable {clock}

theorem deleted_response {was : Bool} {obj : Dict}
    (h : response (deleted was).1 (deleted was).2 = .ok obj) :
    Dict.truthy obj (txt "deleted") = was := by
  obtain rfl := response_answer (legible_flag (by decide) (by decide) was) h
  cases was <;> rfl

/-- How the client reads the row of a key. -/
theorem found_response {row : Option BusRow} {held : Option (Str × Str)}
    (hrow : Rendered lib secrets row held) {obj : Dict}
    (h : response (found clock row).1 (found clock row).2 = .ok obj) :
    held = none ∧ Dict.truthy obj (txt "found") = false ∨
      ∃ (r : BusRow) (p : Str × Str), held = some p ∧ OpensTo lib secrets r.envelope p.1 p.2 ∧
        Dict.truthy obj (txt "found") = true ∧ Dict.text obj (txt "envelope") = r.envelope := by
  rcases hrow with ⟨rfl, rfl⟩ | ⟨r, p, rfl, hclean, rfl, hopens⟩
  · obtain rfl := response_answer (legible_flag (by decide) (by decide) false) h
    exact .inl ⟨rfl, rfl⟩
  · obtain rfl := response_answer (legible_row clock hclean) h
    exact .inr ⟨r, p, rfl, hopens, rfl, (text_str rfl).trans (mend_eq hclean.envelope)⟩

/-- What a fetch that returns was answered, and what it made of it. -/
theorem fetch_told {env : Env} {marks : Marks} {key : Str} {x : Option (Str × Str × F)}
    (h : (fetch lib env floatOf marks key).2 = .returned x none) :
    ∃ (reply : ℕ × Bytes) (obj : Dict), env.net.exchange = .ok reply ∧
      response reply.1 reply.2 = .ok obj ∧
      (x = none ∧ Dict.truthy obj (txt "found") = false ∨
        ∃ v d received kr, x = some (v, d, received) ∧ Dict.truthy obj (txt "found") = true ∧
          env.keyring = .ok kr ∧
          «unseal» lib (Dict.text obj (txt "envelope")) (strip key) (.ok kr) = .ok (v, d)) := by
  cases x with
  | none =>
    obtain ⟨reply, obj, hexchange, hobj, ⟨-, hfound⟩ | ⟨received, hsome, -⟩⟩ :=
      row_ok (fetch_none h)
    · exact ⟨reply, obj, hexchange, hobj, .inl ⟨rfl, hfound⟩⟩
    · nomatch hsome
  | some p =>
    obtain ⟨v, d, received⟩ := p
    obtain ⟨envelope, kr, e, hrow, hkr, hunseal, -⟩ := fetch_returned h
    obtain ⟨reply, obj, hexchange, hobj, ⟨hnone, -⟩ | ⟨received', hsome, hfound⟩⟩ := row_ok hrow
    · nomatch hnone
    · obtain ⟨rfl, -⟩ := Prod.mk.inj (Option.some.inj hsome)
      exact ⟨reply, obj, hexchange, hobj, .inr ⟨v, d, received, kr, rfl, hfound, hkr, hunseal⟩⟩

/-- A result says what happened to its call. -/
theorem told_of_explained {c : Call secrets F} {log : List (Event Effect)} {i : ℕ} {r : Result F}
    {ended : ℕ} (h : Explained lib secrets clock floatOf age c log i r ended)
    (hunsent : c.caller.op.request lib c.caller.env = none → Idle log i) :
    Told log i c.began ended c.caller.op r := by
  obtain ⟨exchange, marks, rfl, hanswered⟩ := h
  obtain ⟨⟨machine, env, op, hshares, hsized⟩, began, request, reply, result⟩ := c
  dsimp only at hanswered hunsent ⊢
  cases op with
  | put w =>
    rcases put_ending lib env marks w exchange rfl with
      ⟨hnone, hne⟩ | hunreachable | ⟨reply, rfl, hiff⟩
    · exact ⟨fun he => absurd he hne, fun _ => .inr (hunsent hnone)⟩
    · exact ⟨fun he => absurd he (hunreachable.ne true), fun _ => .inl hunreachable⟩
    · rcases (hanswered reply rfl).2 with ⟨hrefused, hidle⟩ | ⟨rfl, hacted⟩
      · refine ⟨fun he => ?_, fun _ => .inr hidle⟩
        obtain ⟨obj, hobj⟩ := hiff.mpr he
        exact absurd hobj (response_refused hrefused _ _)
      · exact ⟨fun _ => hacted, fun hne => absurd (hiff.mp response_acknowledged) hne⟩
  | fetch key =>
    intro x he
    obtain ⟨reply, obj, hexchange, hobj, hrow⟩ := fetch_told he
    obtain rfl : exchange = .ok reply := hexchange
    rcases (hanswered reply rfl).2 with hrefused | ⟨row, rfl, hacted⟩
    · exact absurd hobj (response_refused hrefused _ _)
    refine hacted.imp le_rfl fun m e hact => ⟨hact.1, ?_⟩
    rcases found_response hact.2 hobj with
      ⟨hheld, hfound⟩ | ⟨r, p, hheld, hopens, hfound, henvelope⟩
    · rcases hrow with ⟨rfl, -⟩ | ⟨v, d, received, kr, -, hfound', -⟩
      · exact hheld.symm
      · exact absurd hfound' (by simp [hfound])
    · rcases hrow with ⟨-, hfound'⟩ | ⟨v, d, received, kr, rfl, -, hkr, hunseal⟩
      · exact absurd hfound (by simp [hfound'])
      · rw [henvelope] at hunseal
        rw [hheld]
        exact congrArg some (hopens kr (hshares kr hkr) _ _ hunseal)
  | delete key =>
    rcases delete_ending lib env marks key exchange rfl with
      ⟨hnone, hne⟩ | hunreachable | ⟨reply, rfl, hkey, hending⟩
    · exact ⟨fun b he hkey => absurd he (hne hkey b), fun _ => .inr (hunsent hnone)⟩
    · exact ⟨fun b he => absurd he (hunreachable.ne b), fun _ => .inl hunreachable⟩
    · rcases (hanswered reply rfl).2 with ⟨hrefused, hidle⟩ | ⟨was, rfl, hacted⟩
      · refine ⟨fun b he => ?_, fun _ => .inr hidle⟩
        rcases hending with ⟨obj, hobj, -⟩ | ⟨-, hno⟩
        · exact absurd hobj (response_refused hrefused _ _)
        · exact absurd he (hno b)
      · have hended : (delete { env with net := { env.net with exchange := .ok (deleted was) } }
            marks key).2 = .returned was none := by
          obtain ⟨obj, hobj⟩ := response_deleted was
          rcases hending with ⟨obj', hobj', hsaid⟩ | ⟨hno, -⟩
          · rwa [deleted_response hobj'] at hsaid
          · exact absurd hobj (hno obj)
        refine ⟨fun b he _ => ?_, fun hno => absurd hended (hno.resolve_left hkey was)⟩
        obtain ⟨rfl, -⟩ := Ending.returned.inj (hended.symm.trans he)
        exact hacted
  | entries => trivial

/-! ### Runs -/

variable (lib clock floatOf age) in
/-- A call so far: its request waits and it took no effect, or it was answered for what it did. -/
structure Call.Accounted (c : Call secrets F) (log : List (Event Effect)) (i : ℕ) : Prop where
  began : c.began ≤ log.length
  request : ∀ m, c.request = some m → c.caller.op.request lib c.caller.env = some m ∧
    c.reply = none ∧ Idle log i
  unsent : c.caller.op.request lib c.caller.env = none → Idle log i
  reply : ∀ reply, c.reply = some reply →
    Answered lib secrets clock log i c.began log.length reply c.caller.op
  result : ∀ r ended, c.result = some (r, ended) →
    Explained lib secrets clock floatOf age c log i r ended

theorem answered_refused {log : List (Event Effect)} {i : ℕ} (hidle : Idle log i) (began ended : ℕ)
    {reply : ℕ × Bytes} (hreply : 400 ≤ reply.1) (op : Op) :
    Answered lib secrets clock log i began ended reply op := by
  cases op with
  | put w => exact .inl ⟨hreply, hidle⟩
  | fetch key => exact .inl hreply
  | delete key => exact .inl ⟨hreply, hidle⟩
  | entries => trivial

/-- The request of a call is taken. -/
theorem Call.Accounted.answer {c : Call secrets F} {log : List (Event Effect)} {i : ℕ}
    (h : c.Accounted lib clock floatOf age log i) {m : Message} (hm : c.request = some m)
    {effect : Option Effect} {reply : Option (ℕ × Bytes)}
    (hreply : ∀ r ∈ reply, Answered lib secrets clock (log ++ acts i effect) i c.began
      (log ++ acts i effect).length r c.caller.op) :
    Call.Accounted lib clock floatOf age { c with request := none, reply }
      (log ++ acts i effect) i where
  began := h.began.trans (by simp)
  request _ hm' := nomatch hm'
  unsent hnone := nomatch hnone.symm.trans (h.request m hm).1
  reply r hr := hreply r hr
  result r ended hr := by
    obtain ⟨exchange, marks, hmade, hanswered⟩ := h.result r ended hr
    refine ⟨exchange, marks, hmade, fun reply' hreply' => ?_⟩
    -- a call that ended before its request was taken was not answered
    nomatch (h.request m hm).2.1.symm.trans (hanswered reply' hreply').1

omit [Host] in
theorem heard_ok {c : Call secrets F} (lost : Option Str) (reply : ℕ × Bytes)
    (h : c.heard lost = .ok reply) : c.reply = some reply := by
  unfold Call.heard at h
  split at h
  · rename_i hreply
    rw [hreply, Except.ok.inj h]
  · nomatch h
  · nomatch h

/-- The call ends, with the answer that came back if one did. -/
theorem Call.Accounted.finish {c : Call secrets F} {log : List (Event Effect)} {i : ℕ}
    (h : c.Accounted lib clock floatOf age log i) {exchange : Except Str (ℕ × Bytes)}
    (hexchange : ∀ reply, exchange = .ok reply → c.reply = some reply) (marks : Marks) :
    Call.Accounted lib clock floatOf age
      { c with
        result := some
          ((c.caller.op.finish lib floatOf age c.caller.env exchange marks).2, log.length) }
      log i where
  began := h.began
  request := h.request
  unsent := h.unsent
  reply := h.reply
  result r ended hr := by
    obtain ⟨rfl, rfl⟩ := Prod.mk.inj (Option.some.inj hr)
    exact ⟨exchange, marks, rfl, fun reply hreply =>
      ⟨hexchange reply hreply, h.reply reply (hexchange reply hreply)⟩⟩

/-- What others do changes nothing of a call. -/
theorem Call.Accounted.append {c : Call secrets F} {log : List (Event Effect)} {i : ℕ}
    (h : c.Accounted lib clock floatOf age log i) {more : List (Event Effect)}
    (hmore : Idle more i) : c.Accounted lib clock floatOf age (log ++ more) i := by
  have hidle (hlog : Idle log i) : Idle (log ++ more) i := hlog.append hmore
  refine ⟨h.began.trans (by simp), fun m hm => ?_, fun hnone => hidle (h.unsent hnone),
    fun reply hreply => (h.reply reply hreply).append hmore (by simp), fun r ended hr => ?_⟩
  · obtain ⟨hop, hreply, hlog⟩ := h.request m hm
    exact ⟨hop, hreply, hidle hlog⟩
  · obtain ⟨exchange, marks, hmade, hanswered⟩ := h.result r ended hr
    exact ⟨exchange, marks, hmade, fun reply hreply =>
      ⟨(hanswered reply hreply).1, (hanswered reply hreply).2.append hmore le_rfl⟩⟩

variable {maxRows : ℕ}

variable (maxRows) in
/-- Each effect was asked for by its call, and without a row cap there are no others. -/
structure World.Justified (w : World secrets F) : Prop where
  asked : ∀ e ∈ w.log, ∀ i ∈ e.call, ∃ c, w.calls[i]? = some c ∧ c.caller.op.Asks e.effect
  evicted : ∀ e ∈ w.log, e.call = none → maxRows ≠ 0 ∧ ∃ keys, e.effect = .evict keys

omit [Host] in
/-- A call that is new took no effect. -/
theorem World.Justified.idle {w : World secrets F} (h : w.Justified maxRows) :
    Idle w.log w.calls.length := by
  intro e he hcall
  obtain ⟨c, hc, -⟩ := h.asked e he _ hcall
  exact absurd (List.getElem?_eq_some_iff.mp hc).1 (lt_irrefl _)

variable (lib clock floatOf age maxRows) in
/-- The invariant of a bus. -/
structure World.Accounted (w : World secrets F) : Prop where
  once : Once w.log
  justified : w.Justified maxRows
  holds : Holds lib secrets w.daemon.table (contents w.log)
  calls : ∀ i (c : Call secrets F), w.calls[i]? = some c → c.Accounted lib clock floatOf age w.log i

theorem accounted_start : (World.start secrets F).Accounted lib clock floatOf age maxRows where
  once := List.nodup_nil
  justified := ⟨nofun, nofun⟩
  holds := holds_empty
  calls _ _ h := nomatch h

omit [Host] in
/-- What a call asked for is logged. -/
theorem World.Justified.set {w : World secrets F} (h : w.Justified maxRows) {i : ℕ}
    {c c' : Call secrets F} (hc : w.calls[i]? = some c) (hcaller : c'.caller = c.caller)
    {effect : Option Effect} (hasks : ∀ e ∈ effect, c.caller.op.Asks e) (daemon : Daemon)
    (fleet : Fleet) :
    World.Justified maxRows ⟨daemon, fleet, w.calls.set i c', w.log ++ acts i effect⟩ := by
  have hlt : i < w.calls.length := (List.getElem?_eq_some_iff.mp hc).1
  have hkept {j : ℕ} {d : Call secrets F} (hd : w.calls[j]? = some d) :
      ∃ d', (w.calls.set i c')[j]? = some d' ∧ d'.caller = d.caller := by
    rw [List.getElem?_set]
    split_ifs with hij
    · obtain rfl := hij
      obtain rfl := Option.some.inj (hc.symm.trans hd)
      exact ⟨c', rfl, hcaller⟩
    · exact ⟨d, hd, rfl⟩
  refine ⟨fun e he j hj => ?_, fun e he hnone => ?_⟩
  · rcases List.mem_append.mp he with hold | hacts
    · obtain ⟨d, hd, hask⟩ := h.asked e hold j hj
      obtain ⟨d', hd', hsame⟩ := hkept hd
      exact ⟨d', hd', hsame ▸ hask⟩
    · obtain rfl : j = i := Option.some.inj (hj.symm.trans (mem_acts hacts).1)
      obtain ⟨d', hd', hsame⟩ := hkept hc
      exact ⟨d', hd', hsame ▸ hasks _ (mem_acts hacts).2⟩
  · rcases List.mem_append.mp he with hold | hacts
    · exact h.evicted e hold hnone
    · nomatch hnone.symm.trans (mem_acts hacts).1

/-- A call changes, and what it did is logged. -/
theorem World.Accounted.set {w : World secrets F} (h : w.Accounted lib clock floatOf age maxRows)
    {i : ℕ} {c : Call secrets F} (hc : w.calls[i]? = some c) {c' : Call secrets F}
    {effect : Option Effect} (hcall : c'.Accounted lib clock floatOf age (w.log ++ acts i effect) i)
    (hcaller : c'.caller = c.caller) (hasks : ∀ e ∈ effect, c.caller.op.Asks e)
    (hidle : effect ≠ none → Idle w.log i) {daemon : Daemon}
    (hholds : Holds lib secrets daemon.table (contents (w.log ++ acts i effect)))
    (fleet : Fleet) :
    World.Accounted lib clock floatOf age maxRows
      ⟨daemon, fleet, w.calls.set i c', w.log ++ acts i effect⟩ := by
  refine ⟨h.once.acts hidle, h.justified.set hc hcaller hasks daemon fleet, hholds,
    fun j d hd => ?_⟩
  dsimp only at hd ⊢
  rw [List.getElem?_set] at hd
  split_ifs at hd with hij
  · obtain rfl := hij
    obtain rfl := Option.some.inj hd
    exact hcall
  · exact (h.calls j d hd).append (idle_acts hij effect)

/-- One thing that happens. -/
theorem World.Accounted.step (hlib : lib.Ideal) {w : World secrets F}
    (h : w.Accounted lib clock floatOf age maxRows) (a : Happening secrets) :
    (w.step lib clock floatOf age maxRows a).Accounted lib clock floatOf age maxRows := by
  have hquiet := append_acts_none w.log
  cases a with
  | begin c =>
    have hnew : Idle w.log w.calls.length := h.justified.idle
    refine ⟨h.once, ⟨fun e he j hj => ?_, h.justified.evicted⟩, h.holds, fun j d hd => ?_⟩
    · obtain ⟨d, hd, hask⟩ := h.justified.asked e he j hj
      exact ⟨d, (List.getElem?_append_left (List.getElem?_eq_some_iff.mp hd).1).trans hd, hask⟩
    · dsimp only [World.step] at hd ⊢
      rw [List.getElem?_append] at hd
      split_ifs at hd with hj
      · exact h.calls j d hd
      · obtain ⟨hzero, rfl⟩ := List.getElem?_eq_some_iff.mp hd
        obtain rfl : j = w.calls.length := by
          rw [List.length_singleton] at hzero
          omega
        simp only [Nat.sub_self, List.getElem_cons_zero]
        exact ⟨le_rfl, fun m hm => ⟨hm, rfl, hnew⟩, fun _ => hnew, by simp, by simp⟩
  | take i turned now received =>
    dsimp only [World.step]
    cases hc : w.calls[i]? with
    | none => exact h
    | some c =>
      have hcall := h.calls i c hc
      dsimp only
      cases hm : c.request with
      | none => exact h
      | some m =>
        obtain ⟨hop, hreply, hidle⟩ := hcall.request m hm
        cases turned with
        | some reply =>
          have hanswer : Call.Accounted lib clock floatOf age
              { c with request := none, reply := some reply.1 } (w.log ++ acts i none) i :=
            hcall.answer hm fun r hr => by
              rw [← Option.some.inj hr, hquiet]
              exact answered_refused hidle _ _ reply.2 _
          have hset := h.set hc hanswer rfl (by simp) (by simp) (by rw [hquiet]; exact h.holds)
            w.fleet
          rwa [hquiet] at hset
        | none =>
          dsimp only
          obtain ⟨daemon, reply, hserve⟩ : ∃ daemon reply,
            w.daemon.serve clock m now received = (daemon, reply) := ⟨_, _, rfl⟩
          rw [hserve]
          obtain ⟨hholds, hanswered⟩ := serve_op clock w.daemon now received hlib hop
            h.holds hcall.began hidle hserve
          exact h.set hc (hcall.answer hm hanswered) rfl (asks_effect _ _) (fun _ => hidle) hholds
            w.fleet
  | finish i lost =>
    dsimp only [World.step]
    cases hc : w.calls[i]? with
    | none => exact h
    | some c =>
      have hcall := h.calls i c hc
      dsimp only
      cases hr : c.result with
      | some r => exact h
      | none =>
        have hended := hcall.finish (heard_ok lost) (w.fleet c.caller.machine)
        rw [← hquiet i] at hended
        have hset := h.set hc hended rfl (by simp) (by simp) (by rw [hquiet]; exact h.holds)
          (Function.update w.fleet c.caller.machine (c.caller.op.finish lib floatOf age c.caller.env
            (c.heard lost) (w.fleet c.caller.machine)).1)
        rwa [hquiet] at hset
  | sweep writer n =>
    dsimp only [World.step]
    by_cases hcap : maxRows = 0
    · rw [if_pos hcap]
      exact h
    rw [if_neg hcap]
    have hswept (i : ℕ) : Idle [⟨none, Effect.evict (oldestOf w.daemon.table writer n)⟩] i := by
      intro e he
      rw [List.mem_singleton.mp he]
      exact nofun
    refine ⟨h.once.append (by simp) _, ⟨fun e he i hi => ?_, fun e he hnone => ?_⟩, ?_,
      fun i c hc => (h.calls i c hc).append (hswept i)⟩
    · rcases List.mem_append.mp he with hold | hnew
      · exact h.justified.asked e hold i hi
      · exact absurd hi (hswept i e hnew)
    · rcases List.mem_append.mp he with hold | hnew
      · exact h.justified.evicted e hold hnone
      · rw [List.mem_singleton.mp hnew]
        exact ⟨hcap, _, rfl⟩
    · dsimp only
      rw [contents, state_append]
      exact h.holds.evict _

variable (clock floatOf age maxRows) in
theorem accounted_run (hlib : lib.Ideal) (hs : List (Happening secrets)) :
    ((World.start secrets F).run lib clock floatOf age maxRows hs).Accounted lib clock floatOf age
      maxRows :=
  Machine.foldl_invariant _ (fun _ a h => h.step hlib a) accounted_start hs

end

def aSecret (_ : Byte) : Bytes := (zeros KEY_LEN).1

theorem shares_single : (Keyring.single 1 (zeros KEY_LEN)).Shares aSecret := by
  intro kid psk h
  simp only [Keyring.get, Keyring.single, List.find?_cons, List.find?_nil] at h
  split at h
  · exact (Option.some.inj h).symm
  · exact absurd h (by simp)

/-- A machine of the bus that reads. -/
def aReader : Caller aSecret where
  machine := 1
  env := aMachine (.error [])
  op := .fetch (txt " k")
  shares _ h := Except.ok.inj h ▸ shares_single
  sized _ h := nomatch h

def aWriter : Caller aSecret where
  machine := 0
  env := aMachine (.error [])
  op := .put aWrite
  shares _ h := Except.ok.inj h ▸ shares_single
  sized _ h := by
    rw [← Op.put.inj h]
    decide

def aClock : letI := Host.ascii; Clock :=
  letI := Host.ascii
  { shown := fun _ => txt "17.5"
    value := fun _ => .float (txt "17.5")
    ascii := fun _ => ascii_of_all (by decide)
    reads := fun _ => rfl }

/-- The read begins before the write is taken, and is taken after it. -/
def aRun : List (Happening aSecret) :=
  [.begin aWriter, .begin aReader, .take 0 none 0 0, .take 1 none 0 0, .finish 1 none,
    .finish 0 (some (txt "timed out"))]

end AskFable.Bus
