import AskFable.Bus.Untrusted
import AskFable.Python.JsonWire

/-!
# What goes between client and owner

The bodies of the requests as the owner reads them, what it answers, and the answers as the
client reads them. A string with the halves of a character comes over with the character.
-/
namespace AskFable.Bus
open AskFable.Text AskFable.Python AskFable.Python.Bytes AskFable.Python.JsonText
open AskFable.Fallible

/-! ### Dicts on the wire -/

def strMember (name s : Str) : Member := ⟨name, dumpAscii s, .str (mend s)⟩

def intMember (name : Str) (n : ℤ) : Member := ⟨name, intStr n, .int n⟩

def boolMember (name : Str) (b : Bool) : Member :=
  ⟨name, if b then txt "true" else txt "false", .bool b⟩

/-- `json.dumps(obj).encode("utf-8")`. -/
def dumped (ms : List Member) : Bytes := asciiBytes (objectText .plain ms)

/-- The dict that is read. -/
def dictOf (ms : List Member) : Dict := ms.map fun m => (m.name, m.value)

/-- `repr` of a time, and how it is read. -/
structure Clock [Host] where
  shown : ℤ → Str
  value : ℤ → Json
  ascii : ∀ t, ∀ c ∈ shown t, c.val < 128
  reads : ∀ t, scanNumber (shown t) = .ok (value t, [])

section
variable [Host]

/-- A member that is read as it was meant, and whose text is ASCII. -/
structure Sound (m : Member) : Prop where
  reads : m.Reads 0
  ascii : ∀ c ∈ m.token, c.val < 128

theorem sound_str {name : Str} (hname : mend name = name) (s : Str) : Sound (strMember name s) :=
  ⟨⟨hname, reads_dumpAscii s⟩, dumpAscii_ascii s⟩

theorem sound_int {name : Str} (hname : mend name = name) {n : ℤ} (hn : n.natAbs < 256 ^ 8) :
    Sound (intMember name n) := by
  refine ⟨⟨hname, reads_int ?_⟩, intStr_ascii n⟩
  have := length_natStr_le hn
  unfold MAX_INT_DIGITS
  omega

theorem sound_bool {name : Str} (hname : mend name = name) (b : Bool) :
    Sound (boolMember name b) := by
  refine ⟨⟨hname, reads_bool b⟩, ?_⟩
  cases b
  · exact (ascii_of_all (by decide) : ∀ c ∈ txt "false", c.val < 128)
  · exact (ascii_of_all (by decide) : ∀ c ∈ txt "true", c.val < 128)

/-- A dict on the wire: members that are read as meant, each name once. -/
structure Legible (ms : List Member) : Prop where
  nonempty : ms ≠ []
  names : (ms.map Member.name).Nodup
  sound : ∀ m ∈ ms, Sound m

theorem loads_legible (l : Layout) {ms : List Member} (h : Legible ms) :
    loads (objectText l ms) = .ok (.obj (dictOf ms)) := by
  have hread := loads_object l Host.nest_pos (fun m hm => (h.sound m hm).reads) h.nonempty h.names
    blank_nil
  rwa [List.append_nil] at hread

omit [Host] in
theorem decode_asciiBytes {s : Str} (h : ∀ c ∈ s, c.val < 128) :
    Utf8.decode (asciiBytes s) = some s := by
  have hencode : Utf8.encode s = some (asciiBytes s) := by
    rw [Utf8.encode, if_neg (by simp [ascii_surrogate h])]
    congr 1
    induction s with
    | nil => rfl
    | cons c s ih =>
      have hc := h c List.mem_cons_self
      have hrest := ih fun d hd => h d (List.mem_cons_of_mem c hd)
      unfold Utf8.encodePass at hrest ⊢
      rw [List.flatMap_cons, hrest, Utf8.encodeChar, if_pos hc]
      rfl
  exact Utf8.decode_encode hencode

/-- The client reads an answer back. -/
theorem document_dumped {ms : List Member} (h : Legible ms) :
    document (dumped ms) = .ok (.obj (dictOf ms)) := by
  have hne : dumped ms ≠ [] := by simp [dumped, objectText, asciiBytes]
  have hascii := objectText_ascii .plain fun m hm => (h.sound m hm).ascii
  rw [document, if_neg hne, dumped, decode_asciiBytes hascii]
  dsimp only
  rw [loads_legible .plain h]

/-! ### Requests -/

/-- What a request is read as. -/
def Message.payload : Message → List Member
  | .put key envelope writer tsNs plaintextBytes =>
    [strMember (txt "key") key, strMember (txt "envelope") envelope,
      strMember (txt "writer") writer, intMember (txt "ts_ns") tsNs,
      intMember (txt "plaintext_bytes") plaintextBytes]
  | .get key | .delete key => [strMember (txt "key") key]
  | .list => [boolMember (txt "bounded") true]

omit [Host] in
theorem body_eq (m : Message) : m.body = objectText .compact m.payload := by
  cases m <;> simp [Message.body, Message.payload, objectText, joined, Member.text, strMember,
    intMember, boolMember, intStr, Layout.compact] <;> rfl

/-- The numbers of a request that fit their fields. -/
def Message.Sized : Message → Prop
  | .put _ _ _ tsNs plaintextBytes => tsNs.natAbs < 256 ^ 8 ∧ plaintextBytes < 256 ^ 8
  | .get _ | .delete _ | .list => True

theorem legible_payload {m : Message} (h : m.Sized) : Legible m.payload := by
  cases m with
  | put key envelope writer tsNs plaintextBytes =>
    refine ⟨by simp [Message.payload], (by decide : [txt "key", txt "envelope", txt "writer",
      txt "ts_ns", txt "plaintext_bytes"].Nodup), ?_⟩
    simp only [Message.payload, List.forall_mem_cons]
    exact ⟨sound_str (by decide) _, sound_str (by decide) _, sound_str (by decide) _,
      sound_int (by decide) h.1, sound_int (by decide) h.2, List.forall_mem_nil _⟩
  | get key | delete key =>
    refine ⟨by simp [Message.payload], List.nodup_singleton _, ?_⟩
    simp only [Message.payload, List.forall_mem_cons]
    exact ⟨sound_str (by decide) _, List.forall_mem_nil _⟩
  | list =>
    refine ⟨by simp [Message.payload], List.nodup_singleton _, ?_⟩
    simp only [Message.payload, List.forall_mem_cons]
    exact ⟨sound_bool (by decide) _, List.forall_mem_nil _⟩

/-- The owner reads a request as the client meant it, strings mended. -/
theorem loads_body {m : Message} (h : m.Sized) : loads m.body = .ok (.obj (dictOf m.payload)) := by
  rw [body_eq]
  exact loads_legible .compact (legible_payload h)

/-! ### Answers -/

def protoMember : Member := intMember (txt "proto") PROTO

/-- `_send(200, …)`. -/
def answer (ms : List Member) : ℕ × Bytes := (200, dumped (protoMember :: ms))

/-- `_reject`. -/
def rejection (status : ℕ) (error : Str) : ℕ × Bytes :=
  (status, dumped [protoMember, strMember (txt "error") error])

/-- The answer to a put that is accepted. -/
def acknowledged : ℕ × Bytes := answer [boolMember (txt "ok") true]

def deleted (was : Bool) : ℕ × Bytes := answer [boolMember (txt "deleted") was]

/-- The members of a row that is there. -/
def rowMembers (clock : Clock) (r : BusRow) : List Member :=
  [boolMember (txt "found") true, strMember (txt "key") r.key,
    strMember (txt "envelope") r.envelope, strMember (txt "writer") r.writer,
    intMember (txt "ts_ns") r.writerTs,
    ⟨txt "received_ts", clock.shown r.receivedTs, clock.value r.receivedTs⟩,
    intMember (txt "plaintext_bytes") r.plaintextBytes]

def found (clock : Clock) : Option BusRow → ℕ × Bytes
  | none => answer [boolMember (txt "found") false]
  | some r => answer (rowMembers clock r)

/-- `do_POST` past its checks: the body is read, and the handler of the path answers or dies. The
sweep after a put is not part of it. -/
def Daemon.serve (clock : Clock) (st : Daemon) (m : Message) (now received : ℤ) :
    Daemon × Option (ℕ × Bytes) :=
  match loads m.body with
  | .error .recursion => (st, none)
  | .error .value | .error .digits => (st, some (rejection 400 (txt "body is not valid JSON")))
  | .ok (.obj payload) =>
    match m with
    | .put .. =>
      match st.put 0 payload none now received with
      | (st, .ok .ok) => (st, some acknowledged)
      | (st, .ok (.reject status error)) => (st, some (rejection status error))
      | (st, .error _) => (st, none)
    | .get _ =>
      match st.get payload with
      | .ok row => (st, some (found clock row))
      | .error _ => (st, none)
    | .delete _ =>
      match st.delete payload with
      | (st, .ok was) => (st, some (deleted was))
      | (st, .error _) => (st, none)
    | .list => (st, some (200, listBounded clock.shown st.table))
  | .ok _ => (st, some (rejection 400 (txt "body must be a JSON object")))

/-! ### Answers as the client reads them -/

theorem response_refused {status : ℕ} (h : 400 ≤ status) (body : Bytes) (obj : Dict) :
    response status body ≠ .ok obj := by
  intro hok
  obtain ⟨doc, -, hok⟩ := of_bind_ok hok
  dsimp only at hok
  split_ifs at hok with h401 h409
  all_goals simp [refused] at hok

/-- The client takes an answer for what it says, or refuses it. -/
theorem response_answer {ms : List Member} (h : Legible (protoMember :: ms)) {obj : Dict}
    (hok : response 200 (dumped (protoMember :: ms)) = .ok obj) :
    obj = dictOf (protoMember :: ms) := by
  unfold response at hok
  by_cases hlong : (dumped (protoMember :: ms)).length ≤ MAX_RESPONSE
  · have hshort : ¬MAX_RESPONSE < (dumped (protoMember :: ms)).length := by omega
    rw [List.take_of_length_le (by omega)] at hok
    obtain ⟨doc, hdoc, hok⟩ := of_bind_ok hok
    rw [document_dumped h] at hdoc
    obtain rfl := Except.ok.inj hdoc
    dsimp only [Json.asDict] at hok
    rw [if_neg (by decide), if_neg (by decide), if_neg (by decide), if_neg hshort] at hok
    split_ifs at hok
    · exact (Except.ok.inj hok).symm
    · nomatch hok
  · have htake : MAX_RESPONSE <
        ((dumped (protoMember :: ms)).take (MAX_RESPONSE + 1)).length := by
      rw [List.length_take]
      omega
    obtain ⟨doc, -, hok⟩ := of_bind_ok hok
    dsimp only at hok
    rw [if_neg (by decide), if_neg (by decide), if_neg (by decide), if_pos htake] at hok
    nomatch hok

end

end AskFable.Bus
