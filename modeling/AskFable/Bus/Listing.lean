import AskFable.Bus.ReplayFloor
import AskFable.Python.JsonAscii
import Mathlib.Algebra.BigOperators.Group.List.Basic
import Mathlib.Algebra.Order.BigOperators.Group.List

/-!
# Bounded listings

A bounded listing writes the metadata of every row, and its envelope while a budget lasts. Only
the envelopes are bounded: what the client accepts is used up by enough rows, or by long enough
keys, and then no listing gets through.
-/
namespace AskFable.Bus
open AskFable.Text AskFable.Python AskFable.Python.JsonText AskFable.Python.Bytes

def DEFAULT_MAX_BYTES : ℕ := 8 * 1024 * 1024
def MAX_RESPONSE : ℕ := 64 * 1024 * 1024
def LIST_INLINE_MAX : ℕ := 256 * 1024
def LIST_INLINE_BUDGET : ℕ := 16 * 1024 * 1024

/-- The rows with the envelopes that are sent, as the budget lasts. -/
def inlined : ℕ → List BusRow → List (BusRow × Bool)
  | _, [] => []
  | budget, r :: rs =>
    if r.envelope.length ≤ LIST_INLINE_MAX ∧ r.envelope.length ≤ budget then
      (r, true) :: inlined (budget - r.envelope.length) rs
    else (r, false) :: inlined budget rs

section
-- `repr` of the time a row was received
variable (shownTs : ℤ → Str)

/-- A row as `json.dumps` writes it. -/
def rowText (p : BusRow × Bool) : Str :=
  txt "\x7b\"key\": " ++ dumpAscii p.1.key ++ txt ", \"writer\": " ++ dumpAscii p.1.writer ++
    txt ", \"ts_ns\": " ++ intStr p.1.writerTs ++ txt ", \"received_ts\": " ++
    shownTs p.1.receivedTs ++ txt ", \"plaintext_bytes\": " ++ intStr p.1.plaintextBytes ++
    (if p.2 then txt ", \"envelope\": " ++ dumpAscii p.1.envelope else []) ++ txt "\x7d"

/-- `ORDER BY received_ts DESC`. -/
def newestFirst (t : BusTable) : List BusRow :=
  t.rows.insertionSort fun a b => b.receivedTs ≤ a.receivedTs

/-- The body that `_list_bounded` sends; it is ASCII. -/
def listBounded (t : BusTable) : Bytes :=
  asciiBytes (txt "\x7b\"proto\": 1, \"rows\": [" ++
    spaced ((inlined LIST_INLINE_BUDGET (newestFirst t)).map (rowText shownTs)) ++ txt "]\x7d")

/-- The client reads the body to its end. -/
def Fits (t : BusTable) : Prop := (listBounded shownTs t).length ≤ MAX_RESPONSE

/-! ### What the parts take -/

/-- The metadata of a row, with the comma before it. -/
def metaSize (r : BusRow) : ℕ :=
  72 + textSize r.key + textSize r.writer + (intStr r.writerTs).length +
    (shownTs r.receivedTs).length + (intStr r.plaintextBytes).length

/-- The envelopes that are sent, with their member's name. -/
def inlineSize : ℕ → List BusRow → ℕ
  | _, [] => 0
  | budget, r :: rs =>
    if r.envelope.length ≤ LIST_INLINE_MAX ∧ r.envelope.length ≤ budget then
      16 + r.envelope.length + inlineSize (budget - r.envelope.length) rs
    else inlineSize budget rs

theorem length_rowText (p : BusRow × Bool) :
    (rowText shownTs p).length + 2 =
      metaSize shownTs p.1 + if p.2 then 14 + textSize p.1.envelope else 0 := by
  have hkey : (txt "\x7b\"key\": ").length = 8 := by decide
  have hwriter : (txt ", \"writer\": ").length = 12 := by decide
  have hts : (txt ", \"ts_ns\": ").length = 11 := by decide
  have hreceived : (txt ", \"received_ts\": ").length = 17 := by decide
  have hbytes : (txt ", \"plaintext_bytes\": ").length = 21 := by decide
  have henvelope : (txt ", \"envelope\": ").length = 14 := by decide
  have hclose : (txt "\x7d").length = 1 := by decide
  have hsent : (if p.2 then txt ", \"envelope\": " ++ dumpAscii p.1.envelope else []).length =
      if p.2 then 14 + textSize p.1.envelope else 0 := by
    split_ifs
    · rw [List.length_append, henvelope, length_dumpAscii]
    · rfl
  simp only [rowText, metaSize, List.length_append, length_dumpAscii, hkey, hwriter, hts, hreceived,
    hbytes, hsent, hclose]
  omega

theorem length_spaced {ts : List Str} (h : ts ≠ []) :
    (spaced ts).length + 2 = (ts.map fun t => t.length + 2).sum := by
  induction ts with
  | nil => exact absurd rfl h
  | cons t ts ih =>
    cases ts with
    | nil => simp [spaced]
    | cons u us =>
      have hrest := ih (List.cons_ne_nil u us)
      rw [spaced, List.length_append, List.length_append, List.map_cons, List.sum_cons, ← hrest]
      · simp [txt]
        omega
      · simp

theorem sum_inlined {rs : List BusRow} (h : ∀ r ∈ rs, Plain r.envelope) (budget : ℕ) :
    (((inlined budget rs).map (rowText shownTs)).map fun t => t.length + 2).sum =
      (rs.map (metaSize shownTs)).sum + inlineSize budget rs := by
  induction rs generalizing budget with
  | nil => rfl
  | cons r rs ih =>
    have hrest := ih fun r hr => h r (List.mem_cons_of_mem _ hr)
    rw [inlined, inlineSize]
    split_ifs
    · simp only [List.map_cons, List.sum_cons, hrest, length_rowText, if_true,
        textSize_plain (h r List.mem_cons_self)]
      omega
    · simp only [List.map_cons, List.sum_cons, hrest, length_rowText, Bool.false_eq_true, if_false]
      omega

theorem length_inlined (budget : ℕ) (rs : List BusRow) :
    (inlined budget rs).length = rs.length := by
  induction rs generalizing budget with
  | nil => rfl
  | cons r rs ih =>
    rw [inlined]
    split_ifs <;> simp [ih]

theorem inlineSize_le (budget : ℕ) (rs : List BusRow) :
    inlineSize budget rs ≤ budget + 16 * rs.length := by
  induction rs generalizing budget with
  | nil => exact Nat.zero_le _
  | cons r rs ih =>
    rw [inlineSize, List.length_cons]
    split_ifs with hfits
    · have := ih (budget - r.envelope.length)
      omega
    · have := ih budget
      omega

/-- The size of a body. -/
theorem length_listBounded {t : BusTable} (h : ∀ r ∈ t.rows, Plain r.envelope) :
    (listBounded shownTs t).length = 22 + (if t.rows = [] then 2 else 0) +
      (t.rows.map (metaSize shownTs)).sum + inlineSize LIST_INLINE_BUDGET (newestFirst t) := by
  have hperm : (newestFirst t).Perm t.rows := List.perm_insertionSort _ _
  have hsum := sum_inlined shownTs (fun r hr => h r (hperm.mem_iff.mp hr)) LIST_INLINE_BUDGET
  rw [(hperm.map (metaSize shownTs)).sum_eq] at hsum
  have hopen : (txt "\x7b\"proto\": 1, \"rows\": [").length = 22 := by decide
  have hclose : (txt "]\x7d").length = 2 := by decide
  rw [listBounded, asciiBytes, List.length_map, List.length_append, List.length_append, hopen,
    hclose]
  by_cases hrows : t.rows = []
  · have hnil : newestFirst t = [] := by rw [newestFirst, hrows]; rfl
    simp [hrows, hnil, inlined, inlineSize, spaced]
  · have hne : (inlined LIST_INLINE_BUDGET (newestFirst t)).map (rowText shownTs) ≠ [] := by
      intro hnil
      have hlength := congrArg List.length hnil
      rw [List.length_map, length_inlined, hperm.length_eq, List.length_nil] at hlength
      exact hrows (List.eq_nil_of_length_eq_zero hlength)
    have hspaced := length_spaced hne
    rw [if_neg hrows]
    omega

/-- Metadata that leaves room for the budget fits, whatever the envelopes. -/
theorem fits_of_metaSize {t : BusTable} (h : ∀ r ∈ t.rows, Plain r.envelope)
    (hmeta : 22 + ((t.rows.map (metaSize shownTs)).sum + 16 * t.rows.length) ≤
      MAX_RESPONSE - LIST_INLINE_BUDGET) : Fits shownTs t := by
  have hinlined := inlineSize_le LIST_INLINE_BUDGET (newestFirst t)
  have hcount : (newestFirst t).length = t.rows.length := (List.perm_insertionSort _ _).length_eq
  rw [hcount] at hinlined
  rw [Fits, length_listBounded shownTs h]
  unfold MAX_RESPONSE LIST_INLINE_BUDGET at *
  split_ifs with hnil
  · rw [hnil] at hmeta hinlined ⊢
    simp only [List.map_nil, List.sum_nil, List.length_nil] at hmeta hinlined ⊢
    omega
  · omega

theorem metaSize_ge {r : BusRow} (h : r.key ≠ []) : 79 ≤ metaSize shownTs r := by
  have hkey := length_le_textSize r.key
  have hwriter := length_le_textSize r.writer
  have hint (n : ℤ) : 1 ≤ (intStr n).length := by
    cases n with
    | ofNat n => exact List.length_pos_iff.mpr (natStr_ne_nil n)
    | negSucc n => exact Nat.succ_pos _
  have hts := hint r.writerTs
  have hbytes := hint r.plaintextBytes
  have hpos := List.length_pos_iff.mpr h
  unfold metaSize
  omega

end

/-! ### What accepted puts leave -/

theorem sextet_plain {c : Cp} {v : ℕ} (h : sextet c = some v) :
    c.val < 128 ∧ unitSize c.val = 1 := by
  have hrange : 43 ≤ c.val ∧ c.val ≤ 122 ∧ c.val ≠ 92 := by
    unfold sextet isUpper isLower isDigit at h
    split_ifs at h with hupper hlower hdigit hplus hslash
    · simp only [Bool.and_eq_true, decide_eq_true_eq] at hupper
      omega
    · simp only [Bool.and_eq_true, decide_eq_true_eq] at hlower
      omega
    · simp only [Bool.and_eq_true, decide_eq_true_eq] at hdigit
      omega
    · rw [hplus]
      decide
    · rw [hslash]
      decide
  refine ⟨by omega, ?_⟩
  rw [unitSize, if_neg (by simp; omega), if_neg (by omega)]

theorem a2b_plain {text : Str} {quad : Quad} {pads : ℕ} {started : Bool} {bs : Bytes}
    (h : a2b quad pads started text = some bs) : Plain text := by
  induction text generalizing quad pads started bs with
  | nil => exact fun _ hc => absurd hc List.not_mem_nil
  | cons c rest ih =>
    have hcons (hc : c.val < 128 ∧ unitSize c.val = 1) (hrest : Plain rest) :
        Plain (c :: rest) := by
      intro d hd
      rcases List.mem_cons.mp hd with rfl | hd
      · exact hc
      · exact hrest d hd
    rw [a2b] at h
    by_cases hpad : c = cp '='
    · rw [if_pos hpad] at h
      refine hcons (by rw [hpad]; decide) ?_
      split at h
      · exact ih h
      · split_ifs at h with hend hnil
        · rw [hnil]
          exact fun _ hc => absurd hc List.not_mem_nil
        · exact ih h
    · rw [if_neg hpad] at h
      cases hsextet : sextet c with
      | none => simp [hsextet] at h
      | some v =>
        refine hcons (sextet_plain hsextet) ?_
        simp only [hsextet] at h
        split_ifs at h
        cases quad with
        | q0 => exact ih h
        | q1 left =>
          obtain ⟨bs', hbs', -⟩ := Option.map_eq_some_iff.mp h
          exact ih hbs'
        | q2 left =>
          obtain ⟨bs', hbs', -⟩ := Option.map_eq_some_iff.mp h
          exact ih hbs'
        | q3 left =>
          obtain ⟨bs', hbs', -⟩ := Option.map_eq_some_iff.mp h
          exact ih hbs'

/-- What an accepted put leaves in a row. -/
def Admitted (r : BusRow) : Prop := r.key ≠ [] ∧ Plain r.envelope

section
variable [Host]

omit [Host] in
theorem plain_of_headerOf {envelope : Str} {found : Str × ℕ} (h : headerOf envelope = .ok found) :
    Plain envelope := by
  have harmor : ∃ env, dearmor envelope = .ok env := by
    cases hdearmor : dearmor envelope with
    | ok env => exact ⟨env, rfl⟩
    | error e =>
      have hmeta : envelopeMeta envelope = .error e := by
        simp only [envelopeMeta, parse, hdearmor, bind, Except.bind]
      rw [headerOf, hmeta] at h
      cases e <;> cases h
  obtain ⟨env, harmor⟩ := harmor
  unfold dearmor at harmor
  split_ifs at harmor with hmagic
  obtain ⟨rest, rfl⟩ := List.isPrefixOf_iff_prefix.mp hmagic
  rw [List.drop_left, b64decode] at harmor
  split_ifs at harmor
  intro c hc
  rcases List.mem_append.mp hc with hc | hc
  · have hmagic : MAGIC.all (fun c => c.val < 128 ∧ unitSize c.val = 1) = true := by decide
    simpa using List.all_eq_true.mp hmagic c hc
  · cases hdecode : a2b .q0 0 false rest with
    | none => simp [hdecode] at harmor
    | some bs => exact a2b_plain hdecode c hc

theorem admitted_step (maxRows : ℕ) {st : Daemon} (h : ∀ key, ∀ r ∈ st.table.row? key, Admitted r)
    (a : Act) : ∀ key, ∀ r ∈ (st.step maxRows a).table.row? key, Admitted r := by
  intro key r hr
  cases a with
  | put payload ifMatch now received =>
    rcases put_cases st maxRows payload ifMatch now received with
      ⟨row, expected, hreq, hup, hput⟩ | ⟨hsame, -⟩
    · obtain ⟨-, hkey, ⟨ts, hheader⟩, -, -⟩ := putRequest_accepts hreq
      simp only [Daemon.step, hput] at hr
      rcases row?_accepted st maxRows (upsert st.table row expected).1 key with heq | hnone
      · rw [heq] at hr
        rcases upsert_cases st.table row expected with ⟨hno, -⟩ | ⟨-, hrow, -⟩
        · rw [hno] at hup
          cases hup
        · rw [hrow] at hr
          split_ifs at hr
          · obtain rfl := Option.some.inj hr
            exact ⟨hkey, plain_of_headerOf hheader⟩
          · exact h key r hr
      · rw [hnone] at hr
        cases hr
    · rw [Daemon.step, hsame] at hr
      exact h key r hr
  | delete payload =>
    unfold Daemon.step Daemon.delete at hr
    dsimp only at hr
    split at hr
    · rw [BusTable.row?_remove] at hr
      split_ifs at hr
      · cases hr
      · exact h key r hr
    · exact h key r hr

/-- The rows of every bus that puts and deletes lead to. -/
theorem admitted_run (maxRows : ℕ) (acts : List Act) :
    ∀ r ∈ (acts.foldl (Daemon.step maxRows) ⟨.empty, 0⟩).table.rows, Admitted r := by
  have hrun := Machine.foldl_invariant (Daemon.step maxRows)
    (I := fun st => ∀ key, ∀ r ∈ st.table.row? key, Admitted r)
    (fun _ a h => admitted_step maxRows h a) (s := ⟨.empty, 0⟩)
    (fun key r hr => nomatch hr) acts
  intro r hr
  obtain ⟨r', hr'⟩ := Option.ne_none_iff_exists'.mp
    (mt BusTable.row?_none.mp (not_not.mpr (List.mem_map_of_mem hr)))
  have hmem := List.mem_of_find?_eq_some hr'
  obtain rfl := List.inj_on_of_nodup_map (BusTable.unique _) hmem hr (BusTable.row?_key hr')
  exact hrun _ _ hr'

/-- After any puts and deletes, the listing fits exactly when the metadata and the envelopes sent
with it do; it does when the metadata leaves the budget free, and never with too many rows. -/
theorem listing_fits_iff (shownTs : ℤ → Str) (maxRows : ℕ) (acts : List Act) :
    let t := (acts.foldl (Daemon.step maxRows) ⟨.empty, 0⟩).table
    (Fits shownTs t ↔ 22 + (t.rows.map (metaSize shownTs)).sum +
        inlineSize LIST_INLINE_BUDGET (newestFirst t) ≤ MAX_RESPONSE) ∧
      (22 + ((t.rows.map (metaSize shownTs)).sum + 16 * t.rows.length) ≤
        MAX_RESPONSE - LIST_INLINE_BUDGET → Fits shownTs t) ∧
      (MAX_RESPONSE < 79 * t.rows.length → ¬Fits shownTs t) := by
  intro t
  have hadmitted : ∀ r ∈ t.rows, Admitted r := admitted_run maxRows acts
  have hplain (r : BusRow) (hr : r ∈ t.rows) : Plain r.envelope := (hadmitted r hr).2
  have hiff : Fits shownTs t ↔ 22 + (t.rows.map (metaSize shownTs)).sum +
      inlineSize LIST_INLINE_BUDGET (newestFirst t) ≤ MAX_RESPONSE := by
    rw [Fits, length_listBounded shownTs hplain]
    split_ifs with hnil
    · have hnone : newestFirst t = [] := by rw [newestFirst, hnil]; rfl
      simp [hnil, hnone, inlineSize, MAX_RESPONSE]
    · simp
  refine ⟨hiff, fits_of_metaSize shownTs hplain, fun hmany hfits => ?_⟩
  have hsum : 79 * t.rows.length ≤ (t.rows.map (metaSize shownTs)).sum := by
    have := List.card_nsmul_le_sum (t.rows.map (metaSize shownTs)) 79 fun n hn => by
      obtain ⟨r, hr, rfl⟩ := List.mem_map.mp hn
      exact metaSize_ge shownTs (hadmitted r hr).1
    simpa [mul_comm] using this
  have := hiff.mp hfits
  omega

/-! ### Nine long keys -/

def longKey (i : ℕ) : Str := List.replicate (8000000 + i) (cp 'a')

def longPut (i : ℕ) : Dict :=
  [(txt "key", .str (longKey i)), (txt "envelope", .str (stamped 0)),
    (txt "writer", .str (txt "w")), (txt "ts_ns", .int 0)]

def longRow (i : ℕ) : BusRow := ⟨longKey i, txt "w", 0, i, stamped 0, 0⟩

def longActs (n : ℕ) : List Act := (List.range n).map fun i => .put (longPut i) none 0 i

omit [Host] in
theorem strip_longKey (i : ℕ) : strip (longKey i) = longKey i := by
  have hspace : isSpace (cp 'a') = false := by decide
  simp [strip, longKey, List.rdropWhile, hspace]

omit [Host] in
theorem longKey_ne_nil (i : ℕ) : longKey i ≠ [] := by
  intro h
  have := congrArg List.length h
  rw [longKey, List.length_replicate, List.length_nil] at this
  omega

theorem text_cons_key {key : Str} (h : key ≠ []) (rest : Dict) :
    Dict.text ((txt "key", .str key) :: rest) (txt "key") = key := by
  cases key with
  | nil => exact absurd rfl h
  | cons c key => rfl

theorem putRequest_long (i : ℕ) : putRequest (longPut i) none 0 i = .ok (longRow i, none) := by
  have hsurrogate : isSurrogate (cp 'a') = false := by decide
  have hkey : bindText (longKey i) = .ok () := by
    simp [bindText, longKey, hsurrogate]
  have hne : stamped 0 ≠ [] := fun h => by simp [stamped, MAGIC, txt] at h
  have htext : Dict.text (longPut i) (txt "key") = longKey i :=
    text_cons_key (longKey_ne_nil i) _
  exact putRequest_of (htext ▸ strip_longKey i) (by rfl) (by rfl) ⟨longKey_ne_nil i, hne⟩
    (headerOf_stamped (by decide : 0 < 256 ^ 8)) (by rfl) (by decide) (by rfl) (by rfl)
    ⟨hkey, by decide, by decide, stamped_bindable 0, by decide, rfl⟩

/-- Each of these puts is accepted. -/
theorem rows_longActs (n : ℕ) :
    ((longActs n).foldl (Daemon.step 0) ⟨.empty, 0⟩).table.rows = (List.range n).map longRow := by
  induction n with
  | zero => rfl
  | succ n ih =>
    have hacts : longActs (n + 1) = longActs n ++ [Act.put (longPut n) none 0 n] := by
      simp [longActs, List.range_succ]
    rw [hacts, List.foldl_append]
    generalize (longActs n).foldl (Daemon.step 0) ⟨.empty, 0⟩ = st at ih
    have hnew : st.table.row? (longRow n).key = none := by
      rw [BusTable.row?_none, ih, List.map_map]
      intro hmem
      obtain ⟨i, hi, hkey⟩ := List.mem_map.mp hmem
      have hlength : (longKey i).length = (longKey n).length := congrArg List.length hkey
      rw [longKey, longKey, List.length_replicate, List.length_replicate] at hlength
      have := List.mem_range.mp hi
      omega
    have hput : (st.step 0 (Act.put (longPut n) none 0 n)).table =
        st.table.insert (longRow n) hnew := by
      have hup : upsert st.table (longRow n) none = (st.table.insert (longRow n) hnew, true) :=
        dif_pos hnew
      simp [Daemon.step, Daemon.put, putRequest_long, hup, Daemon.accepted, sweepBus]
    calc (st.step 0 (Act.put (longPut n) none 0 n)).table.rows = st.table.rows ++ [longRow n] := by
          rw [hput, BusTable.insert]
      _ = (List.range (n + 1)).map longRow := by
          rw [ih, List.range_succ, List.map_append, List.map_singleton]

end

/-- The members of a long put after its key. -/
def longRest : Str :=
  txt ",\"envelope\":" ++ dumpStr (stamped 0) ++ txt ",\"writer\":\"w\",\"ts_ns\":0\x7d"

theorem dumps_long (i : ℕ) : dumps (.obj (longPut i)) =
    some (txt "\x7b\"key\":" ++ dumpStr (longKey i) ++ longRest) := by
  have hint : dumps (.int 0) = some (txt "0") := by decide
  have hkey : dumpStr (txt "key") = txt "\"key\"" := by decide
  have henvelope : dumpStr (txt "envelope") = txt "\"envelope\"" := by decide
  have hwriter : dumpStr (txt "writer") ++ cp ':' :: dumpStr (txt "w") =
      txt "\"writer\":\"w\"" := by decide
  have hts : dumpStr (txt "ts_ns") ++ cp ':' :: txt "0" = txt "\"ts_ns\":0" := by decide
  have hstr (s : Str) : dumps (.str s) = some (dumpStr s) := rfl
  have hmembers : dumpMembers (longPut i) =
      some [dumpStr (txt "key") ++ cp ':' :: dumpStr (longKey i),
        dumpStr (txt "envelope") ++ cp ':' :: dumpStr (stamped 0), txt "\"writer\":\"w\"",
        txt "\"ts_ns\":0"] := by
    rw [← hwriter, ← hts]
    simp [longPut, dumpMembers, hint, hstr]
  rw [dumps, hmembers, Option.map_some, hkey, henvelope]
  simp [commas, longRest, txt]

theorem length_dumpStr_long (i : ℕ) : (dumpStr (longKey i)).length = 8000002 + i := by
  have hescape : escapeChar (cp 'a') = [cp 'a'] := by decide
  simp [dumpStr, longKey, hescape]
  omega

theorem metaSize_long (shownTs : ℤ → Str) (i : ℕ) : 8000000 ≤ metaSize shownTs (longRow i) := by
  have hkey := length_le_textSize (longRow i).key
  have hlength : (longRow i).key.length = 8000000 + i := List.length_replicate
  unfold metaSize
  omega

/-- Nine puts within the request limit, and the listing no longer fits. -/
theorem listing_outgrown :
    letI := Host.ascii
    (∀ i < 9, ∃ text, dumps (.obj (longPut i)) = some text ∧ text.length ≤ DEFAULT_MAX_BYTES) ∧
      ((longActs 9).foldl (Daemon.step 0) ⟨.empty, 0⟩).table.rows.length = 9 ∧
      ¬Fits (fun n => intStr n ++ txt ".0")
        ((longActs 9).foldl (Daemon.step 0) ⟨.empty, 0⟩).table := by
  let _ := Host.ascii
  refine ⟨fun i hi => ⟨_, dumps_long i, ?_⟩, ?_, fun hfits => ?_⟩
  · rw [List.length_append, List.length_append, length_dumpStr_long]
    have hopen : (txt "\x7b\"key\":").length = 7 := by decide
    have hrest : longRest.length ≤ 1000 := by decide +kernel
    unfold DEFAULT_MAX_BYTES
    omega
  · rw [rows_longActs, List.length_map, List.length_range]
  · have hplain (r : BusRow) (hr : r ∈ _) := (admitted_run 0 (longActs 9) r hr).2
    rw [Fits, length_listBounded _ hplain, rows_longActs] at hfits
    have hsum := List.card_nsmul_le_sum
      (((List.range 9).map longRow).map (metaSize fun n => intStr n ++ txt ".0")) 8000000
      fun n hn => by
        obtain ⟨r, hr, rfl⟩ := List.mem_map.mp hn
        obtain ⟨i, -, rfl⟩ := List.mem_map.mp hr
        exact metaSize_long _ i
    rw [List.length_map, List.length_map, List.length_range, nsmul_eq_mul] at hsum
    unfold MAX_RESPONSE at hfits
    omega

end AskFable.Bus
