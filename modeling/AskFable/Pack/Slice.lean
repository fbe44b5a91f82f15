import AskFable.Pack.SafeFs
import Mathlib.Logic.Relation

/-!
# A range read is a slice

Lines are read in pieces: those before the range in chunks, those of the range up to what the
cap leaves. Whatever the pieces are, what is collected is the slice of the file's lines, and
at no time is more than one byte over the cap held.
-/
namespace AskFable.Pack
open AskFable.Text AskFable.Python AskFable.Python.Bytes AskFable.Python.Utf8

/-! ### One piece -/

/-- The bytes up to and with the first line break. -/
def firstLine (data : Bytes) : Bytes := data.take ((data.takeWhile (· ≠ 10)).length + 1)

/-- A piece is the beginning of the line ahead. -/
theorem readline_eq (limit : ℕ) (data : Bytes) :
    readline limit data =
      ((firstLine data).take limit, data.drop ((firstLine data).take limit).length) := by
  have hwindow : (data.take limit).takeWhile (· ≠ 10) = (data.takeWhile (· ≠ 10)).take limit :=
    List.take_takeWhile.symm
  have hpiece : (data.take limit).take ((((data.take limit).takeWhile (· ≠ 10))).length + 1) =
      (firstLine data).take limit := by
    rw [hwindow, firstLine, List.take_take, List.take_take, List.length_take]
    congr 1
    omega
  simp only [readline, hpiece]

theorem firstLine_ended {x : Bytes} (h : 10 ∉ x) (r : Bytes) :
    firstLine (x ++ 10 :: r) = x ++ [10] := by
  have hx : (x ++ 10 :: r).takeWhile (· ≠ 10) = x := by
    rw [List.takeWhile_append_of_pos fun b hb => by simpa using ne_of_mem_of_not_mem hb h]
    simp
  rw [firstLine, hx, List.take_length_add_append]
  rfl

theorem firstLine_unbroken {x : Bytes} (h : 10 ∉ x) : firstLine x = x := by
  have hx : x.takeWhile (· ≠ 10) = x := by
    rw [List.takeWhile_eq_self_iff]
    exact fun b hb => by simpa using ne_of_mem_of_not_mem hb h
  rw [firstLine, hx, List.take_of_length_le (Nat.le_succ _)]

/-! ### The lines ahead -/

/-- The lines the reader has not finished; the one it is in may have nothing left. -/
def LineReader.ahead (s : LineReader) : List Bytes :=
  if s.started = true ∧ s.rest = [] then [[]] else Lines.lines 10 s.rest

/-- Steps left at most. -/
def LineReader.measure (s : LineReader) : ℕ :=
  if s.started = false ∧ s.rest = [] then 1 else s.rest.length + 2

/-- The lines `start` to `stop` of those that follow line `n`. -/
def slice (start stop n : ℕ) (ls : List Bytes) : Bytes :=
  ((ls.take (stop - n)).drop (start - 1 - n)).flatten

theorem slice_nil (start stop n : ℕ) : slice start stop n [] = [] := by simp [slice]

theorem slice_cons {stop n : ℕ} (h : n < stop) (start : ℕ) (l : Bytes) (ls : List Bytes) :
    slice start stop n (l :: ls) =
      (if start ≤ n + 1 then l else []) ++ slice start stop (n + 1) ls := by
  obtain ⟨k, hk⟩ : ∃ k, stop - n = k + 1 := ⟨stop - n - 1, by omega⟩
  have hk' : stop - (n + 1) = k := by omega
  unfold slice
  rw [hk, hk', List.take_succ_cons]
  split_ifs with hkeep
  · have h0 : start - 1 - n = 0 := by omega
    have h1 : start - 1 - (n + 1) = 0 := by omega
    rw [h0, h1, List.drop_zero, List.drop_zero, List.flatten_cons]
  · obtain ⟨m, hm⟩ : ∃ m, start - 1 - n = m + 1 := ⟨start - 1 - n - 1, by omega⟩
    have hm' : start - 1 - (n + 1) = m := by omega
    rw [hm, hm', List.drop_succ_cons, List.nil_append]

/-- What the reader has collected after its next `readline`. -/
def LineReader.gather (start maxBytes : ℕ) (s : LineReader) : Bytes :=
  if start ≤ s.lineno + 1 then
    s.collected ++ (readline (maxBytes + 1 - s.collected.length) s.rest).1
  else s.collected

theorem LineReader.length_gather_le {start maxBytes : ℕ} {s : LineReader}
    (h : s.collected.length ≤ maxBytes) : (s.gather start maxBytes).length ≤ maxBytes + 1 := by
  unfold LineReader.gather
  split_ifs
  · rw [readline_eq, List.length_append, List.length_take]
    omega
  · omega

/-- Where a finished line leads. -/
def LineReader.next (stop : ℕ) (s : LineReader) (rest collected : Bytes) :
    Except (Except Reason LineReader) LineReader :=
  if s.lineno + 1 < stop then .ok ⟨rest, collected, s.lineno + 1, false⟩
  else .error (.ok ⟨rest, collected, s.lineno + 1, false⟩)

/-- The line at the beginning of what is ahead, and what its pieces leave. -/
theorem exists_firstLine {data : Bytes} (hne : data ≠ []) :
    ∃ cur more, data = cur ++ more ∧ firstLine data = cur ∧ cur ≠ [] ∧
      Lines.lines 10 data = cur :: Lines.lines 10 more ∧
      ∀ piece left, cur = piece ++ left → piece ≠ [] →
        (piece.getLast? = some 10 → left = []) ∧
        (piece.getLast? ≠ some 10 → left ++ more ≠ [] →
          Lines.lines 10 (left ++ more) = left :: Lines.lines 10 more) ∧
        (piece.getLast? ≠ some 10 → left ++ more = [] → Lines.lines 10 more = []) := by
  rcases Lines.exists_line 10 hne with ⟨hx, hlines⟩ | ⟨x, r, rfl, hx, hlines⟩
  · refine ⟨data, [], by simp, firstLine_unbroken hx, hne, hlines, fun piece left hcur hpiece => ?_⟩
    subst hcur
    rw [List.mem_append, not_or] at hx
    refine ⟨fun hlast => absurd (List.mem_of_getLast? hlast) hx.1, fun _ hleft => ?_,
      fun _ _ => rfl⟩
    rw [List.append_nil] at hleft ⊢
    exact Lines.lines_unbroken hx.2 hleft
  · refine ⟨x ++ [10], r, by simp, firstLine_ended hx r, by simp, hlines,
      fun piece left hcur hpiece => ?_⟩
    rcases List.eq_nil_or_concat left with rfl | ⟨left, last, rfl⟩
    · rw [List.append_nil] at hcur
      subst hcur
      exact ⟨fun _ => rfl, fun hlast => absurd (by simp) hlast, fun hlast => absurd (by simp) hlast⟩
    · rw [List.concat_eq_append, ← List.append_assoc] at hcur
      obtain ⟨rfl, hlast⟩ := List.append_inj' hcur rfl
      obtain rfl : (10 : Byte) = last := by simpa using hlast
      rw [List.mem_append, not_or] at hx
      refine ⟨fun hlast => absurd (List.mem_of_getLast? hlast) hx.1, fun _ _ => ?_,
        fun _ hnil => ?_⟩
      · rw [List.concat_eq_append, List.append_assoc, List.singleton_append]
        exact Lines.lines_ended hx.2 r
      · simp at hnil

/-- What one `readline` takes of the line at the beginning, and what it leaves. -/
theorem exists_piece {limit : ℕ} (hlimit : 0 < limit) {data : Bytes} (hne : data ≠ []) :
    ∃ piece left more, readline limit data = (piece, left ++ more) ∧ piece ≠ [] ∧
      Lines.lines 10 data = (piece ++ left) :: Lines.lines 10 more ∧
      (left ++ more).length < data.length ∧
      (piece.getLast? = some 10 → left = []) ∧
      (piece.getLast? ≠ some 10 → left ++ more ≠ [] →
        Lines.lines 10 (left ++ more) = left :: Lines.lines 10 more) ∧
      (piece.getLast? ≠ some 10 → left ++ more = [] → Lines.lines 10 more = []) := by
  obtain ⟨cur, more, hdata, hfirst, hcur, hlines, hpieces⟩ := exists_firstLine hne
  have hpiece : cur.take limit ≠ [] := by
    rw [Ne, List.take_eq_nil_iff]
    exact fun hnil => hnil.elim (by omega) hcur
  refine ⟨cur.take limit, cur.drop limit, more, ?_, hpiece, ?_, ?_,
    hpieces _ _ (List.take_append_drop limit cur).symm hpiece⟩
  · rw [readline_eq, hfirst]
    congr 1
    conv_lhs => rw [hdata, ← List.take_append_drop limit cur, List.append_assoc]
    rw [List.take_append_drop, List.drop_left]
  · rw [hlines, List.take_append_drop]
  · have hpos := List.length_pos_iff.mpr hpiece
    have hsplit := congrArg List.length (List.take_append_drop limit cur)
    rw [hdata, List.length_append, List.length_append]
    rw [List.length_append] at hsplit
    omega

/-- How much the next `readline` may take. -/
def LineReader.limit (start maxBytes : ℕ) (s : LineReader) : ℕ :=
  if start ≤ s.lineno + 1 then maxBytes + 1 - s.collected.length else SKIP_CHUNK

/-- A step on what its `readline` returned. -/
theorem LineReader.step_of_read (stop : ℕ) {start maxBytes : ℕ} {s : LineReader}
    {piece rest : Bytes} (hread : readline (s.limit start maxBytes) s.rest = (piece, rest)) :
    s.gather start maxBytes =
        (if start ≤ s.lineno + 1 then s.collected ++ piece else s.collected) ∧
      s.step start stop maxBytes =
        if piece = [] then
          if s.started then s.next stop s.rest s.collected else .error (.ok s)
        else if start ≤ s.lineno + 1 ∧ maxBytes < (s.gather start maxBytes).length then
          .error (.error .tooLarge)
        else if piece.getLast? = some 10 then s.next stop rest (s.gather start maxBytes)
        else .ok ⟨rest, s.gather start maxBytes, s.lineno, true⟩ := by
  have hgather : s.gather start maxBytes =
      if start ≤ s.lineno + 1 then s.collected ++ piece else s.collected := by
    unfold LineReader.gather
    split_ifs with hkeep
    · rw [LineReader.limit, if_pos hkeep] at hread
      rw [hread]
    · rfl
  refine ⟨hgather, ?_⟩
  rw [hgather]
  unfold LineReader.limit at hread
  by_cases hkeep : start ≤ s.lineno + 1
  · rw [if_pos hkeep] at hread
    simp [LineReader.step, LineReader.next, hkeep, hread]
  · rw [if_neg hkeep] at hread
    simp [LineReader.step, LineReader.next, hkeep, hread]

theorem LineReader.limit_pos (start : ℕ) {maxBytes : ℕ} {s : LineReader}
    (h : s.collected.length ≤ maxBytes) : 0 < s.limit start maxBytes := by
  unfold LineReader.limit
  split_ifs
  · omega
  · decide

/-- What one `readline` does: nothing at the end of the file, else it takes the beginning of
the line it is in, which is too much, or the rest of the line, or not yet. -/
theorem LineReader.step_cases (start stop maxBytes : ℕ) {s : LineReader}
    (h : s.collected.length ≤ maxBytes) :
    (s.ahead = [] ∧ s.step start stop maxBytes = .error (.ok s)) ∨
      ∃ piece left ls, s.ahead = (piece ++ left) :: ls ∧
        s.gather start maxBytes =
          (if start ≤ s.lineno + 1 then s.collected ++ piece else s.collected) ∧
        (maxBytes < (s.gather start maxBytes).length ∧
            s.step start stop maxBytes = .error (.error .tooLarge) ∨
          (s.gather start maxBytes).length ≤ maxBytes ∧
            ((left = [] ∧ ∃ rest, Lines.lines 10 rest = ls ∧
                LineReader.measure ⟨rest, s.gather start maxBytes, s.lineno + 1, false⟩ <
                  s.measure ∧
                s.step start stop maxBytes = s.next stop rest (s.gather start maxBytes)) ∨
              ∃ s', s.step start stop maxBytes = .ok s' ∧
                s'.collected = s.gather start maxBytes ∧ s'.lineno = s.lineno ∧
                s'.ahead = left :: ls ∧ s'.measure < s.measure)) := by
  by_cases hrest : s.rest = []
  · have hread : readline (s.limit start maxBytes) s.rest = ([], []) := by simp [hrest, readline]
    obtain ⟨hgather, hstep⟩ := LineReader.step_of_read stop hread
    rw [if_pos rfl] at hstep
    cases hstarted : s.started with
    | false =>
      refine .inl ⟨by simp [LineReader.ahead, hstarted, hrest, Lines.lines], ?_⟩
      rw [hstep, hstarted, if_neg Bool.false_ne_true]
    | true =>
      rw [List.append_nil, ite_self] at hgather
      refine .inr ⟨[], [], [], by simp [LineReader.ahead, hstarted, hrest], by simp [hgather],
        .inr ⟨by rwa [hgather], .inl ⟨rfl, [], rfl, ?_, ?_⟩⟩⟩
      · simp [LineReader.measure, hstarted, hrest]
      · rw [hstep, hstarted, if_pos rfl, hgather, hrest]
  · obtain ⟨piece, left, more, hread, hpiece, hlines, hshort, hended, hgoing, hlast⟩ :=
      exists_piece (LineReader.limit_pos start h) hrest
    obtain ⟨hgather, hstep⟩ := LineReader.step_of_read stop hread
    have hahead : s.ahead = (piece ++ left) :: Lines.lines 10 more := by
      rw [LineReader.ahead, if_neg fun hboth => hrest hboth.2, hlines]
    have hmeasure : s.measure = s.rest.length + 2 := by
      rw [LineReader.measure, if_neg fun hboth => hrest hboth.2]
    rw [if_neg hpiece] at hstep
    refine .inr ⟨_, _, _, hahead, hgather, ?_⟩
    by_cases hlarge : maxBytes < (s.gather start maxBytes).length
    · have hkeep : start ≤ s.lineno + 1 := by
        by_contra hskip
        rw [hgather, if_neg hskip] at hlarge
        omega
      exact .inl ⟨hlarge, by rw [hstep, if_pos ⟨hkeep, hlarge⟩]⟩
    refine .inr ⟨Nat.le_of_not_lt hlarge, ?_⟩
    rw [if_neg fun hboth => hlarge hboth.2] at hstep
    by_cases hbreak : piece.getLast? = some 10
    · rw [if_pos hbreak, hended hbreak, List.nil_append] at hstep
      rw [hended hbreak, List.nil_append] at hshort
      refine .inl ⟨hended hbreak, more, rfl, ?_, hstep⟩
      rw [hmeasure]
      unfold LineReader.measure
      split_ifs
      · omega
      · exact Nat.add_lt_add_right hshort 2
    · rw [if_neg hbreak] at hstep
      refine .inr ⟨_, hstep, rfl, rfl, ?_, ?_⟩
      · unfold LineReader.ahead
        by_cases hnil : left ++ more = []
        · rw [if_pos ⟨rfl, hnil⟩, hlast hbreak hnil, (List.append_eq_nil_iff.mp hnil).1]
        · rw [if_neg fun hboth => hnil hboth.2]
          exact hgoing hbreak hnil
      · rw [hmeasure, LineReader.measure, if_neg (by simp)]
        exact Nat.add_lt_add_right hshort 2

/-! ### The whole range -/

/-- Reading on from a state collects the slice of the lines ahead, or stops over the cap. -/
theorem readRange_spec (start : ℕ) {stop maxBytes fuel : ℕ} {s : LineReader}
    (hline : s.lineno < stop) (hcap : s.collected.length ≤ maxBytes) (hfuel : s.measure ≤ fuel) :
    let all := s.collected ++ slice start stop s.lineno s.ahead
    (maxBytes < all.length → readRange start stop maxBytes fuel s = .error .tooLarge) ∧
      (all.length ≤ maxBytes → ∃ s', readRange start stop maxBytes fuel s = .ok s' ∧
        s'.collected = all ∧ s'.lineno = s.lineno + min (stop - s.lineno) s.ahead.length) := by
  induction fuel generalizing s with
  | zero =>
    unfold LineReader.measure at hfuel
    split_ifs at hfuel <;> omega
  | succ fuel ih =>
    rcases LineReader.step_cases start stop maxBytes hcap with
      ⟨hahead, hstep⟩ | ⟨piece, left, ls, hahead, hgather, hcases⟩
    · simp only [readRange, hstep, hahead, slice_nil, List.append_nil, List.length_nil,
        Nat.min_zero, Nat.add_zero]
      exact ⟨fun hlarge => absurd hlarge (Nat.not_lt.mpr hcap), fun _ => ⟨s, rfl, rfl, rfl⟩⟩
    -- what the step has gathered and what is then ahead make up the same slice
    have hall : s.collected ++ slice start stop s.lineno s.ahead =
        s.gather start maxBytes ++ slice start stop s.lineno (left :: ls) := by
      rw [hahead, slice_cons hline, slice_cons hline, hgather]
      split_ifs <;> simp
    rcases hcases with ⟨hlarge, hstep⟩ | ⟨hgathered, hmore⟩
    · rw [hall]
      simp only [readRange, hstep]
      refine ⟨fun _ => trivial, fun hsmall => ?_⟩
      rw [List.length_append] at hsmall
      omega
    rcases hmore with ⟨rfl, rest, rfl, hmeasure, hstep⟩ |
      ⟨s', hstep, hcollected, hlineno, hahead', hmeasure⟩
    · rw [slice_cons hline, ite_self, List.nil_append] at hall
      have hlength : s.ahead.length = (Lines.lines 10 rest).length + 1 := by
        rw [hahead, List.length_cons]
      simp only [readRange, hstep, LineReader.next, hall]
      by_cases hend : s.lineno + 1 < stop
      · rw [if_pos hend]
        obtain ⟨hlarge, hsmall⟩ :=
          ih (s := ⟨rest, s.gather start maxBytes, s.lineno + 1, false⟩) hend hgathered (by omega)
        have hlines : (⟨rest, s.gather start maxBytes, s.lineno + 1, false⟩ : LineReader).ahead =
            Lines.lines 10 rest := by simp [LineReader.ahead]
        rw [hlines] at hlarge hsmall
        refine ⟨hlarge, fun h => ?_⟩
        obtain ⟨s', hread, hcollected, hlineno⟩ := hsmall h
        dsimp only at hlineno
        exact ⟨s', hread, hcollected, by rw [hlineno]; omega⟩
      · rw [if_neg hend]
        have hstop : stop - (s.lineno + 1) = 0 := by omega
        have hnil : slice start stop (s.lineno + 1) (Lines.lines 10 rest) = [] := by
          simp [slice, hstop]
        rw [hnil, List.append_nil]
        exact ⟨fun hlarge => absurd hlarge (Nat.not_lt.mpr hgathered),
          fun _ => ⟨_, rfl, rfl, by dsimp only; omega⟩⟩
    · have hlength : s'.ahead.length = s.ahead.length := by rw [hahead, hahead']; rfl
      rw [hall, ← hcollected, ← hlineno, ← hahead', ← hlength]
      simp only [readRange, hstep]
      exact ih (hlineno ▸ hline) (hcollected ▸ hgathered) (by omega)

/-- The states of a range read after some steps. -/
def Reached (start stop maxBytes : ℕ) : LineReader → LineReader → Prop :=
  Relation.ReflTransGen fun s s' => s.step start stop maxBytes = .ok s'

theorem Reached.collected_le {start stop maxBytes : ℕ} {s s' : LineReader}
    (h : Reached start stop maxBytes s s') (hs : s.collected.length ≤ maxBytes) :
    s'.collected.length ≤ maxBytes := by
  induction h with
  | refl => exact hs
  | @tail b c _ hstep ih =>
    rcases LineReader.step_cases start stop maxBytes ih with
      ⟨-, hend⟩ | ⟨_, _, _, -, -, (⟨-, hlarge⟩ | ⟨hgathered, hmore⟩)⟩
    · rw [hend] at hstep
      nomatch hstep
    · rw [hlarge] at hstep
      nomatch hstep
    · rcases hmore with ⟨-, rest, -, -, hnext⟩ | ⟨c', hnext, hcollected, -, -, -⟩
      · rw [hnext, LineReader.next] at hstep
        split_ifs at hstep
        obtain rfl := Except.ok.inj hstep
        exact hgathered
      · obtain rfl := Except.ok.inj (hnext.symm.trans hstep)
        exact hcollected ▸ hgathered

/-- The lines `start` to `stop` of a file, counted from 1. -/
def linesOf (start stop : ℕ) (data : Bytes) : Bytes :=
  (((Lines.lines 10 data).take stop).drop (start - 1)).flatten

/-- A range is too far, too large, binary, or exactly the bytes of its lines; and whatever the
reader has gathered on the way is at most one byte over the cap. -/
theorem range_read_slices {fs : Fs} {r : Resolved} {file : OpenFile} {start stop maxBytes : ℕ}
    (hfile : fs.read r.absPath = some file) (hrange : r.range = some (start, stop))
    (hstart : 1 ≤ start) (hstop : start ≤ stop) :
    (readContent fs r maxBytes =
        if (Lines.lines 10 file.data).length < start then .error .badRange
        else if maxBytes < (linesOf start stop file.data).length then .error .tooLarge
        else if 0 ∈ linesOf start stop file.data then .error .binary
        else .ok (decodeReplace (linesOf start stop file.data),
          (linesOf start stop file.data).length)) ∧
      ∀ s, Reached start stop maxBytes ⟨file.data, [], 0, false⟩ s →
        (s.gather start maxBytes).length ≤ maxBytes + 1 := by
  refine ⟨?_, fun s hs => LineReader.length_gather_le (hs.collected_le (Nat.zero_le _))⟩
  have hmeasure : (⟨file.data, [], 0, false⟩ : LineReader).measure ≤ file.data.length + 2 := by
    unfold LineReader.measure
    dsimp only
    split_ifs <;> omega
  have hahead : (⟨file.data, [], 0, false⟩ : LineReader).ahead = Lines.lines 10 file.data := by
    simp [LineReader.ahead]
  have hpos : 0 < stop := by omega
  have hspec : _ ∧ _ := readRange_spec (s := ⟨file.data, [], 0, false⟩) start hpos
    (Nat.zero_le maxBytes) hmeasure
  have hslice : slice start stop 0 (Lines.lines 10 file.data) = linesOf start stop file.data := rfl
  rw [hahead, List.nil_append, hslice] at hspec
  obtain ⟨hlarge, hsmall⟩ := hspec
  by_cases hover : maxBytes < (linesOf start stop file.data).length
  · have hreach : ¬(Lines.lines 10 file.data).length < start := by
      intro hshort
      have hnil : linesOf start stop file.data = [] := by
        rw [linesOf, List.drop_eq_nil_of_le, List.flatten_nil]
        rw [List.length_take]
        omega
      rw [hnil] at hover
      exact absurd hover (Nat.not_lt_zero _)
    rw [if_neg hreach, if_pos hover]
    simp only [readContent, hfile, hrange, if_pos hpos, hlarge hover]
    rfl
  · obtain ⟨s, hread, hcollected, hlineno⟩ := hsmall (Nat.le_of_not_lt hover)
    have hshort : s.lineno < start ↔ (Lines.lines 10 file.data).length < start := by
      rw [hlineno]
      simp only [Nat.zero_add, Nat.sub_zero]
      omega
    rw [if_neg hover]
    simp only [readContent, hfile, hrange, if_pos hpos, hread]
    by_cases hbad : (Lines.lines 10 file.data).length < start
    · rw [if_pos hbad]
      simp only [bind, Except.bind, if_pos (hshort.mpr hbad)]
      rfl
    · rw [if_neg hbad]
      simp only [bind, Except.bind, if_neg (mt hshort.mp hbad), hcollected]
      split_ifs <;> rfl

/-- A file whose last line is not ended. -/
def threeLines : Fs := ⟨fun _ => none, fun _ => true, fun _ => some ⟨6, [97, 10, 98, 98, 10, 99]⟩⟩

theorem range_read_slices_threeLines :
    readContent threeLines ⟨[], [], some (2, 7)⟩ 4 = .ok (txt "bb\nc", 4) :=
  (@range_read_slices threeLines ⟨[], [], some (2, 7)⟩ _ _ _ 4 rfl rfl (by decide)
    (by decide)).1.trans (by decide)

end AskFable.Pack
