import AskFable.General.Lines
import AskFable.Python.Bytes

/-!
# The two line readers of the event log

One reads a file from its start with bounded `readline` calls, the other from its end in
blocks. Both leave out a line whose content is over the limit, and the second yields what
the first does in reverse, whatever the block size.
-/
namespace AskFable.Trace
open AskFable.Python AskFable.Python.Bytes AskFable.Lines

/-- `"\n"`. -/
def NL : Byte := byte 10

def endsLine (raw : Bytes) : Bool := raw.getLast? == some NL

@[simp] theorem endsLine_append (x : Bytes) : endsLine (x ++ [NL]) = true := by
  simp [endsLine]

theorem endsLine_unbroken {x : Bytes} (h : NL ∉ x) : endsLine x = false := by
  rw [endsLine, beq_eq_false_iff_ne]
  exact fun hlast => h (List.mem_of_getLast? hlast)

/-- A line whose content is not over the limit. -/
def fits (limit : ℕ) (raw : Bytes) : Bool :=
  raw.length ≤ if endsLine raw then limit + 1 else limit

theorem fits_ended (limit : ℕ) (x : Bytes) :
    fits limit (x ++ [NL]) = (x.length ≤ limit : Bool) := by
  simp [fits]

theorem fits_unbroken (limit : ℕ) {x : Bytes} (h : NL ∉ x) :
    fits limit x = (x.length ≤ limit : Bool) := by
  simp [fits, endsLine_unbroken h]

/-! ### Forward -/

/-- `source.readline(n)`: the bytes read and what is left. -/
def readline : ℕ → Bytes → Bytes × Bytes
  | 0, bs => ([], bs)
  | _ + 1, [] => ([], [])
  | n + 1, b :: bs => if b = NL then ([b], bs) else (b :: (readline n bs).1, (readline n bs).2)

/-- Read on to the end of an over-long line. -/
def skipLine (n : ℕ) : (fuel : ℕ) → Bytes → Bytes
  | 0, bs => bs
  | fuel + 1, bs =>
    let (raw, rest) := readline n bs
    if raw = [] ∨ endsLine raw = true then rest else skipLine n fuel rest

def forwardFrom (limit : ℕ) : (fuel : ℕ) → Bytes → List Bytes
  | 0, _ => []
  | fuel + 1, bs =>
    let (raw, rest) := readline (limit + 1) bs
    if raw = [] then []
    else if limit < raw.length ∧ endsLine raw = false then
      forwardFrom limit fuel (skipLine (limit + 1) (fuel + 1) rest)
    else raw :: forwardFrom limit fuel rest

/-- `_lines_forward`. Every call but the last takes a byte at least. -/
def linesForward (limit : ℕ) (bs : Bytes) : List Bytes := forwardFrom limit (bs.length + 1) bs

@[simp] theorem readline_nil (n : ℕ) : readline n [] = ([], []) := by
  cases n <;> rfl

theorem readline_cons (n : ℕ) (b : Byte) (bs : Bytes) : readline (n + 1) (b :: bs) =
    if b = NL then ([b], bs) else (b :: (readline n bs).1, (readline n bs).2) := rfl

theorem readline_unbroken {n : ℕ} {x : Bytes} (h : NL ∉ x) (r : Bytes) (hn : n ≤ x.length) :
    readline n (x ++ r) = (x.take n, x.drop n ++ r) := by
  induction x generalizing n with
  | nil =>
    obtain rfl : n = 0 := by simpa using hn
    cases r <;> rfl
  | cons b x ih =>
    rw [List.mem_cons, not_or] at h
    cases n with
    | zero => rfl
    | succ n =>
      rw [List.cons_append, readline_cons, if_neg (Ne.symm h.1), ih h.2 (by simpa using hn)]
      rfl

theorem readline_ended {n : ℕ} {x : Bytes} (h : NL ∉ x) (r : Bytes) (hn : x.length < n) :
    readline n (x ++ NL :: r) = (x ++ [NL], r) := by
  induction x generalizing n with
  | nil =>
    obtain ⟨n, rfl⟩ := Nat.exists_eq_succ_of_ne_zero (by simpa using hn.ne')
    simp [readline_cons]
  | cons b x ih =>
    rw [List.mem_cons, not_or] at h
    obtain ⟨n, rfl⟩ := Nat.exists_eq_succ_of_ne_zero (Nat.ne_zero_of_lt hn)
    rw [List.cons_append, readline_cons, if_neg (Ne.symm h.1), ih h.2 (by simpa using hn)]
    rfl

theorem readline_short {n : ℕ} {x : Bytes} (h : NL ∉ x) (hn : x.length ≤ n) :
    readline n x = (x, []) := by
  induction x generalizing n with
  | nil => cases n <;> rfl
  | cons b x ih =>
    rw [List.mem_cons, not_or] at h
    obtain ⟨n, rfl⟩ := Nat.exists_eq_succ_of_ne_zero (Nat.ne_zero_of_lt hn)
    rw [readline_cons, if_neg (Ne.symm h.1), ih h.2 (by simpa using hn)]

theorem skipLine_succ (n fuel : ℕ) (bs : Bytes) : skipLine n (fuel + 1) bs =
    if (readline n bs).1 = [] ∨ endsLine (readline n bs).1 = true then (readline n bs).2
    else skipLine n fuel (readline n bs).2 := rfl

@[simp] theorem skipLine_nil (n fuel : ℕ) : skipLine n fuel [] = [] := by
  cases fuel with
  | zero => rfl
  | succ fuel => simp [skipLine_succ]

theorem skipLine_ended {n fuel : ℕ} {x : Bytes} (hn : 0 < n) (h : NL ∉ x) (r : Bytes)
    (hfuel : x.length < fuel) : skipLine n fuel (x ++ NL :: r) = r := by
  induction fuel generalizing x with
  | zero => omega
  | succ fuel ih =>
    by_cases hlong : n ≤ x.length
    · have htake : NL ∉ x.take n := fun hmem => h (List.mem_of_mem_take hmem)
      have hne : x.take n ≠ [] := by
        rw [← List.length_pos_iff, List.length_take]
        omega
      simp only [skipLine_succ, readline_unbroken h _ hlong, hne, endsLine_unbroken htake, false_or,
        Bool.false_eq_true, if_false]
      exact ih (fun hmem => h (List.mem_of_mem_drop hmem)) (by rw [List.length_drop]; omega)
    · have hread := readline_ended h r (Nat.lt_of_not_le hlong)
      simp [skipLine_succ, hread]

theorem skipLine_unbroken {n fuel : ℕ} {x : Bytes} (hn : 0 < n) (h : NL ∉ x)
    (hfuel : x.length < fuel) : skipLine n fuel x = [] := by
  induction fuel generalizing x with
  | zero => omega
  | succ fuel ih =>
    by_cases hlong : n ≤ x.length
    · have htake : NL ∉ x.take n := fun hmem => h (List.mem_of_mem_take hmem)
      have hne : x.take n ≠ [] := by
        rw [← List.length_pos_iff, List.length_take]
        omega
      have hread := readline_unbroken h [] hlong
      rw [List.append_nil, List.append_nil] at hread
      simp only [skipLine_succ, hread, hne, endsLine_unbroken htake, false_or,
        Bool.false_eq_true, if_false]
      exact ih (fun hmem => h (List.mem_of_mem_drop hmem)) (by rw [List.length_drop]; omega)
    · have hread := readline_short h (Nat.le_of_lt (Nat.lt_of_not_le hlong))
      simp [skipLine_succ, hread]

/-- A line over the limit is read in pieces and left out, the others are yielded whole. -/
theorem forwardFrom_eq (limit : ℕ) {fuel : ℕ} {bs : Bytes} (hfuel : bs.length < fuel) :
    forwardFrom limit fuel bs = (lines NL bs).filter (fits limit) := by
  induction fuel generalizing bs with
  | zero => omega
  | succ fuel ih =>
    by_cases hne : bs = []
    · simp [hne, forwardFrom, lines]
    rcases exists_line NL hne with ⟨hx, hlines⟩ | ⟨x, r, rfl, hx, hlines⟩
    · by_cases hlong : limit < bs.length
      · have hread := readline_unbroken hx [] (Nat.succ_le_of_lt hlong)
        have htake : NL ∉ bs.take (limit + 1) := fun hmem => hx (List.mem_of_mem_take hmem)
        have hskip : skipLine (limit + 1) (fuel + 1) (bs.drop (limit + 1)) = [] :=
          skipLine_unbroken (Nat.succ_pos _) (fun hmem => hx (List.mem_of_mem_drop hmem))
            (by rw [List.length_drop]; omega)
        rw [List.append_nil, List.append_nil] at hread
        have hnil := @ih [] (by simp at hfuel ⊢; omega)
        simp [forwardFrom, hread, hne, hskip, endsLine_unbroken htake, hlines, hnil,
          fits_unbroken limit hx, hlong, lines]
      · have hread := readline_short hx (Nat.le_succ_of_le (Nat.le_of_not_lt hlong))
        have hnil := @ih [] (by have := List.length_pos_iff.mpr hne; simp; omega)
        have hfits : fits limit bs = true := by
          simpa [fits_unbroken limit hx] using Nat.le_of_not_lt hlong
        simp [forwardFrom, hread, hne, hlong, hlines, hnil, hfits, lines]
    · rw [List.length_append, List.length_cons] at hfuel
      by_cases hlong : limit < x.length
      · have hread := readline_unbroken hx (NL :: r) (Nat.succ_le_of_lt hlong)
        have htake : NL ∉ x.take (limit + 1) := fun hmem => hx (List.mem_of_mem_take hmem)
        have hskip : skipLine (limit + 1) (fuel + 1) (x.drop (limit + 1) ++ NL :: r) = r :=
          skipLine_ended (Nat.succ_pos _) (fun hmem => hx (List.mem_of_mem_drop hmem)) r
            (by rw [List.length_drop]; omega)
        have hx' : x ≠ [] := List.ne_nil_of_length_pos (Nat.zero_lt_of_lt hlong)
        simp [forwardFrom, hread, hx', hskip, endsLine_unbroken htake, hlines, fits_ended,
          hlong, @ih r (by omega)]
      · have hread := readline_ended hx r (Nat.lt_succ_of_le (Nat.le_of_not_lt hlong))
        have hfits : fits limit (x ++ [NL]) = true := by
          simpa [fits_ended] using Nat.le_of_not_lt hlong
        simp [forwardFrom, hread, hlines, hfits, @ih r (by omega)]

theorem linesForward_eq (limit : ℕ) (bs : Bytes) :
    linesForward limit bs = (lines NL bs).filter (fits limit) :=
  forwardFrom_eq limit (Nat.lt_succ_self _)

/-! ### Backward -/

/-- The line whose start is not read yet: what is kept of it, whether it is over the limit
and no longer kept, and whether a line break follows it. -/
structure Carry where
  carry : Bytes
  dropped : Bool
  ended : Bool

/-- `carry` after more of the line was read, `b""` once it is over the limit. -/
def Carry.hold (limit : ℕ) (content : Bytes) (ended : Bool) : Carry :=
  if limit < content.length then ⟨[], true, ended⟩ else ⟨content, false, ended⟩

/-- A line that has been read to its start, if it is to be yielded. -/
def finished (limit : ℕ) (content : Bytes) (ended skip : Bool) : Option Bytes :=
  if skip = false ∧ content.length ≤ limit ∧ (content ≠ [] ∨ ended = true) then
    some (if ended then content ++ [NL] else content)
  else none

/-- One block read before what the carry knows: the lines it completes, and the new carry. -/
def readBlock (limit : ℕ) (c : Carry) (block : Bytes) : List Bytes × Carry :=
  match block.splitOn NL with
  | [] => ([], c)
  | [piece] =>
    ([], if c.dropped then c else Carry.hold limit (piece ++ c.carry) c.ended)
  | first :: piece :: more =>
    let pieces := piece :: more
    let last := pieces.getLast (List.cons_ne_nil _ _)
    ((finished limit (last ++ c.carry) c.ended c.dropped).toList ++
        pieces.dropLast.reverse.filterMap (fun p => finished limit p true false),
      Carry.hold limit first true)

/-- The loop of `_lines_backwards` over the bytes that are not read yet. -/
def backwardFrom (block limit : ℕ) : (fuel : ℕ) → Bytes → Carry → List Bytes
  | 0, _, _ => []
  | fuel + 1, front, c =>
    if front = [] then
      if c.dropped = false ∧ (c.carry ≠ [] ∨ c.ended = true) then
        [if c.ended then c.carry ++ [NL] else c.carry]
      else []
    else
      let step := min block front.length
      let (done, c) := readBlock limit c (front.drop (front.length - step))
      done ++ backwardFrom block limit fuel (front.take (front.length - step)) c

/-- `_lines_backwards`. -/
def linesBackwards (block limit : ℕ) (bs : Bytes) : List Bytes :=
  backwardFrom block limit (bs.length + 1) bs ⟨[], false, false⟩

/-- The line break of a line that has one. -/
def tailOf (ended : Bool) : Bytes := if ended then [NL] else []

theorem finished_eq (limit : ℕ) {x : Bytes} (h : NL ∉ x) (ended : Bool) :
    (finished limit x ended (limit < x.length : Bool)).toList =
      (lines NL (x ++ tailOf ended)).filter (fits limit) := by
  cases ended with
  | true =>
    rw [tailOf, if_pos rfl, lines_ended h, lines]
    by_cases hlong : limit < x.length
    · simp [finished, fits_ended, hlong]
    · simp [finished, fits_ended, hlong, Nat.le_of_not_lt hlong]
  | false =>
    rw [tailOf, if_neg Bool.false_ne_true, List.append_nil]
    by_cases hne : x = []
    · simp [hne, finished, lines]
    rw [lines_unbroken h hne]
    by_cases hlong : limit < x.length
    · simp [finished, fits_unbroken limit h, hlong]
    · simp [finished, fits_unbroken limit h, hlong, hne, Nat.le_of_not_lt hlong]

theorem finished_hold (limit : ℕ) (p x : Bytes) (ended : Bool) :
    finished limit (p ++ (Carry.hold limit x ended).carry) (Carry.hold limit x ended).ended
        (Carry.hold limit x ended).dropped =
      finished limit (p ++ x) ended (limit < (p ++ x).length : Bool) := by
  by_cases hlong : limit < x.length
  · have hlong' : ¬ p.length + x.length ≤ limit := by omega
    simp [Carry.hold, finished, hlong, hlong']
  · by_cases hlong' : p.length + x.length ≤ limit
    · simp [Carry.hold, finished, hlong, hlong', Nat.not_lt.mpr hlong']
    · simp [Carry.hold, finished, hlong, hlong']

theorem hold_append (limit : ℕ) (p x : Bytes) (ended : Bool) :
    (if (Carry.hold limit x ended).dropped then Carry.hold limit x ended
      else Carry.hold limit (p ++ (Carry.hold limit x ended).carry) ended) =
      Carry.hold limit (p ++ x) ended := by
  by_cases hlong : limit < x.length
  · have hlong' : limit < p.length + x.length := by omega
    simp [Carry.hold, hlong, hlong']
  · simp [Carry.hold, hlong]

theorem hold_final (limit : ℕ) (x : Bytes) (ended : Bool) :
    (if (Carry.hold limit x ended).dropped = false ∧
        ((Carry.hold limit x ended).carry ≠ [] ∨ (Carry.hold limit x ended).ended = true) then
      [if (Carry.hold limit x ended).ended then (Carry.hold limit x ended).carry ++ [NL]
        else (Carry.hold limit x ended).carry]
      else []) = (finished limit x ended (limit < x.length : Bool)).toList := by
  by_cases hlong : limit < x.length
  · simp [Carry.hold, finished, hlong]
  · have hshort := Nat.le_of_not_lt hlong
    by_cases hsome : x ≠ [] ∨ ended = true
    · simp [Carry.hold, finished, hlong, hshort, hsome]
    · simp [Carry.hold, finished, hlong, hsome]

theorem filterMap_finished (limit : ℕ) (pieces : List Bytes) :
    pieces.filterMap (fun p => finished limit p true false) =
      (pieces.map (· ++ [NL])).filter (fits limit) := by
  induction pieces with
  | nil => rfl
  | cons p pieces ih =>
    by_cases hlong : p.length ≤ limit
    · have hp : finished limit p true false = some (p ++ [NL]) := by simp [finished, hlong]
      simp [hp, fits_ended, hlong, ih]
    · have hp : finished limit p true false = none := by simp [finished, hlong]
      simp [hp, fits_ended, hlong, ih]

theorem readBlock_pieces {block first last : Bytes} {inner : List Bytes}
    (h : block.splitOn NL = first :: inner ++ [last]) (limit : ℕ) (c : Carry) :
    readBlock limit c block =
      ((finished limit (last ++ c.carry) c.ended c.dropped).toList ++
        ((inner.map (· ++ [NL])).filter (fits limit)).reverse, Carry.hold limit first true) := by
  cases inner with
  | nil => simp [readBlock, h]
  | cons p inner =>
    have hdrop : (p :: (inner ++ [last])).dropLast = p :: inner := by
      rw [← List.cons_append, List.dropLast_concat]
    simp only [readBlock, h, List.cons_append, hdrop,
      ← filterMap_finished, List.filterMap_reverse]
    simp

/-- A block hands over the lines that start in it, last first. -/
theorem readBlock_spec (limit : ℕ) (block : Bytes) {x : Bytes} (hx : NL ∉ x) (ended : Bool) :
    ∃ done x' ended', readBlock limit (Carry.hold limit x ended) block =
        (done, Carry.hold limit x' ended') ∧ NL ∉ x' ∧
      ∀ front, (lines NL (front ++ (block ++ (x ++ tailOf ended)))).filter (fits limit) =
        (lines NL (front ++ (x' ++ tailOf ended'))).filter (fits limit) ++ done.reverse := by
  rcases hsplit : block.splitOn NL with _ | ⟨first, rest⟩
  · exact absurd hsplit (List.splitOn_ne_nil NL block)
  rcases List.eq_nil_or_concat rest with rfl | ⟨inner, last, rfl⟩
  · obtain ⟨rfl, hpiece⟩ := splitOn_singleton hsplit
    refine ⟨[], first ++ x, ended, ?_, by simp [hpiece, hx], by simp⟩
    simp only [readBlock, hsplit]
    rw [← hold_append]
    by_cases hlong : limit < x.length <;> simp [Carry.hold, hlong]
    omega
  · rw [List.concat_eq_append, ← List.cons_append] at hsplit
    have hlast : NL ∉ last := notMem_splitOn (l := block) (by simp [hsplit])
    have hfirst : NL ∉ first := notMem_splitOn (l := block) (by simp [hsplit])
    refine ⟨_, first, true, readBlock_pieces hsplit limit _, hfirst, ?_⟩
    intro front
    have hdone := finished_eq limit (x := last ++ x) (by simp [hlast, hx]) ended
    rw [lines_append_splitOn hsplit, finished_hold, List.filter_append, List.filter_append,
      ← List.append_assoc last, ← hdone, List.reverse_append, List.reverse_reverse]
    cases finished limit (last ++ x) ended _ <;> simp [tailOf]

theorem backwardFrom_eq {block limit : ℕ} (hblock : 0 < block) {fuel : ℕ} {front x : Bytes}
    (hfuel : front.length < fuel) (hx : NL ∉ x) (ended : Bool) :
    backwardFrom block limit fuel front (Carry.hold limit x ended) =
      ((lines NL (front ++ (x ++ tailOf ended))).filter (fits limit)).reverse := by
  induction fuel generalizing front x ended with
  | zero => omega
  | succ fuel ih =>
    by_cases hfront : front = []
    · rw [hfront, backwardFrom, if_pos rfl, hold_final, List.nil_append, ← finished_eq limit hx]
      cases finished limit x ended _ <;> rfl
    · have hpos := List.length_pos_iff.mpr hfront
      let keep := front.length - min block front.length
      obtain ⟨done, x', ended', hread, hx', hlines⟩ :=
        readBlock_spec limit (front.drop keep) hx ended
      have hrest := ih (show (front.take keep).length < fuel by rw [List.length_take]; omega)
        hx' ended'
      have hwhole := hlines (front.take keep)
      rw [← List.append_assoc, List.take_append_drop] at hwhole
      simp only [backwardFrom, if_neg hfront]
      rw [hread, hwhole, List.reverse_append, List.reverse_reverse]
      exact congrArg (done ++ ·) hrest

/-- The backward reader yields the lines of the forward reader in reverse, whatever the
block size. -/
theorem linesBackwards_eq {block : ℕ} (hblock : 0 < block) (limit : ℕ) (bs : Bytes) :
    linesBackwards block limit bs = (linesForward limit bs).reverse := by
  have h : linesBackwards block limit bs = _ :=
    backwardFrom_eq hblock (Nat.lt_succ_self bs.length) (x := []) (by simp) false
  simpa [linesForward_eq, tailOf] using h

/-- The lists of the two readers are each other's reverse, and neither loses or repeats a
line: they hold every line of the file that is not over the limit, in its place. -/
theorem readers_exact {block : ℕ} (hblock : 1 ≤ block) (limit : ℕ) (bs : Bytes) :
    linesBackwards block limit bs = (linesForward limit bs).reverse ∧
      linesForward limit bs = (lines NL bs).filter (fits limit) ∧ (lines NL bs).flatten = bs :=
  ⟨linesBackwards_eq hblock limit bs, linesForward_eq limit bs, flatten_lines NL bs⟩

/-- Blocks of two bytes: an over-long line, an empty one and a last one without a break. -/
theorem readers_exact_pairs : 1 ≤ 2 ∧
    linesBackwards 2 1 [byte 97, byte 98, NL, NL, byte 99] =
      (linesForward 1 [byte 97, byte 98, NL, NL, byte 99]).reverse ∧
    linesForward 1 [byte 97, byte 98, NL, NL, byte 99] =
      (lines NL [byte 97, byte 98, NL, NL, byte 99]).filter (fits 1) ∧
    (lines NL [byte 97, byte 98, NL, NL, byte 99]).flatten = [byte 97, byte 98, NL, NL, byte 99] :=
  ⟨by decide, readers_exact (by decide) 1 [byte 97, byte 98, NL, NL, byte 99]⟩

end AskFable.Trace
