import AskFable.General.FixedWidth
import AskFable.Python.JsonDumps
import Mathlib.Algebra.Group.Nat.Defs
import Mathlib.Order.Fin.Basic

/-!
# Times of day and their texts

What `datetime.now(UTC)` returns, in the two texts the log writes of it: the compact stamp
in the name of a rotated file and `isoformat()`, which leaves out a fraction of zero. The
stamps order as the times do; the ISO texts do so only among times with a fraction and
among times without one.
-/
namespace AskFable.Python
open AskFable.Text AskFable.FixedWidth

/-- `f"{n:0{w}d}"`. -/
def pad (w n : ℕ) : Str := List.replicate (w - (natStr n).length) (cp '0') ++ natStr n

/-- A UTC time of the system clock, which starts in 1970. -/
structure Datetime where
  year : ℕ
  month : ℕ
  day : ℕ
  hour : ℕ
  minute : ℕ
  second : ℕ
  microsecond : ℕ
  epoch : 1970 ≤ year
  written : year < 10000 ∧ 0 < month ∧ month ≤ 12 ∧ 0 < day ∧ day ≤ 31 ∧ hour < 24 ∧ minute < 60 ∧
    second < 60 ∧ microsecond < 1000000
  deriving DecidableEq

def newYear : Datetime := ⟨2026, 1, 1, 0, 0, 0, 0, by decide, by decide⟩

namespace Datetime

/-- A time to the second. -/
def clock (t : Datetime) : List ℕ := [t.year, t.month, t.day, t.hour, t.minute, t.second]

def fields (t : Datetime) : List ℕ := t.clock ++ [t.microsecond]

theorem fields_injective : Function.Injective fields := by
  intro s t h
  cases s
  cases t
  simp only [fields, clock, List.cons_append, List.nil_append, List.cons.injEq] at h
  simp only [mk.injEq]
  exact ⟨h.1, h.2.1, h.2.2.1, h.2.2.2.1, h.2.2.2.2.1, h.2.2.2.2.2.1, h.2.2.2.2.2.2.1⟩

/-- Earlier is less. -/
instance : LinearOrder Datetime := LinearOrder.lift' fields fields_injective

theorem lt_iff (s t : Datetime) : s < t ↔ s.fields < t.fields := Iff.rfl

/-- `t.strftime("%Y%m%dT%H%M%S%fZ")`. -/
def stamp (t : Datetime) : Str :=
  pad 4 t.year ++ pad 2 t.month ++ pad 2 t.day ++ txt "T" ++ pad 2 t.hour ++ pad 2 t.minute ++
    pad 2 t.second ++ pad 6 t.microsecond ++ txt "Z"

/-- `t.isoformat()` up to the zone. -/
def isoLocal (t : Datetime) : Str :=
  pad 4 t.year ++ txt "-" ++ pad 2 t.month ++ txt "-" ++ pad 2 t.day ++ txt "T" ++
    pad 2 t.hour ++ txt ":" ++ pad 2 t.minute ++ txt ":" ++ pad 2 t.second

/-- `t.isoformat().replace("+00:00", "Z")`. -/
def isoZ (t : Datetime) : Str :=
  t.isoLocal ++ (if t.microsecond = 0 then [] else txt "." ++ pad 6 t.microsecond) ++ txt "Z"

/-- `t.isoformat(timespec="microseconds").replace("+00:00", "Z")`. -/
def isoMicros (t : Datetime) : Str := t.isoLocal ++ txt "." ++ pad 6 t.microsecond ++ txt "Z"

/-- Two times in one second of which only the second is written with a fraction. -/
def Unlike (s t : Datetime) : Prop := s.clock = t.clock ∧ s.microsecond = 0 ∧ t.microsecond ≠ 0

end Datetime

/-! ### Padded numbers -/

theorem pad_succ {w : ℕ} (hw : 0 < w) (n : ℕ) :
    pad (w + 1) n = pad w (n / 10) ++ [cp (n % 10).digitChar] := by
  have hsplit := natStr_eq n
  by_cases hn : n < 10
  · have hzero : natStr (n / 10) = [cp '0'] := by
      rw [Nat.div_eq_of_lt hn]
      decide
    rw [if_pos hn] at hsplit
    simp only [pad, hsplit, hzero, Nat.mod_eq_of_lt hn, List.length_singleton]
    rw [← List.replicate_succ', Nat.sub_add_cancel hw, Nat.add_sub_cancel]
  · rw [if_neg hn] at hsplit
    simp only [pad, hsplit, List.length_append, List.length_singleton, Nat.add_sub_add_right,
      List.append_assoc]

theorem length_pad {w n : ℕ} (hw : 0 < w) (hn : n < 10 ^ w) : (pad w n).length = w := by
  obtain ⟨w, rfl⟩ := Nat.exists_eq_succ_of_ne_zero hw.ne'
  clear hw
  induction w generalizing n with
  | zero =>
    have : n < 10 := by simpa using hn
    simp [pad, natStr_eq n, this]
  | succ w ih =>
    have hdiv : n / 10 < 10 ^ (w + 1) := by
      rw [Nat.pow_succ] at hn
      omega
    rw [pad_succ (Nat.succ_pos w), List.length_append, ih hdiv]
    rfl

theorem digit_lt_iff {a b : ℕ} (ha : a < 10) (hb : b < 10) :
    [cp a.digitChar] < [cp b.digitChar] ↔ a < b := by
  rw [List.cons_lt_cons_iff, Fin.lt_def, digitChar_val ha, digitChar_val hb]
  simp

theorem pad_lt_iff {w : ℕ} (hw : 0 < w) {n m : ℕ} (hn : n < 10 ^ w) (hm : m < 10 ^ w) :
    pad w n < pad w m ↔ n < m := by
  obtain ⟨w, rfl⟩ := Nat.exists_eq_succ_of_ne_zero hw.ne'
  clear hw
  induction w generalizing n m with
  | zero =>
    have hn : n < 10 := by simpa using hn
    have hm : m < 10 := by simpa using hm
    simpa [pad, natStr_eq n, natStr_eq m, hn, hm] using digit_lt_iff hn hm
  | succ w ih =>
    have hdiv {k : ℕ} (hk : k < 10 ^ (w + 2)) : k / 10 < 10 ^ (w + 1) := by
      rw [Nat.pow_succ] at hk
      omega
    have hlen : (pad (w + 1) (n / 10)).length = (pad (w + 1) (m / 10)).length := by
      rw [length_pad (Nat.succ_pos w) (hdiv hn), length_pad (Nat.succ_pos w) (hdiv hm)]
    have heq : pad (w + 1) (n / 10) = pad (w + 1) (m / 10) ↔ n / 10 = m / 10 := by
      refine ⟨fun h => ?_, fun h => by rw [h]⟩
      have hnm := ih (hdiv hn) (hdiv hm)
      have hmn := ih (hdiv hm) (hdiv hn)
      rw [h] at hnm hmn
      have hself := List.lt_irrefl (pad (w + 1) (m / 10))
      exact Nat.le_antisymm (Nat.not_lt.mp (mt hmn.mpr hself)) (Nat.not_lt.mp (mt hnm.mpr hself))
    rw [pad_succ (Nat.succ_pos w), pad_succ (Nat.succ_pos w), append_lt_append_iff hlen,
      ih (hdiv hn) (hdiv hm), heq, digit_lt_iff (Nat.mod_lt _ (by omega)) (Nat.mod_lt _ (by omega))]
    omega

theorem pad_digits (w n : ℕ) : ∀ c ∈ pad w n, isDigit c = true := by
  intro c hc
  rcases List.mem_append.mp hc with hc | hc
  · rw [List.eq_of_mem_replicate hc]
    decide
  · exact natStr_digits n c hc

theorem pad_injective (w : ℕ) : Function.Injective (pad w) := by
  have hread (n : ℕ) : JsonText.natOfDigits (pad w n) = n := by
    unfold pad
    generalize w - (natStr n).length = k
    induction k with
    | zero => exact JsonText.natOfDigits_natStr n
    | succ k ih =>
      rw [List.replicate_succ, List.cons_append]
      exact ih
  intro n m h
  rw [← hread n, h, hread]

/-- A number in a field of its own width. -/
def padded (w : ℕ) (hw : 0 < w) : FixedWidth.Field Cp where
  write := pad w
  bound := 10 ^ w
  width := w
  length_write _ hn := length_pad hw hn
  write_lt _ hn _ hm := pad_lt_iff hw hn hm

/-! ### The order of the texts -/

namespace Datetime

def stampFields : List (FixedWidth.Field Cp) :=
  [padded 4 (by decide), padded 2 (by decide), (padded 2 (by decide)).before (txt "T"),
    padded 2 (by decide), padded 2 (by decide), padded 2 (by decide),
    (padded 6 (by decide)).before (txt "Z")]

/-- `YYYY-MM-DDTHH:MM:SS`. -/
def clockFields : List (FixedWidth.Field Cp) :=
  [(padded 4 (by decide)).before (txt "-"), (padded 2 (by decide)).before (txt "-"),
    (padded 2 (by decide)).before (txt "T"), (padded 2 (by decide)).before (txt ":"),
    (padded 2 (by decide)).before (txt ":"), padded 2 (by decide)]

theorem stamp_eq (t : Datetime) : t.stamp = render stampFields t.fields := by
  simp [stamp, stampFields, fields, clock, render, Field.before, padded]

theorem isoLocal_eq (t : Datetime) : t.isoLocal = render clockFields t.clock := by
  simp [isoLocal, clockFields, clock, render, Field.before, padded]

theorem fits_stamp (t : Datetime) : Fits stampFields t.fields := by
  obtain ⟨hy, -, hmo, -, hd, hh, hmi, hs, hus⟩ := t.written
  simp only [Fits, stampFields, fields, clock, List.cons_append, List.nil_append,
    List.forall₂_cons, Field.before, padded, List.Forall₂.nil, and_true]
  omega

theorem fits_clock (t : Datetime) : Fits clockFields t.clock := by
  obtain ⟨hy, -, hmo, -, hd, hh, hmi, hs, -⟩ := t.written
  simp only [Fits, clockFields, clock, List.forall₂_cons, Field.before, padded,
    List.Forall₂.nil, and_true]
  omega

/-- Behind equal-length stamps the rest decides only between equal times. -/
theorem stamp_append_lt (s t : Datetime) (x y : Str) :
    s.stamp ++ x < t.stamp ++ y ↔ s < t ∨ s = t ∧ x < y := by
  rw [stamp_eq, stamp_eq, render_lt (fits_stamp s) (fits_stamp t), lt_iff,
    fields_injective.eq_iff]

theorem isoLocal_append_lt (s t : Datetime) (x y : Str) :
    s.isoLocal ++ x < t.isoLocal ++ y ↔ s.clock < t.clock ∨ s.clock = t.clock ∧ x < y := by
  rw [isoLocal_eq, isoLocal_eq, render_lt (fits_clock s) (fits_clock t)]

/-- Among times of one second the one without a fraction comes last. -/
def place (t : Datetime) : ℕ := if t.microsecond = 0 then 1000000 else t.microsecond

theorem fraction_lt (s t : Datetime) :
    (if s.microsecond = 0 then [] else txt "." ++ pad 6 s.microsecond) ++ txt "Z" <
        (if t.microsecond = 0 then [] else txt "." ++ pad 6 t.microsecond) ++ txt "Z" ↔
      s.place < t.place := by
  obtain ⟨-, -, -, -, -, -, -, -, hs⟩ := s.written
  obtain ⟨-, -, -, -, -, -, -, -, ht⟩ := t.written
  have hdot : ∀ x : Str, txt "." ++ x < txt "Z" := fun x => List.Lex.rel (by decide)
  unfold place
  by_cases hs0 : s.microsecond = 0
  · by_cases ht0 : t.microsecond = 0
    · simp [hs0, ht0]
    · simp only [hs0, ht0, if_true, if_false, List.nil_append, List.append_assoc]
      exact iff_of_false (not_lt_of_gt (hdot _)) (by omega)
  · by_cases ht0 : t.microsecond = 0
    · simp only [hs0, ht0, if_true, if_false, List.nil_append, List.append_assoc]
      exact iff_of_true (hdot _) hs
    · have hlen : (txt "." ++ pad 6 s.microsecond).length = (txt "." ++ pad 6 t.microsecond).length := by
        rw [List.length_append, List.length_append, length_pad (by decide) hs, length_pad (by decide) ht]
      simp only [hs0, ht0, if_false]
      rw [append_lt_append_iff hlen, append_lt_append_iff rfl, pad_lt_iff (by decide) hs ht]
      simp

theorem isoZ_lt_iff (s t : Datetime) :
    s.isoZ < t.isoZ ↔ s.clock < t.clock ∨ s.clock = t.clock ∧ s.place < t.place := by
  unfold isoZ
  rw [List.append_assoc, List.append_assoc, isoLocal_append_lt, fraction_lt]

theorem lt_iff_clock (s t : Datetime) :
    s < t ↔ s.clock < t.clock ∨ s.clock = t.clock ∧ s.microsecond < t.microsecond := by
  have hlen : s.clock.length = t.clock.length := rfl
  rw [lt_iff, fields, fields, append_lt_append_iff hlen, List.cons_lt_cons_iff]
  simp only [List.not_lt_nil, and_false, or_false]

/-- Times of one second are written in their order unless one lacks the fraction. -/
theorem isoZ_le_iff {s t : Datetime} (hst : ¬s.Unlike t) (hts : ¬t.Unlike s) :
    s.isoZ ≤ t.isoZ ↔ s ≤ t := by
  obtain ⟨-, -, -, -, -, -, -, -, hs⟩ := s.written
  obtain ⟨-, -, -, -, -, -, -, -, ht⟩ := t.written
  rw [← not_lt, ← not_lt, isoZ_lt_iff, lt_iff_clock]
  refine not_congr (or_congr_right (and_congr_right fun hclock => ?_))
  unfold Unlike at hst hts
  unfold place
  simp only [hclock, true_and, not_and, not_not] at hst hts
  split_ifs with ht0 hs0 hs0 <;> omega

theorem Unlike.reversed {s t : Datetime} (h : s.Unlike t) : s < t ∧ t.isoZ < s.isoZ := by
  obtain ⟨hclock, hs0, ht0⟩ := h
  obtain ⟨-, -, -, -, -, -, -, -, ht⟩ := t.written
  rw [lt_iff_clock, isoZ_lt_iff]
  refine ⟨.inr ⟨hclock, by omega⟩, .inr ⟨hclock.symm, ?_⟩⟩
  rw [place, place, if_pos hs0, if_neg ht0]
  exact ht

theorem isoZ_injective : Function.Injective isoZ := by
  intro s t h
  have hst : ¬s.Unlike t := fun hu => absurd h.symm (ne_of_lt hu.reversed.2)
  have hts : ¬t.Unlike s := fun hu => absurd h (ne_of_lt hu.reversed.2)
  exact le_antisymm ((isoZ_le_iff hst hts).mp h.le) ((isoZ_le_iff hts hst).mp h.ge)

end Datetime
end AskFable.Python
