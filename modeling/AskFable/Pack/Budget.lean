import AskFable.General.Budget
import AskFable.Pack.Accounting

/-!
# The budget of a pack

The running total counts the blocks; the separators that the bundle gets between them are
counted nowhere. So a bundle exceeds its limit exactly when the blocks that fit leave no room
for the separators.
-/
namespace AskFable.Pack
open AskFable.Text AskFable.Python AskFable.Budget

section
variable (lim : Limits)

/-- The length of the block of an item that can be read. -/
def size (it : Item) : Option ℕ :=
  match lim.read it.resolved with
  | .ok (content, _) => some (blockOf it.resolved content).length
  | .error _ => none

/-- An item and the ranges that stand in for it. -/
def groupOf (held : Str → List Item) (it : Item) : Group :=
  ⟨size lim it, (held it.resolved.absPath).filterMap (size lim)⟩

/-- The packing has taken these sizes. -/
structure Took (s : Packing) (t : Taking) : Prop where
  taken : s.admitted.map (fun a => a.block.length) = t.taken
  total : s.total = t.taken.sum
  stopped : s.stopped = t.stopped

/-- The budget is not negative, and reading a file says nothing about it. -/
structure Sound : Prop where
  chars : 0 ≤ lim.maxChars
  read : ∀ r reason, lim.read r = .error reason → reason ≠ .budgetExhausted

variable {lim}

theorem Took.full {s : Packing} {t : Taking} (h : Took s t) :
    lim.maxFiles ≤ s.admitted.length ↔ lim.maxFiles.toNat ≤ t.taken.length := by
  rw [← h.taken, List.length_map]
  omega

/-- A trial, as the taking of a size: nothing more is taken, the item has no size, its size
overflows, or it goes in. -/
theorem admitBlock_sizes (hlim : Sound lim) {s : Packing} {t : Taking} (h : Took s t) (it : Item) :
    (t.Blocked lim.maxFiles.toNat ∧ ∃ reason, admitBlock lim s it = (s, some reason) ∧
      (reason = .budgetExhausted → t.stopped = true)) ∨
    (¬t.Blocked lim.maxFiles.toNat ∧ size lim it = none ∧
      ∃ reason, admitBlock lim s it = (s, some reason) ∧ reason ≠ .budgetExhausted) ∨
    (¬t.Blocked lim.maxFiles.toNat ∧ ∃ n, size lim it = some n ∧
      lim.maxChars.toNat < t.taken.sum + n ∧ admitBlock lim s it = (s, some .budgetExhausted)) ∨
    (¬t.Blocked lim.maxFiles.toNat ∧ ∃ n s', size lim it = some n ∧
      ¬lim.maxChars.toNat < t.taken.sum + n ∧ admitBlock lim s it = (s', none) ∧
      Took s' ⟨t.taken ++ [n], false⟩) := by
  have hchars := hlim.chars
  unfold admitBlock
  by_cases hstop : s.stopped = true
  · rw [if_pos hstop]
    have hstop' : t.stopped = true := h.stopped ▸ hstop
    exact .inl ⟨.inl hstop', _, rfl, fun _ => hstop'⟩
  · rw [if_neg hstop]
    by_cases hfull : lim.maxFiles ≤ s.admitted.length
    · rw [if_pos hfull]
      exact .inl ⟨.inr (h.full.mp hfull), _, rfl, by simp⟩
    · rw [if_neg hfull]
      have hopen : ¬t.Blocked lim.maxFiles.toNat := by
        rintro (hs | hf)
        · exact hstop (h.stopped.trans hs)
        · exact hfull (h.full.mpr hf)
      refine .inr ?_
      cases hread : lim.read it.resolved with
      | error reason =>
        exact .inl ⟨hopen, by simp [size, hread], reason, rfl, hlim.read _ _ hread⟩
      | ok found =>
        obtain ⟨content, k⟩ := found
        have hsize : size lim it = some (blockOf it.resolved content).length := by
          simp [size, hread]
        have htotal := h.total
        simp only
        by_cases hover : lim.maxChars < s.total + (blockOf it.resolved content).length
        · rw [if_pos hover]
          exact .inr (.inl ⟨hopen, _, hsize, by omega, rfl⟩)
        · rw [if_neg hover]
          refine .inr (.inr ⟨hopen, _, _, hsize, by omega, rfl, ?_, ?_, ?_⟩)
          · simp [h.taken]
          · simp [htotal]
          · simpa using hstop

theorem tryHeld_took (hlim : Sound lim) {s : Packing} {t : Taking} (h : Took s t) (it : Item) :
    Took (tryHeld lim s it)
      ((size lim it).elim t (offer lim.maxChars.toNat lim.maxFiles.toNat t)) := by
  unfold tryHeld
  obtain ⟨hblocked, reason, hresult, hreason⟩ | ⟨-, hsize, reason, hresult, hreason⟩ |
    ⟨hopen, n, hsize, hover, hresult⟩ | ⟨hopen, n, s', hsize, hover, hresult, htook⟩ :=
    admitBlock_sizes hlim h it
  · have hsame : (size lim it).elim t (offer lim.maxChars.toNat lim.maxFiles.toNat t) = t := by
      cases size lim it with
      | none => rfl
      | some n => exact offer_blocked hblocked
    rw [hresult, hsame]
    refine ⟨h.taken, h.total, ?_⟩
    by_cases hb : reason = .budgetExhausted
    · simp [hb, hreason hb]
    · simp [hb, h.stopped]
  · rw [hresult, hsize]
    exact ⟨h.taken, h.total, by simp [hreason, h.stopped]⟩
  · rw [hresult, hsize, Option.elim_some, offer_overflow hopen hover]
    exact ⟨h.taken, h.total, by simp⟩
  · rw [hresult, hsize, Option.elim_some, offer_fits hopen hover]
    exact htook

theorem foldl_tryHeld_took (hlim : Sound lim) (its : List Item) {s : Packing} {t : Taking}
    (h : Took s t) :
    Took (its.foldl (tryHeld lim) s)
      ((its.filterMap (size lim)).foldl (offer lim.maxChars.toNat lim.maxFiles.toNat) t) := by
  induction its generalizing s t with
  | nil => exact h
  | cons it its ih =>
    have := ih (tryHeld_took hlim h it)
    cases hsize : size lim it with
    | none => simpa only [List.foldl_cons, List.filterMap_cons, hsize, Option.elim_none] using this
    | some n => simpa only [List.foldl_cons, List.filterMap_cons, hsize, Option.elim_some] using this

theorem consider_took (hlim : Sound lim) (held : Str → List Item) {s : Packing} {t : Taking}
    (h : Took s t) (it : Item) :
    Took (consider lim held s it)
      (visit lim.maxChars.toNat lim.maxFiles.toNat t (groupOf lim held it)) := by
  unfold consider
  have hheld (reason : Reason) := foldl_tryHeld_took hlim (held it.resolved.absPath)
    (s := ⟨s.admitted, s.total, s.stopped, s.skipped ++ [⟨it.spec, reason⟩]⟩)
    ⟨h.taken, h.total, h.stopped⟩
  obtain ⟨hblocked, reason, hresult, hreason⟩ | ⟨hopen, hsize, reason, hresult, hreason⟩ |
    ⟨hopen, n, hsize, hover, hresult⟩ | ⟨hopen, n, s', hsize, hover, hresult, htook⟩ :=
    admitBlock_sizes hlim h it
  · have hsame : visit lim.maxChars.toNat lim.maxFiles.toNat t (groupOf lim held it) = t :=
      visit_blocked hblocked _
    have hrest := hheld reason
    rw [foldl_offer_blocked hblocked] at hrest
    rw [hresult, hsame]
    refine ⟨hrest.taken, hrest.total, ?_⟩
    by_cases hb : reason = .budgetExhausted
    · simp [hb, hreason hb]
    · simp [hb, hrest.stopped]
  · have hrest := hheld reason
    rw [hresult, groupOf, hsize, visit_none hopen]
    exact ⟨hrest.taken, hrest.total, by simp [hreason, hrest.stopped]⟩
  · have hrest := hheld .budgetExhausted
    rw [hresult, groupOf, hsize, visit_overflow hopen hover]
    exact ⟨hrest.taken, hrest.total, by simp⟩
  · rw [hresult, groupOf, hsize, visit_fits hopen hover]
    exact htook

theorem foldl_consider_took (hlim : Sound lim) (held : Str → List Item) (its : List Item)
    {s : Packing} {t : Taking} (h : Took s t) :
    Took (its.foldl (consider lim held) s)
      ((its.map (groupOf lim held)).foldl (visit lim.maxChars.toNat lim.maxFiles.toNat) t) := by
  induction its generalizing s t with
  | nil => exact h
  | cons it its ih => exact ih (consider_took hlim held h it)

end

/-! ### The bundle -/

theorem length_joined (sep : Str) (parts : List Str) :
    (joined sep parts).length = (parts.map List.length).sum + sep.length * (parts.length - 1) := by
  match parts with
  | [] => simp [joined]
  | [p] => simp [joined]
  | p :: q :: ps =>
    rw [joined, List.length_append, List.length_append, length_joined sep (q :: ps)]
    simp only [List.map_cons, List.sum_cons, List.length_cons, Nat.add_sub_cancel,
      Nat.mul_add, Nat.mul_one]
    omega

/-- The characters of a bundle of blocks of these sizes, separators included. -/
def bundled (sizes : List ℕ) : ℕ := sizes.sum + 2 * (sizes.length - 1)

theorem bundled_mono (p q : List ℕ) (h : p <+: q) : bundled p ≤ bundled q := by
  obtain ⟨r, rfl⟩ := h
  simp only [bundled, List.sum_append, List.length_append]
  omega

/-- What was taken in any order is in the bundle. -/
theorem finish_took {s : Packing} {t : Taking} (h : Took s t) :
    (finish s).chars = bundled t.taken ∧ (finish s).included.length = t.taken.length := by
  have hperm := List.perm_insertionSort (fun a b : Admitted => a.idx ≤ b.idx) s.admitted
  have hsum : ((s.admitted.insertionSort fun a b => a.idx ≤ b.idx).map
      fun a => a.block.length).sum = t.taken.sum := by
    rw [← h.taken]
    exact (hperm.map _).sum_eq
  have hlen : (s.admitted.insertionSort fun a b => a.idx ≤ b.idx).length = t.taken.length := by
    rw [← h.taken, List.length_map]
    exact hperm.length_eq
  constructor
  · change (joined (txt "\n\n") _).length = _
    rw [length_joined, List.map_map, List.length_map, hlen, bundled, ← hsum]
    rfl
  · change (List.map _ _).length = _
    rw [List.length_map, hlen]

/-! ### Reading says nothing about the budget -/

theorem step_error {start stop maxBytes : ℕ} {s : LineReader} {reason : Reason}
    (h : s.step start stop maxBytes = .error (.error reason)) : reason = .tooLarge := by
  unfold LineReader.step at h
  simp only at h
  split_ifs at h <;> simp_all

theorem readRange_error {start stop maxBytes fuel : ℕ} {s : LineReader} {reason : Reason}
    (h : readRange start stop maxBytes fuel s = .error reason) : reason = .tooLarge := by
  induction fuel generalizing s with
  | zero => cases h
  | succ fuel ih =>
    rw [readRange] at h
    split at h
    · exact ih h
    · rename_i result hstep
      exact step_error (h ▸ hstep)

theorem readContent_error {fs : Fs} {r : Resolved} {maxBytes : ℕ} {reason : Reason}
    (h : readContent fs r maxBytes = .error reason) : reason ≠ .budgetExhausted := by
  rintro rfl
  simp only [readContent, throw, throwThe, MonadExceptOf.throw, bind, Except.bind, pure,
    Except.pure] at h
  split at h
  · cases h
  · split at h
    · split_ifs at h <;> simp at h
    · split at h
      · split at h
        · rename_i hrange
          obtain rfl := Except.error.inj h
          cases readRange_error hrange
        · split_ifs at h <;> simp at h
      · split_ifs at h <;> simp at h

theorem Call.sound [Host] (c : Call) (h : 0 ≤ c.limits.maxChars) : Sound c.limits :=
  ⟨h, fun _ _ => readContent_error⟩

section
variable [Host] [Unicode]

/-- The items in the order of admission, each with the ranges held back for it, by size. -/
def Call.groups (c : Call) : List Group :=
  (order c.items).map (groupOf c.limits (dedupe c.items).held)

/-- The blocks that can be admitted together leave room for the separators between them. -/
def Call.Roomy (c : Call) : Prop :=
  ∀ sizes, Possible c.limits.maxChars.toNat [] c.groups sizes →
    Fits c.limits.maxChars.toNat c.limits.maxFiles.toNat sizes →
    bundled sizes ≤ c.limits.maxChars.toNat

/-- A bundle within the limits of its call. -/
structure Within (c : Call) (p : PackResult) : Prop where
  chars : p.chars = p.bundle.length
  fits : (p.chars : ℤ) ≤ c.limits.maxChars
  blocks : (p.included.length : ℤ) ≤ c.limits.maxFiles

/-- The sizes of the blocks that go in. -/
def Call.taking (c : Call) : Taking :=
  c.groups.foldl (visit c.limits.maxChars.toNat c.limits.maxFiles.toNat) ⟨[], false⟩

theorem packResolved_within_iff (c : Call) (h : 0 ≤ c.limits.maxChars) (skipped : List Skip) :
    Within c (packResolved c.limits skipped c.items) ↔ 0 ≤ c.limits.maxFiles ∧ c.Roomy := by
  have htook : Took _ c.taking := foldl_consider_took (c.sound h) (dedupe c.items).held
    (order c.items) (s := ⟨[], 0, false, skipped⟩) (t := ⟨[], false⟩) ⟨rfl, rfl, rfl⟩
  obtain ⟨hchars, hblocks⟩ := finish_took htook
  have hroomy : bundled c.taking.taken ≤ c.limits.maxChars.toNat ↔ c.Roomy :=
    bounded_iff c.groups bundled_mono
  have hfew : c.taking.taken.length ≤ c.limits.maxFiles.toNat :=
    (foldl_visit_greatest c.groups rfl ⟨Nat.zero_le _, Nat.zero_le _⟩).1.1
  rw [← hroomy]
  constructor
  · intro hwithin
    have hfit := hwithin.fits
    have hnum := hwithin.blocks
    rw [packResolved, hchars] at hfit
    omega
  · rintro ⟨hfiles, hroom⟩
    refine ⟨rfl, ?_, ?_⟩
    · rw [packResolved, hchars]
      omega
    · rw [packResolved, hblocks]
      omega

/-- For a limit that is not negative, what a call returns is within its limits exactly when the
number of files is none below zero and the blocks that fit leave room for their separators. A
call that raises returns nothing. -/
theorem pack_within_iff (c : Call) (h : 0 ≤ c.limits.maxChars) :
    (∀ p, pack c = some p → Within c p) ↔
      (∃ spec ∈ c.specs, Overlong spec) ∨ (0 ≤ c.limits.maxFiles ∧ c.Roomy) := by
  by_cases hlong : ∃ spec ∈ c.specs, Overlong spec
  · obtain ⟨spec, hspec, hover⟩ := hlong
    refine iff_of_true (fun p hp => ?_) (.inl ⟨spec, hspec, hover⟩)
    rw [pack_eq_none hspec hover] at hp
    cases hp
  · have hall := (isSome_resolve_iff c).mpr fun spec hspec hover => hlong ⟨spec, hspec, hover⟩
    have hpack : pack c = some (packResolved c.limits
        (c.specs.zipIdx.filterMap (refusedAt c.resolve)) c.items) := by
      rw [pack, resolveAll_eq, if_pos hall, Option.map_some]
      rfl
    simp only [hlong, false_or, hpack, Option.some.injEq, forall_eq', packResolved_within_iff c h]

end

/-! ### Two files that fill the budget -/

/-- A project with the files `a.txt` and `b.txt`, of five characters each. -/
def twoFiles : Fs where
  realpath p :=
    if p = txt "/r" then some ⟨[txt "r"], by decide⟩
    else if p = txt "/r/a.txt" then some ⟨[txt "r", txt "a.txt"], by decide⟩
    else if p = txt "/r/b.txt" then some ⟨[txt "r", txt "b.txt"], by decide⟩
    else none
  isfile _ := true
  read p :=
    if p = txt "/r/a.txt" then some ⟨5, [65, 65, 65, 65, 10]⟩
    else if p = txt "/r/b.txt" then some ⟨5, [66, 66, 66, 66, 10]⟩
    else none

def bothFiles (maxChars : ℤ) : Call :=
  ⟨[txt "a.txt", txt "b.txt"], txt "/r", some maxChars, none, [], fun _ => none, twoFiles⟩

theorem full_budget_exceeded :
    let : Host := Host.ascii
    let : Unicode := Unicode.ascii
    0 ≤ (bothFiles 38).limits.maxChars ∧ ¬∀ p, pack (bothFiles 38) = some p →
      Within (bothFiles 38) p := by
  intro host unicode
  refine ⟨by decide, fun hall => ?_⟩
  have hchars : (pack (bothFiles 38)).map PackResult.chars = some 40 := by decide
  obtain ⟨p, hp, hlen⟩ := Option.map_eq_some_iff.mp hchars
  have hfit := (hall p hp).fits
  rw [hlen] at hfit
  exact absurd hfit (by decide)

theorem pack_within_iff_forty :
    let : Host := Host.ascii
    let : Unicode := Unicode.ascii
    ((∀ p, pack (bothFiles 40) = some p → Within (bothFiles 40) p) ↔
      (∃ spec ∈ (bothFiles 40).specs, Overlong spec) ∨
        (0 ≤ (bothFiles 40).limits.maxFiles ∧ (bothFiles 40).Roomy)) := by
  intro host unicode
  exact pack_within_iff (bothFiles 40) (by decide)

end AskFable.Pack
