import AskFable.Oracle.Accounted

/-!
# What a cached answer is

What the cache serves to a call is what a backend answered to an earlier one that looked up the
same: the last such answer, and one that may be served again.
-/
namespace AskFable.Oracle
open AskFable.Text AskFable.Python AskFable.Health AskFable.Caching AskFable.Keyed

section
variable [Floats] (u : Caching.Unicode) (h : Hash) (ttl cap : ℤ)

/-- The hit found the row that was put last under its key, young enough and as old as it says. -/
def Found (uses : List (Use Stored)) (l : Lookup) (p : Stored) (age : ℕ) : Prop :=
  ∃ before now after row, uses = before ++ .get (l.key u h) now :: after ∧
    latest before (l.key u h) = some row ∧ row.payload = p ∧ now - row.ts ≤ ttl ∧
      age = (now - row.ts).floor.toNat

/-- Every row in the cache is a call's answer, and every hit found its row. -/
structure Sourced (w : World) : Prop where
  puts : ∀ row swept, Use.put row swept ∈ w.uses → ∃ c ∈ w.calls, c.stage.Wrote u h c.ask row
  hits : ∀ c ∈ w.calls, ∀ requested l p age r,
    c.stage = .ended (.hit requested l p age r) → Found u h ttl w.uses l p age

/-- A hit serves what a call with the same lookup was answered, the last such call to be cached. -/
def Backed (w : World) (a : Ask) (requested : Str) (l : Lookup) (age : ℕ) (r : OracleResult) :
    Prop :=
  a.Looked requested l ∧ ∃ p, Found u h ttl w.uses l p age ∧
    ∃ c ∈ w.calls, ∃ requested' l' r', c.stage = .ended (.answered requested' (some l') r') ∧
      c.ask.Looked requested' l' ∧ l'.Alike u l ∧ cacheable c.ask.key requested' r' ∧
        p = .of c.ask.traceId r' ∧
          (r.status, r.text, r.kind, r.model, r.thinking) =
            (r'.status, r'.text, r'.kind, r'.model, r'.thinking)

def World.Backed (w : World) : Prop :=
  ∀ c ∈ w.calls, ∀ requested l p age r, c.stage = .ended (.hit requested l p age r) →
    Oracle.Backed u h ttl w c.ask requested l age r

variable {u h ttl cap} {w : World}

omit [Floats] in
theorem Found.append {uses : List (Use Stored)} {l : Lookup} {p : Stored} {age : ℕ}
    (hfound : Found u h ttl uses l p age) (us : List (Use Stored)) :
    Found u h ttl (uses ++ us) l p age := by
  obtain ⟨before, now, after, row, rfl, hrow⟩ := hfound
  exact ⟨before, now, after ++ us, row, by simp, hrow⟩

omit [Floats] in
/-- What was put last was put. -/
theorem mem_of_latest {uses : List (Use Stored)} {k : Str} {row : Row Stored}
    (hlast : latest uses k = some row) : (∃ swept, Use.put row swept ∈ uses) ∧ row.key = k := by
  obtain ⟨hmem, hkey⟩ := mem_of_lookupLast Row.key hlast
  obtain ⟨use, huse, hrow⟩ := List.mem_filterMap.mp hmem
  cases use with
  | get => nomatch hrow
  | put row' swept =>
    obtain rfl := Option.some.inj hrow
    exact ⟨⟨swept, huse⟩, hkey⟩

theorem Sourced.start : Sourced u h ttl .start where
  puts _ _ hput := nomatch hput
  hits _ hc := nomatch hc

theorem Sourced.opened (hw : Sourced u h ttl w) (a : Ask) : Sourced u h ttl (w.opened a) where
  puts row swept hput := by
    obtain ⟨c, hc, hwrote⟩ := hw.puts row swept hput
    exact ⟨c, List.mem_append_left _ hc, hwrote⟩
  hits c hc requested l p age r hhit := by
    rcases List.mem_append.mp hc with hc | hc
    · exact hw.hits c hc requested l p age r hhit
    · rw [List.mem_singleton.mp hc] at hhit
      nomatch hhit

theorem Sourced.moved {w' : World} {i : ℕ} {a : Ask} {s s' : Stage}
    (hmove : Moved u h ttl cap w w' i a s s') (hw : Sourced u h ttl w) : Sourced u h ttl w' := by
  obtain ⟨us, huses, hputs, hhit⟩ := hmove.uses
  have hi : i < w.calls.length := (List.getElem?_eq_some_iff.mp hmove.was).1
  refine ⟨fun row swept hput => ?_, fun c hc requested l p age r hended => ?_⟩
  · rw [huses] at hput
    rw [hmove.calls]
    rcases List.mem_append.mp hput with hput | hput
    · obtain ⟨c, hc, hwrote⟩ := hw.puts row swept hput
      -- a call that wrote has ended, so it is not the one that goes on
      have hne : c ≠ ⟨a, s⟩ := by
        rintro rfl
        have hwaits := hmove.waits
        cases s with
        | ended o => nomatch hwaits
        | _ => exact hwrote
      obtain ⟨j, hj⟩ := List.mem_iff_getElem?.mp hc
      have hji : j ≠ i := by
        rintro rfl
        exact hne (Option.some.inj (hj.symm.trans hmove.was))
      refine ⟨c, List.mem_iff_getElem?.mpr ⟨j, ?_⟩, hwrote⟩
      rw [List.getElem?_set_ne hji.symm, hj]
    · exact ⟨⟨a, s'⟩, List.mem_set hi _, hputs row swept hput⟩
  · rw [hmove.calls] at hc
    rw [huses]
    rcases List.mem_or_eq_of_mem_set hc with hc | rfl
    · exact (hw.hits c hc requested l p age r hended).append us
    · obtain ⟨now, rfl, hget⟩ := hhit requested l p age r hended
      obtain ⟨row, hlast, hp, hfresh, hage⟩ := get_latest ttl cap hget
      exact ⟨w.uses, now, [], row, rfl, hlast, hp, hfresh, hage⟩

variable (u h ttl cap) in
/-- Whatever the cache serves, in every order of moves of any number of processes, is what a
backend answered to a call that looked up the same, told apart at most in surrogates: a success,
not truncated, and from the model its key names where the bridge says which. It is the last answer
cached under the key, not older than the time to live, and of the age that is told. -/
theorem hits_backed (ms : List Move) : (World.start.run u h ttl cap ms).Backed u h ttl := by
  intro c hc requested l p age r hended
  have hw := accounted_run u h ttl cap ms
  have hsourced : Sourced u h ttl (World.start.run u h ttl cap ms) :=
    run_invariant u h ttl cap .start (fun _ a hw => hw.opened a)
      (fun _ _ _ _ _ _ hmove hw => hw.moved hmove) ms
  have hrouted := hw.routed c hc
  rw [hended] at hrouted
  obtain ⟨hlooked, -, hserved⟩ := hrouted
  have hfound := hsourced.hits c hc requested l p age r hended
  obtain ⟨before, now, after, row, huses, hlast, rfl, -⟩ := id hfound
  obtain ⟨⟨swept, hput⟩, hkey⟩ := mem_of_latest hlast
  obtain ⟨c', hc', hwrote⟩ := hsourced.puts row swept (huses ▸ List.mem_append_left _ hput)
  have hrouted' := hw.routed c' hc'
  cases hstage : c'.stage with
  | queued | flying => rw [hstage] at hwrote; nomatch hwrote
  | ended o =>
    rw [hstage] at hwrote hrouted'
    cases o with
    | answered requested' lookup r' =>
      cases lookup with
      | none => nomatch hwrote
      | some l' =>
        obtain ⟨hcacheable, hkey', hpayload⟩ := hwrote
        refine ⟨hlooked, row.payload, hfound, c', hc', requested', l', r', hstage,
          hrouted'.2 l' rfl, key_eq_iff.mp (hkey'.symm.trans hkey), hcacheable, hpayload, ?_⟩
        rw [hserved, hpayload]
        rfl
    | _ => nomatch hwrote

end

end AskFable.Oracle
