import AskFable.Pack.Accounting

/-!
# What a spec may name

`resolve_within` against the promise of its module: what it accepts is a file below the root
that no entry of the blocklist names, and nothing makes it raise.
-/
namespace AskFable.Pack
open AskFable.Text AskFable.Python

/-! ### Paths as components -/

theorem commonpath_eq_left (root target : List Str) :
    commonpath root target = root ↔ root <+: target := by
  induction root generalizing target with
  | nil => simp [commonpath]
  | cons p ps ih =>
    cases target with
    | nil => simp [commonpath]
    | cons q qs =>
      by_cases hpq : p = q
      · simp [commonpath, hpq, ih]
      · simp [commonpath, hpq]

theorem joined_eq_intercalate (sep : Str) (parts : List Str) :
    joined sep parts = sep.intercalate parts := by
  induction parts with
  | nil => rfl
  | cons p parts ih =>
    cases parts with
    | nil => simp [joined, List.intercalate]
    | cons q qs => simp [joined, ih, List.intercalate]

/-- The names of a path without links come back from its text. -/
theorem pathParts_joined {parts : List Str}
    (h : ∀ p ∈ parts, p ≠ [] ∧ cp '/' ∉ p ∧ p ≠ txt "." ∧ p ≠ txt "..") :
    pathParts (joined (txt "/") parts) = parts := by
  by_cases hne : parts = []
  · rw [hne]
    decide
  have hslash : txt "/" = [cp '/'] := by decide
  rw [pathParts, joined_eq_intercalate, hslash,
    List.splitOn_intercalate _ (fun p hp => (h p hp).2.1) hne, List.filter_eq_self]
  intro p hp
  simp [(h p hp).1, (h p hp).2.2.1]

theorem pathParts_cons_slash (path : Str) : pathParts (cp '/' :: path) = pathParts path := by
  simp [pathParts, List.splitOn_cons_eq_if_modifyHead]

theorem RealPath.pathParts_str (p : RealPath) : pathParts p.str = p.val := by
  rw [RealPath.str, pathParts_cons_slash, pathParts_joined p.property]

/-- The names of `target` below `root`. -/
def RealPath.below (target root : RealPath) : List Str := target.val.drop root.val.length

theorem pathParts_relpath (target root : RealPath) :
    pathParts (relpath target root) = target.below root := by
  rw [relpath, RealPath.below]
  split_ifs with hlen
  · rw [hlen.symm, List.drop_length]
    decide
  · exact pathParts_joined fun p hp => target.property p (List.mem_of_mem_drop hp)

/-! ### What the blocklist names -/

section
variable [Unicode]

/-- A name that is barred wherever it stands. -/
def Barred (extra : List Str) (name : Str) : Prop :=
  casefold name = txt ".git" ∨ ∃ tok ∈ extra, tok ≠ [] ∧ casefold name = casefold tok

/-- `.env` and `.env.*`. -/
def IsEnv (name : Str) : Prop :=
  casefold name = txt ".env" ∨ txt ".env." <+: casefold name

theorem isBlocked_eq_false {rel : Str} {extra : List Str} (h : isBlocked rel extra = false) :
    (∀ name ∈ pathParts rel, ¬Barred extra name) ∧
      ∀ name, (pathParts rel).getLast? = some name → ¬IsEnv name := by
  simp only [isBlocked, Bool.or_eq_false_iff, List.any_eq_false] at h
  obtain ⟨⟨⟨hgit, henv⟩, hdot⟩, htok⟩ := h
  refine ⟨?_, ?_⟩
  · rintro name hname (hbar | ⟨tok, hmem, hne, hbar⟩)
    · have hin : txt ".git" ∈ (pathParts rel).map casefold :=
        List.mem_map.mpr ⟨name, hname, hbar⟩
      simp [hin] at hgit
    · have hin : casefold tok ∈ (pathParts rel).map casefold :=
        List.mem_map.mpr ⟨name, hname, hbar⟩
      exact htok tok hmem (by simp [hin, hne])
  · intro name hlast hname
    rw [List.getLast?_map, hlast, Option.map_some, Option.getD_some] at henv hdot
    rcases hname with hname | hname
    · simp [hname] at henv
    · rw [List.isPrefixOf_iff_prefix.mpr hname] at hdot
      cases hdot

end

/-! ### What `resolve_within` accepts -/

section
variable [Unicode]

theorem parseSpec_range {spec path : Str} {a b : ℕ}
    (h : parseSpec spec = some (.ok (path, some (a, b)))) : 1 ≤ a ∧ a ≤ b := by
  unfold parseSpec at h
  simp only at h
  split at h
  · rename_i start stop hmatch
    obtain ⟨n, -, h⟩ := Option.bind_eq_some_iff.mp h
    obtain ⟨m, -, h⟩ := Option.bind_eq_some_iff.mp h
    split_ifs at h with hbad
    · cases h
    · cases h
      omega
  · split at h
    · split_ifs at h
      · cases h
      · cases h
    · cases h

/-- The tests a path passes once it is resolved. -/
theorem resolveWithin_of_target {fs : Fs} {root spec path : Str} {range : Option (ℕ × ℕ)}
    {realRoot target : RealPath} (extra : List Str)
    (hparsed : parseSpec spec = some (.ok (path, range))) (hblank : strip path ≠ [])
    (hroot : fs.realpath root = some realRoot)
    (htarget : fs.realpath (joinPath realRoot.str path) = some target) :
    resolveWithin fs root spec extra = some (
      if ¬realRoot.val <+: target.val then .error .escape
      else if isBlocked (relpath target realRoot) extra = true then .error .blocked
      else if fs.isfile target = true then .ok ⟨target.str, relpath target realRoot, range⟩
      else .error .notFile) := by
  rw [resolveWithin, hparsed, Option.map_some]
  simp only [bind, Except.bind, pure, Except.pure, throw, throwThe, MonadExceptOf.throw, hblank,
    if_false, hroot, htarget, ne_eq, commonpath_eq_left]
  cases fs.isfile target <;> rfl

/-- The spec names a file below the root, and nothing rejects it. -/
structure Call.Names (c : Call) (spec : Str) (root target : RealPath)
    (range : Option (ℕ × ℕ)) : Prop where
  path : ∃ path, parseSpec spec = some (.ok (path, range)) ∧ strip path ≠ [] ∧
    c.fs.realpath (joinPath root.str path) = some target
  real : c.fs.realpath c.root = some root
  inside : root.val <+: target.val
  clear : isBlocked (relpath target root) c.extraBlocklist = false
  file : c.fs.isfile target = true

theorem Call.resolve_eq_ok (c : Call) (spec : Str) (r : Resolved) :
    c.resolve spec = some (.ok r) ↔ ∃ root target range, c.Names spec root target range ∧
      r = ⟨target.str, relpath target root, range⟩ := by
  rw [Call.resolve]
  constructor
  · intro h
    obtain ⟨parsed, hparsed, hrest⟩ := Option.map_eq_some_iff.mp h
    rcases parsed with reason | ⟨path, range⟩
    · cases hrest
    simp only [bind, Except.bind, throw, throwThe, MonadExceptOf.throw] at hrest
    split_ifs at hrest with hblank
    cases hroot : c.fs.realpath c.root with
    | none => simp [hroot] at hrest
    | some root =>
      cases htarget : c.fs.realpath (joinPath root.str path) with
      | none => simp [hroot, htarget] at hrest
      | some target =>
        rw [resolveWithin_of_target _ hparsed hblank hroot htarget, Option.some.injEq] at h
        split_ifs at h with hinside hclear hfile
        injection h with h
        exact ⟨root, target, range, ⟨⟨path, hparsed, hblank, htarget⟩, hroot,
          hinside, by simpa using hclear, hfile⟩, h.symm⟩
  · rintro ⟨root, target, range, ⟨⟨path, hparsed, hblank, htarget⟩, hroot, hinside, hclear,
      hfile⟩, rfl⟩
    rw [resolveWithin_of_target _ hparsed hblank hroot htarget, if_neg (not_not.mpr hinside),
      if_neg (by simp [hclear]), if_pos hfile]

/-- The answer is a file inside the root that the blocklist does not name: below the root
nothing is barred, and the file itself is no `.env`. -/
structure Inside (c : Call) (root target : RealPath) (r : Resolved) : Prop where
  real : c.fs.realpath c.root = some root
  path : r.absPath = target.str
  inside : root.val <+: target.val
  file : c.fs.isfile target = true
  unbarred : ∀ name ∈ target.below root, ¬Barred c.extraBlocklist name
  name : ∀ name, (target.below root).getLast? = some name → ¬IsEnv name
  range : ∀ a b, r.range = some (a, b) → 1 ≤ a ∧ a ≤ b

def Call.Contained (c : Call) (r : Resolved) : Prop := ∃ root target, Inside c root target r

/-- No name of the whole path is on the blocklist, whatever it names. -/
def Call.Unlisted (c : Call) (r : Resolved) : Prop :=
  ∀ name ∈ pathParts r.absPath, ¬Barred c.extraBlocklist name ∧ ¬IsEnv name

theorem Call.Names.inside_root {c : Call} {spec : Str} {root target : RealPath}
    {range : Option (ℕ × ℕ)} (h : c.Names spec root target range) :
    Inside c root target ⟨target.str, relpath target root, range⟩ := by
  obtain ⟨hunbarred, hname⟩ := isBlocked_eq_false h.clear
  rw [pathParts_relpath] at hunbarred hname
  refine ⟨h.real, rfl, h.inside, h.file, hunbarred, hname, ?_⟩
  rintro a b hrange
  obtain ⟨path, hparsed, -⟩ := h.path
  rw [show range = some (a, b) from hrange] at hparsed
  exact parseSpec_range hparsed

/-- The spec names a file whose path has a listed name where nothing looks for it: above or at
the root, or an `.env` that is a directory. -/
def Call.Shadowed (c : Call) (spec : Str) : Prop :=
  ∃ root target range, c.Names spec root target range ∧
    ((∃ name ∈ root.val, Barred c.extraBlocklist name ∨ IsEnv name) ∨
      ∃ name ∈ (target.below root).dropLast, IsEnv name)

theorem Call.Names.unlisted_iff {c : Call} {spec : Str} {root target : RealPath}
    {range : Option (ℕ × ℕ)} (h : c.Names spec root target range) :
    c.Unlisted ⟨target.str, relpath target root, range⟩ ↔
      (∀ name ∈ root.val, ¬Barred c.extraBlocklist name ∧ ¬IsEnv name) ∧
        ∀ name ∈ (target.below root).dropLast, ¬IsEnv name := by
  obtain ⟨-, -, -, -, hunbarred, hlast, -⟩ := h.inside_root
  have hparts : target.val = root.val ++ target.below root := by
    obtain ⟨rest, hrest⟩ := h.inside
    rw [RealPath.below, ← hrest, List.drop_left]
  rw [Call.Unlisted, RealPath.pathParts_str, hparts, List.forall_mem_append]
  refine and_congr_right fun _ => ⟨?_, ?_⟩
  · intro hall name hname
    exact (hall name (List.mem_of_mem_dropLast hname)).2
  · intro hdirs name hname
    refine ⟨hunbarred name hname, ?_⟩
    by_cases hdir : name ∈ (target.below root).dropLast
    · exact hdirs name hdir
    · refine hlast name ?_
      have hne : target.below root ≠ [] := List.ne_nil_of_mem hname
      rw [← List.dropLast_append_getLast hne, List.mem_append, List.mem_singleton] at hname
      rw [List.getLast?_eq_some_getLast hne, hname.resolve_left hdir]

/-- Every spec is answered, a file only if it is `Ok`, and so is the list of them. -/
def Call.Settles [Host] (c : Call) (Ok : Resolved → Prop) : Prop :=
  (∀ spec ∈ c.specs, ∃ result, c.resolve spec = some result ∧ ∀ r, result = .ok r → Ok r) ∧
    ∃ p, pack c = some p

theorem settles_iff [Host] (c : Call) (Ok : Resolved → Prop) :
    c.Settles Ok ↔
      ∀ spec ∈ c.specs, ¬Overlong spec ∧ ∀ r, c.resolve spec = some (.ok r) → Ok r := by
  constructor
  · rintro ⟨hall, -⟩ spec hspec
    obtain ⟨result, hresult, hok⟩ := hall spec hspec
    refine ⟨?_, ?_⟩
    · rw [← resolveWithin_eq_none c.fs c.root spec c.extraBlocklist]
      rw [Call.resolve] at hresult
      simp [hresult]
    · intro r hr
      rw [hresult, Option.some.injEq] at hr
      exact hok r hr
  · intro hall
    refine ⟨?_, ?_⟩
    · intro spec hspec
      obtain ⟨hlong, hok⟩ := hall spec hspec
      rw [← resolveWithin_eq_none c.fs c.root spec c.extraBlocklist] at hlong
      obtain ⟨result, hresult⟩ := Option.ne_none_iff_exists'.mp hlong
      refine ⟨result, hresult, ?_⟩
      rintro r rfl
      exact hok r hresult
    · have hsome := (isSome_resolve_iff c).mpr fun spec hspec => (hall spec hspec).1
      rw [pack, resolveAll_eq, if_pos hsome, Option.map_some]
      exact ⟨_, rfl⟩

/-- Whatever the specs, the root and the file system are, every answer is a reason or a file
inside the root that is not blocked, exactly when no spec has a range with a bound of more than
4300 digits. The path has no listed name at all exactly when, besides, none stands in the root's
own path or belongs to a directory named as an `.env` file. -/
theorem specs_contained_iff [Host] (c : Call) :
    (c.Settles c.Contained ↔ ∀ spec ∈ c.specs, ¬Overlong spec) ∧
      (c.Settles (fun r => c.Contained r ∧ c.Unlisted r) ↔
        ∀ spec ∈ c.specs, ¬Overlong spec ∧ ¬c.Shadowed spec) := by
  have hcontained : ∀ spec r, c.resolve spec = some (.ok r) → c.Contained r := by
    intro spec r hr
    obtain ⟨root, target, range, hnames, rfl⟩ := (c.resolve_eq_ok spec r).mp hr
    exact ⟨root, target, hnames.inside_root⟩
  refine ⟨?_, ?_⟩
  · rw [settles_iff]
    exact forall₂_congr fun spec _ => and_iff_left (hcontained spec)
  · rw [settles_iff]
    refine forall₂_congr fun spec _ => and_congr_right fun _ => ⟨?_, ?_⟩
    · rintro hall ⟨root, target, range, hnames, hshadow⟩
      have hunlisted := (hall _ ((c.resolve_eq_ok spec _).mpr ⟨_, _, _, hnames, rfl⟩)).2
      obtain ⟨hroot, hdirs⟩ := hnames.unlisted_iff.mp hunlisted
      rcases hshadow with ⟨name, hname, hlisted⟩ | ⟨name, hname, henv⟩
      · exact hlisted.elim (hroot name hname).1 (hroot name hname).2
      · exact hdirs name hname henv
    · intro hclear r hr
      refine ⟨hcontained spec r hr, ?_⟩
      obtain ⟨root, target, range, hnames, rfl⟩ := (c.resolve_eq_ok spec r).mp hr
      refine hnames.unlisted_iff.mpr ⟨?_, ?_⟩
      · intro name hname
        rw [← not_or]
        exact fun hlisted => hclear ⟨_, _, _, hnames, .inl ⟨name, hname, hlisted⟩⟩
      · exact fun name hname henv => hclear ⟨_, _, _, hnames, .inr ⟨name, hname, henv⟩⟩

end

theorem farRange_raises :
    let : Host := Host.ascii
    let : Unicode := Unicode.ascii
    let c : Call := ⟨[farRange], txt "/r", none, none, [], fun _ => none, Fs.empty⟩
    c.resolve farRange = none ∧ pack c = none ∧ ¬c.Settles c.Contained := by
  intro host unicode c
  have hpack : pack c = none := pack_eq_none List.mem_cons_self overlong_farRange
  refine ⟨(resolveWithin_eq_none _ _ _ _).mpr overlong_farRange, hpack, ?_⟩
  rintro ⟨-, p, hp⟩
  rw [hpack] at hp
  cases hp

end AskFable.Pack
