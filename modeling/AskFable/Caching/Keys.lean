import AskFable.Chain.Resolve
import AskFable.General.Separated
import AskFable.General.Sorting
import AskFable.Python.JsonAscii
import AskFable.Python.Utf8
import Mathlib.Data.List.Lex

/-!
# The keys of the answer cache

What `cache.key` hashes tells its arguments apart as far as their code units go. A chain hands it
the whole pipeline as one token, and that token does not tell where a stage ends.
-/
namespace AskFable.Caching
open AskFable.Text AskFable.Python AskFable.Python.JsonText AskFable.Separated

/-- The arguments of `key`. -/
@[ext]
structure Lookup where
  tool : Str
  models : List Str
  question : Str
  context : Str
  effort : Option Str

/-- SHA-256 as `hexdigest` shows it. -/
structure Hash where
  sha256 : Bytes → Str
  injective : Function.Injective sha256
  ascii : ∀ b, ∀ c ∈ sha256 b, c.val < 128

/-- `str.lower` and `unicodedata.normalize("NFKC", …)`. -/
structure Unicode where
  lower : Str → Str
  nfkc : Str → Str

/-- `_KEY_VERSION`. -/
def KEY_VERSION : ℕ := 5

/-- `str.split()`. -/
def split (s : Str) : List Str := (s.splitOnP isSpace).filter (· ≠ [])

/-- `sorted`. -/
def sorted (ss : List Str) : List Str := ss.insertionSort (· ≤ ·)

section
variable (u : Unicode)

/-- The question as the key has it. -/
def Lookup.q (x : Lookup) : Str := u.nfkc (u.lower ((txt " ").intercalate (split x.question)))

/-- The effort as the key has it. -/
def Lookup.e (x : Lookup) : Str := u.lower (strip (x.effort.getD []))

variable (h : Hash)

/-- The JSON text of the fields, by the names of the fields. -/
def Lookup.canon (x : Lookup) : Str :=
  txt "\x7b\"c\": " ++ dumpAscii (h.sha256 (Utf8.encodePass x.context)) ++
    (txt ", \"e\": " ++ dumpAscii (x.e u) ++
      (txt ", \"models\": [" ++ spaced ((sorted x.models).map dumpAscii) ++
        (txt "], \"q\": " ++ dumpAscii (x.q u) ++
          (txt ", \"tool\": " ++ dumpAscii x.tool ++
            (txt ", \"v\": " ++ natStr KEY_VERSION ++ txt "\x7d")))))

/-- `key`. The text is ASCII, so nothing in it is refused. -/
def Lookup.key (x : Lookup) : Str := h.sha256 (Utf8.encodePass (x.canon u h))

end

/-- The two ask the same thing. -/
def Lookup.Same (u : Unicode) (x y : Lookup) : Prop :=
  x.tool = y.tool ∧ x.models.Perm y.models ∧ x.q u = y.q u ∧ x.context = y.context ∧ x.e u = y.e u

/-- The same but for surrogates: a character beyond the basic plane may stand for its two halves. -/
def Lookup.Alike (u : Unicode) (x y : Lookup) : Prop :=
  units x.tool = units y.tool ∧ (sorted x.models).map units = (sorted y.models).map units ∧
    units (x.q u) = units (y.q u) ∧ x.context = y.context ∧ units (x.e u) = units (y.e u)

/-- No string the key is made of holds a surrogate pair as two halves. -/
structure Lookup.Whole (u : Unicode) (x : Lookup) : Prop where
  tool : JsonText.Whole x.tool
  models : ∀ m ∈ x.models, JsonText.Whole m
  q : JsonText.Whole (x.q u)
  e : JsonText.Whole (x.e u)

theorem Hash.units_inj (h : Hash) {b b' : Bytes}
    (hunits : units (h.sha256 b) = units (h.sha256 b')) : b = b' := by
  rw [units_ascii (h.ascii b), units_ascii (h.ascii b')] at hunits
  exact h.injective (List.map_injective_iff.mpr Fin.val_injective hunits)

theorem key_eq_iff {u : Unicode} {h : Hash} {x y : Lookup} :
    x.key u h = y.key u h ↔ x.Alike u y := by
  constructor
  · intro hkey
    have hcanon := Utf8.encodePass_injective (h.injective hkey)
    simp only [Lookup.canon, List.append_assoc] at hcanon
    obtain ⟨hc, hrest⟩ := dumpAscii_append (List.append_cancel_left hcanon)
    obtain ⟨he, hrest⟩ := dumpAscii_append (List.append_cancel_left hrest)
    obtain ⟨hmodels, hrest⟩ := spaced_append (List.append_cancel_left hrest)
    obtain ⟨hq, hrest⟩ := dumpAscii_append (@List.append_cancel_left _ (txt ", \"q\": ") _ _ hrest)
    obtain ⟨htool, -⟩ := dumpAscii_append (List.append_cancel_left hrest)
    exact ⟨htool, hmodels, hq, Utf8.encodePass_injective (h.units_inj hc), he⟩
  · rintro ⟨htool, hmodels, hq, hc, he⟩
    rw [Lookup.key, Lookup.key, Lookup.canon, Lookup.canon, dumpAscii_congr htool,
      map_dumpAscii_congr hmodels, dumpAscii_congr hq, hc, dumpAscii_congr he]

/-- Calls whose strings hold no surrogate pair as two halves are told apart. -/
theorem same_of_key_eq {u : Unicode} {h : Hash} {x y : Lookup} (hx : x.Whole u) (hy : y.Whole u)
    (hkey : x.key u h = y.key u h) : x.Same u y := by
  obtain ⟨htool, hmodels, hq, hc, he⟩ := key_eq_iff.mp hkey
  have hsorted : sorted x.models = sorted y.models :=
    map_units_inj (fun m hm => hx.models m ((List.mem_insertionSort _).mp hm))
      (fun m hm => hy.models m ((List.mem_insertionSort _).mp hm)) hmodels
  have hperm (ss : List Str) : (sorted ss).Perm ss := List.perm_insertionSort _ ss
  refine ⟨units_inj_of_whole hx.tool hy.tool htool, ?_, units_inj_of_whole hx.q hy.q hq, hc,
    units_inj_of_whole hx.e hy.e he⟩
  exact ((hperm _).symm.trans (.of_eq hsorted)).trans (hperm _)

/-! ### The keys of a chain -/

/-- The efforts a call runs at where it names none: of Atlas, OpenRouter, Grok, Kimi and Codex. -/
abbrev Defaults := List Str

/-- A backend that takes an effort. -/
def takesEffort (key : Str) : Bool :=
  [txt "grok", txt "kimi", txt "codex", txt "glm"].contains key ||
    (Council.carried key (txt "atlas:")).isSome || (Council.carried key (txt "openrouter:")).isSome

/-- `cache_effort`. -/
def cacheEffort (defaults : Defaults) (key : Str) (effort : Option Str) : Option Str :=
  if effort.getD [] ≠ [] ∨ takesEffort key = false then effort
  else some (txt "default:" ++ (txt "/").intercalate defaults)

/-- `panel_cache_effort`. -/
def panelCacheEffort (defaults : Defaults) (keys : List Str) (effort : Option Str) : Option Str :=
  if effort.getD [] ≠ [] then effort
  else keys.findSome? fun key => (cacheEffort defaults key none).filter (· ≠ [])

/-- A call of `ask_chain`, and what the installation makes of it. -/
structure ChainRequest where
  args : Chain.ChainArgs
  question : Str
  context : Str
  defaults : Defaults

section
variable [Host] (u : Unicode)

def ChainRequest.selected (r : ChainRequest) : List Str :=
  (Chain.resolveOrdered u.lower r.args.tokens).1

def ChainRequest.unknown (r : ChainRequest) : List Str :=
  (Chain.resolveOrdered u.lower r.args.tokens).2

/-- The lookup of `_chain`. -/
def ChainRequest.lookup (r : ChainRequest) : Lookup where
  tool := txt "ask_chain"
  models := (txt " > ").intercalate (r.selected u) :: (r.unknown u).map (txt "unknown:" ++ ·)
  question := r.question
  context := r.context
  effort := panelCacheEffort r.defaults (r.selected u) none

variable (h : Hash)

/-- The key `_chain` looks up; none is built without a recognized stage. -/
def ChainRequest.cacheKey (r : ChainRequest) : Option Str :=
  if r.selected u = [] then none else some ((r.lookup u).key u h)

/-- The keys are equal only if the pipelines and the dropped stages are. -/
def ChainRequest.Separate (r r' : ChainRequest) : Prop :=
  ∀ k ∈ r.cacheKey u h, k ∈ r'.cacheKey u h →
    r.selected u = r'.selected u ∧ (r.unknown u).Perm (r'.unknown u)

/-- The pipelines and the dropped stages differ, but only in where a stage ends at a ` > `, or in
surrogates. -/
def ChainRequest.Blurred (r r' : ChainRequest) : Prop :=
  r.selected u ≠ [] ∧
    Recut (units (txt " > ")) ((r.selected u).map units) ((r'.selected u).map units) ∧
      (sorted (r.unknown u)).map units = (sorted (r'.unknown u)).map units ∧
        units ((r.lookup u).e u) = units ((r'.lookup u).e u) ∧
          ¬(r.selected u = r'.selected u ∧ (r.unknown u).Perm (r'.unknown u))

end

theorem units_intercalate (sep : Str) (ss : List Str) :
    units (sep.intercalate ss) = (units sep).intercalate (ss.map units) := by
  induction ss with
  | nil => rfl
  | cons s ss ih =>
    cases ss with
    | nil => simp
    | cons s' ss =>
      rw [List.intercalate_cons_cons, units_append, units_append, ih]
      simp only [List.map_cons, List.intercalate_cons_cons]

theorem sorted_cons {s : Str} {ss : List Str} (hs : ∀ t ∈ ss, s ≤ t) :
    sorted (s :: ss) = s :: sorted ss := by
  change (sorted ss).orderedInsert (· ≤ ·) s = _
  cases hss : sorted ss with
  | nil => rfl
  | cons t ts =>
    have ht : t ∈ ss := (List.mem_insertionSort _).mp (hss ▸ List.mem_cons_self)
    exact if_pos (hs t ht)

theorem sorted_tagged (tag : Str) (ss : List Str) :
    sorted (ss.map (tag ++ ·)) = (sorted ss).map (tag ++ ·) := by
  have hlt (a b : Str) : tag ++ a < tag ++ b ↔ a < b := by
    induction tag with
    | nil => rfl
    | cons c tag ih => rw [List.cons_append, List.cons_append, List.cons_lt_cons_self, ih]
  exact (List.map_insertionSort (· ≤ ·) (· ≤ ·) _ ss fun a _ b _ => by
    rw [← not_lt, ← not_lt, hlt]).symm

section
variable [Host] {u : Unicode} {h : Hash} {r r' : ChainRequest}

omit [Host] in
theorem begins_of_recognized {tok : Str} (htok : Chain.recognized tok = true) :
    Begins 32 62 (units tok) := by
  obtain ⟨c, t, rfl, hlow, hhigh⟩ := Chain.recognized_head htok
  have hlow' : 97 ≤ c.val := hlow
  have hhigh' : c.val < 117 := hhigh
  exact ⟨c.val, units t, by rw [units_cons, unitsOf, if_pos (by omega)]; rfl, by omega, by omega⟩

theorem begins_selected : ∀ a ∈ (r.selected u).map units, Begins 32 62 a := fun a ha => by
  obtain ⟨tok, htok, rfl⟩ := List.mem_map.mp ha
  exact begins_of_recognized (List.mem_filter.mp htok).2

/-- The pipeline stands before the tagged stages. -/
theorem sorted_models (hne : r.selected u ≠ []) :
    sorted (r.lookup u).models = (txt " > ").intercalate (r.selected u) ::
      (sorted (r.unknown u)).map (txt "unknown:" ++ ·) := by
  rw [ChainRequest.lookup, sorted_cons, sorted_tagged]
  intro t ht
  obtain ⟨name, -, rfl⟩ := List.mem_map.mp ht
  obtain ⟨tok, toks, htoks⟩ := List.exists_cons_of_ne_nil hne
  have htok : tok ∈ r.selected u := htoks ▸ List.mem_cons_self
  obtain ⟨c, rest, rfl, -, hlt⟩ := Chain.recognized_head (List.mem_filter.mp htok).2
  rw [htoks, List.intercalate_cons_cons_left]
  exact le_of_lt (List.cons_lt_cons_iff.mpr (Or.inl hlt))

theorem chain_key_eq_iff (hquestion : r.question = r'.question) (hcontext : r.context = r'.context)
    (hne : r.selected u ≠ []) (hne' : r'.selected u ≠ []) :
    (r.lookup u).key u h = (r'.lookup u).key u h ↔
      Recut (units (txt " > ")) ((r.selected u).map units) ((r'.selected u).map units) ∧
        (sorted (r.unknown u)).map units = (sorted (r'.unknown u)).map units ∧
          units ((r.lookup u).e u) = units ((r'.lookup u).e u) := by
  have hq : (r.lookup u).q u = (r'.lookup u).q u := by
    simp only [Lookup.q, ChainRequest.lookup, hquestion]
  have hc : (r.lookup u).context = (r'.lookup u).context := hcontext
  have hjoin : units ((txt " > ").intercalate (r.selected u)) =
      units ((txt " > ").intercalate (r'.selected u)) ↔
      Recut (units (txt " > ")) ((r.selected u).map units) ((r'.selected u).map units) := by
    rw [units_intercalate, units_intercalate]
    exact (recut_iff (by decide) begins_selected begins_selected).symm
  have htagged (ss ss' : List Str) :
      (ss.map (txt "unknown:" ++ ·)).map units = (ss'.map (txt "unknown:" ++ ·)).map units ↔
        ss.map units = ss'.map units := by
    have hsplit : units ∘ (txt "unknown:" ++ ·) = (units (txt "unknown:") ++ ·) ∘ units :=
      funext fun s => units_append _ s
    rw [List.map_map, List.map_map, hsplit, ← List.map_map, ← List.map_map]
    exact (List.map_injective_iff.mpr fun _ _ => List.append_cancel_left).eq_iff
  rw [key_eq_iff, Lookup.Alike, sorted_models hne, sorted_models hne', List.map_cons,
    List.map_cons, List.cons.injEq, hjoin, htagged, hq, hc, and_assoc]
  have htool : (r.lookup u).tool = (r'.lookup u).tool := rfl
  simp only [htool, true_and]

/-- Equal keys mean equal calls of `key`, surrogates apart, and equal pipelines of a chain, but
for where a stage ends. -/
theorem keys_separate_iff (u : Unicode) (h : Hash) :
    (∀ x y : Lookup, (x.key u h = y.key u h → x.Same u y) ↔ ¬(x.Alike u y ∧ ¬x.Same u y)) ∧
      ∀ r r' : ChainRequest, r.question = r'.question → r.context = r'.context →
        (r.Separate u h r' ↔ ¬r.Blurred u r') := by
  refine ⟨fun x y => ?_, fun r r' hquestion hcontext => ?_⟩
  · rw [key_eq_iff, not_and, not_not]
  · by_cases hne : r.selected u = []
    · have hnone : r.cacheKey u h = none := if_pos hne
      exact iff_of_true (fun k hk => nomatch hnone ▸ hk) fun hblurred => hblurred.1 hne
    · by_cases hne' : r'.selected u = []
      · have hnone : r'.cacheKey u h = none := if_pos hne'
        refine iff_of_true (fun k _ hk => nomatch hnone ▸ hk) fun hblurred => hne ?_
        exact List.map_eq_nil_iff.mp (hblurred.2.1.eq_nil_iff.mpr (by rw [hne']; rfl))
      · have hkey : r.cacheKey u h = some ((r.lookup u).key u h) := if_neg hne
        have hkey' : r'.cacheKey u h = some ((r'.lookup u).key u h) := if_neg hne'
        have hiff := chain_key_eq_iff (h := h) hquestion hcontext hne hne'
        constructor
        · rintro hseparate ⟨-, hrecut, hunknown, heffort, hdiffer⟩
          refine hdiffer (hseparate _ hkey ?_)
          rw [hkey', hiff.mpr ⟨hrecut, hunknown, heffort⟩]
          rfl
        · intro hblurred k hk hk'
          by_contra hdiffer
          rw [hkey] at hk
          rw [hkey'] at hk'
          obtain ⟨hrecut, hunknown, heffort⟩ :=
            hiff.mp ((Option.some.inj hk).trans (Option.some.inj hk').symm)
          exact hblurred ⟨hne, hrecut, hunknown, heffort, hdiffer⟩

end

/-- The bytes themselves, two digits for each. -/
def Hash.plain : Hash where
  sha256 b := b.flatMap fun x => [hexDigit (x.val / 16), hexDigit (x.val % 16)]
  injective b b' hbb' := by
    induction b generalizing b' with
    | nil =>
      cases b' with
      | nil => rfl
      | cons y b' => nomatch hbb'
    | cons x b ih =>
      cases b' with
      | nil => nomatch hbb'
      | cons y b' =>
        have hx := x.isLt
        have hy := y.isLt
        simp only [List.flatMap_cons, List.cons_append, List.nil_append, List.cons.injEq] at hbb'
        obtain ⟨hhigh, hlow, hrest⟩ := hbb'
        have hdigit {m n : ℕ} (hm : m < 16) (hn : n < 16) (hmn : hexDigit m = hexDigit n) : m = n :=
          Option.some.inj ((hexVal_hexDigit m hm).symm.trans (hmn ▸ hexVal_hexDigit n hn))
        have hhigh' := hdigit (by omega) (by omega) hhigh
        have hlow' := hdigit (by omega) (by omega) hlow
        rw [Fin.ext (by omega : x.val = y.val), ih b' hrest]
  ascii b c hc := by
    obtain ⟨x, -, hx⟩ := List.mem_flatMap.mp hc
    have hsmall : ∀ n < 16, (hexDigit n).val < 128 := by decide
    have hlt := x.isLt
    simp only [List.mem_cons, List.not_mem_nil, or_false] at hx
    obtain rfl | rfl := hx
    · exact hsmall _ (by omega)
    · exact hsmall _ (by omega)

def Unicode.ascii : Unicode := ⟨fun s => s.map lowerAscii, id⟩

/-- A call of `ask_chain` for these models. -/
def chainOf (models : List String) : ChainRequest :=
  ⟨⟨models.map fun m => .str (txt m), []⟩, txt "q", txt "code", [txt "deep", txt "deep"]⟩

theorem keys_separate_ordered :
    let _ : Host := Host.ascii
    let u := Unicode.ascii
    let x := (chainOf ["m3"]).lookup u
    let y := (chainOf ["fable"]).lookup u
    (x.key u .plain = y.key u .plain → x.Same u y) ∧
      (chainOf ["m3", "GLM ", "x"]).Separate u .plain (chainOf ["glm", "m3", "x"]) := by
  intro host u x y
  have hmodels : (sorted x.models).map units ≠ (sorted y.models).map units := by decide +kernel
  have hjoin : (units (txt " > ")).intercalate
        (((chainOf ["m3", "GLM ", "x"]).selected u).map units) ≠
      (units (txt " > ")).intercalate (((chainOf ["glm", "m3", "x"]).selected u).map units) := by
    decide +kernel
  obtain ⟨hkey, hchain⟩ := keys_separate_iff u .plain
  refine ⟨(hkey x y).mpr fun halike => hmodels halike.1.2.1, ?_⟩
  exact (hchain (chainOf ["m3", "GLM ", "x"]) (chainOf ["glm", "m3", "x"]) rfl rfl).mpr
    fun hblurred => hjoin hblurred.2.1.intercalate_eq

/-- Two stages of Ollama models, and one of an Ollama model whose name holds the separator. -/
theorem pipelines_collide :
    ¬∀ (_ : Host) (u : Unicode) (h : Hash),
      (∀ x y : Lookup, x.key u h = y.key u h → x.Same u y) ∧
        ∀ r r' : ChainRequest, r.question = r'.question → r.context = r'.context →
          r.Separate u h r' := by
  intro hall
  let host : Host := Host.ascii
  let r := chainOf ["ollama:a", "ollama:b"]
  let r' := chainOf ["ollama:a > ollama:b"]
  have hmodels : (r.lookup .ascii).models = (r'.lookup .ascii).models := by decide +kernel
  have heffort : (r.lookup .ascii).effort = (r'.lookup .ascii).effort := by decide +kernel
  have hlookup : r.lookup .ascii = r'.lookup .ascii := Lookup.ext rfl hmodels rfl rfl heffort
  have hne : r.selected .ascii ≠ [] := by decide +kernel
  have hne' : r'.selected .ascii ≠ [] := by decide +kernel
  have hsame := (hall host .ascii .plain).2 r r' rfl rfl ((r.lookup .ascii).key .ascii .plain)
    (if_neg hne) (by rw [hlookup]; exact if_neg hne')
  have hdiffer : r.selected .ascii ≠ r'.selected .ascii := by decide +kernel
  exact hdiffer hsame.1

end AskFable.Caching
