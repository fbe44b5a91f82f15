import AskFable.Ask.Loop
import AskFable.Council.Signals

/-!
# The stages of a chain

From the arguments of a call to the models that run: group tokens are expanded, names are brought
to their canonical form, and what names no model is dropped.
-/
namespace AskFable.Chain
open AskFable.Text AskFable.Python

/-- `KNOWN`. -/
def KNOWN : List Str :=
  [txt "fable", txt "fable51", txt "opus", txt "opus55", txt "opus5", txt "opus48", txt "sonnet",
    txt "deepseek", txt "minimax", txt "glm", txt "gemini", txt "codex", txt "grok", txt "kimi"]

/-- `GROUPS`. -/
def GROUPS : List (Str × List Str) := [(txt "twin", [txt "fable", txt "opus"])]

/-- `GROUP_ALIASES`. -/
def GROUP_ALIASES : List (Str × Str) :=
  [(txt "twins", txt "twin"), (txt "twinflame", txt "twin"), (txt "twinflames", txt "twin"),
    (txt "twin flame", txt "twin"), (txt "twin flames", txt "twin"), (txt "twin-flame", txt "twin"),
    (txt "twin-flames", txt "twin"), (txt "twin_flame", txt "twin"), (txt "twin_flames", txt "twin")]

/-- The prefixes whose model keeps its case, in the order they are tried. -/
def CASED : List Str := [txt "atlas:", txt "openrouter:", txt "lmstudio:", txt "ali:"]

/-- What of the arguments of a call names its stages; `models` is empty where it is absent. -/
structure ChainArgs where
  models : List Json
  pipeline : Str

/-- The tokens asked for. -/
def ChainArgs.tokens (args : ChainArgs) : List Json :=
  if args.models ≠ [] then args.models
  else if strip args.pipeline = [] then [.str (txt "minimax"), .str (txt "fable")]
  else (((args.pipeline.splitOn (cp '>')).map strip).filter (· ≠ [])).map .str

/-- A name of `KNOWN`, or a prefix with a model behind it. -/
def recognized (tok : Str) : Bool :=
  KNOWN.contains tok || Council.GATEWAYS.any fun marker => (Council.carried tok marker).isSome

section
variable [Host] (lower : Str → Str)

/-- `_canon`. -/
def canon (tok : Str) : Str :=
  let t := strip tok
  let low := lower t
  match CASED.find? (· <+: low) with
  | some marker => marker ++ strip (t.drop marker.length)
  | none => low

/-- `group_members`. -/
def groupMembers (token : Str) : Option (List Str) :=
  let tok := lower (strip token)
  GROUPS.lookup ((GROUP_ALIASES.lookup tok).getD tok)

/-- `expand_groups`. -/
def expandGroups (models : List Json) : List Str :=
  models.flatMap fun m => (groupMembers lower m.pyStr).getD [m.pyStr]

/-- The canonical tokens, in order and with repeats. -/
def stages (models : List Json) : List Str :=
  ((expandGroups lower models).map fun m =>
    let c := canon lower m
    (Ask.ALIASES.lookup c).getD c).filter (· ≠ [])

/-- `resolve_ordered`: the recognized tokens and the others. -/
def resolveOrdered (models : List Json) : List Str × List Str :=
  ((stages lower models).filter recognized, (stages lower models).filter fun t => !recognized t)

end

/-- A recognized token begins with a letter of the first names of the alphabet. -/
theorem recognized_head {tok : Str} (h : recognized tok = true) :
    ∃ c r, tok = c :: r ∧ cp 'a' ≤ c ∧ c < cp 'u' := by
  have hnames : ∀ name ∈ KNOWN ++ Council.GATEWAYS,
      name.head?.any (fun c => cp 'a' ≤ c && c < cp 'u') = true := by decide
  obtain ⟨name, hname, hprefix⟩ : ∃ name ∈ KNOWN ++ Council.GATEWAYS, name <+: tok := by
    rw [recognized, Bool.or_eq_true, List.contains_iff_mem, List.any_eq_true] at h
    obtain hknown | ⟨marker, hmarker, hcarried⟩ := h
    · exact ⟨tok, List.mem_append_left _ hknown, List.prefix_rfl⟩
    · refine ⟨marker, List.mem_append_right _ hmarker, ?_⟩
      unfold Council.carried at hcarried
      split_ifs at hcarried with hstarts
      · exact hstarts
      · nomatch hcarried
  have hbounds := hnames name hname
  obtain ⟨r, rfl⟩ := hprefix
  cases name with
  | nil => nomatch hbounds
  | cons c name => exact ⟨c, name ++ r, rfl, by simpa using hbounds⟩

end AskFable.Chain
