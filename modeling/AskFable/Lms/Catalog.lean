import AskFable.Python.Text

/-!
# The LM Studio catalog

Entries as `catalog` reports them, how a model is looked up among them, what is resident,
how large a window a prompt needs, and what an error text is taken to mean.
-/
namespace AskFable.Lms
open AskFable.Text

def MIN_OUTPUT_TOKENS : ℤ := 512
def FLOOR_CONTEXT : ℤ := 2048
def CONTEXT_MARGIN : ℤ := 256
def ROOM_HEADROOM_MIB : ℤ := 2048
def DEFAULT_LMSTUDIO_CONTEXT : ℤ := 32768

def MEMORY_HINTS : List Str :=
  [txt "not enough memory", txt "insufficient memory", txt "out of memory", txt "vram",
    txt "failed to allocate", txt "memory allocation"]

def CHAT_MODEL_TYPES : List Str := [txt "llm", txt "vlm"]

/-- What one call reads from the configuration and the environment, and the library
functions it uses on texts: `str.lower`, `repr`, `difflib.get_close_matches`. What follows
a text does not change the ASCII in its lower case. -/
structure Site where
  lower : Str → Str
  lower_append : ∀ s t needle : Str, needle.all (fun c => c.val < 128) = true →
    needle <:+: lower s → needle <:+: lower (s ++ t)
  repr : Str → Str
  closeMatches : Str → List Str → List Str
  baseUrl : Str
  swap : Str
  /-- `lmstudio_context`, when it reads as an integer. -/
  context : Option ℤ
  /-- The entries of `lmstudio_context_ceilings` for the host and for `default`. -/
  ceilings : List (Option ℤ)
  /-- `unload_wait()` as the error text shows it. -/
  unloadWait : Str

/-- A site of ASCII texts and default settings, but for its swap policy. -/
def Site.ascii (swap : Str) : Site where
  lower := List.map lowerAscii
  lower_append s t needle _ h := h.trans ⟨[], t.map lowerAscii, by simp⟩
  repr s := txt "'" ++ s ++ txt "'"
  closeMatches _ _ := []
  baseUrl := txt "http://lmstudio.example.com:1234"
  swap := swap
  context := none
  ceilings := []
  unloadWait := txt "180"

/-- A model of the catalog; it has an instance exactly when it is `loaded`. -/
structure Entry where
  key : Str
  type : Str
  maxContext : Option ℤ
  size : Option ℤ
  loaded : Bool
  instanceId : Option Str
  loadedContext : Option ℤ
  deriving DecidableEq

inductive SwapPolicy
  | never
  | auto
  deriving DecidableEq

variable (site : Site)

def swapPolicy : SwapPolicy :=
  if site.lower (strip site.swap) ∈ [txt "auto", txt "on", txt "true", txt "yes", txt "1"] then .auto
  else .never

def contextDefault : ℤ :=
  match site.context with
  | some n => max 1024 n
  | none => DEFAULT_LMSTUDIO_CONTEXT

/-- 0 stands for no ceiling. -/
def contextCeiling : ℤ :=
  match site.ceilings.filterMap id with
  | value :: _ => max 1024 value
  | [] => 0

def neededContext (est : ℤ) : ℤ := est + MIN_OUTPUT_TOKENS + CONTEXT_MARGIN

def desiredContext (est maxContext : ℤ) : ℤ :=
  let want := max (contextDefault site) (neededContext est)
  let want := if 0 < maxContext then min want maxContext else want
  if contextCeiling site ≠ 0 then min want (contextCeiling site) else want

/-- `_find_model`: the exact key, else the key but for case, else the key without its
`@variant`, a loaded one first. -/
def findModel (models : List Entry) (name : Str) : Option Entry :=
  let want := strip name
  if want = [] then none
  else
    let low := site.lower want
    let variants := models.filter fun m => site.lower (m.key.takeWhile (· ≠ cp '@')) = low
    models.find? (·.key = want) <|> models.find? (fun m => site.lower m.key = low) <|>
      variants.find? (·.loaded) <|> variants.head?

def isChat (m : Entry) : Bool := CHAT_MODEL_TYPES.contains m.type

def Entry.inst (m : Entry) : Str := m.instanceId.getD m.key

/-- `int(m.get("loaded_context_length") or 0)`. -/
def Entry.window (m : Entry) : ℤ := m.loadedContext.getD 0

/-- A loaded instance as the swap path lists it. -/
structure Resident where
  key : Str
  instanceId : Str
  context : ℤ
  deriving DecidableEq

def residentSnapshot (models : List Entry) : List Resident :=
  (models.filter fun m => m.loaded && isChat m).map fun m => ⟨m.key, m.inst, m.window⟩

def isLoaded (models : List Entry) (key : Str) : Bool :=
  (findModel site models key).elim false (·.loaded)

def suggest (models : List Entry) (name : Str) : List Str :=
  site.closeMatches name ((models.filter isChat).map (·.key))

def looksMemory (error : Str) : Bool := MEMORY_HINTS.any (contains (site.lower error))

def looksEngineCrash (error : Str) : Bool :=
  contains (site.lower error) (txt "model_load_failed") &&
    contains (site.lower error) (txt "exited before becoming healthy")

/-- Crash wording stays when a text is added to. -/
theorem looksEngineCrash_append {error : Str} (more : Str) (h : looksEngineCrash site error = true) :
    looksEngineCrash site (error ++ more) = true := by
  simp only [looksEngineCrash, Bool.and_eq_true, contains_iff] at h ⊢
  exact ⟨site.lower_append _ _ _ (by decide) h.1, site.lower_append _ _ _ (by decide) h.2⟩

/-- The GPU block of the control page. -/
structure Gpu where
  available : Bool
  total : Option ℤ
  free : Option ℤ
  deriving DecidableEq

/-- `gpu({})`. -/
def Gpu.absent : Gpu := ⟨false, none, none⟩

inductive Room
  | fits
  | needsRoom
  | tooLarge
  | unknown
  deriving DecidableEq

def roomVerdict (size : Option ℤ) (gpu : Gpu) : Room :=
  let sizeMib := if 0 < size.getD 0 then size.getD 0 / (1024 * 1024) else 0
  match gpu.free, gpu.total with
  | some free, some total =>
    if !gpu.available || sizeMib = 0 then .unknown
    else if total < sizeMib + ROOM_HEADROOM_MIB then .tooLarge
    else if sizeMib + ROOM_HEADROOM_MIB ≤ free then .fits
    else .needsRoom
  | _, _ => .unknown

/-- `sep.join(parts)` for the separator the messages use. -/
def joined (parts : List Str) : Str := (txt ", ").intercalate parts

/-- A prompt that the model's maximum and the host's ceiling both admit gets a window it
fits in. -/
theorem neededContext_le_desiredContext {est maxContext : ℤ}
    (hmax : maxContext = 0 ∨ neededContext est ≤ maxContext)
    (hceiling : contextCeiling site = 0 ∨ neededContext est ≤ contextCeiling site) :
    neededContext est ≤ desiredContext site est maxContext := by
  simp only [desiredContext]
  split_ifs <;> omega

end AskFable.Lms
