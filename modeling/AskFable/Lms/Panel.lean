import AskFable.Council.Signals
import AskFable.Lms.Explicit
import AskFable.Lms.Quick
import Mathlib.Data.List.Find

/-!
# A panel of local models

`_council` with `sequential`: the resident chat models are noted, then every member has its
turn and is unloaded after it, unless its name stands for a resident that was noted. That
name is looked up in three lists: the catalog its run reads, the residents that were noted,
and the catalog its unload reads.
-/
namespace AskFable.Lms
open AskFable.Text AskFable.Journal

/-- `lmstudio_model`. -/
def lmstudioModel (key : Str) : Option Str := Council.carried key (txt "lmstudio:")

variable (site : Site) (w : World)

/-- `resident_models`. -/
def residentModels : Proc Event (List Str) := do
  let models ← modelsEntries w
  pure ((residentSnapshot (models.getD [])).map (·.key))

/-- `resident_key`. -/
def residentKey (model : Str) (resident : List Str) : Option Str :=
  (findModel site (resident.map fun k => ⟨k, [], none, none, true, none, none⟩) model).map (·.key)

/-- A model, its size and its window, as `_resident_list` has it. -/
structure ResidentRow where
  model : Str
  size : Option ℤ
  context : Option ℤ
  deriving DecidableEq

/-- `_resident_list`. -/
def residentList (models : List Entry) : List ResidentRow :=
  (models.filter fun m => m.loaded && isChat m).map fun m => ⟨m.key, m.size, m.loadedContext⟩

inductive UnloadError
  | bad_args
  | network_error
  | model_not_found
  | busy
  | unload_failed
  deriving DecidableEq

/-- What `unload` reports. -/
inductive Freed
  | ok (model : Str) (unloaded : List Str) (freedBytes : Option ℤ) (confirmed : Bool) (detail : Str)
      (resident : List ResidentRow)
  | error (kind : UnloadError) (detail : Str) (model : Option Str)
  deriving DecidableEq

/-- `unload`. -/
def unload (model : Str) : Proc Event Freed := do
  let model := strip model
  if model = [] then pure (.error .bad_args (txt "`model` is required") none)
  else
    match ← modelsEntries w with
    | none =>
      pure (.error .network_error
        (txt "LM Studio unreachable at " ++ site.baseUrl ++ txt " (is the server running?)") none)
    | some models =>
      match findModel site models model with
      | none =>
        let suggestions := suggest site models model
        pure (.error .model_not_found (txt "no LM Studio model matching " ++ site.repr model ++
          if suggestions = [] then []
          else txt " — did you mean " ++ joined suggestions ++ txt "?") none)
      | some entry =>
        let key := entry.key
        if entry.loaded then
          if ← unloadClaim w key then
            match ← unloadAndWait site w entry.victim with
            | some err => pure (.error .unload_failed err (some key))
            | none =>
              let after ← modelsEntries w
              pure (.ok key [key] entry.size true [] (residentList (after.getD [])))
          else
            pure (.error .busy (key ++ txt " is answering another ask_lms call; retry shortly")
              (some key))
        else
          pure (.ok key [] (some 0) false (key ++ txt " is not loaded") (residentList models))

/-- An entry of `cleanup_failed`. -/
structure NotFreed where
  model : Str
  kind : UnloadError
  detail : Str
  deriving DecidableEq

/-- A member's turn: where the journal stood, what the run added and what the cleanup added,
and what `unload` reported where it was called. -/
structure Turn where
  model : Str
  began : ℕ
  ran : List Event
  cleaned : List Event
  freed : Option Freed
  deriving DecidableEq

/-- Where the cleanup begins. -/
def Turn.ended (t : Turn) : ℕ := t.began + t.ran.length

def Turn.notFreed (t : Turn) : Option NotFreed :=
  match t.freed with
  | some (.error kind detail _) => some ⟨t.model, kind, detail⟩
  | _ => none

variable (est : ℤ)

/-- One member is run and, unless its name stands for a resident that was noted, unloaded. Of
the run only the load is here: the chat leaves what is resident as it is. -/
def turn (initial : List Str) (model : Str) : Proc Event Turn := do
  let began ← now
  let (_, ran) ← recorded (ensureLoadedBlocking site w model est)
  if residentKey site model initial = none then
    let (freed, cleaned) ← recorded (unload site w model)
    pure ⟨model, began, ran, cleaned, some freed⟩
  else pure ⟨model, began, ran, [], none⟩

/-- The loop over the members. -/
def takeTurns (initial : List Str) : List Str → Proc Event (List Turn)
  | [] => pure []
  | model :: rest => do
    let t ← turn site w est initial model
    let ts ← takeTurns initial rest
    pure (t :: ts)

/-- The `sequential` part of `_council`: the residents noted and the turns that follow. Of the set
`initial` only its members are ever asked for. -/
def sequential (selected : List Str) : Proc Event (List Str × List Turn) := do
  let initial ← residentModels w
  let turns ← takeTurns site w est initial (selected.filterMap lmstudioModel)
  pure (initial, turns)

def cleanupFailed (turns : List Turn) : List NotFreed := turns.filterMap Turn.notFreed

/-! ### What a name stands for -/

/-- The ways a name finds a key. -/
def Names (name key : Str) : Prop :=
  strip name ≠ [] ∧ (key = strip name ∨ site.lower key = site.lower (strip name) ∨
    site.lower (key.takeWhile (· ≠ cp '@')) = site.lower (strip name))

/-- The key that a name stands for among keys some of which are loaded. -/
def chosen (keys : List Str) (loaded : Str → Bool) (name : Str) : Option Str :=
  let want := strip name
  if want = [] then none
  else
    let low := site.lower want
    let variants := keys.filter fun k => site.lower (k.takeWhile (· ≠ cp '@')) = low
    keys.find? (· = want) <|> keys.find? (fun k => site.lower k = low) <|>
      variants.find? loaded <|> variants.head?

theorem findModel_key {models : List Entry} {loaded : Str → Bool}
    (h : ∀ m ∈ models, m.loaded = loaded m.key) (name : Str) :
    (findModel site models name).map (·.key) = chosen site (models.map (·.key)) loaded name := by
  have hloaded (p : Entry → Bool) :
      (models.filter p).find? (·.loaded) = (models.filter p).find? fun m => loaded m.key :=
    List.find?_congr fun m hm => h m (List.mem_of_mem_filter hm)
  simp only [findModel, chosen]
  split_ifs
  · rfl
  · simp only [Option.orElse_eq_orElse, Option.orElse_eq_or, Option.map_or, hloaded,
      List.filter_map, List.find?_map, List.head?_map]
    rfl

theorem findModel_spec {models : List Entry} {name : Str} {entry : Entry}
    (h : findModel site models name = some entry) : entry ∈ models ∧ Names site name entry.key := by
  simp only [findModel, Option.orElse_eq_orElse, Option.orElse_eq_or] at h
  split_ifs at h with hwant
  simp only [Option.or_eq_some_iff] at h
  rcases h with h | ⟨-, h | ⟨-, h | ⟨-, h⟩⟩⟩
  · exact ⟨List.mem_of_find?_eq_some h, hwant, .inl (by simpa using List.find?_some h)⟩
  · exact ⟨List.mem_of_find?_eq_some h, hwant, .inr (.inl (by simpa using List.find?_some h))⟩
  · have hmem := List.mem_of_find?_eq_some h
    exact ⟨List.mem_of_mem_filter hmem, hwant, .inr (.inr (by simpa using List.of_mem_filter hmem))⟩
  · have hmem := List.mem_of_head? h
    exact ⟨List.mem_of_mem_filter hmem, hwant, .inr (.inr (by simpa using List.of_mem_filter hmem))⟩

theorem findModel_eq_none {models : List Entry} {name : Str} :
    findModel site models name = none ↔ ∀ m ∈ models, ¬Names site name m.key := by
  constructor
  · intro h m hm hnames
    simp only [findModel, if_neg hnames.1, Option.orElse_eq_orElse, Option.orElse_eq_or,
      Option.or_eq_none_iff] at h
    obtain ⟨hexact, hlow, -, hvariants⟩ := h
    rcases hnames.2 with heq | heq | heq
    · exact List.find?_eq_none.mp hexact m hm (by simpa using heq)
    · exact List.find?_eq_none.mp hlow m hm (by simpa using heq)
    · have hmem : m ∈ models.filter fun m =>
          site.lower (m.key.takeWhile (· ≠ cp '@')) = site.lower (strip name) :=
        List.mem_filter.mpr ⟨hm, by simpa using heq⟩
      rw [List.head?_eq_none_iff.mp hvariants] at hmem
      nomatch hmem
  · intro h
    cases hfind : findModel site models name with
    | none => rfl
    | some entry =>
      obtain ⟨hmem, hnames⟩ := findModel_spec site hfind
      exact absurd hnames (h entry hmem)

theorem residentKey_eq_none {name : Str} {resident : List Str} :
    residentKey site name resident = none ↔ ∀ k ∈ resident, ¬Names site name k := by
  rw [residentKey, Option.map_eq_none_iff, findModel_eq_none, List.forall_mem_map]

section
variable {site} {keys : List Str} {loaded : Str → Bool} {name key : Str}

/-- A name goes on standing for its key while no other key is loaded anew and the key, where it
was loaded, still is. -/
theorem chosen_steady {loaded' : Str → Bool} (h : chosen site keys loaded name = some key)
    (hnew : ∀ k ∈ keys, loaded' k = true → loaded k = true ∨ k = key)
    (hkept : loaded key = true → loaded' key = true) :
    chosen site keys loaded' name = some key := by
  simp only [chosen, Option.orElse_eq_orElse, Option.orElse_eq_or] at h ⊢
  split_ifs at h ⊢ with hwant
  -- the exact match and the one but for case do not look at what is loaded
  cases hexact : keys.find? (· = strip name) with
  | some k => simpa [hexact] using h
  | none =>
    cases hlow : keys.find? (fun k => site.lower k = site.lower (strip name)) with
    | some k => simpa [hexact, hlow] using h
    | none =>
      simp only [hexact, hlow, Option.none_or] at h ⊢
      generalize hvariants : keys.filter (fun k =>
        site.lower (k.takeWhile (· ≠ cp '@')) = site.lower (strip name)) = variants at h ⊢
      have hsub : ∀ k ∈ variants, k ∈ keys := fun k hk =>
        List.mem_of_mem_filter (hvariants ▸ hk)
      by_cases hloaded : loaded' key = true
      · suffices hfind : variants.find? loaded' = some key by rw [hfind]; rfl
        cases hfind : variants.find? loaded with
        | some k =>
          obtain rfl : k = key := by simpa [hfind] using h
          obtain ⟨hk, as, bs, hsplit, has⟩ := List.find?_eq_some_iff_append.mp hfind
          refine List.find?_eq_some_iff_append.mpr ⟨hloaded, as, bs, hsplit, fun a ha => ?_⟩
          by_contra hup
          have hvariant : a ∈ variants := hsplit ▸ List.mem_append_left _ ha
          rcases hnew a (hsub a hvariant) (by simpa using hup) with hold | rfl
          · exact absurd hold (by simpa using has a ha)
          · exact absurd hk (by simpa using has a ha)
        | none =>
          simp only [hfind, Option.none_or] at h
          obtain ⟨rest, rfl⟩ := List.head?_eq_some_iff.mp h
          exact List.find?_cons_of_pos hloaded
      · have hnone : variants.find? loaded' = none := by
          refine List.find?_eq_none.mpr fun k hk hup => ?_
          rcases hnew k (hsub k hk) hup with hold | rfl
          · cases hfind : variants.find? loaded with
            | none => exact List.find?_eq_none.mp hfind k hk hold
            | some k' =>
              obtain rfl : k' = key := by simpa [hfind] using h
              exact hloaded (hkept (List.find?_some hfind))
          · exact hloaded hup
        cases hfind : variants.find? loaded with
        | none => simpa [hfind, hnone] using h
        | some k =>
          obtain rfl : k = key := by simpa [hfind] using h
          exact absurd (hkept (List.find?_some hfind)) hloaded

end

@[simp] theorem findModel_strip (models : List Entry) (name : Str) :
    findModel site models (strip name) = findModel site models name := by
  simp only [findModel, strip_strip]

/-! ### What is resident -/

/-- The catalog has the key as loaded. -/
def loadedIn (models : List Entry) (key : Str) : Bool := models.any fun m => m.key = key && m.loaded

def Brings (key : Str) : Event → Prop
  | .load model _ _ => model = key
  | _ => False

def Confirms (key : Str) : Event → Prop
  | .gone v => v.key = key
  | _ => False

/-- The key is to be unloaded, or the server displaces it for a load: `evicts` says so. -/
def TakesAway (evicts : Event → Str → Prop) (key : Str) : Event → Prop
  | .unload v => v.key = key
  | .load model context err => evicts (.load model context err) key
  | _ => False

instance (key : Str) (e : Event) : Decidable (Brings key e) := by
  cases e <;> unfold Brings <;> infer_instance

instance (key : Str) (e : Event) : Decidable (Confirms key e) := by
  cases e <;> unfold Confirms <;> infer_instance

instance (evicts : Event → Str → Prop) [∀ e key, Decidable (evicts e key)] (key : Str) (e : Event) :
    Decidable (TakesAway evicts key e) := by
  cases e <;> unfold TakesAway <;> infer_instance

/-- The key was not loaded at a step, by the catalog or by an unload seen through, and no load
of it has been asked for since. -/
def Absent (log : List Event) (key : Str) : Prop :=
  ∃ i ≤ log.length,
    ((∃ ms ∈ w.models i, ∃ m ∈ ms, m.key = key ∧ m.loaded = false) ∨
      ∃ e ∈ log[i]?, Confirms key e) ∧
      ∀ e ∈ log.drop i, ¬Brings key e

instance (log : List Event) (key : Str) : Decidable (Absent w log key) :=
  inferInstanceAs (Decidable (∃ i ≤ log.length, _))

/-- What was loaded at the step `i` and is not at the step `n` was taken away in between. -/
def Held (evicts : Event → Str → Prop) (between : List Event) (i n : ℕ) : Prop :=
  ∀ ms ∈ w.models i, ∀ ms' ∈ w.models n, ∀ m ∈ ms, ∀ m' ∈ ms',
    m'.key = m.key ∧ m.loaded = true ∧ m'.loaded = false → ∃ e ∈ between, TakesAway evicts m.key e

instance (evicts : Event → Str → Prop) [∀ e key, Decidable (evicts e key)] (between : List Event)
    (i n : ℕ) : Decidable (Held w evicts between i n) := by
  unfold Held
  infer_instance

/-- Nobody else loads or unloads: over the whole journal the catalog lists the same models, by
keys that differ; what was not loaded is loaded only after a load of it, and what was loaded
is not only after an entry that takes it away. -/
structure Alone (evicts : Event → Str → Prop) (cat : List (Str × Str)) (log : List Event) :
    Prop where
  distinct : (cat.map Prod.fst).Nodup
  listed : ∀ n ≤ log.length, ∀ ms ∈ w.models n, ms.map (fun m => (m.key, m.type)) = cat
  absent : ∀ n ≤ log.length, ∀ ms ∈ w.models n, ∀ m ∈ ms, m.loaded = true →
    ¬Absent w (log.take n) m.key
  kept : ∀ n ≤ log.length, ∀ i ≤ n, Held w evicts ((log.take n).drop i) i n

/-- A chat model of the catalog. -/
def ChatKey (cat : List (Str × Str)) (key : Str) : Prop :=
  ∃ type, (key, type) ∈ cat ∧ type ∈ CHAT_MODEL_TYPES

section
variable {w} {evicts : Event → Str → Prop} {cat : List (Str × Str)} {log new : List Event}
  {key : Str} {ms : List Entry}

theorem Absent.append (h : Absent w log key) (hnew : ∀ e ∈ new, ¬Brings key e) :
    Absent w (log ++ new) key := by
  obtain ⟨i, hi, hseen, hsince⟩ := h
  refine ⟨i, by simp; omega, hseen.imp id ?_, fun e he => ?_⟩
  · rintro ⟨e, he, hgone⟩
    obtain ⟨hlt, -⟩ := List.getElem?_eq_some_iff.mp he
    exact ⟨e, by rwa [List.getElem?_append_left hlt], hgone⟩
  · rw [List.drop_append_of_le_length hi, List.mem_append] at he
    exact he.elim (hsince e) (hnew e)

theorem absent_of_listed (hms : w.models log.length = some ms) {m : Entry} (hm : m ∈ ms)
    (hloaded : m.loaded = false) : Absent w log m.key :=
  ⟨log.length, le_rfl, .inl ⟨ms, hms, m, hm, rfl, hloaded⟩, by simp⟩

theorem absent_of_gone {v : Victim} (hgone : .gone v ∈ new) (hnew : ∀ e ∈ new, ¬Brings v.key e) :
    Absent w (log ++ new) v.key := by
  obtain ⟨i, hi, heq⟩ := List.getElem_of_mem hgone
  refine ⟨log.length + i, by simp; omega, .inr ⟨.gone v, ?_, rfl⟩, fun e he => ?_⟩
  · rw [List.getElem?_append_right (by omega), Nat.add_sub_cancel_left,
      List.getElem?_eq_getElem hi, heq]
    rfl
  · rw [← List.drop_drop, List.drop_left] at he
    exact hnew e (List.mem_of_mem_drop he)

namespace Alone

theorem of_isPrefix (h : Alone w evicts cat log) {past : List Event} (hpast : past <+: log) :
    Alone w evicts cat past := by
  have hle := hpast.length_le
  have htake {n : ℕ} (hn : n ≤ past.length) : past.take n = log.take n := by
    rw [List.prefix_iff_eq_take.mp hpast, List.take_take, Nat.min_eq_left hn]
  refine ⟨h.distinct, fun n hn => h.listed n (by omega), fun n hn => ?_, fun n hn => ?_⟩
  · rw [htake hn]
    exact h.absent n (by omega)
  · rw [htake hn]
    exact h.kept n (by omega)

variable (h : Alone w evicts cat log)
include h

theorem keys (hms : w.models log.length = some ms) : ms.map (·.key) = cat.map Prod.fst := by
  rw [← h.listed _ le_rfl ms hms, List.map_map]
  rfl

theorem loadedIn_eq (hms : w.models log.length = some ms) {m : Entry} (hm : m ∈ ms) :
    loadedIn ms m.key = m.loaded := by
  have hnodup : (ms.map (·.key)).Nodup := h.keys hms ▸ h.distinct
  have hsame : ∀ m' ∈ ms, m'.key = m.key → m' = m := fun m' hm' =>
    List.inj_on_of_nodup_map hnodup hm' hm
  cases hloaded : m.loaded with
  | true => exact List.any_eq_true.mpr ⟨m, hm, by simp [hloaded]⟩
  | false =>
    refine List.any_eq_false.mpr fun m' hm' hup => ?_
    simp only [Bool.and_eq_true, decide_eq_true_eq] at hup
    rw [hsame m' hm' hup.1, hloaded] at hup
    nomatch hup.2

/-- At every step a key of the catalog is absent exactly when it is not loaded. -/
theorem absent_iff (hms : w.models log.length = some ms) (hkey : key ∈ cat.map Prod.fst) :
    Absent w log key ↔ loadedIn ms key = false := by
  rw [← h.keys hms] at hkey
  obtain ⟨m, hm, rfl⟩ := List.mem_map.mp hkey
  rw [h.loadedIn_eq hms hm]
  constructor
  · intro habsent
    by_contra hloaded
    refine h.absent _ le_rfl ms hms m hm (by simpa using hloaded) ?_
    rwa [List.take_length]
  · exact absent_of_listed hms hm

/-- What is loaded stays so while nothing takes it away. -/
theorem loadedIn_append (hall : Alone w evicts cat (log ++ new)) {ms' : List Entry}
    (hms : w.models log.length = some ms) (hms' : w.models (log ++ new).length = some ms')
    (hnew : ∀ e ∈ new, ¬TakesAway evicts key e) (hloaded : loadedIn ms key = true) :
    loadedIn ms' key = true := by
  obtain ⟨m, hm, hup⟩ := List.any_eq_true.mp hloaded
  simp only [Bool.and_eq_true, decide_eq_true_eq] at hup
  obtain ⟨rfl, hup⟩ := hup
  have hmem : m.key ∈ ms'.map (·.key) := by
    rw [hall.keys hms', ← h.keys hms]
    exact List.mem_map_of_mem hm
  obtain ⟨m', hm', hkey⟩ := List.mem_map.mp hmem
  rw [← hkey, hall.loadedIn_eq hms' hm']
  by_contra hdown
  obtain ⟨e, he, htakes⟩ := hall.kept _ le_rfl log.length (by simp) ms hms ms' hms' m hm m' hm'
    ⟨hkey, hup, by simpa using hdown⟩
  rw [List.take_length, List.drop_left] at he
  exact hnew e he htakes

theorem findModel_key (hms : w.models log.length = some ms) (name : Str) :
    (findModel site ms name).map (·.key) =
      chosen site (cat.map Prod.fst) (loadedIn ms) name := by
  rw [← h.keys hms]
  exact Lms.findModel_key site (fun m hm => (h.loadedIn_eq hms hm).symm) name

end Alone

end

/-! ### The loads of a run -/

/-- What the run of a member may load: the chat model its catalog has under the name, or a chat
model that was loaded when that catalog was read. -/
def Fetched (cat : List (Str × Str)) (old : List Event) (model key : Str) : Prop :=
  ∃ ms₀ ms, w.models old.length = some ms₀ ∧ w.models (old.length + 1) = some ms ∧ ChatKey cat key ∧
    ((findModel site ms model).map (·.key) = some key ∨ ¬Absent w (old ++ [.read]) key)

section
variable {w} {evicts : Event → Str → Prop} {cat : List (Str × Str)} {log old : List Event}

theorem ChatKey.mem_keys {key : Str} (h : ChatKey cat key) : key ∈ cat.map Prod.fst := by
  obtain ⟨type, hcat, -⟩ := h
  exact List.mem_map_of_mem hcat

theorem Alone.chat_of_mem (h : Alone w evicts cat log) {ms : List Entry}
    (hms : w.models log.length = some ms) {m : Entry} (hm : m ∈ ms) (hchat : isChat m = true) :
    ChatKey cat m.key := by
  refine ⟨m.type, ?_, by simpa [isChat] using hchat⟩
  rw [← h.listed _ le_rfl ms hms]
  exact List.mem_map_of_mem (f := fun m : Entry => (m.key, m.type)) hm

theorem isChat_of_admitted {entry : Entry} {est : ℤ} (h : refusal site entry est = none) :
    isChat entry = true := by
  by_contra hchat
  rw [Bool.not_eq_true] at hchat
  simp only [refusal, if_pos hchat] at h
  cases h

/-- Noted are the chat models that the catalog has as loaded. -/
theorem Alone.mem_noted (h : Alone w evicts cat log) {ms : List Entry}
    (hms : w.models log.length = some ms) {key : Str} :
    key ∈ (residentSnapshot ms).map (·.key) ↔ ChatKey cat key ∧ loadedIn ms key = true := by
  constructor
  · intro hmem
    obtain ⟨r, hr, rfl⟩ := List.mem_map.mp hmem
    obtain ⟨m, hm, rfl⟩ := List.mem_map.mp hr
    obtain ⟨hm, hresident⟩ := List.mem_filter.mp hm
    rw [Bool.and_eq_true] at hresident
    exact ⟨h.chat_of_mem hms hm hresident.2, (h.loadedIn_eq hms hm).trans hresident.1⟩
  · rintro ⟨⟨type, hcat, htype⟩, hloaded⟩
    rw [← h.listed _ le_rfl ms hms] at hcat
    obtain ⟨m, hm, heq⟩ := List.mem_map.mp hcat
    obtain ⟨rfl, rfl⟩ := Prod.mk.inj heq
    rw [h.loadedIn_eq hms hm] at hloaded
    refine List.mem_map.mpr
      ⟨⟨m.key, m.inst, m.window⟩, List.mem_map_of_mem (List.mem_filter.mpr ?_), rfl⟩
    exact ⟨hm, by simp [hloaded, isChat, htype]⟩

/-- What is resident at a step is a chat model, and loaded. -/
theorem Alone.resident (h : Alone w evicts cat log) {ms : List Entry}
    (hms : w.models log.length = some ms) {r : Resident} (hr : r ∈ residentSnapshot ms) :
    ChatKey cat r.key ∧ ¬Absent w log r.key := by
  obtain ⟨hchat, hloaded⟩ := (h.mem_noted hms).mp (List.mem_map_of_mem hr)
  refine ⟨hchat, fun habsent => ?_⟩
  rw [(h.absent_iff hms hchat.mem_keys).mp habsent] at hloaded
  nomatch hloaded

/-- A run asks for the chat model its second reading has under the name, and gives back what that
reading or a later one lists. -/
theorem ensureLoadedBlocking_sends {P : Str → ℤ → Prop} (model : Str) (est : ℤ)
    (hloads : ∀ ms₀ ms entry, w.models old.length = some ms₀ →
      w.models (old ++ [Event.read]).length = some ms → findModel site ms model = some entry →
      isChat entry = true → old ++ [.read] <+: (ensureLoadedBlocking site w model est old).2 →
      (∀ context, P entry.key context) ∧ (∀ r ∈ residentSnapshot ms, P r.key r.context) ∧
        ∀ new ms', Sends P new →
          old ++ [.read] ++ new <+: (ensureLoadedBlocking site w model est old).2 →
          w.models (old ++ [Event.read] ++ new).length = some ms' →
            ∀ r ∈ residentSnapshot ms', P r.key r.context) :
    Adds (ensureLoadedBlocking site w model est) old fun _ new =>
      [.read] <+: new ∧ Sends P new := by
  have hquick : Adds (quickLoaded site w model est) old fun o new =>
      new = [Event.read] ∧ o = quickOutcome site (w.models old.length) model est :=
    ⟨[Event.read], rfl, rfl, rfl⟩
  apply Adds.bind_eq hquick
  rintro o _ hran ⟨rfl, ho⟩
  rw [ensureLoadedBlocking, bind_apply, hran] at hloads
  cases o with
  | some o => exact Adds.pure (by simp)
  | none =>
    apply Adds.bind_eq (modelsEntries_adds w)
    rintro models _ hread ⟨rfl, hmodels⟩
    dsimp only at hloads
    rw [ensureLoadedLocked, bind_apply, hread] at hloads
    obtain ⟨ms₀, hms₀⟩ : ∃ ms₀, w.models old.length = some ms₀ := by
      cases hms₀ : w.models old.length with
      | none => simp [hms₀, quickOutcome] at ho
      | some ms₀ => exact ⟨ms₀, rfl⟩
    cases models with
    | none => exact Adds.pure (by simp)
    | some ms =>
      dsimp only at hloads ⊢
      cases hfind : findModel site ms model with
      | none => exact Adds.pure (by simp)
      | some entry =>
        dsimp only
        cases hadmitted : refusal site entry est with
        | some o => exact Adds.pure (by simp)
        | none =>
          replace hloads := hloads ms₀ ms entry hms₀ hmodels.symm hfind
            (isChat_of_admitted site hadmitted)
          simp only [hfind, hadmitted] at hloads
          split_ifs at hloads ⊢
          · exact Adds.pure (by simp)
          · exact Adds.pure (by simp)
          · have hgrows := reload_extends site w entry
              (desiredContext site est (entry.maxContext.getD 0))
              (old ++ [Event.read] ++ [Event.read])
            obtain ⟨hkey, -, -⟩ := hloads ((List.prefix_append _ _).trans hgrows)
            exact (reload_sends site w entry _ (hkey _) (hkey _)).mono fun o new hnew => by
              simpa using hnew
          · have hgrows := loadBeside_extends site w ms entry est
              (desiredContext site est (entry.maxContext.getD 0))
              (old ++ [Event.read] ++ [Event.read])
            obtain ⟨hkey, hresident, hlater⟩ := hloads ((List.prefix_append _ _).trans hgrows)
            refine (loadBeside_sends site w (hkey _) (hkey _) (fun _ => hkey _) fun _ _ =>
              ⟨hresident, fun new ms' hnew hsofar hms' => ?_⟩).mono fun o new hnew => ?_
            · rw [List.append_assoc (old ++ [Event.read])] at hsofar hms'
              exact hlater ([Event.read] ++ new) ms' (by simpa using hnew) hsofar hms'
            · simpa using hnew

theorem ensureLoadedBlocking_extends (model : Str) (est : ℤ) :
    old <+: (ensureLoadedBlocking site w model est old).2 :=
  (ensureLoadedBlocking_sends (P := fun _ _ => True) site model est fun _ _ _ _ _ _ _ _ =>
    ⟨fun _ => trivial, fun _ _ => trivial, fun _ _ _ _ _ _ _ => trivial⟩).extends_old

theorem ensureLoadedBlocking_fetches (halone : Alone w evicts cat log) (model : Str) (est : ℤ)
    (hlog : (ensureLoadedBlocking site w model est old).2 <+: log) :
    Adds (ensureLoadedBlocking site w model est) old fun _ new =>
      [.read] <+: new ∧ Sends (fun key _ => Fetched site w cat old model key) new := by
  refine ensureLoadedBlocking_sends site model est ?_
  intro ms₀ ms entry hms₀ hms hfind hentry hread
  have hhere := halone.of_isPrefix (hread.trans hlog)
  have hlength : (old ++ [Event.read]).length = old.length + 1 := by simp
  refine ⟨fun context => ?_, fun r hr => ?_, ?_⟩
  · exact ⟨ms₀, ms, hms₀, hlength ▸ hms, hhere.chat_of_mem hms (findModel_spec site hfind).1 hentry,
      .inl (by rw [hfind]; rfl)⟩
  · obtain ⟨hchat, hloaded⟩ := hhere.resident hms hr
    exact ⟨ms₀, ms, hms₀, hlength ▸ hms, hchat, .inr hloaded⟩
  · -- what is loaded at a later reading was so at this one, or has been fetched since
    intro new ms' hnew hsofar hms' r hr
    obtain ⟨hchat, hloaded⟩ := (halone.of_isPrefix (hsofar.trans hlog)).resident hms' hr
    by_cases hbrought : ∃ context err, .load r.key context err ∈ new
    · obtain ⟨context, err, hmem⟩ := hbrought
      exact hnew _ _ _ hmem
    · refine ⟨ms₀, ms, hms₀, hlength ▸ hms, hchat, .inr fun habsent => hloaded ?_⟩
      refine habsent.append fun e he hbrings => ?_
      cases e with
      | load key context err =>
        obtain rfl : key = r.key := hbrings
        exact hbrought ⟨context, err, he⟩
      | _ => exact hbrings

end

/-! ### The cleanup of a turn -/

/-- What `unload` leaves: it refuses on what it read; the model is not loaded, chats, or does not
go; or it is gone. -/
inductive UnloadTrail (models : Option (List Entry)) (model : Str) : Freed → List Event → Prop
  | refused (kind : UnloadError) (detail : Str) (named : Option Str) {reads : List Event}
      (hreads : Reads reads) : UnloadTrail models model (.error kind detail named) reads
  | idle {ms : List Entry} {entry : Entry} (hms : models = some ms)
      (hfind : findModel site ms model = some entry) (hloaded : entry.loaded = false)
      (freed : Freed) : UnloadTrail models model freed [.read]
  | chatting (kind : UnloadError) (detail : Str) (named : Option Str) (key : Str) :
      UnloadTrail models model (.error kind detail named) [.read, .claim key false]
  | stuck {ms : List Entry} {entry : Entry} (hms : models = some ms)
      (hfind : findModel site ms model = some entry) (kind : UnloadError) (detail : Str)
      (named : Option Str) {reads : List Event} (hreads : Reads reads) :
      UnloadTrail models model (.error kind detail named)
        (.read :: .claim entry.key true :: .unload entry.victim :: reads)
  | gone {ms : List Entry} {entry : Entry} (hms : models = some ms)
      (hfind : findModel site ms model = some entry) (freed : Freed) {reads : List Event}
      (hreads : Reads reads) : UnloadTrail models model freed
        (.read :: .claim entry.key true :: .unload entry.victim ::
          (reads ++ [.gone entry.victim, .read]))

theorem unload_adds {old : List Event} (model : Str) :
    Adds (unload site w model) old (UnloadTrail site (w.models old.length) model) := by
  simp only [unload]
  split_ifs
  · exact Adds.pure (.refused _ _ _ Reads.nil)
  · apply Adds.bind (modelsEntries_adds w)
    rintro models _ ⟨rfl, rfl⟩
    cases hms : w.models old.length with
    | none => exact Adds.pure (.refused _ _ _ (by simp))
    | some ms =>
      simp only [findModel_strip]
      cases hfind : findModel site ms model with
      | none => exact Adds.pure (.refused _ _ _ (by simp))
      | some entry =>
        dsimp only
        split_ifs with hloaded
        · apply Adds.bind (unloadClaim_adds w entry.key)
          rintro claimed _ ⟨rfl, -⟩
          cases claimed with
          | false => exact Adds.pure (.chatting _ _ _ entry.key)
          | true =>
            apply Adds.bind (unloadAndWait_adds site w entry.victim)
            rintro err _ ⟨reads, hreads, rfl⟩
            cases err with
            | some err => exact Adds.pure (by simpa using .stuck rfl hfind _ _ _ hreads)
            | none =>
              apply Adds.bind (modelsEntries_adds w)
              rintro after _ ⟨rfl, -⟩
              exact Adds.pure (by simpa using .gone rfl hfind _ hreads)
        · exact Adds.pure (.idle rfl hfind (by simpa using hloaded) _)

namespace UnloadTrail

variable {site} {models : Option (List Entry)} {model key : Str} {freed : Freed} {log : List Event}
  (h : UnloadTrail site models model freed log)
include h

/-- It loads nothing, and takes away nothing but what the catalog has under the name. -/
theorem acts (evicts : Event → Str → Prop) (key : Str) : ∀ e ∈ log, ¬Brings key e ∧
    (TakesAway evicts key e →
      ∃ ms entry, models = some ms ∧ findModel site ms model = some entry ∧ entry.key = key) := by
  have hread {e : Event} {P : Prop} (he : e = .read) :
      ¬Brings key e ∧ (TakesAway evicts key e → P) := by
    rw [he]
    exact ⟨id, False.elim⟩
  cases h with
  | refused kind detail named hreads => exact fun e he => hread (hreads e he)
  | idle | chatting => simp [Brings, TakesAway]
  | stuck hms hfind kind detail named hreads =>
    simp only [List.forall_mem_cons]
    exact ⟨hread rfl, ⟨id, False.elim⟩, ⟨id, fun hkey => ⟨_, _, hms, hfind, hkey⟩⟩,
      fun e he => hread (hreads e he)⟩
  | gone hms hfind freed hreads =>
    simp only [List.forall_mem_cons, List.forall_mem_append]
    exact ⟨hread rfl, ⟨id, False.elim⟩, ⟨id, fun hkey => ⟨_, _, hms, hfind, hkey⟩⟩,
      fun e he => hread (hreads e he), ⟨id, False.elim⟩, hread rfl, by simp⟩

/-- Where no error is reported, the model was not loaded or is gone. -/
theorem frees : (∃ kind detail named, freed = .error kind detail named) ∨
    ∃ ms entry, models = some ms ∧ findModel site ms model = some entry ∧
      (entry.loaded = false ∨ .gone entry.victim ∈ log) := by
  cases h with
  | refused kind detail named hreads => exact .inl ⟨kind, detail, named, rfl⟩
  | idle hms hfind hloaded freed => exact .inr ⟨_, _, hms, hfind, .inl hloaded⟩
  | chatting kind detail named key => exact .inl ⟨kind, detail, named, rfl⟩
  | stuck hms hfind kind detail named hreads => exact .inl ⟨kind, detail, named, rfl⟩
  | gone hms hfind freed hreads => exact .inr ⟨_, _, hms, hfind, .inr (by simp)⟩

end UnloadTrail

/-! ### A turn -/

/-- What the cleanup of a turn leaves. -/
structure TurnTrail (initial : List Str) (t : Turn) : Prop where
  left : residentKey site t.model initial ≠ none → t.cleaned = []
  cleaned : residentKey site t.model initial = none → ∃ freed, t.freed = some freed ∧
    UnloadTrail site (w.models t.ended) t.model freed t.cleaned

theorem turn_adds {old : List Event} {R : List Event → Prop} {model : Str} {est : ℤ}
    (hran : Adds (ensureLoadedBlocking site w model est) old fun _ new => R new)
    (initial : List Str) :
    Adds (turn site w est initial model) old fun t new =>
      t.model = model ∧ t.began = old.length ∧ new = t.ran ++ t.cleaned ∧ R t.ran ∧
        TurnTrail site w initial t := by
  apply Adds.bind (Adds.now (R := fun n new => n = old.length ∧ new = []) ⟨rfl, rfl⟩)
  rintro n _ ⟨rfl, rfl⟩
  rw [List.append_nil]
  apply Adds.bind hran.recorded
  rintro ⟨o, ran⟩ new ⟨hran, hR⟩
  dsimp only at hran ⊢
  subst hran
  split_ifs with hkey
  · apply Adds.bind (unload_adds site w model).recorded
    rintro ⟨freed, cleaned⟩ new ⟨hcleaned, htrail⟩
    dsimp only at hcleaned ⊢
    subst hcleaned
    refine Adds.pure ⟨rfl, rfl, by simp, hR, fun h => absurd hkey h, fun _ => ⟨freed, rfl, ?_⟩⟩
    rwa [Turn.ended, ← List.length_append]
  · exact Adds.pure ⟨rfl, rfl, by simp, hR, fun _ => rfl, fun h => absurd h hkey⟩

theorem run_isPrefix {old : List Event} (initial : List Str) (model : Str) (est : ℤ) :
    (ensureLoadedBlocking site w model est old).2 <+: (turn site w est initial model old).2 := by
  simp only [turn, bind_apply, now_apply, recorded]
  split_ifs
  · exact (unload_adds site w model).extends_old
  · exact List.prefix_rfl

/-- A resident that was noted goes by the name, and the catalog has a model under it that was not
noted. -/
def Shadowed (initial : List Str) (models : List Entry) (name : Str) : Prop :=
  (∃ k ∈ initial, Names site name k) ∧
    ∃ entry ∈ findModel site models name, entry.key ∉ initial

/-- The name is not shadowed, neither as the turn begins nor as its cleanup does. -/
def Turn.Clear (initial : List Str) (t : Turn) : Prop :=
  ∀ n, n = t.began ∨ n = t.ended → ∀ ms ∈ w.models n, ¬Shadowed site initial ms t.model

/-- The turn is in `cleanup_failed`, by a name under which the catalog has the key. -/
def Turn.Lists (t : Turn) (key : Str) : Prop :=
  ∃ f ∈ t.notFreed, ∃ ms ∈ w.models t.began, (findModel site ms f.model).map (·.key) = some key

section
variable {w} {evicts : Event → Str → Prop} {cat : List (Str × Str)} {log old : List Event}
  {initial : List Str}

theorem TurnTrail.acts {t : Turn} (h : TurnTrail site w initial t) (evicts : Event → Str → Prop)
    {key : Str} {e : Event} (he : e ∈ t.cleaned) : ¬Brings key e ∧ (TakesAway evicts key e →
      residentKey site t.model initial = none ∧
        ∃ ms ∈ w.models t.ended, ∃ entry ∈ findModel site ms t.model, entry.key = key) := by
  by_cases hkey : residentKey site t.model initial = none
  · obtain ⟨freed, -, htrail⟩ := h.cleaned hkey
    obtain ⟨hbrings, htakes⟩ := htrail.acts evicts key e he
    refine ⟨hbrings, fun h => ?_⟩
    obtain ⟨ms, entry, hms, hfind, hentry⟩ := htakes h
    exact ⟨hkey, ms, hms, entry, hfind, hentry⟩
  · rw [h.left hkey] at he
    nomatch he

/-- What the run of a turn loads is the model that the catalog of its beginning has under the
name, and so has that of its cleanup. -/
theorem Fetched.chosen {model key : Str} {ran : List Event}
    (halone : Alone w evicts cat (old ++ ran)) (hread : [.read] <+: ran)
    (hran : Sends (fun key _ => Fetched site w cat old model key) ran)
    (hkey : Fetched site w cat old model key) (habsent : Absent w old key) :
    (∃ ms ∈ w.models old.length, (findModel site ms model).map (·.key) = some key) ∧
      ∀ ms ∈ w.models (old ++ ran).length, (findModel site ms model).map (·.key) = some key := by
  obtain ⟨ms₀, ms, hms₀, hms, hchat, hpicked⟩ := hkey
  obtain ⟨rest, rfl⟩ := hread
  have h₀ := halone.of_isPrefix (List.prefix_append old _)
  have hfirst : old ++ [Event.read] <+: old ++ ([Event.read] ++ rest) := ⟨rest, by simp⟩
  have h₁ := halone.of_isPrefix hfirst
  replace hms : w.models (old ++ [Event.read]).length = some ms := by simpa using hms
  replace habsent : Absent w (old ++ [Event.read]) key := habsent.append (by simp [Brings])
  replace hpicked := hpicked.resolve_right (not_not_intro habsent)
  rw [h₁.findModel_key site hms] at hpicked
  have hdown : loadedIn ms key = true → False := fun hup => by
    rw [(h₁.absent_iff hms hchat.mem_keys).mp habsent] at hup
    nomatch hup
  refine ⟨⟨ms₀, hms₀, ?_⟩, fun ms' hms' => ?_⟩
  · rw [h₀.findModel_key site hms₀]
    exact chosen_steady hpicked (fun k _ hup =>
      .inl (h₀.loadedIn_append h₁ hms₀ hms (by simp [TakesAway]) hup)) fun hup => (hdown hup).elim
  · rw [halone.findModel_key site hms']
    refine chosen_steady hpicked (fun k hk hup => ?_) fun hup => (hdown hup).elim
    -- another key that is loaded now and was not would have been fetched
    by_contra hnew
    rw [not_or, Bool.not_eq_true] at hnew
    obtain ⟨hold, hother⟩ := hnew
    have hkdown := (h₁.absent_iff hms hk).mpr hold
    have hnotbrought : ∀ e ∈ rest, ¬Brings k e := by
      intro e he hbrings
      cases e with
      | load model' context err =>
        obtain rfl : model' = k := hbrings
        obtain ⟨-, ms', -, hms', -, hpicked'⟩ :=
          hran model' context err (List.mem_append_right _ he)
        replace hpicked' := hpicked'.resolve_right (not_not_intro hkdown)
        obtain rfl : ms' = ms := Option.some.inj ((by simpa using hms' :
          w.models (old ++ [Event.read]).length = some ms').symm.trans hms)
        rw [h₁.findModel_key site hms, hpicked] at hpicked'
        exact hother (Option.some.inj hpicked').symm
      | _ => exact hbrings
    have hkdown' : Absent w (old ++ ([Event.read] ++ rest)) k := by
      rw [← List.append_assoc]
      exact hkdown.append hnotbrought
    rw [(halone.absent_iff hms' hk).mp hkdown'] at hup
    nomatch hup

/-- A model that was not noted and is not loaded is so after a clear turn too, or the turn is
reported. -/
theorem turn_accounts (halone : Alone w evicts cat log) {model : Str} {est : ℤ}
    (hlog : (turn site w est initial model old).2 <+: log) :
    Adds (turn site w est initial model) old fun t new =>
      (t.began = old.length ∧ new = t.ran ++ t.cleaned ∧
        Sends (fun key _ => Fetched site w cat old model key) t.ran ∧ TurnTrail site w initial t) ∧
      ∀ key ∉ initial, t.Clear site w initial → Absent w old key →
        Absent w (old ++ new) key ∨ t.Lists site w key := by
  have hfetches := ensureLoadedBlocking_fetches site halone model est
    ((run_isPrefix site w _ _ _).trans hlog)
  obtain ⟨new, hnew, hmodel, hbegan, hparts, ⟨hread, hran⟩, htrail⟩ :=
    turn_adds site w hfetches initial
  refine ⟨new, hnew, ⟨hbegan, hparts, hran, htrail⟩, fun key hkey hclear habsent => ?_⟩
  generalize (turn site w est initial model old).1 = t at *
  subst hmodel hparts
  have hended : t.ended = (old ++ t.ran).length := by simp [Turn.ended, hbegan]
  have hcleaned {k : Str} : ∀ e ∈ t.cleaned, ¬Brings k e := fun e he =>
    (htrail.acts site evicts he).1
  by_cases hbrought : ∃ context err, .load key context err ∈ t.ran
  · obtain ⟨context, err, hmem⟩ := hbrought
    have hrun : Alone w evicts cat (old ++ t.ran) :=
      halone.of_isPrefix (List.IsPrefix.trans ⟨t.cleaned, by rw [hnew, List.append_assoc]⟩ hlog)
    obtain ⟨⟨ms, hms, hpicked⟩, hafter⟩ :=
      (hran key context err hmem).chosen site hrun hread hran habsent
    -- the name stands for the key, so that it stands for nothing that was noted
    have hunnoted : residentKey site t.model initial = none := by
      refine (residentKey_eq_none site).mpr fun k hk hnames => ?_
      obtain ⟨entry, hentry, rfl⟩ := Option.map_eq_some_iff.mp hpicked
      exact hclear t.began (.inl rfl) ms (hbegan ▸ hms) ⟨⟨k, hk, hnames⟩, entry, hentry, hkey⟩
    obtain ⟨freed, hfreed, hunload⟩ := htrail.cleaned hunnoted
    rcases hunload.frees with ⟨kind, detail, named, rfl⟩ | ⟨ms', entry, hms', hfind, hgone⟩
    · refine .inr ⟨⟨t.model, kind, detail⟩, by simp [Turn.notFreed, hfreed], ms, ?_, hpicked⟩
      rwa [hbegan]
    · rw [hended] at hms'
      have hentry := hafter ms' hms'
      rw [hfind] at hentry
      obtain rfl := Option.some.inj hentry
      refine .inl ?_
      rw [← List.append_assoc]
      rcases hgone with hdown | hgone
      · exact (absent_of_listed hms' (findModel_spec site hfind).1 hdown).append hcleaned
      · exact absent_of_gone hgone hcleaned
  · refine .inl (habsent.append fun e he hbrings => ?_)
    rcases List.mem_append.mp he with he | he
    · cases e with
      | load model context err =>
        obtain rfl : model = key := hbrings
        exact hbrought ⟨context, err, he⟩
      | _ => exact hbrings
    · exact hcleaned e he hbrings

theorem takeTurns_extends (initial : List Str) (members : List Str) (est : ℤ) :
    old <+: (takeTurns site w est initial members old).2 := by
  induction members generalizing old with
  | nil => exact List.prefix_rfl
  | cons model rest ih =>
    have hturn : old <+: (turn site w est initial model old).2 :=
      (ensureLoadedBlocking_extends site model est).trans (run_isPrefix site w initial model est)
    exact hturn.trans ih

/-- What the turns leave: what each of them does, and what becomes of a model that was not noted
and is not loaded. -/
structure TurnsTrail (w : World) (evicts : Event → Str → Prop) (cat : List (Str × Str))
    (initial : List Str) (old : List Event) (ts : List Turn) (new : List Event) : Prop where
  each : ∀ t ∈ ts, t.began ≤ (old ++ new).length ∧ Sends (fun key _ => ChatKey cat key) t.ran ∧
    TurnTrail site w initial t
  parts : ∀ e ∈ new, ∃ t ∈ ts, e ∈ t.ran ∨ e ∈ t.cleaned
  accounts : ∀ key ∉ initial, (∀ t ∈ ts, t.Clear site w initial) → Absent w old key →
    Absent w (old ++ new) key ∨ ∃ t ∈ ts, t.Lists site w key

theorem takeTurns_adds (halone : Alone w evicts cat log) {members : List Str} {est : ℤ}
    (hlog : (takeTurns site w est initial members old).2 <+: log) :
    Adds (takeTurns site w est initial members) old
      (TurnsTrail site w evicts cat initial old) := by
  induction members generalizing old with
  | nil => exact Adds.pure ⟨by simp, by simp, fun key _ _ h => .inl (by simpa using h)⟩
  | cons model rest ih =>
    have hturn : (turn site w est initial model old).2 <+: log :=
      (takeTurns_extends site initial rest est).trans hlog
    apply Adds.bind_eq (turn_accounts site halone hturn)
    rintro t new hran ⟨⟨hbegan, rfl, hfetched, htrail⟩, haccounts⟩
    have hrest : (takeTurns site w est initial rest (old ++ (t.ran ++ t.cleaned))).2 <+: log := by
      rwa [takeTurns, bind_apply, hran] at hlog
    apply Adds.bind (ih hrest)
    rintro ts more ⟨heach, hparts, hmore⟩
    refine Adds.pure ⟨?_, ?_, fun key hkey hclear habsent => ?_⟩
    · rw [List.append_nil, List.forall_mem_cons, ← List.append_assoc old]
      refine ⟨⟨by simp [hbegan], fun key context err hmem => ?_, htrail⟩, heach⟩
      obtain ⟨-, -, -, -, hchat, -⟩ := hfetched key context err hmem
      exact hchat
    · intro e he
      rw [List.append_nil, List.mem_append, List.mem_append] at he
      rcases he with he | he
      · exact ⟨t, List.mem_cons_self, he⟩
      · obtain ⟨t', ht', he⟩ := hparts e he
        exact ⟨t', List.mem_cons_of_mem _ ht', he⟩
    · obtain ⟨hfirst, hothers⟩ := List.forall_mem_cons.mp hclear
      rw [List.append_nil, ← List.append_assoc]
      rcases haccounts key hkey hfirst habsent with habsent | hlists
      · exact (hmore key hkey hothers habsent).imp id fun ⟨t', ht', hlists⟩ =>
          ⟨t', List.mem_cons_of_mem _ ht', hlists⟩
      · exact .inr ⟨t, List.mem_cons_self, hlists⟩

end

/-! ### The panel -/

/-- The box as a panel leaves it: a model that was noted is still resident, or the run of a member
displaced it; a model that a run loaded and that was not noted is not loaded, or is in
`cleanup_failed` by a name the catalog has it under; and a cleanup unloads exactly where what it
would unload was not noted. -/
structure LeftAsFound (evicts : Event → Str → Prop) (initial : List Str) (turns : List Turn)
    (log : List Event) : Prop where
  kept : ∀ key ∈ initial, ∀ ms ∈ w.models log.length,
    loadedIn ms key = true ∨ ∃ t ∈ turns, ∃ e ∈ t.ran, TakesAway evicts key e
  freed : ∀ key ∉ initial, (∃ t ∈ turns, ∃ context err, .load key context err ∈ t.ran) →
    (∀ ms ∈ w.models log.length, loadedIn ms key = false) ∨
      ∃ f ∈ cleanupFailed turns, ∃ n ≤ log.length, ∃ ms ∈ w.models n,
        (findModel site ms f.model).map (·.key) = some key
  tested : ∀ t ∈ turns, ∀ ms ∈ w.models t.ended, ∀ entry ∈ findModel site ms t.model,
    (residentKey site t.model initial = none ↔ entry.key ∉ initial)

variable {site w}

/-- A name that no resident goes by stands for none of them. -/
theorem not_mem_of_residentKey {name : Str} {initial : List Str} {ms : List Entry} {entry : Entry}
    (h : residentKey site name initial = none) (hfind : findModel site ms name = some entry) :
    entry.key ∉ initial := fun hmem =>
  (residentKey_eq_none site).mp h _ hmem (findModel_spec site hfind).2

section
variable {evicts : Event → Str → Prop} {cat : List (Str × Str)} {initial : List Str}
  {turns : List Turn} {log : List Event}

/-- No cleanup takes away a model that was noted. -/
theorem TurnsTrail.kept {new : List Event}
    (h : TurnsTrail site w evicts cat initial [.read] turns new)
    (halone : Alone w evicts cat ([.read] ++ new)) {ms₀ : List Entry} (hms₀ : w.models 0 = some ms₀)
    {key : Str} (hkey : loadedIn ms₀ key = true) (hinitial : key ∈ initial) {ms : List Entry}
    (hms : w.models ([Event.read] ++ new).length = some ms) :
    loadedIn ms key = true ∨ ∃ t ∈ turns, ∃ e ∈ t.ran, TakesAway evicts key e := by
  by_contra hnot
  rw [not_or] at hnot
  have h₀ : Alone w evicts cat [] := halone.of_isPrefix (List.nil_prefix)
  refine hnot.1 (h₀.loadedIn_append halone hms₀ hms (fun e he htakes => ?_) hkey)
  rcases List.mem_cons.mp he with rfl | he
  · exact htakes
  · obtain ⟨t, ht, he | he⟩ := h.parts e he
    · exact hnot.2 ⟨t, ht, e, he, htakes⟩
    · obtain ⟨hnone, ms', -, entry, hfind, rfl⟩ := ((h.each t ht).2.2.acts site evicts he).2 htakes
      exact not_mem_of_residentKey hnone hfind hinitial

end

/-- A server that makes no room of its own accord. -/
def NoEviction (_ : Event) (_ : Str) : Prop := False

instance (e : Event) (key : Str) : Decidable (NoEviction e key) := isFalse id

/-- A server with `a` resident throughout, that has `b` loaded from its load on, up to the step
`last`. -/
def oneGpu (a b : Str) (last : ℕ) : World where
  monitors := false
  gpu := Gpu.absent
  models n := some [⟨a, txt "llm", none, none, true, some a, none⟩,
    ⟨b, txt "llm", none, none, decide (4 ≤ n ∧ n ≤ last), some b, none⟩]
  load _ := .ok ⟨none, none⟩
  unload _ := none
  chatting _ := false
  polls _ := 0

/-- `b` is loaded for its turn and unloaded after it. -/
def freedTurn : List Turn :=
  [⟨txt "b", 1, [.read, .read, .load (txt "b") 32768 none, .read, .appeared (txt "b") true, .read,
      .read],
    [.read, .claim (txt "b") true, .unload ⟨txt "b", txt "b", 0, false⟩, .read,
      .gone ⟨txt "b", txt "b", 0, false⟩, .read],
    some (.ok (txt "b") [txt "b"] none true [] [⟨txt "a", none, none⟩])⟩]

/-- The token goes by `qwen/x`, which the catalog has unloaded, and so does the resident
`qwen/x@q4`. -/
def shadowedTurn : Turn :=
  ⟨txt "qwen/x", 1, [.read, .read, .load (txt "qwen/x") 32768 none, .read,
    .appeared (txt "qwen/x") true, .read, .read], [], none⟩

end AskFable.Lms
