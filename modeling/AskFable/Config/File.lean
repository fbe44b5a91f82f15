import AskFable.Python.JsonWire
import AskFable.Python.Utf8
import Mathlib.Data.List.Forall2
import Mathlib.Data.List.Nodup

/-!
# The configuration file

What `load` makes of the file, what `save` writes, and that settings are read back as they were
saved. A setting is a string or a list of strings.
-/
namespace AskFable.Config
open AskFable.Text AskFable.Python AskFable.Python.Bytes AskFable.Python.JsonText

/-! ### Writing -/

/-- A line break and the indentation. -/
def newline (n : ℕ) : Str := cp '\n' :: List.replicate (2 * n) (cp ' ')

theorem blank_newline (n : ℕ) : Blank (newline n) := by
  intro c hc
  rcases List.mem_cons.mp hc with rfl | hc
  · decide
  · rw [List.eq_of_mem_replicate hc]
    decide

/-- `indent=2` at a depth. -/
def indent (n : ℕ) : Layout where
  lead := newline (n + 1)
  gap := newline (n + 1)
  space := txt " "
  pad := newline n
  blank_lead := blank_newline _
  blank_gap := blank_newline _
  blank_space := JsonText.blank_space
  blank_pad := blank_newline _

mutual

/-- `json.dumps(…, indent=2)` at a depth. -/
def indented (n : ℕ) : Json → Str
  | .null => txt "null"
  | .bool b => if b then txt "true" else txt "false"
  | .int m => intStr m
  | .float shown =>
    if shown = txt "nan" then txt "NaN"
    else if shown = txt "inf" then txt "Infinity"
    else if shown = txt "-inf" then txt "-Infinity"
    else shown
  | .str s => dumpAscii s
  | .arr [] => txt "[]"
  | .arr (x :: xs) => arrayText (indent n) (indentedItems (n + 1) (x :: xs))
  | .obj [] => txt "\x7b\x7d"
  | .obj (p :: items) => objectText (indent n) (indentedMembers (n + 1) (p :: items))

def indentedItems (n : ℕ) : List Json → List Str
  | [] => []
  | x :: xs => indented n x :: indentedItems n xs

def indentedMembers (n : ℕ) : List (Str × Json) → List Member
  | [] => []
  | (k, x) :: items => ⟨k, indented n x, x⟩ :: indentedMembers n items

end

/-- The file that `save` writes; its text is ASCII. -/
def written (d : Dict) : Bytes := Utf8.encodePass (indented 0 (.obj d) ++ txt "\n")

/-- What the tools save. -/
inductive Setting
  | text (s : Str)
  | texts (ss : List Str)
  deriving DecidableEq

def Setting.json : Setting → Json
  | .text s => .str s
  | .texts ss => .arr (ss.map .str)

/-- The keys that are set, and those that are removed by `None`; they are names of settings. -/
structure Patch where
  items : List (Str × Option Setting)
  unique : (items.map Prod.fst).Nodup
  named : ∀ p ∈ items, mend p.1 = p.1

/-- One key of a patch. -/
def assign (d : Dict) (p : Str × Option Setting) : Dict :=
  match p.2 with
  | none => Dict.without [p.1] d
  | some v => Dict.set d p.1 v.json

def merge (current : Dict) (patch : Patch) : Dict := patch.items.foldl assign current

section
variable [Host]

/-- `load` of the file, if there is one; `none` is `RecursionError`, the one error it lets out. -/
def load (content : Option Bytes) : Option Dict :=
  match content.bind Utf8.decode with
  | none => some []
  | some text =>
    match loads text with
    | .ok (.obj d) => some d
    | .ok _ => some []
    | .error .recursion => none
    | .error .value | .error .digits => some []

end

/-! ### Keys -/

theorem get_assign (d : Dict) (p : Str × Option Setting) (k : Str) :
    Dict.get (assign d p) k = if p.1 = k then p.2.map Setting.json else Dict.get d k := by
  obtain ⟨name, v⟩ := p
  cases v with
  | none =>
    rw [assign, Dict.get_without]
    simp [eq_comm]
  | some v =>
    rw [assign, Dict.get_set]
    rfl

/-- A key that the patch names is as the patch has it, any other stays. -/
theorem get_assigns {items : List (Str × Option Setting)} (h : (items.map Prod.fst).Nodup)
    (current : Dict) (k : Str) :
    Dict.get (items.foldl assign current) k =
      (items.lookup k).elim (Dict.get current k) fun v => v.map Setting.json := by
  induction items generalizing current with
  | nil => rfl
  | cons p items ih =>
    obtain ⟨hnew, hrest⟩ := List.nodup_cons.mp h
    rw [List.foldl_cons, ih hrest, List.lookup_cons]
    by_cases hk : k = p.1
    · subst hk
      have hnone : items.lookup p.1 = none :=
        List.lookup_eq_none_iff.mpr fun q hq => by
          rw [bne_iff_ne]
          rintro heq
          exact hnew (List.mem_map.mpr ⟨q, hq, heq.symm⟩)
      simp [hnone, get_assign]
    · rw [get_assign, if_neg (Ne.symm hk), beq_false_of_ne hk]

theorem get_merge (current : Dict) (patch : Patch) (k : Str) :
    Dict.get (merge current patch) k =
      (patch.items.lookup k).elim (Dict.get current k) fun v => v.map Setting.json :=
  get_assigns patch.unique current k

/-! ### Settings read back -/

/-- A dict of settings. -/
structure Settings (d : Dict) : Prop where
  unique : (d.map Prod.fst).Nodup
  named : ∀ p ∈ d, mend p.1 = p.1
  values : ∀ p ∈ d, ∃ v : Setting, p.2 = v.json

def Setting.mend : Setting → Setting
  | .text s => .text (JsonText.mend s)
  | .texts ss => .texts (ss.map JsonText.mend)

def rereadText : Json → Json
  | .str s => .str (mend s)
  | v => v

/-- How a setting that was written is read. -/
def reread : Json → Json
  | .str s => .str (mend s)
  | .arr xs => .arr (xs.map rereadText)
  | v => v

theorem reread_json (v : Setting) : reread v.json = v.mend.json := by
  cases v with
  | text s => rfl
  | texts ss => simp [Setting.json, Setting.mend, reread, rereadText]

theorem mend_mend_setting (v : Setting) : v.mend.mend = v.mend := by
  cases v with
  | text s => simp [Setting.mend, mend_mend]
  | texts ss => simp [Setting.mend, mend_mend]

theorem keys_set (d : Dict) (k : Str) (v : Json) :
    (Dict.set d k v).map Prod.fst = d.map Prod.fst ∨
      k ∉ d.map Prod.fst ∧ (Dict.set d k v).map Prod.fst = d.map Prod.fst ++ [k] := by
  induction d with
  | nil => exact .inr ⟨by simp, rfl⟩
  | cons p d ih =>
    obtain ⟨a, x⟩ := p
    by_cases hak : a = k
    · exact .inl (by simp [Dict.set, hak])
    · rw [Dict.set, if_neg hak]
      rcases ih with heq | ⟨hnew, heq⟩
      · exact .inl (by simp [heq])
      · exact .inr ⟨by simp [Ne.symm hak, hnew], by simp [heq]⟩

theorem mem_set {d : Dict} {k : Str} {v : Json} {p : Str × Json} (h : p ∈ Dict.set d k v) :
    p = (k, v) ∨ p ∈ d := by
  induction d with
  | nil => exact .inl (List.mem_singleton.mp h)
  | cons q d ih =>
    obtain ⟨a, x⟩ := q
    rw [Dict.set] at h
    split_ifs at h with hak
    · rcases List.mem_cons.mp h with rfl | hd
      · exact .inl (by rw [hak])
      · exact .inr (List.mem_cons_of_mem _ hd)
    · rcases List.mem_cons.mp h with rfl | hd
      · exact .inr List.mem_cons_self
      · exact (ih hd).imp_right (List.mem_cons_of_mem _)

theorem mem_of_get {d : Dict} {k : Str} {v : Json} (h : Dict.get d k = some v) : (k, v) ∈ d := by
  induction d with
  | nil => nomatch h
  | cons p d ih =>
    obtain ⟨a, x⟩ := p
    rw [Dict.get] at h
    split_ifs at h with hak
    · rw [← hak, Option.some.inj h]
      exact List.mem_cons_self
    · exact List.mem_cons_of_mem _ (ih h)

theorem Settings.assign {d : Dict} (h : Settings d) {p : Str × Option Setting}
    (hname : mend p.1 = p.1) : Settings (assign d p) := by
  obtain ⟨name, v⟩ := p
  cases v with
  | none =>
    have hsub : Dict.without [name] d ⊆ d := List.filter_subset_self d
    exact ⟨h.unique.sublist (List.filter_sublist.map _), fun q hq => h.named q (hsub hq),
      fun q hq => h.values q (hsub hq)⟩
  | some v =>
    refine ⟨?_, fun q hq => ?_, fun q hq => ?_⟩
    · rcases keys_set d name v.json with heq | ⟨hnew, heq⟩
      · exact heq ▸ h.unique
      · rw [show (Config.assign d (name, some v)).map Prod.fst = _ from heq, List.nodup_append]
        refine ⟨h.unique, List.nodup_singleton _, fun a ha b hb hab => ?_⟩
        rw [List.mem_singleton.mp hb] at hab
        exact hnew (hab ▸ ha)
    · rcases mem_set hq with rfl | hq
      · exact hname
      · exact h.named q hq
    · rcases mem_set hq with rfl | hq
      · exact ⟨v, rfl⟩
      · exact h.values q hq

theorem Settings.assigns {d : Dict} (h : Settings d) {items : List (Str × Option Setting)}
    (hnamed : ∀ p ∈ items, mend p.1 = p.1) : Settings (items.foldl Config.assign d) := by
  induction items generalizing d with
  | nil => exact h
  | cons p items ih =>
    obtain ⟨hname, hrest⟩ := List.forall_mem_cons.mp hnamed
    exact ih (h.assign hname) hrest

theorem Settings.merge {d : Dict} (h : Settings d) (patch : Patch) : Settings (merge d patch) :=
  h.assigns patch.named

theorem indented_texts (n : ℕ) (ss : List Str) :
    indentedItems n (ss.map .str) = ss.map dumpAscii := by
  induction ss with
  | nil => rfl
  | cons s ss ih => simp [indentedItems, indented, ih]

section
variable [Host]

/-- A setting is read back, and its text is ASCII. -/
theorem setting_reads (n : ℕ) (v : Setting) :
    Reads 1 (indented n v.json) (reread v.json) ∧ ∀ c ∈ indented n v.json, c.val < 128 := by
  rw [reread_json]
  cases v with
  | text s => exact ⟨(reads_dumpAscii s).mono (by simp), dumpAscii_ascii s⟩
  | texts ss =>
    cases ss with
    | nil => exact ⟨reads_empty_array, (ascii_of_all (by decide) : ∀ c ∈ txt "[]", c.val < 128)⟩
    | cons s ss =>
      have htext : indented n (Setting.texts (s :: ss)).json =
          arrayText (indent n) ((s :: ss).map dumpAscii) := by
        rw [Setting.json, List.map_cons, indented, ← List.map_cons, indented_texts]
      rw [htext]
      refine ⟨reads_array (indent n) ?_ (by simp), arrayText_ascii _ fun t ht => ?_⟩
      · rw [List.map_map, List.forall₂_map_left_iff, List.forall₂_map_right_iff]
        exact List.forall₂_same.mpr fun s _ => reads_dumpAscii s
      · obtain ⟨s', -, rfl⟩ := List.mem_map.mp ht
        exact dumpAscii_ascii s'

/-- The members of the file, as they are read. -/
def fileMembers (d : Dict) : List Member := d.map fun p => ⟨p.1, indented 1 p.2, reread p.2⟩

omit [Host] in
theorem objectText_indented (d : Dict) :
    objectText (indent 0) (indentedMembers 1 d) = objectText (indent 0) (fileMembers d) := by
  have htexts : (indentedMembers 1 d).map (Member.text (indent 0)) =
      (fileMembers d).map (Member.text (indent 0)) := by
    induction d with
    | nil => rfl
    | cons p d ih =>
      rw [indentedMembers, List.map_cons, ih]
      rfl
  rw [objectText, objectText, htexts]

/-- What is written of settings is read back, its strings mended. -/
theorem load_written (hnest : 2 ≤ Host.nestLimit) {d : Dict} (h : Settings d) :
    load (some (written d)) = some (d.map fun p => (p.1, reread p.2)) := by
  have hmembers : ∀ m ∈ fileMembers d, m.Reads 1 ∧ ∀ c ∈ m.token, c.val < 128 := by
    intro m hm
    obtain ⟨p, hp, rfl⟩ := List.mem_map.mp hm
    obtain ⟨v, hv⟩ := h.values p hp
    have hreads := setting_reads 1 v
    rw [← hv] at hreads
    exact ⟨⟨h.named p hp, hreads.1⟩, hreads.2⟩
  have hblank : Blank (txt "\n") := List.all_eq_true.mp (by decide)
  have htext : indented 0 (.obj d) = if d = [] then txt "\x7b\x7d" else
      objectText (indent 0) (fileMembers d) := by
    cases d with
    | nil => rfl
    | cons p d => rw [if_neg (by simp), ← objectText_indented, indented]
  have hascii : ∀ c ∈ indented 0 (.obj d) ++ txt "\n", c.val < 128 := by
    rw [htext]
    refine List.forall_mem_append.mpr ⟨?_, ascii_of_all (by decide)⟩
    split_ifs
    · exact ascii_of_all (by decide)
    · exact objectText_ascii _ fun m hm => (hmembers m hm).2
  have hdecode : Utf8.decode (written d) = some (indented 0 (.obj d) ++ txt "\n") :=
    Utf8.decode_encode (by rw [Utf8.encode, if_neg (by simp [ascii_surrogate hascii]), written])
  have hread : loads (indented 0 (.obj d) ++ txt "\n") =
      .ok (.obj (d.map fun p => (p.1, reread p.2))) := by
    rw [htext]
    split_ifs with hnil
    · subst hnil
      obtain ⟨room, hroom⟩ : ∃ room, Host.nestLimit = room + 1 := ⟨Host.nestLimit - 1, by omega⟩
      rw [loads, if_neg (by decide), hroom]
      rfl
    · have hobject := loads_object (indent 0) (by omega) (fun m hm => (hmembers m hm).1)
        (by simpa [fileMembers] using hnil) (by
          rw [fileMembers, List.map_map]
          exact h.unique) hblank
      rw [hobject, fileMembers, List.map_map]
      rfl
  rw [load, Option.bind_some, hdecode]
  dsimp only
  rw [hread]

omit [Host] in
theorem get_reread (d : Dict) (k : Str) :
    Dict.get (d.map fun p => (p.1, reread p.2)) k = (Dict.get d k).map reread := by
  induction d with
  | nil => rfl
  | cons p d ih =>
    obtain ⟨a, x⟩ := p
    by_cases hak : a = k
    · simp [Dict.get, hak]
    · simpa [Dict.get, hak] using ih

/-- Settings as they come out of a file that was written. -/
structure Steady (d : Dict) : Prop where
  settings : Settings d
  reread : ∀ k, (Dict.get d k).map Config.reread = Dict.get d k

omit [Host] in
theorem steady_nil : Steady [] := ⟨⟨List.nodup_nil, nofun, nofun⟩, fun _ => rfl⟩

omit [Host] in
theorem Settings.steady {d : Dict} (h : Settings d) :
    Steady (d.map fun p => (p.1, Config.reread p.2)) := by
  refine ⟨⟨?_, fun q hq => ?_, fun q hq => ?_⟩, fun k => ?_⟩
  · rw [List.map_map]
    exact h.unique
  · obtain ⟨p, hp, rfl⟩ := List.mem_map.mp hq
    exact h.named p hp
  · obtain ⟨p, hp, rfl⟩ := List.mem_map.mp hq
    obtain ⟨v, hv⟩ := h.values p hp
    exact ⟨v.mend, by rw [hv, reread_json]⟩
  · rw [get_reread, Option.map_map]
    cases hget : Dict.get d k with
    | none => rfl
    | some x =>
      obtain ⟨v, rfl⟩ := h.values _ (mem_of_get hget)
      simp [reread_json, mend_mend_setting]

/-- A save: what the patch names is as it says, the rest as it was. -/
theorem load_saved (hnest : 2 ≤ Host.nestLimit) {d : Dict} (h : Steady d) (patch : Patch) :
    ∃ d', load (some (written (merge d patch))) = some d' ∧ Steady d' ∧
      ∀ k, Dict.get d' k = (patch.items.lookup k).elim (Dict.get d k)
        fun v => v.map fun v => v.mend.json := by
  refine ⟨_, load_written hnest (h.settings.merge patch), (h.settings.merge patch).steady,
    fun k => ?_⟩
  rw [get_reread, get_merge]
  cases patch.items.lookup k with
  | none => exact h.reread k
  | some v => cases v with
    | none => rfl
    | some v => simp [reread_json]

end

end AskFable.Config
