import AskFable.Chain.Resolve
import AskFable.General.Distinct

/-!
# The two resolvers

A chain keeps the order and the repeats of the models asked for; a council puts them into a fixed
order, each once. What the council's loop collects is told family by family.
-/
namespace AskFable.Chain
open AskFable.Text AskFable.Python

/-! ### The council's resolver -/

/-- `ollama_model(m)` and its like. -/
def carries (marker m : Str) : Bool := (Council.carried m marker).isSome

/-- The lists that `resolve` fills. -/
structure Panel where
  ollama : List Str
  lms : List Str
  atlas : List Str
  openrouter : List Str
  ali : List Str
  seen : List Str
  unknown : List Str

def Panel.empty : Panel := ⟨[], [], [], [], [], [], []⟩

section
variable [Host] (lower : Str → Str)

/-- `ALIASES.get(t, t)`. -/
def aliased (t : Str) : Str := (Ask.ALIASES.lookup t).getD t

/-- The canonical tokens, as `resolve` has them. -/
def requested (models : List Json) : List Str :=
  (((expandGroups lower models).map (canon lower)).filter (· ≠ [])).map aliased

/-- One round of the loop in `resolve`. -/
def Panel.take (s : Panel) (m : Str) : Panel :=
  if KNOWN.contains m then s
  else if carries (txt "ollama:") m = true ∧ m ∉ s.ollama then
    { s with ollama := s.ollama ++ [m] }
  else if carries (txt "lmstudio:") m = true ∧ lower m ∉ s.seen then
    { s with seen := lower m :: s.seen, lms := s.lms ++ [m] }
  else if carries (txt "atlas:") m = true ∧ lower m ∉ s.seen then
    { s with seen := lower m :: s.seen, atlas := s.atlas ++ [m] }
  else if carries (txt "openrouter:") m = true ∧ lower m ∉ s.seen then
    { s with seen := lower m :: s.seen, openrouter := s.openrouter ++ [m] }
  else if carries (txt "ali:") m = true ∧ lower m ∉ s.seen then
    { s with seen := lower m :: s.seen, ali := s.ali ++ [m] }
  else if carries (txt "ollama:") m = false ∧ carries (txt "lmstudio:") m = false ∧
      carries (txt "atlas:") m = false ∧ carries (txt "openrouter:") m = false ∧
      carries (txt "ali:") m = false ∧ m ∉ s.unknown then
    { s with unknown := s.unknown ++ [m] }
  else s

/-- `resolve`; `defaults` is what `default_models()` returns. -/
def resolve (defaults : List Str) (models : List Json) : List Str × List Str :=
  if models = [] then (defaults, [])
  else
    let s := (requested lower models).foldl (Panel.take lower) .empty
    (KNOWN.filter (fun k => (requested lower models).contains k) ++ s.ollama ++ s.lms ++ s.atlas ++
      s.openrouter ++ s.ali, s.unknown)

end

/-! ### What the loop collects -/

/-- The gateways whose ids keep their case, in the order of the panel. -/
def GATEWAY_ORDER : List Str := [txt "lmstudio:", txt "atlas:", txt "openrouter:", txt "ali:"]

def isGateway (m : Str) : Bool := GATEWAY_ORDER.any fun marker => carries marker m

theorem gateway_of_order {marker : Str} (h : marker ∈ GATEWAY_ORDER) :
    marker ∈ Council.GATEWAYS := List.mem_cons_of_mem (txt "ollama:") h

/-- No gateway begins as another one does, and no name as a gateway. -/
theorem gateways_apart : Council.GATEWAYS.Nodup ∧
    (∀ a ∈ Council.GATEWAYS, ∀ b ∈ Council.GATEWAYS, a <+: b → a = b) ∧
    KNOWN.Nodup ∧ ∀ k ∈ KNOWN, ∀ marker ∈ Council.GATEWAYS, ¬marker <+: k := by
  decide +kernel

/-- An alias stands for a name. -/
theorem known_of_alias {t v : Str} (h : Ask.ALIASES.lookup t = some v) : v ∈ KNOWN ∧ v ≠ [] := by
  have hvalues : ∀ p ∈ Ask.ALIASES, p.2 ∈ KNOWN ∧ p.2 ≠ [] := by decide
  obtain ⟨l, r, hsplit, -⟩ := List.lookup_eq_some_iff.mp h
  exact hvalues (t, v) (by simp [hsplit])

theorem carries_iff (marker m : Str) :
    carries marker m = true ↔ marker <+: m ∧ strip (m.drop marker.length) ≠ [] := by
  unfold carries Council.carried
  by_cases hmarked : marker <+: m
  · by_cases hnil : strip (m.drop marker.length) = [] <;> simp [hmarked, hnil]
  · simp [hmarked]

theorem prefix_of_carries {marker m : Str} (h : carries marker m = true) : marker <+: m :=
  ((carries_iff marker m).mp h).1

theorem eq_of_begins {a b m : Str} (ha : a ∈ Council.GATEWAYS) (hb : b ∈ Council.GATEWAYS)
    (hma : a <+: m) (hmb : b <+: m) : a = b := by
  obtain ⟨-, hdistinct, -⟩ := gateways_apart
  rcases List.prefix_or_prefix_of_prefix hma hmb with h | h
  · exact hdistinct a ha b hb h
  · exact (hdistinct b hb a ha h).symm

theorem eq_of_carries {a b m : Str} (ha : a ∈ Council.GATEWAYS) (hb : b ∈ Council.GATEWAYS)
    (hma : carries a m = true) (hmb : carries b m = true) : a = b :=
  eq_of_begins ha hb (prefix_of_carries hma) (prefix_of_carries hmb)

theorem known_not_carries {m : Str} (h : m ∈ KNOWN) {marker : Str}
    (hm : marker ∈ Council.GATEWAYS) :
    carries marker m = false := by
  obtain ⟨-, -, -, hnot⟩ := gateways_apart
  rw [← Bool.not_eq_true]
  exact fun hc => hnot m h marker hm (prefix_of_carries hc)

theorem recognized_iff (m : Str) : recognized m = true ↔
    m ∈ KNOWN ∨ carries (txt "ollama:") m = true ∨ isGateway m = true := by
  have horder : Council.GATEWAYS = [txt "ollama:", txt "lmstudio:", txt "atlas:",
    txt "openrouter:", txt "ali:"] := rfl
  simp [recognized, isGateway, GATEWAY_ORDER, horder, carries]

theorem carries_of_gateway {m : Str} (h : isGateway m = true) :
    m ∉ KNOWN ∧ carries (txt "ollama:") m = false := by
  obtain ⟨marker, hmarker, hm⟩ := List.any_eq_true.mp h
  have hgateway := gateway_of_order hmarker
  refine ⟨fun hknown => ?_, ?_⟩
  · rw [known_not_carries hknown hgateway] at hm
    cases hm
  · rw [← Bool.not_eq_true]
    intro hollama
    have hne : txt "ollama:" ∉ GATEWAY_ORDER := (List.nodup_cons.mp gateways_apart.1).1
    exact hne (eq_of_carries (by decide) hgateway hollama hm ▸ hmarker)

section
variable (lower : Str → Str)

theorem take_known {m : Str} (h : m ∈ KNOWN) (s : Panel) : s.take lower m = s := by
  rw [Panel.take, if_pos (List.contains_iff_mem.mpr h)]

theorem take_ollama {m : Str} (h : carries (txt "ollama:") m = true) (s : Panel) :
    s.take lower m = if m ∈ s.ollama then s else { s with ollama := s.ollama ++ [m] } := by
  have hother (marker : Str) (hmarker : marker ∈ GATEWAY_ORDER) : carries marker m = false := by
    rw [← Bool.not_eq_true]
    intro hm
    have hgateway : isGateway m = true := List.any_eq_true.mpr ⟨marker, hmarker, hm⟩
    rw [(carries_of_gateway hgateway).2] at h
    cases h
  have hknown : KNOWN.contains m = false := by
    rw [← Bool.not_eq_true, List.contains_iff_mem]
    intro hknown
    rw [known_not_carries hknown (by decide)] at h
    cases h
  simp only [Panel.take, hknown, h, hother (txt "lmstudio:") (by decide),
    hother (txt "atlas:") (by decide), hother (txt "openrouter:") (by decide),
    hother (txt "ali:") (by decide), Bool.false_eq_true, Bool.true_eq_false, if_false, true_and,
    false_and]
  by_cases hmem : m ∈ s.ollama <;> simp [hmem]

theorem take_gateway {m : Str} (h : isGateway m = true) (s : Panel) :
    s.take lower m = if lower m ∈ s.seen then s else
      ⟨s.ollama, s.lms ++ [m].filter (carries (txt "lmstudio:")),
        s.atlas ++ [m].filter (carries (txt "atlas:")),
        s.openrouter ++ [m].filter (carries (txt "openrouter:")),
        s.ali ++ [m].filter (carries (txt "ali:")), lower m :: s.seen, s.unknown⟩ := by
  obtain ⟨hknown, hollama⟩ := carries_of_gateway h
  obtain ⟨marker, hmarker, hm⟩ := List.any_eq_true.mp h
  have hother (other : Str) (hin : other ∈ GATEWAY_ORDER) (hne : other ≠ marker) :
      carries other m = false := by
    rw [← Bool.not_eq_true]
    exact fun ho => hne (eq_of_carries (gateway_of_order hin) (gateway_of_order hmarker) ho hm)
  simp only [GATEWAY_ORDER, List.mem_cons, List.not_mem_nil, or_false] at hmarker
  by_cases hseen : lower m ∈ s.seen
  · rcases hmarker with rfl | rfl | rfl | rfl <;> simp [Panel.take, hknown, hollama, hm, hseen]
  · rcases hmarker with rfl | rfl | rfl | rfl
    · have hatlas := hother (txt "atlas:") (by decide) (by decide)
      have hopenrouter := hother (txt "openrouter:") (by decide) (by decide)
      have hali := hother (txt "ali:") (by decide) (by decide)
      simp [Panel.take, hknown, hollama, hm, hseen, hatlas, hopenrouter, hali]
    · have hlms := hother (txt "lmstudio:") (by decide) (by decide)
      have hopenrouter := hother (txt "openrouter:") (by decide) (by decide)
      have hali := hother (txt "ali:") (by decide) (by decide)
      simp [Panel.take, hknown, hollama, hm, hseen, hlms, hopenrouter, hali]
    · have hlms := hother (txt "lmstudio:") (by decide) (by decide)
      have hatlas := hother (txt "atlas:") (by decide) (by decide)
      have hali := hother (txt "ali:") (by decide) (by decide)
      simp [Panel.take, hknown, hollama, hm, hseen, hlms, hatlas, hali]
    · have hlms := hother (txt "lmstudio:") (by decide) (by decide)
      have hatlas := hother (txt "atlas:") (by decide) (by decide)
      have hopenrouter := hother (txt "openrouter:") (by decide) (by decide)
      simp [Panel.take, hknown, hollama, hm, hseen, hlms, hatlas, hopenrouter]

theorem take_unknown {m : Str} (h : recognized m = false) (s : Panel) :
    s.take lower m = if m ∈ s.unknown then s else { s with unknown := s.unknown ++ [m] } := by
  have hnot : ¬(m ∈ KNOWN ∨ carries (txt "ollama:") m = true ∨ isGateway m = true) := by
    rw [← recognized_iff, h]
    decide
  simp only [not_or, Bool.not_eq_true] at hnot
  obtain ⟨hknown, hollama, hgateway⟩ := hnot
  simp only [isGateway, GATEWAY_ORDER, List.any_cons, List.any_nil, Bool.or_eq_false_iff,
    and_true] at hgateway
  obtain ⟨hlms, hatlas, hopenrouter, hali⟩ := hgateway
  have hcontains : KNOWN.contains m = false := by
    rw [← Bool.not_eq_true, List.contains_iff_mem]
    exact hknown
  simp only [Panel.take, hcontains, hollama, hlms, hatlas, hopenrouter, hali, Bool.false_eq_true,
    if_false, false_and, true_and]
  by_cases hmem : m ∈ s.unknown <;> simp [hmem]

/-- The loop gathers each family in order, and every token of it once. -/
theorem foldl_take (s : Panel) (l : List Str) :
    l.foldl (Panel.take lower) s =
      let gateways := Distinct.firsts lower s.seen (l.filter isGateway)
      ⟨s.ollama ++ Distinct.firsts id s.ollama (l.filter (carries (txt "ollama:"))),
        s.lms ++ gateways.filter (carries (txt "lmstudio:")),
        s.atlas ++ gateways.filter (carries (txt "atlas:")),
        s.openrouter ++ gateways.filter (carries (txt "openrouter:")),
        s.ali ++ gateways.filter (carries (txt "ali:")),
        (gateways.map lower).reverse ++ s.seen,
        s.unknown ++ Distinct.firsts id s.unknown (l.filter fun m => !recognized m)⟩ := by
  induction l generalizing s with
  | nil => simp [Distinct.firsts]
  | cons m l ih =>
    rw [List.foldl_cons]
    have hrec := recognized_iff m
    by_cases hknown : m ∈ KNOWN
    · have hollama : carries (txt "ollama:") m = false := known_not_carries hknown (by decide)
      have hgateway : isGateway m = false := by
        rw [← Bool.not_eq_true]
        exact fun h => (carries_of_gateway h).1 hknown
      rw [take_known lower hknown, ih]
      simp [hollama, hgateway, hrec.mpr (.inl hknown)]
    by_cases hollama : carries (txt "ollama:") m = true
    · have hgateway : isGateway m = false := by
        rw [← Bool.not_eq_true]
        intro h
        rw [(carries_of_gateway h).2] at hollama
        cases hollama
      rw [take_ollama lower hollama, ih]
      have hmem : ∀ k, k ∈ s.ollama ++ [m] ↔ k ∈ m :: s.ollama := fun k => by simp [or_comm]
      by_cases hin : m ∈ s.ollama
      · simp [hollama, hgateway, hrec.mpr (.inr (.inl hollama)), hin, Distinct.firsts]
      · simp [hollama, hgateway, hrec.mpr (.inr (.inl hollama)), hin, Distinct.firsts,
          Distinct.firsts_congr hmem]
    rw [Bool.not_eq_true] at hollama
    by_cases hgateway : isGateway m = true
    · rw [take_gateway lower hgateway, ih]
      by_cases hin : lower m ∈ s.seen
      · simp [hollama, hgateway, hrec.mpr (.inr (.inr hgateway)), hin, Distinct.firsts]
      · simp only [hin, if_false, List.filter_cons, hollama, hgateway,
          hrec.mpr (.inr (.inr hgateway)), Distinct.firsts, if_true, Bool.false_eq_true,
          Bool.not_true, List.filter_nil, List.map_cons, List.reverse_cons, List.append_assoc]
        split_ifs <;> simp
    rw [Bool.not_eq_true] at hgateway
    have hunknown : recognized m = false := by
      rw [← Bool.not_eq_true, hrec]
      simp [hknown, hollama, hgateway]
    rw [take_unknown lower hunknown, ih]
    have hmem : ∀ k, k ∈ s.unknown ++ [m] ↔ k ∈ m :: s.unknown := fun k => by simp [or_comm]
    by_cases hin : m ∈ s.unknown
    · simp [hollama, hgateway, hunknown, hin, Distinct.firsts]
    · simp [hollama, hgateway, hunknown, hin, Distinct.firsts, Distinct.firsts_congr hmem]

end

/-! ### The lists of `resolve` -/

section
variable (lower : Str → Str)

/-- The ids of the gateways that keep their case, each once without it, by gateway. -/
def gatewayIds (tokens : List Str) : List Str :=
  Distinct.sorted GATEWAY_ORDER carries (Distinct.firsts lower [] (tokens.filter isGateway))

def ollamaIds (tokens : List Str) : List Str :=
  Distinct.firsts id [] (tokens.filter (carries (txt "ollama:")))

/-- The recognized models of `resolve`. -/
def panelOf (tokens : List Str) : List Str :=
  KNOWN.filter (fun k => tokens.contains k) ++ (ollamaIds tokens ++ gatewayIds lower tokens)

/-- The unknown tokens of `resolve`. -/
def unknownOf (tokens : List Str) : List Str :=
  Distinct.firsts id [] (tokens.filter fun m => !recognized m)

theorem resolve_eq [Host] (defaults : List Str) {models : List Json} (h : models ≠ []) :
    resolve lower defaults models =
      (panelOf lower (requested lower models), unknownOf (requested lower models)) := by
  rw [resolve, if_neg h]
  simp only [foldl_take, Panel.empty, List.nil_append, panelOf, ollamaIds, gatewayIds,
    Distinct.sorted, GATEWAY_ORDER, List.flatMap_cons, List.flatMap_nil, List.append_nil,
    List.append_assoc, unknownOf]

theorem requested_eq_stages [Host] (models : List Json) :
    requested lower models = stages lower models := by
  have hne : ∀ t, t ≠ [] → aliased t ≠ [] := by
    intro t ht
    unfold aliased
    cases hlookup : Ask.ALIASES.lookup t with
    | none => exact ht
    | some v => exact (known_of_alias hlookup).2
  have hnil : aliased [] = [] := by decide
  rw [requested, stages]
  induction expandGroups lower models with
  | nil => rfl
  | cons m ms ih =>
    change _ = ((aliased (canon lower m)) :: ms.map fun m => aliased (canon lower m)).filter _
    by_cases hm : canon lower m = []
    · rw [List.map_cons, List.filter_cons_of_neg (by simp [hm]), ih,
        List.filter_cons_of_neg (by simp [hm, hnil])]
      rfl
    · rw [List.map_cons, List.filter_cons_of_pos (by simp [hm]), List.map_cons, ih,
        List.filter_cons_of_pos (by simp [hne _ hm])]
      rfl

end

theorem exclusive_gateways : Distinct.Exclusive GATEWAY_ORDER carries :=
  fun _ ha _ hb _ => eq_of_carries (gateway_of_order ha) (gateway_of_order hb)

theorem mem_gatewayIds {lower : Str → Str} {tokens : List Str} {t : Str} :
    t ∈ gatewayIds lower tokens ↔
      t ∈ Distinct.firsts lower [] (tokens.filter isGateway) := by
  rw [gatewayIds, Distinct.mem_sorted]
  refine and_iff_left_of_imp fun h => ?_
  have hmem := (Distinct.firsts_sublist _ _).subset h
  exact List.any_eq_true.mp (List.mem_filter.mp hmem).2

/-- What is on the panel was asked for and is recognized. -/
theorem of_mem_panelOf {lower : Str → Str} {tokens : List Str} {t : Str}
    (h : t ∈ panelOf lower tokens) : t ∈ tokens ∧ recognized t = true := by
  rw [recognized_iff]
  rcases List.mem_append.mp h with h | h
  · obtain ⟨hknown, hin⟩ := List.mem_filter.mp h
    exact ⟨List.contains_iff_mem.mp hin, .inl hknown⟩
  rcases List.mem_append.mp h with h | h
  · obtain ⟨hin, hollama⟩ := List.mem_filter.mp ((Distinct.firsts_sublist _ _).subset h)
    exact ⟨hin, .inr (.inl hollama)⟩
  · rw [mem_gatewayIds] at h
    obtain ⟨hin, hgateway⟩ := List.mem_filter.mp ((Distinct.firsts_sublist _ _).subset h)
    exact ⟨hin, .inr (.inr hgateway)⟩

theorem mem_unknownOf {tokens : List Str} {t : Str} :
    t ∈ unknownOf tokens ↔ t ∈ tokens ∧ recognized t = false := by
  have hfilter :
      t ∈ tokens.filter (fun m => !recognized m) ↔ t ∈ tokens ∧ recognized t = false := by
    simp [List.mem_filter]
  rw [← hfilter]
  refine ⟨fun h => (Distinct.firsts_sublist _ _).subset h, fun h => ?_⟩
  rcases Distinct.exists_first id [] h with hmem | ⟨b, hb, rfl⟩
  · cases hmem
  · exact hb

theorem nodup_panelOf (lower : Str → Str) (tokens : List Str) : (panelOf lower tokens).Nodup := by
  obtain ⟨-, -, hknown, -⟩ := gateways_apart
  have hollama : (ollamaIds tokens).Nodup := by
    simpa [ollamaIds] using Distinct.nodup_firsts id [] (tokens.filter _)
  have hgateways : (gatewayIds lower tokens).Nodup :=
    (Distinct.nodup_sorted exclusive_gateways (by decide) (Distinct.nodup_firsts _ _ _)).of_map _
  rw [panelOf, List.nodup_append', List.nodup_append']
  refine ⟨hknown.filter _, ⟨hollama, hgateways, ?_⟩, ?_⟩
  · intro t ht ht'
    obtain ⟨-, hcarries⟩ := List.mem_filter.mp ((Distinct.firsts_sublist _ _).subset ht)
    rw [mem_gatewayIds] at ht'
    obtain ⟨-, hgateway⟩ := List.mem_filter.mp ((Distinct.firsts_sublist _ _).subset ht')
    rw [(carries_of_gateway hgateway).2] at hcarries
    cases hcarries
  · intro t ht ht'
    have hin := (List.mem_filter.mp ht).1
    rcases List.mem_append.mp ht' with ht' | ht'
    · obtain ⟨-, hcarries⟩ := List.mem_filter.mp ((Distinct.firsts_sublist _ _).subset ht')
      rw [known_not_carries hin (by decide)] at hcarries
      cases hcarries
    · rw [mem_gatewayIds] at ht'
      obtain ⟨-, hgateway⟩ := List.mem_filter.mp ((Distinct.firsts_sublist _ _).subset ht')
      exact (carries_of_gateway hgateway).1 hin

end AskFable.Chain
