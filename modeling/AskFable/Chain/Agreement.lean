import AskFable.Chain.Panel

/-!
# The resolvers agree

A recognized token is taken as it stands when it is resolved again, so a panel resolves to
itself. With that the two resolvers are compared.
-/
namespace AskFable.Chain
open AskFable.Text AskFable.Python

/-! ### Canonical tokens -/

/-- ASCII text without capitals. -/
def isLowerText (a : Str) : Bool := a.all fun c => c.val < 128 && !isUpper c

/-- `str.lower`, of which is used that it keeps lower-case ASCII in front, that it is idempotent
and neither makes nor takes whitespace, and that it leaves no text empty. -/
structure Lowers (lower : Str → Str) : Prop where
  front : ∀ a s, isLowerText a = true → a <+: lower (a ++ s)
  fixed : ∀ a, isLowerText a = true → lower a = a
  idem : ∀ s, lower (lower s) = lower s
  strip : ∀ s, strip (lower s) = lower (strip s)
  nil : ∀ s, lower s = [] → s = []

theorem Lowers.front_of_prefix {lower : Str → Str} (h : Lowers lower) {a s : Str}
    (ha : isLowerText a = true) (hs : a <+: s) : a <+: lower s := by
  obtain ⟨r, rfl⟩ := hs
  exact h.front a r ha

/-- The tokens that the resolvers take as they are. -/
structure Canonical (lower : Str → Str) (tok : Str) : Prop where
  single : groupMembers lower tok = none
  canon : canon lower tok = tok
  aliased : aliased tok = tok
  nonempty : tok ≠ []

theorem lookup_of_begins {β : Type*} {table : List (Str × β)} {a t : Str}
    (h : ∀ p ∈ table, ¬a <+: p.1) (ht : a <+: t) : table.lookup t = none := by
  rw [List.lookup_eq_none_iff]
  intro p hp
  rw [bne_iff_ne]
  rintro rfl
  exact h p hp ht

theorem strip_append_stripped {a y : Str} (ha : a.head?.any (fun c => !isSpace c) = true)
    (hy : strip y = y) (hne : y ≠ []) : strip (a ++ y) = a ++ y := by
  have hlast : y.rdropWhile isSpace = y := by
    conv_lhs => rw [← hy]
    rw [strip, List.rdropWhile_idempotent]
    exact hy
  have hdrop : (a ++ y).dropWhile isSpace = a ++ y := by
    cases a with
    | nil => cases ha
    | cons c a =>
      have hc : isSpace c = false := by simpa using ha
      simp [hc]
  rw [strip, hdrop, List.rdropWhile_eq_self_iff]
  intro hl
  rw [List.getLast_append_of_ne_nil hl hne]
  exact List.rdropWhile_eq_self_iff.mp hlast hne

theorem gateway_text {a : Str} (h : a ∈ Council.GATEWAYS) :
    isLowerText a = true ∧ a.head?.any (fun c => !isSpace c) = true := by
  have hall : ∀ a ∈ Council.GATEWAYS,
      isLowerText a = true ∧ a.head?.any (fun c => !isSpace c) = true := by decide
  exact hall a h

theorem gateway_ne_nil {a : Str} (h : a ∈ Council.GATEWAYS) : a ≠ [] := by
  rintro rfl
  simpa using (gateway_text h).2

theorem gateway_of_cased {a : Str} (h : a ∈ CASED) : a ∈ Council.GATEWAYS := by
  have hall : ∀ a ∈ CASED, a ∈ Council.GATEWAYS := by decide
  exact hall a h

/-- No name of a group and no alias begins as a gateway token does. -/
theorem canonical_of_gateway {lower : Str → Str} (h : Lowers lower) {marker tok : Str}
    (hmarker : marker ∈ Council.GATEWAYS) (hmarked : marker <+: tok) (hstrip : strip tok = tok)
    (hcanon : canon lower tok = tok) : Canonical lower tok := by
  have hnames : ∀ a ∈ Council.GATEWAYS, (∀ p ∈ GROUPS, ¬a <+: p.1) ∧
      (∀ p ∈ GROUP_ALIASES, ¬a <+: p.1) ∧ ∀ p ∈ Ask.ALIASES, ¬a <+: p.1 := by decide +kernel
  obtain ⟨hgroups, hgroupAliases, haliases⟩ := hnames marker hmarker
  have hlow : marker <+: lower tok := h.front_of_prefix (gateway_text hmarker).1 hmarked
  refine ⟨?_, hcanon, ?_, ?_⟩
  · rw [groupMembers, hstrip]
    simp only [lookup_of_begins hgroupAliases hlow, Option.getD_none]
    exact lookup_of_begins hgroups hlow
  · rw [aliased, lookup_of_begins haliases hmarked, Option.getD_none]
  · rintro rfl
    exact gateway_ne_nil hmarker (List.prefix_nil.mp hmarked)

theorem canonical_of_known {lower : Str → Str} (h : Lowers lower) {tok : Str} (htok : tok ∈ KNOWN) :
    Canonical lower tok := by
  have hfacts : ∀ k ∈ KNOWN, isLowerText k = true ∧ strip k = k ∧
      GROUPS.lookup ((GROUP_ALIASES.lookup k).getD k) = none ∧
      CASED.find? (· <+: k) = none ∧ aliased k = k ∧ k ≠ [] := by decide +kernel
  obtain ⟨htext, hstrip, hgroup, hcased, halias, hne⟩ := hfacts tok htok
  refine ⟨?_, ?_, halias, hne⟩
  · rw [groupMembers, hstrip, h.fixed tok htext]
    exact hgroup
  · rw [canon, hstrip, h.fixed tok htext]
    simp only [hcased]

theorem find?_cased {marker low : Str} (hmarker : marker ∈ CASED) (h : marker <+: low) :
    CASED.find? (· <+: low) = some marker := by
  cases hfind : CASED.find? (· <+: low) with
  | none =>
    have hnone := List.find?_eq_none.mp hfind marker hmarker
    simp [h] at hnone
  | some found =>
    have hmarked : found <+: low := by simpa using List.find?_some hfind
    have hfound := List.mem_of_find?_eq_some hfind
    rw [eq_of_begins (gateway_of_cased hfound) (gateway_of_cased hmarker) hmarked h]

/-- A canonical token that carries a gateway's model is taken as it is. -/
theorem canonical_of_carries {lower : Str → Str} (h : Lowers lower) {x marker : Str}
    (hmarker : marker ∈ Council.GATEWAYS) (hcarries : carries marker (canon lower x) = true) :
    Canonical lower (canon lower x) := by
  have hmarked := prefix_of_carries hcarries
  cases hfind : CASED.find? (· <+: lower (strip x)) with
  | some cased =>
    have hcased := List.mem_of_find?_eq_some hfind
    have hcanon : canon lower x = cased ++ strip ((strip x).drop cased.length) := by
      simp only [canon, hfind]
    generalize strip x = t at hcanon hfind
    rw [hcanon] at hmarked hcarries ⊢
    obtain rfl : marker = cased :=
      eq_of_begins hmarker (gateway_of_cased hcased) hmarked (List.prefix_append _ _)
    have hne : strip (t.drop marker.length) ≠ [] := by
      have hmodel := ((carries_iff _ _).mp hcarries).2
      rwa [List.drop_left, strip_strip] at hmodel
    have hstrip := strip_append_stripped (gateway_text hmarker).2 (strip_strip _) hne
    refine canonical_of_gateway h hmarker (List.prefix_append _ _) hstrip ?_
    have hlow : marker <+: lower (marker ++ strip (t.drop marker.length)) :=
      h.front _ _ (gateway_text hmarker).1
    rw [canon, hstrip]
    simp only [find?_cased hcased hlow, List.drop_left, strip_strip]
  | none =>
    have hcanon : canon lower x = lower (strip x) := by simp only [canon, hfind]
    rw [hcanon] at hmarked ⊢
    have hstrip : strip (lower (strip x)) = lower (strip x) := by rw [h.strip, strip_strip]
    refine canonical_of_gateway h hmarker hmarked hstrip ?_
    rw [canon, hstrip, h.idem]
    simp only [hfind]

theorem exists_carries {m : Str} (h : recognized m = true) (hknown : m ∉ KNOWN) :
    ∃ marker ∈ Council.GATEWAYS, carries marker m = true := by
  rw [recognized, Bool.or_eq_true, List.contains_iff_mem] at h
  exact List.any_eq_true.mp (h.resolve_left hknown)

theorem canonical_of_requested [Host] {lower : Str → Str} (h : Lowers lower) {models : List Json}
    {tok : Str} (htok : tok ∈ requested lower models) (hrec : recognized tok = true) :
    Canonical lower tok := by
  by_cases hknown : tok ∈ KNOWN
  · exact canonical_of_known h hknown
  obtain ⟨c, hc, rfl⟩ := List.mem_map.mp htok
  obtain ⟨m, -, rfl⟩ := List.mem_map.mp (List.mem_of_mem_filter hc)
  have hplain : aliased (canon lower m) = canon lower m := by
    unfold aliased at hknown ⊢
    cases hlookup : Ask.ALIASES.lookup (canon lower m) with
    | none => rfl
    | some v =>
      rw [hlookup, Option.getD_some] at hknown
      exact absurd (known_of_alias hlookup).1 hknown
  rw [hplain] at hrec hknown ⊢
  obtain ⟨marker, hmarker, hcarries⟩ := exists_carries hrec hknown
  exact canonical_of_carries h hmarker hcarries

/-- Canonical tokens are resolved as they stand. -/
theorem requested_of_canonical [Host] {lower : Str → Str} {tokens : List Str}
    (h : ∀ t ∈ tokens, Canonical lower t) : requested lower (tokens.map .str) = tokens := by
  have hexpand : expandGroups lower (tokens.map .str) = tokens := by
    rw [expandGroups, List.flatMap_map]
    refine (List.flatMap_congr fun t ht => ?_).trans (List.flatMap_singleton' tokens)
    change (groupMembers lower t).getD [t] = [t]
    rw [(h t ht).single, Option.getD_none]
  have hcanon : tokens.map (canon lower) = tokens :=
    (List.map_congr_left fun t ht => (h t ht).canon).trans (List.map_id' tokens)
  have hfilter : tokens.filter (· ≠ []) = tokens :=
    List.filter_eq_self.mpr fun t ht => by simpa using (h t ht).nonempty
  rw [requested, hexpand, hcanon, hfilter]
  exact (List.map_congr_left fun t ht => (h t ht).aliased).trans (List.map_id' tokens)

/-! ### Agreement -/

/-- One model: the same token, or two spellings of the id of one gateway. -/
def SameModel (lower : Str → Str) (t t' : Str) : Prop :=
  t = t' ∨ ∃ marker ∈ GATEWAY_ORDER, carries marker t = true ∧ carries marker t' = true ∧
    lower t = lower t'

/-- Every recognized token has its model on the panel. -/
theorem exists_on_panel {lower : Str → Str} (h : Lowers lower) {tokens : List Str} {t : Str}
    (ht : t ∈ tokens) (hrec : recognized t = true) :
    ∃ t' ∈ panelOf lower tokens, SameModel lower t t' := by
  rcases (recognized_iff t).mp hrec with hknown | hollama | hgateway
  · refine ⟨t, List.mem_append_left _ (List.mem_filter.mpr ⟨hknown, ?_⟩), .inl rfl⟩
    exact List.contains_iff_mem.mpr ht
  · have hmem : t ∈ tokens.filter (carries (txt "ollama:")) := List.mem_filter.mpr ⟨ht, hollama⟩
    rcases Distinct.exists_first id [] hmem with hnil | ⟨b, hb, rfl⟩
    · cases hnil
    · exact ⟨b, List.mem_append_right _ (List.mem_append_left _ hb), .inl rfl⟩
  · have hmem : t ∈ tokens.filter isGateway := List.mem_filter.mpr ⟨ht, hgateway⟩
    rcases Distinct.exists_first lower [] hmem with hnil | ⟨b, hb, hlow⟩
    · cases hnil
    have hin := (List.mem_filter.mp ((Distinct.firsts_sublist _ _).subset hb)).2
    obtain ⟨marker, hmarker, hcarries⟩ := List.any_eq_true.mp hgateway
    obtain ⟨marker', hmarker', hcarries'⟩ := List.any_eq_true.mp hin
    have hmark := gateway_of_order hmarker
    have hmark' := gateway_of_order hmarker'
    -- both ids begin, in lower case, with their gateway
    have hfront := h.front_of_prefix (gateway_text hmark).1 (prefix_of_carries hcarries)
    have hfront' := h.front_of_prefix (gateway_text hmark').1 (prefix_of_carries hcarries')
    rw [hlow] at hfront'
    obtain rfl := eq_of_begins hmark hmark' hfront hfront'
    exact ⟨b, List.mem_append_right _ (List.mem_append_right _ (mem_gatewayIds.mpr hb)),
      .inr ⟨marker, hmarker, hcarries, hcarries', hlow.symm⟩⟩

theorem filter_ollama_panelOf (lower : Str → Str) (tokens : List Str) :
    (panelOf lower tokens).filter (carries (txt "ollama:")) = ollamaIds tokens := by
  have hknown :
      (KNOWN.filter fun k => tokens.contains k).filter (carries (txt "ollama:")) = [] := by
    rw [List.filter_eq_nil_iff]
    intro k hk
    rw [known_not_carries (List.mem_of_mem_filter hk) (by decide)]
    decide
  have hollama : (ollamaIds tokens).filter (carries (txt "ollama:")) = ollamaIds tokens := by
    rw [List.filter_eq_self]
    exact fun t ht => (List.mem_filter.mp ((Distinct.firsts_sublist _ _).subset ht)).2
  have hgateways : (gatewayIds lower tokens).filter (carries (txt "ollama:")) = [] := by
    rw [List.filter_eq_nil_iff]
    intro t ht
    rw [mem_gatewayIds] at ht
    have hin := (List.mem_filter.mp ((Distinct.firsts_sublist _ _).subset ht)).2
    rw [(carries_of_gateway hin).2]
    decide
  rw [panelOf, List.filter_append, List.filter_append, hknown, hollama, hgateways,
    List.nil_append, List.append_nil]

theorem filter_gateway_panelOf (lower : Str → Str) (tokens : List Str) :
    (panelOf lower tokens).filter isGateway = gatewayIds lower tokens := by
  have hknown : (KNOWN.filter fun k => tokens.contains k).filter isGateway = [] := by
    rw [List.filter_eq_nil_iff]
    exact fun k hk hgateway => (carries_of_gateway hgateway).1 (List.mem_of_mem_filter hk)
  have hollama : (ollamaIds tokens).filter isGateway = [] := by
    rw [List.filter_eq_nil_iff]
    intro t ht hgateway
    have hin := (List.mem_filter.mp ((Distinct.firsts_sublist _ _).subset ht)).2
    rw [(carries_of_gateway hgateway).2] at hin
    cases hin
  have hgateways : (gatewayIds lower tokens).filter isGateway = gatewayIds lower tokens := by
    rw [List.filter_eq_self]
    intro t ht
    rw [mem_gatewayIds] at ht
    exact (List.mem_filter.mp ((Distinct.firsts_sublist _ _).subset ht)).2
  rw [panelOf, List.filter_append, List.filter_append, hknown, hollama, hgateways,
    List.nil_append, List.nil_append]

/-- The panel of a panel is the panel. -/
theorem panelOf_panelOf (lower : Str → Str) (tokens : List Str) :
    panelOf lower (panelOf lower tokens) = panelOf lower tokens := by
  have hknown : KNOWN.filter (fun k => (panelOf lower tokens).contains k) =
      KNOWN.filter (fun k => tokens.contains k) := by
    refine List.filter_congr fun k hk => ?_
    rw [Bool.eq_iff_iff, List.contains_iff_mem, List.contains_iff_mem]
    refine ⟨fun hmem => (of_mem_panelOf hmem).1, fun hmem => ?_⟩
    exact List.mem_append_left _ (List.mem_filter.mpr ⟨hk, List.contains_iff_mem.mpr hmem⟩)
  have hollama : ollamaIds (panelOf lower tokens) = ollamaIds tokens := by
    rw [ollamaIds, filter_ollama_panelOf]
    refine Distinct.firsts_eq_self ?_ fun _ _ => List.not_mem_nil
    exact Distinct.nodup_firsts _ _ _
  have hgateways : gatewayIds lower (panelOf lower tokens) = gatewayIds lower tokens := by
    have hnodup : ((gatewayIds lower tokens).map lower).Nodup :=
      Distinct.nodup_sorted exclusive_gateways (by decide) (Distinct.nodup_firsts _ _ _)
    rw [gatewayIds, filter_gateway_panelOf,
      Distinct.firsts_eq_self hnodup fun _ _ => List.not_mem_nil]
    exact Distinct.sorted_sorted exclusive_gateways (by decide) _
  conv_lhs => rw [panelOf, hknown, hollama, hgateways]
  rfl

theorem unknownOf_panelOf (lower : Str → Str) (tokens : List Str) :
    unknownOf (panelOf lower tokens) = [] := by
  rw [List.eq_nil_iff_forall_not_mem]
  intro t ht
  obtain ⟨hin, hunknown⟩ := mem_unknownOf.mp ht
  rw [(of_mem_panelOf hin).2] at hunknown
  cases hunknown

/-- What the two resolvers make of one list of tokens. -/
structure Agree [Host] (lower : Str → Str) (defaults : List Str) (models : List Json) : Prop where
  asked : ∀ t ∈ (resolve lower defaults models).1, t ∈ (resolveOrdered lower models).1
  found : ∀ t ∈ (resolveOrdered lower models).1,
    ∃ t' ∈ (resolve lower defaults models).1, SameModel lower t t'
  unknown : ∀ t, t ∈ (resolve lower defaults models).2 ↔ t ∈ (resolveOrdered lower models).2
  kept : ∀ m ∈ expandGroups lower models, strip m ≠ [] →
    (aliased (canon lower m) ∈ (resolveOrdered lower models).1 ∨
      aliased (canon lower m) ∈ (resolveOrdered lower models).2) ∧
    ((∃ t ∈ (resolve lower defaults models).1, SameModel lower (aliased (canon lower m)) t) ∨
      aliased (canon lower m) ∈ (resolve lower defaults models).2)
  once : (resolve lower defaults models).1.Nodup

theorem canon_ne_nil {lower : Str → Str} (h : Lowers lower) {m : Str} (hm : strip m ≠ []) :
    canon lower m ≠ [] := by
  unfold canon
  cases hfind : CASED.find? (· <+: lower (strip m)) with
  | none =>
    simp only [hfind]
    exact fun hnil => hm (h.nil _ hnil)
  | some marker =>
    simp only [hfind]
    have hcased := List.mem_of_find?_eq_some hfind
    exact List.append_ne_nil_of_left_ne_nil (gateway_ne_nil (gateway_of_cased hcased)) _

theorem agree_of_ne_nil [Host] {lower : Str → Str} (h : Lowers lower) (defaults : List Str)
    {models : List Json} (hne : models ≠ []) : Agree lower defaults models := by
  have hordered (t : Str) : (t ∈ (resolveOrdered lower models).1 ↔
      t ∈ requested lower models ∧ recognized t = true) ∧
      (t ∈ (resolveOrdered lower models).2 ↔
        t ∈ requested lower models ∧ recognized t = false) := by
    rw [requested_eq_stages]
    simp [resolveOrdered, List.mem_filter]
  have hresolve := resolve_eq lower defaults hne
  constructor
  · intro t ht
    rw [hresolve] at ht
    exact (hordered t).1.mpr (of_mem_panelOf ht)
  · intro t ht
    rw [hresolve]
    obtain ⟨hin, hrec⟩ := (hordered t).1.mp ht
    exact exists_on_panel h hin hrec
  · intro t
    rw [hresolve, (hordered t).2]
    exact mem_unknownOf
  · intro m hm hblank
    have hin : aliased (canon lower m) ∈ requested lower models := by
      refine List.mem_map_of_mem (List.mem_filter.mpr ⟨List.mem_map_of_mem hm, ?_⟩)
      simpa using canon_ne_nil h hblank
    rw [(hordered _).1, (hordered _).2, hresolve]
    cases hrec : recognized (aliased (canon lower m)) with
    | true => exact ⟨.inl ⟨hin, rfl⟩, .inl (exists_on_panel h hin hrec)⟩
    | false => exact ⟨.inr ⟨hin, rfl⟩, .inr (mem_unknownOf.mpr ⟨hin, hrec⟩)⟩
  · rw [hresolve]
    exact nodup_panelOf lower _

/-- For every list of tokens that is not empty, the two resolvers recognize the same models and
report the same unknown tokens, every token that is not blank ends up in a list of each, the
panel repeats nothing, and a panel that is not empty is resolved to itself. -/
theorem resolvers_agree [Host] {lower : Str → Str} (h : Lowers lower) (defaults : List Str)
    {models : List Json} (hne : models ≠ []) :
    Agree lower defaults models ∧
      ((resolve lower defaults models).1 ≠ [] →
        resolve lower defaults ((resolve lower defaults models).1.map .str) =
          ((resolve lower defaults models).1, [])) := by
  refine ⟨agree_of_ne_nil h defaults hne, fun hpanel => ?_⟩
  rw [resolve_eq lower defaults hne] at hpanel ⊢
  have hcanonical : ∀ t ∈ panelOf lower (requested lower models), Canonical lower t := fun t ht =>
    canonical_of_requested h (of_mem_panelOf ht).1 (of_mem_panelOf ht).2
  rw [resolve_eq lower defaults (by simpa using hpanel), requested_of_canonical hcanonical,
    panelOf_panelOf, unknownOf_panelOf]

/-! ### A lower-casing of ASCII -/

theorem lowerAscii_of_upper {c : Cp} (h : isUpper c = true) :
    65 ≤ c.val ∧ c.val ≤ 90 ∧ (lowerAscii c).val = c.val + 32 := by
  have hbounds : 65 ≤ c.val ∧ c.val ≤ 90 := by simpa [isUpper] using h
  refine ⟨hbounds.1, hbounds.2, ?_⟩
  rw [lowerAscii, if_pos h]
  exact Nat.mod_eq_of_lt (by omega)

theorem isSpace_lowerAscii (c : Cp) : isSpace (lowerAscii c) = isSpace c := by
  by_cases hupper : isUpper c = true
  · obtain ⟨hlow, hhigh, hval⟩ := lowerAscii_of_upper hupper
    have hbefore : isSpace c = false := by
      simp [isSpace]
      omega
    have hafter : isSpace (lowerAscii c) = false := by
      simp [isSpace, hval]
      omega
    rw [hbefore, hafter]
  · rw [lowerAscii, if_neg hupper]

theorem lowerAscii_lowerAscii (c : Cp) : lowerAscii (lowerAscii c) = lowerAscii c := by
  by_cases hupper : isUpper c = true
  · obtain ⟨hlow, hhigh, hval⟩ := lowerAscii_of_upper hupper
    have hnot : ¬isUpper (lowerAscii c) = true := by
      simp only [isUpper, hval, Bool.and_eq_true, decide_eq_true_eq]
      omega
    rw [lowerAscii, if_neg hnot]
  · have hsame : lowerAscii c = c := if_neg hupper
    rw [hsame, hsame]

theorem lowerAscii_lowers : Lowers fun s => s.map lowerAscii := by
  have hfixed : ∀ a, isLowerText a = true → a.map lowerAscii = a := by
    intro a ha
    refine (List.map_congr_left fun c hc => ?_).trans (List.map_id' a)
    have hc' := List.all_eq_true.mp ha c hc
    simp only [Bool.and_eq_true, Bool.not_eq_true'] at hc'
    simp [lowerAscii, hc'.2]
  have hspace : isSpace ∘ lowerAscii = isSpace := funext isSpace_lowerAscii
  refine ⟨?_, hfixed, ?_, ?_, ?_⟩
  · intro a s ha
    rw [List.map_append, hfixed a ha]
    exact List.prefix_append _ _
  · intro s
    rw [List.map_map]
    exact List.map_congr_left fun c _ => lowerAscii_lowerAscii c
  · intro s
    simp only [strip, List.dropWhile_map, hspace, List.rdropWhile,
      ← List.map_reverse]
  · intro s hs
    exact List.map_eq_nil_iff.mp hs

/-- A list of mixed casing, with a group, two spellings of an id, and a name nobody has. -/
theorem resolvers_agree_mixed :
    let : Host := Host.ascii
    let lower : Str → Str := fun s => s.map lowerAscii
    let models : List Json := [.str (txt "Twin"), .str (txt "atlas:Org/Model"),
      .str (txt "ATLAS:org/model"), .str (txt "nope")]
    Agree lower [txt "fable", txt "minimax"] models ∧
      resolve lower [txt "fable", txt "minimax"]
        ((resolve lower [txt "fable", txt "minimax"] models).1.map .str) =
          ((resolve lower [txt "fable", txt "minimax"] models).1, []) := by
  intro host lower models
  obtain ⟨hagree, hagain⟩ := resolvers_agree lowerAscii_lowers [txt "fable", txt "minimax"]
    (List.cons_ne_nil (Json.str (txt "Twin")) [.str (txt "atlas:Org/Model"),
      .str (txt "ATLAS:org/model"), .str (txt "nope")])
  exact ⟨hagree, hagain (by decide +kernel)⟩

/-- A list that names nothing resolves to an empty panel, and an empty list to the defaults. -/
theorem empty_panel_resolved :
    let : Host := Host.ascii
    let lower : Str → Str := fun s => s.map lowerAscii
    let defaults := [txt "fable", txt "minimax"]
    let panel := (resolve lower defaults [.str (txt "nope")]).1
    panel = [] ∧ resolve lower defaults (panel.map .str) = (defaults, []) ∧
      resolve lower defaults (panel.map .str) ≠ (panel, []) := by
  decide +kernel

end AskFable.Chain
