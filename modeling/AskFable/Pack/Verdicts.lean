import AskFable.General.Keyed
import AskFable.General.Sorting
import AskFable.Pack.Resolver
import Mathlib.Data.List.Induction

/-!
# Every spec is accounted for

Each resolved spec is tried once, dropped as a duplicate, or dropped as a range of a file that
went in as a whole. The verdicts are read off the loop in the order of the trials; what `pack`
returns is these verdicts put into input order.
-/
namespace AskFable.Pack
open AskFable.Text AskFable.Python

/-- How a spec ends. -/
inductive Fate
  | included (r : Resolved) (content : Str)
  | skipped (reason : Reason)
  | duplicate
  | covered

namespace Fate

def isIncluded : Fate → Bool
  | included .. => true
  | _ => false

/-- A spec that was tried went in or was refused. -/
def tried : Fate → Bool
  | included .. => true
  | skipped _ => true
  | _ => false

def block? : Fate → Option Str
  | included r content => some (blockOf r content)
  | _ => none

/-- The entry in `included`. -/
def included? (spec : Str) : Fate → Option Included
  | included r content => some ⟨spec, r.relPath, (blockOf r content).length⟩
  | _ => none

/-- The entry in `skipped`. -/
def skipped? (spec : Str) : Fate → Option Skip
  | skipped reason => some ⟨spec, reason⟩
  | _ => none

def admitted? (it : Item) (f : Fate) : Option Admitted :=
  f.block?.bind fun block => (f.included? it.spec).map fun info => ⟨it.idx, block, info⟩

end Fate

/-! ### Duplicates -/

section
variable {items : List Item}

/-- No earlier item asks for the same. -/
def isFirst (items : List Item) (it : Item) : Bool :=
  items.all fun j => !(j.idx < it.idx && j.resolved.sig == it.resolved.sig)

theorem isFirst_iff {it : Item} :
    isFirst items it = true ↔ ∀ j ∈ items, j.idx < it.idx → j.resolved.sig ≠ it.resolved.sig := by
  simp [isFirst, imp_iff_not_or]

/-- The items in input order. -/
def Ordered (items : List Item) : Prop := (items.map Item.idx).Pairwise (· < ·)

theorem Ordered.nodup (h : Ordered items) : items.Nodup :=
  List.Nodup.of_map _ (h.imp fun hlt => Nat.ne_of_lt hlt)

theorem Ordered.concat {it : Item} (h : Ordered (items ++ [it])) :
    Ordered items ∧ ∀ j ∈ items, j.idx < it.idx := by
  simp only [Ordered, List.map_append, List.pairwise_append] at h
  exact ⟨h.1, fun j hj => h.2.2 _ (List.mem_map_of_mem hj) _ (by simp)⟩

def firsts (items : List Item) : List Item := items.filter (isFirst items)

theorem firsts_concat {it : Item} (h : Ordered (items ++ [it])) :
    firsts (items ++ [it]) = firsts items ++
      if it.resolved.sig ∈ items.map fun j => j.resolved.sig then [] else [it] := by
  obtain ⟨-, hbefore⟩ := h.concat
  have hold : items.filter (isFirst (items ++ [it])) = items.filter (isFirst items) := by
    refine List.filter_congr fun j hj => ?_
    have hnot : ¬it.idx < j.idx := Nat.not_lt.mpr (Nat.le_of_lt (hbefore j hj))
    simp [isFirst, hnot]
  have hnew : isFirst (items ++ [it]) it = true ↔
      it.resolved.sig ∉ items.map fun j => j.resolved.sig := by
    rw [isFirst_iff]
    constructor
    · intro hfirst hmem
      obtain ⟨j, hj, hsig⟩ := List.mem_map.mp hmem
      exact hfirst j (List.mem_append_left _ hj) (hbefore j hj) hsig
    · intro hmem j hj hlt hsig
      obtain hj | hj := List.mem_append.mp hj
      · exact hmem (List.mem_map.mpr ⟨j, hj, hsig⟩)
      · obtain rfl := List.mem_singleton.mp hj
        exact Nat.lt_irrefl _ hlt
  rw [firsts, List.filter_append, hold, firsts, List.filter_singleton]
  by_cases hmem : it.resolved.sig ∈ items.map fun j => j.resolved.sig
  · have : isFirst (items ++ [it]) it = false := by
      rw [← Bool.not_eq_true, hnew]
      exact fun h => h hmem
    simp only [this, hmem, if_true, cond_false]
  · simp only [hnew.mpr hmem, hmem, if_false, cond_true]

theorem mem_sigs_firsts (h : Ordered items) (x : Str × Option (ℕ × ℕ)) :
    (x ∈ (firsts items).map fun j => j.resolved.sig) ↔ x ∈ items.map fun j => j.resolved.sig := by
  induction items using List.reverseRecOn with
  | nil => rfl
  | append_singleton items it ih =>
    have ih := ih h.concat.1
    rw [firsts_concat h, List.map_append, List.mem_append, ih, List.map_append, List.mem_append]
    split_ifs with hmem
    · simp only [List.map_nil, List.not_mem_nil, or_false, List.map_cons, List.mem_singleton]
      exact ⟨Or.inl, fun hx => hx.elim id fun hx => hx ▸ hmem⟩
    · rfl

theorem nodup_sigs_firsts (h : Ordered items) :
    ((firsts items).map fun j => j.resolved.sig).Nodup := by
  induction items using List.reverseRecOn with
  | nil => exact List.nodup_nil
  | append_singleton items it ih =>
    rw [firsts_concat h, List.map_append]
    split_ifs with hmem
    · simpa using ih h.concat.1
    · refine (ih h.concat.1).append (by simp) ?_
      rw [← mem_sigs_firsts h.concat.1] at hmem
      simpa using hmem

/-- A range of a file that is asked for as a whole. -/
def isHeld (whole : List Str) (it : Item) : Bool :=
  it.resolved.range.isSome && it.resolved.absPath ∈ whole

/-- The loop of `_dedupe` splits the first items of each kind. -/
theorem keepOrHold_foldl (whole : List Str) (h : Ordered items) :
    let d := items.foldl (keepOrHold whole) ⟨[], [], fun _ => []⟩
    (∀ x, x ∈ d.seen ↔ x ∈ items.map fun j => j.resolved.sig) ∧
      d.out = (firsts items).filter (fun it => !isHeld whole it) ∧
      ∀ p, d.held p =
        (firsts items).filter fun it => isHeld whole it && it.resolved.absPath = p := by
  induction items using List.reverseRecOn with
  | nil => exact ⟨by simp, rfl, fun _ => rfl⟩
  | append_singleton items it ih =>
    obtain ⟨hseen, hout, hheld⟩ := ih h.concat.1
    simp only [List.foldl_append, List.foldl_cons, List.foldl_nil]
    rw [firsts_concat h]
    generalize items.foldl (keepOrHold whole) ⟨[], [], fun _ => []⟩ = d at hseen hout hheld ⊢
    simp only [keepOrHold, hseen]
    by_cases hmem : it.resolved.sig ∈ items.map fun j => j.resolved.sig
    · simp only [hmem, if_true, List.append_nil]
      refine ⟨fun x => ?_, hout, hheld⟩
      rw [hseen, List.map_append, List.mem_append, List.map_singleton, List.mem_singleton]
      exact ⟨Or.inl, fun hx => hx.elim id fun hx => hx ▸ hmem⟩
    · simp only [hmem, if_false, List.filter_append]
      by_cases hhold : it.resolved.range.isSome = true ∧ it.resolved.absPath ∈ whole
      · have hb : isHeld whole it = true := by simpa [isHeld] using hhold
        simp only [hhold, and_self, if_true]
        refine ⟨fun x => ?_, ?_, fun p => ?_⟩
        · simp [hseen, or_comm]
        · simp [hout, hb]
        · by_cases hp : p = it.resolved.absPath
          · simp [hp, hheld, hb]
          · simp [hp, hheld, hb, Ne.symm hp]
      · have hb : isHeld whole it = false := by
          rw [← Bool.not_eq_true]
          simpa [isHeld] using hhold
        rw [if_neg hhold]
        refine ⟨fun x => ?_, ?_, fun p => ?_⟩
        · simp [hseen, or_comm]
        · simp [hout, hb]
        · simp [hheld, hb]

end

/-! ### Trials -/

/-- What the verdicts `vs` make of the packing. -/
structure Judged (lim : Limits) (s s' : Packing) (vs : List (Item × Fate)) : Prop where
  admitted : s'.admitted = s.admitted ++ vs.filterMap fun v => v.2.admitted? v.1
  skipped : s'.skipped = s.skipped ++ vs.filterMap fun v => v.2.skipped? v.1.spec
  content : ∀ it r content, (it, Fate.included r content) ∈ vs →
    r = it.resolved ∧ ∃ n, lim.read r = .ok (content, n)

namespace Judged

variable {lim : Limits} {s s' s'' : Packing} {vs ws : List (Item × Fate)}

theorem nil (lim : Limits) (s : Packing) : Judged lim s s [] := ⟨by simp, by simp, by simp⟩

theorem append (h : Judged lim s s' vs) (h' : Judged lim s' s'' ws) :
    Judged lim s s'' (vs ++ ws) where
  admitted := by rw [h'.admitted, h.admitted, List.filterMap_append, List.append_assoc]
  skipped := by rw [h'.skipped, h.skipped, List.filterMap_append, List.append_assoc]
  content it r content hmem :=
    (List.mem_append.mp hmem).elim (h.content it r content) (h'.content it r content)

/-- Only the admitted and the skipped matter. -/
theorem of_eq (h : Judged lim s s' vs) (hadmitted : s''.admitted = s'.admitted)
    (hskipped : s''.skipped = s'.skipped) : Judged lim s s'' vs :=
  ⟨hadmitted.trans h.admitted, hskipped.trans h.skipped, h.content⟩

theorem skip (lim : Limits) (s : Packing) (it : Item) (reason : Reason) (total : ℕ)
    (stopped : Bool) :
    Judged lim s ⟨s.admitted, total, stopped, s.skipped ++ [⟨it.spec, reason⟩]⟩
      [(it, .skipped reason)] :=
  ⟨by simp [Fate.admitted?, Fate.block?], by simp [Fate.skipped?], by simp⟩

/-- Ranges dropped with their file leave no trace. -/
theorem covered (lim : Limits) (s : Packing) (its : List Item) :
    Judged lim s s (its.map fun it => (it, .covered)) := by
  refine ⟨?_, ?_, by simp⟩ <;>
    simp [List.filterMap_map, Fate.admitted?, Fate.block?, Fate.skipped?]

end Judged

/-- A trial puts the block in, or leaves everything as it was and says why. -/
theorem admitBlock_cases (lim : Limits) (s : Packing) (it : Item) :
    (∃ reason, admitBlock lim s it = (s, some reason)) ∨
      ∃ s' content, admitBlock lim s it = (s', none) ∧
        Judged lim s s' [(it, .included it.resolved content)] := by
  unfold admitBlock
  split_ifs
  · exact .inl ⟨_, rfl⟩
  · exact .inl ⟨_, rfl⟩
  · cases hread : lim.read it.resolved with
    | error reason => exact .inl ⟨reason, rfl⟩
    | ok found =>
      obtain ⟨content, n⟩ := found
      simp only
      split_ifs
      · exact .inl ⟨_, rfl⟩
      · refine .inr ⟨_, content, rfl, ?_, ?_, ?_⟩
        · simp [Fate.admitted?, Fate.block?, Fate.included?]
        · simp [Fate.skipped?]
        · intro it' r content' hmem
          simp only [List.mem_singleton, Prod.mk.injEq, Fate.included.injEq] at hmem
          obtain ⟨rfl, rfl, rfl⟩ := hmem
          exact ⟨rfl, n, hread⟩

theorem tryHeld_judged (lim : Limits) (s : Packing) (it : Item) :
    ∃ f : Fate, f.tried = true ∧ Judged lim s (tryHeld lim s it) [(it, f)] := by
  unfold tryHeld
  obtain ⟨reason, h⟩ | ⟨s', content, h, hj⟩ := admitBlock_cases lim s it
  · rw [h]
    exact ⟨.skipped reason, rfl, Judged.skip lim s it reason _ _⟩
  · rw [h]
    exact ⟨_, rfl, hj⟩

theorem foldl_tryHeld_judged (lim : Limits) (its : List Item) (s : Packing) :
    ∃ vs : List (Item × Fate), vs.map Prod.fst = its ∧ (∀ v ∈ vs, v.2.tried = true) ∧
      Judged lim s (its.foldl (tryHeld lim) s) vs := by
  induction its generalizing s with
  | nil => exact ⟨[], rfl, by simp, Judged.nil lim s⟩
  | cons it its ih =>
    obtain ⟨f, hf, hj⟩ := tryHeld_judged lim s it
    obtain ⟨vs, hfst, htried, hjs⟩ := ih (tryHeld lim s it)
    exact ⟨(it, f) :: vs, by rw [List.map_cons, hfst], List.forall_mem_cons.mpr ⟨hf, htried⟩,
      hj.append hjs⟩

/-- The verdicts on an item and on the ranges held back for its file: they go down with the
file when it goes in, and are tried when it does not. -/
structure Handed (held : Str → List Item) (it : Item) (vs : List (Item × Fate)) : Prop where
  items : vs.map Prod.fst = it :: held it.resolved.absPath
  verdict : ∃ f, (it, f) ∈ vs ∧ f.tried = true ∧ ∀ h ∈ held it.resolved.absPath,
    ∃ f', (h, f') ∈ vs ∧ if f.isIncluded then f' = .covered else f'.tried = true

theorem consider_judged (lim : Limits) (held : Str → List Item) (s : Packing) (it : Item) :
    ∃ vs, Handed held it vs ∧ Judged lim s (consider lim held s it) vs := by
  unfold consider
  obtain ⟨reason, h⟩ | ⟨s', content, h, hj⟩ := admitBlock_cases lim s it
  · rw [h]
    obtain ⟨vs, hfst, htried, hjs⟩ := foldl_tryHeld_judged lim (held it.resolved.absPath)
      ⟨s.admitted, s.total, s.stopped, s.skipped ++ [⟨it.spec, reason⟩]⟩
    refine ⟨(it, .skipped reason) :: vs, ⟨by rw [List.map_cons, hfst], .skipped reason,
      List.mem_cons_self, rfl, fun j hmem => ?_⟩,
      ((Judged.skip lim s it reason _ _).append hjs).of_eq rfl rfl⟩
    rw [← hfst] at hmem
    obtain ⟨v, hv, rfl⟩ := List.mem_map.mp hmem
    exact ⟨v.2, List.mem_cons_of_mem _ hv, htried v hv⟩
  · rw [h]
    refine ⟨(it, .included it.resolved content) ::
      (held it.resolved.absPath).map fun j => (j, .covered), ⟨by simp [Function.comp_def],
      .included it.resolved content, List.mem_cons_self, rfl, fun j hmem => ?_⟩,
      hj.append (Judged.covered lim s' _)⟩
    exact ⟨.covered, List.mem_cons_of_mem _ (List.mem_map.mpr ⟨j, hmem, rfl⟩), rfl⟩

/-- The verdicts of the whole loop. -/
theorem foldl_consider_judged (lim : Limits) (held : Str → List Item) (its : List Item)
    (s : Packing) :
    ∃ vs, vs.map Prod.fst = its.flatMap (fun it => it :: held it.resolved.absPath) ∧
      (∀ it ∈ its, ∃ ws ⊆ vs, Handed held it ws) ∧
      Judged lim s (its.foldl (consider lim held) s) vs := by
  induction its generalizing s with
  | nil => exact ⟨[], rfl, by simp, Judged.nil lim s⟩
  | cons it its ih =>
    obtain ⟨ws, hws, hj⟩ := consider_judged lim held s it
    obtain ⟨vs, hfst, hvs, hjs⟩ := ih (consider lim held s it)
    refine ⟨ws ++ vs, by rw [List.map_append, hws.items, hfst, List.flatMap_cons],
      List.forall_mem_cons.mpr ⟨⟨ws, List.subset_append_left _ _, hws⟩, fun j hj => ?_⟩,
      hj.append hjs⟩
    obtain ⟨ws', hsub, hws'⟩ := hvs j hj
    exact ⟨ws', List.Subset.trans hsub (List.subset_append_right _ _), hws'⟩

/-! ### Each first item is tried or dropped once -/

section
variable {items : List Item}

theorem mem_order (h : Ordered items) (it : Item) :
    it ∈ order items ↔ it ∈ firsts items ∧ isHeld (wholes items) it = false := by
  obtain ⟨-, hout, -⟩ := keepOrHold_foldl (wholes items) h
  rw [order, List.mem_insertionSort, dedupe, hout]
  simp

theorem mem_held (h : Ordered items) (p : Str) (it : Item) :
    it ∈ (dedupe items).held p ↔
      it ∈ firsts items ∧ isHeld (wholes items) it = true ∧ it.resolved.absPath = p := by
  obtain ⟨-, -, hheld⟩ := keepOrHold_foldl (wholes items) h
  rw [dedupe, hheld]
  simp

theorem mem_wholes (p : Str) :
    p ∈ wholes items ↔ ∃ w ∈ items, w.resolved.range = none ∧ w.resolved.absPath = p := by
  simp [wholes, and_assoc]

theorem eq_of_sig (h : Ordered items) {a b : Item} (ha : a ∈ firsts items)
    (hb : b ∈ firsts items) (hsig : a.resolved.sig = b.resolved.sig) : a = b :=
  List.inj_on_of_nodup_map (nodup_sigs_firsts h) ha hb hsig

/-- What is tried for a file that is asked for as a whole is the file. -/
theorem range_of_mem_order (h : Ordered items) {it : Item} (hit : it ∈ order items)
    (hwhole : it.resolved.absPath ∈ wholes items) : it.resolved.range = none := by
  have hheld := ((mem_order h it).mp hit).2
  simpa [isHeld, hwhole] using hheld

theorem whole_of_held {it : Item} (hit : isHeld (wholes items) it = true) :
    it.resolved.range.isSome = true ∧ it.resolved.absPath ∈ wholes items := by
  simpa [isHeld] using hit

/-- The file of a held range is tried. -/
theorem exists_main (h : Ordered items) {it : Item} (hit : isHeld (wholes items) it = true) :
    ∃ w ∈ order items, w.resolved.range = none ∧ w.resolved.absPath = it.resolved.absPath := by
  obtain ⟨w, hw, hrange, hpath⟩ := (mem_wholes _).mp (whole_of_held hit).2
  obtain ⟨w', hw', hsig⟩ := List.mem_map.mp
    ((mem_sigs_firsts h w.resolved.sig).mpr (List.mem_map.mpr ⟨w, hw, rfl⟩))
  have hrange' : w'.resolved.range = none := (congrArg Prod.snd hsig).trans hrange
  have hpath' : w'.resolved.absPath = it.resolved.absPath := (congrArg Prod.fst hsig).trans hpath
  exact ⟨w', (mem_order h w').mpr ⟨hw', by simp [isHeld, hrange']⟩, hrange', hpath'⟩

/-- The items in the order in which the loop comes to them. -/
def trials (items : List Item) : List Item :=
  (order items).flatMap fun it => it :: (dedupe items).held it.resolved.absPath

theorem mem_trials (h : Ordered items) (it : Item) : it ∈ trials items ↔ it ∈ firsts items := by
  rw [trials, List.mem_flatMap]
  constructor
  · rintro ⟨w, hw, hmem⟩
    obtain rfl | hmem := List.mem_cons.mp hmem
    · exact ((mem_order h it).mp hw).1
    · exact ((mem_held h _ it).mp hmem).1
  · intro hit
    cases hheld : isHeld (wholes items) it with
    | false => exact ⟨it, (mem_order h it).mpr ⟨hit, hheld⟩, List.mem_cons_self⟩
    | true =>
      obtain ⟨w, hw, -, hpath⟩ := exists_main h hheld
      exact ⟨w, hw, List.mem_cons_of_mem _ ((mem_held h _ it).mpr ⟨hit, hheld, hpath.symm⟩)⟩

theorem nodup_trials (h : Ordered items) : (trials items).Nodup := by
  obtain ⟨-, hout, hheld⟩ := keepOrHold_foldl (wholes items) h
  have hfirsts : (firsts items).Nodup := h.nodup.filter _
  have horder : (order items).Nodup := by
    rw [order, (List.perm_insertionSort _ _).nodup_iff, dedupe, hout]
    exact hfirsts.filter _
  have hne {a b : Item} (ha : a ∈ order items) (hb : b ∈ (dedupe items).held b.resolved.absPath) :
      a ≠ b := by
    rintro rfl
    have := ((mem_held h _ a).mp hb).2.1
    rw [((mem_order h a).mp ha).2] at this
    exact absurd this Bool.false_ne_true
  have hself {p : Str} {b : Item} (hb : b ∈ (dedupe items).held p) :
      b ∈ (dedupe items).held b.resolved.absPath := by
    rw [((mem_held h _ b).mp hb).2.2]
    exact hb
  refine List.nodup_flatMap.mpr ⟨fun w hw => ?_, ?_⟩
  · refine List.nodup_cons.mpr ⟨fun hmem => hne hw (hself hmem) rfl, ?_⟩
    rw [dedupe, hheld]
    exact hfirsts.filter _
  · refine List.Pairwise.imp_of_mem ?_ horder
    intro a b ha hb hab
    refine List.disjoint_left.mpr fun x hxa hxb => ?_
    obtain rfl | hxa := List.mem_cons.mp hxa <;> obtain rfl | hxb := List.mem_cons.mp hxb
    · exact hab rfl
    · exact hne ha (hself hxb) rfl
    · exact hne hb (hself hxa) rfl
    · -- A range held back for both would make them one and the same file.
      obtain ⟨-, hheldx, hpa⟩ := (mem_held h _ x).mp hxa
      obtain ⟨-, -, hpb⟩ := (mem_held h _ x).mp hxb
      have hwhole := (whole_of_held hheldx).2
      have hsig : a.resolved.sig = b.resolved.sig := by
        simp only [Resolved.sig, range_of_mem_order h ha (hpa ▸ hwhole),
          range_of_mem_order h hb (hpb ▸ hwhole), ← hpa, ← hpb]
      exact hab (eq_of_sig h ((mem_order h a).mp ha).1 ((mem_order h b).mp hb).1 hsig)

theorem trials_perm (h : Ordered items) : (trials items).Perm (firsts items) :=
  (List.perm_ext_iff_of_nodup (nodup_trials h) (h.nodup.filter _)).mpr (mem_trials h)

end

/-! ### The fates of the items -/

section
variable {items : List Item}

/-- The verdicts on all items: what is no first item has none, and is a duplicate. -/
def fateIn (vs : List (Item × Fate)) (it : Item) : Fate := (vs.lookup it).getD .duplicate

/-- The fates of a packing of `items` that had skipped `skipped` before. -/
structure Assigned (lim : Limits) (items : List Item) (skipped : List Skip) (s : Packing)
    (fate : Item → Fate) : Prop where
  admitted : s.admitted.Perm (items.filterMap fun it => (fate it).admitted? it)
  skipped : s.skipped.Perm (skipped ++ items.filterMap fun it => (fate it).skipped? it.spec)
  content : ∀ it r content, fate it = .included r content →
    r = it.resolved ∧ ∃ n, lim.read r = .ok (content, n)
  duplicate : ∀ it ∈ items, fate it = .duplicate ↔ isFirst items it = false
  covered : ∀ it ∈ items, fate it = .covered ↔ isFirst items it = true ∧
    it.resolved.range.isSome = true ∧ ∃ w ∈ items, w.resolved.range = none ∧
      w.resolved.absPath = it.resolved.absPath ∧ (fate w).isIncluded = true

theorem fateIn_of_not_first {vs : List (Item × Fate)} (h : Ordered items)
    (hvs : vs.map Prod.fst = trials items) {it : Item} (hfirst : isFirst items it ≠ true) :
    fateIn vs it = .duplicate := by
  have hnone : vs.lookup it = none := by
    rw [List.lookup_eq_none_iff]
    intro v hv
    have hmem : v.1 ∈ firsts items := (mem_trials h _).mp (hvs ▸ List.mem_map_of_mem hv)
    have hne : it ≠ v.1 := fun heq => hfirst (heq ▸ (List.mem_filter.mp hmem).2)
    simpa using hne
  rw [fateIn, hnone, Option.getD_none]

theorem filterMap_fateIn {β : Type*} {vs : List (Item × Fate)} (h : Ordered items)
    (hvs : vs.map Prod.fst = trials items) {g : Item → Fate → Option β}
    (hg : ∀ it, g it .duplicate = none) :
    (vs.filterMap fun v => g v.1 v.2).Perm (items.filterMap fun it => g it (fateIn vs it)) := by
  have hnodup : (vs.map Prod.fst).Nodup := hvs ▸ nodup_trials h
  have hvs' : vs.filterMap (fun v => g v.1 v.2) =
      (trials items).filterMap fun it => g it (fateIn vs it) := by
    rw [← hvs, List.filterMap_map]
    refine List.filterMap_congr fun v hv => ?_
    simp [fateIn, Keyed.lookup_of_mem hnodup (k := v.1) (a := v.2) hv]
  have hfirsts : (firsts items).filterMap (fun it => g it (fateIn vs it)) =
      items.filterMap fun it => g it (fateIn vs it) := by
    rw [firsts, List.filterMap_filter]
    refine List.filterMap_congr fun it hit => ?_
    by_cases hfirst : isFirst items it = true
    · rw [if_pos hfirst]
    · rw [if_neg hfirst, fateIn_of_not_first h hvs hfirst, hg]
  rw [hvs', ← hfirsts]
  exact (trials_perm h).filterMap _

/-- What the loop decides: what is no first item is a duplicate, what the loop comes to is
tried, and a range held back goes down with its file or is tried. -/
structure Decided (items : List Item) (fate : Item → Fate) : Prop where
  dropped : ∀ it, isFirst items it ≠ true → fate it = .duplicate
  main : ∀ it ∈ order items, (fate it).tried = true
  held : ∀ w ∈ order items, ∀ it ∈ (dedupe items).held w.resolved.absPath,
    if (fate w).isIncluded then fate it = .covered else (fate it).tried = true

theorem decided_fateIn {vs : List (Item × Fate)} (h : Ordered items)
    (hvs : vs.map Prod.fst = trials items)
    (hgroups : ∀ it ∈ order items, ∃ ws ⊆ vs, Handed (dedupe items).held it ws) :
    Decided items (fateIn vs) := by
  have hnodup : (vs.map Prod.fst).Nodup := hvs ▸ nodup_trials h
  have hfate {it : Item} {f : Fate} (hmem : (it, f) ∈ vs) : fateIn vs it = f := by
    rw [fateIn, Keyed.lookup_of_mem hnodup hmem, Option.getD_some]
  refine ⟨fun it => fateIn_of_not_first h hvs, fun it hit => ?_, fun w hw it hit => ?_⟩
  · obtain ⟨ws, hsub, hws⟩ := hgroups it hit
    obtain ⟨f, hf, htried, -⟩ := hws.verdict
    rwa [hfate (hsub hf)]
  · obtain ⟨ws, hsub, hws⟩ := hgroups w hw
    obtain ⟨f, hf, -, hheld⟩ := hws.verdict
    obtain ⟨f', hf', hverdict⟩ := hheld it hit
    rwa [hfate (hsub hf), hfate (hsub hf')]

section
variable {fate : Item → Fate} (hd : Decided items fate) (h : Ordered items)
include hd h

theorem Decided.verdict {it w : Item} (hit : it ∈ firsts items)
    (hh : isHeld (wholes items) it = true) (hw : w ∈ order items)
    (hpath : w.resolved.absPath = it.resolved.absPath) :
    if (fate w).isIncluded then fate it = .covered else (fate it).tried = true :=
  hd.held w hw it ((mem_held h _ it).mpr ⟨hit, hh, hpath.symm⟩)

/-- A first item that no file holds back is tried. -/
theorem Decided.tried {it : Item} (hit : it ∈ firsts items)
    (hh : isHeld (wholes items) it = false) : (fate it).tried = true :=
  hd.main it ((mem_order h it).mpr ⟨hit, hh⟩)

theorem Decided.duplicate_iff {it : Item} (hit : it ∈ items) :
    fate it = .duplicate ↔ isFirst items it = false := by
  refine ⟨fun hdup => ?_, fun hfirst => hd.dropped it (by simp [hfirst])⟩
  by_contra hfirst
  have hfst : it ∈ firsts items := List.mem_filter.mpr ⟨hit, by simpa using hfirst⟩
  cases hh : isHeld (wholes items) it with
  | false =>
    have := hd.tried h hfst hh
    rw [hdup] at this
    exact absurd this Bool.false_ne_true
  | true =>
    obtain ⟨w, hw, -, hpath⟩ := exists_main h hh
    have := hd.verdict h hfst hh hw hpath
    rw [hdup] at this
    split_ifs at this
    exact absurd this Bool.false_ne_true

/-- A covered item is a range held back for a file that went in. -/
theorem Decided.of_covered {it : Item} (hit : it ∈ items) (hcov : fate it = .covered) :
    isFirst items it = true ∧ it.resolved.range.isSome = true ∧ ∃ w ∈ items,
      w.resolved.range = none ∧ w.resolved.absPath = it.resolved.absPath ∧
        (fate w).isIncluded = true := by
  have hfirst : isFirst items it = true := by
    by_contra hne
    have := (hd.duplicate_iff h hit).mpr (by simpa using hne)
    rw [hcov] at this
    exact Fate.noConfusion this
  have hfst : it ∈ firsts items := List.mem_filter.mpr ⟨hit, hfirst⟩
  have hh : isHeld (wholes items) it = true := by
    by_contra hne
    have := hd.tried h hfst (by simpa using hne)
    rw [hcov] at this
    exact absurd this Bool.false_ne_true
  obtain ⟨w, hw, hrange, hpath⟩ := exists_main h hh
  refine ⟨hfirst, (whole_of_held hh).1, w,
    (List.mem_filter.mp ((mem_order h w).mp hw).1).1, hrange, hpath, ?_⟩
  by_contra hinc
  have := hd.verdict h hfst hh hw hpath
  rw [if_neg hinc, hcov] at this
  exact absurd this Bool.false_ne_true

theorem Decided.covered {it w : Item} (hit : it ∈ items) (hfirst : isFirst items it = true)
    (hrange : it.resolved.range.isSome = true) (hw : w ∈ items) (hwrange : w.resolved.range = none)
    (hpath : w.resolved.absPath = it.resolved.absPath) (hinc : (fate w).isIncluded = true) :
    fate it = .covered := by
  have hwfirst : w ∈ firsts items := by
    refine List.mem_filter.mpr ⟨hw, ?_⟩
    by_contra hne
    rw [hd.dropped w hne] at hinc
    exact absurd hinc Bool.false_ne_true
  have hworder : w ∈ order items := (mem_order h w).mpr ⟨hwfirst, by simp [isHeld, hwrange]⟩
  have hh : isHeld (wholes items) it = true := by
    have hwhole : it.resolved.absPath ∈ wholes items :=
      (mem_wholes _).mpr ⟨w, hw, hwrange, hpath⟩
    simp [isHeld, hrange, hwhole]
  have := hd.verdict h (List.mem_filter.mpr ⟨hit, hfirst⟩) hh hworder hpath
  rwa [if_pos hinc] at this

end

theorem exists_assigned (lim : Limits) (h : Ordered items) (skipped : List Skip) :
    ∃ fate, Assigned lim items skipped
      ((order items).foldl (consider lim (dedupe items).held) ⟨[], 0, false, skipped⟩) fate := by
  obtain ⟨vs, hvs, hgroups, hj⟩ := foldl_consider_judged lim (dedupe items).held (order items)
    ⟨[], 0, false, skipped⟩
  have hd : Decided items (fateIn vs) := decided_fateIn h hvs hgroups
  refine ⟨fateIn vs, ?_, ?_, fun it r content hit => ?_, fun it hit => hd.duplicate_iff h hit,
    fun it hit => ⟨hd.of_covered h hit, ?_⟩⟩
  · rw [hj.admitted, List.nil_append]
    exact filterMap_fateIn h hvs (g := fun it f => f.admitted? it) fun it => rfl
  · rw [hj.skipped]
    exact (filterMap_fateIn h hvs (g := fun it f => f.skipped? it.spec) fun it => rfl).append_left _
  · cases hlook : vs.lookup it with
    | none => simp [fateIn, hlook] at hit
    | some f =>
      rw [fateIn, hlook, Option.getD_some] at hit
      exact hj.content it r content (hit ▸ Keyed.mem_of_lookup hlook)
  · rintro ⟨hfirst, hrange, w, hw, hwrange, hpath, hinc⟩
    exact hd.covered h hit hfirst hrange hw hwrange hpath hinc

end

end AskFable.Pack
