import AskFable.Lms.Ensure

/-!
# The fast path

`_quick_loaded` answers without the locks where the catalog alone decides. It knows all that
`_ensure_loaded_locked` checks before a load except the context ceiling of the host.
-/
namespace AskFable.Lms
open AskFable.Text AskFable.Journal

variable (site : Site) (w : World)

/-- `_quick_loaded` on what the catalog read came back with. -/
def quickOutcome (models : Option (List Entry)) (model : Str) (est : ℤ) : Option LoadOutcome :=
  match models with
  | none => some (unreachable site model)
  | some models =>
    match findModel site models model with
    | none => some (notFoundOutcome site models model)
    | some entry =>
      let maxContext := entry.maxContext.getD 0
      if isChat entry = false then
        some {
          kind := some .model_not_found
          detail := entry.key ++ txt " is a " ++
            (if entry.type = [] then txt "non-chat" else entry.type) ++
            txt " model, not a chat model"
          model := entry.key }
      else if maxContext ≠ 0 ∧ maxContext < neededContext est then
        some {
          kind := some .context_too_small
          detail := txt "prompt is ~" ++ intStr est ++ txt " tokens but " ++ entry.key ++
            txt " maxes out at " ++ intStr maxContext ++
            txt "; split the question or pack less context"
          model := entry.key }
      else if entry.loaded then
        -- the build did not report the window: none is made up
        if entry.window = 0 then some { model := entry.key, contextLength := 0 }
        else if neededContext est ≤ entry.window then
          some { model := entry.key, contextLength := entry.window }
        else none
      else none

/-- `_quick_loaded`. -/
def quickLoaded (model : Str) (est : ℤ) : Proc Event (Option LoadOutcome) := do
  let models ← modelsEntries w
  pure (quickOutcome site models model est)

/-- `_ensure_loaded_blocking`. -/
def ensureLoadedBlocking (model : Str) (est : ℤ) : Proc Event LoadOutcome := do
  match ← quickLoaded site w model est with
  | some o => pure o
  | none => ensureLoadedLocked site w model est

/-! ### The two ladders -/

/-- The kind, the model and the window are those of the other outcome. -/
def Agrees (o o' : LoadOutcome) : Prop :=
  o'.kind = o.kind ∧ o'.model = o.model ∧ o'.contextLength = o.contextLength

/-- The prompt needs more than the host's ceiling, and the model is resident with a window
that takes it, or that the build does not report. -/
def OverCeiling (models : Option (List Entry)) (model : Str) (est : ℤ) : Prop :=
  ∃ ms entry, models = some ms ∧ findModel site ms model = some entry ∧ isChat entry = true ∧
    (entry.maxContext.getD 0 = 0 ∨ neededContext est ≤ entry.maxContext.getD 0) ∧
    (contextCeiling site ≠ 0 ∧ contextCeiling site < neededContext est) ∧
    entry.loaded = true ∧ (entry.window = 0 ∨ neededContext est ≤ entry.window)

/-- What the catalog alone settles of the locked path: `none` where it goes on to a load, a
reload or the offer of one. -/
def settledByCatalog (models : Option (List Entry)) (model : Str) (est : ℤ) : Option LoadOutcome :=
  match models with
  | none => some (unreachable site model)
  | some models =>
    match findModel site models model with
    | none => some (notFoundOutcome site models model)
    | some entry =>
      match refusal site entry est with
      | some o => some o
      | none =>
        if entry.loaded = true ∧ (entry.window = 0 ∨ neededContext est ≤ entry.window) then
          some { model := entry.key, contextLength := entry.window }
        else none

theorem ensureLoadedLocked_settled {model : Str} {est : ℤ} {o : LoadOutcome}
    (h : settledByCatalog site (w.models 0) model est = some o) :
    (ensureLoadedLocked site w model est []).1 = o := by
  have hread : ensureLoadedLocked site w model est [] =
      (match w.models 0 with
        | none => pure (unreachable site model)
        | some models =>
          match findModel site models model with
          | none => pure (notFoundOutcome site models model)
          | some entry =>
            match refusal site entry est with
            | some o => pure o
            | none =>
              if entry.loaded then
                if entry.window = 0 ∨ neededContext est ≤ entry.window then
                  pure { model := entry.key, contextLength := entry.window }
                else if swapPolicy site ≠ .auto then
                  pure (tooSmallResident entry est
                    (desiredContext site est (entry.maxContext.getD 0)))
                else reload site w entry (desiredContext site est (entry.maxContext.getD 0))
              else loadBeside site w models entry est
                (desiredContext site est (entry.maxContext.getD 0)) : Proc Event LoadOutcome)
        [.read] := rfl
  rw [hread]
  unfold settledByCatalog at h
  cases hmodels : w.models 0 with
  | none =>
    rw [hmodels] at h
    exact Option.some.inj h
  | some models =>
    rw [hmodels] at h
    dsimp only at h ⊢
    cases hfind : findModel site models model with
    | none =>
      rw [hfind] at h
      exact Option.some.inj h
    | some entry =>
      rw [hfind] at h
      dsimp only at h ⊢
      cases hrefusal : refusal site entry est with
      | some refused =>
        rw [hrefusal] at h
        exact Option.some.inj h
      | none =>
        rw [hrefusal] at h
        dsimp only at h ⊢
        split_ifs at h with hfits
        rw [if_pos hfits.1, if_pos hfits.2]
        exact Option.some.inj h

/-- Below the ceiling the locked path settles whatever the fast path settles, as it does. -/
theorem settledByCatalog_agrees {models : Option (List Entry)} {model : Str} {est : ℤ}
    {o : LoadOutcome} (hquick : quickOutcome site models model est = some o)
    (hceiling : ¬OverCeiling site models model est) :
    ∃ o', settledByCatalog site models model est = some o' ∧ Agrees o o' := by
  have hsame {o : LoadOutcome} : Agrees o o := ⟨rfl, rfl, rfl⟩
  unfold quickOutcome at hquick
  unfold settledByCatalog
  cases models with
  | none => exact ⟨o, hquick, hsame⟩
  | some models =>
    dsimp only at hquick ⊢
    cases hfind : findModel site models model with
    | none =>
      rw [hfind] at hquick
      exact ⟨o, hquick, hsame⟩
    | some entry =>
      rw [hfind] at hquick
      dsimp only at hquick ⊢
      by_cases hchat : isChat entry = false
      · rw [if_pos hchat] at hquick
        exact ⟨o, by simp only [refusal, if_pos hchat, hquick], hsame⟩
      rw [if_neg hchat] at hquick
      by_cases hmax : entry.maxContext.getD 0 ≠ 0 ∧ entry.maxContext.getD 0 < neededContext est
      · rw [if_pos hmax] at hquick
        exact ⟨o, by simp only [refusal, if_neg hchat, if_pos hmax, hquick], hsame⟩
      rw [if_neg hmax] at hquick
      -- what is left of the fast path is a resident model with room for the prompt
      split_ifs at hquick with hloaded hzero hfits
      all_goals
        have hroom : entry.window = 0 ∨ neededContext est ≤ entry.window := by tauto
        have hbelow : ¬(contextCeiling site ≠ 0 ∧ contextCeiling site < neededContext est) :=
          fun hover => hceiling ⟨models, entry, rfl, hfind, by simpa using hchat, by omega, hover,
            hloaded, hroom⟩
        have hadmitted : refusal site entry est = none := by
          simp only [refusal, if_neg hchat, if_neg hmax, if_neg hbelow]
        rw [hadmitted]
        dsimp only
        rw [if_pos ⟨hloaded, hroom⟩]
        obtain rfl := Option.some.inj hquick
      · exact ⟨_, rfl, rfl, rfl, hzero⟩
      · exact ⟨_, rfl, hsame⟩

/-- Above it the fast path hands out the resident model, and the locked path refuses. -/
theorem OverCeiling.splits {models : Option (List Entry)} {model : Str} {est : ℤ}
    (h : OverCeiling site models model est) :
    ∃ o o', quickOutcome site models model est = some o ∧ o.kind = none ∧
      settledByCatalog site models model est = some o' ∧ o'.kind = some .context_too_small := by
  obtain ⟨ms, entry, rfl, hfind, hchat, hmax, hover, hloaded, hroom⟩ := h
  have hchat' : ¬isChat entry = false := by simp [hchat]
  have hmax' : ¬(entry.maxContext.getD 0 ≠ 0 ∧ entry.maxContext.getD 0 < neededContext est) := by
    omega
  have hquick : ∃ o, quickOutcome site (some ms) model est = some o ∧ o.kind = none := by
    simp only [quickOutcome, hfind, if_neg hchat', if_neg hmax', hloaded, if_true]
    by_cases hzero : entry.window = 0
    · exact ⟨_, by rw [if_pos hzero], rfl⟩
    · exact ⟨_, by rw [if_neg hzero, if_pos (hroom.resolve_left hzero)], rfl⟩
  have hlocked : ∃ o', settledByCatalog site (some ms) model est = some o' ∧
      o'.kind = some .context_too_small := by
    simp only [settledByCatalog, hfind, refusal, if_neg hchat', if_neg hmax', if_pos hover]
    exact ⟨_, rfl, rfl⟩
  obtain ⟨o, ho, hkind⟩ := hquick
  obtain ⟨o', ho', hkind'⟩ := hlocked
  exact ⟨o, o', ho, hkind, ho', hkind'⟩

/-- On one catalog the locked path comes to the kind, the model and the window of the fast
path's outcome, unless the prompt is over the host's ceiling and the model is resident. -/
theorem quick_agrees_iff (models : Option (List Entry)) (model : Str) (est : ℤ) :
    (∀ w : World, w.models 0 = models → ∀ o, (quickLoaded site w model est []).1 = some o →
        Agrees o (ensureLoadedLocked site w model est []).1) ↔
      ¬OverCeiling site models model est := by
  have hread (w : World) :
      (quickLoaded site w model est []).1 = quickOutcome site (w.models 0) model est := rfl
  constructor
  · intro h hover
    let w : World := ⟨false, Gpu.absent, fun _ => models, fun _ => .ok ⟨none, none⟩, fun _ => none,
      fun _ => false, fun _ => 0⟩
    obtain ⟨o, o', hquick, hkind, hlocked, hkind'⟩ := hover.splits
    obtain ⟨hagrees, -⟩ := h w rfl o hquick
    rw [ensureLoadedLocked_settled site w hlocked, hkind, hkind'] at hagrees
    nomatch hagrees
  · rintro hceiling w rfl o hquick
    obtain ⟨o', hlocked, hagrees⟩ :=
      settledByCatalog_agrees site ((hread w).symm.trans hquick) hceiling
    rwa [ensureLoadedLocked_settled site w hlocked]

/-- A host that caps the context at 4096, with `m` resident at 32768. -/
def Site.capped : Site := { Site.ascii (txt "never") with ceilings := [some 4096] }

def resident : World where
  monitors := false
  gpu := Gpu.absent
  models _ := some [⟨txt "m", txt "llm", none, none, true, none, some 32768⟩]
  load _ := .ok ⟨none, none⟩
  unload _ := none
  chatting _ := false
  polls _ := 0

theorem capped_resident_served :
    ¬∀ (site : Site) (w : World) (model : Str) (est : ℤ) (o : LoadOutcome),
      (quickLoaded site w model est []).1 = some o →
        Agrees o (ensureLoadedLocked site w model est []).1 := by
  intro h
  have hagrees := h .capped resident (txt "m") 4000
    { model := txt "m", contextLength := 32768 } (by decide)
  have hkind : (ensureLoadedLocked .capped resident (txt "m") 4000 []).1.kind =
      some .context_too_small := by decide
  rw [Agrees, hkind] at hagrees
  nomatch hagrees.1

end AskFable.Lms
