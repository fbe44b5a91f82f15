import AskFable.Gate.Calls

/-!
# No slot is lost and no child left behind

In every order of steps a slot is in its semaphore or with one call, and only a call with a
slot has a live child. Once the caller has killed, the child can only be one that the worker
has started and not yet put into the handle; putting it there kills it.
-/
namespace AskFable.Gate
open AskFable.Text AskFable.Python AskFable.Machine AskFable.Permits

/-- The worker has not come to `Popen`. -/
def Stage.before : Stage → Bool
  | ready | queued _ | holding _ | spawning _ => true
  | spawned _ | running _ | leaving .. | ended _ => false

/-- What the worker returns, from where it is known. -/
def Stage.result : Stage → Option CliRun
  | leaving _ run | ended run => some run
  | ready | queued _ | holding _ | spawning _ | spawned _ | running _ => none

/-- What a result says of the child. -/
structure CliRun.Fits (run : CliRun) (child : Child) : Prop where
  quiet : child ≠ .live
  queued : run.queueTimedOut = true → child = .absent
  returned : run.returncode.isSome = true → child = .dead

/-- A child is started once, is in the handle from `set` on, and ends before its call does. -/
structure Call.Sound (c : Call) : Prop where
  before : c.stage.before = true → c.child = .absent ∧ c.recorded = false
  spawned : ∀ slot, c.stage = .spawned slot → c.child ≠ .absent ∧ c.recorded = false
  running : ∀ slot, c.stage = .running slot → c.child ≠ .absent ∧ c.recorded = true
  result : ∀ run, c.stage.result = some run → run.Fits c.child
  killed : c.killed = true → c.cancelled = true
  stopped : c.killed = true → c.recorded = true → c.child ≠ .live

theorem Child.kill_ne_live (child : Child) : child.kill ≠ .live := by cases child <;> simp [kill]

theorem Child.kill_eq_absent {child : Child} : child.kill = .absent ↔ child = .absent := by
  cases child <;> simp [kill]

namespace Call.Sound

variable {c c' : Call}

/-- A child that dies takes nothing back. -/
theorem child (h : c.Sound) {child : Child} (habsent : child = .absent ↔ c.child = .absent)
    (hlive : child ≠ .live) : Call.Sound { c with child := child } where
  before := fun hb => ⟨habsent.mpr (h.before hb).1, (h.before hb).2⟩
  spawned := fun slot hs => ⟨fun ha => (h.spawned slot hs).1 (habsent.mp ha), (h.spawned slot hs).2⟩
  running := fun slot hs => ⟨fun ha => (h.running slot hs).1 (habsent.mp ha), (h.running slot hs).2⟩
  result := fun run hr =>
    ⟨hlive, fun hq => habsent.mpr ((h.result run hr).queued hq), fun hret => by
      have hdead := (h.result run hr).returned hret
      have : child ≠ .absent := fun ha => by simp [habsent.mp ha] at hdead
      cases child <;> simp_all⟩
  killed := h.killed
  stopped := fun _ _ => hlive

/-- A worker that has a result leaves. -/
theorem leave (h : c.Sound) {run : CliRun} {slot : Option Str} {child : Child}
    (hfits : run.Fits child) : Call.Sound { c with stage := .leaving slot run, child := child } where
  before := by simp [Stage.before]
  spawned := by simp
  running := by simp
  result := fun run' hr => Option.some.inj hr ▸ hfits
  killed := h.killed
  stopped := fun _ _ => hfits.quiet

theorem ended (h : c.Sound) {run : CliRun} (hfits : run.Fits c.child) :
    Call.Sound { c with stage := .ended run } where
  before := by simp [Stage.before]
  spawned := by simp
  running := by simp
  result := fun run' hr => Option.some.inj hr ▸ hfits
  killed := h.killed
  stopped := h.stopped

/-- A worker that has not come to `Popen` moves on towards it. -/
theorem onward (h : c.Sound) (hb : c.stage.before = true) {stage : Stage}
    (hstage : stage.before = true) : Call.Sound { c with stage := stage } where
  before := fun _ => h.before hb
  spawned := fun slot hs => by
    obtain rfl : stage = .spawned slot := hs
    nomatch hstage
  running := fun slot hs => by
    obtain rfl : stage = .running slot := hs
    nomatch hstage
  result := fun run hr => by cases stage <;> simp [Stage.before, Stage.result] at hstage hr
  killed := h.killed
  stopped := h.stopped

theorem fits_absent {run : CliRun} (hrun : run.returncode = none) : run.Fits .absent :=
  ⟨by simp, fun _ => rfl, by simp [hrun]⟩

theorem fits_dead {run : CliRun} (hrun : run.queueTimedOut = false) {child : Child}
    (hlive : child ≠ .live) (habsent : child ≠ .absent) : run.Fits child :=
  ⟨hlive, by simp [hrun], fun _ => by cases child <;> simp_all⟩

/-- What one move does to a call: it stays sound, in its slot, and is not queued by it. -/
theorem moved [Host] (h : c.Sound) {m : Move} (hm : Process.moved c m = some c') :
    c'.Sound ∧ c'.slot = c.slot ∧ ∀ key, c'.stage = .queued key → c.stage = .queued key := by
  cases m with
  | call | enter | acquire | busy | release => nomatch hm
  | check i =>
    rw [Process.moved] at hm
    split at hm <;> [skip; nomatch hm]
    rename_i slot hstage
    obtain rfl := Option.some.inj hm
    have hb : c.stage.before = true := by rw [hstage]; rfl
    split_ifs
    · have hfits : CliRun.discarded.Fits c.child := (h.before hb).1 ▸ fits_absent rfl
      exact ⟨h.leave hfits, by simp [Call.slot, Stage.slot, hstage], by simp⟩
    · exact ⟨h.onward hb rfl, by simp [Call.slot, Stage.slot, hstage], by simp⟩
  | spawn i popen =>
    rw [Process.moved] at hm
    split at hm <;> [skip; nomatch hm]
    rename_i slot hstage
    have hb : c.stage.before = true := by rw [hstage]; rfl
    have hslot : c.slot = slot := by simp [Call.slot, Stage.slot, hstage]
    cases popen with
    | started =>
      obtain rfl := Option.some.inj hm
      refine ⟨⟨by simp [Stage.before], fun _ _ => ⟨by simp, (h.before hb).2⟩, by simp,
        by simp [Stage.result], h.killed, fun _ hrec => ?_⟩, hslot.symm, by simp⟩
      simp [(h.before hb).2] at hrec
    | failed shown | rejected shown =>
      obtain rfl := Option.some.inj hm
      refine ⟨h.leave (?_ : CliRun.Fits _ c.child), hslot.symm, by simp⟩
      rw [(h.before hb).1]
      exact fits_absent rfl
  | publish i =>
    rw [Process.moved] at hm
    split at hm <;> [skip; nomatch hm]
    rename_i slot hstage
    obtain rfl := Option.some.inj hm
    have hslot : c.slot = slot := by simp [Call.slot, Stage.slot, hstage]
    obtain ⟨hchild, -⟩ := h.spawned slot hstage
    split_ifs with hkilled
    · refine ⟨h.leave (fits_dead rfl (Child.kill_ne_live _) ?_), hslot.symm, by simp⟩
      rwa [Ne, Child.kill_eq_absent]
    · exact ⟨⟨by simp [Stage.before], by simp, fun _ _ => ⟨hchild, rfl⟩, by simp [Stage.result],
        h.killed, fun hk => absurd hk hkilled⟩, hslot.symm, by simp⟩
  | exit i =>
    rw [Process.moved] at hm
    split_ifs at hm with hlive
    obtain rfl := Option.some.inj hm
    exact ⟨h.child (by simp [hlive]) (by simp), rfl, fun _ hq => hq⟩
  | finish i ending =>
    rw [Process.moved] at hm
    split at hm <;> [skip; nomatch hm]
    rename_i slot hstage
    have hslot : c.slot = slot := by simp [Call.slot, Stage.slot, hstage]
    obtain ⟨hchild, -⟩ := h.running slot hstage
    have hkill : c.child.kill ≠ .absent := by rwa [Ne, Child.kill_eq_absent]
    cases ending with
    | returned code out err =>
      dsimp only at hm
      split_ifs at hm with hlive
      obtain rfl := Option.some.inj hm
      exact ⟨h.leave (fits_dead rfl hlive hchild), hslot.symm, by simp⟩
    | expired | raised =>
      obtain rfl := Option.some.inj hm
      exact ⟨h.leave (fits_dead rfl (Child.kill_ne_live _) hkill), hslot.symm, by simp⟩
  | cancel i =>
    obtain rfl := Option.some.inj hm
    exact ⟨⟨h.before, h.spawned, h.running, h.result, fun _ => rfl, h.stopped⟩, rfl,
      fun _ hq => hq⟩
  | kill i =>
    rw [Process.moved] at hm
    split_ifs at hm with hcancelled hrec
    · obtain rfl := Option.some.inj hm
      have hchild := h.child Child.kill_eq_absent (Child.kill_ne_live _)
      exact ⟨⟨hchild.before, hchild.spawned, hchild.running, hchild.result, fun _ => hcancelled,
        fun _ _ => Child.kill_ne_live _⟩, rfl, fun _ hq => hq⟩
    · obtain rfl := Option.some.inj hm
      exact ⟨⟨h.before, h.spawned, h.running, h.result, fun _ => hcancelled,
        fun _ hrec' => absurd hrec' hrec⟩, rfl, fun _ hq => hq⟩

end Call.Sound

/-- The slots add up, a call that waits knows its semaphore, and each call is sound. -/
structure Process.Sound (s : Process) : Prop where
  calls : ∀ c ∈ s.calls, c.Sound
  slots : Conserved s.gates Call.slot s.calls
  queued : ∀ c ∈ s.calls, ∀ key, c.stage = .queued key → (s.gates key).isSome
  positive : ∀ key sem, s.gates key = some sem → 0 < sem.limit

namespace Process.Sound

variable {s : Process} {i : ℕ} {c c' : Call}

theorem fresh : Process.fresh.Sound where
  calls := by simp [Process.fresh]
  slots := Conserved.empty
  queued := by simp [Process.fresh]
  positive := by simp [Process.fresh]

/-- A call moves on in the slot it has. -/
theorem set (h : s.Sound) (hc : s.calls[i]? = some c) (hsound : c'.Sound) (hslot : c'.slot = c.slot)
    (hqueued : ∀ key, c'.stage = .queued key → (s.gates key).isSome) : (s.set i c').Sound where
  calls := fun d hd => by
    rcases List.mem_or_eq_of_mem_set hd with hd | rfl
    · exact h.calls d hd
    · exact hsound
  slots := h.slots.keep hc hslot
  queued := fun d hd key hq => by
    rcases List.mem_or_eq_of_mem_set hd with hd | rfl
    · exact h.queued d hd key hq
    · exact hqueued key hq
  positive := h.positive

/-- A call moves on and a semaphore with it. -/
theorem withGate (h : s.Sound) (hsound : c'.Sound) {key : Str} {sem : Semaphore}
    (hslots : Conserved (Function.update s.gates key (some sem)) Call.slot (s.calls.set i c'))
    (hqueued : ∀ key', c'.stage = .queued key' → key' = key) (hpos : 0 < sem.limit) :
    ((s.set i c').withGate key sem).Sound where
  calls := fun d hd => by
    rcases List.mem_or_eq_of_mem_set hd with hd | rfl
    · exact h.calls d hd
    · exact hsound
  slots := hslots
  queued := fun d hd key' hq => by
    change (Function.update s.gates key (some sem) key').isSome = true
    by_cases hkey : key' = key
    · simp [hkey]
    · rw [Function.update_of_ne hkey]
      rcases List.mem_or_eq_of_mem_set hd with hd | rfl
      · exact h.queued d hd key' hq
      · exact absurd (hqueued key' hq) hkey
  positive := fun key' sem' hsem => by
    change Function.update s.gates key (some sem) key' = some sem' at hsem
    by_cases hkey : key' = key
    · rw [hkey, Function.update_self] at hsem
      exact Option.some.inj hsem ▸ hpos
    · rw [Function.update_of_ne hkey] at hsem
      exact h.positive key' sem' hsem

theorem withCall (h : s.Sound) {f : Call → Process}
    (hf : ∀ c, s.calls[i]? = some c → c.Sound → (f c).Sound) : (s.withCall i f).Sound := by
  rw [Process.withCall]
  cases hc : s.calls[i]? with
  | none => exact h
  | some c => exact hf c hc (h.calls c (List.mem_of_getElem? hc))

theorem enter (h : s.Sound) (hc : s.calls[i]? = some c) (hready : c.stage = .ready) (limit : ℤ) :
    (s.enter i c limit).Sound := by
  have hsound := h.calls c (List.mem_of_getElem? hc)
  have hb : c.stage.before = true := by rw [hready]; rfl
  have hslot : none = c.slot := by simp [Call.slot, Stage.slot, hready]
  unfold Process.enter
  split_ifs with hlimit
  · exact h.set hc (hsound.onward hb rfl) hslot (by simp)
  · have honward : Call.Sound { c with stage := .queued (gateKey c.gate) } := hsound.onward hb rfl
    dsimp only
    split
    · rename_i sem hsem
      refine h.set hc honward hslot fun key hq => ?_
      obtain rfl : gateKey c.gate = key := Stage.queued.inj hq
      exact Option.isSome_iff_exists.mpr ⟨sem, hsem⟩
    · rename_i hnone
      refine h.withGate honward ((h.slots.make hnone _).keep hc hslot) (fun key hq => ?_) ?_
      · exact (Stage.queued.inj hq).symm
      · dsimp only
        omega

theorem acquire (h : s.Sound) (hc : s.calls[i]? = some c) {key : Str}
    (hqueued : c.stage = .queued key) (expired : Bool) : (s.acquire i c key expired).Sound := by
  have hsound := h.calls c (List.mem_of_getElem? hc)
  have hb : c.stage.before = true := by rw [hqueued]; rfl
  have hslot : c.slot = none := by simp [Call.slot, Stage.slot, hqueued]
  unfold Process.acquire
  split <;> [skip; exact h]
  rename_i sem hsem
  split_ifs with hzero hexpired hexpired
  · have hover : Call.Sound { c with stage := .ended ⟨none, [], [], true, true⟩ } :=
      hsound.ended ((hsound.before hb).1 ▸ Call.Sound.fits_absent rfl)
    exact h.set hc hover hslot.symm (by simp)
  · exact h
  · exact h
  · have htaken : Conserved _ Call.slot (s.calls.set i { c with stage := .holding (some key) }) :=
      h.slots.acquire hc hsem (Nat.pos_of_ne_zero hzero) hslot rfl
    exact h.withGate (hsound.onward hb rfl) htaken (by simp) (h.positive key sem hsem)

theorem release (h : s.Sound) (hc : s.calls[i]? = some c) {slot : Option Str} {run : CliRun}
    (hleaving : c.stage = .leaving slot run) : (s.release i c slot run).Sound := by
  have hsound := h.calls c (List.mem_of_getElem? hc)
  have hover : Call.Sound { c with stage := .ended run } :=
    hsound.ended (hsound.result run (by rw [hleaving]; rfl))
  have hslot : c.slot = slot := by simp [Call.slot, Stage.slot, hleaving]
  unfold Process.release
  cases slot with
  | none => exact h.set hc hover hslot.symm (by simp)
  | some key =>
    have hmade := h.slots.made c (List.mem_of_getElem? hc) key hslot
    obtain ⟨sem, hsem⟩ := Option.isSome_iff_exists.mp hmade
    have hback : Conserved _ Call.slot (s.calls.set i { c with stage := .ended run }) :=
      h.slots.release hc hsem hslot rfl
    have hgate : (s.set i { c with stage := .ended run }).gates key = some sem := hsem
    simp only [hgate]
    exact h.withGate hover hback (by simp) (h.positive key sem hsem)

theorem step [Host] (h : s.Sound) (m : Move) : (s.step m).Sound := by
  cases m with
  | call program gate capped =>
    have hnew : Call.Sound ⟨program, gate, capped, .ready, .absent, false, false, false⟩ :=
      ⟨fun _ => ⟨rfl, rfl⟩, by simp, by simp, by simp [Stage.result], by simp, by simp⟩
    refine ⟨fun d hd => ?_, h.slots.append rfl, fun d hd key hq => ?_, h.positive⟩
    · rcases List.mem_append.mp hd with hd | hd
      · exact h.calls d hd
      · exact List.mem_singleton.mp hd ▸ hnew
    · rcases List.mem_append.mp hd with hd | hd
      · exact h.queued d hd key hq
      · simp [List.mem_singleton.mp hd] at hq
  | enter i raw =>
    refine h.withCall fun c hc _ => ?_
    split_ifs with hready
    · exact h.enter hc hready _
    · exact h
  | acquire i | busy i =>
    refine h.withCall fun c hc _ => ?_
    split
    · rename_i key hqueued
      exact h.acquire hc hqueued _
    · exact h
  | release i =>
    refine h.withCall fun c hc _ => ?_
    split
    · rename_i slot run hleaving
      exact h.release hc hleaving
    · exact h
  | check | spawn | publish | exit | finish | cancel | kill =>
    refine h.withCall fun c hc hsound => ?_
    cases hm : Process.moved c _ with
    | none => exact h
    | some c' =>
      obtain ⟨hsound', hslot, hqueued⟩ := hsound.moved hm
      exact h.set hc hsound' hslot fun key hq =>
        h.queued c (List.mem_of_getElem? hc) key (hqueued key hq)

theorem run [Host] (h : s.Sound) (ms : List Move) : (s.run ms).Sound :=
  foldl_invariant Process.step (fun _ m hs => hs.step m) h ms

end Process.Sound

/-! ### What a move does to one call -/

/-- How a call is after a move, its own or another's. -/
inductive Next [Host] (c : Call) : Call → Prop
  | same : Next c c
  | moved {m : Move} {c' : Call} (h : Process.moved c m = some c') : Next c c'
  | entered {stage : Stage} (h : c.stage = .ready)
      (hstage : stage = .holding none ∨ ∃ key, stage = .queued key) :
      Next c { c with stage := stage }
  | acquired {key : Str} (h : c.stage = .queued key) :
      Next c { c with stage := .holding (some key) }
  | expired {key : Str} (h : c.stage = .queued key) :
      Next c { c with stage := .ended ⟨none, [], [], true, true⟩ }
  | released {slot : Option Str} {run : CliRun} (h : c.stage = .leaving slot run) :
      Next c { c with stage := .ended run }

namespace Process

variable {s : Process} {i : ℕ} {c : Call}

theorem set_calls {j : ℕ} {d d' : Call} (hd : s.calls[j]? = some d) (hc : s.calls[i]? = some c)
    {P : Call → Prop} (hself : i = j → P d') (hother : P c) :
    ∃ c', (s.set j d').calls[i]? = some c' ∧ P c' := by
  obtain ⟨hj, -⟩ := List.getElem?_eq_some_iff.mp hd
  by_cases hij : i = j
  · subst hij
    exact ⟨d', by simp [set, hj], hself rfl⟩
  · exact ⟨c, by simpa [set, List.getElem?_set_ne (Ne.symm hij)] using hc, hother⟩

theorem next_of_set [Host] {j : ℕ} {d d' : Call} (hd : s.calls[j]? = some d)
    (hc : s.calls[i]? = some c) (hnext : Next d d') :
    ∃ c', (s.set j d').calls[i]? = some c' ∧ Next c c' := by
  refine set_calls hd hc (fun hij => ?_) .same
  subst hij
  rwa [Option.some.inj (hc.symm.trans hd)]

theorem acquire_next [Host] {j : ℕ} {d : Call} (hd : s.calls[j]? = some d)
    (hc : s.calls[i]? = some c) {key : Str} (hqueued : d.stage = .queued key) (expired : Bool) :
    ∃ c', (s.acquire j d key expired).calls[i]? = some c' ∧ Next c c' := by
  unfold acquire
  split <;> [skip; exact ⟨c, hc, .same⟩]
  split_ifs
  · exact next_of_set hd hc (.expired hqueued)
  · exact ⟨c, hc, .same⟩
  · exact ⟨c, hc, .same⟩
  · exact next_of_set hd hc (.acquired hqueued)

/-- Each call is after a move as it was, or one step further. -/
theorem step_next [Host] (hc : s.calls[i]? = some c) (m : Move) :
    ∃ c', (s.step m).calls[i]? = some c' ∧ Next c c' := by
  have hwith (j : ℕ) (f : Call → Process)
      (hf : ∀ d, s.calls[j]? = some d → ∃ c', (f d).calls[i]? = some c' ∧ Next c c') :
      ∃ c', (s.withCall j f).calls[i]? = some c' ∧ Next c c' := by
    rw [withCall]
    cases hd : s.calls[j]? with
    | none => exact ⟨c, hc, .same⟩
    | some d => exact hf d hd
  cases m with
  | call program gate capped =>
    obtain ⟨hi, -⟩ := List.getElem?_eq_some_iff.mp hc
    exact ⟨c, by simpa [step, List.getElem?_append_left hi] using hc, .same⟩
  | enter j raw =>
    refine hwith j _ fun d hd => ?_
    split_ifs with hready
    · unfold Process.enter
      split_ifs
      · exact next_of_set hd hc (.entered hready (.inl rfl))
      · have hnext : Next d { d with stage := .queued (gateKey d.gate) } :=
          .entered hready (.inr ⟨_, rfl⟩)
        have hset := next_of_set hd hc hnext
        dsimp only
        split <;> exact hset
    · exact ⟨c, hc, .same⟩
  | acquire j | busy j =>
    refine hwith j _ fun d hd => ?_
    split
    · rename_i key hqueued
      exact acquire_next hd hc hqueued _
    · exact ⟨c, hc, .same⟩
  | release j =>
    refine hwith j _ fun d hd => ?_
    split <;> [skip; exact ⟨c, hc, .same⟩]
    rename_i slot run hleaving
    have hset := next_of_set hd hc (.released hleaving)
    unfold Process.release
    cases slot with
    | none => exact hset
    | some key => dsimp only; split <;> exact hset
  | check j | spawn j | publish j | exit j | finish j | cancel j | kill j =>
    refine hwith j _ fun d hd => ?_
    cases hm : Process.moved d _ with
    | none => exact ⟨c, hc, .same⟩
    | some d' => exact next_of_set hd hc (.moved hm)

/-- What one step of a call keeps holds of it from then on. -/
theorem run_call [Host] {P : Call → Prop} (hnext : ∀ c c', P c → Next c c' → P c')
    (hc : s.calls[i]? = some c) (hP : P c) (ms : List Move) :
    ∃ c', (s.run ms).calls[i]? = some c' ∧ P c' :=
  foldl_invariant step (I := fun s => ∃ c, s.calls[i]? = some c ∧ P c)
    (fun s m ⟨c, hc, hP⟩ => by
      obtain ⟨c', hc', hn⟩ := step_next hc m
      exact ⟨c', hc', hnext c c' hP hn⟩) ⟨c, hc, hP⟩ ms

end Process

theorem Next.killed [Host] {c c' : Call} (h : Next c c') (hk : c.killed = true) :
    c'.killed = true := by
  cases h with
  | moved hm =>
    rename_i m
    cases m <;> simp only [Process.moved] at hm <;> (repeat' split at hm) <;> cases hm <;>
      first | exact hk | rfl
  | same | entered | acquired | expired | released => exact hk

/-- The worker is not on its way from the event to the child's end. -/
def Stage.idle : Stage → Bool
  | ready | queued _ | holding _ | leaving .. | ended _ => true
  | spawning _ | spawned _ | running _ => false

/-- The event is set, and no child was started before. -/
structure Call.Idle (c : Call) : Prop where
  cancelled : c.cancelled = true
  absent : c.child = .absent
  idle : c.stage.idle = true

/-- A worker that finds the event set starts nothing. -/
theorem Call.Idle.next [Host] {c c' : Call} (h : c.Idle) (hn : Next c c') : c'.Idle := by
  obtain ⟨hcancelled, habsent, hidle⟩ := h
  cases hn with
  | same => exact ⟨hcancelled, habsent, hidle⟩
  | entered _ hstage =>
    refine ⟨hcancelled, habsent, ?_⟩
    rcases hstage with rfl | ⟨key, rfl⟩ <;> rfl
  | acquired | expired | released => exact ⟨hcancelled, habsent, rfl⟩
  | moved hm =>
    rename_i m
    cases m with
    | check i =>
      rw [Process.moved] at hm
      split at hm <;> [skip; nomatch hm]
      rw [if_pos hcancelled] at hm
      obtain rfl := Option.some.inj hm
      exact ⟨hcancelled, habsent, rfl⟩
    | cancel i =>
      obtain rfl := Option.some.inj hm
      exact ⟨rfl, habsent, hidle⟩
    | kill i =>
      rw [Process.moved, if_pos hcancelled] at hm
      obtain rfl := Option.some.inj hm
      exact ⟨hcancelled, by simp [habsent, Child.kill], hidle⟩
    | exit i => simp [Process.moved, habsent] at hm
    | spawn | publish | finish =>
      rw [Process.moved] at hm
      split at hm
      · rename_i hstage
        simp [hstage, Stage.idle] at hidle
      · nomatch hm
    | call | enter | acquire | busy | release => nomatch hm

/-! ### Limits -/

/-- The number of slots of a binary is fixed at its first use. -/
theorem Process.step_limit [Host] {s : Process} {key : Str} {n : ℕ}
    (h : (s.gates key).map (·.limit) = some n) (m : Move) :
    ((s.step m).gates key).map (·.limit) = some n := by
  have hwith {i : ℕ} {f : Call → Process}
      (hf : ∀ c, ((f c).gates key).map (·.limit) = some n) :
      ((s.withCall i f).gates key).map (·.limit) = some n := by
    rw [withCall]
    split
    · exact hf _
    · exact h
  have hgate {t : Process} (ht : t.gates = s.gates) {key' : Str} {sem : Semaphore}
      (hlimit : key = key' → sem.limit = n) :
      ((t.withGate key' sem).gates key).map (·.limit) = some n := by
    change (Function.update t.gates key' (some sem) key).map (·.limit) = some n
    by_cases hkey : key = key'
    · simp [hkey, hlimit hkey]
    · rwa [Function.update_of_ne hkey, ht]
  have hold {key' : Str} {sem : Semaphore} (hsem : s.gates key' = some sem) (hkey : key = key') :
      sem.limit = n := by
    rw [hkey, hsem] at h
    exact Option.some.inj h
  cases m with
  | call program gate capped => exact h
  | enter i raw =>
    refine hwith fun c => ?_
    split_ifs <;> [skip; exact h]
    unfold Process.enter
    split_ifs <;> [exact h; skip]
    dsimp only
    split <;> [exact h; skip]
    rename_i hnone
    refine hgate rfl fun hkey => ?_
    rw [hkey, show s.gates (gateKey c.gate) = none from hnone] at h
    nomatch h
  | acquire i | busy i =>
    refine hwith fun c => ?_
    split <;> [skip; exact h]
    unfold Process.acquire
    split <;> [skip; exact h]
    rename_i sem hsem
    have hlimit := hold hsem
    split_ifs <;> first | exact h | exact hgate rfl hlimit
  | release i =>
    refine hwith fun c => ?_
    split <;> [skip; exact h]
    unfold Process.release
    dsimp only
    split <;> [exact h; skip]
    split <;> [skip; exact h]
    rename_i sem hsem
    have hlimit : key = _ → sem.limit = n := hold hsem
    exact hgate rfl hlimit
  | check | spawn | publish | exit | finish | cancel | kill =>
    refine hwith fun c => ?_
    cases Process.moved c _ <;> exact h

theorem Process.run_limit [Host] {s : Process} {key : Str} {n : ℕ}
    (h : (s.gates key).map (·.limit) = some n) (ms : List Move) :
    ((s.run ms).gates key).map (·.limit) = some n :=
  foldl_invariant step (I := fun s => (s.gates key).map (·.limit) = some n)
    (fun _ m hs => step_limit hs m) h ms

/-! ### Slots -/

theorem Call.Sound.stage_of_live {c : Call} (h : c.Sound) (hlive : c.child = .live) :
    ∃ slot, c.stage = .spawned slot ∨ c.stage = .running slot := by
  cases hstage : c.stage with
  | spawned slot => exact ⟨slot, .inl rfl⟩
  | running slot => exact ⟨slot, .inr rfl⟩
  | ready | queued | holding | spawning =>
    have := (h.before (by rw [hstage]; rfl)).1
    simp [hlive] at this
  | leaving slot run | ended run => exact absurd hlive (h.result run (by rw [hstage]; rfl)).quiet

/-- Once the caller has killed, only a child the worker has not yet put into the handle lives. -/
theorem Call.Sound.spawned_of_killed {c : Call} (h : c.Sound) (hk : c.killed = true)
    (hlive : c.child = .live) : ∃ slot, c.stage = .spawned slot := by
  obtain ⟨slot, hstage | hstage⟩ := h.stage_of_live hlive
  · exact ⟨slot, hstage⟩
  · exact absurd hlive (h.stopped hk (h.running slot hstage).2)

/-- A waiting call gives up only where every slot is held. -/
theorem Process.Sound.held_of_busy [Host] {s : Process} (h : s.Sound) {i : ℕ}
    (hbusy : s.step (.busy i) ≠ s) : ∃ c key sem, s.calls[i]? = some c ∧ c.stage = .queued key ∧
      s.gates key = some sem ∧ held Call.slot key s.calls = sem.limit := by
  rw [Process.step, Process.withCall] at hbusy
  split at hbusy <;> [skip; exact absurd rfl hbusy]
  rename_i c hc
  split at hbusy <;> [skip; exact absurd rfl hbusy]
  rename_i key hqueued
  rw [Process.acquire] at hbusy
  split at hbusy <;> [skip; exact absurd rfl hbusy]
  rename_i sem hsem
  have hzero : sem.value = 0 := by
    by_contra hpos
    simp [hpos] at hbusy
  refine ⟨c, key, sem, hc, hqueued, hsem, ?_⟩
  have htotal := h.slots.total key sem hsem
  omega

/-- After every order of moves, a binary has the number of slots its first use gave it; each is
free or with one call, so no more of its children live than it has slots; and a call gives up
waiting only where all of them are held. -/
theorem slots_conserved [Host] (ms : List Move) :
    let s := Process.fresh.run ms
    (∀ key sem, s.gates key = some sem →
      0 < sem.limit ∧ sem.value + held Call.slot key s.calls = sem.limit ∧
      (s.calls.countP fun c => c.slot = some key ∧ c.child = .live) ≤ sem.limit ∧
      ∀ ms', ((s.run ms').gates key).map (·.limit) = some sem.limit) ∧
    ∀ i, s.step (.busy i) ≠ s → ∃ c key sem, s.calls[i]? = some c ∧ c.stage = .queued key ∧
      s.gates key = some sem ∧ held Call.slot key s.calls = sem.limit := by
  intro s
  have hs : s.Sound := Process.Sound.fresh.run ms
  refine ⟨fun key sem hsem => ⟨hs.positive key sem hsem, hs.slots.total key sem hsem, ?_,
    fun ms' => Process.run_limit (by simp [hsem]) ms'⟩, fun i => hs.held_of_busy⟩
  refine le_trans (List.countP_mono_left fun c _ hc => ?_) (hs.slots.held_le hsem)
  simp only [decide_eq_true_eq] at hc ⊢
  exact hc.1

/-! ### Cancelled calls -/

/-- How far a worker has come. -/
def Stage.rank : Stage → ℕ
  | ready => 0
  | queued _ => 1
  | holding _ => 2
  | spawning _ => 3
  | spawned _ => 4
  | running _ => 5
  | leaving .. => 6
  | ended _ => 7

def Stage.isOver : Stage → Bool
  | ended _ => true
  | ready | queued _ | holding _ | spawning _ | spawned _ | running _ | leaving .. => false

namespace Process.Sound

variable {s : Process} {i : ℕ} {c : Call}

/-- A call that is not over can move on by itself, and none of the others moves. -/
theorem exists_move [Host] (h : s.Sound) (hc : s.calls[i]? = some c)
    (hover : c.stage.isOver = false) :
    ∃ m c', (s.step m).calls = s.calls.set i c' ∧ c.stage.rank < c'.stage.rank := by
  have hown {m : Move} {c' : Call} (hm : Process.moved c m = some c')
      (hstep : s.step m = s.withCall i fun c => (Process.moved c m).elim s (s.set i))
      (hrank : c.stage.rank < c'.stage.rank) :
      ∃ m c', (s.step m).calls = s.calls.set i c' ∧ c.stage.rank < c'.stage.rank :=
    ⟨m, c', by rw [hstep, Process.withCall, hc]; simp only [hm]; rfl, hrank⟩
  cases hstage : c.stage with
  | ready =>
    refine ⟨.enter i none, { c with stage := .queued (gateKey c.gate) }, ?_, by simp [Stage.rank]⟩
    have hlimit : ¬limit none ≤ 0 := by
      rw [limit, Option.getD_none, if_pos (by rfl)]
      decide
    simp only [Process.step, Process.withCall, hc, hstage, if_true, Process.enter, if_neg hlimit]
    split <;> rfl
  | queued key =>
    obtain ⟨sem, hsem⟩ := Option.isSome_iff_exists.mp
      (h.queued c (List.mem_of_getElem? hc) key hstage)
    by_cases hzero : sem.value = 0
    · refine ⟨.busy i, { c with stage := .ended ⟨none, [], [], true, true⟩ }, ?_, by simp [Stage.rank]⟩
      simp only [Process.step, Process.withCall, hc, hstage, Process.acquire, hsem, if_pos hzero]
      rfl
    · refine ⟨.acquire i, { c with stage := .holding (some key) }, ?_, by simp [Stage.rank]⟩
      simp only [Process.step, Process.withCall, hc, hstage, Process.acquire, hsem, if_neg hzero]
      rfl
  | holding slot =>
    have hm : Process.moved c (.check i) = some { c with
        stage := if c.cancelled then .leaving slot .discarded else .spawning slot } := by
      rw [Process.moved, hstage]
    rw [← hstage]
    refine hown hm rfl ?_
    dsimp only
    split_ifs <;> simp [hstage, Stage.rank]
  | spawning slot =>
    have hm : Process.moved c (.spawn i (.failed [])) =
        some { c with stage := .leaving slot (c.unstarted (.failed [])) } := by
      rw [Process.moved, hstage]
    rw [← hstage]
    exact hown hm rfl (by simp [hstage, Stage.rank])
  | spawned slot =>
    have hm : Process.moved c (.publish i) = some (
        if c.killed then { c with stage := .leaving slot .discarded, child := c.child.kill }
        else { c with stage := .running slot, recorded := true }) := by
      rw [Process.moved, hstage]
    rw [← hstage]
    refine hown hm rfl ?_
    split_ifs <;> simp [hstage, Stage.rank]
  | running slot =>
    have hm : Process.moved c (.finish i (.expired [] [])) = some { c with
        stage := .leaving slot (c.report (.expired [] [])), child := c.child.kill } := by
      rw [Process.moved, hstage]
    rw [← hstage]
    exact hown hm rfl (by simp [hstage, Stage.rank])
  | leaving slot run =>
    refine ⟨.release i, { c with stage := .ended run }, ?_, by simp [Stage.rank]⟩
    simp only [Process.step, Process.withCall, hc, hstage, Process.release]
    split
    · rfl
    · split <;> rfl
  | ended run => simp [hstage, Stage.isOver] at hover

theorem rank_le (stage : Stage) : stage.rank ≤ 7 := by cases stage <;> simp [Stage.rank]

/-- A total falls with one of its parts. -/
theorem sum_set_lt {calls : List Call} (f : Call → ℕ) (hc : calls[i]? = some c) {c' : Call}
    (h : f c' < f c) : ((calls.set i c').map f).sum < (calls.map f).sum := by
  induction calls generalizing i with
  | nil => simp at hc
  | cons d calls ih =>
    cases i with
    | zero =>
      obtain rfl : d = c := by simpa using hc
      simpa using h
    | succ i => simpa using ih (by simpa using hc)

/-- The steps that are left for all calls together. -/
def toGo (s : Process) : ℕ := (s.calls.map fun c => 7 - c.stage.rank).sum

/-- From where the calls stand, all of them can come to their end. -/
theorem exists_over [Host] (h : s.Sound) :
    ∃ ms, ∀ c ∈ (s.run ms).calls, c.stage.isOver = true := by
  induction hn : toGo s using Nat.strongRecOn generalizing s with
  | _ n ih =>
    by_cases hall : ∀ c ∈ s.calls, c.stage.isOver = true
    · exact ⟨[], hall⟩
    · push Not at hall
      obtain ⟨c, hmem, hover⟩ := hall
      obtain ⟨i, hc⟩ := List.mem_iff_getElem?.mp hmem
      obtain ⟨m, c', hcalls, hrank⟩ := h.exists_move hc (by simpa using hover)
      have hle := rank_le c'.stage
      have hless : toGo (s.step m) < n := by
        rw [toGo, hcalls, ← hn]
        exact sum_set_lt _ hc (by omega)
      obtain ⟨ms, hms⟩ := ih _ hless (h.step m) rfl
      exact ⟨m :: ms, hms⟩

end Process.Sound

/-- No order of moves leads to where a call cannot come to its end, and when all have ended every
slot is free again. -/
theorem slots_return [Host] (ms : List Move) :
    ∃ ms', (∀ c ∈ (Process.fresh.run (ms ++ ms')).calls, c.stage.isOver = true) ∧
      ∀ key sem, (Process.fresh.run (ms ++ ms')).gates key = some sem → sem.value = sem.limit := by
  obtain ⟨ms', hover⟩ := (Process.Sound.fresh.run ms).exists_over
  have hrun : Process.fresh.run (ms ++ ms') = (Process.fresh.run ms).run ms' := List.foldl_append
  refine ⟨ms', by rwa [hrun], fun key sem hsem => ?_⟩
  rw [hrun] at hsem
  refine ((Process.Sound.fresh.run ms).run ms').slots.full (fun c hc => ?_) hsem
  have := hover c hc
  cases hstage : c.stage <;> simp [hstage, Stage.isOver] at this
  simp [Call.slot, Stage.slot, hstage]

end AskFable.Gate
