import AskFable.General.Machine
import AskFable.Python.Text

/-!
# Chats in flight and unloads

The two counters and the set of claimed keys of one process, under every interleaving of
`run` calls, the executor threads that send their chats, and the threads that unload. A
coroutine can be cancelled at each of its awaits; the thread it started goes on unless the
executor had not picked it up. Each move is one step under `_INFLIGHT_LOCK`, or one that
no lock guards.
-/
namespace AskFable.Lms
open AskFable.Text AskFable.Machine

/-- Where a `run` call stands: before `_inflight_add`; awaiting the catalog, its worker or
the pause before a retry; on its way to `_inflight_done`; or over. -/
inductive Stage
  | ready
  | reading
  | sending
  | pausing
  | leaving
  | over
  deriving DecidableEq

/-- Where the thread stands that runs `_call`: in the executor's queue; picked up; in
`_generating`, before its POST, during it and after it; or finished. -/
inductive Worker
  | absent
  | queued
  | started
  | raised
  | posting
  | ended
  | finished
  deriving DecidableEq

structure Chat where
  key : Str
  stage : Stage
  worker : Worker
  retries : ℕ
  deriving DecidableEq

/-- Counted in `_INFLIGHT`. -/
def Chat.inflight (c : Chat) : Bool :=
  match c.stage with
  | .ready | .over => false
  | .reading | .sending | .pausing | .leaving => true

/-- Counted in `_GENERATING`. -/
def Chat.generating (c : Chat) : Bool :=
  match c.worker with
  | .raised | .posting | .ended => true
  | .absent | .queued | .started | .finished => false

/-- The thread that holds `_LOAD_LOCK`, with the key it has claimed. -/
structure Holder where
  thread : ℕ
  claimed : Option Str
  deriving DecidableEq

structure Process where
  inflight : Str → ℕ
  generating : Str → ℕ
  unloading : Str → Bool
  holder : Option Holder
  chats : List Chat

def Process.fresh : Process := ⟨fun _ => 0, fun _ => 0, fun _ => false, none, []⟩

inductive Move
  /-- A `run` call whose model is loaded. -/
  | call (key : Str)
  /-- `_inflight_add`. -/
  | add (i : ℕ)
  /-- The catalog is read again, and the model is still there or not. -/
  | read (i : ℕ) (fits : Bool)
  | pick (i : ℕ)
  | raise (i : ℕ)
  | post (i : ℕ)
  | postEnd (i : ℕ)
  | lower (i : ℕ)
  /-- The worker's answer comes back, to be sent again or not. -/
  | answer (i : ℕ) (retry : Bool)
  | again (i : ℕ)
  /-- The coroutine is cancelled, or its deadline expires. -/
  | cancel (i : ℕ)
  /-- `_inflight_done`. -/
  | done (i : ℕ)
  | lock (t : ℕ)
  | claim (t : ℕ) (key : Str)
  | unload (t : ℕ)
  | release (t : ℕ)
  | unlock (t : ℕ)
  deriving DecidableEq

/-- One more in a dict of counters. -/
def bump (counter : Str → ℕ) (key : Str) : Str → ℕ :=
  Function.update counter key (counter key + 1)

def drop (counter : Str → ℕ) (key : Str) : Str → ℕ :=
  Function.update counter key (counter key - 1)

namespace Process

def set (s : Process) (i : ℕ) (c : Chat) : Process := { s with chats := s.chats.set i c }

/-- A move of call `i`; without such a call there is none to make. -/
def withChat (s : Process) (i : ℕ) (f : Chat → Process) : Process :=
  match s.chats[i]? with
  | some c => f c
  | none => s

/-- A move of the thread that holds `_LOAD_LOCK`. -/
def withHolder (s : Process) (t : ℕ) (f : Option Str → Process) : Process :=
  match s.holder with
  | some h => if h.thread = t then f h.claimed else s
  | none => s

/-- A move that cannot be made where it comes leaves everything as it is. -/
def step (s : Process) : Move → Process
  | .call key => { s with chats := s.chats ++ [⟨key, .ready, .absent, 0⟩] }
  | .add i => s.withChat i fun c =>
    if c.stage = .ready then
      if s.unloading c.key then s.set i { c with stage := .over }
      else { s.set i { c with stage := .reading } with inflight := bump s.inflight c.key }
    else s
  | .read i fits => s.withChat i fun c =>
    if c.stage = .reading then
      if fits then s.set i { c with stage := .sending, worker := .queued }
      else s.set i { c with stage := .leaving }
    else s
  | .pick i => s.withChat i fun c =>
    if c.worker = .queued then s.set i { c with worker := .started } else s
  | .raise i => s.withChat i fun c =>
    if c.worker = .started then
      { s.set i { c with worker := .raised } with generating := bump s.generating c.key }
    else s
  | .post i => s.withChat i fun c =>
    if c.worker = .raised then s.set i { c with worker := .posting } else s
  | .postEnd i => s.withChat i fun c =>
    if c.worker = .posting then s.set i { c with worker := .ended } else s
  | .lower i => s.withChat i fun c =>
    if c.worker = .ended then
      { s.set i { c with worker := .finished } with generating := drop s.generating c.key }
    else s
  | .answer i retry => s.withChat i fun c =>
    if c.stage = .sending ∧ c.worker = .finished then
      if retry ∧ c.retries < 1 then s.set i { c with stage := .pausing, retries := c.retries + 1 }
      else s.set i { c with stage := .leaving }
    else s
  | .again i => s.withChat i fun c =>
    if c.stage = .pausing then s.set i { c with stage := .sending, worker := .queued } else s
  | .cancel i => s.withChat i fun c =>
    if c.stage = .reading ∨ c.stage = .sending ∨ c.stage = .pausing then
      -- the executor drops what it has not picked up
      s.set i { c with
        stage := .leaving
        worker := if c.worker = .queued then .absent else c.worker }
    else s
  | .done i => s.withChat i fun c =>
    if c.stage = .leaving then
      { s.set i { c with stage := .over } with inflight := drop s.inflight c.key }
    else s
  | .lock t => if s.holder = none then { s with holder := some ⟨t, none⟩ } else s
  | .claim t key => s.withHolder t fun claimed =>
    if claimed = none ∧ s.inflight key = 0 ∧ s.generating key = 0 then
      { s with
        holder := some ⟨t, some key⟩
        unloading := Function.update s.unloading key true }
    else s
  | .unload _ => s
  | .release t => s.withHolder t fun claimed =>
    match claimed with
    | some key =>
      { s with
        holder := some ⟨t, none⟩
        unloading := Function.update s.unloading key false }
    | none => s
  | .unlock t => s.withHolder t fun claimed =>
    if claimed = none then { s with holder := none } else s

def run (s : Process) (ms : List Move) : Process := ms.foldl step s

end Process

/-- What the claim is about: a call is counted in flight, a chat POST of it ends, a request
to unload is sent. -/
inductive Sight
  | added (i : ℕ) (key : Str)
  | postEnded (i : ℕ) (key : Str)
  | unloadSent (key : Str)
  deriving DecidableEq

def observe (s : Process) : Move → Option Sight
  | .add i => s.chats[i]?.bind fun c =>
    if c.stage = .ready ∧ s.unloading c.key = false then some (.added i c.key) else none
  | .postEnd i => s.chats[i]?.bind fun c =>
    if c.worker = .posting then some (.postEnded i c.key) else none
  | .unload t => s.holder.bind fun h =>
    if h.thread = t then h.claimed.map .unloadSent else none
  | _ => none

/-- No request to unload a key is sent between a call's entry and the end of a chat POST of
that call on the key. -/
def Undisturbed (sights : List Sight) : Prop :=
  ∀ a b c d i key, sights ≠ a ++ .added i key :: (b ++ .unloadSent key :: (c ++ .postEnded i key :: d))

/-- A call is not let go of while its worker has been picked up and is not yet counted. -/
def Counted (s : Process) : Move → Prop
  | .done i => ∀ c ∈ s.chats[i]?, c.worker ≠ .started
  | _ => True

instance (s : Process) (m : Move) : Decidable (Counted s m) := by
  cases m with
  | done i => exact inferInstanceAs (Decidable (∀ c ∈ s.chats[i]?, c.worker ≠ .started))
  | _ => exact isTrue trivial

/-! ### The counters -/

/-- A counter counts the calls on its key that satisfy `p`. -/
def Counts (counter : Str → ℕ) (p : Chat → Bool) (chats : List Chat) : Prop :=
  ∀ key, counter key = chats.countP fun c => p c && c.key = key

/-- The counter after one call on `key` changed from `before` to `after`. -/
def recount (counter : Str → ℕ) (key : Str) (before after : Bool) : Str → ℕ :=
  match before, after with
  | false, true => bump counter key
  | true, false => drop counter key
  | _, _ => counter

theorem Counts.set {counter : Str → ℕ} {p : Chat → Bool} {chats : List Chat} {i : ℕ} {c c' : Chat}
    (h : Counts counter p chats) (hc : chats[i]? = some c) (hkey : c'.key = c.key) :
    Counts (recount counter c.key (p c) (p c')) p (chats.set i c') := by
  intro key
  obtain ⟨hi, rfl⟩ := List.getElem?_eq_some_iff.mp hc
  rw [List.countP_set hi, ← h key, hkey]
  have hpos : p chats[i] = true → chats[i].key = key → 0 < counter key := by
    intro hp hk
    rw [h key]
    exact List.countP_pos_iff.mpr ⟨_, List.getElem_mem hi, by simp [hp, hk]⟩
  by_cases hk : chats[i].key = key
  · subst hk
    cases hp : p chats[i] <;> cases p c' <;> simp [recount, bump, drop]
    have := hpos hp rfl
    omega
  · cases p chats[i] <;> cases p c' <;>
      simp [recount, bump, drop, hk, Function.update_of_ne (Ne.symm hk)]

theorem Counts.append {counter : Str → ℕ} {p : Chat → Bool} {chats : List Chat} {c : Chat}
    (h : Counts counter p chats) (hc : p c = false) : Counts counter p (chats ++ [c]) := by
  intro key
  simp [h key, List.countP_append, hc]

/-! ### What holds between moves -/

/-- A call has a worker only where it awaits one, but for one that was picked up before
the call was cancelled; and while a worker is picked up and not counted, its call is. -/
structure Chat.Sound (c : Chat) : Prop where
  before : c.stage = .ready ∨ c.stage = .reading → c.worker = .absent
  pausing : c.stage = .pausing → c.worker = .finished
  queued : c.worker = .queued → c.stage = .sending
  started : c.worker = .started → c.inflight = true

/-- A worker at work leaves its call where it is. -/
theorem Chat.Sound.work {c : Chat} (h : c.Sound) (habsent : c.worker ≠ .absent)
    (hfinished : c.worker ≠ .finished) {worker : Worker} (hqueued : worker ≠ .queued)
    (hstarted : worker ≠ .started) : Chat.Sound { c with worker := worker } where
  before := fun hbefore => absurd (h.before hbefore) habsent
  pausing := fun hpausing => absurd (h.pausing hpausing) hfinished
  queued := fun hworker => absurd hworker hqueued
  started := fun hworker => absurd hworker hstarted

/-- The counters count, a key is being unloaded while its claim is held, and no call is
counted on a claimed key. -/
structure Process.Sound (s : Process) : Prop where
  chats : ∀ c ∈ s.chats, c.Sound
  inflight : Counts s.inflight Chat.inflight s.chats
  generating : Counts s.generating Chat.generating s.chats
  claimed : ∀ key, s.unloading key = true ↔ ∃ t, s.holder = some ⟨t, some key⟩
  idle : ∀ c ∈ s.chats, s.unloading c.key = true → c.inflight = false ∧ c.generating = false

namespace Process.Sound

variable {s : Process} {i : ℕ} {c : Chat}

theorem fresh : Process.fresh.Sound where
  chats := by simp [Process.fresh]
  inflight := fun _ => rfl
  generating := fun _ => rfl
  claimed := by simp [Process.fresh]
  idle := by simp [Process.fresh]

/-- One call moves on, and both counters with it. -/
theorem set (h : s.Sound) (hc : s.chats[i]? = some c) (c' : Chat) (hkey : c'.key = c.key)
    (hsound : c'.Sound)
    (hidle : s.unloading c.key = true → c'.inflight = false ∧ c'.generating = false) :
    Process.Sound { s.set i c' with
      inflight := recount s.inflight c.key c.inflight c'.inflight
      generating := recount s.generating c.key c.generating c'.generating } where
  chats := fun d hd => by
    rcases List.mem_or_eq_of_mem_set hd with hd | rfl
    · exact h.chats d hd
    · exact hsound
  inflight := h.inflight.set hc hkey
  generating := h.generating.set hc hkey
  claimed := h.claimed
  idle := fun d hd hunloading => by
    rcases List.mem_or_eq_of_mem_set hd with hd | rfl
    · exact h.idle d hd hunloading
    · exact hidle (hkey ▸ hunloading)

theorem recount_same (counter : Str → ℕ) (key : Str) (b : Bool) : recount counter key b b = counter := by
  cases b <;> rfl

/-- A move that changes no counter. -/
theorem set_same (h : s.Sound) (hc : s.chats[i]? = some c) {c' : Chat} (hkey : c'.key = c.key)
    (hsound : c'.Sound) (hin : c'.inflight = c.inflight) (hgen : c'.generating = c.generating) :
    (s.set i c').Sound := by
  have hset := h.set hc c' hkey hsound fun hunloading => by
    rw [hin, hgen]
    exact h.idle c (List.mem_of_getElem? hc) hunloading
  rw [hin, hgen, recount_same, recount_same] at hset
  exact hset

theorem call (h : s.Sound) (key : Str) : (s.step (.call key)).Sound where
  chats := fun d hd => by
    rcases List.mem_append.mp hd with hd | hd
    · exact h.chats d hd
    · rw [List.mem_singleton.mp hd]
      exact ⟨fun _ => rfl, by simp, by simp, by simp⟩
  inflight := h.inflight.append rfl
  generating := h.generating.append rfl
  claimed := h.claimed
  idle := fun d hd hunloading => by
    rcases List.mem_append.mp hd with hd | hd
    · exact h.idle d hd hunloading
    · rw [List.mem_singleton.mp hd]
      exact ⟨rfl, rfl⟩

theorem withChat (h : s.Sound) {f : Chat → Process}
    (hf : ∀ c, s.chats[i]? = some c → c.Sound → (f c).Sound) : (s.withChat i f).Sound := by
  rw [Process.withChat]
  cases hc : s.chats[i]? with
  | none => exact h
  | some c => exact hf c hc (h.chats c (List.mem_of_getElem? hc))

theorem add (h : s.Sound) (i : ℕ) : (s.step (.add i)).Sound := by
  refine h.withChat fun c hc hsound => ?_
  split_ifs with hready hunloading
  · have hworker := hsound.before (Or.inl hready)
    refine h.set_same hc rfl ⟨by simp, by simp, by simp [hworker], by simp [hworker]⟩ ?_ rfl
    simp [Chat.inflight, hready]
  · have hworker := hsound.before (Or.inl hready)
    have hset := h.set hc { c with stage := .reading } rfl
      ⟨by simp [hworker], by simp, by simp [hworker], by simp [hworker]⟩ (by simp [hunloading])
    have hin : c.inflight = false := by simp [Chat.inflight, hready]
    rw [show Chat.generating { c with stage := .reading } = c.generating from rfl, recount_same,
      hin] at hset
    exact hset
  · exact h

theorem read (h : s.Sound) (i : ℕ) (fits : Bool) : (s.step (.read i fits)).Sound := by
  refine h.withChat fun c hc hsound => ?_
  split_ifs with hreading hfits
  · have hworker := hsound.before (Or.inr hreading)
    exact h.set_same hc rfl ⟨by simp, by simp, by simp, by simp⟩ (by simp [Chat.inflight, hreading])
      (by simp [Chat.generating, hworker])
  · have hworker := hsound.before (Or.inr hreading)
    exact h.set_same hc rfl ⟨by simp, by simp, by simp [hworker], by simp [hworker]⟩
      (by simp [Chat.inflight, hreading]) rfl
  · exact h

theorem pick (h : s.Sound) (i : ℕ) : (s.step (.pick i)).Sound := by
  refine h.withChat fun c hc hsound => ?_
  split_ifs with hqueued
  · have hsending := hsound.queued hqueued
    exact h.set_same hc rfl
      ⟨by simp [hsending], by simp [hsending], by simp, by simp [Chat.inflight, hsending]⟩ rfl
      (by simp [Chat.generating, hqueued])
  · exact h

/-- A worker that is not yet counted is not overtaken by a claim: its call still is. -/
theorem raise (h : s.Sound) (i : ℕ) : (s.step (.raise i)).Sound := by
  refine h.withChat fun c hc hsound => ?_
  split_ifs with hstarted
  · have hin := hsound.started hstarted
    have hfree : s.unloading c.key ≠ true := fun hunloading => by
      have hidle := (h.idle c (List.mem_of_getElem? hc) hunloading).1
      rw [hin] at hidle
      nomatch hidle
    have hset := h.set hc { c with worker := .raised } rfl
      (hsound.work (by simp [hstarted]) (by simp [hstarted]) (by simp) (by simp))
      (fun h => absurd h hfree)
    have hgen : c.generating = false := by simp [Chat.generating, hstarted]
    rw [show Chat.inflight { c with worker := .raised } = c.inflight from rfl, recount_same,
      hgen] at hset
    exact hset
  · exact h

theorem post (h : s.Sound) (i : ℕ) : (s.step (.post i)).Sound := by
  refine h.withChat fun c hc hsound => ?_
  split_ifs with hraised
  · exact h.set_same hc rfl
      (hsound.work (by simp [hraised]) (by simp [hraised]) (by simp) (by simp)) rfl
      (by simp [Chat.generating, hraised])
  · exact h

theorem postEnd (h : s.Sound) (i : ℕ) : (s.step (.postEnd i)).Sound := by
  refine h.withChat fun c hc hsound => ?_
  split_ifs with hposting
  · exact h.set_same hc rfl
      (hsound.work (by simp [hposting]) (by simp [hposting]) (by simp) (by simp)) rfl
      (by simp [Chat.generating, hposting])
  · exact h

theorem lower (h : s.Sound) (i : ℕ) : (s.step (.lower i)).Sound := by
  refine h.withChat fun c hc hsound => ?_
  split_ifs with hended
  · have hset := h.set hc { c with worker := .finished } rfl
      (hsound.work (by simp [hended]) (by simp [hended]) (by simp) (by simp))
      (fun hunloading => ⟨(h.idle c (List.mem_of_getElem? hc) hunloading).1, rfl⟩)
    have hgen : c.generating = true := by simp [Chat.generating, hended]
    rw [show Chat.inflight { c with worker := .finished } = c.inflight from rfl, recount_same,
      hgen] at hset
    exact hset
  · exact h

theorem answer (h : s.Sound) (i : ℕ) (retry : Bool) : (s.step (.answer i retry)).Sound := by
  refine h.withChat fun c hc hsound => ?_
  split_ifs with hanswered
  · exact h.set_same hc rfl ⟨by simp, by simp [hanswered.2], by simp [hanswered.2],
      by simp [hanswered.2]⟩ (by simp [Chat.inflight, hanswered.1]) rfl
  · exact h.set_same hc rfl ⟨by simp, by simp, by simp [hanswered.2],
      by simp [hanswered.2]⟩ (by simp [Chat.inflight, hanswered.1]) rfl
  · exact h

theorem again (h : s.Sound) (i : ℕ) : (s.step (.again i)).Sound := by
  refine h.withChat fun c hc hsound => ?_
  split_ifs with hpausing
  · have hworker := hsound.pausing hpausing
    exact h.set_same hc rfl ⟨by simp, by simp, by simp, by simp⟩ (by simp [Chat.inflight, hpausing])
      (by simp [Chat.generating, hworker])
  · exact h

/-- A cancelled call stays counted until it is let go of. -/
theorem cancel (h : s.Sound) (i : ℕ) : (s.step (.cancel i)).Sound := by
  refine h.withChat fun c hc hsound => ?_
  split_ifs with hawait hqueued
  · refine h.set_same hc rfl ⟨by simp, by simp, by simp, by simp⟩ ?_ ?_
    · rcases hawait with hstage | hstage | hstage <;> simp [Chat.inflight, hstage]
    · simp [Chat.generating, hqueued]
  · refine h.set_same hc rfl ⟨by simp, by simp, fun hw => absurd hw hqueued,
      fun _ => rfl⟩ ?_ rfl
    rcases hawait with hstage | hstage | hstage <;> simp [Chat.inflight, hstage]
  · exact h

/-- A call let go of has no worker on the way to its counter. -/
theorem done (h : s.Sound) (i : ℕ) (hcounted : Counted s (.done i)) : (s.step (.done i)).Sound := by
  refine h.withChat fun c hc hsound => ?_
  split_ifs with hleaving
  · have hset := h.set hc { c with stage := .over } rfl
      ⟨by simp, by simp, fun hqueued => ?_, fun hstarted => absurd hstarted (hcounted c hc)⟩
      (fun hunloading => ⟨rfl, (h.idle c (List.mem_of_getElem? hc) hunloading).2⟩)
    · have hin : c.inflight = true := by simp [Chat.inflight, hleaving]
      rw [show Chat.generating { c with stage := .over } = c.generating from rfl, recount_same,
        hin] at hset
      exact hset
    · have hsending := hsound.queued hqueued
      rw [hleaving] at hsending
      nomatch hsending
  · exact h

/-- A move of the thread that holds the lock changes no call. -/
theorem hold (h : s.Sound) {holder : Option Holder} {unloading : Str → Bool}
    (hclaimed : ∀ key, unloading key = true ↔ ∃ t, holder = some ⟨t, some key⟩)
    (hidle : ∀ c ∈ s.chats, unloading c.key = true → c.inflight = false ∧ c.generating = false) :
    Process.Sound { s with holder := holder, unloading := unloading } where
  chats := h.chats
  inflight := h.inflight
  generating := h.generating
  claimed := hclaimed
  idle := hidle

theorem lock (h : s.Sound) (t : ℕ) : (s.step (.lock t)).Sound := by
  rw [Process.step]
  split_ifs with hfree
  · refine h.hold (fun key => ?_) h.idle
    rw [h.claimed key, hfree]
    simp
  · exact h

theorem withHolder (h : s.Sound) {t : ℕ} {f : Option Str → Process}
    (hf : ∀ claimed, s.holder = some ⟨t, claimed⟩ → (f claimed).Sound) :
    (s.withHolder t f).Sound := by
  rw [Process.withHolder]
  cases hh : s.holder with
  | none => exact h
  | some holder =>
    dsimp only
    split_ifs with ht
    · exact hf holder.claimed (by rw [hh, ← ht])
    · exact h

/-- A claim is taken where neither counter counts a call on the key. -/
theorem claim (h : s.Sound) (t : ℕ) (key : Str) : (s.step (.claim t key)).Sound := by
  rw [Process.step]
  refine h.withHolder fun claimed hholder => ?_
  split_ifs with hfree
  · obtain ⟨rfl, hin, hgen⟩ := hfree
    have hnone (k : Str) : s.unloading k = false := by
      rw [← Bool.not_eq_true, h.claimed k, hholder]
      simp
    refine h.hold (fun k => ?_) fun c hc hunloading => ?_
    · by_cases hk : k = key
      · simp [hk]
      · simp [Function.update_of_ne hk, hnone k, Ne.symm hk]
    · have hkey : c.key = key := by
        by_contra hne
        rw [Function.update_of_ne hne, hnone] at hunloading
        nomatch hunloading
      rw [h.inflight key, List.countP_eq_zero] at hin
      rw [h.generating key, List.countP_eq_zero] at hgen
      exact ⟨by simpa [hkey] using hin c hc, by simpa [hkey] using hgen c hc⟩
  · exact h

theorem release (h : s.Sound) (t : ℕ) : (s.step (.release t)).Sound := by
  rw [Process.step]
  refine h.withHolder fun claimed hholder => ?_
  cases claimed with
  | none => exact h
  | some key =>
    have hnone (k : Str) : Function.update s.unloading key false k = false := by
      by_cases hk : k = key
      · simp [hk]
      · rw [Function.update_of_ne hk, ← Bool.not_eq_true, h.claimed k, hholder]
        simp [Ne.symm hk]
    refine h.hold (fun k => by simp [hnone]) fun c _ hunloading => ?_
    rw [hnone] at hunloading
    nomatch hunloading

theorem unlock (h : s.Sound) (t : ℕ) : (s.step (.unlock t)).Sound := by
  rw [Process.step]
  refine h.withHolder fun claimed hholder => ?_
  split_ifs with hfree
  · refine h.hold (fun key => ?_) h.idle
    rw [h.claimed key, hholder, hfree]
    simp
  · exact h

theorem step (h : s.Sound) (m : Move) (hcounted : Counted s m) : (s.step m).Sound := by
  cases m with
  | call key => exact h.call key
  | add i => exact h.add i
  | read i fits => exact h.read i fits
  | pick i => exact h.pick i
  | raise i => exact h.raise i
  | post i => exact h.post i
  | postEnd i => exact h.postEnd i
  | lower i => exact h.lower i
  | answer i retry => exact h.answer i retry
  | again i => exact h.again i
  | cancel i => exact h.cancel i
  | done i => exact h.done i hcounted
  | lock t => exact h.lock t
  | claim t key => exact h.claim t key
  | unload t => exact h
  | release t => exact h.release t
  | unlock t => exact h.unlock t

end Process.Sound

/-! ### Runs -/

/-- What no move undoes: a call keeps its key, does not enter again, and once it is over
with no worker that could still send, stays so. -/
structure Chat.Follows (c c' : Chat) : Prop where
  key : c'.key = c.key
  entered : c.stage ≠ .ready → c'.stage ≠ .ready
  spent : c.stage = .over → c.worker = .absent ∨ c.worker = .finished →
    c'.stage = .over ∧ (c'.worker = .absent ∨ c'.worker = .finished)

theorem Chat.Follows.refl (c : Chat) : c.Follows c := ⟨rfl, id, fun hover hworker => ⟨hover, hworker⟩⟩

theorem withChat_follows {s : Process} {i j : ℕ} {c : Chat} {f : Chat → Process}
    (hc : s.chats[i]? = some c)
    (hf : ∀ d, s.chats[j]? = some d → f d = s ∨ ∃ d', (f d).chats = s.chats.set j d' ∧ d.Follows d') :
    ∃ c', (s.withChat j f).chats[i]? = some c' ∧ c.Follows c' := by
  rw [Process.withChat]
  cases hd : s.chats[j]? with
  | none => exact ⟨c, hc, .refl c⟩
  | some d =>
    dsimp only
    rcases hf d hd with hsame | ⟨d', hset, hfollows⟩
    · exact ⟨c, hsame ▸ hc, .refl c⟩
    · rw [hset]
      by_cases hij : j = i
      · subst hij
        obtain rfl := Option.some.inj (hc.symm.trans hd)
        exact ⟨d', List.getElem?_set_self (List.getElem?_eq_some_iff.mp hc).1, hfollows⟩
      · exact ⟨c, by rw [List.getElem?_set_ne hij, hc], .refl c⟩

theorem step_follows {s : Process} {i : ℕ} {c : Chat} (m : Move) (hc : s.chats[i]? = some c) :
    ∃ c', (s.step m).chats[i]? = some c' ∧ c.Follows c' := by
  have hholder {t : ℕ} {f : Option Str → Process} (hf : ∀ claimed, (f claimed).chats = s.chats) :
      ∃ c', (s.withHolder t f).chats[i]? = some c' ∧ c.Follows c' := by
    refine ⟨c, ?_, .refl c⟩
    rw [Process.withHolder]
    split
    · split_ifs
      · rw [hf, hc]
      · exact hc
    · exact hc
  cases m with
  | call key =>
    refine ⟨c, ?_, .refl c⟩
    change (s.chats ++ _)[i]? = some c
    rw [List.getElem?_append_left (List.getElem?_eq_some_iff.mp hc).1, hc]
  | add j =>
    refine withChat_follows hc fun d _ => ?_
    split_ifs with hready hunloading
    · exact Or.inr ⟨_, rfl, rfl, by simp, by simp [hready]⟩
    · exact Or.inr ⟨_, rfl, rfl, by simp, by simp [hready]⟩
    · exact Or.inl rfl
  | read j fits =>
    refine withChat_follows hc fun d _ => ?_
    split_ifs with hreading hfits
    · exact Or.inr ⟨_, rfl, rfl, by simp, by simp [hreading]⟩
    · exact Or.inr ⟨_, rfl, rfl, by simp, by simp [hreading]⟩
    · exact Or.inl rfl
  | pick j | raise j | post j | postEnd j | lower j =>
    refine withChat_follows hc fun d _ => ?_
    split_ifs with hworker
    · exact Or.inr ⟨_, rfl, rfl, id, by simp [hworker]⟩
    · exact Or.inl rfl
  | answer j retry =>
    refine withChat_follows hc fun d _ => ?_
    split_ifs with hanswered
    · exact Or.inr ⟨_, rfl, rfl, by simp, by simp [hanswered.1]⟩
    · exact Or.inr ⟨_, rfl, rfl, by simp, by simp [hanswered.1]⟩
    · exact Or.inl rfl
  | again j =>
    refine withChat_follows hc fun d _ => ?_
    split_ifs with hpausing
    · exact Or.inr ⟨_, rfl, rfl, by simp, by simp [hpausing]⟩
    · exact Or.inl rfl
  | cancel j =>
    refine withChat_follows hc fun d _ => ?_
    by_cases hawait : d.stage = .reading ∨ d.stage = .sending ∨ d.stage = .pausing
    · rw [if_pos hawait]
      refine Or.inr ⟨_, rfl, rfl, by simp, fun hover => ?_⟩
      rcases hawait with hstage | hstage | hstage <;> rw [hover] at hstage <;> nomatch hstage
    · exact Or.inl (if_neg hawait)
  | done j =>
    refine withChat_follows hc fun d _ => ?_
    split_ifs with hleaving
    · exact Or.inr ⟨_, rfl, rfl, by simp, by simp [hleaving]⟩
    · exact Or.inl rfl
  | lock t =>
    refine ⟨c, ?_, .refl c⟩
    rw [Process.step]
    split_ifs <;> exact hc
  | unload t => exact ⟨c, hc, .refl c⟩
  | claim t key =>
    refine hholder fun claimed => ?_
    split_ifs <;> rfl
  | release t =>
    refine hholder fun claimed => ?_
    cases claimed <;> rfl
  | unlock t =>
    refine hholder fun claimed => ?_
    split_ifs <;> rfl

/-- Call `i` has entered, on `key`. -/
def Entered (i : ℕ) (key : Str) (s : Process) : Prop :=
  ∃ c, s.chats[i]? = some c ∧ c.key = key ∧ c.stage ≠ .ready

/-- Call `i` is over, with no worker that could still send. -/
def Spent (i : ℕ) (s : Process) : Prop :=
  ∃ c, s.chats[i]? = some c ∧ c.stage = .over ∧ (c.worker = .absent ∨ c.worker = .finished)

theorem Entered.step {i : ℕ} {key : Str} {s : Process} (m : Move) (h : Entered i key s) :
    Entered i key (s.step m) := by
  obtain ⟨c, hc, hkey, hentered⟩ := h
  obtain ⟨c', hc', hfollows⟩ := step_follows m hc
  exact ⟨c', hc', hfollows.key.trans hkey, hfollows.entered hentered⟩

theorem Spent.step {i : ℕ} {s : Process} (m : Move) (h : Spent i s) : Spent i (s.step m) := by
  obtain ⟨c, hc, hover, hworker⟩ := h
  obtain ⟨c', hc', hfollows⟩ := step_follows m hc
  exact ⟨c', hc', hfollows.spent hover hworker⟩

/-- Which move is seen, and in which state. -/
theorem observe_spec {s : Process} {m : Move} {e : Sight} (h : observe s m = some e) :
    match e with
    | .added i key => m = .add i ∧ ∃ c, s.chats[i]? = some c ∧ c.key = key ∧ c.stage = .ready ∧
        s.unloading c.key = false
    | .unloadSent key => ∃ t, m = .unload t ∧ s.holder = some ⟨t, some key⟩
    | .postEnded i key => m = .postEnd i ∧ ∃ c, s.chats[i]? = some c ∧ c.key = key ∧
        c.worker = .posting := by
  cases m with
  | add i =>
    obtain ⟨c, hc, hadded⟩ := Option.bind_eq_some_iff.mp h
    split_ifs at hadded with hready
    cases hadded
    exact ⟨rfl, c, hc, rfl, hready.1, hready.2⟩
  | postEnd i =>
    obtain ⟨c, hc, hended⟩ := Option.bind_eq_some_iff.mp h
    split_ifs at hended with hposting
    cases hended
    exact ⟨rfl, c, hc, rfl, hposting⟩
  | unload t =>
    obtain ⟨⟨t', claimed⟩, hholder, hsent⟩ := Option.bind_eq_some_iff.mp h
    split_ifs at hsent with hthread
    obtain ⟨key, rfl, rfl⟩ := Option.map_eq_some_iff.mp hsent
    exact ⟨t, rfl, hthread ▸ hholder⟩
  | _ => cases h

theorem entered_of_added {s : Process} {m : Move} {i : ℕ} {key : Str}
    (h : observe s m = some (.added i key)) : Entered i key (s.step m) := by
  obtain ⟨rfl, c, hc, rfl, hready, hunloading⟩ := observe_spec h
  have hstep : s.step (.add i) =
      { s.set i { c with stage := .reading } with inflight := bump s.inflight c.key } := by
    simp [Process.step, Process.withChat, hc, hready, hunloading]
  rw [hstep]
  exact ⟨_, List.getElem?_set_self (List.getElem?_eq_some_iff.mp hc).1, rfl, by simp⟩

/-- When a request to unload goes out, every call that has entered on the key is spent. -/
theorem spent_of_unloadSent {s : Process} (hs : s.Sound) {m : Move} {i : ℕ} {key : Str}
    (h : observe s m = some (.unloadSent key)) (hentered : Entered i key s) : Spent i s := by
  obtain ⟨t, rfl, hholder⟩ := observe_spec h
  have hunloading : s.unloading key = true := (hs.claimed key).mpr ⟨t, hholder⟩
  obtain ⟨c, hc, rfl, hready⟩ := hentered
  have hmem := List.mem_of_getElem? hc
  have hsound := hs.chats c hmem
  obtain ⟨hin, hgen⟩ := hs.idle c hmem hunloading
  refine ⟨c, hc, ?_, ?_⟩
  · cases hstage : c.stage <;> simp_all [Chat.inflight]
  · have hqueued := hsound.queued
    have hstarted := hsound.started
    rw [hin] at hstarted
    cases hworker : c.worker <;> simp_all [Chat.generating, Chat.inflight]

theorem not_postEnded {s : Process} {m : Move} {i : ℕ} (h : Spent i s) (key : Str) :
    observe s m ≠ some (.postEnded i key) := by
  intro hobserve
  obtain ⟨c, hc, -, hworker⟩ := h
  obtain ⟨rfl, d, hd, -, hposting⟩ := observe_spec hobserve
  obtain rfl := Option.some.inj (hc.symm.trans hd)
  rcases hworker with hworker | hworker <;> rw [hposting] at hworker <;> nomatch hworker

/-- Where no call is let go of while its worker is picked up and not yet counted, no request
to unload a key is sent between a call's entry and the end of its chat POSTs on that key. -/
theorem no_unload_under_chat (ms : List Move) (hms : Along Process.step Counted .fresh ms) :
    Undisturbed (observed Process.step observe .fresh ms) := by
  intro a b c d i key hsights
  obtain ⟨ms₁, m₁, rest₁, rfl, hadd, -, hrest₁⟩ := observed_split Process.step hsights
  obtain ⟨ms₂, m₂, rest₂, rfl, hunload, -, hrest₂⟩ := observed_split Process.step hrest₁
  obtain ⟨ms₃, m₃, rest₃, rfl, hpost, -, -⟩ := observed_split Process.step hrest₂
  -- the state in which the request to unload goes out
  rw [show ms₁ ++ m₁ :: (ms₂ ++ m₂ :: (ms₃ ++ m₃ :: rest₃)) =
    ms₁ ++ m₁ :: ms₂ ++ m₂ :: (ms₃ ++ m₃ :: rest₃) by simp] at hms
  have hfound := Along.of_append Process.step hms
  have hsound := foldl_invariant_along Process.step (fun _ m h hm => h.step m hm)
    Process.Sound.fresh hfound.1
  rw [List.foldl_append, List.foldl_cons] at hsound
  have hentered := foldl_invariant Process.step (I := Entered i key) (fun _ m h => h.step m)
    (entered_of_added hadd) ms₂
  have hspent := spent_of_unloadSent hsound hunload hentered
  have hlast := foldl_invariant Process.step (I := Spent i) (fun _ m h => h.step m)
    (hspent.step m₂) ms₃
  exact not_postEnded hlast key hpost

/-- A call cancelled during its POST: the unload waits for the POST to end. -/
def patientRun : List Move :=
  [.call (txt "m"), .add 0, .read 0 true, .pick 0, .raise 0, .post 0, .cancel 0, .done 0, .lock 1,
    .claim 1 (txt "m"), .unload 1, .postEnd 0, .lower 0, .claim 1 (txt "m"), .unload 1, .release 1,
    .unlock 1]

theorem no_unload_under_patient_chat :
    Undisturbed (observed Process.step observe .fresh patientRun) :=
  no_unload_under_chat patientRun (by decide)

/-- A call cancelled between its worker's start and its worker's first statement. -/
def hastyRun : List Move :=
  [.call (txt "m"), .add 0, .read 0 true, .pick 0, .cancel 0, .done 0, .lock 1, .claim 1 (txt "m"),
    .unload 1, .raise 0, .post 0, .postEnd 0]

theorem uncounted_worker_unloaded :
    ¬∀ ms : List Move, Undisturbed (observed Process.step observe .fresh ms) := by
  intro h
  exact h hastyRun [] [] [] [] 0 (txt "m") (by decide)

end AskFable.Lms
