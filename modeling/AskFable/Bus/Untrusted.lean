import AskFable.Bus.Client
import AskFable.Bus.ErrorClosure
import AskFable.Bus.SideBySide

/-!
# An owner nobody trusts

Any number of machines write and read through an owner that answers what it likes: it may drop
writes, replay old envelopes, move them to other keys, change their headers or make envelopes of
its own. The AEAD opens only what a holder of the keyring encrypted. Then what a read returns was
written under its key, and is not older, by more than the slack, than what the machine has written
or accepted there before.
-/
namespace AskFable.Bus
open AskFable.Text AskFable.Python AskFable.Python.Bytes AskFable.Fallible

/-- What was encrypted opens under the same key, nonce and associated data. -/
structure Library.Recovers (lib : Library) : Prop where
  opens : ∀ k n p a c, lib.encrypt k n p a = some c → lib.decrypt k n c a = some p

/-- `get`, `get_meta` and `get_versioned` are one fetch. -/
inductive Op
  | put (w : Write)
  | fetch (key : Str)
  | delete (key : Str)
  | entries

/-- An operation on a machine, and what it finds there. -/
structure Step where
  machine : ℕ
  env : Env
  op : Op

/-- The marks of every machine. -/
abbrev Fleet := ℕ → Marks

section
variable [Host] (lib : Library) {F : Type} (floatOf : Json → Option F) (age : F → Option ℤ)

def Step.marks (s : Step) (marks : Marks) : Marks :=
  match s.op with
  | .put w => (put lib s.env marks w).2.1
  | .fetch key => (fetch lib s.env floatOf marks key).1
  | .delete key => (delete s.env marks key).1
  | .entries => (entries lib s.env floatOf age marks).1

def Fleet.step (fleet : Fleet) (s : Step) : Fleet :=
  Function.update fleet s.machine (s.marks lib floatOf age (fleet s.machine))

def Fleet.run (fleet : Fleet) (ss : List Step) : Fleet :=
  ss.foldl (Fleet.step lib floatOf age) fleet

/-- The call of `encrypt` that a write makes. -/
def Step.Encrypts (s : Step) (w : Write) (k n p a : Bytes) : Prop :=
  s.op = .put w ∧ ∃ kr, s.env.keyring = .ok kr ∧ k = lib.hkdf kr.active.2 w.salt.1 ∧
    n = w.nonce.1 ∧ encodeStrict (blobText w.value w.description) = .ok p ∧
    aad VER kr.active.1 (strip w.key) w.writer w.tsNs = .ok a

/-- The envelopes that a step is answered with. -/
def Step.served (s : Step) : List Str :=
  match s.op with
  | .fetch key =>
    match row floatOf s.env.net (strip key) with
    | .ok (some (envelope, _)) => [envelope]
    | _ => []
  | .entries =>
    match backendEntries floatOf s.env.net with
    | .ok rows => rows.filterMap ListRow.value
    | .error _ => []
  | .put _ | .delete _ => []

/-- A served envelope that a key of the ring opens, under any name, holds a ciphertext that a write
made before with just this key, nonce and associated data. -/
def Unforged (before : List Step) (s : Step) : Prop :=
  ∀ stored ∈ s.served floatOf, ∀ kr e psk keyName ad p, s.env.keyring = .ok kr →
    Addressed stored kr e psk → aad e.ver e.kid keyName e.writer e.tsNs = .ok ad →
    lib.decrypt (lib.hkdf psk e.salt) e.nonce e.ct ad = some p →
    ∃ q ∈ before, ∃ w p', q.Encrypts lib w (lib.hkdf psk e.salt) e.nonce p' ad ∧
      lib.encrypt (lib.hkdf psk e.salt) e.nonce p' ad = some e.ct

end

/-! ### What a read accepts -/

/-- What the guard lets through is not stale and becomes part of the mark. -/
theorem check_passed {g : Guard} {store store' : Option Marks} {key : Str} {ts : ℤ} {u : Unit}
    (hon : g.enabled = true) (h : check g store key ts = (store', .ok u)) :
    ∃ m, store = some m ∧ stale m key ts = false ∧ store' = some (bump m key ts) := by
  unfold check at h
  rw [if_pos hon] at h
  cases store with
  | none => simp at h
  | some m =>
    dsimp only at h
    cases hkey : bindText key with
    | error f => simp [hkey] at h
    | ok _ =>
      cases hts : bindInt ts with
      | error f => by_cases hs : stale m key ts = true <;> simp [hkey, hts, hs] at h
      | ok _ =>
        by_cases hs : stale m key ts = true
        · simp [hkey, hts, hs] at h
        · simp only [hkey, hts, if_neg hs, Prod.mk.injEq, and_true] at h
          exact ⟨m, rfl, by simpa using hs, h.symm⟩

section
variable [Host] {lib : Library}

/-- A blob that encodes reads back. -/
theorem readBlob_of_encode {v d : Str} {p : Bytes} (h : encodeStrict (blobText v d) = .ok p) :
    readBlob p = .ok (v, d) := by
  rcases encodeStrict_cases (blobText v d) with ⟨hplain, -⟩ | ⟨-, herror⟩
  · rw [blobText_surrogate, Bool.or_eq_false_iff] at hplain
    obtain ⟨bs, hbs, hread⟩ := readBlob_encode hplain.1 hplain.2
    rw [hbs] at h
    rwa [← Except.ok.inj h]
  · rw [herror] at h
    exact absurd h (by simp)

theorem unseal_opened {stored key : Str} {kr : Keyring} {r : Str × Str}
    (h : «unseal» lib stored key (.ok kr) = .ok r) :
    ∃ e psk ad p, Addressed stored kr e psk ∧ aad e.ver e.kid key e.writer e.tsNs = .ok ad ∧
      lib.decrypt (lib.hkdf psk e.salt) e.nonce e.ct ad = some p ∧ readBlob p = .ok r := by
  unfold «unseal» at h
  obtain ⟨_, -, h⟩ := of_bind_ok h
  obtain ⟨e, hparse, h⟩ := of_bind_ok h
  split_ifs at h with hver
  dsimp only at h
  cases hpsk : kr.get e.kid with
  | none => simp [hpsk] at h
  | some psk =>
    rw [hpsk] at h
    obtain ⟨ad, had, h⟩ := of_bind_ok h
    cases hdec : lib.decrypt (lib.hkdf psk e.salt) e.nonce e.ct ad with
    | none => simp [hdec] at h
    | some p =>
      rw [hdec] at h
      exact ⟨e, psk, ad, p, ⟨hparse, not_not.mp hver, hpsk⟩, had, hdec, h⟩

/-- A value that is returned was opened, and its timestamp passed the guard and became part of the
mark. -/
theorem openServed_returned {env : Env} {i : ℕ} {marks marks' : Marks} {stored key v : Str}
    {d : Option Str}
    (h : openServed lib env i marks stored key = (marks', .ok (.ok (v, d)))) :
    ∃ kr e, env.keyring = .ok kr ∧ «unseal» lib stored key (.ok kr) = .ok (v, d.getD []) ∧
      parse stored = .ok e ∧
      (env.guard.enabled = true →
        stale marks key e.tsNs = false ∧ marks' = bump marks key e.tsNs) := by
  unfold openServed readable at h
  by_cases hsealed : isSealed stored = true
  swap
  · simp [hsealed] at h
  rw [if_pos hsealed] at h
  cases hkr : env.keyring with
  | error err => simp [hkr] at h
  | ok kr =>
    rw [hkr] at h
    dsimp only at h
    cases hopen : «unseal» lib stored key (.ok kr) with
    | error r => cases r <;> simp [hopen] at h
    | ok p =>
      obtain ⟨value, description⟩ := p
      obtain ⟨e, _, _, _, ⟨hparse, -⟩, -⟩ := unseal_opened hopen
      have hmeta : envelopeMeta stored = .ok (e.ver, e.kid, e.writer, e.tsNs) := by
        rw [envelopeMeta, hparse]
        rfl
      simp only [hopen, hmeta, if_true] at h
      obtain ⟨store, guarded, hcheck⟩ : ∃ store guarded, check env.guard
          (if env.opens i then some marks else none) key e.tsNs = (store, guarded) := ⟨_, _, rfl⟩
      rw [hcheck] at h
      cases guarded with
      | error err => simp at h
      | ok u =>
        simp only [Prod.mk.injEq, Except.ok.injEq] at h
        obtain ⟨rfl, rfl, rfl⟩ := h
        refine ⟨kr, e, rfl, hopen, hparse, fun hon => ?_⟩
        obtain ⟨m, hm, hfresh, rfl⟩ := check_passed hon hcheck
        split_ifs at hm
        obtain rfl := Option.some.inj hm
        exact ⟨hfresh, rfl⟩

/-- A write of the steps, by its key, value, description and timestamp. -/
def Wrote (ss : List Step) (key v d : Str) (ts : ℤ) : Prop :=
  ∃ s ∈ ss, ∃ w, s.op = .put w ∧ strip w.key = key ∧ w.value = v ∧ w.description = d ∧ w.tsNs = ts

/-- What an unforged envelope opens to was written under the name it is opened with. -/
theorem wrote_of_unforged (hlib : lib.Recovers) {F : Type} {floatOf : Json → Option F}
    {before : List Step} {s : Step} (hunforged : Unforged lib floatOf before s) {stored : Str}
    (hserved : stored ∈ s.served floatOf) {kr : Keyring} (hkr : s.env.keyring = .ok kr)
    {key v d : Str} (hopen : «unseal» lib stored key (.ok kr) = .ok (v, d)) {e : Envelope}
    (hparse : parse stored = .ok e) : Wrote before key v d e.tsNs := by
  obtain ⟨e', psk, ad, p, haddressed, had, hdec, hread⟩ := unseal_opened hopen
  obtain rfl := Except.ok.inj (haddressed.1.symm.trans hparse)
  obtain ⟨q, hq, w, p', ⟨hput, kr', -, -, -, hblob, had'⟩, henc⟩ :=
    hunforged stored hserved kr e' psk key ad p hkr haddressed had hdec
  obtain ⟨-, -, rfl, -, hts⟩ := aad_injective had had'
  have hp : p' = p := Option.some.inj ((hlib.opens _ _ _ _ _ henc).symm.trans hdec)
  have hwrote : (w.value, w.description) = (v, d) :=
    Except.ok.inj ((readBlob_of_encode hblob).symm.trans (hp ▸ hread))
  exact ⟨q, hq, w, hput, rfl, congrArg Prod.fst hwrote, congrArg Prod.snd hwrote, hts.symm⟩

end

/-! ### Marks only rise, but for a delete -/

theorem check_rises (g : Guard) (store : Option Marks) (key : Str) (ts : ℤ) :
    (check g store key ts).1 = store ∨
      ∃ m, store = some m ∧ (check g store key ts).1 = some (bump m key ts) := by
  by_cases hon : g.enabled = true
  · cases store with
    | none => exact .inl (by simp [check, hon])
    | some m =>
      obtain ⟨store, r, hcheck⟩ : ∃ store r, check g (some m) key ts = (store, r) := ⟨_, _, rfl⟩
      cases r with
      | ok u =>
        obtain ⟨m', hm, -, rfl⟩ := check_passed hon hcheck
        exact .inr ⟨m', hm, by rw [hcheck]⟩
      | error err =>
        refine .inl ?_
        unfold check at hcheck ⊢
        rw [if_pos hon] at hcheck ⊢
        dsimp only at hcheck ⊢
        split at hcheck
        · rfl
        · split_ifs at hcheck ⊢
          · rfl
          · split at hcheck <;> simp_all
  · exact .inl (by simp [check, hon])

section
variable [Host] (lib : Library) (env : Env)

theorem rises_openServed (i : ℕ) (marks : Marks) (stored key : Str) :
    Rises marks (openServed lib env i marks stored key).1 := by
  have hstay : (if env.opens i then some marks else none).getD marks = marks := by
    split_ifs <;> rfl
  have hcheck (ts : ℤ) :
      Rises marks ((check env.guard (if env.opens i then some marks else none) key ts).1.getD marks) := by
    rcases check_rises env.guard (if env.opens i then some marks else none) key ts with
      hsame | ⟨m, hm, hbump⟩
    · rw [hsame, hstay]
      exact .refl marks
    · rw [hbump]
      split_ifs at hm
      rw [← Option.some.inj hm]
      exact rises_bump marks key ts
  have hsame : Rises marks ((if env.opens i then some marks else none).getD marks) := by
    rw [hstay]
    exact .refl marks
  unfold openServed readable
  by_cases hsealed : isSealed stored = true
  swap
  · simpa [hsealed] using hsame
  rw [if_pos hsealed]
  cases hkr : env.keyring with
  | error err => exact hsame
  | ok kr =>
    dsimp only
    cases «unseal» lib stored key (.ok kr) with
    | error r => cases r <;> exact hsame
    | ok p =>
      cases envelopeMeta stored with
      | error r => exact hsame
      | ok m =>
        have hts := hcheck m.2.2.2
        simp only [if_true]
        split <;> exact hts

omit [Host] in
theorem rises_record (marks : Marks) (key : Str) (ts : ℤ) : Rises marks (record env marks key ts) := by
  unfold record
  split
  · split_ifs
    · exact rises_bump marks key ts
    · exact .refl marks
  · exact .refl marks

omit [Host] in
theorem clear_of_ne (marks : Marks) {key key' : Str} (h : key' ≠ key) :
    clear env marks key key' = marks key' := by
  unfold clear
  cases bindText key with
  | error f => rfl
  | ok _ =>
    by_cases hon : env.guard.enabled = true ∧ env.opens 0 = true
    · simp only [if_pos hon, Function.update_of_ne h]
    · simp only [if_neg hon]

theorem rises_put (marks : Marks) (w : Write) : Rises marks (put lib env marks w).2.1 := by
  unfold put
  by_cases hnil : strip w.key = []
  · rw [if_pos hnil]
    exact .refl marks
  rw [if_neg hnil]
  cases w.message lib env with
  | error r => cases r <;> exact .refl marks
  | ok m =>
    dsimp only
    cases (request env.net m).2 with
    | error f => exact .refl marks
    | ok obj =>
      by_cases hzero : w.tsNs = 0
      · simpa only [if_pos hzero] using Rises.refl marks
      · simpa only [if_neg hzero] using rises_record env marks (strip w.key) w.tsNs

variable {F : Type} (floatOf : Json → Option F) (age : F → Option ℤ)

theorem rises_fetch (marks : Marks) (key : Str) : Rises marks (fetch lib env floatOf marks key).1 := by
  unfold fetch
  dsimp only
  cases row floatOf env.net (strip key) with
  | error f => exact .refl marks
  | ok r =>
    cases r with
    | none => exact .refl marks
    | some p =>
      have hopen := rises_openServed lib env 0 marks p.1 (strip key)
      dsimp only
      cases (openServed lib env 0 marks p.1 (strip key)).2 with
      | error e => exact hopen
      | ok reading => cases reading <;> exact hopen

theorem rises_listed (i : ℕ) (marks : Marks) (rows : List (ListRow F)) :
    Rises marks (listed lib env age i marks rows).1 := by
  induction rows generalizing i marks with
  | nil => exact .refl marks
  | cons r rows ih =>
    rw [listed]
    cases age r.ts with
    | none => exact .refl marks
    | some ageS =>
      cases r.value with
      | none => exact ih i marks
      | some raw =>
        have hopen := rises_openServed lib env i marks raw r.key
        dsimp only
        obtain ⟨marks', reading, heq⟩ : ∃ marks' reading,
            openServed lib env i marks raw r.key = (marks', reading) := ⟨_, _, rfl⟩
        rw [heq] at hopen ⊢
        cases reading with
        | error e => exact hopen
        | ok reading => exact hopen.trans (ih (i + 1) marks')

theorem rises_entries (marks : Marks) : Rises marks (entries lib env floatOf age marks).1 := by
  unfold entries
  cases backendEntries floatOf env.net with
  | error f => exact .refl marks
  | ok rows =>
    have hlisted := rises_listed lib env age 0 marks rows
    obtain ⟨marks', out, heq⟩ : ∃ marks' out, listed lib env age 0 marks rows = (marks', out) :=
      ⟨_, _, rfl⟩
    dsimp only
    rw [heq] at hlisted ⊢
    cases out <;> exact hlisted

/-- The mark of a key is at least a timestamp. -/
def Above (key : Str) (ts : ℤ) (marks : Marks) : Prop := ∃ a, marks key = some a ∧ ts ≤ a

omit [Host] in
theorem Above.mono {key : Str} {ts : ℤ} {marks marks' : Marks} (h : Above key ts marks)
    (hrises : Rises marks marks') : Above key ts marks' := by
  obtain ⟨a, ha, hle⟩ := h
  obtain ⟨b, hb, hab⟩ := hrises key a ha
  exact ⟨b, hb, hle.trans hab⟩

omit [Host] in
theorem above_bump (marks : Marks) (key : Str) (ts : ℤ) : Above key ts (bump marks key ts) := by
  refine ⟨_, bump_same marks key ts, ?_⟩
  cases marks key with
  | none => exact le_rfl
  | some a => exact le_max_left _ _

/-- The step deletes the key. -/
def Step.Deletes (s : Step) (key : Str) : Prop :=
  ∃ k, s.op = .delete k ∧ strip k = key ∧ (delete s.env (fun _ => none) k).2 = .returned true none

theorem Above.step {key : Str} {ts : ℤ} {marks : Marks} (h : Above key ts marks) {s : Step}
    (hkeep : ¬s.Deletes key) : Above key ts (s.marks lib floatOf age marks) := by
  unfold Step.marks
  cases hop : s.op with
  | put w => exact h.mono (rises_put lib s.env marks w)
  | fetch k => exact h.mono (rises_fetch lib s.env floatOf marks k)
  | entries => exact h.mono (rises_entries lib s.env floatOf age marks)
  | delete k =>
    have hne : strip k ≠ key ∨ (delete s.env (fun _ => none) k).2 ≠ .returned true none := by
      by_contra hc
      rw [not_or, not_not, not_not] at hc
      exact hkeep ⟨k, hop, hc⟩
    unfold delete at hne ⊢
    dsimp only at hne ⊢
    split_ifs with hnil
    · exact h
    rw [if_neg hnil] at hne
    cases hans : (request s.env.net (.delete (strip k))).2 with
    | error f => exact h
    | ok obj =>
      rw [hans] at hne
      dsimp only at hne ⊢
      split_ifs with hdeleted
      · rw [if_pos hdeleted] at hne
        have hother : strip k ≠ key := hne.resolve_right fun hc => hc rfl
        obtain ⟨a, ha, hle⟩ := h
        exact ⟨a, (clear_of_ne s.env marks hother.symm).trans ha, hle⟩
      · exact h

theorem Above.run {key : Str} {ts : ℤ} {machine : ℕ} {fleet : Fleet}
    (h : Above key ts (fleet machine)) {ss : List Step}
    (hkeep : ∀ s ∈ ss, s.machine = machine → ¬s.Deletes key) :
    Above key ts (fleet.run lib floatOf age ss machine) := by
  induction ss generalizing fleet with
  | nil => exact h
  | cons s ss ih =>
    refine ih ?_ fun s' hs' => hkeep s' (List.mem_cons_of_mem _ hs')
    by_cases hm : s.machine = machine
    · subst hm
      rw [Fleet.step, Function.update_self]
      exact h.step lib floatOf age (hkeep s List.mem_cons_self rfl)
    · rw [Fleet.step, Function.update_of_ne (Ne.symm hm)]
      exact h

/-! ### A read of an untrusted owner -/

/-- The step writes or accepts a timestamp for the key, and the guard takes note of it. -/
def Step.Stamps (s : Step) (marks : Marks) (key : Str) (ts : ℤ) : Prop :=
  s.env.guard.enabled = true ∧
    ((∃ w, s.op = .put w ∧ strip w.key = key ∧ w.tsNs = ts ∧
        (put lib s.env marks w).2.2 = .returned true none ∧ ts ≠ 0 ∧ s.env.opens 0 = true ∧
        bindText key = .ok () ∧ bindInt ts = .ok ()) ∨
      ∃ k r received envelope e, s.op = .fetch k ∧ strip k = key ∧
        (fetch lib s.env floatOf marks k).2 = .returned (some r) none ∧
        row floatOf s.env.net key = .ok (some (envelope, received)) ∧
        parse envelope = .ok e ∧ e.tsNs = ts)

variable {lib env floatOf}

theorem put_returned {marks : Marks} {w : Write}
    (h : (put lib env marks w).2.2 = .returned true none) :
    (put lib env marks w).2.1 =
      if w.tsNs = 0 then marks else record env marks (strip w.key) w.tsNs := by
  unfold put at h ⊢
  by_cases hnil : strip w.key = []
  · rw [if_pos hnil] at h
    simp at h
  rw [if_neg hnil] at h ⊢
  cases hm : w.message lib env with
  | error r => cases r <;> simp [hm] at h
  | ok m =>
    rw [hm] at h
    dsimp only at h ⊢
    cases hans : (request env.net m).2 with
    | error f => cases f <;> simp [hans, caught] at h
    | ok obj => rfl

theorem fetch_returned {marks : Marks} {key v d : Str} {received : F}
    (h : (fetch lib env floatOf marks key).2 = .returned (some (v, d, received)) none) :
    ∃ envelope kr e, row floatOf env.net (strip key) = .ok (some (envelope, received)) ∧
      env.keyring = .ok kr ∧ «unseal» lib envelope (strip key) (.ok kr) = .ok (v, d) ∧
      parse envelope = .ok e ∧
      (env.guard.enabled = true → stale marks (strip key) e.tsNs = false ∧
        (fetch lib env floatOf marks key).1 = bump marks (strip key) e.tsNs) := by
  unfold fetch at h ⊢
  dsimp only at h ⊢
  cases hrow : row floatOf env.net (strip key) with
  | error f => cases f <;> simp [hrow, caught] at h
  | ok r =>
    cases r with
    | none => simp [hrow] at h
    | some p =>
      obtain ⟨envelope, received'⟩ := p
      rw [hrow] at h
      dsimp only at h ⊢
      obtain ⟨marks', reading, hopen⟩ : ∃ marks' reading,
          openServed lib env 0 marks envelope (strip key) = (marks', reading) := ⟨_, _, rfl⟩
      rw [hopen] at h ⊢
      cases reading with
      | error r => simp at h
      | ok reading =>
        cases reading with
        | error e => simp at h
        | ok q =>
          obtain ⟨v', d'⟩ := q
          simp only [Ending.returned.injEq, Option.some.injEq, Prod.mk.injEq, and_true] at h
          obtain ⟨rfl, rfl, rfl⟩ := h
          obtain ⟨kr, e, hkr, hunseal, hparse, hguard⟩ := openServed_returned hopen
          exact ⟨envelope, kr, e, rfl, hkr, hunseal, hparse, hguard⟩

theorem above_of_stamps {s : Step} {marks : Marks} {key : Str} {ts : ℤ}
    (h : s.Stamps lib floatOf marks key ts) : Above key ts (s.marks lib floatOf age marks) := by
  obtain ⟨hon, ⟨w, hop, rfl, rfl, hput, hzero, hopens, hkey, hts⟩ |
    ⟨k, ⟨v, d, received⟩, received', envelope, e, hop, rfl, hfetch, hrow, hparse, rfl⟩⟩ := h
  · have hmarks : s.marks lib floatOf age marks = (put lib s.env marks w).2.1 := by
      rw [Step.marks, hop]
    rw [hmarks, put_returned hput, if_neg hzero, record, hkey, hts]
    simp only [hon, hopens, and_self, if_true]
    exact above_bump marks _ _
  · have hmarks : s.marks lib floatOf age marks = (fetch lib s.env floatOf marks k).1 := by
      rw [Step.marks, hop]
    obtain ⟨envelope', _, e', hrow', -, -, hparse', hguard⟩ := fetch_returned hfetch
    rw [hrow'] at hrow
    simp only [Except.ok.injEq, Option.some.injEq, Prod.mk.injEq] at hrow
    obtain ⟨rfl, -⟩ := hrow
    obtain rfl := Except.ok.inj (hparse'.symm.trans hparse)
    rw [hmarks, (hguard hon).2]
    exact above_bump marks _ _

omit [Host] in
/-- What is not stale is less than the slack below the mark. -/
theorem Above.le_of_fresh {key : Str} {t ts : ℤ} {marks : Marks} (h : Above key t marks)
    (hfresh : stale marks key ts = false) : t - SLACK_NS ≤ ts := by
  obtain ⟨a, ha, hle⟩ := h
  simp only [stale, ha, Option.any_some, decide_eq_false_iff_not, not_lt] at hfresh
  omega

theorem listed_opened {i : ℕ} {marks marks' : Marks} {rows : List (ListRow F)}
    {out : List ListEntry} (h : listed lib env age i marks rows = (marks', .ok out)) :
    ∀ x ∈ out, x.unreadable = none → x.descriptionOmitted = false →
      ∃ r ∈ rows, ∃ raw kr v e, r.key = x.key ∧ r.value = some raw ∧ env.keyring = .ok kr ∧
        «unseal» lib raw r.key (.ok kr) = .ok (v, x.description) ∧ x.bytes = v.length ∧
        parse raw = .ok e := by
  induction rows generalizing i marks out with
  | nil =>
    simp only [listed, Prod.mk.injEq, Except.ok.injEq] at h
    obtain ⟨-, rfl⟩ := h
    exact fun x hx => absurd hx (by simp)
  | cons r rows ih =>
    rw [listed] at h
    cases hage : age r.ts with
    | none => simp [hage] at h
    | some ageS =>
      rw [hage] at h
      -- the loop goes on with the rest, and that is listed too
      have hrest {i : ℕ} {m : Marks} {first : ListEntry}
          (h : ((listed lib env age i m rows).1,
            (listed lib env age i m rows).2.map (first :: ·)) = (marks', .ok out)) :
          ∃ rest, listed lib env age i m rows = (marks', .ok rest) ∧ out = first :: rest := by
        obtain ⟨m', rest, heq⟩ : ∃ m' rest, listed lib env age i m rows = (m', rest) := ⟨_, _, rfl⟩
        rw [heq] at h ⊢
        cases rest with
        | error f => simp [Except.map] at h
        | ok rest =>
          simp only [Except.map, Prod.mk.injEq, Except.ok.injEq] at h
          exact ⟨rest, by rw [h.1], h.2.symm⟩
      cases hvalue : r.value with
      | none =>
        rw [hvalue] at h
        obtain ⟨rest, hlisted, rfl⟩ := hrest h
        rintro x (_ | ⟨_, hx⟩) hreadable hkept
        · simp at hkept
        · obtain ⟨r', hr', hopened⟩ := ih hlisted x hx hreadable hkept
          exact ⟨r', List.mem_cons_of_mem _ hr', hopened⟩
      | some raw =>
        rw [hvalue] at h
        dsimp only at h
        obtain ⟨m', reading, hopen⟩ : ∃ m' reading,
            openServed lib env i marks raw r.key = (m', reading) := ⟨_, _, rfl⟩
        rw [hopen] at h
        cases reading with
        | error e => simp at h
        | ok reading =>
          obtain ⟨rest, hlisted, rfl⟩ := hrest h
          rintro x (_ | ⟨_, hx⟩) hreadable hkept
          · cases reading with
            | error e => simp [ListEntry.opened] at hreadable
            | ok p =>
              obtain ⟨v, d⟩ := p
              obtain ⟨kr, e, hkr, hunseal, hparse, -⟩ := openServed_returned hopen
              exact ⟨r, List.mem_cons_self, raw, kr, v, e, rfl, hvalue, hkr, hunseal, rfl, hparse⟩
          · obtain ⟨r', hr', hopened⟩ := ih hlisted x hx hreadable hkept
            exact ⟨r', List.mem_cons_of_mem _ hr', hopened⟩

/-- Whatever the owner answers, a value that a machine gets was written under its key with its
description, at a time no more than the slack before any that this machine's guard has taken note
of since the machine last deleted the key; and what a listing says of a value it opened is the
description and the size of one that was written under that key. -/
theorem owner_untrusted (hlib : lib.Recovers) (fleet : Fleet) (before : List Step) (s : Step)
    (hunforged : Unforged lib floatOf before s) :
    let marks := fleet.run lib floatOf age before s.machine
    (∀ key v d received, s.op = .fetch key →
      (fetch lib s.env floatOf marks key).2 = .returned (some (v, d, received)) none →
      ∃ ts, Wrote before (strip key) v d ts ∧
        (s.env.guard.enabled = true → ∀ b q b' t, before = b ++ q :: b' → q.machine = s.machine →
          q.Stamps lib floatOf (fleet.run lib floatOf age b q.machine) (strip key) t →
          (∀ r ∈ b', r.machine = s.machine → ¬r.Deletes (strip key)) → t - SLACK_NS ≤ ts)) ∧
    ∀ out lastError, s.op = .entries →
      (entries lib s.env floatOf age marks).2 = .returned out lastError →
      ∀ x ∈ out, x.unreadable = none → x.descriptionOmitted = false →
        ∃ v ts, Wrote before x.key v x.description ts ∧ x.bytes = v.length := by
  intro marks
  refine ⟨fun key v d received hop hfetch => ?_, fun out lastError hop hentries x hx hread hkept => ?_⟩
  · obtain ⟨envelope, kr, e, hrow, hkr, hopen, hparse, hguard⟩ := fetch_returned hfetch
    have hserved : envelope ∈ s.served floatOf := by simp [Step.served, hop, hrow]
    refine ⟨e.tsNs, wrote_of_unforged hlib hunforged hserved hkr hopen hparse,
      fun hon b q b' t hsplit hq hstamps hkeep => ?_⟩
    have habove : Above (strip key) t (fleet.run lib floatOf age (b ++ [q]) s.machine) := by
      rw [Fleet.run, List.foldl_append, List.foldl_cons, List.foldl_nil, Fleet.step, ← hq,
        Function.update_self]
      exact above_of_stamps age hstamps
    have hmarks : marks = Fleet.run lib floatOf age (fleet.run lib floatOf age (b ++ [q])) b'
        s.machine := by
      simp only [marks, Fleet.run, ← List.foldl_append, List.append_assoc, List.singleton_append,
        hsplit]
    refine Above.le_of_fresh ?_ (hguard hon).1
    rw [hmarks]
    exact habove.run lib floatOf age hkeep
  · unfold entries at hentries
    cases hrows : backendEntries floatOf s.env.net with
    | error f =>
      rw [hrows] at hentries
      cases f with
      | bus err =>
        simp only [caught, Ending.returned.injEq] at hentries
        exact absurd hx (by simp [← hentries.1])
      | raised _ | noNumber => simp [caught] at hentries
    | ok rows =>
      rw [hrows] at hentries
      dsimp only at hentries
      obtain ⟨m', out', hlisted⟩ : ∃ m' out', listed lib s.env age 0 marks rows = (m', out') :=
        ⟨_, _, rfl⟩
      rw [hlisted] at hentries
      cases out' with
      | error f => simp at hentries
      | ok out' =>
        simp only [Ending.returned.injEq] at hentries
        obtain ⟨r, hr, raw, kr, v, e, hkey, hvalue, hkr, hopen, hbytes, hparse⟩ :=
          listed_opened age (hentries.1 ▸ hlisted) x hx hread hkept
        have hserved : raw ∈ s.served floatOf := by
          simp only [Step.served, hop, hrows, List.mem_filterMap]
          exact ⟨r, hr, hvalue⟩
        exact ⟨v, e.tsNs, hkey ▸ wrote_of_unforged hlib hunforged hserved hkr hopen hparse, hbytes⟩

end

/-! ### A value on its way -/

/-- A machine that holds one key, and what its request is answered. -/
def aMachine (exchange : Except Str (ℕ × Bytes)) : Env where
  net := ⟨txt "unix:///bus", 4096, none, none, exchange⟩
  keyring := .ok (.single 1 (zeros KEY_LEN))
  guard := ⟨true, []⟩
  opens _ := true

def aWrite : Write :=
  ⟨txt "k", txt "v", txt "d", txt "w", 5, zeros SALT_LEN, zeros NONCE_LEN⟩

/-- The envelope of the write. -/
def anEnvelope : Str :=
  match aWrite.message Library.clear (aMachine (.error [])) with
  | .ok (.put _ envelope _ _ _) => envelope
  | _ => []

def anAnswer : Bytes :=
  Utf8.encodePass (txt "\x7b\"proto\": 1, \"found\": true, \"envelope\": \"" ++ anEnvelope ++
    txt "\", \"writer\": \"w\", \"ts_ns\": 5, \"received_ts\": 1.0\x7d")

/-- The owner serves the write of one machine to another. -/
def aRead : Step := ⟨1, aMachine (.ok (200, anAnswer)), .fetch (txt " k")⟩

def aPut : Step := ⟨0, aMachine (.error []), .put aWrite⟩

theorem Library.clear_recovers : Library.clear.Recovers where
  opens k n p a c h := by
    obtain ⟨c', hc', -, hdec⟩ := Library.clear_ideal.opens k n p a
    rwa [Option.some.inj (h.symm.trans hc')]

theorem owner_untrusted_read :
    letI := Host.ascii
    ∃ ts, Wrote [aPut] (txt "k") (txt "v") (txt "d") ts := by
  let _ := Host.ascii
  let floatOf : Json → Option Unit := fun _ => some ()
  have hunforged : Unforged Library.clear floatOf [aPut] aRead := by
    intro stored hserved kr e psk keyName ad p hkr haddressed had hdec
    have hstored : stored = anEnvelope := by
      rw [show aRead.served floatOf = [anEnvelope] by decide +kernel] at hserved
      exact List.mem_singleton.mp hserved
    obtain rfl : Keyring.single 1 (zeros KEY_LEN) = kr := Except.ok.inj hkr
    obtain ⟨hparse, -, hpsk⟩ := haddressed
    let ad' := (aad VER 1 (txt "k") (txt "w") 5).toOption.getD []
    let p' := (encodeStrict (blobText (txt "v") (txt "d"))).toOption.getD []
    have hct : parse anEnvelope = .ok ⟨VER, 1, txt "w", 5, (zeros SALT_LEN).1, (zeros NONCE_LEN).1,
        List.replicate TAG_LEN 0 ++ frame ad' p'⟩ := by decide +kernel
    rw [hstored, hct] at hparse
    obtain rfl := (Except.ok.inj hparse).symm
    have hsome : psk = (zeros KEY_LEN).1 :=
      (Option.some.inj ((Keyring.get_single 1 (zeros KEY_LEN)).symm.trans hpsk)).symm
    have had' : ad = ad' := by
      by_contra hne
      have hnone := Library.clear_ideal.binds psk psk (zeros NONCE_LEN).1 p' ad' ad _ rfl hne
      exact absurd (hnone.symm.trans hdec) (by simp)
    refine ⟨aPut, List.mem_singleton_self _, aWrite, p', ⟨rfl, _, rfl, ?_, rfl, ?_, ?_⟩, ?_⟩
    · rw [hsome]
      decide +kernel
    · decide +kernel
    · rw [had']
      decide +kernel
    · rw [had']
      rfl
  obtain ⟨ts, hwrote, -⟩ := (owner_untrusted (fun _ => none) Library.clear_recovers
    (fun _ _ => none) [aPut] aRead hunforged).1 (txt " k") (txt "v") (txt "d") () rfl
    (by decide +kernel)
  exact ⟨ts, hwrote⟩

end AskFable.Bus
