import AskFable.Bus.Daemon
import AskFable.General.AgedSet
import AskFable.General.Machine
import Mathlib.Data.Rat.Defs
import Mathlib.Algebra.Order.Ring.Rat
import Mathlib.Tactic.Linarith

/-!
# Request authentication

`_authorized` under a configured token, thread by thread: the check of a request reads the
clock once, the claim of its nonce once more, and only the claim itself is under the
lock. A clock reading is a rational number of seconds; the differences the daemon forms
are exact on floats of that size.
-/
namespace AskFable.Bus
open AskFable.Text AskFable.Python AskFable.Python.Bytes

def SKEW_S : ℚ := 60

/-- SHA-256 of a body and HMAC-SHA256 of a text under a key, both as `hexdigest` returns
them. -/
structure Digests where
  sha256 : Bytes → Str
  hmac : Bytes → Bytes → Str

/-- No two bodies and no two signed texts collide, and a digest is hexadecimal. -/
structure Digests.Binding (d : Digests) : Prop where
  body : Function.Injective d.sha256
  hex : ∀ b, ∀ c ∈ d.sha256 b, c ≠ cp '|'
  text : ∀ token, Function.Injective (d.hmac token)

def ROUTES : List Str := [txt "/v1/put", txt "/v1/get", txt "/v1/delete", txt "/v1/list"]

/-- `canonical`. -/
def canonical (d : Digests) (method path : Str) (ts : ℤ) (nonce : Str) (body : Bytes) : Str :=
  method ++ cp '|' :: (path ++ cp '|' :: (intStr ts ++ cp '|' :: (nonce ++ cp '|' :: d.sha256 body)))

/-- A request as its handler has read it. -/
structure Request where
  path : Str
  auth : Option Str
  body : Bytes

/-- What a signature is over, but for the method. -/
structure Signed where
  path : Str
  ts : ℤ
  nonce : Str
  body : Bytes
  deriving DecidableEq

/-- The smallest magnitude an integer no longer converts to a float. -/
def FLOAT_LIMIT : ℤ := .ofNat (Nat.pow 2 1024 - Nat.pow 2 970)

/-- The parts of the `X-AF-Auth` header. -/
def Request.parts (r : Request) : List Str := (r.auth.getD []).splitOn (cp '.')

section
variable [Host]

/-- `_authorized` up to the nonce, by one reading of the clock. -/
def checkAuth (d : Digests) (token : Bytes) (r : Request) (now : ℚ) : Except Stop Signed :=
  match r.parts with
  | [tsText, nonce, sig] =>
    match Host.intText tsText with
    | none => refuse 401 (txt "bad auth timestamp")
    | some ts =>
      if FLOAT_LIMIT ≤ |ts| then .error (.died .OverflowError)
      else if SKEW_S < |now - ts| then refuse 401 (txt "clock skew")
      else if nonce = [] ∨ 128 < nonce.length ∨ sig = [] then refuse 401 (txt "bad auth fields")
      else
        match Utf8.encode (canonical d (txt "POST") r.path ts nonce r.body) with
        | none => .error (.died .UnicodeEncodeError)
        | some canon =>
          if sig.all (fun c => decide (c.val < 128)) = true ∧ d.hmac token canon = sig then
            .ok ⟨r.path, ts, nonce, r.body⟩
          else refuse 401 (txt "bad signature")
  | _ => refuse 401 (txt "missing or malformed X-AF-Auth")

/-! ### The threads -/

/-- Where the handler of a request stands: its checks passed, or the clock read for its
claim. -/
inductive Stage
  | waiting
  | checked (s : Signed)
  | timed (s : Signed) (now : ℚ)
  | answered

/-- The nonces, the handlers and the clock, and two histories: the readings the claims
ran with, and the requests accepted. -/
structure Gate where
  seen : List (Str × ℚ)
  stage : ℕ → Stage
  clock : ℚ
  claims : List ℚ
  accepted : List Signed

/-- The gate of a fresh process. -/
def Gate.fresh (clock : ℚ) : Gate := ⟨[], fun _ => .waiting, clock, [], []⟩

/-- A handler's next move. -/
inductive Turn
  | check (i : ℕ) (r : Request) (now : ℚ)
  | readClock (i : ℕ) (now : ℚ)
  | claim (i : ℕ)

/-- One move. The handler of a request stands where it should, or the move is void. -/
def Gate.step (d : Digests) (token : Bytes) (g : Gate) : Turn → Gate
  | .check i r now =>
    match g.stage i with
    | .waiting =>
      { g with
        clock := now
        stage := Function.update g.stage i
          (match checkAuth d token r now with
          | .ok s => .checked s
          | .error _ => .answered) }
    | _ => { g with clock := now }
  | .readClock i now =>
    match g.stage i with
    | .checked s => { g with clock := now, stage := Function.update g.stage i (.timed s now) }
    | _ => { g with clock := now }
  | .claim i =>
    match g.stage i with
    | .timed s now =>
      { g with
        seen := (AgedSet.claim (2 * SKEW_S) now s.nonce g.seen).1
        stage := Function.update g.stage i .answered
        claims := now :: g.claims
        accepted :=
          if (AgedSet.claim (2 * SKEW_S) now s.nonce g.seen).2 then s :: g.accepted
          else g.accepted }
    | _ => g

/-- The clock does not run backwards. -/
def Gate.Ticks (g : Gate) : Turn → Prop
  | .check _ _ now => g.clock ≤ now
  | .readClock _ now => g.clock ≤ now
  | .claim _ => True

/-- When a request's nonce is claimed, no claim so far, its own included, has read the
clock later than the skew after the request's timestamp. -/
def Gate.InTime (g : Gate) : Turn → Prop
  | .claim i =>
    match g.stage i with
    | .timed s now => ∀ c ∈ now :: g.claims, c ≤ s.ts + SKEW_S
    | _ => True
  | _ => True

/-- All moves of a run have a property where they are made. -/
def Along (d : Digests) (token : Bytes) (P : Gate → Turn → Prop) : Gate → List Turn → Prop
  | _, [] => True
  | g, m :: ms => P g m ∧ Along d token P (g.step d token m) ms

instance (g : Gate) (m : Turn) : Decidable (g.Ticks m) :=
  match m with
  | .check _ _ now => inferInstanceAs (Decidable (g.clock ≤ now))
  | .readClock _ now => inferInstanceAs (Decidable (g.clock ≤ now))
  | .claim _ => isTrue trivial

instance (g : Gate) (m : Turn) : Decidable (g.InTime m) :=
  match m with
  | .check _ _ _ => isTrue trivial
  | .readClock _ _ => isTrue trivial
  | .claim i =>
    match h : g.stage i with
    | .timed s now =>
      decidable_of_iff (∀ c ∈ now :: g.claims, c ≤ s.ts + SKEW_S) (by simp only [Gate.InTime, h])
    | .waiting => isTrue (by simp only [Gate.InTime, h])
    | .checked _ => isTrue (by simp only [Gate.InTime, h])
    | .answered => isTrue (by simp only [Gate.InTime, h])

instance (d : Digests) (token : Bytes) (P : Gate → Turn → Prop) [∀ g m, Decidable (P g m)]
    (g : Gate) (ms : List Turn) : Decidable (Along d token P g ms) :=
  match ms with
  | [] => isTrue trivial
  | m :: ms =>
    letI : Decidable (Along d token P (g.step d token m) ms) :=
      instDecidableAlong d token P (g.step d token m) ms
    inferInstanceAs (Decidable (_ ∧ _))

/-! ### No replay -/

/-- What passes the check is what was sent, at a time within the skew. -/
theorem checkAuth_ok {d : Digests} {token : Bytes} {r : Request} {now : ℚ} {s : Signed}
    (h : checkAuth d token r now = .ok s) :
    |now - s.ts| ≤ SKEW_S ∧ s.path = r.path ∧ s.body = r.body ∧
      ∃ tsText canon, r.parts = [tsText, s.nonce, d.hmac token canon] ∧
        Utf8.encode (canonical d (txt "POST") s.path s.ts s.nonce s.body) = some canon := by
  unfold checkAuth at h
  split at h
  swap
  · exact absurd h (by simp [refuse])
  rename_i tsText nonce sig hparts
  cases hts : Host.intText tsText with
  | none => rw [hts] at h; exact absurd h (by simp [refuse])
  | some ts =>
    rw [hts] at h
    dsimp only at h
    split_ifs at h with hlimit hskew hfields
    · exact absurd h (by simp [refuse])
    · exact absurd h (by simp [refuse])
    · cases hc : Utf8.encode (canonical d (txt "POST") r.path ts nonce r.body) with
      | none => rw [hc] at h; exact absurd h (by simp)
      | some canon =>
        rw [hc] at h
        dsimp only at h
        split_ifs at h with hsig
        · rw [← Except.ok.inj h]
          exact ⟨not_lt.mp hskew, rfl, rfl, tsText, canon, by rw [hparts, hsig.2], hc⟩
        · exact absurd h (by simp [refuse])

/-- What holds between moves: a request under way was checked within the skew, and one
accepted is still remembered, unless some claim has read the clock too late for it. -/
structure Gate.Sound (g : Gate) : Prop where
  checked : ∀ i s, g.stage i = .checked s → s.ts - SKEW_S ≤ g.clock
  timed : ∀ i s now, g.stage i = .timed s now → s.ts - SKEW_S ≤ now
  kept : ∀ s ∈ g.accepted, ∃ c, s.ts - SKEW_S ≤ c ∧
    ((s.nonce, c) ∈ g.seen ∨ ∃ q ∈ g.claims, c + 2 * SKEW_S < q)
  distinct : g.accepted.Nodup

omit [Host] in
theorem Gate.fresh_sound (clock : ℚ) : (Gate.fresh clock).Sound where
  checked i s h := absurd h (by simp [Gate.fresh])
  timed i s now h := absurd h (by simp [Gate.fresh])
  kept s h := absurd h (by simp [Gate.fresh])
  distinct := List.nodup_nil

omit [Host] in
/-- A later reading of the clock changes nothing of it. -/
theorem Gate.Sound.later {g : Gate} (h : g.Sound) {now : ℚ} (hnow : g.clock ≤ now) :
    ({ g with clock := now } : Gate).Sound where
  checked i s hs := (h.checked i s hs).trans hnow
  timed := h.timed
  kept := h.kept
  distinct := h.distinct

omit [Host] in
/-- Nor does the move of a handler to a stage that was reached within the skew. -/
theorem Gate.Sound.moved {g : Gate} (h : g.Sound) (i : ℕ) {x : Stage}
    (hchecked : ∀ s, x = .checked s → s.ts - SKEW_S ≤ g.clock)
    (htimed : ∀ s now, x = .timed s now → s.ts - SKEW_S ≤ now) :
    ({ g with stage := Function.update g.stage i x } : Gate).Sound where
  checked j s hs := by
    by_cases hj : j = i
    · subst hj
      exact hchecked s ((Function.update_self j x g.stage).symm.trans hs)
    · exact h.checked j s ((Function.update_of_ne hj x g.stage).symm.trans hs)
  timed j s now hs := by
    by_cases hj : j = i
    · subst hj
      exact htimed s now ((Function.update_self j x g.stage).symm.trans hs)
    · exact h.timed j s now ((Function.update_of_ne hj x g.stage).symm.trans hs)
  kept := h.kept
  distinct := h.distinct

theorem Gate.Sound.check {g : Gate} (h : g.Sound) (d : Digests) (token : Bytes) (i : ℕ)
    (r : Request) {now : ℚ} (hnow : g.clock ≤ now) : (g.step d token (.check i r now)).Sound := by
  have hlater := h.later hnow
  rw [Gate.step]
  cases hst : g.stage i with
  | checked s => exact hlater
  | timed s t => exact hlater
  | answered => exact hlater
  | waiting =>
    refine hlater.moved i (fun s hs => ?_) (fun s t hs => ?_)
    · cases hc : checkAuth d token r now with
      | error e => rw [hc] at hs; exact absurd hs (by simp)
      | ok s' =>
        rw [hc] at hs
        obtain rfl := Stage.checked.inj hs
        have hskew := (abs_le.mp (checkAuth_ok hc).1).1
        show (s'.ts : ℚ) - SKEW_S ≤ now
        linarith
    · cases hc : checkAuth d token r now with
      | error e => rw [hc] at hs; exact absurd hs (by simp)
      | ok s' => rw [hc] at hs; exact absurd hs (by simp)

theorem Gate.Sound.readClock {g : Gate} (h : g.Sound) (d : Digests) (token : Bytes) (i : ℕ)
    {now : ℚ} (hnow : g.clock ≤ now) : (g.step d token (.readClock i now)).Sound := by
  have hlater := h.later hnow
  rw [Gate.step]
  cases hst : g.stage i with
  | waiting => exact hlater
  | timed s t => exact hlater
  | answered => exact hlater
  | checked s =>
    refine hlater.moved i (fun s' hs => absurd hs (by simp)) (fun s' t hs => ?_)
    obtain ⟨rfl, rfl⟩ := Stage.timed.inj hs
    exact hlater.checked i s hst

omit [Host] in
/-- The claim of a request under way refuses the nonce of one accepted with the same
timestamp. -/
theorem Gate.Sound.refuses {g : Gate} (h : g.Sound) {s : Signed} {now : ℚ}
    (hin : ∀ c ∈ now :: g.claims, c ≤ s.ts + SKEW_S)
    (hclaim : (AgedSet.claim (2 * SKEW_S) now s.nonce g.seen).2 = true) : s ∉ g.accepted := by
  intro hmem
  obtain ⟨c, hc, hkept⟩ := h.kept s hmem
  have hwithin (q : ℚ) (hq : q ∈ now :: g.claims) : q ≤ c + 2 * SKEW_S := by
    have hle := hin q hq
    linarith
  rcases hkept with hseen | ⟨q, hq, hlate⟩
  · have hrefused := AgedSet.claim_refused hseen (hwithin now List.mem_cons_self)
    rw [hrefused] at hclaim
    exact absurd hclaim Bool.false_ne_true
  · exact absurd (hwithin q (List.mem_cons_of_mem now hq)) (not_le.mpr hlate)

theorem Gate.Sound.claim {g : Gate} (h : g.Sound) (d : Digests) (token : Bytes) (i : ℕ)
    (hin : g.InTime (.claim i)) : (g.step d token (.claim i)).Sound := by
  rw [Gate.step]
  rw [Gate.InTime] at hin
  cases hst : g.stage i with
  | waiting => exact h
  | checked s => exact h
  | answered => exact h
  | timed s now =>
    rw [hst] at hin
    have hmoved := h.moved i (x := .answered) (fun s' hs => absurd hs (by simp))
      (fun s' t hs => absurd hs (by simp))
    refine ⟨hmoved.checked, hmoved.timed, fun s' hs => ?_, ?_⟩
    · have hold (hmem : s' ∈ g.accepted) : ∃ c, (s'.ts : ℚ) - SKEW_S ≤ c ∧
          ((s'.nonce, c) ∈ (AgedSet.claim (2 * SKEW_S) now s.nonce g.seen).1 ∨
            ∃ q ∈ now :: g.claims, c + 2 * SKEW_S < q) := by
        obtain ⟨c, hc, hkept⟩ := h.kept s' hmem
        refine ⟨c, hc, ?_⟩
        rcases hkept with hseen | ⟨q, hq, hlate⟩
        · by_cases hage : now ≤ c + 2 * SKEW_S
          · exact .inl (AgedSet.claim_keeps hseen hage)
          · exact .inr ⟨now, List.mem_cons_self, not_le.mp hage⟩
        · exact .inr ⟨q, List.mem_cons_of_mem now hq, hlate⟩
      dsimp only at hs
      split_ifs at hs with hclaim
      · rcases List.mem_cons.mp hs with rfl | hs
        · exact ⟨now, h.timed i s' now hst, .inl (AgedSet.claim_new hclaim)⟩
        · exact hold hs
      · exact hold hs
    · dsimp only
      split_ifs with hclaim
      · exact List.nodup_cons.mpr ⟨h.refuses hin hclaim, h.distinct⟩
      · exact h.distinct

theorem Gate.Sound.step {g : Gate} (h : g.Sound) (d : Digests) (token : Bytes) (m : Turn)
    (htick : g.Ticks m) (hin : g.InTime m) : (g.step d token m).Sound := by
  cases m with
  | check i r now => exact h.check d token i r htick
  | readClock i now => exact h.readClock d token i htick
  | claim i => exact h.claim d token i hin

theorem Gate.Sound.run {d : Digests} {token : Bytes} {ms : List Turn} {g : Gate} (h : g.Sound)
    (htick : Along d token Gate.Ticks g ms) (hin : Along d token Gate.InTime g ms) :
    (ms.foldl (Gate.step d token) g).Sound := by
  induction ms generalizing g with
  | nil => exact h
  | cons m ms ih => exact ih (h.step d token m htick.1 hin.1) htick.2 hin.2

/-! ### What a signature binds -/

omit [Host] in
theorem pipe_not_mem_intStr (n : ℤ) : cp '|' ∉ intStr n := by
  have hdigits (m : ℕ) : cp '|' ∉ natStr m := fun h =>
    absurd (natStr_digits m _ h) (by decide)
  cases n with
  | ofNat m => exact hdigits m
  | negSucc m =>
    intro h
    rcases List.mem_cons.mp h with hminus | hrest
    · exact absurd hminus (by decide)
    · exact hdigits _ hrest

omit [Host] in
theorem pipe_not_mem_route {path : Str} (h : path ∈ ROUTES) : cp '|' ∉ path := by
  have hall : ROUTES.all (fun path => decide (cp '|' ∉ path)) = true := by decide
  exact of_decide_eq_true (List.all_eq_true.mp hall path h)

omit [Host] in
/-- What stands before the first mark, and what after the last, can be told. -/
theorem piped_inj {a a' b b' : Str} (ha : cp '|' ∉ a) (ha' : cp '|' ∉ a')
    (h : a ++ cp '|' :: b = a' ++ cp '|' :: b') : a = a' ∧ b = b' := by
  induction a generalizing a' with
  | nil =>
    cases a' with
    | nil => exact ⟨rfl, (List.cons.inj h).2⟩
    | cons c a' =>
      rw [List.mem_cons, not_or] at ha'
      exact absurd (List.cons.inj h).1 ha'.1
  | cons c a ih =>
    rw [List.mem_cons, not_or] at ha
    cases a' with
    | nil => exact absurd (List.cons.inj h).1.symm ha.1
    | cons c' a' =>
      rw [List.mem_cons, not_or] at ha'
      obtain ⟨rfl, hrest⟩ := List.cons.inj h
      obtain ⟨rfl, hb⟩ := ih ha.2 ha'.2 hrest
      exact ⟨rfl, hb⟩

omit [Host] in
/-- The signed text determines what it was made of. -/
theorem canonical_injective {d : Digests} (hd : d.Binding) {s s' : Signed}
    (hpath : s.path ∈ ROUTES) (hpath' : s'.path ∈ ROUTES)
    (h : canonical d (txt "POST") s.path s.ts s.nonce s.body =
      canonical d (txt "POST") s'.path s'.ts s'.nonce s'.body) : s = s' := by
  obtain ⟨path, ts, nonce, body⟩ := s
  obtain ⟨path', ts', nonce', body'⟩ := s'
  have hmethod : cp '|' ∉ txt "POST" := by decide
  obtain ⟨-, h⟩ := piped_inj hmethod hmethod h
  obtain ⟨rfl, h⟩ := piped_inj (pipe_not_mem_route hpath) (pipe_not_mem_route hpath') h
  obtain ⟨hts, h⟩ := piped_inj (pipe_not_mem_intStr ts) (pipe_not_mem_intStr ts') h
  obtain rfl := intStr_injective hts
  -- the digest has no mark, so read from the back the nonce begins at the first one
  have hrev := congrArg List.reverse h
  rw [List.reverse_append, List.reverse_append, List.reverse_cons, List.reverse_cons,
    List.append_assoc, List.append_assoc, List.singleton_append, List.singleton_append] at hrev
  have hhex (b : Bytes) : cp '|' ∉ (d.sha256 b).reverse := fun hmem =>
    hd.hex b _ (List.mem_reverse.mp hmem) rfl
  obtain ⟨hbody, hnonce⟩ := piped_inj (hhex body) (hhex body') hrev
  obtain rfl := List.reverse_injective hnonce
  obtain rfl := hd.body (List.reverse_injective hbody)
  rfl

/-- Two requests that pass under one signature are the same. -/
theorem signature_binds {d : Digests} (hd : d.Binding) {token : Bytes} {r r' : Request}
    {now now' : ℚ} {s s' : Signed} (hpath : r.path ∈ ROUTES) (hpath' : r'.path ∈ ROUTES)
    (h : checkAuth d token r now = .ok s) (h' : checkAuth d token r' now' = .ok s')
    (hsig : r.parts.getLast? = r'.parts.getLast?) : s = s' := by
  obtain ⟨-, hp, -, tsText, canon, hparts, hcanon⟩ := checkAuth_ok h
  obtain ⟨-, hp', -, tsText', canon', hparts', hcanon'⟩ := checkAuth_ok h'
  rw [hparts, hparts'] at hsig
  have hmac : d.hmac token canon = d.hmac token canon' := by simpa using hsig
  obtain rfl := hd.text token hmac
  have hdecode := (Utf8.decode_encode hcanon).symm.trans (Utf8.decode_encode hcanon')
  exact canonical_injective hd (hp ▸ hpath) (hp' ▸ hpath') (Option.some.inj hdecode)

/-- In a run whose claims are in time, nothing is accepted twice; and a signature is over
one path, timestamp, nonce and body. -/
theorem no_replay (d : Digests) (token : Bytes) :
    (∀ (clock : ℚ) (ms : List Turn), Along d token Gate.Ticks (Gate.fresh clock) ms →
      Along d token Gate.InTime (Gate.fresh clock) ms →
      (ms.foldl (Gate.step d token) (Gate.fresh clock)).accepted.Nodup) ∧
    (d.Binding → ∀ (r r' : Request) (now now' : ℚ) (s s' : Signed), r.path ∈ ROUTES →
      r'.path ∈ ROUTES → checkAuth d token r now = .ok s → checkAuth d token r' now' = .ok s' →
      r.parts.getLast? = r'.parts.getLast? → s = s') := by
  constructor
  · intro clock ms htick hin
    exact ((Gate.fresh_sound clock).run htick hin).distinct
  · intro hd r r' now now' s s' hpath hpath' h h' hsig
    exact signature_binds hd hpath hpath' h h' hsig

end

/-! ### A claim that comes late -/

/-- Digests that hide nothing, to run the gate with. -/
def Digests.clear : Digests := ⟨fun _ => [], fun _ text => text.map fun b => Fin.ofNat _ b.val⟩

/-- A read request signed at second 100. -/
def signedGet : Request :=
  ⟨txt "/v1/get", some (txt "100.n.POST|/v1/get|100|n|"), []⟩

/-- The same request twice: its sender's clock is a minute ahead, and the second handler
reads the clock for its claim a second after its check. -/
def lateClaim : List Turn :=
  [.check 0 signedGet 40, .readClock 0 40, .claim 0, .check 1 signedGet 160, .readClock 1 161,
    .claim 1]

theorem no_replay_prompt :
    letI := Host.ascii
    (([.check 0 signedGet 40, .readClock 0 40, .claim 0, .check 1 signedGet 160, .readClock 1 160,
      .claim 1] : List Turn).foldl (Gate.step Digests.clear []) (Gate.fresh 0)).accepted.Nodup := by
  let _ := Host.ascii
  exact (no_replay Digests.clear []).1 0 _ (by decide +kernel) (by decide +kernel)

theorem late_claim_replays :
    letI := Host.ascii
    Along Digests.clear [] Gate.Ticks (Gate.fresh 0) lateClaim ∧
      (lateClaim.foldl (Gate.step Digests.clear []) (Gate.fresh 0)).accepted =
        [⟨txt "/v1/get", 100, txt "n", []⟩, ⟨txt "/v1/get", 100, txt "n", []⟩] := by
  let _ := Host.ascii
  exact ⟨by decide +kernel, by decide +kernel⟩

end AskFable.Bus
