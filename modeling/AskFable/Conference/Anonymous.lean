import AskFable.Conference.Talk

/-!
# The copy without names

The header of an entry is written with the label of its seat, and the copy is made by cutting
the entry behind the first separator. Behind a label that has no separator in it that is the
header's own, so nothing of the label is left and the copy is the same whatever the labels
are. A label with a separator leaves what stands behind it.
-/
namespace AskFable.Conference
open AskFable.Text AskFable.Python AskFable.Debate AskFable.Cut AskFable.Roster

/-- The first separator of the entry is the one that follows the label. -/
def Plain (label : Str) : Prop := ¬ SEP <:+: label ++ txt " ·"

instance (label : Str) : Decidable (Plain label) := inferInstanceAs (Decidable (¬ _))

/-- What the copy is for: of a seat, an entry shows the pseudonym. -/
def veiled (s : Setup) (st : State) : List Str :=
  s.seed ++ st.contributions.map (Contribution.line (participant st.speakers s.synthesizer))

/-- The anonymised transcript. -/
def copyOf (s : Setup) (st : State) : List Str :=
  (anonymize s.label st.transcript s.seed.length st.speakers s.synthesizer st.lineKeys).1

/-! ### One entry -/

/-- What follows the label in an entry, behind the separator. -/
def Contribution.rest (c : Contribution) : Str :=
  txt "round " ++ natStr c.round ++ tag c.role ++ txt "] " ++ c.text

theorem Contribution.line_eq (who : Str → Str) (c : Contribution) :
    c.line who = (txt "[" ++ who c.seat) ++ (SEP ++ c.rest) := by
  simp only [Contribution.line, entry, Contribution.rest, List.append_assoc]

theorem plain_iff (label : Str) : Plain label ↔ ¬ SEP <:+: txt "[" ++ label ++ SEP.dropLast := by
  have hhead : ¬ SEP <+: cp '[' :: (label ++ txt " ·") := fun h =>
    absurd (List.cons_prefix_cons.mp h).1 (by decide)
  rw [show txt "[" ++ label ++ SEP.dropLast = cp '[' :: (label ++ txt " ·") from rfl,
    List.infix_cons_iff, or_iff_right hhead]
  exact Iff.rfl

theorem masked_line_eq_iff (label : Str → Str) (pseudo : Str) (c : Contribution) :
    masked (some pseudo) (c.line label) = entry pseudo c.round c.role c.text ↔
      Plain (label c.seat) := by
  have hsep : SEP ≠ [] := by decide
  have hopen : (txt "[").isPrefixOf (c.line label) = true :=
    List.isPrefixOf_iff_prefix.mpr ⟨_, by rw [c.line_eq, List.append_assoc]⟩
  obtain ⟨left, hcut, hnone⟩ := afterFirst_append (txt "[" ++ label (c.seat)) c.rest hsep
  have hgoal : entry pseudo c.round c.role c.text = txt "[" ++ pseudo ++ SEP ++ c.rest := by
    rw [show entry pseudo c.round c.role c.text = c.line fun _ => pseudo from rfl, c.line_eq,
      List.append_assoc (txt "[" ++ pseudo)]
  rw [plain_iff, ← hnone, masked, if_pos hopen, c.line_eq, hcut, hgoal]
  exact List.append_right_inj _ |>.trans List.append_left_eq_self

/-! ### The whole copy -/

variable {s : Setup} {cs : List Contribution} {st : State}

/-- Each entry is rewritten for the seat behind it, and the seed as it is. -/
theorem Written.copyOf_eq (h : Written s cs st) :
    copyOf s st = s.seed ++ cs.map fun c =>
      masked (some (participant st.speakers s.synthesizer c.seat)) (c.line s.label) := by
  have htake : st.transcript.take s.seed.length = s.seed := by rw [h.transcript, List.take_left]
  have hdrop : st.transcript.drop s.seed.length = cs.map (Contribution.line s.label) := by
    rw [h.transcript, List.drop_left]
  rw [copyOf, anonymize, htake, hdrop, List.append_right_inj, List.mapIdx_eq_iff]
  intro i
  have hkey : st.lineKeys[s.seed.length + i]? = cs[i]?.map fun c => some c.seat := by
    have hle : (s.seed.map fun _ => (none : Option Str)).length ≤ s.seed.length + i := by
      rw [List.length_map]
      exact Nat.le_add_right _ i
    rw [h.lineKeys, List.getElem?_append_right hle, List.length_map, Nat.add_sub_cancel_left,
      List.getElem?_map]
  rw [List.getElem?_map, List.getElem?_map]
  simp only [hkey]
  cases hi : cs[i]? with
  | none => rfl
  | some c =>
    have hspoke : c.seat ∈ st.speakers := h.mem_speakers.mpr ⟨c, List.mem_of_getElem? hi, rfl⟩
    simp only [Option.map_some, Option.bind_some, id_eq, Option.getD_some]
    rw [lookup_aliases hspoke]

theorem Written.copyOf_eq_veiled_iff (h : Written s cs st) :
    copyOf s st = veiled s st ↔ ∀ c ∈ cs, Plain (s.label c.seat) := by
  rw [h.copyOf_eq, veiled, h.contributions, List.append_right_inj, List.map_inj_left]
  exact forall₂_congr fun c _ => masked_line_eq_iff s.label _ c

/-! ### Two runs -/

/-- The names in the copy are a matter of who spoke when. -/
theorem Written.veiled_eq (h : Written s cs st) :
    veiled s st = s.seed ++ cs.map (Contribution.line
      (participant ((cs.map Contribution.seat).foldl enroll []) s.synthesizer)) := by
  rw [veiled, h.contributions, h.speakers]

/-- The same turns under other labels. -/
theorem Talk.relabel (h : Talk s cs st) (label : Str → Str) :
    ∃ st', Talk { s with label := label } cs st' := by
  induction h with
  | start => exact ⟨_, Talk.start⟩
  | take key result round role _ ih =>
    obtain ⟨st', hst'⟩ := ih
    exact ⟨_, hst'.take key result round role⟩
  | failure f _ ih => exact ih

/-- The copy of two states with the same contributions, where no label has a separator. -/
theorem Talk.copyOf_congr {st' : State} {label : Str → Str} (h : Talk s cs st)
    (h' : Talk { s with label := label } cs st') (hplain : ∀ c ∈ cs, Plain (s.label c.seat))
    (hplain' : ∀ c ∈ cs, Plain (label c.seat)) :
    copyOf { s with label := label } st' = copyOf s st := by
  rw [h.written.copyOf_eq_veiled_iff.mpr hplain, h'.written.copyOf_eq_veiled_iff.mpr hplain',
    h.written.veiled_eq, h'.written.veiled_eq]
  rfl

/-- Other labels leave the copy as it is exactly where no label has a separator in it. -/
theorem Talk.copyOf_unchanged_iff (h : Talk s cs st) :
    (∀ label st', Talk { s with label := label } cs st' → (∀ c ∈ cs, Plain (label c.seat)) →
        copyOf { s with label := label } st' = copyOf s st) ↔
      ∀ c ∈ cs, Plain (s.label c.seat) := by
  constructor
  · intro hsame
    have hnone : Plain [] := by decide
    have hplain : ∀ c ∈ cs, Plain ((fun _ => []) (Contribution.seat c)) := fun _ _ => hnone
    obtain ⟨st', h'⟩ := h.relabel fun _ => []
    rw [← h.written.copyOf_eq_veiled_iff, ← hsame _ st' h' hplain,
      h'.written.copyOf_eq_veiled_iff.mpr hplain, h.written.veiled_eq, h'.written.veiled_eq]
    rfl
  · exact fun hplain label st' h' hplain' => h.copyOf_congr h' hplain hplain'

/-! ### The legend -/

/-- The pseudonyms go to the seats that spoke, one each, and the last to the rapporteur's. -/
structure Named (s : Setup) (st : State) : Prop where
  once : st.speakers.Nodup
  spoke : ∀ k, k ∈ st.speakers ↔ ∃ c ∈ st.contributions, c.seat = k
  bijOn : Set.BijOn (participant st.speakers s.synthesizer) {k | k ∈ st.speakers}
    {p | ∃ i < st.speakers.length, pseudonym i = p}
  legend : ∀ p who, (legendOf s.label st.speakers s.synthesizer).lookup p = some who ↔
    ∃ k ∈ st.speakers, participant st.speakers s.synthesizer k = p ∧ s.label k = who
  last : s.synthesizer ∈ st.speakers →
    participant st.speakers s.synthesizer s.synthesizer = pseudonym (st.speakers.length - 1)

theorem Written.named (h : Written s cs st) : Named s st where
  once := h.nodup_speakers
  spoke k := by rw [h.contributions, h.mem_speakers]
  bijOn := bijOn_participant h.nodup_speakers
  legend _ _ := lookup_legendOf h.nodup_speakers s.label
  last := participant_rapporteur h.nodup_speakers

/-! ### A conference -/

section
variable [Host] {ask : Oracle}

/-- What the rapporteur reads, where no label has a separator in it. -/
theorem rapporteurCopy_of_plain
    (h : ∀ c ∈ (discussion s ask).1.contributions, Plain (s.label c.seat)) :
    rapporteurCopy s ask = render (veiled s (discussion s ask).1) s.seed.length
      ((discussion s ask).1.contributions.filter (·.round = 1)).length none := by
  obtain ⟨opening, later, htalk, hblind, hone, hmore⟩ := discussion_talk s ask
  rw [htalk.written.contributions] at h ⊢
  have hopening : (opening ++ later).filter (·.round = 1) = opening := by
    rw [List.filter_append, List.filter_eq_self.mpr (by simpa using hone),
      List.filter_eq_nil_iff.mpr (by simpa using hmore), List.append_nil]
  rw [hopening, hblind, ← htalk.written.copyOf_eq_veiled_iff.mpr h]
  rfl

/-- Two conferences with the same turns, in neither a label with a separator. -/
theorem rapporteurCopy_congr {label : Str → Str} {ask' : Oracle}
    (hsame : (discussion { s with label := label } ask').1.contributions =
      (discussion s ask).1.contributions)
    (h : ∀ c ∈ (discussion s ask).1.contributions, Plain (s.label c.seat))
    (h' : ∀ c ∈ (discussion s ask).1.contributions, Plain (label c.seat)) :
    rapporteurCopy { s with label := label } ask' = rapporteurCopy s ask := by
  obtain ⟨opening, later, htalk, -, -, -⟩ := discussion_talk s ask
  obtain ⟨opening', later', htalk', -, -, -⟩ := discussion_talk { s with label := label } ask'
  have hcs := htalk'.written.contributions.symm.trans (hsame.trans htalk.written.contributions)
  rw [rapporteurCopy_of_plain h, rapporteurCopy_of_plain (hsame ▸ h'), hsame,
    htalk.written.veiled_eq, htalk'.written.veiled_eq, hcs]
  rfl

theorem mapLegend_eq : (conference s ask).mapLegend =
    if (discussion s ask).1.posts.length < 2 then []
    else legendOf s.label (discussion s ask).1.speakers s.synthesizer := by
  by_cases h : (unmapped s ask).posts.length < 2
  · rw [conference, if_pos h]
    exact (if_pos h).symm
  · rw [conference, if_neg h]
    exact (if_neg h).symm

/-- In every conference the transcript and the seats behind its entries keep in step, and the
legend is one to one. The copy shows of a seat its pseudonym alone, and other labels leave it
as it is, exactly where no label of a seat that spoke has a separator in it. -/
theorem anonymous_iff_plain (s : Setup) (ask : Oracle) :
    let st := (discussion s ask).1
    let plain (label : Str → Str) := ∀ c ∈ st.contributions, Plain (label c.seat)
    (∀ cs st, Talk s cs st → st.transcript.length = st.lineKeys.length ∧ Written s cs st ∧
      Named s st) ∧
    Talk s st.contributions st ∧
    (conference s ask).transcript = st.transcript ∧
    (conference s ask).mapLegend = (if st.posts.length < 2 then []
      else legendOf s.label st.speakers s.synthesizer) ∧
    (copyOf s st = veiled s st ↔ plain s.label) ∧
    ((∀ label st', Talk { s with label := label } st.contributions st' → plain label →
      copyOf { s with label := label } st' = copyOf s st) ↔ plain s.label) ∧
    ∀ label ask', (discussion { s with label := label } ask').1.contributions = st.contributions →
      plain s.label → plain label →
      rapporteurCopy { s with label := label } ask' = rapporteurCopy s ask := by
  obtain ⟨opening, later, htalk, -, -, -⟩ := discussion_talk s ask
  have hsaid := htalk.written.contributions
  rw [← hsaid] at htalk
  refine ⟨fun cs st h => ⟨h.written.length_eq, h.written, h.written.named⟩, htalk,
    (conference_frame s ask).1, mapLegend_eq, htalk.written.copyOf_eq_veiled_iff,
    htalk.copyOf_unchanged_iff, ?_⟩
  intro label ask' hsame hplain hplain'
  exact rapporteurCopy_congr hsame hplain hplain'

end

/-- Two seats, one of them a gateway's model with the separator in its name. -/
def gatewaySetup (label : Str) : Setup where
  topic := txt "t"
  context := []
  bench := [txt "openrouter:a · b", txt "opus"]
  seated := List.cons_ne_nil _ _
  rounds := 1
  synthesizer := txt "fable"
  attackPremise := false
  label k := if k = txt "openrouter:a · b" then label else k

/-- The end of the label `a · b` stays in the copy, so the rapporteur does not read what it
reads under another label. -/
theorem label_left_in_copy :
    letI := Host.ascii
    let ask : Oracle := fun _ _ _ => ⟨.ok, [], txt "yes", [], []⟩
    let s := gatewaySetup (txt "a · b")
    let s' := gatewaySetup (txt "a b")
    copyOf s (discussion s ask).1 = [txt "TOPIC: t", txt "[Participant 1 · b · round 1] yes",
        txt "[Participant 2 · round 1] yes"] ∧
      copyOf s (discussion s ask).1 ≠ veiled s (discussion s ask).1 ∧
      (discussion s ask).1.contributions = (discussion s' ask).1.contributions ∧
      rapporteurCopy s ask ≠ rapporteurCopy s' ask := by
  refine ⟨?_, ?_, ?_, ?_⟩ <;> decide

end AskFable.Conference
