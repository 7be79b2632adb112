import StackAssembler.Journal
import StackAssembler.Proofs.Passes

/-!
# Agreement of the two passes

The passes keep separate accounts of the reach of control, yet they agree on the instructions of
the program, line by line. So the addresses that the first pass gives to labels are right for the
words that the second pass appends, and both journals tell of the same instructions left out.
-/

namespace StackAssembler

/-! ### Instructions left out -/

/-- The line and the mnemonic of an instruction that the first pass leaves out. -/
def Event.unreachable? : Event → Option (Nat × String)
  | .unreachable line mnemonic => some (line, mnemonic)
  | _ => none

/-- The line and the mnemonic of an instruction that the second pass leaves out. -/
def Event.skipped? : Event → Option (Nat × String)
  | .skipped line mnemonic => some (line, mnemonic)
  | _ => none

/-- The line and the mnemonic of an instruction that is left out behind the given lines. -/
def omission (policy : ReachPolicy) (before : List SourceLine) (l : SourceLine) :
    List (Nat × String) :=
  if policy.admitsAfter before then []
  else (l.statement?.map fun s => (l.number, s.mnemonic)).toList

namespace Survey

lemma unreachable?_events (s : Survey) (l : SourceLine) {policy : ReachPolicy}
    {before : List SourceLine} (h : s.reach = Reach.after policy before) :
    (s.events l).filterMap Event.unreachable? = omission policy before l := by
  have ha : s.reach.admits = policy.admitsAfter before := by rw [h, Reach.admits_after]
  cases hl : Line.classify l.text with
  | error f => simp [events, omission, SourceLine.statement?, hl]
  | ok line =>
    cases line with
    | label name => simp [events, omission, SourceLine.statement?, hl, Event.unreachable?]
    | instruction st =>
      cases hb : policy.admitsAfter before <;>
        simp [events, omission, SourceLine.statement?, hl, ha, hb, Event.unreachable?]
    | ignorable => simp [events, omission, SourceLine.statement?, hl]

/-- The journal of the first pass tells of every instruction that is left out. -/
lemma unreachable?_journal {config : Config} {before ls : List SourceLine} {s : Survey}
    (h : (ofLines config before).scanAll ls = .ok s) :
    ((ofLines config before).journal ls).filterMap Event.unreachable? =
      collectAfter (omission config.policy) before ls := by
  induction ls generalizing before with
  | nil => rfl
  | cons l ls ih =>
    rw [scanAll_cons] at h
    obtain ⟨next, hnext, h⟩ := bind_eq_ok_iff.mp h
    rw [journal, hnext, List.filterMap_append, unreachable?_events _ l rfl, collectAfter_cons]
    obtain rfl := eq_ofLines_of_scan hnext
    rw [ih h]

lemma skipped?_journal (s : Survey) (ls : List SourceLine) :
    (s.journal ls).filterMap Event.skipped? = [] := by
  induction ls generalizing s with
  | nil => rfl
  | cons l ls ih =>
    have hevents : (s.events l).filterMap Event.skipped? = [] := by
      rw [events]
      split
      · rfl
      · split_ifs <;> rfl
      · rfl
    rw [journal, List.filterMap_append, hevents, List.nil_append]
    cases s.scan l with
    | error e => rfl
    | ok next => exact ih next

end Survey

namespace Emission

lemma skipped?_events (e : Emission) (l : SourceLine) (next : Emission) {policy : ReachPolicy}
    {before : List SourceLine} (h : e.reach = Reach.after policy before) :
    (e.events l next).filterMap Event.skipped? = omission policy before l := by
  have ha : e.reach.admits = policy.admitsAfter before := by rw [h, Reach.admits_after]
  cases hl : Line.classify l.text with
  | error f => simp [events, omission, SourceLine.statement?, hl]
  | ok line =>
    cases line with
    | label name => simp [events, omission, SourceLine.statement?, hl]
    | instruction st =>
      cases hb : policy.admitsAfter before with
      | false => simp [events, omission, SourceLine.statement?, hl, ha, hb, Event.skipped?]
      | true =>
        cases next.cells.back? <;> simp [events, omission, hl, ha, hb, Event.skipped?]
    | ignorable => simp [events, omission, SourceLine.statement?, hl]

/-- The journal of the second pass tells of every instruction that is left out. -/
lemma skipped?_journal {config : Config} {labels : LabelTable} {before ls : List SourceLine}
    {e e' : Emission} (he : Lays config labels before e)
    (h : scanAll config.maxWords labels e ls = .ok e') :
    (e.journal config.maxWords labels ls).filterMap Event.skipped? =
      collectAfter (omission config.policy) before ls := by
  induction ls generalizing before e with
  | nil => rfl
  | cons l ls ih =>
    rw [scanAll_cons] at h
    obtain ⟨next, hnext, h⟩ := bind_eq_ok_iff.mp h
    rw [journal, hnext]
    show (e.events l next ++ next.journal config.maxWords labels ls).filterMap _ = _
    rw [List.filterMap_append, skipped?_events e l next he.reach, collectAfter_cons,
      ih (he.scan hnext) h]

lemma unreachable?_journal (maxWords : Nat) (labels : LabelTable) (e : Emission)
    (ls : List SourceLine) :
    (e.journal maxWords labels ls).filterMap Event.unreachable? = [] := by
  induction ls generalizing e with
  | nil => rfl
  | cons l ls ih =>
    rw [journal]
    cases e.scan maxWords labels l with
    | error err => rfl
    | ok next =>
      have hevents : (e.events l next).filterMap Event.unreachable? = [] := by
        rw [events]
        split
        · split_ifs
          · cases next.cells.back? <;> rfl
          · rfl
        · rfl
      show (e.events l next ++ next.journal maxWords labels ls).filterMap _ = _
      rw [List.filterMap_append, hevents, List.nil_append, ih next]

end Emission

/-- On a successful assembly both passes tell of the same instructions left out. -/
lemma unreachable?_eq_skipped?_assemblyJournal {config : Config} {source : String} {image : Image}
    (h : assemble config source = .ok image) :
    (assemblyJournal config source).filterMap Event.unreachable? =
      (assemblyJournal config source).filterMap Event.skipped? := by
  obtain ⟨hcheck, survey, emission, hsurvey, hemission, -⟩ := assemble_eq_ok_iff.mp h
  have hfirst : ((Survey.start config).journal (sourceLines source)).filterMap
      Event.unreachable? = collect (omission config.policy) (sourceLines source) := by
    rw [← Survey.ofLines_nil]
    refine Survey.unreachable?_journal (s := survey) ?_
    rw [Survey.ofLines_nil]
    exact hsurvey
  have hsecond := Emission.skipped?_journal Emission.lays_start hemission
  simp only [assemblyJournal, hcheck, hsurvey, List.filterMap_append, hfirst,
    Survey.skipped?_journal, Emission.unreachable?_journal, List.append_nil, List.nil_append]
  exact hsecond.symm

/-! ### Agreement -/

/-- The passes agree on which instructions exist. At every line that the second pass reaches, it
has appended as many words as the first pass has counted instructions, and it admits an instruction
there exactly when the first pass does. So on success the program is as long as the first pass
says, every label stands for the number of words from lines before its definition, and both passes
leave out the same instructions. -/
theorem passes_agree {config : Config} {source : String} {survey : Survey}
    (hsurvey : Survey.run config (sourceLines source) = .ok survey) :
    (∀ before l after e, sourceLines source = before ++ l :: after →
      Emission.run config survey.labels before = .ok e →
      ∃ s, Survey.run config before = .ok s ∧ e.cells.size = s.address ∧
        e.reach.admits = s.reach.admits) ∧
    ∀ image, assemble config source = .ok image →
      image.words.length = survey.address ∧
      (∀ i, (image.origin? i).isSome = true ↔ i < image.words.length) ∧
      image.labels.entries = (definitions (sourceLines source)).map (fun d =>
        ⟨d.2, (image.cells.toList.filter (·.line < d.1)).length⟩) ∧
      image.labels.entries.Pairwise (fun a b => a.address ≤ b.address) ∧
      (∀ label ∈ image.labels.entries, label.address ≤ image.words.length) ∧
      (assemblyJournal config source).filterMap Event.unreachable? =
        (assemblyJournal config source).filterMap Event.skipped? := by
  refine ⟨fun before l after e hls he => ?_, fun image himage => ?_⟩
  · rw [hls] at hsurvey
    refine ⟨Survey.ofLines config before, Survey.run_of_run_append hsurvey, ?_, ?_⟩
    · exact (Emission.lays_of_run he).size_eq
    · rw [(Emission.lays_of_run he).reach]
      rfl
  · have hlays := lays_of_assemble himage
    refine ⟨?_, fun i => ?_, ?_, ?_, fun label hlabel => ?_, ?_⟩
    · rw [hlays.length_words, Survey.eq_ofLines_of_run hsurvey]
      rfl
    · simp [Image.origin?, Image.words]
    · rw [hlays.labels]
      simp only [hlays.length_filter_lt]
      exact bindings_eq_map_definitions (ascending_sourceLines source)
    · rw [hlays.labels]
      exact bindings_pairwise config.policy _
    · rw [hlays.labels] at hlabel
      rw [hlays.length_words]
      exact address_le_of_mem_bindings hlabel
    · exact unreachable?_eq_skipped?_assemblyJournal himage

/-- Behind a jump both passes leave out an instruction that no operation has the name of. -/
theorem passes_agree_behind_jump :
    Survey.run ⟨8, 4, .pruneAfterJump⟩ (sourceLines "JMP end\nFOO 1\nend:\nOUT\n") =
      .ok ⟨2, ⟨4, [⟨"end", 1⟩]⟩, ⟨.pruneAfterJump, false⟩⟩ ∧
    Emission.run ⟨8, 4, .pruneAfterJump⟩ ⟨4, [⟨"end", 1⟩]⟩ [⟨1, "JMP end"⟩] =
      .ok ⟨#[⟨0x6001, 1⟩], ⟨.pruneAfterJump, true⟩⟩ ∧
    (∃ s, Survey.run ⟨8, 4, .pruneAfterJump⟩ [⟨1, "JMP end"⟩] = .ok s ∧ 1 = s.address ∧
      false = s.reach.admits) ∧
    assemble ⟨8, 4, .pruneAfterJump⟩ "JMP end\nFOO 1\nend:\nOUT\n" =
      .ok ⟨#[⟨0x6001, 1⟩, ⟨0x9000, 4⟩], ⟨4, [⟨"end", 1⟩]⟩⟩ ∧
    (assemblyJournal ⟨8, 4, .pruneAfterJump⟩ "JMP end\nFOO 1\nend:\nOUT\n").filterMap
        Event.unreachable? =
      (assemblyJournal ⟨8, 4, .pruneAfterJump⟩ "JMP end\nFOO 1\nend:\nOUT\n").filterMap
        Event.skipped? := by
  have hsurvey : Survey.run ⟨8, 4, .pruneAfterJump⟩
      (sourceLines "JMP end\nFOO 1\nend:\nOUT\n") =
      .ok ⟨2, ⟨4, [⟨"end", 1⟩]⟩, ⟨.pruneAfterJump, false⟩⟩ := by decide +kernel
  have hemission : Emission.run ⟨8, 4, .pruneAfterJump⟩ ⟨4, [⟨"end", 1⟩]⟩ [⟨1, "JMP end"⟩] =
      .ok ⟨#[⟨0x6001, 1⟩], ⟨.pruneAfterJump, true⟩⟩ := by decide +kernel
  have himage : assemble ⟨8, 4, .pruneAfterJump⟩ "JMP end\nFOO 1\nend:\nOUT\n" =
      .ok ⟨#[⟨0x6001, 1⟩, ⟨0x9000, 4⟩], ⟨4, [⟨"end", 1⟩]⟩⟩ := by decide +kernel
  obtain ⟨hlines, hresult⟩ := passes_agree hsurvey
  refine ⟨hsurvey, hemission, ?_, himage, (hresult _ himage).2.2.2.2.2⟩
  exact hlines [⟨1, "JMP end"⟩] ⟨2, "FOO 1"⟩ [⟨3, "end:"⟩, ⟨4, "OUT"⟩] _ (by decide +kernel)
    hemission

end StackAssembler
