import Mathlib.Data.List.Forall2
import StackAssembler.Assembly.Assemble
import StackAssembler.Proofs.LabelTable
import StackAssembler.Proofs.Layout

/-!
# The two passes

What each pass has computed behind the lines that it has read, in terms of the layout of these
lines. Each pass has one lemma that says what a successful step does and one that says why a step
fails; everything else about the passes follows from these.
-/

namespace StackAssembler

/-! ### The first pass -/

namespace Survey

lemma scan_eq_ok_iff {s s' : Survey} {l : SourceLine} :
    s.scan l = .ok s' ↔
      (∃ name labels, l.label? = some name ∧ s.labels.define name s.address = .ok labels ∧
        s' = { s with labels := labels, reach := s.reach.pastLabel }) ∨
      (∃ st, l.statement? = some st ∧ s.reach.admits = true ∧
        s' = { s with
          address := s.address + 1
          reach := s.reach.pastInstruction st.mnemonic }) ∨
      (∃ st, l.statement? = some st ∧ s.reach.admits = false ∧ s' = s) ∨
      (Line.classify l.text = .ok .ignorable ∧ s' = s) := by
  rw [scan, SourceLine.locate_eq_ok_iff, bind_eq_ok_iff]
  simp only [SourceLine.label?_eq_some_iff, SourceLine.statement?_eq_some_iff]
  cases h : Line.classify l.text with
  | error f => simp
  | ok line =>
    cases line with
    | label name =>
      cases hd : s.labels.define name s.address <;> simp [step, hd, eq_comm (a := s')]
    | instruction st =>
      cases ha : s.reach.admits <;> simp [step, ha, eq_comm (a := s')]
    | ignorable => simp [step, eq_comm (a := s')]

lemma scan_eq_error_iff {s : Survey} {l : SourceLine} {e : AssemblyError} :
    s.scan l = .error e ↔ ∃ f, e = .atLine l.number f ∧
      (Line.classify l.text = .error f ∨
        ∃ name, l.label? = some name ∧ s.labels.define name s.address = .error f) := by
  rw [scan, SourceLine.locate_eq_error_iff]
  refine exists_congr fun f => ?_
  rw [and_comm, bind_eq_error_iff]
  refine and_congr_right fun _ => ?_
  simp only [SourceLine.label?_eq_some_iff]
  cases h : Line.classify l.text with
  | error f => simp
  | ok line =>
    cases line with
    | label name =>
      cases hd : s.labels.define name s.address <;> simp [step, hd]
    | instruction st =>
      cases ha : s.reach.admits <;> simp [step, ha]
    | ignorable => simp [step]

/-- The state of the first pass behind lines, read off their layout. -/
def ofLines (config : Config) (ls : List SourceLine) : Survey :=
  ⟨(admitted config.policy ls).length, ⟨config.labelCapacity, bindings config.policy ls⟩,
    Reach.after config.policy ls⟩

lemma ofLines_nil (config : Config) : ofLines config [] = start config := by
  simp [ofLines, start, LabelTable.empty]

@[simp] lemma names_labels_ofLines (config : Config) (ls : List SourceLine) :
    (ofLines config ls).labels.names = names ls :=
  map_name_bindings config.policy ls

lemma run_concat (config : Config) (ls : List SourceLine) (l : SourceLine) :
    run config (ls ++ [l]) = run config ls >>= fun s => s.scan l :=
  foldlM_concat ls l

lemma eq_ofLines_of_scan {config : Config} {ls : List SourceLine} {l : SourceLine} {s : Survey}
    (h : (ofLines config ls).scan l = .ok s) : s = ofLines config (ls ++ [l]) := by
  rcases scan_eq_ok_iff.mp h with
    ⟨name, labels, hl, hd, rfl⟩ | ⟨st, hs, ha, rfl⟩ | ⟨st, hs, ha, rfl⟩ | ⟨hi, rfl⟩
  · obtain ⟨-, -, rfl⟩ := LabelTable.define_eq_ok_iff.mp hd
    simp only [ofLines, bindings_concat_of_label? config.policy ls hl,
      Reach.after_concat_of_label? config.policy ls hl,
      admitted_concat_of_no_statement config.policy ls (l.statement?_eq_none_of_label? hl)]
  · simp only [ofLines, Reach.after_concat_of_statement? config.policy ls hs,
      bindings_concat_of_no_label config.policy ls (l.label?_eq_none_of_statement? hs),
      admitted_concat_of_admits hs ha, List.length_append, List.length_singleton]
  · have hreach : Reach.after config.policy (ls ++ [l]) = Reach.after config.policy ls := by
      rw [Reach.after_concat_of_statement? config.policy ls hs]
      exact Reach.pastInstruction_of_not_admits _ ha
    simp only [ofLines, hreach, admitted_concat_of_not_admits l ha,
      bindings_concat_of_no_label config.policy ls (l.label?_eq_none_of_statement? hs)]
  · have hl : l.label? = none := by simp [SourceLine.label?, hi]
    have hs : l.statement? = none := by simp [SourceLine.statement?, hi]
    simp only [ofLines, Reach.after_concat_of_silent config.policy ls hl hs,
      bindings_concat_of_no_label config.policy ls hl,
      admitted_concat_of_no_statement config.policy ls hs]

/-- A first pass that succeeds has computed the layout of its lines. -/
theorem eq_ofLines_of_run {config : Config} {ls : List SourceLine} {s : Survey}
    (h : run config ls = .ok s) : s = ofLines config ls := by
  induction ls using List.reverseRecOn generalizing s with
  | nil =>
    cases h
    exact (ofLines_nil config).symm
  | append_singleton ls l ih =>
    rw [run_concat] at h
    obtain ⟨t, ht, hs⟩ := bind_eq_ok_iff.mp h
    rw [ih ht] at hs
    exact eq_ofLines_of_scan hs

/-- A first pass that succeeds has succeeded on the lines before any line. -/
lemma run_of_run_append {config : Config} {before after : List SourceLine} {s : Survey}
    (h : run config (before ++ after) = .ok s) : run config before = .ok (ofLines config before) := by
  rw [run, scanAll_append] at h
  obtain ⟨t, ht, -⟩ := bind_eq_ok_iff.mp h
  rw [← eq_ofLines_of_run ht]
  exact ht

end Survey

/-! ### The second pass -/

/-- The cell holds the word of an instruction and the line it stands on. -/
def Placement.Encodes (labels : LabelTable) (p : Placement) (cell : Cell) : Prop :=
  p.statement.word labels = .ok cell.word ∧ cell.line = p.line

namespace Emission

variable {maxWords : Nat} {labels : LabelTable} {config : Config}

lemma scan_eq_ok_iff {e e' : Emission} {l : SourceLine} :
    e.scan maxWords labels l = .ok e' ↔
      (∃ name, l.label? = some name ∧ e' = { e with reach := e.reach.pastLabel }) ∨
      (∃ st word, l.statement? = some st ∧ e.reach.admits = true ∧ st.word labels = .ok word ∧
        e.cells.size < maxWords ∧
        e' = ⟨e.cells.push ⟨word, l.number⟩, e.reach.pastInstruction st.mnemonic⟩) ∨
      (∃ st, l.statement? = some st ∧ e.reach.admits = false ∧ e' = e) ∨
      (Line.classify l.text = .ok .ignorable ∧ e' = e) := by
  rw [scan, SourceLine.locate_eq_ok_iff, bind_eq_ok_iff]
  simp only [SourceLine.label?_eq_some_iff, SourceLine.statement?_eq_some_iff]
  cases h : Line.classify l.text with
  | error f => simp
  | ok line =>
    cases line with
    | label name => simp [step, eq_comm (a := e')]
    | instruction st =>
      cases ha : e.reach.admits with
      | false => simp [step, ha, eq_comm (a := e')]
      | true =>
        cases hw : st.word labels with
        | error f => simp [step, ha, hw]
        | ok word =>
          by_cases hsize : e.cells.size < maxWords <;>
            simp [step, ha, hw, emit, hsize, eq_comm (a := e')]
    | ignorable => simp [step, eq_comm (a := e')]

lemma scan_eq_error_iff {e : Emission} {l : SourceLine} {err : AssemblyError} :
    e.scan maxWords labels l = .error err ↔ ∃ f, err = .atLine l.number f ∧
      (Line.classify l.text = .error f ∨
        ∃ st, l.statement? = some st ∧ e.reach.admits = true ∧
          (st.word labels = .error f ∨
            (∃ word, st.word labels = .ok word) ∧ maxWords ≤ e.cells.size ∧
              f = .imageFull maxWords)) := by
  rw [scan, SourceLine.locate_eq_error_iff]
  refine exists_congr fun f => ?_
  rw [and_comm, bind_eq_error_iff]
  refine and_congr_right fun _ => ?_
  simp only [SourceLine.statement?_eq_some_iff]
  cases h : Line.classify l.text with
  | error f => simp
  | ok line =>
    cases line with
    | label name => simp [step]
    | instruction st =>
      cases ha : e.reach.admits with
      | false => simp [step, ha]
      | true =>
        cases hw : st.word labels with
        | error f => simp [step, ha, hw]
        | ok word =>
          by_cases hsize : e.cells.size < maxWords
          · simp [step, ha, hw, emit, hsize, Nat.not_le.mpr hsize]
          · simp [step, ha, hw, emit, hsize, Nat.not_lt.mp hsize, eq_comm (a := f)]
    | ignorable => simp [step]

/-- What the second pass holds behind lines: the words of the admitted instructions. -/
structure Lays (config : Config) (labels : LabelTable) (ls : List SourceLine) (e : Emission) :
    Prop where
  cells : List.Forall₂ (Placement.Encodes labels) (admitted config.policy ls) e.cells.toList
  size_le : e.cells.size ≤ config.maxWords
  reach : e.reach = Reach.after config.policy ls

lemma Lays.size_eq {ls : List SourceLine} {e : Emission} (h : Lays config labels ls e) :
    e.cells.size = (admitted config.policy ls).length := by
  rw [h.cells.length_eq, Array.length_toList]

lemma lays_start : Lays config labels [] (start config) where
  cells := List.Forall₂.nil
  size_le := Nat.zero_le _
  reach := (Reach.after_nil config.policy).symm

lemma Lays.scan {ls : List SourceLine} {l : SourceLine} {e e' : Emission}
    (h : Lays config labels ls e) (he : e.scan config.maxWords labels l = .ok e') :
    Lays config labels (ls ++ [l]) e' := by
  obtain ⟨hcells, hsize, hreach⟩ := h
  rcases scan_eq_ok_iff.mp he with
    ⟨name, hl, rfl⟩ | ⟨st, word, hs, ha, hw, hroom, rfl⟩ | ⟨st, hs, ha, rfl⟩ | ⟨hi, rfl⟩
  · refine ⟨?_, hsize, ?_⟩
    · rwa [admitted_concat_of_no_statement config.policy ls (l.statement?_eq_none_of_label? hl)]
    · rw [Reach.after_concat_of_label? config.policy ls hl, ← hreach]
  · rw [hreach, Reach.admits_after] at ha
    refine ⟨?_, ?_, ?_⟩
    · rw [admitted_concat_of_admits hs ha, Array.toList_push]
      exact List.rel_append hcells (.cons ⟨hw, rfl⟩ .nil)
    · rw [Array.size_push]
      exact hroom
    · rw [Reach.after_concat_of_statement? config.policy ls hs, ← hreach]
  · refine ⟨?_, hsize, ?_⟩
    · rw [hreach, Reach.admits_after] at ha
      rwa [admitted_concat_of_not_admits l ha]
    · rw [Reach.after_concat_of_statement? config.policy ls hs, ← hreach,
        Reach.pastInstruction_of_not_admits _ ha]
  · have hl : l.label? = none := by simp [SourceLine.label?, hi]
    have hs : l.statement? = none := by simp [SourceLine.statement?, hi]
    refine ⟨?_, hsize, ?_⟩
    · rwa [admitted_concat_of_no_statement config.policy ls hs]
    · rw [Reach.after_concat_of_silent config.policy ls hl hs, ← hreach]

lemma run_concat (config : Config) (labels : LabelTable) (ls : List SourceLine) (l : SourceLine) :
    run config labels (ls ++ [l]) =
      run config labels ls >>= fun e => e.scan config.maxWords labels l :=
  foldlM_concat ls l

/-- A second pass that succeeds has laid out the admitted instructions of its lines. -/
theorem lays_of_run {ls : List SourceLine} {e : Emission} (h : run config labels ls = .ok e) :
    Lays config labels ls e := by
  induction ls using List.reverseRecOn generalizing e with
  | nil =>
    cases h
    exact lays_start
  | append_singleton ls l ih =>
    rw [run_concat] at h
    obtain ⟨t, ht, he⟩ := bind_eq_ok_iff.mp h
    exact (ih ht).scan he

end Emission

/-! ### The two passes together -/

lemma check_eq_ok_iff {config : Config} {source : String} :
    config.check source = .ok () ↔
      0 < config.maxWords ∧ 0 < config.labelCapacity ∧ source ≠ "" := by
  rw [Config.check]
  split_ifs with hwords hlabels hsource
  · simp [hwords]
  · simp [hlabels]
  · simp [hsource]
  · simp [hsource, Nat.pos_of_ne_zero hwords, Nat.pos_of_ne_zero hlabels]

lemma assemble_of_check {config : Config} {source : String} (h : config.check source = .ok ()) :
    assemble config source = Survey.run config (sourceLines source) >>= fun survey =>
      Emission.run config survey.labels (sourceLines source) >>= fun emission =>
        .ok ⟨emission.cells, survey.labels⟩ := by
  rw [assemble, h]
  rfl

lemma assemble_eq_ok_iff {config : Config} {source : String} {image : Image} :
    assemble config source = .ok image ↔ config.check source = .ok () ∧
      ∃ survey emission, Survey.run config (sourceLines source) = .ok survey ∧
        Emission.run config survey.labels (sourceLines source) = .ok emission ∧
        image = ⟨emission.cells, survey.labels⟩ := by
  cases h : config.check source with
  | error f => simp [assemble, h]
  | ok u =>
    rw [assemble_of_check h, bind_eq_ok_iff]
    simp only [bind_eq_ok_iff, Except.ok.injEq, true_and, eq_comm (a := image)]
    exact exists_congr fun survey => exists_and_left.symm

lemma Image.getElem?_words {image : Image} {i : Nat} {cell : Cell}
    (h : image.cells[i]? = some cell) : image.words[i]? = some cell.word := by
  rw [words, List.getElem?_map, Array.getElem?_toList, h, Option.map_some]

lemma Image.origin?_eq_some {image : Image} {i : Nat} {cell : Cell}
    (h : image.cells[i]? = some cell) : image.origin? i = some cell.line := by
  rw [origin?, h, Option.map_some]

/-- An image holds the words of the admitted instructions and the labels of the layout. -/
structure Image.Lays (config : Config) (ls : List SourceLine) (image : Image) : Prop where
  labels : image.labels = ⟨config.labelCapacity, bindings config.policy ls⟩
  cells : List.Forall₂ (Placement.Encodes image.labels) (admitted config.policy ls)
    image.cells.toList
  size_le : image.size ≤ config.maxWords

theorem lays_of_assemble {config : Config} {source : String} {image : Image}
    (h : assemble config source = .ok image) : image.Lays config (sourceLines source) := by
  obtain ⟨-, survey, emission, hsurvey, hemission, rfl⟩ := assemble_eq_ok_iff.mp h
  obtain ⟨hcells, hsize, -⟩ := Emission.lays_of_run hemission
  refine ⟨?_, hcells, hsize⟩
  rw [Survey.eq_ofLines_of_run hsurvey]
  rfl

namespace Image.Lays

variable {config : Config} {ls : List SourceLine} {image : Image}

lemma size_eq (h : image.Lays config ls) : image.size = (admitted config.policy ls).length := by
  rw [h.cells.length_eq, Array.length_toList, Image.size]

lemma map_line (h : image.Lays config ls) :
    image.cells.toList.map Cell.line = (admitted config.policy ls).map Placement.line := by
  have hlines : List.Forall₂ (· = ·) ((admitted config.policy ls).map Placement.line)
      (image.cells.toList.map Cell.line) := by
    rw [List.forall₂_map_left_iff, List.forall₂_map_right_iff]
    exact h.cells.imp fun p cell hp => hp.2.symm
  rw [List.forall₂_eq_eq_eq] at hlines
  exact hlines.symm

/-- As many words as instructions come from lines before a given one. -/
lemma length_filter_lt (h : image.Lays config ls) (n : Nat) :
    (image.cells.toList.filter (·.line < n)).length =
      ((admitted config.policy ls).filter (·.line < n)).length := by
  have hlines := congrArg (fun lines => (lines.filter (· < n)).length) h.map_line
  simpa [List.filter_map, Function.comp_def] using hlines

lemma length_words (h : image.Lays config ls) :
    image.words.length = (admitted config.policy ls).length := by
  rw [← h.size_eq, Image.words, List.length_map, Array.length_toList, Image.size]

/-- The cell at an address holds the word of the instruction at this address. -/
lemma exists_cell (h : image.Lays config ls) {i : Nat} {p : Placement}
    (hp : (admitted config.policy ls)[i]? = some p) :
    ∃ word, p.statement.word image.labels = .ok word ∧ image.cells[i]? = some ⟨word, p.line⟩ := by
  obtain ⟨hi, rfl⟩ := List.getElem?_eq_some_iff.mp hp
  have hi' : i < image.cells.toList.length := h.cells.length_eq ▸ hi
  have hcell := h.cells.get hi hi'
  refine ⟨image.cells.toList[i].word, hcell.1, ?_⟩
  rw [← Array.getElem?_toList, List.getElem?_eq_getElem hi']
  exact congrArg some (congrArg (Cell.mk _) hcell.2)

end Image.Lays

end StackAssembler
