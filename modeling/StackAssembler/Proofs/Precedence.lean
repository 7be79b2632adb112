import Mathlib.Data.Finset.Card
import Mathlib.Data.Finset.Dedup
import StackAssembler.Proofs.Passes
import StackAssembler.Proofs.Statement

/-!
# Precedence of faults

Which sources are assembled and which error is reported otherwise. Faults of label definitions and
faults of instructions are described line by line, without reference to the passes. A fault of a
label definition is reported before any fault of an instruction, however early the instruction
stands; among faults of one kind the first line counts. A source without faults is assembled to the
one image that lays out its lines: `assemble_eq_ok_iff_lays`.
-/

namespace StackAssembler

open Text

/-! ### Faults at lines -/

/-- The errors that a fault of a line stands for. -/
def Located (Fault : List SourceLine → SourceLine → LineFault → Prop) (before : List SourceLine)
    (l : SourceLine) (e : AssemblyError) : Prop :=
  ∃ f, e = .atLine l.number f ∧ Fault before l f

/-- The line with the given number has a fault. -/
def FaultAt (Fault : List SourceLine → SourceLine → LineFault → Prop) (ls : List SourceLine)
    (n : Nat) (f : LineFault) : Prop :=
  ∃ before l after, ls = before ++ l :: after ∧ l.number = n ∧ Fault before l f

section Located

variable {Fault : List SourceLine → SourceLine → LineFault → Prop} {ls : List SourceLine}

lemma clean_located_iff : Clean (Located Fault) ls ↔ ∀ n f, ¬ FaultAt Fault ls n f := by
  constructor
  · rintro h n f ⟨before, l, after, hls, -, hf⟩
    exact h before l after hls _ ⟨f, rfl, hf⟩
  · rintro h before l after hls e ⟨f, -, hf⟩
    exact h l.number f ⟨before, l, after, hls, rfl, hf⟩

/-- The fault with the smallest line number is the first one. -/
lemma firstFault_located_of_faultAt {n : Nat} {f : LineFault} (hls : Ascending ls)
    (h : FaultAt Fault ls n f) (hmin : ∀ m < n, ∀ g, ¬ FaultAt Fault ls m g) :
    FirstFault (Located Fault) ls (.atLine n f) := by
  obtain ⟨before, l, after, rfl, rfl, hf⟩ := h
  refine ⟨before, l, after, rfl, ⟨f, rfl, hf⟩, ?_⟩
  rw [clean_located_iff]
  rintro m g ⟨as, x, bs, rfl, rfl, hg⟩
  have hlt : x.number < l.number := by
    obtain ⟨-, -, hcross⟩ := List.pairwise_append.mp hls
    exact hcross x (by simp) l (by simp)
  exact hmin x.number hlt g ⟨as, x, bs ++ l :: after, by simp, rfl, hg⟩

end Located

/-! ### Faults of label definitions -/

/-- What is wrong with a label definition behind the given lines: it is malformed, its name is
defined before, or as many different names are defined before as the table has room for. -/
inductive LabelFault (capacity : Nat) (before : List SourceLine) (l : SourceLine) :
    LineFault → Prop where
  | malformed {text : String} (h : Line.classify l.text = .error (.malformedLabel text)) :
      LabelFault capacity before l (.malformedLabel text)
  | duplicate {name : String} (h : l.label? = some name) (hmem : name ∈ names before) :
      LabelFault capacity before l (.duplicateLabel name)
  | full {name : String} (h : l.label? = some name) (hnew : name ∉ names before)
      (hfull : capacity ≤ (names before).toFinset.card) :
      LabelFault capacity before l (.labelTableFull capacity)

lemma Line.classify_eq_error {text : String} {f : LineFault} (h : Line.classify text = .error f) :
    f = .malformedLabel (String.ofList (trim text.toList)) := by
  unfold Line.classify ofTokens at h
  split at h
  · cases h
  · split_ifs at h
    split at h
    · cases h
    · exact (Except.error.inj h).symm

namespace Survey

/-- No name is defined twice, and there is room for every name, where the first pass succeeds. -/
lemma nodup_names_of_run {config : Config} {ls : List SourceLine} {s : Survey}
    (h : run config ls = .ok s) :
    (names ls).Nodup ∧ (names ls).length ≤ config.labelCapacity := by
  induction ls using List.reverseRecOn generalizing s with
  | nil => exact ⟨List.nodup_nil, Nat.zero_le _⟩
  | append_singleton ls l ih =>
    rw [run_concat] at h
    obtain ⟨t, ht, hs⟩ := bind_eq_ok_iff.mp h
    obtain ⟨hnodup, hlength⟩ := ih ht
    obtain rfl := eq_ofLines_of_run ht
    cases hl : l.label? with
    | none =>
      rw [names_concat_of_no_label ls hl]
      exact ⟨hnodup, hlength⟩
    | some name =>
      rcases scan_eq_ok_iff.mp hs with
        ⟨name', labels, hl', hd, -⟩ | ⟨st, hst, -⟩ | ⟨st, hst, -⟩ | ⟨hi, -⟩
      · obtain rfl := Option.some.inj (hl.symm.trans hl')
        obtain ⟨hnew, hroom, -⟩ := LabelTable.define_eq_ok_iff.mp hd
        rw [names_labels_ofLines] at hnew
        rw [← LabelTable.length_names, names_labels_ofLines] at hroom
        rw [names_concat_of_label? ls hl, List.length_append, ← List.concat_eq_append]
        exact ⟨hnodup.concat hnew, hroom⟩
      · simp [l.label?_eq_none_of_statement? hst] at hl
      · simp [l.label?_eq_none_of_statement? hst] at hl
      · simp [SourceLine.label?, hi] at hl

/-- The errors of the first pass are the faults of label definitions. -/
lemma scan_eq_error_iff_labelFault {config : Config} {before : List SourceLine} {s : Survey}
    (hs : run config before = .ok s) (l : SourceLine) (e : AssemblyError) :
    s.scan l = .error e ↔ Located (LabelFault config.labelCapacity) before l e := by
  have hnodup := (nodup_names_of_run hs).1
  have hcard : (names before).toFinset.card = (ofLines config before).labels.size := by
    rw [List.toFinset_card_of_nodup hnodup, ← LabelTable.length_names, names_labels_ofLines]
  obtain rfl := eq_ofLines_of_run hs
  rw [scan_eq_error_iff, Located]
  refine exists_congr fun f => and_congr_right fun _ => ?_
  constructor
  · rintro (hf | ⟨name, hl, hd⟩)
    · obtain rfl := Line.classify_eq_error hf
      exact .malformed hf
    · rcases LabelTable.define_eq_error_iff.mp hd with ⟨hmem, rfl⟩ | ⟨hnew, hfull, rfl⟩
      · rw [names_labels_ofLines] at hmem
        exact .duplicate hl hmem
      · rw [names_labels_ofLines] at hnew
        rw [← hcard] at hfull
        exact .full hl hnew hfull
  · intro hf
    cases hf with
    | malformed h => exact Or.inl h
    | @duplicate name hl hmem =>
      refine Or.inr ⟨name, hl, LabelTable.define_eq_error_iff.mpr (Or.inl ⟨?_, rfl⟩)⟩
      rwa [names_labels_ofLines]
    | @full name hl hnew hfull =>
      refine Or.inr ⟨name, hl, LabelTable.define_eq_error_iff.mpr (Or.inr ⟨?_, ?_, rfl⟩)⟩
      · rwa [names_labels_ofLines]
      · rw [← hcard]
        exact hfull

/-- The first pass succeeds exactly where no label definition has a fault. -/
theorem run_eq_ok_iff {config : Config} {ls : List SourceLine} :
    (∃ s, run config ls = .ok s) ↔ ∀ n f, ¬ FaultAt (LabelFault config.labelCapacity) ls n f := by
  rw [← clean_located_iff]
  exact foldlM_eq_ok_iff fun _ l _ _ _ hs => scan_eq_error_iff_labelFault hs l

theorem run_eq_error_iff {config : Config} {ls : List SourceLine} {e : AssemblyError} :
    run config ls = .error e ↔ FirstFault (Located (LabelFault config.labelCapacity)) ls e :=
  foldlM_eq_error_iff fun _ l _ _ _ hs => scan_eq_error_iff_labelFault hs l

end Survey

/-! ### Faults of instructions -/

/-- What is wrong with an admitted instruction behind the given lines, where the given names are
defined: the statement has a fault, or as many instructions are admitted before as there is room
for words. -/
inductive CodeFault (config : Config) (names : List String) (before : List SourceLine)
    (l : SourceLine) : LineFault → Prop where
  | statement {s : Statement} {f : LineFault} (hs : l.statement? = some s)
      (hadmitted : config.policy.admitsAfter before = true) (hf : s.Fault names f) :
      CodeFault config names before l f
  | full {s : Statement} (hs : l.statement? = some s)
      (hadmitted : config.policy.admitsAfter before = true) (hf : ∀ f, ¬ s.Fault names f)
      (hfull : config.maxWords ≤ (admitted config.policy before).length) :
      CodeFault config names before l (.imageFull config.maxWords)

namespace Emission

variable {config : Config} {labels : LabelTable} {ls : List SourceLine}

/-- Where every line can be read, the errors of the second pass are the faults of instructions. -/
lemma scan_eq_error_iff_codeFault {before : List SourceLine} {e : Emission}
    (he : run config labels before = .ok e) {l : SourceLine}
    (hl : ∀ f, Line.classify l.text ≠ .error f) (err : AssemblyError) :
    e.scan config.maxWords labels l = .error err ↔
      Located (CodeFault config labels.names) before l err := by
  have hlays := lays_of_run he
  rw [scan_eq_error_iff, Located]
  refine exists_congr fun f => and_congr_right fun _ => ?_
  rw [hlays.reach, Reach.admits_after, hlays.size_eq]
  constructor
  · rintro (hf | ⟨s, hs, ha, hf | ⟨⟨word, hword⟩, hfull, rfl⟩⟩)
    · exact absurd hf (hl f)
    · exact .statement hs ha (Statement.word_eq_error_iff.mp hf)
    · refine .full hs ha (fun g hg => ?_) hfull
      rw [Statement.word_eq_error_iff.mpr hg] at hword
      cases hword
  · intro hf
    cases hf with
    | @statement s f hs ha hf =>
      exact Or.inr ⟨s, hs, ha, Or.inl (Statement.word_eq_error_iff.mpr hf)⟩
    | @full s hs ha hf hfull =>
      refine Or.inr ⟨s, hs, ha, Or.inr ⟨?_, hfull, rfl⟩⟩
      cases hword : s.word labels with
      | ok word => exact ⟨word, rfl⟩
      | error g => exact absurd (Statement.word_eq_error_iff.mp hword) (hf g)

/-- The second pass succeeds exactly where no instruction has a fault. -/
theorem run_eq_ok_iff (hls : ∀ l ∈ ls, ∀ f, Line.classify l.text ≠ .error f) :
    (∃ e, run config labels ls = .ok e) ↔
      ∀ n f, ¬ FaultAt (CodeFault config labels.names) ls n f := by
  rw [← clean_located_iff]
  refine foldlM_eq_ok_iff fun before l after e heq he => ?_
  exact scan_eq_error_iff_codeFault he (hls l (by simp [heq]))

theorem run_eq_error_iff (hls : ∀ l ∈ ls, ∀ f, Line.classify l.text ≠ .error f)
    {err : AssemblyError} :
    run config labels ls = .error err ↔
      FirstFault (Located (CodeFault config labels.names)) ls err := by
  refine foldlM_eq_error_iff fun before l after e heq he => ?_
  exact scan_eq_error_iff_codeFault he (hls l (by simp [heq]))

end Emission

/-! ### Outcome of an assembly -/

/-- A line can be read unless it is a malformed label definition. -/
lemma classify_ne_error_of_no_labelFault {capacity : Nat} {ls : List SourceLine}
    (h : ∀ n f, ¬ FaultAt (LabelFault capacity) ls n f) :
    ∀ l ∈ ls, ∀ f, Line.classify l.text ≠ .error f := by
  intro l hl f hf
  obtain ⟨before, after, rfl⟩ := List.append_of_mem hl
  obtain rfl := Line.classify_eq_error hf
  exact h l.number _ ⟨before, l, after, rfl, rfl, .malformed hf⟩

/-- The line of a source has a fault of a label definition. -/
abbrev LabelFaultAt (config : Config) (source : String) : Nat → LineFault → Prop :=
  FaultAt (LabelFault config.labelCapacity) (sourceLines source)

/-- The line of a source has a fault of an instruction. -/
abbrev CodeFaultAt (config : Config) (source : String) : Nat → LineFault → Prop :=
  FaultAt (CodeFault config (names (sourceLines source))) (sourceLines source)

section Outcome

variable {config : Config} {source : String}

/-- Without faults of label definitions an assembly goes as its second pass, and the labels of the
second pass are those of the whole source. -/
lemma exists_labels_of_no_labelFault (hcheck : config.check source = .ok ())
    (h : ∀ n f, ¬ LabelFaultAt config source n f) :
    ∃ labels : LabelTable, labels.names = names (sourceLines source) ∧
      assemble config source = Emission.run config labels (sourceLines source) >>= fun emission =>
        .ok ⟨emission.cells, labels⟩ := by
  obtain ⟨s, hs⟩ := Survey.run_eq_ok_iff.mpr h
  refine ⟨s.labels, ?_, ?_⟩
  · rw [Survey.eq_ofLines_of_run hs, Survey.names_labels_ofLines]
  · rw [assemble_of_check hcheck, hs]
    rfl

lemma assemble_eq_error_of_labelFaultAt {n : Nat} {f : LineFault}
    (hcheck : config.check source = .ok ()) (h : LabelFaultAt config source n f)
    (hmin : ∀ m < n, ∀ g, ¬ LabelFaultAt config source m g) :
    assemble config source = .error (.atLine n f) := by
  have hfirst := firstFault_located_of_faultAt (ascending_sourceLines source) h hmin
  rw [assemble_of_check hcheck, Survey.run_eq_error_iff.mpr hfirst]
  rfl

lemma assemble_eq_error_of_codeFaultAt {n : Nat} {f : LineFault}
    (hcheck : config.check source = .ok ()) (hlabels : ∀ n f, ¬ LabelFaultAt config source n f)
    (h : CodeFaultAt config source n f) (hmin : ∀ m < n, ∀ g, ¬ CodeFaultAt config source m g) :
    assemble config source = .error (.atLine n f) := by
  obtain ⟨labels, hnames, hassemble⟩ := exists_labels_of_no_labelFault hcheck hlabels
  have hfirst := firstFault_located_of_faultAt (ascending_sourceLines source) h hmin
  rw [← hnames] at hfirst
  have hread := classify_ne_error_of_no_labelFault hlabels
  rw [hassemble, (Emission.run_eq_error_iff hread).mpr hfirst]
  rfl

lemma assemble_eq_invalidInput_iff :
    (∃ fault, assemble config source = .error (.invalidInput fault)) ↔
      config.maxWords = 0 ∨ config.labelCapacity = 0 ∨ source = "" := by
  cases hcheck : config.check source with
  | error fault =>
    have hlimits : config.maxWords = 0 ∨ config.labelCapacity = 0 ∨ source = "" := by
      rw [Config.check] at hcheck
      split_ifs at hcheck with hwords hcapacity hsource
      · exact Or.inl hwords
      · exact Or.inr (Or.inl hcapacity)
      · exact Or.inr (Or.inr hsource)
    simp only [hlimits, iff_true]
    exact ⟨fault, by rw [assemble, hcheck]⟩
  | ok u =>
    obtain ⟨hwords, hcapacity, hsource⟩ := check_eq_ok_iff.mp hcheck
    -- behind the check every error is one of a line
    constructor
    · rintro ⟨fault, h⟩
      rw [assemble_of_check hcheck] at h
      rcases bind_eq_error_iff.mp h with hs | ⟨s, hs, h⟩
      · obtain ⟨before, l, after, -, ⟨f, hf, -⟩, -⟩ := Survey.run_eq_error_iff.mp hs
        cases hf
      · have hread := classify_ne_error_of_no_labelFault (Survey.run_eq_ok_iff.mp ⟨s, hs⟩)
        rcases bind_eq_error_iff.mp h with he | ⟨e, -, he⟩
        · obtain ⟨before, l, after, -, ⟨f, hf, -⟩, -⟩ := (Emission.run_eq_error_iff hread).mp he
          cases hf
        · cases he
    · rintro (h | h | h)
      · omega
      · omega
      · exact absurd h hsource

/-- A source is assembled exactly where no line has a fault. -/
lemma assemble_eq_ok_iff_no_fault (hcheck : config.check source = .ok ()) :
    (∃ image, assemble config source = .ok image) ↔
      (∀ n f, ¬ LabelFaultAt config source n f) ∧ ∀ n f, ¬ CodeFaultAt config source n f := by
  constructor
  · rintro ⟨image, himage⟩
    obtain ⟨-, s, e, hs, he, -⟩ := assemble_eq_ok_iff.mp himage
    have hlabels := Survey.run_eq_ok_iff.mp ⟨s, hs⟩
    refine ⟨hlabels, ?_⟩
    have hcode := (Emission.run_eq_ok_iff (classify_ne_error_of_no_labelFault hlabels)).mp ⟨e, he⟩
    rwa [Survey.eq_ofLines_of_run hs, Survey.names_labels_ofLines] at hcode
  · rintro ⟨hlabels, hcode⟩
    obtain ⟨labels, hnames, hassemble⟩ := exists_labels_of_no_labelFault hcheck hlabels
    rw [CodeFaultAt, ← hnames] at hcode
    obtain ⟨e, he⟩ :=
      (Emission.run_eq_ok_iff (classify_ne_error_of_no_labelFault hlabels)).mpr hcode
    exact ⟨_, by rw [hassemble, he]; rfl⟩

/-- Lines that an assembly has no fault with, apart from the words of their instructions: every line
can be read, no name is defined twice, and there is room for every name. -/
structure WellLabelled (capacity : Nat) (ls : List SourceLine) : Prop where
  readable : ∀ l ∈ ls, ∀ f, Line.classify l.text ≠ .error f
  nodup : (names ls).Nodup
  length_le : (names ls).length ≤ capacity

lemma WellLabelled.not_labelFault {capacity : Nat} {ls : List SourceLine}
    (h : WellLabelled capacity ls) (n : Nat) (f : LineFault) :
    ¬ FaultAt (LabelFault capacity) ls n f := by
  rintro ⟨before, l, after, rfl, -, hf⟩
  cases hf with
  | malformed hl => exact h.readable l (by simp) _ hl
  | duplicate hl hmem =>
    have hnodup := h.nodup
    rw [names_append, names_cons_of_label? after hl] at hnodup
    exact List.disjoint_of_nodup_append hnodup hmem (by simp)
  | full hl _ hfull =>
    have hlength := h.length_le
    have hcard := (names before).toFinset_card_le
    rw [names_append, names_cons_of_label? after hl, List.length_append,
      List.length_cons] at hlength
    omega

namespace Image.Lays

variable {ls : List SourceLine} {image image' : Image}

lemma names_labels (h : image.Lays config ls) : image.labels.names = names ls := by
  rw [h.labels]
  exact map_name_bindings config.policy ls

lemma not_codeFault (h : image.Lays config ls) (n : Nat) (f : LineFault) :
    ¬ FaultAt (CodeFault config (names ls)) ls n f := by
  rintro ⟨before, l, after, hls, -, hf⟩
  have hplace : ∀ s, l.statement? = some s → config.policy.admitsAfter before = true →
      (admitted config.policy ls)[(admitted config.policy before).length]? = some ⟨l.number, s⟩ :=
    fun s hs ha => getElem?_admitted_iff.mpr ⟨before, l, after, hls, ha, hs, rfl, rfl⟩
  cases hf with
  | statement hs ha hf =>
    obtain ⟨word, hword, -⟩ := h.exists_cell (hplace _ hs ha)
    rw [← h.names_labels] at hf
    rw [Statement.word_eq_error_iff.mpr hf] at hword
    cases hword
  | full hs ha _ hfull =>
    obtain ⟨hlt, -⟩ := List.getElem?_eq_some_iff.mp (hplace _ hs ha)
    rw [← h.size_eq] at hlt
    exact Nat.not_le.mpr hlt (Nat.le_trans h.size_le hfull)

/-- Lines are laid out in one way. -/
lemma unique (h : image.Lays config ls) (h' : image'.Lays config ls) : image = image' := by
  have hencodes : Relator.RightUnique (Placement.Encodes image.labels) := by
    rintro p ⟨word, line⟩ ⟨word', line'⟩ ⟨hword, hline⟩ ⟨hword', hline'⟩
    obtain rfl := Except.ok.inj (hword.symm.trans hword')
    exact congrArg (Cell.mk word) (hline.trans hline'.symm)
  have hlabels : image.labels = image'.labels := h.labels.trans h'.labels.symm
  have hcells' := h'.cells
  rw [← hlabels] at hcells'
  have hcells : image.cells = image'.cells :=
    Array.toList_inj.mp (hencodes.forall₂ h.cells hcells')
  cases image
  cases image'
  exact (Image.mk.injEq ..).mpr ⟨hcells, hlabels⟩

end Image.Lays

/-- A source is assembled to the image that lays out its lines, where its labels are in order. -/
theorem assemble_eq_ok_iff_lays {image : Image} :
    assemble config source = .ok image ↔ config.check source = .ok () ∧
      WellLabelled config.labelCapacity (sourceLines source) ∧
      image.Lays config (sourceLines source) := by
  constructor
  · intro h
    obtain ⟨hcheck, s, -, hs, -, -⟩ := assemble_eq_ok_iff.mp h
    obtain ⟨hnodup, hlength⟩ := Survey.nodup_names_of_run hs
    have hread := classify_ne_error_of_no_labelFault (Survey.run_eq_ok_iff.mp ⟨s, hs⟩)
    exact ⟨hcheck, ⟨hread, hnodup, hlength⟩, lays_of_assemble h⟩
  · rintro ⟨hcheck, hlabels, hlays⟩
    obtain ⟨image', himage'⟩ := (assemble_eq_ok_iff_no_fault hcheck).mpr
      ⟨hlabels.not_labelFault, hlays.not_codeFault⟩
    rw [himage', hlays.unique (lays_of_assemble himage')]

/-- The error of an assembly is a fault of the line that it names. -/
lemma faultAt_of_assemble_eq_error {n : Nat} {f : LineFault}
    (h : assemble config source = .error (.atLine n f)) :
    LabelFaultAt config source n f ∨ CodeFaultAt config source n f := by
  have hcheck : config.check source = .ok () := by
    cases hcheck : config.check source with
    | ok u => rfl
    | error fault =>
      rw [assemble, hcheck] at h
      cases h
  by_cases hlabels : ∀ n f, ¬ LabelFaultAt config source n f
  · obtain ⟨labels, hnames, hassemble⟩ := exists_labels_of_no_labelFault hcheck hlabels
    rw [hassemble] at h
    rcases bind_eq_error_iff.mp h with he | ⟨_, -, he⟩
    · have hread := classify_ne_error_of_no_labelFault hlabels
      obtain ⟨before, l, after, hls, ⟨g, heq, hg⟩, -⟩ := (Emission.run_eq_error_iff hread).mp he
      cases heq
      rw [hnames] at hg
      exact Or.inr ⟨before, l, after, hls, rfl, hg⟩
    · cases he
  · rw [assemble_of_check hcheck] at h
    rcases bind_eq_error_iff.mp h with hs | ⟨s, hs, -⟩
    · obtain ⟨before, l, after, hls, ⟨g, heq, hg⟩, -⟩ := Survey.run_eq_error_iff.mp hs
      cases heq
      exact Or.inl ⟨before, l, after, hls, rfl, hg⟩
    · exact absurd (Survey.run_eq_ok_iff.mp ⟨s, hs⟩) hlabels

end Outcome

/-- Which sources are assembled, and which error is reported otherwise. Limits of zero and an empty
source are refused. Any other source is assembled exactly where no line has a fault; the error is
that of the smallest line with a fault of a label definition, however early an instruction has one,
and where there is none that of the smallest line with a fault of an instruction. -/
theorem assemble_outcome (config : Config) (source : String) :
    ((∃ fault, assemble config source = .error (.invalidInput fault)) ↔
      config.maxWords = 0 ∨ config.labelCapacity = 0 ∨ source = "") ∧
    (0 < config.maxWords → 0 < config.labelCapacity → source ≠ "" →
      ((∃ image, assemble config source = .ok image) ↔
        (∀ n f, ¬ LabelFaultAt config source n f) ∧ ∀ n f, ¬ CodeFaultAt config source n f) ∧
      (∀ n f, LabelFaultAt config source n f →
        (∀ m < n, ∀ g, ¬ LabelFaultAt config source m g) →
        assemble config source = .error (.atLine n f)) ∧
      ((∀ n f, ¬ LabelFaultAt config source n f) →
        ∀ n f, CodeFaultAt config source n f → (∀ m < n, ∀ g, ¬ CodeFaultAt config source m g) →
        assemble config source = .error (.atLine n f))) := by
  refine ⟨assemble_eq_invalidInput_iff, fun hwords hcapacity hsource => ?_⟩
  have hcheck := check_eq_ok_iff.mpr ⟨hwords, hcapacity, hsource⟩
  refine ⟨assemble_eq_ok_iff_no_fault hcheck, fun n f h hmin => ?_, fun hlabels n f h hmin => ?_⟩
  · exact assemble_eq_error_of_labelFaultAt hcheck h hmin
  · exact assemble_eq_error_of_codeFaultAt hcheck hlabels h hmin

/-- A malformed label definition on the second line is reported before an unknown mnemonic on the
first, and where the definition is mended the mnemonic is. -/
theorem assemble_outcome_two_faults :
    assemble ⟨8, 4, .keep⟩ "FOO\n:\n" = .error (.atLine 2 (.malformedLabel ":")) ∧
    assemble ⟨8, 4, .keep⟩ "FOO\na:\n" = .error (.atLine 1 (.unknownMnemonic "FOO")) := by
  constructor
  · obtain ⟨-, h⟩ := assemble_outcome ⟨8, 4, .keep⟩ "FOO\n:\n"
    obtain ⟨-, hlabels, -⟩ := h (by decide) (by decide) (by decide)
    have hlines : sourceLines "FOO\n:\n" = [⟨1, "FOO"⟩, ⟨2, ":"⟩] := by decide +kernel
    refine hlabels 2 (.malformedLabel ":") ?_ ?_
    · exact ⟨[⟨1, "FOO"⟩], ⟨2, ":"⟩, [], hlines, rfl, .malformed (by decide +kernel)⟩
    · rintro m hm g ⟨before, l, after, heq, rfl, hg⟩
      have hnumber := number_of_sourceLines_eq heq
      obtain rfl := List.length_eq_zero_iff.mp (show before.length = 0 by omega)
      rw [hlines] at heq
      obtain ⟨rfl, -⟩ := List.cons.inj heq
      have hlabel : (⟨1, "FOO"⟩ : SourceLine).label? = none := by decide +kernel
      have hread : Line.classify "FOO" = .ok (.instruction ⟨"FOO", none, none⟩) := by
        decide +kernel
      cases hg with
      | malformed h => cases hread.symm.trans h
      | duplicate h _ => cases hlabel.symm.trans h
      | full h _ _ => cases hlabel.symm.trans h
  · obtain ⟨-, h⟩ := assemble_outcome ⟨8, 4, .keep⟩ "FOO\na:\n"
    obtain ⟨-, -, hcode⟩ := h (by decide) (by decide) (by decide)
    refine hcode (Survey.run_eq_ok_iff.mp ⟨⟨1, ⟨4, [⟨"a", 1⟩]⟩, ⟨.keep, false⟩⟩, ?_⟩) 1
      (.unknownMnemonic "FOO") ⟨[], ⟨1, "FOO"⟩, [⟨2, "a:"⟩], ?_, rfl, ?_⟩ ?_
    · decide +kernel
    · decide +kernel
    · exact .statement (s := ⟨"FOO", none, none⟩) (by decide +kernel) rfl (.unknown (by decide))
    · rintro m hm g ⟨before, l, after, heq, rfl, -⟩
      have hnumber := number_of_sourceLines_eq heq
      omega

end StackAssembler
