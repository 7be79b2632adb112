import StackAssembler.Proofs.Precedence

/-!
# Limits of an assembly

The limits of an assembly are thresholds: they say whether a source has a program, never which one.
A source that is assembled under some limits is assembled under all limits with room for its words
and labels, to the same words from the same lines and to the same labels. Where a limit is too
small, the error names the first label or word that there is no room for, and a label goes before
any word. `assemble_limits` puts this together.
-/

namespace StackAssembler

/-! ### Too few labels -/

lemma length_definitions (ls : List SourceLine) :
    (definitions ls).length = (names ls).length := by
  rw [definitions, names, List.filterMap_eq_flatMap_toList, List.filterMap_eq_flatMap_toList,
    List.length_flatMap, List.length_flatMap]
  congr 1
  refine List.map_congr_left fun l _ => ?_
  cases l.label? <;> rfl

/-- The definition at a place among the definitions stands on a line with so many definitions before
it. -/
lemma exists_of_getElem?_definitions {ls : List SourceLine} {i : Nat} {d : Nat × String}
    (h : (definitions ls)[i]? = some d) :
    ∃ before l after, ls = before ++ l :: after ∧ l.number = d.1 ∧ l.label? = some d.2 ∧
      (names before).length = i := by
  rw [definitions, List.filterMap_eq_flatMap_toList, ← collect_eq_flatMap] at h
  obtain ⟨before, l, after, k, rfl, hi, hd⟩ := exists_of_getElem?_collect h
  rw [collect_eq_flatMap, ← List.filterMap_eq_flatMap_toList] at hi
  change i = (definitions before).length + k at hi
  rw [length_definitions] at hi
  cases hl : l.label? with
  | none => simp [hl] at hd
  | some name =>
    -- a line gives one definition, so the place among what it gives is the first
    obtain ⟨rfl, rfl⟩ : k = 0 ∧ (l.number, name) = d := by
      simpa [hl, List.getElem?_singleton] using hd
    exact ⟨before, l, after, rfl, rfl, hl, hi.symm⟩

lemma WellLabelled.of_append {capacity capacity' : Nat} {as bs : List SourceLine}
    (h : WellLabelled capacity (as ++ bs)) (hlength : (names as).length ≤ capacity') :
    WellLabelled capacity' as where
  readable := by
    intro l hl
    exact h.readable l (List.mem_append_left bs hl)
  nodup := by
    have hnodup := h.nodup
    rw [names_append] at hnodup
    exact hnodup.of_append_left
  length_le := hlength

/-- Where the names are in order but too many, the first pass stops at the first name that there is
no room for. -/
lemma Survey.run_eq_labelTableFull (config : Config) {capacity : Nat} {ls : List SourceLine}
    {d : Nat × String} (h : WellLabelled capacity ls)
    (hd : (definitions ls)[config.labelCapacity]? = some d) :
    Survey.run config ls = .error (.atLine d.1 (.labelTableFull config.labelCapacity)) := by
  obtain ⟨before, l, after, rfl, hnumber, hl, hlength⟩ := exists_of_getElem?_definitions hd
  have hbefore : WellLabelled config.labelCapacity before := h.of_append (Nat.le_of_eq hlength)
  have hnew : d.2 ∉ names before := by
    have hnodup := h.nodup
    rw [names_append, names_cons_of_label? after hl] at hnodup
    intro hmem
    exact List.disjoint_of_nodup_append hnodup hmem (by simp)
  have hfull : config.labelCapacity ≤ (names before).toFinset.card := by
    rw [List.toFinset_card_of_nodup hbefore.nodup, hlength]
  rw [run_eq_error_iff]
  refine ⟨before, l, after, rfl, ⟨_, by rw [hnumber], .full hl hnew hfull⟩, ?_⟩
  rw [clean_located_iff]
  exact hbefore.not_labelFault

/-! ### Too few words -/

namespace Image.Lays

variable {config : Config} {ls : List SourceLine} {image : Image}

/-- A program that there is no room for is laid out up to the first word too many. -/
lemma firstFault_imageFull (h : image.Lays config ls) (config' : Config)
    (hpolicy : config'.policy = config.policy) {cell : Cell}
    (hcell : image.cells[config'.maxWords]? = some cell) :
    FirstFault (Located (CodeFault config' (names ls))) ls
      (.atLine cell.line (.imageFull config'.maxWords)) := by
  have hlt : config'.maxWords < (admitted config.policy ls).length := by
    rw [← h.size_eq, Image.size]
    exact (Array.getElem?_eq_some_iff.mp hcell).1
  obtain ⟨p, hp⟩ : ∃ p, (admitted config.policy ls)[config'.maxWords]? = some p :=
    ⟨_, List.getElem?_eq_getElem hlt⟩
  obtain ⟨word, -, hcell'⟩ := h.exists_cell hp
  obtain rfl := Option.some.inj (hcell'.symm.trans hcell)
  obtain ⟨before, l, after, hls, ha, hs, hline, hlength⟩ := getElem?_admitted_iff.mp hp
  rw [← hpolicy] at ha hlength
  refine ⟨before, l, after, hls, ⟨_, by rw [hline], .full hs ha ?_ (Nat.le_of_eq hlength.symm)⟩, ?_⟩
  · intro f hf
    exact h.not_codeFault l.number f ⟨before, l, after, hls, rfl, .statement hs (hpolicy ▸ ha) hf⟩
  -- before this word no statement has a fault, and there is room for every word
  rintro as x bs rfl e ⟨f, -, hf⟩
  cases hf with
  | statement hs' ha' hf =>
    refine h.not_codeFault x.number f ⟨as, x, bs ++ l :: after, ?_, rfl, ?_⟩
    · rw [hls, List.append_assoc, List.cons_append]
    · exact .statement hs' (hpolicy ▸ ha') hf
  | full hs' ha' _ hfull =>
    have hle := length_admitted_le config'.policy (as ++ [x]) bs
    rw [admitted_concat_of_admits hs' ha', List.append_assoc, List.length_append] at hle
    change _ ≤ (admitted config'.policy (as ++ x :: bs)).length at hle
    rw [hlength, List.length_singleton] at hle
    omega

end Image.Lays

/-! ### Room enough -/

/-- The image with another capacity of its label table. -/
def Image.withCapacity (capacity : Nat) (image : Image) : Image :=
  { image with labels := { image.labels with capacity := capacity } }

lemma Image.Lays.withCapacity {config : Config} {ls : List SourceLine} {image : Image}
    (h : image.Lays config ls) (config' : Config) (hpolicy : config'.policy = config.policy)
    (hsize : image.size ≤ config'.maxWords) :
    (image.withCapacity config'.labelCapacity).Lays config' ls where
  labels := by
    rw [Image.withCapacity, h.labels, hpolicy]
  cells := by
    -- words do not depend on the capacity of the table that they are resolved with
    rw [hpolicy]
    exact h.cells
  size_le := hsize

section Limits

variable {policy : ReachPolicy} {source : String} {image : Image}
  {words labels maxWords capacity : Nat}

lemma Image.Lays.size_labels {config : Config} {ls : List SourceLine} (h : image.Lays config ls) :
    image.labels.size = (names ls).length := by
  rw [← LabelTable.length_names, h.names_labels]

lemma check_limits {config : Config} (h : config.check source = .ok ()) (policy : ReachPolicy)
    (hwords : 1 ≤ maxWords) (hcapacity : 1 ≤ capacity) :
    Config.check ⟨maxWords, capacity, policy⟩ source = .ok () := by
  obtain ⟨-, -, hsource⟩ := check_eq_ok_iff.mp h
  exact check_eq_ok_iff.mpr ⟨hwords, hcapacity, hsource⟩

lemma assemble_of_room (h : assemble ⟨words, labels, policy⟩ source = .ok image)
    (hwords : 1 ≤ maxWords) (hcapacity : 1 ≤ capacity) (hsize : image.size ≤ maxWords)
    (hlabels : image.labels.size ≤ capacity) :
    assemble ⟨maxWords, capacity, policy⟩ source = .ok (image.withCapacity capacity) := by
  obtain ⟨hcheck, hwell, hlays⟩ := assemble_eq_ok_iff_lays.mp h
  rw [hlays.size_labels] at hlabels
  refine assemble_eq_ok_iff_lays.mpr ⟨check_limits hcheck policy hwords hcapacity, ?_, ?_⟩
  · exact ⟨hwell.readable, hwell.nodup, hlabels⟩
  · exact hlays.withCapacity ⟨maxWords, capacity, policy⟩ rfl hsize

lemma assemble_of_too_many_labels (h : assemble ⟨words, labels, policy⟩ source = .ok image)
    (hwords : 1 ≤ maxWords) (hcapacity : 1 ≤ capacity) (hlabels : capacity < image.labels.size) :
    ∃ d, (definitions (sourceLines source))[capacity]? = some d ∧
      assemble ⟨maxWords, capacity, policy⟩ source =
        .error (.atLine d.1 (.labelTableFull capacity)) := by
  obtain ⟨hcheck, hwell, hlays⟩ := assemble_eq_ok_iff_lays.mp h
  rw [hlays.size_labels, ← length_definitions] at hlabels
  have hd := List.getElem?_eq_getElem hlabels
  have hfirst := Survey.run_eq_labelTableFull ⟨maxWords, capacity, policy⟩ hwell hd
  refine ⟨_, hd, ?_⟩
  rw [assemble_of_check (check_limits hcheck policy hwords hcapacity), hfirst]
  rfl

lemma assemble_of_too_many_words (h : assemble ⟨words, labels, policy⟩ source = .ok image)
    (hwords : 1 ≤ maxWords) (hcapacity : 1 ≤ capacity) (hlabels : image.labels.size ≤ capacity)
    (hsize : maxWords < image.size) :
    ∃ line, image.origin? maxWords = some line ∧
      assemble ⟨maxWords, capacity, policy⟩ source =
        .error (.atLine line (.imageFull maxWords)) := by
  obtain ⟨hcheck, hwell, hlays⟩ := assemble_eq_ok_iff_lays.mp h
  rw [hlays.size_labels] at hlabels
  have hwell' : WellLabelled capacity (sourceLines source) :=
    ⟨hwell.readable, hwell.nodup, hlabels⟩
  have hcell := Array.getElem?_eq_getElem hsize
  obtain ⟨table, hnames, hassemble⟩ := exists_labels_of_no_labelFault
    (check_limits hcheck policy hwords hcapacity) hwell'.not_labelFault
  have hfirst := hlays.firstFault_imageFull ⟨maxWords, capacity, policy⟩ rfl hcell
  rw [← hnames] at hfirst
  refine ⟨_, Image.origin?_eq_some hcell, ?_⟩
  rw [hassemble, (Emission.run_eq_error_iff hwell.readable).mpr hfirst]
  rfl

/-- Limits are exact thresholds and decide nothing else. Let a source be assembled under some
limits. Under any limits, with the same policy, it is assembled exactly where there is room for its
words and its labels, and then its words, their lines and its labels are the same. Without room for
the labels the error stands at the first definition too many, whatever the limit of words is;
with it, but without room for the words, it stands at the line of the first word too many. -/
theorem assemble_limits (h : assemble ⟨words, labels, policy⟩ source = .ok image)
    (hwords : 1 ≤ maxWords) (hcapacity : 1 ≤ capacity) :
    ((∃ image', assemble ⟨maxWords, capacity, policy⟩ source = .ok image') ↔
      image.words.length ≤ maxWords ∧ image.labels.size ≤ capacity) ∧
    (∀ image', assemble ⟨maxWords, capacity, policy⟩ source = .ok image' →
      image'.words = image.words ∧ image'.origin? = image.origin? ∧
        image'.labels.entries = image.labels.entries) ∧
    (capacity < image.labels.size → ∃ d, (definitions (sourceLines source))[capacity]? = some d ∧
      assemble ⟨maxWords, capacity, policy⟩ source =
        .error (.atLine d.1 (.labelTableFull capacity))) ∧
    (image.labels.size ≤ capacity → maxWords < image.words.length →
      ∃ line, image.origin? maxWords = some line ∧
        assemble ⟨maxWords, capacity, policy⟩ source =
          .error (.atLine line (.imageFull maxWords))) := by
  have hlength : image.words.length = image.size := by simp [Image.words, Image.size]
  rw [hlength]
  have hroom : ∀ image', assemble ⟨maxWords, capacity, policy⟩ source = .ok image' →
      image.size ≤ maxWords ∧ image.labels.size ≤ capacity := by
    intro image' himage'
    by_cases hlabels : image.labels.size ≤ capacity
    · refine ⟨?_, hlabels⟩
      by_contra hsize
      obtain ⟨line, -, herror⟩ :=
        assemble_of_too_many_words h hwords hcapacity hlabels (Nat.not_le.mp hsize)
      cases himage'.symm.trans herror
    · obtain ⟨d, -, herror⟩ :=
        assemble_of_too_many_labels h hwords hcapacity (Nat.not_le.mp hlabels)
      cases himage'.symm.trans herror
  refine ⟨⟨?_, ?_⟩, ?_, ?_, ?_⟩
  · rintro ⟨image', himage'⟩
    exact hroom image' himage'
  · rintro ⟨hsize, hlabels⟩
    exact ⟨_, assemble_of_room h hwords hcapacity hsize hlabels⟩
  · intro image' himage'
    obtain ⟨hsize, hlabels⟩ := hroom image' himage'
    rw [assemble_of_room h hwords hcapacity hsize hlabels] at himage'
    cases himage'
    exact ⟨rfl, rfl, rfl⟩
  · exact assemble_of_too_many_labels h hwords hcapacity
  · exact assemble_of_too_many_words h hwords hcapacity

/-- Three words and two labels. With room for one label the error stands at the definition of the
second, although the first word too many comes before it. -/
theorem assemble_limits_two_thresholds :
    ∃ source image, source = "a:\nLIT 1\nLIT 2\nb:\nJMP a\n" ∧
      assemble ⟨8, 8, .keep⟩ source = .ok image ∧ image.words.length = 3 ∧ image.labels.size = 2 ∧
      (∃ image', assemble ⟨3, 2, .keep⟩ source = .ok image' ∧ image'.words = image.words) ∧
      assemble ⟨1, 1, .keep⟩ source = .error (.atLine 4 (.labelTableFull 1)) ∧
      assemble ⟨2, 2, .keep⟩ source = .error (.atLine 5 (.imageFull 2)) := by
  have h : assemble ⟨8, 8, .keep⟩ "a:\nLIT 1\nLIT 2\nb:\nJMP a\n" =
      .ok ⟨#[⟨0x1001, 2⟩, ⟨0x1002, 3⟩, ⟨0x6000, 5⟩], ⟨8, [⟨"a", 0⟩, ⟨"b", 2⟩]⟩⟩ := by
    decide +kernel
  have hdefinitions : definitions (sourceLines "a:\nLIT 1\nLIT 2\nb:\nJMP a\n") =
      [(1, "a"), (4, "b")] := by
    decide +kernel
  refine ⟨_, _, rfl, h, rfl, rfl, ?_, ?_, ?_⟩
  · obtain ⟨hroom, hsame, -, -⟩ :=
      assemble_limits h (show 1 ≤ 3 by decide) (show 1 ≤ 2 by decide)
    obtain ⟨image', himage'⟩ := hroom.mpr (by decide)
    exact ⟨image', himage', (hsame image' himage').1⟩
  · obtain ⟨-, -, hlabels, -⟩ :=
      assemble_limits h (show 1 ≤ 1 by decide) (show 1 ≤ 1 by decide)
    obtain ⟨d, hd, herror⟩ := hlabels (by decide)
    rw [hdefinitions] at hd
    cases hd
    exact herror
  · obtain ⟨-, -, -, hsize⟩ :=
      assemble_limits h (show 1 ≤ 2 by decide) (show 1 ≤ 2 by decide)
    obtain ⟨line, hline, herror⟩ := hsize (by decide) (by decide)
    cases hline
    exact herror

end Limits

end StackAssembler
