import Mathlib.Order.Interval.Set.Defs
import Mathlib.Order.Monotone.Defs
import StackAssembler.Proofs.Correspondence
import StackAssembler.Proofs.Lines
import StackAssembler.Proofs.Tokens

/-!
# Normal form of a source

The normal form of a source has the lines that say something, each written as its tokens with
single spaces between them. Indentation, comments, blank lines and the kind of line ends are gone.
A source and its normal form are assembled alike, with line numbers that lead back to the source;
only a malformed label definition is quoted as it is written.
-/

namespace StackAssembler

open Text

/-! ### Lines that say nothing -/

/-- The lines of a source that say something. -/
def contentLines (source : String) : List SourceLine :=
  (sourceLines source).filter (!·.isIgnorable)

/-- A line that says nothing leaves the first pass as it is. -/
lemma Survey.scan_of_isIgnorable {l : SourceLine} (h : l.isIgnorable = true) (s : Survey) :
    s.scan l = .ok s := by
  have hline : Line.classify l.text = .ok .ignorable := by simpa [SourceLine.isIgnorable] using h
  rw [scan, hline]
  rfl

/-- A line that says nothing leaves the second pass as it is. -/
lemma Emission.scan_of_isIgnorable {l : SourceLine} (h : l.isIgnorable = true) (maxWords : Nat)
    (labels : LabelTable) (e : Emission) : e.scan maxWords labels l = .ok e := by
  have hline : Line.classify l.text = .ok .ignorable := by simpa [SourceLine.isIgnorable] using h
  rw [scan, hline]
  rfl

lemma foldlM_filter_of_skip {σ : Type} {step : σ → SourceLine → Except AssemblyError σ}
    (hstep : ∀ l, l.isIgnorable = true → ∀ s, step s l = .ok s) (ls : List SourceLine) (s : σ) :
    (ls.filter (!·.isIgnorable)).foldlM step s = ls.foldlM step s := by
  have hskip : (fun s l => if (!l.isIgnorable) = true then step s l else pure s) = step := by
    funext s l
    cases hl : l.isIgnorable with
    | false => rfl
    | true => exact (hstep l hl s).symm
  rw [List.foldlM_filter, hskip]

lemma passes_filter (config : Config) (ls : List SourceLine) :
    passes config (ls.filter (!·.isIgnorable)) = passes config ls := by
  have hsurvey : Survey.run config (ls.filter (!·.isIgnorable)) = Survey.run config ls :=
    foldlM_filter_of_skip (fun _ => Survey.scan_of_isIgnorable) ls _
  have hemission : ∀ labels, Emission.run config labels (ls.filter (!·.isIgnorable)) =
      Emission.run config labels ls := by
    intro labels
    exact foldlM_filter_of_skip (fun _ hl => Emission.scan_of_isIgnorable hl _ _) ls _
  simp only [passes, hsurvey, hemission]

/-! ### The normal form -/

/-- The tokens of a line with single spaces between them. -/
def normalLine (text : String) : String :=
  String.ofList (List.intercalate [' '] (tokens text.toList))

/-- The lines that say something, each as its tokens with single spaces between them. -/
def normalForm (source : String) : String :=
  endLines ((contentLines source).map fun l => normalLine l.text)

/-- The number of the source line that a line of the normal form comes from. -/
def normalOrigin (source : String) (k : Nat) : Nat :=
  ((contentLines source)[k - 1]?.map SourceLine.number).getD 0

/-- The second line is the first in normal form, and its number leads to the first. -/
structure SourceLine.Normalizes (r : Nat → Nat) (l l' : SourceLine) : Prop where
  number : l.number = r l'.number
  text : l'.text = normalLine l.text

/-- Two faults are the same, except for the text that a malformed label definition is quoted
with. -/
inductive LineFault.Alike : LineFault → LineFault → Prop where
  | refl (fault : LineFault) : LineFault.Alike fault fault
  | malformedLabel (text text' : String) :
      LineFault.Alike (.malformedLabel text) (.malformedLabel text')

/-! ### Lines in normal form -/

lemma tokens_normalLine (text : String) :
    tokens (normalLine text).toList = tokens text.toList := by
  rw [normalLine, String.toList_ofList]
  exact tokens_intercalate fun t ht => isCode_of_mem_tokens ht

/-- What tokens say depends on the text only where a label definition is malformed. -/
lemma Line.ofTokens_alike (cs cs' : List Char) (ts : List (List Char)) :
    Corresponds LineFault.Alike (· = ·) (ofTokens cs ts) (ofTokens cs' ts) := by
  cases ts with
  | nil => exact .ok rfl
  | cons first rest =>
    simp only [ofTokens]
    split_ifs
    · split
      · exact .ok rfl
      · exact .error (.malformedLabel _ _)
    · exact .ok rfl

lemma Line.classify_normalLine (text : String) :
    Corresponds LineFault.Alike (· = ·) (classify text) (classify (normalLine text)) := by
  rw [classify, classify, tokens_normalLine]
  exact ofTokens_alike _ _ _

/-- A line and its normal form say the same. -/
lemma SourceLine.Normalizes.matches {r : Nat → Nat} {l l' : SourceLine} (h : l.Normalizes r l') :
    l.Matches id r LineFault.Alike Set.univ l' where
  number := h.number
  reads := by
    rw [h.text]
    refine (Line.classify_normalLine l.text).imp (fun _ _ => id) ?_
    rintro line _ rfl
    exact ⟨line.mapNames_id.symm, fun _ _ => Set.mem_univ _⟩

lemma mem_of_mem_intercalate {ts : List (List Char)} {c : Char}
    (h : c ∈ List.intercalate [' '] ts) : c = ' ' ∨ ∃ t ∈ ts, c ∈ t := by
  induction ts with
  | nil => cases h
  | cons t ts ih =>
    cases ts with
    | nil => exact Or.inr ⟨t, by simp, by simpa using h⟩
    | cons u ts =>
      rw [List.intercalate_cons_cons, List.mem_append, List.mem_append, List.mem_singleton] at h
      rcases h with (h | h) | h
      · exact Or.inr ⟨t, by simp, h⟩
      · exact Or.inl h
      · refine (ih h).imp_right ?_
        rintro ⟨v, hv, hc⟩
        exact ⟨v, List.mem_cons_of_mem t hv, hc⟩

/-- The characters of a line in normal form are those of the line, and spaces. -/
lemma mem_of_mem_normalLine {text : String} {c : Char} (h : c ∈ (normalLine text).toList) :
    c = ' ' ∨ c ∈ text.toList := by
  rw [normalLine, String.toList_ofList] at h
  refine (mem_of_mem_intercalate h).imp_right ?_
  rintro ⟨t, ht, hc⟩
  exact subset_of_mem_tokens ht hc

/-! ### Lines of the normal form -/

section Source

variable {source : String}

lemma mem_contentLines_iff {l : SourceLine} : l ∈ contentLines source ↔
    l ∈ sourceLines source ∧ Line.classify l.text ≠ .ok .ignorable := by
  simp [contentLines, SourceLine.isIgnorable]

lemma exists_mem_contentLines
    (h : ∃ text ∈ linesOf source, Line.classify text ≠ .ok .ignorable) :
    ∃ l, l ∈ contentLines source := by
  obtain ⟨text, htext, hline⟩ := h
  rw [← map_text_numberFrom 1 (linesOf source)] at htext
  obtain ⟨l, hl, rfl⟩ := List.mem_map.mp htext
  exact ⟨l, mem_contentLines_iff.mpr ⟨hl, hline⟩⟩

lemma ascending_contentLines (source : String) : Ascending (contentLines source) :=
  (ascending_sourceLines source).filter _

lemma linesOf_normalForm (hreturn : ∀ text ∈ linesOf source, '\r' ∉ text.toList) :
    linesOf (normalForm source) = (contentLines source).map fun l => normalLine l.text := by
  have hnot : ∀ c, c ≠ ' ' → (∀ text ∈ linesOf source, c ∉ text.toList) →
      ∀ m ∈ (contentLines source).map fun l => normalLine l.text, c ∉ m.toList := by
    intro c hspace hsource m hm hc
    obtain ⟨l, hl, rfl⟩ := List.mem_map.mp hm
    have htext := text_mem_of_mem_sourceLines (mem_contentLines_iff.mp hl).1
    exact (mem_of_mem_normalLine hc).elim hspace (hsource l.text htext)
  apply linesOf_endLines_eq_self
  · exact hnot '\n' (by decide) fun _ => newline_not_mem_of_mem_linesOf
  · intro m hm hlast
    exact hnot '\r' (by decide) hreturn m hm (List.mem_of_getLast? hlast)

lemma normalOrigin_succ {i : Nat} {l : SourceLine} (h : (contentLines source)[i]? = some l) :
    normalOrigin source (i + 1) = l.number := by
  rw [normalOrigin, Nat.add_sub_cancel, h]
  rfl

/-- The origins of the lines of a normal form ascend. -/
lemma strictMonoOn_normalOrigin (source : String) :
    StrictMonoOn (normalOrigin source) (Set.Icc 1 (contentLines source).length) := by
  have horigin : ∀ k ∈ Set.Icc 1 (contentLines source).length, ∃ i l, k = i + 1 ∧
      (contentLines source)[i]? = some l ∧ normalOrigin source k = l.number := by
    rintro k ⟨hpos, hle⟩
    obtain ⟨i, rfl⟩ := Nat.exists_eq_add_of_le' hpos
    have hl := List.getElem?_eq_getElem (Nat.lt_of_succ_le hle)
    exact ⟨i, _, rfl, hl, normalOrigin_succ hl⟩
  intro j hj k hk hjk
  obtain ⟨i, l, rfl, hl, horiginl⟩ := horigin j hj
  obtain ⟨i', l', rfl, hl', horiginl'⟩ := horigin k hk
  rw [horiginl, horiginl']
  obtain ⟨hi, rfl⟩ := List.getElem?_eq_some_iff.mp hl
  obtain ⟨hi', rfl⟩ := List.getElem?_eq_some_iff.mp hl'
  exact List.pairwise_iff_getElem.mp (ascending_contentLines source) i i' hi hi'
    (Nat.lt_of_succ_lt_succ hjk)

/-- The lines of the normal form are the lines that say something, in their order. -/
lemma forall₂_normalForm (hreturn : ∀ text ∈ linesOf source, '\r' ∉ text.toList) :
    List.Forall₂ (SourceLine.Normalizes (normalOrigin source))
      (contentLines source) (sourceLines (normalForm source)) := by
  rw [sourceLines, linesOf_normalForm hreturn, List.forall₂_iff_get]
  refine ⟨by simp, ?_⟩
  intro i hi hi'
  have hl := List.getElem?_eq_getElem hi
  have hl' := List.getElem?_eq_getElem hi'
  rw [getElem?_numberFrom, List.getElem?_map, hl, Option.map_some, Option.map_some, Nat.add_comm,
    Option.some.injEq] at hl'
  rw [List.get_eq_getElem, List.get_eq_getElem, ← hl']
  exact ⟨(normalOrigin_succ hl).symm, rfl⟩

end Source

/-! ### Assembly -/

lemma Image.eq_mapLines_of_renamed {r : Nat → Nat} {image image' : Image}
    (h : Image.Renamed id r image image') : image = image'.mapLines r := by
  obtain ⟨cells, labels⟩ := image
  obtain ⟨cells', labels'⟩ := image'
  obtain ⟨hcells, hlabels⟩ := h
  rw [LabelTable.mapNames_id] at hlabels
  subst hcells hlabels
  rfl

/-- Layout does not matter. The normal form of a source has a line for each line of the source that
says something, in their order, and is assembled as the source is: to the same words and labels,
where the lines of the words lead to lines of the source, or to the same error, where its line does.
Only a malformed label definition is quoted differently. -/
theorem assemble_normalForm {source : String}
    (hreturn : ∀ text ∈ linesOf source, '\r' ∉ text.toList)
    (hcontent : ∃ text ∈ linesOf source, Line.classify text ≠ .ok .ignorable) :
    StrictMonoOn (normalOrigin source) (Set.Icc 1 (linesOf (normalForm source)).length) ∧
    List.Forall₂ (SourceLine.Normalizes (normalOrigin source))
      (contentLines source) (sourceLines (normalForm source)) ∧
    ∀ config, Corresponds (AssemblyError.Matches LineFault.Alike (normalOrigin source))
      (fun image image' => image = image'.mapLines (normalOrigin source))
      (assemble config source) (assemble config (normalForm source)) := by
  have hlines := linesOf_normalForm hreturn
  have hforall := forall₂_normalForm hreturn
  refine ⟨?_, hforall, ?_⟩
  · rw [hlines, List.length_map]
    exact strictMonoOn_normalOrigin source
  · intro config
    have hempty : source = "" ↔ normalForm source = "" := by
      obtain ⟨l, hl⟩ := exists_mem_contentLines hcontent
      have htext := text_mem_of_mem_sourceLines (mem_contentLines_iff.mp hl).1
      have hsource := List.ne_nil_of_mem htext
      have hnormal := List.ne_nil_of_mem hl
      rw [← linesOf_eq_nil_iff, ← linesOf_eq_nil_iff, hlines, List.map_eq_nil_iff]
      exact ⟨fun h => absurd h hsource, fun h => absurd h hnormal⟩
    have halike : ∀ fault : LineFault, LineFault.Alike fault (fault.mapNames id) := by
      intro fault
      rw [LineFault.mapNames_id]
      exact .refl fault
    have hmatches := hforall.imp fun _ _ => SourceLine.Normalizes.matches
    have hpasses := passes_correspond halike (Set.injOn_id _) hmatches config
    rw [contentLines, passes_filter] at hpasses
    exact (assemble_correspond hempty hpasses).imp (fun _ _ => id)
      fun _ _ => Image.eq_mapLines_of_renamed

/-- A source with an indented label, a tab, comments and line ends of both kinds. Its malformed
label definition stands on the fifth line and is the third line of the normal form. -/
theorem assemble_normalForm_malformed_label :
    ∃ source, source = "\n a: ; x\r\n\tJMP  b ; go\n#\n c:  d ;\n" ∧
      normalForm source = "a:\nJMP b\nc: d\n" ∧ normalOrigin source 3 = 5 ∧
      assemble {} source = .error (.atLine 5 (.malformedLabel "c:  d ;")) ∧
      assemble {} (normalForm source) = .error (.atLine 3 (.malformedLabel "c: d")) ∧
      Corresponds (AssemblyError.Matches LineFault.Alike (normalOrigin source))
        (fun image image' => image = image'.mapLines (normalOrigin source))
        (assemble {} source) (assemble {} (normalForm source)) := by
  refine ⟨_, rfl, by decide +kernel, by decide +kernel, by decide +kernel, by decide +kernel, ?_⟩
  refine (assemble_normalForm (by decide +kernel) ?_).2.2 {}
  exact ⟨" a: ; x", by decide +kernel, by decide +kernel⟩

end StackAssembler
