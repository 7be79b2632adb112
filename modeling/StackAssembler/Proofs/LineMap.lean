import StackAssembler.Build
import StackAssembler.Proofs.Lines
import StackAssembler.Proofs.MacroPrecedence
import StackAssembler.Proofs.Precedence
import StackAssembler.Proofs.Tokens

/-!
# Line maps

Where the lines of an expanded source come from. The text of an expansion is cut into lines anew
when it is assembled, apart from the numbers that the expansion keeps for its lines. The two agree
because no line of an expansion holds a line feed: its characters are those of the source lines
that it was put together from. So what an assembly reports of a line, it reports of the plain line
of the source that the line was expanded from.
-/

namespace StackAssembler

open Text

/-! ### Characters of an expansion -/

namespace Template

/-- The characters of a filled-in line come from the line and from the arguments. -/
lemma mem_line_or_arg_of_mem_fill {args : List String} {line : String} {c : Char}
    (h : c ∈ (fill args line).toList) : c ∈ line.toList ∨ ∃ a ∈ args, c ∈ a.toList := by
  have hline := splitComment_append line.toList
  rw [fill, String.toList_ofList, List.mem_append] at h
  rcases h with h | h
  · obtain ⟨p, hp, hc⟩ := List.mem_flatMap.mp h
    cases p with
    | char d =>
      have hcode : c ∈ (splitComment line.toList).1 := by
        rw [← flatMap_source_pieces (splitComment line.toList).1]
        exact List.mem_flatMap.mpr ⟨.char d, hp, hc⟩
      exact Or.inl (hline ▸ List.mem_append_left _ hcode)
    | placeholder digits =>
      simp only [Piece.fill] at hc
      split at hc
      · next n _ =>
        rw [List.getD_eq_getElem?_getD] at hc
        cases ha : args[n]? with
        | none => simp [ha] at hc
        | some a =>
          rw [ha, Option.getD_some] at hc
          exact Or.inr ⟨a, List.mem_of_getElem? ha, hc⟩
      · simp at hc
  · exact Or.inl (hline ▸ List.mem_append_right _ h)

end Template

namespace MacroTable

variable {t : MacroTable} {text : String} {m : Macro} {args : List String}

/-- The characters of the arguments come from the line. -/
lemma subset_of_mem_arguments {ts : List (List Char)} {cs : List Char} {a : String}
    (h : ∀ token ∈ ts, token ⊆ cs) (ha : a ∈ arguments ts) : a.toList ⊆ cs := by
  obtain ⟨piece, hpiece, rfl⟩ := List.mem_map.mp ha
  obtain ⟨token, htoken, hpiece⟩ := List.mem_flatMap.mp (List.mem_of_mem_filter hpiece)
  intro c hc
  rw [String.toList_ofList] at hc
  exact h token htoken (mem_and_eq_false_of_mem_splitOnP hpiece c hc).1

lemma mem_macros_and_subset_of_invocation? (h : t.invocation? text = some (m, args)) :
    m ∈ t.macros ∧ ∀ a ∈ args, a.toList ⊆ text.toList := by
  obtain ⟨first, rest, htokens, hm, rfl⟩ := invocation?_eq_some_iff.mp h
  refine ⟨List.mem_of_find?_eq_some hm, fun a ha => subset_of_mem_arguments ?_ ha⟩
  intro token htoken
  exact subset_of_mem_tokens (htokens ▸ List.mem_cons_of_mem first htoken)

/-- A character that is neither in a line nor in the body of the macro it invokes is not in the
filled-in body. -/
lemma not_mem_of_mem_instantiate {c : Char} (h : t.invocation? text = some (m, args))
    (hbodies : ∀ m ∈ t.macros, ∀ line ∈ m.body, c ∉ line.toList) (htext : c ∉ text.toList) :
    ∀ line ∈ m.instantiate args, c ∉ line.toList := by
  intro line hline hc
  obtain ⟨body, hbody, rfl⟩ := List.mem_map.mp hline
  obtain ⟨hm, hargs⟩ := mem_macros_and_subset_of_invocation? h
  rcases Template.mem_line_or_arg_of_mem_fill hc with hc | ⟨a, ha, hc⟩
  · exact hbodies m hm body hbody hc
  · exact htext (hargs a ha hc)

mutual

/-- A character that is neither in a line nor in the bodies of the macros is not in the lines that
the line expands to. -/
lemma Expands.not_mem {c : Char} (hbodies : ∀ m ∈ t.macros, ∀ line ∈ m.body, c ∉ line.toList) :
    ∀ {depth : Nat} {text : String} {texts : List String}, t.Expands depth text texts →
      c ∉ text.toList → ∀ s ∈ texts, c ∉ s.toList
  | _, _, _, .plain _, htext => by simpa using htext
  | _, _, _, .call h _ hbody, htext =>
    hbody.not_mem hbodies (not_mem_of_mem_instantiate h hbodies htext)

lemma ExpandsAll.not_mem {c : Char} (hbodies : ∀ m ∈ t.macros, ∀ line ∈ m.body, c ∉ line.toList) :
    ∀ {depth : Nat} {lines texts : List String}, t.ExpandsAll depth lines texts →
      (∀ line ∈ lines, c ∉ line.toList) → ∀ s ∈ texts, c ∉ s.toList
  | _, _, _, .nil, _ => by simp
  | _, _, _, .cons hline hlines, h => by
    obtain ⟨hhead, htail⟩ := List.forall_mem_cons.mp h
    exact List.forall_mem_append.mpr ⟨hline.not_mem hbodies hhead, hlines.not_mem hbodies htail⟩

end

end MacroTable

/-! ### Lines that are put together from source lines -/

/-- The body of an open definition is made of lines behind its header. -/
lemma exists_line_of_mem_body {ls : List SourceLine} {m : OpenMacro} (h : openMacro? ls = some m)
    {text : String} (htext : text ∈ m.body.toList) : ∃ l ∈ ls, l.text = text := by
  unfold openMacro? at h
  split at h
  · split_ifs at h
    obtain ⟨m', -, rfl⟩ := Option.map_eq_some_iff.mp h
    obtain ⟨l, hl, rfl⟩ := List.mem_map.mp htext
    exact ⟨l, (List.rtakeWhile_suffix _ _).subset hl, rfl⟩
  · cases h

lemma exists_line_of_mem_after {ls : List SourceLine} {m : Macro}
    (hm : m ∈ (MacroTable.after ls).macros) {text : String} (htext : text ∈ m.body) :
    ∃ l ∈ ls, l.text = text := by
  obtain ⟨o, ho, rfl⟩ := List.mem_map.mp (List.mem_reverse.mp hm)
  obtain ⟨before, l, after, rfl, -, hopen⟩ := mem_completed_iff.mp ho
  obtain ⟨x, hx, rfl⟩ := exists_line_of_mem_body hopen htext
  exact ⟨x, List.mem_append_left _ hx, rfl⟩

/-- A line is emitted for a plain line that expands to it, under the number of the plain line. -/
lemma mem_expansionAfter_iff {before : List SourceLine} {l m : SourceLine} :
    m ∈ expansionAfter before l ↔ isPlainAfter before l = true ∧ m.number = l.number ∧ ∃ texts,
      (MacroTable.after before).Expands maxExpansionDepth l.text texts ∧ m.text ∈ texts := by
  simp only [← MacroTable.expandLine_eq_ok_iff]
  cases hplain : isPlainAfter before l with
  | false => simp [expansionAfter_of_not_plain hplain]
  | true =>
    cases hexpand : (MacroTable.after before).expandLine maxExpansionDepth l.text with
    | error f => simp [expansionAfter, hplain, hexpand]
    | ok texts =>
      obtain ⟨number, text⟩ := m
      simp [expansionAfter_of_expandLine hplain hexpand, and_comm, eq_comm]

/-- A character that is in no line is in no line of the expansion. -/
lemma not_mem_of_mem_expansions {c : Char} {ls : List SourceLine}
    (hls : ∀ l ∈ ls, c ∉ l.text.toList) : ∀ m ∈ expansions ls, c ∉ m.text.toList := by
  intro m hm
  obtain ⟨before, l, after, rfl, hemitted⟩ := mem_collect_iff.mp hm
  obtain ⟨-, -, texts, hexpands, htext⟩ := mem_expansionAfter_iff.mp hemitted
  refine hexpands.not_mem (fun o ho line hline => ?_) (hls l (by simp)) m.text htext
  obtain ⟨x, hx, rfl⟩ := exists_line_of_mem_after ho hline
  exact hls x (List.mem_append_left _ hx)

lemma newline_not_mem_of_mem_sourceLines {source : String} :
    ∀ l ∈ sourceLines source, '\n' ∉ l.text.toList := by
  intro l hl
  exact newline_not_mem_of_mem_linesOf (text_mem_of_mem_sourceLines hl)

/-! ### The lines of an expansion and the lines they came from -/

/-- The line at a place of the expansion, counted from zero, is one of those that a plain line of
the source expands to. -/
structure EmittedAt (ls : List SourceLine) (place : Nat) (before : List SourceLine)
    (l : SourceLine) : Prop where
  line : ∃ after, ls = before ++ l :: after
  plain : isPlainAfter before l = true
  place : ∃ k < (expansionAfter before l).length, place = (expansions before).length + k

/-- Every line of an expansion has the number of the plain line it came from. -/
lemma exists_emittedAt {ls : List SourceLine} {j : Nat} {m : SourceLine}
    (h : (expansions ls)[j]? = some m) :
    ∃ before l, EmittedAt ls j before l ∧ m.number = l.number := by
  obtain ⟨before, l, after, k, hls, hj, hk⟩ := exists_of_getElem?_collect h
  obtain ⟨hplain, hnumber, -⟩ := mem_expansionAfter_iff.mp (List.mem_of_getElem? hk)
  exact ⟨before, l, ⟨⟨after, hls⟩, hplain, k, (List.getElem?_eq_some_iff.mp hk).1, hj⟩, hnumber⟩

lemma EmittedAt.exists_getElem? {ls before : List SourceLine} {j : Nat} {l : SourceLine}
    (h : EmittedAt ls j before l) :
    ∃ m, (expansions ls)[j]? = some m ∧ m.number = l.number := by
  obtain ⟨⟨after, rfl⟩, -, k, hk, rfl⟩ := h
  refine ⟨(expansionAfter before l)[k], ?_, (mem_expansionAfter_iff.mp (List.getElem_mem hk)).2.1⟩
  rw [expansions, collect_append, collectAfter_cons, List.getElem?_append_right (by simp),
    Nat.add_sub_cancel_left, List.getElem?_append_left hk, List.getElem?_eq_getElem hk]

lemma number_mem_of_mem_expansions {ls : List SourceLine} {m : SourceLine}
    (h : m ∈ expansions ls) : ∃ l ∈ ls, m.number = l.number := by
  obtain ⟨before, l, after, rfl, hemitted⟩ := mem_collect_iff.mp h
  exact ⟨l, by simp, (mem_expansionAfter_iff.mp hemitted).2.1⟩

/-- The numbers along an expansion do not descend. -/
lemma pairwise_number_expansions {ls : List SourceLine} (hls : Ascending ls) :
    ((expansions ls).map SourceLine.number).Pairwise (· ≤ ·) := by
  rw [List.pairwise_map]
  induction ls using List.reverseRecOn with
  | nil => exact List.Pairwise.nil
  | append_singleton ls l ih =>
    obtain ⟨hfront, -, hlast⟩ := List.pairwise_append.mp hls
    rw [expansions_concat, List.pairwise_append]
    refine ⟨ih hfront, ?_, fun a ha b hb => ?_⟩
    · refine List.pairwise_of_forall_mem_list fun a ha b hb => ?_
      rw [(mem_expansionAfter_iff.mp ha).2.1, (mem_expansionAfter_iff.mp hb).2.1]
    · obtain ⟨x, hx, hnumber⟩ := number_mem_of_mem_expansions ha
      rw [hnumber, (mem_expansionAfter_iff.mp hb).2.1]
      exact Nat.le_of_lt (hlast x hx l (by simp))

/-! ### The text of an expansion -/

section Text

variable {source : String} {x : Expansion}

lemma toList_lines_of_expand (h : expand source = .ok x) :
    x.lines.toList = expansions (sourceLines source) := by
  obtain ⟨-, -, rfl⟩ := expand_eq_ok_iff.mp h
  rfl

lemma newline_not_mem_of_mem_texts {l : String}
    (hl : l ∈ (expansions (sourceLines source)).map SourceLine.text) : '\n' ∉ l.toList := by
  obtain ⟨m, hm, rfl⟩ := List.mem_map.mp hl
  exact not_mem_of_mem_expansions newline_not_mem_of_mem_sourceLines m hm

lemma splitOn_text_of_expand (h : expand source = .ok x) :
    x.text.toList.splitOn '\n' =
      (orBlank ((expansions (sourceLines source)).map SourceLine.text)).map String.toList ++
        [[]] := by
  rw [Expansion.text, toList_lines_of_expand h]
  exact splitOn_newline_joinLines fun l hl => newline_not_mem_of_mem_texts hl

lemma linesOf_text_of_expand (h : expand source = .ok x) :
    linesOf x.text = (orBlank ((expansions (sourceLines source)).map SourceLine.text)).map
      fun l => String.ofList (dropReturn l.toList) := by
  rw [Expansion.text, toList_lines_of_expand h]
  exact linesOf_joinLines fun l hl => newline_not_mem_of_mem_texts hl

/-- The lines of the expansion are lines of the text, up to carriage returns at their ends. -/
lemma getElem?_linesOf_of_expand (h : expand source = .ok x) {j : Nat} {m : SourceLine}
    (hm : (expansions (sourceLines source))[j]? = some m) :
    (linesOf x.text)[j]? = some (String.ofList (dropReturn m.text.toList)) := by
  rw [linesOf_text_of_expand h]
  cases hlines : expansions (sourceLines source) with
  | nil => simp [hlines] at hm
  | cons l ls =>
    rw [hlines] at hm
    rw [List.map_cons, orBlank, ← List.map_cons, List.map_map, List.getElem?_map, hm]
    rfl

/-- A line of the text that is not empty is a line of the expansion. -/
lemma exists_getElem?_of_getElem?_linesOf (h : expand source = .ok x) {j : Nat} {text : String}
    (htext : (linesOf x.text)[j]? = some text) (hne : text ≠ "") :
    ∃ m, (expansions (sourceLines source))[j]? = some m := by
  have hj := (List.getElem?_eq_some_iff.mp htext).1
  rw [linesOf_text_of_expand h] at hj htext
  rw [List.length_map, length_orBlank, List.length_map] at hj
  cases hlines : expansions (sourceLines source) with
  | nil =>
    -- the single line of an expansion without lines is empty
    have hzero : j = 0 := by simpa [hlines] using hj
    have hempty : text = "" := by simpa [hlines, orBlank, hzero, eq_comm] using htext
    exact absurd hempty hne
  | cons l ls =>
    rw [hlines, List.length_cons, Nat.max_eq_right (by omega)] at hj
    exact ⟨_, List.getElem?_eq_getElem hj⟩

/-- A line of the expansion keeps its number. -/
lemma origin_of_expand (h : expand source = .ok x) {j : Nat} {m : SourceLine}
    (hm : (expansions (sourceLines source))[j]? = some m) : x.origin (j + 1) = m.number := by
  rw [← toList_lines_of_expand h, Array.getElem?_toList] at hm
  simp [Expansion.origin, hm]

lemma origin_le_origin_of_expand (h : expand source = .ok x) {i j : Nat} (hij : i < j)
    {m : SourceLine} (hm : (expansions (sourceLines source))[j]? = some m) :
    x.origin (i + 1) ≤ x.origin (j + 1) := by
  have hj := (List.getElem?_eq_some_iff.mp hm).1
  have hl := List.getElem?_eq_getElem (show i < (expansions (sourceLines source)).length by omega)
  have hnumbers := List.pairwise_map.mp (pairwise_number_expansions (ascending_sourceLines source))
  rw [origin_of_expand h hl, origin_of_expand h (List.getElem?_eq_getElem hj)]
  exact List.pairwise_iff_getElem.mp hnumbers i j _ hj hij

end Text

/-! ### Lines that an assembly reports -/

lemma Line.ne_empty_of_classify {text : String} (h : classify text ≠ .ok .ignorable) :
    text ≠ "" := by
  rintro rfl
  exact h (by decide)

/-- A line with a fault is not empty. -/
lemma LabelFault.text_ne_empty {capacity : Nat} {before : List SourceLine} {l : SourceLine}
    {f : LineFault} (h : LabelFault capacity before l f) : l.text ≠ "" := by
  apply Line.ne_empty_of_classify
  cases h with
  | malformed hf => simp [hf]
  | duplicate hl _ | full hl _ _ => simp [SourceLine.label?_eq_some_iff.mp hl]

lemma CodeFault.text_ne_empty {config : Config} {names : List String} {before : List SourceLine}
    {l : SourceLine} {f : LineFault} (h : CodeFault config names before l f) : l.text ≠ "" := by
  apply Line.ne_empty_of_classify
  cases h with
  | statement hs _ _ | full hs _ _ _ => simp [SourceLine.statement?_eq_some_iff.mp hs]

lemma getElem?_linesOf_of_sourceLines {source : String} {before after : List SourceLine}
    {l : SourceLine} (h : sourceLines source = before ++ l :: after) :
    (linesOf source)[before.length]? = some l.text := by
  rw [← map_text_numberFrom 1 (linesOf source), ← sourceLines, h]
  simp

section Places

variable {source : String} {x : Expansion} {before after : List SourceLine} {l : SourceLine}

lemma exists_getElem?_of_sourceLines (h : expand source = .ok x)
    (hl : sourceLines x.text = before ++ l :: after) (hne : l.text ≠ "") :
    ∃ m, (expansions (sourceLines source))[before.length]? = some m :=
  exists_getElem?_of_getElem?_linesOf h (getElem?_linesOf_of_sourceLines hl) hne

/-- A line of the text of an expansion that is not empty came from a plain line. -/
lemma exists_emittedAt_of_sourceLines (h : expand source = .ok x)
    (hl : sourceLines x.text = before ++ l :: after) (hne : l.text ≠ "") :
    ∃ front plain, EmittedAt (sourceLines source) before.length front plain ∧
      x.origin l.number = plain.number := by
  obtain ⟨m, hm⟩ := exists_getElem?_of_sourceLines h hl hne
  obtain ⟨front, plain, hemitted, hnumber⟩ := exists_emittedAt hm
  refine ⟨front, plain, hemitted, ?_⟩
  rw [number_of_sourceLines_eq hl, origin_of_expand h hm, hnumber]

/-- An instruction of the text stands on a line of the expansion. -/
lemma exists_getElem?_of_mem_admitted {policy : ReachPolicy} {p : Placement}
    (h : expand source = .ok x) (hp : p ∈ admitted policy (sourceLines x.text)) :
    ∃ j m, p.line = j + 1 ∧ (expansions (sourceLines source))[j]? = some m := by
  obtain ⟨before, l, after, hls, -, hs, hnumber⟩ := mem_admitted_iff.mp hp
  have hread := SourceLine.statement?_eq_some_iff.mp hs
  obtain ⟨m, hm⟩ :=
    exists_getElem?_of_sourceLines h hls (Line.ne_empty_of_classify (by simp [hread]))
  exact ⟨before.length, m, by rw [← hnumber, number_of_sourceLines_eq hls], hm⟩

end Places

/-- The line map of the expansion of source lines. -/
structure Expansion.MapsLines (x : Expansion) (ls : List SourceLine) : Prop where
  /-- Every plain line expands with the macros that are completed before it. -/
  expands : ∀ before l after, ls = before ++ l :: after → isPlainAfter before l = true →
    ∃ texts, (MacroTable.after before).expandLine maxExpansionDepth l.text = .ok texts ∧
      expansionAfter before l = texts.map (SourceLine.mk l.number)
  /-- Cut at its line feeds, the text gives what the plain lines expand to, one after the other, or
  one empty line, and nothing behind the last line feed. -/
  cut : x.text.toList.splitOn '\n' =
    (orBlank ((expansions ls).map SourceLine.text)).map String.toList ++ [[]]
  newline : ∀ m ∈ expansions ls, '\n' ∉ m.text.toList
  length : (linesOf x.text).length = max 1 (expansions ls).length
  /-- The lines of the text are those of the expansion, up to carriage returns at their ends. -/
  line : ∀ (j : Nat) (m : SourceLine), (expansions ls)[j]? = some m →
    (linesOf x.text)[j]? = some (String.ofList (dropReturn m.text.toList))
  /-- Every line of the expansion came from a plain line and has its number. -/
  emitted : ∀ j < (expansions ls).length, ∃ before l, EmittedAt ls j before l
  origin : ∀ j before l, EmittedAt ls j before l → x.origin (j + 1) = l.number
  ascends : ((expansions ls).map SourceLine.number).Pairwise (· ≤ ·)

/-- An assembly of an expansion reports the lines before expansion. -/
structure Expansion.ReportsLines (config : Config) (x : Expansion) (ls : List SourceLine) :
    Prop where
  /-- Every word came from the expansion of a plain line, and is reported under its number. -/
  word : ∀ image, assembleExpansion config x = .ok image → ∀ i w, image.words[i]? = some w →
    ∃ j before l text s, EmittedAt ls j before l ∧ image.origin? i = some l.number ∧
      (linesOf x.text)[j]? = some text ∧ Line.classify text = .ok (.instruction s) ∧
      s.word image.labels = .ok w
  ascends : ∀ image, assembleExpansion config x = .ok image →
    (image.cells.toList.map Cell.line).Pairwise (· ≤ ·)
  /-- The error of a line came from the expansion of a plain line, and is reported under its
  number. -/
  error : ∀ n f, assembleExpansion config x = .error (.atLine n f) →
    ∃ j before l, EmittedAt ls j before l ∧ n = l.number ∧
      assemble config x.text = .error (.atLine (j + 1) f) ∧
      (LabelFaultAt config x.text (j + 1) f ∨ CodeFaultAt config x.text (j + 1) f)

section LineMap

variable {config : Config} {source : String} {x : Expansion}

lemma assembleExpansion_eq_ok_iff {image : Image} :
    assembleExpansion config x = .ok image ↔
      ∃ raw, assemble config x.text = .ok raw ∧ image = raw.mapLines x.origin := by
  rw [assembleExpansion]
  cases assemble config x.text <;> simp [eq_comm]

lemma assembleExpansion_eq_error_iff {e : AssemblyError} :
    assembleExpansion config x = .error e ↔
      ∃ raw, assemble config x.text = .error raw ∧ e = raw.mapLine x.origin := by
  rw [assembleExpansion]
  cases assemble config x.text <;> simp [eq_comm]

/-- The line of an error came from a plain line. -/
lemma exists_emittedAt_of_faultAt {Fault : List SourceLine → SourceLine → LineFault → Prop}
    (hne : ∀ before l f, Fault before l f → l.text ≠ "") (h : expand source = .ok x) {n : Nat}
    {f : LineFault} (hf : FaultAt Fault (sourceLines x.text) n f) :
    ∃ j before l, EmittedAt (sourceLines source) j before l ∧ n = j + 1 ∧
      x.origin n = l.number := by
  obtain ⟨before, l, after, hls, rfl, hf⟩ := hf
  obtain ⟨front, plain, hemitted, horigin⟩ :=
    exists_emittedAt_of_sourceLines h hls (hne before l f hf)
  exact ⟨before.length, front, plain, hemitted, number_of_sourceLines_eq hls, horigin⟩

lemma mapsLines_of_expand (h : expand source = .ok x) : x.MapsLines (sourceLines source) where
  expands before l after hls hplain := by
    obtain ⟨hall, -, -⟩ := expand_eq_ok_iff.mp h
    have hclean := Expander.stepAll_eq_ok_iff_clean.mp hall
    obtain ⟨texts, htexts⟩ := exists_expandLine_of_clean hclean hls hplain
    exact ⟨texts, htexts, expansionAfter_of_expandLine hplain htexts⟩
  cut := splitOn_text_of_expand h
  newline := not_mem_of_mem_expansions newline_not_mem_of_mem_sourceLines
  length := by
    rw [linesOf_text_of_expand h, List.length_map, length_orBlank, List.length_map]
  line _ _ hm := getElem?_linesOf_of_expand h hm
  emitted j hj := by
    obtain ⟨before, l, hemitted, -⟩ := exists_emittedAt (List.getElem?_eq_getElem hj)
    exact ⟨before, l, hemitted⟩
  origin j before l hemitted := by
    obtain ⟨m, hm, hnumber⟩ := hemitted.exists_getElem?
    rw [origin_of_expand h hm, hnumber]
  ascends := pairwise_number_expansions (ascending_sourceLines source)

lemma reportsLines_of_expand (config : Config) (h : expand source = .ok x) :
    x.ReportsLines config (sourceLines source) where
  word image himage i w hw := by
    obtain ⟨raw, hraw, rfl⟩ := assembleExpansion_eq_ok_iff.mp himage
    have hlays := lays_of_assemble hraw
    rw [Image.words_mapLines] at hw
    have hi := (List.getElem?_eq_some_iff.mp hw).1
    rw [hlays.length_words] at hi
    have hp := List.getElem?_eq_getElem hi
    obtain ⟨word, hword, hcell⟩ := hlays.exists_cell hp
    obtain rfl := Option.some.inj ((Image.getElem?_words hcell).symm.trans hw)
    obtain ⟨before, l, after, hls, -, hs, hnumber, -⟩ := getElem?_admitted_iff.mp hp
    have hread := SourceLine.statement?_eq_some_iff.mp hs
    obtain ⟨front, plain, hemitted, horigin⟩ :=
      exists_emittedAt_of_sourceLines h hls (Line.ne_empty_of_classify (by simp [hread]))
    refine ⟨before.length, front, plain, l.text, _, hemitted, ?_,
      getElem?_linesOf_of_sourceLines hls, hread, hword⟩
    rw [Image.origin?_mapLines, Image.origin?_eq_some hcell, Option.map_some, ← hnumber, horigin]
  ascends image himage := by
    obtain ⟨raw, hraw, rfl⟩ := assembleExpansion_eq_ok_iff.mp himage
    have hlays := lays_of_assemble hraw
    have hmap : (raw.mapLines x.origin).cells.toList.map Cell.line =
        (raw.cells.toList.map Cell.line).map x.origin := by
      simp [Image.mapLines]
    rw [hmap, hlays.map_line, List.map_map, List.pairwise_map]
    refine (admitted_pairwise (ascending_sourceLines x.text)).imp_of_mem fun {p q} hp hq hlt => ?_
    obtain ⟨i, -, hi, -⟩ := exists_getElem?_of_mem_admitted h hp
    obtain ⟨j, m, hj, hm⟩ := exists_getElem?_of_mem_admitted h hq
    simp only [Function.comp_apply, hi, hj] at hlt ⊢
    exact origin_le_origin_of_expand h (by omega) hm
  error n f herror := by
    obtain ⟨raw, hraw, heq⟩ := assembleExpansion_eq_error_iff.mp herror
    cases raw with
    | invalidInput fault => cases heq
    | atLine line g =>
      cases heq
      have hfault := faultAt_of_assemble_eq_error hraw
      obtain ⟨j, before, l, hemitted, rfl, horigin⟩ : ∃ j before l,
          EmittedAt (sourceLines source) j before l ∧ line = j + 1 ∧ x.origin line = l.number := by
        rcases hfault with hf | hf
        · exact exists_emittedAt_of_faultAt (fun _ _ _ hf => hf.text_ne_empty) h hf
        · exact exists_emittedAt_of_faultAt (fun _ _ _ hf => hf.text_ne_empty) h hf
      exact ⟨j, before, l, hemitted, horigin, hraw, hfault⟩

end LineMap

/-- The line map of an expansion. Its text is made of the lines that the plain lines of the source
expand to with the macros before them, and each of these lines has the number of its plain line.
Whatever the configuration, the words and the errors of its assembly are reported under the numbers
of the plain lines whose expansions they came from, and the numbers of the words do not descend. -/
theorem expansion_line_map {source : String} {x : Expansion} (h : expand source = .ok x) :
    x.MapsLines (sourceLines source) ∧ ∀ config, x.ReportsLines config (sourceLines source) :=
  ⟨mapsLines_of_expand h, fun config => reportsLines_of_expand config h⟩

/-- A call that is nested in another one: both words come from the one line with the call, and so
does the error that there is no room for the second. -/
theorem expansion_line_map_nested_call :
    ∃ source x,
      source = "%macro p 1\nLIT %1\n%endmacro\n%macro two 1\np %1\np 9\n%endmacro\ntwo 7\n" ∧
      expand source = .ok x ∧ x.MapsLines (sourceLines source) ∧
      assembleExpansion ⟨8, 4, .keep⟩ x = .ok ⟨#[⟨0x1007, 8⟩, ⟨0x1009, 8⟩], ⟨4, []⟩⟩ ∧
      (∃ j before l text s, EmittedAt (sourceLines source) j before l ∧ l.number = 8 ∧
        (linesOf x.text)[j]? = some text ∧ Line.classify text = .ok (.instruction s) ∧
        s.word ⟨4, []⟩ = .ok 0x1009) ∧
      assembleExpansion ⟨1, 4, .keep⟩ x = .error (.atLine 8 (.imageFull 1)) ∧
      ∃ j before l, EmittedAt (sourceLines source) j before l ∧ l.number = 8 ∧
        assemble ⟨1, 4, .keep⟩ x.text = .error (.atLine (j + 1) (.imageFull 1)) := by
  have h : expand "%macro p 1\nLIT %1\n%endmacro\n%macro two 1\np %1\np 9\n%endmacro\ntwo 7\n" =
      .ok ⟨#[⟨8, "LIT 7"⟩, ⟨8, "LIT 9"⟩]⟩ := by
    decide +kernel
  have himage : assembleExpansion ⟨8, 4, .keep⟩ ⟨#[⟨8, "LIT 7"⟩, ⟨8, "LIT 9"⟩]⟩ =
      .ok ⟨#[⟨0x1007, 8⟩, ⟨0x1009, 8⟩], ⟨4, []⟩⟩ := by
    decide +kernel
  have herror : assembleExpansion ⟨1, 4, .keep⟩ ⟨#[⟨8, "LIT 7"⟩, ⟨8, "LIT 9"⟩]⟩ =
      .error (.atLine 8 (.imageFull 1)) := by
    decide +kernel
  obtain ⟨hmaps, hreports⟩ := expansion_line_map h
  obtain ⟨j, before, l, text, s, hemitted, horigin, htext, hread, hword⟩ :=
    (hreports ⟨8, 4, .keep⟩).word _ himage 1 0x1009 rfl
  have hnumber : l.number = 8 := (Option.some.inj horigin).symm
  obtain ⟨j', before', l', hemitted', hnumber', hassemble, -⟩ :=
    (hreports ⟨1, 4, .keep⟩).error 8 (.imageFull 1) herror
  exact ⟨_, _, rfl, h, hmaps, himage,
    ⟨j, before, l, text, s, hemitted, hnumber, htext, hread, hword⟩, herror,
    j', before', l', hemitted', hnumber'.symm, hassemble⟩

end StackAssembler
