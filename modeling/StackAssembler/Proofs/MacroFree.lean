import StackAssembler.Cli.Run
import StackAssembler.Proofs.Lines
import StackAssembler.Proofs.MacroCalls
import StackAssembler.Proofs.MacroSource

/-!
# Sources without macros

A source without directives expands to its own lines, each under its own number. Joining the lines
again ends every one of them with a line feed, so an assembly of the expansion is one of that text;
it is an assembly of the source itself unless a line ends in a carriage return, which the line feed
behind it would take along.
-/

namespace StackAssembler

open Text

/-! ### Expansion -/

/-- A line is plain unless its first token begins or ends a definition. -/
lemma SourceLine.directive_eq_plain_iff {l : SourceLine} :
    l.directive = .plain ↔
      (tokensOf l.text).head? ≠ some "%macro" ∧ (tokensOf l.text).head? ≠ some "%endmacro" := by
  rw [directive, Directive.ofText]
  cases (tokensOf l.text).head? with
  | none => simp
  | some first =>
    by_cases hbegins : first = "%macro"
    · simp [hbegins]
    · by_cases hends : first = "%endmacro"
      · simp [hends]
      · simp [hbegins, hends]

lemma MacroTable.invocation?_empty (text : String) : empty.invocation? text = none := by
  rw [invocation?]
  split <;> simp

/-- Without macros, plain lines are emitted as they are. -/
lemma Expander.stepAll_of_plain {ls : List SourceLine} (h : ∀ l ∈ ls, l.directive = .plain)
    (emitted : Array SourceLine) :
    stepAll ⟨MacroTable.empty, none, emitted⟩ ls =
      .ok ⟨MacroTable.empty, none, emitted ++ ls⟩ := by
  induction ls generalizing emitted with
  | nil => simp
  | cons l ls ih =>
    obtain ⟨hl, hls⟩ := List.forall_mem_cons.mp h
    have hexpand : MacroTable.empty.expandLine maxExpansionDepth l.text = .ok [l.text] :=
      MacroTable.expandLine_of_plain (MacroTable.invocation?_empty l.text)
    have hstep : step ⟨MacroTable.empty, none, emitted⟩ l =
        .ok ⟨MacroTable.empty, none, emitted ++ [l]⟩ :=
      step_eq_ok_iff.mpr (Or.inr (Or.inr (Or.inr ⟨_, hl, rfl, hexpand, rfl⟩)))
    rw [stepAll_cons, hstep]
    show stepAll ⟨MacroTable.empty, none, emitted ++ [l]⟩ ls = _
    rw [ih hls]
    simp

/-- A source without directives expands to its own lines. -/
lemma expand_of_plain {source : String} (h : ∀ l ∈ sourceLines source, l.directive = .plain) :
    expand source = .ok ⟨(sourceLines source).toArray⟩ := by
  have hall := Expander.stepAll_of_plain h #[]
  rw [expand, Expander.start, hall]
  show Expander.finish ⟨MacroTable.empty, none, #[] ++ sourceLines source⟩ = _
  simp [Expander.finish]

/-- A line among the lines of a source has its own number. -/
lemma origin_sourceLines (source : String) (j : Nat) :
    Expansion.origin ⟨(sourceLines source).toArray⟩ j = j := by
  cases j with
  | zero => rfl
  | succ n =>
    rw [Expansion.origin, List.getElem?_toArray, sourceLines, getElem?_numberFrom, Nat.add_comm 1]
    cases (linesOf source)[n]? <;> rfl

lemma text_sourceLines (source : String) :
    Expansion.text ⟨(sourceLines source).toArray⟩ =
      if source = "" then "\n" else endLines (linesOf source) := by
  rw [Expansion.text, List.toList_toArray, sourceLines, map_text_numberFrom, joinLines_eq_endLines]
  by_cases hempty : source = ""
  · subst hempty
    rfl
  · rw [if_neg hempty, orBlank_eq_self (linesOf_eq_nil_iff.not.mpr hempty)]

/-- An expansion that keeps the numbers of its lines is assembled as its text. -/
lemma assembleExpansion_of_origin {x : Expansion} (h : ∀ j, x.origin j = j) (config : Config) :
    assembleExpansion config x = assemble config x.text := by
  have horigin : x.origin = id := funext h
  rw [assembleExpansion, horigin]
  cases assemble config x.text with
  | ok image => simp [Image.mapLines]
  | error e => cases e <;> rfl

/-! ### Assembly -/

/-- An assembly depends on the lines of its source alone. -/
lemma assemble_congr {source source' : String} (h : linesOf source = linesOf source')
    (config : Config) : assemble config source = assemble config source' := by
  have hempty : source = "" ↔ source' = "" := by
    rw [← linesOf_eq_nil_iff, ← linesOf_eq_nil_iff, h]
  rw [assemble, assemble, Config.check, Config.check, sourceLines, sourceLines, h]
  simp only [hempty]

/-- Once its input is read, a run of the command line depends on its choice of macros only through
the build. -/
lemma Cli.runOptions_congr {o : Options} {tree : FileTree} {content : ByteArray} {source : String}
    {macros : Bool} (hread : tree.read o.input = .ok content)
    (hsource : String.fromUTF8? content = some source)
    (hbuild : build o.config macros source = build o.config o.macros source) :
    runOptions { o with macros := macros } tree = runOptions o tree := by
  have hplan : Options.plan { o with macros := macros } (tree.read o.input) =
      o.plan (tree.read o.input) := by
    rw [hread]
    simp only [Options.plan, hsource, hbuild]
    rfl
  rw [runOptions, runOptions, hplan]

/-- Expansion is transparent on a source without macros. The source expands to its own lines, each
under its own number, and assembling the expansion is assembling the lines of the source, each
ended by a line feed. So where the source is not empty and no line ends in a carriage return, it is
assembled alike with and without expansion, also by the command line. -/
theorem expansion_transparent (source : String)
    (h : ∀ text ∈ linesOf source,
      (tokensOf text).head? ≠ some "%macro" ∧ (tokensOf text).head? ≠ some "%endmacro") :
    ∃ x, expand source = .ok x ∧
      (∀ j, x.origin j = j) ∧
      (∀ config, assembleExpansion config x =
        assemble config (if source = "" then "\n" else endLines (linesOf source))) ∧
      (source ≠ "" → (∀ text ∈ linesOf source, text.toList.getLast? ≠ some '\r') →
        (∀ config, assembleExpansion config x = assemble config source) ∧
        ∀ args args' o tree content, Cli.Options.parse args = .ok o →
          Cli.Options.parse args' = .ok { o with macros := false } →
          Cli.FileTree.read tree o.input = .ok content →
          String.fromUTF8? content = some source → Cli.run args tree = Cli.run args' tree) := by
  have hplain : ∀ l ∈ sourceLines source, l.directive = .plain := by
    intro l hl
    exact SourceLine.directive_eq_plain_iff.mpr (h l.text (text_mem_of_mem_sourceLines hl))
  have hexpand := expand_of_plain hplain
  have hassemble := assembleExpansion_of_origin (origin_sourceLines source)
  rw [text_sourceLines] at hassemble
  refine ⟨_, hexpand, origin_sourceLines source, hassemble, ?_⟩
  intro hne hreturn
  have hlines : linesOf (endLines (linesOf source)) = linesOf source :=
    linesOf_endLines_eq_self (fun _ => newline_not_mem_of_mem_linesOf) hreturn
  have hsame : ∀ config, assembleExpansion config ⟨(sourceLines source).toArray⟩ =
      assemble config source := by
    intro config
    rw [hassemble, if_neg hne, assemble_congr hlines]
  refine ⟨hsame, ?_⟩
  intro args args' o tree content hargs hargs' hread hsource
  have hbuild : build o.config false source = build o.config o.macros source := by
    cases o.macros with
    | false => rfl
    | true => simp [build, hexpand, hsame]
  rw [Cli.run, Cli.run, hargs, hargs']
  exact (Cli.runOptions_congr hread hsource hbuild).symm

/-- Line ends of both kinds, and none behind the last line: the undefined name is reported at its
line with and without expansion, also by the command line. -/
theorem expansion_transparent_undefined_label :
    ∃ source content x, source = "a: ; here\r\n JMP a\nCAL %b" ∧ expand source = .ok x ∧
      x.origin 3 = 3 ∧
      assembleExpansion ⟨8, 4, .keep⟩ x = .error (.atLine 3 (.undefinedLabel "%b")) ∧
      String.fromUTF8? content = some source ∧
      Cli.run ["p.asm"] ⟨[], [], [(["p.asm"], content)]⟩ =
        Cli.run ["p.asm", "--no-macros"] ⟨[], [], [(["p.asm"], content)]⟩ := by
  obtain ⟨x, hx, horigin, -, hsame⟩ :=
    expansion_transparent "a: ; here\r\n JMP a\nCAL %b" (by decide +kernel)
  obtain ⟨hassemble, hrun⟩ := hsame (by decide) (by decide +kernel)
  have hcontent : String.fromUTF8? "a: ; here\r\n JMP a\nCAL %b".toUTF8 =
      some "a: ; here\r\n JMP a\nCAL %b" := by
    decide +kernel
  refine ⟨_, _, x, rfl, hx, horigin 3, ?_, hcontent, ?_⟩
  · rw [hassemble]
    decide +kernel
  · exact hrun _ _ ⟨"p.asm", none, {}, true, false, false, false⟩ _ _ (by decide +kernel)
      (by decide +kernel) (by decide +kernel) hcontent

end StackAssembler
