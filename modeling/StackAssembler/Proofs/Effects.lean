import StackAssembler.Cli.Run
import StackAssembler.Proofs.FileTree
import StackAssembler.Proofs.Options

/-!
# Effects of a run

What a run of the command line leaves behind. A run ends in one of four ways: with nothing written,
with the program written and its symbols refused, or with all written, where symbols are asked for
or not. `Options.ends_runOptions` says which, in terms of the files before the run, and
`run_effects` says what each means for the files and for what is printed, where the paths, the
limits and the flags are the ones that the argument vector says.
-/

namespace StackAssembler.Cli

/-! ### Builds -/

namespace Options

variable {o : Options} {t : FileTree} {image image' : Image}

/-- The text of the input makes a program, as the options say. -/
def Builds (o : Options) (t : FileTree) (image : Image) : Prop :=
  ∃ content source, t.read o.input = .ok content ∧ String.fromUTF8? content = some source ∧
    if o.macros then ∃ x, expand source = .ok x ∧ assembleExpansion o.config x = .ok image
    else assemble o.config source = .ok image

lemma builds_iff : o.Builds t image ↔
    ∃ content source, t.read o.input = .ok content ∧ String.fromUTF8? content = some source ∧
      StackAssembler.build o.config o.macros source = .ok image := by
  have hbuild : ∀ source, StackAssembler.build o.config o.macros source = .ok image ↔
      if o.macros then ∃ x, expand source = .ok x ∧ assembleExpansion o.config x = .ok image
      else assemble o.config source = .ok image := by
    intro source
    unfold StackAssembler.build
    split_ifs
    · cases expand source with
      | error e => simp
      | ok x => cases h : assembleExpansion o.config x <;> simp [Except.mapError, h]
    · cases assemble o.config source <;> simp [Except.mapError]
  simp only [hbuild, Builds]

lemma Builds.unique (h : o.Builds t image) (h' : o.Builds t image') : image = image' := by
  obtain ⟨content, source, hread, hsource, hbuild⟩ := builds_iff.mp h
  obtain ⟨content', source', hread', hsource', hbuild'⟩ := builds_iff.mp h'
  obtain rfl : content = content' := Except.ok.inj (hread.symm.trans hread')
  obtain rfl : source = source' := Option.some.inj (hsource.symm.trans hsource')
  exact Except.ok.inj (hbuild.symm.trans hbuild')

/-- A plan is made where there is a program. -/
lemma plan_eq_ok_iff {plan : Plan} :
    o.plan (t.read o.input) = .ok plan ↔ ∃ image, o.Builds t image ∧ plan = o.planFor image := by
  simp only [builds_iff]
  unfold Options.plan
  cases t.read o.input with
  | error fault => simp
  | ok content =>
    cases hsource : String.fromUTF8? content with
    | none => simp [hsource]
    | some source =>
      cases hbuild : StackAssembler.build o.config o.macros source with
      | error e => simp [hsource, hbuild]
      | ok image => simp [hsource, hbuild, eq_comm]

/-! ### Endings -/

/-- The content of the program file. -/
def programFile (image : Image) : ByteArray := ⟨image.bytes.toArray⟩

/-- The content of the symbol file. -/
def symbolFile (image : Image) : ByteArray := image.symbols.render.toUTF8

/-- The ways in which a run ends, by the files before it. -/
inductive Ends (o : Options) (t : FileTree) : Outcome → Prop
  /-- There is no program, or no place for it. -/
  | nothing {report : String}
      (h : ¬ ((∃ image, o.Builds t image) ∧ t.Writable o.outputPath)) :
      Ends o t ⟨1, "", report, t⟩
  /-- The program is written, and there is no place for its symbols. -/
  | program {image : Image} {place : Place} {report : String} (himage : o.Builds t image)
      (hplace : t.Names o.outputPath place) (hsymbols : o.symbols = true)
      (hsymbol : ¬ t.Writable o.symbolPath) :
      Ends o t ⟨1, "", report, t.set place (programFile image)⟩
  /-- The program is written, and its symbols are not asked for. -/
  | plain {image : Image} {place : Place} (himage : o.Builds t image)
      (hplace : t.Names o.outputPath place) (hsymbols : o.symbols = false) :
      Ends o t ⟨0, if o.listing then image.listing else "", "", t.set place (programFile image)⟩
  /-- The program is written, and its symbols at another place. -/
  | symbols {image : Image} {place symbolPlace : Place} (himage : o.Builds t image)
      (hplace : t.Names o.outputPath place) (hsymbols : o.symbols = true)
      (hsymbol : t.Names o.symbolPath symbolPlace) (hne : symbolPlace ≠ place) :
      Ends o t ⟨0, if o.listing then image.listing else "", "",
        (t.set place (programFile image)).set symbolPlace (symbolFile image)⟩

lemma outputs_planFor (o : Options) (image : Image) : (o.planFor image).outputs =
    ⟨o.outputPath, programFile image⟩ ::
      if o.symbols then [⟨o.symbolPath, symbolFile image⟩] else [] := rfl

/-- Writing the plan of a program ends in the ways that are left when there is one. -/
lemma Builds.ends_writeAll (himage : o.Builds t image) :
    o.Ends t (match writeAll t (o.planFor image).outputs with
      | (t, some failure) => ⟨1, "", failure.report, t⟩
      | (t, none) => ⟨0, (o.planFor image).printed, "", t⟩) := by
  rw [outputs_planFor, writeAll]
  cases hwrite : t.write o.outputPath (programFile image) with
  | error fault =>
    have hno := FileTree.exists_write_eq_error_iff.mp ⟨fault, hwrite⟩
    exact .nothing fun hall => hno hall.2
  | ok t' =>
    obtain ⟨place, hplace, rfl⟩ := FileTree.write_eq_ok_iff.mp hwrite
    cases hsymbols : o.symbols with
    | false => exact .plain himage hplace hsymbols
    | true =>
      rw [if_pos rfl]
      simp only [writeAll]
      cases hwrite' : (t.set place (programFile image)).write o.symbolPath (symbolFile image) with
      | error fault =>
        have hsymbol := FileTree.exists_write_eq_error_iff.mp ⟨fault, hwrite'⟩
        rw [FileTree.writable_set_iff] at hsymbol
        exact .program himage hplace hsymbols hsymbol
      | ok t' =>
        obtain ⟨symbolPlace, hsymbol, rfl⟩ := FileTree.write_eq_ok_iff.mp hwrite'
        rw [FileTree.names_set_iff] at hsymbol
        exact .symbols himage hplace hsymbols hsymbol
          (hplace.ne_of_append (by decide) (by decide) hsymbol)

theorem ends_runOptions (o : Options) (t : FileTree) : o.Ends t (runOptions o t) := by
  unfold runOptions
  split
  · next failure hplan =>
    refine .nothing ?_
    rintro ⟨⟨image, himage⟩, -⟩
    rw [plan_eq_ok_iff.mpr ⟨image, himage, rfl⟩] at hplan
    cases hplan
  · next plan hplan =>
    obtain ⟨image, himage, rfl⟩ := plan_eq_ok_iff.mp hplan
    exact himage.ends_writeAll

/-! ### Effects -/

namespace Ends

variable {r : Outcome}

lemma agreesApart (h : o.Ends t r) : t.AgreesApart r.tree [o.outputPath, o.symbolPath] := by
  have hstart := FileTree.AgreesApart.refl t [o.outputPath, o.symbolPath]
  cases h with
  | nothing h => exact hstart
  | program himage hplace hsymbols hsymbol => exact hstart.set (by simp) hplace _
  | plain himage hplace hsymbols => exact hstart.set (by simp) hplace _
  | symbols himage hplace hsymbols hsymbol hne =>
    exact (hstart.set (by simp) hplace _).set (by simp) hsymbol _

lemma agreesApart_program (h : o.Ends t r) (hno : ¬ (o.symbols = true ∧ t.Writable o.symbolPath)) :
    t.AgreesApart r.tree [o.outputPath] := by
  have hstart := FileTree.AgreesApart.refl t [o.outputPath]
  cases h with
  | nothing h => exact hstart
  | program himage hplace hsymbols hsymbol => exact hstart.set (by simp) hplace _
  | plain himage hplace hsymbols => exact hstart.set (by simp) hplace _
  | symbols himage hplace hsymbols hsymbol hne => exact absurd ⟨hsymbols, _, hsymbol⟩ hno

lemma exitCode_eq_zero_iff (h : o.Ends t r) : r.exitCode = 0 ↔ (∃ image, o.Builds t image) ∧
    t.Writable o.outputPath ∧ (o.symbols = true → t.Writable o.symbolPath) := by
  cases h with
  | nothing h =>
    refine iff_of_false (by simp) ?_
    rintro ⟨himage, hplace, -⟩
    exact h ⟨himage, hplace⟩
  | program himage hplace hsymbols hsymbol =>
    refine iff_of_false (by simp) ?_
    rintro ⟨-, -, hall⟩
    exact hsymbol (hall hsymbols)
  | plain himage hplace hsymbols =>
    exact iff_of_true rfl ⟨⟨_, himage⟩, ⟨_, hplace⟩, by simp [hsymbols]⟩
  | symbols himage hplace hsymbols hsymbol hne =>
    exact iff_of_true rfl ⟨⟨_, himage⟩, ⟨_, hplace⟩, fun _ => ⟨_, hsymbol⟩⟩

lemma failure (h : o.Ends t r) (hfail : r.exitCode ≠ 0) : r.exitCode = 1 ∧ r.stdout = "" := by
  cases h with
  | nothing h => exact ⟨rfl, rfl⟩
  | program himage hplace hsymbols hsymbol => exact ⟨rfl, rfl⟩
  | plain himage hplace hsymbols => exact absurd rfl hfail
  | symbols himage hplace hsymbols hsymbol hne => exact absurd rfl hfail

lemma tree_eq (h : o.Ends t r)
    (hno : ¬ ((∃ image, o.Builds t image) ∧ t.Writable o.outputPath)) : r.tree = t := by
  cases h with
  | nothing h => rfl
  | program himage hplace hsymbols hsymbol => exact absurd ⟨⟨_, himage⟩, _, hplace⟩ hno
  | plain himage hplace hsymbols => exact absurd ⟨⟨_, himage⟩, _, hplace⟩ hno
  | symbols himage hplace hsymbols hsymbol hne => exact absurd ⟨⟨_, himage⟩, _, hplace⟩ hno

/-- The symbols are at another place, so writing them leaves the program. -/
lemma read_outputPath (h : o.Ends t r) (himage : o.Builds t image)
    (hplace : t.Writable o.outputPath) :
    r.tree.read o.outputPath = .ok (programFile image) := by
  cases h with
  | nothing h => exact absurd ⟨⟨image, himage⟩, hplace⟩ h
  | program himage' hplace' hsymbols hsymbol =>
    rw [himage.unique himage']
    exact hplace'.read_set _
  | plain himage' hplace' hsymbols =>
    rw [himage.unique himage']
    exact hplace'.read_set _
  | symbols himage' hplace' hsymbols hsymbol hne =>
    rw [himage.unique himage']
    exact (hplace'.set _ _).read_set_of_ne hne.symm (hplace'.read_set _) _

lemma read_symbolPath (h : o.Ends t r) (himage : o.Builds t image)
    (hplace : t.Writable o.outputPath) (hasked : o.symbols = true)
    (hsymbol : t.Writable o.symbolPath) :
    r.tree.read o.symbolPath = .ok (symbolFile image) := by
  cases h with
  | nothing h => exact absurd ⟨⟨image, himage⟩, hplace⟩ h
  | program himage' hplace' hsymbols hno => exact absurd hsymbol hno
  | plain himage' hplace' hsymbols =>
    rw [hasked] at hsymbols
    cases hsymbols
  | symbols himage' hplace' hsymbols hsymbol' hne =>
    rw [himage.unique himage']
    exact (hsymbol'.set _ _).read_set _

lemma stdout_eq (h : o.Ends t r) (himage : o.Builds t image) (hzero : r.exitCode = 0) :
    r.stdout = if o.listing then image.listing else "" := by
  cases h with
  | nothing h => cases hzero
  | program himage' hplace hsymbols hsymbol => cases hzero
  | plain himage' hplace hsymbols => rw [himage.unique himage']
  | symbols himage' hplace hsymbols hsymbol hne => rw [himage.unique himage']

end Ends

/-- What a run leaves behind, by the files before it. -/
structure Effects (o : Options) (t : FileTree) (r : Outcome) : Prop where
  /-- No file but the program and its symbols is created or changed. -/
  frame : t.AgreesApart r.tree [o.outputPath, o.outputPath ++ ".sym"]
  /-- A run succeeds where there is a program and a place for all that is asked for. -/
  exit_zero_iff : r.exitCode = 0 ↔ (∃ image, o.Builds t image) ∧ t.Writable o.outputPath ∧
    (o.symbols = true → t.Writable (o.outputPath ++ ".sym"))
  /-- A run that fails prints nothing. -/
  failure : r.exitCode ≠ 0 → r.exitCode = 1 ∧ r.stdout = ""
  /-- Without a program, or without a place for it, all files are as they were. -/
  untouched : ¬ ((∃ image, o.Builds t image) ∧ t.Writable o.outputPath) → r.tree = t
  /-- The program file has the complete program, whether or not its symbols can be written. -/
  program : ∀ image, o.Builds t image → t.Writable o.outputPath →
    r.tree.read o.outputPath = .ok ⟨image.bytes.toArray⟩ ∧
      image.bytes.length = 2 * image.words.length
  /-- The symbols are written where they are asked for and have a place. -/
  symbols : ∀ image, o.Builds t image → t.Writable o.outputPath → o.symbols = true →
    t.Writable (o.outputPath ++ ".sym") →
      r.tree.read (o.outputPath ++ ".sym") = .ok image.symbols.render.toUTF8
  /-- Else only the program file changes. -/
  no_symbols : ¬ (o.symbols = true ∧ t.Writable (o.outputPath ++ ".sym")) →
    t.AgreesApart r.tree [o.outputPath]
  /-- A run that succeeds prints the listing where it is asked for, and else nothing. -/
  listing : ∀ image, o.Builds t image → r.exitCode = 0 →
    r.stdout = if o.listing then image.listing else ""

end Options

/-- What a run of the command line leaves behind. Where the argument vector says options, the run
has their effects: it writes the program, then the symbols where they are asked for, and nothing
else; it prints the listing where it is asked for and all could be written. A vector that says no
options and asks for no information is a usage error, which ends the run with code two, prints
nothing and leaves every file as it was. -/
theorem run_effects (args : List String) (t : FileTree) :
    (∀ o, Options.parse args = .ok o ↔ o.Heed args) ∧
    (∀ o : Options, o.Heed args → o.Effects t (run args t)) ∧
    ((∀ o : Options, ¬ o.Heed args) → (∀ i : Info, ¬ i.Asked args) →
      (run args t).exitCode = 2 ∧ (run args t).stdout = "" ∧ (run args t).tree = t) := by
  refine ⟨fun o => Options.parse_eq_ok_iff, fun o hheed => ?_, fun hheed hasked => ?_⟩
  · have hends : o.Ends t (run args t) := by
      rw [run, Options.parse_eq_ok_iff.mpr hheed]
      exact Options.ends_runOptions o t
    have hsize : ∀ image : Image, image.bytes.length = 2 * image.words.length := by
      intro image
      simp [Image.bytes, Word.bytes, Nat.mul_comm]
    exact {
      frame := hends.agreesApart
      exit_zero_iff := hends.exitCode_eq_zero_iff
      failure := hends.failure
      untouched := hends.tree_eq
      program := fun image himage hplace => ⟨hends.read_outputPath himage hplace, hsize image⟩
      symbols := fun _ => hends.read_symbolPath
      no_symbols := hends.agreesApart_program
      listing := fun _ => hends.stdout_eq }
  · obtain ⟨e, he⟩ : ∃ e, Options.parse args = .error (.usage e) := by
      cases hparse : Options.parse args with
      | ok o => exact absurd (Options.parse_eq_ok_iff.mp hparse) (hheed o)
      | error halt =>
        cases halt with
        | info i => exact absurd (Options.parse_eq_info_iff.mp hparse) (hasked i)
        | usage e => exact ⟨e, rfl⟩
    rw [run, he]
    exact ⟨rfl, rfl, rfl⟩

/-- The input has the extension of a program, so the program takes the place of its source, and it
just fits the limits; the place of the symbols is a directory. Without the input, the same arguments
are a usage error. -/
theorem run_effects_symbols_refused :
    ∃ (args : List String) (t : FileTree) (o : Options) (image : Image),
      args = ["-l", "--labels=1", "--symbols", "--max-words", "2", "p.bin"] ∧
      t = ⟨[], [["p.bin.sym"]], [(["p.bin"], "a: ; here\n LIT 7\nJMP a".toUTF8)]⟩ ∧
      o.Heed args ∧ o.outputPath = "p.bin" ∧ o.config = ⟨2, 1, .keep⟩ ∧
      o.Builds t image ∧ image.words = [0x1007, 0x6000] ∧
      t.Writable "p.bin" ∧ ¬ t.Writable "p.bin.sym" ∧
      (run args t).exitCode = 1 ∧ (run args t).stdout = "" ∧
      (run args t).tree.read "p.bin" = .ok ⟨#[0x07, 0x10, 0x00, 0x60]⟩ ∧
      (run args.dropLast t).exitCode = 2 ∧ (run args.dropLast t).tree = t := by
  let args := ["-l", "--labels=1", "--symbols", "--max-words", "2", "p.bin"]
  let t : FileTree := ⟨[], [["p.bin.sym"]], [(["p.bin"], "a: ; here\n LIT 7\nJMP a".toUTF8)]⟩
  let o : Options := ⟨"p.bin", none, ⟨2, 1, .keep⟩, true, true, true, false⟩
  let image : Image := ⟨#[⟨0x1007, 2⟩, ⟨0x6000, 3⟩], ⟨1, [⟨"a", 0⟩]⟩⟩
  have hbuilds : o.Builds t image := Options.builds_iff.mpr
    ⟨"a: ; here\n LIT 7\nJMP a".toUTF8, "a: ; here\n LIT 7\nJMP a", by decide +kernel,
      by decide +kernel, by decide +kernel⟩
  have hpath : o.outputPath = "p.bin" := by decide +kernel
  have houtput : t.Writable "p.bin" :=
    ⟨["p.bin"], by decide +kernel, by decide +kernel, by decide +kernel, by decide +kernel⟩
  have hsymbol : ¬ t.Writable "p.bin.sym" := by
    rintro ⟨place, hplace⟩
    have hlocate : t.locate "p.bin.sym" = .ok (some ["p.bin.sym"]) := by decide +kernel
    obtain rfl : ["p.bin.sym"] = place := by simpa using hlocate.symm.trans hplace.locate
    exact absurd hplace.no_directory (by decide)
  obtain ⟨hparse, heffects, -⟩ := run_effects args t
  have hheed : o.Heed args := (hparse o).mp (by decide +kernel)
  have hfail := (heffects o hheed).failure fun hzero => by
    have hall := ((heffects o hheed).exit_zero_iff.mp hzero).2.2 rfl
    rw [hpath] at hall
    exact hsymbol hall
  have hprogram := ((heffects o hheed).program image hbuilds (hpath ▸ houtput)).1
  rw [hpath] at hprogram
  -- without an input there are no options, and nothing asks for information
  have husage : Options.parse args.dropLast = .error (.usage .missingInput) := by decide +kernel
  obtain ⟨hcode, -, htree⟩ := (run_effects args.dropLast t).2.2
    (fun o hheed => by cases husage.symm.trans (Options.parse_eq_ok_iff.mpr hheed))
    (fun i hasked => by cases husage.symm.trans (Options.parse_eq_info_iff.mpr hasked))
  exact ⟨args, t, o, image, rfl, rfl, hheed, hpath, rfl, hbuilds, rfl, houtput, hsymbol, hfail.1,
    hfail.2, hprogram, hcode, htree⟩

end StackAssembler.Cli
