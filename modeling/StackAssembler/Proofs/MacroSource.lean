import Mathlib.Data.List.DropRight
import StackAssembler.Macro.Expansion
import StackAssembler.Proofs.Layout

/-!
# Sources with macros

How the lines of a source divide into macro definitions and plain lines, read off the lines alone:
which definition is open behind some lines, which definitions are completed by them, and what the
plain lines among them expand to. `Expander.reads_of_stepAll` says that this is what an expansion
has computed behind the lines that it has read.
-/

namespace StackAssembler

open Text

/-! ### Directives -/

/-- The directive of a line. -/
def SourceLine.directive (l : SourceLine) : Directive := Directive.ofText l.text

/-- The directives among lines, in order. -/
def directives (ls : List SourceLine) : List Directive :=
  (ls.map SourceLine.directive).filter (· != .plain)

/-- A definition is open behind the lines: the last directive begins one. -/
def insideMacro (ls : List SourceLine) : Bool := (directives ls).getLast? == some .begins

section Directives

variable {ls : List SourceLine} {l : SourceLine}

@[simp] lemma directives_nil : directives [] = [] := rfl

@[simp] lemma insideMacro_nil : insideMacro [] = false := rfl

lemma directives_append (as bs : List SourceLine) :
    directives (as ++ bs) = directives as ++ directives bs := by
  simp [directives]

lemma directives_concat_of_plain (ls : List SourceLine) (h : l.directive = .plain) :
    directives (ls ++ [l]) = directives ls := by
  simp [directives, h]

lemma directives_concat_of_ne_plain (ls : List SourceLine) (h : l.directive ≠ .plain) :
    directives (ls ++ [l]) = directives ls ++ [l.directive] := by
  simp [directives, h]

lemma ne_plain_of_mem_directives {d : Directive} (h : d ∈ directives ls) : d ≠ .plain := by
  simpa using (List.mem_filter.mp h).2

lemma insideMacro_concat_of_plain (ls : List SourceLine) (h : l.directive = .plain) :
    insideMacro (ls ++ [l]) = insideMacro ls := by
  rw [insideMacro, insideMacro, directives_concat_of_plain ls h]

lemma insideMacro_concat_of_begins (ls : List SourceLine) (h : l.directive = .begins) :
    insideMacro (ls ++ [l]) = true := by
  rw [insideMacro, directives_concat_of_ne_plain ls (by simp [h]), h]
  simp

lemma insideMacro_concat_of_ends (ls : List SourceLine) (h : l.directive = .ends) :
    insideMacro (ls ++ [l]) = false := by
  rw [insideMacro, directives_concat_of_ne_plain ls (by simp [h]), h]
  simp

/-- Outside of a definition the last directive ends one, if there is a directive at all. -/
lemma insideMacro_eq_false_iff :
    insideMacro ls = false ↔ ∀ d ∈ (directives ls).getLast?, d = .ends := by
  rw [insideMacro, beq_eq_false_iff_ne]
  constructor
  · intro h d hd
    cases d with
    | begins => exact absurd hd h
    | ends => rfl
    | plain => exact absurd rfl (ne_plain_of_mem_directives (List.mem_of_getLast? hd))
  · intro h hlast
    cases h _ hlast

end Directives

/-! ### Definitions -/

/-- The definition that is open behind lines: its header is the last directive, and its body is
what stands behind the header. -/
def openMacro? (ls : List SourceLine) : Option OpenMacro :=
  match (ls.rdropWhile (·.directive == .plain)).getLast? with
  | some header =>
    if header.directive = .begins then
      (OpenMacro.ofHeader? header).map fun m =>
        { m with body := ((ls.rtakeWhile (·.directive == .plain)).map SourceLine.text).toArray }
    else none
  | none => none

/-- The definitions that are completed by lines, in order. -/
def completed : List SourceLine → List OpenMacro :=
  collect fun before l => if l.directive = .ends then (openMacro? before).toList else []

/-- The macros that are completed by lines, as a table. -/
def MacroTable.after (ls : List SourceLine) : MacroTable :=
  ⟨((completed ls).map OpenMacro.close).reverse⟩

section Definitions

variable {ls : List SourceLine} {l : SourceLine}

@[simp] lemma openMacro?_nil : openMacro? [] = none := rfl

lemma openMacro?_concat_of_plain (ls : List SourceLine) (h : l.directive = .plain) :
    openMacro? (ls ++ [l]) =
      (openMacro? ls).map fun m => { m with body := m.body.push l.text } := by
  rw [openMacro?, openMacro?, List.rdropWhile_concat, List.rtakeWhile_concat]
  simp only [h, beq_self_eq_true, if_true]
  cases (ls.rdropWhile (·.directive == .plain)).getLast? with
  | none => rfl
  | some header =>
    by_cases hbegins : header.directive = .begins
    · simp [hbegins, Function.comp_def]
    · simp [hbegins]

lemma openMacro?_concat_of_begins (ls : List SourceLine) (h : l.directive = .begins) :
    openMacro? (ls ++ [l]) = OpenMacro.ofHeader? l := by
  have hbody : ∀ m, OpenMacro.ofHeader? l = some m → m.body = #[] := by
    intro m hm
    unfold OpenMacro.ofHeader? at hm
    split at hm
    · obtain ⟨n, -, rfl⟩ := Option.map_eq_some_iff.mp hm
      rfl
    · cases hm
  rw [openMacro?, List.rdropWhile_concat, List.rtakeWhile_concat]
  cases hm : OpenMacro.ofHeader? l with
  | none => simp [h, hm]
  | some m => simp [h, hm, ← hbody m hm]

lemma openMacro?_concat_of_ends (ls : List SourceLine) (h : l.directive = .ends) :
    openMacro? (ls ++ [l]) = none := by
  simp [openMacro?, h]

@[simp] lemma completed_nil : completed [] = [] := rfl

lemma completed_concat_of_ends (ls : List SourceLine) (h : l.directive = .ends) :
    completed (ls ++ [l]) = completed ls ++ (openMacro? ls).toList := by
  simp [completed, collect_concat, h]

lemma completed_concat_of_ne_ends (ls : List SourceLine) (h : l.directive ≠ .ends) :
    completed (ls ++ [l]) = completed ls := by
  simp [completed, collect_concat, h]

lemma completed_prefix_append (as bs : List SourceLine) : completed as <+: completed (as ++ bs) :=
  ⟨_, (collect_append as bs).symm⟩

lemma mem_completed_iff {m : OpenMacro} :
    m ∈ completed ls ↔ ∃ before l after, ls = before ++ l :: after ∧ l.directive = .ends ∧
      openMacro? before = some m := by
  rw [completed, mem_collect_iff]
  refine exists_congr fun before => exists_congr fun l => exists_congr fun after =>
    and_congr_right fun _ => ?_
  split_ifs with h <;> simp [h]

end Definitions

/-! ### Plain lines -/

/-- The line behind the given ones is neither a directive nor part of a definition. -/
def isPlainAfter (before : List SourceLine) (l : SourceLine) : Bool :=
  l.directive == .plain && !insideMacro before

/-- The lines that a line behind the given ones expands to, under its number: none unless the line
is plain. -/
def expansionAfter (before : List SourceLine) (l : SourceLine) : List SourceLine :=
  if isPlainAfter before l then
    match (MacroTable.after before).expandLine maxExpansionDepth l.text with
    | .ok texts => texts.map (SourceLine.mk l.number)
    | .error _ => []
  else []

/-- What the plain lines among lines expand to, one after the other. -/
def expansions : List SourceLine → List SourceLine := collect expansionAfter

section PlainLines

variable {ls : List SourceLine} {l : SourceLine} {texts : List String}

@[simp] lemma expansions_nil : expansions [] = [] := rfl

lemma expansions_concat (ls : List SourceLine) (l : SourceLine) :
    expansions (ls ++ [l]) = expansions ls ++ expansionAfter ls l :=
  collect_concat ls l

lemma isPlainAfter_iff {before : List SourceLine} :
    isPlainAfter before l = true ↔ l.directive = .plain ∧ insideMacro before = false := by
  simp [isPlainAfter]

lemma expansionAfter_of_not_plain {before : List SourceLine} (h : isPlainAfter before l = false) :
    expansionAfter before l = [] := by
  simp [expansionAfter, h]

lemma expansionAfter_of_expandLine {before : List SourceLine} (h : isPlainAfter before l = true)
    (htexts : (MacroTable.after before).expandLine maxExpansionDepth l.text = .ok texts) :
    expansionAfter before l = texts.map (SourceLine.mk l.number) := by
  simp [expansionAfter, h, htexts]

end PlainLines

/-! ### Tables -/

namespace MacroTable

/-- The names of the macros of a table. -/
def names (t : MacroTable) : List String := t.macros.map Macro.name

variable {t t' : MacroTable} {m : Macro}

lemma isSome_find?_iff {name : String} : (t.find? name).isSome = true ↔ name ∈ t.names := by
  rw [find?, List.find?_isSome]
  simp [names]

lemma define_eq_ok_iff :
    t.define m = .ok t' ↔
      m.strayPlaceholder? = none ∧ m.name ∉ t.names ∧ t' = ⟨m :: t.macros⟩ := by
  cases hstray : m.strayPlaceholder? with
  | some digits => simp [define, hstray]
  | none =>
    by_cases hname : m.name ∈ t.names
    · simp [define, hstray, isSome_find?_iff, hname]
    · simp [define, hstray, isSome_find?_iff, hname, eq_comm (a := t')]

lemma define_eq_error_iff {f : MacroFault} :
    t.define m = .error f ↔
      (∃ digits, m.strayPlaceholder? = some digits ∧
        f = .placeholder m.name (String.ofList digits)) ∨
      (m.strayPlaceholder? = none ∧ m.name ∈ t.names ∧ f = .duplicate m.name) := by
  cases hstray : m.strayPlaceholder? with
  | some digits => simp [define, hstray, eq_comm (a := f)]
  | none =>
    by_cases hname : m.name ∈ t.names
    · simp [define, hstray, isSome_find?_iff, hname, eq_comm (a := f)]
    · simp [define, hstray, isSome_find?_iff, hname]

lemma names_after (ls : List SourceLine) :
    (after ls).names = ((completed ls).map OpenMacro.name).reverse := by
  rw [names, after, List.map_reverse, List.map_map]
  rfl

lemma after_concat_of_ends {ls : List SourceLine} {l : SourceLine} {m : OpenMacro}
    (h : l.directive = .ends) (hm : openMacro? ls = some m) :
    after (ls ++ [l]) = ⟨m.close :: (after ls).macros⟩ := by
  simp [after, completed_concat_of_ends ls h, hm]

lemma after_concat_of_ne_ends {l : SourceLine} (ls : List SourceLine) (h : l.directive ≠ .ends) :
    after (ls ++ [l]) = after ls := by
  rw [after, completed_concat_of_ne_ends ls h, after]

end MacroTable

/-! ### Expansion -/

namespace Expander

/-- What a step does: it opens a definition, completes it, adds to its body, or expands a line. -/
lemma step_eq_ok_iff {x y : Expander} {l : SourceLine} :
    x.step l = .ok y ↔
      (∃ m, l.directive = .begins ∧ x.pending = none ∧ OpenMacro.ofHeader? l = some m ∧
        y = { x with pending := some m }) ∨
      (∃ m table, l.directive = .ends ∧ x.pending = some m ∧ x.table.define m.close = .ok table ∧
        y = { x with table := table, pending := none }) ∨
      (∃ m, l.directive = .plain ∧ x.pending = some m ∧
        y = { x with pending := some { m with body := m.body.push l.text } }) ∨
      (∃ texts, l.directive = .plain ∧ x.pending = none ∧
        x.table.expandLine maxExpansionDepth l.text = .ok texts ∧
        y = { x with emitted := x.emitted ++ texts.map (SourceLine.mk l.number) }) := by
  have hdirective : Directive.ofText l.text = l.directive := rfl
  cases hd : l.directive with
  | begins =>
    cases hp : x.pending with
    | none =>
      cases hm : OpenMacro.ofHeader? l <;> simp [step, hdirective, hd, hp, hm, eq_comm (a := y)]
    | some m => simp [step, hdirective, hd, hp]
  | ends =>
    cases hp : x.pending with
    | none => simp [step, hdirective, hd, hp]
    | some m =>
      cases ht : x.table.define m.close <;>
        simp [step, hdirective, hd, hp, ht, eq_comm (a := y)]
  | plain =>
    cases hp : x.pending with
    | none =>
      cases ht : x.table.expandLine maxExpansionDepth l.text <;>
        simp [step, hdirective, hd, hp, ht, eq_comm (a := y)]
    | some m => simp [step, hdirective, hd, hp, eq_comm (a := y)]

lemma step_eq_error_iff {x : Expander} {l : SourceLine} {e : MacroError} :
    x.step l = .error e ↔
      (∃ m, l.directive = .begins ∧ x.pending = some m ∧ e = ⟨l.number, .nested⟩) ∨
      (l.directive = .begins ∧ x.pending = none ∧ OpenMacro.ofHeader? l = none ∧
        e = ⟨l.number, .badHeader (String.ofList (trim l.text.toList))⟩) ∨
      (l.directive = .ends ∧ x.pending = none ∧ e = ⟨l.number, .strayEnd⟩) ∨
      (∃ m f, l.directive = .ends ∧ x.pending = some m ∧ x.table.define m.close = .error f ∧
        e = ⟨m.line, f⟩) ∨
      (∃ f, l.directive = .plain ∧ x.pending = none ∧
        x.table.expandLine maxExpansionDepth l.text = .error f ∧ e = ⟨l.number, f⟩) := by
  have hdirective : Directive.ofText l.text = l.directive := rfl
  cases hd : l.directive with
  | begins =>
    cases hp : x.pending with
    | none =>
      cases hm : OpenMacro.ofHeader? l <;> simp [step, hdirective, hd, hp, hm, eq_comm (a := e)]
    | some m => simp [step, hdirective, hd, hp, eq_comm (a := e)]
  | ends =>
    cases hp : x.pending with
    | none => simp [step, hdirective, hd, hp, eq_comm (a := e)]
    | some m =>
      cases ht : x.table.define m.close <;>
        simp [step, hdirective, hd, hp, ht, eq_comm (a := e)]
  | plain =>
    cases hp : x.pending with
    | none =>
      cases ht : x.table.expandLine maxExpansionDepth l.text <;>
        simp [step, hdirective, hd, hp, ht, eq_comm (a := e)]
    | some m => simp [step, hdirective, hd, hp]

/-- The state of an expansion behind lines, read off the lines. -/
def ofLines (ls : List SourceLine) : Expander :=
  ⟨MacroTable.after ls, openMacro? ls, (expansions ls).toArray⟩

/-- The lines before an error are read as they divide into definitions and plain lines: a
definition is open exactly where the last directive begins one. -/
structure Reads (ls : List SourceLine) (x : Expander) : Prop where
  eq_ofLines : x = ofLines ls
  inside : (openMacro? ls).isSome = insideMacro ls

lemma Reads.openMacro?_eq_none_iff {ls : List SourceLine} {x : Expander} (h : Reads ls x) :
    openMacro? ls = none ↔ insideMacro ls = false := by
  rw [← h.inside, Option.isSome_eq_false_iff, Option.isNone_iff_eq_none]

lemma reads_start : Reads [] start := ⟨rfl, rfl⟩

lemma Reads.step {ls : List SourceLine} {l : SourceLine} {x y : Expander} (h : Reads ls x)
    (hy : x.step l = .ok y) : Reads (ls ++ [l]) y := by
  obtain ⟨rfl, hinside⟩ := h
  rcases step_eq_ok_iff.mp hy with ⟨m, hd, hp, hm, rfl⟩ | ⟨m, table, hd, hp, ht, rfl⟩ |
    ⟨m, hd, hp, rfl⟩ | ⟨texts, hd, hp, ht, rfl⟩
  · have hplain : isPlainAfter ls l = false := by simp [isPlainAfter, hd]
    constructor
    · simp [ofLines, MacroTable.after_concat_of_ne_ends ls, hd, openMacro?_concat_of_begins ls hd,
        hm, expansions_concat, expansionAfter_of_not_plain hplain]
    · rw [openMacro?_concat_of_begins ls hd, hm, insideMacro_concat_of_begins ls hd,
        Option.isSome_some]
  · have hp : openMacro? ls = some m := hp
    have hplain : isPlainAfter ls l = false := by simp [isPlainAfter, hd]
    obtain ⟨-, -, rfl⟩ := MacroTable.define_eq_ok_iff.mp ht
    constructor
    · simp [ofLines, MacroTable.after_concat_of_ends hd hp, openMacro?_concat_of_ends ls hd,
        expansions_concat, expansionAfter_of_not_plain hplain]
    · rw [openMacro?_concat_of_ends ls hd, insideMacro_concat_of_ends ls hd, Option.isSome_none]
  · have hp : openMacro? ls = some m := hp
    have hplain : isPlainAfter ls l = false := by simp [isPlainAfter, ← hinside, hp]
    constructor
    · simp [ofLines, MacroTable.after_concat_of_ne_ends ls, hd, openMacro?_concat_of_plain ls hd,
        hp, expansions_concat, expansionAfter_of_not_plain hplain]
    · rw [openMacro?_concat_of_plain ls hd, insideMacro_concat_of_plain ls hd, ← hinside,
        Option.isSome_map]
  · have hp : openMacro? ls = none := hp
    have hplain : isPlainAfter ls l = true := by simp [isPlainAfter, ← hinside, hp, hd]
    constructor
    · simp [ofLines, MacroTable.after_concat_of_ne_ends ls, hd, openMacro?_concat_of_plain ls hd,
        hp, expansions_concat, expansionAfter_of_expandLine hplain ht]
    · rw [openMacro?_concat_of_plain ls hd, insideMacro_concat_of_plain ls hd, ← hinside,
        Option.isSome_map]

/-- An expansion has read the lines before its first error as they divide into definitions and
plain lines. -/
theorem reads_of_stepAll {ls : List SourceLine} {x : Expander} (h : start.stepAll ls = .ok x) :
    Reads ls x := by
  induction ls using List.reverseRecOn generalizing x with
  | nil =>
    cases h
    exact reads_start
  | append_singleton ls l ih =>
    obtain ⟨y, hy, hx⟩ := bind_eq_ok_iff.mp ((foldlM_concat ls l).symm.trans h)
    exact (ih hy).step hx

end Expander

/-- A source is expanded exactly where every line is read and no definition is left open. -/
lemma expand_eq_ok_iff {source : String} {x : Expansion} :
    expand source = .ok x ↔ Expander.start.stepAll (sourceLines source) =
        .ok (Expander.ofLines (sourceLines source)) ∧
      openMacro? (sourceLines source) = none ∧ x = ⟨(expansions (sourceLines source)).toArray⟩ := by
  rw [expand, bind_eq_ok_iff]
  constructor
  · rintro ⟨y, hy, hx⟩
    obtain rfl := (Expander.reads_of_stepAll hy).eq_ofLines
    refine ⟨hy, ?_⟩
    cases hm : openMacro? (sourceLines source) with
    | none => simpa [Expander.finish, Expander.ofLines, hm, eq_comm (a := x)] using hx
    | some m => simp [Expander.finish, Expander.ofLines, hm] at hx
  · rintro ⟨hy, hm, rfl⟩
    exact ⟨_, hy, by simp [Expander.finish, Expander.ofLines, hm]⟩

lemma expand_eq_error_iff {source : String} {e : MacroError} :
    expand source = .error e ↔ Expander.start.stepAll (sourceLines source) = .error e ∨
      ∃ m, Expander.start.stepAll (sourceLines source) =
          .ok (Expander.ofLines (sourceLines source)) ∧
        openMacro? (sourceLines source) = some m ∧ e = ⟨m.line, .unterminated m.name⟩ := by
  rw [expand, bind_eq_error_iff]
  refine or_congr_right ⟨?_, ?_⟩
  · rintro ⟨y, hy, he⟩
    obtain rfl := (Expander.reads_of_stepAll hy).eq_ofLines
    cases hm : openMacro? (sourceLines source) with
    | none => simp [Expander.finish, Expander.ofLines, hm] at he
    | some m =>
      refine ⟨m, hy, rfl, ?_⟩
      simpa [Expander.finish, Expander.ofLines, hm, eq_comm (a := e)] using he
  · rintro ⟨m, hy, hm, rfl⟩
    exact ⟨_, hy, by simp [Expander.finish, Expander.ofLines, hm]⟩

end StackAssembler
