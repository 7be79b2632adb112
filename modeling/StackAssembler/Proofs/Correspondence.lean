import Mathlib.Data.List.Find
import Mathlib.Data.Set.Function
import StackAssembler.Proofs.Passes
import StackAssembler.Proofs.Statement

/-!
# Corresponding sources

Two sources are assembled alike when their lines say the same, up to the names of labels and the
numbers of lines. A function `f` takes the names of the first source to those of the second, and a
function `r` takes the line numbers of the second source back to those of the first. Each step of a
pass over one source is answered by a step over the other, so the passes come to results that
correspond: `passes_correspond`, and with them the assemblies: `assemble_correspond`.
-/

namespace StackAssembler

/-! ### Names of labels -/

/-- The mnemonic of an operation whose operand is a label. -/
def takesLabel (mnemonic : String) : Bool := mnemonic ∈ ["JMP", "JPC", "CAL"]

lemma takesLabel_iff {mnemonic : String} {op : Operation}
    (h : Operation.named? mnemonic = some op) :
    takesLabel mnemonic = true ↔ op.shape = .address := by
  obtain rfl := Operation.mnemonic_of_named? h
  cases op with
  | plain op => cases op <;> decide
  | arith op => cases op <;> decide

/-- The name of the label that an instruction refers to. -/
def Statement.target? (s : Statement) : Option String :=
  if takesLabel s.mnemonic then s.argument else none

/-- The names of labels that a line defines or refers to. -/
def Line.names : Line → List String
  | .label name => [name]
  | .instruction s => s.target?.toList
  | .ignorable => []

/-! ### Renaming -/

section MapNames

variable (f : String → String)

/-- The instruction with the label that it refers to renamed. -/
def Statement.mapNames (s : Statement) : Statement :=
  if takesLabel s.mnemonic then { s with argument := s.argument.map f } else s

/-- The line with the labels that it defines or refers to renamed. -/
def Line.mapNames : Line → Line
  | .label name => .label (f name)
  | .instruction s => .instruction (s.mapNames f)
  | .ignorable => .ignorable

/-- The table with its labels renamed. -/
def LabelTable.mapNames (t : LabelTable) : LabelTable :=
  { t with entries := t.entries.map fun label => ⟨f label.name, label.address⟩ }

/-- The fault with the label that it quotes renamed. -/
def LineFault.mapNames : LineFault → LineFault
  | .undefinedLabel name => .undefinedLabel (f name)
  | .duplicateLabel name => .duplicateLabel (f name)
  | fault => fault

/-- The second fault is the first with the label that it quotes renamed. -/
def LineFault.Renamed (fault fault' : LineFault) : Prop := fault' = fault.mapNames f

variable {f}

@[simp] lemma Statement.mnemonic_mapNames (s : Statement) :
    (s.mapNames f).mnemonic = s.mnemonic := by
  rw [mapNames]
  split_ifs <;> rfl

@[simp] lemma Statement.mapNames_id (s : Statement) : s.mapNames id = s := by
  rw [mapNames]
  split_ifs <;> simp

@[simp] lemma Line.mapNames_id (line : Line) : line.mapNames id = line := by
  cases line <;> simp [mapNames]

@[simp] lemma LabelTable.mapNames_id (t : LabelTable) : t.mapNames id = t := by
  simp [mapNames]

@[simp] lemma LineFault.mapNames_id (fault : LineFault) : fault.mapNames id = fault := by
  cases fault <;> rfl

namespace LabelTable

@[simp] lemma size_mapNames (t : LabelTable) : (t.mapNames f).size = t.size :=
  List.length_map _

/-- A renamed label is found where no other label has its new name. -/
lemma find?_mapNames {t : LabelTable} {name : String}
    (h : ∀ bound ∈ t.names, f bound = f name → bound = name) :
    (t.mapNames f).find? (f name) = t.find? name := by
  have hfind : t.entries.find? (fun label => f label.name == f name) =
      t.entries.find? (fun label => label.name == name) := by
    apply List.find?_congr
    intro label hlabel
    rw [Bool.eq_iff_iff, beq_iff_eq, beq_iff_eq]
    exact ⟨h label.name (List.mem_map_of_mem hlabel), congrArg f⟩
  rw [find?, find?, mapNames, List.find?_map, Option.map_map]
  show (t.entries.find? (fun label => f label.name == f name)).map Label.address = _
  rw [hfind]

/-- A renamed table binds a renamed name where the table binds the name. -/
lemma define_mapNames {t : LabelTable} {name : String} (address : Nat)
    (h : ∀ bound ∈ t.names, f bound = f name → bound = name) :
    Corresponds (LineFault.Renamed f)
      (fun u u' => u' = u.mapNames f ∧ u.names = t.names ++ [name])
      (t.define name address) ((t.mapNames f).define (f name) address) := by
  have hcapacity : (t.mapNames f).capacity = t.capacity := rfl
  rw [define, define, find?_mapNames h, size_mapNames, hcapacity]
  split_ifs with hbound hfull
  · exact .error rfl
  · exact .error rfl
  · exact .ok ⟨by simp [mapNames], by simp [names]⟩

end LabelTable

namespace Statement

variable {labels : LabelTable} {s : Statement}

lemma target?_of_takesLabel (h : takesLabel s.mnemonic = true) : s.target? = s.argument := if_pos h

/-- Operands other than labels do not depend on the table. -/
lemma operand_eq_of_shape_ne {op : Operation} (h : op.shape ≠ .address) (s : Statement)
    (labels labels' : LabelTable) : s.operand labels op = s.operand labels' op := by
  unfold operand
  cases hshape : op.shape with
  | address => exact absurd hshape h
  | immediate | arithmetic | empty => cases s.argument <;> cases s.extra <;> rfl

/-- A renamed statement has the operand of the statement. -/
lemma operand_mapNames {op : Operation} (hop : Operation.named? s.mnemonic = some op)
    (h : ∀ name ∈ s.target?, (labels.mapNames f).find? (f name) = labels.find? name) :
    Corresponds (LineFault.Renamed f) (· = ·)
      (s.operand labels op) ((s.mapNames f).operand (labels.mapNames f) op) := by
  by_cases htakes : takesLabel s.mnemonic = true
  · have hshape := (takesLabel_iff hop).mp htakes
    rw [target?_of_takesLabel htakes] at h
    rw [mapNames, if_pos htakes]
    unfold operand
    cases hextra : s.extra with
    | some token =>
      simp only [hshape]
      exact .error rfl
    | none =>
      cases hargument : s.argument with
      | none =>
        simp only [hshape]
        exact .error rfl
      | some name =>
        have hfind := h name hargument
        simp only [hshape, LabelTable.resolve, Option.map_some, hfind]
        cases labels.find? name with
        | none => exact .error rfl
        | some address => exact .ok rfl
  · have hshape : op.shape ≠ .address := fun hshape => htakes ((takesLabel_iff hop).mpr hshape)
    rw [mapNames, if_neg htakes, operand_eq_of_shape_ne hshape s (labels.mapNames f) labels]
    cases hoperand : s.operand labels op with
    | ok operand => exact .ok rfl
    | error fault =>
      -- only the label of a jump is quoted by a fault that names a label
      cases (operand_eq_error_iff hop).mp hoperand with
      | label hop' hshape' =>
        obtain rfl := Option.some.inj (hop.symm.trans hop')
        exact absurd hshape' hshape
      | unknown | extra | missing | literal | stray => exact .error rfl

lemma word_of_named? {op : Operation} (hop : Operation.named? s.mnemonic = some op)
    (labels : LabelTable) :
    s.word labels = s.operand labels op >>= fun operand => .ok (op.encode operand) := by
  cases hoperand : s.operand labels op <;> simp [word, hop, hoperand, bind, Except.bind]

/-- A renamed statement has the word of the statement. -/
lemma word_mapNames
    (h : ∀ name ∈ s.target?, (labels.mapNames f).find? (f name) = labels.find? name) :
    Corresponds (LineFault.Renamed f) (· = ·)
      (s.word labels) ((s.mapNames f).word (labels.mapNames f)) := by
  cases hop : Operation.named? s.mnemonic with
  | none =>
    rw [word, word, mnemonic_mapNames, hop]
    exact .error rfl
  | some op =>
    rw [word_of_named? hop, word_of_named? (s := s.mapNames f) (by rwa [mnemonic_mapNames])]
    apply (operand_mapNames hop h).bind
    rintro operand _ rfl
    exact .ok rfl

end Statement

end MapNames

/-! ### Lines that correspond -/

/-- Two errors are of the same request, or of two lines whose faults are related, where the number
of the second line leads to the first. -/
inductive AssemblyError.Matches (F : LineFault → LineFault → Prop) (r : Nat → Nat) :
    AssemblyError → AssemblyError → Prop where
  | invalidInput (fault : RequestFault) :
      AssemblyError.Matches F r (.invalidInput fault) (.invalidInput fault)
  | atLine (n : Nat) {fault fault' : LineFault} (h : F fault fault') :
      AssemblyError.Matches F r (.atLine (r n) fault) (.atLine n fault')

/-- Two lines say the same up to the names of labels, which are among the used ones, and the number
of the second leads to the first. -/
structure SourceLine.Matches (f : String → String) (r : Nat → Nat)
    (F : LineFault → LineFault → Prop) (used : Set String) (l l' : SourceLine) : Prop where
  number : l.number = r l'.number
  reads : Corresponds F
    (fun line line' => line' = line.mapNames f ∧ ∀ name ∈ line.names, name ∈ used)
    (Line.classify l.text) (Line.classify l'.text)

variable {f : String → String} {r : Nat → Nat} {F : LineFault → LineFault → Prop}
  {used : Set String} {l l' : SourceLine}

lemma Corresponds.locate {α α' : Type} {R : α → α' → Prop} {x : Except LineFault α}
    {x' : Except LineFault α'} (h : Corresponds F R x x') (hnumber : l.number = r l'.number) :
    Corresponds (AssemblyError.Matches F r) R (l.locate x) (l'.locate x') := by
  cases h with
  | ok h => exact .ok h
  | error h =>
    refine .error ?_
    rw [hnumber]
    exact .atLine l'.number h

/-! ### The first pass -/

namespace Survey

/-- The state with its labels renamed. -/
def mapNames (f : String → String) (s : Survey) : Survey :=
  { s with labels := s.labels.mapNames f }

/-- The second state is the first with its labels renamed, which are among the used ones. -/
def Renamed (f : String → String) (used : Set String) (s s' : Survey) : Prop :=
  s' = s.mapNames f ∧ ∀ name ∈ s.labels.names, name ∈ used

lemma step_label (s : Survey) (name : String) :
    s.step (.label name) = s.labels.define name s.address >>= fun labels =>
      .ok { s with labels := labels, reach := s.reach.pastLabel } := by
  cases hlabels : s.labels.define name s.address <;> simp [step, hlabels, bind, Except.bind]

/-- The first pass takes in a renamed line as it takes in the line. -/
lemma step_renamed {s s' : Survey} {line : Line} (hf : Set.InjOn f used)
    (hs : Renamed f used s s') (hline : ∀ name ∈ line.names, name ∈ used) :
    Corresponds (LineFault.Renamed f) (Renamed f used)
      (s.step line) (s'.step (line.mapNames f)) := by
  obtain ⟨rfl, hused⟩ := hs
  cases line with
  | label name =>
    have hname : name ∈ used := hline name (by simp [Line.names])
    have hdefine := LabelTable.define_mapNames s.address fun bound hbound heq =>
      hf (hused bound hbound) hname heq
    rw [Line.mapNames, step_label, step_label]
    apply hdefine.bind
    rintro labels _ ⟨rfl, hnames⟩
    refine .ok ⟨rfl, ?_⟩
    intro bound hbound
    rw [hnames, List.mem_append, List.mem_singleton] at hbound
    rcases hbound with hbound | rfl
    · exact hused bound hbound
    · exact hname
  | instruction st =>
    have hreach : (s.mapNames f).reach = s.reach := rfl
    rw [Line.mapNames, step, step, hreach, Statement.mnemonic_mapNames]
    split_ifs
    · exact .ok ⟨rfl, hused⟩
    · exact .ok ⟨rfl, hused⟩
  | ignorable => exact .ok ⟨rfl, hused⟩

lemma scan_renamed {s s' : Survey} (hF : ∀ fault : LineFault, F fault (fault.mapNames f))
    (hf : Set.InjOn f used) (hs : Renamed f used s s') (hl : l.Matches f r F used l') :
    Corresponds (AssemblyError.Matches F r) (Renamed f used) (s.scan l) (s'.scan l') := by
  rw [scan, scan]
  apply Corresponds.locate _ hl.number
  apply hl.reads.bind
  rintro line _ ⟨rfl, hnames⟩
  refine (step_renamed hf hs hnames).imp ?_ fun _ _ => id
  rintro fault _ rfl
  exact hF fault

lemma run_renamed (hF : ∀ fault : LineFault, F fault (fault.mapNames f)) (hf : Set.InjOn f used)
    {ls ls' : List SourceLine} (hls : List.Forall₂ (SourceLine.Matches f r F used) ls ls')
    (config : Config) :
    Corresponds (AssemblyError.Matches F r) (Renamed f used) (run config ls) (run config ls') := by
  have hstart : Renamed f used (start config) (start config) :=
    ⟨rfl, fun _ hname => absurd hname List.not_mem_nil⟩
  rw [run, run, scanAll, scanAll]
  apply Corresponds.foldlM _ hls hstart
  intro s s' l l' hs hl
  exact scan_renamed hF hf hs hl

end Survey

/-! ### The second pass -/

namespace Emission

/-- The state with the lines of its words replaced. -/
def mapLines (r : Nat → Nat) (e : Emission) : Emission :=
  { e with cells := e.cells.map fun cell => { cell with line := r cell.line } }

/-- The lines of the words of the second state lead to those of the first. -/
def Renumbered (r : Nat → Nat) (e e' : Emission) : Prop := e = e'.mapLines r

variable {labels : LabelTable} {maxWords : Nat}

lemma step_of_admits {e : Emission} (h : e.reach.admits = true) (number : Nat) (st : Statement) :
    e.step maxWords labels number (.instruction st) = st.word labels >>= fun word =>
      emit maxWords e.cells ⟨word, number⟩ >>= fun cells =>
        .ok ⟨cells, e.reach.pastInstruction st.mnemonic⟩ := by
  cases hword : st.word labels with
  | error fault => simp [step, h, hword, bind, Except.bind]
  | ok word =>
    cases hcells : emit maxWords e.cells ⟨word, number⟩ <;>
      simp [step, h, hword, hcells, bind, Except.bind]

/-- A word is appended to a program with other lines where it is to the program. -/
lemma emit_mapLines (cells : Array Cell) (word : Word) (n : Nat) :
    Corresponds (LineFault.Renamed f)
      (fun cells cells' => cells = cells'.map fun cell => { cell with line := r cell.line })
      (emit maxWords (cells.map fun cell => { cell with line := r cell.line }) ⟨word, r n⟩)
      (emit maxWords cells ⟨word, n⟩) := by
  rw [emit, emit, Array.size_map]
  split_ifs
  · exact .ok (by rw [Array.map_push])
  · exact .error rfl

/-- The second pass takes in a renamed line as it takes in the line. -/
lemma step_renamed {e e' : Emission} {line : Line} {n n' : Nat} (he : Renumbered r e e')
    (hn : n = r n')
    (h : ∀ name ∈ line.names, (labels.mapNames f).find? (f name) = labels.find? name) :
    Corresponds (LineFault.Renamed f) (Renumbered r)
      (e.step maxWords labels n line)
      (e'.step maxWords (labels.mapNames f) n' (line.mapNames f)) := by
  obtain rfl : e = e'.mapLines r := he
  subst hn
  cases line with
  | label name => exact .ok rfl
  | instruction st =>
    have hreach : (e'.mapLines r).reach = e'.reach := rfl
    cases hadmits : e'.reach.admits with
    | false =>
      simp only [Line.mapNames, step, hreach, hadmits]
      exact .ok rfl
    | true =>
      rw [Line.mapNames, step_of_admits hadmits, step_of_admits (hreach ▸ hadmits)]
      apply (Statement.word_mapNames fun name hname => h name (Option.mem_toList.mpr hname)).bind
      rintro word _ rfl
      apply (emit_mapLines e'.cells word n').bind
      rintro cells cells' rfl
      rw [Statement.mnemonic_mapNames]
      exact .ok rfl
  | ignorable => exact .ok rfl

lemma scan_renamed {e e' : Emission} (hF : ∀ fault : LineFault, F fault (fault.mapNames f))
    (hfind : ∀ name ∈ used, (labels.mapNames f).find? (f name) = labels.find? name)
    (he : Renumbered r e e') (hl : l.Matches f r F used l') :
    Corresponds (AssemblyError.Matches F r) (Renumbered r)
      (e.scan maxWords labels l) (e'.scan maxWords (labels.mapNames f) l') := by
  rw [scan, scan]
  apply Corresponds.locate _ hl.number
  apply hl.reads.bind
  rintro line _ ⟨rfl, hnames⟩
  have hline : ∀ name ∈ line.names,
      (labels.mapNames f).find? (f name) = labels.find? name :=
    fun name hname => hfind name (hnames name hname)
  refine (step_renamed he hl.number hline).imp ?_ fun _ _ => id
  rintro fault _ rfl
  exact hF fault

lemma run_renamed (hF : ∀ fault : LineFault, F fault (fault.mapNames f))
    (hfind : ∀ name ∈ used, (labels.mapNames f).find? (f name) = labels.find? name)
    {ls ls' : List SourceLine} (hls : List.Forall₂ (SourceLine.Matches f r F used) ls ls')
    (config : Config) :
    Corresponds (AssemblyError.Matches F r) (Renumbered r)
      (run config labels ls) (run config (labels.mapNames f) ls') := by
  have hstart : Renumbered r (start config) (start config) := by
    simp [Renumbered, start, mapLines]
  rw [run, run, scanAll, scanAll]
  apply Corresponds.foldlM _ hls hstart
  intro e e' l l' he hl
  exact scan_renamed hF hfind he hl

end Emission

/-! ### The two passes together -/

/-- The two passes over lines. -/
def passes (config : Config) (ls : List SourceLine) : Except AssemblyError Image :=
  Survey.run config ls >>= fun survey =>
    Emission.run config survey.labels ls >>= fun emission => .ok ⟨emission.cells, survey.labels⟩

/-- The second image is the first up to the names of labels, and the lines of its words lead to
those of the first. -/
def Image.Renamed (f : String → String) (r : Nat → Nat) (image image' : Image) : Prop :=
  image.cells = (image'.mapLines r).cells ∧ image'.labels = image.labels.mapNames f

/-- Where lines say the same up to names that are not confused, the passes over them come to the
same image up to names, or to faults that correspond. -/
theorem passes_correspond (hF : ∀ fault : LineFault, F fault (fault.mapNames f))
    (hf : Set.InjOn f used) {ls ls' : List SourceLine}
    (hls : List.Forall₂ (SourceLine.Matches f r F used) ls ls') (config : Config) :
    Corresponds (AssemblyError.Matches F r) (Image.Renamed f r)
      (passes config ls) (passes config ls') := by
  rw [passes, passes]
  apply (Survey.run_renamed hF hf hls config).bind
  rintro survey _ ⟨rfl, hused⟩
  have hfind : ∀ name ∈ used,
      (survey.labels.mapNames f).find? (f name) = survey.labels.find? name := by
    intro name hname
    apply LabelTable.find?_mapNames
    intro bound hbound heq
    exact hf (hused bound hbound) hname heq
  apply (Emission.run_renamed hF hfind hls config).bind
  rintro emission emission' rfl
  exact .ok ⟨rfl, rfl⟩

/-- Where the passes over two sources correspond, the assemblies do. An empty source is refused, so
one of them is empty where the other is. -/
theorem assemble_correspond {source source' : String} (hempty : source = "" ↔ source' = "")
    {config : Config}
    (h : Corresponds (AssemblyError.Matches F r) (Image.Renamed f r)
      (passes config (sourceLines source)) (passes config (sourceLines source'))) :
    Corresponds (AssemblyError.Matches F r) (Image.Renamed f r)
      (assemble config source) (assemble config source') := by
  have hcheck : config.check source' = config.check source := by
    simp only [Config.check, hempty]
  rw [assemble, assemble, hcheck]
  cases config.check source with
  | error fault => exact .error (.invalidInput fault)
  | ok _ => exact h

end StackAssembler
