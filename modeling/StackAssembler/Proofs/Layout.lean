import Mathlib.Data.List.DropRight
import Mathlib.Data.List.Nodup
import StackAssembler.Assembly.LabelTable
import StackAssembler.Assembly.Reach
import StackAssembler.Proofs.Lines
import StackAssembler.Proofs.Scan

/-!
# Layout of a program

Which instructions of a source make up the program and which address each label stands for, read
off the lines alone and not off the passes that compute them. An instruction is admitted by
looking at the lines before it; a label stands for the number of instructions admitted before it.
-/

namespace StackAssembler

/-! ### What a line contributes -/

namespace SourceLine

/-- The name that a line defines. -/
def label? (l : SourceLine) : Option String :=
  match Line.classify l.text with
  | .ok (.label name) => some name
  | _ => none

/-- The instruction that a line states. -/
def statement? (l : SourceLine) : Option Statement :=
  match Line.classify l.text with
  | .ok (.instruction s) => some s
  | _ => none

/-- The line states an unconditional jump, whatever its operands are. -/
def isJump (l : SourceLine) : Bool := l.statement?.any (·.mnemonic == "JMP")

/-- The line says nothing. -/
def isIgnorable (l : SourceLine) : Bool := Line.classify l.text = .ok .ignorable

lemma label?_eq_some_iff {l : SourceLine} {name : String} :
    l.label? = some name ↔ Line.classify l.text = .ok (.label name) := by
  rw [label?]
  split <;> simp_all

lemma statement?_eq_some_iff {l : SourceLine} {s : Statement} :
    l.statement? = some s ↔ Line.classify l.text = .ok (.instruction s) := by
  rw [statement?]
  split <;> simp_all

/-- A line does not define a label and state an instruction at once. -/
lemma label?_eq_none_of_statement? {l : SourceLine} {s : Statement} (h : l.statement? = some s) :
    l.label? = none := by
  rw [statement?_eq_some_iff] at h
  simp [label?, h]

lemma isIgnorable_eq_false_of_statement? {l : SourceLine} {s : Statement}
    (h : l.statement? = some s) : l.isIgnorable = false := by
  rw [statement?_eq_some_iff] at h
  simp [isIgnorable, h]

lemma statement?_eq_none_of_label? {l : SourceLine} {name : String} (h : l.label? = some name) :
    l.statement? = none := by
  rw [label?_eq_some_iff] at h
  simp [statement?, h]

end SourceLine

/-! ### Line numbers -/

/-- The texts of numbered lines are the texts that were numbered. -/
lemma map_text_numberFrom (n : Nat) (texts : List String) :
    (numberFrom n texts).map SourceLine.text = texts := by
  induction texts generalizing n with
  | nil => rfl
  | cons text texts ih => rw [numberFrom, List.map_cons, ih]

lemma text_mem_of_mem_sourceLines {source : String} {l : SourceLine}
    (h : l ∈ sourceLines source) : l.text ∈ Text.linesOf source := by
  have htext : l.text ∈ (sourceLines source).map SourceLine.text := List.mem_map_of_mem h
  rwa [sourceLines, map_text_numberFrom] at htext

/-- A text that ends in a line feed, or is empty, has its lines before those of a text behind it. -/
lemma sourceLines_append_numberFrom {a : String} (h : ∀ c ∈ a.toList.getLast?, c = '\n')
    (b : String) : sourceLines (a ++ b) =
      sourceLines a ++ numberFrom (1 + (Text.linesOf a).length) (Text.linesOf b) := by
  rw [sourceLines, Text.linesOf_append h, numberFrom_append]
  rfl

lemma getElem?_numberFrom (n i : Nat) (texts : List String) :
    (numberFrom n texts)[i]? = texts[i]?.map (SourceLine.mk (n + i)) := by
  induction texts generalizing n i with
  | nil => rfl
  | cons text texts ih =>
    cases i with
    | zero => rfl
    | succ i => rw [numberFrom, List.getElem?_cons_succ, ih, Nat.add_right_comm, Nat.add_assoc,
        List.getElem?_cons_succ]

lemma number_of_numberFrom_eq {n : Nat} {texts : List String} {before after : List SourceLine}
    {l : SourceLine} (h : numberFrom n texts = before ++ l :: after) :
    l.number = n + before.length := by
  induction before generalizing n texts with
  | nil =>
    cases texts with
    | nil => cases h
    | cons text texts =>
      obtain ⟨rfl, -⟩ := List.cons.inj h
      rfl
  | cons b before ih =>
    cases texts with
    | nil => cases h
    | cons text texts =>
      obtain ⟨-, h⟩ := List.cons.inj h
      rw [ih h, List.length_cons]
      omega

/-- Lines are counted from one. -/
lemma number_of_sourceLines_eq {source : String} {before after : List SourceLine} {l : SourceLine}
    (h : sourceLines source = before ++ l :: after) : l.number = before.length + 1 := by
  rw [number_of_numberFrom_eq h, Nat.add_comm]

/-- The numbers of the lines ascend. -/
def Ascending (ls : List SourceLine) : Prop := ls.Pairwise fun a b => a.number < b.number

lemma ascending_numberFrom (n : Nat) (texts : List String) : Ascending (numberFrom n texts) := by
  induction texts generalizing n with
  | nil => exact List.Pairwise.nil
  | cons text texts ih =>
    refine List.pairwise_cons.mpr ⟨fun b hb => ?_, ih (n + 1)⟩
    obtain ⟨before, after, heq⟩ := List.append_of_mem hb
    rw [number_of_numberFrom_eq heq]
    show n < n + 1 + before.length
    omega

lemma ascending_sourceLines (source : String) : Ascending (sourceLines source) :=
  ascending_numberFrom 1 (Text.linesOf source)

/-! ### Admission -/

/-- A jump stands among the lines behind the last label. -/
def behindJump (ls : List SourceLine) : Bool :=
  (ls.rtakeWhile fun l => l.label?.isNone).any SourceLine.isJump

/-- An instruction behind the given lines is part of the program. -/
def ReachPolicy.admitsAfter (policy : ReachPolicy) (before : List SourceLine) : Bool :=
  !(policy == .pruneAfterJump && behindJump before)

@[simp] lemma behindJump_nil : behindJump [] = false := rfl

lemma behindJump_concat (ls : List SourceLine) (l : SourceLine) :
    behindJump (ls ++ [l]) = (l.label?.isNone && (behindJump ls || l.isJump)) := by
  rw [behindJump, behindJump, List.rtakeWhile_concat]
  cases h : l.label? <;> simp

/-- A line without an instruction leaves the jump before it in sight. -/
lemma behindJump_of_concat {ls : List SourceLine} {l : SourceLine} (hs : l.statement? = none)
    (h : behindJump (ls ++ [l]) = true) : behindJump ls = true := by
  rw [behindJump_concat, Bool.and_eq_true, Bool.or_eq_true] at h
  rcases h.2 with h | h
  · exact h
  · simp [SourceLine.isJump, hs] at h

@[simp] lemma admitsAfter_keep (before : List SourceLine) :
    ReachPolicy.keep.admitsAfter before = true := rfl

@[simp] lemma admitsAfter_prune (before : List SourceLine) :
    ReachPolicy.pruneAfterJump.admitsAfter before = !behindJump before := rfl

/-- The reach of control behind lines. -/
def Reach.after (policy : ReachPolicy) (ls : List SourceLine) : Reach :=
  ⟨policy, policy == .pruneAfterJump && behindJump ls⟩

namespace Reach

@[simp] lemma after_nil (policy : ReachPolicy) : after policy [] = start policy := by
  simp [after, start]

@[simp] lemma admits_after (policy : ReachPolicy) (ls : List SourceLine) :
    (after policy ls).admits = policy.admitsAfter ls := rfl

/-- `JMP` is the only mnemonic of an unconditional jump. -/
lemma isJump_eq (mnemonic : String) : isJump mnemonic = (mnemonic == "JMP") := by
  rw [isJump]
  by_cases h : mnemonic = "JMP"
  · subst h
    rfl
  · rw [beq_false_of_ne h]
    cases hop : Operation.named? mnemonic with
    | none => rfl
    | some op =>
      have hname := Operation.mnemonic_of_named? hop
      cases op with
      | arith op => rfl
      | plain op =>
        cases op with
        | jmp => exact absurd hname.symm h
        | _ => rfl

lemma after_concat_of_label? {l : SourceLine} {name : String} (policy : ReachPolicy)
    (ls : List SourceLine) (h : l.label? = some name) :
    after policy (ls ++ [l]) = (after policy ls).pastLabel := by
  simp [after, pastLabel, behindJump_concat, h]

lemma after_concat_of_statement? {l : SourceLine} {s : Statement} (policy : ReachPolicy)
    (ls : List SourceLine) (h : l.statement? = some s) :
    after policy (ls ++ [l]) = (after policy ls).pastInstruction s.mnemonic := by
  simp only [after, pastInstruction, behindJump_concat, isJump_eq, SourceLine.isJump, h,
    l.label?_eq_none_of_statement? h, Option.any_some, Option.isNone_none, Bool.true_and,
    Bool.and_or_distrib_left]

lemma after_concat_of_silent {l : SourceLine} (policy : ReachPolicy) (ls : List SourceLine)
    (hlabel : l.label? = none) (hstatement : l.statement? = none) :
    after policy (ls ++ [l]) = after policy ls := by
  simp [after, behindJump_concat, hlabel, SourceLine.isJump, hstatement]

/-- An instruction that is left out leaves the reach as it is. -/
lemma pastInstruction_of_not_admits {r : Reach} (mnemonic : String) (h : r.admits = false) :
    r.pastInstruction mnemonic = r := by
  obtain ⟨policy, skipping⟩ := r
  cases skipping with
  | false => cases h
  | true => rfl

end Reach

/-! ### The instructions of the program -/

/-- An instruction with the number of the line it stands on. -/
structure Placement where
  line : Nat
  statement : Statement
  deriving DecidableEq, Repr

/-- The instruction of a line with its place. -/
def SourceLine.placement? (l : SourceLine) : Option Placement :=
  l.statement?.map (Placement.mk l.number)

/-- The instructions that a policy admits, in order. -/
def admitted (policy : ReachPolicy) : List SourceLine → List Placement :=
  collect fun before l => if policy.admitsAfter before then l.placement?.toList else []

@[simp] lemma admitted_nil (policy : ReachPolicy) : admitted policy [] = [] := rfl

lemma admitted_concat (policy : ReachPolicy) (ls : List SourceLine) (l : SourceLine) :
    admitted policy (ls ++ [l]) = admitted policy ls ++
      if policy.admitsAfter ls then l.placement?.toList else [] :=
  collect_concat ls l

lemma admitted_concat_of_admits {policy : ReachPolicy} {ls : List SourceLine} {l : SourceLine}
    {s : Statement} (hs : l.statement? = some s) (h : policy.admitsAfter ls = true) :
    admitted policy (ls ++ [l]) = admitted policy ls ++ [⟨l.number, s⟩] := by
  simp [admitted_concat, SourceLine.placement?, hs, h]

lemma admitted_concat_of_not_admits {policy : ReachPolicy} {ls : List SourceLine} (l : SourceLine)
    (h : policy.admitsAfter ls = false) : admitted policy (ls ++ [l]) = admitted policy ls := by
  simp [admitted_concat, h]

lemma admitted_concat_of_no_statement (policy : ReachPolicy) (ls : List SourceLine)
    {l : SourceLine} (h : l.statement? = none) :
    admitted policy (ls ++ [l]) = admitted policy ls := by
  simp [admitted_concat, SourceLine.placement?, h]

lemma admitted_append (policy : ReachPolicy) (as bs : List SourceLine) :
    admitted policy (as ++ bs) = admitted policy as ++ collectAfter
      (fun before l => if policy.admitsAfter before then l.placement?.toList else []) as bs :=
  collect_append as bs

lemma length_admitted_le (policy : ReachPolicy) (as bs : List SourceLine) :
    (admitted policy as).length ≤ (admitted policy (as ++ bs)).length := by
  rw [admitted_append, List.length_append]
  exact Nat.le_add_right _ _

lemma mem_admitted_iff {policy : ReachPolicy} {ls : List SourceLine} {p : Placement} :
    p ∈ admitted policy ls ↔ ∃ before l after, ls = before ++ l :: after ∧
      policy.admitsAfter before = true ∧ l.statement? = some p.statement ∧ l.number = p.line := by
  rw [admitted, mem_collect_iff]
  refine exists_congr fun before => exists_congr fun l => exists_congr fun after =>
    and_congr_right fun _ => ?_
  obtain ⟨line, statement⟩ := p
  split_ifs with h <;> simp [SourceLine.placement?, h, and_comm]

lemma exists_line_of_mem_admitted {policy : ReachPolicy} {ls : List SourceLine} {p : Placement}
    (h : p ∈ admitted policy ls) :
    ∃ l ∈ ls, l.number = p.line ∧ Line.classify l.text = .ok (.instruction p.statement) := by
  obtain ⟨before, l, after, rfl, -, hs, hline⟩ := mem_admitted_iff.mp h
  exact ⟨l, by simp, hline, SourceLine.statement?_eq_some_iff.mp hs⟩

/-- The instruction at an address is the one of a line with so many instructions before it. -/
lemma getElem?_admitted_iff {policy : ReachPolicy} {ls : List SourceLine} {i : Nat}
    {p : Placement} :
    (admitted policy ls)[i]? = some p ↔ ∃ before l after, ls = before ++ l :: after ∧
      policy.admitsAfter before = true ∧ l.statement? = some p.statement ∧ l.number = p.line ∧
      (admitted policy before).length = i := by
  obtain ⟨line, statement⟩ := p
  constructor
  · induction ls using List.reverseRecOn with
    | nil => simp
    | append_singleton ls l ih =>
      intro h
      by_cases hi : i < (admitted policy ls).length
      · rw [admitted_concat, List.getElem?_append_left hi] at h
        obtain ⟨before, x, after, rfl, hrest⟩ := ih h
        exact ⟨before, x, after ++ [l], by simp, hrest⟩
      · -- the last line gives at most one instruction, so the address is that of the place before it
        rw [admitted_concat, List.getElem?_append_right (by omega)] at h
        refine ⟨ls, l, [], rfl, ?_⟩
        split_ifs at h with ha
        · cases hs : l.statement? with
          | none => simp [SourceLine.placement?, hs] at h
          | some s =>
            simp only [SourceLine.placement?, hs, Option.map_some, Option.toList_some,
              List.getElem?_singleton] at h
            split_ifs at h with hzero
            cases h
            exact ⟨ha, rfl, rfl, by omega⟩
        · simp at h
  · rintro ⟨before, l, after, rfl, ha, hs, rfl, rfl⟩
    simp only at hs
    rw [admitted_append, List.getElem?_append_right (Nat.le_refl _)]
    simp [SourceLine.placement?, hs, ha]

/-! ### Labels and their addresses -/

/-- The names that lines define, in order. -/
def names (ls : List SourceLine) : List String := ls.filterMap SourceLine.label?

/-- The names that lines define, each with the number of its line. -/
def definitions (ls : List SourceLine) : List (Nat × String) :=
  ls.filterMap fun l => l.label?.map (Prod.mk l.number)

/-- The labels that lines define, each with the number of instructions admitted before it. -/
def bindings (policy : ReachPolicy) : List SourceLine → List Label :=
  collect fun before l => (l.label?.map (Label.mk · (admitted policy before).length)).toList

@[simp] lemma names_nil : names [] = [] := rfl

lemma names_append (as bs : List SourceLine) : names (as ++ bs) = names as ++ names bs :=
  List.filterMap_append

lemma names_cons_of_label? {l : SourceLine} {name : String} (ls : List SourceLine)
    (h : l.label? = some name) : names (l :: ls) = name :: names ls :=
  List.filterMap_cons_some h

lemma names_concat_of_label? {l : SourceLine} {name : String} (ls : List SourceLine)
    (h : l.label? = some name) : names (ls ++ [l]) = names ls ++ [name] := by
  simp [names, h]

lemma names_concat_of_no_label {l : SourceLine} (ls : List SourceLine) (h : l.label? = none) :
    names (ls ++ [l]) = names ls := by
  simp [names, h]

@[simp] lemma bindings_nil (policy : ReachPolicy) : bindings policy [] = [] := rfl

lemma bindings_concat_of_label? {l : SourceLine} {name : String} (policy : ReachPolicy)
    (ls : List SourceLine) (h : l.label? = some name) :
    bindings policy (ls ++ [l]) =
      bindings policy ls ++ [⟨name, (admitted policy ls).length⟩] := by
  simp [bindings, collect_concat, h]

lemma bindings_concat_of_no_label {l : SourceLine} (policy : ReachPolicy) (ls : List SourceLine)
    (h : l.label? = none) : bindings policy (ls ++ [l]) = bindings policy ls := by
  simp [bindings, collect_concat, h]

lemma mem_bindings_iff {policy : ReachPolicy} {ls : List SourceLine} {label : Label} :
    label ∈ bindings policy ls ↔ ∃ before l after, ls = before ++ l :: after ∧
      l.label? = some label.name ∧ (admitted policy before).length = label.address := by
  rw [bindings, mem_collect_iff]
  refine exists_congr fun before => exists_congr fun l => exists_congr fun after =>
    and_congr_right fun _ => ?_
  obtain ⟨name, address⟩ := label
  simp [and_comm]

/-- The bound names are the defined ones. -/
@[simp] lemma map_name_bindings (policy : ReachPolicy) (ls : List SourceLine) :
    (bindings policy ls).map Label.name = names ls := by
  induction ls using List.reverseRecOn with
  | nil => rfl
  | append_singleton ls l ih =>
    cases h : l.label? with
    | none => rw [bindings_concat_of_no_label policy ls h, names_concat_of_no_label ls h, ih]
    | some name =>
      rw [bindings_concat_of_label? policy ls h, names_concat_of_label? ls h, List.map_append, ih]
      rfl

/-- Addresses do not exceed the number of instructions. -/
lemma address_le_of_mem_bindings {policy : ReachPolicy} {ls : List SourceLine} {label : Label}
    (h : label ∈ bindings policy ls) : label.address ≤ (admitted policy ls).length := by
  obtain ⟨before, l, after, rfl, -, haddress⟩ := mem_bindings_iff.mp h
  rw [← haddress]
  exact length_admitted_le policy before (l :: after)

/-- Addresses ascend in the order of definition. -/
lemma bindings_pairwise (policy : ReachPolicy) (ls : List SourceLine) :
    (bindings policy ls).Pairwise fun a b => a.address ≤ b.address := by
  induction ls using List.reverseRecOn with
  | nil => exact List.Pairwise.nil
  | append_singleton ls l ih =>
    cases h : l.label? with
    | none => rwa [bindings_concat_of_no_label policy ls h]
    | some name =>
      rw [bindings_concat_of_label? policy ls h, List.pairwise_append]
      refine ⟨ih, List.pairwise_singleton _ _, fun a ha b hb => ?_⟩
      rw [List.mem_singleton] at hb
      subst hb
      exact address_le_of_mem_bindings ha

/-! ### Instructions and labels of numbered lines -/

/-- The instructions of ascending lines ascend. -/
lemma admitted_pairwise {policy : ReachPolicy} {ls : List SourceLine} (hls : Ascending ls) :
    (admitted policy ls).Pairwise fun p q => p.line < q.line := by
  induction ls using List.reverseRecOn with
  | nil => exact List.Pairwise.nil
  | append_singleton ls l ih =>
    obtain ⟨hls, -, hlast⟩ := List.pairwise_append.mp hls
    cases hs : l.statement? with
    | none => simpa [admitted_concat_of_no_statement policy ls hs] using ih hls
    | some s =>
      cases ha : policy.admitsAfter ls with
      | false => simpa [admitted_concat_of_not_admits l ha] using ih hls
      | true =>
        rw [admitted_concat_of_admits hs ha, List.pairwise_append]
        refine ⟨ih hls, List.pairwise_singleton _ _, fun p hp q hq => ?_⟩
        rw [List.mem_singleton] at hq
        subst hq
        obtain ⟨before, x, after, rfl, -, -, hline⟩ := mem_admitted_iff.mp hp
        rw [← hline]
        exact hlast x (by simp) l (by simp)

/-- The instructions before a line are those with a smaller line number. -/
lemma filter_admitted_lt {policy : ReachPolicy} {before after : List SourceLine} {l : SourceLine}
    (hls : Ascending (before ++ l :: after)) :
    (admitted policy (before ++ l :: after)).filter (·.line < l.number) =
      admitted policy before := by
  obtain ⟨-, hafter, hbefore⟩ := List.pairwise_append.mp hls
  rw [admitted_append, List.filter_append]
  have hleft : (admitted policy before).filter (·.line < l.number) = admitted policy before := by
    refine List.filter_eq_self.mpr fun p hp => ?_
    obtain ⟨as, x, bs, rfl, -, -, hline⟩ := mem_admitted_iff.mp hp
    rw [← hline, decide_eq_true_eq]
    exact hbefore x (by simp) l (by simp)
  -- what the line itself and the lines behind it give has no smaller number
  rw [hleft, List.append_right_eq_self, List.filter_eq_nil_iff]
  intro p hp
  obtain ⟨middle, x, rest, heq, hx⟩ := mem_collectAfter_iff.mp hp
  have hline : p.line = x.number := by
    split_ifs at hx
    · obtain ⟨s, -, rfl⟩ := Option.map_eq_some_iff.mp (Option.mem_toList.mp hx)
      rfl
    · cases hx
  have hle : l.number ≤ x.number := by
    cases middle with
    | nil =>
      obtain ⟨rfl, -⟩ := List.cons.inj heq
      exact Nat.le_refl _
    | cons y middle =>
      obtain ⟨-, rfl⟩ := List.cons.inj heq
      exact Nat.le_of_lt (List.rel_of_pairwise_cons hafter (by simp))
  simpa [hline] using hle

/-- A label stands for the number of instructions on lines before its own. -/
lemma bindings_eq_map_definitions {policy : ReachPolicy} {ls : List SourceLine}
    (hls : Ascending ls) :
    bindings policy ls = (definitions ls).map fun d =>
      ⟨d.2, ((admitted policy ls).filter (·.line < d.1)).length⟩ := by
  rw [definitions, List.filterMap_eq_flatMap_toList, ← collect_eq_flatMap, map_collect, bindings]
  refine collect_congr fun before l after heq => ?_
  subst heq
  cases l.label? with
  | none => rfl
  | some name => simp [filter_admitted_lt hls]

end StackAssembler
