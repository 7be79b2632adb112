import StackAssembler.Proofs.Lines
import StackAssembler.Proofs.Precedence
import StackAssembler.Proofs.Pruning

/-!
# Concatenation of sources

A source behind another is assembled as it is on its own, at higher addresses and on later lines.
The two must not define the same name, and under pruning the second begins with a label, so that a
jump at the end of the first leaves nothing out of it. Then the layout of the whole is put together
from the layouts of the parts, and the words of the second differ in the targets of jumps alone.
-/

namespace StackAssembler

open Text

/-! ### Lines behind other lines -/

/-- The first line that says something, if there is one, defines a label. -/
def LabelFirst (ls : List SourceLine) : Prop :=
  ∀ l ∈ ls.find? (!·.isIgnorable), l.label?.isSome = true

lemma LabelFirst.of_append {as bs : List SourceLine} (h : LabelFirst (as ++ bs)) :
    LabelFirst as := by
  intro l hl
  apply h
  rw [List.find?_append, Option.mem_def.mp hl]
  rfl

/-- An instruction has a label before it. -/
lemma LabelFirst.exists_label {before after : List SourceLine} {l : SourceLine} {s : Statement}
    (h : LabelFirst (before ++ l :: after)) (hs : l.statement? = some s) :
    ∃ m ∈ before, m.label?.isSome = true := by
  cases hfind : before.find? (!·.isIgnorable) with
  | some m => exact ⟨m, List.mem_of_find?_eq_some hfind, h.of_append m hfind⟩
  | none =>
    have hl := h l (by simp [List.find?_append, hfind, l.isIgnorable_eq_false_of_statement? hs])
    rw [l.label?_eq_none_of_statement? hs] at hl
    cases hl

/-- Lines that do not depend on a jump before them: under pruning, the first that says something
defines a label. -/
def ReachPolicy.Separates (policy : ReachPolicy) (ls : List SourceLine) : Prop :=
  policy = .keep ∨ LabelFirst ls

/-- A jump before a label is out of sight behind it. -/
lemma behindJump_append {bs : List SourceLine} (h : ∃ l ∈ bs, l.label?.isSome = true)
    (as : List SourceLine) : behindJump (as ++ bs) = behindJump bs := by
  induction bs using List.reverseRecOn with
  | nil =>
    obtain ⟨l, hl, -⟩ := h
    cases hl
  | append_singleton bs b ih =>
    rw [← List.append_assoc, behindJump_concat, behindJump_concat]
    cases hb : b.label? with
    | some name => rfl
    | none =>
      obtain ⟨l, hl, hlabel⟩ := h
      rw [List.mem_append, List.mem_singleton] at hl
      rcases hl with hl | rfl
      · rw [ih ⟨l, hl, hlabel⟩]
      · rw [hb] at hlabel
        cases hlabel

section Append

variable {policy : ReachPolicy} {bs : List SourceLine}

lemma ReachPolicy.Separates.of_append {as : List SourceLine} (h : policy.Separates (as ++ bs)) :
    policy.Separates as :=
  h.imp_right LabelFirst.of_append

lemma ReachPolicy.Separates.admitsAfter_append {middle after : List SourceLine} {l : SourceLine}
    {s : Statement} (h : policy.Separates (middle ++ l :: after)) (hs : l.statement? = some s)
    (as : List SourceLine) : policy.admitsAfter (as ++ middle) = policy.admitsAfter middle := by
  rcases h with rfl | h
  · rfl
  · rw [admitsAfter, admitsAfter, behindJump_append (h.exists_label hs)]

/-- The instructions of two lists of lines are those of the first and those of the second. -/
lemma admitted_append_of_separates (h : policy.Separates bs) (as : List SourceLine) :
    admitted policy (as ++ bs) = admitted policy as ++ admitted policy bs := by
  rw [admitted_append]
  congr 1
  apply collectAfter_eq_collect
  rintro middle l after rfl
  -- a line without an instruction gives nothing, admitted or not
  cases hs : l.statement? with
  | none => simp [SourceLine.placement?, hs]
  | some s => rw [h.admitsAfter_append hs as]

/-- The labels of two lists of lines are those of the first, and those of the second at addresses
behind the instructions of the first. -/
lemma bindings_append_of_separates (h : policy.Separates bs) (as : List SourceLine) :
    bindings policy (as ++ bs) = bindings policy as ++
      (bindings policy bs).map fun label =>
        ⟨label.name, label.address + (admitted policy as).length⟩ := by
  rw [bindings, collect_append, ← bindings, bindings, map_collect]
  congr 1
  apply collectAfter_eq_collect
  rintro middle l after rfl
  rw [admitted_append_of_separates h.of_append, List.length_append, Nat.add_comm]
  cases l.label? <;> rfl

end Append

/-! ### Lines with higher numbers -/

/-- The line with its number raised. -/
def SourceLine.shift (k : Nat) (l : SourceLine) : SourceLine := { l with number := l.number + k }

/-- The instruction with the number of its line raised. -/
def Placement.shift (k : Nat) (p : Placement) : Placement := { p with line := p.line + k }

section Shift

variable (k : Nat)

lemma SourceLine.placement?_shift (l : SourceLine) :
    (l.shift k).placement? = l.placement?.map (Placement.shift k) := by
  rw [placement?, placement?, Option.map_map]
  rfl

lemma numberFrom_add (n : Nat) (texts : List String) :
    numberFrom (n + k) texts = (numberFrom n texts).map (SourceLine.shift k) := by
  induction texts generalizing n with
  | nil => rfl
  | cons text texts ih =>
    rw [numberFrom, numberFrom, List.map_cons, ← ih, Nat.add_right_comm]
    rfl

lemma behindJump_map_shift (ls : List SourceLine) :
    behindJump (ls.map (SourceLine.shift k)) = behindJump ls := by
  induction ls using List.reverseRecOn with
  | nil => rfl
  | append_singleton ls l ih =>
    rw [List.map_append, List.map_singleton, behindJump_concat, behindJump_concat, ih]
    rfl

lemma names_map_shift (ls : List SourceLine) : names (ls.map (SourceLine.shift k)) = names ls := by
  rw [names, List.filterMap_map]
  rfl

lemma admitted_map_shift (policy : ReachPolicy) (ls : List SourceLine) :
    admitted policy (ls.map (SourceLine.shift k)) =
      (admitted policy ls).map (Placement.shift k) := by
  induction ls using List.reverseRecOn with
  | nil => rfl
  | append_singleton ls l ih =>
    rw [List.map_append, List.map_singleton, admitted_concat, admitted_concat, ih,
      ReachPolicy.admitsAfter, behindJump_map_shift, ← ReachPolicy.admitsAfter,
      SourceLine.placement?_shift, List.map_append]
    congr 1
    split_ifs
    · cases l.placement? <;> rfl
    · rfl

lemma bindings_map_shift (policy : ReachPolicy) (ls : List SourceLine) :
    bindings policy (ls.map (SourceLine.shift k)) = bindings policy ls := by
  induction ls using List.reverseRecOn with
  | nil => rfl
  | append_singleton ls l ih =>
    rw [List.map_append, List.map_singleton]
    cases hl : l.label? with
    | none =>
      have hshift : (l.shift k).label? = none := hl
      rw [bindings_concat_of_no_label policy _ hshift, bindings_concat_of_no_label policy _ hl, ih]
    | some name =>
      have hshift : (l.shift k).label? = some name := hl
      rw [bindings_concat_of_label? policy _ hshift, bindings_concat_of_label? policy _ hl, ih,
        admitted_map_shift, List.length_map]

lemma ReachPolicy.Separates.map_shift {policy : ReachPolicy} {ls : List SourceLine}
    (h : policy.Separates ls) : policy.Separates (ls.map (SourceLine.shift k)) := by
  refine h.imp_right ?_
  intro hls l hl
  rw [List.find?_map] at hl
  obtain ⟨m, hm, rfl⟩ := Option.map_eq_some_iff.mp hl
  exact hls m hm

end Shift

/-! ### Words with higher targets -/

/-- The word with its target raised, if it is a jump or a call. -/
def Word.shiftTarget (n : Nat) (w : Word) : Word :=
  match w.opcode? with
  | some op => if op ∈ [.jmp, .jpc, .cal] then pack op (addressField (w.field.toNat + n)) else w
  | none => w

lemma Word.shiftTarget_toWord {i : Instruction} (h : i.opcode.shape ≠ .address) (n : Nat) :
    shiftTarget n i.toWord = i.toWord := by
  have hop : i.opcode ∉ [.jmp, .jpc, .cal] := fun hop => h (Opcode.shape_eq_address_iff.mpr hop)
  simp only [shiftTarget, opcode?_toWord]
  rw [if_neg hop]

lemma Word.shiftTarget_pack {op : Opcode} (hop : op ∈ [.jmp, .jpc, .cal]) (address n : Nat) :
    shiftTarget n (pack op (addressField address)) = pack op (addressField (address + n)) := by
  have hopcode : Word.opcode? (pack op (addressField address)) = some op :=
    opcode?_toWord (.address op (addressField address))
  have hfield : (field (pack op (addressField address))).toNat = address % 4096 := by
    rw [field_pack, UInt16.toNat_mod, toNat_addressField]
    exact Nat.mod_mod address 4096
  simp only [shiftTarget, hopcode, hfield]
  rw [if_pos hop, addressField, addressField, Nat.mod_add_mod]

section Words

variable {labels labels' : LabelTable} {s : Statement} {w : Word}

/-- A statement has the same word where more labels are bound. -/
lemma Statement.word_of_extends (h : s.word labels = .ok w)
    (hlabels : ∀ name address, labels.find? name = some address →
      labels'.find? name = some address) : s.word labels' = .ok w := by
  obtain ⟨i, hi, rfl⟩ := word_eq_ok_iff.mp h
  refine word_eq_ok_iff.mpr ⟨i, ?_, rfl⟩
  by_cases hshape : i.opcode.shape = .address
  · obtain ⟨op, name, address, hop, rfl, haddress, rfl⟩ := hi.exists_label hshape
    exact .address hop (hlabels name address haddress) (Word.toNat_addressField address)
  · exact hi.of_shape_ne hshape labels'

/-- A statement has a word with a raised target where its labels are bound to raised addresses. -/
lemma Statement.word_shiftTarget {n : Nat} (h : s.word labels = .ok w) :
    s.word (labels.mapAddresses (· + n)) = .ok (w.shiftTarget n) := by
  obtain ⟨i, hi, rfl⟩ := word_eq_ok_iff.mp h
  by_cases hshape : i.opcode.shape = .address
  · obtain ⟨op, name, address, hop, rfl, haddress, rfl⟩ := hi.exists_label hshape
    have hfind : (labels.mapAddresses (· + n)).find? name = some (address + n) := by
      rw [LabelTable.find?_mapAddresses, haddress, Option.map_some]
    refine word_eq_ok_iff.mpr
      ⟨_, .address hop hfind (Word.toNat_addressField (address + n)), ?_⟩
    exact (Word.shiftTarget_pack hop address n).symm
  · exact word_eq_ok_iff.mpr
      ⟨i, hi.of_shape_ne hshape _, (Word.shiftTarget_toWord hshape n).symm⟩

end Words

/-! ### Programs behind other programs -/

namespace LabelTable

/-- A table with the entries of two. -/
def join (capacity : Nat) (t u : LabelTable) : LabelTable := ⟨capacity, t.entries ++ u.entries⟩

variable {t u : LabelTable} {name : String} {address : Nat}

lemma find?_join (capacity : Nat) (t u : LabelTable) (name : String) :
    (join capacity t u).find? name = (t.find? name).or (u.find? name) := by
  rw [join, find?, List.find?_append, Option.map_or]
  rfl

lemma find?_join_left (capacity : Nat) (u : LabelTable) (h : t.find? name = some address) :
    (join capacity t u).find? name = some address := by
  rw [find?_join, h, Option.some_or]

lemma find?_join_right (capacity : Nat) (hdisjoint : t.names.Disjoint u.names)
    (h : u.find? name = some address) : (join capacity t u).find? name = some address := by
  have hname : name ∈ u.names := by rw [← isSome_find?_iff, h, Option.isSome_some]
  have hnone : t.find? name = none := find?_eq_none_iff.mpr fun hmem => hdisjoint hmem hname
  rw [find?_join, hnone, Option.none_or, h]

lemma names_mapAddresses (f : Nat → Nat) (t : LabelTable) : (t.mapAddresses f).names = t.names := by
  simp [names, mapAddresses]

end LabelTable

/-- Two programs as one: the words of the second come behind those of the first, its labels and the
targets of its jumps and calls are moved along, and so are the lines of its words. -/
def Image.join (lines capacity : Nat) (a b : Image) : Image :=
  ⟨a.cells ++ b.cells.map fun cell => ⟨cell.word.shiftTarget a.size, cell.line + lines⟩,
    a.labels.join capacity (b.labels.mapAddresses (· + a.size))⟩

/-- Lines behind others are laid out as the program behind the other program. -/
lemma Image.Lays.join {a b : Image} {policy : ReachPolicy} {as bs : List SourceLine}
    {wordsA wordsB words capacityA capacityB : Nat}
    (ha : a.Lays ⟨wordsA, capacityA, policy⟩ as) (hb : b.Lays ⟨wordsB, capacityB, policy⟩ bs)
    (hseparates : policy.Separates bs) (hdisjoint : a.labels.names.Disjoint b.labels.names)
    (hwords : a.size + b.size ≤ words) (k capacity : Nat) :
    (a.join k capacity b).Lays ⟨words, capacity, policy⟩ (as ++ bs.map (SourceLine.shift k)) where
  labels := by
    rw [bindings_append_of_separates (hseparates.map_shift k), bindings_map_shift, ← ha.size_eq,
      Image.join, LabelTable.join, ha.labels, hb.labels]
    rfl
  cells := by
    rw [admitted_append_of_separates (hseparates.map_shift k), admitted_map_shift, Image.join,
      Array.toList_append, Array.toList_map]
    apply List.rel_append
    -- the labels of the first program come first in the table
    · apply ha.cells.imp
      rintro p cell ⟨hword, hline⟩
      refine ⟨Statement.word_of_extends hword ?_, hline⟩
      intro name address haddress
      exact LabelTable.find?_join_left capacity _ haddress
    -- and hide none of the second
    · rw [List.forall₂_map_left_iff, List.forall₂_map_right_iff]
      apply hb.cells.imp
      rintro p cell ⟨hword, hline⟩
      refine ⟨Statement.word_of_extends (Statement.word_shiftTarget hword) ?_, ?_⟩
      · intro name address haddress
        rw [← LabelTable.names_mapAddresses (· + a.size) b.labels] at hdisjoint
        exact LabelTable.find?_join_right capacity hdisjoint haddress
      · exact congrArg (· + k) hline
  size_le := by
    rw [Image.size, Image.join, Array.size_append, Array.size_map]
    exact hwords

lemma sourceLines_append {a : String} (h : a.toList.getLast? = some '\n') (b : String) :
    sourceLines (a ++ b) =
      sourceLines a ++ (sourceLines b).map (SourceLine.shift (linesOf a).length) := by
  have hlast : ∀ c ∈ a.toList.getLast?, c = '\n' := by
    intro c hc
    exact Option.some.inj (hc.symm.trans h)
  rw [sourceLines_append_numberFrom hlast, numberFrom_add]
  rfl

lemma WellLabelled.append {capacityA capacityB capacity k : Nat} {as bs : List SourceLine}
    (ha : WellLabelled capacityA as) (hb : WellLabelled capacityB bs)
    (hdisjoint : (names as).Disjoint (names bs))
    (hlength : (names as).length + (names bs).length ≤ capacity) :
    WellLabelled capacity (as ++ bs.map (SourceLine.shift k)) where
  readable := by
    intro l hl
    rw [List.mem_append, List.mem_map] at hl
    rcases hl with hl | ⟨m, hm, rfl⟩
    · exact ha.readable l hl
    · exact hb.readable m hm
  nodup := by
    rw [names_append, names_map_shift]
    exact ha.nodup.append hb.nodup hdisjoint
  length_le := by
    rw [names_append, names_map_shift, List.length_append]
    exact hlength

/-- Assembly takes concatenation to the joining of programs. Let two sources be assembled under one
policy, whatever their limits, where the first ends in a line feed, no name is defined in both, and
under pruning the first line of the second that says something defines a label. Then one behind the
other they are assembled, under all limits with room for the words and labels of both, and to the
program of the first with that of the second behind it. -/
theorem assemble_append {a b : String} {imageA imageB : Image} {policy : ReachPolicy}
    {wordsA capacityA wordsB capacityB words capacity : Nat}
    (ha : assemble ⟨wordsA, capacityA, policy⟩ a = .ok imageA)
    (hb : assemble ⟨wordsB, capacityB, policy⟩ b = .ok imageB)
    (hend : a.toList.getLast? = some '\n')
    (hdisjoint : imageA.labels.names.Disjoint imageB.labels.names)
    (hseparates : policy = .keep ∨ LabelFirst (sourceLines b))
    (hwords : 0 < words) (hcapacity : 0 < capacity)
    (hsize : imageA.size + imageB.size ≤ words)
    (hlabels : imageA.labels.size + imageB.labels.size ≤ capacity) :
    assemble ⟨words, capacity, policy⟩ (a ++ b) =
      .ok (imageA.join (linesOf a).length capacity imageB) := by
  obtain ⟨hcheckA, hwellA, hlaysA⟩ := assemble_eq_ok_iff_lays.mp ha
  obtain ⟨-, hwellB, hlaysB⟩ := assemble_eq_ok_iff_lays.mp hb
  rw [assemble_eq_ok_iff_lays, sourceLines_append hend]
  refine ⟨?_, hwellA.append hwellB ?_ ?_, hlaysA.join hlaysB hseparates hdisjoint hsize _ _⟩
  · obtain ⟨-, -, hne⟩ := check_eq_ok_iff.mp hcheckA
    exact check_eq_ok_iff.mpr ⟨hwords, hcapacity, by simp [hne]⟩
  · rwa [← hlaysA.names_labels, ← hlaysB.names_labels]
  · rwa [← hlaysA.names_labels, ← hlaysB.names_labels, LabelTable.length_names,
      LabelTable.length_names]

/-- The first source ends in a jump, and the second begins with a comment and a label. Both targets
of the second are moved behind the two words of the first. -/
theorem assemble_append_behind_jump :
    ∃ a b imageA imageB, a = "a:\nLIT 1\nJMP a\n" ∧ b = "; b\nb: ; here\nCAL b\nJPC b" ∧
      assemble ⟨2, 1, .pruneAfterJump⟩ a = .ok imageA ∧
      assemble ⟨2, 1, .pruneAfterJump⟩ b = .ok imageB ∧
      imageB = ⟨#[⟨0x4000, 3⟩, ⟨0x7000, 4⟩], ⟨1, [⟨"b", 0⟩]⟩⟩ ∧
      assemble ⟨4, 2, .pruneAfterJump⟩ (a ++ b) = .ok ⟨#[⟨0x1001, 2⟩, ⟨0x6000, 3⟩, ⟨0x4002, 6⟩,
        ⟨0x7002, 7⟩], ⟨2, [⟨"a", 0⟩, ⟨"b", 2⟩]⟩⟩ := by
  have ha : assemble ⟨2, 1, .pruneAfterJump⟩ "a:\nLIT 1\nJMP a\n" =
      .ok ⟨#[⟨0x1001, 2⟩, ⟨0x6000, 3⟩], ⟨1, [⟨"a", 0⟩]⟩⟩ := by
    decide +kernel
  have hb : assemble ⟨2, 1, .pruneAfterJump⟩ "; b\nb: ; here\nCAL b\nJPC b" =
      .ok ⟨#[⟨0x4000, 3⟩, ⟨0x7000, 4⟩], ⟨1, [⟨"b", 0⟩]⟩⟩ := by
    decide +kernel
  have hfirst : LabelFirst (sourceLines "; b\nb: ; here\nCAL b\nJPC b") := by
    have hfind : (sourceLines "; b\nb: ; here\nCAL b\nJPC b").find? (!·.isIgnorable) =
        some ⟨2, "b: ; here"⟩ := by
      decide +kernel
    intro l hl
    obtain rfl := Option.some.inj (hfind.symm.trans hl)
    decide +kernel
  have hdisjoint : List.Disjoint ["a"] ["b"] := by simp
  refine ⟨_, _, _, _, rfl, rfl, ha, hb, rfl, ?_⟩
  rw [assemble_append ha hb (by decide +kernel) hdisjoint (Or.inr hfirst) (by decide) (by decide)
    (by decide) (by decide)]
  decide +kernel

end StackAssembler
