import Mathlib.Data.Finset.Card
import Mathlib.Data.Finset.Dedup
import Mathlib.Data.Finset.Insert
import Mathlib.Data.Finset.Range
import Mathlib.Data.Finset.SDiff
import Mathlib.Logic.Relation
import StackAssembler.Proofs.Meaning
import StackAssembler.Proofs.Precedence

/-!
# Pruning

What becomes of a program when the instructions between an unconditional jump and the next label
are left out. The addresses that are left out are `dropped`; every other address moves down by the
number of dropped addresses below it, which is `relocate`. No label stands for a dropped address,
and the word before a dropped address is a jump or dropped itself, so control never gets there.
-/

namespace StackAssembler

/-! ### Relocation -/

/-- The address that remains of an address when the given ones are taken out: the number of
addresses below it that stay. -/
def relocate (dropped : Finset Nat) (address : Nat) : Nat := (Finset.range address \ dropped).card

section Relocate

variable {dropped dropped' : Finset Nat} {n : Nat}

lemma relocate_congr (h : ∀ i < n, i ∈ dropped ↔ i ∈ dropped') :
    relocate dropped n = relocate dropped' n := by
  rw [relocate, relocate]
  congr 1
  ext i
  rw [Finset.mem_sdiff, Finset.mem_sdiff, Finset.mem_range]
  exact and_congr_right fun hi => not_congr (h i hi)

lemma relocate_succ_of_mem (h : n ∈ dropped) : relocate dropped (n + 1) = relocate dropped n := by
  rw [relocate, Finset.range_add_one, Finset.insert_sdiff_of_mem _ h, relocate]

lemma relocate_succ_of_not_mem (h : n ∉ dropped) :
    relocate dropped (n + 1) = relocate dropped n + 1 := by
  rw [relocate, Finset.range_add_one, Finset.insert_sdiff_of_notMem _ h,
    Finset.card_insert_of_notMem, relocate]
  simp

lemma relocate_le (dropped : Finset Nat) (n : Nat) : relocate dropped n ≤ n := by
  calc (Finset.range n \ dropped).card
      ≤ (Finset.range n).card := Finset.card_le_card Finset.sdiff_subset
    _ = n := Finset.card_range n

/-- Behind all dropped addresses, an address moves down by their number. -/
lemma relocate_of_lt (h : ∀ i ∈ dropped, i < n) : relocate dropped n = n - dropped.card := by
  have hsub : dropped ⊆ Finset.range n := fun i hi => Finset.mem_range.mpr (h i hi)
  rw [relocate, Finset.card_sdiff_of_subset hsub, Finset.card_range]

end Relocate

/-- A table with every address replaced. -/
def LabelTable.mapAddresses (f : Nat → Nat) (t : LabelTable) : LabelTable :=
  { t with entries := t.entries.map fun label => ⟨label.name, f label.address⟩ }

lemma LabelTable.find?_mapAddresses (f : Nat → Nat) (t : LabelTable) (name : String) :
    (t.mapAddresses f).find? name = (t.find? name).map f := by
  rw [find?, find?, mapAddresses, List.find?_map, Option.map_map, Option.map_map]
  rfl

/-! ### The addresses that are left out -/

/-- The addresses of the instructions that pruning leaves out, in the program that has them all. -/
def dropped (ls : List SourceLine) : Finset Nat :=
  (collect (fun before l =>
    if behindJump before && l.statement?.isSome then [(admitted .keep before).length] else [])
    ls).toFinset

section Dropped

variable {ls : List SourceLine} {l : SourceLine} {s : Statement}

@[simp] lemma dropped_nil : dropped [] = ∅ := rfl

lemma dropped_concat_of_no_statement (ls : List SourceLine) (h : l.statement? = none) :
    dropped (ls ++ [l]) = dropped ls := by
  simp [dropped, collect_concat, h]

lemma dropped_concat_of_reached (l : SourceLine) (h : behindJump ls = false) :
    dropped (ls ++ [l]) = dropped ls := by
  simp [dropped, collect_concat, h]

lemma dropped_concat_of_behindJump (hs : l.statement? = some s) (h : behindJump ls = true) :
    dropped (ls ++ [l]) = insert (admitted .keep ls).length (dropped ls) := by
  ext i
  simp [dropped, collect_concat, h, hs]

lemma mem_dropped_iff {i : Nat} :
    i ∈ dropped ls ↔ ∃ before l after, ls = before ++ l :: after ∧ behindJump before = true ∧
      l.statement?.isSome = true ∧ (admitted .keep before).length = i := by
  rw [dropped, List.mem_toFinset, mem_collect_iff]
  refine exists_congr fun before => exists_congr fun l => exists_congr fun after =>
    and_congr_right fun _ => ?_
  cases behindJump before <;> cases l.statement? <;> simp [eq_comm (a := i)]

lemma length_admitted_keep_concat (hs : l.statement? = some s) :
    (admitted .keep (ls ++ [l])).length = (admitted .keep ls).length + 1 := by
  rw [admitted_concat_of_admits hs (admitsAfter_keep ls), List.length_append, List.length_singleton]

lemma lt_of_mem_dropped {i : Nat} (h : i ∈ dropped ls) : i < (admitted .keep ls).length := by
  obtain ⟨before, l, after, rfl, -, hs, rfl⟩ := mem_dropped_iff.mp h
  obtain ⟨s, hs⟩ := Option.isSome_iff_exists.mp hs
  rw [admitted_append, List.length_append]
  simp [SourceLine.placement?, hs]

/-- Which addresses of the first lines are dropped does not depend on the lines behind them. -/
lemma mem_dropped_append_iff {before after : List SourceLine} {i : Nat}
    (hi : i < (admitted .keep before).length) :
    i ∈ dropped (before ++ after) ↔ i ∈ dropped before := by
  induction after using List.reverseRecOn with
  | nil => rw [List.append_nil]
  | append_singleton after l ih =>
    rw [← List.append_assoc]
    cases hs : l.statement? with
    | none => rw [dropped_concat_of_no_statement _ hs, ih]
    | some s =>
      cases hb : behindJump (before ++ after) with
      | false => rw [dropped_concat_of_reached l hb, ih]
      | true =>
        have hle := length_admitted_le .keep before after
        have hne : i ≠ (admitted .keep (before ++ after)).length := by omega
        rw [dropped_concat_of_behindJump hs hb, Finset.mem_insert, ih]
        simp [hne]

/-- The place behind all lines moves to the place behind the instructions that stay. -/
lemma relocate_dropped_length (ls : List SourceLine) :
    relocate (dropped ls) (admitted .keep ls).length = (admitted .pruneAfterJump ls).length := by
  induction ls using List.reverseRecOn with
  | nil => rfl
  | append_singleton ls l ih =>
    cases hs : l.statement? with
    | none =>
      rw [dropped_concat_of_no_statement ls hs, admitted_concat_of_no_statement _ ls hs,
        admitted_concat_of_no_statement _ ls hs, ih]
    | some s =>
      have hlast : (admitted .keep ls).length ∉ dropped ls := fun h =>
        Nat.lt_irrefl _ (lt_of_mem_dropped h)
      rw [length_admitted_keep_concat hs]
      cases hb : behindJump ls with
      | false =>
        have hadmits : ReachPolicy.pruneAfterJump.admitsAfter ls = true := by simp [hb]
        rw [dropped_concat_of_reached l hb, relocate_succ_of_not_mem hlast, ih,
          admitted_concat_of_admits hs hadmits, List.length_append, List.length_singleton]
      | true =>
        have hadmits : ReachPolicy.pruneAfterJump.admitsAfter ls = false := by simp [hb]
        rw [dropped_concat_of_behindJump hs hb, relocate_succ_of_mem (Finset.mem_insert_self _ _),
          admitted_concat_of_not_admits l hadmits, ← ih]
        refine relocate_congr fun i hi => ?_
        rw [Finset.mem_insert]
        simp [Nat.ne_of_lt hi]

/-- The same holds of the place behind the first lines of a source. -/
lemma relocate_dropped_append (before after : List SourceLine) :
    relocate (dropped (before ++ after)) (admitted .keep before).length =
      (admitted .pruneAfterJump before).length := by
  rw [← relocate_dropped_length before]
  exact relocate_congr fun i hi => mem_dropped_append_iff hi

lemma length_admitted_prune_le (ls : List SourceLine) :
    (admitted .pruneAfterJump ls).length ≤ (admitted .keep ls).length := by
  rw [← relocate_dropped_length]
  exact relocate_le _ _

/-- An instruction that stays is found at the address that remains of its own. -/
lemma getElem?_admitted_relocate {i : Nat} {p : Placement}
    (hp : (admitted .keep ls)[i]? = some p) (hi : i ∉ dropped ls) :
    (admitted .pruneAfterJump ls)[relocate (dropped ls) i]? = some p := by
  obtain ⟨before, l, after, rfl, -, hs, hline, rfl⟩ := getElem?_admitted_iff.mp hp
  have hreached : behindJump before = false := by
    cases hb : behindJump before with
    | false => rfl
    | true => exact absurd (mem_dropped_iff.mpr ⟨before, l, after, rfl, hb, by simp [hs], rfl⟩) hi
  refine getElem?_admitted_iff.mpr ⟨before, l, after, rfl, ?_, hs, hline, ?_⟩
  · simp [hreached]
  · rw [relocate_dropped_append]

/-- A label stands for the address that remains of its own. -/
lemma bindings_prune (ls : List SourceLine) :
    bindings .pruneAfterJump ls =
      (bindings .keep ls).map fun label => ⟨label.name, relocate (dropped ls) label.address⟩ := by
  rw [bindings, bindings, map_collect]
  refine collect_congr fun before l after hls => ?_
  subst hls
  cases l.label? with
  | none => rfl
  | some name => simp [relocate_dropped_append]

/-! ### Dropped addresses are out of reach -/

/-- Behind a jump there is an instruction right before, which is a jump or dropped itself. -/
lemma exists_jump_or_dropped_of_behindJump (h : behindJump ls = true) :
    ∃ i p, (admitted .keep ls).length = i + 1 ∧ (admitted .keep ls)[i]? = some p ∧
      (p.statement.mnemonic = "JMP" ∨ i ∈ dropped ls) := by
  induction ls using List.reverseRecOn with
  | nil => cases h
  | append_singleton ls l ih =>
    cases hs : l.statement? with
    | none =>
      rw [admitted_concat_of_no_statement _ ls hs, dropped_concat_of_no_statement ls hs]
      exact ih (behindJump_of_concat hs h)
    | some s =>
      -- either the line is the first jump itself, or it is left out
      rw [behindJump_concat, Bool.and_eq_true, Bool.or_eq_true] at h
      refine ⟨_, ⟨l.number, s⟩, length_admitted_keep_concat hs, ?_, ?_⟩
      · rw [admitted_concat_of_admits hs (admitsAfter_keep ls), List.getElem?_concat_length]
      · rcases h.2 with hb | hjump
        · right
          rw [dropped_concat_of_behindJump hs hb]
          exact Finset.mem_insert_self _ _
        · left
          simpa [SourceLine.isJump, hs] using hjump

/-- Behind a jump, every label stands before the last instruction. -/
lemma address_lt_of_behindJump (h : behindJump ls = true) {label : Label}
    (hlabel : label ∈ bindings .keep ls) : label.address < (admitted .keep ls).length := by
  induction ls using List.reverseRecOn with
  | nil => cases h
  | append_singleton ls l ih =>
    have hl : l.label? = none := by
      rw [behindJump_concat, Bool.and_eq_true, Option.isNone_iff_eq_none] at h
      exact h.1
    rw [bindings_concat_of_no_label _ ls hl] at hlabel
    cases hs : l.statement? with
    | none =>
      rw [admitted_concat_of_no_statement _ ls hs]
      exact ih (behindJump_of_concat hs h) hlabel
    | some s =>
      rw [length_admitted_keep_concat hs]
      exact Nat.lt_succ_of_le (address_le_of_mem_bindings hlabel)

lemma address_not_mem_dropped {label : Label} (hlabel : label ∈ bindings .keep ls) :
    label.address ∉ dropped ls := by
  induction ls using List.reverseRecOn with
  | nil => cases hlabel
  | append_singleton ls l ih =>
    cases hs : l.statement? with
    | none =>
      rw [dropped_concat_of_no_statement ls hs]
      cases hl : l.label? with
      | none =>
        rw [bindings_concat_of_no_label _ ls hl] at hlabel
        exact ih hlabel
      | some name =>
        rw [bindings_concat_of_label? _ ls hl, List.mem_append, List.mem_singleton] at hlabel
        rcases hlabel with hlabel | rfl
        · exact ih hlabel
        · exact fun h => Nat.lt_irrefl _ (lt_of_mem_dropped h)
    | some s =>
      rw [bindings_concat_of_no_label _ ls (l.label?_eq_none_of_statement? hs)] at hlabel
      cases hb : behindJump ls with
      | false =>
        rw [dropped_concat_of_reached l hb]
        exact ih hlabel
      | true =>
        rw [dropped_concat_of_behindJump hs hb, Finset.mem_insert, not_or]
        exact ⟨Nat.ne_of_lt (address_lt_of_behindJump hb hlabel), ih hlabel⟩

/-- Before a dropped address there is an instruction, which is a jump or dropped itself. -/
lemma exists_jump_or_dropped {i : Nat} (h : i ∈ dropped ls) :
    ∃ k p, i = k + 1 ∧ (admitted .keep ls)[k]? = some p ∧
      (p.statement.mnemonic = "JMP" ∨ k ∈ dropped ls) := by
  obtain ⟨before, l, after, rfl, hb, -, rfl⟩ := mem_dropped_iff.mp h
  obtain ⟨k, p, hk, hp, hjump⟩ := exists_jump_or_dropped_of_behindJump hb
  have hlt : k < (admitted .keep before).length := by omega
  refine ⟨k, p, hk, ?_, ?_⟩
  · rw [admitted_append, List.getElem?_append_left hlt, hp]
  · rwa [mem_dropped_append_iff hlt]

end Dropped

/-! ### Control flow -/

/-- The opcode in the top four bits of a word. -/
def Word.opcode? (w : Word) : Option Opcode := Opcode.ofCode? w.opcodeBits

/-- The addresses where control can be after the word at an address. -/
def Word.successors (w : Word) (address : Nat) : List Nat :=
  match w.opcode? with
  | some .jmp => [w.field.toNat]
  | some .jpc | some .cal => [w.field.toNat, address + 1]
  | some .ret => []
  | _ => [address + 1]

namespace Image

/-- Control can pass from one address to another. -/
def Flows (image : Image) (i j : Nat) : Prop :=
  ∃ w, image.words[i]? = some w ∧ j ∈ w.successors i

/-- Control can get from address zero to an address. -/
def Reachable (image : Image) (i : Nat) : Prop := Relation.ReflTransGen image.Flows 0 i

end Image

@[simp] lemma Word.opcode?_toWord (i : Instruction) : Word.opcode? i.toWord = some i.opcode := by
  cases i <;> simp [Word.opcode?, Instruction.toWord, Instruction.opcode]

/-- Control passes to the next word, unless the word is a jump, or to the field of a word whose
operand is an address. -/
lemma Word.mem_successors {w : Word} {i j : Nat} (h : j ∈ w.successors i) :
    (j = i + 1 ∧ w.opcode? ≠ some .jmp) ∨
      ∃ op, w.opcode? = some op ∧ op.shape = .address ∧ j = w.field.toNat := by
  unfold successors at h
  split at h
  case h_1 hop =>
    rw [List.mem_singleton] at h
    exact Or.inr ⟨.jmp, hop, rfl, h⟩
  case h_2 hop =>
    simp only [List.mem_cons, List.not_mem_nil, or_false] at h
    rcases h with h | h
    · exact Or.inr ⟨.jpc, hop, rfl, h⟩
    · exact Or.inl ⟨h, by simp [hop]⟩
  case h_3 hop =>
    simp only [List.mem_cons, List.not_mem_nil, or_false] at h
    rcases h with h | h
    · exact Or.inr ⟨.cal, hop, rfl, h⟩
    · exact Or.inl ⟨h, by simp [hop]⟩
  case h_4 => cases h
  case h_5 hjmp _ _ _ =>
    rw [List.mem_singleton] at h
    exact Or.inl ⟨h, hjmp⟩

/-! ### Words in both programs -/

/-- The words of one statement under two label tables, where the addresses of the second are those
of the first moved by `m`: a jump has the address of its label moved, any other word is the same. -/
inductive Statement.Relocates (labels : LabelTable) (m : Nat → Nat) :
    Statement → Word → Word → Prop where
  | same {s : Statement} {w : Word} (h : ∀ op, w.opcode? = some op → op.shape ≠ .address) :
      Relocates labels m s w w
  | jump {op : Opcode} {name : String} {address : Nat} (hop : op ∈ [.jmp, .jpc, .cal])
      (haddress : labels.find? name = some address) :
      Relocates labels m ⟨op.name, some name, none⟩
        (Word.pack op (Word.addressField address)) (Word.pack op (Word.addressField (m address)))

/-- A program with all instructions and the one without those at the dropped addresses. -/
structure Image.Prunes (ls : List SourceLine) (kept pruned : Image) (dropped : Finset Nat) :
    Prop where
  lt_size : ∀ i ∈ dropped, i < kept.size
  size_eq : pruned.size = kept.size - dropped.card
  labels_eq : pruned.labels = kept.labels.mapAddresses (relocate dropped)
  origin_eq : ∀ i < kept.size, i ∉ dropped →
    pruned.origin? (relocate dropped i) = kept.origin? i
  word : ∀ i < kept.size, i ∉ dropped → ∃ l ∈ ls, ∃ s w w',
    kept.origin? i = some l.number ∧ Line.classify l.text = .ok (.instruction s) ∧
    kept.words[i]? = some w ∧ pruned.words[relocate dropped i]? = some w' ∧
    s.Relocates kept.labels (relocate dropped) w w'

lemma Statement.relocates_of_word {labels : LabelTable} {m : Nat → Nat} {s : Statement}
    {w w' : Word} (h : s.word labels = .ok w) (h' : s.word (labels.mapAddresses m) = .ok w') :
    s.Relocates labels m w w' := by
  obtain ⟨i, hi, rfl⟩ := word_eq_ok_iff.mp h
  by_cases hshape : i.opcode.shape = .address
  · obtain ⟨op, name, address, hop, rfl, haddress, rfl⟩ := hi.exists_label hshape
    have hfind : (labels.mapAddresses m).find? name = some (m address) := by
      rw [LabelTable.find?_mapAddresses, haddress, Option.map_some]
    have hword := word_eq_ok_iff.mpr
      ⟨_, .address hop hfind (Word.toNat_addressField (m address)), rfl⟩
    obtain rfl := Except.ok.inj (hword.symm.trans h')
    exact .jump hop haddress
  · have hword := word_eq_ok_iff.mpr ⟨i, hi.of_shape_ne hshape (labels.mapAddresses m), rfl⟩
    obtain rfl := Except.ok.inj (hword.symm.trans h')
    refine .same fun op hop => ?_
    rw [Word.opcode?_toWord] at hop
    obtain rfl := Option.some.inj hop
    exact hshape

/-! ### Pruning a program -/

section Prune

variable {maxWords capacity : Nat} {source : String} {kept : Image}

/-- A program that can be assembled with all its instructions can be assembled without some. -/
lemma exists_pruned (h : assemble ⟨maxWords, capacity, .keep⟩ source = .ok kept) :
    ∃ pruned, assemble ⟨maxWords, capacity, .pruneAfterJump⟩ source = .ok pruned := by
  have hcheck := (assemble_eq_ok_iff.mp h).1
  have hcheck' : Config.check ⟨maxWords, capacity, .pruneAfterJump⟩ source = .ok () :=
    check_eq_ok_iff.mpr (check_eq_ok_iff.mp hcheck)
  obtain ⟨hlabels, hcode⟩ := (assemble_eq_ok_iff_no_fault hcheck).mp ⟨kept, h⟩
  refine (assemble_eq_ok_iff_no_fault hcheck').mpr ⟨hlabels, ?_⟩
  -- a fault of an instruction that stays is one of the instruction among all others
  rintro n f ⟨before, l, after, hls, hn, hf⟩
  refine hcode n f ⟨before, l, after, hls, hn, ?_⟩
  cases hf with
  | statement hs _ hf => exact .statement hs rfl hf
  | full hs _ hf hfull => exact .full hs rfl hf (Nat.le_trans hfull (length_admitted_prune_le before))

lemma prunes_of_assemble {pruned : Image}
    (h : assemble ⟨maxWords, capacity, .keep⟩ source = .ok kept)
    (h' : assemble ⟨maxWords, capacity, .pruneAfterJump⟩ source = .ok pruned) :
    kept.Prunes (sourceLines source) pruned (dropped (sourceLines source)) := by
  have hkept := lays_of_assemble h
  have hpruned := lays_of_assemble h'
  have hlabels : pruned.labels =
      kept.labels.mapAddresses (relocate (dropped (sourceLines source))) := by
    rw [hkept.labels, hpruned.labels, bindings_prune]
    rfl
  -- what stays at an address is the same instruction in both programs
  have hcells : ∀ i < kept.size, i ∉ dropped (sourceLines source) → ∃ p w w',
      p ∈ admitted .keep (sourceLines source) ∧ kept.cells[i]? = some ⟨w, p.line⟩ ∧
      pruned.cells[relocate (dropped (sourceLines source)) i]? = some ⟨w', p.line⟩ ∧
      p.statement.Relocates kept.labels (relocate (dropped (sourceLines source))) w w' := by
    intro i hi hstays
    rw [hkept.size_eq] at hi
    have hp := List.getElem?_eq_getElem hi
    obtain ⟨w, hw, hcell⟩ := hkept.exists_cell hp
    obtain ⟨w', hw', hcell'⟩ := hpruned.exists_cell (getElem?_admitted_relocate hp hstays)
    rw [hlabels] at hw'
    exact ⟨_, w, w', List.getElem_mem hi, hcell, hcell', Statement.relocates_of_word hw hw'⟩
  refine ⟨fun i hi => ?_, ?_, hlabels, fun i hi hstays => ?_, fun i hi hstays => ?_⟩
  · rw [hkept.size_eq]
    exact lt_of_mem_dropped hi
  · rw [hkept.size_eq, hpruned.size_eq, ← relocate_of_lt fun i hi => lt_of_mem_dropped hi]
    exact (relocate_dropped_length (sourceLines source)).symm
  · obtain ⟨p, w, w', -, hcell, hcell', -⟩ := hcells i hi hstays
    rw [Image.origin?_eq_some hcell, Image.origin?_eq_some hcell']
  · obtain ⟨p, w, w', hp, hcell, hcell', hw⟩ := hcells i hi hstays
    obtain ⟨l, hl, hline, hread⟩ := exists_line_of_mem_admitted hp
    refine ⟨l, hl, p.statement, w, w', ?_, hread, Image.getElem?_words hcell,
      Image.getElem?_words hcell', hw⟩
    rw [Image.origin?_eq_some hcell, hline]

/-- A set of addresses that control does not get to: neither the start nor a label is among them,
and no word before one of them lets control pass, unless it is among them. -/
def Image.Isolates (image : Image) (addresses : Finset Nat) : Prop :=
  ∀ i ∈ addresses, 0 < i ∧ (∀ label ∈ image.labels.entries, label.address ≠ i) ∧
    ((∃ w, image.words[i - 1]? = some w ∧ w.opcode? = some .jmp) ∨ i - 1 ∈ addresses)

lemma isolates_dropped (h : assemble ⟨maxWords, capacity, .keep⟩ source = .ok kept) :
    kept.Isolates (dropped (sourceLines source)) := by
  have hlays := lays_of_assemble h
  intro i hi
  obtain ⟨k, p, rfl, hp, hjump⟩ := exists_jump_or_dropped hi
  refine ⟨Nat.succ_pos k, ?_, ?_⟩
  · rw [hlays.labels]
    intro label hlabel haddress
    rw [← haddress] at hi
    exact address_not_mem_dropped hlabel hi
  · rw [Nat.add_sub_cancel]
    rcases hjump with hjump | hdropped
    · obtain ⟨w, hw, hcell⟩ := hlays.exists_cell hp
      obtain ⟨instruction, hmeans, rfl⟩ := Statement.word_eq_ok_iff.mp hw
      refine Or.inl ⟨_, Image.getElem?_words hcell, ?_⟩
      rw [Word.opcode?_toWord, Instruction.opcode_eq_jmp_of_name (hmeans.name_eq.trans hjump)]
    · exact Or.inr hdropped

/-- In a program of at most 4095 words, jumps go to labels. -/
lemma exists_label_of_jump {config : Config} {ls : List SourceLine} {image : Image}
    (h : image.Lays config ls) (hsize : image.size ≤ 4095) {i : Nat} {w : Word} {op : Opcode}
    (hw : image.words[i]? = some w) (hop : w.opcode? = some op) (hshape : op.shape = .address) :
    ∃ label ∈ image.labels.entries, w.field.toNat = label.address := by
  obtain ⟨hi, -⟩ := List.getElem?_eq_some_iff.mp hw
  rw [h.length_words] at hi
  obtain ⟨w', hw', hcell⟩ := h.exists_cell (List.getElem?_eq_getElem hi)
  obtain rfl := Option.some.inj (hw.symm.trans (Image.getElem?_words hcell))
  obtain ⟨instruction, hmeans, rfl⟩ := Statement.word_eq_ok_iff.mp hw'
  rw [Word.opcode?_toWord] at hop
  obtain rfl := Option.some.inj hop
  obtain ⟨op, name, address, -, -, hfind, rfl⟩ := hmeans.exists_label hshape
  refine ⟨⟨name, address⟩, LabelTable.mem_entries_of_find? hfind, ?_⟩
  have hle := h.address_le hfind
  rw [Instruction.toWord, Word.field_pack, UInt16.toNat_mod, Word.toNat_addressField]
  show address % 4096 % 4096 = address
  omega

/-- Control gets to no isolated address where jumps go to labels. -/
theorem Image.Isolates.not_reachable {image : Image} {addresses : Finset Nat}
    (h : image.Isolates addresses)
    (hjumps : ∀ (i : Nat) (w : Word) (op : Opcode), image.words[i]? = some w →
      w.opcode? = some op → op.shape = .address →
      ∃ label ∈ image.labels.entries, w.field.toNat = label.address)
    {i : Nat} (hi : image.Reachable i) : i ∉ addresses := by
  induction hi with
  | refl =>
    intro hzero
    exact Nat.lt_irrefl 0 (h 0 hzero).1
  | @tail j k _ hflow ih =>
    obtain ⟨w, hw, hk⟩ := hflow
    intro hmem
    obtain ⟨-, hlabels, hprev⟩ := h k hmem
    rcases Word.mem_successors hk with ⟨rfl, hnext⟩ | ⟨op, hop, hshape, rfl⟩
    · rw [Nat.add_sub_cancel] at hprev
      rcases hprev with ⟨w', hw', hjump⟩ | hj
      · obtain rfl := Option.some.inj (hw.symm.trans hw')
        exact hnext hjump
      · exact ih hj
    · obtain ⟨label, hlabel, haddress⟩ := hjumps j w op hw hop hshape
      exact hlabels label hlabel haddress.symm

/-- Pruning removes code that control does not get to and moves the rest. Where a source can be
assembled with all its instructions it can be assembled under pruning with the same limits. There
are addresses that are dropped: the words at the others stay in order, with their lines, and labels
and the fields of jumps follow the words. No dropped address is the first one or that of a label,
and the word before it is a jump or dropped; so in a program of at most 4095 words control gets to
none of them. -/
theorem pruning_drops_dead_code
    (h : assemble ⟨maxWords, capacity, .keep⟩ source = .ok kept) :
    ∃ pruned dropped, assemble ⟨maxWords, capacity, .pruneAfterJump⟩ source = .ok pruned ∧
      kept.Prunes (sourceLines source) pruned dropped ∧
      kept.Isolates dropped ∧
      (kept.size ≤ 4095 → ∀ i ∈ dropped, ¬ kept.Reachable i) := by
  obtain ⟨pruned, hpruned⟩ := exists_pruned h
  have hisolates := isolates_dropped h
  refine ⟨pruned, _, hpruned, prunes_of_assemble h hpruned, hisolates, ?_⟩
  intro hsize i hi hreachable
  refine hisolates.not_reachable (fun j w op hw hop hshape => ?_) hreachable hi
  exact exists_label_of_jump (lays_of_assemble h) hsize hw hop hshape

end Prune

/-- The two words behind the first jump are dropped, and the label behind them moves from 3 to 1. -/
theorem pruning_drops_dead_code_two_words :
    ∃ kept pruned dropped,
      kept = ⟨#[⟨0x6003, 1⟩, ⟨0x1002, 2⟩, ⟨0x6003, 3⟩, ⟨0x7003, 5⟩, ⟨0x5000, 6⟩],
        ⟨4, [⟨"end", 3⟩]⟩⟩ ∧
      pruned = ⟨#[⟨0x6001, 1⟩, ⟨0x7001, 5⟩, ⟨0x5000, 6⟩], ⟨4, [⟨"end", 1⟩]⟩⟩ ∧
      assemble ⟨5, 4, .keep⟩ "JMP end\nLIT 2\nJMP end\nend:\nJPC end\nRET\n" = .ok kept ∧
      kept.Prunes (sourceLines "JMP end\nLIT 2\nJMP end\nend:\nJPC end\nRET\n") pruned dropped ∧
      dropped.card = 2 ∧ ∀ i ∈ dropped, ¬ kept.Reachable i := by
  have h : assemble ⟨5, 4, .keep⟩ "JMP end\nLIT 2\nJMP end\nend:\nJPC end\nRET\n" =
      .ok ⟨#[⟨0x6003, 1⟩, ⟨0x1002, 2⟩, ⟨0x6003, 3⟩, ⟨0x7003, 5⟩, ⟨0x5000, 6⟩],
        ⟨4, [⟨"end", 3⟩]⟩⟩ := by
    decide +kernel
  have h' : assemble ⟨5, 4, .pruneAfterJump⟩
      "JMP end\nLIT 2\nJMP end\nend:\nJPC end\nRET\n" =
      .ok ⟨#[⟨0x6001, 1⟩, ⟨0x7001, 5⟩, ⟨0x5000, 6⟩], ⟨4, [⟨"end", 1⟩]⟩⟩ := by
    decide +kernel
  obtain ⟨pruned, dropped, hpruned, hprunes, -, hdead⟩ := pruning_drops_dead_code h
  obtain rfl := Except.ok.inj (h'.symm.trans hpruned)
  refine ⟨_, _, dropped, rfl, rfl, h, hprunes, ?_, hdead (by decide)⟩
  have hsize : 3 = 5 - dropped.card := hprunes.size_eq
  omega

end StackAssembler
