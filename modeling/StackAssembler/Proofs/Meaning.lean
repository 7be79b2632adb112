import StackAssembler.Proofs.Passes
import StackAssembler.Proofs.Statement

/-!
# The meaning of a program

Every word of an assembled program is the word of an instruction that its source line means, and
decoding the word gives this instruction back.
-/

namespace StackAssembler

open Text

/-- The word of a statement decodes to the instruction that the statement means. -/
lemma Statement.exists_means_of_word {labels : LabelTable} {s : Statement} {w : Word}
    (h : s.word labels = .ok w) :
    ∃ i, Instruction.ofWord w = .ok i ∧ i.toWord = w ∧ s.Means labels i := by
  obtain ⟨i, hi, rfl⟩ := Statement.word_eq_ok_iff.mp h
  exact ⟨i, Instruction.ofWord_toWord hi.wellFormed, rfl, hi⟩

/-- The field of a jump is the address of its label where this is small enough. -/
lemma Statement.Means.target_eq {labels : LabelTable} {s : Statement} {op : Opcode}
    {target : UInt16} {argument : String} {address : Nat}
    (h : s.Means labels (.address op target)) (hargument : s.argument = some argument)
    (haddress : labels.find? argument = some address) (hlt : address < 4096) :
    target.toNat = address := by
  cases h with
  | address hop hfound htarget =>
    obtain rfl := Option.some.inj hargument
    obtain rfl := Option.some.inj (hfound.symm.trans haddress)
    rw [htarget, Nat.mod_eq_of_lt hlt]

/-- The addresses of labels do not exceed the number of words. -/
lemma Image.Lays.address_le {config : Config} {ls : List SourceLine} {image : Image}
    (h : image.Lays config ls) {name : String} {address : Nat}
    (haddress : image.labels.find? name = some address) : address ≤ image.size := by
  have hmem := LabelTable.mem_entries_of_find? haddress
  rw [h.labels] at hmem
  rw [h.size_eq]
  exact address_le_of_mem_bindings hmem

/-- Every word of a program means its source line. The words come from the admitted instruction
lines in order; each decodes to an instruction that has the mnemonic of its line and carries the
operand of its line, and encodes to the word again. The address of a label is kept exactly where it
is below 4096, so always where the program may have at most 4095 words. -/
theorem words_mean_lines {config : Config} {source : String} {image : Image}
    (h : assemble config source = .ok image) :
    image.cells.toList.map Cell.line =
      (admitted config.policy (sourceLines source)).map Placement.line ∧
    (image.cells.toList.map Cell.line).Pairwise (· < ·) ∧
    ∀ i < image.words.length, ∃ p word instruction,
      (admitted config.policy (sourceLines source))[i]? = some p ∧
      (∃ l ∈ sourceLines source, l.number = p.line ∧
        Line.classify l.text = .ok (.instruction p.statement)) ∧
      image.origin? i = some p.line ∧
      image.words[i]? = some word ∧
      Instruction.ofWord word = .ok instruction ∧
      instruction.toWord = word ∧
      (pieces instruction.render.toList).head? = some p.statement.mnemonic.toList ∧
      p.statement.Means image.labels instruction ∧
      ∀ op target argument address, instruction = .address op target →
        p.statement.argument = some argument → image.labels.find? argument = some address →
        address < 4096 ∨ config.maxWords ≤ 4095 → target.toNat = address := by
  have hlays := lays_of_assemble h
  refine ⟨hlays.map_line, ?_, fun i hi => ?_⟩
  · rw [hlays.map_line, List.pairwise_map]
    exact admitted_pairwise (ascending_sourceLines source)
  · rw [hlays.length_words] at hi
    have hp := List.getElem?_eq_getElem hi
    obtain ⟨word, hword, hcell⟩ := hlays.exists_cell hp
    obtain ⟨instruction, hdecode, hencode, hmeans⟩ := Statement.exists_means_of_word hword
    have hline := exists_line_of_mem_admitted (List.getElem_mem hi)
    refine ⟨_, word, instruction, hp, hline, Image.origin?_eq_some hcell,
      Image.getElem?_words hcell, hdecode, hencode, ?_, hmeans, ?_⟩
    · rw [instruction.head?_pieces_render, hmeans.name_eq]
    · rintro op target argument address rfl hargument haddress hsmall
      refine hmeans.target_eq hargument haddress ?_
      rcases hsmall with hlt | hmax
      · exact hlt
      · have hle := hlays.address_le haddress
        have hsize := hlays.size_le
        omega

/-- A literal below zero, a forward jump and a comparison; the jump has the address of its label. -/
theorem words_mean_lines_forward_jump :
    assemble ⟨8, 4, .keep⟩ "LIT -1\nJPC end\nLSS\nend: ; here\nRET\n" =
      .ok ⟨#[⟨0x1FFF, 1⟩, ⟨0x7003, 2⟩, ⟨0x2008, 3⟩, ⟨0x5000, 5⟩], ⟨4, [⟨"end", 3⟩]⟩⟩ ∧
    ∃ target, Instruction.ofWord 0x7003 = .ok (.address .jpc target) ∧ target.toNat = 3 ∧
      Statement.Means ⟨4, [⟨"end", 3⟩]⟩ ⟨"JPC", some "end", none⟩ (.address .jpc target) := by
  have h : assemble ⟨8, 4, .keep⟩ "LIT -1\nJPC end\nLSS\nend: ; here\nRET\n" =
      .ok ⟨#[⟨0x1FFF, 1⟩, ⟨0x7003, 2⟩, ⟨0x2008, 3⟩, ⟨0x5000, 5⟩], ⟨4, [⟨"end", 3⟩]⟩⟩ := by
    decide +kernel
  have hline : (admitted .keep (sourceLines "LIT -1\nJPC end\nLSS\nend: ; here\nRET\n"))[1]? =
      some ⟨2, ⟨"JPC", some "end", none⟩⟩ := by
    decide +kernel
  obtain ⟨p, word, instruction, hp, -, -, hword, hdecode, -, -, hmeans, htarget⟩ :=
    (words_mean_lines h).2.2 1 (by decide)
  obtain rfl := Option.some.inj (hline.symm.trans hp)
  obtain rfl : 0x7003 = word := Option.some.inj hword
  have hjump : Instruction.ofWord 0x7003 = .ok (.address .jpc 3) := by decide +kernel
  obtain rfl := Except.ok.inj (hjump.symm.trans hdecode)
  refine ⟨h, 3, hjump, ?_, hmeans⟩
  exact htarget .jpc 3 "end" 3 rfl rfl (by decide +kernel) (Or.inl (by decide))

end StackAssembler
