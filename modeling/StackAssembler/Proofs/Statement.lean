import StackAssembler.Assembly.Emission
import StackAssembler.Machine.Instruction
import StackAssembler.Proofs.LabelTable

/-!
# Instructions as they are written

Which instruction a statement means, and what is wrong with a statement that means none. Both are
said in terms of mnemonics and operands; `word_eq_ok_iff` and `word_eq_error_iff` tie them to the
words that are computed. A word decodes to the instruction that its statement means.
-/

namespace StackAssembler

open Text

/-! ### Decoding -/

namespace Instruction

/-- The opcode has operands of the right kind, and the operand fits in its field. -/
def WellFormed : Instruction → Prop
  | .immediate op value => op.shape = .immediate ∧ value.toNat < 4096
  | .arith _ => True
  | .address op target => op.shape = .address ∧ target.toNat < 4096
  | .bare op => op.shape = .empty

lemma mod_eq_self_of_toNat_lt {v : UInt16} (h : v.toNat < 4096) : v % 4096 = v := by
  apply UInt16.toNat_inj.mp
  rw [UInt16.toNat_mod]
  exact Nat.mod_eq_of_lt h

/-- A word decodes to the instruction that it was made from. -/
theorem ofWord_toWord {i : Instruction} (h : i.WellFormed) : ofWord i.toWord = .ok i := by
  cases i with
  | immediate op value =>
    obtain ⟨hshape, hvalue⟩ := h
    simp [ofWord, toWord, hshape, mod_eq_self_of_toNat_lt hvalue]
  | arith op =>
    have hcode : op.code % 4096 = op.code := by
      apply mod_eq_self_of_toNat_lt
      have := op.code_lt
      omega
    simp [ofWord, toWord, Opcode.shape, hcode]
  | address op target =>
    obtain ⟨hshape, htarget⟩ := h
    simp [ofWord, toWord, hshape, mod_eq_self_of_toNat_lt htarget]
  | bare op =>
    have hshape : op.shape = .empty := h
    simp [ofWord, toWord, hshape]

/-- The written name of an instruction. -/
def name : Instruction → String
  | .arith op => op.name
  | .immediate op _ | .address op _ | .bare op => op.name

/-- `JMP` is the name of no other opcode and of no arithmetic operation. -/
lemma opcode_eq_jmp_of_name {i : Instruction} (h : i.name = "JMP") : i.opcode = .jmp := by
  have hplain : ∀ op : Opcode, op.name = "JMP" → op = .jmp := by
    intro op
    cases op <;> decide
  cases i with
  | immediate op _ | address op _ | bare op => exact hplain op h
  | arith op => cases op <;> exact absurd h (by decide)

end Instruction

namespace Word

lemma toNat_literalField (v : Int) : ((literalField v).toNat : Int) = v % 4096 := by
  rw [literalField, UInt16.toNat_ofNat']
  omega

lemma eq_literalField {value : UInt16} {v : Int} (h : (value.toNat : Int) = v % 4096) :
    value = literalField v := by
  have hfield := toNat_literalField v
  apply UInt16.toNat_inj.mp
  omega

lemma toNat_addressField (n : Nat) : (addressField n).toNat = n % 4096 := by
  rw [addressField, UInt16.toNat_ofNat']
  omega

lemma eq_addressField {target : UInt16} {n : Nat} (h : target.toNat = n % 4096) :
    target = addressField n := by
  apply UInt16.toNat_inj.mp
  rw [h, toNat_addressField]

end Word

/-! ### The first word of a text -/

/-- A text that is not empty and has no gap. -/
def IsToken (token : List Char) : Prop := token ≠ [] ∧ ∀ c ∈ token, isGap c = false

lemma isToken_of_all {token : List Char} (hne : token ≠ [])
    (h : token.all (fun c => !isGap c) = true) : IsToken token := by
  refine ⟨hne, fun c hc => ?_⟩
  simpa using List.all_eq_true.mp h c hc

lemma IsToken.head?_pieces {token : List Char} (h : IsToken token) :
    (pieces token).head? = some token := by
  rw [pieces, List.splitOnP_eq_singleton h.2]
  simp [h.1]

lemma IsToken.head?_pieces_append {token : List Char} (h : IsToken token) (rest : List Char) :
    (pieces (token ++ ' ' :: rest)).head? = some token := by
  rw [pieces, List.splitOnP_append_cons_of_forall_mem h.2 ' ' rfl]
  simp [h.1]

lemma Opcode.isToken_name (op : Opcode) : IsToken op.name.toList := by
  cases op <;> exact isToken_of_all (by decide) (by decide)

lemma ArithOp.isToken_name (op : ArithOp) : IsToken op.name.toList := by
  cases op <;> exact isToken_of_all (by decide) (by decide)

/-- The text of an instruction begins with its name. -/
theorem Instruction.head?_pieces_render (i : Instruction) :
    (pieces i.render.toList).head? = some i.name.toList := by
  cases i with
  | immediate op value =>
    have htext : (Instruction.immediate op value).render.toList =
        op.name.toList ++ ' ' :: (decimal value.toNat).toList := by
      simp [render, toString]
    rw [htext]
    exact op.isToken_name.head?_pieces_append _
  | address op target =>
    have htext : (Instruction.address op target).render.toList =
        op.name.toList ++ ' ' :: '@' :: (hex 3 target.toNat).toList := by
      simp [render, toString]
    rw [htext]
    exact op.isToken_name.head?_pieces_append _
  | arith op => exact op.isToken_name.head?_pieces
  | bare op => exact op.isToken_name.head?_pieces

/-! ### Mnemonics -/

lemma Operation.named?_name_of_ne_opr {op : Opcode} (h : op ≠ .opr) :
    Operation.named? op.name = some (.plain op) := by
  cases op with
  | opr => exact absurd rfl h
  | _ => rfl

lemma Operation.named?_name_arith (op : ArithOp) :
    Operation.named? op.name = some (.arith op) := by
  cases op <;> rfl

lemma Operation.plain_ne_opr {s : String} {op : Opcode}
    (h : Operation.named? s = some (.plain op)) : op ≠ .opr := by
  rintro rfl
  exact absurd (Operation.mem_all_of_named? h) (by decide)

lemma Opcode.shape_eq_immediate_iff {op : Opcode} :
    op.shape = .immediate ↔ op ∈ [.lit, .lod, .sto] := by
  cases op <;> decide

lemma Opcode.shape_eq_address_iff {op : Opcode} :
    op.shape = .address ↔ op ∈ [.jmp, .jpc, .cal] := by
  cases op <;> decide

lemma Opcode.shape_eq_empty_iff {op : Opcode} : op.shape = .empty ↔ op ∈ [.ret, .inp, .out] := by
  cases op <;> decide

/-- Does the operation have to be written with an operand? -/
def Operation.TakesOperand (op : Operation) : Prop := op.shape = .immediate ∨ op.shape = .address

lemma Operation.encode_of_takesOperand {op : Opcode} (field : UInt16)
    (h : op.shape = .immediate ∨ op.shape = .address) :
    (Operation.plain op).encode (some field) = Word.pack op field := by
  rcases h with h | h <;> simp [encode, h, opcode]

lemma Operation.encode_of_empty {op : Opcode} (field : Option UInt16) (h : op.shape = .empty) :
    (Operation.plain op).encode field = Word.pack op 0 := by
  simp [encode, opcode, subtype, h]

/-! ### Words and faults of a statement -/

namespace Statement

/-- The instruction that a statement means: literals count modulo 4096, and a label stands for its
address modulo 4096. -/
inductive Means (labels : LabelTable) : Statement → Instruction → Prop where
  | immediate {op : Opcode} {argument : String} {literal : Int} {value : UInt16}
      (hop : op ∈ [.lit, .lod, .sto]) (hliteral : literal? argument.toList = some literal)
      (hvalue : (value.toNat : Int) = literal % 4096) :
      Means labels ⟨op.name, some argument, none⟩ (.immediate op value)
  | address {op : Opcode} {argument : String} {address : Nat} {target : UInt16}
      (hop : op ∈ [.jmp, .jpc, .cal]) (haddress : labels.find? argument = some address)
      (htarget : target.toNat = address % 4096) :
      Means labels ⟨op.name, some argument, none⟩ (.address op target)
  | arith (op : ArithOp) (extra : Option String) : Means labels ⟨op.name, none, extra⟩ (.arith op)
  | bare {op : Opcode} (extra : Option String) (hop : op ∈ [.ret, .inp, .out]) :
      Means labels ⟨op.name, none, extra⟩ (.bare op)

/-- What is wrong with a statement where the given names are defined: first its mnemonic, then the
number of its operands, then the operand itself. -/
inductive Fault (names : List String) (s : Statement) : LineFault → Prop where
  | unknown (hop : Operation.named? s.mnemonic = none) : Fault names s (.unknownMnemonic s.mnemonic)
  | extra {op : Operation} {token : String} (hop : Operation.named? s.mnemonic = some op)
      (htakes : op.TakesOperand) (hextra : s.extra = some token) :
      Fault names s (.unexpectedOperand s.mnemonic token)
  | missing {op : Operation} (hop : Operation.named? s.mnemonic = some op)
      (htakes : op.TakesOperand) (hextra : s.extra = none) (hargument : s.argument = none) :
      Fault names s (.missingOperand s.mnemonic)
  | literal {op : Operation} {argument : String} (hop : Operation.named? s.mnemonic = some op)
      (hshape : op.shape = .immediate) (hextra : s.extra = none)
      (hargument : s.argument = some argument) (hliteral : literal? argument.toList = none) :
      Fault names s (.invalidLiteral s.mnemonic argument)
  | label {op : Operation} {argument : String} (hop : Operation.named? s.mnemonic = some op)
      (hshape : op.shape = .address) (hextra : s.extra = none)
      (hargument : s.argument = some argument) (hname : argument ∉ names) :
      Fault names s (.undefinedLabel argument)
  | stray {op : Operation} {argument : String} (hop : Operation.named? s.mnemonic = some op)
      (htakes : ¬ op.TakesOperand) (hargument : s.argument = some argument) :
      Fault names s (.unexpectedOperand s.mnemonic argument)

variable {labels : LabelTable}

lemma Means.wellFormed {s : Statement} {i : Instruction} (h : s.Means labels i) :
    i.WellFormed := by
  cases h with
  | immediate hop hliteral hvalue => exact ⟨Opcode.shape_eq_immediate_iff.mpr hop, by omega⟩
  | address hop haddress htarget => exact ⟨Opcode.shape_eq_address_iff.mpr hop, by omega⟩
  | arith op extra => trivial
  | bare extra hop => exact Opcode.shape_eq_empty_iff.mpr hop

lemma Means.name_eq {s : Statement} {i : Instruction} (h : s.Means labels i) :
    i.name = s.mnemonic := by
  cases h <;> rfl

/-- Only jumps depend on the addresses of labels. -/
lemma Means.of_shape_ne {s : Statement} {i : Instruction} (h : s.Means labels i)
    (hi : i.opcode.shape ≠ .address) (labels' : LabelTable) : s.Means labels' i := by
  cases h with
  | immediate hop hliteral hvalue => exact .immediate hop hliteral hvalue
  | address hop _ _ => exact absurd (Opcode.shape_eq_address_iff.mpr hop) hi
  | arith op extra => exact .arith op extra
  | bare extra hop => exact .bare extra hop

lemma Means.exists_label {s : Statement} {i : Instruction} (h : s.Means labels i)
    (hi : i.opcode.shape = .address) :
    ∃ op name address, op ∈ [.jmp, .jpc, .cal] ∧ s = ⟨op.name, some name, none⟩ ∧
      labels.find? name = some address ∧ i = .address op (Word.addressField address) := by
  cases h with
  | immediate hop _ _ => cases (Opcode.shape_eq_immediate_iff.mpr hop).symm.trans hi
  | @address op name address target hop haddress htarget =>
    exact ⟨op, name, address, hop, rfl, haddress, by rw [Word.eq_addressField htarget]⟩
  | arith op extra => cases hi
  | bare extra hop => cases (Opcode.shape_eq_empty_iff.mpr hop).symm.trans hi

lemma operand_eq_ok_iff {s : Statement} {op : Operation} {field : Option UInt16} :
    s.operand labels op = .ok field ↔
      (op.shape = .immediate ∧ ∃ argument literal, s.argument = some argument ∧ s.extra = none ∧
        literal? argument.toList = some literal ∧ field = some (Word.literalField literal)) ∨
      (op.shape = .address ∧ ∃ argument address, s.argument = some argument ∧ s.extra = none ∧
        labels.find? argument = some address ∧ field = some (Word.addressField address)) ∨
      (¬ op.TakesOperand ∧ s.argument = none ∧ field = none) := by
  obtain ⟨mnemonic, argument, extra⟩ := s
  unfold operand Operation.TakesOperand
  cases op.shape <;> cases extra <;> cases argument <;> simp [eq_comm (a := field)]
  case immediate.none.some argument => cases literal? argument.toList <;> simp
  case address.none.some argument => cases h : labels.find? argument <;> simp [LabelTable.resolve, h]

section Operand

variable {s : Statement} {op : Operation}

lemma operand_of_extra {token : String} (htakes : op.TakesOperand) (hextra : s.extra = some token) :
    s.operand labels op = .error (.unexpectedOperand s.mnemonic token) := by
  rcases htakes with h | h <;> simp [operand, h, hextra]

lemma operand_of_missing (htakes : op.TakesOperand) (hextra : s.extra = none)
    (hargument : s.argument = none) :
    s.operand labels op = .error (.missingOperand s.mnemonic) := by
  rcases htakes with h | h <;> simp [operand, h, hextra, hargument]

lemma operand_of_stray {argument : String} (htakes : ¬ op.TakesOperand)
    (hargument : s.argument = some argument) :
    s.operand labels op = .error (.unexpectedOperand s.mnemonic argument) := by
  unfold Operation.TakesOperand at htakes
  cases h : op.shape <;> simp_all [operand]

/-- The faults of a known mnemonic are those of its operand. -/
lemma operand_eq_error_iff {f : LineFault} (hop : Operation.named? s.mnemonic = some op) :
    s.operand labels op = .error f ↔ s.Fault labels.names f := by
  constructor
  · intro h
    by_cases htakes : op.TakesOperand
    · cases hextra : s.extra with
      | some token =>
        rw [operand_of_extra htakes hextra] at h
        cases h
        exact .extra hop htakes hextra
      | none =>
        cases hargument : s.argument with
        | none =>
          rw [operand_of_missing htakes hextra hargument] at h
          cases h
          exact .missing hop htakes hextra hargument
        | some argument =>
          rcases htakes with hshape | hshape
          · cases hliteral : literal? argument.toList with
            | some literal => simp [operand, hshape, hextra, hargument, hliteral] at h
            | none =>
              simp only [operand, hshape, hextra, hargument, hliteral, Except.error.injEq] at h
              exact h ▸ .literal hop hshape hextra hargument hliteral
          · cases hresolve : labels.resolve argument with
            | ok address => simp [operand, hshape, hextra, hargument, hresolve] at h
            | error g =>
              simp only [operand, hshape, hextra, hargument, hresolve, Except.error.injEq] at h
              obtain ⟨hname, rfl⟩ := LabelTable.resolve_eq_error_iff.mp hresolve
              exact h ▸ .label hop hshape hextra hargument hname
    · cases hargument : s.argument with
      | none =>
        have hok : s.operand labels op = .ok none :=
          operand_eq_ok_iff.mpr (Or.inr (Or.inr ⟨htakes, hargument, rfl⟩))
        rw [hok] at h
        cases h
      | some argument =>
        rw [operand_of_stray htakes hargument] at h
        cases h
        exact .stray hop htakes hargument
  · intro h
    cases h with
    | unknown hnone => cases hop.symm.trans hnone
    | extra hop' htakes hextra =>
      obtain rfl := Option.some.inj (hop.symm.trans hop')
      exact operand_of_extra htakes hextra
    | missing hop' htakes hextra hargument =>
      obtain rfl := Option.some.inj (hop.symm.trans hop')
      exact operand_of_missing htakes hextra hargument
    | literal hop' hshape hextra hargument hliteral =>
      obtain rfl := Option.some.inj (hop.symm.trans hop')
      simp [operand, hshape, hextra, hargument, hliteral]
    | label hop' hshape hextra hargument hname =>
      obtain rfl := Option.some.inj (hop.symm.trans hop')
      have hresolve := LabelTable.resolve_eq_error_iff.mpr ⟨hname, rfl⟩
      simp [operand, hshape, hextra, hargument, hresolve]
    | stray hop' htakes hargument =>
      obtain rfl := Option.some.inj (hop.symm.trans hop')
      exact operand_of_stray htakes hargument

end Operand

lemma word_eq_ok_iff_encode {s : Statement} {w : Word} :
    s.word labels = .ok w ↔ ∃ op field, Operation.named? s.mnemonic = some op ∧
      s.operand labels op = .ok field ∧ op.encode field = w := by
  cases hop : Operation.named? s.mnemonic with
  | none => simp [word, hop]
  | some op => cases hfield : s.operand labels op <;> simp [word, hop, hfield]

/-- No word is computed exactly for the statements with a fault. -/
theorem word_eq_error_iff {s : Statement} {f : LineFault} :
    s.word labels = .error f ↔ s.Fault labels.names f := by
  cases hop : Operation.named? s.mnemonic with
  | none =>
    simp only [word, hop, Except.error.injEq]
    constructor
    · rintro rfl
      exact .unknown hop
    · intro h
      cases h with
      | unknown _ => rfl
      | extra hop' | missing hop' | literal hop' | label hop' | stray hop' =>
        cases hop.symm.trans hop'
  | some op =>
    rw [← operand_eq_error_iff hop]
    cases h : s.operand labels op <;> simp [word, hop, h]

/-- A word is computed exactly for the statements that mean an instruction, and is its word. -/
theorem word_eq_ok_iff {s : Statement} {w : Word} :
    s.word labels = .ok w ↔ ∃ i, s.Means labels i ∧ i.toWord = w := by
  constructor
  · intro h
    obtain ⟨op, field, hop, hfield, rfl⟩ := word_eq_ok_iff_encode.mp h
    obtain ⟨mnemonic, argument, extra⟩ := s
    obtain rfl := Operation.mnemonic_of_named? hop
    rcases operand_eq_ok_iff.mp hfield with
      ⟨hshape, a, v, rfl, rfl, hv, rfl⟩ | ⟨hshape, a, n, rfl, rfl, hn, rfl⟩ | ⟨htakes, rfl, rfl⟩
    · cases op with
      | arith op => cases hshape
      | plain op =>
        rw [Operation.shape_plain] at hshape
        refine ⟨.immediate op (Word.literalField v), ?_, ?_⟩
        · exact .immediate (Opcode.shape_eq_immediate_iff.mp hshape) hv (Word.toNat_literalField v)
        · exact (Operation.encode_of_takesOperand _ (.inl hshape)).symm
    · cases op with
      | arith op => cases hshape
      | plain op =>
        rw [Operation.shape_plain] at hshape
        refine ⟨.address op (Word.addressField n), ?_, ?_⟩
        · exact .address (Opcode.shape_eq_address_iff.mp hshape) hn (Word.toNat_addressField n)
        · exact (Operation.encode_of_takesOperand _ (.inr hshape)).symm
    · cases op with
      | arith op => exact ⟨.arith op, .arith op extra, rfl⟩
      | plain op =>
        have hshape : op.shape = .empty := by
          have hopr := Operation.plain_ne_opr hop
          rw [Operation.TakesOperand, Operation.shape_plain] at htakes
          cases op <;> simp_all [Opcode.shape]
        refine ⟨.bare op, .bare extra (Opcode.shape_eq_empty_iff.mp hshape), ?_⟩
        exact (Operation.encode_of_empty none hshape).symm
  · rintro ⟨i, hi, rfl⟩
    refine word_eq_ok_iff_encode.mpr ?_
    cases hi with
    | @immediate op a v value hop hv hvalue =>
      have hshape := Opcode.shape_eq_immediate_iff.mpr hop
      have hopr : op ≠ .opr := by rintro rfl; cases hshape
      refine ⟨.plain op, some value, Operation.named?_name_of_ne_opr hopr, ?_, ?_⟩
      · exact operand_eq_ok_iff.mpr
          (Or.inl ⟨(Operation.shape_plain op).trans hshape, a, v, rfl, rfl, hv,
            by rw [Word.eq_literalField hvalue]⟩)
      · exact Operation.encode_of_takesOperand value (.inl hshape)
    | @address op a n target hop hn htarget =>
      have hshape := Opcode.shape_eq_address_iff.mpr hop
      have hopr : op ≠ .opr := by rintro rfl; cases hshape
      refine ⟨.plain op, some target, Operation.named?_name_of_ne_opr hopr, ?_, ?_⟩
      · exact operand_eq_ok_iff.mpr
          (Or.inr (Or.inl ⟨(Operation.shape_plain op).trans hshape, a, n, rfl, rfl, hn,
            by rw [Word.eq_addressField htarget]⟩))
      · exact Operation.encode_of_takesOperand target (.inr hshape)
    | arith op extra =>
      have htakes : ¬ (Operation.arith op).TakesOperand := by rintro (h | h) <;> cases h
      refine ⟨.arith op, none, Operation.named?_name_arith op, ?_, rfl⟩
      exact operand_eq_ok_iff.mpr (Or.inr (Or.inr ⟨htakes, rfl, rfl⟩))
    | @bare op extra hop =>
      have hshape := Opcode.shape_eq_empty_iff.mpr hop
      have hopr : op ≠ .opr := by rintro rfl; cases hshape
      refine ⟨.plain op, none, Operation.named?_name_of_ne_opr hopr, ?_, ?_⟩
      · refine operand_eq_ok_iff.mpr (Or.inr (Or.inr ⟨?_, rfl, rfl⟩))
        simp [Operation.TakesOperand, hshape]
      · exact Operation.encode_of_empty none hshape

end Statement

end StackAssembler
