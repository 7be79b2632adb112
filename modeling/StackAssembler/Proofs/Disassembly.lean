import StackAssembler.Proofs.Lines
import StackAssembler.Proofs.Meaning
import StackAssembler.Proofs.Numerals
import StackAssembler.Proofs.Tokens

/-!
# Disassembly

A program as a source that it is assembled from. The source names every address by a label and
states the instruction of the word there. Assembling it gives the words back, whatever the policy,
since no instruction stands behind a jump without a label between them.
-/

namespace StackAssembler

open Text

/-! ### Disassembled programs -/

/-- The name of the label at an address. -/
def addressName (address : Nat) : String := s!"@{hex 3 address}"

/-- The line that defines the label at an address. -/
def addressLine (address : Nat) : String := s!"{addressName address}:"

/-- The lines for instructions from an address on: each behind a label, and a label behind all. -/
def disassemblyFrom (address : Nat) : List Instruction → List String
  | [] => [addressLine address]
  | i :: is => addressLine address :: i.render :: disassemblyFrom (address + 1) is

/-- The lines of a source for a program. -/
def disassembly (ws : List Word) : Except DecodeError (List String) :=
  (ws.mapM Instruction.ofWord).map (disassemblyFrom 0)

/-- The words are few enough for every address to fit in a field, they are instructions, and they
refer to no address beyond the one behind the last word. -/
structure IsProgram (ws : List Word) : Prop where
  length_le : ws.length ≤ 4095
  decodes : ∀ w ∈ ws, ∃ i, Instruction.ofWord w = .ok i
  target_le : ∀ w ∈ ws, ∀ op target, Instruction.ofWord w = .ok (.address op target) →
    target.toNat ≤ ws.length

/-- The words that bytes stand for, the low byte of each word first. -/
def Word.ofBytes : List UInt8 → List Word
  | low :: high :: rest => (high.toUInt16 * 256 + low.toUInt16) :: ofBytes rest
  | _ => []

/-! ### Words and bytes -/

/-- A word is read back from its bytes. -/
lemma Word.ofBytes_flatMap_bytes (ws : List Word) : ofBytes (ws.flatMap bytes) = ws := by
  induction ws with
  | nil => rfl
  | cons w ws ih =>
    have hword : (w / 256).toUInt8.toUInt16 * 256 + w.toUInt8.toUInt16 = w := by
      have hlt := w.toNat_lt
      apply UInt16.toNat_inj.mp
      simp only [UInt16.toNat_add, UInt16.toNat_mul, UInt8.toNat_toUInt16, UInt16.toNat_toUInt8,
        UInt16.toNat_div, UInt16.reduceToNat]
      omega
    rw [List.flatMap_cons, bytes, List.cons_append, List.cons_append, List.nil_append, ofBytes, ih,
      hword]

/-- An opcode and a field make the word that they were taken from. -/
lemma Word.pack_field {w : Word} {op : Opcode} (h : Opcode.ofCode? w.opcodeBits = some op) :
    Word.pack op w.field = w := by
  have hcode := Opcode.ofCode?_eq_some_iff.mp h
  have hbits : op.code.toNat = w.toNat / 4096 := by
    rw [hcode, opcodeBits, UInt16.toNat_div]
    rfl
  apply UInt16.toNat_inj.mp
  rw [toNat_pack, field, UInt16.toNat_mod, hbits]
  show w.toNat / 4096 * 4096 + w.toNat % 4096 % 4096 = w.toNat
  omega

lemma Word.toNat_field_lt (w : Word) : w.field.toNat < 4096 := by
  rw [field, UInt16.toNat_mod]
  exact Nat.mod_lt _ (by decide)

/-- Decoding inverts encoding. -/
lemma Instruction.toWord_of_ofWord {w : Word} {i : Instruction} (h : ofWord w = .ok i) :
    i.toWord = w ∧ i.WellFormed := by
  unfold ofWord at h
  split at h
  · cases h
  · next op hop =>
    have hpack := Word.pack_field hop
    split at h
    · next hshape =>
      cases h
      exact ⟨hpack, hshape, w.toNat_field_lt⟩
    · next hshape =>
      cases h
      exact ⟨hpack, hshape, w.toNat_field_lt⟩
    · next hshape =>
      split at h
      · cases h
      · next arithOp harith =>
        cases h
        have hopr : op = .opr := by cases op <;> simp_all [Opcode.shape]
        subst hopr
        rw [ArithOp.ofCode?_eq_some_iff] at harith
        rw [toWord, harith]
        exact ⟨hpack, trivial⟩
    · next hshape =>
      split_ifs at h with hfield
      cases h
      rw [hfield] at hpack
      exact ⟨hpack, hshape⟩

/-! ### The lines of a disassembly -/

lemma toList_addressName (address : Nat) :
    (addressName address).toList = '@' :: (hex 3 address).toList := by
  simp [addressName, toString]

lemma toList_addressLine (address : Nat) :
    (addressLine address).toList = (addressName address).toList ++ [':'] := by
  simp [addressLine, toString]

lemma addressName_injective : Function.Injective addressName := by
  intro m n h
  have htext := congrArg String.toList h
  rw [toList_addressName, toList_addressName, List.cons_inj_right, String.toList_inj] at htext
  exact hex_injective 3 htext

lemma isName_addressName (address : Nat) : IsName (addressName address).toList := by
  have hdigits : IsName ('@' :: hexDigits) := by decide
  rw [toList_addressName]
  refine ⟨List.cons_ne_nil _ _, fun c hc => hdigits.2 c ?_⟩
  rw [List.mem_cons] at hc ⊢
  exact hc.imp_right mem_hexDigits_of_mem_hex

lemma isOrdinary_of_isDigit {c : Char} (h : c.isDigit = true) : IsOrdinary c := by
  have hne : ∀ d : Char, d.isDigit = false → c ≠ d := by
    rintro d hd rfl
    rw [h] at hd
    cases hd
  refine ⟨?_, ?_, hne ':' rfl, hne '\n' rfl, hne '\r' rfl⟩
  · simp [isGap, hne ' ' rfl, hne '\t' rfl]
  · simp [opensComment, hne ';' rfl, hne '#' rfl]

lemma isName_decimal (n : Nat) : IsName (decimal n).toList := by
  rw [decimal, String.toList_ofList]
  refine ⟨Nat.toDigits_ne_nil, fun c hc => ?_⟩
  exact isOrdinary_of_isDigit (Nat.isDigit_of_mem_toDigits (by decide) (by decide) hc)

lemma ArithOp.isName_name (op : ArithOp) : IsName op.name.toList := by
  cases op <;> decide

/-- The line in front of the word at an address defines the label of this address. -/
lemma classify_addressLine (address : Nat) :
    Line.classify (addressLine address) = .ok (.label (addressName address)) :=
  Line.classify_name_colon (toList_addressLine address) (isName_addressName address)

namespace Instruction

/-- What the text of an instruction states. -/
def statement : Instruction → Statement
  | .immediate op value => ⟨op.name, some (decimal value.toNat), none⟩
  | .address op target => ⟨op.name, some (addressName target.toNat), none⟩
  | .arith op => ⟨op.name, none, none⟩
  | .bare op => ⟨op.name, none, none⟩

lemma toList_render_immediate (op : Opcode) (value : UInt16) :
    (render (.immediate op value)).toList =
      op.name.toList ++ ' ' :: (decimal value.toNat).toList := by
  simp [render, toString]

lemma toList_render_address (op : Opcode) (target : UInt16) :
    (render (.address op target)).toList =
      op.name.toList ++ ' ' :: (addressName target.toNat).toList := by
  simp [render, toString, toList_addressName]

lemma classify_render (i : Instruction) :
    Line.classify i.render = .ok (.instruction i.statement) := by
  cases i with
  | immediate op value =>
    exact Line.classify_pair (toList_render_immediate op value) op.isName_name
      (isName_decimal _).isCode
  | address op target =>
    exact Line.classify_pair (toList_render_address op target) op.isName_name
      (isName_addressName _).isCode
  | arith op => exact Line.classify_name op.isName_name
  | bare op => exact Line.classify_name op.isName_name

/-- What the text of an instruction states has the word of the instruction, where the label of an
address is bound to it. -/
lemma word_statement {labels : LabelTable} {i : Instruction} (h : i.WellFormed)
    (hlabels : ∀ op target, i = .address op target →
      labels.find? (addressName target.toNat) = some target.toNat) :
    i.statement.word labels = .ok i.toWord := by
  refine Statement.word_eq_ok_iff.mpr ⟨i, ?_, rfl⟩
  cases i with
  | immediate op value =>
    obtain ⟨hshape, hvalue⟩ := h
    refine .immediate (Opcode.shape_eq_immediate_iff.mp hshape) (literal?_decimal ?_) ?_
    · rw [literalLimit]
      omega
    · omega
  | address op target =>
    obtain ⟨hshape, htarget⟩ := h
    refine .address (Opcode.shape_eq_address_iff.mp hshape) (hlabels op target rfl) ?_
    omega
  | arith op => exact .arith op none
  | bare op => exact .bare none (Opcode.shape_eq_empty_iff.mp h)

end Instruction

lemma noLineEnd_addressLine (address : Nat) : NoLineEnd (addressLine address).toList := by
  rw [toList_addressLine]
  exact noLineEnd_append (isName_addressName address).noLineEnd (by simp [NoLineEnd])

lemma Instruction.noLineEnd_render (i : Instruction) : NoLineEnd i.render.toList := by
  have hspace : ∀ {cs : List Char}, IsName cs → NoLineEnd (' ' :: cs) := by
    intro cs h
    rw [← List.singleton_append]
    exact noLineEnd_append (by simp [NoLineEnd]) h.noLineEnd
  cases i with
  | immediate op value =>
    rw [toList_render_immediate]
    exact noLineEnd_append op.isName_name.noLineEnd (hspace (isName_decimal _))
  | address op target =>
    rw [toList_render_address]
    exact noLineEnd_append op.isName_name.noLineEnd (hspace (isName_addressName _))
  | arith op => exact op.isName_name.noLineEnd
  | bare op => exact op.isName_name.noLineEnd

/-- The lines of a disassembly are the lines of the text that they are joined to. -/
lemma linesOf_joinLines_disassemblyFrom (address : Nat) (is : List Instruction) :
    linesOf (joinLines (disassemblyFrom address is)) = disassemblyFrom address is := by
  refine linesOf_joinLines_eq_self (by cases is <;> simp [disassemblyFrom]) ?_
  induction is generalizing address with
  | nil => simpa [disassemblyFrom] using noLineEnd_addressLine address
  | cons i is ih =>
    intro text htext
    rw [disassemblyFrom, List.mem_cons, List.mem_cons] at htext
    rcases htext with rfl | rfl | htext
    · exact noLineEnd_addressLine address
    · exact i.noLineEnd_render
    · exact ih (address + 1) text htext

/-! ### Assembling a disassembly -/

/-- The labels of the addresses below a given one. -/
def addressLabels (address : Nat) : List Label :=
  (List.range address).map fun k => ⟨addressName k, k⟩

lemma addressLabels_succ (address : Nat) :
    addressLabels (address + 1) = addressLabels address ++ [⟨addressName address, address⟩] := by
  simp [addressLabels, List.range_succ]

/-- The label of an address is not among those of the addresses below. -/
lemma addressName_not_mem (address capacity : Nat) :
    addressName address ∉ (LabelTable.mk capacity (addressLabels address)).names := by
  intro hmem
  obtain ⟨label, hlabel, hname⟩ := List.mem_map.mp hmem
  obtain ⟨k, hk, rfl⟩ := List.mem_map.mp hlabel
  obtain rfl := addressName_injective hname
  exact Nat.lt_irrefl _ (List.mem_range.mp hk)

lemma find?_addressLabels {address target capacity : Nat} (h : target < address) :
    (LabelTable.mk capacity (addressLabels address)).find? (addressName target) = some target := by
  have hmem : addressName target ∈ (LabelTable.mk capacity (addressLabels address)).names :=
    List.mem_map.mpr ⟨⟨addressName target, target⟩, List.mem_map.mpr
      ⟨target, List.mem_range.mpr h, rfl⟩, rfl⟩
  obtain ⟨found, hfound⟩ := Option.isSome_iff_exists.mp (LabelTable.isSome_find?_iff.mpr hmem)
  obtain ⟨k, -, hk⟩ := List.mem_map.mp (LabelTable.mem_entries_of_find? hfound)
  obtain ⟨hname, rfl⟩ := Label.mk.inj hk
  rw [hfound, addressName_injective hname]

/-- The first pass over a disassembly binds the label of every address to it. -/
lemma Survey.scanAll_disassemblyFrom {is : List Instruction} {address capacity : Nat} (n : Nat)
    (reach : Reach) (hcapacity : address + is.length + 1 ≤ capacity) :
    ∃ t, scanAll ⟨address, ⟨capacity, addressLabels address⟩, reach⟩
        (numberFrom n (disassemblyFrom address is)) = .ok t ∧
      t.labels = ⟨capacity, addressLabels (address + is.length + 1)⟩ := by
  -- every label has a new name and finds room
  have hlabel : ∀ {k m : Nat} {r : Reach}, k + 1 ≤ capacity →
      scan ⟨k, ⟨capacity, addressLabels k⟩, r⟩ ⟨m, addressLine k⟩ =
        .ok ⟨k, ⟨capacity, addressLabels (k + 1)⟩, r.pastLabel⟩ := by
    intro k m r hk
    refine scan_eq_ok_iff.mpr (Or.inl ⟨addressName k, _,
      SourceLine.label?_eq_some_iff.mpr (classify_addressLine k),
      LabelTable.define_eq_ok_iff.mpr ⟨addressName_not_mem k capacity, ?_, rfl⟩, ?_⟩)
    · simpa [LabelTable.size, addressLabels] using Nat.lt_of_succ_le hk
    · simp [addressLabels_succ]
  induction is generalizing address n reach with
  | nil =>
    refine ⟨⟨address, ⟨capacity, addressLabels (address + 1)⟩, reach.pastLabel⟩, ?_, rfl⟩
    rw [disassemblyFrom, numberFrom, numberFrom, scanAll_cons,
      hlabel (show address + 1 ≤ capacity from hcapacity)]
    rfl
  | cons i is ih =>
    rw [List.length_cons] at hcapacity
    have hinstruction : ∀ {m : Nat} {r : Reach}, r.admits = true →
        scan ⟨address, ⟨capacity, addressLabels (address + 1)⟩, r⟩ ⟨m, i.render⟩ =
          .ok ⟨address + 1, ⟨capacity, addressLabels (address + 1)⟩,
            r.pastInstruction i.statement.mnemonic⟩ := by
      intro m r hr
      exact scan_eq_ok_iff.mpr (Or.inr (Or.inl
        ⟨i.statement, SourceLine.statement?_eq_some_iff.mpr i.classify_render, hr, rfl⟩))
    obtain ⟨t, ht, hlabels⟩ := ih (n + 1 + 1)
      (reach.pastLabel.pastInstruction i.statement.mnemonic)
      (show address + 1 + is.length + 1 ≤ capacity by omega)
    refine ⟨t, ?_, ?_⟩
    · rw [disassemblyFrom, numberFrom, numberFrom, scanAll_cons, hlabel (by omega)]
      show scanAll _ _ = _
      rw [scanAll_cons, hinstruction reach.admits_pastLabel]
      exact ht
    · rw [hlabels, List.length_cons]
      congr 2
      omega

/-- The second pass over a disassembly appends the words of the instructions. -/
lemma Emission.scanAll_disassemblyFrom {is : List Instruction} {labels : LabelTable}
    {maxWords : Nat} {e : Emission} (address n : Nat)
    (hwords : ∀ i ∈ is, i.statement.word labels = .ok i.toWord)
    (hroom : e.cells.size + is.length ≤ maxWords) :
    ∃ t, scanAll maxWords labels e (numberFrom n (disassemblyFrom address is)) = .ok t ∧
      t.cells.toList.map Cell.word = e.cells.toList.map Cell.word ++ is.map Instruction.toWord := by
  have hlabel : ∀ {k m : Nat} {e : Emission}, e.scan maxWords labels ⟨m, addressLine k⟩ =
      .ok { e with reach := e.reach.pastLabel } := by
    intro k m e
    exact scan_eq_ok_iff.mpr (Or.inl
      ⟨addressName k, SourceLine.label?_eq_some_iff.mpr (classify_addressLine k), rfl⟩)
  induction is generalizing address n e with
  | nil =>
    refine ⟨{ e with reach := e.reach.pastLabel }, ?_, (List.append_nil _).symm⟩
    rw [disassemblyFrom, numberFrom, numberFrom, scanAll_cons, hlabel]
    rfl
  | cons i is ih =>
    rw [List.length_cons] at hroom
    have hinstruction : scan maxWords labels { e with reach := e.reach.pastLabel }
        ⟨n + 1, i.render⟩ = .ok ⟨e.cells.push ⟨i.toWord, n + 1⟩,
          e.reach.pastLabel.pastInstruction i.statement.mnemonic⟩ :=
      scan_eq_ok_iff.mpr (Or.inr (Or.inl ⟨i.statement, i.toWord,
        SourceLine.statement?_eq_some_iff.mpr i.classify_render, e.reach.admits_pastLabel,
        hwords i (by simp), show e.cells.size < maxWords by omega, rfl⟩))
    obtain ⟨t, ht, hcells⟩ := ih (address + 1) (n + 1 + 1)
      (e := ⟨e.cells.push ⟨i.toWord, n + 1⟩,
        e.reach.pastLabel.pastInstruction i.statement.mnemonic⟩)
      (fun j hj => hwords j (by simp [hj])) (by rw [Array.size_push]; omega)
    refine ⟨t, ?_, ?_⟩
    · rw [disassemblyFrom, numberFrom, numberFrom, scanAll_cons, hlabel]
      show scanAll _ _ _ _ = _
      rw [scanAll_cons, hinstruction]
      exact ht
    · rw [hcells, Array.toList_push, List.map_append, List.append_assoc]
      rfl

/-- A program is assembled from its disassembly. -/
lemma exists_assemble_disassemblyFrom {config : Config} {source : String} {is : List Instruction}
    (hlines : linesOf source = disassemblyFrom 0 is) (hwellFormed : ∀ i ∈ is, i.WellFormed)
    (htargets : ∀ op target, Instruction.address op target ∈ is → target.toNat ≤ is.length)
    (hmaxWords : max is.length 1 ≤ config.maxWords)
    (hcapacity : is.length + 1 ≤ config.labelCapacity) :
    ∃ image, assemble config source = .ok image ∧ image.words = is.map Instruction.toWord := by
  have hsource : source ≠ "" := by
    rw [Ne, ← linesOf_eq_nil_iff, hlines]
    cases is <;> simp [disassemblyFrom]
  have hcheck : config.check source = .ok () :=
    check_eq_ok_iff.mpr ⟨by omega, by omega, hsource⟩
  obtain ⟨survey, hsurvey, hlabels⟩ := Survey.scanAll_disassemblyFrom 1
    (Reach.start config.policy) (show 0 + is.length + 1 ≤ config.labelCapacity by omega)
  have hwords : ∀ i ∈ is, i.statement.word survey.labels = .ok i.toWord := by
    intro i hi
    refine i.word_statement (hwellFormed i hi) ?_
    rintro op target rfl
    rw [hlabels]
    refine find?_addressLabels ?_
    have hle := htargets op target hi
    omega
  have hroom : (Emission.start config).cells.size + is.length ≤ config.maxWords := by
    rw [Emission.start]
    simp only [List.size_toArray, List.length_nil]
    omega
  obtain ⟨emission, hemission, hcells⟩ :=
    Emission.scanAll_disassemblyFrom 0 1 hwords hroom
  refine ⟨⟨emission.cells, survey.labels⟩, assemble_eq_ok_iff.mpr
    ⟨hcheck, survey, emission, ?_, ?_, rfl⟩, ?_⟩
  · rw [sourceLines, hlines]
    exact hsurvey
  · rw [sourceLines, hlines]
    exact hemission
  · rw [Image.words, hcells]
    simp [Emission.start]

/-! ### Round trip -/

/-- The words of an assembled program of at most 4095 words are a program. -/
lemma isProgram_of_assemble {config : Config} {source : String} {image : Image}
    (hmax : config.maxWords ≤ 4095) (h : assemble config source = .ok image) :
    IsProgram image.words := by
  have hlays := lays_of_assemble h
  have hsize : image.size = image.words.length := by rw [hlays.size_eq, hlays.length_words]
  have hmeans : ∀ w ∈ image.words, ∃ s i, Instruction.ofWord w = .ok i ∧
      Statement.Means image.labels s i := by
    intro w hw
    obtain ⟨i, hi, rfl⟩ := List.getElem_of_mem hw
    have hp := List.getElem?_eq_getElem (hlays.length_words ▸ hi)
    obtain ⟨word, hword, hcell⟩ := hlays.exists_cell hp
    obtain rfl := Option.some.inj
      ((List.getElem?_eq_getElem hi).symm.trans (Image.getElem?_words hcell))
    obtain ⟨instruction, hdecode, -, hinstruction⟩ := Statement.exists_means_of_word hword
    exact ⟨_, instruction, hdecode, hinstruction⟩
  refine ⟨?_, fun w hw => ?_, fun w hw op target htarget => ?_⟩
  · have hle := hlays.size_le
    omega
  · obtain ⟨s, i, hdecode, -⟩ := hmeans w hw
    exact ⟨i, hdecode⟩
  · obtain ⟨s, i, hdecode, hi⟩ := hmeans w hw
    obtain rfl := Except.ok.inj (htarget.symm.trans hdecode)
    cases hi with
    | address hop haddress hmod =>
      have hle := hlays.address_le haddress
      omega

/-- Words that are instructions can be disassembled. -/
lemma exists_mapM_ofWord {ws : List Word} (h : ∀ w ∈ ws, ∃ i, Instruction.ofWord w = .ok i) :
    ∃ is, ws.mapM Instruction.ofWord = .ok is ∧ is.map Instruction.toWord = ws ∧
      ∀ i ∈ is, i.WellFormed := by
  induction ws with
  | nil => exact ⟨[], rfl, rfl, by simp⟩
  | cons w ws ih =>
    obtain ⟨i, hi⟩ := h w (by simp)
    obtain ⟨hword, hwellFormed⟩ := Instruction.toWord_of_ofWord hi
    obtain ⟨is, his, hwords, hall⟩ := ih fun v hv => h v (by simp [hv])
    refine ⟨i :: is, ?_, ?_, List.forall_mem_cons.mpr ⟨hwellFormed, hall⟩⟩
    · rw [List.mapM_cons, hi, his]
      rfl
    · rw [List.map_cons, hword, hwords]

/-- Disassembly round trip. A program of at most 4095 words, all of them instructions that refer to
no address beyond its end, has a disassembly, and from every source with the lines of the
disassembly the words are assembled again, under either policy and with any limits that leave room
for the words and the labels; the bytes of the image stand for the words too. The words of every
assembly that was allowed at most 4095 words are such a program. -/
theorem disassembly_round_trip :
    (∀ ws, IsProgram ws → ∃ texts, disassembly ws = .ok texts ∧
      linesOf (joinLines texts) = texts ∧
      ∀ config source, linesOf source = texts → max ws.length 1 ≤ config.maxWords →
        ws.length + 1 ≤ config.labelCapacity →
        ∃ image, assemble config source = .ok image ∧ image.words = ws ∧
          Word.ofBytes image.bytes = ws) ∧
    ∀ config source image, config.maxWords ≤ 4095 → assemble config source = .ok image →
      IsProgram image.words := by
  refine ⟨fun ws h => ?_, fun config source image => isProgram_of_assemble⟩
  obtain ⟨is, his, rfl, hwellFormed⟩ := exists_mapM_ofWord h.decodes
  refine ⟨disassemblyFrom 0 is, by rw [disassembly, his]; rfl,
    linesOf_joinLines_disassemblyFrom 0 is, fun config source hlines hmaxWords hcapacity => ?_⟩
  rw [List.length_map] at hmaxWords hcapacity
  have htargets : ∀ op target, Instruction.address op target ∈ is →
      target.toNat ≤ is.length := by
    intro op target hmem
    have hle := h.target_le _ (List.mem_map_of_mem hmem) op target
      (Instruction.ofWord_toWord (hwellFormed _ hmem))
    rwa [List.length_map] at hle
  obtain ⟨image, himage, hwords⟩ :=
    exists_assemble_disassemblyFrom hlines hwellFormed htargets hmaxWords hcapacity
  refine ⟨image, himage, hwords, ?_⟩
  rw [Image.bytes, Word.ofBytes_flatMap_bytes, hwords]

/-- A jump to the place behind the last word, a literal and an addition come back, under pruning
with no more room than they need. -/
theorem disassembly_round_trip_jump_to_end :
    disassembly [0x6003, 0x1FFF, 0x2001] =
      .ok ["@000:", "JMP @003", "@001:", "LIT 4095", "@002:", "ADD", "@003:"] ∧
    ∃ image, assemble ⟨3, 4, .pruneAfterJump⟩
        (joinLines ["@000:", "JMP @003", "@001:", "LIT 4095", "@002:", "ADD", "@003:"]) =
          .ok image ∧
      image.words = [0x6003, 0x1FFF, 0x2001] ∧
      Word.ofBytes image.bytes = [0x6003, 0x1FFF, 0x2001] ∧ IsProgram image.words := by
  have hjump : Instruction.ofWord 0x6003 = .ok (.address .jmp 3) := by decide +kernel
  have hliteral : Instruction.ofWord 0x1FFF = .ok (.immediate .lit 4095) := by decide +kernel
  have haddition : Instruction.ofWord 0x2001 = .ok (.arith .add) := by decide +kernel
  have hprogram : IsProgram [0x6003, 0x1FFF, 0x2001] := by
    refine ⟨by decide, ?_, ?_⟩
    · simp [hjump, hliteral, haddition]
    · simp [hjump, hliteral, haddition]
  have hdisassembly : disassembly [0x6003, 0x1FFF, 0x2001] =
      .ok ["@000:", "JMP @003", "@001:", "LIT 4095", "@002:", "ADD", "@003:"] := by
    decide +kernel
  obtain ⟨texts, htexts, hlines, hassemble⟩ := disassembly_round_trip.1 _ hprogram
  obtain rfl := Except.ok.inj (hdisassembly.symm.trans htexts)
  obtain ⟨image, himage, hwords, hbytes⟩ :=
    hassemble ⟨3, 4, .pruneAfterJump⟩ _ hlines (by decide) (by decide)
  refine ⟨hdisassembly, image, himage, hwords, hbytes, ?_⟩
  exact disassembly_round_trip.2 _ _ image (by decide) himage

end StackAssembler
