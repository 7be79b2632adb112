import Mathlib.Data.Int.ModEq
import Mathlib.Data.Nat.Digits.Defs
import StackAssembler.Proofs.Numerals
import StackAssembler.Proofs.Passes
import StackAssembler.Proofs.Tokens

/-!
# Literal operands

Which tokens are literals and what they become. A literal is a decimal numeral with an optional
sign whose number fits into 64 bits; its word holds the number modulo 4096. Everything else is
refused under its own text.
-/

namespace StackAssembler

open Text

/-! ### Numerals with a sign -/

namespace Text

/-- The number that decimal digits denote, by the powers of ten that they stand at. -/
def placeValue (ds : List Char) : Nat :=
  Nat.ofDigits 10 (ds.reverse.map fun d => d.toNat - '0'.toNat)

/-- One or more of the digits `0` to `9`. -/
def IsDigits (ds : List Char) : Prop := ds ≠ [] ∧ ∀ d ∈ ds, '0' ≤ d ∧ d ≤ '9'

/-- A numeral with an optional sign denotes a number. -/
inductive Denotes : List Char → Int → Prop where
  | unsigned {ds : List Char} (h : IsDigits ds) : Denotes ds (placeValue ds)
  | plus {ds : List Char} (h : IsDigits ds) : Denotes ('+' :: ds) (placeValue ds)
  | minus {ds : List Char} (h : IsDigits ds) : Denotes ('-' :: ds) (-(placeValue ds : Int))

/-- A numeral denotes a number of 64 bits in two's complement. -/
def DenotesLiteral (cs : List Char) (v : Int) : Prop :=
  Denotes cs v ∧ -2 ^ 63 ≤ v ∧ v ≤ 2 ^ 63 - 1

/-- Reading digits from the left gives the sum of their place values. -/
lemma digitsValue_eq_placeValue (ds : List Char) : digitsValue ds = placeValue ds := by
  induction ds using List.reverseRecOn with
  | nil => rfl
  | append_singleton ds d ih =>
    rw [digitsValue, List.foldl_append, ← digitsValue, ih, placeValue, placeValue,
      List.reverse_append, List.reverse_singleton, List.singleton_append, List.map_cons,
      Nat.ofDigits_cons, Nat.add_comm]
    rfl

lemma natural?_eq_some_iff {cs : List Char} {n : Nat} :
    natural? cs = some n ↔ IsDigits cs ∧ n = placeValue cs := by
  have hdigit : ∀ c : Char, c.isDigit = true ↔ '0' ≤ c ∧ c ≤ '9' := by
    intro c
    simp [Char.isDigit, Char.le_def]
  rw [natural?, digitsValue_eq_placeValue]
  split_ifs with h
  · have hdigits : IsDigits cs := by simpa [IsDigits, hdigit] using h
    simp [hdigits, eq_comm]
  · have hdigits : ¬ IsDigits cs := by simpa [IsDigits, hdigit] using h
    simp [hdigits]

lemma integer?_plus (ds : List Char) :
    integer? ('+' :: ds) = (natural? ds).map fun n : Nat => (n : Int) := by
  rw [integer?]
  cases natural? ds <;> rfl

lemma integer?_minus (ds : List Char) :
    integer? ('-' :: ds) = (natural? ds).map fun n : Nat => -(n : Int) := by
  rw [integer?]
  cases natural? ds <;> rfl

/-- Without a sign, what is read are digits. -/
lemma exists_natural?_of_integer? {cs : List Char} {v : Int} (h : integer? cs = some v)
    (hplus : cs.head? ≠ some '+') (hminus : cs.head? ≠ some '-') :
    ∃ n : Nat, natural? cs = some n ∧ v = n := by
  unfold integer? at h
  split at h
  · exact absurd rfl hminus
  · exact absurd rfl hplus
  · cases hn : natural? cs with
    | none => simp [hn] at h
    | some n => exact ⟨n, rfl, by simpa [hn, eq_comm] using h⟩

lemma integer?_eq_some_iff {cs : List Char} {v : Int} : integer? cs = some v ↔ Denotes cs v := by
  constructor
  · intro h
    by_cases hplus : cs.head? = some '+'
    · obtain ⟨ds, rfl⟩ := List.head?_eq_some_iff.mp hplus
      rw [integer?_plus, Option.map_eq_some_iff] at h
      obtain ⟨n, hn, rfl⟩ := h
      obtain ⟨hds, rfl⟩ := natural?_eq_some_iff.mp hn
      exact .plus hds
    by_cases hminus : cs.head? = some '-'
    · obtain ⟨ds, rfl⟩ := List.head?_eq_some_iff.mp hminus
      rw [integer?_minus, Option.map_eq_some_iff] at h
      obtain ⟨n, hn, rfl⟩ := h
      obtain ⟨hds, rfl⟩ := natural?_eq_some_iff.mp hn
      exact .minus hds
    obtain ⟨n, hn, rfl⟩ := exists_natural?_of_integer? h hplus hminus
    obtain ⟨hcs, rfl⟩ := natural?_eq_some_iff.mp hn
    exact .unsigned hcs
  · intro h
    cases h with
    | unsigned h => exact integer?_of_natural? (natural?_eq_some_iff.mpr ⟨h, rfl⟩)
    | plus h => rw [integer?_plus, natural?_eq_some_iff.mpr ⟨h, rfl⟩, Option.map_some]
    | minus h => rw [integer?_minus, natural?_eq_some_iff.mpr ⟨h, rfl⟩, Option.map_some]

/-- The literals that are read are the numerals that fit. -/
theorem literal?_eq_some_iff {cs : List Char} {v : Int} :
    literal? cs = some v ↔ DenotesLiteral cs v := by
  have hlimit : literalLimit = 2 ^ 63 := by decide
  rw [literal?, Option.filter_eq_some_iff, integer?_eq_some_iff, DenotesLiteral, hlimit]
  simp only [Bool.and_eq_true, decide_eq_true_eq, Int.le_sub_one_iff]

lemma literal?_eq_none_iff {cs : List Char} :
    literal? cs = none ↔ ∀ v, ¬ DenotesLiteral cs v := by
  simp only [Option.eq_none_iff_forall_ne_some, ne_eq, literal?_eq_some_iff]

/-- A line without line ends in it is the only line of a text, however it is ended. -/
lemma linesOf_append_ending {text ending : String} (hne : text ≠ "") (h : NoLineEnd text.toList)
    (hending : ending ∈ ["", "\n", "\r\n"]) : linesOf (text ++ ending) = [text] := by
  have hnewline : '\n' ∉ text.toList := fun hc => (h _ hc).1 rfl
  have hreturn : text.toList.getLast? ≠ some '\r' :=
    fun hlast => (h _ (List.mem_of_getLast? hlast)).2 rfl
  have hlines : lines (text.toList ++ ending.toList) = [text.toList] := by
    simp only [List.mem_cons, List.not_mem_nil, or_false] at hending
    rcases hending with rfl | rfl | rfl
    · have hne : text.toList ≠ [] := by simpa using hne
      simpa using lines_eq_singleton hne hnewline
    · have hfeed := lines_append_newline hnewline []
      rwa [dropReturn_eq_self hreturn, lines_nil] at hfeed
    · have hfeed := lines_append_newline (l := text.toList ++ ['\r']) (by simpa using hnewline) []
      simpa [dropReturn] using hfeed
  rw [linesOf, String.toList_append, hlines, List.map_singleton, String.ofList_toList]

end Text

/-! ### Sources of one instruction -/

/-- A source of one instruction is assembled to the word of the instruction, or refused with what
is wrong with it. -/
lemma assemble_of_one_statement {config : Config} {source text : String} {s : Statement}
    (hwords : 0 < config.maxWords) (hlabels : 0 < config.labelCapacity)
    (hsource : linesOf source = [text]) (htext : Line.classify text = .ok (.instruction s)) :
    assemble config source =
      match s.word (LabelTable.empty config.labelCapacity) with
      | .ok w => .ok ⟨#[⟨w, 1⟩], LabelTable.empty config.labelCapacity⟩
      | .error f => .error (.atLine 1 f) := by
  have hne : source ≠ "" := by
    rintro rfl
    cases hsource
  have hlines : sourceLines source = [⟨1, text⟩] := by
    rw [sourceLines, hsource]
    rfl
  have hstatement : SourceLine.statement? ⟨1, text⟩ = some s :=
    SourceLine.statement?_eq_some_iff.mpr htext
  have hsurvey : (Survey.start config).scan ⟨1, text⟩ = .ok ⟨1,
      LabelTable.empty config.labelCapacity,
      (Reach.start config.policy).pastInstruction s.mnemonic⟩ :=
    Survey.scan_eq_ok_iff.mpr (Or.inr (Or.inl ⟨s, hstatement, rfl, rfl⟩))
  rw [assemble_of_check (check_eq_ok_iff.mpr ⟨hwords, hlabels, hne⟩), hlines, Survey.run,
    Survey.scanAll_cons, hsurvey]
  show Emission.run config (LabelTable.empty config.labelCapacity) [⟨1, text⟩] >>= _ = _
  rw [Emission.run, Emission.scanAll_cons]
  cases hword : s.word (LabelTable.empty config.labelCapacity) with
  | ok w =>
    have hscan : (Emission.start config).scan config.maxWords
        (LabelTable.empty config.labelCapacity) ⟨1, text⟩ =
        .ok ⟨#[⟨w, 1⟩], (Reach.start config.policy).pastInstruction s.mnemonic⟩ :=
      Emission.scan_eq_ok_iff.mpr (Or.inr (Or.inl ⟨s, w, hstatement, rfl, hword, hwords, rfl⟩))
    rw [hscan]
    rfl
  | error f =>
    have hscan : (Emission.start config).scan config.maxWords
        (LabelTable.empty config.labelCapacity) ⟨1, text⟩ = .error (.atLine 1 f) :=
      Emission.scan_eq_error_iff.mpr ⟨f, rfl, Or.inr ⟨s, hstatement, rfl, Or.inl hword⟩⟩
    rw [hscan]
    rfl

/-! ### Literals -/

/-- The mnemonics that take a literal, with the codes of their opcodes. -/
def literalMnemonics : List (String × Nat) := [("LIT", 1), ("LOD", 10), ("STO", 3)]

/-- A line that has a literal as its operand, and what ends it. -/
def literalSource (mnemonic token ending : String) : String := mnemonic ++ " " ++ token ++ ending

lemma exists_opcode_of_mem_literalMnemonics {mnemonic : String} {code : Nat}
    (h : (mnemonic, code) ∈ literalMnemonics) :
    ∃ op : Opcode, op.shape = .immediate ∧ op.name = mnemonic ∧ op.code.toNat = code := by
  simp only [literalMnemonics, List.mem_cons, Prod.mk.injEq, List.not_mem_nil, or_false] at h
  rcases h with ⟨rfl, rfl⟩ | ⟨rfl, rfl⟩ | ⟨rfl, rfl⟩
  · exact ⟨.lit, rfl, rfl, rfl⟩
  · exact ⟨.lod, rfl, rfl, rfl⟩
  · exact ⟨.sto, rfl, rfl, rfl⟩

lemma Statement.word_literal (labels : LabelTable) {op : Opcode} (hop : op.shape = .immediate)
    (token : String) :
    word labels ⟨op.name, some token, none⟩ =
      match literal? token.toList with
      | some v => .ok (Word.pack op (Word.literalField v))
      | none => .error (.invalidLiteral op.name token) := by
  have hne : op ≠ .opr := by
    rintro rfl
    cases hop
  have hshape := (Operation.shape_plain op).trans hop
  rw [word, Operation.named?_name_of_ne_opr hne]
  cases hliteral : literal? token.toList with
  | none => simp [operand, hshape, hliteral]
  | some v =>
    have hencode := Operation.encode_of_takesOperand (Word.literalField v) (Or.inl hop)
    simp [operand, hshape, hliteral, hencode]

/-- The word of a literal is its opcode and its number modulo 4096. -/
lemma Word.toNat_pack_literalField (op : Opcode) (v : Int) :
    ((pack op (literalField v)).toNat : Int) = op.code.toNat * 4096 + v % 4096 := by
  have hfield := toNat_literalField v
  have hpack := toNat_pack op (literalField v)
  omega

/-- The line with a literal as its operand is assembled where the literal is read. -/
lemma assemble_literalSource {config : Config} {token ending : String}
    (hwords : 0 < config.maxWords) (hlabels : 0 < config.labelCapacity) {op : Opcode}
    (hop : op.shape = .immediate) (htoken : IsCode token.toList) (hline : NoLineEnd token.toList)
    (hending : ending ∈ ["", "\n", "\r\n"]) :
    assemble config (literalSource op.name token ending) =
      match literal? token.toList with
      | some v => .ok ⟨#[⟨Word.pack op (Word.literalField v), 1⟩],
          LabelTable.empty config.labelCapacity⟩
      | none => .error (.atLine 1 (.invalidLiteral op.name token)) := by
  have htext : (op.name ++ " " ++ token).toList = op.name.toList ++ ' ' :: token.toList := by simp
  have hend : NoLineEnd (op.name ++ " " ++ token).toList := by
    rw [htext]
    refine noLineEnd_append op.isName_name.noLineEnd fun c hc => ?_
    rcases List.mem_cons.mp hc with rfl | hc
    · decide
    · exact hline c hc
  have hne : op.name ++ " " ++ token ≠ "" := by simp
  rw [literalSource, assemble_of_one_statement hwords hlabels
    (linesOf_append_ending hne hend hending) (Line.classify_pair htext op.isName_name htoken),
    Statement.word_literal _ hop]
  cases literal? token.toList <;> rfl

/-- A token behind `LIT`, `LOD` or `STO` is assembled exactly where it is an optional sign and one
or more decimal digits whose number fits into 64 bits. The word is then the opcode with the number
modulo 4096, so two literals of a mnemonic have the same word exactly where their numbers are
congruent. Every other token is refused under its own text. -/
theorem assemble_literal {config : Config} {mnemonic token ending : String} {code : Nat}
    (hwords : 0 < config.maxWords) (hlabels : 0 < config.labelCapacity)
    (hmnemonic : (mnemonic, code) ∈ literalMnemonics) (htoken : IsCode token.toList)
    (hline : NoLineEnd token.toList) (hending : ending ∈ ["", "\n", "\r\n"]) :
    (∀ image, assemble config (literalSource mnemonic token ending) = .ok image ↔
      ∃ v w, DenotesLiteral token.toList v ∧ (w.toNat : Int) = code * 4096 + v % 4096 ∧
        image = ⟨#[⟨w, 1⟩], LabelTable.empty config.labelCapacity⟩) ∧
    (∀ e, assemble config (literalSource mnemonic token ending) = .error e ↔
      (∀ v, ¬ DenotesLiteral token.toList v) ∧ e = .atLine 1 (.invalidLiteral mnemonic token)) ∧
    ∀ token' v v' image image', IsCode token'.toList → NoLineEnd token'.toList →
      DenotesLiteral token.toList v → DenotesLiteral token'.toList v' →
      assemble config (literalSource mnemonic token ending) = .ok image →
      assemble config (literalSource mnemonic token' ending) = .ok image' →
      (image.words = image'.words ↔ v ≡ v' [ZMOD 4096]) := by
  obtain ⟨op, hop, rfl, rfl⟩ := exists_opcode_of_mem_literalMnemonics hmnemonic
  have hassemble := assemble_literalSource hwords hlabels hop htoken hline hending
  refine ⟨?_, ?_, ?_⟩
  · intro image
    rw [hassemble]
    constructor
    · intro h
      cases hv : literal? token.toList with
      | none => simp [hv] at h
      | some v =>
        rw [hv] at h
        exact ⟨v, _, literal?_eq_some_iff.mp hv, Word.toNat_pack_literalField op v,
          (Except.ok.inj h).symm⟩
    · rintro ⟨v, w, hv, hw, rfl⟩
      obtain rfl : w = Word.pack op (Word.literalField v) := by
        rw [← Word.toNat_pack_literalField] at hw
        exact UInt16.toNat_inj.mp (Int.ofNat_inj.mp hw)
      rw [literal?_eq_some_iff.mpr hv]
  · intro e
    rw [hassemble, ← literal?_eq_none_iff]
    cases literal? token.toList with
    | none => simp [eq_comm]
    | some v => simp
  · intro token' v v' image image' htoken' hline' hv hv' himage himage'
    rw [hassemble, literal?_eq_some_iff.mpr hv] at himage
    rw [assemble_literalSource hwords hlabels hop htoken' hline' hending,
      literal?_eq_some_iff.mpr hv'] at himage'
    cases himage
    cases himage'
    have hword := Word.toNat_pack_literalField op v
    have hword' := Word.toNat_pack_literalField op v'
    simp only [Image.words, List.map_cons, List.map_nil, List.cons.injEq, and_true,
      ← UInt16.toNat_inj, Int.ModEq]
    omega

/-- The smallest number has a literal and its negative has none; minus one and 4095 with zeros in
front have the same word. -/
theorem assemble_literal_limits :
    assemble ⟨1, 1, .keep⟩ "LOD -9223372036854775808\r\n" = .ok ⟨#[⟨0xA000, 1⟩], ⟨1, []⟩⟩ ∧
    assemble ⟨1, 1, .keep⟩ "LOD 9223372036854775808\r\n" =
      .error (.atLine 1 (.invalidLiteral "LOD" "9223372036854775808")) ∧
    ∃ image image', assemble ⟨1, 1, .keep⟩ "LIT -1" = .ok image ∧
      assemble ⟨1, 1, .keep⟩ "LIT +0000000000000000000004095" = .ok image' ∧
      image.words = image'.words := by
  have hnames : ∀ token ∈ ["-9223372036854775808", "9223372036854775808", "-1",
      "+0000000000000000000004095"], IsName token.toList := by
    decide +kernel
  have hleast : IsName "-9223372036854775808".toList := hnames _ (by simp)
  have hgreat : IsName "9223372036854775808".toList := hnames _ (by simp)
  have hminus : IsName "-1".toList := hnames _ (by simp)
  have hzeros : IsName "+0000000000000000000004095".toList := hnames _ (by simp)
  obtain ⟨haccepted, -, -⟩ := @assemble_literal ⟨1, 1, .keep⟩ "LOD" "-9223372036854775808" "\r\n" 10
    (by decide) (by decide) (by decide) hleast.isCode hleast.noLineEnd (by decide)
  obtain ⟨-, hrefused, -⟩ := @assemble_literal ⟨1, 1, .keep⟩ "LOD" "9223372036854775808" "\r\n" 10
    (by decide) (by decide) (by decide) hgreat.isCode hgreat.noLineEnd (by decide)
  obtain ⟨-, -, hcongruent⟩ := @assemble_literal ⟨1, 1, .keep⟩ "LIT" "-1" "" 1
    (by decide) (by decide) (by decide) hminus.isCode hminus.noLineEnd (by decide)
  have hleastValue : DenotesLiteral "-9223372036854775808".toList (-9223372036854775808) :=
    literal?_eq_some_iff.mp (by decide +kernel)
  have hminusValue : DenotesLiteral "-1".toList (-1) := literal?_eq_some_iff.mp (by decide +kernel)
  have hzerosValue : DenotesLiteral "+0000000000000000000004095".toList 4095 :=
    literal?_eq_some_iff.mp (by decide +kernel)
  have hfirst : assemble ⟨1, 1, .keep⟩ "LIT -1" = .ok ⟨#[⟨0x1FFF, 1⟩], ⟨1, []⟩⟩ := by
    decide +kernel
  have hsecond : assemble ⟨1, 1, .keep⟩ "LIT +0000000000000000000004095" =
      .ok ⟨#[⟨0x1FFF, 1⟩], ⟨1, []⟩⟩ := by
    decide +kernel
  refine ⟨?_, ?_, _, _, hfirst, hsecond, ?_⟩
  · exact (haccepted _).mpr ⟨_, 0xA000, hleastValue, by decide, rfl⟩
  · exact (hrefused _).mpr ⟨literal?_eq_none_iff.mp (by decide +kernel), rfl⟩
  · exact (hcongruent _ _ _ _ _ hzeros.isCode hzeros.noLineEnd hminusValue hzerosValue hfirst
      hsecond).mpr (by decide)

end StackAssembler
