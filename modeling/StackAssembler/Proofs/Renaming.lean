import StackAssembler.Proofs.Correspondence
import StackAssembler.Proofs.Lines
import StackAssembler.Proofs.Precedence
import StackAssembler.Proofs.Tokens

/-!
# Renaming of labels

A source can be rewritten under a function on names: the name in every label definition and the
operand of every jump and call are replaced, and all else is kept character by character. Where no
two names of the source become one, the assembly of the rewritten source is the assembly of the
source with its labels renamed.
-/

namespace StackAssembler

open Text

/-! ### Replacing a piece of a text -/

namespace Text

/-- The text with one of its pieces replaced. Pieces are counted from zero. -/
def setPiece (new : List Char) : Nat → List Char → List Char
  | 0, cs => cs.takeWhile isGap ++ new ++ behindPiece cs
  | k + 1, cs => cs.takeWhile isGap ++ firstPiece cs ++ setPiece new k (behindPiece cs)

variable {cs new : List Char}

/-- Only one stretch of the text is replaced. -/
lemma exists_setPiece_eq (new : List Char) (k : Nat) (cs : List Char) :
    ∃ front piece back, cs = front ++ piece ++ back ∧ setPiece new k cs = front ++ new ++ back := by
  induction k generalizing cs with
  | zero => exact ⟨_, _, _, (gaps_append_piece_append cs).symm, rfl⟩
  | succ k ih =>
    obtain ⟨front, piece, back, hback, hset⟩ := ih (behindPiece cs)
    refine ⟨cs.takeWhile isGap ++ firstPiece cs ++ front, piece, back, ?_, ?_⟩
    · nth_rewrite 1 [← gaps_append_piece_append cs]
      rw [hback]
      simp only [List.append_assoc]
    · rw [setPiece, hset]
      simp only [List.append_assoc]

lemma head?_setPiece_all {k : Nat} (hcs : cs.head?.all isGap = true) (hne : cs ≠ []) :
    (setPiece new k cs).head?.all isGap = true := by
  cases cs with
  | nil => exact absurd rfl hne
  | cons c cs =>
    have hc : isGap c = true := hcs
    cases k <;> simp [setPiece, hc]

/-- A piece is replaced among the pieces. -/
lemma pieces_setPiece {k : Nat} (hk : k < (pieces cs).length) (hnew : IsToken new) :
    pieces (setPiece new k cs) = (pieces cs).set k new := by
  induction k generalizing cs with
  | zero =>
    rw [setPiece, List.append_assoc, pieces_append_of_gaps isGap_of_mem_gaps,
      hnew.pieces_append (head?_behindPiece cs), pieces_eq_cons (List.ne_nil_of_length_pos hk),
      List.set_cons_zero]
  | succ k ih =>
    have hpieces : pieces cs ≠ [] := List.ne_nil_of_length_pos (Nat.zero_lt_of_lt hk)
    rw [pieces_eq_cons hpieces, List.length_cons, Nat.succ_lt_succ_iff] at hk
    -- a further piece is replaced, so there is text behind the first, and it begins with a gap
    have hback : behindPiece cs ≠ [] := by
      intro hnil
      rw [hnil] at hk
      exact absurd hk (Nat.not_lt_zero k)
    have hgap : (setPiece new k (behindPiece cs)).head?.all isGap = true :=
      head?_setPiece_all (head?_behindPiece cs) hback
    rw [setPiece, List.append_assoc, pieces_append_of_gaps isGap_of_mem_gaps,
      (isToken_firstPiece hpieces).pieces_append hgap, ih hk, pieces_eq_cons hpieces,
      List.set_cons_succ]

lemma takeWhile_set {α : Type} {p : α → Bool} {as : List α} {k : Nat} {a : α}
    (hk : k < (as.takeWhile p).length) (ha : p a = true) :
    (as.set k a).takeWhile p = (as.takeWhile p).set k a := by
  induction as generalizing k with
  | nil => rfl
  | cons b as ih =>
    by_cases hb : p b = true
    · rw [List.takeWhile_cons_of_pos hb] at hk ⊢
      cases k with
      | zero => rw [List.set_cons_zero, List.set_cons_zero, List.takeWhile_cons_of_pos ha]
      | succ k =>
        rw [List.set_cons_succ, List.set_cons_succ, List.takeWhile_cons_of_pos hb,
          ih (Nat.lt_of_succ_lt_succ hk)]
    · rw [List.takeWhile_cons_of_neg hb] at hk
      exact absurd hk (Nat.not_lt_zero k)

/-- A token is replaced among the tokens. -/
lemma tokens_setPiece {k : Nat} (hk : k < (tokens cs).length) (hnew : IsCode new) :
    tokens (setPiece new k cs) = (tokens cs).set k new := by
  have hpieces : k < (pieces cs).length :=
    Nat.lt_of_lt_of_le hk (List.takeWhile_sublist _).length_le
  rw [tokens, pieces_setPiece hpieces hnew.isToken, takeWhile_set hk (by simp [hnew.opensComment])]
  rfl

lemma replaces_setPiece (k : Nat) (hcs : '\n' ∉ cs) (hne : new ≠ []) (hnew : NoLineEnd new) :
    Replaces (setPiece new k cs) cs := by
  obtain ⟨front, piece, back, rfl, hset⟩ := exists_setPiece_eq new k cs
  rw [hset]
  refine ⟨by simp [hne], ?_, ?_⟩
  · intro hc
    simp only [List.mem_append, not_or] at hcs hc
    rcases hc with (hc | hc) | hc
    · exact hcs.1.1 hc
    · exact (hnew _ hc).1 rfl
    · exact hcs.2 hc
  · intro hlast
    -- the last character is that of the new piece or of the text behind it
    cases back using List.reverseRecOn with
    | nil =>
      rw [List.append_nil, List.getLast?_append_of_ne_nil _ hne] at hlast
      exact absurd rfl (hnew _ (List.mem_of_getLast? hlast)).2
    | append_singleton back c =>
      rw [← List.append_assoc, List.getLast?_concat] at hlast ⊢
      exact hlast

end Text

/-! ### Renaming in a source -/

section Rename

variable (f : String → String)

/-- The line with the name that it defines as a label, or the label that it jumps to or calls,
replaced. -/
def renameLine (text : String) : String :=
  match Line.classify text with
  | .ok (.label name) => String.ofList (setPiece ((f name).toList ++ [':']) 0 text.toList)
  | .ok (.instruction s) =>
    match s.target? with
    | some name => String.ofList (setPiece (f name).toList 1 text.toList)
    | none => text
  | _ => text

/-- The source with the names of its labels replaced wherever they are defined or referred to. -/
def renameLabels (source : String) : String :=
  String.ofList (mapLines (fun l => (renameLine f (String.ofList l)).toList) source.toList)

end Rename

/-- The names of labels that a source defines or refers to. -/
def labelNames (source : String) : List String :=
  (linesOf source).flatMap fun text =>
    match Line.classify text with
    | .ok line => line.names
    | .error _ => []

/-- A name that a label can have: it is not empty, holds no colon, gap or line end, and does not
begin as a comment does. -/
structure IsLabelName (name : String) : Prop where
  isCode : IsCode name.toList
  colon : ':' ∉ name.toList
  noLineEnd : NoLineEnd name.toList

lemma IsName.isLabelName {name : String} (h : IsName name.toList) : IsLabelName name :=
  ⟨h.isCode, h.colon_not_mem, h.noLineEnd⟩

lemma mem_labelNames {source text name : String} {line : Line} (htext : text ∈ linesOf source)
    (hline : Line.classify text = .ok line) (hname : name ∈ line.names) :
    name ∈ labelNames source := by
  refine List.mem_flatMap.mpr ⟨text, htext, ?_⟩
  rw [hline]
  exact hname

/-! ### What a line with replaced names says -/

section Line

variable {f : String → String} {text : String}

lemma classify_renameLine_label {name : String} (htext : Line.classify text = .ok (.label name))
    (hnew : IsLabelName (f name)) :
    Line.classify (renameLine f text) = .ok (.label (f name)) := by
  obtain ⟨htokens, -⟩ := Line.classify_eq_label_iff.mp htext
  have hcode : IsCode ((f name).toList ++ [':']) := hnew.isCode.append (by simp [isGap])
  have hfirst : 0 < (tokens text.toList).length := by simp [htokens]
  have hset := tokens_setPiece hfirst hcode
  rw [htokens, List.set_cons_zero] at hset
  rw [renameLine, htext, Line.classify_eq_label_iff, String.toList_ofList]
  exact ⟨hset, hnew.isCode.isToken.1, hnew.colon⟩

lemma classify_renameLine_target {s : Statement} {name : String}
    (htext : Line.classify text = .ok (.instruction s)) (hname : s.target? = some name)
    (hnew : IsLabelName (f name)) :
    Line.classify (renameLine f text) = .ok (.instruction (s.mapNames f)) := by
  have hline : renameLine f text = String.ofList (setPiece (f name).toList 1 text.toList) := by
    simp only [renameLine, htext, hname]
  obtain ⟨first, rest, htokens, hlast, rfl⟩ := Line.classify_eq_instruction_iff.mp htext
  rw [Statement.target?] at hname
  split_ifs at hname with htakes
  obtain ⟨argument, hargument, rfl⟩ := Option.map_eq_some_iff.mp hname
  obtain ⟨rest, rfl⟩ := List.head?_eq_some_iff.mp hargument
  have hsecond : 1 < (tokens text.toList).length := by simp [htokens]
  have hset := tokens_setPiece hsecond hnew.isCode
  rw [htokens] at hset
  rw [hline, Line.classify_eq_instruction_iff, String.toList_ofList]
  exact ⟨first, _ :: rest, hset, hlast, by simp [Statement.mapNames, htakes]⟩

lemma Line.mapNames_eq_self {line : Line} (h : line.names = []) : line.mapNames f = line := by
  cases line with
  | label name => cases h
  | instruction s =>
    obtain ⟨mnemonic, argument, extra⟩ := s
    rw [mapNames, Statement.mapNames]
    split_ifs with htakes
    · obtain rfl : argument = none := by simpa [names, Statement.target?, htakes] using h
      rfl
    · rfl
  | ignorable => rfl

/-- A line without names is kept. -/
lemma renameLine_eq_self (h : ∀ line, Line.classify text = .ok line → line.names = []) :
    renameLine f text = text := by
  rw [renameLine]
  split
  · rename_i name hline
    cases h _ hline
  · rename_i s hline
    have hnone : s.target? = none := by simpa [Line.names] using h _ hline
    rw [hnone]
  · rfl

variable {source : String}

/-- A line of a source and the line with replaced names say the same up to the names. -/
lemma matches_renameLine (hnames : ∀ name ∈ labelNames source, IsLabelName (f name))
    (htext : text ∈ linesOf source) (n : Nat) :
    SourceLine.Matches f id (LineFault.Renamed f) {name | name ∈ labelNames source}
      ⟨n, text⟩ ⟨n, renameLine f text⟩ := by
  constructor
  · rfl
  · cases hline : Line.classify text with
    | error fault =>
      have hself : renameLine f text = text := renameLine_eq_self (by simp [hline])
      rw [hself, hline, Line.classify_eq_error hline]
      exact .error rfl
    | ok line =>
      have hused : ∀ name ∈ line.names, name ∈ labelNames source :=
        fun name hname => mem_labelNames htext hline hname
      have hok : Line.classify (renameLine f text) = .ok (line.mapNames f) := by
        cases hlist : line.names with
        | nil =>
          have hself : renameLine f text = text := by
            apply renameLine_eq_self
            intro line' hline'
            obtain rfl := Except.ok.inj (hline.symm.trans hline')
            exact hlist
          rw [hself, hline, Line.mapNames_eq_self hlist]
        | cons name rest =>
          have hnew := hnames name (hused name (by simp [hlist]))
          cases line with
          | label name' =>
            obtain ⟨rfl, -⟩ := List.cons.inj hlist
            exact classify_renameLine_label hline hnew
          | instruction s =>
            have htarget : s.target? = some name := by
              cases h : s.target? <;> simp_all [Line.names]
            exact classify_renameLine_target hline htarget hnew
          | ignorable => cases hlist
      rw [hok]
      exact .ok ⟨rfl, hused⟩

lemma replaces_renameLine (hnames : ∀ name ∈ labelNames source, IsLabelName (f name))
    (htext : text ∈ linesOf source) : Replaces (renameLine f text).toList text.toList := by
  have hnewline : '\n' ∉ text.toList := newline_not_mem_of_mem_linesOf htext
  have hself : Replaces text.toList text.toList := ⟨id, hnewline, id⟩
  rw [renameLine]
  split
  · rename_i name hline
    have hnew := hnames name (mem_labelNames htext hline (by simp [Line.names]))
    rw [String.toList_ofList]
    apply replaces_setPiece 0 hnewline (by simp)
    apply noLineEnd_append hnew.noLineEnd
    simp [NoLineEnd]
  · rename_i s hline
    split
    · rename_i name htarget
      have hnew := hnames name (mem_labelNames htext hline (by simp [Line.names, htarget]))
      rw [String.toList_ofList]
      exact replaces_setPiece 1 hnewline hnew.isCode.isToken.1 hnew.noLineEnd
    · exact hself
  · exact hself

lemma linesOf_renameLabels (hnames : ∀ name ∈ labelNames source, IsLabelName (f name)) :
    linesOf (renameLabels f source) = (linesOf source).map (renameLine f) := by
  have hreplaces : ∀ l ∈ lines source.toList,
      Replaces (renameLine f (String.ofList l)).toList l := by
    intro l hl
    have htext : String.ofList l ∈ linesOf source := List.mem_map_of_mem hl
    simpa using replaces_renameLine hnames htext
  rw [linesOf, renameLabels, String.toList_ofList, lines_mapLines hreplaces, linesOf]
  simp [Function.comp_def]

end Line

/-! ### Assembly of a source with replaced names -/

/-- The image with its labels renamed. -/
def Image.mapNames (f : String → String) (image : Image) : Image :=
  { image with labels := image.labels.mapNames f }

/-- The error with the label that it quotes renamed. -/
def AssemblyError.mapNames (f : String → String) : AssemblyError → AssemblyError
  | .invalidInput fault => .invalidInput fault
  | .atLine line fault => .atLine line (fault.mapNames f)

lemma forall₂_numberFrom {R : SourceLine → SourceLine → Prop} {g : String → String}
    {texts : List String} (h : ∀ text ∈ texts, ∀ n, R ⟨n, text⟩ ⟨n, g text⟩) (n : Nat) :
    List.Forall₂ R (numberFrom n texts) (numberFrom n (texts.map g)) := by
  induction texts generalizing n with
  | nil => exact .nil
  | cons text texts ih =>
    rw [List.forall_mem_cons] at h
    exact .cons (h.1 n) (ih h.2 (n + 1))

/-- Labels can be renamed. Where a function keeps the names of a source apart and takes them to
names that labels can have, the source with its names replaced is assembled as the source is: to
the same words from the same lines, with every entry of the label table renamed in its place, or to
the same error on the same line, with the name that a duplicate or undefined label has renamed. -/
theorem assemble_renameLabels {f : String → String} {source : String}
    (hf : Set.InjOn f {name | name ∈ labelNames source})
    (hnames : ∀ name ∈ labelNames source, IsLabelName (f name)) (config : Config) :
    assemble config (renameLabels f source) =
      ((assemble config source).map (Image.mapNames f)).mapError (AssemblyError.mapNames f) := by
  have hlines := linesOf_renameLabels hnames
  have hempty : source = "" ↔ renameLabels f source = "" := by
    rw [← linesOf_eq_nil_iff, ← linesOf_eq_nil_iff, hlines, List.map_eq_nil_iff]
  have hmatches : List.Forall₂
      (SourceLine.Matches f id (LineFault.Renamed f) {name | name ∈ labelNames source})
      (sourceLines source) (sourceLines (renameLabels f source)) := by
    rw [sourceLines, sourceLines, hlines]
    apply forall₂_numberFrom
    intro text htext n
    exact matches_renameLine hnames htext n
  have hfault : ∀ fault : LineFault, LineFault.Renamed f fault (fault.mapNames f) := fun _ => rfl
  have hassemble := assemble_correspond hempty (passes_correspond hfault hf hmatches config)
  generalize assemble config source = result at hassemble
  generalize assemble config (renameLabels f source) = result' at hassemble
  cases hassemble with
  | @ok image image' himage =>
    obtain ⟨cells, labels⟩ := image'
    obtain ⟨hcells, rfl⟩ := himage
    have hsame : image.cells = cells := by simpa [Image.mapLines] using hcells
    rw [← hsame]
    rfl
  | error herror =>
    cases herror with
    | invalidInput fault => rfl
    | atLine n hfault =>
      rw [hfault]
      rfl

/-- Three names change places, in a source with comments, a tab and line ends of both kinds. The
undefined name becomes that of a label which is no longer called so. -/
theorem assemble_renameLabels_rotation :
    ∃ f source, source = "a: ; a\r\n\tJPC  b ; b\nb:\nJMP c" ∧
      renameLabels f source = "b: ; a\r\n\tJPC  c ; b\nc:\nJMP a" ∧
      assemble ⟨8, 4, .keep⟩ (renameLabels f source) =
        .error (.atLine 4 (.undefinedLabel "a")) := by
  let f : String → String := fun name =>
    if name = "a" then "b" else if name = "b" then "c" else if name = "c" then "a" else name
  have hlist : labelNames "a: ; a\r\n\tJPC  b ; b\nb:\nJMP c" = ["a", "b", "b", "c"] := by
    decide +kernel
  have hinj : Set.InjOn f {name | name ∈ ["a", "b", "b", "c"]} := by
    intro name hname name' hname' heq
    simp only [Set.mem_ofPred_eq, List.mem_cons, List.not_mem_nil, or_false] at hname hname'
    rcases hname with rfl | rfl | rfl | rfl <;> rcases hname' with rfl | rfl | rfl | rfl <;>
      simp [f] at heq ⊢
  have hlabel : ∀ name ∈ ["a", "b", "b", "c"], IsLabelName (f name) := by
    intro name hname
    apply IsName.isLabelName
    revert name
    decide +kernel
  refine ⟨f, _, rfl, by decide +kernel, ?_⟩
  rw [assemble_renameLabels (hlist ▸ hinj) (hlist ▸ hlabel)]
  decide +kernel

end StackAssembler
