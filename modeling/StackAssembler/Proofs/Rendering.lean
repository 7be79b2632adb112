import StackAssembler.Proofs.NormalForm
import StackAssembler.Proofs.Tokens

/-!
# Renderings of tokens

The ways to write a list of tokens as a line: with gaps in front of the tokens, between them and
behind them, and with a comment at the end. Every text is a rendering of exactly one list of tokens,
so what a line says can be told from the list that it renders, whichever rendering it is.
-/

namespace StackAssembler

open Text

/-! ### Renderings -/

/-- A text is a rendering of a list of tokens. -/
inductive Renders : List (List Char) → List Char → Prop where
  | blank {gaps : List Char} (hgaps : ∀ c ∈ gaps, isGap c = true) : Renders [] gaps
  /-- A comment may follow gaps, or begin the text. -/
  | comment {gaps : List Char} {c : Char} (hgaps : ∀ c ∈ gaps, isGap c = true)
      (hc : opensComment c = true) (rest : List Char) : Renders [] (gaps ++ c :: rest)
  /-- What is behind a token, another token or a comment, is parted from it by a gap. -/
  | token {gaps token rest : List Char} {ts : List (List Char)}
      (hgaps : ∀ c ∈ gaps, isGap c = true) (htoken : IsCode token)
      (hrest : rest.head?.all isGap = true) (h : Renders ts rest) :
      Renders (token :: ts) (gaps ++ token ++ rest)

section Renderings

variable {ts : List (List Char)} {cs : List Char}

lemma isGap_eq_false_of_opensComment {c : Char} (h : opensComment c = true) : isGap c = false := by
  rw [opensComment, Bool.or_eq_true, beq_iff_eq, beq_iff_eq] at h
  rcases h with rfl | rfl <;> rfl

/-- A token in front of a text, behind gaps, is the first token. -/
lemma tokens_append_of_isCode {gaps token rest : List Char} (hgaps : ∀ c ∈ gaps, isGap c = true)
    (htoken : IsCode token) (hrest : rest.head?.all isGap = true) :
    tokens (gaps ++ token ++ rest) = token :: tokens rest := by
  rw [tokens, List.append_assoc, pieces_append_of_gaps hgaps, htoken.isToken.pieces_append hrest,
    List.takeWhile_cons_of_pos (by simp [htoken.opensComment])]
  rfl

lemma Renders.tokens_eq (h : Renders ts cs) : tokens cs = ts := by
  induction h with
  | @blank gaps hgaps =>
    rw [tokens, ← List.append_nil gaps, pieces_append_of_gaps hgaps]
    rfl
  | @comment gaps c hgaps hc rest =>
    apply tokens_eq_nil_of_comment
    rw [List.dropWhile_append_of_pos hgaps,
      List.dropWhile_cons_of_neg (by simp [isGap_eq_false_of_opensComment hc])]
    exact hc
  | token hgaps htoken hrest h ih => rw [tokens_append_of_isCode hgaps htoken hrest, ih]

/-- A text with tokens begins with the first of them, behind gaps. -/
lemma tokens_eq_cons {token : List Char} (h : tokens cs = token :: ts) :
    firstPiece cs = token ∧ tokens (behindPiece cs) = ts := by
  have hpieces : pieces cs ≠ [] := by
    intro hnil
    rw [tokens, hnil] at h
    cases h
  rw [tokens, pieces_eq_cons hpieces, List.takeWhile_cons] at h
  split_ifs at h
  obtain ⟨hfirst, hrest⟩ := List.cons.inj h
  exact ⟨hfirst, hrest⟩

/-- A text without tokens is blank up to a comment. -/
lemma renders_nil_of_tokens (h : tokens cs = []) : Renders [] cs := by
  have hcs := List.takeWhile_append_dropWhile (p := isGap) (l := cs)
  cases hrest : cs.dropWhile isGap with
  | nil => exact .blank (List.dropWhile_eq_nil_iff.mp hrest)
  | cons c rest =>
    have hhead : (pieces cs).head?.bind List.head? = some c := by
      rw [head?_bind_head?_pieces, hrest, List.head?_cons]
    -- the first piece is no token, so it opens a comment
    have hopens : opensComment c = true := by
      obtain ⟨piece, hpiece, hc⟩ := Option.bind_eq_some_iff.mp hhead
      obtain ⟨others, hpieces⟩ := List.head?_eq_some_iff.mp hpiece
      by_contra hcode
      rw [tokens, hpieces, List.takeWhile_cons_of_pos (by simp [hc, hcode])] at h
      cases h
    rw [← hcs, hrest]
    exact .comment isGap_of_mem_gaps hopens rest

/-- Every text is a rendering of its tokens. -/
lemma renders_tokens (cs : List Char) : Renders (tokens cs) cs := by
  generalize hts : tokens cs = ts
  induction ts generalizing cs with
  | nil => exact renders_nil_of_tokens hts
  | cons token ts ih =>
    obtain ⟨rfl, hrest⟩ := tokens_eq_cons hts
    have hcode : IsCode (firstPiece cs) := isCode_of_mem_tokens (hts ▸ List.mem_cons_self ..)
    have hgaps : ∀ c ∈ cs.takeWhile isGap, isGap c = true := isGap_of_mem_gaps
    have hrenders := Renders.token hgaps hcode (head?_behindPiece cs) (ih _ hrest)
    rwa [gaps_append_piece_append] at hrenders

theorem renders_iff : Renders ts cs ↔ tokens cs = ts := by
  constructor
  · exact Renders.tokens_eq
  · rintro rfl
    exact renders_tokens cs

/-- Exactly the lists of tokens have a rendering. -/
lemma exists_renders_iff :
    (∃ text : String, Renders ts text.toList) ↔ ∀ token ∈ ts, IsCode token := by
  constructor
  · rintro ⟨text, h⟩ token htoken
    rw [← h.tokens_eq] at htoken
    exact isCode_of_mem_tokens htoken
  · intro h
    refine ⟨String.ofList (List.intercalate [' '] ts), renders_iff.mpr ?_⟩
    rw [String.toList_ofList, tokens_intercalate h]

end Renderings

/-! ### What a line says -/

/-- What a line says that renders the given tokens, or the error that is found on it. -/
inductive SourceLine.Says (l : SourceLine) :
    List (List Char) → Except AssemblyError Line → Prop where
  | ignorable : Says l [] (.ok .ignorable)
  | label {name : List Char} (hne : name ≠ []) (hcolon : ':' ∉ name) :
      Says l [name ++ [':']] (.ok (.label (String.ofList name)))
  | malformed {first : List Char} {rest : List (List Char)} (hlast : first.getLast? = some ':')
      (h : ∀ name, name ≠ [] → ':' ∉ name → first :: rest ≠ [name ++ [':']]) :
      Says l (first :: rest)
        (.error (.atLine l.number (.malformedLabel (String.ofList (trim l.text.toList)))))
  | instruction {first : List Char} {rest : List (List Char)} (hlast : first.getLast? ≠ some ':') :
      Says l (first :: rest) (.ok (.instruction
        ⟨String.ofList first, rest[0]?.map String.ofList, rest[1]?.map String.ofList⟩))

namespace SourceLine

variable {l : SourceLine} {ts : List (List Char)}

/-- The rules give what is computed from the tokens. -/
lemma says_iff {r : Except AssemblyError Line} :
    l.Says ts r ↔ l.locate (Line.ofTokens l.text.toList ts) = r := by
  constructor
  · intro h
    cases h with
    | ignorable => rfl
    | @label name hne hcolon =>
      have hname := Line.labelName?_eq_some_iff.mpr ⟨rfl, hne, hcolon⟩
      simp [Line.ofTokens, hname, locate]
    | @malformed first rest hlast h =>
      simp only [Line.ofTokens, hlast, if_true]
      split
      · next name hname =>
        obtain ⟨rfl, hne, hcolon⟩ := Line.labelName?_eq_some_iff.mp hname
        exact absurd rfl (h name hne hcolon)
      · rfl
    | @instruction first rest hlast =>
      simp only [Line.ofTokens, hlast, if_false, locate, List.head?_eq_getElem?,
        List.getElem?_tail]
  · rintro rfl
    cases ts with
    | nil => exact .ignorable
    | cons first rest =>
      simp only [Line.ofTokens]
      split_ifs with hlast
      · split
        · next name hname =>
          obtain ⟨rfl, hne, hcolon⟩ := Line.labelName?_eq_some_iff.mp hname
          exact .label hne hcolon
        · next hnot =>
          refine .malformed hlast ?_
          intro name hne hcolon heq
          obtain ⟨rfl, rfl⟩ := List.cons.inj heq
          exact hnot name (Line.labelName?_eq_some_iff.mpr ⟨rfl, hne, hcolon⟩) rfl
      · rw [List.head?_eq_getElem?, List.head?_eq_getElem?, List.getElem?_tail]
        exact .instruction hlast

/-- What a line says is what the tokens say that it renders. -/
lemma classify_eq_iff (h : Renders ts l.text.toList) {r : Except AssemblyError Line} :
    l.classify = r ↔ l.Says ts r := by
  rw [says_iff, classify, Line.classify, h.tokens_eq]

end SourceLine

/-- The grammar of lines. Every text is a rendering of exactly one list of tokens, and every list of
tokens has renderings. A list of tokens says exactly one thing: nothing, a label, an instruction, or
that a label definition is malformed. A line says what the tokens say that it renders, so two
renderings of the same tokens differ at most in the text that a malformed label definition is quoted
with. -/
theorem classify_renderings :
    (∀ text : String, ∃! ts, Renders ts text.toList) ∧
    (∀ ts, (∃ text : String, Renders ts text.toList) ↔ ∀ token ∈ ts, IsCode token) ∧
    (∀ (l : SourceLine) (ts : List (List Char)), ∃! r, l.Says ts r) ∧
    (∀ (l : SourceLine) (ts : List (List Char)), Renders ts l.text.toList →
      ∀ r, l.classify = r ↔ l.Says ts r) ∧
    ∀ (text text' : String) (ts : List (List Char)), Renders ts text.toList →
      Renders ts text'.toList →
      Corresponds LineFault.Alike (· = ·) (Line.classify text) (Line.classify text') := by
  refine ⟨?_, fun ts => exists_renders_iff, ?_, ?_, ?_⟩
  · intro text
    exact ⟨_, renders_tokens _, fun ts h => h.tokens_eq.symm⟩
  · intro l ts
    exact ⟨_, SourceLine.says_iff.mpr rfl, fun r h => (SourceLine.says_iff.mp h).symm⟩
  · intro l ts h r
    exact SourceLine.classify_eq_iff h
  · intro text text' ts h h'
    rw [Line.classify, Line.classify, h.tokens_eq, h'.tokens_eq]
    exact Line.ofTokens_alike _ _ _

/-- A semicolon inside a token opens no comment, two tokens are no label definition, and a line feed
parts no tokens. -/
theorem classify_renderings_inner_marks :
    Renders ["a;b:".toList] "\ta;b: #c:".toList ∧
    SourceLine.classify ⟨3, "\ta;b: #c:"⟩ = .ok (.label "a;b") ∧
    SourceLine.classify ⟨4, " a;b: c "⟩ = .error (.atLine 4 (.malformedLabel "a;b: c")) ∧
    SourceLine.classify ⟨5, "LIT a\nb 2 3;"⟩ =
      .ok (.instruction ⟨"LIT", some "a\nb", some "2"⟩) ∧
    Corresponds LineFault.Alike (· = ·) (Line.classify ": x") (Line.classify " :\tx ;") := by
  obtain ⟨-, -, -, hmeaning, halike⟩ := classify_renderings
  have hlabel : Renders ["a;b:".toList] "\ta;b: #c:".toList := renders_iff.mpr (by decide +kernel)
  have hmalformed : Renders ["a;b:".toList, "c".toList] " a;b: c ".toList :=
    renders_iff.mpr (by decide +kernel)
  have hinstruction : Renders ["LIT".toList, "a\nb".toList, "2".toList, "3;".toList]
      "LIT a\nb 2 3;".toList :=
    renders_iff.mpr (by decide +kernel)
  have hshort : Renders [":".toList, "x".toList] ": x".toList := renders_iff.mpr (by decide +kernel)
  have hlong : Renders [":".toList, "x".toList] " :\tx ;".toList :=
    renders_iff.mpr (by decide +kernel)
  refine ⟨hlabel, ?_, ?_, ?_, halike _ _ _ hshort hlong⟩
  · have hname : SourceLine.Says ⟨3, "\ta;b: #c:"⟩ ["a;b".toList ++ [':']] (.ok (.label "a;b")) :=
      .label (by decide) (by decide)
    exact (hmeaning ⟨3, "\ta;b: #c:"⟩ _ hlabel _).mpr hname
  · exact (hmeaning ⟨4, " a;b: c "⟩ _ hmalformed _).mpr (.malformed (by decide) (by simp))
  · exact (hmeaning ⟨5, "LIT a\nb 2 3;"⟩ _ hinstruction _).mpr (.instruction (by decide))

end StackAssembler
