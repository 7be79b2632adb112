import StackAssembler.Proofs.Comments
import StackAssembler.Proofs.Rendering

/-!
# Code and comment of a line

The comment of a line is told in two ways. Bodies of macros are read character by character, with a
flag for the places where a token may start, and cut in two before the comment. Tokens are read off
the pieces between gaps, up to the first piece that opens a comment. Both find the same comment: the
tokens of a line are the pieces of its code.
-/

namespace StackAssembler

open Text

/-! ### The cut before the comment -/

namespace Text

/-- A comment starts between two parts of a text: the first part is empty or ends in a gap, and the
second begins with a character that opens a comment. The flag says that a token may start where the
text begins. -/
def CommentStarts (start : Bool) (front rest : List Char) : Prop :=
  front.getLast?.elim start isGap = true ∧ rest.head?.any opensComment = true

/-- A comment starts nowhere in a text. -/
def NoComment (start : Bool) (cs : List Char) : Prop :=
  ∀ front rest, front ++ rest = cs → ¬ CommentStarts start front rest

variable {start : Bool} {c : Char} {cs front rest code comment : List Char}

lemma commentStarts_cons_iff :
    CommentStarts start (c :: front) rest ↔ CommentStarts (isGap c) front rest := by
  rw [CommentStarts, elim_getLast?_cons]
  rfl

lemma noComment_nil : NoComment start [] := by
  rintro front rest happend ⟨-, hopens⟩
  obtain ⟨-, rfl⟩ := List.append_eq_nil_iff.mp happend
  cases hopens

lemma noComment_cons_iff :
    NoComment start (c :: cs) ↔ (start && opensComment c) = false ∧ NoComment (isGap c) cs := by
  constructor
  · intro h
    constructor
    · by_contra hopens
      rw [Bool.not_eq_false, Bool.and_eq_true] at hopens
      exact h [] (c :: cs) rfl hopens
    · rintro front rest rfl hstarts
      exact h (c :: front) rest rfl (commentStarts_cons_iff.mpr hstarts)
  · rintro ⟨hcode, h⟩ front rest happend hstarts
    cases front with
    | nil =>
      obtain rfl : rest = c :: cs := happend
      exact absurd (Bool.and_eq_true_iff.mpr hstarts) (by simp [hcode])
    | cons d front =>
      obtain ⟨rfl, rfl⟩ := List.cons.inj happend
      exact h front rest rfl (commentStarts_cons_iff.mp hstarts)

lemma splitCommentFrom_cons_eq_nil_iff :
    splitCommentFrom start (c :: cs) = ([], comment) ↔
      (start && opensComment c) = true ∧ comment = c :: cs := by
  rw [splitCommentFrom]
  cases h : start && opensComment c with
  | true => simp [eq_comm]
  | false => simp

/-- There is one way to cut a text in two such that no comment starts in the first part and the
second is empty or a comment that starts there. -/
lemma splitCommentFrom_eq_iff :
    splitCommentFrom start cs = (code, comment) ↔
      code ++ comment = cs ∧ (comment = [] ∨ CommentStarts start code comment) ∧
        NoComment start code := by
  induction cs generalizing start code with
  | nil =>
    constructor
    · intro h
      cases h
      exact ⟨rfl, .inl rfl, noComment_nil⟩
    · rintro ⟨happend, -, -⟩
      obtain ⟨rfl, rfl⟩ := List.append_eq_nil_iff.mp happend
      rfl
  | cons c cs ih =>
    cases code with
    | nil =>
      rw [splitCommentFrom_cons_eq_nil_iff]
      constructor
      · rintro ⟨hopens, rfl⟩
        exact ⟨rfl, .inr (Bool.and_eq_true_iff.mp hopens), noComment_nil⟩
      · rintro ⟨rfl, hcomment, -⟩
        have hstarts := hcomment.resolve_left (List.cons_ne_nil c cs)
        exact ⟨Bool.and_eq_true_iff.mpr hstarts, rfl⟩
    | cons d code =>
      -- the code begins as the text does, on either side
      constructor
      · intro h
        have happend := splitCommentFrom_append start (c :: cs)
        rw [h] at happend
        obtain rfl : d = c := (List.cons.inj happend).1
        obtain ⟨hcode, hrest⟩ := splitCommentFrom_cons_eq_iff.mp h
        obtain ⟨-, hcomment, hno⟩ := ih.mp hrest
        exact ⟨happend, hcomment.imp_right commentStarts_cons_iff.mpr,
          noComment_cons_iff.mpr ⟨hcode, hno⟩⟩
      · rintro ⟨happend, hcomment, hno⟩
        obtain ⟨rfl, hrest⟩ := List.cons.inj happend
        obtain ⟨hcode, hno⟩ := noComment_cons_iff.mp hno
        refine splitCommentFrom_cons_eq_iff.mpr ⟨hcode, ih.mpr ⟨hrest, ?_, hno⟩⟩
        exact hcomment.imp_right commentStarts_cons_iff.mp

/-! ### The comment behind the tokens -/

lemma opensComment_eq_false_of_isGap (h : isGap c = true) : opensComment c = false := by
  rw [Bool.eq_false_iff]
  intro hopens
  rw [isGap_eq_false_of_opensComment hopens] at h
  cases h

/-- Gaps in front of a text are code. -/
lemma splitComment_gaps_append_eq_iff {gaps : List Char} (h : ∀ c ∈ gaps, isGap c = true) :
    splitComment (gaps ++ cs) = (gaps ++ code, comment) ↔ splitComment cs = (code, comment) := by
  induction gaps with
  | nil => rfl
  | cons c gaps ih =>
    rw [List.forall_mem_cons] at h
    have hopens : (true && opensComment c) = false := opensComment_eq_false_of_isGap h.1
    rw [List.cons_append, List.cons_append, splitComment, splitCommentFrom_cons_eq_iff, h.1,
      ← ih h.2]
    simp [hopens, splitComment]

/-- Where a text begins with a gap, the flag has no effect. -/
lemma splitCommentFrom_of_head? (h : cs.head?.all isGap = true) :
    splitCommentFrom start cs = splitComment cs := by
  cases cs with
  | nil => rfl
  | cons c cs =>
    have hopens := opensComment_eq_false_of_isGap (c := c) h
    simp [splitComment, splitCommentFrom, hopens]

end Text

/-- The pieces of the code are the tokens that a text renders. -/
lemma Renders.exists_splitComment {ts : List (List Char)} {cs : List Char} (h : Renders ts cs) :
    ∃ code comment, splitComment cs = (code, comment) ∧ pieces code = ts := by
  induction h with
  | @blank gaps hgaps =>
    rw [← List.append_nil gaps]
    exact ⟨gaps ++ [], [], (splitComment_gaps_append_eq_iff hgaps).mpr rfl,
      pieces_append_of_gaps hgaps []⟩
  | @comment gaps c hgaps hc rest =>
    have hstarts : splitComment (c :: rest) = ([], c :: rest) :=
      splitCommentFrom_cons_eq_nil_iff.mpr ⟨hc, rfl⟩
    exact ⟨gaps ++ [], c :: rest, (splitComment_gaps_append_eq_iff hgaps).mpr hstarts,
      pieces_append_of_gaps hgaps []⟩
  | @token gaps token rest ts hgaps htoken hrest h ih =>
    obtain ⟨code, comment, hsplit, hpieces⟩ := ih
    -- the code behind the token is empty or begins with the same gap as the text there
    have hcode : code.head?.all isGap = true := by
      have happend := splitComment_append rest
      rw [hsplit] at happend
      cases code with
      | nil => rfl
      | cons d code =>
        rw [← happend] at hrest
        exact hrest
    have htext : splitComment (token ++ rest) = (token ++ code, comment) := by
      refine (splitCommentFrom_token_append_eq_iff htoken.isToken).mpr ⟨htoken.opensComment, ?_⟩
      rw [splitCommentFrom_of_head? hrest, hsplit]
    refine ⟨gaps ++ (token ++ code), comment, ?_, ?_⟩
    · rw [List.append_assoc]
      exact (splitComment_gaps_append_eq_iff hgaps).mpr htext
    · rw [pieces_append_of_gaps hgaps, htoken.isToken.pieces_append hcode, hpieces]

lemma tokens_eq_pieces_of_splitComment {cs code comment : List Char}
    (h : splitComment cs = (code, comment)) : tokens cs = pieces code := by
  obtain ⟨code', comment', hsplit, hpieces⟩ := (renders_tokens cs).exists_splitComment
  obtain ⟨rfl, -⟩ := Prod.ext_iff.mp (h.symm.trans hsplit)
  exact hpieces.symm

/-- The two ways to tell a comment agree. The halves of a text are the whole text; the second is
empty or a comment that starts where the first ends, and no comment starts in the first, so it is
all code when it is read again. The tokens of the text are the pieces of its code, and these are the
tokens of the code. -/
theorem splitComment_agrees_with_tokens (text : List Char) :
    ∃ code comment, splitComment text = (code, comment) ∧
      code ++ comment = text ∧
      (comment = [] ∨ CommentStarts true code comment) ∧
      NoComment true code ∧
      splitComment code = (code, []) ∧
      tokens text = pieces code ∧
      tokens code = pieces code := by
  obtain ⟨code, comment, hsplit⟩ : ∃ code comment, splitComment text = (code, comment) :=
    ⟨_, _, rfl⟩
  obtain ⟨happend, hcomment, hno⟩ := splitCommentFrom_eq_iff.mp hsplit
  have hcode : splitComment code = (code, []) :=
    splitCommentFrom_eq_iff.mpr ⟨List.append_nil code, .inl rfl, hno⟩
  exact ⟨code, comment, hsplit, happend, hcomment, hno, hcode,
    tokens_eq_pieces_of_splitComment hsplit, tokens_eq_pieces_of_splitComment hcode⟩

/-- Inside a token a mark opens no comment, and a comment may hold further marks. -/
example :
    splitComment "\tLIT a;b  ;c #d".toList = ("\tLIT a;b  ".toList, ";c #d".toList) ∧
    tokens "\tLIT a;b  ;c #d".toList = ["LIT".toList, "a;b".toList] := by
  decide +kernel

end StackAssembler
