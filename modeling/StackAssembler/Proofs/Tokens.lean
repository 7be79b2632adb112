import Mathlib.Data.List.TakeWhile
import StackAssembler.Proofs.Lines
import StackAssembler.Proofs.Statement

/-!
# Tokens of a line

Which tokens a line has that is written in a known way: a line that begins with a comment has none,
and tokens with single spaces between them come back. What a line says is read off its tokens.
-/

namespace StackAssembler

open Text

namespace Text

/-! ### Pieces -/

/-- The pieces of a text are made of its characters, except those that part them. -/
lemma mem_and_eq_false_of_mem_splitOnP {p : Char → Bool} {cs piece : List Char}
    (h : piece ∈ cs.splitOnP p) : ∀ c ∈ piece, c ∈ cs ∧ p c = false := by
  induction cs generalizing piece with
  | nil =>
    rw [List.splitOnP_nil, List.mem_singleton] at h
    simp [h]
  | cons c cs ih =>
    have hcons : ∀ {piece}, piece ∈ cs.splitOnP p → ∀ d ∈ piece, d ∈ c :: cs ∧ p d = false :=
      fun hpiece d hd => (ih hpiece d hd).imp_left (List.mem_cons_of_mem c)
    rw [List.splitOnP_cons_eq_if_modifyHead] at h
    split_ifs at h with hc
    · rcases List.mem_cons.mp h with rfl | h
      · simp
      · exact hcons h
    · obtain ⟨first, rest, hsplit⟩ := List.exists_cons_of_ne_nil (List.splitOnP_ne_nil p cs)
      rw [hsplit] at hcons h
      rcases List.mem_cons.mp h with rfl | h
      · refine List.forall_mem_cons.mpr ⟨⟨by simp, by simpa using hc⟩, ?_⟩
        exact hcons (List.mem_cons_self ..)
      · exact hcons (List.mem_cons_of_mem first h)

lemma isToken_of_mem_pieces {cs piece : List Char} (h : piece ∈ pieces cs) : IsToken piece := by
  obtain ⟨hpiece, hne⟩ := List.mem_filter.mp h
  exact ⟨by simpa using hne, fun c hc => (mem_and_eq_false_of_mem_splitOnP hpiece c hc).2⟩

@[simp] lemma pieces_nil : pieces [] = [] := rfl

lemma pieces_cons_of_isGap {c : Char} (h : isGap c = true) (cs : List Char) :
    pieces (c :: cs) = pieces cs := by
  simp [pieces, List.splitOnP_cons_eq_if_modifyHead, h]

/-- Gaps in front of a text belong to no piece. -/
lemma pieces_append_of_gaps {gaps : List Char} (h : ∀ c ∈ gaps, isGap c = true) (cs : List Char) :
    pieces (gaps ++ cs) = pieces cs := by
  induction gaps with
  | nil => rfl
  | cons c gaps ih =>
    rw [List.forall_mem_cons] at h
    rw [List.cons_append, pieces_cons_of_isGap h.1, ih h.2]

/-- A character that is no gap begins the first piece. -/
lemma exists_pieces_cons {c : Char} (h : isGap c = false) (cs : List Char) :
    ∃ piece rest, pieces (c :: cs) = (c :: piece) :: rest := by
  obtain ⟨piece, rest, hsplit⟩ := List.exists_cons_of_ne_nil (List.splitOnP_ne_nil isGap cs)
  refine ⟨piece, rest.filter (!·.isEmpty), ?_⟩
  simp [pieces, List.splitOnP_cons_eq_if_modifyHead, h, hsplit]

/-- The first piece begins with the first character that is no gap. -/
lemma head?_bind_head?_pieces (cs : List Char) :
    (pieces cs).head?.bind List.head? = (cs.dropWhile isGap).head? := by
  induction cs with
  | nil => rfl
  | cons c cs ih =>
    cases h : isGap c with
    | true => rw [pieces_cons_of_isGap h, List.dropWhile_cons_of_pos h, ih]
    | false =>
      obtain ⟨piece, rest, hpieces⟩ := exists_pieces_cons h cs
      rw [hpieces, List.dropWhile_cons_of_neg (by simp [h])]
      rfl

/-- A line that begins with a comment has no tokens. -/
lemma tokens_eq_nil_of_comment {cs : List Char}
    (h : (cs.dropWhile isGap).head?.any opensComment = true) : tokens cs = [] := by
  rw [← head?_bind_head?_pieces] at h
  rw [tokens]
  cases hpieces : pieces cs with
  | nil => rfl
  | cons piece rest =>
    rw [hpieces, List.head?_cons, Option.bind_some] at h
    rw [List.takeWhile_cons_of_neg (by simp [h])]

end Text

/-- A token is the first piece of a text where nothing or a gap is behind it. -/
lemma IsToken.pieces_append {token : List Char} (h : IsToken token)
    {rest : List Char} (hrest : rest.head?.all isGap = true) :
    pieces (token ++ rest) = token :: pieces rest := by
  cases rest with
  | nil =>
    rw [List.append_nil, pieces, List.splitOnP_eq_singleton h.2]
    simp [h.1]
  | cons c rest =>
    have hc : isGap c = true := hrest
    rw [pieces, List.splitOnP_append_cons_of_forall_mem h.2 c hc, pieces_cons_of_isGap hc]
    simp [pieces, h.1]

/-! ### The first piece -/

namespace Text

/-- The first piece of a text. -/
def firstPiece (cs : List Char) : List Char := (cs.dropWhile isGap).takeWhile (!isGap ·)

/-- The text behind its first piece. -/
def behindPiece (cs : List Char) : List Char := (cs.dropWhile isGap).dropWhile (!isGap ·)

variable {cs : List Char}

lemma gaps_append_piece_append (cs : List Char) :
    cs.takeWhile isGap ++ firstPiece cs ++ behindPiece cs = cs := by
  rw [firstPiece, behindPiece, List.append_assoc, List.takeWhile_append_dropWhile,
    List.takeWhile_append_dropWhile]

lemma isGap_of_mem_gaps : ∀ c ∈ cs.takeWhile isGap, isGap c = true :=
  fun _ hc => List.mem_takeWhile_imp hc

lemma head?_behindPiece (cs : List Char) : (behindPiece cs).head?.all isGap = true := by
  cases h : (behindPiece cs).head? with
  | none => rfl
  | some c =>
    have hc := List.head?_dropWhile_not (!isGap ·) (cs.dropWhile isGap)
    rw [← behindPiece, h] at hc
    simpa using hc

lemma isToken_firstPiece (h : pieces cs ≠ []) : IsToken (firstPiece cs) := by
  refine ⟨?_, fun c hc => by simpa using List.mem_takeWhile_imp hc⟩
  cases hrest : cs.dropWhile isGap with
  | nil =>
    -- a text of gaps has no pieces
    refine absurd ?_ h
    rw [← List.append_nil cs]
    exact pieces_append_of_gaps (List.dropWhile_eq_nil_iff.mp hrest) []
  | cons c rest =>
    have hc : isGap c = false := by
      have hhead := List.head?_dropWhile_not isGap cs
      rw [hrest] at hhead
      simpa using hhead
    rw [firstPiece, hrest, List.takeWhile_cons_of_pos (by simp [hc])]
    exact List.cons_ne_nil _ _

lemma pieces_eq_cons (h : pieces cs ≠ []) :
    pieces cs = firstPiece cs :: pieces (behindPiece cs) := by
  nth_rewrite 1 [← gaps_append_piece_append cs]
  rw [List.append_assoc, pieces_append_of_gaps isGap_of_mem_gaps,
    (isToken_firstPiece h).pieces_append (head?_behindPiece cs)]

end Text

/-! ### Tokens -/

/-- A text that can be a token of a line: it has no gap and opens no comment. -/
structure IsCode (token : List Char) : Prop where
  isToken : IsToken token
  opensComment : token.head?.any opensComment = false

lemma isCode_of_mem_tokens {cs token : List Char} (h : token ∈ tokens cs) : IsCode token where
  isToken := isToken_of_mem_pieces ((List.takeWhile_sublist _).subset h)
  opensComment := by simpa using List.mem_takeWhile_imp h

lemma subset_of_mem_tokens {cs token : List Char} (h : token ∈ tokens cs) : token ⊆ cs := by
  have hpiece : token ∈ pieces cs := (List.takeWhile_sublist _).subset h
  intro c hc
  exact (mem_and_eq_false_of_mem_splitOnP (List.mem_of_mem_filter hpiece) c hc).1

lemma pieces_intercalate {ts : List (List Char)} (h : ∀ t ∈ ts, IsToken t) :
    pieces (List.intercalate [' '] ts) = ts := by
  induction ts with
  | nil => rfl
  | cons t ts ih =>
    rw [List.forall_mem_cons] at h
    cases ts with
    | nil =>
      have hpieces : pieces (t ++ []) = [t] := h.1.pieces_append rfl
      simpa using hpieces
    | cons u ts =>
      rw [List.intercalate_cons_cons, List.append_assoc, h.1.pieces_append rfl,
        List.singleton_append, pieces_cons_of_isGap rfl, ih h.2]

/-- Tokens that are joined by spaces come back. -/
lemma tokens_intercalate {ts : List (List Char)} (h : ∀ t ∈ ts, IsCode t) :
    tokens (List.intercalate [' '] ts) = ts := by
  rw [tokens, pieces_intercalate fun t ht => (h t ht).isToken, List.takeWhile_eq_self_iff]
  intro t ht
  simp [(h t ht).opensComment]

lemma IsCode.tokens_eq {token : List Char} (h : IsCode token) : tokens token = [token] := by
  have hcode : ∀ t ∈ [token], IsCode t := by simpa using h
  simpa using tokens_intercalate hcode

/-- A token stays one when characters that are no gaps are put behind it. -/
lemma IsCode.append {token cs : List Char} (h : IsCode token) (hcs : ∀ c ∈ cs, isGap c = false) :
    IsCode (token ++ cs) where
  isToken := by
    refine ⟨by simp [h.isToken.1], fun c hc => ?_⟩
    rcases List.mem_append.mp hc with hc | hc
    · exact h.isToken.2 c hc
    · exact hcs c hc
  opensComment := by
    obtain ⟨c, cs, rfl⟩ := List.exists_cons_of_ne_nil h.isToken.1
    exact h.opensComment

/-! ### What tokens say -/

namespace Line

variable {text : String}

lemma classify_eq_ignorable_iff :
    classify text = .ok .ignorable ↔ tokens text.toList = [] := by
  rw [classify]
  cases tokens text.toList with
  | nil => simp [ofTokens]
  | cons first rest =>
    simp only [ofTokens, reduceCtorEq, iff_false]
    split_ifs
    · split <;> simp
    · simp

lemma labelName?_eq_some_iff {token name : List Char} :
    labelName? token = some name ↔ token = name ++ [':'] ∧ name ≠ [] ∧ ':' ∉ name := by
  constructor
  · intro h
    simp only [labelName?] at h
    split at h
    · rename_i hlast
      split_ifs at h with hname
      cases h
      obtain ⟨init, rfl⟩ := List.getLast?_eq_some_iff.mp hlast
      simpa using hname
    · cases h
  · rintro ⟨rfl, hne, hcolon⟩
    simp [labelName?, hne, hcolon]

/-- A label definition is one token, a name with a colon behind it. -/
lemma classify_eq_label_iff {name : String} : classify text = .ok (.label name) ↔
    tokens text.toList = [name.toList ++ [':']] ∧ name.toList ≠ [] ∧ ':' ∉ name.toList := by
  rw [classify]
  constructor
  · intro h
    cases htokens : tokens text.toList with
    | nil => simp [htokens, ofTokens] at h
    | cons first rest =>
      simp only [htokens, ofTokens] at h
      split_ifs at h
      · split at h
        · rename_i chars hname
          cases h
          obtain ⟨rfl, hrest⟩ := labelName?_eq_some_iff.mp hname
          simpa using hrest
        · cases h
      · cases h
  · rintro ⟨htokens, hname⟩
    have hlabel := labelName?_eq_some_iff.mpr ⟨rfl, hname⟩
    simp [htokens, ofTokens, hlabel]

/-- An instruction has a first token that does not end in a colon. -/
lemma classify_eq_instruction_iff {s : Statement} : classify text = .ok (.instruction s) ↔
    ∃ first rest, tokens text.toList = first :: rest ∧ first.getLast? ≠ some ':' ∧
      s = ⟨String.ofList first, rest.head?.map String.ofList,
        rest.tail.head?.map String.ofList⟩ := by
  rw [classify]
  cases tokens text.toList with
  | nil => simp [ofTokens]
  | cons first rest =>
    simp only [ofTokens]
    split_ifs with hlast
    · split <;> simp_all
    · simp [hlast, eq_comm]

end Line

/-! ### Lines of one or two tokens -/

/-- A character without a meaning of its own: it parts no tokens or lines, opens no comment and
marks no label. -/
def IsOrdinary (c : Char) : Prop :=
  isGap c = false ∧ opensComment c = false ∧ c ≠ ':' ∧ c ≠ '\n' ∧ c ≠ '\r'

instance : DecidablePred IsOrdinary := fun _ => inferInstanceAs (Decidable (_ ∧ _ ∧ _ ∧ _ ∧ _))

/-- A text of ordinary characters that is not empty. -/
def IsName (cs : List Char) : Prop := cs ≠ [] ∧ ∀ c ∈ cs, IsOrdinary c

-- only the characters of the text are looked at, although there are finitely many in all
instance : DecidablePred IsName := fun cs =>
  haveI : Decidable (∀ c ∈ cs, IsOrdinary c) := List.decidableBAll IsOrdinary cs
  inferInstanceAs (Decidable (_ ∧ _))

namespace IsName

variable {a b : List Char}

lemma isCode (h : IsName a) : IsCode a where
  isToken := ⟨h.1, fun c hc => (h.2 c hc).1⟩
  opensComment := by
    obtain ⟨c, cs, rfl⟩ := List.exists_cons_of_ne_nil h.1
    exact (h.2 c (by simp)).2.1

lemma colon_not_mem (h : IsName a) : ':' ∉ a := fun hcolon => (h.2 ':' hcolon).2.2.1 rfl

lemma getLast?_ne (h : IsName a) : a.getLast? ≠ some ':' :=
  fun hlast => h.colon_not_mem (List.mem_of_getLast? hlast)

lemma noLineEnd (h : IsName a) : NoLineEnd a := fun c hc => (h.2 c hc).2.2.2

end IsName

lemma Opcode.isName_name (op : Opcode) : IsName op.name.toList := by
  cases op <;> decide

namespace Line

variable {text a b : String}

/-- A name is an instruction without operand. -/
lemma classify_name (h : IsName a.toList) : classify a = .ok (.instruction ⟨a, none, none⟩) :=
  classify_eq_instruction_iff.mpr ⟨a.toList, [], h.isCode.tokens_eq, h.getLast?_ne, by simp⟩

/-- A name with a colon is a label definition. -/
lemma classify_name_colon (htext : text.toList = a.toList ++ [':']) (h : IsName a.toList) :
    classify text = .ok (.label a) := by
  have hcode : IsCode (a.toList ++ [':']) := h.isCode.append (by simp [isGap])
  rw [classify_eq_label_iff, htext]
  exact ⟨hcode.tokens_eq, h.1, h.colon_not_mem⟩

/-- A name and a token behind it are an instruction with an operand. -/
lemma classify_pair (htext : text.toList = a.toList ++ ' ' :: b.toList) (ha : IsName a.toList)
    (hb : IsCode b.toList) : classify text = .ok (.instruction ⟨a, some b, none⟩) := by
  have hcode : ∀ t ∈ [a.toList, b.toList], IsCode t := by simp [ha.isCode, hb]
  have htokens : tokens (a.toList ++ ' ' :: b.toList) = [a.toList, b.toList] := by
    simpa using tokens_intercalate hcode
  rw [classify_eq_instruction_iff, htext]
  exact ⟨a.toList, [b.toList], htokens, ha.getLast?_ne, by simp⟩

end Line

end StackAssembler
