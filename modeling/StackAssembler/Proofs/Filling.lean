import Mathlib.Data.List.Forall2
import StackAssembler.Proofs.MacroCalls
import StackAssembler.Proofs.MacroSource
import StackAssembler.Proofs.Tokens

/-!
# Filling in templates

What the code of a body line becomes when it is filled in with arguments, said of the text from left
to right: a percent sign with digits behind it takes all of them and is replaced by the argument
that they number; any other character is copied. Text that was put in is not looked at again. A
macro that was accepted is filled in like this with any arguments, if they are as many as it takes,
so no placeholder is ever left without an argument. The arguments of an invocation have no gaps and
are not empty, so they neither part the pieces of a line nor make any vanish.
-/

namespace StackAssembler

open Text

/-! ### Texts with their placeholders replaced -/

namespace Template

/-- A text becomes another one when its placeholders are replaced, which have the given digits. -/
inductive Fills (args : List String) : List Char → List (List Char) → List Char → Prop where
  | nil : Fills args [] [] []
  /-- A percent sign and the longest run of digits behind it. Arguments are counted from one. -/
  | argument {digits rest out : List Char} {found : List (List Char)} {n : Nat} {a : String}
      (hne : digits ≠ []) (hdigits : ∀ d ∈ digits, isScriptDigit d = true)
      (hend : ∀ d ∈ rest.head?, isScriptDigit d = false)
      (hcount : count? digits = some (n + 1)) (harg : args[n]? = some a)
      (h : Fills args rest found out) :
      Fills args ('%' :: (digits ++ rest)) (digits :: found) (a.toList ++ out)
  /-- A character that begins no placeholder. -/
  | char {c : Char} {rest out : List Char} {found : List (List Char)}
      (hc : c = '%' → ∀ d ∈ rest.head?, isScriptDigit d = false)
      (h : Fills args rest found out) :
      Fills args (c :: rest) found (c :: out)

/-! ### The parts of a template from left to right -/

section Pieces

variable {digits rest : List Char}

lemma scan_eq_of_head? (h : ∀ d ∈ rest.head?, isScriptDigit d = false) :
    scan rest = ([], pieces rest) := by
  have hnone : (scan rest).1 = [] := by
    cases rest with
    | nil => rfl
    | cons c rest =>
      have hc : isScriptDigit c = false := h c rfl
      simp only [scan, hc, Bool.false_eq_true, if_false]
      split <;> rfl
  refine Prod.ext hnone ?_
  simp [pieces, hnone]

lemma scan_append (hdigits : ∀ d ∈ digits, isScriptDigit d = true)
    (hend : ∀ d ∈ rest.head?, isScriptDigit d = false) :
    scan (digits ++ rest) = (digits, pieces rest) := by
  induction digits with
  | nil => exact scan_eq_of_head? hend
  | cons d digits ih =>
    rw [List.forall_mem_cons] at hdigits
    simp [scan, ih hdigits.2, hdigits.1]

lemma pieces_placeholder (hne : digits ≠ []) (hdigits : ∀ d ∈ digits, isScriptDigit d = true)
    (hend : ∀ d ∈ rest.head?, isScriptDigit d = false) :
    pieces ('%' :: (digits ++ rest)) = .placeholder digits :: pieces rest := by
  have hpercent : isScriptDigit '%' = false := by decide
  simp [pieces, scan, scan_append hdigits hend, hpercent, hne]

lemma pieces_char {c : Char} (hc : c = '%' → ∀ d ∈ rest.head?, isScriptDigit d = false) :
    pieces (c :: rest) = .char c :: pieces rest := by
  rw [pieces, scan]
  cases hdigit : isScriptDigit c with
  | true => simp [pieces]
  | false =>
    by_cases h : c = '%'
    · simp [scan_eq_of_head? (hc h)]
    · simp [h, pieces]

/-- To prove something of all texts, prove it of a text from what is behind its first part. -/
@[elab_as_elim]
lemma reading_induction {P : List Char → Prop} (nil : P [])
    (placeholder : ∀ digits rest, digits ≠ [] → (∀ d ∈ digits, isScriptDigit d = true) →
      (∀ d ∈ rest.head?, isScriptDigit d = false) → P rest → P ('%' :: (digits ++ rest)))
    (char : ∀ c rest, (c = '%' → ∀ d ∈ rest.head?, isScriptDigit d = false) → P rest →
      P (c :: rest))
    (cs : List Char) : P cs := by
  induction hlength : cs.length using Nat.strong_induction_on generalizing cs with
  | h n ih =>
    cases cs with
    | nil => exact nil
    | cons c cs =>
      rw [List.length_cons] at hlength
      by_cases hc : c = '%' → ∀ d ∈ cs.head?, isScriptDigit d = false
      · exact char c cs hc (ih cs.length (by omega) cs rfl)
      · obtain ⟨rfl, d, hd, hdigit⟩ : c = '%' ∧ ∃ d ∈ cs.head?, isScriptDigit d = true := by
          simpa using hc
        obtain ⟨ds, rfl⟩ := List.head?_eq_some_iff.mp hd
        have hsplit := List.takeWhile_append_dropWhile (p := isScriptDigit) (l := d :: ds)
        have hrest : ((d :: ds).dropWhile isScriptDigit).length < n := by
          have := List.length_dropWhile_le isScriptDigit (d :: ds)
          omega
        rw [← hsplit]
        refine placeholder _ _ (by simp [hdigit]) (fun _ h => List.mem_takeWhile_imp h) ?_
          (ih _ hrest _ rfl)
        intro e he
        have hstop := List.head?_dropWhile_not isScriptDigit (d :: ds)
        rwa [Option.mem_def.mp he] at hstop

end Pieces

/-! ### What a template becomes -/

section Fills

variable {args : List String} {cs out : List Char} {found : List (List Char)}

lemma Piece.digits?_placeholder (digits : List Char) :
    (Piece.placeholder digits).digits? = some digits := rfl

lemma Piece.digits?_char (c : Char) : (Piece.char c).digits? = none := rfl

lemma Piece.fill_of_argument {digits : List Char} {n : Nat} {a : String}
    (hcount : count? digits = some (n + 1)) (harg : args[n]? = some a) :
    fill args (.placeholder digits) = a.toList := by
  simp [fill, hcount, harg]

/-- A template whose placeholders all number an argument becomes what it is filled in to. -/
lemma fills_pieces (h : ∀ digits ∈ (pieces cs).filterMap Piece.digits?,
      ∃ n a, count? digits = some (n + 1) ∧ args[n]? = some a) :
    Fills args cs ((pieces cs).filterMap Piece.digits?)
      ((pieces cs).flatMap (Piece.fill args)) := by
  induction cs using reading_induction with
  | nil => exact .nil
  | placeholder digits rest hne hdigits hend ih =>
    rw [pieces_placeholder hne hdigits hend,
      List.filterMap_cons_some (Piece.digits?_placeholder digits)] at h ⊢
    rw [List.forall_mem_cons] at h
    obtain ⟨⟨n, a, hcount, harg⟩, h⟩ := h
    rw [List.flatMap_cons, Piece.fill_of_argument hcount harg]
    exact .argument hne hdigits hend hcount harg (ih h)
  | char c rest hc ih =>
    rw [pieces_char hc, List.filterMap_cons_none (Piece.digits?_char c)] at h ⊢
    exact .char hc (ih h)

/-- There is one way to read a template, and so one text that it becomes. -/
lemma Fills.eq_pieces (h : Fills args cs found out) :
    found = (pieces cs).filterMap Piece.digits? ∧
      out = (pieces cs).flatMap (Piece.fill args) := by
  induction h with
  | nil => exact ⟨rfl, rfl⟩
  | argument hne hdigits hend hcount harg h ih =>
    obtain ⟨rfl, rfl⟩ := ih
    rw [pieces_placeholder hne hdigits hend, List.flatMap_cons,
      Piece.fill_of_argument hcount harg]
    exact ⟨rfl, rfl⟩
  | char hc h ih =>
    obtain ⟨rfl, rfl⟩ := ih
    rw [pieces_char hc]
    exact ⟨rfl, rfl⟩

end Fills

/-! ### Pieces of a text with its placeholders replaced -/

lemma isGap_eq_false_of_isScriptDigit {c : Char} (h : isScriptDigit c = true) :
    isGap c = false := by
  have hne : ∀ d, isScriptDigit d = false → c ≠ d := by
    rintro d hd rfl
    rw [h] at hd
    cases hd
  simp [isGap, hne ' ' (by decide), hne '\t' (by decide)]

lemma isToken_placeholder {digits : List Char} (h : ∀ d ∈ digits, isScriptDigit d = true) :
    IsToken ('%' :: digits) := by
  refine ⟨List.cons_ne_nil _ _, List.forall_mem_cons.mpr ⟨rfl, fun d hd => ?_⟩⟩
  exact isGap_eq_false_of_isScriptDigit (h d hd)

/-- The first piece begins as the text does, unless it is empty, and characters in front of the text
that part nothing belong to it. -/
lemma exists_splitOnP_eq_cons (p : Char → Bool) (cs : List Char) :
    ∃ first rest, cs.splitOnP p = first :: rest ∧ (∀ d ∈ first.head?, d ∈ cs.head?) ∧
      ∀ front, (∀ c ∈ front, p c = false) →
        (front ++ cs).splitOnP p = (front ++ first) :: rest := by
  obtain ⟨first, rest, hsplit⟩ := List.exists_cons_of_ne_nil (List.splitOnP_ne_nil p cs)
  refine ⟨first, rest, hsplit, ?_, fun front hfront => ?_⟩
  · cases cs with
    | nil =>
      obtain ⟨rfl, -⟩ := List.cons.inj (hsplit.symm.trans List.splitOnP_nil)
      simp
    | cons c cs =>
      obtain ⟨second, others, hothers⟩ := List.exists_cons_of_ne_nil (List.splitOnP_ne_nil p cs)
      rw [List.splitOnP_cons_eq_if_modifyHead, hothers] at hsplit
      split_ifs at hsplit
      · obtain ⟨rfl, -⟩ := List.cons.inj hsplit
        simp
      · obtain ⟨rfl, -⟩ := List.cons.inj hsplit
        simp
  · induction front with
    | nil => exact hsplit
    | cons c front ih =>
      rw [List.forall_mem_cons] at hfront
      rw [List.cons_append, List.splitOnP_cons_eq_if_modifyHead, if_neg (by simp [hfront.1]),
        ih hfront.2]
      rfl

/-- Pieces that correspond still do with corresponding texts in front of the first. -/
lemma forall₂_splitOnP_append {R : List Char → List Char → Prop} {p : Char → Bool}
    {front front' cs cs' : List Char} (hfront : ∀ c ∈ front, p c = false)
    (hfront' : ∀ c ∈ front', p c = false)
    (hR : ∀ first first', (∀ d ∈ first.head?, d ∈ cs.head?) → R first first' →
      R (front ++ first) (front' ++ first'))
    (h : List.Forall₂ R (cs.splitOnP p) (cs'.splitOnP p)) :
    List.Forall₂ R ((front ++ cs).splitOnP p) ((front' ++ cs').splitOnP p) := by
  obtain ⟨first, rest, hsplit, hhead, happend⟩ := exists_splitOnP_eq_cons p cs
  obtain ⟨first', rest', hsplit', -, happend'⟩ := exists_splitOnP_eq_cons p cs'
  rw [hsplit, hsplit', List.forall₂_cons] at h
  rw [happend front hfront, happend' front' hfront', List.forall₂_cons]
  exact ⟨hR first first' hhead h.1, h.2⟩

end Template

/-- A text that can be an argument: it is not empty and has no space, tab or comma. -/
def IsArgument (a : String) : Prop := a ≠ "" ∧ ∀ c ∈ a.toList, isGap c = false ∧ c ≠ ','

lemma IsArgument.isToken {a : String} (h : IsArgument a) : IsToken a.toList :=
  ⟨by simpa using h.1, fun c hc => (h.2 c hc).1⟩

namespace Template.Fills

variable {args : List String} {cs out : List Char} {found : List (List Char)}

/-- Arguments that are not empty leave no text empty that is not. -/
lemma eq_nil_iff (hargs : ∀ a ∈ args, IsArgument a) (h : Fills args cs found out) :
    out = [] ↔ cs = [] := by
  cases h with
  | nil => simp
  | argument hne hdigits hend hcount harg h =>
    have ha := (hargs _ (List.mem_of_getElem? harg)).1
    simp [ha]
  | char hc h => simp

/-- Arguments without gaps do not part a piece, so each piece of a text is filled in by itself. -/
lemma forall₂_splitOnP (hargs : ∀ a ∈ args, IsArgument a) (h : Fills args cs found out) :
    List.Forall₂ (fun piece text => ∃ found, Fills args piece found text)
      (cs.splitOnP isGap) (out.splitOnP isGap) := by
  induction h with
  | nil => exact .cons ⟨[], .nil⟩ .nil
  | @argument digits rest out found n a hne hdigits hend hcount harg h ih =>
    have htoken := (hargs a (List.mem_of_getElem? harg)).isToken
    refine forall₂_splitOnP_append (isToken_placeholder hdigits).2 htoken.2 ?_ ih
    rintro first first' hhead ⟨found, hfirst⟩
    exact ⟨_, .argument hne hdigits (fun d hd => hend d (hhead d hd)) hcount harg hfirst⟩
  | @char c rest out found hc h ih =>
    cases hgap : isGap c with
    | true =>
      rw [List.splitOnP_cons_eq_if_modifyHead, List.splitOnP_cons_eq_if_modifyHead, if_pos hgap,
        if_pos hgap]
      exact .cons ⟨[], .nil⟩ ih
    | false =>
      have hfront : ∀ d ∈ [c], isGap d = false := by simpa using hgap
      refine forall₂_splitOnP_append hfront hfront ?_ ih
      rintro first first' hhead ⟨found, hfirst⟩
      exact ⟨_, .char (fun heq d hd => hc heq d (hhead d hd)) hfirst⟩

lemma forall₂_pieces (hargs : ∀ a ∈ args, IsArgument a) (h : Fills args cs found out) :
    List.Forall₂ (fun piece text => ∃ found, Fills args piece found text)
      (Text.pieces cs) (Text.pieces out) := by
  refine List.rel_filter ?_ (h.forall₂_splitOnP hargs)
  rintro piece text ⟨found, hpiece⟩
  simp [hpiece.eq_nil_iff hargs]

end Template.Fills

/-! ### Macros -/

/-- The arguments of an invocation are parted by gaps and commas, and empty ones do not count. -/
lemma MacroTable.isArgument_of_invocation? {t : MacroTable} {text : String} {m : Macro}
    {args : List String} (h : t.invocation? text = some (m, args)) : ∀ a ∈ args, IsArgument a := by
  obtain ⟨first, rest, htokens, -, rfl⟩ := invocation?_eq_some_iff.mp h
  intro a ha
  obtain ⟨piece, hpiece, rfl⟩ := List.mem_map.mp ha
  obtain ⟨hpiece, hne⟩ := List.mem_filter.mp hpiece
  obtain ⟨token, htoken, hpiece⟩ := List.mem_flatMap.mp hpiece
  have hcode := isCode_of_mem_tokens (htokens ▸ List.mem_cons_of_mem first htoken)
  refine ⟨by simpa using hne, fun c hc => ?_⟩
  rw [String.toList_ofList] at hc
  obtain ⟨hmem, hcomma⟩ := mem_and_eq_false_of_mem_splitOnP hpiece c hc
  exact ⟨hcode.isToken.2 c hmem, by simpa using hcomma⟩

/-- Every placeholder of a macro without a stray one numbers one of its arguments. -/
lemma Macro.exists_argument {m : Macro} {args : List String} (h : m.strayPlaceholder? = none)
    (hargs : args.length = m.arity) {line : String} (hline : line ∈ m.body) {digits : List Char}
    (hdigits : digits ∈ Template.placeholders line) :
    ∃ n a, count? digits = some (n + 1) ∧ args[n]? = some a := by
  have hnone := List.find?_eq_none.mp h digits (List.mem_flatMap.mpr ⟨line, hline, hdigits⟩)
  rw [Bool.not_eq_true', Bool.not_eq_false, hasArgument, Option.any_eq_true] at hnone
  obtain ⟨n, hcount, hn⟩ := hnone
  rw [Bool.and_eq_true, decide_eq_true_eq, decide_eq_true_eq] at hn
  obtain ⟨k, rfl⟩ := Nat.exists_eq_add_of_le' hn.1
  have hk : k < args.length := by omega
  exact ⟨k, args[k], hcount, List.getElem?_eq_getElem hk⟩

/-- A line of a body is filled in with arguments; its code becomes the given text. -/
structure Template.FillsLine (args : List String) (line filled : String) (out : List Char) :
    Prop where
  /-- The comment is copied. -/
  text : filled.toList = out ++ (splitComment line.toList).2
  /-- The placeholders that are replaced are those that are looked at when a macro is defined. -/
  code : Fills args (splitComment line.toList).1 (placeholders line) out
  /-- The code can be read in no other way. -/
  unique : ∀ found out', Fills args (splitComment line.toList).1 found out' →
    found = placeholders line ∧ out' = out
  /-- The pieces of the code are replaced one by one. -/
  pieces : (∀ a ∈ args, IsArgument a) →
    List.Forall₂ (fun piece text => ∃ found, Fills args piece found text)
        ((splitComment line.toList).1.splitOnP isGap) (out.splitOnP isGap) ∧
      List.Forall₂ (fun piece text => ∃ found, Fills args piece found text)
        (Text.pieces (splitComment line.toList).1) (Text.pieces out)

/-- A macro that was accepted is filled in with any arguments, if they are as many as it takes:
every placeholder in the code of its lines numbers one of them and is replaced by it, all else is
copied, and nothing that was put in is read again. The arguments on a line that invokes the macro
also keep the pieces of the code apart. -/
theorem instantiate_of_define {t t' : MacroTable} {m : Macro} {args : List String}
    (h : t.define m = .ok t') (hargs : args.length = m.arity) :
    List.Forall₂ (fun line filled => ∃ out, Template.FillsLine args line filled out)
      m.body (m.instantiate args) ∧
    ∀ (table : MacroTable) (text : String), table.invocation? text = some (m, args) →
      ∀ a ∈ args, IsArgument a := by
  refine ⟨?_, fun table text => MacroTable.isArgument_of_invocation?⟩
  rw [Macro.instantiate, List.forall₂_map_right_iff, List.forall₂_same]
  intro line hline
  obtain ⟨hstray, -, -⟩ := MacroTable.define_eq_ok_iff.mp h
  have hfills : Template.Fills args _ (Template.placeholders line) _ :=
    Template.fills_pieces fun digits => Macro.exists_argument hstray hargs hline
  exact ⟨_, String.toList_ofList, hfills, fun found out' => Template.Fills.eq_pieces, fun hall =>
    ⟨hfills.forall₂_splitOnP hall, hfills.forall₂_pieces hall⟩⟩

/-- Placeholders side by side and with a zero in front, a percent sign in front of one, an argument
that looks like one, and a comment. -/
theorem instantiate_of_define_adjacent :
    ∃ (m : Macro) (t : MacroTable) (line filled : String) (args : List String),
      m = ⟨"p", 2, [line]⟩ ∧ line = "LIT %1%2 %02x\t%%1 % ; %9" ∧
      MacroTable.empty.define m = .ok t ∧ t.invocation? "p %2, b" = some (m, args) ∧
      args = ["%2", "b"] ∧ (∀ a ∈ args, IsArgument a) ∧
      m.instantiate args = [filled] ∧ filled = "LIT %2b bx\t%%2 % ; %9" ∧
      Template.FillsLine args line filled "LIT %2b bx\t%%2 % ".toList := by
  let line := "LIT %1%2 %02x\t%%1 % ; %9"
  let filled := "LIT %2b bx\t%%2 % ; %9"
  let m : Macro := ⟨"p", 2, [line]⟩
  have hdefine : MacroTable.empty.define m = .ok ⟨[m]⟩ := by decide +kernel
  have hinvocation : (MacroTable.mk [m]).invocation? "p %2, b" = some (m, ["%2", "b"]) := by
    decide +kernel
  have hfilled : m.instantiate ["%2", "b"] = [filled] := by decide +kernel
  have hcount : ["%2", "b"].length = m.arity := rfl
  obtain ⟨hlines, hargs⟩ := instantiate_of_define hdefine hcount
  rw [hfilled] at hlines
  obtain ⟨out, hout⟩ := (List.forall₂_cons.mp hlines).1
  obtain rfl : "LIT %2b bx\t%%2 % ".toList = out := by
    have hcomment : (splitComment line.toList).2 = "; %9".toList := by decide +kernel
    have htext : filled.toList = out ++ "; %9".toList := hcomment ▸ hout.text
    have hends : filled.toList = "LIT %2b bx\t%%2 % ".toList ++ "; %9".toList := by decide +kernel
    exact List.append_cancel_right (hends.symm.trans htext)
  exact ⟨m, _, line, filled, _, rfl, rfl, hdefine, hinvocation, rfl, hargs _ _ hinvocation, hfilled,
    rfl, hout⟩

end StackAssembler
