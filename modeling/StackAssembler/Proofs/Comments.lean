import StackAssembler.Proofs.Filling
import StackAssembler.Proofs.MacroSemantics

/-!
# Comments of filled-in lines

Where the comment of a body line begins once the line is filled in with the arguments of an
invocation. Arguments have no gaps and are not empty, so a comment of the body stays where it was,
and inside a token an argument may hold anything. A placeholder at the start of a token is another
matter: the tokens of an invocation open no comment, but they are cut again at commas, so an
argument that was written behind a comma can open one.
-/

namespace StackAssembler

open Text

/-! ### Where a comment begins -/

namespace Text

variable {start : Bool} {cs code comment token : List Char}

lemma splitCommentFrom_cons_eq_iff {c : Char} :
    splitCommentFrom start (c :: cs) = (c :: code, comment) ↔
      (start && opensComment c) = false ∧ splitCommentFrom (isGap c) cs = (code, comment) := by
  rw [splitCommentFrom]
  cases h : start && opensComment c with
  | true => simp
  | false => simp [Prod.ext_iff]

/-- Behind a text a token may start where the last character is a gap. -/
lemma elim_getLast?_cons (c : Char) (front : List Char) :
    (c :: front).getLast?.elim start isGap = front.getLast?.elim (isGap c) isGap := by
  rw [List.getLast?_cons]
  cases front.getLast? <;> rfl

/-- No comment begins inside a token. -/
lemma splitCommentFrom_append_eq_iff (h : ∀ c ∈ token, isGap c = false) :
    splitCommentFrom false (token ++ cs) = (token ++ code, comment) ↔
      splitCommentFrom false cs = (code, comment) := by
  induction token with
  | nil => rfl
  | cons c token ih =>
    rw [List.forall_mem_cons] at h
    rw [List.cons_append, List.cons_append, splitCommentFrom_cons_eq_iff, h.1, ih h.2]
    simp

/-- A token is code unless it stands where a token may start and opens a comment. -/
lemma splitCommentFrom_token_append_eq_iff (h : IsToken token) :
    splitCommentFrom start (token ++ cs) = (token ++ code, comment) ↔
      (start && token.head?.any opensComment) = false ∧
        splitCommentFrom false cs = (code, comment) := by
  obtain ⟨c, token, rfl⟩ := List.exists_cons_of_ne_nil h.1
  have hgap := List.forall_mem_cons.mp h.2
  rw [List.cons_append, List.cons_append, splitCommentFrom_cons_eq_iff, hgap.1,
    splitCommentFrom_append_eq_iff hgap.2]
  rfl

/-- The pieces of a text are parts of it: the first is what it begins with, and each other piece
stands right behind a character that parts them. -/
lemma prefix_of_splitOnP_eq_cons {p : Char → Bool} {first : List Char} {rest : List (List Char)}
    (h : cs.splitOnP p = first :: rest) :
    first <+: cs ∧ ∀ piece ∈ rest, ∃ front d, p d = true ∧ front ++ d :: piece <+: cs := by
  induction cs generalizing first rest with
  | nil =>
    obtain ⟨rfl, rfl⟩ := List.cons.inj (List.splitOnP_nil.symm.trans h)
    simp
  | cons c cs ih =>
    obtain ⟨second, others, hothers⟩ := List.exists_cons_of_ne_nil (List.splitOnP_ne_nil p cs)
    obtain ⟨hsecond, hbehind⟩ := ih hothers
    have hcons : ∀ piece ∈ others, ∃ front d, p d = true ∧ front ++ d :: piece <+: c :: cs := by
      intro piece hpiece
      obtain ⟨front, d, hd, hprefix⟩ := hbehind piece hpiece
      exact ⟨c :: front, d, hd, (List.prefix_cons_inj c).mpr hprefix⟩
    rw [List.splitOnP_cons_eq_if_modifyHead, hothers] at h
    split_ifs at h with hc
    · obtain ⟨rfl, rfl⟩ := List.cons.inj h
      refine ⟨List.nil_prefix, List.forall_mem_cons.mpr ⟨⟨[], c, hc, ?_⟩, hcons⟩⟩
      exact (List.prefix_cons_inj c).mpr hsecond
    · obtain ⟨rfl, rfl⟩ := List.cons.inj h
      exact ⟨(List.prefix_cons_inj c).mpr hsecond, hcons⟩

end Text

/-! ### Placeholders that open a comment -/

namespace Template

/-- A placeholder at the start of a token stands for an argument that opens a comment. The flag says
that the text begins where a token may start. -/
def OpensComment (args : List String) (start : Bool) (cs : List Char) : Prop :=
  ∃ front rest digits, cs = front ++ rest ∧ front.getLast?.elim start isGap = true ∧
    (pieces rest).head? = some (.placeholder digits) ∧
    (Piece.fill args (.placeholder digits)).head?.any Text.opensComment = true

section OpensComment

variable {args : List String} {start : Bool} {digits rest : List Char}

lemma not_opensComment_nil : ¬ OpensComment args start [] := by
  rintro ⟨front, rest, digits, hnil, -, hhead, -⟩
  obtain ⟨-, rfl⟩ := List.append_eq_nil_iff.mp hnil.symm
  cases hhead

lemma opensComment_cons_iff {c : Char} :
    OpensComment args start (c :: rest) ↔
      (start = true ∧ ∃ digits, (pieces (c :: rest)).head? = some (.placeholder digits) ∧
        (Piece.fill args (.placeholder digits)).head?.any Text.opensComment = true) ∨
      OpensComment args (isGap c) rest := by
  constructor
  · rintro ⟨front, behind, digits, happend, hstart, hhead, hopens⟩
    cases front with
    | nil =>
      subst happend
      exact .inl ⟨hstart, digits, hhead, hopens⟩
    | cons d front =>
      obtain ⟨rfl, rfl⟩ := List.cons.inj happend
      exact .inr ⟨front, behind, digits, rfl, elim_getLast?_cons c front ▸ hstart, hhead, hopens⟩
  · rintro (⟨hstart, digits, hhead, hopens⟩ | ⟨front, behind, digits, rfl, hstart, hhead, hopens⟩)
    · exact ⟨[], c :: rest, digits, rfl, hstart, hhead, hopens⟩
    · exact ⟨c :: front, behind, digits, rfl, elim_getLast?_cons c front ▸ hstart, hhead, hopens⟩

lemma opensComment_char_iff {c : Char} (hc : c = '%' → ∀ d ∈ rest.head?, isScriptDigit d = false) :
    OpensComment args start (c :: rest) ↔ OpensComment args (isGap c) rest := by
  simp [opensComment_cons_iff, pieces_char hc]

lemma opensComment_digits_append_iff (hdigits : ∀ d ∈ digits, isScriptDigit d = true) :
    OpensComment args false (digits ++ rest) ↔ OpensComment args false rest := by
  induction digits with
  | nil => rfl
  | cons d digits ih =>
    rw [List.forall_mem_cons] at hdigits
    have hpercent : d ≠ '%' := by
      rintro rfl
      exact absurd hdigits.1 (by decide)
    rw [List.cons_append, opensComment_char_iff (absurd · hpercent),
      isGap_eq_false_of_isScriptDigit hdigits.1, ih hdigits.2]

lemma opensComment_placeholder_iff {n : Nat} {a : String} (hne : digits ≠ [])
    (hdigits : ∀ d ∈ digits, isScriptDigit d = true)
    (hend : ∀ d ∈ rest.head?, isScriptDigit d = false)
    (hcount : count? digits = some (n + 1)) (harg : args[n]? = some a) :
    OpensComment args start ('%' :: (digits ++ rest)) ↔
      (start = true ∧ a.toList.head?.any Text.opensComment = true) ∨
        OpensComment args false rest := by
  have hgap : isGap '%' = false := rfl
  rw [opensComment_cons_iff, pieces_placeholder hne hdigits hend, hgap,
    opensComment_digits_append_iff hdigits]
  simp [Piece.fill_of_argument hcount harg]

/-- Filling in a text leaves its comment where it was unless a placeholder opens one before it. -/
lemma Fills.splitCommentFrom_eq_iff {cs out comment : List Char} {found : List (List Char)}
    (hargs : ∀ a ∈ args, IsArgument a) (h : Fills args cs found out)
    (hcode : splitCommentFrom start (cs ++ comment) = (cs, comment)) :
    splitCommentFrom start (out ++ comment) = (out, comment) ↔ ¬ OpensComment args start cs := by
  induction h generalizing start with
  | nil => simpa [not_opensComment_nil] using hcode
  | @argument digits rest out found n a hne hdigits hend hcount harg h ih =>
    -- a placeholder and its argument are both tokens, so no token may start right behind them
    have htoken := (hargs a (List.mem_of_getElem? harg)).isToken
    rw [← List.cons_append, List.append_assoc,
      splitCommentFrom_token_append_eq_iff (isToken_placeholder hdigits)] at hcode
    rw [List.append_assoc, splitCommentFrom_token_append_eq_iff htoken, ih hcode.2,
      opensComment_placeholder_iff hne hdigits hend hcount harg]
    simp
  | @char c rest out found hc h ih =>
    rw [List.cons_append, splitCommentFrom_cons_eq_iff] at hcode
    rw [List.cons_append, splitCommentFrom_cons_eq_iff, ih hcode.2, opensComment_char_iff hc]
    simp [hcode.1]

end OpensComment

end Template

/-! ### Invocations of a source -/

namespace MacroTable

variable {t : MacroTable} {text : String} {m : Macro} {args : List String}

lemma exists_invocation?_of_callAt? {path : List Nat} (h : t.callAt? text path = some (m, args)) :
    ∃ line, t.invocation? line = some (m, args) := by
  induction path generalizing text with
  | nil => exact ⟨text, h⟩
  | cons i path ih =>
    rw [callAt?] at h
    split at h
    · cases h
    · split_ifs at h
      obtain ⟨line, -, hline⟩ := Option.bind_eq_some_iff.mp h
      exact ih hline

lemma mem_of_invocation? (h : t.invocation? text = some (m, args)) : m ∈ t.macros := by
  obtain ⟨first, rest, -, hfind, -⟩ := invocation?_eq_some_iff.mp h
  exact List.mem_of_find?_eq_some hfind

/-- An argument that opens a comment is written right behind a comma. -/
lemma exists_comma_of_invocation? (h : t.invocation? text = some (m, args)) {a : String}
    (ha : a ∈ args) (hopens : a.toList.head?.any opensComment = true) :
    ∃ token ∈ tokens text.toList, ∃ front, front ++ ',' :: a.toList <+: token := by
  obtain ⟨first, rest, htokens, -, rfl⟩ := invocation?_eq_some_iff.mp h
  obtain ⟨piece, hpiece, rfl⟩ := List.mem_map.mp ha
  obtain ⟨hpiece, -⟩ := List.mem_filter.mp hpiece
  obtain ⟨token, htoken, hpiece⟩ := List.mem_flatMap.mp hpiece
  have hmem : token ∈ tokens text.toList := htokens ▸ List.mem_cons_of_mem first htoken
  rw [String.toList_ofList] at hopens ⊢
  refine ⟨token, hmem, ?_⟩
  obtain ⟨head, others, hsplit⟩ :=
    List.exists_cons_of_ne_nil (List.splitOnP_ne_nil (· == ',') token)
  obtain ⟨⟨behind, hhead⟩, hbehind⟩ := prefix_of_splitOnP_eq_cons hsplit
  rw [List.splitOn, hsplit] at hpiece
  rcases List.mem_cons.mp hpiece with rfl | hpiece
  · -- the first piece begins as the token does, which opens no comment
    have hcode := (isCode_of_mem_tokens hmem).opensComment
    cases piece with
    | nil => cases hopens
    | cons c piece =>
      rw [← hhead] at hcode
      exact absurd (hcode.symm.trans hopens) (by decide)
  · obtain ⟨front, d, hd, hprefix⟩ := hbehind piece hpiece
    rw [beq_iff_eq.mp hd] at hprefix
    exact ⟨front, hprefix⟩

end MacroTable

namespace Expander

variable {x y : Expander}

/-- A step adds a macro only where every placeholder of it numbers an argument. -/
lemma strayPlaceholder?_of_step {l : SourceLine} (h : x.step l = .ok y)
    (hx : ∀ m ∈ x.table.macros, m.strayPlaceholder? = none) :
    ∀ m ∈ y.table.macros, m.strayPlaceholder? = none := by
  rcases step_eq_ok_iff.mp h with ⟨m, -, -, -, rfl⟩ | ⟨m, table, -, -, hdefine, rfl⟩ |
    ⟨m, -, -, rfl⟩ | ⟨texts, -, -, -, rfl⟩
  · exact hx
  · obtain ⟨hstray, -, rfl⟩ := MacroTable.define_eq_ok_iff.mp hdefine
    exact List.forall_mem_cons.mpr ⟨hstray, hx⟩
  · exact hx
  · exact hx

lemma strayPlaceholder?_of_stepAll {ls : List SourceLine} (h : start.stepAll ls = .ok x) :
    ∀ m ∈ x.table.macros, m.strayPlaceholder? = none := by
  induction ls using List.reverseRecOn generalizing x with
  | nil =>
    cases h
    simp [start, MacroTable.empty]
  | append_singleton ls l ih =>
    obtain ⟨y, hy, hx⟩ := bind_eq_ok_iff.mp ((foldlM_concat ls l).symm.trans h)
    exact strayPlaceholder?_of_step hx (ih hy)

end Expander

/-- While a source is expanded, an invocation is met and accepted. Behind lines that are read stands
a line outside of definitions that leads to it, it is not nested too deep, and it has as many
arguments as the macro takes. Whether the lines before it in the bodies expand is left open. -/
inductive Accepts (source : String) (m : Macro) (args : List String) : Prop where
  | intro {before after : List SourceLine} {l : SourceLine} {x : Expander} {path : List Nat}
      (hlines : sourceLines source = before ++ l :: after)
      (hbefore : Expander.start.stepAll before = .ok x)
      (hplain : l.directive = .plain) (hpending : x.pending = none)
      (hdepth : path.length < maxExpansionDepth)
      (hcall : x.table.callAt? l.text path = some (m, args))
      (harity : args.length = m.arity) : Accepts source m args

/-- Where an invocation is accepted, the comment of a body line stays what it was, and the code of
the line becomes the code that is filled in, exactly where no placeholder at the start of a token
stands for an argument that opens a comment. An argument does so only where it is written right
behind a comma. -/
theorem splitComment_instantiate {source : String} {m : Macro} {args : List String}
    (h : Accepts source m args) :
    List.Forall₂ (fun line filled => ∃ out,
        Template.Fills args (splitComment line.toList).1 (Template.placeholders line) out ∧
        filled.toList = out ++ (splitComment line.toList).2 ∧
        (splitComment filled.toList = (out, (splitComment line.toList).2) ↔
          ¬ Template.OpensComment args true (splitComment line.toList).1))
      m.body (m.instantiate args) ∧
    ∀ (t : MacroTable) (text : String), t.invocation? text = some (m, args) →
      ∀ a ∈ args, a.toList.head?.any opensComment = true →
        ∃ token ∈ tokens text.toList, ∃ front, front ++ ',' :: a.toList <+: token := by
  obtain ⟨-, hbefore, -, -, -, hcall, harity⟩ := h
  obtain ⟨text, htext⟩ := MacroTable.exists_invocation?_of_callAt? hcall
  have hmem := MacroTable.mem_of_invocation? htext
  have hstray := Expander.strayPlaceholder?_of_stepAll hbefore m hmem
  have hargs := MacroTable.isArgument_of_invocation? htext
  refine ⟨?_, fun t text h a => MacroTable.exists_comma_of_invocation? h⟩
  rw [Macro.instantiate, List.forall₂_map_right_iff, List.forall₂_same]
  intro line hline
  have hfills : Template.Fills args _ (Template.placeholders line) _ :=
    Template.fills_pieces fun digits => Macro.exists_argument hstray harity hline
  have htext : (Template.fill args line).toList = _ ++ (splitComment line.toList).2 :=
    String.toList_ofList
  refine ⟨_, hfills, htext, ?_⟩
  rw [htext]
  refine hfills.splitCommentFrom_eq_iff hargs ?_
  rw [splitComment_append]
  rfl

/-- Inside a token an argument may begin with a semicolon; at the start of a token it takes the code
behind it along. The invocation is a line that another body leads to. -/
theorem splitComment_instantiate_inner_call :
    ∃ (source : String) (m : Macro) (args : List String) (inside first : String),
      source = "%macro P 2\nLIT %1%2 ; %1\n %2 LIT # \n%endmacro\n" ++
        "%macro Q 1\nP 4,%1\n%endmacro\nQ ,;x" ∧
      m.body = [inside, first] ∧ args = ["4", ";x"] ∧ Accepts source m args ∧
      m.instantiate args = ["LIT 4;x ; %1", " ;x LIT # "] ∧
      ¬ Template.OpensComment args true (splitComment inside.toList).1 ∧
      Template.OpensComment args true (splitComment first.toList).1 := by
  let source := "%macro P 2\nLIT %1%2 ; %1\n %2 LIT # \n%endmacro\n" ++
    "%macro Q 1\nP 4,%1\n%endmacro\nQ ,;x"
  let m : Macro := ⟨"P", 2, ["LIT %1%2 ; %1", " %2 LIT # "]⟩
  let x : Expander := ⟨⟨[⟨"Q", 1, ["P 4,%1"]⟩, m]⟩, none, #[]⟩
  have hlines : sourceLines source = (sourceLines source).take 7 ++ ⟨8, "Q ,;x"⟩ :: [] := by
    decide +kernel
  have hbefore : Expander.start.stepAll ((sourceLines source).take 7) = .ok x := by decide +kernel
  have hcall : x.table.callAt? "Q ,;x" [0] = some (m, ["4", ";x"]) := by decide +kernel
  have haccepts : Accepts source m ["4", ";x"] :=
    .intro hlines hbefore (by decide +kernel) rfl (by decide) hcall rfl
  have hfilled : m.instantiate ["4", ";x"] = ["LIT 4;x ; %1", " ;x LIT # "] := by decide +kernel
  obtain ⟨hbody, -⟩ := splitComment_instantiate haccepts
  rw [hfilled] at hbody
  obtain ⟨⟨out, -, htext, hinside⟩, hbody⟩ := List.forall₂_cons.mp hbody
  obtain ⟨⟨out', -, -, hfirst⟩, -⟩ := List.forall₂_cons.mp hbody
  refine ⟨source, m, _, _, _, rfl, rfl, rfl, haccepts, hfilled, hinside.mp ?_, ?_⟩
  · have hcomment : (splitComment "LIT %1%2 ; %1".toList).2 = "; %1".toList := by decide +kernel
    rw [hcomment] at htext ⊢
    have hout : "LIT 4;x ".toList = out := List.append_cancel_right htext
    rw [← hout]
    decide +kernel
  · by_contra hnot
    obtain ⟨-, hcomment⟩ := Prod.ext_iff.mp (hfirst.mpr hnot)
    have hne : (splitComment " ;x LIT # ".toList).2 ≠ (splitComment " %2 LIT # ".toList).2 := by
      decide +kernel
    exact hne hcomment

/-- A number sign behind a comma takes the operand of an instruction away, although the line of the
body has no comment. -/
theorem splitComment_instantiate_lost_operand :
    ∃ (source : String) (m : Macro) (args : List String) (line filled : String) (out : List Char),
      source = "%macro A 1\nLIT %1\n%endmacro\nA ,#5\n" ∧ Accepts source m args ∧
      m.body = [line] ∧ m.instantiate args = [filled] ∧
      Template.Fills args (splitComment line.toList).1 (Template.placeholders line) out ∧
      splitComment line.toList = (line.toList, []) ∧ out = "LIT #5".toList ∧
      splitComment filled.toList = ("LIT ".toList, "#5".toList) ∧
      splitComment filled.toList ≠ (out, (splitComment line.toList).2) := by
  let source := "%macro A 1\nLIT %1\n%endmacro\nA ,#5\n"
  let m : Macro := ⟨"A", 1, ["LIT %1"]⟩
  have hlines : sourceLines source = (sourceLines source).take 3 ++ ⟨4, "A ,#5"⟩ :: [] := by
    decide +kernel
  have hbefore : Expander.start.stepAll ((sourceLines source).take 3) = .ok ⟨⟨[m]⟩, none, #[]⟩ := by
    decide +kernel
  have hcall : (MacroTable.mk [m]).callAt? "A ,#5" [] = some (m, ["#5"]) := by decide +kernel
  have haccepts : Accepts source m ["#5"] :=
    .intro hlines hbefore (by decide +kernel) rfl (by decide) hcall rfl
  have hstray : m.strayPlaceholder? = none := by decide +kernel
  have hargument : ∀ digits ∈ Template.placeholders "LIT %1",
      ∃ n a, count? digits = some (n + 1) ∧ ["#5"][n]? = some a := fun digits =>
    Macro.exists_argument hstray rfl (List.mem_singleton_self "LIT %1")
  have hfills := Template.fills_pieces hargument
  refine ⟨source, m, _, "LIT %1", "LIT #5", _, rfl, haccepts, rfl, ?_, hfills, ?_, ?_, ?_, ?_⟩
  all_goals decide +kernel

end StackAssembler
