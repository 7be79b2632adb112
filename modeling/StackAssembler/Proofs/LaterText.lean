import StackAssembler.Proofs.MacroPrecedence

/-!
# Text behind a source

What lines behind a source change of its expansion: nothing. A source is expanded line by line, and
a line with the macros before it, so later definitions come too late for it. An error of the source
stays the error, unless it is that of a definition left open, which the later lines may still end.
Errors of the later lines are reported there, also where a definition is looked at only at its end.
-/

namespace StackAssembler

open Text

/-! ### Lines behind others -/

lemma lt_number_of_mem_numberFrom {n : Nat} {texts : List String} {l : SourceLine}
    (h : l ∈ numberFrom (1 + n) texts) : n < l.number := by
  obtain ⟨k, hk⟩ := List.getElem?_of_mem h
  rw [getElem?_numberFrom] at hk
  obtain ⟨text, -, rfl⟩ := Option.map_eq_some_iff.mp hk
  show n < 1 + n + k
  omega

/-- The lines that lines expand to come first where more lines are behind them. -/
lemma expansions_prefix_append (as bs : List SourceLine) :
    expansions as <+: expansions (as ++ bs) :=
  ⟨_, (collect_append as bs).symm⟩

namespace Expander

variable {n : Nat} {x y : Expander} {l : SourceLine} {ls : List SourceLine} {e : MacroError}

/-! ### Errors of later lines -/

/-- The definition that is open, if there is one, was begun behind the line with the given
number. -/
def OpenedBehind (n : Nat) (x : Expander) : Prop := ∀ m ∈ x.pending, n < m.line

lemma OpenedBehind.step (hx : x.OpenedBehind n) (hl : n < l.number) (h : x.step l = .ok y) :
    y.OpenedBehind n := by
  rcases step_eq_ok_iff.mp h with ⟨m, hd, -, hm, rfl⟩ | ⟨m, table, -, -, -, rfl⟩ |
    ⟨m, -, hp, rfl⟩ | ⟨texts, -, -, -, rfl⟩
  · obtain ⟨name, arity, -, rfl⟩ := (ofHeader?_eq_some_iff hd).mp hm
    rintro m ⟨⟩
    exact hl
  · rintro m ⟨⟩
  · rintro m' ⟨⟩
    exact hx m hp
  · exact hx

/-- An error is reported at the line, or at the header of the definition that is open. -/
lemma OpenedBehind.lt_line (hx : x.OpenedBehind n) (hl : n < l.number) (h : x.step l = .error e) :
    n < e.line := by
  rcases step_eq_error_iff.mp h with ⟨m, -, -, rfl⟩ | ⟨-, -, -, rfl⟩ | ⟨-, -, rfl⟩ |
    ⟨m, f, -, hp, -, rfl⟩ | ⟨f, -, -, -, rfl⟩
  · exact hl
  · exact hl
  · exact hl
  · exact hx m hp
  · exact hl

lemma OpenedBehind.stepAll (hx : x.OpenedBehind n) (hls : ∀ l ∈ ls, n < l.number)
    (h : x.stepAll ls = .ok y) : y.OpenedBehind n := by
  induction ls generalizing x with
  | nil =>
    cases h
    exact hx
  | cons l ls ih =>
    rw [List.forall_mem_cons] at hls
    obtain ⟨z, hz, hy⟩ := bind_eq_ok_iff.mp h
    exact ih (hx.step hls.1 hz) hls.2 hy

lemma OpenedBehind.lt_line_of_stepAll (hx : x.OpenedBehind n) (hls : ∀ l ∈ ls, n < l.number)
    (h : x.stepAll ls = .error e) : n < e.line := by
  induction ls generalizing x with
  | nil => cases h
  | cons l ls ih =>
    rw [List.forall_mem_cons] at hls
    rcases bind_eq_error_iff.mp h with herror | ⟨z, hz, herror⟩
    · exact hx.lt_line hls.1 herror
    · exact ih (hx.step hls.1 hz) hls.2 herror

end Expander

/-! ### Expansions of longer sources -/

section Sources

variable {a : String} {x y : Expansion} {e : MacroError}

/-- An error that is not that of a definition left open comes from a line. -/
lemma stepAll_eq_error_of_expand (h : expand a = .error e)
    (he : ∀ name, e.fault ≠ .unterminated name) :
    Expander.start.stepAll (sourceLines a) = .error e := by
  rcases expand_eq_error_iff.mp h with herror | ⟨m, -, -, rfl⟩
  · exact herror
  · exact absurd rfl (he m.name)

lemma expand_append_eq_error (ha : ∀ c ∈ a.toList.getLast?, c = '\n') (b : String)
    (h : expand a = .error e) (he : ∀ name, e.fault ≠ .unterminated name) :
    expand (a ++ b) = .error e := by
  refine expand_eq_error_iff.mpr (Or.inl ?_)
  rw [sourceLines_append_numberFrom ha, Expander.stepAll_append, stepAll_eq_error_of_expand h he]
  rfl

/-- The lines of an expansion come first in that of a longer source. -/
lemma lines_prefix_of_expand (ha : ∀ c ∈ a.toList.getLast?, c = '\n') {b : String}
    (hx : expand a = .ok x) (hy : expand (a ++ b) = .ok y) : x.lines.toList <+: y.lines.toList := by
  obtain ⟨-, -, rfl⟩ := expand_eq_ok_iff.mp hx
  obtain ⟨-, -, rfl⟩ := expand_eq_ok_iff.mp hy
  rw [sourceLines_append_numberFrom ha]
  exact expansions_prefix_append _ _

lemma exists_text_eq_append (h : x.lines.toList <+: y.lines.toList) (hne : x.lines ≠ #[]) :
    ∃ rest, y.text = x.text ++ rest := by
  obtain ⟨later, hlines⟩ := h
  refine ⟨endLines (later.map SourceLine.text), ?_⟩
  rw [Expansion.text, ← hlines, List.map_append]
  exact joinLines_append (by simpa using hne) _

/-- The error of a longer source whose first lines are expanded is reported behind them. -/
lemma lt_line_of_expand (ha : ∀ c ∈ a.toList.getLast?, c = '\n') {b : String}
    (hx : expand a = .ok x) (he : expand (a ++ b) = .error e) : (linesOf a).length < e.line := by
  obtain ⟨hall, hclosed, -⟩ := expand_eq_ok_iff.mp hx
  -- no definition is open where the later lines begin
  have hopened : (Expander.ofLines (sourceLines a)).OpenedBehind (linesOf a).length := by
    intro m hm
    cases hclosed.symm.trans hm
  have hnumbers : ∀ l ∈ numberFrom (1 + (linesOf a).length) (linesOf b),
      (linesOf a).length < l.number :=
    fun l hl => lt_number_of_mem_numberFrom hl
  rw [expand, sourceLines_append_numberFrom ha, Expander.stepAll_append, hall] at he
  rcases bind_eq_error_iff.mp he with herror | ⟨z, hz, hfinish⟩
  · exact hopened.lt_line_of_stepAll hnumbers herror
  · have hz := hopened.stepAll hnumbers hz
    unfold Expander.finish at hfinish
    split at hfinish
    · next m hm =>
      cases hfinish
      exact hz m hm
    · cases hfinish

end Sources

/-- Later text never changes the expansion of earlier text. Let a source be empty or end in a line
feed. Its error stays the error of every longer source, unless it is that of a definition left open.
Where both are expanded, the origins of its lines come first in those of the longer source, and so
does its text if it has lines. Where only the source itself is expanded, the error is reported
behind its last line. -/
theorem expand_append {a : String} (ha : a = "" ∨ a.toList.getLast? = some '\n') (b : String) :
    (∀ e, expand a = .error e → (∀ name, e.fault ≠ .unterminated name) →
      expand (a ++ b) = .error e) ∧
    (∀ x y, expand a = .ok x → expand (a ++ b) = .ok y →
      x.lines.toList.map SourceLine.number <+: y.lines.toList.map SourceLine.number ∧
      (x.lines ≠ #[] → ∃ rest, y.text = x.text ++ rest)) ∧
    ∀ x e, expand a = .ok x → expand (a ++ b) = .error e → (linesOf a).length < e.line := by
  have hlast : ∀ c ∈ a.toList.getLast?, c = '\n' := by
    intro c hc
    rcases ha with rfl | ha
    · cases hc
    · exact Option.some.inj (hc.symm.trans ha)
  refine ⟨?_, ?_, ?_⟩
  · intro e he hfault
    exact expand_append_eq_error hlast b he hfault
  · intro x y hx hy
    have hlines := lines_prefix_of_expand hlast hx hy
    exact ⟨hlines.map SourceLine.number, exists_text_eq_append hlines⟩
  · intro x e hx he
    exact lt_line_of_expand hlast hx he

/-- A macro is defined behind a line that its name stands on, a stray placeholder is found before
more text, and a name is defined again, which is found at the end of its definition and reported at
its header. -/
theorem expand_append_late_definitions :
    expand "PUSH 1\n" = .ok ⟨#[⟨1, "PUSH 1"⟩]⟩ ∧
    (∃ y rest, expand ("PUSH 1\n" ++ "%macro PUSH 1\nLIT %1\n%endmacro\nPUSH 2") = .ok y ∧
      [1] <+: y.lines.toList.map SourceLine.number ∧ y.text = "PUSH 1\n" ++ rest) ∧
    expand ("%macro A 1\nLIT %2\n%endmacro\n" ++ "A 1") =
      .error ⟨1, .placeholder "A" "2"⟩ ∧
    (linesOf "%macro A 0\n%endmacro\n").length < 3 ∧
    expand ("%macro A 0\n%endmacro\n" ++ "%macro A 0\nOUT\n%endmacro") =
      .error ⟨3, .duplicate "A"⟩ := by
  have hplain : expand "PUSH 1\n" = .ok ⟨#[⟨1, "PUSH 1"⟩]⟩ := by decide +kernel
  have hlonger : expand ("PUSH 1\n" ++ "%macro PUSH 1\nLIT %1\n%endmacro\nPUSH 2") =
      .ok ⟨#[⟨1, "PUSH 1"⟩, ⟨5, "LIT 2"⟩]⟩ := by
    decide +kernel
  have hstray : expand "%macro A 1\nLIT %2\n%endmacro\n" = .error ⟨1, .placeholder "A" "2"⟩ := by
    decide +kernel
  have hdefined : expand "%macro A 0\n%endmacro\n" = .ok ⟨#[]⟩ := by decide +kernel
  have hagain : expand ("%macro A 0\n%endmacro\n" ++ "%macro A 0\nOUT\n%endmacro") =
      .error ⟨3, .duplicate "A"⟩ := by
    decide +kernel
  obtain ⟨-, hprefix, -⟩ := expand_append (a := "PUSH 1\n") (Or.inr (by decide))
    "%macro PUSH 1\nLIT %1\n%endmacro\nPUSH 2"
  obtain ⟨hkeeps, -, -⟩ := expand_append (a := "%macro A 1\nLIT %2\n%endmacro\n")
    (Or.inr (by decide)) "A 1"
  obtain ⟨-, -, hbehind⟩ := expand_append (a := "%macro A 0\n%endmacro\n") (Or.inr (by decide))
    "%macro A 0\nOUT\n%endmacro"
  obtain ⟨hnumbers, htext⟩ := hprefix _ _ hplain hlonger
  obtain ⟨rest, hrest⟩ := htext (by simp)
  refine ⟨hplain, ⟨_, rest, hlonger, hnumbers, ?_⟩, ?_, ?_, hagain⟩
  · rw [hrest]
    rfl
  · exact hkeeps _ hstray (by simp)
  · exact hbehind _ _ hdefined hagain

end StackAssembler
