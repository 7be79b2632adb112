import StackAssembler.Macro.Table
import StackAssembler.Proofs.Scan

/-!
# Macro calls

What a line expands to with the macros of a table, and why it does not, as rules. A line that
invokes no macro stands for itself; an invocation stands for what the lines of the filled-in body
expand to, one after the other. The rules bound the nesting by a depth. `expandLine_eq_ok_iff` and
`expandLine_eq_error_iff` tie them to the expansion that is computed.
-/

namespace StackAssembler.MacroTable

mutual

/-- The lines that a line expands to, with invocations nested at most to the given depth. -/
inductive Expands (t : MacroTable) : Nat → String → List String → Prop where
  | plain {depth : Nat} {text : String} (h : t.invocation? text = none) :
      Expands t depth text [text]
  | call {depth : Nat} {text : String} {m : Macro} {args texts : List String}
      (h : t.invocation? text = some (m, args)) (harity : args.length = m.arity)
      (hbody : ExpandsAll t depth (m.instantiate args) texts) : Expands t (depth + 1) text texts

/-- The lines that several lines expand to one after the other. -/
inductive ExpandsAll (t : MacroTable) : Nat → List String → List String → Prop where
  | nil {depth : Nat} : ExpandsAll t depth [] []
  | cons {depth : Nat} {line : String} {lines texts rest : List String}
      (hline : Expands t depth line texts) (hlines : ExpandsAll t depth lines rest) :
      ExpandsAll t depth (line :: lines) (texts ++ rest)

end

mutual

/-- The fault that is met first in a line, with invocations nested at most to the given depth: an
invocation that is nested too deep, then one with the wrong number of arguments, then what is met
first in the body. -/
inductive Fails (t : MacroTable) : Nat → String → MacroFault → Prop where
  | tooDeep {text : String} {m : Macro} {args : List String}
      (h : t.invocation? text = some (m, args)) : Fails t 0 text .tooDeep
  | arity {depth : Nat} {text : String} {m : Macro} {args : List String}
      (h : t.invocation? text = some (m, args)) (harity : args.length ≠ m.arity) :
      Fails t (depth + 1) text (.arity m.name m.arity args.length)
  | body {depth : Nat} {text : String} {m : Macro} {args : List String} {f : MacroFault}
      (h : t.invocation? text = some (m, args)) (harity : args.length = m.arity)
      (hbody : FailsAmong t depth (m.instantiate args) f) : Fails t (depth + 1) text f

/-- The fault that is met first among several lines: the lines before the faulty one expand. -/
inductive FailsAmong (t : MacroTable) : Nat → List String → MacroFault → Prop where
  | head {depth : Nat} {line : String} {lines : List String} {f : MacroFault}
      (hline : Fails t depth line f) : FailsAmong t depth (line :: lines) f
  | tail {depth : Nat} {line : String} {lines texts : List String} {f : MacroFault}
      (hline : Expands t depth line texts) (hlines : FailsAmong t depth lines f) :
      FailsAmong t depth (line :: lines) f

end

variable {t : MacroTable} {depth : Nat}

/-- A line invokes the macro that its first token names, with what its other tokens hold. -/
lemma invocation?_eq_some_iff {text : String} {m : Macro} {args : List String} :
    t.invocation? text = some (m, args) ↔
      ∃ first rest, Text.tokens text.toList = first :: rest ∧
        t.find? (String.ofList first) = some m ∧ args = arguments rest := by
  rw [invocation?]
  cases Text.tokens text.toList with
  | nil => simp
  | cons first rest => simp [eq_comm (a := args)]

/-- The expansion of several lines, one after the other. -/
def expandLines (t : MacroTable) (depth : Nat) (lines : List String) :
    Except MacroFault (List String) :=
  (lines.mapM (t.expandLine depth)).map List.flatten

@[simp] lemma expandLines_nil : t.expandLines depth [] = .ok [] := rfl

lemma expandLines_cons (line : String) (lines : List String) :
    t.expandLines depth (line :: lines) = t.expandLine depth line >>= fun texts =>
      t.expandLines depth lines >>= fun rest => .ok (texts ++ rest) := by
  rw [expandLines, expandLines, List.mapM_cons]
  cases t.expandLine depth line with
  | error f => rfl
  | ok texts => cases lines.mapM (t.expandLine depth) <;> rfl

/-! ### Equations of the expansion -/

section Equations

variable {text : String} {m : Macro} {args : List String}

lemma expandLine_of_plain (h : t.invocation? text = none) :
    t.expandLine depth text = .ok [text] := by
  cases depth <;> simp [expandLine, h]

lemma expandLine_zero_of_call (h : t.invocation? text = some (m, args)) :
    t.expandLine 0 text = .error .tooDeep := by
  simp [expandLine, h]

lemma expandLine_succ_of_call (h : t.invocation? text = some (m, args)) :
    t.expandLine (depth + 1) text =
      if args.length = m.arity then t.expandLines depth (m.instantiate args)
      else .error (.arity m.name m.arity args.length) := by
  simp [expandLine, h, expandLines]

end Equations

/-! ### What is computed and what the rules say -/

section Inversion

variable {text : String} {m : Macro} {args texts : List String} {f : MacroFault}

lemma expands_iff_of_plain (h : t.invocation? text = none) :
    t.Expands depth text texts ↔ texts = [text] := by
  constructor
  · intro hexpands
    cases hexpands with
    | plain _ => rfl
    | call hsome _ _ => cases h.symm.trans hsome
  · rintro rfl
    exact .plain h

lemma expands_succ_iff_of_call (h : t.invocation? text = some (m, args)) :
    t.Expands (depth + 1) text texts ↔
      args.length = m.arity ∧ t.ExpandsAll depth (m.instantiate args) texts := by
  constructor
  · intro hexpands
    cases hexpands with
    | plain hnone => cases h.symm.trans hnone
    | call hsome harity hbody =>
      cases h.symm.trans hsome
      exact ⟨harity, hbody⟩
  · rintro ⟨harity, hbody⟩
    exact .call h harity hbody

lemma not_fails_of_plain (h : t.invocation? text = none) : ¬ t.Fails depth text f := by
  intro hfails
  cases hfails with
  | tooDeep hsome | arity hsome _ | body hsome _ _ => cases h.symm.trans hsome

lemma fails_succ_iff_of_call (h : t.invocation? text = some (m, args)) :
    t.Fails (depth + 1) text f ↔
      (args.length ≠ m.arity ∧ f = .arity m.name m.arity args.length) ∨
      (args.length = m.arity ∧ t.FailsAmong depth (m.instantiate args) f) := by
  constructor
  · intro hfails
    cases hfails with
    | arity hsome harity =>
      cases h.symm.trans hsome
      exact Or.inl ⟨harity, rfl⟩
    | body hsome harity hbody =>
      cases h.symm.trans hsome
      exact Or.inr ⟨harity, hbody⟩
  · rintro (⟨harity, rfl⟩ | ⟨harity, hbody⟩)
    · exact .arity h harity
    · exact .body h harity hbody

end Inversion

/-- Lines are expanded as the rules say where each one is. -/
lemma expandLines_eq_ok_iff
    (hline : ∀ {text : String} {texts : List String},
      t.expandLine depth text = .ok texts ↔ t.Expands depth text texts)
    {lines texts : List String} :
    t.expandLines depth lines = .ok texts ↔ t.ExpandsAll depth lines texts := by
  induction lines generalizing texts with
  | nil =>
    constructor
    · rintro ⟨⟩
      exact .nil
    · rintro ⟨⟩
      rfl
  | cons line lines ih =>
    rw [expandLines_cons, bind_eq_ok_iff]
    constructor
    · rintro ⟨front, hfront, h⟩
      obtain ⟨rest, hrest, heq⟩ := bind_eq_ok_iff.mp h
      cases heq
      exact .cons (hline.mp hfront) (ih.mp hrest)
    · intro h
      cases h with
      | cons hfront hrest =>
        exact ⟨_, hline.mpr hfront, bind_eq_ok_iff.mpr ⟨_, ih.mpr hrest, rfl⟩⟩

/-- A line is expanded exactly as the rules say. -/
theorem expandLine_eq_ok_iff {text : String} {texts : List String} :
    t.expandLine depth text = .ok texts ↔ t.Expands depth text texts := by
  induction depth generalizing text texts with
  | zero =>
    cases hcall : t.invocation? text with
    | none =>
      rw [expandLine_of_plain hcall, expands_iff_of_plain hcall, Except.ok.injEq, eq_comm]
    | some call =>
      rw [expandLine_zero_of_call hcall]
      constructor
      · rintro ⟨⟩
      · intro h
        cases h with
        | plain hnone => cases hcall.symm.trans hnone
  | succ depth ih =>
    cases hcall : t.invocation? text with
    | none =>
      rw [expandLine_of_plain hcall, expands_iff_of_plain hcall, Except.ok.injEq, eq_comm]
    | some call =>
      rw [expandLine_succ_of_call hcall, expands_succ_iff_of_call hcall,
        ← expandLines_eq_ok_iff ih]
      split_ifs with harity <;> simp [harity]

lemma expandLines_eq_error_iff
    (hline : ∀ {text : String} {f : MacroFault},
      t.expandLine depth text = .error f ↔ t.Fails depth text f)
    {lines : List String} {f : MacroFault} :
    t.expandLines depth lines = .error f ↔ t.FailsAmong depth lines f := by
  induction lines with
  | nil =>
    constructor
    · rintro ⟨⟩
    · rintro ⟨⟩
  | cons line lines ih =>
    rw [expandLines_cons, bind_eq_error_iff, hline]
    constructor
    · rintro (hfault | ⟨texts, htexts, h⟩)
      · exact .head hfault
      · rcases bind_eq_error_iff.mp h with hrest | ⟨_, -, hok⟩
        · exact .tail (expandLine_eq_ok_iff.mp htexts) (ih.mp hrest)
        · cases hok
    · intro h
      cases h with
      | head hfault => exact Or.inl hfault
      | tail htexts hrest =>
        refine Or.inr ⟨_, expandLine_eq_ok_iff.mpr htexts, ?_⟩
        exact bind_eq_error_iff.mpr (Or.inl (ih.mpr hrest))

/-- A line fails to expand exactly with the fault that the rules give. -/
theorem expandLine_eq_error_iff {text : String} {f : MacroFault} :
    t.expandLine depth text = .error f ↔ t.Fails depth text f := by
  induction depth generalizing text f with
  | zero =>
    cases hcall : t.invocation? text with
    | none => simp [expandLine_of_plain hcall, not_fails_of_plain hcall]
    | some call =>
      rw [expandLine_zero_of_call hcall]
      constructor
      · rintro ⟨⟩
        exact .tooDeep hcall
      · rintro ⟨⟩
        rfl
  | succ depth ih =>
    cases hcall : t.invocation? text with
    | none => simp [expandLine_of_plain hcall, not_fails_of_plain hcall]
    | some call =>
      rw [expandLine_succ_of_call hcall, fails_succ_iff_of_call hcall,
        ← expandLines_eq_error_iff ih]
      split_ifs with harity <;> simp [harity, eq_comm]

end StackAssembler.MacroTable
