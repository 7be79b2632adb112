import StackAssembler.Proofs.LabelTable
import StackAssembler.Proofs.MacroPrecedence

/-!
# Order of definitions

Macro definitions at the start of a source can be written in any order. An expansion asks its table
of macros for nothing but the macro of a name, and tables that were filled with the same macros in
different orders find the same macro under every name. Definitions that change places take up as
many lines as before, so the lines behind them keep their numbers.
-/

namespace StackAssembler

open Text

/-! ### Tables that find the same macros -/

namespace MacroTable

variable {t t' : MacroTable}

/-- Two tables find the same macro under every name. -/
def Agrees (t t' : MacroTable) : Prop := ∀ name, t.find? name = t'.find? name

/-- The order of the macros in a table does not matter where no name is defined twice. -/
lemma agrees_of_perm (hperm : t.macros.Perm t'.macros) (hnodup : t.names.Nodup) : t.Agrees t' := by
  have hnodup' : t'.names.Nodup := (hperm.map Macro.name).nodup_iff.mp hnodup
  intro name
  ext m
  rw [find?, find?, find?_key_eq_some_iff hnodup, find?_key_eq_some_iff hnodup', hperm.mem_iff]

namespace Agrees

lemma invocation? (h : t.Agrees t') (text : String) : t.invocation? text = t'.invocation? text := by
  rw [MacroTable.invocation?, MacroTable.invocation?]
  cases tokens text.toList with
  | nil => rfl
  | cons first rest => simp only [h (String.ofList first)]

/-- Tables that find the same macros expand every line alike. -/
lemma expandLine (h : t.Agrees t') (depth : Nat) (text : String) :
    t.expandLine depth text = t'.expandLine depth text := by
  induction depth generalizing text with
  | zero => rw [MacroTable.expandLine, MacroTable.expandLine, h.invocation? text]
  | succ depth ih =>
    have hlines : t.expandLine depth = t'.expandLine depth := funext ih
    rw [MacroTable.expandLine, MacroTable.expandLine, h.invocation? text, hlines]

/-- Tables that find the same macros take in and refuse the same macros. -/
lemma define (h : t.Agrees t') (m : Macro) :
    Corresponds (· = ·) Agrees (t.define m) (t'.define m) := by
  rw [MacroTable.define, MacroTable.define, ← h m.name]
  cases m.strayPlaceholder? with
  | some digits => exact .error rfl
  | none =>
    dsimp only
    split_ifs
    · exact .error rfl
    · refine .ok fun name => ?_
      have hrest : t.macros.find? (·.name == name) = t'.macros.find? (·.name == name) := h name
      rw [find?, find?, List.find?_cons, List.find?_cons, hrest]

end Agrees

end MacroTable

namespace Expander

variable {x y : Expander}

/-- Two states of an expansion differ only in the order of their macros. -/
structure Agrees (x y : Expander) : Prop where
  table : x.table.Agrees y.table
  pending : x.pending = y.pending
  emitted : x.emitted = y.emitted

lemma Agrees.step (h : x.Agrees y) (l : SourceLine) :
    Corresponds (· = ·) Agrees (x.step l) (y.step l) := by
  rw [Expander.step, Expander.step, ← h.pending]
  cases Directive.ofText l.text with
  | begins =>
    cases x.pending with
    | some m => exact .error rfl
    | none =>
      cases OpenMacro.ofHeader? l with
      | none => exact .error rfl
      | some m => exact .ok ⟨h.table, rfl, h.emitted⟩
  | ends =>
    cases x.pending with
    | none => exact .error rfl
    | some m =>
      have hdefine := h.table.define m.close
      dsimp only
      generalize x.table.define m.close = r, y.table.define m.close = r' at hdefine ⊢
      cases hdefine with
      | error hfault => exact .error (congrArg (MacroError.mk m.line) hfault)
      | ok htable => exact .ok ⟨htable, rfl, h.emitted⟩
  | plain =>
    cases x.pending with
    | some m => exact .ok ⟨h.table, rfl, h.emitted⟩
    | none =>
      rw [h.table.expandLine, h.emitted]
      cases y.table.expandLine maxExpansionDepth l.text with
      | error fault => exact .error rfl
      | ok texts => exact .ok ⟨h.table, rfl, rfl⟩

lemma Agrees.stepAll (h : x.Agrees y) (ls : List SourceLine) :
    Corresponds (· = ·) Agrees (x.stepAll ls) (y.stepAll ls) := by
  have hls : List.Forall₂ (· = ·) ls ls := List.forall₂_same.mpr fun _ _ => rfl
  refine Corresponds.foldlM ?_ hls h
  rintro x y l _ hxy rfl
  exact hxy.step l

lemma Agrees.finish (h : x.Agrees y) : x.finish = y.finish := by
  rw [Expander.finish, Expander.finish, h.pending, h.emitted]

end Expander

/-! ### Complete definitions -/

/-- A complete macro definition as it is written in a source: whole lines, of which the first is the
header, the last ends the definition, and the ones between them are the body. The body holds no
directive, and its placeholders number arguments. -/
structure Definition where
  text : String
  defined : Macro
  ended : text.toList.getLast? = some '\n'
  lines : ∃ header footer, linesOf text = header :: (defined.body ++ [footer]) ∧
    IsHeader header defined.name defined.arity ∧ Directive.ofText footer = .ends
  plain : ∀ line ∈ defined.body, Directive.ofText line = .plain
  placeholders : ∀ digits ∈ defined.body.flatMap Template.placeholders,
    Numbers defined.arity digits

namespace Definition

/-- Definitions one after the other. -/
def sourceOf (ds : List Definition) : String := String.ofList (ds.flatMap fun d => d.text.toList)

/-- The names that definitions define. -/
def names (ds : List Definition) : List String := ds.map fun d => d.defined.name

lemma sourceOf_cons (d : Definition) (ds : List Definition) :
    sourceOf (d :: ds) = d.text ++ sourceOf ds := by
  rw [← String.toList_inj]
  simp [sourceOf]

lemma getLast?_sourceOf (ds : List Definition) : ∀ c ∈ (sourceOf ds).toList.getLast?, c = '\n' := by
  intro c hc
  induction ds with
  | nil => cases hc
  | cons d ds ih =>
    rw [sourceOf_cons, String.toList_append, List.getLast?_append, d.ended] at hc
    cases hlast : (sourceOf ds).toList.getLast? with
    | none =>
      rw [hlast] at hc
      exact (Option.some.inj hc).symm
    | some last =>
      rw [hlast] at hc
      exact ih (hlast.trans hc)

lemma linesOf_sourceOf (ds : List Definition) :
    linesOf (sourceOf ds) = ds.flatMap fun d => linesOf d.text := by
  induction ds with
  | nil => rfl
  | cons d ds ih =>
    have hended : ∀ c ∈ d.text.toList.getLast?, c = '\n' := by
      intro c hc
      exact Option.some.inj (hc.symm.trans d.ended)
    rw [sourceOf_cons, linesOf_append hended, ih, List.flatMap_cons]

/-- Definitions that change places take up as many lines as before. -/
lemma length_linesOf_sourceOf_of_perm {ds ds' : List Definition} (h : ds.Perm ds') :
    (linesOf (sourceOf ds)).length = (linesOf (sourceOf ds')).length := by
  rw [linesOf_sourceOf, linesOf_sourceOf]
  exact (h.flatMap_right _).length_eq

end Definition

/-- A definition whose placeholders number arguments is taken in where its name is new. -/
lemma OpenMacro.define_close {t : MacroTable} {m : OpenMacro} (harity : m.arity < countLimit)
    (hnumbers : ∀ digits ∈ m.placeholders, Numbers m.arity digits) (hname : m.name ∉ t.names) :
    t.define m.close = .ok ⟨m.close :: t.macros⟩ :=
  MacroTable.define_eq_ok_iff.mpr
    ⟨(strayPlaceholder?_close_eq_none_iff harity).mpr hnumbers, hname, rfl⟩

lemma IsHeader.directive_eq_begins {text name : String} {arity : Nat}
    (h : IsHeader text name arity) (n : Nat) : SourceLine.directive ⟨n, text⟩ = .begins := by
  obtain ⟨count, htokens, -⟩ := h
  simp [SourceLine.directive, Directive.ofText, htokens]

namespace Expander

variable {t : MacroTable} {emitted : Array SourceLine}

/-- Inside a definition, lines without a directive are added to its body. -/
lemma stepAll_of_body {body : List String} (h : ∀ line ∈ body, Directive.ofText line = .plain)
    (n : Nat) (m : OpenMacro) :
    stepAll ⟨t, some m, emitted⟩ (numberFrom n body) =
      .ok ⟨t, some { m with body := m.body ++ body }, emitted⟩ := by
  induction body generalizing n m with
  | nil => simp [numberFrom]
  | cons line body ih =>
    obtain ⟨hline, hbody⟩ := List.forall_mem_cons.mp h
    have hstep : step ⟨t, some m, emitted⟩ ⟨n, line⟩ =
        .ok ⟨t, some { m with body := m.body.push line }, emitted⟩ :=
      step_eq_ok_iff.mpr (Or.inr (Or.inr (Or.inl ⟨m, hline, rfl, rfl⟩)))
    rw [numberFrom, stepAll_cons, hstep]
    show stepAll _ _ = _
    rw [ih hbody]
    simp

/-- The lines of a definition add its macro to the table and do nothing else. -/
lemma stepAll_definition (d : Definition) (n : Nat) (hname : d.defined.name ∉ t.names) :
    stepAll ⟨t, none, emitted⟩ (numberFrom n (linesOf d.text)) =
      .ok ⟨⟨d.defined :: t.macros⟩, none, emitted⟩ := by
  obtain ⟨header, footer, hlines, hheader, hfooter⟩ := d.lines
  have hbegins := hheader.directive_eq_begins n
  let m : OpenMacro := ⟨n, d.defined.name, d.defined.arity, d.defined.body.toArray⟩
  have hopen : step ⟨t, none, emitted⟩ ⟨n, header⟩ =
      .ok ⟨t, some { m with body := #[] }, emitted⟩ := by
    refine step_eq_ok_iff.mpr (Or.inl ⟨_, hbegins, rfl, ?_, rfl⟩)
    exact (ofHeader?_eq_some_iff hbegins).mpr ⟨_, _, hheader, rfl⟩
  have hdefine : t.define m.close = .ok ⟨d.defined :: t.macros⟩ := by
    refine OpenMacro.define_close (m := m) hheader.arity_lt ?_ hname
    simpa [OpenMacro.placeholders, m] using d.placeholders
  have hclose : ∀ k, step ⟨t, some m, emitted⟩ ⟨k, footer⟩ =
      .ok ⟨⟨d.defined :: t.macros⟩, none, emitted⟩ :=
    fun k => step_eq_ok_iff.mpr (Or.inr (Or.inl ⟨m, _, hfooter, rfl, hdefine, rfl⟩))
  rw [hlines, numberFrom, numberFrom_append, stepAll_cons, hopen]
  show stepAll _ _ = _
  rw [stepAll_append, stepAll_of_body d.plain]
  show stepAll _ _ = _
  have hbody : (#[] : Array String) ++ d.defined.body = m.body := by simp [m]
  rw [numberFrom, stepAll_cons, hbody, hclose]
  rfl

/-- Definitions of new names fill the table in their order and do nothing else. -/
lemma stepAll_definitions {ds : List Definition} (n : Nat) (hnodup : (Definition.names ds).Nodup)
    (hnew : ∀ name ∈ Definition.names ds, name ∉ t.names) :
    stepAll ⟨t, none, emitted⟩ (numberFrom n (linesOf (Definition.sourceOf ds))) =
      .ok ⟨⟨(ds.map Definition.defined).reverse ++ t.macros⟩, none, emitted⟩ := by
  rw [Definition.linesOf_sourceOf]
  induction ds generalizing t n with
  | nil => rfl
  | cons d ds ih =>
    rw [Definition.names, List.map_cons, List.nodup_cons] at hnodup
    obtain ⟨hd, hds⟩ := List.forall_mem_cons.mp hnew
    have hnew' : ∀ name ∈ Definition.names ds, name ∉ MacroTable.names ⟨d.defined :: t.macros⟩ := by
      intro name hname
      rw [MacroTable.names, List.map_cons, List.mem_cons, not_or]
      refine ⟨?_, hds name hname⟩
      rintro rfl
      exact hnodup.1 hname
    rw [List.flatMap_cons, numberFrom_append, stepAll_append, stepAll_definition d n hd]
    show stepAll _ _ = _
    rw [ih _ hnodup.2 hnew']
    simp

/-- A source that begins with definitions goes on with all their macros. -/
lemma stepAll_sourceLines_definitions {ds : List Definition}
    (hnodup : (Definition.names ds).Nodup) :
    start.stepAll (sourceLines (Definition.sourceOf ds)) =
      .ok ⟨⟨(ds.map Definition.defined).reverse⟩, none, #[]⟩ := by
  have hnew : ∀ name ∈ Definition.names ds, name ∉ MacroTable.empty.names :=
    fun _ _ => List.not_mem_nil
  rw [start, sourceLines, stepAll_definitions 1 hnodup hnew, MacroTable.empty, List.append_nil]

end Expander

section Permutations

variable {ds ds' : List Definition}

lemma names_reverse_defined (ds : List Definition) :
    MacroTable.names ⟨(ds.map Definition.defined).reverse⟩ = (Definition.names ds).reverse := by
  simp [MacroTable.names, Definition.names, Function.comp_def]

/-- Definitions in another order leave the macros in another order, and nothing else. -/
lemma agrees_of_perm_definitions (hperm : ds.Perm ds') (hnodup : (Definition.names ds).Nodup) :
    Expander.Agrees ⟨⟨(ds.map Definition.defined).reverse⟩, none, #[]⟩
      ⟨⟨(ds'.map Definition.defined).reverse⟩, none, #[]⟩ where
  table := by
    apply MacroTable.agrees_of_perm
    · exact ((List.reverse_perm _).trans (hperm.map _)).trans (List.reverse_perm _).symm
    · rw [names_reverse_defined]
      exact List.nodup_reverse.mpr hnodup
  pending := rfl
  emitted := rfl

lemma expand_sourceOf_append (hnodup : (Definition.names ds).Nodup) (rest : String) :
    expand (Definition.sourceOf ds ++ rest) =
      Expander.stepAll ⟨⟨(ds.map Definition.defined).reverse⟩, none, #[]⟩
        (numberFrom (1 + (linesOf (Definition.sourceOf ds)).length) (linesOf rest)) >>=
      Expander.finish := by
  rw [expand, sourceLines_append_numberFrom (Definition.getLast?_sourceOf ds),
    Expander.stepAll_append, Expander.stepAll_sourceLines_definitions hnodup]
  rfl

lemma find?_after_definitions (hnodup : (Definition.names ds).Nodup) {d : Definition}
    (hd : d ∈ ds) :
    (MacroTable.after (sourceLines (Definition.sourceOf ds))).find? d.defined.name =
      some d.defined := by
  have hreads :=
    (Expander.reads_of_stepAll (Expander.stepAll_sourceLines_definitions hnodup)).eq_ofLines
  obtain ⟨htable, -, -⟩ := Expander.mk.inj hreads
  rw [← htable, MacroTable.find?, find?_key_eq_some_iff]
  · exact ⟨List.mem_reverse.mpr (List.mem_map_of_mem hd), rfl⟩
  · show (MacroTable.names _).Nodup
    rw [names_reverse_defined]
    exact List.nodup_reverse.mpr hnodup

end Permutations

/-- The order of definitions is immaterial. A source that begins with complete definitions of
distinct names is expanded, or refused, as it is with the definitions in any other order. Whatever
their order is, the definitions themselves leave no lines and no error, and every macro is there
behind them: a macro may call one that is defined after it. -/
theorem expand_perm_definitions {ds ds' : List Definition} (hperm : ds.Perm ds')
    (hnodup : (Definition.names ds).Nodup) (rest : String) :
    expand (Definition.sourceOf ds ++ rest) = expand (Definition.sourceOf ds' ++ rest) ∧
    expand (Definition.sourceOf ds) = .ok ⟨#[]⟩ ∧
    ∀ d ∈ ds, (MacroTable.after (sourceLines (Definition.sourceOf ds))).find? d.defined.name =
      some d.defined := by
  refine ⟨?_, ?_, fun d => find?_after_definitions hnodup⟩
  · have hnodup' : (Definition.names ds').Nodup := (hperm.map _).nodup_iff.mp hnodup
    rw [expand_sourceOf_append hnodup, expand_sourceOf_append hnodup',
      Definition.length_linesOf_sourceOf_of_perm hperm]
    exact ((agrees_of_perm_definitions hperm hnodup).stepAll _).bind_eq fun _ _ h => h.finish
  · rw [expand, Expander.stepAll_sourceLines_definitions hnodup]
    rfl

/-- The macro that comes first calls the second, whose header ends with a carriage return and a line
feed. A call, and a name that is defined again, are answered alike with the two exchanged. -/
theorem expand_perm_definitions_forward_call :
    ∃ caller callee : Definition,
      caller.text = "%macro A 1\nB %1\n%endmacro\n" ∧
      callee.text = "%macro B 1\r\n%01\n%endmacro\n" ∧
      expand (Definition.sourceOf [caller, callee] ++ "A IN") = .ok ⟨#[⟨7, "IN"⟩]⟩ ∧
      expand (Definition.sourceOf [callee, caller] ++ "A IN") = .ok ⟨#[⟨7, "IN"⟩]⟩ ∧
      expand (Definition.sourceOf [callee, caller] ++ "%macro B 0\n%endmacro") =
        .error ⟨7, .duplicate "B"⟩ := by
  let caller : Definition :=
    { text := "%macro A 1\nB %1\n%endmacro\n"
      defined := ⟨"A", 1, ["B %1"]⟩
      ended := by decide
      lines := ⟨"%macro A 1", "%endmacro", by decide +kernel,
        ⟨"1", by decide +kernel, by decide⟩, by decide +kernel⟩
      plain := by decide +kernel
      placeholders := by decide +kernel }
  let callee : Definition :=
    { text := "%macro B 1\r\n%01\n%endmacro\n"
      defined := ⟨"B", 1, ["%01"]⟩
      ended := by decide
      lines := ⟨"%macro B 1", "%endmacro", by decide +kernel,
        ⟨"1", by decide +kernel, by decide⟩, by decide +kernel⟩
      plain := by decide +kernel
      placeholders := by decide +kernel }
  have hperm : [caller, callee].Perm [callee, caller] := List.Perm.swap callee caller []
  have hnodup : (Definition.names [caller, callee]).Nodup := by decide
  have hcall : expand (Definition.sourceOf [caller, callee] ++ "A IN") = .ok ⟨#[⟨7, "IN"⟩]⟩ := by
    decide +kernel
  have hagain : expand (Definition.sourceOf [caller, callee] ++ "%macro B 0\n%endmacro") =
      .error ⟨7, .duplicate "B"⟩ := by
    decide +kernel
  refine ⟨caller, callee, rfl, rfl, hcall, ?_, ?_⟩
  · exact (expand_perm_definitions hperm hnodup _).1.symm.trans hcall
  · exact (expand_perm_definitions hperm hnodup _).1.symm.trans hagain

end StackAssembler
