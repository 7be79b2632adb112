import Mathlib.Data.List.Basic
import Mathlib.Data.List.Lex
import Mathlib.Order.Basic
import StackAssembler.Proofs.MacroCalls
import StackAssembler.Proofs.MacroSource

/-!
# Semantics of macro calls

What a line stands for, without a bound on the nesting of calls, and which call is at fault. The
rules of `Yields` give the lines that a line stands for together with the height of the derivation.
The calls that a line leads to form a tree, and a position in the tree is a list of line numbers in
the bodies on the way; the order of positions is the order in which calls are met, depth first and
from left to right.

The main statement is `expansion_adequate`: the expansion that is computed gives exactly the lines
with a derivation of height at most sixteen, and otherwise the fault of the first call that is
nested too deep or has the wrong number of arguments.
-/

namespace StackAssembler.MacroTable

variable {t : MacroTable} {depth : Nat}

/-! ### Derivations and their height -/

mutual

/-- The lines that a line stands for, and the height of the derivation. -/
inductive Yields (t : MacroTable) : String → List String → Nat → Prop where
  | plain {text : String} (h : t.invocation? text = none) : Yields t text [text] 0
  | call {text : String} {m : Macro} {args texts : List String} {height : Nat}
      (h : t.invocation? text = some (m, args)) (harity : args.length = m.arity)
      (hbody : YieldsAll t (m.instantiate args) texts height) : Yields t text texts (height + 1)

/-- The lines that several lines stand for one after the other, and the greatest height. -/
inductive YieldsAll (t : MacroTable) : List String → List String → Nat → Prop where
  | nil : YieldsAll t [] [] 0
  | cons {line : String} {lines texts rest : List String} {height heights : Nat}
      (hline : Yields t line texts height) (hlines : YieldsAll t lines rest heights) :
      YieldsAll t (line :: lines) (texts ++ rest) (max height heights)

end

-- The inductions of this part are on derivations, one lemma for each of the two relations.
mutual

/-- A line with a derivation is expanded unless the derivation is higher than the depth allows, and
then that is the only fault. -/
lemma expandLine_of_yields :
    ∀ {text : String} {texts : List String} {height : Nat}, t.Yields text texts height →
      ∀ depth, t.expandLine depth text = if height ≤ depth then .ok texts else .error .tooDeep
  | _, _, _, .plain h, depth => by
    rw [expandLine_of_plain h, if_pos (Nat.zero_le depth)]
  | _, _, _, .call h _ _, 0 => by
    rw [expandLine_zero_of_call h, if_neg (by omega)]
  | _, _, _, .call h harity hbody, depth + 1 => by
    rw [expandLine_succ_of_call h, if_pos harity, expandLines_of_yieldsAll hbody depth]
    simp only [Nat.add_le_add_iff_right]

lemma expandLines_of_yieldsAll :
    ∀ {lines texts : List String} {height : Nat}, t.YieldsAll lines texts height →
      ∀ depth, t.expandLines depth lines = if height ≤ depth then .ok texts else .error .tooDeep
  | _, _, _, .nil, depth => by
    rw [expandLines_nil, if_pos (Nat.zero_le depth)]
  | _, _, _, @YieldsAll.cons _ _ _ _ _ height heights hline hlines, depth => by
    rw [expandLines_cons, expandLine_of_yields hline depth, expandLines_of_yieldsAll hlines depth]
    by_cases hheight : height ≤ depth
    · by_cases hheights : heights ≤ depth
      · rw [if_pos hheight, if_pos hheights, if_pos (Nat.max_le.mpr ⟨hheight, hheights⟩)]
        rfl
      · rw [if_pos hheight, if_neg hheights, if_neg fun hmax => hheights (Nat.max_le.mp hmax).2]
        rfl
    · rw [if_neg hheight, if_neg fun hmax => hheight (Nat.max_le.mp hmax).1]
      rfl

end

mutual

lemma Expands.exists_yields : ∀ {depth : Nat} {text : String} {texts : List String},
    t.Expands depth text texts → ∃ height ≤ depth, t.Yields text texts height
  | depth, _, _, .plain h => ⟨0, Nat.zero_le depth, .plain h⟩
  | _, _, _, .call h harity hbody => by
    obtain ⟨height, hle, hyields⟩ := hbody.exists_yieldsAll
    exact ⟨height + 1, Nat.succ_le_succ hle, .call h harity hyields⟩

lemma ExpandsAll.exists_yieldsAll : ∀ {depth : Nat} {lines texts : List String},
    t.ExpandsAll depth lines texts → ∃ height ≤ depth, t.YieldsAll lines texts height
  | depth, _, _, .nil => ⟨0, Nat.zero_le depth, .nil⟩
  | _, _, _, .cons hline hlines => by
    obtain ⟨height, hle, hyields⟩ := hline.exists_yields
    obtain ⟨heights, hles, hyieldsAll⟩ := hlines.exists_yieldsAll
    exact ⟨max height heights, Nat.max_le.mpr ⟨hle, hles⟩, .cons hyields hyieldsAll⟩

end

mutual

/-- The lines that a line stands for invoke nothing. -/
lemma Yields.invocation?_eq_none : ∀ {text : String} {texts : List String} {height : Nat},
    t.Yields text texts height → ∀ line ∈ texts, t.invocation? line = none
  | _, _, _, .plain h => by simpa using h
  | _, _, _, .call _ _ hbody => hbody.invocation?_eq_none

lemma YieldsAll.invocation?_eq_none : ∀ {lines texts : List String} {height : Nat},
    t.YieldsAll lines texts height → ∀ line ∈ texts, t.invocation? line = none
  | _, _, _, .nil => by simp
  | _, _, _, .cons hline hlines =>
    List.forall_mem_append.mpr ⟨hline.invocation?_eq_none, hlines.invocation?_eq_none⟩

end

/-- What is computed is what has a derivation within the depth. -/
theorem expandLine_eq_ok_iff_yields {text : String} {texts : List String} :
    t.expandLine depth text = .ok texts ↔ ∃ height ≤ depth, t.Yields text texts height := by
  constructor
  · intro h
    exact (expandLine_eq_ok_iff.mp h).exists_yields
  · rintro ⟨height, hle, hyields⟩
    rw [expandLine_of_yields hyields, if_pos hle]

/-! ### Positions of calls -/

/-- The call at a position of the tree of calls that a line leads to. The bodies of calls with the
wrong number of arguments are not looked at. -/
def callAt? (t : MacroTable) : String → List Nat → Option (Macro × List String)
  | text, [] => t.invocation? text
  | text, i :: path =>
    match t.invocation? text with
    | none => none
    | some (m, args) =>
      if args.length = m.arity then (m.instantiate args)[i]?.bind fun line => t.callAt? line path
      else none

/-- The fault of the call at a position: it is nested too deep where the position is as long as the
depth allows, and before that it may have the wrong number of arguments. -/
def faultAt? (t : MacroTable) (depth : Nat) (text : String) (path : List Nat) :
    Option MacroFault :=
  (t.callAt? text path).bind fun (m, args) =>
    if path.length = depth then some .tooDeep
    else if path.length < depth ∧ args.length ≠ m.arity then
      some (.arity m.name m.arity args.length)
    else none

/-- The fault of the call that is met first, depth first and from left to right. -/
def FirstCallFault (t : MacroTable) (depth : Nat) (text : String) (f : MacroFault) : Prop :=
  ∃ path, t.faultAt? depth text path = some f ∧
    ∀ path', List.Lex (· < ·) path' path → t.faultAt? depth text path' = none

section Positions

variable {text : String} {m : Macro} {args : List String} {f : MacroFault}

lemma faultAt?_of_plain (h : t.invocation? text = none) (path : List Nat) :
    t.faultAt? depth text path = none := by
  cases path <;> simp [faultAt?, callAt?, h]

lemma faultAt?_nil_of_call (h : t.invocation? text = some (m, args)) :
    t.faultAt? depth text [] =
      if depth = 0 then some .tooDeep
      else if args.length = m.arity then none
      else some (.arity m.name m.arity args.length) := by
  by_cases hdepth : depth = 0
  · simp [faultAt?, callAt?, h, hdepth]
  · by_cases harity : args.length = m.arity <;>
      simp [faultAt?, callAt?, h, hdepth, harity, eq_comm (a := 0), Nat.pos_of_ne_zero hdepth]

/-- Below a call the faults are those of the lines of its body, with one less to the depth. -/
lemma faultAt?_cons_of_call (h : t.invocation? text = some (m, args))
    (harity : args.length = m.arity) (i : Nat) (path : List Nat) :
    t.faultAt? (depth + 1) text (i :: path) =
      (m.instantiate args)[i]?.bind fun line => t.faultAt? depth line path := by
  simp only [faultAt?, callAt?, h, harity, if_true, List.length_cons, Nat.add_right_cancel_iff,
    Nat.add_lt_add_iff_right]
  cases (m.instantiate args)[i]? <;> rfl

end Positions

/-- Where lines fail to expand, the lines before the faulty one are expanded. -/
lemma exists_of_expandLines_eq_error {lines : List String} {f : MacroFault}
    (h : t.expandLines depth lines = .error f) :
    ∃ before line after, lines = before ++ line :: after ∧ t.expandLine depth line = .error f ∧
      ∀ l ∈ before, ∃ texts, t.expandLine depth l = .ok texts := by
  induction lines with
  | nil => cases h
  | cons line lines ih =>
    rw [expandLines_cons] at h
    rcases bind_eq_error_iff.mp h with hline | ⟨texts, htexts, h⟩
    · exact ⟨[], line, lines, rfl, hline, by simp⟩
    · rcases bind_eq_error_iff.mp h with hlines | ⟨rest, -, hok⟩
      · obtain ⟨before, x, after, rfl, hx, hbefore⟩ := ih hlines
        refine ⟨line :: before, x, after, rfl, hx, ?_⟩
        intro l hl
        rcases List.mem_cons.mp hl with rfl | hl
        · exact ⟨texts, htexts⟩
        · exact hbefore l hl
      · cases hok

lemma exists_of_expandLines_eq_ok {lines texts : List String}
    (h : t.expandLines depth lines = .ok texts) :
    ∀ l ∈ lines, ∃ texts, t.expandLine depth l = .ok texts := by
  induction lines generalizing texts with
  | nil => simp
  | cons line lines ih =>
    rw [expandLines_cons] at h
    obtain ⟨front, hfront, h⟩ := bind_eq_ok_iff.mp h
    obtain ⟨rest, hrest, -⟩ := bind_eq_ok_iff.mp h
    intro l hl
    rcases List.mem_cons.mp hl with rfl | hl
    · exact ⟨front, hfront⟩
    · exact ih hrest l hl

/-- A line that is expanded leads to no call with a fault. -/
lemma faultAt?_eq_none_of_expandLine {text : String} {texts : List String}
    (h : t.expandLine depth text = .ok texts) (path : List Nat) :
    t.faultAt? depth text path = none := by
  induction depth generalizing text texts path with
  | zero =>
    cases hcall : t.invocation? text with
    | none => exact faultAt?_of_plain hcall path
    | some call =>
      rw [expandLine_zero_of_call hcall] at h
      cases h
  | succ depth ih =>
    cases hcall : t.invocation? text with
    | none => exact faultAt?_of_plain hcall path
    | some call =>
      obtain ⟨m, args⟩ := call
      rw [expandLine_succ_of_call hcall] at h
      split_ifs at h with harity
      cases path with
      | nil => rw [faultAt?_nil_of_call hcall, if_neg (Nat.succ_ne_zero depth), if_pos harity]
      | cons i path =>
        rw [faultAt?_cons_of_call hcall harity]
        cases hline : (m.instantiate args)[i]? with
        | none => rfl
        | some line =>
          obtain ⟨texts', htexts'⟩ :=
            exists_of_expandLines_eq_ok h line (List.mem_of_getElem? hline)
          exact ih htexts' path

/-- The fault of an expansion is that of the first call with a fault. -/
lemma firstCallFault_of_expandLine {text : String} {f : MacroFault}
    (h : t.expandLine depth text = .error f) : t.FirstCallFault depth text f := by
  induction depth generalizing text f with
  | zero =>
    cases hcall : t.invocation? text with
    | none =>
      rw [expandLine_of_plain hcall] at h
      cases h
    | some call =>
      rw [expandLine_zero_of_call hcall] at h
      cases h
      refine ⟨[], by rw [faultAt?_nil_of_call hcall, if_pos rfl], ?_⟩
      rintro path' ⟨⟩
  | succ depth ih =>
    cases hcall : t.invocation? text with
    | none =>
      rw [expandLine_of_plain hcall] at h
      cases h
    | some call =>
      obtain ⟨m, args⟩ := call
      rw [expandLine_succ_of_call hcall] at h
      split_ifs at h with harity
      · obtain ⟨before, line, after, hbody, hline, hbefore⟩ := exists_of_expandLines_eq_error h
        obtain ⟨path, hpath, hmin⟩ := ih hline
        refine ⟨before.length :: path, ?_, ?_⟩
        · rw [faultAt?_cons_of_call hcall harity, hbody]
          simpa using hpath
        · intro path' hlex
          -- the call itself has no fault, and the lines before the faulty one are expanded
          cases hlex with
          | nil => rw [faultAt?_nil_of_call hcall, if_neg (Nat.succ_ne_zero depth), if_pos harity]
          | @rel j path' _ _ hlt =>
            rw [faultAt?_cons_of_call hcall harity, hbody, List.getElem?_append_left hlt]
            obtain ⟨texts, htexts⟩ := hbefore _ (List.getElem_mem hlt)
            rw [List.getElem?_eq_getElem hlt]
            exact faultAt?_eq_none_of_expandLine htexts path'
          | @cons _ path' _ hlex =>
            rw [faultAt?_cons_of_call hcall harity, hbody]
            simpa using hmin path' hlex
      · cases h
        refine ⟨[], ?_, ?_⟩
        · rw [faultAt?_nil_of_call hcall, if_neg (Nat.succ_ne_zero depth), if_neg harity]
        · rintro path' ⟨⟩

/-- A line fails to expand exactly with the fault of the first call with a fault. -/
theorem expandLine_eq_error_iff_firstCallFault {text : String} {f : MacroFault} :
    t.expandLine depth text = .error f ↔ t.FirstCallFault depth text f := by
  constructor
  · exact firstCallFault_of_expandLine
  · rintro ⟨path, hpath, hmin⟩
    cases h : t.expandLine depth text with
    | ok texts =>
      rw [faultAt?_eq_none_of_expandLine h] at hpath
      cases hpath
    | error f' =>
      obtain ⟨path', hpath', hmin'⟩ := firstCallFault_of_expandLine h
      obtain rfl : path = path' := by
        refine Std.Trichotomous.trichotomous (r := List.Lex (· < ·)) path path' ?_ ?_
        · intro hlex
          rw [hmin' path hlex] at hpath
          cases hpath
        · intro hlex
          rw [hmin path' hlex] at hpath'
          cases hpath'
      rw [Option.some.inj (hpath'.symm.trans hpath)]

/-! ### Adequacy -/

/-- Expansion computes the derivations of bounded height. A line is expanded exactly where it has a
derivation of height at most sixteen, and to the lines of the derivation, which invoke nothing.
Otherwise the fault is that of the first call, depth first and from left to right, that is nested
sixteen deep or has the wrong number of arguments; where a derivation is only too high, it is that
of the nesting. Outside of definitions a line is replaced in this way, and its number goes with the
lines or with the fault. -/
theorem expansion_adequate (t : MacroTable) (text : String) :
    (∀ texts, t.expandLine maxExpansionDepth text = .ok texts ↔
      ∃ height ≤ 16, t.Yields text texts height) ∧
    (∀ texts height, t.Yields text texts height → ∀ line ∈ texts, t.invocation? line = none) ∧
    (∀ f, t.expandLine maxExpansionDepth text = .error f ↔ t.FirstCallFault 16 text f) ∧
    (∀ texts height, t.Yields text texts height → 16 < height →
      t.expandLine maxExpansionDepth text = .error .tooDeep) ∧
    ∀ (x : Expander) (n : Nat), x.table = t → x.pending = none → Directive.ofText text = .plain →
      (∀ y, x.step ⟨n, text⟩ = .ok y ↔ ∃ texts height, height ≤ 16 ∧ t.Yields text texts height ∧
        y = { x with emitted := x.emitted ++ texts.map (SourceLine.mk n) }) ∧
      ∀ e, x.step ⟨n, text⟩ = .error e ↔ ∃ f, t.FirstCallFault 16 text f ∧ e = ⟨n, f⟩ := by
  have hok : ∀ texts, t.expandLine maxExpansionDepth text = .ok texts ↔
      ∃ height ≤ 16, t.Yields text texts height := by
    intro texts
    exact expandLine_eq_ok_iff_yields
  have herror : ∀ f, t.expandLine maxExpansionDepth text = .error f ↔
      t.FirstCallFault 16 text f := by
    intro f
    exact expandLine_eq_error_iff_firstCallFault
  refine ⟨hok, ?_, herror, ?_, ?_⟩
  · intro texts height h
    exact h.invocation?_eq_none
  · intro texts height h hheight
    rw [expandLine_of_yields h]
    exact if_neg (Nat.not_le.mpr hheight)
  · rintro x n rfl hpending hplain
    have hdirective : SourceLine.directive ⟨n, text⟩ = .plain := hplain
    constructor
    · intro y
      simp [Expander.step_eq_ok_iff, hdirective, hpending, hok, ← and_assoc]
    · intro e
      simp [Expander.step_eq_error_iff, hdirective, hpending, herror]

/-- A call has a derivation of height one. A macro that calls itself without end is nested too deep,
but the call before that lacks an argument is met first. -/
theorem expansion_adequate_endless_call :
    ∃ t : MacroTable, t = ⟨[⟨"LOOP", 0, ["PUSH", "LOOP"]⟩, ⟨"PUSH", 1, ["LIT %1"]⟩]⟩ ∧
      t.Yields "PUSH 7" ["LIT 7"] 1 ∧
      t.expandLine maxExpansionDepth "PUSH 7" = .ok ["LIT 7"] ∧
      t.FirstCallFault 16 "LOOP" (.arity "PUSH" 1 0) ∧
      Expander.step ⟨t, none, #[]⟩ ⟨9, "LOOP"⟩ = .error ⟨9, .arity "PUSH" 1 0⟩ := by
  obtain ⟨t, ht⟩ : ∃ t : MacroTable,
      t = ⟨[⟨"LOOP", 0, ["PUSH", "LOOP"]⟩, ⟨"PUSH", 1, ["LIT %1"]⟩]⟩ := ⟨_, rfl⟩
  have hcall : t.invocation? "PUSH 7" = some (⟨"PUSH", 1, ["LIT %1"]⟩, ["7"]) := by
    rw [ht]
    decide +kernel
  have hbody : Macro.instantiate ⟨"PUSH", 1, ["LIT %1"]⟩ ["7"] = ["LIT 7"] := by decide +kernel
  have hplain : t.invocation? "LIT 7" = none := by
    rw [ht]
    decide +kernel
  have hyields : t.Yields "PUSH 7" ["LIT 7"] 1 := by
    refine .call hcall rfl ?_
    rw [hbody]
    exact .cons (.plain hplain) .nil
  have hloop : t.FirstCallFault 16 "LOOP" (.arity "PUSH" 1 0) := by
    rw [ht]
    refine ⟨[0], by decide +kernel, ?_⟩
    intro path hlex
    cases hlex with
    | nil => decide +kernel
    | rel hlt => cases hlt
    | cons hlex => cases hlex
  refine ⟨t, ht, hyields, ?_, hloop, ?_⟩
  · exact ((expansion_adequate t "PUSH 7").1 _).mpr ⟨1, by decide, hyields⟩
  · obtain ⟨-, -, -, -, hstep⟩ := expansion_adequate t "LOOP"
    exact ((hstep ⟨t, none, #[]⟩ 9 rfl rfl (by decide +kernel)).2 _).mpr ⟨_, hloop, rfl⟩

end StackAssembler.MacroTable
