import Mathlib.Data.List.Chain
import StackAssembler.Proofs.MacroCalls
import StackAssembler.Proofs.MacroSource

/-!
# Precedence of macro faults

Which sources are expanded and which error is reported otherwise. A source is expanded exactly
where its definitions and its invocations are well formed (`WellFormedMacros`), which is said of
the source as a whole. Otherwise the error is that of the first line with a violation
(`MacroViolation`), which is said of a line behind the lines before it. A definition that is never
ended is only missed behind the last line, so every other violation comes first.
-/

namespace StackAssembler

open Text

/-! ### Placeholders -/

namespace Template

/-- The run in front and the placeholders hold digits of some script only. -/
lemma isScriptDigit_of_scan (cs : List Char) :
    (∀ c ∈ (scan cs).1, isScriptDigit c = true) ∧
      ∀ p ∈ (scan cs).2, ∀ digits, p.digits? = some digits →
        ∀ c ∈ digits, isScriptDigit c = true := by
  induction cs with
  | nil => simp [scan]
  | cons c cs ih =>
    obtain ⟨hdigits, hpieces⟩ := ih
    simp only [scan]
    split
    · next hc => exact ⟨List.forall_mem_cons.mpr ⟨hc, hdigits⟩, hpieces⟩
    · split
      · refine ⟨List.forall_mem_nil _, List.forall_mem_cons.mpr ⟨?_, hpieces⟩⟩
        rintro digits ⟨⟩
        exact hdigits
      · refine ⟨List.forall_mem_nil _, List.forall_mem_cons.mpr ⟨by simp [Piece.digits?], ?_⟩⟩
        refine List.forall_mem_append.mpr ⟨?_, hpieces⟩
        simp [Piece.digits?]

lemma isScriptDigit_of_mem_placeholders {line : String} {digits : List Char}
    (h : digits ∈ placeholders line) : ∀ c ∈ digits, isScriptDigit c = true := by
  obtain ⟨p, hp, hdigits⟩ := List.mem_filterMap.mp h
  rcases List.mem_append.mp hp with hp | hp
  · obtain ⟨c, -, rfl⟩ := List.mem_map.mp hp
    cases hdigits
  · exact (isScriptDigit_of_scan _).2 p hp digits hdigits

end Template

/-- The digits are decimal digits and number one of so many arguments, counted from one. -/
def Numbers (arity : Nat) (digits : List Char) : Prop :=
  ∃ n, natural? digits = some n ∧ 1 ≤ n ∧ n ≤ arity

instance (arity : Nat) (digits : List Char) : Decidable (Numbers arity digits) :=
  decidable_of_iff ((natural? digits).any fun n => 1 ≤ n && n ≤ arity)
    (by simp [Numbers, Option.any_eq_true])

/-- The digits of the placeholders in the code of a body, in order. -/
def OpenMacro.placeholders (m : OpenMacro) : List (List Char) :=
  m.body.toList.flatMap Template.placeholders

/-- The first placeholder of a body that numbers no argument. -/
def OpenMacro.FirstStray (m : OpenMacro) (digits : List Char) : Prop :=
  ∃ front rest, m.placeholders = front ++ digits :: rest ∧
    (∀ ds ∈ front, Numbers m.arity ds) ∧ ¬ Numbers m.arity digits

/-- A text without a plus sign is a count where it is a number below the limit. -/
lemma Text.count?_of_plus_not_mem {cs : List Char} (h : '+' ∉ cs) :
    count? cs = (natural? cs).filter (· < countLimit) := by
  unfold count?
  split
  · simp at h
  · rfl

namespace OpenMacro

variable {m : OpenMacro} {digits : List Char}

lemma plus_not_mem_of_mem_placeholders (h : digits ∈ m.placeholders) : '+' ∉ digits := by
  obtain ⟨line, -, hline⟩ := List.mem_flatMap.mp h
  intro hplus
  have := Template.isScriptDigit_of_mem_placeholders hline '+' hplus
  revert this
  decide

/-- The bound on counts makes no difference, as the number of arguments is a count itself. -/
lemma hasArgument_close_iff (harity : m.arity < countLimit) (h : digits ∈ m.placeholders) :
    m.close.hasArgument digits = true ↔ Numbers m.arity digits := by
  have hclose : m.close.arity = m.arity := rfl
  have hcount := count?_of_plus_not_mem (plus_not_mem_of_mem_placeholders h)
  rw [Macro.hasArgument, hclose, hcount, Numbers]
  cases hn : natural? digits with
  | none => simp
  | some n =>
    by_cases hlimit : n < countLimit
    · simp [Option.filter, hlimit]
    · have hn : ¬ n ≤ m.arity := by omega
      simp [Option.filter, hlimit, hn]

lemma strayPlaceholder?_close_eq_none_iff (harity : m.arity < countLimit) :
    m.close.strayPlaceholder? = none ↔ ∀ digits ∈ m.placeholders, Numbers m.arity digits := by
  rw [Macro.strayPlaceholder?, List.find?_eq_none]
  refine forall₂_congr fun digits hdigits => ?_
  rw [Bool.not_eq_true', Bool.not_eq_false, hasArgument_close_iff harity hdigits]

lemma strayPlaceholder?_close_eq_some_iff (harity : m.arity < countLimit) :
    m.close.strayPlaceholder? = some digits ↔ m.FirstStray digits := by
  rw [Macro.strayPlaceholder?, List.find?_eq_some_iff_append, FirstStray]
  constructor
  · rintro ⟨hstray, front, rest, heq, hfront⟩
    have heq : m.placeholders = front ++ digits :: rest := heq
    refine ⟨front, rest, heq, fun ds hds => ?_, fun hnumbers => ?_⟩
    · simpa [hasArgument_close_iff harity (show ds ∈ m.placeholders by simp [heq, hds])] using
        hfront ds hds
    · simp [(hasArgument_close_iff harity (by simp [heq])).mpr hnumbers] at hstray
  · rintro ⟨front, rest, heq, hfront, hstray⟩
    refine ⟨?_, front, rest, heq, fun ds hds => ?_⟩
    · simpa [← hasArgument_close_iff harity (show digits ∈ m.placeholders by simp [heq])] using
        hstray
    · simpa [hasArgument_close_iff harity (show ds ∈ m.placeholders by simp [heq, hds])] using
        hfront ds hds

end OpenMacro

/-! ### Violations -/

/-- A header line: the directive, a name and the number of arguments, and nothing else. -/
def IsHeader (text name : String) (arity : Nat) : Prop :=
  ∃ count : String, tokensOf text = ["%macro", name, count] ∧ count? count.toList = some arity

/-- What is wrong at a line behind the given ones, and the error that reports it. A definition is
looked at where it ends and reported under the number of its header, its placeholders before its
name. -/
inductive MacroViolation (before : List SourceLine) (l : SourceLine) : MacroError → Prop where
  | nested (h : l.directive = .begins) (hinside : insideMacro before = true) :
      MacroViolation before l ⟨l.number, .nested⟩
  | badHeader (h : l.directive = .begins) (houtside : insideMacro before = false)
      (hheader : ∀ name arity, ¬ IsHeader l.text name arity) :
      MacroViolation before l ⟨l.number, .badHeader (String.ofList (trim l.text.toList))⟩
  | strayEnd (h : l.directive = .ends) (houtside : insideMacro before = false) :
      MacroViolation before l ⟨l.number, .strayEnd⟩
  | placeholder {m : OpenMacro} {digits : List Char} (h : l.directive = .ends)
      (hopen : openMacro? before = some m) (hstray : m.FirstStray digits) :
      MacroViolation before l ⟨m.line, .placeholder m.name (String.ofList digits)⟩
  | duplicate {m : OpenMacro} (h : l.directive = .ends) (hopen : openMacro? before = some m)
      (hnumbers : ∀ digits ∈ m.placeholders, Numbers m.arity digits)
      (hname : m.name ∈ (completed before).map OpenMacro.name) :
      MacroViolation before l ⟨m.line, .duplicate m.name⟩
  | expansion {f : MacroFault} (h : isPlainAfter before l = true)
      (hfails : (MacroTable.after before).Fails maxExpansionDepth l.text f) :
      MacroViolation before l ⟨l.number, f⟩

section Headers

variable {l : SourceLine}

lemma head?_tokensOf_of_begins (h : l.directive = .begins) :
    (tokensOf l.text).head? = some "%macro" := by
  unfold SourceLine.directive Directive.ofText at h
  split at h
  · next first hfirst =>
    split_ifs at h with hmacro
    rw [hfirst, hmacro]
  · cases h

lemma ofHeader?_eq_some_iff (h : l.directive = .begins) {m : OpenMacro} :
    OpenMacro.ofHeader? l = some m ↔
      ∃ name arity, IsHeader l.text name arity ∧ m = ⟨l.number, name, arity, #[]⟩ := by
  have hhead := head?_tokensOf_of_begins h
  unfold OpenMacro.ofHeader? IsHeader
  rw [tokensOf] at hhead ⊢
  split
  · next first name count htokens =>
    rw [htokens] at hhead ⊢
    constructor
    · intro hm
      obtain ⟨arity, harity, rfl⟩ := Option.map_eq_some_iff.mp hm
      refine ⟨String.ofList name, arity, ⟨String.ofList count, ?_, by simpa using harity⟩, rfl⟩
      simpa using hhead
    · rintro ⟨_, arity, ⟨_, heq, harity⟩, rfl⟩
      obtain ⟨-, rfl, rfl⟩ : _ ∧ String.ofList name = _ ∧ String.ofList count = _ := by
        simpa using heq
      rw [String.toList_ofList] at harity
      simp [harity]
  · next htokens =>
    refine iff_of_false (by simp) ?_
    rintro ⟨_, arity, ⟨_, heq, -⟩, -⟩
    obtain ⟨first, _, htokens', -, heq⟩ := List.map_eq_cons_iff.mp heq
    obtain ⟨name, _, rfl, -, heq⟩ := List.map_eq_cons_iff.mp heq
    obtain ⟨count, _, rfl, -, heq⟩ := List.map_eq_cons_iff.mp heq
    obtain rfl := List.map_eq_nil_iff.mp heq
    exact htokens first name count htokens'

lemma ofHeader?_eq_none_iff (h : l.directive = .begins) :
    OpenMacro.ofHeader? l = none ↔ ∀ name arity, ¬ IsHeader l.text name arity := by
  rw [Option.eq_none_iff_forall_ne_some]
  constructor
  · intro hnone name arity hheader
    exact hnone _ ((ofHeader?_eq_some_iff h).mpr ⟨name, arity, hheader, rfl⟩)
  · intro hheader m hm
    obtain ⟨name, arity, hm, -⟩ := (ofHeader?_eq_some_iff h).mp hm
    exact hheader name arity hm

lemma IsHeader.arity_lt {text name : String} {arity : Nat} (h : IsHeader text name arity) :
    arity < countLimit := by
  obtain ⟨count, -, hcount⟩ := h
  simpa using (Option.filter_eq_some_iff.mp hcount).2

/-- The definition that is open behind lines takes its data from a header line among them. -/
lemma exists_header_of_openMacro? {ls : List SourceLine} {m : OpenMacro}
    (h : openMacro? ls = some m) :
    ∃ l ∈ ls, l.directive = .begins ∧ IsHeader l.text m.name m.arity ∧ m.line = l.number := by
  unfold openMacro? at h
  split at h
  · next header hheader =>
    split_ifs at h with hbegins
    obtain ⟨m', hm', rfl⟩ := Option.map_eq_some_iff.mp h
    obtain ⟨name, arity, hname, rfl⟩ := (ofHeader?_eq_some_iff hbegins).mp hm'
    refine ⟨header, ?_, hbegins, hname, rfl⟩
    exact (List.rdropWhile_prefix _ _).subset (List.mem_of_getLast? hheader)
  · cases h

lemma arity_lt_of_openMacro? {ls : List SourceLine} {m : OpenMacro} (h : openMacro? ls = some m) :
    m.arity < countLimit := by
  obtain ⟨l, -, -, hheader, -⟩ := exists_header_of_openMacro? h
  exact hheader.arity_lt

end Headers

/-- The errors of a step are the violations at its line. -/
lemma Expander.step_eq_error_iff_violation {before : List SourceLine} {x : Expander}
    (hx : start.stepAll before = .ok x) (l : SourceLine) (e : MacroError) :
    x.step l = .error e ↔ MacroViolation before l e := by
  -- the lines before were read, so the state has a definition open where the directives say so
  have hreads := reads_of_stepAll hx
  have houtside := hreads.openMacro?_eq_none_iff
  obtain ⟨rfl, hinside⟩ := hreads
  have hpending : (ofLines before).pending = openMacro? before := rfl
  have htable : (ofLines before).table = MacroTable.after before := rfl
  rw [step_eq_error_iff, hpending, htable]
  constructor
  · rintro (⟨m, hd, hm, rfl⟩ | ⟨hd, hm, hheader, rfl⟩ | ⟨hd, hm, rfl⟩ | ⟨m, f, hd, hm, hf, rfl⟩ |
      ⟨f, hd, hm, hf, rfl⟩)
    · exact .nested hd (by rw [← hinside, hm, Option.isSome_some])
    · exact .badHeader hd (houtside.mp hm) ((ofHeader?_eq_none_iff hd).mp hheader)
    · exact .strayEnd hd (houtside.mp hm)
    · have harity := arity_lt_of_openMacro? hm
      rcases MacroTable.define_eq_error_iff.mp hf with ⟨digits, hstray, rfl⟩ | ⟨hstray, hname, rfl⟩
      · exact .placeholder hd hm ((OpenMacro.strayPlaceholder?_close_eq_some_iff harity).mp hstray)
      · rw [MacroTable.names_after, List.mem_reverse] at hname
        exact .duplicate hd hm ((OpenMacro.strayPlaceholder?_close_eq_none_iff harity).mp hstray)
          hname
    · exact .expansion (isPlainAfter_iff.mpr ⟨hd, houtside.mp hm⟩)
        (MacroTable.expandLine_eq_error_iff.mp hf)
  · intro hviolation
    cases hviolation with
    | nested hd hin =>
      obtain ⟨m, hm⟩ := Option.isSome_iff_exists.mp (hinside.trans hin)
      exact Or.inl ⟨m, hd, hm, rfl⟩
    | badHeader hd hout hheader =>
      refine Or.inr (Or.inl ⟨hd, houtside.mpr hout, ?_, rfl⟩)
      exact (ofHeader?_eq_none_iff hd).mpr hheader
    | strayEnd hd hout => exact Or.inr (Or.inr (Or.inl ⟨hd, houtside.mpr hout, rfl⟩))
    | @placeholder m digits hd hm hstray =>
      have harity := arity_lt_of_openMacro? hm
      refine Or.inr (Or.inr (Or.inr (Or.inl ⟨m, _, hd, hm, ?_, rfl⟩)))
      refine MacroTable.define_eq_error_iff.mpr (Or.inl ⟨digits, ?_, rfl⟩)
      exact (OpenMacro.strayPlaceholder?_close_eq_some_iff harity).mpr hstray
    | @duplicate m hd hm hnumbers hname =>
      have harity := arity_lt_of_openMacro? hm
      refine Or.inr (Or.inr (Or.inr (Or.inl ⟨m, _, hd, hm, ?_, rfl⟩)))
      refine MacroTable.define_eq_error_iff.mpr (Or.inr ⟨?_, ?_, rfl⟩)
      · exact (OpenMacro.strayPlaceholder?_close_eq_none_iff harity).mpr hnumbers
      · rw [MacroTable.names_after, List.mem_reverse]
        exact hname
    | @expansion f hplain hfails =>
      obtain ⟨hd, hout⟩ := isPlainAfter_iff.mp hplain
      refine Or.inr (Or.inr (Or.inr (Or.inr ⟨f, hd, houtside.mpr hout, ?_, rfl⟩)))
      exact MacroTable.expandLine_eq_error_iff.mpr hfails

/-! ### Well-formed sources -/

/-- Directives alternate, and the first one begins a definition. -/
def Alternates (ds : List Directive) : Prop :=
  ds.IsChain (· ≠ ·) ∧ ∀ d ∈ ds.head?, d = .begins

/-- The definitions and the invocations of a source are well formed. -/
structure WellFormedMacros (ls : List SourceLine) : Prop where
  alternate : Alternates (directives ls)
  /-- The last directive ends a definition. -/
  last : ∀ d ∈ (directives ls).getLast?, d = .ends
  /-- Every line that begins a definition gives a name and a number of arguments. -/
  header : ∀ l ∈ ls, l.directive = .begins → ∃ name arity, IsHeader l.text name arity
  /-- Every placeholder numbers an argument. -/
  placeholder : ∀ m ∈ completed ls, ∀ digits ∈ m.placeholders, Numbers m.arity digits
  /-- No name is defined twice. -/
  distinct : ((completed ls).map OpenMacro.name).Nodup
  /-- Every line outside of definitions expands with the macros that are completed before it. -/
  expands : ∀ before l after, ls = before ++ l :: after → isPlainAfter before l = true →
    ∃ texts, (MacroTable.after before).Expands maxExpansionDepth l.text texts

section Alternates

variable {ds : List Directive} {d : Directive} {ls : List SourceLine} {l : SourceLine}

lemma alternates_nil : Alternates [] := by
  simp [Alternates]

lemma alternates_concat_iff :
    Alternates (ds ++ [d]) ↔
      Alternates ds ∧ (∀ x ∈ ds.getLast?, x ≠ d) ∧ (ds = [] → d = .begins) := by
  rw [Alternates, Alternates, List.isChain_append]
  cases ds with
  | nil => simp
  | cons x xs => simp [and_right_comm]

lemma Alternates.of_append {as bs : List Directive} (h : Alternates (as ++ bs)) :
    Alternates as := by
  refine ⟨(List.isChain_append.mp h.1).1, fun d hd => h.2 d ?_⟩
  simp [List.head?_append, Option.mem_def.mp hd]

/-- A definition may begin where none is open. -/
lemma alternates_concat_of_begins (h : l.directive = .begins) :
    Alternates (directives (ls ++ [l])) ↔ Alternates (directives ls) ∧ insideMacro ls = false := by
  rw [directives_concat_of_ne_plain ls (by simp [h]), h, alternates_concat_iff]
  refine and_congr_right fun _ => ?_
  rw [insideMacro, beq_eq_false_iff_ne]
  constructor
  · rintro ⟨hlast, -⟩ hbegins
    exact hlast _ hbegins rfl
  · intro hlast
    refine ⟨?_, fun _ => rfl⟩
    rintro _ hbegins rfl
    exact hlast hbegins

/-- A definition may end where one is open. -/
lemma alternates_concat_of_ends (h : l.directive = .ends) :
    Alternates (directives (ls ++ [l])) ↔ Alternates (directives ls) ∧ insideMacro ls = true := by
  rw [directives_concat_of_ne_plain ls (by simp [h]), h, alternates_concat_iff]
  refine and_congr_right fun _ => ⟨?_, ?_⟩
  · rintro ⟨hlast, hnil⟩
    rw [← Bool.not_eq_false, insideMacro_eq_false_iff]
    intro hends
    cases hd : (directives ls).getLast? with
    | none => cases hnil (List.getLast?_eq_none_iff.mp hd)
    | some d => exact hlast d hd (hends d hd)
  · intro hinside
    have hlast : (directives ls).getLast? = some .begins := by simpa [insideMacro] using hinside
    refine ⟨by simp [hlast], fun hnil => ?_⟩
    simp [hnil] at hlast

end Alternates

section WellFormed

variable {ls : List SourceLine}

lemma alternates_of_clean (h : Clean MacroViolation ls) : Alternates (directives ls) := by
  induction ls using List.reverseRecOn with
  | nil => exact alternates_nil
  | append_singleton ls l ih =>
    obtain ⟨hclean, hl⟩ := clean_concat_iff.mp h
    cases hd : l.directive with
    | plain =>
      rw [directives_concat_of_plain ls hd]
      exact ih hclean
    | begins =>
      refine (alternates_concat_of_begins hd).mpr ⟨ih hclean, ?_⟩
      rw [← Bool.not_eq_true]
      exact fun hinside => hl _ (.nested hd hinside)
    | ends =>
      refine (alternates_concat_of_ends hd).mpr ⟨ih hclean, ?_⟩
      rw [← Bool.not_eq_false]
      exact fun houtside => hl _ (.strayEnd hd houtside)

/-- Without a violation no placeholder of an open definition is stray where it ends. -/
lemma numbers_of_no_violation {l : SourceLine} {m : OpenMacro} (hm : openMacro? ls = some m)
    (hd : l.directive = .ends) (h : ∀ e, ¬ MacroViolation ls l e) :
    ∀ digits ∈ m.placeholders, Numbers m.arity digits := by
  have harity := arity_lt_of_openMacro? hm
  rw [← OpenMacro.strayPlaceholder?_close_eq_none_iff harity, Option.eq_none_iff_forall_ne_some]
  intro digits hstray
  have hstray := (OpenMacro.strayPlaceholder?_close_eq_some_iff harity).mp hstray
  exact h _ (.placeholder hd hm hstray)

lemma nodup_names_of_clean (h : Clean MacroViolation ls) :
    ((completed ls).map OpenMacro.name).Nodup := by
  induction ls using List.reverseRecOn with
  | nil => exact List.nodup_nil
  | append_singleton ls l ih =>
    obtain ⟨hclean, hl⟩ := clean_concat_iff.mp h
    by_cases hd : l.directive = .ends
    · rw [completed_concat_of_ends ls hd]
      cases hm : openMacro? ls with
      | none => simpa using ih hclean
      | some m =>
        have hname : m.name ∉ (completed ls).map OpenMacro.name := fun hname =>
          hl _ (.duplicate hd hm (numbers_of_no_violation hm hd hl) hname)
        rw [Option.toList_some, List.map_append, List.map_singleton, List.nodup_append_comm,
          List.singleton_append, List.nodup_cons]
        exact ⟨hname, ih hclean⟩
    · rw [completed_concat_of_ne_ends ls hd]
      exact ih hclean

/-- Without a violation every plain line expands. -/
lemma exists_expandLine_of_clean (h : Clean MacroViolation ls) {before after : List SourceLine}
    {l : SourceLine} (hls : ls = before ++ l :: after) (hplain : isPlainAfter before l = true) :
    ∃ texts, (MacroTable.after before).expandLine maxExpansionDepth l.text = .ok texts := by
  cases hexpand : (MacroTable.after before).expandLine maxExpansionDepth l.text with
  | ok texts => exact ⟨texts, rfl⟩
  | error f =>
    have hfails := MacroTable.expandLine_eq_error_iff.mp hexpand
    exact absurd (.expansion hplain hfails) (h before l after hls _)

/-- Without a violation, and with no definition left open, a source is well formed. -/
lemma wellFormedMacros_of_clean (h : Clean MacroViolation ls) (hend : insideMacro ls = false) :
    WellFormedMacros ls where
  alternate := alternates_of_clean h
  last := insideMacro_eq_false_iff.mp hend
  header l hl hd := by
    obtain ⟨before, after, rfl⟩ := List.append_of_mem hl
    have hclean : Clean MacroViolation ((before ++ [l]) ++ after) := by simpa using h
    have halternate := alternates_of_clean hclean.of_append
    have houtside := ((alternates_concat_of_begins hd).mp halternate).2
    by_contra hheader
    refine h before l after rfl _ (.badHeader hd houtside fun name arity hname => ?_)
    exact hheader ⟨name, arity, hname⟩
  placeholder m hm := by
    obtain ⟨before, l, after, rfl, hd, hm⟩ := mem_completed_iff.mp hm
    exact numbers_of_no_violation hm hd (h before l after rfl)
  distinct := nodup_names_of_clean h
  expands before l after hls hplain := by
    obtain ⟨texts, htexts⟩ := exists_expandLine_of_clean h hls hplain
    exact ⟨texts, MacroTable.expandLine_eq_ok_iff.mp htexts⟩

/-- A well-formed source has no violation. -/
lemma WellFormedMacros.clean (h : WellFormedMacros ls) : Clean MacroViolation ls := by
  rintro before l after rfl e hviolation
  have halternate : Alternates (directives (before ++ [l]) ++ directives after) := by
    simpa [← directives_append] using h.alternate
  replace halternate := halternate.of_append
  cases hviolation with
  | nested hd hinside =>
    exact absurd hinside (by simp [((alternates_concat_of_begins hd).mp halternate).2])
  | badHeader hd _ hheader =>
    obtain ⟨name, arity, hname⟩ := h.header l (by simp) hd
    exact hheader name arity hname
  | strayEnd hd houtside =>
    exact absurd houtside (by simp [((alternates_concat_of_ends hd).mp halternate).2])
  | @placeholder m digits hd hm hstray =>
    obtain ⟨front, rest, heq, -, hstray⟩ := hstray
    have hmem : m ∈ completed (before ++ l :: after) :=
      mem_completed_iff.mpr ⟨before, l, after, rfl, hd, hm⟩
    exact hstray (h.placeholder m hmem digits (by simp [heq]))
  | @duplicate m hd hm _ hname =>
    -- the definition would stand behind another one of its name among all that are completed
    have hfront := completed_prefix_append (before ++ [l]) after
    rw [completed_concat_of_ends before hd, hm, List.append_assoc, List.singleton_append] at hfront
    have hdistinct := h.distinct.sublist (List.Sublist.map OpenMacro.name hfront.sublist)
    rw [Option.toList_some, List.map_append, List.map_singleton, List.nodup_append] at hdistinct
    exact hdistinct.2.2 m.name hname m.name (by simp) rfl
  | expansion hplain hfails =>
    obtain ⟨texts, hexpands⟩ := h.expands before l after rfl hplain
    have hok := MacroTable.expandLine_eq_ok_iff.mpr hexpands
    cases hok.symm.trans (MacroTable.expandLine_eq_error_iff.mpr hfails)

end WellFormed

namespace Expander

variable {ls : List SourceLine}

/-- Lines are read to the end exactly where none has a violation. -/
lemma stepAll_eq_ok_iff_clean :
    start.stepAll ls = .ok (ofLines ls) ↔ Clean MacroViolation ls := by
  rw [← foldlM_eq_ok_iff fun _ l _ _ _ hx e => step_eq_error_iff_violation hx l e]
  constructor
  · intro h
    exact ⟨_, h⟩
  · rintro ⟨x, hx⟩
    rw [← (reads_of_stepAll hx).eq_ofLines]
    exact hx

/-- The error of lines is the one of the first violation. -/
lemma stepAll_eq_error_iff_firstFault {e : MacroError} :
    start.stepAll ls = .error e ↔ FirstFault MacroViolation ls e :=
  foldlM_eq_error_iff fun _ l _ _ _ hx e => step_eq_error_iff_violation hx l e

end Expander

/-- A source is expanded exactly where its macros are well formed. Otherwise the error is the one of
the first line with a violation, or else, where no line has one, of the definition that is still
open behind the last line. -/
theorem expand_outcome (source : String) :
    ((∃ x, expand source = .ok x) ↔ WellFormedMacros (sourceLines source)) ∧
    ∀ e, expand source = .error e ↔
      FirstFault MacroViolation (sourceLines source) e ∨
      (Clean MacroViolation (sourceLines source) ∧
        ∃ m, openMacro? (sourceLines source) = some m ∧ e = ⟨m.line, .unterminated m.name⟩) := by
  refine ⟨⟨?_, fun h => ?_⟩, fun e => ?_⟩
  · rintro ⟨x, hx⟩
    obtain ⟨hall, hopen, -⟩ := expand_eq_ok_iff.mp hx
    exact wellFormedMacros_of_clean (Expander.stepAll_eq_ok_iff_clean.mp hall)
      ((Expander.reads_of_stepAll hall).openMacro?_eq_none_iff.mp hopen)
  · have hall := Expander.stepAll_eq_ok_iff_clean.mpr h.clean
    have hopen := (Expander.reads_of_stepAll hall).openMacro?_eq_none_iff.mpr
      (insideMacro_eq_false_iff.mpr h.last)
    exact ⟨_, expand_eq_ok_iff.mpr ⟨hall, hopen, rfl⟩⟩
  · rw [expand_eq_error_iff, Expander.stepAll_eq_error_iff_firstFault,
      Expander.stepAll_eq_ok_iff_clean, exists_and_left]

end StackAssembler
