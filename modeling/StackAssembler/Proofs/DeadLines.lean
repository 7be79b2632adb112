import StackAssembler.Proofs.Lines
import StackAssembler.Proofs.Passes
import StackAssembler.Proofs.Tokens

/-!
# Dead lines

Pruning as a change of the source. A line is dead when it states an instruction and a jump stands
between it and the label definition before it. Assembling a source under pruning is assembling,
with all its instructions, a source where every dead line is a comment.
-/

namespace StackAssembler

open Text

/-! ### Dead lines of a text -/

/-- The line states an instruction. -/
def statesInstruction (text : String) : Bool :=
  match Line.classify text with
  | .ok (.instruction _) => true
  | _ => false

/-- The line defines a label. -/
def definesLabel (text : String) : Bool :=
  match Line.classify text with
  | .ok (.label _) => true
  | _ => false

/-- The first token of the line is the mnemonic of an unconditional jump. -/
def startsWithJump (text : String) : Bool := (tokensOf text).head? == some "JMP"

/-- The line holds a comment and nothing before it. -/
def isComment (text : String) : Bool := (text.toList.dropWhile isGap).head?.any opensComment

/-- The line at a place states an instruction, and a jump stands between it and the nearest label
definition before it, or the start of the text where there is none. -/
def IsDead (texts : List String) (i : Nat) : Prop :=
  texts[i]?.any statesInstruction = true ∧ ∃ j < i, texts[j]?.any startsWithJump = true ∧
    ∀ k < i, j < k → texts[k]?.any definesLabel = false

instance (texts : List String) : DecidablePred (IsDead texts) := fun i =>
  inferInstanceAs (Decidable (_ ∧ ∃ j, j < i ∧ _ ∧ ∀ k, k < i → _))

/-- The second text has the lines of the first, with a comment in place of every dead line. -/
def CommentsOut (texts texts' : List String) : Prop :=
  texts'.length = texts.length ∧ ∀ i < texts.length,
    if IsDead texts i then texts'[i]?.any isComment = true else texts'[i]? = texts[i]?

lemma Line.classify_of_isComment {text : String} (h : isComment text = true) :
    Line.classify text = .ok .ignorable :=
  classify_eq_ignorable_iff.mpr (tokens_eq_nil_of_comment h)

namespace SourceLine

lemma isSome_statement? (l : SourceLine) : l.statement?.isSome = statesInstruction l.text := by
  rw [statement?, statesInstruction]
  split <;> simp_all

lemma isSome_label? (l : SourceLine) : l.label?.isSome = definesLabel l.text := by
  rw [label?, definesLabel]
  split <;> simp_all

/-- A line states a jump exactly when its first token says so. -/
lemma isJump_eq_startsWithJump (l : SourceLine) : l.isJump = startsWithJump l.text := by
  rw [isJump, statement?, startsWithJump, Line.classify, tokensOf, List.head?_map]
  cases tokens l.text.toList with
  | nil => rfl
  | cons first rest =>
    by_cases hcolon : first.getLast? = some ':'
    · have hne : String.ofList first ≠ "JMP" := by
        rintro heq
        have hfirst : first = ['J', 'M', 'P'] := by
          simpa using congrArg String.toList heq
        simp [hfirst] at hcolon
      have hnone : ∀ s, Line.ofTokens l.text.toList (first :: rest) ≠ .ok (.instruction s) := by
        intro s
        simp only [Line.ofTokens, if_pos hcolon]
        split <;> simp
      split
      · next s hs => exact absurd hs (hnone s)
      · simp [hne]
    · simp [Line.ofTokens, hcolon]

end SourceLine

/-! ### Lines by their place -/

/-- A jump stands behind the last label exactly when it is at a place without a label behind it. -/
lemma behindJump_iff {ls : List SourceLine} :
    behindJump ls = true ↔ ∃ j < ls.length, ls[j]?.any SourceLine.isJump = true ∧
      ∀ k < ls.length, j < k → ls[k]?.any (·.label?.isSome) = false := by
  induction ls using List.reverseRecOn with
  | nil => simp
  | append_singleton ls l ih =>
    rw [behindJump_concat, Bool.and_eq_true, Bool.or_eq_true, ih, List.length_append,
      List.length_singleton]
    have hplace : ∀ k < ls.length, (ls ++ [l])[k]? = ls[k]? := fun k hk =>
      List.getElem?_append_left hk
    have hlast : (ls ++ [l])[ls.length]? = some l := List.getElem?_concat_length
    constructor
    · rintro ⟨hlabel, ⟨j, hj, hjump, hnone⟩ | hjump⟩
      · refine ⟨j, by omega, by rwa [hplace j hj], fun k hk hjk => ?_⟩
        obtain hk | rfl := Nat.lt_succ_iff_lt_or_eq.mp hk
        · rw [hplace k hk]
          exact hnone k hk hjk
        · rw [hlast, Option.any_some]
          simpa using hlabel
      · refine ⟨ls.length, by omega, by rwa [hlast], fun k hk hjk => ?_⟩
        omega
    · rintro ⟨j, hj, hjump, hnone⟩
      obtain hj | rfl := Nat.lt_succ_iff_lt_or_eq.mp hj
      · have hl := hnone ls.length (by omega) hj
        rw [hlast, Option.any_some] at hl
        refine ⟨by simpa using hl, Or.inl ⟨j, hj, ?_, fun k hk hjk => ?_⟩⟩
        · rwa [hplace j hj] at hjump
        · rw [← hplace k hk]
          exact hnone k (by omega) hjk
      · rw [hlast, Option.any_some] at hjump
        refine ⟨?_, Or.inr hjump⟩
        cases hs : l.statement? with
        | none => simp [SourceLine.isJump, hs] at hjump
        | some s => simp [l.label?_eq_none_of_statement? hs]

/-- The line behind other lines is dead exactly when it states an instruction behind a jump. -/
lemma isDead_iff {before after : List SourceLine} {l : SourceLine} :
    IsDead ((before ++ l :: after).map SourceLine.text) before.length ↔
      l.statement?.isSome = true ∧ behindJump before = true := by
  have hplace : ∀ k < before.length,
      ((before ++ l :: after).map SourceLine.text)[k]? = before[k]?.map SourceLine.text := by
    intro k hk
    rw [List.getElem?_map, List.getElem?_append_left hk]
  have hhere : ((before ++ l :: after).map SourceLine.text)[before.length]? = some l.text := by
    simp
  rw [IsDead, behindJump_iff, hhere, Option.any_some, ← l.isSome_statement?]
  refine and_congr_right fun _ => exists_congr fun j => and_congr_right fun hj => ?_
  refine and_congr ?_ (forall_congr' fun k => forall_congr' fun hk => ?_)
  · rw [hplace j hj, Option.any_map]
    simp only [← SourceLine.isJump_eq_startsWithJump]
  · rw [hplace k hk, Option.any_map]
    simp only [← SourceLine.isSome_label?]

/-- What stands at the places of two texts where one comments out the dead lines of the other. -/
lemma CommentsOut.line {texts texts' : List String} {n : Nat}
    {before after before' after' : List SourceLine} {l l' : SourceLine}
    (h : CommentsOut texts texts') (hls : numberFrom n texts = before ++ l :: after)
    (hls' : numberFrom n texts' = before' ++ l' :: after')
    (hlength : before.length = before'.length) :
    (l.statement?.isSome = true ∧ behindJump before = true ∧
      Line.classify l'.text = .ok .ignorable) ∨
    (l' = l ∧ (l.statement?.isSome = true → behindJump before = false)) := by
  have htexts : texts = (before ++ l :: after).map SourceLine.text := by
    rw [← hls, map_text_numberFrom]
  have htexts' : texts' = (before' ++ l' :: after').map SourceLine.text := by
    rw [← hls', map_text_numberFrom]
  have hnumber : l'.number = l.number := by
    rw [number_of_numberFrom_eq hls, number_of_numberFrom_eq hls', hlength]
  have hl : texts[before.length]? = some l.text := by simp [htexts]
  have hl' : texts'[before.length]? = some l'.text := by simp [htexts', hlength]
  have hplace := h.2 before.length (List.getElem?_eq_some_iff.mp hl).1
  rw [hl, hl'] at hplace
  split_ifs at hplace with hdead
  · left
    rw [htexts, isDead_iff] at hdead
    exact ⟨hdead.1, hdead.2, Line.classify_of_isComment hplace⟩
  · right
    rw [htexts, isDead_iff] at hdead
    obtain ⟨number, text⟩ := l
    obtain ⟨number', text'⟩ := l'
    obtain rfl : number' = number := hnumber
    obtain rfl : text' = text := Option.some.inj hplace
    refine ⟨rfl, fun hs => ?_⟩
    rw [← Bool.not_eq_true]
    exact fun hb => hdead ⟨hs, hb⟩

/-! ### The passes over both texts -/

lemma SourceLine.map_locate {α β : Type} (l : SourceLine) (f : α → β) (x : Except LineFault α) :
    (l.locate x).map f = l.locate (x.map f) := by
  cases x <;> rfl

namespace Survey

/-- What the first pass has found out about addresses and labels. -/
def found (s : Survey) : Nat × LabelTable := (s.address, s.labels)

/-- What a line does to addresses and labels depends on the reach of control only where the line
states an instruction. -/
lemma map_found_scan {s s' : Survey} {l : SourceLine} (hfound : s.found = s'.found)
    (hadmits : l.statement?.isSome = true → s.reach.admits = s'.reach.admits) :
    (s.scan l).map found = (s'.scan l).map found := by
  obtain ⟨haddress, hlabels⟩ := Prod.mk.inj hfound
  rw [scan, scan, SourceLine.map_locate, SourceLine.map_locate]
  congr 1
  cases hline : Line.classify l.text with
  | error f => rfl
  | ok line =>
    show (s.step line).map found = (s'.step line).map found
    cases line with
    | label name =>
      rw [step, step, haddress, hlabels]
      cases s'.labels.define name s'.address with
      | error f => rfl
      | ok labels => simp [Except.map, found]
    | instruction st =>
      have hadmits := hadmits (by simp [SourceLine.statement?, hline])
      rw [step, step, hadmits]
      cases s'.reach.admits <;> simp [Except.map, found, haddress, hlabels]
    | ignorable => exact congrArg Except.ok hfound

end Survey

/-- The same holds of what a line does to the words of the second pass. -/
lemma Emission.map_cells_scan {maxWords : Nat} {labels : LabelTable} {e e' : Emission}
    {l : SourceLine} (hcells : e.cells = e'.cells)
    (hadmits : l.statement?.isSome = true → e.reach.admits = e'.reach.admits) :
    (e.scan maxWords labels l).map cells = (e'.scan maxWords labels l).map cells := by
  rw [scan, scan, SourceLine.map_locate, SourceLine.map_locate]
  congr 1
  cases hline : Line.classify l.text with
  | error f => rfl
  | ok line =>
    show (step maxWords labels e l.number line).map cells =
      (step maxWords labels e' l.number line).map cells
    cases line with
    | label name => exact congrArg Except.ok hcells
    | instruction st =>
      have hadmits := hadmits (by simp [SourceLine.statement?, hline])
      rw [step, step, hadmits, hcells]
      cases e'.reach.admits with
      | false => exact congrArg Except.ok hcells
      | true =>
        cases st.word labels with
        | error f => rfl
        | ok word => cases h : emit maxWords e'.cells ⟨word, l.number⟩ <;> simp [h, Except.map]
    | ignorable => exact congrArg Except.ok hcells

section Passes

variable {maxWords capacity : Nat} {texts texts' : List String} {n : Nat}

/-- Both texts have the same labels at the same addresses, or the same fault of a label. -/
lemma map_found_run_of_commentsOut (h : CommentsOut texts texts') :
    (Survey.run ⟨maxWords, capacity, .pruneAfterJump⟩ (numberFrom n texts)).map Survey.found =
      (Survey.run ⟨maxWords, capacity, .keep⟩ (numberFrom n texts')).map Survey.found := by
  refine map_foldlM_eq_map_foldlM (by simp [h.1]) rfl ?_
  intro before l after before' l' after' s s' hls hls' hlength hs hs' hfound
  obtain rfl := Survey.eq_ofLines_of_run hs
  obtain rfl := Survey.eq_ofLines_of_run hs'
  rcases h.line hls hls' hlength with ⟨hst, hbehind, hcomment⟩ | ⟨rfl, hreached⟩
  · -- the dead line leaves the first pass as it is, and so does the comment in its place
    obtain ⟨st, hst⟩ := Option.isSome_iff_exists.mp hst
    have hscan : (Survey.ofLines ⟨maxWords, capacity, .pruneAfterJump⟩ before).scan l =
        .ok (Survey.ofLines ⟨maxWords, capacity, .pruneAfterJump⟩ before) :=
      Survey.scan_eq_ok_iff.mpr (Or.inr (Or.inr (Or.inl
        ⟨st, hst, by simp [Survey.ofLines, hbehind], rfl⟩)))
    have hscan' : (Survey.ofLines ⟨maxWords, capacity, .keep⟩ before').scan l' =
        .ok (Survey.ofLines ⟨maxWords, capacity, .keep⟩ before') :=
      Survey.scan_eq_ok_iff.mpr (Or.inr (Or.inr (Or.inr ⟨hcomment, rfl⟩)))
    rw [hscan, hscan']
    exact congrArg Except.ok hfound
  · refine Survey.map_found_scan hfound fun hst => ?_
    simp [Survey.ofLines, hreached hst]

/-- Both texts have the same words, or the same fault of an instruction. -/
lemma map_cells_run_of_commentsOut (labels : LabelTable) (h : CommentsOut texts texts') :
    (Emission.run ⟨maxWords, capacity, .pruneAfterJump⟩ labels (numberFrom n texts)).map
        Emission.cells =
      (Emission.run ⟨maxWords, capacity, .keep⟩ labels (numberFrom n texts')).map
        Emission.cells := by
  refine map_foldlM_eq_map_foldlM (by simp [h.1]) rfl ?_
  intro before l after before' l' after' e e' hls hls' hlength he he' hcells
  have hreach := (Emission.lays_of_run he).reach
  have hreach' := (Emission.lays_of_run he').reach
  rcases h.line hls hls' hlength with ⟨hst, hbehind, hcomment⟩ | ⟨rfl, hreached⟩
  · obtain ⟨st, hst⟩ := Option.isSome_iff_exists.mp hst
    have hscan : e.scan maxWords labels l = .ok e :=
      Emission.scan_eq_ok_iff.mpr (Or.inr (Or.inr (Or.inl
        ⟨st, hst, by simp [hreach, hbehind], rfl⟩)))
    have hscan' : e'.scan maxWords labels l' = .ok e' :=
      Emission.scan_eq_ok_iff.mpr (Or.inr (Or.inr (Or.inr ⟨hcomment, rfl⟩)))
    rw [hscan, hscan']
    exact congrArg Except.ok hcells
  · refine Emission.map_cells_scan hcells fun hst => ?_
    simp [hreach, hreach', hreached hst]

end Passes

/-! ### Commenting out -/

/-- An assembly takes no more from its passes than the labels and the words. -/
lemma assemble_of_check_eq_map {config : Config} {source : String}
    (h : config.check source = .ok ()) :
    assemble config source =
      (Survey.run config (sourceLines source)).map Survey.found >>= fun found =>
        (Emission.run config found.2 (sourceLines source)).map Emission.cells >>= fun cells =>
          .ok ⟨cells, found.2⟩ := by
  simp only [assemble_of_check h, map_bind_eq, Survey.found]

/-- Pruning is assembling without the dead lines. Where a text has the lines of a source with a
comment in place of every dead line, assembling the source under pruning and assembling the text
with all its instructions give the same answer: the same words, origins and labels, or the same
error at the same line. -/
theorem pruning_is_commenting_out (maxWords capacity : Nat) {source source' : String}
    (h : CommentsOut (linesOf source) (linesOf source')) :
    assemble ⟨maxWords, capacity, .pruneAfterJump⟩ source =
      assemble ⟨maxWords, capacity, .keep⟩ source' := by
  have hempty : source = "" ↔ source' = "" := by
    rw [← linesOf_eq_nil_iff, ← linesOf_eq_nil_iff, ← List.length_eq_zero_iff, ← h.1,
      List.length_eq_zero_iff]
  have hcheck : Config.check ⟨maxWords, capacity, .pruneAfterJump⟩ source =
      Config.check ⟨maxWords, capacity, .keep⟩ source' := by
    simp only [Config.check, hempty]
  cases hc : Config.check ⟨maxWords, capacity, .pruneAfterJump⟩ source with
  | error fault => rw [assemble, assemble, ← hcheck, hc]
  | ok u =>
    rw [assemble_of_check_eq_map hc, assemble_of_check_eq_map (hcheck ▸ hc), sourceLines,
      sourceLines, map_found_run_of_commentsOut h]
    simp only [map_cells_run_of_commentsOut _ h]

/-- Behind the first jump an unknown mnemonic and a jump to nowhere are dead; the malformed jump
behind the label is not, and is reported under both. -/
theorem pruning_is_commenting_out_malformed_jump :
    CommentsOut (linesOf "JMP a\nFOO\nJMP b\na: ; x\nJMP\nOUT\n")
      (linesOf "JMP a\n ;FOO\n# b\na: ; x\nJMP\n;\n") ∧
    assemble ⟨8, 4, .pruneAfterJump⟩ "JMP a\nFOO\nJMP b\na: ; x\nJMP\nOUT\n" =
      .error (.atLine 5 (.missingOperand "JMP")) ∧
    assemble ⟨8, 4, .keep⟩ "JMP a\n ;FOO\n# b\na: ; x\nJMP\n;\n" =
      .error (.atLine 5 (.missingOperand "JMP")) := by
  have h : CommentsOut (linesOf "JMP a\nFOO\nJMP b\na: ; x\nJMP\nOUT\n")
      (linesOf "JMP a\n ;FOO\n# b\na: ; x\nJMP\n;\n") := by
    unfold CommentsOut
    decide +kernel
  have hpruned : assemble ⟨8, 4, .pruneAfterJump⟩ "JMP a\nFOO\nJMP b\na: ; x\nJMP\nOUT\n" =
      .error (.atLine 5 (.missingOperand "JMP")) := by
    decide +kernel
  refine ⟨h, hpruned, ?_⟩
  rw [← pruning_is_commenting_out 8 4 h]
  exact hpruned

end StackAssembler
