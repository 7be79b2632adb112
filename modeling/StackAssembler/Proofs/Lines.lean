import Mathlib.Data.List.Basic
import Mathlib.Tactic.Lemma
import StackAssembler.Text.Lines

/-!
# Lines of a text

What the lines are of a text that was put together from lines. A line feed ends a line, and takes a
carriage return right before it along; so lines that are joined come back up to such a carriage
return. A text can be rewritten line by line with its line ends kept, and then has the rewritten
lines: `lines_mapLines`.
-/

namespace StackAssembler.Text

lemma lines_cons {c : Char} {cs : List Char} (hc : c ≠ '\n') (h : c = '\r' → cs.head? ≠ some '\n') :
    lines (c :: cs) = (match lines cs with
      | [] => [[c]]
      | l :: ls => (c :: l) :: ls) := by
  refine lines.eq_4 c cs ?_ hc
  rintro rest rfl rfl
  exact h rfl rfl

/-- A text without lines is empty. -/
lemma lines_eq_nil_iff {cs : List Char} : lines cs = [] ↔ cs = [] := by
  fun_cases lines cs <;> simp_all

lemma linesOf_eq_nil_iff {source : String} : linesOf source = [] ↔ source = "" := by
  rw [linesOf, List.map_eq_nil_iff, lines_eq_nil_iff, String.toList_eq_nil_iff]

/-- No line holds a line feed. -/
lemma newline_not_mem_of_mem_lines (cs : List Char) : ∀ l ∈ lines cs, '\n' ∉ l := by
  fun_induction lines cs with
  | case1 => simp
  | case2 cs ih => exact List.forall_mem_cons.mpr ⟨List.not_mem_nil, ih⟩
  | case3 cs ih => exact List.forall_mem_cons.mpr ⟨List.not_mem_nil, ih⟩
  | case4 c cs _ hc _ _ => simpa using Ne.symm hc
  | case5 c cs _ hc l ls hlines ih =>
    rw [hlines, List.forall_mem_cons] at ih
    obtain ⟨hl, hls⟩ := ih
    exact List.forall_mem_cons.mpr ⟨List.not_mem_cons_of_ne_of_not_mem (Ne.symm hc) hl, hls⟩

lemma newline_not_mem_of_mem_linesOf {source l : String} (h : l ∈ linesOf source) :
    '\n' ∉ l.toList := by
  obtain ⟨cs, hcs, rfl⟩ := List.mem_map.mp h
  rw [String.toList_ofList]
  exact newline_not_mem_of_mem_lines _ cs hcs

/-- A line without the carriage return at its end. -/
def dropReturn (cs : List Char) : List Char :=
  if cs.getLast? = some '\r' then cs.dropLast else cs

@[simp] lemma dropReturn_nil : dropReturn [] = [] := rfl

lemma dropReturn_cons {c : Char} {cs : List Char} (h : c = '\r' → cs ≠ []) :
    dropReturn (c :: cs) = c :: dropReturn cs := by
  cases cs with
  | nil =>
    have hc : c ≠ '\r' := fun hc => h hc rfl
    simp [dropReturn, hc]
  | cons d cs =>
    rw [dropReturn, dropReturn, List.getLast?_cons_cons]
    split_ifs <;> simp

/-- A line feed ends the first line of a text. -/
lemma lines_append_newline {l : List Char} (h : '\n' ∉ l) (rest : List Char) :
    lines (l ++ '\n' :: rest) = dropReturn l :: lines rest := by
  induction l with
  | nil => simp
  | cons c l ih =>
    rw [List.mem_cons, not_or] at h
    by_cases hreturn : c = '\r' ∧ l = []
    · obtain ⟨rfl, rfl⟩ := hreturn
      simp [dropReturn]
    · rw [not_and] at hreturn
      rw [List.cons_append, dropReturn_cons hreturn, lines_cons (Ne.symm h.1), ih h.2]
      intro hc
      obtain ⟨d, l, rfl⟩ := List.exists_cons_of_ne_nil (hreturn hc)
      simp only [List.mem_cons, not_or] at h
      simpa using Ne.symm h.2.1

/-- Behind a line feed, or at its start, a text can be cut without a change of its lines. -/
lemma lines_append {as : List Char} (h : ∀ c ∈ as.getLast?, c = '\n') (bs : List Char) :
    lines (as ++ bs) = lines as ++ lines bs := by
  fun_induction lines as with
  | case1 => rfl
  | case2 cs ih =>
    have htail := ih fun c hc => h c (List.mem_getLast?_cons (List.mem_getLast?_cons hc))
    rw [List.cons_append, List.cons_append, lines_return_newline_cons, htail, List.cons_append]
  | case3 cs ih =>
    have htail := ih fun c hc => h c (List.mem_getLast?_cons hc)
    rw [List.cons_append, lines_newline_cons, htail, List.cons_append]
  | case4 c cs _ hc hlines _ =>
    rw [lines_eq_nil_iff] at hlines
    subst hlines
    exact absurd (h c rfl) hc
  | case5 c cs hreturn hc l ls hlines ih =>
    have htail := ih fun d hd => h d (List.mem_getLast?_cons hd)
    have hhead : c = '\r' → (cs ++ bs).head? ≠ some '\n' := by
      cases cs with
      | nil => cases hlines
      | cons d cs =>
        intro hc hd
        exact hreturn cs hc (by simpa using hd)
    rw [List.cons_append, lines_cons hc hhead, htail, hlines]
    rfl

lemma linesOf_append {a : String} (h : ∀ c ∈ a.toList.getLast?, c = '\n') (b : String) :
    linesOf (a ++ b) = linesOf a ++ linesOf b := by
  rw [linesOf, String.toList_append, lines_append h, List.map_append]
  rfl

/-- A text without line feeds is one line. -/
lemma lines_eq_singleton {l : List Char} (hne : l ≠ []) (h : '\n' ∉ l) : lines l = [l] := by
  induction l with
  | nil => exact absurd rfl hne
  | cons c l ih =>
    rw [List.mem_cons, not_or] at h
    have hhead : l.head? ≠ some '\n' := fun hhead => h.2 (List.mem_of_head? hhead)
    rw [lines_cons (Ne.symm h.1) fun _ => hhead]
    cases l with
    | nil => rfl
    | cons d l => rw [ih (by simp) h.2]

/-- The lines of a text where each of the given ones is ended by a line feed. -/
lemma lines_flatMap_newline {ls : List (List Char)} (h : ∀ l ∈ ls, '\n' ∉ l) :
    lines (ls.flatMap (· ++ ['\n'])) = ls.map dropReturn := by
  induction ls with
  | nil => rfl
  | cons l ls ih =>
    rw [List.flatMap_cons, List.append_assoc, List.singleton_append,
      lines_append_newline (h l (by simp)), ih fun m hm => h m (by simp [hm]), List.map_cons]

/-! ### Joined lines -/

/-- The lines, or one empty line where there are none. -/
def orBlank : List String → List String
  | [] => [""]
  | l :: ls => l :: ls

lemma orBlank_eq_self {ls : List String} (h : ls ≠ []) : orBlank ls = ls := by
  cases ls with
  | nil => exact absurd rfl h
  | cons l ls => rfl

lemma length_orBlank (ls : List String) : (orBlank ls).length = max 1 ls.length := by
  cases ls with
  | nil => rfl
  | cons l ls => simp [orBlank]

lemma toList_joinLines (ls : List String) :
    (joinLines ls).toList = ((orBlank ls).map String.toList).flatMap (· ++ ['\n']) := by
  rw [joinLines, String.toList_ofList]
  cases ls with
  | nil => rfl
  | cons l ls =>
    rw [orBlank]
    induction ls generalizing l with
    | nil => simp
    | cons m ls ih =>
      have htail := ih m
      rw [List.map_cons] at htail
      rw [List.map_cons, List.map_cons, List.intercalate_cons_cons, List.flatMap_cons,
        List.append_assoc, htail]

/-- The texts, each ended by a line feed. -/
def endLines (ls : List String) : String :=
  String.ofList ((ls.map String.toList).flatMap (· ++ ['\n']))

lemma joinLines_eq_endLines (ls : List String) : joinLines ls = endLines (orBlank ls) := by
  rw [← String.toList_inj, toList_joinLines, endLines, String.toList_ofList]

/-- More lines behind some are more text behind theirs. -/
lemma joinLines_append {as : List String} (h : as ≠ []) (bs : List String) :
    joinLines (as ++ bs) = joinLines as ++ endLines bs := by
  rw [joinLines_eq_endLines, joinLines_eq_endLines, orBlank_eq_self h,
    orBlank_eq_self (List.append_ne_nil_of_left_ne_nil h bs), ← String.toList_inj]
  simp [endLines]

lemma linesOf_endLines {ls : List String} (h : ∀ l ∈ ls, '\n' ∉ l.toList) :
    linesOf (endLines ls) = ls.map fun l => String.ofList (dropReturn l.toList) := by
  have hnewline : ∀ cs ∈ ls.map String.toList, '\n' ∉ cs := by
    intro cs hcs
    obtain ⟨l, hl, rfl⟩ := List.mem_map.mp hcs
    exact h l hl
  rw [linesOf, endLines, String.toList_ofList, lines_flatMap_newline hnewline, List.map_map,
    List.map_map]
  rfl

lemma dropReturn_eq_self {cs : List Char} (h : cs.getLast? ≠ some '\r') : dropReturn cs = cs :=
  if_neg h

/-- Lines that do not end in a carriage return come back as they are. -/
lemma linesOf_endLines_eq_self {ls : List String} (hnewline : ∀ l ∈ ls, '\n' ∉ l.toList)
    (hreturn : ∀ l ∈ ls, l.toList.getLast? ≠ some '\r') : linesOf (endLines ls) = ls := by
  rw [linesOf_endLines hnewline]
  nth_rewrite 2 [← List.map_id ls]
  apply List.map_congr_left
  intro l hl
  rw [dropReturn_eq_self (hreturn l hl), String.ofList_toList, id]

lemma newline_not_mem_of_mem_orBlank {ls : List String} (h : ∀ l ∈ ls, '\n' ∉ l.toList)
    {m : String} (hm : m ∈ orBlank ls) : '\n' ∉ m.toList := by
  cases ls with
  | nil =>
    obtain rfl := List.mem_singleton.mp hm
    simp
  | cons l ls => exact h m hm

/-- Lines that are joined come back without the carriage returns at their ends. -/
theorem linesOf_joinLines {ls : List String} (h : ∀ l ∈ ls, '\n' ∉ l.toList) :
    linesOf (joinLines ls) =
      (orBlank ls).map fun l => String.ofList (dropReturn l.toList) := by
  rw [joinLines_eq_endLines, linesOf_endLines fun _ hm => newline_not_mem_of_mem_orBlank h hm]

/-- The text holds no character that can end a line. -/
def NoLineEnd (cs : List Char) : Prop := ∀ c ∈ cs, c ≠ '\n' ∧ c ≠ '\r'

lemma noLineEnd_append {as bs : List Char} (ha : NoLineEnd as) (hb : NoLineEnd bs) :
    NoLineEnd (as ++ bs) := by
  intro c hc
  rcases List.mem_append.mp hc with hc | hc
  · exact ha c hc
  · exact hb c hc

/-- Lines without line ends come back as they are. -/
lemma linesOf_joinLines_eq_self {ls : List String} (hne : ls ≠ [])
    (h : ∀ l ∈ ls, NoLineEnd l.toList) : linesOf (joinLines ls) = ls := by
  rw [joinLines_eq_endLines, orBlank_eq_self hne]
  apply linesOf_endLines_eq_self
  · intro m hm hc
    exact (h m hm _ hc).1 rfl
  · intro m hm hlast
    exact (h m hm _ (List.mem_of_getLast? hlast)).2 rfl

/-- Cut at its line feeds, a text of joined lines gives the lines and what stands behind the last
line feed, which is nothing. -/
theorem splitOn_newline_joinLines {ls : List String} (h : ∀ l ∈ ls, '\n' ∉ l.toList) :
    (joinLines ls).toList.splitOn '\n' = (orBlank ls).map String.toList ++ [[]] := by
  have hsplit : ∀ ms : List (List Char), (∀ m ∈ ms, '\n' ∉ m) →
      (ms.flatMap (· ++ ['\n'])).splitOn '\n' = ms ++ [[]] := by
    intro ms hms
    induction ms with
    | nil => rfl
    | cons m ms ih =>
      rw [List.flatMap_cons, List.append_assoc, List.singleton_append,
        List.splitOn_append_cons_self_of_not_mem (hms m (by simp)),
        ih fun k hk => hms k (by simp [hk]), List.cons_append]
  rw [toList_joinLines]
  apply hsplit
  intro cs hcs
  obtain ⟨m, hm, rfl⟩ := List.mem_map.mp hcs
  exact newline_not_mem_of_mem_orBlank h hm

/-! ### Lines with their ends -/

/-- The lines of a text, each with the characters that end it. -/
def endedLines : List Char → List (List Char × List Char)
  | [] => []
  | '\r' :: '\n' :: cs => ([], ['\r', '\n']) :: endedLines cs
  | '\n' :: cs => ([], ['\n']) :: endedLines cs
  | c :: cs =>
    match endedLines cs with
    | [] => [([c], [])]
    | (l, lineEnd) :: ls => (c :: l, lineEnd) :: ls

/-- The text with every line replaced and the line ends kept. -/
def mapLines (g : List Char → List Char) (cs : List Char) : List Char :=
  (endedLines cs).flatMap fun l => g l.1 ++ l.2

/-- Lines and their ends in one of the forms that a text is cut into. -/
inductive Ended : List (List Char × List Char) → Prop where
  | nil : Ended []
  | last {l : List Char} (hne : l ≠ []) (hl : '\n' ∉ l) : Ended [(l, [])]
  | feed {l : List Char} {ls : List (List Char × List Char)} (hl : '\n' ∉ l)
      (hreturn : l.getLast? ≠ some '\r') (hls : Ended ls) : Ended ((l, ['\n']) :: ls)
  | returnFeed {l : List Char} {ls : List (List Char × List Char)} (hl : '\n' ∉ l)
      (hls : Ended ls) : Ended ((l, ['\r', '\n']) :: ls)

/-- A line can be replaced by another without a change of its line end: the other is not empty
unless the line is, and brings no line end with it. -/
structure Replaces (m l : List Char) : Prop where
  ne_nil : l ≠ [] → m ≠ []
  newline : '\n' ∉ m
  getLast : m.getLast? = some '\r' → l.getLast? = some '\r'

/-- The lines and their ends make up the text. -/
lemma mapLines_id (cs : List Char) : mapLines id cs = cs := by
  rw [mapLines]
  fun_induction endedLines cs with
  | case1 => rfl
  | case2 cs ih => simpa using ih
  | case3 cs ih => simpa using ih
  | case4 c cs _ _ hlines ih => simpa [hlines] using ih
  | case5 c cs _ _ l lineEnd ls hlines ih => simpa [hlines] using ih

lemma ended_endedLines (cs : List Char) : Ended (endedLines cs) := by
  fun_induction endedLines cs with
  | case1 => exact .nil
  | case2 cs ih => exact .returnFeed List.not_mem_nil ih
  | case3 cs ih => exact .feed List.not_mem_nil (by simp) ih
  | case4 c cs _ hc _ _ => exact .last (by simp) (by simpa using Ne.symm hc)
  | case5 c cs hreturn hc l lineEnd ls hlines ih =>
    have hcons : '\n' ∉ l → '\n' ∉ c :: l := List.not_mem_cons_of_ne_of_not_mem (Ne.symm hc)
    rw [hlines] at ih
    cases ih with
    | last _ hl => exact .last (by simp) (hcons hl)
    | returnFeed hl hls => exact .returnFeed (hcons hl) hls
    | feed hl hlast hls =>
      refine .feed (hcons hl) ?_ hls
      cases l with
      | nil =>
        -- the text goes on with the line feed, so a carriage return would belong to the line end
        have hcs := mapLines_id cs
        rw [mapLines, hlines, List.flatMap_cons] at hcs
        intro hc
        exact hreturn _ (by simpa using hc) hcs.symm
      | cons d l => rwa [List.getLast?_cons_cons]

namespace Ended

variable {ls : List (List Char × List Char)}

lemma lines_flatMap (h : Ended ls) : lines (ls.flatMap fun l => l.1 ++ l.2) = ls.map Prod.fst := by
  induction h with
  | nil => rfl
  | last hne hl => simpa using lines_eq_singleton hne hl
  | feed hl hreturn hls ih =>
    rw [List.flatMap_cons, List.append_assoc, List.singleton_append, lines_append_newline hl, ih,
      dropReturn_eq_self hreturn, List.map_cons]
  | @returnFeed l ls hl hls ih =>
    have hl' : '\n' ∉ l ++ ['\r'] := by simpa using hl
    have hdrop : dropReturn (l ++ ['\r']) = l := by simp [dropReturn]
    have htext : l ++ ['\r', '\n'] ++ ls.flatMap (fun l => l.1 ++ l.2) =
        l ++ ['\r'] ++ '\n' :: ls.flatMap (fun l => l.1 ++ l.2) := by
      simp
    rw [List.flatMap_cons, htext, lines_append_newline hl', ih, hdrop, List.map_cons]

lemma map {g : List Char → List Char} (h : Ended ls) (hg : ∀ l ∈ ls, Replaces (g l.1) l.1) :
    Ended (ls.map (Prod.map g id)) := by
  induction h with
  | nil => exact .nil
  | last hne hl =>
    rw [List.forall_mem_singleton] at hg
    exact .last (hg.ne_nil hne) hg.newline
  | feed hl hreturn hls ih =>
    rw [List.forall_mem_cons] at hg
    exact .feed hg.1.newline (fun hlast => hreturn (hg.1.getLast hlast)) (ih hg.2)
  | returnFeed hl hls ih =>
    rw [List.forall_mem_cons] at hg
    exact .returnFeed hg.1.newline (ih hg.2)

end Ended

lemma map_fst_endedLines (cs : List Char) : (endedLines cs).map Prod.fst = lines cs := by
  rw [← (ended_endedLines cs).lines_flatMap]
  exact congrArg lines (mapLines_id cs)

/-- The lines of a text with replaced lines are the replaced lines. -/
theorem lines_mapLines {g : List Char → List Char} {cs : List Char}
    (h : ∀ l ∈ lines cs, Replaces (g l) l) : lines (mapLines g cs) = (lines cs).map g := by
  rw [← map_fst_endedLines, List.forall_mem_map] at h
  have hmap := ((ended_endedLines cs).map h).lines_flatMap
  rw [List.flatMap_map] at hmap
  rw [mapLines, ← map_fst_endedLines cs, List.map_map]
  simpa [Function.comp_def] using hmap

end StackAssembler.Text
