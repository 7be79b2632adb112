import Mathlib.Data.List.Flatten
import Mathlib.Data.List.Perm.Basic
import StackAssembler.Assembly.Listing
import StackAssembler.Proofs.Disassembly
import StackAssembler.Proofs.SymbolMap

/-!
# Listings of programs

What a listing has to show, address by address: the labels that stand for the address, in order of
definition, and the word there; and behind the last word the labels that stand for the end of the
program. A listing is written in one go over the words, with the labels not yet written at hand. It
shows what it has to because the labels of an assembled program are in order of address and stand
for no address beyond its end.
-/

namespace StackAssembler

open Text

/-! ### What a listing shows -/

namespace Image

/-- The lines of the labels that stand for an address, in order of definition. -/
def labelLines (image : Image) (address : Nat) : List String :=
  (image.labels.entries.filter (·.address == address)).map Listing.labelLine

/-- The line of the word at an address, where there is a word and it is an instruction. -/
def wordLine? (image : Image) (address : Nat) : Option String := do
  let word ← image.words[address]?
  let line ← image.origin? address
  let instruction ← (Instruction.ofWord word).toOption
  let text := padRight 12 instruction.render
  return s!"    {hex 3 address}  {hex 4 word.toNat}  {text}; line {decimal line}\n"

/-- The lines for an address. -/
def linesAt (image : Image) (address : Nat) : List String :=
  image.labelLines address ++ (image.wordLine? address).toList

/-- The lines for all addresses up to the end, which has no word but may have labels. -/
def listed (image : Image) : List String :=
  (List.range image.size).flatMap image.linesAt ++ image.labelLines image.size

/-- A text is a listing of all of an image, each thing once and in its place. -/
structure Shows (image : Image) (text : String) : Prop where
  eq_join : text = String.join image.listed
  /-- Every word is shown as an instruction, without the mark of a word that is none. -/
  words : ∀ address < image.size, ∃ line, image.wordLine? address = some line ∧ '?' ∉ line.toList
  /-- Every label has one line. -/
  labels : ∀ label ∈ image.labels.entries, image.listed.count (Listing.labelLine label) = 1
  /-- A line has no line end but its last character. -/
  ended : ∀ line ∈ image.listed, ∃ init, line.toList = init ++ ['\n'] ∧ '\n' ∉ init
  newlines : text.toList.count '\n' = image.size + image.labels.size

/-- What the listing of an image relies on. -/
structure Listable (image : Image) : Prop where
  ascending : image.labels.entries.Pairwise fun a b => a.address ≤ b.address
  address_le : ∀ label ∈ image.labels.entries, label.address ≤ image.size
  nodup : image.labels.names.Nodup
  isToken : ∀ label ∈ image.labels.entries, IsToken label.name.toList
  newline_not_mem : ∀ label ∈ image.labels.entries, '\n' ∉ label.name.toList
  decodes : ∀ (address : Nat) (cell : Cell), image.cells[address]? = some cell →
    ∃ i, Instruction.ofWord cell.word = .ok i

end Image

/-! ### Labels in order of address -/

namespace Listing

/-- Where the labels are in order, those that stand for the first address come before all others. -/
lemma takeWhile_dropWhile_address {labels : List Label} {address : Nat}
    (hsorted : labels.Pairwise fun a b => a.address ≤ b.address)
    (hle : ∀ label ∈ labels, address ≤ label.address) :
    labels.takeWhile (·.address == address) = labels.filter (·.address == address) ∧
      labels.dropWhile (·.address == address) = labels.filter (address < ·.address) := by
  induction labels with
  | nil => exact ⟨rfl, rfl⟩
  | cons label labels ih =>
    obtain ⟨hhead, htail⟩ := List.pairwise_cons.mp hsorted
    rw [List.forall_mem_cons] at hle
    obtain ⟨htake, hdrop⟩ := ih htail hle.2
    by_cases h : label.address = address
    · simp [h, htake, hdrop]
    · have hlater : ∀ other ∈ label :: labels, address < other.address := by
        have hlt : address < label.address := Nat.lt_of_le_of_ne hle.1 (Ne.symm h)
        refine List.forall_mem_cons.mpr ⟨hlt, fun other hother => ?_⟩
        exact Nat.lt_of_lt_of_le hlt (hhead other hother)
      rw [List.takeWhile_cons_of_neg (by simpa using h),
        List.dropWhile_cons_of_neg (by simpa using h),
        List.filter_eq_nil_iff.mpr fun other hother => by simpa using (hlater other hother).ne',
        List.filter_eq_self.mpr fun other hother => decide_eq_true (hlater other hother)]
      exact ⟨rfl, rfl⟩

/-- The lines from an address on, with every label before the word at its address. -/
lemma linesFrom_eq_flatMap {address : Nat} {cells : List Cell} {labels : List Label}
    (hsorted : labels.Pairwise fun a b => a.address ≤ b.address)
    (hle : ∀ label ∈ labels, address ≤ label.address)
    (hend : ∀ label ∈ labels, label.address ≤ address + cells.length) :
    linesFrom address cells labels =
      (cells.zipIdx address).flatMap (fun entry =>
        (labels.filter (·.address == entry.2)).map labelLine ++ [cellLine entry.2 entry.1]) ++
      (labels.filter (·.address == address + cells.length)).map labelLine := by
  induction cells generalizing address labels with
  | nil =>
    have hall : ∀ label ∈ labels, (label.address == address) = true := by
      intro label hlabel
      exact beq_iff_eq.mpr (Nat.le_antisymm (hend label hlabel) (hle label hlabel))
    simp only [linesFrom, List.zipIdx_nil, List.flatMap_nil, List.nil_append, List.length_nil,
      Nat.add_zero, List.filter_eq_self.mpr hall]
  | cons cell cells ih =>
    -- the labels left behind the first word stand for the same later addresses as before
    have hrest : ∀ later, address < later →
        (labels.filter (address < ·.address)).filter (·.address == later) =
          labels.filter (·.address == later) := by
      intro later hlater
      rw [List.filter_filter]
      refine List.filter_congr fun label _ => ?_
      by_cases h : label.address = later <;> simp [h, hlater]
    obtain ⟨htake, hdrop⟩ := takeWhile_dropWhile_address hsorted hle
    rw [linesFrom, htake, hdrop, ih (hsorted.filter _), List.zipIdx_cons, List.flatMap_cons,
      List.length_cons]
    · have hwords : ∀ entry ∈ cells.zipIdx (address + 1),
          ((labels.filter (address < ·.address)).filter (·.address == entry.2)).map labelLine ++
              [cellLine entry.2 entry.1] =
            (labels.filter (·.address == entry.2)).map labelLine ++ [cellLine entry.2 entry.1] := by
        intro entry hentry
        rw [hrest entry.2 (List.le_snd_of_mem_zipIdx hentry)]
      rw [List.flatMap_congr hwords, hrest _ (by omega)]
      simp [Nat.add_assoc, Nat.add_comm 1]
    · intro label hlabel
      exact of_decide_eq_true (List.mem_filter.mp hlabel).2
    · intro label hlabel
      have hle := hend label (List.mem_of_mem_filter hlabel)
      rw [List.length_cons] at hle
      omega

/-! ### The texts of the lines -/

lemma toList_labelLine (label : Label) :
    (labelLine label).toList = (label.name.toList ++ [':']) ++ ['\n'] := by
  simp [labelLine, toString]

lemma name_eq_of_labelLine_eq {a b : Label} (h : labelLine a = labelLine b) : a.name = b.name := by
  have htext := congrArg String.toList h
  rw [toList_labelLine, toList_labelLine, List.append_left_inj, List.append_left_inj,
    String.toList_inj] at htext
  exact htext

/-- A text that neither ends a line nor has a part of the mark for words that are no instructions. -/
def Plain (cs : List Char) : Prop := '\n' ∉ cs ∧ '?' ∉ cs

@[simp] lemma plain_nil : Plain [] := by simp [Plain]

@[simp] lemma plain_cons {c : Char} {cs : List Char} :
    Plain (c :: cs) ↔ ('\n' ≠ c ∧ '?' ≠ c) ∧ Plain cs := by
  simp only [Plain, List.mem_cons, not_or]
  exact and_and_and_comm

@[simp] lemma plain_append {as bs : List Char} : Plain (as ++ bs) ↔ Plain as ∧ Plain bs := by
  simp only [Plain, List.mem_append, not_or]
  exact and_and_and_comm

@[simp] lemma plain_hex (width n : Nat) : Plain (hex width n).toList :=
  ⟨fun h => absurd (mem_hexDigits_of_mem_hex h) (by decide),
    fun h => absurd (mem_hexDigits_of_mem_hex h) (by decide)⟩

@[simp] lemma plain_decimal (n : Nat) : Plain (decimal n).toList := by
  have hdigit : ∀ {c : Char}, c ∈ (decimal n).toList → c.isDigit = true := by
    intro c hc
    rw [decimal, String.toList_ofList] at hc
    exact Nat.isDigit_of_mem_toDigits (by decide) (by decide) hc
  exact ⟨fun h => absurd (hdigit h) (by decide), fun h => absurd (hdigit h) (by decide)⟩

lemma plain_padRight {s : String} (h : Plain s.toList) (width : Nat) :
    Plain (padRight width s).toList := by
  rw [padRight, String.toList_ofList, List.rightpad, plain_append]
  exact ⟨h, by simp [Plain]⟩

lemma plain_render (i : Instruction) : Plain i.render.toList := by
  have hop : ∀ op : Opcode, Plain op.name.toList := by
    intro op
    cases op <;> simp [Opcode.name]
  cases i with
  | immediate op value => simp [Instruction.toList_render_immediate, hop]
  | address op target => simp [Instruction.toList_render_address, toList_addressName, hop]
  | arith op => cases op <;> simp [Instruction.render, ArithOp.name]
  | bare op => exact hop op

lemma cellLine_eq_of_decodes (a : Nat) {c : Cell} {i : Instruction}
    (h : Instruction.ofWord c.word = .ok i) : cellLine a c =
      s!"    {hex 3 a}  {hex 4 c.word.toNat}  {padRight 12 i.render}; line {decimal c.line}\n" := by
  have htext : wordText c.word = i.render := by rw [wordText, h]
  rw [← htext]
  rfl

/-- The line of a word that is an instruction begins with a space, and is plain but for its end. -/
lemma exists_toList_cellLine {cell : Cell} {i : Instruction} (address : Nat)
    (h : Instruction.ofWord cell.word = .ok i) :
    ∃ init, (cellLine address cell).toList = (' ' :: init) ++ ['\n'] ∧ Plain (' ' :: init) := by
  refine ⟨"   ".toList ++ (hex 3 address).toList ++ "  ".toList ++ (hex 4 cell.word.toNat).toList ++
    "  ".toList ++ (padRight 12 i.render).toList ++ "; line ".toList ++
      (decimal cell.line).toList, ?_, ?_⟩
  · simp [cellLine_eq_of_decodes address h, toString]
  · simp [plain_padRight (plain_render i)]

end Listing

/-! ### Listings of images that are fit to be listed -/

namespace Image

variable {image : Image}

lemma wordLine?_of_cell {address : Nat} {cell : Cell} {i : Instruction}
    (hcell : image.cells[address]? = some cell) (h : Instruction.ofWord cell.word = .ok i) :
    image.wordLine? address = some (Listing.cellLine address cell) := by
  simp [wordLine?, getElem?_words hcell, origin?_eq_some hcell, h,
    Listing.cellLine_eq_of_decodes address h, Except.toOption]

/-- The labels of the addresses below a given one, taken address by address. -/
lemma perm_flatMap_filter_address (labels : List Label) (n : Nat) :
    ((List.range n).flatMap fun a => labels.filter (·.address == a)).Perm
      (labels.filter (·.address < n)) := by
  induction n with
  | zero => simp
  | succ n ih =>
    have hbelow : (labels.filter (·.address < n + 1)).filter (·.address < n) =
        labels.filter (·.address < n) := by
      rw [List.filter_filter]
      refine List.filter_congr fun label _ => ?_
      rw [← Bool.decide_and, decide_eq_decide]
      omega
    have hlast : (labels.filter (·.address < n + 1)).filter (fun a => !decide (a.address < n)) =
        labels.filter (·.address == n) := by
      rw [List.filter_filter]
      refine List.filter_congr fun label _ => ?_
      rw [← decide_not, ← Bool.decide_and, beq_eq_decide, decide_eq_decide]
      omega
    have hsplit := List.filter_append_perm (fun label : Label => decide (label.address < n))
      (labels.filter (·.address < n + 1))
    rw [hbelow, hlast] at hsplit
    rw [List.range_succ, List.flatMap_append, List.flatMap_singleton]
    exact (ih.append_right _).trans hsplit

namespace Listable

lemma exists_wordLine? (h : image.Listable) {address : Nat} (haddress : address < image.size) :
    ∃ init, image.wordLine? address = some (String.ofList ((' ' :: init) ++ ['\n'])) ∧
      Listing.Plain (' ' :: init) := by
  have hcell := Array.getElem?_eq_getElem haddress
  obtain ⟨i, hi⟩ := h.decodes address _ hcell
  obtain ⟨init, htext, hplain⟩ := Listing.exists_toList_cellLine address hi
  refine ⟨init, ?_, hplain⟩
  rw [wordLine?_of_cell hcell hi, ← htext, String.ofList_toList]

/-- The lines are written in their places. -/
lemma listing_eq_join (h : image.Listable) : image.listing = String.join image.listed := by
  have hend : ∀ label ∈ image.labels.entries,
      label.address ≤ 0 + image.cells.toList.length := by
    simpa [size] using h.address_le
  have hrange : List.range image.size = (image.cells.toList.zipIdx 0).map Prod.snd := by
    rw [List.zipIdx_map_snd, List.range_eq_range', size, Array.length_toList]
  have hlines : (List.range image.size).flatMap image.linesAt =
      (image.cells.toList.zipIdx 0).flatMap fun entry =>
        image.labelLines entry.2 ++ [Listing.cellLine entry.2 entry.1] := by
    rw [hrange, List.flatMap_map]
    refine List.flatMap_congr fun entry hentry => ?_
    have hcell : image.cells[entry.2]? = some entry.1 := by
      rw [← Array.getElem?_toList]
      exact List.mem_zipIdx_iff_getElem?.mp hentry
    obtain ⟨i, hi⟩ := h.decodes entry.2 entry.1 hcell
    rw [linesAt, wordLine?_of_cell hcell hi, Option.toList_some]
  rw [listing, Listing.linesFrom_eq_flatMap h.ascending (fun _ _ => Nat.zero_le _) hend, listed,
    hlines, Nat.zero_add, Array.length_toList]
  rfl

/-- A listing has the lines of the labels and the lines of the words. -/
lemma perm_listed (h : image.Listable) :
    image.listed.Perm (image.labels.entries.map Listing.labelLine ++
      (List.range image.size).filterMap image.wordLine?) := by
  have hlabels : ((List.range image.size).flatMap image.labelLines ++
      image.labelLines image.size).Perm (image.labels.entries.map Listing.labelLine) := by
    have hperm := perm_flatMap_filter_address image.labels.entries (image.size + 1)
    rw [List.filter_eq_self.mpr fun label hlabel => decide_eq_true
      (Nat.lt_succ_of_le (h.address_le label hlabel)), List.range_succ, List.flatMap_append,
      List.flatMap_singleton] at hperm
    have hmap := hperm.map Listing.labelLine
    rwa [List.map_append, List.map_flatMap] at hmap
  have hlines : ((List.range image.size).flatMap image.linesAt).Perm
      ((List.range image.size).flatMap image.labelLines ++
        (List.range image.size).filterMap image.wordLine?) := by
    rw [List.filterMap_eq_flatMap_toList]
    exact (List.flatMap_append_perm _ _ _).symm
  have hlisted := hlines.append_right (image.labelLines image.size)
  rw [List.append_assoc] at hlisted
  refine (hlisted.trans (List.perm_append_comm.append_left _)).trans ?_
  rw [← List.append_assoc]
  exact hlabels.append_right _

lemma mem_listed_iff (h : image.Listable) {line : String} : line ∈ image.listed ↔
    (∃ label ∈ image.labels.entries, Listing.labelLine label = line) ∨
      ∃ address < image.size, image.wordLine? address = some line := by
  rw [h.perm_listed.mem_iff, List.mem_append, List.mem_map, List.mem_filterMap]
  simp only [List.mem_range]

lemma length_listed (h : image.Listable) :
    image.listed.length = image.size + image.labels.size := by
  have hwords : ((List.range image.size).filterMap image.wordLine?).length = image.size := by
    rw [List.length_filterMap_eq_countP, List.countP_eq_length.mpr, List.length_range]
    intro address haddress
    obtain ⟨init, hline, -⟩ := h.exists_wordLine? (List.mem_range.mp haddress)
    rw [hline, Option.isSome_some]
  rw [h.perm_listed.length_eq, List.length_append, List.length_map, hwords, Nat.add_comm]
  rfl

/-- The line of a label is no line of a word, which begins with a space. -/
lemma labelLine_ne_wordLine (h : image.Listable) {label : Label}
    (hlabel : label ∈ image.labels.entries) {address : Nat} (haddress : address < image.size) :
    image.wordLine? address ≠ some (Listing.labelLine label) := by
  intro heq
  obtain ⟨init, hline, -⟩ := h.exists_wordLine? haddress
  have htext := congrArg String.toList (Option.some.inj (hline.symm.trans heq))
  rw [Listing.toList_labelLine, String.toList_ofList] at htext
  obtain ⟨hne, hgap⟩ := h.isToken label hlabel
  obtain ⟨c, name, hname⟩ := List.exists_cons_of_ne_nil hne
  rw [hname, List.cons_append, List.cons_append, List.cons_append] at htext
  obtain ⟨rfl, -⟩ := List.cons.inj htext
  have hspace := hgap ' ' (by simp [hname])
  cases hspace

lemma count_labelLine (h : image.Listable) {label : Label}
    (hlabel : label ∈ image.labels.entries) :
    image.listed.count (Listing.labelLine label) = 1 := by
  have hnodup : (image.labels.entries.map Listing.labelLine).Nodup := by
    rw [List.Nodup, List.pairwise_map]
    exact (List.pairwise_map.mp h.nodup).imp
      fun hne heq => hne (Listing.name_eq_of_labelLine_eq heq)
  rw [h.perm_listed.count_eq, List.count_append,
    List.count_eq_one_of_mem hnodup (List.mem_map_of_mem hlabel), List.count_eq_zero_of_not_mem]
  intro hmem
  obtain ⟨address, haddress, hline⟩ := List.mem_filterMap.mp hmem
  exact h.labelLine_ne_wordLine hlabel (List.mem_range.mp haddress) hline

lemma ended_of_mem_listed (h : image.Listable) {line : String} (hline : line ∈ image.listed) :
    ∃ init, line.toList = init ++ ['\n'] ∧ '\n' ∉ init := by
  rcases h.mem_listed_iff.mp hline with ⟨label, hlabel, rfl⟩ | ⟨address, haddress, hword⟩
  · refine ⟨_, Listing.toList_labelLine label, ?_⟩
    simpa using h.newline_not_mem label hlabel
  · obtain ⟨init, heq, hplain⟩ := h.exists_wordLine? haddress
    obtain rfl := Option.some.inj (heq.symm.trans hword)
    exact ⟨' ' :: init, String.toList_ofList, hplain.1⟩

lemma shows_listing (h : image.Listable) : image.Shows image.listing where
  eq_join := h.listing_eq_join
  words := by
    intro address haddress
    obtain ⟨init, hline, hplain⟩ := h.exists_wordLine? haddress
    refine ⟨_, hline, ?_⟩
    rw [String.toList_ofList, List.mem_append, not_or]
    exact ⟨hplain.2, by simp⟩
  labels := fun label => h.count_labelLine
  ended := fun line => h.ended_of_mem_listed
  newlines := by
    have hone : ∀ line ∈ image.listed, line.toList.count '\n' = 1 := by
      intro line hline
      obtain ⟨init, heq, hinit⟩ := h.ended_of_mem_listed hline
      simp [heq, List.count_eq_zero_of_not_mem hinit]
    rw [h.listing_eq_join, String.toList_join, List.count_flatMap, ← h.length_listed,
      List.map_congr_left (f := List.count '\n' ∘ String.toList) hone]
    simp

lemma mapLines (h : image.Listable) (f : Nat → Nat) : (image.mapLines f).Listable where
  ascending := h.ascending
  address_le := by
    rw [size_mapLines]
    exact h.address_le
  nodup := h.nodup
  isToken := h.isToken
  newline_not_mem := h.newline_not_mem
  decodes := by
    intro address cell hcell
    rw [Image.mapLines, Array.getElem?_map] at hcell
    obtain ⟨raw, hraw, rfl⟩ := Option.map_eq_some_iff.mp hcell
    exact h.decodes address raw hraw

end Listable

end Image

/-! ### Assembled programs -/

/-- The name of a label, with a colon behind it, is a token of a line. -/
lemma Image.Lays.exists_token {config : Config} {ls : List SourceLine} {image : Image}
    (h : image.Lays config ls) {label : Label} (hlabel : label ∈ image.labels.entries) :
    ∃ l ∈ ls, label.name.toList ++ [':'] ∈ tokens l.text.toList ∧ label.name.toList ≠ [] := by
  rw [h.labels] at hlabel
  obtain ⟨before, l, after, rfl, hl, -⟩ := mem_bindings_iff.mp hlabel
  obtain ⟨htokens, hne, -⟩ := Line.classify_eq_label_iff.mp (SourceLine.label?_eq_some_iff.mp hl)
  exact ⟨l, by simp, by simp [htokens], hne⟩

lemma listable_of_assemble {config : Config} {source : String} {image : Image}
    (h : assemble config source = .ok image) : image.Listable := by
  have hlays := lays_of_assemble h
  refine ⟨?_, ?_, nodup_names_of_assemble h, ?_, ?_, ?_⟩
  · rw [hlays.labels]
    exact bindings_pairwise _ _
  · intro label hlabel
    rw [hlays.labels] at hlabel
    rw [hlays.size_eq]
    exact address_le_of_mem_bindings hlabel
  · intro label hlabel
    obtain ⟨l, -, htoken, hne⟩ := hlays.exists_token hlabel
    refine ⟨hne, fun c hc => ?_⟩
    exact (isCode_of_mem_tokens htoken).isToken.2 c (List.mem_append_left _ hc)
  · intro label hlabel hmem
    obtain ⟨l, hl, htoken, -⟩ := hlays.exists_token hlabel
    exact newline_not_mem_of_mem_sourceLines l hl
      (subset_of_mem_tokens htoken (List.mem_append_left _ hmem))
  · intro address cell hcell
    have haddress : address < image.size := (Array.getElem?_eq_some_iff.mp hcell).1
    rw [hlays.size_eq] at haddress
    obtain ⟨word, hword, hplaced⟩ := hlays.exists_cell (List.getElem?_eq_getElem haddress)
    obtain rfl := Option.some.inj (hcell.symm.trans hplaced)
    obtain ⟨i, hi, -, -⟩ := Statement.exists_means_of_word hword
    exact ⟨i, hi⟩

/-- The listing of an assembled program shows all of it, each thing once and in its place. -/
theorem shows_listing_of_assembled {config : Config} {image : Image}
    (h : (∃ source, assemble config source = .ok image) ∨
      ∃ x, assembleExpansion config x = .ok image) :
    image.Shows image.listing := by
  rcases h with ⟨source, h⟩ | ⟨x, h⟩
  · exact (listable_of_assemble h).shows_listing
  · obtain ⟨raw, hraw, rfl⟩ := assembleExpansion_eq_ok_iff.mp h
    exact ((listable_of_assemble hraw).mapLines x.origin).shows_listing

/-- Two labels in front of one word, in order of definition; a jump and a word that a macro gave;
and two labels behind the last word, one of them with the mark as its name. -/
theorem shows_listing_of_assembled_labels_at_end :
    ∃ x image, expand "%macro p 1\nLIT %1\n%endmacro\nb:\na: ; here\nJMP ???\np -1\n???:\nc:" =
        .ok x ∧
      assembleExpansion ⟨8, 8, .keep⟩ x = .ok image ∧
      image.listing = "b:\na:\n    000  6002  JMP @002    ; line 6\n" ++
        "    001  1FFF  LIT 4095    ; line 7\n???:\nc:\n" ∧
      image.Shows image.listing := by
  let x : Expansion :=
    ⟨#[⟨4, "b:"⟩, ⟨5, "a: ; here"⟩, ⟨6, "JMP ???"⟩, ⟨7, "LIT -1"⟩, ⟨8, "???:"⟩, ⟨9, "c:"⟩]⟩
  have himage : assembleExpansion ⟨8, 8, .keep⟩ x =
      .ok ⟨#[⟨0x6002, 6⟩, ⟨0x1FFF, 7⟩], ⟨8, [⟨"b", 0⟩, ⟨"a", 0⟩, ⟨"???", 2⟩, ⟨"c", 2⟩]⟩⟩ := by
    decide +kernel
  refine ⟨x, _, by decide +kernel, himage, by decide +kernel, ?_⟩
  exact shows_listing_of_assembled (Or.inr ⟨x, himage⟩)

end StackAssembler
