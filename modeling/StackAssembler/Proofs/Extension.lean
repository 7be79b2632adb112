import Mathlib.Data.List.TakeWhile
import StackAssembler.Cli.Path

/-!
# Extensions of path names

What a path becomes when its extension is set. The last component of a path has an extension where
it has a dot with something before it; the extension is what is behind the last such dot. It is
replaced, or added where there is none. `Path.withExtension_eq_iff` ties these rules to the text
that is computed.
-/

namespace StackAssembler.Cli.Path

/-- What stands before the last component of a path: nothing, or a text that ends in a slash. -/
def IsParent (parent : List Char) : Prop := ∀ c ∈ parent.getLast?, c = '/'

/-- A path is another with its extension set. -/
inductive SetsExtension (extension : List Char) : List Char → List Char → Prop where
  /-- The last component has an extension, which is replaced. -/
  | replaces {parent stem old : List Char} (hparent : IsParent parent) (hstem : '/' ∉ stem)
      (hold : '/' ∉ old ∧ '.' ∉ old) (hne : stem ≠ [] ∧ stem ≠ ['.']) :
      SetsExtension extension (parent ++ (stem ++ '.' :: old))
        (parent ++ (stem ++ '.' :: extension))
  /-- The last component has no dot, except perhaps the one that it begins with. -/
  | adds {parent name : List Char} (hparent : IsParent parent) (hname : '/' ∉ name)
      (hne : name ≠ [] ∧ name ≠ ['.']) (hdot : '.' ∉ name.tail) :
      SetsExtension extension (parent ++ name) (parent ++ (name ++ '.' :: extension))
  /-- Without its extension the last component is two dots, which are no name. -/
  | dots {parent old : List Char} (hparent : IsParent parent) (hold : '/' ∉ old ∧ '.' ∉ old) :
      SetsExtension extension (parent ++ '.' :: '.' :: old) (parent ++ ['.', '.'])
  /-- The path ends in a slash or in a single dot: no file has such a path, and it stays. -/
  | unnamed {parent name : List Char} (hparent : IsParent parent)
      (hname : name = [] ∨ name = ['.']) :
      SetsExtension extension (parent ++ name) (parent ++ name)

variable {path parent name stem old extension : List Char}

/-! ### The last component -/

lemma not_mem_append_dot (hstem : '/' ∉ stem) (hold : '/' ∉ old) : '/' ∉ stem ++ '.' :: old := by
  simp [hstem, hold]

/-- A text is cut before what is behind the last of a character in it. -/
lemma exists_last_of_mem {c : Char} (h : c ∈ path) :
    ∃ front back, path = front ++ c :: back ∧ c ∉ back := by
  obtain ⟨back, front, hreverse, hback⟩ := List.eq_append_cons_of_mem (List.mem_reverse.mpr h)
  refine ⟨front.reverse, back.reverse, ?_, by simpa using hback⟩
  rw [← List.reverse_reverse path, hreverse]
  simp

lemma exists_parent (path : List Char) :
    ∃ parent name, path = parent ++ name ∧ IsParent parent ∧ '/' ∉ name := by
  by_cases h : '/' ∈ path
  · obtain ⟨front, name, rfl, hname⟩ := exists_last_of_mem h
    exact ⟨front ++ ['/'], name, by simp, by simp [IsParent], hname⟩
  · exact ⟨[], path, rfl, by simp [IsParent], h⟩

lemma bne_of_mem_reverse {c : Char} (h : c ∉ name) : ∀ d ∈ name.reverse, (d != c) = true := by
  intro d hd
  rw [bne_iff_ne]
  rintro rfl
  exact h (List.mem_reverse.mp hd)

lemma takeWhile_reverse_append (hparent : IsParent parent) (hname : '/' ∉ name) :
    (parent ++ name).reverse.takeWhile (· != '/') = name.reverse ∧
      (parent ++ name).reverse.dropWhile (· != '/') = parent.reverse := by
  have hmem := bne_of_mem_reverse hname
  rw [List.reverse_append, List.takeWhile_append_of_pos hmem, List.dropWhile_append_of_pos hmem]
  cases hlast : parent.reverse with
  | nil => simp
  | cons c cs =>
    obtain rfl : c = '/' := hparent c (by rw [← List.head?_reverse, hlast]; rfl)
    simp

lemma withExtension_append (hparent : IsParent parent) (hname : '/' ∉ name) :
    withExtension (String.ofList (parent ++ name)) (String.ofList extension) =
      String.ofList (parent ++ setExtension (cutExtension name) extension) := by
  obtain ⟨hlast, hrest⟩ := takeWhile_reverse_append hparent hname
  simp only [withExtension, String.toList_ofList, hlast, hrest, List.reverse_reverse]

/-! ### Stems -/

lemma stem_append (hne : stem ≠ []) (hold : '.' ∉ old) : Path.stem (stem ++ '.' :: old) = stem := by
  simp [Path.stem, List.dropWhile_append_of_pos (bne_of_mem_reverse hold), hne]

/-- A name without a dot behind its first character is all stem. -/
lemma stem_eq_self (hdot : '.' ∉ name.tail) : Path.stem name = name := by
  have hbefore : ((name.reverse.dropWhile (· != '.')).drop 1).reverse = [] := by
    cases name with
    | nil => rfl
    | cons c cs =>
      rw [List.tail_cons] at hdot
      rw [List.reverse_cons, List.dropWhile_append_of_pos (bne_of_mem_reverse hdot)]
      cases hc : c != '.' <;> simp [hc]
  simp only [Path.stem, hbefore, List.isEmpty_nil, if_true]

lemma cutExtension_append (hne : stem ≠ []) (hold : '.' ∉ old) :
    cutExtension (stem ++ '.' :: old) = stem ++ ['.'] := by
  simp [cutExtension, stem_append hne hold]

lemma cutExtension_eq_self (hdot : '.' ∉ name.tail) : cutExtension name = name := by
  simp [cutExtension, stem_eq_self hdot]

lemma SetsExtension.withExtension_eq {out : List Char} (h : SetsExtension extension path out) :
    withExtension (String.ofList path) (String.ofList extension) = String.ofList out := by
  cases h with
  | @replaces parent stem old hparent hstem hold hne =>
    have hname : isName (stem ++ ['.']) = true := by
      have hdots : stem ++ ['.'] ≠ ['.', '.'] := by
        intro heq
        have hcut : stem ++ ['.'] = ['.'] ++ ['.'] := heq
        exact hne.2 (List.append_cancel_right hcut)
      simp [isName, hne.1, hdots]
    rw [withExtension_append hparent (not_mem_append_dot hstem hold.1),
      cutExtension_append hne.1 hold.2, setExtension, if_pos hname, stem_append hne.1 (by simp)]
  | @adds parent name hparent hslash hne hdot =>
    have hname : isName name = true := by
      have hdots : name ≠ ['.', '.'] := by
        rintro rfl
        exact hdot (by simp)
      simp [isName, hne, hdots]
    rw [withExtension_append hparent hslash, cutExtension_eq_self hdot, setExtension,
      if_pos hname, stem_eq_self hdot]
  | @dots parent old hparent hold =>
    have hcut : cutExtension ('.' :: '.' :: old) = ['.', '.'] :=
      cutExtension_append (List.cons_ne_nil '.' []) hold.2
    rw [withExtension_append hparent (by simp [hold.1]), hcut]
    rfl
  | @unnamed parent name hparent hname =>
    rcases hname with rfl | rfl
    · rw [withExtension_append hparent (by simp)]
      rfl
    · rw [withExtension_append hparent (by simp)]
      rfl

/-- Every path has one of the forms that the rules are about. -/
lemma exists_setsExtension (extension path : List Char) :
    ∃ out, SetsExtension extension path out := by
  obtain ⟨parent, name, rfl, hparent, hname⟩ := exists_parent path
  by_cases hunnamed : name = [] ∨ name = ['.']
  · exact ⟨_, .unnamed hparent hunnamed⟩
  rw [not_or] at hunnamed
  by_cases hdot : '.' ∈ name.tail
  · -- the last dot is behind the first character, so something is before it
    obtain ⟨front, old, htail, hold⟩ := exists_last_of_mem hdot
    obtain ⟨c, cs, rfl⟩ := List.exists_cons_of_ne_nil hunnamed.1
    obtain rfl : cs = front ++ '.' :: old := htail
    have hslash : '/' ∉ c :: front ∧ '/' ∉ old := by simpa [and_assoc] using hname
    by_cases hdots : c :: front = ['.']
    · obtain ⟨rfl, rfl⟩ := List.cons.inj hdots
      exact ⟨_, .dots hparent ⟨hslash.2, hold⟩⟩
    · exact ⟨_, .replaces hparent hslash.1 ⟨hslash.2, hold⟩ ⟨List.cons_ne_nil c front, hdots⟩⟩
  · exact ⟨_, .adds hparent hname hunnamed hdot⟩

/-- The path that is computed is the one that the rules give. -/
theorem withExtension_eq_iff {path extension out : String} : withExtension path extension = out ↔
    SetsExtension extension.toList path.toList out.toList := by
  constructor
  · rintro rfl
    obtain ⟨out, hout⟩ := exists_setsExtension extension.toList path.toList
    have heq := hout.withExtension_eq
    rw [String.ofList_toList, String.ofList_toList] at heq
    rwa [heq, String.toList_ofList]
  · intro h
    have heq := h.withExtension_eq
    rwa [String.ofList_toList, String.ofList_toList, String.ofList_toList] at heq

/-- The dot that a name begins with starts no extension. -/
example : withExtension "d.x/.asm" "bin" = "d.x/.asm.bin" ∧
    withExtension "a.b.c" "bin" = "a.b.bin" ∧ withExtension "a." "bin" = "a.bin" ∧
    withExtension "..x" "bin" = ".." := by
  decide +kernel

end StackAssembler.Cli.Path
