import Mathlib.Data.List.DropRight
import StackAssembler.Cli.FileTree
import StackAssembler.Proofs.Scan

/-!
# File trees

When a file can be read or written, and what a tree is afterwards. A path names the place of a file
where the directories on its way are there, its form is not that of a directory and there is no
directory at the place. Reading and writing go by this place alone, and writing moves no directory,
so what a path names does not depend on what was written before.
-/

namespace StackAssembler.Cli

/-! ### The last component of a path -/

namespace Path

/-- A text that does not end in a slash ends in a piece without slashes, which is the whole text or
stands behind a slash. -/
lemma exists_last_piece {cs : List Char} (hne : cs ≠ []) (hslash : cs.getLast? ≠ some '/') :
    ∃ last, last ≠ [] ∧ '/' ∉ last ∧ (cs = last ∨ ∃ front, cs = front ++ '/' :: last) := by
  have hsplit := List.rdropWhile_append_rtakeWhile (p := (· != '/')) (l := cs)
  refine ⟨cs.rtakeWhile (· != '/'), ?_, ?_, ?_⟩
  · intro hnil
    rw [List.rtakeWhile_eq_nil_iff] at hnil
    rw [List.getLast?_eq_some_getLast hne] at hslash
    exact hnil hne (by simpa using hslash)
  · intro hmem
    simpa using List.mem_rtakeWhile_imp hmem
  · obtain hfront | ⟨front, c, hfront⟩ := List.eq_nil_or_concat' (cs.rdropWhile (· != '/'))
    · rw [hfront, List.nil_append] at hsplit
      exact Or.inl hsplit.symm
    · have hc : c = '/' := by
        have hnot := List.rdropWhile_last_not (· != '/') cs (by simp [hfront])
        simpa [hfront] using hnot
      rw [hfront, hc, List.append_assoc, List.singleton_append] at hsplit
      exact Or.inr ⟨front, hsplit.symm⟩

/-- A path that does not end in a slash has a last component, and what is put behind the path goes
to that component. -/
lemma exists_components {path : String} (hne : path ≠ "") (hslash : endsInSlash path = false) :
    ∃ parents last, ∀ ext : String, '/' ∉ ext.toList →
      components (path ++ ext) = parents ++ [last ++ ext] := by
  have hne : path.toList ≠ [] := by simpa using hne
  have hslash : path.toList.getLast? ≠ some '/' := by simpa [endsInSlash] using hslash
  obtain ⟨last, hlast, hno, hpath⟩ := exists_last_piece hne hslash
  have hpiece : ∀ ext : List Char, '/' ∉ ext → (last ++ ext).splitOn '/' = [last ++ ext] := by
    intro ext hext
    refine List.splitOnP_eq_singleton fun c hc => beq_false_of_ne ?_
    rintro rfl
    rcases List.mem_append.mp hc with hc | hc
    · exact hno hc
    · exact hext hc
  have hkeep : ∀ ext : List Char, (last ++ ext).isEmpty = false := by
    intro ext
    simp [hlast]
  rcases hpath with hpath | ⟨front, hpath⟩
  · refine ⟨[], String.ofList last, fun ext hext => ?_⟩
    simp [components, hpath, hpiece _ hext, hkeep, String.ofList_append]
  · refine ⟨((front.splitOn '/').filter (!·.isEmpty)).map String.ofList, String.ofList last, ?_⟩
    intro ext hext
    have hcut : (front ++ '/' :: (last ++ ext.toList)).splitOn '/' =
        front.splitOn '/' ++ [last ++ ext.toList] := by
      rw [← hpiece _ hext]
      exact List.splitOnP_append_cons front (last ++ ext.toList) (beq_self_eq_true '/')
    simp [components, hpath, hcut, hkeep, String.ofList_append]

end Path

/-! ### Places -/

namespace FileTree

variable {t t' : FileTree} {path : String} {place place' : Place} {content : ByteArray}

/-- A path names the place of a file, which may be there or not. -/
structure Names (t : FileTree) (path : String) (place : Place) : Prop where
  locate : t.locate path = .ok (some place)
  form : Path.endsInSlash path = false
  short : lastTooLong place = false
  no_directory : t.isDirectory place = false

/-- A file can be written to a path. -/
def Writable (t : FileTree) (path : String) : Prop := ∃ place, t.Names path place

lemma Names.unique (h : t.Names path place) (h' : t.Names path place') : place = place' := by
  have heq := h.locate.symm.trans h'.locate
  simpa using heq

lemma write_eq_ok_iff :
    t.write path content = .ok t' ↔ ∃ place, t.Names path place ∧ t' = t.set place content := by
  constructor
  · intro h
    unfold write at h
    split at h
    · cases h
    · cases h
    · next place hlocate =>
      split_ifs at h with hform hshort hdirectory
      cases h
      exact ⟨place, ⟨hlocate, by simpa using hform, by simpa using hshort,
        by simpa using hdirectory⟩, rfl⟩
  · rintro ⟨place, h, rfl⟩
    simp [write, h.locate, h.form, h.short, h.no_directory]

lemma read_eq_ok_iff :
    t.read path = .ok content ↔ ∃ place, t.Names path place ∧ t.file? place = some content := by
  constructor
  · intro h
    unfold read at h
    split at h
    · cases h
    · cases h
    · next place hlocate =>
      cases hfile : t.file? place with
      | none =>
        rw [hfile] at h
        split_ifs at h
      | some found =>
        rw [hfile] at h
        split_ifs at h with hshort hdirectory hform
        cases h
        exact ⟨place, ⟨hlocate, by simpa using hform, by simpa using hshort,
          by simpa using hdirectory⟩, hfile⟩
  · rintro ⟨place, h, hfile⟩
    simp [read, h.locate, h.form, h.short, h.no_directory, hfile]

/-- A write fails exactly where the path is not writable. -/
lemma exists_write_eq_error_iff :
    (∃ fault, t.write path content = .error fault) ↔ ¬ t.Writable path := by
  cases h : t.write path content with
  | error fault =>
    simp only [Except.error.injEq, exists_eq', true_iff]
    rintro ⟨place, hplace⟩
    rw [write_eq_ok_iff.mpr ⟨place, hplace, rfl⟩] at h
    cases h
  | ok t' =>
    obtain ⟨place, hplace, -⟩ := write_eq_ok_iff.mp h
    simp only [reduceCtorEq, exists_false, false_iff, not_not]
    exact ⟨place, hplace⟩

/-! ### Files and directories behind a write -/

lemma file?_set_self (t : FileTree) (place : Place) (content : ByteArray) :
    (t.set place content).file? place = some content := by
  simp [file?, set]

lemma file?_set_of_ne (t : FileTree) (content : ByteArray) (h : place' ≠ place) :
    (t.set place content).file? place' = t.file? place' := by
  have hfilter : ∀ files : List (Place × ByteArray),
      (files.filter (·.1 != place)).lookup place' = files.lookup place' := by
    intro files
    induction files with
    | nil => rfl
    | cons file files ih =>
      obtain ⟨key, value⟩ := file
      by_cases hkey : key = place
      · subst hkey
        simp [List.lookup_cons, beq_false_of_ne h, ih]
      · simp [hkey, List.lookup_cons, ih]
  simp [file?, set, List.lookup_cons, beq_false_of_ne h, hfilter]

/-- Writing moves no directory, so ways through directories stay. -/
lemma enter_set_eq_ok_iff {component : String} {next : Place} :
    (t.set place' content).enter place component = .ok next ↔
      t.enter place component = .ok next := by
  have hdirectory : (t.set place' content).isDirectory = t.isDirectory := rfl
  simp only [enter, hdirectory]
  split_ifs <;> simp

lemma foldlM_enter_set_eq_ok_iff {components : List String} {start next : Place} :
    components.foldlM (t.set place' content).enter start = .ok next ↔
      components.foldlM t.enter start = .ok next := by
  induction components generalizing start with
  | nil => rfl
  | cons component components ih =>
    simp only [List.foldlM_cons, bind_eq_ok_iff, enter_set_eq_ok_iff, ih]

/-- A path is followed through the directories before its last component. -/
lemma locate_eq_some_iff :
    t.locate path = .ok (some place) ↔ path ≠ "" ∧ path.utf8ByteSize ≤ maxPathBytes ∧
      ∃ parents last parent, Path.components path = parents ++ [last] ∧ last ≠ "." ∧ last ≠ ".." ∧
        parents.foldlM t.enter (if Path.isAbsolute path then [] else t.working) = .ok parent ∧
        place = parent ++ [last] := by
  rw [locate]
  by_cases hempty : path = ""
  · simp [hempty]
  by_cases hlong : maxPathBytes < path.utf8ByteSize
  · simp [hempty, hlong, Nat.not_le.mpr hlong]
  simp only [hempty, hlong, if_false, Ne, not_false_eq_true, Nat.not_lt.mp hlong, true_and]
  obtain hnil | ⟨parents, last, hcomponents⟩ := List.eq_nil_or_concat' (Path.components path)
  · simp [hnil]
  · simp only [hcomponents, List.reverse_append, List.reverse_singleton, List.singleton_append,
      List.reverse_reverse]
    cases hparent : parents.foldlM t.enter (if Path.isAbsolute path then [] else t.working) with
    | error fault => simp [hparent]
    | ok parent => simp [hparent, and_assoc, eq_comm (a := place)]

/-- What a path names does not depend on what is written. -/
theorem names_set_iff : (t.set place' content).Names path place ↔ t.Names path place := by
  have hlocate : (t.set place' content).locate path = .ok (some place) ↔
      t.locate path = .ok (some place) := by
    have hworking : (t.set place' content).working = t.working := rfl
    simp only [locate_eq_some_iff, hworking, foldlM_enter_set_eq_ok_iff]
  constructor
  · intro h
    exact ⟨hlocate.mp h.locate, h.form, h.short, h.no_directory⟩
  · intro h
    exact ⟨hlocate.mpr h.locate, h.form, h.short, h.no_directory⟩

lemma writable_set_iff : (t.set place' content).Writable path ↔ t.Writable path := by
  simp only [Writable, names_set_iff]

lemma Names.set (h : t.Names path place) (place' : Place) (content : ByteArray) :
    (t.set place' content).Names path place :=
  names_set_iff.mpr h

/-- A file that was written is read back. -/
lemma Names.read_set (h : t.Names path place) (content : ByteArray) :
    (t.set place content).read path = .ok content :=
  read_eq_ok_iff.mpr ⟨place, h.set place content, file?_set_self t place content⟩

/-- A file is read as before if another is written. -/
lemma Names.read_set_of_ne (h : t.Names path place) (hne : place ≠ place')
    (hread : t.read path = .ok content) (content' : ByteArray) :
    (t.set place' content').read path = .ok content := by
  obtain ⟨found, hfound, hfile⟩ := read_eq_ok_iff.mp hread
  obtain rfl := h.unique hfound
  refine read_eq_ok_iff.mpr ⟨place, h.set place' content', ?_⟩
  rw [file?_set_of_ne t content' hne, hfile]

/-- A path with more behind it that is no slash names another place. -/
theorem Names.ne_of_append {ext : String} (h : t.Names path place) (hext : ext ≠ "")
    (hslash : '/' ∉ ext.toList) (h' : t.Names (path ++ ext) place') : place' ≠ place := by
  obtain ⟨hne, -, parents, last, parent, hcomponents, -, -, -, rfl⟩ :=
    locate_eq_some_iff.mp h.locate
  obtain ⟨-, -, parents', last', parent', hcomponents', -, -, -, rfl⟩ :=
    locate_eq_some_iff.mp h'.locate
  obtain ⟨front, final, hfinal⟩ := Path.exists_components hne h.form
  have hlast : last = final := by
    have hplain := hfinal "" (by simp)
    rw [String.append_empty, hcomponents, String.append_empty] at hplain
    exact List.singleton_inj.mp (List.append_inj_right' hplain rfl)
  have hlast' : last' = final ++ ext := by
    have hlonger := hfinal ext hslash
    rw [hcomponents'] at hlonger
    exact List.singleton_inj.mp (List.append_inj_right' hlonger rfl)
  -- equal places have equal last names, and one name is longer
  intro heq
  have hsame : last' = last := List.singleton_inj.mp (List.append_inj_right' heq rfl)
  rw [hlast, hlast'] at hsame
  exact hext (by simpa using hsame)

/-! ### What stays -/

/-- A tree has the directories of another and the files of it, apart from the files that some paths
name. -/
structure AgreesApart (t t' : FileTree) (paths : List String) : Prop where
  working : t'.working = t.working
  directories : t'.directories = t.directories
  files : ∀ place, (∀ path ∈ paths, ¬ t.Names path place) → t'.file? place = t.file? place

lemma AgreesApart.refl (t : FileTree) (paths : List String) : t.AgreesApart t paths :=
  ⟨rfl, rfl, fun _ _ => rfl⟩

lemma AgreesApart.set {paths : List String} (h : t.AgreesApart t' paths) (hpath : path ∈ paths)
    (hplace : t.Names path place) (content : ByteArray) :
    t.AgreesApart (t'.set place content) paths where
  working := h.working
  directories := h.directories
  files := by
    intro other hother
    have hne : other ≠ place := by
      rintro rfl
      exact hother path hpath hplace
    rw [file?_set_of_ne t' content hne]
    exact h.files other hother

end FileTree

end StackAssembler.Cli
