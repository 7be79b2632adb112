import Mathlib.Data.List.Chain
import Mathlib.Data.List.Nodup
import Mathlib.Data.List.Perm.Basic
import StackAssembler.Proofs.JsonText
import StackAssembler.SymbolMap.Printer
import StackAssembler.SymbolMap.Reader

/-!
# Texts of symbol maps

A symbol map is read back from its text. The tokens of its text can be written one after the other,
and each part of it is read off the front of whatever begins with its tokens, from the numbers and
names up to the whole map: `parse?_render`. The numbers have to be counts, as they are in every
symbol map that is read: `fits_of_parse?`.
-/

namespace StackAssembler

open Json Text

/-! ### Address maps -/

namespace AddressMap

lemma perm_insertEntry {e : Label} {as : List Label} (h : e.name ∉ as.map Label.name) :
    (insertEntry e as).Perm (e :: as) := by
  induction as with
  | nil => exact .refl _
  | cons a as ih =>
    rw [List.map_cons, List.mem_cons, not_or] at h
    rw [insertEntry]
    split_ifs with hlt hgt
    · exact .refl _
    · exact ((ih h.2).cons a).trans (.swap e a as)
    · exact absurd (String.le_antisymm (String.not_lt.mp hgt) (String.not_lt.mp hlt)) h.1

/-- No binding is lost where no name is bound twice. -/
theorem perm_ofList {es : List Label} (h : (es.map Label.name).Nodup) :
    (ofList es).entries.Perm es := by
  induction es using List.reverseRecOn with
  | nil => exact .refl _
  | append_singleton es e ih =>
    rw [List.map_append, List.map_singleton, List.nodup_append_comm, List.singleton_append,
      List.nodup_cons] at h
    have hes := ih h.2
    have hnew : e.name ∉ (ofList es).entries.map Label.name := by
      rw [(hes.map Label.name).mem_iff]
      exact h.1
    rw [ofList, List.foldl_append]
    exact (perm_insertEntry hnew).trans
      ((hes.cons e).trans (List.perm_append_singleton e es).symm)

lemma nodup_names (m : AddressMap) : (m.entries.map Label.name).Nodup := by
  rw [List.Nodup, List.pairwise_map]
  refine m.sorted.imp fun hlt heq => ?_
  rw [heq] at hlt
  exact String.lt_irrefl _ hlt

/-- A map is the map of its own entries. -/
lemma ofList_entries (m : AddressMap) : ofList m.entries = m := by
  have hentries : (ofList m.entries).entries = m.entries := by
    refine List.Perm.eq_of_pairwise (fun a b _ _ hab hba => ?_) (ofList m.entries).sorted m.sorted
      (perm_ofList m.nodup_names)
    exact absurd hba (String.lt_asymm hab)
  cases m
  exact (AddressMap.mk.injEq ..).mpr hentries

end AddressMap

/-- The numbers of a line entry are counts. -/
def LineEntry.Fits (entry : LineEntry) : Prop :=
  entry.address < countLimit ∧ entry.line < countLimit

namespace SymbolMap

/-! ### Writing -/

section Writing

variable {ts : List Token} {groups : List (List Token)}

lemma printable_number (n : Nat) : Printable [numberToken n] where
  written := by
    intro t ht
    rw [List.mem_singleton.mp ht]
    exact ⟨n, rfl⟩
  apart := .singleton _

lemma printable_separated (h : ∀ g ∈ groups, Printable g) : Printable (separated groups) := by
  fun_induction separated groups with
  | case1 => exact printable_nil
  | case2 group => exact h group (by simp)
  | case3 group groups hne ih =>
    have hgroups := ih fun g hg => h g (by simp [hg])
    exact (h group (by simp)).append_cons trivial rfl hgroups

lemma printable_member (key : String) (h : Printable ts) : Printable (member key ts) :=
  printable_nil.append_cons ⟨key, rfl⟩ rfl (printable_nil.append_cons trivial rfl h)

lemma printable_object (h : ∀ g ∈ groups, Printable g) : Printable (object groups) :=
  printable_nil.append_cons trivial rfl
    ((printable_separated h).append_cons trivial rfl printable_nil)

lemma printable_array (h : ∀ g ∈ groups, Printable g) : Printable (array groups) :=
  printable_nil.append_cons trivial rfl
    ((printable_separated h).append_cons trivial rfl printable_nil)

lemma printable_lineTokens (entry : LineEntry) : Printable (lineTokens entry) := by
  apply printable_object
  simp [printable_member, printable_number]

lemma printable_toTokens (m : SymbolMap) : Printable m.toTokens := by
  have hlabels : Printable (object (m.labels.entries.map labelTokens)) := by
    apply printable_object
    simp [labelTokens, printable_member, printable_number]
  have hlines : Printable (array (m.lines.map lineTokens)) := by
    apply printable_array
    simp [printable_lineTokens]
  apply printable_object
  simp [printable_member, printable_number, hlabels, hlines]

end Writing

/-! ### Reading back -/

/-- A reader takes the value off the front of any tokens that begin with it. -/
def Reads {α : Type} (reader : Reader α) (ts : List Token) (a : α) : Prop :=
  ∀ rest, reader (ts ++ rest) = some (a, rest)

lemma readCount_numberToken {n : Nat} (h : n < countLimit) (rest : List Token) :
    readCount (numberToken n :: rest) = some (n, rest) := by
  simp [numberToken, readCount, natural?_toDigits, h]

lemma readName_nameToken (s : String) (rest : List Token) :
    readName (nameToken s :: rest) = some (s, rest) := by
  simp [nameToken, readName, decodeUnits_unitsOf]

/-- There is fuel for as many groups as there are. -/
lemma length_le_length_separated (groups : List (List Token)) (t : Token) (rest : List Token) :
    groups.length ≤ (separated groups ++ t :: rest).length := by
  have hcommas : groups.length ≤ (separated groups).length + 1 := by
    fun_induction separated groups with
    | case1 => simp
    | case2 group => simp
    | case3 group groups hne ih =>
      simp only [List.length_append, List.length_cons]
      omega
  rw [List.length_append, List.length_cons]
  omega

section Arrays

variable {α : Type} {element : Reader α} {print : α → List Token} {as : List α}

lemma readElements_separated (hne : as ≠ []) (h : ∀ a ∈ as, Reads element (print a) a)
    {fuel : Nat} (hfuel : as.length ≤ fuel) (rest : List Token) :
    readElements element fuel (separated (as.map print) ++ .closeBracket :: rest) =
      some (as, rest) := by
  induction as generalizing fuel with
  | nil => exact absurd rfl hne
  | cons a as ih =>
    cases fuel with
    | zero => cases hfuel
    | succ fuel =>
      have ha := h a (by simp)
      cases as with
      | nil => simp [separated, readElements, ha _]
      | cons b bs =>
        have hrest := ih (by simp) (fun c hc => h c (by simp [hc])) (Nat.le_of_succ_le_succ hfuel)
        rw [List.map_cons] at hrest
        simp [separated, readElements, ha _, hrest]

/-- An array is read back if its elements are, and no element begins where an array ends. -/
lemma reads_array (hclose : ∀ ts, element (.closeBracket :: ts) = none)
    (h : ∀ a ∈ as, Reads element (print a) a) :
    Reads (readArray element) (array (as.map print)) as := by
  intro rest
  by_cases hne : as = []
  · subst hne
    rfl
  · have hfuel := length_le_length_separated (as.map print) .closeBracket rest
    rw [List.length_map] at hfuel
    have hread := readElements_separated hne h hfuel rest
    rw [array, List.cons_append, List.append_assoc, List.singleton_append]
    -- the array would be read as empty if the first element began with its end
    generalize separated (as.map print) ++ .closeBracket :: rest = ts at hread
    unfold readArray
    split
    · next heq =>
      cases heq
      simp [readElements, hclose] at hread
    · next heq =>
      cases heq
      exact hread
    · next hopen => exact absurd rfl (hopen ts)

end Arrays

section Objects

variable {σ : Type} {field : String → σ → Reader σ} {known known' final : σ}
variable {members : List (List Token)}

/-- Members are read one after the other, each changing what is known. -/
inductive ReadsMembers (field : String → σ → Reader σ) : σ → List (List Token) → σ → Prop
  | nil (known : σ) : ReadsMembers field known [] known
  | cons {known known' final : σ} {key : String} {value : List Token} {members : List (List Token)}
      (hvalue : Reads (field key known) value known')
      (hmembers : ReadsMembers field known' members final) :
      ReadsMembers field known (member key value :: members) final

lemma ReadsMembers.readMembers_separated (h : ReadsMembers field known members final)
    (hne : members ≠ []) {fuel : Nat} (hfuel : members.length ≤ fuel) (rest : List Token) :
    readMembers field fuel known (separated members ++ .closeBrace :: rest) =
      some (final, rest) := by
  induction h generalizing fuel with
  | nil => exact absurd rfl hne
  | @cons known known' final key value members hvalue hmembers ih =>
    cases fuel with
    | zero => cases hfuel
    | succ fuel =>
      cases members with
      | nil =>
        cases hmembers
        simp [separated, member, readMembers, readName_nameToken, expect, hvalue _]
      | cons next members =>
        have hrest := ih (by simp) (Nat.le_of_succ_le_succ hfuel)
        simp [separated, member, readMembers, readName_nameToken, expect, hvalue _, hrest]

/-- An object is read back if its members are. -/
lemma ReadsMembers.reads_object (h : ReadsMembers field known members final) :
    Reads (readObject field known) (object members) final := by
  intro rest
  by_cases hne : members = []
  · subst hne
    cases h
    rfl
  · have hread := h.readMembers_separated hne
      (length_le_length_separated members .closeBrace rest) rest
    rw [object, List.cons_append, List.append_assoc, List.singleton_append]
    -- the end of an object is no key, so the object is not read as empty
    generalize separated members ++ .closeBrace :: rest = ts at hread
    unfold readObject
    split
    · next heq =>
      cases heq
      simp [readMembers, readName] at hread
    · next heq =>
      cases heq
      exact hread
    · next hopen => exact absurd rfl (hopen ts)

end Objects

/-- The numbers of a symbol map are counts. -/
structure Fits (m : SymbolMap) : Prop where
  words : m.words < countLimit
  labels : ∀ label ∈ m.labels.entries, label.address < countLimit
  lines : ∀ entry ∈ m.lines, entry.Fits

lemma reads_line {entry : LineEntry} (h : entry.Fits) :
    Reads readLine (lineTokens entry) entry := by
  have hfirst : Reads (readLineField "address" {}) [numberToken entry.address]
      ⟨some entry.address, none⟩ := by
    intro rest
    simp [readLineField, readOnce, readCount_numberToken h.1]
  have hsecond : Reads (readLineField "line_number" ⟨some entry.address, none⟩)
      [numberToken entry.line] ⟨some entry.address, some entry.line⟩ := by
    intro rest
    simp [readLineField, readOnce, readCount_numberToken h.2]
  have hobject := ((ReadsMembers.nil _).cons hsecond).cons hfirst
  intro rest
  have hread : readObject readLineField {} (lineTokens entry ++ rest) = _ :=
    hobject.reads_object rest
  unfold readLine
  split
  · next heq => simp [lineTokens, object] at heq
  · rw [hread]
    rfl

/-- Labels are read back in the order in which they are written. -/
lemma reads_labels {labels : AddressMap}
    (h : ∀ label ∈ labels.entries, label.address < countLimit) :
    Reads readLabels (object (labels.entries.map labelTokens)) labels := by
  have hmembers : ∀ (es : List Label) (known : AddressMap),
      (∀ label ∈ es, label.address < countLimit) →
      ReadsMembers (fun key labels ts => (readCount ts).map fun r => (labels.insert ⟨key, r.1⟩, r.2))
        known (es.map labelTokens) (es.foldl AddressMap.insert known) := by
    intro es
    induction es with
    | nil =>
      intro known _
      exact .nil known
    | cons e es ih =>
      intro known hes
      have hrest := ih (known.insert e) fun label hlabel => hes label (by simp [hlabel])
      refine .cons (fun rest => ?_) hrest
      simp [readCount_numberToken (hes e (by simp))]
  have hread := (hmembers _ AddressMap.empty h).reads_object
  rw [← AddressMap.ofList, AddressMap.ofList_entries] at hread
  exact hread

lemma Fits.reads {m : SymbolMap} (h : m.Fits) : Reads ofTokens m.toTokens m := by
  have hwords : Reads (readField "words" {}) [numberToken m.words] ⟨some m.words, none, none⟩ := by
    intro rest
    simp [readField, readOnce, readCount_numberToken h.words]
  have hlabels : Reads (readField "labels" ⟨some m.words, none, none⟩)
      (object (m.labels.entries.map labelTokens)) ⟨some m.words, some m.labels, none⟩ := by
    intro rest
    simp [readField, readOnce, reads_labels h.labels rest]
  have hlines : Reads (readField "lines" ⟨some m.words, some m.labels, none⟩)
      (array (m.lines.map lineTokens)) ⟨some m.words, some m.labels, some m.lines⟩ := by
    have hread := reads_array (fun _ => rfl) fun entry hentry => reads_line (h.lines entry hentry)
    intro rest
    simp [readField, readOnce, hread rest]
  have hobject := (((ReadsMembers.nil _).cons hlines).cons hlabels).cons hwords
  intro rest
  have hread : readObject readField {} (m.toTokens ++ rest) = _ := hobject.reads_object rest
  unfold ofTokens
  split
  · next heq => simp [toTokens, object] at heq
  · rw [hread]
    rfl

/-- A symbol map is read back from its text. -/
theorem parse?_render {m : SymbolMap} (h : m.Fits) : parse? m.render = some m := by
  have hread := h.reads []
  rw [List.append_nil] at hread
  simp [parse?, render, tokens?_render m.printable_toTokens, hread]

/-! ### What can be read -/

/-- Every value that a reader takes has a property. -/
def Yields {α : Type} (reader : Reader α) (p : α → Prop) : Prop :=
  ∀ ts a rest, reader ts = some (a, rest) → p a

lemma yields_count : Yields readCount (· < countLimit) := by
  intro ts n rest h
  unfold readCount at h
  split at h
  · obtain ⟨n', hn, heq⟩ := Option.map_eq_some_iff.mp h
    cases heq
    exact of_decide_eq_true (Option.filter_eq_some_iff.mp hn).2
  · cases h

lemma Yields.once {α : Type} {value : Reader α} {p : α → Prop} (h : Yields value p)
    (known : Option α) : Yields (readOnce known value) p := by
  intro ts a rest hread
  unfold readOnce at hread
  split_ifs at hread
  exact h ts a rest hread

/-- What is made of a value is made of one that has the property. -/
lemma Yields.exists_of_map {α β : Type} {value : Reader α} {p : α → Prop}
    {f : α × List Token → β × List Token} {ts rest : List Token} {b : β} (h : Yields value p)
    (hread : (value ts).map f = some (b, rest)) : ∃ a us, p a ∧ f (a, us) = (b, rest) := by
  obtain ⟨⟨a, us⟩, ha, heq⟩ := Option.map_eq_some_iff.mp hread
  exact ⟨a, us, h ts a us ha, heq⟩

section Arrays

variable {α : Type} {element : Reader α} {p : α → Prop}

lemma Yields.elements (h : Yields element p) (fuel : Nat) :
    Yields (readElements element fuel) fun as => ∀ a ∈ as, p a := by
  induction fuel with
  | zero => intro ts as rest hread; cases hread
  | succ fuel ih =>
    intro ts as rest hread
    simp only [readElements, Option.bind_eq_bind, Option.bind_eq_some_iff, Prod.exists] at hread
    obtain ⟨a, us, ha, hread⟩ := hread
    have hp := h ts a us ha
    split at hread
    · cases hread
      simpa using hp
    · simp only [Option.bind_eq_some_iff, Prod.exists] at hread
      obtain ⟨bs, vs, hbs, heq⟩ := hread
      cases heq
      simpa using ⟨hp, ih _ _ _ hbs⟩
    · cases hread

lemma Yields.array (h : Yields element p) :
    Yields (readArray element) fun as => ∀ a ∈ as, p a := by
  intro ts as rest hread
  unfold readArray at hread
  split at hread
  · cases hread
    simp
  · exact h.elements _ _ _ _ hread
  · cases hread

end Arrays

section Objects

variable {σ : Type} {field : String → σ → Reader σ} {p : σ → Prop} {known : σ}

/-- What every member keeps, all of them keep. -/
lemma yields_members (hfield : ∀ key known, p known → Yields (field key known) p)
    (fuel : Nat) (hknown : p known) : Yields (readMembers field fuel known) p := by
  induction fuel generalizing known with
  | zero => intro ts a rest hread; cases hread
  | succ fuel ih =>
    intro ts final rest hread
    simp only [readMembers, Option.bind_eq_bind, Option.bind_eq_some_iff, Prod.exists] at hread
    obtain ⟨key, us, -, vs, -, known', ws, hvalue, hread⟩ := hread
    have hp := hfield key known hknown _ _ _ hvalue
    split at hread
    · cases hread
      exact hp
    · exact ih hp _ _ _ hread
    · cases hread

lemma yields_object (hfield : ∀ key known, p known → Yields (field key known) p)
    (hknown : p known) : Yields (readObject field known) p := by
  intro ts final rest hread
  unfold readObject at hread
  split at hread
  · cases hread
    exact hknown
  · exact yields_members hfield _ hknown _ _ _ hread
  · cases hread

end Objects

lemma yields_labels :
    Yields readLabels fun labels => ∀ label ∈ labels.entries, label.address < countLimit := by
  refine yields_object ?_ (by simp [AddressMap.empty])
  intro key known hknown ts labels rest hread
  obtain ⟨n, us, hn, heq⟩ := yields_count.exists_of_map hread
  cases heq
  intro label hlabel
  rcases AddressMap.mem_insertEntry hlabel with rfl | hlabel
  · exact hn
  · exact hknown label hlabel

/-- A member that is passed over changes nothing. -/
lemma yields_skip {σ : Type} {p : σ → Prop} {known : σ} (h : p known) :
    Yields (fun ts => (skipValue ts).map (known, ·)) p := by
  intro ts final rest hread
  obtain ⟨us, -, heq⟩ := Option.map_eq_some_iff.mp hread
  cases heq
  exact h

/-- The numbers known of a line entry are counts. -/
def LineFields.Fits (known : LineFields) : Prop :=
  (∀ n ∈ known.address, n < countLimit) ∧ ∀ n ∈ known.line, n < countLimit

lemma yields_lineField (key : String) (known : LineFields) (h : known.Fits) :
    Yields (readLineField key known) LineFields.Fits := by
  intro ts final rest hread
  unfold readLineField at hread
  split_ifs at hread
  · obtain ⟨n, us, hn, heq⟩ := (yields_count.once _).exists_of_map hread
    cases heq
    exact ⟨by simpa using hn, h.2⟩
  · obtain ⟨n, us, hn, heq⟩ := (yields_count.once _).exists_of_map hread
    cases heq
    exact ⟨h.1, by simpa using hn⟩
  · exact yields_skip h _ _ _ hread

lemma yields_line : Yields readLine LineEntry.Fits := by
  intro ts entry rest hread
  unfold readLine at hread
  split at hread
  · simp only [Option.bind_eq_bind, Option.bind_eq_some_iff, Prod.exists] at hread
    obtain ⟨address, us, haddress, vs, -, line, ws, hline, xs, -, heq⟩ := hread
    cases heq
    exact ⟨yields_count _ _ _ haddress, yields_count _ _ _ hline⟩
  · simp only [Option.bind_eq_bind, Option.bind_eq_some_iff, Prod.exists] at hread
    obtain ⟨known, us, hknown, entry', hcomplete, heq⟩ := hread
    cases heq
    have hfits := yields_object yields_lineField ⟨by simp, by simp⟩ _ _ _ hknown
    simp only [LineFields.complete, Option.bind_eq_bind, Option.bind_eq_some_iff] at hcomplete
    obtain ⟨address, haddress, line, hline, heq⟩ := hcomplete
    cases heq
    exact ⟨hfits.1 _ haddress, hfits.2 _ hline⟩

/-- The numbers known of a symbol map are counts. -/
structure Fields.Fits (known : Fields) : Prop where
  words : ∀ n ∈ known.words, n < countLimit
  labels : ∀ labels ∈ known.labels, ∀ label ∈ labels.entries, label.address < countLimit
  lines : ∀ lines ∈ known.lines, ∀ entry ∈ lines, entry.Fits

lemma yields_field (key : String) (known : Fields) (h : known.Fits) :
    Yields (readField key known) Fields.Fits := by
  intro ts final rest hread
  unfold readField at hread
  split_ifs at hread
  · obtain ⟨n, us, hn, heq⟩ := (yields_count.once _).exists_of_map hread
    cases heq
    exact ⟨by simpa using hn, h.labels, h.lines⟩
  · obtain ⟨labels, us, hlabels, heq⟩ := (yields_labels.once _).exists_of_map hread
    cases heq
    exact ⟨h.words, by simpa using hlabels, h.lines⟩
  · obtain ⟨lines, us, hlines, heq⟩ := (yields_line.array.once _).exists_of_map hread
    cases heq
    exact ⟨h.words, h.labels, by simpa using hlines⟩
  · exact yields_skip h _ _ _ hread

lemma yields_ofTokens : Yields ofTokens Fits := by
  intro ts m rest hread
  unfold ofTokens at hread
  split at hread
  · simp only [Option.bind_eq_bind, Option.bind_eq_some_iff, Prod.exists] at hread
    obtain ⟨words, us, hwords, vs, -, labels, ws, hlabels, xs, -, lines, ys, hlines, zs, -, heq⟩ :=
      hread
    cases heq
    exact ⟨yields_count _ _ _ hwords, yields_labels _ _ _ hlabels,
      yields_line.array _ _ _ hlines⟩
  · simp only [Option.bind_eq_bind, Option.bind_eq_some_iff, Prod.exists] at hread
    obtain ⟨known, us, hknown, m', hcomplete, heq⟩ := hread
    cases heq
    have hfits := yields_object yields_field ⟨by simp, by simp, by simp⟩ _ _ _ hknown
    simp only [Fields.complete, Option.bind_eq_bind, Option.bind_eq_some_iff] at hcomplete
    obtain ⟨words, hwords, labels, hlabels, lines, hlines, heq⟩ := hcomplete
    cases heq
    exact ⟨hfits.words _ hwords, hfits.labels _ hlabels, hfits.lines _ hlines⟩

theorem fits_of_parse? {text : String} {m : SymbolMap} (h : parse? text = some m) : m.Fits := by
  simp only [parse?, Option.bind_eq_bind, Option.bind_eq_some_iff, Prod.exists] at h
  obtain ⟨ts, -, m', rest, hm, h⟩ := h
  split at h
  · next heq =>
    cases heq
    cases h
    exact yields_ofTokens _ _ _ hm
  · cases h

end SymbolMap

end StackAssembler
