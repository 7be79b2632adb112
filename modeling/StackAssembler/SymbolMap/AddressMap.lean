import StackAssembler.Assembly.LabelTable

/-!
# Address maps

Finite maps from names to addresses. The entries are kept in ascending order of their names, by code
point, so that equal maps have equal entries.
-/

namespace StackAssembler

/-- A finite map from names to addresses. -/
structure AddressMap where
  entries : List Label
  sorted : entries.Pairwise fun a b => a.name < b.name
  deriving DecidableEq

namespace AddressMap

/-- Put an entry at its place, in the stead of one with its name. -/
def insertEntry (e : Label) : List Label → List Label
  | [] => [e]
  | a :: as =>
    if e.name < a.name then e :: a :: as
    else if a.name < e.name then a :: insertEntry e as
    else e :: as

private theorem name_eq {a b : String} (h : ¬ a < b) (h' : ¬ b < a) : a = b :=
  String.le_antisymm (String.not_lt.1 h') (String.not_lt.1 h)

theorem mem_insertEntry {e x : Label} {as : List Label} (h : x ∈ insertEntry e as) :
    x = e ∨ x ∈ as := by
  induction as with
  | nil => simpa [insertEntry] using h
  | cons a as ih =>
    rw [insertEntry] at h
    split at h
    · simpa using h
    · split at h
      · rcases List.mem_cons.1 h with rfl | h
        · exact .inr (.head _)
        · exact (ih h).imp_right (.tail _)
      · rcases List.mem_cons.1 h with rfl | h
        · exact .inl rfl
        · exact .inr (.tail _ h)

theorem sorted_insertEntry (e : Label) {as : List Label}
    (h : as.Pairwise fun a b => a.name < b.name) :
    (insertEntry e as).Pairwise fun a b => a.name < b.name := by
  induction as with
  | nil => simp [insertEntry]
  | cons a as ih =>
    obtain ⟨ha, has⟩ := List.pairwise_cons.1 h
    rw [insertEntry]
    split
    · next hlt =>
      refine List.pairwise_cons.2 ⟨fun x hx => ?_, h⟩
      rcases List.mem_cons.1 hx with rfl | hx
      · exact hlt
      · exact String.lt_trans hlt (ha x hx)
    · split
      · next hlt =>
        refine List.pairwise_cons.2 ⟨fun x hx => ?_, ih has⟩
        rcases mem_insertEntry hx with rfl | hx
        · exact hlt
        · exact ha x hx
      · next h₁ h₂ =>
        refine List.pairwise_cons.2 ⟨fun x hx => ?_, has⟩
        rw [name_eq h₁ h₂]
        exact ha x hx

def empty : AddressMap := ⟨[], .nil⟩

/-- Bind a name. The address it was bound to before is forgotten. -/
def insert (m : AddressMap) (e : Label) : AddressMap :=
  ⟨insertEntry e m.entries, sorted_insertEntry e m.sorted⟩

/-- The map of a list of bindings, of which the last for a name counts. -/
def ofList (es : List Label) : AddressMap := es.foldl insert empty

def find? (m : AddressMap) (name : String) : Option Nat :=
  (m.entries.find? (·.name == name)).map Label.address

end AddressMap

end StackAssembler
