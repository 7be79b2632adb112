import Mathlib.Data.List.Basic
import Mathlib.Tactic.Lemma
import StackAssembler.Assembly.LabelTable

/-!
# Label tables

When a name can be bound, what the table is afterwards, and which names it knows.
-/

namespace StackAssembler

/-- Where no key stands twice, the first element with a key is the only one. -/
lemma find?_key_eq_some_iff {α : Type} {key : α → String} {as : List α} (h : (as.map key).Nodup)
    {name : String} {a : α} : as.find? (key · == name) = some a ↔ a ∈ as ∧ key a = name := by
  constructor
  · intro hfind
    exact ⟨List.mem_of_find?_eq_some hfind, by simpa using List.find?_some hfind⟩
  · rintro ⟨hmem, rfl⟩
    induction as with
    | nil => cases hmem
    | cons b as ih =>
      rw [List.map_cons, List.nodup_cons] at h
      rcases List.mem_cons.mp hmem with rfl | hmem
      · simp
      · have hne : key b ≠ key a := by
          intro heq
          rw [heq] at h
          exact h.1 (List.mem_map_of_mem hmem)
        rw [List.find?_cons_of_neg (by simpa using hne)]
        exact ih h.2 hmem

namespace LabelTable

/-- The names bound in a table, in the order of their definition. -/
def names (t : LabelTable) : List String := t.entries.map Label.name

@[simp] lemma length_names (t : LabelTable) : t.names.length = t.size :=
  List.length_map _

lemma isSome_find?_iff {t : LabelTable} {name : String} :
    (t.find? name).isSome = true ↔ name ∈ t.names := by
  rw [find?, Option.isSome_map, List.find?_isSome]
  simp [names]

lemma find?_eq_none_iff {t : LabelTable} {name : String} :
    t.find? name = none ↔ name ∉ t.names := by
  rw [← isSome_find?_iff, Option.not_isSome_iff_eq_none]

/-- A bound address comes from an entry of that name. -/
lemma mem_entries_of_find? {t : LabelTable} {name : String} {address : Nat}
    (h : t.find? name = some address) : ⟨name, address⟩ ∈ t.entries := by
  obtain ⟨label, hlabel, rfl⟩ := Option.map_eq_some_iff.mp h
  have hname : label.name = name := by simpa using List.find?_some hlabel
  subst hname
  exact List.mem_of_find?_eq_some hlabel

lemma define_eq_ok_iff {t t' : LabelTable} {name : String} {address : Nat} :
    t.define name address = .ok t' ↔ name ∉ t.names ∧ t.size < t.capacity ∧
      t' = { t with entries := t.entries ++ [⟨name, address⟩] } := by
  rw [define]
  split_ifs with hbound hfull
  · simp [isSome_find?_iff.mp hbound]
  · simp [Nat.not_lt.mpr hfull]
  · rw [isSome_find?_iff] at hbound
    simp [hbound, Nat.not_le.mp hfull, eq_comm]

lemma define_eq_error_iff {t : LabelTable} {name : String} {address : Nat} {f : LineFault} :
    t.define name address = .error f ↔
      (name ∈ t.names ∧ f = .duplicateLabel name) ∨
      (name ∉ t.names ∧ t.capacity ≤ t.size ∧ f = .labelTableFull t.capacity) := by
  rw [define]
  split_ifs with hbound hfull
  · simp [isSome_find?_iff.mp hbound, eq_comm]
  · rw [isSome_find?_iff] at hbound
    simp [hbound, hfull, eq_comm]
  · rw [isSome_find?_iff] at hbound
    simp [hbound, hfull]

lemma resolve_eq_error_iff {t : LabelTable} {name : String} {f : LineFault} :
    t.resolve name = .error f ↔ name ∉ t.names ∧ f = .undefinedLabel name := by
  rw [← find?_eq_none_iff]
  rw [resolve]
  cases t.find? name <;> simp [eq_comm]

end LabelTable

end StackAssembler
