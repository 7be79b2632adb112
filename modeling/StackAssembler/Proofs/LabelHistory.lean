import Mathlib.Data.List.Nodup
import StackAssembler.Proofs.LabelTable
import StackAssembler.Proofs.Scan

/-!
# Histories of a label table

What a label table answers to requests in any order, and what it holds behind them. A table is a
record of the definitions that succeeded: the names in it differ, it never exceeds its capacity, it
grows at its end only, and a name resolves to the address of its one definition.
-/

namespace StackAssembler

/-- A request to a label table, from the line with the given number. -/
inductive LabelRequest where
  | define (name : String) (address line : Nat)
  | resolve (name : String) (line : Nat)
  deriving DecidableEq, Repr

namespace LabelTable

/-- The answer to a request: an address for a name that is resolved. -/
def answer (t : LabelTable) : LabelRequest → Except AssemblyError (Option Nat)
  | .define name address line =>
    match t.define name address with
    | .ok _ => .ok none
    | .error fault => .error (.atLine line fault)
  | .resolve name line =>
    match t.resolve name with
    | .ok address => .ok (some address)
    | .error fault => .error (.atLine line fault)

/-- The table behind a request. -/
def next (t : LabelTable) : LabelRequest → LabelTable
  | .define name address _ =>
    match t.define name address with
    | .ok bound => bound
    | .error _ => t
  | .resolve _ _ => t

/-- The table behind requests to a table of the given capacity that was empty. -/
def behind (capacity : Nat) (requests : List LabelRequest) : LabelTable :=
  requests.foldl next (empty capacity)

/-- The label that a request behind the given ones binds: that of a definition which succeeds. -/
def bound? (capacity : Nat) (before : List LabelRequest) : LabelRequest → Option Label
  | .define name address line =>
    if (behind capacity before).answer (.define name address line) = .ok none then
      some ⟨name, address⟩
    else none
  | .resolve _ _ => none

/-- Behind the ones at their start, the requests go on with a definition that succeeds. -/
def DefinedBehind (capacity : Nat) (requests before : List LabelRequest) (name : String)
    (address : Nat) : Prop :=
  ∃ line after, requests = before ++ .define name address line :: after ∧
    (behind capacity before).answer (.define name address line) = .ok none

/-! ### Single requests -/

section Requests

variable {t : LabelTable} {name : String} {address line : Nat}

lemma answer_define_eq_ok_iff :
    t.answer (.define name address line) = .ok none ↔ name ∉ t.names ∧ t.size < t.capacity := by
  cases h : t.define name address with
  | ok u =>
    obtain ⟨hname, hroom, -⟩ := define_eq_ok_iff.mp h
    simp [answer, h, hname, hroom]
  | error f =>
    rcases define_eq_error_iff.mp h with ⟨hname, -⟩ | ⟨hname, hfull, -⟩
    · simp [answer, h, hname]
    · simp [answer, h, hfull]

lemma answer_define_eq_error_iff {e : AssemblyError} :
    t.answer (.define name address line) = .error e ↔
      (name ∈ t.names ∧ e = .atLine line (.duplicateLabel name)) ∨
      (name ∉ t.names ∧ t.capacity ≤ t.size ∧ e = .atLine line (.labelTableFull t.capacity)) := by
  cases h : t.define name address with
  | ok u =>
    obtain ⟨hname, hroom, -⟩ := define_eq_ok_iff.mp h
    simp [answer, h, hname, Nat.not_le.mpr hroom]
  | error f =>
    rcases define_eq_error_iff.mp h with ⟨hname, rfl⟩ | ⟨hname, hfull, rfl⟩
    · simp [answer, h, hname, eq_comm]
    · simp [answer, h, hname, hfull, eq_comm]

lemma answer_resolve_eq_ok_iff :
    t.answer (.resolve name line) = .ok (some address) ↔ t.find? name = some address := by
  cases h : t.find? name <;> simp [answer, resolve, h]

lemma answer_resolve_eq_error_iff {e : AssemblyError} :
    t.answer (.resolve name line) = .error e ↔
      name ∉ t.names ∧ e = .atLine line (.undefinedLabel name) := by
  rw [← find?_eq_none_iff]
  cases h : t.find? name <;> simp [answer, resolve, h, eq_comm]

/-- A definition that succeeds adds its label at the end. -/
lemma next_of_answer_eq_ok (h : t.answer (.define name address line) = .ok none) :
    t.next (.define name address line) = { t with entries := t.entries ++ [⟨name, address⟩] } := by
  obtain ⟨hname, hroom⟩ := answer_define_eq_ok_iff.mp h
  rw [next, define_eq_ok_iff.mpr ⟨hname, hroom, rfl⟩]

/-- A request that fails leaves the table as it was. -/
lemma next_of_answer_eq_error {r : LabelRequest} {e : AssemblyError} (h : t.answer r = .error e) :
    t.next r = t := by
  cases r with
  | resolve name line => rfl
  | define name address line =>
    cases hd : t.define name address with
    | ok u => simp [answer, hd] at h
    | error f => simp [next, hd]

end Requests

/-! ### Sequences of requests -/

lemma behind_append (capacity : Nat) (as bs : List LabelRequest) :
    behind capacity (as ++ bs) = bs.foldl next (behind capacity as) :=
  List.foldl_append

lemma behind_concat (capacity : Nat) (requests : List LabelRequest) (r : LabelRequest) :
    behind capacity (requests ++ [r]) = (behind capacity requests).next r :=
  behind_append capacity requests [r]

/-- A table with room for its entries, and without a name that is bound twice. -/
structure Sound (t : LabelTable) : Prop where
  nodup : t.names.Nodup
  size_le : t.size ≤ t.capacity

lemma sound_empty (capacity : Nat) : (empty capacity).Sound where
  nodup := List.nodup_nil
  size_le := Nat.zero_le capacity

section Steps

variable {t : LabelTable}

/-- What a request does to a table: a definition that succeeds adds its label at the end, and
nothing else changes it. -/
lemma next_cases (t : LabelTable) (r : LabelRequest) :
    (∃ name address line, r = .define name address line ∧ t.answer r = .ok none ∧
      t.next r = { t with entries := t.entries ++ [⟨name, address⟩] }) ∨
    t.next r = t ∧ ∀ name address line, r = .define name address line → t.answer r ≠ .ok none := by
  cases r with
  | resolve name line => exact Or.inr ⟨rfl, by simp⟩
  | define name address line =>
    cases h : t.answer (.define name address line) with
    | error e => exact Or.inr ⟨next_of_answer_eq_error h, by simp⟩
    | ok value =>
      obtain rfl : value = none := by
        cases hd : t.define name address <;> simp [answer, hd] at h
        exact h.symm
      exact Or.inl ⟨name, address, line, rfl, rfl, next_of_answer_eq_ok h⟩

lemma capacity_next (t : LabelTable) (r : LabelRequest) : (t.next r).capacity = t.capacity := by
  rcases next_cases t r with ⟨name, address, line, -, -, hnext⟩ | ⟨hnext, -⟩ <;> rw [hnext]

/-- A request keeps the entries where they are. -/
lemma entries_prefix_next (t : LabelTable) (r : LabelRequest) :
    t.entries <+: (t.next r).entries := by
  rcases next_cases t r with ⟨name, address, line, -, -, hnext⟩ | ⟨hnext, -⟩
  · simp [hnext]
  · simp [hnext]

lemma Sound.next (h : t.Sound) (r : LabelRequest) : (t.next r).Sound := by
  rcases next_cases t r with ⟨name, address, line, rfl, hok, hnext⟩ | ⟨hnext, -⟩
  · obtain ⟨hname, hroom⟩ := answer_define_eq_ok_iff.mp hok
    rw [hnext]
    constructor
    · rw [names, List.map_append, List.map_singleton]
      exact List.nodup_append_comm.mp (List.nodup_cons.mpr ⟨hname, h.nodup⟩)
    · rw [size, List.length_append, List.length_singleton]
      exact hroom
  · rw [hnext]
    exact h

end Steps

section Runs

variable (capacity : Nat) (requests : List LabelRequest)

lemma capacity_behind : (behind capacity requests).capacity = capacity := by
  induction requests using List.reverseRecOn with
  | nil => rfl
  | append_singleton requests r ih => rw [behind_concat, capacity_next, ih]

lemma sound_behind : (behind capacity requests).Sound := by
  induction requests using List.reverseRecOn with
  | nil => exact sound_empty capacity
  | append_singleton requests r ih =>
    rw [behind_concat]
    exact ih.next r

/-- A table grows at its end only. -/
lemma entries_prefix_behind (later : List LabelRequest) :
    (behind capacity requests).entries <+: (behind capacity (requests ++ later)).entries := by
  induction later using List.reverseRecOn with
  | nil => simp
  | append_singleton later r ih =>
    rw [← List.append_assoc, behind_concat]
    exact ih.trans (entries_prefix_next _ r)

/-- A table holds the labels of the definitions that succeeded, in order. -/
lemma entries_behind : (behind capacity requests).entries =
    collect (fun before r => (bound? capacity before r).toList) requests := by
  induction requests using List.reverseRecOn with
  | nil => rfl
  | append_singleton requests r ih =>
    rw [collect_concat, ← ih, behind_concat]
    rcases next_cases (behind capacity requests) r with
      ⟨name, address, line, rfl, hok, hnext⟩ | ⟨hnext, hnot⟩
    · simp [hnext, bound?, hok]
    · cases r with
      | resolve name line => simp [hnext, bound?]
      | define name address line => simp [hnext, bound?, hnot name address line rfl]

end Runs

section Definitions

variable {capacity : Nat} {requests before before' : List LabelRequest} {name : String}
  {address address' : Nat}

lemma mem_entries_behind_iff : ⟨name, address⟩ ∈ (behind capacity requests).entries ↔
    ∃ before, DefinedBehind capacity requests before name address := by
  rw [entries_behind, mem_collect_iff]
  refine exists_congr fun before => ?_
  constructor
  · rintro ⟨r, after, rfl, hbound⟩
    cases r with
    | resolve n line => simp [bound?] at hbound
    | define n a line =>
      simp only [bound?] at hbound
      split_ifs at hbound with hok
      · obtain ⟨rfl, rfl⟩ : name = n ∧ address = a := by simpa using hbound
        exact ⟨line, after, rfl, hok⟩
      · simp at hbound
  · rintro ⟨line, after, rfl, hok⟩
    exact ⟨_, after, rfl, by simp [bound?, hok]⟩

/-- A name is resolved to the address of a definition that succeeded. -/
lemma find?_behind_eq_some_iff : (behind capacity requests).find? name = some address ↔
    ∃ before, DefinedBehind capacity requests before name address := by
  rw [← mem_entries_behind_iff]
  constructor
  · exact mem_entries_of_find?
  · intro hmem
    have hnodup := (sound_behind capacity requests).nodup
    rw [find?, (find?_key_eq_some_iff hnodup).mpr ⟨hmem, rfl⟩]
    rfl

/-- A name that is defined successfully is no longer free. -/
lemma answer_define_ne_ok {line line' : Nat}
    (hok : (behind capacity before).answer (.define name address line) = .ok none)
    (middle : List LabelRequest) :
    (behind capacity (before ++ .define name address line :: middle)).answer
      (.define name address' line') ≠ .ok none := by
  intro hok'
  have hmem : (⟨name, address⟩ : Label) ∈
      (behind capacity (before ++ .define name address line :: middle)).entries :=
    mem_entries_behind_iff.mpr ⟨before, line, middle, rfl, hok⟩
  exact (answer_define_eq_ok_iff.mp hok').1 (List.mem_map_of_mem hmem)

/-- A name is defined successfully at most once. -/
lemma DefinedBehind.unique (h : DefinedBehind capacity requests before name address)
    (h' : DefinedBehind capacity requests before' name address') :
    before = before' ∧ address = address' := by
  obtain ⟨line, after, rfl, hok⟩ := h
  obtain ⟨line', after', hsplit, hok'⟩ := h'
  -- one of the two definitions stands before the other, unless they are the same
  rcases List.append_eq_append_iff.mp hsplit with
    ⟨middle, rfl, hmiddle⟩ | ⟨middle, rfl, hmiddle⟩
  · cases middle with
    | nil => simp_all
    | cons r middle =>
      obtain ⟨rfl, -⟩ := List.cons.inj hmiddle
      exact absurd hok' (answer_define_ne_ok hok middle)
  · cases middle with
    | nil => simp_all
    | cons r middle =>
      obtain ⟨rfl, -⟩ := List.cons.inj hmiddle
      exact absurd hok (answer_define_ne_ok hok' middle)

end Definitions

/-- What is true of the table behind requests to a table of the given capacity that was empty. -/
structure Records (capacity : Nat) (requests : List LabelRequest) (t : LabelTable) : Prop where
  nodup : t.names.Nodup
  size_le : t.size ≤ capacity
  /-- The entries are the labels of the definitions that succeeded, in order. -/
  entries : t.entries = collect (fun before r => (bound? capacity before r).toList) requests
  /-- The table grows at its end only. -/
  grows : ∀ later, t.entries <+: (behind capacity (requests ++ later)).entries
  /-- A bound address never changes. -/
  keeps : ∀ later name address, t.find? name = some address →
    (behind capacity (requests ++ later)).find? name = some address
  /-- A bound name is a duplicate, also where the table is full. -/
  duplicate : ∀ name address line, t.answer (.define name address line) =
    .error (.atLine line (.duplicateLabel name)) ↔ name ∈ t.names
  full : ∀ name address line, t.answer (.define name address line) =
    .error (.atLine line (.labelTableFull capacity)) ↔ name ∉ t.names ∧ t.size = capacity
  defined : ∀ name address line, t.answer (.define name address line) = .ok none ↔
    name ∉ t.names ∧ t.size ≠ capacity
  adds : ∀ name address line, t.answer (.define name address line) = .ok none →
    behind capacity (requests ++ [.define name address line]) =
      ⟨capacity, t.entries ++ [⟨name, address⟩]⟩
  /-- A request that fails leaves the table as it was, and so does every resolution. -/
  refuses : ∀ r e, t.answer r = .error e → behind capacity (requests ++ [r]) = t
  reads : ∀ name line, behind capacity (requests ++ [.resolve name line]) = t
  /-- A name is resolved to the address of its definition. -/
  resolved : ∀ name line address, t.answer (.resolve name line) = .ok (some address) ↔
    ∃ before, DefinedBehind capacity requests before name address
  /-- No name has two definitions. -/
  unique : ∀ name before before' address address',
    DefinedBehind capacity requests before name address →
    DefinedBehind capacity requests before' name address' → before = before' ∧ address = address'
  undefined : ∀ name line, t.answer (.resolve name line) =
    .error (.atLine line (.undefinedLabel name)) ↔
      ∀ before address, ¬ DefinedBehind capacity requests before name address

/-- A label table records its history. Behind any requests to a table that was empty, whatever its
capacity, no name is bound twice, there are no more entries than the capacity allows, and the
entries are the definitions that succeeded. Requests only add entries at the end. A definition fails
exactly where its name is bound or the table is full, and a name resolves to the address of its one
definition. -/
theorem records_behind (capacity : Nat) (requests : List LabelRequest) :
    (behind capacity requests).Records capacity requests := by
  obtain ⟨hnodup, hsize⟩ := sound_behind capacity requests
  have hcapacity := capacity_behind capacity requests
  rw [hcapacity] at hsize
  -- the table is full exactly where it has as many entries as its capacity allows
  have hfull : capacity ≤ (behind capacity requests).size ↔
      (behind capacity requests).size = capacity := by
    omega
  exact {
    nodup := hnodup
    size_le := hsize
    entries := entries_behind capacity requests
    grows := entries_prefix_behind capacity requests
    keeps := by
      intro later name address hfind
      rw [find?_behind_eq_some_iff] at hfind ⊢
      obtain ⟨before, line, after, rfl, hok⟩ := hfind
      exact ⟨before, line, after ++ later, by simp, hok⟩
    duplicate := by
      intro name address line
      simp [answer_define_eq_error_iff]
    full := by
      intro name address line
      simp [answer_define_eq_error_iff, hcapacity, hfull]
    defined := by
      intro name address line
      rw [answer_define_eq_ok_iff, hcapacity, Nat.lt_iff_le_and_ne]
      simp [hsize]
    adds := by
      intro name address line hok
      rw [behind_concat, next_of_answer_eq_ok hok, hcapacity]
    refuses := by
      intro r e herror
      rw [behind_concat, next_of_answer_eq_error herror]
    reads := by
      intro name line
      exact behind_concat capacity requests _
    resolved := by
      intro name line address
      rw [answer_resolve_eq_ok_iff, find?_behind_eq_some_iff]
    unique := by
      intro name before before' address address' h h'
      exact h.unique h'
    undefined := by
      intro name line
      rw [answer_resolve_eq_error_iff, ← find?_eq_none_iff, Option.eq_none_iff_forall_ne_some]
      simp only [ne_eq, find?_behind_eq_some_iff, not_exists, and_true]
      exact forall_comm }

end LabelTable

end StackAssembler
