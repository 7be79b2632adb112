import Mathlib.Data.List.Nodup
import StackAssembler.Cli.Run
import StackAssembler.Proofs.Arguments
import StackAssembler.Proofs.Extension
import StackAssembler.Proofs.Literals

/-!
# Options of an argument vector

Which options come of an argument vector. The items that it says are acceptable where nothing is
said twice and every value is one. `Options.parse_eq_ok_iff` says that options come out of exactly
the vectors whose items are acceptable and name an input, and what they are then;
`Options.parse_eq_info_iff` does the same for requests for information.
-/

namespace StackAssembler

open Text

/-! ### Counts -/

namespace Text

/-- A numeral without a minus sign denotes a number of 64 bits. -/
def DenotesCount (cs : List Char) (n : Nat) : Prop :=
  Denotes cs n ∧ cs.head? ≠ some '-' ∧ n < 2 ^ 64

/-- The counts that are read are the numerals that fit. -/
lemma count?_eq_some_iff {cs : List Char} {n : Nat} : count? cs = some n ↔ DenotesCount cs n := by
  have hlimit : countLimit = 2 ^ 64 := by decide
  unfold count?
  rw [Option.filter_eq_some_iff, hlimit, DenotesCount, ← integer?_eq_some_iff, decide_eq_true_eq]
  split
  · next ds => simp [integer?_plus]
  · next hplus =>
    constructor
    · rintro ⟨hn, hfits⟩
      refine ⟨integer?_of_natural? hn, ?_, hfits⟩
      intro hminus
      obtain ⟨ds, rfl⟩ := List.head?_eq_some_iff.mp hminus
      exact absurd ((natural?_eq_some_iff.mp hn).1.2 '-' (by simp)) (by decide)
    · rintro ⟨hn, hminus, hfits⟩
      have hhead : cs.head? ≠ some '+' := by
        intro hhead
        obtain ⟨ds, hds⟩ := List.head?_eq_some_iff.mp hhead
        exact hplus ds hds
      obtain ⟨m, hm, heq⟩ := exists_natural?_of_integer? hn hhead hminus
      obtain rfl : n = m := by exact_mod_cast heq
      exact ⟨hm, hfits⟩

/-- A numeral denotes one number. -/
lemma DenotesCount.iff_eq {cs : List Char} {n m : Nat} (h : DenotesCount cs n) :
    DenotesCount cs m ↔ n = m := by
  rw [← count?_eq_some_iff] at h ⊢
  rw [h, Option.some.injEq]

end Text

namespace Cli

/-! ### Acceptable items -/

namespace Item

/-- What an item is about: an option, or the input. -/
def switch? : Item → Option Switch
  | .flag f => some (.flag f)
  | .setting s _ => some (.setting s)
  | .input _ => none

/-- A value that can be taken: a path is not empty, and a limit is a count. -/
def Valid : Item → Prop
  | .flag _ => True
  | .setting .output path | .input path => path ≠ ""
  | .setting .maxWords text | .setting .labels text => ∃ n, DenotesCount text.toList n

variable {items : List Item}

lemma mem_map_flag_iff {f : Flag} : some (.flag f) ∈ items.map switch? ↔ .flag f ∈ items := by
  rw [List.mem_map]
  constructor
  · rintro ⟨item, hitem, heq⟩
    cases item <;> cases heq
    exact hitem
  · intro h
    exact ⟨_, h, rfl⟩

lemma mem_map_setting_iff {s : Setting} :
    some (.setting s) ∈ items.map switch? ↔ ∃ value, .setting s value ∈ items := by
  rw [List.mem_map]
  constructor
  · rintro ⟨item, hitem, heq⟩
    cases item <;> cases heq
    exact ⟨_, hitem⟩
  · rintro ⟨value, h⟩
    exact ⟨_, h, rfl⟩

lemma mem_map_input_iff : none ∈ items.map switch? ↔ ∃ path, .input path ∈ items := by
  rw [List.mem_map]
  constructor
  · rintro ⟨item, hitem, heq⟩
    cases item <;> cases heq
    exact ⟨_, hitem⟩
  · rintro ⟨path, h⟩
    exact ⟨_, h, rfl⟩

end Item

/-- Nothing is said twice, and every value can be taken. -/
structure Acceptable (items : List Item) : Prop where
  once : (items.map Item.switch?).Nodup
  valid : ∀ item ∈ items, item.Valid

lemma acceptable_concat_iff {items : List Item} {item : Item} : Acceptable (items ++ [item]) ↔
    Acceptable items ∧ item.switch? ∉ items.map Item.switch? ∧ item.Valid := by
  have honce : ((items ++ [item]).map Item.switch?).Nodup ↔
      item.switch? ∉ items.map Item.switch? ∧ (items.map Item.switch?).Nodup := by
    rw [List.map_append, List.nodup_append_comm, List.map_singleton, List.singleton_append,
      List.nodup_cons]
  have hvalid : (∀ x ∈ items ++ [item], x.Valid) ↔ (∀ x ∈ items, x.Valid) ∧ item.Valid := by
    rw [List.forall_mem_append, List.forall_mem_singleton]
  constructor
  · intro h
    obtain ⟨hnew, hitems⟩ := honce.mp h.once
    obtain ⟨hall, hitem⟩ := hvalid.mp h.valid
    exact ⟨⟨hitems, hall⟩, hnew, hitem⟩
  · rintro ⟨⟨hitems, hall⟩, hnew, hitem⟩
    exact ⟨honce.mpr ⟨hnew, hitems⟩, hvalid.mpr ⟨hall, hitem⟩⟩

/-! ### Items that are taken -/

namespace Arguments

variable {a b : Arguments} {items : List Item} {item : Item}

/-- What has been taken is what the items say. -/
structure Holds (a : Arguments) (items : List Item) : Prop where
  input : ∀ path, a.input = some path ↔ .input path ∈ items
  output : ∀ path, a.output = some path ↔ .setting .output path ∈ items
  maxWords : ∀ n, a.maxWords = some n ↔
    ∃ text, .setting .maxWords text ∈ items ∧ DenotesCount text.toList n
  labels : ∀ n, a.labels = some n ↔
    ∃ text, .setting .labels text ∈ items ∧ DenotesCount text.toList n
  flags : ∀ f, f ∈ a.flags ↔ .flag f ∈ items

lemma addFlag_eq_ok_iff {f : Flag} :
    a.addFlag f = .ok b ↔ f ∉ a.flags ∧ b = { a with flags := f :: a.flags } := by
  unfold addFlag
  split_ifs with h <;> simp [h, eq_comm]

lemma addInput_eq_ok_iff {path : String} : a.addInput path = .ok b ↔
    a.input = none ∧ path ≠ "" ∧ b = { a with input := some path } := by
  unfold addInput
  cases h : a.input with
  | some _ => simp
  | none => by_cases hpath : path = "" <;> simp [hpath, eq_comm]

lemma readNumber_eq_ok_iff {s : Setting} {known : Option Nat} {text : String} {n : Nat} :
    readNumber s known text = .ok n ↔ known = none ∧ DenotesCount text.toList n := by
  rw [← count?_eq_some_iff]
  unfold readNumber
  split <;> simp_all

lemma addSetting_output_eq_ok_iff {path : String} : a.addSetting .output path = .ok b ↔
    a.output = none ∧ path ≠ "" ∧ b = { a with output := some path } := by
  simp only [addSetting]
  cases h : a.output with
  | some _ => simp
  | none => by_cases hpath : path = "" <;> simp [hpath, eq_comm]

lemma addSetting_maxWords_eq_ok_iff {text : String} : a.addSetting .maxWords text = .ok b ↔
    a.maxWords = none ∧ ∃ n, DenotesCount text.toList n ∧ b = { a with maxWords := some n } := by
  simp only [addSetting, bind_eq_ok_iff, readNumber_eq_ok_iff]
  simp [pure, Except.pure, and_assoc, eq_comm]

lemma addSetting_labels_eq_ok_iff {text : String} : a.addSetting .labels text = .ok b ↔
    a.labels = none ∧ ∃ n, DenotesCount text.toList n ∧ b = { a with labels := some n } := by
  simp only [addSetting, bind_eq_ok_iff, readNumber_eq_ok_iff]
  simp [pure, Except.pure, and_assoc, eq_comm]

/-- Taking an item that is new adds what it says. -/
lemma Holds.addItem (h : a.Holds items) (hnew : item.switch? ∉ items.map Item.switch?)
    (hadd : a.addItem item = .ok b) : b.Holds (items ++ [item]) := by
  -- no earlier item is about the same option, so a field that is set now was empty
  have hno : ∀ other ∈ items, other.switch? ≠ item.switch? := by
    intro other hother heq
    exact hnew (heq ▸ List.mem_map_of_mem hother)
  obtain ⟨hinput, houtput, hwords, hlabels, hflags⟩ := h
  cases item with
  | flag f =>
    obtain ⟨-, rfl⟩ := addFlag_eq_ok_iff.mp hadd
    constructor <;> simp [hinput, houtput, hwords, hlabels, hflags, or_comm]
  | input path =>
    obtain ⟨-, -, rfl⟩ := addInput_eq_ok_iff.mp hadd
    have hinput : ∀ p, .input p ∉ items := fun p hp => hno _ hp rfl
    constructor <;> simp [hinput, houtput, hwords, hlabels, hflags, eq_comm]
  | setting s value =>
    cases s with
    | output =>
      obtain ⟨-, -, rfl⟩ := addSetting_output_eq_ok_iff.mp hadd
      have houtput : ∀ p, .setting .output p ∉ items := fun p hp => hno _ hp rfl
      constructor <;> simp [hinput, houtput, hwords, hlabels, hflags, eq_comm]
    | maxWords =>
      obtain ⟨-, n, hn, rfl⟩ := addSetting_maxWords_eq_ok_iff.mp hadd
      have hwords : ∀ text, .setting .maxWords text ∉ items := fun text ht => hno _ ht rfl
      constructor <;> simp [hinput, houtput, hwords, hlabels, hflags, hn.iff_eq]
    | labels =>
      obtain ⟨-, n, hn, rfl⟩ := addSetting_labels_eq_ok_iff.mp hadd
      have hlabels : ∀ text, .setting .labels text ∉ items := fun text ht => hno _ ht rfl
      constructor <;> simp [hinput, houtput, hwords, hlabels, hflags, hn.iff_eq]

/-- A limit that was not taken was not given, since what was given could be taken. -/
lemma eq_none_iff_of_valid {s : Setting} {limit : Option Nat}
    (hvalid : ∀ text, .setting s text ∈ items → ∃ n, DenotesCount text.toList n)
    (h : ∀ n, limit = some n ↔ ∃ text, .setting s text ∈ items ∧ DenotesCount text.toList n) :
    limit = none ↔ some (.setting s) ∉ items.map Item.switch? := by
  rw [Item.mem_map_setting_iff, Option.eq_none_iff_forall_ne_some]
  constructor
  · rintro hnone ⟨text, htext⟩
    obtain ⟨n, hn⟩ := hvalid text htext
    exact hnone n ((h n).mpr ⟨text, htext, hn⟩)
  · rintro hno n hn
    obtain ⟨text, htext, -⟩ := (h n).mp hn
    exact hno ⟨text, htext⟩

/-- An item is taken where it is new and its value can be taken. -/
lemma Holds.exists_addItem_iff (h : a.Holds items) (hvalid : ∀ item ∈ items, item.Valid) :
    (∃ b, a.addItem item = .ok b) ↔ item.switch? ∉ items.map Item.switch? ∧ item.Valid := by
  cases item with
  | flag f =>
    have hnew : f ∉ a.flags ↔ some (.flag f) ∉ items.map Item.switch? := by
      rw [h.flags, Item.mem_map_flag_iff]
    show (∃ b, a.addFlag f = .ok b) ↔ some (.flag f) ∉ items.map Item.switch? ∧ True
    simp only [addFlag_eq_ok_iff, hnew, exists_and_left, exists_eq]
  | input path =>
    have hnew : a.input = none ↔ none ∉ items.map Item.switch? := by
      simp [Option.eq_none_iff_forall_ne_some, h.input, Item.mem_map_input_iff]
    show (∃ b, a.addInput path = .ok b) ↔ none ∉ items.map Item.switch? ∧ path ≠ ""
    simp only [addInput_eq_ok_iff, hnew, exists_and_left, exists_eq, and_true]
  | setting s value =>
    show (∃ b, a.addSetting s value = .ok b) ↔
      some (.setting s) ∉ items.map Item.switch? ∧ (Item.setting s value).Valid
    cases s with
    | output =>
      have hnew : a.output = none ↔ some (.setting .output) ∉ items.map Item.switch? := by
        simp [Option.eq_none_iff_forall_ne_some, h.output, Item.mem_map_setting_iff]
      simp only [addSetting_output_eq_ok_iff, hnew, exists_and_left, exists_eq, and_true,
        Item.Valid]
    | maxWords =>
      have hnew := eq_none_iff_of_valid (fun text => hvalid (.setting .maxWords text)) h.maxWords
      rw [← hnew]
      simp [addSetting_maxWords_eq_ok_iff, Item.Valid]
    | labels =>
      have hnew := eq_none_iff_of_valid (fun text => hvalid (.setting .labels text)) h.labels
      rw [← hnew]
      simp [addSetting_labels_eq_ok_iff, Item.Valid]

lemma holds_start : ({} : Arguments).Holds [] := by
  constructor <;> simp

/-- Items that are taken in order are acceptable, and are held afterwards. -/
lemma holds_of_foldlM (h : items.foldlM addItem {} = .ok a) :
    Acceptable items ∧ a.Holds items := by
  induction items using List.reverseRecOn generalizing a with
  | nil =>
    cases h
    exact ⟨⟨List.nodup_nil, by simp⟩, holds_start⟩
  | append_singleton items item ih =>
    obtain ⟨b, hb, ha⟩ := bind_eq_ok_iff.mp ((foldlM_concat items item).symm.trans h)
    obtain ⟨hitems, hholds⟩ := ih hb
    have hitem := (hholds.exists_addItem_iff hitems.valid).mp ⟨a, ha⟩
    exact ⟨acceptable_concat_iff.mpr ⟨hitems, hitem⟩, hholds.addItem hitem.1 ha⟩

/-- The items that are taken are the acceptable ones. -/
lemma exists_foldlM_iff : (∃ a, items.foldlM addItem {} = .ok a) ↔ Acceptable items := by
  constructor
  · rintro ⟨a, ha⟩
    exact (holds_of_foldlM ha).1
  intro h
  induction items using List.reverseRecOn with
  | nil => exact ⟨{}, rfl⟩
  | append_singleton items item ih =>
    obtain ⟨hitems, hitem⟩ := acceptable_concat_iff.mp h
    obtain ⟨a, ha⟩ := ih hitems
    obtain ⟨b, hb⟩ := ((holds_of_foldlM ha).2.exists_addItem_iff hitems.valid).mpr hitem
    exact ⟨b, (foldlM_concat items item).trans (bind_eq_ok_iff.mpr ⟨a, ha, hb⟩)⟩

end Arguments

/-! ### Options -/

/-- The limit that items set, or the default where they set none. -/
def Setting.Limits (s : Setting) (default : Nat) (items : List Item) (n : Nat) : Prop :=
  (∃ text, .setting s text ∈ items ∧ DenotesCount text.toList n) ∨
    (∀ text, .setting s text ∉ items) ∧ n = default

namespace Options

/-- The options are what items say. -/
structure Follows (o : Options) (items : List Item) : Prop where
  input : .input o.input ∈ items
  output : ∀ path, o.output = some path ↔ .setting .output path ∈ items
  /-- The program goes to the path that is given, or else to the input with another extension. -/
  output_path : .setting .output o.outputPath ∈ items ∨
    (∀ path, .setting .output path ∉ items) ∧
      Path.SetsExtension "bin".toList o.input.toList o.outputPath.toList
  max_words : Setting.maxWords.Limits 1024 items o.config.maxWords
  labels : Setting.labels.Limits 100 items o.config.labelCapacity
  prune : o.config.policy = .pruneAfterJump ↔ .flag .prune ∈ items
  no_macros : o.macros = false ↔ .flag .noMacros ∈ items
  symbols : o.symbols = true ↔ .flag .symbols ∈ items
  listing : o.listing = true ↔ .flag .listing ∈ items
  verbose : o.verbose = true ↔ .flag .verbose ∈ items

/-- The options are what an argument vector says. -/
def Heed (o : Options) (args : List String) : Prop :=
  ∃ items, Reads none args items none ∧ Acceptable items ∧ o.Follows items

end Options

/-- An argument vector asks for information, behind nothing but what can be accepted. -/
def Info.Asked (i : Info) (args : List String) : Prop :=
  ∃ items, Reads none args items (some i) ∧ Acceptable items

variable {args : List String} {items : List Item}

lemma Setting.limits_iff {s : Setting} {default n : Nat} {limit : Option Nat}
    (hvalid : ∀ text, .setting s text ∈ items → ∃ n, DenotesCount text.toList n)
    (h : ∀ n, limit = some n ↔ ∃ text, .setting s text ∈ items ∧ DenotesCount text.toList n) :
    s.Limits default items n ↔ limit.getD default = n := by
  have hnone := Arguments.eq_none_iff_of_valid hvalid h
  rw [Item.mem_map_setting_iff, not_exists] at hnone
  rw [Limits, ← h n, ← hnone]
  cases limit <;> simp [eq_comm]

namespace Options

variable {o : Options}

lemma output_path_of_output (h : ∀ path, o.output = some path ↔ .setting .output path ∈ items) :
    .setting .output o.outputPath ∈ items ∨ (∀ path, .setting .output path ∉ items) ∧
      Path.SetsExtension "bin".toList o.input.toList o.outputPath.toList := by
  cases houtput : o.output with
  | some path =>
    left
    rw [outputPath, houtput]
    exact (h path).mp houtput
  | none =>
    refine .inr ⟨fun path hpath => ?_, Path.withExtension_eq_iff.mp ?_⟩
    · cases houtput.symm.trans ((h path).mpr hpath)
    · rw [outputPath, houtput]
      rfl

/-- What is held when all arguments are taken makes the options that follow the items, and no
others. -/
lemma follows_iff {a : Arguments} {input : String} (hitems : Acceptable items)
    (h : a.Holds items) (hinput : a.input = some input) :
    o.Follows items ↔ o = {
      input
      output := a.output
      config := {
        maxWords := a.maxWords.getD 1024
        labelCapacity := a.labels.getD 100
        policy := if .prune ∈ a.flags then .pruneAfterJump else .keep }
      macros := .noMacros ∉ a.flags
      symbols := .symbols ∈ a.flags
      listing := .listing ∈ a.flags
      verbose := .verbose ∈ a.flags } := by
  have hwords : ∀ n, Setting.maxWords.Limits 1024 items n ↔ a.maxWords.getD 1024 = n := fun n =>
    Setting.limits_iff (fun text => hitems.valid (.setting .maxWords text)) h.maxWords
  have hlabels : ∀ n, Setting.labels.Limits 100 items n ↔ a.labels.getD 100 = n := fun n =>
    Setting.limits_iff (fun text => hitems.valid (.setting .labels text)) h.labels
  constructor
  · intro hfollows
    obtain ⟨path, output, ⟨maxWords, labelCapacity, policy⟩, macros, symbols, listing, verbose⟩ := o
    obtain ⟨hpath, houtput, -, hmax, hcapacity, hprune, hmacros, hsymbols, hlisting, hverbose⟩ :=
      hfollows
    obtain rfl : input = path := Option.some.inj (hinput.symm.trans ((h.input path).mpr hpath))
    obtain rfl : a.output = output :=
      Option.ext fun path => (h.output path).trans (houtput path).symm
    obtain rfl := (hwords _).mp hmax
    obtain rfl := (hlabels _).mp hcapacity
    -- what is left is decided by the flags alone
    simp only [← h.flags] at hprune hmacros hsymbols hlisting hverbose
    have hpolicy : policy = if .prune ∈ a.flags then .pruneAfterJump else .keep := by
      cases policy <;> simp_all
    have hmacros : macros = decide (Flag.noMacros ∉ a.flags) := by
      cases macros <;> simp_all
    have hsymbols : symbols = decide (Flag.symbols ∈ a.flags) := by
      cases symbols <;> simp_all
    have hlisting : listing = decide (Flag.listing ∈ a.flags) := by
      cases listing <;> simp_all
    have hverbose : verbose = decide (Flag.verbose ∈ a.flags) := by
      cases verbose <;> simp_all
    rw [hpolicy, hmacros, hsymbols, hlisting, hverbose]
  · rintro rfl
    exact {
      input := (h.input input).mp hinput
      output := h.output
      output_path := output_path_of_output h.output
      max_words := (hwords _).mpr rfl
      labels := (hlabels _).mpr rfl
      prune := by simp [h.flags]
      no_macros := by simp [h.flags]
      symbols := by simp [h.flags]
      listing := by simp [h.flags]
      verbose := by simp [h.flags] }

/-- Options come of the argument vectors that say them. -/
theorem parse_eq_ok_iff : parse args = .ok o ↔ o.Heed args := by
  constructor
  · intro h
    obtain ⟨a, ha, hoptions⟩ := bind_eq_ok_iff.mp h
    obtain ⟨items, hreads, htaken⟩ := Arguments.addAll_eq_ok_iff.mp ha
    obtain ⟨hitems, hholds⟩ := Arguments.holds_of_foldlM htaken
    refine ⟨items, hreads, hitems, ?_⟩
    split at hoptions
    · cases hoptions
    · next input hinput =>
      exact (follows_iff hitems hholds hinput).mpr (Except.ok.inj hoptions).symm
  · rintro ⟨items, hreads, hitems, hfollows⟩
    obtain ⟨a, ha⟩ := Arguments.exists_foldlM_iff.mpr hitems
    have hholds := (Arguments.holds_of_foldlM ha).2
    have htaken := Arguments.addAll_eq_ok_iff.mpr ⟨items, hreads, ha⟩
    refine bind_eq_ok_iff.mpr ⟨a, htaken, ?_⟩
    have hinput := (hholds.input o.input).mpr hfollows.input
    rw [hinput]
    exact congrArg Except.ok ((follows_iff hitems hholds hinput).mp hfollows).symm

/-- Information is given to the argument vectors that ask for it. -/
theorem parse_eq_info_iff {i : Info} : parse args = .error (.info i) ↔ i.Asked args := by
  have htaken : parse args = .error (.info i) ↔
      ({} : Arguments).addAll none args = .error (.info i) := by
    constructor
    · intro h
      rcases bind_eq_error_iff.mp h with h | ⟨a, -, h⟩
      · exact h
      · split at h <;> cases h
    · intro h
      exact bind_eq_error_iff.mpr (.inl h)
  rw [htaken, Arguments.addAll_eq_info_iff, Info.Asked]
  simp only [exists_and_left, Arguments.exists_foldlM_iff]

end Options

end Cli

end StackAssembler
