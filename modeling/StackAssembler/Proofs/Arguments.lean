import Mathlib.Data.List.Basic
import StackAssembler.Cli.Options
import StackAssembler.Proofs.Scan

/-!
# Argument vectors

What an argument vector says. The ways to write it are the rules of `Reads`: options by their long
names or their letters, values behind an equals sign, directly behind the letter or in the next
argument, and inputs behind `--`. A vector says a list of items, in order. What cannot be read is
refused, and what can be read is taken item by item: `Arguments.addAll_eq_ok_iff` says so of the
vectors that are taken to their end, `Arguments.addAll_eq_info_iff` of those that ask for
information.
-/

namespace StackAssembler.Cli

/-! ### Ways of writing -/

/-- What arguments can say. -/
inductive Item where
  | flag (f : Flag)
  | setting (s : Setting) (value : String)
  | input (path : String)

/-- What an argument leaves to the next: perhaps a setting that waits for its value, or nothing at
all where information is asked for. -/
inductive Tail where
  | next (waiting : Option Setting)
  | asks (i : Info)

def Flag.letter? : Flag → Option Char
  | .listing => some 'l'
  | .verbose => some 'v'
  | .prune | .noMacros | .symbols => none

def Info.name : Info → String
  | .help => "--help"
  | .version => "--version"

def Info.letter : Info → Char
  | .help => 'h'
  | .version => 'V'

/-- Letters that are joined behind one dash. The letter of the output path takes what is behind it
as its value, less an equals sign. -/
inductive Letters : List Char → List Item → Tail → Prop where
  | nil : Letters [] [] (.next none)
  | flag {f : Flag} {c : Char} {cs : List Char} {items : List Item} {tail : Tail}
      (hc : f.letter? = some c) (h : Letters cs items tail) :
      Letters (c :: cs) (.flag f :: items) tail
  | asks (i : Info) (cs : List Char) : Letters (i.letter :: cs) [] (.asks i)
  | waits : Letters ['o'] [] (.next (some .output))
  | assigned (value : List Char) :
      Letters ('o' :: '=' :: value) [.setting .output (String.ofList value)] (.next none)
  | joined {value : List Char} (hne : value ≠ []) (hvalue : value.head? ≠ some '=') :
      Letters ('o' :: value) [.setting .output (String.ofList value)] (.next none)

/-- An argument that does not look like an option: it does not begin with a dash that has something
behind it. -/
def IsPlain (arg : String) : Prop := ∀ c cs, arg.toList ≠ '-' :: c :: cs

/-- One argument. -/
inductive Says : String → List Item → Tail → Prop where
  | input {path : String} (h : IsPlain path) : Says path [.input path] (.next none)
  | flag (f : Flag) : Says f.name [.flag f] (.next none)
  | waits (s : Setting) : Says s.name [] (.next (some s))
  | assigned (s : Setting) (value : String) :
      Says (s.name ++ "=" ++ value) [.setting s value] (.next none)
  | asks (i : Info) : Says i.name [] (.asks i)
  | letters {cs : List Char} {items : List Item} {tail : Tail} (hne : cs ≠ [])
      (h : Letters cs items tail) : Says (String.ofList ('-' :: cs)) items tail

/-- Arguments, where a setting may be waiting for its value, up to their end or up to the first
request for information. -/
inductive Reads : Option Setting → List String → List Item → Option Info → Prop where
  | nil : Reads none [] [] none
  | inputs (paths : List String) : Reads none ("--" :: paths) (paths.map .input) none
  | argument {arg : String} {args : List String} {items more : List Item}
      {waiting : Option Setting} {asked : Option Info} (harg : Says arg items (.next waiting))
      (h : Reads waiting args more asked) : Reads none (arg :: args) (items ++ more) asked
  | value {s : Setting} {value : String} {args : List String} {more : List Item}
      {asked : Option Info} (hvalue : IsPlain value) (h : Reads none args more asked) :
      Reads (some s) (value :: args) (.setting s value :: more) asked
  | asks {arg : String} {items : List Item} {i : Info} (harg : Says arg items (.asks i))
      (args : List String) : Reads none (arg :: args) items (some i)

lemma Letters.ne_dash {c : Char} {cs : List Char} {items : List Item} {tail : Tail}
    (h : Letters (c :: cs) items tail) : c ≠ '-' := by
  rintro rfl
  generalize hcs : '-' :: cs = letters at h
  cases h with
  | nil => cases hcs
  | @flag f c _ _ _ hc _ =>
    cases hcs
    cases f <;> cases hc
  | asks i => cases i <;> cases hcs
  | waits | assigned | joined => cases hcs

/-- Nothing but the mark before inputs is two dashes. -/
lemma Says.ne_dashes {arg : String} {items : List Item} {tail : Tail} (h : Says arg items tail) :
    arg ≠ "--" := by
  intro harg
  cases h with
  | input h => exact h '-' [] (by rw [harg]; rfl)
  | flag f => cases f <;> exact absurd harg (by decide)
  | waits s => cases s <;> exact absurd harg (by decide)
  | assigned s value =>
    have hmem : '=' ∈ (s.name ++ "=" ++ value).toList := by simp
    rw [harg] at hmem
    exact absurd hmem (by decide)
  | asks i => cases i <;> exact absurd harg (by decide)
  | @letters cs _ _ hne h =>
    have hcs : '-' :: cs = ['-', '-'] := by
      rw [← String.toList_ofList (l := '-' :: cs), harg]
      rfl
    cases hcs
    exact h.ne_dash rfl

/-! ### Names and letters -/

/-- The long name of an option. -/
def Switch.name : Switch → String
  | .flag f => f.name
  | .setting s => s.name
  | .info i => i.name

namespace Switch

lemma exists_toList_name (x : Switch) : ∃ cs, x.name.toList = '-' :: '-' :: cs := by
  rcases x with f | s | i
  · cases f <;> exact ⟨_, rfl⟩
  · cases s <;> exact ⟨_, rfl⟩
  · cases i <;> exact ⟨_, rfl⟩

lemma bne_of_mem_name (x : Switch) : ∀ c ∈ x.name.toList, (c != '=') = true := by
  rw [← List.all_eq_true]
  rcases x with f | s | i
  · cases f <;> rfl
  · cases s <;> rfl
  · cases i <;> rfl

/-- Every option has one long name, and no other option has it. -/
lemma ofLong?_eq_some_iff {name : String} {x : Switch} : ofLong? name = some x ↔ name = x.name := by
  constructor
  · intro h
    unfold ofLong? at h
    split at h <;> cases h <;> rfl
  · rintro rfl
    rcases x with f | s | i
    · cases f <;> rfl
    · cases s <;> rfl
    · cases i <;> rfl

lemma ofShort?_eq_flag_iff {c : Char} {f : Flag} :
    ofShort? c = some (.flag f) ↔ f.letter? = some c := by
  constructor
  · intro h
    unfold ofShort? at h
    split at h <;> cases h <;> rfl
  · intro h
    cases f <;> cases h <;> rfl

lemma ofShort?_eq_info_iff {c : Char} {i : Info} : ofShort? c = some (.info i) ↔ c = i.letter := by
  constructor
  · intro h
    unfold ofShort? at h
    split at h <;> cases h <;> rfl
  · rintro rfl
    cases i <;> rfl

/-- The output path is the only setting with a letter. -/
lemma ofShort?_eq_setting_iff {c : Char} {s : Setting} :
    ofShort? c = some (.setting s) ↔ c = 'o' ∧ s = .output := by
  constructor
  · intro h
    unfold ofShort? at h
    split at h <;> cases h
    exact ⟨rfl, rfl⟩
  · rintro ⟨rfl, rfl⟩
    rfl

end Switch

/-! ### Readings -/

/-- A mistake was found. -/
def Refused {α : Type} (r : Except Halt α) : Prop := ∃ e, r = .error (.usage e)

/-- A mistake behind what asks for no information is found, unless another was found before. -/
lemma refused_bind {α β : Type} {x : Except Halt α} {f : α → Except Halt β}
    (hx : Refused x ∨ ∃ a, x = .ok a) (hf : ∀ a, Refused (f a)) : Refused (x >>= f) := by
  rcases hx with ⟨e, rfl⟩ | ⟨a, rfl⟩
  · exact ⟨e, rfl⟩
  · exact hf a

/-- What comes of an argument when its items have been taken. -/
def Tail.answer : Tail → Arguments → Except Halt (Arguments × Option Setting)
  | .next waiting, a => .ok (a, waiting)
  | .asks i, _ => .error (.info i)

/-- What comes of arguments when their items have been taken. -/
def ending : Option Info → Arguments → Except Halt Arguments
  | none, a => .ok a
  | some i, _ => .error (.info i)

namespace Arguments

variable {a : Arguments} {items : List Item} {tail : Tail} {cs : List Char} {arg : String}

/-- Take what an item says. -/
def addItem (a : Arguments) : Item → Except Halt Arguments
  | .flag f => a.addFlag f
  | .setting s value => a.addSetting s value
  | .input path => a.addInput path

/-- No item asks for information. -/
lemma refused_or_addItem (a : Arguments) (item : Item) :
    Refused (a.addItem item) ∨ ∃ b, a.addItem item = .ok b := by
  cases h : a.addItem item with
  | ok b => exact .inr ⟨b, rfl⟩
  | error halt =>
    left
    cases item with
    | flag f =>
      simp only [addItem, addFlag] at h
      split_ifs at h
      cases h
      exact ⟨_, rfl⟩
    | input path =>
      simp only [addItem, addInput] at h
      split_ifs at h
      all_goals
        cases h
        exact ⟨_, rfl⟩
    | setting s value =>
      cases s with
      | output =>
        simp only [addItem, addSetting] at h
        split_ifs at h
        all_goals
          cases h
          exact ⟨_, rfl⟩
      | maxWords | labels =>
        rcases bind_eq_error_iff.mp h with h | ⟨n, -, h⟩
        · unfold readNumber at h
          split at h
          · cases h
            exact ⟨_, rfl⟩
          · cases h
            exact ⟨_, rfl⟩
          · cases h
        · cases h

lemma refused_or_foldlM (a : Arguments) (items : List Item) :
    Refused (items.foldlM addItem a) ∨ ∃ b, items.foldlM addItem a = .ok b := by
  induction items generalizing a with
  | nil => exact .inr ⟨a, rfl⟩
  | cons item items ih =>
    rw [List.foldlM_cons]
    rcases refused_or_addItem a item with ⟨e, he⟩ | ⟨b, hb⟩
    · rw [he]
      exact .inl ⟨e, rfl⟩
    · rw [hb]
      exact ih b

lemma foldlM_singleton (a : Arguments) (item : Item) :
    [item].foldlM addItem a = a.addItem item := by
  simp

lemma map_eq_bind_answer (x : Except Halt Arguments) :
    x.map (·, none) = x >>= (Tail.next none).answer := by
  cases x <;> rfl

lemma addLetters_cons {f : Flag} {c : Char} (hc : f.letter? = some c) (a : Arguments) :
    a.addLetters (c :: cs) = a.addItem (.flag f) >>= fun b => b.addLetters cs := by
  simp only [addLetters, Switch.ofShort?_eq_flag_iff.mpr hc, addItem]
  cases a.addFlag f <;> rfl

/-- Letters that can be read are taken item by item. -/
lemma addLetters_eq (h : Letters cs items tail) (a : Arguments) :
    a.addLetters cs = items.foldlM addItem a >>= tail.answer := by
  induction h generalizing a with
  | nil => rfl
  | @flag f c cs items tail hc h ih =>
    rw [addLetters_cons hc, List.foldlM_cons, bind_assoc]
    exact bind_congr ih
  | asks i cs =>
    rw [addLetters, Switch.ofShort?_eq_info_iff.mpr rfl]
    rfl
  | waits => rfl
  | assigned value =>
    rw [foldlM_singleton]
    exact map_eq_bind_answer _
  | @joined value hne hvalue =>
    -- the first character of the value is no equals sign, so it is not dropped
    obtain ⟨c, cs, rfl⟩ := List.exists_cons_of_ne_nil hne
    have hc : c ≠ '=' := fun hc => hvalue (by rw [hc]; rfl)
    rw [foldlM_singleton, ← map_eq_bind_answer]
    simp [addLetters, Switch.ofShort?, addItem, hc]

/-- Letters that cannot be read are refused. -/
lemma letters_or_refused (cs : List Char) :
    (∃ items tail, Letters cs items tail) ∨ ∀ a : Arguments, Refused (a.addLetters cs) := by
  induction cs with
  | nil => exact .inl ⟨_, _, .nil⟩
  | cons c cs ih =>
    cases hc : Switch.ofShort? c with
    | none =>
      refine .inr fun a => ⟨.unknownOption (String.ofList ['-', c]), ?_⟩
      rw [addLetters, hc]
    | some x =>
      rcases x with f | s | i
      · rw [Switch.ofShort?_eq_flag_iff] at hc
        rcases ih with ⟨items, tail, h⟩ | hrefused
        · exact .inl ⟨_, _, .flag hc h⟩
        · refine .inr fun a => ?_
          rw [addLetters_cons hc]
          exact refused_bind (refused_or_addItem a (.flag f)) hrefused
      · obtain ⟨rfl, rfl⟩ := Switch.ofShort?_eq_setting_iff.mp hc
        left
        by_cases hne : cs = []
        · rw [hne]
          exact ⟨_, _, .waits⟩
        by_cases hvalue : cs.head? = some '='
        · obtain ⟨value, rfl⟩ := List.head?_eq_some_iff.mp hvalue
          exact ⟨_, _, .assigned value⟩
        · exact ⟨_, _, .joined hne hvalue⟩
      · rw [Switch.ofShort?_eq_info_iff.mp hc]
        exact .inl ⟨_, _, .asks i cs⟩

/-- Take a long option with what is behind its name. -/
def addNamed (a : Arguments) : Switch → List Char → Except Halt (Arguments × Option Setting)
  | .setting s, [] => .ok (a, some s)
  | .setting s, _ :: value => (a.addSetting s (String.ofList value)).map (·, none)
  | .flag f, [] => (a.addFlag f).map (·, none)
  | .info i, [] => .error (.info i)
  | x, _ :: _ => .error (.usage (.unexpectedValue x.name))

/-- A long option is cut before its equals sign. -/
lemma addArgument_long (x : Switch) {rest : List Char} (harg : arg.toList = x.name.toList ++ rest)
    (hrest : ∀ c ∈ rest.head?, c = '=') (a : Arguments) :
    a.addArgument arg = a.addNamed x rest := by
  have hlong : a.addArgument arg = a.addLong arg.toList := by
    obtain ⟨cs, hcs⟩ := x.exists_toList_name
    rw [hcs] at harg
    simp [addArgument, harg]
  have hcut : arg.toList.takeWhile (· != '=') = x.name.toList ∧
      arg.toList.dropWhile (· != '=') = rest := by
    rw [harg, List.takeWhile_append_of_pos x.bne_of_mem_name,
      List.dropWhile_append_of_pos x.bne_of_mem_name]
    cases rest with
    | nil => simp
    | cons c cs =>
      obtain rfl : c = '=' := hrest c rfl
      simp
  have hname : Switch.ofLong? (String.ofList x.name.toList) = some x :=
    Switch.ofLong?_eq_some_iff.mpr (String.ofList_toList)
  rw [hlong]
  simp only [addLong, hcut, hname]
  rcases x with f | s | i <;> cases rest <;> simp [addNamed, Switch.name]

/-- An argument that can be read is taken item by item. -/
lemma addArgument_eq (h : Says arg items tail) (a : Arguments) :
    a.addArgument arg = items.foldlM addItem a >>= tail.answer := by
  cases h with
  | input h =>
    rw [foldlM_singleton, ← map_eq_bind_answer]
    unfold addArgument
    split
    · next cs harg => exact absurd harg (h '-' cs)
    · next c cs _ harg => exact absurd harg (h c cs)
    · rfl
  | flag f =>
    have hname : f.name.toList = (Switch.flag f).name.toList ++ [] := (List.append_nil _).symm
    rw [foldlM_singleton, ← map_eq_bind_answer, addArgument_long _ hname (by simp)]
    rfl
  | waits s =>
    have hname : s.name.toList = (Switch.setting s).name.toList ++ [] := (List.append_nil _).symm
    rw [addArgument_long _ hname (by simp)]
    rfl
  | assigned s value =>
    have hname : (s.name ++ "=" ++ value).toList =
        (Switch.setting s).name.toList ++ '=' :: value.toList := by
      simp [Switch.name]
    rw [foldlM_singleton, ← map_eq_bind_answer, addArgument_long _ hname (by simp)]
    simp [addNamed, addItem]
  | asks i =>
    have hname : i.name.toList = (Switch.info i).name.toList ++ [] := (List.append_nil _).symm
    rw [addArgument_long _ hname (by simp)]
    rfl
  | @letters cs items tail hne h =>
    obtain ⟨c, cs, rfl⟩ := List.exists_cons_of_ne_nil hne
    rw [← addLetters_eq h]
    simp [addArgument, h.ne_dash]

/-- The arguments that begin with two dashes are the long options and those that are refused. -/
lemma exists_name_or_refused (harg : arg.toList = '-' :: '-' :: cs) :
    (∃ (x : Switch) (rest : List Char), arg.toList = x.name.toList ++ rest ∧
      ∀ c ∈ rest.head?, c = '=') ∨ ∀ a : Arguments, Refused (a.addArgument arg) := by
  have hcut := List.takeWhile_append_dropWhile (p := (· != '=')) (l := arg.toList)
  cases hname : Switch.ofLong? (String.ofList (arg.toList.takeWhile (· != '='))) with
  | none =>
    refine .inr fun a => ⟨.unknownOption (String.ofList (arg.toList.takeWhile (· != '='))), ?_⟩
    have hlong : a.addArgument arg = a.addLong arg.toList := by simp [addArgument, harg]
    rw [hlong]
    simp only [addLong, hname]
  | some x =>
    refine .inl ⟨x, arg.toList.dropWhile (· != '='), ?_, ?_⟩
    · rw [← Switch.ofLong?_eq_some_iff.mp hname, String.toList_ofList, hcut]
    · intro c hc
      have hstop := List.head?_dropWhile_not (· != '=') arg.toList
      rw [Option.mem_def.mp hc] at hstop
      simpa using hstop

/-- A long option that cannot be read has a value that it does not take. -/
lemma says_or_refused_of_name {rest : List Char} (x : Switch)
    (harg : arg.toList = x.name.toList ++ rest) (hrest : ∀ c ∈ rest.head?, c = '=') :
    (∃ items tail, Says arg items tail) ∨ ∀ a : Arguments, Refused (a.addArgument arg) := by
  cases rest with
  | nil =>
    obtain rfl : arg = x.name := by simpa [String.toList_inj] using harg
    left
    rcases x with f | s | i
    · exact ⟨_, _, .flag f⟩
    · exact ⟨_, _, .waits s⟩
    · exact ⟨_, _, .asks i⟩
  | cons c value =>
    obtain rfl : c = '=' := hrest c rfl
    rcases x with f | s | i
    · exact .inr fun a => ⟨_, addArgument_long _ harg hrest a⟩
    · obtain rfl : arg = s.name ++ "=" ++ String.ofList value := by
        rw [← String.toList_inj, harg]
        simp [Switch.name]
      exact .inl ⟨_, _, .assigned s (String.ofList value)⟩
    · exact .inr fun a => ⟨_, addArgument_long _ harg hrest a⟩

/-- An argument that cannot be read is refused. -/
lemma says_or_refused (arg : String) :
    (∃ items tail, Says arg items tail) ∨ ∀ a : Arguments, Refused (a.addArgument arg) := by
  by_cases hplain : IsPlain arg
  · exact .inl ⟨_, _, .input hplain⟩
  obtain ⟨c, cs, htext⟩ : ∃ c cs, arg.toList = '-' :: c :: cs := by
    simpa [IsPlain] using hplain
  -- two dashes begin a long option, one dash begins letters
  by_cases hc : c = '-'
  · subst hc
    rcases exists_name_or_refused htext with ⟨x, rest, hname, hrest⟩ | hrefused
    · exact says_or_refused_of_name x hname hrest
    · exact .inr hrefused
  · rcases letters_or_refused (c :: cs) with ⟨items, tail, h⟩ | hrefused
    · have hletters : Says (String.ofList ('-' :: c :: cs)) items tail :=
        .letters (List.cons_ne_nil c cs) h
      rw [← htext, String.ofList_toList] at hletters
      exact .inl ⟨items, tail, hletters⟩
    · refine .inr fun a => ?_
      simpa [addArgument, htext, hc] using hrefused a

lemma looksLikeOption_eq_false_iff : looksLikeOption arg = false ↔ IsPlain arg := by
  have hlooks : looksLikeOption arg = true ↔ ∃ c cs, arg.toList = '-' :: c :: cs := by
    rw [looksLikeOption, Bool.and_eq_true, String.startsWith_string_iff, bne_iff_ne, Ne,
      ← String.toList_inj]
    show ['-'] <+: arg.toList ∧ arg.toList ≠ ['-'] ↔ _
    constructor
    · rintro ⟨⟨cs, hcs⟩, hne⟩
      cases cs with
      | nil => exact absurd hcs.symm hne
      | cons c cs => exact ⟨c, cs, hcs.symm⟩
    · rintro ⟨c, cs, hcs⟩
      rw [hcs]
      exact ⟨⟨c :: cs, rfl⟩, by simp⟩
  rw [← Bool.not_eq_true, hlooks]
  simp [IsPlain]

variable {waiting : Option Setting} {args : List String} {asked : Option Info}

lemma addAll_cons (harg : arg ≠ "--") (a : Arguments) : a.addAll none (arg :: args) =
    a.addArgument arg >>= fun (b, waiting) => b.addAll waiting args := by
  rw [addAll, if_neg harg]
  cases a.addArgument arg <;> rfl

lemma addAll_value {s : Setting} (harg : IsPlain arg) (a : Arguments) :
    a.addAll (some s) (arg :: args) =
      a.addItem (.setting s arg) >>= fun b => b.addAll none args := by
  rw [addAll, looksLikeOption_eq_false_iff.mpr harg, addItem]
  cases a.addSetting s arg <;> rfl

/-- Arguments that can be read are taken item by item. -/
lemma addAll_eq (h : Reads waiting args items asked) (a : Arguments) :
    a.addAll waiting args = items.foldlM addItem a >>= ending asked := by
  induction h generalizing a with
  | nil => rfl
  | inputs paths =>
    rw [addAll, if_pos rfl, List.foldlM_map]
    exact (bind_pure _).symm
  | @argument arg args items more waiting asked harg h ih =>
    rw [addAll_cons harg.ne_dashes, addArgument_eq harg, List.foldlM_append, bind_assoc,
      bind_assoc]
    exact bind_congr ih
  | @value s value args more asked hvalue h ih =>
    rw [addAll_value hvalue, List.foldlM_cons, bind_assoc]
    exact bind_congr ih
  | @asks arg items i harg args =>
    rw [addAll_cons harg.ne_dashes, addArgument_eq harg, bind_assoc]
    rfl

/-- Arguments that cannot be read are refused. -/
lemma reads_or_refused (waiting : Option Setting) (args : List String) :
    (∃ items asked, Reads waiting args items asked) ∨
      ∀ a : Arguments, Refused (a.addAll waiting args) := by
  induction args generalizing waiting with
  | nil =>
    cases waiting with
    | none => exact .inl ⟨_, _, .nil⟩
    | some s => exact .inr fun a => ⟨.missingValue s.name, rfl⟩
  | cons arg args ih =>
    cases waiting with
    | none =>
      by_cases hdashes : arg = "--"
      · rw [hdashes]
        exact .inl ⟨_, _, .inputs args⟩
      rcases says_or_refused arg with ⟨items, tail, harg⟩ | hrefused
      · cases tail with
        | asks i => exact .inl ⟨_, _, .asks harg args⟩
        | next waiting =>
          rcases ih waiting with ⟨more, asked, h⟩ | hrefused
          · exact .inl ⟨_, _, .argument harg h⟩
          · refine .inr fun a => ?_
            rw [addAll_cons hdashes, addArgument_eq harg, bind_assoc]
            exact refused_bind (refused_or_foldlM a items) hrefused
      · refine .inr fun a => ?_
        obtain ⟨e, he⟩ := hrefused a
        rw [addAll_cons hdashes, he]
        exact ⟨e, rfl⟩
    | some s =>
      by_cases hplain : IsPlain arg
      · rcases ih none with ⟨more, asked, h⟩ | hrefused
        · exact .inl ⟨_, _, .value hplain h⟩
        · refine .inr fun a => ?_
          rw [addAll_value hplain]
          exact refused_bind (refused_or_addItem a (.setting s arg)) hrefused
      · refine .inr fun a => ⟨.missingValue s.name, ?_⟩
        rw [← looksLikeOption_eq_false_iff, Bool.not_eq_false] at hplain
        rw [addAll, hplain]
        rfl

/-- Arguments in which no mistake is found can be read, and their items are taken. -/
lemma exists_reads_of_not_refused (h : ¬ Refused (a.addAll waiting args)) :
    ∃ items asked b, Reads waiting args items asked ∧ items.foldlM addItem a = .ok b := by
  rcases reads_or_refused waiting args with ⟨items, asked, hreads⟩ | hrefused
  · refine ⟨items, asked, ?_⟩
    rcases refused_or_foldlM a items with ⟨e, he⟩ | ⟨b, hb⟩
    · refine absurd ⟨e, ?_⟩ h
      rw [addAll_eq hreads, he]
      rfl
    · exact ⟨b, hreads, hb⟩
  · exact absurd (hrefused a) h

theorem addAll_eq_ok_iff {b : Arguments} : a.addAll waiting args = .ok b ↔
    ∃ items, Reads waiting args items none ∧ items.foldlM addItem a = .ok b := by
  constructor
  · intro h
    have hok : ¬ Refused (a.addAll waiting args) := by simp [Refused, h]
    obtain ⟨items, asked, c, hreads, hc⟩ := exists_reads_of_not_refused hok
    rw [addAll_eq hreads, hc] at h
    cases asked with
    | none => exact ⟨items, hreads, hc.trans h⟩
    | some i => cases h
  · rintro ⟨items, hreads, hb⟩
    rw [addAll_eq hreads, hb]
    rfl

theorem addAll_eq_info_iff {i : Info} : a.addAll waiting args = .error (.info i) ↔
    ∃ items b, Reads waiting args items (some i) ∧ items.foldlM addItem a = .ok b := by
  constructor
  · intro h
    have hok : ¬ Refused (a.addAll waiting args) := by simp [Refused, h]
    obtain ⟨items, asked, b, hreads, hb⟩ := exists_reads_of_not_refused hok
    rw [addAll_eq hreads, hb] at h
    cases asked with
    | none => cases h
    | some i =>
      cases h
      exact ⟨items, b, hreads, hb⟩
  · rintro ⟨items, b, hreads, hb⟩
    rw [addAll_eq hreads, hb]
    rfl

end Arguments

end StackAssembler.Cli
