import Mathlib.Data.List.Chain
import StackAssembler.Json.Token
import StackAssembler.Proofs.Numerals

/-!
# JSON texts

The text of tokens is read back as the tokens that were written. A string is read back unit by unit,
whatever characters it has; a number is read back where what follows cannot be part of it. So tokens
come back if no number directly follows a number: `tokens?_render`.
-/

namespace StackAssembler.Json

/-! ### Strings -/

section Strings

variable {c d : Char} {rest : List Char}

/-- A character stands for itself, or for the letter behind a backslash. -/
lemma escape_cases (c : Char) :
    (escape c = [c] ∧ c ≠ '"' ∧ c ≠ '\\') ∨
      ∃ letter, escape c = ['\\', letter] ∧ unescape? letter = some c := by
  unfold escape
  split
  case h_8 hquote hslash _ _ _ _ _ => exact Or.inl ⟨rfl, hquote, hslash⟩
  all_goals exact Or.inr ⟨_, rfl, rfl⟩

lemma scanString_escaped (h : unescape? c = some d) :
    scanString ('\\' :: c :: rest) =
      (scanString rest).map fun (units, rest) => (.char d :: units, rest) := by
  rw [scanString.eq_def]
  split
  · next heq => cases heq
  · next heq => cases heq
  · next heq =>
    cases heq
    cases h
  · next heq =>
    cases heq
    rw [h]
    cases scanString rest <;> rfl
  · next hno heq =>
    cases heq
    exact absurd rfl (hno c rest rfl)

lemma scanString_plain (hquote : c ≠ '"') (hslash : c ≠ '\\') (hcontrol : ¬ c.toNat < 0x20) :
    scanString (c :: rest) =
      (scanString rest).map fun (units, rest) => (.char c :: units, rest) := by
  rw [scanString.eq_def]
  split
  · next heq => cases heq
  · next heq =>
    cases heq
    exact absurd rfl hquote
  · next heq =>
    cases heq
    exact absurd rfl hslash
  · next heq =>
    cases heq
    exact absurd rfl hslash
  · next heq =>
    cases heq
    simp only [hcontrol, hslash, decide_false, Bool.false_or, beq_iff_eq, if_false]
    cases scanString rest <;> rfl

lemma codeDigits_of_lt : ∀ n < 0x20,
    codeDigits n = ['0', '0', Nat.digitChar (n / 16), Nat.digitChar (n % 16)] := by
  decide

lemma codeValue?_of_lt : ∀ n < 0x20,
    codeValue? '0' '0' (Nat.digitChar (n / 16)) (Nat.digitChar (n % 16)) = some n := by
  decide

/-- A character is read back as the unit it is written as. -/
lemma scanString_ofChar (c : Char) (rest : List Char) :
    scanString ((StringUnit.ofChar c).render ++ rest) =
      (scanString rest).map fun (units, rest) => (StringUnit.ofChar c :: units, rest) := by
  unfold StringUnit.ofChar
  split_ifs with hcode
  · have hlt : c.toNat < 0x20 := by
      rw [Bool.and_eq_true, decide_eq_true_eq] at hcode
      exact hcode.1
    rw [StringUnit.render, codeDigits_of_lt _ hlt]
    simp only [List.cons_append, List.nil_append, scanString, codeValue?_of_lt _ hlt]
    cases scanString rest <;> rfl
  · rw [StringUnit.render]
    obtain ⟨hescape, hquote, hslash⟩ | ⟨letter, hescape, hletter⟩ := escape_cases c
    · -- a control character that stands for itself would have been written by its code
      have hcontrol : ¬ c.toNat < 0x20 := by simpa [hescape] using hcode
      rw [hescape]
      exact scanString_plain hquote hslash hcontrol
    · rw [hescape]
      exact scanString_escaped hletter

/-- A text is read back from between quotes. -/
lemma scanString_unitsOf (s : String) (rest : List Char) :
    scanString ((unitsOf s).flatMap StringUnit.render ++ '"' :: rest) = some (unitsOf s, rest) := by
  unfold unitsOf
  induction s.toList with
  | nil => rfl
  | cons c cs ih =>
    rw [List.map_cons, List.flatMap_cons, List.append_assoc, scanString_ofChar, ih]
    rfl

/-- A code below the surrogates stands for its character. -/
lemma decodeUnits_code {n : Nat} (h : n < 0xD800) (units : List StringUnit) :
    decodeUnits (.code n :: units) = (decodeUnits units).map (Char.ofNat n :: ·) := by
  have hhigh : isHighSurrogate n = false := by
    simp [isHighSurrogate, Nat.not_le.mpr h]
  have hlow : isLowSurrogate n = false := by
    have hlt : n < 0xDC00 := by omega
    simp [isLowSurrogate, Nat.not_le.mpr hlt]
  cases units with
  | nil => simp [decodeUnits, hhigh, hlow]
  | cons unit units =>
    cases unit with
    | char c => simp [decodeUnits, hhigh, hlow]
    | code low => simp [decodeUnits, hhigh, hlow]

/-- The units of a text stand for its characters. -/
lemma decodeUnits_unitsOf (s : String) : decodeUnits (unitsOf s) = some s.toList := by
  unfold unitsOf
  induction s.toList with
  | nil => rfl
  | cons c cs ih =>
    rw [List.map_cons, StringUnit.ofChar]
    split_ifs with hcode
    · have hlt : c.toNat < 0x20 := by
        rw [Bool.and_eq_true, decide_eq_true_eq] at hcode
        exact hcode.1
      rw [decodeUnits_code (by omega), ih, Char.ofNat_toNat]
      rfl
    · rw [decodeUnits, ih]
      rfl

end Strings

/-! ### Numbers -/

section Numbers

variable {rest : List Char}

/-- Only zero is written with a zero in front. -/
lemma eq_zero_of_head?_toDigits {n : Nat} (h : (Nat.toDigits 10 n).head? = some '0') : n = 0 := by
  induction n using Nat.strongRecOn with
  | ind n ih =>
    by_cases hn : n < 10
    · have hdigit : ∀ d < 10, Nat.digitChar d = '0' → d = 0 := by decide
      rw [Nat.toDigits_of_lt_base hn] at h
      exact hdigit n hn (by simpa using h)
    · rw [Nat.toDigits_of_base_le (by decide) (by omega),
        List.head?_append_of_ne_nil _ Nat.toDigits_ne_nil] at h
      have hzero := ih (n / 10) (by omega) h
      omega

/-- A numeral begins with a digit. -/
lemma exists_toDigits_eq_cons (n : Nat) :
    ∃ c cs, Nat.toDigits 10 n = c :: cs ∧ c.isDigit = true := by
  cases h : Nat.toDigits 10 n with
  | nil => exact absurd h Nat.toDigits_ne_nil
  | cons c cs =>
    have hc : c ∈ Nat.toDigits 10 n := by simp [h]
    exact ⟨c, cs, rfl, Nat.isDigit_of_mem_toDigits (by decide) (by decide) hc⟩

/-- What may follow a number: nothing that could be part of it. -/
def EndsNumber (rest : List Char) : Prop :=
  ∀ c ∈ rest.head?, c.isDigit = false ∧ c ≠ '.' ∧ c ≠ 'e' ∧ c ≠ 'E'

lemma scanDigits_toDigits (n : Nat) (h : EndsNumber rest) :
    scanDigits (Nat.toDigits 10 n ++ rest) = some (Nat.toDigits 10 n, rest) := by
  have hdigits : ∀ c ∈ Nat.toDigits 10 n, c.isDigit = true :=
    fun c hc => Nat.isDigit_of_mem_toDigits (by decide) (by decide) hc
  have hend : rest.takeWhile Char.isDigit = [] ∧ rest.dropWhile Char.isDigit = rest := by
    cases rest with
    | nil => exact ⟨rfl, rfl⟩
    | cons c cs => simp [(h c rfl).1]
  rw [scanDigits, List.takeWhile_append_of_pos hdigits, List.dropWhile_append_of_pos hdigits,
    hend.1, hend.2, List.append_nil]
  simp [Nat.toDigits_ne_nil]

lemma scanWhole_toDigits (n : Nat) (h : EndsNumber rest) :
    scanWhole (Nat.toDigits 10 n ++ rest) = some (Nat.toDigits 10 n, rest) := by
  have hscan := scanDigits_toDigits n h
  obtain ⟨c, cs, hcs, -⟩ := exists_toDigits_eq_cons n
  by_cases hc : c = '0'
  · subst hc
    obtain rfl := eq_zero_of_head?_toDigits (n := n) (by rw [hcs]; rfl)
    rfl
  · rw [hcs, List.cons_append] at hscan ⊢
    simpa [scanWhole, hc] using hscan

lemma scanFraction_of_endsNumber (h : EndsNumber rest) : scanFraction rest = some ([], rest) := by
  unfold scanFraction
  split
  · exact absurd rfl (h '.' rfl).2.1
  · rfl

lemma scanExponent_of_endsNumber (h : EndsNumber rest) : scanExponent rest = some ([], rest) := by
  cases rest with
  | nil => rfl
  | cons c cs =>
    obtain ⟨-, -, he, hE⟩ := h c rfl
    simp [scanExponent, he, hE]

lemma scanNumber_toDigits (n : Nat) (h : EndsNumber rest) :
    scanNumber (Nat.toDigits 10 n ++ rest) = some (Nat.toDigits 10 n, rest) := by
  obtain ⟨c, cs, hcs, hdigit⟩ := exists_toDigits_eq_cons n
  have hsign : c ≠ '-' := by
    rintro rfl
    cases hdigit
  have hwhole := scanWhole_toDigits n h
  rw [hcs, List.cons_append] at hwhole ⊢
  simp [scanNumber, hsign, hwhole, scanFraction_of_endsNumber h, scanExponent_of_endsNumber h]

end Numbers

/-! ### Tokens -/

namespace Token

/-- A token as it is written: a number is a decimal numeral, and a string is a text. -/
def IsWritten : Token → Prop
  | .number text => ∃ n, text = Nat.toDigits 10 n
  | .string units => ∃ s, units = unitsOf s
  | _ => True

def isNumber : Token → Bool
  | .number _ => true
  | _ => false

variable {t : Token} {rest : List Char}

/-- A written token does not begin with white space, and one that is no number does not begin with
anything that could be part of a number. -/
lemma IsWritten.exists_render_eq_cons (h : t.IsWritten) :
    ∃ c cs, t.render = c :: cs ∧ isSpace c = false ∧
      (t.isNumber = false → c.isDigit = false ∧ c ≠ '.' ∧ c ≠ 'e' ∧ c ≠ 'E') := by
  cases t with
  | number text =>
    obtain ⟨n, rfl⟩ := h
    obtain ⟨c, cs, hcs, hdigit⟩ := exists_toDigits_eq_cons n
    refine ⟨c, cs, hcs, ?_, fun hno => nomatch hno⟩
    rw [Bool.eq_false_iff]
    intro hspace
    simp only [isSpace, Bool.or_eq_true, beq_iff_eq] at hspace
    rcases hspace with ((rfl | rfl) | rfl) | rfl <;> cases hdigit
  | bool b => cases b <;> exact ⟨_, _, rfl, by decide, fun _ => by decide⟩
  | _ => exact ⟨_, _, rfl, by decide, fun _ => by decide⟩

lemma next?_toDigits (n : Nat) (h : EndsNumber rest) :
    next? (Nat.toDigits 10 n ++ rest) = some (.number (Nat.toDigits 10 n), rest) := by
  have hscan := scanNumber_toDigits n h
  obtain ⟨c, cs, hcs, hdigit⟩ := exists_toDigits_eq_cons n
  rw [hcs] at hscan ⊢
  rw [next?.eq_def]
  split
  case h_11 =>
    rw [hscan]
    rfl
  -- Every other text begins with a character that is no digit.
  all_goals
    next heq =>
    rw [(List.cons.inj heq).1] at hdigit
    cases hdigit

/-- A written token is read back. -/
lemma IsWritten.next?_render (h : t.IsWritten) (hrest : t.isNumber = true → EndsNumber rest) :
    next? (t.render ++ rest) = some (t, rest) := by
  cases t with
  | number text =>
    obtain ⟨n, rfl⟩ := h
    exact next?_toDigits n (hrest rfl)
  | string units =>
    obtain ⟨s, rfl⟩ := h
    simp [render, next?, scanString_unitsOf]
  | bool b => cases b <;> rfl
  | _ => rfl

lemma IsWritten.tokens?_render_append (h : t.IsWritten)
    (hrest : t.isNumber = true → EndsNumber rest) :
    tokens? (t.render ++ rest) = (tokens? rest).map (t :: ·) := by
  have hnext := h.next?_render hrest
  obtain ⟨c, cs, hcs, hspace, -⟩ := h.exists_render_eq_cons
  rw [hcs, List.cons_append] at hnext ⊢
  rw [tokens?, if_neg (by simp [hspace])]
  split
  · next heq =>
    rw [hnext] at heq
    cases heq
  · next heq =>
    rw [hnext] at heq
    cases heq
    rfl

end Token

/-- Tokens that can be written one after the other: no number directly follows a number. -/
structure Printable (ts : List Token) : Prop where
  written : ∀ t ∈ ts, t.IsWritten
  apart : ts.IsChain fun t u => t.isNumber = false ∨ u.isNumber = false

lemma printable_nil : Printable [] := ⟨by simp, .nil⟩

/-- A token that is no number parts what stands on both sides of it. -/
lemma Printable.append_cons {t : Token} {ts us : List Token} (hts : Printable ts)
    (ht : t.IsWritten) (hno : t.isNumber = false) (hus : Printable us) :
    Printable (ts ++ t :: us) where
  written := by
    intro u hu
    rcases List.mem_append.mp hu with hu | hu
    · exact hts.written u hu
    · rcases List.mem_cons.mp hu with rfl | hu
      · exact ht
      · exact hus.written u hu
  apart := by
    rw [List.isChain_append, List.isChain_cons]
    refine ⟨hts.apart, ⟨fun u _ => Or.inl hno, hus.apart⟩, fun u _ v hv => Or.inr ?_⟩
    obtain rfl : t = v := by simpa using hv
    exact hno

/-- What follows a token is the text of the next, so it does not run on into a number. -/
theorem tokens?_render {ts : List Token} (h : Printable ts) :
    tokens? (render ts).toList = some ts := by
  rw [render, String.toList_ofList]
  induction ts with
  | nil => rw [List.flatMap_nil, tokens?]
  | cons t ts ih =>
    have hts : Printable ts := ⟨fun u hu => h.written u (by simp [hu]), h.apart.tail⟩
    have hend : t.isNumber = true → EndsNumber (ts.flatMap Token.render) := by
      intro hnumber c hc
      cases ts with
      | nil => cases hc
      | cons u us =>
        obtain ⟨c', cs, hcs, -, hplain⟩ := (hts.written u (by simp)).exists_render_eq_cons
        obtain rfl : c' = c := by simpa [hcs] using hc
        apply hplain
        exact ((List.isChain_cons_cons.mp h.apart).1).resolve_left (by simp [hnumber])
    rw [List.flatMap_cons, (h.written t (by simp)).tokens?_render_append hend, ih hts]
    rfl

end StackAssembler.Json
