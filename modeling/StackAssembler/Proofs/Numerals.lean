import Mathlib.Data.List.Basic
import Mathlib.Tactic.Lemma
import StackAssembler.Text.Numeral

/-!
# Numerals

The numbers that numerals denote. A decimal numeral is read back as the number it was written for,
and two hexadecimal numerals of one width that are equal were written for the same number.
-/

namespace StackAssembler.Text

/-! ### Decimal numerals -/

lemma digitsValue_toDigits (n : Nat) : digitsValue (Nat.toDigits 10 n) = n := by
  rw [digitsValue, ← Nat.ofDigitChars_eq_foldl]
  exact Nat.ofDigitChars_ten_toDigits

lemma natural?_toDigits (n : Nat) : natural? (Nat.toDigits 10 n) = some n := by
  have hdigits : (Nat.toDigits 10 n).all Char.isDigit = true :=
    List.all_eq_true.mpr fun c hc => Nat.isDigit_of_mem_toDigits (by decide) (by decide) hc
  rw [natural?, digitsValue_toDigits]
  simp [hdigits, Nat.toDigits_ne_nil]

/-- A sign is no digit, so a text of digits is read as it is. -/
lemma integer?_of_natural? {cs : List Char} {n : Nat} (h : natural? cs = some n) :
    integer? cs = some (n : Int) := by
  unfold integer?
  split
  · simp [natural?, Char.isDigit] at h
  · simp [natural?, Char.isDigit] at h
  · rw [h]
    rfl

lemma literal?_decimal {n : Nat} (h : (n : Int) < literalLimit) :
    literal? (decimal n).toList = some (n : Int) := by
  rw [literal?, decimal, String.toList_ofList, integer?_of_natural? (natural?_toDigits n)]
  have hnonneg : -literalLimit ≤ (n : Int) := by
    rw [literalLimit]
    omega
  simp [Option.filter, h, hnonneg]

/-! ### Hexadecimal numerals -/

/-- The upper-case hexadecimal digits. -/
def hexDigits : List Char := "0123456789ABCDEF".toList

/-- The number that a list of hexadecimal digits denotes. -/
def hexValue (ds : List Char) : Nat := ds.foldl (fun n d => 16 * n + hexDigits.idxOf d) 0

lemma hexValue_concat (ds : List Char) (d : Char) :
    hexValue (ds ++ [d]) = 16 * hexValue ds + hexDigits.idxOf d := by
  rw [hexValue, List.foldl_append]
  rfl

lemma idxOf_toUpper_digitChar : ∀ d < 16, hexDigits.idxOf (Nat.digitChar d).toUpper = d := by
  decide

lemma toUpper_digitChar_mem : ∀ d < 16, (Nat.digitChar d).toUpper ∈ hexDigits := by
  decide

lemma hexValue_toDigits (n : Nat) : hexValue ((Nat.toDigits 16 n).map Char.toUpper) = n := by
  induction n using Nat.strongRecOn with
  | ind n ih =>
    by_cases hn : n < 16
    · rw [Nat.toDigits_of_lt_base hn]
      simp [hexValue, idxOf_toUpper_digitChar n hn]
    · rw [Nat.toDigits_of_base_le (by decide) (by omega), List.map_append, List.map_singleton,
        hexValue_concat, ih (n / 16) (by omega), idxOf_toUpper_digitChar _ (by omega)]
      omega

lemma mem_hexDigits_of_mem_toDigits {n : Nat} {c : Char}
    (hc : c ∈ (Nat.toDigits 16 n).map Char.toUpper) : c ∈ hexDigits := by
  induction n using Nat.strongRecOn with
  | ind n ih =>
    by_cases hn : n < 16
    · rw [Nat.toDigits_of_lt_base hn, List.map_singleton, List.mem_singleton] at hc
      rw [hc]
      exact toUpper_digitChar_mem n hn
    · rw [Nat.toDigits_of_base_le (by decide) (by omega), List.map_append, List.map_singleton,
        List.mem_append, List.mem_singleton] at hc
      rcases hc with hc | rfl
      · exact ih (n / 16) (by omega) hc
      · exact toUpper_digitChar_mem _ (by omega)

/-- Zeros in front do not count. -/
lemma hexValue_leftpad (width : Nat) (ds : List Char) :
    hexValue (ds.leftpad width '0') = hexValue ds := by
  have hzeros : ∀ k, hexValue (List.replicate k '0') = 0 := by
    intro k
    induction k with
    | zero => rfl
    | succ k ih =>
      rw [List.replicate_succ', hexValue_concat, ih]
      decide
  rw [List.leftpad, hexValue, List.foldl_append]
  show ds.foldl _ (hexValue _) = _
  rw [hzeros]
  rfl

lemma hexValue_hex (width n : Nat) : hexValue (hex width n).toList = n := by
  rw [hex, String.toList_ofList, hexValue_leftpad, hexValue_toDigits]

lemma hex_injective (width : Nat) : Function.Injective (hex width) := by
  intro m n h
  rw [← hexValue_hex width m, h, hexValue_hex]

lemma mem_hexDigits_of_mem_hex {width n : Nat} {c : Char} (hc : c ∈ (hex width n).toList) :
    c ∈ hexDigits := by
  rw [hex, String.toList_ofList, List.leftpad, List.mem_append] at hc
  rcases hc with hc | hc
  · obtain rfl := List.eq_of_mem_replicate hc
    decide
  · exact mem_hexDigits_of_mem_toDigits hc

end StackAssembler.Text
