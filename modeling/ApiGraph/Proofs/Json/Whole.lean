import ApiGraph.Json.Number
import Mathlib.Data.List.Basic
import Mathlib.Data.List.TakeWhile

/-! Whole numbers as JSON text. A number in the exact range is written with digits alone, without a
leading zero, and the reader takes exactly those digits up again (`ofText?_text`). -/

namespace ApiGraph.JsonNumber

open Decimal

/-- The whole numbers that are kept exactly. -/
def Exact : JsonNumber → Prop
  | .int (.ofNat n) => n ≤ greatestWord
  | .int (.negSucc n) => n + 1 ≤ twoTo 63
  | .float _ => False

theorem digitsOf_isDigit {n : Nat} {c : Char} (h : c ∈ digitsOf n) : c.isDigit = true :=
  Nat.isDigit_of_mem_toDigits (by omega) (by omega) h

theorem digitsOf_ne_nil (n : Nat) : digitsOf n ≠ [] :=
  List.ne_nil_of_length_pos Nat.length_toDigits_pos

/-- The digits of a number other than zero do not begin with a zero. -/
theorem head?_digitsOf {n : Nat} (positive : 0 < n) : (digitsOf n).head? ≠ some '0' := by
  induction n using Nat.strongRecOn with
  | ind n ih =>
    rw [digitsOf, Nat.toDigits_eq_if (by omega)]
    split
    · intro zero
      have := Nat.digitChar_eq_zero.mp (Option.some.inj zero)
      omega
    · rename_i large
      have front := ih (n / 10) (by omega) (by omega)
      rwa [← digitsOf, List.head?_append_of_ne_nil _ (digitsOf_ne_nil (n / 10))]

-- The equations of the definition are too slow to be made, so it is opened by computation.
theorem ofInteger_step (value : Nat) (c : Char) (rest : List Char) :
    Significand.ofInteger value (c :: rest) =
      match addDigit? value c with
      | some next => Significand.ofInteger next rest
      | none => ⟨value, rest.length + 1⟩ := by rfl

theorem ofInteger_cons {value next : Nat} {c : Char} (taken : addDigit? value c = some next)
    (rest : List Char) :
    Significand.ofInteger value (c :: rest) = Significand.ofInteger next rest := by
  rw [ofInteger_step, taken]

theorem le_ofDigitChars (digits : List Char) (value : Nat) :
    value ≤ Nat.ofDigitChars 10 digits value := by
  rw [Nat.ofDigitChars_eq_ofDigitChars_zero]
  exact Nat.le_add_right_of_le (Nat.le_mul_of_pos_left _ (Nat.pow_pos (by omega)))

/-- Digits whose value fits are all taken up. -/
theorem ofInteger_eq (digits : List Char) (value : Nat)
    (fits : Nat.ofDigitChars 10 digits value ≤ greatestWord) :
    Significand.ofInteger value digits = ⟨Nat.ofDigitChars 10 digits value, 0⟩ := by
  induction digits generalizing value with
  | nil => rfl
  | cons c rest ih =>
    rw [Nat.ofDigitChars_cons] at fits ⊢
    -- What has been read can only grow, so it fits because the whole number does.
    have here := Nat.le_trans (le_ofDigitChars rest _) fits
    have taken : addDigit? value c = some (10 * value + (c.toNat - '0'.toNat)) := by
      simp only [addDigit?, here, ↓reduceIte]
    rw [ofInteger_cons taken, ih _ fits]

theorem ofInteger_digitsOf {n : Nat} (fits : n ≤ greatestWord) :
    Significand.ofInteger 0 (digitsOf n) = ⟨n, 0⟩ := by
  have value : Nat.ofDigitChars 10 (digitsOf n) 0 = n := Nat.ofDigitChars_ten_toDigits
  rw [ofInteger_eq _ _ (by rw [value]; exact fits), value]

/-- A number that is spelled with its digits alone, after its sign. -/
theorem spelling_of_digits (negative : Bool) (n : Nat) {cs : List Char}
    (signed : takeSign cs = (negative, digitsOf n)) :
    Spelling.of? cs = some ⟨negative, digitsOf n, none, none⟩ := by
  have digits : (digitsOf n).takeWhile Char.isDigit = digitsOf n :=
    List.takeWhile_eq_self_iff.mpr fun _ => digitsOf_isDigit
  have rest : (digitsOf n).dropWhile Char.isDigit = [] :=
    List.dropWhile_eq_nil_iff.mpr fun _ => digitsOf_isDigit
  have noLeadingZero : ((digitsOf n).isEmpty ||
      ((digitsOf n).head? == some '0' && (digitsOf n).length != 1)) = false := by
    rcases Nat.eq_zero_or_pos n with rfl | positive
    · rfl
    · have := head?_digitsOf positive
      simp [digitsOf_ne_nil, this]
  simp only [Spelling.of?, signed, digits, rest, noLeadingZero]
  rfl

theorem takeSign_digitsOf (n : Nat) : takeSign (digitsOf n) = (false, digitsOf n) := by
  rcases h : digitsOf n with _ | ⟨c, rest⟩
  · rfl
  · have : c ≠ '-' := by
      rintro rfl
      have := digitsOf_isDigit (n := n) (c := '-') (by simp [h])
      cases this
    rw [takeSign]
    simpa using this

/-- A whole number that is kept exactly reads back as itself. -/
theorem ofText?_text {n : JsonNumber} (exact : n.Exact) : ofText? n.text = some n := by
  rcases n with (n | n) | x
  · rw [text, ofText?, spelling_of_digits false n (takeSign_digitsOf n), Option.bind_some,
      Spelling.number?, ofInteger_digitsOf exact]
    rfl
  · have small : n + 1 ≤ greatestWord := Nat.le_trans exact (by decide)
    rw [text, ofText?, spelling_of_digits true (n + 1) rfl, Option.bind_some, Spelling.number?,
      ofInteger_digitsOf small]
    have inRange : 0 < n + 1 ∧ n + 1 ≤ twoTo 63 := ⟨by omega, exact⟩
    simp only [Bool.not_true, Bool.false_eq_true, ↓reduceIte, inRange]
    rfl
  · cases exact

end ApiGraph.JsonNumber
