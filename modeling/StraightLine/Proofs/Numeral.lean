import StraightLine.Token.Basic
set_option autoImplicit false

namespace StraightLine.Numeral

theorem value_eq_ofDigitChars (digits : List Char) :
    value digits = Nat.ofDigitChars 10 digits 0 := rfl

theorem value_toDigits (n : Nat) : value (Nat.toDigits 10 n) = n := by
  rw [value_eq_ofDigitChars, Nat.ofDigitChars_ten_toDigits]

theorem digit_bounds {c : Char} (h : c.isDigit = true) : 48 ≤ c.toNat ∧ c.toNat ≤ 57 := by
  simpa [Char.isDigit, UInt32.le_iff_toNat_le] using h

theorem toDigits_of_isDigit {c : Char} (h : c.isDigit = true) :
    Nat.toDigits 10 (c.toNat - '0'.toNat) = [c] := by
  obtain ⟨low, high⟩ := digit_bounds h
  change Nat.toDigits 10 (c.toNat - 48) = [c]
  have small : c.toNat - 48 < 10 := by omega
  have same : (c.toNat - 48).digitChar = c := by
    rw [← Char.toNat_inj, Nat.toNat_digitChar_of_lt_ten small]
    omega
  rw [Nat.toDigits_of_lt_base small, same]

theorem toDigits_append {n : Nat} (hn : 0 < n) {digits : List Char}
    (h : ∀ c ∈ digits, c.isDigit = true) :
    Nat.toDigits 10 n ++ digits = Nat.toDigits 10 (Nat.ofDigitChars 10 digits n) := by
  induction digits generalizing n with
  | nil => simp
  | cons c cs ih =>
    have hc := h c (by simp)
    have small : c.toNat - '0'.toNat < 10 := by
      have bounds := digit_bounds hc
      change c.toNat - 48 < 10
      omega
    have more := ih (n := 10 * n + (c.toNat - '0'.toNat)) (by omega)
      (fun d hd => h d (by simp [hd]))
    rw [← Nat.toDigits_append_toDigits (by omega) hn small, toDigits_of_isDigit hc] at more
    rw [Nat.ofDigitChars_cons, ← more, List.append_assoc]
    rfl

theorem toDigits_value {digits : List Char} (ne : digits ≠ [])
    (h : ∀ c ∈ digits, c.isDigit = true) (canonical : hasLeadingZero digits = false) :
    Nat.toDigits 10 (value digits) = digits := by
  cases digits with
  | nil => exact absurd rfl ne
  | cons c cs =>
    have hc := h c (by simp)
    have bounds := digit_bounds hc
    by_cases zero : c = '0'
    · subst c
      cases cs with
      | nil => decide
      | cons d ds => simp [hasLeadingZero] at canonical
    · have positive : 0 < c.toNat - '0'.toNat := by
        have apart : c.toNat ≠ 48 := fun same => zero (Char.toNat_inj.1 same)
        change 0 < c.toNat - 48
        omega
      have more : ∀ d ∈ cs, d.isDigit = true := fun d hd => h d (by simp [hd])
      have whole := toDigits_append positive more
      rw [toDigits_of_isDigit hc] at whole
      rw [value_eq_ofDigitChars, Nat.ofDigitChars_cons, Nat.mul_zero, Nat.zero_add]
      exact whole.symm

theorem head?_toDigits_ne_zero {n : Nat} (hn : 0 < n) :
    (Nat.toDigits 10 n).head? ≠ some '0' := by
  induction n using Nat.strongRecOn with
  | ind n ih =>
    by_cases small : n < 10
    · rw [Nat.toDigits_of_lt_base small]
      intro zero
      have code := congrArg Char.toNat (Option.some.inj zero)
      rw [Nat.toNat_digitChar_of_lt_ten small] at code
      change 48 + n = 48 at code
      omega
    · have shorter := ih (n / 10) (by omega) (by omega)
      rw [Nat.toDigits_of_base_le (by omega) (by omega), List.head?_append]
      cases digits : Nat.toDigits 10 (n / 10) with
      | nil => exact absurd digits Nat.toDigits_ne_nil
      | cons c cs =>
        rw [digits] at shorter
        exact shorter

theorem hasLeadingZero_toDigits (n : Nat) : hasLeadingZero (Nat.toDigits 10 n) = false := by
  by_cases zero : n = 0
  · subst n
    decide
  · have head := head?_toDigits_ne_zero (Nat.pos_of_ne_zero zero)
    unfold hasLeadingZero
    split
    next found => simp [found] at head
    · rfl

/-- The numerals are what the values below the limit are written as. -/
theorem read_eq_ok_iff_toDigits {digits : List Char} {v : Int64} (ne : digits ≠ [])
    (h : ∀ c ∈ digits, c.isDigit = true) :
    read digits = .ok v ↔
      ∃ n < limit, digits = Nat.toDigits 10 n ∧ v = Int64.ofNat n := by
  rw [read_eq_ok_iff]
  constructor
  · rintro ⟨canonical, small, rfl⟩
    exact ⟨value digits, small, (toDigits_value ne h canonical).symm, rfl⟩
  · rintro ⟨n, small, rfl, rfl⟩
    rw [value_toDigits]
    exact ⟨hasLeadingZero_toDigits n, small, rfl⟩

end StraightLine.Numeral
