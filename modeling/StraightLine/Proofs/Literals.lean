import Mathlib.Data.Nat.Digits.Defs
import StraightLine.Proofs.ErrorReports
import StraightLine.Proofs.Sessions
set_option autoImplicit false

namespace StraightLine

namespace Numeral

/-- The number that digits denote by their places, the last one being that of the ones. -/
def denotation (digits : List Char) : Nat :=
  Nat.ofDigits 10 (digits.reverse.map fun c => c.toNat - '0'.toNat)

theorem value_eq_denotation (digits : List Char) : value digits = denotation digits := by
  induction digits using List.reverseRecOn with
  | nil => rfl
  | append_singleton digits c ih =>
    rw [value, List.foldl_append, ← value, ih, denotation, denotation, List.reverse_concat,
      List.map_cons, Nat.ofDigits_cons, List.foldl_cons, List.foldl_nil, Nat.add_comm]

theorem hasLeadingZero_iff {digits : List Char} :
    hasLeadingZero digits = true ↔ 1 < digits.length ∧ digits.head? = some '0' := by
  unfold hasLeadingZero
  split
  · simp
  next other =>
    simp only [Bool.false_eq_true, false_iff, not_and]
    intro long first
    match digits with
    | c :: d :: ds =>
      cases first
      exact other d ds rfl

theorem read_eq_ok_iff_toString {digits : List Char} {v : Int64} (ne : digits ≠ [])
    (h : ∀ c ∈ digits, c.isDigit = true) :
    read digits = .ok v ↔
      0 ≤ v.toInt ∧ v.toInt ≤ 9223372036854775807 ∧ String.ofList digits = toString v.toInt := by
  rw [read_eq_ok_iff_toDigits ne h]
  constructor
  · rintro ⟨n, small, rfl, rfl⟩
    rw [Int64.toInt_ofNat_of_lt small, ← Nat.toString_eq_ofList_toDigits]
    change n < 9223372036854775808 at small
    exact ⟨by omega, by omega, rfl⟩
  · rintro ⟨low, high, written⟩
    obtain ⟨n, number⟩ := Int.eq_ofNat_of_zero_le low
    have small : n < limit := by
      change n < 9223372036854775808
      omega
    rw [number] at written
    change String.ofList digits = toString n at written
    refine ⟨n, small, ?_, ?_⟩
    · rw [Nat.toString_eq_ofList_toDigits] at written
      exact String.ofList_injective written
    · apply Int64.toInt_inj.1
      rw [number, Int64.toInt_ofNat_of_lt small]

theorem read_eq_tooLarge_iff_denotation {digits : List Char} :
    read digits = .error .tooLarge ↔
      digits.head? ≠ some '0' ∧ 9223372036854775808 ≤ denotation digits := by
  rw [read_eq_tooLarge_iff, ← value_eq_denotation, ← Bool.not_eq_true, hasLeadingZero_iff]
  change _ ∧ 9223372036854775808 ≤ value digits ↔ _
  refine and_congr_left fun large => not_congr ⟨And.right, fun first => ⟨?_, first⟩⟩
  match digits with
  | [c] =>
    cases first
    revert large
    decide
  | c :: d :: ds => simp

end Numeral

namespace Scanner

/-- A whole run of digits stands at the front of what is left to read. -/
structure Meets (s : Scanner) (run rest : List Char) : Prop where
  text : s.rest = run ++ rest
  nonempty : run ≠ []
  digit : ∀ c ∈ run, c.isDigit = true
  whole : Outside Char.isDigit rest

theorem Meets.scan_eq {s : Scanner} {run rest : List Char} (h : s.Meets run rest) :
    scan s.rest = .literal run rest := by
  rw [h.text]
  cases run with
  | nil => exact absurd rfl h.nonempty
  | cons c cs => exact scan_digits h.digit h.whole

theorem Meets.nextToken_cases {s : Scanner} {run rest : List Char} (h : s.Meets run rest) :
    (∃ v, Numeral.read run = .ok v ∧ s.nextToken =
      (.ok (.literal (String.ofList run) v), { s with rest, offset := s.offset + run.length })) ∨
    ∃ fault, Numeral.read run = .error fault ∧
      s.nextToken = (.error ⟨s.offset, fault, String.ofList run⟩, s) := by
  cases outcome : Numeral.read run with
  | ok v =>
    have found := h.scan_eq.trans (scan_literal_of_read outcome)
    have plain : ∀ c ∈ run, isPlain c = true := fun c hc =>
      Bool.or_eq_true_iff.2 (.inl (isNamePart_of_isDigit (h.digit c hc)))
    refine .inl ⟨v, rfl, ?_⟩
    rw [nextToken_of_token found, Token.width, Token.lexeme, utf8ByteSize_of_isPlain plain]
  | error fault =>
    have found := h.scan_eq.trans (scan_literal_of_fault outcome)
    exact .inr ⟨fault, rfl, nextToken_of_rejected found⟩

theorem Meets.literal_iff {s : Scanner} {run rest : List Char} (h : s.Meets run rest) (v : Int64) :
    (∃ t, s.nextToken.1 = .ok t ∧ t.kind = .literal ∧ t.value? = some v) ↔
      Numeral.read run = .ok v := by
  obtain ⟨w, value, next⟩ | ⟨fault, failed, next⟩ := h.nextToken_cases
  · simp [next, value, Token.kind, Token.value?]
  · simp [next, failed]

theorem Meets.fault_iff {s : Scanner} {run rest : List Char} (h : s.Meets run rest)
    (fault : Numeral.Fault) :
    (∃ r, s.nextToken.1 = .error r ∧ r.fault = fault) ↔ Numeral.read run = .error fault := by
  obtain ⟨w, value, next⟩ | ⟨found, failed, next⟩ := h.nextToken_cases
  · simp [next, value]
  · simp [next, failed]

structure TakesDigits (s : Scanner) (run rest : List Char) : Prop where
  literal_iff : ∀ v : Int64,
    (∃ t, s.nextToken.1 = .ok t ∧ t.kind = .literal ∧ t.value? = some v) ↔
      0 ≤ v.toInt ∧ v.toInt ≤ 9223372036854775807 ∧ String.ofList run = toString v.toInt
  leadingZero_iff : (∃ r, s.nextToken.1 = .error r ∧ r.fault = .leadingZero) ↔
    1 < run.length ∧ run.head? = some '0'
  tooLarge_iff : (∃ r, s.nextToken.1 = .error r ∧ r.fault = .tooLarge) ↔
    run.head? ≠ some '0' ∧ 9223372036854775808 ≤ Numeral.denotation run
  taken : ∀ t, s.nextToken.1 = .ok t → t.kind = .literal ∧ t.lexeme = String.ofList run ∧
    s.nextToken.2 = { s with rest, offset := s.offset + run.length }
  refused : ∀ r, s.nextToken.1 = .error r →
    r.position = s.offset ∧ r.digits = String.ofList run ∧ s.nextToken.2 = s

/-- The literals are the numbers below `2 ^ 63` as they are printed. Every other run of digits is
rejected, for its leading zero or else for its value. -/
theorem nextToken_digits {s : Scanner} {run rest : List Char} (h : s.Meets run rest) :
    s.TakesDigits run rest where
  literal_iff v := (h.literal_iff v).trans (Numeral.read_eq_ok_iff_toString h.nonempty h.digit)
  leadingZero_iff := (h.fault_iff .leadingZero).trans
    (Numeral.read_eq_leadingZero_iff.trans Numeral.hasLeadingZero_iff)
  tooLarge_iff := (h.fault_iff .tooLarge).trans Numeral.read_eq_tooLarge_iff_denotation
  taken := by
    obtain ⟨v, -, next⟩ | ⟨fault, -, next⟩ := h.nextToken_cases <;> rw [next] <;> rintro t ⟨⟩
    exact ⟨rfl, rfl, rfl⟩
  refused := by
    obtain ⟨v, -, next⟩ | ⟨fault, -, next⟩ := h.nextToken_cases <;> rw [next] <;> rintro r ⟨⟩
    exact ⟨rfl, rfl, rfl⟩

/-- A run with both faults, met in the middle of a text. -/
theorem nextToken_zero_before_limit :
    Meets ⟨"09223372036854775808;".toList, 2, false⟩ "09223372036854775808".toList [';'] ∧
    TakesDigits ⟨"09223372036854775808;".toList, 2, false⟩ "09223372036854775808".toList [';'] := by
  have digit : "09223372036854775808".toList.all Char.isDigit = true := by decide
  have met :
      Meets ⟨"09223372036854775808;".toList, 2, false⟩ "09223372036854775808".toList [';'] := {
    text := rfl
    nonempty := by decide
    digit := List.all_eq_true.1 digit
    whole := by
      rintro _ ⟨⟩
      rfl }
  exact ⟨met, nextToken_digits met⟩

end Scanner

end StraightLine
