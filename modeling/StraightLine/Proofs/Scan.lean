import StraightLine.Proofs.Numeral
import StraightLine.Token.Scan
import Std.Data.String.ToInt
set_option autoImplicit false

namespace StraightLine

def Kind.Spells : Kind → List Char → Prop
  | mark m, text => text = [m.char]
  | name, text => ∃ c cs, text = c :: cs ∧ isNameStart c = true ∧ ∀ d ∈ cs, isNamePart d = true
  | literal, text => ∃ n < Numeral.limit, text = (toString n).toList
  | invalid, text => ∃ c, text = [c] ∧ Mark.ofChar? c = none ∧ isNamePart c = false
  | endOfInput, _ => False

def Outside (p : Char → Bool) (text : List Char) : Prop :=
  ∀ c, text.head? = some c → p c = false

def Kind.EndsBefore : Kind → List Char → Prop
  | name, rest => Outside isNamePart rest
  | literal, rest => Outside Char.isDigit rest
  | _, _ => True

/-- The lexical rules, said of a token alone. What may follow it is `Kind.EndsBefore`. -/
structure Token.WellFormed (t : Token) : Prop where
  nonempty : t.lexeme ≠ ""
  spelled : t.kind.Spells t.lexeme.toList
  valued_iff : t.value?.isSome ↔ t.kind = .literal
  valued : ∀ v, t.value? = some v → t.lexeme = toString v.toInt

def Numeral.Fault.Describes : Numeral.Fault → List Char → Prop
  | leadingZero, digits => ∃ c cs, digits = '0' :: c :: cs
  | tooLarge, digits => ∃ n, Numeral.limit ≤ n ∧ digits = (toString n).toList

structure RejectedRun (fault : Numeral.Fault) (digits : String) (text : List Char) : Prop where
  digit : ∀ c ∈ digits.toList, c.isDigit = true
  described : fault.Describes digits.toList
  front : ∃ rest, text = digits.toList ++ rest ∧ Outside Char.isDigit rest

theorem outside_congr {p : Char → Bool} {text other : List Char} (h : text.head? = other.head?) :
    Outside p text ↔ Outside p other := by
  unfold Outside
  rw [h]

theorem Kind.endsBefore_congr {k : Kind} {text other : List Char} (h : text.head? = other.head?) :
    k.EndsBefore text ↔ k.EndsBefore other := by
  cases k with
  | name | literal => exact outside_congr h
  | mark | invalid | endOfInput => exact Iff.rfl

theorem outside_dropWhile (p : Char → Bool) (text : List Char) : Outside p (text.dropWhile p) := by
  intro c hc
  have front := List.head?_dropWhile_not p text
  rw [hc] at front
  simpa using front

theorem takeWhile_append_outside {p : Char → Bool} {run rest : List Char}
    (inside : ∀ c ∈ run, p c = true) (outside : Outside p rest) :
    (run ++ rest).takeWhile p = run := by
  rw [List.takeWhile_append_of_pos inside]
  cases rest with
  | nil => simp
  | cons c cs => simp [outside c rfl]

theorem dropWhile_append_outside {p : Char → Bool} {run rest : List Char}
    (inside : ∀ c ∈ run, p c = true) (outside : Outside p rest) :
    (run ++ rest).dropWhile p = rest := by
  rw [List.dropWhile_append_of_pos inside]
  cases rest with
  | nil => simp
  | cons c cs => simp [outside c rfl]

theorem isNamePart_char (m : Mark) : isNamePart m.char = false := by
  cases m <;> decide

theorem isDigit_char (m : Mark) : m.char.isDigit = false := by
  cases m <;> decide

theorem isNamePart_of_isNameStart {c : Char} (h : isNameStart c = true) : isNamePart c = true := by
  simp only [isNameStart, isNamePart, Char.isAlphanum, Bool.or_eq_true] at h ⊢
  rcases h with alpha | underscore
  · exact .inl (.inl alpha)
  · exact .inr underscore

theorem isNamePart_of_isDigit {c : Char} (h : c.isDigit = true) : isNamePart c = true := by
  simp [isNamePart, Char.isAlphanum, h]

theorem ofChar?_eq_none_of_isNamePart {c : Char} (h : isNamePart c = true) :
    Mark.ofChar? c = none := by
  cases found : Mark.ofChar? c with
  | none => rfl
  | some m =>
    rw [← Mark.ofChar?_eq_some_iff.1 found, isNamePart_char] at h
    cases h

theorem isNameStart_eq_false_of_isDigit {c : Char} (h : c.isDigit = true) :
    isNameStart c = false := by
  obtain ⟨low, high⟩ := Numeral.digit_bounds h
  have underscore : c ≠ '_' := by
    rintro rfl
    revert high
    decide
  have upper : c.isUpper = false := by
    apply decide_eq_false
    rw [ge_iff_le, UInt32.le_iff_toNat_le, UInt32.le_iff_toNat_le]
    change ¬ (65 ≤ c.toNat ∧ c.toNat ≤ 90)
    omega
  have lower : c.isLower = false := by
    apply Bool.and_eq_false_imp.2
    intro first
    have inside := UInt32.le_iff_toNat_le.1 (of_decide_eq_true first)
    change 97 ≤ c.toNat at inside
    omega
  have alpha : c.isAlpha = false := by
    change (c.isUpper || c.isLower) = false
    rw [upper, lower, Bool.or_false]
  simp [isNameStart, alpha, underscore]

theorem isNamePart_eq_false {c : Char} (start : isNameStart c = false) (digit : c.isDigit = false) :
    isNamePart c = false := by
  simp only [isNameStart, Bool.or_eq_false_iff] at start
  simp [isNamePart, Char.isAlphanum, start.1, start.2, digit]

namespace Numeral

theorem read_eq_error_iff {digits : List Char} {fault : Fault} (ne : digits ≠ [])
    (h : ∀ c ∈ digits, c.isDigit = true) :
    read digits = .error fault ↔ fault.Describes digits := by
  cases fault with
  | leadingZero =>
    rw [read_eq_leadingZero_iff]
    unfold hasLeadingZero
    split
    next c cs => simp [Fault.Describes]
    next none =>
      simp only [Fault.Describes, Bool.false_eq_true, false_iff]
      rintro ⟨c, cs, rfl⟩
      exact none c cs rfl
  | tooLarge =>
    rw [read_eq_tooLarge_iff]
    simp only [Fault.Describes, Nat.toString_eq_repr, Nat.toList_repr]
    constructor
    · rintro ⟨canonical, large⟩
      exact ⟨value digits, large, (toDigits_value ne h canonical).symm⟩
    · rintro ⟨n, large, rfl⟩
      rw [value_toDigits]
      exact ⟨hasLeadingZero_toDigits n, large⟩

end Numeral

theorem RejectedRun.ne_nil {fault : Numeral.Fault} {digits : String} {text : List Char}
    (h : RejectedRun fault digits text) : digits.toList ≠ [] := by
  intro empty
  have described := h.described
  rw [empty] at described
  cases fault with
  | leadingZero =>
    obtain ⟨c, cs, impossible⟩ := described
    cases impossible
  | tooLarge =>
    obtain ⟨n, -, impossible⟩ := described
    exact Nat.toDigits_ne_nil (Nat.toList_repr.symm.trans impossible.symm)

theorem wellFormed_mark (m : Mark) : (Token.mark m).WellFormed where
  nonempty := by simp [Token.lexeme]
  spelled := by simp [Token.kind, Kind.Spells, Token.lexeme]
  valued_iff := Token.value?_isSome_iff _
  valued := by simp [Token.value?]

theorem wellFormed_name {c : Char} {cs : List Char} (start : isNameStart c = true)
    (part : ∀ d ∈ cs, isNamePart d = true) :
    (Token.name (String.ofList (c :: cs))).WellFormed where
  nonempty := by simp [Token.lexeme]
  spelled := ⟨c, cs, by simp [Token.lexeme], start, part⟩
  valued_iff := Token.value?_isSome_iff _
  valued := by simp [Token.value?]

theorem wellFormed_literal {n : Nat} (small : n < Numeral.limit) :
    (Token.literal (toString n) (Int64.ofNat n)).WellFormed where
  nonempty := Nat.repr_ne_empty
  spelled := ⟨n, small, rfl⟩
  valued_iff := Token.value?_isSome_iff _
  valued := by
    rintro v ⟨⟩
    rw [Int64.toInt_ofNat_of_lt small]
    rfl

theorem wellFormed_invalid {c : Char} (mark : Mark.ofChar? c = none)
    (part : isNamePart c = false) : (Token.invalid c).WellFormed where
  nonempty := by simp [Token.lexeme]
  spelled := ⟨c, by simp [Token.lexeme], mark, part⟩
  valued_iff := Token.value?_isSome_iff _
  valued := by simp [Token.value?]

theorem Token.WellFormed.literal_eq {digits : String} {v : Int64}
    (h : (Token.literal digits v).WellFormed) :
    ∃ n < Numeral.limit, digits = toString n ∧ v = Int64.ofNat n := by
  obtain ⟨n, small, spelled⟩ := h.spelled
  have written : digits = toString n := String.toList_inj.1 spelled
  have shown : digits = toString v.toInt := h.valued v rfl
  have same : v.toInt = n := Int.repr_injective (shown.symm.trans written)
  refine ⟨n, small, written, Int64.toInt_inj.1 ?_⟩
  rw [same, Int64.toInt_ofNat_of_lt small]

theorem scan_literal_of_read {run rest : List Char} {v : Int64} (h : Numeral.read run = .ok v) :
    Scan.literal run rest = .token (.literal (String.ofList run) v) rest := by
  simp [Scan.literal, h]

theorem scan_literal_of_fault {run rest : List Char} {fault : Numeral.Fault}
    (h : Numeral.read run = .error fault) :
    Scan.literal run rest = .rejected fault (String.ofList run) := by
  simp [Scan.literal, h]

theorem scan_mark (m : Mark) (rest : List Char) : scan (m.char :: rest) = .token (.mark m) rest := by
  simp [scan]

theorem scan_name {c : Char} {cs rest : List Char} (start : isNameStart c = true)
    (part : ∀ d ∈ cs, isNamePart d = true) (outside : Outside isNamePart rest) :
    scan (c :: (cs ++ rest)) = .token (.name (String.ofList (c :: cs))) rest := by
  have mark := ofChar?_eq_none_of_isNamePart (isNamePart_of_isNameStart start)
  simp only [scan, mark, start, ↓reduceIte]
  rw [takeWhile_append_outside part outside, dropWhile_append_outside part outside]

theorem scan_digits {c : Char} {cs rest : List Char} (digit : ∀ d ∈ c :: cs, d.isDigit = true)
    (outside : Outside Char.isDigit rest) :
    scan (c :: (cs ++ rest)) = .literal (c :: cs) rest := by
  have first := digit c (by simp)
  have mark := ofChar?_eq_none_of_isNamePart (isNamePart_of_isDigit first)
  have start := isNameStart_eq_false_of_isDigit first
  have more : ∀ d ∈ cs, d.isDigit = true := fun d hd => digit d (by simp [hd])
  simp only [scan, mark, start, first, ↓reduceIte, Bool.false_eq_true]
  rw [takeWhile_append_outside more outside, dropWhile_append_outside more outside]

theorem scan_invalid {c : Char} (rest : List Char) (mark : Mark.ofChar? c = none)
    (part : isNamePart c = false) : scan (c :: rest) = .token (.invalid c) rest := by
  have start : isNameStart c = false := by
    rw [← Bool.not_eq_true]
    intro yes
    simp [isNamePart_of_isNameStart yes] at part
  have digit : c.isDigit = false := by
    rw [← Bool.not_eq_true]
    intro yes
    simp [isNamePart_of_isDigit yes] at part
  simp [scan, mark, start, digit]

/-- The first character of a text decides which rule applies, and the rule how far it reaches. -/
theorem text_cases (text : List Char) :
    text = [] ∨ (∃ m rest, text = Mark.char m :: rest) ∨
    (∃ c cs rest, text = c :: (cs ++ rest) ∧ isNameStart c = true ∧
      (∀ d ∈ cs, isNamePart d = true) ∧ Outside isNamePart rest) ∨
    (∃ c cs rest, text = c :: (cs ++ rest) ∧ (∀ d ∈ c :: cs, d.isDigit = true) ∧
      Outside Char.isDigit rest) ∨
    ∃ c rest, text = c :: rest ∧ Mark.ofChar? c = none ∧ isNamePart c = false := by
  cases text with
  | nil => exact .inl rfl
  | cons c text =>
    right
    cases mark : Mark.ofChar? c with
    | some m => exact .inl ⟨m, text, by rw [Mark.ofChar?_eq_some_iff.1 mark]⟩
    | none =>
      right
      by_cases start : isNameStart c = true
      · refine .inl ⟨c, text.takeWhile isNamePart, text.dropWhile isNamePart, ?_, start, ?_,
          outside_dropWhile _ _⟩
        · rw [List.takeWhile_append_dropWhile]
        · exact fun d hd => List.all_eq_true.1 List.all_takeWhile d hd
      · right
        by_cases digit : c.isDigit = true
        · refine .inl ⟨c, text.takeWhile Char.isDigit, text.dropWhile Char.isDigit, ?_, ?_,
            outside_dropWhile _ _⟩
          · rw [List.takeWhile_append_dropWhile]
          · intro d hd
            rcases List.mem_cons.1 hd with rfl | hd
            · exact digit
            · exact List.all_eq_true.1 List.all_takeWhile d hd
        · exact .inr ⟨c, text, rfl, mark,
            isNamePart_eq_false (by simpa using start) (by simpa using digit)⟩

theorem scan_of_wellFormed {t : Token} {rest : List Char} (h : t.WellFormed)
    (ends : t.kind.EndsBefore rest) : scan (t.lexeme.toList ++ rest) = .token t rest := by
  cases t with
  | mark m => simpa [Token.lexeme] using scan_mark m rest
  | name x =>
    obtain ⟨c, cs, spelled, start, part⟩ := h.spelled
    change x.toList = c :: cs at spelled
    obtain rfl : x = String.ofList (c :: cs) := by rw [← spelled, String.ofList_toList]
    simpa [Token.lexeme] using scan_name start part ends
  | literal digits v =>
    obtain ⟨n, small, rfl, rfl⟩ := h.literal_eq
    have digit : ∀ d ∈ Nat.toDigits 10 n, d.isDigit = true := fun d hd =>
      Nat.isDigit_of_mem_toDigits (by omega) (by omega) hd
    have value := (Numeral.read_eq_ok_iff_toDigits Nat.toDigits_ne_nil digit).2
      ⟨n, small, rfl, rfl⟩
    have lexeme : (Token.literal (toString n) (Int64.ofNat n)).lexeme.toList =
        Nat.toDigits 10 n := Nat.toList_repr
    rw [lexeme]
    cases run : Nat.toDigits 10 n with
    | nil => exact absurd run Nat.toDigits_ne_nil
    | cons c cs =>
      rw [run] at digit value
      rw [List.cons_append, scan_digits digit ends, scan_literal_of_read value, ← run,
        Nat.toString_eq_ofList_toDigits]
  | invalid c =>
    obtain ⟨d, spelled, mark, part⟩ := h.spelled
    obtain rfl : c = d := by simpa [Token.lexeme] using spelled
    simpa [Token.lexeme] using scan_invalid rest mark part
  | endOfInput => exact h.spelled.elim

theorem wellFormed_of_scan {text rest : List Char} {t : Token} (h : scan text = .token t rest) :
    t.WellFormed ∧ t.kind.EndsBefore rest := by
  obtain rfl | ⟨m, rest', rfl⟩ | ⟨c, cs, rest', rfl, start, part, outside⟩ |
    ⟨c, cs, rest', rfl, digit, outside⟩ | ⟨c, rest', rfl, mark, part⟩ := text_cases text
  · cases h
  · rw [scan_mark] at h
    cases h
    exact ⟨wellFormed_mark m, trivial⟩
  · rw [scan_name start part outside] at h
    cases h
    exact ⟨wellFormed_name start part, outside⟩
  · rw [scan_digits digit outside] at h
    cases value : Numeral.read (c :: cs) with
    | error fault =>
      rw [scan_literal_of_fault value] at h
      cases h
    | ok v =>
      rw [scan_literal_of_read value] at h
      cases h
      obtain ⟨n, small, written, rfl⟩ :=
        (Numeral.read_eq_ok_iff_toDigits (by simp) digit).1 value
      rw [written, ← Nat.toString_eq_ofList_toDigits]
      exact ⟨wellFormed_literal small, outside⟩
  · rw [scan_invalid rest' mark part] at h
    cases h
    exact ⟨wellFormed_invalid mark part, trivial⟩

theorem scan_eq_token_iff {text rest : List Char} {t : Token} :
    scan text = .token t rest ↔
      t.WellFormed ∧ t.kind.EndsBefore rest ∧ text = t.lexeme.toList ++ rest := by
  constructor
  · intro h
    obtain ⟨wellFormed, ends⟩ := wellFormed_of_scan h
    exact ⟨wellFormed, ends, (lexeme_append_of_scan h).symm⟩
  · rintro ⟨wellFormed, ends, rfl⟩
    exact scan_of_wellFormed wellFormed ends

theorem scan_of_rejectedRun {fault : Numeral.Fault} {digits : String} {text : List Char}
    (h : RejectedRun fault digits text) : scan text = .rejected fault digits := by
  obtain ⟨rest, rfl, outside⟩ := h.front
  have ne := h.ne_nil
  have value := (Numeral.read_eq_error_iff ne h.digit).2 h.described
  have digit := h.digit
  cases run : digits.toList with
  | nil => exact absurd run ne
  | cons c cs =>
    rw [run] at digit value
    rw [List.cons_append, scan_digits digit outside, scan_literal_of_fault value, ← run,
      String.ofList_toList]

theorem rejectedRun_of_scan {fault : Numeral.Fault} {digits : String} {text : List Char}
    (h : scan text = .rejected fault digits) : RejectedRun fault digits text := by
  obtain rfl | ⟨m, rest, rfl⟩ | ⟨c, cs, rest, rfl, start, part, outside⟩ |
    ⟨c, cs, rest, rfl, digit, outside⟩ | ⟨c, rest, rfl, mark, part⟩ := text_cases text
  · cases h
  · rw [scan_mark] at h
    cases h
  · rw [scan_name start part outside] at h
    cases h
  · rw [scan_digits digit outside] at h
    cases value : Numeral.read (c :: cs) with
    | error found =>
      rw [scan_literal_of_fault value] at h
      cases h
      have described := (Numeral.read_eq_error_iff (by simp) digit).1 value
      refine ⟨?_, ?_, rest, ?_, outside⟩
      · simpa using digit
      · simpa using described
      · simp
    | ok v =>
      rw [scan_literal_of_read value] at h
      cases h
  · rw [scan_invalid rest mark part] at h
    cases h

theorem scan_eq_rejected_iff {fault : Numeral.Fault} {digits : String} {text : List Char} :
    scan text = .rejected fault digits ↔ RejectedRun fault digits text :=
  ⟨rejectedRun_of_scan, scan_of_rejectedRun⟩

end StraightLine
