import StraightLine.Proofs.CompletedStatements
import StraightLine.Proofs.FirstError
set_option autoImplicit false

namespace StraightLine

open Control Grammar

def Cause.found : Cause → Kind × String
  | literal _ digits => (.literal, digits)
  | unexpected _ found lexeme => (found, lexeme)
  | operand found lexeme => (found, lexeme)
  | unbound name => (.name, name)

def isPlain (c : Char) : Bool :=
  isNamePart c || (Mark.ofChar? c).isSome

theorem isPlain_of_isNamePart {c : Char} (h : isNamePart c = true) : isPlain c = true := by
  simp [isPlain, h]

theorem isPlain_char (m : Mark) : isPlain m.char = true := by
  simp [isPlain]

theorem toNat_le_of_isNamePart {c : Char} (h : isNamePart c = true) : c.val.toNat ≤ 127 := by
  rcases Bool.or_eq_true_iff.1 h with alphanumeric | underscore
  · rcases Bool.or_eq_true_iff.1 alphanumeric with alpha | digit
    · rcases Bool.or_eq_true_iff.1 alpha with upper | lower
      · have bounds := of_decide_eq_true upper
        exact Nat.le_trans (UInt32.le_iff_toNat_le.1 bounds.2) (by decide)
      · have bound := of_decide_eq_true (Bool.and_eq_true_iff.1 lower).2
        exact Nat.le_trans (UInt32.le_iff_toNat_le.1 bound) (by decide)
    · exact Nat.le_trans (Numeral.digit_bounds digit).2 (by decide)
  · rw [beq_iff_eq.1 underscore]
    decide

theorem le_toNat_of_isNamePart {c : Char} (h : isNamePart c = true) : 48 ≤ c.toNat := by
  rcases Bool.or_eq_true_iff.1 h with alphanumeric | underscore
  · rcases Bool.or_eq_true_iff.1 alphanumeric with alpha | digit
    · rcases Bool.or_eq_true_iff.1 alpha with upper | lower
      · have bounds := of_decide_eq_true upper
        exact Nat.le_trans (by decide) (UInt32.le_iff_toNat_le.1 bounds.1)
      · have bound := of_decide_eq_true (Bool.and_eq_true_iff.1 lower).1
        exact Nat.le_trans (by decide) (UInt32.le_iff_toNat_le.1 bound)
    · exact (Numeral.digit_bounds digit).1
  · rw [beq_iff_eq.1 underscore]
    decide

theorem isBlank_of_isPlain {c : Char} (h : isPlain c = true) : isBlank c = false := by
  rcases Bool.or_eq_true_iff.1 h with part | mark
  · have low := le_toNat_of_isNamePart part
    have high : c.toNat ≤ 127 := toNat_le_of_isNamePart part
    simp only [isBlank, blankRanges, List.any_cons, List.any_nil, Bool.or_false,
      Bool.or_eq_false_iff, Bool.and_eq_false_iff, decide_eq_false_iff_not]
    omega
  · obtain ⟨m, found⟩ := Option.isSome_iff_exists.1 mark
    rw [← Mark.ofChar?_eq_some_iff.1 found]
    cases m <;> decide

theorem utf8Size_of_isPlain {c : Char} (h : isPlain c = true) : c.utf8Size = 1 := by
  rw [Char.utf8Size_eq_one_iff, UInt32.le_iff_toNat_le]
  rcases Bool.or_eq_true_iff.1 h with part | mark
  · exact toNat_le_of_isNamePart part
  · obtain ⟨m, found⟩ := Option.isSome_iff_exists.1 mark
    rw [← Mark.ofChar?_eq_some_iff.1 found]
    cases m <;> decide

theorem utf8ByteSize_of_isPlain {text : List Char} (h : ∀ c ∈ text, isPlain c = true) :
    (String.ofList text).utf8ByteSize = text.length := by
  induction text with
  | nil => rfl
  | cons c cs ih =>
    have first := utf8Size_of_isPlain (h c List.mem_cons_self)
    have more := ih fun d hd => h d (List.mem_cons_of_mem c hd)
    rw [String.ofList_cons, String.utf8ByteSize_append, String.utf8ByteSize_singleton, first, more,
      List.length_cons]
    omega

theorem Token.WellFormed.isNamePart {t : Token} (h : t.WellFormed)
    (worded : t.kind = .name ∨ t.kind = .literal) :
    ∀ c ∈ t.lexeme.toList, isNamePart c = true := by
  intro c hc
  have spelled := h.spelled
  rcases worded with name | literal
  · rw [name] at spelled
    obtain ⟨d, ds, text, start, part⟩ := spelled
    rw [text] at hc
    rcases List.mem_cons.1 hc with rfl | hc
    · exact isNamePart_of_isNameStart start
    · exact part c hc
  · rw [literal] at spelled
    obtain ⟨n, -, text⟩ := spelled
    rw [text, Nat.toString_eq_repr, Nat.toList_repr] at hc
    exact isNamePart_of_isDigit (Nat.isDigit_of_mem_toDigits (by omega) (by omega) hc)

theorem Token.WellFormed.isPlain {t : Token} (h : t.WellFormed) (valid : t.kind ≠ .invalid) :
    ∀ c ∈ t.lexeme.toList, isPlain c = true := by
  intro c hc
  have spelled := h.spelled
  cases kind : t.kind with
  | mark m =>
    rw [kind] at spelled
    rw [spelled] at hc
    rw [List.mem_singleton.1 hc]
    exact isPlain_char m
  | name => exact isPlain_of_isNamePart (h.isNamePart (.inl kind) c hc)
  | literal => exact isPlain_of_isNamePart (h.isNamePart (.inr kind) c hc)
  | invalid => exact absurd kind valid
  | endOfInput =>
    rw [kind] at spelled
    exact spelled.elim

theorem isPlain_of_scans {text rest : List Char} {ts : List Token} {table table' : Table}
    {c c' : Control} (scanned : Scans text ts rest)
    (steps : steps? table c ts = some (table', c')) :
    ∀ ch ∈ Token.spelling ts, isPlain ch = true := by
  intro ch inside
  obtain ⟨t, ht, inside⟩ := List.mem_flatMap.1 inside
  exact (scanned.wellFormed t ht).isPlain (kind_of_steps? steps t ht).1 ch inside

theorem found_of_blames_token {e : Error} {t : Token} (h : e.Blames (.ok t)) :
    e.cause.found = (t.kind, t.lexeme) := by
  obtain ⟨position, cause⟩ := e
  cases cause with
  | literal => exact h.elim
  | unexpected | operand => exact Prod.ext h.1 h.2
  | unbound x =>
    obtain rfl : t = .name x := h
    rfl

theorem phase_of_blames_token {e : Error} {t : Token} (h : e.Blames (.ok t)) :
    e.cause.phase = .syntactic := by
  obtain ⟨position, cause⟩ := e
  cases cause with
  | literal => exact h.elim
  | unexpected | operand | unbound => rfl

theorem found_of_blames_literal {e : Error} {r : RejectedLiteral} (h : e.Blames (.error r)) :
    e.cause.found = (.literal, r.digits) := by
  obtain rfl : e = r.toError := h
  rfl

theorem found_iff_of_blames {e : Error} {position : Nat} {rest : List Char}
    (h : e.Blames (tokenAt position rest)) :
    (e.cause.found.2 = "" ↔ e.cause.found.1 = .endOfInput) ∧
      (e.cause.found.1 = .endOfInput ↔ rest = []) := by
  cases front : scan rest with
  | endOfText =>
    rw [tokenAt_of_endOfText front] at h
    rw [found_of_blames_token h, scan_eq_endOfText_iff.1 front]
    simp [Token.kind, Token.lexeme]
  | token t more =>
    rw [tokenAt_of_token front] at h
    have nonempty := (wellFormed_of_scan front).1.nonempty
    have inside := ne_endOfInput_of_scan front
    have some : rest ≠ [] := by
      rintro rfl
      cases front
    simp [found_of_blames_token h, nonempty, Token.kind_eq_endOfInput_iff, inside, some]
  | rejected fault digits =>
    rw [tokenAt_of_rejected front] at h
    have nonempty : digits ≠ "" := by
      rintro rfl
      exact (rejectedRun_of_scan front).ne_nil rfl
    have some : rest ≠ [] := by
      rintro rfl
      cases front
    simp [found_of_blames_literal h, nonempty, some]

/-- What an error has to get right about a source of which these tokens were taken and this text is
left. -/
structure Error.Fits (e : Error) (source : String) (taken : List Token) (left : List Char) :
    Prop where
  text : strip source = Token.spelling taken ++ left
  position : e.position = (String.ofList (Token.spelling taken)).utf8ByteSize
  leading : taken <+: (TokenStream.ofSource source).sequence
  aligned : TokenBoundary source e.position
  /-- A literal that is rejected there is the error; otherwise the error names the token there. -/
  blames : e.Blames (tokenAt e.position left)
  empty_iff : e.cause.found.2 = "" ↔ e.cause.found.1 = .endOfInput
  end_iff : e.cause.found.1 = .endOfInput ↔
    e.position = (String.ofList (strip source)).utf8ByteSize
  finished : ∃ ss, Finishes taken ss
  /-- A name is unbound only if no finished statement has assigned it. -/
  unassigned : ∀ x, e.cause = .unbound x → ∀ ss, Finishes taken ss → ∀ s ∈ ss, s.target ≠ x
  plain : ∀ c ∈ Token.spelling taken, isPlain c = true
  characters : e.position = (Token.spelling taken).length

theorem get?_of_refusal {table : Table} {c : Control} {position : Nat} {found : Scanned}
    {e : Error} {x : String} (h : c.refusal? table position found = some e)
    (unbound : e.cause = .unbound x) : table.get? x = none := by
  cases found with
  | error r =>
    cases h
    cases unbound
  | ok t =>
    simp only [refusal?] at h
    split at h
    · cases h
    next refused =>
      cases h
      cases c with
      | target | equals | operator => cases unbound
      | operand y frames =>
        cases t with
        | mark | literal | invalid | endOfInput => cases unbound
        | name z =>
          cases unbound
          simpa [step?] using refused

/-- Every error is about what stands in the source at its position. -/
theorem interpret_error_fits {source : String} {e : Error} (h : interpret source = .error e) :
    ∃ taken left, e.Fits source taken left := by
  rw [interpret_eq_run] at h
  obtain ⟨ts, rest, table, c, scanned, steps, position, refused⟩ := refusal_of_run h
  have blames := blames_of_refusal refused
  obtain ⟨empty, last⟩ := found_iff_of_blames blames
  have plain := isPlain_of_scans scanned steps
  rw [Nat.zero_add] at position
  have size : e.position = (String.ofList (strip source)).utf8ByteSize ↔ rest = [] := by
    rw [scanned.utf8ByteSize_eq, position]
    simp
  refine ⟨ts, rest, ?_⟩
  exact {
    text := scanned.text_eq
    position := by rw [Token.utf8ByteSize_spelling, position]
    leading := by
      rw [TokenStream.ofSource, scanned.sequence_eq]
      exact List.prefix_append _ _
    aligned := by
      rw [position]
      exact scanned.tokenBoundary
    blames := blames
    empty_iff := empty
    end_iff := last.trans size.symm
    finished := exists_finishes steps
    unassigned := by
      intro x unbound ss finished s hs same
      have bound := (isSome_get?_iff_of_finishes steps finished x).2 ⟨s, hs, same⟩
      rw [get?_of_refusal refused unbound] at bound
      cases bound
    plain := plain
    characters := by rw [position, ← Token.utf8ByteSize_spelling, utf8ByteSize_of_isPlain plain] }

/-- The name is assigned nowhere before, and would be in the statement after it. -/
theorem interpret_unassigned_fits :
    interpret "a = 2; b = a * c; c = 1;" = .error ⟨8, .unbound "c"⟩ ∧
    ∃ taken left, Error.Fits ⟨8, .unbound "c"⟩ "a = 2; b = a * c; c = 1;" taken left := by
  have rejected : interpret "a = 2; b = a * c; c = 1;" = .error ⟨8, .unbound "c"⟩ := by
    decide +kernel
  exact ⟨rejected, interpret_error_fits rejected⟩

end StraightLine
