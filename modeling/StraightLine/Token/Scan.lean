import StraightLine.Token.Basic
set_option autoImplicit false

namespace StraightLine

/-- Inclusive ranges of code points that are blank: the space characters, the line and paragraph
breaks except the control character `U+0085`, and the byte order mark. -/
def blankRanges : List (Nat × Nat) :=
  [(0x0009, 0x000D), (0x0020, 0x0020), (0x00A0, 0x00A0), (0x1680, 0x1680), (0x2000, 0x200A),
   (0x2028, 0x2029), (0x202F, 0x202F), (0x205F, 0x205F), (0x3000, 0x3000), (0xFEFF, 0xFEFF)]

def isBlank (c : Char) : Bool :=
  blankRanges.any fun (lo, hi) => lo ≤ c.toNat && c.toNat ≤ hi

def isBlankCode? (code : Int) : Option Bool :=
  if 0 ≤ code ∧ code.toNat.isValidChar then some (isBlank (Char.ofNat code.toNat)) else none

def blankCodes : List Nat :=
  blankRanges.flatMap fun (lo, hi) => List.range' lo (hi + 1 - lo)

def blanksBetween (lo hi : Int) : List Nat :=
  blankCodes.filter fun code => lo ≤ code ∧ code ≤ hi

/-- The characters that are read. A blank separates nothing: `ab c` is the one name `abc`. -/
def strip (source : String) : List Char :=
  source.toList.filter (!isBlank ·)

theorem strip_append (s t : String) : strip (s ++ t) = strip s ++ strip t := by
  simp [strip]

theorem isBlank_eq_false_of_mem_strip {c : Char} {source : String} (h : c ∈ strip source) :
    isBlank c = false := by
  simpa using (List.mem_filter.1 h).2

def isNameStart (c : Char) : Bool :=
  c.isAlpha || c == '_'

def isNamePart (c : Char) : Bool :=
  c.isAlphanum || c == '_'

/-- What stands at the front of a text: nothing, a token and what follows it, or a run of digits
that is no literal. -/
inductive Scan where
  | endOfText
  | token (t : Token) (rest : List Char)
  | rejected (fault : Numeral.Fault) (digits : String)
  deriving DecidableEq

def Scan.literal (run rest : List Char) : Scan :=
  match Numeral.read run with
  | .ok v => .token (.literal (String.ofList run) v) rest
  | .error fault => .rejected fault (String.ofList run)

/-- Reads the longest token at the front of a text that has no blanks. -/
def scan : List Char → Scan
  | [] => .endOfText
  | c :: cs =>
    match Mark.ofChar? c with
    | some m => .token (.mark m) cs
    | none =>
      if isNameStart c then
        .token (.name (String.ofList (c :: cs.takeWhile isNamePart))) (cs.dropWhile isNamePart)
      else if c.isDigit then
        .literal (c :: cs.takeWhile Char.isDigit) (cs.dropWhile Char.isDigit)
      else .token (.invalid c) cs

@[simp] theorem scan_nil : scan [] = .endOfText := rfl

theorem scan_eq_endOfText_iff {text : List Char} : scan text = .endOfText ↔ text = [] := by
  cases text with
  | nil => simp
  | cons c cs =>
    simp only [scan, Scan.literal]
    split
    · simp
    · split
      · simp
      · split
        · split <;> simp
        · simp

theorem lexeme_append_of_scan {text rest : List Char} {t : Token}
    (h : scan text = .token t rest) : t.lexeme.toList ++ rest = text := by
  cases text with
  | nil => simp at h
  | cons c cs =>
    simp only [scan, Scan.literal] at h
    split at h
    next m hm =>
      cases h
      simp [Token.lexeme, Mark.ofChar?_eq_some_iff.1 hm]
    · split at h
      · cases h
        simp [Token.lexeme]
      · split at h
        · split at h <;> cases h
          simp [Token.lexeme]
        · cases h
          simp [Token.lexeme]

theorem ne_endOfInput_of_scan {text rest : List Char} {t : Token}
    (h : scan text = .token t rest) : t ≠ .endOfInput := by
  rintro rfl
  cases text with
  | nil => simp at h
  | cons c cs =>
    simp only [scan, Scan.literal] at h
    split at h
    · cases h
    · split at h
      · cases h
      · split at h
        · split at h <;> cases h
        · cases h

theorem length_lt_of_scan {text rest : List Char} {t : Token}
    (h : scan text = .token t rest) : rest.length < text.length := by
  cases text with
  | nil => simp at h
  | cons c cs =>
    simp only [scan, Scan.literal] at h
    have names := (List.dropWhile_sublist (l := cs) isNamePart).length_le
    have digits := (List.dropWhile_sublist (l := cs) Char.isDigit).length_le
    split at h
    · cases h
      simp
    · split at h
      · cases h
        simpa [Nat.lt_succ_iff] using names
      · split at h
        · split at h <;> cases h
          simpa [Nat.lt_succ_iff] using digits
        · cases h
          simp

end StraightLine
