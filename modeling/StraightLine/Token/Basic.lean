set_option autoImplicit false

namespace StraightLine

inductive Mark where
  | assign
  | semicolon
  | plus
  | minus
  | star
  | leftParen
  | rightParen
  deriving DecidableEq

namespace Mark

def char : Mark → Char
  | assign => '='
  | semicolon => ';'
  | plus => '+'
  | minus => '-'
  | star => '*'
  | leftParen => '('
  | rightParen => ')'

def ofChar? : Char → Option Mark
  | '=' => some assign
  | ';' => some semicolon
  | '+' => some plus
  | '-' => some minus
  | '*' => some star
  | '(' => some leftParen
  | ')' => some rightParen
  | _ => none

@[simp] theorem ofChar?_char (m : Mark) : ofChar? m.char = some m := by
  cases m <;> rfl

theorem ofChar?_eq_some_iff {c : Char} {m : Mark} : ofChar? c = some m ↔ m.char = c := by
  refine ⟨fun h => ?_, fun h => h ▸ ofChar?_char m⟩
  unfold ofChar? at h
  split at h <;> cases h <;> rfl

end Mark

inductive Kind where
  | mark (m : Mark)
  | name
  | literal
  | invalid
  | endOfInput
  deriving DecidableEq

/-- How messages speak of a kind: a mark is quoted, the others are described. -/
def Kind.description : Kind → String
  | mark m => "`" ++ String.singleton m.char ++ "`"
  | name => "identifier"
  | literal => "integer literal"
  | invalid => "invalid character"
  | endOfInput => "end of input"

/-- How events speak of a kind. -/
def Kind.label : Kind → String
  | mark .assign => "Assign"
  | mark .semicolon => "Semicolon"
  | mark .plus => "Plus"
  | mark .minus => "Minus"
  | mark .star => "Star"
  | mark .leftParen => "LParen"
  | mark .rightParen => "RParen"
  | name => "Identifier"
  | literal => "IntegerLiteral"
  | invalid => "Invalid"
  | endOfInput => "EndOfInput"

inductive Token where
  | mark (m : Mark)
  | name (text : String)
  | literal (digits : String) (value : Int64)
  | invalid (c : Char)
  | endOfInput
  deriving DecidableEq

namespace Token

def kind : Token → Kind
  | mark m => .mark m
  | name _ => .name
  | literal _ _ => .literal
  | invalid _ => .invalid
  | endOfInput => .endOfInput

def lexeme : Token → String
  | mark m => String.singleton m.char
  | name text => text
  | literal digits _ => digits
  | invalid c => String.singleton c
  | endOfInput => ""

def value? : Token → Option Int64
  | literal _ v => some v
  | _ => none

def width (t : Token) : Nat :=
  t.lexeme.utf8ByteSize

theorem value?_isSome_iff (t : Token) : t.value?.isSome ↔ t.kind = .literal := by
  cases t <;> simp [value?, kind]

theorem kind_eq_endOfInput_iff {t : Token} : t.kind = .endOfInput ↔ t = endOfInput := by
  cases t <;> simp [kind]

end Token

namespace Numeral

inductive Fault where
  | leadingZero
  | tooLarge
  deriving DecidableEq

def limit : Nat :=
  Nat.pow 2 63

def value (digits : List Char) : Nat :=
  digits.foldl (fun n c => 10 * n + (c.toNat - '0'.toNat)) 0

def hasLeadingZero : List Char → Bool
  | '0' :: _ :: _ => true
  | _ => false

/-- A leading zero is tested first, so it is the reported fault of a run with both. -/
def read (digits : List Char) : Except Fault Int64 :=
  if hasLeadingZero digits then .error .leadingZero
  else if value digits < limit then .ok (Int64.ofNat (value digits))
  else .error .tooLarge

theorem read_eq_leadingZero_iff {digits : List Char} :
    read digits = .error .leadingZero ↔ hasLeadingZero digits = true := by
  unfold read
  split
  · simp_all
  · split <;> simp_all

theorem read_eq_tooLarge_iff {digits : List Char} :
    read digits = .error .tooLarge ↔ hasLeadingZero digits = false ∧ limit ≤ value digits := by
  unfold read
  split
  · simp_all
  · split <;> simp_all

theorem read_eq_ok_iff {digits : List Char} {v : Int64} :
    read digits = .ok v ↔
      hasLeadingZero digits = false ∧ value digits < limit ∧ Int64.ofNat (value digits) = v := by
  unfold read
  split
  · simp_all
  · split <;> simp [*]

end Numeral

end StraightLine
