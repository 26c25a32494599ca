import StraightLine.Proofs.ErrorReports
set_option autoImplicit false

/-! # Which tokens clash

A syntax error says what was required and which kind of token was there instead. Not every pair can
occur: where an operator may stand, a further sum or product is never refused; after a name there is
no further name and no literal, since those would belong to the name; and the end of the input is
never refused where a statement may begin. The pairs that are left all occur. -/

namespace StraightLine

open Control

/-- A syntax error without its texts. -/
inductive Clash where
  | unexpected (expected found : Kind)
  | operand (found : Kind)
  | unbound
  deriving DecidableEq

def Cause.clash? : Cause → Option Clash
  | literal _ _ => none
  | unexpected expected found _ => some (.unexpected expected found)
  | operand found _ => some (.operand found)
  | unbound _ => some .unbound

namespace Clash

/-- What can stand in the place of a kind of token that is required. -/
def inPlaceOf : Kind → List Kind
  | .name =>
    [.mark .assign, .mark .semicolon, .mark .plus, .mark .minus, .mark .star, .mark .leftParen,
     .mark .rightParen, .literal, .invalid]
  | .mark .assign =>
    [.mark .semicolon, .mark .plus, .mark .minus, .mark .star, .mark .leftParen, .mark .rightParen,
     .invalid, .endOfInput]
  | .mark .semicolon =>
    [.mark .assign, .mark .leftParen, .mark .rightParen, .name, .literal, .invalid, .endOfInput]
  | .mark .rightParen =>
    [.mark .assign, .mark .leftParen, .mark .semicolon, .name, .literal, .invalid, .endOfInput]
  | _ => []

def inPlaceOfOperand : List Kind :=
  [.mark .assign, .mark .semicolon, .mark .star, .mark .rightParen, .invalid, .endOfInput]

def Possible : Clash → Prop
  | unexpected expected found => found ∈ inPlaceOf expected
  | operand found => found ∈ inPlaceOfOperand
  | unbound => True

end Clash

namespace Control

theorem eq_name_of_step? {c : Control} {table table' : Table} {t : Token} {x : String}
    (h : c.step? table t = some (table', equals x)) : t = .name x := by
  have resumes (y : String) (v : Int64) (frames : List Frame) : resume y v frames ≠ equals x := by
    obtain ⟨total, outer, resumed, -⟩ := resume_eq_operator y v frames
    simp [resumed]
  revert h
  fun_cases step? table c t with
  | case1 y =>
    rintro ⟨⟩
    rfl
  | case3 y frames _ v =>
    intro h
    exact absurd (Prod.mk.inj (Option.some.inj h)).2 (resumes y v frames)
  | case4 y frames z =>
    intro h
    obtain ⟨v, -, same⟩ := Option.map_eq_some_iff.1 h
    exact absurd (Prod.mk.inj same).2 (resumes y v frames)
  | case11 y v frames total outer settled =>
    intro h
    exact absurd (Prod.mk.inj (Option.some.inj h)).2 (resumes y total outer)
  | case2 | case5 | case6 | case7 | case8 | case9 | case10 | case12 | case13 | case14 | case15 =>
    rintro ⟨⟩

end Control

/-- What follows a name begins neither a name nor a literal. -/
theorem not_worded_of_outside {offset : Nat} {text : List Char} {t : Token}
    (outside : Outside isNamePart text) (found : tokenAt offset text = .ok t) :
    t.kind ≠ .name ∧ t.kind ≠ .literal := by
  rw [← not_or]
  intro worded
  cases front : scan text with
  | endOfText =>
    rw [tokenAt_of_endOfText front] at found
    cases found
    simp [Token.kind] at worded
  | rejected fault digits =>
    rw [tokenAt_of_rejected front] at found
    cases found
  | token u rest =>
    rw [tokenAt_of_token front] at found
    cases found
    obtain ⟨wellFormed, -, rfl⟩ := scan_eq_token_iff.1 front
    cases text : t.lexeme.toList with
    | nil => simp [wellFormed.nonempty] at text
    | cons c cs =>
      have part := wellFormed.isNamePart worded c (by simp [text])
      rw [outside c (by simp [text])] at part
      cases part

theorem not_worded_of_equals {source : String} {ts : List Token} {rest : List Char} {offset : Nat}
    {table : Table} {x : String} {t : Token} (scanned : Scans (strip source) ts rest)
    (steps : steps? .empty target ts = some (table, equals x))
    (found : tokenAt offset rest = .ok t) : t.kind ≠ .name ∧ t.kind ≠ .literal := by
  rcases List.eq_nil_or_concat ts with rfl | ⟨before, u, rfl⟩
  · cases steps
  · rw [List.concat_eq_append] at scanned steps
    rw [steps?_append] at steps
    obtain ⟨between, -, last⟩ := Option.bind_eq_some_iff.1 steps
    rw [steps?_singleton] at last
    obtain rfl := eq_name_of_step? last
    obtain ⟨mid, -, ending⟩ := scanned.split
    cases ending with
    | cons name more =>
      cases more
      exact not_worded_of_outside (wellFormed_of_scan name).2 found

namespace Control

theorem possible_of_target {table : Table} {t : Token} (refused : target.step? table t = none)
    (unfinished : t ≠ .endOfInput) : (Clash.unexpected .name t.kind).Possible := by
  cases t with
  | mark m => cases m <;> simp [Clash.Possible, Clash.inPlaceOf, Token.kind]
  | name x => cases refused
  | literal | invalid => simp [Clash.Possible, Clash.inPlaceOf, Token.kind]
  | endOfInput => exact absurd rfl unfinished

theorem possible_of_equals {table : Table} {x : String} {t : Token}
    (refused : (equals x).step? table t = none) (name : t.kind ≠ .name)
    (literal : t.kind ≠ .literal) : (Clash.unexpected (.mark .assign) t.kind).Possible := by
  cases t with
  | mark m =>
    cases m with
    | assign => cases refused
    | semicolon | plus | minus | star | leftParen | rightParen =>
      simp [Clash.Possible, Clash.inPlaceOf, Token.kind]
  | name y => exact absurd rfl name
  | literal digits v => exact absurd rfl literal
  | invalid | endOfInput => simp [Clash.Possible, Clash.inPlaceOf, Token.kind]

theorem possible_of_operand {table : Table} {x : String} {frames : List Frame} {t : Token}
    {k : Clash} (refused : (operand x frames).step? table t = none)
    (clash : ((operand x frames).complaint t).clash? = some k) : k.Possible := by
  cases t with
  | mark m =>
    cases m with
    | plus | minus | leftParen => cases refused
    | assign | semicolon | star | rightParen =>
      cases clash
      simp [Clash.Possible, Clash.inPlaceOfOperand, Token.kind]
  | name y =>
    cases clash
    trivial
  | literal digits v => cases refused
  | invalid | endOfInput =>
    cases clash
    simp [Clash.Possible, Clash.inPlaceOfOperand, Token.kind]

/-- Inside a group a parenthesis closes it, and outside of all groups a semicolon ends the
statement. -/
theorem isSome_step?_closing (table : Table) (x : String) (v : Int64) (frames : List Frame) :
    ((operator x v frames).step? table
      (.mark (if .group ∈ frames then .rightParen else .semicolon))).isSome = true := by
  split
  next inside =>
    obtain ⟨n, count⟩ := Nat.exists_eq_add_of_lt (List.count_pos_iff.2 inside)
    rw [Nat.zero_add] at count
    obtain ⟨total, outer, settled, -⟩ := settle_eq_group v count
    simp [step?, settled]
  next outside =>
    obtain ⟨total, settled⟩ := settle_eq_nil v (List.count_eq_zero.2 outside)
    simp [step?, settled]

theorem possible_of_operator {table : Table} {x : String} {v : Int64} {frames : List Frame}
    {t : Token} {k : Clash} (refused : (operator x v frames).step? table t = none)
    (clash : ((operator x v frames).complaint t).clash? = some k) : k.Possible := by
  have closing := isSome_step?_closing table x v frames
  cases clash
  cases t with
  | mark m =>
    cases m with
    | plus | minus | star => cases refused
    | assign | leftParen => split <;> simp [Clash.Possible, Clash.inPlaceOf, Token.kind]
    | rightParen =>
      split
      next inside =>
        rw [if_pos inside, refused] at closing
        cases closing
      next outside => simp [Clash.Possible, Clash.inPlaceOf, Token.kind]
    | semicolon =>
      split
      next inside => simp [Clash.Possible, Clash.inPlaceOf, Token.kind]
      next outside =>
        rw [if_neg outside, refused] at closing
        cases closing
  | name | literal | invalid | endOfInput =>
    split <;> simp [Clash.Possible, Clash.inPlaceOf, Token.kind]

end Control

theorem possible_of_interpret {source : String} {e : Error} {k : Clash}
    (h : interpret source = .error e) (clash : e.cause.clash? = some k) : k.Possible := by
  rw [interpret_eq_run] at h
  obtain ⟨ts, rest, table, c, scanned, steps, -, refused⟩ := refusal_of_run h
  cases found : tokenAt e.position rest with
  | error r =>
    rw [found] at refused
    cases refused
    cases clash
  | ok t =>
    rw [found, refusal?] at refused
    split at refused
    · cases refused
    next unfit =>
      obtain ⟨untaken, unfinished⟩ := not_or.1 unfit
      have untaken : c.step? table t = none := by simpa using untaken
      have cause : e.cause = c.complaint t :=
        (congrArg Error.cause (Option.some.inj refused)).symm
      rw [cause] at clash
      cases c with
      | target =>
        cases clash
        exact possible_of_target untaken fun last => unfinished ⟨last, rfl⟩
      | equals x =>
        obtain ⟨name, literal⟩ := not_worded_of_equals scanned steps found
        cases clash
        exact possible_of_equals untaken name literal
      | operand x frames => exact possible_of_operand untaken clash
      | operator x v frames => exact possible_of_operator untaken clash

def Kind.sample : Kind → String
  | mark m => String.singleton m.char
  | name => "y"
  | literal => "2"
  | invalid => "!"
  | endOfInput => ""

namespace Clash

def opening : Clash → String
  | unexpected .name _ => ""
  | unexpected (.mark .assign) _ => "x"
  | unexpected (.mark .semicolon) _ => "x=(1)"
  | unexpected _ _ => "x=((1)"
  | operand _ => "x="
  | unbound => "x="

def found : Clash → Kind
  | unexpected _ found => found
  | operand found => found
  | unbound => .name

def sample (k : Clash) : String :=
  k.opening ++ k.found.sample

def ofSource? (source : String) : Option Clash :=
  match interpret source with
  | .ok _ => none
  | .error e => e.cause.clash?

theorem ofSource?_sample {k : Clash} (h : k.Possible) : ofSource? k.sample = some k := by
  have each (kinds : List Kind) (clash : Kind → Clash)
      (all : kinds.all (fun found => ofSource? (clash found).sample = some (clash found)) = true)
      (found : Kind) (member : found ∈ kinds) :
      ofSource? (clash found).sample = some (clash found) :=
    of_decide_eq_true (List.all_eq_true.1 all found member)
  cases k with
  | unexpected expected found =>
    cases expected with
    | mark m => cases m <;> exact each _ (.unexpected (.mark _)) (by decide +kernel) found h
    | name => exact each _ (.unexpected .name) (by decide +kernel) found h
    | literal | invalid | endOfInput => cases h
  | operand found => exact each _ .operand (by decide +kernel) found h
  | unbound => decide +kernel

end Clash

/-- The syntax errors that programs are rejected with are those of the table, no more and no
less. -/
theorem clash_possible_iff (k : Clash) :
    k.Possible ↔ ∃ source e, interpret source = .error e ∧ e.cause.clash? = some k := by
  constructor
  · intro possible
    have sample := Clash.ofSource?_sample possible
    unfold Clash.ofSource? at sample
    split at sample
    · cases sample
    next e rejected => exact ⟨k.sample, e, rejected, sample⟩
  · rintro ⟨source, e, rejected, clash⟩
    exact possible_of_interpret rejected clash

end StraightLine
