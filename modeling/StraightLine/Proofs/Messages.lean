import StraightLine.Proofs.StatementEffects
set_option autoImplicit false

/-! # What a message tells

The texts that a message quotes are arbitrary and are quoted as they stand, so one of them may look
like the rest of another message. A message can be read back all the same. It is taken apart from
the front: of the wordings that can stand in one place none begins another one, and a position ends
at the first character that is no digit. After that comes at most one quoted text, and what follows
it is known by then, except after a rejected literal, where the last letter tells it. -/

namespace StraightLine

/-- Each of the texts can be cut off from whatever follows it. -/
def PrefixFree {α : Type} (text : α → String) : Prop :=
  ∀ {a b : α} {rest rest' : String}, text a ++ rest = text b ++ rest' → a = b ∧ rest = rest'

theorem prefixFree_of_prefix {α : Type} {text : α → String}
    (h : ∀ a b, (text a).toList <+: (text b).toList → a = b) : PrefixFree text := by
  intro a b rest rest' same
  have front : (text a).toList <+: (text b).toList ++ rest'.toList := by
    rw [← String.toList_append, ← same, String.toList_append]
    exact List.prefix_append _ _
  obtain rfl : a = b := by
    rcases List.prefix_or_prefix_of_prefix front (List.prefix_append _ _) with first | second
    · exact h a b first
    · exact (h b a second).symm
  exact ⟨rfl, (String.append_right_inj _).1 same⟩

theorem Mark.char_injective {m m' : Mark} (h : m.char = m'.char) : m = m' := by
  have same := congrArg ofChar? h
  simpa using same

theorem Phase.prefixFree_heading : PrefixFree heading := by
  apply prefixFree_of_prefix
  intro a b front
  cases a <;> cases b <;> revert front <;> decide

theorem Kind.prefixFree_description : PrefixFree description := by
  apply prefixFree_of_prefix
  intro a b front
  cases a with
  | mark m =>
    cases b with
    | mark m' =>
      have same : m.char = m'.char := by simpa [description] using front
      rw [Mark.char_injective same]
    | name | literal | invalid | endOfInput => simp [description] at front
  | name | literal | invalid | endOfInput =>
    cases b with
    | mark m' => simp [description] at front
    | name | literal | invalid | endOfInput =>
      revert front
      decide

theorem prefixFree_position : PrefixFree fun position : Nat => toString position ++ ": " := by
  intro n n' rest rest' same
  have digits (n : Nat) : ':' ∉ (toString n).toList := by
    intro inside
    rw [Nat.toString_eq_repr, Nat.toList_repr] at inside
    have digit := Nat.isDigit_of_mem_toDigits (by omega) (by omega) inside
    revert digit
    decide
  have text := congrArg String.toList same
  simp only [String.toList_append, List.append_assoc] at text
  obtain ⟨position, more⟩ := cut_unique (digits n) (digits n') text
  refine ⟨Nat.repr_injective (String.toList_inj.1 position), ?_⟩
  exact String.toList_inj.1 (List.cons.inj more).2

namespace Cause

def demand : Option Kind → String
  | some expected => expected.description
  | none => "an operand"

theorem operand_ne_description (k : Kind) (rest rest' : String) :
    "an operand" ++ rest ≠ k.description ++ rest' := by
  intro same
  have first := congrArg (·.toList.head?) same
  cases k <;> simp [Kind.description] at first

theorem prefixFree_demand : PrefixFree demand := by
  intro a b rest rest' same
  cases a with
  | some k =>
    cases b with
    | some k' =>
      obtain ⟨rfl, more⟩ := Kind.prefixFree_description same
      exact ⟨rfl, more⟩
    | none => exact absurd same.symm (operand_ne_description k rest' rest)
  | none =>
    cases b with
    | some k' => exact absurd same (operand_ne_description k' rest rest')
    | none => exact ⟨rfl, (String.append_right_inj _).1 same⟩

def quotation (lexeme : String) : String :=
  if lexeme.isEmpty then "" else " `" ++ lexeme ++ "`"

theorem foundText_eq (found : Kind) (lexeme : String) :
    foundText found lexeme = found.description ++ quotation lexeme := by
  unfold foundText quotation
  split <;> simp [String.append_assoc]

theorem quotation_injective {lexeme lexeme' : String} (h : quotation lexeme = quotation lexeme') :
    lexeme = lexeme' := by
  have shown (lexeme : String) : " `" ++ lexeme ++ "`" ≠ "" := by simp
  unfold quotation at h
  split at h <;> split at h
  next empty empty' => rw [String.isEmpty_iff.1 empty, String.isEmpty_iff.1 empty']
  · exact absurd h.symm (shown lexeme')
  · exact absurd h (shown lexeme)
  · exact (String.append_right_inj _).1 ((String.append_left_inj _).1 h)

theorem refusal_injective {required required' : Option Kind} {found found' : Kind}
    {lexeme lexeme' : String}
    (h : demand required ++ (", found " ++ foundText found lexeme) =
      demand required' ++ (", found " ++ foundText found' lexeme')) :
    required = required' ∧ found = found' ∧ lexeme = lexeme' := by
  obtain ⟨rfl, more⟩ := prefixFree_demand h
  have texts := (String.append_right_inj _).1 more
  rw [foundText_eq, foundText_eq] at texts
  obtain ⟨rfl, quoted⟩ := Kind.prefixFree_description texts
  exact ⟨rfl, rfl, quotation_injective quoted⟩

end Cause

def Numeral.Fault.ending : Numeral.Fault → String
  | leadingZero => "` has a leading zero"
  | tooLarge => "` is too large"

/-- The last letter tells the faults of a literal apart, and the rest is the literal. -/
theorem Numeral.Fault.ending_injective {fault fault' : Numeral.Fault} {digits digits' : String}
    (h : digits ++ fault.ending = digits' ++ fault'.ending) :
    fault = fault' ∧ digits = digits' := by
  have last (digits : String) (fault : Numeral.Fault) :
      (digits ++ fault.ending).toList.getLast? = fault.ending.toList.getLast? := by
    rw [String.toList_append, List.getLast?_append]
    cases fault <;> rfl
  obtain rfl : fault = fault' := by
    have letters : fault.ending.toList.getLast? = fault'.ending.toList.getLast? := by
      rw [← last digits, h, last digits']
    cases fault <;> cases fault' <;> revert letters <;> decide
  exact ⟨rfl, (String.append_left_inj _).1 h⟩

namespace Cause

inductive Topic where
  | literal
  | refusal
  | name
  deriving DecidableEq

def Topic.opening : Topic → String
  | literal => "integer literal `"
  | refusal => "expected "
  | name => "unknown variable `"

theorem Topic.prefixFree_opening : PrefixFree opening := by
  apply prefixFree_of_prefix
  intro a b front
  cases a <;> cases b <;> revert front <;> decide

def topic : Cause → Topic
  | literal _ _ => .literal
  | unexpected _ _ _ => .refusal
  | operand _ _ => .refusal
  | unbound _ => .name

def particulars : Cause → String
  | literal fault digits => digits ++ fault.ending
  | unexpected expected found lexeme =>
    demand (some expected) ++ (", found " ++ foundText found lexeme)
  | operand found lexeme => demand none ++ (", found " ++ foundText found lexeme)
  | unbound name => name ++ "`"

theorem description_eq (c : Cause) : c.description = c.topic.opening ++ c.particulars := by
  cases c with
  | literal fault digits => cases fault <;> exact String.append_assoc ..
  | unexpected expected found lexeme =>
    change "expected " ++ expected.description ++ ", found " ++ foundText found lexeme =
      "expected " ++ (expected.description ++ (", found " ++ foundText found lexeme))
    rw [String.append_assoc, String.append_assoc]
  | operand found lexeme =>
    have words : "expected an operand, found " = "expected " ++ ("an operand" ++ ", found ") := by
      decide
    change "expected an operand, found " ++ foundText found lexeme =
      "expected " ++ ("an operand" ++ (", found " ++ foundText found lexeme))
    rw [words, String.append_assoc, String.append_assoc]
  | unbound name => exact String.append_assoc ..

theorem description_injective {c c' : Cause} (h : c.description = c'.description) : c = c' := by
  rw [description_eq, description_eq] at h
  obtain ⟨topic, rest⟩ := Topic.prefixFree_opening h
  cases c with
  | literal fault digits =>
    cases c' with
    | literal fault' digits' =>
      obtain ⟨rfl, rfl⟩ := Numeral.Fault.ending_injective rest
      rfl
    | unexpected | operand | unbound => cases topic
  | unexpected expected found lexeme =>
    cases c' with
    | unexpected expected' found' lexeme' =>
      obtain ⟨⟨⟩, rfl, rfl⟩ := refusal_injective rest
      rfl
    | operand found' lexeme' => cases (refusal_injective rest).1
    | literal | unbound => cases topic
  | operand found lexeme =>
    cases c' with
    | operand found' lexeme' =>
      obtain ⟨-, rfl, rfl⟩ := refusal_injective rest
      rfl
    | unexpected expected' found' lexeme' => cases (refusal_injective rest).1
    | literal | unbound => cases topic
  | unbound name =>
    cases c' with
    | unbound name' => rw [(String.append_left_inj _).1 rest]
    | literal | unexpected | operand => cases topic

end Cause

namespace Error

theorem message_eq (e : Error) :
    e.message = e.cause.phase.heading ++ ("at offset " ++
      ((toString e.position ++ ": ") ++ (e.cause.description ++ "."))) := by
  rw [message, detail]
  simp only [String.append_assoc]

/-- Different errors have different messages, whatever the texts in them. -/
theorem message_eq_iff (e f : Error) : e.message = f.message ↔ e = f := by
  constructor
  · intro same
    rw [message_eq, message_eq] at same
    obtain ⟨-, afterHeading⟩ := Phase.prefixFree_heading same
    have afterOffset := (String.append_right_inj _).1 afterHeading
    obtain ⟨position, afterPosition⟩ := prefixFree_position afterOffset
    have cause := Cause.description_injective ((String.append_left_inj _).1 afterPosition)
    cases e
    cases f
    rw [Error.mk.injEq]
    exact ⟨position, cause⟩
  · rintro rfl
    rfl

end Error

end StraightLine
