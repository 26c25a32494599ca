import StraightLine.Machine
set_option autoImplicit false

/-! # Evaluation

Statements are read and carried out in one pass over the tokens.

    program   := statement*
    statement := name '=' expression ';'
    expression := term (('+' | '-') term)*
    term      := factor ('*' factor)*
    factor    := literal | name | ('+' | '-') factor | '(' expression ')'

Arithmetic is that of 64-bit words and wraps around. A name has to have a value when it is read.
Every rule looks at the current token only, so an error is at the first token that no program
begun in the same way could have there. -/

namespace StraightLine

namespace Machine

mutual

def factor (m : Machine) : Step m.remaining Int64 :=
  match h : m.current with
  | .literal _ value => (m.advance (by simp [h])).map fun _ => value
  | .name name =>
    match m.table.get? name with
    | some value => (m.advance (by simp [h])).map fun _ => value
    | none => .error ⟨m.position, .unbound name⟩ m
  | .mark .plus => (m.advance (by simp [h])).andThen fun _ n _ => n.factor
  | .mark .minus => ((m.advance (by simp [h])).andThen fun _ n _ => n.factor).map fun value => -value
  | .mark .leftParen =>
    (m.advance (by simp [h])).andThen fun _ n _ =>
      n.expression.andThen fun value n _ =>
        (n.expect .rightParen).map fun _ => value
  | t => .error ⟨m.position, .operand t.kind t.lexeme⟩ m
termination_by 3 * m.remaining

/-- The product of the factors that follow the first one, taken up from `product`. -/
def termTail (m : Machine) (product : Int64) : Step (m.remaining + 1) Int64 :=
  if h : m.current = .mark .star then
    ((m.advance (by simp [h])).andThen fun _ n _ =>
      n.factor.followedBy fun value n _ => n.termTail (product * value)).weaken
  else .ok product m (Nat.lt_succ_self _)
termination_by 3 * m.remaining

def term (m : Machine) : Step m.remaining Int64 :=
  m.factor.followedBy fun value n _ => (n.termTail 1).map fun product => value * product
termination_by 3 * m.remaining + 1

/-- The sum of the signed terms that follow the first one, taken up from `sum`. -/
def expressionTail (m : Machine) (sum : Int64) : Step (m.remaining + 1) Int64 :=
  if h : m.current = .mark .plus then
    ((m.advance (by simp [h])).andThen fun _ n _ =>
      n.term.followedBy fun value n _ => n.expressionTail (sum + value)).weaken
  else if h : m.current = .mark .minus then
    ((m.advance (by simp [h])).andThen fun _ n _ =>
      n.term.followedBy fun value n _ => n.expressionTail (sum + -value)).weaken
  else .ok sum m (Nat.lt_succ_self _)
termination_by 3 * m.remaining

def expression (m : Machine) : Step m.remaining Int64 :=
  m.term.followedBy fun value n _ => (n.expressionTail 0).map fun sum => value + sum
termination_by 3 * m.remaining + 2

end

/-- Reads and carries out one statement. The value is stored after the token that follows the
semicolon has been read, so a literal rejected there leaves the table as it was. -/
def statement (m : Machine) : Step m.remaining Unit :=
  match h : m.current with
  | .name name =>
    (m.advance (by simp [h])).andThen fun _ n _ =>
      (n.expect .assign).andThen fun _ n _ =>
        n.expression.andThen fun value n _ =>
          (n.expect .semicolon).followedBy fun _ n _ =>
            .ok () (n.assign name value) (Nat.lt_succ_self _)
  | _ => m.unexpected .name

def run (m : Machine) : Run :=
  if m.current = .endOfInput then ⟨.ok m.table, m.log.reverse⟩
  else match m.statement with
    | .ok () next _ => next.run
    | .error e last => ⟨.error e, last.log.reverse⟩
termination_by m.remaining

end Machine

def Run.ofStream (stream : TokenStream) : Run :=
  match Machine.start stream with
  | .ok m => m.run
  | .error literal => ⟨.error literal.toError, []⟩

def Run.ofSource (source : String) : Run :=
  ofStream (.ofSource source)

/-- The table that a program leaves, or why it is rejected. -/
def interpret (source : String) : Except Error Table :=
  (Run.ofSource source).outcome

def trace (source : String) : List Event :=
  (Run.ofSource source).trace

end StraightLine
