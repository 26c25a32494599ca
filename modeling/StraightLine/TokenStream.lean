import StraightLine.Error
import StraightLine.Token.Scan
set_option autoImplicit false

namespace StraightLine

inductive TokenStream where
  | finish (position : Nat)
  | rejected (literal : RejectedLiteral)
  | token (position : Nat) (t : Token) (rest : TokenStream)
  deriving DecidableEq

namespace TokenStream

def length : TokenStream → Nat
  | finish _ => 0
  | rejected _ => 0
  | token _ _ rest => rest.length + 1

def tokens : TokenStream → List (Nat × Token)
  | finish _ => []
  | rejected _ => []
  | token position t rest => (position, t) :: rest.tokens

def fault? : TokenStream → Option RejectedLiteral
  | finish _ => none
  | rejected literal => some literal
  | token _ _ rest => rest.fault?

def ofText (offset : Nat) (text : List Char) : TokenStream :=
  match h : scan text with
  | .endOfText => finish offset
  | .rejected fault digits => rejected ⟨offset, fault, digits⟩
  | .token t rest =>
    have := length_lt_of_scan h
    token offset t (ofText (offset + t.width) rest)
termination_by text.length

def ofSource (source : String) : TokenStream :=
  ofText 0 (strip source)

theorem ofText_nil (offset : Nat) : ofText offset [] = finish offset := by
  rw [ofText]
  rfl

theorem ofText_of_token {offset : Nat} {text rest : List Char} {t : Token}
    (h : scan text = .token t rest) :
    ofText offset text = token offset t (ofText (offset + t.width) rest) := by
  rw [ofText]
  split <;> simp_all

theorem ofText_of_rejected {offset : Nat} {text : List Char} {fault : Numeral.Fault}
    {digits : String} (h : scan text = .rejected fault digits) :
    ofText offset text = rejected ⟨offset, fault, digits⟩ := by
  rw [ofText]
  split <;> simp_all

end TokenStream

end StraightLine
