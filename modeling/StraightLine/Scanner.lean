import StraightLine.Error
import StraightLine.Token.Scan
set_option autoImplicit false

/-! # Scanners

A scanner hands out the tokens of a source one at a time. It can be asked for a token, which at the
end of the text is the end of the input again and again, or it can be stepped through like a list,
which ends at the end of the text and after the first rejected literal. Both ways share the place
in the text; only the second one looks at whether the scanner has halted. -/

namespace StraightLine

/-- The text still to be read, the offset of its first byte, and whether a rejected literal has
ended the list of tokens. -/
structure Scanner where
  rest : List Char
  offset : Nat
  halted : Bool
  deriving DecidableEq

abbrev Scanned :=
  Except RejectedLiteral Token

namespace Scanner

def ofSource (source : String) : Scanner :=
  ⟨strip source, 0, false⟩

/-- Reads a token. Neither the end of the text nor a rejected literal moves the scanner. -/
def nextToken (s : Scanner) : Scanned × Scanner :=
  match scan s.rest with
  | .endOfText => (.ok .endOfInput, s)
  | .token t rest => (.ok t, { s with rest, offset := s.offset + t.width })
  | .rejected fault digits => (.error ⟨s.offset, fault, digits⟩, s)

def next? (s : Scanner) : Option Scanned × Scanner :=
  if s.halted then (none, s)
  else match s.nextToken with
    | (.ok .endOfInput, s) => (none, s)
    | (.ok t, s) => (some (.ok t), s)
    | (.error r, s) => (some (.error r), { s with halted := true })

def pending (s : Scanner) : Nat :=
  if s.halted then 0 else s.rest.length + 1

theorem rest_length_lt_of_nextToken {s next : Scanner} {t : Token}
    (h : s.nextToken = (.ok t, next)) (ht : t ≠ .endOfInput) :
    next.rest.length < s.rest.length := by
  unfold nextToken at h
  split at h <;> cases h
  · exact absurd rfl ht
  · next hs => exact length_lt_of_scan hs

theorem halted_of_nextToken {s next : Scanner} {r : Scanned}
    (h : s.nextToken = (r, next)) : next.halted = s.halted := by
  unfold nextToken at h
  split at h <;> cases h <;> rfl

theorem pending_lt_of_next? {s next : Scanner} {r : Scanned}
    (h : s.next? = (some r, next)) : next.pending < s.pending := by
  unfold next? at h
  split at h
  · cases h
  next running =>
    split at h
    · cases h
    next t s' ht hs =>
      cases h
      have shorter := rest_length_lt_of_nextToken hs ht
      have same := halted_of_nextToken hs
      simp_all [pending]
    · cases h
      simp_all [pending]

def collect (s : Scanner) : List Scanned × Scanner :=
  match h : s.next? with
  | (none, last) => ([], last)
  | (some r, next) =>
    have := pending_lt_of_next? h
    let (more, last) := next.collect
    (r :: more, last)
termination_by s.pending

inductive Request where
  | token
  | step
  | drain
  /-- Step a copy of the scanner to the end. -/
  | drainCopy
  deriving DecidableEq

inductive Answer where
  | token (r : Scanned)
  | step (r : Option Scanned)
  | drained (rs : List Scanned)

def answer (s : Scanner) : Request → Answer × Scanner
  | .token => let (r, next) := s.nextToken; (.token r, next)
  | .step => let (r, next) := s.next?; (.step r, next)
  | .drain => let (rs, last) := s.collect; (.drained rs, last)
  | .drainCopy => (.drained s.collect.1, s)

def session (s : Scanner) : List Request → List (Answer × Nat)
  | [] => []
  | q :: qs =>
    let (a, next) := s.answer q
    (a, next.offset) :: next.session qs

end Scanner

end StraightLine
