import StraightLine.Proofs.CompletedStatements
import StraightLine.Proofs.Completion
set_option autoImplicit false

namespace StraightLine

open Control Grammar

def Error.placed (base : Nat) (e : Error) : Error :=
  { e with position := base + e.position }

def TokenStream.placed (base : Nat) : TokenStream → TokenStream
  | finish position => finish (base + position)
  | rejected literal => rejected { literal with position := base + literal.position }
  | token position t rest => token (base + position) t (rest.placed base)

theorem TokenStream.ofText_placed (base offset : Nat) (text : List Char) :
    ofText (base + offset) text = (ofText offset text).placed base := by
  fun_induction ofText offset text with
  | case1 offset text found =>
    rw [scan_eq_endOfText_iff.1 found, ofText_nil]
    rfl
  | case2 offset text fault digits found =>
    rw [ofText_of_rejected found]
    rfl
  | case3 offset text t rest found _ ih =>
    rw [ofText_of_token found, Nat.add_assoc, ih]
    rfl

theorem Control.finish_placed (c : Control) (table : Table) (base position : Nat) :
    c.finish table (base + position) = (c.finish table position).mapError (.placed base) := by
  cases c <;> rfl

/-- Positions decide nothing: they are only carried into the error. -/
theorem Control.run_placed (c : Control) (table : Table) (s : TokenStream) (base : Nat) :
    c.run table (s.placed base) = (c.run table s).mapError (.placed base) := by
  induction s generalizing c table with
  | finish position => exact c.finish_placed table base position
  | rejected r => rfl
  | token position t rest ih =>
    rw [TokenStream.placed, Control.run, Control.run]
    split
    · exact c.finish_placed table base position
    · cases c.step? table t with
      | none => rfl
      | some next => exact ih next.2 next.1

theorem Scans.append_of_mark {text : List Char} {ts : List Token} {m : Mark}
    (h : Scans text (ts ++ [.mark m]) []) (other : List Char) :
    Scans (text ++ other) (ts ++ [.mark m]) other := by
  obtain ⟨mid, first, last⟩ := h.split
  obtain rfl : mid = [m.char] := by simpa [Token.lexeme] using last.text_eq
  have front : [m.char].head? = (m.char :: other).head? := rfl
  have kept := first.change fun k => (Kind.endsBefore_congr front).1
  have text_eq : text ++ other = Token.spelling ts ++ m.char :: other := by
    rw [first.text_eq, List.append_assoc]
    rfl
  rw [text_eq]
  exact kept.trans (.cons (scan_mark m other) (.nil other))

theorem scans_program {source : String} {ss : List Statement}
    (literals : (TokenStream.ofSource source).fault? = none)
    (derived : Program (TokenStream.ofSource source).sequence ss) (other : List Char) :
    Scans (strip source ++ other) (TokenStream.ofSource source).sequence other := by
  obtain ⟨rest, scanned, stops⟩ := scans_sequence 0 (strip source)
  change StopsAt _ rest (TokenStream.ofSource source).fault? at stops
  rw [literals] at stops
  obtain rfl : rest = [] := stops
  change Scans _ (TokenStream.ofSource source).sequence _ at scanned
  rcases derived.nil_or_semicolon with none | ⟨front, ends⟩
  · rw [none] at scanned ⊢
    rw [scanned.text_eq]
    exact .nil other
  · rw [ends] at scanned ⊢
    exact scanned.append_of_mark other

theorem scans_append {source : String} {table : Table} (h : interpret source = .ok table)
    (other : List Char) :
    Scans (strip source ++ other) (TokenStream.ofSource source).sequence other := by
  obtain ⟨literals, ss, derived, -⟩ := program_of_interpret h
  exact scans_program literals derived other

def interpretFrom (table : Table) (source : String) : Except Error Table :=
  target.run table (.ofSource source)

theorem interpretFrom_append {source : String} {ss : List Statement} {table next : Table}
    (literals : (TokenStream.ofSource source).fault? = none)
    (derived : Program (TokenStream.ofSource source).sequence ss)
    (executed : Statement.executeAll table ss = some next) (other : String) :
    interpretFrom table (source ++ other) = (interpretFrom next other).mapError
      (.placed (String.ofList (strip source)).utf8ByteSize) := by
  have scanned := scans_program literals derived (strip other)
  have size : (String.ofList (strip source)).utf8ByteSize =
      Token.widths (TokenStream.ofSource source).sequence := by
    have whole := scanned.utf8ByteSize_eq
    rw [String.ofList_append, String.utf8ByteSize_append] at whole
    omega
  have steps := derived.steps table
  rw [executed, Option.map_some] at steps
  rw [interpretFrom, TokenStream.ofSource, strip_append, run_of_scans scanned steps, Nat.zero_add,
    ← size, interpretFrom, ← run_placed, TokenStream.ofSource, ← TokenStream.ofText_placed,
    Nat.add_zero]

theorem mapError_eq_ok_iff {α : Type} {f : Error → Error} {outcome : Except Error α} {a : α} :
    outcome.mapError f = .ok a ↔ outcome = .ok a := by
  cases outcome <;> simp [Except.mapError]

theorem interpretFrom_append_eq_ok_iff {source : String} {ss : List Statement}
    (literals : (TokenStream.ofSource source).fault? = none)
    (derived : Program (TokenStream.ofSource source).sequence ss) {table result : Table}
    {other : String} :
    interpretFrom table (source ++ other) = .ok result ↔
      ∃ next, Statement.executeAll table ss = some next ∧
        interpretFrom next other = .ok result := by
  cases executed : Statement.executeAll table ss with
  | some next =>
    simp only [Option.some.injEq, exists_eq_left', interpretFrom_append literals derived executed,
      mapError_eq_ok_iff]
  | none =>
    have scanned := scans_program literals derived (strip other)
    simp only [reduceCtorEq, false_and, exists_false, iff_false]
    intro accepted
    rw [interpretFrom, run_eq_ok_iff (TokenStream.proper_ofSource _), TokenStream.ofSource,
      strip_append, scanned.sequence_eq, steps?_append, derived.steps table, executed] at accepted
    cases accepted.2

theorem interpret_append {source : String} {table : Table} (h : interpret source = .ok table)
    (other : String) :
    interpret (source ++ other) = (interpretFrom table other).mapError
      (.placed (String.ofList (strip source)).utf8ByteSize) := by
  obtain ⟨literals, ss, derived, executed⟩ := program_of_interpret h
  rw [interpret_eq_run]
  exact interpretFrom_append literals derived executed other

/-- Accepted programs with the same table can be put for each other in front of every text. -/
theorem interpret_append_congr {first second : String} {table : Table}
    (accepted : interpret first = .ok table) (accepted' : interpret second = .ok table)
    (rest : String) :
    (∃ result, interpret (first ++ rest) = .ok result ∧
      interpret (second ++ rest) = .ok result) ∨
    ∃ e e', interpret (first ++ rest) = .error e ∧ interpret (second ++ rest) = .error e' ∧
      e.cause = e'.cause ∧
      (e.position : Int) - e'.position =
        (String.ofList (strip first)).utf8ByteSize -
          (String.ofList (strip second)).utf8ByteSize := by
  rw [interpret_append accepted, interpret_append accepted']
  cases interpretFrom table rest with
  | ok result => exact .inl ⟨result, rfl, rfl⟩
  | error e =>
    refine .inr ⟨_, _, rfl, rfl, rfl, ?_⟩
    simp only [Error.placed]
    omega

theorem interpret_reassigned_append :
    interpret "x = 1; x = x * 2;" = .ok (.ofHistory [("x", 2)]) ∧
    interpret "x = 2;" = .ok (.ofHistory [("x", 2)]) ∧
    ∃ e e', interpret ("x = 1; x = x * 2;" ++ "y = x; 012") = .error e ∧
      interpret ("x = 2;" ++ "y = x; 012") = .error e' ∧ e.cause = e'.cause ∧
      (e.position : Int) - e'.position = 6 := by
  have accepted : interpret "x = 1; x = x * 2;" = .ok (.ofHistory [("x", 2)]) := by
    decide +kernel
  have accepted' : interpret "x = 2;" = .ok (.ofHistory [("x", 2)]) := by decide +kernel
  refine ⟨accepted, accepted', ?_⟩
  rcases interpret_append_congr accepted accepted' "y = x; 012" with ⟨result, impossible, -⟩ | both
  · have rejected : interpret ("x = 1; x = x * 2;" ++ "y = x; 012") =
        .error ⟨14, .literal .leadingZero "012"⟩ := by
      decide +kernel
    rw [rejected] at impossible
    cases impossible
  · obtain ⟨e, e', rejected, rejected', cause, apart⟩ := both
    refine ⟨e, e', rejected, rejected', cause, apart.trans ?_⟩
    decide +kernel

end StraightLine
