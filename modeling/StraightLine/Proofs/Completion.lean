import Mathlib.Data.List.Basic
import StraightLine.Proofs.Beginnings
import StraightLine.Proofs.Simulation
set_option autoImplicit false

namespace StraightLine

open Control

namespace Control

theorem run_of_scans {text rest : List Char} {ts : List Token} (h : Scans text ts rest)
    {offset : Nat} {table table' : Table} {c c' : Control}
    (steps : steps? table c ts = some (table', c')) :
    c.run table (.ofText offset text) =
      c'.run table' (.ofText (offset + Token.widths ts) rest) := by
  induction h generalizing offset table c with
  | nil text =>
    cases steps
    rfl
  | @cons text mid rest t ts found more ih =>
    rw [steps?_cons] at steps
    obtain ⟨⟨next, d⟩, first, steps⟩ := Option.bind_eq_some_iff.1 steps
    rw [TokenStream.ofText_of_token found, Control.run, if_neg (ne_endOfInput_of_scan found), first,
      Token.widths_cons, ← Nat.add_assoc]
    exact ih steps

def ending (groups : Nat) : List Token :=
  List.replicate groups (.mark .rightParen) ++ [.mark .semicolon]

def zero : Token := .literal "0" 0

/-- Tokens that complete a program from where a run stands. They begin with a mark, so that they do
not run together with the text before them. -/
def completion : Control → List Token
  | target => []
  | equals _ => .mark .assign :: zero :: ending 0
  | operand _ frames => .mark .plus :: zero :: ending (frames.count .group)
  | operator _ _ frames => ending (frames.count .group)

theorem resume_eq_operator (x : String) (value : Int64) (frames : List Frame) :
    ∃ total outer, resume x value frames = operator x total outer ∧
      outer.count .group = frames.count .group := by
  fun_induction resume x value frames with
  | case1 value frames ih => simpa using ih
  | case2 value product frames ih => simpa using ih
  | case3 value frames => exact ⟨value, frames, rfl, rfl⟩

theorem settle_eq_nil (value : Int64) {frames : List Frame} (h : frames.count .group = 0) :
    ∃ total, settle value frames = (total, []) := by
  rw [← count_group_settle value] at h
  obtain settled | ⟨outer, settled⟩ := settled_settle value frames
  · exact ⟨_, Prod.ext rfl settled⟩
  · simp [settled] at h

theorem settle_eq_group (value : Int64) {frames : List Frame} {n : Nat}
    (h : frames.count .group = n + 1) :
    ∃ total outer, settle value frames = (total, .group :: outer) ∧ outer.count .group = n := by
  rw [← count_group_settle value] at h
  obtain settled | ⟨outer, settled⟩ := settled_settle value frames
  · simp [settled] at h
  · refine ⟨_, outer, Prod.ext rfl settled, ?_⟩
    simpa [settled] using h

theorem steps?_ending (table : Table) (x : String) (value : Int64) (frames : List Frame) :
    ∃ result, steps? table (operator x value frames) (ending (frames.count .group)) =
      some (result, target) := by
  generalize groups : frames.count .group = n
  induction n generalizing value frames with
  | zero =>
    obtain ⟨total, settled⟩ := settle_eq_nil value groups
    refine ⟨table.assign x total, ?_⟩
    change steps? table (operator x value frames) [.mark .semicolon] = _
    rw [steps?_singleton, step?, settled]
  | succ n ih =>
    obtain ⟨total, outer, settled, inner⟩ := settle_eq_group value groups
    obtain ⟨total', frames', resumed, same⟩ := resume_eq_operator x total outer
    obtain ⟨result, ended⟩ := ih total' frames' (same.trans inner)
    refine ⟨result, ?_⟩
    change steps? table (operator x value frames) (.mark .rightParen :: ending n) = _
    rw [steps?_cons, step?, settled]
    change steps? table (resume x total outer) (ending n) = _
    rw [resumed, ended]

theorem steps?_zero_ending (table : Table) (x : String) (frames : List Frame) :
    ∃ result, steps? table (operand x frames) (zero :: ending (frames.count .group)) =
      some (result, target) := by
  obtain ⟨total, outer, resumed, same⟩ := resume_eq_operator x 0 frames
  obtain ⟨result, ended⟩ := steps?_ending table x total outer
  refine ⟨result, ?_⟩
  change steps? table (resume x 0 frames) (ending (frames.count .group)) = _
  rw [resumed, ← same, ended]

theorem steps?_completion (table : Table) (c : Control) :
    ∃ result, steps? table c c.completion = some (result, target) := by
  cases c with
  | target => exact ⟨table, rfl⟩
  | equals x => exact steps?_zero_ending table x []
  | operand x frames => exact steps?_zero_ending table x frames
  | operator x value frames => exact steps?_ending table x value frames

theorem scans_ending (groups : Nat) :
    Scans (Token.spelling (ending groups)) (ending groups) [] := by
  induction groups with
  | zero => exact .cons (scan_mark .semicolon []) (.nil [])
  | succ n ih => exact .cons (scan_mark .rightParen _) ih

theorem outside_ending {p : Char → Bool} (h : ∀ m : Mark, p m.char = false) (groups : Nat) :
    Outside p (Token.spelling (ending groups)) := by
  intro c hc
  cases groups with
  | zero =>
    cases hc
    exact h .semicolon
  | succ n =>
    cases hc
    exact h .rightParen

theorem scans_zero_ending (groups : Nat) :
    Scans (Token.spelling (zero :: ending groups)) (zero :: ending groups) [] := by
  refine .cons ?_ (scans_ending groups)
  apply scan_of_wellFormed (wellFormed_literal (n := 0) (by decide))
  exact outside_ending isDigit_char groups

theorem scans_completion (c : Control) :
    Scans (Token.spelling c.completion) c.completion [] := by
  cases c with
  | target => exact .nil []
  | equals x => exact .cons (scan_mark .assign _) (scans_zero_ending 0)
  | operand x frames => exact .cons (scan_mark .plus _) (scans_zero_ending _)
  | operator x value frames => exact scans_ending _

theorem endsBefore_completion (k : Kind) (c : Control) :
    k.EndsBefore (Token.spelling c.completion) := by
  have outside {p : Char → Bool} (h : ∀ m : Mark, p m.char = false) :
      Outside p (Token.spelling c.completion) := by
    cases c with
    | target => exact fun _ impossible => nomatch impossible
    | equals x =>
      rintro _ ⟨⟩
      exact h .assign
    | operand x frames =>
      rintro _ ⟨⟩
      exact h .plus
    | operator x value frames => exact outside_ending h _
  cases k with
  | name => exact outside isNamePart_char
  | literal => exact outside isDigit_char
  | mark | invalid | endOfInput => exact trivial

theorem mem_completion {t : Token} {c : Control} (h : t ∈ c.completion) :
    t = zero ∨ ∃ m, t = .mark m := by
  have ends {groups : Nat} (h : t ∈ ending groups) : ∃ m, t = .mark m := by
    rcases List.mem_append.1 h with inner | last
    · exact ⟨_, List.eq_of_mem_replicate inner⟩
    · exact ⟨_, List.mem_singleton.1 last⟩
  have begins {m : Mark} {groups : Nat} (h : t ∈ .mark m :: zero :: ending groups) :
      t = zero ∨ ∃ m, t = .mark m := by
    rcases List.mem_cons.1 h with rfl | h
    · exact .inr ⟨m, rfl⟩
    · exact (List.mem_cons.1 h).imp_right ends
  cases c with
  | target => cases h
  | equals x => exact begins h
  | operand x frames => exact begins h
  | operator x value frames => exact .inr (ends h)

theorem strip_completion (c : Control) :
    strip (String.ofList (Token.spelling c.completion)) = Token.spelling c.completion := by
  rw [strip, String.toList_ofList, List.filter_eq_self]
  intro ch inside
  obtain ⟨t, ht, inside⟩ := List.mem_flatMap.1 inside
  obtain rfl | ⟨m, rfl⟩ := mem_completion ht
  · obtain rfl : ch = '0' := by simpa [zero, Token.lexeme] using inside
    decide
  · obtain rfl : ch = m.char := by simpa [Token.lexeme] using inside
    cases m <;> decide

end Control

/-- What a run has taken can be completed to an accepted program. -/
theorem interpret_completion {source : String} {ts : List Token} {rest : List Char} {table : Table}
    {c : Control} (scanned : Scans (strip source) ts rest)
    (steps : steps? .empty target ts = some (table, c)) :
    ∃ result, interpret (String.ofList (Token.spelling ts) ++
      String.ofList (Token.spelling c.completion)) = .ok result := by
  obtain ⟨result, completed⟩ := steps?_completion table c
  have kept : strip (String.ofList (Token.spelling ts)) = Token.spelling ts := by
    rw [strip, String.toList_ofList, List.filter_eq_self]
    intro ch inside
    have there : ch ∈ strip source := by simp [scanned.text_eq, inside]
    simp [isBlank_eq_false_of_mem_strip there]
  have taken := scanned.change fun k _ => endsBefore_completion k c
  refine ⟨result, ?_⟩
  rw [interpret_eq_run, TokenStream.ofSource, strip_append, kept, strip_completion,
    run_of_scans taken steps, run_of_scans (scans_completion c) completed, TokenStream.ofText_nil]
  rfl

end StraightLine
