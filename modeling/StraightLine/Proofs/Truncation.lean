import StraightLine.Proofs.Composition
import StraightLine.Proofs.ErrorReports
import StraightLine.Proofs.StatementEffects
set_option autoImplicit false

namespace StraightLine

open Control Grammar

theorem exists_cut {ts : List Token} {front back : List Char}
    (h : front ++ back = Token.spelling ts) :
    (∃ before after, ts = before ++ after ∧ front = Token.spelling before) ∨
    ∃ before t after part rest, ts = before ++ t :: after ∧ front = Token.spelling before ++ part ∧
      t.lexeme.toList = part ++ rest ∧ part ≠ [] ∧ rest ≠ [] := by
  induction ts generalizing front with
  | nil =>
    obtain ⟨rfl, -⟩ := List.append_eq_nil_iff.1 h
    exact .inl ⟨[], [], rfl, rfl⟩
  | cons t ts ih =>
    rw [Token.spelling_cons] at h
    rcases List.append_eq_append_iff.1 h with ⟨rest, lexeme, -⟩ | ⟨front, rfl, more⟩
    · by_cases none : front = []
      · exact .inl ⟨[], t :: ts, rfl, none⟩
      by_cases whole : rest = []
      · refine .inl ⟨[t], ts, rfl, ?_⟩
        simp [lexeme, whole]
      · exact .inr ⟨[], t, ts, front, rest, rfl, rfl, lexeme, none, whole⟩
    · rcases ih more.symm with ⟨before, after, rfl, rfl⟩ |
        ⟨before, u, after, part, rest, rfl, rfl, lexeme, present, missing⟩
      · exact .inl ⟨t :: before, after, rfl, rfl⟩
      · refine .inr ⟨t :: before, u, after, part, rest, rfl, ?_, lexeme, present, missing⟩
        simp

theorem Kind.endsBefore_nil (k : Kind) : k.EndsBefore [] := by
  have outside {p : Char → Bool} : Outside p [] := fun _ impossible => nomatch impossible
  cases k with
  | name | literal => exact outside
  | mark | invalid | endOfInput => exact trivial

namespace Numeral

theorem value_le_value_append (digits more : List Char) : value digits ≤ value (digits ++ more) := by
  have grows (n : Nat) :
      n ≤ more.foldl (fun n c => 10 * n + (c.toNat - '0'.toNat)) n := by
    induction more generalizing n with
    | nil => exact Nat.le_refl n
    | cons c more ih => exact Nat.le_trans (by omega) (ih (10 * n + (c.toNat - '0'.toNat)))
  rw [value, value, List.foldl_append]
  exact grows _

theorem exists_toDigits_of_append {n : Nat} {digits more : List Char}
    (h : Nat.toDigits 10 n = digits ++ more) (ne : digits ≠ []) :
    ∃ m ≤ n, digits = Nat.toDigits 10 m := by
  have digit : ∀ c ∈ digits, c.isDigit = true := by
    intro c hc
    apply Nat.isDigit_of_mem_toDigits (n := n) (b := 10) (by omega) (by omega)
    rw [h]
    exact List.mem_append_left more hc
  have canonical : hasLeadingZero digits = false := by
    have whole := hasLeadingZero_toDigits n
    rw [h] at whole
    unfold hasLeadingZero
    split
    next c cs => simp [hasLeadingZero] at whole
    · rfl
  refine ⟨value digits, ?_, (toDigits_value ne digit canonical).symm⟩
  calc value digits ≤ value (digits ++ more) := value_le_value_append digits more
    _ = n := by rw [← h, value_toDigits]

end Numeral

inductive Token.Akin : Token → Token → Prop where
  | name (x y : String) : Akin (.name x) (.name y)
  | literal (digits digits' : String) (v v' : Int64) : Akin (.literal digits v) (.literal digits' v')

/-- A part of a name is a name, and a part of a literal is a literal. Other tokens have no parts. -/
theorem Token.WellFormed.exists_part {t : Token} {part rest : List Char} (h : t.WellFormed)
    (valid : t.kind ≠ .invalid) (text : t.lexeme.toList = part ++ rest) (present : part ≠ [])
    (missing : rest ≠ []) :
    ∃ u : Token, u.WellFormed ∧ u.lexeme.toList = part ∧ u.Akin t := by
  obtain ⟨c, cs, rfl⟩ := List.exists_cons_of_ne_nil present
  have spelled := h.spelled
  cases t with
  | mark m =>
    simp [Token.lexeme, missing] at text
  | invalid d => exact absurd rfl valid
  | endOfInput => exact spelled.elim
  | name y =>
    obtain ⟨d, ds, written, start, named⟩ := spelled
    rw [text] at written
    obtain ⟨rfl, rfl⟩ := List.cons.inj written
    refine ⟨.name (String.ofList (c :: cs)), wellFormed_name start ?_, ?_, .name _ y⟩
    · exact fun d hd => named d (List.mem_append_left rest hd)
    · simp [Token.lexeme]
  | literal digits v =>
    obtain ⟨n, small, written⟩ := spelled
    rw [text, Nat.toString_eq_repr, Nat.toList_repr] at written
    obtain ⟨m, le, left⟩ := Numeral.exists_toDigits_of_append written.symm present
    refine ⟨.literal (toString m) (Int64.ofNat m), wellFormed_literal (Nat.lt_of_le_of_lt le small),
      ?_, .literal _ digits _ v⟩
    rw [left]
    exact Nat.toList_repr

namespace Scans

theorem of_cut {text : List Char} {before after : List Token}
    (h : Scans text (before ++ after) []) : Scans (Token.spelling before) before [] := by
  obtain ⟨mid, first, -⟩ := h.split
  simpa using first.change fun k _ => k.endsBefore_nil

theorem of_cut_inside {text part rest : List Char} {before after : List Token} {t u : Token}
    (h : Scans text (before ++ t :: after) []) (lexeme : t.lexeme.toList = part ++ rest)
    (present : part ≠ []) (wellFormed : u.WellFormed) (left : u.lexeme.toList = part) :
    Scans (Token.spelling before ++ part) (before ++ [u]) [] := by
  obtain ⟨mid, first, second⟩ := h.split
  have front : mid.head? = part.head? := by
    rw [second.text_eq, Token.spelling_cons, lexeme, List.append_assoc, List.append_assoc]
    exact List.head?_append_of_ne_nil part present
  have last : scan part = .token u [] := by
    have found := scan_of_wellFormed wellFormed (u.kind.endsBefore_nil)
    rwa [List.append_nil, left] at found
  exact (first.change fun k => (Kind.endsBefore_congr front).1).trans (.cons last (.nil []))

end Scans

theorem interpret_of_scans {source : String} {ts : List Token} {table : Table} {c : Control}
    (scanned : Scans (strip source) ts []) (steps : steps? .empty target ts = some (table, c)) :
    interpret source = c.finish table (String.ofList (strip source)).utf8ByteSize := by
  rw [interpret_eq_run, TokenStream.ofSource, run_of_scans scanned steps, TokenStream.ofText_nil,
    scanned.utf8ByteSize_eq, Nat.zero_add]
  rfl

/-- A part of a token is taken like the token, unless it is a name that is not bound. -/
theorem Control.step?_part {c : Control} {table : Table} {t u : Token} {next : Table × Control}
    (taken : c.step? table t = some next) (akin : u.Akin t) :
    (∃ c', c.step? table u = some (table, c') ∧ c' ≠ target) ∨
    ∃ x, u = .name x ∧ c.step? table u = none ∧ c.complaint u = .unbound x := by
  have resumes (x : String) (v : Int64) (frames : List Frame) : resume x v frames ≠ target := by
    obtain ⟨total, outer, resumed, -⟩ := resume_eq_operator x v frames
    simp [resumed]
  cases akin with
  | name x y =>
    cases c with
    | target => exact .inl ⟨equals x, rfl, by simp⟩
    | equals | operator => cases taken
    | operand z frames =>
      cases bound : table.get? x with
      | none => exact .inr ⟨x, rfl, by simp [step?, bound], rfl⟩
      | some v => exact .inl ⟨resume z v frames, by simp [step?, bound], resumes z v frames⟩
  | literal digits digits' v v' =>
    cases c with
    | target | equals | operator => cases taken
    | operand z frames => exact .inl ⟨resume z v frames, rfl, resumes z v frames⟩

def EndsStatement (ts : List Token) : Prop :=
  ts = [] ∨ ∃ front, ts = front ++ [.mark .semicolon]

theorem endsStatement_concat_iff {front : List Token} {t : Token} :
    EndsStatement (front ++ [t]) ↔ t = .mark .semicolon := by
  constructor
  · rintro (none | ⟨front', same⟩)
    · simp at none
    · obtain ⟨-, last⟩ := List.append_inj' same rfl
      exact List.singleton_inj.1 last
  · rintro rfl
    exact .inr ⟨front, rfl⟩

theorem EndsStatement.tail {before after : List Token} {t : Token}
    (h : EndsStatement (before ++ t :: after)) : EndsStatement after := by
  rcases List.eq_nil_or_concat' after with rfl | ⟨front, u, rfl⟩
  · exact .inl rfl
  · have whole : before ++ t :: (front ++ [u]) = (before ++ t :: front) ++ [u] := by simp
    rw [whole, endsStatement_concat_iff] at h
    exact endsStatement_concat_iff.2 h

theorem semicolon_notMem_lexeme {t : Token} (h : t.WellFormed) (valid : t.kind ≠ .invalid)
    (other : t ≠ .mark .semicolon) : ';' ∉ t.lexeme.toList := by
  have worded (word : t.kind = .name ∨ t.kind = .literal) : ';' ∉ t.lexeme.toList := by
    intro inside
    have part := h.isNamePart word Mark.semicolon.char inside
    rw [isNamePart_char] at part
    cases part
  cases t with
  | mark m =>
    cases m with
    | semicolon => exact absurd rfl other
    | assign | plus | minus | star | leftParen | rightParen => decide
  | name x => exact worded (.inl rfl)
  | literal digits v => exact worded (.inr rfl)
  | invalid c => exact absurd rfl valid
  | endOfInput => exact h.spelled.elim

theorem count_semicolon_spelling {ts : List Token} (h : ∀ t ∈ ts, t.WellFormed)
    (valid : ∀ t ∈ ts, t.kind ≠ .invalid) :
    (Token.spelling ts).count ';' = ts.count (.mark .semicolon) := by
  induction ts with
  | nil => rfl
  | cons t ts ih =>
    have more := ih (fun u hu => h u (List.mem_cons_of_mem t hu))
      (fun u hu => valid u (List.mem_cons_of_mem t hu))
    rw [Token.spelling_cons, List.count_append, more, List.count_cons]
    by_cases semicolon : t = .mark .semicolon
    · subst semicolon
      simp [Token.lexeme, Mark.char, Nat.add_comm]
    · have none := semicolon_notMem_lexeme (h t List.mem_cons_self) (valid t List.mem_cons_self)
        semicolon
      simp [List.count_eq_zero.2 none, semicolon]

theorem ends_iff_endsStatement {text : List Char} {ts : List Token} (h : Scans text ts [])
    (valid : ∀ t ∈ ts, t.kind ≠ .invalid) :
    (text = [] ∨ text.getLast? = some ';') ↔ EndsStatement ts := by
  have spelled : text = Token.spelling ts := by simpa using h.text_eq
  rcases List.eq_nil_or_concat' ts with rfl | ⟨front, t, rfl⟩
  · simp [spelled, EndsStatement]
  · have wellFormed := h.wellFormed t (by simp)
    have nonempty : t.lexeme.toList ≠ [] := by simpa using wellFormed.nonempty
    have last : text.getLast? = t.lexeme.toList.getLast? := by
      rw [spelled, Token.spelling_append]
      simpa using List.getLast?_append_of_ne_nil _ nonempty
    have present : text ≠ [] := by simp [spelled, wellFormed.nonempty]
    rw [last, endsStatement_concat_iff]
    constructor
    · rintro (none | semicolon)
      · exact absurd none present
      · by_contra other
        exact semicolon_notMem_lexeme wellFormed (valid t (by simp)) other
          (List.mem_of_getLast? semicolon)
    · rintro rfl
      exact .inr rfl

/-- A beginning of a program that ends with a statement has one statement for each semicolon. -/
theorem Grammar.Program.take {ts us : List Token} {ss : List Statement}
    (h : Program (ts ++ us) ss) (ends : EndsStatement ts) :
    Program ts (ss.take (ts.count (.mark .semicolon))) := by
  generalize whole : ts ++ us = all at h
  induction h generalizing ts with
  | nil =>
    obtain ⟨rfl, -⟩ := List.append_eq_nil_iff.1 whole
    exact .nil
  | @cons piece rest s ss first more ih =>
    rcases List.eq_nil_or_concat' ts with rfl | ⟨front, t, rfl⟩
    · exact .nil
    · obtain rfl := endsStatement_concat_iff.1 ends
      obtain ⟨body, left, split, inner⟩ :=
        List.eq_append_cons_of_mem (List.mem_append_right front (List.mem_singleton.2 rfl))
      obtain ⟨body', rfl, inner'⟩ := first.exists_body
      rw [split, List.append_assoc, List.append_assoc] at whole
      obtain ⟨rfl, rest_eq⟩ := cut_unique inner inner' whole
      have count : (body ++ .mark .semicolon :: left).count (.mark .semicolon) =
          left.count (Token.mark .semicolon) + 1 := by
        rw [List.count_append, List.count_eq_zero.2 inner, List.count_cons_self, Nat.zero_add]
      rw [split] at ends ⊢
      rw [count, List.take_succ_cons, List.append_cons]
      exact .cons first (ih ends.tail rest_eq)

theorem eq_target_iff_endsStatement {ts : List Token} {table : Table} {c : Control}
    (h : steps? .empty target ts = some (table, c)) : c = target ↔ EndsStatement ts := by
  constructor
  · rintro rfl
    obtain ⟨ss, derived⟩ := program_of_steps? h
    exact derived.nil_or_semicolon
  · rintro (rfl | ⟨front, rfl⟩)
    · cases h
      rfl
    · rw [steps?_append] at h
      obtain ⟨between, -, last⟩ := Option.bind_eq_some_iff.1 h
      rw [steps?_singleton] at last
      obtain ⟨-, done⟩ | ⟨other, -⟩ := step?_cases last
      · exact done
      · exact absurd rfl other

/-- How a program that was cut short is rejected: something is missing at its end, or its last name
is only the beginning of a name of the whole program. -/
inductive Error.CutShort (front whole : String) (e : Error) : Prop where
  | ended (found : e.cause.found.1 = .endOfInput)
      (position : e.position = (String.ofList (strip front)).utf8ByteSize) : CutShort front whole e
  | shortened {x y : String} (unbound : e.cause = .unbound x)
      (last : (TokenStream.ofSource front).tokens.getLast? = some (e.position, .name x))
      (cut : (e.position, .name y) ∈ (TokenStream.ofSource whole).tokens)
      (proper : ∃ rest, rest ≠ "" ∧ y = x ++ rest) : CutShort front whole e

/-- All tokens of the beginning are taken. If it ends between two statements, they are those of the
whole program up to there. -/
def TakesAll (front whole : String) : Prop :=
  ∃ ts table c, Scans (strip front) ts [] ∧ steps? .empty target ts = some (table, c) ∧
    (c = target → ts <+: (TokenStream.ofSource whole).sequence)

/-- All tokens of the beginning are taken but the last, which is a part of a name and not bound. -/
def StopsAtPart (front whole : String) : Prop :=
  ∃ before after x y rest table c, Scans (strip front) (before ++ [.name x]) [] ∧
    Scans (strip whole) (before ++ .name y :: after) [] ∧ rest ≠ "" ∧ y = x ++ rest ∧
    steps? .empty target before = some (table, c) ∧ c.step? table (.name x) = none ∧
    c.complaint (.name x) = .unbound x

theorem takesAll_or_stopsAtPart {front back : String} {table : Table}
    (h : interpret (front ++ back) = .ok table) :
    TakesAll front (front ++ back) ∨ StopsAtPart front (front ++ back) := by
  have scanned := scans_append h []
  rw [List.append_nil] at scanned
  rw [interpret_eq_run] at h
  obtain ⟨-, steps⟩ := (run_eq_ok_iff (TokenStream.proper_ofSource _)).1 h
  have text := scanned.text_eq
  rw [strip_append, List.append_nil] at text
  rcases exists_cut text with ⟨before, after, split, read⟩ |
    ⟨before, t, after, part, rest, split, read, lexeme, present, missing⟩
  · -- The cut is between two tokens.
    rw [split] at scanned steps
    rw [steps?_append] at steps
    obtain ⟨⟨table', c⟩, first, -⟩ := Option.bind_eq_some_iff.1 steps
    refine .inl ⟨before, table', c, ?_, first, fun _ => ?_⟩
    · rw [read]
      exact scanned.of_cut
    · rw [split]
      exact List.prefix_append before after
  · -- The cut is inside a token.
    rw [split] at scanned steps
    have valid := (kind_of_steps? steps t (by simp)).1
    obtain ⟨u, wellFormed, left, akin⟩ :=
      (scanned.wellFormed t (by simp)).exists_part valid lexeme present missing
    rw [steps?_append] at steps
    obtain ⟨⟨table', c⟩, first, more⟩ := Option.bind_eq_some_iff.1 steps
    obtain ⟨next, taken, -⟩ := Option.bind_eq_some_iff.1 more
    have scanned' := scanned.of_cut_inside lexeme present wellFormed left
    rw [← read] at scanned'
    rcases step?_part taken akin with ⟨c', taken', inside⟩ | ⟨x, rfl, refused, unbound⟩
    · refine .inl ⟨before ++ [u], table', c', scanned', ?_, fun done => absurd done inside⟩
      rw [steps?_append, first, Option.bind_some, steps?_singleton, taken']
    · cases akin with
      | name _ y =>
        have cut : y = x ++ String.ofList rest := by
          rw [← String.toList_inj, String.toList_append, String.toList_ofList]
          change y.toList = part ++ rest at lexeme
          change x.toList = part at left
          rw [lexeme, left]
        exact .inr ⟨before, after, x, y, String.ofList rest, table', c, scanned', scanned,
          by simpa using missing, cut, first, refused, unbound⟩

theorem interpret_of_stopsAtPart {front whole : String} (h : StopsAtPart front whole) :
    ∃ e, interpret front = .error e ∧ e.cause.phase = .syntactic ∧ e.CutShort front whole := by
  obtain ⟨before, after, x, y, rest, table, c, scanned, scanned', proper, same, steps, refused,
    unbound⟩ := h
  obtain ⟨mid, first, last⟩ := scanned.split
  have found : scan mid = .token (.name x) [] := by
    cases last with
    | cons found more =>
      cases more
      exact found
  refine ⟨⟨Token.widths before, .unbound x⟩, ?_, rfl, .shortened rfl ?_ ?_ ⟨rest, proper, same⟩⟩
  · rw [interpret_eq_run, TokenStream.ofSource, run_of_scans first steps,
      TokenStream.ofText_of_token found, Control.run, if_neg (by simp), refused, unbound,
      Nat.zero_add]
  · rw [TokenStream.ofSource, scanned.tokens_eq, TokenStream.ofText_nil, Token.located_append]
    simp [TokenStream.tokens]
  · rw [TokenStream.ofSource, scanned'.tokens_eq, Token.located_append]
    simp

theorem Control.finish_eq_ok_iff {c : Control} {table result : Table} {position : Nat} :
    c.finish table position = .ok result ↔ c = target ∧ table = result := by
  cases c with
  | target => simp [finish]
  | equals | operand | operator => simp [finish]

theorem cutShort_of_finish {front whole : String} {c : Control} {table : Table} {e : Error}
    (h : c.finish table (String.ofList (strip front)).utf8ByteSize = .error e) :
    e.cause.phase = .syntactic ∧ e.CutShort front whole := by
  cases c with
  | target => cases h
  | equals | operand | operator =>
    cases h
    exact ⟨rfl, .ended rfl rfl⟩

theorem not_ends_of_stopsAtPart {front whole : String} (h : StopsAtPart front whole) :
    ¬ (strip front = [] ∨ (strip front).getLast? = some ';') := by
  obtain ⟨before, after, x, y, rest, table, c, scanned, -, -, -, steps, -⟩ := h
  have valid : ∀ t ∈ before ++ [.name x], t.kind ≠ .invalid := by
    intro t ht
    rcases List.mem_append.1 ht with first | last
    · exact (kind_of_steps? steps t first).1
    · rw [List.mem_singleton.1 last]
      simp [Token.kind]
  rw [ends_iff_endsStatement scanned valid, endsStatement_concat_iff]
  simp

theorem program_take_of_scans {front whole : String} {ts : List Token} {ss : List Statement}
    {table : Table} (scanned : Scans (strip front) ts [])
    (steps : steps? .empty target ts = some (table, target))
    (leading : ts <+: (TokenStream.ofSource whole).sequence)
    (derived : Program (TokenStream.ofSource whole).sequence ss) :
    Program (TokenStream.ofSource front).sequence (ss.take (front.toList.count ';')) := by
  have valid : ∀ t ∈ ts, t.kind ≠ .invalid := fun t ht => (kind_of_steps? steps t ht).1
  have count : front.toList.count ';' = ts.count (.mark .semicolon) := by
    have blanks : (strip front).count ';' = front.toList.count ';' :=
      List.count_filter (by decide)
    have spelled : strip front = Token.spelling ts := by simpa using scanned.text_eq
    rw [← blanks, spelled, count_semicolon_spelling scanned.wellFormed valid]
  have sequence : (TokenStream.ofSource front).sequence = ts := by
    rw [TokenStream.ofSource, scanned.sequence_eq, TokenStream.ofText_nil]
    simp
  obtain ⟨after, split⟩ := leading
  rw [← split] at derived
  rw [count, sequence]
  exact derived.take ((eq_target_iff_endsStatement steps).1 rfl)

/-- The beginning of an accepted program is accepted just if it ends with a statement or is empty,
and then it does what its statements do. Otherwise it is rejected at its end, or at a name that was
cut. -/
theorem interpret_truncated {front back : String} {table : Table}
    (h : interpret (front ++ back) = .ok table) :
    ((∃ result, interpret front = .ok result) ↔
      strip front = [] ∨ (strip front).getLast? = some ';') ∧
    (∃ ss, Program (TokenStream.ofSource (front ++ back)).sequence ss) ∧
    (∀ result, interpret front = .ok result →
      ∀ ss, Program (TokenStream.ofSource (front ++ back)).sequence ss →
        Statement.executeAll .empty (ss.take (front.toList.count ';')) = some result) ∧
    ∀ e, interpret front = .error e →
      e.cause.phase = .syntactic ∧ e.CutShort front (front ++ back) := by
  obtain ⟨-, ss, derived, -⟩ := program_of_interpret h
  rcases takesAll_or_stopsAtPart h with ⟨ts, table', c, scanned, steps, leading⟩ | part
  · have outcome := interpret_of_scans scanned steps
    have valid : ∀ t ∈ ts, t.kind ≠ .invalid := fun t ht => (kind_of_steps? steps t ht).1
    refine ⟨?_, ⟨ss, derived⟩, ?_, ?_⟩
    · rw [ends_iff_endsStatement scanned valid, ← eq_target_iff_endsStatement steps, outcome]
      simp [finish_eq_ok_iff]
    · intro result accepted ss derived
      have ended := accepted
      rw [outcome] at ended
      obtain ⟨rfl, rfl⟩ := finish_eq_ok_iff.1 ended
      exact executeAll_of_interpret accepted
        (program_take_of_scans scanned steps (leading rfl) derived)
    · intro e rejected
      rw [outcome] at rejected
      exact cutShort_of_finish rejected
  · obtain ⟨e, rejected, syntactic, short⟩ := interpret_of_stopsAtPart part
    refine ⟨?_, ⟨ss, derived⟩, ?_, ?_⟩
    · simp [rejected, not_ends_of_stopsAtPart part]
    · intro result accepted
      rw [rejected] at accepted
      cases accepted
    · intro e' rejected'
      rw [rejected] at rejected'
      cases rejected'
      exact ⟨syntactic, short⟩

/-- The cut leaves the first letter of a name, and no variable is called that. -/
theorem interpret_truncated_name :
    interpret ("ab = 1; c = a" ++ "b;") = .ok (.ofHistory [("ab", 1), ("c", 1)]) ∧
    interpret "ab = 1; c = a" = .error ⟨7, .unbound "a"⟩ ∧
    Error.CutShort "ab = 1; c = a" "ab = 1; c = ab;" ⟨7, .unbound "a"⟩ := by
  have accepted : interpret ("ab = 1; c = a" ++ "b;") =
      .ok (.ofHistory [("ab", 1), ("c", 1)]) := by
    decide +kernel
  have rejected : interpret "ab = 1; c = a" = .error ⟨7, .unbound "a"⟩ := by decide +kernel
  exact ⟨accepted, rejected, ((interpret_truncated accepted).2.2.2 _ rejected).2⟩

end StraightLine
