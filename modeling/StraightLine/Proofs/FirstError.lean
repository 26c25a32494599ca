import StraightLine.Proofs.Completion
set_option autoImplicit false

namespace StraightLine

open Control

def tokenAt (offset : Nat) (text : List Char) : Scanned :=
  (Scanner.nextToken ⟨text, offset, false⟩).1

/-- The error is about the token or the literal that was handed out. -/
def Error.Blames (e : Error) : Scanned → Prop
  | .error r => e = r.toError
  | .ok t =>
    match e.cause with
    | .unexpected _ found lexeme => found = t.kind ∧ lexeme = t.lexeme
    | .operand found lexeme => found = t.kind ∧ lexeme = t.lexeme
    | .unbound name => t = .name name
    | .literal _ _ => False

theorem tokenAt_of_endOfText {offset : Nat} {text : List Char} (h : scan text = .endOfText) :
    tokenAt offset text = .ok .endOfInput := by
  simp [tokenAt, Scanner.nextToken, h]

theorem tokenAt_of_token {offset : Nat} {text rest : List Char} {t : Token}
    (h : scan text = .token t rest) : tokenAt offset text = .ok t := by
  simp [tokenAt, Scanner.nextToken, h]

theorem tokenAt_of_rejected {offset : Nat} {text : List Char} {fault : Numeral.Fault}
    {digits : String} (h : scan text = .rejected fault digits) :
    tokenAt offset text = .error ⟨offset, fault, digits⟩ := by
  simp [tokenAt, Scanner.nextToken, h]

def Scanned.lexeme : Scanned → String
  | .ok t => t.lexeme
  | .error r => r.digits

theorem head?_eq_tokenAt (offset : Nat) (text : List Char) :
    text.head? = (tokenAt offset text).lexeme.toList.head? := by
  cases found : scan text with
  | endOfText =>
    rw [tokenAt_of_endOfText found, scan_eq_endOfText_iff.1 found]
    rfl
  | token t rest =>
    obtain ⟨wellFormed, -, rfl⟩ := scan_eq_token_iff.1 found
    rw [tokenAt_of_token found]
    apply List.head?_append_of_ne_nil
    simpa using wellFormed.nonempty
  | rejected fault digits =>
    have run := rejectedRun_of_scan found
    obtain ⟨rest, rfl, -⟩ := run.front
    rw [tokenAt_of_rejected found]
    exact List.head?_append_of_ne_nil _ run.ne_nil

namespace Control

/-- The error with which a token is refused, or the literal in its place. -/
def refusal? (table : Table) (c : Control) (position : Nat) : Scanned → Option Error
  | .error r => some r.toError
  | .ok t =>
    if (c.step? table t).isSome ∨ (t = .endOfInput ∧ c = target) then none
    else some ⟨position, c.complaint t⟩

theorem run_of_refusal {table : Table} {c : Control} {position : Nat} {text : List Char} {e : Error}
    (h : c.refusal? table position (tokenAt position text) = some e) :
    c.run table (.ofText position text) = .error e := by
  cases found : scan text with
  | endOfText =>
    rw [tokenAt_of_endOfText found] at h
    obtain rfl := scan_eq_endOfText_iff.1 found
    rw [TokenStream.ofText_nil, Control.run]
    cases c with
    | target => simp [refusal?] at h
    | equals | operand | operator =>
      simp [refusal?, step?_endOfInput] at h
      exact congrArg Except.error h
  | token t rest =>
    rw [tokenAt_of_token found] at h
    have inside := ne_endOfInput_of_scan found
    rw [TokenStream.ofText_of_token found, Control.run, if_neg inside]
    cases step : c.step? table t with
    | some next => simp [refusal?, step] at h
    | none =>
      simp [refusal?, step, inside] at h
      exact congrArg Except.error h
  | rejected fault digits =>
    rw [tokenAt_of_rejected found] at h
    rw [TokenStream.ofText_of_rejected found]
    cases h
    rfl

/-- A run that ends in an error has taken all tokens before some point and refuses what is there. -/
theorem refusal_of_run {table : Table} {c : Control} {offset : Nat} {text : List Char} {e : Error}
    (h : c.run table (.ofText offset text) = .error e) :
    ∃ ts rest table' c', Scans text ts rest ∧ steps? table c ts = some (table', c') ∧
      e.position = offset + Token.widths ts ∧
      c'.refusal? table' e.position (tokenAt e.position rest) = some e := by
  fun_induction TokenStream.ofText offset text generalizing table c with
  | case1 offset text found =>
    by_cases done : c = target
    · subst done
      cases h
    · rw [Control.run, finish_of_ne_target done] at h
      cases h
      refine ⟨[], text, table, c, .nil text, rfl, rfl, ?_⟩
      rw [tokenAt_of_endOfText found]
      simp [refusal?, step?_endOfInput, done]
  | case2 offset text fault digits found =>
    cases h
    refine ⟨[], text, table, c, .nil text, rfl, rfl, ?_⟩
    rw [tokenAt_of_rejected found]
    rfl
  | case3 offset text t rest found _ ih =>
    have inside := ne_endOfInput_of_scan found
    rw [Control.run, if_neg inside] at h
    cases step : c.step? table t with
    | none =>
      rw [step] at h
      cases h
      refine ⟨[], text, table, c, .nil text, rfl, rfl, ?_⟩
      rw [tokenAt_of_token found]
      simp [refusal?, step, inside]
    | some next =>
      rw [step] at h
      obtain ⟨ts, last, table', c', scanned, steps, position, refused⟩ := ih h
      refine ⟨t :: ts, last, table', c', .cons found scanned, ?_, ?_, refused⟩
      · rw [steps?_cons, step]
        exact steps
      · rw [position, Token.widths_cons, Nat.add_assoc]

theorem blames_of_refusal {table : Table} {c : Control} {position : Nat} {found : Scanned}
    {e : Error} (h : c.refusal? table position found = some e) : e.Blames found := by
  cases found with
  | error r =>
    cases h
    rfl
  | ok t =>
    simp only [refusal?] at h
    split at h
    · cases h
    · cases h
      cases c with
      | target | equals | operator => exact ⟨rfl, rfl⟩
      | operand x frames =>
        cases t with
        | name y => rfl
        | mark | literal | invalid | endOfInput => exact ⟨rfl, rfl⟩

end Control

theorem append_inj_of_utf8ByteSize {before after front back : List Char}
    (h : before ++ after = front ++ back)
    (size : (String.ofList before).utf8ByteSize = (String.ofList front).utf8ByteSize) :
    before = front ∧ after = back := by
  have empty {a b : List Char}
      (size : (String.ofList a).utf8ByteSize = (String.ofList (a ++ b)).utf8ByteSize) : b = [] := by
    rw [String.ofList_append, String.utf8ByteSize_append] at size
    have none : (String.ofList b).utf8ByteSize = 0 := by omega
    simpa using none
  rcases List.append_eq_append_iff.1 h with ⟨more, rfl, rfl⟩ | ⟨more, rfl, rfl⟩
  · simp [empty size]
  · simp [empty size.symm]

/-- A rejected source can be completed up to its error, and every source that has the same token
there after the same text is rejected with the same error. -/
theorem interpret_first_error {source : String} {e : Error} (h : interpret source = .error e) :
    ∃ before after, strip source = before ++ after ∧
      (String.ofList before).utf8ByteSize = e.position ∧
      e.Blames (tokenAt e.position after) ∧
      (∃ w result, interpret (String.ofList before ++ w) = .ok result) ∧
      ∀ other after', strip other = before ++ after' →
        tokenAt e.position after' = tokenAt e.position after → interpret other = .error e := by
  rw [interpret_eq_run] at h
  obtain ⟨ts, rest, table, c, scanned, steps, position, refused⟩ := refusal_of_run h
  rw [Nat.zero_add] at position
  refine ⟨Token.spelling ts, rest, scanned.text_eq, ?_, blames_of_refusal refused,
    ⟨_, interpret_completion scanned steps⟩, ?_⟩
  · rw [Token.utf8ByteSize_spelling, position]
  · intro other rest' text same
    have front : rest.head? = rest'.head? := by
      rw [head?_eq_tokenAt e.position rest, head?_eq_tokenAt e.position rest', same]
    have taken := scanned.change fun k => (Kind.endsBefore_congr front).1
    rw [interpret_eq_run, TokenStream.ofSource, text, run_of_scans taken steps, Nat.zero_add,
      ← position]
    apply run_of_refusal
    rw [same]
    exact refused

/-- The name is read before anything that follows it. -/
theorem interpret_unbound_error :
    interpret "x = 1;\ny = z + 2;" = .error ⟨6, .unbound "z"⟩ ∧
    (∃ w result, interpret ("x=1;y=" ++ w) = .ok result) ∧
    interpret "x = 1; y = z; = 007" = .error ⟨6, .unbound "z"⟩ := by
  have rejected : interpret "x = 1;\ny = z + 2;" = .error ⟨6, .unbound "z"⟩ := by
    decide +kernel
  obtain ⟨before, after, text, size, -, viable, decided⟩ := interpret_first_error rejected
  have whole : strip "x = 1;\ny = z + 2;" = "x=1;y=".toList ++ "z+2;".toList := by
    decide +kernel
  obtain ⟨rfl, rfl⟩ := append_inj_of_utf8ByteSize (text.symm.trans whole) (size.trans (by decide))
  refine ⟨rejected, viable, decided _ "z;=007".toList ?_ ?_⟩ <;> decide +kernel

end StraightLine
