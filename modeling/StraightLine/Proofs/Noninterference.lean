import StraightLine.Proofs.Lockstep
import StraightLine.Table.Lemmas
set_option autoImplicit false

namespace StraightLine

open Control

def Token.shape : Token → Token
  | literal _ _ => literal "" 0
  | t => t

def Frame.shape : Frame → Frame
  | group => group
  | plus _ => plus 0
  | minus _ => minus 0
  | times _ => times 0
  | negate => negate

def Control.shape : Control → Control
  | target => target
  | equals x => equals x
  | operand x frames => operand x (frames.map Frame.shape)
  | operator x _ frames => operator x 0 (frames.map Frame.shape)

def Table.shape (t : Table) : Table :=
  t.map id fun _ => 0

def Cause.shape : Cause → Cause
  | unexpected expected found lexeme =>
    unexpected expected found (if found = .literal then "" else lexeme)
  | operand found lexeme => operand found (if found = .literal then "" else lexeme)
  | cause => cause

@[simp] theorem Frame.shape_comp_shape : shape ∘ shape = shape := by
  funext f
  cases f <;> rfl

@[simp] theorem Control.shape_operand (x : String) (frames : List Frame) :
    (operand x frames).shape = operand x (frames.map Frame.shape) := rfl

@[simp] theorem Control.shape_operator (x : String) (value : Int64) (frames : List Frame) :
    (operator x value frames).shape = operator x 0 (frames.map Frame.shape) := rfl

namespace Table

theorem toList_shape (t : Table) : t.shape.toList = t.toList.map (Prod.map id fun _ => 0) :=
  toList_map Function.injective_id _ t

@[simp] theorem shape_shape (t : Table) : t.shape.shape = t.shape := by
  apply toList_injective
  simp [toList_shape]

theorem get?_shape (t : Table) (x : String) : t.shape.get? x = (t.get? x).map fun _ => 0 :=
  get?_map Function.injective_id _ t x

theorem assign_shape (t : Table) (x : String) (value : Int64) :
    t.shape.assign x 0 = (t.assign x value).shape :=
  assign_map Function.injective_id (fun _ => 0) t x value

theorem shape_assign_shape (t : Table) (x : String) (value value' : Int64) :
    (t.shape.assign x value').shape = (t.assign x value).shape := by
  rw [← assign_shape, ← assign_shape t x value, shape_shape]

theorem names_eq_of_shape {t t' : Table} (h : t.shape = t'.shape) :
    t.toList.map Prod.fst = t'.toList.map Prod.fst := by
  have names (u : Table) : u.shape.toList.map Prod.fst = u.toList.map Prod.fst := by
    simp [toList_shape]
  rw [← names t, h, names t']

end Table

namespace Control

theorem shape_resume (x : String) (value value' : Int64) (frames : List Frame) :
    (resume x value' (frames.map Frame.shape)).shape = (resume x value frames).shape := by
  induction frames generalizing value value' with
  | nil => rfl
  | cons f frames ih =>
    cases f with
    | negate | times => exact ih _ _
    | group | plus | minus => simp [resume, Frame.shape]

theorem settle_shape (value value' : Int64) (frames : List Frame) :
    (settle value' (frames.map Frame.shape)).2 = (settle value frames).2.map Frame.shape := by
  induction frames generalizing value value' with
  | nil => rfl
  | cons f frames ih =>
    cases f with
    | negate | times | plus | minus => exact ih _ _
    | group => rfl

/-- The shape of a step is the step of the shapes. -/
theorem shape_step? (table : Table) (c : Control) (t : Token) :
    (c.shape.step? table.shape t.shape).map (Prod.map Table.shape shape) =
      (c.step? table t).map (Prod.map Table.shape shape) := by
  cases c with
  | target => cases t <;> simp [shape, Token.shape, step?]
  | equals x =>
    cases t with
    | mark m => cases m <;> simp [shape, Token.shape, step?]
    | name | literal | invalid | endOfInput => rfl
  | operand x frames =>
    cases t with
    | mark m => cases m <;> simp [Token.shape, step?, Frame.shape]
    | literal digits value => simp [Token.shape, step?, shape_resume x value]
    | name y =>
      simp only [shape_operand, Token.shape, step?, Table.get?_shape]
      cases table.get? y with
      | none => rfl
      | some value => simp [shape_resume x value]
    | invalid | endOfInput => rfl
  | operator x value frames =>
    -- Whatever the open sums and products come to, the same frames are left when they end.
    have ended := settle_shape value 0 frames
    rcases inner : settle value frames with ⟨total, outer⟩
    rcases inner' : settle 0 (frames.map Frame.shape) with ⟨total', outer'⟩
    rw [inner, inner'] at ended
    obtain rfl : outer' = outer.map Frame.shape := ended
    cases t with
    | mark m =>
      cases m with
      | star => simp [Token.shape, step?, Frame.shape]
      | plus | minus => simp [Token.shape, step?, inner, inner', Frame.shape]
      | rightParen =>
        simp only [shape_operator, Token.shape, step?, inner, inner']
        cases outer with
        | nil => rfl
        | cons f outer =>
          cases f with
          | group => simp [Frame.shape, shape_resume x total]
          | plus | minus | times | negate => rfl
      | semicolon =>
        simp only [shape_operator, Token.shape, step?, inner, inner']
        cases outer with
        | nil => simp [Table.shape_assign_shape table x total]
        | cons f outer => rfl
      | assign | leftParen => rfl
    | name | literal | invalid | endOfInput => rfl

theorem group_mem_map_shape_iff (frames : List Frame) :
    .group ∈ frames.map Frame.shape ↔ .group ∈ frames := by
  have same (f : Frame) : f.shape = .group ↔ f = .group := by cases f <;> simp [Frame.shape]
  simp [List.mem_map, same]

theorem shape_complaint (c : Control) (t : Token) :
    (c.shape.complaint t.shape).shape = (c.complaint t).shape := by
  cases c with
  | target | equals | operand => cases t <;> rfl
  | operator x value frames =>
    simp only [shape_operator, complaint, group_mem_map_shape_iff]
    cases t <;> rfl

theorem step?_of_shape_eq {table table' : Table} {c c' : Control} {t t' : Token}
    (tables : table.shape = table'.shape) (controls : c.shape = c'.shape)
    (tokens : t.shape = t'.shape) :
    (∃ next next', c.step? table t = some next ∧ c'.step? table' t' = some next' ∧
      next.1.shape = next'.1.shape ∧ next.2.shape = next'.2.shape) ∨
    (c.step? table t = none ∧ c'.step? table' t' = none ∧
      (c.complaint t).shape = (c'.complaint t').shape) := by
  have steps := shape_step? table c t
  rw [tables, controls, tokens, shape_step?] at steps
  cases taken : c.step? table t with
  | none =>
    rw [taken, Option.map_none, Option.map_eq_none_iff] at steps
    have complaints := shape_complaint c t
    rw [controls, tokens, shape_complaint] at complaints
    exact .inr ⟨rfl, steps, complaints.symm⟩
  | some next =>
    rw [taken, Option.map_some, Option.map_eq_some_iff] at steps
    obtain ⟨next', taken', same⟩ := steps
    obtain ⟨tables', controls'⟩ := Prod.mk.inj same
    exact .inl ⟨next, next', rfl, taken', tables'.symm, controls'.symm⟩

theorem eq_target_iff_of_shape_eq {c c' : Control} (h : c.shape = c'.shape) :
    c = target ↔ c' = target := by
  have only (c : Control) : c.shape = target ↔ c = target := by cases c <;> simp [shape]
  rw [← only c, h, only c']

end Control

def Lockstep.ofShape : Lockstep where
  tokens t t' := t.shape = t'.shape
  states s s' := s.1.shape = s'.1.shape ∧ s.2.shape = s'.2.shape
  causes cause cause' := cause.shape = cause'.shape
  ended := rfl
  target_iff same := eq_target_iff_of_shape_eq same.2
  step same tokens := step?_of_shape_eq same.1 same.2 tokens

namespace TokenStream

theorem streams_of_shape {s s' : TokenStream} (proper : s.Proper) (proper' : s'.Proper)
    (tokens : s.sequence.map Token.shape = s'.sequence.map Token.shape)
    (faults : s.fault?.map (·.toError.cause) = s'.fault?.map (·.toError.cause)) :
    Lockstep.ofShape.Streams s s' := by
  induction s generalizing s' with
  | finish position =>
    cases s' with
    | finish position' => exact .finish position position'
    | rejected r' => cases faults
    | token => cases tokens
  | rejected r =>
    cases s' with
    | finish position' => cases faults
    | rejected r' => exact .rejected (congrArg Cause.shape (Option.some.inj faults))
    | token => cases tokens
  | token position t rest ih =>
    cases s' with
    | finish | rejected => cases tokens
    | token position' t' rest' =>
      obtain ⟨inside, proper⟩ := proper_token_iff.1 proper
      obtain ⟨inside', proper'⟩ := proper_token_iff.1 proper'
      obtain ⟨first, more⟩ := List.cons.inj tokens
      exact .token inside inside' first (ih proper proper' more faults)

theorem read_of_fault? {offset : Nat} {text : List Char} {r : RejectedLiteral}
    (h : (ofText offset text).fault? = some r) :
    Numeral.read r.digits.toList = .error r.fault := by
  obtain ⟨rest, -, stops⟩ := (tokenisation_ofText offset text).covers
  rw [h] at stops
  obtain ⟨-, run⟩ := stops
  exact (Numeral.read_eq_error_iff run.ne_nil run.digit).2 run.described

theorem causes_of_digits {source source' : String}
    (h : (ofSource source).fault?.map (·.digits) = (ofSource source').fault?.map (·.digits)) :
    (ofSource source).fault?.map (·.toError.cause) =
      (ofSource source').fault?.map (·.toError.cause) := by
  cases fault : (ofSource source).fault? with
  | none =>
    rw [fault, Option.map_none, eq_comm, Option.map_eq_none_iff] at h
    rw [h]
  | some r =>
    rw [fault, Option.map_some, eq_comm, Option.map_eq_some_iff] at h
    obtain ⟨r', fault', same⟩ := h
    have read := read_of_fault? fault
    rw [← same, read_of_fault? fault'] at read
    obtain ⟨position, f, digits⟩ := r
    obtain ⟨position', f', digits'⟩ := r'
    cases same
    cases read
    rw [fault']
    rfl

end TokenStream

/-- Programs with the same tokens but for the literals end alike, whatever the literals are. -/
theorem interpret_of_shape_eq {source source' : String}
    (tokens : (TokenStream.ofSource source).sequence.map Token.shape =
      (TokenStream.ofSource source').sequence.map Token.shape)
    (rejected : (TokenStream.ofSource source).fault?.map (·.digits) =
      (TokenStream.ofSource source').fault?.map (·.digits)) :
    (∃ table table', interpret source = .ok table ∧ interpret source' = .ok table' ∧
      table.toList.map Prod.fst = table'.toList.map Prod.fst) ∨
    ∃ e e' i, interpret source = .error e ∧ interpret source' = .error e' ∧
      e.cause.shape = e'.cause.shape ∧
      (TokenStream.ofSource source).start? i = some e.position ∧
      (TokenStream.ofSource source').start? i = some e'.position := by
  have streams := TokenStream.streams_of_shape (TokenStream.proper_ofSource source)
    (TokenStream.proper_ofSource source') tokens (TokenStream.causes_of_digits rejected)
  rcases streams.interpret_cases ⟨rfl, rfl⟩ with ⟨table, table', done, done', same⟩ | failed
  · exact .inl ⟨table, table', done, done', Table.names_eq_of_shape same.1⟩
  · exact .inr failed

/-- The literals move the unbound name, which is the token with the same index in both. -/
theorem interpret_unbound_same_index :
    interpret "x = 0; y = -x * 9; z = w;" = .error ⟨13, .unbound "w"⟩ ∧
    interpret "x = 70; y = -x * 128; z = w;" = .error ⟨16, .unbound "w"⟩ ∧
    ∃ i, (TokenStream.ofSource "x = 0; y = -x * 9; z = w;").start? i = some 13 ∧
      (TokenStream.ofSource "x = 70; y = -x * 128; z = w;").start? i = some 16 := by
  have here : interpret "x = 0; y = -x * 9; z = w;" = .error ⟨13, .unbound "w"⟩ := by
    decide +kernel
  have there : interpret "x = 70; y = -x * 128; z = w;" = .error ⟨16, .unbound "w"⟩ := by
    decide +kernel
  refine ⟨here, there, ?_⟩
  rcases @interpret_of_shape_eq "x = 0; y = -x * 9; z = w;" "x = 70; y = -x * 128; z = w;"
    (by decide +kernel) (by decide +kernel) with
    ⟨table, table', accepted, -⟩ | ⟨e, e', i, failed, failed', -, start, start'⟩
  · rw [here] at accepted
    cases accepted
  · rw [here] at failed
    rw [there] at failed'
    cases failed
    cases failed'
    exact ⟨i, start, start'⟩

end StraightLine
