import Mathlib.Logic.Embedding.Basic
import StraightLine.Proofs.ErrorReports
import StraightLine.Proofs.Lockstep
set_option autoImplicit false

namespace StraightLine

open Control

def Identifier :=
  { x : String // Kind.name.Spells x.toList }

abbrev Renaming :=
  Identifier ↪ Identifier

theorem Kind.spells_name_cons_iff {c : Char} {cs : List Char} :
    (isNameStart c && cs.all isNamePart) = true ↔ Kind.name.Spells (c :: cs) := by
  simp [Spells]

instance (text : List Char) : Decidable (Kind.name.Spells text) :=
  match text with
  | [] => .isFalse (by rintro ⟨_, _, ⟨⟩, _⟩)
  | _ :: _ => decidable_of_iff _ Kind.spells_name_cons_iff

theorem RejectedRun.length_sub_lt {fault : Numeral.Fault} {digits : String} {text : List Char}
    (h : RejectedRun fault digits text) :
    text.length - digits.toList.length < text.length := by
  obtain ⟨rest, rfl, -⟩ := h.front
  have some := List.length_pos_iff.2 h.ne_nil
  rw [List.length_append]
  omega

namespace Renaming

variable (r : Renaming) (past : Bool)

/-- The image of a name. What is no name is left alone. -/
def name (x : String) : String :=
  if h : Kind.name.Spells x.toList then (r ⟨x, h⟩).val else x

def token : Token → Token
  | .name x => .name (r.name x)
  | t => t

/-- The text with every name replaced and all else kept. Whether names after a rejected run of digits
are replaced as well is left open, as no run gets `past` it. -/
def text (old : List Char) : List Char :=
  match h : scan old with
  | .endOfText => []
  | .token t rest =>
    have := length_lt_of_scan h
    (r.token t).lexeme.toList ++ text rest
  | .rejected _ digits =>
    have := (rejectedRun_of_scan h).length_sub_lt
    digits.toList ++ if past then text (old.drop digits.toList.length)
      else old.drop digits.toList.length
termination_by old.length

def source (source : String) : String :=
  String.ofList (r.text past (strip source))

def table (t : Table) : Table :=
  t.map r.name id

def control : Control → Control
  | .target => .target
  | .equals x => .equals (r.name x)
  | .operand x frames => .operand (r.name x) frames
  | .operator x value frames => .operator (r.name x) value frames

def cause : Cause → Cause
  | .literal fault digits => .literal fault digits
  | .unexpected expected found lexeme =>
    .unexpected expected found (if found = .name then r.name lexeme else lexeme)
  | .operand found lexeme => .operand found (if found = .name then r.name lexeme else lexeme)
  | .unbound x => .unbound (r.name x)

variable {r past}

theorem name_of_spells {x : String} (h : Kind.name.Spells x.toList) : r.name x = (r ⟨x, h⟩).val :=
  dif_pos h

theorem name_of_not_spells {x : String} (h : ¬ Kind.name.Spells x.toList) : r.name x = x :=
  dif_neg h

theorem spells_name {x : String} (h : Kind.name.Spells x.toList) :
    Kind.name.Spells (r.name x).toList := by
  rw [name_of_spells h]
  exact (r ⟨x, h⟩).property

theorem name_injective : Function.Injective r.name := by
  intro x y same
  by_cases hx : Kind.name.Spells x.toList <;> by_cases hy : Kind.name.Spells y.toList
  · rw [name_of_spells hx, name_of_spells hy] at same
    exact congrArg Subtype.val (r.injective (Subtype.ext same))
  · have image := spells_name (r := r) hx
    rw [same, name_of_not_spells hy] at image
    exact absurd image hy
  · have image := spells_name (r := r) hy
    rw [← same, name_of_not_spells hx] at image
    exact absurd image hx
  · rwa [name_of_not_spells hx, name_of_not_spells hy] at same

@[simp] theorem kind_token (t : Token) : (r.token t).kind = t.kind := by
  cases t <;> rfl

theorem token_of_kind_ne {t : Token} (h : t.kind ≠ .name) : r.token t = t := by
  cases t with
  | name x => exact absurd rfl h
  | mark | literal | invalid | endOfInput => rfl

theorem wellFormed_token {t : Token} (h : t.WellFormed) : (r.token t).WellFormed := by
  cases t with
  | mark | literal | invalid | endOfInput => exact h
  | name x =>
    have spelled : Kind.name.Spells x.toList := h.spelled
    obtain ⟨c, cs, image, start, part⟩ := spells_name (r := r) spelled
    have written : r.name x = String.ofList (c :: cs) := by
      rw [← image, String.ofList_toList]
    rw [token, written]
    exact wellFormed_name start part

theorem text_of_endOfText {text : List Char} (h : scan text = .endOfText) :
    r.text past text = [] := by
  rw [Renaming.text]
  split <;> simp_all

theorem text_of_token {text rest : List Char} {t : Token} (h : scan text = .token t rest) :
    r.text past text = (r.token t).lexeme.toList ++ r.text past rest := by
  rw [Renaming.text]
  split <;> simp_all

theorem text_of_rejected {text : List Char} {fault : Numeral.Fault} {digits : String}
    (h : scan text = .rejected fault digits) :
    r.text past text = digits.toList ++ if past then r.text past (text.drop digits.toList.length)
      else text.drop digits.toList.length := by
  rw [Renaming.text]
  split <;> simp_all

theorem head?_text (r : Renaming) (past : Bool) (text : List Char) :
    (r.text past text).head? = text.head? ∨
      ∃ c d, text.head? = some c ∧ (r.text past text).head? = some d ∧
        isNameStart c = true ∧ isNameStart d = true := by
  cases found : scan text with
  | endOfText =>
    left
    rw [text_of_endOfText found, scan_eq_endOfText_iff.1 found]
  | rejected fault digits =>
    left
    have run := rejectedRun_of_scan found
    obtain ⟨rest, written, -⟩ := run.front
    rw [text_of_rejected found, List.head?_append_of_ne_nil _ run.ne_nil, written,
      List.head?_append_of_ne_nil _ run.ne_nil]
  | token t rest =>
    obtain ⟨wellFormed, -, written⟩ := scan_eq_token_iff.1 found
    by_cases kind : t.kind = .name
    · right
      have spelled := wellFormed.spelled
      have image := (wellFormed_token (r := r) wellFormed).spelled
      rw [kind_token, kind] at image
      rw [kind] at spelled
      obtain ⟨c, cs, old, start, -⟩ := spelled
      obtain ⟨d, ds, new, start', -⟩ := image
      refine ⟨c, d, ?_, ?_, start, start'⟩
      · rw [written, old]
        rfl
      · rw [text_of_token found, new]
        rfl
    · left
      have some : t.lexeme.toList ≠ [] := by simpa using wellFormed.nonempty
      rw [text_of_token found, token_of_kind_ne kind, List.head?_append_of_ne_nil _ some, written,
        List.head?_append_of_ne_nil _ some]

/-- What a name or a run of digits ends before, it ends before with other names in it. -/
theorem endsBefore_text {k : Kind} {rest : List Char} (h : k.EndsBefore rest) :
    k.EndsBefore (r.text past rest) := by
  rcases head?_text r past rest with same | ⟨c, d, old, new, start, start'⟩
  · exact (Kind.endsBefore_congr same).2 h
  · cases k with
    | mark | invalid | endOfInput => trivial
    | name =>
      have outside := h c old
      rw [isNamePart_of_isNameStart start] at outside
      cases outside
    | literal =>
      intro first front
      rw [new] at front
      cases front
      apply Bool.eq_false_iff.2
      intro digit
      rw [isNameStart_eq_false_of_isDigit digit] at start'
      cases start'

theorem scan_text_of_token {text rest : List Char} {t : Token} (h : scan text = .token t rest) :
    scan (r.text past text) = .token (r.token t) (r.text past rest) := by
  obtain ⟨wellFormed, ends, -⟩ := scan_eq_token_iff.1 h
  rw [text_of_token h]
  apply scan_of_wellFormed (wellFormed_token wellFormed)
  rw [kind_token]
  exact endsBefore_text ends

theorem scan_text_of_rejected {text : List Char} {fault : Numeral.Fault} {digits : String}
    (h : scan text = .rejected fault digits) :
    scan (r.text past text) = .rejected fault digits := by
  have run := rejectedRun_of_scan h
  obtain ⟨rest, written, outside⟩ := run.front
  rw [text_of_rejected h]
  refine scan_of_rejectedRun ⟨run.digit, run.described, _, rfl, ?_⟩
  rw [written, List.drop_left]
  split
  · exact endsBefore_text (k := .literal) outside
  · exact outside

theorem isBlank_lexeme_token {t : Token} (wellFormed : t.WellFormed)
    (h : ∀ c ∈ t.lexeme.toList, isBlank c = false) :
    ∀ c ∈ (r.token t).lexeme.toList, isBlank c = false := by
  by_cases kind : t.kind = .name
  · have valid : (r.token t).kind ≠ .invalid := by simp [kind]
    exact fun c hc => isBlank_of_isPlain ((wellFormed_token wellFormed).isPlain valid c hc)
  · rwa [token_of_kind_ne kind]

theorem isBlank_text {old : List Char} (h : ∀ c ∈ old, isBlank c = false) :
    ∀ c ∈ r.text past old, isBlank c = false := by
  fun_induction Renaming.text r past old with
  | case1 old found => simp
  | case2 old t rest found shorter ih =>
    obtain ⟨wellFormed, -, rfl⟩ := scan_eq_token_iff.1 found
    obtain ⟨first, more⟩ := List.forall_mem_append.1 h
    exact List.forall_mem_append.2 ⟨isBlank_lexeme_token wellFormed first, ih more⟩
  | case3 old fault digits found shorter ih =>
    obtain ⟨rest, rfl, -⟩ := (rejectedRun_of_scan found).front
    obtain ⟨first, more⟩ := List.forall_mem_append.1 h
    rw [List.drop_left] at ih ⊢
    refine List.forall_mem_append.2 ⟨first, ?_⟩
    split
    · exact ih more
    · exact more

theorem strip_source (source : String) :
    strip (r.source past source) = r.text past (strip source) := by
  have kept : ∀ c ∈ r.text past (strip source), isBlank c = false :=
    isBlank_text fun _ => isBlank_eq_false_of_mem_strip
  rw [strip, Renaming.source, String.toList_ofList, List.filter_eq_self]
  simpa using kept

@[simp] theorem get?_table (t : Table) (x : String) : (r.table t).get? (r.name x) = t.get? x := by
  rw [table, Table.get?_map name_injective, Option.map_id]
  rfl

@[simp] theorem assign_table (t : Table) (x : String) (value : Int64) :
    (r.table t).assign (r.name x) value = r.table (t.assign x value) :=
  Table.assign_map name_injective id t x value

@[simp] theorem resume_name (x : String) (value : Int64) (frames : List Frame) :
    resume (r.name x) value frames = r.control (resume x value frames) := by
  induction frames generalizing value with
  | nil => rfl
  | cons f frames ih =>
    cases f with
    | negate | times => exact ih _
    | group | plus | minus => rfl

theorem step?_control (table : Table) (c : Control) (t : Token) :
    (r.control c).step? (r.table table) (r.token t) =
      (c.step? table t).map (Prod.map r.table r.control) := by
  cases c with
  | target => cases t <;> rfl
  | equals x =>
    cases t with
    | mark m => cases m <;> rfl
    | name | literal | invalid | endOfInput => rfl
  | operand x frames =>
    cases t with
    | mark m => cases m <;> rfl
    | literal digits value => simp [control, token, step?]
    | name y =>
      simp only [control, token, step?, get?_table, Option.map_map]
      simp [Function.comp_def]
    | invalid | endOfInput => rfl
  | operator x value frames =>
    cases t with
    | mark m =>
      cases m with
      | rightParen =>
        simp only [control, token, step?]
        obtain ⟨total, outer⟩ := settle value frames
        cases outer with
        | nil => rfl
        | cons f outer => cases f <;> simp
      | semicolon =>
        simp only [control, token, step?]
        obtain ⟨total, outer⟩ := settle value frames
        cases outer <;> simp [control]
      | assign | plus | minus | star | leftParen => rfl
    | name | literal | invalid | endOfInput => rfl

theorem complaint_control (c : Control) (t : Token) :
    (r.control c).complaint (r.token t) = r.cause (c.complaint t) := by
  cases c <;> cases t <;> rfl

def lockstep (r : Renaming) : Lockstep where
  tokens t t' := t' = r.token t
  states s s' := s' = (r.table s.1, r.control s.2)
  causes cause cause' := cause' = r.cause cause
  ended := rfl
  target_iff := by
    rintro ⟨table, c⟩ _ rfl
    cases c <;> simp [control]
  step := by
    rintro ⟨table, c⟩ _ t _ rfl rfl
    rw [step?_control, complaint_control]
    cases c.step? table t with
    | none => exact .inr ⟨rfl, rfl, rfl⟩
    | some next => exact .inl ⟨next, _, rfl, rfl, rfl⟩

theorem streams_text (r : Renaming) (past : Bool) (position position' : Nat) (text : List Char) :
    r.lockstep.Streams (.ofText position text) (.ofText position' (r.text past text)) := by
  fun_induction TokenStream.ofText position text generalizing position' with
  | case1 position text found =>
    rw [text_of_endOfText found, TokenStream.ofText_nil]
    exact .finish position position'
  | case2 position text fault digits found =>
    rw [TokenStream.ofText_of_rejected (scan_text_of_rejected found)]
    exact .rejected rfl
  | case3 position text t rest found _ ih =>
    have found' : scan (r.text past text) = .token (r.token t) (r.text past rest) :=
      scan_text_of_token found
    rw [TokenStream.ofText_of_token found']
    exact .token (ne_endOfInput_of_scan found) (ne_endOfInput_of_scan found') rfl (ih _)

theorem sequence_of_streams {s s' : TokenStream} (h : r.lockstep.Streams s s') :
    s'.sequence = s.sequence.map r.token := by
  induction h with
  | finish | rejected => rfl
  | token _ _ same _ ih =>
    rw [TokenStream.sequence_token, TokenStream.sequence_token, List.map_cons, ih, same]

end Renaming

/-- With other names a program ends as before, and its table or its error has the other names. -/
theorem interpret_rename (r : Renaming) (past : Bool) (source : String) :
    (TokenStream.ofSource (r.source past source)).sequence =
      (TokenStream.ofSource source).sequence.map r.token ∧
    ((∃ table table', interpret source = .ok table ∧
        interpret (r.source past source) = .ok table' ∧
        table'.toList = table.toList.map (Prod.map r.name id)) ∨
      ∃ e e' i, interpret source = .error e ∧ interpret (r.source past source) = .error e' ∧
        e'.cause = r.cause e.cause ∧
        (TokenStream.ofSource source).start? i = some e.position ∧
        (TokenStream.ofSource (r.source past source)).start? i = some e'.position) := by
  have streams : r.lockstep.Streams (.ofSource source) (.ofSource (r.source past source)) := by
    rw [TokenStream.ofSource, TokenStream.ofSource, Renaming.strip_source]
    exact Renaming.streams_text r past 0 0 (strip source)
  refine ⟨Renaming.sequence_of_streams streams, ?_⟩
  rcases streams.interpret_cases rfl with ⟨table, table', done, done', same⟩ | failed
  · obtain rfl : table' = r.table table := (Prod.mk.inj same).1
    exact .inl ⟨table, r.table table, done, done', Table.toList_map Renaming.name_injective id table⟩
  · exact .inr failed

end StraightLine
