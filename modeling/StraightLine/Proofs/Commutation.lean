import StraightLine.Proofs.BindingOrder
import StraightLine.Proofs.Composition
import StraightLine.Proofs.Lockstep
set_option autoImplicit false

namespace StraightLine

open Control Grammar

namespace Expr

def names : Expr → List String
  | literal _ => []
  | name x => [x]
  | plus e | minus e => e.names
  | add a b | sub a b | mul a b => a.names ++ b.names

theorem eval_congr {e : Expr} {t u : Table} (h : ∀ x ∈ e.names, t.get? x = u.get? x) :
    e.eval t = e.eval u := by
  induction e with
  | literal v => rfl
  | name x => exact h x List.mem_cons_self
  | plus e ih => exact ih h
  | minus e ih => rw [eval_minus, eval_minus, ih h]
  | add a b iha ihb | sub a b iha ihb | mul a b iha ihb =>
    have left := iha fun x hx => h x (List.mem_append_left _ hx)
    have right := ihb fun x hx => h x (List.mem_append_right _ hx)
    simp only [eval_add, eval_sub, eval_mul, left, right]

theorem eval_assign {e : Expr} {x : String} (h : x ∉ e.names) (t : Table) (v : Int64) :
    e.eval (t.assign x v) = e.eval t := by
  apply eval_congr
  intro y inside
  rw [Table.get?_assign, if_neg]
  rintro rfl
  exact h inside

end Expr

namespace Grammar

mutual

theorem Factor.names_eq {ts : List Token} {e : Expr} (h : Factor ts e) :
    Token.names ts = e.names :=
  match h with
  | .literal _ _ => rfl
  | .name _ => rfl
  | .plus h | .minus h => h.names_eq
  | .group h => by simp [h.names_eq]

theorem Term.names_eq {ts : List Token} {e : Expr} (h : Term ts e) : Token.names ts = e.names :=
  match h with
  | .factor h => h.names_eq
  | .mul ha hb => by simp [ha.names_eq, hb.names_eq, Expr.names]

theorem Expression.names_eq {ts : List Token} {e : Expr} (h : Expression ts e) :
    Token.names ts = e.names :=
  match h with
  | .term h => h.names_eq
  | .add ha hb | .sub ha hb => by simp [ha.names_eq, hb.names_eq, Expr.names]

end

theorem Assignment.names_eq {ts : List Token} {s : Statement} (h : Assignment ts s) :
    Token.names ts = s.target :: s.source.names := by
  cases h with
  | @mk x ts e h => simp [h.names_eq]

end Grammar

namespace Table

/-- A relation of tables that have the same values, also after the same assignments. -/
structure Unnoticed (R : Table → Table → Prop) : Prop where
  get?_eq : ∀ {t u}, R t u → ∀ x, t.get? x = u.get? x
  assign : ∀ {t u}, R t u → ∀ x v, R (t.assign x v) (u.assign x v)

theorem unnoticed_eq : Unnoticed Eq :=
  ⟨by rintro t _ rfl x; rfl, by rintro t _ rfl x v; rfl⟩

/-- The tables differ only in the order of two neighbours, the first of which is `a` in one table
and `b` in the other. -/
def Exchanged (a b : String) (t u : Table) : Prop :=
  ∃ front v w back, t.toList = front ++ (a, v) :: (b, w) :: back ∧
    u.toList = front ++ (b, w) :: (a, v) :: back

theorem Exchanged.get?_eq {a b : String} {t u : Table} (h : t.Exchanged a b u) (x : String) :
    t.get? x = u.get? x := by
  obtain ⟨front, v, w, back, left, right⟩ := h
  have perm : t.toList.Perm u.toList := by
    rw [left, right]
    exact (List.Perm.swap _ _ _).append_left front
  apply Option.ext
  intro value
  rw [get?_eq_some_iff, get?_eq_some_iff, perm.mem_iff]

theorem Exchanged.assign {a b : String} {t u : Table} (h : t.Exchanged a b u) (x : String)
    (value : Int64) : (t.assign x value).Exchanged a b (u.assign x value) := by
  have same := h.get?_eq x
  obtain ⟨front, v, w, back, left, right⟩ := h
  cases found : t.get? x with
  | none =>
    rw [found] at same
    refine ⟨front, v, w, back ++ [(x, value)], ?_, ?_⟩
    · rw [toList_assign_of_get?_eq_none found, left]
      simp
    · rw [toList_assign_of_get?_eq_none same.symm, right]
      simp
  | some old =>
    rw [found] at same
    have kept (y : String) (v : Int64) : (if y = x then (x, value) else (y, v)) =
        (y, if y = x then value else v) := by
      split
      next here => rw [here]
      · rfl
    refine ⟨front.map fun entry => if entry.1 = x then (x, value) else entry,
      if a = x then value else v, if b = x then value else w,
      back.map fun entry => if entry.1 = x then (x, value) else entry, ?_, ?_⟩
    · rw [toList_assign_of_get?_eq_some found, left]
      simp only [List.map_append, List.map_cons, kept]
    · rw [toList_assign_of_get?_eq_some same.symm, right]
      simp only [List.map_append, List.map_cons, kept]

theorem unnoticed_exchanged (a b : String) : Unnoticed (Exchanged a b) :=
  ⟨Exchanged.get?_eq, Exchanged.assign⟩

theorem assign_comm {t : Table} {a b : String} (apart : a ≠ b)
    (bound : a ∈ t.toList.map Prod.fst ∨ b ∈ t.toList.map Prod.fst) (v w : Int64) :
    (t.assign a v).assign b w = (t.assign b w).assign a v := by
  apply ext_names
  · simp only [names_assign]
    rcases bound with here | here
    · by_cases there : b ∈ t.toList.map Prod.fst <;> simp [here, there]
    · by_cases there : a ∈ t.toList.map Prod.fst <;> simp [here, there]
  · intro x
    simp only [get?_assign]
    by_cases here : a = x
    · subst here
      simp [apart.symm]
    · simp [here]

theorem exchanged_assign {t : Table} {a b : String} (apart : a ≠ b) (ha : t.get? a = none)
    (hb : t.get? b = none) (v w : Int64) :
    ((t.assign a v).assign b w).Exchanged a b ((t.assign b w).assign a v) := by
  have hb' : (t.assign a v).get? b = none := by rw [get?_assign, if_neg apart, hb]
  have ha' : (t.assign b w).get? a = none := by rw [get?_assign, if_neg apart.symm, ha]
  refine ⟨t.toList, v, w, [], ?_, ?_⟩
  · rw [toList_assign_of_get?_eq_none hb', toList_assign_of_get?_eq_none ha]
    simp
  · rw [toList_assign_of_get?_eq_none ha', toList_assign_of_get?_eq_none hb]
    simp

end Table

/-- What a token does, in whatever table: it is refused, it leaves the table alone, it reads one
name, or it sets one. -/
theorem Control.step?_forms (c : Control) (t : Token) :
    (∀ table, c.step? table t = none) ∨
    (∃ c', ∀ table, c.step? table t = some (table, c')) ∨
    (∃ (y : String) (next : Int64 → Control),
      ∀ table, c.step? table t = (table.get? y).map fun v => (table, next v)) ∨
    ∃ x v, ∀ table, c.step? table t = some (table.assign x v, target) := by
  cases c with
  | target =>
    cases t with
    | name x => exact .inr (.inl ⟨equals x, fun _ => rfl⟩)
    | mark | literal | invalid | endOfInput => exact .inl fun _ => rfl
  | equals x =>
    cases t with
    | mark m =>
      cases m with
      | assign => exact .inr (.inl ⟨operand x [], fun _ => rfl⟩)
      | semicolon | plus | minus | star | leftParen | rightParen => exact .inl fun _ => rfl
    | name | literal | invalid | endOfInput => exact .inl fun _ => rfl
  | operand x frames =>
    cases t with
    | mark m =>
      cases m with
      | plus | minus | leftParen => exact .inr (.inl ⟨_, fun _ => rfl⟩)
      | assign | semicolon | star | rightParen => exact .inl fun _ => rfl
    | literal digits v => exact .inr (.inl ⟨resume x v frames, fun _ => rfl⟩)
    | name y => exact .inr (.inr (.inl ⟨y, fun v => resume x v frames, fun _ => rfl⟩))
    | invalid | endOfInput => exact .inl fun _ => rfl
  | operator x value frames =>
    obtain ⟨total, outer, settled⟩ : ∃ total outer, settle value frames = (total, outer) :=
      ⟨_, _, rfl⟩
    have pending : Settled outer := by
      have inner := settled_settle value frames
      rwa [settled] at inner
    cases t with
    | mark m =>
      cases m with
      | plus | minus | star => exact .inr (.inl ⟨_, fun _ => rfl⟩)
      | assign | leftParen => exact .inl fun _ => rfl
      | rightParen =>
        obtain rfl | ⟨outer, rfl⟩ := pending
        · exact .inl fun _ => by simp [step?, settled]
        · exact .inr (.inl ⟨resume x total outer, fun _ => by simp [step?, settled]⟩)
      | semicolon =>
        obtain rfl | ⟨outer, rfl⟩ := pending
        · exact .inr (.inr (.inr ⟨x, total, fun _ => by simp [step?, settled]⟩))
        · exact .inl fun _ => by simp [step?, settled]
    | name | literal | invalid | endOfInput => exact .inl fun _ => rfl

def Lockstep.ofUnnoticed {R : Table → Table → Prop} (unnoticed : Table.Unnoticed R) : Lockstep where
  tokens := Eq
  states s s' := s.2 = s'.2 ∧ R s.1 s'.1
  causes := Eq
  ended := rfl
  target_iff same := by rw [same.1]
  step := by
    rintro ⟨table, c⟩ ⟨table', _⟩ t _ ⟨rfl, same⟩ rfl
    rcases c.step?_forms t with none | ⟨c', kept⟩ | ⟨y, next, read⟩ | ⟨x, v, set⟩
    · exact .inr ⟨none _, none _, rfl⟩
    · exact .inl ⟨_, _, kept _, kept _, rfl, same⟩
    · have value := unnoticed.get?_eq same y
      cases found : table.get? y with
      | none =>
        rw [found] at value
        refine .inr ⟨?_, ?_, rfl⟩
        · rw [read, found]
          rfl
        · rw [read, ← value]
          rfl
      | some v =>
        rw [found] at value
        refine .inl ⟨(table, next v), (table', next v), ?_, ?_, rfl, same⟩
        · rw [read, found]
          rfl
        · rw [read, ← value]
          rfl
    · exact .inl ⟨_, _, set _, set _, rfl, unnoticed.assign same x v⟩

theorem Lockstep.streams_refl {R : Table → Table → Prop} (unnoticed : Table.Unnoticed R)
    {s : TokenStream} (proper : s.Proper) : (ofUnnoticed unnoticed).Streams s s := by
  induction s with
  | finish position => exact .finish position position
  | rejected r => exact .rejected rfl
  | token position t rest ih =>
    obtain ⟨inside, proper⟩ := TokenStream.proper_token_iff.1 proper
    exact .token inside inside rfl (ih proper)

theorem interpretFrom_unnoticed {R : Table → Table → Prop} (unnoticed : Table.Unnoticed R)
    {t u : Table} (same : R t u) (source : String) :
    (∃ r r', interpretFrom t source = .ok r ∧ interpretFrom u source = .ok r' ∧ R r r') ∨
    ∃ e e', interpretFrom t source = .error e ∧ interpretFrom u source = .error e' := by
  have streams := Lockstep.streams_refl unnoticed (TokenStream.proper_ofSource source)
  have start : (Lockstep.ofUnnoticed unnoticed).states (t, target) (u, target) := ⟨rfl, same⟩
  have outcomes := Lockstep.run_outcomes streams start
  change Lockstep.Outcomes _ _ _ (interpretFrom t source) (interpretFrom u source) at outcomes
  generalize interpretFrom t source = outcome, interpretFrom u source = outcome' at outcomes ⊢
  cases outcomes with
  | @accepted r r' same => exact .inl ⟨r, r', rfl, rfl, same.2⟩
  | @rejected e e' => exact .inr ⟨e, e', rfl, rfl⟩

/-- The text is one statement, and nothing in it is rejected as a literal. -/
structure IsStatement (text : String) (s : Statement) : Prop where
  literals : (TokenStream.ofSource text).fault? = none
  derived : Assignment (TokenStream.ofSource text).sequence s

theorem interpret_two_eq_ok_iff {front first second back : String} {table result : Table}
    {p q : Statement} (before : interpret front = .ok table) (one : IsStatement first p)
    (two : IsStatement second q) (free : p.target ∉ q.source.names) :
    interpret (front ++ first ++ second ++ back) = .ok result ↔
      ∃ v w, p.source.eval table = some v ∧ q.source.eval table = some w ∧
        interpretFrom ((table.assign p.target v).assign q.target w) back = .ok result := by
  have after : interpret (front ++ (first ++ (second ++ back))) = .ok result ↔
      interpretFrom table (first ++ (second ++ back)) = .ok result := by
    rw [interpret_append before, mapError_eq_ok_iff]
  have single (s : Statement) (t : Table) : Statement.executeAll t [s] = s.execute t := by
    simp [Statement.executeAll]
  rw [String.append_assoc, String.append_assoc, after,
    interpretFrom_append_eq_ok_iff one.literals (.singleton one.derived)]
  simp only [interpretFrom_append_eq_ok_iff two.literals (.singleton two.derived), single,
    Statement.execute, Option.map_eq_some_iff]
  constructor
  · rintro ⟨_, ⟨v, left, rfl⟩, _, ⟨w, right, rfl⟩, last⟩
    rw [Expr.eval_assign free] at right
    exact ⟨v, w, left, right, last⟩
  · rintro ⟨v, w, left, right, last⟩
    rw [← Expr.eval_assign free table v] at right
    exact ⟨_, ⟨v, left, rfl⟩, _, ⟨w, right, rfl⟩, last⟩

structure Statement.Independent (p q : Statement) : Prop where
  apart : p.target ≠ q.target
  first : p.target ∉ q.source.names
  second : q.target ∉ p.source.names

theorem interpret_swap_of_unnoticed {front first second : String} {table : Table}
    {p q : Statement} {R : Table → Table → Prop} (unnoticed : Table.Unnoticed R)
    (before : interpret front = .ok table) (one : IsStatement first p) (two : IsStatement second q)
    (independent : p.Independent q)
    (swap : ∀ v w, R ((table.assign p.target v).assign q.target w)
      ((table.assign q.target w).assign p.target v)) (back : String) :
    ((∃ r, interpret (front ++ first ++ second ++ back) = .ok r) ↔
      ∃ r, interpret (front ++ second ++ first ++ back) = .ok r) ∧
    ∀ r r', interpret (front ++ first ++ second ++ back) = .ok r →
      interpret (front ++ second ++ first ++ back) = .ok r' → R r r' := by
  have both (v w : Int64) := interpretFrom_unnoticed unnoticed (swap v w) back
  simp only [interpret_two_eq_ok_iff before one two independent.first,
    interpret_two_eq_ok_iff before two one independent.second]
  refine ⟨⟨?_, ?_⟩, ?_⟩
  · rintro ⟨r, v, w, left, right, last⟩
    rcases both v w with ⟨_, r', -, last', -⟩ | ⟨_, _, failed, -⟩
    · exact ⟨r', w, v, right, left, last'⟩
    · rw [last] at failed
      cases failed
  · rintro ⟨r', w, v, right, left, last'⟩
    rcases both v w with ⟨r, _, last, -, -⟩ | ⟨_, _, -, failed⟩
    · exact ⟨r, v, w, left, right, last⟩
    · rw [last'] at failed
      cases failed
  · rintro r r' ⟨v, w, left, right, last⟩ ⟨w', v', right', left', last'⟩
    obtain rfl : v = v' := Option.some.inj (left.symm.trans left')
    obtain rfl : w = w' := Option.some.inj (right.symm.trans right')
    rcases both v w with ⟨s, s', ended, ended', related⟩ | ⟨_, _, failed, -⟩
    · rw [last] at ended
      rw [last'] at ended'
      cases ended
      cases ended'
      exact related
    · rw [last] at failed
      cases failed

theorem interpret_of_strip_eq_nil {source : String} (h : strip source = []) :
    interpret source = .ok .empty := by
  rw [interpret_eq_run, TokenStream.ofSource, h, TokenStream.ofText_nil]
  rfl

theorem IsStatement.independent {first second : String} {p q : Statement}
    (one : IsStatement first p) (two : IsStatement second q)
    (absent : p.target ∉ Token.names (TokenStream.ofSource second).sequence)
    (absent' : q.target ∉ Token.names (TokenStream.ofSource first).sequence) :
    p.Independent q := by
  rw [two.derived.names_eq, List.mem_cons, not_or] at absent
  rw [one.derived.names_eq, List.mem_cons, not_or] at absent'
  exact ⟨absent.1, absent.2, absent'.2⟩

/-- Two neighbouring statements, neither of which mentions the target of the other, can change
places: the same programs are accepted, with the same values. The order of names changes just if
both targets are new, and then only theirs. -/
theorem interpret_swap {front first second : String} {p q : Statement}
    (before : (∃ table, interpret front = .ok table) ∨ strip front = [])
    (one : IsStatement first p) (two : IsStatement second q)
    (absent : p.target ∉ Token.names (TokenStream.ofSource second).sequence)
    (absent' : q.target ∉ Token.names (TokenStream.ofSource first).sequence) (back : String) :
    ∃ table, interpret front = .ok table ∧
      ((∃ r, interpret (front ++ first ++ second ++ back) = .ok r) ↔
        ∃ r, interpret (front ++ second ++ first ++ back) = .ok r) ∧
      ∀ r r', interpret (front ++ first ++ second ++ back) = .ok r →
        interpret (front ++ second ++ first ++ back) = .ok r' →
        (∀ x, r.get? x = r'.get? x) ∧
        (table.contains p.target = true ∨ table.contains q.target = true → r = r') ∧
        (table.contains p.target = false → table.contains q.target = false →
          r.Exchanged p.target q.target r') := by
  obtain ⟨table, accepted⟩ : ∃ table, interpret front = .ok table :=
    before.elim id fun none => ⟨.empty, interpret_of_strip_eq_nil none⟩
  have independent := one.independent two absent absent'
  have contains_iff (x : String) :
      table.contains x = true ↔ x ∈ table.toList.map Prod.fst := by
    rw [Table.contains_iff, Table.mem_names_iff]
  by_cases bound : table.contains p.target = true ∨ table.contains q.target = true
  · have known := bound
    rw [contains_iff, contains_iff] at known
    obtain ⟨same, equal⟩ := interpret_swap_of_unnoticed Table.unnoticed_eq accepted one two
      independent (Table.assign_comm independent.apart known) back
    refine ⟨table, accepted, same, ?_⟩
    intro r r' left right
    obtain rfl := equal r r' left right
    refine ⟨fun _ => rfl, fun _ => rfl, ?_⟩
    intro new new'
    simp [new, new'] at bound
  · have fresh (x : String) (h : ¬ table.contains x = true) : table.get? x = none := by
      rwa [Table.contains_iff, Option.not_isSome_iff_eq_none] at h
    rw [not_or] at bound
    obtain ⟨same, exchanged⟩ := interpret_swap_of_unnoticed (Table.unnoticed_exchanged _ _) accepted
      one two independent
      (Table.exchanged_assign independent.apart (fresh _ bound.1) (fresh _ bound.2)) back
    refine ⟨table, accepted, same, ?_⟩
    intro r r' left right
    have related := exchanged r r' left right
    refine ⟨related.get?_eq, ?_, fun _ _ => related⟩
    intro known
    exact absurd known (not_or.2 bound)

/-- Two new names, both read and one of them set again by the text that follows. -/
theorem interpret_swap_new_names :
    IsStatement "a = x + 2;" ⟨"a", .add (.name "x") (.literal 2)⟩ ∧
    IsStatement "b = -x;" ⟨"b", .minus (.name "x")⟩ ∧
    interpret ("x = 1;" ++ "a = x + 2;" ++ "b = -x;" ++ "a = a * b;") =
      .ok (.ofHistory [("x", 1), ("a", -3), ("b", -1)]) ∧
    interpret ("x = 1;" ++ "b = -x;" ++ "a = x + 2;" ++ "a = a * b;") =
      .ok (.ofHistory [("x", 1), ("b", -1), ("a", -3)]) ∧
    (Table.ofHistory [("x", 1), ("a", -3), ("b", -1)]).Exchanged "a" "b"
      (.ofHistory [("x", 1), ("b", -1), ("a", -3)]) := by
  have one : IsStatement "a = x + 2;" ⟨"a", .add (.name "x") (.literal 2)⟩ := by
    refine ⟨by decide +kernel, ?_⟩
    have tokens : (TokenStream.ofSource "a = x + 2;").sequence =
        [.name "a", .mark .assign, .name "x", .mark .plus, .literal "2" 2, .mark .semicolon] := by
      decide +kernel
    rw [tokens]
    exact .mk (.add (.term (.factor (.name "x"))) (.factor (.literal "2" 2)))
  have two : IsStatement "b = -x;" ⟨"b", .minus (.name "x")⟩ := by
    refine ⟨by decide +kernel, ?_⟩
    have tokens : (TokenStream.ofSource "b = -x;").sequence =
        [.name "b", .mark .assign, .mark .minus, .name "x", .mark .semicolon] := by
      decide +kernel
    rw [tokens]
    exact .mk (.term (.factor (.minus (.name "x"))))
  have before : interpret "x = 1;" = .ok (.ofHistory [("x", 1)]) := by decide +kernel
  have left : interpret ("x = 1;" ++ "a = x + 2;" ++ "b = -x;" ++ "a = a * b;") =
      .ok (.ofHistory [("x", 1), ("a", -3), ("b", -1)]) := by
    decide +kernel
  have right : interpret ("x = 1;" ++ "b = -x;" ++ "a = x + 2;" ++ "a = a * b;") =
      .ok (.ofHistory [("x", 1), ("b", -1), ("a", -3)]) := by
    decide +kernel
  obtain ⟨table, accepted, -, compared⟩ := interpret_swap (.inl ⟨_, before⟩) one two
    (by decide +kernel) (by decide +kernel) "a = a * b;"
  obtain rfl : Table.ofHistory [("x", 1)] = table := Except.ok.inj (before.symm.trans accepted)
  obtain ⟨-, -, exchanged⟩ := compared _ _ left right
  exact ⟨one, two, left, right, exchanged (by decide +kernel) (by decide +kernel)⟩

end StraightLine
