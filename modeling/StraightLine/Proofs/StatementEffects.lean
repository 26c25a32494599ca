import StraightLine.Proofs.CompletedStatements
set_option autoImplicit false

namespace StraightLine

open Control

theorem cut_unique {α : Type} {a : α} {xs ys us vs : List α} (hx : a ∉ xs) (hy : a ∉ ys)
    (h : xs ++ a :: us = ys ++ a :: vs) : xs = ys ∧ us = vs := by
  rcases List.append_eq_append_iff.1 h with ⟨between, rfl, rest⟩ | ⟨between, rfl, rest⟩
  · cases between with
    | nil =>
      cases rest
      exact ⟨(List.append_nil xs).symm, rfl⟩
    | cons b between =>
      cases rest
      simp at hy
  · cases between with
    | nil =>
      cases rest
      exact ⟨List.append_nil ys, rfl⟩
    | cons b between =>
      cases rest
      simp at hx

namespace Grammar

mutual

theorem Factor.semicolon_notMem {ts : List Token} {e : Expr} (h : Factor ts e) :
    .mark .semicolon ∉ ts :=
  match h with
  | .literal _ _ => by simp
  | .name _ => by simp
  | .plus h => by simpa using h.semicolon_notMem
  | .minus h => by simpa using h.semicolon_notMem
  | .group h => by simpa using h.semicolon_notMem

theorem Term.semicolon_notMem {ts : List Token} {e : Expr} (h : Term ts e) :
    .mark .semicolon ∉ ts :=
  match h with
  | .factor h => h.semicolon_notMem
  | .mul ha hb => by simpa using ⟨ha.semicolon_notMem, hb.semicolon_notMem⟩

theorem Expression.semicolon_notMem {ts : List Token} {e : Expr} (h : Expression ts e) :
    .mark .semicolon ∉ ts :=
  match h with
  | .term h => h.semicolon_notMem
  | .add ha hb => by simpa using ⟨ha.semicolon_notMem, hb.semicolon_notMem⟩
  | .sub ha hb => by simpa using ⟨ha.semicolon_notMem, hb.semicolon_notMem⟩

end

theorem Assignment.exists_body {ts : List Token} {s : Statement} (h : Assignment ts s) :
    ∃ body, ts = body ++ [.mark .semicolon] ∧ .mark .semicolon ∉ body := by
  cases h with
  | @mk x ts e h => exact ⟨.name x :: .mark .assign :: ts, rfl, by simpa using h.semicolon_notMem⟩

theorem Program.append {ts us : List Token} {ss ss' : List Statement} (h : Program ts ss)
    (h' : Program us ss') : Program (ts ++ us) (ss ++ ss') := by
  induction h with
  | nil => exact h'
  | cons first more ih =>
    rw [List.append_assoc]
    exact .cons first ih

theorem Program.split {ts : List Token} {ss ss' : List Statement} (h : Program ts (ss ++ ss')) :
    ∃ us us', ts = us ++ us' ∧ Program us ss ∧ Program us' ss' := by
  induction ss generalizing ts with
  | nil => exact ⟨[], ts, rfl, .nil, h⟩
  | cons s ss ih =>
    cases h with
    | @cons ts us _ _ first more =>
      obtain ⟨us, us', rfl, left, right⟩ := ih more
      exact ⟨ts ++ us, us', (List.append_assoc _ _ _).symm, .cons first left, right⟩

theorem Program.singleton {ts : List Token} {s : Statement} (h : Assignment ts s) :
    Program ts [s] := by
  simpa using Program.cons h .nil

theorem Program.assignment {ts : List Token} {s : Statement} (h : Program ts [s]) :
    Assignment ts s := by
  cases h with
  | cons first more =>
    cases more
    simpa using first

theorem Finishes.exists_last {front : List Token} {ss : List Statement}
    (h : Finishes (front ++ [.mark .semicolon]) ss) :
    ∃ earlier s, ss = earlier ++ [s] ∧ Finishes front earlier := by
  obtain ⟨program, begun, text, derived, none⟩ := h
  obtain rfl : begun = [] := by
    rcases List.eq_nil_or_concat begun with rfl | ⟨more, t, rfl⟩
    · rfl
    · rw [List.concat_eq_append, ← List.append_assoc] at text
      obtain ⟨-, last⟩ := List.append_inj' text rfl
      cases last
      simp at none
  rw [List.append_nil] at text
  rcases List.eq_nil_or_concat ss with rfl | ⟨earlier, s, rfl⟩
  · cases derived
    simp at text
  · rw [List.concat_eq_append] at derived
    obtain ⟨us, us', rfl, before, last⟩ := derived.split
    obtain ⟨body, rfl, none⟩ := last.assignment.exists_body
    rw [← List.append_assoc] at text
    obtain ⟨rfl, -⟩ := List.append_inj' text rfl
    exact ⟨earlier, s, List.concat_eq_append, us, body, rfl, before, none⟩

end Grammar

/-- What a statement does: the name that it sets, and the value in every table. -/
def Statement.effect (s : Statement) : String × (Table → Option Int64) :=
  (s.target, fun t => s.source.eval t)

theorem Table.assign_injective {t : Table} {x : String} {v w : Int64}
    (h : t.assign x v = t.assign x w) : v = w := by
  have value := congrArg (fun t : Table => t.get? x) h
  simpa [Table.get?_assign] using value

namespace Grammar

theorem Expression.eval_unique {ts : List Token} {e e' : Expr} (h : Expression ts e)
    (h' : Expression ts e') (t : Table) : e.eval t = e'.eval t := by
  have steps := h.steps t "" settled_nil (t := .mark .semicolon) (by simp)
  rw [h'.steps t "" settled_nil (t := .mark .semicolon) (by simp)] at steps
  cases value : e.eval t with
  | none =>
    cases value' : e'.eval t with
    | none => rfl
    | some w => simp [value, value', step?, settle] at steps
  | some v =>
    cases value' : e'.eval t with
    | none => simp [value, value', step?, settle] at steps
    | some w =>
      simp only [value, value', Option.bind_some, step?, settle, Option.some.injEq,
        Prod.mk.injEq] at steps
      exact congrArg some (Table.assign_injective steps.1).symm

theorem Assignment.effect_unique {ts : List Token} {s s' : Statement} (h : Assignment ts s)
    (h' : Assignment ts s') : s.effect = s'.effect := by
  cases h with
  | @mk x ts e h =>
    generalize written : Token.name x :: .mark .assign :: (ts ++ [.mark .semicolon]) = us at h'
    cases h' with
    | @mk y us e' h' =>
      simp only [List.cons.injEq, Token.name.injEq, true_and, List.append_cancel_right_eq] at written
      obtain ⟨rfl, rfl⟩ := written
      exact Prod.ext rfl (funext fun t => h.eval_unique h' t)

theorem Program.effects_unique {ts us begun begun' : List Token} {ss ss' : List Statement}
    (h : Program ts ss) (h' : Program us ss') (none : .mark .semicolon ∉ begun)
    (none' : .mark .semicolon ∉ begun') (same : ts ++ begun = us ++ begun') :
    ss.map Statement.effect = ss'.map Statement.effect := by
  induction h generalizing us ss' with
  | nil =>
    cases h' with
    | nil => rfl
    | cons first more =>
      obtain ⟨body, rfl, -⟩ := first.exists_body
      rw [List.nil_append] at same
      simp [same] at none
  | @cons piece rest s ss first more ih =>
    obtain ⟨body, rfl, inner⟩ := first.exists_body
    cases h' with
    | nil =>
      rw [List.nil_append] at same
      simp [← same] at none'
    | @cons piece' rest' s' ss' first' more' =>
      obtain ⟨body', rfl, inner'⟩ := first'.exists_body
      simp only [List.append_assoc, List.cons_append, List.nil_append] at same
      obtain ⟨rfl, rest_eq⟩ := cut_unique inner inner' same
      rw [List.map_cons, List.map_cons, first.effect_unique first', ih more' rest_eq]

theorem Finishes.effects_unique {ts : List Token} {ss ss' : List Statement} (h : Finishes ts ss)
    (h' : Finishes ts ss') : ss.map Statement.effect = ss'.map Statement.effect := by
  obtain ⟨program, begun, rfl, derived, none⟩ := h
  obtain ⟨program', begun', same, derived', none'⟩ := h'
  exact derived.effects_unique derived' none none' same

end Grammar

/-- The values that statements store, each found in the table of those before it. -/
inductive Statement.History : List Statement → List (String × Int64) → Prop where
  | nil : History [] []
  | snoc {ss : List Statement} {history : List (String × Int64)} {s : Statement} {v : Int64}
      (earlier : History ss history) (value : s.source.eval (.ofHistory history) = some v) :
      History (ss ++ [s]) (history ++ [(s.target, v)])

namespace Statement

theorem History.length_eq {ss : List Statement} {history : List (String × Int64)}
    (h : History ss history) : ss.length = history.length := by
  induction h with
  | nil => rfl
  | snoc _ _ ih => simp [ih]

theorem History.congr {ss ss' : List Statement} {history : List (String × Int64)}
    (h : History ss history) (same : ss'.map effect = ss.map effect) : History ss' history := by
  induction h generalizing ss' with
  | nil =>
    obtain rfl := List.map_eq_nil_iff.1 same
    exact .nil
  | @snoc ss history s v earlier value ih =>
    rw [List.map_append] at same
    obtain ⟨front, last, rfl, before, after⟩ := List.map_eq_append_iff.1 same
    obtain ⟨s', rfl, effect⟩ := List.map_eq_singleton_iff.1 after
    obtain ⟨target, source⟩ := Prod.mk.inj effect
    rw [← target]
    exact .snoc (ih before) ((congrFun source _).trans value)

end Statement

end StraightLine
