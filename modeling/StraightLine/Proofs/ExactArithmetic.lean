import Mathlib.Data.Int.ModEq
import StraightLine.Proofs.Acceptance
import StraightLine.Table.Lemmas
set_option autoImplicit false

/-! # Words against unbounded integers

Reducing an integer to a word commutes with sums, differences, products and negation, so it may be
left to the very end of a program: every value of the final table is the word of the value that the
same statements compute over the integers, whatever overflowed on the way. -/

namespace StraightLine

/-- The integer `m` lies in the range of a word and differs from `n` by whole turns. -/
def ReducesTo (n m : Int) : Prop :=
  -2 ^ 63 ≤ m ∧ m < 2 ^ 63 ∧ m ≡ n [ZMOD 2 ^ 64]

theorem reducesTo_toInt_ofInt (n : Int) : ReducesTo n (Int64.ofInt n).toInt := by
  refine ⟨Int64.le_toInt _, Int64.toInt_lt _, ?_⟩
  rw [Int64.toInt_ofInt, Int.modEq_iff_dvd]
  exact Int.dvd_self_sub_bmod

theorem ReducesTo.unique {n m k : Int} (hm : ReducesTo n m) (hk : ReducesTo n k) : m = k := by
  obtain ⟨mLow, mHigh, mSame⟩ := hm
  obtain ⟨kLow, kHigh, kSame⟩ := hk
  have turns := (mSame.trans kSame.symm).dvd
  omega

theorem reducesTo_iff (n m : Int) : ReducesTo n m ↔ m = (Int64.ofInt n).toInt := by
  constructor
  · intro h
    exact h.unique (reducesTo_toInt_ofInt n)
  · rintro rfl
    exact reducesTo_toInt_ofInt n

def Table.Reduces (t : Table) (env : String → Option Int) : Prop :=
  ∀ name, t.get? name = (env name).map Int64.ofInt

theorem reduces_empty : Table.empty.Reduces fun _ => none := by
  intro name
  simp [Table.empty, Table.get?]

theorem Table.Reduces.assign {t : Table} {env : String → Option Int} (h : t.Reduces env)
    (target : String) (n : Int) :
    (t.assign target (Int64.ofInt n)).Reduces
      fun name => if name = target then some n else env name := by
  intro name
  rw [Table.get?_assign]
  by_cases same : name = target
  · simp [same]
  · simp [same, Ne.symm same, h name]

namespace Expr

section Map

variable {R S : Type} {f : R → S}

theorem map_bind_map {op : R → R → R} {op' : S → S → S}
    (h : ∀ v w, f (op v w) = op' (f v) (f w)) (a b : Option R) :
    (a.bind fun v => b.map fun w => op v w).map f =
      (a.map f).bind fun v => (b.map f).map fun w => op' v w := by
  cases a with
  | none => rfl
  | some v =>
    cases b with
    | none => rfl
    | some w => exact congrArg some (h v w)

/-- A map that respects the operations may be applied before or after an expression is valued. -/
theorem map_value [Add R] [Sub R] [Mul R] [Neg R] [Add S] [Sub S] [Mul S] [Neg S]
    (add : ∀ v w : R, f (v + w) = f v + f w) (sub : ∀ v w : R, f (v - w) = f v - f w)
    (mul : ∀ v w : R, f (v * w) = f v * f w) (neg : ∀ v : R, f (-v) = -f v)
    (ofLiteral : Int64 → R) (get? : String → Option R) (e : Expr) :
    (e.value ofLiteral get?).map f =
      e.value (fun v => f (ofLiteral v)) fun x => (get? x).map f := by
  induction e with
  | literal v => rfl
  | name x => rfl
  | plus e ih => exact ih
  | minus e ih =>
    rw [value, value, ← ih]
    cases e.value ofLiteral get? with
    | none => rfl
    | some v => exact congrArg some (neg v)
  | add a b iha ihb =>
    rw [value, value, ← iha, ← ihb]
    exact map_bind_map add _ _
  | sub a b iha ihb =>
    rw [value, value, ← iha, ← ihb]
    exact map_bind_map sub _ _
  | mul a b iha ihb =>
    rw [value, value, ← iha, ← ihb]
    exact map_bind_map mul _ _

end Map

theorem eval_of_reduces {t : Table} {env : String → Option Int} (h : t.Reduces env) (e : Expr) :
    e.eval t = (e.exactValue env).map Int64.ofInt := by
  have words : t.get? = fun name => (env name).map Int64.ofInt := funext h
  have literals : (fun v : Int64 => Int64.ofInt v.toInt) = id := funext Int64.ofInt_toInt
  rw [exactValue, map_value Int64.ofInt_add Int64.ofInt_sub Int64.ofInt_mul Int64.ofInt_neg,
    literals, ← words]
  rfl

end Expr

namespace Statement

theorem execute_of_reduces {t : Table} {env : String → Option Int} (h : t.Reduces env)
    {s : Statement} {next : Table} (executed : s.execute t = some next) :
    ∃ env', s.executeExact env = some env' ∧ next.Reduces env' := by
  unfold execute at executed
  rw [Expr.eval_of_reduces h] at executed
  unfold executeExact
  cases value : s.source.exactValue env with
  | none =>
    rw [value] at executed
    cases executed
  | some n =>
    rw [value] at executed
    cases executed
    exact ⟨_, rfl, h.assign s.target n⟩

theorem executeAll_of_reduces {t : Table} {env : String → Option Int} (h : t.Reduces env)
    {ss : List Statement} {last : Table} (executed : executeAll t ss = some last) :
    ∃ env', executeAllExact env ss = some env' ∧ last.Reduces env' := by
  induction ss generalizing t env with
  | nil =>
    cases executed
    exact ⟨env, rfl, h⟩
  | cons s ss ih =>
    obtain ⟨next, first, more⟩ := Option.bind_eq_some_iff.1 executed
    obtain ⟨env', firstExact, reduces⟩ := execute_of_reduces h first
    obtain ⟨last', moreExact, reduces'⟩ := ih reduces more
    refine ⟨last', ?_, reduces'⟩
    rw [executeAllExact, List.foldlM_cons, firstExact]
    exact moreExact

end Statement

theorem toInt_of_literal_mem {source digits : String} {v : Int64}
    (h : .literal digits v ∈ (TokenStream.ofSource source).sequence) :
    v.toInt = Numeral.value digits.toList := by
  have wellFormed := (TokenStream.tokenisation_ofText 0 (strip source)).wellFormed _ h
  obtain ⟨n, small, rfl, rfl⟩ := wellFormed.literal_eq
  rw [Int64.toInt_ofNat_of_lt small, Nat.toString_eq_repr, Nat.toList_repr, Numeral.value_toDigits]

/-- The table of an accepted source holds the words of the integers that its statements compute. -/
theorem interpret_reducesTo {source : String} {result : Table}
    (h : interpret source = .ok result) :
    (∀ (digits : String) (v : Int64), .literal digits v ∈ (TokenStream.ofSource source).sequence →
      v.toInt = Numeral.value digits.toList) ∧
    (∃ ss, Grammar.Program (TokenStream.ofSource source).sequence ss) ∧
    ∀ ss, Grammar.Program (TokenStream.ofSource source).sequence ss →
      ∃ env, Statement.executeAllExact (fun _ => none) ss = some env ∧
        ∀ name v, (name, v) ∈ result.toList → ∃ n, env name = some n ∧
          (∀ m, ReducesTo n m ↔ m = v.toInt) ∧
          (-2 ^ 63 ≤ n → n < 2 ^ 63 → v.toInt = n) := by
  obtain ⟨-, ss, derived, -⟩ := program_of_interpret h
  refine ⟨fun _ _ => toInt_of_literal_mem, ⟨ss, derived⟩, ?_⟩
  intro ss derived
  obtain ⟨env, executed, reduces⟩ :=
    Statement.executeAll_of_reduces reduces_empty (executeAll_of_interpret h derived)
  refine ⟨env, executed, ?_⟩
  intro name v held
  have word := Table.get?_eq_some_iff.2 held
  rw [reduces name] at word
  obtain ⟨n, value, rfl⟩ := Option.map_eq_some_iff.1 word
  exact ⟨n, value, reducesTo_iff n, Int64.toInt_ofInt_of_le⟩

/-- The sum overflows, and the difference comes back into the range. -/
theorem interpret_overflow_and_return :
    interpret "x = 9223372036854775807 + 1; y = x - 1;" =
      .ok (.ofHistory [("x", -9223372036854775808), ("y", 9223372036854775807)]) ∧
    ∃ ss env, Statement.executeAllExact (fun _ => none) ss = some env ∧
      (∃ n, env "x" = some n ∧ ∀ m, ReducesTo n m ↔ m = -9223372036854775808) ∧
      ∃ n, env "y" = some n ∧ (-2 ^ 63 ≤ n → n < 2 ^ 63 → 9223372036854775807 = n) := by
  have accepted : interpret "x = 9223372036854775807 + 1; y = x - 1;" =
      .ok (.ofHistory [("x", -9223372036854775808), ("y", 9223372036854775807)]) := by
    decide +kernel
  obtain ⟨-, ⟨ss, derived⟩, values⟩ := interpret_reducesTo accepted
  obtain ⟨env, executed, words⟩ := values ss derived
  obtain ⟨n, value, reduces, -⟩ := words "x" (-9223372036854775808) (by decide +kernel)
  obtain ⟨n', value', -, fits⟩ := words "y" 9223372036854775807 (by decide +kernel)
  exact ⟨accepted, ss, env, executed, ⟨n, value, reduces⟩, n', value', fits⟩

end StraightLine
