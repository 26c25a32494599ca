import StraightLine.Proofs.Composition
import StraightLine.Proofs.ErrorReports
set_option autoImplicit false

namespace StraightLine

open Control

/-- Ends every line of a text with a semicolon. An empty text has no lines. -/
def endLines (text : String) : String :=
  if text = "" then ""
  else String.ofList (text.toList.flatMap fun c => if c = '\n' then [';', '\n'] else [c]) ++ ";"

def leastDigits : String :=
  "9223372036854775808"

theorem intercalate_append_cons {α : Type} (sep line : List α) (before after : List (List α)) :
    sep.intercalate (before ++ line :: after) =
      before.flatMap (· ++ sep) ++ sep.intercalate (line :: after) := by
  induction before with
  | nil => rfl
  | cons first before ih =>
    rw [List.cons_append, List.intercalate_cons_of_ne_nil (by simp), ih, List.flatMap_cons,
      List.append_assoc _ _ (sep.intercalate _)]

theorem exists_intercalate_eq {α : Type} (sep line : List α) (after : List (List α)) :
    ∃ back, sep.intercalate (line :: after) = line ++ back := by
  cases after with
  | nil => exact ⟨[], by simp⟩
  | cons next after => exact ⟨_, List.intercalate_cons_cons.trans (List.append_assoc _ _ _)⟩

theorem exists_lines_eq (before : List String) (line : String) (after : List String) :
    ∃ back, "\n".intercalate (before ++ line :: after) =
      String.join (before.map (· ++ "\n")) ++ (line ++ back) := by
  obtain ⟨back, text⟩ :=
    exists_intercalate_eq "\n".toList line.toList (after.map String.toList)
  refine ⟨String.ofList back, ?_⟩
  rw [← String.toList_inj, String.toList_intercalate, List.map_append, List.map_cons,
    intercalate_append_cons, text]
  simp [List.flatMap_map]

theorem endLines_intercalate {lines : List String}
    (h : ∀ line ∈ lines, line ≠ "" ∧ '\n' ∉ line.toList) :
    endLines ("\n".intercalate lines) = "\n".intercalate (lines.map (· ++ ";")) := by
  have same {line : List Char} (none : '\n' ∉ line) :
      (line.flatMap fun c => if c = '\n' then [';', '\n'] else [c]) = line := by
    induction line with
    | nil => rfl
    | cons c cs ih =>
      rw [List.mem_cons, not_or] at none
      simp [Ne.symm none.1, ih none.2]
  cases lines with
  | nil => rfl
  | cons line lines =>
    have nonempty : "\n".intercalate (line :: lines) ≠ "" := by
      intro empty
      obtain ⟨back, text⟩ := exists_intercalate_eq "\n".toList line.toList (lines.map String.toList)
      have first := (h line List.mem_cons_self).1
      rw [← String.toList_inj, String.toList_intercalate, List.map_cons, text] at empty
      simp_all
    rw [endLines, if_neg nonempty, ← String.toList_inj, String.toList_append, String.toList_ofList,
      String.toList_intercalate, String.toList_intercalate, List.map_map]
    clear nonempty
    induction lines generalizing line with
    | nil =>
      have here := same (h line List.mem_cons_self).2
      simp [here]
    | cons next lines ih =>
      have here := same (h line List.mem_cons_self).2
      have more := ih next fun other ho => h other (List.mem_cons_of_mem line ho)
      simp only [List.map_cons, List.intercalate_cons_cons, List.flatMap_append,
        List.append_assoc] at more ⊢
      rw [here, more]
      simp

theorem strip_intercalate (lines : List String) :
    strip ("\n".intercalate lines) = lines.flatMap strip := by
  unfold strip
  rw [String.toList_intercalate]
  induction lines with
  | nil => rfl
  | cons line lines ih =>
    cases lines with
    | nil => simp
    | cons next lines =>
      rw [List.map_cons, List.intercalate_cons_of_ne_nil (by simp), List.filter_append, ih,
        List.filter_append]
      have blank : ("\n".toList).filter (!isBlank ·) = [] := by decide
      rw [blank, List.append_nil, List.flatMap_cons (x := line)]

theorem strip_join (lines : List String) : strip (String.join lines) = lines.flatMap strip := by
  unfold strip
  rw [String.toList_join, List.filter_flatMap]

theorem strip_of_isPlain {text : String} (h : ∀ c ∈ text.toList, isPlain c = true) :
    strip text = text.toList := by
  rw [strip, List.filter_eq_self]
  intro c hc
  simp [isBlank_of_isPlain (h c hc)]

def Token.beforeDigits (entry : String × Int64) : List Token :=
  .name entry.1 :: .mark .assign :: if entry.2.toInt < 0 then [.mark .minus] else []

def Token.ofEntry (entry : String × Int64) : List Token :=
  beforeDigits entry ++
    [.literal (toString entry.2.toInt.natAbs) (Int64.ofNat entry.2.toInt.natAbs), .mark .semicolon]

theorem toList_toString (i : Int) :
    (toString i).toList = (if i < 0 then ['-'] else []) ++ (toString i.natAbs).toList := by
  cases i with
  | ofNat n => rfl
  | negSucc n =>
    rw [if_pos (Int.negSucc_lt_zero n)]
    change ("-" ++ toString (n + 1)).toList = _
    rw [String.toList_append]
    rfl

theorem isPlain_of_mem_toString {n : Nat} : ∀ c ∈ (toString n).toList, isPlain c = true := by
  intro c hc
  rw [Nat.toString_eq_repr, Nat.toList_repr] at hc
  apply isPlain_of_isNamePart
  exact isNamePart_of_isDigit (Nat.isDigit_of_mem_toDigits (by omega) (by omega) hc)

theorem isPlain_of_mem_name {x : String} (h : (Token.name x).WellFormed) :
    ∀ c ∈ x.toList, isPlain c = true :=
  h.isPlain (by simp [Token.kind])

theorem strip_renderEntry {entry : String × Int64} (h : (Token.name entry.1).WellFormed) :
    strip (Table.renderEntry entry) = Token.spelling (Token.beforeDigits entry) ++
      (toString entry.2.toInt.natAbs).toList := by
  have name := strip_of_isPlain (isPlain_of_mem_name h)
  have equals : strip " = " = ['='] := by decide
  have value : strip (toString entry.2.toInt) = (toString entry.2.toInt).toList := by
    apply strip_of_isPlain
    intro c hc
    rw [toList_toString, List.mem_append] at hc
    rcases hc with sign | digit
    · split at sign
      · rw [List.mem_singleton.1 sign]
        exact isPlain_char .minus
      · cases sign
    · exact isPlain_of_mem_toString c digit
  rw [Table.renderEntry, strip_append, strip_append, name, equals, value, toList_toString]
  unfold Token.beforeDigits
  split <;> simp [Token.lexeme, Mark.char]

theorem strip_line {entry : String × Int64} (h : (Token.name entry.1).WellFormed) :
    strip (Table.renderEntry entry ++ ";") = Token.spelling (Token.ofEntry entry) := by
  have semicolon : strip ";" = [';'] := by decide
  rw [strip_append, strip_renderEntry h, semicolon, Token.ofEntry, Token.spelling_append]
  simp [Token.lexeme, Mark.char]

theorem line_spec {entry : String × Int64} (h : (Token.name entry.1).WellFormed) :
    Table.renderEntry entry ≠ "" ∧ '\n' ∉ (Table.renderEntry entry).toList := by
  have nonempty : Table.renderEntry entry ≠ "" := by
    intro empty
    have text := congrArg String.toList empty
    simp [Table.renderEntry] at text
  refine ⟨nonempty, ?_⟩
  have blank : isPlain '\n' = false := by decide
  have name : '\n' ∉ entry.1.toList := by
    intro inside
    rw [isPlain_of_mem_name h _ inside] at blank
    cases blank
  have digits : '\n' ∉ (toString entry.2.toInt.natAbs).toList := by
    intro inside
    rw [isPlain_of_mem_toString _ inside] at blank
    cases blank
  have equals : '\n' ∉ " = ".toList := by decide
  rw [Table.renderEntry, String.toList_append, String.toList_append, toList_toString]
  simp only [List.mem_append, name, equals, digits, or_false, false_or]
  split <;> simp

theorem scans_beforeDigits {entry : String × Int64} (h : (Token.name entry.1).WellFormed)
    (rest : List Char) :
    Scans (Token.spelling (Token.beforeDigits entry) ++ rest) (Token.beforeDigits entry) rest := by
  have outside (text : List Char) : Outside isNamePart ('=' :: text) := by
    rintro _ ⟨⟩
    exact isNamePart_char .assign
  unfold Token.beforeDigits
  rw [Token.spelling_cons, Token.spelling_cons, List.append_assoc, List.append_assoc]
  refine .cons (scan_of_wellFormed h (outside _)) (.cons (scan_mark .assign _) ?_)
  split
  · exact .cons (scan_mark .minus rest) (.nil rest)
  · exact .nil rest

theorem natAbs_lt_limit {v : Int64} (h : v ≠ Int64.minValue) : v.toInt.natAbs < Numeral.limit := by
  have low := v.le_toInt
  have high := v.toInt_lt
  have apart : v.toInt ≠ -2 ^ 63 := fun same =>
    h (Int64.toInt_inj.1 (same.trans Int64.toInt_minValue.symm))
  change v.toInt.natAbs < 2 ^ 63
  omega

theorem scans_ofEntry {entry : String × Int64} (h : (Token.name entry.1).WellFormed)
    (bounded : entry.2 ≠ Int64.minValue) (rest : List Char) :
    Scans (Token.spelling (Token.ofEntry entry) ++ rest) (Token.ofEntry entry) rest := by
  have outside : Outside Char.isDigit (';' :: rest) := by
    rintro _ ⟨⟩
    exact isDigit_char .semicolon
  rw [Token.ofEntry, Token.spelling_append, List.append_assoc, Token.spelling_cons,
    Token.spelling_cons, List.append_assoc]
  refine (scans_beforeDigits h _).trans (.cons ?_ (.cons (scan_mark .semicolon rest) (.nil rest)))
  exact scan_of_wellFormed (wellFormed_literal (natAbs_lt_limit bounded)) outside

theorem scans_entries {entries : List (String × Int64)}
    (h : ∀ entry ∈ entries, (Token.name entry.1).WellFormed)
    (bounded : ∀ entry ∈ entries, entry.2 ≠ Int64.minValue) (rest : List Char) :
    Scans (Token.spelling (entries.flatMap Token.ofEntry) ++ rest) (entries.flatMap Token.ofEntry)
      rest := by
  induction entries with
  | nil => exact .nil rest
  | cons entry entries ih =>
    rw [List.flatMap_cons, Token.spelling_append, List.append_assoc]
    refine (scans_ofEntry (h entry List.mem_cons_self) (bounded entry List.mem_cons_self) _).trans ?_
    exact ih (fun other ho => h other (List.mem_cons_of_mem entry ho))
      (fun other ho => bounded other (List.mem_cons_of_mem entry ho))

theorem scan_leastDigits (rest : List Char) :
    scan (leastDigits.toList ++ ';' :: rest) = .rejected .tooLarge leastDigits := by
  have digit : leastDigits.toList.all Char.isDigit = true := by decide
  apply scan_of_rejectedRun
  refine ⟨List.all_eq_true.1 digit, ⟨Numeral.limit, Nat.le_refl _, by decide +kernel⟩,
    ';' :: rest, rfl, ?_⟩
  rintro _ ⟨⟩
  exact isDigit_char .semicolon

theorem steps?_beforeDigits (table : Table) (x : String) (v : Int64) :
    steps? table target (Token.beforeDigits (x, v)) =
      some (table, operand x (if v.toInt < 0 then [.negate] else [])) := by
  unfold Token.beforeDigits
  split <;> rfl

theorem value_eq (v : Int64) :
    (if v.toInt < 0 then -Int64.ofNat v.toInt.natAbs else Int64.ofNat v.toInt.natAbs) = v := by
  have word := v.ofInt_toInt
  split
  next negative =>
    rw [Int.eq_neg_natAbs_of_nonpos (Int.le_of_lt negative), Int64.ofInt_neg,
      Int64.ofInt_eq_ofNat] at word
    exact word
  next positive =>
    rw [Int.eq_natAbs_of_nonneg (Int.not_lt.1 positive), Int64.ofInt_eq_ofNat] at word
    exact word

theorem steps?_ofEntry (table : Table) (x : String) (v : Int64) :
    steps? table target (Token.ofEntry (x, v)) = some (table.assign x v, target) := by
  have value := value_eq v
  rw [Token.ofEntry, steps?_append, steps?_beforeDigits, Option.bind_some]
  split at value <;> simp [*, step?, resume, settle]

theorem steps?_entries (table : Table) (entries : List (String × Int64)) :
    steps? table target (entries.flatMap Token.ofEntry) =
      some (entries.foldl (fun t (x, v) => t.assign x v) table, target) := by
  induction entries generalizing table with
  | nil => rfl
  | cons entry entries ih =>
    rw [List.flatMap_cons, steps?_append, steps?_ofEntry, Option.bind_some, ih]
    rfl

theorem Grammar.Program.target_mem {ts : List Token} {ss : List Statement} (h : Program ts ss) :
    ∀ s ∈ ss, .name s.target ∈ ts := by
  induction h with
  | nil => simp
  | cons first more ih =>
    intro s hs
    rcases List.mem_cons.1 hs with rfl | hs
    · cases first
      simp
    · exact List.mem_append_right _ (ih s hs)

theorem wellFormed_of_mem_toList {source : String} {table : Table}
    (h : interpret source = .ok table) :
    ∀ entry ∈ table.toList, (Token.name entry.1).WellFormed := by
  rintro ⟨x, v⟩ held
  obtain ⟨-, ss, derived, executed⟩ := program_of_interpret h
  have bound : (table.get? x).isSome = true := by simp [Table.get?_eq_some_iff.2 held]
  rcases (Statement.isSome_get?_executeAll executed x).1 bound with impossible | ⟨s, hs, rfl⟩
  · cases impossible
  · exact (TokenStream.tokenisation_ofText 0 (strip source)).wellFormed _ (derived.target_mem s hs)

theorem endLines_render {table : Table}
    (h : ∀ entry ∈ table.toList, (Token.name entry.1).WellFormed) :
    endLines table.render =
      "\n".intercalate (table.toList.map fun entry => Table.renderEntry entry ++ ";") := by
  rw [Table.render, endLines_intercalate, List.map_map]
  · rfl
  · intro line hl
    obtain ⟨entry, held, rfl⟩ := List.mem_map.1 hl
    exact line_spec (h entry held)

theorem interpret_of_bounded {table : Table}
    (h : ∀ entry ∈ table.toList, (Token.name entry.1).WellFormed)
    (bounded : ∀ entry ∈ table.toList, entry.2 ≠ Int64.minValue) :
    interpret (endLines table.render) = .ok table := by
  have text : strip (endLines table.render) =
      Token.spelling (table.toList.flatMap Token.ofEntry) ++ [] := by
    rw [endLines_render h, strip_intercalate, List.flatMap_map, List.append_nil, Token.spelling,
      List.flatMap_assoc]
    exact List.flatMap_congr fun entry held => strip_line (h entry held)
  have steps := steps?_entries .empty table.toList
  change _ = some (Table.ofHistory table.toList, target) at steps
  rw [Table.ofHistory_toList] at steps
  rw [interpret_eq_run, TokenStream.ofSource, text,
    run_of_scans (scans_entries h bounded []) steps, TokenStream.ofText_nil]
  rfl

def upToDigits (before : List (String × Int64)) (x : String) : String :=
  String.join (before.map fun entry => Table.renderEntry entry ++ ";\n") ++ x ++ " = -"

theorem strip_upToDigits {before : List (String × Int64)} {x : String}
    (h : ∀ entry ∈ before, (Token.name entry.1).WellFormed) (name : (Token.name x).WellFormed) :
    strip (upToDigits before x) = Token.spelling
      (before.flatMap Token.ofEntry ++ Token.beforeDigits (x, Int64.minValue)) := by
  have sign : strip " = -" = ['=', '-'] := by decide
  have negative : Int64.minValue.toInt < 0 := by decide
  have lines : strip (String.join (before.map fun entry => Table.renderEntry entry ++ ";\n")) =
      Token.spelling (before.flatMap Token.ofEntry) := by
    rw [strip_join, List.flatMap_map, Token.spelling, List.flatMap_assoc]
    refine List.flatMap_congr fun entry held => ?_
    have ends : strip ";\n" = strip ";" := by decide
    rw [strip_append, ends, ← strip_append]
    exact strip_line (h entry held)
  rw [upToDigits, strip_append, strip_append, lines, strip_of_isPlain (isPlain_of_mem_name name),
    sign, Token.spelling_append, Token.beforeDigits, if_pos negative, List.append_assoc]
  rfl

theorem exists_upToDigits {table : Table} {before after : List (String × Int64)} {x : String}
    (h : ∀ entry ∈ table.toList, (Token.name entry.1).WellFormed)
    (held : table.toList = before ++ (x, Int64.minValue) :: after) :
    ∃ back, endLines table.render = upToDigits before x ++ leastDigits ++ (";" ++ back) := by
  obtain ⟨back, text⟩ := exists_lines_eq
    (before.map fun entry => Table.renderEntry entry ++ ";")
    (Table.renderEntry (x, Int64.minValue) ++ ";")
    (after.map fun entry => Table.renderEntry entry ++ ";")
  have least : toString Int64.minValue.toInt = "-" ++ leastDigits := by decide +kernel
  refine ⟨back, ?_⟩
  rw [endLines_render h, held, List.map_append, List.map_cons, text, List.map_map, upToDigits,
    Table.renderEntry, least]
  simp only [Function.comp_def, String.append_assoc]
  rfl

theorem interpret_of_least {table : Table} {before after : List (String × Int64)} {x : String}
    (h : ∀ entry ∈ table.toList, (Token.name entry.1).WellFormed)
    (held : table.toList = before ++ (x, Int64.minValue) :: after)
    (bounded : ∀ entry ∈ before, entry.2 ≠ Int64.minValue) :
    interpret (endLines table.render) =
      .error ⟨(String.ofList (strip (upToDigits before x))).utf8ByteSize,
        .literal .tooLarge leastDigits⟩ := by
  have names : ∀ entry ∈ before, (Token.name entry.1).WellFormed := fun entry he =>
    h entry (by simp [held, he])
  have name : (Token.name x).WellFormed := h (x, Int64.minValue) (by simp [held])
  obtain ⟨back, text⟩ := exists_upToDigits h held
  have digits : strip leastDigits = leastDigits.toList := by decide
  have semicolon : strip ";" = [';'] := by decide
  have front := strip_upToDigits names name
  -- All entries before the least value are taken, and then its name, the mark and the sign.
  have scanned := (scans_entries names bounded _).trans
    (@scans_beforeDigits (x, Int64.minValue) name (leastDigits.toList ++ ';' :: strip back))
  rw [← List.append_assoc, ← Token.spelling_append] at scanned
  have steps : ∃ table' c, steps? .empty target
      (before.flatMap Token.ofEntry ++ Token.beforeDigits (x, Int64.minValue)) =
        some (table', c) := by
    rw [steps?_append, steps?_entries, Option.bind_some, steps?_beforeDigits]
    exact ⟨_, _, rfl⟩
  obtain ⟨table', c, steps⟩ := steps
  rw [interpret_eq_run, TokenStream.ofSource, text, strip_append, strip_append, strip_append, digits,
    semicolon, front, List.append_assoc, List.singleton_append, run_of_scans scanned steps,
    TokenStream.ofText_of_rejected (scan_leastDigits _), Control.run, Token.utf8ByteSize_spelling,
    Nat.zero_add]
  rfl

/-- The table of a program is the table of its own text, unless the least value is in it; then the
digits of the first such value are rejected. -/
theorem interpret_render_iff {source : String} {table : Table}
    (h : interpret source = .ok table) :
    (interpret (endLines table.render) = .ok table ↔
      ∀ entry ∈ table.toList, entry.2 ≠ Int64.minValue) ∧
    ((∃ entry ∈ table.toList, entry.2 = Int64.minValue) →
      ∃ before x after back, table.toList = before ++ (x, Int64.minValue) :: after ∧
        (∀ entry ∈ before, entry.2 ≠ Int64.minValue) ∧
        endLines table.render = upToDigits before x ++ "9223372036854775808" ++ back ∧
        interpret (endLines table.render) =
          .error ⟨(String.ofList (strip (upToDigits before x))).utf8ByteSize,
            .literal .tooLarge "9223372036854775808"⟩) := by
  have names := wellFormed_of_mem_toList h
  have lost (least : ∃ entry ∈ table.toList, entry.2 = Int64.minValue) :
      ∃ before x after, table.toList = before ++ (x, Int64.minValue) :: after ∧
        ∀ entry ∈ before, entry.2 ≠ Int64.minValue := by
    have found : (table.toList.find? (·.2 = Int64.minValue)).isSome = true := by
      simpa using least
    obtain ⟨⟨x, v⟩, first⟩ := Option.isSome_iff_exists.1 found
    obtain ⟨same, before, after, held, none⟩ := List.find?_eq_some_iff_append.1 first
    obtain rfl : v = Int64.minValue := by simpa using same
    exact ⟨before, x, after, held, by simpa using none⟩
  refine ⟨⟨?_, interpret_of_bounded names⟩, ?_⟩
  · intro accepted entry held least
    obtain ⟨before, x, after, split, bounded⟩ := lost ⟨entry, held, least⟩
    rw [interpret_of_least names split bounded] at accepted
    cases accepted
  · intro least
    obtain ⟨before, x, after, split, bounded⟩ := lost least
    obtain ⟨back, text⟩ := exists_upToDigits names split
    exact ⟨before, x, after, ";" ++ back, split, bounded, text,
      interpret_of_least names split bounded⟩

/-- The least value is reached by a difference, and its text is no longer a program. -/
theorem interpret_render_least :
    interpret "a = -5; b = -9223372036854775807 - 1; c = b;" =
      .ok (.ofHistory [("a", -5), ("b", Int64.minValue), ("c", Int64.minValue)]) ∧
    ∃ position, interpret (endLines
      (Table.ofHistory [("a", -5), ("b", Int64.minValue), ("c", Int64.minValue)]).render) =
        .error ⟨position, .literal .tooLarge "9223372036854775808"⟩ := by
  have accepted : interpret "a = -5; b = -9223372036854775807 - 1; c = b;" =
      .ok (.ofHistory [("a", -5), ("b", Int64.minValue), ("c", Int64.minValue)]) := by
    decide +kernel
  obtain ⟨before, x, after, back, -, -, -, rejected⟩ :=
    (interpret_render_iff accepted).2 ⟨("b", Int64.minValue), by decide +kernel, rfl⟩
  exact ⟨accepted, _, rejected⟩

-- The digits of `b` come after `a=-5;b=-`.
example : interpret (endLines
    (Table.ofHistory [("a", -5), ("b", Int64.minValue), ("c", Int64.minValue)]).render) =
      .error ⟨8, .literal .tooLarge "9223372036854775808"⟩ := by
  decide +kernel

end StraightLine
