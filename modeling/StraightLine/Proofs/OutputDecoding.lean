import StraightLine.Proofs.ReadingBack
import StraightLine.Proofs.Reports
import StraightLine.Proofs.StatementEffects
set_option autoImplicit false

namespace StraightLine

def EndAlike (source other : String) : Prop :=
  (∃ e e', interpret source = .error e ∧ interpret other = .error e') ∨
  ∃ table, interpret source = .ok table ∧ interpret other = .ok table

theorem flatMap_append_singleton_injective {α : Type} {a : α} {xs ys : List (List α)}
    (hx : ∀ x ∈ xs, a ∉ x) (hy : ∀ y ∈ ys, a ∉ y)
    (h : xs.flatMap (· ++ [a]) = ys.flatMap (· ++ [a])) : xs = ys := by
  induction xs generalizing ys with
  | nil =>
    cases ys with
    | nil => rfl
    | cons y ys => simp at h
  | cons x xs ih =>
    cases ys with
    | nil => simp at h
    | cons y ys =>
      simp only [List.flatMap_cons, List.append_assoc, List.singleton_append] at h
      obtain ⟨rfl, rest⟩ :=
        cut_unique (hx x List.mem_cons_self) (hy y List.mem_cons_self) h
      rw [ih (fun z hz => hx z (List.mem_cons_of_mem x hz))
        (fun z hz => hy z (List.mem_cons_of_mem x hz)) rest]

theorem space_notMem_name {x : String} (h : (Token.name x).WellFormed) : ' ' ∉ x.toList := by
  intro inside
  have plain := isPlain_of_mem_name h ' ' inside
  revert plain
  decide

theorem toList_renderEntry (entry : String × Int64) :
    (Table.renderEntry entry).toList =
      entry.1.toList ++ ' ' :: ("= ".toList ++ (toString entry.2.toInt).toList) := by
  simp [Table.renderEntry]

theorem renderEntry_injective {entry other : String × Int64}
    (h : (Token.name entry.1).WellFormed) (h' : (Token.name other.1).WellFormed)
    (same : Table.renderEntry entry = Table.renderEntry other) : entry = other := by
  have text := congrArg String.toList same
  rw [toList_renderEntry, toList_renderEntry] at text
  obtain ⟨name, rest⟩ := cut_unique (space_notMem_name h) (space_notMem_name h') text
  have value : toString entry.2.toInt = toString other.2.toInt :=
    String.toList_inj.1 (List.append_cancel_left rest)
  exact Prod.ext (String.toList_inj.1 name) (Int64.toInt_inj.1 (Int.repr_injective value))

theorem map_renderEntry_injective {entries others : List (String × Int64)}
    (h : ∀ entry ∈ entries, (Token.name entry.1).WellFormed)
    (h' : ∀ entry ∈ others, (Token.name entry.1).WellFormed)
    (same : entries.map Table.renderEntry = others.map Table.renderEntry) : entries = others := by
  induction entries generalizing others with
  | nil => exact (List.map_eq_nil_iff.1 same.symm).symm
  | cons entry entries ih =>
    cases others with
    | nil => cases same
    | cons other others =>
      obtain ⟨first, more⟩ := List.cons.inj same
      rw [renderEntry_injective (h entry List.mem_cons_self) (h' other List.mem_cons_self) first,
        ih (fun e he => h e (List.mem_cons_of_mem entry he))
          (fun e he => h' e (List.mem_cons_of_mem other he)) more]

theorem renderEntry_ne_error (entry : String × Int64) : Table.renderEntry entry ≠ "error" := by
  intro same
  have text := congrArg (' ' ∈ ·.toList) same
  simp [toList_renderEntry] at text

namespace Run

theorem lines_spec (source : String) :
    ∀ line ∈ lines (interpret source), line ≠ "" ∧ '\n' ∉ line.toList := by
  cases outcome : interpret source with
  | error e =>
    intro line hl
    rw [List.mem_singleton.1 hl]
    decide
  | ok table =>
    intro line hl
    obtain ⟨entry, held, rfl⟩ := List.mem_map.1 hl
    exact line_spec (wellFormed_of_mem_toList outcome entry held)

/-- Names have no spaces, so a line tells its name and its value, and no line of a table is that of
a rejected program. -/
theorem lines_eq_iff (source other : String) :
    lines (interpret source) = lines (interpret other) ↔ EndAlike source other := by
  have apart (table : Table) : table.toList.map Table.renderEntry ≠ ["error"] := by
    intro same
    obtain ⟨entry, -, line⟩ := List.map_eq_singleton_iff.1 same
    exact renderEntry_ne_error entry line
  cases outcome : interpret source with
  | error e =>
    cases outcome' : interpret other with
    | error e' => simp [lines, EndAlike, outcome, outcome']
    | ok table => simp [lines, EndAlike, outcome, outcome', (apart table).symm]
  | ok table =>
    cases outcome' : interpret other with
    | error e => simp [lines, EndAlike, outcome, outcome', apart table]
    | ok table' =>
      simp only [lines, EndAlike, outcome, outcome', reduceCtorEq, false_and, exists_false,
        false_or, Except.ok.injEq, exists_eq_left']
      constructor
      · intro same
        apply Table.toList_injective
        exact map_renderEntry_injective (wellFormed_of_mem_toList outcome')
          (wellFormed_of_mem_toList outcome) same.symm
      · rintro rfl
        rfl

end Run

def Report.linesOf (sources : List String) : List String :=
  (sources.map fun source => Run.lines (interpret source)).flatMap (· ++ [""])

theorem toList_output_ofSources (sources : List String) :
    (Report.ofSources sources).output.toList =
      ((Report.linesOf sources).map String.toList).flatMap (· ++ ['\n']) := by
  rw [(Report.covers_ofSources sources).output_eq]
  simp [Run.block, Report.linesOf, List.flatMap_map, List.flatMap_assoc]

theorem newline_notMem_linesOf (sources : List String) :
    ∀ line ∈ (Report.linesOf sources).map String.toList, '\n' ∉ line := by
  intro text ht
  obtain ⟨line, hl, rfl⟩ := List.mem_map.1 ht
  obtain ⟨block, hb, hl⟩ := List.mem_flatMap.1 hl
  obtain ⟨source, -, rfl⟩ := List.mem_map.1 hb
  rcases List.mem_append.1 hl with inside | last
  · exact (Run.lines_spec source line inside).2
  · rw [List.mem_singleton.1 last]
    decide

theorem empty_notMem_lines (sources : List String) :
    ∀ block ∈ sources.map (fun source => Run.lines (interpret source)), "" ∉ block := by
  intro block hb inside
  obtain ⟨source, -, rfl⟩ := List.mem_map.1 hb
  exact (Run.lines_spec source "" inside).1 rfl

/-- The output of a batch tells how many programs were run and how each of them ended. -/
theorem output_ofSources_eq_iff (first second : List String) :
    (Report.ofSources first).output = (Report.ofSources second).output ↔
      List.Forall₂ EndAlike first second := by
  have blocks : List.Forall₂ EndAlike first second ↔
      first.map (fun source => Run.lines (interpret source)) =
        second.map (fun source => Run.lines (interpret source)) := by
    rw [← List.forall₂_eq_eq_eq, List.forall₂_map_left_iff, List.forall₂_map_right_iff]
    simp only [Run.lines_eq_iff]
  rw [blocks, ← String.toList_inj, toList_output_ofSources, toList_output_ofSources]
  constructor
  · intro same
    have texts := flatMap_append_singleton_injective (newline_notMem_linesOf first)
      (newline_notMem_linesOf second) same
    have lines : Report.linesOf first = Report.linesOf second :=
      List.map_injective_iff.2 (fun _ _ => String.toList_inj.1) texts
    exact flatMap_append_singleton_injective (empty_notMem_lines first)
      (empty_notMem_lines second) lines
  · intro same
    rw [Report.linesOf, Report.linesOf, same]

-- A variable may be called `error`, and a program may be empty.
example : (Report.ofSources ["error = 1;", "", "x = 1"]).output = "error = 1\n\n\nerror\n\n" := by
  decide +kernel

end StraightLine
