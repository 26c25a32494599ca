import Mathlib.Data.List.Forall2
import StraightLine.Report
set_option autoImplicit false

namespace StraightLine

def Run.lines : Except Error Table → List String
  | .ok table => table.toList.map Table.renderEntry
  | .error _ => ["error"]

def Run.block (outcome : Except Error Table) : String :=
  String.join ((lines outcome ++ [""]).map (· ++ "\n"))

namespace Report

/-- The report has a block for each of the programs, and its status tells whether one of them was
rejected. -/
structure Covers (r : Report) (sources : List String) : Prop where
  output_eq : r.output = String.join (sources.map fun source => Run.block (interpret source))
  exit_eq_one_iff : r.exit = 1 ↔ ∃ source ∈ sources, ∃ e, interpret source = .error e
  exit_le_one : r.exit ≤ 1

theorem foldl_printLine (r : Report) (lines : List String) :
    lines.foldl printLine r =
      { r with output := r.output ++ String.join (lines.map (· ++ "\n")) } := by
  induction lines generalizing r with
  | nil => simp
  | cons line lines ih =>
    rw [List.foldl_cons, ih]
    simp [printLine, String.append_assoc]

theorem program_of_ok {source : String} {table : Table} (h : interpret source = .ok table)
    (r : Report) :
    r.program source = { r with output := r.output ++ Run.block (interpret source) } := by
  have printed := foldl_printLine r (Run.lines (.ok table) ++ [""])
  rw [List.foldl_append, Run.lines, List.foldl_map] at printed
  rw [program, h]
  exact printed

theorem program_of_error {source : String} {e : Error} (h : interpret source = .error e)
    (r : Report) :
    r.program source =
      { r with exit := 1, output := r.output ++ Run.block (interpret source) } := by
  have printed := foldl_printLine { r with exit := 1 } (Run.lines (.error e) ++ [""])
  rw [program, h]
  exact printed

theorem covers_empty : empty.Covers [] where
  output_eq := rfl
  exit_eq_one_iff := by simp [empty]
  exit_le_one := Nat.zero_le 1

theorem Covers.program {r : Report} {sources : List String} (h : r.Covers sources)
    (source : String) : (r.program source).Covers (sources ++ [source]) := by
  have output : r.output ++ Run.block (interpret source) =
      String.join ((sources ++ [source]).map fun source => Run.block (interpret source)) := by
    rw [h.output_eq, List.map_append, String.join_append]
    simp
  cases outcome : interpret source with
  | ok table =>
    rw [program_of_ok outcome]
    refine ⟨output, ?_, h.exit_le_one⟩
    rw [h.exit_eq_one_iff]
    simp [or_and_right, exists_or, outcome]
  | error e =>
    rw [program_of_error outcome]
    refine ⟨output, ?_, Nat.le_refl 1⟩
    simp [or_and_right, exists_or, outcome]

theorem covers_foldl {r : Report} {done : List String} (h : r.Covers done)
    (sources : List String) : (sources.foldl program r).Covers (done ++ sources) := by
  induction sources generalizing r done with
  | nil => simpa using h
  | cons source sources ih => simpa using ih (h.program source)

theorem covers_ofSources (sources : List String) : (ofSources sources).Covers sources :=
  covers_foldl covers_empty sources

-- The second program is accepted, and the status still tells of the first one.
example : ofSources ["x = 1", "x = 2; y = -x;"] = ⟨1, "error\n\nx = 2\ny = -2\n\n", ""⟩ := by
  decide +kernel

end Report

section Gathering

variable {read : String → Except ReadFault String}

def StandsFor (read : String → Except ReadFault String) (file : Bool) (argument text : String) :
    Prop :=
  if file then read argument = .ok text else argument = text

def FirstUnreadable (read : String → Except ReadFault String) (paths : List String) (path : String)
    (fault : ReadFault) : Prop :=
  ∃ before after, paths = before ++ path :: after ∧
    (∀ earlier ∈ before, ∃ text, read earlier = .ok text) ∧ read path = .error fault

theorem exists_standsFor (file : Bool) (arguments : List String)
    (h : file = true → ∀ path ∈ arguments, ∃ text, read path = .ok text) :
    ∃ texts, List.Forall₂ (StandsFor read file) arguments texts := by
  induction arguments with
  | nil => exact ⟨[], .nil⟩
  | cons argument arguments ih =>
    obtain ⟨texts, more⟩ := ih fun on path hp => h on path (List.mem_cons_of_mem argument hp)
    cases file with
    | false => exact ⟨argument :: texts, .cons rfl more⟩
    | true =>
      obtain ⟨text, first⟩ := h rfl argument List.mem_cons_self
      exact ⟨text :: texts, .cons first more⟩

theorem exists_firstUnreadable {paths : List String}
    (h : ∃ path ∈ paths, ∃ fault, read path = .error fault) :
    ∃ path fault, FirstUnreadable read paths path fault := by
  induction paths with
  | nil =>
    obtain ⟨path, impossible, -⟩ := h
    cases impossible
  | cons first paths ih =>
    cases content : read first with
    | error fault => exact ⟨first, fault, [], paths, rfl, by simp, content⟩
    | ok text =>
      have later : ∃ path ∈ paths, ∃ fault, read path = .error fault := by
        simpa [content] using h
      obtain ⟨path, fault, before, after, rfl, readable, unreadable⟩ := ih later
      refine ⟨path, fault, first :: before, after, rfl, ?_, unreadable⟩
      intro earlier he
      rcases List.mem_cons.1 he with rfl | he
      · exact ⟨text, content⟩
      · exact readable earlier he

namespace Invocation

variable {i : Invocation}

theorem gather_of_standsFor {argument text : String} (h : StandsFor read i.file argument text)
    (gathered : List String) : i.gather read gathered argument = .ok (gathered ++ [text]) := by
  unfold StandsFor at h
  unfold gather
  split
  next file =>
    rw [if_pos file] at h
    rw [h]
  next inline =>
    rw [if_neg inline] at h
    rw [h]

theorem foldlM_gather_of_standsFor {arguments texts : List String}
    (h : List.Forall₂ (StandsFor read i.file) arguments texts) (gathered : List String) :
    arguments.foldlM (i.gather read) gathered = .ok (gathered ++ texts) := by
  induction h generalizing gathered with
  | nil => simp [pure, Except.pure]
  | @cons argument text arguments texts first more ih =>
    rw [List.foldlM_cons, gather_of_standsFor first]
    change arguments.foldlM (i.gather read) (gathered ++ [text]) = _
    rw [ih, List.append_assoc]
    rfl

theorem foldlM_gather_of_firstUnreadable {arguments : List String} {path : String}
    {fault : ReadFault} (file : i.file = true) (h : FirstUnreadable read arguments path fault)
    (gathered : List String) :
    arguments.foldlM (i.gather read) gathered = .error ⟨path, fault⟩ := by
  obtain ⟨before, after, rfl, readable, unreadable⟩ := h
  obtain ⟨texts, stands⟩ := exists_standsFor i.file before fun _ => readable
  have stopped : i.gather read (gathered ++ texts) path = .error ⟨path, fault⟩ := by
    rw [gather, if_pos file, unreadable]
  rw [List.foldlM_append, foldlM_gather_of_standsFor stands]
  change (path :: after).foldlM (i.gather read) (gathered ++ texts) = _
  rw [List.foldlM_cons, stopped]
  rfl

def leading (i : Invocation) : List String :=
  if i.demo then demonstration else []

end Invocation

end Gathering

namespace Report

variable {read : String → Except ReadFault String} {i : Invocation}

theorem ofInvocation_of_standsFor {texts : List String}
    (h : List.Forall₂ (StandsFor read i.file) i.programs texts) :
    ofInvocation i read = ofSources (i.leading ++ texts) := by
  have gathered : i.sources read = .ok (i.leading ++ texts) :=
    Invocation.foldlM_gather_of_standsFor h _
  rw [ofInvocation, gathered]

theorem ofInvocation_of_firstUnreadable {path : String} {fault : ReadFault}
    (h : FirstUnreadable read i.paths path fault) :
    ofInvocation i read = ⟨1, "", Unreadable.message ⟨path, fault⟩ ++ "\n"⟩ := by
  have file : i.file = true := by
    rw [← Bool.not_eq_false]
    intro inline
    obtain ⟨before, after, impossible, -⟩ := h
    simp [Invocation.paths, inline] at impossible
  rw [Invocation.paths, if_pos file] at h
  have stopped : i.sources read = .error ⟨path, fault⟩ :=
    Invocation.foldlM_gather_of_firstUnreadable file h _
  rw [ofInvocation, stopped]

theorem ofSources_append (first second : List String) :
    (ofSources (first ++ second)).output =
      (ofSources first).output ++ (ofSources second).output ∧
    ((ofSources (first ++ second)).exit = 1 ↔
      (ofSources first).exit = 1 ∨ (ofSources second).exit = 1) := by
  constructor
  · simp [(covers_ofSources _).output_eq]
  · simp [(covers_ofSources _).exit_eq_one_iff, or_and_right, exists_or]

end Report

/-- An unreadable path is all that a run reports; otherwise it prints the block of every program and
fails if one is rejected, wherever the programs come from and however they are divided among
runs. -/
theorem ofInvocation_report (read : String → Except ReadFault String) :
    (∀ i : Invocation,
      ((∃ path ∈ i.paths, ∃ fault, read path = .error fault) →
        ∃ path fault, FirstUnreadable read i.paths path fault ∧
          Report.ofInvocation i read =
            ⟨1, "", "Failed to read the input file '" ++ path ++ "': " ++ fault.reason ++ "\n"⟩) ∧
      ((∀ path ∈ i.paths, ∃ text, read path = .ok text) →
        ∃ texts, List.Forall₂ (StandsFor read i.file) i.programs texts ∧
          (Report.ofInvocation i read).Covers
            ((if i.demo then demonstration else []) ++ texts))) ∧
    (∀ demo paths texts, List.Forall₂ (fun path text => read path = .ok text) paths texts →
      Report.ofInvocation ⟨true, demo, paths⟩ read =
        Report.ofInvocation ⟨false, demo, texts⟩ read) ∧
    ∀ file demo first second,
      (file = true → ∀ path ∈ first ++ second, ∃ text, read path = .ok text) →
      (Report.ofInvocation ⟨file, demo, first ++ second⟩ read).output =
        (Report.ofInvocation ⟨file, demo, first⟩ read).output ++
          (Report.ofInvocation ⟨file, false, second⟩ read).output ∧
      ((Report.ofInvocation ⟨file, demo, first ++ second⟩ read).exit = 1 ↔
        (Report.ofInvocation ⟨file, demo, first⟩ read).exit = 1 ∨
          (Report.ofInvocation ⟨file, false, second⟩ read).exit = 1) := by
  refine ⟨fun i => ⟨?_, ?_⟩, ?_, ?_⟩
  · intro unreadable
    obtain ⟨path, fault, first⟩ := exists_firstUnreadable unreadable
    exact ⟨path, fault, first, Report.ofInvocation_of_firstUnreadable first⟩
  · intro readable
    have each : i.file = true → ∀ path ∈ i.programs, ∃ text, read path = .ok text := by
      intro file
      rwa [Invocation.paths, if_pos file] at readable
    obtain ⟨texts, stands⟩ := exists_standsFor i.file i.programs each
    refine ⟨texts, stands, ?_⟩
    rw [Report.ofInvocation_of_standsFor stands]
    exact Report.covers_ofSources _
  · intro demo paths texts contents
    have inline : List.Forall₂ (StandsFor read false) texts texts :=
      List.forall₂_same.2 fun _ _ => rfl
    rw [Report.ofInvocation_of_standsFor (i := ⟨true, demo, paths⟩) contents,
      Report.ofInvocation_of_standsFor (i := ⟨false, demo, texts⟩) inline]
    rfl
  · intro file demo first second readable
    obtain ⟨texts, stands⟩ := exists_standsFor file first fun on path hp =>
      readable on path (List.mem_append_left second hp)
    obtain ⟨texts', stands'⟩ := exists_standsFor file second fun on path hp =>
      readable on path (List.mem_append_right first hp)
    rw [Report.ofInvocation_of_standsFor (i := ⟨file, demo, first⟩) stands,
      Report.ofInvocation_of_standsFor (i := ⟨file, false, second⟩) stands',
      Report.ofInvocation_of_standsFor (i := ⟨file, demo, first ++ second⟩)
        (List.rel_append stands stands')]
    have divided := Report.ofSources_append
      ((Invocation.mk file demo first).leading ++ texts) texts'
    rw [List.append_assoc] at divided
    exact divided

end StraightLine
