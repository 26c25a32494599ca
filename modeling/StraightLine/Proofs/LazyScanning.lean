import StraightLine.Proofs.ErrorReports
import StraightLine.Proofs.Stopping
set_option autoImplicit false

/-! # The trace of a run

A run scans one token ahead of what it has taken and never more. Its trace therefore shows the
first tokens of the source up to the one that is refused, and then how the run ended. The machine
keeps the log in step with its place in the text, which is what every step is shown to preserve. -/

namespace StraightLine

namespace Event

def isScan (e : Event) : Bool :=
  e.message = "scanned token"

def ofLocated (x : Nat × Token) : Event :=
  .scanned x.1 x.2

@[simp] theorem isScan_scanned (position : Nat) (t : Token) :
    (scanned position t).isScan = true := by
  simp [isScan, message]

@[simp] theorem isScan_assigned (name : String) (value : Int64) :
    (assigned name value).isScan = false := by
  simp [isScan, message]

@[simp] theorem isScan_verdict (outcome : Except Error Table) :
    (Run.verdict outcome).isScan = false := by
  cases outcome <;> simp [Run.verdict, isScan, message]

theorem level_verdict (outcome : Except Error Table) :
    (Run.verdict outcome).level = .debug := by
  cases outcome <;> rfl

end Event

/-- Where scanning has come to when an error is found: a token that is refused has been scanned, a
literal that is rejected has not. -/
def Error.reach (e : Error) : Nat :=
  match e.cause.phase with
  | .lexical => e.position
  | .syntactic => e.position + e.cause.found.2.utf8ByteSize

namespace Machine

/-- A machine that has scanned the tokens `ts` of a text, its current one last, and shown them. -/
structure Tracks (text : List Char) (ts : List Token) (rest : List Char) (m : Machine) : Prop where
  scanned : Scans text ts rest
  ahead : m.ahead = .ofText (Token.widths ts) rest
  place : m.position + m.current.width = Token.widths ts
  last : m.current = .endOfInput → rest = []
  shown : m.log.reverse.filter Event.isScan = (Token.located 0 ts).map .ofLocated
  traced : ∀ e ∈ m.log, e.level = .trace

def seen (m : Machine) : List Token :=
  if m.current = .endOfInput then [] else [m.current]

theorem seen_of_endOfInput {m : Machine} (h : m.current = .endOfInput) : m.seen = [] := by
  simp [seen, h]

theorem seen_of_ne {m : Machine} (h : m.current ≠ .endOfInput) : m.seen = [m.current] := by
  simp [seen, h]

theorem Tracks.advance {text rest : List Char} {ts : List Token} {m n : Machine}
    {h : m.current ≠ .endOfInput} {fewer : n.remaining < m.remaining}
    (track : m.Tracks text ts rest) (step : m.advance h = .ok () n fewer) :
    ∃ rest, n.Tracks text (ts ++ n.seen) rest ∧
      n.log.reverse =
        m.log.reverse ++ (Token.located (Token.widths ts) n.seen).map .ofLocated := by
  unfold Machine.advance at step
  split at step
  next position ahead =>
    cases step
    obtain ⟨rfl, rfl⟩ := TokenStream.ofText_eq_finish_iff.1 (track.ahead.symm.trans ahead)
    rw [seen_of_endOfInput rfl, List.append_nil]
    exact ⟨[], { track with place := rfl, last := fun _ => rfl }, by simp⟩
  next r ahead => cases step
  next position t more ahead =>
    cases step
    obtain ⟨rfl, rest', found, rfl⟩ :=
      TokenStream.ofText_eq_token_iff.1 (track.ahead.symm.trans ahead)
    have inside := ne_endOfInput_of_scan found
    rw [seen_of_ne inside]
    refine ⟨rest', ?_, by simp [Event.ofLocated]⟩
    exact {
      scanned := track.scanned.trans (.cons found (.nil rest'))
      ahead := by simp
      place := by simp
      last := fun impossible => absurd impossible inside
      shown := by
        rw [List.reverse_cons, List.filter_append, track.shown, Token.located_append]
        simp [Event.ofLocated]
      traced := by
        intro e he
        rcases List.mem_cons.1 he with rfl | he
        · rfl
        · exact track.traced e he }

theorem Tracks.assign {text rest : List Char} {ts : List Token} {m : Machine}
    (track : m.Tracks text ts rest) (x : String) (v : Int64) :
    (m.assign x v).Tracks text ts rest where
  scanned := track.scanned
  ahead := track.ahead
  place := track.place
  last := track.last
  shown := by
    have same : (m.assign x v).log.reverse.filter Event.isScan =
        m.log.reverse.filter Event.isScan := by
      simp [Machine.assign]
    rw [same, track.shown]
  traced := by
    intro e he
    rcases List.mem_cons.1 he with rfl | he
    · rfl
    · exact track.traced e he

theorem Tracks.reach_eq {text rest : List Char} {ts : List Token} {m : Machine} {e : Error}
    (track : m.Tracks text ts rest) (h : m.Refuses e) : e.reach = Token.widths ts := by
  cases h with
  | token position blames =>
    rw [Error.reach, phase_of_blames_token blames, found_of_blames_token blames, position]
    exact track.place
  | literal ahead =>
    exact (TokenStream.ofText_eq_rejected_iff.1 (track.ahead.symm.trans ahead)).2

theorem start_tracks {source : String} {m : Machine}
    (h : Machine.start (.ofSource source) = .ok m) :
    m.table = .empty ∧ m.log.reverse = (Token.located 0 m.seen).map .ofLocated ∧
      ∃ rest, m.Tracks (strip source) m.seen rest := by
  cases stream : TokenStream.ofSource source with
  | finish position =>
    rw [stream] at h
    cases h
    obtain ⟨none, rfl⟩ := TokenStream.ofText_eq_finish_iff.1 stream
    refine ⟨rfl, rfl, [], ?_⟩
    rw [none]
    exact {
      scanned := .nil []
      ahead := (TokenStream.ofText_nil 0).symm
      place := rfl
      last := fun _ => rfl
      shown := rfl
      traced := by simp }
  | rejected r =>
    rw [stream] at h
    cases h
  | token position t more =>
    rw [stream] at h
    cases h
    obtain ⟨rfl, rest, found, rfl⟩ := TokenStream.ofText_eq_token_iff.1 stream
    have inside := ne_endOfInput_of_scan found
    rw [seen_of_ne inside]
    refine ⟨rfl, rfl, rest, ?_⟩
    exact {
      scanned := .cons found (.nil rest)
      ahead := by simp
      place := by simp
      last := fun impossible => absurd impossible inside
      shown := by simp [Event.ofLocated]
      traced := by simp [Event.level] }

theorem ofSource_of_start_error {source : String} {r : RejectedLiteral}
    (h : Machine.start (.ofSource source) = .error r) : TokenStream.ofSource source = .rejected r := by
  cases stream : TokenStream.ofSource source with
  | rejected r' =>
    rw [stream] at h
    cases h
    rfl
  | finish | token =>
    rw [stream] at h
    cases h

end Machine

def ScannedTo (ts : List Token) (rest : List Char) : Except Error Table → Prop
  | .ok _ => rest = []
  | .error e => e.reach = Token.widths ts

theorem run_scanned (source : String) :
    ∃ ts rest, Scans (strip source) ts rest ∧
      ScannedTo ts rest (interpret source) ∧
      (Run.ofSource source).events.filter Event.isScan = (Token.located 0 ts).map .ofLocated ∧
      ∀ e ∈ (Run.ofSource source).events, e.level = .trace := by
  unfold interpret Run.ofSource Run.ofStream
  cases start : Machine.start (.ofSource source) with
  | error r =>
    have first := Machine.ofSource_of_start_error start
    obtain ⟨-, position⟩ := TokenStream.ofText_eq_rejected_iff.1 first
    exact ⟨[], strip source, .nil _, position, rfl, by simp⟩
  | ok m =>
    obtain ⟨last, ⟨ts, rest, track⟩, ends, events⟩ :=
      Machine.run_ends (I := fun m => ∃ ts rest, m.Tracks (strip source) ts rest)
        (fun ⟨_, _, track⟩ step => ⟨_, (track.advance step).imp fun _ more => more.1⟩)
        (fun x v ⟨ts, rest, track⟩ => ⟨ts, rest, track.assign x v⟩)
        ⟨_, (Machine.start_tracks start).2.2⟩
    refine ⟨ts, rest, track.scanned, ?_, ?_, ?_⟩
    · generalize m.run.outcome = outcome at ends
      cases ends with
      | accepted done => exact track.last done
      | rejected refused => exact track.reach_eq refused
    · rw [← track.shown, ← events]
    · intro e he
      simp only [events, List.mem_reverse] at he
      exact track.traced e he

theorem Table.names_spec (t : Table) :
    (t.toList.map Prod.fst).Nodup ∧
      (∀ x, x ∈ t.toList.map Prod.fst ↔ t.contains x = true) ∧
      (t.toList.map Prod.fst).length = t.size := by
  refine ⟨t.nodup_names, ?_, by simp [Table.toList, Table.size]⟩
  intro x
  rw [Table.contains_iff, Table.mem_names_iff]

def Reports (last : Event) : Except Error Table → Prop
  | .ok table => ∃ names : List String, names.Nodup ∧
      (∀ x, x ∈ names ↔ table.contains x = true) ∧
      last.fields = [("bindings", toString names.length)]
  | .error e => last.fields = [("error", e.message)]

theorem reports_verdict (outcome : Except Error Table) : Reports (Run.verdict outcome) outcome := by
  cases outcome with
  | ok table =>
    obtain ⟨once, exact, size⟩ := table.names_spec
    refine ⟨_, once, exact, ?_⟩
    rw [size]
    rfl
  | error e => rfl

/-- What the trace of a source shows: these tokens, and nothing of the text that is left. -/
structure LazyTrace (source : String) (ts : List Token) (left : List Char) : Prop where
  text : strip source = Token.spelling ts ++ left
  leading : Token.located 0 ts <+: (TokenStream.ofSource source).tokens
  shown : (trace source).filter (·.message = "scanned token") =
    (Token.located 0 ts).map .ofLocated
  accepted : ∀ table, interpret source = .ok table → left = []
  rejected : ∀ e, interpret source = .error e →
    (String.ofList (Token.spelling ts)).utf8ByteSize = e.reach
  verdict : ∃ steps last, trace source = steps ++ [last] ∧ (∀ e ∈ steps, e.level = .trace) ∧
    last.level = .debug ∧ Reports last (interpret source)

/-- The trace of a source ends with how the run ended, and shows no token after the refused one. -/
theorem trace_lazy (source : String) : ∃ ts left, LazyTrace source ts left := by
  obtain ⟨ts, left, scanned, reach, shown, traced⟩ := run_scanned source
  refine ⟨ts, left, ?_⟩
  exact {
    text := scanned.text_eq
    leading := by
      rw [TokenStream.ofSource, scanned.tokens_eq]
      exact List.prefix_append _ _
    shown := by
      change (trace source).filter Event.isScan = _
      rw [trace, Run.trace, List.filter_append, shown]
      simp
    accepted := by
      intro table accepted
      rw [accepted] at reach
      exact reach
    rejected := by
      intro e rejected
      rw [rejected] at reach
      rw [Token.utf8ByteSize_spelling]
      exact reach.symm
    verdict := ⟨_, _, rfl, traced, Event.level_verdict _, reports_verdict _⟩ }

-- A name without a value is refused before the literal after it comes into sight.
example : trace "x = y + 01;" =
    [.scanned 0 (.name "x"), .scanned 1 (.mark .assign), .scanned 2 (.name "y"),
     .rejected ⟨2, .unbound "y"⟩] := by
  decide +kernel

end StraightLine
