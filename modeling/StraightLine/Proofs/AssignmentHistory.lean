import StraightLine.Proofs.LazyScanning
import StraightLine.Proofs.StatementEffects
set_option autoImplicit false

/-! # The assignments in a trace

A statement is carried out once its semicolon has been passed over, which brings the next token into
sight first. So the trace shows an assignment right after that token, or right after the semicolon
at the end of the text, and shows none where a literal is rejected in that place. Taken in order,
the assignments are the history of the table. -/

namespace StraightLine

open Grammar

namespace Event

def assignment? : Event → Option (String × Int64)
  | assigned name value => some (name, value)
  | _ => none

def token? : Event → Option Token
  | scanned _ t => some t
  | _ => none

theorem assignment?_of_scans (xs : List (Nat × Token)) :
    (xs.map ofLocated).filterMap assignment? = [] := by
  rw [List.filterMap_map, List.filterMap_eq_nil_iff]
  intro x _
  rfl

theorem token?_of_scans (xs : List (Nat × Token)) :
    (xs.map ofLocated).filterMap token? = xs.map Prod.snd := by
  rw [List.filterMap_map, ← List.filterMap_eq_map]
  rfl

theorem token?_filter_isScan (events : List Event) :
    (events.filter isScan).filterMap token? = events.filterMap token? := by
  have skipped {e : Event} (h : e.isScan = false) : e.token? = none := by
    cases e with
    | scanned position t => simp at h
    | assigned | accepted | rejected => rfl
  induction events with
  | nil => rfl
  | cons e events ih =>
    cases scan : e.isScan with
    | true => rw [List.filter_cons_of_pos scan, List.filterMap_cons, List.filterMap_cons, ih]
    | false =>
      rw [List.filter_cons_of_neg (by simp [scan]), ih, List.filterMap_cons_none (skipped scan)]

end Event

/-- The tokens after which the text was scanned on: a literal that is rejected hides the last one. -/
def followed (taken : List Token) : Except Error Table → List Token
  | .ok _ => taken
  | .error e =>
    match e.cause.phase with
    | .lexical => taken.dropLast
    | .syntactic => taken

/-- The events before an assignment: as many assignments as there are statements before its own, and
last the token after the semicolon, or the semicolon if the text ends there. -/
def Stores (source : String) (before : List Event) (x : String) : Prop :=
  ∃ program ss s, Program program (ss ++ [s]) ∧ s.target = x ∧
    (before.filterMap Event.assignment?).length = ss.length ∧
    ((∃ front t, before = front ++ [.scanned (Token.widths program) t] ∧
      before.filterMap Event.token? = program ++ [t]) ∨
    (∃ front position, before = front ++ [.scanned position (.mark .semicolon)] ∧
      before.filterMap Event.token? = program ∧ strip source = Token.spelling program))

namespace Machine

def Begins (m n : Machine) : Prop :=
  ∃ us, m.Passes us n ∧ .mark .semicolon ∉ us

theorem Begins.refl (m : Machine) : m.Begins m :=
  ⟨[], .refl m, by simp⟩

theorem Begins.next {m n last : Machine} {t : Token} (h : m.Begins n) (passed : n.Passes [t] last)
    (other : t ≠ .mark .semicolon) : m.Begins last := by
  obtain ⟨us, first, none⟩ := h
  refine ⟨us ++ [t], first.trans passed, ?_⟩
  simp [none, other.symm]

theorem carried_begins (m : Machine) : Carried m.Begins := by
  intro n last begins inside passed
  refine begins.next passed ?_
  intro semicolon
  rw [semicolon] at inside
  cases inside

/-- A statement that fails has passed over no semicolon. -/
theorem statement_begins (m : Machine) :
    m.statement.Ensures (fun _ _ => True) (fun e last => m.Begins last ∧ last.Refuses e) := by
  have stays {n : Machine} (begins : m.Begins n) (e : Error) (last : Machine)
      (h : last = n ∧ n.Refuses e) : m.Begins last ∧ last.Refuses e := by
    obtain ⟨rfl, refused⟩ := h
    exact ⟨begins, refused⟩
  unfold statement
  split
  next x current =>
    refine ((advance_ends m _).mono (fun _ _ => id) (stays (.refl m))).andThen ?_
    intro _ n₁ _ name
    have afterName := (Begins.refl m).next name (by simp [current])
    refine ((expect_ends n₁ .assign).mono (fun _ _ => id) (stays afterName)).andThen ?_
    intro _ n₂ _ equals
    have afterEquals := afterName.next equals (by simp)
    refine Step.Ensures.andThen (expression_upholds (carried_begins m) n₂ afterEquals) ?_
    intro v n₃ _ afterExpression
    refine ((expect_ends n₃ .semicolon).mono (fun _ _ => id) (stays afterExpression)).followedBy ?_
    intro _ _ _ _
    trivial
  · exact ⟨.refl m, refuses_unexpected m .name⟩

theorem Tracks.tokens_eq {text rest : List Char} {ts : List Token} {m : Machine}
    (track : m.Tracks text ts rest) : m.log.reverse.filterMap Event.token? = ts := by
  rw [← Event.token?_filter_isScan, track.shown, Event.token?_of_scans, Token.map_snd_located]

theorem Tracks.position_eq {text rest : List Char} {taken : List Token} {m : Machine}
    (track : m.Tracks text (taken ++ m.seen) rest) : m.position = Token.widths taken := by
  have place := track.place
  by_cases ended : m.current = .endOfInput
  · rw [seen_of_endOfInput ended, List.append_nil] at place
    rw [ended] at place
    exact place
  · rw [seen_of_ne ended, Token.widths_append, Token.widths_cons, Token.widths_nil] at place
    omega

theorem Tracks.passes {text rest : List Char} {taken us : List Token} {m n : Machine}
    (track : m.Tracks text (taken ++ m.seen) rest) (passed : m.Passes us n) :
    ∃ rest fresh, n.Tracks text (taken ++ us ++ n.seen) rest ∧ m.seen ++ fresh = us ++ n.seen ∧
      n.log.reverse = m.log.reverse ++
        (Token.located (Token.widths (taken ++ m.seen)) fresh).map .ofLocated := by
  induction passed generalizing taken rest with
  | refl m => exact ⟨rest, [], by simpa using track, by simp, by simp⟩
  | @next m n last us inside fewer step more ih =>
    obtain ⟨rest, track', log⟩ := track.advance step
    rw [seen_of_ne inside] at track track' log ⊢
    obtain ⟨rest, fresh, track'', tokens, log'⟩ := ih track'
    refine ⟨rest, n.seen ++ fresh, by simpa using track'', by simp [tokens], ?_⟩
    rw [log', log, Token.located_append, ← Token.widths_append, List.map_append, List.append_assoc]

theorem Tracks.passes_last {text rest : List Char} {taken us : List Token} {m n : Machine}
    (track : m.Tracks text (taken ++ m.seen) rest) (passed : m.Passes us n)
    (several : 2 ≤ us.length) :
    ∃ front most t, us ++ n.seen = most ++ [t] ∧
      n.log.reverse = front ++ [.scanned (Token.widths (taken ++ most)) t] := by
  obtain ⟨-, fresh, -, tokens, log⟩ := track.passes passed
  have short : m.seen.length ≤ 1 := by
    unfold seen
    split <;> simp
  rcases List.eq_nil_or_concat fresh with rfl | ⟨most, t, rfl⟩
  · have lengths := congrArg List.length tokens
    simp only [List.append_nil, List.length_append] at lengths
    omega
  · rw [List.concat_eq_append] at tokens log
    refine ⟨m.log.reverse ++ (Token.located (Token.widths (taken ++ m.seen)) most).map .ofLocated,
      m.seen ++ most, t, ?_, ?_⟩
    · rw [← tokens, List.append_assoc]
    · rw [log, Token.located_append, ← Token.widths_append, List.map_append,
        ← List.append_assoc taken, List.append_assoc m.log.reverse]
      rfl

/-- A machine that has passed over the tokens `taken` and logged the values in its table. -/
structure Records (source : String) (taken : List Token) (history : List (String × Int64))
    (m : Machine) : Prop where
  tracks : ∃ rest, m.Tracks (strip source) (taken ++ m.seen) rest
  table : m.table = .ofHistory history
  assigned : m.log.reverse.filterMap Event.assignment? = history
  placed : ∀ before x v, before ++ [.assigned x v] <+: m.log.reverse → Stores source before x

theorem Records.passes {source : String} {taken us : List Token} {history : List (String × Int64)}
    {m n : Machine} (h : m.Records source taken history) (passed : m.Passes us n) :
    n.Records source (taken ++ us) history := by
  obtain ⟨rest, track⟩ := h.tracks
  obtain ⟨rest', fresh, track', -, log⟩ := track.passes passed
  refine ⟨⟨rest', track'⟩, passed.table_eq.trans h.table, ?_, ?_⟩
  · rw [log, List.filterMap_append, Event.assignment?_of_scans, List.append_nil, h.assigned]
  · -- An assignment is no scan, so it is among the earlier events.
    intro before x v early
    rw [log] at early
    refine h.placed before x v ?_
    generalize Token.located (Token.widths (taken ++ m.seen)) fresh = xs at early
    induction xs using List.reverseRecOn with
    | nil => simpa using early
    | append_singleton xs y ih =>
      rw [List.map_append, ← List.append_assoc] at early
      rcases List.prefix_concat_iff.1 early with whole | early
      · have last := congrArg List.getLast? whole
        simp [Event.ofLocated] at last
      · exact ih early

theorem Records.stores {source : String} {program ts : List Token} {ss : List Statement}
    {history : List (String × Int64)} {s : Statement} {m last : Machine}
    (h : m.Records source program history) (derived : Program program ss)
    (values : Statement.History ss history) (statement : Assignment ts s)
    (passed : m.Passes ts last) : Stores source last.log.reverse s.target := by
  obtain ⟨_, track⟩ := h.tracks
  obtain ⟨rest, -, track', -, -⟩ := track.passes passed
  have several : 2 ≤ ts.length := by
    cases statement
    simp
  obtain ⟨front, most, t, tokens, events⟩ := track.passes_last passed several
  obtain ⟨body, rfl, -⟩ := statement.exists_body
  refine ⟨program ++ (body ++ [.mark .semicolon]), ss, s, derived.append (.singleton statement), rfl,
    ?_, ?_⟩
  · rw [(h.passes passed).assigned, values.length_eq]
  · rw [track'.tokens_eq]
    by_cases ended : last.current = .endOfInput
    · right
      rw [seen_of_endOfInput ended, List.append_nil] at tokens track' ⊢
      obtain ⟨rfl, same⟩ := List.append_inj' tokens rfl
      cases same
      refine ⟨front, _, events, rfl, ?_⟩
      rw [track'.scanned.text_eq, track'.last ended, List.append_nil]
    · left
      rw [seen_of_ne ended] at tokens ⊢
      obtain ⟨rfl, same⟩ := List.append_inj' tokens rfl
      cases same
      exact ⟨front, _, events, rfl⟩

theorem Records.assign {source : String} {taken : List Token} {history : List (String × Int64)}
    {m : Machine} (h : m.Records source taken history) {x : String} (v : Int64)
    (due : Stores source m.log.reverse x) :
    (m.assign x v).Records source taken (history ++ [(x, v)]) := by
  obtain ⟨rest, track⟩ := h.tracks
  have log : (m.assign x v).log.reverse = m.log.reverse ++ [.assigned x v] := List.reverse_cons
  refine ⟨⟨rest, track.assign x v⟩, ?_, ?_, ?_⟩
  · rw [Table.ofHistory_append, ← h.table]
    rfl
  · rw [log, List.filterMap_append, h.assigned]
    rfl
  · intro before y w early
    rw [log] at early
    rcases List.prefix_concat_iff.1 early with whole | early
    · obtain ⟨rfl, same⟩ := List.append_inj' whole rfl
      cases same
      exact due
    · exact h.placed before y w early

theorem run_records {source : String} {program : List Token} {ss : List Statement}
    {history : List (String × Int64)} {m : Machine} (h : m.Records source program history)
    (derived : Program program ss) (values : Statement.History ss history) :
    ∃ (last : Machine) (taken : List Token) (ss : List Statement) (history : List (String × Int64)),
      last.Records source taken history ∧ Finishes taken ss ∧
      Statement.History ss history ∧ last.Ends m.run.outcome ∧
      m.run.events = last.log.reverse := by
  fun_induction run m generalizing program ss history with
  | case1 m done =>
    refine ⟨m, program, ss, history, h, ?_, values, .accepted done, rfl⟩
    exact ⟨program, [], (List.append_nil _).symm, derived, by simp⟩
  | case2 m inside next fewer done ih =>
    have read := statement_reads m
    rw [done] at read
    obtain ⟨ts, s, v, last, statement, passed, value, rfl⟩ := read
    have due := h.stores derived values statement passed
    rw [h.table] at value
    exact ih ((h.passes passed).assign v due) (derived.append (.singleton statement))
      (values.snoc value)
  | case3 m inside e last failed =>
    have begun := statement_begins m
    rw [failed] at begun
    obtain ⟨⟨us, passed, none⟩, refused⟩ := begun
    exact ⟨last, program ++ us, ss, history, h.passes passed, ⟨program, us, rfl, derived, none⟩,
      values, .rejected refused, rfl⟩

theorem start_records {source : String} {m : Machine}
    (h : Machine.start (.ofSource source) = .ok m) : m.Records source [] [] := by
  obtain ⟨table, log, rest, track⟩ := start_tracks h
  refine ⟨⟨rest, track⟩, table, ?_, ?_⟩
  · rw [log, Event.assignment?_of_scans]
  · intro before x v early
    have member : Event.assigned x v ∈ m.log.reverse := early.subset (by simp)
    rw [log] at member
    obtain ⟨y, -, impossible⟩ := List.mem_map.1 member
    cases impossible

end Machine

/-- What the assignments in the trace of a source say, given the tokens that its run takes. -/
structure AssignmentTrace (source : String) (taken : List Token)
    (history : List (String × Int64)) : Prop where
  leading : taken <+: (TokenStream.ofSource source).sequence
  accepted : ∀ table, interpret source = .ok table →
    strip source = Token.spelling taken ∧ Table.ofHistory history = table
  rejected : ∀ e, interpret source = .error e →
    e.position = (String.ofList (Token.spelling taken)).utf8ByteSize
  assigned : (trace source).filterMap Event.assignment? = history
  /-- There is one assignment for each statement whose semicolon was scanned past. -/
  stored : ∃ ss, Finishes (followed taken (interpret source)) ss
  values : ∀ ss, Finishes (followed taken (interpret source)) ss → Statement.History ss history
  placed : ∀ before x v, before ++ [.assigned x v] <+: trace source → Stores source before x
  finished : ∃ ss, Finishes taken ss
  /-- A statement before a literal that is rejected stores nothing. -/
  unstored : ∀ e front, interpret source = .error e → e.cause.phase = .lexical →
    taken = front ++ [.mark .semicolon] → ∀ ss, Finishes taken ss →
      ∃ earlier s, ss = earlier ++ [s] ∧ Statement.History earlier history

structure EndsAfter (source : String) (taken : List Token) (history : List (String × Int64))
    (outcome : Except Error Table) : Prop where
  scanned : ∃ rest, Scans (strip source) taken rest ∧ ∀ table, outcome = .ok table → rest = []
  table : ∀ table, outcome = .ok table → .ofHistory history = table
  position : ∀ e, outcome = .error e → e.position = Token.widths taken
  stored : ∃ ss, Finishes (followed taken outcome) ss ∧ Statement.History ss history

theorem Machine.Records.endsAfter {source : String} {taken : List Token} {ss : List Statement}
    {history : List (String × Int64)} {last : Machine} {outcome : Except Error Table}
    (h : last.Records source taken history) (finished : Finishes taken ss)
    (values : Statement.History ss history) (ends : last.Ends outcome) :
    ∃ taken, EndsAfter source taken history outcome := by
  obtain ⟨rest, track⟩ := h.tracks
  cases ends with
  | accepted done =>
    rw [seen_of_endOfInput done, List.append_nil] at track
    refine ⟨taken, ⟨rest, track.scanned, fun _ _ => track.last done⟩, ?_, ?_, ss, finished, values⟩
    · rintro _ ⟨⟩
      exact h.table.symm
    · rintro e ⟨⟩
  | rejected refused =>
    cases refused with
    | @token e position blames =>
      obtain ⟨mid, scanned, -⟩ := track.scanned.split
      refine ⟨taken, ⟨mid, scanned, by rintro _ ⟨⟩⟩, by rintro _ ⟨⟩, ?_, ss, ?_, values⟩
      · rintro _ ⟨⟩
        rw [position, track.position_eq]
      · rw [followed, phase_of_blames_token blames]
        exact finished
    | @literal r ahead =>
      -- The token in sight was taken, only to find the literal behind it.
      obtain ⟨-, position⟩ := TokenStream.ofText_eq_rejected_iff.1 (track.ahead.symm.trans ahead)
      have inside : last.current ≠ .endOfInput := by
        intro ended
        rw [track.ahead, track.last ended, TokenStream.ofText_nil] at ahead
        cases ahead
      refine ⟨taken ++ last.seen, ⟨rest, track.scanned, by rintro _ ⟨⟩⟩, by rintro _ ⟨⟩, ?_, ss, ?_,
        values⟩
      · rintro _ ⟨⟩
        exact position
      · rw [seen_of_ne inside]
        simpa [followed, RejectedLiteral.toError, Cause.phase] using finished

theorem run_endsAfter (source : String) :
    ∃ taken history, EndsAfter source taken history (interpret source) ∧
      (Run.ofSource source).events.filterMap Event.assignment? = history ∧
      ∀ before x v, before ++ [.assigned x v] <+: (Run.ofSource source).events →
        Stores source before x := by
  unfold interpret Run.ofSource Run.ofStream
  cases start : Machine.start (.ofSource source) with
  | error r =>
    have first := Machine.ofSource_of_start_error start
    obtain ⟨-, position⟩ := TokenStream.ofText_eq_rejected_iff.1 first
    refine ⟨[], [], ⟨⟨_, .nil _, by rintro _ ⟨⟩⟩, by rintro _ ⟨⟩, ?_, ?_⟩, rfl, ?_⟩
    · rintro _ ⟨⟩
      exact position
    · exact ⟨[], ⟨[], [], rfl, .nil, by simp⟩, .nil⟩
    · simp
  | ok m =>
    obtain ⟨last, taken, ss, history, records, finished, values, ends, events⟩ :=
      Machine.run_records (Machine.start_records start) .nil .nil
    obtain ⟨taken, after⟩ := records.endsAfter finished values ends
    refine ⟨taken, history, after, ?_, ?_⟩
    · change m.run.events.filterMap Event.assignment? = history
      rw [events, records.assigned]
    · intro before x v early
      change _ <+: m.run.events at early
      rw [events] at early
      exact records.placed before x v early

/-- The assignments of a trace are the history of the table, each shown as soon as the token after
its statement is in sight. -/
theorem trace_assignments (source : String) :
    ∃ taken history, AssignmentTrace source taken history := by
  obtain ⟨taken, history, ends, assigned, placed⟩ := run_endsAfter source
  obtain ⟨rest, scanned, whole⟩ := ends.scanned
  obtain ⟨ss, stored, values⟩ := ends.stored
  have finished : ∃ ss, Finishes taken ss := by
    cases outcome : interpret source with
    | ok table =>
      rw [outcome] at stored
      exact ⟨ss, stored⟩
    | error e =>
      have position := ends.position e outcome
      rw [interpret_eq_run] at outcome
      obtain ⟨ts, left, table, c, scanned', steps, place, -⟩ := Control.refusal_of_run outcome
      obtain ⟨rfl, -⟩ := scanned.eq_of_widths scanned' (by omega)
      exact exists_finishes steps
  refine ⟨taken, history, ?_⟩
  exact {
    leading := by
      rw [TokenStream.ofSource, scanned.sequence_eq]
      exact List.prefix_append _ _
    accepted := by
      intro table accepted
      refine ⟨?_, ends.table table accepted⟩
      rw [scanned.text_eq, whole table accepted, List.append_nil]
    rejected := by
      intro e rejected
      rw [Token.utf8ByteSize_spelling, ends.position e rejected]
    assigned := by
      rw [trace, Run.trace, List.filterMap_append, assigned]
      cases (Run.ofSource source).outcome <;> simp [Run.verdict, Event.assignment?]
    stored := ⟨ss, stored⟩
    values := fun ss' other => values.congr (other.effects_unique stored)
    placed := by
      intro before x v early
      rw [trace, Run.trace] at early
      rcases List.prefix_concat_iff.1 early with last | early
      · obtain ⟨-, last⟩ := List.append_inj' last rfl
        cases outcome : (Run.ofSource source).outcome <;> simp [outcome, Run.verdict] at last
      · exact placed before x v early
    finished := finished
    unstored := by
      rintro e front rejected lexical rfl ss' finished'
      obtain ⟨earlier, s, rfl, before⟩ := finished'.exists_last
      have hidden : followed (front ++ [.mark .semicolon]) (interpret source) = front := by
        rw [rejected, followed, lexical]
        exact List.dropLast_concat
      rw [hidden] at stored
      exact ⟨earlier, s, rfl, values.congr (before.effects_unique stored)⟩ }

-- The second statement is complete, but its value is never stored.
example : trace "x = 1; y = x; 007" =
    [.scanned 0 (.name "x"), .scanned 1 (.mark .assign), .scanned 2 (.literal "1" 1),
     .scanned 3 (.mark .semicolon), .scanned 4 (.name "y"), .assigned "x" 1,
     .scanned 5 (.mark .assign), .scanned 6 (.name "x"), .scanned 7 (.mark .semicolon),
     .rejected ⟨8, .literal .leadingZero "007"⟩] := by
  decide +kernel

end StraightLine
