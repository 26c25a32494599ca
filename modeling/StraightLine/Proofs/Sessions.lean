import StraightLine.Proofs.Beginnings
import StraightLine.Scanner
set_option autoImplicit false

/-! # Any mixture of requests

Tokens can be taken out of a scanner in three ways, and a copy can be drained beside it. However
these are mixed, what has been taken is a beginning of the token stream of the source and the
scanner stands right after it. An exchange is one request, or many of them, seen from outside: what
was taken, and the scanner before and after. A rejected literal is what every later exchange runs
into again; only the two ways that step through the list remember having seen it. -/

namespace StraightLine

def Scanned.token? : Scanned → Option Token
  | .ok t => if t = .endOfInput then none else some t
  | .error _ => none

def Scanned.tokens (rs : List Scanned) : List Token :=
  rs.filterMap Scanned.token?

theorem Scanned.tokens_append (rs more : List Scanned) :
    Scanned.tokens (rs ++ more) = Scanned.tokens rs ++ Scanned.tokens more :=
  List.filterMap_append

def Scanned.listed? : Scanned → Option Scanned
  | .ok t => if t = .endOfInput then none else some (.ok t)
  | .error r => some (.error r)

namespace Scanner

def Answer.results : Answer → List Scanned
  | token r => [r]
  | step r => r.toList
  | drained rs => rs

namespace Request

/-- What a request takes out of the scanner itself: nothing if it works on a copy. -/
def taken : Request → Answer → List Scanned
  | drainCopy, _ => []
  | token, a | step, a | drain, a => a.results

def Lists (q : Request) : Prop :=
  q = step ∨ q = drain

end Request

def after (s : Scanner) : List Request → Scanner
  | [] => s
  | q :: qs => (s.answer q).2.after qs

def taken (s : Scanner) (qs : List Request) : List Scanned :=
  (qs.zip (s.session qs)).flatMap fun (q, a, _) => q.taken a

theorem after_append (s : Scanner) (qs more : List Request) :
    s.after (qs ++ more) = (s.after qs).after more := by
  induction qs generalizing s with
  | nil => rfl
  | cons q qs ih => exact ih _

theorem session_append (s : Scanner) (qs more : List Request) :
    s.session (qs ++ more) = s.session qs ++ (s.after qs).session more := by
  induction qs generalizing s with
  | nil => rfl
  | cons q qs ih => exact congrArg (_ :: ·) (ih _)

theorem taken_cons (s : Scanner) (q : Request) (qs : List Request) :
    s.taken (q :: qs) = q.taken (s.answer q).1 ++ (s.answer q).2.taken qs := rfl

theorem after_without_copies (s : Scanner) (qs : List Request) :
    s.after (qs.filter (· ≠ .drainCopy)) = s.after qs := by
  induction qs generalizing s with
  | nil => rfl
  | cons q qs ih =>
    cases q with
    | token | step | drain => exact ih _
    | drainCopy => exact ih s

theorem nextToken_of_endOfText {s : Scanner} (h : scan s.rest = .endOfText) :
    s.nextToken = (.ok .endOfInput, s) := by
  simp [nextToken, h]

theorem nextToken_of_token {s : Scanner} {t : Token} {rest : List Char}
    (h : scan s.rest = .token t rest) :
    s.nextToken = (.ok t, { s with rest, offset := s.offset + t.width }) := by
  simp [nextToken, h]

theorem nextToken_of_rejected {s : Scanner} {fault : Numeral.Fault} {digits : String}
    (h : scan s.rest = .rejected fault digits) :
    s.nextToken = (.error ⟨s.offset, fault, digits⟩, s) := by
  simp [nextToken, h]

theorem next?_of_halted {s : Scanner} (h : s.halted = true) : s.next? = (none, s) := by
  simp [next?, h]

theorem next?_of_endOfText {s : Scanner} (running : s.halted = false)
    (h : scan s.rest = .endOfText) : s.next? = (none, s) := by
  simp [next?, running, nextToken_of_endOfText h]

theorem next?_of_token {s : Scanner} {t : Token} {rest : List Char} (running : s.halted = false)
    (h : scan s.rest = .token t rest) :
    s.next? = (some (.ok t), { s with rest, offset := s.offset + t.width }) := by
  have inside := ne_endOfInput_of_scan h
  cases t with
  | endOfInput => exact absurd rfl inside
  | mark | name | literal | invalid => simp [next?, running, nextToken_of_token h]

theorem next?_of_rejected {s : Scanner} {fault : Numeral.Fault} {digits : String}
    (running : s.halted = false) (h : scan s.rest = .rejected fault digits) :
    s.next? = (some (.error ⟨s.offset, fault, digits⟩), { s with halted := true }) := by
  simp [next?, running, nextToken_of_rejected h]

theorem next?_eq_listed? {s : Scanner} (running : s.halted = false) :
    s.next?.1 = Scanned.listed? s.nextToken.1 := by
  cases found : scan s.rest with
  | endOfText =>
    rw [next?_of_endOfText running found, nextToken_of_endOfText found]
    rfl
  | token t rest =>
    rw [next?_of_token running found, nextToken_of_token found]
    simp [Scanned.listed?, ne_endOfInput_of_scan found]
  | rejected fault digits =>
    rw [next?_of_rejected running found, nextToken_of_rejected found]
    rfl

theorem eq_of_next?_eq_none {s last : Scanner} (h : s.next? = (none, last)) : last = s := by
  cases running : s.halted with
  | true =>
    rw [next?_of_halted running] at h
    exact (Prod.mk.inj h).2.symm
  | false =>
    cases found : scan s.rest with
    | endOfText =>
      rw [next?_of_endOfText running found] at h
      exact (Prod.mk.inj h).2.symm
    | token t rest =>
      rw [next?_of_token running found] at h
      cases h
    | rejected fault digits =>
      rw [next?_of_rejected running found] at h
      cases h

theorem next?_collect (s : Scanner) : s.collect.2.next? = (none, s.collect.2) := by
  fun_induction collect s with
  | case1 s last h =>
    obtain rfl := eq_of_next?_eq_none h
    exact h
  | case2 s r next h _ more last rest ih =>
    rw [rest] at ih
    exact ih

theorem nextToken_halted (s : Scanner) (b : Bool) :
    nextToken { s with halted := b } =
      (s.nextToken.1, { s.nextToken.2 with halted := b }) := by
  cases found : scan s.rest with
  | endOfText =>
    rw [nextToken_of_endOfText found]
    exact nextToken_of_endOfText (s := { s with halted := b }) found
  | token t rest =>
    rw [nextToken_of_token found]
    exact nextToken_of_token (s := { s with halted := b }) found
  | rejected fault digits =>
    rw [nextToken_of_rejected found]
    exact nextToken_of_rejected (s := { s with halted := b }) found

structure Stuck (s : Scanner) (r : RejectedLiteral) : Prop where
  found : scan s.rest = .rejected r.fault r.digits
  here : s.offset = r.position

structure Exchange (s : Scanner) (rs : List Scanned) (n : Scanner) : Prop where
  scanned : Scans s.rest (Scanned.tokens rs) n.rest
  moved : n.offset = s.offset + Token.widths (Scanned.tokens rs)
  stuck : ∀ r, .error r ∈ rs → n.Stuck r

theorem Stuck.nextToken {s : Scanner} {r : RejectedLiteral} (h : s.Stuck r) :
    s.nextToken = (.error r, s) := by
  rw [nextToken_of_rejected h.found, h.here]

theorem Stuck.of_exchange {s n : Scanner} {rs : List Scanned} {r : RejectedLiteral}
    (h : s.Stuck r) (e : Exchange s rs n) : n.Stuck r := by
  obtain ⟨none, same⟩ := e.scanned.eq_nil_of_rejected h.found
  have moved := e.moved
  rw [none, Token.widths_nil, Nat.add_zero] at moved
  exact ⟨same ▸ h.found, moved.trans h.here⟩

theorem Exchange.trans {s n last : Scanner} {rs more : List Scanned} (h : Exchange s rs n)
    (h' : Exchange n more last) : Exchange s (rs ++ more) last where
  scanned := by
    rw [Scanned.tokens_append]
    exact h.scanned.trans h'.scanned
  moved := by
    rw [Scanned.tokens_append, Token.widths_append, h'.moved, h.moved, Nat.add_assoc]
  stuck r hr := by
    rcases List.mem_append.1 hr with first | second
    · exact (h.stuck r first).of_exchange h'
    · exact h'.stuck r second

theorem exchange_none (s : Scanner) : Exchange s [] s where
  scanned := .nil s.rest
  moved := rfl
  stuck := by simp

theorem exchange_token {s : Scanner} {t : Token} {rest : List Char}
    (h : scan s.rest = .token t rest) :
    Exchange s [.ok t] { s with rest, offset := s.offset + t.width } := by
  have one : Scanned.tokens [.ok t] = [t] := by
    simp [Scanned.tokens, Scanned.token?, ne_endOfInput_of_scan h]
  refine ⟨?_, ?_, by simp⟩
  · rw [one]
    exact .cons h (.nil rest)
  · rw [one]
    rfl

theorem exchange_rejected {s : Scanner} {fault : Numeral.Fault} {digits : String}
    (h : scan s.rest = .rejected fault digits) (b : Bool) :
    Exchange s [.error ⟨s.offset, fault, digits⟩] { s with halted := b } where
  scanned := .nil s.rest
  moved := rfl
  stuck r hr := by
    obtain rfl : r = ⟨s.offset, fault, digits⟩ := by simpa using hr
    exact ⟨h, rfl⟩

theorem exchange_nextToken (s : Scanner) : Exchange s [s.nextToken.1] s.nextToken.2 := by
  cases found : scan s.rest with
  | endOfText =>
    rw [nextToken_of_endOfText found]
    exact ⟨.nil s.rest, rfl, by simp⟩
  | token t rest =>
    rw [nextToken_of_token found]
    exact exchange_token found
  | rejected fault digits =>
    rw [nextToken_of_rejected found]
    exact exchange_rejected found s.halted

theorem exchange_next? (s : Scanner) : Exchange s s.next?.1.toList s.next?.2 := by
  cases running : s.halted with
  | true =>
    rw [next?_of_halted running]
    exact exchange_none s
  | false =>
    cases found : scan s.rest with
    | endOfText =>
      rw [next?_of_endOfText running found]
      exact exchange_none s
    | token t rest =>
      rw [next?_of_token running found]
      exact exchange_token found
    | rejected fault digits =>
      rw [next?_of_rejected running found]
      exact exchange_rejected found true

theorem exchange_collect (s : Scanner) : Exchange s s.collect.1 s.collect.2 := by
  fun_induction collect s with
  | case1 s last h =>
    have step := exchange_next? s
    rw [h] at step
    exact step
  | case2 s r next h _ more last rest ih =>
    have step := exchange_next? s
    rw [h] at step
    rw [rest] at ih
    exact step.trans ih

theorem exchange_answer (s : Scanner) (q : Request) :
    Exchange s (q.taken (s.answer q).1) (s.answer q).2 := by
  cases q with
  | token => exact exchange_nextToken s
  | step => exact exchange_next? s
  | drain => exact exchange_collect s
  | drainCopy => exact exchange_none s

theorem exchange_after (s : Scanner) (qs : List Request) :
    Exchange s (s.taken qs) (s.after qs) := by
  induction qs generalizing s with
  | nil => exact exchange_none s
  | cons q qs ih =>
    rw [taken_cons]
    exact (exchange_answer s q).trans (ih _)

theorem halted_next?_iff (s : Scanner) :
    s.next?.2.halted = true ↔ s.halted = true ∨ ∃ r, .error r ∈ s.next?.1.toList := by
  cases running : s.halted with
  | true => simp [next?_of_halted running, running]
  | false =>
    cases found : scan s.rest with
    | endOfText => simp [next?_of_endOfText running found, running]
    | token t rest => simp [next?_of_token running found, running]
    | rejected fault digits => simp [next?_of_rejected running found]

theorem halted_collect_iff (s : Scanner) :
    s.collect.2.halted = true ↔ s.halted = true ∨ ∃ r, .error r ∈ s.collect.1 := by
  fun_induction collect s with
  | case1 s last h =>
    have step := halted_next?_iff s
    rw [h] at step
    exact step
  | case2 s r next h _ more last rest ih =>
    have step := halted_next?_iff s
    rw [h] at step
    rw [rest] at ih
    simp only [Option.toList_some, List.mem_singleton] at step
    simp only [List.mem_cons, exists_or, ← or_assoc, ← step]
    exact ih

theorem halted_answer_iff (s : Scanner) (q : Request) :
    (s.answer q).2.halted = true ↔
      s.halted = true ∨ q.Lists ∧ ∃ r, .error r ∈ (s.answer q).1.results := by
  cases q with
  | token =>
    have same : s.nextToken.2.halted = s.halted := halted_of_nextToken rfl
    simp [answer, Request.Lists, same]
  | step => simpa [answer, Request.Lists, Answer.results] using halted_next?_iff s
  | drain => simpa [answer, Request.Lists, Answer.results] using halted_collect_iff s
  | drainCopy => simp [answer, Request.Lists]

/-- A listing request of the session has come upon a rejected literal. -/
def ListedFault (s : Scanner) (qs : List Request) : Prop :=
  ∃ past q future r, qs = past ++ q :: future ∧ q.Lists ∧
    .error r ∈ ((s.after past).answer q).1.results

theorem listedFault_cons_iff (s : Scanner) (q : Request) (qs : List Request) :
    s.ListedFault (q :: qs) ↔
      (q.Lists ∧ ∃ r, .error r ∈ (s.answer q).1.results) ∨ (s.answer q).2.ListedFault qs := by
  constructor
  · rintro ⟨past, p, future, r, split, lists, error⟩
    cases past with
    | nil =>
      obtain ⟨rfl, rfl⟩ := List.cons.inj split
      exact .inl ⟨lists, r, error⟩
    | cons first past =>
      obtain ⟨rfl, rfl⟩ := List.cons.inj split
      exact .inr ⟨past, p, future, r, rfl, lists, error⟩
  · rintro (⟨lists, r, error⟩ | ⟨past, p, future, r, rfl, lists, error⟩)
    · exact ⟨[], q, qs, r, rfl, lists, error⟩
    · exact ⟨q :: past, p, future, r, rfl, lists, error⟩

theorem halted_after_iff (s : Scanner) (qs : List Request) :
    (s.after qs).halted = true ↔ s.halted = true ∨ s.ListedFault qs := by
  induction qs generalizing s with
  | nil => simp [after, ListedFault]
  | cons q qs ih =>
    rw [after, ih, halted_answer_iff, listedFault_cons_iff, or_assoc]

def reached (source : String) (qs : List Request) : Scanner :=
  (ofSource source).after qs

def handed (source : String) (qs : List Request) : List Token :=
  Scanned.tokens ((ofSource source).taken qs)

theorem scans_handed (source : String) (qs : List Request) :
    Scans (strip source) (handed source qs) (reached source qs).rest :=
  (exchange_after (ofSource source) qs).scanned

theorem offset_reached (source : String) (qs : List Request) :
    (reached source qs).offset = Token.widths (handed source qs) :=
  (exchange_after (ofSource source) qs).moved.trans (Nat.zero_add _)

theorem ofText_reached (source : String) (qs : List Request) :
    TokenStream.ofText (0 + Token.widths (handed source qs)) (reached source qs).rest =
      TokenStream.ofText (reached source qs).offset (reached source qs).rest := by
  rw [Nat.zero_add, offset_reached]

theorem reached_append (source : String) (qs more : List Request) :
    reached source (qs ++ more) = (reached source qs).after more :=
  after_append _ _ _

theorem Stuck.after {s : Scanner} {r : RejectedLiteral} (h : s.Stuck r) (qs : List Request) :
    (s.after qs).Stuck r :=
  h.of_exchange (exchange_after s qs)

end Scanner

/-- What a reader finds at a place of a stream: a token, or how the stream ends. -/
def TokenStream.entry (s : TokenStream) (i : Nat) : Scanned :=
  match s.sequence[i]? with
  | some t => .ok t
  | none =>
    match s.fault? with
    | some r => .error r
    | none => .ok .endOfInput

theorem Scans.entry_eq {text rest : List Char} {ts : List Token} (h : Scans text ts rest)
    (offset : Nat) :
    (TokenStream.ofText offset text).entry ts.length =
      (TokenStream.ofText (offset + Token.widths ts) rest).entry 0 := by
  rw [TokenStream.entry, h.sequence_eq, h.fault?_eq, List.getElem?_append_right (Nat.le_refl _),
    Nat.sub_self]
  rfl

namespace Scanner

theorem nextToken_eq_entry (s : Scanner) :
    s.nextToken.1 = (TokenStream.ofText s.offset s.rest).entry 0 := by
  cases found : scan s.rest with
  | endOfText =>
    rw [nextToken_of_endOfText found, scan_eq_endOfText_iff.1 found, TokenStream.ofText_nil]
    rfl
  | token t rest =>
    rw [nextToken_of_token found, TokenStream.ofText_of_token found]
    rfl
  | rejected fault digits =>
    rw [nextToken_of_rejected found, TokenStream.ofText_of_rejected found]
    rfl

theorem nextToken_reached (source : String) (qs : List Request) :
    (reached source qs).nextToken.1 =
      (TokenStream.ofSource source).entry (handed source qs).length := by
  rw [TokenStream.ofSource, (scans_handed source qs).entry_eq, ofText_reached, nextToken_eq_entry]

/-- After these requests, a rejected literal is all that the scanner will ever find. -/
structure Blocked (source : String) (qs : List Request) (r : RejectedLiteral) : Prop where
  fault : (TokenStream.ofSource source).fault? = some r
  front : ∃ before rest, strip source = before ++ rest ∧
    (String.ofList before).utf8ByteSize = r.position ∧ RejectedRun r.fault r.digits rest
  stays : ∀ more, (reached source (qs ++ more)).offset = r.position
  again : ∀ more, (reached source (qs ++ more)).answer .token =
    (.token (.error r), reached source (qs ++ more))

theorem blocked_of_stuck {source : String} {qs : List Request} {r : RejectedLiteral}
    (h : (reached source qs).Stuck r) : Blocked source qs r where
  fault := by
    have left : (TokenStream.ofText (reached source qs).offset (reached source qs).rest).fault? =
        some r := by
      rw [TokenStream.ofText_of_rejected h.found, h.here]
      rfl
    rw [TokenStream.ofSource, (scans_handed source qs).fault?_eq, ofText_reached, left]
  front := by
    refine ⟨_, _, (scans_handed source qs).text_eq, ?_, scan_eq_rejected_iff.1 h.found⟩
    rw [Token.utf8ByteSize_spelling, ← offset_reached, h.here]
  stays more := by
    rw [reached_append]
    exact (h.after more).here
  again more := by
    have step := (h.after more).nextToken
    rw [reached_append, answer, step]

/-- What holds wherever a session with the scanner of a source stands. -/
structure Orderly (source : String) (qs : List Request) : Prop where
  /-- A further request is answered by the scanner reached so far, and its new offset is shown. -/
  shown : ∀ q, (ofSource source).session (qs ++ [q]) = (ofSource source).session qs ++
    [(((reached source qs).answer q).1, (reached source (qs ++ [q])).offset)]
  bounded : (reached source qs).offset ≤ (String.ofList (strip source)).utf8ByteSize
  boundary : ∃ before rest, strip source = before ++ rest ∧
    (String.ofList before).utf8ByteSize = (reached source qs).offset
  /-- It stands at the start of a token, or where the tokens end. -/
  aligned : TokenBoundary source (reached source qs).offset
  forward : ∀ more, (reached source qs).offset ≤ (reached source (qs ++ more)).offset
  /-- No token is left out and none is handed out twice. -/
  leading : handed source qs <+: (TokenStream.ofSource source).sequence
  next : (reached source qs).nextToken.1 =
    (TokenStream.ofSource source).entry (handed source qs).length
  listed : (reached source qs).halted = false → (reached source qs).next?.1 =
    Scanned.listed? ((TokenStream.ofSource source).entry (handed source qs).length)
  drained : (reached source (qs ++ [.drain])).answer .step =
    (.step none, reached source (qs ++ [.drain]))
  /-- Draining a copy shows what draining would, and leaves no mark. -/
  copied : (reached source qs).answer .drainCopy =
    (((reached source qs).answer .drain).1, reached source qs)
  copies : reached source (qs.filter (· ≠ .drainCopy)) = reached source qs
  rejects : ∀ q r, q ≠ .drainCopy → .error r ∈ ((reached source qs).answer q).1.results →
    (q ≠ .drain → (reached source qs).offset = r.position) ∧ Blocked source (qs ++ [q]) r
  /-- The list ends for good with its first rejected literal. -/
  ends : ∀ q r, q.Lists → .error r ∈ ((reached source qs).answer q).1.results →
    ∀ more, (reached source (qs ++ q :: more)).answer .step =
      (.step none, reached source (qs ++ q :: more))
  halted_iff : (reached source qs).halted = true ↔ (ofSource source).ListedFault qs
  /-- A request for a token neither looks at the flag nor changes it. -/
  unflagged : ∀ b, nextToken { reached source qs with halted := b } =
    ((reached source qs).nextToken.1, { (reached source qs).nextToken.2 with halted := b })

theorem stuck_of_error {s : Scanner} {q : Request} {r : RejectedLiteral} (own : q ≠ .drainCopy)
    (h : .error r ∈ (s.answer q).1.results) : (s.answer q).2.Stuck r := by
  apply (exchange_answer s q).stuck
  cases q with
  | token | step | drain => exact h
  | drainCopy => exact absurd rfl own

theorem offset_of_error {s : Scanner} {q : Request} {r : RejectedLiteral}
    (h : .error r ∈ (s.answer q).1.results) (single : q = .token ∨ q = .step) :
    s.offset = r.position := by
  have alone : q.taken (s.answer q).1 = [.error r] := by
    rcases single with rfl | rfl
    · exact congrArg (fun x => [x]) (List.mem_singleton.1 h).symm
    · have found := Option.mem_toList.1 h
      exact congrArg Option.toList found
  have own : q ≠ .drainCopy := by
    rcases single with rfl | rfl <;> simp
  have moved := (exchange_answer s q).moved
  rw [alone] at moved
  exact moved.symm.trans (stuck_of_error own h).here

/-- However the requests are mixed, the session goes through the token stream of the source. -/
theorem session_orderly (source : String) (qs : List Request) : Orderly source qs where
  shown q := by
    rw [session_append, reached_append]
    rfl
  bounded := by
    rw [(scans_handed source qs).utf8ByteSize_eq, offset_reached]
    exact Nat.le_add_right _ _
  boundary := by
    refine ⟨_, _, (scans_handed source qs).text_eq, ?_⟩
    rw [Token.utf8ByteSize_spelling, offset_reached]
  aligned := by
    rw [offset_reached]
    exact (scans_handed source qs).tokenBoundary
  forward more := by
    rw [reached_append, (exchange_after (reached source qs) more).moved]
    exact Nat.le_add_right _ _
  leading := by
    rw [TokenStream.ofSource, (scans_handed source qs).sequence_eq]
    exact List.prefix_append _ _
  next := nextToken_reached source qs
  listed running := by rw [next?_eq_listed? running, nextToken_reached]
  drained := by
    have done := next?_collect (reached source qs)
    rw [reached_append]
    simp only [after, answer, done]
  copied := rfl
  copies := after_without_copies _ _
  rejects q r own error := by
    refine ⟨?_, blocked_of_stuck ?_⟩
    · intro other
      apply offset_of_error error
      cases q with
      | token => exact .inl rfl
      | step => exact .inr rfl
      | drain => exact absurd rfl other
      | drainCopy => exact absurd rfl own
    · rw [reached_append]
      exact stuck_of_error own error
  ends q r lists error more := by
    have halted : (reached source (qs ++ q :: more)).halted = true :=
      (halted_after_iff _ _).2 (.inr ⟨qs, q, more, r, rfl, lists, error⟩)
    rw [answer, next?_of_halted halted]
  halted_iff := by
    rw [reached, halted_after_iff]
    simp [ofSource]
  unflagged := nextToken_halted _

-- The literal is met by the copy first, which does not end the list; then by the scanner itself.
example : handed "x = 01" [.step, .drainCopy, .token, .drainCopy, .drain, .token] =
      [.name "x", .mark .assign] ∧
    (reached "x = 01" [.step, .drainCopy, .token, .drainCopy]).halted = false ∧
    (reached "x = 01" [.step, .drainCopy, .token, .drainCopy, .drain]).halted = true ∧
    (reached "x = 01" [.step, .drainCopy, .token, .drainCopy, .drain, .token]).offset = 2 := by
  decide +kernel

end Scanner

end StraightLine
