import StraightLine.Proofs.Scan
import StraightLine.Scanner
import StraightLine.TokenStream
set_option autoImplicit false

namespace StraightLine

def Token.spelling (ts : List Token) : List Char :=
  ts.flatMap fun t => t.lexeme.toList

def Token.widths (ts : List Token) : Nat :=
  ts.foldr (fun t n => t.width + n) 0

def StopsAt (position : Nat) (rest : List Char) : Option RejectedLiteral → Prop
  | none => rest = []
  | some r => r.position = position ∧ RejectedRun r.fault r.digits rest

/-- The tokens obey the lexical rules, none could be longer, and they make up the text up to its end
or to a run of digits that is no literal. -/
structure Tokenisation (offset : Nat) (text : List Char) (ts : List Token)
    (rejected? : Option RejectedLiteral) : Prop where
  wellFormed : ∀ t ∈ ts, t.WellFormed
  covers : ∃ rest, text = Token.spelling ts ++ rest ∧
    StopsAt (offset + Token.widths ts) rest rejected?
  apart : ∀ before t after, ts = before ++ t :: after →
    t.kind.EndsBefore (text.drop (Token.spelling (before ++ [t])).length)

namespace Token

@[simp] theorem spelling_nil : spelling [] = [] := rfl

@[simp] theorem spelling_cons (t : Token) (ts : List Token) :
    spelling (t :: ts) = t.lexeme.toList ++ spelling ts := rfl

@[simp] theorem spelling_append (ts us : List Token) :
    spelling (ts ++ us) = spelling ts ++ spelling us := by
  simp [spelling]

@[simp] theorem widths_nil : widths [] = 0 := rfl

@[simp] theorem widths_cons (t : Token) (ts : List Token) :
    widths (t :: ts) = t.width + widths ts := rfl

theorem utf8ByteSize_spelling (ts : List Token) :
    (String.ofList (spelling ts)).utf8ByteSize = widths ts := by
  induction ts with
  | nil => rfl
  | cons t ts ih =>
    rw [spelling_cons, String.ofList_append, String.utf8ByteSize_append, ih, String.ofList_toList]
    simp [width]

end Token

theorem stopsAt_iff {position : Nat} {rest : List Char} {rejected? : Option RejectedLiteral} :
    StopsAt position rest rejected? ↔
      (scan rest = .endOfText ∧ rejected? = none) ∨
      ∃ fault digits, scan rest = .rejected fault digits ∧
        rejected? = some ⟨position, fault, digits⟩ := by
  cases rejected? with
  | none => simp [StopsAt, scan_eq_endOfText_iff]
  | some r =>
    obtain ⟨at', fault, digits⟩ := r
    simp only [StopsAt, scan_eq_rejected_iff, reduceCtorEq, and_false, false_or, Option.some.injEq,
      RejectedLiteral.mk.injEq]
    constructor
    · rintro ⟨rfl, run⟩
      exact ⟨fault, digits, run, rfl, rfl, rfl⟩
    · rintro ⟨_, _, run, rfl, rfl, rfl⟩
      exact ⟨rfl, run⟩

theorem tokenisation_nil_iff {offset : Nat} {text : List Char}
    {rejected? : Option RejectedLiteral} :
    Tokenisation offset text [] rejected? ↔ StopsAt offset text rejected? := by
  constructor
  · intro h
    obtain ⟨rest, rfl, stops⟩ := h.covers
    exact stops
  · intro h
    refine ⟨by simp, ⟨text, rfl, h⟩, ?_⟩
    intro before t after impossible
    simp at impossible

theorem tokenisation_cons_iff {offset : Nat} {text : List Char} {t : Token} {ts : List Token}
    {rejected? : Option RejectedLiteral} :
    Tokenisation offset text (t :: ts) rejected? ↔
      ∃ rest, scan text = .token t rest ∧ Tokenisation (offset + t.width) rest ts rejected? := by
  constructor
  · intro h
    obtain ⟨rest, rfl, stops⟩ := h.covers
    refine ⟨Token.spelling ts ++ rest, ?_, ?_, ⟨rest, rfl, ?_⟩, ?_⟩
    · have ends := h.apart [] t ts rfl
      simp only [List.nil_append, Token.spelling_cons, Token.spelling_nil, List.append_nil,
        List.append_assoc, List.drop_left] at ends
      rw [Token.spelling_cons, List.append_assoc]
      exact scan_of_wellFormed (h.wellFormed t (by simp)) ends
    · exact fun u hu => h.wellFormed u (by simp [hu])
    · simpa [Nat.add_assoc] using stops
    · intro before u after split
      have ends := h.apart (t :: before) u after (by simp [split])
      rw [List.cons_append, Token.spelling_cons, Token.spelling_cons, List.append_assoc,
        List.length_append, List.drop_length_add_append] at ends
      exact ends
  · rintro ⟨rest, found, h⟩
    obtain ⟨wellFormed, ends, rfl⟩ := scan_eq_token_iff.1 found
    obtain ⟨last, rfl, stops⟩ := h.covers
    refine ⟨?_, ⟨last, by simp, by simpa [Nat.add_assoc] using stops⟩, ?_⟩
    · intro u hu
      rcases List.mem_cons.1 hu with rfl | hu
      · exact wellFormed
      · exact h.wellFormed u hu
    · intro before u after split
      cases before with
      | nil =>
        obtain ⟨rfl, rfl⟩ := List.cons.inj split
        simpa using ends
      | cons first before =>
        obtain ⟨rfl, rfl⟩ := List.cons.inj split
        rw [List.cons_append, Token.spelling_cons, List.length_append,
          List.drop_length_add_append]
        exact h.apart before u after rfl

namespace TokenStream

def sequence (s : TokenStream) : List Token :=
  s.tokens.map Prod.snd

@[simp] theorem sequence_finish (position : Nat) : (finish position).sequence = [] := rfl

@[simp] theorem sequence_rejected (r : RejectedLiteral) : (rejected r).sequence = [] := rfl

@[simp] theorem sequence_token (position : Nat) (t : Token) (rest : TokenStream) :
    (token position t rest).sequence = t :: rest.sequence := rfl

theorem tokenisation_ofText (offset : Nat) (text : List Char) :
    Tokenisation offset text (ofText offset text).sequence (ofText offset text).fault? := by
  fun_induction ofText offset text with
  | case1 offset text found =>
    exact tokenisation_nil_iff.2 (stopsAt_iff.2 (.inl ⟨found, rfl⟩))
  | case2 offset text fault digits found =>
    exact tokenisation_nil_iff.2 (stopsAt_iff.2 (.inr ⟨fault, digits, found, rfl⟩))
  | case3 offset text t rest found _ ih =>
    exact tokenisation_cons_iff.2 ⟨rest, found, ih⟩

theorem ofText_of_tokenisation {offset : Nat} {text : List Char} {ts : List Token}
    {rejected? : Option RejectedLiteral} (h : Tokenisation offset text ts rejected?) :
    (ofText offset text).sequence = ts ∧ (ofText offset text).fault? = rejected? := by
  induction ts generalizing offset text with
  | nil =>
    obtain ⟨found, rfl⟩ | ⟨fault, digits, found, rfl⟩ := stopsAt_iff.1 (tokenisation_nil_iff.1 h)
    · obtain rfl := scan_eq_endOfText_iff.1 found
      rw [ofText_nil]
      exact ⟨rfl, rfl⟩
    · rw [ofText_of_rejected found]
      exact ⟨rfl, rfl⟩
  | cons t ts ih =>
    obtain ⟨rest, found, more⟩ := tokenisation_cons_iff.1 h
    obtain ⟨same, ending⟩ := ih more
    rw [ofText_of_token found]
    exact ⟨congrArg (t :: ·) same, ending⟩

end TokenStream

namespace Scanner

/-- The tokens read until the end of the text or a rejected literal, and that literal. -/
def readAll (s : Scanner) : List Token × Option RejectedLiteral :=
  match h : s.nextToken with
  | (.error r, _) => ([], some r)
  | (.ok t, next) =>
    if ht : t = .endOfInput then ([], none)
    else
      have := rest_length_lt_of_nextToken h ht
      let (ts, rejected?) := next.readAll
      (t :: ts, rejected?)
termination_by s.rest.length

theorem readAll_eq (s : Scanner) :
    s.readAll = ((TokenStream.ofText s.offset s.rest).sequence,
      (TokenStream.ofText s.offset s.rest).fault?) := by
  fun_induction readAll s with
  | case1 s r next h =>
    unfold nextToken at h
    split at h <;> cases h
    next fault digits found =>
      rw [TokenStream.ofText_of_rejected found]
      rfl
  | case2 s next h =>
    unfold nextToken at h
    split at h <;> cases h
    next found =>
      rw [scan_eq_endOfText_iff.1 found, TokenStream.ofText_nil]
      rfl
    next found => exact absurd rfl (ne_endOfInput_of_scan found)
  | case3 s t next h ht _ ts rejected? more ih =>
    unfold nextToken at h
    split at h <;> cases h
    · exact absurd rfl ht
    next found _ =>
      rw [TokenStream.ofText_of_token found, TokenStream.sequence_token]
      obtain ⟨rfl, rfl⟩ := Prod.mk.inj (more.symm.trans ih)
      rfl

/-- What a scanner hands out is the one tokenisation of the source without its blanks. -/
theorem readAll_eq_iff_tokenisation (source : String) (ts : List Token)
    (rejected? : Option RejectedLiteral) :
    (ofSource source).readAll = (ts, rejected?) ↔
      Tokenisation 0 (strip source) ts rejected? := by
  rw [readAll_eq, Prod.mk.injEq]
  constructor
  · rintro ⟨rfl, rfl⟩
    exact TokenStream.tokenisation_ofText 0 (strip source)
  · exact TokenStream.ofText_of_tokenisation

end Scanner

end StraightLine
