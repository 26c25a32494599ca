import Mathlib.Data.List.Basic
import StraightLine.Proofs.Tokenisation
set_option autoImplicit false

namespace StraightLine

/-- The first tokens of a text, scanned with the text after them in place. -/
inductive Scans : List Char → List Token → List Char → Prop where
  | nil (text : List Char) : Scans text [] text
  | cons {text mid rest : List Char} {t : Token} {ts : List Token}
      (found : scan text = .token t mid) (more : Scans mid ts rest) : Scans text (t :: ts) rest

namespace Token

def located (offset : Nat) : List Token → List (Nat × Token)
  | [] => []
  | t :: ts => (offset, t) :: located (offset + t.width) ts

@[simp] theorem located_nil (offset : Nat) : located offset [] = [] := rfl

@[simp] theorem located_cons (offset : Nat) (t : Token) (ts : List Token) :
    located offset (t :: ts) = (offset, t) :: located (offset + t.width) ts := rfl

@[simp] theorem map_snd_located (offset : Nat) (ts : List Token) :
    (located offset ts).map Prod.snd = ts := by
  induction ts generalizing offset with
  | nil => rfl
  | cons t ts ih => rw [located_cons, List.map_cons, ih]

@[simp] theorem widths_append (ts us : List Token) :
    widths (ts ++ us) = widths ts + widths us := by
  induction ts with
  | nil => simp
  | cons t ts ih => rw [List.cons_append, widths_cons, widths_cons, ih, Nat.add_assoc]

theorem located_append (offset : Nat) (ts us : List Token) :
    located offset (ts ++ us) = located offset ts ++ located (offset + widths ts) us := by
  induction ts generalizing offset with
  | nil => simp
  | cons t ts ih =>
    rw [List.cons_append, located_cons, located_cons, ih, widths_cons, Nat.add_assoc]
    rfl

end Token

namespace TokenStream

theorem ofText_eq_finish_iff {offset position : Nat} {text : List Char} :
    ofText offset text = finish position ↔ text = [] ∧ position = offset := by
  cases found : scan text with
  | endOfText =>
    obtain rfl := scan_eq_endOfText_iff.1 found
    simp [ofText_nil, eq_comm]
  | token t rest =>
    rw [ofText_of_token found]
    simp [← scan_eq_endOfText_iff, found]
  | rejected fault digits =>
    rw [ofText_of_rejected found]
    simp [← scan_eq_endOfText_iff, found]

theorem ofText_eq_rejected_iff {offset : Nat} {text : List Char} {r : RejectedLiteral} :
    ofText offset text = rejected r ↔
      scan text = .rejected r.fault r.digits ∧ r.position = offset := by
  obtain ⟨position, fault, digits⟩ := r
  cases found : scan text with
  | endOfText =>
    obtain rfl := scan_eq_endOfText_iff.1 found
    simp [ofText_nil]
  | token t rest => simp [ofText_of_token found]
  | rejected fault' digits' =>
    simp only [ofText_of_rejected found, rejected.injEq, RejectedLiteral.mk.injEq,
      Scan.rejected.injEq]
    rw [and_comm, eq_comm (a := offset)]

theorem ofText_eq_token_iff {offset position : Nat} {text : List Char} {t : Token}
    {s : TokenStream} :
    ofText offset text = token position t s ↔
      position = offset ∧ ∃ rest, scan text = .token t rest ∧ s = ofText (offset + t.width) rest := by
  cases found : scan text with
  | endOfText =>
    obtain rfl := scan_eq_endOfText_iff.1 found
    simp [ofText_nil]
  | rejected fault digits => simp [ofText_of_rejected found]
  | token t' rest =>
    rw [ofText_of_token found, token.injEq]
    constructor
    · rintro ⟨rfl, rfl, rfl⟩
      exact ⟨rfl, rest, rfl, rfl⟩
    · rintro ⟨rfl, _, ⟨⟩, rfl⟩
      exact ⟨rfl, rfl, rfl⟩

end TokenStream

namespace Scans

theorem text_eq {text rest : List Char} {ts : List Token} (h : Scans text ts rest) :
    text = Token.spelling ts ++ rest := by
  induction h with
  | nil text => rfl
  | cons found more ih =>
    rw [Token.spelling_cons, List.append_assoc, ← ih, lexeme_append_of_scan found]

theorem utf8ByteSize_eq {text rest : List Char} {ts : List Token} (h : Scans text ts rest) :
    (String.ofList text).utf8ByteSize =
      Token.widths ts + (String.ofList rest).utf8ByteSize := by
  rw [h.text_eq, String.ofList_append, String.utf8ByteSize_append, Token.utf8ByteSize_spelling]

theorem trans {text mid rest : List Char} {ts us : List Token} (h : Scans text ts mid)
    (h' : Scans mid us rest) : Scans text (ts ++ us) rest := by
  induction h with
  | nil text => exact h'
  | cons found more ih => exact .cons found (ih h')

theorem split {text rest : List Char} {ts us : List Token} (h : Scans text (ts ++ us) rest) :
    ∃ mid, Scans text ts mid ∧ Scans mid us rest := by
  induction ts generalizing text with
  | nil => exact ⟨text, .nil text, h⟩
  | cons t ts ih =>
    cases h with
    | cons found more =>
      obtain ⟨mid, first, second⟩ := ih more
      exact ⟨mid, .cons found first, second⟩

/-- Other text may follow, as long as it does not make the last token longer. -/
theorem change {text rest other : List Char} {ts : List Token} (h : Scans text ts rest)
    (ends : ∀ k : Kind, k.EndsBefore rest → k.EndsBefore other) :
    Scans (Token.spelling ts ++ other) ts other := by
  induction h with
  | nil text => exact .nil other
  | @cons text mid rest t ts found more ih =>
    refine .cons ?_ (ih ends)
    obtain ⟨wellFormed, before, -⟩ := scan_eq_token_iff.1 found
    rw [Token.spelling_cons, List.append_assoc]
    apply scan_of_wellFormed wellFormed
    cases more with
    | nil => exact ends _ before
    | @cons _ mid' _ u us next more' =>
      have nonempty : Token.spelling (u :: us) ≠ [] := by
        have inside := (wellFormed_of_scan next).1.nonempty
        simp [inside]
      rw [(Scans.cons next more').text_eq] at before
      rw [Kind.endsBefore_congr (List.head?_append_of_ne_nil _ nonempty)] at before ⊢
      exact before

theorem wellFormed {text rest : List Char} {ts : List Token} (h : Scans text ts rest) :
    ∀ t ∈ ts, t.WellFormed := by
  induction h with
  | nil text => simp
  | cons found more ih =>
    intro t ht
    rcases List.mem_cons.1 ht with rfl | ht
    · exact (wellFormed_of_scan found).1
    · exact ih t ht

theorem eq_of_widths {text rest rest' : List Char} {ts ts' : List Token} (h : Scans text ts rest)
    (h' : Scans text ts' rest') (same : Token.widths ts = Token.widths ts') :
    ts = ts' ∧ rest = rest' := by
  have positive {text rest : List Char} {t : Token} (found : scan text = .token t rest) :
      0 < t.width := by
    have nonempty := (wellFormed_of_scan found).1.nonempty
    have size : t.lexeme.utf8ByteSize ≠ 0 := by simpa using nonempty
    exact Nat.pos_of_ne_zero size
  induction h generalizing ts' with
  | nil text =>
    cases h' with
    | nil => exact ⟨rfl, rfl⟩
    | cons found more =>
      have width := positive found
      rw [Token.widths_nil, Token.widths_cons] at same
      omega
  | cons found more ih =>
    cases h' with
    | nil =>
      have width := positive found
      rw [Token.widths_nil, Token.widths_cons] at same
      omega
    | cons found' more' =>
      rw [found] at found'
      cases found'
      rw [Token.widths_cons, Token.widths_cons] at same
      obtain ⟨rfl, rfl⟩ := ih more' (by omega)
      exact ⟨rfl, rfl⟩

theorem eq_nil_of_rejected {text rest : List Char} {ts : List Token} {fault : Numeral.Fault}
    {digits : String} (h : Scans text ts rest) (found : scan text = .rejected fault digits) :
    ts = [] ∧ rest = text := by
  cases h with
  | nil => exact ⟨rfl, rfl⟩
  | cons next more =>
    rw [found] at next
    cases next

theorem tokens_eq {text rest : List Char} {ts : List Token} (h : Scans text ts rest)
    (offset : Nat) :
    (TokenStream.ofText offset text).tokens = Token.located offset ts ++
      (TokenStream.ofText (offset + Token.widths ts) rest).tokens := by
  induction h generalizing offset with
  | nil text => rfl
  | cons found more ih =>
    rw [TokenStream.ofText_of_token found, TokenStream.tokens, ih, Token.widths_cons,
      Nat.add_assoc]
    rfl

theorem sequence_eq {text rest : List Char} {ts : List Token} (h : Scans text ts rest)
    (offset : Nat) :
    (TokenStream.ofText offset text).sequence = ts ++
      (TokenStream.ofText (offset + Token.widths ts) rest).sequence := by
  rw [TokenStream.sequence, h.tokens_eq, List.map_append, Token.map_snd_located]
  rfl

theorem fault?_eq {text rest : List Char} {ts : List Token} (h : Scans text ts rest)
    (offset : Nat) :
    (TokenStream.ofText offset text).fault? =
      (TokenStream.ofText (offset + Token.widths ts) rest).fault? := by
  induction h generalizing offset with
  | nil text => rfl
  | cons found more ih =>
    rw [TokenStream.ofText_of_token found, TokenStream.fault?, ih, Token.widths_cons,
      Nat.add_assoc]

end Scans

theorem scans_sequence (offset : Nat) (text : List Char) :
    ∃ rest, Scans text (TokenStream.ofText offset text).sequence rest ∧
      StopsAt (offset + Token.widths (TokenStream.ofText offset text).sequence) rest
        (TokenStream.ofText offset text).fault? := by
  fun_induction TokenStream.ofText offset text with
  | case1 offset text found => exact ⟨text, .nil text, stopsAt_iff.2 (.inl ⟨found, rfl⟩)⟩
  | case2 offset text fault digits found =>
    exact ⟨text, .nil text, stopsAt_iff.2 (.inr ⟨fault, digits, found, rfl⟩)⟩
  | case3 offset text t rest found _ ih =>
    obtain ⟨last, more, stops⟩ := ih
    refine ⟨last, .cons found more, ?_⟩
    rw [TokenStream.sequence_token, Token.widths_cons, ← Nat.add_assoc]
    exact stops

/-- The places of a source where reading can stand: where a token starts, at the literal that is
rejected, or, if there is none, at the end. -/
def TokenBoundary (source : String) (position : Nat) : Prop :=
  (∃ t, (position, t) ∈ (TokenStream.ofSource source).tokens) ∨
  (∃ r, (TokenStream.ofSource source).fault? = some r ∧ r.position = position) ∨
  ((TokenStream.ofSource source).fault? = none ∧
    position = (String.ofList (strip source)).utf8ByteSize)

theorem Scans.tokenBoundary {source : String} {ts : List Token} {rest : List Char}
    (h : Scans (strip source) ts rest) : TokenBoundary source (Token.widths ts) := by
  unfold TokenBoundary TokenStream.ofSource
  rw [h.tokens_eq, h.fault?_eq, h.utf8ByteSize_eq, Nat.zero_add]
  cases front : scan rest with
  | endOfText =>
    obtain rfl := scan_eq_endOfText_iff.1 front
    rw [TokenStream.ofText_nil]
    exact .inr (.inr ⟨rfl, rfl⟩)
  | token t more =>
    rw [TokenStream.ofText_of_token front]
    exact .inl ⟨t, List.mem_append_right _ List.mem_cons_self⟩
  | rejected fault digits =>
    rw [TokenStream.ofText_of_rejected front]
    exact .inr (.inl ⟨_, rfl, rfl⟩)

end StraightLine
