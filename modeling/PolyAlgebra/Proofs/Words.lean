import Mathlib.Tactic.ByContra
import PolyAlgebra.Parser.Expression

/-!
# The words of a source

Blank runs separate tokens and mean nothing, so what a reader finds out depends
on the other tokens only: the words. This module says what the readers of
single tokens do in terms of the words ahead of a parser, and what all readers,
whatever they find, do to the parser itself.
-/

namespace PolyAlgebra

/-- The tokens that mean something: all but the blank runs. -/
def Token.words (tokens : List Token) : List Token :=
  tokens.filter fun t => !t.isWhitespace

namespace Parser

def words (p : Parser) : List Token := Token.words p.unread

/-- The parser behind the next word. -/
def next (p : Parser) : Parser := { p with unread := p.skipBlanks.unread.tail }

/-- The words left to read are what makes reading end. -/
theorem pending_eq_length_words (p : Parser) : p.pending = p.words.length :=
  List.countP_eq_length_filter

@[simp] theorem words_skipBlanks (p : Parser) :
    p.skipBlanks.words = p.words := by
  obtain ⟨unread, stop, depth, limit⟩ := p
  simp only [words, skipBlanks, Token.words]
  induction unread with
  | nil => rfl
  | cons t rest ih =>
      cases h : t.isWhitespace with
      | true => simpa [List.dropWhile_cons, h] using ih
      | false => simp [h]

/-- Behind the blanks stands the next word, if there is one. -/
theorem skipBlanks_eq_words (p : Parser) :
    (p.words = [] ∧ p.skipBlanks.unread = []) ∨
      ∃ t rest, p.skipBlanks.unread = t :: rest ∧
        p.words = t :: Token.words rest := by
  cases h : p.skipBlanks.unread with
  | nil =>
      refine Or.inl ⟨?_, rfl⟩
      rw [← words_skipBlanks, words, h]
      rfl
  | cons t rest =>
      refine Or.inr ⟨t, rest, rfl, ?_⟩
      have ht : t.isWhitespace = false := by
        have hd := List.head?_dropWhile_not Token.isWhitespace p.unread
        simp only [skipBlanks] at h
        rw [h] at hd
        simpa using hd
      rw [← words_skipBlanks, words, h]
      simp [Token.words, ht]

@[simp] theorem words_next (p : Parser) : p.next.words = p.words.tail := by
  rcases p.skipBlanks_eq_words with ⟨hw, hu⟩ | ⟨t, rest, hu, hw⟩
  · rw [hw]
    simp [next, words, hu, Token.words]
  · rw [hw]
    simp [next, words, hu]

theorem pending_next_lt {p : Parser} {t : Token} {ts : List Token}
    (h : p.words = t :: ts) : p.next.pending < p.pending := by
  rw [pending_eq_length_words, pending_eq_length_words, words_next, h]
  exact Nat.lt_succ_self _

@[simp] theorem words_enter (p : Parser) : p.enter.words = p.words := rfl

theorem exists_word_of_head {p : Parser} {kind : TokenKind}
    (h : ¬∀ t ∈ p.words.head?, t.kind ≠ kind) :
    ∃ t ts, p.words = t :: ts ∧ t.kind = kind := by
  cases hw : p.words with
  | nil => exact absurd (by simp [hw]) h
  | cons t ts =>
      refine ⟨t, ts, rfl, ?_⟩
      by_contra hk
      apply h
      intro u hu
      rw [hw] at hu
      obtain rfl := Option.some.inj hu
      exact hk

/-! ## Single tokens -/

theorem nextToken_of_nil {p : Parser} (h : p.words = []) :
    p.nextToken =
      ⟨.error (.located p.stopSpan .unexpectedEnd), p.skipBlanks⟩ := by
  rcases p.skipBlanks_eq_words with ⟨_, hu⟩ | ⟨t, rest, _, hw⟩
  · simp only [nextToken, hu, fault, span, current?]
    rfl
  · rw [h] at hw
    cases hw

theorem nextToken_of_cons {p : Parser} {t : Token} {ts : List Token}
    (h : p.words = t :: ts) : p.nextToken = ⟨.ok t, p.next⟩ := by
  rcases p.skipBlanks_eq_words with ⟨hw, _⟩ | ⟨u, rest, hu, hw⟩
  · rw [h] at hw
    cases hw
  · rw [h] at hw
    obtain ⟨rfl, -⟩ := List.cons.inj hw
    simp only [nextToken, next, hu, List.tail_cons]

/-- Looking for a token of a kind finds the next word if it is of that kind. -/
theorem token_of_cons {p : Parser} {t : Token} {ts : List Token}
    (h : p.words = t :: ts) (kind : TokenKind) :
    p.token kind =
      ⟨if t.kind = kind then .ok t else .error (.unexpected t [kind]),
        p.next⟩ := by
  rw [token, nextToken_of_cons h, Reply.refine_ok]

theorem token_of_nil {p : Parser} (h : p.words = []) (kind : TokenKind) :
    p.token kind =
      ⟨.error (.located p.stopSpan .unexpectedEnd), p.skipBlanks⟩ := by
  rw [token, nextToken_of_nil h, Reply.refine_error]

theorem fatal_unexpected (t : Token) (expected : List TokenKind) :
    (Fault.unexpected t expected).fatal = false := by
  unfold Fault.unexpected
  split <;> rfl

theorem attempt_token_of_kind {p : Parser} {t : Token} {ts : List Token}
    (h : p.words = t :: ts) : p.attempt (token t.kind) = ⟨.ok t, p.next⟩ := by
  rw [attempt, token_of_cons h, if_pos rfl, Reply.orRewind_ok]

/-- No token of a kind is found unless it is the next word, and to look for it
leaves other readings open. -/
theorem token_eq_error {p : Parser} {kind : TokenKind}
    (h : ∀ t ∈ p.words.head?, t.kind ≠ kind) :
    ∃ f q, p.token kind = ⟨.error f, q⟩ ∧ f.fatal = false ∧
      q.rewindTo p = p := by
  cases hw : p.words with
  | nil => exact ⟨_, p.skipBlanks, token_of_nil hw kind, rfl, rfl⟩
  | cons t ts =>
      rw [hw] at h
      refine ⟨_, p.next, ?_, fatal_unexpected t [kind], rfl⟩
      rw [token_of_cons hw, if_neg (h t rfl)]

theorem attempt_token_eq_error {p : Parser} {kind : TokenKind}
    (h : ∀ t ∈ p.words.head?, t.kind ≠ kind) :
    ∃ f, p.attempt (token kind) = ⟨.error f, p⟩ ∧ f.fatal = false := by
  obtain ⟨f, q, hf, hopen, hq⟩ := token_eq_error h
  exact ⟨f, by rw [attempt, hf, Reply.orRewind_error, hq], hopen⟩

theorem outcome_peek_token {p : Parser} {t : Token} {ts : List Token}
    (h : p.words = t :: ts) : (p.peek (token t.kind)).outcome = .ok t := by
  rw [peek, token_of_cons h, if_pos rfl]
  rfl

theorem outcome_peek_token_eq_error {p : Parser} {kind : TokenKind}
    (h : ∀ t ∈ p.words.head?, t.kind ≠ kind) :
    ∃ f, (p.peek (token kind)).outcome = .error f := by
  obtain ⟨f, q, hf, -, -⟩ := token_eq_error h
  exact ⟨f, by rw [peek, hf]; rfl⟩

end Parser

/-! ## Operators -/

def Token.IsSign (t : Token) : Prop := t.kind = .add ∨ t.kind = .mul

namespace Parser

theorem operatorOf_add {t : Token} (h : t.kind = .add) :
    operatorOf t = .ok ⟨.add, t.span⟩ := by
  simp only [operatorOf, h]

theorem operatorOf_mul {t : Token} (h : t.kind = .mul) :
    operatorOf t = .ok ⟨.mul, t.span⟩ := by
  simp only [operatorOf, h]

theorem operatorOf_other {t : Token} (h : ¬t.IsSign) :
    operatorOf t = .error (.unexpected t [.add, .mul]) := by
  unfold operatorOf
  split
  · next hk => exact absurd (Or.inl hk) h
  · next hk => exact absurd (Or.inr hk) h
  · rfl

theorem operator_of_cons {p : Parser} {t : Token} {ts : List Token}
    (h : p.words = t :: ts) : p.operator = ⟨operatorOf t, p.next⟩ := by
  rw [operator, nextToken_of_cons h, Reply.refine_ok]

theorem operator_eq_error {p : Parser}
    (h : ∀ t ∈ p.words.head?, ¬t.IsSign) :
    ∃ f q, p.operator = ⟨.error f, q⟩ := by
  cases hw : p.words with
  | nil =>
      exact ⟨_, _, by rw [operator, nextToken_of_nil hw, Reply.refine_error]⟩
  | cons t ts =>
      rw [hw] at h
      exact ⟨_, _, by rw [operator_of_cons hw, operatorOf_other (h t rfl)]⟩

end Parser

end PolyAlgebra
