import PolyAlgebra.Fault
import PolyAlgebra.Tree

/-!
# Parsers

A parser stands somewhere in the tokens of a source. Its cursor is the list of
tokens not yet read, so that going back means to take an earlier list again.
It also knows inside how many parentheses it stands, and how deep an
expression may be nested.

Reading gives a reply: the value that was read or the fault that was met, and
the parser afterwards. A parser that met a fault may have moved; whoever wants
it back where it was says so with `orRewind`.
-/

namespace PolyAlgebra

/-- A position in the tokens of a source. -/
structure Parser where
  /-- The tokens from the cursor on. -/
  unread : List Token
  /-- The number of bytes of the source. -/
  stop : Nat
  /-- The number of parentheses around the cursor. -/
  depth : Nat
  /-- The largest height that a tree may have, if there is one. -/
  limit : Option Nat
  deriving DecidableEq, Repr

/-- What reading gives: the value or the fault, and the parser afterwards. -/
structure Reply (α : Type) where
  outcome : Except Fault α
  parser : Parser

namespace Parser

/-! ## Positions -/

def ofTokens (tokens : List Token) (limit : Option Nat) : Parser where
  unread := tokens
  stop := (tokens.getLast?.map (·.span.stop)).getD 0
  depth := 0
  limit := limit

def ofSource (source : String) (limit : Option Nat) : Parser :=
  ofTokens (Token.scan source) limit

def withLimit (p : Parser) (limit : Option Nat) : Parser :=
  { p with limit := limit }

def stopSpan (p : Parser) : Span := .point p.stop

/-- The token at the cursor, blank or not. -/
def current? (p : Parser) : Option Token := p.unread.head?

def span (p : Parser) : Span := (p.current?.map Token.span).getD p.stopSpan

def fault (p : Parser) (cause : Cause) : Fault := .located p.span cause

def skipBlanks (p : Parser) : Parser :=
  { p with unread := p.unread.dropWhile Token.isWhitespace }

/-- Puts the cursor of `p` where that of `q` is. -/
def rewindTo (p q : Parser) : Parser := { p with unread := q.unread }

def enter (p : Parser) : Parser := { p with depth := p.depth + 1 }

def leave (p : Parser) : Parser := { p with depth := p.depth - 1 }

/-- The number of tokens still to be read that are not blank. Everything that
reads a token lowers it, which is why reading ends. -/
def pending (p : Parser) : Nat := p.unread.countP fun t => !t.isWhitespace

@[simp] theorem rewindTo_self (p : Parser) : p.rewindTo p = p := rfl

@[simp] theorem pending_rewindTo (p q : Parser) :
    (p.rewindTo q).pending = q.pending := rfl

@[simp] theorem pending_enter (p : Parser) : p.enter.pending = p.pending := rfl

@[simp] theorem pending_leave (p : Parser) : p.leave.pending = p.pending := rfl

end Parser

/-! ## Replies -/

namespace Reply

variable {α β : Type}

def refine (r : Reply α) (f : α → Except Fault β) : Reply β :=
  ⟨r.outcome.bind f, r.parser⟩

def map (f : α → β) (r : Reply α) : Reply β := ⟨r.outcome.map f, r.parser⟩

def asFatal (r : Reply α) : Reply α :=
  ⟨r.outcome.mapError Fault.asFatal, r.parser⟩

/-- Reads on with the value of a reply from where it left the parser. -/
def andThen (r : Reply α) (read : α → Parser → Reply β) : Reply β :=
  match r.outcome with
  | .ok a => read a r.parser
  | .error f => ⟨.error f, r.parser⟩

/-- Puts the cursor back to where it is in `p`, if there was a fault. -/
def orRewind (r : Reply α) (p : Parser) : Reply α :=
  match r.outcome with
  | .ok _ => r
  | .error _ => { r with parser := r.parser.rewindTo p }

def rewind (r : Reply α) (p : Parser) : Reply α :=
  { r with parser := r.parser.rewindTo p }

/-- Reads in another way if there was a fault that is not final. -/
def orElse (r : Reply α) (other : Parser → Reply α) : Reply α :=
  match r.outcome with
  | .ok _ => r
  | .error f => if f.fatal then r else other r.parser

@[simp] theorem refine_ok (a : α) (p : Parser) (f : α → Except Fault β) :
    refine ⟨.ok a, p⟩ f = ⟨f a, p⟩ := rfl

@[simp] theorem refine_error (e : Fault) (p : Parser) (f : α → Except Fault β) :
    refine ⟨.error e, p⟩ f = ⟨.error e, p⟩ := rfl

@[simp] theorem map_ok (a : α) (p : Parser) (f : α → β) :
    map f ⟨.ok a, p⟩ = ⟨.ok (f a), p⟩ := rfl

@[simp] theorem map_error (e : Fault) (p : Parser) (f : α → β) :
    map f ⟨.error e, p⟩ = ⟨.error e, p⟩ := rfl

@[simp] theorem asFatal_ok (a : α) (p : Parser) :
    asFatal ⟨.ok a, p⟩ = ⟨.ok a, p⟩ := rfl

@[simp] theorem asFatal_error (e : Fault) (p : Parser) :
    asFatal (⟨.error e, p⟩ : Reply α) = ⟨.error e.asFatal, p⟩ := rfl

@[simp] theorem andThen_ok (a : α) (p : Parser) (read : α → Parser → Reply β) :
    andThen ⟨.ok a, p⟩ read = read a p := rfl

@[simp] theorem andThen_error (e : Fault) (p : Parser)
    (read : α → Parser → Reply β) :
    andThen ⟨.error e, p⟩ read = ⟨.error e, p⟩ := rfl

@[simp] theorem orRewind_ok (a : α) (p q : Parser) :
    orRewind ⟨.ok a, q⟩ p = ⟨.ok a, q⟩ := rfl

@[simp] theorem orRewind_error (e : Fault) (p q : Parser) :
    orRewind (⟨.error e, q⟩ : Reply α) p = ⟨.error e, q.rewindTo p⟩ := rfl

@[simp] theorem orElse_ok (a : α) (p : Parser) (other : Parser → Reply α) :
    orElse ⟨.ok a, p⟩ other = ⟨.ok a, p⟩ := rfl

@[simp] theorem orElse_error (e : Fault) (p : Parser)
    (other : Parser → Reply α) :
    orElse ⟨.error e, p⟩ other = if e.fatal then ⟨.error e, p⟩ else other p :=
      rfl

end Reply

namespace Parser

variable {α : Type}

/-- Reads a value, and leaves the cursor where it was if there is a fault. -/
def attempt (p : Parser) (read : Parser → Reply α) : Reply α :=
  (read p).orRewind p

def peek (p : Parser) (read : Parser → Reply α) : Reply α := (read p).rewind p

/-! ## Nesting -/

/-- Fails finally at `span` if a tree, inside the parentheses around the
cursor, is higher than the limit. -/
def checkDepth (p : Parser) (t : Tree) (span : Span) : Except Fault Unit :=
  match p.limit with
  | some limit =>
      if limit < p.depth + t.height then
        .error (.final span (.nestingTooDeep limit))
      else .ok ()
  | none => .ok ()

/-- The limit, if no further parentheses may be opened. -/
def reachedLimit? (p : Parser) : Option Nat := p.limit.filter (· ≤ p.depth)

/-- Reads one pair of parentheses further inside. Fails finally at `span` if
that is too deep. -/
def nested (p : Parser) (span : Span) (read : Parser → Reply α) : Reply α :=
  match p.reachedLimit? with
  | some limit => ⟨.error (.final span (.nestingTooDeep limit)), p⟩
  | none => let r := read p.enter; { r with parser := r.parser.leave }

/-! ## Single tokens -/

def nextToken (p : Parser) : Reply Token :=
  match p.skipBlanks.unread with
  | [] => ⟨.error (p.skipBlanks.fault .unexpectedEnd), p.skipBlanks⟩
  | t :: rest => ⟨.ok t, { p with unread := rest }⟩

def token (kind : TokenKind) (p : Parser) : Reply Token :=
  p.nextToken.refine fun t =>
    if t.kind = kind then .ok t else .error (.unexpected t [kind])

def operatorOf (t : Token) : Except Fault Operator :=
  match t.kind with
  | .add => .ok ⟨.add, t.span⟩
  | .mul => .ok ⟨.mul, t.span⟩
  | _ => .error (.unexpected t [.add, .mul])

def operator (p : Parser) : Reply Operator := p.nextToken.refine operatorOf

theorem rewindTo_nextToken (p : Parser) :
    p.nextToken.parser.rewindTo p = p := by
  unfold nextToken
  split <;> rfl

/-- Looking ahead at a single token leaves the parser as it was. -/
theorem eq_of_peek_token {p q : Parser} {kind : TokenKind}
    {o : Except Fault Token} (h : p.peek (token kind) = ⟨o, q⟩) : q = p :=
  (congrArg Reply.parser h).symm.trans p.rewindTo_nextToken

theorem eq_of_peek_operator {p q : Parser} {o : Except Fault Operator}
    (h : p.peek operator = ⟨o, q⟩) : q = p :=
  (congrArg Reply.parser h).symm.trans p.rewindTo_nextToken

theorem pending_of_peek {p q : Parser} {read : Parser → Reply α}
    {o : Except Fault α} (h : p.peek read = ⟨o, q⟩) : q.pending = p.pending :=
  congrArg (fun r => r.parser.pending) h.symm

/-- The number literal that a number token stands for. Its numeral must not
end with a point, and its value must be finite. -/
def numberOf (t : Token) : Except Fault NumberLiteral :=
  if t.lexeme.toList.getLast? = some '.' then
    .error (.final t.span (.malformedNumber .missingFraction))
  else
    let value := (Decimal.ofNumeral t.lexeme.toList).toFloat
    if value.isFinite then .ok ⟨value, t.span⟩
    else .error (.final t.span (.malformedNumber .overflow))

def numberLiteral (p : Parser) : Reply NumberLiteral :=
  (p.attempt (token .number)).refine numberOf

def symbolLiteral (p : Parser) : Reply SymbolLiteral :=
  (p.attempt (token .name)).map fun t => ⟨t.lexeme, t.span⟩

def literal (p : Parser) : Reply Literal :=
  ((p.attempt numberLiteral).map Literal.number).orElse fun q =>
    (q.attempt symbolLiteral).map Literal.symbol

/-! ## Progress

Reading never adds to the pending tokens, and reading a value takes at least
one of them. -/

/-- The reply leaves fewer tokens pending than `p` if it has a value, and
never more. -/
structure Advances (p : Parser) (r : Reply α) : Prop where
  le : r.parser.pending ≤ p.pending
  lt : ∀ a, r.outcome = .ok a → r.parser.pending < p.pending

theorem pending_skipBlanks (p : Parser) : p.skipBlanks.pending = p.pending := by
  obtain ⟨unread, stop, depth, limit⟩ := p
  simp only [skipBlanks, pending]
  induction unread with
  | nil => rfl
  | cons t rest ih =>
      cases h : t.isWhitespace with
      | true => simpa [List.dropWhile_cons, h] using ih
      | false => simp [h]

theorem advances_nextToken (p : Parser) : Advances p p.nextToken := by
  have hp := p.pending_skipBlanks
  unfold nextToken
  split
  · exact ⟨Nat.le_of_eq hp, fun a h => by simp at h⟩
  · next t rest h =>
      have ht : t.isWhitespace = false := by
        have := List.head?_dropWhile_not Token.isWhitespace p.unread
        simp only [skipBlanks] at h
        rw [h] at this
        simpa using this
      have : p.pending = rest.countP (fun t => !t.isWhitespace) + 1 := by
        rw [← hp, pending, h, List.countP_cons]
        simp [ht]
      constructor <;> simp [pending] at * <;> omega

theorem Advances.refine {β : Type} {p : Parser} {r : Reply α} (h : Advances p r)
    (f : α → Except Fault β) : Advances p (r.refine f) := by
  refine ⟨h.le, fun b hb => ?_⟩
  cases ho : r.outcome with
  | ok a => exact h.lt a ho
  | error e => simp [Reply.refine, ho, Except.bind] at hb

theorem Advances.map {β : Type} {p : Parser} {r : Reply α} (h : Advances p r)
    (f : α → β) :
    Advances p (r.map f) := by
  refine ⟨h.le, fun b hb => ?_⟩
  cases ho : r.outcome with
  | ok a => exact h.lt a ho
  | error e => simp [Reply.map, ho, Except.map] at hb

theorem Advances.orRewind {p : Parser} {r : Reply α} (h : Advances p r) :
    Advances p (r.orRewind p) := by
  unfold Reply.orRewind
  split
  · exact h
  · next ho => exact ⟨Nat.le_refl _, fun a ha => by simp [ho] at ha⟩

theorem Advances.attempt {p : Parser} {read : Parser → Reply α}
    (h : Advances p (read p)) :
    Advances p (p.attempt read) := h.orRewind

theorem Advances.orElse {p : Parser} {r : Reply α} (h : Advances p r)
    {other : Parser → Reply α}
    (ho : ∀ q, q.pending ≤ p.pending → Advances p (other q)) :
    Advances p (r.orElse other) := by
  unfold Reply.orElse
  split
  · exact h
  · split
    · exact h
    · exact ho _ h.le

theorem Advances.mono {p q : Parser} {r : Reply α} (h : Advances q r)
    (hq : q.pending ≤ p.pending) :
    Advances p r :=
  ⟨Nat.le_trans h.le hq, fun a ha => Nat.lt_of_lt_of_le (h.lt a ha) hq⟩

theorem advances_token (kind : TokenKind) (p : Parser) :
    Advances p (p.token kind) :=
  p.advances_nextToken.refine _

theorem advances_operator (p : Parser) : Advances p p.operator :=
  p.advances_nextToken.refine _

theorem advances_numberLiteral (p : Parser) : Advances p p.numberLiteral :=
  (p.advances_token .number).attempt.refine _

theorem advances_symbolLiteral (p : Parser) : Advances p p.symbolLiteral :=
  (p.advances_token .name).attempt.map _

theorem advances_literal (p : Parser) : Advances p p.literal :=
  (p.advances_numberLiteral.attempt.map _).orElse fun q hq =>
    (q.advances_symbolLiteral.attempt.map _).mono hq

end Parser

end PolyAlgebra
