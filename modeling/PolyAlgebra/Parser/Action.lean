import PolyAlgebra.Parser.Expression

/-!
# Parser actions

The operations of a parser as data, so that programs of them can be run and
reasoned about. A sequence of actions is attempted as one: if an action fails,
so does the sequence, and the cursor goes back to where it began. Actions may
also be run one pair of parentheses further inside; that does not put the
cursor back.
-/

namespace PolyAlgebra

inductive Category where
  | token (kind : TokenKind)
  | operator
  | numberLiteral
  | symbolLiteral
  | literal
  | group
  | primary
  | expr
  deriving DecidableEq, Repr

namespace Category

abbrev Value : Category → Type
  | token _ => Token
  | operator => Operator
  | numberLiteral => NumberLiteral
  | symbolLiteral => SymbolLiteral
  | literal => Literal
  | group => Group
  | primary => Primary
  | expr => Tree

def read : (c : Category) → Parser → Reply c.Value
  | token kind => Parser.token kind
  | operator => Parser.operator
  | numberLiteral => Parser.numberLiteral
  | symbolLiteral => Parser.symbolLiteral
  | literal => Parser.literal
  | group => Parser.group
  | primary => Parser.primary
  | expr => Parser.expr

end Category

inductive Action where
  | next
  /-- Read a value; the cursor stays where a fault leaves it. -/
  | read (c : Category)
  /-- Read a value; the cursor goes back if there is a fault. -/
  | attempt (c : Category)
  | peek (c : Category)
  /-- Read a value behind which the source ends. -/
  | whole (c : Category)
  | stop
  /-- Fail because the source ends at the cursor. -/
  | fail
  /-- Fail because of the token at the cursor, if there is one. -/
  | reject (expected : List TokenKind)
  /-- Fail at a place if a tree is too high. -/
  | check (t : Tree) (span : Span)
  /-- Attempt all of the actions. -/
  | sequence (actions : List Action)
  | nested (actions : List Action)

inductive Observation where
  | nothing
  | token (t : Token)
  | span (s : Span)
  | value (c : Category) (v : c.Value)
  | list (items : List Observation)

namespace Action

mutual

/-- Runs an action. The events are those of the values that were read as a
whole. -/
def run : Action → Parser → Reply Observation × List Event
  | next, p => (p.nextToken.map .token, [])
  | read c, p => ((c.read p).map (.value c), [])
  | attempt c, p => ((p.attempt c.read).map (.value c), [])
  | peek c, p => ((p.peek c.read).map (.value c), [])
  | whole c, p => ((c.read p).whole.map (.value c), (c.read p).wholeEvents)
  | stop, p => (⟨.ok (.span p.stopSpan), p⟩, [])
  | fail, p => (⟨.error (p.fault .unexpectedEnd), p⟩, [])
  | reject expected, p =>
      match p.current? with
      | some t => (⟨.error (.unexpected t expected), p⟩, [])
      | none => (⟨.ok .nothing, p⟩, [])
  | check t span, p => (⟨(p.checkDepth t span).map fun _ => .nothing, p⟩, [])
  | sequence actions, p =>
      let (r, events) := runAll actions p
      ((r.orRewind p).map .list, events)
  | nested actions, p =>
      match p.reachedLimit? with
      | some limit => (⟨.error (.final p.span (.nestingTooDeep limit)), p⟩, [])
      | none =>
          let (r, events) := runAll actions p.enter
          (⟨r.outcome.map .list, r.parser.leave⟩, events)

def runAll : List Action → Parser → Reply (List Observation) × List Event
  | [], p => (⟨.ok [], p⟩, [])
  | action :: actions, p =>
      match run action p with
      | (⟨.error f, q⟩, events) => (⟨.error f, q⟩, events)
      | (⟨.ok found, q⟩, events) =>
          let (r, later) := runAll actions q
          (r.map (found :: ·), events ++ later)

end

end Action

end PolyAlgebra
