import PolyAlgebra.Parser

/-!
# Reading expressions

An expression is a primary expression with a chain of operators and operands
behind it; a primary expression is a literal or an expression in parentheses.
Chains are read by climbing precedences: behind `lhs op rhs` the next operator
is looked at, and if it binds tighter than `op` the chain from `rhs` on is
read first.

The functions call each other, and what makes them end is the number of
pending tokens. Each comes with a bound on the pending tokens that it leaves;
`chain` promises to take a token only if an operator of its precedence is
ahead, and that promise is what lets `completed` look again.

A source is read as a whole if nothing but blanks stands behind the value.
What else may stand there is a fault of its own: a closing parenthesis without
a partner, a sign of arithmetic that the language lacks, or simply more than
one expression.
-/

namespace PolyAlgebra

/-- How tightly an operator binds: what binds tighter is evaluated first. -/
inductive Precedence where
  | any
  | term
  | factor
  deriving DecidableEq, Repr

namespace Precedence

def level : Precedence → Nat
  | any => 0
  | term => 1
  | factor => 2

end Precedence

def OperatorKind.precedence : OperatorKind → Precedence
  | .add => .term
  | .mul => .factor

def Operator.precedence (op : Operator) : Precedence := op.kind.precedence

namespace Parser

def OperatorAhead (p : Parser) (precedence : Precedence) : Prop :=
  ∃ op, (p.peek operator).outcome = .ok op ∧
    precedence.level ≤ op.precedence.level

/-- Joins two trees by an operator, unless the result would be too high. -/
def join (p : Parser) (lhs : Tree) (op : Operator) (rhs : Tree) : Reply Tree :=
  let node := Tree.binary lhs op rhs (lhs.span.through rhs.span)
  ⟨(p.checkDepth node op.span).map fun _ => node, p⟩

/-- Reads the closing parenthesis of a group. Whatever else is found is
final. -/
def closeGroup (p : Parser) (opening : Token) (inner : Tree) : Reply Group :=
  let r := p.nextToken
  match r.outcome with
  | .ok t =>
      if t.kind = .closeParen then
        ⟨.ok ⟨inner, opening.span.through t.span⟩, r.parser⟩
      else ⟨.error (Fault.unexpected t [.add, .mul, .closeParen]).asFatal,
        r.parser⟩
  | .error _ =>
      ⟨.error (.final opening.span (.unclosedParenthesis true)), r.parser⟩

theorem pending_closeGroup_le (p : Parser) (opening : Token) (inner : Tree) :
    (p.closeGroup opening inner).parser.pending ≤ p.pending := by
  have h := p.advances_nextToken.le
  unfold closeGroup
  simp only
  split
  · split <;> exact h
  · exact h

/-! ## The climb, with its bounds -/

mutual

def boundedExpr (p : Parser) : { r : Reply Tree // Advances p r } :=
  match hp : p.peek (token .closeParen) with
  | ⟨.ok t, q⟩ =>
      ⟨⟨.error (.final t.span (.unclosedParenthesis false)), q⟩,
        Nat.le_of_eq (pending_of_peek hp), by simp⟩
  | ⟨.error _, q⟩ =>
      have hq : q.pending = p.pending := pending_of_peek hp
      match boundedPrimary q with
      | ⟨⟨.error f, q'⟩, _⟩ =>
          ⟨⟨.error f, q'.rewindTo q⟩, Nat.le_of_eq hq, by simp⟩
      | ⟨⟨.ok lhs, q'⟩, h⟩ =>
          have hq' : q'.pending < p.pending := hq ▸ h.lt lhs rfl
          let r := boundedChain q' lhs.toTree .any
          ⟨r.1, Nat.le_trans r.2.1 (Nat.le_of_lt hq'),
            fun _ _ => Nat.lt_of_le_of_lt r.2.1 hq'⟩
  termination_by 4 * p.pending + 2

def boundedPrimary (p : Parser) : { r : Reply Primary // Advances p r } :=
  match hl : (p.attempt literal).map Primary.literal with
  | ⟨.ok l, q⟩ => ⟨⟨.ok l, q⟩, hl ▸ p.advances_literal.attempt.map _⟩
  | ⟨.error f, q⟩ =>
      have hq : Advances p ⟨.error f, q⟩ :=
        hl ▸ p.advances_literal.attempt.map _
      if f.fatal then ⟨⟨.error f, q⟩, hq⟩
      else
        match boundedGroup q with
        | ⟨⟨.ok g, q'⟩, h⟩ =>
            ⟨⟨.ok (.group g), q'⟩, Nat.le_trans h.le hq.le,
              fun _ _ => Nat.lt_of_lt_of_le (h.lt g rfl) hq.le⟩
        | ⟨⟨.error f, q'⟩, _⟩ =>
            if f.fatal then ⟨⟨.error f, q'.rewindTo q⟩, hq.le, by simp⟩
            else
              ⟨(q'.rewindTo q).nextToken.refine fun t =>
                  .error (.unexpected t [.number, .name, .openParen]),
                ((q'.rewindTo q).advances_nextToken.refine _).mono hq.le⟩
  termination_by 4 * p.pending + 1
  decreasing_by exact Nat.lt_succ_of_le (Nat.mul_le_mul_left 4 hq.le)

def boundedGroup (p : Parser) : { r : Reply Group // Advances p r } :=
  match ht : p.attempt (token .openParen) with
  | ⟨.error f, q⟩ =>
      ⟨⟨.error f, q⟩, (ht ▸ (p.advances_token .openParen).attempt).le, by simp⟩
  | ⟨.ok opening, q⟩ =>
      have hq : q.pending < p.pending :=
        (show Advances p ⟨.ok opening, q⟩ from
          ht ▸ (p.advances_token .openParen).attempt).lt _ rfl
      match q.reachedLimit? with
      | some limit =>
          ⟨⟨.error (.final opening.span (.nestingTooDeep limit)), q⟩,
            Nat.le_of_lt hq, by simp⟩
      | none =>
          let r := boundedGroupBody q.enter opening
          ⟨⟨r.1.outcome, r.1.parser.leave⟩, Nat.le_trans r.2 (Nat.le_of_lt hq),
            fun _ _ => Nat.lt_of_le_of_lt r.2 hq⟩
  termination_by 4 * p.pending

/-- Reads what follows an opening parenthesis, up to its partner. Every fault
is final. -/
def boundedGroupBody (p : Parser) (opening : Token) :
    { r : Reply Group // r.parser.pending ≤ p.pending } :=
  match hp : p.peek (token .closeParen) with
  | ⟨.ok close, q⟩ =>
      ⟨⟨.error (.final (opening.span.through close.span) .emptyParenthesis), q⟩,
        Nat.le_of_eq (pending_of_peek hp)⟩
  | ⟨.error _, q⟩ =>
      have hq : q.pending = p.pending := pending_of_peek hp
      match boundedExpr q with
      | ⟨⟨.error f, q'⟩, _⟩ =>
          ⟨⟨.error f.asFatal, q'.rewindTo q⟩, Nat.le_of_eq hq⟩
      | ⟨⟨.ok inner, q'⟩, h⟩ =>
          ⟨q'.closeGroup opening inner,
            hq ▸ Nat.le_trans (q'.pending_closeGroup_le opening inner) h.le⟩
  termination_by 4 * p.pending + 3

/-- Reads the operators that bind at least as tightly as `precedence`, with
their operands, behind the leftmost operand `lhs`. -/
def boundedChain (p : Parser) (lhs : Tree) (precedence : Precedence) :
    { r : Reply Tree // r.parser.pending ≤ p.pending ∧
      ∀ t, r.outcome = .ok t → p.OperatorAhead precedence →
        r.parser.pending < p.pending } :=
  match hp : p.peek operator with
  | ⟨.error _, q⟩ =>
      ⟨⟨.ok lhs, q⟩, Nat.le_of_eq (pending_of_peek hp),
        fun _ _ ⟨op, hop, _⟩ => by simp [hp] at hop⟩
  | ⟨.ok op, q⟩ =>
      have hq : q.pending = p.pending := pending_of_peek hp
      if hl : op.precedence.level < precedence.level then
        ⟨⟨.ok lhs, q⟩, Nat.le_of_eq hq, fun _ _ ⟨op', hop, hle⟩ => by
          simp only [hp, Except.ok.injEq] at hop
          subst hop
          omega⟩
      else
        match ht : q.attempt operator with
        | ⟨.error f, q'⟩ =>
            ⟨⟨.error f, q'⟩,
              hq ▸ (ht ▸ q.advances_operator.attempt).le, by simp⟩
        | ⟨.ok _, q'⟩ =>
            have hq' : q'.pending < p.pending :=
              hq ▸ (show Advances q ⟨.ok _, q'⟩ from
                ht ▸ q.advances_operator.attempt).lt _ rfl
            match boundedPrimary q' with
            | ⟨⟨.error f, q''⟩, _⟩ =>
                ⟨⟨.error f.asFatal, q''.rewindTo q'⟩, Nat.le_of_lt hq', by simp⟩
            | ⟨⟨.ok rhs, q''⟩, h⟩ =>
                have hq'' : q''.pending < p.pending :=
                  Nat.lt_trans (h.lt rhs rfl) hq'
                match boundedCompleted q'' lhs op rhs.toTree with
                | ⟨⟨.error f, q₃⟩, h'⟩ =>
                    ⟨⟨.error f, q₃⟩,
                      Nat.le_trans h' (Nat.le_of_lt hq''), by simp⟩
                | ⟨⟨.ok node, q₃⟩, h'⟩ =>
                    have hq₃ : q₃.pending < p.pending :=
                      Nat.lt_of_le_of_lt h' hq''
                    let r := boundedChain q₃ node precedence
                    ⟨r.1, Nat.le_trans r.2.1 (Nat.le_of_lt hq₃),
                      fun _ _ _ => Nat.lt_of_le_of_lt r.2.1 hq₃⟩
  termination_by 4 * p.pending

/-- Joins `lhs op rhs` after reading on from `rhs` as long as tighter operators
follow. -/
def boundedCompleted (p : Parser) (lhs : Tree) (op : Operator) (rhs : Tree) :
    { r : Reply Tree // r.parser.pending ≤ p.pending } :=
  match hp : p.peek operator with
  | ⟨.error _, q⟩ => ⟨q.join lhs op rhs, Nat.le_of_eq (pending_of_peek hp)⟩
  | ⟨.ok next, q⟩ =>
      have hq : q.pending = p.pending := pending_of_peek hp
      if op.precedence.level < next.precedence.level then
        match boundedChain q rhs next.precedence with
        | ⟨⟨.error f, q'⟩, h⟩ => ⟨⟨.error f, q'⟩, hq ▸ h.1⟩
        | ⟨⟨.ok rhs', q'⟩, h⟩ =>
            have ahead : q.OperatorAhead next.precedence := by
              exact ⟨next, by rw [eq_of_peek_operator hp, hp], Nat.le_refl _⟩
            have hq' : q'.pending < p.pending := hq ▸ h.2 rhs' rfl ahead
            let r := boundedCompleted q' lhs op rhs'
            ⟨r.1, Nat.le_trans r.2 (Nat.le_of_lt hq')⟩
      else ⟨q.join lhs op rhs, Nat.le_of_eq hq⟩
  termination_by 4 * p.pending + 1

end

/-! ## The readers

What the readers do, without the bounds. -/

def expr (p : Parser) : Reply Tree := (boundedExpr p).1

def primary (p : Parser) : Reply Primary := (boundedPrimary p).1

def group (p : Parser) : Reply Group := (boundedGroup p).1

def groupBody (p : Parser) (opening : Token) : Reply Group :=
  (boundedGroupBody p opening).1

def chain (p : Parser) (lhs : Tree) (precedence : Precedence) : Reply Tree :=
  (boundedChain p lhs precedence).1

def completed (p : Parser) (lhs : Tree) (op : Operator) (rhs : Tree) :
    Reply Tree :=
  (boundedCompleted p lhs op rhs).1

/-- An expression cannot begin with a closing parenthesis, and that is final.
Otherwise it is a primary expression with any chain of operators behind it. -/
theorem expr_eq (p : Parser) :
    p.expr =
      match (p.peek (token .closeParen)).outcome with
      | .ok t => ⟨.error (.final t.span (.unclosedParenthesis false)), p⟩
      | .error _ => (p.attempt primary).andThen fun lhs q =>
          q.chain lhs.toTree .any := by
  unfold expr
  rw [boundedExpr]
  split
  · next t q hp =>
      obtain rfl := eq_of_peek_token hp
      conv => rhs; rw [hp]
  · next f q hp =>
      obtain rfl := eq_of_peek_token hp
      conv => rhs; rw [hp]
      rw [attempt, primary]
      rcases boundedPrimary q with ⟨⟨f | lhs, q'⟩, h⟩
      · rfl
      · rfl

/-- A literal is tried first and then a group; a final fault of either stands.
If neither begins here, the fault is the token that does. -/
theorem primary_eq_orElse (p : Parser) :
    p.primary =
      ((p.attempt literal).map Primary.literal).orElse fun q =>
        ((q.attempt group).map Primary.group).orElse fun q =>
          q.nextToken.refine fun t =>
            .error (.unexpected t [.number, .name, .openParen]) := by
  unfold primary
  rw [boundedPrimary]
  split
  · next h => conv => rhs; rw [h, Reply.orElse_ok]
  · next f q h =>
      conv => rhs; rw [h, Reply.orElse_error]
      dsimp only
      split
      · rfl
      · simp only [attempt, group]
        rcases boundedGroup q with ⟨⟨f' | g, q'⟩, h⟩
        · simp only [Reply.orRewind_error, Reply.map_error, Reply.orElse_error]
          split <;> rfl
        · rfl

/-- A group begins with an opening parenthesis, and the rest is read one pair
further inside. -/
theorem group_eq (p : Parser) :
    p.group =
      (p.attempt (token .openParen)).andThen fun opening q =>
        q.nested opening.span fun q => q.groupBody opening := by
  unfold group
  rw [boundedGroup]
  split
  · next h => conv => rhs; rw [h, Reply.andThen_error]
  · next opening q h =>
      conv => rhs; rw [h, Reply.andThen_ok]
      cases hl : q.reachedLimit? with
      | some limit => simp only [nested, hl]
      | none => simp only [nested, hl, groupBody]

/-- Parentheses around nothing are a fault of both; otherwise an expression and
the closing parenthesis follow, and every fault is final. -/
theorem groupBody_eq (p : Parser) (opening : Token) :
    p.groupBody opening =
      match (p.peek (token .closeParen)).outcome with
      | .ok close =>
          ⟨.error (.final (opening.span.through close.span) .emptyParenthesis),
            p⟩
      | .error _ =>
          (p.attempt expr).asFatal.andThen fun inner q =>
            q.closeGroup opening inner := by
  unfold groupBody
  rw [boundedGroupBody]
  split
  · next t q hp =>
      obtain rfl := eq_of_peek_token hp
      conv => rhs; rw [hp]
  · next f q hp =>
      obtain rfl := eq_of_peek_token hp
      conv => rhs; rw [hp]
      rw [attempt, expr]
      rcases boundedExpr q with ⟨⟨f | inner, q'⟩, h⟩
      · rfl
      · rfl

/-- A chain goes on with an operator that binds tightly enough. An operand must
follow it, and the node that they make with `lhs` is the left operand of what
comes next. -/
theorem chain_eq (p : Parser) (lhs : Tree) (precedence : Precedence) :
    p.chain lhs precedence =
      match (p.peek operator).outcome with
      | .error _ => ⟨.ok lhs, p⟩
      | .ok op =>
          if op.precedence.level < precedence.level then ⟨.ok lhs, p⟩
          else
            ((p.operator.parser.attempt primary).asFatal.andThen fun rhs q =>
              q.completed lhs op rhs.toTree).andThen fun node q =>
                q.chain node precedence := by
  unfold chain
  rw [boundedChain]
  split
  · next f q hp =>
      obtain rfl := eq_of_peek_operator hp
      conv => rhs; rw [hp]
  · next op q hp =>
      obtain rfl := eq_of_peek_operator hp
      have hop : q.operator.outcome = .ok op := congrArg Reply.outcome hp
      conv => rhs; rw [hp]
      dsimp only
      split
      · rfl
      · -- the operator that was seen is there to be read
        have hattempt : q.attempt operator = q.operator := by
          unfold attempt Reply.orRewind
          rw [hop]
        split
        · next f q' ht => simp [← hattempt, ht] at hop
        · next op' q' ht =>
            obtain rfl : q' = q.operator.parser :=
              congrArg Reply.parser (ht.symm.trans hattempt)
            simp only [attempt, primary]
            rcases boundedPrimary q.operator.parser with ⟨⟨f | rhs, q''⟩, h⟩
            · rfl
            · rw [Reply.orRewind_ok, Reply.asFatal_ok, Reply.andThen_ok,
                completed]
              dsimp only
              rcases boundedCompleted q'' lhs op rhs.toTree with
                ⟨⟨f | node, q₃⟩, h'⟩
              · rfl
              · rfl

/-- A right operand is complete when no tighter operator follows it. -/
theorem completed_eq (p : Parser) (lhs : Tree) (op : Operator) (rhs : Tree) :
    p.completed lhs op rhs =
      match (p.peek operator).outcome with
      | .error _ => p.join lhs op rhs
      | .ok next =>
          if op.precedence.level < next.precedence.level then
            (p.chain rhs next.precedence).andThen fun rhs q =>
              q.completed lhs op rhs
          else p.join lhs op rhs := by
  unfold completed
  rw [boundedCompleted]
  split
  · next f q hp =>
      obtain rfl := eq_of_peek_operator hp
      conv => rhs; rw [hp]
  · next next q hp =>
      obtain rfl := eq_of_peek_operator hp
      conv => rhs; rw [hp]
      dsimp only
      split
      · rw [chain]
        rcases boundedChain q rhs next.precedence with ⟨⟨f | rhs', q'⟩, h⟩
        · rfl
        · rfl
      · rfl

theorem advances_expr (p : Parser) : Advances p p.expr := (boundedExpr p).2

theorem advances_primary (p : Parser) : Advances p p.primary :=
  (boundedPrimary p).2

theorem advances_group (p : Parser) : Advances p p.group := (boundedGroup p).2

theorem pending_chain_le (p : Parser) (lhs : Tree) (precedence : Precedence) :
    (p.chain lhs precedence).parser.pending ≤ p.pending :=
  (boundedChain p lhs precedence).2.1

theorem pending_chain_lt {p : Parser} {lhs t : Tree} {precedence : Precedence}
    (h : (p.chain lhs precedence).outcome = .ok t)
    (ahead : p.OperatorAhead precedence) :
    (p.chain lhs precedence).parser.pending < p.pending :=
  (boundedChain p lhs precedence).2.2 t h ahead

theorem pending_completed_le (p : Parser) (lhs : Tree) (op : Operator)
    (rhs : Tree) :
    (p.completed lhs op rhs).parser.pending ≤ p.pending :=
  (boundedCompleted p lhs op rhs).2

/-! ## Whole sources -/

/-- The fault of having a token at the cursor, blanks apart, where the source
should end. -/
def trailing? (p : Parser) : Option Fault :=
  match p.skipBlanks.unread with
  | [] => none
  | t :: _ =>
      if t.kind = .closeParen then
        some (.located t.span (.unclosedParenthesis false))
      else if t.isUnsupportedOperator then some (.unexpected t [])
      else some (.located ⟨t.span.start, p.stop⟩ .expectedEnd)

end Parser

namespace Reply

variable {α : Type}

def whole (r : Reply α) : Reply α :=
  r.andThen fun a q =>
    match q.trailing? with
    | none => ⟨.ok a, q.skipBlanks⟩
    | some f => ⟨.error f, q.skipBlanks⟩

def wholeEvents (r : Reply α) : List Event :=
  match r.outcome, r.parser.trailing? with
  | .ok _, some f => [.rejectedTrailing f.spans]
  | _, _ => []

end Reply

namespace Tree

def parse (source : String) (limit : Option Nat) : Except Fault Tree :=
  (Parser.ofSource source limit).expr.whole.outcome

def parseEvents (source : String) (limit : Option Nat) : List Event :=
  (Parser.ofSource source limit).expr.wholeEvents

end Tree

end PolyAlgebra
