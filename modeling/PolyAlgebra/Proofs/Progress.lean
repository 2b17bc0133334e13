import Mathlib
import PolyAlgebra.Proofs.Moves

/-!
# Progress of the climb

The readers of expressions call each other, and two of them go on in loops
that look ahead without taking anything. That reading ends all the same is due
to the words left to read: no reader comes back to itself before it has taken
one. So calls are nested only so deep as the words allow, whatever readers
might stand further down. A chain takes an operator and an operand in every
turn of its loop, and the loop that completes a right operand has at most one
turn.
-/

namespace PolyAlgebra

namespace Reply

variable {α β : Type}

theorem andThen_congr {r : Reply α} {read read' : α → Parser → Reply β}
    (h : ∀ a, r.outcome = .ok a → read a r.parser = read' a r.parser) :
    r.andThen read = r.andThen read' := by
  obtain ⟨outcome, q⟩ := r
  cases outcome with
  | ok a => exact h a rfl
  | error f => rfl

end Reply

namespace Parser

theorem attempt_congr {α : Type} {p : Parser} {read read' : Parser → Reply α}
    (h : read p = read' p) : p.attempt read = p.attempt read' := by
  rw [attempt, attempt, h]

theorem nested_congr {α : Type} {p : Parser} {span : Span}
    {read read' : Parser → Reply α} (h : read p.enter = read' p.enter) :
    p.nested span read = p.nested span read' := by
  rw [nested, nested, h]

/-! ## Levels of calls -/

/-- Readers for all that the climb reads. -/
@[ext]
structure Readers where
  expr : Parser → Reply Tree
  primary : Parser → Reply Primary
  group : Parser → Reply Group
  groupBody : Parser → Token → Reply Group
  chain : Parser → Tree → Precedence → Reply Tree
  completed : Parser → Tree → Operator → Tree → Reply Tree

namespace Readers

/-- One level of calls on top of some readers: these are called wherever the
climb calls its own. A further turn of a loop is a call as well. -/
def calledBy (r : Readers) : Readers where
  expr p :=
    match (p.peek (token .closeParen)).outcome with
    | .ok t => ⟨.error (.final t.span (.unclosedParenthesis false)), p⟩
    | .error _ => (p.attempt r.primary).andThen fun lhs q =>
        r.chain q lhs.toTree .any
  primary p :=
    ((p.attempt literal).map Primary.literal).orElse fun _ =>
      ((p.attempt r.group).map Primary.group).orElse fun _ =>
        p.nextToken.refine fun t =>
          .error (.unexpected t [.number, .name, .openParen])
  group p :=
    (p.attempt (token .openParen)).andThen fun opening q =>
      q.nested opening.span fun q => r.groupBody q opening
  groupBody p opening :=
    match (p.peek (token .closeParen)).outcome with
    | .ok close =>
        ⟨.error (.final (opening.span.through close.span) .emptyParenthesis), p⟩
    | .error _ => (p.attempt r.expr).asFatal.andThen fun inner q =>
        q.closeGroup opening inner
  chain p lhs precedence :=
    match (p.peek operator).outcome with
    | .error _ => ⟨.ok lhs, p⟩
    | .ok op =>
        if op.precedence.level < precedence.level then ⟨.ok lhs, p⟩
        else
          ((p.operator.parser.attempt r.primary).asFatal.andThen fun rhs q =>
            r.completed q lhs op rhs.toTree).andThen fun node q =>
              r.chain q node precedence
  completed p lhs op rhs :=
    match (p.peek operator).outcome with
    | .error _ => p.join lhs op rhs
    | .ok next =>
        if op.precedence.level < next.precedence.level then
          (r.chain p rhs next.precedence).andThen fun rhs q =>
            r.completed q lhs op rhs
        else p.join lhs op rhs

def climb : Readers :=
  ⟨Parser.expr, Parser.primary, Parser.group, Parser.groupBody, Parser.chain,
    Parser.completed⟩

theorem calledBy_climb : climb.calledBy = climb := by
  ext1
  · exact funext fun p => (expr_eq p).symm
  · exact funext fun p => (primary_eq p).symm
  · exact funext fun p => (group_eq p).symm
  · exact funext fun p => funext fun opening => (groupBody_eq p opening).symm
  · exact funext fun p => funext fun lhs => funext fun precedence =>
      (chain_eq p lhs precedence).symm
  · exact funext fun p => funext fun lhs => funext fun op => funext fun rhs =>
      (completed_eq p lhs op rhs).symm

/-- The readers read as the climb does wherever that takes fewer than `n`
levels of calls. The bounds count four levels for each word, and order the
readers that call each other before a word is taken. -/
structure ReadWithin (r : Readers) (n : Nat) : Prop where
  expr : ∀ p : Parser, 4 * p.pending + 2 < n → r.expr p = p.expr
  primary : ∀ p : Parser, 4 * p.pending + 1 < n → r.primary p = p.primary
  group : ∀ p : Parser, 4 * p.pending < n → r.group p = p.group
  groupBody : ∀ (p : Parser) opening, 4 * p.pending + 3 < n →
    r.groupBody p opening = p.groupBody opening
  chain : ∀ (p : Parser) lhs precedence, 4 * p.pending < n →
    r.chain p lhs precedence = p.chain lhs precedence
  completed : ∀ (p : Parser) lhs op rhs, 4 * p.pending + 1 < n →
    r.completed p lhs op rhs = p.completed lhs op rhs

variable {r : Readers} {n : Nat}

/-- A further level of calls reads further. Each case compares the calls that
one reader makes, and has to show that fewer words are left there, or that the
reader called is an earlier one. -/
theorem ReadWithin.calledBy (h : r.ReadWithin n) :
    r.calledBy.ReadWithin (n + 1) where
  expr p hp := by
    rw [expr_eq, Readers.calledBy]
    dsimp only
    rw [attempt_congr (h.primary p (by omega))]
    cases (p.peek (token .closeParen)).outcome with
    | ok t => rfl
    | error f =>
        apply Reply.andThen_congr
        intro lhs hlhs
        have hlt := p.advances_primary.attempt.lt lhs hlhs
        exact h.chain _ _ _ (by omega)
  primary p hp := by
    rw [primary_eq, Readers.calledBy]
    dsimp only
    rw [attempt_congr (h.group p (by omega))]
  group p hp := by
    rw [group_eq, Readers.calledBy]
    dsimp only
    apply Reply.andThen_congr
    intro opening hopening
    have hlt := (p.advances_token .openParen).attempt.lt opening hopening
    exact nested_congr (h.groupBody _ _ (by rw [pending_enter]; omega))
  groupBody p opening hp := by
    rw [groupBody_eq, Readers.calledBy]
    dsimp only
    cases (p.peek (token .closeParen)).outcome with
    | ok close => rfl
    | error f =>
        dsimp only
        rw [attempt_congr (h.expr p (by omega))]
  chain p lhs precedence hp := by
    rw [chain_eq, Readers.calledBy]
    dsimp only
    cases hop : (p.peek operator).outcome with
    | error f => rfl
    | ok op =>
        have hnext : p.operator.parser.pending < p.pending :=
          p.advances_operator.lt op hop
        dsimp only
        rw [attempt_congr (h.primary p.operator.parser (by omega))]
        split
        · rfl
        · have hlink :
              ((p.operator.parser.attempt Parser.primary).asFatal.andThen
                fun rhs q => r.completed q lhs op rhs.toTree) =
              p.operator.parser.link lhs op := by
            apply Reply.andThen_congr
            intro rhs hrhs
            have hlt := p.operator.parser.advances_attempt_primary.lt rhs hrhs
            exact h.completed _ _ _ _ (by omega)
          rw [hlink]
          apply Reply.andThen_congr
          intro node _
          have hle := p.operator.parser.pending_link_le lhs op
          exact h.chain _ _ _ (by omega)
  completed p lhs op rhs hp := by
    rw [completed_eq, Readers.calledBy]
    dsimp only
    cases hop : (p.peek operator).outcome with
    | error f => rfl
    | ok next =>
        dsimp only
        rw [h.chain p rhs next.precedence (by omega)]
        split
        · apply Reply.andThen_congr
          intro rhs' hrhs'
          have hlt := pending_chain_lt hrhs' ⟨next, hop, Nat.le_refl _⟩
          exact h.completed _ _ _ _ (by omega)
        · rfl

/-- Under enough levels of calls it does not matter which readers stand at the
bottom. -/
theorem readWithin_iterate (r : Readers) (n : Nat) :
    (Readers.calledBy^[n] r).ReadWithin n := by
  induction n with
  | zero => constructor <;> intros <;> contradiction
  | succ n ih =>
      rw [Function.iterate_succ_apply']
      exact ih.calledBy

end Readers

/-! ## A turn of a chain -/

variable {p q : Parser} {lhs rhs node : Tree} {op next : Operator}
  {precedence : Precedence}

/-- An operator that is ahead is the next word, and reading it takes that
word. -/
theorem exists_word_of_peek (h : (p.peek operator).outcome = .ok op) :
    ∃ t, p.words = t :: p.operator.parser.words ∧ operatorOf t = .ok op := by
  cases hw : p.words with
  | nil =>
      obtain ⟨f, q, hf⟩ := operator_eq_error (p := p) (by simp [hw])
      rw [peek, hf] at h
      cases h
  | cons t ts =>
      have hop := operator_of_cons hw
      rw [peek, hop] at h
      refine ⟨t, ?_, h⟩
      rw [hop, words_next, hw, List.tail_cons]

theorem chain_of_peek (h : (p.peek operator).outcome = .ok op)
    (hle : precedence.level ≤ op.precedence.level) (lhs : Tree) :
    p.chain lhs precedence =
      (p.operator.parser.link lhs op).andThen fun node q =>
        q.chain node precedence := by
  obtain ⟨t, hw, ho⟩ := exists_word_of_peek h
  rw [chain_of_sign hw ho hle, operator_of_cons hw]

/-- A turn that does not fail has read an operand. -/
theorem exists_operand_of_link (h : (p.link lhs op).outcome = .ok node) :
    ∃ rhs, (p.attempt primary).outcome = .ok rhs ∧
      (p.attempt primary).parser.pending < p.pending ∧
      (p.link lhs op).parser.pending ≤ (p.attempt primary).parser.pending := by
  have hlink : p.link lhs op =
      (p.attempt primary).asFatal.andThen fun rhs q =>
        q.completed lhs op rhs.toTree := rfl
  cases ho : (p.attempt primary).outcome with
  | error f =>
      rw [hlink, Reply.andThen, Reply.asFatal, ho] at h
      cases h
  | ok rhs =>
      refine ⟨rhs, rfl, p.advances_primary.attempt.lt rhs ho, ?_⟩
      rw [hlink, Reply.andThen, Reply.asFatal, ho]
      exact pending_completed_le _ _ _ _

/-! ## The loop that completes a right operand -/

/-- The loop behind a right operand reads on with a chain as long as an
operator is ahead that binds tighter than `op`. Listed are the operators that
it calls a chain for. -/
inductive Completes (op : Operator) :
    Parser → Tree → List Operator → Reply Tree → Prop where
  | stop {p : Parser} {rhs : Tree}
      (h : ∀ next, (p.peek operator).outcome = .ok next →
        next.precedence.level ≤ op.precedence.level) :
      Completes op p rhs [] ⟨.ok rhs, p⟩
  | fail {p q : Parser} {rhs : Tree} {next : Operator} {f : Fault}
      (h : (p.peek operator).outcome = .ok next)
      (tighter : op.precedence.level < next.precedence.level)
      (failed : p.chain rhs next.precedence = ⟨.error f, q⟩) :
      Completes op p rhs [next] ⟨.error f, q⟩
  | turn {p q : Parser} {rhs node : Tree} {next : Operator}
      {calls : List Operator}
      {r : Reply Tree} (h : (p.peek operator).outcome = .ok next)
      (tighter : op.precedence.level < next.precedence.level)
      (read : p.chain rhs next.precedence = ⟨.ok node, q⟩)
        (more : Completes op q node calls r) :
      Completes op p rhs (next :: calls) r

/-- Only a product binds tighter than an operator, and that only if the
operator is a sum. -/
theorem kinds_of_tighter (h : op.precedence.level < next.precedence.level) :
    op.kind = .add ∧ next.kind = .mul := by
  obtain ⟨kind, _⟩ := op
  obtain ⟨kind', _⟩ := next
  cases kind <;> cases kind' <;>
    simp_all [Operator.precedence, OperatorKind.precedence, Precedence.level]

/-- Behind a chain of a tighter operator no operator is ahead for which the
loop goes on. -/
theorem level_le_of_chain (h : p.chain rhs next.precedence = ⟨.ok node, q⟩)
    (tighter : op.precedence.level < next.precedence.level) :
    ∀ op', (q.peek operator).outcome = .ok op' →
      op'.precedence.level ≤ op.precedence.level := by
  intro op' hop'
  obtain ⟨t, hw, ho⟩ := exists_word_of_peek hop'
  by_contra hlt
  have hnext := kinds_of_tighter tighter
  have hop := kinds_of_tighter (Nat.not_le.mp hlt)
  apply not_reaches_of_chain h t (by rw [hw]; rfl)
  refine ⟨op', ho, ?_⟩
  rw [Operator.precedence, Operator.precedence, hnext.2, hop.2]

theorem exists_completes (op : Operator) (p : Parser) (rhs : Tree) :
    ∃ calls r, Completes op p rhs calls r := by
  by_cases hstop : ∀ next, (p.peek operator).outcome = .ok next →
      next.precedence.level ≤ op.precedence.level
  · exact ⟨[], _, .stop hstop⟩
  · push Not at hstop
    obtain ⟨next, hnext, tighter⟩ := hstop
    cases hchain : p.chain rhs next.precedence with
    | mk outcome q =>
        cases outcome with
        | error f => exact ⟨[next], _, .fail hnext tighter hchain⟩
        | ok node =>
            exact ⟨[next], _,
              .turn hnext tighter hchain
                (.stop (level_le_of_chain hchain tighter))⟩

theorem Completes.completed_eq {calls : List Operator} {r : Reply Tree}
    (h : Completes op p rhs calls r) (lhs : Tree) :
    p.completed lhs op rhs = r.andThen fun rhs q => q.join lhs op rhs := by
  induction h with
  | @stop p rhs hstop =>
      rw [Parser.completed_eq]
      split
      · rfl
      · next next hnext => exact if_neg (Nat.not_lt.mpr (hstop next hnext))
  | fail hnext tighter failed =>
      rw [Parser.completed_eq, hnext]
      dsimp only
      rw [if_pos tighter, failed]
      rfl
  | turn hnext tighter read more ih =>
      rw [Parser.completed_eq, hnext]
      dsimp only
      rw [if_pos tighter, read]
      exact ih

/-- The loop has at most one turn. -/
theorem Completes.calls {calls : List Operator} {r : Reply Tree}
    (h : Completes op p rhs calls r) :
    calls.length ≤ 1 ∧ ∀ next ∈ calls, op.kind = .add ∧ next.kind = .mul := by
  cases h with
  | stop => exact ⟨Nat.zero_le _, fun next hnext => nomatch hnext⟩
  | fail _ tighter _ =>
      refine ⟨Nat.le_refl _, fun next hnext => ?_⟩
      obtain rfl := List.mem_singleton.mp hnext
      exact kinds_of_tighter tighter
  | turn _ tighter read more =>
      have hstop := level_le_of_chain read tighter
      cases more with
      | stop =>
          refine ⟨Nat.le_refl _, fun next' hnext' => ?_⟩
          obtain rfl := List.mem_singleton.mp hnext'
          exact kinds_of_tighter tighter
      | fail h' tighter' _ =>
          exact absurd tighter' (Nat.not_lt.mpr (hstop _ h'))
      | turn h' tighter' _ _ =>
          exact absurd tighter' (Nat.not_lt.mpr (hstop _ h'))

/-- **Progress.** Wherever a parser stands and whatever its limit, the readers
of the climb nest their calls, with the turns of their loops, no deeper than
the words left to read allow: four levels for each word and three more, below
which any readers might stand. Every turn of a chain that is not its last
takes an operator, which is the next word, and an operand behind it, unless it
fails. The loop that completes a right operand comes to its end with one call
of a chain at most, which is for a `*` behind a `+`. Where a chain ends, no
operator that belongs to it is the next word. -/
theorem climb_progress (p : Parser) :
    (Readers.climb.calledBy = Readers.climb ∧
      ∀ r n, (Readers.calledBy^[n] r).ReadWithin n) ∧
    (∀ lhs precedence op, (p.peek operator).outcome = .ok op →
      precedence.level ≤ op.precedence.level →
      (∃ t, p.words = t :: p.operator.parser.words ∧ operatorOf t = .ok op) ∧
      p.chain lhs precedence =
        (p.operator.parser.link lhs op).andThen
          (fun node q => q.chain node precedence) ∧
      ∀ node, (p.operator.parser.link lhs op).outcome = .ok node →
        ∃ rhs, (p.operator.parser.attempt primary).outcome = .ok rhs ∧
          (p.operator.parser.attempt primary).parser.pending <
            p.operator.parser.pending ∧
          (p.operator.parser.link lhs op).parser.pending ≤
            (p.operator.parser.attempt primary).parser.pending) ∧
    (∀ op rhs, (∃ calls r, Completes op p rhs calls r) ∧
      ∀ calls r, Completes op p rhs calls r →
        (∀ lhs, p.completed lhs op rhs = r.andThen fun rhs q =>
          q.join lhs op rhs) ∧
        calls.length ≤ 1 ∧ ∀ next ∈ calls, op.kind = .add ∧ next.kind = .mul) ∧
    ∀ lhs precedence node q, p.chain lhs precedence = ⟨.ok node, q⟩ →
      ∀ t ∈ q.words.head?, ¬t.Reaches precedence := by
  refine ⟨⟨Readers.calledBy_climb, Readers.readWithin_iterate⟩, ?_, ?_, ?_⟩
  · intro lhs precedence op hop hle
    exact ⟨exists_word_of_peek hop, chain_of_peek hop hle lhs,
      fun node hnode => exists_operand_of_link hnode⟩
  · intro op rhs
    refine ⟨exists_completes op p rhs, fun calls r h => ?_⟩
    exact ⟨h.completed_eq, h.calls⟩
  · intro lhs precedence node q h
    exact not_reaches_of_chain h

/-- Where `*` is ahead, behind the right operand of a `+`, a chain is called
for it once. -/
theorem climb_progress_product :
    let p := (ofSource "2 * x" none).next
    let plus : Operator := ⟨.add, ⟨0, 0⟩⟩
    let two : Tree := .literal (.number ⟨2, ⟨0, 1⟩⟩)
    (∃ t, p.words = t :: p.operator.parser.words ∧
      operatorOf t = .ok ⟨.mul, ⟨2, 3⟩⟩) ∧
      ∃ calls r, Completes plus p two calls r ∧ calls.length = 1 := by
  intro p plus two
  obtain ⟨-, hturn, hcompletes, -⟩ := climb_progress p
  have htimes : (p.peek operator).outcome = .ok ⟨.mul, ⟨2, 3⟩⟩ := by cbv
  obtain ⟨hword, -⟩ := hturn two .any _ htimes (Nat.zero_le _)
  obtain ⟨⟨calls, r, h⟩, hcalls⟩ := hcompletes plus two
  obtain ⟨-, hlength, -⟩ := hcalls calls r h
  refine ⟨hword, calls, r, h, Nat.le_antisymm hlength ?_⟩
  cases h with
  | stop hstop => exact absurd (hstop _ htimes) (by decide)
  | fail => exact Nat.le_refl _
  | turn => exact Nat.le_add_left _ _

end Parser

end PolyAlgebra
