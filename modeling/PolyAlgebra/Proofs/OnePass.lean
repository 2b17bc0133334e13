import PolyAlgebra.Proofs.Words

/-!
# Reading in one pass

A second reader of expressions, which goes over the words of a source once and
never goes back. Instead of calls that wait for an operand it keeps a stage:
what stands before the operand that is due or behind the one just read, back
to the innermost open parenthesis, and the same for every parenthesis that is
open. It makes a product as soon as its right operand is there and a sum as
soon as something other than `*` follows.
-/

namespace PolyAlgebra

/-- A tree and the operator behind it, as far as there is one. -/
abbrev Waiting := Option (Tree × Operator)

/-- What stands between the innermost open parenthesis and an operand: the
terms with the `+` behind them, and the factors with the `*` behind them. -/
structure Context where
  terms : Waiting
  factors : Waiting
  deriving DecidableEq

/-- The open parentheses, the innermost first, each with what stands before. -/
abbrev Outer := List (Token × Context)

def Context.empty : Context := ⟨none, none⟩

def Waiting.joined (waiting : Waiting) (rhs : Tree) : Tree :=
  match waiting with
  | none => rhs
  | some (lhs, op) => .binary lhs op rhs (lhs.span.through rhs.span)

inductive Stage where
  /-- An operand must follow. -/
  | due (context : Context) (outer : Outer)
  /-- An operand with the factors before it has been read. -/
  | after (terms : Waiting) (value : Tree) (outer : Outer)
  deriving DecidableEq

namespace Stage

def start : Stage := .due .empty []

/-- A fault is final as soon as anything has been read before it. -/
def graded (context : Context) (outer : Outer) (f : Fault) : Fault :=
  if context = .empty ∧ outer = [] then f else f.asFatal

def noOperand (context : Context) (outer : Outer) (t : Token) : Fault :=
  if context = .empty ∧ t.kind = .closeParen then
    match outer with
    | [] => .final t.span (.unclosedParenthesis false)
    | (opening, _) :: _ =>
        .final (opening.span.through t.span) .emptyParenthesis
  else graded context outer (.unexpected t [.number, .name, .openParen])

variable (limit : Option Nat) (stop : Nat)

/-- Joins a right operand to what waits for it, unless that is too high for the
parentheses around it. -/
def attach (depth : Nat) (waiting : Waiting) (rhs : Tree) : Except Fault Tree :=
  match waiting with
  | none => .ok rhs
  | some (lhs, op) =>
      let node := Tree.binary lhs op rhs (lhs.span.through rhs.span)
      match limit with
      | some m =>
          if m < depth + node.height then
            .error (.final op.span (.nestingTooDeep m))
          else .ok node
      | none => .ok node

def operand (context : Context) (outer : Outer) (value : Tree) :
    Except Fault Stage :=
  (attach limit outer.length context.factors value).map fun value =>
    .after context.terms value outer

def opened (context : Context) (outer : Outer) (t : Token) :
    Except Fault Stage :=
  match limit.filter (· ≤ outer.length) with
  | some m => .error (.final t.span (.nestingTooDeep m))
  | none => .ok (.due .empty ((t, context) :: outer))

def begin (context : Context) (outer : Outer) (t : Token) :
    Except Fault Stage :=
  match t.kind with
  | .number => (Parser.numberOf t).bind fun l =>
      operand limit context outer (.literal (.number l))
  | .name => operand limit context outer (.literal (.symbol ⟨t.lexeme, t.span⟩))
  | .openParen => opened limit context outer t
  | _ => .error (noOperand context outer t)

def stray (outer : Outer) (t : Token) : Fault :=
  match outer with
  | [] =>
      if t.isUnsupportedOperator then .unexpected t []
      else .located ⟨t.span.start, stop⟩ .expectedEnd
  | _ => (Fault.unexpected t [.add, .mul, .closeParen]).asFatal

/-- Takes a token other than `*` behind a whole sum. -/
def proceed (value : Tree) (outer : Outer) (t : Token) : Except Fault Stage :=
  match t.kind with
  | .add => .ok (.due ⟨some (value, ⟨.add, t.span⟩), none⟩ outer)
  | .closeParen =>
      match outer with
      | [] => .error (.located t.span (.unclosedParenthesis false))
      | (opening, context) :: outer =>
          operand limit context outer
            (.group value (opening.span.through t.span))
  | _ => .error (stray stop outer t)

def step : Stage → Token → Except Fault Stage
  | .due context outer, t => begin limit context outer t
  | .after terms value outer, t =>
      if t.kind = .mul then
        .ok (.due ⟨terms, some (value, ⟨.mul, t.span⟩)⟩ outer)
      else (attach limit outer.length terms value).bind fun value =>
        proceed limit stop value outer t

def conclude (value : Tree) : Outer → Except Fault Tree
  | [] => .ok value
  | (opening, _) :: _ =>
      .error (.final opening.span (.unclosedParenthesis true))

def finish : Stage → Except Fault Tree
  | .due context outer =>
      .error (graded context outer (.located (.point stop) .unexpectedEnd))
  | .after terms value outer =>
      (attach limit outer.length terms value).bind fun value =>
        conclude value outer

def run : List Token → Stage → Except Fault Tree
  | [], s => s.finish limit stop
  | t :: ts, s => (s.step limit stop t).bind fun s => run ts s

/-- Takes the rest of the source behind a whole sum. -/
def runSum (value : Tree) (outer : Outer) : List Token → Except Fault Tree
  | [] => conclude value outer
  | t :: ts => (proceed limit stop value outer t).bind fun s =>
      run limit stop ts s

/-! ## Small facts -/

variable {limit stop}

theorem graded_of_fatal {context : Context} {outer : Outer} {f : Fault}
    (h : f.fatal = true) : graded context outer f = f := by
  unfold graded
  split
  · rfl
  · obtain ⟨spans, cause, fatal⟩ := f
    cases h
    rfl

theorem graded_of_context {context : Context} {outer : Outer} {f : Fault}
    (h : context ≠ .empty) : graded context outer f = f.asFatal :=
  if_neg fun hc => h hc.1

theorem graded_of_outer {context : Context} {e : Token × Context}
    {outer : Outer} {f : Fault} : graded context (e :: outer) f = f.asFatal :=
  if_neg fun hc => List.cons_ne_nil _ _ hc.2

section Tokens

variable {context : Context} {outer : Outer} {value : Tree} {terms : Waiting}
  {t : Token}

theorem begin_number {l : NumberLiteral} (hk : t.kind = .number)
    (hl : Parser.numberOf t = .ok l) :
    begin limit context outer t =
      operand limit context outer (.literal (.number l)) := by
  simp only [begin, hk, hl, Except.bind]

theorem begin_badNumber {f : Fault} (hk : t.kind = .number)
    (hl : Parser.numberOf t = .error f) :
    begin limit context outer t = .error f := by
  simp only [begin, hk, hl, Except.bind]

theorem begin_name (hk : t.kind = .name) :
    begin limit context outer t =
      operand limit context outer (.literal (.symbol ⟨t.lexeme, t.span⟩)) := by
  simp only [begin, hk]

theorem begin_openParen (hk : t.kind = .openParen) :
    begin limit context outer t = opened limit context outer t := by
  simp only [begin, hk]

theorem begin_other
    (hk : t.kind ≠ .number ∧ t.kind ≠ .name ∧ t.kind ≠ .openParen) :
    begin limit context outer t = .error (noOperand context outer t) := by
  obtain ⟨hnumber, hname, hopen⟩ := hk
  unfold begin
  split <;> first | contradiction | rfl

theorem noOperand_of_not (h : ¬(context = .empty ∧ t.kind = .closeParen)) :
    noOperand context outer t =
      graded context outer (.unexpected t [.number, .name, .openParen]) := by
  unfold noOperand
  exact if_neg h

theorem step_mul (hk : t.kind = .mul) :
    step limit stop (.after terms value outer) t =
      .ok (.due ⟨terms, some (value, ⟨.mul, t.span⟩)⟩ outer) :=
  if_pos hk

theorem proceed_add (hk : t.kind = .add) :
    proceed limit stop value outer t =
      .ok (.due ⟨some (value, ⟨.add, t.span⟩), none⟩ outer) := by
  simp only [proceed, hk]

theorem proceed_closeParen {opening : Token} (hk : t.kind = .closeParen) :
    proceed limit stop value ((opening, context) :: outer) t =
      operand limit context outer
        (.group value (opening.span.through t.span)) := by
  simp only [proceed, hk]

theorem proceed_closeParen_nil (hk : t.kind = .closeParen) :
    proceed limit stop value [] t =
      .error (.located t.span (.unclosedParenthesis false)) := by
  simp only [proceed, hk]

theorem proceed_other (hs : ¬t.IsSign) (hk : t.kind ≠ .closeParen) :
    proceed limit stop value outer t = .error (stray stop outer t) := by
  unfold proceed
  split
  · next h => exact absurd (Or.inl h) hs
  · contradiction
  · rfl

end Tokens

/-! ## What a step can do -/

section Steps

variable {context : Context} {outer : Outer} {terms waiting : Waiting}
  {value rhs node : Tree} {depth : Nat} {t : Token} {s : Stage}

@[simp] theorem attach_none (depth : Nat) (waiting : Waiting) (rhs : Tree) :
    attach none depth waiting rhs = .ok (waiting.joined rhs) := by
  cases waiting <;> rfl

/-- Whatever the limit, joining makes one tree or none. -/
theorem eq_joined_of_attach (h : attach limit depth waiting rhs = .ok node) :
    node = waiting.joined rhs := by
  cases waiting with
  | none => exact (Except.ok.inj h).symm
  | some pair =>
      simp only [attach] at h
      split at h
      · split at h
        · cases h
        · exact (Except.ok.inj h).symm
      · exact (Except.ok.inj h).symm

/-- What goes on behind a join goes on with the one tree it makes. -/
theorem of_attach_bind {α : Type} {next : Tree → Except Fault α} {a : α}
    (h : (attach limit depth waiting rhs).bind next = .ok a) :
    next (waiting.joined rhs) = .ok a := by
  cases ha : attach limit depth waiting rhs with
  | error f =>
      rw [ha] at h
      cases h
  | ok node =>
      rw [ha] at h
      rwa [← eq_joined_of_attach ha]

/-- An operand is joined to the factors before it. -/
theorem eq_after_of_operand (h : operand limit context outer value = .ok s) :
    s = .after context.terms (context.factors.joined value) outer := by
  unfold operand at h
  cases ha : attach limit outer.length context.factors value with
  | error f =>
      rw [ha] at h
      cases h
  | ok node =>
      rw [ha] at h
      rw [← eq_joined_of_attach ha]
      exact (Except.ok.inj h).symm

theorem begin_cases (h : begin limit context outer t = .ok s) :
    (∃ l, t.kind = .number ∧ Parser.numberOf t = .ok l ∧
      operand limit context outer (.literal (.number l)) = .ok s) ∨
    (t.kind = .name ∧
      operand limit context outer (.literal (.symbol ⟨t.lexeme, t.span⟩)) =
        .ok s) ∨
    (t.kind = .openParen ∧ s = .due .empty ((t, context) :: outer)) := by
  unfold begin at h
  split at h
  · next hk =>
      cases hl : Parser.numberOf t with
      | error f =>
          rw [hl] at h
          cases h
      | ok l =>
          rw [hl] at h
          exact Or.inl ⟨l, hk, rfl, h⟩
  · next hk => exact Or.inr (Or.inl ⟨hk, h⟩)
  · next hk =>
      unfold opened at h
      split at h
      · cases h
      · exact Or.inr (Or.inr ⟨hk, (Except.ok.inj h).symm⟩)
  · cases h

theorem proceed_cases (h : proceed limit stop value outer t = .ok s) :
    (t.kind = .add ∧ s = .due ⟨some (value, ⟨.add, t.span⟩), none⟩ outer) ∨
    ∃ opening context rest, t.kind = .closeParen ∧
      outer = (opening, context) :: rest ∧
      operand limit context rest (.group value (opening.span.through t.span)) =
        .ok s := by
  unfold proceed at h
  split at h
  · next hk => exact Or.inl ⟨hk, (Except.ok.inj h).symm⟩
  · next hk =>
      split at h
      · cases h
      · exact Or.inr ⟨_, _, _, hk, rfl, h⟩
  · cases h

/-- Behind an operand, a `*` is taken or the sum before it is made. -/
theorem step_after_cases
    (h : step limit stop (.after terms value outer) t = .ok s) :
    (t.kind = .mul ∧ s = .due ⟨terms, some (value, ⟨.mul, t.span⟩)⟩ outer) ∨
    (t.kind ≠ .mul ∧ proceed limit stop (terms.joined value) outer t =
      .ok s) := by
  by_cases hk : t.kind = .mul
  · rw [step_mul hk] at h
    exact Or.inl ⟨hk, (Except.ok.inj h).symm⟩
  · rw [step, if_neg hk] at h
    exact Or.inr ⟨hk, of_attach_bind h⟩

/-- A source may end behind an operand if no parenthesis is open. -/
theorem finish_after_cases
    (h : finish limit stop (.after terms value outer) = .ok node) :
    outer = [] ∧ node = terms.joined value := by
  have hc : conclude (terms.joined value) outer = .ok node := of_attach_bind h
  cases outer with
  | nil => exact ⟨rfl, (Except.ok.inj hc).symm⟩
  | cons entry outer => cases hc

theorem run_cons_cases {ts : List Token}
    (h : run limit stop (t :: ts) s = .ok node) :
    ∃ s', step limit stop s t = .ok s' ∧ run limit stop ts s' = .ok node := by
  simp only [run] at h
  cases hs : step limit stop s t with
  | error f =>
      rw [hs] at h
      cases h
  | ok s' =>
      rw [hs] at h
      exact ⟨s', rfl, h⟩

end Steps

/-- Behind a product that cannot grow the sum before it is made first. -/
theorem run_after {terms : Waiting} {value : Tree} {outer : Outer}
    {ts : List Token} (h : ∀ t ∈ ts.head?, t.kind ≠ .mul) :
    run limit stop ts (.after terms value outer) =
      (attach limit outer.length terms value).bind fun value =>
        runSum limit stop value outer ts := by
  cases ts with
  | nil => rfl
  | cons t ts =>
      simp only [run, step, if_neg (h t rfl)]
      cases attach limit outer.length terms value <;> rfl

end Stage

end PolyAlgebra
