import PolyAlgebra.Proofs.Height
import PolyAlgebra.Proofs.Sentences

/-!
# Words and trees at other places

What words say does not depend on where they stand. If words are derived as a
phrase after each of them was moved, they are derived as that phrase where
they stand, and the tree is the same with the places moved back. A run over
words that were moved is the run over the words, with everything that it makes
moved along, be it a tree or a fault. Moving everything to one place forgets
the places.
-/

namespace PolyAlgebra

/-! ## Moving -/

def Span.relocate (f : Nat → Nat) (s : Span) : Span := ⟨f s.start, f s.stop⟩

def Token.relocate (f : Nat → Nat) (t : Token) : Token :=
  { t with span := t.span.relocate f }

@[simp] theorem Token.kind_relocate (f : Nat → Nat) (t : Token) :
    (t.relocate f).kind = t.kind := rfl

@[simp] theorem Token.lexeme_relocate (f : Nat → Nat) (t : Token) :
    (t.relocate f).lexeme = t.lexeme := rfl

@[simp] theorem Token.isUnsupportedOperator_relocate (f : Nat → Nat)
    (t : Token) :
    (t.relocate f).isUnsupportedOperator = t.isUnsupportedOperator := rfl

def Literal.relocate (f : Nat → Nat) : Literal → Literal
  | number l => number { l with span := l.span.relocate f }
  | symbol l => symbol { l with span := l.span.relocate f }

def Tree.relocate (f : Nat → Nat) : Tree → Tree
  | literal l => literal (l.relocate f)
  | group inner s => group (inner.relocate f) (s.relocate f)
  | binary lhs op rhs s =>
      binary (lhs.relocate f) { op with span := op.span.relocate f }
        (rhs.relocate f)
        (s.relocate f)

@[simp] theorem Tree.span_relocate (f : Nat → Nat) (t : Tree) :
    (t.relocate f).span = t.span.relocate f := by
  cases t with
  | literal l => cases l <;> rfl
  | group inner s => rfl
  | binary lhs op rhs s => rfl

/-- An operation at another place spans what its operands span there. -/
theorem Tree.relocate_operation (f : Nat → Nat) (l r : Tree) (op : Operator) :
    (binary l op r (l.span.through r.span)).relocate f =
      binary (l.relocate f) { op with span := op.span.relocate f }
        (r.relocate f)
        ((l.relocate f).span.through (r.relocate f).span) := by
  rw [relocate, span_relocate, span_relocate]
  rfl

/-- The tokens that stand in a row and are no blanks are the same wherever the
row stands. -/
theorem Token.words_map_relocate (f : Nat → Nat) (ts : List Token) :
    words (ts.map (relocate f)) = (words ts).map (relocate f) := List.filter_map

/-! ## Deriving at another place -/

theorem Token.IsNumber.of_relocate {f : Nat → Nat} {t : Token}
    (h : (t.relocate f).IsNumber) : t.IsNumber := ⟨h.kind, h.fraction, h.finite⟩

theorem Derives.exists_of_relocate {f : Nat → Nat} {phrase : Phrase}
    {ts : List Token} {u : Tree}
    (h : Derives phrase (ts.map (Token.relocate f)) u) :
    ∃ t, Derives phrase ts t ∧ t.relocate f = u := by
  generalize hts : ts.map (Token.relocate f) = moved at h
  induction h using Derives.byOperands generalizing ts with
  | number h =>
      obtain ⟨t, rfl, rfl⟩ := List.map_eq_singleton_iff.mp hts
      exact ⟨_, .number h.of_relocate, rfl⟩
  | name h =>
      obtain ⟨t, rfl, rfl⟩ := List.map_eq_singleton_iff.mp hts
      exact ⟨_, .name h, rfl⟩
  | group hopen inner hclose ih =>
      obtain ⟨opening, rest, rfl, rfl, hrest⟩ := List.map_eq_cons_iff.mp hts
      obtain ⟨us, closings, rfl, hus, hclosings⟩ :=
        List.map_eq_append_iff.mp hrest
      obtain ⟨closing, rfl, rfl⟩ := List.map_eq_singleton_iff.mp hclosings
      obtain ⟨t, ht, rfl⟩ := ih hus
      exact ⟨_, .group hopen ht hclose, rfl⟩
  | factor h ih =>
      obtain ⟨t, ht, rfl⟩ := ih hts
      exact ⟨t, ht.factor, rfl⟩
  | term h ih =>
      obtain ⟨t, ht, rfl⟩ := ih hts
      exact ⟨t, ht.term, rfl⟩
  | times hl hs hr ihl ihr =>
      obtain ⟨us, rest, rfl, hus, hrest⟩ := List.map_eq_append_iff.mp hts
      obtain ⟨sign, vs, rfl, rfl, hvs⟩ := List.map_eq_cons_iff.mp hrest
      obtain ⟨l, hl', rfl⟩ := ihl hus
      obtain ⟨r, hr', rfl⟩ := ihr hvs
      exact ⟨_, hl'.times hs hr', Tree.relocate_operation f _ _ _⟩
  | plus hl hs hr ihl ihr =>
      obtain ⟨us, rest, rfl, hus, hrest⟩ := List.map_eq_append_iff.mp hts
      obtain ⟨sign, vs, rfl, rfl, hvs⟩ := List.map_eq_cons_iff.mp hrest
      obtain ⟨l, hl', rfl⟩ := ihl hus
      obtain ⟨r, hr', rfl⟩ := ihr hvs
      exact ⟨_, hl'.plus hs hr', Tree.relocate_operation f _ _ _⟩

/-! ## Moving what a run makes -/

namespace Tree

/-- How high a tree is does not depend on its places. -/
@[simp] theorem height_relocate (f : Nat → Nat) (t : Tree) :
    (t.relocate f).height = t.height := by
  induction t with
  | literal l => rw [relocate, height_literal, height_literal]
  | group inner s ih => rw [relocate, height_group, height_group, ih]
  | binary lhs op rhs s ihl ihr =>
      rw [relocate, height_binary, height_binary, ihl, ihr]

end Tree

def Fault.relocate (f : Nat → Nat) (fault : Fault) : Fault :=
  { fault with spans := fault.spans.map (Span.relocate f) }

def Waiting.relocate (f : Nat → Nat) (waiting : Waiting) : Waiting :=
  waiting.map fun (lhs, op) =>
    (lhs.relocate f, { op with span := op.span.relocate f })

def Context.relocate (f : Nat → Nat) (context : Context) : Context :=
  ⟨context.terms.relocate f, context.factors.relocate f⟩

def Outer.relocate (f : Nat → Nat) (outer : Outer) : Outer :=
  outer.map fun (opening, context) => (opening.relocate f, context.relocate f)

def Stage.relocate (f : Nat → Nat) : Stage → Stage
  | due context outer => due (context.relocate f) (Outer.relocate f outer)
  | after terms value outer =>
      after (terms.relocate f) (value.relocate f) (Outer.relocate f outer)

/-- An outcome at other places, given how a value is moved. -/
def relocated {α : Type} (f : Nat → Nat) (move : α → α) (r : Except Fault α) :
    Except Fault α :=
  (r.map move).mapError (Fault.relocate f)

section Outcomes

variable {α β : Type} {f : Nat → Nat} {move : α → α} {move' : β → β}

@[simp] theorem relocated_ok (a : α) :
    relocated f move (.ok a) = .ok (move a) := rfl

@[simp] theorem relocated_error (fault : Fault) :
    relocated f move (.error fault) = .error (fault.relocate f) := rfl

theorem relocated_bind {r : Except Fault α} {next next' : α → Except Fault β}
    (h : ∀ a, next' (move a) = relocated f move' (next a)) :
    (relocated f move r).bind next' = relocated f move' (r.bind next) := by
  cases r with
  | ok a => exact h a
  | error fault => rfl

theorem relocated_map {r : Except Fault α} {make make' : α → β}
    (h : ∀ a, make' (move a) = move' (make a)) :
    (relocated f move r).map make' = relocated f move' (r.map make) := by
  cases r with
  | ok a => exact congrArg Except.ok (h a)
  | error fault => rfl

end Outcomes

/-! ## Running at another place -/

theorem Fault.relocate_unexpected (f : Nat → Nat) (t : Token)
    (expected : List TokenKind) :
    (Fault.unexpected t expected).relocate f =
      .unexpected (t.relocate f) expected := by
  rw [unexpected, unexpected, Token.isUnsupportedOperator_relocate]
  split <;> rfl

theorem Parser.numberOf_relocate (f : Nat → Nat) (t : Token) :
    numberOf (t.relocate f) =
      relocated f (fun l => { l with span := l.span.relocate f })
        (numberOf t) := by
  unfold numberOf
  rw [Token.lexeme_relocate]
  dsimp only
  split
  · rfl
  · split <;> rfl

@[simp] theorem Context.relocate_eq_empty {f : Nat → Nat} {context : Context} :
    context.relocate f = .empty ↔ context = .empty := by
  obtain ⟨terms, factors⟩ := context
  simp [Context.relocate, Waiting.relocate, Context.empty]

@[simp] theorem Outer.relocate_eq_nil {f : Nat → Nat} {outer : Outer} :
    Outer.relocate f outer = [] ↔ outer = [] := List.map_eq_nil_iff

@[simp] theorem Outer.length_relocate (f : Nat → Nat) (outer : Outer) :
    (Outer.relocate f outer).length = outer.length := List.length_map _

namespace Stage

variable {limit : Option Nat} {stop : Nat} (f : Nat → Nat)
  (context : Context) (outer : Outer)
  (value : Tree) (t : Token)

theorem graded_relocate (fault : Fault) :
    graded (context.relocate f) (Outer.relocate f outer) (fault.relocate f) =
      (graded context outer fault).relocate f := by
  simp only [graded, Context.relocate_eq_empty, Outer.relocate_eq_nil]
  split <;> rfl

theorem noOperand_relocate :
    noOperand (context.relocate f) (Outer.relocate f outer) (t.relocate f) =
      (noOperand context outer t).relocate f := by
  simp only [noOperand, Context.relocate_eq_empty, Token.kind_relocate]
  split
  · cases outer <;> rfl
  · rw [← Fault.relocate_unexpected, graded_relocate]

theorem attach_relocate (depth : Nat) (waiting : Waiting) :
    attach limit depth (waiting.relocate f) (value.relocate f) =
      relocated f (Tree.relocate f) (attach limit depth waiting value) := by
  cases waiting with
  | none => rfl
  | some pair =>
      obtain ⟨lhs, op⟩ := pair
      have hnode := Tree.relocate_operation f lhs value op
      simp only [attach, Waiting.relocate, Option.map_some, ← hnode,
        Tree.height_relocate]
      cases limit with
      | none => rfl
      | some m =>
          dsimp only
          split <;> rfl

theorem operand_relocate :
    operand limit (context.relocate f) (Outer.relocate f outer)
        (value.relocate f) =
      relocated f (relocate f) (operand limit context outer value) := by
  rw [operand, operand, Outer.length_relocate, Context.relocate,
    attach_relocate]
  exact relocated_map fun a => rfl

theorem opened_relocate :
    opened limit (context.relocate f) (Outer.relocate f outer) (t.relocate f) =
      relocated f (relocate f) (opened limit context outer t) := by
  rw [opened, opened, Outer.length_relocate]
  split <;> rfl

theorem begin_relocate :
    begin limit (context.relocate f) (Outer.relocate f outer) (t.relocate f) =
      relocated f (relocate f) (begin limit context outer t) := by
  unfold begin
  rw [Token.kind_relocate]
  split
  · rw [Parser.numberOf_relocate]
    exact relocated_bind fun l =>
      operand_relocate f context outer (.literal (.number l))
  · exact operand_relocate f context outer
      (.literal (.symbol ⟨t.lexeme, t.span⟩))
  · exact opened_relocate f context outer t
  · rw [noOperand_relocate]
    rfl

theorem stray_relocate :
    stray (f stop) (Outer.relocate f outer) (t.relocate f) =
      (stray stop outer t).relocate f := by
  cases outer with
  | nil =>
      rw [Outer.relocate, List.map_nil, stray, stray,
        Token.isUnsupportedOperator_relocate]
      split
      · rw [Fault.relocate_unexpected]
      · rfl
  | cons entry outer =>
      simp only [stray, Outer.relocate, List.map_cons,
        ← Fault.relocate_unexpected]
      rfl

theorem proceed_relocate :
    proceed limit (f stop) (value.relocate f) (Outer.relocate f outer)
        (t.relocate f) =
      relocated f (relocate f) (proceed limit stop value outer t) := by
  unfold proceed
  rw [Token.kind_relocate]
  split
  · rfl
  · cases outer with
    | nil => rfl
    | cons entry outer =>
        exact operand_relocate f entry.2 outer
          (.group value (entry.1.span.through t.span))
  · rw [stray_relocate]
    rfl

theorem step_relocate (s : Stage) :
    (s.relocate f).step limit (f stop) (t.relocate f) =
      relocated f (relocate f) (s.step limit stop t) := by
  cases s with
  | due context outer => exact begin_relocate f context outer t
  | after terms value outer =>
      rw [relocate, step, step, Token.kind_relocate]
      split
      · rfl
      · rw [Outer.length_relocate, attach_relocate]
        exact relocated_bind fun v => proceed_relocate f outer v t

theorem finish_relocate (s : Stage) :
    (s.relocate f).finish limit (f stop) =
      relocated f (Tree.relocate f) (s.finish limit stop) := by
  cases s with
  | due context outer =>
      have hgraded :=
        graded_relocate f context outer (.located (.point stop) .unexpectedEnd)
      exact congrArg Except.error hgraded
  | after terms value outer =>
      simp only [finish, relocate]
      rw [Outer.length_relocate, attach_relocate]
      refine relocated_bind fun v => ?_
      cases outer <;> rfl

/-- A run over words at other places gives what the run over the words gives,
moved along. -/
theorem run_relocate (ts : List Token) (s : Stage) :
    Stage.run limit (f stop) (ts.map (Token.relocate f)) (s.relocate f) =
      relocated f (Tree.relocate f) (Stage.run limit stop ts s) := by
  induction ts generalizing s with
  | nil => exact finish_relocate f s
  | cons t ts ih =>
      rw [List.map_cons, Stage.run, Stage.run, step_relocate]
      exact relocated_bind fun s' => ih s'

end Stage

/-- Words that are derived are derived wherever they stand. -/
theorem Derives.relocate {ts : List Token} {t : Tree} (f : Nat → Nat)
    (h : Derives .sum ts t) :
    Derives .sum (ts.map (Token.relocate f)) (t.relocate f) := by
  have hrun : Stage.run none 0 ts .start = .ok t := Stage.run_of_derives h
  have hmoved : Stage.run none (f 0) (ts.map (Token.relocate f)) .start =
      .ok (t.relocate f) := by
    rw [← relocated_ok, ← hrun]
    exact Stage.run_relocate f ts .start
  exact Stage.derives_of_run hmoved

end PolyAlgebra
