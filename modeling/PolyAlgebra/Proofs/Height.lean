import Mathlib.Logic.Function.Iterate
import PolyAlgebra.Expr.Parse

/-!
# The height as a search and as a recursion

The height of a tree is found by a search with a stack of its own. It obeys
the equations of the recursion that the search avoids, and it bounds how deep
the operators of the expression are nested that the tree stands for.

The search has a stack of pending subtrees, and a turn of its loop visits one
node of the next one. Whatever is pending, a turn leaves one node fewer to be
visited, so the loop ends; and it leaves unchanged what the loop will have
found by then. So the search visits every node of a tree once, and what it has
found in the end obeys the equations of a recursion.
-/

namespace PolyAlgebra

namespace Tree

/-- The search finds of the next tree how deep it stands and how high it is. -/
theorem deepest_cons (t : Tree) (depth : Nat) (rest : Pending) (found : Nat) :
    deepest ((t, depth) :: rest) found =
      deepest rest (max found (depth + t.height)) := by
  induction t generalizing depth rest found with
  | literal l =>
      rw [height, deepest, deepest, deepest]
      congr 1
  | group inner s ih =>
      have hh : (group inner s).height = 1 + inner.height := by
        rw [height, deepest, ih, deepest]
        omega
      rw [hh, deepest, ih]
      congr 1
      omega
  | binary lhs op rhs s ihl ihr =>
      have hh : (binary lhs op rhs s).height =
          1 + max lhs.height rhs.height := by
        rw [height, deepest, ihr, ihl, deepest]
        omega
      rw [hh, deepest, ihr, ihl]
      congr 1
      omega

@[simp] theorem height_literal (l : Literal) : (literal l).height = 0 := by
  rw [height, deepest, deepest]
  rfl

@[simp] theorem height_group (inner : Tree) (s : Span) :
    (group inner s).height = inner.height + 1 := by
  rw [height, deepest, deepest_cons, deepest]
  omega

@[simp] theorem height_binary (lhs : Tree) (op : Operator) (rhs : Tree)
    (s : Span) :
    (binary lhs op rhs s).height = max lhs.height rhs.height + 1 := by
  rw [height, deepest, deepest_cons, deepest_cons, deepest]
  omega

end Tree

/-- The largest number of sums and products on a path down an expression. -/
def Expr.operatorDepth : Expr → Nat
  | num _ | var _ => 0
  | sum l r | prod l r => max l.operatorDepth r.operatorDepth + 1

@[simp] theorem OperatorKind.operatorDepth_apply (kind : OperatorKind)
    (l r : Expr) :
    (kind.apply l r).operatorDepth =
      max l.operatorDepth r.operatorDepth + 1 := by
  cases kind <;> rfl

theorem Literal.operatorDepth_of_toLeaf {l : Literal} {e : Expr}
    (h : l.toLeaf = .ok e) : e.operatorDepth = 0 := by
  cases l with
  | number l =>
      cases hn : Number.ofFloat l.value with
      | error r => simp [toLeaf, Expr.ofFloat, hn, Except.map] at h
      | ok n =>
          simp only [toLeaf, Expr.ofFloat, hn, Except.map] at h
          obtain rfl := Except.ok.inj h
          rfl
  | symbol l =>
      cases hv : Variable.ofName l.name with
      | error r => simp [toLeaf, Expr.ofName, hv, Except.map] at h
      | ok v =>
          simp only [toLeaf, Expr.ofName, hv, Except.map] at h
          obtain rfl := Except.ok.inj h
          rfl

/-- Parentheses add to the height only. -/
theorem Tree.operatorDepth_le_height {t : Tree} {e : Expr}
    (h : t.toExpr = .ok e) :
    e.operatorDepth ≤ t.height := by
  induction t generalizing e with
  | literal l =>
      rw [toExpr_literal, Literal.toExpr] at h
      cases hl : l.toLeaf with
      | error r =>
          rw [hl] at h
          cases h
      | ok e' =>
          rw [hl] at h
          obtain rfl := Except.ok.inj h
          rw [Literal.operatorDepth_of_toLeaf hl]
          exact Nat.zero_le _
  | group inner s ih =>
      rw [toExpr_group] at h
      have hi := ih h
      rw [height_group]
      omega
  | binary lhs op rhs s ihl ihr =>
      obtain ⟨l, r, hl, hr, rfl⟩ := toExpr_binary_eq_ok.mp h
      have hle := ihl hl
      have hre := ihr hr
      rw [OperatorKind.operatorDepth_apply, height_binary]
      omega

/-! ## The search -/

namespace Tree

structure Search where
  pending : Pending
  found : Nat

namespace Search

def ofTree (t : Tree) : Search := ⟨[(t, 0)], 0⟩

/-- One turn of the search visits the root of the next subtree, and leaves its
operands pending. Nothing happens any more if nothing is pending. -/
def turn : Search → Search
  | ⟨[], found⟩ => ⟨[], found⟩
  | ⟨(literal _, depth) :: rest, found⟩ => ⟨rest, max found depth⟩
  | ⟨(group inner _, depth) :: rest, found⟩ =>
      ⟨(inner, depth + 1) :: rest, max found depth⟩
  | ⟨(binary lhs _ rhs _, depth) :: rest, found⟩ =>
      ⟨(rhs, depth + 1) :: (lhs, depth + 1) :: rest, max found depth⟩

def left (s : Search) : Nat := s.pending.size

/-- What the search will have found when nothing is pending. -/
def result (s : Search) : Nat := deepest s.pending s.found

/-! ## One turn -/

theorem left_turn (s : Search) : s.turn.left = s.left - 1 := by
  obtain ⟨_ | ⟨⟨t, depth⟩, rest⟩, found⟩ := s
  · rfl
  · cases t with
    | literal l => simp only [turn, left, Pending.size, size]; omega
    | group inner span => simp only [turn, left, Pending.size, size]; omega
    | binary lhs op rhs span =>
        simp only [turn, left, Pending.size, size]; omega

/-- A turn is one step of the recursion that runs the search. -/
theorem result_turn (s : Search) : s.turn.result = s.result := by
  obtain ⟨_ | ⟨⟨t, depth⟩, rest⟩, found⟩ := s
  · rfl
  · unfold result
    conv => rhs; rw [deepest.eq_def]
    cases t with
    | literal l => rfl
    | group inner span => rfl
    | binary lhs op rhs span => rfl

theorem left_eq_zero {s : Search} : s.left = 0 ↔ s.pending = [] := by
  obtain ⟨_ | ⟨⟨t, depth⟩, rest⟩, found⟩ := s
  · exact iff_of_true rfl rfl
  · refine iff_of_false ?_ (List.cons_ne_nil _ _)
    cases t <;> simp only [left, Pending.size, size] <;> omega

/-! ## Any number of turns -/

theorem left_iterate_turn (s : Search) (n : Nat) :
    (turn^[n] s).left = s.left - n := by
  induction n with
  | zero => rfl
  | succ n ih => rw [Function.iterate_succ_apply', left_turn, ih, Nat.sub_sub]

theorem result_iterate_turn (s : Search) (n : Nat) :
    (turn^[n] s).result = s.result := by
  induction n with
  | zero => rfl
  | succ n ih => rw [Function.iterate_succ_apply', result_turn, ih]

/-- Nothing is pending any more exactly when as many turns were made as nodes
were to be visited. -/
theorem pending_iterate_turn (s : Search) (n : Nat) :
    (turn^[n] s).pending = [] ↔ s.left ≤ n := by
  rw [← left_eq_zero, left_iterate_turn, Nat.sub_eq_zero_iff_le]

theorem iterate_turn_left (s : Search) : turn^[s.left] s = ⟨[], s.result⟩ := by
  have hpending : (turn^[s.left] s).pending = [] :=
    (s.pending_iterate_turn s.left).mpr (Nat.le_refl _)
  have hresult := s.result_iterate_turn s.left
  generalize turn^[s.left] s = e at hpending hresult
  obtain ⟨pending, found⟩ := e
  obtain rfl : pending = [] := hpending
  rw [← hresult, result, deepest]

end Search

/-- **Height.** The search for the height of a tree ends, after as many turns
as the tree has nodes and not before, and it has then found the height: zero
for a literal, one more than inside for parentheses, and one more than the
higher operand for an operator. -/
theorem height_of_search (t : Tree) :
    (∀ n, (Search.turn^[n] (.ofTree t)).pending = [] ↔ t.size ≤ n) ∧
    Search.turn^[t.size] (.ofTree t) = ⟨[], t.height⟩ ∧
    t.height =
      match t with
      | literal _ => 0
      | group inner _ => 1 + inner.height
      | binary lhs _ rhs _ => 1 + max lhs.height rhs.height := by
  have hleft : (Search.ofTree t).left = t.size := rfl
  refine ⟨fun n => ?_, ?_, ?_⟩
  · rw [Search.pending_iterate_turn, hleft]
  · rw [← hleft, Search.iterate_turn_left]
    rfl
  · cases t with
    | literal l => exact height_literal l
    | group inner span => rw [height_group, Nat.add_comm]
    | binary lhs op rhs span => rw [height_binary, Nat.add_comm]

end Tree

end PolyAlgebra
