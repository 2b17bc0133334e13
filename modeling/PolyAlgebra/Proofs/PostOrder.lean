import PolyAlgebra.Expr

/-!
# A walk is the recursive post-order

A walk goes down a tree step by step with a stack and the position it visited
last. Started at a node whose subtree it has not entered yet, it visits exactly
the nodes of that subtree, each after its operands, and then goes on with the
rest of the stack. What is read off the nodes of an expression, such as its
variables, can therefore be computed by recursion.
-/

namespace PolyAlgebra.Expr

/-- The nodes at and below a position, every node after its operands. -/
def nodesAt (position : Position) : Expr → List Node
  | num n => [(position, num n)]
  | var v => [(position, var v)]
  | sum l r =>
      nodesAt (.left :: position) l ++ nodesAt (.right :: position) r ++
        [(position, sum l r)]
  | prod l r =>
      nodesAt (.left :: position) l ++ nodesAt (.right :: position) r ++
        [(position, prod l r)]

def subexpressions : Expr → List Expr
  | num n => [num n]
  | var v => [var v]
  | sum l r => l.subexpressions ++ r.subexpressions ++ [sum l r]
  | prod l r => l.subexpressions ++ r.subexpressions ++ [prod l r]

theorem map_snd_nodesAt (e : Expr) (position : Position) :
    (nodesAt position e).map Prod.snd = e.subexpressions := by
  induction e generalizing position with
  | num n => rfl
  | var v => rfl
  | sum l r ihl ihr | prod l r ihl ihr =>
      simp [nodesAt, subexpressions, ihl, ihr]

/-! ## Walking through a subtree -/

namespace Walk

/-- The last visit was not in the subtree at a position. -/
def Unentered (last : Option Position) (position : Position) : Prop :=
  ∀ p ∈ last, ¬position <:+ p

variable {last : Option Position} {position : Position}

theorem Unentered.below (h : Unentered last position) (side : Side) :
    Unentered last (side :: position) := by
  intro p hp hsuffix
  exact h p hp ((List.suffix_cons side position).trans hsuffix)

theorem Unentered.ne_below (h : Unentered last position) (side : Side) :
    last ≠ some (side :: position) := by
  rintro rfl
  exact h _ rfl (List.suffix_cons side position)

theorem unentered_right (position : Position) :
    Unentered (some (.left :: position)) (.right :: position) := by
  rintro p ⟨⟩ hsuffix
  have heq := hsuffix.eq_of_length rfl
  cases heq

theorem take_congr {w w' : Walk} (h : w.next? = w'.next?) (n : Nat) :
    take n w = take n w' := by
  cases n with
  | zero => rfl
  | succ n => rw [take, take, h]

/-- The operation at a position and its operands: first the left operand is
walked through, then the right one, and then the operation is visited. -/
theorem take_operation {e l r : Expr} {rest : List Node} {n : Nat}
    (hdescend : ∀ last rest, descend e position rest last =
      if last = some (.right :: position) then
        ((position, e), ⟨rest, some position⟩)
      else descend l (.left :: position)
        ((.right :: position, r) :: (position, e) :: rest) last)
    (hsize : e.size = l.size + r.size + 1) (h : Unentered last position)
    (hl : ∀ rest n, take (l.size + n) ⟨(.left :: position, l) :: rest, last⟩ =
      nodesAt (.left :: position) l ++ take n ⟨rest, some (.left :: position)⟩)
    (hr : ∀ rest n, take (r.size + n)
        ⟨(.right :: position, r) :: rest, some (.left :: position)⟩ =
      nodesAt (.right :: position) r ++
        take n ⟨rest, some (.right :: position)⟩) :
    take (e.size + n) ⟨(position, e) :: rest, last⟩ =
      nodesAt (.left :: position) l ++ nodesAt (.right :: position) r ++
        (position, e) :: take n ⟨rest, some position⟩ := by
  have hdown : next? ⟨(position, e) :: rest, last⟩ =
      next? ⟨(.left :: position, l) :: (.right :: position, r) ::
        (position, e) :: rest, last⟩ := by
    simp only [next?, hdescend, if_neg (h.ne_below .right)]
  have hvisit : next? ⟨(position, e) :: rest, some (.right :: position)⟩ =
      some ((position, e), ⟨rest, some position⟩) := by
    simp only [next?, hdescend, if_pos]
  calc
    _ = take (l.size + (r.size + (n + 1))) ⟨(.left :: position, l) ::
          (.right :: position, r) :: (position, e) :: rest, last⟩ := by
        rw [take_congr hdown, hsize]
        congr 1
        omega
    _ = nodesAt (.left :: position) l ++ (nodesAt (.right :: position) r ++
          take (n + 1) ⟨(position, e) :: rest, some (.right :: position)⟩) := by
        rw [hl, hr]
    _ = _ := by
        rw [take, hvisit, List.append_assoc]

/-- A walk through a subtree visits its nodes, every one after its operands. -/
theorem take_subtree (e : Expr) {rest : List Node} {n : Nat}
    (h : Unentered last position) :
    take (e.size + n) ⟨(position, e) :: rest, last⟩ =
      nodesAt position e ++ take n ⟨rest, some position⟩ := by
  induction e generalizing position last rest n with
  | num x =>
      rw [size, Nat.add_comm]
      rfl
  | var v =>
      rw [size, Nat.add_comm]
      rfl
  | sum l r ihl ihr | prod l r ihl ihr =>
      -- the right operand is entered with the left one as the last visit
      rw [take_operation (fun _ _ => rfl) rfl h
        (fun _ _ => ihl (h.below .left)) (fun _ _ =>
          ihr (unentered_right position)),
        nodesAt]
      simp

end Walk

/-! ## What is read off a walk -/

theorem nodes_eq (e : Expr) : e.nodes = nodesAt [] e := by
  have hstart : Walk.Unentered none [] := fun _ hp => nomatch hp
  have h : Walk.take (e.size + 0) ⟨[([], e)], none⟩ =
      nodesAt [] e ++ Walk.take 0 ⟨[], some []⟩ := Walk.take_subtree e hstart
  rwa [Walk.take, List.append_nil] at h

theorem postOrder_eq (e : Expr) : e.postOrder = e.subexpressions := by
  rw [postOrder, nodes_eq, map_snd_nodesAt]

theorem subexpressions_of_operands {e l r : Expr}
    (h : e.operands? = some (l, r)) :
    e.subexpressions = l.subexpressions ++ r.subexpressions ++ [e] := by
  cases e with
  | num n => cases h
  | var v => cases h
  | sum l r | prod l r =>
      cases h
      rfl

theorem forall_mem_subexpressions {P : Expr → Prop} {e l r : Expr}
    (h : e.operands? = some (l, r)) :
    (∀ d ∈ e.subexpressions, P d) ↔
      (∀ d ∈ l.subexpressions, P d) ∧ (∀ d ∈ r.subexpressions, P d) ∧ P e := by
  rw [subexpressions_of_operands h]
  simp only [List.forall_mem_append, List.forall_mem_singleton, and_assoc]

theorem length_subexpressions (e : Expr) :
    e.subexpressions.length = e.size := by
  induction e with
  | num n => rfl
  | var v => rfl
  | sum l r ihl ihr | prod l r ihl ihr =>
      rw [subexpressions, size, List.length_append,
        List.length_append, ihl, ihr]
      rfl

/-- A walk visits as many nodes as there are. -/
theorem nodeCount_eq (e : Expr) : e.nodeCount = e.size := by
  rw [nodeCount, postOrder_eq, length_subexpressions]

theorem mem_insertName {x name : String} {names : List String} :
    x ∈ insertName name names ↔ x = name ∨ x ∈ names := by
  induction names with
  | nil => simp [insertName]
  | cons other rest ih =>
      rw [insertName]
      split
      · simp
      · split
        · next heq => simp [heq]
        · simp only [List.mem_cons, ih]
          exact or_left_comm

theorem mem_foldr_insertName {x : String} {names : List String} :
    x ∈ names.foldr insertName [] ↔ x ∈ names := by
  induction names with
  | nil => rfl
  | cons name rest ih => rw [List.foldr_cons, mem_insertName, ih, List.mem_cons]

/-- The variables of an expression are those among its subexpressions. -/
theorem mem_variableNames {x : String} {e : Expr} :
    x ∈ e.variableNames ↔ ∃ v, var v ∈ e.subexpressions ∧ v.name = x := by
  rw [variableNames, mem_foldr_insertName, postOrder_eq, List.mem_filterMap]
  constructor
  · rintro ⟨e', he', hx⟩
    cases e' with
    | var v => exact ⟨v, he', Option.some.inj hx⟩
    | num n => cases hx
    | sum l r => cases hx
    | prod l r => cases hx
  · rintro ⟨v, hv, rfl⟩
    exact ⟨var v, hv, rfl⟩

theorem mem_variableNames_of_operands {x : String} {e l r : Expr}
    (h : e.operands? = some (l, r)) :
    x ∈ e.variableNames ↔ x ∈ l.variableNames ∨ x ∈ r.variableNames := by
  have hne : ∀ v, var v ≠ e := by
    rintro v rfl
    cases h
  simp only [mem_variableNames, subexpressions_of_operands h, List.mem_append,
    List.mem_singleton, hne, or_false, or_and_right, exists_or]

end PolyAlgebra.Expr
