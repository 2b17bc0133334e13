import PolyAlgebra.Proofs.PostOrder

/-!
# A walk visits every node once

Asked for one node after the other, a walk over an expression gives the nodes
in post-order and then nothing, however often it is asked again. The nodes are
told apart by their positions: each position in the expression comes up
exactly once, even if equal expressions stand at several of them, and it comes
up behind all positions below it and behind all that hang further to the left.
-/

namespace PolyAlgebra.Expr

/-! ## Positions -/

def operand? (side : Side) (e : Expr) : Option Expr :=
  e.operands?.map fun (l, r) =>
    match side with
    | .left => l
    | .right => r

/-- The expression at a position: the operand of the one at the parent's
position. -/
def at? (e : Expr) : Position → Option Expr
  | [] => some e
  | side :: position => (e.at? position).bind (operand? side)

/-- The order of visits: what is below a node comes before the node, and what
hangs on the left of a node before what hangs on its right. -/
inductive Position.Precedes : Position → Position → Prop where
  | below {p q : Position} (above : q <:+ p) (ne : p ≠ q) : Precedes p q
  | beside {p q : Position} {base : Position} (left : .left :: base <:+ p)
      (right : .right :: base <:+ q) : Precedes p q

theorem Position.not_left_right {base p : Position} (left : .left :: base <:+ p)
    (right : .right :: base <:+ p) : False := by
  have heq :=
    (List.suffix_of_suffix_length_le left right (Nat.le_refl _)).eq_of_length
      rfl
  cases heq

theorem Position.Precedes.ne {p q : Position} (h : p.Precedes q) : p ≠ q := by
  cases h with
  | below above ne => exact ne
  | beside left right =>
      rintro rfl
      exact not_left_right left right

/-- Going down to an operand first is the last step of a position. -/
theorem at?_concat {e : Expr} {side : Side} (path : Position) :
    e.at? (path ++ [side]) = (e.operand? side).bind fun d => d.at? path := by
  induction path with
  | nil => simp [at?]
  | cons s path ih =>
      rw [List.cons_append, at?, ih, Option.bind_assoc]
      rfl

/-! ## The nodes of an expression -/

variable {position : Position} {e l r : Expr} {node : Node}

theorem suffix_of_mem_nodesAt (h : node ∈ nodesAt position e) :
    position <:+ node.1 := by
  induction e generalizing position with
  | num n | var v =>
      obtain rfl := List.mem_singleton.mp h
      exact List.suffix_rfl
  | sum l r ihl ihr | prod l r ihl ihr =>
      rw [nodesAt, List.mem_append, List.mem_append, List.mem_singleton] at h
      rcases h with (hl | hr) | rfl
      · exact (List.suffix_cons .left position).trans (ihl hl)
      · exact (List.suffix_cons .right position).trans (ihr hr)
      · exact List.suffix_rfl

/-- Nodes are visited in order: all of the left operand, all of the right one,
and then the operation itself. -/
theorem pairwise_nodesAt (position : Position) (e : Expr) :
    (nodesAt position e).Pairwise fun m n => m.1.Precedes n.1 := by
  induction e generalizing position with
  | num n | var v => exact List.pairwise_singleton _ _
  | sum l r ihl ihr | prod l r ihl ihr =>
      rw [nodesAt, List.pairwise_append, List.pairwise_append]
      refine ⟨⟨ihl _, ihr _, fun m hm n hn => ?_⟩,
        List.pairwise_singleton _ _, ?_⟩
      · exact .beside (suffix_of_mem_nodesAt hm) (suffix_of_mem_nodesAt hn)
      · intro m hm n hn
        obtain rfl := List.mem_singleton.mp hn
        -- the operands stand at positions that are longer
        have hside : ∃ side, side :: position <:+ m.1 := by
          rcases List.mem_append.mp hm with hm | hm
          · exact ⟨.left, suffix_of_mem_nodesAt hm⟩
          · exact ⟨.right, suffix_of_mem_nodesAt hm⟩
        obtain ⟨side, hside⟩ := hside
        refine .below ((List.suffix_cons side position).trans hside) fun heq =>
          ?_
        have hlength := hside.length_le
        rw [heq] at hlength
        exact Nat.not_succ_le_self _ hlength

theorem mem_nodesAt {d : Expr} {q : Position} :
    (q, d) ∈ nodesAt position e ↔
      ∃ path, q = path ++ position ∧ e.at? path = some d := by
  induction e generalizing position with
  | num n | var v =>
      rw [nodesAt, List.mem_singleton, Prod.mk.injEq]
      constructor
      · rintro ⟨rfl, rfl⟩
        exact ⟨[], rfl, rfl⟩
      · rintro ⟨path, rfl, hd⟩
        rcases List.eq_nil_or_concat path with rfl | ⟨path, side, rfl⟩
        · exact ⟨rfl, (Option.some.inj hd).symm⟩
        · rw [List.concat_eq_append, at?_concat] at hd
          cases hd
  | sum l r ihl ihr | prod l r ihl ihr =>
      rw [nodesAt, List.mem_append, List.mem_append, List.mem_singleton,
        Prod.mk.injEq, ihl, ihr]
      constructor
      · rintro ((⟨path, rfl, hd⟩ | ⟨path, rfl, hd⟩) | ⟨rfl, rfl⟩)
        · exact ⟨path ++ [.left], by simp, by rw [at?_concat]; exact hd⟩
        · exact ⟨path ++ [.right], by simp, by rw [at?_concat]; exact hd⟩
        · exact ⟨[], rfl, rfl⟩
      · rintro ⟨path, rfl, hd⟩
        rcases List.eq_nil_or_concat path with rfl | ⟨path, side, rfl⟩
        · exact Or.inr ⟨rfl, (Option.some.inj hd).symm⟩
        · rw [List.concat_eq_append, at?_concat] at hd
          cases side with
          | left => exact Or.inl (Or.inl ⟨path, by simp, hd⟩)
          | right => exact Or.inl (Or.inr ⟨path, by simp, hd⟩)

theorem length_nodesAt (position : Position) (e : Expr) :
    (nodesAt position e).length = e.size := by
  rw [← length_subexpressions, ← map_snd_nodesAt e position, List.length_map]

/-! ## Asking a walk -/

namespace Walk

/-- Asks a walk for the next node. A walk that has none to give stays as it
is. -/
def ask (w : Walk) : Option Node × Walk :=
  match w.next? with
  | none => (none, w)
  | some (node, w) => (some node, w)

def answers : Nat → Walk → List (Option Node)
  | 0, _ => []
  | n + 1, w => w.ask.1 :: answers n w.ask.2

variable {w : Walk}

theorem answers_of_finished (h : w.next? = none) (n : Nat) :
    answers n w = List.replicate n none := by
  induction n with
  | zero => rfl
  | succ n ih =>
      have hask : w.ask = (none, w) := by rw [ask, h]
      rw [answers, hask, ih]
      rfl

/-- The answers are the nodes that the walk visits, as far as there are any,
and nothing from then on. -/
theorem answers_eq (n : Nat) (w : Walk) :
    answers n w =
      (take n w).map some ++ List.replicate (n - (take n w).length) none := by
  induction n generalizing w with
  | zero => rfl
  | succ n ih =>
      cases h : w.next? with
      | none =>
          have htake : take (n + 1) w = [] := by rw [take, h]
          rw [answers_of_finished h, htake]
          rfl
      | some next =>
          obtain ⟨node, w'⟩ := next
          have hask : w.ask = (some node, w') := by rw [ask, h]
          have htake : take (n + 1) w = node :: take n w' := by rw [take, h]
          rw [answers, hask, ih, htake, List.length_cons, Nat.add_sub_add_right]
          rfl

end Walk

/-- **Post-order.** Asked as often as an expression has nodes, a walk over it
gives them in post-order: first all of the left operand, then all of the right
one, then the operation. Asked again it gives nothing, now and ever after.
Each position in the expression comes up exactly once, with the expression
that stands there, whatever equal expressions stand elsewhere. -/
theorem walk_postOrder (e : Expr) :
    (∀ n, (Walk.ofExpr e).answers (e.size + n) =
      (nodesAt [] e).map some ++ List.replicate n none) ∧
    (∀ position d, (position, d) ∈ nodesAt [] e ↔ e.at? position = some d) ∧
    ((nodesAt [] e).map Prod.fst).Nodup ∧
    (nodesAt [] e).Pairwise fun m n => m.1.Precedes n.1 := by
  have hordered := pairwise_nodesAt [] e
  refine ⟨fun n => ?_, fun position d => ?_, ?_, hordered⟩
  · have hstart : Walk.Unentered none [] := fun _ hp => nomatch hp
    have htake : Walk.take (e.size + n) (Walk.ofExpr e) =
        nodesAt [] e ++ Walk.take n ⟨[], some []⟩ := Walk.take_subtree e hstart
    have hend : Walk.take n ⟨[], some []⟩ = [] := by cases n <;> rfl
    rw [hend, List.append_nil] at htake
    rw [Walk.answers_eq, htake, length_nodesAt, Nat.add_sub_cancel_left]
  · rw [mem_nodesAt]
    constructor
    · rintro ⟨path, rfl, hd⟩
      rwa [List.append_nil]
    · intro hd
      exact ⟨position, (List.append_nil position).symm, hd⟩
  · rw [List.Nodup, List.pairwise_map]
    exact hordered.imp Position.Precedes.ne

end PolyAlgebra.Expr
