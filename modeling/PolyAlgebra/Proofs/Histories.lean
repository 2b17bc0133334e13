import PolyAlgebra.Expr
import PolyAlgebra.Proofs.Drafts
import PolyAlgebra.Proofs.Equality
import PolyAlgebra.Proofs.Lowering
import PolyAlgebra.Proofs.PostOrder

/-!
# Histories

Numbers, variables, expressions and environments are made by operations, from
values of any kind and from what was made before. Whatever the order of the
operations, the leaves are sound in all that they make, because every operation
that makes a leaf checks it and all others only pass leaves on. Equality of
expressions is therefore lawful.
-/

namespace PolyAlgebra

/-! ## What operations make -/

def Environment.Sound (env : Environment) : Prop :=
  ∀ b ∈ env.bindings, IsWord b.1.name ∧ IsMagnitude b.2.value

theorem Environment.Sound.get? {env : Environment} {v : Variable} {n : Number}
    (h : env.Sound) (hn : env.get? v = some n) : IsMagnitude n.value := by
  obtain ⟨b, hb, rfl⟩ := Option.map_eq_some_iff.mp hn
  exact (h b (List.mem_of_find?_eq_some hb)).2

theorem Environment.Sound.lookup? {env : Environment} {name : String}
    {n : Number} (h : env.Sound) (hn : env.lookup? name = some n) :
    IsMagnitude n.value := by
  obtain ⟨b, hb, rfl⟩ := Option.map_eq_some_iff.mp hn
  exact (h b (List.mem_of_find?_eq_some hb)).2

namespace Expr

variable {e e' : Expr} {x : Float} {s : String}

theorem sound_zero : (num .zero).Sound := ⟨by decide, by decide⟩

theorem sound_one : (num .one).Sound := ⟨by decide, by decide⟩

theorem sound_ofFloat (h : ofFloat x = .ok e) : e.Sound := by
  obtain ⟨n, hn, rfl⟩ := exists_of_map_eq_ok h
  exact Number.isMagnitude_of_ofFloat hn

theorem sound_ofName (h : ofName s = .ok e) : e.Sound := by
  obtain ⟨v, hv, rfl⟩ := exists_of_map_eq_ok h
  exact Variable.isWord_of_ofName hv

theorem Sound.derivative (h : e.Sound) (x : Variable) :
    (e.derivative x).Sound := by
  induction e with
  | num n => exact sound_zero
  | var v =>
      rw [Expr.derivative]
      split
      · exact sound_one
      · exact sound_zero
  | sum f g ihf ihg => exact ⟨ihf h.1, ihg h.2⟩
  | prod f g ihf ihg => exact ⟨⟨ihf h.1, h.2⟩, h.1, ihg h.2⟩

theorem Sound.substitute {env : Environment} (h : e.Sound) (henv : env.Sound) :
    (e.substitute env).Sound := by
  induction e with
  | num n => exact h
  | var v =>
      rw [Expr.substitute]
      split
      · next n hn => exact henv.get? hn
      · exact h
  | sum l r ihl ihr | prod l r ihl ihr => exact ⟨ihl h.1, ihr h.2⟩

theorem Sound.simplify {env : Environment} (h : e.Sound) (henv : env.Sound)
    (hs : e.simplify env = .ok e') : e'.Sound := by
  unfold Expr.simplify at hs
  split at hs
  · exact sound_ofFloat hs
  · obtain rfl := Except.ok.inj hs
    exact h.substitute henv

theorem Sound.subexpressions (h : e.Sound) :
    ∀ d ∈ e.subexpressions, d.Sound := by
  induction e with
  | num n | var v =>
      intro d hd
      obtain rfl := List.mem_singleton.mp hd
      exact h
  | sum l r ihl ihr | prod l r ihl ihr =>
      exact (forall_mem_subexpressions rfl).mpr ⟨ihl h.1, ihr h.2, h⟩

end Expr

/-- What a tree is lowered to is sound, whoever built the tree. -/
theorem Tree.sound_toExpr {t : Tree} {e : Expr} (h : t.toExpr = .ok e) :
    e.Sound := by
  induction t generalizing e with
  | literal l =>
      rw [toExpr_literal] at h
      have hleaf : l.toLeaf = .ok e := eq_ok_of_mapError h
      cases l with
      | number l => exact Expr.sound_ofFloat hleaf
      | symbol l => exact Expr.sound_ofName hleaf
  | group inner s ih =>
      rw [toExpr_group] at h
      exact ih h
  | binary lhs op rhs s ihl ihr =>
      obtain ⟨l, r, hl, hr, rfl⟩ := toExpr_binary_eq_ok.mp h
      obtain ⟨_ | _, place⟩ := op
      · exact ⟨ihl hl, ihr hr⟩
      · exact ⟨ihl hl, ihr hr⟩

/-! ### Forms -/

theorem Number.isMagnitude_ofForm {f : Form} {n : Number}
    (h : ofForm f = .ok n) :
    IsMagnitude n.value := by
  obtain ⟨x, -, hx⟩ := exists_of_bind_eq_ok h
  exact isMagnitude_of_ofFloat (eq_ok_of_mapError hx)

theorem Variable.isWord_ofForm {f : Form} {v : Variable}
    (h : ofForm f = .ok v) :
    IsWord v.name := by
  obtain ⟨s, -, hs⟩ := exists_of_bind_eq_ok h
  exact isWord_of_ofName (eq_ok_of_mapError hs)

namespace Expr

theorem sound_ofForm {f : Form} {e : Expr} (h : ofForm f = .ok e) :
    e.Sound := by
  obtain ⟨d, -, hvalid, hstands⟩ := ofForm_eq_ok.mp h
  clear h
  induction hstands with
  | value hx =>
      exact Number.isMagnitude_of_ofFloat (Number.ofFloat_eq_ok.mpr hx)
  | @name s v hs =>
      have hword : IsWord s := hvalid (.name s) (List.mem_singleton_self _)
      rw [← hs] at hword
      exact hword
  | sum hl hr ihl ihr | prod hl hr ihl ihr =>
      have hvalid := List.forall_mem_append.mp hvalid
      exact ⟨ihl hvalid.1, ihr hvalid.2⟩

end Expr

/-! ### Environments -/

theorem Bindings.mem_of_replaced {v : Variable} {n m : Number} {b : Bindings}
    (h : (b.insert v n).1 = some m) : ∃ w, (w, m) ∈ b := by
  induction b with
  | nil => cases h
  | cons p rest ih =>
      obtain ⟨u, k⟩ := p
      rw [insert] at h
      split at h
      · cases h
      · split at h
        · obtain rfl := Option.some.inj h
          exact ⟨u, by simp⟩
        · obtain ⟨w, hw⟩ := ih h
          exact ⟨w, List.mem_cons_of_mem _ hw⟩

namespace Environment

variable {env : Environment}

theorem sound_empty : empty.Sound := by
  rintro b ⟨⟩

theorem Sound.insert (h : env.Sound) {v : Variable} {n : Number}
    (hv : IsWord v.name) (hn : IsMagnitude n.value) :
    (env.insert v n).2.Sound := by
  intro b hb
  rcases Bindings.mem_insert hb with rfl | hb
  · exact ⟨hv, hn⟩
  · exact h b hb

theorem Sound.add (h : env.Sound) (name : String) (value : Float) :
    (env.add name value).2.Sound := by
  unfold Environment.add
  split
  · exact h
  · next v hv =>
      split
      · exact h
      · next n hn =>
          exact h.insert (Variable.isWord_of_ofName hv)
            (Number.isMagnitude_of_ofFloat hn)

theorem sound_ofList {bindings : List (Variable × Number)}
    (h : ∀ b ∈ bindings, IsWord b.1.name ∧ IsMagnitude b.2.value) :
    (ofList bindings).Sound := by
  suffices hfold : ∀ env : Environment, env.Sound →
      (bindings.foldl (fun env b => (env.insert b.1 b.2).2) env).Sound from
    hfold empty sound_empty
  induction bindings with
  | nil => exact fun env henv => henv
  | cons b bindings ih =>
      intro env henv
      obtain ⟨hv, hn⟩ := h b (by simp)
      exact ih (fun c hc => h c (List.mem_cons_of_mem b hc)) _
        (henv.insert hv hn)

/-- The number that is replaced was bound before. -/
theorem Sound.replaced (h : env.Sound) {v : Variable} {n m : Number}
    (hm : (env.insert v n).1 = some m) : IsMagnitude m.value := by
  obtain ⟨w, hw⟩ := Bindings.mem_of_replaced hm
  exact (h (w, m) hw).2

theorem sound_ofForm {f : Form} (h : ofForm f = .ok env) : env.Sound := by
  obtain ⟨values, -, h⟩ := exists_of_bind_eq_ok h
  split at h
  · cases h
  · next vars more =>
      obtain ⟨fields, -, h⟩ := exists_of_bind_eq_ok h
      obtain ⟨bindings, hbindings, h⟩ := exists_of_bind_eq_ok h
      split at h
      · obtain rfl := Except.ok.inj h
        apply sound_ofList
        intro b hb
        obtain ⟨field, -, hfield⟩ := exists_of_mem_mapM hbindings hb
        obtain ⟨v, hv, hrest⟩ := exists_of_bind_eq_ok hfield
        obtain ⟨n, hn, hpair⟩ := exists_of_bind_eq_ok hrest
        obtain rfl := Except.ok.inj hpair
        exact ⟨Variable.isWord_of_ofName (eq_ok_of_mapError hv),
          Number.isMagnitude_ofForm hn⟩
      · cases h

end Environment

/-! ## Histories -/

inductive Item where
  | num (n : Number)
  | var (v : Variable)
  | expr (e : Expr)
  | environment (env : Environment)

def Item.Sound : Item → Prop
  | num n => IsMagnitude n.value
  | var v => IsWord v.name
  | expr e => e.Sound
  | environment env => env.Sound

/-- An operation on items of a list makes the item. Values, names, sources,
trees and forms may be any. -/
inductive Makes (items : List Item) : Item → Prop where
  -- leaves
  | zero : Makes items (.num .zero)
  | one : Makes items (.num .one)
  | value {x : Float} {n : Number} (h : Number.ofFloat x = .ok n) :
      Makes items (.num n)
  | name {s : String} {v : Variable} (h : Variable.ofName s = .ok v) :
      Makes items (.var v)
  -- expressions
  | numberExpr {n : Number} (hn : .num n ∈ items) : Makes items (.expr (.num n))
  | variableExpr {v : Variable} (hv : .var v ∈ items) :
      Makes items (.expr (.var v))
  | ofFloat {x : Float} {e : Expr} (h : Expr.ofFloat x = .ok e) :
      Makes items (.expr e)
  | ofName {s : String} {e : Expr} (h : Expr.ofName s = .ok e) :
      Makes items (.expr e)
  | sum {l r : Expr} (hl : .expr l ∈ items) (hr : .expr r ∈ items) :
      Makes items (.expr (l + r))
  | prod {l r : Expr} (hl : .expr l ∈ items) (hr : .expr r ∈ items) :
      Makes items (.expr (l * r))
  | parse {source : String} {limit : Option Nat} {e : Expr}
      (h : Expr.parse source limit = .ok e) :
      Makes items (.expr e)
  | lower {t : Tree} {e : Expr} (h : t.toExpr = .ok e) : Makes items (.expr e)
  | derivative {e : Expr} {x : Variable} (he : .expr e ∈ items)
      (hx : .var x ∈ items) :
      Makes items (.expr (e.derivative x))
  | derivativeBy {e e' : Expr} {name : String} (he : .expr e ∈ items)
      (h : e.derivativeBy name = .ok e') : Makes items (.expr e')
  | simplify {e e' : Expr} {env : Environment} (he : .expr e ∈ items)
      (henv : .environment env ∈ items) (h : e.simplify env = .ok e') :
      Makes items (.expr e')
  -- parts of expressions
  | node {e d : Expr} (he : .expr e ∈ items) (hd : d ∈ e.postOrder) :
      Makes items (.expr d)
  | asNumber {e : Expr} {n : Number} (he : .expr e ∈ items)
      (h : e.asNumber? = some n) :
      Makes items (.num n)
  | asVariable {e : Expr} {v : Variable} (he : .expr e ∈ items)
      (h : e.asVariable? = some v) :
      Makes items (.var v)
  -- environments
  | empty : Makes items (.environment .empty)
  | add {env : Environment} {name : String} {value : Float}
      (henv : .environment env ∈ items) :
      Makes items (.environment (env.add name value).2)
  | insert {env : Environment} {v : Variable} {n : Number}
      (henv : .environment env ∈ items)
      (hv : .var v ∈ items) (hn : .num n ∈ items) :
      Makes items (.environment (env.insert v n).2)
  | replaced {env : Environment} {v : Variable} {n m : Number}
      (henv : .environment env ∈ items)
      (h : (env.insert v n).1 = some m) : Makes items (.num m)
  | ofList {bindings : List (Variable × Number)}
      (h : ∀ b ∈ bindings, .var b.1 ∈ items ∧ .num b.2 ∈ items) :
      Makes items (.environment (.ofList bindings))
  | lookup {env : Environment} {name : String} {n : Number}
      (henv : .environment env ∈ items)
      (h : env.lookup? name = some n) : Makes items (.num n)
  | get {env : Environment} {v : Variable} {n : Number}
      (henv : .environment env ∈ items)
      (h : env.get? v = some n) : Makes items (.num n)
  -- forms
  | numberOfForm {f : Form} {n : Number} (h : Number.ofForm f = .ok n) :
      Makes items (.num n)
  | variableOfForm {f : Form} {v : Variable} (h : Variable.ofForm f = .ok v) :
      Makes items (.var v)
  | exprOfForm {f : Form} {e : Expr} (h : Expr.ofForm f = .ok e) :
      Makes items (.expr e)
  | environmentOfForm {f : Form} {env : Environment}
      (h : Environment.ofForm f = .ok env) :
      Makes items (.environment env)

/-- The items were made one after the other, the last one first. -/
inductive History : List Item → Prop where
  | nothing : History []
  | step {items : List Item} {item : Item} (before : History items)
      (makes : Makes items item) :
      History (item :: items)

/-- Operations on sound items make sound items. -/
theorem Makes.sound {items : List Item} {item : Item} (h : Makes items item)
    (hitems : ∀ i ∈ items, i.Sound) : item.Sound := by
  cases h with
  | zero => exact Expr.sound_zero
  | one => exact Expr.sound_one
  | value h => exact Number.isMagnitude_of_ofFloat h
  | name h => exact Variable.isWord_of_ofName h
  | numberExpr h | variableExpr h =>
      have hleaf := hitems _ h
      exact hleaf
  | ofFloat h => exact Expr.sound_ofFloat h
  | ofName h => exact Expr.sound_ofName h
  | sum hl hr | prod hl hr => exact ⟨hitems _ hl, hitems _ hr⟩
  | parse h =>
      obtain ⟨t, -, ht⟩ := Expr.exists_tree_of_parse h
      exact Tree.sound_toExpr ht
  | lower h => exact Tree.sound_toExpr h
  | derivative he hx => exact (hitems _ he).derivative _
  | @derivativeBy e e' name he h =>
      unfold Expr.derivativeBy at h
      split at h
      · obtain rfl := Except.ok.inj h
        exact (hitems _ he).derivative _
      · cases h
  | simplify he henv h => exact (hitems _ he).simplify (hitems _ henv) h
  | node he hd =>
      rw [Expr.postOrder_eq] at hd
      exact (hitems _ he).subexpressions _ hd
  | @asNumber e n he h =>
      have hsound : e.Sound := hitems _ he
      cases e with
      | num m =>
          obtain rfl := Option.some.inj h
          exact hsound
      | var v | sum l r | prod l r => cases h
  | @asVariable e v he h =>
      have hsound : e.Sound := hitems _ he
      cases e with
      | var w =>
          obtain rfl := Option.some.inj h
          exact hsound
      | num n | sum l r | prod l r => cases h
  | empty => exact Environment.sound_empty
  | add henv => exact (hitems _ henv).add _ _
  | insert henv hv hn =>
      exact (hitems _ henv).insert (hitems _ hv) (hitems _ hn)
  | replaced henv h => exact (hitems _ henv).replaced h
  | ofList h =>
      exact Environment.sound_ofList fun b hb =>
        ⟨hitems _ (h b hb).1, hitems _ (h b hb).2⟩
  | lookup henv h => exact (hitems _ henv).lookup? h
  | get henv h => exact (hitems _ henv).get? h
  | numberOfForm h => exact Number.isMagnitude_ofForm h
  | variableOfForm h => exact Variable.isWord_ofForm h
  | exprOfForm h => exact Expr.sound_ofForm h
  | environmentOfForm h => exact Environment.sound_ofForm h

theorem History.sound {items : List Item} (h : History items) :
    ∀ i ∈ items, i.Sound := by
  induction h with
  | nothing => rintro i ⟨⟩
  | step before makes ih =>
      intro i hi
      rcases List.mem_cons.mp hi with rfl | hi
      · exact makes.sound ih
      · exact ih i hi

/-- **Histories.** Whatever was made, and in whatever order, its numbers are
finite and have no sign, and its names are words. So equality of the
expressions that were made is lawful: it is reflexive, symmetric and
transitive, it holds exactly between identical expressions, and equal
expressions have the same hash code. -/
theorem History.lawful {items : List Item} (h : History items) :
    (∀ i ∈ items, i.Sound) ∧
    ∀ a b c, .expr a ∈ items → .expr b ∈ items → .expr c ∈ items →
      (a == a) = true ∧
      ((a == b) = true → (b == a) = true) ∧
      ((a == b) = true → (b == c) = true → (a == c) = true) ∧
      ((a == b) = true ↔ a.Identical b) ∧
      ((a == b) = true → a.hashCode = b.hashCode) := by
  refine ⟨h.sound, fun a b c ha hb hc => ?_⟩
  have sa : a.Sound := h.sound _ ha
  have sb : b.Sound := h.sound _ hb
  have sc : c.Sound := h.sound _ hc
  rw [Expr.beq_iff_eq sa sa, Expr.beq_iff_eq sb sa, Expr.beq_iff_eq sb sc,
    Expr.beq_iff_eq sa sc, ← Expr.beq_iff_identical sa sb,
    Expr.beq_iff_eq sa sb]
  exact ⟨rfl, Eq.symm, Eq.trans, Iff.rfl, congrArg Expr.hashCode⟩

theorem History.lawful_negativeZero :
    ∃ a b, (Tree.literal (.number ⟨-0.0, ⟨0, 4⟩⟩)).toExpr = .ok a ∧
      Expr.ofFloat 0 = .ok b ∧
      (a == b) = true ∧ a.hashCode = b.hashCode := by
  have hzero : Number.ofFloat 0 = .ok .zero :=
    Number.ofFloat_eq_ok.mpr (by decide +kernel)
  have ha : (Tree.literal (.number ⟨-0.0, ⟨0, 4⟩⟩)).toExpr = .ok (.num .zero) :=
    Tree.toExpr_eq_ok.mpr (.literal (.number (by decide +kernel)))
  have hb : Expr.ofFloat 0 = .ok (.num .zero) := by
    rw [Expr.ofFloat, hzero]
    rfl
  have h : History [.expr (.num .zero), .expr (.num .zero)] :=
    .step (.step .nothing (.ofFloat hb)) (.lower ha)
  obtain ⟨-, -, -, hequal, hhash⟩ :=
    h.lawful.2 (.num .zero) (.num .zero) (.num .zero) (by simp)
      (by simp) (by simp)
  have heq := hequal.mpr (.num rfl)
  exact ⟨_, _, ha, hb, heq, hhash heq⟩

end PolyAlgebra
