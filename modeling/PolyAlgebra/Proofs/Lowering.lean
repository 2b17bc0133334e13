import PolyAlgebra.Proofs.Blame
import PolyAlgebra.Proofs.Leaves
import PolyAlgebra.Proofs.Limits

/-!
# What trees stand for

A tree stands for the expression that is left of it without its parentheses
and places. It stands for none if one of its literals can be no leaf, and then
the leftmost of them is the fault. Trees that were read from a source hold
words of letters and values without a sign only, so each of them stands for an
expression.
-/

namespace PolyAlgebra

/-! ## Literals -/

namespace Literal

/-- An expression can hold the literal: a value that is finite and not below
zero, or a nonempty word of ASCII letters. -/
def Valid : Literal → Prop
  | number l => l.value.isFinite = true ∧ 0 ≤ l.value
  | symbol l => IsWord l.name

/-- A source can hold the literal: a finite value without a sign, or a
nonempty word of ASCII letters. -/
def Readable : Literal → Prop
  | number l => IsMagnitude l.value
  | symbol l => IsWord l.name

def reason : Literal → InvalidLeaf
  | number l => .value l.value
  | symbol l => .name l.name

def fault (l : Literal) : Fault := ⟨[l.span], .invalidLiteral l.reason, false⟩

/-- The literal stands for the leaf of its value or name. Negative zero stands
for zero. -/
inductive StandsFor : Literal → Expr → Prop where
  | number {l : NumberLiteral} {n : Number}
      (value : n.value =
        if l.value.toBits = negativeZeroBits then 0 else l.value) :
      StandsFor (.number l) (.num n)
  | symbol {l : SymbolLiteral} {v : Variable} (name : v.name = l.name) :
      StandsFor (.symbol l) (.var v)

instance : DecidablePred Valid
  | number _ => inferInstanceAs (Decidable (_ ∧ _))
  | symbol _ => inferInstanceAs (Decidable (_ ∧ _))

variable {l : Literal} {e : Expr}

theorem Readable.valid (h : l.Readable) : l.Valid := by
  cases l with
  | number l => exact ⟨h.finite, Binary64.zero_le_of_isMagnitude h⟩
  | symbol l => exact h

theorem ofFault_fault (l : Literal) :
    ParseError.ofFault l.fault = .number l.fault ↔ ∃ n, l = .number n := by
  cases l with
  | number l => exact iff_of_true rfl ⟨l, rfl⟩
  | symbol l => exact iff_of_false (by rintro ⟨⟩) (by rintro ⟨n, ⟨⟩⟩)

theorem toExpr_eq_ok : l.toExpr = .ok e ↔ l.StandsFor e := by
  cases l with
  | number l =>
      constructor
      · intro h
        obtain ⟨n, hn, rfl⟩ := exists_of_map_eq_ok (eq_ok_of_mapError h)
        exact .number (Number.ofFloat_eq_ok.mp hn)
      · rintro ⟨hn⟩
        rw [toExpr, toLeaf, Expr.ofFloat, Number.ofFloat_eq_ok.mpr hn]
        rfl
  | symbol l =>
      constructor
      · intro h
        obtain ⟨v, hv, rfl⟩ := exists_of_map_eq_ok (eq_ok_of_mapError h)
        exact .symbol (Variable.ofName_eq_ok.mp hv)
      · rintro (_ | hv)
        rw [toExpr, toLeaf, Expr.ofName, Variable.ofName_eq_ok.mpr hv]
        rfl

theorem toExpr_of_valid (h : l.Valid) : ∃ e, l.toExpr = .ok e := by
  cases l with
  | number l =>
      obtain ⟨n, -, hn⟩ := Number.ofFloat_of_valid h
      exact ⟨_, toExpr_eq_ok.mpr (.number hn)⟩
  | symbol l =>
      let v : Variable := ⟨l.name, isValidName_iff.mpr h⟩
      exact ⟨.var v, toExpr_eq_ok.mpr (.symbol rfl)⟩

theorem toExpr_of_not_valid (h : ¬l.Valid) :
    l.toExpr = .error l.fault := by
  cases l with
  | number l =>
      rw [toExpr, toLeaf, Expr.ofFloat, Number.ofFloat_of_invalid h]; rfl
  | symbol l =>
      have hname : ¬isValidName l.name = true :=
        fun hv => h (isValidName_iff.mp hv)
      rw [toExpr, toLeaf, Expr.ofName, Variable.ofName, dif_neg hname]
      rfl

end Literal

/-! ## Trees -/

namespace Tree

def literals : Tree → List Literal
  | literal l => [l]
  | group inner _ => inner.literals
  | binary lhs _ rhs _ => lhs.literals ++ rhs.literals

/-- The tree stands for the expression: its literals stand for the leaves, its
operators for the sums and products, and its parentheses for nothing. -/
inductive StandsFor : Tree → Expr → Prop where
  | literal {l : Literal} {e : Expr} (h : l.StandsFor e) :
      StandsFor (.literal l) e
  | group {inner : Tree} {e : Expr} (s : Span) (h : StandsFor inner e) :
      StandsFor (.group inner s) e
  | sum {lhs rhs : Tree} {l r : Expr} (op s : Span) (left : StandsFor lhs l)
      (right : StandsFor rhs r) :
      StandsFor (.binary lhs ⟨.add, op⟩ rhs s) (.sum l r)
  | prod {lhs rhs : Tree} {l r : Expr} (op s : Span) (left : StandsFor lhs l)
      (right : StandsFor rhs r) :
      StandsFor (.binary lhs ⟨.mul, op⟩ rhs s) (.prod l r)

variable {t : Tree} {e : Expr}

theorem toExpr_eq_ok : t.toExpr = .ok e ↔ t.StandsFor e := by
  induction t generalizing e with
  | literal l =>
      rw [toExpr_literal, Literal.toExpr_eq_ok]
      exact ⟨.literal, fun | .literal h => h⟩
  | group inner s ih =>
      rw [toExpr_group, ih]
      exact ⟨.group s, fun | .group _ h => h⟩
  | binary lhs op rhs s ihl ihr =>
      rw [toExpr_binary_eq_ok]
      constructor
      · rintro ⟨l, r, hl, hr, rfl⟩
        obtain ⟨_ | _, place⟩ := op
        · exact .sum place s (ihl.mp hl) (ihr.mp hr)
        · exact .prod place s (ihl.mp hl) (ihr.mp hr)
      · rintro (_ | _ | ⟨_, _, hl, hr⟩ | ⟨_, _, hl, hr⟩)
        · exact ⟨_, _, ihl.mpr hl, ihr.mpr hr, rfl⟩
        · exact ⟨_, _, ihl.mpr hl, ihr.mpr hr, rfl⟩

def leftmostInvalid? (t : Tree) : Option Literal :=
  t.literals.find? fun l => ¬l.Valid

theorem leftmostInvalid?_literal (l : Literal) :
    (literal l).leftmostInvalid? = if l.Valid then none else some l := by
  by_cases h : l.Valid <;> simp [leftmostInvalid?, literals, h]

theorem leftmostInvalid?_binary (lhs : Tree) (op : Operator) (rhs : Tree)
    (s : Span) :
    (binary lhs op rhs s).leftmostInvalid? =
      lhs.leftmostInvalid?.or rhs.leftmostInvalid? := List.find?_append

theorem leftmostInvalid?_eq_none :
    t.leftmostInvalid? = none ↔ ∀ l ∈ t.literals, l.Valid := by
  simp [leftmostInvalid?]

/-- A tree stands for an expression unless a literal is not valid, and then the
leftmost of these is the fault. -/
theorem toExpr_cases (t : Tree) :
    (t.leftmostInvalid? = none ∧ ∃ e, t.toExpr = .ok e) ∨
      ∃ l, t.leftmostInvalid? = some l ∧ ¬l.Valid ∧
        t.toExpr = .error l.fault := by
  induction t with
  | literal l =>
      rw [leftmostInvalid?_literal, toExpr_literal]
      by_cases h : l.Valid
      · exact Or.inl ⟨if_pos h, Literal.toExpr_of_valid h⟩
      · exact Or.inr ⟨l, if_neg h, h, Literal.toExpr_of_not_valid h⟩
  | group inner s ih =>
      rw [toExpr_group]
      exact ih
  | binary lhs op rhs s ihl ihr =>
      rw [leftmostInvalid?_binary, toExpr_binary]
      rcases ihl with ⟨hl, left, hleft⟩ | ⟨l, hl, hinvalid, hleft⟩
      · rw [hl, hleft, Option.none_or]
        rcases ihr with ⟨hr, right, hright⟩ | ⟨r, hr, hinvalid, hright⟩
        · exact Or.inl ⟨hr, _, by rw [hright]; rfl⟩
        · exact Or.inr ⟨r, hr, hinvalid, by rw [hright]; rfl⟩
      · exact Or.inr ⟨l, by rw [hl, Option.some_or],
          hinvalid, by rw [hleft]; rfl⟩

theorem toExpr_of_valid (h : ∀ l ∈ t.literals, l.Valid) :
    ∃ e, t.toExpr = .ok e := by
  rcases t.toExpr_cases with ⟨-, he⟩ | ⟨l, hl, -⟩
  · exact he
  · rw [leftmostInvalid?_eq_none.mpr h] at hl
    cases hl

end Tree

/-! ## Trees that were read -/

namespace Token

variable {source : String} {t : Token}

theorem isWord_of_name (h : t ∈ words (scan source)) (hk : t.kind = .name) :
    IsWord t.lexeme := by
  obtain ⟨place, c, rest, rfl⟩ := exists_first_of_mem (List.mem_filter.mp h).1
  have hc := TokenKind.begins_ofFirst c
  simp only [first] at hk ⊢
  rw [hk] at hc ⊢
  rw [IsWord, String.toList_ofList]
  refine ⟨List.cons_ne_nil _ _, fun d hd => ?_⟩
  rcases List.mem_cons.mp hd with rfl | hd
  · exact hc
  · exact List.all_eq_true.mp List.all_takeWhile d hd

end Token

/-- The literals of a derivation are readable if its names are words of
letters. -/
theorem Derives.readable {phrase : Phrase} {ts : List Token} {t : Tree}
    (h : Derives phrase ts t)
    (names : ∀ u ∈ ts, u.kind = .name → IsWord u.lexeme) :
    ∀ l ∈ t.literals, l.Readable := by
  induction h using Derives.byOperands with
  | @number u h =>
      intro l hl
      obtain rfl := List.mem_singleton.mp hl
      exact ⟨h.finite, Decimal.isNegative_toFloat _⟩
  | @name u h =>
      intro l hl
      obtain rfl := List.mem_singleton.mp hl
      exact names u (List.mem_singleton_self u) h
  | group hopen inner hclose ih => exact ih fun u hu => names u (by simp [hu])
  | factor h ih | term h ih => exact ih names
  | times hl hs hr ihl ihr | plus hl hs hr ihl ihr =>
      intro l hl
      rcases List.mem_append.mp hl with hl | hl
      · exact ihl (fun u hu => names u (by simp [hu])) l hl
      · exact ihr (fun u hu => names u (by simp [hu])) l hl

namespace Tree

variable {source : String} {limit : Option Nat}

theorem readable_of_parse {t : Tree} (h : parse source limit = .ok t) :
    ∀ l ∈ t.literals, l.Readable := by
  rw [parse_eq_run] at h
  exact (Stage.derives_of_run h).readable fun u => Token.isWord_of_name

theorem valid_of_parse {t : Tree} (h : parse source limit = .ok t) :
    ∀ l ∈ t.literals, l.Valid := fun l hl => (readable_of_parse h l hl).valid

/-- What is wrong with a source is never that a literal is not valid. -/
theorem cause_blame (stop : Nat) (p : List Token) (t? : Option Token)
    (r : InvalidLeaf) :
    (blame stop p t?).cause ≠ .invalidLiteral r := by
  unfold blame blameOperand blameFollowing blameEnd Token.strayCause Fault.final
    Fault.located
  repeat' split
  all_goals rintro ⟨⟩

theorem cause_of_parse {f : Fault} (h : parse source limit = .error f)
    (r : InvalidLeaf) :
    f.cause ≠ .invalidLiteral r := by
  have hnone : ∀ g, parse source none = .error g →
      g.cause ≠ .invalidLiteral r := by
    intro g hg
    rw [parse_eq_run] at hg
    obtain ⟨p, rest, s, -, hs, hr⟩ := Stage.Reached.start.exists_refuses hg
    rw [hs.follows.eq_blame hr]
    exact cause_blame _ _ _ r
  cases limit with
  | none => exact hnone f h
  | some m =>
      have hcut : CutOff m (Token.words (Token.scan source))
        (parse source (some m))
          (parse source none) := cutOff_parse (by rintro n ⟨⟩)
      rcases hcut with heq | ⟨u, _, _, heq⟩
      · exact hnone f (heq.symm.trans h)
      · rw [heq] at h
        cases h
        rintro ⟨⟩

/-- A source that is refused is refused for its words: it has no tree. -/
theorem exists_fault_of_parse_expr {e : ParseError}
    (h : Expr.parse source limit = .error e) :
    ∃ f, parse source limit = .error f ∧ e = .ofFault f := by
  rw [Expr.parse] at h
  cases ht : parse source limit with
  | error f =>
      rw [ht] at h
      exact ⟨f, rfl, (Except.error.inj h).symm⟩
  | ok t =>
      obtain ⟨e', he'⟩ := toExpr_of_valid (valid_of_parse ht)
      rw [ht, Except.bind, he'] at h
      cases h

theorem cause_of_parse_expr {e : ParseError}
    (h : Expr.parse source limit = .error e) (r : InvalidLeaf) :
    e.fault.cause ≠ .invalidLiteral r := by
  obtain ⟨f, hf, rfl⟩ := exists_fault_of_parse_expr h
  rw [ParseError.fault_ofFault]
  exact cause_of_parse hf r

/-- **What trees stand for.** Lowering a tree gives the expression that it
stands for, and there is one exactly if all literals are valid. Otherwise the
leftmost literal that is not is the fault. It leaves other readings open, and
it counts as a fault of a number exactly if the literal is one. A tree that
was read always stands for an expression, so no source is refused for an
invalid literal. -/
theorem toExpr_iff_standsFor (t : Tree) :
    (∀ e, t.toExpr = .ok e ↔ t.StandsFor e) ∧
    ((∃ e, t.toExpr = .ok e) ↔ ∀ l ∈ t.literals, l.Valid) ∧
    (∀ l, t.leftmostInvalid? = some l →
      t.toExpr = .error ⟨[l.span], .invalidLiteral l.reason, false⟩ ∧
      (ParseError.ofFault l.fault = .number l.fault ↔ ∃ n, l = .number n)) ∧
    (∀ source limit, parse source limit = .ok t → ∃ e, t.toExpr = .ok e) ∧
    ∀ source limit e, Expr.parse source limit = .error e →
      ∀ r, e.fault.cause ≠ .invalidLiteral r := by
  refine ⟨fun e => toExpr_eq_ok, ⟨fun ⟨e, he⟩ => ?_, toExpr_of_valid⟩,
    fun l hl => ?_, fun _ _ h => toExpr_of_valid (valid_of_parse h),
      fun _ _ _ he => cause_of_parse_expr he⟩
  · rcases t.toExpr_cases with ⟨hnone, -⟩ | ⟨l, -, -, herror⟩
    · exact leftmostInvalid?_eq_none.mp hnone
    · rw [he] at herror
      cases herror
  · rcases t.toExpr_cases with ⟨hnone, -⟩ | ⟨m, hm, -, herror⟩
    · rw [hl] at hnone
      cases hnone
    · obtain rfl := Option.some.inj (hl.symm.trans hm)
      exact ⟨herror, l.ofFault_fault⟩

/-- A negative factor is a fault at its own place. -/
theorem toExpr_iff_standsFor_negative :
    (binary (literal (.symbol ⟨"x", ⟨0, 1⟩⟩)) ⟨.mul, ⟨2, 3⟩⟩
      (literal (.number ⟨-1, ⟨4, 6⟩⟩)) ⟨0, 6⟩).toExpr =
        .error ⟨[⟨4, 6⟩], .invalidLiteral (.value (-1)), false⟩ := by
  have hname : (Literal.symbol ⟨"x", ⟨0, 1⟩⟩).Valid := by
    simp [Literal.Valid, IsWord]
  have hvalue : ¬(Literal.number ⟨-1, ⟨4, 6⟩⟩).Valid := by decide +kernel
  refine ((toExpr_iff_standsFor _).2.2.1 (.number ⟨-1, ⟨4, 6⟩⟩) ?_).1
  rw [leftmostInvalid?_binary, leftmostInvalid?_literal,
    leftmostInvalid?_literal, if_pos hname, if_neg hvalue]
  rfl

end Tree

end PolyAlgebra
