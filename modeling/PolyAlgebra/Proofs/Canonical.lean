import PolyAlgebra.Expr.Parse
import PolyAlgebra.Proofs.Numerals
import PolyAlgebra.Proofs.Scanning
import PolyAlgebra.Proofs.Sentences

/-!
# Canonical texts read back

The canonical text of an expression is read as that expression. It is shown by
induction on the expression, for texts that stand anywhere in a source: what
follows must not extend the last token, and is a blank or a closing parenthesis
wherever the canonical text of an operand stands.
-/

namespace PolyAlgebra

/-! ## Single tokens -/

namespace TokenKind

theorem isAlpha_of_isDigit {c : Char} (h : c.isDigit = true) :
    c.isAlpha = false := by
  simp only [Char.isDigit, Char.isAlpha, Char.isUpper, Char.isLower] at *
  grind

theorem ofFirst_of_isDigit {c : Char} (h : c.isDigit = true) :
    ofFirst c = number := by
  have hne : ∀ d : Char, d.isDigit = false → (c == d) = false := by
    intro d hd
    rw [beq_eq_false_iff_ne]
    rintro rfl
    rw [hd] at h
    cases h
  simp only [ofFirst, isBlank_of_isDigit h, hne '+' rfl, hne '*' rfl,
    hne '(' rfl, hne ')' rfl, isAlpha_of_isDigit h, h]
  rfl

theorem ofFirst_of_isAlpha {c : Char} (h : c.isAlpha = true) :
    ofFirst c = name := by
  have hne : ∀ d : Char, d.isAlpha = false → (c == d) = false := by
    intro d hd
    rw [beq_eq_false_iff_ne]
    rintro rfl
    rw [hd] at h
    cases h
  simp only [ofFirst, isBlank_of_isAlpha h, hne '+' rfl, hne '*' rfl,
    hne '(' rfl, hne ')' rfl, h]
  rfl

end TokenKind

namespace Token

theorem words_scanFrom_token (start : Nat) (c : Char) (cs : List Char)
    {rest : List Char} (hword : (TokenKind.ofFirst c).isWhitespace = false)
    (htail : (TokenKind.ofFirst c).tail (cs ++ rest) = cs) :
    words (scanFrom start (c :: (cs ++ rest))) =
      ⟨.ofFirst c, ⟨start, start + byteLength (c :: cs)⟩,
        String.ofList (c :: cs)⟩ ::
        words (scanFrom (start + byteLength (c :: cs)) rest) := by
  rw [scanFrom_cons, first, htail, List.drop_left, words,
    List.filter_cons_of_pos]
  · rfl
  · simp [isWhitespace, hword]

theorem exists_mark (start : Nat) (c : Char) (rest : List Char)
    (hword : (TokenKind.ofFirst c).isWhitespace = false)
    (htail : ∀ cs, (TokenKind.ofFirst c).tail cs = []) :
    ∃ span stop, words (scanFrom start (c :: rest)) =
      ⟨.ofFirst c, span, String.ofList [c]⟩ :: words (scanFrom stop rest) :=
  ⟨_, _, words_scanFrom_token start c [] hword (htail _)⟩

/-- Blanks before the first word are none. -/
theorem words_scanFrom_dropBlanks (start : Nat) (cs : List Char) :
    words (scanFrom start cs) =
      words (scanFrom (start + byteLength (cs.takeWhile isBlank))
        (cs.dropWhile isBlank)) := by
  cases cs with
  | nil => rfl
  | cons c cs =>
      by_cases hc : isBlank c = true
      · have hkind : TokenKind.ofFirst c = .whitespace := by
          rw [TokenKind.ofFirst, if_pos hc]
        have hdrop : (cs.takeWhile isBlank ++ cs.dropWhile isBlank).drop
            (cs.takeWhile isBlank).length = cs.dropWhile isBlank :=
              List.drop_left
        rw [List.takeWhile_append_dropWhile] at hdrop
        rw [scanFrom_cons, first, hkind, TokenKind.tail, hdrop,
          List.takeWhile_cons, if_pos hc, List.dropWhile_cons, if_pos hc]
        rfl
      · rw [List.takeWhile_cons, if_neg hc, List.dropWhile_cons, if_neg hc]
        rfl

theorem words_scanFrom_blank (start : Nat) (rest : List Char) :
    words (scanFrom start (' ' :: rest)) =
      words (scanFrom (start + 1) rest) := by
  have hblank : isBlank ' ' = true := rfl
  rw [words_scanFrom_dropBlanks start, words_scanFrom_dropBlanks (start + 1),
    List.takeWhile_cons, if_pos hblank, List.dropWhile_cons, if_pos hblank,
    byteLength_cons, ← Nat.add_assoc]
  rfl

end Token

theorem OperatorKind.exists_sign (kind : OperatorKind) :
    ∃ c, kind.sign.toList = [c] ∧ TokenKind.ofFirst c = kind.tokenKind ∧
      (TokenKind.ofFirst c).isWhitespace = false ∧
      ∀ cs, (TokenKind.ofFirst c).tail cs = [] := by
  cases kind with
  | add => exact ⟨'+', rfl, rfl, rfl, fun _ => rfl⟩
  | mul => exact ⟨'*', rfl, rfl, rfl, fun _ => rfl⟩

/-! ## Canonical trees -/

/-- A tree of the canonical text of an expression: every operation stands in a
pair of parentheses of its own, and there are no others. -/
inductive Tree.Canonical : Tree → Expr → Prop where
  | number (n : Number) (s : Span) :
      Canonical (.literal (.number ⟨n.value, s⟩)) (.num n)
  | name (v : Variable) (s : Span) :
      Canonical (.literal (.symbol ⟨v.name, s⟩)) (.var v)
  | operation {kind : OperatorKind} {l r : Expr} {t u : Tree}
      (left : Canonical t l)
      (right : Canonical u r) (s p q : Span) :
      Canonical (.group (.binary t ⟨kind, s⟩ u p) q) (kind.apply l r)

theorem toExpr_number (n : Number) (s : Span) :
    (Tree.literal (.number ⟨n.value, s⟩)).toExpr = .ok (.num n) := by
  have hn : Number.ofFloat n.value = .ok n := by
    rw [Number.ofFloat, dif_pos ⟨n.finite, n.nonneg⟩, dif_neg n.ne_negativeZero]
  rw [Tree.toExpr_literal, Literal.toExpr, Literal.toLeaf, Expr.ofFloat, hn]
  rfl

theorem toExpr_name (v : Variable) (s : Span) :
    (Tree.literal (.symbol ⟨v.name, s⟩)).toExpr = .ok (.var v) := by
  have hv : Variable.ofName v.name = .ok v := dif_pos v.valid
  rw [Tree.toExpr_literal, Literal.toExpr, Literal.toLeaf, Expr.ofName, hv]
  rfl

theorem toExpr_operation {kind : OperatorKind} {l r : Expr} {t u : Tree}
    {s : Span} (ht : t.toExpr = .ok l) (hu : u.toExpr = .ok r) (p q : Span) :
    (Tree.group (.binary t ⟨kind, s⟩ u p) q).toExpr = .ok (kind.apply l r) := by
  rw [Tree.toExpr_group, Tree.toExpr_binary, ht, hu]
  rfl

theorem Tree.Canonical.toExpr_eq {t : Tree} {e : Expr} (h : t.Canonical e) :
    t.toExpr = .ok e := by
  induction h with
  | number n s => exact toExpr_number n s
  | name v s => exact toExpr_name v s
  | operation left right s p q ihl ihr => exact toExpr_operation ihl ihr p q

/-! ## Reading back -/

/-- What may follow a canonical text: a blank, a closing parenthesis or
nothing. -/
def Closes (rest : List Char) : Prop := ∀ c ∈ rest.head?, c = ' ' ∨ c = ')'

/-- Wherever the characters stand, their words are those of an operand that
stands for the expression. -/
def ReadsBack (e : Expr) (cs : List Char) : Prop :=
  ∀ (start : Nat) (rest : List Char), Closes rest → ∃ ts stop t,
    Token.words (Token.scanFrom start (cs ++ rest)) =
      ts ++ Token.words (Token.scanFrom stop rest) ∧
    Derives .primitive ts t ∧ t.toExpr = .ok e

/-- Wherever the characters stand, their words are those of an operand with a
canonical tree of the expression. -/
def SpellsOut (e : Expr) (cs : List Char) : Prop :=
  ∀ (start : Nat) (rest : List Char), Closes rest → ∃ ts stop t,
    Token.words (Token.scanFrom start (cs ++ rest)) =
      ts ++ Token.words (Token.scanFrom stop rest) ∧
    Derives .primitive ts t ∧ t.Canonical e

theorem SpellsOut.readsBack {e : Expr} {cs : List Char} (h : SpellsOut e cs) :
    ReadsBack e cs := by
  intro start rest hrest
  obtain ⟨ts, stop, t, hts, ht, hcanonical⟩ := h start rest hrest
  exact ⟨ts, stop, t, hts, ht, hcanonical.toExpr_eq⟩

/-- A numeral is one token. -/
theorem Decimal.Numeral.exists_tail {ts : List Char} {d : Decimal}
    (h : Decimal.Numeral ts d) :
    ∃ c cs, ts = c :: cs ∧ c.isDigit = true ∧
      ∀ rest, Closes rest → TokenKind.numberTail (cs ++ rest) = cs := by
  cases h with
  | whole nonempty digits =>
      obtain ⟨c, cs, rfl⟩ := List.exists_cons_of_ne_nil nonempty
      refine ⟨c, cs, rfl, digits c (by simp), fun rest hrest => ?_⟩
      have hcs : ∀ x ∈ cs, x.isDigit = true :=
        fun x hx => digits x (by simp [hx])
      have hend : ∀ x ∈ rest.head?, x.isDigit = false := by
        intro x hx
        rcases hrest x hx with rfl | rfl <;> rfl
      unfold TokenKind.numberTail
      rw [dropWhile_row hcs hend, takeWhile_row hcs hend]
      split
      · rcases hrest '.' rfl with h | h <;> cases h
      · rfl
  | @pointed ws ds whole_nonempty fraction_nonempty digits =>
      obtain ⟨c, cs, rfl⟩ := List.exists_cons_of_ne_nil whole_nonempty
      refine ⟨c, cs ++ '.' :: ds, rfl, digits c (by simp), fun rest hrest => ?_⟩
      have hcs : ∀ x ∈ cs, x.isDigit = true :=
        fun x hx => digits x (by simp [hx])
      have hds : ∀ x ∈ ds, x.isDigit = true :=
        fun x hx => digits x (by simp [hx])
      have hpoint : ∀ x ∈ ('.' :: (ds ++ rest)).head?, x.isDigit = false := by
        rintro x ⟨⟩
        rfl
      have hend : ∀ x ∈ rest.head?, x.isDigit = false := by
        intro x hx
        rcases hrest x hx with rfl | rfl <;> rfl
      unfold TokenKind.numberTail
      rw [List.append_assoc, List.cons_append, dropWhile_row hcs hpoint,
        takeWhile_row hcs hpoint]
      show cs ++ '.' :: List.takeWhile Char.isDigit (ds ++ rest) = _
      rw [takeWhile_row hds hend]

theorem Decimal.Numeral.words_scanFrom {ts rest : List Char} {d : Decimal}
    (h : Decimal.Numeral ts d) (start : Nat) (hrest : Closes rest) :
    ∃ span stop, Token.words (Token.scanFrom start (ts ++ rest)) =
        ⟨.number, span, String.ofList ts⟩ ::
          Token.words (Token.scanFrom stop rest) := by
  obtain ⟨c, cs, rfl, hdigit, htail⟩ := h.exists_tail
  have hk := TokenKind.ofFirst_of_isDigit hdigit
  have hscan := Token.words_scanFrom_token start c cs (by rw [hk]; rfl) (by
    rw [hk]
    exact htail rest hrest)
  rw [hk] at hscan
  exact ⟨_, _, hscan⟩

theorem Decimal.Numeral.isNumber {s : String} {d : Decimal}
    (h : Decimal.Numeral s.toList d) (hfinite : d.toFloat.isFinite = true)
    (span : Span) :
    Token.IsNumber ⟨.number, span, s⟩ := by
  refine ⟨rfl, h.getLast?_ne, ?_⟩
  rw [Token.value, h.ofNumeral]
  exact hfinite

theorem Token.words_scanFrom_name {cs rest : List Char} (start : Nat)
    (nonempty : cs ≠ []) (letters : ∀ c ∈ cs, c.isAlpha = true)
    (hrest : Closes rest) : ∃ span stop, words (scanFrom start (cs ++ rest)) =
        ⟨.name, span, String.ofList cs⟩ :: words (scanFrom stop rest) := by
  obtain ⟨c, cs, rfl⟩ := List.exists_cons_of_ne_nil nonempty
  have hk := TokenKind.ofFirst_of_isAlpha (letters c (by simp))
  have hend : ∀ x ∈ rest.head?, x.isAlpha = false := by
    intro x hx
    rcases hrest x hx with rfl | rfl <;> rfl
  have hscan := words_scanFrom_token start c cs (by rw [hk]; rfl) (by
    rw [hk]
    exact takeWhile_row (fun x hx => letters x (by simp [hx])) hend)
  rw [hk] at hscan
  exact ⟨_, _, hscan⟩

theorem spellsOut_number (n : Number) : SpellsOut (.num n) n.text.toList := by
  intro start rest hrest
  obtain ⟨d, hd, hvalue⟩ := n.text_spec
  obtain ⟨span, stop, hscan⟩ := hd.words_scanFrom start hrest
  rw [String.ofList_toList] at hscan
  have hnumber := hd.isNumber (by rw [hvalue]; exact n.finite) span
  refine ⟨[_], stop, _, hscan, .number hnumber, ?_⟩
  rw [Token.value, hd.ofNumeral, hvalue]
  exact .number n _

theorem spellsOut_name (v : Variable) : SpellsOut (.var v) v.name.toList := by
  intro start rest hrest
  obtain ⟨hne, halpha⟩ := isValidName_iff.mp v.valid
  obtain ⟨span, stop, hscan⟩ := Token.words_scanFrom_name start hne halpha hrest
  refine ⟨[_], stop, _, hscan, .name rfl, ?_⟩
  rw [String.ofList_toList]
  exact .name v _

/-! ## Sums and products -/

theorem Derives.operation {kind : OperatorKind} {us vs : List Token}
    {l r : Tree} {sign : Token} (hl : Derives .primitive us l)
    (hs : sign.kind = kind.tokenKind) (hr : Derives .primitive vs r) :
    Derives .sum (us ++ sign :: vs)
      (.binary l ⟨kind, sign.span⟩ r (l.span.through r.span)) := by
  cases kind with
  | add => exact hl.factor.term.plus hs hr.factor
  | mul => exact (hl.factor.times hs hr).term

def operationText (kind : OperatorKind) (left right : List Char) : List Char :=
  '(' :: (left ++ ' ' :: (kind.sign.toList ++ ' ' :: (right ++ [')'])))

theorem toList_text_apply (kind : OperatorKind) (l r : Expr) :
    (kind.apply l r).text.toList =
      operationText kind l.text.toList r.text.toList := by
  cases kind <;>
    simp [OperatorKind.apply, Expr.text, operationText, OperatorKind.sign]

/-- If the operands are spelled out, so is the operation. -/
theorem SpellsOut.operation {kind : OperatorKind} {l r : Expr}
    {cs ds : List Char} (hl : SpellsOut l cs) (hr : SpellsOut r ds) :
    SpellsOut (kind.apply l r) (operationText kind cs ds) := by
  intro start rest hrest
  obtain ⟨c, hsign, hkind, hword, htail⟩ := kind.exists_sign
  have hshape : operationText kind cs ds ++ rest =
      '(' :: (cs ++ ' ' :: c :: ' ' :: (ds ++ ')' :: rest)) := by
    simp [operationText, hsign]
  -- the words of the text from the left to the right
  obtain ⟨span₁, place₁, hopen⟩ := Token.exists_mark start '('
    (cs ++ ' ' :: c :: ' ' :: (ds ++ ')' :: rest)) rfl fun _ => rfl
  obtain ⟨us, place₂, t, hus, ht, hte⟩ := hl place₁
    (' ' :: c :: ' ' :: (ds ++ ')' :: rest)) (by rintro x ⟨⟩; exact Or.inl rfl)
  obtain ⟨span₃, place₃, hs⟩ := Token.exists_mark (place₂ + 1) c
    (' ' :: (ds ++ ')' :: rest)) hword htail
  obtain ⟨vs, place₄, u, hvs, hu, hue⟩ := hr (place₃ + 1) (')' :: rest)
    (by rintro x ⟨⟩; exact Or.inr rfl)
  obtain ⟨span₅, place₅, hclose⟩ :=
    Token.exists_mark place₄ ')' rest rfl fun _ => rfl
  have hopening : (Token.mk (.ofFirst '(') span₁ (String.ofList ['('])).kind =
    .openParen := rfl
  have hsk : (Token.mk (.ofFirst c) span₃ (String.ofList [c])).kind =
    kind.tokenKind := hkind
  have hclosing : (Token.mk (.ofFirst ')') span₅ (String.ofList [')'])).kind =
    .closeParen := rfl
  refine ⟨_, place₅, _, ?_, .group hopening (ht.operation hsk hu) hclosing,
    .operation hte hue _ _ _⟩
  rw [hshape, hopen, hus, Token.words_scanFrom_blank, hs,
    Token.words_scanFrom_blank, hvs, hclose]
  simp

theorem Expr.spellsOut (e : Expr) : SpellsOut e e.text.toList := by
  induction e with
  | num n => exact spellsOut_number n
  | var v => exact spellsOut_name v
  | sum l r ihl ihr =>
      have h : SpellsOut (OperatorKind.add.apply l r) _ :=
        ihl.operation ihr
      rwa [← toList_text_apply] at h
  | prod l r ihl ihr =>
      have h : SpellsOut (OperatorKind.mul.apply l r) _ :=
        ihl.operation ihr
      rwa [← toList_text_apply] at h

theorem Expr.readsBack (e : Expr) : ReadsBack e e.text.toList :=
  e.spellsOut.readsBack

/-- The canonical text of an expression is read as the expression: the same
tree with the same leaves, down to the bits of its numbers. -/
theorem Expr.parse_text (e : Expr) : parse e.text none = .ok e := by
  obtain ⟨ts, stop, t, hts, ht, hte⟩ := e.readsBack 0 [] (by rintro c ⟨⟩)
  have hnil : Token.words [] = [] := rfl
  rw [List.append_nil, Token.scanFrom_nil, hnil, List.append_nil] at hts
  have hparse : Tree.parse e.text none = .ok t := by
    rw [Tree.parse_eq_ok, Token.scan, hts]
    exact ht.factor.term
  rw [parse, hparse, Except.bind, hte]
  rfl

end PolyAlgebra
