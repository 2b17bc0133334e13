import PolyAlgebra.Proofs.Canonical
import PolyAlgebra.Proofs.Limits
import PolyAlgebra.Proofs.Lowering
import PolyAlgebra.Proofs.Shape
import PolyAlgebra.Proofs.Slices

/-!
# Texts of trees read back

The text of a tree has parentheses only where the tree has them. Its words are
those of the literals, operators and parentheses of the tree in order, and
they are always a sentence, since each operator stands between two sentences.
But the grammar may group them in its own way: the tree that is read is the
one that was written exactly if that one is grouped as the grammar groups.

The canonical text of an expression has a pair of parentheses around every sum
and product, and a pair of parentheses counts as much as an operator. So the
tree of the text is twice as high as sums and products are nested in the
expression. The text of an expression that was read under a limit may
therefore need a limit twice as high.
-/

namespace PolyAlgebra

/-! ## Trees without places -/

theorem Literal.standsFor_relocate {l : Literal} {f : Nat → Nat} {e : Expr} :
    (l.relocate f).StandsFor e ↔ l.StandsFor e := by
  cases l with
  | number l =>
      exact ⟨fun | .number h => .number h, fun | .number h => .number h⟩
  | symbol l =>
      exact ⟨fun | .symbol h => .symbol h, fun | .symbol h => .symbol h⟩

namespace Tree

/-- The tree without its places: all of them are at zero. -/
def unplaced (t : Tree) : Tree := t.relocate fun _ => 0

variable {t : Tree} {f : Nat → Nat}

theorem text_relocate (f : Nat → Nat) (t : Tree) :
    (t.relocate f).text = t.text := by
  induction t with
  | literal l => cases l <;> rfl
  | group inner s ih => rw [relocate, text, text, ih]
  | binary lhs op rhs s ihl ihr => rw [relocate, text, text, ihl, ihr]

theorem root?_relocate (f : Nat → Nat) (t : Tree) :
    (t.relocate f).root? = t.root? := by
  cases t <;> rfl

theorem layered_relocate : (t.relocate f).Layered ↔ t.Layered := by
  induction t with
  | literal l => exact Iff.rfl
  | group inner s ih => exact ih
  | binary lhs op rhs s ihl ihr =>
      rw [relocate, Layered, Layered, ihl, ihr, root?_relocate, root?_relocate]

/-- What a tree stands for does not depend on its places. -/
theorem toExpr_relocate {e : Expr} :
    (t.relocate f).toExpr = .ok e ↔ t.toExpr = .ok e := by
  induction t generalizing e with
  | literal l =>
      rw [relocate, toExpr_literal, toExpr_literal, Literal.toExpr_eq_ok,
        Literal.toExpr_eq_ok, Literal.standsFor_relocate]
  | group inner s ih => rw [relocate, toExpr_group, toExpr_group, ih]
  | binary lhs op rhs s ihl ihr =>
      rw [relocate, toExpr_binary_eq_ok, toExpr_binary_eq_ok]
      simp only [ihl, ihr]

end Tree

/-! ## Words of trees -/

def Token.bare (kind : TokenKind) (lexeme : String) : Token :=
  ⟨kind, ⟨0, 0⟩, lexeme⟩

/-- The words of the text of a tree, without their places. -/
def Tree.spoken : Tree → List Token
  | literal (.number l) => [.bare .number l.text]
  | literal (.symbol l) => [.bare .name l.name]
  | group inner _ =>
      .bare .openParen "(" :: (inner.spoken ++ [.bare .closeParen ")"])
  | binary lhs op rhs _ =>
      lhs.spoken ++ .bare op.kind.tokenKind op.kind.sign :: rhs.spoken

namespace IsSentence

variable {us vs : List Token} {sign : Token} {t : Tree}

/-- One more primitive behind a sentence is a factor of its last term, or a
term. -/
theorem join_primitive (hu : IsSentence us) (hs : sign.IsSign)
    (hv : Derives .primitive vs t) :
    IsSentence (us ++ sign :: vs) := by
  obtain ⟨l, hl⟩ := hu
  rcases hs with hs | hs
  · exact ⟨_, hl.plus hs hv.factor⟩
  · generalize hphrase : Phrase.sum = phrase at hl
    induction hl using Derives.byOperands with
    | number _ | name _ | group _ _ _ _ | factor _ _ | times _ _ _ _ _ =>
        cases hphrase
    | term hl ih => exact ⟨_, (hl.times hs hv).term⟩
    -- behind a sum the primitive is a factor of the last term only
    | plus hl hplus hr ihl ihr =>
        rw [List.append_assoc, List.cons_append]
        exact ⟨_, hl.plus hplus (hr.times hs hv)⟩

/-- An operator stands between two sentences. -/
theorem join (hu : IsSentence us) (hs : sign.IsSign) (hv : IsSentence vs) :
    IsSentence (us ++ sign :: vs) := by
  obtain ⟨r, hr⟩ := hv
  generalize Phrase.sum = phrase at hr
  induction hr using Derives.byOperands with
  | number h => exact hu.join_primitive hs (.number h)
  | name h => exact hu.join_primitive hs (.name h)
  | group hopen inner hclose ih =>
      exact hu.join_primitive hs (.group hopen inner hclose)
  | factor h ih | term h ih => exact ih
  | times hl hmul hr ihl ihr =>
      have h := ihl.join_primitive (Or.inr hmul) hr
      rwa [List.append_assoc, List.cons_append] at h
  | plus hl hadd hr ihl ihr =>
      obtain ⟨l, hl'⟩ := ihl
      have h := hl'.plus hadd hr
      rw [List.append_assoc, List.cons_append] at h
      exact ⟨_, h⟩

end IsSentence

theorem OperatorKind.isSign_bare (kind : OperatorKind) (lexeme : String) :
    (Token.bare kind.tokenKind lexeme).IsSign := by
  cases kind with
  | add => exact Or.inl rfl
  | mul => exact Or.inr rfl

theorem Derives.of_primitive {phrase : Phrase} {ts : List Token} {t : Tree}
    (h : Derives .primitive ts t) : Derives phrase ts t := by
  cases phrase with
  | sum => exact h.factor.term
  | product => exact h.factor
  | primitive => exact h

/-- The word of a literal that a source can hold is a primitive, and its tree
is the literal. -/
theorem Literal.Readable.derives {l : Literal} (h : l.Readable) :
    Derives .primitive (Tree.literal l).spoken (Tree.literal l).unplaced := by
  cases l with
  | number l =>
      obtain ⟨⟨hfinite, hle⟩, hz⟩ := Binary64.isMagnitude_iff.mp h
      obtain ⟨d, hd, hvalue⟩ := Number.plain_spec ⟨l.value, hfinite, hle, hz⟩
      have hnumber := hd.isNumber (by rw [hvalue]; exact hfinite) ⟨0, 0⟩
      have hderives := Derives.number hnumber
      rw [Token.value, hd.ofNumeral, hvalue] at hderives
      exact hderives
  | symbol l => exact .name rfl

namespace Tree

variable {t : Tree}

/-- The words of the text of a tree are a sentence, however the tree is
grouped. -/
theorem isSentence_spoken (h : ∀ l ∈ t.literals, l.Readable) :
    IsSentence t.spoken := by
  induction t with
  | literal l =>
      exact ⟨_, (h l (List.mem_singleton_self l)).derives.of_primitive⟩
  | group inner s ih =>
      obtain ⟨u, hu⟩ := ih h
      have hopening : (Token.bare .openParen "(").kind = .openParen := rfl
      have hclosing : (Token.bare .closeParen ")").kind = .closeParen := rfl
      exact ⟨_, (Derives.group hopening hu hclosing).of_primitive⟩
  | binary lhs op rhs s ihl ihr =>
      have hl := ihl fun l hl => h l (List.mem_append_left _ hl)
      have hr := ihr fun l hl => h l (List.mem_append_right _ hl)
      exact hl.join (op.kind.isSign_bare _) hr

theorem Fits.layered {phrase : Phrase} (h : t.Fits phrase) : t.Layered := by
  cases phrase with
  | sum => exact h
  | product | primitive => exact h.1

theorem root?_eq_none (hadd : t.root? ≠ some .add)
    (hmul : t.root? ≠ some .mul) :
    t.root? = none := by
  cases h : t.root? with
  | none => rfl
  | some kind =>
      rw [h] at hadd hmul
      cases kind with
      | add => exact absurd rfl hadd
      | mul => exact absurd rfl hmul

theorem unplaced_binary (lhs : Tree) (op : Operator) (rhs : Tree) (s : Span) :
    (binary lhs op rhs s).unplaced =
      binary lhs.unplaced ⟨op.kind, ⟨0, 0⟩⟩ rhs.unplaced
        (lhs.unplaced.span.through rhs.unplaced.span) := by
  rw [unplaced, unplaced, unplaced, span_relocate, span_relocate]
  rfl

/-- If a tree is grouped as the grammar groups, its words have a derivation
with that tree. -/
theorem derives_spoken {phrase : Phrase} (h : ∀ l ∈ t.literals, l.Readable)
    (hfits : t.Fits phrase) : Derives phrase t.spoken t.unplaced := by
  induction t generalizing phrase with
  | literal l => exact (h l (List.mem_singleton_self l)).derives.of_primitive
  | group inner s ih =>
      have hinner : inner.Fits .sum := hfits.layered
      have hopening : (Token.bare .openParen "(").kind = .openParen := rfl
      have hclosing : (Token.bare .closeParen ")").kind = .closeParen := rfl
      exact (Derives.group hopening (ih h hinner) hclosing).of_primitive
  | binary lhs op rhs s ihl ihr =>
      obtain ⟨kind, place⟩ := op
      obtain ⟨hl, hr, hroot, hmul⟩ := hfits.layered
      have hleft : ∀ l ∈ lhs.literals, l.Readable :=
        fun l hl => h l (List.mem_append_left _ hl)
      have hright : ∀ l ∈ rhs.literals, l.Readable :=
        fun l hl => h l (List.mem_append_right _ hl)
      rw [unplaced_binary]
      cases kind with
      | add =>
          have hsum : Derives .sum lhs.spoken lhs.unplaced := ihl hleft hl
          have hterm : Derives .product rhs.spoken rhs.unplaced :=
            ihr hright ⟨hr, hroot⟩
          have hsign : (Token.bare .add "+").kind = .add := rfl
          cases phrase with
          | sum => exact hsum.plus hsign hterm
          | product => exact absurd rfl hfits.2
          | primitive => cases hfits.2
      | mul =>
          obtain ⟨hladd, hradd⟩ := hmul rfl
          have hproduct : Derives .product lhs.spoken lhs.unplaced :=
            ihl hleft ⟨hl, hladd⟩
          have hfactor : Derives .primitive rhs.spoken rhs.unplaced :=
            ihr hright ⟨hr, root?_eq_none hradd hroot⟩
          have hsign : (Token.bare .mul "*").kind = .mul := rfl
          cases phrase with
          | sum => exact (hproduct.times hsign hfactor).term
          | product => exact hproduct.times hsign hfactor
          | primitive => cases hfits.2

end Tree

/-! ## Words of texts -/

namespace Token

/-- The words of a row of characters, without their places. -/
def bareWords (cs : List Char) : List Token :=
  (words (scanFrom 0 cs)).map (relocate fun _ => 0)

theorem bareWords_nil : bareWords [] = [] := by
  rw [bareWords, scanFrom_nil]
  rfl

/-- Without their places, words are the same wherever the characters stand. -/
theorem map_words_scanFrom (start : Nat) (cs : List Char) :
    (words (scanFrom start cs)).map (relocate fun _ => 0) = bareWords cs := by
  have h := scanFrom_add start 0 cs
  rw [Nat.zero_add] at h
  rw [h, words_map_relocate, List.map_map]
  rfl

theorem bareWords_of_next {cs rest : List Char} {kind : TokenKind} {span : Span}
    {lexeme : String} {stop : Nat} (h : words (scanFrom 0 cs) =
      ⟨kind, span, lexeme⟩ :: words (scanFrom stop rest)) :
    bareWords cs = bare kind lexeme :: bareWords rest := by
  rw [bareWords, h, List.map_cons, map_words_scanFrom]
  rfl

theorem bareWords_mark (c : Char) (rest : List Char)
    (hword : (TokenKind.ofFirst c).isWhitespace = false)
    (htail : ∀ cs, (TokenKind.ofFirst c).tail cs = []) :
    bareWords (c :: rest) =
      bare (.ofFirst c) (String.ofList [c]) :: bareWords rest := by
  obtain ⟨span, stop, h⟩ := exists_mark 0 c rest hword htail
  exact bareWords_of_next h

theorem bareWords_blank (rest : List Char) :
    bareWords (' ' :: rest) = bareWords rest := by
  rw [bareWords, words_scanFrom_blank, map_words_scanFrom]

end Token

namespace Tree

variable {t : Tree}

/-- The text of a tree says what the tree says, and so does any text that
begins with it. -/
theorem bareWords_text (h : ∀ l ∈ t.literals, l.Readable) {rest : List Char}
    (hrest : Closes rest) :
    Token.bareWords (t.text.toList ++ rest) =
      t.spoken ++ Token.bareWords rest := by
  induction t generalizing rest with
  | literal l =>
      have hl := h l (List.mem_singleton_self l)
      cases l with
      | number l =>
          obtain ⟨⟨hfinite, hle⟩, hz⟩ := Binary64.isMagnitude_iff.mp hl
          obtain ⟨d, hd, -⟩ := Number.plain_spec ⟨l.value, hfinite, hle, hz⟩
          obtain ⟨span, stop, hscan⟩ := hd.words_scanFrom 0 hrest
          rw [String.ofList_toList] at hscan
          exact Token.bareWords_of_next hscan
      | symbol l =>
          obtain ⟨span, stop, hscan⟩ :=
            Token.words_scanFrom_name 0 hl.1 hl.2 hrest
          rw [String.ofList_toList] at hscan
          exact Token.bareWords_of_next hscan
  | group inner s ih =>
      have hshape : (group inner s).text.toList ++ rest =
          '(' :: (inner.text.toList ++ ')' :: rest) := by simp [text]
      have hinner : Closes (')' :: rest) := by
        rintro c ⟨⟩
        exact Or.inr rfl
      rw [hshape, Token.bareWords_mark '(' _ rfl fun _ => rfl, ih h hinner,
        Token.bareWords_mark ')' _ rfl fun _ => rfl, spoken, List.cons_append,
        List.append_assoc]
      rfl
  | binary lhs op rhs s ihl ihr =>
      obtain ⟨c, hsign, hkind, hword, htail⟩ := op.kind.exists_sign
      have hshape : (binary lhs op rhs s).text.toList ++ rest =
          lhs.text.toList ++ ' ' :: c :: ' ' :: (rhs.text.toList ++ rest) := by
        simp [text, hsign]
      have hleft : Closes (' ' :: c :: ' ' :: (rhs.text.toList ++ rest)) := by
        rintro c ⟨⟩
        exact Or.inl rfl
      rw [hshape, ihl (fun l hl => h l (List.mem_append_left _ hl)) hleft,
        Token.bareWords_blank, Token.bareWords_mark c _ hword htail,
        Token.bareWords_blank,
        ihr (fun l hl => h l (List.mem_append_right _ hl)) hrest, spoken,
        List.append_assoc, List.cons_append, hkind, ← hsign,
        String.ofList_toList]

/-! ## Reading texts -/

variable {source : String} {u : Tree}

theorem exists_parse_of_bareWords
    (h : Derives .sum (Token.bareWords source.toList) u) :
    ∃ m, parse source none = .ok m ∧ m.unplaced = u := by
  obtain ⟨m, hm, hmu⟩ := h.exists_of_relocate
  exact ⟨m, parse_eq_ok.mpr hm, hmu⟩

/-- The text of a tree is always read, and as that tree exactly if the tree is
grouped as the grammar groups. -/
theorem exists_parse_text (h : ∀ l ∈ t.literals, l.Readable) :
    ∃ u, parse t.text none = .ok u ∧ (u.unplaced = t.unplaced ↔ t.Layered) := by
  have hend : Closes [] := by rintro c ⟨⟩
  have hwords := bareWords_text h hend
  rw [List.append_nil, Token.bareWords_nil, List.append_nil] at hwords
  obtain ⟨v, hv⟩ := isSentence_spoken h
  obtain ⟨u, hu, -⟩ := exists_parse_of_bareWords (hwords.symm ▸ hv)
  refine ⟨u, hu, fun heq => ?_, fun hlayered => ?_⟩
  · have hfits : u.Layered := (parse_eq_ok.mp hu).fits
    rw [← layered_relocate (f := fun _ => 0), ← unplaced, ← heq]
    exact layered_relocate.mpr hfits
  · have hfits : t.Fits .sum := hlayered
    -- the text is read as one tree only, so any derivation of it will do
    obtain ⟨m, hm, hmt⟩ :=
      exists_parse_of_bareWords (hwords.symm ▸ derives_spoken h hfits)
    obtain rfl := Except.ok.inj (hu.symm.trans hm)
    exact hmt

theorem text_of_unplaced (h : u.unplaced = t.unplaced) : u.text = t.text := by
  rw [← text_relocate (fun _ => 0) u, ← text_relocate (fun _ => 0) t,
    ← unplaced, ← unplaced, h]

/-- Trees that differ in their places only stand for the same expression. -/
theorem toExpr_of_unplaced {e : Expr} (h : u.unplaced = t.unplaced)
    (ht : t.toExpr = .ok e) :
    u.toExpr = .ok e := by
  rw [← toExpr_relocate (f := fun _ => 0)] at ht ⊢
  rw [← unplaced, h]
  exact ht

/-- **Texts of trees.** The text of a tree whose literals a source can hold is
always read. It is read as that tree, but for the places, exactly if the tree
is grouped as the grammar groups. Every tree that was read is grouped so; its
text is read as the same tree, which stands for the same expression and has
the same text. -/
theorem parse_text_iff_layered :
    (∀ t : Tree, (∀ l ∈ t.literals, l.Readable) →
      ∃ u, parse t.text none = .ok u ∧ (u.unplaced = t.unplaced ↔ t.Layered)) ∧
    ∀ source t, parse source none = .ok t → t.Layered ∧
      ∃ u, parse t.text none = .ok u ∧ u.unplaced = t.unplaced ∧
        (∃ e, t.toExpr = .ok e ∧ u.toExpr = .ok e) ∧ u.text = t.text := by
  refine ⟨fun t => exists_parse_text, fun source t h => ?_⟩
  have hlayered : t.Layered := (parse_eq_ok.mp h).fits
  obtain ⟨u, hu, hiff⟩ := exists_parse_text (readable_of_parse h)
  have hut := hiff.mpr hlayered
  obtain ⟨e, he⟩ := toExpr_of_valid (valid_of_parse h)
  exact ⟨hlayered, u, hu, hut, ⟨e, he, toExpr_of_unplaced hut he⟩,
    text_of_unplaced hut⟩

/-- A product whose left factor is a sum without parentheses is read as
another tree. -/
theorem parse_text_iff_layered_regrouped :
    ∃ t u : Tree, t.text = "x + y * z" ∧ parse t.text none = .ok u ∧
      u.unplaced ≠ t.unplaced := by
  obtain ⟨u, hu, hiff⟩ := parse_text_iff_layered.1
    (binary (binary (literal (.symbol ⟨"x", .point 0⟩)) ⟨.add, .point 0⟩
      (literal (.symbol ⟨"y", .point 0⟩)) (.point 0)) ⟨.mul, .point 0⟩
      (literal (.symbol ⟨"z", .point 0⟩)) (.point 0))
    (by simp [literals, Literal.Readable, IsWord])
  refine ⟨_, u, rfl, hu, fun heq => ?_⟩
  obtain ⟨-, -, -, hmul⟩ := hiff.mp heq
  exact (hmul rfl).1 rfl

end Tree

/-! ## Canonical texts under a limit -/

namespace Tree

/-- Every operation of a canonical tree counts twice: once for itself and once
for its parentheses. -/
theorem Canonical.height_eq {t : Tree} {e : Expr} (h : t.Canonical e) :
    t.height = 2 * e.operatorDepth := by
  induction h with
  | number n s => exact height_literal _
  | name v s => exact height_literal _
  | operation left right s p q ihl ihr =>
      rw [height_group, height_binary, ihl, ihr,
        OperatorKind.operatorDepth_apply]
      omega

/-- A source whose tree is higher than the limit is cut off. -/
theorem parse_of_high {source : String} {t : Tree} {m : Nat}
    (h : parse source none = .ok t) (hlt : m < t.height) :
    ∃ u ∈ Token.scan source,
      (u.kind = .add ∨ u.kind = .mul ∨ u.kind = .openParen) ∧
      parse source (some m) = .error (.final u.span (.nestingTooDeep m)) := by
  have hcut : CutOff m (Token.words (Token.scan source)) (parse source (some m))
      (parse source none) := cutOff_parse (by rintro n ⟨⟩)
  rcases hcut with heq | ⟨u, hu, hk, heq⟩
  · have hle := (parse_some_eq_ok.mp (heq.trans h)).2
    omega
  · exact ⟨u, (List.mem_filter.mp hu).1, or_assoc.mp hk, heq⟩

end Tree

namespace Expr

/-- The canonical text of an expression is read as a canonical tree. -/
theorem exists_canonical (e : Expr) :
    ∃ t, Tree.parse e.text none = .ok t ∧ t.Canonical e := by
  obtain ⟨ts, stop, t, hts, ht, hcanonical⟩ := e.spellsOut 0 [] (by rintro c ⟨⟩)
  have hnil : Token.words [] = [] := rfl
  rw [List.append_nil, Token.scanFrom_nil, hnil, List.append_nil] at hts
  refine ⟨t, ?_, hcanonical⟩
  rw [Tree.parse_eq_ok, Token.scan, hts]
  exact ht.factor.term

/-- **The limit that a canonical text needs.** Under a limit the canonical
text of an expression is read as the expression exactly if the limit is at
least twice the number of sums and products on a path. Under any lower limit,
and no other, the text is refused for being nested too deeply: finally, as
malformed, and at an operator or an opening parenthesis. -/
theorem parse_text_under_limit (e : Expr) (m : Nat) :
    (parse e.text (some m) = .ok e ↔ 2 * e.operatorDepth ≤ m) ∧
    ((∃ u ∈ Token.scan e.text,
      (u.kind = .add ∨ u.kind = .mul ∨ u.kind = .openParen) ∧
      parse e.text (some m) =
        .error (.grammar (.final u.span (.nestingTooDeep m)))) ↔
      m < 2 * e.operatorDepth) := by
  obtain ⟨t, ht, hcanonical⟩ := e.exists_canonical
  rw [← hcanonical.height_eq]
  have hlow : t.height ≤ m → parse e.text (some m) = .ok e := by
    intro hle
    exact parse_of_tree (Tree.parse_some_eq_ok.mpr ⟨ht, hle⟩)
      hcanonical.toExpr_eq
  have hhigh : m < t.height → ∃ u ∈ Token.scan e.text,
      (u.kind = .add ∨ u.kind = .mul ∨ u.kind = .openParen) ∧
      parse e.text (some m) =
        .error (.grammar (.final u.span (.nestingTooDeep m))) := by
    intro hlt
    obtain ⟨u, hu, hk, herror⟩ := Tree.parse_of_high ht hlt
    exact ⟨u, hu, hk, parse_of_fault herror⟩
  -- of the two outcomes only one is possible
  refine ⟨⟨?_, hlow⟩, ?_, hhigh⟩
  · intro h
    by_contra hlt
    obtain ⟨u, -, -, herror⟩ := hhigh (Nat.lt_of_not_le hlt)
    rw [h] at herror
    cases herror
  · rintro ⟨u, -, -, h⟩
    by_contra hle
    rw [hlow (Nat.le_of_not_lt hle)] at h
    cases h

end Expr

end PolyAlgebra
