import PolyAlgebra.Proofs.Scanning
import PolyAlgebra.Proofs.Sentences

/-!
# The shape and the reading of trees

The trees of derivations are grouped in one way only: to the left within rows
of equal signs, and more tightly around `*` than around `+`, unless
parentheses group otherwise. Read in order, such a tree gives back the words
from which it was made. The main result is that a source is read exactly if
its words are a sentence, and that the tree is that of its derivation.
-/

namespace PolyAlgebra

/-! ## Shape -/

namespace Tree

/-- The operation at the root of a tree, unless parentheses are around it. -/
def root? : Tree → Option OperatorKind
  | binary _ op _ _ => some op.kind
  | _ => none

/-- Rows of equal signs are grouped to the left, and a product has no sum as an
operand that is not in parentheses. -/
def Layered : Tree → Prop
  | literal _ => True
  | group inner _ => inner.Layered
  | binary lhs op rhs _ =>
      lhs.Layered ∧ rhs.Layered ∧ rhs.root? ≠ some op.kind ∧
        (op.kind = .mul → lhs.root? ≠ some .add ∧ rhs.root? ≠ some .add)

def Fits (t : Tree) : Phrase → Prop
  | .sum => t.Layered
  | .product => t.Layered ∧ t.root? ≠ some .add
  | .primitive => t.Layered ∧ t.root? = none

end Tree

theorem Derives.fits {phrase : Phrase} {ts : List Token} {t : Tree}
    (h : Derives phrase ts t) : t.Fits phrase := by
  induction h using Derives.byOperands with
  | number h | name h => exact ⟨trivial, rfl⟩
  | group hopen inner hclose ih => exact ⟨ih, rfl⟩
  | factor h ih => exact ⟨ih.1, by simp [ih.2]⟩
  | term h ih => exact ih.1
  | times hl hs hr ihl ihr =>
      -- a primitive has no operation at its root
      obtain ⟨hlayered, hroot⟩ := ihr
      refine ⟨⟨ihl.1, hlayered, ?_, fun _ => ⟨ihl.2, ?_⟩⟩, ?_⟩
      · simp [hroot]
      · simp [hroot]
      · simp [Tree.root?]
  | plus hl hs hr ihl ihr => exact ⟨ihl, ihr.1, ihr.2, by rintro ⟨⟩⟩

/-! ## Reading -/

inductive Glyph where
  | number (value : Float)
  | name (s : String)
  | operator (kind : OperatorKind)
  | openParen
  | closeParen

/-- What a word says and where, if it belongs to the language. -/
def Token.glyph? (t : Token) : Option (Glyph × Span) :=
  match t.kind with
  | .number => some (.number t.value, t.span)
  | .name => some (.name t.lexeme, t.span)
  | .add => some (.operator .add, t.span)
  | .mul => some (.operator .mul, t.span)
  | .openParen => some (.openParen, t.span)
  | .closeParen => some (.closeParen, t.span)
  | _ => none

/-- What a tree says, read in order. A parenthesis takes one byte. -/
def Tree.glyphs : Tree → List (Glyph × Span)
  | literal (.number l) => [(.number l.value, l.span)]
  | literal (.symbol l) => [(.name l.name, l.span)]
  | group inner s =>
      (.openParen, ⟨s.start, s.start + 1⟩) ::
        (inner.glyphs ++ [(.closeParen, ⟨s.stop - 1, s.stop⟩)])
  | binary lhs op rhs _ =>
      lhs.glyphs ++ (.operator op.kind, op.span) :: rhs.glyphs

def Tree.Echoes (t : Tree) (ts : List Token) : Prop :=
  ts.map Token.glyph? = t.glyphs.map some

theorem OperatorKind.glyph?_of_kind {kind : OperatorKind} {sign : Token}
    (h : sign.kind = kind.tokenKind) :
    sign.glyph? = some (.operator kind, sign.span) := by
  cases kind <;> simp [Token.glyph?, h, tokenKind]

theorem Tree.Echoes.operation {kind : OperatorKind} {ts us : List Token}
    {l r : Tree} {sign : Token} (hl : l.Echoes ts)
    (hs : sign.kind = kind.tokenKind) (hr : r.Echoes us) (s : Span) :
    (binary l ⟨kind, sign.span⟩ r s).Echoes (ts ++ sign :: us) := by
  simp only [Echoes] at hl hr ⊢
  simp [glyphs, hl, hr, OperatorKind.glyph?_of_kind hs]

theorem Derives.echoes {phrase : Phrase} {ts : List Token} {t : Tree}
    (h : Derives phrase ts t)
    (hparen : ∀ u ∈ ts, u.kind = .openParen ∨ u.kind = .closeParen →
      u.span.stop = u.span.start + 1) : t.Echoes ts := by
  induction h using Derives.byOperands with
  | number h => simp [Tree.Echoes, Tree.glyphs, Token.glyph?, h.kind]
  | name h => simp [Tree.Echoes, Tree.glyphs, Token.glyph?, h]
  | @group opening closing ts t hopen inner hclose ih =>
      have ho := hparen opening (by simp) (Or.inl hopen)
      have hc := hparen closing (by simp) (Or.inr hclose)
      have hi := ih fun u hu => hparen u (by simp [hu])
      obtain ⟨_, ⟨start, stop⟩, _⟩ := opening
      obtain ⟨_, ⟨start', stop'⟩, _⟩ := closing
      dsimp only at hopen hclose ho hc
      subst hopen hclose ho hc
      simp only [Tree.Echoes] at hi ⊢
      simp [Tree.glyphs, Token.glyph?, Span.through, hi]
  | factor h ih | term h ih => exact ih hparen
  | times hl hs hr ihl ihr | plus hl hs hr ihl ihr =>
      have hleft := ihl fun u hu => hparen u (by simp [hu])
      have hright := ihr fun u hu => hparen u (by simp [hu])
      exact hleft.operation hs hright _

/-! ## Sentences and trees -/

/-- A source is read as an expression exactly if its words are a sentence. The
tree is then that of the derivation, which is the only one; it is grouped as
the grammar groups, and read in order it says what the words say. -/
theorem Tree.parse_iff_isSentence (source : String) :
    ((∃ t, Tree.parse source none = .ok t) ↔
      IsSentence (Token.words (Token.scan source))) ∧
    ∀ t, Tree.parse source none = .ok t →
      Derives .sum (Token.words (Token.scan source)) t ∧
      (∀ u, Derives .sum (Token.words (Token.scan source)) u → u = t) ∧
      t.Layered ∧ t.Echoes (Token.words (Token.scan source)) := by
  constructor
  · exact exists_congr fun t => Tree.parse_eq_ok
  · intro t h
    have hd := Tree.parse_eq_ok.mp h
    have hechoes : t.Echoes (Token.words (Token.scan source)) := by
      apply hd.echoes
      intro u hu hk
      exact Token.stop_of_paren (List.mem_filter.mp hu).1 hk
    exact ⟨hd, fun u hu => hu.unique hd, hd.fits, hechoes⟩

end PolyAlgebra
