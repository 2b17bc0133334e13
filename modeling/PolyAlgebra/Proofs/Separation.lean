import PolyAlgebra.Proofs.Pointing
import PolyAlgebra.Proofs.Printing

/-!
# Blanks separate

Blanks separate words and mean nothing else. Two sources with the same words
are both read, as the same expression, or both refused, for the same cause at
the same word. The words of both are one row at different places, and a run
over words at other places is the run over the words, with everything that it
makes moved along. The places of the two sources need not correspond: two
words may touch in one of them only, so that one place is the end of a word
and the beginning of the next. Therefore both are compared with a row in which
no two ends of words coincide.
-/

namespace PolyAlgebra

/-! ## Words without places -/

namespace Token

/-- What a token says, wherever it stands. -/
def said (t : Token) : TokenKind × String := (t.kind, t.lexeme)

/-- Words that say something, at places of which no two coincide. -/
def spaced : List (TokenKind × String) → List Token
  | [] => []
  | (kind, lexeme) :: rest =>
      ⟨kind, ⟨0, 1⟩, lexeme⟩ :: (spaced rest).map (relocate (· + 2))

/-- Where the spaced places are in a row of tokens that ends at the byte
`stop`. -/
def placeIn (stop : Nat) : List Token → Nat → Nat
  | [], _ => stop
  | t :: _, 0 => t.span.start
  | t :: _, 1 => t.span.stop
  | _ :: ts, place + 2 => placeIn stop ts place

variable (stop : Nat) (ts : List Token)

theorem relocate_relocate (f g : Nat → Nat) (t : Token) :
    (t.relocate f).relocate g = t.relocate (g ∘ f) := rfl

theorem map_relocate_spaced :
    (spaced (ts.map said)).map (relocate (placeIn stop ts)) = ts := by
  induction ts with
  | nil => rfl
  | cons t ts ih =>
      have hrest : relocate (placeIn stop (t :: ts)) ∘ relocate (· + 2) =
          relocate (placeIn stop ts) := by
        funext u
        rw [Function.comp_apply, relocate_relocate]
        rfl
      rw [List.map_cons, said, spaced, List.map_cons, List.map_map, hrest, ih]
      rfl

theorem placeIn_stop : placeIn stop ts (2 * ts.length) = stop := by
  induction ts with
  | nil => rfl
  | cons t ts ih => exact ih

end Token

/-! ## Sources as spaced words -/

def saidBy (source : String) : List (TokenKind × String) :=
  (Token.words (Token.scan source)).map Token.said

def placesIn (source : String) : Nat → Nat :=
  Token.placeIn source.utf8ByteSize (Token.words (Token.scan source))

theorem map_relocate_saidBy (source : String) :
    (Token.spaced (saidBy source)).map (Token.relocate (placesIn source)) =
      Token.words (Token.scan source) :=
  Token.map_relocate_spaced _ _

theorem placesIn_stop (source : String) :
    placesIn source (2 * (saidBy source).length) = source.utf8ByteSize := by
  rw [saidBy, List.length_map]
  exact Token.placeIn_stop _ _

/-- Reading a source is a run over spaced words, moved. -/
theorem Tree.parse_eq_spaced (source : String) (limit : Option Nat) :
    parse source limit =
      relocated (placesIn source) (Tree.relocate (placesIn source))
      (Stage.run limit (2 * (saidBy source).length)
        (Token.spaced (saidBy source)) .start) := by
  rw [parse_eq_run, Parser.stop_ofSource, byteLength_toList, ← placesIn_stop,
    ← map_relocate_saidBy]
  exact Stage.run_relocate (placesIn source)
    (Token.spaced (saidBy source)) .start

/-! ## Sources with the same words -/

/-- The places are where the same word of two sources begins, or where both
sources end. -/
inductive PlacesMatch (source source' : String) : Nat → Nat → Prop where
  | word {i : Nat} {u u' : Token}
      (first : (Token.words (Token.scan source))[i]? = some u)
      (second : (Token.words (Token.scan source'))[i]? = some u') :
      PlacesMatch source source' u.span.start u'.span.start
  | finish : PlacesMatch source source' source.utf8ByteSize source'.utf8ByteSize

/-- The faults differ at most in their places, which begin where the same word
of two sources begins. -/
structure Fault.Matches (source source' : String) (f f' : Fault) : Prop where
  cause : f.cause = f'.cause
  fatal : f.fatal = f'.fatal
  places : ∃ s s', f.spans = [s] ∧ f'.spans = [s'] ∧
    PlacesMatch source source' s.start s'.start

/-- The errors are of one sort, and their faults differ at most in their
places. -/
inductive ParseError.Matches (source source' : String) :
    ParseError → ParseError → Prop where
  | grammar {f f' : Fault} (faults : f.Matches source source' f') :
      Matches source source' (.grammar f) (.grammar f')
  | number {f f' : Fault} (faults : f.Matches source source' f') :
      Matches source source' (.number f) (.number f')

/-- A fault points at the beginning of a word or at the end. -/
theorem Fault.Points.start_cases {stop : Nat} {ts : List Token} {f : Fault}
    (h : f.Points stop ts) :
    ∃ s, f.spans = [s] ∧
      ((∃ u ∈ ts, s.start = u.span.start) ∨ s.start = stop) := by
  cases h with
  | row words_eq legible head final spans cause =>
      have hfirst := List.mem_of_head? head
      exact ⟨_, spans, Or.inl ⟨_, by simp [words_eq, hfirst], rfl⟩⟩
  | rest words_eq legible spans cause =>
      exact ⟨_, spans, Or.inl ⟨_, by simp [words_eq], rfl⟩⟩
  | finish legible spans cause => exact ⟨_, spans, Or.inr rfl⟩

section SameWords

variable {source source' : String} (hsaid : saidBy source = saidBy source')

include hsaid

theorem placesMatch_of_spaced {place : Nat}
    (h : (∃ u ∈ Token.spaced (saidBy source), place = u.span.start) ∨
      place = 2 * (saidBy source).length) :
    PlacesMatch source source' (placesIn source place)
      (placesIn source' place) := by
  rcases h with ⟨u, hu, rfl⟩ | rfl
  · obtain ⟨i, hi⟩ := List.getElem?_of_mem hu
    have hword : ∀ s, saidBy source = saidBy s →
        (Token.words (Token.scan s))[i]? = some (u.relocate (placesIn s)) := by
      intro s hs
      rw [← map_relocate_saidBy, List.getElem?_map, ← hs, hi]
      rfl
    exact .word (hword source rfl) (hword source' hsaid)
  · have hend := placesIn_stop source'
    rw [← hsaid] at hend
    rw [placesIn_stop, hend]
    exact .finish

theorem matches_relocate {f : Fault}
    (h : f.Points (2 * (saidBy source).length) (Token.spaced (saidBy source))) :
    (f.relocate (placesIn source)).Matches source source'
      (f.relocate (placesIn source')) := by
  obtain ⟨s, hs, hplace⟩ := h.start_cases
  have hspans : ∀ g, (f.relocate g).spans = [s.relocate g] := by
    intro g
    rw [Fault.relocate, hs, List.map_singleton]
  exact ⟨rfl, rfl, _, _, hspans _, hspans _, placesMatch_of_spaced hsaid hplace⟩

/-- Sources with the same words are read as the same tree, but for the places,
or refused for the same fault. -/
theorem Tree.parse_cases (limit : Option Nat) :
    (∃ t : Tree, parse source limit = .ok (t.relocate (placesIn source)) ∧
      parse source' limit = .ok (t.relocate (placesIn source'))) ∨
    ∃ f f', parse source limit = .error f ∧ parse source' limit = .error f' ∧
      f.Matches source source' f' := by
  have hfirst := parse_eq_spaced source limit
  have hsecond := parse_eq_spaced source' limit
  rw [← hsaid] at hsecond
  cases hrun : Stage.run limit (2 * (saidBy source).length)
    (Token.spaced (saidBy source))
    .start with
  | ok t =>
      rw [hrun] at hfirst hsecond
      exact Or.inl ⟨t, hfirst, hsecond⟩
  | error f =>
      rw [hrun] at hfirst hsecond
      exact Or.inr ⟨_, _, hfirst, hsecond,
        matches_relocate hsaid (Stage.points_of_run hrun)⟩

end SameWords

/-- The sort of an error depends on the cause of its fault only. -/
theorem Fault.Matches.ofFault {source source' : String} {f f' : Fault}
    (h : f.Matches source source' f') :
    ParseError.Matches source source' (.ofFault f) (.ofFault f') := by
  unfold ParseError.ofFault
  rw [← h.cause]
  split
  · exact .number h
  · exact .grammar h

namespace Expr

variable {source source' : String}

/-- **Blanks separate.** If the words of two sources are of the same kinds and
have the same texts in the same order, then for every limit both sources are
read as the same expression, or both are refused: with errors of one sort,
with the same cause, both final or not, and at the beginning of the same word
or both at the end. -/
theorem parse_of_same_words (h : saidBy source = saidBy source')
    (limit : Option Nat) :
    (∃ e, parse source limit = .ok e ∧ parse source' limit = .ok e) ∨
    ∃ err err', parse source limit = .error err ∧
      parse source' limit = .error err' ∧
      err.Matches source source' err' := by
  rcases Tree.parse_cases h limit with ⟨t, hfirst, hsecond⟩
    | ⟨f, f', hfirst, hsecond, hmatch⟩
  · obtain ⟨e, he⟩ := Tree.toExpr_of_valid (Tree.valid_of_parse hfirst)
    have he' : (t.relocate (placesIn source')).toExpr = .ok e :=
      Tree.toExpr_relocate.mpr (Tree.toExpr_relocate.mp he)
    exact Or.inl ⟨e, parse_of_tree hfirst he, parse_of_tree hsecond he'⟩
  · refine Or.inr ⟨_, _, ?_, ?_, hmatch.ofFault⟩
    · rw [parse, hfirst]
      rfl
    · rw [parse, hsecond]
      rfl

/-- Both sources are refused at the division, which is their third word. -/
theorem parse_of_same_words_division :
    ∃ err err', parse "(x / y)" (some 3) = .error err ∧
      parse " ( x/y)" (some 3) = .error err' ∧
      err.Matches "(x / y)" " ( x/y)" err' := by
  have hsaid : saidBy "(x / y)" = saidBy " ( x/y)" := by cbv
  have hrefused : parse "(x / y)" (some 3) =
      .error (.grammar ⟨[⟨3, 4⟩], .unsupportedOperator "/", true⟩) := by cbv
  rcases parse_of_same_words hsaid (some 3) with ⟨e, he, -⟩ | herror
  · rw [hrefused] at he
    cases he
  · exact herror

end Expr

end PolyAlgebra
