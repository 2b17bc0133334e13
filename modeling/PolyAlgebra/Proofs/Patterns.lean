import Mathlib
import PolyAlgebra.Proofs.Canonical

/-!
# Patterns of tokens

Every kind of token has a pattern, a regular language. The token at a place is
the longest text there that is in any pattern, and if two patterns hold texts
of that length, the one of higher priority decides. The scanner looks at the
first character only to choose a kind, and stops at the first character that
does not fit. This module shows that it finds the same.
-/

open scoped Computability

namespace PolyAlgebra

def oneOf (p : Char → Bool) : Language Char := {w | ∃ c, p c = true ∧ w = [c]}

section Classes

variable {p : Char → Bool} {w : List Char}

theorem mem_kstar_oneOf : w ∈ (oneOf p)∗ ↔ ∀ c ∈ w, p c = true := by
  rw [Language.mem_kstar]
  constructor
  · rintro ⟨ws, rfl, hws⟩ c hc
    obtain ⟨v, hv, hcv⟩ := List.mem_flatten.mp hc
    obtain ⟨d, hd, rfl⟩ := hws v hv
    obtain rfl := List.mem_singleton.mp hcv
    exact hd
  · intro hw
    refine ⟨w.map fun c => [c], ?_, fun v hv => ?_⟩
    · rw [← List.flatMap_def, List.flatMap_singleton']
    · obtain ⟨c, hc, rfl⟩ := List.mem_map.mp hv
      exact ⟨c, hw c hc, rfl⟩

theorem mem_oneOf_mul {l : Language Char} :
    w ∈ oneOf p * l ↔ ∃ c v, p c = true ∧ v ∈ l ∧ w = c :: v := by
  rw [Language.mem_mul]
  constructor
  · rintro ⟨_, ⟨c, hc, rfl⟩, v, hv, rfl⟩
    exact ⟨c, v, hc, hv, rfl⟩
  · rintro ⟨c, v, hc, hv, rfl⟩
    exact ⟨[c], ⟨c, hc, rfl⟩, v, hv, rfl⟩

theorem cons_mem_row {c : Char} :
    c :: w ∈ oneOf p * (oneOf p)∗ ↔ p c = true ∧ ∀ d ∈ w, p d = true := by
  simp only [mem_oneOf_mul, mem_kstar_oneOf, List.cons.injEq]
  constructor
  · rintro ⟨_, _, hc, hw, rfl, rfl⟩
    exact ⟨hc, hw⟩
  · rintro ⟨hc, hw⟩
    exact ⟨c, w, hc, hw, rfl, rfl⟩

end Classes

namespace TokenKind

/-- The texts of the tokens of a kind. The texts of symbols are those of any
one character that does not end a line. -/
def pattern : TokenKind → Language Char
  | whitespace => oneOf isBlank * (oneOf isBlank)∗
  | add => {['+']}
  | mul => {['*']}
  | openParen => {['(']}
  | closeParen => {[')']}
  | name => oneOf Char.isAlpha * (oneOf Char.isAlpha)∗
  | number =>
      oneOf Char.isDigit * (oneOf Char.isDigit)∗ * (1 + {['.']}) *
        (oneOf Char.isDigit)∗
  | symbol => oneOf (· != '\n')

/-- The pattern of symbols gives way to any other that holds the same text. -/
def priority : TokenKind → Nat
  | symbol => 0
  | _ => 1

def Continues : TokenKind → List Char → Char → Prop
  | whitespace, _, c => isBlank c = true
  | name, _, c => c.isAlpha = true
  | number, w, c => c.isDigit = true ∨ (c = '.' ∧ '.' ∉ w)
  | _, _, _ => False

/-- The text is the longest that stands at the beginning of `cs` and is in any
pattern, and its kind has the highest priority of those whose pattern holds
it. -/
structure LongestMatch (kind : TokenKind) (text cs : List Char) : Prop where
  stands : text <+: cs
  fits : text ∈ kind.pattern
  longest : ∀ other w, w <+: cs → w ∈ pattern other →
    w.length < text.length ∨
      w.length = text.length ∧ (other = kind ∨ other.priority < kind.priority)

variable {kind : TokenKind} {c : Char} {w cs rest : List Char}

/-! ## First characters -/

theorem cons_mem_pattern_number :
    c :: w ∈ pattern number ↔ c.isDigit = true ∧ ((∀ d ∈ w, d.isDigit = true) ∨
      ∃ us vs, w = us ++ '.' :: vs ∧ (∀ d ∈ us, d.isDigit = true) ∧
        ∀ d ∈ vs, d.isDigit = true) := by
  rw [pattern, mul_assoc, mul_assoc, mem_oneOf_mul]
  simp only [Language.mem_mul, Language.mem_add, Language.mem_one,
    mem_kstar_oneOf, List.cons.injEq]
  constructor
  · rintro ⟨_, _, hc, ⟨us, hus, _, ⟨point, rfl | rfl, vs, hvs, rfl⟩, rfl⟩, rfl,
      rfl⟩
    · refine ⟨hc, Or.inl fun d hd => ?_⟩
      rcases List.mem_append.mp hd with hd | hd
      · exact hus d hd
      · exact hvs d hd
    · exact ⟨hc, Or.inr ⟨us, vs, rfl, hus, hvs⟩⟩
  · rintro ⟨hc, hw | ⟨us, vs, rfl, hus, hvs⟩⟩
    · exact ⟨c, w, hc, ⟨w, hw, [], ⟨[], Or.inl rfl, [], by simp, rfl⟩, by simp⟩,
        rfl, rfl⟩
    · exact ⟨c, _, hc, ⟨us, hus, _, ⟨['.'], Or.inr rfl, vs, hvs, rfl⟩, rfl⟩,
        rfl, rfl⟩

theorem cons_mem_pattern_symbol :
    c :: w ∈ pattern symbol ↔ c ≠ '\n' ∧ w = [] := by
  constructor
  · rintro ⟨d, hd, heq⟩
    obtain ⟨rfl, rfl⟩ := List.cons.inj heq
    exact ⟨by simpa using hd, rfl⟩
  · rintro ⟨hc, rfl⟩
    exact ⟨c, by simpa using hc, rfl⟩

/-- No pattern holds the empty text. -/
theorem ne_nil_of_mem_pattern (h : w ∈ kind.pattern) : w ≠ [] := by
  rintro rfl
  cases kind with
  | whitespace | name =>
      obtain ⟨_, _, _, _, heq⟩ := mem_oneOf_mul.mp h
      cases heq
  | number =>
      rw [pattern, mul_assoc, mul_assoc] at h
      obtain ⟨_, _, _, _, heq⟩ := mem_oneOf_mul.mp h
      cases heq
  | add | mul | openParen | closeParen => cases h
  | symbol =>
      obtain ⟨_, _, heq⟩ := h
      cases heq

theorem ofFirst_of_isBlank (h : isBlank c = true) : ofFirst c = whitespace := by
  rw [ofFirst, if_pos h]

/-- The first character of a text in a pattern fixes the kind, unless it is one
character of any kind. -/
theorem ofFirst_of_mem_pattern (h : c :: w ∈ kind.pattern)
    (hkind : kind ≠ symbol) :
    ofFirst c = kind := by
  cases kind with
  | whitespace => exact ofFirst_of_isBlank (cons_mem_row.mp h).1
  | add | mul | openParen | closeParen =>
      obtain ⟨rfl, -⟩ := List.cons.inj (show c :: w = [_] from h)
      rfl
  | name => exact ofFirst_of_isAlpha (cons_mem_row.mp h).1
  | number => exact ofFirst_of_isDigit (cons_mem_pattern_number.mp h).1
  | symbol => exact absurd rfl hkind

theorem singleton_mem_pattern (c : Char) : [c] ∈ (ofFirst c).pattern := by
  have hc := begins_ofFirst c
  cases hkind : ofFirst c with
  | whitespace | name =>
      rw [hkind] at hc
      exact cons_mem_row.mpr ⟨hc, by simp⟩
  | add | mul | openParen | closeParen =>
      rw [hkind] at hc
      obtain rfl := hc
      rfl
  | number =>
      rw [hkind] at hc
      exact cons_mem_pattern_number.mpr ⟨hc, Or.inl (by simp)⟩
  | symbol =>
      refine cons_mem_pattern_symbol.mpr ⟨?_, rfl⟩
      rintro rfl
      rw [ofFirst_of_isBlank rfl] at hkind
      cases hkind

theorem ofFirst_eq_symbol
    (h : ∀ other, other ≠ symbol → ∀ v, c :: v ∉ pattern other) :
    ofFirst c = symbol := by
  by_contra hne
  exact h _ hne [] (singleton_mem_pattern c)

/-! ## Where a token ends -/

/-- The rest of a number: all digits up to what is no digit, and if that is a
point, the point and all digits behind it. -/
theorem numberTail_cases (cs : List Char) :
    (numberTail cs = cs.takeWhile Char.isDigit ∧
      ∀ d ∈ (cs.dropWhile Char.isDigit).head?, d ≠ '.') ∨
    ∃ rest, cs.dropWhile Char.isDigit = '.' :: rest ∧
      numberTail cs =
        cs.takeWhile Char.isDigit ++ '.' :: rest.takeWhile Char.isDigit := by
  unfold numberTail
  split
  · next rest h => exact Or.inr ⟨rest, h, rfl⟩
  · next h =>
      refine Or.inl ⟨rfl, ?_⟩
      rintro d hd rfl
      obtain ⟨rest, hrest⟩ := List.head?_eq_some_iff.mp hd
      exact h rest hrest

theorem numberTail_point {us : List Char} (hus : ∀ d ∈ us, d.isDigit = true)
    (cs : List Char) :
    numberTail (us ++ '.' :: cs) = us ++ '.' :: cs.takeWhile Char.isDigit := by
  have hpoint : ∀ d ∈ ('.' :: cs).head?, d.isDigit = false := by
    rintro d ⟨⟩
    rfl
  rw [numberTail, dropWhile_row hus hpoint, takeWhile_row hus hpoint]
  rfl

/-- A token goes on while it fits its pattern. -/
theorem cons_tail_mem_pattern (c : Char) (cs : List Char) :
    c :: (ofFirst c).tail cs ∈ (ofFirst c).pattern := by
  have hc := begins_ofFirst c
  have hrow : ∀ p : Char → Bool, ∀ ds : List Char, ∀ d ∈ ds.takeWhile p,
      p d = true :=
    fun p ds d hd => List.all_eq_true.mp List.all_takeWhile d hd
  have hsingle := singleton_mem_pattern c
  cases hkind : ofFirst c with
  | whitespace | name =>
      rw [hkind] at hc
      exact cons_mem_row.mpr ⟨hc, hrow _ cs⟩
  | number =>
      rw [hkind] at hc
      refine cons_mem_pattern_number.mpr ⟨hc, ?_⟩
      rcases numberTail_cases cs with ⟨htail, -⟩ | ⟨rest, -, htail⟩
      · exact Or.inl fun d hd => hrow _ cs d (htail ▸ hd)
      · exact Or.inr ⟨_, _, htail, hrow _ cs, hrow _ rest⟩
  | add | mul | openParen | closeParen | symbol =>
      rw [hkind] at hsingle
      exact hsingle

/-- A token of the text ends before `rest` if it cannot go on with what stands
there. -/
theorem tail_append (h : c :: w ∈ kind.pattern)
    (hrest : ∀ d ∈ rest.head?, ¬kind.Continues (c :: w) d) :
    kind.tail (w ++ rest) = w := by
  cases kind with
  | whitespace | name =>
      exact takeWhile_row (cons_mem_row.mp h).2 fun d hd =>
        Bool.eq_false_iff.mpr (hrest d hd)
  | number =>
      have hdigit : ∀ d ∈ rest.head?, d.isDigit = false := fun d hd =>
        Bool.eq_false_iff.mpr fun hd' => hrest d hd (Or.inl hd')
      obtain ⟨hc, hw | ⟨us, vs, rfl, hus, hvs⟩⟩ := cons_mem_pattern_number.mp h
      · show numberTail (w ++ rest) = w
        rcases numberTail_cases (w ++ rest) with ⟨htail, -⟩ | ⟨behind, hdrop, -⟩
        · rw [htail, takeWhile_row hw hdigit]
        · -- a point would continue a row of digits
          rw [dropWhile_row hw hdigit] at hdrop
          subst hdrop
          refine absurd (Or.inr ⟨rfl, fun hmem => ?_⟩) (hrest '.' rfl)
          rcases List.mem_cons.mp hmem with rfl | hmem
          · cases hc
          · cases hw '.' hmem
      · show numberTail (us ++ '.' :: vs ++ rest) = _
        rw [List.append_assoc, List.cons_append, numberTail_point hus,
          takeWhile_row hvs hdigit]
  | add | mul | openParen | closeParen =>
      obtain ⟨-, rfl⟩ := List.cons.inj (show c :: w = [_] from h)
      rfl
  | symbol =>
      obtain ⟨-, rfl⟩ := cons_mem_pattern_symbol.mp h
      rfl

/-- No text in the pattern that stands there is longer than the token. -/
theorem length_le_tail (h : c :: w ∈ kind.pattern) (hw : w <+: cs) :
    w.length ≤ (kind.tail cs).length := by
  obtain ⟨rest, rfl⟩ := hw
  cases kind with
  | whitespace | name =>
      simp only [tail, List.takeWhile_append_of_pos (cons_mem_row.mp h).2,
        List.length_append]
      exact Nat.le_add_right _ _
  | number =>
      show w.length ≤ (numberTail (w ++ rest)).length
      obtain ⟨-, hrow | ⟨us, vs, rfl, hus, hvs⟩⟩ := cons_mem_pattern_number.mp h
      · rcases numberTail_cases (w ++ rest) with ⟨htail, -⟩ | ⟨behind, -, htail⟩
        · rw [htail, List.takeWhile_append_of_pos hrow, List.length_append]
          exact Nat.le_add_right _ _
        · rw [htail, List.takeWhile_append_of_pos hrow, List.append_assoc,
            List.length_append]
          exact Nat.le_add_right _ _
      · rw [List.append_assoc, List.cons_append, numberTail_point hus,
          List.takeWhile_append_of_pos hvs]
        simp only [List.length_append, List.length_cons]
        omega
  | add | mul | openParen | closeParen =>
      obtain ⟨-, rfl⟩ := List.cons.inj (show c :: w = [_] from h)
      exact Nat.zero_le _
  | symbol =>
      obtain ⟨-, rfl⟩ := cons_mem_pattern_symbol.mp h
      exact Nat.zero_le _

/-- A token that could go on with a character fits its pattern with it as
well. -/
theorem concat_mem_pattern {d : Char} (h : c :: w ∈ kind.pattern)
    (hd : kind.Continues (c :: w) d) : c :: (w ++ [d]) ∈ kind.pattern := by
  cases kind with
  | whitespace | name =>
      obtain ⟨hc, hw⟩ := cons_mem_row.mp h
      refine cons_mem_row.mpr ⟨hc, fun e he => ?_⟩
      rcases List.mem_append.mp he with he | he
      · exact hw e he
      · obtain rfl := List.mem_singleton.mp he
        exact hd
  | number =>
      obtain ⟨hc, hw⟩ := cons_mem_pattern_number.mp h
      refine cons_mem_pattern_number.mpr ⟨hc, ?_⟩
      rcases hd with hd | ⟨rfl, hpoint⟩
      · rcases hw with hw | ⟨us, vs, rfl, hus, hvs⟩
        · exact Or.inl (by simpa [or_imp, forall_and] using ⟨hw, hd⟩)
        · refine Or.inr ⟨us, vs ++ [d], by simp, hus, ?_⟩
          simpa [or_imp, forall_and] using ⟨hvs, hd⟩
      · rcases hw with hw | ⟨us, vs, rfl, -, -⟩
        · exact Or.inr ⟨w, [], rfl, hw, by simp⟩
        · exact absurd (by simp) hpoint
  | add | mul | openParen | closeParen | symbol => cases hd

theorem not_continues_tail (c : Char) (cs : List Char) :
    ∀ d ∈ (cs.drop ((ofFirst c).tail cs).length).head?,
      ¬(ofFirst c).Continues (c :: (ofFirst c).tail cs) d := by
  intro d hd hcontinues
  obtain ⟨rest, hrest⟩ := List.head?_eq_some_iff.mp hd
  -- with `d` the token would be longer than any text that fits
  have hfits := concat_mem_pattern (cons_tail_mem_pattern c cs) hcontinues
  have hstands : (ofFirst c).tail cs ++ [d] <+: cs := by
    have hcs := Token.tail_append_drop (ofFirst c) cs
    rw [hrest] at hcs
    exact ⟨rest, by rw [List.append_assoc]; exact hcs⟩
  have hle := length_le_tail hfits hstands
  rw [List.length_append, List.length_singleton] at hle
  omega

/-! ## Longest matches -/

theorem longestMatch_first (c : Char) (cs : List Char) :
    LongestMatch (ofFirst c) (c :: (ofFirst c).tail cs) (c :: cs) := by
  refine ⟨?_, cons_tail_mem_pattern c cs, ?_⟩
  · rw [List.prefix_cons_inj]
    exact Token.isPrefix_tail _ _
  · intro other w hw hfits
    obtain ⟨d, v, rfl⟩ :=
      List.exists_cons_of_ne_nil (ne_nil_of_mem_pattern hfits)
    obtain ⟨rfl, hv⟩ := List.cons_prefix_cons.mp hw
    simp only [List.length_cons, Nat.add_lt_add_iff_right,
      Nat.add_right_cancel_iff]
    by_cases hkind : other = symbol
    · -- a symbol is one character, and gives way to another kind
      subst hkind
      obtain ⟨-, rfl⟩ := cons_mem_pattern_symbol.mp hfits
      rcases Nat.eq_zero_or_pos ((ofFirst d).tail cs).length with hzero | hpos
      · refine Or.inr ⟨hzero.symm, ?_⟩
        cases ofFirst d <;> decide
      · exact Or.inl hpos
    · obtain rfl := ofFirst_of_mem_pattern hfits hkind
      rcases Nat.lt_or_eq_of_le (length_le_tail hfits hv) with hlt | heq
      · exact Or.inl hlt
      · exact Or.inr ⟨heq, Or.inl rfl⟩

theorem LongestMatch.unique {other : TokenKind} {v : List Char}
    (h : LongestMatch kind w cs) (h' : LongestMatch other v cs) :
    other = kind ∧ v = w := by
  have hlength : v.length = w.length := by
    rcases h.longest other v h'.stands h'.fits with hlt | ⟨heq, -⟩
    · rcases h'.longest kind w h.stands h.fits with hlt' | ⟨heq, -⟩
      · omega
      · exact heq.symm
    · exact heq
  have hvw : v = w :=
    (List.prefix_of_prefix_length_le h'.stands h.stands hlength.le).eq_of_length
    hlength
  subst hvw
  refine ⟨?_, rfl⟩
  rcases h.longest other v h'.stands h'.fits with hlt | ⟨-, heq | hlow⟩
  · exact absurd hlt (Nat.lt_irrefl _)
  · exact heq
  · rcases h'.longest kind v h.stands h.fits with hlt | ⟨-, heq | hhigh⟩
    · exact absurd hlt (Nat.lt_irrefl _)
    · exact heq.symm
    · omega

end TokenKind

end PolyAlgebra
