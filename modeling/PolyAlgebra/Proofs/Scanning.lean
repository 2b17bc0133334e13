import Mathlib.Tactic.ByContra
import Mathlib.Tactic.SplitIfs
import PolyAlgebra.Proofs.Words

/-!
# The tokens of a source

What is true of each token of a source, whatever stands around it, and where
the last of them ends.
-/

namespace PolyAlgebra

namespace Token

/-- The token that begins with a character at a place, given what follows. -/
def first (place : Nat) (c : Char) (cs : List Char) : Token where
  kind := .ofFirst c
  span := ⟨place, place + byteLength (c :: (TokenKind.ofFirst c).tail cs)⟩
  lexeme := String.ofList (c :: (TokenKind.ofFirst c).tail cs)

theorem scanFrom_nil (start : Nat) : scanFrom start [] = [] := by
  rw [scanFrom]

theorem scanFrom_cons (start : Nat) (c : Char) (cs : List Char) :
    scanFrom start (c :: cs) =
      first start c cs :: scanFrom (first start c cs).span.stop
        (cs.drop ((TokenKind.ofFirst c).tail cs).length) := by
  rw [scanFrom]
  rfl

/-- To show something of all sources, tokens may be taken away from the
left. -/
@[elab_as_elim]
theorem scanFrom_induction {motive : Nat → List Char → Prop}
    (nil : ∀ start, motive start [])
    (cons : ∀ start c cs, motive (first start c cs).span.stop
      (cs.drop ((TokenKind.ofFirst c).tail cs).length) → motive start (c :: cs))
    (start : Nat) (cs : List Char) : motive start cs := by
  induction hn : cs.length using Nat.strongRecOn generalizing start cs with
  | ind n ih =>
      subst hn
      cases cs with
      | nil => exact nil start
      | cons c cs =>
          refine cons start c cs (ih _ ?_ _ _ rfl)
          rw [List.length_drop, List.length_cons]
          omega

theorem exists_first_of_mem {start : Nat} {cs : List Char} {t : Token}
    (h : t ∈ scanFrom start cs) : ∃ place c rest, t = first place c rest := by
  induction start, cs using scanFrom_induction with
  | nil start => simp [scanFrom_nil] at h
  | cons start c cs ih =>
      rw [scanFrom_cons, List.mem_cons] at h
      rcases h with rfl | h
      · exact ⟨start, c, cs, rfl⟩
      · exact ih h

end Token

/-! ## First characters -/

def TokenKind.Begins : TokenKind → Char → Prop
  | whitespace, c => isBlank c = true
  | add, c => c = '+'
  | mul, c => c = '*'
  | openParen, c => c = '('
  | closeParen, c => c = ')'
  | name, c => c.isAlpha = true
  | number, c => c.isDigit = true
  | symbol, _ => True

theorem TokenKind.begins_ofFirst (c : Char) : (ofFirst c).Begins c := by
  unfold ofFirst
  split_ifs with hblank hadd hmul hopen hclose hname hnumber
  · exact hblank
  · exact eq_of_beq hadd
  · exact eq_of_beq hmul
  · exact eq_of_beq hopen
  · exact eq_of_beq hclose
  · exact hname
  · exact hnumber
  · trivial

namespace TokenKind

theorem isBlank_of_isAlphanum {c : Char} (h : c.isAlphanum = true) :
    isBlank c = false := by
  by_contra hb
  simp only [isBlank, Bool.not_eq_false, Bool.or_eq_true, beq_iff_eq] at hb
  rcases hb with ((rfl | rfl) | rfl) | rfl <;> cases h

theorem isBlank_of_isDigit {c : Char} (h : c.isDigit = true) :
    isBlank c = false :=
  isBlank_of_isAlphanum (by rw [Char.isAlphanum, h, Bool.or_true])

theorem isBlank_of_isAlpha {c : Char} (h : c.isAlpha = true) :
    isBlank c = false :=
  isBlank_of_isAlphanum (by rw [Char.isAlphanum, h, Bool.true_or])

theorem isWhitespace_ofFirst (c : Char) :
    (ofFirst c).isWhitespace = isBlank c := by
  cases hb : isBlank c with
  | true =>
      rw [ofFirst, hb]
      rfl
  | false =>
      have hc := begins_ofFirst c
      cases hk : ofFirst c with
      | whitespace =>
          rw [hk, Begins, hb] at hc
          cases hc
      | _ => rfl

end TokenKind

namespace Token

theorem stop_of_paren {start : Nat} {cs : List Char} {t : Token}
    (h : t ∈ scanFrom start cs)
    (hk : t.kind = .openParen ∨ t.kind = .closeParen) :
    t.span.stop = t.span.start + 1 := by
  obtain ⟨place, c, rest, rfl⟩ := exists_first_of_mem h
  have hc := TokenKind.begins_ofFirst c
  simp only [first] at hk ⊢
  rcases hk with hk | hk <;> rw [hk] at hc ⊢ <;> obtain rfl := hc <;> rfl

/-! ## The end of a source -/

theorem isPrefix_numberTail (cs : List Char) :
    TokenKind.numberTail cs <+: cs := by
  unfold TokenKind.numberTail
  split
  · next rest h =>
      have hcs := List.takeWhile_append_dropWhile (p := Char.isDigit) (l := cs)
      rw [h] at hcs
      conv => rhs; rw [← hcs]
      obtain ⟨tail, htail⟩ := List.takeWhile_prefix (l := rest) Char.isDigit
      exact ⟨tail, by rw [List.append_assoc, List.cons_append, htail]⟩
  · exact List.takeWhile_prefix _

theorem isPrefix_tail (kind : TokenKind) (cs : List Char) :
    kind.tail cs <+: cs := by
  cases kind with
  | whitespace | name => exact List.takeWhile_prefix _
  | number => exact isPrefix_numberTail cs
  | _ => exact List.nil_prefix

/-- A token and what follows it make up the source. -/
theorem tail_append_drop (kind : TokenKind) (cs : List Char) :
    kind.tail cs ++ cs.drop (kind.tail cs).length = cs :=
  List.prefix_iff_eq_append.mp (isPrefix_tail kind cs)

theorem stop_first_add (start : Nat) (c : Char) (cs : List Char) :
    (first start c cs).span.stop +
      byteLength (cs.drop ((TokenKind.ofFirst c).tail cs).length) =
      start + byteLength (c :: cs) := by
  have hcs := tail_append_drop (TokenKind.ofFirst c) cs
  conv => rhs; rw [← hcs]
  simp only [first, byteLength_cons, byteLength_append]
  omega

theorem stop_getLast_scanFrom (start : Nat) (cs : List Char) :
    ((scanFrom start cs).getLast?.map fun t => t.span.stop).getD start =
      start + byteLength cs := by
  induction start, cs using scanFrom_induction with
  | nil start => simp [scanFrom_nil]
  | cons start c cs ih =>
      rw [← stop_first_add, ← ih, scanFrom_cons, List.getLast?_cons]
      cases (scanFrom (first start c cs).span.stop
        (cs.drop ((TokenKind.ofFirst c).tail cs).length)).getLast? <;> rfl

end Token

namespace Parser

theorem stop_ofSource (source : String) (limit : Option Nat) :
    (ofSource source limit).stop = byteLength source.toList := by
  have h := Token.stop_getLast_scanFrom 0 source.toList
  rwa [Nat.zero_add] at h

end Parser

end PolyAlgebra
