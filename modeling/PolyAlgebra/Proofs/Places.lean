import Mathlib.Data.String.Basic
import PolyAlgebra.Proofs.Slices

/-!
# Where trees stand

The places in a tree that was read are those of its words. A tree spans what
its words span, its parts stand beside and inside each other as they do in the
source, and what a part spans is read by itself as that part.
-/

namespace PolyAlgebra

/-! ## The parts of a tree -/

namespace Tree

def parts : Tree → List Tree
  | literal l => [literal l]
  | group inner s => group inner s :: inner.parts
  | binary lhs op rhs s => binary lhs op rhs s :: (lhs.parts ++ rhs.parts)

theorem self_mem_parts (t : Tree) : t ∈ t.parts := by
  cases t <;> simp [parts]

/-- The tree and what it is made of take up bytes and stand in order: a
literal takes up some, parentheses take up some on both sides of what is
inside them, and an operation runs from its left operand over its sign to its
right operand. -/
def Placed : Tree → Prop
  | literal l => l.span.start < l.span.stop
  | group inner s =>
      s.start < inner.span.start ∧ inner.span.start < inner.span.stop ∧
        inner.span.stop < s.stop
  | binary lhs op rhs s =>
      s = lhs.span.through rhs.span ∧
        lhs.span.start < lhs.span.stop ∧ lhs.span.stop ≤ op.span.start ∧
        op.span.start < op.span.stop ∧ op.span.stop ≤ rhs.span.start ∧
        rhs.span.start < rhs.span.stop

theorem Placed.start_lt_stop {t : Tree} (h : t.Placed) :
    t.span.start < t.span.stop := by
  cases t with
  | literal l => exact h
  | group inner s =>
      obtain ⟨hopen, hinner, hclose⟩ := h
      exact hopen.trans (hinner.trans hclose)
  | binary lhs op rhs s =>
      obtain ⟨rfl, hl, hlop, hop, hopr, hr⟩ := h
      show lhs.span.start < rhs.span.stop
      omega

end Tree

namespace Derives

variable {phrase : Phrase} {ts : List Token} {t n : Tree}

/-- Every phrase is an expression by itself. -/
theorem sum_of_phrase (h : Derives phrase ts t) : Derives .sum ts t := by
  cases phrase with
  | sum => exact h
  | product => exact h.term
  | primitive => exact h.factor.term

/-- Each part of a tree is derived from words that stand in a row. -/
theorem part (h : Derives phrase ts t) (hn : n ∈ t.parts) :
    ∃ ws, ws <:+: ts ∧ Derives .sum ws n := by
  have hself := h.sum_of_phrase
  induction h using Derives.byOperands with
  | number h | name h =>
      obtain rfl := List.mem_singleton.mp hn
      exact ⟨_, List.infix_rfl, hself⟩
  | @group opening closing ts t hopen inner hclose ih =>
      rcases List.mem_cons.mp hn with rfl | hn
      · exact ⟨_, List.infix_rfl, hself⟩
      · obtain ⟨ws, hws, hd⟩ := ih hn inner
        exact ⟨ws, hws.trans ⟨[opening], [closing], rfl⟩, hd⟩
  | factor h ih | term h ih => exact ih hn h.sum_of_phrase
  | @times us vs l r sign hl hs hr ihl ihr
  | @plus us vs l r sign hl hs hr ihl ihr =>
      rcases List.mem_cons.mp hn with rfl | hn
      · exact ⟨_, List.infix_rfl, hself⟩
      rcases List.mem_append.mp hn with hn | hn
      · obtain ⟨ws, hws, hd⟩ := ihl hn hl.sum_of_phrase
        exact ⟨ws, hws.trans (List.prefix_append _ _).isInfix, hd⟩
      · obtain ⟨ws, hws, hd⟩ := ihr hn hr.sum_of_phrase
        exact ⟨ws, hws.trans ⟨us ++ [sign], [], by simp⟩, hd⟩

/-! ## Places -/

theorem exists_span (h : Derives phrase ts t) :
    ∃ first ∈ ts.head?, ∃ last ∈ ts.getLast?,
      t.span = first.span.through last.span := by
  induction h using Derives.byOperands with
  | @number t h | @name t h => exact ⟨t, rfl, t, rfl, rfl⟩
  | @group opening closing ts t hopen inner hclose ih =>
      refine ⟨opening, rfl, closing, ?_, rfl⟩
      rw [← List.cons_append, List.getLast?_concat]
      rfl
  | factor h ih | term h ih => exact ih
  | times hl hs hr ihl ihr | plus hl hs hr ihl ihr =>
      obtain ⟨first, hfirst, lastl, hlastl, hspanl⟩ := ihl
      obtain ⟨firstr, hfirstr, last, hlast, hspanr⟩ := ihr
      refine ⟨first, ?_, last, ?_, ?_⟩
      · rw [List.head?_append, hfirst]
        rfl
      · rw [List.getLast?_append, List.getLast?_cons, hlast]
        rfl
      · rw [Tree.span, hspanl, hspanr]
        rfl

theorem stop_le {place : Nat} (h : Derives phrase ts t)
    (hts : ∀ u ∈ ts, u.span.stop ≤ place) :
    t.span.stop ≤ place := by
  obtain ⟨first, hfirst, last, hlast, hspan⟩ := h.exists_span
  rw [hspan]
  exact hts last (List.mem_of_getLast? hlast)

theorem le_start {place : Nat} (h : Derives phrase ts t)
    (hts : ∀ u ∈ ts, place ≤ u.span.start) : place ≤ t.span.start := by
  obtain ⟨first, hfirst, last, hlast, hspan⟩ := h.exists_span
  rw [hspan]
  exact hts first (List.mem_of_head? hfirst)

/-- If the words take up bytes and stand in order, so do the parts of the
tree. -/
theorem placed (h : Derives phrase ts t)
    (take_up : ∀ u ∈ ts, u.span.start < u.span.stop)
    (ordered : ts.Pairwise Token.Before) : ∀ n ∈ t.parts, n.Placed := by
  induction h using Derives.byOperands with
  | number h | name h =>
      intro n hn
      obtain rfl := List.mem_singleton.mp hn
      exact take_up _ (List.mem_singleton_self _)
  | @group opening closing ts t hopen inner hclose ih =>
      obtain ⟨hbehind, hbefore⟩ := List.pairwise_cons.mp ordered
      obtain ⟨hts, -, hend⟩ := List.pairwise_append.mp hbefore
      have hparts := ih (fun u hu => take_up u (by simp [hu])) hts
      intro n hn
      rcases List.mem_cons.mp hn with rfl | hn
      · refine ⟨?_, (hparts t t.self_mem_parts).start_lt_stop, ?_⟩
        · exact (take_up opening (by simp)).trans_le
            (inner.le_start fun u hu => hbehind u (by simp [hu]))
        · exact (inner.stop_le fun u hu => hend u hu closing (by simp)).trans_lt
            (take_up closing (by simp))
      · exact hparts n hn
  | factor h ih | term h ih => exact ih take_up ordered
  | @times us vs l r sign hl hs hr ihl ihr
  | @plus us vs l r sign hl hs hr ihl ihr =>
      obtain ⟨hus, hsign, hbefore⟩ := List.pairwise_append.mp ordered
      obtain ⟨hbehind, hvs⟩ := List.pairwise_cons.mp hsign
      -- every word of the left operand ends before the sign, and the sign
      -- before those of the right one
      have hpartsl := ihl (fun u hu => take_up u (by simp [hu])) hus
      have hpartsr := ihr (fun u hu => take_up u (by simp [hu])) hvs
      intro n hn
      rcases List.mem_cons.mp hn with rfl | hn
      · exact ⟨rfl, (hpartsl l l.self_mem_parts).start_lt_stop,
          hl.stop_le fun u hu => hbefore u hu sign (by simp),
            take_up sign (by simp),
          hr.le_start hbehind, (hpartsr r r.self_mem_parts).start_lt_stop⟩
      · rcases List.mem_append.mp hn with hn | hn
        · exact hpartsl n hn
        · exact hpartsr n hn

end Derives

/-! ## Pieces of a source -/

theorem utf8ByteSize_ofList (cs : List Char) :
    (String.ofList cs).utf8ByteSize = byteLength cs := by
  rw [String.utf8ByteSize_ofList]
  induction cs with
  | nil => rfl
  | cons c cs ih => rw [String.utf8Len_cons, ih, byteLength_cons, Nat.add_comm]

theorem byteLength_toList (s : String) :
    byteLength s.toList = s.utf8ByteSize := by
  rw [← utf8ByteSize_ofList, String.ofList_toList]

/-- The span cuts a source into what stands before it, its own piece and what
stands after it. -/
structure Span.Cuts (s : Span) (source before piece after : String) : Prop where
  source_eq : source = before ++ piece ++ after
  start_eq : s.start = before.utf8ByteSize
  stop_eq : s.stop = (before ++ piece).utf8ByteSize

/-- The span runs from the first byte of a source that is not blank to the
last. -/
def Span.Trims (s : Span) (source : String) : Prop :=
  ∃ before piece after, s.Cuts source before piece after ∧
    (∀ c ∈ before.toList ++ after.toList, isBlank c = true) ∧
    (∃ c ∈ piece.toList.head?, isBlank c = false) ∧
    ∃ c ∈ piece.toList.getLast?, isBlank c = false

theorem Span.cuts_ofList {source : String} {before piece after : List Char}
    (h : source.toList = before ++ (piece ++ after)) :
    Cuts ⟨byteLength before, byteLength before + byteLength piece⟩ source
      (String.ofList before) (String.ofList piece) (String.ofList after) := by
  constructor
  · rw [← String.ofList_toList (s := source), h, ← List.append_assoc,
      String.ofList_append, String.ofList_append]
  · rw [utf8ByteSize_ofList]
  · rw [← String.ofList_append, utf8ByteSize_ofList, byteLength_append]

namespace Derives

variable {source : String} {phrase : Phrase} {ws : List Token} {place : Nat}
  {piece : List Char}
  {n : Tree}

/-- A tree spans the piece from which its words are cut. -/
theorem span_of_piece (h : Derives phrase ws n)
    (hhead : (Token.scanFrom place piece).head? = ws.head?)
    (hlast : (Token.scanFrom place piece).getLast? = ws.getLast?) :
    n.span = ⟨place, place + byteLength piece⟩ := by
  obtain ⟨first, hf, last, hl, hspan⟩ := h.exists_span
  rw [← hhead] at hf
  rw [← hlast] at hl
  rw [hspan, Span.through, Token.start_of_head hf, Token.stop_of_getLast hl]

theorem parse_of_piece (h : Derives .sum ws n)
    (hwords : Token.words (Token.scanFrom place piece) = ws) :
    ∃ m, Tree.parse (String.ofList piece) none = .ok m ∧
      m.relocate (· + place) = n := by
  have hmoved := Token.scanFrom_add place 0 piece
  rw [Nat.zero_add] at hmoved
  rw [hmoved, Token.words_map_relocate] at hwords
  subst hwords
  obtain ⟨m, hm, hmn⟩ := h.exists_of_relocate
  refine ⟨m, ?_, hmn⟩
  rw [Tree.parse_eq_ok, Token.scan, String.toList_ofList]
  exact hm

end Derives

namespace Tree

variable {source : String} {t n : Tree}

/-- A tree spans the source without the blanks around it. -/
theorem trims_of_parse (h : parse source none = .ok t) :
    t.span.Trims source := by
  have hd := parse_eq_ok.mp h
  obtain ⟨first, hfirst, last, hlast, -⟩ := hd.exists_span
  have hword : ∀ u ∈ Token.words (Token.scan source),
      u.isWhitespace = false := by
    intro u hu
    simpa using (List.mem_filter.mp hu).2
  have hrow : Token.words (Token.scanFrom 0 source.toList) =
      [] ++ Token.words (Token.scan source) ++ [] := by simp [Token.scan]
  obtain ⟨before, piece, after, hsource, hbefore, -, hafter, hhead, hend⟩ :=
    Token.exists_piece hrow (List.ne_nil_of_mem (List.mem_of_head? hfirst))
  rw [Nat.zero_add] at hhead hend
  refine ⟨_, _, _, (hd.span_of_piece hhead hend) ▸ Span.cuts_ofList hsource,
    ?_, ?_, ?_⟩
  · intro c hc
    rw [String.toList_ofList, String.toList_ofList] at hc
    rcases List.mem_append.mp hc with hc | hc
    · exact Token.isBlank_of_words hbefore c hc
    · exact Token.isBlank_of_words hafter c hc
  · rw [String.toList_ofList]
    exact Token.exists_head_of_word (hhead ▸ hfirst)
      (hword first (List.mem_of_head? hfirst))
  · rw [String.toList_ofList]
    exact Token.exists_getLast_of_word (hend ▸ hlast)
      (hword last (List.mem_of_getLast? hlast))

theorem exists_piece_of_part (h : parse source none = .ok t)
    (hn : n ∈ t.parts) :
    ∃ before piece after m, n.span.Cuts source before piece after ∧
      parse piece none = .ok m ∧ m.relocate (· + n.span.start) = n := by
  obtain ⟨ws, ⟨pre, post, hws⟩, hd⟩ := (parse_eq_ok.mp h).part hn
  obtain ⟨first, hfirst, -⟩ := hd.exists_span
  obtain ⟨before, piece, after, hsource, -, hpiece, -, hhead, hend⟩ :=
    Token.exists_piece hws.symm (List.ne_nil_of_mem (List.mem_of_head? hfirst))
  obtain ⟨m, hm, hmn⟩ := hd.parse_of_piece hpiece
  rw [hd.span_of_piece hhead hend]
  rw [Nat.zero_add] at hmn ⊢
  exact ⟨_, _, _, m, Span.cuts_ofList hsource, hm, hmn⟩

theorem placed_of_parse (h : parse source none = .ok t) :
    ∀ n ∈ t.parts, n.Placed := by
  apply (parse_eq_ok.mp h).placed
  · intro u hu
    exact Token.start_lt_stop (List.mem_filter.mp hu).1
  · exact (Token.pairwise_before_scanFrom 0 source.toList).filter _

/-- **Where trees stand.** A tree that was read spans its source without the
blanks around it. Its parts stand in order beside each other and inside their
parentheses, and the piece of the source that a part spans is read by itself
as that part, with all places counted from where the piece begins. -/
theorem parse_places (h : parse source none = .ok t) :
    t.span.Trims source ∧
    ∀ n ∈ t.parts, n.Placed ∧ ∃ before piece after m,
      n.span.Cuts source before piece after ∧
      parse piece none = .ok m ∧ m.relocate (· + n.span.start) = n :=
  ⟨trims_of_parse h, fun n hn =>
    ⟨placed_of_parse h n hn, exists_piece_of_part h hn⟩⟩

/-- The group in a product is read by itself from the four bytes that it
spans. -/
theorem parse_places_product :
    ∃ before piece after m, (⟨1, 4⟩ : Span).Cuts " (x) * y" before piece after ∧
      parse piece none = .ok m ∧
      m.relocate (· + 1) = group (literal (.symbol ⟨"x", ⟨2, 3⟩⟩)) ⟨1, 4⟩ := by
  have h : parse " (x) * y" none = .ok (binary
      (group (literal (.symbol ⟨"x", ⟨2, 3⟩⟩)) ⟨1, 4⟩) ⟨.mul, ⟨5, 6⟩⟩
      (literal (.symbol ⟨"y", ⟨7, 8⟩⟩)) ⟨1, 8⟩) := by cbv
  refine ((parse_places h).2
    (group (literal (.symbol ⟨"x", ⟨2, 3⟩⟩)) ⟨1, 4⟩) ?_).2
  simp [parts]

end Tree

end PolyAlgebra
