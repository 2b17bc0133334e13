import PolyAlgebra.Proofs.Places
import PolyAlgebra.Proofs.Printing

/-!
# Grouping what is grouped already

Parentheses around what a part of a tree spans change nothing. Whatever phrase
the part was, its words in parentheses are a primitive and can stand wherever
a phrase can, so that everything around them is grouped as before. And the
parentheses change no other words: one ends the token before it and is a token
by itself.
-/

namespace PolyAlgebra

/-! ## Parentheses around words -/

/-- The words of the tree `n` stand in a row among those of `t` and can be put
in parentheses: then a tree is derived that stands for what `t` stands for. -/
def Groupable (phrase : Phrase) (ts : List Token) (t n : Tree) : Prop :=
  ∃ pre ws post, ts = pre ++ ws ++ post ∧ Derives .sum ws n ∧
    ∀ opening closing : Token, opening.kind = .openParen →
      closing.kind = .closeParen →
      ∃ u, Derives phrase (pre ++ opening :: (ws ++ [closing]) ++ post) u ∧
        u.toExpr = t.toExpr

namespace Groupable

variable {phrase outer : Phrase} {ts us vs : List Token} {sign : Token}
  {t l r n : Tree}
  {op : Operator}

theorem whole (h : Derives phrase ts t) : Groupable phrase ts t t := by
  refine ⟨[], ts, [], by simp, h.sum_of_phrase,
    fun opening closing hopen hclose => ?_⟩
  have hgroup := Derives.group hopen h.sum_of_phrase hclose
  refine ⟨.group t (opening.span.through closing.span), ?_,
    Tree.toExpr_group t _⟩
  rw [List.nil_append, List.append_nil]
  exact hgroup.of_primitive

/-- What can be put in parentheses in a phrase can be put in parentheses in a
phrase around it. -/
theorem inside (h : Groupable phrase ts t n) (us vs : List Token)
    (around : Tree → Tree)
    (derives : ∀ ws u, Derives phrase ws u →
      Derives outer (us ++ ws ++ vs) (around u))
    (toExpr_eq : ∀ u, u.toExpr = t.toExpr →
      (around u).toExpr = (around t).toExpr) :
    Groupable outer (us ++ ts ++ vs) (around t) n := by
  obtain ⟨pre, ws, post, rfl, hws, hgroup⟩ := h
  refine ⟨us ++ pre, ws, post ++ vs, by simp, hws,
    fun opening closing hopen hclose => ?_⟩
  obtain ⟨u, hu, heq⟩ := hgroup opening closing hopen hclose
  refine ⟨around u, ?_, toExpr_eq u heq⟩
  simpa using derives _ u hu

theorem left (h : Groupable phrase us l n)
    (derives : ∀ ws u, Derives phrase ws u →
      Derives outer (ws ++ vs) (.binary u op r (u.span.through r.span))) :
    Groupable outer (us ++ vs) (.binary l op r (l.span.through r.span)) n := by
  refine h.inside [] vs (fun u => .binary u op r (u.span.through r.span))
    derives ?_
  intro u hu
  rw [Tree.toExpr_binary, Tree.toExpr_binary, hu]

theorem right (h : Groupable phrase vs r n)
    (derives : ∀ ws u, Derives phrase ws u →
      Derives outer (us ++ sign :: ws)
        (.binary l op u (l.span.through u.span))) :
    Groupable outer (us ++ sign :: vs)
      (.binary l op r (l.span.through r.span)) n := by
  have hgroup : Groupable outer (us ++ [sign] ++ vs ++ [])
      (.binary l op r (l.span.through r.span)) n := by
    refine h.inside _ _ (fun u => .binary l op u (l.span.through u.span)) ?_ ?_
    · intro ws u hu
      simpa using derives ws u hu
    · intro u hu
      rw [Tree.toExpr_binary, Tree.toExpr_binary, hu]
  simpa using hgroup

/-- What can be put in parentheses in a phrase can be put in parentheses in a
wider one. -/
theorem widen (h : Groupable phrase ts t n)
    (derives : ∀ ws u, Derives phrase ws u → Derives outer ws u) :
    Groupable outer ts t n := by
  obtain ⟨pre, ws, post, hts, hws, hgroup⟩ := h
  refine ⟨pre, ws, post, hts, hws, fun opening closing hopen hclose => ?_⟩
  obtain ⟨u, hu, heq⟩ := hgroup opening closing hopen hclose
  exact ⟨u, derives _ u hu, heq⟩

end Groupable

theorem Derives.groupable {phrase : Phrase} {ts : List Token} {t n : Tree}
    (h : Derives phrase ts t) (hn : n ∈ t.parts) : Groupable phrase ts t n := by
  induction h using Derives.byOperands with
  | number h =>
      obtain rfl := List.mem_singleton.mp hn
      exact .whole (.number h)
  | name h =>
      obtain rfl := List.mem_singleton.mp hn
      exact .whole (.name h)
  | @group opening closing ts t hopen inner hclose ih =>
      rcases List.mem_cons.mp hn with rfl | hn
      · exact .whole (.group hopen inner hclose)
      · refine (ih hn).inside [opening] [closing]
          (fun u => .group u (opening.span.through closing.span)) ?_ ?_
        · exact fun ws u hu => .group hopen hu hclose
        · intro u hu
          rw [Tree.toExpr_group, Tree.toExpr_group, hu]
  | factor h ih => exact (ih hn).widen fun ws u hu => hu.factor
  | term h ih => exact (ih hn).widen fun ws u hu => hu.term
  -- the parentheses stand around the whole operation or inside an operand
  | times hl hs hr ihl ihr =>
      rcases List.mem_cons.mp hn with rfl | hn
      · exact .whole (hl.times hs hr)
      rcases List.mem_append.mp hn with hn | hn
      · exact (ihl hn).left fun ws u hu => hu.times hs hr
      · exact (ihr hn).right fun ws u hu => hl.times hs hu
  | plus hl hs hr ihl ihr =>
      rcases List.mem_cons.mp hn with rfl | hn
      · exact .whole (hl.plus hs hr)
      rcases List.mem_append.mp hn with hn | hn
      · exact (ihl hn).left fun ws u hu => hu.plus hs hr
      · exact (ihr hn).right fun ws u hu => hl.plus hs hu

/-! ## Parentheses in a source -/

def IsParen (c : Char) : Prop := c = '(' ∨ c = ')'

theorem takeWhile_append_stop {p : Char → Bool} {c : Char} (hc : p c = false)
    (cs rest : List Char) : (cs ++ c :: rest).takeWhile p = cs.takeWhile p := by
  induction cs with
  | nil => rw [List.nil_append, List.takeWhile_cons, hc]; rfl
  | cons d cs ih =>
      rw [List.cons_append, List.takeWhile_cons, List.takeWhile_cons, ih]

namespace TokenKind

theorem numberTail_append_stop {c : Char} (hc : c.isDigit = false)
    (hpoint : c ≠ '.') (cs rest : List Char) :
    numberTail (cs ++ c :: rest) = numberTail cs := by
  unfold numberTail
  rw [List.dropWhile_append, takeWhile_append_stop hc]
  cases hcs : cs.dropWhile Char.isDigit with
  | nil =>
      simp only [List.isEmpty_nil, if_true, List.dropWhile_cons, hc]
      split
      · next h => exact absurd (List.cons.inj h).1 hpoint
      · rfl
  | cons d ds =>
      by_cases hd : d = '.'
      · subst hd
        show _ ++ '.' :: (ds ++ c :: rest).takeWhile Char.isDigit =
          _ ++ '.' :: ds.takeWhile Char.isDigit
        rw [takeWhile_append_stop hc]
      · -- no point follows the digits, whatever follows it
        simp only [List.isEmpty_cons, List.cons_append]
        split
        · next h => exact absurd (List.cons.inj h).1 hd
        · split
          · next h => exact absurd (List.cons.inj h).1 hd
          · rfl

/-- Parentheses end tokens. -/
theorem tail_append_paren {c : Char} (hc : IsParen c) (kind : TokenKind)
    (cs rest : List Char) :
    kind.tail (cs ++ c :: rest) = kind.tail cs := by
  have hblank : isBlank c = false := by rcases hc with rfl | rfl <;> rfl
  have halpha : c.isAlpha = false := by rcases hc with rfl | rfl <;> rfl
  have hdigit : c.isDigit = false := by rcases hc with rfl | rfl <;> rfl
  have hpoint : c ≠ '.' := by rcases hc with rfl | rfl <;> decide
  cases kind with
  | whitespace => exact takeWhile_append_stop hblank cs rest
  | name => exact takeWhile_append_stop halpha cs rest
  | number => exact numberTail_append_stop hdigit hpoint cs rest
  | _ => rfl

end TokenKind

namespace Token

/-- Before a parenthesis a source can be cut in two. -/
theorem scanFrom_append_paren {c : Char} (hc : IsParen c) (start : Nat)
    (cs rest : List Char) :
    scanFrom start (cs ++ c :: rest) =
      scanFrom start cs ++ scanFrom (start + byteLength cs) (c :: rest) := by
  induction start, cs using scanFrom_induction with
  | nil start =>
      rw [scanFrom_nil]
      rfl
  | cons start d cs ih =>
      have hfirst : first start d (cs ++ c :: rest) = first start d cs := by
        rw [first, first, TokenKind.tail_append_paren hc]
      have hle := (isPrefix_tail (.ofFirst d) cs).length_le
      rw [List.cons_append, scanFrom_cons, scanFrom_cons, hfirst,
        TokenKind.tail_append_paren hc, List.drop_append_of_le_length hle, ih,
        stop_first_add, List.cons_append]

/-- Parentheses are words, and all other words are the same without them. -/
theorem bareWords_enclosed (before piece after : List Char) :
    bareWords (before ++ '(' :: (piece ++ ')' :: after)) =
      bareWords before ++ bare .openParen "(" ::
        (bareWords piece ++ [bare .closeParen ")"]) ++ bareWords after := by
  have hcut : ∀ {c : Char}, IsParen c → ∀ cs rest,
      bareWords (cs ++ c :: rest) = bareWords cs ++ bareWords (c :: rest) := by
    intro c hc cs rest
    rw [bareWords, scanFrom_append_paren hc, words, List.filter_append,
      List.map_append]
    exact congrArg _ (map_words_scanFrom _ _)
  rw [hcut (Or.inl rfl), bareWords_mark '(' _ rfl fun _ => rfl,
    hcut (Or.inr rfl), bareWords_mark ')' _ rfl fun _ => rfl,
    List.append_assoc, List.cons_append, List.append_assoc]
  rfl

end Token

/-- If the words of three pieces are derived with the middle ones in
parentheses, the pieces are read with the middle one in parentheses. -/
theorem Tree.exists_parse_enclosed {before piece after : List Char}
    {pre ws post : List Token} {u : Tree} {i j k : Nat}
    (hpre : Token.words (Token.scanFrom i before) = pre)
    (hws : Token.words (Token.scanFrom j piece) = ws)
    (hpost : Token.words (Token.scanFrom k after) = post)
    (h : Derives .sum (pre ++ .bare .openParen "(" ::
      (ws ++ [.bare .closeParen ")"]) ++ post) u) :
    ∃ m, parse (String.ofList before ++ "(" ++ String.ofList piece ++ ")" ++
      String.ofList after) none = .ok m ∧ m.unplaced = u.unplaced := by
  apply exists_parse_of_bareWords
  have hchars : (String.ofList before ++ "(" ++ String.ofList piece ++ ")" ++
      String.ofList after).toList = before ++ '(' ::
        (piece ++ ')' :: after) := by simp
  have hunplaced := h.relocate fun _ => 0
  simp only [List.map_append, List.map_cons, List.map_nil, ← hpre, ← hws,
    ← hpost, Token.map_words_scanFrom] at hunplaced
  rw [hchars, Token.bareWords_enclosed]
  exact hunplaced

namespace Expr

variable {source : String} {t n : Tree}

/-- **Grouping.** Every part of a tree that was read can be put in parentheses
where it stands in the source: from the byte where its span begins to the byte
where its span ends. What comes of it is read again, and as the same
expression. -/
theorem parse_grouped (h : Tree.parse source none = .ok t) (hn : n ∈ t.parts) :
    ∃ before piece after, n.span.Cuts source before piece after ∧
      ∃ e, parse source none = .ok e ∧
        parse (before ++ "(" ++ piece ++ ")" ++ after) none = .ok e := by
  obtain ⟨pre, ws, post, hwords, hpart, hgroup⟩ :=
    (Tree.parse_eq_ok.mp h).groupable hn
  obtain ⟨first, hfirst, -⟩ := hpart.exists_span
  obtain ⟨before, piece, after, hsource, hbefore, hpiece, hafter,
      hhead, hlast⟩ :=
    Token.exists_piece hwords (List.ne_nil_of_mem (List.mem_of_head? hfirst))
  have hspan := hpart.span_of_piece hhead hlast
  rw [Nat.zero_add] at hspan
  obtain ⟨u, hu, hut⟩ :=
    hgroup (.bare .openParen "(") (.bare .closeParen ")") rfl rfl
  obtain ⟨m, hm, hmu⟩ := Tree.exists_parse_enclosed hbefore hpiece hafter hu
  obtain ⟨e, he⟩ := Tree.toExpr_of_valid (Tree.valid_of_parse h)
  have hme : m.toExpr = .ok e := Tree.toExpr_of_unplaced hmu (hut.trans he)
  exact ⟨_, _, _, hspan ▸ Span.cuts_ofList hsource, e, parse_of_tree h he,
    parse_of_tree hm hme⟩

theorem parse_grouped_chain :
    ∃ before piece after, (⟨0, 5⟩ : Span).Cuts "a + b + c" before piece after ∧
      ∃ e, parse "a + b + c" none = .ok e ∧
        parse (before ++ "(" ++ piece ++ ")" ++ after) none = .ok e := by
  have h : Tree.parse "a + b + c" none = .ok (.binary
      (.binary (.literal (.symbol ⟨"a", ⟨0, 1⟩⟩)) ⟨.add, ⟨2, 3⟩⟩
        (.literal (.symbol ⟨"b", ⟨4, 5⟩⟩)) ⟨0, 5⟩)
      ⟨.add, ⟨6, 7⟩⟩ (.literal (.symbol ⟨"c", ⟨8, 9⟩⟩)) ⟨0, 9⟩) := by cbv
  exact parse_grouped
    (n := .binary (.literal (.symbol ⟨"a", ⟨0, 1⟩⟩)) ⟨.add, ⟨2, 3⟩⟩
      (.literal (.symbol ⟨"b", ⟨4, 5⟩⟩)) ⟨0, 5⟩) h (by simp [Tree.parts])

end Expr

end PolyAlgebra
