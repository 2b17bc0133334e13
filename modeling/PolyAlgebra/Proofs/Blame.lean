import Mathlib
import PolyAlgebra.Proofs.Scanning
import PolyAlgebra.Proofs.Sentences

/-!
# Where faults lie

A source that cannot be read has a longest row of words at its beginning that
could still become a sentence. The fault is the word behind that row, or the
end of the source if there is none, and its cause depends on that word and on
the row only. The stages of the one-pass reader are compared with the rows
that lead to them: each such row can be completed to a sentence, and a word
that a stage refuses makes that impossible.
-/

namespace PolyAlgebra

/-! ## Rows of words -/

/-- The words can be completed to a sentence. -/
def Viable (p : List Token) : Prop := ∃ ts, IsSentence (p ++ ts)

/-- The longest row at the beginning of some words that can be completed to a
sentence. -/
structure LongestViable (p ts : List Token) : Prop where
  initial : p <+: ts
  viable : Viable p
  longest : ∀ q, q <+: ts → Viable q → q <+: p

def Token.AsksOperand (t : Token) : Prop := t.IsSign ∨ t.kind = .openParen

instance (t : Token) : Decidable t.AsksOperand :=
  inferInstanceAs
    (Decidable ((t.kind = .add ∨ t.kind = .mul) ∨ t.kind = .openParen))

def OperandDue (p : List Token) : Prop := ∀ t ∈ p.getLast?, t.AsksOperand

instance (p : List Token) : Decidable (OperandDue p) :=
  inferInstanceAs (Decidable (∀ t ∈ p.getLast?, t.AsksOperand))

/-- The parentheses that are open behind a word, given those open before it. -/
def Token.nest (opened : List Token) (t : Token) : List Token :=
  match t.kind with
  | .openParen => t :: opened
  | .closeParen => opened.tail
  | _ => opened

/-- The parentheses that the words leave open, the innermost first. -/
def openParens (p : List Token) : List Token := p.foldl Token.nest []

def Token.strayCause (t : Token) (expected : List TokenKind) : Cause :=
  if t.isUnsupportedOperator then .unsupportedOperator t.lexeme
  else .unexpectedToken expected t.kind

/-- The fault of a word where an operand is due: a number without a value, a
closing parenthesis behind an opening one or at the very beginning, or
something that is no operand. It is final unless it is the first word. -/
def blameOperand (p : List Token) (t : Token) : Fault :=
  if t.kind = .number then
    .final t.span (.malformedNumber
      (if t.lexeme.toList.getLast? = some '.' then .missingFraction
        else .overflow))
  else
    match p.getLast? with
    | none =>
        if t.kind = .closeParen then .final t.span (.unclosedParenthesis false)
        else .located t.span (t.strayCause [.number, .name, .openParen])
    | some last =>
        if t.kind = .closeParen ∧ last.kind = .openParen then
          .final (last.span.through t.span) .emptyParenthesis
        else .final t.span (t.strayCause [.number, .name, .openParen])

/-- The fault of a word behind an operand that no sentence has there. -/
def blameFollowing (stop : Nat) (p : List Token) (t : Token) : Fault :=
  match openParens p with
  | _ :: _ => .final t.span (t.strayCause [.add, .mul, .closeParen])
  | [] =>
      if t.kind = .closeParen then .located t.span (.unclosedParenthesis false)
      else if t.isUnsupportedOperator then
        .located t.span (.unsupportedOperator t.lexeme)
      else .located ⟨t.span.start, stop⟩ .expectedEnd

def blameEnd (stop : Nat) (p : List Token) : Fault :=
  match openParens p with
  | opening :: _ => .final opening.span (.unclosedParenthesis true)
  | [] => .final (.point stop) .unexpectedEnd

/-- The fault of a source whose words begin with `p`, the longest row that can
be completed to a sentence, and go on with a word or end there. -/
def blame (stop : Nat) (p : List Token) : Option Token → Fault
  | some t => if OperandDue p then blameOperand p t else blameFollowing stop p t
  | none =>
      if OperandDue p then ⟨[.point stop], .unexpectedEnd, !p.isEmpty⟩
      else blameEnd stop p

@[simp] theorem operandDue_nil : OperandDue [] := by
  rintro t ⟨⟩

@[simp] theorem operandDue_append {p : List Token} {t : Token} :
    OperandDue (p ++ [t]) ↔ t.AsksOperand := by
  simp [OperandDue]

@[simp] theorem openParens_append (p : List Token) (t : Token) :
    openParens (p ++ [t]) = Token.nest (openParens p) t := by
  simp [openParens]

namespace Stage

variable {limit : Option Nat} {stop : Nat} {p ts : List Token} {s s' : Stage}
  {f : Fault}

/-! ## The stages on the way -/

inductive Reached (limit : Option Nat) (stop : Nat) :
    List Token → Stage → Prop where
  | start : Reached limit stop [] .start
  | step {p : List Token} {s s' : Stage} {t : Token}
      (before : Reached limit stop p s)
      (taken : s.step limit stop t = .ok s') : Reached limit stop (p ++ [t]) s'

def Refuses (limit : Option Nat) (stop : Nat) (s : Stage) (f : Fault) :
    Option Token → Prop
  | some t => s.step limit stop t = .error f
  | none => s.finish limit stop = .error f

theorem Reached.run (h : Reached limit stop p s) (ts : List Token) :
    Stage.run limit stop (p ++ ts) .start = Stage.run limit stop ts s := by
  induction h generalizing ts with
  | start => rfl
  | step before taken ih =>
      rw [List.append_assoc, List.singleton_append, ih, Stage.run, taken]
      rfl

theorem Reached.spells (h : Reached limit stop p s) : s.Spells p := by
  induction h with
  | start => exact spells_empty .nothing
  | step before taken ih => exact ih.step taken

/-- A run that fails takes words up to a stage that refuses the next. -/
theorem Reached.exists_refuses (hs : Reached limit stop p s)
    (h : Stage.run limit stop ts s = .error f) :
    ∃ q rest s', ts = q ++ rest ∧ Reached limit stop (p ++ q) s' ∧
      s'.Refuses limit stop f rest.head? := by
  induction ts generalizing p s with
  | nil => exact ⟨[], [], s, rfl, by rwa [List.append_nil], h⟩
  | cons t ts ih =>
      simp only [Stage.run] at h
      cases ht : s.step limit stop t with
      | error g =>
          rw [ht] at h
          obtain rfl := Except.error.inj h
          exact ⟨[], t :: ts, s, rfl, by rwa [List.append_nil], ht⟩
      | ok s' =>
          rw [ht] at h
          obtain ⟨q, rest, s'', rfl, hq, hr⟩ := ih (hs.step ht) h
          exact ⟨t :: q, rest, s'', rfl, by simpa using hq, hr⟩

/-! ## Completing a row of words -/

def filler (kind : TokenKind) : Token := ⟨kind, .point 0, ""⟩

/-- Closing parentheses complete what stands behind an operand. -/
theorem run_closing (terms : Waiting) (value : Tree) (outer : Outer) :
    ∃ t, Stage.run none stop (outer.map fun _ => filler .closeParen)
      (.after terms value outer) = .ok t := by
  induction outer generalizing terms value with
  | nil => exact ⟨_, by rw [List.map_nil, Stage.run, finish, attach_none]; rfl⟩
  | cons entry outer ih =>
      obtain ⟨opening, context⟩ := entry
      obtain ⟨t, ht⟩ := ih context.terms (context.factors.joined
        (.group (terms.joined value)
          (opening.span.through (filler .closeParen).span)))
      refine ⟨t, ?_⟩
      rw [List.map_cons, run_after (by simp [filler]), attach_none, Except.bind,
        runSum, proceed_closeParen rfl, operand, attach_none]
      exact ht

/-- Every stage can be completed, after an operand if one is due. -/
theorem exists_run (s : Stage) : ∃ ts t, Stage.run none stop ts s = .ok t := by
  cases s with
  | after terms value outer => exact ⟨_, run_closing terms value outer⟩
  | due context outer =>
      obtain ⟨t, ht⟩ := run_closing context.terms
        (context.factors.joined (.literal (.symbol ⟨"", .point 0⟩))) outer
      refine ⟨filler .name :: outer.map fun _ => filler .closeParen, t, ?_⟩
      rw [Stage.run, step, begin_name rfl, operand, attach_none]
      exact ht

theorem Reached.viable (h : Reached limit stop p s) : Viable p := by
  obtain ⟨ts, t, ht⟩ : ∃ ts t, Stage.run none stop ts s = .ok t := exists_run s
  exact ⟨ts, t, h.spells.run ht⟩

/-- No sentence goes on with a word that is refused. -/
theorem Reached.not_viable {t : Token} (h : Reached none stop p s)
    (ht : s.step none stop t = .error f) : ¬Viable (p ++ [t]) := by
  rintro ⟨ts, tree, hd⟩
  have hr : Stage.run none stop (p ++ [t] ++ ts) .start = .ok tree :=
    run_of_derives hd
  rw [List.append_assoc, h.run, List.singleton_append, Stage.run, ht] at hr
  cases hr

theorem Reached.longestViable (h : Reached none stop p s)
    (hf : s.Refuses none stop f ts.head?) : LongestViable p (p ++ ts) where
  initial := List.prefix_append p ts
  viable := h.viable
  longest := by
    intro q hq hv
    cases ts with
    | nil => rwa [List.append_nil] at hq
    | cons t ts =>
        rcases Nat.lt_or_ge p.length q.length with hlt | hle
        · -- a longer row would begin with the word that is refused
          have hlong : p ++ [t] <+: q := by
            have hpt : p ++ [t] <+: p ++ t :: ts := ⟨ts, by simp⟩
            refine List.prefix_of_prefix_length_le hpt hq ?_
            rw [List.length_append]
            exact hlt
          obtain ⟨us, rfl⟩ := hlong
          obtain ⟨vs, hs⟩ := hv
          refine absurd ⟨us ++ vs, ?_⟩ (h.not_viable hf)
          rwa [← List.append_assoc]
        · exact List.prefix_of_prefix_length_le hq (List.prefix_append p _) hle

/-! ## What a stage knows of the words -/

/-- A stage knows of the words that lead to it whether an operand is due, which
parentheses are open, and, where an operand is due, whether anything stands
between it and the innermost of them. -/
inductive Follows : Stage → List Token → Prop where
  | due {context : Context} {outer : Outer} {p : List Token}
      (owed : OperandDue p) (nested : openParens p = outer.map Prod.fst)
      (fresh : context = .empty ↔ ∀ t ∈ p.getLast?, t.kind = .openParen) :
      Follows (.due context outer) p
  | after {terms : Waiting} {value : Tree} {outer : Outer} {p : List Token}
      (paid : ¬OperandDue p) (nested : openParens p = outer.map Prod.fst) :
      Follows (.after terms value outer) p

theorem follows_operand {context : Context} {outer : Outer} {value : Tree}
    (paid : ¬OperandDue p) (nested : openParens p = outer.map Prod.fst)
    (h : operand limit context outer value = .ok s) : s.Follows p := by
  rw [eq_after_of_operand h]
  exact .after paid nested

theorem follows_begin {context : Context} {outer : Outer} {t : Token}
    (nested : openParens p = outer.map Prod.fst)
    (h : begin limit context outer t = .ok s) : s.Follows (p ++ [t]) := by
  rcases begin_cases h with ⟨l, hk, -, hs⟩ | ⟨hk, hs⟩ | ⟨hk, rfl⟩
  · refine follows_operand ?_ ?_ hs
    · simp [Token.AsksOperand, Token.IsSign, hk]
    · simpa [Token.nest, hk] using nested
  · refine follows_operand ?_ ?_ hs
    · simp [Token.AsksOperand, Token.IsSign, hk]
    · simpa [Token.nest, hk] using nested
  · refine .due ?_ ?_ ?_
    · simp [Token.AsksOperand, hk]
    · simpa [Token.nest, hk] using nested
    · simp [hk]

/-- Behind a sign an operand is due, and something stands before it. -/
theorem follows_sign {context : Context} {outer : Outer} {t : Token}
    (nested : openParens p = outer.map Prod.fst) (hs : t.IsSign)
    (hc : context ≠ .empty) : Follows (.due context outer) (p ++ [t]) := by
  refine .due (operandDue_append.mpr (Or.inl hs)) ?_ ?_
  · rcases hs with hk | hk <;> simpa [Token.nest, hk] using nested
  · rcases hs with hk | hk <;> simp [hk, hc]

theorem follows_proceed {value : Tree} {outer : Outer} {t : Token}
    (nested : openParens p = outer.map Prod.fst)
    (h : proceed limit stop value outer t = .ok s) : s.Follows (p ++ [t]) := by
  rcases proceed_cases h with ⟨hk, rfl⟩ | ⟨opening, context, rest, hk, rfl, hs⟩
  · exact follows_sign nested (Or.inl hk) (by rintro ⟨⟩)
  · refine follows_operand ?_ ?_ hs
    · simp [Token.AsksOperand, Token.IsSign, hk]
    · simp [Token.nest, hk, nested]

theorem Follows.step {t : Token} (hs : s.Follows p)
    (h : s.step limit stop t = .ok s') : s'.Follows (p ++ [t]) := by
  cases hs with
  | due owed nested fresh => exact follows_begin nested h
  | after paid nested =>
      rcases step_after_cases h with ⟨hk, rfl⟩ | ⟨-, hp⟩
      · exact follows_sign nested (Or.inr hk) (by rintro ⟨⟩)
      · exact follows_proceed nested hp

theorem Reached.follows (h : Reached limit stop p s) : s.Follows p := by
  induction h with
  | start => exact .due operandDue_nil rfl (by simp)
  | step before taken ih => exact ih.step taken

/-! ## The fault of a stage -/

theorem nothing_before {context : Context} {outer : Outer}
    (nested : openParens p = outer.map Prod.fst)
    (fresh : context = .empty ↔ ∀ t ∈ p.getLast?, t.kind = .openParen) :
    context = .empty ∧ outer = [] ↔ p = [] := by
  constructor
  · rintro ⟨hc, rfl⟩
    rcases List.eq_nil_or_concat p with rfl | ⟨q, t, rfl⟩
    · rfl
    · have hk := fresh.mp hc t (by simp)
      simp [Token.nest, hk] at nested
  · rintro rfl
    refine ⟨fresh.mpr (by simp), ?_⟩
    simpa [openParens] using nested.symm

/-- The innermost parenthesis that is open is the last word if nothing stands
behind it. -/
theorem eq_of_fresh {opening t : Token} {outer : List Token}
    (nested : openParens p = opening :: outer) (hl : p.getLast? = some t)
    (hk : t.kind = .openParen) : t = opening := by
  obtain ⟨q, rfl⟩ := List.getLast?_eq_some_iff.mp hl
  simp only [openParens_append, Token.nest, hk] at nested
  exact (List.cons.inj nested).1

theorem graded_eq_strayCause {t : Token} {context : Context} {outer : Outer}
    {expected : List TokenKind} (hn : ¬(context = .empty ∧ outer = [])) :
    graded context outer (.unexpected t expected) =
      .final t.span (t.strayCause expected) := by
  rw [graded, if_neg hn, Fault.unexpected, Token.strayCause]
  split <;> rfl

theorem unexpected_eq_strayCause (t : Token) (expected : List TokenKind) :
    Fault.unexpected t expected = .located t.span (t.strayCause expected) := by
  rw [Fault.unexpected, Token.strayCause]
  split <;> rfl

/-- A word that is not of the kind of a number can be no operand only because
of its kind. -/
theorem noOperand_eq_blame {context : Context} {outer : Outer} {t : Token}
    (nested : openParens p = outer.map Prod.fst)
    (fresh : context = .empty ↔ ∀ t ∈ p.getLast?, t.kind = .openParen)
    (hk : t.kind ≠ .number) : noOperand context outer t = blameOperand p t := by
  have hb := nothing_before nested fresh
  rw [blameOperand, if_neg hk]
  cases hl : p.getLast? with
  | none =>
      obtain rfl := List.getLast?_eq_none_iff.mp hl
      obtain ⟨rfl, rfl⟩ := hb.mpr rfl
      dsimp only
      by_cases hc : t.kind = .closeParen
      · rw [if_pos hc, noOperand, if_pos ⟨rfl, hc⟩]
      · rw [if_neg hc, noOperand, if_neg fun h => hc h.2, graded,
          if_pos ⟨rfl, rfl⟩, unexpected_eq_strayCause]
  | some last =>
      have hp : ¬(context = .empty ∧ outer = []) := by
        rw [hb]
        rintro rfl
        cases hl
      rw [hl] at fresh
      dsimp only
      by_cases hc : t.kind = .closeParen ∧ last.kind = .openParen
      · have he : context = .empty := fresh.mpr (by simpa using hc.2)
        unfold noOperand
        rw [if_pos hc, if_pos ⟨he, hc.1⟩]
        cases outer with
        | nil => exact absurd ⟨he, rfl⟩ hp
        | cons entry outer => rw [eq_of_fresh nested hl hc.2]
      · rw [if_neg hc, noOperand_of_not, graded_eq_strayCause hp]
        rintro ⟨he, hclose⟩
        exact hc ⟨hclose, fresh.mp he last rfl⟩

theorem begin_eq_blame {context : Context} {outer : Outer} {t : Token}
    (nested : openParens p = outer.map Prod.fst)
    (fresh : context = .empty ↔ ∀ t ∈ p.getLast?, t.kind = .openParen)
    (h : begin none context outer t = .error f) : f = blameOperand p t := by
  unfold begin at h
  split at h
  · next hk =>
      rw [blameOperand, if_pos hk]
      unfold Parser.numberOf at h
      by_cases hd : t.lexeme.toList.getLast? = some '.'
      · rw [if_pos hd] at h ⊢
        exact (Except.error.inj h).symm
      · rw [if_neg hd] at h ⊢
        dsimp only at h
        split at h
        · rw [Except.bind, operand, attach_none] at h
          cases h
        · exact (Except.error.inj h).symm
  · rw [operand, attach_none] at h
    cases h
  · cases h
  · next hk _ _ =>
      rw [← noOperand_eq_blame nested fresh hk]
      exact (Except.error.inj h).symm

theorem proceed_eq_blame {value : Tree} {outer : Outer} {t : Token}
    (nested : openParens p = outer.map Prod.fst)
    (h : proceed none stop value outer t = .error f) :
    f = blameFollowing stop p t := by
  unfold proceed at h
  rw [blameFollowing, nested]
  split at h
  · cases h
  · next hk =>
      cases outer with
      | nil =>
          rw [List.map_nil]
          dsimp only
          rw [if_pos hk]
          exact (Except.error.inj h).symm
      | cons entry outer =>
          dsimp only at h
          rw [operand, attach_none] at h
          cases h
  · next _ hk =>
      obtain rfl := Except.error.inj h
      cases outer with
      | nil =>
          rw [List.map_nil, stray]
          dsimp only
          rw [if_neg hk]
          split
          · next hu =>
              rw [unexpected_eq_strayCause, Token.strayCause, if_pos hu]
          · rfl
      | cons entry outer =>
          rw [List.map_cons]
          show (Fault.unexpected t _).asFatal = _
          rw [unexpected_eq_strayCause]
          rfl

theorem Follows.eq_blame {t? : Option Token} (hs : s.Follows p)
    (h : s.Refuses none stop f t?) : f = blame stop p t? := by
  cases hs with
  | @due context outer _ owed nested fresh =>
      have hb := nothing_before nested fresh
      cases t? with
      | some t =>
          rw [blame, if_pos owed]
          exact begin_eq_blame nested fresh h
      | none =>
          rw [blame, if_pos owed]
          obtain rfl := Except.error.inj h
          by_cases hp : p = []
          · rw [graded, if_pos (hb.mpr hp), hp]
            rfl
          · rw [graded, if_neg fun hn => hp (hb.mp hn)]
            cases p with
            | nil => exact absurd rfl hp
            | cons => rfl
  | @after terms value outer _ paid nested =>
      cases t? with
      | some t =>
          rw [blame, if_neg paid]
          simp only [Refuses, Stage.step, attach_none] at h
          split at h
          · cases h
          · exact proceed_eq_blame nested h
      | none =>
          rw [blame, if_neg paid, blameEnd, nested]
          simp only [Refuses, Stage.finish, attach_none] at h
          cases outer with
          | nil => cases h
          | cons entry outer => exact (Except.error.inj h).symm

end Stage

/-! ## The fault of a source -/

/-- A source that cannot be read has a longest row of words at its beginning
that can be completed to a sentence, and is refused for the word behind it. -/
theorem Tree.parse_eq_blame {source : String} {f : Fault}
    (h : Tree.parse source none = .error f) :
    ∃ p rest, Token.words (Token.scan source) = p ++ rest ∧
      LongestViable p (Token.words (Token.scan source)) ∧
      f = blame (byteLength source.toList) p rest.head? := by
  rw [Tree.parse_eq_run, Parser.stop_ofSource] at h
  obtain ⟨p, rest, s, hw, hs, hr⟩ := Stage.Reached.start.exists_refuses h
  rw [List.nil_append] at hs
  refine ⟨p, rest, hw, ?_, hs.follows.eq_blame hr⟩
  rw [hw]
  exact hs.longestViable hr

theorem Tree.parse_eq_blame_division :
    ∃ p rest, Token.words (Token.scan "(x / y)") = p ++ rest ∧
      LongestViable p (Token.words (Token.scan "(x / y)")) ∧
      ⟨[⟨3, 4⟩], .unsupportedOperator "/", true⟩ =
        blame (byteLength "(x / y)".toList) p rest.head? :=
  parse_eq_blame (by cbv)

end PolyAlgebra
