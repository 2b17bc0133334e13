import Mathlib.Data.List.Nodup
import PolyAlgebra.Directive.Arguments

/-!
# Lists of arguments

A directive reads its arguments one by one and keeps each expression under its
tag. What it has kept at any time is what the arguments so far give, in
whatever order they came. So a list of arguments is read if all of its tags
are known and no two are the same, and otherwise it is refused for the first
argument whose tag is unknown or was there before.

Where an expression ends is for the reader of expressions to know. It is only
relied upon to read the expression of each argument, and to stop in front of
the comma behind it.
-/

namespace PolyAlgebra.Directive

variable {E : Type}

/-! ## Slots -/

namespace Tag

def words : List String := ["message", "labels", "help", "note"]

theorem label_injective : Function.Injective label := by
  intro t u h
  cases t <;> cases u <;> first | rfl | exact absurd h (by decide)

theorem ofLabel?_label (t : Tag) : ofLabel? t.label = some t := by
  cases t <;> rfl

theorem exists_label_iff {s : String} :
    (∃ t : Tag, s = t.label) ↔ s ∈ words := by
  constructor
  · rintro ⟨t, rfl⟩
    cases t <;> decide
  · intro h
    simp only [words, List.mem_cons, List.not_mem_nil, or_false] at h
    rcases h with rfl | rfl | rfl | rfl
    exacts [⟨message, rfl⟩, ⟨labels, rfl⟩, ⟨help, rfl⟩, ⟨note, rfl⟩]

theorem not_keyword {s : String} (h : s ∈ words) : s ∉ keywords := by
  simp only [words, List.mem_cons, List.not_mem_nil, or_false] at h
  rcases h with rfl | rfl | rfl | rfl <;> decide

theorem ofLabel?_eq_none {s : String} (h : s ∉ words) : ofLabel? s = none := by
  rw [ofLabel?, List.find?_eq_none]
  intro t _ ht
  exact h (exists_label_iff.mp ⟨t, (beq_iff_eq.mp ht).symm⟩)

end Tag

namespace Arguments

theorem get?_empty (t : Tag) : (empty : Arguments E).get? t = none := by
  cases t <;> rfl

theorem get?_set (out : Arguments E) (t u : Tag) (e : E) :
    (out.set t e).get? u = if u = t then some e else out.get? u := by
  cases t <;> cases u <;> rfl

theorem ext_get? {out out' : Arguments E} (h : ∀ t, out.get? t = out'.get? t) :
    out = out' := by
  obtain ⟨message, labels, help, note⟩ := out
  obtain ⟨message', labels', help', note'⟩ := out'
  obtain rfl : message = message' := h .message
  obtain rfl : labels = labels' := h .labels
  obtain rfl : help = help' := h .help
  obtain rfl : note = note' := h .note
  rfl

theorem isClean_iff {reader : ExpressionReader E} {out : Arguments E} :
    out.isClean reader = true ↔
      ∀ t e, out.get? t = some e → reader.isClean e = true := by
  simp only [isClean, List.all_cons, List.all_nil, Bool.and_true,
    Bool.and_eq_true, Option.all_eq_true]
  constructor
  · rintro ⟨hMessage, hLabels, hHelp, hNote⟩ t e ht
    cases t
    exacts [hMessage e ht, hLabels e ht, hHelp e ht, hNote e ht]
  · intro h
    exact ⟨h .message, h .labels, h .help, h .note⟩

end Arguments

/-! ## Written arguments -/

structure Argument (E : Type) where
  word : String
  /-- Whether the expression begins with a sign directly behind the `=`. -/
  joined : Bool
  /-- What the expression is written as. -/
  written : List Piece
  expression : E

/-- Nothing follows an argument, or a comma does. -/
def AtBoundary (rest : List Piece) : Prop :=
  rest = [] ∨ ∃ joined rest', rest = .sign ',' joined :: rest'

namespace Argument

def pieces (a : Argument E) : List Piece :=
  .word a.word :: .sign '=' a.joined :: a.written

/-- The reader of expressions reads the expression of an argument as far as it
is written, and leaves nothing over between its brackets. -/
structure WellWritten (reader : ExpressionReader E) (a : Argument E) :
    Prop where
  reads : ∀ rest, AtBoundary rest →
    reader.read (a.written ++ rest) = .ok (a.expression, rest)
  clean : reader.isClean a.expression = true

/-- What is wrong with an argument behind others: its tag is unknown, or was
there before. A keyword is named as such, since it cannot be a tag at all. -/
inductive Fault (before : List (Argument E)) (a : Argument E) :
    Problem → Prop where
  | keyword : a.word ∈ keywords → Fault before a (.keyword a.word)
  | unknown : a.word ∉ keywords → a.word ∉ Tag.words →
      Fault before a (.unknownTag a.word)
  | repeated : a.word ∈ before.map word → Fault before a (.repeatedTag a.word)

end Argument

/-- The pieces of arguments with commas between them, and perhaps one behind
the last. -/
def argumentPieces : List (Argument E) → Bool → List Piece
  | [], _ => []
  | [a], lastComma => a.pieces ++ if lastComma then [.sign ',' false] else []
  | a :: rest, lastComma =>
      a.pieces ++ .sign ',' false :: argumentPieces rest lastComma

/-- A comma follows every argument, but perhaps the last. -/
theorem argumentPieces_cons (a : Argument E) (rest : List (Argument E))
    (lastComma : Bool) :
    argumentPieces (a :: rest) lastComma = a.pieces ∧ rest = [] ∨
      argumentPieces (a :: rest) lastComma
        = a.pieces ++ .sign ',' false :: argumentPieces rest lastComma := by
  cases rest with
  | nil =>
      cases lastComma with
      | false => exact Or.inl ⟨List.append_nil a.pieces, rfl⟩
      | true => exact Or.inr rfl
  | cons b rest => exact Or.inr rfl

/-! ## Proper lists -/

/-- All tags are known, and no two are the same. -/
structure IsProper (given : List (Argument E)) : Prop where
  known : ∀ a ∈ given, a.word ∈ Tag.words
  distinct : (given.map Argument.word).Nodup

namespace IsProper

theorem nil : IsProper ([] : List (Argument E)) := ⟨by simp, List.nodup_nil⟩

theorem concat {before : List (Argument E)} {a : Argument E}
    (h : IsProper before) (hKnown : a.word ∈ Tag.words)
    (hNew : a.word ∉ before.map Argument.word) :
    IsProper (before ++ [a]) := by
  constructor
  · intro b hb
    rcases List.mem_append.mp hb with hb | hb
    · exact h.known b hb
    · rwa [List.mem_singleton.mp hb]
  · rw [List.map_append]
    exact h.distinct.append (List.nodup_singleton _) (by simpa using hNew)

theorem perm {given given' : List (Argument E)} (h : IsProper given)
    (hPerm : given'.Perm given) :
    IsProper given' :=
  ⟨fun a ha => h.known a (hPerm.mem_iff.mp ha),
    (hPerm.map _).nodup_iff.mpr h.distinct⟩

end IsProper

theorem Argument.Fault.not_isProper {before after : List (Argument E)}
    {a : Argument E} {problem : Problem} (h : a.Fault before problem) :
    ¬ IsProper (before ++ a :: after) := by
  intro hProper
  cases h with
  | keyword hKeyword =>
      exact Tag.not_keyword (hProper.known a (by simp)) hKeyword
  | unknown _ hUnknown => exact hUnknown (hProper.known a (by simp))
  | repeated hRepeated =>
      have hDistinct := hProper.distinct
      rw [List.map_append, List.map_cons] at hDistinct
      exact List.disjoint_of_nodup_append hDistinct hRepeated List.mem_cons_self

/-- A tag that was there before is known, so only one thing can be wrong. -/
theorem Argument.Fault.problem_eq {before : List (Argument E)} {a : Argument E}
    {problem : Problem} (hBefore : IsProper before)
    (h : a.Fault before problem) :
    problem =
      if a.word ∈ keywords then .keyword a.word
      else if a.word ∈ Tag.words then .repeatedTag a.word
      else .unknownTag a.word := by
  cases h with
  | keyword hKeyword => rw [if_pos hKeyword]
  | unknown hWord hUnknown => rw [if_neg hWord, if_neg hUnknown]
  | repeated hRepeated =>
      obtain ⟨b, hb, hWord⟩ := List.mem_map.mp hRepeated
      have hKnown : a.word ∈ Tag.words := hWord ▸ hBefore.known b hb
      rw [if_neg (Tag.not_keyword hKnown), if_pos hKnown]

/-- The first argument with which something is wrong, and what it is. -/
def FirstFault (given : List (Argument E)) (problem : Problem) : Prop :=
  ∃ before a after, given = before ++ a :: after ∧ IsProper before ∧
    a.Fault before problem

theorem FirstFault.not_isProper {given : List (Argument E)} {problem : Problem}
    (h : FirstFault given problem) : ¬ IsProper given := by
  obtain ⟨before, a, after, rfl, -, hFault⟩ := h
  exact hFault.not_isProper

theorem FirstFault.unique {given : List (Argument E)}
    {problem problem' : Problem} (h : FirstFault given problem)
    (h' : FirstFault given problem') : problem = problem' := by
  obtain ⟨before, a, after, rfl, hBefore, hFault⟩ := h
  obtain ⟨before', a', after', hGiven, hBefore', hFault'⟩ := h'
  rcases List.append_eq_append_iff.mp hGiven with ⟨between, rfl, hRest⟩
    | ⟨between, rfl, hRest⟩
  · cases between with
    | nil =>
        obtain ⟨rfl, -⟩ := List.cons.inj hRest
        rw [List.append_nil] at hFault'
        exact (hFault.problem_eq hBefore).trans
          (hFault'.problem_eq hBefore).symm
    | cons b between =>
        obtain ⟨rfl, -⟩ := List.cons.inj hRest
        exact absurd hBefore' hFault.not_isProper
  · cases between with
    | nil =>
        obtain ⟨rfl, -⟩ := List.cons.inj hRest
        rw [List.append_nil] at hBefore hFault
        exact (hFault.problem_eq hBefore).trans
          (hFault'.problem_eq hBefore).symm
    | cons b between =>
        obtain ⟨rfl, -⟩ := List.cons.inj hRest
        exact absurd hBefore hFault'.not_isProper

/-! ## What is kept -/

/-- Each slot has the expression that is given for its tag, and none if there
is none. -/
def Arguments.Hold (out : Arguments E) (given : List (Argument E)) : Prop :=
  ∀ slot ∈ [(out.message, "message"), (out.labels, "labels"),
      (out.help, "help"), (out.note, "note")],
    ∀ e, slot.1 = some e ↔
      ∃ a ∈ given, a.word = slot.2 ∧ a.expression = e

namespace Arguments

variable {out out' : Arguments E} {given given' before : List (Argument E)}

theorem hold_iff : out.Hold given ↔
    ∀ t e, out.get? t = some e ↔
      ∃ a ∈ given, a.word = t.label ∧ a.expression = e := by
  constructor
  · intro h t
    cases t
    exacts [h (_, "message") (by simp), h (_, "labels") (by simp),
      h (_, "help") (by simp), h (_, "note") (by simp)]
  · intro h slot hSlot
    simp only [List.mem_cons, List.not_mem_nil, or_false] at hSlot
    rcases hSlot with rfl | rfl | rfl | rfl
    exacts [h .message, h .labels, h .help, h .note]

theorem hold_empty : (empty : Arguments E).Hold [] := by
  rw [hold_iff]
  simp [get?_empty]

theorem Hold.isSome_get? (h : out.Hold given) (t : Tag) :
    (out.get? t).isSome = true ↔ t.label ∈ given.map Argument.word := by
  rw [Option.isSome_iff_exists, List.mem_map]
  constructor
  · rintro ⟨e, he⟩
    obtain ⟨a, ha, hWord, -⟩ := (hold_iff.mp h t e).mp he
    exact ⟨a, ha, hWord⟩
  · rintro ⟨a, ha, hWord⟩
    exact ⟨a.expression, (hold_iff.mp h t _).mpr ⟨a, ha, hWord, rfl⟩⟩

theorem Hold.set {a : Argument E} {t : Tag} (h : out.Hold before)
    (hWord : a.word = t.label) (hNew : a.word ∉ before.map Argument.word) :
    (out.set t a.expression).Hold (before ++ [a]) := by
  rw [hold_iff] at h ⊢
  intro u e
  rw [get?_set]
  by_cases hut : u = t
  · subst hut
    rw [if_pos rfl, Option.some_inj]
    constructor
    · intro he
      exact ⟨a, by simp, hWord, he⟩
    · rintro ⟨b, hb, hbWord, hbe⟩
      rcases List.mem_append.mp hb with hb | hb
      · exact absurd (List.mem_map.mpr ⟨b, hb, hbWord.trans hWord.symm⟩) hNew
      · rwa [List.mem_singleton.mp hb] at hbe
  · rw [if_neg hut, h u e]
    constructor
    · rintro ⟨b, hb, hbe⟩
      exact ⟨b, List.mem_append_left _ hb, hbe⟩
    · rintro ⟨b, hb, hbWord, hbe⟩
      rcases List.mem_append.mp hb with hb | hb
      · exact ⟨b, hb, hbWord, hbe⟩
      · rw [List.mem_singleton.mp hb, hWord] at hbWord
        exact absurd (Tag.label_injective hbWord).symm hut

/-- What is kept does not depend on the order. -/
theorem Hold.eq_of_perm (h : out.Hold given) (h' : out'.Hold given')
    (hPerm : given'.Perm given) :
    out' = out := by
  apply ext_get?
  intro t
  ext e
  rw [hold_iff.mp h' t e, hold_iff.mp h t e]
  simp only [hPerm.mem_iff]

theorem Hold.isClean {reader : ExpressionReader E} (h : out.Hold given)
    (hGiven : ∀ a ∈ given, a.WellWritten reader) :
    out.isClean reader = true := by
  rw [isClean_iff]
  intro t e he
  obtain ⟨a, ha, -, rfl⟩ := (hold_iff.mp h t e).mp he
  exact (hGiven a ha).clean

/-! ## Reading -/

section Reading

variable {reader : ExpressionReader E} {a : Argument E} {rest : List Piece}

theorem sign_cons (c : Char) (joined : Bool) :
    sign c (.sign c joined :: rest) = .ok rest := by
  simp [sign]

theorem readOne_keyword (out : Arguments E) (hWord : a.word ∈ keywords) :
    out.readOne reader (a.pieces ++ rest) = .error (.keyword a.word) := by
  have hRead : identifier (a.pieces ++ rest) = .error (.keyword a.word) := by
    have hKeyword : keywords.contains a.word = true := by simpa using hWord
    simp only [Argument.pieces, List.cons_append, identifier, hKeyword, if_true]
  simp only [readOne, hRead, bind, Except.bind]

/-- What is done with an argument is decided by its tag. -/
theorem readOne_pieces (out : Arguments E) (hWord : a.word ∉ keywords)
    (ha : a.WellWritten reader) (hRest : AtBoundary rest) :
    out.readOne reader (a.pieces ++ rest) =
      match Tag.ofLabel? a.word with
      | none => .error (.unknownTag a.word)
      | some t =>
          if (out.get? t).isSome then .error (.repeatedTag a.word)
          else .ok (out.set t a.expression, rest) := by
  have hRead : identifier (a.pieces ++ rest)
      = .ok (a.word, .sign '=' a.joined :: (a.written ++ rest)) := by
    have hKeyword : keywords.contains a.word = false := by simpa using hWord
    simp only [Argument.pieces, List.cons_append, identifier, hKeyword,
      Bool.false_eq_true, if_false]
  cases hTag : Tag.ofLabel? a.word with
  | none => simp only [readOne, hRead, sign_cons, hTag, bind, Except.bind]
  | some t =>
      simp only [readOne, hRead, sign_cons, hTag, bind, Except.bind,
        ha.reads rest hRest, pure, Except.pure]

/-- An argument is kept with those before it, or something is wrong with it. -/
theorem readOne_cases (hOut : out.Hold before) (hBefore : IsProper before)
    (ha : a.WellWritten reader) (hRest : AtBoundary rest) :
    (IsProper (before ++ [a]) ∧
      ∃ out', out.readOne reader (a.pieces ++ rest) = .ok (out', rest) ∧
        out'.Hold (before ++ [a])) ∨
      ∃ problem, a.Fault before problem ∧
        out.readOne reader (a.pieces ++ rest) = .error problem := by
  by_cases hWord : a.word ∈ keywords
  · exact Or.inr ⟨_, .keyword hWord, readOne_keyword out hWord⟩
  rw [readOne_pieces out hWord ha hRest]
  by_cases hKnown : a.word ∈ Tag.words
  · obtain ⟨t, ht⟩ := Tag.exists_label_iff.mpr hKnown
    rw [ht, Tag.ofLabel?_label]
    by_cases hNew : a.word ∈ before.map Argument.word
    · have hTaken : (out.get? t).isSome = true :=
        (hOut.isSome_get? t).mpr (ht ▸ hNew)
      refine Or.inr ⟨_, .repeated hNew, ?_⟩
      simp only [hTaken, if_true, ht]
    · have hFree : ¬ (out.get? t).isSome = true := fun h =>
        hNew (ht ▸ (hOut.isSome_get? t).mp h)
      exact Or.inl ⟨hBefore.concat hKnown hNew, _, if_neg hFree,
        hOut.set ht hNew⟩
  · rw [Tag.ofLabel?_eq_none hKnown]
    exact Or.inr ⟨_, .unknown hWord hKnown, rfl⟩

variable {p : Piece} {ps : List Piece}

theorem readAll_nil (out : Arguments E) : out.readAll reader [] = .ok out := by
  rw [readAll]
  rfl

theorem readAll_of_error {problem : Problem}
    (h : out.readOne reader (p :: ps) = .error problem) :
    out.readAll reader (p :: ps) = .error problem := by
  rw [readAll]
  simp only [List.isEmpty_cons, Bool.false_eq_true, if_false]
  split <;> simp_all

theorem readAll_of_last (h : out.readOne reader (p :: ps) = .ok (out', [])) :
    out.readAll reader (p :: ps) = .ok out' := by
  rw [readAll]
  simp only [List.isEmpty_cons, Bool.false_eq_true, if_false]
  split <;> simp_all

theorem readAll_of_comma {joined : Bool}
    (h : out.readOne reader (p :: ps) = .ok (out', .sign ',' joined :: rest)) :
    out.readAll reader (p :: ps) = out'.readAll reader rest := by
  rw [readAll]
  simp only [List.isEmpty_cons, Bool.false_eq_true, if_false]
  split
  · simp_all
  · simp_all
  · next b q tail hb =>
      rw [h] at hb
      simp only [Except.ok.injEq, Prod.mk.injEq, List.cons.injEq] at hb
      obtain ⟨rfl, rfl, rfl⟩ := hb
      split
      · next hSign => simp [sign_cons] at hSign
      · next hSign =>
          rw [sign_cons, Except.ok.injEq] at hSign
          rw [hSign]

/-- The arguments read before and those that are read make one list, and it is
kept as a whole or refused for the first fault in it. -/
theorem readAll_cases (lastComma : Bool) (hOut : out.Hold before)
    (hBefore : IsProper before) (hGiven : ∀ a ∈ given, a.WellWritten reader) :
    (IsProper (before ++ given) ∧
        ∃ out', out.readAll reader (argumentPieces given lastComma) = .ok out' ∧
          out'.Hold (before ++ given)) ∨
      ∃ problem, FirstFault (before ++ given) problem ∧
        out.readAll reader (argumentPieces given lastComma) =
          .error problem := by
  -- Induction on what is still to be read; the invariant is that `out` keeps
  -- what was read.
  induction given generalizing out before with
  | nil =>
      rw [List.append_nil]
      exact Or.inl ⟨hBefore, out, readAll_nil out, hOut⟩
  | cons a rest ih =>
      have ha := hGiven a List.mem_cons_self
      have hFirst : ∀ problem, a.Fault before problem →
          FirstFault (before ++ a :: rest) problem :=
        fun problem h => ⟨before, a, rest, rfl, hBefore, h⟩
      rcases argumentPieces_cons a rest lastComma with ⟨hPieces, rfl⟩ | hPieces
      · rw [hPieces]
        have hStep := readOne_cases hOut hBefore ha (Or.inl rfl)
        rw [List.append_nil] at hStep
        rcases hStep with ⟨hProper, out', hRead, hOut'⟩
          | ⟨problem, hFault, hRead⟩
        · exact Or.inl ⟨hProper, out', readAll_of_last hRead, hOut'⟩
        · exact Or.inr ⟨problem, hFirst problem hFault, readAll_of_error hRead⟩
      · rw [hPieces]
        have hRest :
            AtBoundary (.sign ',' false :: argumentPieces rest lastComma) :=
          Or.inr ⟨false, _, rfl⟩
        rcases readOne_cases hOut hBefore ha hRest with
          ⟨hProper, out', hRead, hOut'⟩ | ⟨problem, hFault, hRead⟩
        · have ih := ih hOut' hProper fun b hb =>
            hGiven b (List.mem_cons_of_mem a hb)
          rw [List.append_assoc, List.singleton_append] at ih
          have hAll : out.readAll reader
              (a.pieces ++ .sign ',' false :: argumentPieces rest lastComma)
              = out'.readAll reader (argumentPieces rest lastComma) :=
                readAll_of_comma hRead
          rw [hAll]
          exact ih
        · exact Or.inr ⟨problem, hFirst problem hFault, readAll_of_error hRead⟩

/-- A list of arguments is kept as a whole, or refused for its first fault. -/
theorem ofPieces_cases (lastComma : Bool)
    (hGiven : ∀ a ∈ given, a.WellWritten reader) :
    (IsProper given ∧
        ∃ out, ofPieces reader (argumentPieces given lastComma) = .ok out ∧
          out.Hold given) ∨
      ∃ problem, FirstFault given problem ∧
        ofPieces reader (argumentPieces given lastComma) = .error problem := by
  rcases readAll_cases lastComma hold_empty IsProper.nil hGiven with
    ⟨hProper, out, hRead, hOut⟩ | ⟨problem, hFault, hRead⟩
  · refine Or.inl ⟨hProper, out, ?_, hOut⟩
    rw [ofPieces, hRead]
    exact if_pos (hOut.isClean hGiven)
  · refine Or.inr ⟨problem, hFault, ?_⟩
    rw [ofPieces, hRead]

theorem ofPieces_eq_ok_iff (lastComma : Bool)
    (hGiven : ∀ a ∈ given, a.WellWritten reader) :
    (∃ out, ofPieces reader (argumentPieces given lastComma) = .ok out) ↔
      IsProper given := by
  rcases ofPieces_cases lastComma hGiven with ⟨hProper, out, hRead, -⟩
    | ⟨problem, hFault, hRead⟩
  · constructor
    · intro _
      exact hProper
    · intro _
      exact ⟨out, hRead⟩
  · constructor
    · rintro ⟨out, h⟩
      rw [hRead] at h
      cases h
    · intro hProper
      exact absurd hProper hFault.not_isProper

theorem ofPieces_eq_error_iff (lastComma : Bool)
    (hGiven : ∀ a ∈ given, a.WellWritten reader) (problem : Problem) :
    ofPieces reader (argumentPieces given lastComma) = .error problem ↔
      FirstFault given problem := by
  rcases ofPieces_cases lastComma hGiven with ⟨hProper, out, hRead, -⟩
    | ⟨problem', hFault, hRead⟩
  · rw [hRead]
    constructor
    · intro h
      cases h
    · intro hFault
      exact absurd hProper hFault.not_isProper
  · rw [hRead, Except.error.injEq]
    constructor
    · rintro rfl
      exact hFault
    · exact hFault.unique

theorem hold_of_ofPieces {lastComma : Bool}
    (hGiven : ∀ a ∈ given, a.WellWritten reader)
    (h : ofPieces reader (argumentPieces given lastComma) = .ok out) :
    out.Hold given := by
  rcases ofPieces_cases lastComma hGiven with ⟨-, out', hRead, hOut⟩
    | ⟨problem, -, hRead⟩
  · rw [hRead] at h
    exact Except.ok.inj h ▸ hOut
  · rw [hRead] at h
    cases h

theorem ofPieces_of_perm {lastComma : Bool}
    (hGiven : ∀ a ∈ given, a.WellWritten reader)
    (h : ofPieces reader (argumentPieces given lastComma) = .ok out)
    (hPerm : given'.Perm given) (lastComma' : Bool) :
    ofPieces reader (argumentPieces given' lastComma') = .ok out := by
  have hGiven' : ∀ a ∈ given', a.WellWritten reader :=
    fun a ha => hGiven a (hPerm.mem_iff.mp ha)
  have hProper : IsProper given :=
    (ofPieces_eq_ok_iff lastComma hGiven).mp ⟨out, h⟩
  obtain ⟨out', h'⟩ :=
    (ofPieces_eq_ok_iff lastComma' hGiven').mpr (hProper.perm hPerm)
  have hOut := hold_of_ofPieces hGiven h
  rw [h', hOut.eq_of_perm (hold_of_ofPieces hGiven' h') hPerm]

end Reading

end Arguments

/-! ## Names, literals and lists -/

/-- What follows a piece matters only if no expression can be read from it. -/
theorem Expression.ofPiece_eq_ok {last : Bool} {p : Piece} {e : Expression}
    (h : ofPiece last p = .ok e) (last' : Bool) : ofPiece last' p = .ok e := by
  cases p with
  | word s =>
      rw [ofPiece] at h ⊢
      by_cases hs : (keywords.contains s && !expressionKeywords.contains s) =
        true
      · rw [if_pos hs] at h
        cases hDue : dueBehind? s <;> rw [hDue] at h <;> cases h
      · rw [if_neg hs] at h ⊢
        exact h
  | literal s => rwa [ofPiece] at h ⊢
  | sign c joined => simp [ofPiece] at h
  | group b inner =>
      cases b with
      | square => rwa [ofPiece] at h ⊢
      | round => simp [ofPiece] at h
      | curly => simp [ofPiece] at h

theorem Argument.wellWritten_of_piece {last : Bool} {p : Piece} {e : Expression}
    (h : Expression.ofPiece last p = .ok e) (hClean : e.isClean = true)
    (word : String)
    (joined : Bool) :
    (⟨word, joined, [p], e⟩ : Argument Expression).WellWritten
      Expression.reader := by
  refine ⟨?_, hClean⟩
  intro rest _
  show (Expression.ofPiece rest.isEmpty p).map (fun e => (e, rest)) =
    .ok (e, rest)
  rw [Expression.ofPiece_eq_ok h]
  rfl

end PolyAlgebra.Directive
