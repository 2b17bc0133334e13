import PolyAlgebra.Directive.Comment
import PolyAlgebra.Directive.Literal

/-!
# Marks and pieces of declarations

A declaration is text in the language of the program that reports are
generated for. It is cut into marks: words, literals, signs and single
brackets. Blanks and comments between marks are left out; documentation
becomes the marks of an attribute. What stands between brackets is then put
together to pieces. Brackets of one kind close only what brackets of that kind
have opened.
-/

namespace PolyAlgebra.Directive

/-! ## Brackets -/

inductive Brackets where
  | round
  | square
  | curly
  deriving DecidableEq, Repr

namespace Brackets

def opening : Brackets → Char
  | round => '('
  | square => '['
  | curly => '\x7b'

def closing : Brackets → Char
  | round => ')'
  | square => ']'
  | curly => '\x7d'

def ofOpening? (c : Char) : Option Brackets :=
  [round, square, curly].find? fun b => b.opening == c

def ofClosing? (c : Char) : Option Brackets :=
  [round, square, curly].find? fun b => b.closing == c

end Brackets

/-- The smallest parts of a declaration. -/
inductive Mark where
  | word (s : String)
  | literal (s : String)
  /-- A sign, and whether another one follows directly. -/
  | sign (c : Char) (joined : Bool)
  | opening (b : Brackets)
  | closing (b : Brackets)
  deriving DecidableEq, Repr

/-! ## Signs and words -/

/-- Does a text begin with a sign? The start mark of a comment is none. -/
def beginsSign : List Char → Bool
  | '/' :: '/' :: _ => false
  | '/' :: '*' :: _ => false
  | c :: _ => "~!@#$%^&*-=+|;:,<.>/?'".toList.contains c
  | [] => false

/-- The words that are no names even behind `r#`. -/
def unnamable : List String := ["_", "super", "self", "Self", "crate"]

/-- Behind the word that a text begins with. Behind `r#` stands a name, which
may be spelled like a keyword. -/
def behindName? : List Char → Option (List Char)
  | 'r' :: '#' :: rest =>
      (behindWord? rest).bind fun behind =>
        if unnamable.contains
          (String.ofList (rest.take (rest.length - behind.length))) then none
        else some behind
  | cs => behindWord? cs

def beginsLettered (cs : List Char) : Bool :=
  ["r\"", "r#\"", "r##", "b\"", "b'", "br\"", "br#", "c\"", "cr\"", "cr#"].any
    fun start => start.toList.isPrefixOf cs

/-- The sign that a text begins with, and what stands behind it. A quote is a
sign only before a name that no further quote follows. -/
def sign? : List Char → Option (Mark × List Char)
  | [] => none
  | c :: rest =>
      if beginsSign (c :: rest) then
        if c == '\'' then
          (behindName? rest).bind fun behind =>
            if behind.head? == some '\'' then none
            else if behind.head? == some '#' &&
              !"r#".toList.isPrefixOf rest then none
            else some (.sign c true, rest)
        else some (.sign c (beginsSign rest), rest)
      else none

/-! ## Marks of a text -/

def textBefore (rest cs : List Char) : String :=
  String.ofList (cs.take (cs.length - rest.length))

def bracket? : List Char → Option (Mark × List Char)
  | [] => none
  | c :: rest =>
      ((Brackets.ofOpening? c).map Mark.opening).or
        ((Brackets.ofClosing? c).map Mark.closing)
        |>.map fun m => (m, rest)

def literal? (cs : List Char) : Option (Mark × List Char) :=
  (behindLiteral? cs).map fun rest => (.literal (textBefore rest cs), rest)

def word? (cs : List Char) : Option (Mark × List Char) :=
  if beginsLettered cs then none
  else (behindName? cs).map fun rest => (.word (textBefore rest cs), rest)

def mark? (cs : List Char) : Option (Mark × List Char) :=
  (literal? cs).or ((bracket? cs).or ((sign? cs).or (word? cs)))

def Documentation.marks (d : Documentation) : List Mark :=
  .sign '#' false :: (if d.inner then [.sign '!' false] else []) ++
    [.opening .square, .word "doc", .sign '=' false,
      .literal ("\"" ++ String.ofList d.text ++ "\""), .closing .square]

def firstMarks? (cs : List Char) : Option (List Mark × List Char) :=
  ((documentation? cs).map fun (d, rest) => (d.marks, rest)).or
    ((mark? cs).map fun (m, rest) => ([m], rest))

theorem length_behindName? {cs rest : List Char}
    (h : behindName? cs = some rest) :
    rest.length < cs.length := by
  unfold behindName? at h
  split at h
  · obtain ⟨behind, hBehind, h⟩ := Option.bind_eq_some_iff.1 h
    split at h
    · simp at h
    · have := length_behindWord? hBehind
      simp only [Option.some.injEq] at h
      simp only [← h, List.length_cons]
      omega
  · exact length_behindWord? h

theorem length_sign? {cs rest : List Char} {m : Mark}
    (h : sign? cs = some (m, rest)) :
    rest.length < cs.length := by
  unfold sign? at h
  split at h
  · simp at h
  · split at h
    · split at h
      · obtain ⟨behind, _, h⟩ := Option.bind_eq_some_iff.1 h
        split at h
        · simp at h
        · split at h
          · simp at h
          · simp only [Option.some.injEq, Prod.mk.injEq] at h
            simp [h.2]
      · simp only [Option.some.injEq, Prod.mk.injEq] at h
        simp [h.2]
    · simp at h

theorem length_mark? {cs rest : List Char} {m : Mark}
    (h : mark? cs = some (m, rest)) :
    rest.length < cs.length := by
  unfold mark? at h
  simp only [Option.or_eq_some_iff] at h
  rcases h with h | ⟨-, h | ⟨-, h | ⟨-, h⟩⟩⟩
  · obtain ⟨behind, hBehind, h⟩ := Option.map_eq_some_iff.1 h
    simp only [Prod.mk.injEq] at h
    exact h.2 ▸ length_behindLiteral? hBehind
  · unfold bracket? at h
    split at h
    · simp at h
    · obtain ⟨m, _, h⟩ := Option.map_eq_some_iff.1 h
      simp only [Prod.mk.injEq] at h
      simp [h.2]
  · exact length_sign? h
  · unfold word? at h
    split at h
    · simp at h
    · obtain ⟨behind, hBehind, h⟩ := Option.map_eq_some_iff.1 h
      simp only [Prod.mk.injEq] at h
      exact h.2 ▸ length_behindName? hBehind

theorem length_firstMarks? {cs rest : List Char} {ms : List Mark}
    (h : firstMarks? cs = some (ms, rest)) : rest.length < cs.length := by
  unfold firstMarks? at h
  rw [Option.or_eq_some_iff] at h
  rcases h with h | ⟨-, h⟩
  · obtain ⟨⟨d, behind⟩, hBehind, h⟩ := Option.map_eq_some_iff.1 h
    simp only [Prod.mk.injEq] at h
    exact h.2 ▸ length_documentation? hBehind
  · obtain ⟨⟨m, behind⟩, hBehind, h⟩ := Option.map_eq_some_iff.1 h
    simp only [Prod.mk.injEq] at h
    exact h.2 ▸ length_mark? hBehind

/-- The marks of a text; none if some part of it is no mark. -/
def marks? (cs : List Char) : Option (List Mark) :=
  if (behindBlanks cs).isEmpty then some []
  else
    match h : firstMarks? (behindBlanks cs) with
    | none => none
    | some (ms, rest) =>
        have : rest.length < cs.length :=
          Nat.lt_of_lt_of_le (length_firstMarks? h) (length_behindBlanks cs)
        (marks? rest).map (ms ++ ·)
  termination_by cs.length

/-! ## Pieces -/

inductive Piece where
  | word (s : String)
  | literal (s : String)
  | sign (c : Char) (joined : Bool)
  | group (b : Brackets) (inner : List Piece)

/-! ## Reading pieces -/

/-- Puts marks together. The pieces found so far are given last first, and so
are the brackets that are open, each with the pieces before it. None if a
bracket has no partner. -/
def nest (outer : List (Brackets × List Piece)) (found : List Piece) :
    List Mark → Option (List Piece)
  | [] => if outer.isEmpty then some found.reverse else none
  | .word s :: rest => nest outer (.word s :: found) rest
  | .literal s :: rest => nest outer (.literal s :: found) rest
  | .sign c joined :: rest => nest outer (.sign c joined :: found) rest
  | .opening b :: rest => nest ((b, found) :: outer) [] rest
  | .closing b :: rest =>
      match outer with
      | [] => none
      | (opened, before) :: outer =>
          if opened = b then nest outer (.group b found.reverse :: before) rest
          else none

/-- The pieces of a text; none if a part of it is no mark or a bracket has no
partner. A byte order mark may begin the text. -/
def pieces? (text : String) : Option (List Piece) :=
  let cs := match text.toList with
    | '\uFEFF' :: rest => rest
    | cs => cs
  (marks? cs).bind (nest [] [])

/-! ## Writing pieces -/

mutual

def Piece.text : Piece → String
  | .word s => s
  | .literal s => s
  | .sign c _ => c.toString
  | .group b inner => b.opening.toString ++ textOf inner ++ b.closing.toString

def textOf : List Piece → String
  | [] => ""
  | [p] => p.text
  | p :: rest => p.text ++ " " ++ textOf rest

end

end PolyAlgebra.Directive
