import PolyAlgebra.Directive.Mark

/-!
# Arguments of a directive

The arguments give expressions for tags: `message = "…", help = "…"`. Each of
the four tags may stand once, in any order, and a comma may follow the last
argument. What an expression is, and where it ends, is up to the language of
the declaration, so the arguments are read with any reader of expressions. The
one given here knows names, literals and lists.

Whatever is wrong with the arguments, or with the declaration around them, is
told as a problem.
-/

namespace PolyAlgebra.Directive

/-! ## Problems -/

inductive Due where
  | declaration
  | identifier
  /-- The name behind a double colon in a path. -/
  | segment
  | brackets
  | block
  /-- The fields of the declaration, or its end. -/
  | body
  /-- The end of a declaration without named fields. -/
  | close
  | fieldType
  /-- What a pointer allows with its target. -/
  | mutability
  | sign (c : Char)
  | expression
  /-- What stands behind the first item of a list. -/
  | separator
  deriving DecidableEq, Repr

namespace Due

def text : Due → String
  | declaration => "expected `struct`"
  | identifier => "expected identifier"
  | segment => "expected path segment after `::`"
  | brackets => "expected square brackets"
  | block => "expected curly braces"
  | body => "expected one of: `where`, parentheses, curly braces, `;`"
  | close => "expected `where` or `;`"
  | fieldType =>
      "expected one of: `for`, parentheses, `fn`, `unsafe`, `extern`, " ++
        "identifier, `::`, `<`, `dyn`, square brackets, `*`, `&`, `!`, " ++
        "`impl`, `_`, lifetime"
  | mutability => "expected `const` or `mut`"
  | sign c => s!"expected `{c}`"
  | expression => "expected an expression"
  | separator => "expected `,` or `;`"

/-- Does the message say so when the input has ended? It does not for signs. -/
def mentionsEnd : Due → Bool
  | sign _ => false
  | _ => true

end Due

inductive Problem where
  /-- The text has a part that is no mark, or a bracket without a partner. -/
  | unbalanced
  /-- Something else was due than what stands there, or than the end of the
  input. -/
  | expected (due : Due) (atEnd : Bool)
  | keyword (word : String)
  /-- Something stands behind what should end the text between brackets, or
  the whole text. -/
  | trailing (inside : Option Brackets)
  /-- The value of an attribute begins with an attribute. -/
  | nestedAttribute
  | noArguments
  /-- The directive is given a value in place of arguments. -/
  | assigned
  | repeatedDirective
  | unknownTag (tag : String)
  | repeatedTag (tag : String)
  | missingMessage
  deriving DecidableEq, Repr

namespace Problem

def text : Problem → String
  | unbalanced => "cannot parse string into token stream"
  | expected due atEnd =>
      if atEnd && due.mentionsEnd then "unexpected end of input, " ++ due.text
      else due.text
  | keyword word => s!"expected identifier, found keyword `{word}`"
  | trailing none => "unexpected token"
  | trailing (some b) =>
      "unexpected token, expected `" ++ b.closing.toString ++ "`"
  | nestedAttribute => "unexpected attribute inside of attribute"
  | noArguments => "expected attribute arguments in parentheses: #[error(...)]"
  | assigned => "expected parentheses: #[error(...)]"
  | repeatedDirective => "only one `error` attribute is allowed"
  | unknownTag tag => s!"unknown tag `{tag}`"
  | repeatedTag tag => s!"duplicate tag `{tag}`"
  | missingMessage => "missing `message` tag; add `#[error(message = ...)]`"

end Problem

/-! ## Identifiers -/

def keywords : List String :=
  ["_", "abstract", "as", "async", "await", "become", "box", "break", "const",
    "continue", "crate", "do", "dyn", "else", "enum", "extern", "false",
    "final", "fn", "for", "if", "impl", "in", "let", "loop", "macro", "match",
    "mod", "move", "mut", "override", "priv", "pub", "ref", "return", "Self",
    "self", "static", "struct", "super", "trait", "true", "try", "type",
    "typeof", "unsafe", "unsized", "use", "virtual", "where", "while",
    "yield"]

def expressionKeywords : List String :=
  ["self", "Self", "super", "crate", "true", "false", "_", "break", "continue",
    "return", "yield"]

/-- What a keyword needs behind it in a larger expression that it opens. -/
def dueBehind? : String → Option Due
  | "become" => some .expression
  | "if" => some .expression
  | "match" => some .expression
  | "while" => some .expression
  | "const" => some (.sign '|')
  | "move" => some (.sign '|')
  | "static" => some (.sign '|')
  | "loop" => some .block
  | "unsafe" => some .block
  | _ => none

def identifier : List Piece → Except Problem (String × List Piece)
  | [] => .error (.expected .identifier true)
  | .word s :: rest =>
      if keywords.contains s then .error (.keyword s) else .ok (s, rest)
  | _ :: _ => .error (.expected .identifier false)

def sign (c : Char) : List Piece → Except Problem (List Piece)
  | [] => .error (.expected (.sign c) true)
  | .sign d _ :: rest =>
      if d = c then .ok rest else .error (.expected (.sign c) false)
  | _ :: _ => .error (.expected (.sign c) false)

/-! ## Expressions -/

inductive Expression where
  | name (s : String)
  | literal (s : String)
  /-- A list; a comma may follow the last item. -/
  | list (items : List Expression) (lastComma : Bool)
  /-- A list that holds one item several times. The pieces between its
  brackets that are left over behind the number of times make it
  ill-formed. -/
  | repeated (item count : Expression) (leftOver : List Piece)

namespace Expression

mutual

def toPiece : Expression → Piece
  | name s => .word s
  | literal s => .literal s
  | list items lastComma => .group .square (itemPieces items lastComma)
  | repeated item count leftOver =>
      .group .square (item.toPiece :: .sign ';' false ::
        count.toPiece :: leftOver)

/-- The pieces of items with commas between them, and perhaps one behind the
last. -/
def itemPieces : List Expression → Bool → List Piece
  | [], _ => []
  | [e], lastComma => e.toPiece :: if lastComma then [.sign ',' false] else []
  | e :: rest, lastComma =>
      e.toPiece :: .sign ',' false :: itemPieces rest lastComma

end

def text (e : Expression) : String := e.toPiece.text

mutual

/-- Is nothing left over between the brackets of a list inside? -/
def isClean : Expression → Bool
  | name _ => true
  | literal _ => true
  | list items _ => areClean items
  | repeated item count leftOver =>
      item.isClean && count.isClean && leftOver.isEmpty

def areClean : List Expression → Bool
  | [] => true
  | e :: rest => e.isClean && areClean rest

end

mutual

/-- The expression that a piece stands for: a name, a literal or a list in
square brackets. A keyword is refused for what it is, or for what is missing
behind it; `last` says that nothing follows. -/
def ofPiece (last : Bool) : Piece → Except Problem Expression
  | .word s =>
      if keywords.contains s && !expressionKeywords.contains s then
        match dueBehind? s with
        | some due => .error (.expected due last)
        | none => .error (.expected .expression false)
      else .ok (name s)
  | .literal s => .ok (literal s)
  | .group .square inner => ofInner inner
  | _ => .error (.expected .expression false)

/-- The list that stands between square brackets. What follows its first item
decides whether it names all of its items, or one and how often. -/
def ofInner : List Piece → Except Problem Expression
  | [] => .ok (list [] false)
  | [p] => (ofPiece true p).map fun e => list [e] false
  | p :: .sign ',' _ :: rest =>
      match ofPiece false p with
      | .error problem => .error problem
      | .ok e => (ofItems rest).map fun (items, lastComma) =>
          list (e :: items) lastComma
  | [p, .sign ';' _] =>
      match ofPiece false p with
      | .error problem => .error problem
      | .ok _ => .error (.expected .expression true)
  | p :: .sign ';' _ :: q :: rest =>
      match ofPiece false p with
      | .error problem => .error problem
      | .ok item => (ofPiece rest.isEmpty q).map fun count =>
          repeated item count rest
  | p :: _ :: _ =>
      match ofPiece false p with
      | .error problem => .error problem
      | .ok _ => .error (.expected .separator false)

def ofItems : List Piece → Except Problem (List Expression × Bool)
  | [] => .ok ([], true)
  | [p] => (ofPiece true p).map fun e => ([e], false)
  | p :: .sign ',' _ :: rest =>
      match ofPiece false p with
      | .error problem => .error problem
      | .ok e => (ofItems rest).map fun (items, lastComma) =>
          (e :: items, lastComma)
  | p :: _ :: _ =>
      match ofPiece false p with
      | .error problem => .error problem
      | .ok _ => .error (.expected (.sign ',') false)

end

end Expression

def expression : List Piece → Except Problem (Expression × List Piece)
  | [] => .error (.expected .expression true)
  | p :: rest => (Expression.ofPiece rest.isEmpty p).map fun e => (e, rest)

theorem length_expression {pieces rest : List Piece} {e : Expression}
    (h : expression pieces = .ok (e, rest)) : rest.length ≤ pieces.length := by
  unfold expression at h
  split at h
  · simp at h
  · next p tail =>
      cases hp : Expression.ofPiece tail.isEmpty p with
      | error problem => simp [hp, Except.map] at h
      | ok e =>
          simp only [hp, Except.map, Except.ok.injEq, Prod.mk.injEq] at h
          simp [h.2]

/-- A way to read expressions of some language. -/
structure ExpressionReader (E : Type) where
  read : List Piece → Except Problem (E × List Piece)
  /-- What stands behind an expression was there before. -/
  length_le : ∀ {pieces rest : List Piece} {e : E},
    read pieces = .ok (e, rest) →
    rest.length ≤ pieces.length
  /-- Is nothing left over between brackets in the expression? -/
  isClean : E → Bool

def Expression.reader : ExpressionReader Expression :=
  ⟨expression, length_expression, Expression.isClean⟩

/-! ## Arguments -/

/-- What a directive can say of a report. -/
inductive Tag where
  | message
  | labels
  | help
  | note
  deriving DecidableEq, Repr

namespace Tag

def label : Tag → String
  | message => "message"
  | labels => "labels"
  | help => "help"
  | note => "note"

def ofLabel? (s : String) : Option Tag :=
  [message, labels, help, note].find? fun t => t.label == s

end Tag

structure Arguments (E : Type) where
  message : Option E
  labels : Option E
  help : Option E
  note : Option E

namespace Arguments

variable {E : Type}

def empty : Arguments E := ⟨none, none, none, none⟩

def get? (a : Arguments E) : Tag → Option E
  | .message => a.message
  | .labels => a.labels
  | .help => a.help
  | .note => a.note

def set (a : Arguments E) (t : Tag) (e : E) : Arguments E :=
  match t with
  | .message => { a with message := some e }
  | .labels => { a with labels := some e }
  | .help => { a with help := some e }
  | .note => { a with note := some e }

/-- Reads one argument into what was given before, and gives what stands
behind it. Whether the tag is known and new is checked before its expression
is looked at. -/
def readOne (reader : ExpressionReader E) (a : Arguments E)
    (pieces : List Piece) :
    Except Problem (Arguments E × List Piece) := do
  let (word, rest) ← identifier pieces
  let rest ← sign '=' rest
  match Tag.ofLabel? word with
  | none => .error (.unknownTag word)
  | some tag =>
      if (a.get? tag).isSome then .error (.repeatedTag word)
      else
        let (e, rest) ← reader.read rest
        return (a.set tag e, rest)

theorem length_identifier {pieces rest : List Piece} {s : String}
    (h : identifier pieces = .ok (s, rest)) : rest.length < pieces.length := by
  unfold identifier at h
  split at h
  · simp at h
  · split at h
    · simp at h
    · simp only [Except.ok.injEq, Prod.mk.injEq] at h
      simp [h.2]
  · simp at h

theorem length_sign {c : Char} {pieces rest : List Piece}
    (h : sign c pieces = .ok rest) :
    rest.length < pieces.length := by
  unfold sign at h
  split at h
  · simp at h
  · split at h
    · simp only [Except.ok.injEq] at h
      simp [h]
    · simp at h
  · simp at h

theorem length_readOne {reader : ExpressionReader E} {a b : Arguments E}
    {pieces rest : List Piece} (h : a.readOne reader pieces = .ok (b, rest)) :
    rest.length < pieces.length := by
  simp only [readOne, bind, Except.bind] at h
  split at h
  · simp at h
  · next hWord =>
      have := length_identifier hWord
      split at h
      · simp at h
      · next hSign =>
          have := length_sign hSign
          split at h
          · simp at h
          · split at h
            · simp at h
            · split at h
              · simp at h
              · next hExpression =>
                  have := reader.length_le hExpression
                  simp only [pure, Except.pure, Except.ok.injEq,
                    Prod.mk.injEq] at h
                  rw [← h.2]
                  omega

def readAll (reader : ExpressionReader E) (a : Arguments E)
    (pieces : List Piece) :
    Except Problem (Arguments E) :=
  if pieces.isEmpty then .ok a
  else
    match h : a.readOne reader pieces with
    | .error problem => .error problem
    | .ok (b, []) => .ok b
    | .ok (b, p :: rest) =>
        match hs : sign ',' (p :: rest) with
        | .error problem => .error problem
        | .ok rest' =>
            have : rest'.length < pieces.length :=
              Nat.lt_trans (length_sign hs) (length_readOne h)
            readAll reader b rest'
  termination_by pieces.length

def isClean (reader : ExpressionReader E) (a : Arguments E) : Bool :=
  [a.message, a.labels, a.help, a.note].all fun e => e.all reader.isClean

/-- The arguments that pieces stand for. What is left over in a list is found
when all arguments are read. -/
def ofPieces (reader : ExpressionReader E) (pieces : List Piece) :
    Except Problem (Arguments E) :=
  match empty.readAll reader pieces with
  | .error problem => .error problem
  | .ok a =>
      if a.isClean reader then .ok a else .error (.trailing (some .square))

end Arguments

end PolyAlgebra.Directive
