import PolyAlgebra.Directive.Attribute

/-!
# Error declarations and their code

The fields of a declaration stand between commas, with names in curly brackets
and without in round ones. Each has attributes, perhaps a mark of visibility,
and a type. Only the names are kept.

A declaration has attributes, a name and fields. Exactly one of its attributes
must be a directive, and it must give a message. What is wrong with the
declaration itself is found before what is wrong with the directive, and what
is left over, inside an attribute or behind the declaration, is found last.

The code that makes an error declaration a kind of error is a function for its
message and one for its report. A declaration with named fields is taken apart
first, so that the expressions of the directive can use the fields. Brackets
that hold statements or fields have blanks inside.
-/

namespace PolyAlgebra.Directive

/-! ## Fields of declarations -/

inductive Fields where
  | named (names : List String)
  | unnamed
  | unit
  deriving DecidableEq, Repr

/-! ## Visibility and parts -/

/-- Leaves out a mark of visibility. Gives what kind of brackets has something
left over, and what stands behind the mark. Brackets behind the mark belong to
it only if they name where the declaration is visible. -/
def skipVisibility : List Piece → Except Problem (Option Brackets × List Piece)
  | .word "pub" :: .group .round (.word "in" :: path) :: rest =>
      (Path.read path).map fun (_, leftOver) =>
        (surplusIn .round leftOver, rest)
  | .word "pub" :: .group .round [.word s] :: rest =>
      if ["crate", "self", "super"].contains s then .ok (none, rest)
      else .ok (none, .group .round [.word s] :: rest)
  | .word "pub" :: rest => .ok (none, rest)
  | pieces => .ok (none, pieces)

def grow (pieces : List Piece) : List (List Piece) → List (List Piece)
  | [] => [pieces]
  | part :: rest => (pieces ++ part) :: rest

/-- The parts that commas end; the last one may have none. A comma inside
`depth` open angle brackets does not count, and the angle of an arrow is no
bracket. -/
def parts (depth : Nat) : List Piece → List (List Piece)
  | [] => []
  | .sign '-' true :: .sign '>' joined :: rest =>
      grow [.sign '-' true, .sign '>' joined] (parts depth rest)
  | .sign ',' joined :: rest =>
      if depth = 0 then [.sign ',' joined] :: parts 0 rest
      else grow [.sign ',' joined] (parts depth rest)
  | .sign '<' joined :: rest => grow [.sign '<' joined] (parts (depth + 1) rest)
  | .sign '>' joined :: rest => grow [.sign '>' joined] (parts (depth - 1) rest)
  | p :: rest => grow [p] (parts depth rest)

/-! ## Types of fields -/

def typeOpenings : List String :=
  ["dyn", "extern", "fn", "for", "impl", "unsafe"]

/-- What is wrong with the type of a field, which a comma or the end of the
fields ends. Of the pieces before, `complete` says whether they are a type, or
will be when the angle brackets are closed, of which `depth` are open. A type
is read only as far as to see that it begins as types do and where it ends;
what stands in brackets is not looked at. -/
def typeProblem (depth : Nat) (complete : Bool) (pieces : List Piece) :
    Option Problem :=
  match depth, pieces with
  | 0, [] => if complete then none else some (.expected .fieldType true)
  | _ + 1, [] => some (.expected (.sign ',') true)
  | depth + 1, .sign '-' true :: .sign '>' _ :: rest =>
      typeProblem (depth + 1) complete rest
  | depth + 1, .sign '<' _ :: rest => typeProblem (depth + 2) complete rest
  | depth + 1, .sign '>' _ :: rest => typeProblem depth complete rest
  | depth + 1, _ :: rest => typeProblem (depth + 1) complete rest
  | 0, p :: rest =>
      match complete, p, rest with
      | true, .sign ',' _, _ => none
      | true, .sign '+' _, rest => typeProblem 0 false rest
      | true, .sign '<' _, rest => typeProblem 1 true rest
      | true, .sign '-' true, .sign '>' _ :: rest => typeProblem 0 false rest
      | true, .sign ':' true, .sign ':' _ :: rest => typeProblem 0 false rest
      | true, .sign '!' _, .group _ _ :: rest => typeProblem 0 true rest
      | true, .group .round _, rest => typeProblem 0 true rest
      | true, _, _ => some (.expected (.sign ',') false)
      | false, .sign '&' _, .sign '\'' _ :: .word _ :: .word "mut" :: rest =>
          typeProblem 0 false rest
      | false, .sign '&' _, .sign '\'' _ :: .word _ :: rest =>
          typeProblem 0 false rest
      | false, .sign '&' _, .word "mut" :: rest => typeProblem 0 false rest
      | false, .sign '&' _, rest => typeProblem 0 false rest
      | false, .sign '*' _, .word "const" :: rest => typeProblem 0 false rest
      | false, .sign '*' _, .word "mut" :: rest => typeProblem 0 false rest
      | false, .sign '*' _, rest => some (.expected .mutability rest.isEmpty)
      | false, .sign '<' _, rest => typeProblem 1 true rest
      | false, .sign ':' true, .sign ':' _ :: rest => typeProblem 0 false rest
      | false, .sign '\'' _, .word _ :: rest => typeProblem 0 true rest
      | false, .sign '?' _, rest => typeProblem 0 false rest
      | false, .sign '!' _, rest => typeProblem 0 true rest
      | false, .group .round _, rest => typeProblem 0 true rest
      | false, .group .square _, rest => typeProblem 0 true rest
      | false, .word "for", .sign '<' _ :: rest => typeProblem 1 false rest
      | false, .word "extern", .literal _ :: rest => typeProblem 0 false rest
      | false, .word s, rest =>
          if typeOpenings.contains s then typeProblem 0 false rest
          else if keywords.contains s &&
            !(s == "_" || pathKeywords.contains s) then
            some (.expected .fieldType false)
          else typeProblem 0 true rest
      | false, _, _ => some (.expected .fieldType false)
  termination_by structural pieces

/-! ## Fields -/

def fieldName : List Piece → Except Problem (String × List Piece)
  | .word "_" :: rest => .ok ("_", rest)
  | pieces => identifier pieces

def checkType (pieces : List Piece) : Except Problem Unit :=
  match typeProblem 0 false pieces with
  | none => .ok ()
  | some problem => .error problem

/-- Reads a field with attributes, visibility and type. Gives its name, and
what kind of brackets has something left over. -/
def namedField (pieces : List Piece) :
    Except Problem (String × Option Brackets) := do
  let (_, surplus, rest) ← Attribute.readAll pieces
  let (scopeSurplus, rest) ← skipVisibility rest
  let (name, rest) ← fieldName rest
  checkType (← sign ':' rest)
  return (name, surplus.or scopeSurplus)

def unnamedField (pieces : List Piece) : Except Problem (Option Brackets) := do
  let (_, surplus, rest) ← Attribute.readAll pieces
  let (scopeSurplus, rest) ← skipVisibility rest
  checkType rest
  return surplus.or scopeSurplus

def firstSurplus (surpluses : List (Option Brackets)) : Option Brackets :=
  surpluses.foldl Option.or none

def Fields.read : List Piece →
    Except Problem (Fields × Option Brackets × List Piece)
  | .group .curly inner :: rest => do
      let fields ← (parts 0 inner).mapM namedField
      return (.named (fields.map Prod.fst),
        firstSurplus (fields.map Prod.snd), rest)
  | .group .round inner :: rest => do
      let surpluses ← (parts 0 inner).mapM unnamedField
      match rest with
      | .sign ';' _ :: rest => return (.unnamed, firstSurplus surpluses, rest)
      | rest => .error (.expected .close rest.isEmpty)
  | .sign ';' _ :: rest => .ok (.unit, none, rest)
  | pieces => .error (.expected .body pieces.isEmpty)

/-! ## Declarations -/

structure Declaration where
  attributes : List Attribute
  name : String
  fields : Fields

namespace Declaration

def leftOver (surplus : Option Brackets) (rest : List Piece) : Option Problem :=
  match surplus with
  | some b => some (.trailing (some b))
  | none => if rest.isEmpty then none else some (.trailing none)

def ofPieces (pieces : List Piece) :
    Except Problem (Declaration × Option Problem) := do
  let (attributes, surplus, rest) ← Attribute.readAll pieces
  let (scopeSurplus, rest) ← skipVisibility rest
  match rest with
  | .word "struct" :: rest =>
      let (name, rest) ← identifier rest
      let (fields, fieldSurplus, rest) ← Fields.read rest
      return (⟨attributes, name, fields⟩,
        leftOver ((surplus.or scopeSurplus).or fieldSurplus) rest)
  | rest => .error (.expected .declaration rest.isEmpty)

def parse (text : String) : Except Problem (Declaration × Option Problem) :=
  match pieces? text with
  | none => .error .unbalanced
  | some pieces => ofPieces pieces

end Declaration

/-! ## Error declarations -/

/-- A declaration and what its directive gives. A message is always given. -/
structure ErrorDeclaration (E : Type) where
  name : String
  fields : Fields
  message : E
  labels : Option E
  help : Option E
  note : Option E

namespace ErrorDeclaration

variable {E : Type}

/-- A declaration with exactly one directive that gives a message. -/
def ofDeclaration (reader : ExpressionReader E) (d : Declaration) :
    Except Problem (ErrorDeclaration E) :=
  match directive reader d.attributes with
  | .error problem => .error problem
  | .ok arguments =>
      match arguments.message with
      | none => .error .missingMessage
      | some message =>
          .ok ⟨d.name, d.fields, message, arguments.labels, arguments.help,
            arguments.note⟩

def read (reader : ExpressionReader E) (text : String) :
    Except Problem (ErrorDeclaration E) :=
  match Declaration.parse text with
  | .error problem => .error problem
  | .ok (d, leftOver) =>
      match ofDeclaration reader d, leftOver with
      | .error problem, _ => .error problem
      | .ok _, some problem => .error problem
      | .ok e, none => .ok e

def parse (text : String) : Except Problem (ErrorDeclaration Expression) :=
  read Expression.reader text

end ErrorDeclaration

/-! ## Code for error declarations -/

namespace Fields

def statement (name : String) : Fields → String
  | named [] => "let " ++ name ++ " \x7b \x7d = self ; "
  | named names =>
      "let " ++ name ++ " \x7b " ++ " , ".intercalate names ++ " \x7d = self ; "
  | unnamed =>
      "compile_error ! (\"`ErrorKind` cannot be derived for tuple structs\") ; "
  | unit => ""

end Fields

namespace ErrorDeclaration

def setter (function : String) : Option Expression → String
  | none => ""
  | some e => "builder . " ++ function ++ " (" ++ e.text ++ ") ; "

def labelsText (a : ErrorDeclaration Expression) : String :=
  match a.labels with
  | none => "spans . iter () . map (| _ | String :: new ())"
  | some e => e.text

def messageFunction (a : ErrorDeclaration Expression) : String :=
  "fn message (& self) -> String \x7b # [allow (unused_variables)] "
    ++ a.fields.statement a.name
    ++ "let message = " ++ a.message.text ++ " ; message . to_string () \x7d"

def reportFunction (a : ErrorDeclaration Expression) : String :=
  "fn build_report < 'a > (& self , src_id : & 'a str , " ++
    "spans : & [std :: ops :: Range < usize >] ,) " ++
    "-> ariadne :: Report < (& 'a str , std :: ops :: Range < usize >) > " ++
    "\x7b # [allow (unused_variables)] " ++ a.fields.statement a.name ++
    "let offset = spans . first () . map_or (0 , | span | span . start) ; " ++
    "let mut builder = ariadne :: Report :: build " ++
    "(ariadne :: ReportKind :: Error , src_id , offset) " ++
    ". with_message (" ++ a.message.text ++ ") " ++
    ". with_labels ((" ++ a.labelsText ++ ") . into_iter () " ++
    ". zip (spans . iter ()) . map (| (label_str , span) | " ++
    "\x7b let label_str = label_str . to_string () ; " ++
    "let mut label = ariadne :: Label :: new ((src_id , span . clone ())) " ++
    ". with_color (poly_error :: EXPR) ; if ! label_str . is_empty () " ++
    "\x7b label = label . with_message (label_str) ; \x7d label \x7d) " ++
    ". collect :: < Vec < _ >> ()) ; " ++
    setter "set_help" a.help ++ setter "set_note" a.note ++
    "builder . finish () \x7d"

def code (a : ErrorDeclaration Expression) : String :=
  a.messageFunction ++ " " ++ a.reportFunction

end ErrorDeclaration

end PolyAlgebra.Directive
