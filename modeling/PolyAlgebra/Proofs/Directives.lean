import PolyAlgebra.Directive.Expansion
import PolyAlgebra.Proofs.ArgumentLists

/-!
# Directives of declarations

A declaration may have any attributes, in any number. Only the directives
among them count, and there must be exactly one, which must give a message.
The expressions that it gives are then those of the declaration.
-/

namespace PolyAlgebra.Directive

variable {E : Type} {reader : ExpressionReader E}

/-! ## Attributes -/

/-- The arguments of an attribute are a proper list of arguments that are
written well. -/
structure Attribute.Gives (reader : ExpressionReader E) (a : Attribute)
    (given : List (Argument E)) : Prop where
  content : ∃ lastComma, a.content = .arguments (argumentPieces given lastComma)
  wellWritten : ∀ g ∈ given, g.WellWritten reader
  isProper : IsProper given

theorem Attribute.Gives.arguments_eq {a : Attribute} {given : List (Argument E)}
    (h : a.Gives reader given) :
    ∃ out, a.arguments reader = .ok out ∧ out.Hold given := by
  obtain ⟨lastComma, hContent⟩ := h.content
  rcases Arguments.ofPieces_cases lastComma h.wellWritten with
    ⟨-, out, hRead, hOut⟩ | ⟨problem, hFault, -⟩
  · refine ⟨out, ?_, hOut⟩
    rw [Attribute.arguments, hContent]
    exact hRead
  · exact absurd h.isProper hFault.not_isProper

theorem directiveFrom_filter (found : Option (Arguments E))
    (attributes : List Attribute) :
    directiveFrom reader found attributes =
      directiveFrom reader found (attributes.filter Attribute.isDirective) := by
  induction attributes generalizing found with
  | nil => rfl
  | cons a rest ih =>
      by_cases ha : a.isDirective = true
      · rw [List.filter_cons_of_pos ha, directiveFrom, directiveFrom, if_pos ha,
          if_pos ha]
        cases found with
        | some arguments => rfl
        | none =>
            cases hArguments : a.arguments reader with
            | error problem => rfl
            | ok arguments => exact ih (some arguments)
      · rw [List.filter_cons_of_neg ha, directiveFrom, if_neg ha]
        exact ih found

theorem directive_filter (attributes : List Attribute) :
    directive reader attributes =
      directive reader (attributes.filter Attribute.isDirective) := by
  rw [directive, directive, directiveFrom_filter]

variable {a b : Attribute} {attributes rest : List Attribute}
  {out : Arguments E}

theorem directive_of_none (h : attributes.filter Attribute.isDirective = []) :
    directive reader attributes = .ok .empty := by
  rw [directive_filter, h]
  rfl

theorem mem_of_filter {as : List Attribute}
    (h : attributes.filter Attribute.isDirective = as) (ha : a ∈ as) :
    a ∈ attributes ∧ a.isDirective = true := by
  subst h
  exact List.mem_filter.mp ha

theorem directive_of_one (h : attributes.filter Attribute.isDirective = [a])
    (ha : a.arguments reader = .ok out) :
    directive reader attributes = .ok out := by
  have haDirective : a.isDirective = true := (mem_of_filter h (by simp)).2
  rw [directive_filter, h, directive, directiveFrom, if_pos haDirective, ha]
  rfl

/-- A second directive is refused. -/
theorem directive_of_two
    (h : attributes.filter Attribute.isDirective = a :: b :: rest)
    (ha : a.arguments reader = .ok out) :
    directive reader attributes = .error .repeatedDirective := by
  have haDirective : a.isDirective = true := (mem_of_filter h (by simp)).2
  have hbDirective : b.isDirective = true := (mem_of_filter h (by simp)).2
  rw [directive_filter, h, directive, directiveFrom, if_pos haDirective, ha]
  dsimp only [Option.isSome_none, Bool.false_eq_true, if_false]
  rw [directiveFrom, if_pos hbDirective]
  rfl

/-! ## Declarations -/

namespace ErrorDeclaration

def arguments (e : ErrorDeclaration E) : Arguments E :=
  ⟨some e.message, e.labels, e.help, e.note⟩

variable {d : Declaration}

theorem ofDeclaration_of_none
    (h : d.attributes.filter Attribute.isDirective = []) :
    ofDeclaration reader d = .error .missingMessage := by
  rw [ofDeclaration, directive_of_none h]
  rfl

/-- With one directive, only a message can be missing. -/
theorem ofDeclaration_of_one {given : List (Argument E)}
    (h : d.attributes.filter Attribute.isDirective = [a])
    (ha : a.Gives reader given) :
    ((∃ g ∈ given, g.word = "message") ∧ ∃ e, ofDeclaration reader d = .ok e ∧
        e.name = d.name ∧ e.fields = d.fields ∧ e.arguments.Hold given) ∨
      (¬ ∃ g ∈ given, g.word = "message") ∧
        ofDeclaration reader d = .error .missingMessage := by
  obtain ⟨out, hRead, hOut⟩ := ha.arguments_eq
  have hMessage := hOut (out.message, "message") List.mem_cons_self
  rw [ofDeclaration, directive_of_one h hRead]
  obtain ⟨message?, labels, help, note⟩ := out
  cases message? with
  | none =>
      refine Or.inr ⟨?_, rfl⟩
      rintro ⟨g, hg, hWord⟩
      exact absurd ((hMessage g.expression).mpr ⟨g, hg, hWord, rfl⟩) (by simp)
  | some message =>
      obtain ⟨g, hg, hWord, -⟩ := (hMessage message).mp rfl
      exact Or.inl ⟨⟨g, hg, hWord⟩,
        ⟨d.name, d.fields, message, labels, help, note⟩, rfl, rfl, rfl, hOut⟩

theorem ofDeclaration_of_two
    (h : d.attributes.filter Attribute.isDirective = a :: b :: rest)
    (ha : a.arguments reader = .ok out) :
    ofDeclaration reader d = .error .repeatedDirective := by
  rw [ofDeclaration, directive_of_two h ha]

/-- What a declaration comes to depends on its directives only. -/
theorem ofDeclaration_of_filter (d : Declaration)
    (h : attributes.filter Attribute.isDirective =
      d.attributes.filter Attribute.isDirective) :
    ofDeclaration reader { d with attributes := attributes } =
      ofDeclaration reader d := by
  rw [ofDeclaration, ofDeclaration, directive_filter attributes, h,
    ← directive_filter]

/-- Where directives have proper arguments, a declaration is accepted if it
has exactly one and a message is given. -/
theorem ofDeclaration_eq_ok_iff
    (hd : ∀ a ∈ d.attributes, a.isDirective = true →
      ∃ given, a.Gives reader given) :
    (∃ e, ofDeclaration reader d = .ok e) ↔
      ∃ a given, d.attributes.filter Attribute.isDirective = [a] ∧
        a.Gives reader given ∧
        ∃ g ∈ given, g.word = "message" := by
  constructor
  · rintro ⟨e, he⟩
    cases hFilter : d.attributes.filter Attribute.isDirective with
    | nil =>
        rw [ofDeclaration_of_none hFilter] at he
        cases he
    | cons a rest =>
        obtain ⟨ha, haDirective⟩ := mem_of_filter hFilter List.mem_cons_self
        obtain ⟨given, hGives⟩ := hd a ha haDirective
        cases rest with
        | nil =>
            rcases ofDeclaration_of_one hFilter hGives with ⟨hMessage, -⟩
              | ⟨-, hError⟩
            · exact ⟨a, given, rfl, hGives, hMessage⟩
            · rw [hError] at he
              cases he
        | cons b rest =>
            obtain ⟨out, hRead, -⟩ := hGives.arguments_eq
            rw [ofDeclaration_of_two hFilter hRead] at he
            cases he
  · rintro ⟨a, given, hFilter, hGives, hMessage⟩
    rcases ofDeclaration_of_one hFilter hGives with ⟨-, e, he, -⟩ | ⟨hNone, -⟩
    · exact ⟨e, he⟩
    · exact absurd hMessage hNone

theorem hold_of_ofDeclaration {e : ErrorDeclaration E}
    {given : List (Argument E)} (he : ofDeclaration reader d = .ok e)
    (h : d.attributes.filter Attribute.isDirective = [a])
    (ha : a.Gives reader given) :
    e.name = d.name ∧ e.fields = d.fields ∧ e.arguments.Hold given := by
  rcases ofDeclaration_of_one h ha with ⟨-, e', he', hKept⟩ | ⟨-, hError⟩
  · rw [he'] at he
    exact Except.ok.inj he ▸ hKept
  · rw [hError] at he
    cases he

/-- Where nothing is left over in a text, only its declaration matters. -/
theorem read_of_parse {text : String}
    (h : Declaration.parse text = .ok (d, none)) :
    read reader text = ofDeclaration reader d := by
  rw [read, h]
  dsimp only
  cases ofDeclaration reader d <;> rfl

end ErrorDeclaration

/-! ## What is accepted -/

/-- **Directives.** A list of arguments is read if and only if it is proper.
Then every slot has what is given for its tag, in whatever order the arguments
are; and otherwise the first argument with a fault is named. A declaration
whose directives have proper arguments is accepted if and only if there is
exactly one, and it gives a message. All other attributes are ignored. -/
theorem directive_accepted_iff {E : Type} (reader : ExpressionReader E) :
    (∀ (given : List (Argument E)) (lastComma : Bool),
      (∀ g ∈ given, g.WellWritten reader) →
      ((∃ out,
          Arguments.ofPieces reader (argumentPieces given lastComma) =
            .ok out) ↔
        IsProper given) ∧
      (∀ out,
        Arguments.ofPieces reader (argumentPieces given lastComma) = .ok out →
        out.Hold given ∧
        ∀ given' lastComma', given'.Perm given →
          Arguments.ofPieces reader (argumentPieces given' lastComma') =
            .ok out) ∧
      (∀ problem,
        Arguments.ofPieces reader (argumentPieces given lastComma) =
          .error problem ↔
        FirstFault given problem)) ∧
    (∀ d : Declaration,
      (∀ a ∈ d.attributes, a.isDirective = true →
        ∃ given, a.Gives reader given) →
      ((∃ e, ErrorDeclaration.ofDeclaration reader d = .ok e) ↔
        ∃ a given, d.attributes.filter Attribute.isDirective = [a] ∧
          a.Gives reader given ∧
          ∃ g ∈ given, g.word = "message") ∧
      (∀ e a given, ErrorDeclaration.ofDeclaration reader d = .ok e →
        d.attributes.filter Attribute.isDirective = [a] → a.Gives reader given →
        e.name = d.name ∧ e.fields = d.fields ∧ e.arguments.Hold given) ∧
      (∀ attributes, attributes.filter Attribute.isDirective =
          d.attributes.filter Attribute.isDirective →
        ErrorDeclaration.ofDeclaration reader
            { d with attributes := attributes } =
          ErrorDeclaration.ofDeclaration reader d) ∧
      ∀ text, Declaration.parse text = .ok (d, none) →
        ErrorDeclaration.read reader text =
          ErrorDeclaration.ofDeclaration reader d) := by
  constructor
  · intro given lastComma hGiven
    refine ⟨Arguments.ofPieces_eq_ok_iff lastComma hGiven, ?_,
      Arguments.ofPieces_eq_error_iff lastComma hGiven⟩
    intro out h
    exact ⟨Arguments.hold_of_ofPieces hGiven h, fun given' lastComma' hPerm =>
      Arguments.ofPieces_of_perm hGiven h hPerm lastComma'⟩
  · intro d hd
    refine ⟨ErrorDeclaration.ofDeclaration_eq_ok_iff hd, ?_, ?_, ?_⟩
    · intro e a given he hFilter hGives
      exact ErrorDeclaration.hold_of_ofDeclaration he hFilter hGives
    · intro attributes h
      exact ErrorDeclaration.ofDeclaration_of_filter d h
    · intro text h
      exact ErrorDeclaration.read_of_parse h

/-- Help goes before the message, and behind another attribute. It cannot be
given twice. -/
theorem directive_accepted_iff_helpFirst :
    let help : Argument Expression :=
      ⟨"help", false,
        [.group .square [.literal "\"a\"", .sign ',' false, .word "x"]],
        .list [.literal "\"a\"", .name "x"] false⟩
    let message : Argument Expression :=
      ⟨"message", false, [.word "m"], .name "m"⟩
    let d : Declaration :=
      ⟨[⟨⟨false, ["doc"]⟩, .value⟩,
        ⟨⟨false, ["error"]⟩, .arguments (argumentPieces [help, message] true)⟩],
        "Missing", .unit⟩
    (∀ g ∈ [help, message, help], g.WellWritten Expression.reader) ∧
      Arguments.ofPieces Expression.reader
        (argumentPieces [help, message, help] false) =
          .error (.repeatedTag "help") ∧
      (∀ a ∈ d.attributes, a.isDirective = true →
        ∃ given, a.Gives Expression.reader given) ∧
      ∃ e, ErrorDeclaration.ofDeclaration Expression.reader d = .ok e ∧
        e.arguments.Hold [help, message] := by
  intro help message d
  have hList : Expression.ofPiece true
      (.group .square [.literal "\"a\"", .sign ',' false, .word "x"]) =
        .ok (.list [.literal "\"a\"", .name "x"] false) := rfl
  have hName : Expression.ofPiece true (.word "m") = .ok (.name "m") := rfl
  have hHelp : help.WellWritten Expression.reader :=
    Argument.wellWritten_of_piece hList rfl "help" false
  have hMessage : message.WellWritten Expression.reader :=
    Argument.wellWritten_of_piece hName rfl "message" false
  have hGiven : ∀ g ∈ [help, message, help],
      g.WellWritten Expression.reader := by
    simp [hHelp, hMessage]
  have hProper : IsProper [help, message] := by
    constructor
    · simp [help, message, Tag.words]
    · simp [help, message]
  have hGives : Attribute.Gives Expression.reader
      ⟨⟨false, ["error"]⟩, .arguments (argumentPieces [help, message] true)⟩
      [help, message] :=
    ⟨⟨true, rfl⟩, by simp [hHelp, hMessage], hProper⟩
  have hd : ∀ a ∈ d.attributes, a.isDirective = true →
      ∃ given, a.Gives Expression.reader given := by
    intro a ha haDirective
    simp only [d, List.mem_cons, List.not_mem_nil, or_false] at ha
    rcases ha with rfl | rfl
    · cases haDirective
    · exact ⟨_, hGives⟩
  obtain ⟨hLists, hDeclarations⟩ := directive_accepted_iff Expression.reader
  obtain ⟨hAccepted, hKept, -⟩ := hDeclarations d hd
  obtain ⟨e, he⟩ := hAccepted.mpr ⟨_, _, rfl, hGives, message, by simp, rfl⟩
  obtain ⟨-, -, hHold⟩ := hKept e _ _ he rfl hGives
  refine ⟨hGiven, ?_, hd, e, he, hHold⟩
  exact ((hLists _ false hGiven).2.2 _).mpr
    ⟨[help, message], help, [], rfl, hProper, .repeated (by simp)⟩

end PolyAlgebra.Directive
