import PolyAlgebra.Proofs.Layers

/-!
# Primary expressions by their first word

A primary expression is a number, a name or an expression in parentheses, and
its first word decides which. The alternatives are tried one after the other;
the equations here say what comes of that for each kind of first word.
-/

namespace PolyAlgebra

namespace Parser

/-! ## Literals -/

theorem fatal_of_numberOf {t : Token} {f : Fault} (h : numberOf t = .error f) :
    f.fatal = true := by
  simp only [numberOf] at h
  split at h
  · cases h
    rfl
  · split at h
    · cases h
    · cases h
      rfl

theorem numberLiteral_of_number {p : Parser} {t : Token} {ts : List Token}
    (hw : p.words = t :: ts) (hk : t.kind = .number) :
    p.numberLiteral = ⟨numberOf t, p.next⟩ := by
  rw [numberLiteral, ← hk, attempt_token_of_kind hw, Reply.refine_ok]

/-- Where no number stands, another reading is tried from the same place. -/
theorem attempt_numberLiteral_eq_error {p : Parser}
    (h : ∀ t ∈ p.words.head?, t.kind ≠ .number) :
    ∃ f, p.attempt numberLiteral = ⟨.error f, p⟩ ∧ f.fatal = false := by
  obtain ⟨f, hf, hopen⟩ := attempt_token_eq_error h
  exact ⟨f, by rw [attempt, numberLiteral, hf]; rfl, hopen⟩

theorem attempt_symbolLiteral_eq_error {p : Parser}
    (h : ∀ t ∈ p.words.head?, t.kind ≠ .name) :
    ∃ f, p.attempt symbolLiteral = ⟨.error f, p⟩ ∧ f.fatal = false := by
  obtain ⟨f, hf, hopen⟩ := attempt_token_eq_error h
  exact ⟨f, by rw [attempt, symbolLiteral, hf]; rfl, hopen⟩

theorem attempt_literal_eq_error {p : Parser}
    (hnumber : ∀ t ∈ p.words.head?, t.kind ≠ .number)
    (hname : ∀ t ∈ p.words.head?, t.kind ≠ .name) :
    ∃ f, p.attempt literal = ⟨.error f, p⟩ ∧ f.fatal = false := by
  obtain ⟨f, hf, hopen⟩ := attempt_numberLiteral_eq_error hnumber
  obtain ⟨g, hg, hopen'⟩ := attempt_symbolLiteral_eq_error hname
  refine ⟨g, ?_, hopen'⟩
  rw [attempt, literal, hf, Reply.map_error, Reply.orElse_error, hopen]
  simp only [Bool.false_eq_true, if_false, hg]
  rfl

theorem literal_of_name {p : Parser} {t : Token} {ts : List Token}
    (hw : p.words = t :: ts) (hk : t.kind = .name) :
    p.literal = ⟨.ok (.symbol ⟨t.lexeme, t.span⟩), p.next⟩ := by
  obtain ⟨f, hf, hopen⟩ := attempt_numberLiteral_eq_error (p := p) (by
    rw [hw]
    rintro u ⟨⟩ hu
    rw [hk] at hu
    cases hu)
  rw [literal, hf, Reply.map_error, Reply.orElse_error, hopen]
  simp only [Bool.false_eq_true, if_false]
  rw [attempt, symbolLiteral, ← hk, attempt_token_of_kind hw]
  rfl

/-! ## Primary expressions -/

theorem primary_of_number {p : Parser} {t : Token} {ts : List Token}
    {l : NumberLiteral} (hw : p.words = t :: ts) (hk : t.kind = .number)
    (hl : numberOf t = .ok l) :
    p.primary = ⟨.ok (.literal (.number l)), p.next⟩ := by
  rw [primary_eq_orElse, attempt, literal, attempt,
    numberLiteral_of_number hw hk, hl]
  rfl

theorem primary_of_badNumber {p : Parser} {t : Token} {ts : List Token}
    {f : Fault} (hw : p.words = t :: ts) (hk : t.kind = .number)
    (hl : numberOf t = .error f) : p.primary.outcome = .error f := by
  rw [primary_eq_orElse, attempt, literal, attempt,
    numberLiteral_of_number hw hk, hl]
  simp [fatal_of_numberOf hl]

theorem primary_of_name {p : Parser} {t : Token} {ts : List Token}
    (hw : p.words = t :: ts) (hk : t.kind = .name) :
    p.primary = ⟨.ok (.literal (.symbol ⟨t.lexeme, t.span⟩)), p.next⟩ := by
  rw [primary_eq_orElse, attempt, literal_of_name hw hk]
  rfl

theorem settled_closeGroup (p : Parser) (opening : Token) (inner : Tree) :
    (p.closeGroup opening inner).Settled := by
  intro f hf
  unfold closeGroup at hf
  dsimp only at hf
  split at hf
  · split at hf
    · cases hf
    · cases hf
      rfl
  · cases hf
    rfl

/-- Once a parenthesis is open, every fault is final. -/
theorem settled_groupBody (p : Parser) (opening : Token) :
    (p.groupBody opening).Settled := by
  rw [groupBody_eq]
  split
  · intro f hf
    cases hf
    rfl
  · exact (Reply.settled_asFatal _).andThen fun _ _ => settled_closeGroup _ _ _

theorem settled_nested {α : Type} {p : Parser} {span : Span}
    {read : Parser → Reply α} (h : ∀ q, (read q).Settled) :
    (p.nested span read).Settled := by
  unfold nested
  split
  · intro f hf
    cases hf
    rfl
  · exact h _

theorem primary_of_openParen {p : Parser} {t : Token} {ts : List Token}
    (hw : p.words = t :: ts) (hk : t.kind = .openParen) :
    p.primary =
      ((p.next.nested t.span fun q => q.groupBody t).orRewind p).map
        .group := by
  have hne : ∀ kind, kind ≠ .openParen →
      ∀ u ∈ p.words.head?, u.kind ≠ kind := by
    rw [hw]
    rintro kind hkind u ⟨⟩ hu
    exact hkind (hu.symm.trans hk)
  obtain ⟨f, hf, hopen⟩ := attempt_literal_eq_error
    (hne .number (by decide)) (hne .name (by decide))
  have hgroup : p.group = p.next.nested t.span fun q => q.groupBody t := by
    rw [group_eq, ← hk, attempt_token_of_kind hw, Reply.andThen_ok]
  have hs : p.group.Settled := by
    rw [hgroup]
    exact settled_nested fun q => settled_groupBody q t
  rw [primary_eq_orElse, hf, Reply.map_error, Reply.orElse_error, hopen]
  simp only [Bool.false_eq_true, if_false]
  rw [attempt, ← hgroup]
  cases hg : p.group with
  | mk outcome q =>
      cases outcome with
      | ok g => rfl
      | error g => simp [hs g (by rw [hg])]

/-- Where no primary expression begins, the fault is the token that does. -/
theorem primary_of_other {p : Parser}
    (h : ∀ t ∈ p.words.head?,
      t.kind ≠ .number ∧ t.kind ≠ .name ∧ t.kind ≠ .openParen) :
    p.primary =
      p.nextToken.refine fun t =>
        .error (.unexpected t [.number, .name, .openParen]) := by
  obtain ⟨f, hf, hopen⟩ := attempt_literal_eq_error
    (fun t ht => (h t ht).1) (fun t ht => (h t ht).2.1)
  obtain ⟨g, hg, hopen'⟩ := attempt_token_eq_error fun t ht => (h t ht).2.2
  have hgroup : p.group = ⟨.error g, p⟩ := by
    rw [group_eq, hg, Reply.andThen_error]
  rw [primary_eq_orElse, hf, Reply.map_error, Reply.orElse_error, hopen]
  simp [attempt, hgroup, hopen']

end Parser

end PolyAlgebra
