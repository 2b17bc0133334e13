import PolyAlgebra.Proofs.Words

/-!
# The climb in layers

Chains of operators are read by climbing precedences, with one function for the
chain and one that completes a right operand. As there are two precedences
only, the climb falls into layers: behind `*` stands a primary expression,
behind `+` a whole product, and reading a sum is reading a product and then the
terms behind it. The equations here say so, each for one kind of next word.
-/

namespace PolyAlgebra

def Token.Reaches (t : Token) (precedence : Precedence) : Prop :=
  ∃ op, Parser.operatorOf t = .ok op ∧ precedence.level ≤ op.precedence.level

theorem Token.reaches_any {t : Token} : t.Reaches .any ↔ t.IsSign := by
  constructor
  · rintro ⟨op, hop, -⟩
    by_contra h
    rw [Parser.operatorOf_other h] at hop
    cases hop
  · rintro (h | h)
    · exact ⟨_, Parser.operatorOf_add h, Nat.zero_le _⟩
    · exact ⟨_, Parser.operatorOf_mul h, Nat.zero_le _⟩

theorem Token.reaches_factor {t : Token} :
    t.Reaches .factor ↔ t.kind = .mul := by
  constructor
  · rintro ⟨op, hop, hle⟩
    by_contra h
    by_cases ha : t.kind = .add
    · rw [Parser.operatorOf_add ha] at hop
      cases hop
      simp [Operator.precedence, OperatorKind.precedence,
        Precedence.level] at hle
    · rw [Parser.operatorOf_other
        (by rintro (hk | hk) <;> contradiction)] at hop
      cases hop
  · intro h
    exact ⟨_, Parser.operatorOf_mul h, Nat.le_refl _⟩

namespace Parser

/-- Reads what follows an operator: a primary expression, which is completed by
the tighter operators behind it and joined to `lhs`. -/
def link (p : Parser) (lhs : Tree) (op : Operator) : Reply Tree :=
  (p.attempt primary).asFatal.andThen fun rhs q => q.completed lhs op rhs.toTree

theorem advances_attempt_primary (p : Parser) :
    Advances p (p.attempt primary).asFatal := by
  have h := p.advances_primary.attempt
  refine ⟨h.le, ?_⟩
  intro a ha
  cases ho : (p.attempt primary).outcome with
  | ok b => exact h.lt b ho
  | error f =>
      rw [Reply.asFatal, ho] at ha
      cases ha

theorem pending_link_le (p : Parser) (lhs : Tree) (op : Operator) :
    (p.link lhs op).parser.pending ≤ p.pending := by
  have h := p.advances_attempt_primary.le
  unfold link Reply.andThen
  split
  · exact Nat.le_trans (pending_completed_le _ _ _ _) h
  · exact h

/-! ## One step of a chain -/

/-- Either a sign that belongs to a chain is ahead, or the chain ends here. -/
theorem sign_or_stop (p : Parser) (precedence : Precedence) :
    (∃ t ts op, p.words = t :: ts ∧ operatorOf t = .ok op ∧
      precedence.level ≤ op.precedence.level) ∨
    ∀ t ∈ p.words.head?, ¬t.Reaches precedence := by
  cases hw : p.words with
  | nil => exact Or.inr (by simp)
  | cons t ts =>
      by_cases hr : t.Reaches precedence
      · obtain ⟨op, ho, hle⟩ := hr
        exact Or.inl ⟨t, ts, op, rfl, ho, hle⟩
      · apply Or.inr
        intro u hu
        obtain rfl := Option.some.inj hu
        exact hr

theorem chain_of_stop {p : Parser} {precedence : Precedence}
    (h : ∀ t ∈ p.words.head?, ¬t.Reaches precedence) (lhs : Tree) :
    p.chain lhs precedence = ⟨.ok lhs, p⟩ := by
  rw [chain_eq]
  cases hw : p.words with
  | nil =>
      obtain ⟨f, q, hf⟩ := operator_eq_error (p := p) (by simp [hw])
      simp [peek, Reply.rewind, hf]
  | cons t ts =>
      rw [hw] at h
      simp only [peek, Reply.rewind, operator_of_cons hw]
      cases ho : operatorOf t with
      | error f => rfl
      | ok op =>
          have hlt : op.precedence.level < precedence.level := by
            by_contra hge
            exact h t rfl ⟨op, ho, Nat.not_lt.mp hge⟩
          simp only [if_pos hlt]

theorem chain_of_sign {p : Parser} {t : Token} {ts : List Token} {op : Operator}
    {precedence : Precedence} (hw : p.words = t :: ts)
    (ho : operatorOf t = .ok op) (h : precedence.level ≤ op.precedence.level)
    (lhs : Tree) :
    p.chain lhs precedence =
      (p.next.link lhs op).andThen fun node q => q.chain node precedence := by
  rw [chain_eq]
  simp only [peek, Reply.rewind, operator_of_cons hw, ho,
    if_neg (Nat.not_lt.mpr h)]
  rfl

/-- Behind a chain no operator stands that belongs to it. -/
theorem not_reaches_of_chain {precedence : Precedence} {p q : Parser}
    {lhs node : Tree} (h : p.chain lhs precedence = ⟨.ok node, q⟩) :
    ∀ t ∈ q.words.head?, ¬t.Reaches precedence := by
  induction hn : p.pending using Nat.strongRecOn generalizing p lhs with
  | ind n ih =>
      subst hn
      rcases p.sign_or_stop precedence with ⟨t, ts, op, hw, ho, hle⟩ | hstop
      · rw [chain_of_sign hw ho hle] at h
        have hlt : (p.next.link lhs op).parser.pending < p.pending :=
          Nat.lt_of_le_of_lt (pending_link_le _ _ _) (pending_next_lt hw)
        cases hl : p.next.link lhs op with
        | mk outcome r =>
            rw [hl] at h hlt
            cases outcome with
            | error f => cases h
            | ok node' => exact ih _ hlt h rfl
      · rw [chain_of_stop hstop] at h
        cases h
        exact hstop

/-- Behind a chain of factors no `*` stands. -/
theorem not_mul_of_chain {p q : Parser} {lhs node : Tree}
    (h : p.chain lhs .factor = ⟨.ok node, q⟩) :
    ∀ t ∈ q.words.head?, t.kind ≠ .mul := by
  intro t ht hk
  exact not_reaches_of_chain h t ht (Token.reaches_factor.mpr hk)

/-! ## Completing a right operand -/

theorem completed_mul (p : Parser) (lhs rhs : Tree) (span : Span) :
    p.completed lhs ⟨.mul, span⟩ rhs = p.join lhs ⟨.mul, span⟩ rhs := by
  rw [completed_eq]
  split
  · rfl
  · next op _ =>
      refine if_neg ?_
      obtain ⟨kind, _⟩ := op
      cases kind <;>
        simp [Operator.precedence, OperatorKind.precedence, Precedence.level]

theorem completed_add_of_stop {p : Parser}
    (h : ∀ t ∈ p.words.head?, t.kind ≠ .mul) (lhs rhs : Tree) (span : Span) :
    p.completed lhs ⟨.add, span⟩ rhs = p.join lhs ⟨.add, span⟩ rhs := by
  rw [completed_eq]
  cases hw : p.words with
  | nil =>
      obtain ⟨f, q, hf⟩ := operator_eq_error (p := p) (by simp [hw])
      simp [peek, Reply.rewind, hf]
  | cons t ts =>
      rw [hw] at h
      simp only [peek, Reply.rewind, operator_of_cons hw]
      by_cases ha : t.kind = .add
      · simp only [operatorOf_add ha]
        exact if_neg (Nat.lt_irrefl _)
      · have hs : ¬t.IsSign := by
          rintro (hk | hk)
          · exact ha hk
          · exact h t rfl hk
        rw [operatorOf_other hs]

/-- Behind `+` a whole product is read before the sum is made. -/
theorem completed_add (p : Parser) (lhs rhs : Tree) (span : Span) :
    p.completed lhs ⟨.add, span⟩ rhs =
      (p.chain rhs .factor).andThen fun rhs q =>
        q.join lhs ⟨.add, span⟩ rhs := by
  rcases p.sign_or_stop .factor with ⟨t, ts, op, hw, ho, hle⟩ | hstop
  · have hlt : Precedence.term.level < op.precedence.level :=
      Nat.lt_of_lt_of_le (by decide) hle
    rw [completed_eq]
    simp only [peek, Reply.rewind, operator_of_cons hw, ho]
    refine (if_pos hlt).trans ?_
    have hp : op.precedence = .factor := by
      obtain ⟨kind, _⟩ := op
      cases kind with
      | add => exact absurd hlt (Nat.lt_irrefl _)
      | mul => rfl
    rw [hp]
    cases hc : p.chain rhs .factor with
    | mk outcome q =>
        cases outcome with
        | error f => rfl
        | ok node => exact completed_add_of_stop (not_mul_of_chain hc) _ _ _
  · have hc := chain_of_stop hstop rhs
    rw [hc]
    exact completed_add_of_stop (not_mul_of_chain hc) _ _ _

/-- Reading a sum is reading a product and then the terms behind it. -/
theorem chain_any (p : Parser) (lhs : Tree) :
    p.chain lhs .any =
      (p.chain lhs .factor).andThen fun lhs q => q.chain lhs .any := by
  induction hn : p.pending using Nat.strongRecOn generalizing p lhs with
  | ind n ih =>
      subst hn
      rcases p.sign_or_stop .factor with ⟨t, ts, op, hw, ho, hle⟩ | hstop
      · rw [chain_of_sign hw ho hle, chain_of_sign hw ho (Nat.zero_le _)]
        have hlt : (p.next.link lhs op).parser.pending < p.pending :=
          Nat.lt_of_le_of_lt (pending_link_le _ _ _) (pending_next_lt hw)
        cases hl : p.next.link lhs op with
        | mk outcome q =>
            rw [hl] at hlt
            cases outcome with
            | error f => rfl
            | ok node => exact ih _ hlt q node rfl
      · rw [chain_of_stop hstop]
        rfl

end Parser

/-! ## Faults behind an operator are final -/

def Reply.Settled {α : Type} (r : Reply α) : Prop :=
  ∀ f, r.outcome = .error f → f.fatal = true

namespace Reply

variable {α β : Type}

theorem settled_asFatal (r : Reply α) : r.asFatal.Settled := by
  intro f hf
  cases ho : r.outcome with
  | ok a =>
      rw [asFatal, ho] at hf
      cases hf
  | error g =>
      rw [asFatal, ho] at hf
      obtain rfl := Except.error.inj hf
      rfl

theorem Settled.andThen {r : Reply α} {read : α → Parser → Reply β}
    (hr : r.Settled)
    (hread : ∀ a, r.outcome = .ok a → (read a r.parser).Settled) :
    (r.andThen read).Settled := by
  unfold Reply.andThen
  split
  · next a ha => exact hread a ha
  · next f hf =>
      intro g hg
      cases hg
      exact hr f hf

end Reply

namespace Parser

theorem settled_join (p : Parser) (lhs : Tree) (op : Operator) (rhs : Tree) :
    (p.join lhs op rhs).Settled := by
  intro f hf
  simp only [join, checkDepth] at hf
  split at hf
  · split at hf
    · cases hf
      rfl
    · cases hf
  · cases hf

/-- A chain begins behind a value, and whatever is wrong behind an operator
ends the attempt to read the source in another way. -/
theorem settled_chain (p : Parser) (lhs : Tree) (precedence : Precedence) :
    (p.chain lhs precedence).Settled := by
  induction hn : p.pending using Nat.strongRecOn generalizing p lhs
    precedence with
  | ind n ih =>
      subst hn
      rcases p.sign_or_stop precedence with ⟨t, ts, op, hw, ho, hle⟩ | hstop
      · have hnext := pending_next_lt hw
        rw [chain_of_sign hw ho hle]
        refine Reply.Settled.andThen ?_ fun node _ => ih _ ?_ _ _ _ rfl
        · apply (Reply.settled_asFatal _).andThen
          intro rhs hrhs
          have hlt := p.next.advances_attempt_primary.lt rhs hrhs
          obtain ⟨kind, span⟩ := op
          cases kind with
          | add =>
              rw [completed_add]
              refine (ih _ (Nat.lt_trans hlt hnext) _ _ _ rfl).andThen ?_
              exact fun _ _ => settled_join _ _ _ _
          | mul =>
              rw [completed_mul]
              exact settled_join _ _ _ _
        · exact Nat.lt_of_le_of_lt (pending_link_le _ _ _) hnext
      · rw [chain_of_stop hstop]
        intro f hf
        cases hf

end Parser

end PolyAlgebra
