import PolyAlgebra.Proofs.Layers

/-!
# What reading does to a parser

Readers are put together from single tokens by reading on, going back and
going one pair of parentheses further inside. What these steps respect
therefore holds of every reader. The induction is made once, for properties
that may depend on whether a value was found; relations between the parser
before and the parser after are the case that matters most, where it makes no
difference.
-/

namespace PolyAlgebra

namespace Parser

variable {α β : Type} {p : Parser}

/-- A property of what is read at a parser that every step of a reader
respects. -/
structure Respected (P : ∀ {α : Type}, Parser → Reply α → Prop) : Prop where
  /-- Nothing is read. -/
  stay : ∀ {α : Type} (p : Parser) (o : Except Fault α), P p ⟨o, p⟩
  next : ∀ p : Parser, P p p.nextToken
  /-- The outcome is told in another way, and a fault stays a fault. -/
  retell : ∀ {α β : Type} {p : Parser} {r : Reply α} {r' : Reply β}, P p r →
    r'.parser = r.parser →
      (∀ f, r.outcome = .error f → ∃ g, r'.outcome = .error g) →
    P p r'
  /-- Reading goes on behind a value. -/
  goOn : ∀ {α β : Type} {p : Parser} {r : Reply α} {r' : Reply β} {a : α},
    P p r →
    r.outcome = .ok a → P r.parser r' → P p r'
  rewind : ∀ {α : Type} {p : Parser} {r : Reply α}, P p r → P p (r.orRewind p)
  /-- Reading begins again where it began before. -/
  again : ∀ {α β : Type} {p : Parser} {r : Reply α} {r' : Reply β}, P p r →
    P (r.parser.rewindTo p) r' → P p r'
  nest : ∀ {α : Type} {p : Parser} {r : Reply α}, P p.enter r →
    P p ⟨r.outcome, r.parser.leave⟩

structure Covers (P : ∀ {α : Type}, Parser → Reply α → Prop) (p : Parser) :
    Prop where
  primary : P p p.primary
  group : P p p.group
  expr : P p p.expr
  body : ∀ opening, P p (p.groupBody opening)
  chain : ∀ lhs precedence, P p (p.chain lhs precedence)

theorem parser_attempt_of_error {read : Parser → Reply α} {f : Fault}
    (h : (p.attempt read).outcome = .error f) :
    (p.attempt read).parser = (read p).parser.rewindTo p := by
  unfold attempt Reply.orRewind at h ⊢
  split at h
  · next a ha => cases ha.symm.trans h
  · next g hg => rw [hg]

namespace Respected

variable {P : ∀ {α : Type}, Parser → Reply α → Prop}

/-! ## Combinations -/

theorem refine (h : Respected P) {r : Reply α} (hr : P p r)
    (f : α → Except Fault β) :
    P p (r.refine f) := by
  refine h.retell hr rfl ?_
  intro g hg
  exact ⟨g, by rw [Reply.refine, hg]; rfl⟩

theorem map (h : Respected P) {r : Reply α} (hr : P p r) (f : α → β) :
    P p (r.map f) := by
  refine h.retell hr rfl ?_
  intro g hg
  exact ⟨g, by rw [Reply.map, hg]; rfl⟩

theorem asFatal (h : Respected P) {r : Reply α} (hr : P p r) :
    P p r.asFatal := by
  refine h.retell hr rfl ?_
  intro g hg
  exact ⟨g.asFatal, by rw [Reply.asFatal, hg]; rfl⟩

theorem attempt (h : Respected P) {read : Parser → Reply α}
    (hr : P p (read p)) :
    P p (p.attempt read) :=
  h.rewind hr

theorem andThen (h : Respected P) {r : Reply α} {read : α → Parser → Reply β}
    (hr : P p r)
    (hread : ∀ a, r.outcome = .ok a → P r.parser (read a r.parser)) :
    P p (r.andThen read) := by
  unfold Reply.andThen
  split
  · next a ha => exact h.goOn hr ha (hread a ha)
  · next f _ => exact h.retell hr rfl fun _ _ => ⟨f, rfl⟩

theorem orElse {r : Reply α} {other : Parser → Reply α} (hr : P p r)
    (ho : ∀ f, r.outcome = .error f → P p (other r.parser)) :
    P p (r.orElse other) := by
  unfold Reply.orElse
  split
  · exact hr
  · next f hf =>
      split
      · exact hr
      · exact ho f hf

/-! ## Single tokens and literals -/

theorem token (h : Respected P) (kind : TokenKind) (p : Parser) :
    P p (p.token kind) :=
  h.refine (h.next p) _

theorem operator (h : Respected P) (p : Parser) : P p p.operator :=
  h.refine (h.next p) _

theorem numberLiteral (h : Respected P) (p : Parser) : P p p.numberLiteral :=
  h.refine (h.attempt (h.token .number p)) _

theorem symbolLiteral (h : Respected P) (p : Parser) : P p p.symbolLiteral :=
  h.map (h.attempt (h.token .name p)) _

/-- The next alternative begins where the attempt that failed went back to. -/
theorem orElse_attempt (h : Respected P) {read : Parser → Reply α}
    {other : Parser → Reply β} {f : α → β} (hr : P p (read p))
    (ho : P ((read p).parser.rewindTo p) (other ((read p).parser.rewindTo p))) :
    P p (((p.attempt read).map f).orElse other) := by
  apply orElse (h.map (h.attempt hr) f)
  intro e he
  have herror : (p.attempt read).outcome = .error e := by
    cases hc : (p.attempt read).outcome with
    | ok a =>
        rw [Reply.map, hc] at he
        cases he
    | error e' =>
        rw [Reply.map, hc] at he
        cases he
        rfl
  show P p (other (p.attempt read).parser)
  rw [parser_attempt_of_error herror]
  exact h.again hr ho

theorem literal (h : Respected P) (p : Parser) : P p p.literal :=
  h.orElse_attempt (h.numberLiteral p) (h.map (h.attempt (h.symbolLiteral _)) _)

/-! ## Expressions -/

theorem nested (h : Respected P) {span : Span} {read : Parser → Reply α}
    (hread : P p.enter (read p.enter)) : P p (p.nested span read) := by
  unfold Parser.nested
  split
  · exact h.stay p _
  · exact h.nest hread

theorem closeGroup (h : Respected P) (p : Parser) (opening : Token)
    (inner : Tree) :
    P p (p.closeGroup opening inner) := by
  refine h.retell (h.next p) ?_ ?_
  · unfold Parser.closeGroup
    dsimp only
    split
    · split <;> rfl
    · rfl
  · intro f hf
    simp only [Parser.closeGroup, hf]
    exact ⟨_, rfl⟩

theorem join (h : Respected P) (p : Parser) (lhs : Tree) (op : Operator)
    (rhs : Tree) :
    P p (p.join lhs op rhs) :=
  h.stay p _

theorem nextWord (h : Respected P) {r : Reply α} {t : Token} {ts : List Token}
    (hw : p.words = t :: ts) (hr : P p.next r) : P p r := by
  have hn := h.next p
  rw [nextToken_of_cons hw] at hn
  exact h.goOn hn rfl hr

/-- An operand is joined where it is read, or a chain of factors behind it is
read first. -/
theorem link (h : Respected P) {lhs : Tree} {op : Operator} (hp : P p p.primary)
    (hc : ∀ q, q.pending < p.pending → ∀ rhs, P q (q.chain rhs .factor)) :
    P p (p.link lhs op) := by
  apply h.andThen (h.asFatal (h.attempt hp))
  intro rhs hrhs
  have hlt := p.advances_attempt_primary.lt rhs hrhs
  obtain ⟨kind, span⟩ := op
  cases kind with
  | add =>
      rw [completed_add]
      exact h.andThen (hc _ hlt _) fun _ _ => h.join _ _ _ _
  | mul =>
      rw [completed_mul]
      exact h.join _ _ _ _

/-- What every step respects holds of every reader. The readers call each other
only where fewer words are left or from a later field to an earlier one, so the
induction is on the number of words left. -/
theorem covers (h : Respected P) (p : Parser) : Covers P p := by
  induction hn : p.pending using Nat.strongRecOn generalizing p with
  | ind n ih =>
      subst hn
      -- a group is tried where reading a literal went back to
      have hgroup : ∀ q : Parser, q.pending = p.pending → P q q.group := by
        intro q hq
        rw [group_eq]
        apply h.andThen (h.attempt (h.token _ q))
        intro opening ho
        have hlt := (q.advances_token .openParen).attempt.lt _ ho
        exact h.nested ((ih _ (hq ▸ hlt) (enter _) rfl).body opening)
      have hprimary : P p p.primary := by
        rw [primary_eq_orElse]
        apply h.orElse_attempt (h.literal p)
        exact h.orElse_attempt (hgroup _ rfl) (h.refine (h.next _) _)
      have hchain : ∀ lhs precedence, P p (p.chain lhs precedence) := by
        intro lhs precedence
        rcases p.sign_or_stop precedence with ⟨t, ts, op, hw, ho, hle⟩ | hstop
        · have hnext := pending_next_lt hw
          have hlink : P p.next (p.next.link lhs op) :=
            h.link (ih _ hnext _ rfl).primary fun q hq rhs =>
              (ih _ (Nat.lt_trans hq hnext) _ rfl).chain rhs .factor
          -- the chain goes on behind the operand
          have hlt := Nat.lt_of_le_of_lt (p.next.pending_link_le lhs op) hnext
          rw [chain_of_sign hw ho hle]
          exact h.andThen (h.nextWord hw hlink) fun node _ =>
            (ih _ hlt _ rfl).chain node precedence
        · rw [chain_of_stop hstop]
          exact h.stay p _
      have hexpr : P p p.expr := by
        rw [expr_eq]
        split
        · exact h.stay p _
        · apply h.andThen (h.attempt hprimary)
          intro lhs hlhs
          exact (ih _ (p.advances_primary.attempt.lt lhs hlhs) _ rfl).chain _ _
      have hbody : ∀ opening, P p (p.groupBody opening) := by
        intro opening
        rw [groupBody_eq]
        split
        · exact h.stay p _
        · exact h.andThen (h.asFatal (h.attempt hexpr)) fun _ _ =>
            h.closeGroup _ _ _
      exact ⟨hprimary, hgroup p rfl, hexpr, hbody, hchain⟩

end Respected

/-! ## Relations between parsers -/

structure Moves (R : Parser → Parser → Prop) : Prop where
  refl : ∀ p, R p p
  trans : ∀ {p q r}, R p q → R q r → R p r
  next : ∀ p, R p p.nextToken.parser
  rewind : ∀ {p q}, R p q → R p (q.rewindTo p)
  nest : ∀ {p q}, R p.enter q → R p q.leave

namespace Moves

variable {R : Parser → Parser → Prop}

theorem orRewind (h : Moves R) {r : Reply α} (hr : R p r.parser) :
    R p (r.orRewind p).parser := by
  unfold Reply.orRewind
  split
  · exact hr
  · exact h.rewind hr

/-- Whether a value was found makes no difference to a relation between
parsers. -/
theorem respected (h : Moves R) : Respected fun p r => R p r.parser where
  stay p _ := h.refl p
  next := h.next
  retell hr hparser _ := hparser ▸ hr
  goOn hr _ hr' := h.trans hr hr'
  rewind := h.orRewind
  again hr hr' := h.trans (h.rewind hr) hr'
  nest := h.nest

theorem nextWord (h : Moves R) {t : Token} {ts : List Token}
    (hw : p.words = t :: ts) : R p p.next := by
  have hn := h.next p
  rwa [nextToken_of_cons hw] at hn

/-- A relation that every step respects holds of every reader. -/
theorem covers (h : Moves R) (p : Parser) :
    Covers (fun p r => R p r.parser) p :=
  h.respected.covers p

end Moves

/-! ## The surroundings of a parser -/

/-- The parsers belong to the same source, stand inside as many parentheses and
are under the same limit. -/
structure SameSetting (p q : Parser) : Prop where
  stop : q.stop = p.stop
  depth : q.depth = p.depth
  limit : q.limit = p.limit

theorem sameSetting_moves : Moves SameSetting where
  refl _ := ⟨rfl, rfl, rfl⟩
  trans h g :=
    ⟨g.stop.trans h.stop, g.depth.trans h.depth, g.limit.trans h.limit⟩
  next p := by
    unfold nextToken
    split <;> exact ⟨rfl, rfl, rfl⟩
  rewind h := ⟨h.stop, h.depth, h.limit⟩
  nest h := ⟨h.stop, congrArg (· - 1) h.depth, h.limit⟩

theorem SameSetting.rewindTo_eq {q : Parser} (h : SameSetting p q) :
    q.rewindTo p = p := by
  obtain ⟨unread, stop, depth, limit⟩ := q
  obtain ⟨rfl, rfl, rfl⟩ := h
  rfl

theorem SameSetting.attempt_eq {q : Parser} {read : Parser → Reply α}
    {f : Fault} (h : SameSetting p (read p).parser)
    (he : p.attempt read = ⟨.error f, q⟩) : q = p := by
  have hq : (p.attempt read).parser = q := by rw [he]
  rw [← hq, parser_attempt_of_error (f := f) (by rw [he]), h.rewindTo_eq]

/-- Each alternative for a primary expression begins at the same place. -/
theorem primary_eq (p : Parser) :
    p.primary =
      ((p.attempt literal).map Primary.literal).orElse fun _ =>
        ((p.attempt group).map Primary.group).orElse fun _ =>
          p.nextToken.refine fun t =>
            .error (.unexpected t [.number, .name, .openParen]) := by
  rw [primary_eq_orElse]
  cases hl : p.attempt literal with
  | mk outcome q =>
      cases outcome with
      | ok l => rfl
      | error f =>
          obtain rfl := (sameSetting_moves.respected.literal p).attempt_eq hl
          cases hg : q.attempt group with
          | mk outcome q' =>
              cases outcome with
              | ok g =>
                  simp only [Reply.map_error, Reply.orElse_error, hg,
                    Reply.map_ok, Reply.orElse_ok]
              | error g =>
                  obtain rfl := (sameSetting_moves.covers q).group.attempt_eq hg
                  simp only [Reply.map_error, Reply.orElse_error, hg]

end Parser

end PolyAlgebra
