import PolyAlgebra.Proofs.Moves
import PolyAlgebra.Proofs.OnePass
import PolyAlgebra.Proofs.Operands

/-!
# Both readers agree

What the readers that call each other and go back find out is what reading in
one pass finds out. Each reader is compared with the pass that starts where the
reader starts and knows what waits for its value; the pass goes on with the
value from where the reader stopped, or ends with the fault of the reader.
-/

namespace PolyAlgebra

namespace Reply

variable {α β γ : Type}

/-- Goes on with the fault, or with the value from where it left the parser. -/
def resume (r : Reply α) (onFault : Fault → γ) (onValue : α → Parser → γ) : γ :=
  match r.outcome with
  | .ok a => onValue a r.parser
  | .error f => onFault f

variable {onFault : Fault → γ}

@[simp] theorem resume_ok (a : α) (p : Parser) (onValue : α → Parser → γ) :
    resume ⟨.ok a, p⟩ onFault onValue = onValue a p := rfl

@[simp] theorem resume_error (f : Fault) (p : Parser)
    (onValue : α → Parser → γ) :
    resume ⟨.error f, p⟩ onFault onValue = onFault f := rfl

theorem resume_of_error {r : Reply α} {f : Fault} (h : r.outcome = .error f)
    (onValue : α → Parser → γ) : r.resume onFault onValue = onFault f := by
  rw [resume, h]

theorem resume_andThen (r : Reply α) (read : α → Parser → Reply β)
    (onValue : β → Parser → γ) :
    (r.andThen read).resume onFault onValue =
      r.resume onFault fun a p => (read a p).resume onFault onValue := by
  obtain ⟨outcome, p⟩ := r
  cases outcome <;> rfl

theorem resume_asFatal (r : Reply α) (onValue : α → Parser → γ) :
    r.asFatal.resume onFault onValue =
      r.resume (fun f => onFault f.asFatal) onValue := by
  obtain ⟨outcome, p⟩ := r
  cases outcome <;> rfl

theorem resume_orRewind (r : Reply α) (p : Parser) (onValue : α → Parser → γ) :
    (r.orRewind p).resume onFault onValue = r.resume onFault onValue := by
  obtain ⟨outcome, q⟩ := r
  cases outcome <;> rfl

theorem resume_map (r : Reply α) (f : α → β) (onValue : β → Parser → γ) :
    (r.map f).resume onFault onValue =
      r.resume onFault fun a p => onValue (f a) p := by
  obtain ⟨outcome, p⟩ := r
  cases outcome <;> rfl

end Reply

namespace Parser

open Stage

/-- The parser reads under a limit, up to a place, inside open parentheses. -/
structure Inside (p : Parser) (limit : Option Nat) (stop : Nat)
    (outer : Outer) :
    Prop where
  limit : p.limit = limit
  stop : p.stop = stop
  depth : p.depth = outer.length

variable {limit : Option Nat} {stop : Nat} {outer : Outer} {p q : Parser}

theorem Inside.moved (h : p.Inside limit stop outer) (hm : SameSetting p q) :
    q.Inside limit stop outer :=
  ⟨hm.limit.trans h.limit, hm.stop.trans h.stop, hm.depth.trans h.depth⟩

theorem Inside.next {t : Token} {ts : List Token}
    (h : p.Inside limit stop outer) (hw : p.words = t :: ts) :
    p.next.Inside limit stop outer :=
  h.moved (sameSetting_moves.nextWord hw)

theorem Inside.primary {v : Primary} (h : p.Inside limit stop outer)
    (hv : p.primary = ⟨.ok v, q⟩) : q.Inside limit stop outer := by
  have hm := (sameSetting_moves.covers p).primary
  rw [hv] at hm
  exact h.moved hm

theorem Inside.chain {lhs v : Tree} {precedence : Precedence}
    (h : p.Inside limit stop outer)
    (hv : p.chain lhs precedence = ⟨.ok v, q⟩) : q.Inside limit stop outer := by
  have hm := (sameSetting_moves.covers p).chain lhs precedence
  rw [hv] at hm
  exact h.moved hm

theorem Inside.join (h : p.Inside limit stop outer) (lhs : Tree) (op : Operator)
    (rhs : Tree) :
    p.join lhs op rhs =
      ⟨attach limit outer.length (some (lhs, op)) rhs, p⟩ := by
  unfold Parser.join attach checkDepth
  rw [h.limit, h.depth]
  cases limit with
  | none => rfl
  | some m =>
      dsimp only
      split <;> rfl

/-- The readers at a parser find out what one pass finds out. -/
structure Agrees (limit : Option Nat) (stop : Nat) (p : Parser) : Prop where
  primary : ∀ context outer, p.Inside limit stop outer →
    (context = .empty → ∀ t ∈ p.words.head?, t.kind ≠ .closeParen) →
    run limit stop p.words (.due context outer) =
      p.primary.resume (fun f => .error (graded context outer f)) fun v q =>
        (operand limit context outer v.toTree).bind (run limit stop q.words)
  factors : ∀ terms v outer, p.Inside limit stop outer →
    run limit stop p.words (.after terms v outer) =
      (p.chain v .factor).resume .error fun v q =>
        run limit stop q.words (.after terms v outer)
  sum : ∀ v outer, p.Inside limit stop outer →
    (∀ t ∈ p.words.head?, t.kind ≠ .mul) →
    runSum limit stop v outer p.words =
      (p.chain v .any).resume .error fun v q =>
        runSum limit stop v outer q.words
  expr : ∀ outer, p.Inside limit stop outer →
    (∀ t ∈ p.words.head?, t.kind ≠ .closeParen) →
    run limit stop p.words (.due .empty outer) =
      p.expr.resume (fun f => .error (graded .empty outer f)) fun v q =>
        runSum limit stop v outer q.words

/-! ## Chains -/

theorem agrees_factors (ih : ∀ q, q.pending < p.pending → Agrees limit stop q)
    (terms : Waiting) (v : Tree) (h : p.Inside limit stop outer) :
    run limit stop p.words (.after terms v outer) =
      (p.chain v .factor).resume .error fun v q =>
        run limit stop q.words (.after terms v outer) := by
  rcases p.sign_or_stop .factor with ⟨t, ts, op, hw, ho, hle⟩ | hstop
  · have hk : t.kind = .mul := Token.reaches_factor.mp ⟨op, ho, hle⟩
    rw [operatorOf_mul hk] at ho
    obtain rfl := Except.ok.inj ho
    have hts : p.next.words = ts := by rw [words_next, hw, List.tail_cons]
    have hlt := pending_next_lt hw
    rw [chain_of_sign hw (operatorOf_mul hk) hle, Reply.resume_andThen, link,
      Reply.resume_andThen, Reply.resume_asFatal, attempt,
      Reply.resume_orRewind, hw, run, step_mul hk, Except.bind]
    -- the operand stands behind the sign, where fewer words are left
    rw [← hts, (ih _ hlt).primary _ _ (h.next hw) (by rintro ⟨⟩)]
    cases hv : p.next.primary with
    | mk outcome q =>
        cases outcome with
        | error f =>
            rw [Reply.resume_error, Reply.resume_error,
              graded_of_context (by rintro ⟨⟩)]
        | ok rhs =>
            have hq := (h.next hw).primary hv
            have hlt' := p.next.advances_primary.lt rhs (by rw [hv])
            rw [hv] at hlt'
            rw [Reply.resume_ok, Reply.resume_ok, completed_mul,
              hq.join, operand]
            cases attach limit outer.length (some (v, ⟨.mul, t.span⟩))
              rhs.toTree with
            | error f => rfl
            | ok node =>
                exact (ih q (Nat.lt_trans hlt' hlt)).factors terms node outer hq
  · rw [chain_of_stop hstop]
    rfl

theorem agrees_sum (ih : ∀ q, q.pending < p.pending → Agrees limit stop q)
    (v : Tree) (h : p.Inside limit stop outer)
    (hmul : ∀ t ∈ p.words.head?, t.kind ≠ .mul) :
    runSum limit stop v outer p.words =
      (p.chain v .any).resume .error fun v q =>
        runSum limit stop v outer q.words := by
  rcases p.sign_or_stop .any with ⟨t, ts, op, hw, ho, hle⟩ | hstop
  · have hk : t.kind = .add := by
      rcases Token.reaches_any.mp ⟨op, ho, hle⟩ with hk | hk
      · exact hk
      · exact absurd hk (hmul t (by rw [hw]; rfl))
    rw [operatorOf_add hk] at ho
    obtain rfl := Except.ok.inj ho
    have hts : p.next.words = ts := by rw [words_next, hw, List.tail_cons]
    have hlt := pending_next_lt hw
    rw [chain_of_sign hw (operatorOf_add hk) hle, Reply.resume_andThen, link,
      Reply.resume_andThen, Reply.resume_asFatal, attempt,
      Reply.resume_orRewind, hw, runSum, proceed_add hk, Except.bind]
    rw [← hts, (ih _ hlt).primary _ _ (h.next hw) (by rintro ⟨⟩)]
    cases hv : p.next.primary with
    | mk outcome q =>
        cases outcome with
        | error f =>
            rw [Reply.resume_error, Reply.resume_error,
              graded_of_context (by rintro ⟨⟩)]
        | ok rhs =>
            have hq := (h.next hw).primary hv
            have hlt' := p.next.advances_primary.lt rhs (by rw [hv])
            rw [hv] at hlt'
            have hqp := Nat.lt_trans hlt' hlt
            -- the factors behind the operand come first, and then the sum
            rw [Reply.resume_ok, Reply.resume_ok, completed_add,
              Reply.resume_andThen]
            show run limit stop q.words
              (.after (some (v, ⟨.add, t.span⟩)) rhs.toTree outer) = _
            rw [(ih q hqp).factors _ _ _ hq]
            cases hc : q.chain rhs.toTree .factor with
            | mk outcome q' =>
                cases outcome with
                | error f => rfl
                | ok product =>
                    have hmul' := not_mul_of_chain hc
                    have hq' := hq.chain hc
                    have hle := q.pending_chain_le rhs.toTree .factor
                    rw [hc] at hle
                    rw [Reply.resume_ok, Reply.resume_ok,
                      run_after hmul', hq'.join]
                    cases attach limit outer.length (some (v, ⟨.add, t.span⟩))
                        product with
                    | error f => rfl
                    | ok node =>
                        exact (ih q' (Nat.lt_of_le_of_lt hle hqp)).sum
                          node outer
                          hq' hmul'
  · rw [chain_of_stop hstop]
    rfl

/-! ## Expressions and primary expressions -/

theorem not_isSign_of_expr {v : Tree} (h : p.expr = ⟨.ok v, q⟩) :
    ∀ t ∈ q.words.head?, ¬t.IsSign := by
  rw [expr_eq] at h
  split at h
  · cases h
  · cases hp : p.attempt Parser.primary with
    | mk outcome r =>
        rw [hp] at h
        cases outcome with
        | error f => cases h
        | ok lhs =>
            intro t ht hs
            exact not_reaches_of_chain h t ht (Token.reaches_any.mpr hs)

theorem agrees_expr (ih : ∀ q, q.pending < p.pending → Agrees limit stop q)
    (hprimary : ∀ context outer, p.Inside limit stop outer →
      (context = .empty → ∀ t ∈ p.words.head?, t.kind ≠ .closeParen) →
      run limit stop p.words (.due context outer) =
        p.primary.resume (fun f => .error (graded context outer f)) fun v q =>
          (operand limit context outer v.toTree).bind (run limit stop q.words))
    (h : p.Inside limit stop outer)
    (hclose : ∀ t ∈ p.words.head?, t.kind ≠ .closeParen) :
    run limit stop p.words (.due .empty outer) =
      p.expr.resume (fun f => .error (graded .empty outer f)) fun v q =>
        runSum limit stop v outer q.words := by
  obtain ⟨f, hpeek⟩ := outcome_peek_token_eq_error hclose
  rw [expr_eq, hpeek, hprimary _ _ h fun _ => hclose]
  dsimp only
  rw [Reply.resume_andThen, attempt, Reply.resume_orRewind]
  cases hv : p.primary with
  | mk outcome q =>
      cases outcome with
      | error f => rfl
      | ok lhs =>
          have hq := h.primary hv
          have hlt := p.advances_primary.lt lhs (by rw [hv])
          rw [hv] at hlt
          rw [Reply.resume_ok, Reply.resume_ok, chain_any, Reply.resume_andThen]
          show run limit stop q.words (.after none lhs.toTree outer) = _
          rw [(ih q hlt).factors _ _ _ hq]
          cases hc : q.chain lhs.toTree .factor with
          | mk outcome q' =>
              cases outcome with
              | error f =>
                  -- nothing stands before the expression, so only a fault that
                  -- is final already ends both readings alike
                  rw [Reply.resume_error, Reply.resume_error, graded_of_fatal]
                  exact settled_chain q lhs.toTree .factor f (by rw [hc])
              | ok product =>
                  have hmul := not_mul_of_chain hc
                  have hle := q.pending_chain_le lhs.toTree .factor
                  rw [hc] at hle
                  rw [Reply.resume_ok, Reply.resume_ok, run_after hmul]
                  show runSum limit stop product outer q'.words = _
                  rw [(ih q' (Nat.lt_of_le_of_lt hle hlt)).sum _ _
                    (hq.chain hc) hmul]
                  cases hs : q'.chain product .any with
                  | mk outcome r =>
                      cases outcome with
                      | error f =>
                          rw [Reply.resume_error, Reply.resume_error,
                            graded_of_fatal]
                          exact settled_chain q' product .any f (by rw [hs])
                      | ok v => rfl

theorem agrees_closeGroup {context : Context} {opening : Token} {inner : Tree}
    (hsign : ∀ t ∈ p.words.head?, ¬t.IsSign) :
    runSum limit stop inner ((opening, context) :: outer) p.words =
      (p.closeGroup opening inner).resume .error fun g q =>
        (operand limit context outer g.toTree).bind
          (run limit stop q.words) := by
  cases hw : p.words with
  | nil =>
      simp only [closeGroup, nextToken_of_nil hw]
      rfl
  | cons t ts =>
      rw [hw] at hsign
      simp only [closeGroup, nextToken_of_cons hw]
      by_cases hk : t.kind = .closeParen
      · rw [runSum, proceed_closeParen hk, if_pos hk, Reply.resume_ok,
          words_next, hw]
        rfl
      · rw [runSum, proceed_other (hsign t rfl) hk, if_neg hk]
        rfl

/-- What stands behind an opening parenthesis is read by the pass with the
parenthesis on top of those that were open before. -/
theorem agrees_groupBody (context : Context) (opening : Token)
    (hexpr : (∀ t ∈ p.words.head?, t.kind ≠ .closeParen) →
      run limit stop p.words (.due .empty ((opening, context) :: outer)) =
        p.expr.resume
          (fun f => .error (graded .empty ((opening, context) :: outer) f))
          fun v q =>
            runSum limit stop v ((opening, context) :: outer) q.words) :
    run limit stop p.words (.due .empty ((opening, context) :: outer)) =
      (p.groupBody opening).resume .error fun g q =>
        (operand limit context outer g.toTree).bind
          (run limit stop q.words) := by
  rw [groupBody_eq]
  by_cases hclose : ∀ t ∈ p.words.head?, t.kind ≠ .closeParen
  · obtain ⟨f, hpeek⟩ := outcome_peek_token_eq_error hclose
    rw [hexpr hclose, hpeek]
    dsimp only
    rw [Reply.resume_andThen, Reply.resume_asFatal, attempt,
      Reply.resume_orRewind]
    cases hv : p.expr with
    | mk outcome q =>
        cases outcome with
        | error f =>
            rw [Reply.resume_error, Reply.resume_error, graded_of_outer]
        | ok inner =>
            rw [Reply.resume_ok, Reply.resume_ok]
            exact agrees_closeGroup (not_isSign_of_expr hv)
  · obtain ⟨t, ts, hw, hk⟩ := exists_word_of_head hclose
    rw [← hk, outcome_peek_token hw, hw, run, step, begin_other (by simp [hk]),
      noOperand, if_pos ⟨rfl, hk⟩]
    rfl

theorem agrees_primary (ih : ∀ q, q.pending < p.pending → Agrees limit stop q)
    (context : Context) (h : p.Inside limit stop outer)
    (hclose : context = .empty → ∀ t ∈ p.words.head?, t.kind ≠ .closeParen) :
    run limit stop p.words (.due context outer) =
      p.primary.resume (fun f => .error (graded context outer f)) fun v q =>
        (operand limit context outer v.toTree).bind
          (run limit stop q.words) := by
  cases hw : p.words with
  | nil =>
      rw [primary_of_other (by simp [hw]), nextToken_of_nil hw,
        stopSpan, h.stop]
      rfl
  | cons t ts =>
      rw [hw] at hclose
      have hts : p.next.words = ts := by rw [words_next, hw, List.tail_cons]
      have hlt := pending_next_lt hw
      rw [run, step]
      by_cases hnumber : t.kind = .number
      · cases hl : numberOf t with
        | error f =>
            rw [begin_badNumber hnumber hl,
              Reply.resume_of_error (primary_of_badNumber hw hnumber hl),
              graded_of_fatal (fatal_of_numberOf hl)]
            rfl
        | ok l =>
            rw [begin_number hnumber hl, primary_of_number hw hnumber hl,
              Reply.resume_ok, hts]
            rfl
      by_cases hname : t.kind = .name
      · rw [begin_name hname, primary_of_name hw hname, Reply.resume_ok, hts]
        rfl
      by_cases hopen : t.kind = .openParen
      · have hp := h.next hw
        rw [begin_openParen hopen, primary_of_openParen hw hopen,
          Reply.resume_map, Reply.resume_orRewind, opened, nested,
          reachedLimit?, hp.limit, hp.depth]
        cases hm : limit.filter (· ≤ outer.length) with
        | some m =>
            rw [Reply.resume_error, graded_of_fatal rfl]
            rfl
        | none =>
            have henter :
                p.next.enter.Inside limit stop ((t, context) :: outer) :=
              ⟨hp.limit, hp.stop, congrArg (· + 1) hp.depth⟩
            have hbody := agrees_groupBody context t
              ((ih p.next.enter hlt).expr _ henter)
            rw [words_enter, hts] at hbody
            refine hbody.trans ?_
            have hs := settled_groupBody p.next.enter t
            cases hg : p.next.enter.groupBody t with
            | mk outcome q =>
                cases outcome with
                | ok g => rfl
                | error f =>
                    dsimp only
                    rw [Reply.resume_error, Reply.resume_error, graded_of_fatal]
                    exact hs f (by rw [hg])
      · have hk : t.kind ≠ .number ∧ t.kind ≠ .name ∧ t.kind ≠ .openParen :=
          ⟨hnumber, hname, hopen⟩
        rw [begin_other hk, primary_of_other (by simpa [hw] using hk),
          nextToken_of_cons hw,
          noOperand_of_not fun hc => hclose hc.1 t rfl hc.2]
        rfl

theorem agrees (p : Parser) : Agrees limit stop p := by
  induction hn : p.pending using Nat.strongRecOn generalizing p with
  | ind n ih =>
      subst hn
      have ih : ∀ q, q.pending < p.pending → Agrees limit stop q :=
        fun q hq => ih _ hq q rfl
      exact {
        primary := fun context _ h hc => agrees_primary ih context h hc
        factors := fun terms v _ h => agrees_factors ih terms v h
        sum := fun v _ h hmul => agrees_sum ih v h hmul
        expr := fun _ h hclose => agrees_expr ih
          (fun context _ h hc => agrees_primary ih context h hc) h hclose }

/-! ## Whole sources -/

theorem trailing?_of_nil (h : p.words = []) : p.trailing? = none := by
  rcases p.skipBlanks_eq_words with ⟨_, hu⟩ | ⟨t, rest, _, hw⟩
  · rw [trailing?, hu]
  · rw [h] at hw
    cases hw

theorem trailing?_of_cons {t : Token} {ts : List Token}
    (h : p.words = t :: ts) :
    p.trailing? =
      some (if t.kind = .closeParen
        then .located t.span (.unclosedParenthesis false)
        else stray p.stop [] t) := by
  rcases p.skipBlanks_eq_words with ⟨hw, _⟩ | ⟨u, rest, hu, hw⟩
  · rw [h] at hw
    cases hw
  · rw [h] at hw
    obtain ⟨rfl, -⟩ := List.cons.inj hw
    rw [trailing?, hu]
    simp only [stray, apply_ite some]

/-- An expression behind which the source ends, as one pass sees it. -/
theorem runSum_eq_trailing {v : Tree} (hstop : p.stop = stop)
    (hsign : ∀ t ∈ p.words.head?, ¬t.IsSign) :
    (match p.trailing? with
      | none => .ok v
      | some f => .error f) = runSum limit stop v [] p.words := by
  cases hw : p.words with
  | nil =>
      rw [trailing?_of_nil hw]
      rfl
  | cons t ts =>
      rw [hw] at hsign
      rw [trailing?_of_cons hw, hstop, runSum]
      by_cases hk : t.kind = .closeParen
      · rw [if_pos hk, proceed_closeParen_nil hk]
        rfl
      · rw [if_neg hk, proceed_other (hsign t rfl) hk]
        rfl

/-- Reading an expression behind which the source ends and going over the words
once come to the same: the same tree or the same fault. -/
theorem outcome_whole_expr (h : p.Inside limit stop []) :
    p.expr.whole.outcome = run limit stop p.words start := by
  by_cases hclose : ∀ t ∈ p.words.head?, t.kind ≠ .closeParen
  · rw [start, (agrees p).expr [] h hclose]
    have hm := (sameSetting_moves.covers p).expr
    cases hv : p.expr with
    | mk outcome q =>
        rw [hv] at hm
        cases outcome with
        | error f => rfl
        | ok v =>
            rw [Reply.resume_ok, ← runSum_eq_trailing (hm.stop.trans h.stop)
              (not_isSign_of_expr hv), Reply.whole, Reply.andThen_ok]
            cases q.trailing? <;> rfl
  · obtain ⟨t, ts, hw, hk⟩ := exists_word_of_head hclose
    rw [expr_eq, ← hk, outcome_peek_token hw, hw, run, start, step,
      begin_other (by simp [hk]), noOperand, if_pos ⟨rfl, hk⟩]
    rfl

end Parser

theorem Tree.parse_eq_run (source : String) (limit : Option Nat) :
    Tree.parse source limit =
      Stage.run limit (Parser.ofSource source limit).stop
        (Token.words (Token.scan source)) .start :=
  Parser.outcome_whole_expr ⟨rfl, rfl, rfl⟩

end PolyAlgebra
