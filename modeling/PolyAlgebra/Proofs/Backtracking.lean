import Mathlib
import PolyAlgebra.Parser.Action
import PolyAlgebra.Proofs.Moves

/-!
# Going back leaves no trace

A parser is read from by operations: single tokens, the readers of all
categories, looking ahead, and whatever closures are made of these, which may
be attempted as one or run inside parentheses. The cursor is put back by going
back to where it was, the depth by going outside again, and faults may come up
between the two. All the same an attempt that fails leaves the parser as it
was, and no operation changes the depth.
-/

namespace PolyAlgebra

namespace Parser

variable {α β : Type} {p q r : Parser}

/-! ## Where readers stop -/

/-- The second parser stands just behind a word that was ahead of the first. -/
def Behind (p q : Parser) : Prop :=
  ∃ skipped t, p.unread = skipped ++ t :: q.unread ∧ t.isWhitespace = false

theorem Behind.trans (h : Behind p q) (g : Behind q r) : Behind p r := by
  obtain ⟨skipped, t, hp, -⟩ := h
  obtain ⟨skipped', t', hq, ht'⟩ := g
  refine ⟨skipped ++ t :: skipped', t', ?_, ht'⟩
  rw [hp, hq, List.append_assoc, List.cons_append]

theorem behind_nextToken {t : Token} (h : p.nextToken.outcome = .ok t) :
    Behind p p.nextToken.parser := by
  unfold nextToken at h ⊢
  split
  · next hu => simp [hu] at h
  · next u rest hu =>
      refine ⟨p.unread.takeWhile Token.isWhitespace, u, ?_, ?_⟩
      · exact (List.takeWhile_append_dropWhile).symm.trans (congrArg _ hu)
      · -- skipping stops only at a word
        have hd := List.head?_dropWhile_not Token.isWhitespace p.unread
        simp only [skipBlanks] at hu
        rw [hu] at hd
        simpa using hd

/-- The second parser stands where the first does or just behind a word. -/
def Trails (p q : Parser) : Prop := q.unread = p.unread ∨ Behind p q

theorem Trails.trans (h : Trails p q) (g : Trails q r) : Trails p r := by
  rcases h with heq | hbehind
  · unfold Trails Behind at g ⊢
    rwa [← heq]
  · rcases g with heq | hbehind'
    · obtain ⟨skipped, t, hp, ht⟩ := hbehind
      exact Or.inr ⟨skipped, t, heq ▸ hp, ht⟩
    · exact Or.inr (hbehind.trans hbehind')

/-- Where a reader finds no value it may stop anywhere; where it finds one, it
has not moved or stands just behind a word. -/
theorem trails_respected :
    Respected fun p r => ∀ a, r.outcome = .ok a → Trails p r.parser where
  stay _ _ _ _ := Or.inl rfl
  next _ _ ht := Or.inr (behind_nextToken ht)
  retell {_ _ _ r r'} hr hparser hfault b hb := by
    rw [hparser]
    cases ho : r.outcome with
    | ok a => exact hr a ho
    | error f =>
        -- a fault is still a fault, so there is no value
        obtain ⟨g, hg⟩ := hfault f ho
        cases hg.symm.trans hb
  goOn hr ha hr' b hb := (hr _ ha).trans (hr' b hb)
  rewind {_ _ r} hr a ha := by
    unfold Reply.orRewind at ha ⊢
    split at ha
    · next b hb => exact hr b hb
    · next f hf => cases hf.symm.trans ha
  again _ hr' b hb := hr' b hb
  nest hr a ha := hr a ha

end Parser

namespace Category

theorem respects {P : ∀ {α : Type}, Parser → Reply α → Prop}
    (h : Parser.Respected P) (c : Category) (p : Parser) : P p (c.read p) := by
  cases c with
  | token kind => exact h.token kind p
  | operator => exact h.operator p
  | numberLiteral => exact h.numberLiteral p
  | symbolLiteral => exact h.symbolLiteral p
  | literal => exact h.literal p
  | group => exact (h.covers p).group
  | primary => exact (h.covers p).primary
  | expr => exact (h.covers p).expr

theorem advances_read (c : Category) (p : Parser) :
    Parser.Advances p (c.read p) := by
  cases c with
  | token kind => exact p.advances_token kind
  | operator => exact p.advances_operator
  | numberLiteral => exact p.advances_numberLiteral
  | symbolLiteral => exact p.advances_symbolLiteral
  | literal => exact p.advances_literal
  | group => exact p.advances_group
  | primary => exact p.advances_primary
  | expr => exact p.advances_expr

/-- A reader of any category moves strictly forward to just behind a word. -/
theorem behind_read (c : Category) {p : Parser} {v : c.Value}
    (h : (c.read p).outcome = .ok v) : p.Behind (c.read p).parser := by
  rcases c.respects Parser.trails_respected p v h with heq | hbehind
  · -- then no word was taken
    have hlt := (c.advances_read p).lt v h
    rw [Parser.pending, Parser.pending, heq] at hlt
    exact absurd hlt (Nat.lt_irrefl _)
  · exact hbehind

end Category

namespace Parser

variable {α β : Type} {p q r : Parser}

/-! ## Operations -/

/-- What can be done with a parser. Closures are operations that go on after
others in a way that may depend on what these found or on how they failed. The
readers of the parts of an expression are among the operations, and so the
parsers that come up while an expression is read are reached by operations
too. -/
inductive Operation : {α : Type} → (Parser → Reply α) → Prop where
  /-- Find something out, or fail, without reading. -/
  | look {α : Type} (f : Parser → Except Fault α) : Operation fun p => ⟨f p, p⟩
  | next : Operation nextToken
  | read (c : Category) : Operation c.read
  | body (opening : Token) : Operation fun p => p.groupBody opening
  | chain (lhs : Tree) (precedence : Precedence) :
      Operation fun p => p.chain lhs precedence
  /-- Do one thing and then, whatever came of it, another. -/
  | follow {α β : Type} {f : Parser → Reply α}
      {g : Except Fault α → Parser → Reply β}
      (first : Operation f) (second : ∀ o, Operation (g o)) :
      Operation fun p => g (f p).outcome (f p).parser
  | attempt {α : Type} {f : Parser → Reply α} (body : Operation f) :
      Operation fun p => p.attempt f
  | peek {α : Type} {f : Parser → Reply α} (body : Operation f) :
      Operation fun p => p.peek f
  | whole {α : Type} {f : Parser → Reply α} (body : Operation f) :
      Operation fun p => (f p).whole
  | nested {α : Type} {f : Parser → Reply α} (span : Parser → Span)
      (body : Operation f) : Operation fun p => p.nested (span p) f

/-- The parsers belong to the same source and setting, and the second stands
where the first does or further on. -/
structure Forward (p q : Parser) : Prop extends SameSetting p q where
  suffix : q.unread <:+ p.unread

theorem Forward.trans (h : Forward p q) (g : Forward q r) : Forward p r :=
  ⟨sameSetting_moves.trans h.toSameSetting g.toSameSetting,
    g.suffix.trans h.suffix⟩

theorem forward_skipBlanks (p : Parser) : Forward p p.skipBlanks :=
  ⟨⟨rfl, rfl, rfl⟩, List.dropWhile_suffix _⟩

theorem forward_nextToken (p : Parser) : Forward p p.nextToken.parser := by
  refine ⟨sameSetting_moves.next p, ?_⟩
  have hskip := (forward_skipBlanks p).suffix
  unfold nextToken
  split
  · exact hskip
  · next t rest hu =>
      rw [hu] at hskip
      exact (List.suffix_cons t rest).trans hskip

theorem forward_moves : Moves Forward where
  refl p := ⟨sameSetting_moves.refl p, List.suffix_rfl⟩
  trans := Forward.trans
  next := forward_nextToken
  rewind h := ⟨sameSetting_moves.rewind h.toSameSetting, List.suffix_rfl⟩
  nest h := ⟨sameSetting_moves.nest h.toSameSetting, h.suffix⟩

theorem Operation.forward {f : Parser → Reply α} (h : Operation f)
    (p : Parser) :
    Forward p (f p).parser := by
  induction h generalizing p with
  | look f => exact forward_moves.refl p
  | next => exact forward_nextToken p
  | read c => exact c.respects forward_moves.respected p
  | body opening => exact (forward_moves.covers p).body opening
  | chain lhs precedence => exact (forward_moves.covers p).chain lhs precedence
  | follow _ _ ihf ihg => exact (ihf p).trans (ihg _ _)
  | attempt _ ih => exact forward_moves.orRewind (ih p)
  | peek _ ih => exact forward_moves.rewind (ih p)
  | whole _ ih =>
      refine forward_moves.respected.andThen (ih p) fun a _ => ?_
      split <;> exact forward_skipBlanks _
  | nested span _ ih => exact forward_moves.respected.nested (ih p.enter)

theorem Operation.parser_attempt {f : Parser → Reply α} {e : Fault}
    (h : Operation f) (he : (p.attempt f).outcome = .error e) :
    (p.attempt f).parser = p := by
  rw [parser_attempt_of_error he]
  exact (h.forward p).toSameSetting.rewindTo_eq

theorem Operation.parser_peek {f : Parser → Reply α} (h : Operation f)
    (p : Parser) :
    (p.peek f).parser = p :=
  (h.forward p).toSameSetting.rewindTo_eq

theorem outcome_peek (p : Parser) (f : Parser → Reply α) :
    (p.peek f).outcome = (p.attempt f).outcome := by
  unfold attempt Reply.orRewind
  split <;> rfl

/-! ## Reachable parsers -/

/-- The parsers that come up while a source is worked on, between operations
and inside closures, with the number of closures around that run in
parentheses. The limit can only be changed outside of closures. -/
inductive Reachable (source : String) : Nat → Parser → Prop where
  | start (limit : Option Nat) : Reachable source 0 (ofSource source limit)
  | relimit {p : Parser} (limit : Option Nat) :
      Reachable source 0 p → Reachable source 0 (p.withLimit limit)
  | after {n : Nat} {p : Parser} {α : Type} {f : Parser → Reply α} :
      Reachable source n p → Operation f → Reachable source n (f p).parser
  | inside {n : Nat} {p : Parser} :
      Reachable source n p → p.reachedLimit? = none →
        Reachable source (n + 1) p.enter

structure Sound (source : String) (n : Nat) (p : Parser) : Prop where
  suffix : p.unread <:+ Token.scan source
  stop : p.stop = (ofSource source none).stop
  depth : p.depth = n
  within : ∀ m ∈ p.limit, p.depth ≤ m

variable {source : String} {n : Nat}

theorem Sound.forward (h : Sound source n p) (hf : Forward p q) :
    Sound source n q where
  suffix := hf.suffix.trans h.suffix
  stop := hf.stop.trans h.stop
  depth := hf.depth.trans h.depth
  within := by
    rw [hf.limit, hf.depth]
    exact h.within

theorem Sound.enter (h : Sound source n p) (hp : p.reachedLimit? = none) :
    Sound source (n + 1) p.enter where
  suffix := h.suffix
  stop := h.stop
  depth := congrArg (· + 1) h.depth
  within := by
    intro m hm
    have hlt : p.depth < m := by
      simpa using Option.filter_eq_none_iff.mp hp m hm
    exact Nat.succ_le_of_lt hlt

theorem Reachable.sound (h : Reachable source n p) : Sound source n p := by
  induction h with
  | start limit => exact ⟨List.suffix_rfl, rfl, rfl, fun _ _ => Nat.zero_le _⟩
  | relimit limit _ ih =>
      -- outside of closures the depth is zero, which is within any limit
      refine ⟨ih.suffix, ih.stop, ih.depth, fun m _ => ?_⟩
      rw [withLimit, ih.depth]
      exact Nat.zero_le m
  | after _ hf ih => exact ih.forward (hf.forward _)
  | inside _ hp ih => exact ih.enter hp

/-- What is run inside parentheses is only ever asked at parsers one level
further inside, and where the limit forbids these it is not asked at all. -/
theorem Reachable.nested_congr (h : Reachable source n p) (span : Span)
    {f g : Parser → Reply α}
    (hfg : ∀ q, Reachable source (n + 1) q → f q = g q) :
    p.nested span f = p.nested span g := by
  unfold nested
  split
  · rfl
  · next hp => rw [hfg _ (h.inside hp)]

theorem operation_openParen : Operation fun p => p.attempt (token .openParen) :=
  .attempt (.read (.token .openParen))

/-- The same holds of what follows the opening parenthesis of a group. -/
theorem Reachable.group_congr (h : Reachable source n p)
    {body : Parser → Token → Reply Group}
    (hbody : ∀ q opening, Reachable source (n + 1) q →
      q.groupBody opening = body q opening) :
    p.group =
      (p.attempt (token .openParen)).andThen fun opening q =>
        q.nested opening.span fun q => body q opening := by
  have hopen := h.after operation_openParen
  rw [group_eq]
  cases ht : p.attempt (token .openParen) with
  | mk outcome q =>
      rw [ht] at hopen
      cases outcome with
      | ok opening =>
          exact hopen.nested_congr opening.span fun q hq => hbody q opening hq
      | error e => rfl

/-- **Backtracking is exact.** A reachable parser stands somewhere in the
tokens of its source, as deep as there are closures around that run in
parentheses and never deeper than the limit: what is run inside parentheses,
by a closure or for a group, depends only on what it does at reachable parsers
one level further inside. No operation changes its depth, its limit or its
source or moves it backwards, an attempt that fails leaves it as it was, and
so does looking ahead, which tells what an attempt would find. A value of any
category is read by moving forward to just behind a word. -/
theorem Reachable.backtracks (h : Reachable source n p) :
    (p.unread <:+ Token.scan source ∧ p.stop = (ofSource source none).stop ∧
      p.depth = n ∧ ∀ m ∈ p.limit, p.depth ≤ m) ∧
    (∀ (α : Type) (span : Span) (f g : Parser → Reply α),
      (∀ q, Reachable source (n + 1) q → f q = g q) →
      p.nested span f = p.nested span g) ∧
    (∀ body : Parser → Token → Reply Group,
      (∀ q opening, Reachable source (n + 1) q →
        q.groupBody opening = body q opening) →
      p.group =
        (p.attempt (token .openParen)).andThen fun opening q =>
          q.nested opening.span fun q => body q opening) ∧
    (∀ (α : Type) (f : Parser → Reply α), Operation f →
      (f p).parser.unread <:+ p.unread ∧ (f p).parser.stop = p.stop ∧
      (f p).parser.depth = p.depth ∧ (f p).parser.limit = p.limit ∧
      (∀ e, (p.attempt f).outcome = .error e → (p.attempt f).parser = p) ∧
      (p.peek f).parser = p ∧ (p.peek f).outcome = (p.attempt f).outcome) ∧
    ∀ (c : Category) (v : c.Value), (c.read p).outcome = .ok v →
      ∃ skipped t, p.unread = skipped ++ t :: (c.read p).parser.unread ∧
        t.isWhitespace = false := by
  have hsound := h.sound
  refine ⟨⟨hsound.suffix, hsound.stop, hsound.depth, hsound.within⟩, ?_,
    ?_, ?_, ?_⟩
  · intro α span f g hfg
    exact h.nested_congr span hfg
  · intro body hbody
    exact h.group_congr hbody
  · intro α f hf
    have hforward := hf.forward p
    exact ⟨hforward.suffix, hforward.stop, hforward.depth, hforward.limit,
      fun _ he => hf.parser_attempt he, hf.parser_peek p, outcome_peek p f⟩
  · intro c v hv
    exact c.behind_read hv

theorem Reachable.backtracks_inside :
    let p := ((ofSource "(x" (some 1)).attempt (token .openParen)).parser.enter
    p.depth = 1 ∧
      (p.nested p.span fun q => ⟨.ok q.depth, q⟩) =
        (p.nested p.span fun q => ⟨.ok 2, q⟩) ∧
      p.group = ((p.attempt (token .openParen)).andThen fun opening q =>
        q.nested opening.span fun q =>
          if q.depth = 2 then q.groupBody opening
          else ⟨.error (q.fault .unexpectedEnd), q⟩) ∧
      (p.peek expr).parser = p ∧ (p.attempt group).parser = p ∧
      ∃ skipped t, p.unread = skipped ++ t :: p.literal.parser.unread ∧
        t.isWhitespace = false := by
  have hstart : Reachable "(x" 0 (ofSource "(x" (some 1)) := .start (some 1)
  have hinside := (hstart.after operation_openParen).inside (by cbv)
  obtain ⟨⟨-, -, hdepth, -⟩, hnested, hgroup, hoperation, hread⟩ :=
    Reachable.backtracks hinside
  obtain ⟨-, -, -, -, -, hpeek, -⟩ := hoperation Tree expr (.read .expr)
  obtain ⟨-, -, -, -, hfailed, -, -⟩ := hoperation Group group (.read .group)
  refine ⟨hdepth, ?_, ?_, hpeek, ?_, ?_⟩
  · apply hnested
    intro q hq
    rw [hq.sound.depth]
  · apply hgroup fun q opening =>
      if q.depth = 2 then q.groupBody opening
      else ⟨.error (q.fault .unexpectedEnd), q⟩
    intro q opening hq
    rw [if_pos hq.sound.depth]
  · exact hfailed (.unexpected ⟨.name, ⟨1, 2⟩, "x"⟩ [.openParen]) (by cbv)
  · exact hread .literal (.symbol ⟨"x", ⟨1, 2⟩⟩) (by cbv)

/-! ## Recorded actions -/

theorem Operation.of_eq {f g : Parser → Reply α} (h : Operation f)
    (heq : ∀ p, g p = f p) :
    Operation g :=
  funext heq ▸ h

theorem Operation.map {f : Parser → Reply α} (h : Operation f) (g : α → β) :
    Operation fun p => (f p).map g :=
  h.follow fun o => .look fun _ => o.map g

theorem Operation.andThen {f : Parser → Reply α} {g : α → Parser → Reply β}
    (hf : Operation f) (hg : ∀ a, Operation (g a)) :
    Operation fun p => (f p).andThen g := by
  have hgo : ∀ o : Except Fault α,
      Operation fun q => Reply.andThen ⟨o, q⟩ g := by
    intro o
    cases o with
    | ok a => exact hg a
    | error e => exact .look fun _ => .error e
  exact hf.follow hgo

end Parser

namespace Action

variable (actions : List Action) (p : Parser)

theorem run_nested :
    ((Action.nested actions).run p).1 =
      (p.nested p.span fun q => (runAll actions q).1).map .list := by
  rw [run, Parser.nested]
  cases p.reachedLimit? with
  | some limit => rfl
  | none => rfl

def refused (expected : List TokenKind) (p : Parser) :
    Except Fault Observation :=
  match p.current? with
  | some t => .error (.unexpected t expected)
  | none => .ok .nothing

theorem run_reject (expected : List TokenKind) :
    ((Action.reject expected).run p).1 = ⟨refused expected p, p⟩ := by
  rw [run, refused]
  cases p.current? <;> rfl

theorem runAll_cons (action : Action) :
    (runAll (action :: actions) p).1 =
      (action.run p).1.andThen fun found q =>
        (runAll actions q).1.map (found :: ·) := by
  rw [runAll]
  split
  · next h => rw [h, Reply.andThen_error]
  · next h => rw [h, Reply.andThen_ok]

mutual

theorem operation_run (a : Action) : Parser.Operation fun p => (a.run p).1 := by
  cases a with
  | next => exact (Parser.Operation.next.map .token).of_eq fun p => by rw [run]
  | read c =>
      exact ((Parser.Operation.read c).map (.value c)).of_eq
        fun p => by rw [run]
  | attempt c =>
      exact ((Parser.Operation.read c).attempt.map (.value c)).of_eq
        fun p => by rw [run]
  | peek c =>
      exact ((Parser.Operation.read c).peek.map (.value c)).of_eq
        fun p => by rw [run]
  | whole c =>
      exact ((Parser.Operation.read c).whole.map (.value c)).of_eq
        fun p => by rw [run]
  | stop =>
      exact (Parser.Operation.look fun p => .ok (.span p.stopSpan)).of_eq
        fun p => by rw [run]
  | fail =>
      have hlook := Parser.Operation.look (α := Observation) fun p =>
        .error (p.fault .unexpectedEnd)
      exact hlook.of_eq fun p => by rw [run]
  | reject expected =>
      exact (Parser.Operation.look (refused expected)).of_eq
        fun p => by rw [run_reject]
  | check t span =>
      have hlook := Parser.Operation.look fun p =>
        (p.checkDepth t span).map fun _ => Observation.nothing
      exact hlook.of_eq fun p => by rw [run]
  | sequence actions =>
      exact ((operation_runAll actions).attempt.map .list).of_eq
        fun p => by rw [run]; rfl
  | nested actions =>
      exact (((operation_runAll actions).nested Parser.span).map .list).of_eq
        (run_nested actions)
  termination_by structural a

theorem operation_runAll (actions : List Action) :
    Parser.Operation fun p => (runAll actions p).1 := by
  cases actions with
  | nil =>
      exact (Parser.Operation.look fun _ => .ok []).of_eq
        fun p => by rw [runAll]
  | cons action actions =>
      have hrest (found : Observation) :=
        (operation_runAll actions).map (found :: ·)
      exact ((operation_run action).andThen hrest).of_eq fun p =>
        runAll_cons actions p action
  termination_by structural actions

end

theorem reachable_run {source : String} {n : Nat} {p : Parser}
    (h : p.Reachable source n) (a : Action) :
    (a.run p).1.parser.Reachable source n :=
  h.after a.operation_run

end Action

end PolyAlgebra
