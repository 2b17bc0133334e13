import PolyAlgebra.Proofs.Blame
import PolyAlgebra.Proofs.Height

/-!
# What the limit does

The limit is looked at in two places: where a parenthesis is opened, and where
an operator gets its right operand. Together these refuse exactly the trees
that are higher than the limit, because what stands at a stage fixes how high
the tree must be at least, and each of the two looks at the part of this bound
that has just become larger. Until then a limit changes nothing.
-/

namespace PolyAlgebra

/-! ## Cutting off -/

/-- The first outcome is the second, cut off by the limit at one of the
words. -/
def CutOff (m : Nat) (ts : List Token) {α : Type} (r r' : Except Fault α) :
    Prop :=
  r = r' ∨
    ∃ u ∈ ts, u.AsksOperand ∧ r = .error (.final u.span (.nestingTooDeep m))

namespace CutOff

variable {m : Nat} {ts us : List Token} {α β : Type} {r r' : Except Fault α}

theorem refl (r : Except Fault α) : CutOff m ts r r := Or.inl rfl

theorem mono (h : CutOff m ts r r') (hsub : ts ⊆ us) : CutOff m us r r' := by
  rcases h with rfl | ⟨u, hu, hk, rfl⟩
  · exact refl r
  · exact Or.inr ⟨u, hsub hu, hk, rfl⟩

theorem bind (h : CutOff m ts r r') {f f' : α → Except Fault β}
    (hf : ∀ a, r = .ok a → CutOff m ts (f a) (f' a)) :
    CutOff m ts (r.bind f) (r'.bind f') := by
  rcases h with rfl | ⟨u, hu, hk, rfl⟩
  · cases r with
    | error e => exact refl _
    | ok a => exact hf a rfl
  · exact Or.inr ⟨u, hu, hk, rfl⟩

theorem eq_of_ok {a : α} (h : CutOff m ts (.ok a) r) : r = .ok a := by
  rcases h with rfl | ⟨u, _, _, hu⟩
  · rfl
  · cases hu

end CutOff

namespace Stage

variable {m stop : Nat} {limit : Option Nat} {s s' : Stage} {t : Token}
  {ts us vs ws : List Token} {context : Context} {outer : Outer} {value : Tree}

theorem attach_low {waiting : Waiting} {rhs : Tree} {depth : Nat}
    (h : ∀ n ∈ limit, depth + (waiting.joined rhs).height ≤ n) :
    attach limit depth waiting rhs = .ok (waiting.joined rhs) := by
  cases waiting with
  | none => rfl
  | some pair =>
      cases limit with
      | none => rfl
      | some n => exact if_neg (Nat.not_lt.mpr (h n rfl))

theorem attach_high {lhs rhs : Tree} {op : Operator} {depth : Nat}
    (h : m < depth + (Waiting.joined (some (lhs, op)) rhs).height) :
    attach (some m) depth (some (lhs, op)) rhs =
      .error (.final op.span (.nestingTooDeep m)) :=
  if_pos h

section Looser

variable (hl : ∀ n ∈ limit, m ≤ n)

include hl

theorem cutOff_attach {kind : OperatorKind} {waiting : Waiting} (depth : Nat)
    (rhs : Tree) (hw : Waits kind waiting ts) :
    CutOff m ts (attach (some m) depth waiting rhs)
      (attach limit depth waiting rhs) := by
  cases hw with
  | nothing => exact .refl _
  | @operand ts lhs sign hlhs hk =>
      rcases Nat.lt_or_ge m (depth +
        (Waiting.joined (some (lhs, ⟨kind, sign.span⟩))
        rhs).height) with hm | hm
      · refine Or.inr ⟨sign, by simp, Or.inl ?_, attach_high hm⟩
        cases kind with
        | add => exact Or.inl hk
        | mul => exact Or.inr hk
      · refine Or.inl ?_
        rw [attach_low fun n hn => Nat.le_trans hm (hl n hn), attach_low]
        rintro n ⟨⟩
        exact hm

theorem cutOff_operand (value : Tree) (hw : Waits .mul context.factors ts) :
    CutOff m ts (operand (some m) context outer value)
      (operand limit context outer value) := by
  rcases cutOff_attach hl outer.length value hw with h | ⟨u, hu, hk, h⟩
  · rw [operand, h]
    exact .refl _
  · rw [operand, h]
    exact Or.inr ⟨u, hu, hk, rfl⟩

theorem cutOff_opened (hk : t.kind = .openParen) :
    CutOff m [t] (opened (some m) context outer t)
      (opened limit context outer t) := by
  by_cases hm : m ≤ outer.length
  · refine Or.inr ⟨t, by simp, Or.inr hk, ?_⟩
    simp [opened, Option.filter, hm]
  · refine Or.inl ?_
    cases limit with
    | none => simp [opened, Option.filter, hm]
    | some n =>
        have hn : m ≤ n := hl n rfl
        have hm' : ¬n ≤ outer.length := by omega
        simp [opened, Option.filter, hm, hm']

theorem cutOff_begin (hw : Waits .mul context.factors ts) :
    CutOff m (ts ++ [t]) (begin (some m) context outer t)
      (begin limit context outer t) := by
  unfold begin
  split
  · apply CutOff.bind (.refl _)
    intro l _
    exact (cutOff_operand hl _ hw).mono (List.subset_append_left ..)
  · exact (cutOff_operand hl _ hw).mono (List.subset_append_left ..)
  · next hk => exact (cutOff_opened hl hk).mono (List.subset_append_right ..)
  · exact .refl _

theorem cutOff_proceed (ho : Encloses outer ts) :
    CutOff m ts (proceed (some m) stop value outer t)
      (proceed limit stop value outer t) := by
  unfold proceed
  split
  · exact .refl _
  · cases ho with
    | nothing => exact .refl _
    | opening outside terms factors hk =>
        apply (cutOff_operand hl _ factors).mono
        intro u hu
        simp [hu]
  · exact .refl _

theorem Spells.cutOff_step (hs : s.Spells ts) (t : Token) :
    CutOff m (ts ++ [t]) (s.step (some m) stop t) (s.step limit stop t) := by
  cases hs with
  | due outside terms factors =>
      apply (cutOff_begin hl factors).mono
      intro u hu
      simpa using Or.inr (Or.inr (by simpa using hu))
  | @after outer terms value ts us vs outside hterms hv =>
      unfold Stage.step
      dsimp only
      split
      · exact .refl _
      · refine CutOff.bind ?_ fun v _ => ?_
        · apply (cutOff_attach hl outer.length value hterms).mono
          intro u hu
          simp [hu]
        · apply (cutOff_proceed hl outside).mono
          intro u hu
          simp [hu]

theorem Spells.cutOff_finish (hs : s.Spells ts) :
    CutOff m ts (s.finish (some m) stop) (s.finish limit stop) := by
  cases hs with
  | due => exact .refl _
  | @after outer terms value ts us vs outside hterms hv =>
      refine CutOff.bind ?_ fun v _ => .refl _
      apply (cutOff_attach hl outer.length value hterms).mono
      intro u hu
      simp [hu]

/-- A stricter limit changes nothing but that it may cut off. -/
theorem Spells.cutOff_run (hs : s.Spells ts) (us : List Token) :
    CutOff m (ts ++ us) (Stage.run (some m) stop us s)
      (Stage.run limit stop us s) := by
  induction us generalizing s ts with
  | nil =>
      rw [List.append_nil]
      exact hs.cutOff_finish hl
  | cons u us ih =>
      have hstep : CutOff m (ts ++ u :: us) (s.step (some m) stop u)
          (s.step limit stop u) := (hs.cutOff_step hl u).mono (by simp)
      apply hstep.bind
      intro s' hs'
      simpa using ih (hs.step hs')

end Looser

end Stage

/-! ## How high a tree must be -/

namespace Waiting

def height : Waiting → Nat
  | none => 0
  | some (lhs, _) => lhs.height

theorem height_le_joined (waiting : Waiting) (rhs : Tree) :
    waiting.height ≤ (waiting.joined rhs).height := by
  cases waiting with
  | none => exact Nat.zero_le _
  | some pair =>
      rw [height, joined, Tree.height_binary]
      omega

theorem rhs_le_joined (waiting : Waiting) (rhs : Tree) :
    rhs.height ≤ (waiting.joined rhs).height := by
  cases waiting with
  | none => exact Nat.le_refl _
  | some pair =>
      rw [joined, Tree.height_binary]
      omega

end Waiting

def Context.height (context : Context) : Nat :=
  max context.terms.height context.factors.height

/-- The least height of a tree with what stands before the parentheses. -/
def Outer.floor : Outer → Nat
  | [] => 0
  | (_, context) :: outer =>
      max (outer.length + context.height) (Outer.floor outer)

namespace Stage

/-- The least height of a tree that can be read from a stage. -/
def floor : Stage → Nat
  | .due context outer =>
      max (outer.length + context.height) (Outer.floor outer)
  | .after terms value outer =>
      max (outer.length + max terms.height value.height) (Outer.floor outer)

variable {m stop : Nat} {limit : Option Nat} {s s' : Stage} {t : Token}
  {tree : Tree} {ts : List Token} {context : Context} {outer : Outer}
    {value : Tree}

theorem floor_operand (h : operand limit context outer value = .ok s) :
    max (outer.length + value.height) (floor (.due context outer)) ≤
      s.floor := by
  obtain rfl := eq_after_of_operand h
  have hw := context.factors.height_le_joined value
  have hv := context.factors.rhs_le_joined value
  simp only [floor, Context.height]
  omega

theorem floor_begin (h : begin limit context outer t = .ok s) :
    floor (.due context outer) ≤ s.floor := by
  rcases begin_cases h with ⟨l, -, -, hs⟩ | ⟨-, hs⟩ | ⟨-, rfl⟩
  · exact Nat.le_trans (Nat.le_max_right ..) (floor_operand hs)
  · exact Nat.le_trans (Nat.le_max_right ..) (floor_operand hs)
  · exact Nat.le_max_right ..

theorem floor_proceed (h : proceed limit stop value outer t = .ok s) :
    max (outer.length + value.height) outer.floor ≤ s.floor := by
  rcases proceed_cases h with ⟨-, rfl⟩ | ⟨opening, context, rest, -, rfl, hs⟩
  · simp only [floor, Context.height, Waiting.height]
    omega
  · have ho := floor_operand hs
    rw [Tree.height_group] at ho
    simp only [floor, Outer.floor, List.length_cons] at ho ⊢
    omega

/-- A tree is not lower than what it is joined from. -/
theorem floor_joined (terms : Waiting) (value : Tree) (outer : Outer) :
    floor (.after terms value outer) ≤
      max (outer.length + (terms.joined value).height) outer.floor := by
  have hw := terms.height_le_joined value
  have hv := terms.rhs_le_joined value
  simp only [floor]
  omega

theorem floor_step (h : s.step limit stop t = .ok s') : s.floor ≤ s'.floor := by
  cases s with
  | due context outer => exact floor_begin h
  | after terms value outer =>
      rcases step_after_cases h with ⟨-, rfl⟩ | ⟨-, hp⟩
      · exact Nat.le_refl _
      · exact Nat.le_trans (floor_joined terms value outer) (floor_proceed hp)

theorem floor_finish (h : s.finish limit stop = .ok tree) :
    s.floor ≤ tree.height := by
  cases s with
  | due => cases h
  | after terms value outer =>
      obtain ⟨rfl, rfl⟩ := finish_after_cases h
      have hj := floor_joined terms value []
      rw [List.length_nil, Nat.zero_add, Outer.floor, Nat.max_zero] at hj
      exact hj

/-- The tree is as high as any stage on the way demands. -/
theorem floor_run (h : Stage.run limit stop ts s = .ok tree) :
    s.floor ≤ tree.height := by
  induction ts generalizing s with
  | nil => exact floor_finish h
  | cons t ts ih =>
      obtain ⟨s', hstep, hrun⟩ := run_cons_cases h
      exact Nat.le_trans (floor_step hstep) (ih hrun)

/-! ## Exactly the higher trees are refused -/

/-- Joining to what waits is refused exactly if it makes the tree too high. -/
theorem attach_limited {α : Type} {terms : Waiting}
    {next : Tree → Except Fault α} {a : α} {depth height : Nat}
    (hv : depth + value.height ≤ m)
    (hle : depth + (terms.joined value).height ≤ height)
    (hnext : depth + (terms.joined value).height ≤ m →
      (next (terms.joined value) = .ok a ↔ height ≤ m)) :
    (attach (some m) depth terms value).bind next = .ok a ↔ height ≤ m := by
  rcases Nat.lt_or_ge m (depth + (terms.joined value).height) with hlt | hlow
  · cases terms with
    | none =>
        rw [Waiting.joined] at hlt
        omega
    | some pair =>
        rw [attach_high hlt]
        refine iff_of_false ?_ (by omega)
        rintro ⟨⟩
  · rw [attach_low]
    · exact hnext hlow
    · rintro n ⟨⟩
      exact hlow

theorem operand_limited (hv : outer.length + value.height ≤ m)
    (hm : floor (.due context outer) ≤ m)
    (h : operand none context outer value = .ok s) :
    operand (some m) context outer value = .ok s ↔ s.floor ≤ m := by
  have hbind : operand (some m) context outer value =
      (attach (some m) outer.length context.factors value).bind fun v =>
        .ok (.after context.terms v outer) := by
    unfold operand
    cases attach (some m) outer.length context.factors value <;> rfl
  obtain rfl := eq_after_of_operand h
  simp only [floor, Context.height] at hm ⊢
  rw [hbind]
  apply attach_limited hv (by omega)
  intro hlow
  exact iff_of_true rfl (by omega)

theorem opened_limited (hm : floor (.due context outer) ≤ m) :
    opened (some m) context outer t =
      .ok (.due .empty ((t, context) :: outer)) ↔
      floor (.due .empty ((t, context) :: outer)) ≤ m := by
  have hfloor : floor (.due .empty ((t, context) :: outer)) ≤ m ↔
      ¬m ≤ outer.length := by
    simp only [floor, Outer.floor, Context.empty, Context.height,
      Waiting.height, List.length_cons] at hm ⊢
    omega
  rw [hfloor, opened]
  by_cases hl : m ≤ outer.length
  · simp [Option.filter, hl]
  · simp [Option.filter, hl]

theorem begin_limited (hm : floor (.due context outer) ≤ m)
    (h : begin none context outer t = .ok s) :
    begin (some m) context outer t = .ok s ↔ s.floor ≤ m := by
  have ho : ∀ l, outer.length + (Tree.literal l).height ≤ m := by
    intro l
    rw [Tree.height_literal]
    simp only [floor] at hm
    omega
  rcases begin_cases h with ⟨l, hk, hl, hs⟩ | ⟨hk, hs⟩ | ⟨hk, rfl⟩
  · rw [begin_number hk hl]
    exact operand_limited (ho _) hm hs
  · rw [begin_name hk]
    exact operand_limited (ho _) hm hs
  · rw [begin_openParen hk]
    exact opened_limited hm

theorem proceed_limited (hv : outer.length + value.height ≤ m)
    (hm : outer.floor ≤ m) (h : proceed none stop value outer t = .ok s) :
    proceed (some m) stop value outer t = .ok s ↔ s.floor ≤ m := by
  rcases proceed_cases h with ⟨hk, rfl⟩ | ⟨opening, context, rest, hk, rfl, hs⟩
  · rw [proceed_add hk]
    refine iff_of_true rfl ?_
    simp only [floor, Context.height, Waiting.height]
    omega
  · rw [proceed_closeParen hk]
    refine operand_limited ?_ hm hs
    rw [Tree.height_group]
    simp only [List.length_cons] at hv
    omega

theorem step_limited (hm : s.floor ≤ m) (h : s.step none stop t = .ok s') :
    s.step (some m) stop t = .ok s' ↔ s'.floor ≤ m := by
  cases s with
  | due context outer => exact begin_limited hm h
  | after terms value outer =>
      rcases step_after_cases h with ⟨hk, rfl⟩ | ⟨hk, hp⟩
      · rw [step_mul hk]
        exact iff_of_true rfl hm
      · have hfloor := floor_proceed hp
        simp only [floor] at hm
        rw [step, if_neg hk]
        apply attach_limited (by omega) (by omega)
        intro hlow
        exact proceed_limited hlow (by omega) hp

theorem finish_limited (hm : s.floor ≤ m) (h : s.finish none stop = .ok tree) :
    s.finish (some m) stop = .ok tree ↔ tree.height ≤ m := by
  cases s with
  | due => cases h
  | after terms value outer =>
      obtain ⟨rfl, rfl⟩ := finish_after_cases h
      simp only [floor] at hm
      refine attach_limited (by omega) ?_ fun hlow => ?_
      · rw [List.length_nil, Nat.zero_add]
      · rw [List.length_nil, Nat.zero_add] at hlow
        exact iff_of_true rfl hlow

/-- A limit leaves a run alone exactly if the tree is within it. -/
theorem run_limited (hs : s.Spells ts) (hm : s.floor ≤ m) {us : List Token}
    (h : Stage.run none stop us s = .ok tree) :
    Stage.run (some m) stop us s = .ok tree ↔ tree.height ≤ m := by
  induction us generalizing s ts with
  | nil => exact finish_limited hm h
  | cons u us ih =>
      obtain ⟨s', hu, hrun⟩ := run_cons_cases h
      have hstep := step_limited hm hu
      rw [Stage.run]
      by_cases hlow : s'.floor ≤ m
      · rw [hstep.mpr hlow]
        exact ih (hs.step hu) hlow hrun
      · -- the stage is too high, and so is every tree that comes of it
        have htree : s'.floor ≤ tree.height := floor_run hrun
        refine iff_of_false ?_ (by omega)
        have hcut : CutOff m (ts ++ [u]) (s.step (some m) stop u)
            (s.step none stop u) := hs.cutOff_step (by rintro n ⟨⟩) u
        rcases hcut with heq | ⟨v, _, _, heq⟩
        · rw [heq, hu] at hstep
          exact absurd (hstep.mp rfl) hlow
        · rw [heq]
          rintro ⟨⟩

end Stage

/-! ## Reading with a limit -/

theorem Expr.exists_tree_of_parse {source : String} {limit : Option Nat}
    {e : Expr} (h : parse source limit = .ok e) :
    ∃ t, Tree.parse source limit = .ok t ∧ t.toExpr = .ok e :=
  exists_of_bind_eq_ok (eq_ok_of_mapError h)

theorem Expr.parse_of_tree {source : String} {limit : Option Nat} {t : Tree}
    {e : Expr} (h : Tree.parse source limit = .ok t) (he : t.toExpr = .ok e) :
    parse source limit = .ok e := by
  rw [parse, h, Except.bind, he]
  rfl

theorem Expr.parse_of_fault {source : String} {limit : Option Nat} {f : Fault}
    (h : Tree.parse source limit = .error f) :
    parse source limit = .error (.ofFault f) := by
  rw [parse, h]
  rfl

namespace Tree

variable {source : String} {m : Nat} {t : Tree}

/-- A stricter limit changes nothing but that it may cut off at an operator or
at an opening parenthesis. -/
theorem cutOff_parse {limit : Option Nat} (hl : ∀ n ∈ limit, m ≤ n) :
    CutOff m (Token.words (Token.scan source)) (parse source (some m))
      (parse source limit) := by
  rw [parse_eq_run, parse_eq_run, Parser.stop_ofSource, Parser.stop_ofSource]
  have hs := Stage.spells_empty .nothing
  exact hs.cutOff_run hl _

/-- Exactly the trees within the limit are read as without it. -/
theorem parse_some_eq_ok :
    parse source (some m) = .ok t ↔
      parse source none = .ok t ∧ t.height ≤ m := by
  have hiff : parse source none = .ok t →
      (parse source (some m) = .ok t ↔ t.height ≤ m) := by
    intro h
    rw [parse_eq_run, Parser.stop_ofSource] at h ⊢
    refine Stage.run_limited (Stage.spells_empty .nothing) ?_ h
    exact Nat.zero_le _
  constructor
  · intro h
    have hcut : CutOff m (Token.words (Token.scan source))
      (parse source (some m))
        (parse source none) := cutOff_parse (by rintro n ⟨⟩)
    rw [h] at hcut
    have hnone := hcut.eq_of_ok
    exact ⟨hnone, (hiff hnone).mp h⟩
  · rintro ⟨hnone, hle⟩
    exact (hiff hnone).mpr hle

/-- The limit filters by height. A tree within it is read as without it, and
for a higher one the fault lies at an operator or an opening parenthesis.
Where no tree is read the fault is the same or that of the limit, what is not
refused for the limit is the same under every higher one, and the expressions
that are read have no more nested operators than the limit says. -/
theorem parse_limited (source : String) (m : Nat) :
    (∀ t, parse source none = .ok t →
      (t.height ≤ m → parse source (some m) = .ok t) ∧
      (m < t.height → ∃ u ∈ Token.scan source,
        (u.kind = .add ∨ u.kind = .mul ∨ u.kind = .openParen) ∧
        parse source (some m) = .error (.final u.span (.nestingTooDeep m)))) ∧
    (∀ f, parse source none = .error f →
      parse source (some m) = .error f ∨ ∃ u ∈ Token.scan source,
        (u.kind = .add ∨ u.kind = .mul ∨ u.kind = .openParen) ∧
        parse source (some m) = .error (.final u.span (.nestingTooDeep m))) ∧
    (∀ n, m ≤ n →
      (∀ f, parse source (some m) = .error f → f.cause ≠ .nestingTooDeep m) →
      parse source (some n) = parse source (some m)) ∧
    ∀ e, Expr.parse source (some m) = .ok e → e.operatorDepth ≤ m := by
  have hcut : ∀ limit : Option Nat, (∀ n ∈ limit, m ≤ n) →
      parse source (some m) = parse source limit ∨ ∃ u ∈ Token.scan source,
        (u.kind = .add ∨ u.kind = .mul ∨ u.kind = .openParen) ∧
        parse source (some m) = .error (.final u.span (.nestingTooDeep m)) := by
    intro limit hl
    have hparse : CutOff m (Token.words (Token.scan source))
      (parse source (some m))
        (parse source limit) := cutOff_parse hl
    rcases hparse with heq | ⟨u, hu, hk, heq⟩
    · exact Or.inl heq
    · exact Or.inr ⟨u, (List.mem_filter.mp hu).1, or_assoc.mp hk, heq⟩
  refine ⟨?_, ?_, ?_, ?_⟩
  · intro t ht
    constructor
    · intro hle
      exact parse_some_eq_ok.mpr ⟨ht, hle⟩
    · intro hlt
      rcases hcut none (by rintro n ⟨⟩) with heq | hdeep
      · have hle := (parse_some_eq_ok.mp (heq.trans ht)).2
        omega
      · exact hdeep
  · intro f hf
    rw [← hf]
    exact hcut none (by rintro n ⟨⟩)
  · intro n hn hcause
    rcases hcut (some n) (by rintro k ⟨⟩; exact hn) with heq | ⟨u, _, _, heq⟩
    · exact heq.symm
    · exact absurd rfl (hcause _ heq)
  · intro e he
    obtain ⟨t, ht, hx⟩ := Expr.exists_tree_of_parse he
    exact Nat.le_trans (operatorDepth_le_height hx) (parse_some_eq_ok.mp ht).2

end Tree

end PolyAlgebra
