import PolyAlgebra.Proofs.Agreement

/-!
# The grammar, and how its sentences are read

A sum is a product with further products behind `+` signs, a product is a
primitive with further primitives behind `*` signs, and a primitive is a
number, a name or a sum in parentheses. Each derivation has a tree:
repetitions are folded from the left, and every pair of parentheses is a node
of its own.

One pass reads exactly the sentences of the grammar and makes the trees of
their derivations. That it reads every sentence is shown by induction on
derivations, for words that stand anywhere in a source and whatever waits for
their tree. For the converse each stage of the pass is a derivation that is
not complete yet, and each word adds to it.
-/

namespace PolyAlgebra

/-! ## Derivations -/

namespace Token

/-- The double nearest to the numeral of a number token. -/
def value (t : Token) : Float := (Decimal.ofNumeral t.lexeme.toList).toFloat

/-- The token is a number that a sentence may contain: its numeral does not end
with the point, and its value is finite. -/
structure IsNumber (t : Token) : Prop where
  kind : t.kind = .number
  fraction : t.lexeme.toList.getLast? ≠ some '.'
  finite : t.value.isFinite = true

theorem IsNumber.numberOf {t : Token} (h : t.IsNumber) :
    Parser.numberOf t = .ok ⟨t.value, t.span⟩ := by
  rw [Parser.numberOf, if_neg h.fraction]
  exact if_pos h.finite

theorem isNumber_of_numberOf {t : Token} {l : NumberLiteral}
    (hk : t.kind = .number) (h : Parser.numberOf t = .ok l) :
    t.IsNumber ∧ l = ⟨t.value, t.span⟩ := by
  simp only [Parser.numberOf] at h
  split at h
  · cases h
  · next hf =>
      split at h
      · next hv =>
          obtain rfl := Except.ok.inj h
          exact ⟨⟨hk, hf, hv⟩, rfl⟩
      · cases h

end Token

inductive Phrase where
  | sum
  | product
  | primitive

/-- A sign and the operand behind it: its words and its tree. -/
structure Further where
  sign : Token
  words : List Token
  operand : Tree

namespace Further

def tokens (f : Further) : List Token := f.sign :: f.words

/-- Makes a tree the left operand of the sign. -/
def apply (kind : OperatorKind) (lhs : Tree) (f : Further) : Tree :=
  .binary lhs ⟨kind, f.sign.span⟩ f.operand (lhs.span.through f.operand.span)

/-- What each sign with its operand keeps, a whole row of them keeps. -/
theorem row {kind : OperatorKind} {P : List Token → Tree → Prop}
    {rest : List Further} {ts : List Token} {t : Tree}
    (step : ∀ f ∈ rest, ∀ ts t, P ts t → P (ts ++ f.tokens) (apply kind t f))
    (h : P ts t) :
    P (ts ++ rest.flatMap tokens) (rest.foldl (apply kind) t) := by
  induction rest generalizing ts t with
  | nil => rwa [List.flatMap_nil, List.append_nil]
  | cons f rest ih =>
      rw [List.flatMap_cons, ← List.append_assoc]
      exact ih (fun g hg => step g (List.mem_cons_of_mem f hg))
        (step f (by simp) ts t h)

end Further

/-- The words are derived as a phrase, and the derivation has the tree. -/
inductive Derives : Phrase → List Token → Tree → Prop where
  | number {t : Token} (h : t.IsNumber) :
      Derives .primitive [t] (.literal (.number ⟨t.value, t.span⟩))
  | name {t : Token} (h : t.kind = .name) :
      Derives .primitive [t] (.literal (.symbol ⟨t.lexeme, t.span⟩))
  | group {opening closing : Token} {ts : List Token} {t : Tree}
      (hopen : opening.kind = .openParen) (inner : Derives .sum ts t)
      (hclose : closing.kind = .closeParen) :
      Derives .primitive (opening :: (ts ++ [closing]))
        (.group t (opening.span.through closing.span))
  | product {ts : List Token} {t : Tree} {rest : List Further}
      (first : Derives .primitive ts t)
      (signs : ∀ f ∈ rest, f.sign.kind = .mul)
      (operands : ∀ f ∈ rest, Derives .primitive f.words f.operand) :
      Derives .product (ts ++ rest.flatMap Further.tokens)
        (rest.foldl (Further.apply .mul) t)
  | sum {ts : List Token} {t : Tree} {rest : List Further}
      (first : Derives .product ts t)
      (signs : ∀ f ∈ rest, f.sign.kind = .add)
      (operands : ∀ f ∈ rest, Derives .product f.words f.operand) :
      Derives .sum (ts ++ rest.flatMap Further.tokens)
        (rest.foldl (Further.apply .add) t)

def IsSentence (ts : List Token) : Prop := ∃ t, Derives .sum ts t

namespace Derives

variable {ts us : List Token} {l r t : Tree}

theorem factor (h : Derives .primitive ts t) : Derives .product ts t := by
  have hp : Derives .product (ts ++ [].flatMap Further.tokens)
      ([].foldl (Further.apply .mul) t) := .product h (by simp) (by simp)
  simpa using hp

theorem term (h : Derives .product ts t) : Derives .sum ts t := by
  have hs : Derives .sum (ts ++ [].flatMap Further.tokens)
      ([].foldl (Further.apply .add) t) := .sum h (by simp) (by simp)
  simpa using hs

theorem times {sign : Token} (hl : Derives .product ts l)
    (hs : sign.kind = .mul) (hr : Derives .primitive us r) :
    Derives .product (ts ++ sign :: us)
      (.binary l ⟨.mul, sign.span⟩ r (l.span.through r.span)) := by
  cases hl with
  | @product _ _ before first signs operands =>
      have h : Derives .product _
          ((before ++ [Further.mk sign us r]).foldl (Further.apply .mul) _) :=
        product first
        (by simpa [or_imp, forall_and] using ⟨signs, hs⟩)
        (by simpa [or_imp, forall_and] using ⟨operands, hr⟩)
      simpa [List.foldl_append, Further.tokens, Further.apply] using h

theorem plus {sign : Token} (hl : Derives .sum ts l) (hs : sign.kind = .add)
    (hr : Derives .product us r) :
    Derives .sum (ts ++ sign :: us)
      (.binary l ⟨.add, sign.span⟩ r (l.span.through r.span)) := by
  cases hl with
  | @sum _ _ before first signs operands =>
      have h : Derives .sum _
          ((before ++ [Further.mk sign us r]).foldl (Further.apply .add) _) :=
            sum first
        (by simpa [or_imp, forall_and] using ⟨signs, hs⟩)
        (by simpa [or_imp, forall_and] using ⟨operands, hr⟩)
      simpa [List.foldl_append, Further.tokens, Further.apply] using h

/-- To show something of all derivations, rows of operands may be taken apart
from the right: a product is a primitive, or a product with one more primitive
behind it, and a sum is a product, or a sum with one more product behind
it. -/
@[elab_as_elim]
theorem byOperands
    {motive : (phrase : Phrase) → (ts : List Token) → (t : Tree) →
      Derives phrase ts t → Prop}
    (number : ∀ {t : Token} (h : t.IsNumber),
      motive .primitive [t] _ (.number h))
    (name : ∀ {t : Token} (h : t.kind = .name),
      motive .primitive [t] _ (.name h))
    (group : ∀ {opening closing : Token} {ts : List Token} {t : Tree}
      (hopen : opening.kind = .openParen) (inner : Derives .sum ts t)
      (hclose : closing.kind = .closeParen), motive .sum ts t inner →
      motive .primitive (opening :: (ts ++ [closing])) _
      (.group hopen inner hclose))
    (factor : ∀ {ts : List Token} {t : Tree} (h : Derives .primitive ts t),
      motive .primitive ts t h → motive .product ts t h.factor)
    (times : ∀ {ts us : List Token} {l r : Tree} {sign : Token}
      (hl : Derives .product ts l) (hs : sign.kind = .mul)
      (hr : Derives .primitive us r),
      motive .product ts l hl → motive .primitive us r hr →
      motive .product (ts ++ sign :: us) _ (hl.times hs hr))
    (term : ∀ {ts : List Token} {t : Tree} (h : Derives .product ts t),
      motive .product ts t h → motive .sum ts t h.term)
    (plus : ∀ {ts us : List Token} {l r : Tree} {sign : Token}
      (hl : Derives .sum ts l) (hs : sign.kind = .add)
      (hr : Derives .product us r),
      motive .sum ts l hl → motive .product us r hr →
      motive .sum (ts ++ sign :: us) _ (hl.plus hs hr))
    {phrase : Phrase} {ts : List Token} {t : Tree} (h : Derives phrase ts t) :
    motive phrase ts t h := by
  induction h with
  | number h => exact number h
  | name h => exact name h
  | group hopen inner hclose ih => exact group hopen inner hclose ih
  | product first signs operands first_ih operands_ih =>
      obtain ⟨_, h⟩ :=
        Further.row (P := fun ts t => ∃ h, motive .product ts t h)
        (fun f hf _ _ ⟨hl, ihl⟩ =>
          ⟨_, times hl (signs f hf) (operands f hf) ihl (operands_ih f hf)⟩)
        ⟨_, factor first first_ih⟩
      exact h
  | sum first signs operands first_ih operands_ih =>
      obtain ⟨_, h⟩ := Further.row (P := fun ts t => ∃ h, motive .sum ts t h)
        (fun f hf _ _ ⟨hl, ihl⟩ =>
          ⟨_, plus hl (signs f hf) (operands f hf) ihl (operands_ih f hf)⟩)
        ⟨_, term first first_ih⟩
      exact h

end Derives

namespace Stage

variable {limit : Option Nat} {stop : Nat}

/-! ## Every sentence is read -/

/-- A row of terms behind a product is read into a sum. -/
theorem run_terms {rest : List Further} {following : List Token}
    (signs : ∀ f ∈ rest, f.sign.kind = .add)
    (operands : ∀ f ∈ rest, ∀ (terms : Waiting) (outer : Outer)
      (following : List Token),
      run none stop (f.words ++ following) (.due ⟨terms, none⟩ outer) =
        run none stop following (.after terms f.operand outer))
    (hmul : ∀ t ∈ following.head?, t.kind ≠ .mul) (terms : Waiting)
    (value : Tree) (outer : Outer) :
    run none stop (rest.flatMap Further.tokens ++ following)
        (.after terms value outer) =
      runSum none stop (rest.foldl (Further.apply .add) (terms.joined value))
        outer following := by
  induction rest generalizing terms value with
  | nil =>
      rw [List.flatMap_nil, List.nil_append, run_after hmul, attach_none]
      rfl
  | cons f rest ih =>
      have hk : f.sign.kind = .add := signs f (by simp)
      -- the sum before a `+` is made when the sign is taken
      rw [List.flatMap_cons, Further.tokens, List.append_assoc,
        List.cons_append, run_after (by simp [hk]), attach_none, Except.bind,
        runSum, proceed_add hk, Except.bind, operands f (by simp)]
      exact ih (fun g hg => signs g (by simp [hg]))
        (fun g hg => operands g (by simp [hg])) _ _

theorem run_factors {rest : List Further}
    (signs : ∀ f ∈ rest, f.sign.kind = .mul)
    (operands : ∀ f ∈ rest, ∀ (context : Context) (outer : Outer)
      (following : List Token),
      run none stop (f.words ++ following) (.due context outer) =
        run none stop following
          (.after context.terms (context.factors.joined f.operand) outer))
    (following : List Token) (terms : Waiting) (value : Tree) (outer : Outer) :
    run none stop (rest.flatMap Further.tokens ++ following)
        (.after terms value outer) =
      run none stop following
        (.after terms (rest.foldl (Further.apply .mul) value) outer) := by
  induction rest generalizing value with
  | nil => rfl
  | cons f rest ih =>
      have hk : f.sign.kind = .mul := signs f (by simp)
      rw [List.flatMap_cons, Further.tokens, List.append_assoc,
        List.cons_append, run, step_mul hk, Except.bind, operands f (by simp)]
      exact ih (fun g hg => signs g (by simp [hg]))
        (fun g hg => operands g (by simp [hg])) _

/-- What reading a phrase comes to, wherever it stands. -/
def Reads (stop : Nat) (words : List Token) (t : Tree) : Phrase → Prop
  | .primitive =>
      ∀ (context : Context) (outer : Outer) (following : List Token),
        run none stop (words ++ following) (.due context outer) =
        run none stop following
          (.after context.terms (context.factors.joined t) outer)
  | .product => ∀ (terms : Waiting) (outer : Outer) (following : List Token),
      run none stop (words ++ following) (.due ⟨terms, none⟩ outer) =
        run none stop following (.after terms t outer)
  | .sum => ∀ (outer : Outer) (following : List Token),
      (∀ t ∈ following.head?, t.kind ≠ .mul) →
      run none stop (words ++ following) (.due .empty outer) =
        runSum none stop t outer following

theorem reads_of_derives {phrase : Phrase} {words : List Token} {t : Tree}
    (h : Derives phrase words t) : Reads stop words t phrase := by
  induction h with
  | number h =>
      intro context outer following
      rw [List.singleton_append, run, step, begin_number h.kind h.numberOf,
        operand, attach_none]
      rfl
  | name h =>
      intro context outer following
      rw [List.singleton_append, run, step, begin_name h, operand, attach_none]
      rfl
  | @group opening closing ts t hopen inner hclose ih =>
      intro context outer following
      rw [List.cons_append, List.append_assoc, List.singleton_append, run, step,
        begin_openParen hopen]
      show run none stop (ts ++ closing :: following)
        (.due .empty ((opening, context) :: outer)) = _
      rw [ih _ _ (by simp [hclose]), runSum, proceed_closeParen hclose, operand,
        attach_none]
      rfl
  | product first signs operands first_ih operands_ih =>
      intro terms outer following
      rw [List.append_assoc, first_ih ⟨terms, none⟩ outer]
      exact run_factors signs operands_ih following terms _ outer
  | sum first signs operands first_ih operands_ih =>
      intro outer following hmul
      rw [List.append_assoc]
      refine (first_ih none outer _).trans ?_
      exact run_terms signs operands_ih hmul none _ outer

theorem run_of_derives {words : List Token} {t : Tree}
    (h : Derives .sum words t) : run none stop words start = .ok t := by
  have hr : run none stop (words ++ []) start = .ok t :=
    reads_of_derives h [] [] (by simp)
  rwa [List.append_nil] at hr

end Stage

/-! ## Only sentences are read -/

namespace OperatorKind

/-- The phrase that an operation makes and takes as its left operand. -/
def phrase : OperatorKind → Phrase
  | add => .sum
  | mul => .product

def tokenKind : OperatorKind → TokenKind
  | add => .add
  | mul => .mul

end OperatorKind

/-- The words from which something that waits was made. -/
inductive Waits (kind : OperatorKind) : Waiting → List Token → Prop where
  | nothing : Waits kind none []
  | operand {ts : List Token} {lhs : Tree} {sign : Token}
      (lhs_derives : Derives kind.phrase ts lhs)
      (sign_kind : sign.kind = kind.tokenKind) :
      Waits kind (some (lhs, ⟨kind, sign.span⟩)) (ts ++ [sign])

theorem Waits.factors {waiting : Waiting} {ts us : List Token} {v : Tree}
    (h : Waits .mul waiting ts) (hv : Derives .primitive us v) :
    Derives .product (ts ++ us) (waiting.joined v) := by
  cases h with
  | nothing => exact hv.factor
  | operand hl hs => simpa [Waiting.joined] using hl.times hs hv

theorem Waits.terms {waiting : Waiting} {ts us : List Token} {v : Tree}
    (h : Waits .add waiting ts) (hv : Derives .product us v) :
    Derives .sum (ts ++ us) (waiting.joined v) := by
  cases h with
  | nothing => exact hv.term
  | operand hl hs => simpa [Waiting.joined] using hl.plus hs hv

/-- The words from the beginning of the source to the innermost parenthesis
that is open. -/
inductive Encloses : Outer → List Token → Prop where
  | nothing : Encloses [] []
  | opening {outer : Outer} {context : Context} {opening : Token}
      {ts us vs : List Token} (outside : Encloses outer ts)
      (terms : Waits .add context.terms us)
      (factors : Waits .mul context.factors vs)
      (kind : opening.kind = .openParen) :
      Encloses ((opening, context) :: outer) (ts ++ us ++ vs ++ [opening])

/-- The words from which a stage was made. -/
inductive Stage.Spells : Stage → List Token → Prop where
  | due {outer : Outer} {context : Context} {ts us vs : List Token}
      (outside : Encloses outer ts) (terms : Waits .add context.terms us)
      (factors : Waits .mul context.factors vs) :
      Spells (.due context outer) (ts ++ us ++ vs)
  | after {outer : Outer} {terms : Waiting} {value : Tree}
      {ts us vs : List Token} (outside : Encloses outer ts)
      (terms_waits : Waits .add terms us)
      (value_derives : Derives .product vs value) :
      Spells (.after terms value outer) (ts ++ us ++ vs)

namespace Stage

/-- A stage behind a parenthesis, or the first of all. -/
theorem spells_empty {outer : Outer} {ts : List Token}
    (outside : Encloses outer ts) :
    Spells (.due .empty outer) ts := by
  have h : Spells (.due .empty outer) (ts ++ [] ++ []) :=
    .due outside .nothing .nothing
  rwa [List.append_nil, List.append_nil] at h

theorem spells_plus {outer : Outer} {value : Tree} {sign : Token}
    {ts us : List Token} (outside : Encloses outer ts)
    (hv : Derives .sum us value) (hs : sign.kind = .add) :
    Spells (.due ⟨some (value, ⟨.add, sign.span⟩), none⟩ outer)
      (ts ++ us ++ [sign]) := by
  have hw : Waits .add (some (value, ⟨.add, sign.span⟩)) (us ++ [sign]) :=
    .operand hv hs
  have h : Spells (.due ⟨some (value, ⟨.add, sign.span⟩), none⟩ outer)
      (ts ++ (us ++ [sign]) ++ []) := .due outside hw .nothing
  rwa [List.append_nil, ← List.append_assoc] at h

theorem spells_times {outer : Outer} {terms : Waiting} {value : Tree}
    {sign : Token} {ts us vs : List Token} (outside : Encloses outer ts)
    (hterms : Waits .add terms us) (hv : Derives .product vs value)
    (hs : sign.kind = .mul) :
    Spells (.due ⟨terms, some (value, ⟨.mul, sign.span⟩)⟩ outer)
      (ts ++ us ++ vs ++ [sign]) := by
  have hw : Waits .mul (some (value, ⟨.mul, sign.span⟩)) (vs ++ [sign]) :=
    .operand hv hs
  have h : Spells (.due ⟨terms, some (value, ⟨.mul, sign.span⟩)⟩ outer)
      (ts ++ us ++ (vs ++ [sign])) := .due outside hterms hw
  rwa [← List.append_assoc] at h

theorem spells_operand {context : Context} {outer : Outer} {value : Tree}
    {s : Stage} {ts us vs ws : List Token} (outside : Encloses outer ts)
    (terms : Waits .add context.terms us)
    (factors : Waits .mul context.factors vs)
    (hv : Derives .primitive ws value)
    (h : operand limit context outer value = .ok s) :
    s.Spells (ts ++ us ++ vs ++ ws) := by
  rw [eq_after_of_operand h, List.append_assoc]
  exact .after outside terms (factors.factors hv)

theorem spells_begin {context : Context} {outer : Outer} {t : Token} {s : Stage}
    {ts us vs : List Token} (outside : Encloses outer ts)
    (terms : Waits .add context.terms us)
    (factors : Waits .mul context.factors vs)
    (h : begin limit context outer t = .ok s) :
    s.Spells (ts ++ us ++ vs ++ [t]) := by
  rcases begin_cases h with ⟨l, hk, hl, hs⟩ | ⟨hk, hs⟩ | ⟨hk, rfl⟩
  · obtain ⟨hn, rfl⟩ := Token.isNumber_of_numberOf hk hl
    exact spells_operand outside terms factors (.number hn) hs
  · exact spells_operand outside terms factors (.name hk) hs
  · exact spells_empty (.opening outside terms factors hk)

theorem spells_proceed {outer : Outer} {value : Tree} {t : Token} {s : Stage}
    {ts us : List Token} (outside : Encloses outer ts)
    (hv : Derives .sum us value)
    (h : proceed limit stop value outer t = .ok s) :
    s.Spells (ts ++ us ++ [t]) := by
  rcases proceed_cases h with ⟨hk, rfl⟩ | ⟨opening, context, rest, hk, rfl, hs⟩
  · exact spells_plus outside hv hk
  · cases outside with
    | opening outside terms factors hopen =>
        have hgroup :=
          spells_operand outside terms factors (.group hopen hv hk) hs
        simpa using hgroup

/-- Each word that is taken adds to the derivation. -/
theorem Spells.step {s s' : Stage} {t : Token} {ts : List Token}
    (hs : s.Spells ts) (h : s.step limit stop t = .ok s') :
    s'.Spells (ts ++ [t]) := by
  cases hs with
  | due outside terms factors => exact spells_begin outside terms factors h
  | after outside hterms hv =>
      rcases step_after_cases h with ⟨hk, rfl⟩ | ⟨-, hp⟩
      · exact spells_times outside hterms hv hk
      · simpa using spells_proceed outside (hterms.terms hv) hp

/-- What has been read at the end of a source is a sentence. -/
theorem Spells.finish {s : Stage} {t : Tree} {ts : List Token}
    (hs : s.Spells ts) (h : s.finish limit stop = .ok t) :
    Derives .sum ts t := by
  cases hs with
  | due => cases h
  | after outside hterms hv =>
      obtain ⟨rfl, rfl⟩ := finish_after_cases h
      cases outside with
      | nothing => exact hterms.terms hv

theorem Spells.run {s : Stage} {t : Tree} {ts us : List Token}
    (hs : s.Spells ts) (h : Stage.run limit stop us s = .ok t) :
    Derives .sum (ts ++ us) t := by
  induction us generalizing s ts with
  | nil =>
      rw [List.append_nil]
      exact hs.finish h
  | cons u us ih =>
      obtain ⟨s', hstep, hrun⟩ := run_cons_cases h
      have hd := ih (hs.step hstep) hrun
      simpa using hd

theorem derives_of_run {words : List Token} {t : Tree}
    (h : run limit stop words start = .ok t) : Derives .sum words t :=
  by simpa using (spells_empty .nothing).run h

end Stage

/-! ## Reading and deriving -/

/-- A source is read as a tree exactly if its words are derived as a sum with
that tree. -/
theorem Tree.parse_eq_ok {source : String} {t : Tree} :
    Tree.parse source none = .ok t ↔
      Derives .sum (Token.words (Token.scan source)) t := by
  rw [Tree.parse_eq_run]
  exact ⟨Stage.derives_of_run, Stage.run_of_derives⟩

theorem Derives.unique {words : List Token} {t u : Tree}
    (ht : Derives .sum words t) (hu : Derives .sum words u) : t = u := by
  have h : Stage.run none 0 words .start = .ok t := Stage.run_of_derives ht
  rw [Stage.run_of_derives hu] at h
  exact (Except.ok.inj h).symm

end PolyAlgebra
