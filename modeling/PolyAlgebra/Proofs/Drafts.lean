import Mathlib
import PolyAlgebra.Form
import PolyAlgebra.Proofs.Leaves

/-!
# Drafts

A form that has the shape of an expression spells a draft: a tree like an
expression, but with any value and any name in its leaves. Whether the draft
becomes an expression depends on its leaves alone, and if it does not, the
first leaf that is not valid is the reason.

The same is said once for all readers. A reader meets the leaves in some
order; readers that run one after the other meet the leaves of the first
before those of the second. The parts of a form are handed on together with
the fact that they are smaller, and which forms the parts are is said here
first: the items of a list, the fields of a record, and the values of fields
that are looked up by name.
-/

namespace PolyAlgebra

namespace Form

/-! ## Lists and records -/

theorem exists_items (items : List Form) : ∃ parts : List (list items).Part,
    (list items).items? = .ok parts ∧ parts.map Subtype.val = items := by
  refine ⟨_, rfl, ?_⟩
  rw [List.map_map]
  exact List.attach_map_subtype_val items

theorem exists_fields (fields : List (String × Form)) :
    ∃ parts : List (String × (record fields).Part),
      (record fields).fields? = .ok parts ∧
      parts.map (fun p => (p.1, p.2.1)) = fields := by
  refine ⟨_, rfl, ?_⟩
  rw [List.map_map]
  exact List.attach_map_subtype_val fields

variable {f : Form}

theorem eq_list_of_items {parts : List f.Part} (h : f.items? = .ok parts) :
    f = list (parts.map Subtype.val) := by
  cases f with
  | list items =>
      obtain ⟨parts', hparts, hitems⟩ := exists_items items
      obtain rfl := Except.ok.inj (h.symm.trans hparts)
      rw [hitems]
  | _ => cases h

theorem eq_record_of_fields {parts : List (String × f.Part)}
    (h : f.fields? = .ok parts) :
    f = record (parts.map fun p => (p.1, p.2.1)) := by
  cases f with
  | record fields =>
      obtain ⟨parts', hparts, hfields⟩ := exists_fields fields
      obtain rfl := Except.ok.inj (h.symm.trans hparts)
      rw [hfields]
  | _ => cases h

theorem eq_record_of_variant {tag : String} {g : f.Part}
    (h : f.variant? = .ok (tag, g)) :
    f = record [(tag, g.1)] := by
  unfold variant? at h
  split at h
  · cases h
    rfl
  · cases h

/-! ## The only field -/

/-- What is given for the only field of a record, by name or in order. -/
inductive GivenFor (name : String) : Form → List Form → Prop where
  | inOrder (items : List Form) : GivenFor name (list items) items
  | byName (fields : List (String × Form)) :
      GivenFor name (record fields)
        ((fields.filter fun g => g.1 == name).map Prod.snd)

theorem GivenFor.exists_values {name : String} {gs : List Form}
    (h : f.GivenFor name gs) :
    ∃ parts, f.values? name = .ok parts ∧ parts.map Subtype.val = gs := by
  cases h with
  | inOrder items => exact exists_items gs
  | byName fields =>
      obtain ⟨parts, hparts, hfields⟩ := exists_fields fields
      refine ⟨(parts.filter fun g => g.1 == name).map Prod.snd, ?_, ?_⟩
      · have hvalues : (record fields).values? name =
          (record fields).fields?.map fun parts =>
            (parts.filter fun g => g.1 == name).map Prod.snd := rfl
        rw [hvalues, hparts]
        rfl
      · have hgiven :=
          congrArg (fun gs => (gs.filter fun g => g.1 == name).map Prod.snd)
            hfields
        rw [List.filter_map, List.map_map] at hgiven
        rw [← hgiven, List.map_map]
        rfl

theorem givenFor_of_values {name : String} {parts : List f.Part}
    (h : f.values? name = .ok parts) :
    f.GivenFor name (parts.map Subtype.val) := by
  have hgiven : ∃ gs, f.GivenFor name gs := by
    cases f with
    | list items => exact ⟨_, .inOrder items⟩
    | record fields => exact ⟨_, .byName fields⟩
    | _ => cases h
  obtain ⟨gs, hgs⟩ := hgiven
  obtain ⟨parts', hparts, rfl⟩ := hgs.exists_values
  obtain rfl := Except.ok.inj (h.symm.trans hparts)
  exact hgs

end Form

/-! ## Leaves as they are given -/

inductive Leaf where
  | value (x : Float)
  | name (s : String)
  deriving DecidableEq

namespace Leaf

/-- A value has to be finite and not below zero, a name to be a word. -/
def Valid : Leaf → Prop
  | value x => x.isFinite = true ∧ 0 ≤ x
  | name s => IsWord s

instance : DecidablePred Valid
  | value x => inferInstanceAs (Decidable (x.isFinite = true ∧ 0 ≤ x))
  | name s =>
      inferInstanceAs
        (Decidable (s.toList ≠ [] ∧ ∀ c ∈ s.toList, c.isAlpha = true))

def reason : Leaf → InvalidLeaf
  | value x => .value x
  | name s => .name s

def firstInvalid? (leaves : List Leaf) : Option Leaf :=
  leaves.find? fun l => ¬l.Valid

theorem firstInvalid?_eq_none {leaves : List Leaf} :
    firstInvalid? leaves = none ↔ ∀ l ∈ leaves, l.Valid := by
  simp [firstInvalid?]

end Leaf

def Binary64.unsignZero (x : Float) : Float :=
  if x.toBits = negativeZeroBits then 0 else x

/-! ## Readers -/

/-- The leaves are met in this order. If all of them are valid there is a good
result, and otherwise the first one that is not valid is the reason why there
is none. -/
def Meets {α : Type} (leaves : List Leaf) (good : α → Prop)
    (r : Except FormError α) : Prop :=
  match Leaf.firstInvalid? leaves with
  | none => ∃ a, r = .ok a ∧ good a
  | some l => r = .error (.leaf l.reason)

namespace Meets

variable {α β : Type} {ls ls' : List Leaf} {l : Leaf} {good : α → Prop}
  {good' : β → Prop} {r : Except FormError α} {a : α}

theorem exists_of_valid (h : Meets ls good r) (hls : ∀ l ∈ ls, l.Valid) :
    ∃ a, r = .ok a ∧ good a := by
  rw [Meets, Leaf.firstInvalid?_eq_none.mpr hls] at h
  exact h

theorem eq_error (h : Meets ls good r) (hl : Leaf.firstInvalid? ls = some l) :
    r = .error (.leaf l.reason) := by
  rw [Meets, hl] at h
  exact h

theorem valid_of_ok (h : Meets ls good r) (hr : r = .ok a) :
    (∀ l ∈ ls, l.Valid) ∧ good a := by
  cases hls : Leaf.firstInvalid? ls with
  | none =>
      have hvalid := Leaf.firstInvalid?_eq_none.mp hls
      obtain ⟨b, hb, hgood⟩ := h.exists_of_valid hvalid
      obtain rfl := Except.ok.inj (hr.symm.trans hb)
      exact ⟨hvalid, hgood⟩
  | some l =>
      rw [h.eq_error hls] at hr
      cases hr

theorem pure (ha : good a) : Meets [] good (.ok a) := ⟨a, rfl, ha⟩

theorem bind {f : α → Except FormError β} (h : Meets ls good r)
    (hf : ∀ a, good a → Meets ls' good' (f a)) :
    Meets (ls ++ ls') good' (r.bind f) := by
  have happend : Leaf.firstInvalid? (ls ++ ls') =
      (Leaf.firstInvalid? ls).or (Leaf.firstInvalid? ls') := List.find?_append
  rw [Meets, happend]
  cases hls : Leaf.firstInvalid? ls with
  | none =>
      obtain ⟨a, rfl, ha⟩ :=
        h.exists_of_valid (Leaf.firstInvalid?_eq_none.mp hls)
      exact hf a ha
  | some l =>
      rw [h.eq_error hls]
      rfl

theorem map {f : α → β} (h : Meets ls good r) (hf : ∀ a, good a → good' (f a)) :
    Meets ls good' (r.map f) := by
  have hbind : Meets (ls ++ []) good' (r.bind fun a => .ok (f a)) :=
    h.bind fun a ha => .pure (hf a ha)
  rw [List.append_nil] at hbind
  exact hbind

theorem check {s : Except InvalidLeaf α}
    (hvalid : l.Valid → ∃ a, s = .ok a ∧ good a)
    (hinvalid : ¬l.Valid → s = .error l.reason) :
    Meets [l] good (s.mapError .leaf) := by
  by_cases h : l.Valid
  · obtain ⟨a, rfl, ha⟩ := hvalid h
    rw [Meets, Leaf.firstInvalid?_eq_none.mpr (by simpa using h)]
    exact ⟨a, rfl, ha⟩
  · rw [hinvalid h, Meets, Leaf.firstInvalid?,
      List.find?_cons_of_pos (by simpa using h)]
    rfl

end Meets

/-! ## Doubles and texts -/

/-- The form is that of a double, or of an integer to which the double is
nearest. -/
inductive Form.IsDouble : Form → Float → Prop where
  | float (x : Float) : IsDouble (.float x) x
  | natural (n : Nat) : IsDouble (.int (.ofNat n)) (Binary64.nearest n 1)
  | negative (n : Nat) :
      IsDouble (.int (.negSucc n)) (-Binary64.nearest (n + 1) 1)

theorem Form.toFloat_eq_ok {f : Form} {x : Float} :
    f.toFloat = .ok x ↔ f.IsDouble x := by
  have hnegative (n : Nat) :
      toFloat (.int (.negSucc n)) = .ok (-Binary64.nearest (n + 1) 1) :=
    congrArg Except.ok (if_pos (Int.negSucc_lt_zero n))
  constructor
  · intro h
    cases f with
    | float y =>
        obtain rfl := Except.ok.inj h
        exact .float y
    | int i =>
        cases i with
        | ofNat n =>
            obtain rfl := Except.ok.inj h
            exact .natural n
        | negSucc n =>
            obtain rfl := Except.ok.inj (h.symm.trans (hnegative n))
            exact .negative n
    | _ => cases h
  · intro h
    cases h with
    | float x => rfl
    | natural n => rfl
    | negative n => exact hnegative n

theorem Form.eq_text_of_toText {f : Form} {s : String} (h : f.toText = .ok s) :
    f = .text s := by
  cases f with
  | text t =>
      obtain rfl := Except.ok.inj h
      rfl
  | _ => cases h

theorem Number.meets_ofForm {f : Form} {x : Float} (h : f.IsDouble x) :
    Meets [.value x] (fun n => n.value = Binary64.unsignZero x) (ofForm f) := by
  have hread : ofForm f = (ofFloat x).mapError .leaf := by
    rw [ofForm, Form.toFloat_eq_ok.mpr h]
    rfl
  rw [hread]
  exact .check ofFloat_of_valid ofFloat_of_invalid

theorem Number.exists_of_ofForm {f : Form} {n : Number} (h : ofForm f = .ok n) :
    ∃ x, f.IsDouble x := by
  obtain ⟨x, hx, -⟩ := exists_of_bind_eq_ok h
  exact ⟨x, Form.toFloat_eq_ok.mp hx⟩

theorem Variable.meets_ofName (s : String) :
    Meets [.name s] (fun v => v.name = s) ((ofName s).mapError .leaf) := by
  refine .check (fun h => ?_) fun h => ?_
  · exact ⟨⟨s, isValidName_iff.mpr h⟩, dif_pos (isValidName_iff.mpr h), rfl⟩
  · exact dif_neg fun hs => h (isValidName_iff.mp hs)

/-! ## Drafts of expressions -/

/-- An expression whose leaves are not checked yet. -/
inductive Draft where
  | leaf (l : Leaf)
  | sum (left right : Draft)
  | prod (left right : Draft)

def Draft.leaves : Draft → List Leaf
  | leaf l => [l]
  | sum l r | prod l r => l.leaves ++ r.leaves

/-- The expression has the shape of the draft and the same leaves, but for the
sign at zero. -/
inductive Draft.StandsFor : Draft → Expr → Prop where
  | value {x : Float} {n : Number} (h : n.value = Binary64.unsignZero x) :
      StandsFor (.leaf (.value x)) (.num n)
  | name {s : String} {v : Variable} (h : v.name = s) :
      StandsFor (.leaf (.name s)) (.var v)
  | sum {l r : Draft} {left right : Expr} (hl : l.StandsFor left)
      (hr : r.StandsFor right) :
      StandsFor (.sum l r) (.sum left right)
  | prod {l r : Draft} {left right : Expr} (hl : l.StandsFor left)
      (hr : r.StandsFor right) :
      StandsFor (.prod l r) (.prod left right)

theorem Draft.StandsFor.unique {d : Draft} {e e' : Expr} (h : d.StandsFor e)
    (h' : d.StandsFor e') : e = e' := by
  induction h generalizing e' with
  | value h =>
      cases h' with
      | value h' => rw [Number.eq_of_value (h.trans h'.symm)]
  | name h =>
      cases h' with
      | name h' => rw [Variable.eq_of_name (h.trans h'.symm)]
  | sum hl hr ihl ihr =>
      cases h' with
      | sum hl' hr' => rw [ihl hl', ihr hr']
  | prod hl hr ihl ihr =>
      cases h' with
      | prod hl' hr' => rw [ihl hl', ihr hr']

/-- The form has the shape of an expression, and the draft is what it
spells. -/
inductive Form.Spells : Form → Draft → Prop where
  | value {f : Form} {x : Float} (h : f.IsDouble x) :
      Spells (.record [("Number", f)]) (.leaf (.value x))
  | name (s : String) :
      Spells (.record [("Variable", .text s)]) (.leaf (.name s))
  | sum {f g : Form} {l r : Draft} (hl : f.Spells l) (hr : g.Spells r) :
      Spells (.record [("Sum", .list [f, g])]) (.sum l r)
  | prod {f g : Form} {l r : Draft} (hl : f.Spells l) (hr : g.Spells r) :
      Spells (.record [("Product", .list [f, g])]) (.prod l r)

namespace Expr

variable {f g : Form} {d : Draft} {e l r : Expr}

/-! ### What is read in each shape -/

theorem ofForm_number (f : Form) :
    ofForm (.record [("Number", f)]) = (Number.ofForm f).map num := by
  rw [ofForm]
  rfl

theorem ofForm_variable (f : Form) :
    ofForm (.record [("Variable", f)]) = (Variable.ofForm f).map var := by
  rw [ofForm]
  rfl

theorem operandsOfForm_pair (f g : Form) :
    operandsOfForm (.list [f, g]) = (ofForm f).bind fun l =>
      (ofForm g).map fun r => (l, r) := by
  rw [operandsOfForm]
  cases hf : ofForm f with
  | error reason => simp [Form.items?, hf, Except.bind]
  | ok l =>
      cases hg : ofForm g <;> simp [Form.items?, hf, hg, Except.bind,
        Except.map]

theorem ofForm_operation (f : Form) :
    ofForm (.record [("Sum", f)]) =
      (operandsOfForm f).map (fun (l, r) => sum l r) ∧
      ofForm (.record [("Product", f)]) =
        (operandsOfForm f).map fun (l, r) => prod l r := by
  constructor <;> rw [ofForm] <;> rfl

theorem meets_pair {ls ls' : List Leaf} {goodLeft goodRight : Expr → Prop}
    (hf : Meets ls goodLeft (ofForm f)) (hg : Meets ls' goodRight (ofForm g)) :
    Meets (ls ++ ls') (fun p => goodLeft p.1 ∧ goodRight p.2)
      (operandsOfForm (.list [f, g])) := by
  rw [operandsOfForm_pair]
  refine hf.bind fun l hl => ?_
  exact hg.map fun r hr => ⟨hl, hr⟩

/-- The leaves of a draft are met in reading order, and the expression that is
read is the one that the draft stands for. -/
theorem meets_ofForm (h : f.Spells d) :
    Meets d.leaves d.StandsFor (ofForm f) := by
  induction h with
  | value h =>
      rw [ofForm_number]
      exact (Number.meets_ofForm h).map fun n hn => .value hn
  | name s =>
      rw [ofForm_variable]
      exact (Variable.meets_ofName s).map fun v hv => .name hv
  | sum hl hr ihl ihr =>
      rw [(ofForm_operation _).1]
      exact (meets_pair ihl ihr).map fun p hp => .sum hp.1 hp.2
  | prod hl hr ihl ihr =>
      rw [(ofForm_operation _).2]
      exact (meets_pair ihl ihr).map fun p hp => .prod hp.1 hp.2

/-! ### Nothing else is read -/

theorem exists_pair_of_operandsOfForm (h : operandsOfForm f = .ok (l, r)) :
    ∃ f₁ f₂ : Form, f = .list [f₁, f₂] ∧ ofForm f₁ = .ok l ∧
      ofForm f₂ = .ok r := by
  rw [operandsOfForm] at h
  split at h
  · next f₁ _ rest hitems =>
      split at h
      · cases h
      · next left hleft =>
          split at h
          · cases h
          · next f₂ _ rest' =>
              split at h
              · cases h
              · next right hright =>
                  split at h
                  · next hrest =>
                      obtain rfl := List.isEmpty_iff.mp hrest
                      obtain ⟨rfl, rfl⟩ := Prod.mk.inj (Except.ok.inj h)
                      exact ⟨f₁, f₂, Form.eq_list_of_items hitems,
                        hleft, hright⟩
                  · cases h
  · cases h
  · cases h

theorem exists_draft (f : Form) {e : Expr} (h : ofForm f = .ok e) :
    ∃ d, f.Spells d := by
  induction hn : sizeOf f using Nat.strongRecOn generalizing f e with
  | ind n ih =>
      subst hn
      -- operands are read from what is smaller
      have operands : ∀ g : f.Part, ∀ l r, operandsOfForm g = .ok (l, r) →
          ∃ f₁ f₂ d₁ d₂, g.1 = .list [f₁, f₂] ∧ f₁.Spells d₁ ∧
            f₂.Spells d₂ := by
        intro g l r hg
        obtain ⟨f₁, f₂, hlist, hl, hr⟩ := exists_pair_of_operandsOfForm hg
        have hlt := g.2
        rw [hlist] at hlt
        simp only [Form.list.sizeOf_spec, List.cons.sizeOf_spec,
          List.nil.sizeOf_spec] at hlt
        obtain ⟨d₁, h₁⟩ := ih _ (by omega) f₁ hl rfl
        obtain ⟨d₂, h₂⟩ := ih _ (by omega) f₂ hr rfl
        exact ⟨f₁, f₂, d₁, d₂, hlist, h₁, h₂⟩
      rw [ofForm] at h
      split at h
      · next g hvariant =>
          obtain ⟨n, hn, -⟩ := exists_of_map_eq_ok h
          obtain ⟨x, hx⟩ := Number.exists_of_ofForm hn
          rw [Form.eq_record_of_variant hvariant]
          exact ⟨_, .value hx⟩
      · next g hvariant =>
          obtain ⟨v, hv, -⟩ := exists_of_map_eq_ok h
          obtain ⟨s, hs, -⟩ := exists_of_bind_eq_ok hv
          rw [Form.eq_record_of_variant hvariant, Form.eq_text_of_toText hs]
          exact ⟨_, .name s⟩
      · next g hg hvariant =>
          obtain ⟨⟨l, r⟩, hlr, -⟩ := exists_of_map_eq_ok h
          obtain ⟨f₁, f₂, d₁, d₂, hlist, h₁, h₂⟩ := operands ⟨g, hg⟩ l r hlr
          rw [Form.eq_record_of_variant hvariant, hlist]
          exact ⟨_, .sum h₁ h₂⟩
      · next g hg hvariant =>
          obtain ⟨⟨l, r⟩, hlr, -⟩ := exists_of_map_eq_ok h
          obtain ⟨f₁, f₂, d₁, d₂, hlist, h₁, h₂⟩ := operands ⟨g, hg⟩ l r hlr
          rw [Form.eq_record_of_variant hvariant, hlist]
          exact ⟨_, .prod h₁ h₂⟩
      · cases h
      · cases h

/-- An expression is read exactly from what spells a draft with valid leaves
that stands for it. -/
theorem ofForm_eq_ok :
    ofForm f = .ok e ↔
      ∃ d, f.Spells d ∧ (∀ l ∈ d.leaves, l.Valid) ∧ d.StandsFor e := by
  constructor
  · intro h
    obtain ⟨d, hd⟩ := exists_draft f h
    exact ⟨d, hd, (meets_ofForm hd).valid_of_ok h⟩
  · rintro ⟨d, hd, hvalid, he⟩
    obtain ⟨e', he', hstands⟩ := (meets_ofForm hd).exists_of_valid hvalid
    rw [he', hstands.unique he]

end Expr

end PolyAlgebra
