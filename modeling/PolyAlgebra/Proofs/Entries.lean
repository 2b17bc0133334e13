import Mathlib
import PolyAlgebra.Proofs.Drafts
import PolyAlgebra.Proofs.Staging

/-!
# Entries

An environment is read from the entries of a record, each of which has a name
and a number. All entries are checked in their order, the name before the
number, and where a name is entered twice the later number counts. Two
environments in which the same is found are the same, so it does not matter in
which order the bindings of an environment are entered.
-/

namespace PolyAlgebra

/-! ## Environments by what is found in them -/

namespace Bindings

variable {b : Bindings} {v : Variable} {n : Number}

theorem find_eq_some (h : (b.map Prod.fst).Nodup) :
    find b v = some n ↔ (v, n) ∈ b := by
  induction b with
  | nil => simp [find]
  | cons p rest ih =>
      obtain ⟨w, m⟩ := p
      obtain ⟨hw, hrest⟩ := List.nodup_cons.mp h
      rw [find_cons, List.mem_cons, Prod.mk.injEq]
      by_cases hwv : w = v
      · subst hwv
        have hnot : (w, n) ∉ rest :=
          fun hn => hw (List.mem_map.mpr ⟨(w, n), hn, rfl⟩)
        rw [if_pos rfl, Option.some.injEq]
        exact ⟨fun hm => Or.inl ⟨rfl, hm.symm⟩, fun h =>
          (h.resolve_right hnot).2.symm⟩
      · rw [if_neg hwv, ih hrest]
        exact ⟨Or.inr, fun h => h.resolve_left fun hv => hwv hv.1.symm⟩

theorem InOrder.nodup (h : b.InOrder) : (b.map Prod.fst).Nodup := by
  rw [List.Nodup, List.pairwise_map]
  refine h.imp ?_
  intro p q hlt heq
  rw [heq] at hlt
  exact String.lt_irrefl q.1.name hlt

end Bindings

namespace Environment

variable {env env' : Environment}

/-- Environments in which the same is found are the same. -/
theorem ext_get? (h : ∀ v, env.get? v = env'.get? v) : env = env' := by
  have hmem : ∀ p, p ∈ env.bindings ↔ p ∈ env'.bindings := by
    rintro ⟨v, n⟩
    rw [← Bindings.find_eq_some env.inOrder.nodup,
      ← Bindings.find_eq_some env'.inOrder.nodup, ← get?_eq_find,
      ← get?_eq_find, h v]
  have hperm : env.bindings.Perm env'.bindings :=
    (List.perm_ext_iff_of_nodup env.inOrder.nodup.of_map
      env'.inOrder.nodup.of_map).mpr hmem
  have hbindings : env.bindings = env'.bindings :=
    hperm.eq_of_pairwise (fun _ _ _ _ h h' => absurd h' (String.lt_asymm h))
      env.inOrder env'.inOrder
  cases env
  cases env'
  cases hbindings
  rfl

/-- The bindings of an environment make it again, in whatever order they are
given. -/
theorem ofList_of_perm {b : Bindings} (h : b.Perm env.bindings) :
    ofList b = env := by
  have hreverse : b.reverse.Perm env.bindings := (List.reverse_perm b).trans h
  have hnodup : (b.reverse.map Prod.fst).Nodup :=
    (hreverse.map Prod.fst).nodup_iff.mpr env.inOrder.nodup
  apply ext_get?
  intro v
  apply Option.ext
  intro n
  rw [get?_ofList, get?_eq_find, Bindings.find_eq_some hnodup,
    Bindings.find_eq_some env.inOrder.nodup, hreverse.mem_iff]

end Environment

/-! ## Entries of a record -/

def Form.Enters (entry : String × Form) (b : String × Float) : Prop :=
  entry.1 = b.1 ∧ entry.2.IsDouble b.2

/-- The form has the shape of an environment, and lists names with values: its
only field, given by name or in order, is a record with one entry for each. -/
def Form.Lists (f : Form) (bs : List (String × Float)) : Prop :=
  ∃ entries, f.GivenFor "vars" [.record entries] ∧
    List.Forall₂ Enters entries bs

def leavesOfEntries (bs : List (String × Float)) : List Leaf :=
  bs.flatMap fun b => [.name b.1, .value b.2]

/-- In the environment each variable is bound to the value that was entered
last for its name, but for the sign at zero; variables that were not entered
are not bound. -/
def EntriesStandFor (bs : List (String × Float)) (env : Environment) : Prop :=
  ∀ v, (env.get? v).map Number.value =
    (bs.reverse.find? fun b => b.1 == v.name).map fun b =>
      Binary64.unsignZero b.2

theorem EntriesStandFor.unique {bs : List (String × Float)}
    {env env' : Environment} (h : EntriesStandFor bs env)
    (h' : EntriesStandFor bs env') : env = env' := by
  apply Environment.ext_get?
  intro v
  exact Option.map_injective (fun _ _ =>
    Number.eq_of_value) ((h v).trans (h' v).symm)

def Binds (b : String × Float) (c : Variable × Number) : Prop :=
  c.1.name = b.1 ∧ c.2.value = Binary64.unsignZero b.2

theorem map_value_find {bs : List (String × Float)} {cs : Bindings}
    (h : List.Forall₂ Binds bs cs) (v : Variable) :
    (cs.find v).map Number.value =
      (bs.find? fun b => b.1 == v.name).map fun b =>
        Binary64.unsignZero b.2 := by
  induction h with
  | nil => rfl
  | @cons b c bs cs hbc hrest ih =>
      obtain ⟨w, n⟩ := c
      obtain ⟨hname, hvalue⟩ : w.name = b.1 ∧
        n.value = Binary64.unsignZero b.2 := hbc
      rw [Bindings.find_cons]
      by_cases hwv : w = v
      · subst hwv
        rw [if_pos rfl, List.find?_cons_of_pos (by simp [hname]),
          Option.map_some, hvalue]
        rfl
      · have hne : b.1 ≠ v.name :=
          fun heq => hwv (Variable.eq_of_name (hname.trans heq))
        rw [if_neg hwv, List.find?_cons_of_neg (by simpa using hne), ih]

theorem entriesStandFor_ofList {bs : List (String × Float)} {cs : Bindings}
    (h : List.Forall₂ Binds bs cs) : EntriesStandFor bs (.ofList cs) := by
  intro v
  rw [Environment.get?_ofList]
  exact map_value_find (List.rel_reverse h) v

/-! ## Reading entries -/

/-- Members that are read one after the other meet the leaves of each in
turn. -/
theorem Meets.mapM {α β γ : Type} {f : α → Except FormError γ}
    {leaves : β → List Leaf} {good : β → γ → Prop} {xs : List α} {ys : List β}
    (h : List.Forall₂ (fun x y => Meets (leaves y) (good y) (f x)) xs ys) :
    Meets (ys.flatMap leaves) (fun zs => List.Forall₂ good ys zs)
      (xs.mapM f) := by
  induction h with
  | nil => exact .pure .nil
  | cons hx hxs ih =>
      rw [List.mapM_cons, List.flatMap_cons]
      refine hx.bind fun z hz => ?_
      exact ih.map fun zs hzs => .cons hz hzs

namespace Environment

variable {f : Form} {bs : List (String × Float)} {env : Environment}

/-- The name of an entry is met before its value. -/
theorem meets_bindingOfForm {field : String × f.Part} {b : String × Float}
    (h : Form.Enters (field.1, field.2.1) b) :
    Meets [.name b.1, .value b.2] (Binds b) (bindingOfForm field) := by
  obtain ⟨hname, hvalue⟩ := h
  have hv := Variable.meets_ofName field.1
  rw [hname] at hv
  have hread : bindingOfForm field =
    ((Variable.ofName field.1).mapError .leaf).bind fun v =>
      (Number.ofForm field.2).map fun n => (v, n) := rfl
  rw [hread, hname]
  show Meets ([.name b.1] ++ [.value b.2]) _ _
  refine hv.bind fun v hv => ?_
  exact (Number.meets_ofForm hvalue).map fun n hn => ⟨hv, hn⟩

/-- What is read is what the entries of the only field make. -/
theorem exists_ofForm {entries : List (String × Form)}
    (h : f.GivenFor "vars" [.record entries]) :
    ∃ (g : Form) (fields : List (String × g.Part)),
      fields.map (fun p => (p.1, p.2.1)) = entries ∧
      ofForm f = (fields.mapM bindingOfForm).map ofList := by
  obtain ⟨parts, hparts, hvars⟩ := h.exists_values
  obtain ⟨⟨g, hg⟩, rfl, rfl⟩ := List.map_eq_singleton_iff.mp hvars
  obtain ⟨fields, hfields, hentries⟩ := Form.exists_fields entries
  refine ⟨.record entries, fields, hentries, ?_⟩
  have hread : ofForm f = (Form.record entries).fields?.bind fun fields =>
      (fields.mapM bindingOfForm).map ofList := by
    rw [ofForm, hparts]
    rfl
  rw [hread, hfields]
  rfl

theorem meets_ofForm (h : f.Lists bs) :
    Meets (leavesOfEntries bs) (EntriesStandFor bs) (ofForm f) := by
  obtain ⟨entries, hgiven, hentries⟩ := h
  obtain ⟨g, fields, rfl, hread⟩ := exists_ofForm hgiven
  rw [hread]
  rw [List.forall₂_map_left_iff] at hentries
  have hmeets :
      Meets (leavesOfEntries bs) (List.Forall₂ Binds bs)
        (fields.mapM bindingOfForm) :=
    .mapM (hentries.imp fun _ _ hfield => meets_bindingOfForm hfield)
  exact hmeets.map fun cs hcs => entriesStandFor_ofList hcs

/-! ### Nothing else is read -/

theorem exists_entries {fields : List (String × f.Part)} {cs : Bindings}
    (h : fields.mapM bindingOfForm = .ok cs) :
    ∃ bs, List.Forall₂ Form.Enters (fields.map fun p => (p.1, p.2.1)) bs := by
  induction fields generalizing cs with
  | nil => exact ⟨[], .nil⟩
  | cons field fields ih =>
      rw [List.mapM_cons] at h
      obtain ⟨c, hc, h⟩ := exists_of_bind_eq_ok h
      obtain ⟨cs, hcs, -⟩ := exists_of_bind_eq_ok h
      obtain ⟨v, -, hc⟩ := exists_of_bind_eq_ok hc
      obtain ⟨n, hn, -⟩ := exists_of_bind_eq_ok hc
      obtain ⟨x, hx⟩ := Number.exists_of_ofForm hn
      obtain ⟨bs, hbs⟩ := ih hcs
      exact ⟨(field.1, x) :: bs, .cons ⟨rfl, hx⟩ hbs⟩

theorem exists_lists (h : ofForm f = .ok env) : ∃ bs, f.Lists bs := by
  obtain ⟨values, hvalues, h⟩ := exists_of_bind_eq_ok h
  have hgiven := Form.givenFor_of_values hvalues
  split at h
  · cases h
  · next vars more =>
      obtain ⟨fields, hfields, h⟩ := exists_of_bind_eq_ok h
      obtain ⟨cs, hcs, h⟩ := exists_of_bind_eq_ok h
      split at h
      · next hmore =>
          obtain rfl := List.isEmpty_iff.mp hmore
          obtain ⟨bs, hbs⟩ := exists_entries hcs
          rw [List.map_singleton, Form.eq_record_of_fields hfields] at hgiven
          exact ⟨bs, _, hgiven, hbs⟩
      · cases h

/-- An environment is read exactly from what lists entries with valid leaves
that stand for it. -/
theorem ofForm_eq_ok : ofForm f = .ok env ↔
    ∃ bs, f.Lists bs ∧ (∀ l ∈ leavesOfEntries bs, l.Valid) ∧
      EntriesStandFor bs env := by
  constructor
  · intro h
    obtain ⟨bs, hbs⟩ := exists_lists h
    exact ⟨bs, hbs, (meets_ofForm hbs).valid_of_ok h⟩
  · rintro ⟨bs, hbs, hvalid, henv⟩
    obtain ⟨env', henv', hstands⟩ := (meets_ofForm hbs).exists_of_valid hvalid
    rw [henv', hstands.unique henv]

end Environment

end PolyAlgebra
