import PolyAlgebra.Number

/-!
# Environments

An environment binds variables to numbers. Its bindings are kept in the order
of their names with no name twice, so that two environments are equal as soon
as they bind the same variables to the same numbers.
-/

namespace PolyAlgebra

/-- The bindings of an environment before it is known that they are in
order. -/
abbrev Bindings := List (Variable × Number)

namespace Bindings

/-- Binds a variable, and gives the number that it was bound to before. -/
def insert (v : Variable) (n : Number) : Bindings → Option Number × Bindings
  | [] => (none, [(v, n)])
  | (w, m) :: rest =>
      if v.name < w.name then (none, (v, n) :: (w, m) :: rest)
      else if v.name = w.name then (some m, (v, n) :: rest)
      else
        let (previous, rest) := insert v n rest
        (previous, (w, m) :: rest)

def InOrder (b : Bindings) : Prop := b.Pairwise fun p q => p.1.name < q.1.name

theorem mem_insert {v : Variable} {n : Number} {b : Bindings}
    {p : Variable × Number} (h : p ∈ (insert v n b).2) :
    p = (v, n) ∨ p ∈ b := by
  induction b with
  | nil => simpa [insert] using h
  | cons q rest ih =>
      obtain ⟨w, m⟩ := q
      simp only [insert] at h
      split at h
      · simpa using h
      · split at h
        · simp only [List.mem_cons] at h ⊢
          exact h.imp id Or.inr
        · simp only [List.mem_cons] at h ⊢
          rcases h with h | h
          · exact .inr (.inl h)
          · exact (ih h).imp id Or.inr

theorem InOrder.insert {b : Bindings} (h : b.InOrder) (v : Variable)
    (n : Number) :
    InOrder (b.insert v n).2 := by
  induction b with
  | nil => simp [Bindings.insert, InOrder]
  | cons q rest ih =>
      obtain ⟨w, m⟩ := q
      obtain ⟨hw, hr⟩ := List.pairwise_cons.mp h
      simp only [Bindings.insert]
      split
      · next hlt =>
          refine List.pairwise_cons.mpr ⟨fun p hp => ?_, h⟩
          rcases List.mem_cons.mp hp with rfl | hp
          · exact hlt
          · exact String.lt_trans hlt (hw p hp)
      · next hlt =>
          split
          · next heq =>
              exact List.pairwise_cons.mpr ⟨fun p hp => heq ▸ hw p hp, hr⟩
          · next hne =>
              refine List.pairwise_cons.mpr ⟨fun p hp => ?_, ih hr⟩
              rcases mem_insert hp with rfl | hp
              · exact String.not_le.mp fun hle =>
                  hne (String.le_antisymm hle (String.not_lt.mp hlt))
              · exact hw p hp

end Bindings

structure Environment where
  bindings : Bindings
  inOrder : bindings.InOrder

namespace Environment

def empty : Environment := ⟨[], List.Pairwise.nil⟩

instance : BEq Environment := ⟨fun a b => a.bindings == b.bindings⟩

def insert (env : Environment) (v : Variable) (n : Number) :
    Option Number × Environment :=
  ((env.bindings.insert v n).1,
    ⟨(env.bindings.insert v n).2, env.inOrder.insert v n⟩)

/-- Binds the variable with a name to the number with a value, or tells why
there is no such leaf. The name is checked first. -/
def add (env : Environment) (name : String) (value : Float) :
    Except InvalidLeaf Unit × Environment :=
  match Variable.ofName name with
  | .error e => (.error e, env)
  | .ok v =>
      match Number.ofFloat value with
      | .error e => (.error e, env)
      | .ok n => (.ok (), (env.insert v n).2)

def ofList (bindings : List (Variable × Number)) : Environment :=
  bindings.foldl (fun env b => (env.insert b.1 b.2).2) empty

def lookup? (env : Environment) (name : String) : Option Number :=
  (env.bindings.find? fun b => b.1.name == name).map Prod.snd

def get? (env : Environment) (v : Variable) : Option Number :=
  (env.bindings.find? fun b => b.1 == v).map Prod.snd

def size (env : Environment) : Nat := env.bindings.length

def isEmpty (env : Environment) : Bool := env.bindings.isEmpty

end Environment

end PolyAlgebra
