import PolyAlgebra.Decimal

/-!
# Numbers and variables

The leaves of expressions. A number is a finite double that is not below zero,
and zero has one form only; a variable is a nonempty word of ASCII letters.
Both are made by functions that refuse anything else, so that whoever holds
one need not check again.
-/

namespace PolyAlgebra

inductive InvalidLeaf where
  /-- The value is negative, infinite or not a number. -/
  | value (x : Float)
  /-- The name is empty or has a character that is no ASCII letter. -/
  | name (s : String)
  deriving DecidableEq

def InvalidLeaf.message : InvalidLeaf → String
  | value x =>
      s!"`{Decimal.plain x}` is not a valid number: " ++
        "numbers must be finite and nonnegative"
  | name s =>
      s!"`{s}` is not a valid variable name: " ++
        "names must be nonempty and contain only ASCII letters"

/-! ## Numbers -/

def negativeZeroBits : UInt64 := 0x8000000000000000

/-- A finite double that is at least zero and is not negative zero. -/
structure Number where
  value : Float
  finite : value.isFinite = true
  nonneg : 0 ≤ value
  ne_negativeZero : value.toBits ≠ negativeZeroBits

namespace Number

def zero : Number := ⟨0, by decide, by decide, by decide⟩

def one : Number := ⟨1, by decide, by decide, by decide⟩

/-- The number with a value, if the value is finite and not below zero.
Negative zero, which is not below zero, becomes zero. -/
def ofFloat (x : Float) : Except InvalidLeaf Number :=
  if valid : x.isFinite = true ∧ 0 ≤ x then
    if h : x.toBits = negativeZeroBits then .ok zero
    else .ok ⟨x, valid.1, valid.2, h⟩
  else .error (.value x)

instance : BEq Number := ⟨fun a b => a.value == b.value⟩

def order (a b : Number) : Ordering :=
  if a.value < b.value then .lt else if a.value == b.value then .eq else .gt

/-- A hash code that depends on every bit: the upper half of the bits is
folded onto the lower. -/
def hashCode (n : Number) : UInt64 := n.value.toBits ^^^ (n.value.toBits >>> 32)

/-- The canonical text of a number always has a point with a digit behind it.
A whole value is written with all its digits; any other with the fewest that
read back. -/
def text (n : Number) : String :=
  let units := Binary64.units n.value
  if units % Binary64.unitsPerOne = 0 then
    String.ofList (Nat.toDigits 10 (units / Binary64.unitsPerOne) ++ ['.', '0'])
  else Decimal.plain n.value

end Number

/-! ## Variables -/

def isValidName (s : String) : Bool :=
  !s.toList.isEmpty && s.toList.all Char.isAlpha

theorem isValidName_iff {s : String} :
    isValidName s = true ↔
      s.toList ≠ [] ∧ ∀ c ∈ s.toList, c.isAlpha = true := by
  simp [isValidName]

/-- A nonempty word of ASCII letters; upper and lower case differ. -/
structure Variable where
  name : String
  valid : isValidName name = true
  deriving DecidableEq

namespace Variable

theorem eq_of_name {v w : Variable} (h : v.name = w.name) : v = w := by
  cases v
  cases w
  cases h
  rfl

def ofName (s : String) : Except InvalidLeaf Variable :=
  if h : isValidName s = true then .ok ⟨s, h⟩ else .error (.name s)

def hashCode (v : Variable) : UInt64 :=
  v.name.toList.foldl (fun h c => h * 31 + c.toNat.toUInt64) 0

end Variable

/-! ## Results

A step that can fail has a result or a reason. If several steps that depend on
each other have a result, each of them had one. -/

section Results

variable {ε ε' α β : Type} {b : β}

theorem exists_of_map_eq_ok {r : Except ε α} {f : α → β} (h : r.map f = .ok b) :
    ∃ a, r = .ok a ∧ f a = b := by
  cases r with
  | error e => cases h
  | ok a => exact ⟨a, rfl, Except.ok.inj h⟩

/-- Two steps in a row succeed only if the first does and the second does with
its result. -/
theorem exists_of_bind_eq_ok {r : Except ε α} {f : α → Except ε β}
    (h : r.bind f = .ok b) :
    ∃ a, r = .ok a ∧ f a = .ok b := by
  cases r with
  | error e => cases h
  | ok a => exact ⟨a, rfl, h⟩

theorem eq_ok_of_mapError {r : Except ε β} {f : ε → ε'}
    (h : r.mapError f = .ok b) :
    r = .ok b := by
  cases r with
  | error e => cases h
  | ok a => exact congrArg Except.ok (Except.ok.inj h)

theorem exists_of_mem_mapM {f : α → Except ε β} {xs : List α} {bs : List β}
    (h : xs.mapM f = .ok bs) (hb : b ∈ bs) : ∃ a ∈ xs, f a = .ok b := by
  induction xs generalizing bs with
  | nil =>
      obtain rfl := Except.ok.inj h
      cases hb
  | cons x xs ih =>
      rw [List.mapM_cons] at h
      obtain ⟨c, hc, h⟩ := exists_of_bind_eq_ok h
      obtain ⟨cs, hcs, h⟩ := exists_of_bind_eq_ok h
      obtain rfl := Except.ok.inj h
      rcases List.mem_cons.mp hb with rfl | hb
      · exact ⟨x, by simp, hc⟩
      · obtain ⟨a, ha, hab⟩ := ih hcs hb
        exact ⟨a, List.mem_cons_of_mem x ha, hab⟩

end Results

end PolyAlgebra
