import Mathlib
import PolyAlgebra.Proofs.Entries

/-!
# Environments under requests

An environment is collected from bindings, and then it serves requests to bind
something. A name and a value that come with a request may be any, and are
refused if no leaves can be made of them. What is found in the environment at
any time depends on its history alone, which is the list of the bindings that
were made: on what was bound to each name last, however many requests were
refused in between.
-/

namespace PolyAlgebra

/-! ## Requests -/

inductive Request where
  /-- Bind the variable with a name to the number with a value, if there are
  such leaves. -/
  | add (name : String) (value : Float)
  | insert (v : Variable) (n : Number)

inductive Answer where
  | done
  | refused (reason : InvalidLeaf)
  /-- The binding was made, in place of a previous one if there was one. -/
  | replaced (previous : Option Number)

namespace Environment

def serve (env : Environment) : Request → Answer × Environment
  | .add name value =>
      match env.add name value with
      | (.error reason, env') => (.refused reason, env')
      | (.ok (), env') => (.done, env')
  | .insert v n => (.replaced (env.insert v n).1, (env.insert v n).2)

/-- The environment that was collected from bindings, or is empty if there are
none, and has then served requests. -/
def after (given : Bindings) (requests : List Request) : Environment :=
  requests.foldl (fun env request => (env.serve request).2) (ofList given)

end Environment

/-! ## Histories of bindings -/

def Request.binding? : Request → Option (String × Float)
  | .add name value =>
      if (Leaf.name name).Valid ∧
        (Leaf.value value).Valid then some (name, value) else none
  | .insert v n => some (v.name, n.value)

/-- All bindings that were made, the first one first. -/
def bindingsMade (given : Bindings) (requests : List Request) :
    List (String × Float) :=
  given.map (fun b => (b.1.name, b.2.value)) ++
    requests.filterMap Request.binding?

theorem bindingsMade_concat (given : Bindings) (requests : List Request)
    (request : Request) :
    bindingsMade given (requests ++ [request]) =
      bindingsMade given requests ++ request.binding?.toList := by
  rw [bindingsMade, bindingsMade, List.filterMap_append, List.append_assoc]
  cases h : request.binding? <;> simp [h]

/-- The value that was bound to a name last, but for the sign at zero. -/
def lastBound? (made : List (String × Float)) (name : String) : Option Float :=
  (made.reverse.find? fun b => b.1 == name).map fun b => Binary64.unsignZero b.2

theorem lastBound?_concat (made : List (String × Float)) (b : String × Float)
    (name : String) :
    lastBound? (made ++ [b]) name =
      if b.1 = name then some (Binary64.unsignZero b.2)
      else lastBound? made name := by
  by_cases h : b.1 = name <;> simp [lastBound?, h]

theorem lastBound?_isSome {made : List (String × Float)} {name : String} :
    (lastBound? made name).isSome = true ↔ name ∈ made.map Prod.fst := by
  simp [lastBound?]

theorem isWord_of_mem_bindingsMade {given : Bindings} {requests : List Request}
    {name : String} (h : name ∈ (bindingsMade given requests).map Prod.fst) :
    IsWord name := by
  obtain ⟨b, hb, rfl⟩ := List.mem_map.mp h
  rcases List.mem_append.mp hb with hb | hb
  · obtain ⟨c, -, rfl⟩ := List.mem_map.mp hb
    exact isValidName_iff.mp c.1.valid
  · obtain ⟨request, -, hrequest⟩ := List.mem_filterMap.mp hb
    cases request with
    | insert v n =>
        obtain rfl := Option.some.inj hrequest
        exact isValidName_iff.mp v.valid
    | add name value =>
        rw [Request.binding?] at hrequest
        split at hrequest
        · next hvalid =>
            obtain rfl := Option.some.inj hrequest
            exact hvalid.1
        · cases hrequest

theorem Number.unsignZero_value (n : Number) :
    Binary64.unsignZero n.value = n.value :=
  if_neg n.ne_negativeZero

namespace Environment

variable {env : Environment} {name : String} {value : Float}

/-! ## One request -/

theorem serve_add_of_invalid_name (h : ¬(Leaf.name name).Valid) :
    env.serve (.add name value) = (.refused (.name name), env) := by
  have hname : Variable.ofName name = .error (.name name) :=
    dif_neg fun hvalid => h (isValidName_iff.mp hvalid)
  rw [serve, add, hname]

theorem serve_add_of_invalid_value (hname : (Leaf.name name).Valid)
    (h : ¬(Leaf.value value).Valid) :
    env.serve (.add name value) = (.refused (.value value), env) := by
  have hv : Variable.ofName name = .ok ⟨name, isValidName_iff.mpr hname⟩ :=
    Variable.ofName_eq_ok.mpr rfl
  rw [serve, add, hv, Number.ofFloat_of_invalid h]

theorem serve_add_of_valid (env : Environment) (hname : (Leaf.name name).Valid)
    (h : (Leaf.value value).Valid) :
    ∃ v n, v.name = name ∧ n.value = Binary64.unsignZero value ∧
      env.serve (.add name value) = (.done, (env.insert v n).2) := by
  have hv : Variable.ofName name = .ok ⟨name, isValidName_iff.mpr hname⟩ :=
    Variable.ofName_eq_ok.mpr rfl
  obtain ⟨n, hn, hvalue⟩ := Number.ofFloat_of_valid h
  refine ⟨⟨name, isValidName_iff.mpr hname⟩, n, rfl, hvalue, ?_⟩
  rw [serve, add, hv, hn]

/-- The leaves of a request are checked in their order. -/
theorem answer_add (env : Environment) (name : String) (value : Float) :
    (env.serve (.add name value)).1 =
      match Leaf.firstInvalid? [.name name, .value value] with
      | none => .done
      | some leaf => .refused leaf.reason := by
  by_cases hname : (Leaf.name name).Valid
  · by_cases hvalue : (Leaf.value value).Valid
    · obtain ⟨v, n, -, -, hserve⟩ := serve_add_of_valid env hname hvalue
      rw [hserve, Leaf.firstInvalid?_eq_none.mpr (by simp [hname, hvalue])]
    · have hfirst : Leaf.firstInvalid? [.name name, .value value] =
          some (.value value) := by
        simp [Leaf.firstInvalid?, hname, hvalue]
      rw [serve_add_of_invalid_value hname hvalue, hfirst]
      rfl
  · have hfirst : Leaf.firstInvalid? [.name name, .value value] =
        some (.name name) := by
      simp [Leaf.firstInvalid?, hname]
    rw [serve_add_of_invalid_name hname, hfirst]
    rfl

theorem serve_of_refused {request : Request} {reason : InvalidLeaf}
    (h : (env.serve request).1 = .refused reason) :
    (env.serve request).2 = env := by
  cases request with
  | insert v n => cases h
  | add name value =>
      by_cases hname : (Leaf.name name).Valid
      · by_cases hvalue : (Leaf.value value).Valid
        · obtain ⟨v, n, -, -, hserve⟩ := serve_add_of_valid env hname hvalue
          rw [hserve] at h
          cases h
        · rw [serve_add_of_invalid_value hname hvalue]
      · rw [serve_add_of_invalid_name hname]

/-- Nothing is bound to what is no word. -/
theorem lookup?_of_not_isWord (env : Environment) (h : ¬IsWord name) :
    env.lookup? name = none := by
  rw [lookup?, Option.map_eq_none_iff, List.find?_eq_none]
  intro b _ hb
  rw [beq_iff_eq] at hb
  exact h (hb ▸ isValidName_iff.mp b.1.valid)

theorem entriesStandFor_insert {made : List (String × Float)}
    (h : EntriesStandFor made env) {v : Variable} {n : Number}
    (hvalue : n.value = Binary64.unsignZero value) :
    EntriesStandFor (made ++ [(v.name, value)]) (env.insert v n).2 := by
  intro w
  show _ = lastBound? (made ++ [(v.name, value)]) w.name
  rw [lastBound?_concat, get?_insert]
  by_cases hvw : v = w
  · rw [if_pos hvw, if_pos (congrArg Variable.name hvw),
      Option.map_some, hvalue]
  · rw [if_neg hvw, if_neg fun heq => hvw (Variable.eq_of_name heq)]
    exact h w

/-- A request that makes a binding adds it to the history, and one that makes
none changes nothing. -/
theorem entriesStandFor_serve {made : List (String × Float)}
    (h : EntriesStandFor made env) (request : Request) :
    EntriesStandFor (made ++ request.binding?.toList)
      (env.serve request).2 := by
  cases request with
  | insert v n => exact entriesStandFor_insert h n.unsignZero_value.symm
  | add name value =>
      by_cases hvalid : (Leaf.name name).Valid ∧ (Leaf.value value).Valid
      · obtain ⟨v, n, rfl, hvalue, hserve⟩ :=
          serve_add_of_valid env hvalid.1 hvalid.2
        rw [hserve, Request.binding?, if_pos hvalid]
        exact entriesStandFor_insert h hvalue
      · have hstays : (env.serve (.add name value)).2 = env := by
          by_cases hname : (Leaf.name name).Valid
          · rw [serve_add_of_invalid_value hname fun hv => hvalid ⟨hname, hv⟩]
          · rw [serve_add_of_invalid_name hname]
        rw [hstays, Request.binding?, if_neg hvalid, Option.toList_none,
          List.append_nil]
        exact h

/-! ## Any number of requests -/

theorem after_concat (given : Bindings) (requests : List Request)
    (request : Request) :
    after given (requests ++ [request]) =
      ((after given requests).serve request).2 :=
  List.foldl_concat ..

/-- At any time the bindings that were made stand for the environment. -/
theorem entriesStandFor_after (given : Bindings) (requests : List Request) :
    EntriesStandFor (bindingsMade given requests) (after given requests) := by
  induction requests using List.reverseRecOn with
  | nil =>
      rw [bindingsMade, List.filterMap_nil, List.append_nil]
      refine entriesStandFor_ofList ?_
      rw [List.forall₂_map_left_iff, List.forall₂_same]
      exact fun b _ => ⟨rfl, b.2.unsignZero_value.symm⟩
  | append_singleton requests request ih =>
      rw [after_concat, bindingsMade_concat]
      exact entriesStandFor_serve ih request

variable (given : Bindings) (requests : List Request)

theorem value_lookup?_after (name : String) :
    ((after given requests).lookup? name).map Number.value =
      lastBound? (bindingsMade given requests) name := by
  by_cases hname : IsWord name
  · have hstands :=
      entriesStandFor_after given requests ⟨name, isValidName_iff.mpr hname⟩
    rw [← lookup?_name] at hstands
    exact hstands
  · have hnever : lastBound? (bindingsMade given requests) name = none := by
      rw [← Option.not_isSome_iff_eq_none, lastBound?_isSome]
      exact fun hmem => hname (isWord_of_mem_bindingsMade hmem)
    rw [hnever, lookup?_of_not_isWord _ hname]
    rfl

theorem mem_names_iff_lookup? (env : Environment) (name : String) :
    name ∈ env.bindings.map (fun b => b.1.name) ↔
      (env.lookup? name).isSome = true := by
  simp [lookup?]

theorem size_eq_card (env : Environment) :
    env.size = (env.bindings.map fun b => b.1.name).toFinset.card := by
  have hnodup : (env.bindings.map fun b => b.1.name).Nodup := by
    have hname := env.inOrder.nodup.map (f := Variable.name) fun _ _ =>
      Variable.eq_of_name
    rwa [List.map_map] at hname
  rw [List.toFinset_card_of_nodup hnodup, List.length_map, size]

theorem size_after :
    (after given requests).size =
      ((bindingsMade given requests).map Prod.fst).toFinset.card := by
  rw [size_eq_card]
  congr 1
  ext name
  rw [List.mem_toFinset, List.mem_toFinset, mem_names_iff_lookup?,
    ← lastBound?_isSome, ← value_lookup?_after, Option.isSome_map]

/-- **Environments.** At any time, what is found for a name is what was bound
to it last, and nothing is found for a name that nothing was bound to, as for
all that are no words. The variable with the name has the same number, and as
many variables are bound as there are names that something was ever bound to.
A request with variable and number is answered with what was found before; one
with name and value is answered with the reason why the name, or else the
value, is not valid, if there is one, and then the environment stays as it
is. -/
theorem history_of_requests (given : Bindings) (requests : List Request) :
    (∀ name, ((after given requests).lookup? name).map Number.value =
      lastBound? (bindingsMade given requests) name) ∧
    (∀ name, ¬IsWord name → (after given requests).lookup? name = none) ∧
    (∀ v, (after given requests).get? v =
      (after given requests).lookup? v.name) ∧
    (after given requests).size =
      ((bindingsMade given requests).map Prod.fst).toFinset.card ∧
    (∀ v n, ((after given requests).serve (.insert v n)).1 =
      .replaced ((after given requests).lookup? v.name)) ∧
    (∀ name value, ((after given requests).serve (.add name value)).1 =
      match Leaf.firstInvalid? [.name name, .value value] with
      | none => .done
      | some leaf => .refused leaf.reason) ∧
    ∀ request reason, ((after given requests).serve request).1 =
      .refused reason →
      ((after given requests).serve request).2 = after given requests := by
  generalize henv : after given requests = env
  refine ⟨?_, ?_, ?_, ?_, ?_, ?_, ?_⟩
  · exact fun name => henv ▸ value_lookup?_after given requests name
  · exact fun name hname => lookup?_of_not_isWord env hname
  · exact fun v => (env.lookup?_name v).symm
  · exact henv ▸ size_after given requests
  · intro v n
    rw [lookup?_name]
    exact congrArg Answer.replaced (env.insert_fst v n)
  · exact fun name value => answer_add env name value
  · exact fun request reason => env.serve_of_refused

/-- A value below zero is refused, and the variable stays bound to what was
given before. A request with a name and a value that are both invalid is
refused for the name. -/
theorem history_of_requests_refused :
    let x : Variable := ⟨"x", by decide⟩
    let env := after [(x, .one)] [.add "x" (-1)]
    (env.lookup? "x").map Number.value = some 1 ∧ env.get? x = env.lookup? "x" ∧
      env.size = 1 ∧
    (env.serve (.insert x .zero)).1 = .replaced (env.lookup? "x") ∧
    (env.serve (.add "x1" (-1))).1 = .refused (.name "x1") ∧
    (env.serve (.add "x1" (-1))).2 = env ∧ env.lookup? "x1" = none := by
  intro x env
  have hvalue : ¬(Leaf.value (-1)).Valid := by decide +kernel
  have hname : ¬IsWord "x1" := by
    intro h
    have hvalid : isValidName "x1" = true := isValidName_iff.mpr h
    revert hvalid
    decide
  have hmade : bindingsMade [(x, .one)] [.add "x" (-1)] = [("x", 1)] := by
    simp [bindingsMade, Request.binding?, hvalue, x, Number.one]
  have hone : Binary64.unsignZero 1 = 1 := Number.one.unsignZero_value
  obtain ⟨hlookup, hnone, hget, hsize, hinsert, hadd, hrefused⟩ :=
    history_of_requests [(x, .one)] [.add "x" (-1)]
  have hanswer : (env.serve (.add "x1" (-1))).1 = .refused (.name "x1") := by
    have hfirst : Leaf.firstInvalid? [.name "x1", .value (-1)] =
        some (.name "x1") :=
      List.find?_cons_of_pos (decide_eq_true hname)
    exact (hadd "x1" (-1)).trans (by rw [hfirst]; rfl)
  refine ⟨?_, hget x, ?_, hinsert x .zero, hanswer, hrefused _ _ hanswer,
    hnone _ hname⟩
  · rw [hlookup, hmade]
    exact congrArg some hone
  · rw [hsize, hmade]
    rfl

end Environment

end PolyAlgebra
