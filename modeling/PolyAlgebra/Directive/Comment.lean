import PolyAlgebra.Directive.Letter

/-!
# Comments

A comment runs to the end of its line, or to the end mark that belongs to its
start mark. Most comments separate pieces as blanks do. A comment whose start
mark is written with one stroke or star more, or with an exclamation mark,
documents what stands behind it or around it, and is read as an attribute.
-/

namespace PolyAlgebra.Directive

/-- A text from the end of its first line on. A return ends a line only before
a line feed. -/
def lineEnd : List Char → List Char
  | [] => []
  | '\n' :: rest => '\n' :: rest
  | '\r' :: '\n' :: rest => '\r' :: '\n' :: rest
  | _ :: rest => lineEnd rest

/-- Behind the end marks of `depth` comments inside each other. -/
def behindBlock? (depth : Nat) : List Char → Option (List Char)
  | '/' :: '*' :: rest => behindBlock? (depth + 1) rest
  | '*' :: '/' :: rest =>
      if depth ≤ 1 then some rest else behindBlock? (depth - 1) rest
  | _ :: rest => behindBlock? depth rest
  | [] => none

/-- Does a comment document something, when `rest` stands behind its start
mark, which ends in `stroke`? A second further stroke makes it a plain comment
again. -/
def documents (stroke : Char) : List Char → Bool
  | '!' :: _ => true
  | [c] => c == stroke
  | c :: d :: _ => c == stroke && d != stroke
  | [] => false

def behindComment? : List Char → Option (List Char)
  | '/' :: '/' :: rest =>
      if documents '/' rest then none else some (lineEnd rest)
  | '/' :: '*' :: '*' :: '/' :: rest => some rest
  | '/' :: '*' :: rest =>
      if documents '*' rest then none else behindBlock? 1 rest
  | _ => none

theorem length_lineEnd (cs : List Char) : (lineEnd cs).length ≤ cs.length := by
  fun_induction lineEnd cs with
  | case1 => simp
  | case2 => simp
  | case3 => simp
  | case4 c rest _ _ ih =>
      simp only [List.length_cons]
      omega

theorem length_behindBlock? {depth : Nat} {cs rest : List Char}
    (h : behindBlock? depth cs = some rest) : rest.length < cs.length := by
  fun_induction behindBlock? depth cs with
  | case1 _ tail ih =>
      have := ih h
      simp only [List.length_cons]
      omega
  | case2 =>
      simp only [Option.some.injEq] at h
      simp only [h, List.length_cons]
      omega
  | case3 _ tail _ ih =>
      have := ih h
      simp only [List.length_cons]
      omega
  | case4 _ c tail _ _ ih =>
      have := ih h
      simp only [List.length_cons]
      omega
  | case5 => simp at h

theorem length_behindComment? {cs rest : List Char}
    (h : behindComment? cs = some rest) :
    rest.length < cs.length := by
  unfold behindComment? at h
  split at h
  · next tail =>
      split at h
      · simp at h
      · have := length_lineEnd tail
        simp only [Option.some.injEq] at h
        rw [← h, List.length_cons, List.length_cons]
        omega
  · simp only [Option.some.injEq] at h
    simp only [h, List.length_cons]
    omega
  · split at h
    · simp at h
    · have := length_behindBlock? h
      simp only [List.length_cons]
      omega
  · simp at h

def behindBlanks (cs : List Char) : List Char :=
  match cs with
  | [] => []
  | c :: tail =>
      if isBlank c then behindBlanks tail
      else
        match h : behindComment? (c :: tail) with
        | none => c :: tail
        | some rest =>
            have : rest.length < (c :: tail).length := length_behindComment? h
            behindBlanks rest
  termination_by cs.length
  decreasing_by
  · exact Nat.lt_succ_self _
  · assumption

theorem length_behindBlanks (cs : List Char) :
    (behindBlanks cs).length ≤ cs.length := by
  fun_induction behindBlanks cs with
  | case1 => simp
  | case2 c tail _ ih =>
      simp only [List.length_cons]
      omega
  | case3 => simp
  | case4 c tail _ rest h hLength ih => omega

def hasLoneReturn : List Char → Bool
  | '\r' :: '\n' :: rest => hasLoneReturn rest
  | '\r' :: _ => true
  | _ :: rest => hasLoneReturn rest
  | [] => false

/-- A comment that documents something. -/
structure Documentation where
  text : List Char
  /-- It documents what stands around it, not what stands behind it. -/
  inner : Bool

def documentation? : List Char → Option (Documentation × List Char)
  | '/' :: '/' :: c :: rest =>
      if documents '/' (c :: rest) then
        let behind := lineEnd rest
        let text := rest.take (rest.length - behind.length)
        if hasLoneReturn text then none else some (⟨text, c == '!'⟩, behind)
      else none
  | '/' :: '*' :: c :: rest =>
      if documents '*' (c :: rest) then
        (behindBlock? 1 rest).bind fun behind =>
          let text := rest.take (rest.length - behind.length - 2)
          if hasLoneReturn text then none else some (⟨text, c == '!'⟩, behind)
      else none
  | _ => none

theorem length_documentation? {cs rest : List Char} {d : Documentation}
    (h : documentation? cs = some (d, rest)) : rest.length < cs.length := by
  unfold documentation? at h
  split at h
  · next c tail =>
      split at h
      · have := length_lineEnd tail
        dsimp only at h
        split at h
        · simp at h
        · simp only [Option.some.injEq, Prod.mk.injEq] at h
          rw [← h.2]
          simp only [List.length_cons]
          omega
      · simp at h
  · next c tail =>
      split at h
      · obtain ⟨behind, hBehind, h⟩ := Option.bind_eq_some_iff.1 h
        have := length_behindBlock? hBehind
        dsimp only at h
        split at h
        · simp at h
        · simp only [Option.some.injEq, Prod.mk.injEq] at h
          rw [← h.2]
          simp only [List.length_cons]
          omega
      · simp at h
  · simp at h

end PolyAlgebra.Directive
