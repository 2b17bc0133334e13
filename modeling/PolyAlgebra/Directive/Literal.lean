import PolyAlgebra.Directive.Letter

/-!
# Literals

Quoted texts, quoted characters and numbers, each perhaps with a word as its
suffix. Each function gives what stands behind a literal, or none where the
literal is not well formed; the literal itself is the text before that. A
literal takes at least one character.
-/

namespace PolyAlgebra.Directive

/-! ## Quoted texts -/

/-- What the characters of a quoted text stand for. -/
inductive Quotation where
  | characters
  /-- Bytes, written in ASCII; the quote follows a `b`. -/
  | bytes
  /-- A text that ends at its first null character, so it holds none; the
  quote follows a `c`. -/
  | terminated
  deriving DecidableEq, Repr

namespace Quotation

/-- May the character stand for itself? -/
def admits : Quotation → Char → Bool
  | characters, _ => true
  | bytes, c => c.toNat < 128
  | terminated, c => c != '\x00'

def admitsHex : Quotation → Char → Char → Bool
  | characters, high, _ => '0' ≤ high && high ≤ '7'
  | bytes, _, _ => true
  | terminated, high, low => high != '0' || low != '0'

def admitsCodePoint : Quotation → Nat → Bool
  | characters, n => n.isValidChar
  | bytes, _ => false
  | terminated, n => n.isValidChar && n != 0

end Quotation

def hexNumber (cs : List Char) : Nat :=
  (cs.filterMap hexValue?).foldl (fun n d => 16 * n + d) 0

/-- Behind a code point in curly brackets: one to six digits, and underscores
behind the first. -/
def behindCodePoint? (q : Quotation) : List Char → Option (List Char)
  | '\x7b' :: c :: rest =>
      let tail := rest.takeWhile fun d => isHexDigit d || d == '_'
      if isHexDigit c && tail.countP isHexDigit < 6 &&
        q.admitsCodePoint (hexNumber (c :: tail)) then
        match rest.dropWhile fun d => isHexDigit d || d == '_' with
        | '\x7d' :: rest => some rest
        | _ => none
      else none
  | _ => none

def behindEscape? (q : Quotation) : List Char → Option (List Char)
  | 'x' :: high :: low :: rest =>
      if isHexDigit high && isHexDigit low && q.admitsHex high low then
        some rest
      else none
  | 'u' :: rest => behindCodePoint? q rest
  | '0' :: rest => if q = .terminated then none else some rest
  | c :: rest =>
      if ['n', 'r', 't', '\\', '\'', '"'].contains c then some rest else none
  | [] => none

/-- Behind the blanks that begin a line; a return stands only before a line
feed. -/
def behindIndent? : List Char → Option (List Char)
  | '\r' :: '\n' :: rest => behindIndent? rest
  | '\r' :: _ => none
  | c :: rest =>
      if [' ', '\t', '\n'].contains c then behindIndent? rest
      else some (c :: rest)
  | [] => none

/-- Behind one unit of a quoted text: a character, an escape, or a line break
behind a backslash, which is left out together with the blanks behind it. -/
def behindUnit? (q : Quotation) : List Char → Option (List Char)
  | '\\' :: '\n' :: rest => behindIndent? rest
  | '\\' :: '\r' :: '\n' :: rest => behindIndent? rest
  | '\\' :: rest => behindEscape? q rest
  | '\r' :: '\n' :: rest => some rest
  | '\r' :: _ => none
  | c :: rest => if q.admits c then some rest else none
  | [] => none

theorem length_behindCodePoint? {q : Quotation} {cs rest : List Char}
    (h : behindCodePoint? q cs = some rest) : rest.length < cs.length := by
  unfold behindCodePoint? at h
  split at h
  · next c tail =>
      have : (tail.dropWhile fun d => isHexDigit d || d == '_').length ≤
          tail.length :=
        (List.dropWhile_suffix _).length_le
      dsimp only at h
      split at h
      · split at h
        · next behind hBehind =>
            simp only [Option.some.injEq] at h
            subst h
            simp only [hBehind, List.length_cons] at this ⊢
            omega
        · simp at h
      · simp at h
  · simp at h

theorem length_behindEscape? {q : Quotation} {cs rest : List Char}
    (h : behindEscape? q cs = some rest) : rest.length < cs.length := by
  unfold behindEscape? at h
  split at h
  · split at h
    · simp only [Option.some.injEq] at h
      subst h
      simp only [List.length_cons]
      omega
    · simp at h
  · have := length_behindCodePoint? h
    simp only [List.length_cons]
    omega
  · split at h <;> simp_all
  · split at h <;> simp_all
  · simp at h

theorem length_behindIndent? {cs rest : List Char}
    (h : behindIndent? cs = some rest) :
    rest.length ≤ cs.length := by
  fun_induction behindIndent? cs with
  | case1 tail ih =>
      have := ih h
      simp only [List.length_cons]
      omega
  | case2 => simp at h
  | case3 c tail _ _ _ ih =>
      have := ih h
      simp only [List.length_cons]
      omega
  | case4 => simp_all
  | case5 => simp at h

theorem length_behindUnit? {q : Quotation} {cs rest : List Char}
    (h : behindUnit? q cs = some rest) : rest.length < cs.length := by
  unfold behindUnit? at h
  split at h
  · have := length_behindIndent? h
    simp only [List.length_cons]
    omega
  · have := length_behindIndent? h
    simp only [List.length_cons]
    omega
  · have := length_behindEscape? h
    simp only [List.length_cons]
    omega
  · simp only [Option.some.injEq] at h
    simp only [h, List.length_cons]
    omega
  · simp at h
  · split at h <;> simp_all
  · simp at h

def behindQuoted? (q : Quotation) (cs : List Char) : Option (List Char) :=
  match cs with
  | [] => none
  | '"' :: rest => some rest
  | cs =>
      match h : behindUnit? q cs with
      | none => none
      | some rest =>
          have : rest.length < cs.length := length_behindUnit? h
          behindQuoted? q rest
  termination_by cs.length

/-- Behind a raw text, of which the opening quote is read. It holds no
escapes, and its closing quote is followed by as many number signs as its
opening quote follows. -/
def behindRawBody? (q : Quotation) (signs : Nat) :
    List Char → Option (List Char)
  | [] => none
  | '\r' :: '\n' :: rest => behindRawBody? q signs rest
  | '\r' :: _ => none
  | c :: rest =>
      if c == '"' && (rest.take signs).length == signs &&
        (rest.take signs).all (· == '#') then
        some (rest.drop signs)
      else if q.admits c then behindRawBody? q signs rest
      else none

/-- Behind a raw text, of which the letters before its number signs are read.
Of the signs there may be none, and at most 255. -/
def behindRaw? (q : Quotation) (cs : List Char) : Option (List Char) :=
  let signs := (cs.takeWhile (· == '#')).length
  match cs.dropWhile (· == '#') with
  | '"' :: rest => if signs ≤ 255 then behindRawBody? q signs rest else none
  | _ => none

def behindCharacter? (q : Quotation) : List Char → Option (List Char)
  | [] => none
  | c :: rest =>
      let behind :=
        if c == '\\' then behindEscape? q rest
        else if q.admits c then some rest else none
      match behind with
      | some ('\'' :: rest) => some rest
      | _ => none

theorem length_behindQuoted? {q : Quotation} {cs rest : List Char}
    (h : behindQuoted? q cs = some rest) : rest.length < cs.length := by
  fun_induction behindQuoted? q cs with
  | case1 => simp at h
  | case2 => simp_all
  | case3 => simp at h
  | case4 cs _ _ behind hBehind hLength ih =>
      have := ih h
      omega

theorem length_behindRawBody? {q : Quotation} {signs : Nat}
    {cs rest : List Char} (h : behindRawBody? q signs cs = some rest) :
    rest.length < cs.length := by
  fun_induction behindRawBody? q signs cs with
  | case1 => simp at h
  | case2 tail ih =>
      have := ih h
      simp only [List.length_cons]
      omega
  | case3 => simp at h
  | case4 c tail =>
      simp only [Option.some.injEq] at h
      rw [← h, List.length_drop, List.length_cons]
      omega
  | case5 c tail _ _ _ _ ih =>
      have := ih h
      simp only [List.length_cons]
      omega
  | case6 => simp at h

theorem length_behindRaw? {q : Quotation} {cs rest : List Char}
    (h : behindRaw? q cs = some rest) :
    rest.length < cs.length := by
  unfold behindRaw? at h
  dsimp only at h
  split at h
  · next tail hTail =>
      split at h
      · have := length_behindRawBody? h
        have : (cs.dropWhile (· == '#')).length ≤ cs.length :=
          (List.dropWhile_suffix _).length_le
        rw [hTail, List.length_cons] at this
        omega
      · simp at h
  · simp at h

theorem length_behindCharacter? {q : Quotation} {cs rest : List Char}
    (h : behindCharacter? q cs = some rest) : rest.length < cs.length := by
  unfold behindCharacter? at h
  split at h
  · simp at h
  · next c tail =>
      dsimp only at h
      split at h
      · next behind hBehind =>
          simp only [Option.some.injEq] at h
          subst h
          split at hBehind
          · have := length_behindEscape? hBehind
            simp only [List.length_cons] at this ⊢
            omega
          · split at hBehind
            · simp only [Option.some.injEq] at hBehind
              simp only [hBehind, List.length_cons]
              omega
            · simp at hBehind
      · simp at h

def behindQuotation? : List Char → Option (List Char)
  | '"' :: rest => behindQuoted? .characters rest
  | 'r' :: rest => behindRaw? .characters rest
  | 'b' :: '"' :: rest => behindQuoted? .bytes rest
  | 'b' :: 'r' :: rest => behindRaw? .bytes rest
  | 'c' :: '"' :: rest => behindQuoted? .terminated rest
  | 'c' :: 'r' :: rest => behindRaw? .terminated rest
  | '\'' :: rest => behindCharacter? .characters rest
  | 'b' :: '\'' :: rest => behindCharacter? .bytes rest
  | _ => none

theorem length_behindQuotation? {cs rest : List Char}
    (h : behindQuotation? cs = some rest) :
    rest.length < cs.length := by
  unfold behindQuotation? at h
  split at h
  case h_1 | h_3 | h_5 =>
    have := length_behindQuoted? h
    simp only [List.length_cons]
    omega
  case h_2 | h_4 | h_6 =>
    have := length_behindRaw? h
    simp only [List.length_cons]
    omega
  case h_7 | h_8 =>
    have := length_behindCharacter? h
    simp only [List.length_cons]
    omega
  case h_9 => simp at h

/-! ## Numbers -/

def inNumeral (c : Char) : Bool := c.isDigit || c == '_'

def behindExponent? (cs : List Char) : Option (List Char) :=
  let cs := cs.dropWhile (· == '_')
  let cs := match cs with
    | '+' :: rest => rest.dropWhile (· == '_')
    | '-' :: rest => rest.dropWhile (· == '_')
    | _ => cs
  match cs with
  | [] => none
  | c :: rest => if c.isDigit then some (rest.dropWhile inNumeral) else none

/-- Behind the digits of a fraction and its exponent. What looks like an
exponent but has no digits is left for the suffix. -/
def behindFraction (cs : List Char) : List Char :=
  let rest := cs.dropWhile inNumeral
  match rest with
  | [] => []
  | c :: tail =>
      if c == 'e' || c == 'E' then (behindExponent? tail).getD rest else rest

/-- Behind a number with a point or an exponent. A point before another point
or a word is none of a number's. -/
def behindFloat? (cs : List Char) : Option (List Char) :=
  match cs.dropWhile inNumeral with
  | [] => none
  | c :: rest =>
      if c == '.' then
        if rest.head?.any fun d => d == '.' || beginsWord d then none
        else some (behindFraction rest)
      else if c == 'e' || c == 'E' then behindExponent? rest
      else none

/-- Behind a row of digits to a base, with at least one digit. A decimal digit
that the base does not have is an error, a letter that it does not have
belongs to the suffix. -/
def behindDigits? (base : Nat) (cs : List Char) : Option (List Char) :=
  let inRow := fun c => inNumeral c || (hexValue? c).any (· < base)
  let row := cs.takeWhile inRow
  if row.all fun c => c == '_' || (hexValue? c).any (· < base) then
    if row.all (· == '_') then none else some (cs.dropWhile inRow)
  else none

def behindInteger? : List Char → Option (List Char)
  | '0' :: 'x' :: rest => behindDigits? 16 rest
  | '0' :: 'o' :: rest => behindDigits? 8 rest
  | '0' :: 'b' :: rest => behindDigits? 2 rest
  | cs => behindDigits? 10 cs

def behindSuffix (cs : List Char) : List Char := (behindWord? cs).getD cs

def behindNumberSuffix? (cs : List Char) : Option (List Char) :=
  let rest := behindSuffix cs
  if rest.head?.any inWord then none else some rest

def behindNumber? : List Char → Option (List Char)
  | [] => none
  | c :: rest =>
      if c.isDigit then
        ((behindFloat? (c :: rest)).bind behindNumberSuffix?).or
          ((behindInteger? (c :: rest)).bind behindNumberSuffix?)
      else none

theorem length_behindExponent? {cs rest : List Char}
    (h : behindExponent? cs = some rest) :
    rest.length < cs.length := by
  unfold behindExponent? at h
  dsimp only at h
  have hSuffix : ∀ (p : Char → Bool) (l : List Char),
      (l.dropWhile p).length ≤ l.length :=
    fun p l => (List.dropWhile_suffix p).length_le
  split at h
  · simp at h
  · next c tail hTail =>
      have hAll := hSuffix (· == '_') cs
      have hRest := hSuffix inNumeral tail
      split at h
      · simp only [Option.some.injEq] at h
        subst h
        split at hTail
        · next behind hBehind =>
            have := hSuffix (· == '_') behind
            simp only [hTail, hBehind, List.length_cons] at this hAll
            omega
        · next behind hBehind =>
            have := hSuffix (· == '_') behind
            simp only [hTail, hBehind, List.length_cons] at this hAll
            omega
        · simp only [hTail, List.length_cons] at hAll
          omega
      · simp at h

theorem length_behindFraction (cs : List Char) :
    (behindFraction cs).length ≤ cs.length := by
  unfold behindFraction
  have hAll : (cs.dropWhile inNumeral).length ≤ cs.length :=
    (List.dropWhile_suffix _).length_le
  dsimp only
  split
  · simp
  · next c tail hTail =>
      rw [hTail, List.length_cons] at hAll
      split
      · cases h : behindExponent? tail with
        | none => simpa [hTail] using hAll
        | some rest =>
            have := length_behindExponent? h
            simp only [Option.getD_some]
            omega
      · simpa [hTail] using hAll

theorem length_behindFloat? {cs rest : List Char}
    (h : behindFloat? cs = some rest) :
    rest.length < cs.length := by
  unfold behindFloat? at h
  have hAll : (cs.dropWhile inNumeral).length ≤ cs.length :=
    (List.dropWhile_suffix _).length_le
  split at h
  · simp at h
  · next c tail hTail =>
      rw [hTail, List.length_cons] at hAll
      split at h
      · split at h
        · simp at h
        · have := length_behindFraction tail
          simp only [Option.some.injEq] at h
          rw [← h]
          omega
      · split at h
        · have := length_behindExponent? h
          omega
        · simp at h

theorem length_behindDigits? {base : Nat} {cs rest : List Char}
    (h : behindDigits? base cs = some rest) : rest.length < cs.length := by
  unfold behindDigits? at h
  dsimp only at h
  split at h
  · split at h
    · simp at h
    · next hRow =>
        simp only [Option.some.injEq] at h
        have hLength := congrArg List.length (List.takeWhile_append_dropWhile
          (p := fun c => inNumeral c || (hexValue? c).any (· < base)) (l := cs))
        rw [List.length_append, h] at hLength
        have : cs.takeWhile (fun c =>
            inNumeral c || (hexValue? c).any (· < base)) ≠ [] := by
          intro hNil
          simp [hNil] at hRow
        have := List.length_pos_iff.2 this
        omega
  · simp at h

theorem length_behindInteger? {cs rest : List Char}
    (h : behindInteger? cs = some rest) :
    rest.length < cs.length := by
  unfold behindInteger? at h
  split at h
  case h_1 | h_2 | h_3 =>
    have := length_behindDigits? h
    simp only [List.length_cons]
    omega
  case h_4 => exact length_behindDigits? h

theorem length_behindSuffix (cs : List Char) :
    (behindSuffix cs).length ≤ cs.length := by
  unfold behindSuffix
  cases h : behindWord? cs with
  | none => simp
  | some rest => exact Nat.le_of_lt (length_behindWord? h)

theorem length_behindNumberSuffix? {cs rest : List Char}
    (h : behindNumberSuffix? cs = some rest) :
    rest.length ≤ cs.length := by
  unfold behindNumberSuffix? at h
  dsimp only at h
  split at h
  · simp at h
  · simp only [Option.some.injEq] at h
    exact h ▸ length_behindSuffix cs

theorem length_behindNumber? {cs rest : List Char}
    (h : behindNumber? cs = some rest) :
    rest.length < cs.length := by
  unfold behindNumber? at h
  split at h
  · simp at h
  · split at h
    · rw [Option.or_eq_some_iff] at h
      rcases h with h | ⟨-, h⟩
      · obtain ⟨behind, hBehind, h⟩ := Option.bind_eq_some_iff.1 h
        exact Nat.lt_of_le_of_lt (length_behindNumberSuffix? h)
          (length_behindFloat? hBehind)
      · obtain ⟨behind, hBehind, h⟩ := Option.bind_eq_some_iff.1 h
        exact Nat.lt_of_le_of_lt (length_behindNumberSuffix? h)
          (length_behindInteger? hBehind)
    · simp at h

/-- Behind the mark that stands in for a literal that could not be written.
Its brackets do not count as brackets. -/
def behindPlaceholder? : List Char → Option (List Char)
  | '(' :: '/' :: '*' :: 'E' :: 'R' :: 'R' :: 'O' :: 'R' :: '*' :: '/' :: ')' ::
      rest => some rest
  | _ => none

theorem length_behindPlaceholder? {cs rest : List Char}
    (h : behindPlaceholder? cs = some rest) :
    rest.length < cs.length := by
  unfold behindPlaceholder? at h
  split at h
  · simp only [Option.some.injEq] at h
    simp only [h, List.length_cons]
    omega
  · simp at h

def behindLiteral? (cs : List Char) : Option (List Char) :=
  (behindPlaceholder? cs).or
    (((behindQuotation? cs).map behindSuffix).or (behindNumber? cs))

theorem length_behindLiteral? {cs rest : List Char}
    (h : behindLiteral? cs = some rest) :
    rest.length < cs.length := by
  unfold behindLiteral? at h
  simp only [Option.or_eq_some_iff] at h
  rcases h with h | ⟨-, h | ⟨-, h⟩⟩
  · exact length_behindPlaceholder? h
  · obtain ⟨behind, hBehind, h⟩ := Option.map_eq_some_iff.1 h
    have := length_behindQuotation? hBehind
    have := length_behindSuffix behind
    rw [← h]
    omega
  · exact length_behindNumber? h

end PolyAlgebra.Directive
