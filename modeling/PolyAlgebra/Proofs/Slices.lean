import PolyAlgebra.Proofs.Numerals
import PolyAlgebra.Proofs.Relocation
import PolyAlgebra.Proofs.Scanning

/-!
# Pieces of a source

A row of tokens of a source is cut from a piece of it, and that piece by itself
is cut into the same tokens, counted from its own beginning: a token ends where
it ends whatever comes later, and the place where a source begins only shifts
the places of its tokens. For words the piece can be chosen so that no blanks
stand at its ends.
-/

namespace PolyAlgebra

/-! ## Where tokens end -/

/-- A row that ends before more characters ends there before fewer of them. -/
theorem takeWhile_of_append {α : Type} {p : α → Bool} {xs ys zs : List α}
    (h : (xs ++ (ys ++ zs)).takeWhile p = xs) :
    (xs ++ ys).takeWhile p = xs := by
  induction xs with
  | nil =>
      cases ys with
      | nil => rfl
      | cons y ys =>
          simp only [List.nil_append, List.cons_append,
            List.takeWhile_cons] at h ⊢
          split at h
          · cases h
          · next hy => rw [if_neg hy]
  | cons x xs ih =>
      simp only [List.cons_append, List.takeWhile_cons] at h ⊢
      split at h
      · next hx => rw [if_pos hx, ih (List.cons.inj h).2]
      · cases h

namespace TokenKind

theorem numberTail_of_append {xs ys zs : List Char}
    (h : numberTail (xs ++ (ys ++ zs)) = xs) : numberTail (xs ++ ys) = xs := by
  unfold numberTail at h
  have hcs :=
    List.takeWhile_append_dropWhile (p := Char.isDigit) (l := xs ++ (ys ++ zs))
  split at h
  · next rest hrest =>
      -- the point belongs to `xs`, so that what may be cut off stands behind it
      have hws : ∀ c ∈ (xs ++ (ys ++ zs)).takeWhile Char.isDigit,
          c.isDigit = true :=
        fun c hc => List.all_eq_true.mp List.all_takeWhile c hc
      rw [hrest] at hcs
      generalize (xs ++ (ys ++ zs)).takeWhile Char.isDigit = ws at h hcs hws
      generalize hds : rest.takeWhile Char.isDigit = ds at h
      subst h
      rw [List.append_assoc, List.cons_append, List.append_cancel_left_eq,
        List.cons.injEq] at hcs
      rw [hcs.2] at hds
      have hpoint : ∀ c ∈ ('.' :: (ds ++ ys)).head?, c.isDigit = false := by
        rintro c ⟨⟩
        rfl
      unfold numberTail
      rw [List.append_assoc, List.cons_append, dropWhile_row hws hpoint,
        takeWhile_row hws hpoint]
      show ws ++ '.' :: List.takeWhile Char.isDigit (ds ++ ys) = _
      rw [takeWhile_of_append hds]
  · next hrest =>
      have hys :=
        List.takeWhile_append_dropWhile (p := Char.isDigit) (l := xs ++ ys)
      rw [h, List.append_cancel_left_eq] at hcs
      rw [takeWhile_of_append h, List.append_cancel_left_eq] at hys
      unfold numberTail
      rw [hys]
      split
      · exact absurd hcs (hrest _)
      · exact takeWhile_of_append h

theorem tail_of_append (kind : TokenKind) {xs ys zs : List Char}
    (h : kind.tail (xs ++ (ys ++ zs)) = xs) : kind.tail (xs ++ ys) = xs := by
  cases kind with
  | whitespace | name => exact takeWhile_of_append h
  | number => exact numberTail_of_append h
  | _ => exact h

end TokenKind

namespace Token

variable {start : Nat} {cs : List Char} {us vs : List Token}

theorem first_of_append (start : Nat) (c : Char) {xs ys zs : List Char}
    (h : (TokenKind.ofFirst c).tail (xs ++ (ys ++ zs)) = xs) :
    first start c (xs ++ ys) = first start c (xs ++ (ys ++ zs)) := by
  rw [first, first, h, TokenKind.tail_of_append _ h]

/-- Where a row of tokens ends, the source can be cut in two. -/
theorem exists_of_scanFrom_append (h : scanFrom start cs = us ++ vs) :
    ∃ ds es, cs = ds ++ es ∧ scanFrom start ds = us ∧
      scanFrom (start + byteLength ds) es = vs := by
  induction start, cs using scanFrom_induction generalizing us with
  | nil start =>
      rw [scanFrom_nil, List.nil_eq, List.append_eq_nil_iff] at h
      obtain ⟨rfl, rfl⟩ := h
      exact ⟨[], [], rfl, scanFrom_nil start, scanFrom_nil _⟩
  | cons start c cs ih =>
      cases us with
      | nil => exact ⟨[], c :: cs, rfl, scanFrom_nil start, h⟩
      | cons u us =>
          rw [scanFrom_cons, List.cons_append] at h
          obtain ⟨rfl, hbehind⟩ := List.cons.inj h
          obtain ⟨ds, es, hrest, hus, hvs⟩ := ih hbehind
          have hcs := tail_append_drop (TokenKind.ofFirst c) cs
          rw [hrest] at hcs
          generalize hxs : (TokenKind.ofFirst c).tail cs = xs at *
          subst hcs
          -- the first token ends before `es`, so it is the same without it
          refine ⟨c :: (xs ++ ds), es, by simp, ?_, ?_⟩
          · rw [scanFrom_cons, first_of_append start c hxs,
              TokenKind.tail_of_append _ hxs, List.drop_left, hus]
          · rw [← hvs]
            congr 1
            simp only [first, hxs, byteLength_cons, byteLength_append]
            omega

/-! ## Where tokens stand -/

theorem scanFrom_add (k start : Nat) (cs : List Char) :
    scanFrom (start + k) cs = (scanFrom start cs).map (relocate (· + k)) := by
  induction start, cs using scanFrom_induction with
  | nil start =>
      rw [scanFrom_nil, scanFrom_nil]
      rfl
  | cons start c cs ih =>
      have hfirst : first (start + k) c cs =
          (first start c cs).relocate (· + k) := by
        simp only [first, relocate, Span.relocate]
        congr 2
        omega
      rw [scanFrom_cons, scanFrom_cons, List.map_cons, ← ih, hfirst]
      rfl

theorem start_of_head {t : Token} (h : t ∈ (scanFrom start cs).head?) :
    t.span.start = start := by
  cases cs with
  | nil =>
      rw [scanFrom_nil] at h
      cases h
  | cons c cs =>
      rw [scanFrom_cons] at h
      cases h
      rfl

theorem stop_of_getLast {t : Token} (h : t ∈ (scanFrom start cs).getLast?) :
    t.span.stop = start + byteLength cs := by
  rw [← stop_getLast_scanFrom, h]
  rfl

theorem start_lt_stop {t : Token} (h : t ∈ scanFrom start cs) :
    t.span.start < t.span.stop := by
  obtain ⟨place, c, rest, rfl⟩ := exists_first_of_mem h
  have hc := c.utf8Size_pos
  simp only [first, byteLength_cons]
  omega

theorem start_le_start {t : Token} (h : t ∈ scanFrom start cs) :
    start ≤ t.span.start := by
  induction start, cs using scanFrom_induction with
  | nil start => simp [scanFrom_nil] at h
  | cons start c cs ih =>
      rw [scanFrom_cons, List.mem_cons] at h
      rcases h with rfl | h
      · exact Nat.le_refl start
      · exact Nat.le_trans (Nat.le_add_right _ _) (ih h)

def Before (t u : Token) : Prop := t.span.stop ≤ u.span.start

theorem pairwise_before_scanFrom (start : Nat) (cs : List Char) :
    (scanFrom start cs).Pairwise Before := by
  induction start, cs using scanFrom_induction with
  | nil start =>
      rw [scanFrom_nil]
      exact .nil
  | cons start c cs ih =>
      rw [scanFrom_cons, List.pairwise_cons]
      exact ⟨fun u hu => start_le_start hu, ih⟩

end Token

/-! ## Blanks -/

namespace TokenKind

theorem isDigit_of_mem_numberTail {c : Char} {cs : List Char}
    (h : c ∈ numberTail cs) :
    c.isDigit = true ∨ c = '.' := by
  unfold numberTail at h
  split at h
  · rcases List.mem_append.mp h with h | h
    · exact Or.inl (List.all_eq_true.mp List.all_takeWhile c h)
    · rcases List.mem_cons.mp h with rfl | h
      · exact Or.inr rfl
      · exact Or.inl (List.all_eq_true.mp List.all_takeWhile c h)
  · exact Or.inl (List.all_eq_true.mp List.all_takeWhile c h)

theorem isBlank_of_mem_tail {kind : TokenKind} {c : Char} {cs : List Char}
    (h : c ∈ kind.tail cs) : isBlank c = kind.isWhitespace := by
  cases kind with
  | whitespace => exact List.all_eq_true.mp List.all_takeWhile c h
  | name =>
      exact isBlank_of_isAlpha (List.all_eq_true.mp List.all_takeWhile c h)
  | number =>
      rcases isDigit_of_mem_numberTail h with h | rfl
      · exact isBlank_of_isDigit h
      · rfl
  | _ => cases h

end TokenKind

namespace Token

variable {start : Nat} {cs : List Char}

theorem isBlank_of_scanFrom {b : Bool}
    (h : ∀ t ∈ scanFrom start cs, t.isWhitespace = b) :
    ∀ c ∈ cs, isBlank c = b := by
  induction start, cs using scanFrom_induction with
  | nil start => simp
  | cons start c cs ih =>
      rw [scanFrom_cons, List.forall_mem_cons] at h
      obtain ⟨hfirst, hrest⟩ := h
      have hkind : (TokenKind.ofFirst c).isWhitespace = b := hfirst
      intro d hd
      rw [← tail_append_drop (TokenKind.ofFirst c) cs] at hd
      rcases List.mem_cons.mp hd with rfl | hd
      · rw [← TokenKind.isWhitespace_ofFirst, hkind]
      · rcases List.mem_append.mp hd with hd | hd
        · rw [TokenKind.isBlank_of_mem_tail hd, hkind]
        · exact ih hrest d hd

theorem isBlank_of_words (h : words (scanFrom start cs) = []) :
    ∀ c ∈ cs, isBlank c = true := by
  have hall : ∀ t ∈ scanFrom start cs, t.isWhitespace = true := by
    intro t ht
    simpa using List.filter_eq_nil_iff.mp h t ht
  exact isBlank_of_scanFrom hall

/-- A source that begins with a word begins with no blank. -/
theorem exists_head_of_word {t : Token} (h : t ∈ (scanFrom start cs).head?)
    (ht : t.isWhitespace = false) : ∃ c ∈ cs.head?, isBlank c = false := by
  cases cs with
  | nil =>
      rw [scanFrom_nil] at h
      cases h
  | cons c cs =>
      rw [scanFrom_cons] at h
      cases h
      refine ⟨c, rfl, ?_⟩
      rw [← TokenKind.isWhitespace_ofFirst]
      exact ht

theorem exists_getLast_of_word {t : Token}
    (h : t ∈ (scanFrom start cs).getLast?) (ht : t.isWhitespace = false) :
    ∃ c ∈ cs.getLast?, isBlank c = false := by
  obtain ⟨us, hus⟩ := List.getLast?_eq_some_iff.mp h
  obtain ⟨ds, es, rfl, -, hes⟩ := exists_of_scanFrom_append hus
  have hall : ∀ c ∈ es, isBlank c = false := by
    apply isBlank_of_scanFrom
    rw [hes]
    simpa using ht
  rcases List.eq_nil_or_concat es with rfl | ⟨es, c, hlast⟩
  · rw [scanFrom_nil] at hes
    cases hes
  · rw [List.concat_eq_append] at hlast
    subst hlast
    refine ⟨c, ?_, hall c (by simp)⟩
    rw [← List.append_assoc, List.getLast?_concat]
    rfl

end Token

/-! ## Pieces -/

/-- What passes a filter stands between the first and the last that pass it. -/
theorem exists_between_of_filter {α : Type} {p : α → Bool} {xs ys : List α}
    (h : xs.filter p = ys) (hne : ys ≠ []) : ∃ as middle bs,
      xs = as ++ (middle ++ bs) ∧ as.filter p = [] ∧ middle.filter p = ys ∧
      bs.filter p = [] ∧
      middle.head? = ys.head? ∧ middle.getLast? = ys.getLast? := by
  obtain ⟨y, ys, rfl⟩ := List.exists_cons_of_ne_nil hne
  obtain ⟨as, xs, rfl, has, hy, hxs⟩ := List.filter_eq_cons_iff.mp h
  have has : as.filter p = [] := List.filter_eq_nil_iff.mpr has
  rcases List.eq_nil_or_concat ys with rfl | ⟨ys, z, hlast⟩
  · exact ⟨as, [y], xs, rfl, has, by simp [hy], hxs, rfl, rfl⟩
  · rw [List.concat_eq_append] at hlast
    subst hlast
    obtain ⟨middle, bs, rfl, hmiddle, hbs⟩ := List.filter_eq_append_iff.mp hxs
    obtain ⟨cs, bs, rfl, hcs, hz, hbs⟩ := List.filter_eq_cons_iff.mp hbs
    have hcs : cs.filter p = [] := List.filter_eq_nil_iff.mpr hcs
    refine ⟨as, y :: (middle ++ cs) ++ [z], bs, by simp, has, ?_, hbs, rfl, ?_⟩
    · simp [hy, hz, hmiddle, hcs]
    · rw [List.getLast?_concat, ← List.cons_append, List.getLast?_concat]

namespace Token

/-- Words that stand in a row in a source are those of a piece of it, which
begins where the first of them begins and ends where the last of them ends. -/
theorem exists_piece {start : Nat} {cs : List Char} {pre ws post : List Token}
    (h : words (scanFrom start cs) = pre ++ ws ++ post) (hne : ws ≠ []) :
    ∃ before piece after, cs = before ++ (piece ++ after) ∧
      words (scanFrom start before) = pre ∧
      words (scanFrom (start + byteLength before) piece) = ws ∧
      words (scanFrom (start + byteLength before + byteLength piece) after) =
        post ∧
      (scanFrom (start + byteLength before) piece).head? = ws.head? ∧
      (scanFrom (start + byteLength before) piece).getLast? = ws.getLast? := by
  rw [words, List.append_assoc] at h
  obtain ⟨us, rest, hscan, hus, hrest⟩ := List.filter_eq_append_iff.mp h
  obtain ⟨vs, xs, rfl, hvs, hxs⟩ := List.filter_eq_append_iff.mp hrest
  -- the blanks at the ends of `vs` are left outside of the piece
  obtain ⟨as, middle, bs, rfl, has, hmiddle, hbs, hhead, hlast⟩ :=
    exists_between_of_filter hvs hne
  rw [show us ++ (as ++ (middle ++ bs) ++ xs) = (us ++ as) ++
    (middle ++ (bs ++ xs)) by simp]
    at hscan
  obtain ⟨before, rest, rfl, hbefore, hscan⟩ := exists_of_scanFrom_append hscan
  obtain ⟨piece, after, rfl, hpiece, hafter⟩ := exists_of_scanFrom_append hscan
  refine ⟨before, piece, after, rfl, ?_, ?_, ?_, ?_, ?_⟩
  · rw [hbefore, words, List.filter_append, hus, has, List.append_nil]
  · rw [hpiece, words, hmiddle]
  · rw [hafter, words, List.filter_append, hbs, hxs, List.nil_append]
  · rw [hpiece, hhead]
  · rw [hpiece, hlast]

end Token

end PolyAlgebra
