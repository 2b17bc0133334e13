import Mathlib
import PolyAlgebra.Report
import PolyAlgebra.Proofs.Limits
import PolyAlgebra.Proofs.Places

/-!
# Where faults point

Every fault of a source points at one place in it, which takes up bytes unless
the fault is that the source ends too early. All words in front of that place
belong to the beginning of a sentence, and no sentence has a word with a
character outside of ASCII. So the bytes in front of the place are as many as
the characters, whatever characters stand behind it.
-/

namespace PolyAlgebra

/-! ## Words of sentences -/

/-- None of the words is a character that no other kind begins with. -/
def Legible (ts : List Token) : Prop := ∀ t ∈ ts, t.kind ≠ .symbol

theorem Derives.legible {phrase : Phrase} {ts : List Token} {t : Tree}
    (h : Derives phrase ts t) : Legible ts := by
  induction h using Derives.byOperands with
  | number h =>
      intro u hu
      obtain rfl := List.mem_singleton.mp hu
      rw [h.kind]
      decide
  | name h =>
      intro u hu
      obtain rfl := List.mem_singleton.mp hu
      rw [h]
      decide
  | group hopen inner hclose ih =>
      rw [Legible, List.forall_mem_cons, List.forall_mem_append,
        List.forall_mem_singleton, hopen, hclose]
      exact ⟨by decide, ih, by decide⟩
  | factor h ih | term h ih => exact ih
  | times hl hs hr ihl ihr | plus hl hs hr ihl ihr =>
      rw [Legible, List.forall_mem_append, List.forall_mem_cons, hs]
      exact ⟨ihl, by decide, ihr⟩

theorem Viable.legible {p : List Token} (h : Viable p) : Legible p := by
  obtain ⟨ts, t, hd⟩ := h
  exact fun u hu => hd.legible u (List.mem_append_left _ hu)

theorem mem_of_mem_openParens {p : List Token} {u : Token}
    (h : u ∈ openParens p) : u ∈ p := by
  induction p using List.reverseRecOn with
  | nil => cases h
  | append_singleton p t ih =>
      rw [openParens_append, Token.nest] at h
      split at h
      · rcases List.mem_cons.mp h with rfl | h
        · simp
        · simp [ih h]
      · simp [ih (List.mem_of_mem_tail h)]
      · simp [ih h]

/-! ## Places of faults -/

/-- Where a fault may point in the words of a source that ends at the byte
`stop`: at a row of words, or at everything from a word on, or at the end if
the source ends too early. All words in front of that are legible. -/
inductive Fault.Points (stop : Nat) (ts : List Token) (f : Fault) : Prop where
  | row {before row after : List Token} {first last : Token}
      (words_eq : ts = before ++ row ++ after) (legible : Legible before)
      (head : first ∈ row.head?) (final : last ∈ row.getLast?)
      (spans : f.spans = [first.span.through last.span])
        (cause : f.cause ≠ .unexpectedEnd)
  | rest {before after : List Token} {first : Token}
      (words_eq : ts = before ++ [first] ++ after) (legible : Legible before)
      (spans : f.spans = [⟨first.span.start, stop⟩])
        (cause : f.cause ≠ .unexpectedEnd)
  | finish (legible : Legible ts) (spans : f.spans = [.point stop])
      (cause : f.cause = .unexpectedEnd)

section Words

variable {stop : Nat} {p rest : List Token} {t u : Token} {f : Fault}

theorem Fault.points_word (hp : Legible p) (spans : f.spans = [t.span])
    (cause : f.cause ≠ .unexpectedEnd) : f.Points stop (p ++ t :: rest) := by
  have hwords : p ++ t :: rest = p ++ [t] ++ rest := by simp
  exact .row hwords hp rfl rfl spans cause

theorem Fault.points_of_mem (hp : Legible p) (hu : u ∈ p)
    (spans : f.spans = [u.span]) (cause : f.cause ≠ .unexpectedEnd) :
    f.Points stop (p ++ rest) := by
  obtain ⟨before, after, rfl⟩ := List.append_of_mem hu
  rw [List.append_assoc, List.cons_append]
  exact points_word (fun v hv => hp v (List.mem_append_left _ hv)) spans cause

theorem Token.strayCause_ne (t : Token) (expected : List TokenKind) :
    t.strayCause expected ≠ .unexpectedEnd := by
  unfold strayCause
  split <;> rintro ⟨⟩

theorem points_blameOperand (hp : Legible p) :
    (blameOperand p t).Points stop (p ++ t :: rest) := by
  unfold blameOperand
  split
  · exact Fault.points_word hp rfl (by rintro ⟨⟩)
  · split
    · split
      · exact Fault.points_word hp rfl (by rintro ⟨⟩)
      · exact Fault.points_word hp rfl (t.strayCause_ne _)
    · next last hlast =>
        split
        · -- an opening parenthesis and the closing one behind it
          obtain ⟨before, rfl⟩ := List.getLast?_eq_some_iff.mp hlast
          have hwords :
              before ++ [last] ++ t :: rest = before ++ [last, t] ++ rest := by
            simp
          have hbefore : Legible before :=
            fun v hv => hp v (List.mem_append_left _ hv)
          exact .row hwords hbefore rfl rfl rfl (by rintro ⟨⟩)
        · exact Fault.points_word hp rfl (t.strayCause_ne _)

theorem points_blameFollowing (hp : Legible p) :
    (blameFollowing stop p t).Points stop (p ++ t :: rest) := by
  unfold blameFollowing
  split
  · exact Fault.points_word hp rfl (t.strayCause_ne _)
  · split
    · exact Fault.points_word hp rfl (by rintro ⟨⟩)
    · split
      · exact Fault.points_word hp rfl (by rintro ⟨⟩)
      · have hwords : p ++ t :: rest = p ++ [t] ++ rest := by simp
        exact .rest hwords hp rfl (by rintro ⟨⟩)

theorem points_blameEnd (hp : Legible p) : (blameEnd stop p).Points stop p := by
  rw [← List.append_nil p]
  unfold blameEnd
  split
  · next opening outer hopen =>
      rw [List.append_nil] at hopen
      have hmem : opening ∈ p :=
        mem_of_mem_openParens (hopen ▸ List.mem_cons_self ..)
      exact Fault.points_of_mem hp hmem rfl (by rintro ⟨⟩)
  · exact .finish (by rwa [List.append_nil]) rfl rfl

/-- The fault of a source points at the word behind the row that can be
completed, or before it. -/
theorem points_blame (hp : Legible p) :
    (blame stop p rest.head?).Points stop (p ++ rest) := by
  cases rest with
  | nil =>
      rw [List.append_nil, List.head?_nil, blame]
      split
      · exact .finish hp rfl rfl
      · exact points_blameEnd hp
  | cons t rest =>
      rw [List.head?_cons, blame]
      split
      · exact points_blameOperand hp
      · exact points_blameFollowing hp

end Words

namespace Stage

variable {limit : Option Nat} {stop : Nat} {s : Stage} {p ts : List Token}
  {f : Fault}

/-- What a stage refuses is blamed on the words as they are, or cut off by the
limit. -/
theorem Reached.refuses_cases {t? : Option Token} (hs : Reached limit stop p s)
    (h : s.Refuses limit stop f t?) :
    f = blame stop p t? ∨
      ∃ m, ∃ u ∈ p ++ t?.toList, f = .final u.span (.nestingTooDeep m) := by
  cases limit with
  | none => exact Or.inl (hs.follows.eq_blame h)
  | some m =>
      have hnone : ∀ n ∈ (none : Option Nat), m ≤ n := by rintro n ⟨⟩
      cases t? with
      | none =>
          have hcut :
              CutOff m p (s.finish (some m) stop) (s.finish none stop) :=
            hs.spells.cutOff_finish hnone
          rw [show s.finish (some m) stop = .error f from h] at hcut
          rcases hcut with heq | ⟨u, hu, -, heq⟩
          · have hfree : s.Refuses none stop f none := heq.symm
            exact Or.inl (hs.follows.eq_blame hfree)
          · exact Or.inr ⟨m, u, by simpa using hu, Except.error.inj heq⟩
      | some t =>
          have hcut :
              CutOff m (p ++ [t]) (s.step (some m) stop t)
                (s.step none stop t) :=
            hs.spells.cutOff_step hnone t
          rw [show s.step (some m) stop t = .error f from h] at hcut
          rcases hcut with heq | ⟨u, hu, -, heq⟩
          · have hfree : s.Refuses none stop f (some t) := heq.symm
            exact Or.inl (hs.follows.eq_blame hfree)
          · exact Or.inr ⟨m, u, hu, Except.error.inj heq⟩

/-- Whatever the limit, a fault points into the words. -/
theorem points_of_run (h : Stage.run limit stop ts .start = .error f) :
    f.Points stop ts := by
  obtain ⟨p, rest, s, rfl, hs, hr⟩ := Reached.start.exists_refuses h
  rw [List.nil_append] at hs
  have hp := hs.viable.legible
  rcases hs.refuses_cases hr with rfl | ⟨m, u, hu, rfl⟩
  · exact points_blame hp
  · rcases List.mem_append.mp hu with hu | hu
    · exact Fault.points_of_mem hp hu rfl (by rintro ⟨⟩)
    · obtain ⟨t, rest⟩ | _ := rest
      · cases hu
      · obtain rfl := List.mem_singleton.mp hu
        exact Fault.points_word hp rfl (by rintro ⟨⟩)

end Stage

/-! ## Characters in front of faults -/

def IsAscii (c : Char) : Prop := c.val ≤ 127

instance (c : Char) : Decidable (IsAscii c) :=
  inferInstanceAs (Decidable (c.val ≤ 127))

theorem byteLength_of_isAscii {cs : List Char} (h : ∀ c ∈ cs, IsAscii c) :
    byteLength cs = cs.length := by
  induction cs with
  | nil => rfl
  | cons c cs ih =>
      rw [List.forall_mem_cons] at h
      have hc : c.utf8Size = 1 := Char.utf8Size_eq_one_iff.mpr h.1
      rw [byteLength_cons, hc, ih h.2, List.length_cons, Nat.add_comm]

theorem isAscii_of_isBlank {c : Char} (h : isBlank c = true) : IsAscii c := by
  simp only [isBlank, Bool.or_eq_true, beq_iff_eq] at h
  rcases h with ((rfl | rfl) | rfl) | rfl <;> decide

theorem isAscii_of_isAlpha {c : Char} (h : c.isAlpha = true) : IsAscii c := by
  simp only [Char.isAlpha, Char.isUpper, Char.isLower] at h
  rw [IsAscii]
  grind

theorem isAscii_of_isDigit {c : Char} (h : c.isDigit = true) : IsAscii c := by
  simp only [Char.isDigit] at h
  rw [IsAscii]
  grind

namespace TokenKind

theorem isAscii_of_begins {kind : TokenKind} {c : Char} (hkind : kind ≠ .symbol)
    (h : kind.Begins c) : IsAscii c := by
  cases kind with
  | whitespace => exact isAscii_of_isBlank h
  | name => exact isAscii_of_isAlpha h
  | number => exact isAscii_of_isDigit h
  | symbol => exact absurd rfl hkind
  | add | mul | openParen | closeParen =>
      obtain rfl := h
      decide

theorem isAscii_of_mem_tail {kind : TokenKind} {c : Char} {cs : List Char}
    (h : c ∈ kind.tail cs) : IsAscii c := by
  cases kind with
  | whitespace =>
      exact isAscii_of_isBlank (List.all_eq_true.mp List.all_takeWhile c h)
  | name =>
      exact isAscii_of_isAlpha (List.all_eq_true.mp List.all_takeWhile c h)
  | number =>
      rcases isDigit_of_mem_numberTail h with h | rfl
      · exact isAscii_of_isDigit h
      · decide
  | _ => cases h

end TokenKind

namespace Token

variable {start : Nat} {cs : List Char}

theorem isAscii_of_scanFrom (h : Legible (scanFrom start cs)) :
    ∀ c ∈ cs, IsAscii c := by
  induction start, cs using scanFrom_induction with
  | nil start => simp
  | cons start c cs ih =>
      rw [scanFrom_cons, Legible, List.forall_mem_cons] at h
      obtain ⟨hfirst, hrest⟩ := h
      intro d hd
      rw [← tail_append_drop (TokenKind.ofFirst c) cs] at hd
      rcases List.mem_cons.mp hd with rfl | hd
      · exact TokenKind.isAscii_of_begins hfirst (TokenKind.begins_ofFirst d)
      · rcases List.mem_append.mp hd with hd | hd
        · exact TokenKind.isAscii_of_mem_tail hd
        · exact ih hrest d hd

/-- Blanks are ASCII as well, so only the words matter. -/
theorem isAscii_of_words (h : Legible (words (scanFrom start cs))) :
    ∀ c ∈ cs, IsAscii c := by
  apply isAscii_of_scanFrom
  intro t ht hk
  refine h t (List.mem_filter.mpr ⟨ht, ?_⟩) hk
  rw [isWhitespace, hk]
  rfl

theorem exists_cut {before row after : List Token} {first last : Token}
    (h : words (scanFrom 0 cs) = before ++ row ++ after)
    (head : first ∈ row.head?)
    (final : last ∈ row.getLast?) :
    ∃ ds piece es, cs = ds ++ (piece ++ es) ∧ words (scanFrom 0 ds) = before ∧
      first.span.start = byteLength ds ∧
      last.span.stop = byteLength ds + byteLength piece ∧
      0 < byteLength piece := by
  obtain ⟨ds, piece, es, hcs, hbefore, -, -, hhead, hlast⟩ :=
    exists_piece h (List.ne_nil_of_mem (List.mem_of_head? head))
  rw [Nat.zero_add] at hhead hlast
  rw [← hhead] at head
  rw [← hlast] at final
  refine ⟨ds, piece, es, hcs, hbefore, start_of_head head,
    stop_of_getLast final, ?_⟩
  cases piece with
  | nil =>
      rw [scanFrom_nil] at head
      cases head
  | cons c piece => exact Nat.add_pos_left c.utf8Size_pos _

end Token

/-! ## Spans in a source -/

namespace Span

/-- The span stands in the source, and both its ends stand between
characters. -/
structure Within (s : Span) (source : String) : Prop where
  ordered : s.start ≤ s.stop
  bounded : s.stop ≤ source.utf8ByteSize
  start_isValid : String.Pos.Raw.IsValid source ⟨s.start⟩
  stop_isValid : String.Pos.Raw.IsValid source ⟨s.stop⟩

variable {s : Span} {source before piece after : String}

theorem Cuts.within (h : s.Cuts source before piece after) :
    s.Within source := by
  obtain ⟨rfl, hstart, hstop⟩ := h
  refine ⟨?_, ?_, ?_, ?_⟩
  · rw [hstart, hstop, String.utf8ByteSize_append]
    exact Nat.le_add_right _ _
  · rw [hstop, String.utf8ByteSize_append (s := before ++ piece)]
    exact Nat.le_add_right _ _
  · rw [String.Pos.Raw.isValid_iff_exists_append]
    exact ⟨before, piece ++ after, String.append_assoc, by rw [hstart]; rfl⟩
  · rw [String.Pos.Raw.isValid_iff_exists_append]
    exact ⟨before ++ piece, after, rfl, by rw [hstop]; rfl⟩

/-- Behind words that are legible as many characters stand as bytes. -/
theorem exists_cuts_of_legible {ds piece es : List Char}
    (hsource : source.toList = ds ++ (piece ++ es))
    (h : Legible (Token.words (Token.scanFrom 0 ds))) :
    ∃ before piece' after,
      Cuts ⟨byteLength ds, byteLength ds + byteLength piece⟩ source before
        piece' after ∧
      (∀ c ∈ before.toList, IsAscii c) ∧ before.length = byteLength ds := by
  have hds := Token.isAscii_of_words h
  refine ⟨_, _, _, cuts_ofList hsource, ?_, ?_⟩
  · rwa [String.toList_ofList]
  · rw [String.length_ofList, byteLength_of_isAscii hds]

end Span

namespace Tree

variable {source : String} {limit : Option Nat} {f : Fault}

theorem points_of_parse (h : parse source limit = .error f) :
    f.Points (byteLength source.toList) (Token.words (Token.scan source)) := by
  rw [parse_eq_run, Parser.stop_ofSource] at h
  exact Stage.points_of_run h

/-- **Where faults point.** A source that cannot be read as a tree, for any
limit, has a fault with exactly one place, so that its report shows its only
label there. The place lies in the source and between characters. It is the
end of the source if the source ends too early, and otherwise it takes up
bytes. In front of it stands ASCII only, so that the number of bytes there is
the number of characters. -/
theorem parse_points_inside (h : parse source limit = .error f) :
    ∃ s before piece after, f.spans = [s] ∧
      f.report.labels = [(s, f.cause.label)] ∧
      s.Cuts source before piece after ∧ s.Within source ∧
      (f.cause = .unexpectedEnd → s = .point source.utf8ByteSize) ∧
      (f.cause ≠ .unexpectedEnd → s.start < s.stop) ∧
      (∀ c ∈ before.toList, IsAscii c) ∧ before.length = s.start := by
  have hlabels : ∀ s, f.spans = [s] →
      f.report.labels = [(s, f.cause.label)] := by
    intro s hs
    rw [Fault.report, hs]
    rfl
  cases points_of_parse h with
  | row words_eq legible head final spans cause =>
      obtain ⟨ds, piece, es, hsource, hbefore, hstart, hstop, hpos⟩ :=
        Token.exists_cut words_eq head final
      obtain ⟨before, piece', after, hcuts, hascii⟩ :=
        Span.exists_cuts_of_legible hsource (hbefore ▸ legible)
      rw [Span.through, hstart, hstop] at spans
      exact ⟨_, _, _, _, spans, hlabels _ spans, hcuts, hcuts.within,
        fun hc => absurd hc cause, fun _ => Nat.lt_add_of_pos_right hpos,
        hascii⟩
  | rest words_eq legible spans cause =>
      obtain ⟨ds, piece, es, hsource, hbefore, hstart, -, hpos⟩ :=
        Token.exists_cut words_eq rfl rfl
      have hwhole : source.toList = ds ++ ((piece ++ es) ++ []) := by
        simpa using hsource
      obtain ⟨before, piece', after, hcuts, hascii⟩ :=
        Span.exists_cuts_of_legible hwhole (hbefore ▸ legible)
      rw [hstart, hsource, byteLength_append] at spans
      refine ⟨_, _, _, _, spans, hlabels _ spans, hcuts, hcuts.within,
        fun hc => absurd hc cause, fun _ => Nat.lt_add_of_pos_right ?_, hascii⟩
      rw [byteLength_append]
      exact Nat.add_pos_left hpos _
  | finish legible spans cause =>
      have hwhole : source.toList = source.toList ++ ([] ++ []) := by simp
      obtain ⟨before, piece', after, hcuts, hascii⟩ :=
        Span.exists_cuts_of_legible hwhole legible
      refine ⟨_, _, _, _, spans, hlabels _ spans, hcuts, hcuts.within,
        fun _ => ?_, fun hc => absurd cause hc, hascii⟩
      rw [← byteLength_toList]

/-- The letter with a diaeresis takes up two bytes behind five characters. -/
theorem parse_points_inside_diaeresis :
    ∃ before piece after, (⟨5, 7⟩ : Span).Cuts "x * (ü)" before piece after ∧
      (⟨5, 7⟩ : Span).Within "x * (ü)" ∧ (∀ c ∈ before.toList, IsAscii c) ∧
      before.length = 5 := by
  have h : parse "x * (ü)" (some 3) =
      .error ⟨[⟨5, 7⟩], .unexpectedToken [.number, .name, .openParen] .symbol,
        true⟩ := by cbv
  obtain ⟨s, before, piece, after, hs, -, hcuts, hwithin, -, -, hascii,
      hlength⟩ :=
    parse_points_inside h
  obtain rfl := List.singleton_inj.mp hs
  exact ⟨before, piece, after, hcuts, hwithin, hascii, hlength⟩

end Tree

end PolyAlgebra
