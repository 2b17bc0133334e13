import Mathlib
import PolyAlgebra.Proofs.Patterns
import PolyAlgebra.Proofs.Places

/-!
# The tokens of a source part it

The tokens of a source follow each other without a gap and make up all of it.
Each is a longest match where it stands, so that they are the only ones with
these properties, and what a row of them covers is cut into the same tokens by
itself.
-/

namespace PolyAlgebra

namespace Token

/-! ## What it means to part a source -/

/-- The tokens lead from one place to the other: each begins where the one
before it ends, and ends behind that. -/
def Contiguous (start : Nat) (ts : List Token) (stop : Nat) : Prop :=
  match ts with
  | [] => start = stop
  | t :: ts => t.span.start = start ∧ start < t.span.stop ∧
      Contiguous t.span.stop ts stop

/-- The token is one character that no token of another kind begins with. -/
def Stray (t : Token) : Prop :=
  ∃ c, t.lexeme.toList = [c] ∧
    ∀ other ≠ .symbol, ∀ w, c :: w ∉ TokenKind.pattern other

/-- The first token could not have gone on with the first character of the
other. -/
def EndsBefore (t u : Token) : Prop :=
  ∀ c ∈ u.lexeme.toList.head?, ¬t.kind.Continues t.lexeme.toList c

structure Partition (source : String) (ts : List Token) : Prop where
  cuts : ∀ t ∈ ts, ∃ before after, t.span.Cuts source before t.lexeme after
  contiguous : Contiguous 0 ts source.utf8ByteSize
  joined : String.join (ts.map lexeme) = source
  fits : ∀ t ∈ ts, t.lexeme.toList ∈ t.kind.pattern
  stray : ∀ t ∈ ts, t.kind = .symbol → t.Stray
  maximal : ts.IsChain EndsBefore

/-- A source is lexed from left to right: the longest match is taken away again
and again. A character where nothing matches is an error. -/
inductive Lexes : List Char → List (Option TokenKind × List Char) → Prop where
  | done : Lexes [] []
  | found {kind : TokenKind} {text rest : List Char}
      {found : List (Option TokenKind × List Char)}
      (h : kind.LongestMatch text (text ++ rest)) (hrest : Lexes rest found) :
      Lexes (text ++ rest) ((some kind, text) :: found)
  | error {c : Char} {rest : List Char}
      {found : List (Option TokenKind × List Char)}
      (h : ∀ kind w, w <+: c :: rest → w ∉ TokenKind.pattern kind)
        (hrest : Lexes rest found) :
      Lexes (c :: rest) ((none, [c]) :: found)

def asFound (t : Token) : Option TokenKind × List Char :=
  (some t.kind, t.lexeme.toList)

variable {start : Nat} {cs : List Char} {t : Token}

/-! ## The tokens that are found -/

theorem exists_split_of_mem (h : t ∈ scanFrom start cs) : ∃ before c rest,
    cs = before ++ c :: rest ∧
    t = first (start + byteLength before) c rest := by
  induction start, cs using scanFrom_induction with
  | nil start => simp [scanFrom_nil] at h
  | cons start c cs ih =>
      rw [scanFrom_cons, List.mem_cons] at h
      rcases h with rfl | h
      · exact ⟨[], c, cs, rfl, rfl⟩
      · obtain ⟨before, d, rest, hrest, rfl⟩ := ih h
        refine ⟨c :: ((TokenKind.ofFirst c).tail cs ++ before), d, rest, ?_, ?_⟩
        · rw [List.cons_append, List.append_assoc, ← hrest, tail_append_drop]
        · congr 1
          simp only [first, byteLength_cons, byteLength_append]
          omega

theorem exists_longestMatch_of_mem {source : String} (h : t ∈ scan source) :
    ∃ before after, t.span.Cuts source before t.lexeme after ∧
      t.kind.LongestMatch t.lexeme.toList (t.lexeme ++ after).toList := by
  obtain ⟨before, c, rest, hsource, rfl⟩ := exists_split_of_mem h
  have hrest := tail_append_drop (TokenKind.ofFirst c) rest
  generalize hafter : rest.drop ((TokenKind.ofFirst c).tail rest).length =
    after at hrest
  refine ⟨String.ofList before, String.ofList after, ?_, ?_⟩
  · rw [← hrest, ← List.cons_append] at hsource
    have hcuts := Span.cuts_ofList hsource
    rwa [← Nat.zero_add (byteLength before)] at hcuts
  · simp only [first, ← String.ofList_append, String.toList_ofList,
      List.cons_append, hrest]
    exact TokenKind.longestMatch_first c rest

theorem contiguous_scanFrom (start : Nat) (cs : List Char) :
    Contiguous start (scanFrom start cs) (start + byteLength cs) := by
  induction start, cs using scanFrom_induction with
  | nil start =>
      rw [scanFrom_nil]
      rfl
  | cons start c cs ih =>
      have hstop : (first start c cs).span.stop +
          byteLength (cs.drop ((TokenKind.ofFirst c).tail cs).length) =
          start + byteLength (c :: cs) := by
        conv => rhs; rw [← tail_append_drop (TokenKind.ofFirst c) cs]
        simp only [first, byteLength_cons, byteLength_append]
        omega
      rw [hstop] at ih
      rw [scanFrom_cons]
      refine ⟨rfl, ?_, ih⟩
      have hc := c.utf8Size_pos
      simp only [first, byteLength_cons]
      omega

theorem flatMap_scanFrom (start : Nat) (cs : List Char) :
    (scanFrom start cs).flatMap (fun t => t.lexeme.toList) = cs := by
  induction start, cs using scanFrom_induction with
  | nil start =>
      rw [scanFrom_nil]
      rfl
  | cons start c cs ih =>
      rw [scanFrom_cons, List.flatMap_cons, ih, first, String.toList_ofList,
        List.cons_append, tail_append_drop]

theorem head?_of_scanFrom (h : t ∈ (scanFrom start cs).head?) :
    t.lexeme.toList.head? = cs.head? := by
  cases cs with
  | nil =>
      rw [scanFrom_nil] at h
      cases h
  | cons c cs =>
      rw [scanFrom_cons] at h
      cases h
      rw [first, String.toList_ofList]
      rfl

theorem isChain_scanFrom (start : Nat) (cs : List Char) :
    (scanFrom start cs).IsChain EndsBefore := by
  induction start, cs using scanFrom_induction with
  | nil start =>
      rw [scanFrom_nil]
      exact .nil
  | cons start c cs ih =>
      rw [scanFrom_cons, List.isChain_cons]
      refine ⟨?_, ih⟩
      intro u hu d hd
      rw [head?_of_scanFrom hu] at hd
      simp only [first, String.toList_ofList]
      exact TokenKind.not_continues_tail c cs d hd

theorem stray_of_symbol (h : t ∈ scanFrom start cs) (hk : t.kind = .symbol) :
    t.Stray := by
  obtain ⟨place, c, rest, rfl⟩ := exists_first_of_mem h
  have hc : TokenKind.ofFirst c = .symbol := hk
  refine ⟨c, ?_, ?_⟩
  · rw [first, String.toList_ofList, hc]
    rfl
  · intro other hother w hw
    rw [← TokenKind.ofFirst_of_mem_pattern hw hother, hc] at hother
    exact hother rfl

theorem toList_join (ts : List Token) :
    (String.join (ts.map lexeme)).toList = ts.flatMap fun t =>
      t.lexeme.toList := by
  rw [String.toList_join, List.flatMap_map]

theorem partition_scan (source : String) : Partition source (scan source) where
  cuts t ht := by
    obtain ⟨before, after, hcuts, -⟩ := exists_longestMatch_of_mem ht
    exact ⟨before, after, hcuts⟩
  contiguous := by
    have h := contiguous_scanFrom 0 source.toList
    rwa [Nat.zero_add, byteLength_toList] at h
  joined := by
    apply String.toList_inj.mp
    rw [toList_join]
    exact flatMap_scanFrom 0 source.toList
  fits t ht := by
    obtain ⟨_, _, -, h⟩ := exists_longestMatch_of_mem ht
    exact h.fits
  stray t ht hk := stray_of_symbol ht hk
  maximal := isChain_scanFrom 0 source.toList

/-! ## No other tokens -/

/-- Tokens that part what they are made of are found again. -/
theorem eq_scanFrom {stop : Nat} {ts : List Token}
    (contiguous : Contiguous start ts stop)
    (bytes : ∀ t ∈ ts, t.span.stop = t.span.start + byteLength t.lexeme.toList)
    (fits : ∀ t ∈ ts, t.lexeme.toList ∈ t.kind.pattern)
    (stray : ∀ t ∈ ts, t.kind = .symbol → t.Stray)
    (maximal : ts.IsChain EndsBefore) :
    ts = scanFrom start (ts.flatMap fun t => t.lexeme.toList) := by
  induction ts generalizing start with
  | nil => exact (scanFrom_nil start).symm
  | cons t ts ih =>
      rw [List.forall_mem_cons] at bytes fits stray
      obtain ⟨hnext, hchain⟩ := List.isChain_cons.mp maximal
      obtain ⟨hstart, -, hts⟩ := contiguous
      obtain ⟨c, w, hlexeme⟩ :=
        List.exists_cons_of_ne_nil (TokenKind.ne_nil_of_mem_pattern fits.1)
      have hfits : c :: w ∈ t.kind.pattern := hlexeme ▸ fits.1
      -- the first character fixes the kind
      have hkind : TokenKind.ofFirst c = t.kind := by
        by_cases hsymbol : t.kind = .symbol
        · obtain ⟨d, hd, hother⟩ := stray.1 hsymbol
          rw [hlexeme] at hd
          obtain ⟨rfl, -⟩ := List.cons.inj hd
          rw [hsymbol]
          exact TokenKind.ofFirst_eq_symbol hother
        · exact TokenKind.ofFirst_of_mem_pattern hfits hsymbol
      -- and the text goes on up to the next token
      have htail :
          t.kind.tail (w ++ ts.flatMap fun t => t.lexeme.toList) = w := by
        apply TokenKind.tail_append hfits
        intro d hd
        cases ts with
        | nil => cases hd
        | cons u ts =>
            rw [← hlexeme]
            apply hnext u rfl d
            have hu := TokenKind.ne_nil_of_mem_pattern (fits.2 u (by simp))
            rw [List.flatMap_cons, List.head?_append_of_ne_nil _ hu] at hd
            exact hd
      have hfirst :
          first start c (w ++ ts.flatMap fun t => t.lexeme.toList) = t := by
        obtain ⟨kind, ⟨place, stop'⟩, lexeme⟩ := t
        simp only at hstart hkind htail hlexeme bytes
        rw [first, hkind, htail, ← hlexeme, String.ofList_toList, ← hstart,
          ← bytes.1]
      rw [List.flatMap_cons, hlexeme, List.cons_append, scanFrom_cons, hfirst,
        hkind, htail, List.drop_left, ← ih hts bytes.2 fits.2 stray.2 hchain]

theorem Partition.eq_scan {source : String} {ts : List Token}
    (h : Partition source ts) :
    ts = scan source := by
  have hbytes : ∀ t ∈ ts,
      t.span.stop = t.span.start + byteLength t.lexeme.toList := by
    intro t ht
    obtain ⟨before, after, hcuts⟩ := h.cuts t ht
    rw [hcuts.start_eq, hcuts.stop_eq, String.utf8ByteSize_append,
      byteLength_toList]
  rw [scan, ← h.joined, toList_join]
  exact eq_scanFrom h.contiguous hbytes h.fits h.stray h.maximal

/-! ## Lexing -/

/-- A source is lexed in one way only: a match is found at every place that is
reached. -/
theorem lexes_iff {found : List (Option TokenKind × List Char)} :
    Lexes cs found ↔ found = (scanFrom start cs).map asFound := by
  constructor
  · intro h
    induction h generalizing start with
    | done => rw [scanFrom_nil, List.map_nil]
    | @found kind text rest found h hrest ih =>
        obtain ⟨c, w, rfl⟩ :=
          List.exists_cons_of_ne_nil (TokenKind.ne_nil_of_mem_pattern h.fits)
        obtain ⟨hkind, htext⟩ :=
          h.unique (TokenKind.longestMatch_first c (w ++ rest))
        have htail : (TokenKind.ofFirst c).tail (w ++ rest) = w :=
          (List.cons.inj htext).2
        rw [List.cons_append, scanFrom_cons, List.map_cons, htail,
          List.drop_left, ← ih, asFound, first, String.toList_ofList, htail,
          hkind]
    | @error c rest found h hrest ih =>
        have hc : [c] <+: c :: rest := ⟨rest, rfl⟩
        exact absurd (TokenKind.singleton_mem_pattern c) (h _ _ hc)
  · rintro rfl
    induction start, cs using scanFrom_induction with
    | nil start =>
        rw [scanFrom_nil]
        exact .done
    | cons start c cs ih =>
        have hcs : c :: (TokenKind.ofFirst c).tail cs ++
            cs.drop ((TokenKind.ofFirst c).tail cs).length = c :: cs :=
          congrArg (c :: ·) (tail_append_drop _ cs)
        have hmatch := TokenKind.longestMatch_first c cs
        rw [← hcs] at hmatch
        have h := Lexes.found hmatch ih
        rw [hcs] at h
        rwa [scanFrom_cons, List.map_cons, asFound, first, String.toList_ofList]

/-- What a row of tokens covers is cut into the same tokens by itself. -/
theorem exists_cover {source : String} {pre run post : List Token}
    (h : scan source = pre ++ run ++ post) : ∃ s before piece after,
      Span.Cuts s source before piece after ∧
      (∀ t ∈ run.head?, t.span.start = s.start) ∧
        (∀ t ∈ run.getLast?, t.span.stop = s.stop) ∧
      (scan piece).map (relocate (· + s.start)) = run := by
  rw [List.append_assoc] at h
  obtain ⟨before, rest, hsource, -, hrest⟩ := exists_of_scanFrom_append h
  obtain ⟨piece, after, rfl, hrun, -⟩ := exists_of_scanFrom_append hrest
  rw [Nat.zero_add] at hrun
  refine ⟨_, _, _, _, Span.cuts_ofList hsource, ?_, ?_, ?_⟩
  · rw [← hrun]
    exact fun t ht => start_of_head ht
  · rw [← hrun]
    exact fun t ht => stop_of_getLast ht
  · rw [scan, String.toList_ofList, ← scanFrom_add, Nat.zero_add, hrun]

/-- **The tokens of a source part it.** They follow each other without a gap
and make up the source; each stands where its span says, fits the pattern of
its kind and could not have gone on, and no others do so. Each is the longest
match of any pattern where it stands, a lexer finds them and no error, and
what a row of them covers is cut into the same tokens, counted from where it
begins. -/
theorem partition_iff_eq_scan (source : String) :
    (∀ ts, Partition source ts ↔ ts = scan source) ∧
    (∀ t ∈ scan source, ∃ before after,
      t.span.Cuts source before t.lexeme after ∧
      t.kind.LongestMatch t.lexeme.toList (t.lexeme ++ after).toList) ∧
    (∀ found, Lexes source.toList found ↔
      found = (scan source).map fun t => (some t.kind, t.lexeme.toList)) ∧
    ∀ pre run post, scan source = pre ++ run ++ post → ∃ s before piece after,
      Span.Cuts s source before piece after ∧
      (∀ t ∈ run.head?, t.span.start = s.start) ∧
        (∀ t ∈ run.getLast?, t.span.stop = s.stop) ∧
      (scan piece).map (relocate (· + s.start)) = run := by
  refine ⟨fun ts => ⟨Partition.eq_scan, ?_⟩,
    fun t ht => exists_longestMatch_of_mem ht, fun found => lexes_iff,
    fun pre run post h => exists_cover h⟩
  rintro rfl
  exact partition_scan source

/-- A second point does not belong to a number, and the digits behind it are a
number of their own. -/
theorem partition_iff_eq_scan_points :
    scan "é1.2.3" = [⟨.symbol, ⟨0, 2⟩, "é"⟩, ⟨.number, ⟨2, 5⟩, "1.2"⟩] ++
      [⟨.symbol, ⟨5, 6⟩, "."⟩, ⟨.number, ⟨6, 7⟩, "3"⟩] ++ [] ∧
    ∃ s before piece after, Span.Cuts s "é1.2.3" before piece after ∧
      s = ⟨5, 7⟩ ∧
      (scan piece).map (relocate (· + 5)) =
        [⟨.symbol, ⟨5, 6⟩, "."⟩, ⟨.number, ⟨6, 7⟩, "3"⟩] := by
  have hscan : scan "é1.2.3" =
    [⟨.symbol, ⟨0, 2⟩, "é"⟩, ⟨.number, ⟨2, 5⟩, "1.2"⟩] ++
      [⟨.symbol, ⟨5, 6⟩, "."⟩, ⟨.number, ⟨6, 7⟩, "3"⟩] ++ [] := by cbv
  obtain ⟨⟨start, stop⟩, before, piece, after, hcuts, hstart, hstop, hpiece⟩ :=
    (partition_iff_eq_scan "é1.2.3").2.2.2 _ _ _ hscan
  obtain rfl : 5 = start := hstart _ rfl
  obtain rfl : 7 = stop := hstop _ rfl
  exact ⟨hscan, _, before, piece, after, hcuts, rfl, hpiece⟩

end Token

end PolyAlgebra
