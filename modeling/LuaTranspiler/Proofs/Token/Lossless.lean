import LuaTranspiler.Proofs.Token.Lines

/-!
# Nothing is lost between tokens

The tokens of a text are parts of it, each written where its span says, and what lies between them
is layout. Both follow the tokens one by one along the text. The positions of their ends are what a
count from the start of the text gives, and also what the index of its lines gives.

* `exists_of_mem_tokensFrom`: where a token is written
* `isLayout_of_tokensFrom`: what is in no token
* `Lossless`: tokens that make up a text
* `lossless_of_tokens`: the tokens of every text that can be cut do so
-/

namespace LuaTranspiler

/-! ### One token after the other -/

section Cutting

variable {p : Point} {cs : List Char} {ts : List Token} {t : Token}

/-- A token is a part of the text, and its span reaches from where that part starts to where it
stops. -/
theorem exists_of_mem_tokensFrom (h : tokensFrom p cs = .ok ts) (ht : t ∈ ts) :
    ∃ before behind, cs = before ++ (t.literal.toList ++ behind) ∧
      t.span = .between (p.after before) (p.after (before ++ t.literal.toList)) := by
  fun_induction tokensFrom p cs generalizing ts with
  | case1 p =>
    cases h
    cases ht
  | case2 p c cs _ ih =>
    obtain ⟨before, behind, rfl, hspan⟩ := ih h ht
    exact ⟨c :: before, behind, rfl, hspan⟩
  | case3 p c cs =>
    rename_i n _ text stop us hus ih
    cases h
    have htext : c :: cs = text ++ cs.drop n := by simp [text]
    rcases List.mem_cons.1 ht with rfl | ht
    · exact ⟨[], cs.drop n, by simpa using htext, by simp [stop]⟩
    · obtain ⟨before, behind, hrest, hspan⟩ := ih hus ht
      refine ⟨text ++ before, behind, ?_, ?_⟩
      · rw [htext, hrest, List.append_assoc]
      · rw [hspan, List.append_assoc, Point.after_append p text, Point.after_append p text]
  | case4 => cases h
  | case5 => cases h

/-- A character of which some byte is in no token is layout. -/
theorem isLayout_of_tokensFrom (h : tokensFrom p cs = .ok ts) {before behind : List Char} {c : Char}
    (hcs : cs = before ++ c :: behind) {i : Nat} (hlo : (p.after before).offset ≤ i)
    (hhi : i < (p.after (before ++ [c])).offset)
    (hout : ∀ t ∈ ts, i < t.span.start ∨ t.span.stop ≤ i) : isLayout c = true := by
  fun_induction tokensFrom p cs generalizing ts before with
  | case1 p => simp at hcs
  | case2 p d cs hd ih =>
    cases before with
    | nil =>
      obtain ⟨rfl, -⟩ := List.cons.inj hcs
      exact hd
    | cons e before =>
      obtain ⟨rfl, hrest⟩ := List.cons.inj hcs
      exact ih h hrest hlo hhi hout
  | case3 p d cs =>
    rename_i n _ text stop us hus ih
    cases h
    have htext : d :: cs = text ++ cs.drop n := by simp [text]
    obtain ⟨hfirst, hothers⟩ := List.forall_mem_cons.1 hout
    -- the character starts inside the token, or behind it
    have hsplit : (∃ inside, text = before ++ c :: inside) ∨
        ∃ before', before = text ++ before' ∧ cs.drop n = before' ++ c :: behind := by
      rcases List.append_eq_append_iff.1 (htext.symm.trans hcs) with
        ⟨before', hbefore, hrest⟩ | ⟨inside, hinside, hrest⟩
      · exact .inr ⟨before', hbefore, hrest⟩
      · cases inside with
        | nil => exact .inr ⟨[], by simpa using hinside.symm, by simpa using hrest.symm⟩
        | cons e inside =>
          obtain ⟨rfl, -⟩ := List.cons.inj hrest
          exact .inl ⟨inside, hinside⟩
    rcases hsplit with ⟨inside, hinside⟩ | ⟨before', rfl, hrest⟩
    · exfalso
      have hstart : p.offset ≤ (p.after before).offset := p.offset_le_offset_after before
      have hstop : (p.after (before ++ [c])).offset ≤ stop.offset := by
        have hstop' : stop = (p.after (before ++ [c])).after inside := by
          rw [← Point.after_append, List.append_assoc, List.singleton_append, ← hinside]
        rw [hstop']
        exact Point.offset_le_offset_after _ _
      rcases hfirst with hfirst | hfirst
      · exact absurd (hstart.trans hlo) (Nat.not_le.2 hfirst)
      · exact absurd (hhi.trans_le hstop) (Nat.not_lt.2 hfirst)
    · rw [List.append_assoc] at hhi
      rw [Point.after_append] at hlo hhi
      exact ih hus hrest hlo hhi hothers
  | case4 => cases h
  | case5 => cases h

end Cutting

/-! ### The whole text -/

/-- The tokens `ts` are what the text `s` consists of, but for layout. -/
structure Lossless (s : String) (ts : List Token) : Prop where
  nonempty : ∀ t ∈ ts, t.span.start < t.span.stop
  /-- The tokens are in the order of the text, and no two of them overlap. -/
  apart : ts.Pairwise fun t u => t.span.stop ≤ u.span.start
  /-- A token reads as the bytes of its span. -/
  written : ∀ t ∈ ts, t.span.stop ≤ s.toByteArray.size ∧
    t.literal.toByteArray = s.toByteArray.extract t.span.start t.span.stop
  /-- A byte that is in no token belongs to a blank, a tab, a carriage return, a newline or a form
  feed. -/
  layout : ∀ before c behind, s.toList = before ++ c :: behind →
    ∀ i, (String.ofList before).utf8ByteSize ≤ i →
      i < (String.ofList (before ++ [c])).utf8ByteSize →
      (∀ t ∈ ts, i < t.span.start ∨ t.span.stop ≤ i) → c ∈ [' ', '\t', '\r', '\n', '\x0c']
  /-- A token starts at the line and the column that are counted from the start of the text. -/
  opening : ∀ t ∈ ts, Marks s t.span.opening
  /-- So it does where it stops. -/
  closing : ∀ t ∈ ts, Marks s t.span.closing
  /-- Looking them up in the index of the lines gives the same. -/
  indexed : ∀ t ∈ ts, t.span = (LineIndex.ofString s).span t.span.start t.span.stop

theorem extract_toByteArray {s t : String} {before behind : List Char}
    (h : s.toList = before ++ (t.toList ++ behind)) :
    s.toByteArray.extract (String.ofList before).utf8ByteSize
      (String.ofList (before ++ t.toList)).utf8ByteSize = t.toByteArray := by
  have hs : s = String.ofList before ++ (t ++ String.ofList behind) := by
    rw [← String.ofList_toList (s := s), h, String.ofList_append, String.ofList_append,
      String.ofList_toList]
  rw [hs, String.toByteArray_append, String.toByteArray_append, utf8ByteSize_append,
    String.ofList_toList, ← String.size_toByteArray, ← String.size_toByteArray]
  nth_rewrite 1 [← Nat.add_zero (String.ofList before).toByteArray.size]
  rw [ByteArray.extract_append_size_add, ByteArray.extract_append_eq_left rfl]

/-- **Cutting a text into tokens loses nothing of it.** The tokens are not empty, in order and
apart, each is written where its span says, only layout is left out, and the line and the column of
both ends of a token are those that their offsets have in the text. -/
theorem lossless_of_tokens {s : String} {ts : List Token} (h : tokens s = .ok ts) :
    Lossless s ts := by
  have hordered := ordered_of_tokens h
  have hwritten : ∀ t ∈ ts, ∃ before behind, s.toList = before ++ (t.literal.toList ++ behind) ∧
      t.span = .between (Point.origin.after before)
        (Point.origin.after (before ++ t.literal.toList)) :=
    fun t ht => exists_of_mem_tokensFrom h ht
  refine ⟨fun t ht => (hordered.fits t ht).nonempty, hordered.apart, fun t ht => ⟨?_, ?_⟩, ?_,
    fun t ht => (hordered.fits t ht).opening, fun t ht => (hordered.fits t ht).closing, ?_⟩
  · exact (hordered.fits t ht).closing.offset_le.trans_eq String.size_toByteArray.symm
  · obtain ⟨before, behind, hs, hspan⟩ := hwritten t ht
    rw [hspan, Point.after_origin, Point.after_origin]
    exact (extract_toByteArray hs).symm
  · intro before c behind hs i hlo hhi hout
    have hlayout := isLayout_of_tokensFrom h hs (i := i) (by rwa [Point.after_origin])
      (by rwa [Point.after_origin]) hout
    simpa [isLayout, or_assoc] using hlayout
  · intro t ht
    obtain ⟨before, behind, hs, hspan⟩ := hwritten t ht
    rw [hspan, Point.after_origin, Point.after_origin]
    have hstop : s.toList = (before ++ t.literal.toList) ++ behind := by
      rw [hs, List.append_assoc]
    simp only [Span.between, LineIndex.span, LineIndex.position_ofString hs,
      LineIndex.position_ofString hstop]

/-- A long string over two lines holds a character of three bytes, and a comment one of two. -/
def accentedLines : String := "x = [[\n€]] --ü\n\n.5"

theorem lossless_accentedLines :
    ∃ ts, tokens accentedLines = .ok ts ∧
      (ts.map fun t => (t.literal, t.span)) =
        [("x", ⟨0, 1, ⟨1, 0⟩, ⟨1, 1⟩⟩), ("=", ⟨2, 3, ⟨1, 2⟩, ⟨1, 3⟩⟩),
          ("[[\n€]]", ⟨4, 12, ⟨1, 4⟩, ⟨2, 3⟩⟩), ("--ü", ⟨13, 17, ⟨2, 4⟩, ⟨2, 7⟩⟩),
          (".5", ⟨19, 21, ⟨4, 0⟩, ⟨4, 2⟩⟩)] ∧
      Lossless accentedLines ts := by
  have htokens : ((tokens accentedLines).toOption.map fun ts =>
      ts.map fun t => (t.literal, t.span)) =
        some [("x", ⟨0, 1, ⟨1, 0⟩, ⟨1, 1⟩⟩), ("=", ⟨2, 3, ⟨1, 2⟩, ⟨1, 3⟩⟩),
          ("[[\n€]]", ⟨4, 12, ⟨1, 4⟩, ⟨2, 3⟩⟩), ("--ü", ⟨13, 17, ⟨2, 4⟩, ⟨2, 7⟩⟩),
          (".5", ⟨19, 21, ⟨4, 0⟩, ⟨4, 2⟩⟩)] := by decide +kernel
  cases hts : tokens accentedLines with
  | error e => simp [hts, Except.toOption] at htokens
  | ok ts =>
    rw [hts] at htokens
    exact ⟨ts, rfl, Option.some.inj htokens, lossless_of_tokens hts⟩

end LuaTranspiler
