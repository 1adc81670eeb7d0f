import LuaTranspiler.Proofs.Token.Position
import LuaTranspiler.Span.LineIndex
import Mathlib.Data.List.GetD

/-!
# The lines of an index

The index of a text gives every offset between two characters the position that is counted from the
start of the text.

* `search_spec`: what is found by halving
* `lineStarts_append`, `pairwise_lineStarts`: the starts of lines are in order, and those before an
  offset are those of the characters before it
* `LineIndex.position_ofString`: finding a line and counting up to it come to the same
-/

namespace LuaTranspiler

theorem utf8ByteSize_cons (c : Char) (cs : List Char) :
    (String.ofList (c :: cs)).utf8ByteSize = c.utf8Size + (String.ofList cs).utf8ByteSize := by
  simp

theorem utf8ByteSize_append (cs ds : List Char) :
    (String.ofList (cs ++ ds)).utf8ByteSize =
      (String.ofList cs).utf8ByteSize + (String.ofList ds).utf8ByteSize := by
  rw [String.ofList_append, String.utf8ByteSize_append]

/-! ### Bytes of a text -/

theorem dropBytes_append (cs ds : List Char) :
    dropBytes (String.ofList cs).utf8ByteSize (cs ++ ds) = ds := by
  induction cs with
  | nil => exact dropBytes.eq_1 ds
  | cons c cs ih =>
    obtain ⟨k, hk⟩ := Nat.exists_eq_add_one.2 c.utf8Size_pos
    rw [utf8ByteSize_cons, hk, Nat.add_right_comm, List.cons_append, dropBytes, hk,
      Nat.add_sub_add_right, Nat.add_sub_cancel_left, ih]

theorem takeBytes_append (cs ds : List Char) :
    takeBytes (String.ofList cs).utf8ByteSize (cs ++ ds) = cs := by
  induction cs with
  | nil => exact takeBytes.eq_1 ds
  | cons c cs ih =>
    obtain ⟨k, hk⟩ := Nat.exists_eq_add_one.2 c.utf8Size_pos
    rw [utf8ByteSize_cons, hk, Nat.add_right_comm, List.cons_append, takeBytes, hk,
      Nat.add_sub_add_right, Nat.add_sub_cancel_left, ih]

/-! ### Halving -/

section Search

variable {xs : Array Nat} {x lo hi n : Nat}

/-- A number that is found stands where it is found; for one that is not, the place found parts the
smaller numbers from the greater ones. -/
theorem search_spec (hsorted : ∀ i j, i < j → j < xs.size → xs.getD i 0 < xs.getD j 0)
    (hle : lo ≤ hi) (hhi : hi ≤ xs.size) (hbelow : ∀ i < lo, xs.getD i 0 < x)
    (habove : ∀ i, hi ≤ i → i < xs.size → x < xs.getD i 0) :
    (∀ i, search xs x lo hi = .ok i → i < xs.size ∧ xs.getD i 0 = x) ∧
    ∀ i, search xs x lo hi = .error i →
      i ≤ xs.size ∧ (∀ j < i, xs.getD j 0 < x) ∧ ∀ j, i ≤ j → j < xs.size → x < xs.getD j 0 := by
  fun_induction search xs x lo hi with
  | case1 lo hi hlt mid y hfound =>
    refine ⟨?_, by simp⟩
    rintro _ ⟨⟩
    exact ⟨by omega, hfound⟩
  | case2 lo hi hlt mid y _ hless ih =>
    refine ih (by omega) hhi (fun i hi' => ?_) habove
    rcases Nat.lt_succ_iff_lt_or_eq.1 hi' with hi' | rfl
    · exact (hsorted i mid hi' (by omega)).trans hless
    · exact hless
  | case3 lo hi hlt mid y hne hless ih =>
    have hgreater : x < xs.getD mid 0 := by omega
    refine ih (by omega) (by omega) hbelow fun i hi' hsize => ?_
    rcases Nat.eq_or_lt_of_le hi' with rfl | hi'
    · exact hgreater
    · exact hgreater.trans (hsorted mid i hi' hsize)
  | case4 lo hi hge =>
    refine ⟨by simp, ?_⟩
    rintro _ ⟨⟩
    exact ⟨hle.trans hhi, hbelow, fun j hj => habove j (by omega)⟩

/-- The last of the starts that do not exceed an offset is the one that counts. -/
theorem LineIndex.linesBefore_eq {i : LineIndex}
    (hsorted : ∀ j k, j < k → k < i.starts.size → i.starts.getD j 0 < i.starts.getD k 0)
    (hn : n < i.starts.size) (hle : i.starts.getD n 0 ≤ x)
    (hlt : ∀ j, n < j → j < i.starts.size → x < i.starts.getD j 0) : i.linesBefore x = n := by
  obtain ⟨hfound, hmissed⟩ := search_spec (x := x) hsorted (Nat.zero_le _) le_rfl
    (by simp) (fun j hj hj' => absurd hj' (Nat.not_lt.2 hj))
  unfold LineIndex.linesBefore
  cases hsearch : search i.starts x 0 i.starts.size with
  | ok line =>
    obtain ⟨hline, heq⟩ := hfound line hsearch
    rcases Nat.lt_trichotomy line n with h | h | h
    · have := hsorted line n h hn
      omega
    · exact h
    · have := hlt line h hline
      omega
  | error next =>
    obtain ⟨hnext, hbelow, habove⟩ := hmissed next hsearch
    have hlower : n < next := by
      by_contra h
      have := habove n (by omega) hn
      omega
    have hupper : next ≤ n + 1 := by
      by_contra h
      have := hbelow (n + 1) (by omega)
      have := hlt (n + 1) (by omega) (by omega)
      omega
    show next - 1 = n
    omega

end Search

/-! ### The starts of lines -/

theorem lineStarts_append (offset : Nat) (cs ds : List Char) :
    lineStarts offset (cs ++ ds) =
      lineStarts offset cs ++ lineStarts (offset + (String.ofList cs).utf8ByteSize) ds := by
  induction cs generalizing offset with
  | nil => rfl
  | cons c cs ih =>
    simp only [List.cons_append, lineStarts, ih, utf8ByteSize_cons, Nat.add_assoc]
    split <;> rfl

theorem length_lineStarts (offset : Nat) (cs : List Char) :
    (lineStarts offset cs).length = cs.count '\n' := by
  induction cs generalizing offset with
  | nil => rfl
  | cons c cs ih =>
    rw [lineStarts]
    split
    next hc => simp [hc, ih]
    next hc => simp [hc, ih]

theorem bounds_lineStarts {offset x : Nat} {cs : List Char} (h : x ∈ lineStarts offset cs) :
    offset < x ∧ x ≤ offset + (String.ofList cs).utf8ByteSize := by
  induction cs generalizing offset with
  | nil => cases h
  | cons c cs ih =>
    have hc := c.utf8Size_pos
    rw [utf8ByteSize_cons]
    rw [lineStarts] at h
    split at h
    · rcases List.mem_cons.1 h with rfl | h
      · omega
      · have := ih h
        omega
    · have := ih h
      omega

theorem pairwise_lineStarts (offset : Nat) (cs : List Char) :
    (offset :: lineStarts offset cs).Pairwise (· < ·) := by
  refine List.pairwise_cons.2 ⟨fun x hx => (bounds_lineStarts hx).1, ?_⟩
  induction cs generalizing offset with
  | nil => exact .nil
  | cons c cs ih =>
    rw [lineStarts]
    split
    · exact List.pairwise_cons.2 ⟨fun x hx => (bounds_lineStarts hx).1, ih _⟩
    · exact ih _

/-- The last line of a text starts where the count of its columns starts. -/
theorem exists_lastLine (cs : List Char) : ∃ before last, cs = before ++ last ∧
    (0 :: lineStarts 0 cs).getD (cs.count '\n') 0 = (String.ofList before).utf8ByteSize ∧
    last.length = (Position.behind cs).column := by
  induction cs using List.reverseRecOn with
  | nil => exact ⟨[], [], rfl, rfl, rfl⟩
  | append_singleton cs c ih =>
    have hlength : (0 :: lineStarts 0 cs).length = cs.count '\n' + 1 := by simp [length_lineStarts]
    rw [lineStarts_append, Nat.zero_add]
    by_cases hc : c = '\n'
    · subst hc
      refine ⟨cs ++ ['\n'], [], by simp, ?_, by simp [Position.behind]⟩
      rw [utf8ByteSize_append, List.count_append, List.count_singleton_self,
        ← List.cons_append, List.getD_append_right _ _ _ _ hlength.le, hlength, Nat.sub_self]
      rfl
    · obtain ⟨before, last, rfl, hstart, hcolumn⟩ := ih
      refine ⟨before, last ++ [c], by simp, ?_, ?_⟩
      · simpa [lineStarts, hc] using hstart
      · simpa [Position.behind, hc] using hcolumn

theorem getD_starts (s : String) (j : Nat) :
    (LineIndex.ofString s).starts.getD j 0 = (0 :: lineStarts 0 s.toList).getD j 0 := by
  simp [LineIndex.ofString]

theorem getD_starts_lt (s : String) {j k : Nat} (hjk : j < k)
    (hk : k < (LineIndex.ofString s).starts.size) :
    (LineIndex.ofString s).starts.getD j 0 < (LineIndex.ofString s).starts.getD k 0 := by
  have hk' : k < (0 :: lineStarts 0 s.toList).length := hk
  rw [getD_starts, getD_starts, List.getD_eq_getElem _ _ (hjk.trans hk'),
    List.getD_eq_getElem _ _ hk']
  exact List.pairwise_iff_getElem.1 (pairwise_lineStarts 0 s.toList) j k _ hk' hjk

/-- **Finding a line agrees with counting lines.** An offset between two characters is given the
position that is counted from the start of the text. -/
theorem LineIndex.position_ofString {s : String} {cs ds : List Char} (h : s.toList = cs ++ ds) :
    (LineIndex.ofString s).position (String.ofList cs).utf8ByteSize = .behind cs := by
  obtain ⟨before, last, hcs, hstart, hcolumn⟩ := exists_lastLine cs
  -- the lines that start before the offset are those that the characters before it start
  have hstarts : 0 :: lineStarts 0 s.toList =
      (0 :: lineStarts 0 cs) ++ lineStarts (String.ofList cs).utf8ByteSize ds := by
    rw [h, lineStarts_append, Nat.zero_add, List.cons_append]
  have hlength : (0 :: lineStarts 0 cs).length = cs.count '\n' + 1 := by
    rw [List.length_cons, length_lineStarts]
  have hsize : (LineIndex.ofString s).starts.size = (0 :: lineStarts 0 s.toList).length := rfl
  have hlast : (LineIndex.ofString s).starts.getD (cs.count '\n') 0 =
      (String.ofList before).utf8ByteSize := by
    rw [getD_starts, hstarts, List.getD_append _ _ _ _ (by omega), hstart]
  have hlines : (LineIndex.ofString s).linesBefore (String.ofList cs).utf8ByteSize =
      cs.count '\n' := by
    refine LineIndex.linesBefore_eq (fun j k => getD_starts_lt s) ?_ ?_ fun j hj hj' => ?_
    · rw [hsize, hstarts, List.length_append]
      omega
    · rw [hlast, hcs, utf8ByteSize_append]
      exact Nat.le_add_right _ _
    · rw [hsize, hstarts, List.length_append] at hj'
      rw [getD_starts, hstarts, List.getD_append_right _ _ _ _ (by omega),
        List.getD_eq_getElem _ _ (by omega)]
      exact (bounds_lineStarts (List.getElem_mem _)).1
  have hcolumns : takeBytes ((String.ofList cs).utf8ByteSize - (String.ofList before).utf8ByteSize)
      (dropBytes (String.ofList before).utf8ByteSize (LineIndex.ofString s).text) = last := by
    have htext : (LineIndex.ofString s).text = before ++ (last ++ ds) := by
      rw [← List.append_assoc, ← hcs, ← h]
      rfl
    rw [htext, dropBytes_append, hcs, utf8ByteSize_append, Nat.add_sub_cancel_left,
      takeBytes_append]
  unfold LineIndex.position
  simp only [hlines, hlast, hcolumns, hcolumn]
  rw [Nat.add_comm]
  rfl

end LuaTranspiler
