import LuaTranspiler.Proofs.Token.Order
import Mathlib.Data.List.Induction

/-!
# Offsets and positions

Where a token starts and stops is counted along with the characters. It agrees with a count from the
start of the text: an offset is the size of the characters before it, a line is found by counting
newlines, and a column by counting back to the last of them.

* `Position.behind cs`: the position behind leading characters
* `Marks s p`: the offset and the position of `p` are those behind the same characters of `s`
* `Point.after_origin`: what is counted along is what is counted from the start
* `Position.Before`, `Marks.before`: positions are ordered as offsets are
-/

namespace LuaTranspiler

/-- The position behind the leading characters of a text: the first line and one more for each
newline, and the count of characters behind the last newline. -/
def Position.behind (cs : List Char) : Position :=
  ⟨1 + cs.count '\n', (cs.reverse.takeWhile (· ≠ '\n')).length⟩

/-- The offset and the position of a point are those behind the same leading characters of a text.
Offsets count bytes. -/
def Marks (s : String) (p : Point) : Prop :=
  ∃ cs ds, s.toList = cs ++ ds ∧ p.offset = (String.ofList cs).utf8ByteSize ∧
    p.position = .behind cs

theorem Point.after_origin (cs : List Char) :
    Point.origin.after cs = ⟨(String.ofList cs).utf8ByteSize, .behind cs⟩ := by
  induction cs using List.reverseRecOn with
  | nil => rfl
  | append_singleton cs c ih =>
    have hsize : (String.ofList (cs ++ [c])).utf8ByteSize =
        (String.ofList cs).utf8ByteSize + c.utf8Size := by simp
    rw [Point.after_append, ih, Point.after_cons, Point.after_nil, Point.next, hsize]
    split
    next hc => simp [hc, Position.behind, Nat.add_assoc]
    next hc => simp [hc, Position.behind]

theorem marks_after {s : String} {cs ds : List Char} (h : s.toList = cs ++ ds) :
    Marks s (Point.origin.after cs) := by
  rw [Point.after_origin]
  exact ⟨cs, ds, h, rfl, rfl⟩

/-- No point of a text lies behind its end. -/
theorem Marks.offset_le {s : String} {p : Point} (h : Marks s p) : p.offset ≤ s.utf8ByteSize := by
  obtain ⟨cs, ds, hs, hoffset, -⟩ := h
  have hsplit : s = String.ofList cs ++ String.ofList ds := by
    rw [← String.ofList_append, ← hs, String.ofList_toList]
  rw [hoffset, hsplit, String.utf8ByteSize_append]
  exact Nat.le_add_right _ _

theorem ordered_of_tokens {s : String} {ts : List Token} (h : tokens s = .ok ts) :
    Ordered (Marks s) 0 ts :=
  tokensFrom_ordered (fun _ _ hs => marks_after hs) h

/-! ### The order of positions -/

/-- A position on an earlier line than another, or on the same line further left. -/
def Position.Before (p q : Position) : Prop :=
  p.line < q.line ∨ p.line = q.line ∧ p.column < q.column

instance (p q : Position) : Decidable (p.Before q) := inferInstanceAs (Decidable (_ ∨ _))

theorem Position.Before.trans {p q r : Position} (h : p.Before q) (h' : q.Before r) :
    p.Before r := by
  unfold Before at *
  omega

theorem Point.before_next (p : Point) (c : Char) : p.position.Before (p.next c).position := by
  unfold Point.next
  split
  · exact .inl (Nat.lt_succ_self _)
  · exact .inr ⟨rfl, Nat.lt_succ_self _⟩

theorem Point.before_after (p : Point) (c : Char) (cs : List Char) :
    p.position.Before (p.after (c :: cs)).position := by
  induction cs generalizing p c with
  | nil => exact p.before_next c
  | cons d cs ih => exact (p.before_next c).trans (ih (p.next c) d)

/-- Of two points of a text the one with the smaller offset has the earlier position. -/
theorem Marks.before {s : String} {p q : Point} (hp : Marks s p) (hq : Marks s q)
    (h : p.offset < q.offset) : p.position.Before q.position := by
  obtain ⟨cs, ds, hs, hoffset, hposition⟩ := hp
  obtain ⟨cs', ds', hs', hoffset', hposition'⟩ := hq
  rw [hoffset, hoffset'] at h
  rcases List.append_eq_append_iff.1 (hs.symm.trans hs') with ⟨es, rfl, -⟩ | ⟨es, rfl, -⟩
  · cases es with
    | nil => simp at h
    | cons c es =>
      have hbefore := (Point.origin.after cs).before_after c es
      rwa [← Point.after_append, Point.after_origin, Point.after_origin, ← hposition,
        ← hposition'] at hbefore
  · rw [String.ofList_append, String.utf8ByteSize_append] at h
    omega

theorem Marks.position_eq {s : String} {p q : Point} (hp : Marks s p) (hq : Marks s q)
    (h : p.offset = q.offset) : p.position = q.position := by
  obtain ⟨cs, ds, hs, hoffset, hposition⟩ := hp
  obtain ⟨cs', ds', hs', hoffset', hposition'⟩ := hq
  have hbytes : (String.ofList cs).utf8ByteSize = (String.ofList cs').utf8ByteSize := by
    rw [← hoffset, ← hoffset', h]
  have hnil (es : List Char) (hes : (String.ofList es).utf8ByteSize = 0) : es = [] := by
    simpa using String.utf8ByteSize_eq_zero_iff.1 hes
  rw [hposition, hposition']
  rcases List.append_eq_append_iff.1 (hs.symm.trans hs') with ⟨es, rfl, -⟩ | ⟨es, rfl, -⟩
  · rw [String.ofList_append, String.utf8ByteSize_append] at hbytes
    rw [hnil es (by omega), List.append_nil]
  · rw [String.ofList_append, String.utf8ByteSize_append] at hbytes
    rw [hnil es (by omega), List.append_nil]

theorem Marks.before_iff {s : String} {p q : Point} (hp : Marks s p) (hq : Marks s q) :
    p.position.Before q.position ↔ p.offset < q.offset := by
  constructor
  · intro hbefore
    by_contra! hle
    rcases Nat.lt_or_eq_of_le hle with hlt | heq
    · have hafter := hbefore.trans (hq.before hp hlt)
      unfold Position.Before at hafter
      omega
    · rw [hp.position_eq hq heq.symm] at hbefore
      unfold Position.Before at hbefore
      omega
  · exact hp.before hq

end LuaTranspiler
