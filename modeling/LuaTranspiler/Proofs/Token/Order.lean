import LuaTranspiler.Source.Chunk
import Mathlib.Data.List.Pairwise
import Mathlib.Order.Nat

/-!
# The order of tokens

The tokens of a text take up some of it each, and follow one another without overlap. The comments
among them therefore stand apart from all other tokens.

* `Span.Fits edge lo hi a`: a span lies between two offsets and has both ends on an edge
* `Ordered edge lo ts`: tokens from an offset on, one behind the other
* `Source.Clear cs p`: a point that is inside none of the comments
* `Source.start_ordered`: what the cursor before a text knows of its tokens
-/

namespace LuaTranspiler

/-! ### Ends of spans -/

namespace Span

/-- The point where a span starts. -/
def opening (a : Span) : Point := ⟨a.start, a.startPos⟩

/-- The point where a span stops. -/
def closing (a : Span) : Point := ⟨a.stop, a.stopPos⟩

/-- A span that is not empty lies between two offsets, and `edge` holds of both its ends. -/
structure Fits (edge : Point → Prop) (lo hi : Nat) (a : Span) : Prop where
  lower : lo ≤ a.start
  nonempty : a.start < a.stop
  upper : a.stop ≤ hi
  opening : edge a.opening
  closing : edge a.closing

theorem Fits.mono {edge : Point → Prop} {lo lo' hi hi' : Nat} {a : Span} (h : a.Fits edge lo hi)
    (hlo : lo' ≤ lo) (hhi : hi ≤ hi') : a.Fits edge lo' hi' :=
  ⟨hlo.trans h.lower, h.nonempty, h.upper.trans hhi, h.opening, h.closing⟩

theorem Fits.le {edge : Point → Prop} {lo hi : Nat} {a : Span} (h : a.Fits edge lo hi) : lo ≤ hi :=
  h.lower.trans (h.nonempty.le.trans h.upper)

end Span

theorem Point.offset_lt_offset_next (p : Point) (c : Char) : p.offset < (p.next c).offset := by
  have hc := c.utf8Size_pos
  unfold Point.next
  split <;> exact Nat.lt_add_of_pos_right hc

theorem Point.offset_le_offset_after (p : Point) (cs : List Char) :
    p.offset ≤ (p.after cs).offset := by
  induction cs generalizing p with
  | nil => exact le_rfl
  | cons c cs ih => exact (p.offset_lt_offset_next c).le.trans (ih (p.next c))

/-! ### Tokens in order -/

/-- Tokens that start at an offset or behind it, one behind the other, with their ends on edges. -/
structure Ordered (edge : Point → Prop) (lo : Nat) (ts : List Token) : Prop where
  fits : ∀ t ∈ ts, t.span.Fits edge lo t.span.stop
  apart : ts.Pairwise fun t u => t.span.stop ≤ u.span.start

namespace Ordered

variable {edge : Point → Prop} {lo lo' : Nat} {t : Token} {ts : List Token}

theorem nil : Ordered edge lo [] := ⟨by simp, .nil⟩

theorem cons (ht : t.span.Fits edge lo t.span.stop) (hts : Ordered edge t.span.stop ts) :
    Ordered edge lo (t :: ts) := by
  refine ⟨?_, List.pairwise_cons.2 ⟨fun u hu => (hts.fits u hu).lower, hts.apart⟩⟩
  rintro u (_ | ⟨_, hu⟩)
  · exact ht
  · exact (hts.fits u hu).mono ht.le le_rfl

theorem head (h : Ordered edge lo (t :: ts)) : t.span.Fits edge lo t.span.stop :=
  h.fits t (List.mem_cons_self ..)

theorem tail (h : Ordered edge lo (t :: ts)) : Ordered edge t.span.stop ts := by
  obtain ⟨hhead, htail⟩ := List.pairwise_cons.1 h.apart
  refine ⟨fun u hu => ?_, htail⟩
  have hfits := h.fits u (List.mem_cons_of_mem _ hu)
  exact ⟨hhead u hu, hfits.nonempty, hfits.upper, hfits.opening, hfits.closing⟩

theorem mono (h : Ordered edge lo ts) (hlo : lo' ≤ lo) : Ordered edge lo' ts :=
  ⟨fun t ht => (h.fits t ht).mono hlo le_rfl, h.apart⟩

theorem of_suffix {us : List Token} (h : Ordered edge lo ts) (hus : us <:+ ts) :
    Ordered edge lo us :=
  ⟨fun t ht => h.fits t (hus.subset ht), h.apart.sublist hus.sublist⟩

theorem filter (h : Ordered edge lo ts) (keep : Token → Bool) : Ordered edge lo (ts.filter keep) :=
  ⟨fun t ht => h.fits t (List.mem_filter.1 ht).1, h.apart.filter keep⟩

end Ordered

/-- The tokens of a text are in order, with their ends where some leading characters end. -/
theorem tokensFrom_ordered {edge : Point → Prop} {p : Point} {cs : List Char} {ts : List Token}
    (hedge : ∀ ds es, cs = ds ++ es → edge (p.after ds)) (h : tokensFrom p cs = .ok ts) :
    Ordered edge p.offset ts := by
  fun_induction tokensFrom p cs generalizing ts with
  | case1 p =>
    cases h
    exact .nil
  | case2 p c cs hc ih =>
    have hrest : ∀ ds es, cs = ds ++ es → edge ((p.next c).after ds) :=
      fun ds es heq => hedge (c :: ds) es (by rw [heq, List.cons_append])
    exact (ih hrest h).mono (p.offset_lt_offset_next c).le
  | case3 p c cs =>
    rename_i n _ text stop _ hus ih
    cases h
    -- the token is a run of leading characters, so what follows it continues them
    have htext : c :: cs = text ++ cs.drop n := by simp [text]
    have hrest : ∀ ds es, cs.drop n = ds ++ es → edge (stop.after ds) := fun ds es heq => by
      rw [← Point.after_append]
      exact hedge (text ++ ds) es (by rw [htext, heq, List.append_assoc])
    refine .cons ⟨le_rfl, ?_, le_rfl, hedge [] _ rfl, hedge text _ htext⟩ (ih hrest hus)
    exact (p.offset_lt_offset_next c).trans_le (Point.offset_le_offset_after _ _)
  | case4 => cases h
  | case5 => cases h

namespace Source

/-! ### Comments among tokens -/

/-- A point that is inside none of the comments. -/
def Clear (comments : List Comment) (p : Point) : Prop :=
  ∀ c ∈ comments, c.span.stop ≤ p.offset ∨ p.offset ≤ c.span.start

/-- Comments that are not empty, one behind the other. -/
structure InOrder (comments : List Comment) : Prop where
  nonempty : ∀ c ∈ comments, c.span.start < c.span.stop
  apart : comments.Pairwise fun c d => c.span.stop ≤ d.span.start

variable {edge : Point → Prop} {lo : Nat} {ts : List Token}

theorem inOrder_comments (h : Ordered edge lo ts) :
    InOrder ((ts.filter isComment).map .ofToken) := by
  refine ⟨?_, (h.apart.filter _).map Comment.ofToken fun _ _ => id⟩
  intro c hc
  obtain ⟨t, ht, rfl⟩ := List.mem_map.1 hc
  exact (h.fits t (List.mem_filter.1 ht).1).nonempty

theorem stop_le_or_stop_le {t u : Token} (h : Ordered edge lo ts) (ht : t ∈ ts) (hu : u ∈ ts)
    (hne : t ≠ u) : t.span.stop ≤ u.span.start ∨ u.span.stop ≤ t.span.start := by
  let Apart (t u : Token) : Prop := t.span.stop ≤ u.span.start ∨ u.span.stop ≤ t.span.start
  have : Std.Symm Apart := ⟨fun _ _ => Or.symm⟩
  have hapart : ts.Pairwise Apart := h.apart.imp Or.inl
  exact hapart.forall ht hu hne

/-- No token has an end inside a comment. -/
theorem ordered_code (h : Ordered edge lo ts) :
    Ordered (Clear ((ts.filter isComment).map .ofToken)) lo (ts.filter fun t => !isComment t) := by
  refine ⟨fun t ht => ?_, h.apart.filter _⟩
  obtain ⟨ht, hcode⟩ := List.mem_filter.1 ht
  have hfits := h.fits t ht
  have hclear : ∀ o, t.span.start ≤ o → o ≤ t.span.stop → ∀ c ∈ (ts.filter isComment).map
      Comment.ofToken, c.span.stop ≤ o ∨ o ≤ c.span.start := by
    intro o hstart hstop c hc
    obtain ⟨u, hu, rfl⟩ := List.mem_map.1 hc
    obtain ⟨hu, hcomment⟩ := List.mem_filter.1 hu
    have hne : t ≠ u := by
      rintro rfl
      simp [hcomment] at hcode
    rcases stop_le_or_stop_le h ht hu hne with hbefore | hbehind
    · exact .inr (hstop.trans hbefore)
    · exact .inl (hbehind.trans hstart)
  exact ⟨hfits.lower, hfits.nonempty, hfits.upper, hclear _ le_rfl hfits.nonempty.le,
    hclear _ hfits.nonempty.le le_rfl⟩

/-- The comments of a text are in order, and so are its other tokens, which they stand apart
from. -/
theorem start_ordered {s : String} {c : Cursor} {comments : List Comment}
    (h : start s = .ok (c, comments)) :
    InOrder comments ∧ Ordered (Clear comments) 0 c.rest := by
  obtain ⟨ts, hts, hrest, rfl⟩ := exists_of_start h
  have hordered : Ordered (fun _ => True) 0 ts := tokensFrom_ordered (fun _ _ _ => trivial) hts
  rw [hrest]
  exact ⟨inOrder_comments hordered, ordered_code hordered⟩

end Source

end LuaTranspiler
