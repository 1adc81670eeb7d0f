import Mathlib.Data.List.Pairwise
import Mathlib.Order.Nat

/-!
# Rising lists

* `Rising key lo hi xs`: the keys of a list rise, from `lo` on and before `hi`
* `Rising.append`: a list before a bound, and one from a later bound on
-/

namespace LuaTranspiler

variable {α : Type} {key : α → Nat} {lo lo' mid mid' hi hi' : Nat} {xs ys : List α}

/-- Every key is less than those behind it, at least `lo` and less than `hi`. -/
structure Rising (key : α → Nat) (lo hi : Nat) (xs : List α) : Prop where
  within : ∀ x ∈ xs, lo ≤ key x ∧ key x < hi
  apart : xs.Pairwise fun x y => key x < key y

namespace Rising

theorem nil : Rising key lo hi [] := ⟨List.forall_mem_nil _, .nil⟩

theorem singleton (x : α) : Rising key (key x) (key x + 1) [x] :=
  ⟨List.forall_mem_singleton.2 ⟨le_rfl, Nat.lt_succ_self _⟩, List.pairwise_singleton _ _⟩

theorem mono (h : Rising key lo hi xs) (hlo : lo' ≤ lo) (hhi : hi ≤ hi') :
    Rising key lo' hi' xs := by
  refine ⟨fun x hx => ?_, h.apart⟩
  obtain ⟨hle, hlt⟩ := h.within x hx
  exact ⟨hlo.trans hle, hlt.trans_le hhi⟩

theorem append (h : Rising key lo mid xs) (h' : Rising key mid' hi ys) (hmid : mid ≤ mid')
    (hlo : lo ≤ mid') (hhi : mid ≤ hi) : Rising key lo hi (xs ++ ys) := by
  refine ⟨List.forall_mem_append.2 ⟨(h.mono le_rfl hhi).within, (h'.mono hlo le_rfl).within⟩, ?_⟩
  refine List.pairwise_append.2 ⟨h.apart, h'.apart, fun x hx y hy => ?_⟩
  exact (h.within x hx).2.trans_le (hmid.trans (h'.within y hy).1)

end Rising

end LuaTranspiler
