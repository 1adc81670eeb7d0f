import LuaTranspiler.Typing.Assignable
import Mathlib.Data.List.Forall2

/-!
# The order of types

Types are ordered by what can be stored where, and a union is an upper bound of its members. Equal
types fit without a look at their members, so it has to be shown that the members would have told
the same.

* `isAssignable_union`, `isAssignable_union_right`, `isAssignable_tuple`, `isAssignable_basic`: what
  fits, by the form of both types
* `isAssignable_union_iff`: a union fits where all its members do
* `isAssignable_trans`: what fits where something fits that fits elsewhere, fits there
* `isAssignable_preorder`: the order and its upper bounds
-/

namespace LuaTranspiler.Ty

/-! ### Lists of types -/

theorem allAssignable_iff {fs : List Ty} {e : Ty} :
    allAssignable fs e = true ↔ ∀ f ∈ fs, isAssignable f e = true := by
  induction fs with
  | nil => simp [allAssignable]
  | cons f fs ih => simp [allAssignable, ih]

theorem anyAssignable_iff {f : Ty} {es : List Ty} :
    anyAssignable f es = true ↔ ∃ e ∈ es, isAssignable f e = true := by
  induction es with
  | nil => simp [anyAssignable]
  | cons e es ih => simp [anyAssignable, ih]

theorem pairsAssignable_iff {fs es : List Ty} :
    pairsAssignable fs es = true ↔ List.Forall₂ (fun f e => isAssignable f e = true) fs es := by
  induction fs generalizing es with
  | nil => cases es <;> simp [pairsAssignable]
  | cons f fs ih => cases es <;> simp [pairsAssignable, ih]

/-! ### The forms of both types -/

/-- Whether a type is a union. -/
def isUnion : Ty → Bool
  | union _ => true
  | _ => false

theorem exists_eq_union {t : Ty} (h : t.isUnion = true) : ∃ ts, t = union ts := by
  cases t with
  | union ts => exact ⟨ts, rfl⟩
  | number | string | boolean | undefined | void | tuple => cases h

theorem isAssignable_refl (a : Ty) : isAssignable a a = true := by
  unfold isAssignable
  simp

theorem isAssignable_union {fs : List Ty} {e : Ty} :
    isAssignable (union fs) e = true ↔ union fs = e ∨ ∀ f ∈ fs, isAssignable f e = true := by
  rw [← allAssignable_iff, isAssignable]
  simp

theorem isAssignable_union_right {f : Ty} {es : List Ty} (hf : f.isUnion = false) :
    isAssignable f (union es) = true ↔ ∃ e ∈ es, isAssignable f e = true := by
  rw [← anyAssignable_iff]
  unfold isAssignable
  cases f <;> simp_all [isUnion]

theorem isAssignable_tuple {fs es : List Ty} :
    isAssignable (tuple fs) (tuple es) = true ↔
      List.Forall₂ (fun f e => isAssignable f e = true) fs es := by
  have hrefl : List.Forall₂ (fun f e => isAssignable f e = true) fs fs :=
    List.forall₂_same.2 fun f _ => isAssignable_refl f
  rw [← pairsAssignable_iff] at hrefl ⊢
  rw [isAssignable]
  simp only [tuple.injEq, Bool.or_eq_true, decide_eq_true_eq]
  exact ⟨fun h => h.elim (fun heq => heq ▸ hrefl) id, .inr⟩

/-- Without unions, a tuple fits only a tuple, and only what is undefined fits another type. -/
theorem isAssignable_basic {f e : Ty} (hf : f.isUnion = false) (he : e.isUnion = false) :
    isAssignable f e = true ↔
      (∃ fs es, f = tuple fs ∧ e = tuple es ∧
        List.Forall₂ (fun f e => isAssignable f e = true) fs es) ∨
      f = e ∨ f = undefined ∧ e = void := by
  cases f <;> cases e <;>
    simp_all [isUnion, isAssignable, pairsAssignable_iff, or_comm]

/-! ### Unions -/

/-- What fits a member of a union fits the union. -/
theorem isAssignable_of_mem {f e : Ty} {es : List Ty} (hfe : isAssignable f e = true)
    (he : e ∈ es) : isAssignable f (union es) = true := by
  cases hf : f.isUnion with
  | false => exact (isAssignable_union_right hf).2 ⟨e, he, hfe⟩
  | true =>
    obtain ⟨fs, rfl⟩ := exists_eq_union hf
    refine isAssignable_union.2 (.inr fun g hg => ?_)
    have hge : isAssignable g e = true := by
      rcases isAssignable_union.1 hfe with rfl | hall
      · exact isAssignable_of_mem (isAssignable_refl g) hg
      · exact hall g hg
    exact isAssignable_of_mem hge he
termination_by f

/-- The members of a union fit wherever the union does, also where it is the expected type. -/
theorem isAssignable_union_iff {fs : List Ty} {e : Ty} :
    isAssignable (union fs) e = true ↔ ∀ f ∈ fs, isAssignable f e = true := by
  refine isAssignable_union.trans ⟨?_, .inr⟩
  rintro (rfl | hall)
  · exact fun f hf => isAssignable_of_mem (isAssignable_refl f) hf
  · exact hall

mutual

/-- What fits is passed on. -/
theorem isAssignable_trans {a b c : Ty} (hab : isAssignable a b = true)
    (hbc : isAssignable b c = true) : isAssignable a c = true := by
  -- The first union of the three is opened: on the left each member has to fit, in the middle and
  -- on the right the one that was fitted.
  cases ha : a.isUnion with
  | true =>
    obtain ⟨as, rfl⟩ := exists_eq_union ha
    refine isAssignable_union_iff.2 fun f hf => ?_
    exact isAssignable_trans (isAssignable_union_iff.1 hab f hf) hbc
  | false =>
    cases hb : b.isUnion with
    | true =>
      obtain ⟨bs, rfl⟩ := exists_eq_union hb
      obtain ⟨m, hm, ham⟩ := (isAssignable_union_right ha).1 hab
      exact isAssignable_trans ham (isAssignable_union_iff.1 hbc m hm)
    | false =>
      cases hc : c.isUnion with
      | true =>
        obtain ⟨cs, rfl⟩ := exists_eq_union hc
        obtain ⟨m, hm, hbm⟩ := (isAssignable_union_right hb).1 hbc
        exact isAssignable_of_mem (isAssignable_trans hab hbm) hm
      | false =>
        rcases (isAssignable_basic ha hb).1 hab with ⟨as, bs, rfl, rfl, has⟩ | rfl | ⟨rfl, rfl⟩
        · rcases (isAssignable_basic hb hc).1 hbc with ⟨_, cs, ⟨⟩, rfl, hbs⟩ | rfl | ⟨⟨⟩, _⟩
          · exact isAssignable_tuple.2 (forall₂_isAssignable_trans has hbs)
          · exact hab
        · exact hbc
        · rcases (isAssignable_basic hb hc).1 hbc with ⟨_, _, ⟨⟩, _⟩ | rfl | ⟨⟨⟩, _⟩
          exact hab
termination_by sizeOf a + sizeOf b + sizeOf c

theorem forall₂_isAssignable_trans {as bs cs : List Ty}
    (has : List.Forall₂ (fun f e => isAssignable f e = true) as bs)
    (hbs : List.Forall₂ (fun f e => isAssignable f e = true) bs cs) :
    List.Forall₂ (fun f e => isAssignable f e = true) as cs := by
  cases has with
  | nil => exact hbs
  | cons ha has =>
    cases hbs with
    | cons hb hbs => exact .cons (isAssignable_trans ha hb) (forall₂_isAssignable_trans has hbs)
termination_by sizeOf as + sizeOf bs + sizeOf cs

end

/-- **Types are ordered by what can be stored where, and unions are upper bounds.** Every type fits
itself, what fits is passed on, a union takes each of its members, and it fits exactly where all of
them do. -/
theorem isAssignable_preorder :
    (∀ a : Ty, a.isAssignable a = true) ∧
    (∀ a b c : Ty, a.isAssignable b = true → b.isAssignable c = true →
      a.isAssignable c = true) ∧
    (∀ (members : List Ty), ∀ m ∈ members, m.isAssignable (union members) = true) ∧
    ∀ (members : List Ty) (b : Ty), (union members).isAssignable b = true ↔
      ∀ m ∈ members, m.isAssignable b = true :=
  ⟨isAssignable_refl, fun _ _ _ => isAssignable_trans,
    fun _ m hm => isAssignable_of_mem (isAssignable_refl m) hm, fun _ _ => isAssignable_union_iff⟩

/-- Three types, each of which fits the next one: a pair of which nothing can be the first value, a
pair of a number and of nothing returned, and a union that has the second among its members. -/
theorem isAssignable_preorder_pair :
    (tuple [union [], undefined]).isAssignable (tuple [number, void]) = true ∧
      tuple [number, void] ∈ [string, tuple [number, void]] ∧
      (tuple [union [], undefined]).isAssignable (union [string, tuple [number, void]]) = true := by
  have hpair : (tuple [union [], undefined]).isAssignable (tuple [number, void]) = true := by
    simp [isAssignable, pairsAssignable, allAssignable]
  have hmem : tuple [number, void] ∈ [string, tuple [number, void]] := by simp
  obtain ⟨-, htrans, hbound, -⟩ := isAssignable_preorder
  exact ⟨hpair, hmem, htrans _ _ _ hpair (hbound _ _ hmem)⟩

end LuaTranspiler.Ty
