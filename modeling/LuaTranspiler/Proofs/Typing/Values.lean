import LuaTranspiler.Number.Binary64
import LuaTranspiler.Proofs.Typing.Assignability
import Mathlib.Data.Set.Lattice
import Mathlib.Order.CompletePartialOrder

/-!
# Types as sets of values

A type stands for a set of values. Which values there are is left open: numbers, strings, booleans
and undefined values are told apart, there is one more value that a function without a result may
return, and lists of values are values again.

* `Sorts`: the values of each sort
* `Sorts.values`: the set that a type stands for
* `Sorts.values_subset`: what fits is included
* `Ty.regular`: unions are not empty and have no tuples among their members
* `Sorts.isAssignable_of_subset`: between regular types, what is included fits

A tuple in a union is left out because its values can be shared out among several members, and a
tuple with an empty union in it has no values at all.
-/

namespace LuaTranspiler

universe u

/-- The values of each sort. No value is of two sorts, and lists with other items are others. -/
structure Sorts (V : Type u) where
  number : Set V
  string : Set V
  boolean : Set V
  undefined : Set V
  /-- What there can be besides undefined values where nothing is returned. -/
  extra : V
  list : List V → V
  nonempty : ∀ sort ∈ [number, string, boolean, undefined], sort.Nonempty
  list_injective : Function.Injective list
  disjoint : [number, string, boolean, undefined, {extra}, Set.range list].Pairwise Disjoint

/-- Values of a small language. -/
inductive Value where
  | number (x : Binary64)
  | string (s : String)
  | boolean (b : Bool)
  | undefined
  | nothing
  | list (items : List Value)
  | object (name : String)

/-- The sorts of the values of the small language. Objects are of no sort. -/
def Value.sorts : Sorts Value where
  number := Set.range number
  string := Set.range string
  boolean := Set.range boolean
  undefined := {undefined}
  extra := nothing
  list := list
  nonempty := by
    simp only [List.forall_mem_cons]
    exact ⟨⟨_, .zero, rfl⟩, ⟨_, "", rfl⟩, ⟨_, true, rfl⟩, Set.singleton_nonempty _,
      List.forall_mem_nil _⟩
  list_injective := fun _ _ h => by injection h
  disjoint := by simp [Set.disjoint_left]

namespace Ty

/-! ### Regular types -/

mutual

/-- Whether a type has no tuple in it and no empty union. -/
def flat : Ty → Bool
  | number | string | boolean | undefined | void => true
  | union ts => !ts.isEmpty && allFlat ts
  | tuple _ => false

/-- The same for all types of a list. -/
def allFlat : List Ty → Bool
  | [] => true
  | t :: ts => flat t && allFlat ts

end

mutual

/-- Whether every union in a type has a member and has no tuple among its members, nor among the
members of a union that is a member of it. -/
def regular : Ty → Bool
  | number | string | boolean | undefined | void => true
  | union ts => flat (union ts)
  | tuple ts => allRegular ts

/-- The same for all types of a list. -/
def allRegular : List Ty → Bool
  | [] => true
  | t :: ts => regular t && allRegular ts

end

theorem flat_union {ts : List Ty} :
    flat (union ts) = true ↔ ts ≠ [] ∧ ∀ t ∈ ts, flat t = true := by
  have hall : allFlat ts = true ↔ ∀ t ∈ ts, flat t = true := by
    induction ts with
    | nil => simp [allFlat]
    | cons t ts ih => simp [allFlat, ih]
  simp [flat, hall]

theorem regular_tuple {ts : List Ty} :
    regular (tuple ts) = true ↔ ∀ t ∈ ts, regular t = true := by
  rw [regular]
  induction ts with
  | nil => simp [allRegular]
  | cons t ts ih => simp [allRegular, ih]

theorem regular_of_flat {t : Ty} (h : t.flat = true) : t.regular = true := by
  cases t with
  | number | string | boolean | undefined | void => rfl
  | union => exact h
  | tuple => cases h

end Ty

namespace Sorts

variable {V : Type u} (s : Sorts V)

mutual

/-- The values of a type. -/
def values : Ty → Set V
  | .number => s.number
  | .string => s.string
  | .boolean => s.boolean
  | .undefined => s.undefined
  | .void => insert s.extra s.undefined
  | .union ts => anyValues ts
  | .tuple ts => Set.image s.list (eachValues ts)

/-- The values of all types of a list together. -/
def anyValues : List Ty → Set V
  | [] => ∅
  | t :: ts => values t ∪ anyValues ts

/-- The lists that have one value of each type of a list, in order. -/
def eachValues : List Ty → Set (List V)
  | [] => {[]}
  | t :: ts => Set.image2 List.cons (values t) (eachValues ts)

end

variable {s}

theorem mem_union {ts : List Ty} {v : V} :
    v ∈ s.values (.union ts) ↔ ∃ t ∈ ts, v ∈ s.values t := by
  rw [values]
  induction ts with
  | nil => simp [anyValues]
  | cons t ts ih => simp [anyValues, ih]

theorem cons_mem_eachValues {t : Ty} {ts : List Ty} {v : V} {vs : List V} :
    v :: vs ∈ s.eachValues (t :: ts) ↔ v ∈ s.values t ∧ vs ∈ s.eachValues ts := by
  simp [eachValues]

theorem mem_tuple {ts : List Ty} {v : V} :
    v ∈ s.values (.tuple ts) ↔ ∃ vs ∈ s.eachValues ts, s.list vs = v := by
  rw [values, Set.mem_image]

/-! ### What fits is included -/

mutual

/-- A value of a type is a value of every type where the first one fits. -/
theorem values_subset {f e : Ty} (h : f.isAssignable e = true) : s.values f ⊆ s.values e := by
  cases hf : f.isUnion with
  | true =>
    obtain ⟨fs, rfl⟩ := Ty.exists_eq_union hf
    intro v hv
    obtain ⟨g, hg, hvg⟩ := mem_union.1 hv
    exact values_subset (Ty.isAssignable_union_iff.1 h g hg) hvg
  | false =>
    cases he : e.isUnion with
    | true =>
      obtain ⟨es, rfl⟩ := Ty.exists_eq_union he
      obtain ⟨m, hm, hfm⟩ := (Ty.isAssignable_union_right hf).1 h
      exact fun v hv => mem_union.2 ⟨m, hm, values_subset hfm hv⟩
    | false =>
      rcases (Ty.isAssignable_basic hf he).1 h with ⟨fs, es, rfl, rfl, hall⟩ | rfl | ⟨rfl, rfl⟩
      · rw [values, values]
        exact Set.image_mono (eachValues_subset hall)
      · exact subset_rfl
      · rw [values, values]
        exact Set.subset_insert _ _
termination_by sizeOf f + sizeOf e

theorem eachValues_subset {fs es : List Ty}
    (h : List.Forall₂ (fun f e => f.isAssignable e = true) fs es) :
    s.eachValues fs ⊆ s.eachValues es := by
  cases h with
  | nil => exact subset_rfl
  | cons hf hfs =>
    rw [eachValues, eachValues]
    exact Set.image2_subset (values_subset hf) (eachValues_subset hfs)
termination_by sizeOf fs + sizeOf es

end

/-! ### Typical values -/

variable (s) in
/-- No value is of two sorts. -/
theorem apart :
    (∀ v ∈ s.number, v ∉ s.string ∧ v ∉ s.boolean ∧ v ∉ s.undefined ∧ v ≠ s.extra ∧
      v ∉ Set.range s.list) ∧
    (∀ v ∈ s.string, v ∉ s.boolean ∧ v ∉ s.undefined ∧ v ≠ s.extra ∧ v ∉ Set.range s.list) ∧
    (∀ v ∈ s.boolean, v ∉ s.undefined ∧ v ≠ s.extra ∧ v ∉ Set.range s.list) ∧
    (∀ v ∈ s.undefined, v ≠ s.extra ∧ v ∉ Set.range s.list) ∧
    s.extra ∉ Set.range s.list := by
  have h := s.disjoint
  simp only [List.pairwise_cons, List.forall_mem_cons, Set.disjoint_left] at h
  grind

/-- Unions apart, the sort of a value leaves at most two forms for its types. -/
theorem mem_values_cases {e : Ty} (he : e.isUnion = false) {v : V} (hv : v ∈ s.values e) :
    e = .number ∧ v ∈ s.number ∨ e = .string ∧ v ∈ s.string ∨ e = .boolean ∧ v ∈ s.boolean ∨
      (e = .undefined ∨ e = .void) ∧ v ∈ s.undefined ∨ e = .void ∧ v = s.extra ∨
      (∃ ts, e = .tuple ts) ∧ v ∈ Set.range s.list := by
  cases e with
  | number | string | boolean | undefined => simp_all [values]
  | void =>
    rcases hv with rfl | hv
    · simp
    · simp [hv]
  | union => cases he
  | tuple ts =>
    obtain ⟨vs, -, rfl⟩ := mem_tuple.1 hv
    simp

/-- What fits all types of a value that are no unions fits all its types. -/
theorem isAssignable_of_mem_values {f : Ty} {v : V}
    (h : ∀ e, e.isUnion = false → v ∈ s.values e → f.isAssignable e = true) :
    ∀ e, v ∈ s.values e → f.isAssignable e = true
  | .union es, hv => by
    obtain ⟨e, he, hve⟩ := mem_union.1 hv
    exact Ty.isAssignable_of_mem (isAssignable_of_mem_values h e hve) he
  | .number, hv | .string, hv | .boolean, hv | .undefined, hv | .void, hv | .tuple _, hv =>
    h _ rfl hv

/-- Every basic type has a value that is in no other types than those where the basic type fits. -/
theorem exists_typical {f : Ty} (hflat : f.flat = true) (hunion : f.isUnion = false) :
    ∃ v ∈ s.values f, ∀ e, v ∈ s.values e → f.isAssignable e = true := by
  -- any value will do, only for `void` it must not be an undefined one
  obtain ⟨v, hv, hextra⟩ : ∃ v ∈ s.values f, f = .void → v = s.extra := by
    obtain ⟨hn, ht, hb, hu⟩ : s.number.Nonempty ∧ s.string.Nonempty ∧ s.boolean.Nonempty ∧
        s.undefined.Nonempty := by simpa using s.nonempty
    cases f with
    | number => exact hn.imp fun v hv => ⟨hv, nofun⟩
    | string => exact ht.imp fun v hv => ⟨hv, nofun⟩
    | boolean => exact hb.imp fun v hv => ⟨hv, nofun⟩
    | undefined => exact hu.imp fun v hv => ⟨hv, nofun⟩
    | void => exact ⟨s.extra, Set.mem_insert _ _, fun _ => rfl⟩
    | union => cases hunion
    | tuple => cases hflat
  refine ⟨v, hv, isAssignable_of_mem_values fun e he hve => ?_⟩
  have hundefined : Ty.undefined.isAssignable .void = true := by simp [Ty.isAssignable]
  have hfound := mem_values_cases hunion hv
  have hexpected := mem_values_cases he hve
  grind [apart, Ty.isAssignable_refl, Ty.flat]

theorem isAssignable_of_subset_basic {f e : Ty} (hflat : f.flat = true) (hunion : f.isUnion = false)
    (h : s.values f ⊆ s.values e) : f.isAssignable e = true := by
  obtain ⟨v, hv, htypical⟩ := exists_typical hflat hunion
  exact htypical e (h hv)

/-! ### Types without values -/

theorem nonempty_of_flat : ∀ t : Ty, t.flat = true → (s.values t).Nonempty
  | .union [], h => nomatch h
  | .union (t :: ts), h => by
    obtain ⟨v, hv⟩ := nonempty_of_flat t ((Ty.flat_union.1 h).2 t (by simp))
    exact ⟨v, mem_union.2 ⟨t, by simp, hv⟩⟩
  | .number, h | .string, h | .boolean, h | .undefined, h | .void, h =>
    (exists_typical h rfl).imp fun _ hv => hv.1

theorem eachValues_nonempty {ts : List Ty} (h : ∀ t ∈ ts, (s.values t).Nonempty) :
    (s.eachValues ts).Nonempty := by
  induction ts with
  | nil => exact Set.singleton_nonempty _
  | cons t ts ih =>
    obtain ⟨ht, hts⟩ := List.forall_mem_cons.1 h
    rw [eachValues]
    exact ht.image2 (ih hts)

theorem nonempty_of_regular : ∀ t : Ty, t.regular = true → (s.values t).Nonempty
  | .tuple ts, h => by
    rw [values]
    refine (eachValues_nonempty fun t ht => ?_).image _
    exact nonempty_of_regular t (Ty.regular_tuple.1 h t ht)
  | .number, _ | .string, _ | .boolean, _ | .undefined, _ | .void, _ => nonempty_of_flat _ rfl
  | .union _, h => nonempty_of_flat _ h

/-! ### What is included fits -/

theorem list_notMem_of_flat {vs : List V} : ∀ t : Ty, t.flat = true → s.list vs ∉ s.values t
  | .union ts, h, hv => by
    obtain ⟨t, ht, hvt⟩ := mem_union.1 hv
    exact list_notMem_of_flat t ((Ty.flat_union.1 h).2 t ht) hvt
  | .number, _, hv | .string, _, hv | .boolean, _, hv | .undefined, _, hv | .void, _, hv => by
    have hcases := mem_values_cases rfl hv
    grind [apart]

/-- Lists with one value of each type are included only type by type. For the inclusion of one type
the other places are filled with any values. -/
theorem forall₂_subset {fs es : List Ty} (hfs : ∀ f ∈ fs, (s.values f).Nonempty)
    (h : s.eachValues fs ⊆ s.eachValues es) :
    List.Forall₂ (fun f e => s.values f ⊆ s.values e) fs es := by
  induction fs generalizing es with
  | nil =>
    have hnil : [] ∈ s.eachValues es := h rfl
    cases es with
    | nil => exact .nil
    | cons => simp [eachValues] at hnil
  | cons f fs ih =>
    obtain ⟨⟨v, hv⟩, hfs⟩ := List.forall_mem_cons.1 hfs
    obtain ⟨vs, hvs⟩ := eachValues_nonempty hfs
    cases es with
    | nil => cases h (cons_mem_eachValues.2 ⟨hv, hvs⟩)
    | cons e es =>
      refine .cons (fun w hw => ?_) (ih hfs fun ws hws => ?_)
      · exact (cons_mem_eachValues.1 (h (cons_mem_eachValues.2 ⟨hw, hvs⟩))).1
      · exact (cons_mem_eachValues.1 (h (cons_mem_eachValues.2 ⟨hv, hws⟩))).2

mutual

/-- A regular type fits every regular type that has all its values. -/
theorem isAssignable_of_subset {f e : Ty} (hf : f.regular = true) (he : e.regular = true)
    (h : s.values f ⊆ s.values e) : f.isAssignable e = true := by
  cases f with
  | number | string | boolean | undefined | void => exact isAssignable_of_subset_basic rfl rfl h
  | union fs =>
    refine Ty.isAssignable_union_iff.2 fun g hg => ?_
    have hflat := (Ty.flat_union.1 hf).2 g hg
    have hsubset : s.values g ⊆ s.values e := fun v hv => h (mem_union.2 ⟨g, hg, hv⟩)
    exact isAssignable_of_subset (Ty.regular_of_flat hflat) he hsubset
  | tuple fs =>
    obtain ⟨v, hv⟩ := nonempty_of_regular _ hf
    obtain ⟨vs, -, rfl⟩ := mem_tuple.1 hv
    cases e with
    | number | string | boolean | undefined | void =>
      exact absurd (h hv) (list_notMem_of_flat _ rfl)
    | union es => exact absurd (h hv) (list_notMem_of_flat _ he)
    | tuple es =>
      rw [values, values, Set.image_subset_image_iff s.list_injective] at h
      have hfs := Ty.regular_tuple.1 hf
      have hsubset := forall₂_subset (fun g hg => nonempty_of_regular g (hfs g hg)) h
      exact Ty.isAssignable_tuple.2 (forall₂_isAssignable hfs (Ty.regular_tuple.1 he) hsubset)
termination_by sizeOf f

theorem forall₂_isAssignable {fs es : List Ty} (hfs : ∀ f ∈ fs, f.regular = true)
    (hes : ∀ e ∈ es, e.regular = true)
    (h : List.Forall₂ (fun f e => s.values f ⊆ s.values e) fs es) :
    List.Forall₂ (fun f e => f.isAssignable e = true) fs es := by
  cases h with
  | nil => exact .nil
  | cons hfe h =>
    obtain ⟨hf, hfs⟩ := List.forall_mem_cons.1 hfs
    obtain ⟨he, hes⟩ := List.forall_mem_cons.1 hes
    exact .cons (isAssignable_of_subset hf he hfe) (forall₂_isAssignable hfs hes h)
termination_by sizeOf fs

end

end Sorts

end LuaTranspiler
