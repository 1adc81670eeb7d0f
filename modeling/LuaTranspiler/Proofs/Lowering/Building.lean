import LuaTranspiler.Lowering.Tree
import Mathlib.Order.Nat

/-!
# What is built stays as it was recorded

Lowering numbers its nodes one after the other and records where each comes from. No number is
given twice, so a record still stands when everything is built, and what holds of the parts of a
tree by their records holds of them in the finished tree.

* `Grows st st'`: a later state keeps what an earlier one has recorded
* `Covers p st st'`: the records `p` agree with what was recorded between two states
* `Builds p m post`: what `m` builds satisfies `post` if `p` agrees with what `m` recorded
-/

namespace LuaTranspiler.Lowering

/-- The state `st'` numbers on from `st` and keeps its records. -/
structure Grows (st st' : State) : Prop where
  le : st.nextId ≤ st'.nextId
  kept : ∀ i < st.nextId, st'.provenance.get? i = st.provenance.get? i

theorem Grows.refl (st : State) : Grows st st := ⟨le_rfl, fun _ _ => rfl⟩

theorem Grows.trans {st st₁ st₂ : State} (h : Grows st st₁) (h' : Grows st₁ st₂) :
    Grows st st₂ := by
  refine ⟨h.le.trans h'.le, fun i hi => ?_⟩
  rw [h'.kept i (hi.trans_le h.le), h.kept i hi]

/-- The records `p` agree with those made between two states. -/
def Covers (p : Provenance) (st st' : State) : Prop :=
  ∀ i, st.nextId ≤ i → i < st'.nextId → p.get? i = st'.provenance.get? i

/-- What was recorded before a state between the two, and what was recorded behind it. -/
theorem Covers.split {p : Provenance} {st st₁ st₂ : State} (h : Covers p st st₂)
    (hle : st.nextId ≤ st₁.nextId) (hgrows : Grows st₁ st₂) :
    Covers p st st₁ ∧ Covers p st₁ st₂ := by
  constructor
  · intro i hlo hhi
    rw [h i hlo (hhi.trans_le hgrows.le), hgrows.kept i hhi]
  · intro i hlo hhi
    exact h i (hle.trans hlo) hhi

variable {α β : Type} {p : Provenance} {m : Lower α} {f : α → Lower β} {post : α → Prop}
  {post' : β → Prop}

/-- If `m` succeeds, then what it builds satisfies `post` under all records that agree with what it
has recorded, and it keeps what was recorded before. -/
def Builds (p : Provenance) (m : Lower α) (post : α → Prop) : Prop :=
  ∀ st a st', m st = .ok a st' → Grows st st' ∧ (Covers p st st' → post a)

namespace Builds

theorem mono {post' : α → Prop} (h : Builds p m post) (himp : ∀ a, post a → post' a) :
    Builds p m post' := by
  intro st a st' hm
  obtain ⟨hgrows, hpost⟩ := h st a st' hm
  exact ⟨hgrows, fun hp => himp a (hpost hp)⟩

theorem pure {a : α} (h : post a) : Builds p (pure a) post := by
  rintro st _ _ ⟨⟩
  exact ⟨.refl st, fun _ => h⟩

theorem throw {e : Error} : Builds p (throw e) post := by
  rintro st _ _ ⟨⟩

/-- Whether `post` holds of the first result is known only when all is built, so it comes as a
premise of what is shown of the second. -/
theorem bind (hm : Builds p m post) (hf : ∀ a, Builds p (f a) fun b => post a → post' b) :
    Builds p (m >>= f) post' := by
  intro st b st₂ h
  simp only [Bind.bind, EStateM.bind] at h
  split at h
  next a st₁ ha =>
    obtain ⟨hgrows, hpost⟩ := hm st a st₁ ha
    obtain ⟨hgrows', hpost'⟩ := hf a st₁ b st₂ h
    refine ⟨hgrows.trans hgrows', fun hp => ?_⟩
    obtain ⟨hp₁, hp₂⟩ := hp.split hgrows.le hgrows'
    exact hpost' hp₂ (hpost hp₁)
  next => cases h

theorem map {g : α → β} (hm : Builds p m fun a => post' (g a)) : Builds p (g <$> m) post' := by
  intro st b st' h
  simp only [Functor.map, EStateM.map] at h
  split at h
  next a st₁ ha =>
    cases h
    exact hm st a st' ha
  next => cases h

/-- A node is recorded with its span. -/
theorem node {span : Span} {build : Nat → α}
    (h : ∀ id, p.get? id = some span → post (build id)) : Builds p (node span build) post := by
  rintro st _ _ ⟨⟩
  refine ⟨⟨Nat.le_succ _, fun i hi => ?_⟩, fun hp => h st.nextId ?_⟩
  · simp [hi.ne']
  · rw [hp st.nextId le_rfl (Nat.lt_succ_self _)]
    simp

theorem diagnose {d : Diagnostic} : Builds p (diagnose d) fun _ => True := by
  rintro st _ _ ⟨⟩
  exact ⟨⟨le_rfl, fun _ _ => rfl⟩, fun _ => trivial⟩

theorem ofExcept {r : Except Error α} : Builds p (ofExcept r) fun a => r = .ok a := by
  cases r with
  | ok a =>
    rintro st _ _ ⟨⟩
    exact ⟨.refl st, fun _ => rfl⟩
  | error e => rintro st _ _ ⟨⟩

/-- What is built is in particular the result of some run. -/
theorem result (h : Builds p m post) :
    Builds p m fun a => (∃ st st', m st = .ok a st') ∧ post a := by
  intro st a st' hm
  obtain ⟨hgrows, hpost⟩ := h st a st' hm
  exact ⟨hgrows, fun hp => ⟨⟨st, st', hm⟩, hpost hp⟩⟩

end Builds

end LuaTranspiler.Lowering
