import LuaTranspiler.Text.Blank
import Mathlib.Data.List.Basic

/-!
# The words of a text

A text consists of words and the blanks before, between and behind them, in one way only. So the
words can be said without the scan that finds them, and they come apart where texts are joined by
blanks.

* `IsWord`: a word
* `Spaced ws cs`: the words `ws` with blanks between them make up `cs`
* `wordLists_eq_iff`: the scan finds exactly these words
* `words_intercalate`: the words of joined texts
-/

namespace LuaTranspiler.Text

variable {c : Char} {cs ds gap rest w : List Char} {ws : List (List Char)}

/-- A word is not empty and has no blanks. -/
def IsWord (w : List Char) : Prop := w ≠ [] ∧ ∀ c ∈ w, isBlank c = false

instance (w : List Char) : Decidable (IsWord w) :=
  decidable_of_iff (w ≠ [] ∧ w.all (fun c => !isBlank c) = true) (by simp [IsWord])

/-- Words with blanks between them make up a text. There may be blanks before the first and behind
the last. -/
inductive Spaced : List (List Char) → List Char → Prop
  | nil {gap : List Char} : (∀ c ∈ gap, isBlank c = true) → Spaced [] gap
  | cons {gap w rest : List Char} {ws : List (List Char)} : (∀ c ∈ gap, isBlank c = true) →
      IsWord w → (∀ c ∈ rest.head?, isBlank c = true) → Spaced ws rest →
      Spaced (w :: ws) (gap ++ (w ++ rest))

namespace Spaced

theorem isWord (h : Spaced ws cs) : ∀ w ∈ ws, IsWord w := by
  induction h with
  | nil => simp
  | cons _ hw _ _ ih => exact List.forall_mem_cons.2 ⟨hw, ih⟩

theorem blank (h : Spaced ws cs) (hc : isBlank c = true) : Spaced ws (c :: cs) := by
  cases h with
  | nil hgap => exact .nil (List.forall_mem_cons.2 ⟨hc, hgap⟩)
  | cons hgap hw hrest h =>
    exact .cons (List.forall_mem_cons.2 ⟨hc, hgap⟩) hw hrest h

end Spaced

/-! ### What the scan finds -/

theorem wordLists_eq (cs : List Char) :
    wordLists cs =
      if (splitWord cs).1 = [] then (splitWord cs).2 else (splitWord cs).1 :: (splitWord cs).2 :=
  rfl

@[simp] theorem wordLists_nil : wordLists [] = [] := rfl

theorem wordLists_blank (hc : isBlank c = true) : wordLists (c :: cs) = wordLists cs := by
  simp [wordLists_eq, splitWord, hc]

/-- The scan splits a text into the rest of a word and a text of further words. -/
theorem exists_of_splitWord (cs : List Char) :
    ∃ rest, cs = (splitWord cs).1 ++ rest ∧ (∀ c ∈ (splitWord cs).1, isBlank c = false) ∧
      (∀ c ∈ rest.head?, isBlank c = true) ∧ Spaced (splitWord cs).2 rest := by
  induction cs with
  | nil => exact ⟨[], rfl, by simp [splitWord], by simp, .nil (by simp)⟩
  | cons c cs ih =>
    obtain ⟨rest, hcs, hword, hrest, hspaced⟩ := ih
    cases hc : isBlank c with
    | false =>
      simp only [splitWord, hc, Bool.false_eq_true, if_false]
      exact ⟨rest, congrArg _ hcs, List.forall_mem_cons.2 ⟨hc, hword⟩, hrest, hspaced⟩
    | true =>
      simp only [splitWord, hc, if_true]
      refine ⟨c :: cs, rfl, by simp, by simpa using hc, ?_⟩
      split
      next hnil =>
        rw [hnil, List.nil_append] at hcs
        exact hcs ▸ hspaced.blank hc
      next hne =>
        have h := Spaced.cons (by simpa using hc : ∀ d ∈ [c], isBlank d = true) ⟨hne, hword⟩ hrest
          hspaced
        rwa [← hcs] at h

/-- The words that the scan finds make up the text. -/
theorem spaced_wordLists (cs : List Char) : Spaced (wordLists cs) cs := by
  obtain ⟨rest, hcs, hword, hrest, hspaced⟩ := exists_of_splitWord cs
  rw [wordLists_eq]
  split
  next hnil =>
    rw [hnil, List.nil_append] at hcs
    exact hcs ▸ hspaced
  next hne =>
    have h := Spaced.cons (List.forall_mem_nil _) ⟨hne, hword⟩ hrest hspaced
    rwa [← hcs] at h

/-! ### Where texts are joined -/

/-- A blank parts the words before it from those behind it. -/
theorem splitWord_append_blank (hc : isBlank c = true) :
    splitWord (cs ++ c :: ds) = ((splitWord cs).1, (splitWord cs).2 ++ wordLists ds) := by
  induction cs with
  | nil => simp [splitWord, wordLists_eq, hc]
  | cons d cs ih =>
    cases hd : isBlank d with
    | false => simp [splitWord, ih, hd]
    | true =>
      simp only [List.cons_append, splitWord, ih, hd, if_true]
      split <;> rfl

theorem wordLists_append_blank (hc : isBlank c = true) :
    wordLists (cs ++ c :: ds) = wordLists cs ++ wordLists ds := by
  rw [wordLists_eq, splitWord_append_blank hc, wordLists_eq cs]
  split <;> rfl

theorem wordLists_gap (hgap : ∀ c ∈ gap, isBlank c = true) :
    wordLists (gap ++ cs) = wordLists cs := by
  induction gap with
  | nil => rfl
  | cons c gap ih =>
    obtain ⟨hc, hgap⟩ := List.forall_mem_cons.1 hgap
    rw [List.cons_append, wordLists_blank hc, ih hgap]

theorem wordLists_word (hw : IsWord w) : wordLists w = [w] := by
  have hsplit : ∀ v, (∀ c ∈ v, isBlank c = false) → splitWord v = (v, []) := by
    intro v hv
    induction v with
    | nil => rfl
    | cons c v ih =>
      obtain ⟨hc, hv⟩ := List.forall_mem_cons.1 hv
      simp [splitWord, ih hv, hc]
  simp [wordLists_eq, hsplit w hw.2, hw.1]

/-- The words of a text are the only ones that make it up. -/
theorem wordLists_eq_iff : wordLists cs = ws ↔ Spaced ws cs := by
  constructor
  · rintro rfl
    exact spaced_wordLists cs
  · intro h
    induction h with
    | @nil gap hgap => rw [← List.append_nil gap, wordLists_gap hgap, wordLists_nil]
    | @cons gap w rest ws hgap hw hrest _ ih =>
      rw [wordLists_gap hgap]
      cases rest with
      | nil => simpa [wordLists_word hw] using ih.symm
      | cons c rest =>
        have hc : isBlank c = true := hrest c rfl
        rw [wordLists_append_blank hc, wordLists_word hw, ← wordLists_blank hc, ih]
        rfl

/-! ### Strings -/

theorem words_eq_iff {s : String} {ws : List String} :
    words s = ws ↔ Spaced (ws.map String.toList) s.toList := by
  rw [← wordLists_eq_iff, words]
  constructor
  · rintro rfl
    simp
  · intro h
    simp [h]

theorem words_word {s : String} (hs : IsWord s.toList) : words s = [s] := by
  simp [words, wordLists_word hs]

/-- The words of texts with single blanks between them are the words of the texts. -/
theorem words_intercalate (ss : List String) : words (" ".intercalate ss) = ss.flatMap words := by
  induction ss with
  | nil => simp [words, wordLists_eq, splitWord]
  | cons s ss ih =>
    cases ss with
    | nil => simp
    | cons t ss =>
      have hjoined : (" ".intercalate (s :: t :: ss)).toList =
          s.toList ++ ' ' :: (" ".intercalate (t :: ss)).toList := by
        simp [String.intercalate_cons_cons]
      rw [List.flatMap_cons, ← ih, words, hjoined, wordLists_append_blank (by decide),
        List.map_append]
      rfl

/-- Joining words by single blanks keeps them. -/
theorem words_intercalate_words {ws : List String} (hws : ∀ w ∈ ws, IsWord w.toList) :
    words (" ".intercalate ws) = ws := by
  rw [words_intercalate]
  induction ws with
  | nil => rfl
  | cons w ws ih =>
    obtain ⟨hw, hws⟩ := List.forall_mem_cons.1 hws
    rw [List.flatMap_cons, words_word hw, ih hws]
    rfl

end LuaTranspiler.Text
