import LuaTranspiler.Proofs.Target.Splitting
import LuaTranspiler.Proofs.Token.Respacing
import LuaTranspiler.Proofs.Typing.Annotations

/-!
# Types told apart by their texts

The members of a union are written with bars between them, those of a tuple with commas, and only
the array of a parameter that takes all remaining arguments puts a union in parentheses. A text
joined by a separator can be split again where no part holds a character of the separator. So in a
union of basic types, and in a tuple of such unions, the text tells the type; other nestings, which
no tag writes, can look the same.

* `intercalate_map_inj`: items told apart by a character of their separator
* `Ty.IsFlat`, `Ty.IsReturned`: the types that tags write
* `Ty.IsReturned.eq_of_text`, `Target.Param.eq_of_code`: types and parameters told from their texts
* `Lowering.eq_of_annotation_texts`: so are those that tags write
-/

namespace LuaTranspiler

/-! ### Joined texts -/

section Joined

variable {α : Type} {x : α} {as bs : List α}

/-- The part before the first occurrence of a value, and the part behind it. -/
theorem append_cons_inj {us vs : List α} (ha : x ∉ as) (hb : x ∉ bs)
    (h : as ++ x :: us = bs ++ x :: vs) : as = bs ∧ us = vs := by
  induction as generalizing bs with
  | nil =>
    cases bs with
    | nil => exact ⟨rfl, (List.cons.inj h).2⟩
    | cons b bs => exact absurd (by simp [(List.cons.inj h).1]) hb
  | cons a as ih =>
    cases bs with
    | nil => exact absurd (by simp [(List.cons.inj h).1]) ha
    | cons b bs =>
      obtain ⟨rfl, htail⟩ := List.cons.inj h
      obtain ⟨rfl, hrest⟩ := ih (List.not_mem_of_not_mem_cons ha) (List.not_mem_of_not_mem_cons hb)
        htail
      exact ⟨rfl, hrest⟩

/-- What is joined comes from the parts or from the separator. -/
theorem mem_intercalate {sep : List α} {ps : List (List α)} (h : x ∈ sep.intercalate ps) :
    (∃ p ∈ ps, x ∈ p) ∨ x ∈ sep := by
  induction ps with
  | nil => simp at h
  | cons p ps ih =>
    cases ps with
    | nil => exact .inl ⟨p, by simp, by simpa using h⟩
    | cons p' ps =>
      rw [List.intercalate_cons_cons, List.mem_append, List.mem_append] at h
      obtain (hp | hsep) | hps := h
      · exact .inl ⟨p, by simp, hp⟩
      · exact .inr hsep
      · exact (ih hps).imp_left fun ⟨q, hq, hx⟩ => ⟨q, List.mem_cons_of_mem _ hq, hx⟩

/-- Items that are told apart by their texts can be told from the joined text, where the separator
has a value that no text has. -/
theorem intercalate_map_inj {β : Type} (x : α) (before behind : List α) (hbefore : x ∉ before)
    {f : β → List α} {P : β → Prop} (hfree : ∀ i, P i → x ∉ f i)
    (hinj : ∀ i j, P i → P j → f i = f j → i = j) {is js : List β} (his : ∀ i ∈ is, P i)
    (hjs : ∀ j ∈ js, P j) (hne : is ≠ []) (hne' : js ≠ [])
    (h : (before ++ x :: behind).intercalate (is.map f) =
      (before ++ x :: behind).intercalate (js.map f)) : is = js := by
  have hsplit : ∀ (p p' : List α) (ps : List (List α)),
      (before ++ x :: behind).intercalate (p :: p' :: ps) =
        (p ++ before) ++ x :: (behind ++ (before ++ x :: behind).intercalate (p' :: ps)) := by
    simp
  have hpart : ∀ i, P i → x ∉ f i ++ before := fun i hi => by simp [hfree i hi, hbefore]
  induction is generalizing js with
  | nil => exact absurd rfl hne
  | cons i is ih =>
    obtain ⟨hi, his⟩ := List.forall_mem_cons.1 his
    obtain ⟨j, js, rfl⟩ := List.exists_cons_of_ne_nil hne'
    obtain ⟨hj, hjs⟩ := List.forall_mem_cons.1 hjs
    -- one text has no separator, and two or more have one
    rcases is with _ | ⟨i', is⟩ <;> rcases js with _ | ⟨j', js⟩
    · simpa using hinj i j hi hj (by simpa using h)
    · simp only [List.map_cons, List.map_nil, List.intercalate_singleton, hsplit] at h
      exact absurd (by simp [h]) (hfree i hi)
    · simp only [List.map_cons, List.map_nil, List.intercalate_singleton, hsplit] at h
      exact absurd (by simp [← h]) (hfree j hj)
    · simp only [List.map_cons, hsplit] at h
      obtain ⟨hhead, htail⟩ := append_cons_inj (hpart i hi) (hpart j hj) h
      rw [hinj i j hi hj (List.append_cancel_right hhead),
        ih his hjs (by simp) (by simp) (List.append_cancel_left htail)]

end Joined

/-! ### Types -/

namespace Ty

/-- Types that are neither unions nor tuples. -/
def IsBasic : Ty → Prop
  | number | string | boolean | undefined | void => True
  | union _ | tuple _ => False

/-- A basic type, or a union of two or more of them. -/
inductive IsFlat : Ty → Prop
  | basic {t : Ty} : t.IsBasic → IsFlat t
  | union {ts : List Ty} : 2 ≤ ts.length → (∀ t ∈ ts, t.IsBasic) → IsFlat (union ts)

/-- A basic type, a union of two or more of them, or a tuple of two or more such types. -/
inductive IsReturned : Ty → Prop
  | flat {t : Ty} : t.IsFlat → IsReturned t
  | tuple {ts : List Ty} : 2 ≤ ts.length → (∀ t ∈ ts, t.IsFlat) → IsReturned (tuple ts)

/-- The members of a union; any other type is its only member. -/
def members : Ty → List Ty
  | union ts => ts
  | t => [t]

theorem texts_eq_map (ts : List Ty) : texts ts = ts.map text := by
  induction ts with
  | nil => rfl
  | cons t ts ih => rw [texts, ih, List.map_cons]

/-- Joining the texts of types, as lists of characters. -/
theorem toList_intercalate_texts (sep : String) (ts : List Ty) :
    (sep.intercalate (texts ts)).toList =
      sep.toList.intercalate (ts.map fun t => t.text.toList) := by
  rw [texts_eq_map, String.toList_intercalate, List.map_map]
  rfl

variable {a b t : Ty} {c : Char}

namespace IsBasic

/-- The text of a basic type is a word of small letters. -/
theorem isLower_of_mem (h : t.IsBasic) (hc : c ∈ t.text.toList) : c.isLower = true := by
  have hall : t.text.toList.all Char.isLower = true := by
    cases t with
    | number | string | boolean | undefined | void => decide
    | union | tuple => exact h.elim
  exact List.all_eq_true.1 hall c hc

theorem eq_of_text (ha : a.IsBasic) (hb : b.IsBasic) (h : a.text.toList = b.text.toList) :
    a = b := by
  cases a <;> cases b <;> first | rfl | exact ha.elim | exact hb.elim | exact absurd h (by decide)

theorem members_eq (h : t.IsBasic) : t.members = [t] := by
  cases t with
  | number | string | boolean | undefined | void => rfl
  | union | tuple => exact h.elim

end IsBasic

namespace IsFlat

theorem isBasic_of_mem (h : t.IsFlat) {m : Ty} (hm : m ∈ t.members) : m.IsBasic := by
  cases h with
  | basic hbasic =>
    rw [hbasic.members_eq, List.mem_singleton] at hm
    exact hm ▸ hbasic
  | union _ hall => exact hall m hm

theorem members_ne_nil (h : t.IsFlat) : t.members ≠ [] := by
  cases h with
  | basic hbasic => simp [hbasic.members_eq]
  | union hlen =>
    rintro rfl
    simp at hlen

theorem toList_text (h : t.IsFlat) :
    t.text.toList = " | ".toList.intercalate (t.members.map fun m => m.text.toList) := by
  cases h with
  | basic hbasic => simp [hbasic.members_eq]
  | union => rw [text, toList_intercalate_texts, members]

/-- A type of one member is that member, and one of several is their union. -/
theorem eq_of_members (ha : a.IsFlat) (hb : b.IsFlat) (h : a.members = b.members) : a = b := by
  cases ha with
  | basic ha =>
    rw [ha.members_eq] at h
    cases hb with
    | basic hb => simpa [hb.members_eq] using h
    | @union ts hlen =>
      obtain rfl : [a] = ts := h
      simp at hlen
  | @union ts hlen =>
    cases hb with
    | basic hb =>
      obtain rfl : ts = [b] := h.trans hb.members_eq
      simp at hlen
    | union => exact congrArg _ h

/-- The text of a flat type has small letters, blanks and bars only. -/
theorem of_mem (h : t.IsFlat) (hc : c ∈ t.text.toList) :
    c.isLower = true ∨ c ∈ " | ".toList := by
  rw [h.toList_text] at hc
  obtain ⟨_, hpart, hc⟩ | hc := mem_intercalate hc
  · obtain ⟨m, hm, rfl⟩ := List.mem_map.1 hpart
    exact .inl ((h.isBasic_of_mem hm).isLower_of_mem hc)
  · exact .inr hc

/-- The text of a flat type starts with a small letter. -/
theorem exists_cons (h : t.IsFlat) : ∃ c cs, t.text.toList = c :: cs ∧ c.isLower = true := by
  obtain ⟨m, ms, hms⟩ := List.exists_cons_of_ne_nil h.members_ne_nil
  have hm : m.IsBasic := h.isBasic_of_mem (by simp [hms])
  have hne : m.text.toList ≠ [] := by
    cases m with
    | number | string | boolean | undefined | void => decide
    | union | tuple => exact hm.elim
  obtain ⟨c, cs, hcs⟩ := List.exists_cons_of_ne_nil hne
  have hlower : c.isLower = true := hm.isLower_of_mem (by simp [hcs])
  rw [h.toList_text, hms, List.map_cons, hcs]
  cases ms with
  | nil => exact ⟨c, cs, by simp, hlower⟩
  | cons m' ms => exact ⟨c, _, by rw [List.map_cons, List.intercalate_cons_cons]; rfl, hlower⟩

/-- A flat type can be told from its text. -/
theorem eq_of_text (ha : a.IsFlat) (hb : b.IsFlat) (h : a.text.toList = b.text.toList) :
    a = b := by
  rw [ha.toList_text, hb.toList_text] at h
  refine ha.eq_of_members hb ?_
  refine intercalate_map_inj '|' [' '] [' '] (by decide) (P := IsBasic) (fun m hm hbar => ?_)
    (fun m m' => IsBasic.eq_of_text) (fun m => ha.isBasic_of_mem) (fun m => hb.isBasic_of_mem)
    ha.members_ne_nil hb.members_ne_nil h
  exact absurd (hm.isLower_of_mem hbar) (by decide)

end IsFlat

/-- The types that tags write for returned values can be told from their texts. -/
theorem IsReturned.eq_of_text (ha : a.IsReturned) (hb : b.IsReturned) (h : a.text = b.text) :
    a = b := by
  have hflat : ∀ {t : Ty} {ts : List Ty}, t.IsFlat → t.text.toList ≠ (Ty.tuple ts).text.toList := by
    intro t ts ht heq
    obtain ⟨c, cs, hcs, hc⟩ := ht.exists_cons
    rw [hcs, text, String.toList_append, String.toList_append] at heq
    obtain ⟨rfl, -⟩ := List.cons.inj heq
    exact absurd hc (by decide)
  rw [← String.toList_inj] at h
  cases ha with
  | flat ha =>
    cases hb with
    | flat hb => exact ha.eq_of_text hb h
    | tuple => exact absurd h (hflat ha)
  | @tuple ts hlen hts =>
    cases hb with
    | flat hb => exact absurd h.symm (hflat hb)
    | @tuple us hlen' hus =>
      simp only [text, String.toList_append, toList_intercalate_texts, List.append_cancel_right_eq,
        List.append_cancel_left_eq] at h
      refine congrArg _ (intercalate_map_inj ',' [] [' '] (by simp) (P := IsFlat)
        (fun t ht hcomma => ?_) (fun t u => IsFlat.eq_of_text) hts hus ?_ ?_ h)
      · obtain hlower | hmem := ht.of_mem hcomma
        · exact absurd hlower (by decide)
        · exact absurd hmem (by decide)
      · rintro rfl
        simp at hlen
      · rintro rfl
        simp at hlen'

end Ty

/-! ### Types that tags write -/

namespace Lowering

theorem isBasic_basicType (span : Span) (name : String) (ty : Ty)
    (h : basicType span name = .ok ty) : ty.IsBasic := by
  unfold basicType basicType? at h
  split at h
  next t ht =>
    cases h
    split at ht <;> cases ht <;> trivial
  next => cases h

theorem isFlat_writtenType (span : Span) (s : String) (ty : Ty)
    (h : writtenType span s = .ok ty) : ty.IsFlat := by
  obtain hbasic | ⟨ts, rfl, hlength, hbasic⟩ := writtenType_cases (isBasic_basicType span) h
  · exact .basic hbasic
  · exact .union hlength hbasic

theorem isReturned_writtenReturnType {span : Span} {tags : List Tag} {ty : Ty}
    (h : writtenReturnType span tags = .ok ty) : ty.IsReturned := by
  obtain rfl | hflat | ⟨ts, rfl, hlength, hflat⟩ :=
    writtenReturnType_cases (isFlat_writtenType span) h
  · exact .flat (.basic trivial)
  · exact .flat hflat
  · exact .tuple hlength hflat

end Lowering

/-! ### Parameters -/

namespace Target.Param

open Piece

variable {p q : Param}

theorem chars_pieces (p : Param) :
    chars p.pieces =
      (if p.rest then ['.', '.', '.'] else []) ++ (p.name.toList ++ chars p.tyPieces) := by
  unfold pieces
  split <;> simp [Piece.text]

/-- How the type of a parameter is written: a union is put in parentheses before the brackets of an
array. -/
theorem chars_tyPieces_some (name : String) (rest : Bool) (t : Ty) :
    chars (tyPieces ⟨name, rest, some t⟩) = ':' :: ' ' ::
      if rest && t.isUnion then '(' :: (t.text.toList ++ [')', '[', ']'])
      else t.text.toList ++ if rest then ['[', ']'] else [] := by
  cases rest <;> cases t <;> simp [tyPieces, Piece.text, Ty.isUnion]

/-- Behind the name nothing follows, or a colon. -/
theorem eq_colon_of_tyPieces {c : Char} (h : c ∈ (chars p.tyPieces).head?) : c = ':' := by
  obtain ⟨name, rest, ty⟩ := p
  cases ty with
  | none => cases h
  | some t =>
    rw [chars_tyPieces_some] at h
    exact (Option.some.inj h).symm

/-- The type of a parameter can be told from what is written behind its name. -/
theorem ty_eq_of_tyPieces {name name' : String} {rest : Bool} {t u : Ty} (ht : t.IsFlat)
    (hu : u.IsFlat)
    (h : chars (tyPieces ⟨name, rest, some t⟩) = chars (tyPieces ⟨name', rest, some u⟩)) :
    t = u := by
  have hopen : ∀ {a : Ty} {cs ds : List Char}, a.IsFlat → '(' :: cs ≠ a.text.toList ++ ds := by
    intro a cs ds ha heq
    obtain ⟨c, tail, hcs, hc⟩ := ha.exists_cons
    rw [hcs] at heq
    obtain ⟨rfl, -⟩ := List.cons.inj heq
    exact absurd hc (by decide)
  rw [chars_tyPieces_some, chars_tyPieces_some] at h
  replace h := (List.cons.inj (List.cons.inj h).2).2
  -- only a union starts with a parenthesis
  cases ht' : rest && t.isUnion <;> cases hu' : rest && u.isUnion <;>
    simp only [ht', hu', if_true, Bool.false_eq_true, if_false] at h
  · exact ht.eq_of_text hu (List.append_cancel_right h)
  · exact absurd h.symm (hopen ht)
  · exact absurd h (hopen hu)
  · exact ht.eq_of_text hu (List.append_cancel_right (List.cons.inj h).2)

/-- The name is what comes before the colon. -/
theorem takeWhile_isNameChar (hp : IsName p.name) :
    (p.name.toList ++ chars p.tyPieces).takeWhile isNameChar = p.name.toList := by
  obtain ⟨c, tail, hname, hc, htail⟩ := hp
  refine takeWhile_append_of_stop ?_ fun d hd => ?_
  · rw [hname]
    exact List.forall_mem_cons.2 ⟨isNameChar_of_isNameStart hc, htail⟩
  · rw [eq_colon_of_tyPieces hd]
    decide

/-- Only a parameter that takes all remaining arguments starts with a point. -/
theorem cons_ne_append (hp : IsName p.name) {cs ds : List Char} :
    '.' :: cs ≠ p.name.toList ++ ds := by
  intro heq
  obtain ⟨c, tail, hname, hc, -⟩ := hp
  rw [hname] at heq
  obtain ⟨rfl, -⟩ := List.cons.inj heq
  exact absurd hc (by decide)

/-- A parameter whose type a tag can write is told from its text. -/
theorem eq_of_code (hp : IsName p.name) (hq : IsName q.name) (hpty : ∀ t ∈ p.ty, t.IsFlat)
    (hqty : ∀ t ∈ q.ty, t.IsFlat) (h : code p.pieces = code q.pieces) : p = q := by
  have hchars : chars p.pieces = chars q.pieces := congrArg String.toList h
  rw [chars_pieces, chars_pieces] at hchars
  have hrest : p.rest = q.rest := by
    cases hp' : p.rest <;> cases hq' : q.rest <;> simp only [hp', hq'] at hchars
    · rfl
    · exact absurd hchars.symm (cons_ne_append hp)
    · exact absurd hchars (cons_ne_append hq)
    · rfl
  rw [hrest] at hchars
  have hbehind := List.append_cancel_left hchars
  have hname : p.name = q.name := by
    rw [← String.toList_inj, ← takeWhile_isNameChar hp, hbehind, takeWhile_isNameChar hq]
  rw [hname] at hbehind
  have hty := List.append_cancel_left hbehind
  obtain ⟨name, rest, ty⟩ := p
  obtain ⟨name', rest', ty'⟩ := q
  obtain rfl : rest = rest' := hrest
  obtain rfl : name = name' := hname
  cases ty with
  | none =>
    cases ty' with
    | none => rfl
    | some u =>
      rw [chars_tyPieces_some] at hty
      cases hty
  | some t =>
    cases ty' with
    | none =>
      rw [chars_tyPieces_some] at hty
      cases hty
    | some u => rw [ty_eq_of_tyPieces (hpty t rfl) (hqty u rfl) hty]

end Target.Param

/-! ### Annotations -/

namespace Lowering

/-- The types that a tag can write. -/
def IsTagType (ty : Ty) : Prop := ∃ span s, writtenType span s = .ok ty

/-- The types that the tags of a function can write for what it returns. -/
def IsReturnType (ty : Ty) : Prop := ∃ span tags, writtenReturnType span tags = .ok ty

/-- **Type annotations survive printing.** Types that tags write are the same if their texts are, be
it the type of a variable or of what a function returns. So are parameters, whose texts tell their
names, whether they take all remaining arguments, and their types. -/
theorem eq_of_annotation_texts :
    (∀ a b : Ty, (IsTagType a ∨ IsReturnType a) → (IsTagType b ∨ IsReturnType b) →
      a.text = b.text → a = b) ∧
    ∀ p q : Target.Param, IsName p.name → IsName q.name → (∀ t ∈ p.ty, IsTagType t) →
      (∀ t ∈ q.ty, IsTagType t) → Piece.code p.pieces = Piece.code q.pieces → p = q := by
  have hflat : ∀ {t : Ty}, IsTagType t → t.IsFlat :=
    fun ⟨span, s, h⟩ => isFlat_writtenType span s _ h
  have hreturned : ∀ {t : Ty}, IsTagType t ∨ IsReturnType t → t.IsReturned := by
    rintro t (ht | ⟨span, tags, ht⟩)
    · exact .flat (hflat ht)
    · exact isReturned_writtenReturnType ht
  refine ⟨fun a b ha hb h => (hreturned ha).eq_of_text (hreturned hb) h, ?_⟩
  intro p q hp hq hpty hqty h
  exact Target.Param.eq_of_code hp hq (fun t ht => hflat (hpty t ht))
    (fun t ht => hflat (hqty t ht)) h

/-- A union in a union, which no tag writes, looks like a longer union. -/
example : (Ty.union [.union [.number, .string], .boolean]).text =
    (Ty.union [.number, .string, .boolean]).text := by decide

/-- Two ways to write one type, of a variable or of a returned value, and the parameters with it. -/
theorem eq_of_annotation_texts_bool :
    ∃ a b : Ty, writtenType .unknown "bool|nil" = .ok a ∧
      writtenReturnType .unknown [.typedReturn "boolean|nil" ""] = .ok b ∧
      a.text = "boolean | undefined" ∧ a = b ∧
      Piece.code (Target.Param.mk "vararg" true (some a)).pieces =
        "...vararg: (boolean | undefined)[]" ∧
      Target.Param.mk "vararg" true (some a) = Target.Param.mk "vararg" true (some b) := by
  have ha : writtenType .unknown "bool|nil" = .ok (.union [.boolean, .undefined]) := by decide
  have hb : writtenReturnType .unknown [.typedReturn "boolean|nil" ""] =
      .ok (.union [.boolean, .undefined]) := by decide
  have htype : ∀ t ∈ some (Ty.union [.boolean, .undefined]), IsTagType t := by
    rintro _ ⟨⟩
    exact ⟨_, _, ha⟩
  exact ⟨_, _, ha, hb, by decide,
    eq_of_annotation_texts.1 _ _ (.inl ⟨_, _, ha⟩) (.inr ⟨_, _, hb⟩) rfl, by decide,
    eq_of_annotation_texts.2 _ _ (by decide) (by decide) htype htype rfl⟩

end Lowering

end LuaTranspiler
