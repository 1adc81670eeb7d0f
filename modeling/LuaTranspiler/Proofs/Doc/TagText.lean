import LuaTranspiler.Doc.Tag
import LuaTranspiler.Proofs.Text.Words

/-!
# Tags and the comments that hold them

A tag is written as its name and its fields, the type of a parameter before the parameter's name,
with a description behind them where it has one. A comment holds a tag exactly if its words are a
mark, the name of a tag, and enough further words for the fields.

* `Tag.label`, `Tag.fields`, `Tag.description?`: the parts of a tag in the order of the comment
* `Tag.neededWords`: how many words a tag needs behind its name
* `Tag.render`: the comment that a tag is written as
* `Tag.decode?_eq_some_iff`: the tag of a comment, said by its words
* `Tag.decode?_exact`: which comments hold a tag, what it holds, and that a written tag is read back
-/

namespace LuaTranspiler.Tag

open Text

/-! ### The parts of a tag -/

/-- The name of a tag as written. -/
def label : Tag → String
  | param .. => "@param"
  | typedParam .. => "@tparam"
  | returns .. => "@return"
  | typedReturn .. => "@treturn"
  | varType .. => "@type"
  | classmod .. => "@classmod"
  | module .. => "@module"

/-- The names and types of a tag, in the order of the comment. -/
def fields : Tag → List String
  | param name _ | classmod name | module name => [name]
  | typedParam name ty _ => [ty, name]
  | returns _ => []
  | typedReturn ty _ | varType ty _ => [ty]

/-- The description of a tag, if tags of its name have one. -/
def description? : Tag → Option String
  | param _ d | typedParam _ _ d | returns d | typedReturn _ d | varType _ d => some d
  | classmod _ | module _ => none

/-- The names of tags, and how many words each needs behind it. -/
def neededWords : List (String × Nat) :=
  [("@param", 1), ("@tparam", 2), ("@return", 0), ("@treturn", 1), ("@type", 1), ("@classmod", 1),
    ("@module", 1)]

/-- The comment that a tag is written as. -/
def render (t : Tag) : String :=
  " ".intercalate ("--" :: t.label :: (t.fields ++ t.description?.toList))

/-- Names and types are words, and a description is words with single blanks between them. -/
structure Proper (t : Tag) : Prop where
  fields : ∀ f ∈ t.fields, IsWord f.toList
  description : ∀ d ∈ t.description?, ∃ ws : List String, (∀ w ∈ ws, IsWord w.toList) ∧
    d = " ".intercalate ws

/-! ### Reading words -/

/-- The tag that words stand for starts with its name and its fields, and the words behind them are
its description. -/
theorem ofWords?_eq_some_iff {ws : List String} {t : Tag} :
    ofWords? ws = some t ↔ ∃ rest, ws = t.label :: (t.fields ++ rest) ∧
      ∀ d ∈ t.description?, d = " ".intercalate rest := by
  constructor
  · intro h
    unfold ofWords? at h
    split at h <;> cases h <;> exact ⟨_, rfl, by simp [description?]⟩
  · rintro ⟨rest, rfl, hdescription⟩
    cases t <;> simp_all [ofWords?, label, fields, description?]

theorem mem_neededWords (t : Tag) : (t.label, t.fields.length) ∈ neededWords := by
  cases t <;> simp [label, fields, neededWords]

/-- Words stand for a tag exactly if the first names one and enough others follow. -/
theorem exists_ofWords?_iff {ws : List String} :
    (∃ t, ofWords? ws = some t) ↔ ∃ name needed rest, ws = name :: rest ∧
      (name, needed) ∈ neededWords ∧ needed ≤ rest.length := by
  constructor
  · rintro ⟨t, ht⟩
    obtain ⟨rest, rfl, -⟩ := ofWords?_eq_some_iff.1 ht
    exact ⟨_, _, _, rfl, t.mem_neededWords, by simp⟩
  · rintro ⟨name, needed, rest, rfl, hneeded, hlen⟩
    simp only [neededWords, List.mem_cons, Prod.mk.injEq, List.not_mem_nil, or_false] at hneeded
    -- no tag needs more than two words
    rcases hneeded with h | h | h | h | h | h | h <;> obtain ⟨rfl, rfl⟩ := h <;>
      rcases rest with _ | ⟨word, _ | ⟨word', rest⟩⟩ <;> simp_all [ofWords?]

/-! ### Reading comments -/

/-- A comment holds the tag that stands in it behind a mark. -/
theorem decode?_eq_some_iff {raw : String} {t : Tag} :
    decode? raw = some t ↔ ∃ mark rest, words raw = mark :: t.label :: (t.fields ++ rest) ∧
      ∀ d ∈ t.description?, d = " ".intercalate rest := by
  rw [decode?, ofWords?_eq_some_iff]
  cases words raw with
  | nil => simp
  | cons mark ws => simp

theorem isWord_label (t : Tag) : IsWord t.label.toList := by
  have hall : neededWords.all (fun entry => IsWord entry.1.toList) = true := by decide
  simpa using List.all_eq_true.1 hall _ t.mem_neededWords

/-- The words of a written tag are those of its parts. -/
theorem words_render {t : Tag} (ht : t.Proper) :
    words t.render = "--" :: t.label :: (t.fields ++ t.description?.toList.flatMap words) := by
  have hmark : words "--" = ["--"] := by decide
  have hfields : t.fields.flatMap words = t.fields := by
    rw [← words_intercalate, words_intercalate_words ht.fields]
  rw [render, words_intercalate, List.flatMap_cons, List.flatMap_cons, List.flatMap_append, hmark,
    words_word t.isWord_label, hfields]
  rfl

theorem decode?_render {t : Tag} (ht : t.Proper) : decode? t.render = some t := by
  refine decode?_eq_some_iff.2 ⟨_, _, words_render ht, fun d hd => ?_⟩
  obtain ⟨ws, hws, rfl⟩ := ht.description d hd
  rw [Option.mem_def.1 hd, Option.toList_some, List.flatMap_singleton, words_intercalate_words hws]

/-- **Tags are read exactly, and reading undoes writing.** A comment holds a tag exactly if its
second word is the name of one and is followed by as many words as that needs. The names and types of
the tag are the next words, and its description is made of the words behind those. What a tag is
written as is read as this tag. -/
theorem decode?_exact :
    (∀ raw : String, (∃ t, decode? raw = some t) ↔ ∃ mark name needed rest,
      Spaced (List.map String.toList (mark :: name :: rest)) raw.toList ∧
        (name, needed) ∈ neededWords ∧ needed ≤ rest.length) ∧
    (∀ raw t, decode? raw = some t →
      (∀ f ∈ t.fields, IsWord f.toList) ∧ ∃ mark rest,
        Spaced (List.map String.toList (mark :: t.label :: (t.fields ++ rest))) raw.toList ∧
        ∀ d ∈ t.description?, d = " ".intercalate rest) ∧
    ∀ t : Tag, t.Proper → decode? t.render = some t := by
  refine ⟨fun raw => ?_, fun raw t ht => ?_, fun t ht => decode?_render ht⟩
  · simp only [← words_eq_iff, decode?, exists_ofWords?_iff]
    cases words raw with
    | nil => simp
    | cons mark ws => simp
  · obtain ⟨mark, rest, hwords, hdescription⟩ := decode?_eq_some_iff.1 ht
    have hspaced := words_eq_iff.1 hwords
    refine ⟨fun f hf => hspaced.isWord _ (List.mem_map_of_mem ?_), mark, rest, hspaced,
      hdescription⟩
    simp [hf]

/-- The words of the description look like a tag and a mark, and a no-break space parts two words. -/
def crowdedTag : Tag := .typedParam "x" "number|nil" "the @type --"

def crowdedTagComment : String := "--- @tparam\tnumber|nil\u00a0x  the @type -- "

theorem decode?_exact_crowdedTag :
    decode? crowdedTagComment = some crowdedTag ∧
      (∃ mark name needed rest,
        Spaced (List.map String.toList (mark :: name :: rest)) crowdedTagComment.toList ∧
          (name, needed) ∈ neededWords ∧ needed ≤ rest.length) ∧
      (∀ f ∈ crowdedTag.fields, IsWord f.toList) ∧
      crowdedTag.render = "-- @tparam number|nil x the @type --" ∧
      decode? crowdedTag.render = some crowdedTag := by
  have hdecode : decode? crowdedTagComment = some crowdedTag := by decide +kernel
  have hproper : crowdedTag.Proper := by
    refine ⟨(decode?_exact.2.1 _ _ hdecode).1, fun d hd => ?_⟩
    obtain rfl : "the @type --" = d := Option.some.inj hd
    refine ⟨["the", "@type", "--"], ?_, by decide⟩
    simp only [List.forall_mem_cons, List.not_mem_nil, false_imp_iff, implies_true, and_true]
    decide
  exact ⟨hdecode, (decode?_exact.1 _).1 ⟨_, hdecode⟩, (decode?_exact.2.1 _ _ hdecode).1, by decide,
    decode?_exact.2.2 _ hproper⟩

end LuaTranspiler.Tag
