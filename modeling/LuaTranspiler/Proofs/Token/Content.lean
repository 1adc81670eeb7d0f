import LuaTranspiler.Proofs.Number.Rounding
import LuaTranspiler.Source.Literal

/-!
# What names and numbers hold

* `munch_cases`: the forms of tokens
* `IsName`: the texts of names
* `isName_of_tokensFrom`: the text of a name token is one
* `Binary64.IsLiteral`: the numbers that a token can stand for have no sign and are no NaN
* `isLiteral_of_number?`: number tokens stand for nothing else
-/

namespace LuaTranspiler

/-! ### Names -/

theorem isNameStart_of_isDigit {c : Char} (h : c.isDigit) : isNameStart c = false := by
  have hne : c ≠ '_' := by
    rintro rfl
    exact absurd h (by decide)
  simp only [Char.isDigit, Bool.and_eq_true, decide_eq_true_eq, ge_iff_le,
    UInt32.le_iff_toNat_le] at h
  delta isNameStart Char.isAlpha Char.isUpper Char.isLower
  simp only [hne, decide_false, Bool.or_false, Bool.or_eq_false_iff, Bool.and_eq_false_iff,
    decide_eq_false_iff_not, ge_iff_le, UInt32.le_iff_toNat_le]
  simp only [Char.reduceVal, UInt32.reduceToNat] at h ⊢
  omega

theorem not_isDigit_of_isNameStart {c : Char} (h : isNameStart c = true) : c.isDigit = false := by
  by_contra hdigit
  simp [isNameStart_of_isDigit (Bool.not_eq_false _ ▸ hdigit)] at h

/-- Whether a text is a letter or an underscore, and letters, digits and underscores behind it. -/
def IsName (s : String) : Prop :=
  ∃ c cs, s.toList = c :: cs ∧ isNameStart c = true ∧ ∀ d ∈ cs, isNameChar d = true

/-- The check of a name. -/
def startsName : List Char → Bool
  | [] => false
  | c :: cs => isNameStart c && cs.all isNameChar

theorem startsName_toList (s : String) : startsName s.toList = true ↔ IsName s := by
  unfold IsName
  cases s.toList with
  | nil => simp [startsName]
  | cons c cs => simp [startsName]

instance (s : String) : Decidable (IsName s) := decidable_of_iff _ (startsName_toList s)

/-- A word is a name, or the keyword that it spells. -/
theorem wordKind_cases (s : String) : wordKind s = .name ∨ (s, wordKind s) ∈ keywordTable := by
  unfold wordKind
  cases hlookup : keywordTable.lookup s with
  | none => exact .inl rfl
  | some kind =>
    obtain ⟨l, l', htable, -⟩ := List.lookup_eq_some_iff.1 hlookup
    exact .inr (by simp [htable])

theorem mem_symbolTable_of_munchSymbol {cs : List Char} {kind : TokenKind} {n : Nat}
    (h : munchSymbol cs = .token kind n) : kind ∈ symbolTable.map Prod.snd := by
  unfold munchSymbol at h
  split at h
  next spelling k hfind =>
    obtain ⟨rfl, -⟩ := Lexeme.token.inj h
    exact List.mem_map_of_mem (List.mem_of_find?_eq_some hfind)
  next => cases h

/-- What stands at the head of a text: a word, a closed string, or a token of another kind. -/
theorem munch_cases {c : Char} {cs : List Char} {kind : TokenKind} {n : Nat}
    (h : munch c cs = .token kind n) :
    (isNameStart c = true ∧ kind = wordKind (String.ofList (c :: cs.take n)) ∧
        n = runLength isNameChar cs) ∨
      ((c = '"' ∨ c = '\'') ∧ kind = .string ∧ quotedTail c cs = (true, n)) ∨
      kind ∈ [.number, .hexNumber, .longString, .comment] ∨ kind ∈ symbolTable.map Prod.snd := by
  unfold munch at h
  split at h
  next hc =>
    obtain ⟨rfl, rfl⟩ := Lexeme.token.inj h
    exact .inl ⟨hc, rfl, rfl⟩
  refine .inr ?_
  split at h
  · unfold munchNumber at h
    split at h <;> cases h <;> exact .inr (.inl (by decide))
  split at h
  · cases h
    exact .inr (.inl (by decide))
  split at h
  next hquote =>
    unfold munchQuoted at h
    split at h
    next htail =>
      obtain ⟨rfl, rfl⟩ := Lexeme.token.inj h
      exact .inl ⟨by simpa using hquote, rfl, htail⟩
    next => cases h
  refine .inr ?_
  split at h
  · unfold munchBracket at h
    split at h
    · split at h <;> cases h
      decide
    · dsimp only at h
      split at h <;> cases h
      decide
  split at h
  · unfold munchComment at h
    split at h
    · split at h <;> cases h
      decide
    · cases h
      decide
  · exact .inr (mem_symbolTable_of_munchSymbol h)

/-- Only what starts like a name is a name token, and it is a whole run of name characters. -/
theorem isName_of_munch {c : Char} {cs : List Char} {n : Nat} (h : munch c cs = .token .name n) :
    IsName (String.ofList (c :: cs.take n)) := by
  obtain ⟨hc, -, rfl⟩ | ⟨-, hkind, -⟩ | hkind | hkind := munch_cases h
  · refine ⟨c, _, String.toList_ofList .., hc, fun d hd => ?_⟩
    have hrun : cs.take (runLength isNameChar cs) = cs.takeWhile isNameChar :=
      (List.prefix_iff_eq_take.1 (List.takeWhile_prefix _)).symm
    rw [hrun] at hd
    exact List.all_eq_true.1 List.all_takeWhile d hd
  · cases hkind
  · exact absurd hkind (by decide)
  · exact absurd hkind (by decide)

/-- The text of a name token is a name. -/
theorem isName_of_tokensFrom {p : Point} {cs : List Char} {ts : List Token}
    (h : tokensFrom p cs = .ok ts) {t : Token} (ht : t ∈ ts) (hkind : t.kind = .name) :
    IsName t.literal := by
  fun_induction tokensFrom p cs generalizing ts with
  | case1 p =>
    cases h
    cases ht
  | case2 p c cs _ ih => exact ih h ht
  | case3 p c cs hc =>
    rename_i n hmunch text stop us hus ih
    cases h
    rcases List.mem_cons.1 ht with rfl | ht
    · obtain rfl : _ = TokenKind.name := hkind
      exact isName_of_munch hmunch
    · exact ih hus ht
  | case4 => cases h
  | case5 => cases h

/-! ### Numbers -/

namespace Binary64

/-- Whether a number is finite without a sign, or the positive infinity. -/
def IsLiteral (x : Binary64) : Prop := x.IsUnsigned ∨ x = infinity

theorem isLiteral_zero : zero.IsLiteral := .inl (by decide)

theorem isLiteral_ofRatio (num den : Nat) : (ofRatio num den).IsLiteral := by
  unfold ofRatio
  split
  · exact isLiteral_zero
  dsimp only
  split
  · exact .inr rfl
  next hlt =>
    have hinf : infinity.bits.toNat = 2047 * 2 ^ 52 := by decide
    generalize (placeExponent num den + 1074).toNat * 0x10000000000000 + _ = bits at hlt ⊢
    have hbits : (UInt64.ofNat bits).toNat = bits := by
      rw [UInt64.toNat_ofNat']
      exact Nat.mod_eq_of_lt (by omega)
    refine .inl ⟨?_, ?_⟩
    · simp only [exponentField, hbits]
      omega
    · simp only [isNegative, hbits, decide_eq_false_iff_not]
      omega

theorem isLiteral_ofScientific (c : Nat) (e : Int) : (ofScientific c e).IsLiteral := by
  unfold ofScientific
  split
  · exact isLiteral_zero
  split
  · exact .inr rfl
  · exact isLiteral_ofRatio _ _

end Binary64

/-- Number tokens stand for numbers without a sign. -/
theorem isLiteral_of_number? {t : Token} {x : Binary64} (h : t.number? = some x) :
    x.IsLiteral := by
  unfold Token.number? at h
  split at h
  · dsimp only at h
    split at h
    · cases h
      exact Binary64.isLiteral_ofRatio _ _
    · cases h
  · obtain ⟨d, -, rfl⟩ := Option.map_eq_some_iff.1 h
    exact Binary64.isLiteral_ofScientific _ _

end LuaTranspiler
