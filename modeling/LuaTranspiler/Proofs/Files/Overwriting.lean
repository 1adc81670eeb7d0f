import LuaTranspiler.Files.Directory
import Mathlib.Data.List.Basic

/-!
# Files written into one directory

A plain name behind the path of a directory leads to a place of that name in the directory, so
different names lead to different places. A file that is written keeps its content until another is
written under the same name, since no directory on the way to it ever goes away.

* `Path.IsPlain`: a name that leads on from a directory
* `Path.exists_steps_join`: the steps to a plain name in a directory
* `Directory.KeepsDirectories`, `Directory.Extends`: what operations leave in place
* `Directory.writeAll`: files written one after the other
* `Directory.read_writeAll`: the last file under a name is the one that is there
-/

namespace LuaTranspiler

namespace Text

variable {sep : Char}

theorem splitAt_of_not_mem {cs : List Char} (h : sep ∉ cs) : splitAt sep cs = [cs] := by
  induction cs with
  | nil => rfl
  | cons c cs ih =>
    have hc : sep ≠ c := List.ne_of_not_mem_cons h
    rw [splitAt, if_neg hc.symm, ih (List.not_mem_of_not_mem_cons h)]

theorem splitAt_append (cs ds : List Char) :
    splitAt sep (cs ++ sep :: ds) = splitAt sep cs ++ splitAt sep ds := by
  induction cs with
  | nil => simp [splitAt]
  | cons c cs ih =>
    rw [List.cons_append, splitAt, splitAt, ih]
    split
    · rfl
    · obtain ⟨part, parts, hparts⟩ := List.exists_cons_of_ne_nil (splitAt_ne_nil sep cs)
      simp [hparts]

theorem not_mem_of_mem_splitAt {cs part : List Char} (h : part ∈ splitAt sep cs) : sep ∉ part := by
  induction cs generalizing part with
  | nil => simp_all [splitAt]
  | cons c cs ih =>
    rw [splitAt] at h
    split at h
    · rcases List.mem_cons.1 h with rfl | h
      · exact List.not_mem_nil
      · exact ih h
    next hc =>
      obtain ⟨first, parts, hparts⟩ := List.exists_cons_of_ne_nil (splitAt_ne_nil sep cs)
      rw [hparts] at h ih
      rcases List.mem_cons.1 h with rfl | h
      · exact List.not_mem_cons_of_ne_of_not_mem (Ne.symm hc) (ih List.mem_cons_self)
      · exact ih (List.mem_cons_of_mem _ h)

end Text

namespace Path

/-! ### Plain names -/

/-- A name that leads on from a directory. -/
structure IsPlain (name : String) : Prop where
  slashless : '/' ∉ name.toList
  ne_empty : name ≠ ""
  ne_dot : name ≠ "."
  ne_dots : name ≠ ".."

theorem steps_of_slashless {name : String} (h : '/' ∉ name.toList) : steps name = [name] := by
  rw [steps, Text.splitAt_of_not_mem h, List.map_singleton, String.ofList_toList]

/-- The steps to a name in a directory are some steps of the directory and the name. -/
theorem exists_steps_join (directory : String) :
    ∃ front, ∀ name, '/' ∉ name.toList → steps (join directory name) = front ++ [name] := by
  by_cases hempty : directory = ""
  · refine ⟨[], fun name hname => ?_⟩
    rw [join, if_pos (by simp [hempty]), hempty, String.empty_append, steps_of_slashless hname]
    rfl
  · by_cases hslash : directory.toList.getLast? = some '/'
    · obtain ⟨cs, hcs⟩ := List.getLast?_eq_some_iff.1 hslash
      refine ⟨(Text.splitAt '/' cs).map String.ofList, fun name hname => ?_⟩
      rw [join, if_pos (by simp [hslash]), ← steps_of_slashless hname, steps, steps,
        String.toList_append, hcs, List.append_assoc, List.singleton_append, Text.splitAt_append,
        List.map_append]
    · refine ⟨steps directory, fun name hname => ?_⟩
      have htoList : (directory ++ "/" ++ name).toList =
          directory.toList ++ '/' :: name.toList := by simp
      rw [join, if_neg (by simp [hempty, hslash]), ← steps_of_slashless hname, steps, htoList,
        Text.splitAt_append, List.map_append, steps, steps]

/-- Where the path of a name in a directory starts depends on the directory. -/
theorem isAbsolute_join (directory : String) {name : String} (h : '/' ∉ name.toList) :
    isAbsolute (join directory name) = isAbsolute directory := by
  by_cases hempty : directory = ""
  · have hhead : name.toList.head? ≠ some '/' := fun hhead => h (List.mem_of_head? hhead)
    rw [join, if_pos (by simp [hempty]), hempty, String.empty_append]
    simp [isAbsolute, hhead]
  · obtain ⟨c, cs, hcs⟩ := List.exists_cons_of_ne_nil
      (fun hnil : directory.toList = [] => hempty (String.toList_eq_nil_iff.1 hnil))
    unfold join isAbsolute
    split <;> simp [hcs]

/-! ### Stems -/

theorem slashless_of_mem_components {path name : String} (h : name ∈ components path) :
    '/' ∉ name.toList := by
  have hsteps : ∀ s ∈ steps path, '/' ∉ s.toList := by
    intro s hs
    obtain ⟨part, hpart, rfl⟩ := List.mem_map.1 hs
    rw [String.toList_ofList]
    exact Text.not_mem_of_mem_splitAt hpart
  unfold components at h
  split at h
  next rest hrest =>
    rcases List.mem_cons.1 h with rfl | h
    · simp
    · refine hsteps name ?_
      rw [hrest]
      exact List.mem_cons_of_mem _ (List.mem_of_mem_filter h)
  next => exact hsteps name (List.mem_of_mem_filter h)

theorem slashless_dropExtension {name : String} (h : '/' ∉ name.toList) :
    '/' ∉ (dropExtension name).toList := by
  unfold dropExtension
  dsimp only
  split
  · exact h
  · rw [String.toList_ofList]
    intro hmem
    have htail := List.mem_of_mem_tail (List.mem_reverse.1 hmem)
    exact h (List.mem_reverse.1 ((List.dropWhile_sublist _).subset htail))

/-- A stem has no slash in it. -/
theorem slashless_stem (path : String) : '/' ∉ (stem path).toList := by
  unfold stem
  split
  · decide
  next name hname =>
    unfold fileName? at hname
    split at hname
    · cases hname
    next last hlast =>
      split at hname
      · cases hname
      · cases hname
        exact slashless_dropExtension (slashless_of_mem_components (List.mem_of_getLast? hlast))

/-- A stem with an extension behind it is a plain name. -/
theorem isPlain_stem_append (path : String) {extension : String} (hslash : '/' ∉ extension.toList)
    (hlong : 2 < extension.length) : IsPlain (stem path ++ extension) := by
  have hne (name : String) (hname : name.length ≤ 2) : stem path ++ extension ≠ name := by
    rintro rfl
    rw [String.length_append] at hname
    omega
  refine ⟨?_, hne "" (by decide), hne "." (by decide), hne ".." (by decide)⟩
  rw [String.toList_append]
  exact List.not_mem_append (slashless_stem path) hslash

end Path

namespace Directory

variable {d d' : Directory} {place target : Place} {e : Entry}

/-! ### Entries -/

theorem at?_put_self (h : isAbove place = false) : (d.put place e).at? place = some e := by
  simp [at?, put, h]

theorem at?_put_of_ne (h : target ≠ place) : (d.put place e).at? target = d.at? target := by
  have hlookup (xs : List (Place × Entry)) :
      (xs.filter fun x => x.1 ≠ place).lookup target = xs.lookup target := by
    induction xs with
    | nil => rfl
    | cons x xs ih =>
      obtain ⟨key, entry⟩ := x
      by_cases hkey : key = place
      · subst hkey
        rw [List.filter_cons, if_neg (by simp), ih, List.lookup_cons, beq_false_of_ne h]
      · rw [List.filter_cons, if_pos (by simpa using hkey), List.lookup_cons, List.lookup_cons, ih]
  unfold at? put
  rw [List.lookup_cons, beq_false_of_ne h, hlookup]

/-! ### What stays in place -/

/-- All directories of `d` are directories of `d'`. -/
def KeepsDirectories (d d' : Directory) : Prop :=
  ∀ place, d.at? place = some .directory → d'.at? place = some .directory

/-- Whatever stands somewhere in `d` stands there in `d'`. -/
def Extends (d d' : Directory) : Prop :=
  ∀ place e, d.at? place = some e → d'.at? place = some e

theorem Extends.refl (d : Directory) : Extends d d := fun _ _ h => h

theorem Extends.trans {d₁ d₂ d₃ : Directory} (h : Extends d₁ d₂) (h' : Extends d₂ d₃) :
    Extends d₁ d₃ := fun place e hplace => h' place e (h place e hplace)

theorem Extends.keepsDirectories (h : Extends d d') : KeepsDirectories d d' :=
  fun place hplace => h place .directory hplace

theorem keepsDirectories_put (h : d.at? place ≠ some .directory) :
    KeepsDirectories d (d.put place e) := by
  intro target htarget
  rw [at?_put_of_ne]
  · exact htarget
  · rintro rfl
    exact h htarget

theorem extends_put (h : d.at? place = none) : Extends d (d.put place e) := by
  intro target entry htarget
  rw [at?_put_of_ne]
  · exact htarget
  · rintro rfl
    simp [h] at htarget

/-! ### Following paths -/

/-- Where a step leads from a directory, unless its name is too long. -/
def next? (place : Place) (step : String) : Option Place :=
  if step = "" || step = "." then some place
  else if step = ".." then some (outer place)
  else if longestName < step.utf8ByteSize then none
  else some (place ++ [step])

theorem follow_cons_iff {step : String} {steps : List String} :
    d.follow place (step :: steps) = .ok target ↔ d.at? place = some .directory ∧
      ∃ place', next? place step = some place' ∧ d.follow place' steps = .ok target := by
  rw [follow]
  cases hplace : d.at? place with
  | none => simp
  | some entry =>
    cases entry with
    | file content => simp
    | directory =>
      unfold next?
      by_cases hstay : (decide (step = "") || decide (step = ".")) = true
      · simp only [if_pos hstay]
        simp
      · by_cases hup : step = ".."
        · simp only [if_neg hstay, if_pos hup]
          simp
        · by_cases hlong : longestName < step.utf8ByteSize
          · simp only [if_neg hstay, if_neg hup, if_pos hlong]
            simp
          · simp only [if_neg hstay, if_neg hup, if_neg hlong]
            simp

theorem next?_plain {name : String} (hname : Path.IsPlain name) (h : next? place name = some target) :
    target = place ++ [name] := by
  have hstay : ¬(decide (name = "") || decide (name = ".")) = true := by
    simp [hname.ne_empty, hname.ne_dot]
  rw [next?, if_neg hstay, if_neg hname.ne_dots] at h
  split at h
  · cases h
  · exact (Option.some.inj h).symm

theorem follow_of_keepsDirectories (h : KeepsDirectories d d') {steps : List String}
    (hfollow : d.follow place steps = .ok target) : d'.follow place steps = .ok target := by
  induction steps generalizing place with
  | nil => exact hfollow
  | cons step steps ih =>
    obtain ⟨hplace, place', hnext, hsteps⟩ := follow_cons_iff.1 hfollow
    exact follow_cons_iff.2 ⟨h place hplace, place', hnext, ih hsteps⟩

theorem resolve_of_keepsDirectories (h : KeepsDirectories d d') {path : String}
    (hresolve : d.resolve path = .ok place) : d'.resolve path = .ok place := by
  unfold resolve walk at hresolve ⊢
  split at hresolve
  · cases hresolve
  next hne =>
    rw [if_neg hne]
    split at hresolve
    · cases hresolve
    next hshort =>
      rw [if_neg hshort]
      exact follow_of_keepsDirectories h hresolve

/-- A path that ends with a plain name leads to that name in what is before it. -/
theorem follow_append_plain {steps : List String} {name : String} (hname : Path.IsPlain name)
    (h : d.follow place (steps ++ [name]) = .ok target) :
    ∃ above, d.follow place steps = .ok above ∧ target = above ++ [name] := by
  induction steps generalizing place with
  | nil =>
    obtain ⟨-, place', hnext, hend⟩ := follow_cons_iff.1 h
    cases hend
    exact ⟨place, rfl, next?_plain hname hnext⟩
  | cons step steps ih =>
    obtain ⟨hplace, place', hnext, hsteps⟩ := follow_cons_iff.1 h
    obtain ⟨above, habove, htarget⟩ := ih hsteps
    exact ⟨above, follow_cons_iff.2 ⟨hplace, place', hnext, habove⟩, htarget⟩

/-- Different plain names in a directory lead to different places. -/
theorem resolve_join_ne {directory name name' : String} {place' : Place}
    (hname : Path.IsPlain name) (hname' : Path.IsPlain name') (hne : name ≠ name')
    (h : d.resolve (Path.join directory name) = .ok place)
    (h' : d.resolve (Path.join directory name') = .ok place') : place ≠ place' := by
  obtain ⟨front, hfront⟩ := Path.exists_steps_join directory
  have hplace {name : String} {place : Place} (hname : Path.IsPlain name)
      (h : d.resolve (Path.join directory name) = .ok place) :
      ∃ above, d.follow (if Path.isAbsolute directory then ["/"] else []) front = .ok above ∧
        place = above ++ [name] := by
    unfold resolve walk origin at h
    split at h
    · cases h
    · split at h
      · cases h
      · rw [hfront name hname.slashless, Path.isAbsolute_join directory hname.slashless] at h
        exact follow_append_plain hname h
  obtain ⟨above, habove, rfl⟩ := hplace hname h
  obtain ⟨above', habove', rfl⟩ := hplace hname' h'
  intro heq
  exact hne (List.singleton_inj.1 (List.append_inj' heq rfl).2)

/-! ### Reading and writing -/

theorem exists_of_read {path text : String} (h : d.read path = .ok text) :
    ∃ place, d.resolve path = .ok place ∧ d.at? place = some (.file text.toUTF8) := by
  unfold read find at h
  cases hresolve : d.resolve path with
  | error e => simp [hresolve] at h
  | ok place =>
    cases hplace : d.at? place with
    | none => simp [hresolve, hplace] at h
    | some entry =>
      cases entry with
      | directory => simp [hresolve, hplace] at h
      | file content =>
        refine ⟨place, rfl, ?_⟩
        simp only [hresolve, hplace, String.fromUTF8?] at h
        split at h
        · cases h
        next s hs =>
          cases h
          split at hs
          · cases hs
            exact hplace
          · cases hs

theorem read_of_file {path text : String} (hresolve : d.resolve path = .ok place)
    (hplace : d.at? place = some (.file text.toUTF8)) : d.read path = .ok text := by
  have hutf8 : String.fromUTF8? text.toUTF8 = some text := dif_pos text.isValidUTF8
  simp only [read, find, hresolve, hplace, hutf8]

theorem exists_of_write {path content : String} (h : d.write path content = .ok d') :
    ∃ place, d.resolve path = .ok place ∧ d.at? place ≠ some .directory ∧
      d' = d.put place (.file content.toUTF8) := by
  unfold write at h
  cases hresolve : d.resolve path with
  | error e => simp [hresolve] at h
  | ok place =>
    simp only [hresolve] at h
    split at h
    · cases h
    next hplace =>
      cases h
      exact ⟨place, rfl, hplace, rfl⟩

/-- What is written is there. -/
theorem read_of_write {path content : String} (h : d.write path content = .ok d') :
    d'.read path = .ok content := by
  obtain ⟨place, hresolve, hplace, rfl⟩ := exists_of_write h
  have habove : isAbove place = false := by
    by_contra habove
    exact hplace (if_pos (Bool.not_eq_false _ ▸ habove))
  exact read_of_file (resolve_of_keepsDirectories (keepsDirectories_put hplace) hresolve)
    (at?_put_self habove)

/-- A file stays as it is when another is written under another name in the directory. -/
theorem read_of_write_ne {directory name name' text content : String}
    (hname : Path.IsPlain name) (hname' : Path.IsPlain name') (hne : name ≠ name')
    (hread : d.read (Path.join directory name) = .ok text)
    (h : d.write (Path.join directory name') content = .ok d') :
    d'.read (Path.join directory name) = .ok text := by
  obtain ⟨place, hresolve, hfile⟩ := exists_of_read hread
  obtain ⟨place', hresolve', hplace', rfl⟩ := exists_of_write h
  refine read_of_file (resolve_of_keepsDirectories (keepsDirectories_put hplace') hresolve) ?_
  rw [at?_put_of_ne (resolve_join_ne hname hname' hne hresolve hresolve')]
  exact hfile

theorem read_of_extends {path text : String} (h : Extends d d') (hread : d.read path = .ok text) :
    d'.read path = .ok text := by
  obtain ⟨place, hresolve, hfile⟩ := exists_of_read hread
  exact read_of_file (resolve_of_keepsDirectories h.keepsDirectories hresolve) (h _ _ hfile)

theorem isFile_of_read {path text : String} (h : d.read path = .ok text) :
    d.isFile path = true := by
  obtain ⟨place, hresolve, hfile⟩ := exists_of_read h
  simp only [isFile, find, hresolve, hfile]

theorem extends_of_make {path : String} (h : d.make path = .ok d') : Extends d d' := by
  unfold make at h
  split at h
  · cases h
  · split at h
    · cases h
    next hplace =>
      cases h
      exact extends_put hplace

/-- Writes files in a directory, one after the other. -/
def writeAll (directory : String) : List (String × String) → Directory → Except FileError Directory
  | [], d => .ok d
  | (name, content) :: files, d =>
    match d.write (Path.join directory name) content with
    | .error e => .error e
    | .ok d' => writeAll directory files d'

theorem writeAll_append {directory : String} {files files' : List (String × String)} :
    writeAll directory (files ++ files') d =
      (writeAll directory files d).bind (writeAll directory files') := by
  induction files generalizing d with
  | nil => rfl
  | cons x files ih =>
    obtain ⟨name, content⟩ := x
    rw [List.cons_append, writeAll, writeAll]
    cases d.write (Path.join directory name) content with
    | error e => rfl
    | ok d' => exact ih

/-- A file stays as it is when others are written under other names. -/
theorem read_writeAll_ne {directory name text : String} {files : List (String × String)}
    (hname : Path.IsPlain name) (hplain : ∀ x ∈ files, Path.IsPlain x.1)
    (hne : ∀ x ∈ files, name ≠ x.1) (hread : d.read (Path.join directory name) = .ok text)
    (h : writeAll directory files d = .ok d') : d'.read (Path.join directory name) = .ok text := by
  induction files generalizing d with
  | nil =>
    cases h
    exact hread
  | cons x files ih =>
    obtain ⟨name', content⟩ := x
    obtain ⟨hplain', hplain⟩ := List.forall_mem_cons.1 hplain
    obtain ⟨hne', hne⟩ := List.forall_mem_cons.1 hne
    rw [writeAll] at h
    cases hwrite : d.write (Path.join directory name') content with
    | error e => simp [hwrite] at h
    | ok d₁ =>
      rw [hwrite] at h
      exact ih hplain hne (read_of_write_ne hname hplain' hne' hread hwrite) h

/-- The last file that is written under a name is the one that is there. -/
theorem read_writeAll {directory name content : String} {before behind : List (String × String)}
    (hplain : ∀ x ∈ before ++ (name, content) :: behind, Path.IsPlain x.1)
    (hlast : ∀ x ∈ behind, name ≠ x.1)
    (h : writeAll directory (before ++ (name, content) :: behind) d = .ok d') :
    d'.read (Path.join directory name) = .ok content := by
  obtain ⟨hname, hbehind⟩ := List.forall_mem_cons.1 (List.forall_mem_append.1 hplain).2
  rw [writeAll_append] at h
  cases hbefore : writeAll directory before d with
  | error e => simp [hbefore, Except.bind] at h
  | ok d₁ =>
    simp only [hbefore, Except.bind, writeAll] at h
    cases hwrite : d₁.write (Path.join directory name) content with
    | error e => simp [hwrite] at h
    | ok d₂ =>
      rw [hwrite] at h
      exact read_writeAll_ne hname hbehind hlast (read_of_write hwrite) h

end Directory

end LuaTranspiler
