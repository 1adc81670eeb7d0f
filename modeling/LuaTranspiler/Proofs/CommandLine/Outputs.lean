import LuaTranspiler.CommandLine.Run
import LuaTranspiler.Proofs.Files.Overwriting
import Mathlib.Data.List.Forall2

/-!
# What a run leaves in the output directory

The outputs of a run go to files that are named after the stems of the inputs. All inputs are read
before the first file is written, so an output is never read as an input. Of several inputs with one
stem the last one is left, and the others are lost unless they have the same output.

* `outputFiles`: the files that the output of an input consists of
* `Stored`: these files are in the output directory
* `wrote_of_drive`: a run writes the files of all its outputs in order
* `stored_of_last`: the last input with a stem has its output stored
* `run_stores_iff`: when all inputs have
-/

namespace LuaTranspiler.CommandLine

open Directory (writeAll Extends)

variable {f : Formats} {a : Arguments} {d d' : Directory} {directory path : String}
  {output : Output}

/-! ### The files of an output -/

/-- The names of the files that the output of an input consists of, with what is to stand in them,
or why it cannot be written down. -/
def outputFiles (f : Formats) (a : Arguments) (path : String) (output : Output) :
    List (String × Except String String) :=
  (Path.stem path ++ a.emit.extension, a.emit.render f output) ::
    output.sourceMap.toList.map fun mappings => (Path.stem path ++ ".ts.map.yml", mapText f mappings)

/-- A file holds what is to stand in it, which could be written down. -/
def Holds (d : Directory) (path : String) (content : Except String String) : Prop :=
  ∃ text, content = .ok text ∧ d.read path = .ok text

theorem Holds.eq {content content' : Except String String} (h : Holds d path content)
    (h' : Holds d path content') : content = content' := by
  obtain ⟨text, rfl, hread⟩ := h
  obtain ⟨text', rfl, hread'⟩ := h'
  rw [Except.ok.inj (hread.symm.trans hread')]

/-- The output of an input is what stands in the files that are named after the input. -/
def Stored (f : Formats) (a : Arguments) (directory : String) (d : Directory) (path : String)
    (output : Output) : Prop :=
  ∀ x ∈ outputFiles f a path output, Holds d (Path.join directory x.1) x.2

/-- What stands behind the stem in the names of these files. -/
def IsEnding (a : Arguments) (s : String) : Prop := s = a.emit.extension ∨ s = ".ts.map.yml"

theorem exists_ending_of_mem {x : String × Except String String}
    (h : x ∈ outputFiles f a path output) : ∃ e, IsEnding a e ∧ x.1 = Path.stem path ++ e := by
  rcases List.mem_cons.1 h with rfl | h
  · exact ⟨a.emit.extension, .inl rfl, rfl⟩
  · obtain ⟨mappings, -, rfl⟩ := List.mem_map.1 h
    exact ⟨".ts.map.yml", .inr rfl, rfl⟩

theorem isPlain_of_mem_outputFiles {x : String × Except String String}
    (h : x ∈ outputFiles f a path output) : Path.IsPlain x.1 := by
  obtain ⟨e, he, hx⟩ := exists_ending_of_mem h
  rw [hx]
  rcases he with rfl | rfl
  · cases a.emit with
    | code => exact Path.isPlain_stem_append path (by decide) (by decide)
    | tree => exact Path.isPlain_stem_append path (by decide) (by decide)
  · exact Path.isPlain_stem_append path (by decide) (by decide)

theorem extension_ne_map (emit : Emit) (s s' : String) :
    s ++ emit.extension ≠ s' ++ ".ts.map.yml" := by
  intro h
  have hlists := congrArg (fun t : String => t.toList.reverse) h
  cases emit with
  | code => simp [Emit.extension] at hlists
  | tree => simp [Emit.extension] at hlists

/-- What stands behind the stem in the name of a file tells the kinds of files apart. -/
theorem append_ending_inj {e e' s s' : String} (he : IsEnding a e) (he' : IsEnding a e')
    (h : s ++ e = s' ++ e') : s = s' := by
  rcases he with rfl | rfl <;> rcases he' with rfl | rfl
  · exact (String.append_left_inj _).1 h
  · exact absurd h (extension_ne_map a.emit s s')
  · exact absurd h.symm (extension_ne_map a.emit s' s)
  · exact (String.append_left_inj _).1 h

/-- Files of inputs with different stems have different names. -/
theorem name_ne_of_stem_ne {path' : String} {output' : Output}
    {x y : String × Except String String} (hne : Path.stem path ≠ Path.stem path')
    (hx : x ∈ outputFiles f a path output) (hy : y ∈ outputFiles f a path' output') :
    x.1 ≠ y.1 := by
  obtain ⟨e, he, hxe⟩ := exists_ending_of_mem hx
  obtain ⟨e', he', hye⟩ := exists_ending_of_mem hy
  intro hxy
  rw [hxe, hye] at hxy
  exact hne (append_ending_inj he he' hxy)

/-- The files of one output have different names. -/
theorem pairwise_outputFiles (f : Formats) (a : Arguments) (path : String) (output : Output) :
    (outputFiles f a path output).Pairwise fun x y => x.1 ≠ y.1 := by
  rw [outputFiles]
  cases output.sourceMap with
  | none => exact List.pairwise_singleton _ _
  | some mappings => exact List.pairwise_pair.2 (extension_ne_map a.emit _ _)

/-! ### The last one is left -/

/-- The files of all outputs in order. -/
def allFiles (f : Formats) (a : Arguments) (outputs : List (String × Output)) :
    List (String × Except String String) :=
  outputs.flatMap fun x => outputFiles f a x.1 x.2

/-- All files could be written down, and these were written. -/
def Wrote (directory : String) (files : List (String × Except String String)) (d d' : Directory) :
    Prop :=
  ∃ texts, files = texts.map (Prod.map id .ok) ∧ writeAll directory texts d = .ok d'

theorem wrote_nil (directory : String) (d : Directory) : Wrote directory [] d d := ⟨[], rfl, rfl⟩

theorem wrote_file {name text : String} (h : d.write (Path.join directory name) text = .ok d') :
    Wrote directory [(name, .ok text)] d d' := by
  refine ⟨[(name, text)], rfl, ?_⟩
  simp only [writeAll, h]

theorem Wrote.append {files files' : List (String × Except String String)} {d₁ : Directory}
    (h : Wrote directory files d d₁) (h' : Wrote directory files' d₁ d') :
    Wrote directory (files ++ files') d d' := by
  obtain ⟨texts, rfl, hwritten⟩ := h
  obtain ⟨texts', rfl, hwritten'⟩ := h'
  refine ⟨texts ++ texts', List.map_append.symm, ?_⟩
  rw [Directory.writeAll_append, hwritten]
  exact hwritten'

/-- A file is as it was written if no later one has its name. -/
theorem Wrote.holds {front back : List (String × Except String String)}
    {x : String × Except String String} (h : Wrote directory (front ++ x :: back) d d')
    (hplain : ∀ y ∈ front ++ x :: back, Path.IsPlain y.1) (hback : ∀ y ∈ back, x.1 ≠ y.1) :
    Holds d' (Path.join directory x.1) x.2 := by
  obtain ⟨texts, htexts, hwritten⟩ := h
  obtain ⟨texts₁, texts₂, rfl, rfl, htexts₂⟩ := List.map_eq_append_iff.1 htexts.symm
  obtain ⟨⟨name, text⟩, texts₃, rfl, rfl, rfl⟩ := List.map_eq_cons_iff.1 htexts₂
  refine ⟨text, rfl, Directory.read_writeAll ?_ ?_ hwritten⟩
  · intro y hy
    rw [htexts] at hplain
    exact hplain _ (List.mem_map_of_mem hy)
  · intro y hy
    exact hback _ (List.mem_map_of_mem hy)

/-- Of inputs with one stem the last one has its output stored. -/
theorem stored_of_last {before behind : List (String × Output)}
    (h : Wrote directory (allFiles f a (before ++ (path, output) :: behind)) d d')
    (hlast : ∀ y ∈ behind, Path.stem path ≠ Path.stem y.1) :
    Stored f a directory d' path output := by
  intro x hx
  obtain ⟨front, back, hfiles⟩ := List.append_of_mem hx
  have hall : allFiles f a (before ++ (path, output) :: behind) =
      (allFiles f a before ++ front) ++ x :: (back ++ allFiles f a behind) := by
    simp [allFiles, hfiles]
  refine (hall ▸ h).holds ?_ ?_
  · rw [← hall]
    intro y hy
    obtain ⟨z, -, hy⟩ := List.mem_flatMap.1 hy
    exact isPlain_of_mem_outputFiles hy
  · intro y hy
    rcases List.mem_append.1 hy with hy | hy
    · have hpairwise := pairwise_outputFiles f a path output
      rw [hfiles] at hpairwise
      exact (List.pairwise_cons.1 (List.pairwise_append.1 hpairwise).2.1).1 y hy
    · obtain ⟨z, hz, hy⟩ := List.mem_flatMap.1 hy
      exact name_ne_of_stem_ne (hlast z hz) hx hy

/-- Among the inputs with the stem of a given one there is a last one. -/
theorem exists_last {outputs : List (String × Output)} {x : String × Output} (h : x ∈ outputs) :
    ∃ before y behind, outputs = before ++ y :: behind ∧ Path.stem x.1 = Path.stem y.1 ∧
      ∀ z ∈ behind, Path.stem y.1 ≠ Path.stem z.1 := by
  induction outputs generalizing x with
  | nil => cases h
  | cons first outputs ih =>
    by_cases hlater : ∃ y ∈ outputs, Path.stem x.1 = Path.stem y.1
    · obtain ⟨y, hy, hstem⟩ := hlater
      obtain ⟨before, z, behind, rfl, hstem', hlast⟩ := ih hy
      exact ⟨first :: before, z, behind, rfl, hstem.trans hstem', hlast⟩
    · push Not at hlater
      rcases List.mem_cons.1 h with rfl | h
      · exact ⟨[], x, outputs, rfl, rfl, hlater⟩
      · exact absurd rfl (hlater x h)

/-! ### What a run writes -/

section Runs

variable {α β : Type} {w w' w₁ : World}

/-- A step of a run ends well, with a value and in a world. -/
def Ends (x : ExceptT Abort (StateM World) α) (w : World) (v : α) (w' : World) : Prop :=
  x.run w = (.ok v, w')

theorem Ends.bind {x : ExceptT Abort (StateM World) α} {f : α → ExceptT Abort (StateM World) β}
    {v : β} (h : Ends (x >>= f) w v w') : ∃ u w₁, Ends x w u w₁ ∧ Ends (f u) w₁ v w' := by
  have hbind : (x >>= f).run w = ExceptT.bindCont f (x.run w).1 (x.run w).2 := rfl
  rw [Ends, hbind] at h
  cases hx : x.run w with
  | mk r w₁ =>
    rw [hx] at h
    cases r with
    | error e => cases h
    | ok u => exact ⟨u, w₁, hx, h⟩

theorem Ends.of_lift {x : StateM World α} {v : α} (h : Ends (liftM x) w v w') : x w = (v, w') := by
  have hlift : ((.ok (x w).1, (x w).2) : Except Abort α × World) = (.ok v, w') := h
  cases hx : x w with
  | mk u w₁ =>
    rw [hx] at hlift
    cases hlift
    rfl

theorem ends_writeFile {path content : String} {v : Unit} (h : Ends (writeFile path content) w v w') :
    w.directory.write path content = .ok w'.directory := by
  obtain ⟨r, w₁, hr, h⟩ := h.bind
  have hwrite : World.modify (fun d => d.write path content) w = (r, w₁) := hr.of_lift
  unfold World.modify at hwrite
  cases hd : w.directory.write path content with
  | error e =>
    simp only [hd] at hwrite
    cases hwrite
    cases h
  | ok d =>
    simp only [hd] at hwrite
    cases hwrite
    cases h
    rfl

/-- An output goes to its files. -/
theorem ends_emitFile {v : Unit} (hdir : a.outDir = some directory)
    (h : Ends (emitFile f a path output) w v w') :
    Wrote directory (outputFiles f a path output) w.directory w'.directory := by
  unfold emitFile at h
  cases hrender : a.emit.render f output with
  | error reason =>
    simp only [hrender] at h
    cases h
  | ok text =>
    simp only [hrender, hdir] at h
    obtain ⟨u, w₁, hcode, h⟩ := h.bind
    have hfirst : Wrote directory [(Path.stem path ++ a.emit.extension, .ok text)] w.directory
        w₁.directory := wrote_file (ends_writeFile hcode)
    have hrest : Wrote directory (output.sourceMap.toList.map fun mappings =>
        (Path.stem path ++ ".ts.map.yml", mapText f mappings)) w₁.directory w'.directory := by
      cases hmap : output.sourceMap with
      | none =>
        simp only [hmap] at h
        cases h
        exact wrote_nil directory _
      | some mappings =>
        simp only [hmap] at h
        cases htext : mapText f mappings with
        | error reason =>
          simp only [htext] at h
          cases h
        | ok text =>
          simp only [htext] at h
          rw [Option.toList_some, List.map_singleton, htext]
          exact wrote_file (ends_writeFile h)
    rw [outputFiles, hrender]
    exact hfirst.append hrest

theorem directory_reportLines (kind path : String) (messages : List String) (w : World) :
    (reportLines (m := StateM World) kind path messages w).2.directory = w.directory := by
  induction messages generalizing w with
  | nil => rfl
  | cons message messages ih => exact ih (reportLine (m := StateM World) kind path message w).2

/-- The outputs go to their files in order. -/
theorem ends_emitFiles {outputs : List (String × Output)} {v : Bool}
    (hdir : a.outDir = some directory)
    (h : Ends (emitFiles f a (outputs.map fun x => (x.1, .ok x.2))) w v w') :
    Wrote directory (allFiles f a outputs) w.directory w'.directory := by
  induction outputs generalizing w with
  | nil =>
    cases h
    exact wrote_nil directory _
  | cons x outputs ih =>
    obtain ⟨path, output⟩ := x
    rw [List.map_cons, emitFiles] at h
    obtain ⟨u, w₁, hreport, h⟩ := h.bind
    obtain ⟨u', w₂, hemit, h⟩ := h.bind
    have hdirectory : w₁.directory = w.directory := by
      have hlines := directory_reportLines "W" path output.diagnostics w
      rwa [hreport.of_lift] at hlines
    have hfiles := ends_emitFile hdir hemit
    rw [hdirectory] at hfiles
    exact hfiles.append (ih h)

/-! ### Before anything is written -/

/-- Whatever stood somewhere still stands there afterwards. -/
def Adds (x : StateM World α) : Prop := ∀ w, Extends w.directory (x w).2.directory

namespace Adds

theorem pure {v : α} : Adds (pure v) := fun _ => .refl _

theorem bind {x : StateM World α} {f : α → StateM World β} (hx : Adds x) (hf : ∀ v, Adds (f v)) :
    Adds (x >>= f) := fun w => (hx w).trans (hf (x w).1 (x w).2)

end Adds

theorem adds_makeDirectory (path : String) :
    Adds (Files.makeDirectory (m := StateM World) path) := by
  intro w
  show Extends w.directory (World.modify (fun d => d.make path) w).2.directory
  cases hmake : w.directory.make path with
  | error e =>
    simp only [World.modify, hmake]
    exact .refl _
  | ok d =>
    simp only [World.modify, hmake]
    exact Directory.extends_of_make hmake

theorem adds_acceptDirectory (path : String) (e : FileError) :
    Adds (acceptDirectory (m := StateM World) path e) := by
  have hasked : Adds (Files.isDirectory (m := StateM World) path) := fun _ => .refl _
  refine hasked.bind fun found => ?_
  split
  · exact .pure
  · exact .pure

theorem adds_makeInner (paths : List String) : Adds (makeInner (m := StateM World) paths) := by
  induction paths with
  | nil => exact .pure
  | cons path above ih =>
    rw [makeInner]
    refine (adds_makeDirectory path).bind fun made => ?_
    split
    · exact .pure
    · refine ih.bind fun madeAbove => ?_
      split
      · exact .pure
      · refine (adds_makeDirectory path).bind fun made => ?_
        split
        · exact .pure
        · exact adds_acceptDirectory path _
    · exact adds_acceptDirectory path _

/-- All inputs are files that are transpiled. -/
def Transpiled (o : Options) (d : Directory) (path : String) (output : Output) : Prop :=
  ∃ text, d.read path = .ok text ∧ transpile o text = .ok output

theorem Transpiled.mono {o : Options} (h : Transpiled o d path output) (hextends : Extends d d') :
    Transpiled o d' path output := by
  obtain ⟨text, hread, houtput⟩ := h
  exact ⟨text, Directory.read_of_extends hextends hread, houtput⟩

theorem bind_apply {x : StateM World α} {f : α → StateM World β} {v : α} (h : x w = (v, w₁)) :
    (x >>= f) w = f v w₁ := by
  show f (x w).1 (x w).2 = f v w₁
  rw [h]

theorem transpileFile_eq {o : Options} (h : Transpiled o w.directory path output) :
    transpileFile (m := StateM World) o path w = (.ok output, w) := by
  obtain ⟨text, hread, houtput⟩ := h
  have hasked : Files.read (m := StateM World) path w = (.ok text, w) := by
    show (w.directory.read path, w) = (.ok text, w)
    rw [hread]
  rw [transpileFile, bind_apply hasked]
  simp only [houtput]
  rfl

/-- Inputs that are all transpiled give their outputs in order, and nothing changes. -/
theorem transpileFiles_eq {o : Options} {paths : List String} {outputs : List Output}
    (h : List.Forall₂ (Transpiled o w.directory) paths outputs) :
    transpileFiles (m := StateM World) o paths w =
      ((paths.zip outputs).map fun x => (x.1, .ok x.2), w) := by
  induction h with
  | nil => rfl
  | @cons path output paths outputs hinput _ ih =>
    have hasked : Files.isFile (m := StateM World) path w = (true, w) := by
      obtain ⟨text, hread, -⟩ := hinput
      show (w.directory.isFile path, w) = (true, w)
      rw [Directory.isFile_of_read hread]
    rw [transpileFiles, bind_apply hasked, if_pos rfl, bind_apply (transpileFile_eq hinput),
      bind_apply ih]
    rfl

/-- A run writes the files of all its outputs in order. -/
theorem wrote_of_drive {o : Options} {outputs : List Output} {v : Bool}
    (hdir : a.outDir = some directory) (hoptions : Ends (runOptions f a) w o w)
    (hinputs : List.Forall₂ (Transpiled o w.directory) a.files outputs)
    (hdrive : Ends (drive f a) w v w') :
    ∃ d, Wrote directory (allFiles f a (a.files.zip outputs)) d w'.directory := by
  obtain ⟨o', w₁, ho, hmake⟩ := hdrive.bind
  obtain ⟨rfl, rfl⟩ : o' = o ∧ w₁ = w := by
    cases ho.symm.trans hoptions
    exact ⟨rfl, rfl⟩
  simp only [hdir] at hmake
  obtain ⟨made, w₂, hmade, hemit⟩ := hmake.bind
  have hmade : makeInner (m := StateM World) (Path.chain directory) w₁ = (made, w₂) :=
    hmade.of_lift
  have hextends := adds_makeInner (Path.chain directory) w₁
  rw [hmade] at hextends
  -- the inputs are read from what the directories were added to
  have hkept : List.Forall₂ (Transpiled o' w₂.directory) a.files outputs :=
    hinputs.imp fun _ _ hinput => hinput.mono hextends
  cases made with
  | error e =>
    obtain ⟨_, _, hthrow, -⟩ := hemit.bind
    cases hthrow
  | ok u =>
    obtain ⟨results, w₃, hresults, hemit⟩ := hemit.bind
    have hresults := hresults.of_lift
    rw [transpileFiles_eq hkept] at hresults
    cases hresults
    exact ⟨w₂.directory, ends_emitFiles hdir hemit⟩

/-- A run ends with success only if it was driven to the end. -/
theorem ends_of_run {args : List String} (hargs : f.arguments args = .ok a)
    (hrun : run (m := StateM World) f args w = (success, w')) : Ends (drive f a) w true w' := by
  unfold run at hrun
  simp only [hargs] at hrun
  cases hdrive : (drive (m := StateM World) f a).run w with
  | mk r w₁ =>
    rw [bind_apply hdrive] at hrun
    cases r with
    | error abort => cases hrun
    | ok v =>
      cases v with
      | false => cases hrun
      | true =>
        cases hrun
        exact hdrive

end Runs

/-! ### Whole runs -/

theorem isSome_sourceMap {o : Options} {text : String} (h : transpile o text = .ok output) :
    output.sourceMap.isSome = o.sourceMap := by
  unfold transpile at h
  split at h
  · cases h
  · split at h
    · cases h
    · cases h
      simp only [Output.ofStatements]
      cases o.sourceMap <;> rfl

/-- Two stored outputs of inputs with one stem are the same. -/
theorem outputFiles_eq_of_stored {path' : String} {output' : Output}
    (hstem : Path.stem path = Path.stem path')
    (hmaps : output.sourceMap.isSome = output'.sourceMap.isSome)
    (h : Stored f a directory d path output) (h' : Stored f a directory d path' output') :
    outputFiles f a path output = outputFiles f a path' output' := by
  unfold Stored at h
  rw [outputFiles, hstem] at h
  obtain ⟨hcode, hmap⟩ := List.forall_mem_cons.1 h
  obtain ⟨hcode', hmap'⟩ := List.forall_mem_cons.1 h'
  have hrender : a.emit.render f output = a.emit.render f output' := hcode.eq hcode'
  rw [outputFiles, outputFiles, hstem, hrender]
  cases hsome : output.sourceMap with
  | none =>
    cases hsome' : output'.sourceMap with
    | none => rfl
    | some mappings' => simp [hsome, hsome'] at hmaps
  | some mappings =>
    cases hsome' : output'.sourceMap with
    | none => simp [hsome, hsome'] at hmaps
    | some mappings' =>
      rw [hsome] at hmap
      rw [hsome'] at hmap'
      have htext : mapText f mappings = mapText f mappings' :=
        (hmap _ List.mem_cons_self).eq (hmap' _ List.mem_cons_self)
      simp only [Option.toList_some, List.map_cons, List.map_nil, htext]

/-- **All outputs of a run are there exactly if inputs with one stem have one output**, whatever the
formats of the run are. The last input with a stem always has its output there. -/
theorem run_stores_iff {f : Formats} {args : List String} {a : Arguments} {directory : String}
    {o : Options} {outputs : List Output} {w w' : World} (hargs : f.arguments args = .ok a)
    (hdir : a.outDir = some directory) (hoptions : Ends (runOptions f a) w o w)
    (hinputs : List.Forall₂ (Transpiled o w.directory) a.files outputs)
    (hrun : run (m := StateM World) f args w = (success, w')) :
    ((∀ x ∈ a.files.zip outputs, Stored f a directory w'.directory x.1 x.2) ↔
      ∀ x ∈ a.files.zip outputs, ∀ y ∈ a.files.zip outputs,
        Path.stem x.1 = Path.stem y.1 → outputFiles f a x.1 x.2 = outputFiles f a y.1 y.2) ∧
    ∀ before x behind, a.files.zip outputs = before ++ x :: behind →
      (∀ y ∈ behind, Path.stem x.1 ≠ Path.stem y.1) →
      Stored f a directory w'.directory x.1 x.2 := by
  obtain ⟨d, hwrote⟩ := wrote_of_drive hdir hoptions hinputs (ends_of_run hargs hrun)
  have hlast : ∀ before x behind, a.files.zip outputs = before ++ x :: behind →
      (∀ y ∈ behind, Path.stem x.1 ≠ Path.stem y.1) →
      Stored f a directory w'.directory x.1 x.2 := by
    intro before x behind hsplit hbehind
    rw [hsplit] at hwrote
    exact stored_of_last hwrote hbehind
  refine ⟨⟨?_, ?_⟩, hlast⟩
  · intro hstored x hx y hy hstem
    obtain ⟨text, -, htext⟩ := (List.forall₂_iff_zip.1 hinputs).2 hx
    obtain ⟨text', -, htext'⟩ := (List.forall₂_iff_zip.1 hinputs).2 hy
    have hmaps := (isSome_sourceMap htext).trans (isSome_sourceMap htext').symm
    exact outputFiles_eq_of_stored hstem hmaps (hstored x hx) (hstored y hy)
  · intro hsame x hx
    obtain ⟨before, y, behind, hsplit, hstem, hbehind⟩ := exists_last hx
    have hy : y ∈ a.files.zip outputs := by
      rw [hsplit]
      exact List.mem_append_right _ List.mem_cons_self
    have hstored := hlast before y behind hsplit hbehind
    unfold Stored
    rw [hsame x hx y hy hstem]
    exact hstored

/-! ### Two inputs -/

/-- Two files in directories of their own, and nothing else. -/
def twoFiles (name name' : String) : World where
  directory := (Directory.empty.add ["d", name] (.file "x = 1".toUTF8)).add ["e", name']
    (.file "y = 2".toUTF8)
  output := ""
  errors := ""

/-- The output of a file with a given text has a given code. -/
theorem exists_transpiled (o : Options) (d : Directory) (path text code : String)
    (hread : (d.read path).toOption = some text)
    (hcode : (transpile o text).toOption.map Output.code = some code) :
    ∃ output, Transpiled o d path output ∧ output.code = code := by
  cases houtput : transpile o text with
  | error r => simp [houtput, Except.toOption] at hcode
  | ok output =>
    cases htext : d.read path with
    | error e => simp [htext, Except.toOption] at hread
    | ok text' =>
      simp only [htext, houtput, Except.toOption, Option.map_some, Option.some.injEq] at hread hcode
      subst hread
      exact ⟨output, ⟨text', htext, houtput⟩, hcode⟩

/-- Formats in which a command line is two files with the directory for their outputs behind `-o`. -/
def pairFormats : Formats where
  arguments
    | [path, path', "-o", directory] => .ok { files := [path, path'], outDir := some directory }
    | _ => .error (.misuse "two files and a directory are needed")
  options _ := .ok {}
  document _ := .ok ""

/-- Two inputs with different stems. -/
theorem run_stores_apart :
    ∃ a outputs w', pairFormats.arguments ["d/a.lua", "e/b.lua", "-o", "o"] = .ok a ∧
      a.outDir = some "o" ∧
      Ends (runOptions pairFormats a) (twoFiles "a.lua" "b.lua") {} (twoFiles "a.lua" "b.lua") ∧
      List.Forall₂ (Transpiled {} (twoFiles "a.lua" "b.lua").directory) a.files outputs ∧
      run (m := StateM World) pairFormats ["d/a.lua", "e/b.lua", "-o", "o"]
        (twoFiles "a.lua" "b.lua") = (success, w') ∧
      (∀ x ∈ a.files.zip outputs, Stored pairFormats a "o" w'.directory x.1 x.2) ∧
      ∀ before x behind, a.files.zip outputs = before ++ x :: behind →
        (∀ y ∈ behind, Path.stem x.1 ≠ Path.stem y.1) →
        Stored pairFormats a "o" w'.directory x.1 x.2 := by
  have hargs : pairFormats.arguments ["d/a.lua", "e/b.lua", "-o", "o"] =
      .ok { files := ["d/a.lua", "e/b.lua"], outDir := some "o" } := rfl
  have hsuccess : (run (m := StateM World) pairFormats ["d/a.lua", "e/b.lua", "-o", "o"]
      (twoFiles "a.lua" "b.lua")).1 = success := by decide +kernel
  obtain ⟨output, houtput, -⟩ := exists_transpiled {} (twoFiles "a.lua" "b.lua").directory "d/a.lua"
    "x = 1" "x = 1;\n" (by decide +kernel) (by decide +kernel)
  obtain ⟨output', houtput', -⟩ := exists_transpiled {} (twoFiles "a.lua" "b.lua").directory
    "e/b.lua" "y = 2" "y = 2;\n" (by decide +kernel) (by decide +kernel)
  have hstems : Path.stem "d/a.lua" ≠ Path.stem "e/b.lua" := by decide +kernel
  refine ⟨_, [output, output'], _, hargs, rfl, rfl, .cons houtput (.cons houtput' .nil),
    Prod.ext hsuccess rfl, ?_⟩
  obtain ⟨hiff, hlast⟩ := run_stores_iff hargs rfl rfl (.cons houtput (.cons houtput' .nil))
    (Prod.ext hsuccess rfl)
  refine ⟨hiff.2 fun x hx y hy hstem => ?_, hlast⟩
  simp only [List.zip_cons_cons, List.zip_nil_right, List.mem_cons, List.not_mem_nil, or_false]
    at hx hy
  rcases hx with rfl | rfl <;> rcases hy with rfl | rfl
  · rfl
  · exact absurd hstem hstems
  · exact absurd hstem.symm hstems
  · rfl

/-- Of two inputs with the same stem in different directories the first has its output lost. -/
theorem run_loses_first :
    ∃ a outputs w', pairFormats.arguments ["d/a.lua", "e/a.lua", "-o", "o"] = .ok a ∧
      a.files.Nodup ∧
      List.Forall₂ (Transpiled a.options (twoFiles "a.lua" "a.lua").directory) a.files outputs ∧
      run (m := StateM World) pairFormats ["d/a.lua", "e/a.lua", "-o", "o"]
        (twoFiles "a.lua" "a.lua") = (success, w') ∧
      (w'.directory.read "o/a.ts").toOption = some "y = 2;\n" ∧
      ¬∀ x ∈ a.files.zip outputs, Stored pairFormats a "o" w'.directory x.1 x.2 := by
  have hargs : pairFormats.arguments ["d/a.lua", "e/a.lua", "-o", "o"] =
      .ok { files := ["d/a.lua", "e/a.lua"], outDir := some "o" } := rfl
  have hsuccess : (run (m := StateM World) pairFormats ["d/a.lua", "e/a.lua", "-o", "o"]
      (twoFiles "a.lua" "a.lua")).1 = success := by decide +kernel
  have hread : ((run (m := StateM World) pairFormats ["d/a.lua", "e/a.lua", "-o", "o"]
      (twoFiles "a.lua" "a.lua")).2.directory.read "o/a.ts").toOption = some "y = 2;\n" := by
    decide +kernel
  obtain ⟨output, houtput, hcode⟩ := exists_transpiled {} (twoFiles "a.lua" "a.lua").directory
    "d/a.lua" "x = 1" "x = 1;\n" (by decide +kernel) (by decide +kernel)
  obtain ⟨output', houtput', -⟩ := exists_transpiled {} (twoFiles "a.lua" "a.lua").directory
    "e/a.lua" "y = 2" "y = 2;\n" (by decide +kernel) (by decide +kernel)
  refine ⟨_, [output, output'], _, hargs, by decide, .cons houtput (.cons houtput' .nil),
    Prod.ext hsuccess rfl, hread, fun hstored => ?_⟩
  obtain ⟨text, htext, hfirst⟩ := hstored ("d/a.lua", output) List.mem_cons_self _
    List.mem_cons_self
  have hpath : Path.join "o" (Path.stem "d/a.lua" ++ ".ts") = "o/a.ts" := by decide +kernel
  change Directory.read _ (Path.join "o" (Path.stem "d/a.lua" ++ ".ts")) = .ok text at hfirst
  obtain rfl : output.code = text := Except.ok.inj htext
  rw [hpath, hcode] at hfirst
  rw [hfirst] at hread
  exact absurd hread (by decide)

end LuaTranspiler.CommandLine
