import PixelWrap.File.Output
import PixelWrap.Proofs.FunctionNames

/-!
# The files that are written

Shaders are written one after the other, each to a file that has the name of its function, in
a directory that is made first.  What a write does depends on the directories only, and a
write changes none of them: so all writes can be looked at in the tree in which the first one
takes place.  A path for a file is that of the directory and one more step, because the name
of a function is a word, in which there are no slashes and no dots.

## Main definitions

* `FileTree.SameDirs`, `FileTree.SameFiles`: trees that have the same directories, or the same
  files.
* `FileTree.Accepts`: where a file of the given path is written.
* `FileTree.putAll`: the tree after several writes.
* `Path.IsStep`: a name that leads one step down.
* `Output.Receives`: the files of shaders can be written into a directory.
* `Options.admits`, `Shader.ofFunction`, `Skipped.ofFunction`: the functions that have a shader,
  and what becomes of each.

## Main results

* `FileTree.sameFiles_createDirs`: making directories keeps all files.
* `FileTree.exists_of_resolve_join`: a path leads to a place in the directory that it is joined
  with.
* `Output.Receives.writeInto_eq_ok`: **writes that can be made one by one can be made one after
  the other.**
* `Decl.isName_of_mem_functions`: the name of a function is a word.
* `writeShaders_exact`: **the files that are written are the last definitions of each name**,
  and all others stay as they are.
-/

namespace PixelWrap

/-! ### Trees as maps -/

namespace FileTree

open Preprocessed (bind_eq_ok)

variable {t t' t'' : FileTree} {place q : TreePlace} {path : String} {names : List String}

theorem node?_set_of_ne (t : FileTree) (n : Node) (h : q ≠ place) :
    (t.set place n).node? q = t.node? q := by
  have hlookup : ∀ es : List (TreePlace × Node),
      (es.filter (·.1 ≠ place)).lookup q = es.lookup q := by
    intro es
    induction es with
    | nil => rfl
    | cons e es ih =>
      obtain ⟨p, m⟩ := e
      by_cases hp : p = place
      · subst hp
        rw [List.filter_cons_of_neg (by simp), ih, List.lookup_cons, beq_false_of_ne h]
      · rw [List.filter_cons_of_pos (by simpa using hp), List.lookup_cons, List.lookup_cons, ih]
  unfold node? set
  rw [List.lookup_cons, beq_false_of_ne h, hlookup]

theorem ne_nil_of_node?_ne (h : t.node? place ≠ some .dir) : place ≠ [] := by
  rintro rfl
  exact h (node?_nil t)

/-- The trees have the same directories and the same working directory. -/
structure SameDirs (t t' : FileTree) : Prop where
  cwd : t'.cwd = t.cwd
  dir : ∀ q, t'.node? q = some .dir ↔ t.node? q = some .dir

/-- The trees have the same files. -/
def SameFiles (t t' : FileTree) : Prop :=
  ∀ q c, t'.node? q = some (.file c) ↔ t.node? q = some (.file c)

theorem SameDirs.refl (t : FileTree) : SameDirs t t := ⟨rfl, fun _ => Iff.rfl⟩

theorem SameDirs.trans (h : SameDirs t t') (h' : SameDirs t' t'') : SameDirs t t'' :=
  ⟨h'.cwd.trans h.cwd, fun q => (h'.dir q).trans (h.dir q)⟩

theorem SameFiles.refl (t : FileTree) : SameFiles t t := fun _ _ => Iff.rfl

theorem SameFiles.trans (h : SameFiles t t') (h' : SameFiles t' t'') : SameFiles t t'' :=
  fun q c => (h' q c).trans (h q c)

/-- Writing a file where no directory is changes no directory. -/
theorem sameDirs_set (h : t.node? place ≠ some .dir) (c : Content) :
    SameDirs t (t.set place (.file c)) := by
  refine ⟨rfl, fun q => ?_⟩
  by_cases hq : q = place
  · subst hq
    rw [node?_set_self t _ (ne_nil_of_node?_ne h)]
    exact ⟨nofun, fun hdir => absurd hdir h⟩
  · rw [node?_set_of_ne t _ hq]

/-- Making a directory where nothing is changes no file. -/
theorem sameFiles_set (h : t.node? place = none) : SameFiles t (t.set place .dir) := by
  intro q c
  by_cases hq : q = place
  · subst hq
    have hne : q ≠ [] := ne_nil_of_node?_ne (t := t) (by simp [h])
    rw [node?_set_self t _ hne, h]
    exact ⟨nofun, nofun⟩
  · rw [node?_set_of_ne t _ hq]

/-! ### Making directories -/

theorem sameFiles_of_makeDir (h : t.makeDir place names = .ok t') : SameFiles t t' := by
  obtain ⟨target, -, hmade⟩ := bind_eq_ok.mp h
  split at hmade
  · cases hmade
  · next hnone =>
    cases hmade
    exact sameFiles_set hnone

theorem sameFiles_ensureDir (t : FileTree) (place : TreePlace) (names : List String) :
    SameFiles t (t.ensureDir place names).tree := by
  unfold ensureDir
  split
  · next hmake => exact sameFiles_of_makeDir hmake
  · exact .refl t

theorem sameFiles_createDirsAt (t : FileTree) (place : TreePlace) (names : List String) :
    SameFiles t (t.createDirsAt place names).tree := by
  fun_induction createDirsAt t place names with
  | case1 => exact .refl t
  | case2 names _ _ above _ ih => exact ih
  | case3 names _ _ above _ ih => exact ih.trans (sameFiles_ensureDir _ _ _)
  | case4 names _ _ => exact sameFiles_ensureDir t place names

/-- **Making directories keeps all files.** -/
theorem sameFiles_createDirs (t : FileTree) (path : String) :
    SameFiles t (t.createDirs path).tree := by
  unfold createDirs
  split
  · exact .refl t
  · split
    · exact .refl t
    · exact sameFiles_createDirsAt t _ _

/-! ### Following paths -/

theorem follow_cons_eq_ok {name : String} :
    t.follow place (name :: names) = .ok q ↔ t.node? place = some .dir ∧
      name.utf8ByteSize ≤ Path.maxNameSize ∧ t.follow (stepFrom place name) names = .ok q := by
  rw [follow]
  split
  · next h => simp [h]
  · next h => simp [h]
  · next h =>
    split
    · next hsize =>
      simp only [h, true_and, reduceCtorEq, false_iff, not_and]
      intro hle
      omega
    · next hsize => simp [h, Nat.le_of_not_lt hsize]

theorem follow_append_eq_ok {more : List String} :
    t.follow place (names ++ more) = .ok q ↔
      ∃ m, t.follow place names = .ok m ∧ t.follow m more = .ok q := by
  induction names generalizing place with
  | nil => simp [follow]
  | cons name names ih =>
    rw [List.cons_append, follow_cons_eq_ok, ih]
    constructor
    · rintro ⟨hdir, hsize, m, hm, hq⟩
      exact ⟨m, follow_cons_eq_ok.mpr ⟨hdir, hsize, hm⟩, hq⟩
    · rintro ⟨m, hm, hq⟩
      obtain ⟨hdir, hsize, hm⟩ := follow_cons_eq_ok.mp hm
      exact ⟨hdir, hsize, m, hm, hq⟩

/-- Only the directories count for where a path leads. -/
theorem SameDirs.follow_iff (h : SameDirs t t') :
    t'.follow place names = .ok q ↔ t.follow place names = .ok q := by
  induction names generalizing place with
  | nil => rfl
  | cons name names ih => rw [follow_cons_eq_ok, follow_cons_eq_ok, h.dir, ih]

theorem SameDirs.start_eq (h : SameDirs t t') (path : String) : t'.start path = t.start path := by
  unfold start
  rw [h.cwd]

theorem resolve_eq_ok : t.resolve path = .ok q ↔ refusal? path = none ∧
    t.follow (t.start path) (Path.parts path ++ if Path.endsInSlash path then ["."] else []) =
      .ok q := by
  unfold resolve
  split
  · next e he => simp [he]
  · next he => simp [he]

theorem SameDirs.resolve_iff (h : SameDirs t t') :
    t'.resolve path = .ok q ↔ t.resolve path = .ok q := by
  rw [resolve_eq_ok, resolve_eq_ok, h.start_eq, h.follow_iff]

/-! ### Writing files -/

/-- A file of the given path can be written, and it is written at the place. -/
def Accepts (t : FileTree) (path : String) (place : TreePlace) : Prop :=
  t.resolve path = .ok place ∧ t.node? place ≠ some .dir

theorem SameDirs.accepts_iff (h : SameDirs t t') :
    t'.Accepts path place ↔ t.Accepts path place := by
  unfold Accepts
  rw [h.resolve_iff, ne_eq, ne_eq, h.dir]

theorem Accepts.write_eq (h : t.Accepts path place) (c : Content) :
    t.write path c = .ok (t.set place (.file c)) := by
  refine bind_eq_ok.mpr ⟨place, h.1, ?_⟩
  split
  · next hdir => exact absurd hdir h.2
  · rfl

theorem exists_accepts {c : Content} (h : t.write path c = .ok t') :
    ∃ place, t.Accepts path place := by
  obtain ⟨place, hplace, hwritten⟩ := bind_eq_ok.mp h
  refine ⟨place, hplace, fun hdir => ?_⟩
  simp only [hdir] at hwritten
  cases hwritten

/-- What is written is read. -/
theorem readText_eq_ok {x : Text} (h : t.resolve path = .ok place)
    (hnode : t.node? place = some (.file (.text x))) : t.readText path = .ok x := by
  refine bind_eq_ok.mpr ⟨place, h, ?_⟩
  simp only [hnode]

/-- The tree after each of the contents has been written at its place, one after the
other. -/
def putAll (t : FileTree) (ws : List (TreePlace × Content)) : FileTree :=
  ws.foldl (fun t w => t.set w.1 (.file w.2)) t

/-- Other places stay as they are. -/
theorem node?_putAll_of_forall_ne {ws : List (TreePlace × Content)} (h : ∀ w ∈ ws, w.1 ≠ q) :
    (t.putAll ws).node? q = t.node? q := by
  induction ws generalizing t with
  | nil => rfl
  | cons w ws ih =>
    show ((t.set w.1 (.file w.2)).putAll ws).node? q = t.node? q
    rw [ih fun w hw => h w (List.mem_cons_of_mem _ hw)]
    exact node?_set_of_ne t _ (h w (List.mem_cons_self ..)).symm

/-- **The last write wins.** -/
theorem node?_putAll_last {a b : List (TreePlace × Content)} {c : Content} (hq : q ≠ [])
    (hb : ∀ w ∈ b, w.1 ≠ q) : (t.putAll (a ++ (q, c) :: b)).node? q = some (.file c) := by
  have hsplit : t.putAll (a ++ (q, c) :: b) = ((t.putAll a).set q (.file c)).putAll b := by
    unfold putAll
    rw [List.foldl_append, List.foldl_cons]
  rw [hsplit, node?_putAll_of_forall_ne hb, node?_set_self _ _ hq]

end FileTree

/-! ### Paths -/

namespace Text

variable {sep : Char} {a b : Text}

theorem splitAt_ne_nil (sep : Char) (a : Text) : splitAt sep a ≠ [] := by
  cases a with
  | nil => exact List.cons_ne_nil _ _
  | cons c r =>
    rw [splitAt]
    split
    · exact List.cons_ne_nil _ _
    · split <;> exact List.cons_ne_nil _ _

theorem splitAt_append (sep : Char) (a b : Text) :
    splitAt sep (a ++ sep :: b) = splitAt sep a ++ splitAt sep b := by
  induction a with
  | nil => simp [splitAt]
  | cons c a ih =>
    rw [List.cons_append, splitAt, splitAt, ih]
    split
    · rfl
    · obtain ⟨p, ps, hps⟩ := List.exists_cons_of_ne_nil (splitAt_ne_nil sep a)
      rw [hps]
      rfl

theorem splitAt_of_not_mem (h : sep ∉ a) : splitAt sep a = [a] := by
  induction a with
  | nil => rfl
  | cons c a ih =>
    have hne : ¬(c == sep) = true := by
      simp only [beq_iff_eq]
      rintro rfl
      exact h (List.mem_cons_self ..)
    rw [splitAt, if_neg hne, ih fun hmem => h (List.mem_cons_of_mem _ hmem)]

end Text

namespace Path

variable {dir file : String}

/-- The name leads one step down in a directory. -/
structure IsStep (file : String) : Prop where
  ne_empty : file.toList ≠ []
  slash : '/' ∉ file.toList
  ne_dot : file ≠ "."
  ne_dots : file ≠ ".."

theorem IsStep.isAbsolute_eq (h : IsStep file) : isAbsolute file = false := by
  obtain ⟨c, r, hcr⟩ := List.exists_cons_of_ne_nil h.ne_empty
  have hslash := h.slash
  rw [hcr] at hslash
  have hne : c ≠ '/' := fun hc => hslash (hc ▸ List.mem_cons_self ..)
  simp [isAbsolute, hcr, hne]

/-- In a path in a directory there is one slash in front of the name, which may be that at
the end of the directory. -/
theorem IsStep.toList_join (h : IsStep file) (dir : String) :
    dir.toList = [] ∧ (join dir file).toList = file.toList ∨
      dir.toList ≠ [] ∧ ∃ base, (join dir file).toList = base ++ '/' :: file.toList ∧
        (dir.toList = base ∨ dir.toList = base ++ ['/']) := by
  unfold join
  rw [h.isAbsolute_eq]
  by_cases hempty : dir.toList = []
  · left
    have hdir : dir = "" := String.toList_inj.mp hempty
    simp [hdir]
  · right
    have hdir : dir.isEmpty = false := by
      by_contra hdir
      exact hempty (by simp_all)
    refine ⟨hempty, ?_⟩
    by_cases hslash : endsInSlash dir = true
    · obtain ⟨base, hbase⟩ := List.getLast?_eq_some_iff.mp (beq_iff_eq.mp hslash)
      refine ⟨base, ?_, .inr hbase⟩
      simp [hslash, hbase]
    · refine ⟨dir.toList, ?_, .inl rfl⟩
      simp [hslash, hdir]

/-- **The steps of a path in a directory are those of the directory and one more.** -/
theorem IsStep.parts_join (h : IsStep file) (dir : String) :
    parts (join dir file) = parts dir ++ [file] := by
  have hlast : Text.splitAt '/' file.toList = [file.toList] := Text.splitAt_of_not_mem h.slash
  unfold parts
  rcases h.toList_join dir with ⟨hdir, hjoin⟩ | ⟨-, base, hjoin, hdir⟩
  · rw [hdir, hjoin, hlast]
    simp [Text.splitAt, h.ne_empty]
  · rw [hjoin, Text.splitAt_append, hlast]
    rcases hdir with hdir | hdir
    · rw [hdir]
      simp [h.ne_empty]
    · rw [hdir, Text.splitAt_append]
      simp [Text.splitAt, h.ne_empty]

theorem IsStep.isAbsolute_join (h : IsStep file) (dir : String) :
    isAbsolute (join dir file) = isAbsolute dir := by
  rcases h.toList_join dir with ⟨hdir, hjoin⟩ | ⟨hne, base, hjoin, hdir⟩
  · have habsolute := h.isAbsolute_eq
    rw [isAbsolute, hjoin, ← isAbsolute, habsolute, isAbsolute, hdir]
    rfl
  · rw [isAbsolute, isAbsolute, hjoin]
    cases base with
    | nil =>
      rcases hdir with hdir | hdir
      · exact absurd hdir hne
      · rw [hdir]
        rfl
    | cons c base =>
      rcases hdir with hdir | hdir
      · rw [hdir]
        rfl
      · rw [hdir]
        rfl

theorem IsStep.endsInSlash_join (h : IsStep file) (dir : String) :
    endsInSlash (join dir file) = false := by
  have hlast : (join dir file).toList.getLast? = file.toList.getLast? := by
    rcases h.toList_join dir with ⟨-, hjoin⟩ | ⟨-, base, hjoin, -⟩
    · rw [hjoin]
    · rw [hjoin, List.getLast?_append, List.getLast?_cons,
        List.getLast?_eq_some_getLast h.ne_empty]
      rfl
  rw [endsInSlash, hlast]
  refine beq_false_of_ne fun hslash => h.slash (List.mem_of_getLast? hslash)

end Path

namespace FileTree

variable {t : FileTree} {dir file : String} {q : TreePlace}

/-- **A path leads to a place in the directory that it is joined with.** -/
theorem exists_of_resolve_join (h : Path.IsStep file)
    (hq : t.resolve (Path.join dir file) = .ok q) :
    ∃ place, t.follow (t.start dir) (Path.parts dir) = .ok place ∧ t.node? place = some .dir ∧
      q = place ++ [file] := by
  obtain ⟨-, hfollow⟩ := resolve_eq_ok.mp hq
  have hstart : t.start (Path.join dir file) = t.start dir := by
    rw [start, start, h.isAbsolute_join]
  rw [hstart, h.parts_join, h.endsInSlash_join, if_neg Bool.false_ne_true, List.append_nil,
    follow_append_eq_ok] at hfollow
  obtain ⟨place, hplace, hstep⟩ := hfollow
  obtain ⟨hdir, -, hlast⟩ := follow_cons_eq_ok.mp hstep
  refine ⟨place, hplace, hdir, ?_⟩
  rw [stepFrom, if_neg h.ne_dot, if_neg h.ne_dots, follow] at hlast
  exact (Except.ok.inj hlast).symm

end FileTree

/-! ### Shaders -/

namespace Output

open FileTree

variable {t : FileTree} {dir : String} {ss : List Shader} {place : TreePlace}

/-- The directory is at the place, and the files of the shaders can be written into it. -/
structure Receives (t : FileTree) (dir : String) (ss : List Shader) (place : TreePlace) : Prop where
  follow : ∀ s ∈ ss, t.follow (t.start dir) (Path.parts dir) = .ok place ∧
    t.node? place = some .dir
  accepts : ∀ s ∈ ss, t.Accepts (Path.join dir s.fileName) (place ++ [s.fileName])

/-- If each file can be written, then all of them are written into one directory. -/
theorem exists_receives (hsteps : ∀ s ∈ ss, Path.IsStep s.fileName)
    (hwrites : ∀ s ∈ ss, ∃ t', t.write (Path.join dir s.fileName) (.text s.text) = .ok t') :
    ∃ place, Receives t dir ss place := by
  -- What one write says about the directory.
  have hone : ∀ s ∈ ss, ∃ place,
      (t.follow (t.start dir) (Path.parts dir) = .ok place ∧ t.node? place = some .dir) ∧
        t.Accepts (Path.join dir s.fileName) (place ++ [s.fileName]) := by
    intro s hs
    obtain ⟨t', ht'⟩ := hwrites s hs
    obtain ⟨q, hq⟩ := exists_accepts ht'
    obtain ⟨place, hplace, hdir, rfl⟩ := exists_of_resolve_join (hsteps s hs) hq.1
    exact ⟨place, ⟨hplace, hdir⟩, hq⟩
  rcases ss with _ | ⟨s, ss⟩
  · exact ⟨[], nofun, nofun⟩
  · obtain ⟨place, hplace, -⟩ := hone s (List.mem_cons_self ..)
    refine ⟨place, fun _ _ => hplace, fun s' hs' => ?_⟩
    obtain ⟨place', hplace', haccepts⟩ := hone s' hs'
    cases hplace.1.symm.trans hplace'.1
    exact haccepts

theorem Receives.of_sameDirs {t' : FileTree} (h : Receives t dir ss place) (hsame : SameDirs t t') :
    Receives t' dir ss place := by
  refine ⟨fun s hs => ?_, fun s hs => hsame.accepts_iff.mpr (h.accepts s hs)⟩
  obtain ⟨hfollow, hdir⟩ := h.follow s hs
  rw [hsame.start_eq, hsame.follow_iff, hsame.dir]
  exact ⟨hfollow, hdir⟩

/-- The places of files and what is written there. -/
def writes (place : TreePlace) (ss : List Shader) : List (TreePlace × Content) :=
  ss.map fun s => (place ++ [s.fileName], .text s.text)

theorem name_eq_of_fileName {s s' : Shader} (h : s.fileName = s'.fileName) : s.name = s'.name := by
  have hlist := congrArg String.toList h
  rw [Shader.fileName, Shader.fileName, String.toList_append, String.toList_append] at hlist
  exact String.toList_inj.mp (List.append_cancel_right hlist)

/-- A file holds the last shader of its name. -/
theorem node?_putAll_writes {a b : List Shader} {s : Shader} (hb : ∀ s' ∈ b, s'.name ≠ s.name) :
    (t.putAll (writes place (a ++ s :: b))).node? (place ++ [s.fileName]) =
      some (.file (.text s.text)) := by
  rw [writes, List.map_append, List.map_cons]
  apply node?_putAll_last
  · simp
  · intro w hw heq
    obtain ⟨s', hs', rfl⟩ := List.mem_map.mp hw
    have hfile : s'.fileName = s.fileName := by simpa using heq
    exact hb s' hs' (name_eq_of_fileName hfile)

/-- **Writes that can be made one by one can be made one after the other**, and they change
no directory. -/
theorem Receives.writeInto_eq_ok (h : Receives t dir ss place) :
    (writeInto t dir ss).result = .ok (ss.map fun s => Path.join dir s.fileName) ∧
      (writeInto t dir ss).tree = t.putAll (writes place ss) ∧
      SameDirs t (writeInto t dir ss).tree := by
  fun_induction writeInto t dir ss with
  | case1 t => exact ⟨rfl, rfl, .refl t⟩
  | case2 t s ss path e he =>
    have hs := h.accepts s (List.mem_cons_self ..)
    cases he.symm.trans (hs.write_eq _)
  | case3 t s ss path t' ht' w ih =>
    -- The first write leaves the directories as they are, so the others can be made as well.
    have hs := h.accepts s (List.mem_cons_self ..)
    have hsame := sameDirs_set hs.2 (.text s.text)
    cases ht'.symm.trans (hs.write_eq _)
    obtain ⟨hresult, htree, hdirs⟩ := ih (Receives.of_sameDirs
      ⟨fun s hs => h.follow s (List.mem_cons_of_mem _ hs),
        fun s hs => h.accepts s (List.mem_cons_of_mem _ hs)⟩ hsame)
    refine ⟨?_, htree, hsame.trans hdirs⟩
    rw [hresult, List.map_cons, Except.map]

end Output

/-! ### Functions with and without shaders -/

/-- Whether the function has few enough parameters for a shader. -/
def Options.admits (o : Options) (f : Function) : Bool :=
  decide (f.signature.params.length ≤ o.maxParams)

/-- The shader of a function that is admitted. -/
def Shader.ofFunction (o : Options) (f : Function) : Shader :=
  ⟨f.signature.name, Shader.renderFile o f, Shader.renderConsole o f⟩

/-- What is kept of a function that is not. -/
def Skipped.ofFunction (o : Options) (f : Function) : Skipped :=
  ⟨f.signature.name, f.signature.location, f.signature.params.length, o.maxParams⟩

theorem Shader.render_eq (o : Options) (f : Function) : Shader.render o f =
    if o.admits f then .ok (Shader.ofFunction o f) else .error (Skipped.ofFunction o f) := by
  unfold Shader.render Options.admits
  by_cases h : f.signature.params.length ≤ o.maxParams
  · rw [if_neg (Nat.not_lt.mpr h), if_pos (decide_eq_true h)]
    rfl
  · rw [if_pos (Nat.lt_of_not_le h), if_neg (by simpa using h)]
    rfl

/-- **Each function has a shader or is skipped**, and both lists are in the order of the
functions. -/
theorem Shaders.ofFunctions_eq (o : Options) (fs : List Function) :
    Shaders.ofFunctions o fs = ⟨(fs.filter o.admits).map (Shader.ofFunction o),
      (fs.filter fun f => !o.admits f).map (Skipped.ofFunction o)⟩ := by
  induction fs with
  | nil => rfl
  | cons f fs ih =>
    obtain ⟨hshaders, hskipped⟩ := Shaders.mk.inj ih
    unfold Shaders.ofFunctions
    rw [List.filterMap_cons, List.filterMap_cons, hshaders, hskipped, Shader.render_eq]
    by_cases h : o.admits f = true
    · simp [h, shader?, skipped?]
    · simp [h, shader?, skipped?]

namespace Decl

open PixelWrap.Decl.Parser Grammar Token

/-- What is read as a name is one. -/
theorem isName_of_lex {p : Preprocessed} {ts : List Lexeme} {l : Lexeme} {n : String}
    (hlex : lex p = .ok ts) (hl : l ∈ ts) (hn : l.token = .name n) :
    Text.isName n.toList = true := by
  obtain ⟨cs, g, -, hread, rfl⟩ := exists_reading_of_lex hlex
  rcases List.mem_append.mp hl with hl | hl
  · obtain ⟨a, b, hab⟩ := List.append_of_mem hl
    obtain ⟨cs₁, c, cs₂, rfl, -, rfl⟩ := exists_of_lexemes_eq hab
    obtain ⟨x, r, hxr, hx, rfl, hword⟩ := (reading_append.mp hread).2.1.of_name hn
    rw [String.toList_ofList, hxr, Condition.isName_cons_iff]
    refine ⟨hx, fun d hd => ?_⟩
    have hmem : d ∈ (c.text ++ (raw cs₂ ++ g)).takeWhile isNameChar := by
      rw [hword, hxr]
      exact List.mem_cons_of_mem _ hd
    exact List.mem_takeWhile_imp hmem
  · cases List.mem_singleton.mp hl
    cases hn

/-- The name of a function is a word. -/
theorem isName_of_mem_functions {p : Preprocessed} {ts : List Lexeme} {ds : List Decl}
    (hlex : lex p = .ok ts) (hparse : parse p ts = .ok ds) {f : Function}
    (hf : f ∈ functions ds) : Text.isName f.signature.name.toList = true := by
  obtain ⟨front, us, rest, rfl, hdecl⟩ := exists_declaration_of_mem_functions hparse hf
  obtain ⟨r, hsignature⟩ := signature_of_declaration hdecl rfl
  obtain ⟨l, hname, -⟩ := exists_nameIs hsignature
  obtain ⟨before, k, after, rfl, -⟩ := hname.exists_front
  obtain ⟨_, _, _, _, _, _, -, -, -, hl, -⟩ := hname
  exact isName_of_lex hlex (by simp) hl

end Decl

theorem exists_lex_of_outline {p : Preprocessed} {ds : List Decl} (h : outline p = .ok ds) :
    ∃ ts, Token.lex p = .ok ts ∧ Decl.parse p ts = .ok ds := by
  unfold outline at h
  split at h
  · cases h
  · next ts hlex =>
    refine ⟨ts, hlex, ?_⟩
    cases hparse : Decl.parse p ts with
    | error e =>
      rw [hparse] at h
      cases h
    | ok ds' =>
      rw [hparse] at h
      cases h
      rfl

/-- The file of a function is a step down from its directory. -/
theorem Shader.isStep_fileName {s : Shader} (h : Text.isName s.name.toList = true) :
    Path.IsStep s.fileName := by
  have hlist : s.fileName.toList = s.name.toList ++ ".hlsl".toList := String.toList_append
  have hlength : 5 ≤ s.fileName.toList.length := by
    rw [hlist, List.length_append]
    exact Nat.le_add_left ..
  refine ⟨?_, ?_, ?_, ?_⟩
  · rintro hnil
    rw [hnil] at hlength
    cases hlength
  · intro hslash
    rw [hlist] at hslash
    rcases List.mem_append.mp hslash with hslash | hslash
    · cases hname : s.name.toList with
      | nil =>
        rw [hname] at hslash
        cases hslash
      | cons c r =>
        rw [hname] at h hslash
        obtain ⟨hc, hr⟩ := Condition.isName_cons_iff.mp h
        rcases List.mem_cons.mp hslash with rfl | hslash
        · cases hc
        · cases hr _ hslash
    · revert hslash
      decide
  · intro hdot
    rw [hdot] at hlength
    exact absurd hlength (by decide)
  · intro hdots
    rw [hdots] at hlength
    exact absurd hlength (by decide)

/-- **The files that are written are the last definitions of each name.**  If the directory
can be made and each file can be written into it, then there is one path for each function
with few enough parameters, in order.  The name of the function is a word, so that the file is
in the directory itself.  It holds the last definition of the name that has a shader, whatever
definitions without one come later.  All other files stay as they are, and none is added. -/
theorem writeShaders_exact (load : String → Option Text) (o : Options) (name : String) (text : Text)
    {g : Shaders} (h : (generate load o name text).result = .ok g) {t : FileTree} {dir : String}
    (hdir : (t.createDirs dir).error = none)
    (hwrites : ∀ s ∈ g.shaders, ∃ t',
      (t.createDirs dir).tree.write (Path.join dir s.fileName) (.text s.text) = .ok t') :
    ∃ p ds w place, (Preprocessed.run load (some name) text).result = .ok p ∧
      outline p = .ok ds ∧ writeShaders t dir g.shaders = w ∧
      g.shaders = ((functions ds).filter o.admits).map (Shader.ofFunction o) ∧
      g.skipped = ((functions ds).filter fun f => !o.admits f).map (Skipped.ofFunction o) ∧
      w.result = .ok (((functions ds).filter o.admits).map fun f =>
        Path.join dir (f.signature.name ++ ".hlsl")) ∧
      (∀ f ∈ functions ds, Text.isName f.signature.name.toList = true) ∧
      (∀ f ∈ functions ds, o.admits f = true →
        w.tree.follow (w.tree.start dir) (Path.parts dir) = .ok place ∧
        w.tree.node? place = some .dir ∧
        w.tree.resolve (Path.join dir (f.signature.name ++ ".hlsl")) =
          .ok (place ++ [f.signature.name ++ ".hlsl"])) ∧
      (∀ a f b, functions ds = a ++ f :: b → o.admits f = true →
        (∀ f' ∈ b, f'.signature.name = f.signature.name → o.admits f' = false) →
        w.tree.readText (Path.join dir (f.signature.name ++ ".hlsl")) =
          .ok (Shader.renderFile o f)) ∧
      ∀ q, (∀ f ∈ functions ds, o.admits f = true →
          q ≠ place ++ [f.signature.name ++ ".hlsl"]) →
        ∀ c, w.tree.node? q = some (.file c) ↔ t.node? q = some (.file c) := by
  obtain ⟨p, ds, hp, hds, rfl⟩ := exists_of_generate h
  obtain ⟨ts, hlex, hparse⟩ := exists_lex_of_outline hds
  rw [Shaders.ofFunctions_eq] at hwrites ⊢
  have hnames : ∀ f ∈ functions ds, Text.isName f.signature.name.toList = true :=
    fun f hf => Decl.isName_of_mem_functions hlex hparse hf
  have hsteps : ∀ s ∈ ((functions ds).filter o.admits).map (Shader.ofFunction o),
      Path.IsStep s.fileName := by
    intro s hs
    obtain ⟨f, hf, rfl⟩ := List.mem_map.mp hs
    exact Shader.isStep_fileName (hnames f (List.mem_filter.mp hf).1)
  obtain ⟨place, hreceives⟩ := Output.exists_receives hsteps hwrites
  obtain ⟨hresult, htree, hsame⟩ := hreceives.writeInto_eq_ok
  have hw : writeShaders t dir (((functions ds).filter o.admits).map (Shader.ofFunction o)) =
      Output.writeInto (t.createDirs dir).tree dir
        (((functions ds).filter o.admits).map (Shader.ofFunction o)) := by
    simp only [writeShaders, hdir]
  have hafter := hreceives.of_sameDirs hsame
  have hmem : ∀ f ∈ functions ds, o.admits f = true →
      Shader.ofFunction o f ∈ ((functions ds).filter o.admits).map (Shader.ofFunction o) :=
    fun f hf ha => List.mem_map_of_mem (List.mem_filter.mpr ⟨hf, ha⟩)
  refine ⟨p, ds, _, place, hp, hds, hw, rfl, rfl, ?_, hnames, ?_, ?_, ?_⟩
  · rw [hresult, List.map_map]
    rfl
  · intro f hf ha
    obtain ⟨hfollow, hnode⟩ := hafter.follow _ (hmem f hf ha)
    exact ⟨hfollow, hnode, (hafter.accepts _ (hmem f hf ha)).1⟩
  · intro a f b hsplit ha hlast
    have hf : f ∈ functions ds := by
      rw [hsplit]
      simp
    refine FileTree.readText_eq_ok (hafter.accepts _ (hmem f hf ha)).1 ?_
    rw [htree, hsplit, List.filter_append, List.filter_cons_of_pos ha, List.map_append,
      List.map_cons]
    apply Output.node?_putAll_writes
    intro s hs hname
    obtain ⟨f', hf', rfl⟩ := List.mem_map.mp hs
    obtain ⟨hb, ha'⟩ := List.mem_filter.mp hf'
    rw [hlast f' hb hname] at ha'
    cases ha'
  · intro q hq c
    rw [htree, FileTree.node?_putAll_of_forall_ne, FileTree.sameFiles_createDirs t dir q c]
    intro w hw
    obtain ⟨s, hs, rfl⟩ := List.mem_map.mp hw
    obtain ⟨f, hf, rfl⟩ := List.mem_map.mp hs
    obtain ⟨hf, ha⟩ := List.mem_filter.mp hf
    exact (hq f hf ha).symm

/-- A tree in which there are older shaders in the directory. -/
def olderTree : FileTree :=
  ⟨[], [(["out"], .dir), (["out", "f.hlsl"], .file (.text ['x'])),
    (["out", "g.hlsl"], .file (.text ['y']))]⟩

theorem createDirs_olderTree : olderTree.createDirs "out" = ⟨olderTree, none⟩ := by
  cbv

theorem accepts_olderTree : olderTree.Accepts "out/f.hlsl" ["out", "f.hlsl"] :=
  ⟨rfl, by decide⟩

/-- Shaders have no parameters. -/
def bareOptions : Options := { maxParams := 0 }

/-- Two definitions of a function without parameters, and one more with a parameter, as has
another function. -/
def overloadSource : Text :=
  ("float f()\x7b\x7d\nfloat f()\x7breturn 1;\x7d\n" ++
    "float f(float a)\x7b\x7d\nfloat g(float a)\x7b\x7d\n").toList

/-- A function of the source. -/
def overload (name : String) (line : Nat) (ps : List Param) (body : Text) (span : Span) :
    Function :=
  ⟨⟨name, ⟨some "s", line, 7⟩, ⟨"float".toList, false⟩, ps, none, []⟩, body, span⟩

def firstOverload : Function := overload "f" 1 [] "\x7b\x7d".toList ⟨9, 11⟩

def secondOverload : Function := overload "f" 2 [] "\x7breturn 1;\x7d".toList ⟨21, 32⟩

/-- The functions with a parameter. -/
def withParam (name : String) (line : Nat) (span : Span) : Function :=
  overload name line [⟨"a", [], ⟨"float".toList, false⟩, [], none, none, "float a".toList⟩]
    "\x7b\x7d".toList span

/-- All functions of the source. -/
def overloads : List Function :=
  [firstOverload, secondOverload, withParam "f" 3 ⟨49, 51⟩, withParam "g" 4 ⟨68, 70⟩]

theorem decls?_overloadSource :
    decls? (fun _ => none) "s" overloadSource 40 = some (overloads.map .function) := by
  cbv

/-- The second definition overwrites the first one and the older shader.  Nothing is written for
the functions with a parameter. -/
theorem writeShaders_exact_overloads :
    ∃ g w, (generate (fun _ => none) bareOptions "s" overloadSource).result = .ok g ∧
      g.shaders = [firstOverload, secondOverload].map (Shader.ofFunction bareOptions) ∧
      g.skipped = [withParam "f" 3 ⟨49, 51⟩, withParam "g" 4 ⟨68, 70⟩].map
        (Skipped.ofFunction bareOptions) ∧
      writeShaders olderTree "out" g.shaders = w ∧
      w.result = .ok ["out/f.hlsl", "out/f.hlsl"] ∧
      w.tree.readText "out/f.hlsl" = .ok (Shader.renderFile bareOptions secondOverload) ∧
      w.tree.node? ["out", "g.hlsl"] = some (.file (.text ['y'])) := by
  have hjoin : Path.join "out" ("f" ++ ".hlsl") = "out/f.hlsl" := by decide
  have hname : ∀ f ∈ overloads, bareOptions.admits f = true → f.signature.name = "f" := by decide
  have hgenerate : (generate (fun _ => none) bareOptions "s" overloadSource).result =
      .ok (Shaders.ofFunctions bareOptions overloads) :=
    generate_of_decls? 40 decls?_overloadSource bareOptions
  have hwrites : ∀ s ∈ (Shaders.ofFunctions bareOptions overloads).shaders, ∃ t',
      (olderTree.createDirs "out").tree.write (Path.join "out" s.fileName) (.text s.text) =
        .ok t' := by
    intro s hs
    rw [Shaders.ofFunctions_eq] at hs
    obtain ⟨f, hf, rfl⟩ := List.mem_map.mp hs
    obtain ⟨hf, ha⟩ := List.mem_filter.mp hf
    rw [createDirs_olderTree]
    change ∃ t', olderTree.write (Path.join "out" (f.signature.name ++ ".hlsl")) _ = _
    rw [hname f hf ha, hjoin]
    exact ⟨_, accepts_olderTree.write_eq _⟩
  obtain ⟨p, ds, w, place, hp, hds, hw, -, -, hresult, -, -, hlast, hothers⟩ :=
    writeShaders_exact (fun _ => none) bareOptions "s" overloadSource hgenerate
      (by rw [createDirs_olderTree]) hwrites
  obtain ⟨p', ts, hp', hlex, hparse⟩ := exists_of_decls? 40 decls?_overloadSource
  cases hp.symm.trans hp'
  obtain ⟨ts', hlex', hparse'⟩ := exists_lex_of_outline hds
  cases hlex.symm.trans hlex'
  cases hparse.symm.trans hparse'
  have hfile := hlast [firstOverload] secondOverload _ rfl rfl (by decide)
  change w.result = .ok [Path.join "out" ("f" ++ ".hlsl"), Path.join "out" ("f" ++ ".hlsl")]
    at hresult
  rw [hjoin] at hresult
  refine ⟨_, w, hgenerate, rfl, rfl, hw, hresult, hjoin ▸ hfile, (hothers _ ?_ _).mpr rfl⟩
  intro f hf ha heq
  rw [hname f hf ha] at heq
  have hlast := congrArg List.getLast? heq
  rw [List.getLast?_concat] at hlast
  exact absurd hlast (by decide)

end PixelWrap
