import TpchBench.Image.Manifest

/-! # Building an image

`module.py` writes one manifest from those of the modules, where variables stand for directories,
and `upload_manifest.py` reads it, finds the files of the host and sends them to the guest that
unpacks them.
-/

namespace TpchBench.Image

open Python Matcher

def reference : Text → Option (Text × Text) :=
  lits ['$', '{'] (star (· ≠ '\n') fun name => lits ['}'] fun r => some (name, r))

/-- `expand` of `module.py`. -/
def expandVariables (vars : Text → Option Text) (text : Text) : Except Text Text :=
  sub reference (fun name =>
    match vars name with
    | none => .error ("Undefined variable: ".toList ++ name)
    | some value => .ok value) text

def libgccReference : Text := "%(libgcc_s_dir)s".toList

section Append

variable (vars : Text → Option Text) (libgccSDir : Text)

def appendLine (line : Text) : Except Text Text :=
  let line := rstripSpace line
  if line = "[manifest]".toList then .ok []
  else (expandVariables vars (line ++ ['\n'])).map fun expanded =>
    if libgccSDir.length > 0 then replace libgccReference libgccSDir expanded else expanded

def appendLines : List Text → Except Text Text
  | [] => .ok []
  | line :: lines => do
    let s ← appendLine vars libgccSDir line
    let rest ← appendLines lines
    .ok (s ++ rest)

def appendManifest (file : Text) : Except Text Text :=
  appendLines vars libgccSDir (readlines file)

end Append

/-- A module: its directory, its `usr.manifest` if it has one, and what its `usr_files` say. -/
structure Module where
  localPath : Text
  usrManifest : Option Text
  usrFiles : List (Text × Text)

/-- What the script needs to know: the directories, the skeleton, the modules, and what the
applications add. -/
structure Config where
  osvBase : Text
  libgccSDir : Text
  skel : Text
  modules : List Module
  apps : List (Text × Text)

namespace Config

variable (config : Config)

def vars (mod : Module) : Text → Option Text := fun name =>
  if name = "MODULE_DIR".toList then some mod.localPath
  else if name = "OSV_BASE".toList then some config.osvBase
  else none

def moduleManifest (mod : Module) : Except Text Text :=
  match mod.usrManifest with
  | none => .ok (asManifest mod.usrFiles)
  | some file => (appendManifest (config.vars mod) config.libgccSDir file).map
      (· ++ asManifest mod.usrFiles)

def moduleManifests : List Module → Except Text Text
  | [] => .ok []
  | mod :: modules => do
    let s ← config.moduleManifest mod
    let rest ← moduleManifests modules
    .ok (s ++ rest)

/-- `generate_manifests` for `usr.manifest`. -/
def generateManifest : Except Text Text := do
  let skel ← appendManifest (fun _ => none) config.libgccSDir config.skel
  let modules ← config.moduleManifests config.modules
  .ok ("[manifest]\n".toList ++ (skel ++ (modules ++ asManifest config.apps)))

end Config

def conversion (s : Text) : Option (Option Text × Text) :=
  (lits "%%".toList (fun r => some (none, r)) s).or
    (lits "%(".toList (plus (· ≠ ')') fun key => lits ")s".toList fun r => some (some key, r)) s)

def formatPieces (defines : Text → Option Text) : List (Option Text ⊕ Char) → Except Text Text
  | [] => .ok []
  | .inl none :: rest => (formatPieces defines rest).map ('%' :: ·)
  | .inl (some key) :: rest =>
    match defines key with
    | none => .error key
    | some value => (formatPieces defines rest).map (value ++ ·)
  | .inr c :: rest =>
    if c = '%' then .error "unsupported format character".toList
    else (formatPieces defines rest).map (c :: ·)

/-- `s % defines` for texts whose conversions are `%%` and `%(key)s`. Every other one counts as an
error here, though Python prints the whole dictionary for `%s`. -/
def percentFormat (defines : Text → Option Text) (s : Text) : Except Text Text :=
  formatPieces defines (pieces conversion s)

/-- What the script sees of the host: the files, what `os.path.exists` and `os.walk` say, and how
many calls may be nested. -/
structure Host where
  file : Text → Option HostFile
  pathExists : Text → Bool
  walk : Text → List (Text × List Text)
  recursionLimit : ℕ

def dirname (path : Text) : Text :=
  let head := path.rdropWhile (· ≠ '/')
  if head.all (· = '/') then head else head.rdropWhile (· = '/')

theorem prefix_dirname (path : Text) : dirname path <+: path := by
  unfold dirname
  dsimp only
  split_ifs
  · exact List.rdropWhile_prefix _ _
  · exact (List.rdropWhile_prefix _ _).trans (List.rdropWhile_prefix _ _)

/-- Why the script fails: with an exception, or because it does not end. -/
inductive Failure where
  | exception (what : Text)
  | endless
  deriving DecidableEq, Repr

namespace Host

variable (host : Host)

/-- `expand` of `manifest_common.py`, for one entry. -/
def expandEntry (entry : Text × Text) : List (Text × Text) :=
  let (name, hostname) := entry
  if "/**".toList <:+ name ∧ "/**".toList <:+ hostname then
    let name := name.dropLast.dropLast
    let hostname := hostname.dropLast.dropLast
    (host.walk hostname).flatMap fun (dirpath, filenames) =>
      filenames.map fun filename =>
        let relpath := dirpath.drop hostname.length
        let relpath := if relpath ≠ [] then relpath ++ ['/'] else relpath
        (name ++ (relpath ++ filename), hostname ++ (relpath ++ filename))
  else
    match partition "/&/".toList name with
    | some (pre, suffix) =>
      if "/&".toList <:+ hostname then [(pre ++ '/' :: suffix, hostname.dropLast ++ suffix)]
      else [(name, hostname)]
    | none => [(name, hostname)]

def readlink (f : Text) : Option Text :=
  match host.file f with
  | some (.symlink _ target) => some target
  | _ => none

/-- The directory above `base` under which the target of a link exists, if there is one. The
search does not end at a directory that is its own parent but not `/`. -/
def searchBase (link base : Text) : Except Failure (Option Text) :=
  if host.pathExists (base ++ link) then .ok (some base)
  else if base = ['/'] then .ok none
  else if dirname base = base then .error .endless
  else searchBase link (dirname base)
termination_by base.length
decreasing_by exact lt_of_le_of_ne (prefix_dirname base).length_le fun h =>
  ‹¬ dirname base = base› ((prefix_dirname base).eq_of_length h)

/-- The file that `unsymlink` looks at next. -/
def nextLink (f : Text) : Except Failure (Option Text) :=
  match host.readlink f with
  | none => .ok none
  | some link =>
    if link.head? = some '/' then
      (host.searchBase link (dirname f)).map (Option.map (· ++ link))
    else .ok (some (dirname f ++ '/' :: link))

/-- `unsymlink` with the given number of nested calls; there is no result if they are too few,
and then the caller returns its own file. -/
def unsymlinkAt : ℕ → Text → Except Failure (Option Text)
  | 0, _ => .ok none
  | n + 1, f =>
    if f.head? = some '!' then .ok (some f.tail)
    else if "->".toList <+: f then .ok (some f)
    else do
      match ← host.nextLink f with
      | none => .ok (some f)
      | some g => (unsymlinkAt n g).map fun r => some (r.getD f)

def unsymlink (f : Text) : Except Failure Text := do
  match ← host.unsymlinkAt host.recursionLimit f with
  | none => .error (.exception "maximum recursion depth exceeded".toList)
  | some g => .ok g

/-- The files that `upload` sends for a manifest. -/
def files (defines : Text → Option Text) (manifest : List (Text × Text)) :
    Except Failure (List (Text × Text)) := do
  let manifest ← manifest.mapM fun (x, y) =>
    ((percentFormat defines y).mapError .exception).map (x, ·)
  (manifest.flatMap host.expandEntry).mapM fun (x, y) => (host.unsymlink y).map (x, ·)

end Host

/-- The build: the manifest is generated and read, the files are sent, and the guest unpacks
them. -/
def Config.build (config : Config) (host : Host) (stripFile : Text → Text) :
    Except Failure (Bool × List Event × Except Fault Unit) := do
  let text ← config.generateManifest.mapError .exception
  let manifest ← (readManifest text).mapError .exception
  let defines := fun key => if key = "libgcc_s_dir".toList then some config.libgccSDir else none
  let files ← host.files defines manifest
  let (sent, ok) := upload host.file stripFile files
  .ok (ok, parse sent)

theorem exists_of_reference {s r name : Text} (h : reference s = some (name, r)) :
    s = ['$', '{'] ++ (name ++ ('}' :: r)) := by
  obtain ⟨t, rfl, ht⟩ := exists_of_lits h
  obtain ⟨run, r', rfl, hr⟩ := exists_of_star ht
  obtain ⟨r'', rfl, hr''⟩ := exists_of_lits hr
  obtain ⟨rfl, rfl⟩ := Prod.mk.inj (Option.some.inj hr'')
  rfl

theorem reference_consuming : Consuming reference := by
  intro s name r h
  rw [exists_of_reference h]
  simp only [List.length_append, List.length_cons]
  omega

theorem reference_eq_none {c : Char} (hc : c ≠ '$') (s : Text) : reference (c :: s) = none := by
  rw [reference, lits, if_neg hc]

theorem reference_append {name path : Text} (hname : '\n' ∉ name) (hpath : '}' ∉ path) :
    reference (['$', '{'] ++ (name ++ '}' :: (path ++ ['\n']))) = some (name, path ++ ['\n']) := by
  rw [reference, lits_append]
  refine star_longest (fun c hc => by simpa using ne_of_mem_of_not_mem hc hname) ?_ ?_
  · simp [lits]
  · intro t r hs hne ht
    obtain ⟨c, t, rfl⟩ := List.exists_cons_of_ne_nil hne
    rw [List.cons_append, List.cons.injEq] at hs
    obtain ⟨rfl, hs⟩ := hs
    by_contra hsome
    obtain ⟨b, hb⟩ := Option.ne_none_iff_exists'.mp hsome
    obtain ⟨r', rfl, -⟩ := exists_of_lits hb
    have hmem : '}' ∈ path ++ ['\n'] := by
      rw [hs]
      simp
    simp [hpath] at hmem

section Expand

variable {vars : Text → Option Text} {libgccSDir : Text}

theorem expandVariables_eq_self {s : Text} (h : '$' ∉ s) : expandVariables vars s = .ok s := by
  refine sub_eq_self reference_consuming _ fun c t ht => reference_eq_none ?_ t
  exact ne_of_mem_of_not_mem (ht.subset List.mem_cons_self) h

theorem expandVariables_reference {a name path value : Text} (ha : '$' ∉ a) (hname : '\n' ∉ name)
    (hpath : '$' ∉ path ∧ '}' ∉ path) (hvalue : vars name = some value) :
    expandVariables vars (a ++ (['$', '{'] ++ (name ++ '}' :: (path ++ ['\n'])))) =
      .ok (a ++ (value ++ (path ++ ['\n']))) := by
  rw [expandVariables, sub_of_some reference_consuming _ ?_
    (reference_append hname hpath.2) ?_, hvalue]
  · rfl
  · exact fun c t ht => reference_eq_none
      (ne_of_mem_of_not_mem (ht.subset List.mem_cons_self) ha) _
  · refine fun c t ht => reference_eq_none ?_ _
    refine ne_of_mem_of_not_mem (ht.subset List.mem_cons_self) ?_
    simp [hpath.1]

theorem mark_mem_libgccReference : '%' ∈ libgccReference := by decide +kernel

theorem replace_libgcc_eq_self {s : Text} (h : '%' ∉ s) :
    (if libgccSDir.length > 0 then replace libgccReference libgccSDir s else s) = s := by
  split_ifs
  · exact replace_eq_self (List.ne_nil_of_mem mark_mem_libgccReference) fun hi =>
      h (hi.subset mark_mem_libgccReference)
  · rfl

theorem replace_libgcc_append (hne : libgccSDir ≠ []) {a b : Text} (ha : '%' ∉ a) (hb : '%' ∉ b) :
    (if libgccSDir.length > 0 then replace libgccReference libgccSDir (a ++ (libgccReference ++ b))
      else a ++ (libgccReference ++ b)) = a ++ (libgccSDir ++ b) := by
  have hhead : libgccReference.head? = some '%' := by decide +kernel
  rw [if_pos (List.length_pos_iff.mpr hne),
    replace_append (List.ne_nil_of_mem mark_mem_libgccReference)]
  · intro c hc heq
    rw [hhead] at heq
    obtain rfl := Option.some.inj heq
    exact ha hc
  · exact fun hi => hb (hi.subset mark_mem_libgccReference)

theorem appendLine_eq_ok {line expanded : Text} (hmanifest : rstripSpace line ≠ "[manifest]".toList)
    (hexpand : expandVariables vars (rstripSpace line ++ ['\n']) = .ok expanded) :
    appendLine vars libgccSDir line = .ok
      (if libgccSDir.length > 0 then replace libgccReference libgccSDir expanded
        else expanded) := by
  rw [appendLine, if_neg hmanifest, hexpand]
  rfl

end Expand

/-- How the path of a file of the host may begin. -/
inductive Reference where
  | none
  | var (name : Text)
  | libgcc

def Reference.text : Reference → Text
  | none => []
  | var name => ['$', '{'] ++ (name ++ ['}'])
  | libgcc => libgccReference

structure Entry where
  guest : Text
  ref : Reference
  path : Text

namespace Entry

variable (vars : Text → Option Text) (libgccSDir : Text)

def line (entry : Entry) : Text := entryLine (entry.guest, entry.ref.text ++ entry.path)

def directory (entry : Entry) : Option Text :=
  match entry.ref with
  | .none => some []
  | .var name => vars name
  | .libgcc => if libgccSDir = [] then none else some libgccSDir

def resolve (entry : Entry) : Text × Text :=
  (entry.guest, (entry.directory vars libgccSDir).getD [] ++ entry.path)

/-- The marks of references stand only where they are meant, and the line can hold the paths. -/
structure Plain (entry : Entry) : Prop where
  guest_plain : '$' ∉ entry.guest ∧ '%' ∉ entry.guest
  path_plain : '$' ∉ entry.path ∧ '%' ∉ entry.path ∧ '}' ∉ entry.path
  ref_line : IsLine entry.ref.text
  defined : (entry.directory vars libgccSDir).any ('%' ∉ ·)
  wellFormed : WellFormed (entry.resolve vars libgccSDir)

instance (entry : Entry) : Decidable (entry.Plain vars libgccSDir) :=
  decidable_of_iff (('$' ∉ entry.guest ∧ '%' ∉ entry.guest) ∧
      ('$' ∉ entry.path ∧ '%' ∉ entry.path ∧ '}' ∉ entry.path) ∧ IsLine entry.ref.text ∧
      (entry.directory vars libgccSDir).any ('%' ∉ ·) ∧
      WellFormed (entry.resolve vars libgccSDir))
    ⟨fun ⟨h₁, h₂, h₃, h₄, h₅⟩ => ⟨h₁, h₂, h₃, h₄, h₅⟩,
      fun ⟨h₁, h₂, h₃, h₄, h₅⟩ => ⟨h₁, h₂, h₃, h₄, h₅⟩⟩

variable {vars libgccSDir} {entry : Entry}

theorem Plain.exists_directory (h : entry.Plain vars libgccSDir) :
    ∃ dir, entry.directory vars libgccSDir = some dir ∧ '%' ∉ dir ∧
      entry.resolve vars libgccSDir = (entry.guest, dir ++ entry.path) := by
  obtain ⟨dir, hdir, hmark⟩ := (Option.any_eq_true _ _).mp h.defined
  exact ⟨dir, hdir, of_decide_eq_true hmark, by rw [resolve, hdir, Option.getD_some]⟩

theorem Plain.isLine_path (h : entry.Plain vars libgccSDir) : IsLine entry.path := by
  obtain ⟨dir, -, -, hresolve⟩ := h.exists_directory
  have hline := h.wellFormed.isLine
  rw [hresolve] at hline
  exact hline.of_infix ⟨entry.guest ++ (separator ++ dir), [], by simp [entryLine]⟩

theorem Plain.isLine (h : entry.Plain vars libgccSDir) : IsLine entry.line := by
  have hguest : IsLine entry.guest :=
    h.wellFormed.isLine.of_infix (List.prefix_append _ _).isInfix
  have hpath := h.isLine_path
  refine .entryLine hguest ⟨?_, ?_⟩
  · simp [h.ref_line.1, hpath.1]
  · simp [h.ref_line.2, hpath.2]

theorem Plain.rstripSpace_line (h : entry.Plain vars libgccSDir) :
    rstripSpace entry.line = entry.line := by
  obtain ⟨dir, hdir, -, hresolve⟩ := h.exists_directory
  obtain ⟨hne, hstrip⟩ : entry.ref.text ++ entry.path ≠ [] ∧
      rstripSpace (entry.ref.text ++ entry.path) = entry.ref.text ++ entry.path := by
    rcases eq_or_ne entry.path [] with hpath | hpath
    · rw [hpath, List.append_nil]
      -- Without a path there has to be a reference, which does not end with white space.
      rcases href : entry.ref with - | name | -
      · rw [directory, href] at hdir
        obtain rfl := Option.some.inj hdir
        exact absurd (by rw [hresolve, hpath]; rfl) h.wellFormed.host_ne
      · refine ⟨by simp [Reference.text], ?_⟩
        rw [Reference.text, ← List.append_assoc]
        exact List.rdropWhile_concat_neg _ _ _ (by decide)
      · exact ⟨by decide, by decide +kernel⟩
    · have hhost := rstripSpace_of_strip h.wellFormed.host_strip
      rw [hresolve] at hhost
      have hpath' := rstripSpace_of_append hpath hhost
      refine ⟨List.append_ne_nil_of_right_ne_nil _ hpath, ?_⟩
      rw [rstripSpace_append (by rwa [hpath']), hpath']
  rw [line, entryLine, ← List.append_assoc, rstripSpace_append (by rwa [hstrip]), hstrip]

theorem line_ne_manifest (entry : Entry) : entry.line ≠ "[manifest]".toList := by
  intro heq
  have hmem : ' ' ∈ entry.line := by simp [line, entryLine, separator_eq]
  rw [heq] at hmem
  exact absurd hmem (by decide +kernel)

theorem Plain.appendLine_of_expand (h : entry.Plain vars libgccSDir) {expanded : Text}
    (hexpand : expandVariables vars (entry.line ++ ['\n']) = .ok expanded) :
    appendLine vars libgccSDir (entry.line ++ ['\n']) = .ok
      (if libgccSDir.length > 0 then replace libgccReference libgccSDir expanded
        else expanded) := by
  have hstrip : rstripSpace (entry.line ++ ['\n']) = entry.line :=
    (rstripSpace_concat_newline _).trans h.rstripSpace_line
  refine appendLine_eq_ok ?_ ?_
  · rw [hstrip]
    exact entry.line_ne_manifest
  · rw [hstrip, hexpand]

/-- A line is appended with the directory in place of the reference. -/
theorem Plain.appendLine_eq (h : entry.Plain vars libgccSDir) :
    appendLine vars libgccSDir (entry.line ++ ['\n']) =
      .ok (entryLine (entry.resolve vars libgccSDir) ++ ['\n']) := by
  obtain ⟨dir, hdir, hmark, hresolve⟩ := h.exists_directory
  have hsep : '$' ∉ separator ∧ '%' ∉ separator := by decide +kernel
  have hdollar : '$' ∉ entry.guest ++ separator := by simp [h.guest_plain.1, hsep.1]
  have hpercent : '%' ∉ entry.guest ++ separator := by simp [h.guest_plain.2, hsep.2]
  have hpath : '%' ∉ entry.path ++ ['\n'] := by simp [h.path_plain.2.1]
  have hresult : entryLine (entry.resolve vars libgccSDir) ++ ['\n'] =
      (entry.guest ++ separator) ++ (dir ++ (entry.path ++ ['\n'])) := by
    simp [hresolve, entryLine]
  have hdone : '%' ∉ (entry.guest ++ separator) ++ (dir ++ (entry.path ++ ['\n'])) := by
    rw [List.mem_append, List.mem_append (s := dir)]
    exact not_or.mpr ⟨hpercent, not_or.mpr ⟨hmark, hpath⟩⟩
  have hline : entry.line ++ ['\n'] =
      (entry.guest ++ separator) ++ (entry.ref.text ++ (entry.path ++ ['\n'])) := by
    simp [line, entryLine]
  rw [hresult]
  unfold directory at hdir
  rcases href : entry.ref with - | name | - <;> rw [href] at hdir hline
  · obtain rfl := Option.some.inj hdir
    rw [h.appendLine_of_expand (expandVariables_eq_self ?_), hline]
    · exact congrArg Except.ok (replace_libgcc_eq_self hdone)
    · rw [hline]
      simp [Reference.text, h.guest_plain.1, hsep.1, h.path_plain.1]
  · have hname : '\n' ∉ name := fun hn => h.ref_line.1 (by simp [href, Reference.text, hn])
    have hvar : Reference.text (.var name) ++ (entry.path ++ ['\n']) =
        ['$', '{'] ++ (name ++ '}' :: (entry.path ++ ['\n'])) := by
      simp [Reference.text]
    rw [hvar] at hline
    rw [h.appendLine_of_expand (hline ▸ expandVariables_reference hdollar hname
      ⟨h.path_plain.1, h.path_plain.2.2⟩ hdir)]
    exact congrArg Except.ok (replace_libgcc_eq_self hdone)
  · dsimp only at hdir
    split_ifs at hdir with hempty
    obtain rfl := Option.some.inj hdir
    rw [h.appendLine_of_expand (expandVariables_eq_self ?_), hline]
    · exact congrArg Except.ok (replace_libgcc_append hempty hpercent hpath)
    · have href : '$' ∉ libgccReference := by decide +kernel
      rw [hline]
      simp [Reference.text, href, h.guest_plain.1, hsep.1, h.path_plain.1]

end Entry

inductive ManifestLine where
  | comment (s : Text)
  | entry (e : Entry)

namespace ManifestLine

variable (vars : Text → Option Text) (libgccSDir : Text)

def text : ManifestLine → Text
  | comment s => s
  | entry e => e.line

def Plain : ManifestLine → Prop
  | comment s => isComment (rstripSpace s) ∧ IsLine s ∧ '$' ∉ s ∧ '%' ∉ s
  | entry e => e.Plain vars libgccSDir

instance (line : ManifestLine) : Decidable (line.Plain vars libgccSDir) :=
  match line with
  | comment _ => inferInstanceAs (Decidable (_ ∧ _))
  | entry e => inferInstanceAs (Decidable (e.Plain vars libgccSDir))

def entries : ManifestLine → List (Text × Text)
  | comment _ => []
  | entry e => [e.resolve vars libgccSDir]

def manifestOf (lines : List ManifestLine) : Text := lines.flatMap fun line => line.text ++ ['\n']

end ManifestLine

/-- A text of whole lines that are read as the given entries. -/
def Holds (text : Text) (entries : List (Text × Text)) : Prop :=
  ∃ lines : List Text, text = lines.flatMap (· ++ ['\n']) ∧ (∀ line ∈ lines, IsLine line) ∧
    readLines (lines.map (· ++ ['\n'])) = .ok entries

namespace Holds

variable {text text' : Text} {entries entries' : List (Text × Text)}

theorem nil : Holds [] [] := ⟨[], rfl, by simp, rfl⟩

theorem readLines_append {lines lines' : List Text} (h : readLines lines = .ok entries)
    (h' : readLines lines' = .ok entries') :
    readLines (lines ++ lines') = .ok (entries ++ entries') := by
  induction lines generalizing entries with
  | nil =>
    cases h
    exact h'
  | cons line lines ih =>
    obtain ⟨entry, rest, hline, hrest, rfl⟩ := readLines_cons_eq_ok_iff.mp h
    rw [List.cons_append, readLines_cons_eq_ok_iff]
    exact ⟨entry, _, hline, ih hrest, (List.append_assoc _ _ _).symm⟩

theorem append (h : Holds text entries) (h' : Holds text' entries') :
    Holds (text ++ text') (entries ++ entries') := by
  obtain ⟨lines, rfl, hline, hread⟩ := h
  obtain ⟨lines', rfl, hline', hread'⟩ := h'
  refine ⟨lines ++ lines', by rw [List.flatMap_append], ?_, ?_⟩
  · exact fun line hmem => (List.mem_append.mp hmem).elim (hline line) (hline' line)
  · rw [List.map_append]
    exact readLines_append hread hread'

theorem readManifest_eq (h : Holds text entries) : readManifest text = .ok entries := by
  obtain ⟨lines, rfl, hline, hread⟩ := h
  rw [readManifest, readlines_lines hline, hread]

theorem of_readLine {line : Text} (hline : IsLine line) {e : Option (Text × Text)}
    (h : readLine (line ++ ['\n']) = .ok e) : Holds (line ++ ['\n']) e.toList := by
  refine ⟨[line], by simp, by simpa using hline, ?_⟩
  exact readLines_cons_eq_ok_iff.mpr ⟨e, [], h, rfl, List.append_nil _⟩

theorem asManifest (h : ∀ entry ∈ entries, WellFormed entry) :
    Holds (Image.asManifest entries) entries := by
  induction entries with
  | nil => exact nil
  | cons entry entries ih =>
    obtain ⟨hentry, hentries⟩ := List.forall_mem_cons.mp h
    exact (of_readLine hentry.isLine hentry.readLine_eq).append (ih hentries)

end Holds

namespace ManifestLine

variable {vars : Text → Option Text} {libgccSDir : Text}

theorem Plain.isLine {line : ManifestLine} (h : line.Plain vars libgccSDir) : IsLine line.text := by
  cases line with
  | comment s => exact h.2.1
  | entry e => exact Entry.Plain.isLine h

theorem Plain.holds_appendLine {line : ManifestLine} (h : line.Plain vars libgccSDir) :
    ∃ s, appendLine vars libgccSDir (line.text ++ ['\n']) = .ok s ∧
      Holds s (line.entries vars libgccSDir) := by
  cases line with
  | comment s =>
    obtain ⟨hcomment, hline, hdollar, hpercent⟩ := h
    have hsub := (prefix_rstripSpace s).subset
    by_cases hmanifest : rstripSpace s = "[manifest]".toList
    · rw [text, appendLine, rstripSpace_concat_newline, if_pos hmanifest]
      exact ⟨[], rfl, .nil⟩
    · have hexpand : expandVariables vars (rstripSpace s ++ ['\n']) =
          .ok (rstripSpace s ++ ['\n']) :=
        expandVariables_eq_self (by simpa using fun hc => hdollar (hsub hc))
      have hidem : rstripSpace (rstripSpace s) = rstripSpace s := List.rdropWhile_idempotent _ _
      rw [← rstripSpace_concat_newline s] at hmanifest hexpand
      rw [text, appendLine_eq_ok hmanifest hexpand, rstripSpace_concat_newline,
        replace_libgcc_eq_self (by simpa using fun hc => hpercent (hsub hc))]
      refine ⟨_, rfl, Holds.of_readLine (e := none)
        (hline.of_infix (prefix_rstripSpace s).isInfix) ?_⟩
      rw [readLine, rstripSpace_concat_newline, hidem, if_pos hcomment]
  | entry e =>
    exact ⟨_, Entry.Plain.appendLine_eq h,
      .of_readLine (Entry.Plain.wellFormed h).isLine (Entry.Plain.wellFormed h).readLine_eq⟩

/-- The manifest of a module is appended as the entries that its lines stand for. -/
theorem holds_appendManifest {lines : List ManifestLine}
    (h : ∀ line ∈ lines, line.Plain vars libgccSDir) :
    ∃ s, appendManifest vars libgccSDir (manifestOf lines) = .ok s ∧
      Holds s (lines.flatMap (entries vars libgccSDir)) := by
  have hlines : readlines (manifestOf lines) = (lines.map text).map (· ++ ['\n']) := by
    have hmap : manifestOf lines = (lines.map text).flatMap (· ++ ['\n']) := by
      rw [manifestOf, List.flatMap_map]
    rw [hmap]
    exact readlines_lines (List.forall_mem_map.mpr fun line hline => (h line hline).isLine)
  rw [appendManifest, hlines]
  clear hlines
  induction lines with
  | nil => exact ⟨[], rfl, .nil⟩
  | cons line lines ih =>
    obtain ⟨hline, hlines⟩ := List.forall_mem_cons.mp h
    obtain ⟨s, hs, hholds⟩ := hline.holds_appendLine
    obtain ⟨rest, hrest, hholds'⟩ := ih hlines
    refine ⟨s ++ rest, ?_, hholds.append hholds'⟩
    rw [List.map_cons, List.map_cons, appendLines, hs, hrest]
    rfl

end ManifestLine

theorem mapM_eq_ok {α β ε : Type*} {f : α → Except ε β} {g : α → β} {l : List α}
    (h : ∀ a ∈ l, f a = .ok (g a)) : l.mapM f = .ok (l.map g) := by
  induction l with
  | nil => rfl
  | cons a l ih =>
    obtain ⟨ha, hl⟩ := List.forall_mem_cons.mp h
    rw [List.mapM_cons, ha, ih hl]
    rfl

theorem conversion_head {s r : Text} {key : Option Text} (h : conversion s = some (key, r)) :
    ∃ c t, s = '%' :: c :: t ∧ r.length ≤ t.length := by
  rw [conversion, Option.or_eq_some_iff] at h
  rcases h with h | ⟨-, h⟩
  · obtain ⟨t, rfl, ht⟩ := exists_of_lits h
    obtain ⟨-, rfl⟩ := Prod.mk.inj (Option.some.inj ht)
    exact ⟨'%', t, rfl, le_rfl⟩
  · obtain ⟨t, rfl, ht⟩ := exists_of_lits h
    obtain ⟨run, t', rfl, -, -, hk⟩ := exists_of_plus ht
    obtain ⟨r', rfl, hr⟩ := exists_of_lits hk
    obtain ⟨-, rfl⟩ := Prod.mk.inj (Option.some.inj hr)
    refine ⟨'(', run ++ (")s".toList ++ r'), rfl, ?_⟩
    simp only [List.length_append]
    omega

theorem conversion_consuming : Consuming conversion := by
  intro s key r h
  obtain ⟨c, t, rfl, hr⟩ := conversion_head h
  simp only [List.length_cons]
  omega

theorem percentFormat_eq_self (defines : Text → Option Text) {s : Text} (h : '%' ∉ s) :
    percentFormat defines s = .ok s := by
  have hpieces : pieces conversion (s ++ []) = s.map .inr ++ [] := by
    rw [pieces_append conversion_consuming, pieces_nil conversion_consuming]
    intro c t ht
    by_contra hsome
    obtain ⟨⟨key, r⟩, hkey⟩ := Option.ne_none_iff_exists'.mp hsome
    obtain ⟨d, t', heq, -⟩ := conversion_head hkey
    obtain ⟨rfl, -⟩ := List.cons.inj heq
    exact h (ht.subset List.mem_cons_self)
  rw [List.append_nil, List.append_nil] at hpieces
  rw [percentFormat, hpieces]
  clear hpieces
  induction s with
  | nil => rfl
  | cons c s ih =>
    simp only [List.mem_cons, not_or] at h
    rw [List.map_cons, formatPieces, if_neg (Ne.symm h.1), ih h.2]
    rfl

namespace Host

variable {host : Host}

def Direct (host : Host) (f : Text) : Prop :=
  f.head? ≠ some '!' ∧ ("->".toList <+: f ∨ host.readlink f = none)

theorem Direct.unsymlink_eq {f : Text} (h : host.Direct f) (hlimit : 0 < host.recursionLimit) :
    host.unsymlink f = .ok f := by
  obtain ⟨n, hn⟩ := Nat.exists_eq_succ_of_ne_zero hlimit.ne'
  have hat : host.unsymlinkAt (n + 1) f = .ok (some f) := by
    rw [unsymlinkAt, if_neg h.1]
    split_ifs with hlink
    · rfl
    · rw [nextLink, h.2.resolve_left hlink]
      rfl
  rw [unsymlink, hn, hat]
  rfl

theorem files_eq (defines : Text → Option Text) {manifest : List (Text × Text)}
    (hplain : ∀ entry ∈ manifest, '%' ∉ entry.2) (hlimit : 0 < host.recursionLimit)
    (hdirect : ∀ entry ∈ manifest.flatMap host.expandEntry, host.Direct entry.2) :
    host.files defines manifest = .ok (manifest.flatMap host.expandEntry) := by
  have hformat : (manifest.mapM fun (x, y) =>
      ((percentFormat defines y).mapError Failure.exception).map (x, ·)) = .ok (manifest.map id) :=
    mapM_eq_ok fun entry hentry => by
      dsimp only
      rw [percentFormat_eq_self defines (hplain entry hentry)]
      rfl
  have hlinks : ((manifest.flatMap host.expandEntry).mapM fun (x, y) =>
      (host.unsymlink y).map (x, ·)) = .ok ((manifest.flatMap host.expandEntry).map id) :=
    mapM_eq_ok fun entry hentry => by
      dsimp only
      rw [(hdirect entry hentry).unsymlink_eq hlimit]
      rfl
  rw [List.map_id] at hformat hlinks
  rw [files, hformat]
  exact hlinks

end Host

structure ModulePlan where
  localPath : Text
  lines : Option (List ManifestLine)
  usrFiles : List (Text × Text)

/-- What an image is built from, with the lines of the manifests. -/
structure Plan where
  osvBase : Text
  libgccSDir : Text
  skel : List ManifestLine
  modules : List ModulePlan
  apps : List (Text × Text)

def ModulePlan.module (m : ModulePlan) : Module :=
  ⟨m.localPath, m.lines.map ManifestLine.manifestOf, m.usrFiles⟩

namespace Plan

variable (plan : Plan)

def config : Config :=
  ⟨plan.osvBase, plan.libgccSDir, ManifestLine.manifestOf plan.skel,
    plan.modules.map ModulePlan.module, plan.apps⟩

def moduleEntries (m : ModulePlan) : List (Text × Text) :=
  (m.lines.getD []).flatMap (ManifestLine.entries (plan.config.vars m.module) plan.libgccSDir) ++
    m.usrFiles

def entries : List (Text × Text) :=
  plan.skel.flatMap (ManifestLine.entries (fun _ => none) plan.libgccSDir) ++
    (plan.modules.flatMap plan.moduleEntries ++ plan.apps)

/-- No line has a second meaning. -/
structure Plain : Prop where
  skel : ∀ line ∈ plan.skel, line.Plain (fun _ => none) plan.libgccSDir
  lines : ∀ m ∈ plan.modules, ∀ line ∈ m.lines.getD [],
    line.Plain (plan.config.vars m.module) plan.libgccSDir
  usrFiles : ∀ m ∈ plan.modules, ∀ entry ∈ m.usrFiles, WellFormed entry ∧ '%' ∉ entry.2
  apps : ∀ entry ∈ plan.apps, WellFormed entry ∧ '%' ∉ entry.2

variable {plan}

theorem holds_moduleManifest {m : ModulePlan}
    (hlines : ∀ line ∈ m.lines.getD [], line.Plain (plan.config.vars m.module) plan.libgccSDir)
    (hfiles : ∀ entry ∈ m.usrFiles, WellFormed entry) :
    ∃ s, plan.config.moduleManifest m.module = .ok s ∧ Holds s (plan.moduleEntries m) := by
  have husr := Holds.asManifest hfiles
  unfold Config.moduleManifest moduleEntries
  rcases hm : m.lines with - | lines
  · rw [ModulePlan.module, hm]
    exact ⟨_, rfl, husr⟩
  · rw [hm, Option.getD_some] at hlines
    obtain ⟨s, hs, hholds⟩ := ManifestLine.holds_appendManifest hlines
    refine ⟨s ++ asManifest m.usrFiles, ?_, hholds.append husr⟩
    have husrManifest : m.module.usrManifest = some (ManifestLine.manifestOf lines) := by
      rw [ModulePlan.module, hm]
      rfl
    rw [husrManifest]
    dsimp only
    have hdir : plan.config.libgccSDir = plan.libgccSDir := rfl
    rw [hdir, hs]
    rfl

theorem holds_moduleManifests {modules : List ModulePlan}
    (hlines : ∀ m ∈ modules, ∀ line ∈ m.lines.getD [],
      line.Plain (plan.config.vars m.module) plan.libgccSDir)
    (hfiles : ∀ m ∈ modules, ∀ entry ∈ m.usrFiles, WellFormed entry) :
    ∃ s, plan.config.moduleManifests (modules.map ModulePlan.module) = .ok s ∧
      Holds s (modules.flatMap plan.moduleEntries) := by
  induction modules with
  | nil => exact ⟨[], rfl, .nil⟩
  | cons m modules ih =>
    obtain ⟨hm, hlines⟩ := List.forall_mem_cons.mp hlines
    obtain ⟨hmf, hfiles⟩ := List.forall_mem_cons.mp hfiles
    obtain ⟨s, hs, hholds⟩ := holds_moduleManifest hm hmf
    obtain ⟨rest, hrest, hholds'⟩ := ih hlines hfiles
    refine ⟨s ++ rest, ?_, hholds.append hholds'⟩
    rw [List.map_cons, Config.moduleManifests, hs, hrest]
    rfl

/-- The manifest that is generated is read as the entries of the plan. -/
theorem Plain.readManifest_generate (h : plan.Plain) :
    ∃ text, plan.config.generateManifest = .ok text ∧ readManifest text = .ok plan.entries := by
  obtain ⟨skel, hskel, hholds⟩ := ManifestLine.holds_appendManifest h.skel
  obtain ⟨modules, hmodules, hholds'⟩ := holds_moduleManifests h.lines
    fun m hm entry hentry => (h.usrFiles m hm entry hentry).1
  have happs := Holds.asManifest fun entry hentry => (h.apps entry hentry).1
  have hhead : Holds "[manifest]\n".toList [] := by
    have hmark : "[manifest]\n".toList = "[manifest]".toList ++ ['\n'] := by decide +kernel
    rw [hmark]
    exact Holds.of_readLine (e := none) (by decide +kernel) (by decide +kernel)
  refine ⟨_, ?_, (hhead.append (hholds.append (hholds'.append happs))).readManifest_eq⟩
  have hlibgcc : plan.config.libgccSDir = plan.libgccSDir := rfl
  have hs : plan.config.skel = ManifestLine.manifestOf plan.skel := rfl
  have hm : plan.config.modules = plan.modules.map ModulePlan.module := rfl
  rw [Config.generateManifest, hlibgcc, hs, hm, hskel, hmodules]
  rfl

theorem Plain.not_mem_entries (h : plan.Plain) : ∀ entry ∈ plan.entries, '%' ∉ entry.2 := by
  have hline {vars : Text → Option Text} {line : ManifestLine}
      (hplain : line.Plain vars plan.libgccSDir) :
      ∀ entry ∈ line.entries vars plan.libgccSDir, '%' ∉ entry.2 := by
    cases line with
    | comment s => simp [ManifestLine.entries]
    | entry e =>
      obtain ⟨dir, -, hdir, hresolve⟩ := Entry.Plain.exists_directory hplain
      simp [ManifestLine.entries, hresolve, hdir, (Entry.Plain.path_plain hplain).2.1]
  intro entry hentry
  rcases List.mem_append.mp hentry with hskel | hrest
  · obtain ⟨line, hmem, hentry⟩ := List.mem_flatMap.mp hskel
    exact hline (h.skel line hmem) entry hentry
  rcases List.mem_append.mp hrest with hmodules | happs
  · obtain ⟨m, hm, hentry⟩ := List.mem_flatMap.mp hmodules
    rcases List.mem_append.mp hentry with hlines | hfiles
    · obtain ⟨line, hmem, hentry⟩ := List.mem_flatMap.mp hlines
      exact hline (h.lines m hm line hmem) entry hentry
    · exact (h.usrFiles m hm entry hfiles).2
  · exact (h.apps entry happs).2

def files (plan : Plan) (host : Host) : List (Text × Text) :=
  plan.entries.flatMap host.expandEntry

theorem Plain.build_eq (hplain : plan.Plain) {host : Host} (hlimit : 0 < host.recursionLimit)
    (hdirect : ∀ entry ∈ plan.files host, host.Direct entry.2) (stripFile : Text → Text) :
    plan.config.build host stripFile = .ok ((upload host.file stripFile (plan.files host)).2,
      parse (upload host.file stripFile (plan.files host)).1) := by
  obtain ⟨text, hgenerate, hread⟩ := hplain.readManifest_generate
  unfold Config.build
  rw [hgenerate]
  dsimp only [Except.mapError, bind, Except.bind]
  rw [hread]
  dsimp only [Except.mapError]
  rw [Host.files_eq _ hplain.not_mem_entries hlimit hdirect]
  rfl

/-- If no line has a second meaning and no file is a link, the build succeeds and unpacks exactly
the files of the plan if and only if every one of them can be read and fits. -/
theorem build_unpacked_iff (hplain : plan.Plain) {host : Host} (hlimit : 0 < host.recursionLimit)
    (hdirect : ∀ entry ∈ plan.files host, host.Direct entry.2) {stripFile : Text → Text}
    (hsize : ∀ item ∈ requested host.file stripFile (plan.files host), item.node.size < 2 ^ 64) :
    plan.config.build host stripFile = .ok (true,
        (requested host.file stripFile (plan.files host)).map Item.event, .ok ()) ↔
      ∀ entry ∈ plan.files host, isStripped entry = false →
        ∃ item, entryItem host.file stripFile entry = some item ∧ item.Fits := by
  rw [hplain.build_eq hlimit hdirect, Except.ok.injEq, Prod.mk.injEq, ← forall_requested_iff,
    upload_ok_iff]
  exact and_congr_right fun hread => parse_upload_iff (upload_ok_iff.mpr hread) hsize

end Plan

def schemaPlan : Plan where
  osvBase := "/osv".toList
  libgccSDir := "/usr/lib".toList
  skel := [.comment "[manifest]".toList,
    .entry ⟨"/usr/lib/libgcc_s.so.1".toList, .libgcc, "/libgcc_s.so.1".toList⟩,
    .entry ⟨"/&/etc/hosts".toList, .none, "../../static/&".toList⟩,
    .entry ⟨"/etc/mnttab".toList, .none, "->/proc/mounts".toList⟩]
  modules := [⟨"/osv/apps/sqlite".toList, some [.comment "# schema".toList,
    .entry ⟨"/sqlite-ddl.sql".toList, .var "MODULE_DIR".toList,
      "/tpch-queries/sqlite-ddl.sql".toList⟩], []⟩]
  apps := []

def schemaHost : Host where
  file := fun _ => some (.regular 0o100644 1 (some [59]))
  pathExists := fun _ => true
  walk := fun _ => []
  recursionLimit := 1000

theorem build_unpacked_schema :
    schemaPlan.config.build schemaHost id = .ok (true,
      [.addFile (encode "/usr/lib/libgcc_s.so.1".toList) [59] 0o644,
        .addFile (encode "/etc/hosts".toList) [59] 0o644,
        .addSymlink (encode "/proc/mounts".toList) (encode "/etc/mnttab".toList) 0,
        .addFile (encode "/sqlite-ddl.sql".toList) [59] 0o644], .ok ()) := by
  have hplain : schemaPlan.Plain := by
    refine ⟨by decide +kernel, by decide +kernel, ?_, ?_⟩
    all_goals simp [schemaPlan]
  have hdirect : ∀ entry ∈ schemaPlan.files schemaHost, schemaHost.Direct entry.2 := by
    have hall : ∀ entry ∈ schemaPlan.files schemaHost, entry.2.head? ≠ some '!' := by
      decide +kernel
    exact fun entry hentry => ⟨hall entry hentry, .inr rfl⟩
  have hsize : ∀ item ∈ requested schemaHost.file id (schemaPlan.files schemaHost),
      item.node.size < 2 ^ 64 := by
    decide +kernel
  have hfits : ∀ entry ∈ schemaPlan.files schemaHost,
      (entryItem schemaHost.file id entry).any (fun item => item.Fits) := by
    decide +kernel
  refine ((Plan.build_unpacked_iff hplain (by decide) hdirect hsize).mpr ?_).trans ?_
  · intro entry hentry _
    simpa [Option.any_eq_true] using hfits entry hentry
  · have hevents : (requested schemaHost.file id (schemaPlan.files schemaHost)).map Item.event =
        [.addFile (encode "/usr/lib/libgcc_s.so.1".toList) [59] 0o644,
          .addFile (encode "/etc/hosts".toList) [59] 0o644,
          .addSymlink (encode "/proc/mounts".toList) (encode "/etc/mnttab".toList) 0,
          .addFile (encode "/sqlite-ddl.sql".toList) [59] 0o644] := by
      decide +kernel
    rw [hevents]

end TpchBench.Image
