import TpchBench.Image.Build
import TpchBench.Shell.Benchmark

/-! # The image of the power test

`generate-kernel.sh` writes a manifest with the query files, the schema and the tables, and the
shell in the guest opens them by name. The guest is handed every file that `benchmark.sh` reads,
with the content of the file on the host.
-/

namespace TpchBench.Image

open Python

/-- The files of the image below the root, and where they are in the directory of the module. -/
def powerFiles : List (Text × Text) :=
  ("usr/lib/libsqlite3.so.0".toList, "/libsqlite3.so.0".toList) ::
    (List.range 22).map (fun i =>
      (Shell.queryFile (i + 1), "/tpch-queries/".toList ++ Shell.queryFile (i + 1))) ++
    ["customer.tbl", "nation.tbl", "orders.tbl", "part.tbl", "partsupp.tbl", "region.tbl",
      "supplier.tbl", "lineitem.tbl"].map (fun name =>
        (name.toList, "/tpch-data/".toList ++ name.toList)) ++
    [("sqlite-ddl.sql".toList, "/tpch-queries/sqlite-ddl.sql".toList)]

/-- The `usr.manifest` of the module. -/
def powerManifest : List ManifestLine :=
  powerFiles.map fun p => .entry ⟨'/' :: p.1, .var "MODULE_DIR".toList, p.2⟩

def benchmarkFiles : List Text :=
  "sqlite-ddl.sql".toList :: Shell.loads.map Prod.fst ++
    (List.range 22).map fun i => Shell.queryFile (i + 1)

theorem exists_powerFile : ∀ name ∈ benchmarkFiles, ∃ path, (name, path) ∈ powerFiles := by
  have hall : ∀ name ∈ benchmarkFiles, name ∈ powerFiles.map Prod.fst := by decide +kernel
  intro name hname
  obtain ⟨p, hp, rfl⟩ := List.mem_map.mp (hall name hname)
  exact ⟨p.2, hp⟩

structure IsDirectory (dir : Text) : Prop where
  isLine : IsLine dir
  strip_eq : strip dir = dir
  ne_nil : dir ≠ []
  sep : ¬ separator <:+: dir
  percent : '%' ∉ dir

theorem IsDirectory.strip_append {dir path : Text} (h : IsDirectory dir)
    (hpath : strip path = path) (hne : path ≠ []) : strip (dir ++ path) = dir ++ path := by
  have hdrop : (dir ++ path).dropWhile Python.isspace = dir ++ path := by
    obtain ⟨c, d, rfl⟩ := List.exists_cons_of_ne_nil h.ne_nil
    have hc := dropWhile_of_strip h.strip_eq
    rw [List.dropWhile_eq_self_iff] at hc
    exact List.dropWhile_cons_of_neg (hc (by simp))
  have hend := rstripSpace_of_strip hpath
  rw [Python.strip_eq, hdrop, rstripSpace_append (by rwa [hend]), hend]

theorem WellFormed.directory {guest path dir : Text} (h : WellFormed (guest, path))
    (hspace : ' ' ∉ path) (hdir : IsDirectory dir) : WellFormed (guest, dir ++ path) where
  isLine := by
    have hline := h.isLine
    constructor
    · simpa [entryLine, hdir.isLine.1] using hline.1
    · simpa [entryLine, hdir.isLine.2] using hline.2
  guest_strip := h.guest_strip
  guest_sep := h.guest_sep
  guest_comment := h.guest_comment
  host_strip := hdir.strip_append h.host_strip h.host_ne
  host_sep hi := by
    rw [separator_eq] at hi
    have hdirectory : [':'] ++ [' '] <:+: dir := concat_infix_of_infix_append hspace hi
    exact hdir.sep (separator_eq ▸ hdirectory)
  host_ne := List.append_ne_nil_of_left_ne_nil hdir.ne_nil path

/-- The manifest has no second meaning in any directory. -/
theorem powerManifest_plain {vars : Text → Option Text} {dir : Text}
    (hvars : vars "MODULE_DIR".toList = some dir) (hdir : IsDirectory dir) (libgccSDir : Text) :
    ∀ line ∈ powerManifest, line.Plain vars libgccSDir := by
  have hall : ∀ p ∈ powerFiles, ('$' ∉ '/' :: p.1 ∧ '%' ∉ '/' :: p.1) ∧
      ('$' ∉ p.2 ∧ '%' ∉ p.2 ∧ '}' ∉ p.2) ∧ ' ' ∉ p.2 ∧ WellFormed ('/' :: p.1, p.2) := by
    decide +kernel
  refine List.forall_mem_map.mpr fun p hp => ?_
  obtain ⟨hguest, hpath, hspace, hline⟩ := hall p hp
  have hdirectory : Entry.directory vars libgccSDir
      ⟨'/' :: p.1, .var "MODULE_DIR".toList, p.2⟩ = some dir := hvars
  refine ⟨hguest, hpath, (by decide +kernel : IsLine (Reference.text (.var "MODULE_DIR".toList))),
    ?_, ?_⟩
  · rw [hdirectory]
    simpa using hdir.percent
  · rw [Entry.resolve, hdirectory]
    exact hline.directory hspace hdir

/-- The guest is handed a file with this content under this name, and nothing else under it. -/
def HandsOver (events : List Event) (name content : Bytes) : Prop :=
  ∃ mode, .addFile name content mode ∈ events ∧
    ∀ event ∈ events, event.name = name → event = .addFile name content mode

section Image

variable {plan : Plan} {host : Host} {stripFile : Text → Text} {m : ModulePlan}

theorem mem_files (hm : m ∈ plan.modules) (hlines : m.lines = some powerManifest) {p : Text × Text}
    (hp : p ∈ powerFiles) : ('/' :: p.1, m.localPath ++ p.2) ∈ plan.files host := by
  have hall : ∀ p ∈ powerFiles, ¬ "/**".toList <:+ '/' :: p.1 ∧
      partition "/&/".toList ('/' :: p.1) = none := by
    decide +kernel
  obtain ⟨hwalk, hpart⟩ := hall p hp
  have hexpand (hostname : Text) :
      host.expandEntry ('/' :: p.1, hostname) = [('/' :: p.1, hostname)] := by
    unfold Host.expandEntry
    dsimp only
    rw [if_neg fun h => hwalk h.1, hpart]
  have hvars : plan.config.vars m.module "MODULE_DIR".toList = some m.localPath := if_pos rfl
  have hdirectory : Entry.directory (plan.config.vars m.module) plan.libgccSDir
      ⟨'/' :: p.1, .var "MODULE_DIR".toList, p.2⟩ = some m.localPath := hvars
  have hentry : ('/' :: p.1, m.localPath ++ p.2) ∈ plan.moduleEntries m := by
    refine List.mem_append_left _ (List.mem_flatMap.mpr
      ⟨.entry ⟨'/' :: p.1, .var "MODULE_DIR".toList, p.2⟩, ?_, ?_⟩)
    · rw [hlines]
      exact List.mem_map_of_mem hp
    · rw [ManifestLine.entries, Entry.resolve, hdirectory]
      exact List.mem_singleton_self _
  refine List.mem_flatMap.mpr ⟨_, ?_, by rw [hexpand]; exact List.mem_singleton_self _⟩
  exact List.mem_append_right _ (List.mem_append_left _ (List.mem_flatMap.mpr ⟨m, hm, hentry⟩))

theorem entryItem_regular {name hostname : Text} (hlink : ¬ "->".toList <+: hostname)
    {mode size : ℕ} {content : Bytes}
    (hfile : host.file (stripFile hostname) = some (.regular mode size (some content))) :
    entryItem host.file stripFile (name, hostname) =
      some ⟨name, mode &&& 0o777, and_perm_lt mode, .file size content⟩ := by
  rw [entryItem, if_neg hlink, hfile]
  rfl

theorem entryItem_name {entry : Text × Text} {item : Item}
    (h : entryItem host.file stripFile entry = some item) : item.name = entry.1 := by
  unfold entryItem at h
  split_ifs at h
  · obtain rfl := Option.some.inj h
    rfl
  · obtain ⟨file, -, hitem⟩ := Option.bind_eq_some_iff.mp h
    rcases file with ⟨mode, target⟩ | mode | ⟨mode, size, - | content⟩
    · obtain rfl := Option.some.inj hitem
      rfl
    · obtain rfl := Option.some.inj hitem
      rfl
    · cases hitem
    · obtain rfl := Option.some.inj hitem
      rfl

theorem handsOver_powerFile (hm : m ∈ plan.modules) (hlines : m.lines = some powerManifest)
    (habs : m.localPath.head? = some '/') {p : Text × Text} (hp : p ∈ powerFiles)
    (honce : ∀ entry ∈ plan.files host, encode entry.1 = encode ('/' :: p.1) →
      entry.2 = m.localPath ++ p.2) {mode size : ℕ} {content : Bytes}
    (hfile : host.file (stripFile (m.localPath ++ p.2)) =
      some (.regular mode size (some content))) :
    HandsOver ((requested host.file stripFile (plan.files host)).map Item.event)
      (encode ('/' :: p.1)) content := by
  have hlink : ¬ "->".toList <+: m.localPath ++ p.2 := by
    obtain ⟨d, hd⟩ := List.head?_eq_some_iff.mp habs
    have harrow : "->".toList = ['-', '>'] := by decide +kernel
    rw [hd, List.cons_append, harrow, List.cons_prefix_cons]
    exact fun h => absurd h.1 (by decide)
  have hstripped : isStripped ('/' :: p.1, m.localPath ++ p.2) = false := by
    have hlast : ∀ p ∈ powerFiles, p.2 ≠ [] ∧ p.2.getLast? ≠ some 'o' := by decide +kernel
    obtain ⟨hne, ho⟩ := hlast p hp
    refine decide_eq_false fun ⟨_, t, ht⟩ => ho ?_
    dsimp only at ht
    rw [← List.getLast?_append_of_ne_nil m.localPath hne, ← ht,
      List.getLast?_append_of_ne_nil t (by decide)]
    decide +kernel
  refine ⟨mode &&& 0o777, ?_, ?_⟩
  · refine List.mem_map.mpr ⟨_, List.mem_filterMap.mpr
      ⟨('/' :: p.1, m.localPath ++ p.2), ?_, entryItem_regular hlink hfile⟩, rfl⟩
    exact List.mem_filter.mpr ⟨mem_files hm hlines hp, by simp [hstripped]⟩
  · intro event hevent hname
    obtain ⟨item, hitem, rfl⟩ := List.mem_map.mp hevent
    obtain ⟨entry, hentry, hitem⟩ := List.mem_filterMap.mp hitem
    rw [Item.event_name, entryItem_name hitem] at hname
    have hhost := honce entry (List.mem_of_mem_filter hentry) hname
    rw [← Prod.mk.eta (p := entry), hhost, entryItem_regular hlink hfile] at hitem
    obtain rfl := Option.some.inj hitem
    exact congrArg (Event.addFile · content (mode &&& 0o777)) hname

/-- In an image that fits, every file that `benchmark.sh` reads is handed over with the content
that it has on the host. -/
theorem build_benchmarkFiles (hplain : plan.Plain) (hlimit : 0 < host.recursionLimit)
    (hdirect : ∀ entry ∈ plan.files host, host.Direct entry.2)
    (hsize : ∀ item ∈ requested host.file stripFile (plan.files host), item.node.size < 2 ^ 64)
    (hfits : ∀ entry ∈ plan.files host, isStripped entry = false →
      ∃ item, entryItem host.file stripFile entry = some item ∧ item.Fits)
    (hm : m ∈ plan.modules) (hlines : m.lines = some powerManifest)
    (habs : m.localPath.head? = some '/')
    (honce : ∀ p ∈ powerFiles, ∀ entry ∈ plan.files host,
      encode entry.1 = encode ('/' :: p.1) → entry.2 = m.localPath ++ p.2) :
    ∃ events, plan.config.build host stripFile = .ok (true, events, .ok ()) ∧
      ∀ name ∈ benchmarkFiles, ∃ path, (name, path) ∈ powerFiles ∧ ∀ mode size content,
        host.file (stripFile (m.localPath ++ path)) = some (.regular mode size (some content)) →
          HandsOver events (encode ('/' :: name)) content := by
  obtain ⟨hread, hitems⟩ := forall_requested_iff.mpr hfits
  have hok := upload_ok_iff.mpr hread
  refine ⟨(requested host.file stripFile (plan.files host)).map Item.event, ?_, ?_⟩
  · rw [hplain.build_eq hlimit hdirect, hok, (parse_upload_iff hok hsize).mpr hitems]
  · intro name hname
    obtain ⟨path, hpath⟩ := exists_powerFile name hname
    exact ⟨path, hpath, fun mode size content hfile =>
      handsOver_powerFile hm hlines habs hpath (honce _ hpath) hfile⟩

end Image

def powerPlan : Plan where
  osvBase := "/osv".toList
  libgccSDir := []
  skel := [.comment "[manifest]".toList]
  modules := [⟨"/osv/apps/sqlite".toList, some powerManifest, []⟩]
  apps := []

theorem build_benchmarkFiles_power :
    ∃ events, powerPlan.config.build schemaHost id = .ok (true, events, .ok ()) ∧
      HandsOver events (encode "/query22.sql".toList) [59] := by
  have hdirectory : IsDirectory "/osv/apps/sqlite".toList := by
    constructor
    all_goals decide +kernel
  have hplain : powerPlan.Plain := by
    refine ⟨by decide +kernel, ?_, by simp [powerPlan], by simp [powerPlan]⟩
    intro m hm
    obtain rfl := List.mem_singleton.mp hm
    exact powerManifest_plain (if_pos rfl) hdirectory _
  have hdirect : ∀ entry ∈ powerPlan.files schemaHost, schemaHost.Direct entry.2 := by
    have hall : ∀ entry ∈ powerPlan.files schemaHost, entry.2.head? ≠ some '!' := by
      decide +kernel
    exact fun entry hentry => ⟨hall entry hentry, .inr rfl⟩
  have hsize : ∀ item ∈ requested schemaHost.file id (powerPlan.files schemaHost),
      item.node.size < 2 ^ 64 := by
    decide +kernel
  have hfits : ∀ entry ∈ powerPlan.files schemaHost,
      (entryItem schemaHost.file id entry).any (fun item => item.Fits) := by
    decide +kernel
  have honce : ∀ p ∈ powerFiles, ∀ entry ∈ powerPlan.files schemaHost,
      encode entry.1 = encode ('/' :: p.1) → entry.2 = "/osv/apps/sqlite".toList ++ p.2 := by
    decide +kernel
  obtain ⟨events, hbuild, hsource⟩ := build_benchmarkFiles hplain (by decide) hdirect hsize
    (fun entry hentry _ => by simpa [Option.any_eq_true] using hfits entry hentry)
    List.mem_cons_self rfl (by decide +kernel) honce
  obtain ⟨path, -, hcontent⟩ := hsource "query22.sql".toList (by decide +kernel)
  have hname : '/' :: "query22.sql".toList = "/query22.sql".toList := by decide +kernel
  have hhanded := hcontent _ _ _ rfl
  rw [hname] at hhanded
  exact ⟨events, hbuild, hhanded⟩

end TpchBench.Image
