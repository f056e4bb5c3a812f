import TpchBench.Pipeline.Scripts

/-! # The scale factor of the data that are run

Abstractly a checkout is the list of scale factors generated so far, newest first.
The root database is the oldest of them and the `.tbl` files are the newest, so the
three systems of a power test agree exactly when only one scale was ever requested.
-/

namespace TpchBench.Pipeline

variable {σ : Type} [DecidableEq σ]

def Launch.At (l : Launch σ) (s : σ) : Prop :=
  l.unikraft = some (.madeAt s) ∧ l.nanos = some (.madeAt s) ∧ l.osv = some (.madeAt s)

instance (l : Launch σ) (s : σ) : Decidable (l.At s) :=
  inferInstanceAs (Decidable (_ ∧ _ ∧ _))

/-- Every power invocation launches the three systems on data of its own scale factor. -/
def PowerAtScale (invs : List (Invocation σ)) : Prop :=
  ∀ p ∈ invs.zip (mainRun cleanCheckout invs).2, p.1.test = .power →
    ∃ l, p.2 = some l ∧ l.At p.1.dbgenSize

def request (seen : List σ) (s : σ) : List σ := if s ∈ seen then seen else s :: seen

/-- A checkout in which exactly the given scale factors were generated, newest first. -/
structure Holds (c : Checkout σ) (seen : List σ) : Prop where
  nodup : seen.Nodup
  cloned : c.files .tpchSqlite = none ↔ seen = []
  cached : ∀ s, c.files (.tpchDbOf s) = if s ∈ seen then some (.madeAt s) else none
  tbl : c.files .tpchDbgenTbl = seen.head?.map .madeAt
  root : c.files .rootDb = seen.getLast?.map .madeAt
  rootfs : ∀ s o, c.files (.rootfsDbOf s) = some o → o = .madeAt s

theorem holds_clean : Holds (cleanCheckout : Checkout σ) [] where
  nodup := List.nodup_nil
  cloned := by simp [cleanCheckout]
  cached s := by simp [cleanCheckout]
  tbl := rfl
  root := rfl
  rootfs s o h := by simp [cleanCheckout] at h

section Files

variable (fs : Files σ) (p : Path σ) (o : Origin σ)

@[simp] theorem Files.write_apply (q : Path σ) :
    fs.write p o q = if q = p then some o else fs q := by
  simp [Files.write, Function.update_apply]

@[simp] theorem Files.rm_apply (q : Path σ) : fs.rm p q = if q = p then none else fs q := by
  simp [Files.rm, Function.update_apply]

theorem Files.cp_of_some {o : Origin σ} {src : Path σ} (h : fs src = some o) (dst : Path σ) :
    fs.cp src dst = fs.write dst o := by
  simp [Files.cp, h]

theorem Files.mv_of_some {o : Origin σ} {src : Path σ} (h : fs src = some o) (dst : Path σ) :
    fs.mv src dst = (fs.write dst o).rm src := by
  simp [Files.mv, h]

theorem Files.cp_of_ne {src dst q : Path σ} (h : q ≠ dst) : fs.cp src dst q = fs q := by
  cases hs : fs src with
  | none => simp [Files.cp, hs]
  | some o => simp [Files.cp_of_some _ hs, h]

end Files

theorem make_files (fs : Files σ) (s : σ) (q : Path σ) : make fs s q =
    if q = .tpchDb ∨ q = .tpchDbgenTbl then some (.madeAt s) else fs q := by
  by_cases h₁ : q = .tpchDb <;> by_cases h₂ : q = .tpchDbgenTbl <;> simp [make, h₁, h₂]

theorem database_first {fs : Files σ} (h : fs .tpchSqlite = none) (s : σ) :
    database fs s = ((((make (fs.write .tpchSqlite .shipped) s).write .rootDb (.madeAt s)).write
      .tablesTbl (.madeAt s)).write (.tpchDbOf s) (.madeAt s)).rm .tpchDb := by
  have hdb : make (fs.write .tpchSqlite .shipped) s .tpchDb = some (.madeAt s) := by
    simp [make_files]
  have htbl : make (fs.write .tpchSqlite .shipped) s .tpchDbgenTbl = some (.madeAt s) := by
    simp [make_files]
  unfold database
  rw [if_pos h]
  simp only
  rw [Files.cp_of_some _ hdb, Files.cp_of_some _ (o := .madeAt s) (by simpa using htbl),
    Files.mv_of_some _ (o := .madeAt s) (by simpa using hdb)]

theorem database_fresh {fs : Files σ} (h : fs .tpchSqlite ≠ none) {s : σ}
    (hs : fs (.tpchDbOf s) = none) :
    database fs s =
      ((make (fs.rm .tpchDbgenTbl) s).write (.tpchDbOf s) (.madeAt s)).rm .tpchDb := by
  unfold database
  rw [if_neg h, if_pos hs]
  simp only
  rw [Files.mv_of_some _ (o := .madeAt s) (by simp [make_files])]

theorem database_cached {fs : Files σ} (h : fs .tpchSqlite ≠ none) {s : σ}
    (hs : fs (.tpchDbOf s) ≠ none) : database fs s = fs := by
  unfold database
  rw [if_neg h, if_neg hs]

theorem Holds.database {c : Checkout σ} {seen : List σ} (h : Holds c seen) (s : σ) :
    Holds { c with files := database c.files s } (request seen s) := by
  by_cases hc : c.files .tpchSqlite = none
  · obtain rfl := h.cloned.mp hc
    rw [database_first hc]
    refine ⟨by simp [request], by simp [request, make_files], fun t => ?_, ?_, ?_, fun t o ht => ?_⟩
    · have := h.cached t
      simp_all [request, make_files]
    · simp [request, make_files]
    · simp [request]
    · simp only [Files.rm_apply, Files.write_apply, make_files] at ht
      exact h.rootfs t o (by simpa using ht)
  · have hne : seen ≠ [] := fun e => hc (h.cloned.mpr e)
    have hcs := h.cached s
    by_cases hs : s ∈ seen
    · rw [if_pos hs] at hcs
      rw [database_cached hc (by simp [hcs]), request, if_pos hs]
      exact h
    · rw [if_neg hs] at hcs
      rw [database_fresh hc hcs, request, if_neg hs]
      refine ⟨List.nodup_cons.mpr ⟨hs, h.nodup⟩, by simp [make_files, hc], fun t => ?_, ?_, ?_,
        fun t o ht => ?_⟩
      · have := h.cached t
        by_cases ht : t = s <;> simp_all [make_files]
      · simp [make_files]
      · simp [make_files, h.root, List.getLast?_cons_of_ne_nil hne]
      · simp only [Files.rm_apply, Files.write_apply, make_files] at ht
        exact h.rootfs t o (by simpa using ht)

/-- Files that no kernel script touches. -/
def Path.Shared : Path σ → Prop
  | .tpchSqlite | .tpchDbOf _ | .tpchDbgenTbl | .rootDb => True
  | _ => False

theorem Holds.of_shared {c c' : Checkout σ} {seen : List σ} (h : Holds c seen)
    (hs : ∀ p : Path σ, p.Shared → c'.files p = c.files p)
    (hr : ∀ s o, c'.files (.rootfsDbOf s) = some o → o = .madeAt s) : Holds c' seen where
  nodup := h.nodup
  cloned := by rw [hs .tpchSqlite trivial, h.cloned]
  cached s := by rw [hs (.tpchDbOf s) trivial, h.cached]
  tbl := by rw [hs .tpchDbgenTbl trivial, h.tbl]
  root := by rw [hs .rootDb trivial, h.root]
  rootfs := hr

theorem unikraft_shared (c : Checkout σ) (inv : Invocation σ) {p : Path σ} (hp : p.Shared) :
    (unikraftGenerateKernel c inv).files p = c.files p := by
  unfold unikraftGenerateKernel
  cases inv.test with
  | power =>
    simp only
    split_ifs <;> cases p <;>
      simp_all [Path.Shared, Files.cp_of_ne, Files.rmRootfsDbs]
  | boot =>
    simp only
    split_ifs <;> cases p <;> simp_all [Path.Shared]

/-- Of the databases in the `rootfs`, the script keeps the requested one or none. -/
theorem unikraft_rootfs {c : Checkout σ} {seen : List σ} (h : Holds c seen) {inv : Invocation σ}
    (hmem : inv.dbgenSize ∈ seen) :
    (∀ s o, (unikraftGenerateKernel c inv).files (.rootfsDbOf s) = some o → o = .madeAt s) ∧
    (inv.test = .power → (unikraftGenerateKernel c inv).files (.rootfsDbOf inv.dbgenSize) =
      some (.madeAt inv.dbgenSize)) := by
  have hc := h.cached inv.dbgenSize
  rw [if_pos hmem] at hc
  have hsrc : c.files.rmRootfsDbs (.tpchDbOf inv.dbgenSize) = some (.madeAt inv.dbgenSize) := hc
  unfold unikraftGenerateKernel
  cases htest : inv.test with
  | boot =>
    refine ⟨fun s o ho => h.rootfs s o ?_, by simp⟩
    simp only at ho
    split_ifs at ho <;> simpa using ho
  | power =>
    simp only
    by_cases hr : c.files (.rootfsDbOf inv.dbgenSize) = none
    · rw [if_pos hr, Files.cp_of_some _ hsrc]
      refine ⟨fun s o ho => ?_, fun _ => ?_⟩
      · split_ifs at ho <;> by_cases hs : s = inv.dbgenSize <;>
          simp_all [Files.rmRootfsDbs]
      · split_ifs <;> simp
    · rw [if_neg hr]
      obtain ⟨o, ho⟩ := Option.ne_none_iff_exists'.mp hr
      refine ⟨fun s o ho => h.rootfs s o ?_, fun _ => ?_⟩
      · split_ifs at ho <;> simpa using ho
      · rw [← h.rootfs _ o ho]
        split_ifs <;> simp [ho]

theorem osv_of_ne (fs : Files σ) (inv : Invocation σ) {p : Path σ} (h₁ : p ≠ .osvTbl)
    (h₂ : p ≠ .osvImageTbl) : osvGenerateKernel fs inv p = fs p := by
  unfold osvGenerateKernel
  cases inv.test with
  | power => simp only; rw [Files.cp_of_ne _ h₂, Files.cp_of_ne _ h₁]
  | boot => simp [h₂]

theorem osv_image {fs : Files σ} {inv : Invocation σ} {o : Origin σ} (ht : inv.test = .power)
    (h : fs .tpchDbgenTbl = some o) : osvGenerateKernel fs inv .osvImageTbl = some o := by
  simp only [osvGenerateKernel, ht]
  rw [Files.cp_of_some _ h, Files.cp_of_some _ (o := o) (by simp)]
  simp

theorem nanos_of_ne (fs : Files σ) {p : Path σ} (h₁ : p ≠ .nanosDb) (h₂ : p ≠ .nanosTables) :
    nanosCleanUp (nanosCopy fs) p = fs p := by
  simp only [nanosCleanUp, nanosCopy, Files.rm_apply, h₁, h₂, if_false]
  rw [Files.cp_of_ne _ h₁, Files.cp_of_ne _ h₂]

theorem nanos_copy {fs : Files σ} {o : Origin σ} (h : fs .rootDb = some o) :
    nanosCopy fs .nanosDb = some o := by
  have hr : fs.cp .tablesTbl .nanosTables .rootDb = some o := by
    rw [Files.cp_of_ne _ (by simp), h]
  rw [nanosCopy, Files.cp_of_some _ hr]
  simp

theorem mem_request (seen : List σ) (s : σ) : s ∈ request seen s := by
  unfold request
  split
  · assumption
  · exact List.mem_cons_self

/-- One invocation generates its scale factor if it is new, and launches unikraft at the
requested scale, nanos at the oldest and OSv at the newest one. -/
theorem Holds.main {c : Checkout σ} {seen : List σ} (h : Holds c seen) (inv : Invocation σ) :
    Holds (main c inv).1 (request seen inv.dbgenSize) ∧
    (main c inv).2 = if inv.test = .power then
      some { unikraft := some (.madeAt inv.dbgenSize)
             nanos := (request seen inv.dbgenSize).getLast?.map .madeAt
             osv := (request seen inv.dbgenSize).head?.map .madeAt }
      else none := by
  have hd := h.database inv.dbgenSize
  have hmem := mem_request seen inv.dbgenSize
  generalize request seen inv.dbgenSize = gen at hd hmem ⊢
  generalize hc₁ : ({ c with files := Pipeline.database c.files inv.dbgenSize } : Checkout σ) = c₁
    at hd
  obtain ⟨hroot, hrun⟩ := unikraft_rootfs hd hmem
  have hu : Holds (unikraftGenerateKernel c₁ inv) gen :=
    hd.of_shared (fun p hp => unikraft_shared c₁ inv hp) hroot
  generalize hc₂ : unikraftGenerateKernel c₁ inv = c₂ at hroot hrun hu
  have hfiles : (Pipeline.main c inv).1.files =
      nanosCleanUp (nanosCopy (osvGenerateKernel c₂.files inv)) := by
    rw [← hc₂, ← hc₁]; rfl
  constructor
  · apply hu.of_shared
    · intro p hp
      rw [hfiles]
      cases p <;> simp [Path.Shared] at hp <;>
        rw [nanos_of_ne _ (by simp) (by simp), osv_of_ne _ _ (by simp) (by simp)]
    · intro s o ho
      rw [hfiles, nanos_of_ne _ (by simp) (by simp), osv_of_ne _ _ (by simp) (by simp)] at ho
      exact hroot s o ho
  · have hne := List.ne_nil_of_mem hmem
    obtain ⟨new, hnew⟩ := Option.isSome_iff_exists.mp (List.isSome_head?.mpr hne)
    obtain ⟨old, hold⟩ := Option.isSome_iff_exists.mp (List.getLast?_isSome.mpr hne)
    have hlaunch : (Pipeline.main c inv).2 = if inv.test = .power then
        some { unikraft := c₂.kraftDb.bind fun s => osvGenerateKernel c₂.files inv (.rootfsDbOf s)
               nanos := nanosCopy (osvGenerateKernel c₂.files inv) .nanosDb
               osv := osvGenerateKernel c₂.files inv .osvImageTbl } else none := by
      rw [← hc₂, ← hc₁]; rfl
    rw [hlaunch]
    by_cases ht : inv.test = .power
    · have hk : c₂.kraftDb = some inv.dbgenSize := by
        rw [← hc₂]; simp [unikraftGenerateKernel, ht]
      have hr : osvGenerateKernel c₂.files inv .rootDb = some (.madeAt old) := by
        rw [osv_of_ne _ _ (by simp) (by simp), hu.root, hold]; rfl
      have htbl : c₂.files .tpchDbgenTbl = some (.madeAt new) := by rw [hu.tbl, hnew]; rfl
      rw [if_pos ht, if_pos ht, hk, nanos_copy hr, osv_image ht htbl, hnew, hold]
      simp only [Option.bind_some, Option.map_some]
      rw [osv_of_ne _ _ (by simp) (by simp), hrun ht]
    · rw [if_neg ht, if_neg ht]

theorem forall_mem_request {seen : List σ} {s t : σ} :
    (∀ x ∈ request seen s, x = t) ↔ s = t ∧ ∀ x ∈ seen, x = t := by
  unfold request
  split
  · rename_i hs
    exact ⟨fun h => ⟨h s hs, h⟩, And.right⟩
  · exact List.forall_mem_cons

omit [DecidableEq σ] in
theorem ends_eq_iff {gen : List σ} (hn : gen.Nodup) {s : σ} (hs : s ∈ gen) :
    (gen.getLast? = some s ∧ gen.head? = some s) ↔ ∀ x ∈ gen, x = s := by
  constructor
  · rintro ⟨hl, hh⟩ x hx
    obtain ⟨rest, rfl⟩ := List.head?_eq_some_iff.mp hh
    have hsr := (List.nodup_cons.mp hn).1
    cases rest with
    | nil => exact List.mem_singleton.mp hx
    | cons y rest =>
      rw [List.getLast?_cons_cons] at hl
      exact absurd (List.mem_of_getLast? hl) hsr
  · intro h
    have hg := List.ne_nil_of_mem hs
    exact ⟨by rw [List.getLast?_eq_some_getLast hg, h _ (List.getLast_mem hg)],
      by rw [List.head?_eq_some_head hg, h _ (List.head_mem hg)]⟩

theorem Holds.launch_at_iff {c : Checkout σ} {seen : List σ} (h : Holds c seen)
    {inv : Invocation σ} (ht : inv.test = .power) :
    (∃ l, (Pipeline.main c inv).2 = some l ∧ l.At inv.dbgenSize) ↔
      ∀ s ∈ seen, s = inv.dbgenSize := by
  obtain ⟨hgen, hl⟩ := h.main inv
  rw [hl, if_pos ht]
  simp only [Option.some.injEq, exists_eq_left', Launch.At, true_and, Option.map_eq_some_iff,
    Origin.madeAt.injEq, exists_eq_right]
  rw [ends_eq_iff hgen.nodup (mem_request _ _), forall_mem_request]
  simp

theorem Holds.run_at_iff {c : Checkout σ} {seen : List σ} (h : Holds c seen)
    (invs : List (Invocation σ)) :
    (∀ p ∈ invs.zip (mainRun c invs).2, p.1.test = .power →
      ∃ l, p.2 = some l ∧ l.At p.1.dbgenSize) ↔
    ∀ pre inv post, invs = pre ++ inv :: post → inv.test = .power →
      (∀ s ∈ seen, s = inv.dbgenSize) ∧ ∀ i ∈ pre, i.dbgenSize = inv.dbgenSize := by
  induction invs generalizing c seen with
  | nil => simp
  | cons inv invs ih =>
    simp only [mainRun, List.zip_cons_cons, List.forall_mem_cons, ih (h.main inv).1,
      forall_mem_request]
    constructor
    · rintro ⟨hhead, htail⟩ pre inv' post he ht
      cases pre with
      | nil =>
        obtain ⟨rfl, -⟩ := List.cons.inj he
        exact ⟨(h.launch_at_iff ht).mp (hhead ht), by simp⟩
      | cons i pre =>
        obtain ⟨rfl, hinvs⟩ := List.cons.inj he
        obtain ⟨⟨hi, hseen⟩, hpre⟩ := htail pre inv' post hinvs ht
        exact ⟨hseen, List.forall_mem_cons.mpr ⟨hi, hpre⟩⟩
    · intro hall
      refine ⟨fun ht => (h.launch_at_iff ht).mpr (hall [] inv invs rfl ht).1, ?_⟩
      rintro pre inv' post rfl ht
      obtain ⟨hseen, hpre⟩ := hall (inv :: pre) inv' post rfl ht
      obtain ⟨hi, hpre⟩ := List.forall_mem_cons.mp hpre
      exact ⟨⟨hi, hseen⟩, hpre⟩

/-- In a sequence of invocations from a clean checkout, every power test runs on data of its
own scale factor exactly when each asks for the scale factor of all invocations before it. -/
theorem powerAtScale_iff (invs : List (Invocation σ)) :
    PowerAtScale invs ↔ ∀ pre inv post, invs = pre ++ inv :: post → inv.test = .power →
      ∀ i ∈ pre, i.dbgenSize = inv.dbgenSize := by
  rw [PowerAtScale, holds_clean.run_at_iff]
  simp

/-- A power test at scale 1 followed by one at scale 2. -/
theorem not_powerAtScale_one_two :
    ¬ PowerAtScale [(⟨"1", .power⟩ : Invocation String), ⟨"2", .power⟩] := by
  intro h
  obtain ⟨l, hl, hat⟩ := h (⟨"2", .power⟩, some
    { unikraft := some (.madeAt "2"), nanos := some (.madeAt "1"), osv := some (.madeAt "2") })
    (by decide) rfl
  obtain rfl := Option.some.inj hl
  revert hat
  decide

end TpchBench.Pipeline
