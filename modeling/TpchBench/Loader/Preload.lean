import TpchBench.Loader.Tables

/-! # Timing loads with `preLoadTables`

Every iteration opens a database file of its own number, creates the tables, loads them and
removes the file. The numbers repeat in every invocation and the result of `createTables`
is ignored, so a load starts from empty tables exactly if the file that an earlier
invocation left has no rows.
-/

namespace TpchBench.Loader

open Sql Store

variable {V : Type*} [DecidableEq V] (store : Affinity → Text → V)

/-- The working directory, with the files `database_%d.db` by their numbers, and what will
happen to the next steps. -/
structure Workspace (V : Type*) where
  files : ℕ → Option (Database V)
  outcomes : ℕ → Outcome

/-- An iteration whose `loadTables` returned 1: the contents when the load started and those
it left. -/
structure Report (V : Type*) where
  iteration : ℕ
  before : Database V
  after : Database V

/-- What a file contains when it is opened; a file that does not exist is created. -/
def contents (files : ℕ → Option (Database V)) (i : ℕ) : Database V :=
  (files i).getD Database.empty

/-- One iteration: whether it goes on, what it leaves and what it reports. Opening and
removing the file may fail like any statement. -/
def iteration (dir : Directory) (i : ℕ) (w : Workspace V) :
    Bool × Workspace V × Option (Report V) :=
  if w.outcomes 0 = .ok then
    let opened := (createTables
      { conn := Conn.connect (contents w.files i), outcomes := fun n => w.outcomes (n + 1) }).2
    let loaded := loadTables (sem store) dir opened
    let closed := Function.update w.files i (some loaded.2.conn.close)
    if loaded.1 then
      let report : Report V :=
        { iteration := i, before := opened.conn.durable, after := loaded.2.conn.close }
      let rest := fun n => loaded.2.outcomes (n + 1)
      if loaded.2.outcomes 0 = .ok then (true, ⟨Function.update closed i none, rest⟩, some report)
      else (false, ⟨closed, rest⟩, some report)
    else (false, ⟨closed, loaded.2.outcomes⟩, none)
  else (false, ⟨w.files, fun n => w.outcomes (n + 1)⟩, none)

def preLoadLoop (dir : Directory) : ℕ → ℕ → Workspace V → Workspace V × List (Report V)
  | 0, _, w => (w, [])
  | n + 1, i, w =>
    let step := iteration store dir i w
    if step.1 then
      let rest := preLoadLoop dir n (i + 1) step.2.1
      (rest.1, step.2.2.toList ++ rest.2)
    else (step.2.1, step.2.2.toList)

/-- An invocation, with the directory of table files it finds. If it is killed, it takes no
further steps; that leaves the same files as if every further step failed. -/
structure Invocation where
  dir : Directory
  outcomes : ℕ → Outcome
  killedAt : Option ℕ

def Invocation.steps (inv : Invocation) (n : ℕ) : Outcome :=
  match inv.killedAt with
  | none => inv.outcomes n
  | some k => if k ≤ n then .fail else inv.outcomes n

/-- The number of iterations is 17, or 50 in the docker version. -/
def preLoadTables (iterations : ℕ) (files : ℕ → Option (Database V)) (inv : Invocation) :
    Workspace V × List (Report V) :=
  preLoadLoop store inv.dir iterations 1 ⟨files, inv.steps⟩

def afterInvocations (iterations : ℕ) (files : ℕ → Option (Database V))
    (history : List Invocation) : ℕ → Option (Database V) :=
  history.foldl (fun files inv => (preLoadTables store iterations files inv).1.files) files

def Report.StartsEmpty (r : Report V) : Prop := ∀ k, r.before.rows k = []

/-- Every table holds exactly the rows of the load's own statements. -/
def Report.Exact (dir : Directory) (r : Report V) : Prop :=
  ∀ k, r.after.rows k =
    (loadStatements dir (dir.entries.getD [])).flatMap (rowsFor store r.before.columns k)

variable {store} {dir : Directory} {i : ℕ} {w : Workspace V}

theorem iteration_files {j : ℕ} (hj : j ≠ i) :
    (iteration store dir i w).2.1.files j = w.files j := by
  unfold iteration
  dsimp only
  split_ifs <;> simp [hj]

structure Report.Of (store : Affinity → Text → V) (dir : Directory)
    (files : ℕ → Option (Database V)) (r : Report V) : Prop where
  rows : ∀ k, r.before.rows k = (contents files r.iteration).rows k
  load : ∃ s : Session (Database V), s.conn.durable = r.before ∧
    (loadTables (sem store) dir s).1 = true ∧
    r.after = (loadTables (sem store) dir s).2.conn.close

theorem iteration_report {r : Report V} (h : (iteration store dir i w).2.2 = some r) :
    r.iteration = i ∧ r.Of store dir w.files := by
  have hcreate := createTables_rows
    (s := ⟨Conn.connect (contents w.files i), fun n => w.outcomes (n + 1)⟩) rfl
  unfold iteration at h
  dsimp only at h
  split_ifs at h with h0 h1 h2
  · obtain rfl := Option.some.inj h
    exact ⟨rfl, hcreate.2, _, rfl, h1, rfl⟩
  · obtain rfl := Option.some.inj h
    exact ⟨rfl, hcreate.2, _, rfl, h1, rfl⟩

/-- Every report of the loop starts from the file that was there before the loop. -/
theorem preLoadLoop_reports {n : ℕ} {r : Report V}
    (h : r ∈ (preLoadLoop store dir n i w).2) :
    i ≤ r.iteration ∧ r.Of store dir w.files := by
  induction n generalizing i w with
  | zero => simp [preLoadLoop] at h
  | succ n ih =>
    unfold preLoadLoop at h
    dsimp only at h
    have hhead : ∀ r ∈ (iteration store dir i w).2.2.toList,
        i ≤ r.iteration ∧ r.Of store dir w.files := by
      intro r hr
      obtain ⟨rfl, hof⟩ := iteration_report (Option.mem_toList.mp hr)
      exact ⟨le_rfl, hof⟩
    split_ifs at h
    · rcases List.mem_append.mp h with h | h
      · exact hhead r h
      · obtain ⟨hle, hof⟩ := ih h
        have hfile : (iteration store dir i w).2.1.files r.iteration = w.files r.iteration :=
          iteration_files (by omega)
        refine ⟨by omega, fun k => ?_, hof.load⟩
        rw [hof.rows k, contents, contents, hfile]
    · exact hhead r h

/-- In every iteration whose `loadTables` returned 1, after any history, the load started
from empty tables, and left exactly its own rows, if and only if the database file found
for this iteration had no rows. -/
theorem preLoadTables_report_iff (iterations : ℕ) (files : ℕ → Option (Database V))
    (history : List Invocation) (inv : Invocation) {r : Report V}
    (h : r ∈ (preLoadTables store iterations
      (afterInvocations store iterations files history) inv).2) :
    (r.StartsEmpty ↔ ∀ k, (contents (afterInvocations store iterations files history)
        r.iteration).rows k = []) ∧
      ((Call.loadTables inv.dir).Plain → (r.Exact store inv.dir ↔
        ∀ k, (contents (afterInvocations store iterations files history)
          r.iteration).rows k = [])) := by
  obtain ⟨-, hof⟩ := preLoadLoop_reports h
  have hrows := hof.rows
  refine ⟨by simp only [Report.StartsEmpty, hrows], fun hplain => ?_⟩
  obtain ⟨s, hs, hl, hafter⟩ := hof.load
  cases hentries : inv.dir.entries with
  | none => simp [loadTables, hentries, Action.fail] at hl
  | some names =>
    obtain ⟨-, -, hload⟩ := loadTables_rows hentries (hplain names hentries) hl
    have hexact : ∀ k, r.after.rows k = r.before.rows k ++
        (loadStatements inv.dir (inv.dir.entries.getD [])).flatMap
          (rowsFor store r.before.columns k) := by
      intro k
      rw [hafter, Conn.close, hload k, hs, hentries, Option.getD_some]
    simp only [Report.Exact, hexact, List.append_left_eq_self, hrows]

def twoRegions : Directory where
  entries := some ["region.tbl".toList]
  fopen _ := some "0|A|x|\n1|B|y|\n".toList

/-- The process is killed in its first iteration, after the load is committed and before the
file is removed. -/
def killedInvocation : Invocation :=
  { dir := twoRegions, outcomes := fun _ => .ok, killedAt := some 12 }

def undisturbedInvocation : Invocation :=
  { dir := twoRegions, outcomes := fun _ => .ok, killedAt := none }

def reportsAfterKill : List (Report Value) :=
  (preLoadTables plainStore 17
    (afterInvocations plainStore 17 (fun _ => none) [killedInvocation]) undisturbedInvocation).2

theorem preLoadTables_report_iff_killed : ∃ r ∈ reportsAfterKill,
    (r.StartsEmpty ↔ ∀ k, (contents (afterInvocations plainStore 17 (fun _ => none)
        [killedInvocation]) r.iteration).rows k = []) ∧
      ((Call.loadTables twoRegions).Plain → (r.Exact plainStore twoRegions ↔
        ∀ k, (contents (afterInvocations plainStore 17 (fun _ => none)
          [killedInvocation]) r.iteration).rows k = [])) := by
  have hne : reportsAfterKill.head?.isSome := by decide +kernel
  obtain ⟨r, hr⟩ := Option.isSome_iff_exists.mp hne
  have hr := List.mem_of_mem_head? hr
  exact ⟨r, hr, preLoadTables_report_iff 17 (fun _ => none) [killedInvocation]
    undisturbedInvocation hr⟩

/-- The first load after the kill starts from a row of the killed process and ends with it. -/
theorem not_preLoadTables_exact_killed :
    ∃ r ∈ reportsAfterKill, ¬ r.StartsEmpty ∧ ¬ r.Exact plainStore twoRegions := by
  have hne : reportsAfterKill.head?.isSome := by decide +kernel
  have hrows : reportsAfterKill.head?.all fun r =>
      decide (r.before.rows "REGION".toList ≠ []) &&
        decide (r.after.rows "REGION".toList ≠
          (loadStatements twoRegions ["region.tbl".toList]).flatMap
            (rowsFor plainStore r.before.columns "REGION".toList)) := by decide +kernel
  obtain ⟨r, hr⟩ := Option.isSome_iff_exists.mp hne
  rw [hr, Option.all_some, Bool.and_eq_true, decide_eq_true_eq, decide_eq_true_eq] at hrows
  exact ⟨r, List.mem_of_mem_head? hr, fun h => hrows.1 (h _), fun h => hrows.2 (h _)⟩

end TpchBench.Loader
