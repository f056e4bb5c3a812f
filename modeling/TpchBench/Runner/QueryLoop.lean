import TpchBench.Text.Stream
import Mathlib.Data.List.Nodup
import Mathlib.Data.List.ProdSigma

/-! # The query loop of `main`

The three `main.c` run the files `query1.sql` to `query22.sql` in every iteration, on one
connection, and go on whatever `sqlite3_exec` returns. `query15.sql` creates a view, queries
it and drops it, so a failure after the first of its statements leaves the view behind.
-/

namespace TpchBench.Runner

inductive Statement where
  | select (query : ℕ)
  | createView (name : Text)
  | dropView (name : Text)
  deriving DecidableEq, Repr

def revenue0 : Text := "revenue0".toList

def queryFile (query : ℕ) : List Statement :=
  if query = 15 then [.createView revenue0, .select 15, .dropView revenue0] else [.select query]

def sqliteOk : ℤ := 0
def sqliteError : ℤ := 1

/-- A database: the names of tables and indices and those of views, in lower case, the result
code of a change of the schema (`SQLITE_READONLY` if it cannot be written), and all the rest. -/
structure Database (α : Type) where
  tables : List Text
  views : List Text
  writeCode : ℤ
  contents : α
  deriving DecidableEq

variable {α : Type}

namespace Database

def addView (db : Database α) (name : Text) : Database α := { db with views := name :: db.views }

/-- The result code of `CREATE VIEW`: a name that is taken is found before anything is written. -/
def createCode (db : Database α) (name : Text) : ℤ :=
  if name ∈ db.tables ∨ name ∈ db.views then sqliteError else db.writeCode

def dropCode (db : Database α) (name : Text) : ℤ :=
  if name ∈ db.views then db.writeCode else sqliteError

end Database

section Loop

-- The result code of the `SELECT` of a query file.
variable (selects : ℕ → Database α → ℤ)

/-- One statement, committed on its own; one that fails changes nothing. -/
def execStatement (db : Database α) : Statement → ℤ × Database α
  | .select query => (selects query db, db)
  | .createView name =>
    (db.createCode name, if db.createCode name = sqliteOk then db.addView name else db)
  | .dropView name =>
    (db.dropCode name,
      if db.dropCode name = sqliteOk then { db with views := db.views.erase name } else db)

/-- `sqlite3_exec` on the text of a file: the statements in order up to the first that fails.
The statement with the index in `fault` fails in any case, with the code that stands there. -/
def execFile : Option (ℕ × ℤ) → Database α → List Statement → ℤ × Database α
  | _, db, [] => (sqliteOk, db)
  | some (0, rc), db, _ :: _ => (rc, db)
  | fault, db, st :: sts =>
    let (rc, db) := execStatement selects db st
    if rc ≠ sqliteOk then (rc, db) else execFile (fault.map fun f => (f.1 - 1, f.2)) db sts

def schedule (numIterations : ℕ) : List (ℕ × ℕ) :=
  (List.range' 1 numIterations) ×ˢ (List.range' 1 22)

/-- The position of a statement execution that is made to fail, and the code that it returns. -/
structure Fault where
  itr : ℕ
  query : ℕ
  statement : ℕ
  rc : ℤ
  rc_ne : rc ≠ sqliteOk
  deriving DecidableEq, Repr

def Fault.at (f : Fault) : ℕ × ℕ := (f.itr, f.query)

def faultIn (fault : Option Fault) (e : ℕ × ℕ) : Option (ℕ × ℤ) :=
  fault.bind fun f => if f.at = e then some (f.statement, f.rc) else none

def runQueries (fault : Option Fault) :
    Database α → List (ℕ × ℕ) → List ((ℕ × ℕ) × ℤ) × Database α
  | db, [] => ([], db)
  | db, e :: es =>
    let (rc, db') := execFile selects (faultIn fault e) db (queryFile e.2)
    let (codes, db'') := runQueries fault db' es
    ((e, rc) :: codes, db'')

/-- The statement runs and succeeds when nothing is made to fail. -/
def Fault.Hits (f : Fault) (db : Database α) (numIterations : ℕ) : Prop :=
  f.at ∈ schedule numIterations ∧ f.statement < (queryFile f.query).length ∧
  (execFile selects none
    (runQueries selects none db ((schedule numIterations).takeWhile (· ≠ f.at))).2
    ((queryFile f.query).take (f.statement + 1))).1 = sqliteOk

/-- Every execution but the one with the fault returns what it returns without the fault. -/
def Fault.Isolated (f : Fault) (db : Database α) (numIterations : ℕ) : Prop :=
  ∀ e rc rc', e ≠ f.at → (e, rc) ∈ (runQueries selects (some f) db (schedule numIterations)).1 →
    (e, rc') ∈ (runQueries selects none db (schedule numIterations)).1 → rc = rc'

end Loop

variable {selects : ℕ → Database α → ℤ}

theorem runQueries_append (fault : Option Fault) (db : Database α) (es es' : List (ℕ × ℕ)) :
    runQueries selects fault db (es ++ es') =
      ((runQueries selects fault db es).1 ++
        (runQueries selects fault (runQueries selects fault db es).2 es').1,
       (runQueries selects fault (runQueries selects fault db es).2 es').2) := by
  induction es generalizing db with
  | nil => rfl
  | cons e es ih => simp [runQueries, ih]

theorem map_fst_runQueries (fault : Option Fault) (db : Database α) (es : List (ℕ × ℕ)) :
    (runQueries selects fault db es).1.map Prod.fst = es := by
  induction es generalizing db with
  | nil => rfl
  | cons e es ih => simp [runQueries, ih]

theorem mem_of_mem_runQueries {fault : Option Fault} {db : Database α} {es : List (ℕ × ℕ)}
    {e : ℕ × ℕ} {rc : ℤ} (h : (e, rc) ∈ (runQueries selects fault db es).1) : e ∈ es := by
  have hm := List.mem_map_of_mem (f := Prod.fst) h
  rwa [map_fst_runQueries] at hm

theorem runQueries_of_not_mem {f : Fault} {es : List (ℕ × ℕ)} (h : f.at ∉ es) (db : Database α) :
    runQueries selects (some f) db es = runQueries selects none db es := by
  induction es generalizing db with
  | nil => rfl
  | cons e es ih =>
    simp only [List.mem_cons, not_or] at h
    have hf : faultIn (some f) e = none := by simp [faultIn, h.1]
    simp only [runQueries, hf, ih h.2]
    rfl

theorem nodup_schedule (n : ℕ) : (schedule n).Nodup :=
  List.Nodup.product List.nodup_range' List.nodup_range'

theorem mem_schedule {n : ℕ} {e : ℕ × ℕ} :
    e ∈ schedule n ↔ (1 ≤ e.1 ∧ e.1 ≤ n) ∧ 1 ≤ e.2 ∧ e.2 ≤ 22 := by
  rw [schedule, List.mem_product, List.mem_range'_1, List.mem_range'_1]
  omega

theorem codes_eq_iff {db db' : Database α} {es : List (ℕ × ℕ)} (hn : es.Nodup) :
    (runQueries selects none db es).1 = (runQueries selects none db' es).1 ↔
      ∀ e rc rc', (e, rc) ∈ (runQueries selects none db es).1 →
        (e, rc') ∈ (runQueries selects none db' es).1 → rc = rc' := by
  induction es generalizing db db' with
  | nil => simp [runQueries]
  | cons e es ih =>
    obtain ⟨he, hn⟩ := List.nodup_cons.mp hn
    simp only [runQueries, List.cons.injEq, Prod.mk.injEq, true_and, ih hn, List.mem_cons]
    constructor
    · rintro ⟨hrc, hes⟩ e' rc rc' (⟨rfl, rfl⟩ | h) (⟨h₁, rfl⟩ | h')
      · exact hrc
      · exact absurd (mem_of_mem_runQueries h') he
      · exact absurd (h₁ ▸ mem_of_mem_runQueries h) he
      · exact hes e' rc rc' h h'
    · intro h
      exact ⟨h e _ _ (Or.inl ⟨rfl, rfl⟩) (Or.inl ⟨rfl, rfl⟩),
        fun e' rc rc' h₁ h₂ => h e' rc rc' (Or.inr h₁) (Or.inr h₂)⟩

theorem Fault.schedule_eq {f : Fault} {n : ℕ} (h : f.at ∈ schedule n) :
    ∃ post, schedule n = (schedule n).takeWhile (· ≠ f.at) ++ f.at :: post := by
  obtain ⟨e, post, he⟩ : ∃ e post, (schedule n).dropWhile (· ≠ f.at) = e :: post := by
    refine List.exists_cons_of_ne_nil fun hnil => ?_
    simpa using List.dropWhile_eq_nil_iff.mp hnil _ h
  have hne : (schedule n).dropWhile (· ≠ f.at) ≠ [] := by rw [he]; exact List.cons_ne_nil _ _
  obtain rfl : e = f.at := by
    have hhead := List.head_dropWhile_not (fun x => decide (x ≠ f.at)) hne
    simp only [he, List.head_cons] at hhead
    simpa using hhead
  exact ⟨post, by rw [← he, List.takeWhile_append_dropWhile]⟩

theorem schedule_query15 {n itr : ℕ} (h : 1 ≤ itr ∧ itr ≤ n) :
    schedule n = (List.range' 1 (itr - 1) ×ˢ List.range' 1 22 ++
        (List.range' 1 14).map (Prod.mk itr)) ++ (itr, 15) ::
      ((List.range' 16 7).map (Prod.mk itr) ++
        List.range' (itr + 1) (n - itr) ×ˢ List.range' 1 22) := by
  obtain ⟨a, rfl⟩ : ∃ a, itr = a + 1 := ⟨itr - 1, by omega⟩
  obtain ⟨b, rfl⟩ : ∃ b, n = a + (b + 1) := ⟨n - a - 1, by omega⟩
  have hitr : List.range' 1 (a + (b + 1)) =
      List.range' 1 a ++ (a + 1) :: List.range' (a + 2) b := by
    rw [← List.range'_append_1, List.range'_succ, Nat.add_comm 1 a]
  have hquery : (List.range' 1 22).map (Prod.mk (a + 1)) =
      (List.range' 1 14).map (Prod.mk (a + 1)) ++
        (a + 1, 15) :: (List.range' 16 7).map (Prod.mk (a + 1)) := rfl
  have hb : a + (b + 1) - (a + 1) = b := by omega
  rw [schedule, hitr, hb, Nat.add_sub_cancel]
  change List.flatMap _ _ = List.flatMap _ _ ++ _ ++ (a + 1, 15) :: (_ ++ List.flatMap _ _)
  rw [List.flatMap_append, List.flatMap_cons, hquery]
  simp only [List.append_assoc, List.cons_append]

theorem post_query15 {n itr : ℕ} {pre post : List (ℕ × ℕ)}
    (h : schedule n = pre ++ (itr, 15) :: post) :
    itr ≤ n ∧ post = (List.range' 16 7).map (Prod.mk itr) ++
      List.range' (itr + 1) (n - itr) ×ˢ List.range' 1 22 := by
  have hmem : (itr, 15) ∈ schedule n := by rw [h]; simp
  have hitr := (mem_schedule.mp hmem).1
  have hn := nodup_schedule n
  rw [h, List.nodup_append, List.nodup_cons] at hn
  obtain ⟨-, ⟨hpost, -⟩, hdis⟩ := hn
  have hpre : (itr, 15) ∉ pre := fun hm => hdis _ hm _ List.mem_cons_self rfl
  rw [schedule_query15 hitr, eq_comm, List.append_cons_inj_of_notMem hpre hpost] at h
  exact ⟨hitr.2, h.2.2⟩

theorem exists_query15_iff {n itr : ℕ} {pre post : List (ℕ × ℕ)}
    (h : schedule n = pre ++ (itr, 15) :: post) : (∃ e ∈ post, e.2 = 15) ↔ itr < n := by
  obtain ⟨hle, rfl⟩ := post_query15 h
  constructor
  · rintro ⟨⟨a, q⟩, he, rfl⟩
    rcases List.mem_append.mp he with he | he
    · simp at he
    · rw [List.mem_product, List.mem_range'_1] at he
      omega
  · intro hlt
    refine ⟨(itr + 1, 15), List.mem_append_right _ ?_, rfl⟩
    rw [List.mem_product, List.mem_range'_1, List.mem_range'_1]
    omega

theorem mem_takeWhile_post {n itr : ℕ} {pre post : List (ℕ × ℕ)}
    (h : schedule n = pre ++ (itr, 15) :: post) (q : ℕ) :
    (∃ e ∈ post.takeWhile (·.2 ≠ 15), e.2 = q) ↔
      1 ≤ q ∧ q ≤ 22 ∧ q ≠ 15 ∧ (15 < q ∨ itr < n) := by
  obtain ⟨hle, rfl⟩ := post_query15 h
  have hfirst : ∀ e ∈ (List.range' 16 7).map (Prod.mk itr), decide (e.2 ≠ 15) = true := by
    intro e he
    obtain ⟨q, hq, rfl⟩ := List.mem_map.mp he
    rw [List.mem_range'_1] at hq
    exact decide_eq_true (by simp only; omega)
  rw [List.takeWhile_append_of_pos hfirst]
  rcases Nat.eq_or_lt_of_le hle with rfl | hlt
  · have hnil : List.range' (itr + 1) (itr - itr) ×ˢ List.range' 1 22 = [] := by simp
    rw [hnil]
    simp only [List.takeWhile_nil, List.append_nil, List.mem_map, List.mem_range'_1]
    constructor
    · rintro ⟨_, ⟨q, hq, rfl⟩, rfl⟩
      simp only; omega
    · intro hq
      exact ⟨(itr, q), ⟨q, by omega, rfl⟩, rfl⟩
  · -- The next iteration contributes its queries 1 to 14.
    obtain ⟨b, hb⟩ : ∃ b, n - itr = b + 1 := ⟨n - itr - 1, by omega⟩
    have hnext : (List.range' (itr + 1) (n - itr) ×ˢ List.range' 1 22).takeWhile (·.2 ≠ 15) =
        (List.range' 1 14).map (Prod.mk (itr + 1)) := by
      rw [hb, List.range'_succ]
      rfl
    rw [hnext]
    simp only [List.mem_append, List.mem_map, List.mem_range'_1]
    constructor
    · rintro ⟨_, ⟨q, hq, rfl⟩ | ⟨q, hq, rfl⟩, rfl⟩ <;> simp only <;> omega
    · intro hq
      rcases Nat.lt_or_ge 15 q with h15 | h15
      · exact ⟨(itr, q), Or.inl ⟨q, by omega, rfl⟩, rfl⟩
      · exact ⟨(itr + 1, q), Or.inr ⟨q, by omega, rfl⟩, rfl⟩

/-- A fault is isolated if the database it leaves behind answers the later executions as the
one without the fault does. -/
theorem Fault.isolated_iff_codes {f : Fault} {db : Database α} {n : ℕ} {pre post : List (ℕ × ℕ)}
    (h : schedule n = pre ++ f.at :: post) :
    f.Isolated selects db n ↔
      (runQueries selects none
        (execFile selects (some (f.statement, f.rc)) (runQueries selects none db pre).2
          (queryFile f.query)).2 post).1 =
      (runQueries selects none
        (execFile selects none (runQueries selects none db pre).2
          (queryFile f.query)).2 post).1 := by
  have hn := nodup_schedule n
  rw [h] at hn
  obtain ⟨hnpre, hncons, hdis⟩ := List.nodup_append.mp hn
  obtain ⟨hpost, hnpost⟩ := List.nodup_cons.mp hncons
  have hpre : f.at ∉ pre := fun hm => hdis _ hm _ List.mem_cons_self rfl
  have hin : faultIn (some f) f.at = some (f.statement, f.rc) := by simp [faultIn]
  have hout : faultIn none f.at = none := rfl
  unfold Fault.Isolated
  rw [h, runQueries_append, runQueries_append, runQueries_of_not_mem hpre]
  simp only [runQueries, hin, hout, runQueries_of_not_mem hpost]
  rw [codes_eq_iff hnpost]
  constructor
  · intro hall e rc rc' h₁ h₂
    have he : e ≠ f.at := fun he => hpost (he ▸ mem_of_mem_runQueries h₁)
    exact hall e rc rc' he (by simp [Fault.at] at h₁ ⊢; tauto) (by simp [Fault.at] at h₂ ⊢; tauto)
  · intro hall e rc rc' he h₁ h₂
    simp only [List.mem_append, List.mem_cons, Prod.mk.injEq, he, false_and, false_or] at h₁ h₂
    rcases h₁ with h₁ | h₁ <;> rcases h₂ with h₂ | h₂
    · exact (codes_eq_iff hnpre).mp rfl e rc rc' h₁ h₂
    · exact absurd rfl (hdis _ (mem_of_mem_runQueries h₁) _
        (List.mem_cons_of_mem _ (mem_of_mem_runQueries h₂)))
    · exact absurd rfl (hdis _ (mem_of_mem_runQueries h₂) _
        (List.mem_cons_of_mem _ (mem_of_mem_runQueries h₁)))
    · exact hall e rc rc' h₁ h₂

theorem execFile_other {query : ℕ} (hq : query ≠ 15) (fault : Option (ℕ × ℤ)) (db : Database α) :
    (execFile selects fault db (queryFile query)).2 = db := by
  rw [queryFile, if_neg hq]
  rcases fault with _ | ⟨_ | k, rc⟩
  · by_cases h : selects query db = sqliteOk <;> simp [execFile, execStatement, h]
  · rfl
  · by_cases h : selects query db = sqliteOk <;> simp [execFile, execStatement, h]

theorem execFile_other_code {query : ℕ} (hq : query ≠ 15) (db : Database α) :
    (execFile selects none db (queryFile query)).1 = selects query db := by
  rw [queryFile, if_neg hq]
  by_cases h : selects query db = sqliteOk <;> simp [execFile, execStatement, h]

theorem createCode_addView (db : Database α) (name : Text) :
    (db.addView name).createCode name = sqliteError := by
  simp [Database.createCode, Database.addView]

theorem sqliteError_ne : sqliteError ≠ sqliteOk := by decide

theorem execStatement_createView {db : Database α} {name : Text}
    (h : db.createCode name = sqliteOk) :
    execStatement selects db (.createView name) = (sqliteOk, db.addView name) := by
  simp [execStatement, h]

theorem dropView_addView {db : Database α} {name : Text} (h : db.createCode name = sqliteOk) :
    execStatement selects (db.addView name) (.dropView name) = (sqliteOk, db) := by
  obtain ⟨tables, views, writeCode, contents⟩ := db
  have hwrite : writeCode = sqliteOk := by
    rw [Database.createCode] at h
    split at h
    · exact absurd h sqliteError_ne
    · exact h
  simp [execStatement, Database.dropCode, Database.addView, hwrite]

/-- Query 15 leaves the view behind exactly when its `SELECT` fails on it. -/
theorem execFile_query15 (db : Database α) :
    execFile selects none db (queryFile 15) =
      if db.createCode revenue0 = sqliteOk then
        (selects 15 (db.addView revenue0),
          if selects 15 (db.addView revenue0) = sqliteOk then db else db.addView revenue0)
      else (db.createCode revenue0, db) := by
  by_cases hc : db.createCode revenue0 = sqliteOk
  · rw [if_pos hc]
    have hselect : execStatement selects (db.addView revenue0) (.select 15) =
        (selects 15 (db.addView revenue0), db.addView revenue0) := rfl
    by_cases hs : selects 15 (db.addView revenue0) = sqliteOk
    · simp [queryFile, execFile, execStatement_createView hc, hselect, hs, dropView_addView hc]
    · simp [queryFile, execFile, execStatement_createView hc, hselect, hs]
  · simp [queryFile, execFile, execStatement, hc]

theorem execFile_db_cases (query : ℕ) (db : Database α) :
    (execFile selects none db (queryFile query)).2 = db ∨
      (db.createCode revenue0 = sqliteOk ∧
        (execFile selects none db (queryFile query)).2 = db.addView revenue0) := by
  by_cases hq : query = 15
  · subst hq
    rw [execFile_query15]
    split_ifs with hc hs
    · exact Or.inl rfl
    · exact Or.inr ⟨hc, rfl⟩
    · exact Or.inl rfl
  · exact Or.inl (execFile_other hq none db)

/-- A run without a fault leaves the database as it is, or with the view added once. -/
theorem runQueries_db_cases (db : Database α) (es : List (ℕ × ℕ)) :
    (runQueries selects none db es).2 = db ∨
      (runQueries selects none db es).2 = db.addView revenue0 := by
  suffices h : ∀ s, s = db ∨ s = db.addView revenue0 →
      (runQueries selects none s es).2 = db ∨
        (runQueries selects none s es).2 = db.addView revenue0 from h db (Or.inl rfl)
  induction es with
  | nil => exact fun s hs => hs
  | cons e es ih =>
    intro s hs
    apply ih
    have hcases : (execFile selects none s (queryFile e.2)).2 = s ∨ _ := execFile_db_cases e.2 s
    rcases hs with rfl | rfl
    · rcases hcases with h | ⟨-, h⟩
      · exact Or.inl h
      · exact Or.inr h
    · rcases hcases with h | ⟨hc, -⟩
      · exact Or.inr h
      · exact absurd ((createCode_addView db revenue0).symm.trans hc) sqliteError_ne

/-- A left-over view goes unnoticed if the queries before the next query 15 do not see it, and
query 15 does not run again or fails on the view with the code of its `CREATE VIEW`. -/
theorem codes_addView_iff {db : Database α} (hc : db.createCode revenue0 = sqliteOk)
    (es : List (ℕ × ℕ)) :
    (runQueries selects none (db.addView revenue0) es).1 = (runQueries selects none db es).1 ↔
      (∀ e ∈ es.takeWhile (·.2 ≠ 15),
        selects e.2 (db.addView revenue0) = selects e.2 db) ∧
      (selects 15 (db.addView revenue0) ≠ sqliteError → ∀ e ∈ es, e.2 ≠ 15) := by
  have hexists := createCode_addView db revenue0
  have hview : execFile selects none (db.addView revenue0) (queryFile 15) =
      (sqliteError, db.addView revenue0) := by
    rw [execFile_query15, hexists, if_neg sqliteError_ne]
  induction es with
  | nil => simp [runQueries]
  | cons e es ih =>
    have hin : faultIn none e = none := rfl
    by_cases hq : e.2 = 15
    · rw [List.takeWhile_cons_of_neg (by simp [hq])]
      simp only [runQueries, hin, hq, hview, execFile_query15, if_pos hc]
      by_cases hs : selects 15 (db.addView revenue0) = sqliteError
      · simp [hs, sqliteError_ne]
      · simp [hs, hq, Ne.symm hs]
    · rw [List.takeWhile_cons_of_pos (by simp [hq])]
      simp only [runQueries, hin, execFile_other hq, execFile_other_code hq, List.cons.injEq,
        Prod.mk.injEq, true_and, ih, List.forall_mem_cons, and_assoc, ne_eq, hq, not_false_eq_true]

/-- What a fault in query 15 leaves behind: the view, except if its creation failed. -/
theorem execFile_fault15 {db : Database α} {j : ℕ} (hj : j < 3)
    (h : (execFile selects none db ((queryFile 15).take (j + 1))).1 = sqliteOk) (rc : ℤ) :
    db.createCode revenue0 = sqliteOk ∧
      (0 < j → selects 15 (db.addView revenue0) = sqliteOk) ∧
      (execFile selects (some (j, rc)) db (queryFile 15)).2 =
        if j = 0 then db else db.addView revenue0 := by
  have hselect : execStatement selects (db.addView revenue0) (.select 15) =
      (selects 15 (db.addView revenue0), db.addView revenue0) := rfl
  have hc : db.createCode revenue0 = sqliteOk := by
    by_contra hc
    simp [queryFile, execFile, execStatement, hc] at h
  have hs : 0 < j → selects 15 (db.addView revenue0) = sqliteOk := by
    intro hj0
    by_contra hs
    obtain ⟨k, rfl⟩ : ∃ k, j = k + 1 := ⟨j - 1, by omega⟩
    simp [queryFile, execFile, execStatement_createView hc, hselect, hs] at h
  refine ⟨hc, hs, ?_⟩
  obtain rfl | rfl | rfl : j = 0 ∨ j = 1 ∨ j = 2 := by omega
  · rfl
  · simp [queryFile, execFile, execStatement_createView hc]
  · simp [queryFile, execFile, execStatement_createView hc, hselect, hs]

/-- The queries between query 15 of the faulty iteration and the next query 15 return the
same whether or not the view `revenue0` is there. -/
def Fault.Unseen (selects : ℕ → Database α → ℤ) (f : Fault) (db : Database α) (n : ℕ) : Prop :=
  ∀ q, 1 ≤ q ∧ q ≤ 22 ∧ q ≠ 15 ∧ (15 < q ∨ f.itr < n) →
    selects q (db.addView revenue0) = selects q db

theorem codes_post_iff (selects : ℕ → Database α → ℤ) {db : Database α}
    (hc : db.createCode revenue0 = sqliteOk) {n : ℕ} {f : Fault} {pre post : List (ℕ × ℕ)}
    (h : schedule n = pre ++ (f.itr, 15) :: post) :
    (runQueries selects none (db.addView revenue0) post).1 = (runQueries selects none db post).1 ↔
      f.Unseen selects db n ∧
        (selects 15 (db.addView revenue0) = sqliteError ∨ f.itr = n) := by
  rw [codes_addView_iff hc, ← or_iff_not_imp_left]
  refine and_congr ⟨fun hall q hq => ?_, fun hall e he => ?_⟩ (or_congr_right ?_)
  · obtain ⟨e, he, rfl⟩ := (mem_takeWhile_post h q).mpr hq
    exact hall e he
  · exact hall e.2 ((mem_takeWhile_post h e.2).mp ⟨e, he, rfl⟩)
  · have hlast := exists_query15_iff h
    have hle := (post_query15 h).1
    constructor
    · intro hall
      by_contra hne
      obtain ⟨e, he, h15⟩ := hlast.mpr (by omega)
      exact hall e he h15
    · rintro hn e he h15
      exact absurd (hlast.mp ⟨e, he, h15⟩) (by omega)

/-- A single failing statement is isolated unless it is one of query 15. If that is its
`CREATE VIEW`, the `SELECT` has to succeed without the fault, or the view that the run without
the fault leaves behind has to go unnoticed; if it is the `SELECT` or the `DROP VIEW`, the
iteration has to be the last one and no later query may see the view. -/
theorem Fault.isolated_iff {db : Database α} {n : ℕ} {f : Fault} (hf : f.Hits selects db n) :
    f.Isolated selects db n ↔ (f.query = 15 →
      if f.statement = 0 then selects 15 (db.addView revenue0) = sqliteOk ∨
        f.Unseen selects db n ∧ (selects 15 (db.addView revenue0) = sqliteError ∨ f.itr = n)
      else f.itr = n ∧ f.Unseen selects db n) := by
  obtain ⟨hmem, hlen, hok⟩ := hf
  obtain ⟨post, hpost⟩ := Fault.schedule_eq hmem
  rw [Fault.isolated_iff_codes hpost]
  generalize (schedule n).takeWhile (· ≠ f.at) = pre at hok hpost
  by_cases hq : f.query = 15
  · have hat : f.at = (f.itr, 15) := by rw [Fault.at, hq]
    rw [hat] at hpost
    rw [hq] at hok hlen ⊢
    obtain ⟨hc, hs, hleft⟩ := execFile_fault15 hlen hok f.rc
    -- The view cannot be there yet, so the run so far has left the database as it was.
    have hdb : (runQueries selects none db pre).2 = db := by
      rcases (runQueries_db_cases db pre : (runQueries selects none db pre).2 = db ∨ _) with h | h
      · exact h
      · rw [h, createCode_addView] at hc
        exact absurd hc sqliteError_ne
    rw [hdb] at hc hs hleft ⊢
    rw [hleft, execFile_query15, if_pos hc, imp_iff_right rfl]
    by_cases hj : f.statement = 0
    · rw [if_pos hj, if_pos hj]
      by_cases hsel : selects 15 (db.addView revenue0) = sqliteOk
      · simp [hsel]
      · have hcodes := codes_post_iff selects hc hpost
        rw [or_iff_right hsel, ← hcodes, eq_comm]
        simp [hsel]
    · have hsel := hs (Nat.pos_of_ne_zero hj)
      rw [if_neg hj, if_neg hj, hsel, if_pos rfl, codes_post_iff selects hc hpost, hsel,
        or_iff_right (Ne.symm sqliteError_ne), and_comm]
  · rw [execFile_other hq, execFile_other hq]
    simp [hq]

def sampleDatabase : Database Unit where
  tables := ["supplier".toList, "lineitem".toList]
  views := []
  writeCode := sqliteOk
  contents := ()

def fault15 (statement : ℕ) : Fault := ⟨1, 15, statement, sqliteError, sqliteError_ne⟩

/-- A failing `SELECT` of query 15 in the first iteration makes the second one fail. -/
theorem not_isolated_select15 :
    (fault15 1).Hits (fun _ _ => sqliteOk) sampleDatabase 2 ∧
      ¬ (fault15 1).Isolated (fun _ _ => sqliteOk) sampleDatabase 2 := by
  refine ⟨⟨by decide, by decide, by decide +kernel⟩, fun h => ?_⟩
  have := h (2, 15) sqliteError sqliteOk (by decide) (by decide +kernel) (by decide +kernel)
  exact sqliteError_ne this

/-- A failing `CREATE VIEW` of query 15 is isolated. -/
theorem isolated_create15 :
    (fault15 0).Hits (fun _ _ => sqliteOk) sampleDatabase 2 ∧
      (fault15 0).Isolated (fun _ _ => sqliteOk) sampleDatabase 2 := by
  have hits : (fault15 0).Hits (fun _ _ => sqliteOk) sampleDatabase 2 :=
    ⟨by decide, by decide, by decide +kernel⟩
  exact ⟨hits, (Fault.isolated_iff hits).mpr fun _ => Or.inl rfl⟩

end TpchBench.Runner
