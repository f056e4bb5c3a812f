import TpchBench.Loader.Calls

/-! # The tables and their rows

`createTables` makes the eight tables, each in a transaction of its own. A `loadTables` that
returns 1 adds the rows of all its statements at the ends of the tables; without outside
failures it returns 1 exactly if every file can be opened and every statement is accepted.
-/

namespace TpchBench.Loader

open Sql Store Store.Action

structure TableCreation where
  name : Text
  columns : List Column

def col (name : String) (type : Affinity) : Column := ⟨name.toList, type⟩

def tableCreations : List TableCreation := [
  { name := "REGION".toList
    columns := [col "R_REGIONKEY" .integer, col "R_NAME" .text, col "R_COMMENT" .text] },
  { name := "NATION".toList
    columns := [col "N_NATIONKEY" .integer, col "N_NAME" .text, col "N_REGIONKEY" .integer,
      col "N_COMMENT" .text] },
  { name := "PART".toList
    columns := [col "P_PARTKEY" .integer, col "P_NAME" .text, col "P_MFGR" .text,
      col "P_BRAND" .text, col "P_TYPE" .text, col "P_SIZE" .integer, col "P_CONTAINER" .text,
      col "P_RETAILPRICE" .real, col "P_COMMENT" .text] },
  { name := "SUPPLIER".toList
    columns := [col "S_SUPPKEY" .integer, col "S_NAME" .text, col "S_ADDRESS" .text,
      col "S_NATIONKEY" .integer, col "S_PHONE" .text, col "S_ACCTBAL" .real,
      col "S_COMMENT" .text] },
  { name := "PARTSUPP".toList
    columns := [col "PS_PARTKEY" .integer, col "PS_SUPPKEY" .integer, col "PS_AVAILQTY" .integer,
      col "PS_SUPPLYCOST" .real, col "PS_COMMENT" .text] },
  { name := "CUSTOMER".toList
    columns := [col "C_CUSTKEY" .integer, col "C_NAME" .text, col "C_ADDRESS" .text,
      col "C_NATIONKEY" .integer, col "C_PHONE" .text, col "C_ACCTBAL" .real,
      col "C_MKTSEGMENT" .text, col "C_COMMENT" .text] },
  { name := ordersName
    columns := [col "O_ORDERKEY" .integer, col "O_CUSTKEY" .integer, col "O_ORDERSTATUS" .text,
      col "O_TOTALPRICE" .real, col "O_ORDERDATE" .text, col "O_ORDERPRIORITY" .text,
      col "O_CLERK" .text, col "O_SHIPPRIORITY" .integer, col "O_COMMENT" .text] },
  { name := lineitemName
    columns := [col "L_ORDERKEY" .integer, col "L_PARTKEY" .integer, col "L_SUPPKEY" .integer,
      col "L_LINENUMBER" .integer, col "L_QUANTITY" .real, col "L_EXTENDEDPRICE" .real,
      col "L_DISCOUNT" .real, col "L_TAX" .real, col "L_RETURNFLAG" .text,
      col "L_LINESTATUS" .text, col "L_SHIPDATE" .text, col "L_COMMITDATE" .text,
      col "L_RECEIPTDATE" .text, col "L_SHIPINSTRUCT" .text, col "L_SHIPMODE" .text,
      col "L_COMMENT" .text] }]

variable {V : Type*}

/-- Each table is created by a statement of its own, outside a transaction. -/
def createTables : Action (Database V) :=
  all (tableCreations.map fun t => exec (.update fun db => db.create t.name t.columns))

def createdColumns (key : Text) : Option (List Column) :=
  (tableCreations.find? (·.name = key)).map TableCreation.columns

theorem create_spec {db db' : Database V} {key : Text} {columns : List Column}
    (h : db.create key columns = some db') :
    (∀ k, db'.columns k = if k = key then some columns else db.columns k) ∧
      ∀ k, db'.rows k = db.rows k := by
  unfold Database.create at h
  split at h
  · rename_i ht
    obtain rfl := Option.some.inj h
    refine ⟨fun k => by simp [Table.empty], fun k => ?_⟩
    by_cases hk : k = key
    · subst hk
      rw [Database.set_rows, if_pos rfl, Database.rows, ht]
      rfl
    · rw [Database.set_rows, if_neg hk]
  · simp at h

/-- Outside a transaction, creating tables never opens one and leaves all rows alone,
whatever fails. -/
theorem createTables_rows {s : Session (Database V)} (h : s.conn.pending = none) :
    (createTables s).2.conn.pending = none ∧
      ∀ k, (createTables s).2.conn.durable.rows k = s.conn.durable.rows k := by
  have hall := all_update_auto (f := fun (db : Database V) t => db.create t.name t.columns)
    (P := fun db => ∀ k, db.rows k = s.conn.durable.rows k) tableCreations
    (fun t _ db db' hdb hrows k => by rw [(create_spec hdb).2 k, hrows k]) s h (fun _ => rfl)
  exact ⟨hall.1, hall.2.1⟩

theorem createTables_undisturbed {s : Session (Database V)} (h : s.Undisturbed) :
    (createTables s).2.Undisturbed := by
  unfold createTables
  exact all_exec_undisturbed _ tableCreations h

theorem foldlM_create_columns {ts : List TableCreation} {db db' : Database V}
    (h : ts.foldlM (fun db t => db.create t.name t.columns) db = some db')
    (hnodup : (ts.map TableCreation.name).Nodup) (k : Text) :
    db'.columns k = ((ts.find? (·.name = k)).map TableCreation.columns).or (db.columns k) := by
  induction ts generalizing db with
  | nil =>
    obtain rfl := Option.some.inj h
    simp
  | cons t ts ih =>
    rw [List.foldlM_cons] at h
    obtain ⟨db₁, h₁, h⟩ := Option.bind_eq_some_iff.mp h
    rw [List.map_cons, List.nodup_cons] at hnodup
    rw [ih h hnodup.2, (create_spec h₁).1 k]
    by_cases hk : t.name = k
    · have hnone : ts.find? (·.name = k) = none := by
        rw [List.find?_eq_none]
        intro t' ht' heq
        exact hnodup.1 (List.mem_map.mpr ⟨t', ht', by simpa [hk] using heq⟩)
      simp [hnone, List.find?_cons_of_pos, hk]
    · simp [hk, Ne.symm hk]

theorem createTables_empty {s : Session (Database V)} (hs : s.conn = Conn.connect Database.empty)
    (h : (createTables s).1 = true) :
    (createTables s).2.conn.pending = none ∧
      (createTables s).2.conn.durable.columns = createdColumns ∧
      ∀ k, (createTables s).2.conn.durable.rows k = [] := by
  have hpend : s.conn.pending = none := by rw [hs]; rfl
  have hdur : s.conn.durable = Database.empty := by rw [hs]; rfl
  obtain ⟨hp, hrows⟩ := createTables_rows hpend
  have hall := all_update_auto (f := fun (db : Database V) t => db.create t.name t.columns)
    (P := fun _ => True) tableCreations (fun _ _ _ _ _ _ => trivial) s hpend trivial
  have hfold := hall.2.2 h
  refine ⟨hp, ?_, fun k => ?_⟩
  · funext k
    have hnodup : (tableCreations.map TableCreation.name).Nodup := by decide +kernel
    have hcols := foldlM_create_columns hfold hnodup k
    rw [hdur] at hcols
    exact hcols.trans (Option.or_none)
  · rw [hrows k, hdur]
    rfl

theorem createdColumns_name {key : Text} {cols : List Column}
    (h : createdColumns key = some cols) : key ≠ [] ∧ ∀ c ∈ key, c.isAlpha := by
  have hall : ∀ t ∈ tableCreations, t.name ≠ [] ∧ t.name.all Char.isAlpha := by decide +kernel
  obtain ⟨t, ht, -⟩ := Option.map_eq_some_iff.mp h
  have hname : t.name = key := by simpa using List.find?_some ht
  rw [← hname]
  obtain ⟨hne, halpha⟩ := hall t (List.mem_of_find?_eq_some ht)
  exact ⟨hne, List.all_eq_true.mp halpha⟩

theorem parseInsert_complete {table : Text} (ht : lex table = [.word table]) (fields : List Text) :
    parseInsert (insertTokens table fields ++ [.sym ')']) =
      (parseValues (literalTokens fields ++ [.sym ')'])).map fun values =>
        (upper table, values) := by
  have hi : upper "INSERT".toList = "INSERT".toList ∧ upper "INTO".toList = "INTO".toList := by
    decide
  have hv : upper "VALUES".toList = "VALUES".toList := by decide
  have hrest : ∀ rest, tableRef (.word table :: .word "VALUES".toList :: rest) =
      some (upper table, .word "VALUES".toList :: rest) := fun _ => rfl
  have htoks : insertTokens table fields ++ [.sym ')'] =
      .word "INSERT".toList :: .word "INTO".toList :: .word table :: .word "VALUES".toList ::
        .sym '(' :: (literalTokens fields ++ [.sym ')']) := by
    simp only [insertTokens, ht, List.cons_append, List.nil_append]
  rw [htoks, parseInsert, if_pos hi, hrest]
  simp only [hv, if_true]

theorem parseInsert_insertTokens {table : Text} (ht : lex table = [.word table])
    {fields : List Text} (hne : fields ≠ []) :
    parseInsert (insertTokens table fields ++ [.sym ')']) = some (upper table, fields) := by
  rw [parseInsert_complete ht, parseValues_literalTokens hne, Option.map_some]

def entryStatements (dir : Directory) (name : Text) : List (List Token) :=
  ((fileQueries dir name).getD []).flatMap statements

def loadStatements (dir : Directory) (names : List Text) : List (List Token) :=
  names.flatMap (entryStatements dir)

def readable (dir : Directory) (names : List Text) : Bool :=
  names.all fun name => (fileQueries dir name).isSome

theorem mapM_getD {α β : Type*} (f : α → Option (List β)) (xs : List α) :
    xs.mapM f = if xs.all (fun x => (f x).isSome) then some (xs.map fun x => (f x).getD [])
      else none := by
  induction xs with
  | nil => rfl
  | cons x xs ih =>
    rw [List.mapM_cons, ih]
    cases hx : f x with
    | none => simp [hx]
    | some y => split <;> simp_all

theorem foldlM_apply {C : Type*} (sem : List Token → C → Option C) (qs : List Text) (c : C) :
    qs.foldlM (apply sem) c = (qs.flatMap statements).foldlM (fun c toks => sem toks c) c := by
  induction qs generalizing c with
  | nil => rfl
  | cons q qs ih =>
    rw [List.foldlM_cons, List.flatMap_cons, List.foldlM_append]
    simp only [ih]
    rfl

/-- The effect of a load is that of its statements, if the files can be opened. -/
theorem effect_eq_statements {C : Type*} (sem : List Token → C → Option C) {dir : Directory}
    {names : List Text} (h : dir.entries = some names) (c : C) :
    (Call.loadTables dir).effect sem c =
      if readable dir names then
        (loadStatements dir names).foldlM (fun c toks => sem toks c) c
      else none := by
  have hst : ((names.map fun name => (fileQueries dir name).getD []).flatten).flatMap statements =
      loadStatements dir names := by
    simp only [loadStatements, List.flatMap_def, List.map_flatten, List.map_map,
      List.flatten_flatten]
    rfl
  have hmap : names.mapM (fileQueries dir) = if readable dir names then
      some (names.map fun name => (fileQueries dir name).getD []) else none := mapM_getD _ _
  simp only [Call.effect, Call.queries, h, Option.bind_some, hmap]
  cases readable dir names with
  | true => rw [if_pos rfl, if_pos rfl, Option.map_some, Option.bind_some, foldlM_apply, hst]
  | false => rfl

variable [DecidableEq V] {store : Affinity → Text → V} {dir : Directory} {names : List Text}

theorem isInsert_loadStatements (h : ∀ name ∈ names, dir.PlainEntry name) :
    ∀ toks ∈ loadStatements dir names, IsInsert toks := by
  intro toks htoks
  obtain ⟨name, hname, htoks⟩ := List.mem_flatMap.mp htoks
  obtain ⟨q, hq, htoks⟩ := List.mem_flatMap.mp htoks
  cases hf : fileQueries dir name with
  | none => simp [hf] at hq
  | some qs =>
    rw [hf, Option.getD_some] at hq
    obtain ⟨toks', hst, hi⟩ := statements_fileQueries (h name hname) hf q hq
    rw [hst, List.mem_singleton] at htoks
    rwa [htoks]

theorem plain_loadTables (hentries : dir.entries = some names)
    (hplain : ∀ name ∈ names, dir.PlainEntry name) : (Call.loadTables dir).Plain := by
  intro names' hnames'
  obtain rfl : names = names' := Option.some.inj (hentries.symm.trans hnames')
  exact hplain

theorem loadTables_fold (hentries : dir.entries = some names)
    (hplain : ∀ name ∈ names, dir.PlainEntry name) {s : Session (Database V)}
    (h : (loadTables (sem store) dir s).1 = true) :
    readable dir names = true ∧
      (loadStatements dir names).foldlM (fun db toks => sem store toks db) s.conn.durable =
        some (loadTables (sem store) dir s).2.conn.durable := by
  have heff := ((plain_loadTables hentries hplain).atomic (sem store)).effect s h
  rw [effect_eq_statements _ hentries] at heff
  split at heff
  · rename_i hr
    exact ⟨hr, heff⟩
  · simp at heff

theorem loadTables_rows (hentries : dir.entries = some names)
    (hplain : ∀ name ∈ names, dir.PlainEntry name) {s : Session (Database V)}
    (h : (loadTables (sem store) dir s).1 = true) :
    readable dir names = true ∧
      (loadTables (sem store) dir s).2.conn.durable.columns = s.conn.durable.columns ∧
      ∀ k, (loadTables (sem store) dir s).2.conn.durable.rows k = s.conn.durable.rows k ++
        (loadStatements dir names).flatMap (rowsFor store s.conn.durable.columns k) := by
  obtain ⟨hr, hfold⟩ := loadTables_fold hentries hplain h
  exact ⟨hr, (foldlM_insert (isInsert_loadStatements hplain) _).2 _ hfold⟩

theorem loadTables_accepts (hentries : dir.entries = some names)
    (hplain : ∀ name ∈ names, dir.PlainEntry name) {s : Session (Database V)}
    (h : (loadTables (sem store) dir s).1 = true) :
    ∀ toks ∈ loadStatements dir names, accepts s.conn.durable.columns toks := by
  obtain ⟨-, hfold⟩ := loadTables_fold hentries hplain h
  have hall : ((loadStatements dir names).foldlM (fun db toks => sem store toks db)
      s.conn.durable).isSome = (loadStatements dir names).all (accepts s.conn.durable.columns) :=
    (foldlM_insert (isInsert_loadStatements hplain) s.conn.durable).1
  rw [hfold, Option.isSome_some] at hall
  exact List.all_eq_true.mp hall.symm

/-- A load that nothing disturbs returns 1 exactly if every file can be opened and every
statement is accepted. -/
theorem loadTables_returns (hentries : dir.entries = some names)
    (hplain : ∀ name ∈ names, dir.PlainEntry name) {s : Session (Database V)}
    (hp : s.conn.pending = none) (hu : s.Undisturbed) :
    (loadTables (sem store) dir s).1 = (readable dir names &&
      (loadStatements dir names).all (accepts s.conn.durable.columns)) := by
  have hcall := plain_loadTables hentries hplain
  have hret := (hcall.atomic (sem store)).returns s hp hu
  rw [effect_eq_statements _ hentries] at hret
  refine hret.trans ?_
  split
  · rename_i hr
    rw [hr, Bool.true_and]
    exact (foldlM_insert (isInsert_loadStatements hplain) _).1
  · rename_i hr
    simp [hr]

def newSession : Session (Database Value) :=
  { conn := Conn.connect Database.empty, outcomes := fun _ => .ok }

def createdSession : Session (Database Value) := (createTables newSession).2

theorem createdSession_columns : createdSession.conn.durable.columns = createdColumns :=
  (createTables_empty (s := newSession) rfl (by decide +kernel)).2.1

end TpchBench.Loader
