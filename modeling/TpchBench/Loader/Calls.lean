import TpchBench.Loader.Queries
import TpchBench.Sql.Database

/-! # Loading and refreshing as transactions

`loadTables`, `refreshRF1` and `refreshRF2` run inside one transaction each and return at
the first failure without rolling back. A transaction that a failed call leaves open makes
the next `BEGIN` fail, so none of its rows can be committed later.
-/

namespace TpchBench.Loader

open Sql Store Store.Action

/-- What `readdir` lists, if the directory can be opened, and what `fopen` finds at a path. -/
structure Directory where
  entries : Option (List Text)
  fopen : Text → Option Text

def tablesDir : Text := "./tables/".toList

def tblMark : Text := ".tbl".toList

def filepath (name : Text) : Text := snprintf 256 (tablesDir ++ name)

def tableName (name : Text) : Text := snprintf 256 (beforeLastDot name)

/-- The number of tokens of the first line, which is read for this purpose only. -/
def numColumns (line : Text) : ℕ := (lineTokens line).length

/-- The statements for the lines of a file after the first. -/
def insertQueries (table : Text) (file : Text) : List Text :=
  match fgetsAll maxLineLength file with
  | [] => []
  | first :: lines => lines.map (insertQuery table (numColumns first))

section Calls

variable {C : Type*} (sem : List Token → C → Option C)

def loadFile (dir : Directory) (name : Text) : Action C :=
  if strstr name tblMark then
    match dir.fopen (filepath name) with
    | none => fail
    | some file => all ((insertQueries (tableName name) file).map (sqlite3Exec sem))
  else succeed

def loadTables (dir : Directory) : Action C :=
  match dir.entries with
  | none => fail
  | some names =>
    andThen (sqlite3Exec sem "BEGIN TRANSACTION;".toList)
      (andThen (all (names.map (loadFile sem dir))) (sqlite3Exec sem "COMMIT;".toList))

/-- The loop reads a line of each file until one of them ends. -/
def refreshLines (ordersFile lineitemFile : Text) : List (Text × Text) :=
  (fgetsAll maxLineLength ordersFile).zip (fgetsAll maxLineLength lineitemFile)

def refreshRF1 (ordersFile lineitemFile : Option Text) : Action C :=
  andThen (sqlite3Exec sem "BEGIN TRANSACTION;".toList)
    (andThen
      (match ordersFile, lineitemFile with
        | some orders, some lineitem =>
          all ((refreshLines orders lineitem).map fun p =>
            andThen (sqlite3Exec sem (ordersQuery p.1)) (sqlite3Exec sem (lineitemQuery p.2)))
        | _, _ => fail)
      (sqlite3Exec sem "COMMIT;".toList))

def refreshRF2 (deleteFile : Option Text) : Action C :=
  andThen (sqlite3Exec sem "BEGIN TRANSACTION;".toList)
    (andThen
      (match deleteFile with
        | some delete =>
          all ((fgetsAll maxLineLength delete).map fun line => sqlite3Exec sem (deleteQuery line))
        | none => fail)
      (sqlite3Exec sem "COMMIT;".toList))

end Calls

/-- If the entry is a table file, its table name has only letters, digits, `_` and `.`, and
its text has no quotes. -/
def Directory.PlainEntry (dir : Directory) (name : Text) : Prop :=
  strstr name tblMark → (∀ c ∈ tableName name, isNameChar c) ∧
    ∀ file ∈ dir.fopen (filepath name), '\'' ∉ file

inductive Call where
  | loadTables (dir : Directory)
  | refreshRF1 (ordersFile lineitemFile : Option Text)
  | refreshRF2 (deleteFile : Option Text)

/-- The statements for the file of a directory entry; `none` if it cannot be opened. -/
def fileQueries (dir : Directory) (name : Text) : Option (List Text) :=
  if strstr name tblMark then
    (dir.fopen (filepath name)).map (insertQueries (tableName name))
  else some []

namespace Call

def run {C : Type*} (sem : List Token → C → Option C) : Call → Action C
  | loadTables dir => Loader.loadTables sem dir
  | refreshRF1 orders lineitem => Loader.refreshRF1 sem orders lineitem
  | refreshRF2 delete => Loader.refreshRF2 sem delete

/-- The row operations of a call in their order; `none` if a file is missing. -/
def queries : Call → Option (List Text)
  | loadTables dir =>
    dir.entries.bind fun names => (names.mapM (fileQueries dir)).map List.flatten
  | refreshRF1 orders lineitem =>
    orders.bind fun orders => lineitem.map fun lineitem =>
      (refreshLines orders lineitem).flatMap fun p => [ordersQuery p.1, lineitemQuery p.2]
  | refreshRF2 delete => delete.map fun delete => (fgetsAll maxLineLength delete).map deleteQuery

def effect {C : Type*} (sem : List Token → C → Option C) (call : Call) (c : C) : Option C :=
  call.queries.bind fun qs => qs.foldlM (apply sem) c

/-- Table names of letters, digits, `_` and `.`, and file texts without quotes. -/
def Plain : Call → Prop
  | loadTables dir => ∀ names ∈ dir.entries, ∀ name ∈ names, dir.PlainEntry name
  | refreshRF1 orders lineitem => (∀ file ∈ orders, '\'' ∉ file) ∧ ∀ file ∈ lineitem, '\'' ∉ file
  | refreshRF2 delete => ∀ file ∈ delete, '\'' ∉ file

end Call

theorem lineTokens_plain {line : Text} (h : '\'' ∉ line) : ∀ t ∈ lineTokens line, '\'' ∉ t := by
  intro t ht hq
  obtain ⟨-, -, hsub⟩ := of_mem_tokens ht
  exact h ((List.takeWhile_sublist _).subset (hsub hq))

theorem fgetsAll_plain {size : ℕ} {file line : Text} (h : '\'' ∉ file)
    (hl : line ∈ fgetsAll size file) : '\'' ∉ line := fun hq => h (mem_of_mem_fgetsAll hl hq)

theorem tableName_plain {name : Text} (h : ∀ c ∈ name, isNameChar c) :
    ∀ c ∈ tableName name, isNameChar c := by
  intro c hc
  have hc := List.mem_of_mem_take hc
  rw [beforeLastDot, List.mem_reverse] at hc
  have hc := (List.dropWhile_sublist _).subset (List.mem_of_mem_drop hc)
  exact h c (List.mem_reverse.mp hc)

theorem Directory.plainEntry_of_name {dir : Directory} {name : Text}
    (hname : ∀ c ∈ name, isNameChar c)
    (hfile : ∀ file ∈ dir.fopen (filepath name), '\'' ∉ file) : dir.PlainEntry name :=
  fun _ => ⟨tableName_plain hname, hfile⟩

theorem tableName_length (name : Text) : (tableName name).length < 256 := by
  rw [tableName, snprintf, List.length_take]
  omega

theorem statements_insertQuery {table line : Text} (hlen : table.length < 256)
    (hname : ∀ c ∈ table, isNameChar c) (hline : '\'' ∉ line) (n : ℕ) :
    statements (insertQuery table n line) =
      [insertTokens table ((lineTokens line).take (n - 1)) ++ [.sym ')']] := by
  rw [insertQuery_eq hlen]
  apply statements_insert hname
  intro f hf
  exact lineTokens_plain hline f (List.mem_of_mem_take hf)

/-- A statement of `refreshRF1`, whole or cut off. -/
theorem statements_insertRowQuery {table line : Text}
    (hname : ∀ c ∈ table, isNameChar c) (hline : '\'' ∉ line) (limit : ℕ) :
    ∃ toks, statements (insertRowQuery table limit line) = [toks] ∧ IsInsert toks ∧
      (toks = insertTokens table ((lineTokens line).take (limit + 1)) ++ [.sym ')'] ∨
        .sym ')' ∉ toks) := by
  rw [insertRowQuery_eq]
  apply statements_insert_cut hname
  · intro f hf
    exact lineTokens_plain hline f (List.mem_of_mem_take hf)
  · have hhead : insertIntoText <+: insertBody table ((lineTokens line).take (limit + 1)) ++
        [')', ';'] := by
      simp only [insertBody, insertHead, List.append_assoc]
      exact List.prefix_append _ _
    exact List.prefix_take_iff.mpr ⟨hhead, by decide⟩
  · exact List.take_prefix _ _

theorem deleteToken_plain {line : Text} (h : '\'' ∉ line) : '\'' ∉ deleteToken line := by
  unfold deleteToken
  cases hl : (lineTokens line).head? with
  | none => decide
  | some t => exact lineTokens_plain h t (List.mem_of_mem_head? hl)

theorem statements_deleteQuery {line : Text} (hkey : '\'' ∉ deleteToken line) :
    ∃ toks, statements (deleteQuery line) = [toks] ∧ IsDelete toks ∧
      (toks = deleteTokens (deleteToken line) ∨ ∀ k, .str k ∉ toks) := by
  rw [deleteQuery_eq]
  apply statements_delete_cut hkey
  · exact List.prefix_take_iff.mpr ⟨List.prefix_append _ _, by decide⟩
  · exact List.take_prefix _ _

/-- A text of exactly one statement, which changes rows. -/
def IsRowQuery (q : Text) : Prop := ∃ toks, statements q = [toks] ∧ IsRowStatement toks

theorem mem_insertQueries {table file q : Text} (h : q ∈ insertQueries table file) :
    ∃ line ∈ fgetsAll maxLineLength file, ∃ n, q = insertQuery table n line := by
  unfold insertQueries at h
  split at h
  · simp at h
  · rename_i first lines hl
    obtain ⟨line, hline, rfl⟩ := List.mem_map.mp h
    exact ⟨line, by rw [hl]; exact List.mem_cons_of_mem _ hline, _, rfl⟩

theorem mem_fileQueries {dir : Directory} {name q : Text} {qs : List Text}
    (h : fileQueries dir name = some qs) (hq : q ∈ qs) :
    strstr name tblMark ∧
      ∃ file ∈ dir.fopen (filepath name), q ∈ insertQueries (tableName name) file := by
  unfold fileQueries at h
  split at h
  · rename_i ht
    obtain ⟨file, hfile, rfl⟩ := Option.map_eq_some_iff.mp h
    exact ⟨ht, file, hfile, hq⟩
  · obtain rfl := Option.some.inj h
    simp at hq

theorem statements_fileQueries {dir : Directory} {name : Text} (h : dir.PlainEntry name)
    {qs : List Text} (hqs : fileQueries dir name = some qs) :
    ∀ q ∈ qs, ∃ toks, statements q = [toks] ∧ IsInsert toks := by
  intro q hq
  obtain ⟨ht, file, hfile, hq⟩ := mem_fileQueries hqs hq
  obtain ⟨line, hline, n, rfl⟩ := mem_insertQueries hq
  exact ⟨_, statements_insertQuery (tableName_length name) (h ht).1
    (fgetsAll_plain ((h ht).2 file hfile) hline) n, isInsert_insertTokens _ _⟩

theorem isRowQuery_fileQueries {dir : Directory} {name : Text} (h : dir.PlainEntry name)
    {qs : List Text} (hqs : fileQueries dir name = some qs) : ∀ q ∈ qs, IsRowQuery q := by
  intro q hq
  obtain ⟨toks, hst, hi⟩ := statements_fileQueries h hqs q hq
  exact ⟨toks, hst, Or.inl hi⟩

theorem refreshLines_plain {orders lineitem : Text} (ho : '\'' ∉ orders) (hl : '\'' ∉ lineitem) :
    ∀ p ∈ refreshLines orders lineitem, '\'' ∉ p.1 ∧ '\'' ∉ p.2 := by
  rintro ⟨l₁, l₂⟩ hp
  obtain ⟨h1, h2⟩ := List.of_mem_zip hp
  exact ⟨fgetsAll_plain ho h1, fgetsAll_plain hl h2⟩

theorem isRowQuery_refresh {orders lineitem : Text} (ho : '\'' ∉ orders) (hl : '\'' ∉ lineitem)
    {p : Text × Text} (hp : p ∈ refreshLines orders lineitem) :
    IsRowQuery (ordersQuery p.1) ∧ IsRowQuery (lineitemQuery p.2) := by
  obtain ⟨h1, h2⟩ := refreshLines_plain ho hl p hp
  constructor
  · obtain ⟨toks, h, hrow, -⟩ := statements_insertRowQuery isNameChar_ordersName h1 8
    exact ⟨toks, h, Or.inl hrow⟩
  · obtain ⟨toks, h, hrow, -⟩ := statements_insertRowQuery isNameChar_lineitemName h2 15
    exact ⟨toks, h, Or.inl hrow⟩

theorem isRowQuery_deleteQuery {line : Text} (hkey : '\'' ∉ deleteToken line) :
    IsRowQuery (deleteQuery line) := by
  obtain ⟨toks, h, hrow, -⟩ := statements_deleteQuery hkey
  exact ⟨toks, h, Or.inr hrow⟩

theorem isRowQuery_delete {delete line : Text} (hd : '\'' ∉ delete)
    (hl : line ∈ fgetsAll maxLineLength delete) : IsRowQuery (deleteQuery line) :=
  isRowQuery_deleteQuery (deleteToken_plain (fgetsAll_plain hd hl))

theorem exists_of_mem_mapM {α β : Type*} {f : α → Option β} {xs : List α} {ys : List β}
    (h : xs.mapM f = some ys) : ∀ y ∈ ys, ∃ x ∈ xs, f x = some y := by
  induction xs generalizing ys with
  | nil =>
    obtain rfl := Option.some.inj h
    simp
  | cons x xs ih =>
    rw [List.mapM_cons] at h
    obtain ⟨z, hz, h⟩ := Option.bind_eq_some_iff.mp h
    obtain ⟨zs, hzs, h⟩ := Option.bind_eq_some_iff.mp h
    obtain rfl := Option.some.inj h
    rintro y hy
    rcases List.mem_cons.mp hy with rfl | hy
    · exact ⟨x, List.mem_cons_self, hz⟩
    · obtain ⟨x', hx', hy⟩ := ih hzs y hy
      exact ⟨x', List.mem_cons_of_mem _ hx', hy⟩

/-- Each row operation of a call is one statement that controls no transaction. -/
theorem Call.Plain.isRowQuery {call : Call} (h : call.Plain) {qs : List Text}
    (hqs : call.queries = some qs) : ∀ q ∈ qs, IsRowQuery q := by
  intro q hq
  cases call with
  | loadTables dir =>
    obtain ⟨names, hnames, hqs⟩ := Option.bind_eq_some_iff.mp hqs
    obtain ⟨qss, hqss, rfl⟩ := Option.map_eq_some_iff.mp hqs
    obtain ⟨qs, hqs, hq⟩ := List.mem_flatten.mp hq
    obtain ⟨name, hname, hfile⟩ := exists_of_mem_mapM hqss qs hqs
    exact isRowQuery_fileQueries (h names hnames name hname) hfile q hq
  | refreshRF1 orders lineitem =>
    obtain ⟨o, ho, hqs⟩ := Option.bind_eq_some_iff.mp hqs
    obtain ⟨l, hl, rfl⟩ := Option.map_eq_some_iff.mp hqs
    obtain ⟨p, hp, hq⟩ := List.mem_flatMap.mp hq
    obtain ⟨h1, h2⟩ := isRowQuery_refresh (h.1 o ho) (h.2 l hl) hp
    rcases List.mem_pair.mp hq with rfl | rfl
    · exact h1
    · exact h2
  | refreshRF2 delete =>
    obtain ⟨d, hd, rfl⟩ := Option.map_eq_some_iff.mp hqs
    obtain ⟨line, hline, rfl⟩ := List.mem_map.mp hq
    exact isRowQuery_delete (h d hd) hline

section Atomic

variable {C : Type*} (sem : List Token → C → Option C)

theorem IsRowQuery.updates {q : Text} (h : IsRowQuery q) :
    Updates (sqlite3Exec sem q) fun c => apply sem c q := by
  obtain ⟨toks, hst, hrow⟩ := h
  apply updates_sqlite3Exec
  intro toks' htoks
  rw [hst, List.mem_singleton] at htoks
  rwa [htoks]

theorem updates_queries {qs : List Text} (h : ∀ q ∈ qs, IsRowQuery q) :
    Updates (all (qs.map (sqlite3Exec sem))) fun c => qs.foldlM (apply sem) c :=
  updates_all qs fun q hq => (h q hq).updates sem

theorem updates_loadFile {dir : Directory} {name : Text} (h : dir.PlainEntry name) :
    Updates (loadFile sem dir name) fun c =>
      (fileQueries dir name).bind fun qs => qs.foldlM (apply sem) c := by
  unfold loadFile
  cases ht : strstr name tblMark with
  | false =>
    simp only [fileQueries, ht, Bool.false_eq_true, if_false, Option.bind_some, List.foldlM_nil]
    exact updates_succeed
  | true =>
    rw [if_pos rfl]
    cases hf : dir.fopen (filepath name) with
    | none =>
      simp only [fileQueries, ht, if_true, hf, Option.map_none, Option.bind_none]
      exact updates_fail
    | some file =>
      have hqs : fileQueries dir name = some (insertQueries (tableName name) file) := by
        simp [fileQueries, ht, hf]
      rw [hqs]
      exact updates_queries sem (isRowQuery_fileQueries h hqs)

theorem foldlM_mapM_flatten {α β : Type*} (f : α → Option (List β)) (g : C → β → Option C)
    (xs : List α) (c : C) :
    xs.foldlM (fun c x => (f x).bind fun ys => ys.foldlM g c) c =
      ((xs.mapM f).map List.flatten).bind fun ys => ys.foldlM g c := by
  induction xs generalizing c with
  | nil => rfl
  | cons x xs ih =>
    rw [List.foldlM_cons, List.mapM_cons]
    cases hx : f x with
    | none => rfl
    | some ys =>
      simp only [Option.bind_some, Option.bind_eq_bind, ih]
      cases hxs : xs.mapM f with
      | none => simp
      | some yss => simp [List.foldlM_append]

theorem foldlM_flatMap_pair {α β : Type*} (f₁ f₂ : α → β) (g : C → β → Option C) (xs : List α)
    (c : C) :
    (xs.flatMap fun x => [f₁ x, f₂ x]).foldlM g c =
      xs.foldlM (fun c x => (g c (f₁ x)).bind fun c => g c (f₂ x)) c := by
  induction xs generalizing c with
  | nil => rfl
  | cons x xs ih =>
    simp only [List.flatMap_cons, List.cons_append, List.nil_append, List.foldlM_cons,
      Option.bind_eq_bind, Option.bind_assoc, ih]

theorem transaction_eq (body : Action C) :
    andThen (sqlite3Exec sem "BEGIN TRANSACTION;".toList)
      (andThen body (sqlite3Exec sem "COMMIT;".toList)) = transaction body := by
  rw [sqlite3Exec_begin, sqlite3Exec_commit, transaction]

theorem effect_loadTables (names : List Text) (fopen : Text → Option Text) :
    (Call.loadTables ⟨some names, fopen⟩).effect sem = fun c => names.foldlM (fun c name =>
      (fileQueries ⟨some names, fopen⟩ name).bind fun qs => qs.foldlM (apply sem) c) c := by
  funext c
  exact (foldlM_mapM_flatten _ _ names c).symm

theorem effect_refreshRF1 (orders lineitem : Text) :
    (Call.refreshRF1 (some orders) (some lineitem)).effect sem = fun c =>
      (refreshLines orders lineitem).foldlM (fun c p =>
        (apply sem c (ordersQuery p.1)).bind fun c => apply sem c (lineitemQuery p.2)) c := by
  funext c
  exact foldlM_flatMap_pair _ _ _ _ c

theorem effect_refreshRF2 (delete : Text) :
    (Call.refreshRF2 (some delete)).effect sem = fun c =>
      (fgetsAll maxLineLength delete).foldlM (fun c line => apply sem c (deleteQuery line)) c := by
  funext c
  exact List.foldlM_map

theorem atomic_refreshRF2 {delete : Text}
    (h : ∀ line ∈ fgetsAll maxLineLength delete, IsRowQuery (deleteQuery line)) :
    Atomic (refreshRF2 sem (some delete)) ((Call.refreshRF2 (some delete)).effect sem) := by
  rw [effect_refreshRF2, refreshRF2, transaction_eq]
  exact (updates_all _ fun line hline => (h line hline).updates sem).transaction

/-- A call applies all its row operations or none. -/
theorem Call.Plain.atomic {call : Call} (h : call.Plain) :
    Atomic (call.run sem) (call.effect sem) := by
  cases call with
  | loadTables dir =>
    obtain ⟨entries, fopen⟩ := dir
    cases entries with
    | none => exact atomic_fail
    | some names =>
      have hbody := updates_all names fun name hname =>
        updates_loadFile sem (h names rfl name hname)
      simp only [Call.run, Loader.loadTables, transaction_eq]
      rw [effect_loadTables]
      exact hbody.transaction
  | refreshRF1 orders lineitem =>
    simp only [Call.run, Loader.refreshRF1, transaction_eq]
    cases orders with
    | none => exact updates_fail.transaction
    | some o =>
      cases lineitem with
      | none => exact updates_fail.transaction
      | some l =>
        rw [effect_refreshRF1]
        refine (updates_all _ fun p hp => ?_).transaction
        obtain ⟨h1, h2⟩ := isRowQuery_refresh (h.1 o rfl) (h.2 l rfl) hp
        exact (h1.updates sem).andThen (h2.updates sem)
  | refreshRF2 delete =>
    cases delete with
    | none =>
      simp only [Call.run, Loader.refreshRF2, transaction_eq]
      exact updates_fail.transaction
    | some d => exact atomic_refreshRF2 sem fun _ hline => isRowQuery_delete (h d rfl) hline

def returnedOne (calls : List Call) (results : List Bool) : List Call :=
  ((calls.zip results).filter Prod.snd).map Prod.fst

/-- Whatever fails and however often, closing the connection leaves the initial contents
changed by all row operations of the calls that returned 1, in call order. -/
theorem runCalls_close (calls : List Call) (h : ∀ call ∈ calls, call.Plain) (s : Session C) :
    (∀ call ∈ calls, ∀ qs, call.queries = some qs → ∀ q ∈ qs, IsRowQuery q) ∧
      (returnedOne calls (runCalls (calls.map (Call.run sem)) s).1).foldlM
          (fun c call => call.effect sem c) s.conn.durable =
        some (runCalls (calls.map (Call.run sem)) s).2.conn.close := by
  constructor
  · intro call hcall qs hqs
    exact (h call hcall).isRowQuery hqs
  · exact runCalls_durable calls (fun call hcall => (h call hcall).atomic sem) s

end Atomic

def twoOrders : Database Value :=
  Database.empty.set ordersName
    { columns := [⟨"O_ORDERKEY".toList, .integer⟩]
      rows := [[.int 1], [.int 2]]
      width := by simp }

def threeDeletions : List Call :=
  [.refreshRF2 (some "1|\n".toList), .refreshRF2 (some "2|\n".toList),
    .refreshRF2 (some "2|\n".toList)]

/-- The second call fails at its `DELETE` and leaves its transaction open. -/
def interruptedSession : Session (Database Value) :=
  { conn := Conn.connect twoOrders
    outcomes := fun n => if n = 4 then .fail else .ok }

theorem runCalls_interrupted :
    (runCalls (threeDeletions.map (Call.run (sem plainStore))) interruptedSession).1 =
        [true, false, false] ∧
      (returnedOne threeDeletions
          (runCalls (threeDeletions.map (Call.run (sem plainStore))) interruptedSession).1).foldlM
          (fun c call => call.effect (sem plainStore) c) twoOrders =
        some (runCalls (threeDeletions.map (Call.run (sem plainStore)))
          interruptedSession).2.conn.close := by
  refine ⟨by decide +kernel, (runCalls_close (sem plainStore) _ ?_ interruptedSession).2⟩
  simp [threeDeletions, Call.Plain]

end TpchBench.Loader
