import TpchBench.Sql.Exec
import TpchBench.Text.Python
import Mathlib.Logic.Function.Basic

/-! # Tables and the statements that fill them

Creating a table, `INSERT` of one row of string literals, and `DELETE` of the rows with a
value in a column. How a column of a given affinity stores a text is a parameter.
-/

namespace TpchBench.Sql

inductive Affinity where
  | integer
  | text
  | blob
  | real
  | numeric
  deriving DecidableEq, Repr

structure Column where
  name : Text
  affinity : Affinity
  deriving DecidableEq, Repr

variable {V : Type*}

/-- The values of a row as the columns store them. -/
def storeRow (store : Affinity → Text → V) (columns : List Column) (values : List Text) : List V :=
  List.zipWith (fun c v => store c.affinity v) columns values

/-- A table; every row has a value for each column. -/
structure Table (V : Type*) where
  columns : List Column
  rows : List (List V)
  width : ∀ row ∈ rows, row.length = columns.length

namespace Table

def empty (columns : List Column) : Table V :=
  { columns := columns, rows := [], width := by simp }

def insert (store : Affinity → Text → V) (t : Table V) (values : List Text) : Option (Table V) :=
  if h : values.length = t.columns.length then
    some
      { t with
        rows := t.rows ++ [storeRow store t.columns values]
        width := by
          intro row hrow
          rcases List.mem_append.mp hrow with hrow | hrow
          · exact t.width row hrow
          · rw [List.mem_singleton.mp hrow, storeRow, List.length_zipWith, h, Nat.min_self] }
  else none

def keep (t : Table V) (p : List V → Bool) : Table V :=
  { t with
    rows := t.rows.filter p
    width := fun row hrow => t.width row (List.mem_of_mem_filter hrow) }

end Table

structure Database (V : Type*) where
  table : Text → Option (Table V)

namespace Database

def empty : Database V := ⟨fun _ => none⟩

def set (db : Database V) (key : Text) (t : Table V) : Database V :=
  ⟨Function.update db.table key (some t)⟩

def columns (db : Database V) (key : Text) : Option (List Column) :=
  (db.table key).map Table.columns

def rows (db : Database V) (key : Text) : List (List V) :=
  match db.table key with
  | none => []
  | some t => t.rows

end Database

/-- A table name, perhaps qualified by the schema `main`, and what follows it. -/
def tableRef : List Token → Option (Text × List Token)
  | .word s :: .sym '.' :: .word t :: rest =>
    if upper s = "MAIN".toList then some (upper t, rest) else none
  | .word t :: rest => some (upper t, rest)
  | _ => none

def parseValues : List Token → Option (List Text)
  | [.str s, .sym ')'] => some [s]
  | .str s :: .sym ',' :: rest => (parseValues rest).map (s :: ·)
  | _ => none

/-- The key of the table and the literals of an `INSERT`. -/
def parseInsert : List Token → Option (Text × List Text)
  | .word i :: .word into :: rest =>
    if upper i = "INSERT".toList ∧ upper into = "INTO".toList then
      match tableRef rest with
      | some (key, .word v :: .sym '(' :: rest) =>
        if upper v = "VALUES".toList then (parseValues rest).map fun values => (key, values)
        else none
      | _ => none
    else none
  | _ => none

/-- The key of the table, the column and the literal of a `DELETE`. -/
def parseDelete : List Token → Option (Text × Text × Text)
  | [.word d, .word fr, .word t, .word wh, .word col, .sym '=', .str value] =>
    if upper d = "DELETE".toList ∧ upper fr = "FROM".toList ∧ upper wh = "WHERE".toList then
      some (upper t, upper col, value)
    else none
  | _ => none

theorem parseValues_literalTokens {fields : List Text} (h : fields ≠ []) :
    parseValues (literalTokens fields ++ [.sym ')']) = some fields := by
  induction fields with
  | nil => exact absurd rfl h
  | cons f fs ih =>
    cases fs with
    | nil => rfl
    | cons g fs =>
      rw [literalTokens_cons_cons]
      simp only [List.cons_append, parseValues, ih (List.cons_ne_nil g fs), Option.map_some]

theorem parseValues_closed {toks : List Token} {values : List Text}
    (h : parseValues toks = some values) : .sym ')' ∈ toks := by
  fun_induction parseValues toks generalizing values with
  | case1 s => simp
  | case2 s rest ih =>
    obtain ⟨vs, hvs, -⟩ := Option.map_eq_some_iff.mp h
    exact List.mem_cons_of_mem _ (List.mem_cons_of_mem _ (ih hvs))
  | case3 => simp at h

theorem tableRef_suffix {toks rest : List Token} {key : Text}
    (h : tableRef toks = some (key, rest)) : rest <:+ toks := by
  unfold tableRef at h
  split at h
  · split at h
    · obtain ⟨-, rfl⟩ := Prod.mk.inj (Option.some.inj h)
      exact ⟨[_, _, _], rfl⟩
    · simp at h
  · obtain ⟨-, rfl⟩ := Prod.mk.inj (Option.some.inj h)
    exact List.suffix_cons _ _
  · simp at h

theorem parseInsert_closed {toks : List Token} {p : Text × List Text}
    (h : parseInsert toks = some p) : .sym ')' ∈ toks := by
  unfold parseInsert at h
  split at h
  · split at h
    · split at h
      · rename_i href
        split at h
        · obtain ⟨vs, hvs, -⟩ := Option.map_eq_some_iff.mp h
          have hmem := parseValues_closed hvs
          have hsuf := (tableRef_suffix href).subset
          refine List.mem_cons_of_mem _ (List.mem_cons_of_mem _ (hsuf ?_))
          exact List.mem_cons_of_mem _ (List.mem_cons_of_mem _ hmem)
        · simp at h
      · simp at h
    · simp at h
  · simp at h

theorem parseDelete_literal {toks : List Token} {p : Text × Text × Text}
    (h : parseDelete toks = some p) : ∃ k, .str k ∈ toks := by
  unfold parseDelete at h
  split at h
  · rename_i d fr t wh col value
    exact ⟨value, by simp⟩
  · simp at h

namespace Database

variable (store : Affinity → Text → V) (db : Database V)

def insert (key : Text) (values : List Text) : Option (Database V) :=
  (db.table key).bind fun t => (t.insert store values).map (db.set key)

def create (key : Text) (columns : List Column) : Option (Database V) :=
  match db.table key with
  | none => some (db.set key (Table.empty columns))
  | some _ => none

/-- The literal is compared as the column would store it. -/
def delete [DecidableEq V] (key column value : Text) : Option (Database V) :=
  (db.table key).bind fun t =>
    (t.columns.findIdx? (·.name = column)).bind fun i =>
      (t.columns[i]?).map fun c =>
        db.set key (t.keep fun row => row[i]? ≠ some (store c.affinity value))

end Database

/-- The meaning of a row statement; `none` is an error. -/
def sem [DecidableEq V] (store : Affinity → Text → V) (toks : List Token) (db : Database V) :
    Option (Database V) :=
  if keyword toks = "INSERT".toList then
    (parseInsert toks).bind fun p => db.insert store p.1 p.2
  else if keyword toks = "DELETE".toList then
    (parseDelete toks).bind fun p => db.delete store p.1 p.2.1 p.2.2
  else none

namespace Database

variable {store : Affinity → Text → V} {db db' : Database V} {key : Text}

@[simp] theorem set_rows (t : Table V) (k : Text) :
    (db.set key t).rows k = if k = key then t.rows else db.rows k := by
  by_cases hk : k = key
  · subst hk
    simp [rows, set]
  · simp [rows, set, hk]

@[simp] theorem set_columns (t : Table V) (k : Text) :
    (db.set key t).columns k = if k = key then some t.columns else db.columns k := by
  by_cases hk : k = key
  · subst hk
    simp [columns, set]
  · simp [columns, set, hk]

theorem rows_eq {t : Table V} (h : db.table key = some t) : db.rows key = t.rows := by
  simp [rows, h]

theorem columns_eq {t : Table V} (h : db.table key = some t) : db.columns key = some t.columns := by
  simp [columns, h]

/-- An `INSERT` adds its row at the end of one table. -/
theorem insert_spec {values : List Text} (h : db.insert store key values = some db') :
    ∃ cols, db.columns key = some cols ∧ values.length = cols.length ∧
      db'.columns = db.columns ∧
      ∀ k, db'.rows k = db.rows k ++ if k = key then [storeRow store cols values] else [] := by
  simp only [insert, Option.bind_eq_some_iff, Option.map_eq_some_iff] at h
  obtain ⟨t, ht, t', ht', rfl⟩ := h
  unfold Table.insert at ht'
  split at ht'
  · rename_i hlen
    obtain rfl := Option.some.inj ht'
    refine ⟨t.columns, columns_eq ht, hlen, ?_, ?_⟩
    · funext k
      by_cases hk : k = key
      · simp [hk, columns_eq ht]
      · simp [hk]
    · intro k
      by_cases hk : k = key
      · simp [hk, rows_eq ht]
      · simp [hk]
  · simp at ht'

theorem delete_spec [DecidableEq V] {column value : Text}
    (h : db.delete store key column value = some db') :
    ∃ cols i c, db.columns key = some cols ∧ cols.findIdx? (·.name = column) = some i ∧
      cols[i]? = some c ∧ db'.columns = db.columns ∧
      (∀ k, k ≠ key → db'.table k = db.table k) ∧
      db'.rows key = (db.rows key).filter fun row => row[i]? ≠ some (store c.affinity value) := by
  simp only [delete, Option.bind_eq_some_iff, Option.map_eq_some_iff] at h
  obtain ⟨t, ht, i, hi, c, hc, rfl⟩ := h
  refine ⟨t.columns, i, c, columns_eq ht, hi, hc, ?_, fun k hk => ?_, ?_⟩
  · funext k
    by_cases hk : k = key
    · rw [set_columns, if_pos hk, hk, columns_eq ht]
      rfl
    · simp [hk]
  · simp [set, hk]
  · rw [set_rows, if_pos rfl, rows_eq ht]
    rfl

theorem insert_isSome (values : List Text) :
    (db.insert store key values).isSome =
      (db.columns key).any fun cols => values.length = cols.length := by
  unfold insert columns
  cases db.table key with
  | none => rfl
  | some t =>
    by_cases hlen : values.length = t.columns.length
    · simp [Table.insert, hlen]
    · simp [Table.insert, hlen]

end Database

/-- Whether the tables take an `INSERT`; it depends on the statement and the columns only. -/
def accepts (columns : Text → Option (List Column)) (toks : List Token) : Bool :=
  match parseInsert toks with
  | none => false
  | some (key, values) => (columns key).any fun cols => values.length = cols.length

/-- The row that an `INSERT` adds to a table, if it does. -/
def rowsFor (store : Affinity → Text → V) (columns : Text → Option (List Column)) (key : Text)
    (toks : List Token) : List (List V) :=
  match parseInsert toks with
  | none => []
  | some (k, values) =>
    if key = k then ((columns k).map fun cols => storeRow store cols values).toList else []

variable [DecidableEq V] {store : Affinity → Text → V}

theorem sem_insert {toks : List Token} (h : IsInsert toks) (db : Database V) :
    sem store toks db = (parseInsert toks).bind fun p => db.insert store p.1 p.2 := by
  rw [sem, if_pos h.keyword_eq]

theorem sem_delete {toks : List Token} (h : IsDelete toks) (db : Database V) :
    sem store toks db =
      (parseDelete toks).bind fun p => db.delete store p.1 p.2.1 p.2.2 := by
  rw [sem, if_neg (by rw [h.keyword_eq]; decide), if_pos h.keyword_eq]

theorem sem_insert_isSome {toks : List Token} (h : IsInsert toks) (db : Database V) :
    (sem store toks db).isSome = accepts db.columns toks := by
  rw [sem_insert h, accepts]
  cases parseInsert toks with
  | none => rfl
  | some p => exact Database.insert_isSome p.2

theorem sem_insert_spec {toks : List Token} (h : IsInsert toks) {db db' : Database V}
    (hs : sem store toks db = some db') :
    db'.columns = db.columns ∧
      ∀ k, db'.rows k = db.rows k ++ rowsFor store db.columns k toks := by
  rw [sem_insert h, Option.bind_eq_some_iff] at hs
  obtain ⟨⟨key, values⟩, hp, hs⟩ := hs
  obtain ⟨cols, hcols, -, hc, hr⟩ := Database.insert_spec hs
  refine ⟨hc, fun k => ?_⟩
  simp [rowsFor, hp, hr, hcols]

/-- A sequence of insertions succeeds exactly if each is accepted, and then every table has
its new rows at the end in order. -/
theorem foldlM_insert {stmts : List (List Token)} (h : ∀ toks ∈ stmts, IsInsert toks)
    (db : Database V) :
    (stmts.foldlM (fun db toks => sem store toks db) db).isSome =
        stmts.all (accepts db.columns) ∧
      ∀ db', stmts.foldlM (fun db toks => sem store toks db) db = some db' →
        db'.columns = db.columns ∧
          ∀ k, db'.rows k = db.rows k ++ stmts.flatMap (rowsFor store db.columns k) := by
  induction stmts generalizing db with
  | nil =>
    refine ⟨rfl, fun db' hdb => ?_⟩
    obtain rfl := Option.some.inj hdb
    simp
  | cons toks stmts ih =>
    obtain ⟨htoks, hstmts⟩ := List.forall_mem_cons.mp h
    have hsome : (sem store toks db).isSome = accepts db.columns toks :=
      sem_insert_isSome htoks db
    rw [List.foldlM_cons, List.all_cons]
    cases hs : sem store toks db with
    | none =>
      rw [hs, Option.isSome_none] at hsome
      rw [← hsome]
      exact ⟨rfl, by simp⟩
    | some db₁ =>
      rw [hs, Option.isSome_some] at hsome
      obtain ⟨hc, hr⟩ := sem_insert_spec htoks hs
      obtain ⟨ih1, ih2⟩ := ih hstmts db₁
      rw [← hsome, Bool.true_and, ← hc]
      refine ⟨ih1, fun db' hdb => ?_⟩
      obtain ⟨hc', hr'⟩ := ih2 db' hdb
      refine ⟨hc', fun k => ?_⟩
      rw [hr', hr, hc, List.flatMap_cons, List.append_assoc]

inductive Value where
  | int (n : ℕ)
  | text (t : Text)
  deriving DecidableEq, Repr

/-- What `INTEGER` and `TEXT` columns store of digits and of other texts; values of other
columns are left as they are. -/
def plainStore : Affinity → Text → Value
  | .integer, s =>
    if s ≠ [] ∧ s.all Char.isDigit then .int (Python.digitsValue s) else .text s
  | _, s => .text s

end TpchBench.Sql
