import TpchBench.Loader.Format
import TpchBench.Loader.Tables
import Mathlib.Algebra.Order.BigOperators.Group.List

/-! # What loading loses

The first line of every file is read to count its columns and never inserted, so the
tables hold exactly the records of the files only if all files are empty.
-/

namespace TpchBench.Loader

open Sql Store

/-- A directory whose table files, as far as they can be opened, are in dbgen format for the
tables that they name. -/
structure IsDbgen (dir : Directory) (names : List Text) (records : Text → List (List Text)) :
    Prop where
  entries : dir.entries = some names
  file : ∀ name ∈ names, strstr name tblMark →
    ∀ file ∈ dir.fopen (filepath name), file = tblFile (records name)
  format : ∀ name ∈ names, strstr name tblMark →
    ∃ cols, createdColumns (upper (tableName name)) = some cols ∧ IsTbl cols.length (records name)

variable {V : Type*}

def recordRows (store : Affinity → Text → V) (key name : Text) (records : List (List Text)) :
    List (List V) :=
  if strstr name tblMark ∧ key = upper (tableName name) then
    records.map (storeRow store ((createdColumns key).getD []))
  else []

/-- The rows a table should have: one for each line of its files, in order. -/
def expectedRows (store : Affinity → Text → V) (names : List Text)
    (records : Text → List (List Text)) (key : Text) : List (List V) :=
  names.flatMap fun name => recordRows store key name (records name)

variable {store : Affinity → Text → V} {dir : Directory} {names : List Text}
  {records : Text → List (List Text)}

theorem IsDbgen.lex_tableName (h : IsDbgen dir names records) {name : Text} (hname : name ∈ names)
    (ht : strstr name tblMark) :
    (∀ c ∈ tableName name, isNameChar c) ∧ lex (tableName name) = [.word (tableName name)] := by
  obtain ⟨cols, hcols, -⟩ := h.format name hname ht
  obtain ⟨hne, halpha⟩ := createdColumns_name hcols
  have halpha := isAlpha_of_upper halpha
  have hne : tableName name ≠ [] := by
    rintro heq
    rw [heq] at hne
    exact hne rfl
  exact ⟨fun c hc => by simp [isNameChar, Char.isAlphanum, halpha c hc], lex_alpha hne halpha⟩

theorem IsDbgen.plainEntry (h : IsDbgen dir names records) :
    ∀ name ∈ names, dir.PlainEntry name := by
  intro name hname ht
  obtain ⟨cols, -, htbl⟩ := h.format name hname ht
  refine ⟨(h.lex_tableName hname ht).1, fun file hfile => ?_⟩
  rw [h.file name hname ht file hfile]
  exact htbl.noQuote

theorem createdColumns_pos {key : Text} {cols : List Column} (h : createdColumns key = some cols) :
    0 < cols.length := by
  have hall : ∀ t ∈ tableCreations, 0 < t.columns.length := by decide
  obtain ⟨t, ht, rfl⟩ := Option.map_eq_some_iff.mp h
  exact hall t (List.mem_of_find?_eq_some ht)

/-- The rows that a file adds: those of its records but the first. -/
theorem IsDbgen.rowsFor_entry (h : IsDbgen dir names records) {name : Text} (hname : name ∈ names)
    (hopen : (fileQueries dir name).isSome) (key : Text) :
    (entryStatements dir name).flatMap (rowsFor store createdColumns key) =
      recordRows store key name (records name).tail := by
  cases ht : strstr name tblMark with
  | false => simp [entryStatements, fileQueries, recordRows, ht]
  | true =>
    obtain ⟨cols, hcols, htbl⟩ := h.format name hname ht
    obtain ⟨hplain, hlex⟩ := h.lex_tableName hname ht
    obtain ⟨file, hfile⟩ : ∃ file, dir.fopen (filepath name) = some file := by
      simpa [fileQueries, ht, Option.isSome_iff_exists] using hopen
    have hqs : fileQueries dir name = some ((records name).tail.map fun r =>
        insertBody (tableName name) r ++ [')', ';']) := by
      rw [fileQueries, if_pos ht, hfile, Option.map_some, h.file name hname ht file hfile,
        htbl.insertQueries_eq (tableName_length name)]
    have hrow : ∀ r ∈ (records name).tail,
        (statements (insertBody (tableName name) r ++ [')', ';'])).flatMap
            (rowsFor store createdColumns key) =
          if key = upper (tableName name) then [storeRow store cols r] else [] := by
      intro r hr
      have hr := List.mem_of_mem_tail hr
      have hne : r ≠ [] := by
        rintro rfl
        have hlen := htbl.length [] hr
        have hpos := createdColumns_pos hcols
        simp only [List.length_nil] at hlen
        omega
      rw [statements_insert hplain fun f hf => (htbl.fields r hr f hf).noQuote,
        List.flatMap_singleton, rowsFor, parseInsert_insertTokens hlex hne]
      simp [hcols]
    rw [entryStatements, hqs, Option.getD_some, List.flatMap_assoc, List.flatMap_map]
    rw [List.flatMap_congr hrow, recordRows]
    by_cases hk : key = upper (tableName name)
    · subst hk
      simp [ht, hcols, ← List.map_eq_flatMap]
    · simp [hk]

theorem IsDbgen.loadTables_rows [DecidableEq V] (h : IsDbgen dir names records)
    {s : Session (Database V)} (hs : s.conn = Conn.connect Database.empty)
    (hc : (createTables s).1 = true)
    (hl : (loadTables (sem store) dir (createTables s).2).1 = true) (key : Text) :
    (loadTables (sem store) dir (createTables s).2).2.conn.close.rows key =
      names.flatMap fun name => recordRows store key name (records name).tail := by
  obtain ⟨-, hcols, hrows⟩ := createTables_empty hs hc
  obtain ⟨hread, -, hload⟩ := Loader.loadTables_rows h.entries h.plainEntry hl
  rw [Conn.close, hload key, hrows key, List.nil_append, hcols, loadStatements,
    List.flatMap_assoc]
  apply List.flatMap_congr
  intro name hname
  exact h.rowsFor_entry hname (List.all_eq_true.mp hread name hname) key

theorem length_eq_of_flatMap_eq {α β : Type*} {xs : List α} {f g : α → List β}
    (hle : ∀ x ∈ xs, (f x).length ≤ (g x).length) (h : xs.flatMap f = xs.flatMap g) :
    ∀ x ∈ xs, (f x).length = (g x).length := by
  have hlen : (xs.map fun x => (f x).length).sum = (xs.map fun x => (g x).length).sum := by
    simpa [List.length_flatMap] using congrArg List.length h
  clear h
  induction xs with
  | nil => simp
  | cons x xs ih =>
    obtain ⟨hx, hxs⟩ := List.forall_mem_cons.mp hle
    have hsum : (xs.map fun x => (f x).length).sum ≤ (xs.map fun x => (g x).length).sum :=
      List.sum_le_sum hxs
    simp only [List.map_cons, List.sum_cons] at hlen
    refine List.forall_mem_cons.mpr ⟨by omega, ih hxs (by omega)⟩

/-- After a load that returned 1 the tables hold exactly the records of their files if and
only if all table files are empty. -/
theorem loadTables_exact_iff [DecidableEq V] (h : IsDbgen dir names records)
    {s : Session (Database V)} (hs : s.conn = Conn.connect Database.empty)
    (hc : (createTables s).1 = true)
    (hl : (loadTables (sem store) dir (createTables s).2).1 = true) :
    (∀ key, (loadTables (sem store) dir (createTables s).2).2.conn.close.rows key =
        expectedRows store names records key) ↔
      ∀ name ∈ names, strstr name tblMark → records name = [] := by
  have hrows := h.loadTables_rows hs hc hl
  constructor
  · intro hall name hname ht
    have heq := (hrows (upper (tableName name))).symm.trans (hall (upper (tableName name)))
    have hle : ∀ n ∈ names,
        (recordRows store (upper (tableName name)) n (records n).tail).length ≤
          (recordRows store (upper (tableName name)) n (records n)).length := by
      intro n _
      unfold recordRows
      split
      · simp
      · exact le_rfl
    have hlen := length_eq_of_flatMap_eq hle heq name hname
    simp only [recordRows, ht, true_and, if_true, List.length_map, List.length_tail] at hlen
    cases hr : records name with
    | nil => rfl
    | cons r rs =>
      rw [hr, List.length_cons] at hlen
      omega
  · intro hempty key
    rw [hrows key, expectedRows]
    apply List.flatMap_congr
    intro name hname
    cases ht : strstr name tblMark with
    | false => simp [recordRows, ht]
    | true => rw [hempty name hname ht, List.tail_nil]

def regionName : Text := "region.tbl".toList

def regionRecords (_ : Text) : List (List Text) :=
  [["0".toList, "AFRICA".toList, "lar deposits".toList]]

def regionDirectory : Directory where
  entries := some [['.'], regionName]
  fopen path :=
    if path = filepath regionName then some (tblFile (regionRecords regionName)) else none

theorem isTbl_regionRecords (name : Text) : IsTbl 3 (regionRecords name) where
  fields r hr f hf := by
    have h : ∀ r ∈ regionRecords [], ∀ f ∈ r,
        f ≠ [] ∧ '|' ∉ f ∧ '\n' ∉ f ∧ '\x00' ∉ f ∧ '\'' ∉ f := by decide
    exact isField_of_and (h r hr f hf)
  length := by
    have h : ∀ r ∈ regionRecords [], r.length = 3 := by decide
    exact h
  fits := by
    have h : ∀ r ∈ regionRecords [], (recordLine r).length + 1 < maxLineLength := by decide
    exact h

theorem isDbgen_regionDirectory :
    IsDbgen regionDirectory [['.'], regionName] regionRecords where
  entries := rfl
  file name hname ht file hfile := by
    rcases List.mem_pair.mp hname with rfl | rfl
    · exact absurd ht (by decide)
    · simpa [regionDirectory, eq_comm] using hfile
  format name hname ht := by
    rcases List.mem_pair.mp hname with rfl | rfl
    · exact absurd ht (by decide)
    · have hcols : (createdColumns (upper (tableName regionName))).map List.length = some 3 := by
        decide +kernel
      obtain ⟨cols, hcols, hlen⟩ := Option.map_eq_some_iff.mp hcols
      exact ⟨cols, hcols, hlen ▸ isTbl_regionRecords regionName⟩

theorem loadTables_exact_iff_region :
    (createTables newSession).1 = true ∧
      (loadTables (sem plainStore) regionDirectory (createTables newSession).2).1 = true ∧
      ((∀ key, (loadTables (sem plainStore) regionDirectory
          (createTables newSession).2).2.conn.close.rows key =
            expectedRows plainStore [['.'], regionName] regionRecords key) ↔
        ∀ name ∈ [['.'], regionName], strstr name tblMark → regionRecords name = []) := by
  have hc : (createTables newSession).1 = true := by decide +kernel
  have hl : (loadTables (sem plainStore) regionDirectory (createTables newSession).2).1 = true := by
    decide +kernel
  exact ⟨hc, hl, loadTables_exact_iff isDbgen_regionDirectory rfl hc hl⟩

/-- The only region is lost. -/
theorem not_loadTables_exact_region :
    IsDbgen regionDirectory [['.'], regionName] regionRecords ∧
      (createTables newSession).1 = true ∧
      (loadTables (sem plainStore) regionDirectory (createTables newSession).2).1 = true ∧
      ¬ ∀ key, (loadTables (sem plainStore) regionDirectory
          (createTables newSession).2).2.conn.close.rows key =
            expectedRows plainStore [['.'], regionName] regionRecords key := by
  refine ⟨isDbgen_regionDirectory, by decide +kernel, by decide +kernel, fun h => ?_⟩
  exact absurd (h "REGION".toList) (by decide +kernel)

end TpchBench.Loader
