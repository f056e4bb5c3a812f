import TpchBench.Loader.Tables

/-! # Malformed records

`loadTables` counts and inserts tokens, not fields: empty fields disappear, fields beyond the
number of columns are cut off, and lines that do not fit into the buffer are read in pieces.
Whether the number of values is right says little about the values, so a row is made of the
fields of a line only if the line read starts with the fields of a record.
-/

namespace TpchBench.Loader

open Sql Store Python

def terminatedFields (line : Text) : List Text := (line.splitOn '|').dropLast

/-- A line of exactly `k` terminated fields, none of them empty. -/
def IsRecord (k : ℕ) (line : Text) : Prop :=
  (terminatedFields line).length = k ∧ [] ∉ terminatedFields line

/-- Every piece that is read after the first starts with the tokens of a record. -/
def Aligned (k : ℕ) (file : Text) : Prop :=
  ∀ piece ∈ (fgetsAll maxLineLength file).tail, ∃ line ∈ splitLines file,
    IsRecord k line ∧ (lineTokens piece).take k = (lineTokens line).take k

theorem IsRecord.take_lineTokens {k : ℕ} {line : Text} (h : IsRecord k line)
    (hnul : '\x00' ∉ line) : (lineTokens line).take k = terminatedFields line := by
  have hcstr : cstr line = line := by
    rw [cstr, List.takeWhile_eq_self_iff]
    exact fun c hc => decide_eq_true (ne_of_mem_of_not_mem hc hnul)
  have hsplit := List.dropLast_append_getLast (List.splitOn_ne_nil '|' line)
  have hfields : (terminatedFields line).filter (· ≠ []) = terminatedFields line := by
    rw [List.filter_eq_self]
    exact fun f hf => decide_eq_true (ne_of_mem_of_not_mem hf h.2)
  rw [lineTokens, hcstr, tokens_eq_splitOn, ← hsplit, List.filter_append]
  change ((terminatedFields line).filter _ ++ _).take k = _
  rw [hfields, ← h.1, List.take_left]

/-- The values of a row are fields of lines exactly if a record starts with them. -/
theorem exists_terminatedFields_iff {file : Text} (hnul : '\x00' ∉ file) {k : ℕ} {piece : Text}
    (hlen : ((lineTokens piece).take k).length = k) :
    (∃ line ∈ splitLines file, (lineTokens piece).take k = terminatedFields line) ↔
      ∃ line ∈ splitLines file, IsRecord k line ∧
        (lineTokens piece).take k = (lineTokens line).take k := by
  have hline : ∀ line ∈ splitLines file, '\x00' ∉ line := fun line hline hmem =>
    hnul ((infix_of_mem_splitLines hline).subset hmem)
  constructor
  · rintro ⟨line, hmem, heq⟩
    have hrecord : IsRecord k line := by
      refine ⟨heq ▸ hlen, fun hnil => ?_⟩
      rw [← heq] at hnil
      exact (of_mem_tokens (List.mem_of_mem_take hnil)).1 rfl
    exact ⟨line, hmem, hrecord, heq.trans (hrecord.take_lineTokens (hline line hmem)).symm⟩
  · rintro ⟨line, hmem, hrecord, heq⟩
    exact ⟨line, hmem, heq.trans (hrecord.take_lineTokens (hline line hmem))⟩

theorem aligned_of_records {k : ℕ} {file : Text}
    (hfits : ∀ line ∈ splitLines file, line.length < maxLineLength)
    (h : ∀ line ∈ (splitLines file).tail, IsRecord k line) : Aligned k file := by
  intro piece hpiece
  rw [fgetsAll_eq_splitLines hfits] at hpiece
  exact ⟨piece, List.mem_of_mem_tail hpiece, h piece hpiece, rfl⟩

/-- The table that `INSERT INTO table VALUES (…)` addresses. -/
def insertTarget (table : Text) : Option Text :=
  (parseInsert (insertTokens table [[]] ++ [.sym ')'])).map Prod.fst

def parseAfterTable (key : Text) : List Token → Option (Text × List Text)
  | .word v :: .sym '(' :: rest =>
    if upper v = "VALUES".toList then (parseValues rest).map fun values => (key, values) else none
  | _ => none

theorem parseInsert_eq (toks : List Token) :
    parseInsert (.word "INSERT".toList :: .word "INTO".toList :: toks) =
      (tableRef toks).bind fun p => parseAfterTable p.1 p.2 := by
  have hi : upper "INSERT".toList = "INSERT".toList ∧ upper "INTO".toList = "INTO".toList := by
    decide
  rw [parseInsert, if_pos hi]
  cases href : tableRef toks with
  | none => rfl
  | some p =>
    obtain ⟨key, rest⟩ := p
    rw [Option.bind_some]
    fun_cases parseAfterTable key rest with
    | case1 v rest hv => simp only [hv, if_true]
    | case2 v rest hv => simp only [hv, if_false]
    | case3 rest hrest =>
      split
      · rename_i h
        obtain ⟨rfl, rfl⟩ := Prod.mk.inj (Option.some.inj h)
        exact (hrest _ _ rfl).elim
      · rfl

theorem parseAfterTable_values (key : Text) (rest : List Token) :
    parseAfterTable key (.word "VALUES".toList :: .sym '(' :: rest) =
      (parseValues rest).map fun values => (key, values) := by
  rw [parseAfterTable, if_pos (by decide)]

theorem parseAfterTable_junk {key : Text} {toks : List Token} (hne : toks ≠ [])
    (hparen : .sym '(' ∉ toks) (rest : List Token) :
    parseAfterTable key (toks ++ .word "VALUES".toList :: rest) = none := by
  obtain ⟨t, ts, rfl⟩ := List.exists_cons_of_ne_nil hne
  cases ts with
  | nil => cases t <;> rfl
  | cons u us =>
    unfold parseAfterTable
    split
    · rename_i h
      obtain ⟨-, h⟩ := List.cons.inj h
      obtain ⟨rfl, -⟩ := List.cons.inj h
      exact absurd (by simp) hparen
    · rfl

theorem parseInsert_name {name : List Token} (hsym : ∀ d, .sym d ∈ name → d = '.') :
    (∃ key, ∀ rest, parseInsert (.word "INSERT".toList :: .word "INTO".toList ::
        (name ++ .word "VALUES".toList :: .sym '(' :: rest)) =
          (parseValues rest).map fun values => (key, values)) ∨
      ∀ rest, parseInsert (.word "INSERT".toList :: .word "INTO".toList ::
        (name ++ .word "VALUES".toList :: .sym '(' :: rest)) = none := by
  simp only [parseInsert_eq]
  have hjunk : ∀ {toks : List Token}, toks ⊆ name → .sym '(' ∉ toks := fun hsub hmem =>
    absurd (hsym _ (hsub hmem)) (by decide)
  cases name with
  | nil => exact Or.inr fun rest => rfl
  | cons t ts =>
    cases t with
    | number _ => exact Or.inr fun rest => rfl
    | str _ => exact Or.inr fun rest => rfl
    | sym _ => exact Or.inr fun rest => rfl
    | illegal => exact Or.inr fun rest => rfl
    | word w =>
      have hsub : ts ⊆ .word w :: ts := List.subset_cons_of_subset _ (List.Subset.refl ts)
      cases ts with
      | nil => exact Or.inl ⟨upper w, fun rest => parseAfterTable_values _ rest⟩
      | cons u us =>
        -- A second word is read as the table only after a dot.
        by_cases hdot : u = .sym '.'
        · subst hdot
          cases us with
          | nil =>
            refine Or.inr fun rest => ?_
            simp only [List.cons_append, List.nil_append, tableRef]
            split <;> rfl
          | cons v vs =>
            cases v with
            | word t =>
              by_cases hmain : upper w = "MAIN".toList
              · rcases eq_or_ne vs [] with rfl | hne
                · refine Or.inl ⟨upper t, fun rest => ?_⟩
                  simp only [List.cons_append, List.nil_append, tableRef, hmain, if_true,
                    Option.bind_some]
                  exact parseAfterTable_values _ rest
                · refine Or.inr fun rest => ?_
                  have hpar : .sym '(' ∉ vs := hjunk fun x hx => hsub (by simp [hx])
                  simp only [List.cons_append, tableRef, hmain, if_true, Option.bind_some]
                  exact parseAfterTable_junk hne hpar _
              · refine Or.inr fun rest => ?_
                simp only [List.cons_append, tableRef, hmain, if_false, Option.bind_none]
            | number _ => exact Or.inr fun rest => rfl
            | str _ => exact Or.inr fun rest => rfl
            | sym _ => exact Or.inr fun rest => rfl
            | illegal => exact Or.inr fun rest => rfl
        · refine Or.inr fun rest => ?_
          have href : ∀ toks, tableRef (.word w :: u :: toks) = some (upper w, u :: toks) := by
            intro toks
            unfold tableRef
            split
            · rename_i h
              exact absurd (List.cons.inj (List.cons.inj h).2).1 hdot
            · rename_i h
              obtain ⟨h1, rfl⟩ := List.cons.inj h
              rw [Token.word.inj h1]
            · rename_i h
              exact (h _ _ rfl).elim
          rw [List.cons_append, List.cons_append, href, Option.bind_some, ← List.cons_append]
          exact parseAfterTable_junk (List.cons_ne_nil u us) (hjunk hsub) _

theorem parseInsert_target {table : Text} (hname : ∀ c ∈ table, isNameChar c)
    (fields : List Text) :
    parseInsert (insertTokens table fields ++ [.sym ')']) = (insertTarget table).bind fun key =>
      (parseValues (literalTokens fields ++ [.sym ')'])).map fun values => (key, values) := by
  have htoks : ∀ fields, insertTokens table fields ++ [.sym ')'] =
      .word "INSERT".toList :: .word "INTO".toList :: (lex table ++ .word "VALUES".toList ::
        .sym '(' :: (literalTokens fields ++ [.sym ')'])) := by
    intro fields
    simp only [insertTokens, List.append_assoc, List.cons_append, List.nil_append]
  have hone : parseValues (literalTokens [[]] ++ [.sym ')']) = some [[]] := rfl
  rw [insertTarget, htoks, htoks]
  rcases parseInsert_name fun d hd => sym_mem_lex_name hname hd with ⟨key, h⟩ | h
  · rw [h, h, hone]
    rfl
  · rw [h, h]
    rfl

/-- The values of a statement that the tables accept. -/
theorem accepts_insertTokens {columns : Text → Option (List Column)} {table : Text}
    (hname : ∀ c ∈ table, isNameChar c) {fields : List Text}
    (h : accepts columns (insertTokens table fields ++ [.sym ')'])) :
    ∃ key cols, insertTarget table = some key ∧ columns key = some cols ∧
      fields.length = cols.length ∧
      parseInsert (insertTokens table fields ++ [.sym ')']) = some (key, fields) := by
  have hparse := parseInsert_target hname fields
  cases ht : insertTarget table with
  | none =>
    rw [ht, Option.bind_none] at hparse
    simp [accepts, hparse] at h
  | some key =>
    rw [ht, Option.bind_some] at hparse
    rcases eq_or_ne fields [] with rfl | hne
    · have hnone : parseValues (literalTokens [] ++ [.sym ')']) = none := rfl
      rw [hnone, Option.map_none] at hparse
      simp [accepts, hparse] at h
    · rw [parseValues_literalTokens hne, Option.map_some] at hparse
      simp only [accepts, hparse, Option.any_eq_true, decide_eq_true_eq] at h
      obtain ⟨cols, hcols, hlen⟩ := h
      exact ⟨key, cols, rfl, hcols, hlen, hparse⟩

theorem take_eq_take_of_length {α : Type*} {l : List α} {m k : ℕ} (h : (l.take m).length = k) :
    l.take m = l.take k := by
  rw [List.length_take] at h
  rcases Nat.le_total m l.length with hm | hm
  · rw [← h, Nat.min_eq_left hm]
  · rw [← h, Nat.min_eq_right hm, List.take_of_length_le hm, List.take_length]

/-- The values that the statements for an entry insert into a table. -/
def insertedValues (dir : Directory) (key name : Text) : List (List Text) :=
  (entryStatements dir name).flatMap fun toks =>
    match parseInsert toks with
    | none => []
    | some (k, values) => if key = k then [values] else []

section Entry

variable {V : Type*} {store : Affinity → Text → V} {dir : Directory} {name file : Text}
  {columns : Text → Option (List Column)}

theorem entryStatements_eq (hplain : dir.PlainEntry name) (ht : strstr name tblMark)
    (hfile : dir.fopen (filepath name) = some file) :
    ∃ m, entryStatements dir name = (fgetsAll maxLineLength file).tail.map fun piece =>
      insertTokens (tableName name) ((lineTokens piece).take m) ++ [.sym ')'] := by
  obtain ⟨hname, hquote⟩ := hplain ht
  cases hl : fgetsAll maxLineLength file with
  | nil =>
    refine ⟨0, ?_⟩
    simp [entryStatements, fileQueries, ht, hfile, insertQueries, hl]
  | cons first pieces =>
    refine ⟨numColumns first - 1, ?_⟩
    have hqs : fileQueries dir name =
        some (pieces.map (insertQuery (tableName name) (numColumns first))) := by
      rw [fileQueries, if_pos ht, hfile, Option.map_some, insertQueries, hl]
    rw [entryStatements, hqs, Option.getD_some, List.flatMap_map, List.tail_cons,
      List.map_eq_flatMap]
    apply List.flatMap_congr
    intro piece hpiece
    apply statements_insertQuery (tableName_length name) hname
    exact fgetsAll_plain (hquote file hfile) (hl ▸ List.mem_cons_of_mem first hpiece)

/-- An entry whose statements are accepted inserts the first tokens of every piece after the
first, one for each column. -/
theorem insertedValues_eq (hplain : dir.PlainEntry name) (ht : strstr name tblMark)
    (hfile : dir.fopen (filepath name) = some file) {key : Text} {cols : List Column}
    (htarget : insertTarget (tableName name) = some key) (hcols : columns key = some cols)
    (haccepts : ∀ toks ∈ entryStatements dir name, accepts columns toks) :
    insertedValues dir key name = (fgetsAll maxLineLength file).tail.map
        (fun piece => (lineTokens piece).take cols.length) ∧
      ∀ piece ∈ (fgetsAll maxLineLength file).tail,
        ((lineTokens piece).take cols.length).length = cols.length := by
  obtain ⟨m, hm⟩ := entryStatements_eq hplain ht hfile
  have hpiece : ∀ piece ∈ (fgetsAll maxLineLength file).tail,
      ((lineTokens piece).take cols.length).length = cols.length ∧
        parseInsert (insertTokens (tableName name) ((lineTokens piece).take m) ++ [.sym ')']) =
          some (key, (lineTokens piece).take cols.length) := by
    intro piece hpiece
    have hacc := haccepts _ (hm ▸ List.mem_map_of_mem hpiece)
    obtain ⟨key', cols', htarget', hcols', hlen, hparse⟩ :=
      accepts_insertTokens (hplain ht).1 hacc
    obtain rfl := Option.some.inj (htarget.symm.trans htarget')
    obtain rfl := Option.some.inj (hcols.symm.trans hcols')
    have htake := take_eq_take_of_length hlen
    exact ⟨htake ▸ hlen, by rw [hparse, htake]⟩
  refine ⟨?_, fun piece hp => (hpiece piece hp).1⟩
  rw [insertedValues, hm, List.flatMap_map, List.map_eq_flatMap]
  apply List.flatMap_congr
  intro piece hp
  rw [(hpiece piece hp).2]
  exact if_pos rfl

theorem of_mem_insertedValues (hplain : dir.PlainEntry name) {key : Text} {values : List Text}
    (h : values ∈ insertedValues dir key name) :
    strstr name tblMark ∧ (dir.fopen (filepath name)).isSome ∧
      insertTarget (tableName name) = some key := by
  obtain ⟨toks, htoks, hvalues⟩ := List.mem_flatMap.mp h
  cases ht : strstr name tblMark with
  | false => simp [entryStatements, fileQueries, ht] at htoks
  | true =>
    cases hfile : dir.fopen (filepath name) with
    | none => simp [entryStatements, fileQueries, ht, hfile] at htoks
    | some file =>
      refine ⟨rfl, rfl, ?_⟩
      obtain ⟨m, hm⟩ := entryStatements_eq hplain ht hfile
      rw [hm] at htoks
      obtain ⟨piece, -, rfl⟩ := List.mem_map.mp htoks
      rw [parseInsert_target (hplain ht).1] at hvalues
      cases htarget : insertTarget (tableName name) with
      | none => simp [htarget] at hvalues
      | some k =>
        rw [htarget, Option.bind_some] at hvalues
        split at hvalues
        · simp at hvalues
        · rename_i heq
          obtain ⟨vs, -, hvs⟩ := Option.map_eq_some_iff.mp heq
          obtain ⟨rfl, -⟩ := Prod.mk.inj hvs
          split at hvalues
          · rename_i hkey
            rw [hkey]
          · simp at hvalues

theorem rowsFor_entry {key : Text} {cols : List Column} (hcols : columns key = some cols) :
    (entryStatements dir name).flatMap (rowsFor store columns key) =
      (insertedValues dir key name).map (storeRow store cols) := by
  rw [insertedValues, List.map_flatMap]
  apply List.flatMap_congr
  intro toks _
  unfold rowsFor
  cases parseInsert toks with
  | none => rfl
  | some p =>
    obtain ⟨k, values⟩ := p
    by_cases hk : key = k
    · subst hk
      simp [hcols]
    · simp [hk]

end Entry

variable {V : Type*} [DecidableEq V] {store : Affinity → Text → V} {dir : Directory}
  {names : List Text}

/-- A load that returns 1 has inserted, into the tables of `createTables`, only fields of lines
of the files if and only if every piece that was read after the first of a file starts with
the fields of one of its records. -/
theorem loadTables_aligned_iff (hentries : dir.entries = some names)
    (hplain : ∀ name ∈ names, dir.PlainEntry name)
    (hnul : ∀ name ∈ names, strstr name tblMark →
      ∀ file ∈ dir.fopen (filepath name), '\x00' ∉ file)
    {s : Session (Database V)}
    (hcreated : ∀ key cols, createdColumns key = some cols →
      s.conn.durable.columns key = some cols)
    (h : (loadTables (sem store) dir s).1 = true) :
    (∀ key cols, createdColumns key = some cols →
      (loadTables (sem store) dir s).2.conn.close.rows key = s.conn.durable.rows key ++
        (names.flatMap (insertedValues dir key)).map (storeRow store cols)) ∧
    ((∀ name ∈ names, ∀ key cols, createdColumns key = some cols →
        ∀ values ∈ insertedValues dir key name, ∃ file ∈ dir.fopen (filepath name),
          ∃ line ∈ splitLines file, values = terminatedFields line) ↔
      ∀ name ∈ names, ∀ key cols, createdColumns key = some cols → strstr name tblMark →
        insertTarget (tableName name) = some key →
          ∀ file ∈ dir.fopen (filepath name), Aligned cols.length file) := by
  have haccepts : ∀ name ∈ names, ∀ toks ∈ entryStatements dir name,
      accepts s.conn.durable.columns toks := fun name hname toks htoks =>
    loadTables_accepts hentries hplain h toks (List.mem_flatMap.mpr ⟨name, hname, htoks⟩)
  constructor
  · intro key cols hcols
    rw [Conn.close, (loadTables_rows hentries hplain h).2.2 key, loadStatements,
      List.flatMap_assoc, List.map_flatMap]
    congr 1
    exact List.flatMap_congr fun name _ => rowsFor_entry (hcreated key cols hcols)
  · refine forall₂_congr fun name hname => forall₃_congr fun key cols hcols => ?_
    constructor
    · intro hfields ht htarget file hfile piece hpiece
      obtain ⟨heq, hlen⟩ := insertedValues_eq (hplain name hname) ht hfile htarget
        (hcreated key cols hcols) (haccepts name hname)
      obtain ⟨file', hfile', hline⟩ := hfields _ (heq ▸ List.mem_map_of_mem hpiece)
      obtain rfl := Option.some.inj (hfile.symm.trans hfile')
      exact (exists_terminatedFields_iff (hnul name hname ht file hfile)
        (hlen piece hpiece)).mp hline
    · intro haligned values hvalues
      obtain ⟨ht, hopen, htarget⟩ := of_mem_insertedValues (hplain name hname) hvalues
      obtain ⟨file, hfile⟩ := Option.isSome_iff_exists.mp hopen
      obtain ⟨heq, hlen⟩ := insertedValues_eq (hplain name hname) ht hfile htarget
        (hcreated key cols hcols) (haccepts name hname)
      rw [heq] at hvalues
      obtain ⟨piece, hpiece, rfl⟩ := List.mem_map.mp hvalues
      have hline := haligned ht htarget file hfile piece hpiece
      exact ⟨file, hfile, (exists_terminatedFields_iff (hnul name hname ht file hfile)
        (hlen piece hpiece)).mpr hline⟩

/-- A file whose second region has an empty name and one field too many. -/
def emptyField : Text := "0|AFRICA|x|\n1||AMERICA|y|\n".toList

def emptyFieldDirectory : Directory where
  entries := some ["region.tbl".toList]
  fopen _ := some emptyField

theorem plainEntry_emptyField : ∀ name ∈ ["region.tbl".toList],
    emptyFieldDirectory.PlainEntry name := by
  intro name hname _
  obtain rfl := List.mem_singleton.mp hname
  refine ⟨List.all_eq_true.mp (by decide), fun file hfile => ?_⟩
  obtain rfl := Option.some.inj hfile
  decide

theorem noNul_emptyField : ∀ file ∈ emptyFieldDirectory.fopen (filepath "region.tbl".toList),
    '\x00' ∉ file := by
  intro file hfile
  obtain rfl := Option.some.inj hfile
  decide

def emptyFieldLoad : Bool × Session (Database Value) :=
  loadTables (sem plainStore) emptyFieldDirectory createdSession

theorem loadTables_aligned_iff_emptyField :
    emptyFieldLoad.1 = true ∧
      ((∀ key cols, createdColumns key = some cols →
        emptyFieldLoad.2.conn.close.rows key = createdSession.conn.durable.rows key ++
          (["region.tbl".toList].flatMap (insertedValues emptyFieldDirectory key)).map
            (storeRow plainStore cols)) ∧
      ((∀ name ∈ ["region.tbl".toList], ∀ key cols, createdColumns key = some cols →
          ∀ values ∈ insertedValues emptyFieldDirectory key name,
            ∃ file ∈ emptyFieldDirectory.fopen (filepath name),
              ∃ line ∈ splitLines file, values = terminatedFields line) ↔
        ∀ name ∈ ["region.tbl".toList], ∀ key cols, createdColumns key = some cols →
          strstr name tblMark → insertTarget (tableName name) = some key →
            ∀ file ∈ emptyFieldDirectory.fopen (filepath name), Aligned cols.length file)) := by
  have h : emptyFieldLoad.1 = true := by decide +kernel
  refine ⟨h, ?_⟩
  unfold emptyFieldLoad at h ⊢
  refine loadTables_aligned_iff rfl plainEntry_emptyField (fun name hname _ => ?_) ?_ h
  · obtain rfl := List.mem_singleton.mp hname
    exact noNul_emptyField
  · intro key cols hcols
    rw [createdSession_columns, hcols]

/-- The name is stored as `AMERICA` and the comment as `y`, but no line has the fields
`1|AMERICA|y|`. -/
theorem not_loadTables_aligned_emptyField :
    emptyFieldLoad.1 = true ∧
      emptyFieldLoad.2.conn.close.rows "REGION".toList =
        [[.int 1, .text "AMERICA".toList, .text "y".toList]] ∧
      ¬ ∀ name ∈ ["region.tbl".toList], ∀ key cols, createdColumns key = some cols →
          ∀ values ∈ insertedValues emptyFieldDirectory key name,
            ∃ file ∈ emptyFieldDirectory.fopen (filepath name),
              ∃ line ∈ splitLines file, values = terminatedFields line := by
  refine ⟨by decide +kernel, by decide +kernel, fun h => ?_⟩
  have hcols : (createdColumns "REGION".toList).isSome := by decide +kernel
  obtain ⟨cols, hcols⟩ := Option.isSome_iff_exists.mp hcols
  obtain ⟨file, hfile, line, hline, heq⟩ := h "region.tbl".toList (by simp) "REGION".toList cols
    hcols ["1".toList, "AMERICA".toList, "y".toList] (by decide +kernel)
  obtain rfl := Option.some.inj hfile
  have hall : ∀ line ∈ splitLines emptyField,
      ["1".toList, "AMERICA".toList, "y".toList] ≠ terminatedFields line := by decide +kernel
  exact hall line hline heq

end TpchBench.Loader
