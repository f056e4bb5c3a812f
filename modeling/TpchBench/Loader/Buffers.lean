import TpchBench.Loader.Tables

/-! # The statement buffers

`loadTables` concatenates into a buffer of `MAX_QUERY_LENGTH` bytes without any check, and
`refreshRF1` appends to buffers of `MAX_LINE_LENGTH` bytes what still fits. Both are followed
append by append: the first buffer is large enough for every line that `fgets` delivers, and
what the second ones hold is always the beginning of the whole statement.
-/

namespace TpchBench.Loader

open Sql

/-- The contents of `query` after every single `strcat` of the loop over the tokens. -/
def strcatStates (numColumns : ℕ) : ℕ → List Text → Text → List Text
  | _, [], _ => []
  | count, token :: rest, query =>
    if count ≥ numColumns - 1 then []
    else
      let opened := query ++ if count > 0 then [',', ' '] else []
      (if count > 0 then [opened] else []) ++
        [opened ++ ['\''], opened ++ '\'' :: token, opened ++ '\'' :: (token ++ ['\''])] ++
        strcatStates numColumns (count + 1) rest (opened ++ '\'' :: (token ++ ['\'']))

def insertQueryStates (table : Text) (numColumns : ℕ) (line : Text) : List Text :=
  let head := snprintf maxQueryLength (insertHead table)
  head :: (strcatStates numColumns 0 (lineTokens line) head ++ [insertQuery table numColumns line])

theorem prefix_strcatTokens (numColumns count : ℕ) (toks : List Text) (query : Text) :
    query <+: strcatTokens numColumns count toks query := by
  rw [strcatTokens_eq, List.append_assoc]
  exact List.prefix_append _ _

/-- Every state of the loop is a beginning of what the loop leaves. -/
theorem prefix_of_mem_strcatStates {numColumns count : ℕ} {toks : List Text} {query buf : Text}
    (h : buf ∈ strcatStates numColumns count toks query) :
    buf <+: strcatTokens numColumns count toks query := by
  induction toks generalizing count query with
  | nil => simp [strcatStates] at h
  | cons t toks ih =>
    unfold strcatStates at h
    unfold strcatTokens
    split at h
    · simp at h
    · rename_i hcount
      rw [if_neg hcount]
      dsimp only at h
      generalize query ++ (if count > 0 then [',', ' '] else []) = opened at h ⊢
      have hquoted := prefix_strcatTokens numColumns (count + 1) toks
        (opened ++ '\'' :: (t ++ ['\'']))
      rcases List.mem_append.mp h with h | h
      · have hpre : buf <+: opened ++ '\'' :: (t ++ ['\'']) := by
          rcases List.mem_append.mp h with h | h
          · obtain rfl : buf = opened := by
              split at h
              · exact List.mem_singleton.mp h
              · simp at h
            exact List.prefix_append _ _
          · simp only [List.mem_cons, List.not_mem_nil, or_false] at h
            rcases h with rfl | rfl | rfl
            · exact (List.prefix_append_right_inj opened).mpr ⟨t ++ ['\''], rfl⟩
            · exact (List.prefix_append_right_inj opened).mpr ⟨['\''], rfl⟩
            · exact List.prefix_refl _
        exact hpre.trans hquoted
      · exact ih h

theorem prefix_of_mem_insertQueryStates {table line buf : Text} {numColumns : ℕ}
    (h : buf ∈ insertQueryStates table numColumns line) :
    buf <+: insertQuery table numColumns line := by
  rcases List.mem_cons.mp h with rfl | h
  · exact (prefix_strcatTokens _ _ _ _).trans (List.prefix_append _ _)
  · rcases List.mem_append.mp h with h | h
    · exact (prefix_of_mem_strcatStates h).trans (List.prefix_append _ _)
    · rw [List.mem_singleton.mp h]

theorem literals_length_le (fields : List Text) :
    (literals fields).length ≤ 4 * (fields.map fun f => f.length + 1).sum := by
  induction fields with
  | nil => simp [literals]
  | cons f fs ih =>
    cases fs with
    | nil =>
      have hone : literals [f] = '\'' :: (f ++ ['\'']) := by simp [literals, List.intercalate]
      rw [hone, List.map_singleton, List.sum_singleton, List.length_cons, List.length_append,
        List.length_singleton]
      omega
    | cons g fs =>
      rw [literals_cons_cons, List.map_cons, List.sum_cons]
      simp only [List.length_append, List.length_cons, List.length_nil] at ih ⊢
      omega

theorem literals_lineTokens_length {line : Text} (h : line.length < maxLineLength) (n : ℕ) :
    (literals ((lineTokens line).take n)).length ≤ 4 * maxLineLength := by
  have hlit := literals_length_le ((lineTokens line).take n)
  have hsum := tokens_sum_length '|' (cstr line)
  have hcstr := List.Sublist.length_le
    (List.takeWhile_sublist (fun c => decide (c ≠ '\x00')) (l := line))
  have htake := congrArg List.sum
    (List.take_append_drop n ((lineTokens line).map fun f => f.length + 1))
  rw [List.sum_append, ← List.map_take] at htake
  change ((lineTokens line).map fun f => f.length + 1).sum ≤ (cstr line).length + 1 at hsum
  change (cstr line).length ≤ line.length at hcstr
  omega

/-- After every append for a line that `fgets` can deliver, the statement and its terminator
fit into the buffer, whatever the name of the entry and the first line of the file. -/
theorem insertQueryStates_fit (name first : Text) {line : Text}
    (h : line.length < maxLineLength) :
    ∀ buf ∈ insertQueryStates (tableName name) (numColumns first) line,
      buf.length + 1 ≤ maxQueryLength := by
  intro buf hbuf
  have hle := (prefix_of_mem_insertQueryStates hbuf).length_le
  have hname := tableName_length name
  have hlit := literals_lineTokens_length h (numColumns first - 1)
  have h1 : insertIntoText.length = 12 := rfl
  have h2 : valuesText.length = 9 := rfl
  rw [insertQuery_eq hname, insertBody, insertHead] at hle
  simp only [List.length_append, List.length_cons, List.length_nil, h1, h2] at hle
  simp only [maxLineLength, maxQueryLength] at hlit ⊢
  omega

theorem insertQueryStates_fit_region :
    "1|AMERICA|c|\n".toList.length < maxLineLength ∧
      ∀ buf ∈ insertQueryStates (tableName "region.tbl".toList) (numColumns "0|AFRICA|c|\n".toList)
        "1|AMERICA|c|\n".toList, buf.length + 1 ≤ maxQueryLength :=
  ⟨by decide, insertQueryStates_fit _ _ (by decide)⟩

/-- The sizes `sizeof - strlen` that the loop over the tokens passes to `snprintf`. They are
right as natural numbers, since the buffer never holds more than its size. -/
def snprintfSizes (limit : ℕ) : ℕ → List Text → Text → List ℕ
  | _, [], _ => []
  | i, token :: rest, query =>
    let opened := if i > 0 then snprintfAt maxLineLength query [',', ' '] else query
    let quoted := snprintfAt maxLineLength opened ('\'' :: (token ++ ['\'']))
    (if i > 0 then [maxLineLength - query.length] else []) ++ [maxLineLength - opened.length] ++
      if i + 1 > limit then [] else snprintfSizes limit (i + 1) rest quoted

def insertRowSizes (table : Text) (limit : ℕ) (line : Text) : List ℕ :=
  let head := snprintf maxLineLength (insertHead table)
  snprintfSizes limit 0 (lineTokens line) head ++
    [maxLineLength - (snprintfTokens limit 0 (lineTokens line) head).length]

theorem snprintfAt_length_lt {size : ℕ} {buf : Text} (h : buf.length < size) (s : Text) :
    (snprintfAt size buf s).length < size := by
  rw [snprintfAt_eq_take h, List.length_take]
  omega

theorem separator_length_lt {query : Text} (h : query.length < maxLineLength) (i : ℕ) :
    (if i > 0 then snprintfAt maxLineLength query [',', ' '] else query).length <
      maxLineLength := by
  split
  · exact snprintfAt_length_lt h _
  · exact h

theorem snprintfTokens_length_lt {query : Text} (h : query.length < maxLineLength) (limit i : ℕ)
    (toks : List Text) : (snprintfTokens limit i toks query).length < maxLineLength := by
  induction toks generalizing i query with
  | nil => exact h
  | cons t toks ih =>
    have hopened := separator_length_lt h i
    unfold snprintfTokens
    dsimp only
    split
    · exact snprintfAt_length_lt hopened _
    · exact ih (snprintfAt_length_lt hopened _) (i + 1)

theorem snprintfSizes_pos {query : Text} (h : query.length < maxLineLength) (limit i : ℕ)
    (toks : List Text) : ∀ n ∈ snprintfSizes limit i toks query, 1 ≤ n := by
  induction toks generalizing i query with
  | nil => simp [snprintfSizes]
  | cons t toks ih =>
    have hopened := separator_length_lt h i
    intro n hn
    unfold snprintfSizes at hn
    dsimp only at hn
    rcases List.mem_append.mp hn with hn | hn
    · rcases List.mem_append.mp hn with hn | hn
      · split at hn
        · rw [List.mem_singleton.mp hn]
          omega
        · simp at hn
      · rw [List.mem_singleton.mp hn]
        omega
    · split at hn
      · simp at hn
      · exact ih (snprintfAt_length_lt hopened _) (i + 1) n hn

theorem insertRowSizes_pos (table : Text) (limit : ℕ) (line : Text) :
    ∀ n ∈ insertRowSizes table limit line, 1 ≤ n := by
  have hhead : (snprintf maxLineLength (insertHead table)).length < maxLineLength := by
    rw [snprintf, List.length_take]
    have hpos : 0 < maxLineLength := by decide
    omega
  intro n hn
  rcases List.mem_append.mp hn with hn | hn
  · exact snprintfSizes_pos hhead limit 0 _ n hn
  · have hlast := snprintfTokens_length_lt hhead limit 0 (lineTokens line)
    rw [List.mem_singleton.mp hn]
    omega

/-- A complete `INSERT` has the literals that were written into it, at least one. -/
theorem eq_of_parseInsert_insertTokens {table : Text} (ht : lex table = [.word table])
    {fields : List Text} {p : Text × List Text}
    (h : parseInsert (insertTokens table fields ++ [.sym ')']) = some p) :
    fields ≠ [] ∧ p = (upper table, fields) := by
  rcases eq_or_ne fields [] with rfl | hne
  · have hnone : parseValues (literalTokens [] ++ [.sym ')']) = none := rfl
    rw [parseInsert_complete ht, hnone] at h
    simp at h
  · rw [parseInsert_insertTokens ht hne] at h
    exact ⟨hne, (Option.some.inj h).symm⟩

/-- What a row statement for a line holds: the beginning of the whole statement that fits,
built with sizes of at least 1, and if it is a complete `INSERT`, the values of the line. -/
structure Truncated (table : Text) (limit : ℕ) (line query : Text) : Prop where
  text : query =
    (insertBody table ((lineTokens line).take (limit + 1)) ++ [')', ';']).take (maxLineLength - 1)
  sizes : ∀ n ∈ insertRowSizes table limit line, 1 ≤ n
  values : ∀ toks ∈ statements query, ∀ p, parseInsert toks = some p →
    p = (table, (lineTokens line).take (limit + 1))

theorem truncated_insertRowQuery {table line : Text} (ht : lex table = [.word table])
    (hu : upper table = table) (hname : ∀ c ∈ table, isNameChar c) (hline : '\'' ∉ line)
    (limit : ℕ) : Truncated table limit line (insertRowQuery table limit line) where
  text := insertRowQuery_eq table limit line
  sizes := insertRowSizes_pos table limit line
  values toks htoks p hp := by
    obtain ⟨toks', hst, -, hcut⟩ := statements_insertRowQuery hname hline limit
    rw [hst, List.mem_singleton] at htoks
    subst htoks
    rcases hcut with rfl | hcut
    · rw [(eq_of_parseInsert_insertTokens ht hp).2, hu]
    · exact absurd (parseInsert_closed hp) hcut

/-- A row statement that is executed was not cut off: it inserts the first tokens of its
line. -/
theorem insert_of_apply {V : Type*} [DecidableEq V] {store : Affinity → Text → V}
    {db db' : Database V} {table line : Text} (ht : lex table = [.word table])
    (hu : upper table = table) (hname : ∀ c ∈ table, isNameChar c) (hline : '\'' ∉ line)
    {limit : ℕ} (h : apply (sem store) db (insertRowQuery table limit line) = some db') :
    lineTokens line ≠ [] ∧
      db.insert store table ((lineTokens line).take (limit + 1)) = some db' := by
  obtain ⟨toks, hst, hi, hcut⟩ := statements_insertRowQuery hname hline limit
  rw [apply_single _ hst, sem_insert hi] at h
  obtain ⟨p, hp, h⟩ := Option.bind_eq_some_iff.mp h
  rcases hcut with rfl | hcut
  · obtain ⟨hne, rfl⟩ := eq_of_parseInsert_insertTokens ht hp
    rw [hu] at h
    refine ⟨fun hnil => hne ?_, h⟩
    rw [hnil, List.take_nil]
  · exact absurd (parseInsert_closed hp) hcut

/-- Truncation in `refreshRF1` never makes a statement with other values. -/
theorem refreshRF1_truncated {line : Text} (hline : '\'' ∉ line) :
    Truncated ordersName 8 line (ordersQuery line) ∧
      Truncated lineitemName 15 line (lineitemQuery line) :=
  ⟨truncated_insertRowQuery (by decide) (by decide) isNameChar_ordersName hline 8,
    truncated_insertRowQuery (by decide) (by decide) isNameChar_lineitemName hline 15⟩

def fullLine : Text := List.replicate (maxLineLength - 3) 'x' ++ ['|', '\n']

theorem refreshRF1_truncated_fullLine :
    '\'' ∉ fullLine ∧ Truncated ordersName 8 fullLine (ordersQuery fullLine) ∧
      Truncated lineitemName 15 fullLine (lineitemQuery fullLine) := by
  have h : '\'' ∉ fullLine := by simp [fullLine, List.mem_replicate]
  exact ⟨h, refreshRF1_truncated h⟩

end TpchBench.Loader
