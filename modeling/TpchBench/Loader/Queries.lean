import TpchBench.Sql.Exec

/-! # The statements built from lines of files

`loadTables` builds an `INSERT` by unbounded concatenation in a buffer that is large
enough; the refresh functions append with `snprintf` to a buffer of the size of a line, so
that a statement may be cut off. A statement that is cut off has lost its closing
parenthesis or the closing quote of its literal.
-/

namespace TpchBench.Loader

open Sql Sql.LexState

def maxLineLength : ℕ := 1024

def maxQueryLength : ℕ := 10000

def lineTokens (line : Text) : List Text := tokens '|' (cstr line)

/-- The loop of `loadTables` that concatenates the tokens of a line. -/
def strcatTokens (numColumns : ℕ) : ℕ → List Text → Text → Text
  | _, [], query => query
  | count, token :: rest, query =>
    if count ≥ numColumns - 1 then query
    else
      strcatTokens numColumns (count + 1) rest
        (query ++ (if count > 0 then [',', ' '] else []) ++ '\'' :: (token ++ ['\'']))

def insertIntoText : Text := "INSERT INTO ".toList
def valuesText : Text := " VALUES (".toList

def insertHead (tableName : Text) : Text := insertIntoText ++ (tableName ++ valuesText)

def insertQuery (tableName : Text) (numColumns : ℕ) (line : Text) : Text :=
  strcatTokens numColumns 0 (lineTokens line)
    (snprintf maxQueryLength (insertHead tableName)) ++
    [')', ';']

/-- The loops of `refreshRF1`, which are left when the index passes the limit. -/
def snprintfTokens (limit : ℕ) : ℕ → List Text → Text → Text
  | _, [], query => query
  | i, token :: rest, query =>
    let query := if i > 0 then snprintfAt maxLineLength query [',', ' '] else query
    let query := snprintfAt maxLineLength query ('\'' :: (token ++ ['\'']))
    if i + 1 > limit then query else snprintfTokens limit (i + 1) rest query

def insertRowQuery (tableName : Text) (limit : ℕ) (line : Text) : Text :=
  snprintfAt maxLineLength
    (snprintfTokens limit 0 (lineTokens line)
      (snprintf maxLineLength (insertHead tableName)))
    [')', ';']

def ordersName : Text := "ORDERS".toList
def lineitemName : Text := "LINEITEM".toList

def ordersQuery (line : Text) : Text := insertRowQuery ordersName 8 line

def lineitemQuery (line : Text) : Text := insertRowQuery lineitemName 15 line

def deleteHead : Text := "DELETE FROM ORDERS WHERE O_ORDERKEY =".toList

/-- The first token of a line; `printf` writes a null pointer as `(null)`. -/
def deleteToken (line : Text) : Text := (lineTokens line).head?.getD "(null)".toList

def deleteQuery (line : Text) : Text :=
  snprintfAt maxLineLength (snprintf maxLineLength deleteHead)
    ('\'' :: (deleteToken line ++ ['\'']))

def insertBody (tableName : Text) (fields : List Text) : Text :=
  insertHead tableName ++ literals fields

theorem strcatTokens_eq (numColumns count : ℕ) (toks : List Text) (query : Text) :
    strcatTokens numColumns count toks query =
      query ++ (if count > 0 ∧ toks.take (numColumns - 1 - count) ≠ [] then [',', ' '] else []) ++
        literals (toks.take (numColumns - 1 - count)) := by
  induction toks generalizing count query with
  | nil => simp [strcatTokens, literals]
  | cons t toks ih =>
    unfold strcatTokens
    split
    · rename_i h
      have hz : numColumns - 1 - count = 0 := by omega
      simp [hz, literals]
    · rename_i h
      obtain ⟨k, hk⟩ : ∃ k, numColumns - 1 - count = k + 1 := ⟨numColumns - 1 - count - 1, by omega⟩
      have hk' : numColumns - 1 - (count + 1) = k := by omega
      rw [ih, hk, hk', List.take_succ_cons]
      cases htake : toks.take k with
      | nil => simp [literals]
      | cons g gs =>
        rw [literals_cons_cons]
        simp

theorem strcatTokens_zero (numColumns : ℕ) (toks : List Text) (query : Text) :
    strcatTokens numColumns 0 toks query = query ++ literals (toks.take (numColumns - 1)) := by
  simp [strcatTokens_eq]

theorem insertQuery_eq {tableName : Text} (h : tableName.length < 256) (numColumns : ℕ)
    (line : Text) :
    insertQuery tableName numColumns line =
      insertBody tableName ((lineTokens line).take (numColumns - 1)) ++ [')', ';'] := by
  have hlen : (insertHead tableName).length ≤ maxQueryLength - 1 := by
    have h1 : insertIntoText.length = 12 := rfl
    have h2 : valuesText.length = 9 := rfl
    rw [insertHead, List.length_append, List.length_append, h1, h2, maxQueryLength]
    omega
  rw [insertQuery, strcatTokens_zero, snprintf, List.take_of_length_le hlen]
  rfl

theorem take_append_take_self (n : ℕ) (a b : Text) : (a.take n ++ b).take n = (a ++ b).take n := by
  rcases Nat.le_total a.length n with h | h
  · rw [List.take_of_length_le h]
  · rw [List.take_append_of_le_length (by simp [h]), List.take_append_of_le_length h,
      List.take_take, Nat.min_self]

theorem snprintfAt_take {size : ℕ} (hs : 0 < size) (a b : Text) :
    snprintfAt size (a.take (size - 1)) b = (a ++ b).take (size - 1) := by
  rw [snprintfAt_eq_take (by rw [List.length_take]; omega), take_append_take_self]

theorem snprintfTokens_eq (limit : ℕ) {i : ℕ} (hi : i ≤ limit) (toks : List Text) (query : Text) :
    snprintfTokens limit i toks (query.take (maxLineLength - 1)) =
      (strcatTokens (limit + 2) i toks query).take (maxLineLength - 1) := by
  have hpos : 0 < maxLineLength := by decide
  induction toks generalizing i query with
  | nil => rfl
  | cons t toks ih =>
    have hcount : ¬ i ≥ limit + 2 - 1 := by omega
    have hsep : (if i > 0 then snprintfAt maxLineLength (query.take (maxLineLength - 1)) [',', ' ']
        else query.take (maxLineLength - 1)) =
        (query ++ if i > 0 then [',', ' '] else []).take (maxLineLength - 1) := by
      split
      · rw [snprintfAt_take hpos]
      · rw [List.append_nil]
    unfold snprintfTokens strcatTokens
    rw [if_neg hcount]
    simp only [hsep]
    simp only [snprintfAt_take hpos]
    split
    · rename_i h
      have hz : limit + 2 - 1 - (i + 1) = 0 := by omega
      rw [strcatTokens_eq, hz]
      simp [literals]
    · rename_i h
      exact ih (i := i + 1) (by omega) _

theorem insertRowQuery_eq (tableName : Text) (limit : ℕ) (line : Text) :
    insertRowQuery tableName limit line =
      (insertBody tableName ((lineTokens line).take (limit + 1)) ++ [')', ';']).take
        (maxLineLength - 1) := by
  rw [insertRowQuery, snprintf, snprintfTokens_eq limit (Nat.zero_le _),
    snprintfAt_take (by decide), strcatTokens_zero]
  rfl

theorem deleteQuery_eq (line : Text) :
    deleteQuery line = (deleteHead ++ '\'' :: (deleteToken line ++ ['\''])).take
      (maxLineLength - 1) := by
  rw [deleteQuery, snprintf, snprintfAt_take (by decide)]

def insertWords : Text := "INSERT INTO".toList
def valuesWord : Text := "VALUES".toList

theorem insertHead_eq (tableName : Text) :
    insertHead tableName =
      insertWords ++ ' ' :: (tableName ++ ' ' :: (valuesWord ++ [' ', '('])) := by
  have hi : insertIntoText = insertWords ++ [' '] := by decide +kernel
  have hv : valuesText = ' ' :: (valuesWord ++ [' ', '(']) := by decide +kernel
  rw [insertHead, hi, hv, List.append_assoc, List.singleton_append]

theorem lex_insertWords : lex insertWords = [.word "INSERT".toList, .word "INTO".toList] ∧
    (run gap insertWords).2.inString = false := by
  decide +kernel

theorem lex_valuesWord : lex valuesWord = [.word "VALUES".toList] ∧
    (run gap valuesWord).2.inString = false := by
  decide +kernel

def insertTokens (tableName : Text) (fields : List Text) : List Token :=
  [.word "INSERT".toList, .word "INTO".toList] ++ lex tableName ++
    [.word "VALUES".toList, .sym '('] ++ literalTokens fields

def deleteTokens (key : Text) : List Token :=
  [.word "DELETE".toList, .word "FROM".toList, .word "ORDERS".toList, .word "WHERE".toList,
    .word "O_ORDERKEY".toList, .sym '=', .str key]

theorem isNameChar_ordersName : ∀ c ∈ ordersName, isNameChar c := List.all_eq_true.mp rfl

theorem isNameChar_lineitemName : ∀ c ∈ lineitemName, isNameChar c := List.all_eq_true.mp rfl

variable {tableName : Text} {fields : List Text}

theorem lex_insertBody (hname : ∀ c ∈ tableName, isNameChar c) (hf : ∀ f ∈ fields, '\'' ∉ f) :
    lex (insertBody tableName fields) = insertTokens tableName fields ∧
      (run gap (insertBody tableName fields)).2.inString = false := by
  obtain ⟨hl, hlout⟩ := lex_literals hf
  have hnout : (run gap tableName).2.inString = false := (run_name hname rfl (by simp)).2
  have hsplit : insertBody tableName fields = insertWords ++ ' ' :: (tableName ++
      ' ' :: (valuesWord ++ ' ' :: ('(' :: literals fields))) := by
    rw [insertBody, insertHead_eq]
    simp only [List.append_assoc, List.cons_append, List.nil_append]
  obtain ⟨hi, hiout⟩ := lex_insertWords
  obtain ⟨hv, hvout⟩ := lex_valuesWord
  obtain ⟨h1, h1'⟩ := lex_append_break hiout (c := ' ') (by decide)
    (tableName ++ ' ' :: (valuesWord ++ ' ' :: ('(' :: literals fields)))
  obtain ⟨h2, h2'⟩ := lex_append_break hnout (c := ' ') (by decide)
    (valuesWord ++ ' ' :: ('(' :: literals fields))
  obtain ⟨h3, h3'⟩ := lex_append_break hvout (c := ' ') (by decide) ('(' :: literals fields)
  rw [hsplit, h1, h1', lex_space, run_space, h2, h2', lex_space, run_space, h3, h3', lex_space,
    run_space, lex_sym (c := '(') (by decide), run_sym (c := '(') (by decide), hl, hi, hv]
  exact ⟨by simp only [insertTokens, List.append_assoc, List.cons_append, List.nil_append], hlout⟩

theorem sym_mem_insertTokens (hname : ∀ c ∈ tableName, isNameChar c) {d : Char}
    (hd : .sym d ∈ insertTokens tableName fields) : d = '.' ∨ d = '(' ∨ d = ',' := by
  simp only [insertTokens, List.mem_append, List.mem_cons, List.not_mem_nil, or_false,
    Token.sym.injEq, reduceCtorEq, false_or] at hd
  rcases hd with (hd | hd) | hd
  · exact Or.inl (sym_mem_lex_name hname hd)
  · exact Or.inr (Or.inl hd)
  · exact Or.inr (Or.inr (sym_mem_literalTokens hd))

theorem semi_not_mem_insertTokens (hname : ∀ c ∈ tableName, isNameChar c) :
    .sym ';' ∉ insertTokens tableName fields := by
  intro hs
  rcases sym_mem_insertTokens hname hs with h | h | h <;> exact absurd h (by decide)

theorem isInsert_insertTokens (tableName : Text) (fields : List Text) :
    IsInsert (insertTokens tableName fields ++ [.sym ')']) := by
  simp only [insertTokens, List.append_assoc]
  exact ⟨_, rfl⟩

theorem statements_insert (hname : ∀ c ∈ tableName, isNameChar c) (hf : ∀ f ∈ fields, '\'' ∉ f) :
    statements (insertBody tableName fields ++ [')', ';']) =
      [insertTokens tableName fields ++ [.sym ')']] := by
  obtain ⟨hlex, hout⟩ := lex_insertBody hname hf
  rw [statements_closed hout (by rw [hlex]; exact semi_not_mem_insertTokens hname), hlex]

/-- What is left of an `INSERT` that was cut off is one statement, which has no closing
parenthesis unless it is complete. -/
theorem statements_insert_cut (hname : ∀ c ∈ tableName, isNameChar c)
    (hf : ∀ f ∈ fields, '\'' ∉ f) {text : Text}
    (hhead : insertIntoText <+: text)
    (hpre : text <+: insertBody tableName fields ++ [')', ';']) :
    ∃ toks, statements text = [toks] ∧ IsInsert toks ∧
      (toks = insertTokens tableName fields ++ [.sym ')'] ∨ .sym ')' ∉ toks) := by
  obtain ⟨hlex, hout⟩ := lex_insertBody hname hf
  have hassoc : insertBody tableName fields ++ [')', ';'] =
      (insertBody tableName fields ++ [')']) ++ [';'] := by simp
  have hrow := isInsert_insertTokens tableName fields
  rw [hassoc, List.prefix_concat_iff] at hpre
  rcases hpre with rfl | hpre
  · rw [← hassoc]
    exact ⟨_, statements_insert hname hf, hrow, Or.inl rfl⟩
  rw [List.prefix_concat_iff] at hpre
  rcases hpre with rfl | hpre
  · -- Only the semicolon is missing.
    have hsemi : .sym ';' ∉ insertTokens tableName fields ++ [.sym ')'] := by
      rw [List.mem_append, not_or]
      exact ⟨semi_not_mem_insertTokens hname, by decide⟩
    refine ⟨_, statements_eq_singleton (by simp) hsemi (Or.inl ?_), hrow, Or.inl rfl⟩
    obtain ⟨h, -⟩ := lex_append_break hout (c := ')') (by decide) []
    rw [h, hlex]
    rfl
  · -- The text ends before the closing parenthesis.
    have hsym : ∀ d, .sym d ∈ lex text → d = '.' ∨ d = '(' ∨ d = ',' := by
      intro d hd
      rcases List.mem_append.mp hd with hd | hd
      · apply sym_mem_insertTokens hname
        rw [← hlex]
        exact List.mem_append_left _ ((run_mono gap hpre).subset hd)
      · exact absurd hd (flush_ne_sym _ d)
    have hstart : [.word "INSERT".toList, .word "INTO".toList] <+: lex text := by
      have hrun : (run gap insertIntoText).1 =
          [.word "INSERT".toList, .word "INTO".toList] := by decide +kernel
      rw [← hrun]
      exact (run_mono gap hhead).trans (List.prefix_append _ _)
    obtain ⟨rest, hrest⟩ := hstart
    refine ⟨lex text, statements_eq_singleton ?_ ?_ (Or.inl rfl), ?_, Or.inr ?_⟩
    · rw [← hrest]
      simp
    · intro hs
      rcases hsym ';' hs with h | h | h <;> exact absurd h (by decide)
    · exact ⟨rest, hrest.symm⟩
    · intro hs
      rcases hsym ')' hs with h | h | h <;> exact absurd h (by decide)

/-- What is left of a literal: all of it, nothing, or an unfinished literal. -/
theorem lex_literal_cut {key rest : Text} (hkey : '\'' ∉ key)
    (h : rest <+: '\'' :: (key ++ ['\''])) :
    lex rest = [.str key] ∨ lex rest = [] ∨ lex rest = [.illegal] := by
  rw [← List.cons_append, List.prefix_concat_iff] at h
  rcases h with rfl | h
  · rw [List.cons_append, lex, run_literal hkey]
    exact Or.inl rfl
  · rcases List.prefix_cons_iff.mp h with rfl | ⟨t, rfl, ht⟩
    · exact Or.inr (Or.inl rfl)
    · have hstart : next gap '\'' = ([], str []) := by decide
      have hq : '\'' ∉ t := fun hmem => hkey (ht.subset hmem)
      rw [lex, run, hstart, run_str hq]
      exact Or.inr (Or.inr rfl)

theorem statements_delete_cut {key : Text} (hkey : '\'' ∉ key) {text : Text}
    (hhead : deleteHead <+: text) (hpre : text <+: deleteHead ++ '\'' :: (key ++ ['\''])) :
    ∃ toks, statements text = [toks] ∧ IsDelete toks ∧
      (toks = deleteTokens key ∨ ∀ k, .str k ∉ toks) := by
  have hrun : run gap deleteHead = ((deleteTokens key).dropLast, gap) := by
    have h : run gap deleteHead = ((deleteTokens []).dropLast, gap) := by decide +kernel
    exact h
  obtain ⟨rest, rfl⟩ := hhead
  have hrest : rest <+: '\'' :: (key ++ ['\'']) := (List.prefix_append_right_inj _).mp hpre
  have hlex : lex (deleteHead ++ rest) = (deleteTokens key).dropLast ++ lex rest := by
    rw [lex, run_append, hrun, List.append_assoc]
    rfl
  have hcases := lex_literal_cut hkey hrest
  refine ⟨_, statements_eq_singleton ?_ ?_ (Or.inl rfl), ?_, ?_⟩
  · rw [hlex]
    simp [deleteTokens]
  · rw [hlex]
    rcases hcases with h | h | h <;> rw [h] <;> simp [deleteTokens]
  · rw [hlex]
    exact ⟨_, rfl⟩
  · rw [hlex]
    rcases hcases with h | h | h
    · exact Or.inl (by rw [h]; rfl)
    · exact Or.inr (by simp [h, deleteTokens])
    · exact Or.inr (by simp [h, deleteTokens])

end TpchBench.Loader
