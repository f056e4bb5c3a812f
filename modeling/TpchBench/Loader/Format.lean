import TpchBench.Loader.Calls

/-! # Files in dbgen format

Every line of a `.tbl` file is a record whose fields are each followed by `|`. The last
token of such a line is its newline, so the number of tokens is one more than the number
of fields.
-/

namespace TpchBench.Loader

open Sql

structure IsField (f : Text) : Prop where
  ne_nil : f ≠ []
  noPipe : '|' ∉ f
  noNewline : '\n' ∉ f
  noNul : '\x00' ∉ f
  noQuote : '\'' ∉ f

theorem isField_of_and {f : Text} (h : f ≠ [] ∧ '|' ∉ f ∧ '\n' ∉ f ∧ '\x00' ∉ f ∧ '\'' ∉ f) :
    IsField f := ⟨h.1, h.2.1, h.2.2.1, h.2.2.2.1, h.2.2.2.2⟩

def recordLine (fields : List Text) : Text := fields.flatMap (· ++ ['|'])

def tblFile (records : List (List Text)) : Text :=
  (records.map recordLine).flatMap (· ++ ['\n'])

/-- Records of `n` fields that fit into a line buffer. -/
structure IsTbl (n : ℕ) (records : List (List Text)) : Prop where
  fields : ∀ r ∈ records, ∀ f ∈ r, IsField f
  length : ∀ r ∈ records, r.length = n
  fits : ∀ r ∈ records, (recordLine r).length + 1 < maxLineLength

theorem of_mem_recordLine {fields : List Text} {c : Char} (h : c ∈ recordLine fields) :
    c = '|' ∨ ∃ f ∈ fields, c ∈ f := by
  obtain ⟨f, hf, hc⟩ := List.mem_flatMap.mp h
  rcases List.mem_append.mp hc with hc | hc
  · exact Or.inr ⟨f, hf, hc⟩
  · exact Or.inl (List.mem_singleton.mp hc)

theorem not_mem_recordLine {fields : List Text} {c : Char} (hp : c ≠ '|')
    (h : ∀ f ∈ fields, c ∉ f) : c ∉ recordLine fields := by
  intro hc
  rcases of_mem_recordLine hc with rfl | ⟨f, hf, hc⟩
  · exact hp rfl
  · exact h f hf hc

variable {n : ℕ} {records : List (List Text)}

theorem IsTbl.fgetsAll_eq (h : IsTbl n records) :
    fgetsAll maxLineLength (tblFile records) = records.map fun r => recordLine r ++ ['\n'] := by
  have hlines : ∀ l ∈ records.map recordLine, '\n' ∉ l ∧ l.length + 1 < maxLineLength := by
    intro l hl
    obtain ⟨r, hr, rfl⟩ := List.mem_map.mp hl
    exact ⟨not_mem_recordLine (by decide) fun f hf => (h.fields r hr f hf).noNewline, h.fits r hr⟩
  rw [tblFile, fgetsAll_lines hlines, List.map_map]
  rfl

theorem lineTokens_recordLine {fields : List Text} (h : ∀ f ∈ fields, IsField f) :
    lineTokens (recordLine fields ++ ['\n']) = fields ++ [['\n']] := by
  have hnul : '\x00' ∉ recordLine fields ++ ['\n'] := by
    rw [List.mem_append, not_or]
    exact ⟨not_mem_recordLine (by decide) fun f hf => (h f hf).noNul, by decide⟩
  have hcstr : cstr (recordLine fields ++ ['\n']) = recordLine fields ++ ['\n'] := by
    rw [cstr, List.takeWhile_eq_self_iff]
    intro c hc
    exact decide_eq_true (ne_of_mem_of_not_mem hc hnul)
  rw [lineTokens, hcstr, recordLine, tokens_fields fun f hf => ⟨(h f hf).ne_nil, (h f hf).noPipe⟩,
    tokens_last (by decide) (by decide)]

/-- `loadTables` inserts the fields of every record but the first. -/
theorem IsTbl.insertQueries_eq (h : IsTbl n records) {table : Text} (ht : table.length < 256) :
    insertQueries table (tblFile records) =
      records.tail.map fun r => insertBody table r ++ [')', ';'] := by
  unfold insertQueries
  rw [h.fgetsAll_eq]
  cases records with
  | nil => rfl
  | cons first rest =>
    obtain ⟨hfirst, hrest⟩ := List.forall_mem_cons.mp h.fields
    have hcount : numColumns (recordLine first ++ ['\n']) = n + 1 := by
      rw [numColumns, lineTokens_recordLine hfirst, List.length_append,
        h.length first List.mem_cons_self]
      rfl
    simp only [List.map_cons, List.map_map, List.tail_cons]
    apply List.map_congr_left
    intro r hr
    have hlen : r.length = n := h.length r (List.mem_cons_of_mem _ hr)
    rw [Function.comp_apply, insertQuery_eq ht, lineTokens_recordLine (hrest r hr), hcount,
      Nat.add_sub_cancel, ← hlen, List.take_left]

theorem IsTbl.noQuote (h : IsTbl n records) : '\'' ∉ tblFile records := by
  intro hq
  obtain ⟨l, hl, hq⟩ := List.mem_flatMap.mp hq
  obtain ⟨r, hr, rfl⟩ := List.mem_map.mp hl
  rcases List.mem_append.mp hq with hq | hq
  · exact not_mem_recordLine (by decide) (fun f hf => (h.fields r hr f hf).noQuote) hq
  · exact absurd hq (by decide)

end TpchBench.Loader
