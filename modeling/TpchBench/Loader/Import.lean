import TpchBench.Loader.Format
import Mathlib.Logic.Function.Iterate

/-! # The two load paths

OSv strips the last separator of every line and leaves the splitting to the shell's
`.import`; the C programs build one `INSERT` for every line after the first. Both read the
same fields.
-/

namespace TpchBench.Loader

open Sql Python

/-- `remove_trailing_pipe_from_tbl`, as the text that it writes back. -/
def removeTrailingPipe (file : Text) : Text :=
  ((readlines file).map fun line => rstrip '|' (rstrip '\n' line) ++ ['\n']).flatten

/-- The rows of `.import`: every line is split at the separators. -/
def importRows (file : Text) : List (List Text) :=
  (splitLines file).map fun line => (rstrip '\n' line).splitOn '|'

/-- The literals of an `INSERT`, decoded from the text after its opening parenthesis. -/
def insertedLiterals (table query : Text) : Option (List Text) :=
  (statements (query.drop (insertHead table).length)).head?.bind parseValues

def joinFields (fields : List Text) : Text := ['|'].intercalate fields

def joinedFile (records : List (List Text)) : Text :=
  (records.map joinFields).flatMap (· ++ ['\n'])

theorem insertedLiterals_insertBody (table : Text) {fields : List Text} (hne : fields ≠ [])
    (h : ∀ f ∈ fields, '\'' ∉ f) :
    insertedLiterals table (insertBody table fields ++ [')', ';']) = some fields := by
  obtain ⟨hlex, hout⟩ := lex_literals h
  have hdrop : (insertBody table fields ++ [')', ';']).drop (insertHead table).length =
      literals fields ++ [')', ';'] := by
    rw [insertBody, List.append_assoc, List.drop_left]
  have hsemi : .sym ';' ∉ lex (literals fields) := by
    rw [hlex]
    intro hs
    exact absurd (sym_mem_literalTokens hs) (by decide)
  rw [insertedLiterals, hdrop, statements_closed hout hsemi, hlex, List.head?_cons,
    Option.bind_some, parseValues_literalTokens hne]

theorem joinFields_cons_cons (f g : Text) (fs : List Text) :
    joinFields (f :: g :: fs) = f ++ '|' :: joinFields (g :: fs) := by
  simp [joinFields, List.intercalate]

theorem joinFields_ends {fields : List Text} (hne : fields ≠ []) (h : ∀ f ∈ fields, IsField f) :
    ∃ x c, joinFields fields = x ++ [c] ∧ c ≠ '|' ∧ c ≠ '\n' := by
  induction fields with
  | nil => exact absurd rfl hne
  | cons f fs ih =>
    obtain ⟨hf, hfs⟩ := List.forall_mem_cons.mp h
    cases fs with
    | nil =>
      refine ⟨f.dropLast, f.getLast hf.ne_nil, ?_, ?_, ?_⟩
      · simp [joinFields, List.intercalate, List.dropLast_append_getLast hf.ne_nil]
      · exact ne_of_mem_of_not_mem (List.getLast_mem hf.ne_nil) hf.noPipe
      · exact ne_of_mem_of_not_mem (List.getLast_mem hf.ne_nil) hf.noNewline
    | cons g fs =>
      obtain ⟨x, c, hx, hp, hn⟩ := ih (List.cons_ne_nil g fs) hfs
      exact ⟨f ++ '|' :: x, c, by rw [joinFields_cons_cons, hx]; simp, hp, hn⟩

theorem recordLine_eq_joinFields {fields : List Text} (hne : fields ≠ []) :
    recordLine fields = joinFields fields ++ ['|'] := by
  induction fields with
  | nil => exact absurd rfl hne
  | cons f fs ih =>
    cases fs with
    | nil => simp [recordLine, joinFields, List.intercalate]
    | cons g fs =>
      have ih := ih (List.cons_ne_nil g fs)
      rw [joinFields_cons_cons, List.append_assoc, List.cons_append, ← ih]
      simp [recordLine]

theorem not_mem_joinFields {fields : List Text} {c : Char} (hp : c ≠ '|')
    (h : ∀ f ∈ fields, c ∉ f) : c ∉ joinFields fields := by
  rcases eq_or_ne fields [] with rfl | hne
  · simp [joinFields, List.intercalate]
  · intro hc
    apply not_mem_recordLine hp h
    rw [recordLine_eq_joinFields hne]
    exact List.mem_append_left _ hc

theorem not_mem_recordLines {records : List (List Text)} {c : Char} (hp : c ≠ '|')
    (h : ∀ r ∈ records, ∀ f ∈ r, c ∉ f) : ∀ l ∈ records.map recordLine, c ∉ l := by
  intro l hl
  obtain ⟨r, hr, rfl⟩ := List.mem_map.mp hl
  exact not_mem_recordLine hp (h r hr)

theorem not_mem_joinedLines {records : List (List Text)} {c : Char} (hp : c ≠ '|')
    (h : ∀ r ∈ records, ∀ f ∈ r, c ∉ f) : ∀ l ∈ records.map joinFields, c ∉ l := by
  intro l hl
  obtain ⟨r, hr, rfl⟩ := List.mem_map.mp hl
  exact not_mem_joinFields hp (h r hr)

theorem removeTrailingPipe_lines {ls : List Text} (hn : ∀ l ∈ ls, '\n' ∉ l)
    (hr : ∀ l ∈ ls, '\r' ∉ l) :
    removeTrailingPipe (ls.flatMap (· ++ ['\n'])) =
      (ls.map fun l => rstrip '|' (rstrip '\n' l)).flatMap (· ++ ['\n']) := by
  rw [removeTrailingPipe, readlines_lines fun l hl => ⟨hn l hl, hr l hl⟩, List.map_map,
    List.flatMap_map, List.flatMap_def]
  congr 1
  apply List.map_congr_left
  intro l hl
  rw [Function.comp_apply, rstrip_concat_self]

variable {n : ℕ} {records : List (List Text)}

theorem IsTbl.noNewline (h : IsTbl n records) : ∀ r ∈ records, ∀ f ∈ r, '\n' ∉ f :=
  fun r hr f hf => (h.fields r hr f hf).noNewline

theorem IsTbl.ne_nil (h : IsTbl n records) (hn : 0 < n) : ∀ r ∈ records, r ≠ [] := by
  rintro r hr rfl
  have := h.length [] hr
  simp only [List.length_nil] at this
  omega

theorem IsTbl.removeTrailingPipe_joinedFile (h : IsTbl n records) (hn : 0 < n)
    (hcr : ∀ r ∈ records, ∀ f ∈ r, '\r' ∉ f) :
    removeTrailingPipe (joinedFile records) = joinedFile records := by
  rw [joinedFile, removeTrailingPipe_lines (not_mem_joinedLines (by decide) h.noNewline)
    (not_mem_joinedLines (by decide) hcr), List.map_map]
  congr 1
  apply List.map_congr_left
  intro r hr
  obtain ⟨x, c, hx, hp, hnl⟩ := joinFields_ends (h.ne_nil hn r hr) (h.fields r hr)
  rw [Function.comp_apply, hx, rstrip_concat_of_ne hnl, rstrip_concat_of_ne hp]

/-- Cleaning removes the last separator of every line. -/
theorem IsTbl.removeTrailingPipe_tblFile (h : IsTbl n records) (hn : 0 < n)
    (hcr : ∀ r ∈ records, ∀ f ∈ r, '\r' ∉ f) :
    removeTrailingPipe (tblFile records) = joinedFile records := by
  rw [tblFile, joinedFile, removeTrailingPipe_lines (not_mem_recordLines (by decide) h.noNewline)
    (not_mem_recordLines (by decide) hcr), List.map_map]
  congr 1
  apply List.map_congr_left
  intro r hr
  have hne := h.ne_nil hn r hr
  obtain ⟨x, c, hx, hp, hnl⟩ := joinFields_ends hne (h.fields r hr)
  rw [Function.comp_apply, recordLine_eq_joinFields hne, rstrip_concat_of_ne (by decide),
    rstrip_concat_self, hx, rstrip_concat_of_ne hp]

theorem IsTbl.iterate_removeTrailingPipe (h : IsTbl n records) (hn : 0 < n)
    (hcr : ∀ r ∈ records, ∀ f ∈ r, '\r' ∉ f) {k : ℕ} (hk : 0 < k) :
    removeTrailingPipe^[k] (tblFile records) = joinedFile records := by
  obtain ⟨k, rfl⟩ : ∃ m, k = m + 1 := ⟨k - 1, by omega⟩
  rw [Function.iterate_succ_apply, h.removeTrailingPipe_tblFile hn hcr,
    Function.iterate_fixed (h.removeTrailingPipe_joinedFile hn hcr)]

theorem IsTbl.splitLines_joinedFile (h : IsTbl n records) :
    splitLines (joinedFile records) = records.map fun r => joinFields r ++ ['\n'] := by
  rw [joinedFile, splitLines_lines (not_mem_joinedLines (by decide) h.noNewline), List.map_map]
  rfl

theorem IsTbl.importRows_joinedFile (h : IsTbl n records) (hn : 0 < n) :
    importRows (joinedFile records) = records := by
  rw [importRows, h.splitLines_joinedFile, List.map_map]
  calc records.map _ = records.map id := by
        apply List.map_congr_left
        intro r hr
        obtain ⟨x, c, hx, -, hnl⟩ := joinFields_ends (h.ne_nil hn r hr) (h.fields r hr)
        rw [Function.comp_apply, rstrip_concat_self, hx, rstrip_concat_of_ne hnl, ← hx]
        exact List.splitOn_intercalate '|' (fun f hf => (h.fields r hr f hf).noPipe)
          (h.ne_nil hn r hr)
    _ = records := List.map_id records

def twoRecords : List (List Text) :=
  [["0".toList, "AFRICA".toList], ["1".toList, "AMERICA".toList]]

theorem isTbl_twoRecords : IsTbl 2 twoRecords where
  fields r hr f hf := by
    have h : ∀ r ∈ twoRecords, ∀ f ∈ r,
        f ≠ [] ∧ '|' ∉ f ∧ '\n' ∉ f ∧ '\x00' ∉ f ∧ '\'' ∉ f := by decide
    exact isField_of_and (h r hr f hf)
  length := by decide
  fits := by decide

end TpchBench.Loader
