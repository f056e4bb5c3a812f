import TpchBench.Sql.Lexer
import TpchBench.Store.Transaction

/-! # Executing SQL texts

`sqlite3_exec` runs the statements of a text in order and stops at the first one that
fails. Transaction control is recognised by its keyword; what every other statement does
to the contents is a parameter.
-/

namespace TpchBench.Sql

open Store Store.Action

variable {C : Type*}

/-- Keywords and names are compared without regard to case. -/
def upper (w : Text) : Text := w.map Char.toUpper

theorem isAlpha_of_toUpper {c : Char} (h : c.toUpper.isAlpha) : c.isAlpha := by
  by_cases hl : c.isLower
  · exact Bool.or_eq_true_iff.mpr (Or.inr hl)
  · have hc : c.toUpper = c := by
      refine dif_neg fun hrange => hl ?_
      exact Bool.and_eq_true_iff.mpr ⟨decide_eq_true hrange.1, decide_eq_true hrange.2⟩
    rwa [hc] at h

theorem isAlpha_of_upper {w : Text} (h : ∀ c ∈ upper w, c.isAlpha) : ∀ c ∈ w, c.isAlpha :=
  fun _ hc => isAlpha_of_toUpper (h _ (List.mem_map_of_mem hc))

def keyword : List Token → Text
  | .word w :: _ => upper w
  | _ => []

def stmt (sem : List Token → C → Option C) (toks : List Token) : Stmt C :=
  if keyword toks = "BEGIN".toList then .begin
  else if keyword toks = "COMMIT".toList ∨ keyword toks = "END".toList then .commit
  else if keyword toks = "ROLLBACK".toList then .rollback
  else .update (sem toks)

def sqlite3Exec (sem : List Token → C → Option C) (text : Text) : Action C :=
  all ((statements text).map fun toks => exec (stmt sem toks))

/-- The statements of a text applied to contents, transactions aside. -/
def apply (sem : List Token → C → Option C) (c : C) (text : Text) : Option C :=
  (statements text).foldlM (fun c toks => sem toks c) c

def IsInsert (toks : List Token) : Prop :=
  ∃ rest, toks = .word "INSERT".toList :: .word "INTO".toList :: rest

def IsDelete (toks : List Token) : Prop :=
  ∃ rest, toks = .word "DELETE".toList :: .word "FROM".toList :: rest

/-- A statement that changes rows and controls no transaction. -/
def IsRowStatement (toks : List Token) : Prop := IsInsert toks ∨ IsDelete toks

theorem IsInsert.keyword_eq {toks : List Token} (h : IsInsert toks) :
    keyword toks = "INSERT".toList := by
  obtain ⟨rest, rfl⟩ := h
  rfl

theorem IsDelete.keyword_eq {toks : List Token} (h : IsDelete toks) :
    keyword toks = "DELETE".toList := by
  obtain ⟨rest, rfl⟩ := h
  rfl

variable (sem : List Token → C → Option C)

theorem stmt_row {toks : List Token} (h : IsRowStatement toks) :
    stmt sem toks = .update (sem toks) := by
  unfold stmt
  rcases h with h | h
  · rw [h.keyword_eq, if_neg (by decide), if_neg (by decide), if_neg (by decide)]
  · rw [h.keyword_eq, if_neg (by decide), if_neg (by decide), if_neg (by decide)]

theorem updates_sqlite3Exec {text : Text} (h : ∀ toks ∈ statements text, IsRowStatement toks) :
    Updates (sqlite3Exec sem text) fun c => apply sem c text := by
  apply updates_all
  intro toks htoks
  rw [stmt_row sem (h toks htoks)]
  exact updates_exec (sem toks)

theorem apply_single {text : Text} {toks : List Token} (h : statements text = [toks]) (c : C) :
    apply sem c text = sem toks c := by
  simp [apply, h]

theorem sqlite3Exec_single {text : Text} {toks : List Token} (h : statements text = [toks]) :
    sqlite3Exec sem text = exec (stmt sem toks) := by
  funext s
  rw [sqlite3Exec, h, List.map_singleton, all, all, andThen]
  split
  · rename_i hs
    exact Prod.ext hs.symm rfl
  · rfl

theorem sqlite3Exec_begin : sqlite3Exec sem "BEGIN TRANSACTION;".toList = exec .begin := by
  have h : statements "BEGIN TRANSACTION;".toList =
      [[.word "BEGIN".toList, .word "TRANSACTION".toList]] := by decide +kernel
  rw [sqlite3Exec_single sem h]
  rfl

theorem sqlite3Exec_commit : sqlite3Exec sem "COMMIT;".toList = exec .commit := by
  have h : statements "COMMIT;".toList = [[.word "COMMIT".toList]] := by decide +kernel
  rw [sqlite3Exec_single sem h]
  rfl

end TpchBench.Sql
