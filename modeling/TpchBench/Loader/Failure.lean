import TpchBench.Loader.Calls

/-! # Failed calls

No function rolls back: a call that fails after its `BEGIN` returns with its transaction open,
and the callers close the connection. What the transaction did is never durable, but until then
it is visible on the connection and every later call fails at its own `BEGIN`.
-/

namespace TpchBench.Loader

open Sql Store Store.Action

section Failed

variable {C : Type*} (sem : List Token → C → Option C)

/-- Whether a call reaches its `BEGIN`; a load opens the directory first. -/
def Call.opens : Call → Bool
  | .loadTables dir => dir.entries.isSome
  | .refreshRF1 _ _ => true
  | .refreshRF2 _ => true

def Call.Begins (call : Call) (s : Session C) : Prop := call.opens ∧ s.outcomes 0 = .ok

theorem IsRowQuery.keepsOpen {q : Text} (h : IsRowQuery q) : KeepsOpen (sqlite3Exec sem q) := by
  obtain ⟨toks, hst, hrow⟩ := h
  rw [sqlite3Exec_single sem hst, stmt_row sem hrow]
  exact keepsOpen_exec (sem toks)

theorem keepsOpen_loadFile {dir : Directory} {name : Text} (h : dir.PlainEntry name) :
    KeepsOpen (loadFile sem dir name) := by
  unfold loadFile
  split
  · rename_i ht
    cases hf : dir.fopen (filepath name) with
    | none => exact keepsOpen_fail
    | some file =>
      have hqs : fileQueries dir name = some (insertQueries (tableName name) file) := by
        simp [fileQueries, ht, hf]
      exact keepsOpen_all _ fun q hq => (isRowQuery_fileQueries h hqs q hq).keepsOpen sem
  · exact keepsOpen_succeed

/-- A call fails at once or is a transaction, which plain files cannot end. -/
theorem Call.run_cases (call : Call) :
    call.opens = false ∧ call.run sem = fail ∨
      call.opens = true ∧ ∃ body, call.run sem = transaction body ∧
        (call.Plain → KeepsOpen body) := by
  cases call with
  | loadTables dir =>
    obtain ⟨entries, fopen⟩ := dir
    cases entries with
    | none => exact Or.inl ⟨rfl, rfl⟩
    | some names =>
      exact Or.inr ⟨rfl, _, transaction_eq sem _, fun h =>
        keepsOpen_all names fun name hname => keepsOpen_loadFile sem (h names rfl name hname)⟩
  | refreshRF1 orders lineitem =>
    refine Or.inr ⟨rfl, _, transaction_eq sem _, fun h => ?_⟩
    cases orders with
    | none => exact keepsOpen_fail
    | some o =>
      cases lineitem with
      | none => exact keepsOpen_fail
      | some l =>
        refine keepsOpen_all _ fun p hp => ?_
        obtain ⟨h1, h2⟩ := isRowQuery_refresh (h.1 o rfl) (h.2 l rfl) hp
        exact (h1.keepsOpen sem).andThen (h2.keepsOpen sem)
  | refreshRF2 delete =>
    refine Or.inr ⟨rfl, _, transaction_eq sem _, fun h => ?_⟩
    cases delete with
    | none => exact keepsOpen_fail
    | some d =>
      exact keepsOpen_all _ fun line hline => (isRowQuery_delete (h d rfl) hline).keepsOpen sem

theorem Call.not_begun {call : Call} {s : Session C} (hauto : s.conn.pending = none)
    (h : ¬ call.Begins s) : (call.run sem s).2.conn = s.conn := by
  rcases call.run_cases sem with ⟨-, hrun⟩ | ⟨hopens, body, hrun, -⟩
  · rw [hrun]
    rfl
  · rw [hrun]
    exact (transaction_not_begun hauto fun ho => h ⟨hopens, ho⟩).2

/-- While a transaction is open, every call fails and leaves it open. -/
theorem Call.run_open (call : Call) {s : Session C} (hr : s.NoRollback)
    (h : s.conn.pending.isSome) :
    (call.run sem s).1 = false ∧ (call.run sem s).2.NoRollback ∧
      (call.run sem s).2.conn = s.conn := by
  rcases call.run_cases sem with ⟨-, hrun⟩ | ⟨-, body, hrun, -⟩
  · rw [hrun]
    exact ⟨rfl, hr, rfl⟩
  · rw [hrun]
    exact transaction_open hr h

theorem runCalls_open (calls : List Call) {s : Session C} (hr : s.NoRollback)
    (h : s.conn.pending.isSome) :
    (∀ b ∈ (runCalls (calls.map (Call.run sem)) s).1, b = false) ∧
      (runCalls (calls.map (Call.run sem)) s).2.conn = s.conn := by
  induction calls generalizing s with
  | nil => exact ⟨by simp [runCalls], rfl⟩
  | cons call calls ih =>
    obtain ⟨hb, hr', hconn⟩ := call.run_open sem hr h
    obtain ⟨hbs, hconn'⟩ := ih hr' (hconn ▸ h)
    rw [List.map_cons, runCalls]
    exact ⟨List.forall_mem_cons.mpr ⟨hb, hbs⟩, hconn'.trans hconn⟩

/-- How a failed call leaves a connection that was in autocommit mode. -/
structure Failed (call : Call) (s s' : Session C) : Prop where
  /-- Before the transaction begins nothing happens. -/
  not_begun : ¬ call.Begins s → s'.conn = s.conn
  /-- Closing the connection leaves the contents from before the call. -/
  close : call.Plain → s'.conn.close = s.conn.close
  /-- If SQLite rolled the transaction back, the connection is as the call found it. -/
  rolledBack : call.Plain → s'.conn.pending = none → s'.conn = s.conn
  /-- Otherwise the transaction stays open, and all later calls fail and change nothing. -/
  stays_open : call.Plain → call.Begins s → s.NoRollback →
    s'.conn.pending.isSome ∧ ∀ later : List Call,
      (∀ b ∈ (runCalls (later.map (Call.run sem)) s').1, b = false) ∧
        (runCalls (later.map (Call.run sem)) s').2.conn = s'.conn

theorem call_failed {call : Call} {s : Session C} (hauto : s.conn.pending = none)
    (h : (call.run sem s).1 = false) : Failed sem call s (call.run sem s).2 where
  not_begun := Call.not_begun sem hauto
  close hplain := (hplain.atomic sem).unchanged s h
  rolledBack hplain hnone := by
    have hdur := (hplain.atomic sem).unchanged s h
    cases hs : s.conn with
    | mk durable pending =>
      cases hs' : (call.run sem s).2.conn with
      | mk durable' pending' =>
        rw [hs, hs'] at hdur
        rw [hs] at hauto
        rw [hs'] at hnone
        exact congrArg₂ Conn.mk hdur (hnone.trans hauto.symm)
  stays_open hplain hbegins hr := by
    rcases call.run_cases sem with ⟨hopens, -⟩ | ⟨-, body, hrun, hbody⟩
    · rw [hbegins.1] at hopens
      exact absurd hopens (by decide)
    · rw [hrun] at h ⊢
      obtain ⟨hr', hp⟩ :=
        (hbody hplain).transaction hr ((exec_begin_auto hauto).mpr hbegins.2) h
      exact ⟨hp, fun later => runCalls_open sem later hr' hp⟩

end Failed

/-- What statements on a connection read. -/
def visible {C : Type*} (conn : Conn C) : C := conn.pending.getD conn.durable

/-- The third statement on the connection fails, as a `COMMIT` does while the database is
busy. -/
def busySession : Session (Database Value) :=
  { conn := Conn.connect twoOrders
    outcomes := fun n => if n = 2 then .fail else .ok }

def deleteFirst : Call := .refreshRF2 (some "1|\n".toList)

theorem call_failed_busy :
    busySession.conn.pending = none ∧ (deleteFirst.run (sem plainStore) busySession).1 = false ∧
      Failed (sem plainStore) deleteFirst busySession
        (deleteFirst.run (sem plainStore) busySession).2 := by
  have h : (deleteFirst.run (sem plainStore) busySession).1 = false := by decide +kernel
  exact ⟨rfl, h, call_failed (sem plainStore) rfl h⟩

def quietSession : Session (Database Value) :=
  { conn := Conn.connect twoOrders, outcomes := fun _ => .ok }

/-- The quote ends the literal, and the rest of the line commits the deletion. -/
def deleteQuoted : Call := .refreshRF2 (some "1'; COMMIT; X|\n".toList)

/-- After the first deletion its transaction is open and order 1 cannot be read. The second
one returns 0 and yet has deleted order 1. -/
theorem not_restored_deletions :
    (busySession.conn.pending = none ∧
      (deleteFirst.run (sem plainStore) busySession).1 = false ∧
      ((deleteFirst.run (sem plainStore) busySession).2.conn.pending.isSome ∧
        (visible (deleteFirst.run (sem plainStore) busySession).2.conn).rows ordersName ≠
          (visible busySession.conn).rows ordersName)) ∧
    (quietSession.conn.pending = none ∧
      (deleteQuoted.run (sem plainStore) quietSession).1 = false ∧
      (deleteQuoted.run (sem plainStore) quietSession).2.conn.close.rows ordersName ≠
        quietSession.conn.close.rows ordersName) := by
  refine ⟨⟨rfl, by decide +kernel, by decide +kernel, by decide +kernel⟩, rfl,
    by decide +kernel, by decide +kernel⟩

end TpchBench.Loader
