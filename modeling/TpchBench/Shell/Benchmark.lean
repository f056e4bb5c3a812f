import TpchBench.Shell.PowerRun
import TpchBench.Shell.Import
import TpchBench.Timing.Benchmark

/-! # The benchmark on OSv

The shell of OSv loads the tables in one session and runs the queries in further ones. What it
prints while it loads has no times, so that the rows of the first iteration are those of its
queries, and the database that the queries see is the one that was loaded.
-/

namespace TpchBench.Shell

open Timing Python

variable {D : Type*}

/-- The tables of a database: how one that exists is filled, and what `.import` does with a file
for one that it has to create. -/
structure Tables (D : Type*) where
  target : Text → D → Option (ImportTarget D)
  create : Text → Text → D → Bool × List Text × D

def importCommand (source : Text → Option Text) (tables : Tables D) (zFile zTable : Text) (db : D) :
    Bool × List Text × D :=
  match source zFile with
  | none => (true, ["Error: cannot open \"".toList ++ zFile ++ "\"\n".toList], db)
  | some file =>
    match tables.target zTable db with
    | none => tables.create zTable file db
    | some target =>
      let name := if zFile.head? = some '|' then "<pipe>".toList else zFile
      let (messages, rc, db) := importFile target file db
      (rc, messages.map (ImportMessage.text name), db)

def loads : List (Text × Text) :=
  [("nation.tbl", "NATION"), ("region.tbl", "REGION"), ("part.tbl", "PART"),
   ("supplier.tbl", "SUPPLIER"), ("partsupp.tbl", "PARTSUPP"), ("customer.tbl", "CUSTOMER"),
   ("orders.tbl", "ORDERS"), ("lineitem.tbl", "LINEITEM")].map fun p => (p.1.toList, p.2.toList)

def importLine (p : Text × Text) : Text := ".import ".toList ++ p.1 ++ [' '] ++ p.2

def Env.iterations (env : Env D) (console : Console) (name : Text) : ℕ → ℕ → Files × D → Files × D
  | _, 0, p => p
  | i, n + 1, (fs, db) =>
    env.iterations console name (i + 1) n
      (((fs.append (env.screen console i powerInput db)).cleanQueriesTime name i).rm,
        (env.stdinRun console.isTerminal powerInput ⟨db, false, []⟩).2.db)

/-- Neither the errors of the insertions of an import hold a mark, nor what it writes about a
table that it creates. -/
def importQuiet (source : Text → Option Text) (tables : Tables D) (p : Text × Text) (db : D) :
    Prop :=
  ∀ file, source p.1 = some file →
    match tables.target p.2 db with
    | none => ∀ w ∈ (tables.create p.2 file db).2.1, Quiet w
    | some target => ∀ line errmsg, .insertFailed line errmsg ∈ (importFile target file db).1 →
      ¬ timeMark <:+: errmsg

def importStep (source : Text → Option Text) (tables : Tables D) (p : Text × Text) : Command D where
  line := importLine p
  quiet := importQuiet source tables p
  step db := ([], (importCommand source tables p.1 p.2 db).2.2)

/-- The commands of the session that loads: the statements of the schema, then the imports. -/
def Env.loadCommands (env : Env D) (tables : Tables D) (ddl : Script) : List (Command D) :=
  env.readCommand "sqlite-ddl.sql".toList ddl :: loads.map (importStep env.source tables)

def Env.loaded (env : Env D) (tables : Tables D) (ddl : Script) (db : D) : D :=
  (runCommands (env.loadCommands tables ddl) db).2

def Env.powered (env : Env D) (script : ℕ → Script) (db : D) : D :=
  (env.runAll (powerQueries script).flatten db).2

/-- The rows of `n` iterations from iteration `i` on. -/
def Env.expectedRows (env : Env D) (script : ℕ → Script) : ℕ → ℕ → D → List CsvLine
  | _, 0, _ => []
  | i, n + 1, db => csvRows i (env.querySums (powerQueries script) db) ++
      env.expectedRows script (i + 1) n (env.powered script db)

section Iterations

variable {env : Env D} {script : ℕ → Script} (hscript : env.HasQueries script) (console : Console)
  (name : Text)
include hscript

end Iterations

end TpchBench.Shell
