import Mathlib.Data.List.Basic
import Mathlib.Tactic.Common

/-! # The scripts that prepare and launch the systems

`main.sh` keeps one database for each scale factor in `TPCH-sqlite` and hands the
data on to three systems: unikraft boots with a database in its `rootfs`, nanos
copies the database in the root of the checkout, and OSv imports the `.tbl` files
that were built into its image.
-/

namespace TpchBench.Pipeline

variable {σ : Type} [DecidableEq σ]

inductive Origin (σ : Type) where
  | madeAt (scale : σ)
  | shipped
  deriving DecidableEq, Repr

/-- The files and file groups the scripts test, write or copy. The `.tbl` files of a
directory are only ever written, removed and copied together. -/
inductive Path (σ : Type) where
  | tpchSqlite
  | tpchDb
  | tpchDbOf (scale : σ)
  | tpchDbgenTbl
  | rootDb
  | tablesTbl
  | rootfsDbOf (scale : σ)
  | rootfsQueries
  | nanosDb
  | nanosTables
  | osvTbl
  | osvImageTbl
  deriving DecidableEq, Repr

abbrev Files (σ : Type) := Path σ → Option (Origin σ)

namespace Files

def write (fs : Files σ) (p : Path σ) (o : Origin σ) : Files σ := Function.update fs p (some o)

def rm (fs : Files σ) (p : Path σ) : Files σ := Function.update fs p none

/-- `cp src dst` leaves the target alone when there is no source. -/
def cp (fs : Files σ) (src dst : Path σ) : Files σ :=
  match fs src with
  | none => fs
  | some o => fs.write dst o

def mv (fs : Files σ) (src dst : Path σ) : Files σ :=
  match fs src with
  | none => fs
  | some o => (fs.write dst o).rm src

def rmRootfsDbs (fs : Files σ) : Files σ
  | .rootfsDbOf _ => none
  | p => fs p

end Files

inductive Test where
  | power
  | boot
  deriving DecidableEq, Repr

structure Invocation (σ : Type) where
  dbgenSize : σ
  test : Test
  deriving DecidableEq, Repr

/-- A checkout: its files, and the database that the `cmd` of the Kraftfile opens. -/
structure Checkout (σ : Type) where
  files : Files σ
  kraftDb : Option σ

/-- The data that the three systems of a power test run on. -/
structure Launch (σ : Type) where
  unikraft : Option (Origin σ)
  nanos : Option (Origin σ)
  osv : Option (Origin σ)
  deriving DecidableEq, Repr

/-- `SCALE_FACTOR=s make` in the cloned project. -/
def make (fs : Files σ) (s : σ) : Files σ :=
  (fs.write .tpchDb (.madeAt s)).write .tpchDbgenTbl (.madeAt s)

/-- The database cache of `main.sh`. -/
def database (fs : Files σ) (s : σ) : Files σ :=
  if fs .tpchSqlite = none then
    let fs := make (fs.write .tpchSqlite .shipped) s
    let fs := (fs.cp .tpchDb .rootDb).cp .tpchDbgenTbl .tablesTbl
    fs.mv .tpchDb (.tpchDbOf s)
  else if fs (.tpchDbOf s) = none then
    let fs := make (fs.rm .tpchDbgenTbl) s
    fs.mv .tpchDb (.tpchDbOf s)
  else fs

def unikraftGenerateKernel (c : Checkout σ) (inv : Invocation σ) : Checkout σ :=
  match inv.test with
  | .power =>
    let fs :=
      if c.files (.rootfsDbOf inv.dbgenSize) = none then
        (c.files.rmRootfsDbs).cp (.tpchDbOf inv.dbgenSize) (.rootfsDbOf inv.dbgenSize)
      else c.files
    let fs := if fs .rootfsQueries = none then fs.write .rootfsQueries .shipped else fs
    { files := fs, kraftDb := some inv.dbgenSize }
  | .boot =>
    let fs := if c.files .rootfsQueries = none then c.files else c.files.rm .rootfsQueries
    { files := fs, kraftDb := none }

/-- `osv/generate-kernel.sh`: only the manifest of the power test puts `.tbl` files into
the image. -/
def osvGenerateKernel (fs : Files σ) (inv : Invocation σ) : Files σ :=
  match inv.test with
  | .power => (fs.cp .tpchDbgenTbl .osvTbl).cp .osvTbl .osvImageTbl
  | .boot => fs.rm .osvImageTbl

/-- The copies `nanos/benchmark.sh` and `nanos/measure-boot-time.sh` start with. -/
def nanosCopy (fs : Files σ) : Files σ := (fs.cp .tablesTbl .nanosTables).cp .rootDb .nanosDb

def nanosCleanUp (fs : Files σ) : Files σ := (fs.rm .nanosDb).rm .nanosTables

/-- One invocation of `main.sh`, with what a power test launches. -/
def main (c : Checkout σ) (inv : Invocation σ) : Checkout σ × Option (Launch σ) :=
  let c := { c with files := database c.files inv.dbgenSize }
  let c := unikraftGenerateKernel c inv
  let c := { c with files := osvGenerateKernel c.files inv }
  let nanos := nanosCopy c.files
  let launch : Launch σ :=
    { unikraft := c.kraftDb.bind fun s => c.files (.rootfsDbOf s)
      nanos := nanos .nanosDb
      osv := c.files .osvImageTbl }
  ({ c with files := nanosCleanUp nanos }, if inv.test = .power then some launch else none)

def cleanCheckout : Checkout σ where
  files
    | .osvTbl => some .shipped
    | _ => none
  kraftDb := none

def mainRun (c : Checkout σ) : List (Invocation σ) → Checkout σ × List (Option (Launch σ))
  | [] => (c, [])
  | inv :: invs =>
    let (c', l) := main c inv
    let (c'', ls) := mainRun c' invs
    (c'', l :: ls)

end TpchBench.Pipeline
