import TpchBench.Loader.Tables
import Mathlib.Data.List.Perm.Basic

/-! # The order of the directory entries

Whether a statement of `loadTables` is accepted depends on the statement and the columns
of the tables only, so the order in which `readdir` lists the files changes neither the
result nor the rows up to their order.
-/

namespace TpchBench.Loader

open Sql Store

variable {V : Type*} [DecidableEq V] {store : Affinity → Text → V}
  {fopen : Text → Option Text} {names names' : List Text}

theorem readable_perm (h : names.Perm names') :
    readable ⟨some names, fopen⟩ names = readable ⟨some names', fopen⟩ names' :=
  h.all_eq

theorem loadStatements_perm (h : names.Perm names') :
    (loadStatements ⟨some names, fopen⟩ names).Perm (loadStatements ⟨some names', fopen⟩ names') :=
  h.flatMap_right _

/-- On the tables made by `createTables`, two listings of the same entries give the same
result and, if it is 1, the same rows up to order. -/
theorem loadTables_perm (h : names.Perm names')
    (hnames : ∀ name ∈ names, ∀ c ∈ name, isNameChar c)
    (hfiles : ∀ name ∈ names, ∀ file ∈ fopen (filepath name), '\'' ∉ file)
    {s : Session (Database V)}
    (hs : s.conn = Conn.connect Database.empty) (hu : s.Undisturbed) :
    (loadTables (sem store) ⟨some names, fopen⟩ (createTables s).2).1 =
        (loadTables (sem store) ⟨some names', fopen⟩ (createTables s).2).1 ∧
      ((loadTables (sem store) ⟨some names, fopen⟩ (createTables s).2).1 = true → ∀ k,
        ((loadTables (sem store) ⟨some names, fopen⟩ (createTables s).2).2.conn.close.rows k).Perm
          ((loadTables (sem store) ⟨some names', fopen⟩
            (createTables s).2).2.conn.close.rows k)) := by
  have hplain : ∀ name ∈ names, Directory.PlainEntry ⟨some names, fopen⟩ name :=
    fun name hname => Directory.plainEntry_of_name (hnames name hname) (hfiles name hname)
  have hplain' : ∀ name ∈ names', Directory.PlainEntry ⟨some names', fopen⟩ name :=
    fun name hname => hplain name (h.mem_iff.mpr hname)
  have hpend : (createTables s).2.conn.pending = none :=
    (createTables_rows (by rw [hs]; rfl)).1
  have hrest := createTables_undisturbed hu
  have heq : (loadTables (sem store) ⟨some names, fopen⟩ (createTables s).2).1 =
      (loadTables (sem store) ⟨some names', fopen⟩ (createTables s).2).1 := by
    rw [loadTables_returns rfl hplain hpend hrest, loadTables_returns rfl hplain' hpend hrest,
      readable_perm h, (loadStatements_perm h).all_eq]
  refine ⟨heq, fun h1 k => ?_⟩
  have hrows := (loadTables_rows rfl hplain h1).2.2 k
  have hrows' := (loadTables_rows rfl hplain' (heq ▸ h1)).2.2 k
  rw [Conn.close, Conn.close, hrows, hrows']
  exact ((loadStatements_perm h).flatMap_right _).append_left _

def twoRegionFiles : List Text := ["region.tbl".toList, "Region.tbl2".toList]

def twoRegionTexts (path : Text) : Option Text :=
  if path = filepath "region.tbl".toList then some "0|A|x|\n1|B|y|\n".toList
  else some "2|C|z|\n3|D|w|\n".toList

theorem loadTables_perm_regions :
    (loadTables (sem plainStore) ⟨some twoRegionFiles, twoRegionTexts⟩
        (createTables newSession).2).1 = true ∧
      ((loadTables (sem plainStore) ⟨some twoRegionFiles, twoRegionTexts⟩
          (createTables newSession).2).1 =
          (loadTables (sem plainStore) ⟨some twoRegionFiles.reverse, twoRegionTexts⟩
            (createTables newSession).2).1 ∧
        ((loadTables (sem plainStore) ⟨some twoRegionFiles, twoRegionTexts⟩
            (createTables newSession).2).1 = true → ∀ k,
          ((loadTables (sem plainStore) ⟨some twoRegionFiles, twoRegionTexts⟩
              (createTables newSession).2).2.conn.close.rows k).Perm
            ((loadTables (sem plainStore) ⟨some twoRegionFiles.reverse, twoRegionTexts⟩
              (createTables newSession).2).2.conn.close.rows k))) := by
  have hnames : twoRegionFiles.all fun name => name.all isNameChar := by decide
  refine ⟨by decide +kernel, loadTables_perm (List.reverse_perm _).symm
    (fun name hname => List.all_eq_true.mp (List.all_eq_true.mp hnames name hname)) ?_ rfl
    fun _ => rfl⟩
  intro name _ file hfile
  unfold twoRegionTexts at hfile
  split at hfile
  · obtain rfl := Option.some.inj hfile
    decide
  · obtain rfl := Option.some.inj hfile
    decide

end TpchBench.Loader
