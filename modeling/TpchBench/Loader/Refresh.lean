import TpchBench.Loader.Buffers
import TpchBench.Loader.Format

/-! # New sales

`refreshRF1` reads its two files in lock step, one line of each in every round, and stops
when one of them ends. A line read without a partner and the rest of the longer file are
dropped, so all new sales are inserted exactly if both files have the same number of lines.
-/

namespace TpchBench.Loader

open Sql Store

variable {V : Type*} {store : Affinity → Text → V}

def lineRow (store : Affinity → Text → V) (db : Database V) (table : Text) (n : ℕ)
    (line : Text) : List V :=
  storeRow store ((db.columns table).getD []) ((lineTokens line).take n)

def newRows (store : Affinity → Text → V) (db : Database V) (table : Text)
    (records : List (List Text)) : List (List V) :=
  records.map (storeRow store ((db.columns table).getD []))

variable {db db' : Database V} {table : Text}

theorem insert_rows {n : ℕ} {line : Text}
    (h : db.insert store table ((lineTokens line).take n) = some db') :
    db'.columns = db.columns ∧ ∀ k, db'.rows k =
      db.rows k ++ if k = table then [lineRow store db table n line] else [] := by
  obtain ⟨cols, hcols, -, hc, hr⟩ := Database.insert_spec h
  refine ⟨hc, fun k => ?_⟩
  rw [hr k, lineRow, hcols, Option.getD_some]

theorem lineRow_recordLine {n : ℕ} {r : List Text} (hf : ∀ f ∈ r, IsField f)
    (hn : r.length = n) :
    lineRow store db table n (recordLine r ++ ['\n']) =
      storeRow store ((db.columns table).getD []) r := by
  rw [lineRow, lineTokens_recordLine hf, ← hn, List.take_left]

/-- Both tables have a new row for each pair of lines, in order. -/
structure Refreshed (store : Affinity → Text → V) (lines : List (Text × Text))
    (db db' : Database V) : Prop where
  columns : db'.columns = db.columns
  tokens : ∀ p ∈ lines, lineTokens p.1 ≠ [] ∧ lineTokens p.2 ≠ []
  orders : db'.rows ordersName =
    db.rows ordersName ++ lines.map fun p => lineRow store db ordersName 9 p.1
  lineitem : db'.rows lineitemName =
    db.rows lineitemName ++ lines.map fun p => lineRow store db lineitemName 16 p.2

theorem Refreshed.nil (store : Affinity → Text → V) (db : Database V) :
    Refreshed store [] db db where
  columns := rfl
  tokens := by simp
  orders := by simp
  lineitem := by simp

theorem Refreshed.cons {p : Text × Text} {lines : List (Text × Text)} {db₁ : Database V}
    (h₁ : Refreshed store [p] db db₁) (h : Refreshed store lines db₁ db') :
    Refreshed store (p :: lines) db db' where
  columns := h.columns.trans h₁.columns
  tokens := List.forall_mem_cons.mpr ⟨h₁.tokens p List.mem_cons_self, h.tokens⟩
  orders := by
    rw [h.orders, h₁.orders, List.append_assoc]
    simp only [lineRow, h₁.columns, List.map_cons, List.map_nil, List.singleton_append]
  lineitem := by
    rw [h.lineitem, h₁.lineitem, List.append_assoc]
    simp only [lineRow, h₁.columns, List.map_cons, List.map_nil, List.singleton_append]

variable [DecidableEq V]

theorem refreshed_round {p : Text × Text} (hp : '\'' ∉ p.1 ∧ '\'' ∉ p.2)
    (h : (apply (sem store) db (ordersQuery p.1)).bind
      (fun db => apply (sem store) db (lineitemQuery p.2)) = some db') :
    Refreshed store [p] db db' := by
  have hne : ordersName ≠ lineitemName := by decide
  obtain ⟨db₁, ho, hl⟩ := Option.bind_eq_some_iff.mp h
  obtain ⟨ht₁, ho⟩ := insert_of_apply (by decide) (by decide) isNameChar_ordersName hp.1 ho
  obtain ⟨ht₂, hl⟩ := insert_of_apply (by decide) (by decide) isNameChar_lineitemName hp.2 hl
  obtain ⟨hc₁, hr₁⟩ := insert_rows ho
  obtain ⟨hc₂, hr₂⟩ := insert_rows hl
  refine ⟨hc₂.trans hc₁, by simp [ht₁, ht₂], ?_, ?_⟩
  · rw [hr₂, if_neg hne, List.append_nil, hr₁, if_pos rfl]
    rfl
  · rw [hr₂, if_pos rfl, hr₁, if_neg hne.symm, List.append_nil, lineRow, hc₁]
    rfl

/-- The loop adds a row for each pair of lines that it reads. -/
theorem refreshed_lines {lines : List (Text × Text)}
    (hlines : ∀ p ∈ lines, '\'' ∉ p.1 ∧ '\'' ∉ p.2)
    (h : lines.foldlM (fun db p => (apply (sem store) db (ordersQuery p.1)).bind
      fun db => apply (sem store) db (lineitemQuery p.2)) db = some db') :
    Refreshed store lines db db' := by
  induction lines generalizing db with
  | nil =>
    obtain rfl := Option.some.inj h
    exact Refreshed.nil store db
  | cons p lines ih =>
    obtain ⟨hp, hlines⟩ := List.forall_mem_cons.mp hlines
    rw [List.foldlM_cons] at h
    obtain ⟨db₁, h₁, h⟩ := Option.bind_eq_some_iff.mp h
    exact (refreshed_round hp h₁).cons (ih hlines h)

theorem refreshRF1_refreshed {orders lineitem : Text} (ho : '\'' ∉ orders) (hl : '\'' ∉ lineitem)
    {s : Session (Database V)}
    (h : (refreshRF1 (sem store) (some orders) (some lineitem) s).1 = true) :
    Refreshed store (refreshLines orders lineitem) s.conn.durable
      (refreshRF1 (sem store) (some orders) (some lineitem) s).2.conn.durable := by
  have hplain : (Call.refreshRF1 (some orders) (some lineitem)).Plain := by
    constructor
    · rintro _ ⟨⟩
      exact ho
    · rintro _ ⟨⟩
      exact hl
  have heff := (hplain.atomic (sem store)).effect s h
  rw [effect_refreshRF1] at heff
  exact refreshed_lines (refreshLines_plain ho hl) heff

variable {orders lineitems : List (List Text)}

theorem refreshRF1_rows (ho : IsTbl 9 orders) (hl : IsTbl 16 lineitems)
    {s : Session (Database V)}
    (h : (refreshRF1 (sem store) (some (tblFile orders)) (some (tblFile lineitems)) s).1 = true) :
    (refreshRF1 (sem store) (some (tblFile orders))
          (some (tblFile lineitems)) s).2.conn.close.rows ordersName =
        s.conn.durable.rows ordersName ++ newRows store s.conn.durable ordersName
          ((orders.zip lineitems).map Prod.fst) ∧
      (refreshRF1 (sem store) (some (tblFile orders))
          (some (tblFile lineitems)) s).2.conn.close.rows lineitemName =
        s.conn.durable.rows lineitemName ++ newRows store s.conn.durable lineitemName
          ((orders.zip lineitems).map Prod.snd) := by
  have hrows := refreshRF1_refreshed ho.noQuote hl.noQuote h
  have hzip : refreshLines (tblFile orders) (tblFile lineitems) =
      (orders.zip lineitems).map
        (Prod.map (fun r => recordLine r ++ ['\n']) fun r => recordLine r ++ ['\n']) := by
    rw [refreshLines, ho.fgetsAll_eq, hl.fgetsAll_eq, List.zip_map]
  constructor
  · rw [Conn.close]
    refine hrows.orders.trans ?_
    rw [hzip, newRows, List.map_map, List.map_map]
    congr 1
    apply List.map_congr_left
    rintro ⟨o, l⟩ hp
    obtain ⟨hmem, -⟩ := List.of_mem_zip hp
    exact lineRow_recordLine (ho.fields o hmem) (ho.length o hmem)
  · rw [Conn.close]
    refine hrows.lineitem.trans ?_
    rw [hzip, newRows, List.map_map, List.map_map]
    congr 1
    apply List.map_congr_left
    rintro ⟨o, l⟩ hp
    obtain ⟨-, hmem⟩ := List.of_mem_zip hp
    exact lineRow_recordLine (hl.fields l hmem) (hl.length l hmem)

/-- A refresh that returned 1 has inserted one row for each line of both files if and only if
the files have the same number of lines. -/
theorem refreshRF1_exact_iff (ho : IsTbl 9 orders) (hl : IsTbl 16 lineitems)
    {s : Session (Database V)}
    (h : (refreshRF1 (sem store) (some (tblFile orders)) (some (tblFile lineitems)) s).1 = true) :
    ((refreshRF1 (sem store) (some (tblFile orders))
          (some (tblFile lineitems)) s).2.conn.close.rows ordersName =
        s.conn.durable.rows ordersName ++ newRows store s.conn.durable ordersName orders ∧
      (refreshRF1 (sem store) (some (tblFile orders))
          (some (tblFile lineitems)) s).2.conn.close.rows lineitemName =
        s.conn.durable.rows lineitemName ++
          newRows store s.conn.durable lineitemName lineitems) ↔
      orders.length = lineitems.length := by
  obtain ⟨hro, hrl⟩ := refreshRF1_rows ho hl h
  rw [hro, hrl, List.append_cancel_left_eq, List.append_cancel_left_eq]
  constructor
  · rintro ⟨h1, h2⟩
    have h1 := congrArg List.length h1
    have h2 := congrArg List.length h2
    simp only [newRows, List.length_map, List.length_zip] at h1 h2
    omega
  · intro hlen
    rw [List.map_fst_zip hlen.le, List.map_snd_zip hlen.ge]
    exact ⟨rfl, rfl⟩

def newOrder : List Text :=
  ["1", "7", "O", "n/a", "1996-01-02", "5-LOW", "Clerk", "0", "c"].map String.toList

def newItem (number : String) : List Text :=
  ["1", "2", "3", number, "n/a", "n/a", "n/a", "n/a", "N", "O", "1996-03-13", "1996-02-12",
    "1996-03-22", "NONE", "RAIL", "c"].map String.toList

theorem isTbl_newOrder : IsTbl 9 [newOrder] where
  fields r hr f hf := by
    have h : ∀ r ∈ [newOrder], ∀ f ∈ r,
        f ≠ [] ∧ '|' ∉ f ∧ '\n' ∉ f ∧ '\x00' ∉ f ∧ '\'' ∉ f := by decide
    exact isField_of_and (h r hr f hf)
  length := by decide
  fits := by decide

theorem isTbl_newItems : IsTbl 16 [newItem "1", newItem "2"] where
  fields r hr f hf := by
    have h : ∀ r ∈ [newItem "1", newItem "2"], ∀ f ∈ r,
        f ≠ [] ∧ '|' ∉ f ∧ '\n' ∉ f ∧ '\x00' ∉ f ∧ '\'' ∉ f := by decide
    exact isField_of_and (h r hr f hf)
  length := by decide
  fits := by decide

def newSale : Bool × Session (Database Value) :=
  refreshRF1 (sem plainStore) (some (tblFile [newOrder]))
    (some (tblFile [newItem "1", newItem "2"])) createdSession

theorem refreshRF1_exact_iff_newSale :
    newSale.1 = true ∧
      ((newSale.2.conn.close.rows ordersName = createdSession.conn.durable.rows ordersName ++
            newRows plainStore createdSession.conn.durable ordersName [newOrder] ∧
        newSale.2.conn.close.rows lineitemName = createdSession.conn.durable.rows lineitemName ++
            newRows plainStore createdSession.conn.durable lineitemName
              [newItem "1", newItem "2"]) ↔
        [newOrder].length = [newItem "1", newItem "2"].length) := by
  have h : newSale.1 = true := by decide +kernel
  refine ⟨h, ?_⟩
  unfold newSale at h ⊢
  exact refreshRF1_exact_iff isTbl_newOrder isTbl_newItems h

/-- The second item is lost, though the refresh returns 1. -/
theorem not_refreshRF1_exact_newSale :
    IsTbl 9 [newOrder] ∧ IsTbl 16 [newItem "1", newItem "2"] ∧ newSale.1 = true ∧
      ¬ (newSale.2.conn.close.rows ordersName = createdSession.conn.durable.rows ordersName ++
            newRows plainStore createdSession.conn.durable ordersName [newOrder] ∧
        newSale.2.conn.close.rows lineitemName = createdSession.conn.durable.rows lineitemName ++
            newRows plainStore createdSession.conn.durable lineitemName
              [newItem "1", newItem "2"]) := by
  refine ⟨isTbl_newOrder, isTbl_newItems, by decide +kernel, fun h => ?_⟩
  exact absurd h.2 (by decide +kernel)

end TpchBench.Loader
