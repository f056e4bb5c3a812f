import TpchBench.Loader.Refresh

/-! # Orders and their line items

A refresh of new sales inserts orders and line items in lock step; a deletion removes
orders only. The reference from line items to orders therefore survives a sequence of
refreshes exactly if no deletion lists the key of a line item that is present.
-/

namespace TpchBench.Loader

open Sql Store

variable {V : Type*} {store : Affinity → Text → V}

def orderKeyColumn : Text := "O_ORDERKEY".toList
def lineitemKeyColumn : Text := "L_ORDERKEY".toList

/-- Both tables exist, with the order key as their first column. -/
structure HasOrderKeys (db : Database V) : Prop where
  orders : ∃ cols, db.columns ordersName = some (⟨orderKeyColumn, .integer⟩ :: cols)
  lineitem : ∃ cols, db.columns lineitemName = some (⟨lineitemKeyColumn, .integer⟩ :: cols)

def keys (db : Database V) (table : Text) : List V := (db.rows table).filterMap List.head?

/-- Every order key of a line item is the key of an order. -/
def ReferenceIntact (db : Database V) : Prop := ∀ k ∈ keys db lineitemName, k ∈ keys db ordersName

def keyValue (store : Affinity → Text → V) (line : Text) : V :=
  store .integer ((lineTokens line).headD [])

/-- The order key of every lineitem line occurs among the orders lines read so far. -/
def KeysInOrder (store : Affinity → Text → V) (lines : List (Text × Text)) : Prop :=
  ∀ k, ∀ hk : k < lines.length,
    keyValue store lines[k].2 ∈ (lines.take (k + 1)).map fun p => keyValue store p.1

def Call.IsRefresh (store : Affinity → Text → V) : Call → Prop
  | .loadTables _ => False
  | .refreshRF1 orders lineitem => (Call.refreshRF1 orders lineitem).Plain ∧
      ∀ o ∈ orders, ∀ l ∈ lineitem, KeysInOrder store (refreshLines o l)
  | .refreshRF2 delete => (Call.refreshRF2 delete).Plain

/-- A deletion lists no order key of a line item that is present. -/
def Call.SparesLineitems (store : Affinity → Text → V) (db : Database V) : Call → Prop
  | .refreshRF2 (some delete) => ∀ line ∈ fgetsAll maxLineLength delete,
      store .integer (deleteToken line) ∉ keys db lineitemName
  | _ => True

variable {db db' : Database V} {table column : Text} {cols : List Column}

theorem head_lineRow (hcols : db.columns table = some (⟨column, .integer⟩ :: cols)) {line : Text}
    (hne : lineTokens line ≠ []) (n : ℕ) :
    (lineRow store db table (n + 1) line).head? = some (keyValue store line) := by
  obtain ⟨t, ts, htoks⟩ := List.exists_cons_of_ne_nil hne
  rw [lineRow, keyValue, hcols, htoks]
  rfl

theorem filterMap_head_eq_map {α β : Type*} {f : α → List β} {g : α → β} {xs : List α}
    (h : ∀ x ∈ xs, (f x).head? = some (g x)) : (xs.map f).filterMap List.head? = xs.map g := by
  rw [List.filterMap_map, ← List.filterMap_eq_map]
  exact List.filterMap_congr h

theorem HasOrderKeys.of_columns_eq (h : HasOrderKeys db) (hc : db'.columns = db.columns) :
    HasOrderKeys db' := by
  obtain ⟨ho, hl⟩ := h
  rw [← hc] at ho hl
  exact ⟨ho, hl⟩

/-- The rows for pairs of lines add the keys of the lines in order. -/
theorem Refreshed.keys_eq (hk : HasOrderKeys db) {lines : List (Text × Text)}
    (h : Refreshed store lines db db') :
    HasOrderKeys db' ∧
      keys db' ordersName = keys db ordersName ++ lines.map (fun p => keyValue store p.1) ∧
      keys db' lineitemName = keys db lineitemName ++ lines.map (fun p => keyValue store p.2) := by
  obtain ⟨cols, ho⟩ := hk.orders
  obtain ⟨cols', hl⟩ := hk.lineitem
  refine ⟨hk.of_columns_eq h.columns, ?_, ?_⟩
  · rw [keys, h.orders, List.filterMap_append,
      filterMap_head_eq_map fun p hp => head_lineRow ho (h.tokens p hp).1 8]
    rfl
  · rw [keys, h.lineitem, List.filterMap_append,
      filterMap_head_eq_map fun p hp => head_lineRow hl (h.tokens p hp).2 15]
    rfl

variable [DecidableEq V]

theorem delete_keys (hcols : db.columns table = some (⟨column, .integer⟩ :: cols)) {value : Text}
    (h : db.delete store table column value = some db') :
    db'.columns = db.columns ∧
      (∀ x, x ∈ keys db' table ↔ x ∈ keys db table ∧ x ≠ store .integer value) ∧
      ∀ k, k ≠ table → keys db' k = keys db k := by
  obtain ⟨cols', i, c, hcols', hi, hc, hcolumns, hother, hrows⟩ := Database.delete_spec h
  obtain rfl := Option.some.inj (hcols.symm.trans hcols')
  obtain rfl : 0 = i := by simpa [List.findIdx?_cons] using hi
  obtain rfl := Option.some.inj hc
  refine ⟨hcolumns, fun x => ?_, fun k hk => ?_⟩
  · simp only [keys, hrows, List.mem_filterMap, List.mem_filter, decide_eq_true_eq,
      ← List.head?_eq_getElem?]
    constructor
    · rintro ⟨row, ⟨hrow, hne⟩, hx⟩
      exact ⟨⟨row, hrow, hx⟩, fun heq => hne (by rw [hx, heq])⟩
    · rintro ⟨⟨row, hrow, hx⟩, hne⟩
      refine ⟨row, ⟨hrow, fun heq => hne ?_⟩, hx⟩
      exact Option.some.inj (hx.symm.trans heq)
  · simp [keys, Database.rows, hother k hk]

theorem apply_deleteQuery {line : Text} (hkey : '\'' ∉ deleteToken line)
    (h : apply (sem store) db (deleteQuery line) = some db') :
    db.delete store ordersName orderKeyColumn (deleteToken line) = some db' := by
  obtain ⟨toks, hst, hd, hcut⟩ := statements_deleteQuery hkey
  rw [apply_single _ hst, sem_delete hd] at h
  obtain ⟨p, hp, h⟩ := Option.bind_eq_some_iff.mp h
  rcases hcut with rfl | hcut
  · have hparse : parseDelete (deleteTokens (deleteToken line)) =
        some (ordersName, orderKeyColumn, deleteToken line) := by
      have ho : upper "ORDERS".toList = ordersName := by decide
      have hk : upper "O_ORDERKEY".toList = orderKeyColumn := by decide
      rw [deleteTokens, parseDelete, if_pos (by decide), ho, hk]
    obtain rfl := Option.some.inj (hparse.symm.trans hp)
    exact h
  · obtain ⟨k, hk⟩ := parseDelete_literal hp
    exact absurd hk (hcut k)

/-- The loop of `refreshRF2` removes the orders it lists and no line items. -/
theorem delete_lines (hk : HasOrderKeys db) {lines : List Text} (hlines : ∀ l ∈ lines, '\'' ∉ l)
    (h : lines.foldlM (fun db line => apply (sem store) db (deleteQuery line)) db = some db') :
    HasOrderKeys db' ∧ keys db' lineitemName = keys db lineitemName ∧
      ∀ x, x ∈ keys db' ordersName ↔
        x ∈ keys db ordersName ∧ ∀ l ∈ lines, x ≠ store .integer (deleteToken l) := by
  have hne : lineitemName ≠ ordersName := by decide
  induction lines generalizing db with
  | nil =>
    obtain rfl := Option.some.inj h
    simpa using hk
  | cons l lines ih =>
    obtain ⟨hl, hlines⟩ := List.forall_mem_cons.mp hlines
    rw [List.foldlM_cons] at h
    obtain ⟨db₁, h₁, h⟩ := Option.bind_eq_some_iff.mp h
    obtain ⟨cols, hcols⟩ := hk.orders
    obtain ⟨hc₁, ho₁, hl₁⟩ := delete_keys hcols (apply_deleteQuery (deleteToken_plain hl) h₁)
    obtain ⟨hk', hl', ho'⟩ := ih (hk.of_columns_eq hc₁) hlines h
    refine ⟨hk', hl'.trans (hl₁ _ hne), fun x => ?_⟩
    rw [ho', ho₁, List.forall_mem_cons, and_assoc]

/-- A refresh that returned 1 keeps the reference exactly if it spares the line items. -/
theorem Call.IsRefresh.intact_iff {call : Call} (hcall : call.IsRefresh store)
    {s : Session (Database V)} (h : (call.run (sem store) s).1 = true)
    (hk : HasOrderKeys s.conn.durable) (hi : ReferenceIntact s.conn.durable) :
    HasOrderKeys (call.run (sem store) s).2.conn.durable ∧
      (ReferenceIntact (call.run (sem store) s).2.conn.durable ↔
        call.SparesLineitems store s.conn.durable) := by
  cases call with
  | loadTables dir => exact hcall.elim
  | refreshRF1 orders lineitem =>
    obtain ⟨hplain, horder⟩ := hcall
    cases orders with
    | none =>
      have heff := (hplain.atomic (sem store)).effect s h
      simp [Call.effect, Call.queries] at heff
    | some o =>
      cases lineitem with
      | none =>
        have heff := (hplain.atomic (sem store)).effect s h
        simp [Call.effect, Call.queries] at heff
      | some l =>
        obtain ⟨hk', ho', hl'⟩ :=
          (refreshRF1_refreshed (hplain.1 o rfl) (hplain.2 l rfl) h).keys_eq hk
        simp only [Call.run]
        refine ⟨hk', fun _ => trivial, fun _ k hkey => ?_⟩
        rw [hl'] at hkey
        rw [ho']
        rcases List.mem_append.mp hkey with hkey | hkey
        · exact List.mem_append_left _ (hi k hkey)
        · -- The line item was inserted now, and its order before it.
          obtain ⟨p, hp, rfl⟩ := List.mem_map.mp hkey
          obtain ⟨n, hn, rfl⟩ := List.mem_iff_getElem.mp hp
          have hsub : ((refreshLines o l).take (n + 1)).map (fun p => keyValue store p.1) ⊆
              (refreshLines o l).map (fun p => keyValue store p.1) :=
            ((List.take_sublist _ _).map _).subset
          exact List.mem_append_right _ (hsub (horder o rfl l rfl n hn))
  | refreshRF2 delete =>
    have hplain : (Call.refreshRF2 delete).Plain := hcall
    have heff := (hplain.atomic (sem store)).effect s h
    cases delete with
    | none => simp [Call.effect, Call.queries] at heff
    | some d =>
      rw [effect_refreshRF2] at heff
      obtain ⟨hk', hl', ho'⟩ := delete_lines hk
        (fun line hline => fgetsAll_plain (hcall d rfl) hline) heff
      refine ⟨hk', ?_⟩
      simp only [ReferenceIntact, hl', ho', Call.SparesLineitems]
      constructor
      · intro hall line hline hkey
        exact (hall _ hkey).2 line hline rfl
      · intro hspare k hkey
        refine ⟨hi k hkey, ?_⟩
        rintro line hline rfl
        exact hspare line hline hkey

def contentsAfter (store : Affinity → Text → V) (calls : List Call) (i : ℕ)
    (s : Session (Database V)) : Database V :=
  (sessionAfter (calls.map (Call.run (sem store))) i s).conn.durable

/-- In a sequence of refreshes that all returned 1 the reference is intact after every call
if and only if every deletion spares the line items that it finds. -/
theorem refreshes_intact_iff {calls : List Call} (hcalls : ∀ call ∈ calls, call.IsRefresh store)
    {s : Session (Database V)}
    (hall : ∀ b ∈ (runCalls (calls.map (Call.run (sem store))) s).1, b = true)
    (hk : HasOrderKeys s.conn.durable) (hi : ReferenceIntact s.conn.durable) :
    (∀ i ≤ calls.length, ReferenceIntact (contentsAfter store calls i s)) ↔
      ∀ i, ∀ h : i < calls.length,
        calls[i].SparesLineitems store (contentsAfter store calls i s) := by
  have hstep : ∀ i, ∀ h : i < calls.length, HasOrderKeys (contentsAfter store calls i s) →
      ReferenceIntact (contentsAfter store calls i s) →
      HasOrderKeys (contentsAfter store calls (i + 1) s) ∧
        (ReferenceIntact (contentsAfter store calls (i + 1) s) ↔
          calls[i].SparesLineitems store (contentsAfter store calls i s)) := by
    intro i h hk hi
    have hget : (calls.map (Call.run (sem store)))[i]? = some (calls[i].run (sem store)) := by
      simp [h]
    have hret := runCalls_all_true hall hget
    have hsucc := sessionAfter_succ hget s
    have := (hcalls _ (List.getElem_mem h)).intact_iff hret hk hi
    rwa [← hsucc] at this
  constructor
  · intro hint i h
    have hkeys : ∀ j ≤ calls.length, HasOrderKeys (contentsAfter store calls j s) := by
      intro j hj
      induction j with
      | zero => exact hk
      | succ j ih => exact (hstep j hj (ih (by omega)) (hint j (by omega))).1
    exact (hstep i h (hkeys i (by omega)) (hint i (by omega))).2.mp (hint (i + 1) h)
  · intro hspare
    have hboth : ∀ i ≤ calls.length, HasOrderKeys (contentsAfter store calls i s) ∧
        ReferenceIntact (contentsAfter store calls i s) := by
      intro i h
      induction i with
      | zero => exact ⟨hk, hi⟩
      | succ i ih =>
        obtain ⟨ihk, ihi⟩ := ih (by omega)
        obtain ⟨hk', hiff⟩ := hstep i h ihk ihi
        exact ⟨hk', hiff.mpr (hspare i h)⟩
    exact fun i h => (hboth i h).2

instance (db : Database V) : Decidable (ReferenceIntact db) :=
  inferInstanceAs (Decidable (∀ k ∈ keys db lineitemName, k ∈ keys db ordersName))

def newOrders : Text := "1|7|O|9.5|1996-01-02|5-LOW|Clerk|0|c|\n".toList

def newLineitems : Text :=
  "1|2|3|1|17|21|0|0|N|O|1996-03-13|1996-02-12|1996-03-22|PERSON|TRUCK|c|\n".toList

def insertThenDelete : List Call :=
  [.refreshRF1 (some newOrders) (some newLineitems), .refreshRF2 (some "1|\n".toList)]

theorem isRefresh_insertThenDelete :
    ∀ call ∈ insertThenDelete, call.IsRefresh plainStore := by
  intro call hcall
  rcases List.mem_pair.mp hcall with rfl | rfl
  · refine ⟨⟨?_, ?_⟩, ?_⟩
    · intro file hfile
      obtain rfl := Option.some.inj hfile
      decide
    · intro file hfile
      obtain rfl := Option.some.inj hfile
      decide
    · intro o ho l hl
      obtain rfl := Option.some.inj ho
      obtain rfl := Option.some.inj hl
      unfold KeysInOrder
      decide +kernel
  · intro file hfile
    obtain rfl := Option.some.inj hfile
    decide

theorem insertThenDelete_returns :
    ∀ b ∈ (runCalls (insertThenDelete.map (Call.run (sem plainStore))) createdSession).1,
      b = true := by
  decide +kernel

theorem hasOrderKeys_createdSession : HasOrderKeys createdSession.conn.durable := by
  have hhead : ∀ {key : Text} {c : Column}, (createdColumns key).bind List.head? = some c →
      ∃ cols, createdColumns key = some (c :: cols) := by
    intro key c h
    obtain ⟨cols, hcols, hc⟩ := Option.bind_eq_some_iff.mp h
    obtain ⟨rest, rfl⟩ := List.head?_eq_some_iff.mp hc
    exact ⟨rest, hcols⟩
  constructor
  · rw [createdSession_columns]
    exact hhead (by decide +kernel)
  · rw [createdSession_columns]
    exact hhead (by decide +kernel)

theorem refreshes_intact_iff_deleted :
    (∀ i ≤ 2, ReferenceIntact (contentsAfter plainStore insertThenDelete i createdSession)) ↔
      ∀ i, ∀ h : i < 2, insertThenDelete[i].SparesLineitems plainStore
        (contentsAfter plainStore insertThenDelete i createdSession) :=
  refreshes_intact_iff isRefresh_insertThenDelete insertThenDelete_returns
    hasOrderKeys_createdSession (by decide +kernel)

/-- The line item is left without its order. -/
theorem not_refreshes_intact_deleted :
    (∀ call ∈ insertThenDelete, call.IsRefresh plainStore) ∧
      (∀ b ∈ (runCalls (insertThenDelete.map (Call.run (sem plainStore))) createdSession).1,
        b = true) ∧
      HasOrderKeys createdSession.conn.durable ∧ ReferenceIntact createdSession.conn.durable ∧
      ¬ ∀ i ≤ insertThenDelete.length,
        ReferenceIntact (contentsAfter plainStore insertThenDelete i createdSession) := by
  refine ⟨isRefresh_insertThenDelete, insertThenDelete_returns, hasOrderKeys_createdSession,
    by decide +kernel, fun h => ?_⟩
  exact absurd (h 2 (by decide)) (by decide +kernel)

end TpchBench.Loader
