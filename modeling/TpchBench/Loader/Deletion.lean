import TpchBench.Loader.Reference
import Mathlib.Data.Finset.Dedup
import Mathlib.Data.Finset.Lattice.Lemmas

/-! # Deletions

`refreshRF2` deletes the orders whose keys stand at the beginnings of the lines. The single
deletions compose to one filter of the rows, which depends on the set of the keys only. Lines
that do not fit into the buffer are read in pieces, and each piece counts as a line.
-/

namespace TpchBench.Loader

open Sql Store Python

def unsigned : Text → Text
  | '-' :: digits => digits
  | digits => digits

def keyNumber : Text → ℤ
  | '-' :: digits => -(digitsValue digits : ℤ)
  | digits => digitsValue digits

def IsKey (key : Text) : Prop :=
  IsDigits (unsigned key) ∧ -2 ^ 63 ≤ keyNumber key ∧ keyNumber key < 2 ^ 63

instance (key : Text) : Decidable (IsKey key) := inferInstanceAs (Decidable (_ ∧ _))

/-- The characters of a line up to the first separator or the end of the line. -/
def lineKey (line : Text) : Text := line.takeWhile fun c => c ≠ '|' && c ≠ '\n'

def listedKeys (file : Text) : Finset ℤ :=
  ((splitLines file).map fun line => keyNumber (lineKey line)).toFinset

theorem IsKey.mem {key : Text} (h : IsKey key) {c : Char} (hc : c ∈ key) :
    c = '-' ∨ c.isDigit := by
  have hdigits := h.1.isDigit
  unfold unsigned at hdigits
  split at hdigits
  · rcases List.mem_cons.mp hc with rfl | hc
    · exact Or.inl rfl
    · exact Or.inr (hdigits c hc)
  · exact Or.inr (hdigits c hc)

theorem IsKey.not_mem {key : Text} (h : IsKey key) {c : Char} (hc : c ≠ '-')
    (hd : c.isDigit = false) : c ∉ key := by
  intro hmem
  rcases h.mem hmem with rfl | hdigit
  · exact hc rfl
  · rw [hd] at hdigit
    exact Bool.false_ne_true hdigit

theorem IsKey.ne_nil {key : Text} (h : IsKey key) : key ≠ [] := by
  rintro rfl
  exact h.1.1 rfl

theorem lineKey_append {file line : Text} (hline : line ∈ splitLines file) :
    ∃ rest, lineKey line ++ rest = line ∧
      (rest = [] ∨ rest = ['\n'] ∨ ∃ r, rest = '|' :: r) := by
  refine ⟨_, List.takeWhile_append_dropWhile, ?_⟩
  obtain ⟨l, hl, hcases⟩ := of_mem_splitLines hline
  cases hrest : line.dropWhile (fun c => c ≠ '|' && c ≠ '\n') with
  | nil => exact Or.inl rfl
  | cons c rest =>
    right
    have hne : line.dropWhile (fun c => c ≠ '|' && c ≠ '\n') ≠ [] := by
      rw [hrest]
      exact List.cons_ne_nil c rest
    have hc := List.head_dropWhile_not (fun c => c ≠ '|' && c ≠ '\n') hne
    simp only [hrest, List.head_cons, Bool.and_eq_false_iff, decide_eq_false_iff_not, not_not]
      at hc
    rcases hc with rfl | rfl
    · exact Or.inr ⟨rest, rfl⟩
    · -- The newline of a line is its last character.
      left
      have hsuf : '\n' :: rest <:+ line := hrest ▸ List.dropWhile_suffix _
      rcases hcases with rfl | rfl
      · exact absurd (hsuf.subset List.mem_cons_self) hl
      · rcases List.suffix_concat_iff.mp hsuf with h | ⟨t, ht, hsuf⟩
        · simp at h
        · cases t with
          | nil => exact ht
          | cons d t =>
            obtain ⟨rfl, -⟩ := List.cons.inj ht
            exact absurd (hsuf.subset List.mem_cons_self) hl

/-- The token of a line is its key, with the newline if nothing stands between them. -/
theorem deleteToken_line {file line : Text} (hline : line ∈ splitLines file)
    (hkey : IsKey (lineKey line)) :
    ∃ blanks, (∀ c ∈ blanks, isSpace c) ∧ deleteToken line = lineKey line ++ blanks := by
  obtain ⟨rest, hsplit, hrest⟩ := lineKey_append hline
  generalize lineKey line = key at hkey hsplit ⊢
  subst hsplit
  have hnul : '\x00' ∉ key := hkey.not_mem (by decide) (by decide)
  have hpipe : '|' ∉ key := hkey.not_mem (by decide) (by decide)
  have hcstr : cstr (key ++ rest) = key ++ cstr rest :=
    List.takeWhile_append_of_pos fun c hc => decide_eq_true (ne_of_mem_of_not_mem hc hnul)
  rw [deleteToken, lineTokens, hcstr]
  rcases hrest with rfl | rfl | ⟨r, rfl⟩
  · refine ⟨[], by simp, ?_⟩
    have hnil : key ++ cstr [] = key := List.append_nil key
    rw [hnil, tokens_last hkey.ne_nil hpipe, List.append_nil]
    rfl
  · refine ⟨['\n'], List.all_eq_true.mp rfl, ?_⟩
    have hnl : cstr ['\n'] = ['\n'] := rfl
    have hpipe' : '|' ∉ key ++ ['\n'] := by simpa using hpipe
    rw [hnl, tokens_last (by simp) hpipe']
    rfl
  · refine ⟨[], by simp, ?_⟩
    have hbar : cstr ('|' :: r) = '|' :: cstr r := rfl
    rw [hbar, tokens_field hkey.ne_nil hpipe, List.append_nil]
    rfl

theorem deleteToken_noQuote {file line : Text} (hline : line ∈ splitLines file)
    (hkey : IsKey (lineKey line)) : '\'' ∉ deleteToken line := by
  obtain ⟨blanks, hblanks, htoken⟩ := deleteToken_line hline hkey
  rw [htoken, List.mem_append, not_or]
  exact ⟨hkey.not_mem (by decide) (by decide), fun hq => absurd (hblanks _ hq) (by decide)⟩

variable {V : Type*} {store : Affinity → Text → V} {ofInt : ℤ → V} {db db' : Database V}

/-- An integer column converts decimal texts, ignoring blanks at their ends. -/
structure ConvertsKeys (store : Affinity → Text → V) (ofInt : ℤ → V) : Prop where
  integer : ∀ key blanks, IsKey key → (∀ c ∈ blanks, isSpace c) →
    store .integer (key ++ blanks) = ofInt (keyNumber key)

def HasIntegerKey (db : Database V) : Prop :=
  ∀ cols ∈ db.columns ordersName, ∀ c ∈ cols, c.name = orderKeyColumn → c.affinity = .integer

def orderKey (db : Database V) (row : List V) : Option V :=
  ((db.columns ordersName).bind (·.findIdx? (·.name = orderKeyColumn))).bind (row[·]?)

theorem HasIntegerKey.of_columns_eq (h : HasIntegerKey db) (hc : db'.columns = db.columns) :
    HasIntegerKey db' := by
  rw [HasIntegerKey, hc]
  exact h

variable [DecidableEq V]

/-- The orders with the given keys are gone, and nothing else has changed. -/
structure DeletesOrders (ofInt : ℤ → V) (keys : Finset ℤ) (db db' : Database V) : Prop where
  columns : db'.columns = db.columns
  rows : db'.rows ordersName =
    (db.rows ordersName).filter fun row => ∀ k ∈ keys, orderKey db row ≠ some (ofInt k)
  others : ∀ name, name ≠ ordersName → db'.table name = db.table name

theorem DeletesOrders.refl (ofInt : ℤ → V) (db : Database V) : DeletesOrders ofInt ∅ db db where
  columns := rfl
  rows := by simp
  others _ _ := rfl

theorem DeletesOrders.trans {keys keys' : Finset ℤ} {db₁ : Database V}
    (h : DeletesOrders ofInt keys db db₁) (h' : DeletesOrders ofInt keys' db₁ db') :
    DeletesOrders ofInt (keys ∪ keys') db db' where
  columns := h'.columns.trans h.columns
  rows := by
    have hkey : ∀ row, orderKey db₁ row = orderKey db row := fun row => by
      rw [orderKey, orderKey, h.columns]
    rw [h'.rows, h.rows, List.filter_filter]
    congr 1
    funext row
    simp only [hkey, Finset.mem_union, or_imp, forall_and, Bool.decide_and]
    exact Bool.and_comm _ _
  others name hname := (h'.others name hname).trans (h.others name hname)

/-- A statement of `refreshRF2` that is executed deletes the order of its line. -/
theorem deletesOrders_line (hstore : ConvertsKeys store ofInt) (hdb : HasIntegerKey db)
    {file line : Text} (hline : line ∈ splitLines file) (hkey : IsKey (lineKey line))
    (h : apply (sem store) db (deleteQuery line) = some db') :
    DeletesOrders ofInt {keyNumber (lineKey line)} db db' := by
  obtain ⟨blanks, hblanks, htoken⟩ := deleteToken_line hline hkey
  obtain ⟨cols, i, c, hcols, hi, hc, hcolumns, hothers, hrows⟩ :=
    Database.delete_spec (apply_deleteQuery (deleteToken_noQuote hline hkey) h)
  have hname : c.name = orderKeyColumn := by
    obtain ⟨hlt, hp, -⟩ := List.findIdx?_eq_some_iff_getElem.mp hi
    rw [List.getElem?_eq_getElem hlt, Option.some.injEq] at hc
    rw [← hc]
    exact of_decide_eq_true hp
  have hvalue : store c.affinity (deleteToken line) = ofInt (keyNumber (lineKey line)) := by
    rw [hdb cols hcols c (List.mem_of_getElem? hc) hname, htoken,
      hstore.integer _ _ hkey hblanks]
  refine ⟨hcolumns, ?_, hothers⟩
  rw [hrows, hvalue]
  congr 1
  funext row
  simp [orderKey, hcols, hi]

theorem deletesOrders_lines (hstore : ConvertsKeys store ofInt) (hdb : HasIntegerKey db)
    {file : Text} {lines : List Text}
    (hlines : ∀ line ∈ lines, line ∈ splitLines file ∧ IsKey (lineKey line))
    (h : lines.foldlM (fun db line => apply (sem store) db (deleteQuery line)) db = some db') :
    DeletesOrders ofInt (lines.map fun line => keyNumber (lineKey line)).toFinset db db' := by
  induction lines generalizing db with
  | nil =>
    obtain rfl := Option.some.inj h
    exact DeletesOrders.refl ofInt db
  | cons line lines ih =>
    obtain ⟨hline, hlines⟩ := List.forall_mem_cons.mp hlines
    rw [List.foldlM_cons] at h
    obtain ⟨db₁, h₁, h⟩ := Option.bind_eq_some_iff.mp h
    have hstep := deletesOrders_line hstore hdb hline.1 hline.2 h₁
    rw [List.map_cons, List.toFinset_cons, Finset.insert_eq]
    exact hstep.trans (ih (hdb.of_columns_eq hstep.columns) hlines h)

/-- If every line starts with a key and fits into the buffer, a deletion that returns 1
deletes exactly the listed orders. -/
theorem refreshRF2_deletes (hstore : ConvertsKeys store ofInt) {delete : Text}
    (hlines : ∀ line ∈ splitLines delete, IsKey (lineKey line) ∧ line.length < maxLineLength)
    {s : Session (Database V)} (hdb : HasIntegerKey s.conn.durable)
    (h : (refreshRF2 (sem store) (some delete) s).1 = true) :
    DeletesOrders ofInt (listedKeys delete) s.conn.durable
      (refreshRF2 (sem store) (some delete) s).2.conn.close := by
  have hread : fgetsAll maxLineLength delete = splitLines delete :=
    fgetsAll_eq_splitLines fun line hline => (hlines line hline).2
  have hrow : ∀ line ∈ fgetsAll maxLineLength delete, IsRowQuery (deleteQuery line) := by
    rw [hread]
    intro line hline
    exact isRowQuery_deleteQuery (deleteToken_noQuote hline (hlines line hline).1)
  have heff := (atomic_refreshRF2 (sem store) hrow).effect s h
  rw [effect_refreshRF2, hread] at heff
  exact deletesOrders_lines hstore hdb (fun line hline => ⟨hline, (hlines line hline).1⟩) heff

/-- What an integer column stores of decimal numbers; other values are left as they are. -/
def decimalStore : Affinity → Text → ℤ ⊕ Text
  | .integer, s =>
    let key := (s.reverse.dropWhile isSpace).reverse
    if IsKey key then .inl (keyNumber key) else .inr s
  | _, s => .inr s

theorem convertsKeys_decimalStore : ConvertsKeys decimalStore Sum.inl where
  integer key blanks hkey hblanks := by
    have hspace : ∀ c ∈ key.reverse, isSpace c = false := by
      intro c hc
      rcases hkey.mem (List.mem_reverse.mp hc) with rfl | hdigit
      · decide
      · exact decide_eq_false (not_mem_of_all rfl hdigit)
    have hdrop : ((key ++ blanks).reverse.dropWhile isSpace).reverse = key := by
      rw [List.reverse_append,
        List.dropWhile_append_of_pos fun c hc => hblanks c (List.mem_reverse.mp hc)]
      cases hrev : key.reverse with
      | nil => exact absurd (List.reverse_eq_nil_iff.mp hrev) hkey.ne_nil
      | cons c r =>
        rw [List.dropWhile_cons_of_neg (by simp [hspace c (by simp [hrev])]), ← hrev,
          List.reverse_reverse]
    simp only [decimalStore, hdrop, if_pos hkey]

def threeOrders : Database (ℤ ⊕ Text) :=
  Database.empty.set ordersName
    { columns := [⟨orderKeyColumn, .integer⟩]
      rows := [[.inl 1], [.inl 2], [.inl 3]]
      width := by simp }

def threeOrdersSession : Session (Database (ℤ ⊕ Text)) :=
  { conn := Conn.connect threeOrders, outcomes := fun _ => .ok }

theorem hasIntegerKey_threeOrders : HasIntegerKey threeOrders := by
  intro cols hcols
  obtain rfl := Option.some.inj hcols
  simp

def repeatedKey : Text := "2\n02|x".toList

theorem refreshRF2_deletes_repeatedKey :
    (refreshRF2 (sem decimalStore) (some repeatedKey) threeOrdersSession).1 = true ∧
      DeletesOrders Sum.inl (listedKeys repeatedKey) threeOrders
        (refreshRF2 (sem decimalStore) (some repeatedKey) threeOrdersSession).2.conn.close := by
  have h : (refreshRF2 (sem decimalStore) (some repeatedKey) threeOrdersSession).1 = true := by
    decide +kernel
  exact ⟨h, refreshRF2_deletes convertsKeys_decimalStore (by decide +kernel)
    hasIntegerKey_threeOrders h⟩

/-- A line for order 1 whose 1024th character is a 2. -/
def longLine : Text := "1|".toList ++ List.replicate (maxLineLength - 3) 'x' ++ "2|\n".toList

/-- The end of the long line is taken for another key. -/
theorem not_refreshRF2_deletes_longLine :
    ConvertsKeys decimalStore Sum.inl ∧ HasIntegerKey threeOrders ∧
      (∀ line ∈ splitLines longLine, IsKey (lineKey line)) ∧
      (refreshRF2 (sem decimalStore) (some longLine) threeOrdersSession).1 = true ∧
      ¬ DeletesOrders Sum.inl (listedKeys longLine) threeOrders
        (refreshRF2 (sem decimalStore) (some longLine) threeOrdersSession).2.conn.close := by
  refine ⟨convertsKeys_decimalStore, hasIntegerKey_threeOrders, by decide +kernel,
    by decide +kernel, fun h => ?_⟩
  exact absurd h.rows (by decide +kernel)

end TpchBench.Loader
