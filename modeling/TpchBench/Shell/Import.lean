import TpchBench.Shell.Csv

/-! # `.import`

A row with too few fields is filled up with `NULL`, the fields that a row has too many are
dropped, and a row that cannot be inserted is skipped; all this is reported and never stops the
import. The separators that end the lines of `dbgen` make a field too many, and the script that
removes them takes empty fields with them.
-/

namespace TpchBench.Shell

open Loader

section Reader

variable (cColSep cRowSep : Char)

/-- The values of the columns from column `i` on; there are none when the file is at its end. -/
def readColumns (nCol startLine : ℕ) : ℕ → ℕ → ImportCtx → Text →
    List (Option Text) × ImportCtx × Text
  | _, 0, ctx, s => ([], ctx, s)
  | i, m + 1, ctx, s =>
    let (z, ctx, s) := csvReadOneField cColSep cRowSep ctx s
    if z = none ∧ i = 0 then ([], ctx, s)
    else
      -- The end of the file may stand for the last field of a row.
      let value := (if z = none ∧ m = 0 ∧ i > 0 then some [] else z).map cstr
      if m > 0 ∧ ctx.cTerm ≠ some cColSep then
        (value :: List.replicate m none, ctx.report (.filled startLine nCol (i + 1)), s)
      else
        let (values, ctx, s) := readColumns nCol startLine (i + 1) m ctx s
        (value :: values, ctx, s)

/-- Skip the fields that are left of a row, and count them; the first argument bounds them. -/
def skipExtras : ℕ → ℕ → ImportCtx → Text → ℕ × ImportCtx × Text
  | 0, i, ctx, s => (i, ctx, s)
  | fuel + 1, i, ctx, s =>
    let (_, ctx, s) := csvReadOneField cColSep cRowSep ctx s
    if ctx.cTerm = some cColSep then skipExtras fuel (i + 1) ctx s else (i + 1, ctx, s)

/-- The table that is filled: the number of its columns, what an `INSERT` of a row does, and the
transaction around the import. -/
structure ImportTarget (D : Type*) where
  nCol : ℕ
  insert : List (Option Text) → D → Except Text D
  begin : D → D
  commit : D → D

variable {cColSep cRowSep} {D : Type*}

/-- Insert a row or report that it failed; the flag is the return code of the last attempt. -/
def insertRow (target : ImportTarget D) (startLine : ℕ) (values : List (Option Text))
    (p : ImportCtx × Bool × D) : ImportCtx × Bool × D :=
  match target.insert values p.2.2 with
  | .ok db => (p.1, false, db)
  | .error errmsg => (p.1.report (.insertFailed startLine errmsg), true, p.2.2)

variable (cColSep cRowSep)

/-- The body of the loop of `.import`. At the end of the file nothing is read, and the loop is
left. -/
def importRow (target : ImportTarget D) (p : ImportCtx × Bool × D) (s : Text) :
    Option ((ImportCtx × Bool × D) × Text) :=
  if s = [] then none
  else
    let startLine := p.1.nLine
    let (values, ctx, s) := readColumns cColSep cRowSep target.nCol startLine 0 target.nCol p.1 s
    let (ctx, s) :=
      if ctx.cTerm = some cColSep then
        let (i, ctx, s) := skipExtras cColSep cRowSep (s.length + 1) target.nCol ctx s
        (ctx.report (.extrasIgnored startLine target.nCol i), s)
      else (ctx, s)
    if values.length ≥ target.nCol then some (insertRow target startLine values (ctx, p.2), s)
    else some ((ctx, p.2), s)

def importLoop (target : ImportTarget D) (file : Text) (db : D) : ImportCtx × Bool × D :=
  scanAll (importRow cColSep cRowSep target) (⟨1, false, some '\x00', []⟩, false, db) file

end Reader

/-- `.import` in the mode of the shell at its start, as OSv's `benchmark.sh` uses it: the messages,
the return code and the database. -/
def importFile {D : Type*} (target : ImportTarget D) (file : Text) (db : D) :
    List ImportMessage × Bool × D :=
  if target.nCol = 0 then ([], false, db)
  else
    let (ctx, rc, db) := importLoop '|' '\n' target file (target.begin db)
    (ctx.messages, rc, target.commit db)

section Length

variable (cColSep cRowSep : Char)

theorem readColumns_rest (nCol startLine i m : ℕ) (ctx : ImportCtx) (s : Text) :
    (readColumns cColSep cRowSep nCol startLine i (m + 1) ctx s).2.2 =
        (csvReadOneField cColSep cRowSep ctx s).2.2 ∨
      ∃ ctx', (readColumns cColSep cRowSep nCol startLine i (m + 1) ctx s).2.2 =
        (readColumns cColSep cRowSep nCol startLine (i + 1) m ctx'
          (csvReadOneField cColSep cRowSep ctx s).2.2).2.2 := by
  rw [readColumns]
  rcases csvReadOneField cColSep cRowSep ctx s with ⟨z, ctx', r⟩
  dsimp only
  generalize (if z = none ∧ m = 0 ∧ i > 0 then some [] else z) = value
  split_ifs
  · exact Or.inl rfl
  · exact Or.inl rfl
  · exact Or.inr ⟨ctx', rfl⟩

theorem readColumns_length (nCol startLine i m : ℕ) (ctx : ImportCtx) (s : Text) :
    (readColumns cColSep cRowSep nCol startLine i m ctx s).2.2.length ≤ s.length - min m 1 := by
  induction m generalizing i ctx s with
  | zero => exact le_rfl
  | succ m ih =>
    have hread := csvReadOneField_length cColSep cRowSep ctx s
    rcases readColumns_rest cColSep cRowSep nCol startLine i m ctx s with h | ⟨ctx', h⟩
    · rw [h]
      omega
    · rw [h]
      have := ih (i + 1) ctx' (csvReadOneField cColSep cRowSep ctx s).2.2
      omega

theorem skipExtras_length (fuel i : ℕ) (ctx : ImportCtx) (s : Text) :
    (skipExtras cColSep cRowSep fuel i ctx s).2.2.length ≤ s.length := by
  induction fuel generalizing i ctx s with
  | zero => exact le_rfl
  | succ fuel ih =>
    have hread := csvReadOneField_length cColSep cRowSep ctx s
    rw [skipExtras]
    dsimp only
    have hle := hread.trans (Nat.sub_le _ _)
    split_ifs
    · exact (ih _ _ _).trans hle
    · exact hle

theorem importRow_advancing {D : Type*} {target : ImportTarget D} (h : 0 < target.nCol) :
    Advancing (importRow cColSep cRowSep target) := by
  intro p s p' r hrow
  unfold importRow at hrow
  split at hrow
  · cases hrow
  · rename_i hs
    have hpos := List.length_pos_iff.mpr hs
    have hcols := readColumns_length cColSep cRowSep target.nCol p.1.nLine 0 target.nCol p.1 s
    have hlt : (readColumns cColSep cRowSep target.nCol p.1.nLine 0 target.nCol p.1 s).2.2.length <
        s.length := by
      omega
    dsimp only at hrow
    split_ifs at hrow
    all_goals obtain ⟨-, rfl⟩ := Prod.mk.inj (Option.some.inj hrow)
    all_goals first | exact hlt | exact (skipExtras_length ..).trans_lt hlt

end Length

def ImportMessage.OfReader : ImportMessage → Prop
  | .insertFailed _ _ => False
  | _ => True

/-- Reading adds messages of the reader only. -/
def ImportCtx.Reads (ctx ctx' : ImportCtx) : Prop :=
  ∃ messages, ctx'.messages = ctx.messages ++ messages ∧ ∀ m ∈ messages, m.OfReader

namespace ImportCtx.Reads

variable {ctx ctx' ctx'' : ImportCtx}

theorem trans (h : ctx.Reads ctx') (h' : ctx'.Reads ctx'') : ctx.Reads ctx'' := by
  obtain ⟨ms, hms, hread⟩ := h
  obtain ⟨ms', hms', hread'⟩ := h'
  refine ⟨ms ++ ms', by rw [hms', hms, List.append_assoc], fun m hm => ?_⟩
  exact (List.mem_append.mp hm).elim (hread m) (hread' m)

theorem report {m : ImportMessage} (hm : m.OfReader) (h : ctx'.messages = (ctx.report m).messages) :
    ctx.Reads ctx' := ⟨[m], h, by simpa using hm⟩

end ImportCtx.Reads

section Reads

variable (cColSep cRowSep : Char)

end Reads

section Invariant

variable {D : Type*} {target : ImportTarget D} {P : D → Prop} {Q : Text → Prop}
  (hok : ∀ values db db', values.length = target.nCol → P db →
    target.insert values db = .ok db' → P db')
  (herror : ∀ values db errmsg, values.length = target.nCol → P db →
    target.insert values db = .error errmsg → Q errmsg)
include hok herror

end Invariant

section Line

variable {cColSep cRowSep : Char}

/-- The columns of a line: what is missing is `NULL`, and what is too much is left. -/
theorem readColumns_fields (hsep : IsSeparators cColSep cRowSep) {fields : List (Text × Text)}
    (hne : fields ≠ []) (hw : ∀ p ∈ fields, Written cColSep cRowSep p.1 p.2) (cr : Bool)
    (nCol startLine i : ℕ) {m : ℕ} (hm : 0 < m) {ctx : ImportCtx} {s : Text}
    (hbom : ctx.bNotFirst ∨ ¬ bom <+: fieldsText cColSep fields (eol cRowSep cr) ++ s) :
    ∃ n, n + (if m < fields.length then
          fieldsText cColSep (fields.drop m) (eol cRowSep cr) else []).count cRowSep =
        ctx.nLine + (fieldsText cColSep fields (eol cRowSep cr)).count cRowSep ∧
      readColumns cColSep cRowSep nCol startLine i m ctx
          (fieldsText cColSep fields (eol cRowSep cr) ++ s) =
        ((fields.take m).map (fun p => some (cstr p.2)) ++
            List.replicate (m - fields.length) none,
          ⟨n, true, some (if m < fields.length then cColSep else cRowSep),
            ctx.messages ++ if fields.length < m then
              [.filled startLine nCol (i + fields.length)] else []⟩,
          (if m < fields.length then
            fieldsText cColSep (fields.drop m) (eol cRowSep cr) else []) ++ s) := by
  induction fields generalizing i m ctx with
  | nil => exact absurd rfl hne
  | cons p ps ih =>
    obtain ⟨hp, hps⟩ := List.forall_mem_cons.mp hw
    obtain ⟨n, hn, hread⟩ := csvReadOneField_fields hsep hp cr hbom
    obtain ⟨m, rfl⟩ := Nat.exists_eq_succ_of_ne_zero hm.ne'
    rw [readColumns, hread]
    cases ps with
    | nil =>
      refine ⟨n, by simpa using hn, ?_⟩
      cases m with
      | zero => simp [readColumns]
      | succ m =>
        simp [ImportCtx.report, hsep.ne.symm, List.replicate_succ]
    | cons q ps =>
      cases m with
      | zero =>
        refine ⟨n, by simpa using hn, ?_⟩
        simp [readColumns]
      | succ m =>
        simp only [reduceCtorEq, if_false] at hn hread ⊢
        have hnext : (⟨n, true, some cColSep, ctx.messages⟩ : ImportCtx).bNotFirst ∨
            ¬ bom <+: fieldsText cColSep (q :: ps) (eol cRowSep cr) ++ s := Or.inl rfl
        obtain ⟨n', hn', hcols⟩ := ih (List.cons_ne_nil q ps) hps (i + 1) (Nat.succ_pos m) hnext
        refine ⟨n', ?_, ?_⟩
        · rw [← hn, ← hn']
          simp
        · simp [hcols, Nat.add_assoc, Nat.add_comm 1]

theorem skipExtras_fields (hsep : IsSeparators cColSep cRowSep) {fields : List (Text × Text)}
    (hne : fields ≠ []) (hw : ∀ p ∈ fields, Written cColSep cRowSep p.1 p.2) (cr : Bool)
    (fuel : ℕ) (hfuel : fields.length ≤ fuel) (i : ℕ) (ctx : ImportCtx) (hctx : ctx.bNotFirst)
    (s : Text) :
    skipExtras cColSep cRowSep fuel i ctx (fieldsText cColSep fields (eol cRowSep cr) ++ s) =
      (i + fields.length,
        ⟨ctx.nLine + (fieldsText cColSep fields (eol cRowSep cr)).count cRowSep, true,
          some cRowSep, ctx.messages⟩, s) := by
  induction fields generalizing fuel i ctx with
  | nil => exact absurd rfl hne
  | cons p ps ih =>
    obtain ⟨hp, hps⟩ := List.forall_mem_cons.mp hw
    have hbom : ctx.bNotFirst ∨ ¬ bom <+: fieldsText cColSep (p :: ps) (eol cRowSep cr) ++ s :=
      Or.inl hctx
    obtain ⟨n, hn, hread⟩ := csvReadOneField_fields hsep hp cr hbom
    obtain ⟨fuel, rfl⟩ : ∃ k, fuel = k + 1 := ⟨fuel - 1, by simp at hfuel; omega⟩
    rw [skipExtras, hread, ← hn]
    cases ps with
    | nil => simp [hsep.ne.symm]
    | cons q ps =>
      have hrest := ih (List.cons_ne_nil q ps) hps fuel (Nat.le_of_succ_le_succ hfuel) (i + 1)
        ⟨n, true, some cColSep, ctx.messages⟩ rfl
      simp only [reduceCtorEq, if_false, if_true]
      rw [hrest]
      simp [Nat.add_assoc, Nat.add_comm 1]

theorem length_le_fieldsText (fields : List (Text × Text)) (e : Text) :
    fields.length ≤ (fieldsText cColSep fields e).length + 1 := by
  induction fields with
  | nil => simp
  | cons p ps ih =>
    cases ps with
    | nil => simp
    | cons q ps =>
      simp only [fieldsText, List.length_append, List.length_cons] at ih ⊢
      omega

theorem fieldsText_ne_nil (fields : List (Text × Text)) {e : Text} (he : e ≠ []) :
    fieldsText cColSep fields e ≠ [] := by
  unfold fieldsText
  split
  · exact he
  · exact List.append_ne_nil_of_right_ne_nil _ he
  · exact List.append_ne_nil_of_right_ne_nil _ (List.cons_ne_nil _ _)

def lineRow (nCol : ℕ) (values : List Text) : List (Option Text) :=
  (values.take nCol).map (fun v => some (cstr v)) ++ List.replicate (nCol - values.length) none

def lineMessages (startLine nCol found : ℕ) : List ImportMessage :=
  if found < nCol then [.filled startLine nCol found]
  else if nCol < found then [.extrasIgnored startLine nCol found]
  else []

theorem length_lineRow (nCol : ℕ) (values : List Text) : (lineRow nCol values).length = nCol := by
  simp [lineRow]
  omega

theorem importRow_line {D : Type*} (hsep : IsSeparators cColSep cRowSep) {target : ImportTarget D}
    (hcol : 0 < target.nCol) (line : Line cColSep cRowSep) {ctx : ImportCtx} {s : Text}
    (hbom : ctx.bNotFirst ∨ ¬ bom <+: line.text ++ s) (p : Bool × D) :
    importRow cColSep cRowSep target (ctx, p) (line.text ++ s) =
      some (insertRow target ctx.nLine (lineRow target.nCol line.values)
        (⟨ctx.nLine + line.text.count cRowSep, true, some cRowSep,
          ctx.messages ++ lineMessages ctx.nLine target.nCol line.values.length⟩, p), s) := by
  obtain ⟨n, hn, hcols⟩ := readColumns_fields hsep line.ne_nil line.written line.cr target.nCol
    ctx.nLine 0 hcol hbom
  have hrow : (line.fields.take target.nCol).map (fun p => some (cstr p.2)) ++
      List.replicate (target.nCol - line.fields.length) none =
        lineRow target.nCol line.values := by
    simp [lineRow, Line.values, List.map_take, Function.comp_def]
  have hlen : line.values.length = line.fields.length := List.length_map _
  have hnil : fieldsText cColSep line.fields (eol cRowSep line.cr) ++ s ≠ [] :=
    List.append_ne_nil_of_left_ne_nil (fieldsText_ne_nil _ (by simp [eol])) s
  have hvalues : (lineRow target.nCol line.values).length ≥ target.nCol :=
    (length_lineRow _ _).ge
  rw [hrow] at hcols
  unfold Line.text
  rw [importRow, if_neg hnil]
  dsimp only
  rw [hcols, hlen]
  dsimp only
  rw [if_pos hvalues, lineMessages]
  by_cases hextra : target.nCol < line.fields.length
  · simp only [if_pos hextra, if_true] at hn ⊢
    have hdrop : line.fields.drop target.nCol ≠ [] := by
      simpa [List.drop_eq_nil_iff] using hextra
    have hfuel : (line.fields.drop target.nCol).length ≤
        (fieldsText cColSep (line.fields.drop target.nCol) (eol cRowSep line.cr) ++ s).length + 1 :=
      (@length_le_fieldsText cColSep _ (eol cRowSep line.cr)).trans
        (by rw [List.length_append]; omega)
    have hskip := skipExtras_fields hsep hdrop
      (fun p hp => line.written p (List.mem_of_mem_drop hp)) line.cr _ hfuel target.nCol
      ⟨n, true, some cColSep, ctx.messages⟩ rfl s
    have hfound : target.nCol + (line.fields.drop target.nCol).length = line.fields.length := by
      rw [List.length_drop]
      omega
    have hfew : ¬ line.fields.length < target.nCol := by omega
    rw [hfound, hn] at hskip
    simp only [if_neg hfew, List.append_nil, hskip, ImportCtx.report]
  · simp only [if_neg hextra, List.count_nil, Nat.add_zero, List.nil_append] at hn ⊢
    rw [hn, if_neg (by simpa using hsep.ne.symm), Nat.zero_add]

/-- Import lines one after the other, where the first one has the given number. -/
def importLines {D : Type*} (target : ImportTarget D) :
    ℕ → List (Line cColSep cRowSep) → List ImportMessage → Bool × D →
      List ImportMessage × Bool × D
  | _, [], messages, p => (messages, p)
  | n, line :: lines, messages, p =>
    let messages := messages ++ lineMessages n target.nCol line.values.length
    let next := n + line.text.count cRowSep
    match target.insert (lineRow target.nCol line.values) p.2 with
    | .ok db => importLines target next lines messages (false, db)
    | .error errmsg =>
      importLines target next lines (messages ++ [.insertFailed n errmsg]) (true, p.2)

theorem scanAll_importRow {D : Type*} (hsep : IsSeparators cColSep cRowSep)
    {target : ImportTarget D} (hcol : 0 < target.nCol) (lines : List (Line cColSep cRowSep))
    (ctx : ImportCtx) (hbom : ctx.bNotFirst ∨ ¬ bom <+: lines.flatMap Line.text) (p : Bool × D) :
    ((scanAll (importRow cColSep cRowSep target) (ctx, p) (lines.flatMap Line.text)).1.messages,
      (scanAll (importRow cColSep cRowSep target) (ctx, p) (lines.flatMap Line.text)).2) =
        importLines target ctx.nLine lines ctx.messages p := by
  induction lines generalizing ctx p with
  | nil => rfl
  | cons line lines ih =>
    rw [List.flatMap_cons] at hbom ⊢
    rw [scanAll_of_some (importRow_advancing cColSep cRowSep hcol)
      (importRow_line hsep hcol line hbom p), importLines, insertRow]
    cases target.insert (lineRow target.nCol line.values) p.2 with
    | ok db => exact ih _ (Or.inl rfl) (false, db)
    | error errmsg => exact ih _ (Or.inl rfl) (true, p.2)

end Line

theorem isSeparators_default : IsSeparators '|' '\n' := by
  constructor <;> decide

def rowTarget (nCol : ℕ) : ImportTarget (List (List (Option Text))) where
  nCol := nCol
  insert row rows := .ok (rows ++ [row])
  begin := id
  commit := id

def importedRows (nCol : ℕ) (file : Text) : List (List (Option Text)) :=
  (importFile (rowTarget nCol) file []).2.2

theorem importLines_rowTarget {cColSep cRowSep : Char} (nCol n : ℕ)
    (lines : List (Line cColSep cRowSep)) (messages : List ImportMessage)
    (p : Bool × List (List (Option Text))) :
    (importLines (rowTarget nCol) n lines messages p).2.2 =
      p.2 ++ lines.map fun line => lineRow nCol line.values := by
  induction lines generalizing n messages p with
  | nil => simp [importLines]
  | cons line lines ih =>
    rw [importLines]
    exact (ih _ _ _).trans (by simp [rowTarget])

theorem importedRows_lines {nCol : ℕ} (hcol : 0 < nCol) {lines : List (Line '|' '\n')}
    (hbom : ¬ bom <+: lines.flatMap Line.text) :
    importedRows nCol (lines.flatMap Line.text) =
      lines.map fun line => lineRow nCol line.values := by
  have hcol' : 0 < (rowTarget nCol).nCol := hcol
  have hloop := scanAll_importRow isSeparators_default hcol' lines ⟨1, false, some '\x00', []⟩
    (Or.inr hbom) (false, [])
  rw [importedRows, importFile, if_neg hcol'.ne']
  exact (congrArg (·.2.2) hloop).trans (importLines_rowTarget nCol 1 lines [] (false, []))

/-- A field that needs no quotes and no byte order mark is mistaken for. -/
structure IsPlainField (f : Text) : Prop where
  noPipe : '|' ∉ f
  noNewline : '\n' ∉ f
  noReturn : '\r' ∉ f
  head : f.head? ≠ some '"' ∧ f.head? ≠ some '\u00ef'

theorem IsPlainField.nil : IsPlainField [] := by
  constructor <;> simp

theorem IsPlainField.written {f : Text} (h : IsPlainField f) : Written '|' '\n' f f := by
  refine .plain f ?_ ?_ ?_
  · intro c hc
    exact ⟨ne_of_mem_of_not_mem hc h.noPipe, ne_of_mem_of_not_mem hc h.noNewline⟩
  · exact h.head.1
  · intro hlast
    exact h.noReturn (List.mem_of_getLast? hlast)

def plainLine (fields : List Text) (hne : fields ≠ []) (h : ∀ f ∈ fields, IsPlainField f) :
    Line '|' '\n' where
  fields := fields.map fun f => (f, f)
  cr := false
  ne_nil := by simpa using hne
  written p hp := by
    obtain ⟨f, hf, rfl⟩ := List.mem_map.mp hp
    exact (h f hf).written

theorem plainLine_values (fields : List Text) (hne : fields ≠ [])
    (h : ∀ f ∈ fields, IsPlainField f) : (plainLine fields hne h).values = fields := by
  simp [plainLine, Line.values, Function.comp_def]

theorem plainLine_text (fields : List Text) (hne : fields ≠ [])
    (h : ∀ f ∈ fields, IsPlainField f) :
    (plainLine fields hne h).text = joinFields fields ++ ['\n'] := by
  have htext : ∀ fields : List Text, fields ≠ [] →
      fieldsText '|' (fields.map fun f => (f, f)) ['\n'] = joinFields fields ++ ['\n'] := by
    intro fields hne
    induction fields with
    | nil => exact absurd rfl hne
    | cons f fs ih =>
      cases fs with
      | nil => simp [fieldsText, joinFields, List.intercalate]
      | cons g fs =>
        have ih := ih (List.cons_ne_nil g fs)
        rw [List.map_cons] at ih
        rw [List.map_cons, List.map_cons, fieldsText, ih, joinFields_cons_cons, List.append_assoc,
          List.cons_append]
  exact htext fields hne

theorem not_bom_joinedFile {records : List (List Text)} (hne : ∀ r ∈ records, r ≠ [])
    (h : ∀ r ∈ records, ∀ f ∈ r, IsPlainField f) : ¬ bom <+: joinedFile records := by
  intro hbom
  rcases records with - | ⟨r, records⟩
  · exact absurd hbom (by decide)
  obtain ⟨f, fs, rfl⟩ := List.exists_cons_of_ne_nil (hne r List.mem_cons_self)
  have hf := h _ List.mem_cons_self f List.mem_cons_self
  obtain ⟨c, x, hfile, hc⟩ : ∃ c x, joinedFile ((f :: fs) :: records) = f ++ c :: x ∧
      c ≠ '\u00ef' := by
    cases fs with
    | nil => exact ⟨'\n', joinedFile records, by simp [joinedFile, joinFields], by decide⟩
    | cons g fs =>
      refine ⟨'|', joinFields (g :: fs) ++ '\n' :: joinedFile records, ?_, by decide⟩
      simp [joinedFile, joinFields_cons_cons]
  rw [hfile] at hbom
  cases f with
  | nil => exact hc (List.cons_prefix_cons.mp hbom).1.symm
  | cons d f => exact hf.head.2 (congrArg some (List.cons_prefix_cons.mp hbom).1.symm)

theorem importedRows_joinedFile {nCol : ℕ} (hcol : 0 < nCol) {records : List (List Text)}
    (hne : ∀ r ∈ records, r ≠ []) (h : ∀ r ∈ records, ∀ f ∈ r, IsPlainField f) :
    importedRows nCol (joinedFile records) = records.map (lineRow nCol) := by
  obtain ⟨lines, htext, hrows⟩ : ∃ lines : List (Line '|' '\n'),
      lines.flatMap Line.text = joinedFile records ∧
        lines.map (fun line => lineRow nCol line.values) = records.map (lineRow nCol) := by
    induction records with
    | nil => exact ⟨[], rfl, rfl⟩
    | cons r records ih =>
      obtain ⟨hr, hne⟩ := List.forall_mem_cons.mp hne
      obtain ⟨hfields, h⟩ := List.forall_mem_cons.mp h
      obtain ⟨lines, htext, hrows⟩ := ih hne h
      refine ⟨plainLine r hr hfields :: lines, ?_, ?_⟩
      · rw [List.flatMap_cons, plainLine_text, htext]
        simp [joinedFile]
      · rw [List.map_cons, plainLine_values, hrows, List.map_cons]
  have hbom := not_bom_joinedFile hne h
  rw [← htext] at hbom ⊢
  rw [importedRows_lines hcol hbom, hrows]

/-- A record without the empty fields at its end. -/
def stripEmpty (fields : List Text) : List Text := (fields.reverse.dropWhile (· = [])).reverse

/-- What is left of the fields of a line when the separators at its end are removed. -/
def cleanedFields (fields : List Text) : List Text :=
  if stripEmpty fields = [] then [[]] else stripEmpty fields

theorem recordLine_concat (fields : List Text) (f : Text) :
    recordLine (fields ++ [f]) = recordLine fields ++ f ++ ['|'] := by
  simp [recordLine]

theorem joinFields_concat (fields : List Text) (f : Text) :
    joinFields (fields ++ [f]) = recordLine fields ++ f := by
  have hjoin : recordLine (fields ++ [f]) = joinFields (fields ++ [f]) ++ ['|'] :=
    recordLine_eq_joinFields (by simp)
  rw [recordLine_concat] at hjoin
  exact (List.append_cancel_right hjoin).symm

theorem cleanedFields_concat_nil (fields : List Text) :
    cleanedFields (fields ++ [[]]) = cleanedFields fields := by
  simp [cleanedFields, stripEmpty]

theorem cleanedFields_concat {f : Text} (hf : f ≠ []) (fields : List Text) :
    cleanedFields (fields ++ [f]) = fields ++ [f] := by
  simp [cleanedFields, stripEmpty, hf]

theorem rstrip_recordLine {fields : List Text} (h : ∀ f ∈ fields, '|' ∉ f) :
    Python.rstrip '|' (recordLine fields) = joinFields (cleanedFields fields) := by
  induction fields using List.reverseRecOn with
  | nil => rfl
  | append_singleton fields f ih =>
    rw [recordLine_concat, Python.rstrip_concat_self]
    by_cases hf : f = []
    · subst hf
      rw [List.append_nil, cleanedFields_concat_nil]
      exact ih fun f hf => h f (List.mem_append_left _ hf)
    · rw [cleanedFields_concat hf, joinFields_concat]
      obtain ⟨x, c, rfl⟩ : ∃ x c, f = x ++ [c] :=
        ⟨f.dropLast, f.getLast hf, (List.dropLast_append_getLast hf).symm⟩
      have hc : c ≠ '|' := by
        rintro rfl
        exact h (x ++ ['|']) (by simp) (by simp)
      rw [← List.append_assoc, Python.rstrip_concat_of_ne hc]

theorem rstrip_of_not_mem {c : Char} {line : Text} (h : c ∉ line) :
    Python.rstrip c line = line := by
  rcases List.eq_nil_or_concat line with rfl | ⟨x, d, rfl⟩
  · rfl
  · rw [List.concat_eq_append] at h ⊢
    exact Python.rstrip_concat_of_ne (fun hd => h (by simp [hd])) x

theorem length_cleanedFields_le (fields : List Text) :
    (cleanedFields fields).length ≤ max 1 fields.length := by
  unfold cleanedFields stripEmpty
  split
  · simp
  · have hdrop := List.length_dropWhile_le (fun f : Text => decide (f = [])) fields.reverse
    rw [List.length_reverse] at hdrop ⊢
    exact hdrop.trans (le_max_right _ _)

theorem none_mem_lineRow (nCol : ℕ) (values : List Text) :
    none ∈ lineRow nCol values ↔ values.length < nCol := by
  have hsome : none ∉ (values.take nCol).map fun v => some (cstr v) := by
    intro hmem
    obtain ⟨v, -, hv⟩ := List.mem_map.mp hmem
    cases hv
  rw [lineRow, List.mem_append, or_iff_right hsome, List.mem_replicate, and_iff_left rfl]
  omega

theorem lineRow_concat_nil {nCol : ℕ} {r : List Text} (hr : r.length = nCol) :
    lineRow nCol (r ++ [[]]) = lineRow nCol r := by
  simp [lineRow, ← hr]

/-- Removing the separators at its end changes the row of a line exactly if its last field is
empty: then that field becomes `NULL`. -/
theorem lineRow_cleanedFields_iff {nCol : ℕ} (hcol : 0 < nCol) {r : List Text}
    (hr : r.length = nCol) :
    lineRow nCol (cleanedFields r) = lineRow nCol (r ++ [[]]) ↔
      nCol = 1 ∨ r.getLast? ≠ some [] := by
  obtain ⟨r', f, rfl⟩ : ∃ r' f, r = r' ++ [f] := by
    have hne : r ≠ [] := List.ne_nil_of_length_pos (hr ▸ hcol)
    exact ⟨r.dropLast, r.getLast hne, (List.dropLast_append_getLast hne).symm⟩
  rw [lineRow_concat_nil hr, List.getLast?_concat]
  rw [List.length_append, List.length_singleton] at hr
  by_cases hf : f = []
  · subst hf
    rw [cleanedFields_concat_nil]
    constructor
    · intro heq
      by_contra hne
      rw [not_or] at hne
      have hshort : (cleanedFields r').length < nCol :=
        (length_cleanedFields_le r').trans_lt (by omega)
      have hnone := (none_mem_lineRow _ _).mpr hshort
      rw [heq, none_mem_lineRow] at hnone
      simp at hnone
      omega
    · rintro (h1 | h)
      · obtain rfl := List.eq_nil_of_length_eq_zero (by omega : r'.length = 0)
        rfl
      · exact absurd rfl h
  · rw [cleanedFields_concat hf]
    simp [hf]

theorem cleanedFields_ne_nil (fields : List Text) : cleanedFields fields ≠ [] := by
  unfold cleanedFields
  split
  · exact List.cons_ne_nil _ _
  · assumption

theorem mem_cleanedFields {fields : List Text} {f : Text} (h : f ∈ cleanedFields fields) :
    f = [] ∨ f ∈ fields := by
  unfold cleanedFields at h
  split at h
  · exact Or.inl (List.mem_singleton.mp h)
  · right
    have hmem := List.mem_reverse.mp h
    exact List.mem_reverse.mp ((List.dropWhile_sublist _).subset hmem)

theorem removeTrailingPipe_tblFile {records : List (List Text)}
    (h : ∀ r ∈ records, ∀ f ∈ r, IsPlainField f) :
    removeTrailingPipe (tblFile records) = joinedFile (records.map cleanedFields) := by
  rw [tblFile, joinedFile,
    removeTrailingPipe_lines
      (not_mem_recordLines (by decide) fun r hr f hf => (h r hr f hf).noNewline)
      (not_mem_recordLines (by decide) fun r hr f hf => (h r hr f hf).noReturn),
    List.map_map, List.map_map]
  congr 1
  apply List.map_congr_left
  intro r hr
  have hnewline : '\n' ∉ recordLine r :=
    not_mem_recordLine (by decide) fun f hf => (h r hr f hf).noNewline
  rw [Function.comp_apply, Function.comp_apply, rstrip_of_not_mem hnewline,
    rstrip_recordLine fun f hf => (h r hr f hf).noPipe]

theorem tblFile_eq_joinedFile (records : List (List Text)) :
    tblFile records = joinedFile (records.map (· ++ [[]])) := by
  rw [tblFile, joinedFile, List.map_map]
  congr 1
  apply List.map_congr_left
  intro r _
  rw [Function.comp_apply, joinFields_concat, List.append_nil]

/-- The script that removes the separators at the ends of the lines changes what `.import` loads
exactly if some record ends with an empty field, since it removes all separators there and not
only the last one. -/
theorem importedRows_removeTrailingPipe_iff {nCol : ℕ} (hcol : 0 < nCol)
    {records : List (List Text)} (hlen : ∀ r ∈ records, r.length = nCol)
    (h : ∀ r ∈ records, ∀ f ∈ r, IsPlainField f) :
    importedRows nCol (removeTrailingPipe (tblFile records)) =
        importedRows nCol (tblFile records) ↔
      ∀ r ∈ records, nCol = 1 ∨ r.getLast? ≠ some [] := by
  have hclean := removeTrailingPipe_tblFile h
  have hplain := tblFile_eq_joinedFile records
  have hcleanNe : ∀ r ∈ records.map cleanedFields, r ≠ [] := by
    intro r hr
    obtain ⟨r, -, rfl⟩ := List.mem_map.mp hr
    exact cleanedFields_ne_nil r
  have hcleanFields : ∀ r ∈ records.map cleanedFields, ∀ f ∈ r, IsPlainField f := by
    intro r hr f hf
    obtain ⟨r, hmem, rfl⟩ := List.mem_map.mp hr
    rcases mem_cleanedFields hf with rfl | hf
    · exact .nil
    · exact h r hmem f hf
  have hplainNe : ∀ r ∈ records.map (· ++ [[]]), r ≠ [] := by
    intro r hr
    obtain ⟨r, -, rfl⟩ := List.mem_map.mp hr
    simp
  have hplainFields : ∀ r ∈ records.map (· ++ [[]]), ∀ f ∈ r, IsPlainField f := by
    intro r hr f hf
    obtain ⟨r, hmem, rfl⟩ := List.mem_map.mp hr
    rcases List.mem_append.mp hf with hf | hf
    · exact h r hmem f hf
    · obtain rfl := List.mem_singleton.mp hf
      exact .nil
  rw [hclean, importedRows_joinedFile hcol hcleanNe hcleanFields, hplain,
    importedRows_joinedFile hcol hplainNe hplainFields, List.map_map, List.map_map,
    List.map_inj_left]
  constructor
  · intro hrows r hr
    exact (lineRow_cleanedFields_iff hcol (hlen r hr)).mp (hrows r hr)
  · intro hlast r hr
    exact (lineRow_cleanedFields_iff hcol (hlen r hr)).mpr (hlast r hr)

theorem importedRows_emptyComment :
    importedRows 2 (removeTrailingPipe "1||\n".toList) ≠ importedRows 2 "1||\n".toList := by
  have hfile : "1||\n".toList = tblFile [[['1'], []]] := by decide +kernel
  have hplain : ∀ r ∈ [[['1'], []]], ∀ f ∈ r, IsPlainField f := by
    rw [List.forall_mem_singleton, List.forall_mem_cons, List.forall_mem_singleton]
    exact ⟨⟨by simp, by simp, by simp, by simp⟩, .nil⟩
  rw [hfile, Ne, importedRows_removeTrailingPipe_iff (by decide) (by decide) hplain]
  decide

/-- On a cleaned file the reader splits the lines at their separators, and the C programs insert
the same rows except the first. -/
theorem importedRows_eq {n : ℕ} {records : List (List Text)} (h : IsTbl n records)
    (hn : 0 < n) (hplain : ∀ r ∈ records, ∀ f ∈ r, IsPlainField f) {k : ℕ} (hk : 0 < k)
    (name : Text) :
    importedRows n (removeTrailingPipe^[k] (tblFile records)) =
        (importRows (removeTrailingPipe^[k] (tblFile records))).map (List.map some) ∧
      (insertQueries (tableName name) (tblFile records)).map
          (fun query => (insertedLiterals (tableName name) query).map (List.map some)) =
        (importedRows n (removeTrailingPipe^[k] (tblFile records))).tail.map some := by
  have hcr : ∀ r ∈ records, ∀ f ∈ r, '\r' ∉ f := fun r hr f hf => (hplain r hr f hf).noReturn
  have hrow : ∀ r ∈ records, lineRow n r = r.map some := by
    intro r hr
    have hcstr : ∀ f ∈ r, cstr f = f := by
      intro f hf
      rw [cstr, List.takeWhile_eq_self_iff]
      intro c hc
      exact decide_eq_true (ne_of_mem_of_not_mem hc (h.fields r hr f hf).noNul)
    rw [lineRow, ← h.length r hr, List.take_length, Nat.sub_self, List.replicate_zero,
      List.append_nil]
    exact List.map_congr_left fun f hf => by rw [hcstr f hf]
  have hrows : importedRows n (removeTrailingPipe^[k] (tblFile records)) =
      records.map (List.map some) := by
    rw [h.iterate_removeTrailingPipe hn hcr hk, importedRows_joinedFile hn (h.ne_nil hn) hplain]
    exact List.map_congr_left hrow
  rw [hrows, h.iterate_removeTrailingPipe hn hcr hk, h.importRows_joinedFile hn]
  refine ⟨rfl, ?_⟩
  rw [h.insertQueries_eq (tableName_length name), List.map_map, ← List.map_tail, List.map_map]
  apply List.map_congr_left
  intro r hr
  have hr := List.mem_of_mem_tail hr
  rw [Function.comp_apply, insertedLiterals_insertBody _ (h.ne_nil hn r hr) fun f hf =>
    (h.fields r hr f hf).noQuote]
  rfl

theorem importedRows_twoRecords :
    importedRows 2 (removeTrailingPipe (tblFile twoRecords)) = twoRecords.map (List.map some) := by
  have hplain : ∀ r ∈ twoRecords, ∀ f ∈ r, IsPlainField f := by
    have hall : ∀ r ∈ twoRecords, ∀ f ∈ r, '|' ∉ f ∧ '\n' ∉ f ∧ '\r' ∉ f ∧
        (f.head? ≠ some '"' ∧ f.head? ≠ some '\u00ef') := by
      decide +kernel
    intro r hr f hf
    obtain ⟨h₁, h₂, h₃, h₄⟩ := hall r hr f hf
    exact ⟨h₁, h₂, h₃, h₄⟩
  rw [← Function.iterate_one removeTrailingPipe, (importedRows_eq isTbl_twoRecords (by decide)
    hplain (by decide : 0 < 1) "region.tbl".toList).1]
  decide +kernel

end TpchBench.Shell
