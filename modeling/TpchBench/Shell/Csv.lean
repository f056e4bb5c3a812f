import TpchBench.Text.Scan
import TpchBench.Loader.Import

/-! # The reader of `.import`

The shell reads a file field by field. A field may stand between double quotes, and then it may
hold separators, newlines and, doubled, quotes. However the fields of a line are written, they are
read back as they were.
-/

namespace TpchBench.Shell

inductive ImportMessage where
  | unescapedQuote (line : ℕ)
  | unterminatedQuote (line : ℕ)
  | filled (line expected found : ℕ)
  | extrasIgnored (line expected found : ℕ)
  | insertFailed (line : ℕ) (errmsg : Text)
  deriving DecidableEq, Repr

def ImportMessage.line : ImportMessage → ℕ
  | unescapedQuote line | unterminatedQuote line | filled line _ _ | extrasIgnored line _ _
  | insertFailed line _ => line

def ImportMessage.text (zFile : Text) (m : ImportMessage) : Text :=
  let expected (n k : ℕ) := "expected ".toList ++ Nat.toDigits 10 n ++
    " columns but found ".toList ++ Nat.toDigits 10 k
  zFile ++ [':'] ++ Nat.toDigits 10 m.line ++ ": ".toList ++
    (match m with
    | unescapedQuote _ => "unescaped \" character".toList
    | unterminatedQuote _ => "unterminated \"-quoted field".toList
    | filled _ n k => expected n k ++ " - filling the rest with NULL".toList
    | extrasIgnored _ n k => expected n k ++ " - extras ignored".toList
    | insertFailed _ errmsg => "INSERT failed: ".toList ++ errmsg) ++ ['\n']

/-- The state of the reader; `cTerm` is the character that ended the last field, or `none` at the
end of the file. -/
structure ImportCtx where
  nLine : ℕ
  bNotFirst : Bool
  cTerm : Option Char
  messages : List ImportMessage
  deriving DecidableEq, Repr

def ImportCtx.report (ctx : ImportCtx) (m : ImportMessage) : ImportCtx :=
  { ctx with messages := ctx.messages ++ [m] }

section Reader

variable (cColSep cRowSep : Char)

def beforeQuote (z : Text) : Text := (z.reverse.dropWhile (· ≠ '"')).tail.reverse

/-- A field after its opening quote; `pc` and `ppc` are the last two characters. -/
def quotedField (startLine : ℕ) :
    Text → Option Char → Option Char → ImportCtx → Text → Text × ImportCtx × Text
  | z, pc, _, ctx, [] =>
    if pc = some '"' then (beforeQuote z, { ctx with cTerm := none }, [])
    else (z, { ctx.report (.unterminatedQuote startLine) with cTerm := none }, [])
  | z, pc, ppc, ctx, c :: s =>
    let ctx := if c = cRowSep then { ctx with nLine := ctx.nLine + 1 } else ctx
    if c = '"' ∧ pc = some '"' then quotedField startLine z none ppc ctx s
    else if (c = cColSep ∧ pc = some '"') ∨ (c = cRowSep ∧ pc = some '"') ∨
        (c = cRowSep ∧ pc = some '\r' ∧ ppc = some '"') then
      (beforeQuote z, { ctx with cTerm := some c }, s)
    else
      let ctx := if pc = some '"' ∧ c ≠ '\r' then ctx.report (.unescapedQuote ctx.nLine) else ctx
      quotedField startLine (z ++ [c]) (some c) pc ctx s

/-- A field without quotes; a carriage return before the end of the line does not belong to it. -/
def unquotedField (ctx : ImportCtx) (s : Text) : Text × ImportCtx × Text :=
  let z := s.takeWhile fun c => c ≠ cColSep ∧ c ≠ cRowSep
  match s.dropWhile fun c => c ≠ cColSep ∧ c ≠ cRowSep with
  | [] => (z, { ctx with cTerm := none }, [])
  | c :: r =>
    if c = cRowSep then
      (if z.getLast? = some '\r' then z.dropLast else z,
        { ctx with nLine := ctx.nLine + 1, cTerm := some c }, r)
    else (z, { ctx with cTerm := some c }, r)

def readField (ctx : ImportCtx) : Text → Option Text × ImportCtx × Text
  | [] => (none, { ctx with cTerm := none }, [])
  | c :: s =>
    let (z, ctx, r) :=
      if c = '"' then quotedField cColSep cRowSep ctx.nLine [] none none ctx s
      else unquotedField cColSep cRowSep ctx (c :: s)
    (some z, { ctx with bNotFirst := true }, r)

def bom : Text := ['\u00ef', '\u00bb', '\u00bf']

/-- `csv_read_one_field`; `none` is the null pointer at the end of the file. -/
def csvReadOneField (ctx : ImportCtx) (s : Text) : Option Text × ImportCtx × Text :=
  if ctx.bNotFirst = false ∧ bom <+: s then
    readField cColSep cRowSep { ctx with bNotFirst := true } (s.drop 3)
  else readField cColSep cRowSep ctx s

theorem quotedField_length (startLine : ℕ) (z : Text) (pc ppc : Option Char) (ctx : ImportCtx)
    (s : Text) :
    (quotedField cColSep cRowSep startLine z pc ppc ctx s).2.2.length ≤ s.length := by
  induction s generalizing z pc ppc ctx with
  | nil =>
    unfold quotedField
    split <;> exact le_rfl
  | cons c s ih =>
    unfold quotedField
    dsimp only
    split_ifs
    all_goals first | exact (ih _ _ _ _).trans (Nat.le_succ _) | exact Nat.le_succ _

theorem unquotedField_length (ctx : ImportCtx) (c : Char) (s : Text) :
    (unquotedField cColSep cRowSep ctx (c :: s)).2.2.length ≤ s.length := by
  have hdrop := List.length_dropWhile_le (fun c => decide (c ≠ cColSep ∧ c ≠ cRowSep)) (c :: s)
  unfold unquotedField
  split
  · exact Nat.zero_le _
  · rename_i heq
    rw [heq] at hdrop
    split_ifs <;> exact Nat.le_of_succ_le_succ hdrop

theorem readField_length (ctx : ImportCtx) (s : Text) :
    (readField cColSep cRowSep ctx s).2.2.length ≤ s.length - 1 := by
  cases s with
  | nil => exact le_rfl
  | cons c s =>
    rw [readField]
    split_ifs
    · exact quotedField_length ..
    · exact unquotedField_length ..

theorem csvReadOneField_length (ctx : ImportCtx) (s : Text) :
    (csvReadOneField cColSep cRowSep ctx s).2.2.length ≤ s.length - 1 := by
  unfold csvReadOneField
  split_ifs
  · refine (readField_length ..).trans ?_
    rw [List.length_drop]
    omega
  · exact readField_length ..

end Reader

def doubleQuotes (f : Text) : Text := f.flatMap fun c => if c = '"' then ['"', '"'] else [c]

def csvQuote (f : Text) : Text := '"' :: (doubleQuotes f ++ ['"'])

structure IsSeparators (cColSep cRowSep : Char) : Prop where
  ne : cColSep ≠ cRowSep
  col_quote : cColSep ≠ '"'
  row_quote : cRowSep ≠ '"'
  col_return : cColSep ≠ '\r'
  row_return : cRowSep ≠ '\r'

/-- How a field may be written: as it is, if it has no separators and looks neither quoted nor
like the end of a line, or between quotes. -/
inductive Written (cColSep cRowSep : Char) : Text → Text → Prop
  | plain (f : Text) : (∀ c ∈ f, c ≠ cColSep ∧ c ≠ cRowSep) → f.head? ≠ some '"' →
      f.getLast? ≠ some '\r' → Written cColSep cRowSep f f
  | quoted (f : Text) : Written cColSep cRowSep (csvQuote f) f

section Written

variable {cColSep cRowSep : Char}

theorem beforeQuote_append (z : Text) {t : Text} (ht : '"' ∉ t) :
    beforeQuote (z ++ '"' :: t) = z := by
  have hdrop : ∀ c ∈ t.reverse, decide (c ≠ '"') = true := by
    intro c hc
    exact decide_eq_true (ne_of_mem_of_not_mem (List.mem_reverse.mp hc) ht)
  have hrev : (z ++ '"' :: t).reverse = t.reverse ++ '"' :: z.reverse := by simp
  rw [beforeQuote, hrev, List.dropWhile_append_of_pos hdrop]
  simp

theorem quotedField_char {pc ppc : Option Char} (hpc : pc ≠ some '"')
    (hppc : pc = some '\r' → ppc ≠ some '"') (startLine : ℕ) (z : Text) (ctx : ImportCtx) (c : Char)
    (s : Text) :
    quotedField cColSep cRowSep startLine z pc ppc ctx (c :: s) =
      quotedField cColSep cRowSep startLine (z ++ [c]) (some c) pc
        { ctx with nLine := ctx.nLine + [c].count cRowSep } s := by
  have hthird : ¬ (c = cRowSep ∧ pc = some '\r' ∧ ppc = some '"') :=
    fun h => hppc h.2.1 h.2.2
  have hctx : (if c = cRowSep then { ctx with nLine := ctx.nLine + 1 } else ctx) =
      { ctx with nLine := ctx.nLine + [c].count cRowSep } := by
    split
    · rename_i h
      simp [h]
    · rename_i h
      simp [h]
  rw [quotedField]
  simp [hpc, hthird, hctx]

theorem quotedField_doubled (hsep : IsSeparators cColSep cRowSep) (startLine : ℕ) (z : Text)
    (ppc : Option Char) (ctx : ImportCtx) (s : Text) :
    quotedField cColSep cRowSep startLine z (some '"') ppc ctx ('"' :: s) =
      quotedField cColSep cRowSep startLine z none ppc ctx s := by
  rw [quotedField]
  simp [hsep.row_quote.symm]

/-- The text between the quotes is read up to the closing quote. The last two characters tell a
quote from a doubled one. -/
theorem quotedField_doubleQuotes (hsep : IsSeparators cColSep cRowSep) (startLine : ℕ) (f z : Text)
    {pc ppc : Option Char} (hpc : pc ≠ some '"') (hppc : pc = some '\r' → ppc ≠ some '"')
    (ctx : ImportCtx) (s : Text) :
    ∃ ppc', quotedField cColSep cRowSep startLine z pc ppc ctx (doubleQuotes f ++ '"' :: s) =
      quotedField cColSep cRowSep startLine (z ++ f ++ ['"']) (some '"') ppc'
        { ctx with nLine := ctx.nLine + f.count cRowSep } s := by
  have hquote : ∀ f : Text, ('"' :: f).count cRowSep = f.count cRowSep := fun f =>
    List.count_cons_of_ne hsep.row_quote.symm
  induction f generalizing z pc ppc ctx with
  | nil =>
    refine ⟨pc, ?_⟩
    rw [doubleQuotes, List.flatMap_nil, List.nil_append, quotedField_char hpc hppc, hquote,
      List.append_nil]
  | cons c f ih =>
    by_cases hc : c = '"'
    · subst hc
      have hdouble : doubleQuotes ('"' :: f) ++ '"' :: s =
          '"' :: '"' :: (doubleQuotes f ++ '"' :: s) := rfl
      rw [hdouble, quotedField_char hpc hppc, quotedField_doubled hsep, hquote, hquote,
        List.append_cons z '"' f]
      exact ih (z ++ ['"']) (by simp) (by simp) ctx
    · have hsingle : doubleQuotes (c :: f) ++ '"' :: s = c :: (doubleQuotes f ++ '"' :: s) := by
        simp [doubleQuotes, hc]
      have hpc' : some c ≠ some '"' := by simpa using hc
      obtain ⟨ppc', hih⟩ := ih (z ++ [c]) hpc' (fun _ => hpc)
        { ctx with nLine := ctx.nLine + [c].count cRowSep }
      refine ⟨ppc', ?_⟩
      have hcount : (c :: f).count cRowSep = [c].count cRowSep + f.count cRowSep := by
        rw [← List.count_append, List.singleton_append]
      rw [hsingle, quotedField_char hpc hppc, hih, List.append_cons z c f, hcount, Nat.add_assoc]

/-- What may follow a field, and the character that ends it. -/
inductive FieldEnd (cColSep cRowSep : Char) : Text → Char → Prop
  | col : FieldEnd cColSep cRowSep [] cColSep
  | row : FieldEnd cColSep cRowSep [] cRowSep
  | crRow : FieldEnd cColSep cRowSep ['\r'] cRowSep

theorem quotedField_end (hsep : IsSeparators cColSep cRowSep) {e : Text} {c : Char}
    (he : FieldEnd cColSep cRowSep e c) (startLine : ℕ) (f : Text) (ppc : Option Char)
    (ctx : ImportCtx) (s : Text) :
    quotedField cColSep cRowSep startLine (f ++ ['"']) (some '"') ppc ctx (e ++ c :: s) =
      (f, { ctx with nLine := ctx.nLine + (e ++ [c]).count cRowSep, cTerm := some c }, s) := by
  have hclose : beforeQuote (f ++ ['"']) = f := beforeQuote_append f (List.not_mem_nil)
  cases he with
  | col =>
    rw [List.nil_append, quotedField]
    simp [hsep.ne, hsep.col_quote, hclose]
  | row =>
    rw [List.nil_append, quotedField]
    simp [hsep.row_quote, hclose]
  | crRow =>
    -- The carriage return is kept until it is known what follows it.
    have hreturn : quotedField cColSep cRowSep startLine (f ++ ['"']) (some '"') ppc ctx
        ('\r' :: cRowSep :: s) = quotedField cColSep cRowSep startLine (f ++ ['"'] ++ ['\r'])
          (some '\r') (some '"') ctx (cRowSep :: s) := by
      rw [quotedField]
      simp [hsep.row_return.symm, hsep.col_return.symm]
    have hclose' : beforeQuote (f ++ ['"'] ++ ['\r']) = f := by
      rw [List.append_assoc]
      exact beforeQuote_append f (by decide)
    have hcount : (['\r'] ++ [cRowSep]).count cRowSep = 1 := by
      simp [hsep.row_return.symm]
    rw [List.cons_append, List.nil_append, hreturn, hcount, quotedField]
    simp only [if_true, hclose', true_and, and_self, or_true, Option.some.injEq]
    simp [hsep.row_quote]

theorem FieldEnd.isSep {e : Text} {c : Char} (he : FieldEnd cColSep cRowSep e c) :
    c = cColSep ∨ c = cRowSep := by
  cases he
  · exact Or.inl rfl
  · exact Or.inr rfl
  · exact Or.inr rfl

theorem FieldEnd.noSep (hsep : IsSeparators cColSep cRowSep) {e : Text} {c : Char}
    (he : FieldEnd cColSep cRowSep e c) : ∀ d ∈ e, d ≠ cColSep ∧ d ≠ cRowSep := by
  cases he with
  | col => simp
  | row => simp
  | crRow => simp [hsep.col_return.symm, hsep.row_return.symm]

theorem unquotedField_plain (hsep : IsSeparators cColSep cRowSep) {e : Text} {c : Char}
    (he : FieldEnd cColSep cRowSep e c) {f : Text} (hf : ∀ d ∈ f, d ≠ cColSep ∧ d ≠ cRowSep)
    (hlast : f.getLast? ≠ some '\r') (ctx : ImportCtx) (s : Text) :
    unquotedField cColSep cRowSep ctx (f ++ (e ++ c :: s)) =
      (f, { ctx with nLine := ctx.nLine + (f ++ (e ++ [c])).count cRowSep, cTerm := some c },
        s) := by
  have hpos : ∀ d ∈ f ++ e, decide (d ≠ cColSep ∧ d ≠ cRowSep) = true := by
    intro d hd
    exact decide_eq_true ((List.mem_append.mp hd).elim (hf d) (he.noSep hsep d))
  have hneg : ¬ decide (c ≠ cColSep ∧ c ≠ cRowSep) = true := by
    rw [decide_eq_true_eq, not_and_or, not_not, not_not]
    exact he.isSep
  have hzero : (f ++ e).count cRowSep = 0 := by
    rw [List.count_eq_zero]
    intro hmem
    exact (of_decide_eq_true (hpos cRowSep hmem)).2 rfl
  have hcount : (f ++ (e ++ [c])).count cRowSep = [c].count cRowSep := by
    rw [← List.append_assoc, List.count_append, hzero, Nat.zero_add]
  have htake : (f ++ (e ++ c :: s)).takeWhile (fun c => decide (c ≠ cColSep ∧ c ≠ cRowSep)) =
      f ++ e := by
    rw [← List.append_assoc, List.takeWhile_append_of_pos hpos,
      List.takeWhile_cons_of_neg (p := fun c => decide (c ≠ cColSep ∧ c ≠ cRowSep)) hneg,
      List.append_nil]
  have hdrop : (f ++ (e ++ c :: s)).dropWhile (fun c => decide (c ≠ cColSep ∧ c ≠ cRowSep)) =
      c :: s := by
    rw [← List.append_assoc, List.dropWhile_append_of_pos hpos,
      List.dropWhile_cons_of_neg (p := fun c => decide (c ≠ cColSep ∧ c ≠ cRowSep)) hneg]
  rw [unquotedField, htake, hdrop, hcount]
  cases he with
  | col => simp [hsep.ne]
  | row => simp [hlast]
  | crRow => simp

theorem count_doubleQuotes (hsep : IsSeparators cColSep cRowSep) (f : Text) :
    (doubleQuotes f).count cRowSep = f.count cRowSep := by
  induction f with
  | nil => rfl
  | cons c f ih =>
    have hcons : doubleQuotes (c :: f) = (if c = '"' then ['"', '"'] else [c]) ++ doubleQuotes f :=
      rfl
    rw [hcons, List.count_append, ih]
    by_cases hc : c = '"'
    · subst hc
      simp [hsep.row_quote.symm]
    · rw [if_neg hc, ← List.count_append, List.singleton_append]

/-- A field is read back as it was written. -/
theorem Written.readField_eq (hsep : IsSeparators cColSep cRowSep) {t f : Text}
    (h : Written cColSep cRowSep t f) {e : Text} {c : Char} (he : FieldEnd cColSep cRowSep e c)
    (ctx : ImportCtx) (s : Text) :
    readField cColSep cRowSep ctx (t ++ (e ++ c :: s)) =
      (some f, { ctx with nLine := ctx.nLine + (t ++ (e ++ [c])).count cRowSep, bNotFirst := true,
                          cTerm := some c }, s) := by
  cases h with
  | plain _ hf hhead hlast =>
    have hplain := unquotedField_plain hsep he hf hlast ctx s
    have hquote : (t ++ (e ++ c :: s)).head? ≠ some '"' := by
      cases t with
      | cons d t => exact hhead
      | nil =>
        cases he with
        | col => simpa using hsep.col_quote
        | row => simpa using hsep.row_quote
        | crRow => simp
    obtain ⟨d, r, hd⟩ : ∃ d r, t ++ (e ++ c :: s) = d :: r :=
      List.exists_cons_of_ne_nil (by simp)
    rw [hd] at hplain hquote ⊢
    have hne : d ≠ '"' := by simpa using hquote
    rw [readField, if_neg hne, hplain]
  | quoted f =>
    have hopen : csvQuote f ++ (e ++ c :: s) = '"' :: (doubleQuotes f ++ '"' :: (e ++ c :: s)) := by
      simp [csvQuote]
    have hpc : (none : Option Char) ≠ some '"' := by simp
    obtain ⟨ppc', hbody⟩ := quotedField_doubleQuotes hsep ctx.nLine f [] hpc (fun _ => hpc) ctx
      (e ++ c :: s)
    have hcount : (csvQuote f ++ (e ++ [c])).count cRowSep =
        f.count cRowSep + (e ++ [c]).count cRowSep := by
      rw [csvQuote, List.cons_append, List.count_cons_of_ne hsep.row_quote.symm, List.append_assoc,
        List.count_append, count_doubleQuotes hsep, List.singleton_append,
        List.count_cons_of_ne hsep.row_quote.symm]
    rw [hopen, readField, if_pos rfl, hbody, List.nil_append, quotedField_end hsep he, hcount,
      Nat.add_assoc]

end Written

def fieldsText (cColSep : Char) : List (Text × Text) → Text → Text
  | [], e => e
  | [p], e => p.1 ++ e
  | p :: q :: ps, e => p.1 ++ cColSep :: fieldsText cColSep (q :: ps) e

/-- A line of a file: its fields, each with the text that is written for it, and whether it ends
with a carriage return. -/
structure Line (cColSep cRowSep : Char) where
  fields : List (Text × Text)
  cr : Bool
  ne_nil : fields ≠ []
  written : ∀ p ∈ fields, Written cColSep cRowSep p.1 p.2

section Line

variable {cColSep cRowSep : Char}

def eol (cRowSep : Char) (cr : Bool) : Text := (if cr then ['\r'] else []) ++ [cRowSep]

def Line.text (line : Line cColSep cRowSep) : Text :=
  fieldsText cColSep line.fields (eol cRowSep line.cr)

def Line.values (line : Line cColSep cRowSep) : List Text := line.fields.map Prod.snd

theorem exists_fieldEnd (cr : Bool) :
    ∃ e, FieldEnd cColSep cRowSep e cRowSep ∧ eol cRowSep cr = e ++ [cRowSep] := by
  cases cr
  · exact ⟨[], .row, rfl⟩
  · exact ⟨['\r'], .crRow, rfl⟩

theorem csvReadOneField_fields (hsep : IsSeparators cColSep cRowSep) {p : Text × Text}
    {ps : List (Text × Text)} (hp : Written cColSep cRowSep p.1 p.2) (cr : Bool) {ctx : ImportCtx}
    {s : Text} (hbom : ctx.bNotFirst ∨
      ¬ bom <+: fieldsText cColSep (p :: ps) (eol cRowSep cr) ++ s) :
    ∃ n, n + (if ps = [] then [] else fieldsText cColSep ps (eol cRowSep cr)).count cRowSep =
        ctx.nLine + (fieldsText cColSep (p :: ps) (eol cRowSep cr)).count cRowSep ∧
      csvReadOneField cColSep cRowSep ctx (fieldsText cColSep (p :: ps) (eol cRowSep cr) ++ s) =
        (some p.2, { ctx with nLine := n, bNotFirst := true,
                              cTerm := some (if ps = [] then cRowSep else cColSep) },
          (if ps = [] then [] else fieldsText cColSep ps (eol cRowSep cr)) ++ s) := by
  have hread : ∀ t, (ctx.bNotFirst ∨ ¬ bom <+: t) →
      csvReadOneField cColSep cRowSep ctx t = readField cColSep cRowSep ctx t := by
    intro t ht
    rw [csvReadOneField, if_neg]
    rintro ⟨hfirst, hprefix⟩
    rcases ht with ht | ht
    · rw [hfirst] at ht
      cases ht
    · exact ht hprefix
  rw [hread _ hbom]
  cases ps with
  | nil =>
    obtain ⟨e, he, heol⟩ := @exists_fieldEnd cColSep cRowSep cr
    have htext : fieldsText cColSep [p] (eol cRowSep cr) ++ s = p.1 ++ (e ++ cRowSep :: s) := by
      simp [fieldsText, heol]
    refine ⟨ctx.nLine + (p.1 ++ (e ++ [cRowSep])).count cRowSep, ?_, ?_⟩
    · simp [fieldsText, heol]
    · rw [htext, hp.readField_eq hsep he]
      simp
  | cons q ps =>
    have htext : fieldsText cColSep (p :: q :: ps) (eol cRowSep cr) ++ s =
        p.1 ++ ([] ++ cColSep :: (fieldsText cColSep (q :: ps) (eol cRowSep cr) ++ s)) := by
      simp [fieldsText]
    refine ⟨ctx.nLine + (p.1 ++ ([] ++ [cColSep])).count cRowSep, ?_, ?_⟩
    · rw [if_neg (List.cons_ne_nil q ps), fieldsText, List.append_cons p.1 cColSep,
        List.nil_append, Nat.add_assoc, ← List.count_append]
    · rw [htext, hp.readField_eq hsep .col]
      simp

end Line

end TpchBench.Shell
