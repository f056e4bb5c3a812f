import TpchBench.Shell.Scan
import TpchBench.Text.Python

/-! # The input of the shell

`process_input` collects lines until they make a complete statement, runs it and starts again.
Lines of white space and comments between statements are dropped, and a line that begins with a
dot where no statement is open is a command.
-/

namespace TpchBench.Shell

open QuickScanState

/-- A line as `local_getline` returns it: without its `\n` or `\r\n`. -/
def chomp (line : Text) : Text :=
  if line.getLast? = some '\n' then
    if line.dropLast.getLast? = some '\r' then line.dropLast.dropLast else line.dropLast
  else line

/-- What `one_input_line` delivers from a file without NUL bytes. -/
def inputLines (file : Text) : List Text := (Python.splitLines file).map chomp

/-- `line_is_command_terminator`: a line with only `/` or `go`. -/
def lineIsCommandTerminator (line : Text) : Bool :=
  match line.dropWhile isspace with
  | '/' :: s => quickscan s start = start
  | g :: o :: s => g.toLower = 'g' && o.toLower = 'o' && quickscan s start = start
  | _ => false

/-- `line_is_complete`: whether the statement would be complete with a semicolon. -/
def lineIsComplete (sql : Text) : Bool := sqlite3Complete (sql ++ [';'])

/-- The variables of `process_input`: the statement so far (`zSql` and `nSql`), the scan, the
number of the last line read and that of the first line of the statement. -/
structure InputState where
  sql : Text
  qss : QuickScanState
  lineno : ℕ
  startline : ℕ
  deriving DecidableEq, Repr

def InputState.init : InputState := ⟨[], start, 0, 0⟩

inductive Action where
  | skip
  | metaCommand (line : Text) (lineno : ℕ)
  | run (sql : Text) (startline : ℕ)
  deriving DecidableEq, Repr

/-- A line as it is scanned: a terminator other than a semicolon is replaced by one. -/
def InputState.effective (st : InputState) (line : Text) : Text :=
  if st.qss.inPlain && lineIsCommandTerminator line && lineIsComplete st.sql then [';'] else line

def InputState.accumulate (st : InputState) (line : Text) : Text :=
  if st.sql = [] then line.dropWhile isspace else st.sql ++ '\n' :: line

/-- The body of the loop of `process_input`. -/
def inputLine (st : InputState) (line : Text) : InputState × Action :=
  let lineno := st.lineno + 1
  let line := st.effective line
  let qss := quickscan line st.qss
  if qss.plainWhite ∧ st.sql = [] then ({ st with qss := start, lineno := lineno }, .skip)
  else if (line.head? = some '.' ∨ line.head? = some '#') ∧ st.sql = [] then
    ({ st with qss := start, lineno := lineno },
      if line.head? = some '.' then .metaCommand line lineno else .skip)
  else
    let sql := st.accumulate line
    let startline := if st.sql = [] then lineno else st.startline
    if sql ≠ [] ∧ qss.semiTerm ∧ sqlite3Complete sql then
      (⟨[], start, lineno, startline⟩, .run sql startline)
    else if sql ≠ [] ∧ qss.plainWhite then (⟨[], start, lineno, startline⟩, .skip)
    else (⟨sql, qss, lineno, startline⟩, .skip)

inductive MetaResult where
  | ok | error | exit
  deriving DecidableEq, Repr

/-- What a terminal shows: the prompt before every line, which depends on whether a statement is
open, and what follows the end of the input. -/
structure Terminal (S : Type*) where
  prompt : Bool → S → S
  eof : S → S

/-- What the shell does with statements and commands, as changes of some state. `runOneSqlLine`
says whether there was an error. Input from a file has no terminal. -/
structure Handlers (S : Type*) where
  runOneSqlLine : Text → ℕ → S → Bool × S
  doMetaCommand : Text → ℕ → S → MetaResult × S
  bailOnError : Bool
  terminal : Option (Terminal S)

variable {S : Type*}

def Handlers.prompt (h : Handlers S) (st : InputState) (s : S) : S :=
  match h.terminal with
  | none => s
  | some terminal => terminal.prompt (st.sql ≠ []) s

def Handlers.eof (h : Handlers S) (s : S) : S :=
  match h.terminal with
  | none => s
  | some terminal => terminal.eof s

/-- Whether the loop is left before the next line. -/
def Handlers.bails (h : Handlers S) (errCnt : ℕ) : Bool :=
  errCnt > 0 && h.bailOnError && h.terminal.isNone

/-- The end of `process_input`: what is left is run, complete or not. -/
def Handlers.finish (h : Handlers S) (st : InputState) (errCnt : ℕ) (s : S) : Bool × S :=
  if st.sql = [] then (errCnt > 0, s)
  else
    let (err, s) := h.runOneSqlLine st.sql st.startline s
    (errCnt + err.toNat > 0, s)

/-- The loop of `process_input` over the lines of a file. -/
def Handlers.loop (h : Handlers S) : List Text → InputState → ℕ → S → Bool × S
  | [], st, errCnt, s =>
    if h.bails errCnt then h.finish st errCnt s
    else h.finish st errCnt (h.eof (h.prompt st s))
  | line :: lines, st, errCnt, s =>
    if h.bails errCnt then h.finish st errCnt s
    else
      let s := h.prompt st s
      match inputLine st line with
      | (st, .skip) => h.loop lines st errCnt s
      | (st, .run sql startline) =>
        let (err, s) := h.runOneSqlLine sql startline s
        h.loop lines st (errCnt + err.toNat) s
      | (st, .metaCommand line lineno) =>
        match h.doMetaCommand line lineno s with
        | (.ok, s) => h.loop lines st errCnt s
        | (.error, s) => h.loop lines st (errCnt + 1) s
        | (.exit, s) => h.finish st errCnt s

/-- `process_input`; the result is whether there were errors. -/
def Handlers.processInput (h : Handlers S) (file : Text) (s : S) : Bool × S :=
  h.loop (inputLines file) .init 0 s

def statementText : List Text → Text
  | [] => []
  | line :: lines => lines.foldl (fun sql l => sql ++ '\n' :: l) (line.dropWhile isspace)

def scanLines (qss : QuickScanState) (lines : List Text) : QuickScanState :=
  lines.foldl (fun qss l => quickscan l qss) qss

theorem quickscan_dropWhile_isspace {qss : QuickScanState} (h : qss.wait = none) (line : Text) :
    quickscan (line.dropWhile isspace) qss = quickscan line qss := by
  induction line with
  | nil => rfl
  | cons c line ih =>
    by_cases hc : isspace c
    · rw [List.dropWhile_cons_of_pos hc, ih, quickscan_plain h, plainScan, if_pos hc]
    · rw [List.dropWhile_cons_of_neg hc]

theorem quickscan_foldl {qss : QuickScanState} (h : qss.wait ≠ some '\n') (lines : List Text)
    (sql : Text) :
    quickscan (lines.foldl (fun sql l => sql ++ '\n' :: l) sql) qss =
      scanLines (quickscan sql qss) lines := by
  induction lines generalizing sql with
  | nil => rfl
  | cons l lines ih =>
    rw [List.foldl_cons, ih, quickscan_append h]
    rfl

theorem quickscan_statementText (lines : List Text) :
    quickscan (statementText lines) start = scanLines start lines := by
  cases lines with
  | nil => rfl
  | cons line lines =>
    rw [statementText, quickscan_foldl (by decide), quickscan_dropWhile_isspace rfl]
    rfl

/-- Scanning line by line finds the end of a statement that mentions no trigger. -/
theorem complete_lines_iff {lines : List Text} (htab : '\x0b' ∉ statementText lines)
    (htrigger : NoTrigger (statementText lines)) :
    sqlite3Complete (statementText lines) ↔ (scanLines start lines).semiTerm := by
  rw [complete_iff_semiTerm htab htrigger, quickscan_statementText]

theorem complete_lines_commented :
    sqlite3Complete (statementText ["select ';' -- ;".toList, "/* ; */ ;".toList]) ∧
      ¬ sqlite3Complete (statementText ["select ';' -- ;".toList]) := by
  refine ⟨(complete_lines_iff ?_ ?_).mpr ?_, fun h => absurd ((complete_lines_iff ?_ ?_).mp h) ?_⟩
  all_goals decide +kernel

theorem statementText_concat {lines : List Text} (hne : lines ≠ []) (line : Text) :
    statementText (lines ++ [line]) = statementText lines ++ '\n' :: line := by
  obtain ⟨l, ls, rfl⟩ := List.exists_cons_of_ne_nil hne
  simp [statementText, List.foldl_append]

theorem scanLines_concat (qss : QuickScanState) (lines : List Text) (line : Text) :
    scanLines qss (lines ++ [line]) = quickscan line (scanLines qss lines) := by
  simp [scanLines, List.foldl_append]

/-- Where the loop stands: after `n` lines a statement was begun, of which `block` has been
read. -/
structure Reading (n : ℕ) (block : List Text) (st : InputState) : Prop where
  lineno : st.lineno = n + block.length
  sql : st.sql = statementText block
  qss : st.qss = scanLines start block
  idle : st.sql = [] → block = []
  startline : block ≠ [] → st.startline = n + 1

theorem reading_idle {n : ℕ} {st : InputState} (hsql : st.sql = []) (hqss : st.qss = start)
    (hlineno : st.lineno = n) : Reading n [] st where
  lineno := hlineno
  sql := hsql
  qss := hqss
  idle _ := rfl
  startline h := absurd rfl h

theorem plainWhite_of_statementText {block : List Text} (h : statementText block = []) :
    (scanLines start block).plainWhite := by
  rw [← quickscan_statementText, h]
  rfl

theorem eq_nil_of_statementText_concat {block : List Text} {line : Text}
    (h : statementText (block ++ [line]) = []) : block = [] := by
  by_contra hne
  rw [statementText_concat hne] at h
  simp at h

namespace Reading

variable {n : ℕ} {block : List Text} {st : InputState}

theorem idle_iff (h : Reading n block st) : st.sql = [] ↔ block = [] := by
  refine ⟨h.idle, ?_⟩
  rintro rfl
  exact h.sql

theorem accumulate (h : Reading n block st) (line : Text) :
    st.accumulate line = statementText (block ++ [line]) := by
  unfold InputState.accumulate
  split
  · rename_i hsql
    obtain rfl := h.idle hsql
    rfl
  · rename_i hsql
    rw [h.sql, statementText_concat fun hb => hsql (h.idle_iff.mpr hb)]

/-- The body of the loop on the open lines. That `sqlite3_complete` is asked only where
`quickscan` has seen a semicolon makes no difference. -/
theorem inputLine_eq (h : Reading n block st) (line : Text) :
    inputLine st line =
      let block' := block ++ [st.effective line]
      let lineno := n + block'.length
      if (scanLines start block').plainWhite ∧ block = [] then
        (⟨[], start, lineno, st.startline⟩, .skip)
      else if ((st.effective line).head? = some '.' ∨ (st.effective line).head? = some '#') ∧
          block = [] then
        (⟨[], start, lineno, st.startline⟩,
          if (st.effective line).head? = some '.' then
            .metaCommand (st.effective line) lineno
          else .skip)
      else if sqlite3Complete (statementText block') then
        (⟨[], start, lineno, n + 1⟩, .run (statementText block') (n + 1))
      else if (scanLines start block').plainWhite then (⟨[], start, lineno, n + 1⟩, .skip)
      else (⟨statementText block', scanLines start block', lineno, n + 1⟩, .skip) := by
  have hacc := h.accumulate (st.effective line)
  have hqss : quickscan (st.effective line) st.qss =
      scanLines start (block ++ [st.effective line]) := by
    rw [scanLines_concat, h.qss]
  have hlineno : st.lineno + 1 = n + (block ++ [st.effective line]).length := by
    simp [h.lineno, Nat.add_assoc]
  have hstart : (if st.sql = [] then st.lineno + 1 else st.startline) = n + 1 := by
    split
    · rename_i hsql
      rw [h.lineno, h.idle hsql, List.length_nil, Nat.add_zero]
    · rename_i hsql
      exact h.startline fun hb => hsql (h.idle_iff.mpr hb)
  have hidle := h.idle_iff
  unfold inputLine
  simp only [hacc, hqss, hstart]
  simp only [hlineno, hidle]
  generalize st.effective line = line' at *
  by_cases hwhite : (scanLines start (block ++ [line'])).plainWhite ∧ block = []
  · rw [if_pos hwhite, if_pos hwhite, hidle.mpr hwhite.2]
  rw [if_neg hwhite, if_neg hwhite]
  by_cases hhead : (line'.head? = some '.' ∨ line'.head? = some '#') ∧ block = []
  · rw [if_pos hhead, if_pos hhead, hidle.mpr hhead.2]
  rw [if_neg hhead, if_neg hhead]
  -- Only white space would leave nothing, and that has been swallowed.
  have hne : statementText (block ++ [line']) ≠ [] := fun hnil =>
    hwhite ⟨plainWhite_of_statementText hnil, eq_nil_of_statementText_concat hnil⟩
  have hsemi : sqlite3Complete (statementText (block ++ [line'])) →
      (scanLines start (block ++ [line'])).semiTerm := by
    rw [← quickscan_statementText]
    exact semiTerm_of_complete
  simp only [hne, not_false_eq_true, ne_eq, true_and, and_iff_right_of_imp hsemi]

end Reading

/-- What is done for the lines of a file when nothing stops the loop. -/
def events : InputState → List Text → List Action
  | st, [] => if st.sql = [] then [] else [.run st.sql st.startline]
  | st, line :: lines =>
    match inputLine st line with
    | (st, .skip) => events st lines
    | (st, action) => action :: events st lines

/-- No beginning of a block is a complete statement. -/
def Minimal (block : List Text) : Prop :=
  ∀ p, p <+: block → p ≠ [] → p ≠ block → ¬ sqlite3Complete (statementText p)

instance (block : List Text) : Decidable (Minimal block) :=
  decidable_of_iff (∀ p ∈ block.inits, p ≠ [] → p ≠ block → ¬ sqlite3Complete (statementText p)) <|
    forall_congr' fun p => by rw [List.mem_inits]

/-- Do what has been read, up to a request to exit or, if that is asked for, the first error. -/
def Handlers.exec (h : Handlers S) : List Action → ℕ → S → Bool × S
  | [], errCnt, s => (errCnt > 0, s)
  | action :: actions, errCnt, s =>
    if h.bails errCnt then (errCnt > 0, s)
    else
      match action with
      | .skip => h.exec actions errCnt s
      | .run sql startline =>
        let (err, s) := h.runOneSqlLine sql startline s
        h.exec actions (errCnt + err.toNat) s
      | .metaCommand line lineno =>
        match h.doMetaCommand line lineno s with
        | (.ok, s) => h.exec actions errCnt s
        | (.error, s) => h.exec actions (errCnt + 1) s
        | (.exit, s) => (errCnt > 0, s)

theorem Handlers.exec_of_bails {h : Handlers S} {errCnt : ℕ} (hbails : h.bails errCnt)
    (actions : List Action) (s : S) : h.exec actions errCnt s = (decide (errCnt > 0), s) := by
  cases actions with
  | nil => rw [Handlers.exec]
  | cons action => cases action <;> rw [Handlers.exec, if_pos hbails]

theorem inputLine_idle (st : InputState) (line : Text) :
    (inputLine st line).2 = .skip ∨ (inputLine st line).1.sql = [] := by
  unfold inputLine
  dsimp only
  generalize (if st.sql = [] then st.lineno + 1 else st.startline) = startline
  split_ifs with hwhite hhead
  · exact Or.inl rfl
  · exact Or.inr hhead.2
  · exact Or.inr hhead.2
  · exact Or.inr rfl
  · exact Or.inr rfl
  · exact Or.inl rfl

section File

variable {h : Handlers S} (hfile : h.terminal = none)
include hfile

theorem Handlers.prompt_file (st : InputState) (s : S) : h.prompt st s = s := by
  rw [prompt, hfile]

theorem Handlers.eof_file (s : S) : h.eof s = s := by
  rw [eof, hfile]

/-- What the shell does with a file can be read off it before any of it is run: neither the
results nor the commands change what is read. -/
theorem Handlers.loop_eq_exec (lines : List Text) (st : InputState) (errCnt : ℕ) (s : S)
    (hst : h.bails errCnt → st.sql = []) :
    h.loop lines st errCnt s = h.exec (events st lines) errCnt s := by
  induction lines generalizing st errCnt s with
  | nil =>
    rw [loop, prompt_file hfile, eof_file hfile, ite_self, finish, events]
    split
    · rfl
    · rename_i hsql
      rw [exec, if_neg fun hbails => hsql (hst hbails)]
      rfl
  | cons line lines ih =>
    rw [loop, prompt_file hfile]
    by_cases hbails : h.bails errCnt
    · rw [if_pos hbails, exec_of_bails hbails, finish, if_pos (hst hbails)]
    · rw [if_neg hbails, events]
      have hidle := inputLine_idle st line
      obtain ⟨⟨st', action⟩, hline⟩ : ∃ p, inputLine st line = p := ⟨_, rfl⟩
      rw [hline] at hidle ⊢
      rcases action with _ | ⟨l, k⟩ | ⟨sql, k⟩
      · exact ih st' errCnt s fun h => absurd h hbails
      · have hsql : st'.sql = [] := hidle.resolve_left (by simp)
        simp only [exec, if_neg hbails]
        rcases h.doMetaCommand l k s with ⟨_ | _ | _, s'⟩
        · exact ih st' errCnt s' fun _ => hsql
        · exact ih st' (errCnt + 1) s' fun _ => hsql
        · simp only [finish, if_pos hsql]
      · have hsql : st'.sql = [] := hidle.resolve_left (by simp)
        simp only [exec, if_neg hbails]
        exact ih st' _ _ fun _ => hsql

theorem Handlers.processInput_eq_exec (file : Text) (s : S) :
    h.processInput file s = h.exec (events .init (inputLines file)) 0 s :=
  loop_eq_exec hfile _ _ _ _ fun _ => rfl

end File

structure IsStatement (block : List Text) : Prop where
  ne_nil : block ≠ []
  head : (block.headD []).head? ≠ some '.' ∧ (block.headD []).head? ≠ some '#'
  noTerminator : ∀ line ∈ block, lineIsCommandTerminator line = false
  dark : ∀ p, p <+: block → p ≠ [] → (scanLines start p).plainWhite = false
  minimal : Minimal block
  complete : sqlite3Complete (statementText block)

instance (block : List Text) : Decidable (IsStatement block) :=
  decidable_of_iff (block ≠ [] ∧
      ((block.headD []).head? ≠ some '.' ∧ (block.headD []).head? ≠ some '#') ∧
      (∀ line ∈ block, lineIsCommandTerminator line = false) ∧
      (∀ p ∈ block.inits, p ≠ [] → (scanLines start p).plainWhite = false) ∧
      Minimal block ∧ sqlite3Complete (statementText block))
    ⟨fun ⟨h₁, h₂, h₃, h₄, h₅, h₆⟩ =>
      ⟨h₁, h₂, h₃, fun p hp => h₄ p ((List.mem_inits p block).mpr hp), h₅, h₆⟩,
    fun h => ⟨h.ne_nil, h.head, h.noTerminator,
      fun p hp => h.dark p ((List.mem_inits p block).mp hp), h.minimal, h.complete⟩⟩

/-- A file of statements, each after lines of white space and comments. -/
structure Script where
  parts : List (List Text × List Text)
  rest : List Text
  blank : ∀ part ∈ parts, ∀ line ∈ part.1, (quickscan line start).plainWhite
  statement : ∀ part ∈ parts, IsStatement part.2
  rest_blank : ∀ line ∈ rest, (quickscan line start).plainWhite

def scriptLines (parts : List (List Text × List Text)) : List Text :=
  parts.flatMap fun part => part.1 ++ part.2

def Script.lines (script : Script) : List Text := scriptLines script.parts ++ script.rest

def numbered : ℕ → List (List Text × List Text) → List (Text × ℕ)
  | _, [] => []
  | n, (blank, block) :: parts =>
    (statementText block, n + blank.length + 1) ::
      numbered (n + blank.length + block.length) parts

theorem effective_of_not_terminator {line : Text} (h : lineIsCommandTerminator line = false)
    (st : InputState) : st.effective line = line := by
  simp [InputState.effective, h]

theorem Reading.statement {n : ℕ} {block more : List Text} {st : InputState}
    (h : Reading n block st) (hmore : more ≠ []) (hs : IsStatement (block ++ more))
    (lines : List Text) :
    ∃ st', Reading (n + (block ++ more).length) [] st' ∧
      Shell.events st (more ++ lines) =
        .run (statementText (block ++ more)) (n + 1) :: Shell.events st' lines := by
  induction more generalizing block st with
  | nil => exact absurd rfl hmore
  | cons line more ih =>
    have hline : line ∈ block ++ line :: more := by simp
    have hprefix : block ++ [line] <+: block ++ line :: more :=
      (List.prefix_append_right_inj block).mpr (List.cons_prefix_cons.mpr ⟨rfl, List.nil_prefix⟩)
    have hwhite : (scanLines start (block ++ [line])).plainWhite = false :=
      hs.dark _ hprefix (by simp)
    have hhead : ¬ ((line.head? = some '.' ∨ line.head? = some '#') ∧ block = []) := by
      rintro ⟨hc, rfl⟩
      exact hc.elim hs.head.1 hs.head.2
    have heq := h.inputLine_eq line
    rw [effective_of_not_terminator (hs.noTerminator line hline)] at heq
    simp only [hwhite, Bool.false_eq_true, false_and, if_false, if_neg hhead] at heq
    rw [List.cons_append, Shell.events, heq]
    by_cases hmore' : more = []
    · subst hmore'
      rw [if_pos hs.complete]
      exact ⟨_, reading_idle rfl rfl rfl, rfl⟩
    · have hopen : ¬ sqlite3Complete (statementText (block ++ [line])) :=
        hs.minimal _ hprefix (by simp) (by simpa using Ne.symm hmore')
      rw [if_neg hopen]
      have hassoc : block ++ line :: more = (block ++ [line]) ++ more := by simp
      rw [hassoc] at hs ⊢
      refine ih ⟨rfl, rfl, rfl, fun hnil => ?_, fun _ => rfl⟩ hmore' hs
      rw [plainWhite_of_statementText hnil] at hwhite
      cases hwhite

theorem Reading.blank {n : ℕ} {st : InputState} (h : Reading n [] st) {blank : List Text}
    (hblank : ∀ line ∈ blank, (quickscan line start).plainWhite) (lines : List Text) :
    ∃ st', Reading (n + blank.length) [] st' ∧
      Shell.events st (blank ++ lines) = Shell.events st' lines := by
  induction blank generalizing n st with
  | nil => exact ⟨st, h, rfl⟩
  | cons line blank ih =>
    obtain ⟨hline, hblank⟩ := List.forall_mem_cons.mp hblank
    have hwhite : (scanLines start [st.effective line]).plainWhite := by
      unfold InputState.effective
      split
      · rfl
      · exact hline
    have heq := h.inputLine_eq line
    simp only [List.nil_append, hwhite, and_self, if_true] at heq
    have hnext : Reading (n + 1) [] (inputLine st line).1 := by
      rw [heq]
      exact reading_idle rfl rfl rfl
    obtain ⟨st', hst', hevents⟩ := ih hnext hblank
    refine ⟨st', ?_, ?_⟩
    · rwa [Nat.add_assoc, Nat.add_comm 1] at hst'
    · rw [List.cons_append, Shell.events, heq, ← hevents, heq]

theorem Reading.parts {n : ℕ} {st : InputState} (h : Reading n [] st)
    {parts : List (List Text × List Text)}
    (hblank : ∀ part ∈ parts, ∀ line ∈ part.1, (quickscan line start).plainWhite)
    (hs : ∀ part ∈ parts, IsStatement part.2) (lines : List Text) :
    ∃ n' st', Reading n' [] st' ∧ Shell.events st (scriptLines parts ++ lines) =
      (numbered n parts).map (fun p => .run p.1 p.2) ++ Shell.events st' lines := by
  induction parts generalizing n st with
  | nil => exact ⟨n, st, h, rfl⟩
  | cons part parts ih =>
    obtain ⟨blank, block⟩ := part
    obtain ⟨hb, hblank⟩ := List.forall_mem_cons.mp hblank
    obtain ⟨hblock, hs⟩ := List.forall_mem_cons.mp hs
    obtain ⟨st₁, h₁, hevents₁⟩ := h.blank hb (block ++ (scriptLines parts ++ lines))
    obtain ⟨st₂, h₂, hevents₂⟩ :=
      @Reading.statement _ [] block st₁ h₁ hblock.ne_nil hblock (scriptLines parts ++ lines)
    obtain ⟨n', st', h', hevents'⟩ := ih h₂ hblank hs
    refine ⟨n', st', h', ?_⟩
    have hlines : scriptLines ((blank, block) :: parts) ++ lines =
        blank ++ (block ++ (scriptLines parts ++ lines)) := by
      simp [scriptLines]
    rw [hlines, hevents₁, hevents₂, hevents']
    rfl

/-- The shell runs the statements of a script one by one, in their order. -/
theorem Script.events_eq (script : Script) :
    events .init script.lines = (numbered 0 script.parts).map fun p => .run p.1 p.2 := by
  have hinit : Reading 0 [] .init := reading_idle rfl rfl rfl
  obtain ⟨n, st, h, hevents⟩ := hinit.parts script.blank script.statement script.rest
  obtain ⟨st', h', hrest⟩ := h.blank script.rest_blank []
  rw [List.append_nil] at hrest
  rw [Script.lines, hevents, hrest, Shell.events, if_pos (h'.idle_iff.mpr rfl), List.append_nil]

end TpchBench.Shell
