import TpchBench.Shell.Console

/-! # The power run

The times that the extractor of OSv reads from the console of a power run are those of the
queries, however their statements end.
-/

namespace TpchBench.Shell

open Timing Python

theorem noMark_append {a t : Text} (ha : 'T' ∉ a) (ht : ¬ timeMark <:+: t) :
    ¬ timeMark <:+: a ++ t := fun h => ht (infix_of_infix_append ha h)

theorem not_mem_toDigits (n : ℕ) : 'T' ∉ Nat.toDigits 10 n := fun h =>
  absurd (Nat.isDigit_of_mem_toDigits (by decide) (by decide) h) (by decide)

theorem noMark_newline {t : Text} (h : ¬ timeMark <:+: t) : ¬ timeMark <:+: t ++ ['\n'] := fun hi =>
  ((infix_append_cons_iff (by decide)).mp hi).elim h (by decide)

variable {D : Type*}

/-- The statement prints no mark of the timer, and neither does its error. -/
structure ExecResult.Quiet (r : ExecResult D) : Prop where
  output : ∀ w ∈ r.output, Shell.Quiet w
  error : r.failed → ¬ timeMark <:+: r.error.2

/-- None of the statements prints a mark when they are run one after the other. -/
def Env.Quiet (env : Env D) : List Text → D → Prop
  | [], _ => True
  | sql :: sqls, db =>
    (env.shellExec sql db).Quiet ∧ env.Quiet sqls (env.shellExec sql db).db

theorem ExecResult.error_kind (r : ExecResult D) :
    r.error.1 = "Error".toList ∨ r.error.1 = "Parse error".toList ∨
      r.error.1 = "Runtime error".toList := by
  unfold ExecResult.error
  split
  · exact Or.inl rfl
  · split_ifs
    · exact Or.inr (Or.inl rfl)
    · exact Or.inr (Or.inr rfl)
    · exact Or.inl rfl

theorem ExecResult.quiet_errorMessage {r : ExecResult D} (h : ¬ timeMark <:+: r.error.2)
    (atTerminal : Bool) (startline : ℕ) : Shell.Quiet (r.errorMessage atTerminal startline) := by
  have hkind : 'T' ∉ r.error.1 := by
    rcases r.error_kind with hkind | hkind | hkind <;> rw [hkind] <;> decide
  have hline : 'T' ∉ (if atTerminal then [] else
      " near line ".toList ++ Nat.toDigits 10 startline) := by
    split
    · simp
    · rw [List.mem_append, not_or]
      exact ⟨by decide, not_mem_toDigits startline⟩
  refine ⟨Or.inr ⟨_, rfl⟩, noMark_newline (noMark_append ?_ h)⟩
  simp only [List.mem_append, not_or]
  exact ⟨⟨hkind, hline⟩, by decide⟩

/-- The real times of statements that are run one after the other, and the database they
leave. -/
def Env.runAll (env : Env D) : List Text → D → List ℚ × D
  | [], db => ([], db)
  | sql :: sqls, db =>
    let r := env.shellExec sql db
    let (times, db) := env.runAll sqls r.db
    (r.real.value :: times, db)

def shown (timer : Bool) (times : List ℚ) : List ℚ := if timer then times else []

theorem shown_append (timer : Bool) (a b : List ℚ) :
    shown timer (a ++ b) = shown timer a ++ shown timer b := by
  cases timer <;> rfl

/-- A session with the timer on or off, the times that it has printed and its database. -/
structure Timed (timer : Bool) (s : Session D) (times : List ℚ) (db : D) : Prop where
  enableTimer : s.enableTimer = timer
  logged : Logged s.out times
  db : s.db = db

/-- A statement is timed also if it fails. -/
theorem Timed.runOneSqlLine {env : Env D} {timer : Bool} {s : Session D} {times : List ℚ} {db : D}
    (h : Timed timer s times db) {sql : Text} (hquiet : (env.shellExec sql db).Quiet)
    (atTerminal : Bool) (startline : ℕ) :
    Timed timer (env.runOneSqlLine atTerminal sql startline s).2
      (times ++ shown timer [(env.shellExec sql db).real.value]) (env.shellExec sql db).db := by
  obtain rfl := h.db
  obtain ⟨r, hr⟩ : ∃ r, r = env.shellExec sql s.db := ⟨_, rfl⟩
  rw [← hr] at hquiet ⊢
  have hout := h.logged.quiets hquiet.output
  have htimed (s₁ : Session D) (hs₁ : s₁ = ⟨r.db, s.enableTimer, s.out ++ r.output⟩) :
      Timed timer (if s₁.enableTimer then s₁.print r.timerLine else s₁)
        (times ++ shown timer [r.real.value]) r.db := by
    subst hs₁
    cases timer with
    | false =>
      rw [if_neg (by simp [h.enableTimer])]
      exact ⟨h.enableTimer, by simpa [shown] using hout, rfl⟩
    | true =>
      rw [if_pos h.enableTimer]
      exact ⟨h.enableTimer, hout.append (.single (.timer r.real r.user r.sys)), rfl⟩
  have htimed := htimed _ rfl
  unfold Env.runOneSqlLine
  rw [← hr]
  dsimp only
  split
  · rename_i hfailed
    have herror := ExecResult.quiet_errorMessage (hquiet.error hfailed) atTerminal startline
    exact ⟨htimed.enableTimer, htimed.logged.quiet herror, htimed.db⟩
  · exact htimed

theorem Env.handlers_bails (env : Env D) (read : Text → ℕ → Session D → Bool × Session D)
    (terminal : Option (Terminal (Session D))) (errCnt : ℕ) :
    (env.handlers read terminal).bails errCnt = false := by
  simp [Handlers.bails, handlers]

theorem Timed.exec_runs {env : Env D} (read : Text → ℕ → Session D → Bool × Session D)
    (runs : List (Text × ℕ)) (errCnt : ℕ) {timer : Bool} {s : Session D} {times : List ℚ} {db : D}
    (h : Timed timer s times db)
    (hquiet : env.Quiet (runs.map Prod.fst) db) :
    Timed timer ((env.handlers read none).exec (runs.map fun p => .run p.1 p.2) errCnt s).2
      (times ++ shown timer (env.runAll (runs.map Prod.fst) db).1)
      (env.runAll (runs.map Prod.fst) db).2 := by
  induction runs generalizing errCnt s times db with
  | nil => cases timer <;> simpa [Handlers.exec, Env.runAll, shown] using h
  | cons p runs ih =>
    have hnext := ih (errCnt + (env.runOneSqlLine false p.1 p.2 s).1.toNat)
      (h.runOneSqlLine hquiet.1 false p.2) hquiet.2
    rw [List.append_assoc, ← shown_append, List.singleton_append] at hnext
    rw [List.map_cons, Handlers.exec, env.handlers_bails, if_neg Bool.false_ne_true]
    exact hnext

def Script.statements (script : Script) : List Text :=
  script.parts.map fun part => statementText part.2

theorem numbered_map_fst (n : ℕ) (parts : List (List Text × List Text)) :
    (numbered n parts).map Prod.fst = parts.map fun part => statementText part.2 := by
  induction parts generalizing n with
  | nil => rfl
  | cons part parts ih => simp [numbered, ih]

theorem Timed.readFile {env : Env D} {file : Text} {script : Script}
    (hfile : inputLines file = script.lines) (levels lineno : ℕ) {timer : Bool} {s : Session D}
    {times : List ℚ} {db : D} (h : Timed timer s times db)
    (hquiet : env.Quiet script.statements db) :
    Timed timer (env.readFile (levels + 1) file lineno s).2
      (times ++ shown timer (env.runAll script.statements db).1)
      (env.runAll script.statements db).2 := by
  have hmap := numbered_map_fst 0 script.parts
  have hexec := h.exec_runs (env.readFile levels) (numbered 0 script.parts) 0 (by rwa [hmap])
  rw [hmap] at hexec
  rw [Env.readFile, Handlers.processInput_eq_exec rfl, hfile, script.events_eq]
  exact hexec

theorem quickscan_hasDark {qss : QuickScanState} (h : qss.hasDark) (s : Text) :
    (quickscan s qss).hasDark := by
  have hstep : ∀ (st : QuickScanState) (s : Text) st' r, st.hasDark →
      quickStep st s = some (st', r) → st'.hasDark := by
    intro st s st' r hst hs
    cases s with
    | nil => cases hs
    | cons c s =>
      cases hw : st.wait with
      | none =>
        rw [quickStep_plain hw] at hs
        obtain rfl := congrArg Prod.fst (Option.some.inj hs)
        unfold plainScan
        split_ifs <;> simp [hst]
      | some w =>
        rw [quickStep_term hw] at hs
        obtain rfl := congrArg Prod.fst (Option.some.inj hs)
        unfold termScan
        split_ifs <;> simp [hst]
  obtain ⟨-, hdark⟩ := scanAll_invariant (P := fun (st : QuickScanState) (_ : Text) => st.hasDark)
    hstep (s := s) h
  exact hdark

theorem plainWhite_command (rest : Text) :
    (scanLines .start ['.' :: rest]).plainWhite = false := by
  have hdark : (quickscan ('.' :: rest) .start).hasDark := by
    rw [quickscan_plain rfl, plainScan_dark rfl]
    exact quickscan_hasDark rfl rest
  have hscan : scanLines .start ['.' :: rest] = quickscan ('.' :: rest) .start := rfl
  rw [hscan, QuickScanState.plainWhite, hdark]
  simp

def Handlers.afterCommand {S : Type*} (h : Handlers S) (lines : List Text) (st : InputState)
    (errCnt : ℕ) : MetaResult → S → Bool × S
  | .ok, s => h.loop lines st errCnt s
  | .error, s => h.loop lines st (errCnt + 1) s
  | .exit, s => (errCnt > 0, s)

theorem Handlers.loop_command {S : Type*} {h : Handlers S} {errCnt : ℕ}
    (hbails : h.bails errCnt = false) {n : ℕ} {st : InputState} (hst : Reading n [] st)
    {rest : Text} {s s' : S} {result : MetaResult}
    (hcommand : h.doMetaCommand ('.' :: rest) (n + 1) (h.prompt st s) = (result, s'))
    (lines : List Text) :
    ∃ st', Reading (n + 1) [] st' ∧ h.loop (('.' :: rest) :: lines) st errCnt s =
      h.afterCommand lines st' errCnt result s' := by
  have hterminator : lineIsCommandTerminator ('.' :: rest) = false := by
    rw [lineIsCommandTerminator, List.dropWhile_cons_of_neg (by decide)]
    cases rest <;> rfl
  have heff : st.effective ('.' :: rest) = '.' :: rest :=
    effective_of_not_terminator hterminator st
  have heq := hst.inputLine_eq ('.' :: rest)
  rw [heff] at heq
  simp only [List.nil_append, plainWhite_command, Bool.false_eq_true, false_and, if_false,
    List.head?_cons, true_or, and_self, if_true, List.length_singleton] at heq
  refine ⟨⟨[], .start, n + 1, st.startline⟩, reading_idle rfl rfl rfl, ?_⟩
  rw [Handlers.loop, hbails, if_neg Bool.false_ne_true, heq]
  simp only [hcommand]
  cases result <;> rfl

theorem isArgument_read : IsArgument "read".toList :=
  ⟨⟨by decide, eq_false_of_all (by decide +kernel)⟩, by decide +kernel⟩

theorem isArgument_queryFile (query : ℕ) : IsArgument (queryFile query) := by
  have hquery : "query".toList = 'q' :: "uery".toList := by decide +kernel
  unfold queryFile
  refine ⟨⟨?_, ?_⟩, ?_⟩
  · rw [hquery, List.append_assoc, List.cons_append]
    exact List.cons_ne_nil _ _
  · intro c hc
    rw [List.mem_append, List.mem_append] at hc
    rcases hc with (hc | hc) | hc
    · exact eq_false_of_all (by decide +kernel) c hc
    · have hdigit := Nat.isDigit_of_mem_toDigits (by decide) (by decide) hc
      exact decide_eq_false (not_mem_of_all rfl hdigit)
    · exact eq_false_of_all (by decide +kernel) c hc
  · rw [hquery, List.cons_append, List.cons_append, List.head?_cons]
    decide

theorem Env.doMetaCommand_read (env : Env D) {line name file : Text}
    (hargs : commandArgs line = ["read".toList, name]) (hsource : env.source name = some file)
    (read : Text → ℕ → Session D → Bool × Session D) (lineno : ℕ) (s : Session D) :
    env.doMetaCommand read line lineno s =
      (if (read file lineno s).1 then .error else .ok, (read file lineno s).2) := by
  rw [Env.doMetaCommand, hargs]
  dsimp only
  rw [if_neg (by decide +kernel), if_pos (by decide +kernel), hsource]

theorem Env.doMetaCommand_timer (env : Env D) {line arg : Text}
    (hargs : commandArgs line = ["timer".toList, arg]) (harg : booleanValue arg = (true, []))
    (read : Text → ℕ → Session D → Bool × Session D) (lineno : ℕ) (s : Session D) :
    env.doMetaCommand read line lineno s =
      (.ok, ({ s with enableTimer := true }).print []) := by
  rw [Env.doMetaCommand, hargs]
  dsimp only
  rw [if_neg (by decide +kernel), if_neg (by decide +kernel), if_pos rfl, harg]

theorem Env.doMetaCommand_quit (env : Env D) (read : Text → ℕ → Session D → Bool × Session D)
    (lineno : ℕ) (s : Session D) :
    env.doMetaCommand read ".quit".toList lineno s = (.exit, s) := by
  have hargs : commandArgs ".quit".toList = ["quit".toList] := by decide +kernel
  rw [Env.doMetaCommand, hargs]
  dsimp only
  rw [if_pos (by decide +kernel)]

theorem Logged.stdinPrompt {s : Session D} {times : List ℚ} (h : Logged s.out times) (env : Env D)
    (isTerminal : Bool) {st : InputState} (hst : st.sql = []) :
    ∃ out, (env.stdinHandlers isTerminal).prompt st s = { s with out := out } ∧
      Logged out times := by
  cases isTerminal with
  | false => exact ⟨s.out, rfl, h⟩
  | true =>
    refine ⟨s.out ++ [Env.mainPrompt], ?_, by simpa using h.append (.single .prompt)⟩
    simp [Handlers.prompt, Env.stdinHandlers, Env.handlers, Env.terminal, hst, Session.print,
      Session.write]

theorem Timed.prompt {timer : Bool} {s : Session D} {times : List ℚ} {db : D}
    (h : Timed timer s times db) (env : Env D) (isTerminal : Bool) {st : InputState}
    (hst : st.sql = []) : Timed timer ((env.stdinHandlers isTerminal).prompt st s) times db := by
  obtain ⟨out, hprompt, hout⟩ := h.logged.stdinPrompt env isTerminal hst
  rw [hprompt]
  exact ⟨h.enableTimer, hout, h.db⟩

theorem Env.stdinHandlers_bails (env : Env D) (isTerminal : Bool) (errCnt : ℕ) :
    (env.stdinHandlers isTerminal).bails errCnt = false :=
  env.handlers_bails _ _ errCnt

/-- A command with the times of its statements and the database after it, for the databases on
which it prints no mark. -/
structure Command (D : Type*) where
  line : Text
  quiet : D → Prop
  step : D → List ℚ × D

def runCommands : List (Command D) → D → List ℚ × D
  | [], db => ([], db)
  | c :: cs, db =>
    ((c.step db).1 ++ (runCommands cs (c.step db).2).1, (runCommands cs (c.step db).2).2)

def QuietCommands : List (Command D) → D → Prop
  | [], _ => True
  | c :: cs, db => c.quiet db ∧ QuietCommands cs (c.step db).2

/-- The shell does what the command says. -/
structure Env.Runs (env : Env D) (isTerminal timer : Bool) (c : Command D) : Prop where
  dot : ∃ rest, c.line = '.' :: rest
  timed : ∀ (lineno : ℕ) {s : Session D} {times : List ℚ} {db : D}, Timed timer s times db →
    c.quiet db → ∃ result s', (env.stdinHandlers isTerminal).doMetaCommand c.line lineno s =
      (result, s') ∧ result ≠ .exit ∧
      Timed timer s' (times ++ shown timer (c.step db).1) (c.step db).2

/-- The commands up to `.quit` are done one after the other, also after one that fails. -/
theorem Timed.loop_commands {env : Env D} {isTerminal timer : Bool} {commands : List (Command D)}
    (hruns : ∀ c ∈ commands, env.Runs isTerminal timer c)
    {n : ℕ} {st : InputState} (hst : Reading n [] st) (errCnt : ℕ) {s : Session D}
    {times : List ℚ} {db : D} (h : Timed timer s times db) (hquiet : QuietCommands commands db) :
    Timed timer ((env.stdinHandlers isTerminal).loop
        (commands.map Command.line ++ [".quit".toList]) st errCnt s).2
      (times ++ shown timer (runCommands commands db).1) (runCommands commands db).2 := by
  have hsql : st.sql = [] := hst.idle_iff.mpr rfl
  have hbails := env.stdinHandlers_bails isTerminal errCnt
  induction commands generalizing n st errCnt s times db with
  | nil =>
    have hquit : ".quit".toList = '.' :: "quit".toList := by decide +kernel
    have hcommand : (env.stdinHandlers isTerminal).doMetaCommand ('.' :: "quit".toList) (n + 1)
        ((env.stdinHandlers isTerminal).prompt st s) =
          (.exit, (env.stdinHandlers isTerminal).prompt st s) := by
      rw [← hquit]
      exact env.doMetaCommand_quit (env.readFile 24) (n + 1) _
    obtain ⟨st', -, hloop⟩ := Handlers.loop_command hbails hst hcommand []
    have hnil : shown timer [] = [] := by cases timer <;> rfl
    rw [List.map_nil, List.nil_append, hquit, hloop, runCommands, hnil, List.append_nil]
    exact h.prompt env isTerminal hsql
  | cons c commands ih =>
    obtain ⟨hc, hcommands⟩ := List.forall_mem_cons.mp hruns
    obtain ⟨rest, hdot⟩ := hc.dot
    obtain ⟨result, s', hcommand, hexit, htimed⟩ :=
      hc.timed (n + 1) (h.prompt env isTerminal hsql) hquiet.1
    rw [hdot] at hcommand
    obtain ⟨st', hst', hloop⟩ := Handlers.loop_command hbails hst hcommand
      (commands.map Command.line ++ [".quit".toList])
    rw [List.map_cons, List.cons_append, hdot, hloop, runCommands, shown_append,
      ← List.append_assoc]
    cases result with
    | ok => exact ih hcommands hst' errCnt htimed hquiet.2 (hst'.idle_iff.mpr rfl) hbails
    | error =>
      exact ih hcommands hst' (errCnt + 1) htimed hquiet.2 (hst'.idle_iff.mpr rfl)
        (env.stdinHandlers_bails isTerminal _)
    | exit => exact absurd rfl hexit

theorem runAll_append (env : Env D) (a b : List Text) (db : D) :
    env.runAll (a ++ b) db =
      ((env.runAll a db).1 ++ (env.runAll b (env.runAll a db).2).1,
        (env.runAll b (env.runAll a db).2).2) := by
  induction a generalizing db with
  | nil => rfl
  | cons sql a ih => simp [Env.runAll, ih]

theorem Env.quiet_append (env : Env D) (a b : List Text) (db : D) :
    env.Quiet (a ++ b) db ↔ env.Quiet a db ∧ env.Quiet b (env.runAll a db).2 := by
  induction a generalizing db with
  | nil => simp [Env.Quiet, Env.runAll]
  | cons sql a ih => simp [Env.Quiet, Env.runAll, ih, and_assoc]

def Env.readCommand (env : Env D) (name : Text) (script : Script) : Command D where
  line := ".read ".toList ++ name
  quiet := env.Quiet script.statements
  step := env.runAll script.statements

section Reads

variable (env : Env D) (name : ℕ → Text) (script : ℕ → Script)

theorem runCommands_reads (queries : List ℕ) (db : D) :
    runCommands (queries.map fun q => env.readCommand (name q) (script q)) db =
      env.runAll (queries.map fun q => (script q).statements).flatten db := by
  induction queries generalizing db with
  | nil => rfl
  | cons q queries ih =>
    rw [List.map_cons, runCommands, ih, List.map_cons, List.flatten_cons, runAll_append]
    rfl

theorem quietCommands_reads (queries : List ℕ) (db : D) :
    QuietCommands (queries.map fun q => env.readCommand (name q) (script q)) db ↔
      env.Quiet (queries.map fun q => (script q).statements).flatten db := by
  induction queries generalizing db with
  | nil => rfl
  | cons q queries ih =>
    rw [List.map_cons, QuietCommands, ih, List.map_cons, List.flatten_cons, env.quiet_append]
    rfl

end Reads

theorem Env.runs_read {env : Env D} (isTerminal timer : Bool) {name file : Text} {script : Script}
    (hname : IsArgument name) (hsource : env.source name = some file)
    (hfile : inputLines file = script.lines) :
    env.Runs isTerminal timer (env.readCommand name script) := by
  have hread : ".read ".toList = '.' :: ("read".toList ++ [' ']) := by decide +kernel
  have hline : (env.readCommand name script).line = '.' :: ("read".toList ++ ' ' :: name) := by
    rw [readCommand, hread, List.cons_append, List.append_assoc, List.singleton_append]
  refine ⟨⟨_, hline⟩, fun lineno s times db h hquiet => ?_⟩
  have hargs := commandArgs_word isArgument_read hname
  rw [hline]
  refine ⟨_, _, env.doMetaCommand_read hargs hsource (env.readFile 24) lineno s, ?_,
    h.readFile hfile 23 lineno hquiet⟩
  split <;> simp

theorem inputLines_hereDocument {lines : List Text}
    (h : ∀ line ∈ lines, '\n' ∉ line ∧ line.getLast? ≠ some '\r') :
    inputLines (hereDocument lines) = lines := by
  rw [inputLines, hereDocument, splitLines_lines fun line hl => (h line hl).1, List.map_map]
  conv_rhs => rw [← List.map_id lines]
  apply List.map_congr_left
  intro line hl
  simp [chomp, (h line hl).2]

def Env.querySums (env : Env D) : List (List Text) → D → List ℚ
  | [], _ => []
  | query :: queries, db =>
    (env.runAll query db).1.sum :: env.querySums queries (env.runAll query db).2

theorem Env.length_runAll (env : Env D) (sqls : List Text) (db : D) :
    (env.runAll sqls db).1.length = sqls.length := by
  induction sqls generalizing db with
  | nil => rfl
  | cons sql sqls ih => simp [Env.runAll, ih]

theorem Env.sumByQuery_runAll (env : Env D) {query : ℕ} {queries : List (List Text)}
    (h : ∀ i, ∀ hi : i < queries.length, queries[i].length = timerCount (query + i)) (db : D) :
    sumByQuery queries.length query (env.runAll queries.flatten db).1 =
      env.querySums queries db := by
  induction queries generalizing query db with
  | nil => rfl
  | cons q queries ih =>
    have hq : (env.runAll q db).1.length = timerCount query := by
      rw [env.length_runAll]
      exact h 0 (by simp)
    have hqueries : ∀ i, ∀ hi : i < queries.length,
        queries[i].length = timerCount (query + 1 + i) := by
      intro i hi
      rw [Nat.add_assoc, Nat.add_comm 1 i]
      exact h (i + 1) (by simpa using hi)
    rw [List.flatten_cons, runAll_append, List.length_cons, sumByQuery,
      if_pos (by simp [hq]), ← hq, List.take_left, List.drop_left, ih hqueries]
    rfl

theorem powerInput_lines : inputLines powerInput = [".timer on".toList] ++
    (List.range 22).map (fun i => ".read ".toList ++ queryFile (i + 1)) ++ [".quit".toList] := by
  apply inputLines_hereDocument
  decide +kernel

def powerQueries (script : ℕ → Script) : List (List Text) :=
  (List.range 22).map fun i => (script (i + 1)).statements

/-- The files of the queries are scripts, with three statements for query 15 and one for each of
the others. -/
def Env.HasQueries (env : Env D) (script : ℕ → Script) : Prop :=
  ∀ query, 1 ≤ query → query ≤ 22 → ∃ file, env.source (queryFile query) = some file ∧
    inputLines file = (script query).lines ∧ (script query).parts.length = timerCount query

/-- A power run prints the times of all statements. A statement that fails has its time too and
stops neither its script nor the run. -/
theorem Env.HasQueries.timed {env : Env D} {script : ℕ → Script} (h : env.HasQueries script)
    (isTerminal : Bool) {db : D} (hquiet : env.Quiet (powerQueries script).flatten db) :
    Timed true (env.stdinRun isTerminal powerInput ⟨db, false, []⟩).2
      (env.runAll (powerQueries script).flatten db).1
      (env.runAll (powerQueries script).flatten db).2 := by
  have hinit : Reading 0 [] .init := reading_idle rfl rfl rfl
  have hstart : Logged (⟨db, false, []⟩ : Session D).out [] := .nil
  obtain ⟨out, hprompt, hout⟩ := hstart.stdinPrompt env isTerminal (hinit.idle_iff.mpr rfl)
  have htimer : ".timer on".toList = '.' :: "timer on".toList := by decide +kernel
  have hargs : commandArgs ".timer on".toList = ["timer".toList, "on".toList] := by decide +kernel
  have hon : booleanValue "on".toList = (true, []) := by decide +kernel
  have hcommand : (env.stdinHandlers isTerminal).doMetaCommand ('.' :: "timer on".toList) 1
      ((env.stdinHandlers isTerminal).prompt .init ⟨db, false, []⟩) =
        (.ok, ⟨db, true, out ++ [[]]⟩) := by
    rw [← htimer, hprompt]
    exact env.doMetaCommand_timer hargs hon (env.readFile 24) 1 _
  have htimed : Timed true (⟨db, true, out ++ [[]]⟩ : Session D) [] db :=
    ⟨rfl, hout.quiet .nil, rfl⟩
  have hruns : ∀ c ∈ ((List.range 22).map (· + 1)).map (fun q =>
      env.readCommand (queryFile q) (script q)), env.Runs isTerminal true c := by
    intro c hc
    obtain ⟨q, hq, rfl⟩ := List.mem_map.mp hc
    obtain ⟨i, hi, rfl⟩ := List.mem_map.mp hq
    obtain ⟨file, hsource, hfile, -⟩ := h (i + 1) (by omega)
      (Nat.succ_le_of_lt (List.mem_range.mp hi))
    exact env.runs_read isTerminal true (isArgument_queryFile (i + 1)) hsource hfile
  have hqueries : ((List.range 22).map (· + 1)).map (fun q => (script q).statements) =
      powerQueries script := by
    rw [powerQueries, List.map_map]
    rfl
  obtain ⟨st, hst, hloop⟩ := Handlers.loop_command (env.stdinHandlers_bails isTerminal 0) hinit
    hcommand ((List.range 22).map (fun i => ".read ".toList ++ queryFile (i + 1)) ++
      [".quit".toList])
  have hrun := htimed.loop_commands hruns hst 0
    ((quietCommands_reads env queryFile script _ db).mpr (by rwa [hqueries]))
  rw [runCommands_reads, hqueries, List.nil_append, shown, if_pos rfl, List.map_map,
    List.map_map] at hrun
  rw [Env.stdinRun, Handlers.processInput, powerInput_lines, htimer, List.append_assoc,
    List.singleton_append, hloop]
  exact hrun

/-- What the console shows of a session on the given input. -/
def Env.screen (env : Env D) (console : Console) (session : ℕ) (input : Text) (db : D) : Text :=
  console.display session (env.stdinRun console.isTerminal input ⟨db, false, []⟩).2.out
    (if console.isTerminal then input else [])

theorem Timed.settled_screen {env : Env D} {console : Console} {timer : Bool} {input : Text}
    {db db' : D} {times : List ℚ}
    (h : Timed timer (env.stdinRun console.isTerminal input ⟨db, false, []⟩).2 times db')
    (hinput : IsInput input) (session : ℕ) {text : Text} {ts : List ℚ} (htext : Settled text ts) :
    Settled (text ++ env.screen console session input db) (ts ++ times) := by
  refine console.settled_append session htext h.logged ?_
  split
  · exact hinput
  · exact .nil

theorem isInput_powerInput : IsInput powerInput :=
  .of_head (by decide +kernel : powerInput.head? = some '.') (by decide +kernel) (by decide +kernel)
    (by decide +kernel)

theorem Env.HasQueries.queryTimes_eq {env : Env D} {script : ℕ → Script}
    (h : env.HasQueries script) (db : D) :
    queryTimes (env.runAll (powerQueries script).flatten db).1 =
      env.querySums (powerQueries script) db := by
  have hcount : ∀ i, ∀ hi : i < (powerQueries script).length,
      (powerQueries script)[i].length = timerCount (1 + i) := by
    intro i hi
    rw [powerQueries, List.length_map, List.length_range] at hi
    obtain ⟨-, -, -, hlength⟩ := h (i + 1) (by omega) (by omega)
    simpa [powerQueries, Script.statements, Nat.add_comm 1 i] using hlength
  have hlength : (powerQueries script).length = 22 := by simp [powerQueries]
  rw [queryTimes, ← env.sumByQuery_runAll hcount, hlength]

/-- The times that are extracted from the console of a power run are those of the queries. -/
theorem Env.powerRun_extract {env : Env D} {script : ℕ → Script}
    (hscript : env.HasQueries script) (console : Console) (session : ℕ) (db : D)
    (hquiet : env.Quiet (powerQueries script).flatten db) :
    extractRunTimes (env.screen console session powerInput db) =
        env.querySums (powerQueries script) db ∧
      (env.stdinRun console.isTerminal powerInput ⟨db, false, []⟩).2.db =
        (env.runAll (powerQueries script).flatten db).2 := by
  have hrun := hscript.timed console.isTerminal hquiet
  have hscreen := hrun.settled_screen isInput_powerInput session .nil
  rw [List.nil_append, List.nil_append] at hscreen
  exact ⟨by rw [extractRunTimes_eq_timesIn, hscreen.timesIn, hscript.queryTimes_eq], hrun.db⟩

def createRevenue : List Text :=
  ["create view revenue0 (supplier_no, total_revenue) as", "        select",
   "                l_suppkey,", "                sum(l_extendedprice * (1 - l_discount))",
   "        from", "                lineitem", "        where",
   "                l_shipdate >= date('1995-03-01')",
   "                and l_shipdate < date('1995-03-01', '+3 months')", "        group by",
   "                l_suppkey;"].map String.toList

def selectRevenue : List Text :=
  ["select", "        s_suppkey,", "        s_name,", "        s_address,", "        s_phone,",
   "        total_revenue", "from", "        supplier,", "        revenue0", "where",
   "        s_suppkey = supplier_no", "        and total_revenue = (", "                select",
   "                        max(total_revenue)", "                from",
   "                        revenue0", "        )", "order by",
   "        s_suppkey;"].map String.toList

def dropRevenue : List Text :=
  ["drop view revenue0;"].map String.toList

def query15 : Script where
  parts := [([], createRevenue), ([[]], selectRevenue), ([[]], dropRevenue)]
  rest := [[]]
  blank := by decide +kernel
  statement := by decide +kernel
  rest_blank := by decide +kernel

def selectScript : Script where
  parts := [([], ["select 1;".toList])]
  rest := []
  blank := by decide +kernel
  statement := by decide +kernel
  rest_blank := by decide +kernel

theorem isDigit_one : '1'.isDigit = true := rfl

/-- Every statement takes a second, and the first one of query 15 fails. -/
def oneSecond : Env Unit where
  source name := some <| hereDocument <|
    if name = queryFile 15 then query15.lines else selectScript.lines
  shellExec sql _ :=
    { output := if sql = statementText createRevenue then [] else ["1\n".toList]
      real := .ofDigit '1' isDigit_one
      user := .ofDigit '1' isDigit_one
      sys := .ofDigit '1' isDigit_one
      rc := sql = statementText createRevenue
      zErrMsg := none
      errmsg := "view revenue0 already exists".toList
      db := () }
  otherCommand _ _ := (.error, [], ())
  continuePrompt := "   ...> ".toList

def oneSecondScript (query : ℕ) : Script := if query = 15 then query15 else selectScript

theorem quiet_oneSecond (sqls : List Text) (db : Unit) : oneSecond.Quiet sqls db := by
  induction sqls generalizing db with
  | nil => trivial
  | cons sql sqls ih =>
    have hrow : Quiet "1\n".toList := ⟨Or.inr ⟨['1'], by decide +kernel⟩, by decide +kernel⟩
    have herror : (oneSecond.shellExec sql db).error.2 =
        "view revenue0 already exists".toList := rfl
    refine ⟨⟨fun w hw => ?_, fun _ => ?_⟩, ih _⟩
    · simp only [oneSecond] at hw
      split at hw
      · cases hw
      · exact List.mem_singleton.mp hw ▸ hrow
    · rw [herror]
      decide +kernel

theorem hasQueries_oneSecond : oneSecond.HasQueries oneSecondScript := by
  have hfile : ∀ query ∈ List.range 23, query ≠ 15 → queryFile query ≠ queryFile 15 := by
    decide +kernel
  have hlines : ∀ script ∈ [query15.lines, selectScript.lines],
      inputLines (hereDocument script) = script := by
    intro script hscript
    apply inputLines_hereDocument
    have hall : ∀ script ∈ [query15.lines, selectScript.lines], ∀ line ∈ script,
        '\n' ∉ line ∧ line.getLast? ≠ some '\r' := by decide +kernel
    exact hall script hscript
  intro query h1 h22
  unfold oneSecondScript
  by_cases h15 : query = 15
  · subst h15
    exact ⟨_, rfl, hlines query15.lines (by simp), rfl⟩
  · have hne := hfile query (List.mem_range.mpr (by omega)) h15
    have hsource : oneSecond.source (queryFile query) = some (hereDocument selectScript.lines) :=
      congrArg (fun lines => some (hereDocument lines)) (if_neg hne)
    refine ⟨_, hsource, ?_, ?_⟩
    · rw [if_neg h15]
      exact hlines selectScript.lines (by simp)
    · rw [if_neg h15, timerCount, if_neg h15]
      rfl

theorem quiet_greeting : Quiet "OSv v0.57.0\n".toList :=
  ⟨Or.inr ⟨"OSv v0.57.0".toList, by decide +kernel⟩, by decide +kernel⟩

/-- A terminal on which the whole input is echoed before the shell writes anything. -/
def echoFirst : Console where
  isTerminal := true
  display _ writes echo :=
    discipline true "OSv v0.57.0\n".toList ++ (echo ++ writes.flatMap (discipline true))
  shows _ writes echo := by
    have hshows := (Shows.flatMap true writes).echo_append echo
    rw [List.append_nil] at hshows
    exact .message quiet_greeting hshows

theorem powerRun_extract_oneSecond :
    extractRunTimes (oneSecond.screen echoFirst 1 powerInput ()) =
      List.replicate 14 1 ++ 3 :: List.replicate 7 1 := by
  rw [(Env.powerRun_extract hasQueries_oneSecond echoFirst 1 () (quiet_oneSecond _ ())).1]
  decide +kernel

end TpchBench.Shell
