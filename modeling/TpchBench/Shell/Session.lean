import TpchBench.Shell.Input
import TpchBench.Timing.Osv

/-! # A session of the shell

The benchmark drives the shell with `.timer` and `.read`. With the timer on, every statement is
followed by its times, whether it succeeds or not, and a script is read to its end after an
error. So what a power run prints is one section for each query, in order, and the extractor
attributes all times correctly, whatever fails.
-/

namespace TpchBench.Shell

open Timing

/-- `hexDigitValue`, which is negative for other characters. -/
def hexDigitValue (c : Char) : Option ℕ :=
  if c.isDigit then some (c.toNat - '0'.toNat)
  else if 'a' ≤ c ∧ c ≤ 'f' then some (c.toNat - 'a'.toNat + 10)
  else if 'A' ≤ c ∧ c ≤ 'F' then some (c.toNat - 'A'.toNat + 10)
  else none

def isOctal (c : Char) : Bool := '0' ≤ c ∧ c ≤ '7'

/-- The leading characters, at most `k`, that are digits in a base, with their value. -/
def digits (value : Char → Option ℕ) (base : ℕ) : ℕ → ℕ → Text → ℕ × Text
  | 0, v, s => (v, s)
  | _, v, [] => (v, [])
  | k + 1, v, c :: s =>
    match value c with
    | none => (v, c :: s)
    | some d => digits value base k (base * v + d) s

def escape (c : Char) (s : Text) : Char × Text :=
  if c = 'a' then ('\x07', s)
  else if c = 'b' then ('\x08', s)
  else if c = 't' then ('\t', s)
  else if c = 'n' then ('\n', s)
  else if c = 'v' then ('\x0b', s)
  else if c = 'f' then ('\x0c', s)
  else if c = 'r' then ('\r', s)
  else if c = 'x' then
    let (v, s) := digits hexDigitValue 16 2 0 s
    (Char.ofNat v, s)
  else if isOctal c then
    let (v, s) := digits (fun c => if isOctal c then some (c.toNat - '0'.toNat) else none) 8 3 0
      (c :: s)
    (Char.ofNat (v % 256), s)
  else (c, s)

def escapeStep (z : Text) : Text → Option (Text × Text)
  | [] => none
  | ['\\'] => some (z ++ ['\\'], [])
  | '\\' :: c :: s =>
    let (c, s) := escape c s
    some (z ++ [c], s)
  | c :: s => some (z ++ [c], s)

/-- `resolve_backslashes`, with the text up to the first NUL that it leaves. -/
def resolveBackslashes (z : Text) : Text := (scanAll escapeStep [] z).takeWhile (· ≠ '\x00')

/-- A quoted argument and what follows it; between double quotes a backslash hides the next
character. -/
def quotedArg (delim : Char) : Text → Text × Text
  | [] => ([], [])
  | c :: s =>
    if c = delim then ([], s)
    else
      match s with
      | d :: s' =>
        if c = '\\' ∧ delim = '"' then
          let (arg, rest) := quotedArg delim s'
          (c :: d :: arg, rest)
        else
          let (arg, rest) := quotedArg delim (d :: s')
          (c :: arg, rest)
      | [] => ([c], [])

def argStep (args : List Text) (s : Text) : Option (List Text × Text) :=
  if args.length ≥ 51 then none
  else
    match s.dropWhile isspace with
    | [] => none
    | c :: s =>
      if c = '\'' then
        let (arg, rest) := quotedArg c s
        some (args ++ [arg], rest)
      else if c = '"' then
        let (arg, rest) := quotedArg c s
        some (args ++ [resolveBackslashes arg], rest)
      else
        some (args ++ [c :: s.takeWhile (! isspace ·)], (s.dropWhile (! isspace ·)).tail)

/-- The arguments of a command, at most 51. -/
def commandArgs (line : Text) : List Text := scanAll argStep [] line.tail

theorem quotedArg_length (delim : Char) (s : Text) : (quotedArg delim s).2.length ≤ s.length := by
  fun_induction quotedArg delim s with
  | case1 => simp
  | case2 => simp
  | case3 c _ d s' _ arg rest heq ih =>
    rw [heq] at ih
    simp only [List.length_cons]
    exact ih.trans (by omega)
  | case4 c _ d s' _ arg rest heq ih =>
    rw [heq] at ih
    exact ih.trans (by simp)
  | case5 => simp

theorem argStep_advancing : Advancing argStep := by
  intro args s args' r h
  unfold argStep at h
  split at h
  · cases h
  · have hdrop : (s.dropWhile isspace).length ≤ s.length := List.length_dropWhile_le isspace s
    split at h
    · cases h
    · rename_i c t heq
      rw [heq, List.length_cons] at hdrop
      split_ifs at h
      · obtain ⟨-, rfl⟩ := Prod.mk.inj (Option.some.inj h)
        exact (Nat.lt_succ_of_le (quotedArg_length c t)).trans_le hdrop
      · obtain ⟨-, rfl⟩ := Prod.mk.inj (Option.some.inj h)
        exact (Nat.lt_succ_of_le (quotedArg_length c t)).trans_le hdrop
      · obtain ⟨-, rfl⟩ := Prod.mk.inj (Option.some.inj h)
        have htail := List.length_dropWhile_le (! isspace ·) t
        rw [List.length_tail]
        omega

/-- A word that is an argument without quotes. -/
structure IsArgument (w : Text) : Prop extends IsWord isspace w where
  noQuote : w.head? ≠ some '\'' ∧ w.head? ≠ some '"'

theorem argStep_word {w : Text} (hw : IsArgument w) {args : List Text} (hargs : args.length < 51)
    (rest : Text) (hrest : ∀ c ∈ rest.head?, isspace c) :
    argStep args (w ++ rest) = some (args ++ [w], rest.tail) := by
  obtain ⟨c, w, rfl⟩ := List.exists_cons_of_ne_nil hw.ne_nil
  obtain ⟨hc, hw'⟩ := List.forall_mem_cons.mp hw.noSep
  have h1 : c ≠ '\'' := fun h => hw.noQuote.1 (congrArg some h)
  have h2 : c ≠ '"' := fun h => hw.noQuote.2 (congrArg some h)
  have htake : (w ++ rest).takeWhile (! isspace ·) = w ∧
      (w ++ rest).dropWhile (! isspace ·) = rest := by
    have hpos : ∀ d ∈ w, (! isspace d) = true := fun d hd => by rw [hw' d hd]; rfl
    rw [List.takeWhile_append_of_pos hpos, List.dropWhile_append_of_pos hpos]
    cases rest with
    | nil => simp
    | cons d rest => simp [hrest d rfl]
  rw [argStep, if_neg (by omega), List.cons_append, List.dropWhile_cons_of_neg (by simp [hc])]
  simp only [if_neg h1, if_neg h2, htake]

theorem commandArgs_word {cmd arg : Text} (hcmd : IsArgument cmd) (harg : IsArgument arg) :
    commandArgs ('.' :: (cmd ++ ' ' :: arg)) = [cmd, arg] := by
  have hfirst : argStep [] (cmd ++ ' ' :: arg) = some ([cmd], arg) :=
    argStep_word hcmd (by simp) _ (by simp [isspace])
  have hsecond : argStep [cmd] (arg ++ []) = some ([cmd, arg], []) :=
    argStep_word harg (by simp) _ (by simp)
  rw [List.append_nil] at hsecond
  rw [commandArgs, List.tail_cons, scanAll_of_some argStep_advancing hfirst]
  exact scanAll_of_some argStep_advancing hsecond

/-- `sqlite3_stricmp` as an equality. -/
def stricmp (a b : Text) : Bool := a.map Char.toLower = b.map Char.toLower

/-- `booleanValue`, with the message that it prints. -/
def booleanValue (z : Text) : Bool × Text :=
  let hex := z.take 2 = ['0', 'x']
  let value := if hex then hexDigitValue else
    fun c => if c.isDigit then some (c.toNat - '0'.toNat) else none
  let (v, rest) := digits value (if hex then 16 else 10) z.length 0 (if hex then z.drop 2 else z)
  if z ≠ [] ∧ rest = [] then (v % 2 ^ 32 ≠ 0, [])
  else if stricmp z "on".toList ∨ stricmp z "yes".toList then (true, [])
  else if stricmp z "off".toList ∨ stricmp z "no".toList then (false, [])
  else (false, "ERROR: Not a boolean value: \"".toList ++ z ++ "\". Assuming \"no\".\n".toList)

/-- What `shell_exec` does with a statement: what it writes, how long it takes, whether it
returns an error, the message it may set, the message of `sqlite3_errmsg`, and the database
afterwards. -/
structure ExecResult (D : Type*) where
  output : List Text
  real : Decimal
  user : Decimal
  sys : Decimal
  rc : Bool
  zErrMsg : Option Text
  errmsg : Text
  db : D

variable {D : Type*}

def ExecResult.failed (r : ExecResult D) : Bool := r.rc || r.zErrMsg.isSome

def ExecResult.timerLine (r : ExecResult D) : Text := timerText r.real r.user r.sys ++ ['\n']

def ExecResult.error (r : ExecResult D) : Text × Text :=
  match r.zErrMsg with
  | none => ("Error".toList, r.errmsg)
  | some msg =>
    if msg.take 12 = "in prepare, ".toList then ("Parse error".toList, msg.drop 12)
    else if msg.take 10 = "stepping, ".toList then ("Runtime error".toList, msg.drop 10)
    else ("Error".toList, msg)

/-- The message for an error; at a terminal it has no line number. -/
def ExecResult.errorMessage (r : ExecResult D) (atTerminal : Bool) (startline : ℕ) : Text :=
  let (kind, description) := r.error
  kind ++ (if atTerminal then [] else " near line ".toList ++ Nat.toDigits 10 startline) ++
    ": ".toList ++ description ++ ['\n']

/-- What the shell is given: the files, or with a leading `|` the outputs of commands, that can
be read; the meaning of statements and of the other dot-commands; the prompt inside statements. -/
structure Env (D : Type*) where
  source : Text → Option Text
  shellExec : Text → D → ExecResult D
  otherCommand : List Text → D → MetaResult × List Text × D
  continuePrompt : Text

/-- The state of the shell; `out` is what it has written, on `stdout` and `stderr` alike. -/
structure Session (D : Type*) where
  db : D
  enableTimer : Bool
  out : List Text

def Session.write (s : Session D) (texts : List Text) : Session D :=
  { s with out := s.out ++ texts }

def Session.print (s : Session D) (text : Text) : Session D := s.write [text]

namespace Env

/-- `runOneSqlLine`: the times are printed before the error. -/
def runOneSqlLine (env : Env D) (atTerminal : Bool) (sql : Text) (startline : ℕ) (s : Session D) :
    Bool × Session D :=
  let r := env.shellExec sql s.db
  let s := ({ s with db := r.db }).write r.output
  let s := if s.enableTimer then s.print r.timerLine else s
  if r.failed then (true, s.print (r.errorMessage atTerminal startline)) else (false, s)

/-- `do_meta_command`; `read` is `process_input` on the file of a `.read`. -/
def doMetaCommand (env : Env D) (read : Text → ℕ → Session D → Bool × Session D) (line : Text)
    (lineno : ℕ) (s : Session D) : MetaResult × Session D :=
  match commandArgs line with
  | [] => (.ok, s)
  | cmd :: args =>
    if cmd ≠ [] ∧ cmd <+: "quit".toList then (.exit, s)
    else if 3 ≤ cmd.length ∧ cmd <+: "read".toList then
      match args with
      | [name] =>
        match env.source name with
        | none => (.error, s.print ("Error: cannot open \"".toList ++ name ++ "\"\n".toList))
        | some file =>
          let (err, s) := read file lineno s
          (if err then .error else .ok, s)
      | _ => (.error, s.print "Usage: .read FILE\n".toList)
    else if cmd = "timer".toList then
      match args with
      | [arg] => (.ok, ({ s with enableTimer := (booleanValue arg).1 }).print (booleanValue arg).2)
      | _ => (.error, s.print "Usage: .timer on|off\n".toList)
    else
      let (result, texts, db) := env.otherCommand (cmd :: args) s.db
      (result, ({ s with db := db }).write texts)

def handlers (env : Env D) (read : Text → ℕ → Session D → Bool × Session D)
    (terminal : Option (Terminal (Session D))) : Handlers (Session D) where
  runOneSqlLine := env.runOneSqlLine terminal.isSome
  doMetaCommand := env.doMetaCommand read
  bailOnError := false
  terminal := terminal

/-- `process_input` on a file where the given number of levels is left of `MAX_INPUT_NESTING`. -/
def readFile (env : Env D) : ℕ → Text → ℕ → Session D → Bool × Session D
  | 0, _, lineno, s =>
    (true, s.print ("Input nesting limit (25) reached at line ".toList ++
      Nat.toDigits 10 lineno ++ ". Check recursion.\n".toList))
  | levels + 1, file, _, s => (env.handlers (env.readFile levels) none).processInput file s

def mainPrompt : Text := "sqlite> ".toList

def terminal (env : Env D) : Terminal (Session D) where
  prompt continued s := s.print (if continued then env.continuePrompt else mainPrompt)
  eof s := s.print ['\n']

/-- The standard input, which may be a terminal, is the first level. -/
def stdinHandlers (env : Env D) (isTerminal : Bool) : Handlers (Session D) :=
  env.handlers (env.readFile 24) (if isTerminal then some env.terminal else none)

def stdinRun (env : Env D) (isTerminal : Bool) (input : Text) (s : Session D) :
    Bool × Session D :=
  (env.stdinHandlers isTerminal).processInput input s

end Env

def queryFile (query : ℕ) : Text := "query".toList ++ Nat.toDigits 10 query ++ ".sql".toList

def hereDocument (lines : List Text) : Text := lines.flatMap fun line => line ++ ['\n']

/-- The input of an iteration of OSv's `benchmark.sh`. -/
def powerInput : Text :=
  hereDocument ([".timer on".toList] ++
    (List.range 22).map (fun i => ".read ".toList ++ queryFile (i + 1)) ++ [".quit".toList])

end TpchBench.Shell
