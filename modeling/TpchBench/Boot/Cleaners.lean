import TpchBench.Boot.Launches
import TpchBench.Text.Python

/-! # The boot time cleaners

`measure-boot-time.sh` appends the output of all launches to one file, two warm-ups first, and
`clean-boot-time.py` makes a table of the boot times. The variant with the shell's timer writes
a start line before every launch and counts these lines. The variant with the built-in timer
has only the line that a launch prints when it has booted, so it counts successful launches.

`round(t, 3)` is a parameter of both cleaners, and times are exact.
-/

namespace TpchBench.Boot

open Python

theorem foldlM_skip {σ β : Type*} {f : σ → β → Option σ} {s : σ} {xs : List β}
    (h : ∀ x ∈ xs, f s x = some s) : xs.foldlM f s = some s := by
  induction xs with
  | nil => rfl
  | cons x xs ih =>
    obtain ⟨hx, hxs⟩ := List.forall_mem_cons.mp h
    rw [List.foldlM_cons, hx]
    exact ih hxs

theorem foldlM_skip_lines {σ : Type*} {f : σ → Text → Option σ} {s : σ} {ls : List Text}
    (h : ∀ l ∈ ls, ∀ p ∈ readlines (l ++ ['\n']), f s p = some s) :
    (ls.flatMap fun l => readlines (l ++ ['\n'])).foldlM f s = some s := by
  apply foldlM_skip
  intro p hp
  obtain ⟨l, hl, hp⟩ := List.mem_flatMap.mp hp
  exact h l hl p hp

theorem not_mem_digits {d : Text} (h : IsDigits d) {c : Char} (hc : c.isDigit = false) :
    c ∉ d := by
  intro hmem
  have hd := h.isDigit c hmem
  rw [hc] at hd
  exact absurd hd (by decide)

theorem isspace_digits {d : Text} (h : IsDigits d) : ∀ c ∈ d, isspace c = false :=
  fun c hc => isspace_eq_false_of_isDigit (h.isDigit c hc)

namespace Bash

def startMark : Text := "Current Time (ms):".toList

def promptMark : Text := "sqlite>".toList

/-- The variables of `clean-boot-time.py`. -/
structure State where
  iteration : ℕ
  currentTimeList : List ℤ
  sqliteTimeList : List ℤ
  rows : List (ℕ × ℚ)

/-- `line.strip().startswith('sqlite>') and len(line.strip().split()) == 2` -/
def isPrompt (line : Text) : Bool :=
  decide (promptMark <+: strip line) && (words (strip line)).length = 2

/-- The body of the loop over the lines; `none` is an exception. -/
def cleanLine (round : ℚ → ℚ) (st : State) (line : Text) : Option State :=
  if strstr line startMark then do
    let part ← (line.splitOn ':')[1]?
    let currentTimeMs ← int (strip part)
    some { st with
      iteration := st.iteration + 1
      currentTimeList := st.currentTimeList ++ [currentTimeMs] }
  else if isPrompt line then do
    let word ← (words (strip line))[1]?
    let sqliteTimeMs ← int word
    let st := { st with sqliteTimeList := st.sqliteTimeList ++ [sqliteTimeMs] }
    if 3 ≤ st.iteration then do
      let sqlite ← st.sqliteTimeList.getLast?
      let current ← st.currentTimeList.getLast?
      some { st with
        rows := st.rows ++ [(st.iteration - 2, round ((sqlite - current : ℤ) / 1000))] }
    else some st
  else some st

/-- The rows that `clean-boot-time.py` writes below the header. -/
def cleanBootTime (round : ℚ → ℚ) (file : Text) : Option (List (ℕ × ℚ)) :=
  ((readlines file).foldlM (cleanLine round) ⟨0, [], [], []⟩).map State.rows

def Unrelated (line : Text) : Prop := strstr line startMark = false ∧ isPrompt line = false

/-- A launch: when the script started it, the lines that it printed, and the time among them
if it did not fail. -/
structure Launch where
  start : Text
  before : List Text
  stamp : Option Text
  after : List Text
  start_digits : IsDigits start
  stamp_digits : ∀ d ∈ stamp, IsDigits d
  unrelated : ∀ l ∈ before ++ after, ∀ p ∈ readlines (l ++ ['\n']), Unrelated p

namespace Launch

def lines (launch : Launch) : List Text :=
  (startMark ++ ' ' :: launch.start) ::
    (launch.before ++ (launch.stamp.map fun d => promptMark ++ ' ' :: d).toList ++ launch.after)

def bootTime (launch : Launch) : Option ℚ :=
  launch.stamp.map fun d => ((digitsValue d - digitsValue launch.start : ℤ) : ℚ) / 1000

end Launch

def measureBootTime (launches : List Launch) : Text :=
  (launches.flatMap Launch.lines).flatMap (· ++ ['\n'])

theorem cleanLine_unrelated (round : ℚ → ℚ) (st : State) {line : Text} (h : Unrelated line) :
    cleanLine round st line = some st := by
  simp [cleanLine, h.1, h.2]

theorem not_mem_marked (mark : Text) {d : Text} (h : IsDigits d) {c : Char} (hmark : c ∉ mark)
    (hblank : c ≠ ' ') (hc : c.isDigit = false) : c ∉ mark ++ ' ' :: d := by
  rw [List.mem_append, List.mem_cons, not_or, not_or]
  exact ⟨hmark, hblank, not_mem_digits h hc⟩

theorem readlines_marked (mark : Text) {d : Text} (h : IsDigits d) (hn : '\n' ∉ mark)
    (hr : '\r' ∉ mark) :
    readlines (mark ++ ' ' :: d ++ ['\n']) = [mark ++ ' ' :: d ++ ['\n']] :=
  readlines_line (not_mem_marked mark h hn (by decide) (by decide))
    (not_mem_marked mark h hr (by decide) (by decide))

theorem cleanLine_start (round : ℚ → ℚ) (st : State) {start : Text} (h : IsDigits start) :
    cleanLine round st (startMark ++ ' ' :: start ++ ['\n']) = some
      { st with
        iteration := st.iteration + 1
        currentTimeList := st.currentTimeList ++ [(digitsValue start : ℤ)] } := by
  have hin : strstr (startMark ++ ' ' :: start ++ ['\n']) startMark = true := by
    rw [strstr, decide_eq_true_eq, List.append_assoc]
    exact (List.prefix_append _ _).isInfix
  have hsplit : (startMark ++ ' ' :: start ++ ['\n']).splitOn ':' =
      ["Current Time (ms)".toList, ' ' :: start ++ ['\n']] := by
    have hmark : startMark = "Current Time (ms)".toList ++ [':'] := by decide
    have hrest : ':' ∉ ' ' :: start ++ ['\n'] := by
      rw [List.mem_append, not_or]
      exact ⟨not_mem_marked [] h (by simp) (by decide) (by decide), by decide⟩
    rw [hmark, List.append_assoc, List.append_assoc, List.singleton_append,
      List.splitOn_append_cons_self_of_not_mem (by decide), List.splitOn_eq_singleton hrest]
  have hstrip : strip (' ' :: (start ++ ['\n'])) = start :=
    strip_append (a := [' ']) (List.all_eq_true.mp rfl) (List.all_eq_true.mp rfl) h.1
      (fun c hc => isspace_digits h c (List.mem_of_mem_head? hc))
      fun c hc => isspace_digits h c (List.mem_of_mem_getLast? hc)
  rw [cleanLine, if_pos hin, hsplit]
  simp [hstrip, int_digits h]

theorem words_prompt {d : Text} (h : IsDigits d) :
    strip (promptMark ++ ' ' :: d ++ ['\n']) = promptMark ++ ' ' :: d ∧
      words (promptMark ++ ' ' :: d) = [promptMark, d] := by
  have hmark : ∀ c ∈ promptMark, isspace c = false := eq_false_of_all rfl
  constructor
  · refine strip_append (a := []) (s := promptMark ++ ' ' :: d) (b := ['\n']) (by simp)
      (List.all_eq_true.mp rfl) (by simp) ?_ ?_
    · intro c hc
      exact hmark c (List.mem_of_mem_head? hc)
    · intro c hc
      rw [← List.singleton_append, ← List.append_assoc, List.getLast?_append_of_ne_nil _ h.1] at hc
      exact isspace_digits h c (List.mem_of_mem_getLast? hc)
  · rw [words_cons (by decide) hmark (by decide), words_last h.1 (isspace_digits h)]

theorem cleanLine_prompt (round : ℚ → ℚ) {st : State} {d : Text} (h : IsDigits d) {current : ℤ}
    (hcurrent : st.currentTimeList.getLast? = some current) :
    cleanLine round st (promptMark ++ ' ' :: d ++ ['\n']) = some
      { st with
        sqliteTimeList := st.sqliteTimeList ++ [(digitsValue d : ℤ)]
        rows := st.rows ++ (launchRow st.iteration
          (round ((digitsValue d - current : ℤ) / 1000))).toList } := by
  have hin : strstr (promptMark ++ ' ' :: d ++ ['\n']) startMark = false := by
    rw [strstr, decide_eq_false_iff_not]
    intro hinfix
    have hC : 'C' ∈ promptMark ++ ' ' :: d ++ ['\n'] := hinfix.subset (by decide)
    rcases List.mem_append.mp hC with hC | hC
    · exact not_mem_marked promptMark h (by decide) (by decide) (by decide) hC
    · exact absurd hC (by decide)
  obtain ⟨hstrip, hwords⟩ := words_prompt h
  have hprompt : isPrompt (promptMark ++ ' ' :: d ++ ['\n']) = true := by
    rw [isPrompt, hstrip, hwords, decide_eq_true (List.prefix_append _ _)]
    rfl
  rw [cleanLine, if_neg (by rw [hin]; decide), if_pos hprompt, hstrip, hwords]
  by_cases hiter : 3 ≤ st.iteration
  · simp [int_digits h, hiter, hcurrent, launchRow]
  · simp [int_digits h, hiter, launchRow]

theorem Launch.foldlM_lines (round : ℚ → ℚ) (launch : Launch) (st : State) :
    ∃ st', (launch.lines.flatMap fun l => readlines (l ++ ['\n'])).foldlM (cleanLine round) st =
        some st' ∧
      st'.iteration = st.iteration + 1 ∧
      st'.rows = st.rows ++
        ((launch.bootTime.map round).bind (launchRow (st.iteration + 1))).toList := by
  have hskip : ∀ (st : State) (ls : List Text), ls ⊆ launch.before ++ launch.after →
      (ls.flatMap fun l => readlines (l ++ ['\n'])).foldlM (cleanLine round) st = some st :=
    fun st ls hls => foldlM_skip_lines fun l hl p hp =>
      cleanLine_unrelated round st (launch.unrelated l (hls hl) p hp)
  have hbefore := List.subset_append_left launch.before launch.after
  have hafter := List.subset_append_right launch.before launch.after
  simp only [Launch.lines, List.flatMap_cons, List.flatMap_append, List.foldlM_append,
    readlines_marked startMark launch.start_digits (by decide) (by decide),
    List.foldlM_cons, List.foldlM_nil, cleanLine_start round st launch.start_digits,
    Option.pure_def, Option.bind_eq_bind, Option.bind_some, hskip _ _ hbefore]
  cases hstamp : launch.stamp with
  | none =>
    refine ⟨_, hskip _ _ hafter, rfl, ?_⟩
    simp [Launch.bootTime, hstamp]
  | some d =>
    have hd := launch.stamp_digits d hstamp
    simp only [Option.map_some, Option.toList_some, List.flatMap_singleton,
      readlines_marked promptMark hd (by decide) (by decide), List.foldlM_cons,
      List.foldlM_nil, Option.pure_def, Option.bind_eq_bind]
    rw [cleanLine_prompt round hd List.getLast?_concat, Option.bind_some, Option.bind_some]
    refine ⟨_, hskip _ _ hafter, rfl, ?_⟩
    simp [Launch.bootTime, hstamp]

theorem foldlM_launches (round : ℚ → ℚ) (launches : List Launch) (st : State) :
    ∃ st', ((launches.flatMap Launch.lines).flatMap fun l => readlines (l ++ ['\n'])).foldlM
        (cleanLine round) st = some st' ∧
      st'.rows = st.rows ++
        rowsFrom (st.iteration + 1) (launches.map fun launch => launch.bootTime.map round) := by
  induction launches generalizing st with
  | nil => exact ⟨st, rfl, by simp⟩
  | cons launch launches ih =>
    obtain ⟨st₁, hfold, hiter, hrows⟩ := launch.foldlM_lines round st
    obtain ⟨st₂, hfold', hrows'⟩ := ih st₁
    refine ⟨st₂, ?_, ?_⟩
    · rw [List.flatMap_cons, List.flatMap_append, List.foldlM_append, hfold]
      exact hfold'
    · rw [hrows', hrows, hiter, List.map_cons]
      cases launch.bootTime.map round with
      | none => simp
      | some t => simp

theorem cleanBootTime_measureBootTime (round : ℚ → ℚ) (launches : List Launch) :
    cleanBootTime round (measureBootTime launches) =
      some (expectedRows (launches.map fun launch => launch.bootTime.map round)) := by
  obtain ⟨st, hfold, hrows⟩ := foldlM_launches round launches ⟨0, [], [], []⟩
  rw [cleanBootTime, measureBootTime, readlines_flatMap, hfold, Option.map_some, hrows]
  rfl

end Bash

namespace BuiltIn

def bootMark : Text := "Booted up in".toList

structure State where
  iteration : ℕ
  rows : List (ℕ × ℚ)

def cleanLine (round : ℚ → ℚ) (st : State) (line : Text) : Option State :=
  if strstr line bootMark then do
    let st := { st with iteration := st.iteration + 1 }
    let word ← (words line)[3]?
    let timeMs ← float word
    if st.iteration ∈ [1, 2] then some st
    else some { st with rows := st.rows ++ [(st.iteration - 2, round (timeMs / 1000))] }
  else some st

def cleanBootTime (round : ℚ → ℚ) (file : Text) : Option (List (ℕ × ℚ)) :=
  ((readlines file).foldlM (cleanLine round) ⟨0, []⟩).map State.rows

/-- A launch: the lines that it printed, and the digits of the time among them if it did not
fail. -/
structure Launch where
  before : List Text
  time : Option (Text × Text)
  after : List Text
  time_digits : ∀ d ∈ time, IsDigits d.1 ∧ IsDigits d.2
  unrelated : ∀ l ∈ before ++ after, ∀ p ∈ readlines (l ++ ['\n']), strstr p bootMark = false

namespace Launch

def lines (launch : Launch) : List Text :=
  launch.before ++
    (launch.time.map fun d => bootMark ++ ' ' :: (d.1 ++ '.' :: d.2 ++ " ms".toList)).toList ++
    launch.after

def bootTime (launch : Launch) : Option ℚ :=
  launch.time.map fun d => decimalValue d.1 d.2 / 1000

end Launch

def measureBootTime (launches : List Launch) : Text :=
  (launches.flatMap Launch.lines).flatMap (· ++ ['\n'])

theorem cleanLine_unrelated (round : ℚ → ℚ) (st : State) {line : Text}
    (h : strstr line bootMark = false) : cleanLine round st line = some st := by
  simp [cleanLine, h]

section Time

variable {whole frac : Text}

theorem not_mem_time (hw : IsDigits whole) (hf : IsDigits frac) {c : Char}
    (hmark : c ∉ bootMark ++ [' ', '.'] ++ " ms".toList) (hc : c.isDigit = false) :
    c ∉ bootMark ++ ' ' :: (whole ++ '.' :: frac ++ " ms".toList) := by
  simp only [List.mem_append, List.mem_cons, List.not_mem_nil, or_false, not_or] at hmark ⊢
  exact ⟨hmark.1.1, hmark.1.2.1, ⟨not_mem_digits hw hc, hmark.1.2.2, not_mem_digits hf hc⟩,
    hmark.2⟩

theorem readlines_time (hw : IsDigits whole) (hf : IsDigits frac) :
    readlines (bootMark ++ ' ' :: (whole ++ '.' :: frac ++ " ms".toList) ++ ['\n']) =
      [bootMark ++ ' ' :: (whole ++ '.' :: frac ++ " ms".toList) ++ ['\n']] :=
  readlines_line (not_mem_time hw hf (by decide) (by decide))
    (not_mem_time hw hf (by decide) (by decide))

theorem words_time (hw : IsDigits whole) (hf : IsDigits frac) :
    (words (bootMark ++ ' ' :: (whole ++ '.' :: frac ++ " ms".toList) ++ ['\n']))[3]? =
      some (whole ++ '.' :: frac) := by
  have hmark : bootMark = "Booted".toList ++ ' ' :: ("up".toList ++ ' ' :: "in".toList) := by
    decide
  have hms : " ms".toList = ' ' :: "ms".toList := by decide
  have hword : ∀ c ∈ whole ++ '.' :: frac, isspace c = false := by
    intro c hc
    rcases List.mem_append.mp hc with hc | hc
    · exact isspace_digits hw c hc
    · rcases List.mem_cons.mp hc with rfl | hc
      · decide
      · exact isspace_digits hf c hc
  have hsplit : bootMark ++ ' ' :: (whole ++ '.' :: frac ++ " ms".toList) ++ ['\n'] =
      "Booted".toList ++ ' ' :: ("up".toList ++ ' ' :: ("in".toList ++ ' ' ::
        ((whole ++ '.' :: frac) ++ ' ' :: ("ms".toList ++ ['\n'])))) := by
    rw [hmark, hms]
    simp only [List.append_assoc, List.cons_append]
  rw [hsplit, words_cons (by decide) (eq_false_of_all rfl) (by decide),
    words_cons (by decide) (eq_false_of_all rfl) (by decide),
    words_cons (by decide) (eq_false_of_all rfl) (by decide),
    words_cons (by simp) hword (by decide)]
  rfl

theorem cleanLine_time (round : ℚ → ℚ) (st : State) (hw : IsDigits whole) (hf : IsDigits frac) :
    cleanLine round st (bootMark ++ ' ' :: (whole ++ '.' :: frac ++ " ms".toList) ++ ['\n']) = some
      { iteration := st.iteration + 1
        rows := st.rows ++
          (launchRow (st.iteration + 1) (round (decimalValue whole frac / 1000))).toList } := by
  have hin : strstr (bootMark ++ ' ' :: (whole ++ '.' :: frac ++ " ms".toList) ++ ['\n'])
      bootMark = true := by
    rw [strstr, decide_eq_true_eq, List.append_assoc]
    exact (List.prefix_append _ _).isInfix
  rw [cleanLine, if_pos hin, words_time hw hf]
  simp only [Option.bind_eq_bind, Option.bind_some, float_decimal hw.1 hw.isdecimal hf.isdecimal]
  by_cases hiter : 3 ≤ st.iteration + 1
  · rw [if_neg (by simp; omega), launchRow, if_pos hiter]
    rfl
  · rw [if_pos (by simp; omega), launchRow, if_neg hiter, Option.toList_none, List.append_nil]

end Time

/-- What a launch adds to the rows; a failed one is not counted. -/
theorem Launch.foldlM_lines (round : ℚ → ℚ) (launch : Launch) (st : State) :
    (launch.lines.flatMap fun l => readlines (l ++ ['\n'])).foldlM (cleanLine round) st =
      some (match launch.bootTime.map round with
        | none => st
        | some t =>
          { iteration := st.iteration + 1
            rows := st.rows ++ (launchRow (st.iteration + 1) t).toList }) := by
  have hskip : ∀ (st : State) (ls : List Text), ls ⊆ launch.before ++ launch.after →
      (ls.flatMap fun l => readlines (l ++ ['\n'])).foldlM (cleanLine round) st = some st :=
    fun st ls hls => foldlM_skip_lines fun l hl p hp =>
      cleanLine_unrelated round st (launch.unrelated l (hls hl) p hp)
  have hbefore := List.subset_append_left launch.before launch.after
  have hafter := List.subset_append_right launch.before launch.after
  simp only [Launch.lines, List.flatMap_append, List.foldlM_append, Option.bind_eq_bind,
    hskip _ _ hbefore, Option.bind_some]
  cases htime : launch.time with
  | none =>
    have hnone : launch.bootTime.map round = none := by simp [Launch.bootTime, htime]
    rw [hnone]
    exact hskip _ _ hafter
  | some d =>
    obtain ⟨hw, hf⟩ := launch.time_digits d htime
    have hsome : launch.bootTime.map round = some (round (decimalValue d.1 d.2 / 1000)) := by
      simp [Launch.bootTime, htime]
    rw [hsome]
    simp only [Option.map_some, Option.toList_some, List.flatMap_singleton, readlines_time hw hf,
      List.foldlM_cons, List.foldlM_nil, Option.pure_def, Option.bind_eq_bind,
      cleanLine_time round st hw hf, Option.bind_some]
    exact hskip _ _ hafter

theorem foldlM_launches (round : ℚ → ℚ) (launches : List Launch) (st : State) :
    ∃ st', ((launches.flatMap Launch.lines).flatMap fun l => readlines (l ++ ['\n'])).foldlM
        (cleanLine round) st = some st' ∧
      st'.rows = st.rows ++ rowsFrom (st.iteration + 1)
        (reported (launches.map fun launch => launch.bootTime.map round)) := by
  induction launches generalizing st with
  | nil => exact ⟨st, rfl, by simp⟩
  | cons launch launches ih =>
    rw [List.flatMap_cons, List.flatMap_append, List.foldlM_append, launch.foldlM_lines round st,
      List.map_cons]
    cases launch.bootTime.map round with
    | none => exact ih st
    | some t =>
      obtain ⟨st', hfold, hrows⟩ := ih
        { iteration := st.iteration + 1
          rows := st.rows ++ (launchRow (st.iteration + 1) t).toList }
      refine ⟨st', hfold, ?_⟩
      rw [hrows, reported_some, rowsFrom_some, List.append_assoc]

/-- The cleaner numbers the launches that reported a time. -/
theorem cleanBootTime_measureBootTime (round : ℚ → ℚ) (launches : List Launch) :
    cleanBootTime round (measureBootTime launches) =
      some (expectedRows (reported (launches.map fun launch => launch.bootTime.map round))) := by
  obtain ⟨st, hfold, hrows⟩ := foldlM_launches round launches ⟨0, []⟩
  rw [cleanBootTime, measureBootTime, readlines_flatMap, hfold, Option.map_some, hrows]
  rfl

end BuiltIn

/-- Both cleaners report exactly the launches after the warm-ups, with their numbers and times,
if and only if no such launch of the built-in timer comes after a failed one. -/
theorem cleanBootTime_exact_iff (round : ℚ → ℚ) (bash : List Bash.Launch)
    (builtIn : List BuiltIn.Launch) :
    (Bash.cleanBootTime round (Bash.measureBootTime bash) =
        some (expectedRows (bash.map fun launch => launch.bootTime.map round)) ∧
      BuiltIn.cleanBootTime round (BuiltIn.measureBootTime builtIn) =
        some (expectedRows (builtIn.map fun launch => launch.bootTime.map round))) ↔
      NoLaterRow (builtIn.map BuiltIn.Launch.time) := by
  have htimes : (builtIn.map fun launch => launch.bootTime.map round) =
      (builtIn.map BuiltIn.Launch.time).map
        (Option.map fun d => round (decimalValue d.1 d.2 / 1000)) := by
    rw [List.map_map]
    apply List.map_congr_left
    intro launch _
    rw [BuiltIn.Launch.bootTime, Option.map_map]
    rfl
  rw [Bash.cleanBootTime_measureBootTime, and_iff_right rfl,
    BuiltIn.cleanBootTime_measureBootTime, Option.some.injEq, expectedRows_reported_iff, htimes,
    noLaterRow_map]

def failedLaunch : BuiltIn.Launch where
  before := ["OSv v0.57.0".toList]
  time := none
  after := []
  time_digits := by simp
  unrelated := by decide +kernel

def bootedLaunch (ms : Text) (h : IsDigits ms) : BuiltIn.Launch where
  before := ["OSv v0.57.0".toList]
  time := some (ms, "00".toList)
  after := ["sqlite> ".toList]
  time_digits d hd := by
    obtain rfl := Option.some.inj hd
    exact ⟨h, show IsDigits "00".toList by decide⟩
  unrelated := by decide +kernel

def failedWarmUp : List BuiltIn.Launch :=
  [failedLaunch, bootedLaunch "20".toList (by decide), bootedLaunch "30".toList (by decide),
    bootedLaunch "40".toList (by decide)]

/-- The first iteration is taken for a warm-up, and the time of the second gets its label. -/
theorem not_cleanBootTime_exact_failedWarmUp :
    BuiltIn.cleanBootTime id (BuiltIn.measureBootTime failedWarmUp) = some [(1, 40 / 1000)] ∧
      expectedRows (failedWarmUp.map fun launch => launch.bootTime.map id) =
        [(1, 30 / 1000), (2, 40 / 1000)] ∧
      ¬ BuiltIn.cleanBootTime id (BuiltIn.measureBootTime failedWarmUp) =
        some (expectedRows (failedWarmUp.map fun launch => launch.bootTime.map id)) := by
  decide +kernel

end TpchBench.Boot
