import TpchBench.Timing.Osv
import Mathlib.Data.List.DropRight

/-! # Runs of OSv's `benchmark.sh`

A run appends what the unikernel prints to `temporary.txt`, turns the file into rows of a
CSV file after every iteration and then removes it. The file is never cleared before the
first iteration, so what a killed run left in it is parsed as part of the next run.
-/

namespace TpchBench.Timing

open Matcher Python

/-- The file that collects the output, and the CSV files by name. -/
structure Files where
  temporary : Option Text
  csv : Text → List CsvLine

namespace Files

def append (fs : Files) (output : Text) : Files :=
  { fs with temporary := some (fs.temporary.getD [] ++ output) }

def setCsv (fs : Files) (name : Text) (csv : List CsvLine) : Files :=
  { fs with csv := Function.update fs.csv name csv }

/-- `clean-queries-time.py`; it fails without a file to read. -/
def cleanQueriesTime (fs : Files) (name : Text) (iteration : ℕ) : Files :=
  match fs.temporary with
  | none => fs
  | some file => fs.setCsv name (saveToCsv (fs.csv name) iteration (extractRunTimes file))

def rm (fs : Files) : Files := { fs with temporary := none }

/-- The states while output is appended character by character. -/
def appendStates (fs : Files) (output : Text) : List Files := output.inits.map fs.append

/-- The states while the script writes: the file is truncated or kept when it is opened, and
any part of the lines may have reached it. -/
def cleanStates (fs : Files) (name : Text) (iteration : ℕ) : List Files :=
  match fs.temporary with
  | none => [fs]
  | some file =>
    let old := if iteration = 1 then [] else fs.csv name
    let new := (if iteration = 1 then [.header] else []) ++ csvRows iteration (extractRunTimes file)
    fs :: new.inits.flatMap fun written =>
      [fs.setCsv name (old ++ written), fs.setCsv name (old ++ written ++ [.torn])]

end Files

/-- The arguments of a run and what the unikernel prints in it. Loading the tables prints no
timer lines, since the timer is off. -/
structure Run where
  dbgenSize : Text
  loading : List LogLine
  executions : List (List LogLine)
  loading_untimed : realTimes loading = []
  executions_ne : executions ≠ []

namespace Run

/-- `osv_${FORMATTED_DBGEN_SIZE}_${ITERATIONS}_iterations.csv`, where the first dot of the size
is an underscore. -/
def outputCsv (r : Run) : Text :=
  let formatted := r.dbgenSize.takeWhile (· ≠ '.') ++
    match r.dbgenSize.dropWhile (· ≠ '.') with
    | [] => []
    | _ :: rest => '_' :: rest
  "osv_".toList ++ formatted ++ "_".toList ++ (toString r.executions.length).toList ++
    "_iterations.csv".toList

def iterate (name : Text) : ℕ → List (List LogLine) → Files → Files
  | _, [], fs => fs
  | i, log :: logs, fs =>
    iterate name (i + 1) logs (((fs.append (render log)).cleanQueriesTime name i).rm)

def iterateStates (name : Text) : ℕ → List (List LogLine) → Files → List Files
  | _, [], fs => [fs]
  | i, log :: logs, fs =>
    fs.appendStates (render log) ++ (fs.append (render log)).cleanStates name i ++
      iterateStates name (i + 1) logs (((fs.append (render log)).cleanQueriesTime name i).rm)

def complete (r : Run) (fs : Files) : Files :=
  iterate r.outputCsv 1 r.executions (fs.append (render r.loading))

/-- All states a run passes through; a run that is killed leaves one of them. -/
def states (r : Run) (fs : Files) : List Files :=
  fs :: fs.appendStates (render r.loading) ++
    iterateStates r.outputCsv 1 r.executions (fs.append (render r.loading))

def expectedCsv (r : Run) : List CsvLine :=
  .header :: (r.executions.mapIdx fun i log =>
    csvRows (i + 1) (queryTimes (realTimes log))).flatten

/-- The run writes its own times and nothing else into its CSV file. -/
def Correct (r : Run) (fs : Files) : Prop := (r.complete fs).csv r.outputCsv = r.expectedCsv

end Run

/-- The files after a history of runs, each killed in the state with the given number or, if
there is none, completed. -/
def afterHistory (fs : Files) : List (Run × ℕ) → Files
  | [] => fs
  | (r, k) :: history => afterHistory ((r.states fs).getD k (r.complete fs)) history

def openLine (file : Text) : Text := file.rtakeWhile fun c => c ≠ '\n' ∧ c ≠ '\r'

def closedLines (file : Text) : Text := file.rdropWhile fun c => c ≠ '\n' ∧ c ≠ '\r'

/-- The beginning of a time, or a text that starts with one, on a line. -/
def OpensTime (m : Text) : Prop :=
  ∃ t, '\n' ∉ t ∧ '\r' ∉ t ∧ (realPattern (m ++ t)).isSome

/-- A left-over file that adds no time to what is appended to it: its complete lines hold no
time, its last line does not hold the mark, and no end of the last line is a beginning of the
mark or of a time. -/
structure Harmless (file : Text) : Prop where
  closed : timesIn (closedLines file) = []
  noMark : ¬ runTimeMark <:+: openLine file
  noMarkStart : ∀ m, m ≠ [] → m <:+ openLine file → ¬ m <+: runTimeMark
  noTimeStart : ∀ m, m ≠ [] → m <:+ openLine file → ¬ OpensTime m

theorem closedLines_append_openLine (file : Text) : closedLines file ++ openLine file = file :=
  List.rdropWhile_append_rtakeWhile

theorem closedLines_ends {file : Text} (h : closedLines file ≠ []) :
    ∃ a, closedLines file = a ++ ['\n'] ∨ closedLines file = a ++ ['\r'] := by
  have hlast := List.rdropWhile_last_not (fun c => decide (c ≠ '\n' ∧ c ≠ '\r')) file h
  have happ := List.dropLast_append_getLast h
  simp only [decide_eq_true_eq, not_and_or, not_not] at hlast
  rcases hlast with hc | hc
  · exact ⟨(closedLines file).dropLast, Or.inl (by rw [← hc]; exact happ.symm)⟩
  · exact ⟨(closedLines file).dropLast, Or.inr (by rw [← hc]; exact happ.symm)⟩

theorem not_mem_openLine (file : Text) : '\n' ∉ openLine file ∧ '\r' ∉ openLine file := by
  constructor <;>
  · intro h
    simpa using List.mem_rtakeWhile_imp h

/-- The complete lines are read as if nothing were appended. -/
theorem timesIn_append (file s : Text) :
    timesIn (file ++ s) = timesIn (closedLines file) ++ timesIn (openLine file ++ s) := by
  have hfile : file ++ s = closedLines file ++ (openLine file ++ s) := by
    rw [← List.append_assoc, closedLines_append_openLine]
  rw [hfile]
  rcases eq_or_ne (closedLines file) [] with hnil | hne
  · rw [hnil, timesIn_nil, List.nil_append, List.nil_append]
  · obtain ⟨a, ha | ha⟩ := closedLines_ends hne
    · rw [ha, List.append_assoc, List.singleton_append, timesIn_append_newline]
    · rw [ha, List.append_assoc, List.singleton_append, timesIn_append_cr]

theorem Harmless.not_infix {file t : Text} (h : Harmless file) (ht : ¬ runTimeMark <:+: t) :
    ¬ runTimeMark <:+: openLine file ++ t := by
  intro hin
  rcases List.infix_append_iff_ne_nil.mp hin with hin | hin | ⟨m, m', hne, -, hm, hsuf, -⟩
  · exact h.noMark hin
  · exact ht hin
  · exact h.noMarkStart m hne hsuf ⟨m', hm.symm⟩

theorem Harmless.search_append {file p : Text} (h : Harmless file) (hp : '\n' ∉ p ∧ '\r' ∉ p)
    (hno : search realPattern p = none) : search realPattern (openLine file ++ p) = none := by
  by_contra hne
  obtain ⟨v, hv⟩ := Option.ne_none_iff_exists'.mp hne
  obtain ⟨t, ht, hm⟩ := exists_of_search hv
  obtain ⟨a, ha⟩ := ht
  have htime : (realPattern t).isSome := by rw [hm, Option.isSome_some]
  rcases List.append_eq_append_iff.mp ha with ⟨m, hopen, rfl⟩ | ⟨b, -, rfl⟩
  · -- The time begins in the unfinished line.
    rcases eq_or_ne m [] with rfl | hne'
    · rw [List.nil_append] at hm
      rw [search_of_some hm] at hno
      cases hno
    · exact h.noTimeStart m hne' ⟨a, hopen.symm⟩ ⟨p, hp.1, hp.2, htime⟩
  · have hsome := isSome_search_of_suffix (List.suffix_append b t) htime
    rw [hno] at hsome
    cases hsome

/-- What is appended to a harmless file is read as if it stood alone. -/
theorem Harmless.timesIn_append_render {file : Text} (h : Harmless file) (log : List LogLine) :
    timesIn (file ++ render log) = realTimes log := by
  rw [timesIn_append, h.closed, List.nil_append]
  cases log with
  | nil =>
    have hno := h.not_infix (t := []) (by decide)
    exact timesIn_other hno
  | cons l log =>
    have hcut : openLine file ++ render (l :: log) =
        (openLine file ++ l.text) ++ '\n' :: render log := by
      rw [render_cons, List.append_assoc]
    rw [hcut, timesIn_append_newline, timesIn_render, List.append_assoc]
    cases l with
    | timer l =>
      obtain ⟨hn, hr⟩ := not_mem_openLine file
      have hline := timesIn_append_timerText (p := openLine file ++ l.before)
        (by simp [hn, hr, l.before_line]) l.after_line l.after_noMark l.real l.user l.sys
      rw [h.search_append l.before_line l.before_noTime] at hline
      have hassoc : openLine file ++ ((LogLine.timer l).text ++ ['\n']) =
          openLine file ++ l.before ++ (timerText l.real l.user l.sys ++ (l.after ++ ['\n'])) := by
        simp only [LogLine.text, TimerLine.text, List.append_assoc]
      rw [hassoc, hline]
      rfl
    | other t hn hm =>
      have hno := h.not_infix (not_infix_append_newline hm)
      rw [LogLine.text, timesIn_other hno]
      rfl

/-- Only the times of what is appended will be read. -/
def Files.Fresh (fs : Files) : Prop :=
  ∀ log, timesIn (fs.temporary.getD [] ++ render log) = realTimes log

theorem Files.fresh_rm (fs : Files) : fs.rm.Fresh := fun log => timesIn_render log

theorem Files.Fresh.csv_step {fs : Files} (h : fs.Fresh) (name : Text) (i : ℕ)
    (log : List LogLine) :
    (((fs.append (render log)).cleanQueriesTime name i).rm).csv name =
      saveToCsv (fs.csv name) i (queryTimes (realTimes log)) := by
  simp [Files.append, Files.cleanQueriesTime, Files.rm, Files.setCsv, extractRunTimes_eq,
    ← h log, timesIn]

theorem Run.iterate_csv (name : Text) {i : ℕ} (hi : 1 < i) (logs : List (List LogLine))
    {fs : Files} (h : fs.Fresh) :
    (Run.iterate name i logs fs).csv name = fs.csv name ++
      (logs.mapIdx fun j log => csvRows (j + i) (queryTimes (realTimes log))).flatten := by
  induction logs generalizing i fs with
  | nil => simp [Run.iterate]
  | cons log logs ih =>
    have hne : i ≠ 1 := by omega
    rw [Run.iterate, ih (by omega) (Files.fresh_rm _), h.csv_step, saveToCsv, if_neg hne]
    simp [List.mapIdx_cons, add_assoc, add_comm 1 i]

theorem Run.correct_of_fresh (r : Run) {fs : Files} (h : (fs.append (render r.loading)).Fresh) :
    r.Correct fs := by
  obtain ⟨log, logs, hr⟩ := List.exists_cons_of_ne_nil r.executions_ne
  unfold Run.Correct Run.complete Run.expectedCsv
  rw [hr, Run.iterate, Run.iterate_csv _ (by omega) _ (Files.fresh_rm _), h.csv_step]
  simp [saveToCsv, List.mapIdx_cons]

theorem Harmless.fresh_append {fs : Files} (h : Harmless (fs.temporary.getD []))
    {loading : List LogLine} (hl : realTimes loading = []) :
    (fs.append (render loading)).Fresh := by
  intro log
  simp only [Files.append, Option.getD_some, List.append_assoc, ← render_append]
  rw [h.timesIn_append_render, realTimes_append, hl, List.nil_append]

def one : Decimal := .ofDigit '1' rfl
def two : Decimal := .ofDigit '2' rfl

def Run.single (loading : List LogLine) (hl : realTimes loading = []) (l : TimerLine) : Run where
  dbgenSize := ['1']
  loading := loading
  executions := [[.timer l]]
  loading_untimed := hl
  executions_ne := by simp

theorem Run.single_csv {fs : Files} {loading : List LogLine} (hl : realTimes loading = [])
    (l : TimerLine) {t : ℚ} {ts : List ℚ}
    (h : timesIn (fs.temporary.getD [] ++ render (loading ++ [.timer l])) = t :: ts)
    (hc : (Run.single loading hl l).Correct fs) : t = l.real.value := by
  have htimes : (Run.single loading hl l).complete fs =
      (((fs.append (render loading)).append (render [.timer l])).cleanQueriesTime
        (Run.single loading hl l).outputCsv 1).rm := rfl
  have hfile : extractRunTimes (fs.temporary.getD [] ++ (render loading ++
      render [.timer l])) = queryTimes (t :: ts) := by
    rw [extractRunTimes_eq_timesIn, ← render_append, ← h]
  unfold Run.Correct at hc
  rw [htimes] at hc
  simp only [Files.append, Files.cleanQueriesTime, Files.rm, Files.setCsv, Option.getD_some,
    List.append_assoc, hfile, Function.update_self] at hc
  simp [saveToCsv, Run.expectedCsv, Run.single, csvRows, queryTimes, sumByQuery, timerCount,
    realTimes, LogLine.real?] at hc
  exact hc.1

/-- A time that is read before the first timer line of the run breaks a run. -/
theorem exists_not_correct {fs : Files} {loading : List LogLine} (hl : realTimes loading = [])
    {t : ℚ} (h : ∀ d : Decimal, ∃ l : TimerLine, l.real = d ∧ ∃ ts,
      timesIn (fs.temporary.getD [] ++ render (loading ++ [.timer l])) = t :: ts) :
    ∃ r : Run, ¬ r.Correct fs := by
  by_contra hall
  simp only [not_exists, not_not] at hall
  obtain ⟨l₁, h₁, ts₁, hts₁⟩ := h one
  obtain ⟨l₂, h₂, ts₂, hts₂⟩ := h two
  have e₁ := Run.single_csv hl l₁ hts₁ (hall _)
  have e₂ := Run.single_csv hl l₂ hts₂ (hall _)
  rw [e₁, h₁, h₂] at e₂
  exact absurd e₂ (by decide +kernel)

theorem exists_not_correct_of_closed {fs : Files}
    (h : timesIn (closedLines (fs.temporary.getD [])) ≠ []) : ∃ r : Run, ¬ r.Correct fs := by
  obtain ⟨t, ts, ht⟩ := List.exists_cons_of_ne_nil h
  have hl : realTimes [] = [] := rfl
  refine exists_not_correct (t := t) hl fun d => ⟨.plain d d d, rfl, ?_⟩
  exact ⟨_, by rw [timesIn_append, ht]; rfl⟩

theorem exists_of_realPattern {s : Text} {v : ℚ} (h : realPattern s = some v) :
    ∃ tail rest, s = 'r' :: tail ++ rest ∧ 'r' ∉ tail ∧ 'R' ∉ tail ∧
      ∀ u, (realPattern ('r' :: tail ++ u)).isSome := by
  obtain ⟨_, rfl, h⟩ := exists_of_lits h
  obtain ⟨space, _, rfl, hspace, hisspace, h⟩ := exists_of_plus h
  obtain ⟨whole, _, rfl, hwhole, hdecimal, h⟩ := exists_of_plus h
  obtain ⟨_, rfl, h⟩ := exists_of_lits h
  obtain ⟨frac, rest, rfl, hfrac, hfdecimal, -⟩ := exists_of_plus h
  have hreal : "real".toList = 'r' :: "eal".toList := by decide +kernel
  refine ⟨"eal".toList ++ (space ++ (whole ++ (['.'] ++ frac))), rest, by simp [hreal], ?_, ?_, ?_⟩
  · simp only [List.mem_append, not_or]
    exact ⟨by decide, fun hm => absurd (hisspace _ hm) (by decide),
      fun hm => absurd (hdecimal _ hm) (by decide +kernel), by decide,
      fun hm => absurd (hfdecimal _ hm) (by decide +kernel)⟩
  · simp only [List.mem_append, not_or]
    exact ⟨by decide, fun hm => absurd (hisspace _ hm) (by decide),
      fun hm => absurd (hdecimal _ hm) (by decide +kernel), by decide,
      fun hm => absurd (hfdecimal _ hm) (by decide +kernel)⟩
  · intro u
    have hassoc : 'r' :: ("eal".toList ++ (space ++ (whole ++ (['.'] ++ frac)))) ++ u =
        "real".toList ++ (space ++ (whole ++ (['.'] ++ (frac ++ u)))) := by
      simp [hreal]
    rw [hassoc, realPattern, lits_append]
    refine isSome_plus hspace hisspace (isSome_plus hwhole hdecimal ?_)
    rw [lits_append]
    exact isSome_plus hfrac hfdecimal rfl

theorem search_realPattern_of_not_mem {s : Text} (h : 'r' ∉ s) : search realPattern s = none := by
  by_contra hne
  obtain ⟨v, hv⟩ := Option.ne_none_iff_exists'.mp hne
  obtain ⟨t, ht, hm⟩ := exists_of_search hv
  obtain ⟨tail, rest, rfl, -⟩ := exists_of_realPattern hm
  exact h (ht.subset List.mem_cons_self)

theorem OpensTime.exists_completion {m : Text} (h : OpensTime m) (hne : m ≠ []) :
    ∃ t, ('\n' ∉ t ∧ '\r' ∉ t) ∧ 'r' ∉ t ∧ 'R' ∉ t ∧ (realPattern (m ++ t)).isSome := by
  obtain ⟨s, hn, hr, hsome⟩ := h
  obtain ⟨v, hv⟩ := Option.isSome_iff_exists.mp hsome
  obtain ⟨tail, rest, hs, htail, hTail, hmatch⟩ := exists_of_realPattern hv
  rcases List.append_eq_append_iff.mp hs with ⟨t, ht, rfl⟩ | ⟨u, rfl, -⟩
  · -- The beginning stops inside the time.
    obtain ⟨c, m, rfl⟩ := List.exists_cons_of_ne_nil hne
    obtain ⟨rfl, rfl⟩ := List.cons.inj ht
    have hfull := hmatch []
    rw [List.append_nil] at hfull
    exact ⟨t, ⟨fun h => hn (List.mem_append_left _ h), fun h => hr (List.mem_append_left _ h)⟩,
      fun h => htail (List.mem_append_right _ h), fun h => hTail (List.mem_append_right _ h), hfull⟩
  · exact ⟨[], by simp, by simp, by simp, by rw [List.append_nil]; exact hmatch u⟩

theorem exists_not_correct_of_time {fs : Files} {m : Text}
    (hc : timesIn (closedLines (fs.temporary.getD [])) = []) (hne : m ≠ [])
    (hm : m <:+ openLine (fs.temporary.getD [])) (h : OpensTime m) :
    ∃ r : Run, ¬ r.Correct fs := by
  obtain ⟨p, hp, hr, hR, htime⟩ := h.exists_completion hne
  obtain ⟨hn, hcr⟩ := not_mem_openLine (fs.temporary.getD [])
  have hmark : ¬ runTimeMark <:+: p := fun hin => hR (hin.subset (by decide))
  obtain ⟨a, ha⟩ := hm
  have hsuf : m ++ p <:+ openLine (fs.temporary.getD []) ++ p :=
    ⟨a, by rw [← ha, List.append_assoc]⟩
  obtain ⟨t, ht⟩ := Option.isSome_iff_exists.mp (isSome_search_of_suffix hsuf htime)
  have hl : realTimes [] = [] := rfl
  refine exists_not_correct (t := t) hl fun d => ⟨{ TimerLine.plain d d d with
    before := p
    before_line := hp
    before_noMark := hmark
    before_noTime := search_realPattern_of_not_mem hr }, rfl, [], ?_⟩
  have hline := timesIn_append_timerText (p := openLine (fs.temporary.getD []) ++ p)
    (by simp [hn, hcr, hp]) List.not_mem_nil not_infix_nil d d d
  rw [ht, Option.some_or, Option.toList_some] at hline
  rw [timesIn_append, hc, List.nil_append, List.nil_append, render_cons, render_nil, ← hline]
  simp [LogLine.text, TimerLine.text, TimerLine.plain]

/-- The end of a line that holds a time but no mark. -/
def realTail : Text := " real 1.0".toList

theorem exists_lineTime_of_mark {p : Text} (h : runTimeMark <:+: p) :
    ∃ t, lineTime (p ++ realTail ++ ['\n']) = some t := by
  have hin : runTimeMark <:+: p ++ realTail ++ ['\n'] :=
    List.infix_append_of_infix_left (List.infix_append_of_infix_left h)
  have hnewline : ∀ c ∈ ['\n'].head?, isdecimal c = false := by
    rintro c ⟨⟩
    decide +kernel
  have hreal := realPattern_real one hnewline
  have hsuf : "real".toList ++ (' ' :: (one.text ++ ['\n'])) <:+ p ++ realTail ++ ['\n'] :=
    ⟨p ++ [' '], by simp only [List.append_assoc]; rfl⟩
  have hsome : (realPattern ("real".toList ++ (' ' :: (one.text ++ ['\n'])))).isSome := by
    rw [hreal]
    rfl
  rw [lineTime_of_mark hin]
  exact Option.isSome_iff_exists.mp (isSome_search_of_suffix hsuf hsome)

/-- If the mark can be completed, a line of the loading phase can complete it and add a time. -/
theorem exists_not_correct_of_mark {fs : Files} {m : Text}
    (hc : timesIn (closedLines (fs.temporary.getD [])) = []) (hm : m ⊆ runTimeMark.tail)
    (h : runTimeMark <:+: openLine (fs.temporary.getD []) ++ m) : ∃ r : Run, ¬ r.Correct fs := by
  have hmem : ∀ c ∉ runTimeMark.tail ++ realTail, c ∉ m ++ realTail := by
    intro c hc hcm
    rcases List.mem_append.mp hcm with hcm | hcm
    · exact hc (List.mem_append_left _ (hm hcm))
    · exact hc (List.mem_append_right _ hcm)
  have hmark : ¬ runTimeMark <:+: m ++ realTail :=
    fun hin => hmem 'R' (by decide) (hin.subset (by decide))
  let line : LogLine := .other (m ++ realTail) (hmem '\n' (by decide)) hmark
  have hl : realTimes [line] = [] := rfl
  obtain ⟨hn, hr⟩ := not_mem_openLine (fs.temporary.getD [])
  have hlines := readlines_line (l := openLine (fs.temporary.getD []) ++ (m ++ realTail))
    (by rw [List.mem_append, not_or]; exact ⟨hn, hmem '\n' (by decide)⟩)
    (by rw [List.mem_append, not_or]; exact ⟨hr, hmem '\r' (by decide)⟩)
  -- The unfinished line and the line of the loading phase together have a time.
  obtain ⟨t, ht⟩ := exists_lineTime_of_mark h
  rw [List.append_assoc (openLine _)] at ht
  refine exists_not_correct (t := t) hl fun d =>
    ⟨.plain d d d, rfl, timesIn (render [.plain d d d]), ?_⟩
  have hrender : render ([line] ++ [.timer (.plain d d d)]) =
      (m ++ realTail) ++ '\n' :: render [.plain d d d] := render_cons line _
  rw [hrender, timesIn_append, hc, List.nil_append, ← List.append_assoc, timesIn_append_newline,
    timesIn, hlines, List.filterMap_cons_some ht]
  rfl

theorem exists_not_correct_of_not_harmless {fs : Files}
    (h : ¬ Harmless (fs.temporary.getD [])) : ∃ r : Run, ¬ r.Correct fs := by
  by_contra hall
  have hclosed : timesIn (closedLines (fs.temporary.getD [])) = [] := by
    by_contra hc
    exact hall (exists_not_correct_of_closed hc)
  apply h
  constructor
  · exact hclosed
  · intro hm
    exact hall (exists_not_correct_of_mark hclosed (List.nil_subset _) (by simpa using hm))
  · rintro m hne ⟨a, ha⟩ ⟨m', hm'⟩
    refine hall (exists_not_correct_of_mark (m := m') hclosed ?_ ?_)
    · obtain ⟨c, m, rfl⟩ := List.exists_cons_of_ne_nil hne
      rw [← hm']
      exact List.subset_append_right _ _
    · rw [← ha, List.append_assoc, hm']
      exact List.infix_append_right
  · intro m hne hm htime
    exact hall (exists_not_correct_of_time hclosed hne hm htime)

/-- After any history of runs, killed or completed, all further runs write their own times
exactly if the left-over file is harmless. -/
theorem afterHistory_correct_iff (fs : Files) (history : List (Run × ℕ)) :
    (∀ r : Run, r.Correct (afterHistory fs history)) ↔
      Harmless ((afterHistory fs history).temporary.getD []) := by
  constructor
  · intro hall
    by_contra h
    obtain ⟨r, hr⟩ := exists_not_correct_of_not_harmless h
    exact hr (hall r)
  · intro h r
    exact r.correct_of_fresh (h.fresh_append r.loading_untimed)

def Files.none : Files := { temporary := Option.none, csv := fun _ => [] }

def killedRun : Run × ℕ :=
  (Run.single [] rfl (.plain one one one), 2 + (render [.plain one one one]).length)

/-- The run after the killed one reports the time of the killed one. -/
theorem not_correct_after_killed :
    ¬ ∀ r : Run, r.Correct (afterHistory Files.none [killedRun]) := by
  intro hall
  have hfile : (afterHistory Files.none [killedRun]).temporary =
      some (render [.plain one one one]) := by decide +kernel
  have hl : realTimes [] = [] := rfl
  have htimes : timesIn ((afterHistory Files.none [killedRun]).temporary.getD [] ++
      render ([] ++ [.timer (.plain two two two)])) = [one.value, two.value] := by
    rw [hfile, Option.getD_some, ← render_append, timesIn_render]
    rfl
  have heq := Run.single_csv hl (.plain two two two) htimes (hall _)
  exact absurd heq (by decide +kernel)

end TpchBench.Timing
