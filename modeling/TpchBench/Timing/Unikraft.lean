import TpchBench.Timing.Osv

/-! # The extractor of unikraft, and when the two agree

`benchmark.py` collects all real times of an output and merges the three of query 15 in
place. It needs fifteen times to run through and has no stop after query 22, so it writes
the rows of OSv exactly for the logs with 17 to 24 timer lines.
-/

namespace TpchBench.Timing

open Matcher Python

inductive PyError where
  | indexError
  | valueError
  deriving DecidableEq, Repr

def isNumeric (c : Char) : Bool := c.isDigit || c == '.'

/-- `Run Time: real ([0-9.]+) user [0-9.]+ sys [0-9.]+`, with the group and the rest. -/
def runTimePattern : Text → Option (Text × Text) :=
  lits realMark <| plus isNumeric fun real => lits userMark <| plus isNumeric fun _ =>
    lits sysMark <| plus isNumeric fun _ rest => some (real, rest)

/-- `times[14] = sum(times[14:17])` and `del times[15:17]` -/
def mergeQuery15 (times : List ℚ) : Except PyError (List ℚ) :=
  if times.length ≤ 14 then .error .indexError
  else
    let times := times.set 14 ((times.drop 14).take 3).sum
    .ok (times.take 15 ++ times.drop 17)

def toFloat (s : Text) : Except PyError ℚ :=
  match float s with
  | none => .error .valueError
  | some q => .ok q

/-- The rows that one iteration of `run_benchmark` writes for an output. -/
def benchmarkRows (iteration : ℕ) (output : Text) : Except PyError (List CsvLine) := do
  let times ← (findall runTimePattern output).mapM toFloat
  let times ← mergeQuery15 times
  return csvRows iteration times

/-- `run_benchmark` from a given iteration on; an error leaves the rows written so far. -/
def runBenchmarkFrom : ℕ → List CsvLine → List Text → List CsvLine × Option PyError
  | _, csv, [] => (csv, none)
  | iteration, csv, output :: outputs =>
    match benchmarkRows iteration output with
    | .error e => (csv, some e)
    | .ok rows => runBenchmarkFrom (iteration + 1) (csv ++ rows) outputs

def runBenchmark (outputs : List Text) : List CsvLine × Option PyError :=
  runBenchmarkFrom 1 [.header] outputs

theorem isNumeric_of_mem {d : Decimal} : ∀ c ∈ d.text, isNumeric c := by
  intro c hc
  rcases Decimal.of_mem_text hc with h | h <;> simp [isNumeric, h]

theorem runTimePattern_timerText (r u s : Decimal) {t : Text}
    (ht : ∀ c ∈ t.head?, isNumeric c = false) :
    runTimePattern (timerText r u s ++ t) = some (r.text, t) := by
  have hspace : isNumeric ' ' = false := rfl
  have huser : userMark = ' ' :: "user ".toList := by decide +kernel
  have hsys : sysMark = ' ' :: "sys ".toList := by decide +kernel
  have hassoc : timerText r u s ++ t =
      realMark ++ (r.text ++ (userMark ++ (u.text ++ (sysMark ++ (s.text ++ t))))) := by
    simp [timerText, List.append_assoc]
  unfold runTimePattern
  rw [hassoc, lits_append]
  refine plus_run r.text_ne_nil isNumeric_of_mem (by simp [huser, hspace]) ?_
  rw [lits_append]
  refine plus_run u.text_ne_nil isNumeric_of_mem (by simp [hsys, hspace]) ?_
  rw [lits_append]
  exact plus_run s.text_ne_nil isNumeric_of_mem ht rfl

theorem exists_of_runTimePattern {s real rest : Text} (h : runTimePattern s = some (real, rest)) :
    ∃ t, s = realMark ++ t ∧ rest <:+ t := by
  obtain ⟨t, rfl, h⟩ := exists_of_lits h
  obtain ⟨_, t₁, rfl, -, -, h⟩ := exists_of_plus h
  obtain ⟨t₂, rfl, h⟩ := exists_of_lits h
  obtain ⟨_, t₃, rfl, -, -, h⟩ := exists_of_plus h
  obtain ⟨t₄, rfl, h⟩ := exists_of_lits h
  obtain ⟨_, t₅, rfl, -, -, h⟩ := exists_of_plus h
  simp only [Option.some.injEq, Prod.mk.injEq] at h
  obtain ⟨-, rfl⟩ := h
  refine ⟨_, rfl, ?_⟩
  simp only [← List.append_assoc]
  exact List.suffix_append _ _

theorem runTimePattern_consuming : Consuming runTimePattern := by
  intro s real rest h
  obtain ⟨t, rfl, ht⟩ := exists_of_runTimePattern h
  have hlen : realMark.length = 15 := by decide
  have := ht.length_le
  rw [List.length_append]
  omega

/-- Nothing matches at a position before the end of a line or the next mark if no mark stands
there. -/
theorem runTimePattern_other {o : Text} (hm : ¬ runTimeMark <:+: o) {stop : Char}
    (hstop : stop ∉ runTimeMark.tail) (s : Text) (c : Char) (t : Text) (ht : c :: t <:+ o) :
    runTimePattern (c :: t ++ stop :: s) = none := by
  by_contra hne
  obtain ⟨⟨real, rest⟩, h⟩ := Option.ne_none_iff_exists'.mp hne
  obtain ⟨u, hu, -⟩ := exists_of_runTimePattern h
  have hmark : runTimeMark = 'R' :: runTimeMark.tail := rfl
  have hpre : runTimeMark <+: c :: (t ++ stop :: s) := by
    have hreal : runTimeMark <+: realMark := by decide
    rw [← List.cons_append, hu]
    exact hreal.trans (List.prefix_append _ _)
  rw [hmark, List.cons_prefix_cons] at hpre
  obtain ⟨rfl, htail⟩ := hpre
  have hc : runTimeMark <+: 'R' :: t := by
    rw [hmark, List.cons_prefix_cons]
    exact ⟨rfl, prefix_of_prefix_stop hstop htail⟩
  exact hm (hc.isInfix.trans ht.isInfix)

theorem runTimePattern_newline (s : Text) : runTimePattern ('\n' :: s) = none := rfl

theorem findall_other {o : Text} (hm : ¬ runTimeMark <:+: o) (s : Text) :
    findall runTimePattern (o ++ '\n' :: s) = findall runTimePattern s := by
  have hnewline : findall runTimePattern (['\n'] ++ s) = findall runTimePattern s := by
    refine findall_append runTimePattern_consuming fun c t ht => ?_
    obtain ⟨rfl, rfl⟩ : c = '\n' ∧ t = [] := by simpa using List.suffix_cons_iff.mp ht
    exact runTimePattern_newline s
  rw [findall_append runTimePattern_consuming (runTimePattern_other hm (by decide) s)]
  exact hnewline

theorem findall_render (log : List LogLine) :
    findall runTimePattern (render log) = (log.filterMap LogLine.real?).map Decimal.text := by
  induction log with
  | nil => rfl
  | cons l log ih =>
    rw [render_cons]
    cases l with
    | timer l =>
      have hhead : ∀ c ∈ (l.after ++ '\n' :: render log).head?, isNumeric c = false := by
        intro c hc
        cases hafter : l.after with
        | nil =>
          rw [hafter] at hc
          obtain rfl : '\n' = c := Option.some.inj hc
          rfl
        | cons d t =>
          rw [hafter] at hc
          obtain rfl : d = c := Option.some.inj hc
          obtain ⟨hd, hdot⟩ := l.after_head d (by rw [hafter]; rfl)
          simp [isNumeric, hd, hdot]
      obtain ⟨tail, htail⟩ : ∃ tail, timerText l.real l.user l.sys = 'R' :: tail := ⟨_, rfl⟩
      have hsplit : (LogLine.timer l).text ++ '\n' :: render log = l.before ++
          (timerText l.real l.user l.sys ++ (l.after ++ '\n' :: render log)) := by
        simp only [LogLine.text, TimerLine.text, List.append_assoc]
      have hbefore : findall runTimePattern (l.before ++
          (timerText l.real l.user l.sys ++ (l.after ++ '\n' :: render log))) =
          findall runTimePattern
            (timerText l.real l.user l.sys ++ (l.after ++ '\n' :: render log)) := by
        rw [htail]
        exact findall_append runTimePattern_consuming
          (runTimePattern_other l.before_noMark (by decide) _)
      rw [hsplit, hbefore, findall_of_some runTimePattern_consuming
        (runTimePattern_timerText l.real l.user l.sys hhead), findall_other l.after_noMark, ih]
      rfl
    | other t hn hm =>
      rw [LogLine.text, findall_other hm, ih]
      rfl

theorem mapM_toFloat (ds : List Decimal) :
    (ds.map Decimal.text).mapM toFloat = Except.ok (ds.map Decimal.value) := by
  induction ds with
  | nil => rfl
  | cons d ds ih =>
    have hd : toFloat d.text = .ok d.value := by simp [toFloat, Decimal.float_text]
    rw [List.map_cons, List.mapM_cons, hd, ih]
    rfl

theorem benchmarkRows_render (iteration : ℕ) (log : List LogLine) :
    benchmarkRows iteration (render log) =
      (mergeQuery15 (realTimes log)).map (csvRows iteration) := by
  unfold benchmarkRows
  rw [findall_render, mapM_toFloat]
  cases h : mergeQuery15 (realTimes log) <;> simp only [realTimes] at h <;>
    simp [bind, Except.bind, Except.map, h, pure, Except.pure]

theorem sumByQuery_ones {n query : ℕ} (h : query + n ≤ 15 ∨ 15 < query) (ts : List ℚ) :
    sumByQuery n query ts = ts.take n := by
  induction n generalizing query ts with
  | zero => rfl
  | succ n ih =>
    have hq : timerCount query = 1 := if_neg (by omega)
    cases ts with
    | nil => simp [sumByQuery, hq]
    | cons t ts => simp [sumByQuery, hq, ih (by omega : query + 1 + n ≤ 15 ∨ 15 < query + 1)]

theorem sumByQuery_add {n m query : ℕ} (h : query + n ≤ 15) {ts : List ℚ} (hn : n ≤ ts.length) :
    sumByQuery (n + m) query ts = ts.take n ++ sumByQuery m (query + n) (ts.drop n) := by
  induction n generalizing query ts with
  | zero => simp
  | succ n ih =>
    have hq : timerCount query = 1 := if_neg (by omega)
    obtain ⟨t, ts, rfl⟩ := List.exists_cons_of_length_pos (by omega : 0 < ts.length)
    have hs : sumByQuery (n + 1 + m) query (t :: ts) = t :: sumByQuery (n + m) (query + 1) ts := by
      rw [Nat.add_right_comm]
      simp [sumByQuery, hq]
    simp only [List.length_cons, Nat.add_le_add_iff_right] at hn
    rw [hs, ih (by omega) hn]
    simp [Nat.add_assoc, Nat.add_comm 1 n]

theorem queryTimes_of_le {ts : List ℚ} (h : 17 ≤ ts.length) :
    queryTimes ts = ts.take 14 ++ ((ts.drop 14).take 3).sum :: (ts.drop 17).take 7 := by
  have h15 : timerCount 15 = 3 := rfl
  rw [queryTimes, sumByQuery_add (n := 14) (m := 8) (by decide) (by omega)]
  rw [sumByQuery, h15, if_pos (by simp; omega), sumByQuery_ones (by decide), List.drop_drop]

theorem queryTimes_of_lt {ts : List ℚ} (h : 15 ≤ ts.length) (h' : ts.length < 17) :
    queryTimes ts = ts.take 14 := by
  have h15 : timerCount 15 = 3 := rfl
  rw [queryTimes, sumByQuery_add (n := 14) (m := 8) (by decide) (by omega)]
  rw [sumByQuery, h15, if_neg (by simp; omega), List.append_nil]

theorem mergeQuery15_of_lt {ts : List ℚ} (h : 14 < ts.length) :
    mergeQuery15 ts = .ok (ts.take 14 ++ ((ts.drop 14).take 3).sum :: ts.drop 17) := by
  have hlen : (ts.take 14).length = 14 := by simp; omega
  rw [mergeQuery15, if_neg (by omega)]
  simp only [List.set_eq_take_append_cons_drop, if_pos h]
  have htake : (ts.take 14 ++ ((ts.drop 14).take 3).sum :: ts.drop 15).take 15 =
      ts.take 14 ++ [((ts.drop 14).take 3).sum] := by
    rw [List.take_append, hlen, List.take_of_length_le (by omega)]
    rfl
  have hdrop : (ts.take 14 ++ ((ts.drop 14).take 3).sum :: ts.drop 15).drop 17 = ts.drop 17 := by
    rw [List.drop_append, hlen, List.drop_of_length_le (by omega)]
    simp
  rw [htake, hdrop, List.append_assoc, List.singleton_append]

theorem csvRows_injective (iteration : ℕ) : Function.Injective (csvRows iteration) := by
  intro a b h
  apply List.ext_getElem?
  intro i
  have hi := congrArg (·[i]?) h
  simp only [csvRows, List.getElem?_mapIdx] at hi
  cases ha : a[i]? <;> cases hb : b[i]? <;> simp_all

/-- The merged list is the list of complete queries exactly for 17 to 24 times. -/
theorem mergeQuery15_eq_queryTimes_iff (ts : List ℚ) :
    mergeQuery15 ts = .ok (queryTimes ts) ↔ 17 ≤ ts.length ∧ ts.length ≤ 24 := by
  rcases Nat.lt_or_ge 14 ts.length with h | h
  · rw [mergeQuery15_of_lt h, Except.ok.injEq]
    rcases Nat.lt_or_ge ts.length 17 with h' | h'
    · rw [queryTimes_of_lt h h']
      refine ⟨fun he => ?_, by omega⟩
      have := congrArg List.length he
      simp at this
    · rw [queryTimes_of_le h', List.append_cancel_left_eq, List.cons.injEq]
      constructor
      · rintro ⟨-, he⟩
        have := congrArg List.length he
        simp at this
        omega
      · rintro ⟨-, hle⟩
        exact ⟨rfl, (List.take_of_length_le (by simp; omega)).symm⟩
  · have : mergeQuery15 ts = .error .indexError := if_pos h
    rw [this]
    exact ⟨nofun, by omega⟩

/-- For an iteration with the given log, `run_benchmark` and OSv's `extract_run_times` with
`save_to_csv` write the same rows exactly when the log has 17 to 24 timer lines. -/
theorem benchmarkRows_agree_iff (iteration : ℕ) (log : List LogLine) :
    (∃ rows, benchmarkRows iteration (render log) = .ok rows ∧
      ∀ csv, saveToCsv csv iteration (extractRunTimes (render log)) =
        (if iteration = 1 then [.header] else csv) ++ rows) ↔
      17 ≤ (realTimes log).length ∧ (realTimes log).length ≤ 24 := by
  rw [← mergeQuery15_eq_queryTimes_iff, benchmarkRows_render, extractRunTimes_render]
  constructor
  · rintro ⟨rows, hrows, hsave⟩
    have hr : csvRows iteration (queryTimes (realTimes log)) = rows :=
      List.append_cancel_left (hsave [])
    cases h : mergeQuery15 (realTimes log) with
    | error e => simp [h, Except.map] at hrows
    | ok ts =>
      rw [h, ← hr, Except.map, Except.ok.injEq] at hrows
      rw [csvRows_injective iteration hrows]
  · intro h
    exact ⟨_, by rw [h]; rfl, fun csv => rfl⟩

/-- On runs that are neither cut short nor too long `run_benchmark` goes through all iterations. -/
theorem runBenchmarkFrom_render {logs : List (List LogLine)}
    (h : ∀ log ∈ logs, 17 ≤ (realTimes log).length ∧ (realTimes log).length ≤ 24)
    (iteration : ℕ) (csv : List CsvLine) :
    runBenchmarkFrom iteration csv (logs.map render) =
      (csv ++ (logs.mapIdx fun i log =>
        csvRows (i + iteration) (queryTimes (realTimes log))).flatten, none) := by
  induction logs generalizing iteration csv with
  | nil => simp [runBenchmarkFrom]
  | cons log logs ih =>
    obtain ⟨hlog, hlogs⟩ := List.forall_mem_cons.mp h
    have hrows : benchmarkRows iteration (render log) =
        .ok (csvRows iteration (queryTimes (realTimes log))) := by
      rw [benchmarkRows_render, (mergeQuery15_eq_queryTimes_iff _).mpr hlog]
      rfl
    rw [List.map_cons, runBenchmarkFrom, hrows]
    dsimp only
    rw [ih hlogs]
    simp [List.mapIdx_cons, add_assoc, add_comm 1 iteration]

theorem runBenchmark_render {logs : List (List LogLine)}
    (h : ∀ log ∈ logs, 17 ≤ (realTimes log).length ∧ (realTimes log).length ≤ 24) :
    runBenchmark (logs.map render) = (.header :: (logs.mapIdx fun i log =>
      csvRows (i + 1) (queryTimes (realTimes log))).flatten, none) :=
  runBenchmarkFrom_render h 1 [.header]

def millisecond : Decimal :=
  { Decimal.ofDigit '0' rfl with
    frac := ['0', '0', '1']
    frac_ne := List.cons_ne_nil _ _
    frac_digits := List.all_eq_true.mp rfl }

/-- On the log of a run that was cut short after its first query `run_benchmark` fails. -/
theorem not_agree_first_query :
    ¬ ∃ rows, benchmarkRows 1 (render [.plain millisecond millisecond millisecond]) = .ok rows ∧
      ∀ csv, saveToCsv csv 1
          (extractRunTimes (render [.plain millisecond millisecond millisecond])) =
        (if (1 : ℕ) = 1 then [.header] else csv) ++ rows := by
  rintro ⟨rows, hrows, -⟩
  rw [benchmarkRows_render] at hrows
  have : mergeQuery15 (realTimes [.plain millisecond millisecond millisecond]) =
      .error .indexError := rfl
  rw [this] at hrows
  cases hrows

end TpchBench.Timing
