import TpchBench.Timing.Log

/-! # The extractor of OSv

`clean-queries-time.py` walks over the lines of a log with a query counter, a partial sum
and a partial count. Abstractly it cuts the list of real times into one group for each
query, three times for query 15 and one for every other, and keeps the complete groups.
-/

namespace TpchBench.Timing

open Matcher Python

def lineTime (line : Text) : Option ℚ :=
  if strstr line runTimeMark then search realPattern line else none

/-- The local variables of `extract_run_times`. -/
structure Extraction where
  currentQuery : ℕ
  runTimeSum : ℚ
  runTimeCount : ℕ
  runTimes : List ℚ

/-- The body of the loop for a line with a time. -/
def Extraction.add (e : Extraction) (realTime : ℚ) : Extraction :=
  if e.currentQuery = 15 then
    if e.runTimeCount + 1 = 3 then
      { currentQuery := e.currentQuery + 1
        runTimeSum := 0
        runTimeCount := 0
        runTimes := e.runTimes ++ [e.runTimeSum + realTime] }
    else { e with runTimeSum := e.runTimeSum + realTime, runTimeCount := e.runTimeCount + 1 }
  else { e with currentQuery := e.currentQuery + 1, runTimes := e.runTimes ++ [realTime] }

/-- The loop over the lines, left when all 22 queries have a time. -/
def Extraction.loop : Extraction → List Text → List ℚ
  | e, [] => e.runTimes
  | e, line :: lines =>
    match lineTime line with
    | none => loop e lines
    | some realTime =>
      let e := e.add realTime
      if e.currentQuery > 22 then e.runTimes else loop e lines

def extractRunTimes (file : Text) : List ℚ :=
  Extraction.loop { currentQuery := 1, runTimeSum := 0, runTimeCount := 0, runTimes := [] }
    (readlines file)

/-- A line of the CSV file; `torn` is one that a killed writer left unfinished. -/
inductive CsvLine where
  | header
  | row (iteration query : ℕ) (time : ℚ)
  | torn
  deriving DecidableEq, Repr

/-- `enumerate(times, 1)` as rows of an iteration. -/
def csvRows (iteration : ℕ) (times : List ℚ) : List CsvLine :=
  times.mapIdx fun i time => .row iteration (i + 1) time

/-- `save_to_csv`: the first iteration overwrites the file, the others append. -/
def saveToCsv (csv : List CsvLine) (iteration : ℕ) (runTimes : List ℚ) : List CsvLine :=
  (if iteration = 1 then [.header] else csv) ++ csvRows iteration runTimes

def timerCount (query : ℕ) : ℕ := if query = 15 then 3 else 1

def sumByQuery : ℕ → ℕ → List ℚ → List ℚ
  | 0, _, _ => []
  | n + 1, query, times =>
    if timerCount query ≤ times.length then
      (times.take (timerCount query)).sum ::
        sumByQuery n (query + 1) (times.drop (timerCount query))
    else []

/-- The time of every query all of whose statements were timed, in query order. -/
def queryTimes (times : List ℚ) : List ℚ := sumByQuery 22 1 times

theorem timerCount_pos (query : ℕ) : 0 < timerCount query := by
  unfold timerCount; split <;> decide

/-- The loop on the times alone. -/
def Extraction.feed : Extraction → List ℚ → List ℚ
  | e, [] => e.runTimes
  | e, t :: ts => if (e.add t).currentQuery > 22 then (e.add t).runTimes else feed (e.add t) ts

theorem Extraction.loop_eq_feed (e : Extraction) (lines : List Text) :
    e.loop lines = e.feed (lines.filterMap lineTime) := by
  induction lines generalizing e with
  | nil => rfl
  | cons line lines ih =>
    cases h : lineTime line with
    | none => simp [loop, h, ih]
    | some t => simp [loop, feed, h, ih]

/-- The counter points to a query whose group is still open. -/
structure Extraction.Open (e : Extraction) (n : ℕ) : Prop where
  query : e.currentQuery + n = 22
  count : e.runTimeCount < timerCount e.currentQuery
  sum : e.currentQuery ≠ 15 → e.runTimeSum = 0 ∧ e.runTimeCount = 0

theorem Extraction.Open.add_close {e : Extraction} {n : ℕ} (h : e.Open n) (t : ℚ)
    (hc : e.runTimeCount + 1 = timerCount e.currentQuery) :
    e.add t = { currentQuery := e.currentQuery + 1, runTimeSum := 0, runTimeCount := 0,
                runTimes := e.runTimes ++ [e.runTimeSum + t] } := by
  unfold Extraction.add
  by_cases hq : e.currentQuery = 15
  · rw [if_pos hq, if_pos (by simpa [timerCount, hq] using hc)]
  · obtain ⟨hs, hn⟩ := h.sum hq
    rw [if_neg hq, hs, hn, zero_add]

theorem Extraction.add_keep {e : Extraction} (t : ℚ)
    (hc : e.runTimeCount + 1 < timerCount e.currentQuery) :
    e.currentQuery = 15 ∧ e.add t =
      { e with runTimeSum := e.runTimeSum + t, runTimeCount := e.runTimeCount + 1 } := by
  by_cases hq : e.currentQuery = 15
  · have : e.runTimeCount + 1 ≠ 3 := by simp [timerCount, hq] at hc; omega
    exact ⟨hq, by rw [add, if_pos hq, if_neg this]⟩
  · simp [timerCount, hq] at hc

/-- What the loop returns from an open state: the group in progress, if it is completed,
and the complete groups after it. -/
theorem Extraction.Open.feed_eq {e : Extraction} {n : ℕ} (h : e.Open n) (ts : List ℚ) :
    e.feed ts = e.runTimes ++
      if timerCount e.currentQuery - e.runTimeCount ≤ ts.length then
        (e.runTimeSum + (ts.take (timerCount e.currentQuery - e.runTimeCount)).sum) ::
          sumByQuery n (e.currentQuery + 1)
            (ts.drop (timerCount e.currentQuery - e.runTimeCount))
      else [] := by
  induction ts generalizing e n with
  | nil =>
    have := h.count
    rw [if_neg (by simp; omega)]
    simp [feed]
  | cons t ts ih =>
    have hcount := h.count
    rcases Nat.lt_or_ge (e.runTimeCount + 1) (timerCount e.currentQuery) with hlt | hge
    · obtain ⟨hq, hadd⟩ := add_keep t hlt
      have hopen : (e.add t).Open n := by
        rw [hadd]
        exact ⟨h.query, hlt, fun hne => absurd hq hne⟩
      have hle : ¬ (e.add t).currentQuery > 22 := by have := hopen.query; omega
      rw [feed, if_neg hle, ih hopen, hadd]
      -- The open group has room for one time less.
      obtain ⟨k, hk⟩ : ∃ k, timerCount e.currentQuery - e.runTimeCount = k + 1 :=
        ⟨timerCount e.currentQuery - e.runTimeCount - 1, by omega⟩
      have hk' : timerCount e.currentQuery - (e.runTimeCount + 1) = k := by omega
      simp only [hk, hk', List.length_cons, Nat.add_le_add_iff_right, List.take_succ_cons,
        List.drop_succ_cons, List.sum_cons, add_assoc]
    · have hlast : e.runTimeCount + 1 = timerCount e.currentQuery := by omega
      have hadd := h.add_close t hlast
      have hone : timerCount e.currentQuery - e.runTimeCount = 1 := by omega
      rw [hone, if_pos (by simp)]
      simp only [List.take_succ_cons, List.take_zero, List.sum_singleton, List.drop_succ_cons,
        List.drop_zero]
      cases n with
      | zero =>
        have hq := h.query
        rw [feed, if_pos (by rw [hadd]; simp only; omega), hadd]
        rfl
      | succ n =>
        have hopen : (e.add t).Open n := by
          rw [hadd]
          exact ⟨by have := h.query; simp only; omega, timerCount_pos _, fun _ => ⟨rfl, rfl⟩⟩
        have hle : ¬ (e.add t).currentQuery > 22 := by have := hopen.query; omega
        rw [feed, if_neg hle, ih hopen, hadd]
        simp [sumByQuery]

theorem extractRunTimes_eq (file : Text) :
    extractRunTimes file = queryTimes ((readlines file).filterMap lineTime) := by
  have hopen : Extraction.Open
      { currentQuery := 1, runTimeSum := 0, runTimeCount := 0, runTimes := [] } 21 :=
    ⟨rfl, timerCount_pos _, fun _ => ⟨rfl, rfl⟩⟩
  rw [extractRunTimes, Extraction.loop_eq_feed, hopen.feed_eq]
  simp only [List.nil_append, Nat.sub_zero, zero_add]
  rfl

def timesIn (file : Text) : List ℚ := (readlines file).filterMap lineTime

theorem extractRunTimes_eq_timesIn (file : Text) :
    extractRunTimes file = queryTimes (timesIn file) :=
  extractRunTimes_eq file

theorem realPattern_real (d : Decimal) {s : Text} (hs : ∀ c ∈ s.head?, isdecimal c = false) :
    realPattern ("real".toList ++ (' ' :: (d.text ++ s))) = some d.value := by
  have hdigit (t : Text) (ht : ∀ c ∈ t, c.isDigit) : ∀ c ∈ t, isdecimal c :=
    fun c hc => isdecimal_of_isDigit (ht c hc)
  have hfrac : plus isdecimal (fun frac _ => some (decimalValue d.whole frac)) (d.frac ++ s) =
      some d.value := plus_run d.frac_ne (hdigit _ d.frac_digits) hs rfl
  have hdot : lits ['.'] (plus isdecimal fun frac _ => some (decimalValue d.whole frac))
      ('.' :: (d.frac ++ s)) = some d.value := by
    simpa [lits] using hfrac
  have htext : d.text ++ s = d.whole ++ '.' :: (d.frac ++ s) := by simp [Decimal.text]
  unfold realPattern
  rw [lits_append, htext]
  refine plus_run (List.cons_ne_nil ' ' []) (by simp [isspace, whitespace]) ?_ ?_
  · intro c hc
    obtain ⟨w, ws, hw⟩ := List.exists_cons_of_ne_nil d.whole_ne
    rw [hw] at hc
    obtain rfl : w = c := Option.some.inj hc
    exact isspace_eq_false_of_isDigit (d.whole_digits w (by simp [hw]))
  · have hstop : isdecimal '.' = false := by decide +kernel
    exact plus_run d.whole_ne (hdigit _ d.whole_digits) (by simp [hstop]) hdot

theorem stopsAt_realPattern : StopsAt 'R' realPattern := by
  have hstop : isdecimal 'R' = false := by decide +kernel
  refine stopsAt_lits (by decide) (stopsAt_plus (by decide) fun _ => stopsAt_plus hstop
    fun whole => stopsAt_lits (by decide) ?_)
  exact stopsAt_plus hstop fun frac t s => rfl

theorem lineTime_of_mark {line : Text} (h : runTimeMark <:+: line) :
    lineTime line = search realPattern line :=
  if_pos (decide_eq_true h)

/-- On a line with the times of a statement a time that stands before them wins. -/
theorem lineTime_append_timerText (p t : Text) (r u s : Decimal) :
    lineTime (p ++ (timerText r u s ++ t)) = (search realPattern p).or (some r.value) := by
  have hmark : timerText r u s ++ t = "Run Time: ".toList ++ ("real".toList ++
      (' ' :: (r.text ++ (userMark ++ (u.text ++ (sysMark ++ s.text ++ t)))))) := by
    have hreal : realMark = "Run Time: ".toList ++ ("real".toList ++ [' ']) := rfl
    simp only [timerText, hreal, List.append_assoc, List.cons_append, List.nil_append]
  have hin : runTimeMark <:+: timerText r u s ++ t := by
    rw [hmark]
    have hpre : runTimeMark <+: "Run Time: ".toList := by decide
    exact (hpre.trans (List.prefix_append _ _)).isInfix
  have hsearch : search realPattern (timerText r u s ++ t) = some r.value := by
    rw [hmark, search_append]
    · have huser : ∀ t, ∀ c ∈ (userMark ++ t).head?, isdecimal c = false := by
        intro t c hc
        obtain rfl : ' ' = c := Option.some.inj hc
        decide +kernel
      exact search_of_some (realPattern_real r (huser _))
    · -- No suffix of the text before `real` starts with an `r`.
      intro c t ht
      have hc : c ≠ 'r' := by
        rintro rfl
        exact absurd (ht.subset List.mem_cons_self) (by decide)
      simp [realPattern, lits, hc]
  obtain ⟨tail, htail⟩ : ∃ tail, timerText r u s ++ t = 'R' :: tail := ⟨_, rfl⟩
  rw [lineTime_of_mark (List.infix_append_of_infix_right hin), htail,
    search_append_stop stopsAt_realPattern rfl, ← htail, hsearch]

theorem lineTime_eq_none {line : Text} (h : ¬ runTimeMark <:+: line) : lineTime line = none := by
  simp [lineTime, strstr, h]

theorem timesIn_other {file : Text} (h : ¬ runTimeMark <:+: file) : timesIn file = [] := by
  rw [timesIn, List.filterMap_eq_nil_iff]
  intro l hl
  exact lineTime_eq_none fun hm => h (infix_of_mem_readlines (by decide) hl hm)

theorem not_infix_append_newline {t : Text} (h : ¬ runTimeMark <:+: t) :
    ¬ runTimeMark <:+: t ++ ['\n'] := fun hi =>
  ((infix_append_cons_iff (by decide)).mp hi).elim h (by decide)

@[simp] theorem timesIn_nil : timesIn [] = [] := rfl

theorem timesIn_append_newline (a s : Text) :
    timesIn (a ++ '\n' :: s) = timesIn (a ++ ['\n']) ++ timesIn s := by
  rw [timesIn, readlines_append, List.filterMap_append]
  rfl

theorem lineTime_newline : lineTime ['\n'] = none := by
  apply lineTime_eq_none
  decide

theorem timesIn_append_cr (a s : Text) :
    timesIn (a ++ '\r' :: s) = timesIn (a ++ ['\r']) ++ timesIn s := by
  obtain ⟨ls, hls, hs⟩ := readlines_append_cr a s
  have htimes : timesIn s = ls.filterMap lineTime := by
    rcases hs with hs | hs
    · rw [timesIn, hs]
    · rw [timesIn, hs, List.filterMap_cons_none lineTime_newline]
  rw [timesIn, hls, List.filterMap_append, htimes]
  rfl

theorem timesIn_line {l : Text} (hl : '\n' ∉ l ∧ '\r' ∉ l) {c : Char} (hc : c = '\n' ∨ c = '\r') :
    timesIn (l ++ [c]) = (lineTime (l ++ ['\n'])).toList := by
  have hlines : readlines (l ++ [c]) = [l ++ ['\n']] := by
    rcases hc with rfl | rfl
    · exact readlines_line hl.1 hl.2
    · exact readlines_line_cr hl.1 hl.2
  rw [timesIn, hlines]
  cases h : lineTime (l ++ ['\n']) <;> simp [h]

theorem timesIn_append_timerText {p after : Text} (hp : '\n' ∉ p ∧ '\r' ∉ p)
    (hafter : '\n' ∉ after) (hmark : ¬ runTimeMark <:+: after) (r u s : Decimal) :
    timesIn (p ++ (timerText r u s ++ (after ++ ['\n']))) =
      ((search realPattern p).or (some r.value)).toList := by
  have htimer := timerText_line r u s
  have hline (a : Text) (ha : '\n' ∉ a ∧ '\r' ∉ a) {c : Char} (hc : c = '\n' ∨ c = '\r') :
      timesIn (p ++ (timerText r u s ++ (a ++ [c]))) =
        ((search realPattern p).or (some r.value)).toList := by
    have happend (x : Text) :
        p ++ (timerText r u s ++ (a ++ x)) = p ++ timerText r u s ++ a ++ x := by
      simp only [List.append_assoc]
    rw [happend, timesIn_line (by simp [hp, htimer, ha]) hc, ← happend, lineTime_append_timerText]
  by_cases hcr : '\r' ∈ after
  · -- What follows a carriage return is a line of its own.
    obtain ⟨a, b, rfl, ha⟩ := List.eq_append_cons_of_mem hcr
    have hna : '\n' ∉ a := fun h => hafter (List.mem_append_left _ h)
    have hb : ¬ runTimeMark <:+: b ++ ['\n'] := not_infix_append_newline fun h =>
      hmark (h.trans ⟨a ++ ['\r'], [], by simp⟩)
    have hsplit : p ++ (timerText r u s ++ (a ++ '\r' :: b ++ ['\n'])) =
        (p ++ (timerText r u s ++ a)) ++ '\r' :: (b ++ ['\n']) := by
      simp only [List.append_assoc, List.cons_append]
    have hcut : (p ++ (timerText r u s ++ a)) ++ ['\r'] =
        p ++ (timerText r u s ++ (a ++ ['\r'])) := by
      simp only [List.append_assoc]
    rw [hsplit, timesIn_append_cr, timesIn_other hb, List.append_nil, hcut]
    exact hline a ⟨hna, ha⟩ (Or.inr rfl)
  · exact hline after ⟨hafter, hcr⟩ (Or.inl rfl)

theorem TimerLine.timesIn (l : TimerLine) : timesIn (l.text ++ ['\n']) = [l.real.value] := by
  have hline := timesIn_append_timerText l.before_line l.after_line l.after_noMark l.real l.user
    l.sys
  rw [l.before_noTime, Option.none_or, Option.toList_some] at hline
  rw [text, List.append_assoc, List.append_assoc]
  exact hline

theorem timesIn_render (log : List LogLine) : timesIn (render log) = realTimes log := by
  induction log with
  | nil => rfl
  | cons l log ih =>
    rw [render_cons, timesIn_append_newline, ih]
    cases l with
    | timer l =>
      rw [LogLine.text, l.timesIn]
      rfl
    | other t hn hm =>
      rw [LogLine.text, timesIn_other (not_infix_append_newline hm)]
      rfl

/-- On a log the extractor returns the times of the queries that were timed completely. -/
theorem extractRunTimes_render (log : List LogLine) :
    extractRunTimes (render log) = queryTimes (realTimes log) := by
  rw [extractRunTimes_eq_timesIn, timesIn_render]

/-- What the shell prints while it runs the queries in order: the lines up to the end of each
query, among them the timer lines of its statements, and whatever follows query 22. -/
structure RunOutput where
  sections : List (List LogLine)
  rest : List LogLine
  length_sections : sections.length = 22
  timers : ∀ i, ∀ h : i < sections.length, (realTimes sections[i]).length = timerCount (i + 1)

def RunOutput.lines (r : RunOutput) : List LogLine := r.sections.flatten ++ r.rest

/-- The sums of the sections none of whose timer lines lie behind the cut. -/
def completeSums : List (List LogLine) → ℕ → List ℚ
  | [], _ => []
  | s :: ss, cut =>
    (if realTimes (s.drop cut) = [] then [(realTimes s).sum] else []) ++
      completeSums ss (cut - s.length)

theorem completeSums_zero {ss : List (List LogLine)} (h : ∀ s ∈ ss, realTimes s ≠ []) :
    completeSums ss 0 = [] := by
  induction ss with
  | nil => rfl
  | cons s ss ih =>
    obtain ⟨hs, hss⟩ := List.forall_mem_cons.mp h
    rw [completeSums, List.drop_zero, if_neg hs, Nat.zero_sub, ih hss, List.append_nil]

theorem realTimes_take_drop (s : List LogLine) (cut : ℕ) :
    realTimes s = realTimes (s.take cut) ++ realTimes (s.drop cut) := by
  rw [← realTimes_append, List.take_append_drop]

theorem sumByQuery_sections {query : ℕ} {ss : List (List LogLine)}
    (h : ∀ i, ∀ hi : i < ss.length, (realTimes ss[i]).length = timerCount (query + i))
    (rest : List LogLine) (cut : ℕ) :
    sumByQuery ss.length query (realTimes ((ss.flatten ++ rest).take cut)) =
      completeSums ss cut := by
  induction ss generalizing query cut with
  | nil => rfl
  | cons s ss ih =>
    have hs : (realTimes s).length = timerCount query := h 0 (by simp)
    have hss : ∀ i, ∀ hi : i < ss.length,
        (realTimes ss[i]).length = timerCount (query + 1 + i) := by
      intro i hi
      rw [Nat.add_assoc, Nat.add_comm 1 i]
      exact h (i + 1) (by simpa using hi)
    have hsplit := realTimes_take_drop s cut
    rw [List.flatten_cons, List.append_assoc, List.take_append, realTimes_append,
      List.length_cons, sumByQuery, completeSums]
    by_cases hcut : realTimes (s.drop cut) = []
    · rw [hcut, List.append_nil] at hsplit
      rw [← hsplit, if_pos hcut, if_pos (by rw [List.length_append]; omega), ← hs,
        List.take_left, List.drop_left, ih hss]
      rfl
    · -- The cut lies inside this section, so nothing of the later ones is left.
      have hlt : cut < s.length := by
        by_contra hge
        exact hcut (by rw [List.drop_of_length_le (by omega)]; rfl)
      have hzero : cut - s.length = 0 := by omega
      have hlen := congrArg List.length hsplit
      have hpos := List.length_pos_iff.mpr hcut
      rw [List.length_append] at hlen
      have hnone : ∀ t ∈ ss, realTimes t ≠ [] := by
        intro t ht hnil
        obtain ⟨i, hi, rfl⟩ := List.mem_iff_getElem.mp ht
        have hcount := hss i hi
        have hone := timerCount_pos (query + 1 + i)
        rw [hnil, List.length_nil] at hcount
        omega
      have hnil : realTimes [] = [] := rfl
      rw [hzero, List.take_zero, hnil, List.append_nil, if_neg (by omega), if_neg hcut,
        completeSums_zero hnone]
      rfl

/-- Of a run that is cut off after any of its lines, the extractor returns the sums of the
queries all of whose timer lines are there, in query order. -/
theorem RunOutput.extractRunTimes_take (r : RunOutput) (cut : ℕ) :
    extractRunTimes (render (r.lines.take cut)) = completeSums r.sections cut := by
  have h : ∀ i, ∀ hi : i < r.sections.length,
      (realTimes r.sections[i]).length = timerCount (1 + i) := by
    intro i hi
    rw [Nat.add_comm]
    exact r.timers i hi
  rw [extractRunTimes_render, queryTimes, ← r.length_sections, lines, sumByQuery_sections h]

def RunOutput.uniform (t : Decimal) : RunOutput where
  sections := (List.range 22).map fun i => List.replicate (timerCount (i + 1)) (.plain t t t)
  rest := []
  length_sections := by simp
  timers i h := by simp [realTimes, List.filterMap_replicate, LogLine.real?, LogLine.plain]

-- A cut between the timer lines of query 15 leaves 14 queries.
example : completeSums (RunOutput.uniform (.ofDigit '2' rfl)).sections 16 =
    List.replicate 14 2 := by
  decide +kernel

end TpchBench.Timing
