import TpchBench.Shell.Session
import Mathlib.Data.List.Chain

/-! # The console of the guest

The shell writes to the console of OSv, whose line discipline puts a carriage return before every
newline. The input is echoed by a thread that does not wait for the shell to read it, so what is
echoed may stand anywhere between the writes. The extractor still finds the times that were
written, since no time and no mark begins in the prompts and in what is echoed.
-/

namespace TpchBench.Shell

open Timing Python

/-- `LineDiscipline::write`, which with `ONLCR` writes a carriage return before a newline. -/
def discipline (onlcr : Bool) (text : Text) : Text :=
  if onlcr then text.flatMap fun c => if c = '\n' then ['\r', '\n'] else [c] else text

def timeMark : Text := "Time:".toList

/-- Whole lines that hold no `Time:`. -/
structure Quiet (t : Text) : Prop where
  wholeLines : t = [] ∨ ∃ u, t = u ++ ['\n']
  noMark : ¬ timeMark <:+: t

theorem Quiet.nil : Quiet [] := ⟨Or.inl rfl, by decide⟩

/-- What a console may show where no character is echoed inside a write: the writes and the
characters that are echoed, each in their order, and messages of the kernel. -/
inductive Shows (onlcr : Bool) : List Text → Text → Text → Prop where
  | nil : Shows onlcr [] [] []
  | write (w : Text) {writes : List Text} {echo shown : Text} (h : Shows onlcr writes echo shown) :
      Shows onlcr (w :: writes) echo (discipline onlcr w ++ shown)
  | echo (c : Char) {writes : List Text} {echo shown : Text} (h : Shows onlcr writes echo shown) :
      Shows onlcr writes (c :: echo) (c :: shown)
  | message {t : Text} (ht : Quiet t) {writes : List Text} {echo shown : Text}
      (h : Shows onlcr writes echo shown) : Shows onlcr writes echo (discipline onlcr t ++ shown)

/-- The console of each session: whether it is a terminal, and what it shows of the writes and
the input. -/
structure Console where
  isTerminal : Bool
  display : ℕ → List Text → Text → Text
  shows : ∀ session writes echo, Shows isTerminal writes echo (display session writes echo)

namespace Shows

variable {onlcr : Bool} {writes : List Text} {echo shown : Text}

theorem flatMap (onlcr : Bool) (writes : List Text) :
    Shows onlcr writes [] (writes.flatMap (discipline onlcr)) := by
  induction writes with
  | nil => exact .nil
  | cons w writes ih => exact .write w ih

theorem echo_append (t : Text) (h : Shows onlcr writes echo shown) :
    Shows onlcr writes (t ++ echo) (t ++ shown) := by
  induction t with
  | nil => exact h
  | cons c t ih => exact .echo c ih

end Shows

theorem discipline_nil (onlcr : Bool) : discipline onlcr [] = [] := by
  cases onlcr <;> rfl

theorem discipline_cons (onlcr : Bool) (c : Char) (t : Text) :
    discipline onlcr (c :: t) =
      (if onlcr ∧ c = '\n' then ['\r', '\n'] else [c]) ++ discipline onlcr t := by
  cases onlcr <;> simp [discipline]

theorem discipline_append (onlcr : Bool) (a b : Text) :
    discipline onlcr (a ++ b) = discipline onlcr a ++ discipline onlcr b := by
  cases onlcr <;> simp [discipline]

theorem discipline_of_not_mem (onlcr : Bool) {t : Text} (h : '\n' ∉ t) :
    discipline onlcr t = t := by
  induction t with
  | nil => exact discipline_nil onlcr
  | cons c t ih =>
    simp only [List.mem_cons, not_or] at h
    rw [discipline_cons, if_neg fun hc => h.1 hc.2.symm, ih h.2, List.singleton_append]

theorem discipline_newline (onlcr : Bool) :
    ∃ cr : Text, discipline onlcr ['\n'] = cr ++ ['\n'] ∧ (cr = [] ∨ cr = ['\r']) := by
  cases onlcr
  · exact ⟨[], rfl, Or.inl rfl⟩
  · exact ⟨['\r'], rfl, Or.inr rfl⟩

theorem prefix_of_discipline {onlcr : Bool} {pat t : Text} (hn : '\n' ∉ pat) (hr : '\r' ∉ pat)
    (h : pat <+: discipline onlcr t) : pat <+: t := by
  induction t generalizing pat with
  | nil => rwa [discipline_nil] at h
  | cons c t ih =>
    cases pat with
    | nil => exact List.nil_prefix
    | cons d pat =>
      simp only [List.mem_cons, not_or] at hn hr
      rw [discipline_cons] at h
      split at h
      · exact absurd (List.cons_prefix_cons.mp h).1.symm hr.1
      · obtain ⟨rfl, hpat⟩ := List.cons_prefix_cons.mp h
        exact List.cons_prefix_cons.mpr ⟨rfl, ih hn.2 hr.2 hpat⟩

/-- The carriage returns create no new occurrence of a text within a line. -/
theorem infix_of_discipline {onlcr : Bool} {pat t : Text} (hn : '\n' ∉ pat) (hr : '\r' ∉ pat)
    (h : pat <:+: discipline onlcr t) : pat <:+: t := by
  induction t with
  | nil => rwa [discipline_nil] at h
  | cons c t ih =>
    cases pat with
    | nil => exact List.nil_infix
    | cons d pat =>
      rw [discipline_cons] at h
      split at h
      · rcases List.infix_cons_iff.mp h with h | h
        · exact absurd (by simp [(List.cons_prefix_cons.mp h).1]) hr
        · rcases List.infix_cons_iff.mp h with h | h
          · exact absurd (by simp [(List.cons_prefix_cons.mp h).1]) hn
          · exact (ih h).trans (List.suffix_cons c t).isInfix
      · rcases List.infix_cons_iff.mp h with h | h
        · obtain ⟨rfl, hpat⟩ := List.cons_prefix_cons.mp h
          simp only [List.mem_cons, not_or] at hn hr
          exact (List.cons_prefix_cons.mpr
            ⟨rfl, prefix_of_discipline hn.2 hr.2 hpat⟩).isInfix
        · exact (ih h).trans (List.suffix_cons c t).isInfix

/-- Neither the digits of a time nor the mark of the timer go on with these two characters. -/
def Calm (a b : Char) : Prop := (a = '.' → isdecimal b = false) ∧ (a = 'R' → b ≠ 'u')

instance : DecidableRel Calm := fun _ _ => inferInstanceAs (Decidable (_ ∧ _))

theorem search_of_calm {t : Text} (h : t.IsChain Calm) :
    Matcher.search realPattern t = none := by
  by_contra hne
  obtain ⟨v, hv⟩ := Option.ne_none_iff_exists'.mp hne
  obtain ⟨s, hs, hm⟩ := Matcher.exists_of_search hv
  obtain ⟨_, rfl, hm⟩ := Matcher.exists_of_lits hm
  obtain ⟨space, _, rfl, -, -, hm⟩ := Matcher.exists_of_plus hm
  obtain ⟨whole, _, rfl, -, -, hm⟩ := Matcher.exists_of_plus hm
  obtain ⟨_, rfl, hm⟩ := Matcher.exists_of_lits hm
  obtain ⟨frac, rest, rfl, hfrac, hdecimal, -⟩ := Matcher.exists_of_plus hm
  -- The point of the time is followed by a digit.
  obtain ⟨d, frac, rfl⟩ := List.exists_cons_of_ne_nil hfrac
  have hpoint : ['.', d] <:+: t := by
    refine List.IsInfix.trans ?_ hs.isInfix
    exact ⟨"real".toList ++ (space ++ whole), frac ++ rest, by simp⟩
  have hcalm := h.infix hpoint
  rw [List.isChain_pair] at hcalm
  have hd := hdecimal d List.mem_cons_self
  rw [hcalm.1 rfl] at hd
  cases hd

theorem runTimeMark_eq : runTimeMark = 'R' :: 'u' :: ("n ".toList ++ timeMark) := by
  decide +kernel

/-- No mark begins in a calm text and goes on with quiet output. -/
theorem noMark_append_quiet {a t : Text} (ha : a.IsChain Calm) (ht : ¬ timeMark <:+: t) :
    ¬ runTimeMark <:+: a ++ t := by
  have hstart : ¬ ['R', 'u'] <:+: a := by
    intro h
    have hchain := List.IsChain.infix ha h
    exact (List.isChain_pair.mp hchain).2 rfl rfl
  have htime : timeMark <:+: 'u' :: ("n ".toList ++ timeMark) :=
    ⟨'u' :: "n ".toList, [], by simp⟩
  intro h
  rcases List.infix_append_iff_ne_nil.mp h with h | h | ⟨m, m', hne, -, hm, hsuf, hpre⟩
  · refine hstart (List.IsInfix.trans ?_ h)
    rw [runTimeMark_eq]
    exact ⟨[], "n ".toList ++ timeMark, rfl⟩
  · refine ht (List.IsInfix.trans ?_ h)
    rw [runTimeMark_eq]
    exact htime.trans (List.suffix_cons _ _).isInfix
  · obtain ⟨c, m, rfl⟩ := List.exists_cons_of_ne_nil hne
    rw [runTimeMark_eq, List.cons_append, List.cons.injEq] at hm
    obtain ⟨rfl, hm⟩ := hm
    cases m with
    | nil =>
      rw [List.nil_append] at hm
      exact ht (htime.trans (hm ▸ hpre.isInfix))
    | cons d m =>
      rw [List.cons_append, List.cons.injEq] at hm
      obtain ⟨rfl, -⟩ := hm
      exact hstart (List.IsInfix.trans ⟨[], m, rfl⟩ hsuf.isInfix)

theorem noMark_of_calm {t : Text} (h : t.IsChain Calm) : ¬ runTimeMark <:+: t := by
  rw [← List.append_nil t]
  exact noMark_append_quiet h (by decide)

/-- What the shell writes at once, with the times in it. -/
inductive IsWrite : Text → List ℚ → Prop where
  | prompt : IsWrite Env.mainPrompt []
  | quiet {t : Text} (h : Quiet t) : IsWrite t []
  | timer (r u s : Decimal) : IsWrite (timerText r u s ++ ['\n']) [r.value]

def Logged (writes : List Text) (times : List ℚ) : Prop :=
  ∃ parts, List.Forall₂ IsWrite writes parts ∧ parts.flatten = times

namespace Logged

variable {writes writes' : List Text} {times times' : List ℚ}

theorem nil : Logged [] [] := ⟨[], .nil, rfl⟩

theorem single {w : Text} (h : IsWrite w times) : Logged [w] times :=
  ⟨[times], .cons h .nil, by simp⟩

theorem append (h : Logged writes times) (h' : Logged writes' times') :
    Logged (writes ++ writes') (times ++ times') := by
  obtain ⟨parts, hparts, rfl⟩ := h
  obtain ⟨parts', hparts', rfl⟩ := h'
  exact ⟨parts ++ parts', List.rel_append hparts hparts', by simp⟩

theorem of_quiet (h : ∀ w ∈ writes, Quiet w) : Logged writes [] := by
  induction writes with
  | nil => exact nil
  | cons w writes ih =>
    obtain ⟨hw, hwrites⟩ := List.forall_mem_cons.mp h
    exact (single (.quiet hw)).append (ih hwrites)

theorem quiets (h : Logged writes times) (h' : ∀ w ∈ writes', Quiet w) :
    Logged (writes ++ writes') times := by
  simpa using h.append (of_quiet h')

theorem quiet {t : Text} (h : Logged writes times) (ht : Quiet t) :
    Logged (writes ++ [t]) times := h.quiets (List.forall_mem_singleton.mpr ht)

theorem exists_of_cons {w : Text} (h : Logged (w :: writes) times) :
    ∃ ts times', IsWrite w ts ∧ Logged writes times' ∧ times = ts ++ times' := by
  obtain ⟨parts, hparts, rfl⟩ := h
  obtain ⟨ts, parts, hw, hrest, rfl⟩ := List.forall₂_cons_left_iff.mp hparts
  exact ⟨ts, parts.flatten, hw, ⟨parts, hrest, rfl⟩, rfl⟩

end Logged

theorem calm_prompt {a b : Text} (h : (a ++ b).IsChain Calm) :
    (a ++ Env.mainPrompt ++ b).IsChain Calm := by
  have hprompt : Env.mainPrompt.IsChain Calm := by decide +kernel
  have hhead : ∀ c ∈ Env.mainPrompt.head?, ∀ d, Calm d c := by
    have hs : Env.mainPrompt.head? = some 's' := rfl
    rintro c hc d
    obtain rfl : 's' = c := Option.some.inj (hs.symm.trans hc)
    exact ⟨fun _ => by decide +kernel, fun _ => by decide⟩
  have hlast : ∀ c ∈ Env.mainPrompt.getLast?, ∀ d, Calm c d := by
    have hs : Env.mainPrompt.getLast? = some ' ' := rfl
    rintro c hc d
    obtain rfl : ' ' = c := Option.some.inj (hs.symm.trans hc)
    exact ⟨fun h => absurd h (by decide), fun h => absurd h (by decide)⟩
  have hne : Env.mainPrompt ≠ [] := by decide
  rw [List.isChain_append] at h ⊢
  rw [List.isChain_append]
  refine ⟨⟨h.1, hprompt, fun x _ y hy => hhead y hy x⟩, h.2.1, fun x hx y _ => hlast x ?_ y⟩
  rwa [List.getLast?_append_of_ne_nil _ hne] at hx

/-- A text that holds these times and whose unfinished line adds none to what follows. -/
def Settled (text : Text) (times : List ℚ) : Prop :=
  ∃ lines line, text = lines ++ line ∧ (lines = [] ∨ ∃ u, lines = u ++ ['\n']) ∧
    timesIn lines = times ∧ ('\n' ∉ line ∧ '\r' ∉ line) ∧ line.IsChain Calm

namespace Settled

variable {text : Text} {times times' : List ℚ}

theorem nil : Settled [] [] := ⟨[], [], rfl, Or.inl rfl, rfl, by simp, .nil⟩

theorem timesIn_append_lines {lines : Text} (h : lines = [] ∨ ∃ u, lines = u ++ ['\n'])
    (t : Text) : timesIn (lines ++ t) = timesIn lines ++ timesIn t := by
  rcases h with rfl | ⟨u, rfl⟩
  · rfl
  · rw [List.append_assoc, List.singleton_append, timesIn_append_newline]

theorem timesIn (h : Settled text times) : timesIn text = times := by
  obtain ⟨lines, line, rfl, hlines, rfl, -, hcalm⟩ := h
  rw [timesIn_append_lines hlines, timesIn_other (noMark_of_calm hcalm), List.append_nil]

theorem lines_append {lines : Text} (hlines : lines = [] ∨ ∃ u, lines = u ++ ['\n'])
    (h : Settled text times) : Settled (lines ++ text) (Timing.timesIn lines ++ times) := by
  obtain ⟨lines', line, rfl, hlines', rfl, hline⟩ := h
  refine ⟨lines ++ lines', line, by simp, ?_, timesIn_append_lines hlines lines', hline⟩
  rcases hlines' with rfl | ⟨u, rfl⟩
  · simpa using hlines
  · exact Or.inr ⟨lines ++ u, by simp⟩

/-- A quiet text after an unfinished line: either it ends the line, or it is empty. -/
theorem quiet_append {t line shown : Text} (ht : Quiet t) (onlcr : Bool)
    (hcalm : line.IsChain Calm) (hline : Settled (line ++ shown) times)
    (hrest : Settled shown times) : Settled (line ++ (discipline onlcr t ++ shown)) times := by
  rcases ht.wholeLines with rfl | ⟨u, rfl⟩
  · rwa [discipline_nil]
  · obtain ⟨cr, hnewline, -⟩ := discipline_newline onlcr
    have hquiet : ¬ timeMark <:+: discipline onlcr u ++ (cr ++ ['\n']) := by
      rw [← hnewline, ← discipline_append]
      exact fun hi => ht.noMark (infix_of_discipline (by decide) (by decide) hi)
    have hsplit : line ++ (discipline onlcr (u ++ ['\n']) ++ shown) =
        line ++ (discipline onlcr u ++ (cr ++ ['\n'])) ++ shown := by
      rw [discipline_append, hnewline, ← List.append_assoc]
    have hend : ∃ v, line ++ (discipline onlcr u ++ (cr ++ ['\n'])) = v ++ ['\n'] :=
      ⟨line ++ (discipline onlcr u ++ cr), by simp⟩
    have hlines := hrest.lines_append (Or.inr hend)
    rw [timesIn_other (noMark_append_quiet hcalm hquiet), List.nil_append] at hlines
    rw [hsplit]
    exact hlines

theorem timer_append {line shown : Text} (r u s : Decimal) (onlcr : Bool)
    (hline : '\n' ∉ line ∧ '\r' ∉ line) (hcalm : line.IsChain Calm) (hrest : Settled shown times) :
    Settled (line ++ (discipline onlcr (timerText r u s ++ ['\n']) ++ shown))
      ([r.value] ++ times) := by
  obtain ⟨cr, hnewline, hcr⟩ := discipline_newline onlcr
  have hafter : '\n' ∉ cr ∧ ¬ runTimeMark <:+: cr := by
    rcases hcr with rfl | rfl <;> decide
  have hsplit : line ++ (discipline onlcr (timerText r u s ++ ['\n']) ++ shown) =
      line ++ (timerText r u s ++ (cr ++ ['\n'])) ++ shown := by
    rw [discipline_append, discipline_of_not_mem onlcr (timerText_line r u s).1, hnewline,
      ← List.append_assoc]
  have hend : ∃ v, line ++ (timerText r u s ++ (cr ++ ['\n'])) = v ++ ['\n'] :=
    ⟨line ++ (timerText r u s ++ cr), by simp⟩
  have hlines := hrest.lines_append (Or.inr hend)
  rw [timesIn_append_timerText hline hafter.1 hafter.2, search_of_calm hcalm] at hlines
  rw [hsplit]
  exact hlines

theorem newline_append {line shown : Text} (hcalm : line.IsChain Calm)
    (hrest : Settled shown times) : Settled (line ++ '\n' :: shown) times := by
  have hend : ∃ v, line ++ ['\n'] = v ++ ['\n'] := ⟨line, rfl⟩
  have hlines := hrest.lines_append (Or.inr hend)
  rw [timesIn_other (not_infix_append_newline (noMark_of_calm hcalm))] at hlines
  simpa using hlines

end Settled

/-- Wherever the input is echoed, the times that are shown are those that were written. -/
theorem Shows.settled {onlcr : Bool} {writes : List Text} {echo shown : Text}
    (h : Shows onlcr writes echo shown) {times : List ℚ} (hw : Logged writes times) {line : Text}
    (hline : '\n' ∉ line ∧ '\r' ∉ line) (hcr : '\r' ∉ echo)
    (hcalm : (line ++ echo).IsChain Calm) : Settled (line ++ shown) times := by
  have hnil : ('\n' ∉ ([] : Text)) ∧ '\r' ∉ ([] : Text) := by simp
  induction h generalizing line times with
  | nil =>
    obtain ⟨parts, hparts, rfl⟩ := hw
    obtain rfl := List.forall₂_nil_left_iff.mp hparts
    exact ⟨[], line ++ [], rfl, Or.inl rfl, rfl, by simpa using hline, hcalm⟩
  | @write w writes echo shown h ih =>
    obtain ⟨ts, times, hwrite, hwrites, rfl⟩ := hw.exists_of_cons
    have hrest := ih hwrites hnil hcr hcalm.right_of_append
    cases hwrite with
    | prompt =>
      have hno : '\n' ∉ Env.mainPrompt ∧ '\r' ∉ Env.mainPrompt := by decide
      have hno' : '\n' ∉ line ++ Env.mainPrompt ∧ '\r' ∉ line ++ Env.mainPrompt := by
        simp [hline, hno]
      rw [discipline_of_not_mem onlcr hno.1, ← List.append_assoc]
      exact ih hwrites hno' hcr (calm_prompt hcalm)
    | quiet hq =>
      exact Settled.quiet_append hq onlcr hcalm.left_of_append (ih hwrites hline hcr hcalm) hrest
    | timer r u s => exact hrest.timer_append r u s onlcr hline hcalm.left_of_append
  | @echo c writes echo shown h ih =>
    simp only [List.mem_cons, not_or] at hcr
    have hassoc (t : Text) : line ++ c :: t = (line ++ [c]) ++ t := by simp
    by_cases hc : c = '\n'
    · subst hc
      have hecho : echo.IsChain Calm := (List.isChain_append.mp hcalm).2.1.tail
      exact (ih hw hnil hcr.2 hecho).newline_append hcalm.left_of_append
    · rw [hassoc] at hcalm ⊢
      exact ih hw (by simp [hline, Ne.symm hc, hcr.1]) hcr.2 hcalm
  | @message t ht writes echo shown h ih =>
    exact Settled.quiet_append ht onlcr hcalm.left_of_append (ih hw hline hcr hcalm)
      (ih hw hnil hcr hcalm.right_of_append)

/-- A text that is typed: it is calm after any other character. -/
structure IsInput (echo : Text) : Prop where
  noReturn : '\r' ∉ echo
  calm : echo.IsChain Calm
  head : ∀ c ∈ echo.head?, isdecimal c = false ∧ c ≠ 'u'

theorem IsInput.of_head {echo : Text} {c : Char} (h : echo.head? = some c)
    (hc : isdecimal c = false ∧ c ≠ 'u') (hcr : '\r' ∉ echo) (hcalm : echo.IsChain Calm) :
    IsInput echo := by
  refine ⟨hcr, hcalm, fun d hd => ?_⟩
  obtain rfl := Option.some.inj (h.symm.trans hd)
  exact hc

theorem IsInput.nil : IsInput [] := ⟨by simp, .nil, by simp⟩

theorem Console.settled_append (console : Console) (session : ℕ) {text : Text} {ts : List ℚ}
    (htext : Settled text ts) {writes : List Text} {times : List ℚ} (h : Logged writes times)
    {echo : Text} (hecho : IsInput echo) :
    Settled (text ++ console.display session writes echo) (ts ++ times) := by
  obtain ⟨lines, line, rfl, hlines, rfl, hline, hcalm⟩ := htext
  have hcalm' : (line ++ echo).IsChain Calm := by
    refine List.isChain_append.mpr ⟨hcalm, hecho.calm, fun x _ c hc => ?_⟩
    obtain ⟨hdecimal, hu⟩ := hecho.head c hc
    exact ⟨fun _ => hdecimal, fun _ => hu⟩
  have hshown := (console.shows session writes echo).settled h hline hecho.noReturn hcalm'
  rw [List.append_assoc]
  exact hshown.lines_append hlines

end TpchBench.Shell
