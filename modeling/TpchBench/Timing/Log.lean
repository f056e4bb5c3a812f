import TpchBench.Text.Matcher
import TpchBench.Text.Python

/-! # Timer logs of the SQLite shell

With `.timer on` the shell prints `Run Time: real R user U sys S` after every statement.
A log is a sequence of such lines among lines that do not contain `Run Time:`. On a console a
prompt or the end of something else may stand in front of the times.
-/

namespace TpchBench.Timing

open Matcher Python

/-- A decimal number as the shell's `%f` prints it. -/
structure Decimal where
  whole : Text
  frac : Text
  whole_ne : whole ≠ []
  frac_ne : frac ≠ []
  whole_digits : ∀ c ∈ whole, c.isDigit
  frac_digits : ∀ c ∈ frac, c.isDigit

namespace Decimal

def text (d : Decimal) : Text := d.whole ++ '.' :: d.frac

def value (d : Decimal) : ℚ := Python.decimalValue d.whole d.frac

def ofDigit (c : Char) (hc : c.isDigit) : Decimal where
  whole := [c]
  frac := ['0']
  whole_ne := List.cons_ne_nil _ _
  frac_ne := List.cons_ne_nil _ _
  whole_digits := List.forall_mem_singleton.mpr hc
  frac_digits := List.forall_mem_singleton.mpr rfl

theorem text_ne_nil (d : Decimal) : d.text ≠ [] := by simp [text]

theorem of_mem_text {d : Decimal} {c : Char} (h : c ∈ d.text) : c.isDigit ∨ c = '.' := by
  rcases List.mem_append.mp h with h | h
  · exact Or.inl (d.whole_digits c h)
  · rcases List.mem_cons.mp h with h | h
    · exact Or.inr h
    · exact Or.inl (d.frac_digits c h)

theorem not_mem_text {d : Decimal} {c : Char} (hd : c.isDigit = false) (hc : c ≠ '.') :
    c ∉ d.text := by
  intro h
  rcases of_mem_text h with h | h
  · simp [hd] at h
  · exact hc h

theorem float_text (d : Decimal) : Python.float d.text = some d.value :=
  Python.float_decimal d.whole_ne (fun c hc => isdecimal_of_isDigit (d.whole_digits c hc))
    fun c hc => isdecimal_of_isDigit (d.frac_digits c hc)

end Decimal

def runTimeMark : Text := "Run Time:".toList
def realMark : Text := "Run Time: real ".toList
def userMark : Text := " user ".toList
def sysMark : Text := " sys ".toList

/-- `real\s+(\d+\.\d+)`, with the value of the group. -/
def realPattern : Text → Option ℚ :=
  lits "real".toList <| plus isspace fun _ => plus isdecimal fun whole =>
    lits ['.'] <| plus isdecimal fun frac _ => some (decimalValue whole frac)

/-- What the timer prints. -/
def timerText (real user sys : Decimal) : Text :=
  realMark ++ (real.text ++ (userMark ++ (user.text ++ (sysMark ++ sys.text))))

/-- A line with the times of a statement. In front of them stands no time and no mark. -/
structure TimerLine where
  before : Text
  real : Decimal
  user : Decimal
  sys : Decimal
  after : Text
  before_line : '\n' ∉ before ∧ '\r' ∉ before
  before_noMark : ¬ runTimeMark <:+: before
  before_noTime : search realPattern before = none
  after_line : '\n' ∉ after
  after_noMark : ¬ runTimeMark <:+: after
  after_head : ∀ c ∈ after.head?, c.isDigit = false ∧ c ≠ '.'

def TimerLine.text (l : TimerLine) : Text := l.before ++ (timerText l.real l.user l.sys ++ l.after)

/-- A line of a log, without its newline. -/
inductive LogLine where
  | timer (line : TimerLine)
  | other (text : Text) (noNewline : '\n' ∉ text) (noMark : ¬ runTimeMark <:+: text)

namespace LogLine

def text : LogLine → Text
  | timer l => l.text
  | other t _ _ => t

def real? : LogLine → Option Decimal
  | timer l => some l.real
  | other .. => none

end LogLine

def render (log : List LogLine) : Text := log.flatMap fun l => l.text ++ ['\n']

def realTimes (log : List LogLine) : List ℚ := (log.filterMap LogLine.real?).map Decimal.value

@[simp] theorem render_nil : render [] = [] := rfl

theorem render_cons (l : LogLine) (log : List LogLine) :
    render (l :: log) = l.text ++ '\n' :: render log := by
  simp [render]

theorem realTimes_append (a b : List LogLine) :
    realTimes (a ++ b) = realTimes a ++ realTimes b := by
  simp [realTimes]

theorem render_append (a b : List LogLine) : render (a ++ b) = render a ++ render b := by
  simp [render]

theorem not_mem_timerText {r u s : Decimal} {c : Char} (hd : c.isDigit = false) (hdot : c ≠ '.')
    (h₁ : c ∉ realMark) (h₂ : c ∉ userMark) (h₃ : c ∉ sysMark) : c ∉ timerText r u s := by
  simp only [timerText, List.mem_append, not_or]
  exact ⟨h₁, Decimal.not_mem_text hd hdot, h₂, Decimal.not_mem_text hd hdot, h₃,
    Decimal.not_mem_text hd hdot⟩

theorem timerText_line (r u s : Decimal) : '\n' ∉ timerText r u s ∧ '\r' ∉ timerText r u s :=
  ⟨not_mem_timerText rfl (by decide) (by decide) (by decide) (by decide),
    not_mem_timerText rfl (by decide) (by decide) (by decide) (by decide)⟩

theorem not_infix_nil : ¬ runTimeMark <:+: [] := by decide

theorem search_realPattern_nil : search realPattern [] = none := rfl

def TimerLine.plain (real user sys : Decimal) : TimerLine where
  before := []
  real := real
  user := user
  sys := sys
  after := []
  before_line := ⟨List.not_mem_nil, List.not_mem_nil⟩
  before_noMark := not_infix_nil
  before_noTime := search_realPattern_nil
  after_line := List.not_mem_nil
  after_noMark := not_infix_nil
  after_head := nofun

def LogLine.plain (real user sys : Decimal) : LogLine := .timer (.plain real user sys)

end TpchBench.Timing
