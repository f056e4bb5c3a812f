import TpchBench.Timing.Log
import Mathlib.Data.List.DropRight

/-! # Boot times measured by the shell

`measure-boot-time.sh` of Unikraft runs every launch under `time`, catches what the launch and
`time` print on `stderr`, and picks the times out of it by the words in front of them. A row is
right unless the launch itself prints one of these words.
-/

namespace TpchBench.Boot.Time

open Python Timing

/-- The lines that `echo "$t"` sends through a pipe. -/
def records (t : Text) : List Text := (splitLines (t ++ ['\n'])).map List.dropLast

/-- What `$(..)` keeps of the lines that a command prints. -/
def capture (lines : List Text) : Text :=
  (lines.flatMap (· ++ ['\n'])).rdropWhile (· = '\n')

def grep (word : Text) (lines : List Text) : List Text := lines.filter (strstr · word)

def isBlank (c : Char) : Bool := c = ' ' ∨ c = '\t'

/-- `$2` of a line, where blanks separate the fields. -/
def secondField (line : Text) : Text := ((line.splitOnP isBlank).filter (· ≠ []))[1]?.getD []

def sign : Text → ℤ × Text
  | '-' :: s => (-1, s)
  | '+' :: s => (1, s)
  | s => (1, s)

def fraction : Text → Text × Text
  | '.' :: s => (s.takeWhile Char.isDigit, s.dropWhile Char.isDigit)
  | s => ([], s)

def exponent : Text → ℤ
  | [] => 0
  | c :: s =>
    if c = 'e' ∨ c = 'E' then
      let (sgn, s) := sign s
      sgn * digitsValue (s.takeWhile Char.isDigit)
    else 0

/-- The decimal number at the beginning of a text, after blanks. -/
def awkNumber (s : Text) : ℚ :=
  let (sgn, s) := sign (s.dropWhile isBlank)
  let (frac, s') := fraction (s.dropWhile Char.isDigit)
  sgn * decimalValue (s.takeWhile Char.isDigit) frac * 10 ^ exponent s'

/-- `grep word | awk '\x7bprint $2\x7d'` -/
def extract (word timeOutput : Text) : Text :=
  capture ((grep word (records timeOutput)).map secondField)

/-- `($1 * 60) + $2` of a line, where the letter `m` separates the fields. -/
def seconds (line : Text) : ℚ :=
  let fields := line.splitOn 'm'
  awkNumber (fields[0]?.getD []) * 60 + awkNumber (fields[1]?.getD [])

/-- `awk -Fm '\x7b print ($1 * 60) + $2 \x7d'`, where numbers are printed by `print`. -/
def toSeconds (print : ℚ → Text) (time : Text) : Text :=
  capture ((records time).map fun line => print (seconds line))

def wordReal : Text := "real".toList
def wordUser : Text := "user".toList
def wordSys : Text := "sys".toList

def row (print : ℚ → Text) (i : ℕ) (timeOutput : Text) : Text :=
  Nat.toDigits 10 i ++ ',' :: (toSeconds print (extract wordReal timeOutput) ++
    ',' :: (toSeconds print (extract wordUser timeOutput) ++
      ',' :: (toSeconds print (extract wordSys timeOutput) ++ ['\n'])))

def header : Text := "iteration,real,user,sys\n".toList

def rowsFrom (print : ℚ → Text) : ℕ → List Text → Text
  | _, [] => []
  | i, timeOutput :: outputs => row print i timeOutput ++ rowsFrom print (i + 1) outputs

def measureBootTime (print : ℚ → Text) (outputs : List Text) : Text :=
  header ++ rowsFrom print 1 outputs

/-- A time as `time` prints it, such as `0m1.234s`. -/
structure Duration where
  minutes : Text
  isDigits : IsDigits minutes
  seconds : Decimal

namespace Duration

def text (d : Duration) : Text := d.minutes ++ 'm' :: (d.seconds.text ++ ['s'])

def value (d : Duration) : ℚ := digitsValue d.minutes * 60 + d.seconds.value

end Duration

def timeLine (word : Text) (d : Duration) : Text := word ++ '\t' :: d.text

/-- A launch: what it prints on `stderr` and how long it takes. -/
structure Launch where
  stderr : Text
  real : Duration
  user : Duration
  sys : Duration

namespace Launch

/-- What the script catches: `time` begins a new line and prints the three times. -/
def timeOutput (l : Launch) : Text :=
  l.stderr ++ '\n' :: (timeLine wordReal l.real ++
    '\n' :: (timeLine wordUser l.user ++ '\n' :: timeLine wordSys l.sys))

end Launch

section Print

variable {print : ℚ → Text} (hprint : ∀ q, print q ≠ [] ∧ '\n' ∉ print q)

include hprint

end Print

namespace Duration

variable (d : Duration)

theorem not_mem_text {c : Char} (hd : c.isDigit = false) (hc : c ∉ ['m', '.', 's']) :
    c ∉ d.text := by
  have hminutes : c ∉ d.minutes := fun h => by
    have hdigit := d.isDigits.isDigit c h
    rw [hd] at hdigit
    cases hdigit
  simp only [List.mem_cons, List.not_mem_nil, or_false, not_or] at hc
  have hseconds : c ∉ d.seconds.text := Decimal.not_mem_text hd hc.2.1
  simp [text, hminutes, hseconds, hc.1, hc.2.2]

theorem text_ne_nil : d.text ≠ [] := by simp [text]

end Duration

section Rows

variable {print : ℚ → Text} (hprint : ∀ q, print q ≠ [] ∧ '\n' ∉ print q)

include hprint

end Rows

end TpchBench.Boot.Time
