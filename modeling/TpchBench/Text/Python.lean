import TpchBench.Text.Stream
import Mathlib.Algebra.Order.Field.Rat

/-! # Python text files and numbers

A file opened in text mode is read with universal newlines: `\r` and `\r\n` count as `\n`.
Decimal literals are read as exact rationals.
-/

namespace TpchBench.Python

/-- The universal-newlines translation; the flag says that the last character was `\r`. -/
def universalNewlines : Bool → Text → Text
  | _, [] => []
  | afterCr, c :: s =>
    if c = '\r' then '\n' :: universalNewlines true s
    else if c = '\n' ∧ afterCr then universalNewlines false s
    else c :: universalNewlines false s

def splitLines : Text → List Text
  | [] => []
  | c :: s =>
    if c = '\n' then [c] :: splitLines s
    else
      match splitLines s with
      | [] => [[c]]
      | l :: ls => (c :: l) :: ls

/-- `file.readlines()` of a file opened with mode `'r'`. -/
def readlines (file : Text) : List Text := splitLines (universalNewlines false file)

/-- `line.rstrip(c)` for a single character. -/
def rstrip (c : Char) (line : Text) : Text := (line.reverse.dropWhile (· = c)).reverse

def whitespace : List Char :=
  [' ', '\t', '\n', '\x0b', '\x0c', '\r', '\x1c', '\x1d', '\x1e', '\x1f', '\u0085', '\u00a0',
    '\u1680', '\u2000', '\u2001', '\u2002', '\u2003', '\u2004', '\u2005', '\u2006', '\u2007',
    '\u2008', '\u2009', '\u200a', '\u2028', '\u2029', '\u202f', '\u205f', '\u3000']

def isspace (c : Char) : Bool := c ∈ whitespace

def strip (s : Text) : Text :=
  ((s.dropWhile isspace).reverse.dropWhile isspace).reverse

/-- `s.split()`: the runs of characters that are no white space. -/
def words (s : Text) : List Text := (s.splitOnP isspace).filter (· ≠ [])

/-- The zeros of the scripts of Unicode 15; the other decimal digits of a script follow its zero. -/
def zeros : List ℕ :=
  [0x30, 0x660, 0x6f0, 0x7c0, 0x966, 0x9e6, 0xa66, 0xae6, 0xb66, 0xbe6, 0xc66, 0xce6, 0xd66,
    0xde6, 0xe50, 0xed0, 0xf20, 0x1040, 0x1090, 0x17e0, 0x1810, 0x1946, 0x19d0, 0x1a80, 0x1a90,
    0x1b50, 0x1bb0, 0x1c40, 0x1c50, 0xa620, 0xa8d0, 0xa900, 0xa9d0, 0xa9f0, 0xaa50, 0xabf0,
    0xff10, 0x104a0, 0x10d30, 0x11066, 0x110f0, 0x11136, 0x111d0, 0x112f0, 0x11450, 0x114d0,
    0x11650, 0x116c0, 0x11730, 0x118e0, 0x11950, 0x11c50, 0x11d50, 0x11da0, 0x11f50, 0x16a60,
    0x16ac0, 0x16b50, 0x1d7ce, 0x1d7d8, 0x1d7e2, 0x1d7ec, 0x1d7f6, 0x1e140, 0x1e2f0, 0x1e4f0,
    0x1e950, 0x1fbf0]

def inScript (c : Char) (z : ℕ) : Bool := z ≤ c.toNat && c.toNat < z + 10

/-- The value of a decimal digit of any script. -/
def decimal (c : Char) : Option ℕ := (zeros.find? (inScript c)).map (c.toNat - ·)

/-- `str.isdecimal`, which is also the class `\d`. -/
def isdecimal (c : Char) : Bool := (decimal c).isSome

/-- The number a run of decimal digits stands for. -/
def digitsValue (s : Text) : ℕ := s.foldl (fun n c => 10 * n + (decimal c).getD 0) 0

/-- A nonempty run of the digits `0` to `9`. -/
def IsDigits (s : Text) : Prop := s ≠ [] ∧ s.all Char.isDigit

instance (s : Text) : Decidable (IsDigits s) := inferInstanceAs (Decidable (_ ∧ _))

def natural (digits : Text) : Option ℤ :=
  if digits ≠ [] ∧ digits.all isdecimal then some (digitsValue digits) else none

/-- `int(s)` on a text without white space and underscores; `none` is a `ValueError`. -/
def int : Text → Option ℤ
  | '-' :: digits => (natural digits).map (- ·)
  | '+' :: digits => natural digits
  | digits => natural digits

def decimalValue (whole frac : Text) : ℚ := digitsValue (whole ++ frac) / 10 ^ frac.length

/-- `float(s)` on a text of digits and dots; `none` is a `ValueError`. -/
def float (s : Text) : Option ℚ :=
  let whole := s.takeWhile isdecimal
  match s.dropWhile isdecimal with
  | [] => if whole = [] then none else some (decimalValue whole [])
  | '.' :: frac =>
    if frac.all isdecimal ∧ (whole ≠ [] ∨ frac ≠ []) then some (decimalValue whole frac)
    else none
  | _ => none

@[simp] theorem splitLines_nil : splitLines [] = [] := rfl

theorem splitLines_line {l : Text} (hl : '\n' ∉ l) (s : Text) :
    splitLines (l ++ '\n' :: s) = (l ++ ['\n']) :: splitLines s := by
  induction l with
  | nil => simp [splitLines]
  | cons c l ih =>
    simp only [List.mem_cons, not_or] at hl
    simp [splitLines, Ne.symm hl.1, ih hl.2]

theorem splitLines_append (a b : Text) :
    splitLines (a ++ '\n' :: b) = splitLines (a ++ ['\n']) ++ splitLines b := by
  induction a with
  | nil => simp [splitLines]
  | cons c a ih =>
    by_cases hc : c = '\n'
    · simp [splitLines, hc, ih]
    · simp only [List.cons_append, splitLines, hc, if_false, ih]
      cases h : splitLines (a ++ ['\n']) with
      | cons l ls => simp
      | nil =>
        cases a with
        | nil => simp [splitLines] at h
        | cons d a =>
          simp only [List.cons_append, splitLines] at h
          split at h
          · simp at h
          · split at h <;> simp at h

theorem flatten_splitLines (s : Text) : (splitLines s).flatten = s := by
  induction s with
  | nil => rfl
  | cons c s ih =>
    unfold splitLines
    split
    · simp [ih]
    · split
      · rename_i h; rw [h] at ih; simpa using congrArg (c :: ·) ih
      · rename_i h; rw [h] at ih; simpa using ih

theorem infix_of_mem_splitLines {s l : Text} (hl : l ∈ splitLines s) : l <:+: s := by
  obtain ⟨a, b, hab⟩ := List.append_of_mem hl
  have h := flatten_splitLines s
  rw [hab] at h
  exact ⟨a.flatten, b.flatten, by simpa using h⟩

theorem splitLines_last {l : Text} (hne : l ≠ []) (hl : '\n' ∉ l) : splitLines l = [l] := by
  induction l with
  | nil => exact absurd rfl hne
  | cons c l ih =>
    simp only [List.mem_cons, not_or] at hl
    rcases eq_or_ne l [] with rfl | hne'
    · simp [splitLines, Ne.symm hl.1]
    · simp [splitLines, Ne.symm hl.1, ih hne' hl.2]

theorem of_mem_splitLines {s line : Text} (h : line ∈ splitLines s) :
    ∃ l, '\n' ∉ l ∧ (line = l ∨ line = l ++ ['\n']) := by
  induction hlen : s.length using Nat.strong_induction_on generalizing s with
  | _ n ih =>
    subst hlen
    by_cases hs : '\n' ∈ s
    · obtain ⟨l, r, rfl, hl⟩ := List.eq_append_cons_of_mem hs
      rw [splitLines_line hl] at h
      rcases List.mem_cons.mp h with rfl | h
      · exact ⟨l, hl, Or.inr rfl⟩
      · exact ih r.length (by simp; omega) h rfl
    · rcases eq_or_ne s [] with rfl | hne
      · simp at h
      · rw [splitLines_last hne hs, List.mem_singleton] at h
        exact ⟨line, h ▸ hs, Or.inl rfl⟩

theorem fgetsAll_eq_splitLines {size : ℕ} {s : Text} (h : ∀ l ∈ splitLines s, l.length < size) :
    fgetsAll size s = splitLines s := by
  induction hlen : s.length using Nat.strong_induction_on generalizing s with
  | _ n ih =>
    subst hlen
    by_cases hs : '\n' ∈ s
    · obtain ⟨l, r, rfl, hl⟩ := List.eq_append_cons_of_mem hs
      rw [splitLines_line hl] at h ⊢
      obtain ⟨hfit, h⟩ := List.forall_mem_cons.mp h
      rw [fgetsAll_line hl (by simpa using hfit), ih r.length (by simp; omega) h rfl]
    · rcases eq_or_ne s [] with rfl | hne
      · rfl
      · rw [splitLines_last hne hs] at h ⊢
        exact fgetsAll_last hne hs (h s (List.mem_singleton.mpr rfl))

theorem prefix_of_universalNewlines {pat s : Text} (hp : '\n' ∉ pat)
    (h : pat <+: universalNewlines false s) : pat <+: s := by
  induction s generalizing pat with
  | nil => exact h
  | cons c s ih =>
    cases pat with
    | nil => exact List.nil_prefix
    | cons d pat =>
      simp only [List.mem_cons, not_or] at hp
      unfold universalNewlines at h
      split at h
      · exact absurd (List.cons_prefix_cons.mp h).1.symm hp.1
      · simp only [Bool.false_eq_true, and_false, if_false] at h
        obtain ⟨rfl, hpat⟩ := List.cons_prefix_cons.mp h
        exact List.cons_prefix_cons.mpr ⟨rfl, ih hp.2 hpat⟩

/-- The translation creates no new occurrence of a text within a line. -/
theorem infix_of_universalNewlines {pat s : Text} (hp : '\n' ∉ pat) {b : Bool}
    (h : pat <:+: universalNewlines b s) : pat <:+: s := by
  induction s generalizing b with
  | nil => simpa [universalNewlines] using h
  | cons c s ih =>
    unfold universalNewlines at h
    split at h
    · rcases List.infix_cons_iff.mp h with h | h
      · cases pat with
        | nil => exact List.nil_infix
        | cons d pat =>
          exact absurd (by simp [(List.cons_prefix_cons.mp h).1]) hp
      · exact (ih h).trans (List.suffix_cons c s).isInfix
    · split at h
      · exact (ih h).trans (List.suffix_cons c s).isInfix
      · rcases List.infix_cons_iff.mp h with h | h
        · cases pat with
          | nil => exact List.nil_infix
          | cons d pat =>
            obtain ⟨rfl, hpat⟩ := List.cons_prefix_cons.mp h
            simp only [List.mem_cons, not_or] at hp
            exact (List.cons_prefix_cons.mpr ⟨rfl, prefix_of_universalNewlines hp.2 hpat⟩).isInfix
        · exact (ih h).trans (List.suffix_cons c s).isInfix

theorem infix_of_mem_readlines {pat file l : Text} (hp : '\n' ∉ pat) (hl : l ∈ readlines file)
    (h : pat <:+: l) : pat <:+: file :=
  infix_of_universalNewlines hp (h.trans (infix_of_mem_splitLines hl))

theorem universalNewlines_append (b : Bool) (a s : Text) :
    universalNewlines b (a ++ '\n' :: s) =
      universalNewlines b (a ++ ['\n']) ++ universalNewlines false s := by
  induction a generalizing b with
  | nil => cases b <;> simp [universalNewlines]
  | cons c a ih =>
    simp only [List.cons_append, universalNewlines]
    split_ifs <;> simp [ih]

theorem universalNewlines_ends {b : Bool} {a : Text} (ha : b = true → a ≠ []) :
    ∃ x, universalNewlines b (a ++ ['\n']) = x ++ ['\n'] := by
  induction a generalizing b with
  | nil =>
    obtain rfl : b = false := by
      cases b with
      | false => rfl
      | true => exact absurd rfl (ha rfl)
    exact ⟨[], by simp [universalNewlines]⟩
  | cons c a ih =>
    simp only [List.cons_append, universalNewlines]
    split_ifs with hr hn
    · -- After `\r` the closing `\n` is swallowed if nothing stands between them.
      by_cases ha' : a = []
      · exact ⟨[], by simp [ha', universalNewlines]⟩
      · obtain ⟨x, hx⟩ := ih (fun _ => ha')
        exact ⟨'\n' :: x, by rw [hx]; rfl⟩
    · exact ih (by simp)
    · obtain ⟨x, hx⟩ := ih (b := false) (by simp)
      exact ⟨c :: x, by rw [hx]; rfl⟩

theorem readlines_append (a s : Text) :
    readlines (a ++ '\n' :: s) = readlines (a ++ ['\n']) ++ readlines s := by
  obtain ⟨x, hx⟩ := universalNewlines_ends (b := false) (a := a) (by simp)
  unfold readlines
  rw [universalNewlines_append, hx, List.append_assoc, List.singleton_append, splitLines_append]

theorem universalNewlines_append_cr (b : Bool) (a s : Text) :
    universalNewlines b (a ++ '\r' :: s) =
      universalNewlines b (a ++ ['\r']) ++ universalNewlines true s := by
  induction a generalizing b with
  | nil => simp [universalNewlines]
  | cons c a ih =>
    simp only [List.cons_append, universalNewlines]
    split_ifs <;> simp [ih]

theorem universalNewlines_ends_cr (b : Bool) (a : Text) :
    ∃ x, universalNewlines b (a ++ ['\r']) = x ++ ['\n'] := by
  induction a generalizing b with
  | nil => exact ⟨[], by simp [universalNewlines]⟩
  | cons c a ih =>
    simp only [List.cons_append, universalNewlines]
    split_ifs
    · obtain ⟨x, hx⟩ := ih true
      exact ⟨'\n' :: x, by rw [hx]; rfl⟩
    · exact ih false
    · obtain ⟨x, hx⟩ := ih false
      exact ⟨c :: x, by rw [hx]; rfl⟩

/-- Reading a file that continues after a `\r`: a newline that follows is no line of its own. -/
theorem readlines_append_cr (a s : Text) :
    ∃ ls, readlines (a ++ '\r' :: s) = readlines (a ++ ['\r']) ++ ls ∧
      (readlines s = ls ∨ readlines s = ['\n'] :: ls) := by
  obtain ⟨x, hx⟩ := universalNewlines_ends_cr false a
  refine ⟨splitLines (universalNewlines true s), ?_, ?_⟩
  · unfold readlines
    rw [universalNewlines_append_cr, hx, List.append_assoc, List.singleton_append,
      splitLines_append]
  · unfold readlines
    cases s with
    | nil => exact Or.inl rfl
    | cons c s =>
      by_cases hn : c = '\n'
      · exact Or.inr (by simp [hn, universalNewlines, splitLines])
      · exact Or.inl (by simp [hn, universalNewlines])

theorem universalNewlines_eq_self {s : Text} (h : '\r' ∉ s) : universalNewlines false s = s := by
  induction s with
  | nil => rfl
  | cons c s ih =>
    simp only [List.mem_cons, not_or] at h
    simp [universalNewlines, Ne.symm h.1, ih h.2]

theorem readlines_eq_splitLines {s : Text} (h : '\r' ∉ s) : readlines s = splitLines s := by
  rw [readlines, universalNewlines_eq_self h]

theorem readlines_line {l : Text} (hl : '\n' ∉ l) (hr : '\r' ∉ l) :
    readlines (l ++ ['\n']) = [l ++ ['\n']] := by
  rw [readlines_eq_splitLines (by simpa using hr), splitLines_line hl, splitLines_nil]

theorem readlines_line_cr {l : Text} (hl : '\n' ∉ l) (hr : '\r' ∉ l) :
    readlines (l ++ ['\r']) = [l ++ ['\n']] := by
  have hnewlines : universalNewlines false (l ++ ['\r']) = l ++ ['\n'] := by
    clear hl
    induction l with
    | nil => rfl
    | cons c l ih =>
      simp only [List.mem_cons, not_or] at hr
      simp [universalNewlines, Ne.symm hr.1, ih hr.2]
  rw [readlines, hnewlines, splitLines_line hl, splitLines_nil]

theorem splitLines_lines {ls : List Text} (h : ∀ l ∈ ls, '\n' ∉ l) :
    splitLines (ls.flatMap (· ++ ['\n'])) = ls.map (· ++ ['\n']) := by
  induction ls with
  | nil => rfl
  | cons l ls ih =>
    obtain ⟨hl, hls⟩ := List.forall_mem_cons.mp h
    rw [List.flatMap_cons, List.append_assoc, List.singleton_append, splitLines_line hl, ih hls,
      List.map_cons]

theorem readlines_lines {ls : List Text} (h : ∀ l ∈ ls, '\n' ∉ l ∧ '\r' ∉ l) :
    readlines (ls.flatMap (· ++ ['\n'])) = ls.map (· ++ ['\n']) := by
  have hr : '\r' ∉ ls.flatMap (· ++ ['\n']) := by
    intro hr
    obtain ⟨l, hl, hr⟩ := List.mem_flatMap.mp hr
    rcases List.mem_append.mp hr with hr | hr
    · exact (h l hl).2 hr
    · exact absurd hr (by decide)
  rw [readlines_eq_splitLines hr, splitLines_lines fun l hl => (h l hl).1]

theorem readlines_flatMap (ls : List Text) :
    readlines (ls.flatMap (· ++ ['\n'])) = ls.flatMap fun l => readlines (l ++ ['\n']) := by
  induction ls with
  | nil => rfl
  | cons l ls ih =>
    rw [List.flatMap_cons, List.flatMap_cons, List.append_assoc, List.singleton_append,
      readlines_append, ih]

theorem rstrip_concat_self (c : Char) (x : Text) : rstrip c (x ++ [c]) = rstrip c x := by
  simp [rstrip]

theorem rstrip_concat_of_ne {c d : Char} (h : d ≠ c) (x : Text) :
    rstrip c (x ++ [d]) = x ++ [d] := by
  simp [rstrip, h]

theorem decimal_of_isDigit {c : Char} (h : c.isDigit) : decimal c = some (c.toNat - '0'.toNat) := by
  have hc : 48 ≤ c.toNat ∧ c.toNat ≤ 57 := Char.isDigit_iff_toNat.mp h
  have hzero : inScript c 48 := by
    simp only [inScript, Bool.and_eq_true, decide_eq_true_eq]
    omega
  have hfind : zeros.find? (inScript c) = some 48 := List.find?_cons_of_pos hzero
  rw [decimal, hfind]
  rfl

theorem isdecimal_of_isDigit {c : Char} (h : c.isDigit) : isdecimal c = true := by
  rw [isdecimal, decimal_of_isDigit h, Option.isSome_some]

theorem isspace_eq_false_of_isdecimal {c : Char} (h : isdecimal c) : isspace c = false :=
  decide_eq_false (not_mem_of_all (by decide +kernel) h)

theorem isspace_eq_false_of_isDigit {c : Char} (h : c.isDigit) : isspace c = false :=
  isspace_eq_false_of_isdecimal (isdecimal_of_isDigit h)

theorem dropWhile_isspace {a s : Text} (ha : ∀ c ∈ a, isspace c)
    (hs : ∀ c ∈ s.head?, isspace c = false) : (a ++ s).dropWhile isspace = s := by
  rw [List.dropWhile_append_of_pos ha]
  cases s with
  | nil => rfl
  | cons c s => rw [List.dropWhile_cons_of_neg (by simp [hs c rfl])]

theorem strip_append {a s b : Text} (ha : ∀ c ∈ a, isspace c) (hb : ∀ c ∈ b, isspace c)
    (hne : s ≠ []) (hhead : ∀ c ∈ s.head?, isspace c = false)
    (hlast : ∀ c ∈ s.getLast?, isspace c = false) : strip (a ++ (s ++ b)) = s := by
  have hhead' : ∀ c ∈ (s ++ b).head?, isspace c = false := by
    rwa [List.head?_append_of_ne_nil s hne]
  have hb' : ∀ c ∈ b.reverse, isspace c := fun c hc => hb c (List.mem_reverse.mp hc)
  have hlast' : ∀ c ∈ s.reverse.head?, isspace c = false := by
    rwa [List.head?_reverse]
  rw [strip, dropWhile_isspace ha hhead', List.reverse_append, dropWhile_isspace hb' hlast',
    List.reverse_reverse]

theorem words_cons {w : Text} (hne : w ≠ []) (hw : ∀ c ∈ w, isspace c = false) {c : Char}
    (hc : isspace c) (s : Text) : words (w ++ c :: s) = w :: words s := by
  rw [words, List.splitOnP_append_cons_of_forall_mem hw c hc,
    List.filter_cons_of_pos (by simpa using hne)]
  rfl

theorem words_last {w : Text} (hne : w ≠ []) (hw : ∀ c ∈ w, isspace c = false) :
    words w = [w] := by
  rw [words, List.splitOnP_eq_singleton hw, List.filter_cons_of_pos (by simpa using hne),
    List.filter_nil]

theorem IsDigits.isDigit {s : Text} (h : IsDigits s) : ∀ c ∈ s, c.isDigit :=
  List.all_eq_true.mp h.2

theorem IsDigits.isdecimal {s : Text} (h : IsDigits s) : ∀ c ∈ s, isdecimal c :=
  fun c hc => isdecimal_of_isDigit (h.isDigit c hc)

theorem int_digits {s : Text} (h : IsDigits s) : int s = some (digitsValue s : ℤ) := by
  unfold int
  split
  · exact absurd (h.isDigit '-' (by simp)) (by decide)
  · exact absurd (h.isDigit '+' (by simp)) (by decide)
  · exact if_pos ⟨h.1, List.all_eq_true.mpr h.isdecimal⟩

theorem float_decimal {whole frac : Text} (hw : whole ≠ []) (hwd : ∀ c ∈ whole, isdecimal c)
    (hfd : ∀ c ∈ frac, isdecimal c) :
    float (whole ++ '.' :: frac) = some (decimalValue whole frac) := by
  have hdot : isdecimal '.' = false := by decide +kernel
  have ht : (whole ++ '.' :: frac).takeWhile Python.isdecimal = whole := by
    rw [List.takeWhile_append_of_pos hwd]
    simp [hdot]
  have hd : (whole ++ '.' :: frac).dropWhile Python.isdecimal = '.' :: frac := by
    rw [List.dropWhile_append_of_pos hwd]
    simp [hdot]
  simp only [float, ht, hd]
  rw [if_pos ⟨List.all_eq_true.mpr hfd, Or.inl hw⟩]

end TpchBench.Python
