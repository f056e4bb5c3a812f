import TpchBench.Text.Scan

/-! # The end of a statement

The SQLite shell reads its input line by line and has to see where a statement ends. It looks at
every line with `quickscan`, which carries its state from line to line, and asks
`sqlite3_complete` about the whole text only when the scan has come to a semicolon. Both skip
comments and quoted texts; `sqlite3_complete` also knows that a trigger goes on after its first
semicolon.
-/

namespace TpchBench.Shell

/-- `isspace` in the C locale. -/
def isspace (c : Char) : Bool := c ∈ [' ', '\t', '\n', '\x0b', '\x0c', '\r']

/-- The bits of a `QuickScanState`: the character that the scan waits for, and the two flags. -/
structure QuickScanState where
  wait : Option Char
  hasDark : Bool
  endingSemi : Bool
  deriving DecidableEq, Repr

namespace QuickScanState

def start : QuickScanState := ⟨none, false, false⟩

def inPlain (qss : QuickScanState) : Bool := qss.wait = none

def plainWhite (qss : QuickScanState) : Bool := qss.wait = none && !qss.hasDark

def semiTerm (qss : QuickScanState) : Bool := qss.wait = none && qss.endingSemi

end QuickScanState

/-- A step of `PlainScan`, where nothing is waited for. -/
def plainScan (qss : QuickScanState) (c : Char) (s : Text) : QuickScanState × Text :=
  if isspace c then (qss, s)
  else if c = '-' ∧ s.head? = some '-' then (qss, s.dropWhile (· ≠ '\n'))
  else if c = ';' then ({ qss with endingSemi := true }, s)
  else if c = '/' ∧ s.head? = some '*' then ({ qss with wait := some '*' }, s.tail)
  else if c = '[' then (⟨some ']', true, false⟩, s)
  else if c = '`' ∨ c = '\'' ∨ c = '"' then (⟨some c, true, false⟩, s)
  else ({ qss with hasDark := true, endingSemi := false }, s)

/-- A step of `TermScan`, which waits for the end of a comment or a quoted text. -/
def termScan (w : Char) (qss : QuickScanState) (c : Char) (s : Text) : QuickScanState × Text :=
  if c ≠ w then (qss, s)
  else if w = '*' then
    if s.head? = some '/' then ({ qss with wait := none }, s.tail) else (qss, s)
  else if w ≠ ']' ∧ s.head? = some w then (qss, s.tail)
  else ({ qss with wait := none }, s)

def quickStep (qss : QuickScanState) : Text → Option (QuickScanState × Text)
  | [] => none
  | c :: s =>
    match qss.wait with
    | none => some (plainScan qss c s)
    | some w => some (termScan w qss c s)

/-- `quickscan`, on from the state that the previous lines have left. -/
def quickscan (line : Text) (qss : QuickScanState) : QuickScanState := scanAll quickStep qss line

inductive CompleteState where
  | invalid | start | normal | explain | create | trigger | semi | end
  deriving DecidableEq, Repr

inductive CompleteToken where
  | semi | ws | other | explain | create | temp | trigger | end
  deriving DecidableEq, Repr

def trans : CompleteState → CompleteToken → CompleteState
  | st, .ws => st
  | .invalid, .semi => .start
  | .invalid, .explain => .explain
  | .invalid, .create => .create
  | .invalid, _ => .normal
  | .start, .semi => .start
  | .start, .explain => .explain
  | .start, .create => .create
  | .start, _ => .normal
  | .normal, .semi => .start
  | .normal, _ => .normal
  | .explain, .semi => .start
  | .explain, .other => .explain
  | .explain, .create => .create
  | .explain, _ => .normal
  | .create, .semi => .start
  | .create, .temp => .create
  | .create, .trigger => .trigger
  | .create, _ => .normal
  | .trigger, .semi => .semi
  | .trigger, _ => .trigger
  | .semi, .semi => .semi
  | .semi, .end => .end
  | .semi, _ => .trigger
  | .end, .semi => .start
  | .end, _ => .trigger

def idChar (c : Char) : Bool := c.isAlphanum || c = '_' || c = '$' || 128 ≤ c.toNat

def keyword (word : Text) : CompleteToken :=
  let word := word.map Char.toLower
  if word = "create".toList then .create
  else if word = "trigger".toList then .trigger
  else if word = "temp".toList ∨ word = "temporary".toList then .temp
  else if word = "end".toList then .end
  else if word = "explain".toList then .explain
  else .other

/-- What follows the end of a C-style comment, if it has one. -/
def skipComment : Text → Option Text
  | [] => none
  | c :: s => if c = '*' ∧ s.head? = some '/' then some s.tail else skipComment s

def skipPast (c : Char) (s : Text) : Option Text :=
  match s.dropWhile (· ≠ c) with
  | [] => none
  | _ :: r => some r

/-- The next token and what follows it; `none` is the `return 0` at an open comment or quote.
A comment with `--` that is not followed by a newline ends the text. -/
def completeToken (c : Char) (s : Text) : Option (CompleteToken × Text) :=
  if c = ';' then some (.semi, s)
  else if c = ' ' ∨ c = '\r' ∨ c = '\t' ∨ c = '\n' ∨ c = '\x0c' then some (.ws, s)
  else if c = '/' ∧ s.head? = some '*' then (skipComment s.tail).map fun r => (.ws, r)
  else if c = '-' ∧ s.head? = some '-' then some (.ws, (s.dropWhile (· ≠ '\n')).tail)
  else if c = '[' then (skipPast ']' s).map fun r => (.other, r)
  else if c = '`' ∨ c = '"' ∨ c = '\'' then (skipPast c s).map fun r => (.other, r)
  else if idChar c then some (keyword (c :: s.takeWhile idChar), s.dropWhile idChar)
  else some (.other, s)

/-- An iteration of the loop of `sqlite3_complete`; the state `none` is that it has returned 0. -/
def completeStep (st : Option CompleteState) : Text → Option (Option CompleteState × Text)
  | [] => none
  | c :: s =>
    match completeToken c s with
    | none => some (none, [])
    | some (token, r) => some (st.map (trans · token), r)

def completeState (sql : Text) : Option CompleteState :=
  scanAll completeStep (some .invalid) sql

def sqlite3Complete (sql : Text) : Bool := completeState sql = some .start

section Resumption

variable {qss : QuickScanState} {c w : Char} {s : Text}

theorem quickStep_plain (h : qss.wait = none) :
    quickStep qss (c :: s) = some (plainScan qss c s) := by
  simp only [quickStep, h]

theorem quickStep_term (h : qss.wait = some w) :
    quickStep qss (c :: s) = some (termScan w qss c s) := by
  simp only [quickStep, h]

theorem quickStep_ne_none (qss : QuickScanState) (c : Char) (s : Text) :
    quickStep qss (c :: s) ≠ none := by
  cases h : qss.wait with
  | none => simp [quickStep_plain h]
  | some w => simp [quickStep_term h]

theorem plainScan_length (qss : QuickScanState) (c : Char) (s : Text) :
    (plainScan qss c s).2.length ≤ s.length := by
  have hdrop :=
    List.Sublist.length_le (List.dropWhile_sublist (fun d => decide (d ≠ '\n')) (l := s))
  have htail := List.length_tail (l := s)
  unfold plainScan
  repeat' split
  all_goals first | exact le_rfl | exact hdrop | (dsimp only; omega)

theorem termScan_length (w : Char) (qss : QuickScanState) (c : Char) (s : Text) :
    (termScan w qss c s).2.length ≤ s.length := by
  have htail := List.length_tail (l := s)
  unfold termScan
  repeat' split
  all_goals dsimp only; omega

theorem quickStep_advancing : Advancing quickStep := by
  intro qss s qss' r h
  cases s with
  | nil => simp [quickStep] at h
  | cons c s =>
    rw [List.length_cons, Nat.lt_succ_iff]
    cases hw : qss.wait with
    | none =>
      rw [quickStep_plain hw, Option.some.injEq] at h
      have hlen := plainScan_length qss c s
      rwa [h] at hlen
    | some w =>
      rw [quickStep_term hw, Option.some.injEq] at h
      have hlen := termScan_length w qss c s
      rwa [h] at hlen

theorem head?_append_newline {d : Char} (hd : d ≠ '\n') (s m : Text) :
    (s ++ '\n' :: m).head? = some d ↔ s.head? = some d := by
  cases s with
  | nil => simp [hd.symm]
  | cons a s => rfl

theorem dropWhile_append_newline (s m : Text) :
    (s ++ '\n' :: m).dropWhile (· ≠ '\n') = s.dropWhile (· ≠ '\n') ++ '\n' :: m := by
  induction s with
  | nil => rfl
  | cons a s ih =>
    by_cases ha : a = '\n'
    · subst ha
      rfl
    · rw [List.cons_append, List.dropWhile_cons_of_pos (by simpa using ha), ih,
        List.dropWhile_cons_of_pos (by simpa using ha)]

theorem tail_append_of_head? {d : Char} (h : s.head? = some d) (t : Text) :
    (s ++ t).tail = s.tail ++ t := by
  obtain ⟨r, rfl⟩ := List.head?_eq_some_iff.mp h
  rfl

theorem plainScan_append (qss : QuickScanState) (c : Char) (s m : Text) :
    plainScan qss c (s ++ '\n' :: m) =
      ((plainScan qss c s).1, (plainScan qss c s).2 ++ '\n' :: m) := by
  have hdash := head?_append_newline (d := '-') (by decide) s m
  have hstar := head?_append_newline (d := '*') (by decide) s m
  unfold plainScan
  simp only [hdash, hstar, dropWhile_append_newline]
  split
  · rfl
  · split
    · rfl
    · split
      · rfl
      · split
        · rename_i h
          rw [tail_append_of_head? h.2]
        · split
          · rfl
          · split <;> rfl

theorem termScan_append (hw : w ≠ '\n') (qss : QuickScanState) (c : Char) (s m : Text) :
    termScan w qss c (s ++ '\n' :: m) =
      ((termScan w qss c s).1, (termScan w qss c s).2 ++ '\n' :: m) := by
  have hslash := head?_append_newline (d := '/') (by decide) s m
  have hquote := head?_append_newline hw s m
  unfold termScan
  simp only [hslash, hquote]
  split
  · rfl
  · split
    · split
      · rename_i h
        rw [tail_append_of_head? h]
      · rfl
    · split
      · rename_i h
        rw [tail_append_of_head? h.2]
      · rfl

theorem quickStep_wait {qss' : QuickScanState} {r : Text} (hw : qss.wait ≠ some '\n')
    (h : quickStep qss s = some (qss', r)) : qss'.wait ≠ some '\n' := by
  cases s with
  | nil => simp [quickStep] at h
  | cons c s =>
    cases hwait : qss.wait with
    | none =>
      rw [quickStep_plain hwait, Option.some.injEq] at h
      have hplain : (plainScan qss c s).1.wait ≠ some '\n' := by
        unfold plainScan
        repeat' split
        all_goals simp_all
        rename_i h
        rcases h with rfl | rfl | rfl <;> decide
      rwa [h] at hplain
    | some w =>
      rw [quickStep_term hwait, Option.some.injEq] at h
      have hterm : (termScan w qss c s).1.wait ≠ some '\n' := by
        unfold termScan
        repeat' split
        all_goals first | exact hw | simp
      rwa [h] at hterm

theorem quickscan_wait (hw : qss.wait ≠ some '\n') (s : Text) :
    (quickscan s qss).wait ≠ some '\n' := by
  obtain ⟨-, h⟩ := scanAll_invariant (P := fun qss _ => qss.wait ≠ some '\n')
    (fun _ _ _ _ h hs => quickStep_wait h hs) (s := s) hw
  exact h

theorem quickStep_append {qss' : QuickScanState} {r : Text} (hw : qss.wait ≠ some '\n')
    (h : quickStep qss s = some (qss', r)) (m : Text) :
    quickStep qss (s ++ '\n' :: m) = some (qss', r ++ '\n' :: m) := by
  cases s with
  | nil => simp [quickStep] at h
  | cons c s =>
    rw [List.cons_append]
    cases hwait : qss.wait with
    | none =>
      rw [quickStep_plain hwait, Option.some.injEq] at h
      rw [quickStep_plain hwait, plainScan_append, h]
    | some w =>
      have hne : w ≠ '\n' := fun he => hw (hwait.trans (congrArg some he))
      rw [quickStep_term hwait, Option.some.injEq] at h
      rw [quickStep_term hwait, termScan_append hne, h]

/-- A newline changes no state. -/
theorem quickscan_newline (hw : qss.wait ≠ some '\n') (m : Text) :
    quickscan ('\n' :: m) qss = quickscan m qss := by
  have hstep : quickStep qss ('\n' :: m) = some (qss, m) := by
    cases h : qss.wait with
    | none =>
      rw [quickStep_plain h]
      rfl
    | some w =>
      have hne : '\n' ≠ w := fun he => hw (h.trans (congrArg some he.symm))
      rw [quickStep_term h, termScan, if_pos hne]
  exact scanAll_of_some quickStep_advancing hstep

theorem quickscan_append (hw : qss.wait ≠ some '\n') (l m : Text) :
    quickscan (l ++ '\n' :: m) qss = quickscan m (quickscan l qss) := by
  have hresume := scanAll_append (t := '\n' :: m) quickStep_advancing quickStep_ne_none
    (fun _ _ _ _ hst hs => ⟨quickStep_wait hst hs, quickStep_append hst hs m⟩) hw l
  rw [quickscan, hresume]
  exact quickscan_newline (quickscan_wait hw l) m

end Resumption

section Agreement

variable {qss : QuickScanState} {c w : Char} {s r : Text}

theorem quickscan_plain (h : qss.wait = none) (c : Char) (s : Text) :
    quickscan (c :: s) qss = quickscan (plainScan qss c s).2 (plainScan qss c s).1 :=
  scanAll_of_some quickStep_advancing (quickStep_plain h)

theorem quickscan_term (h : qss.wait = some w) (c : Char) (s : Text) :
    quickscan (c :: s) qss = quickscan (termScan w qss c s).2 (termScan w qss c s).1 :=
  scanAll_of_some quickStep_advancing (quickStep_term h)

/-- What a token of `sqlite3_complete` does to the state of a plain scan. -/
def QuickScanState.after (qss : QuickScanState) : CompleteToken → QuickScanState
  | .semi => { qss with endingSemi := true }
  | .ws => qss
  | _ => { qss with hasDark := true, endingSemi := false }

/-- A character of its own meaning in one of the scanners. -/
def isSpecial (c : Char) : Bool :=
  isspace c || c = '-' || c = ';' || c = '/' || c = '[' || c = '`' || c = '\'' || c = '"'

theorem plainScan_dark (h : isSpecial c = false) :
    plainScan qss c s = ({ qss with hasDark := true, endingSemi := false }, s) := by
  simp only [isSpecial, Bool.or_eq_false_iff, decide_eq_false_iff_not] at h
  obtain ⟨⟨⟨⟨⟨⟨⟨hspace, hdash⟩, hsemi⟩, hslash⟩, hbracket⟩, hgrave⟩, hquote⟩, hdouble⟩ := h
  simp [plainScan, hspace, hdash, hsemi, hslash, hbracket, hgrave, hquote, hdouble]

theorem plainScan_block (hs : s.head? = some '*') :
    plainScan qss '/' s = ({ qss with wait := some '*' }, s.tail) := by
  simp [plainScan, isspace, hs]

theorem plainScan_bracket : plainScan qss '[' s = (⟨some ']', true, false⟩, s) := by
  simp [plainScan, isspace]

theorem plainScan_quote (h : c = '`' ∨ c = '"' ∨ c = '\'') :
    plainScan qss c s = (⟨some c, true, false⟩, s) := by
  rcases h with rfl | rfl | rfl <;> simp [plainScan, isspace]

theorem isSpecial_of_idChar (h : idChar c) : isSpecial c = false := by
  by_contra hs
  simp only [isSpecial, isspace, Bool.not_eq_false, Bool.or_eq_true, decide_eq_true_eq,
    List.mem_cons, List.not_mem_nil, or_false, or_assoc] at hs
  rcases hs with rfl | rfl | rfl | rfl | rfl | rfl | rfl | rfl | rfl | rfl | rfl | rfl | rfl <;>
    exact absurd h (by decide)

theorem quickscan_word {word : Text} (hne : word ≠ []) (hword : ∀ c ∈ word, idChar c)
    (h : qss.wait = none) (r : Text) :
    quickscan (word ++ r) qss = quickscan r { qss with hasDark := true, endingSemi := false } := by
  induction word generalizing qss with
  | nil => exact absurd rfl hne
  | cons c word ih =>
    obtain ⟨hc, hword⟩ := List.forall_mem_cons.mp hword
    rw [List.cons_append, quickscan_plain h, plainScan_dark (isSpecial_of_idChar hc)]
    rcases eq_or_ne word [] with rfl | hne'
    · rfl
    · exact ih hne' hword h

/-- The closing quote ends the waiting; a doubled one is as good as the beginning of the next
quoted text. -/
theorem quickscan_close (hw : w = ']' ∨ w = '`' ∨ w = '\'' ∨ w = '"') (s : Text) :
    quickscan (w :: s) ⟨some w, true, false⟩ = quickscan s ⟨none, true, false⟩ := by
  have hstar : w ≠ '*' := by rcases hw with rfl | rfl | rfl | rfl <;> decide
  rw [quickscan_term rfl]
  by_cases hd : w ≠ ']' ∧ s.head? = some w
  · obtain ⟨t, rfl⟩ := List.head?_eq_some_iff.mp hd.2
    rw [quickscan_plain rfl, plainScan_quote (by tauto), termScan, if_neg (by simp), if_neg hstar,
      if_pos hd]
    rfl
  · rw [termScan, if_neg (by simp), if_neg hstar, if_neg hd]

theorem quickscan_skipPast (hw : w = ']' ∨ w = '`' ∨ w = '\'' ∨ w = '"') (s : Text) :
    quickscan s ⟨some w, true, false⟩ =
      match skipPast w s with
      | none => ⟨some w, true, false⟩
      | some r => quickscan r ⟨none, true, false⟩ := by
  induction s with
  | nil => rfl
  | cons c s ih =>
    by_cases hc : c = w
    · subst hc
      rw [quickscan_close hw, skipPast, List.dropWhile_cons_of_neg (by simp)]
    · have hskip : skipPast w (c :: s) = skipPast w s := by
        rw [skipPast, List.dropWhile_cons_of_pos (by simpa using hc), skipPast]
      rw [quickscan_term rfl, termScan, if_pos hc, hskip]
      exact ih

theorem quickscan_skipComment (h : qss.wait = none) (s : Text) :
    quickscan s { qss with wait := some '*' } =
      match skipComment s with
      | none => { qss with wait := some '*' }
      | some r => quickscan r qss := by
  induction s with
  | nil => rfl
  | cons c s ih =>
    rw [quickscan_term rfl, skipComment, termScan]
    by_cases hc : c = '*'
    · by_cases hs : s.head? = some '/'
      · rw [if_neg (by simpa using hc), if_pos rfl, if_pos hs, if_pos ⟨hc, hs⟩, ← h]
      · rw [if_neg (by simpa using hc), if_pos rfl, if_neg hs, if_neg fun h => hs h.2]
        exact ih
    · rw [if_pos hc, if_neg fun h => hc h.1]
      exact ih

@[simp] theorem QuickScanState.after_other (qss : QuickScanState) :
    qss.after .other = { qss with hasDark := true, endingSemi := false } := rfl

theorem QuickScanState.after_keyword (qss : QuickScanState) (word : Text) :
    qss.after (keyword word) = { qss with hasDark := true, endingSemi := false } := by
  unfold keyword
  dsimp only
  split_ifs <;> rfl

theorem quickscan_dropWhile (hq : qss.wait = none) (s : Text) :
    quickscan (s.dropWhile (· ≠ '\n')) qss =
      quickscan (s.dropWhile (· ≠ '\n')).tail qss := by
  induction s with
  | nil => rfl
  | cons c s ih =>
    by_cases hc : c = '\n'
    · subst hc
      exact quickscan_newline (by simp [hq]) s
    · rw [List.dropWhile_cons_of_pos (by simpa using hc)]
      exact ih

/-- Over a token, `quickscan` does what the token stands for. It takes a vertical tab for
white space, which `sqlite3_complete` does not. -/
theorem quickscan_token {token : CompleteToken} (h : completeToken c s = some (token, r))
    (hq : qss.wait = none) :
    quickscan (c :: s) qss = quickscan r (if c = '\x0b' then qss else qss.after token) := by
  unfold completeToken at h
  split_ifs at h with hsemi hspace hblock hline hbracket hquote hid
  · obtain ⟨rfl, rfl⟩ := Prod.mk.inj (Option.some.inj h)
    subst hsemi
    rw [quickscan_plain hq]
    rfl
  · obtain ⟨rfl, rfl⟩ := Prod.mk.inj (Option.some.inj h)
    have hwhite : plainScan qss c s = (qss, s) := by
      rcases hspace with rfl | rfl | rfl | rfl | rfl <;> rfl
    rw [quickscan_plain hq, hwhite]
    exact congrArg _ (ite_self qss).symm
  · obtain ⟨t, ht, h⟩ := Option.map_eq_some_iff.mp h
    obtain ⟨rfl, rfl⟩ := Prod.mk.inj h
    obtain ⟨rfl, hs⟩ := hblock
    rw [quickscan_plain hq, plainScan_block hs, quickscan_skipComment hq, ht]
    rfl
  · obtain ⟨rfl, rfl⟩ := Prod.mk.inj (Option.some.inj h)
    obtain ⟨rfl, hs⟩ := hline
    have hcomment : plainScan qss '-' s = (qss, s.dropWhile (· ≠ '\n')) := by
      simp [plainScan, isspace, hs]
    rw [quickscan_plain hq, hcomment, quickscan_dropWhile hq]
    rfl
  · obtain ⟨t, ht, h⟩ := Option.map_eq_some_iff.mp h
    obtain ⟨rfl, rfl⟩ := Prod.mk.inj h
    subst hbracket
    rw [quickscan_plain hq, plainScan_bracket, quickscan_skipPast (Or.inl rfl), ht,
      if_neg (by decide),
      qss.after_other, hq]
  · obtain ⟨t, ht, h⟩ := Option.map_eq_some_iff.mp h
    obtain ⟨rfl, rfl⟩ := Prod.mk.inj h
    have hne : c ≠ '\x0b' := by rcases hquote with rfl | rfl | rfl <;> decide
    rw [quickscan_plain hq, plainScan_quote hquote, quickscan_skipPast (by tauto), ht, if_neg hne,
      qss.after_other, hq]
  · obtain ⟨rfl, rfl⟩ := Prod.mk.inj (Option.some.inj h)
    have hne : c ≠ '\x0b' := by
      rintro rfl
      exact absurd hid (by decide)
    have hword : ∀ d ∈ c :: s.takeWhile idChar, idChar d :=
      List.forall_mem_cons.mpr ⟨hid, fun d hd => List.mem_takeWhile_imp hd⟩
    have hscan := quickscan_word (List.cons_ne_nil _ _) hword hq (s.dropWhile idChar)
    rw [List.cons_append, List.takeWhile_append_dropWhile] at hscan
    rw [hscan, if_neg hne, qss.after_keyword]
  · obtain ⟨rfl, rfl⟩ := Prod.mk.inj (Option.some.inj h)
    by_cases hne : c = '\x0b'
    · subst hne
      rw [quickscan_plain hq]
      rfl
    · have hdark : plainScan qss c s = ({ qss with hasDark := true, endingSemi := false }, s) := by
        have hwhite : isspace c = false := by
          simp only [isspace, decide_eq_false_iff_not, List.mem_cons, List.not_mem_nil, or_false]
          tauto
        rw [plainScan, hwhite, if_neg (by simp), if_neg hline, if_neg hsemi, if_neg hblock,
          if_neg hbracket, if_neg (by tauto)]
      rw [quickscan_plain hq, hdark, if_neg hne, qss.after_other]

theorem quickscan_open (h : completeToken c s = none) (hq : qss.wait = none) :
    (quickscan (c :: s) qss).wait ≠ none := by
  unfold completeToken at h
  split_ifs at h with hsemi hspace hblock hline hbracket hquote hid
  · obtain ⟨rfl, hs⟩ := hblock
    rw [quickscan_plain hq, plainScan_block hs, quickscan_skipComment hq,
      Option.map_eq_none_iff.mp h]
    simp
  · subst hbracket
    rw [quickscan_plain hq, plainScan_bracket, quickscan_skipPast (Or.inl rfl),
      Option.map_eq_none_iff.mp h]
    simp
  · rw [quickscan_plain hq, plainScan_quote hquote, quickscan_skipPast (by tauto),
      Option.map_eq_none_iff.mp h]
    simp

theorem skipPast_suffix (h : skipPast w s = some r) : r <:+ s := by
  have hdrop := List.dropWhile_suffix (fun d => decide (d ≠ w)) (l := s)
  unfold skipPast at h
  split at h
  · simp at h
  · rename_i heq
    obtain rfl := Option.some.inj h
    rw [heq] at hdrop
    exact (List.suffix_cons _ _).trans hdrop

theorem skipComment_suffix (h : skipComment s = some r) : r <:+ s := by
  induction s with
  | nil => simp [skipComment] at h
  | cons c s ih =>
    unfold skipComment at h
    split at h
    · obtain rfl := Option.some.inj h
      exact (List.tail_suffix s).trans (List.suffix_cons c s)
    · exact (ih h).trans (List.suffix_cons c s)

theorem completeToken_suffix {token : CompleteToken} (h : completeToken c s = some (token, r)) :
    r <:+ s := by
  unfold completeToken at h
  split_ifs at h
  · rw [(Prod.mk.inj (Option.some.inj h)).2]
  · rw [(Prod.mk.inj (Option.some.inj h)).2]
  · obtain ⟨t, ht, h⟩ := Option.map_eq_some_iff.mp h
    obtain ⟨-, rfl⟩ := Prod.mk.inj h
    exact (skipComment_suffix ht).trans (List.tail_suffix s)
  · obtain ⟨-, rfl⟩ := Prod.mk.inj (Option.some.inj h)
    exact (List.tail_suffix _).trans (List.dropWhile_suffix _)
  · obtain ⟨t, ht, h⟩ := Option.map_eq_some_iff.mp h
    obtain ⟨-, rfl⟩ := Prod.mk.inj h
    exact skipPast_suffix ht
  · obtain ⟨t, ht, h⟩ := Option.map_eq_some_iff.mp h
    obtain ⟨-, rfl⟩ := Prod.mk.inj h
    exact skipPast_suffix ht
  · obtain ⟨-, rfl⟩ := Prod.mk.inj (Option.some.inj h)
    exact List.dropWhile_suffix _
  · rw [(Prod.mk.inj (Option.some.inj h)).2]

theorem completeStep_of_some {token : CompleteToken} (h : completeToken c s = some (token, r))
    (st : Option CompleteState) :
    completeStep st (c :: s) = some (st.map (trans · token), r) := by
  simp only [completeStep, h]

theorem completeStep_of_none (h : completeToken c s = none) (st : Option CompleteState) :
    completeStep st (c :: s) = some (none, []) := by
  simp only [completeStep, h]

theorem completeStep_advancing : Advancing completeStep := by
  intro st s st' r h
  cases s with
  | nil => simp [completeStep] at h
  | cons c s =>
    rw [List.length_cons, Nat.lt_succ_iff]
    cases htoken : completeToken c s with
    | none =>
      rw [completeStep_of_none htoken] at h
      obtain ⟨-, rfl⟩ := Prod.mk.inj (Option.some.inj h)
      exact Nat.zero_le _
    | some p =>
      rw [completeStep_of_some htoken] at h
      obtain ⟨-, rfl⟩ := Prod.mk.inj (Option.some.inj h)
      exact (completeToken_suffix htoken).length_le

/-- The last token that is no white space was a semicolon. -/
def CompleteState.AtSemi (st : CompleteState) : Prop := st = .start ∨ st = .semi

theorem trans_atSemi (st : CompleteState) (token : CompleteToken) :
    (trans st token).AtSemi ↔ token = .semi ∨ token = .ws ∧ st.AtSemi := by
  unfold CompleteState.AtSemi
  cases st <;> cases token <;> simp [trans]

/-- The two scanners at the same place of a text. They agree about the last semicolon as long
as the text is clean, that is, has no vertical tab. -/
def Agree (clean : Prop) (st : Option CompleteState) (qss : QuickScanState) (s : Text) : Prop :=
  (clean → '\x0b' ∉ s) ∧
    match st with
    | none => s = [] ∧ qss.wait ≠ none
    | some st => qss.wait = none ∧ (st.AtSemi → qss.endingSemi) ∧
        (clean → qss.endingSemi → st.AtSemi)

theorem after_wait (hq : qss.wait = none) (token : CompleteToken) :
    (qss.after token).wait = none := by
  cases token <;> exact hq

theorem after_endingSemi (qss : QuickScanState) (token : CompleteToken) :
    (qss.after token).endingSemi ↔ token = .semi ∨ token = .ws ∧ qss.endingSemi := by
  cases token <;> simp [QuickScanState.after]

theorem agree_step {clean : Prop} {st : Option CompleteState}
    (h : Agree clean st qss (c :: s)) :
    ∃ st' qss' r, completeStep st (c :: s) = some (st', r) ∧
      quickscan (c :: s) qss = quickscan r qss' ∧ Agree clean st' qss' r := by
  obtain ⟨hclean, h⟩ := h
  cases st with
  | none => simp at h
  | some st =>
    obtain ⟨hq, hsemi, hback⟩ := h
    cases htoken : completeToken c s with
    | none =>
      exact ⟨none, quickscan (c :: s) qss, [], completeStep_of_none htoken _, rfl, by simp, rfl,
        quickscan_open htoken hq⟩
    | some p =>
      obtain ⟨token, r⟩ := p
      refine ⟨_, _, r, completeStep_of_some htoken _, quickscan_token htoken hq, ?_, ?_⟩
      · intro hc hmem
        exact hclean hc (List.mem_cons_of_mem _ ((completeToken_suffix htoken).subset hmem))
      · by_cases htab : c = '\x0b'
        · -- The token is no white space for `sqlite3_complete`, and the text is not clean.
          subst htab
          obtain rfl : token = .other := (Prod.mk.inj (Option.some.inj htoken)).1.symm
          refine ⟨hq, ?_, fun hc => absurd List.mem_cons_self (hclean hc)⟩
          intro hat
          simp [trans_atSemi] at hat
        · rw [if_neg htab]
          refine ⟨after_wait hq token, ?_, ?_⟩
          · intro hat
            exact (after_endingSemi qss token).mpr
              (((trans_atSemi st token).mp hat).imp_right fun h => ⟨h.1, hsemi h.2⟩)
          · intro hc hend
            exact (trans_atSemi st token).mpr
              (((after_endingSemi qss token).mp hend).imp_right fun h => ⟨h.1, hback hc h.2⟩)

/-- Outside of triggers. -/
def CompleteState.Plain (st : CompleteState) : Prop :=
  st ≠ .trigger ∧ st ≠ .semi ∧ st ≠ .end

theorem trans_plain {st : CompleteState} {token : CompleteToken} (h : st.Plain)
    (ht : token ≠ .trigger) : (trans st token).Plain := by
  unfold CompleteState.Plain at h ⊢
  cases st <;> cases token <;> simp_all [trans]

def triggerWord : Text := "trigger".toList

/-- The word `trigger` does not occur, in whatever case. -/
def NoTrigger (s : Text) : Prop := ¬ triggerWord <:+: s.map Char.toLower

instance (s : Text) : Decidable (NoTrigger s) := inferInstanceAs (Decidable (¬ _))

theorem keyword_ne_trigger {word : Text} (h : NoTrigger word) : keyword word ≠ .trigger := by
  unfold keyword
  dsimp only
  split_ifs with h1 h2
  · simp
  · exact absurd (h2 ▸ List.infix_rfl) h
  all_goals simp

theorem NoTrigger.of_infix {t : Text} (h : NoTrigger s) (ht : t <:+: s) : NoTrigger t :=
  fun htrigger => h (htrigger.trans (ht.map Char.toLower))

theorem completeToken_ne_trigger {token : CompleteToken} (hs : NoTrigger (c :: s))
    (h : completeToken c s = some (token, r)) : token ≠ .trigger := by
  unfold completeToken at h
  split_ifs at h with hsemi hspace hblock hline hbracket hquote hid
  · rw [← (Prod.mk.inj (Option.some.inj h)).1]
    simp
  · rw [← (Prod.mk.inj (Option.some.inj h)).1]
    simp
  · obtain ⟨t, -, h⟩ := Option.map_eq_some_iff.mp h
    rw [← (Prod.mk.inj h).1]
    simp
  · rw [← (Prod.mk.inj (Option.some.inj h)).1]
    simp
  · obtain ⟨t, -, h⟩ := Option.map_eq_some_iff.mp h
    rw [← (Prod.mk.inj h).1]
    simp
  · obtain ⟨t, -, h⟩ := Option.map_eq_some_iff.mp h
    rw [← (Prod.mk.inj h).1]
    simp
  · rw [← (Prod.mk.inj (Option.some.inj h)).1]
    apply keyword_ne_trigger (hs.of_infix _)
    exact (List.cons_prefix_cons.mpr ⟨rfl, List.takeWhile_prefix idChar⟩).isInfix
  · rw [← (Prod.mk.inj (Option.some.inj h)).1]
    simp

/-- Without that word, `sqlite3_complete` never takes the text for a trigger. -/
theorem completeState_plain {sql : Text} (h : NoTrigger sql) :
    ∀ st ∈ completeState sql, st.Plain := by
  have hstep : ∀ st s st' r, (NoTrigger s ∧ ∀ x ∈ st, x.Plain) →
      completeStep st s = some (st', r) → NoTrigger r ∧ ∀ x ∈ st', x.Plain := by
    rintro st s st' r ⟨hs, hst⟩ hstep
    cases s with
    | nil => simp [completeStep] at hstep
    | cons c s =>
      cases htoken : completeToken c s with
      | none =>
        rw [completeStep_of_none htoken] at hstep
        obtain ⟨rfl, rfl⟩ := Prod.mk.inj (Option.some.inj hstep)
        exact ⟨hs.of_infix List.nil_infix, by simp⟩
      | some p =>
        rw [completeStep_of_some htoken] at hstep
        obtain ⟨rfl, rfl⟩ := Prod.mk.inj (Option.some.inj hstep)
        have hr : p.2 <:+ c :: s := (completeToken_suffix htoken).trans (List.suffix_cons c s)
        refine ⟨hs.of_infix hr.isInfix, ?_⟩
        intro x hx
        obtain ⟨y, hy, rfl⟩ := Option.map_eq_some_iff.mp hx
        exact trans_plain (hst y hy) (completeToken_ne_trigger hs htoken)
  have hinit : NoTrigger sql ∧ ∀ x ∈ some CompleteState.invalid, x.Plain :=
    ⟨h, by simp [CompleteState.Plain]⟩
  obtain ⟨-, -, hplain⟩ := scanAll_invariant
    (P := fun (st : Option CompleteState) s => NoTrigger s ∧ ∀ x ∈ st, x.Plain)
    hstep hinit
  exact hplain

theorem agree_end (clean : Prop) (sql : Text) (h : clean → '\x0b' ∉ sql) :
    Agree clean (completeState sql) (quickscan sql .start) [] := by
  apply scanAll_related quickStep completeStep_advancing
    (R := Agree clean) (fun _ _ _ _ hR => agree_step hR)
  refine ⟨h, rfl, ?_, ?_⟩
  · rintro (h | h) <;> cases h
  · intro _ hend
    cases hend

/-- A text that is complete has been scanned up to a semicolon, so asking `sqlite3_complete`
only then loses no statement. -/
theorem semiTerm_of_complete {sql : Text} (h : sqlite3Complete sql) :
    (quickscan sql .start).semiTerm := by
  obtain ⟨-, hend⟩ := agree_end False sql False.elim
  rw [of_decide_eq_true h] at hend
  obtain ⟨hwait, hsemi, -⟩ := hend
  rw [QuickScanState.semiTerm, hwait, hsemi (Or.inl rfl)]
  rfl

/-- For a text without vertical tabs that does not mention triggers, `quickscan` decides
completeness alone. -/
theorem complete_iff_semiTerm {sql : Text} (htab : '\x0b' ∉ sql) (htrigger : NoTrigger sql) :
    sqlite3Complete sql ↔ (quickscan sql .start).semiTerm := by
  refine ⟨semiTerm_of_complete, fun h => ?_⟩
  simp only [QuickScanState.semiTerm, Bool.and_eq_true, decide_eq_true_eq] at h
  obtain ⟨hwait, hend⟩ := h
  obtain ⟨-, hagree⟩ := agree_end True sql fun _ => htab
  cases hst : completeState sql with
  | none =>
    rw [hst] at hagree
    exact absurd hwait hagree.2
  | some st =>
    rw [hst] at hagree
    have hplain := completeState_plain htrigger st hst
    rw [sqlite3Complete, hst, (hagree.2.2 trivial hend).resolve_right hplain.2.1]
    rfl

end Agreement

end TpchBench.Shell
