import TpchBench.Text.Stream

/-! # Tokens of SQL texts

A tokenizer that reads a text character by character. It knows words, numbers, string
literals with doubled quotes, and the punctuation of simple statements. Comments, other
quotations and operators are left out and come out as illegal tokens.
-/

namespace TpchBench.Sql

inductive Token where
  | word (w : Text)
  | number (n : Text)
  | str (s : Text)
  | sym (c : Char)
  | illegal
  deriving DecidableEq, Repr

/-- Where the tokenizer stands; in `quote` it has just seen a quote inside a literal. -/
inductive LexState where
  | gap
  | word (acc : Text)
  | number (acc : Text)
  | str (acc : Text)
  | quote (acc : Text)
  deriving DecidableEq, Repr

def isSpace (c : Char) : Bool := c ∈ [' ', '\t', '\n', '\x0c', '\r']

def isSym (c : Char) : Bool := c ∈ ['(', ')', ',', ';', '=', '.', '*']

def isWordStart (c : Char) : Bool := c.isAlpha || c = '_' || 0x80 ≤ c.toNat

def isWordChar (c : Char) : Bool := isWordStart c || c.isDigit || c = '$'

namespace LexState

/-- The token in progress, when nothing more of it follows. -/
def flush : LexState → List Token
  | gap => []
  | word acc => [.word acc]
  | number acc => [.number acc]
  | str _ => [.illegal]
  | quote acc => [.str acc]

def start (c : Char) : List Token × LexState :=
  if isSpace c then ([], gap)
  else if isWordStart c then ([], word [c])
  else if c.isDigit then ([], number [c])
  else if c = '\'' then ([], str [])
  else if isSym c then ([.sym c], gap)
  else ([.illegal], gap)

/-- One character: the tokens it completes and the next state. -/
def next (st : LexState) (c : Char) : List Token × LexState :=
  match st with
  | gap => start c
  | word acc =>
    if isWordChar c then ([], word (acc ++ [c])) else (.word acc :: (start c).1, (start c).2)
  | number acc =>
    if isWordChar c || c = '.' then ([], number (acc ++ [c]))
    else (.number acc :: (start c).1, (start c).2)
  | str acc => if c = '\'' then ([], quote acc) else ([], str (acc ++ [c]))
  | quote acc =>
    if c = '\'' then ([], str (acc ++ [c])) else (.str acc :: (start c).1, (start c).2)

/-- The tokens completed within a text, and the state at its end. -/
def run : LexState → Text → List Token × LexState
  | st, [] => ([], st)
  | st, c :: s => ((st.next c).1 ++ (run (st.next c).2 s).1, (run (st.next c).2 s).2)

def inString : LexState → Bool
  | str _ => true
  | _ => false

end LexState

open LexState

def lex (text : Text) : List Token := (run gap text).1 ++ (run gap text).2.flush

/-- The statements of a text, as `sqlite3_exec` takes them one by one. -/
def statements (text : Text) : List (List Token) :=
  ((lex text).splitOn (.sym ';')).filter (· ≠ [])

@[simp] theorem run_nil (st : LexState) : run st [] = ([], st) := rfl

theorem run_append (st : LexState) (a b : Text) :
    run st (a ++ b) = ((run st a).1 ++ (run (run st a).2 b).1, (run (run st a).2 b).2) := by
  induction a generalizing st with
  | nil => rfl
  | cons c a ih => simp [run, ih]

/-- The tokens completed early stay when the text goes on. -/
theorem run_mono (st : LexState) {a t : Text} (h : a <+: t) : (run st a).1 <+: (run st t).1 := by
  obtain ⟨b, rfl⟩ := h
  rw [run_append]
  exact List.prefix_append _ _

theorem run_str {t : Text} (h : '\'' ∉ t) (acc : Text) :
    run (str acc) t = ([], str (acc ++ t)) := by
  induction t generalizing acc with
  | nil => simp
  | cons c t ih =>
    simp only [List.mem_cons, not_or] at h
    have hc : c ≠ '\'' := Ne.symm h.1
    simp [run, next, hc, ih h.2]

theorem run_literal {t : Text} (h : '\'' ∉ t) :
    run gap ('\'' :: (t ++ ['\''])) = ([], quote t) := by
  have hstart : next gap '\'' = ([], str []) := by decide
  rw [run, hstart, run_append, run_str h]
  simp [run, next]

def IsBreak (c : Char) : Prop := isWordChar c = false ∧ c ≠ '.' ∧ c ≠ '\''

instance (c : Char) : Decidable (IsBreak c) := inferInstanceAs (Decidable (_ ∧ _))

theorem next_break {st : LexState} (hst : st.inString = false) {c : Char} (hc : IsBreak c) :
    st.next c = (st.flush ++ (start c).1, (start c).2) := by
  obtain ⟨hw, hdot, hq⟩ := hc
  cases st with
  | gap => rfl
  | word acc => simp [next, flush, hw]
  | number acc => simp [next, flush, hw, hdot]
  | str acc => simp [inString] at hst
  | quote acc => simp [next, flush, hq]

/-- A text outside a literal that goes on with a break. -/
theorem run_append_break {st : LexState} {a : Text} (ha : (run st a).2.inString = false) {c : Char}
    (hc : IsBreak c) (b : Text) :
    run st (a ++ c :: b) =
      ((run st a).1 ++ (run st a).2.flush ++ (run gap (c :: b)).1, (run gap (c :: b)).2) := by
  rw [run_append, run, next_break ha hc]
  simp [run, next]

theorem lex_append_break {a : Text} (ha : (run gap a).2.inString = false) {c : Char}
    (hc : IsBreak c) (b : Text) :
    lex (a ++ c :: b) = lex a ++ lex (c :: b) ∧
      (run gap (a ++ c :: b)).2 = (run gap (c :: b)).2 := by
  simp [lex, run_append_break ha hc]

@[simp] theorem run_space (b : Text) : run gap (' ' :: b) = run gap b := by
  have h : next gap ' ' = ([], gap) := by decide
  simp [run, h]

@[simp] theorem lex_space (b : Text) : lex (' ' :: b) = lex b := by
  simp [lex]

theorem run_sym {c : Char} (hc : next gap c = ([.sym c], gap)) (b : Text) :
    run gap (c :: b) = (.sym c :: (run gap b).1, (run gap b).2) := by
  simp [run, hc]

theorem lex_sym {c : Char} (hc : next gap c = ([.sym c], gap)) (b : Text) :
    lex (c :: b) = .sym c :: lex b := by
  simp [lex, run_sym hc]

theorem flush_ne_sym (st : LexState) (c : Char) : .sym c ∉ st.flush := by
  cases st <;> simp [flush]

def isNameChar (c : Char) : Bool := c.isAlphanum || c = '_' || c = '.'

theorem start_nameChar {c : Char} (hc : isNameChar c) :
    (∀ d, .sym d ∈ (start c).1 → d = '.') ∧ (start c).2.inString = false ∧
      ∀ acc, (start c).2 ≠ quote acc := by
  have hq : c ≠ '\'' := by
    rintro rfl
    exact absurd hc (by decide)
  unfold start
  split_ifs with h1 h2 h3 h4
  · simp [inString]
  · simp [inString]
  · simp [inString]
  · have hdot : c = '.' := by
      simp only [isSym, decide_eq_true_eq, List.mem_cons, List.not_mem_nil, or_false] at h4
      rcases h4 with rfl | rfl | rfl | rfl | rfl | rfl | rfl
      all_goals first | rfl | exact absurd hc (by decide)
    simp [inString, hdot]
  · simp [inString]

theorem next_nameChar {st : LexState} {c : Char} (hc : isNameChar c) (hst : st.inString = false)
    (hq : ∀ acc, st ≠ quote acc) :
    (∀ d, .sym d ∈ (st.next c).1 → d = '.') ∧ (st.next c).2.inString = false ∧
      ∀ acc, (st.next c).2 ≠ quote acc := by
  have hstart := start_nameChar hc
  cases st with
  | gap => exact hstart
  | word acc =>
    unfold next
    dsimp only
    split_ifs
    · simp [inString]
    · simpa using hstart
  | number acc =>
    unfold next
    dsimp only
    split_ifs
    · simp [inString]
    · simpa using hstart
  | str acc => simp [inString] at hst
  | quote acc => exact absurd rfl (hq acc)

theorem run_name {name : Text} (h : ∀ c ∈ name, isNameChar c) {st : LexState}
    (hst : st.inString = false) (hq : ∀ acc, st ≠ quote acc) :
    (∀ d, .sym d ∈ (run st name).1 → d = '.') ∧ (run st name).2.inString = false := by
  induction name generalizing st with
  | nil => exact ⟨by simp, hst⟩
  | cons c name ih =>
    obtain ⟨hc, hname⟩ := List.forall_mem_cons.mp h
    obtain ⟨h1, h2, h3⟩ := next_nameChar hc hst hq
    obtain ⟨h4, h5⟩ := ih hname h2 h3
    refine ⟨fun d hd => ?_, h5⟩
    rcases List.mem_append.mp hd with hd | hd
    · exact h1 d hd
    · exact h4 d hd

theorem sym_mem_lex_name {name : Text} (h : ∀ c ∈ name, isNameChar c) {d : Char}
    (hd : .sym d ∈ lex name) : d = '.' := by
  rcases List.mem_append.mp hd with hd | hd
  · exact (run_name h rfl (by simp)).1 d hd
  · exact absurd hd (flush_ne_sym _ d)

theorem run_word {w : Text} (h : ∀ c ∈ w, isWordChar c) (acc : Text) :
    run (word acc) w = ([], word (acc ++ w)) := by
  induction w generalizing acc with
  | nil => simp
  | cons c w ih =>
    obtain ⟨hc, hw⟩ := List.forall_mem_cons.mp h
    simp [run, next, hc, ih hw]

theorem lex_alpha {w : Text} (hne : w ≠ []) (h : ∀ c ∈ w, c.isAlpha) : lex w = [.word w] := by
  obtain ⟨c, w, rfl⟩ := List.exists_cons_of_ne_nil hne
  obtain ⟨hc, hw⟩ := List.forall_mem_cons.mp h
  have hspace : isSpace c = false := decide_eq_false (not_mem_of_all rfl hc)
  have hstart : next gap c = ([], word [c]) := by
    simp [next, start, hspace, isWordStart, hc]
  have hword : ∀ d ∈ w, isWordChar d := fun d hd => by simp [isWordChar, isWordStart, hw d hd]
  rw [lex, run, hstart, run_word hword]
  rfl

def literals (fields : List Text) : Text :=
  [',', ' '].intercalate (fields.map fun f => '\'' :: (f ++ ['\'']))

def literalTokens (fields : List Text) : List Token :=
  (fields.map Token.str).intersperse (.sym ',')

theorem literals_cons_cons (f g : Text) (fs : List Text) :
    literals (f :: g :: fs) = '\'' :: (f ++ ['\'']) ++ ',' :: ' ' :: literals (g :: fs) := by
  simp [literals, List.intercalate]

theorem literalTokens_cons_cons (f g : Text) (fs : List Text) :
    literalTokens (f :: g :: fs) = .str f :: .sym ',' :: literalTokens (g :: fs) := by
  simp [literalTokens]

theorem lex_literals {fields : List Text} (h : ∀ f ∈ fields, '\'' ∉ f) :
    lex (literals fields) = literalTokens fields ∧
      (run gap (literals fields)).2.inString = false := by
  induction fields with
  | nil => exact ⟨rfl, rfl⟩
  | cons f fs ih =>
    obtain ⟨hf, hfs⟩ := List.forall_mem_cons.mp h
    have hlit := run_literal hf
    cases fs with
    | nil =>
      have hl : literals [f] = '\'' :: (f ++ ['\'']) := by simp [literals, List.intercalate]
      rw [hl, lex, hlit]
      exact ⟨rfl, rfl⟩
    | cons g fs =>
      obtain ⟨ih1, ih2⟩ := ih hfs
      have hout : (run gap ('\'' :: (f ++ ['\'']))).2.inString = false := by
        rw [hlit]
        rfl
      obtain ⟨h1, h2⟩ := lex_append_break hout (c := ',') (by decide) (' ' :: literals (g :: fs))
      rw [literals_cons_cons, h1, h2, lex_sym (c := ',') (by decide), lex_space,
        run_sym (c := ',') (by decide), run_space, ih1, literalTokens_cons_cons, lex, hlit]
      exact ⟨rfl, ih2⟩

theorem sym_mem_literalTokens {fields : List Text} {c : Char}
    (h : Token.sym c ∈ literalTokens fields) : c = ',' := by
  induction fields with
  | nil => simp [literalTokens] at h
  | cons f fs ih =>
    cases fs with
    | nil => simp [literalTokens] at h
    | cons g fs =>
      rw [literalTokens_cons_cons] at h
      rcases List.mem_cons.mp h with h | h
      · simp at h
      · rcases List.mem_cons.mp h with h | h
        · exact Token.sym.inj h
        · exact ih h

theorem statements_eq_singleton {text : Text} {toks : List Token} (hne : toks ≠ [])
    (hsemi : .sym ';' ∉ toks) (h : lex text = toks ∨ lex text = toks ++ [.sym ';']) :
    statements text = [toks] := by
  unfold statements
  rcases h with h | h
  · rw [h, List.splitOn_eq_singleton hsemi]
    simp [hne]
  · rw [h, List.splitOn_append_cons_self_of_not_mem hsemi]
    simp [hne]

/-- A text that is closed by `);` is one statement. -/
theorem statements_closed {a : Text} (hout : (run gap a).2.inString = false)
    (hsemi : .sym ';' ∉ lex a) : statements (a ++ [')', ';']) = [lex a ++ [.sym ')']] := by
  have hend : lex [')', ';'] = [.sym ')', .sym ';'] := by decide
  obtain ⟨h, -⟩ := lex_append_break hout (c := ')') (by decide) [';']
  refine statements_eq_singleton (by simp) ?_ (Or.inr ?_)
  · rw [List.mem_append, not_or]
    exact ⟨hsemi, by decide⟩
  · rw [h, hend, List.append_assoc]
    rfl

end TpchBench.Sql
