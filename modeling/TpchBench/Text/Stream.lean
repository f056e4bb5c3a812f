import Mathlib.Algebra.GroupWithZero.Nat
import Mathlib.Data.List.Basic
import Mathlib.Data.List.Infix
import Mathlib.Data.List.TakeWhile
import Mathlib.Tactic.Common

/-! # Texts read piece by piece

A loop `while ((x = next(s)) != NULL)` collects what a partial reader delivers.
The readers of the C library used here are `fgets`, which cuts a file into lines
of bounded length, and `strtok_r`, which cuts a line at a delimiter.
-/

namespace TpchBench

/-- A text is a list of characters; in what a C program reads, each stands for a byte. -/
abbrev Text := List Char

theorem eq_false_of_all {p : Char → Bool} {s : Text} (h : s.all (fun c => !p c) = true) :
    ∀ c ∈ s, p c = false :=
  fun c hc => Bool.not_eq_true' _ ▸ List.all_eq_true.mp h c hc

theorem not_mem_of_all {p : Char → Bool} {s : Text} (h : s.all (fun c => !p c) = true) {c : Char}
    (hc : p c) : c ∉ s := by
  intro hm
  rw [eq_false_of_all h c hm] at hc
  cases hc

/-- A text that is not split at separators. -/
structure IsWord (sep : Char → Bool) (w : Text) : Prop where
  ne_nil : w ≠ []
  noSep : ∀ c ∈ w, sep c = false

section Infix

variable {α : Type*}

theorem prefix_of_prefix_stop {pat a b : List α} {stop : α} (hp : stop ∉ pat)
    (h : pat <+: a ++ stop :: b) : pat <+: a := by
  induction pat generalizing a with
  | nil => exact List.nil_prefix
  | cons c pat ih =>
    simp only [List.mem_cons, not_or] at hp
    cases a with
    | nil => exact absurd (List.cons_prefix_cons.mp h).1.symm hp.1
    | cons d a =>
      obtain ⟨rfl, hpat⟩ := List.cons_prefix_cons.mp h
      exact List.cons_prefix_cons.mpr ⟨rfl, ih hp.2 hpat⟩

theorem infix_of_infix_append {c : α} {pat a t : List α} (hc : c ∉ a)
    (h : c :: pat <:+: a ++ t) : c :: pat <:+: t := by
  induction a with
  | nil => exact h
  | cons d a ih =>
    simp only [List.mem_cons, not_or] at hc
    rcases List.infix_cons_iff.mp h with hp | hi
    · exact absurd (List.cons_prefix_cons.mp hp).1 hc.1
    · exact ih hc.2 hi

theorem concat_infix_of_infix_append {c : α} {pat a t : List α} (hc : c ∉ t)
    (h : pat ++ [c] <:+: a ++ t) : pat ++ [c] <:+: a := by
  rw [← List.reverse_infix] at h ⊢
  simp only [List.reverse_append, List.reverse_singleton, List.singleton_append] at h ⊢
  exact infix_of_infix_append (by simpa using hc) h

theorem infix_append_cons_iff {c : α} {w a b : List α} (hc : c ∉ w) :
    w <:+: a ++ c :: b ↔ w <:+: a ∨ w <:+: b := by
  constructor
  · intro h
    induction a with
    | nil =>
      rcases List.infix_cons_iff.mp h with hp | hi
      · exact .inl (prefix_of_prefix_stop (a := []) hc hp).isInfix
      · exact .inr hi
    | cons d a ih =>
      rcases List.infix_cons_iff.mp h with hp | hi
      · exact .inl (prefix_of_prefix_stop (a := d :: a) hc hp).isInfix
      · exact (ih hi).imp_left fun ha => ha.trans (List.suffix_cons d a).isInfix
  · rintro (h | h)
    · exact h.trans (List.prefix_append _ _).isInfix
    · exact h.trans ((List.suffix_cons c b).trans (List.suffix_append a _)).isInfix

end Infix

section Drain

variable {α β : Type*}

/-- Everything a reader delivers in at most the given number of calls. -/
def drain (next : List α → Option (β × List α)) : ℕ → List α → List β
  | 0, _ => []
  | n + 1, s =>
    match next s with
    | none => []
    | some (b, r) => b :: drain next n r

def drainAll (next : List α → Option (β × List α)) (s : List α) : List β :=
  drain next s.length s

def Consuming (next : List α → Option (β × List α)) : Prop :=
  ∀ s b r, next s = some (b, r) → r.length < s.length

variable {next : List α → Option (β × List α)}

theorem Consuming.next_nil (h : Consuming next) : next [] = none := by
  cases hn : next [] with
  | none => rfl
  | some p => exact absurd (h [] p.1 p.2 hn) (Nat.not_lt_zero _)

theorem drain_fuel (h : Consuming next) {n m : ℕ} {s : List α} (hn : s.length ≤ n)
    (hm : s.length ≤ m) : drain next n s = drain next m s := by
  induction n generalizing m s with
  | zero =>
    obtain rfl := List.eq_nil_of_length_eq_zero (Nat.le_zero.mp hn)
    cases m <;> simp [drain, h.next_nil]
  | succ n ih =>
    cases m with
    | zero =>
      obtain rfl := List.eq_nil_of_length_eq_zero (Nat.le_zero.mp hm)
      simp [drain, h.next_nil]
    | succ m =>
      cases hs : next s with
      | none => simp [drain, hs]
      | some p =>
        have hr := h s p.1 p.2 hs
        simp only [drain, hs]
        rw [ih (by omega : p.2.length ≤ n) (by omega : p.2.length ≤ m)]

theorem drainAll_of_none {s : List α} (hs : next s = none) : drainAll next s = [] := by
  cases s <;> simp [drainAll, drain, hs]

theorem drainAll_of_some (h : Consuming next) {s r : List α} {b : β}
    (hs : next s = some (b, r)) : drainAll next s = b :: drainAll next r := by
  have hr := h s b r hs
  obtain ⟨a, s, rfl⟩ : ∃ a t, s = a :: t := List.exists_cons_of_ne_nil (by rintro rfl; simp at hr)
  simp only [drainAll, List.length_cons, drain, hs]
  rw [drain_fuel h (by simpa [Nat.lt_succ_iff] using hr) le_rfl]

/-- Whatever holds of the rest after each call, and of each piece read, holds of all pieces. -/
theorem drain_forall {P : List α → Prop} {Q : β → Prop}
    (h : ∀ s b r, P s → next s = some (b, r) → Q b ∧ P r) {n : ℕ} {s : List α} (hs : P s) :
    ∀ b ∈ drain next n s, Q b := by
  induction n generalizing s with
  | zero => simp [drain]
  | succ n ih =>
    cases hn : next s with
    | none => simp [drain, hn]
    | some p =>
      obtain ⟨hq, hp⟩ := h s p.1 p.2 hs hn
      simp only [drain, hn, List.mem_cons, forall_eq_or_imp]
      exact ⟨hq, ih hp⟩

/-- If every call pays for its piece with what it consumes, all pieces together do. -/
theorem drain_sum_le {cost : β → ℕ} {size : List α → ℕ}
    (h : ∀ s b r, next s = some (b, r) → cost b + size r ≤ size s) (n : ℕ) (s : List α) :
    ((drain next n s).map cost).sum ≤ size s := by
  induction n generalizing s with
  | zero => simp [drain]
  | succ n ih =>
    cases hn : next s with
    | none => simp [drain, hn]
    | some p =>
      have hp := h s p.1 p.2 hn
      have hr := ih p.2
      simp only [drain, hn, List.map_cons, List.sum_cons]
      omega

end Drain

/-- The characters up to and including the first newline, but at most `n`, and the rest. -/
def takeLine : ℕ → Text → Text × Text
  | 0, s => ([], s)
  | _, [] => ([], [])
  | n + 1, c :: s => if c = '\n' then ([c], s) else (c :: (takeLine n s).1, (takeLine n s).2)

/-- `fgets(buf, size, file)` on the unread part of a file: `NULL` at the end of the file,
otherwise one line or, if it does not fit, its first `size - 1` characters. -/
def fgets (size : ℕ) : Text → Option (Text × Text)
  | [] => none
  | c :: s => some (takeLine (size - 1) (c :: s))

/-- What the loop `while (fgets(line, size, file))` puts into `line`. -/
def fgetsAll (size : ℕ) (file : Text) : List Text := drainAll (fgets size) file

theorem takeLine_append (n : ℕ) (s : Text) : (takeLine n s).1 ++ (takeLine n s).2 = s := by
  induction n generalizing s with
  | zero => rfl
  | succ n ih =>
    cases s with
    | nil => rfl
    | cons c s =>
      by_cases hc : c = '\n'
      · simp [takeLine, hc]
      · simp [takeLine, hc, ih]

theorem fgets_append {size : ℕ} {s l r : Text} (h : fgets size s = some (l, r)) : l ++ r = s := by
  cases s with
  | nil => simp [fgets] at h
  | cons c s =>
    simp only [fgets, Option.some.injEq] at h
    simpa [h] using takeLine_append (size - 1) (c :: s)

theorem fgets_consuming {size : ℕ} (hs : 2 ≤ size) : Consuming (fgets size) := by
  intro s l r h
  have happ := fgets_append h
  cases s with
  | nil => simp [fgets] at h
  | cons c s =>
    obtain ⟨k, hk⟩ : ∃ k, size - 1 = k + 1 := ⟨size - 2, by omega⟩
    have hl : l ≠ [] := by
      simp only [fgets, hk, takeLine, Option.some.injEq] at h
      split at h
      · rw [← (Prod.mk.inj h).1]; exact List.cons_ne_nil _ _
      · rw [← (Prod.mk.inj h).1]; exact List.cons_ne_nil _ _
    rw [← happ, List.length_append]
    have := List.length_pos_iff.mpr hl
    omega

theorem takeLine_line {l s : Text} (hl : '\n' ∉ l) {n : ℕ} (hn : l.length < n) :
    takeLine n (l ++ '\n' :: s) = (l ++ ['\n'], s) := by
  induction l generalizing n with
  | nil =>
    obtain ⟨k, rfl⟩ : ∃ k, n = k + 1 := ⟨n - 1, by simp at hn; omega⟩
    simp [takeLine]
  | cons c l ih =>
    obtain ⟨k, rfl⟩ : ∃ k, n = k + 1 := ⟨n - 1, by simp at hn; omega⟩
    simp only [List.mem_cons, not_or] at hl
    simp only [List.length_cons] at hn
    simp [takeLine, Ne.symm hl.1, ih hl.2 (by omega : l.length < k)]

theorem fgetsAll_line {size : ℕ} {l s : Text} (hl : '\n' ∉ l) (hn : l.length + 1 < size) :
    fgetsAll size (l ++ '\n' :: s) = (l ++ ['\n']) :: fgetsAll size s := by
  apply drainAll_of_some (fgets_consuming (by omega))
  have h := takeLine_line (s := s) hl (n := size - 1) (by omega)
  cases l <;> simpa [fgets] using h

theorem takeLine_last {l : Text} (hl : '\n' ∉ l) {n : ℕ} (hn : l.length ≤ n) :
    takeLine n l = (l, []) := by
  induction l generalizing n with
  | nil => cases n <;> rfl
  | cons c l ih =>
    obtain ⟨k, rfl⟩ : ∃ k, n = k + 1 := ⟨n - 1, by simp at hn; omega⟩
    simp only [List.mem_cons, not_or] at hl
    simp only [List.length_cons] at hn
    simp [takeLine, Ne.symm hl.1, ih hl.2 (by omega : l.length ≤ k)]

theorem fgetsAll_last {size : ℕ} {l : Text} (hne : l ≠ []) (hl : '\n' ∉ l)
    (hn : l.length < size) : fgetsAll size l = [l] := by
  have hpos := List.length_pos_iff.mpr hne
  have h := takeLine_last hl (n := size - 1) (by omega)
  have hnext : fgets size l = some (l, []) := by
    cases l with
    | nil => exact absurd rfl hne
    | cons c l => rw [fgets, h]
  rw [fgetsAll, drainAll_of_some (fgets_consuming (by omega)) hnext]
  rfl

@[simp] theorem fgetsAll_nil (size : ℕ) : fgetsAll size [] = [] := rfl

theorem fgetsAll_lines {size : ℕ} {ls : List Text}
    (h : ∀ l ∈ ls, '\n' ∉ l ∧ l.length + 1 < size) :
    fgetsAll size (ls.flatMap (· ++ ['\n'])) = ls.map (· ++ ['\n']) := by
  induction ls with
  | nil => rfl
  | cons l ls ih =>
    obtain ⟨hl, hls⟩ := List.forall_mem_cons.mp h
    rw [List.flatMap_cons, List.append_assoc, List.singleton_append,
      fgetsAll_line hl.1 hl.2, ih hls, List.map_cons]

theorem mem_of_mem_fgetsAll {size : ℕ} {file l : Text} (hl : l ∈ fgetsAll size file) {c : Char}
    (hc : c ∈ l) : c ∈ file := by
  have hstep : ∀ s l r, s ⊆ file → fgets size s = some (l, r) → l ⊆ file ∧ r ⊆ file := by
    intro s l r hs h
    rwa [← fgets_append h, List.append_subset] at hs
  exact drain_forall hstep (List.Subset.refl file) l hl hc

/-- The C string in a buffer: the characters before the first NUL. -/
def cstr (s : Text) : Text := s.takeWhile (· ≠ '\x00')

/-- `strtok_r(rest, "d", &rest)` for a single delimiter: the next nonempty run of other
characters, and what follows the delimiter that ends it. -/
def strtokR (d : Char) (s : Text) : Option (Text × Text) :=
  match s.dropWhile (· = d) with
  | [] => none
  | c :: t => some ((c :: t).takeWhile (· ≠ d), ((c :: t).dropWhile (· ≠ d)).tail)

/-- The tokens that a `strtok` loop over a C string visits. -/
def tokens (d : Char) (s : Text) : List Text := drainAll (strtokR d) s

theorem dropWhile_ne_head {d c : Char} {s t : Text} (h : s.dropWhile (· = d) = c :: t) : c ≠ d := by
  have hne : s.dropWhile (· = d) ≠ [] := by simp [h]
  simpa [h] using List.head_dropWhile_not (fun x => decide (x = d)) hne

theorem strtokR_sublist {d : Char} {s tok r : Text} (h : strtokR d s = some (tok, r)) :
    tok <+: s.dropWhile (· = d) ∧ r <:+ s.dropWhile (· = d) ∧ tok ≠ [] ∧ d ∉ tok ∧
      r.length < s.length := by
  unfold strtokR at h
  cases hs : s.dropWhile (· = d) with
  | nil => simp [hs] at h
  | cons c t =>
    have hc := dropWhile_ne_head hs
    have hle := List.Sublist.length_le (List.dropWhile_sublist (fun x => decide (x = d)) (l := s))
    simp only [hs, Option.some.injEq, Prod.mk.injEq] at h
    obtain ⟨rfl, rfl⟩ := h
    have hsuf := List.dropWhile_suffix (fun x => decide (x ≠ d)) (l := c :: t)
    refine ⟨ List.takeWhile_prefix _, (List.tail_suffix _).trans hsuf, by simp [hc], ?_, ?_⟩
    · intro hd
      simpa using List.mem_takeWhile_imp hd
    · have h1 : ((c :: t).dropWhile (· ≠ d)).length ≤ t.length := by
        rw [List.dropWhile_cons_of_pos (by simpa using hc)]
        exact List.Sublist.length_le (List.dropWhile_sublist _)
      rw [hs, List.length_cons] at hle
      have h2 := List.length_tail (l := (c :: t).dropWhile (· ≠ d))
      omega

theorem strtokR_consuming (d : Char) : Consuming (strtokR d) :=
  fun _ _ _ h => (strtokR_sublist h).2.2.2.2

@[simp] theorem tokens_nil (d : Char) : tokens d [] = [] := rfl

theorem takeWhile_ne_append {d : Char} {f : Text} (hd : d ∉ f) (s : Text) :
    (f ++ d :: s).takeWhile (· ≠ d) = f := by
  rw [List.takeWhile_append_of_pos (fun x hx => decide_eq_true (ne_of_mem_of_not_mem hx hd))]
  simp

theorem dropWhile_ne_append {d : Char} {f : Text} (hd : d ∉ f) (s : Text) :
    (f ++ d :: s).dropWhile (· ≠ d) = d :: s := by
  rw [List.dropWhile_append_of_pos (fun x hx => decide_eq_true (ne_of_mem_of_not_mem hx hd))]
  simp

theorem tokens_field {d : Char} {f : Text} (hf : f ≠ []) (hd : d ∉ f) (s : Text) :
    tokens d (f ++ d :: s) = f :: tokens d s := by
  apply drainAll_of_some (strtokR_consuming d)
  obtain ⟨c, f, rfl⟩ := List.exists_cons_of_ne_nil hf
  have hc : c ≠ d := fun h => hd (by simp [h])
  have hdrop : ((c :: f) ++ d :: s).dropWhile (· = d) = (c :: f) ++ d :: s := by simp [hc]
  unfold strtokR
  rw [hdrop]
  simp only [List.cons_append]
  rw [← List.cons_append, takeWhile_ne_append hd, dropWhile_ne_append hd]
  rfl

theorem tokens_last {d : Char} {f : Text} (hf : f ≠ []) (hd : d ∉ f) : tokens d f = [f] := by
  obtain ⟨c, f, rfl⟩ := List.exists_cons_of_ne_nil hf
  have hc : c ≠ d := fun h => hd (by simp [h])
  have hall : ∀ x ∈ c :: f, decide (x ≠ d) = true :=
    fun x hx => decide_eq_true (ne_of_mem_of_not_mem hx hd)
  have h : strtokR d (c :: f) = some (c :: f, []) := by
    unfold strtokR
    rw [List.dropWhile_cons_of_neg (by simpa using hc)]
    simp only [List.takeWhile_eq_self_iff.mpr hall, List.dropWhile_eq_nil_iff.mpr hall,
      List.tail_nil]
  rw [tokens, drainAll_of_some (strtokR_consuming d) h]
  rfl

theorem tokens_fields {d : Char} {fs : List Text} (h : ∀ f ∈ fs, f ≠ [] ∧ d ∉ f) (s : Text) :
    tokens d (fs.flatMap (· ++ [d]) ++ s) = fs ++ tokens d s := by
  induction fs with
  | nil => rfl
  | cons f fs ih =>
    obtain ⟨hf, hfs⟩ := List.forall_mem_cons.mp h
    rw [List.flatMap_cons, List.append_assoc, List.append_assoc, List.singleton_append,
      tokens_field hf.1 hf.2, ih hfs, List.cons_append]

theorem of_mem_tokens {d : Char} {s tok : Text} (h : tok ∈ tokens d s) :
    tok ≠ [] ∧ d ∉ tok ∧ tok ⊆ s := by
  have hstep : ∀ t b r, t ⊆ s → strtokR d t = some (b, r) →
      (b ≠ [] ∧ d ∉ b ∧ b ⊆ s) ∧ r ⊆ s := by
    intro t b r ht hn
    obtain ⟨hp, hr, hne, hd, _⟩ := strtokR_sublist hn
    have hsub := (List.dropWhile_sublist (fun x => decide (x = d)) (l := t)).subset
    have hs : t.dropWhile (fun x => decide (x = d)) ⊆ s := List.Subset.trans hsub ht
    exact ⟨⟨hne, hd, List.Subset.trans hp.subset hs⟩, List.Subset.trans hr.subset hs⟩
  exact drain_forall hstep (List.Subset.refl s) tok h

theorem tokens_cons_self (d : Char) (s : Text) : tokens d (d :: s) = tokens d s := by
  have hskip : strtokR d (d :: s) = strtokR d s := by simp [strtokR]
  cases hs : strtokR d s with
  | none => rw [tokens, tokens, drainAll_of_none hs, drainAll_of_none (hskip.trans hs)]
  | some p =>
    rw [tokens, tokens, drainAll_of_some (strtokR_consuming d) hs,
      drainAll_of_some (strtokR_consuming d) (hskip.trans hs)]

/-- The tokens are the nonempty parts between the delimiters. -/
theorem tokens_eq_splitOn (d : Char) (s : Text) :
    tokens d s = (s.splitOn d).filter (· ≠ []) := by
  induction hlen : s.length using Nat.strong_induction_on generalizing s with
  | _ n ih =>
    subst hlen
    by_cases hs : d ∈ s
    · obtain ⟨f, r, rfl, hf⟩ := List.eq_append_cons_of_mem hs
      have hr := ih r.length (by simp; omega) r rfl
      rw [List.splitOn_append_cons_self_of_not_mem hf]
      rcases eq_or_ne f [] with rfl | hne
      · rw [List.nil_append, tokens_cons_self, hr, List.filter_cons_of_neg (by simp)]
      · rw [tokens_field hne hf, hr, List.filter_cons_of_pos (by simpa using hne)]
    · rw [List.splitOn_eq_singleton hs]
      rcases eq_or_ne s [] with rfl | hne
      · rfl
      · rw [tokens_last hne hs, List.filter_cons_of_pos (by simpa using hne), List.filter_nil]

theorem strtokR_length {d : Char} {s tok r : Text} (h : strtokR d s = some (tok, r)) :
    tok.length + r.length ≤ s.length ∧ (r ≠ [] → tok.length + 1 + r.length ≤ s.length) := by
  unfold strtokR at h
  have hle := List.Sublist.length_le (List.dropWhile_sublist (fun x => decide (x = d)) (l := s))
  cases hs : s.dropWhile (· = d) with
  | nil => simp [hs] at h
  | cons c t =>
    rw [hs] at h hle
    simp only [Option.some.injEq, Prod.mk.injEq] at h
    obtain ⟨rfl, rfl⟩ := h
    have hsplit := congrArg List.length
      (List.takeWhile_append_dropWhile (p := fun x => decide (x ≠ d)) (l := c :: t))
    have htail := List.length_tail (l := (c :: t).dropWhile fun x => decide (x ≠ d))
    rw [List.length_append] at hsplit
    constructor
    · omega
    · intro hne
      have hpos := List.length_pos_iff.mpr hne
      omega

/-- The tokens of a line, with a separator after each but the last, fit into it. -/
theorem tokens_sum_length (d : Char) (s : Text) :
    ((tokens d s).map fun tok => tok.length + 1).sum ≤ s.length + 1 := by
  have hstep : ∀ t tok r, strtokR d t = some (tok, r) →
      (tok.length + 1) + (if r = [] then 0 else r.length + 1) ≤
        if t = [] then 0 else t.length + 1 := by
    intro t tok r h
    obtain ⟨h1, h2⟩ := strtokR_length h
    have hne : t ≠ [] := by
      rintro rfl
      simp [strtokR] at h
    rw [if_neg hne]
    split
    · omega
    · rename_i hr
      have := h2 hr
      omega
  have hsum : ((tokens d s).map fun tok => tok.length + 1).sum ≤
      if s = [] then 0 else s.length + 1 := drain_sum_le hstep s.length s
  refine hsum.trans ?_
  split <;> omega

/-- `snprintf(buf, size, …)` into an empty buffer. -/
def snprintf (size : ℕ) (s : Text) : Text := s.take (size - 1)

/-- `snprintf(buf + strlen(buf), size - strlen(buf), …)`: append what still fits. -/
def snprintfAt (size : ℕ) (buf s : Text) : Text := buf ++ s.take (size - buf.length - 1)

def strstr (s pat : Text) : Bool := decide (pat <:+: s)

/-- The part of a name before its last dot, `%.*s` of `strrchr(name, '.') - name`. -/
def beforeLastDot (name : Text) : Text :=
  ((name.reverse.dropWhile (· ≠ '.')).drop 1).reverse

theorem snprintfAt_eq_take {size : ℕ} {buf s : Text} (h : buf.length < size) :
    snprintfAt size buf s = (buf ++ s).take (size - 1) := by
  rw [snprintfAt, List.take_append, List.take_of_length_le (by omega : buf.length ≤ size - 1)]
  congr 2
  omega

end TpchBench
