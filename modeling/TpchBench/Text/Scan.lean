import TpchBench.Text.Stream

/-! # Scans with a state

A scanner moves over a text and keeps a state; each of its steps reads at least one character
and may look at those that follow.
-/

namespace TpchBench

section Scan

variable {α σ : Type*}

/-- The state after at most the given number of steps. -/
def scan (next : σ → List α → Option (σ × List α)) : ℕ → σ → List α → σ
  | 0, st, _ => st
  | n + 1, st, s =>
    match next st s with
    | none => st
    | some (st', r) => scan next n st' r

def scanAll (next : σ → List α → Option (σ × List α)) (st : σ) (s : List α) : σ :=
  scan next s.length st s

def Advancing (next : σ → List α → Option (σ × List α)) : Prop :=
  ∀ st s st' r, next st s = some (st', r) → r.length < s.length

variable {next : σ → List α → Option (σ × List α)}

theorem Advancing.next_nil (h : Advancing next) (st : σ) : next st [] = none := by
  cases hn : next st [] with
  | none => rfl
  | some p => exact absurd (h st [] p.1 p.2 hn) (Nat.not_lt_zero _)

theorem scan_fuel (h : Advancing next) {n m : ℕ} {st : σ} {s : List α} (hn : s.length ≤ n)
    (hm : s.length ≤ m) : scan next n st s = scan next m st s := by
  induction n generalizing m st s with
  | zero =>
    obtain rfl := List.eq_nil_of_length_eq_zero (Nat.le_zero.mp hn)
    cases m <;> simp [scan, h.next_nil]
  | succ n ih =>
    cases m with
    | zero =>
      obtain rfl := List.eq_nil_of_length_eq_zero (Nat.le_zero.mp hm)
      simp [scan, h.next_nil]
    | succ m =>
      cases hs : next st s with
      | none => simp [scan, hs]
      | some p =>
        have hr := h st s p.1 p.2 hs
        simp only [scan, hs]
        exact ih (by omega) (by omega)

@[simp] theorem scanAll_nil (next : σ → List α → Option (σ × List α)) (st : σ) :
    scanAll next st [] = st := rfl

theorem scanAll_of_some (h : Advancing next) {st st' : σ} {s r : List α}
    (hs : next st s = some (st', r)) : scanAll next st s = scanAll next st' r := by
  have hr := h st s st' r hs
  obtain ⟨a, s, rfl⟩ : ∃ a t, s = a :: t :=
    List.exists_cons_of_ne_nil (by rintro rfl; simp at hr)
  simp only [scanAll, List.length_cons, scan, hs]
  exact scan_fuel h (by simpa [Nat.lt_succ_iff] using hr) le_rfl

/-- What every step keeps of the state and the rest of the text holds at the end. -/
theorem scanAll_invariant {P : σ → List α → Prop}
    (hstep : ∀ st s st' r, P st s → next st s = some (st', r) → P st' r) {st : σ} {s : List α}
    (hst : P st s) : ∃ r, P (scanAll next st s) r := by
  unfold scanAll
  generalize s.length = n
  induction n generalizing st s with
  | zero => exact ⟨s, hst⟩
  | succ n ih =>
    unfold scan
    split
    · exact ⟨s, hst⟩
    · rename_i hs
      exact ih (hstep _ _ _ _ hst hs)

/-- If no step sees more when a text is appended, the scan can be resumed there. -/
theorem scanAll_append (h : Advancing next) {P : σ → Prop} {t : List α}
    (hnone : ∀ st a s, next st (a :: s) ≠ none)
    (hstep : ∀ st s st' r, P st → next st s = some (st', r) →
      P st' ∧ next st (s ++ t) = some (st', r ++ t)) {st : σ} (hst : P st) (s : List α) :
    scanAll next st (s ++ t) = scanAll next (scanAll next st s) t := by
  induction hlen : s.length using Nat.strong_induction_on generalizing st s with
  | _ n ih =>
    subst hlen
    cases s with
    | nil => rfl
    | cons a s =>
      obtain ⟨⟨st', r⟩, hs⟩ := Option.ne_none_iff_exists'.mp (hnone st a s)
      obtain ⟨hst', happ⟩ := hstep _ _ _ _ hst hs
      rw [scanAll_of_some h hs, scanAll_of_some h happ]
      exact ih r.length (h _ _ _ _ hs) hst' r rfl

/-- Two scanners of one text keep a relation if every step of the first is matched by some way
of the second. -/
theorem scanAll_related {τ : Type*} (next' : τ → List α → Option (τ × List α))
    (h : Advancing next) {R : σ → τ → List α → Prop}
    (hstep : ∀ st q a s, R st q (a :: s) → ∃ st' q' r, next st (a :: s) = some (st', r) ∧
      scanAll next' q (a :: s) = scanAll next' q' r ∧ R st' q' r) {st : σ} {q : τ} {s : List α}
    (hR : R st q s) : R (scanAll next st s) (scanAll next' q s) [] := by
  induction hlen : s.length using Nat.strong_induction_on generalizing st q s with
  | _ n ih =>
    subst hlen
    cases s with
    | nil => exact hR
    | cons a s =>
      obtain ⟨st', q', r, hs, hq, hR'⟩ := hstep st q a s hR
      rw [scanAll_of_some h hs, hq]
      exact ih r.length (h _ _ _ _ hs) hR' rfl

end Scan

end TpchBench
