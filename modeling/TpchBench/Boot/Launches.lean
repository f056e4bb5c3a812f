import Mathlib.Data.List.Basic
import Mathlib.Data.List.ReduceOption
import Mathlib.Tactic.Common

/-! # Numbering launches

A run is a sequence of launches, each of which reports a time or fails. The first two are
warm-ups, and every later launch that reports a time has a row labelled with its number less
two. Numbering only the launches that report a time gives the same rows exactly if none of
these rows belongs to a launch after a failed one.
-/

namespace TpchBench.Boot

variable {α : Type*}

def launchRow (j : ℕ) (time : α) : Option (ℕ × α) := if 3 ≤ j then some (j - 2, time) else none

/-- The rows of launches that are numbered from `n` on. -/
def rowsFrom (n : ℕ) (times : List (Option α)) : List (ℕ × α) :=
  (times.zipIdx n).filterMap fun p => p.1.bind (launchRow p.2)

def expectedRows (times : List (Option α)) : List (ℕ × α) := rowsFrom 1 times

def reported (times : List (Option α)) : List (Option α) := times.reduceOption.map some

/-- No launch that has a row comes after a failed one. -/
def NoLaterRow (times : List (Option α)) : Prop :=
  ∀ j, 3 ≤ j + 1 → (times[j]?.join).isSome → ∀ i < j, (times[i]?.join).isSome

@[simp] theorem rowsFrom_nil (n : ℕ) : rowsFrom n ([] : List (Option α)) = [] := rfl

@[simp] theorem rowsFrom_none (n : ℕ) (times : List (Option α)) :
    rowsFrom n (none :: times) = rowsFrom (n + 1) times := by
  simp [rowsFrom]

@[simp] theorem rowsFrom_some (n : ℕ) (t : α) (times : List (Option α)) :
    rowsFrom n (some t :: times) = (launchRow n t).toList ++ rowsFrom (n + 1) times := by
  cases h : launchRow n t with
  | none => simp [rowsFrom, h]
  | some p => simp [rowsFrom, h]

@[simp] theorem reported_nil : reported ([] : List (Option α)) = [] := rfl

@[simp] theorem reported_none (times : List (Option α)) :
    reported (none :: times) = reported times := rfl

@[simp] theorem reported_some (t : α) (times : List (Option α)) :
    reported (some t :: times) = some t :: reported times := rfl

theorem rowsFrom_eq_nil_iff {n : ℕ} {times : List (Option α)} :
    rowsFrom n times = [] ↔ ∀ j, (times[j]?.join).isSome → n + j < 3 := by
  induction times generalizing n with
  | nil => simp
  | cons t times ih =>
    cases t with
    | none =>
      rw [rowsFrom_none, ih]
      constructor
      · intro h j hj
        cases j with
        | zero => simp at hj
        | succ j =>
          have := h j (by simpa using hj)
          omega
      · intro h j hj
        have := h (j + 1) (by simpa using hj)
        omega
    | some t =>
      rw [rowsFrom_some, List.append_eq_nil_iff, ih]
      constructor
      · rintro ⟨hrow, h⟩ j hj
        cases j with
        | zero =>
          by_contra hn
          simp [launchRow, show 3 ≤ n by omega] at hrow
        | succ j =>
          have := h j (by simpa using hj)
          omega
      · intro h
        have h0 := h 0 (by simp)
        refine ⟨by simp [launchRow, show ¬ 3 ≤ n by omega], fun j hj => ?_⟩
        have := h (j + 1) (by simpa using hj)
        omega

theorem rowsFrom_length {n : ℕ} (hn : 3 ≤ n) (times : List (Option α)) :
    (rowsFrom n times).length = (reported times).length := by
  induction times generalizing n with
  | nil => rfl
  | cons t times ih =>
    cases t with
    | none => rw [rowsFrom_none, reported_none, ih (by omega)]
    | some t => simp [launchRow, hn, ih (show 3 ≤ n + 1 by omega)]

theorem rowsFrom_length_le (n : ℕ) (times : List (Option α)) :
    (rowsFrom n times).length ≤ times.length := by
  rw [rowsFrom, ← List.length_zipIdx (l := times) (i := n)]
  exact List.length_filterMap_le _ _

/-- If launches come out the same with smaller numbers and failures left out, none of them has
a row. -/
theorem rowsFrom_eq_nil_of_shift {n m : ℕ} (hm : m < n) {times : List (Option α)}
    (h : rowsFrom m (reported times) = rowsFrom n times) : rowsFrom n times = [] := by
  induction times generalizing n m with
  | nil => rfl
  | cons t times ih =>
    cases t with
    | none =>
      rw [reported_none, rowsFrom_none] at h
      rw [rowsFrom_none]
      exact ih (by omega) h
    | some t =>
      rw [reported_some, rowsFrom_some, rowsFrom_some] at h
      rcases Nat.lt_or_ge n 3 with hn | hn
      · have hnone : ∀ k, k ≤ n → (launchRow k t).toList = [] := fun k hk => by
          simp [launchRow, show ¬ 3 ≤ k by omega]
        rw [hnone m (Nat.le_of_lt hm), hnone n (Nat.le_refl n)] at h
        rw [rowsFrom_some, hnone n (Nat.le_refl n)]
        exact ih (by omega) h
      · exfalso
        rcases Nat.lt_or_ge m 3 with hm3 | hm3
        · -- The smaller number is that of a warm-up, so a row is missing.
          have hlen := congrArg List.length h
          have hle := rowsFrom_length_le (m + 1) (reported times)
          simp only [launchRow, hn, show ¬ 3 ≤ m by omega, if_true, if_false, Option.toList_none,
            Option.toList_some, List.length_append, List.length_cons, List.length_nil,
            rowsFrom_length (show 3 ≤ n + 1 by omega)] at hlen
          omega
        · -- The first labels differ.
          simp only [launchRow, hn, hm3, if_true, Option.toList_some, List.cons_append,
            List.nil_append, List.cons.injEq, Prod.mk.injEq] at h
          omega

theorem rowsFrom_reported_eq_nil {n m : ℕ} (hm : m ≤ n) {times : List (Option α)}
    (h : rowsFrom n times = []) : rowsFrom m (reported times) = [] := by
  induction times generalizing n m with
  | nil => rfl
  | cons t times ih =>
    cases t with
    | none =>
      rw [rowsFrom_none] at h
      exact ih (by omega) h
    | some t =>
      have hn := rowsFrom_eq_nil_iff.mp h 0 (by simp)
      rw [rowsFrom_some, List.append_eq_nil_iff] at h
      rw [reported_some, rowsFrom_some, ih (n := n + 1) (by omega) h.2]
      simp [launchRow, show ¬ 3 ≤ m by omega]

theorem rowsFrom_reported_iff {n : ℕ} {times : List (Option α)} :
    rowsFrom n (reported times) = rowsFrom n times ↔
      ∀ j, 3 ≤ n + j → (times[j]?.join).isSome → ∀ i < j, (times[i]?.join).isSome := by
  induction times generalizing n with
  | nil => simp
  | cons t times ih =>
    cases t with
    | some t =>
      rw [reported_some, rowsFrom_some, rowsFrom_some, List.append_cancel_left_eq, ih]
      constructor
      · intro h j hj hsome i hi
        cases i with
        | zero => simp
        | succ i =>
          obtain ⟨j, rfl⟩ : ∃ k, j = k + 1 := ⟨j - 1, by omega⟩
          simpa using h j (by omega) (by simpa using hsome) i (by omega)
      · intro h j hj hsome i hi
        simpa using h (j + 1) (by omega) (by simpa using hsome) (i + 1) (by omega)
    | none =>
      have hnil : rowsFrom n (reported times) = rowsFrom (n + 1) times ↔
          rowsFrom (n + 1) times = [] := by
        constructor
        · exact rowsFrom_eq_nil_of_shift (Nat.lt_succ_self n)
        · intro h
          rw [h, rowsFrom_reported_eq_nil (Nat.le_succ n) h]
      rw [reported_none, rowsFrom_none, hnil, rowsFrom_eq_nil_iff]
      constructor
      · intro h j hj hsome i hi
        cases j with
        | zero => omega
        | succ j =>
          have := h j (by simpa using hsome)
          omega
      · intro h j hsome
        by_contra hj
        have := h (j + 1) (by omega) (by simpa using hsome) 0 (by omega)
        simp at this

/-- Numbering only the launches that report a time gives the rows of the run if and only if no
launch that has a row comes after a failed one. -/
theorem expectedRows_reported_iff {times : List (Option α)} :
    expectedRows (reported times) = expectedRows times ↔ NoLaterRow times := by
  rw [expectedRows, expectedRows, rowsFrom_reported_iff, NoLaterRow]
  simp only [Nat.add_comm 1]

theorem noLaterRow_map {β : Type*} (f : α → β) {times : List (Option α)} :
    NoLaterRow (times.map (Option.map f)) ↔ NoLaterRow times := by
  have hsome : ∀ j : ℕ,
      ((times.map (Option.map f))[j]?.join).isSome = (times[j]?.join).isSome := by
    intro j
    rw [List.getElem?_map]
    cases times[j]? with
    | none => rfl
    | some t => cases t <;> rfl
  simp only [NoLaterRow, hsome]

end TpchBench.Boot
