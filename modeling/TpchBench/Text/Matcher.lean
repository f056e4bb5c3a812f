import TpchBench.Text.Stream

/-! # Backtracking matchers

A regular expression is compiled to a function on the remaining text, with the rest of
the expression as a continuation. Repetitions are greedy and give characters back one
by one, and a search tries the positions of a text from the left.
-/

namespace TpchBench.Matcher

variable {β : Type*}

def lits : Text → (Text → Option β) → Text → Option β
  | [], k, s => k s
  | _ :: _, _, [] => none
  | c :: cs, k, d :: s => if d = c then lits cs k s else none

/-- A character class repeated one or more times; the continuation gets the run. -/
def plus (p : Char → Bool) (k : Text → Text → Option β) : Text → Option β
  | [] => none
  | c :: s => if p c then (plus p (fun t r => k (c :: t) r) s).or (k [c] s) else none

def search (m : Text → Option β) : Text → Option β
  | [] => m []
  | c :: s => (m (c :: s)).or (search m s)

/-- `re.findall`, for a matcher that also returns the text after the match. -/
def findall (m : Text → Option (β × Text)) (s : Text) : List β := drainAll (search m) s

@[simp] theorem lits_append (pat : Text) (k : Text → Option β) (s : Text) :
    lits pat k (pat ++ s) = k s := by
  induction pat with
  | nil => rfl
  | cons c cs ih => simp [lits, ih]

theorem exists_of_lits {pat : Text} {k : Text → Option β} {s : Text} {b : β}
    (h : lits pat k s = some b) : ∃ r, s = pat ++ r ∧ k r = some b := by
  induction pat generalizing s with
  | nil => exact ⟨s, rfl, h⟩
  | cons c cs ih =>
    cases s with
    | nil => simp [lits] at h
    | cons d s =>
      by_cases hd : d = c
      · subst hd
        simp only [lits, if_true] at h
        obtain ⟨r, rfl, hr⟩ := ih h
        exact ⟨r, rfl, hr⟩
      · simp [lits, hd] at h

/-- A run that the next character ends is taken whole if the continuation accepts it. -/
theorem plus_run {p : Char → Bool} {k : Text → Text → Option β} {run s : Text} {b : β}
    (hne : run ≠ []) (hrun : ∀ c ∈ run, p c) (hs : ∀ c ∈ s.head?, p c = false)
    (hk : k run s = some b) : plus p k (run ++ s) = some b := by
  induction run generalizing k with
  | nil => exact absurd rfl hne
  | cons c run ih =>
    obtain ⟨hc, hrun⟩ := List.forall_mem_cons.mp hrun
    simp only [List.cons_append, plus, hc, if_true]
    cases run with
    | nil =>
      have hstop : plus p (fun t r => k (c :: t) r) s = none := by
        cases s with
        | nil => rfl
        | cons d s => simp [plus, hs d (by simp)]
      rw [List.nil_append, hstop, Option.none_or, hk]
    | cons d run => rw [ih (by simp) hrun hk, Option.some_or]

theorem exists_of_plus {p : Char → Bool} {k : Text → Text → Option β} {s : Text} {b : β}
    (h : plus p k s = some b) :
    ∃ run r, s = run ++ r ∧ run ≠ [] ∧ (∀ c ∈ run, p c) ∧ k run r = some b := by
  induction s generalizing k with
  | nil => simp [plus] at h
  | cons c s ih =>
    by_cases hc : p c
    · simp only [plus, hc, if_true, Option.or_eq_some_iff] at h
      rcases h with h | ⟨-, h⟩
      · obtain ⟨run, r, rfl, -, hrun, hk⟩ := ih h
        exact ⟨c :: run, r, rfl, by simp, List.forall_mem_cons.mpr ⟨hc, hrun⟩, hk⟩
      · exact ⟨[c], s, rfl, by simp, by simpa using hc, h⟩
    · simp [plus, hc] at h

theorem isSome_plus {p : Char → Bool} {k : Text → Text → Option β} {run s : Text}
    (hne : run ≠ []) (hrun : ∀ c ∈ run, p c) (hk : (k run s).isSome) :
    (plus p k (run ++ s)).isSome := by
  induction run generalizing k with
  | nil => exact absurd rfl hne
  | cons c run ih =>
    obtain ⟨hc, hrun⟩ := List.forall_mem_cons.mp hrun
    simp only [List.cons_append, plus, hc, if_true, Option.isSome_or, Bool.or_eq_true]
    cases run with
    | nil => exact Or.inr hk
    | cons d run => exact Or.inl (ih (by simp) hrun hk)

theorem search_of_some {m : Text → Option β} {s : Text} {b : β} (h : m s = some b) :
    search m s = some b := by
  cases s <;> simp [search, h]

theorem search_append {m : Text → Option β} {a s : Text}
    (h : ∀ c t, c :: t <:+ a → m (c :: t ++ s) = none) : search m (a ++ s) = search m s := by
  induction a with
  | nil => rfl
  | cons c a ih =>
    have hc : m (c :: a ++ s) = none := h c a (List.suffix_refl _)
    rw [List.cons_append] at hc ⊢
    rw [search, hc, Option.none_or]
    exact ih fun d t hd => h d t (hd.trans (List.suffix_cons c a))

theorem exists_of_search {m : Text → Option β} {s : Text} {b : β} (h : search m s = some b) :
    ∃ t, t <:+ s ∧ m t = some b := by
  induction s with
  | nil => exact ⟨[], List.suffix_refl _, h⟩
  | cons c s ih =>
    rw [search, Option.or_eq_some_iff] at h
    rcases h with h | ⟨-, h⟩
    · exact ⟨c :: s, List.suffix_refl _, h⟩
    · obtain ⟨t, ht, hm⟩ := ih h
      exact ⟨t, ht.trans (List.suffix_cons c s), hm⟩

theorem isSome_search_of_suffix {m : Text → Option β} {s t : Text} (ht : t <:+ s)
    (h : (m t).isSome) : (search m s).isSome := by
  obtain ⟨a, rfl⟩ := ht
  induction a with
  | nil =>
    obtain ⟨b, hb⟩ := Option.isSome_iff_exists.mp h
    rw [List.nil_append, search_of_some hb, Option.isSome_some]
  | cons c a ih => simp [search, ih]

theorem search_consuming {m : Text → Option (β × Text)} (h : Consuming m) :
    Consuming (search m) := by
  intro s b r hs
  obtain ⟨t, ht, hm⟩ := exists_of_search hs
  exact lt_of_lt_of_le (h t b r hm) ht.length_le

theorem findall_of_some {m : Text → Option (β × Text)} (hm : Consuming m) {s r : Text} {b : β}
    (h : m s = some (b, r)) : findall m s = b :: findall m r :=
  drainAll_of_some (search_consuming hm) (search_of_some h)

theorem findall_append {m : Text → Option (β × Text)} (hm : Consuming m) {a s : Text}
    (h : ∀ c t, c :: t <:+ a → m (c :: t ++ s) = none) : findall m (a ++ s) = findall m s := by
  have hs := search_append h
  cases hn : search m s with
  | none => rw [findall, findall, drainAll_of_none hn, drainAll_of_none (hs.trans hn)]
  | some p =>
    rw [findall, findall, drainAll_of_some (search_consuming hm) hn,
      drainAll_of_some (search_consuming hm) (hs.trans hn)]

/-- No match reaches past the character. -/
def StopsAt (c : Char) (m : Text → Option β) : Prop := ∀ t s, m (t ++ c :: s) = m t

theorem stopsAt_lits {c : Char} {pat : Text} {k : Text → Option β} (hc : c ∉ pat)
    (hk : StopsAt c k) : StopsAt c (lits pat k) := by
  induction pat with
  | nil => exact hk
  | cons d pat ih =>
    simp only [List.mem_cons, not_or] at hc
    intro t s
    cases t with
    | nil => simp [lits, hc.1]
    | cons e t => simp [lits, ih hc.2 t s]

theorem stopsAt_plus {c : Char} {p : Char → Bool} {k : Text → Text → Option β} (hc : p c = false)
    (hk : ∀ run, StopsAt c (k run)) : StopsAt c (plus p k) := by
  intro t s
  induction t generalizing k with
  | nil => simp [plus, hc]
  | cons e t ih =>
    have htail := ih (k := fun run r => k (e :: run) r) fun run => hk (e :: run)
    simp only [List.cons_append, plus]
    rw [htail, hk [e] t s]

theorem search_append_stop {c : Char} {m : Text → Option β} (h : StopsAt c m) (hnil : m [] = none)
    (t s : Text) : search m (t ++ c :: s) = (search m t).or (search m (c :: s)) := by
  induction t with
  | nil => simp [search, hnil]
  | cons e t ih =>
    have he : m (e :: t ++ c :: s) = m (e :: t) := h (e :: t) s
    simp only [List.cons_append] at he ⊢
    rw [search, search, he, ih, Option.or_assoc]

end TpchBench.Matcher
