import TpchBench.Text.Matcher
import TpchBench.Text.Python
import Mathlib.Data.List.DropRight

/-! # Separators and substitution

`str.split` and `str.replace` of Python look for the leftmost place of a separator, and `re.sub`
replaces the matches of a pattern from left to right.
-/

namespace TpchBench

namespace Python

def rstripSpace (s : Text) : Text := s.rdropWhile isspace

/-- The text before the first place of a separator and the text after it. -/
def partition (sep : Text) : Text → Option (Text × Text)
  | [] => none
  | c :: s =>
    if sep <+: c :: s then some ([], (c :: s).drop sep.length)
    else (partition sep s).map fun p => (c :: p.1, p.2)

def split (sep : Text) : ℕ → Text → List Text
  | 0, s => [s]
  | n + 1, s =>
    match partition sep s with
    | none => [s]
    | some (a, b) => a :: split sep n b

section Partition

variable {sep a b s : Text}

theorem partition_of_not_prefix {c : Char} (h : ¬ sep <+: c :: s) :
    partition sep (c :: s) = (partition sep s).map fun p => (c :: p.1, p.2) := by
  rw [partition, if_neg h]

theorem partition_append (h : ¬ sep <:+: a ++ sep.dropLast) (b : Text) :
    partition sep (a ++ (sep ++ b)) = some (a, b) := by
  have hne : sep ≠ [] := by
    rintro rfl
    exact h (List.nil_infix)
  induction a with
  | nil =>
    obtain ⟨c, sep, rfl⟩ := List.exists_cons_of_ne_nil hne
    rw [List.nil_append, List.cons_append, partition, if_pos ⟨b, List.cons_append⟩]
    simp
  | cons c a ih =>
    have hinit : a ++ (sep ++ b) = a ++ sep.dropLast ++ (sep.getLast hne :: b) := by
      rw [List.append_assoc, ← List.singleton_append, ← List.append_assoc sep.dropLast,
        List.dropLast_append_getLast hne]
    have hpre : ¬ sep <+: c :: (a ++ (sep ++ b)) := by
      intro hp
      rw [hinit, ← List.cons_append] at hp
      refine h (List.IsPrefix.isInfix (List.prefix_of_prefix_length_le hp
        (List.prefix_append _ _) ?_))
      simp only [List.length_cons, List.length_append, List.length_dropLast]
      omega
    rw [List.cons_append, partition_of_not_prefix hpre,
      ih fun hi => h (hi.trans (List.suffix_cons c _).isInfix)]
    rfl

theorem of_partition (hne : sep ≠ []) (h : partition sep s = some (a, b)) :
    s = a ++ (sep ++ b) ∧ ¬ sep <:+: a ++ sep.dropLast := by
  induction s generalizing a with
  | nil => cases h
  | cons c s ih =>
    rw [partition] at h
    split_ifs at h with hp
    · obtain ⟨rfl, rfl⟩ := Prod.mk.inj (Option.some.inj h)
      refine ⟨?_, fun hi => ?_⟩
      · obtain ⟨t, ht⟩ := hp
        rw [← ht, List.drop_left, List.nil_append]
      · have hlen := hi.length_le
        have hpos := List.length_pos_iff.mpr hne
        rw [List.nil_append, List.length_dropLast] at hlen
        omega
    · obtain ⟨⟨a', b'⟩, hs, heq⟩ := Option.map_eq_some_iff.mp h
      obtain ⟨rfl, rfl⟩ := Prod.mk.inj heq
      obtain ⟨rfl, hi⟩ := ih hs
      refine ⟨rfl, fun hc => ?_⟩
      rcases List.infix_cons_iff.mp hc with hpre | hinf
      · refine hp (hpre.trans ?_)
        rw [List.cons_prefix_cons]
        refine ⟨rfl, (List.prefix_append_right_inj a').mpr ?_⟩
        exact (List.dropLast_prefix sep).trans (List.prefix_append _ _)
      · exact hi hinf

theorem partition_eq_none_iff (hne : sep ≠ []) : partition sep s = none ↔ ¬ sep <:+: s := by
  induction s with
  | nil => simp [partition, hne]
  | cons c s ih =>
    rw [partition, List.infix_cons_iff]
    split_ifs with hp
    · simp [hp]
    · simp [hp, ih]

theorem split_two_eq_some (hne : sep ≠ []) {x y : Text} {rest : List Text}
    (h : split sep 2 s = x :: y :: rest) :
    ∃ t, s = x ++ (sep ++ t) ∧ ¬ sep <:+: x ++ sep.dropLast ∧
      (t = y ∧ ¬ sep <:+: y ∨ ∃ b, t = y ++ (sep ++ b)) := by
  unfold split at h
  split at h
  · cases h
  · rename_i a t hs
    obtain ⟨hsplit, hfirst⟩ := of_partition hne hs
    unfold split at h
    split at h
    · rename_i hnone
      cases h
      exact ⟨_, hsplit, hfirst, .inl ⟨rfl, (partition_eq_none_iff hne).mp hnone⟩⟩
    · rename_i b c hsome
      cases h
      exact ⟨_, hsplit, hfirst, .inr ⟨c, (of_partition hne hsome).1⟩⟩

end Partition

section Strip

variable {s : Text}

theorem strip_eq (s : Text) : strip s = rstripSpace (s.dropWhile isspace) := rfl

theorem prefix_rstripSpace (s : Text) : rstripSpace s <+: s := List.rdropWhile_prefix _ s

theorem infix_strip (s : Text) : strip s <:+: s :=
  (prefix_rstripSpace _).isInfix.trans (List.dropWhile_suffix _).isInfix

theorem rstripSpace_of_strip (h : strip s = s) : rstripSpace s = s := by
  rw [← h, strip_eq]
  exact List.rdropWhile_idempotent _ _

theorem dropWhile_of_strip (h : strip s = s) : s.dropWhile isspace = s := by
  have hlen : s.length ≤ (s.dropWhile isspace).length := by
    conv_lhs => rw [← h, strip_eq]
    exact (prefix_rstripSpace _).length_le
  exact (List.dropWhile_suffix _).eq_of_length_le hlen

theorem rstripSpace_append (hs : rstripSpace s ≠ []) (a : Text) :
    rstripSpace (a ++ s) = a ++ rstripSpace s := by
  have hne : ¬ (s.reverse.dropWhile isspace).isEmpty := by
    simpa [rstripSpace, List.rdropWhile] using hs
  rw [rstripSpace, List.rdropWhile, List.reverse_append, List.dropWhile_append, if_neg hne]
  simp [rstripSpace, List.rdropWhile]

theorem rstripSpace_of_append {a : Text} (hne : s ≠ []) (h : rstripSpace (a ++ s) = a ++ s) :
    rstripSpace s = s := by
  rw [rstripSpace, List.rdropWhile_eq_self_iff] at h ⊢
  intro hs
  rw [← List.getLast_append_of_ne_nil (List.append_ne_nil_of_right_ne_nil a hne) hne]
  exact h _

theorem rstripSpace_concat_newline (s : Text) : rstripSpace (s ++ ['\n']) = rstripSpace s :=
  List.rdropWhile_concat_pos _ _ _ (by decide)

theorem not_mem_universalNewlines (b : Bool) (s : Text) : '\r' ∉ universalNewlines b s := by
  induction s generalizing b with
  | nil => simp [universalNewlines]
  | cons c s ih =>
    unfold universalNewlines
    split_ifs with hr hn
    · simpa using ih true
    · exact ih false
    · simpa [Ne.symm hr] using ih false

end Strip

end Python

namespace Matcher

variable {β : Type*}

def star (p : Char → Bool) (k : Text → Text → Option β) (s : Text) : Option β :=
  (plus p k s).or (k [] s)

/-- The match at the beginning of a text or, if there is none, its first character. -/
def piece (m : Text → Option (β × Text)) (s : Text) : Option ((β ⊕ Char) × Text) :=
  match m s, s with
  | some (b, r), _ => some (.inl b, r)
  | none, c :: s => some (.inr c, s)
  | none, [] => none

/-- The matches in a text among the characters that no match takes. -/
def pieces (m : Text → Option (β × Text)) (s : Text) : List (β ⊕ Char) := drainAll (piece m) s

def subPieces {ε : Type*} (resolve : β → Except ε Text) : List (β ⊕ Char) → Except ε Text
  | [] => .ok []
  | .inl b :: rest => do
    let value ← resolve b
    let s ← subPieces resolve rest
    .ok (value ++ s)
  | .inr c :: rest => do
    let s ← subPieces resolve rest
    .ok (c :: s)

/-- `re.sub`, where `resolve` gives the text for a match. -/
def sub {ε : Type*} (m : Text → Option (β × Text)) (resolve : β → Except ε Text) (s : Text) :
    Except ε Text :=
  subPieces resolve (pieces m s)

theorem plus_eq_none {p : Char → Bool} {k : Text → Text → Option β} {s : Text}
    (h : ∀ t r, s = t ++ r → t ≠ [] → (∀ c ∈ t, p c) → k t r = none) : plus p k s = none := by
  by_contra hsome
  obtain ⟨b, hb⟩ := Option.ne_none_iff_exists'.mp hsome
  obtain ⟨t, r, hs, hne, ht, hk⟩ := exists_of_plus hb
  exact absurd ((h t r hs hne ht).symm.trans hk) (by simp)

/-- A run that the continuation accepts is taken if it accepts no longer one. -/
theorem plus_longest {p : Char → Bool} {k : Text → Text → Option β} {run s : Text} {b : β}
    (hne : run ≠ []) (hrun : ∀ c ∈ run, p c) (hk : k run s = some b)
    (hlonger : ∀ t r, s = t ++ r → t ≠ [] → (∀ c ∈ t, p c) → k (run ++ t) r = none) :
    plus p k (run ++ s) = some b := by
  induction run generalizing k with
  | nil => exact absurd rfl hne
  | cons c run ih =>
    obtain ⟨hc, hrun⟩ := List.forall_mem_cons.mp hrun
    simp only [List.cons_append, plus, hc, if_true]
    rcases eq_or_ne run [] with rfl | hne
    · have hstop : plus p (fun t r => k (c :: t) r) s = none := plus_eq_none hlonger
      rw [List.nil_append, hstop, Option.none_or, hk]
    · rw [ih hne hrun hk hlonger, Option.some_or]

theorem star_longest {p : Char → Bool} {k : Text → Text → Option β} {run s : Text} {b : β}
    (hrun : ∀ c ∈ run, p c) (hk : k run s = some b)
    (hlonger : ∀ t r, s = t ++ r → t ≠ [] → (∀ c ∈ t, p c) → k (run ++ t) r = none) :
    star p k (run ++ s) = some b := by
  rcases eq_or_ne run [] with rfl | hne
  · have hstop : plus p k s = none := plus_eq_none hlonger
    rw [List.nil_append, star, hstop, Option.none_or, hk]
  · rw [star, plus_longest hne hrun hk hlonger, Option.some_or]

theorem exists_of_star {p : Char → Bool} {k : Text → Text → Option β} {s : Text} {b : β}
    (h : star p k s = some b) : ∃ run r, s = run ++ r ∧ k run r = some b := by
  rw [star, Option.or_eq_some_iff] at h
  rcases h with h | ⟨-, h⟩
  · obtain ⟨run, r, hs, -, -, hk⟩ := exists_of_plus h
    exact ⟨run, r, hs, hk⟩
  · exact ⟨[], s, rfl, h⟩

variable {m : Text → Option (β × Text)}

theorem piece_consuming (h : Consuming m) : Consuming (piece m) := by
  intro s b r hs
  unfold piece at hs
  split at hs
  · rename_i b' r' hm
    obtain ⟨-, rfl⟩ := Prod.mk.inj (Option.some.inj hs)
    exact h _ _ _ hm
  · obtain ⟨-, rfl⟩ := Prod.mk.inj (Option.some.inj hs)
    exact Nat.lt_succ_self _
  · cases hs

theorem pieces_nil (h : Consuming m) : pieces m [] = [] :=
  drainAll_of_none (piece_consuming h).next_nil

theorem pieces_of_some (h : Consuming m) {s r : Text} {b : β} (hs : m s = some (b, r)) :
    pieces m s = .inl b :: pieces m r :=
  drainAll_of_some (piece_consuming h) (by simp [piece, hs])

theorem pieces_append (h : Consuming m) {a s : Text}
    (ha : ∀ c t, c :: t <:+ a → m (c :: t ++ s) = none) :
    pieces m (a ++ s) = a.map .inr ++ pieces m s := by
  induction a with
  | nil => rfl
  | cons c a ih =>
    have hc : m (c :: (a ++ s)) = none := ha c a (List.suffix_refl _)
    have hcons : pieces m (c :: (a ++ s)) = .inr c :: pieces m (a ++ s) :=
      drainAll_of_some (piece_consuming h) (by simp [piece, hc])
    rw [List.cons_append, hcons, ih fun d t hd => ha d t (hd.trans (List.suffix_cons c a))]
    rfl

theorem subPieces_append {ε : Type*} (resolve : β → Except ε Text) (a : Text)
    (rest : List (β ⊕ Char)) : subPieces resolve (a.map .inr ++ rest) =
      (subPieces resolve rest).map (a ++ ·) := by
  induction a with
  | nil => cases h : subPieces resolve rest <;> simp [h, Except.map]
  | cons c a ih =>
    rw [List.map_cons, List.cons_append, subPieces, ih]
    cases subPieces resolve rest <;> rfl

theorem sub_eq_self {ε : Type*} (h : Consuming m) (resolve : β → Except ε Text) {s : Text}
    (hs : ∀ c t, c :: t <:+ s → m (c :: t) = none) : sub m resolve s = .ok s := by
  have hpieces : pieces m s = s.map .inr ++ [] := by
    rw [← pieces_nil h, ← pieces_append h (by simpa using hs), List.append_nil]
  rw [sub, hpieces, subPieces_append, subPieces]
  exact congrArg Except.ok (List.append_nil s)

/-- A text with one match. -/
theorem sub_of_some {ε : Type*} (h : Consuming m) (resolve : β → Except ε Text) {a s r : Text}
    {b : β} (ha : ∀ c t, c :: t <:+ a → m (c :: t ++ s) = none) (hs : m s = some (b, r))
    (hr : ∀ c t, c :: t <:+ r → m (c :: t) = none) :
    sub m resolve (a ++ s) = (resolve b).map fun value => a ++ (value ++ r) := by
  have hsub : subPieces resolve (pieces m r) = .ok r := sub_eq_self h resolve hr
  rw [sub, pieces_append h ha, subPieces_append, pieces_of_some h hs, subPieces, hsub]
  cases resolve b <;> rfl

end Matcher

def Python.replace (old new s : Text) : Text :=
  (Matcher.pieces (Matcher.lits old fun r => some ((), r)) s).flatMap
    (Sum.elim (fun _ => new) fun c => [c])

namespace Python

variable {old new : Text}

theorem lits_consuming (h : old ≠ []) :
    Consuming (Matcher.lits old fun r => some ((), r)) := by
  intro s b r hs
  obtain ⟨t, rfl, ht⟩ := Matcher.exists_of_lits hs
  obtain ⟨-, rfl⟩ := Prod.mk.inj (Option.some.inj ht)
  have hpos := List.length_pos_iff.mpr h
  rw [List.length_append]
  omega

theorem lits_eq_none {s : Text} (h : ¬ old <+: s) :
    Matcher.lits old (fun r => some ((), r)) s = none := by
  by_contra hsome
  obtain ⟨b, hb⟩ := Option.ne_none_iff_exists'.mp hsome
  obtain ⟨t, rfl, -⟩ := Matcher.exists_of_lits hb
  exact h (List.prefix_append _ _)

theorem replace_eq_self (hne : old ≠ []) {s : Text} (h : ¬ old <:+: s) : replace old new s = s := by
  have hpieces : Matcher.pieces (Matcher.lits old fun r => some ((), r)) (s ++ []) =
      s.map .inr ++ [] := by
    rw [Matcher.pieces_append (lits_consuming hne), Matcher.pieces_nil (lits_consuming hne)]
    refine fun c t ht => lits_eq_none fun hp => h ?_
    rw [List.append_nil] at hp
    exact hp.isInfix.trans ht.isInfix
  rw [List.append_nil, List.append_nil] at hpieces
  rw [replace, hpieces, List.flatMap_map]
  exact List.flatMap_singleton' s

theorem replace_append (hne : old ≠ []) {a b : Text} (ha : ∀ c ∈ a, some c ≠ old.head?)
    (hb : ¬ old <:+: b) : replace old new (a ++ (old ++ b)) = a ++ (new ++ b) := by
  have hpieces : Matcher.pieces (Matcher.lits old fun r => some ((), r)) (a ++ (old ++ b)) =
      a.map .inr ++ .inl () :: Matcher.pieces (Matcher.lits old fun r => some ((), r)) b := by
    rw [Matcher.pieces_append (lits_consuming hne),
      Matcher.pieces_of_some (lits_consuming hne) (Matcher.lits_append _ _ _)]
    refine fun c t ht => lits_eq_none fun hp => ha c (ht.subset List.mem_cons_self) ?_
    obtain ⟨d, old, rfl⟩ := List.exists_cons_of_ne_nil hne
    rw [List.cons_append, List.cons_prefix_cons] at hp
    rw [hp.1, List.head?_cons]
  have hrest : replace old new b = b := replace_eq_self hne hb
  rw [replace] at hrest
  rw [replace, hpieces, List.flatMap_append, List.flatMap_cons, hrest, List.flatMap_map]
  exact congrArg (· ++ (new ++ b)) (List.flatMap_singleton' a)

end Python

end TpchBench
