import TpchBench.Image.Cpio
import TpchBench.Text.Substitute

/-! # Manifests of an image

A manifest is a text file that says which file of the host becomes which file of the image. The
build script appends the manifests of the modules, where variables stand for directories, and the
upload reads the result back.
-/

namespace TpchBench.Image

open Python

def separator : Text := ": ".toList

/-- `^[ \t]*(|#.*|\[manifest])$` -/
def isComment (line : Text) : Bool :=
  let rest := line.dropWhile fun c => c = ' ' ∨ c = '\t'
  rest = [] ∨ (rest.head? = some '#' ∧ '\n' ∉ rest) ∨ rest = "[manifest]".toList

/-- The body of the loop of `read_manifest`; a comment gives nothing. -/
def readLine (line : Text) : Except Text (Option (Text × Text)) :=
  let line := rstripSpace line
  if isComment line then .ok none
  else
    match split separator 2 line with
    | guestpath :: hostpath :: _ => .ok (some (strip guestpath, strip hostpath))
    | _ => .error "list index out of range".toList

def readLines : List Text → Except Text (List (Text × Text))
  | [] => .ok []
  | line :: lines => do
    let entry ← readLine line
    let entries ← readLines lines
    .ok (entry.toList ++ entries)

def readManifest (file : Text) : Except Text (List (Text × Text)) := readLines (readlines file)

def entryLine (entry : Text × Text) : Text := entry.1 ++ (separator ++ entry.2)

/-- `as_manifest` of `filemap.py`. -/
def asManifest (entries : List (Text × Text)) : Text :=
  entries.flatMap fun entry => entryLine entry ++ ['\n']

def IsLine (s : Text) : Prop := '\n' ∉ s ∧ '\r' ∉ s

instance (s : Text) : Decidable (IsLine s) := inferInstanceAs (Decidable (_ ∧ _))

/-- The paths that a line of a manifest can hold. -/
structure WellFormed (entry : Text × Text) : Prop where
  isLine : IsLine (entryLine entry)
  guest_strip : strip entry.1 = entry.1
  guest_sep : ¬ separator <:+: entry.1
  guest_comment : entry.1.head? ≠ some '#'
  host_strip : strip entry.2 = entry.2
  host_sep : ¬ separator <:+: entry.2
  host_ne : entry.2 ≠ []

instance (entry : Text × Text) : Decidable (WellFormed entry) :=
  decidable_of_iff (IsLine (entryLine entry) ∧ strip entry.1 = entry.1 ∧
      ¬ separator <:+: entry.1 ∧ entry.1.head? ≠ some '#' ∧ strip entry.2 = entry.2 ∧
      ¬ separator <:+: entry.2 ∧ entry.2 ≠ [])
    ⟨fun ⟨h₀, h₁, h₂, h₃, h₄, h₅, h₆⟩ => ⟨h₀, h₁, h₂, h₃, h₄, h₅, h₆⟩,
      fun ⟨h₀, h₁, h₂, h₃, h₄, h₅, h₆⟩ => ⟨h₀, h₁, h₂, h₃, h₄, h₅, h₆⟩⟩

theorem separator_eq : separator = [':', ' '] := by decide +kernel

theorem separator_ne_nil : separator ≠ [] := by simp [separator_eq]

theorem isComment_of_head {line : Text} (h : line.head? = some '#') (hn : '\n' ∉ line) :
    isComment line := by
  obtain ⟨t, rfl⟩ := List.head?_eq_some_iff.mp h
  have hdrop : ('#' :: t).dropWhile (fun c => c = ' ' ∨ c = '\t') = '#' :: t :=
    List.dropWhile_cons_of_neg (by decide)
  simp only [isComment, hdrop]
  exact decide_eq_true (.inr (.inl ⟨rfl, hn⟩))

theorem entryLine_strip {entry : Text × Text} (h : strip entry.2 = entry.2) (hne : entry.2 ≠ []) :
    rstripSpace (entryLine entry) = entryLine entry := by
  have hhost := rstripSpace_of_strip h
  rw [entryLine, ← List.append_assoc, rstripSpace_append (by rwa [hhost]), hhost]

namespace WellFormed

variable {entry : Text × Text}

theorem not_isComment (h : WellFormed entry) : isComment (entryLine entry) = false := by
  obtain ⟨c, t, hline, hspace, hcomment⟩ : ∃ c t, entryLine entry = c :: t ∧
      Python.isspace c = false ∧ c ≠ '#' := by
    rcases hguest : entry.1 with - | ⟨c, g⟩
    · exact ⟨':', ' ' :: entry.2, by rw [entryLine, hguest, separator_eq]; rfl, by decide⟩
    · refine ⟨c, g ++ (separator ++ entry.2), by rw [entryLine, hguest]; rfl, ?_, ?_⟩
      · have hdrop := dropWhile_of_strip h.guest_strip
        rw [hguest, List.dropWhile_eq_self_iff] at hdrop
        exact Bool.eq_false_iff.mpr (hdrop (by simp))
      · simpa [hguest] using h.guest_comment
  have hblank : (c :: t).dropWhile (fun c => c = ' ' ∨ c = '\t') = c :: t := by
    refine List.dropWhile_cons_of_neg fun hc => ?_
    rcases of_decide_eq_true hc with rfl | rfl
    all_goals exact absurd hspace (by decide)
  simp only [isComment, hline, hblank]
  refine decide_eq_false ?_
  rintro (hnil | ⟨hhead, -⟩ | heq)
  · cases hnil
  · exact hcomment (Option.some.inj hhead)
  · have hmem : ' ' ∈ entryLine entry := by simp [entryLine, separator_eq]
    rw [hline, heq] at hmem
    exact absurd hmem (by decide +kernel)

theorem readLine_eq (h : WellFormed entry) :
    readLine (entryLine entry ++ ['\n']) = .ok (some entry) := by
  have hfirst : ¬ separator <:+: entry.1 ++ separator.dropLast := by
    intro hi
    have hguest := h.guest_sep
    rw [separator_eq] at hi hguest
    rcases List.infix_concat_iff.mp hi with hsuffix | hinfix
    · have hlast := hsuffix.getLast (by simp)
      rw [List.getLast_append_singleton] at hlast
      exact absurd hlast (by decide)
    · exact hguest hinfix
  have hsplit : split separator 2 (entryLine entry) = [entry.1, entry.2] := by
    rw [entryLine, split, partition_append hfirst]
    simp only [split, (partition_eq_none_iff separator_ne_nil).mpr h.host_sep]
  simp only [readLine, rstripSpace_concat_newline, entryLine_strip h.host_strip h.host_ne,
    h.not_isComment, hsplit, h.guest_strip, h.host_strip]
  rfl

end WellFormed

/-- A line that is read as an entry and is not longer than it has to be is the line of the
entry. -/
theorem of_readLine {line : Text} {entry : Text × Text} (hline : IsLine (rstripSpace line))
    (hlen : (rstripSpace line).length ≤ (entryLine entry).length)
    (h : readLine line = .ok (some entry)) :
    rstripSpace line = entryLine entry ∧ WellFormed entry := by
  unfold readLine at h
  dsimp only at h
  split_ifs at h with hcomment
  · cases h
  split at h
  · rename_i x y rest hsplit
    obtain rfl := Option.some.inj (Except.ok.inj h)
    obtain ⟨t, hparts, hfirst, ht⟩ := split_two_eq_some separator_ne_nil hsplit
    have hx := (infix_strip x).length_le
    have hy := (infix_strip y).length_le
    rw [hparts] at hlen
    simp only [entryLine, List.length_append] at hlen
    obtain ⟨rfl, hhost⟩ : t = y ∧ ¬ separator <:+: y := by
      rcases ht with ht | ⟨b, rfl⟩
      · exact ht
      · simp only [separator_eq, List.length_append, List.length_cons] at hlen
        omega
    have hx' : strip x = x := (infix_strip x).eq_of_length_le (by omega)
    have ht' : strip t = t := (infix_strip t).eq_of_length_le (by omega)
    rw [hx', ht']
    refine ⟨hparts, by rwa [hparts] at hline, hx',
      fun hi => hfirst (hi.trans (List.prefix_append _ _).isInfix),
      fun hhead => hcomment ?_, ht', hhost, ?_⟩
    · obtain ⟨x', rfl⟩ := List.head?_eq_some_iff.mp hhead
      exact isComment_of_head (by rw [hparts]; rfl) hline.1
    · rintro rfl
      have hidem : rstripSpace (rstripSpace line) = rstripSpace line :=
        List.rdropWhile_idempotent _ _
      rw [hparts, List.append_nil, separator_eq, rstripSpace, List.rdropWhile_eq_self_iff] at hidem
      exact hidem (by simp) (by simp [Python.isspace, whitespace])
  · cases h

theorem readLines_cons_eq_ok_iff {line : Text} {lines : List Text} {entries : List (Text × Text)} :
    readLines (line :: lines) = .ok entries ↔ ∃ entry rest, readLine line = .ok entry ∧
      readLines lines = .ok rest ∧ entry.toList ++ rest = entries := by
  rw [readLines]
  rcases readLine line with error | entry
  · simp [bind, Except.bind]
  · rcases readLines lines with error | rest
    · simp [bind, Except.bind]
    · simp [bind, Except.bind]

theorem length_readLines_le {lines : List Text} {entries : List (Text × Text)}
    (h : readLines lines = .ok entries) : entries.length ≤ lines.length := by
  induction lines generalizing entries with
  | nil => cases h; rfl
  | cons line lines ih =>
    obtain ⟨entry, rest, -, hrest, rfl⟩ := readLines_cons_eq_ok_iff.mp h
    have hle := ih hrest
    have hentry : entry.toList.length ≤ 1 := by cases entry <;> simp
    rw [List.length_append, List.length_cons]
    omega

theorem readLines_eq_iff {lines : List Text} {entries : List (Text × Text)}
    (hlen : lines.length = entries.length) :
    readLines lines = .ok entries ↔
      List.Forall₂ (fun line entry => readLine line = .ok (some entry)) lines entries := by
  induction lines generalizing entries with
  | nil =>
    obtain rfl := List.length_eq_zero_iff.mp hlen.symm
    simp [readLines]
  | cons line lines ih =>
    obtain ⟨entry, entries, rfl⟩ : ∃ e es, entries = e :: es :=
      List.exists_cons_of_length_pos (by rw [← hlen]; simp)
    have hlen' : lines.length = entries.length := by simpa using hlen
    rw [List.forall₂_cons, ← ih hlen', readLines_cons_eq_ok_iff]
    constructor
    · rintro ⟨- | entry', rest, hline, hrest, heq⟩
      · have hle := length_readLines_le hrest
        rw [Option.toList_none, List.nil_append] at heq
        rw [heq, List.length_cons, ← hlen'] at hle
        omega
      · rw [Option.toList_some, List.singleton_append] at heq
        obtain ⟨rfl, rfl⟩ := List.cons.inj heq
        exact ⟨hline, hrest⟩
    · rintro ⟨hline, hrest⟩
      exact ⟨some entry, entries, hline, hrest, rfl⟩

theorem IsLine.of_infix {s t : Text} (h : IsLine t) (hs : s <:+: t) : IsLine s :=
  ⟨fun hn => h.1 (hs.subset hn), fun hr => h.2 (hs.subset hr)⟩

theorem IsLine.entryLine {entry : Text × Text} (h₁ : IsLine entry.1) (h₂ : IsLine entry.2) :
    IsLine (entryLine entry) := by
  have hsep : IsLine separator := by decide +kernel
  constructor
  · simp [Image.entryLine, h₁.1, hsep.1, h₂.1]
  · simp [Image.entryLine, h₁.2, hsep.2, h₂.2]

theorem isLine_of_mem_readlines {file line : Text} (h : line ∈ readlines file) :
    IsLine (rstripSpace line) := by
  obtain ⟨l, hl, hline⟩ := of_mem_splitLines h
  have hlr : '\r' ∉ line := fun hmem =>
    not_mem_universalNewlines false file ((infix_of_mem_splitLines h).subset hmem)
  have hstrip : rstripSpace line = rstripSpace l := by
    rcases hline with rfl | rfl
    · rfl
    · exact rstripSpace_concat_newline l
  rw [hstrip]
  refine ⟨fun hmem => hl ((prefix_rstripSpace l).subset hmem), fun hmem => hlr ?_⟩
  rcases hline with rfl | rfl
  · exact (prefix_rstripSpace _).subset hmem
  · exact List.mem_append_left _ ((prefix_rstripSpace _).subset hmem)

theorem isLine_of_readLine {line : Text} {entry : Text × Text} (hline : IsLine (rstripSpace line))
    (h : readLine line = .ok (some entry)) : IsLine (entryLine entry) := by
  unfold readLine at h
  dsimp only at h
  split_ifs at h with hcomment
  · cases h
  split at h
  · rename_i x y rest hsplit
    obtain rfl := Option.some.inj (Except.ok.inj h)
    obtain ⟨t, hparts, -, ht⟩ := split_two_eq_some separator_ne_nil hsplit
    rw [hparts] at hline
    have hy : y <:+: x ++ (separator ++ t) := by
      rcases ht with ⟨rfl, -⟩ | ⟨b, rfl⟩
      · exact ⟨x ++ separator, [], by simp⟩
      · exact ⟨x ++ separator, separator ++ b, by simp⟩
    exact .entryLine (hline.of_infix ((infix_strip x).trans (List.prefix_append _ _).isInfix))
      (hline.of_infix ((infix_strip y).trans hy))
  · cases h

theorem isLine_of_readLines {lines : List Text} {entries : List (Text × Text)}
    (hlines : ∀ line ∈ lines, IsLine (rstripSpace line)) (h : readLines lines = .ok entries) :
    ∀ entry ∈ entries, IsLine (entryLine entry) := by
  induction lines generalizing entries with
  | nil => cases h; simp
  | cons line lines ih =>
    obtain ⟨hline, hlines⟩ := List.forall_mem_cons.mp hlines
    obtain ⟨entry, rest, hread, hrest, rfl⟩ := readLines_cons_eq_ok_iff.mp h
    cases entry with
    | none => exact ih hlines hrest
    | some entry =>
      exact List.forall_mem_cons.mpr ⟨isLine_of_readLine hline hread, ih hlines hrest⟩

/-- A manifest is read back as it was written if and only if every line can hold its entry. -/
theorem readManifest_asManifest_iff (entries : List (Text × Text)) :
    readManifest (asManifest entries) = .ok entries ↔ ∀ entry ∈ entries, WellFormed entry := by
  have hlines (h : ∀ entry ∈ entries, IsLine (entryLine entry)) :
      readlines (asManifest entries) = (entries.map entryLine).map (· ++ ['\n']) := by
    have hmap : asManifest entries = (entries.map entryLine).flatMap (· ++ ['\n']) := by
      rw [asManifest, List.flatMap_map]
    rw [hmap]
    exact readlines_lines (List.forall_mem_map.mpr h)
  constructor
  · intro h entry hentry
    have hall := isLine_of_readLines (fun line => isLine_of_mem_readlines) h
    rw [readManifest, hlines hall, readLines_eq_iff (by simp), List.map_map,
      List.forall₂_map_left_iff, List.forall₂_same] at h
    have hline := hall entry hentry
    refine (of_readLine ?_ ?_ (h entry hentry)).2
    all_goals rw [Function.comp_apply, rstripSpace_concat_newline]
    · exact hline.of_infix (prefix_rstripSpace _).isInfix
    · exact (prefix_rstripSpace _).length_le
  · intro h
    rw [readManifest, hlines fun entry hentry => (h entry hentry).isLine,
      readLines_eq_iff (by simp), List.map_map, List.forall₂_map_left_iff, List.forall₂_same]
    exact fun entry hentry => (h entry hentry).readLine_eq

end TpchBench.Image
