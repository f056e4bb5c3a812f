import Mathlib.Data.Nat.Notation
import Mathlib.Tactic.Common

/-! # Connections with transactions

A connection has durable contents and, inside a transaction, contents of its own that a
commit makes durable. The environment may let any statement fail, with or without rolling
the transaction back. Code on a connection returns at the first failure and never rolls
back itself.
-/

namespace TpchBench.Store

variable {C : Type*}

/-- What happens to a statement: it runs, it fails, or it fails and ends the transaction. -/
inductive Outcome where
  | ok
  | fail
  | failRollback
  deriving DecidableEq, Repr

/-- The durable contents, and those of the open transaction if there is one. -/
structure Conn (C : Type*) where
  durable : C
  pending : Option C

/-- A connection and what will happen to its next statements. -/
structure Session (C : Type*) where
  conn : Conn C
  outcomes : ℕ → Outcome

inductive Stmt (C : Type*) where
  | begin
  | commit
  | rollback
  | update (op : C → Option C)

namespace Conn

def connect (c : C) : Conn C := { durable := c, pending := none }

/-- Closing the connection rolls an open transaction back. -/
def close (conn : Conn C) : C := conn.durable

def rolledBack (conn : Conn C) : Conn C := { conn with pending := none }

/-- A statement that nothing disturbs; `none` is an error, which changes nothing. Outside a
transaction an update is durable at once. -/
def apply (conn : Conn C) : Stmt C → Option (Conn C)
  | .begin =>
    match conn.pending with
    | none => some { conn with pending := some conn.durable }
    | some _ => none
  | .commit => conn.pending.map connect
  | .rollback => conn.pending.map fun _ => conn.rolledBack
  | .update op =>
    match conn.pending with
    | none => (op conn.durable).map connect
    | some c => (op c).map fun c' => { conn with pending := some c' }

end Conn

abbrev Action (C : Type*) := Session C → Bool × Session C

namespace Action

def succeed : Action C := fun s => (true, s)

def fail : Action C := fun s => (false, s)

/-- `if (!a) return 0; b` -/
def andThen (a b : Action C) : Action C := fun s => if (a s).1 then b (a s).2 else a s

/-- A loop that is left at the first failure. -/
def all : List (Action C) → Action C
  | [] => succeed
  | a :: as => andThen a (all as)

def exec (st : Stmt C) : Action C := fun s =>
  let rest := fun n => s.outcomes (n + 1)
  match s.outcomes 0 with
  | .ok =>
    match s.conn.apply st with
    | some conn => (true, ⟨conn, rest⟩)
    | none => (false, ⟨s.conn, rest⟩)
  | .fail => (false, ⟨s.conn, rest⟩)
  | .failRollback => (false, ⟨s.conn.rolledBack, rest⟩)

/-- `BEGIN`, the body, `COMMIT`. -/
def transaction (body : Action C) : Action C :=
  andThen (exec .begin) (andThen body (exec .commit))

end Action

/-- Nothing fails for an outside reason any more. -/
def Session.Undisturbed (s : Session C) : Prop := ∀ n, s.outcomes n = .ok

/-- Inside a transaction the action applies `f` to the pending contents. -/
structure Updates (a : Action C) (f : C → Option C) : Prop where
  durable : ∀ s c, s.conn.pending = some c → (a s).2.conn.durable = s.conn.durable
  effect : ∀ s c, s.conn.pending = some c → (a s).1 = true →
    ∃ c', f c = some c' ∧ (a s).2.conn.pending = some c'
  returns : ∀ s c, s.conn.pending = some c → s.Undisturbed →
    (a s).1 = (f c).isSome ∧ (a s).2.Undisturbed

/-- The action applies `f` to the durable contents and returns 1, or returns 0 and leaves
them as they are. -/
structure Atomic (a : Action C) (f : C → Option C) : Prop where
  effect : ∀ s, (a s).1 = true → f s.conn.durable = some (a s).2.conn.durable
  unchanged : ∀ s, (a s).1 = false → (a s).2.conn.durable = s.conn.durable
  returns : ∀ s, s.conn.pending = none → s.Undisturbed →
    (a s).1 = (f s.conn.durable).isSome

open TpchBench.Store.Action

theorem exec_true {st : Stmt C} {s : Session C} (h : (exec st s).1 = true) :
    s.conn.apply st = some (exec st s).2.conn := by
  unfold exec at h ⊢
  cases ho : s.outcomes 0 with
  | ok => cases ha : s.conn.apply st <;> simp_all
  | fail => simp [ho] at h
  | failRollback => simp [ho] at h

theorem exec_false {st : Stmt C} {s : Session C} (h : (exec st s).1 = false) :
    (exec st s).2.conn.durable = s.conn.durable := by
  unfold exec at h ⊢
  cases ho : s.outcomes 0 with
  | ok => cases ha : s.conn.apply st <;> simp_all
  | fail => rfl
  | failRollback => rfl

theorem exec_undisturbed (st : Stmt C) {s : Session C} (h : s.Undisturbed) :
    (exec st s).1 = (s.conn.apply st).isSome ∧ (exec st s).2.Undisturbed := by
  unfold exec
  rw [h 0]
  cases s.conn.apply st with
  | none => exact ⟨rfl, fun n => h (n + 1)⟩
  | some conn => exact ⟨rfl, fun n => h (n + 1)⟩

theorem updates_succeed : Updates (succeed : Action C) some where
  durable _ _ _ := rfl
  effect _ c hc _ := ⟨c, rfl, hc⟩
  returns _ _ _ hu := ⟨rfl, hu⟩

theorem updates_fail : Updates (fail : Action C) fun _ => none where
  durable _ _ _ := rfl
  effect _ _ _ h := absurd h (by simp [fail])
  returns _ _ _ hu := ⟨rfl, hu⟩

theorem updates_exec (op : C → Option C) : Updates (exec (.update op)) op where
  durable s c hc := by
    cases hb : (exec (.update op) s).1 with
    | false => exact exec_false hb
    | true =>
      have h := exec_true hb
      simp only [Conn.apply, hc, Option.map_eq_some_iff] at h
      obtain ⟨c', -, h⟩ := h
      rw [← h]
  effect s c hc hb := by
    have h := exec_true hb
    simp only [Conn.apply, hc, Option.map_eq_some_iff] at h
    obtain ⟨c', hop, h⟩ := h
    exact ⟨c', hop, by rw [← h]⟩
  returns s c hc hu := by
    obtain ⟨hb, hrest⟩ := exec_undisturbed (.update op) hu
    simp only [Conn.apply, hc, Option.isSome_map] at hb
    exact ⟨hb, hrest⟩

theorem andThen_true {a b : Action C} {s : Session C} (h : (andThen a b s).1 = true) :
    (a s).1 = true ∧ (b (a s).2).1 = true ∧ andThen a b s = b (a s).2 := by
  unfold Action.andThen at h ⊢
  split at h
  · rename_i ha
    exact ⟨ha, h, if_pos ha⟩
  · exact absurd h (by assumption)

theorem andThen_false {a b : Action C} {s : Session C} (h : (andThen a b s).1 = false) :
    (a s).1 = false ∧ andThen a b s = a s ∨
      (a s).1 = true ∧ (b (a s).2).1 = false ∧ andThen a b s = b (a s).2 := by
  unfold Action.andThen at h ⊢
  split at h
  · rename_i ha
    exact Or.inr ⟨ha, h, if_pos ha⟩
  · rename_i ha
    exact Or.inl ⟨h, if_neg ha⟩

theorem Updates.andThen {a b : Action C} {f g : C → Option C} (ha : Updates a f)
    (hb : Updates b g) : Updates (andThen a b) fun c => (f c).bind g where
  durable s c hc := by
    cases h : (Action.andThen a b s).1 with
    | true =>
      obtain ⟨hs, -, heq⟩ := andThen_true h
      obtain ⟨c', -, hc'⟩ := ha.effect s c hc hs
      rw [heq, hb.durable _ c' hc', ha.durable s c hc]
    | false =>
      rcases andThen_false h with ⟨-, heq⟩ | ⟨hs, -, heq⟩
      · rw [heq, ha.durable s c hc]
      · obtain ⟨c', -, hc'⟩ := ha.effect s c hc hs
        rw [heq, hb.durable _ c' hc', ha.durable s c hc]
  effect s c hc h := by
    obtain ⟨hs, h, heq⟩ := andThen_true h
    obtain ⟨c', hf, hc'⟩ := ha.effect s c hc hs
    rw [heq, hf, Option.bind_some]
    exact hb.effect _ c' hc' h
  returns s c hc hu := by
    obtain ⟨hr, hrest⟩ := ha.returns s c hc hu
    unfold Action.andThen
    split
    · rename_i hs
      obtain ⟨c', hf, hc'⟩ := ha.effect s c hc hs
      rw [hf, Option.bind_some]
      exact hb.returns _ c' hc' hrest
    · rename_i hs
      have hf : f c = none := by
        rw [hr, Option.isSome_iff_ne_none, not_not] at hs
        exact hs
      rw [hf] at hr ⊢
      exact ⟨hr, hrest⟩

theorem updates_all {α : Type*} {act : α → Action C} {f : C → α → Option C} (xs : List α)
    (h : ∀ x ∈ xs, Updates (act x) fun c => f c x) :
    Updates (all (xs.map act)) fun c => xs.foldlM f c := by
  induction xs with
  | nil => exact updates_succeed
  | cons x xs ih =>
    obtain ⟨hx, hxs⟩ := List.forall_mem_cons.mp h
    exact hx.andThen (ih hxs)

theorem exec_begin_true {s : Session C} (h : (exec .begin s).1 = true) :
    (exec .begin s).2.conn.durable = s.conn.durable ∧
      (exec .begin s).2.conn.pending = some s.conn.durable := by
  have happ := exec_true h
  cases hp : s.conn.pending with
  | none =>
    simp only [Conn.apply, hp, Option.some.injEq] at happ
    rw [← happ]
    exact ⟨rfl, rfl⟩
  | some c => simp [Conn.apply, hp] at happ

/-- A transaction is atomic. If an earlier one is still open, it fails at `BEGIN`. -/
theorem Updates.transaction {body : Action C} {f : C → Option C} (h : Updates body f) :
    Atomic (transaction body) f where
  effect s hs := by
    obtain ⟨hb, hs, heq⟩ := andThen_true hs
    obtain ⟨-, hpend⟩ := exec_begin_true hb
    obtain ⟨hbody, hc, heq'⟩ := andThen_true hs
    obtain ⟨c, hf, hpend'⟩ := h.effect _ _ hpend hbody
    have hcommit := exec_true hc
    rw [Conn.apply, hpend', Option.map_some, Option.some.injEq] at hcommit
    rw [Action.transaction, heq, heq', hf, ← hcommit]
    rfl
  unchanged s hs := by
    rw [Action.transaction]
    rcases andThen_false hs with ⟨hb, heq⟩ | ⟨hb, hs, heq⟩
    · rw [heq, exec_false hb]
    · obtain ⟨hdur, hpend⟩ := exec_begin_true hb
      rcases andThen_false hs with ⟨-, heq'⟩ | ⟨-, hc, heq'⟩
      · rw [heq, heq', h.durable _ _ hpend, hdur]
      · rw [heq, heq', exec_false hc, h.durable _ _ hpend, hdur]
  returns s hp hu := by
    obtain ⟨hb, hrest⟩ := exec_undisturbed .begin hu
    simp only [Conn.apply, hp, Option.isSome_some] at hb
    obtain ⟨-, hpend⟩ := exec_begin_true hb
    obtain ⟨hbody, hrest'⟩ := h.returns _ _ hpend hrest
    unfold Action.transaction Action.andThen
    rw [if_pos hb]
    split
    · rename_i hs
      obtain ⟨c, hf, hpend'⟩ := h.effect _ _ hpend hs
      have hcommit := (exec_undisturbed .commit hrest').1
      rw [Conn.apply, hpend', Option.map_some, Option.isSome_some] at hcommit
      rw [hcommit, hf, Option.isSome_some]
    · exact hbody

theorem atomic_fail : Atomic (fail : Action C) fun _ => none where
  effect _ h := absurd h (by simp [fail])
  unchanged _ _ := rfl
  returns _ _ _ := rfl

theorem exec_update_auto (op : C → Option C) {s : Session C} (h : s.conn.pending = none) :
    (exec (.update op) s).2.conn.pending = none ∧
      ((exec (.update op) s).1 = true ∧
          op s.conn.durable = some (exec (.update op) s).2.conn.durable ∨
        (exec (.update op) s).1 = false ∧
          (exec (.update op) s).2.conn.durable = s.conn.durable) := by
  cases hb : (exec (.update op) s).1 with
  | true =>
    have happ := exec_true hb
    simp only [Conn.apply, h, Option.map_eq_some_iff] at happ
    obtain ⟨c, hop, hc⟩ := happ
    rw [← hc]
    exact ⟨rfl, Or.inl ⟨rfl, hop⟩⟩
  | false =>
    refine ⟨?_, Or.inr ⟨rfl, exec_false hb⟩⟩
    unfold exec at hb ⊢
    cases ho : s.outcomes 0 with
    | ok => cases ha : s.conn.apply (.update op) <;> simp_all
    | fail => exact h
    | failRollback => rfl

/-- Statements that are durable one by one keep every property that each of them keeps; if
all succeed, all have been applied. -/
theorem all_update_auto {α : Type*} {f : C → α → Option C} {P : C → Prop} (xs : List α)
    (hP : ∀ x ∈ xs, ∀ c c', f c x = some c' → P c → P c') (s : Session C)
    (h : s.conn.pending = none) (hs : P s.conn.durable) :
    (all (xs.map fun x => exec (.update fun c => f c x)) s).2.conn.pending = none ∧
      P (all (xs.map fun x => exec (.update fun c => f c x)) s).2.conn.durable ∧
      ((all (xs.map fun x => exec (.update fun c => f c x)) s).1 = true →
        xs.foldlM f s.conn.durable =
          some (all (xs.map fun x => exec (.update fun c => f c x)) s).2.conn.durable) := by
  induction xs generalizing s with
  | nil => exact ⟨h, hs, fun _ => rfl⟩
  | cons x xs ih =>
    obtain ⟨hx, hxs⟩ := List.forall_mem_cons.mp hP
    obtain ⟨hp, hstep⟩ := exec_update_auto (fun c => f c x) h
    rw [List.map_cons, all, Action.andThen]
    rcases hstep with ⟨hb, hop⟩ | ⟨hb, hdur⟩
    · rw [if_pos hb, List.foldlM_cons, hop]
      exact ih hxs _ hp (hx _ _ hop hs)
    · rw [if_neg (by simp [hb]), hb, hdur]
      exact ⟨hp, hs, by simp⟩

theorem all_exec_undisturbed {α : Type*} (st : α → Stmt C) (xs : List α) {s : Session C}
    (h : s.Undisturbed) : (all (xs.map fun x => exec (st x)) s).2.Undisturbed := by
  induction xs generalizing s with
  | nil => exact h
  | cons x xs ih =>
    have hx := (exec_undisturbed (st x) h).2
    rw [List.map_cons, all, Action.andThen]
    split
    · exact ih hx
    · exact hx

/-- The environment rolls no transaction back. -/
def Session.NoRollback (s : Session C) : Prop := ∀ n, s.outcomes n ≠ .failRollback

/-- The action does not end the transaction in which it runs, unless the environment does. -/
def KeepsOpen (a : Action C) : Prop :=
  ∀ s, s.NoRollback → s.conn.pending.isSome →
    (a s).2.NoRollback ∧ (a s).2.conn.pending.isSome

theorem exec_noRollback (st : Stmt C) {s : Session C} (h : s.NoRollback) :
    (exec st s).2.NoRollback := by
  unfold exec
  cases s.outcomes 0 with
  | ok => cases s.conn.apply st <;> exact fun n => h (n + 1)
  | fail => exact fun n => h (n + 1)
  | failRollback => exact fun n => h (n + 1)

theorem exec_false_conn {st : Stmt C} {s : Session C} (h : s.outcomes 0 ≠ .failRollback)
    (hb : (exec st s).1 = false) : (exec st s).2.conn = s.conn := by
  unfold exec at hb ⊢
  cases ho : s.outcomes 0 with
  | ok => cases ha : s.conn.apply st <;> simp_all
  | fail => rfl
  | failRollback => exact absurd ho h

theorem keepsOpen_succeed : KeepsOpen (succeed : Action C) := fun _ hr hp => ⟨hr, hp⟩

theorem keepsOpen_fail : KeepsOpen (fail : Action C) := fun _ hr hp => ⟨hr, hp⟩

theorem keepsOpen_exec (op : C → Option C) : KeepsOpen (exec (.update op)) := by
  intro s hr hp
  refine ⟨exec_noRollback _ hr, ?_⟩
  cases hb : (exec (.update op) s).1 with
  | false => rwa [exec_false_conn (hr 0) hb]
  | true =>
    obtain ⟨c, hc⟩ := Option.isSome_iff_exists.mp hp
    obtain ⟨c', -, hc'⟩ := (updates_exec op).effect s c hc hb
    rw [hc', Option.isSome_some]

theorem KeepsOpen.andThen {a b : Action C} (ha : KeepsOpen a) (hb : KeepsOpen b) :
    KeepsOpen (andThen a b) := by
  intro s hr hp
  obtain ⟨hr', hp'⟩ := ha s hr hp
  unfold Action.andThen
  split
  · exact hb _ hr' hp'
  · exact ⟨hr', hp'⟩

theorem keepsOpen_all {α : Type*} {act : α → Action C} (xs : List α)
    (h : ∀ x ∈ xs, KeepsOpen (act x)) : KeepsOpen (all (xs.map act)) := by
  induction xs with
  | nil => exact keepsOpen_succeed
  | cons x xs ih =>
    obtain ⟨hx, hxs⟩ := List.forall_mem_cons.mp h
    exact hx.andThen (ih hxs)

theorem KeepsOpen.transaction {body : Action C} (h : KeepsOpen body) {s : Session C}
    (hr : s.NoRollback) (hb : (exec .begin s).1 = true) (hf : (transaction body s).1 = false) :
    (transaction body s).2.NoRollback ∧ (transaction body s).2.conn.pending.isSome := by
  have hopen : (exec .begin s).2.conn.pending.isSome := by
    rw [(exec_begin_true hb).2, Option.isSome_some]
  obtain ⟨hr', hp⟩ := h _ (exec_noRollback _ hr) hopen
  rw [Action.transaction] at hf ⊢
  rcases andThen_false hf with ⟨hb', -⟩ | ⟨-, hf, heq⟩
  · rw [hb] at hb'
    exact absurd hb' (by decide)
  · rw [heq]
    rcases andThen_false hf with ⟨-, heq'⟩ | ⟨-, hc, heq'⟩
    · rw [heq']
      exact ⟨hr', hp⟩
    · rw [heq', exec_false_conn (hr' 0) hc]
      exact ⟨exec_noRollback _ hr', hp⟩

theorem exec_begin_auto {s : Session C} (h : s.conn.pending = none) :
    (exec .begin s).1 = true ↔ s.outcomes 0 = .ok := by
  unfold exec
  cases ho : s.outcomes 0 with
  | ok => simp [Conn.apply, h]
  | fail => simp
  | failRollback => simp

theorem transaction_not_begun {body : Action C} {s : Session C} (h : s.conn.pending = none)
    (hb : s.outcomes 0 ≠ .ok) :
    (transaction body s).1 = false ∧ (transaction body s).2.conn = s.conn := by
  have hf : (exec .begin s).1 = false := by
    rw [← Bool.not_eq_true, exec_begin_auto h]
    exact hb
  have heq : transaction body s = exec .begin s := if_neg (by rw [hf]; decide)
  rw [heq]
  refine ⟨hf, ?_⟩
  unfold exec
  cases ho : s.outcomes 0 with
  | ok => exact absurd ho hb
  | fail => rfl
  | failRollback =>
    cases hs : s.conn with
    | mk durable pending =>
      rw [hs] at h
      exact congrArg (Conn.mk durable) h.symm

/-- Inside a transaction another one cannot begin. -/
theorem transaction_open {body : Action C} {s : Session C} (hr : s.NoRollback)
    (h : s.conn.pending.isSome) :
    (transaction body s).1 = false ∧ (transaction body s).2.NoRollback ∧
      (transaction body s).2.conn = s.conn := by
  have hf : (exec .begin s).1 = false := by
    rw [← Bool.not_eq_true]
    intro hb
    obtain ⟨c, hc⟩ := Option.isSome_iff_exists.mp h
    have happ := exec_true hb
    simp [Conn.apply, hc] at happ
  have heq : transaction body s = exec .begin s := if_neg (by rw [hf]; decide)
  rw [heq]
  exact ⟨hf, exec_noRollback _ hr, exec_false_conn (hr 0) hf⟩

/-- Calls one after the other on one connection, with what each returned. -/
def runCalls : List (Action C) → Session C → List Bool × Session C
  | [], s => ([], s)
  | a :: as, s => ((a s).1 :: (runCalls as (a s).2).1, (runCalls as (a s).2).2)

/-- The durable contents after a sequence of atomic calls are the initial ones changed by
the calls that returned 1, in order. -/
theorem runCalls_durable {α : Type*} {act : α → Action C} {f : α → C → Option C}
    (xs : List α) (h : ∀ x ∈ xs, Atomic (act x) (f x)) (s : Session C) :
    (((xs.zip (runCalls (xs.map act) s).1).filter Prod.snd).map Prod.fst).foldlM
        (fun c x => f x c) s.conn.durable =
      some (runCalls (xs.map act) s).2.conn.durable := by
  induction xs generalizing s with
  | nil => rfl
  | cons x xs ih =>
    obtain ⟨hx, hxs⟩ := List.forall_mem_cons.mp h
    simp only [List.map_cons, runCalls, List.zip_cons_cons]
    cases hb : (act x s).1 with
    | true =>
      rw [List.filter_cons_of_pos rfl, List.map_cons, List.foldlM_cons, hx.effect s hb]
      exact ih hxs (act x s).2
    | false =>
      rw [List.filter_cons_of_neg (by simp), ← hx.unchanged s hb]
      exact ih hxs (act x s).2

def sessionAfter (as : List (Action C)) (i : ℕ) (s : Session C) : Session C :=
  (runCalls (as.take i) s).2

@[simp] theorem sessionAfter_zero (as : List (Action C)) (s : Session C) :
    sessionAfter as 0 s = s := rfl

theorem sessionAfter_succ {as : List (Action C)} {i : ℕ} {a : Action C} (h : as[i]? = some a)
    (s : Session C) : sessionAfter as (i + 1) s = (a (sessionAfter as i s)).2 := by
  induction as generalizing i s with
  | nil => simp at h
  | cons b as ih =>
    cases i with
    | zero =>
      obtain rfl : b = a := by simpa using h
      rfl
    | succ i => exact ih (by simpa using h) (b s).2

theorem runCalls_all_true {as : List (Action C)} {s : Session C}
    (hall : ∀ b ∈ (runCalls as s).1, b = true) {i : ℕ} {a : Action C} (h : as[i]? = some a) :
    (a (sessionAfter as i s)).1 = true := by
  induction as generalizing i s with
  | nil => simp at h
  | cons b as ih =>
    obtain ⟨hb, hall⟩ := List.forall_mem_cons.mp hall
    cases i with
    | zero =>
      obtain rfl : b = a := by simpa using h
      exact hb
    | succ i => exact ih hall (by simpa using h)

end TpchBench.Store
