import Mathlib.Logic.Function.Basic
import Mathlib.Data.List.Induction

/-! # One log for a tree of streams

The streams of a tree share a log. A stream begins as a copy of the stream that it is forked from; `root`, an identifier
of no stream, stands for the empty one. A stream is read back along its path, the streams from which it descends with the
oldest one first: what the head of the path receives is read until the log comes to the fork into the next stream. -/

namespace CapTaint.TreeLog

inductive Record (ι α : Type)
  | fork (parent child : ι)
  | data (id : ι) (bytes : List α)

variable {ι α : Type}

/-- The streams that the log opens. -/
def opened (log : List (Record ι α)) : List ι :=
  log.filterMap fun
    | .fork _ child => some child
    | .data _ _ => none

@[simp] theorem opened_nil : opened ([] : List (Record ι α)) = [] := rfl

@[simp] theorem opened_append (log more : List (Record ι α)) : opened (log ++ more) = opened log ++ opened more :=
  List.filterMap_append

@[simp] theorem opened_fork (parent child : ι) (log : List (Record ι α)) :
    opened (.fork parent child :: log) = child :: opened log := rfl

@[simp] theorem opened_data (id : ι) (bytes : List α) (log : List (Record ι α)) :
    opened (.data id bytes :: log) = opened log := rfl

/-- A fork opens a new stream, from one that is open or from the root, and data goes to an open one. -/
def Admits (root : ι) (log : List (Record ι α)) : Record ι α → Prop
  | .fork parent child => (parent = root ∨ parent ∈ opened log) ∧ child ≠ root ∧ child ∉ opened log
  | .data id _ => id ∈ opened log

inductive Log (root : ι) : List (Record ι α) → Prop
  | nil : Log root []
  | snoc {log : List (Record ι α)} {record : Record ι α} : Log root log → Admits root log record →
      Log root (log ++ [record])

variable {root : ι} {log : List (Record ι α)} {record : Record ι α}

theorem Log.of_snoc (h : Log root (log ++ [record])) : Log root log ∧ Admits root log record := by
  generalize hl : log ++ [record] = l at h
  cases h with
  | nil => exact absurd hl (List.append_ne_nil_of_right_ne_nil _ (List.cons_ne_nil _ _))
  | snoc h hrecord =>
    obtain ⟨rfl, hsingle⟩ := List.append_inj' hl rfl
    obtain rfl := List.singleton_inj.mp hsingle
    exact ⟨h, hrecord⟩

theorem Log.root_not_opened (h : Log root log) : root ∉ opened log := by
  induction h with
  | nil => exact List.not_mem_nil
  | @snoc log record _ hrecord ih =>
    cases record with
    | fork parent child => simpa [ih] using hrecord.2.1.symm
    | data id bytes => simpa using ih

/-- The fork that opens a stream, and the log before it. -/
theorem Log.exists_fork (h : Log root log) {id : ι} (hid : id ∈ opened log) : ∃ before parent after,
    log = before ++ .fork parent id :: after ∧ Log root before ∧ Admits root before (.fork parent id) := by
  induction h with
  | nil => cases hid
  | @snoc log record hlog hrecord ih =>
    by_cases hold : id ∈ opened log
    · obtain ⟨before, parent, after, rfl, hbefore⟩ := ih hold
      exact ⟨before, parent, after ++ [record], by simp, hbefore⟩
    · cases record with
      | fork parent child =>
        obtain rfl : id = child := by simpa [hold] using hid
        exact ⟨log, parent, [], rfl, hlog, hrecord⟩
      | data _ _ => exact absurd (by simpa using hid) hold

section contents
variable [DecidableEq ι]

/-- What a record does to the contents of the streams. -/
def Record.apply (contents : ι → List α) : Record ι α → ι → List α
  | .fork parent child => Function.update contents child (contents parent)
  | .data id bytes => Function.update contents id (contents id ++ bytes)

/-- The contents of each stream after the log. -/
def contents (log : List (Record ι α)) : ι → List α := log.foldl Record.apply fun _ => []

theorem contents_append (log more : List (Record ι α)) :
    contents (log ++ more) = more.foldl Record.apply (contents log) := List.foldl_append

@[simp] theorem contents_snoc (log : List (Record ι α)) (record : Record ι α) :
    contents (log ++ [record]) = record.apply (contents log) := contents_append log [record]

/-- A stream that has not been opened is empty. -/
theorem Log.contents_eq_nil (h : Log root log) {id : ι} (hid : id ∉ opened log) : contents log id = [] := by
  induction h with
  | nil => rfl
  | @snoc log record _ hrecord ih =>
    rw [contents_snoc]
    cases record with
    | fork parent child =>
      simp only [opened_append, opened_fork, opened_nil, List.mem_append, List.mem_singleton, not_or] at hid
      exact (Function.update_of_ne hid.2 _ _).trans (ih hid.1)
    | data i bytes =>
      simp only [opened_append, opened_data, opened_nil, List.append_nil] at hid
      have hne : id ≠ i := fun h => hid (h ▸ hrecord)
      exact (Function.update_of_ne hne _ _).trans (ih hid)

end contents

/-! ### Paths -/

/-- The streams from which `id` descends, and `id` itself at the end. -/
inductive Path (root : ι) : List (Record ι α) → ι → List ι → Prop
  | top {log : List (Record ι α)} {id : ι} : Path root (log ++ [.fork root id]) id [id]
  | child {log : List (Record ι α)} {parent id : ι} {path : List ι} : Path root log parent path →
      Path root (log ++ [.fork parent id]) id (path ++ [id])
  | snoc {log : List (Record ι α)} {record : Record ι α} {id : ι} {path : List ι} : Path root log id path →
      Path root (log ++ [record]) id path

theorem Path.opened {id : ι} {path : List ι} (h : Path root log id path) : id ∈ opened log := by
  induction h with
  | top => simp
  | child => simp
  | snoc _ ih => simp [ih]

theorem Path.ne_nil {id : ι} {path : List ι} (h : Path root log id path) : path ≠ [] := by
  induction h with
  | top => exact List.cons_ne_nil _ _
  | child => exact List.append_ne_nil_of_right_ne_nil _ (List.cons_ne_nil _ _)
  | snoc _ ih => exact ih

theorem Path.append {id : ι} {path : List ι} (h : Path root log id path) (more : List (Record ι α)) :
    Path root (log ++ more) id path := by
  induction more using List.reverseRecOn with
  | nil => rwa [List.append_nil]
  | append_singleton more record ih =>
    rw [← List.append_assoc]
    exact ih.snoc

/-! ### Reading a stream back -/

section follow
variable [DecidableEq ι]

/-- What a record does to the rest of the path and to what has been read. -/
def follow : List ι × List α → Record ι α → List ι × List α
  | (id :: next :: path, out), .fork parent child =>
    if parent = id ∧ child = next then (next :: path, out) else (id :: next :: path, out)
  | (id :: path, out), .data i bytes => if i = id then (id :: path, out ++ bytes) else (id :: path, out)
  | cursor, _ => cursor

/-- The forks into the streams of the path are not in the log, so the path is not left behind its first stream. -/
theorem follow_snoc {path : List ι} (hpath : path ≠ []) {id : ι} (hid : id ∉ opened [record]) (out : List α) :
    (follow (path, out) record).1 ≠ [] ∧
      follow (path ++ [id], out) record = ((follow (path, out) record).1 ++ [id], (follow (path, out) record).2) := by
  match path, record with
  | [i], .fork parent child =>
    have hchild : child ≠ id := by simpa using fun h : child = id => hid (by simp [h])
    simp [follow, hchild]
  | i :: next :: path, .fork parent child =>
    simp only [follow, List.cons_append]
    split <;> simp
  | i :: path, .data i' bytes =>
    simp only [follow, List.cons_append]
    split <;> simp

theorem foldl_follow_snoc {path : List ι} (hpath : path ≠ []) {id : ι} (hid : id ∉ opened log) (out : List α) :
    log.foldl follow (path ++ [id], out) = ((log.foldl follow (path, out)).1 ++ [id], (log.foldl follow (path, out)).2) := by
  induction log generalizing path out with
  | nil => rfl
  | cons record log ih =>
    have hsplit : id ∉ opened [record] ∧ id ∉ opened log := by
      rw [← List.singleton_append, opened_append, List.mem_append, not_or] at hid
      exact hid
    obtain ⟨hne, hrecord⟩ := follow_snoc hpath hsplit.1 out
    rw [List.foldl_cons, List.foldl_cons, hrecord, ih hne hsplit.2]

/-- A stream has no data before it is opened. -/
theorem foldl_follow_single (h : Log root log) {id : ι} (hid : id ∉ opened log) (out : List α) :
    log.foldl follow ([id], out) = ([id], out) := by
  induction h with
  | nil => rfl
  | @snoc log record _ hrecord ih =>
    have hid' : id ∉ opened log := fun h => hid (by simp [h])
    rw [List.foldl_append, ih hid', List.foldl_cons, List.foldl_nil]
    cases record with
    | fork parent child => rfl
    | data i bytes =>
      have hne : i ≠ id := fun h => hid' (h ▸ hrecord)
      simp [follow, hne]

/-- Along its path, a stream is read back as it was written. -/
theorem foldl_follow (h : Log root log) {id : ι} {path : List ι} (hpath : Path root log id path) :
    log.foldl follow (path, []) = ([id], contents log id) := by
  induction hpath with
  | @top log id =>
    obtain ⟨hlog, -, -, hid⟩ := h.of_snoc
    rw [List.foldl_append, foldl_follow_single hlog hid, contents_snoc]
    simp [follow, Record.apply, hlog.contents_eq_nil hlog.root_not_opened]
  | @child log parent id path hpath ih =>
    obtain ⟨hlog, -, -, hid⟩ := h.of_snoc
    rw [List.foldl_append, foldl_follow_snoc hpath.ne_nil hid, ih hlog, contents_snoc]
    simp [follow, Record.apply]
  | @snoc log record id path hpath ih =>
    obtain ⟨hlog, hrecord⟩ := h.of_snoc
    rw [List.foldl_append, ih hlog, contents_snoc]
    cases record with
    | fork parent child =>
      have hne : id ≠ child := fun h => hrecord.2.2 (h ▸ hpath.opened)
      simp [follow, Record.apply, hne]
    | data i bytes =>
      by_cases hi : i = id
      · subst hi
        simp [follow, Record.apply]
      · simp [follow, Record.apply, hi, Ne.symm hi]

end follow

end CapTaint.TreeLog
