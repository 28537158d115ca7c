import CapTaint.Lib.TreeLog
import CapTaint.TreeStream
import Mathlib.Data.Nat.Bitwise

/-! Streams are read back as they were written. -/

namespace CapTaint.TreeStream
open TreeLog TreeStreamWriter

/-! ### Numbers and tags -/

theorem ofBytes_bytes (value : UInt32) :
    ofBytes value.toUInt8 (value >>> 8).toUInt8 (value >>> 16).toUInt8 (value >>> 24).toUInt8 = value := by
  apply UInt32.toNat_inj.mp
  have hvalue := value.toNat_lt
  simp only [ofBytes, UInt32.toNat_add, UInt32.toNat_shiftLeft, UInt8.toNat_toUInt32, UInt32.toNat_toUInt8,
    UInt32.toNat_shiftRight, Nat.shiftRight_eq_div_pow, Nat.shiftLeft_eq, UInt32.reduceToNat, Nat.reduceMod,
    Nat.reducePow]
  omega

theorem toNat_forkBit : forkBit.toNat = 2 ^ 31 := rfl

theorem forkBit_tag (child : UInt32) : (child ||| forkBit) &&& forkBit ≠ 0 := by
  intro h
  have hbit : ((child ||| forkBit) &&& forkBit).toNat.testBit 31 = true := by
    simp only [UInt32.toNat_and, UInt32.toNat_or, toNat_forkBit, Nat.testBit_and, Nat.testBit_or, Nat.testBit_two_pow_self,
      Bool.or_true, Bool.and_true]
  rw [h] at hbit
  exact absurd hbit (by decide)

theorem child_of_tag {child : UInt32} (h : child.toNat < 2 ^ 31) : (child ||| forkBit) ^^^ forkBit = child := by
  apply UInt32.toNat_inj.mp
  rw [UInt32.toNat_xor, UInt32.toNat_or, toNat_forkBit]
  refine Nat.eq_of_testBit_eq fun i => ?_
  simp only [Nat.testBit_xor, Nat.testBit_or, Nat.testBit_two_pow]
  by_cases hi : 31 = i
  · subst hi
    simp [Nat.testBit_eq_false_of_lt h]
  · simp [hi]

theorem size_tag {size : UInt32} (h : size.toNat < 2 ^ 31) : size &&& forkBit = 0 := by
  apply UInt32.toNat_inj.mp
  rw [UInt32.toNat_and, toNat_forkBit, Nat.and_two_pow, Nat.testBit_eq_false_of_lt h]
  rfl

/-! ### Records in a file -/

abbrev Record := TreeLog.Record UInt32 UInt8

def code : Record → List UInt8
  | .fork parent child => bytes parent ++ bytes (child ||| forkBit)
  | .data id s => bytes id ++ bytes (.ofNat s.length) ++ s

/-- The top bit is free for the tag. -/
def Coded : Record → Prop
  | .fork _ child => child.toNat < 2 ^ 31
  | .data _ s => s.length < 2 ^ 31

/-- The entries of `parents` that a log makes. -/
def parents (log : List Record) : List (UInt32 × UInt32) :=
  log.filterMap fun
    | .fork parent child => some (child, parent)
    | .data _ _ => none

@[simp] theorem parents_append (log more : List Record) : parents (log ++ more) = parents log ++ parents more :=
  List.filterMap_append

theorem toNat_size {s : List UInt8} (h : s.length < 2 ^ 31) : (UInt32.ofNat s.length).toNat = s.length :=
  UInt32.toNat_ofNat_of_lt' (h.trans (by decide))

theorem collect_code {record : Record} (h : Coded record) (is : List UInt8) (roots : List UInt32) (out : List UInt8) :
    collect (code record ++ is) roots out = collect is (follow (roots, out) record).1 (follow (roots, out) record).2 := by
  cases record with
  | fork parent child =>
    simp only [code, bytes, List.cons_append, List.nil_append]
    rw [collect]
    simp only [ofBytes_bytes, forkBit_tag, child_of_tag h, ne_eq, not_false_eq_true, if_true]
    rcases roots with _ | ⟨back, _ | ⟨next, roots⟩⟩
    · rfl
    · rfl
    · simp only [follow]
      split <;> rfl
  | data id s =>
    have hsize : (UInt32.ofNat s.length).toNat < 2 ^ 31 := by rwa [toNat_size h]
    simp only [code, bytes, List.cons_append, List.nil_append]
    rw [collect]
    simp only [ofBytes_bytes, size_tag hsize, toNat_size h, ne_eq, not_true_eq_false, if_false, List.drop_left,
      List.take_left, List.length_append]
    have hpad : s.length - (s.length + is.length) = 0 := by omega
    rw [hpad, List.replicate_zero, List.append_nil]
    rcases roots with _ | ⟨back, roots⟩
    · simp [follow]
    · by_cases hid : id = back
      · simp [follow, hid]
      · simp [follow, hid, Ne.symm hid]

theorem collect_log {log : List Record} (h : ∀ record ∈ log, Coded record) (roots : List UInt32) (out : List UInt8) :
    collect (log.flatMap code) roots out = (log.foldl follow (roots, out)).2 := by
  induction log generalizing roots out with
  | nil =>
    rw [List.flatMap_nil, collect]
    · rfl
    · intro _ _ _ _ _ _ _ _ _ h
      cases h
  | cons record log ih =>
    rw [List.flatMap_cons, collect_code (h record List.mem_cons_self), ih fun r hr => h r (List.mem_cons_of_mem _ hr)]
    rfl

theorem findChain_code {record : Record} (h : Coded record) {streamID : UInt32} (hnew : streamID ∉ opened [record])
    (is : List UInt8) (found : List (UInt32 × UInt32)) :
    findChain streamID (code record ++ is) found = findChain streamID is (found ++ parents [record]) := by
  cases record with
  | fork parent child =>
    have hchild : child ≠ streamID := fun h => hnew (by simp [h])
    simp only [code, bytes, List.cons_append, List.nil_append]
    rw [findChain]
    simp only [ofBytes_bytes, forkBit_tag, child_of_tag h, hchild, ne_eq, not_false_eq_true, if_true, if_false]
    rfl
  | data id s =>
    have hsize : (UInt32.ofNat s.length).toNat < 2 ^ 31 := by rwa [toNat_size h]
    simp only [code, bytes, List.cons_append, List.nil_append]
    rw [findChain]
    simp only [ofBytes_bytes, size_tag hsize, toNat_size h, ne_eq, not_true_eq_false, if_false, List.drop_left, parents,
      List.filterMap_cons, List.filterMap_nil, List.append_nil]

theorem findChain_log {log : List Record} (h : ∀ record ∈ log, Coded record) {streamID : UInt32}
    (hnew : streamID ∉ opened log) (is : List UInt8) (found : List (UInt32 × UInt32)) :
    findChain streamID (log.flatMap code ++ is) found = findChain streamID is (found ++ parents log) := by
  induction log generalizing found with
  | nil => rw [List.flatMap_nil, List.nil_append]; simp [parents]
  | cons record log ih =>
    rw [← List.singleton_append, opened_append, List.mem_append, not_or] at hnew
    rw [List.flatMap_cons, List.append_assoc, findChain_code (h record List.mem_cons_self) hnew.1,
      ih (fun r hr => h r (List.mem_cons_of_mem _ hr)) hnew.2, List.append_assoc, ← parents_append, List.singleton_append]

/-! ### Paths -/

theorem lookup_parents {log : List Record} {child : UInt32} (hnew : child ∉ opened log) (parent : UInt32)
    (more : List (UInt32 × UInt32)) : (parents log ++ (child, parent) :: more).lookup child = some parent := by
  induction log with
  | nil => simp [parents]
  | cons record log ih =>
    rw [← List.singleton_append, opened_append, List.mem_append, not_or] at hnew
    rw [← List.singleton_append, parents_append]
    cases record with
    | fork p c =>
      have hc : (child == c) = false := by simpa using fun h : child = c => hnew.1 (by simp [h])
      simpa [parents, List.lookup_cons, hc] using ih hnew.2
    | data id s => simpa [parents] using ih hnew.2

/-- The loop over the parents finds the path of an open stream, in fewer rounds than there are forks. -/
theorem findRoots_path {log : List Record} (h : Log 0 log) {id : UInt32} (hid : id ∈ opened log) :
    ∃ path, Path 0 log id path ∧ ∀ more fuel roots, (parents log).length ≤ fuel →
      findRoots (parents log ++ more) fuel id roots = .ok (path ++ roots) := by
  induction h generalizing id with
  | nil => cases hid
  | @snoc log record hlog hrecord ih =>
    cases record with
    | data i s =>
      obtain ⟨path, hpath, hroots⟩ := ih (by simpa using hid)
      refine ⟨path, hpath.snoc, ?_⟩
      simpa [parents] using hroots
    | fork parent child =>
      obtain ⟨hparent, hchild, hnew⟩ := hrecord
      have hstep : ∀ more, parents (log ++ [.fork parent child]) ++ more = parents log ++ (child, parent) :: more := by
        simp [parents]
      by_cases hold : id ∈ opened log
      · obtain ⟨path, hpath, hroots⟩ := ih hold
        refine ⟨path, hpath.snoc, fun more fuel roots hfuel => ?_⟩
        rw [hstep]
        exact hroots _ fuel roots (by simp [parents] at hfuel ⊢; omega)
      · obtain rfl : id = child := by simpa [hold] using hid
        have hround : ∀ more fuel roots, (parents (log ++ [.fork parent id])).length ≤ fuel →
            ∃ less, (parents log).length ≤ less ∧ findRoots (parents (log ++ [.fork parent id]) ++ more) fuel id roots =
              findRoots (parents log ++ (id, parent) :: more) less parent (id :: roots) := by
          intro more fuel roots hfuel
          obtain ⟨less, rfl⟩ : ∃ less, fuel = less + 1 := ⟨fuel - 1, by simp [parents] at hfuel; omega⟩
          refine ⟨less, by simp [parents] at hfuel ⊢; omega, ?_⟩
          rw [findRoots, if_neg hchild, hstep, lookup_parents hnew]
        rcases hparent with rfl | hparent
        · refine ⟨[id], .top, fun more fuel roots hfuel => ?_⟩
          obtain ⟨less, -, hless⟩ := hround more fuel roots hfuel
          rw [hless]
          cases less <;> simp [findRoots]
        · obtain ⟨path, hpath, hroots⟩ := ih hparent
          refine ⟨path ++ [id], hpath.child, fun more fuel roots hfuel => ?_⟩
          obtain ⟨less, hle, hless⟩ := hround more fuel roots hfuel
          rw [hless, hroots _ less _ hle, List.append_assoc, List.singleton_append]

/-- The first loop of `readStream` finds the path of the stream. -/
theorem findChain_path {log : List Record} (h : Log 0 log) (hcoded : ∀ record ∈ log, Coded record) {id : UInt32}
    (hid : id ∈ opened log) : ∃ path, Path 0 log id path ∧ findChain id (log.flatMap code) [] = .ok path := by
  obtain ⟨before, parent, after, rfl, hbefore, hparent, -, hnew⟩ := h.exists_fork hid
  have hchild : id.toNat < 2 ^ 31 := hcoded (.fork parent id) (by simp)
  have hfound : findChain id ((before ++ .fork parent id :: after).flatMap code) [] =
      findRoots (parents before) ((parents before).length + 1) parent [id] := by
    rw [List.flatMap_append, List.flatMap_cons,
      findChain_log (fun record hrecord => hcoded record (List.mem_append_left _ hrecord)) hnew]
    simp only [code, bytes, List.cons_append, List.nil_append]
    rw [findChain]
    simp only [ofBytes_bytes, forkBit_tag, child_of_tag hchild, ne_eq, not_false_eq_true, if_true]
  rw [hfound]
  rw [← List.singleton_append, ← List.append_assoc]
  rcases hparent with rfl | hparent
  · exact ⟨[id], Path.top.append _, by simp [findRoots]⟩
  · obtain ⟨path, hpath, hroots⟩ := findRoots_path hbefore hparent
    have hwalk := hroots [] ((parents before).length + 1) [id] (Nat.le_succ _)
    rw [List.append_nil] at hwalk
    exact ⟨path ++ [id], hpath.child.append _, hwalk⟩

/-! ### The writer -/

/-- The identifiers that have been given when the next one is `ids`. -/
def Opened (ids id : UInt32) : Prop := 0 < id.toNat ∧ id.toNat < ids.toNat

/-- The file of the writer, with what is in the buffer, holds `written`. -/
structure Keeps (w : TreeStreamWriter) (log : List Record) (written : UInt32 → List UInt8) : Prop where
  output : w.output = log.flatMap code
  coded : ∀ record ∈ log, Coded record
  admitted : Log 0 log
  ids : ∀ id, id ∈ opened log ↔ Opened w.ids id
  few : w.ids.toNat ≤ 2 ^ 31
  pos : 0 < w.ids.toNat
  last : w.bufferCount ≠ 0 → w.lastID ∈ opened log
  contents : (Record.data w.lastID (w.buffer.val.take w.bufferCount)).apply (contents log) = written

variable {w : TreeStreamWriter} {log : List Record} {written : UInt32 → List UInt8}

theorem flushBuffer_of_flushed (hflushed : w.bufferCount = 0) : w.flushBuffer = w := if_neg fun hne => hne hflushed

theorem Keeps.contents_of_flushed (h : Keeps w log written) (hflushed : w.bufferCount = 0) : TreeLog.contents log = written := by
  have hcontents := h.contents
  rw [hflushed, List.take_zero] at hcontents
  simpa only [Record.apply, List.append_nil, Function.update_eq_self] using hcontents

/-- A stream of a flushed writer is read as it was written. -/
theorem Keeps.readStream (h : Keeps w log written)
    (hflushed : w.bufferCount = 0) {id : UInt32} (hid : Opened w.ids id) :
    w.readStream id [] = .ok (written id) := by
  obtain ⟨path, hpath, hchain⟩ := findChain_path h.admitted h.coded ((h.ids id).mpr hid)
  have hrange : 0 < id ∧ id < w.ids := hid
  have hflush : w.flush = w := flushBuffer_of_flushed hflushed
  simp only [TreeStreamWriter.readStream, hrange, and_self, not_true_eq_false, if_false, hflush, h.output, hchain, bind,
    Except.bind, pure, Except.pure]
  rw [collect_log h.coded, foldl_follow h.admitted hpath, h.contents_of_flushed hflushed]

/-- `readStream` flushes. -/
theorem readStream_flush (w : TreeStreamWriter) (streamID : UInt32) (out : List UInt8) :
    w.flush.readStream streamID out = w.readStream streamID out := by
  have hids : w.flush.ids = w.ids := by
    unfold flush TreeStreamWriter.flushBuffer
    split <;> rfl
  have hflush : w.flush.flush = w.flush := by
    refine flushBuffer_of_flushed ?_
    unfold flush TreeStreamWriter.flushBuffer
    split
    · rfl
    · rename_i hcount
      exact not_not.mp hcount
  simp only [TreeStreamWriter.readStream, hids, hflush]

theorem keeps_new (buffer : List.Vector UInt8 bufferSize) : Keeps (new buffer) [] fun _ => [] where
  output := rfl
  coded := by simp
  admitted := .nil
  ids id := by
    simp only [opened_nil, List.not_mem_nil, false_iff]
    rintro ⟨hpos, hlt⟩
    have hone : (new buffer).ids.toNat = 1 := rfl
    omega
  few := by simp [new]
  pos := by simp [new]
  last h := absurd rfl h
  contents := by
    funext id
    simp [Record.apply, new, TreeLog.contents]

/-- What is in the buffer becomes a record. -/
theorem Keeps.flushBuffer (h : Keeps w log written) :
    ∃ log, Keeps w.flushBuffer log written ∧ w.flushBuffer.bufferCount = 0 ∧ w.flushBuffer.ids = w.ids := by
  by_cases hcount : w.bufferCount = 0
  · rw [flushBuffer_of_flushed hcount]
    exact ⟨log, h, hcount, rfl⟩
  · simp only [TreeStreamWriter.flushBuffer, hcount, ne_eq, not_false_eq_true, if_true]
    have hlength : (w.buffer.val.take w.bufferCount).length = w.bufferCount := by
      rw [List.length_take, w.buffer.2]
      exact Nat.min_eq_left w.bufferCount_le
    refine ⟨log ++ [.data w.lastID (w.buffer.val.take w.bufferCount)], ⟨?_, ?_, ?_, ?_, h.few, h.pos, ?_, ?_⟩, ?_⟩
    · simp [h.output, code, hlength]
    · intro record hrecord
      rcases List.mem_append.mp hrecord with hrecord | hrecord
      · exact h.coded record hrecord
      · rw [List.mem_singleton.mp hrecord]
        have hsize : bufferSize < 2 ^ 31 := by decide
        exact (hlength.trans_le w.bufferCount_le).trans_lt hsize
    · exact h.admitted.snoc (h.last hcount)
    · simpa using h.ids
    · exact fun hne => absurd rfl hne
    · rw [contents_snoc, h.contents, List.take_zero]
      simp [Record.apply]
    · simp

/-- `os` is a stream of the writer, or 0 for the root. -/
theorem Keeps.openFrom (h : Keeps w log written) {os : UInt32} (hos : os = 0 ∨ Opened w.ids os)
    (hids : w.ids.toNat < 2 ^ 31) :
    ∃ log, Keeps (w.openFrom os) log ((Record.fork os w.ids).apply written) := by
  obtain ⟨log, h, hflushed, hsame⟩ := h.flushBuffer
  rw [← hsame] at hos hids ⊢
  have hnext : (w.flushBuffer.ids + 1).toNat = w.flushBuffer.ids.toNat + 1 := by
    rw [UInt32.toNat_add]
    exact Nat.mod_eq_of_lt (by simp; omega)
  have hchild : w.flushBuffer.ids ≠ 0 := fun hzero => absurd h.pos (by simp [hzero])
  have hnew : w.flushBuffer.ids ∉ opened log := fun hmem => absurd ((h.ids _).mp hmem).2 (Nat.lt_irrefl _)
  refine ⟨log ++ [.fork os w.flushBuffer.ids], ⟨?_, ?_, ?_, ?_, ?_, ?_, ?_, ?_⟩⟩
  · simp [TreeStreamWriter.openFrom, h.output, code]
  · intro record hrecord
    rcases List.mem_append.mp hrecord with hrecord | hrecord
    · exact h.coded record hrecord
    · rw [List.mem_singleton.mp hrecord]
      exact hids
  · exact h.admitted.snoc ⟨hos.imp_right (h.ids os).mpr, hchild, hnew⟩
  · intro id
    simp only [opened_append, opened_fork, opened_nil, List.mem_append, List.mem_singleton, h.ids, Opened,
      TreeStreamWriter.openFrom, hnext, ← UInt32.toNat_inj]
    have hpos := h.pos
    omega
  · simp only [TreeStreamWriter.openFrom, hnext]
    omega
  · simp only [TreeStreamWriter.openFrom, hnext]
    omega
  · exact fun hne => absurd hflushed hne
  · rw [contents_snoc, h.contents_of_flushed hflushed]
    simp [TreeStreamWriter.openFrom, hflushed, Record.apply]

/-- `memcpy` behind what is in the buffer, for the stream of the buffer. -/
theorem Keeps.append (h : Keeps w log written) (hlast : w.lastID ∈ opened log) {s : List UInt8}
    (hfits : w.bufferCount + s.length ≤ bufferSize) :
    ∃ w', w.append s = .ok w' ∧ w'.ids = w.ids ∧ Keeps w' log ((Record.data w.lastID s).apply written) := by
  simp only [TreeStreamWriter.append, hfits, dif_pos]
  refine ⟨_, rfl, rfl, ⟨h.output, h.coded, h.admitted, h.ids, h.few, h.pos, fun _ => hlast, ?_⟩⟩
  have htake : (w.buffer.val.take w.bufferCount).length = w.bufferCount := by
    rw [List.length_take, w.buffer.2]
    exact Nat.min_eq_left w.bufferCount_le
  have hbytes : (w.buffer.val.take w.bufferCount ++ s ++ w.buffer.val.drop (w.bufferCount + s.length)).take
      (w.bufferCount + s.length) = w.buffer.val.take w.bufferCount ++ s := by
    rw [List.take_left' (by rw [List.length_append, htake])]
  rw [← h.contents, hbytes]
  simp [Record.apply]

/-- After the flush the buffer is empty, or it belongs to the stream and has room. -/
theorem Keeps.makeRoom (h : Keeps w log written) (os : UInt32) {size : Nat} (hsize : size ≤ bufferSize) :
    ∃ log, Keeps (w.makeRoom os size) log written ∧ (w.makeRoom os size).ids = w.ids ∧
      ((w.makeRoom os size).bufferCount ≠ 0 →
        (w.makeRoom os size).lastID = os ∧ (w.makeRoom os size).bufferCount + size ≤ bufferSize) := by
  have hsum : (size + w.bufferCount) % 2 ^ 32 = size + w.bufferCount :=
    Nat.mod_eq_of_lt (by have := w.bufferCount_le; simp only [bufferSize] at *; omega)
  unfold TreeStreamWriter.makeRoom
  rw [hsum]
  split
  · obtain ⟨log, hkeeps, hflushed, hids⟩ := h.flushBuffer
    exact ⟨log, hkeeps, hids, fun hne => absurd hflushed hne⟩
  · rename_i hroom
    refine ⟨log, h, rfl, fun hne => ?_⟩
    obtain ⟨hos, hfits⟩ := not_or.mp fun hc => hroom ⟨hne, hc⟩
    exact ⟨(not_not.mp hos).symm, by omega⟩

/-- A write that is smaller than the buffer. -/
theorem Keeps.write (h : Keeps w log written) {os : UInt32} (hos : Opened w.ids os) {s : List UInt8}
    (hs : s.length < bufferSize) : ∃ w', w.write os s = .ok w' ∧ w'.ids = w.ids ∧
      ∃ log, Keeps w' log ((Record.data os s).apply written) := by
  have hsmall : bufferSize < 2 ^ 31 := by decide
  have hsize : (UInt32.ofNat s.length).toNat = s.length := toNat_size (hs.trans hsmall)
  obtain ⟨log, h, hids, hroom⟩ := h.makeRoom os hs.le
  rw [← hids] at hos ⊢
  simp only [TreeStreamWriter.write, hsize, List.take_length]
  by_cases hcount : (w.makeRoom os s.length).bufferCount = 0
  · rw [if_neg (not_not.mpr hcount), if_pos hs]
    have hother : Keeps { w.makeRoom os s.length with lastID := os } log written :=
      ⟨h.output, h.coded, h.admitted, h.ids, h.few, h.pos, fun hne => absurd hcount hne, by
        rw [← h.contents_of_flushed hcount]
        simp [Record.apply, hcount]⟩
    have hfits : (w.makeRoom os s.length).bufferCount + s.length ≤ bufferSize := by omega
    obtain ⟨w', hw', hsame, hafter⟩ := hother.append ((h.ids os).mpr hos) hfits
    exact ⟨w', hw', hsame, log, hafter⟩
  · obtain ⟨hlast, hfits⟩ := hroom hcount
    rw [if_pos hcount]
    obtain ⟨w', hw', hsame, hafter⟩ := h.append (h.last hcount) hfits
    rw [hlast] at hafter
    exact ⟨w', hw', hsame, log, hafter⟩

/-! ### Runs -/

/-- A call through the handles of the streams, which carry their identifiers. -/
inductive Op where
  | openNew
  | openFrom (os : UInt32)
  | write (os : UInt32) (s : List UInt8)
  | flush

def step (w : TreeStreamWriter) : Op → Except Fault TreeStreamWriter
  | .openNew => .ok w.openNew
  | .openFrom os => .ok (w.openFrom os)
  | .write os s => w.write os s
  | .flush => .ok w.flush

def run (w : TreeStreamWriter) (ops : List Op) : Except Fault TreeStreamWriter := ops.foldlM step w

/-- The next identifier after the call. -/
def Op.next (ids : UInt32) : Op → UInt32
  | .openNew | .openFrom _ => ids + 1
  | .write _ _ | .flush => ids

/-- The call uses the handle of a stream that has been opened. -/
def Op.Valid (ids : UInt32) : Op → Prop
  | .openFrom os | .write os _ => Opened ids os
  | .openNew | .flush => True

/-- A write is smaller than the buffer, and the identifier of a new stream leaves the top bit free. -/
def Op.Small (ids : UInt32) : Op → Prop
  | .write _ s => s.length < bufferSize
  | .openNew | .openFrom _ => ids.toNat < 2 ^ 31
  | .flush => True

/-- `P` holds of each call and of the next identifier before it. -/
def Along (P : UInt32 → Op → Prop) : UInt32 → List Op → Prop
  | _, [] => True
  | ids, op :: ops => P ids op ∧ Along P (op.next ids) ops

/-- What the calls do to the streams: a stream that is opened from another one begins with the bytes written to that one
    so far, among them those of its ancestors before their forks. -/
def Op.apply (ids : UInt32) (written : UInt32 → List UInt8) : Op → UInt32 → List UInt8
  | .openNew => Function.update written ids (written 0)
  | .openFrom os => Function.update written ids (written os)
  | .write os s => Function.update written os (written os ++ s)
  | .flush => written

def writtenBy : UInt32 → (UInt32 → List UInt8) → List Op → UInt32 → List UInt8
  | _, streams, [] => streams
  | ids, streams, op :: ops => writtenBy (op.next ids) (op.apply ids streams) ops

theorem Keeps.step (h : Keeps w log written) {op : Op} (hvalid : op.Valid w.ids) (hsmall : op.Small w.ids) :
    ∃ w', step w op = .ok w' ∧ w'.ids = op.next w.ids ∧ ∃ log, Keeps w' log (op.apply w.ids written) := by
  have hflush : w.flushBuffer.ids = w.ids := by
    obtain ⟨-, -, -, hids⟩ := h.flushBuffer
    exact hids
  cases op with
  | openNew => exact ⟨_, rfl, congrArg (· + 1) hflush, h.openFrom (.inl rfl) hsmall⟩
  | openFrom os => exact ⟨_, rfl, congrArg (· + 1) hflush, h.openFrom (.inr hvalid) hsmall⟩
  | write os s => exact h.write hvalid hsmall
  | flush =>
    obtain ⟨log, hkeeps, -, hids⟩ := h.flushBuffer
    exact ⟨_, rfl, hids, log, hkeeps⟩

theorem Keeps.run {ops : List Op} : ∀ {w : TreeStreamWriter} {log : List Record} {streams : UInt32 → List UInt8},
    Keeps w log streams → Along Op.Valid w.ids ops → Along Op.Small w.ids ops →
      ∃ w', run w ops = .ok w' ∧ ∃ log, Keeps w' log (writtenBy w.ids streams ops) := by
  induction ops with
  | nil => exact fun h _ _ => ⟨_, rfl, _, h⟩
  | cons op ops ih =>
    intro w log streams h hvalid hsmall
    obtain ⟨w', hw', hids, log', hkeeps⟩ := h.step hvalid.1 hsmall.1
    obtain ⟨w'', hrun, hafter⟩ := ih hkeeps (hids ▸ hvalid.2) (hids ▸ hsmall.2)
    refine ⟨w'', ?_, ?_⟩
    · simp only [TreeStream.run, List.foldlM_cons, hw', bind, Except.bind]
      exact hrun
    · rwa [hids] at hafter

/-- The calls succeed, and reading any of the streams gives the bytes written to it. -/
def ReadsBack (buffer : List.Vector UInt8 bufferSize) (ops : List Op) : Prop :=
  ∃ w, run (new buffer) ops = .ok w ∧
    ∀ id, 0 < id → id < w.ids → w.readStream id [] = .ok (writtenBy 1 (fun _ => []) ops id)

/-- Streams are read back as they were written if every write is smaller than the buffer and the
    identifiers stay below the tag's bit. -/
theorem readStream_written (buffer : List.Vector UInt8 bufferSize) {ops : List Op} (hvalid : Along Op.Valid 1 ops)
    (hsmall : Along Op.Small 1 ops) : ReadsBack buffer ops := by
  obtain ⟨w, hrun, log, h⟩ := (keeps_new buffer).run hvalid hsmall
  refine ⟨w, hrun, fun id hpos hlt => ?_⟩
  obtain ⟨log', hflush, hflushed, hids⟩ := h.flushBuffer
  have hopened : Opened w.flush.ids id := by
    rw [TreeStreamWriter.flush, hids]
    exact ⟨hpos, hlt⟩
  rw [← readStream_flush]
  exact hflush.readStream hflushed hopened

/-- A stream, one forked from it between two writes, and a write to that one. -/
theorem readStream_written_fork : ReadsBack (List.Vector.replicate bufferSize 0)
    [.openNew, .write 1 [1, 2], .openFrom 1, .write 1 [3], .write 2 [4]] := by
  have hsmall : ∀ n, n < 3 → n < bufferSize := fun n hn => hn.trans (by decide)
  refine readStream_written _ ⟨trivial, ⟨by decide, by decide⟩, ⟨by decide, by decide⟩, ⟨by decide, by decide⟩,
    ⟨by decide, by decide⟩, trivial⟩ ⟨?_, ?_, ?_, ?_, ?_, trivial⟩
  · exact (by decide : (1 : UInt32).toNat < 2 ^ 31)
  · exact hsmall 2 (by decide)
  · exact (by decide : (2 : UInt32).toNat < 2 ^ 31)
  · exact hsmall 1 (by decide)
  · exact hsmall 1 (by decide)

/-! ### A write of the buffer's size -/

/-- A write as large as the buffer appends what the buffer holds, whatever it is given. -/
theorem Keeps.write_bufferSize (h : Keeps w log written) {os : UInt32} (hos : Opened w.ids os) {s : List UInt8}
    (hs : s.length = bufferSize) : ∃ w', w.write os s = .ok w' ∧ w'.ids = w.ids ∧ w'.bufferCount = 0 ∧
      ∃ log, Keeps w' log ((Record.data os w.buffer.val).apply written) := by
  have hsize : (UInt32.ofNat s.length).toNat = bufferSize := by rw [hs]; decide
  have hbuffer : (w.makeRoom os bufferSize).buffer = w.buffer := by
    unfold TreeStreamWriter.makeRoom TreeStreamWriter.flushBuffer
    split
    · split <;> rfl
    · rfl
  obtain ⟨log, h, hids, hroom⟩ := h.makeRoom os (Nat.le_refl bufferSize)
  have hcount : (w.makeRoom os bufferSize).bufferCount = 0 := by
    by_contra hne
    have := (hroom hne).2
    omega
  have hfull : w.buffer.val.take bufferSize = w.buffer.val := List.take_of_length_le w.buffer.2.le
  simp only [TreeStreamWriter.write, hsize]
  rw [if_neg (not_not.mpr hcount), if_neg (Nat.lt_irrefl _), if_pos (Nat.le_refl _), hbuffer, hfull]
  refine ⟨_, rfl, hids, hcount, log ++ [.data os w.buffer.val], ⟨?_, ?_, ?_, ?_, h.few, h.pos, ?_, ?_⟩⟩
  · simp [h.output, code, w.buffer.2]
  · intro record hrecord
    rcases List.mem_append.mp hrecord with hrecord | hrecord
    · exact h.coded record hrecord
    · rw [List.mem_singleton.mp hrecord]
      exact w.buffer.2.trans_lt (by decide)
  · exact h.admitted.snoc ((h.ids os).mpr (hids ▸ hos))
  · simpa using h.ids
  · exact fun hne => absurd hcount hne
  · rw [contents_snoc, h.contents_of_flushed hcount]
    simp [Record.apply, hcount]

/-- A stream and a write of as many ones as the buffer has bytes. -/
def fullWrite : List Op := [.openNew, .write 1 (List.replicate bufferSize 1)]

/-- On memory that was zero, zeros are read back. -/
theorem fullWrite_not_readBack : ¬ReadsBack (List.Vector.replicate bufferSize 0) fullWrite := by
  rintro ⟨w, hrun, hread⟩
  let w₁ := (new (List.Vector.replicate bufferSize 0)).openNew
  have hopened : Opened w₁.ids 1 := ⟨by decide, by decide⟩
  have hones : (List.replicate bufferSize (1 : UInt8)).length = bufferSize := List.length_replicate
  obtain ⟨log, h⟩ : ∃ log, Keeps w₁ log _ := (keeps_new _).openFrom (.inl rfl) (by simp [new])
  obtain ⟨w₂, hwrite, hids, hflushed, log, h⟩ := h.write_bufferSize hopened hones
  have hrun' : run (new (List.Vector.replicate bufferSize 0)) fullWrite = .ok w₂ := by
    simp only [run, fullWrite, List.foldlM_cons, List.foldlM_nil, step, bind, Except.bind, pure, Except.pure]
    rw [hwrite]
  obtain rfl : w = w₂ := Except.ok.inj (hrun.symm.trans hrun')
  have hsame := (hread 1 (by decide) (by rw [hids]; decide)).symm.trans (h.readStream hflushed (hids ▸ hopened))
  have hlists : List.replicate bufferSize (1 : UInt8) = List.replicate bufferSize 0 := Except.ok.inj hsame
  have hpos : bufferSize ≠ 0 := by decide
  exact absurd (List.replicate_inj.mp hlists).2 (by simp [hpos])

end CapTaint.TreeStream
