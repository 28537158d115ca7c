import CapTaint.Theorems.Sources
import CapTaint.Theorems.Cluster
import CapTaint.Theorems.Pruning

/-! # What a read takes

The read-from formula gives a read the value of the last write before it, as long as the candidates of one thread stand
together in the list and `latestWrite` is the last write of the read's own thread. -/

namespace CapTaint
open Std Smt Encode DealWithSymbolicExpr

/-! ### Latest writes -/

namespace Encode

/-- Where an attribute of `markThread` comes from. -/
structure Marked (thread : List Event) (id : Nat) (write : Event) : Prop where
  read : ∃ event ∈ thread, event.eventId = id
  mem : write ∈ thread
  earlier : write.eventId < id
  isGlobal : write.isGlobal = true

/-- One event of the loop: it enters itself into the table, is marked, or is passed over. -/
theorem markThread_cons (event : Event) (rest : List Event) (table : TreeMap String Event) (latest : Nat → Option Event) :
    (event.isGlobal = true ∧ ∃ keys : List String, markThread (event :: rest) table latest =
      markThread rest (keys.foldl (fun table key => table.insert key event) table) latest) ∨
    markThread (event :: rest) table latest =
      markThread rest table (Function.update latest event.eventId table[event.varName]?) ∨
    markThread (event :: rest) table latest = markThread rest table latest := by
  rw [markThread]
  by_cases hglobal : event.isGlobal = true
  swap
  · rw [if_neg hglobal]
    exact .inr (.inr rfl)
  rw [if_pos hglobal]
  cases event.inst with
  | store loc isPointerTy => exact .inl ⟨hglobal, [event.varName], rfl⟩
  | call f =>
    by_cases himplicit : event.implicitGlobalVar ≠ []
    · refine .inl ⟨hglobal, event.implicitGlobalVar.map beforeStoreMark, ?_⟩
      rw [List.foldl_map]
      exact if_pos himplicit
    · exact .inr (.inl (if_neg himplicit))
  | _ => exact .inr (.inl rfl)

theorem getElem?_foldl_insert {keys : List String} {table : TreeMap String Event} {event write : Event} {key : String}
    (h : (keys.foldl (fun table key => table.insert key event) table)[key]? = some write) :
    write = event ∨ table[key]? = some write := by
  induction keys generalizing table with
  | nil => exact .inr h
  | cons first keys ih =>
    rcases ih h with heq | hinsert
    · exact .inl heq
    · rw [TreeMap.getElem?_insert] at hinsert
      split at hinsert
      · exact .inl (Option.some.inj hinsert).symm
      · exact .inr hinsert

theorem markThread_eq_some (seen : List Event) {rest : List Event} {table : TreeMap String Event} {latest : Nat → Option Event}
    (hasc : (seen ++ rest).Pairwise fun a b => a.eventId < b.eventId)
    (htable : ∀ (key : String) (write : Event), table[key]? = some write → write ∈ seen ∧ write.isGlobal = true)
    {id : Nat} {write : Event} (h : markThread rest table latest id = some write) :
    latest id = some write ∨ Marked (seen ++ rest) id write := by
  induction rest generalizing seen table latest with
  | nil => exact .inl h
  | cons event rest ih =>
    have hsplit : seen ++ event :: rest = (seen ++ [event]) ++ rest := by simp
    rw [hsplit] at hasc ⊢
    have hgrown : ∀ (key : String) (write : Event), table[key]? = some write →
        write ∈ seen ++ [event] ∧ write.isGlobal = true :=
      fun key write hwrite => ⟨List.mem_append_left _ (htable key write hwrite).1, (htable key write hwrite).2⟩
    rcases markThread_cons event rest table latest with ⟨hglobal, keys, heq⟩ | heq | heq
    · rw [heq] at h
      refine ih _ hasc (fun key write' hwrite' => ?_) h
      rcases getElem?_foldl_insert hwrite' with rfl | hold
      · exact ⟨by simp, hglobal⟩
      · exact hgrown key write' hold
    · rw [heq] at h
      rcases ih _ hasc hgrown h with hlatest | hmarked
      · by_cases hid : id = event.eventId
        · -- the read is marked with a write of the table, all of which come first
          subst hid
          rw [Function.update_self] at hlatest
          obtain ⟨hseen, hglobal⟩ := htable _ _ hlatest
          refine .inr ⟨⟨event, by simp, rfl⟩, by simp [hseen], ?_, hglobal⟩
          have hall := (List.pairwise_append.mp (List.pairwise_append.mp hasc).1).2.2
          exact hall write hseen event (List.mem_singleton_self _)
        · rw [Function.update_of_ne hid] at hlatest
          exact .inl hlatest
      · exact .inr hmarked
    · rw [heq] at h
      exact ih _ hasc hgrown h

end Encode

theorem Trace.WellFormed.latestWrite {trace : Trace} (wf : trace.WellFormed) {read write : Event}
    (hread : read ∈ trace.thread read.threadId) (h : trace.latestWrite read = some write) :
    write ∈ trace.thread read.threadId ∧ write.eventId < read.eventId ∧ write.isGlobal = true := by
  have hfold : ∀ (threads : List (List Event)) (latest : Nat → Option Event),
      (∀ thread ∈ threads, thread ∈ trace.threads) →
      threads.foldl (fun latest thread => Encode.markThread thread ∅ latest) latest read.eventId = some write →
      latest read.eventId = some write ∨ ∃ thread ∈ trace.threads, Encode.Marked thread read.eventId write := by
    intro threads
    induction threads with
    | nil => exact fun latest _ hlatest => .inl hlatest
    | cons thread threads ih =>
      intro latest hsub hlatest
      have hthread := hsub thread List.mem_cons_self
      rcases ih _ (fun t ht => hsub t (List.mem_cons_of_mem _ ht)) hlatest with hmark | hother
      · obtain ⟨t, ht⟩ := mem_threads.mp hthread
        have hasc := wf.ascending t
        rw [Trace.thread, getD_of_getElem? ht] at hasc
        have hempty : ∀ (key : String) (write : Event), (∅ : TreeMap String Event)[key]? = some write →
            write ∈ ([] : List Event) ∧ write.isGlobal = true := by
          intro key write hwrite
          simp at hwrite
        rcases Encode.markThread_eq_some ([] : List Event) hasc hempty hmark with hlatest' | hmarked
        · exact .inl hlatest'
        · exact .inr ⟨thread, hthread, hmarked⟩
      · exact .inr hother
  rcases hfold trace.threads (fun _ => none) (fun _ ht => ht) h with hnone | ⟨thread, hthread, hmarked⟩
  · cases hnone
  · obtain ⟨t, ht⟩ := mem_threads.mp hthread
    obtain ⟨event, hevent, hid⟩ := hmarked.read
    have hlist : trace.thread t = thread := by rw [Trace.thread, getD_of_getElem? ht]
    have hsame : t = read.threadId := wf.unique (hlist ▸ hevent) hread hid
    exact ⟨by rw [← hsame, hlist]; exact hmarked.mem, hmarked.earlier, hmarked.isGlobal⟩

/-! ### Soundness -/

section
variable {V : Type}

/-- The read has the value of the last write before it, or the initial value when no write is before it. -/
def SoundRead (σ : Assignment V) (trace : Trace) (var : String) (read : Event) : Prop :=
  (∃ write ∈ trace.usefulWriteSet.getD var [],
    σ.value read.globalVarFullName = σ.value (writeVarName write var) ∧
    position σ trace write < position σ trace read ∧
    ∀ other ∈ trace.usefulWriteSet.getD var [],
      ¬(position σ trace write < position σ trace other ∧ position σ trace other < position σ trace read)) ∨
  (σ.value read.globalVarFullName = σ.value (initName var) ∧
    ∀ other ∈ trace.usefulWriteSet.getD var [], ¬position σ trace other < position σ trace read)

/-- Every assignment that the program order and the read-from formula accept is sound at every read that has a
    disjunct. -/
def ReadFromSound (V : Type) (trace : Trace) : Prop :=
  ∀ σ : Assignment V, Satisfies σ (buildMemoryModelFormula trace) → Satisfies σ (buildReadWriteFormula trace) →
    ∀ var, ∀ read ∈ trace.usefulReadSet.getD var [], oneVarAllRead trace var read ≠ [] → SoundRead σ trace var read

/-- The writes of the variable by other threads, in the order of execution. -/
def otherWrites (trace : Trace) (var : String) (read : Event) : List Event :=
  (trace.usefulWriteSet.getD var []).filter (·.threadId ≠ read.threadId)

/-- When the formula of a read is right. A write of another thread that has a later one is followed by a write of the
    same thread; the latest write of the read's own thread is entered in the write set, and the writes of that thread
    before the read are not behind it. -/
structure Arranged (trace : Trace) (var : String) (read : Event) : Prop where
  together : ∀ {i k : Nat} {write later next : Event}, i < k → (otherWrites trace var read)[i]? = some write →
    (otherWrites trace var read)[k]? = some later → later.threadId = write.threadId →
    trace.eventName write ≠ trace.eventName later → (otherWrites trace var read)[i + 1]? = some next →
    next.threadId = write.threadId
  latest : ∀ {latest : Event}, trace.latestWrite read = some latest → latest ∈ trace.usefulWriteSet.getD var []
  own : ∀ write ∈ trace.usefulWriteSet.getD var [], write.threadId = read.threadId → write.eventId < read.eventId →
    trace.eventName write ≠ trace.eventName read →
    ∃ latest, trace.latestWrite read = some latest ∧ write.eventId ≤ latest.eventId

instance (trace : Trace) (var : String) (read : Event) : Decidable (Arranged trace var read) :=
  decidable_of_iff
    ((∀ i < (otherWrites trace var read).length, ∀ k < (otherWrites trace var read).length, i < k →
        ∀ write ∈ (otherWrites trace var read)[i]?, ∀ later ∈ (otherWrites trace var read)[k]?,
        ∀ next ∈ (otherWrites trace var read)[i + 1]?, later.threadId = write.threadId →
        trace.eventName write ≠ trace.eventName later → next.threadId = write.threadId) ∧
      (∀ latest ∈ trace.latestWrite read, latest ∈ trace.usefulWriteSet.getD var []) ∧
      ∀ write ∈ trace.usefulWriteSet.getD var [], write.threadId = read.threadId → write.eventId < read.eventId →
        trace.eventName write ≠ trace.eventName read → ∃ latest ∈ trace.latestWrite read, write.eventId ≤ latest.eventId)
    ⟨fun h => ⟨fun hik hi hk hsame hne hnext => h.1 _ (List.getElem?_eq_some_iff.mp hi).1 _
      (List.getElem?_eq_some_iff.mp hk).1 hik _ hi _ hk _ hnext hsame hne, fun hlatest => h.2.1 _ hlatest, h.2.2⟩,
    fun h => ⟨fun _ _ _ _ hik _ hi _ hk _ hnext hsame hne => h.together hik hi hk hsame hne hnext, fun _ => h.latest, h.own⟩⟩

variable {trace : Trace} {σ : Assignment V}

theorem mayBeRead_eq (trace : Trace) (var : String) (read : Event) :
    mayBeRead trace var read = otherWrites trace var read ++ (trace.latestWrite read).toList := rfl

theorem holds_orderAtInit {read : Event} {candidates : List Event} :
    (∀ f ∈ orderAtInit trace read candidates, f.Holds σ) ↔
      ∀ write ∈ candidates, position σ trace read < position σ trace write := by
  simp only [orderAtInit, List.mem_map, forall_exists_index, and_imp, forall_apply_eq_imp_iff₂]
  rfl

/-- What the order formulas of a candidate say. -/
theorem holds_orderAtWrite {read write : Event} {candidates : List Event} {i : Nat} (hi : candidates[i]? = some write) :
    (∀ f ∈ orderAtWrite trace read candidates i write, f.Holds σ) ↔
      position σ trace write < position σ trace read ∧
      (∀ next, candidates[i + 1]? = some next → next.threadId = write.threadId →
        position σ trace read < position σ trace next) ∧
      ∀ other ∈ candidates, other.threadId ≠ write.threadId →
        position σ trace other < position σ trace write ∨ position σ trace read < position σ trace other := by
  unfold orderAtWrite
  dsimp only
  rw [List.forall_mem_cons, ← and_assoc]
  refine and_congr ?_ ?_
  · cases hnext : candidates[i + 1]? with
    | none =>
      simp only [reduceCtorEq, false_imp_iff, implies_true, and_true]
      rfl
    | some next =>
      simp only [Option.some.injEq, forall_eq']
      by_cases hsame : next.threadId = write.threadId
      · rw [if_pos hsame]
        simp only [hsame, forall_const]
        rfl
      · rw [if_neg hsame]
        simp only [hsame, false_imp_iff, and_true]
        rfl
  · constructor
    · intro h other hother hne
      obtain ⟨j, hj⟩ := List.mem_iff_getElem?.mp hother
      refine h (enumerateOrder trace read write other) (List.mem_map.mpr ⟨(other, j), List.mem_filter.mpr ⟨?_, ?_⟩, rfl⟩)
      · exact List.mem_zipIdx_iff_getElem?.mpr hj
      · have hji : j ≠ i := by
          rintro rfl
          rw [hi] at hj
          exact hne (by rw [Option.some.inj hj])
        simp [hji, hne]
    · intro h f hf
      obtain ⟨⟨other, j⟩, hitem, rfl⟩ := List.mem_map.mp hf
      obtain ⟨hzip, hfilter⟩ := List.mem_filter.mp hitem
      simp only [decide_eq_true_eq, not_or] at hfilter
      exact h other (List.mem_of_getElem? (List.mem_zipIdx_iff_getElem?.mp hzip)) hfilter.2

/-! ### Arranged reads are sound -/

/-- What the proofs use of the useful reads and writes of a recorded trace. -/
structure UsefulAccesses (trace : Trace) : Prop where
  wellFormed : trace.WellFormed
  write : ∀ {var : String}, ∀ event ∈ trace.usefulWriteSet.getD var [], event ∈ trace.thread event.threadId
  ordered : ∀ var, (trace.usefulWriteSet.getD var []).Pairwise fun a b => a.eventId ≤ b.eventId
  read : ∀ {var : String}, ∀ event ∈ trace.usefulReadSet.getD var [],
    event ∈ trace.thread event.threadId ∧ event.varName = var ∧ event.isGlobal = true

section
variable (acc : UsefulAccesses trace) (hσ : Satisfies σ (buildMemoryModelFormula trace)) {var : String} {read : Event}
include acc hσ

/-- The latest write is before its read. -/
theorem UsefulAccesses.latest_lt (hread : read ∈ trace.usefulReadSet.getD var []) {latest : Event}
    (hlatest : trace.latestWrite read = some latest) : position σ trace latest < position σ trace read := by
  have hmem := (acc.read read hread).1
  obtain ⟨hthread, hlt, hglobal⟩ := acc.wellFormed.latestWrite hmem hlatest
  refine acc.wellFormed.position_lt hσ hthread hmem hlt ?_
  refine (acc.wellFormed.clustered _).name_ne (acc.wellFormed.ascending _) hthread hmem hlt ?_
  simp [Event.instOpType, hglobal]

/-- An own write that is placed before an arranged read is not behind the latest one. -/
theorem UsefulAccesses.own_le (hread : read ∈ trace.usefulReadSet.getD var []) (harr : Arranged trace var read)
    {write : Event} (hwrite : write ∈ trace.usefulWriteSet.getD var []) (hown : write.threadId = read.threadId)
    (hlt : position σ trace write < position σ trace read) :
    ∃ latest, trace.latestWrite read = some latest ∧ position σ trace write ≤ position σ trace latest := by
  have hmem := (acc.read read hread).1
  have hthread : write ∈ trace.thread read.threadId := hown ▸ acc.write write hwrite
  have hbefore : write.eventId < read.eventId := by
    by_contra hle
    exact (acc.wellFormed.position_le hσ hmem hthread (Nat.le_of_not_lt hle)).not_gt hlt
  have hname : trace.eventName write ≠ trace.eventName read := fun heq => (congrArg σ.int heq).not_lt hlt
  obtain ⟨latest, hlatest, hle⟩ := harr.own write hwrite hown hbefore hname
  exact ⟨latest, hlatest, acc.wellFormed.position_le hσ hthread (acc.wellFormed.latestWrite hmem hlatest).1 hle⟩

omit hσ acc in
theorem mem_mayBeRead_of_other {write : Event} (hwrite : write ∈ trace.usefulWriteSet.getD var [])
    (hother : write.threadId ≠ read.threadId) : write ∈ mayBeRead trace var read :=
  List.mem_append_left _ (List.mem_filter.mpr ⟨hwrite, by simpa using hother⟩)

/-- The disjunct of the initial value. -/
theorem UsefulAccesses.sound_init (hread : read ∈ trace.usefulReadSet.getD var []) (harr : Arranged trace var read)
    (hnone : trace.latestWrite read = none)
    (hequal : σ.value read.globalVarFullName = σ.value (initName var))
    (horder : ∀ write ∈ mayBeRead trace var read, position σ trace read < position σ trace write) :
    SoundRead σ trace var read := by
  refine .inr ⟨hequal, fun write hwrite hlt => ?_⟩
  by_cases hown : write.threadId = read.threadId
  · obtain ⟨latest, hlatest, -⟩ := acc.own_le hσ hread harr hwrite hown hlt
    rw [hnone] at hlatest
    cases hlatest
  · exact (horder write (mem_mayBeRead_of_other hwrite hown)).not_gt hlt

/-- A later write of the thread of a candidate is behind the read. -/
theorem UsefulAccesses.later_gt (harr : Arranged trace var read)
    {i k : Nat} {write later : Event} (hi : (otherWrites trace var read)[i]? = some write)
    (hk : (otherWrites trace var read)[k]? = some later) (hsame : later.threadId = write.threadId)
    (hlt : position σ trace write < position σ trace later)
    (hnext : ∀ next, (mayBeRead trace var read)[i + 1]? = some next → next.threadId = write.threadId →
      position σ trace read < position σ trace next) : position σ trace read < position σ trace later := by
  have hwrites : ∀ {event : Event}, event ∈ otherWrites trace var read → event ∈ trace.usefulWriteSet.getD var [] :=
    fun hevent => List.mem_of_mem_filter hevent
  have hthread : ∀ {event : Event}, event ∈ otherWrites trace var read → event ∈ trace.thread event.threadId :=
    fun hevent => acc.write _ (hwrites hevent)
  have hsorted : (otherWrites trace var read).Pairwise fun a b => a.eventId ≤ b.eventId := (acc.ordered var).filter _
  have hwrite := hthread (List.mem_of_getElem? hi)
  have hlater : later ∈ trace.thread write.threadId := hsame ▸ hthread (List.mem_of_getElem? hk)
  obtain ⟨hilt, rfl⟩ := List.getElem?_eq_some_iff.mp hi
  obtain ⟨hklt, rfl⟩ := List.getElem?_eq_some_iff.mp hk
  have hik : i < k := by
    rcases Nat.lt_trichotomy i k with hik | rfl | hki
    · exact hik
    · exact absurd hlt (lt_irrefl _)
    · have hle := List.pairwise_iff_getElem.mp hsorted k i hklt hilt hki
      exact absurd hlt (acc.wellFormed.position_le hσ hlater hwrite hle).not_gt
  have hname : trace.eventName (otherWrites trace var read)[i] ≠ trace.eventName (otherWrites trace var read)[k] :=
    fun heq => (congrArg σ.int heq).not_lt hlt
  -- the next candidate is of the thread too, and it is not behind the later write
  have hnextlt : i + 1 < (otherWrites trace var read).length := by omega
  have hget := List.getElem?_eq_getElem hnextlt
  have hnextsame := harr.together hik hi hk hsame hname hget
  have hnextthread : (otherWrites trace var read)[i + 1] ∈ trace.thread (otherWrites trace var read)[i].threadId :=
    hnextsame ▸ hthread (List.getElem_mem hnextlt)
  have hle : (otherWrites trace var read)[i + 1].eventId ≤ (otherWrites trace var read)[k].eventId := by
    rcases Nat.eq_or_lt_of_le (Nat.succ_le_of_lt hik) with heq | hlt'
    · simp only [Nat.succ_eq_add_one] at heq
      simp [heq]
    · exact List.pairwise_iff_getElem.mp hsorted _ _ hnextlt hklt hlt'
  refine (hnext _ ?_ hnextsame).trans_le (acc.wellFormed.position_le hσ hnextthread hlater hle)
  rw [mayBeRead_eq, List.getElem?_append_left hnextlt, hget]

/-- The disjunct of a candidate. -/
theorem UsefulAccesses.sound_write (hread : read ∈ trace.usefulReadSet.getD var []) (harr : Arranged trace var read)
    {i : Nat} {write : Event} (hi : (mayBeRead trace var read)[i]? = some write)
    (hequal : σ.value read.globalVarFullName = σ.value (writeVarName write var))
    (horder : ∀ f ∈ orderAtWrite trace read (mayBeRead trace var read) i write, f.Holds σ) :
    SoundRead σ trace var read := by
  obtain ⟨hlt, hnext, hothers⟩ := (holds_orderAtWrite hi).mp horder
  have hwrites : write ∈ trace.usefulWriteSet.getD var [] := by
    rcases List.mem_append.mp (List.mem_of_getElem? hi) with hother | hlatest
    · exact List.mem_of_mem_filter hother
    · exact harr.latest (Option.mem_toList.mp hlatest)
  refine .inl ⟨write, hwrites, hequal, hlt, fun other hother ⟨hbehind, hbefore⟩ => ?_⟩
  by_cases hown : other.threadId = read.threadId
  · -- the latest write is not behind `write`, whether it is `write` or excluded by it
    obtain ⟨latest, hlatest, hle⟩ := acc.own_le hσ hread harr hother hown hbefore
    have hbound := acc.latest_lt hσ hread hlatest
    have hcandidate : latest ∈ mayBeRead trace var read := List.mem_append_right _ (Option.mem_toList.mpr hlatest)
    have hlatestThread := acc.wellFormed.threadId_eq (acc.wellFormed.latestWrite (acc.read read hread).1 hlatest).1
    by_cases hsame : latest.threadId = write.threadId
    · rcases List.mem_append.mp (List.mem_of_getElem? hi) with hmem | hmem
      · exact absurd (hsame.symm.trans hlatestThread) (by simpa using (List.mem_filter.mp hmem).2)
      · rw [Option.mem_toList, hlatest] at hmem
        cases hmem
        omega
    · rcases hothers latest hcandidate hsame with hfirst | hfirst
      · omega
      · omega
  · have hcandidate : other ∈ mayBeRead trace var read := mem_mayBeRead_of_other hother hown
    by_cases hsame : other.threadId = write.threadId
    · have hotherWrites : ∀ {event : Event}, event ∈ trace.usefulWriteSet.getD var [] → event.threadId ≠ read.threadId →
          event ∈ otherWrites trace var read := fun hevent hne => List.mem_filter.mpr ⟨hevent, by simpa using hne⟩
      obtain ⟨k, hk⟩ := List.mem_iff_getElem?.mp (hotherWrites hother hown)
      have hi' : (otherWrites trace var read)[i]? = some write := by
        by_cases hilt : i < (otherWrites trace var read).length
        · rwa [mayBeRead_eq, List.getElem?_append_left hilt] at hi
        · rw [mayBeRead_eq, List.getElem?_append_right (Nat.le_of_not_lt hilt)] at hi
          have hmem := Option.mem_toList.mp (List.mem_of_getElem? hi)
          have hthread := acc.wellFormed.latestWrite (acc.read read hread).1 hmem
          exact absurd (hsame.trans (acc.wellFormed.threadId_eq hthread.1)) hown
      exact (acc.later_gt hσ harr hi' hk hsame hbehind hnext).not_gt hbefore
    · rcases hothers other hcandidate hsame with hfirst | hfirst
      · omega
      · omega

end

/-- The formula of an arranged read is right. -/
theorem UsefulAccesses.soundRead (acc : UsefulAccesses trace) (hσ : Satisfies σ (buildMemoryModelFormula trace))
    (hrw : Satisfies σ (buildReadWriteFormula trace)) {var : String} {read : Event}
    (hread : read ∈ trace.usefulReadSet.getD var []) (hsome : oneVarAllRead trace var read ≠ [])
    (harr : Arranged trace var read) : SoundRead σ trace var read := by
  have hformula : (makeExprsOr (oneVarAllRead trace var read)).Holds σ := by
    cases hget : trace.usefulReadSet[var]? with
    | none =>
      rw [TreeMap.getD_eq_getD_getElem?, hget] at hread
      cases hread
    | some reads =>
      rw [getD_of_getElem? hget] at hread
      exact hrw _ (List.mem_flatMap.mpr ⟨(var, reads), TreeMap.mem_toList_iff_getElem?_eq_some.mpr hget,
        List.mem_map_of_mem hread⟩)
  obtain ⟨f, hf, hholds⟩ := (holds_makeExprsOr.mp hformula).resolve_left hsome
  rw [oneVarAllRead_eq] at hf
  rcases mem_matchRead.mp hf with ⟨hnone, equality, hequality, rfl⟩ | ⟨i, write, hi, rfl⟩
  · rw [holds_makeExprsAnd, List.forall_mem_cons] at hholds
    have hvar := (acc.read read hread).2.1
    unfold readFromInitFormula at hequality
    split at hequality
    · cases hequality
      rw [hvar] at hholds
      exact acc.sound_init hσ hread harr hnone hholds.1 (holds_orderAtInit.mp hholds.2)
    · cases hequality
  · rw [holds_makeExprsAnd, List.forall_mem_cons] at hholds
    exact acc.sound_write hσ hread harr hi hholds.1 hholds.2

end

/-! ### Recorded traces -/

section
variable {l : PSOListener} {set : TreeSet String} {var : String}

/-- The filter keeps the whole list of a variable, or drops it. -/
theorem mem_of_filter {table : TreeMap String (List Event)} {event : Event}
    (h : event ∈ (table.filter fun name _ => name ∈ set).getD var []) :
    var ∈ set ∧ (table.filter fun name _ => name ∈ set).getD var [] = table.getD var [] := by
  by_cases hvar : var ∈ set
  · exact ⟨hvar, getD_filter_mem hvar⟩
  · rw [TreeMap.getD_eq_getD_getElem?, TreeMap.getElem?_filter'] at h
    simp [hvar] at h

theorem Recorded.usefulAccesses (h : Recorded l) (set : TreeSet String) : UsefulAccesses (fillterTrace l.trace set) := by
  obtain ⟨hreads, hwrites⟩ := recorded_accessTables h
  have hwf := recorded_wellFormed h
  refine ⟨⟨hwf.threadId_eq, hwf.ascending, hwf.eventId_lt, hwf.unique, hwf.nonempty⟩, ?_, ?_, ?_⟩
  · intro var event hevent
    rw [fillterTrace, (mem_of_filter hevent).2] at hevent
    exact hwrites.entry hevent
  · intro var
    by_cases hvar : var ∈ set
    · rw [fillterTrace, getD_filter_mem hvar]
      exact hwrites.pairwise var
    · rw [fillterTrace, TreeMap.getD_eq_getD_getElem?, TreeMap.getElem?_filter']
      cases hget : l.trace.writeSet[var]? <;> simp [hvar, Option.filter_some]
  · intro var event hevent
    rw [fillterTrace, (mem_of_filter hevent).2] at hevent
    obtain ⟨-, loc, time, rfl, haccess⟩ := read_access h hevent
    exact ⟨hreads.entry hevent, haccess.varName, haccess.isGlobal⟩

theorem readFromSound_of_arranged {V : Type} (h : Recorded l)
    (harr : ∀ var, ∀ read ∈ (fillterTrace l.trace set).usefulReadSet.getD var [],
      Arranged (fillterTrace l.trace set) var read) : ReadFromSound V (fillterTrace l.trace set) :=
  fun _ hσ hrw var read hread hsome => (h.usefulAccesses set).soundRead hσ hrw hread hsome (harr var read hread)

/-- The threads 1 and 2 write twice each and read after a write, the thread 3 reads at the end. -/
def writesAndReads : PSOListener :=
  PSOListener.record ["G1_100"]
    ([(1, store), (1, load), (1, store), (2, store), (2, load), (2, store), (2, load), (3, load)].map fun access =>
      (access.1, { inst := access.2 }, none))
where
  store := .store ⟨1, 100, true⟩ false
  load := .load ⟨1, 100, true⟩ false

theorem readFromSound_writesAndReads : ReadFromSound Nat (fillterTrace writesAndReads.trace {"G1_100"}) := by
  refine readFromSound_of_arranged (record_recorded _ _) fun var read hread => ?_
  obtain ⟨hvar, -⟩ := mem_of_filter hread
  obtain rfl : "G1_100" = var := by simpa using hvar
  have hreads : ∀ read ∈ (fillterTrace writesAndReads.trace {"G1_100"}).usefulReadSet.getD "G1_100" [],
      Arranged (fillterTrace writesAndReads.trace {"G1_100"}) "G1_100" read := by decide +kernel
  exact hreads read hread

/-- Thread 1 writes before and after thread 2; thread 3 reads. -/
def interleavedWrites : PSOListener :=
  PSOListener.record ["G1_100"]
    [(1, { inst := .store ⟨1, 100, true⟩ false }, none), (2, { inst := .store ⟨1, 100, true⟩ false }, none),
      (1, { inst := .store ⟨1, 100, true⟩ false }, none), (3, { inst := .load ⟨1, 100, true⟩ false }, none)]

/-- The write of thread 2, both writes of thread 1, and the read, which takes the first write of thread 1. -/
def overwrittenValue : Assignment Nat where
  int name := if name = "E1" then 1 else if name = "E0" then 2 else if name = "E2" then 3 else if name = "E3" then 4
    else if name = "E_FINAL" then 102 else 0
  bool _ := false
  value name := if name = "G1_100S1" ∨ name = "G1_100L1" then 1 else 0

instance (σ : Assignment Nat) (trace : Trace) (var : String) (read : Event) : Decidable (SoundRead σ trace var read) := by
  unfold SoundRead
  infer_instance

theorem not_readFromSound_interleavedWrites : ¬ReadFromSound Nat (fillterTrace interleavedWrites.trace {"G1_100"}) := by
  intro h
  have hread : ∃ read, read ∈ (fillterTrace interleavedWrites.trace {"G1_100"}).usefulReadSet.getD "G1_100" [] ∧
      oneVarAllRead (fillterTrace interleavedWrites.trace {"G1_100"}) "G1_100" read ≠ [] ∧
      ¬SoundRead overwrittenValue (fillterTrace interleavedWrites.trace {"G1_100"}) "G1_100" read := by
    decide +kernel
  obtain ⟨read, hmem, hsome, hunsound⟩ := hread
  exact hunsound (h overwrittenValue (by decide +kernel) (by decide +kernel) "G1_100" read hmem hsome)

end

end CapTaint
