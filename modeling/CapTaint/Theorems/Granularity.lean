import CapTaint.Theorems.Cluster
import CapTaint.Lib.Blocks
import CapTaint.Lib.Names
import CapTaint.Lib.Rank

/-! # The names of the clusters

`controlGranularity` gives an event the name of the first event of its block, for any names that were different before.
So the names of the clusters are known by the classes of the events alone, a second pass changes none of them, and the
table of names and the bound of `E_FINAL` can be read off the blocks. -/

namespace CapTaint
open Std Smt Blocks

namespace Encode

abbrev IsNormal (event : Event) : Prop := event.instOpType = .normalOp

section
variable {names : Nat → String} {threads : List (List Event)}

/-- The events have numbers of their own, and their names are different. -/
def DistinctNames (names : Nat → String) (threads : List (List Event)) : Prop :=
  (threads.flatten.map fun event => names event.eventId).Nodup

theorem clusterNames_labelled {pre : Event} {rest : List Event} (hids : ((pre :: rest).map Event.eventId).Nodup) :
    Labelled IsNormal (pre :: rest) (fun event => names event.eventId)
      (fun event => clusterNames pre.instOpType (names pre.eventId) rest names event.eventId) := by
  induction rest generalizing pre names with
  | nil => exact ⟨fun _ => rfl, .singleton _⟩
  | cons curr rest ih =>
    rw [List.map_cons, List.nodup_cons] at hids
    obtain ⟨hpre, hcurr⟩ := hids
    have hpreNe : ∀ event ∈ curr :: rest, event.eventId ≠ pre.eventId := fun event hevent heq =>
      hpre (heq ▸ List.mem_map_of_mem hevent)
    have hcurrNe : ∀ event ∈ rest, event.eventId ≠ curr.eventId := by
      rw [List.map_cons, List.nodup_cons] at hcurr
      exact fun event hevent heq => hcurr.1 (heq ▸ List.mem_map_of_mem hevent)
    have hpreRest : ∀ event ∈ rest, event.eventId ≠ pre.eventId := fun event hevent =>
      hpreNe event (List.mem_cons_of_mem curr hevent)
    have hpc : pre.eventId ≠ curr.eventId := (hpreNe curr List.mem_cons_self).symm
    unfold clusterNames
    split
    case isTrue hnormal =>
      -- `curr` gets the carried name before the loop goes on
      have hrest := @ih (Function.update names curr.eventId (names pre.eventId)) curr hcurr
      rw [Function.update_self] at hrest
      have hcurrName : clusterNames curr.instOpType (names pre.eventId) rest
          (Function.update names curr.eventId (names pre.eventId)) curr.eventId = names pre.eventId := by
        rw [clusterNames_of_notMem hcurrNe, Function.update_self]
      have hpreName : clusterNames curr.instOpType (names pre.eventId) rest
          (Function.update names curr.eventId (names pre.eventId)) pre.eventId = names pre.eventId := by
        rw [clusterNames_of_notMem hpreRest, Function.update_of_ne hpc]
      refine ⟨fun {a} ha => ?_, List.isChain_cons_cons.mpr ⟨?_, hrest.chain.imp_of_mem_tail_imp ?_⟩⟩
      · obtain rfl : pre = a := by simpa using ha
        exact hpreName
      · rw [if_pos hnormal, hcurrName, hpreName]
      · intro a b _ hb hlink
        rw [Function.update_of_ne (hcurrNe b hb)] at hlink
        exact hlink
    case isFalse hclosed =>
      have hrest := @ih names curr hcurr
      refine ⟨fun {a} ha => ?_, List.isChain_cons_cons.mpr ⟨?_, hrest.chain⟩⟩
      · obtain rfl : pre = a := by simpa using ha
        exact clusterNames_of_notMem hpreRest
      · rw [if_neg hclosed]
        exact clusterNames_of_notMem hcurrNe

theorem clusterThread_labelled (names : Nat → String) {thread : List Event} (hids : (thread.map Event.eventId).Nodup) :
    Labelled IsNormal thread (fun event => names event.eventId) (fun event => clusterThread names thread event.eventId) := by
  cases thread with
  | nil => exact ⟨fun ha => by simp at ha, .nil⟩
  | cons pre rest => exact clusterNames_labelled hids

/-- The loop over the threads labels each of them with the names that it starts with. -/
theorem foldl_clusterThread_labelled (hids : (threads.flatten.map Event.eventId).Nodup) : ∀ thread ∈ threads,
    Labelled IsNormal thread (fun event => names event.eventId)
      (fun event => threads.foldl clusterThread names event.eventId) := by
  induction threads generalizing names with
  | nil => exact fun thread hthread => absurd hthread List.not_mem_nil
  | cons first threads ih =>
    rw [List.flatten_cons, List.map_append, List.nodup_append] at hids
    obtain ⟨hfirst, hrest, hdisj⟩ := hids
    have hne : ∀ thread ∈ threads, ∀ event ∈ thread, ∀ other ∈ first, other.eventId ≠ event.eventId :=
      fun thread hthread event hevent other hother =>
        hdisj _ (List.mem_map_of_mem hother) _ (List.mem_map_of_mem (List.mem_flatten.mpr ⟨thread, hthread, hevent⟩))
    intro thread hthread
    rcases List.mem_cons.mp hthread with rfl | hmem
    · refine (clusterThread_labelled names hfirst).congr (fun _ _ => rfl) fun event hevent => ?_
      exact foldl_clusterThread_of_notMem fun t ht other hother => (hne t ht other hother event hevent).symm
    · refine (@ih (clusterThread names first) hrest thread hmem).congr (fun event hevent => ?_) fun _ _ => rfl
      exact (clusterThread_of_notMem (hne thread hmem event hevent)).symm

theorem DistinctNames.ids (h : DistinctNames names threads) : (threads.flatten.map Event.eventId).Nodup := by
  refine List.Nodup.of_map names ?_
  rwa [List.map_map]

theorem DistinctNames.thread (h : DistinctNames names threads) {thread : List Event} (hthread : thread ∈ threads) :
    (thread.map fun event => names event.eventId).Nodup := by
  refine h.sublist (List.Sublist.map _ ?_)
  exact List.sublist_flatten_of_mem hthread

end

/-! ### The clusters of a trace -/

/-- The names of a trace after clustering. -/
structure ClusterNames (trace : Trace) (name : Nat → String) : Prop where
  /-- Neighbours share a name when the earlier one is normal. -/
  adjacent : ∀ thread ∈ trace.threads, ∀ {i : Nat} {a b : Event}, thread[i]? = some a → thread[i + 1]? = some b →
    (name a.eventId = name b.eventId ↔ a.instOpType = .normalOp)
  /-- What stands between two events of a cluster is in the cluster. -/
  contiguous : ∀ thread ∈ trace.threads, ∀ {i j k : Nat} {a b c : Event}, i ≤ j → j ≤ k → thread[i]? = some a →
    thread[j]? = some b → thread[k]? = some c → name a.eventId = name c.eventId → name b.eventId = name a.eventId
  /-- An access or thread operation is the last event of its cluster. -/
  visible_last : ∀ thread ∈ trace.threads, ∀ {i j : Nat} {a b : Event}, thread[i]? = some a → thread[j]? = some b →
    name a.eventId = name b.eventId → a.instOpType ≠ .normalOp → j ≤ i
  /-- Behind the end of a block there are other names. -/
  blocks : ∀ thread ∈ trace.threads, ∀ {i j k : Nat} {a b c : Event}, i ≤ k → k < j → thread[i]? = some a →
    thread[j]? = some b → thread[k]? = some c → c.instOpType ≠ .normalOp → name a.eventId ≠ name b.eventId
  threads : trace.threads.Pairwise fun s t => ∀ a ∈ s, ∀ b ∈ t, name a.eventId ≠ name b.eventId

section
variable {trace : Trace} {names : Nat → String}

theorem controlGranularity_labelled (h : DistinctNames names trace.threads) : ∀ thread ∈ trace.threads,
    Labelled IsNormal thread (fun event => names event.eventId)
      (fun event => controlGranularity trace names event.eventId) :=
  foldl_clusterThread_labelled h.ids

/-- Two events of a thread have one name exactly when all events from the first one to before the second are normal. -/
theorem controlGranularity_eq_iff (h : DistinctNames names trace.threads) {thread : List Event}
    (hthread : thread ∈ trace.threads) {i j : Nat} (hij : i ≤ j) {a b : Event} (ha : thread[i]? = some a)
    (hb : thread[j]? = some b) : controlGranularity trace names a.eventId = controlGranularity trace names b.eventId ↔
      ∀ k, i ≤ k → k < j → ∃ c ∈ thread[k]?, c.instOpType = .normalOp :=
  (controlGranularity_labelled h thread hthread).eq_iff (h.thread hthread) hij ha hb

/-- An event has the name that the first event of its block had. -/
theorem exists_eq_controlGranularity (h : DistinctNames names trace.threads) {thread : List Event}
    (hthread : thread ∈ trace.threads) {event : Event} (hevent : event ∈ thread) :
    ∃ first ∈ thread, controlGranularity trace names event.eventId = names first.eventId := by
  obtain ⟨j, hj⟩ := List.mem_iff_getElem?.mp hevent
  obtain ⟨first, hfirst, hname⟩ := (controlGranularity_labelled h thread hthread).eq_start hj
  exact ⟨first, List.mem_of_getElem? hfirst, hname⟩

theorem controlGranularity_clusterNames (h : DistinctNames names trace.threads) :
    ClusterNames trace (controlGranularity trace names) where
  adjacent thread hthread i a b ha hb := by
    rw [controlGranularity_eq_iff h hthread (Nat.le_succ i) ha hb]
    constructor
    · intro hopen
      obtain ⟨c, hc, hnormal⟩ := hopen i le_rfl (Nat.lt_succ_self i)
      obtain rfl := Option.some.inj (ha.symm.trans hc)
      exact hnormal
    · intro hnormal k hik hki
      obtain rfl : i = k := by omega
      exact ⟨a, ha, hnormal⟩
  contiguous thread hthread i j k a b c hij hjk ha hb hc heq := by
    rw [controlGranularity_eq_iff h hthread (hij.trans hjk) ha hc] at heq
    refine ((controlGranularity_eq_iff h hthread hij ha hb).mpr fun k' hik' hk'j => ?_).symm
    exact heq k' hik' (hk'j.trans_le hjk)
  visible_last thread hthread i j a b ha hb heq hvisible := by
    by_contra hij
    rw [controlGranularity_eq_iff h hthread (by omega) ha hb] at heq
    obtain ⟨c, hc, hnormal⟩ := heq i le_rfl (by omega)
    obtain rfl := Option.some.inj (ha.symm.trans hc)
    exact hvisible hnormal
  blocks thread hthread i j k a b c hik hkj ha hb hc hclosed heq := by
    rw [controlGranularity_eq_iff h hthread (hik.trans hkj.le) ha hb] at heq
    obtain ⟨c', hc', hnormal⟩ := heq k hik hkj
    obtain rfl := Option.some.inj (hc.symm.trans hc')
    exact hclosed hnormal
  threads := by
    unfold DistinctNames at h
    have hdisj := h
    rw [List.map_flatten, List.nodup_flatten] at hdisj
    refine (List.pairwise_map.mp hdisj.2).imp_of_mem fun {s t} hs ht hst a ha b hb heq => ?_
    obtain ⟨first, hfirst, hname⟩ := exists_eq_controlGranularity h hs ha
    obtain ⟨first', hfirst', hname'⟩ := exists_eq_controlGranularity h ht hb
    refine hst (List.mem_map_of_mem hfirst) ?_
    rw [← hname, heq, hname']
    exact List.mem_map_of_mem hfirst'

/-- A second pass changes no name. -/
theorem controlGranularity_again (h : DistinctNames names trace.threads) :
    controlGranularity trace (controlGranularity trace names) = controlGranularity trace names := by
  funext id
  by_cases hid : ∃ thread ∈ trace.threads, ∃ event ∈ thread, event.eventId = id
  · obtain ⟨thread, hthread, event, hevent, rfl⟩ := hid
    exact (controlGranularity_labelled h thread hthread).again
      (foldl_clusterThread_labelled h.ids thread hthread) event hevent
  · refine foldl_clusterThread_of_notMem fun thread hthread event hevent heq => ?_
    exact hid ⟨thread, hthread, event, hevent, heq⟩

/-- `controlGranularity` makes the blocks that the encoding relies on, and a second run keeps them. -/
theorem controlGranularity_clusters (h : DistinctNames names trace.threads) :
    ClusterNames trace (controlGranularity trace names) ∧
      controlGranularity trace (controlGranularity trace names) = controlGranularity trace names :=
  ⟨controlGranularity_clusterNames h, controlGranularity_again h⟩

/-! ### The table of names -/

theorem changes_eventName (trace : Trace) (thread : List Event) : changes (thread.map trace.eventName) =
    (nameSteps trace thread).map fun pair => (trace.eventName pair.1, trace.eventName pair.2) := by
  rw [changes, nameSteps, ← List.map_tail, List.zip_map, List.filter_map]
  rfl

theorem mem_eventNameInZ3 {name : String} : name ∈ eventNameInZ3 trace ↔
    ∃ thread ∈ trace.threads, ∃ pair ∈ changes (thread.map trace.eventName), name = pair.1 ∨ name = pair.2 := by
  simp only [eventNameInZ3, List.mem_flatMap, changes_eventName, List.mem_map, List.mem_cons, List.not_mem_nil, or_false]
  constructor
  · rintro ⟨pair, ⟨thread, hthread, hpair⟩, hname⟩
    exact ⟨thread, hthread, _, ⟨pair, hpair, rfl⟩, hname⟩
  · rintro ⟨thread, hthread, _, ⟨pair, hpair, rfl⟩, hname⟩
    exact ⟨pair, ⟨thread, hthread, hpair⟩, hname⟩

/-- A thread has a second name when an event before its last one ends a block. -/
theorem exists_eventName_ne_iff (h : DistinctNames createdName trace.threads) {thread : List Event}
    (hthread : thread ∈ trace.threads) {event : Event} (hevent : event ∈ thread) :
    (∃ other ∈ thread, trace.eventName other ≠ trace.eventName event) ↔
      ∃ c ∈ thread.dropLast, c.instOpType ≠ .normalOp := by
  constructor
  · rintro ⟨other, hother, hne⟩
    by_contra hnone
    have hsame : ∀ {i j : Nat} {a b : Event}, i ≤ j → thread[i]? = some a → thread[j]? = some b →
        trace.eventName a = trace.eventName b := by
      intro i j a b hij ha hb
      refine (controlGranularity_eq_iff h hthread hij ha hb).mpr fun k _ hkj => ?_
      have hlt : k + 1 < thread.length := Nat.lt_of_le_of_lt hkj (List.getElem?_eq_some_iff.mp hb).1
      have hk : thread[k]? = some thread[k] := List.getElem?_eq_getElem (Nat.lt_of_succ_lt hlt)
      have hdrop : thread[k] ∈ thread.dropLast := by
        refine List.mem_iff_getElem?.mpr ⟨k, ?_⟩
        rw [List.getElem?_dropLast, if_pos (by omega), hk]
      refine ⟨_, hk, ?_⟩
      by_contra hclosed
      exact hnone ⟨_, hdrop, hclosed⟩
    obtain ⟨i, hi⟩ := List.mem_iff_getElem?.mp hother
    obtain ⟨j, hj⟩ := List.mem_iff_getElem?.mp hevent
    rcases Nat.le_total i j with hij | hji
    · exact hne (hsame hij hi hj)
    · exact hne (hsame hji hj hi).symm
  · rintro ⟨c, hc, hclosed⟩
    obtain ⟨k, hk⟩ := List.mem_iff_getElem?.mp hc
    rw [List.getElem?_dropLast] at hk
    split at hk
    case isFalse => cases hk
    case isTrue hlt =>
      have hnext : thread[k + 1]? = some thread[k + 1] := List.getElem?_eq_getElem (by omega)
      have hstep : trace.eventName c ≠ trace.eventName thread[k + 1] := fun heq =>
        hclosed (((controlGranularity_clusterNames h).adjacent thread hthread hk hnext).mp heq)
      -- at most one of the two neighbours has the name of the event
      by_cases hname : trace.eventName c = trace.eventName event
      · exact ⟨thread[k + 1], List.getElem_mem _, fun heq => hstep (hname.trans heq.symm)⟩
      · exact ⟨c, List.mem_of_getElem? hk, hname⟩

/-- The name of an event is in the table exactly when its thread is not one block. -/
theorem eventName_mem_iff (h : DistinctNames createdName trace.threads) {thread : List Event}
    (hthread : thread ∈ trace.threads) {event : Event} (hevent : event ∈ thread) :
    trace.eventName event ∈ eventNameInZ3 trace ↔ ∃ c ∈ thread.dropLast, c.instOpType ≠ .normalOp := by
  rw [← exists_eventName_ne_iff h hthread hevent, mem_eventNameInZ3]
  have hmem : trace.eventName event ∈ thread.map trace.eventName := List.mem_map_of_mem hevent
  have hown := exists_change_iff hmem
  simp only [List.mem_map, exists_exists_and_eq_and] at hown
  rw [← hown]
  constructor
  · rintro ⟨thread', hthread', pair, hpair, hname⟩
    -- the names of other threads are different ones
    have hfrom : trace.eventName event ∈ thread'.map trace.eventName := by
      have hzip := (List.mem_filter.mp hpair).1
      rcases hname with hname | hname
      · exact hname ▸ (List.of_mem_zip hzip).1
      · exact hname ▸ List.mem_of_mem_tail (List.of_mem_zip hzip).2
    obtain ⟨event', hevent', heq⟩ := List.mem_map.mp hfrom
    have hthreads : thread = thread' := by
      by_contra hne
      have hsymm : Std.Symm fun s t : List Event => ∀ a ∈ s, ∀ b ∈ t, trace.eventName a ≠ trace.eventName b :=
        ⟨fun s t hst a ha b hb heq => hst b hb a ha heq.symm⟩
      have hdisj : trace.threads.Pairwise fun s t => ∀ a ∈ s, ∀ b ∈ t, trace.eventName a ≠ trace.eventName b :=
        (controlGranularity_clusterNames h).threads
      exact hdisj.forall hthread hthread' hne event hevent event' hevent' heq.symm
    exact ⟨pair, hthreads ▸ hpair, hname⟩
  · rintro ⟨pair, hpair, hname⟩
    exact ⟨thread, hthread, pair, hpair, hname⟩

/-- The lookups of `computePrefix`: the name of each event that is not virtual is in the table, so that of a branch and,
    for every branch, those of all threads. -/
def LookupsSucceed (trace : Trace) : Prop :=
  ∀ ifEvent ∈ trace.threads.flatten, ifEvent.eventType ≠ .virtual → trace.eventName ifEvent ∈ eventNameInZ3 trace ∧
    ∀ thread ∈ trace.threads, ∀ event ∈ thread, event.eventType ≠ .virtual → trace.eventName event ∈ eventNameInZ3 trace

/-- The table is total on exactly the traces in which a thread that has an event to look up is not one block. -/
theorem lookupsSucceed_iff (h : DistinctNames createdName trace.threads) : LookupsSucceed trace ↔
    ∀ thread ∈ trace.threads, (∃ event ∈ thread, event.eventType ≠ .virtual) →
      ∃ c ∈ thread.dropLast, c.instOpType ≠ .normalOp := by
  constructor
  · rintro htotal thread hthread ⟨event, hevent, hreal⟩
    have hflat : event ∈ trace.threads.flatten := List.mem_flatten.mpr ⟨thread, hthread, hevent⟩
    exact (eventName_mem_iff h hthread hevent).mp (htotal event hflat hreal).1
  · intro hblocks
    have htotal : ∀ thread ∈ trace.threads, ∀ event ∈ thread, event.eventType ≠ .virtual →
        trace.eventName event ∈ eventNameInZ3 trace := fun thread hthread event hevent hreal =>
      (eventName_mem_iff h hthread hevent).mpr (hblocks thread hthread ⟨event, hevent, hreal⟩)
    intro ifEvent hif hreal
    obtain ⟨thread, hthread, hevent⟩ := List.mem_flatten.mp hif
    exact ⟨htotal thread hthread ifEvent hevent hreal, htotal⟩

end

/-- The main thread creates thread 2, branches and writes a global; thread 2 writes one and returns. -/
def twoThreads : Trace :=
  (PSOListener.record []
    [(1, { inst := .call (.pthreadCreate ⟨1, 8, true⟩) }, some 2), (1, { inst := .br true }, none),
      (2, { inst := .store ⟨2, 8, true⟩ false }, none), (2, { inst := .ret true }, none),
      (1, { inst := .store ⟨2, 8, true⟩ false }, none)]).trace

theorem controlGranularity_clusters_twoThreads : ClusterNames twoThreads (controlGranularity twoThreads createdName) ∧
    controlGranularity twoThreads (controlGranularity twoThreads createdName) = controlGranularity twoThreads createdName :=
  controlGranularity_clusters (by unfold DistinctNames; decide +kernel)

theorem lookupsSucceed_twoThreads : LookupsSucceed twoThreads :=
  (lookupsSucceed_iff (by unfold DistinctNames; decide +kernel)).mpr (by decide +kernel)

/-- Thread 2 only returns. -/
def idleThread : Trace :=
  (PSOListener.record []
    [(1, { inst := .call (.pthreadCreate ⟨1, 8, true⟩) }, some 2), (1, { inst := .br true }, none),
      (2, { inst := .ret true }, none), (1, { inst := .store ⟨2, 8, true⟩ false }, none)]).trace

theorem not_lookupsSucceed_idleThread : ¬LookupsSucceed idleThread := by
  unfold LookupsSucceed
  decide +kernel

/-! ### The bound of `E_FINAL` -/

/-- The names of the clusters of all threads. -/
def clusters (trace : Trace) : Finset String := (trace.threads.flatten.map trace.eventName).toFinset

/-- A total order of the clusters that extends the program order. -/
structure ClusterOrder (trace : Trace) (before : String → String → Prop) : Prop
    extends Rank.IsOrder (clusters trace) before where
  program : ∀ thread ∈ trace.threads, thread.Pairwise fun a b =>
    trace.eventName a ≠ trace.eventName b → before (trace.eventName a) (trace.eventName b)

section Final
variable {trace : Trace}

/-- Clustering hands names on and makes no new ones. -/
theorem clusterNames_created {events : List Event} {preType : InstType} {preName : String} {names : Nat → String}
    (hpre : ∃ i, preName = createdName i) (hnames : ∀ id, ∃ i, names id = createdName i) (id : Nat) :
    ∃ i, clusterNames preType preName events names id = createdName i := by
  induction events generalizing preType preName names with
  | nil => exact hnames id
  | cons curr rest ih =>
    unfold clusterNames
    split
    · refine ih hpre fun id' => ?_
      by_cases hid : id' = curr.eventId
      · rw [hid, Function.update_self]
        exact hpre
      · rw [Function.update_of_ne hid]
        exact hnames id'
    · exact ih (hnames curr.eventId) hnames

theorem exists_createdName (trace : Trace) (event : Event) : ∃ i, trace.eventName event = createdName i := by
  have hloop : ∀ (threads : List (List Event)) (names : Nat → String), (∀ id, ∃ i, names id = createdName i) →
      ∀ id, ∃ i, threads.foldl clusterThread names id = createdName i := by
    intro threads
    induction threads with
    | nil => exact fun names hnames => hnames
    | cons thread threads ih =>
      refine fun names hnames => ih _ fun id => ?_
      cases thread with
      | nil => exact hnames id
      | cons pre rest => exact clusterNames_created (hnames pre.eventId) hnames id
  exact hloop _ _ (fun id => ⟨id, rfl⟩) event.eventId

/-- A created name is not that of one of the two bounds. -/
theorem createdName_ne (suffix : String) {c : Char} (hc : c ∈ suffix.toList) (hdigit : c.isDigit = false) (i : Nat) :
    createdName i ≠ "E" ++ suffix := by
  intro heq
  have hsuffix : toString i = suffix := String.append_right_inj "E" |>.mp heq
  exact Names.notMem_toString hdigit (hsuffix ▸ hc)

theorem ne_bounds {name : String} (hname : name ∈ clusters trace) : name ≠ "E_INIT" ∧ name ≠ "E_FINAL" := by
  obtain ⟨event, -, rfl⟩ := List.mem_map.mp (List.mem_toFinset.mp hname)
  obtain ⟨i, hi⟩ := exists_createdName trace event
  rw [hi]
  exact ⟨createdName_ne "_INIT" (c := '_') (by decide) (by decide) i,
    createdName_ne "_FINAL" (c := '_') (by decide) (by decide) i⟩

/-- Each thread has at most one cluster more than it has steps between names. -/
theorem card_clusters_le (trace : Trace) : (clusters trace).card + 1 ≤ uniqueEvent trace + trace.threads.length := by
  have hthreads : ∀ threads : List (List Event), ((threads.flatten.map trace.eventName).toFinset).card ≤
      (threads.flatMap (nameSteps trace)).length + threads.length := by
    intro threads
    induction threads with
    | nil => simp
    | cons thread threads ih =>
      have hthread := card_le_changes (thread.map trace.eventName)
      rw [changes_eventName, List.length_map] at hthread
      have hone : (if thread.map trace.eventName = [] then 0 else 1) ≤ 1 := by split <;> decide
      rw [List.flatten_cons, List.map_append, List.toFinset_append, List.flatMap_cons, List.length_append, List.length_cons]
      have hunion := Finset.card_union_le (thread.map trace.eventName).toFinset
        (threads.flatten.map trace.eventName).toFinset
      omega
  have hall := hthreads trace.threads
  rw [clusters, uniqueEvent]
  omega

/-- The positions of the clusters between the two bounds. -/
noncomputable def schedule {V : Type} (trace : Trace) (before : String → String → Prop) (σ : Assignment V) : Assignment V :=
  { σ with int := fun name =>
      if name = "E_INIT" then 0 else if name = "E_FINAL" then uniqueEvent trace + 100
      else Rank.rank (clusters trace) before name }

theorem schedule_int {V : Type} {before : String → String → Prop} {σ : Assignment V} {name : String}
    (hname : name ∈ clusters trace) :
    (schedule trace before σ).int name = Rank.rank (clusters trace) before name := by
  obtain ⟨hinit, hfinal⟩ := ne_bounds hname
  simp [schedule, hinit, hfinal]

theorem eventName_mem_clusters {thread : List Event} (hthread : thread ∈ trace.threads) {event : Event}
    (hevent : event ∈ thread) : trace.eventName event ∈ clusters trace :=
  List.mem_toFinset.mpr (List.mem_map_of_mem (List.mem_flatten.mpr ⟨thread, hthread, hevent⟩))

/-- Every order of the clusters of at most 100 threads is a schedule: the slack of `E_FINAL` is one for each thread. -/
theorem exists_schedule {V : Type} (σ : Assignment V) (hthreads : trace.threads.length ≤ 100)
    {before : String → String → Prop} (h : ClusterOrder trace before) :
    ∃ σ' : Assignment V, Satisfies σ' (buildMemoryModelFormula trace) ∧
      (∀ m ∈ clusters trace, ∀ n ∈ clusters trace, (σ'.int m < σ'.int n ↔ before m n)) ∧
      ∀ m ∈ clusters trace, ∀ n ∈ clusters trace, σ'.int m = σ'.int n → m = n := by
  refine ⟨schedule trace before σ, ?_, fun m hm n hn => ?_, fun m hm n hn heq => ?_⟩
  · rw [satisfies_buildMemoryModelFormula]
    have hinit : (schedule trace before σ).int "E_INIT" = 0 := rfl
    have hfinal : (schedule trace before σ).int "E_FINAL" = uniqueEvent trace + 100 := rfl
    refine ⟨hinit, hfinal, fun thread hthread => ⟨fun {event} hfirst => ?_, fun {event} hlast => ?_, ?_⟩⟩
    · have hmem := eventName_mem_clusters hthread (List.mem_of_head? hfirst)
      rw [hinit, schedule_int hmem]
      exact_mod_cast Rank.rank_pos
    · have hmem := eventName_mem_clusters hthread (List.mem_of_getLast? hlast)
      have hle := h.rank_le_card hmem
      have hcard := card_clusters_le trace
      rw [hfinal, schedule_int hmem]
      omega
    · refine ((h.program thread hthread).imp_of_mem fun {a b} ha hb hab hne => ?_).isChain
      rw [schedule_int (eventName_mem_clusters hthread ha), schedule_int (eventName_mem_clusters hthread hb)]
      exact_mod_cast h.rank_lt (eventName_mem_clusters hthread ha) (eventName_mem_clusters hthread hb) (hab hne)
  · rw [schedule_int hm, schedule_int hn, Nat.cast_lt]
    exact h.rank_lt_iff hm hn
  · rw [schedule_int hm, schedule_int hn, Nat.cast_inj] at heq
    exact h.rank_inj hm hn heq

end Final

/-- The clusters of `idleThread` in the order of their lengths and letters. -/
theorem exists_schedule_idleThread :
    idleThread.threads.length ≤ 100 ∧ ∃ σ' : Assignment Unit, Satisfies σ' (buildMemoryModelFormula idleThread) ∧
      (∀ m ∈ clusters idleThread, ∀ n ∈ clusters idleThread, (σ'.int m < σ'.int n ↔ m < n)) ∧
      ∀ m ∈ clusters idleThread, ∀ n ∈ clusters idleThread, σ'.int m = σ'.int n → m = n :=
  ⟨by decide +kernel, exists_schedule ⟨fun _ => 0, fun _ => false, fun _ => ()⟩ (by decide +kernel)
    ⟨⟨by decide +kernel, by decide +kernel, by decide +kernel⟩, by decide +kernel⟩⟩

end Encode
end CapTaint
