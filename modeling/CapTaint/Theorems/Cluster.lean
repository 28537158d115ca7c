import CapTaint.Theorems.Recorded
import CapTaint.Encode.Order
import CapTaint.Lib.OptionLoop

/-! # Clusters

After `controlGranularity` an event has the name of the first event of its cluster. A cluster ends with an
operation that is not normal, so a thread is a sequence of clusters, and the constraints between neighbouring
names order it: of two events of a thread the earlier one shares the name of the later one or precedes it. The creations and
joins order whole threads. -/

namespace CapTaint
open Std Smt

theorem createdName_inj {m n : Nat} (h : createdName m = createdName n) : m = n := by
  unfold createdName at h
  exact Nat.repr_injective (String.append_right_inj "E" |>.mp h)

/-- `b` follows `a` in a thread: it joins a cluster that is still open, or starts the next one. -/
def Linked (name : Event → String) (a b : Event) : Prop :=
  name b = if a.instOpType = .normalOp then name a else createdName b.eventId

/-- The names of a thread are those of its clusters. -/
structure Clustered (name : Event → String) (thread : List Event) : Prop where
  head : ∀ {first : Event}, thread.head? = some first → name first = createdName first.eventId
  chain : thread.IsChain (Linked name)

/-! ### The loop of `controlGranularity` -/

namespace Encode

section
variable {preType : InstType} {preName : String} {names : Nat → String}

/-- The loop renames events of its own list only. -/
theorem clusterNames_of_notMem {events : List Event} {id : Nat} (hid : ∀ event ∈ events, event.eventId ≠ id) :
    clusterNames preType preName events names id = names id := by
  induction events generalizing preType preName names with
  | nil => rfl
  | cons curr rest ih =>
    have hrest : ∀ event ∈ rest, event.eventId ≠ id := fun event h => hid event (List.mem_cons_of_mem _ h)
    unfold clusterNames
    split
    · rw [ih hrest, Function.update_of_ne]
      exact (hid curr List.mem_cons_self).symm
    · exact ih hrest

/-- The loop leaves a chain of links behind `pre`, when it starts with the name and the class of `pre`. -/
theorem clusterNames_chain {pre : Event} {rest : List Event}
    (hasc : (pre :: rest).Pairwise fun a b => a.eventId < b.eventId)
    (hcreated : ∀ event ∈ rest, names event.eventId = createdName event.eventId) :
    (pre :: rest).IsChain (Linked fun event =>
      clusterNames pre.instOpType (names pre.eventId) rest names event.eventId) := by
  induction rest generalizing pre names with
  | nil => exact List.isChain_singleton _
  | cons curr rest ih =>
    obtain ⟨hpre, hcurr⟩ := List.pairwise_cons.mp hasc
    obtain ⟨hfirst, -⟩ := List.pairwise_cons.mp hcurr
    have hne : ∀ event ∈ rest, event.eventId ≠ curr.eventId := fun event h => (hfirst event h).ne'
    have hnep : ∀ event ∈ rest, event.eventId ≠ pre.eventId := fun event h =>
      (hpre event (List.mem_cons_of_mem _ h)).ne'
    have hpc : curr.eventId ≠ pre.eventId := (hpre curr List.mem_cons_self).ne'
    have hcr : ∀ event ∈ rest, names event.eventId = createdName event.eventId := fun event h =>
      hcreated event (List.mem_cons_of_mem _ h)
    unfold clusterNames
    split
    · rename_i hnormal
      have hup : ∀ event ∈ rest, Function.update names curr.eventId (names pre.eventId) event.eventId =
          createdName event.eventId := fun event h => by rw [Function.update_of_ne (hne event h), hcr event h]
      have hchain := ih hcurr hup
      rw [Function.update_self] at hchain
      refine List.isChain_cons_cons.mpr ⟨?_, hchain⟩
      unfold Linked
      beta_reduce
      rw [if_pos hnormal, clusterNames_of_notMem hne, clusterNames_of_notMem hnep, Function.update_self,
        Function.update_of_ne hpc.symm]
    · rename_i hnormal
      refine List.isChain_cons_cons.mpr ⟨?_, ih hcurr hcr⟩
      unfold Linked
      beta_reduce
      rw [if_neg hnormal, clusterNames_of_notMem hne]
      exact hcreated curr List.mem_cons_self

theorem clusterThread_of_notMem {thread : List Event} {id : Nat} (hid : ∀ event ∈ thread, event.eventId ≠ id) :
    clusterThread names thread id = names id := by
  cases thread with
  | nil => rfl
  | cons pre rest => exact clusterNames_of_notMem fun event h => hid event (List.mem_cons_of_mem _ h)

theorem foldl_clusterThread_of_notMem {threads : List (List Event)} {id : Nat}
    (hid : ∀ thread ∈ threads, ∀ event ∈ thread, event.eventId ≠ id) :
    threads.foldl clusterThread names id = names id := by
  induction threads generalizing names with
  | nil => rfl
  | cons thread threads ih =>
    rw [List.foldl_cons, ih fun t ht => hid t (List.mem_cons_of_mem _ ht)]
    exact clusterThread_of_notMem (hid thread List.mem_cons_self)

end
end Encode

theorem Clustered.congr {name name' : Event → String} {thread : List Event} (c : Clustered name thread)
    (h : ∀ event ∈ thread, name' event = name event) : Clustered name' thread where
  head hfirst := by
    rw [h _ (List.mem_of_head? hfirst)]
    exact c.head hfirst
  chain := by
    refine c.chain.imp_of_mem_imp fun a b ha hb hlink => ?_
    unfold Linked at hlink ⊢
    rw [h a ha, h b hb]
    exact hlink

namespace Encode

theorem clusterThread_clustered {names : Nat → String} {thread : List Event}
    (hasc : thread.Pairwise fun a b => a.eventId < b.eventId)
    (hcreated : ∀ event ∈ thread, names event.eventId = createdName event.eventId) :
    Clustered (fun event => clusterThread names thread event.eventId) thread := by
  cases thread with
  | nil => exact { head := fun h => by simp at h, chain := .nil }
  | cons pre rest =>
    have hrest : ∀ event ∈ rest, names event.eventId = createdName event.eventId := fun event h =>
      hcreated event (List.mem_cons_of_mem _ h)
    refine ⟨fun {first} hfirst => ?_, clusterNames_chain hasc hrest⟩
    cases hfirst
    obtain ⟨hpre, -⟩ := List.pairwise_cons.mp hasc
    exact (clusterNames_of_notMem fun event h => (hpre event h).ne').trans (hcreated pre List.mem_cons_self)

/-- The loop over the threads: a list whose numbers no other list uses gets its clusters. -/
theorem foldl_clusterThread_clustered {threads : List (List Event)} {names : Nat → String}
    (hasc : ∀ thread ∈ threads, thread.Pairwise fun a b => a.eventId < b.eventId)
    (hdisj : threads.Pairwise fun s t => ∀ a ∈ s, ∀ b ∈ t, a.eventId ≠ b.eventId)
    (hcreated : ∀ thread ∈ threads, ∀ event ∈ thread, names event.eventId = createdName event.eventId) :
    ∀ thread ∈ threads, Clustered (fun event => threads.foldl clusterThread names event.eventId) thread := by
  induction threads generalizing names with
  | nil => intro thread h; cases h
  | cons first threads ih =>
    obtain ⟨hfirst, hrest⟩ := List.pairwise_cons.mp hdisj
    intro thread hthread
    rw [List.foldl_cons]
    rcases List.mem_cons.mp hthread with rfl | hmem
    · -- later lists do not touch the names of this one
      refine (clusterThread_clustered (hasc thread hthread) (hcreated thread hthread)).congr fun event hevent => ?_
      exact foldl_clusterThread_of_notMem fun t ht b hb => (hfirst t ht event hevent b hb).symm
    · refine ih (fun t ht => hasc t (List.mem_cons_of_mem _ ht)) hrest (fun t ht event hevent => ?_) thread hmem
      rw [clusterThread_of_notMem fun a ha => hfirst t ht a ha event hevent]
      exact hcreated t (List.mem_cons_of_mem _ ht) event hevent

end Encode

/-! ### Clusters of a thread -/

theorem isChain_and {α : Type} {R S : α → α → Prop} {l : List α} (hR : l.IsChain R) (hS : l.IsChain S) :
    l.IsChain fun a b => R a b ∧ S a b := by
  induction l with
  | nil => exact .nil
  | cons a l ih =>
    rw [List.isChain_cons] at hR hS ⊢
    exact ⟨fun b hb => ⟨hR.1 b hb, hS.1 b hb⟩, ih hR.2 hS.2⟩

section Clustered
variable {name : Event → String} {thread : List Event}

/-- Behind an event whose successor starts a cluster, names are those of later events. -/
theorem linked_first {rest : List Event} {bound : Nat} (hchain : rest.IsChain (Linked name))
    (hasc : rest.Pairwise fun a b => a.eventId < b.eventId)
    (hhead : ∀ first, rest.head? = some first → bound ≤ first.eventId ∧ name first = createdName first.eventId) :
    ∀ event ∈ rest, ∃ first ∈ rest, bound ≤ first.eventId ∧ first.eventId ≤ event.eventId ∧
      name event = createdName first.eventId := by
  have hboth := List.IsChain.iff_mem.mp (isChain_and hasc.isChain hchain)
  refine List.IsChain.induction _ _ hboth ?_ ?_
  · rintro a b ⟨-, hb, hlt, hlink⟩ ⟨first, hfirst, hbound, hle, hname⟩
    unfold Linked at hlink
    split at hlink
    · exact ⟨first, hfirst, hbound, hle.trans hlt.le, hlink.trans hname⟩
    · exact ⟨b, hb, (hbound.trans hle).trans hlt.le, le_rfl, hlink⟩
  · intro hne
    obtain ⟨hbound, hname⟩ := hhead _ (List.head?_eq_some_head hne)
    exact ⟨_, List.head_mem hne, hbound, le_rfl, hname⟩

/-- Every event has the name of an event that is not behind it. -/
theorem Clustered.exists_first (c : Clustered name thread) (hasc : thread.Pairwise fun a b => a.eventId < b.eventId) :
    ∀ event ∈ thread, ∃ first ∈ thread, first.eventId ≤ event.eventId ∧ name event = createdName first.eventId := by
  intro event hevent
  obtain ⟨first, hfirst, -, hle, hname⟩ :=
    linked_first c.chain hasc (fun first hfirst => ⟨Nat.zero_le _, c.head hfirst⟩) event hevent
  exact ⟨first, hfirst, hle, hname⟩

theorem exists_split {a b : Event} (hasc : thread.Pairwise fun a b => a.eventId < b.eventId) (ha : a ∈ thread)
    (hb : b ∈ thread) (hlt : a.eventId < b.eventId) : ∃ l₁ l₂, thread = l₁ ++ a :: l₂ ∧ b ∈ l₂ := by
  obtain ⟨l₁, l₂, rfl⟩ := List.append_of_mem ha
  refine ⟨l₁, l₂, rfl, ?_⟩
  obtain ⟨-, -, hcross⟩ := List.pairwise_append.mp hasc
  rcases List.mem_append.mp hb with hb | hb
  · have := hcross b hb a List.mem_cons_self
    omega
  rcases List.mem_cons.mp hb with rfl | hb
  · omega
  · exact hb

/-- An operation that is not normal ends its cluster. -/
theorem Clustered.name_ne {a b : Event} (c : Clustered name thread)
    (hasc : thread.Pairwise fun a b => a.eventId < b.eventId) (ha : a ∈ thread) (hb : b ∈ thread)
    (hlt : a.eventId < b.eventId) (hop : a.instOpType ≠ .normalOp) : name a ≠ name b := by
  intro heq
  obtain ⟨first, -, hle, hname⟩ := c.exists_first hasc a ha
  obtain ⟨l₁, l₂, rfl, hb₂⟩ := exists_split hasc ha hb hlt
  have hchain := (List.isChain_append.mp c.chain).2.1
  have hasc₂ := (List.pairwise_append.mp hasc).2.1
  rw [List.isChain_cons] at hchain
  rw [List.pairwise_cons] at hasc₂
  -- the names behind `a` are of events behind `a`
  obtain ⟨first', -, hbound, -, hname'⟩ := @linked_first name l₂ (a.eventId + 1) hchain.2 hasc₂.2
    (fun first hfirst => ⟨hasc₂.1 first (List.mem_of_head? hfirst), by
      have hlink := hchain.1 first hfirst
      unfold Linked at hlink
      rwa [if_neg hop] at hlink⟩) b hb₂
  have := createdName_inj ((hname.symm.trans heq).trans hname')
  omega

end Clustered

/-! ### Clusters of a trace -/

section Names
variable {trace : Trace} (wf : trace.WellFormed)
include wf

theorem Trace.WellFormed.clustered (t : Nat) : Clustered trace.eventName (trace.thread t) := by
  cases hget : trace.eventList[t]? with
  | none =>
    have hnil : trace.thread t = [] := by rw [Trace.thread, TreeMap.getD_eq_getD_getElem?, hget]; rfl
    rw [hnil]
    exact { head := fun h => by simp at h, chain := .nil }
  | some events =>
    have hthread : trace.thread t = events := by rw [Trace.thread, getD_of_getElem? hget]
    rw [hthread]
    refine Encode.foldl_clusterThread_clustered ?_ ?_ (fun _ _ _ _ => rfl) events (mem_threads.mpr ⟨t, hget⟩)
    · intro es hes
      obtain ⟨u, hu⟩ := mem_threads.mp hes
      have := wf.ascending u
      rwa [Trace.thread, getD_of_getElem? hu] at this
    · -- the lists are those of different keys
      have hkeys := TreeMap.distinct_keys_toList (t := trace.eventList)
      unfold Trace.threads
      rw [List.pairwise_map]
      refine hkeys.imp_of_mem fun {p q} hp hq hne a ha b hb heq => ?_
      rw [TreeMap.mem_toList_iff_getElem?_eq_some] at hp hq
      have hap : a ∈ trace.thread p.1 := by rwa [Trace.thread, getD_of_getElem? hp]
      have hbq : b ∈ trace.thread q.1 := by rwa [Trace.thread, getD_of_getElem? hq]
      exact hne (by simp [wf.unique hap hbq heq])

/-- Two events of different threads have different names. -/
theorem Trace.WellFormed.eventName_ne {t u : Nat} {a b : Event} (ha : a ∈ trace.thread t) (hb : b ∈ trace.thread u)
    (htu : t ≠ u) : trace.eventName a ≠ trace.eventName b := by
  intro heq
  obtain ⟨first, hfirst, -, hname⟩ := (wf.clustered t).exists_first (wf.ascending t) a ha
  obtain ⟨first', hfirst', -, hname'⟩ := (wf.clustered u).exists_first (wf.ascending u) b hb
  exact htu (wf.unique hfirst hfirst' (createdName_inj ((hname.symm.trans heq).trans hname')))

/-- Two different events that are not normal have different names. -/
theorem Trace.WellFormed.eventName_inj {t u : Nat} {a b : Event} (ha : a ∈ trace.thread t) (hb : b ∈ trace.thread u)
    (hopa : a.instOpType ≠ .normalOp) (hopb : b.instOpType ≠ .normalOp)
    (heq : trace.eventName a = trace.eventName b) : a = b := by
  by_cases htu : t = u
  · subst htu
    rcases Nat.lt_trichotomy a.eventId b.eventId with hlt | hid | hlt
    · exact absurd heq ((wf.clustered t).name_ne (wf.ascending t) ha hb hlt hopa)
    · exact wf.event_eq ha hb hid
    · exact absurd heq.symm ((wf.clustered t).name_ne (wf.ascending t) hb ha hlt hopb)
  · exact absurd heq (wf.eventName_ne ha hb htu)

end Names

/-! ### The memory model -/

theorem isChain_iff_zip {α : Type} {R : α → α → Prop} {l : List α} :
    l.IsChain R ↔ ∀ p ∈ l.zip l.tail, R p.1 p.2 := by
  induction l with
  | nil => simp
  | cons a l ih =>
    cases l with
    | nil => simp
    | cons b l => rw [List.isChain_cons_cons, ih]; simp

namespace Encode
variable {V : Type} {trace : Trace} {σ : Assignment V}

/-- What a schedule of one thread has to satisfy: it lies between `E_INIT` and `E_FINAL`, and neighbouring
    events with different names are in order. -/
structure Scheduled (trace : Trace) (σ : Assignment V) (thread : List Event) : Prop where
  first : ∀ {event : Event}, thread.head? = some event → σ.int "E_INIT" < σ.int (trace.eventName event)
  last : ∀ {event : Event}, thread.getLast? = some event → σ.int (trace.eventName event) < σ.int "E_FINAL"
  chain : thread.IsChain fun a b =>
    trace.eventName a ≠ trace.eventName b → σ.int (trace.eventName a) < σ.int (trace.eventName b)

theorem satisfies_buildMemoryModelFormula : Satisfies σ (buildMemoryModelFormula trace) ↔
    σ.int "E_INIT" = 0 ∧ σ.int "E_FINAL" = uniqueEvent trace + 100 ∧
      ∀ thread ∈ trace.threads, Scheduled trace σ thread := by
  have hends : ∀ thread : List Event, Satisfies σ (initialAndFinal trace thread) ↔
      (∀ {event : Event}, thread.head? = some event → σ.int "E_INIT" < σ.int (trace.eventName event)) ∧
      (∀ {event : Event}, thread.getLast? = some event → σ.int (trace.eventName event) < σ.int "E_FINAL") := by
    intro thread
    cases thread with
    | nil => simp [initialAndFinal]
    | cons a rest =>
      have hlast : (a :: rest).getLast? = some ((a :: rest).getLast (by simp)) := List.getLast?_eq_some_getLast (by simp)
      simp only [initialAndFinal, List.head?_cons, hlast, order, satisfies_cons, satisfies_nil, holds_lt, eval_const,
        and_true, Option.some.injEq, forall_eq']
  have hsteps : ∀ thread : List Event,
      (∀ pair ∈ nameSteps trace thread, σ.int (trace.eventName pair.1) < σ.int (trace.eventName pair.2)) ↔
      thread.IsChain fun a b =>
        trace.eventName a ≠ trace.eventName b → σ.int (trace.eventName a) < σ.int (trace.eventName b) := by
    intro thread
    rw [isChain_iff_zip]
    simp only [nameSteps, List.mem_filter, decide_eq_true_eq, and_imp]
  simp only [buildMemoryModelFormula, satisfies_append, satisfies_flatMap, satisfies_map, satisfies_cons, satisfies_nil,
    and_true, holds_eq, eval_const, eval_val, eval_add, order, holds_lt, hends, List.mem_flatMap]
  constructor
  · rintro ⟨⟨⟨hinit, hse⟩, hchain⟩, hfinal⟩
    refine ⟨hinit, hfinal, fun thread hthread => ⟨(hse thread hthread).1, (hse thread hthread).2, ?_⟩⟩
    exact (hsteps thread).mp fun pair hpair => hchain pair ⟨thread, hthread, hpair⟩
  · rintro ⟨hinit, hfinal, hthreads⟩
    refine ⟨⟨⟨hinit, fun thread hthread => ⟨(hthreads thread hthread).first, (hthreads thread hthread).last⟩⟩, ?_⟩, hfinal⟩
    rintro pair ⟨thread, hthread, hpair⟩
    exact (hsteps thread).mpr (hthreads thread hthread).chain pair hpair

/-- In a schedule, events of one cluster share their position and clusters are in order. -/
theorem Scheduled.pairwise {thread : List Event} (h : Scheduled trace σ thread) :
    thread.Pairwise fun a b =>
      trace.eventName a = trace.eventName b ∨ σ.int (trace.eventName a) < σ.int (trace.eventName b) := by
  have htrans : IsTrans Event fun a b =>
      trace.eventName a = trace.eventName b ∨ σ.int (trace.eventName a) < σ.int (trace.eventName b) := by
    refine ⟨fun a b c hab hbc => ?_⟩
    rcases hab with hab | hab <;> rcases hbc with hbc | hbc
    · exact .inl (hab.trans hbc)
    · exact .inr (hab ▸ hbc)
    · exact .inr (hbc ▸ hab)
    · exact .inr (hab.trans hbc)
  exact List.isChain_iff_pairwise.mp (h.chain.imp fun a b hab => or_iff_not_imp_left.mpr hab)

theorem satisfies_pairwise (hσ : Satisfies σ (buildMemoryModelFormula trace)) (t : Nat) :
    (trace.thread t).Pairwise fun a b =>
      trace.eventName a = trace.eventName b ∨ σ.int (trace.eventName a) < σ.int (trace.eventName b) := by
  obtain ⟨-, -, hthreads⟩ := satisfies_buildMemoryModelFormula.mp hσ
  unfold Trace.thread
  rw [TreeMap.getD_eq_getD_getElem?]
  cases hget : trace.eventList[t]? with
  | none => exact .nil
  | some events => exact (hthreads events (mem_threads.mpr ⟨t, hget⟩)).pairwise

end Encode

/-! ### Positions -/

open Encode

section
variable {V : Type}

/-- Where an assignment places an event. -/
def position (σ : Assignment V) (trace : Trace) (event : Event) : Int := σ.int (trace.eventName event)

variable {trace : Trace} {σ : Assignment V} (wf : trace.WellFormed) (hσ : Satisfies σ (buildMemoryModelFormula trace))
include wf hσ

theorem Trace.WellFormed.position_lt {t : Nat} {a b : Event} (ha : a ∈ trace.thread t) (hb : b ∈ trace.thread t)
    (hlt : a.eventId < b.eventId) (hne : trace.eventName a ≠ trace.eventName b) :
    position σ trace a < position σ trace b := by
  obtain ⟨l₁, l₂, hsplit, hb₂⟩ := exists_split (wf.ascending t) ha hb hlt
  have hpairs := satisfies_pairwise hσ t
  rw [hsplit, List.pairwise_append] at hpairs
  exact ((List.pairwise_cons.mp hpairs.2.1).1 b hb₂).resolve_left hne

theorem Trace.WellFormed.position_le {t : Nat} {a b : Event} (ha : a ∈ trace.thread t) (hb : b ∈ trace.thread t)
    (hle : a.eventId ≤ b.eventId) : position σ trace a ≤ position σ trace b := by
  rcases hle.lt_or_eq with hlt | heq
  · by_cases hname : trace.eventName a = trace.eventName b
    · exact (congrArg σ.int hname).le
    · exact (wf.position_lt hσ ha hb hlt hname).le
  · exact (congrArg (position σ trace) (wf.event_eq ha hb heq)).le

theorem Trace.WellFormed.position_head_le {t : Nat} {first event : Event} (hfirst : (trace.thread t).head? = some first)
    (hevent : event ∈ trace.thread t) : position σ trace first ≤ position σ trace event := by
  refine wf.position_le hσ (List.mem_of_mem_head? hfirst) hevent ?_
  obtain ⟨rest, hrest⟩ := List.head?_eq_some_iff.mp hfirst
  have hasc := wf.ascending t
  rw [hrest] at hasc hevent
  rcases List.mem_cons.mp hevent with rfl | hevent
  · exact le_rfl
  · exact ((List.pairwise_cons.mp hasc).1 event hevent).le

theorem Trace.WellFormed.position_le_getLast {t : Nat} {last event : Event} (hlast : (trace.thread t).getLast? = some last)
    (hevent : event ∈ trace.thread t) : position σ trace event ≤ position σ trace last := by
  refine wf.position_le hσ hevent (List.mem_of_getLast? hlast) ?_
  obtain ⟨front, hfront⟩ := List.getLast?_eq_some_iff.mp hlast
  have hasc := wf.ascending t
  rw [hfront] at hasc hevent
  rcases List.mem_append.mp hevent with hevent | hevent
  · exact ((List.pairwise_append.mp hasc).2.2 event hevent last (List.mem_singleton_self _)).le
  · rw [List.mem_singleton.mp hevent]

/-- In a schedule a created thread is behind its creation as a whole, and a joined one before the join. -/
theorem Trace.WellFormed.partialOrder {fs : List Formula} (hfs : buildPartialOrderFormula trace = some fs)
    (hsat : Satisfies σ fs) :
    (∀ item ∈ trace.createThreadPoint, ∀ event ∈ trace.thread item.2, position σ trace item.1 < position σ trace event) ∧
      ∀ item ∈ trace.joinThreadPoint, ∀ event ∈ trace.thread item.2, position σ trace event < position σ trace item.1 := by
  obtain ⟨created, hcreated, hfs⟩ := Option.bind_eq_some_iff.mp hfs
  obtain ⟨joined, hjoined, hfs⟩ := Option.bind_eq_some_iff.mp hfs
  obtain rfl := Option.some.inj hfs
  constructor
  · intro item hitem event hevent
    obtain ⟨f, hf, hitem⟩ := OptionLoop.mapM_mem hcreated hitem
    obtain ⟨first, hfirst, rfl⟩ := Option.map_eq_some_iff.mp hitem
    have hlt : position σ trace item.1 < position σ trace first := hsat _ (List.mem_append_left _ hf)
    exact hlt.trans_le (wf.position_head_le hσ hfirst hevent)
  · intro item hitem event hevent
    obtain ⟨f, hf, hitem⟩ := OptionLoop.mapM_mem hjoined hitem
    obtain ⟨last, hlast, rfl⟩ := Option.map_eq_some_iff.mp hitem
    have hlt : position σ trace last < position σ trace item.1 := hsat _ (List.mem_append_right _ hf)
    exact (wf.position_le_getLast hσ hlast hevent).trans_lt hlt

end

end CapTaint
