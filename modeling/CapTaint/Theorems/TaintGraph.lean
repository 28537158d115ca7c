import CapTaint.Theorems.Taint

/-! # The graph of a taint pass

`initTaint` marks what the serial taint reaches, whatever marks an earlier pass has left. The two lists of an edge say
the same in the graph that `DTAMParallel` builds, and `DTAMhybrid` keeps them so only when it drops nothing. -/

namespace CapTaint.DTAM
open Std Worklist Relation

/-! ### Reachability -/

/-- The edges of the points of the maps lead to points of the maps. -/
def Closed (d : DTAM) : Prop := ∀ a ∈ d.allPoints, ∀ b, d.Affects a b → b ∈ d.allPoints

/-- The state of the loop of `initTaint` when it starts, and after some of its rounds. -/
def remainPoint (d : DTAM) (DTAMSerial : TreeSet String) (rounds : Nat) : Search Nat :=
  (d.allPoints.foldl (d.initPoint DTAMSerial) { marked := d.isTaint, stack := [] }).run
    (fun id => (d.point id).affectingVariable) rounds

/-- A point that the serial taint reaches. -/
def Reached (d : DTAM) (DTAMSerial : TreeSet String) (a : Nat) : Prop :=
  ∃ r ∈ d.allPoints, (d.point r).name ∈ DTAMSerial ∧ ReflTransGen d.Affects r a

variable {d : DTAM} {DTAMSerial : TreeSet String}

theorem Closed.reflTransGen (hclosed : d.Closed) {r a : Nat} (hr : r ∈ d.allPoints) (hpath : ReflTransGen d.Affects r a) :
    a ∈ d.allPoints := by
  induction hpath with
  | refl => exact hr
  | tail _ hstep ih => exact hclosed _ ih _ hstep

/-- On the points of the maps the first marks are the first stack: stale marks are taken away there. -/
theorem remainPoint_zero {a : Nat} (ha : a ∈ d.allPoints) :
    a ∈ (d.remainPoint DTAMSerial 0).marked ↔ a ∈ (d.remainPoint DTAMSerial 0).stack := by
  have hmarked : a ∈ (d.remainPoint DTAMSerial 0).marked ↔ (d.point a).name ∈ DTAMSerial := by
    rw [remainPoint, Search.run, initPoints_marked, if_pos ha]
  rw [hmarked, remainPoint, Search.run, initSearch_stack]
  exact (and_iff_right ha).symm

/-- The rounds that the model of `initTaint` makes are enough. -/
theorem exists_rounds (d : DTAM) (DTAMSerial : TreeSet String) :
    ∃ rounds, (d.remainPoint DTAMSerial rounds).stack = [] ∧
      (d.initTaint DTAMSerial).isTaint = (d.remainPoint DTAMSerial rounds).marked := by
  refine ⟨_, Search.run_stack affecting_mem_flatMap ?_, rfl⟩
  have hstack := initPoints_length (d := d) DTAMSerial d.allPoints { marked := d.isTaint, stack := [] }
  rw [List.length_nil, Nat.zero_add] at hstack
  exact Nat.add_le_add hstack (List.length_filter_le _ _)

theorem initTaint_of_reached_closed (hclosed : d.Closed) {a : Nat} (ha : d.Reached DTAMSerial a) :
    a ∈ (d.initTaint DTAMSerial).isTaint := by
  obtain ⟨rounds, hend, hmarks⟩ := exists_rounds d DTAMSerial
  have hprogress : Search.Progress (fun id => (d.point id).affectingVariable) (d.remainPoint DTAMSerial 0)
      (d.remainPoint DTAMSerial rounds) := initSearch_progress DTAMSerial rounds
  obtain ⟨r, hr, hname, hpath⟩ := ha
  rw [hmarks]
  -- along the path every point leaves the stack, and its successors are marked then
  induction hpath with
  | refl =>
    refine hprogress.kept r ((remainPoint_zero hr).mpr ?_)
    exact (initSearch_stack DTAMSerial r).mpr ⟨hr, hname⟩
  | @tail b c hpath hstep ih =>
    have hb : b ∈ d.allPoints := hclosed.reflTransGen hr hpath
    refine hprogress.explored b ih ?_ (by rw [hend]; exact List.not_mem_nil) c hstep
    rw [remainPoint_zero hb]
    exact Decidable.em _

/-- `initTaint` ends with an empty stack, and a point is tainted exactly when the serial taint reaches it. The marks
    before it are arbitrary. -/
theorem initTaint_reachable (hclosed : d.Closed) (DTAMSerial : TreeSet String) :
    (∃ rounds, (d.remainPoint DTAMSerial rounds).stack = [] ∧
      (d.initTaint DTAMSerial).isTaint = (d.remainPoint DTAMSerial rounds).marked) ∧
    ∀ a ∈ d.allPoints, a ∈ (d.initTaint DTAMSerial).isTaint ↔ d.Reached DTAMSerial a :=
  ⟨exists_rounds d DTAMSerial, fun _ ha => ⟨fun htaint => reached_of_initTaint htaint ha,
    initTaint_of_reached_closed hclosed⟩⟩

/-- A cycle of two points with a doubled edge, both marked before, and a write that nothing reaches. -/
def cyclePoints : DTAM where
  points := [{ name := "G1_8L1", vectorClock := [], affectingVariable := [1, 1] },
    { name := "G1_8S1", vectorClock := [], affectingVariable := [0] }, { name := "G2_8S1", vectorClock := [] }]
  allRead := (∅ : TreeMap String Nat).insert "G1_8L1" 0
  allWrite := ((∅ : TreeMap String Nat).insert "G1_8S1" 1).insert "G2_8S1" 2
  isTaint := [0, 2]

theorem initTaint_reachable_cyclePoints :
    (∃ rounds, (cyclePoints.remainPoint ((∅ : TreeSet String).insert "G1_8L1") rounds).stack = [] ∧
      (cyclePoints.initTaint ((∅ : TreeSet String).insert "G1_8L1")).isTaint =
        (cyclePoints.remainPoint ((∅ : TreeSet String).insert "G1_8L1") rounds).marked) ∧
    ∀ a ∈ cyclePoints.allPoints, a ∈ (cyclePoints.initTaint ((∅ : TreeSet String).insert "G1_8L1")).isTaint ↔
      cyclePoints.Reached ((∅ : TreeSet String).insert "G1_8L1") a := by
  refine initTaint_reachable ?_ _
  have hedges : ∀ a ∈ cyclePoints.allPoints, ∀ b ∈ (cyclePoints.point a).affectingVariable, b ∈ cyclePoints.allPoints := by
    decide +kernel
  exact hedges

/-! ### Where the graph of a trace is closed -/

/-- The graph of a trace is closed unless a write has replaced another one of its name. -/
theorem Graph.closed {t : TaintTables} (h : Graph t.allReadSet t.reads t.writes d)
    (hnames : (t.writes.map TaintEvent.name).Nodup) : d.Closed := by
  intro a ha b hb
  have halt := h.point_lt ha
  rcases Nat.lt_or_ge a t.reads.length with hread | hwrite
  · obtain ⟨k, w, hw, rfl, _⟩ := (h.read_edge hread).mp hb
    obtain ⟨id, hid⟩ := h.allWrite_mem (List.mem_of_getElem? hw)
    obtain ⟨k', w', hw', rfl, hname⟩ := h.allWrite_some hid
    have hk : (t.writes.map TaintEvent.name)[k]? = (t.writes.map TaintEvent.name)[k']? := by simp [hw, hw', hname]
    have hlt : k < (t.writes.map TaintEvent.name).length := by simpa using (List.getElem?_eq_some_iff.mp hw).1
    obtain rfl : k = k' := (List.getElem?_inj hlt hnames).mp hk
    exact mem_allPoints.mpr (.inl ⟨_, hid⟩)
  · obtain ⟨k, rfl⟩ := Nat.exists_eq_add_of_le hwrite
    have hk : k < t.writes.length := by have := h.length; omega
    obtain ⟨r, _, hname⟩ := (h.write_edge (List.getElem?_eq_getElem hk)).mp hb
    exact mem_allPoints.mpr (.inr ⟨_, hname⟩)

/-- So the second pass of `dtam`, on less edges, starts from a closed graph as well. -/
theorem Subgraph.closed {d' : DTAM} (hsub : Subgraph d' d) (hlt : ∀ a ∈ d.allPoints, a < d.points.length)
    (hclosed : d.Closed) : d'.Closed := by
  intro a ha b hb
  rw [hsub.allPoints] at ha ⊢
  exact hclosed a ha b (hsub.affecting a (hlt a ha) b hb)

/-! ### Converse lists -/

/-- Each edge stands in the lists of both of its ends. -/
def Converse (d : DTAM) : Prop :=
  ∀ a b, b ∈ (d.point a).affectingVariable ↔ a ∈ (d.point b).affectedVariable

/-- What the loops of `DTAMParallel` keep. -/
structure Linked (d : DTAM) : Prop where
  converse : d.Converse
  range : ∀ {a b : Nat}, b ∈ (d.point a).affectingVariable → a < d.points.length ∧ b < d.points.length
  allRead : ∀ {name : String} {id : Nat}, d.allRead[name]? = some id → id < d.points.length

theorem point_of_length_le {id : Nat} (h : d.points.length ≤ id) : d.point id = default := by
  rw [point, List.getD_eq_default _ _ h]

theorem addEdge_length {source target : Nat} : (d.addEdge source target).points.length = d.points.length := by
  simp [addEdge, modify]

theorem point_addEdge {source target id : Nat} (hsource : source < d.points.length) (htarget : target < d.points.length) :
    (d.addEdge source target).point id =
      { d.point id with
        affectingVariable := (d.point id).affectingVariable ++ if source = id then [target] else []
        affectedVariable := (d.point id).affectedVariable ++ if target = id then [source] else [] } := by
  rcases Nat.lt_or_ge id d.points.length with hid | hid
  · have hid' : id < (d.modify source fun p =>
        { p with affectingVariable := p.affectingVariable ++ [target] }).points.length := by simpa [modify] using hid
    rw [addEdge, point_modify hid', point_modify hid]
    by_cases hs : source = id <;> by_cases ht : target = id <;> simp [hs, ht]
  · have hs : source ≠ id := by omega
    have ht : target ≠ id := by omega
    rw [point_of_length_le hid, point_of_length_le (by rwa [addEdge_length])]
    simp [hs, ht]

theorem Linked.addEdge (h : d.Linked) {source target : Nat} (hsource : source < d.points.length)
    (htarget : target < d.points.length) : (d.addEdge source target).Linked := by
  have haffecting : ∀ a b, b ∈ ((d.addEdge source target).point a).affectingVariable ↔
      b ∈ (d.point a).affectingVariable ∨ a = source ∧ b = target := by
    intro a b
    rw [point_addEdge hsource htarget]
    by_cases hs : source = a
    · simp [hs]
    · simp [hs, Ne.symm hs]
  have haffected : ∀ a b, a ∈ ((d.addEdge source target).point b).affectedVariable ↔
      a ∈ (d.point b).affectedVariable ∨ a = source ∧ b = target := by
    intro a b
    rw [point_addEdge hsource htarget]
    by_cases ht : target = b
    · simp [ht]
    · simp [ht, Ne.symm ht]
  refine ⟨fun a b => ?_, fun {a b} hb => ?_, fun hid => ?_⟩
  · rw [haffecting, haffected, h.converse a b]
  · rw [addEdge_length]
    rcases (haffecting a b).mp hb with hb | ⟨rfl, rfl⟩
    · exact h.range hb
    · exact ⟨hsource, htarget⟩
  · rw [addEdge_length]
    exact h.allRead hid

theorem Linked.addEdges (h : d.Linked) (edges : List (Nat × Nat))
    (hedges : ∀ e ∈ edges, e.1 < d.points.length ∧ e.2 < d.points.length) :
    (edges.foldl (fun d e => d.addEdge e.1 e.2) d).Linked := by
  induction edges generalizing d with
  | nil => exact h
  | cons e edges ih =>
    obtain ⟨hsource, htarget⟩ := hedges e List.mem_cons_self
    refine ih (h.addEdge hsource htarget) fun e' he' => ?_
    rw [addEdge_length]
    exact hedges e' (List.mem_cons_of_mem e he')

/-- A new point has no edges yet. -/
theorem point_append_lists (d : DTAM) (name : String) (vectorClock : List Nat) (id : Nat) :
    (({ d with points := d.points ++ [{ name, vectorClock }] } : DTAM).point id).affectingVariable =
        (d.point id).affectingVariable ∧
      (({ d with points := d.points ++ [{ name, vectorClock }] } : DTAM).point id).affectedVariable =
        (d.point id).affectedVariable := by
  rcases Nat.lt_trichotomy id d.points.length with hid | rfl | hid
  · rw [point_append hid]
    exact ⟨rfl, rfl⟩
  · rw [point_append_last, point_of_length_le le_rfl]
    exact ⟨rfl, rfl⟩
  · rw [point_of_length_le hid.le, point_of_length_le (by simpa using hid)]
    exact ⟨rfl, rfl⟩

theorem Linked.append (h : d.Linked) (name : String) (vectorClock : List Nat) :
    ({ d with points := d.points ++ [{ name, vectorClock }] } : DTAM).Linked := by
  have hlists := point_append_lists d name vectorClock
  refine ⟨fun a b => ?_, fun {a b} hb => ?_, fun hid => ?_⟩
  · rw [(hlists a).1, (hlists b).2]
    exact h.converse a b
  · rw [(hlists a).1] at hb
    rw [List.length_append]
    obtain ⟨ha, hb⟩ := h.range hb
    exact ⟨Nat.lt_add_right _ ha, Nat.lt_add_right _ hb⟩
  · rw [List.length_append]
    exact Nat.lt_add_right _ (h.allRead hid)

theorem Linked.addRead (h : d.Linked) (e : TaintEvent) : (d.addRead e).Linked := by
  obtain ⟨hconverse, hrange, hread⟩ := h.append e.name e.vectorClock
  refine ⟨hconverse, hrange, fun {name id} hid => ?_⟩
  simp only [DTAM.addRead, TreeMap.getElem?_insert] at hid
  split at hid
  case isTrue =>
    obtain rfl := Option.some.inj hid
    simp [DTAM.addRead]
  case isFalse => exact hread hid

theorem Linked.addWrite {allReadSet : TreeMap String (List TaintEvent)} (h : d.Linked) {e : TaintEvent} {d' : DTAM}
    (hd' : d.addWrite allReadSet e = some d') : d'.Linked := by
  obtain ⟨related, hrelated, hd'⟩ := Option.bind_eq_some_iff.mp hd'
  obtain ⟨reads, hreads, hd'⟩ := Option.bind_eq_some_iff.mp hd'
  obtain rfl := Option.some.inj hd'
  have hrelatedLt : ∀ i ∈ related, i < d.points.length := by
    intro i hi
    obtain ⟨value, _, hvalue⟩ := OptionLoop.mem_mapM hrelated hi
    obtain ⟨name, _, hname⟩ := Option.bind_eq_some_iff.mp hvalue
    exact h.allRead hname
  have hreadsLt : ∀ i ∈ reads, i < d.points.length := by
    intro i hi
    obtain ⟨r, _, hname⟩ := OptionLoop.mem_mapM hreads hi
    exact h.allRead hname
  let d₁ : DTAM := { d with points := d.points ++ [{ name := e.name, vectorClock := e.vectorClock }] }
  have hd₁ : d₁.Linked := h.append e.name e.vectorClock
  have hlen : d₁.points.length = d.points.length + 1 := by simp [d₁]
  have hedges := hd₁.addEdges (related.map (·, d.points.length) ++ reads.map (d.points.length, ·)) (by
    intro edge hedge
    rcases List.mem_append.mp hedge with hedge | hedge
    · obtain ⟨i, hi, rfl⟩ := List.mem_map.mp hedge
      have := hrelatedLt i hi
      simp only
      omega
    · obtain ⟨i, hi, rfl⟩ := List.mem_map.mp hedge
      have := hreadsLt i hi
      simp only
      omega)
  simp only [d₁, List.foldl_append, List.foldl_map] at hedges
  exact ⟨hedges.converse, hedges.range, hedges.allRead⟩

theorem dtamParallel_linked {t : TaintTables} (h : dtamParallel t = some d) : d.Linked := by
  have hempty : ({} : DTAM).Linked := by
    have hpoint : ∀ id, ({} : DTAM).point id = default := fun id => point_of_length_le (Nat.zero_le id)
    refine ⟨fun a b => ?_, fun {a b} hb => ?_, fun hid => ?_⟩
    · rw [hpoint a, hpoint b]
      exact iff_of_false List.not_mem_nil List.not_mem_nil
    · rw [hpoint a] at hb
      exact absurd hb List.not_mem_nil
    · simp at hid
  have hreads : ∀ (rs : List TaintEvent) {d : DTAM}, d.Linked → (rs.foldl addRead d).Linked := by
    intro rs
    induction rs with
    | nil => exact fun h => h
    | cons r rs ih => exact fun h => ih (h.addRead r)
  have hwrites : ∀ (ws : List TaintEvent) {d d' : DTAM}, d.Linked →
      ws.foldlM (addWrite t.allReadSet) d = some d' → d'.Linked := by
    intro ws
    induction ws with
    | nil =>
      intro d d' h hd'
      obtain rfl := Option.some.inj hd'
      exact h
    | cons w ws ih =>
      intro d d' h hd'
      rw [List.foldlM_cons] at hd'
      obtain ⟨d₁, hd₁, hrest⟩ := Option.bind_eq_some_iff.mp hd'
      exact ih (h.addWrite hd₁) hrest
  exact hwrites _ (hreads _ hempty) h

/-! ### Pruning both lists -/

/-- The numbers of the writes that the loop of `DTAMhybrid` visits. -/
def writeIds (d : DTAM) : List Nat := d.allWrite.toList.map (·.2)

/-- The read `r` is affected by the write `w`, whose clock is after its own. -/
def Dropped (d : DTAM) (w r : Nat) : Prop :=
  w ∈ d.writeIds ∧ r ∈ (d.point w).affectingVariable ∧ isBefore (d.point w).vectorClock (d.point r).vectorClock = false

instance (d : DTAM) (w r : Nat) : Decidable (d.Dropped w r) := inferInstanceAs (Decidable (_ ∧ _ ∧ _))

/-- `d'` is `d` without the edges from a write to a read that is not behind it, in both lists of each. -/
structure Consistent (d d' : DTAM) : Prop where
  writes : ∀ w ∈ d.writeIds, (d'.point w).affectingVariable =
    (d.point w).affectingVariable.filter fun r => isBefore (d.point w).vectorClock (d.point r).vectorClock
  others : ∀ a, a ∉ d.writeIds → (d'.point a).affectingVariable = (d.point a).affectingVariable
  affected : ∀ r, (d'.point r).affectedVariable = (d.point r).affectedVariable.filter fun w => ¬d.Dropped w r
  converse : d'.Converse

theorem pruneReads_self {w : Nat} {rs : List Nat}
    (h : ∀ r ∈ rs, isBefore (d.point w).vectorClock (d.point r).vectorClock = true) : d.pruneReads w rs = some rs := by
  induction rs with
  | nil => rfl
  | cons r rs ih =>
    obtain ⟨hr, hrs⟩ := List.forall_mem_cons.mp h
    rw [pruneReads, if_pos hr, ih hrs]
    rfl

theorem pruneWrite_self {w : Nat}
    (h : ∀ r ∈ (d.point w).affectingVariable, isBefore (d.point w).vectorClock (d.point r).vectorClock = true) :
    d.pruneWrite w = some d := by
  have hpoints : d.points.modify w (fun p => { p with affectingVariable := (d.point w).affectingVariable }) = d.points := by
    refine List.ext_getElem? fun i => ?_
    rw [List.getElem?_modify]
    split
    case isTrue hwi =>
      subst hwi
      cases hp : d.points[w]? with
      | none => rfl
      | some p => simp [point_of_getElem? hp]
    case isFalse => simp
  rw [pruneWrite, pruneReads_self h]
  simp only [Option.bind_eq_bind, Option.bind_some, modify, hpoints]

theorem dtamHybrid_self (h : ∀ w r, ¬d.Dropped w r) : d.dtamHybrid = some d := by
  have hloop : ∀ ws : List Nat, (∀ w ∈ ws, w ∈ d.writeIds) → ws.foldlM pruneWrite d = some d := by
    intro ws hws
    induction ws with
    | nil => rfl
    | cons w ws ih =>
      obtain ⟨hw, hws⟩ := List.forall_mem_cons.mp hws
      have hkept : d.pruneWrite w = some d := pruneWrite_self fun r hr => by
        by_contra hafter
        exact h w r ⟨hw, hr, by simpa using hafter⟩
      rw [List.foldlM_cons, hkept]
      exact ih hws
  exact hloop _ fun _ hw => hw

/-- No round of the loop changes a list of the affecting points. -/
theorem pruneWrite_affected {w : Nat} {d' : DTAM} (h : d.pruneWrite w = some d') (id : Nat) :
    (d'.point id).affectedVariable = (d.point id).affectedVariable := by
  obtain ⟨kept, _, hd'⟩ := Option.bind_eq_some_iff.mp h
  obtain rfl := Option.some.inj hd'
  rcases Nat.lt_or_ge id d.points.length with hid | hid
  · rw [point_modify hid]
    split <;> rfl
  · rw [point_of_length_le hid, point_of_length_le (by simpa [modify] using hid)]

theorem dtamHybrid_affected {d' : DTAM} (h : d.dtamHybrid = some d') (id : Nat) :
    (d'.point id).affectedVariable = (d.point id).affectedVariable := by
  have hloop : ∀ (ws : List Nat) {d : DTAM}, ws.foldlM pruneWrite d = some d' →
      (d'.point id).affectedVariable = (d.point id).affectedVariable := by
    intro ws
    induction ws with
    | nil =>
      intro d hd'
      obtain rfl := Option.some.inj hd'
      rfl
    | cons w ws ih =>
      intro d hd'
      rw [List.foldlM_cons] at hd'
      obtain ⟨d₁, hd₁, hrest⟩ := Option.bind_eq_some_iff.mp hd'
      rw [ih hrest, pruneWrite_affected hd₁]
  exact hloop _ h

/-- The pruning is consistent on exactly the graphs in which it has nothing to prune: a dropped edge stays in the list of
    the read, or the loop leaves its vector. -/
theorem dtamHybrid_consistent_iff {t : TaintTables} (h : dtamParallel t = some d) :
    (∃ d', d.dtamHybrid = some d' ∧ d.Consistent d') ↔ ∀ w r, ¬d.Dropped w r := by
  have hlinked := dtamParallel_linked h
  constructor
  · rintro ⟨d', hd', hconsistent⟩ w r hdropped
    have hmem : w ∈ (d'.point r).affectedVariable := by
      rw [dtamHybrid_affected hd']
      exact (hlinked.converse w r).mp hdropped.2.1
    rw [hconsistent.affected] at hmem
    have hkept := (List.mem_filter.mp hmem).2
    exact absurd hdropped (of_decide_eq_true hkept)
  · intro hnone
    refine ⟨d, dtamHybrid_self hnone, ⟨fun w hw => ?_, fun _ _ => rfl, fun r => ?_, hlinked.converse⟩⟩
    · refine (List.filter_eq_self.mpr fun r hr => ?_).symm
      by_contra hafter
      exact hnone w r ⟨hw, hr, by simpa using hafter⟩
    · exact (List.filter_eq_self.mpr fun w _ => by simpa using hnone w r).symm

/-- The main thread reads `x`, creates a thread and stores a constant in `x`. -/
def storeAfterCreate (clock : List Nat) : TaintTables where
  allReadSet := (∅ : TreeMap String (List TaintEvent)).insert "G1_8"
    [{ event := { threadId := 1, eventId := 0, inst := .load ⟨1, 8, true⟩ false, eventType := .normal, varName := "G1_8",
                  globalVarFullName := "G1_8L1", isGlobal := true }
       vectorClock := [0, 0, 0, 0, 0], relatedSymbolicExpr := [] }]
  allWriteSet := (∅ : TreeMap String (List TaintEvent)).insert "G1_8"
    [{ event := { threadId := 1, eventId := 2, inst := .store ⟨1, 8, true⟩ false, eventType := .normal,
                  varName := "G1_8", globalVarFullName := "G1_8S1", isGlobal := true }
       vectorClock := clock, relatedSymbolicExpr := [] }]
  DTAMSerial := ∅

/-- The graph of such a trace. -/
def storePoints (clock : List Nat) : DTAM := (dtamParallel (storeAfterCreate clock)).getD {}

/-- Where the thread is created after the store, nothing is dropped. -/
theorem dtamHybrid_consistent_storeBeforeCreate :
    (∃ d', (storePoints [0, 0, 0, 0, 0]).dtamHybrid = some d' ∧ (storePoints [0, 0, 0, 0, 0]).Consistent d') ↔
      ∀ w r, ¬(storePoints [0, 0, 0, 0, 0]).Dropped w r :=
  dtamHybrid_consistent_iff (t := storeAfterCreate [0, 0, 0, 0, 0]) (Option.some_get (by decide +kernel)).symm

/-- The write is dropped from the reads that it affects, and stays among the points that affect the read. -/
theorem not_consistent_storeAfterCreate : ∃ d, dtamParallel (storeAfterCreate [0, 1, 0, 0, 0]) = some d ∧
    ¬∃ d', d.dtamHybrid = some d' ∧ d.Consistent d' := by
  refine ⟨_, (Option.some_get (by decide +kernel)).symm, ?_⟩
  rintro ⟨d', hd', hconsistent⟩
  have hkept : (d'.point 0).affectedVariable = [1] := by
    rw [dtamHybrid_affected hd']
    decide +kernel
  rw [hconsistent.affected] at hkept
  revert hkept
  decide +kernel

end CapTaint.DTAM
