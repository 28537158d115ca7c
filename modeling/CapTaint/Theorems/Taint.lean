import CapTaint.DTAM
import CapTaint.Lib.Smt
import CapTaint.Lib.OptionLoop
import CapTaint.Lib.VectorClock

/-! The three taint sets of a trace. The graph that `DTAMParallel` builds is known by its points and edges, the marks of
    `initTaint` are what the tainted points reach, and `DTAMhybrid` takes edges away where it is defined. -/

namespace CapTaint.DTAM
open Std Worklist Relation Snoc

/-! ### Points and edges -/

theorem point_of_getElem? {d : DTAM} {id : Nat} {p : DTAMPoint} (h : d.points[id]? = some p) : d.point id = p := by
  simp [point, List.getD_eq_getElem?_getD, h]

theorem point_append {d : DTAM} {p : DTAMPoint} {id : Nat} (h : id < d.points.length) :
    ({ d with points := d.points ++ [p] } : DTAM).point id = d.point id := by
  simp [point, List.getD_eq_getElem?_getD, List.getElem?_append_left h]

theorem point_append_last {d : DTAM} {p : DTAMPoint} :
    ({ d with points := d.points ++ [p] } : DTAM).point d.points.length = p := by
  simp [point, List.getD_eq_getElem?_getD]

theorem point_modify {d : DTAM} {target : Nat} {f : DTAMPoint → DTAMPoint} {id : Nat} (h : id < d.points.length) :
    (d.modify target f).point id = if target = id then f (d.point id) else d.point id := by
  simp only [point, modify, List.getD_eq_getElem?_getD, List.getElem?_modify, List.getElem?_eq_getElem h]
  split <;> simp

/-- `d'` is `d` with the edges `edges`. -/
structure Extends (edges : List (Nat × Nat)) (d d' : DTAM) : Prop where
  length : d'.points.length = d.points.length
  allRead : d'.allRead = d.allRead
  allWrite : d'.allWrite = d.allWrite
  isTaint : d'.isTaint = d.isTaint
  name : ∀ id < d.points.length, (d'.point id).name = (d.point id).name
  vectorClock : ∀ id < d.points.length, (d'.point id).vectorClock = (d.point id).vectorClock
  affecting : ∀ id < d.points.length, ∀ j,
    j ∈ (d'.point id).affectingVariable ↔ j ∈ (d.point id).affectingVariable ∨ (id, j) ∈ edges

theorem addEdge_extends (d : DTAM) (source target : Nat) : Extends [(source, target)] d (d.addEdge source target) := by
  have hpoint : ∀ id < d.points.length, (d.addEdge source target).point id =
      { d.point id with
        affectingVariable := (d.point id).affectingVariable ++ if source = id then [target] else []
        affectedVariable := (d.point id).affectedVariable ++ if target = id then [source] else [] } := by
    intro id hid
    have hid' : id < (d.modify source fun p =>
        { p with affectingVariable := p.affectingVariable ++ [target] }).points.length := by simpa [modify] using hid
    rw [addEdge, point_modify hid', point_modify hid]
    by_cases hs : source = id <;> by_cases ht : target = id <;> simp [hs, ht]
  refine ⟨by simp [addEdge, modify], rfl, rfl, rfl, ?_, ?_, ?_⟩
  · intro id hid
    rw [hpoint id hid]
  · intro id hid
    rw [hpoint id hid]
  · intro id hid j
    rw [hpoint id hid]
    by_cases hs : source = id
    · simp [hs]
    · simp [hs, Ne.symm hs]

theorem addEdges_extends (edges : List (Nat × Nat)) (d : DTAM) :
    Extends edges d (edges.foldl (fun d e => d.addEdge e.1 e.2) d) := by
  induction edges generalizing d with
  | nil => exact ⟨rfl, rfl, rfl, rfl, fun _ _ => rfl, fun _ _ => rfl, fun _ _ _ => by simp⟩
  | cons e edges ih =>
    obtain ⟨source, target⟩ := e
    have h := addEdge_extends d source target
    have hrest := ih (d.addEdge source target)
    rw [List.foldl_cons]
    refine ⟨hrest.length.trans h.length, hrest.allRead.trans h.allRead, hrest.allWrite.trans h.allWrite,
      hrest.isTaint.trans h.isTaint, ?_, ?_, ?_⟩
    · intro id hid
      rw [hrest.name id (by rwa [h.length]), h.name id hid]
    · intro id hid
      rw [hrest.vectorClock id (by rwa [h.length]), h.vectorClock id hid]
    · intro id hid j
      rw [hrest.affecting id (by rwa [h.length]), h.affecting id hid]
      simp only [List.mem_cons]
      tauto

/-! ### The graph of a trace -/

/-- The graph of the reads `rs` and the writes `ws`, numbered in this order. -/
structure Graph (allReadSet : TreeMap String (List TaintEvent)) (rs ws : List TaintEvent) (d : DTAM) : Prop where
  length : d.points.length = rs.length + ws.length
  isTaint : d.isTaint = []
  read_point : ∀ {i : Nat} {r : TaintEvent}, rs[i]? = some r → (d.point i).name = r.name ∧ (d.point i).vectorClock = r.vectorClock
  write_point : ∀ {k : Nat} {w : TaintEvent}, ws[k]? = some w →
    (d.point (rs.length + k)).name = w.name ∧ (d.point (rs.length + k)).vectorClock = w.vectorClock
  read_edge : ∀ {i j : Nat}, i < rs.length → (j ∈ (d.point i).affectingVariable ↔
    ∃ k w, ws[k]? = some w ∧ j = rs.length + k ∧ ∃ value ∈ w.relatedSymbolicExpr, d.readOf value = some i)
  write_edge : ∀ {k i : Nat} {w : TaintEvent}, ws[k]? = some w → (i ∈ (d.point (rs.length + k)).affectingVariable ↔
    ∃ r ∈ allReadSet.getD w.event.varName [], d.allRead[r.name]? = some i)
  allRead_some : ∀ {name : String} {i : Nat}, d.allRead[name]? = some i → ∃ r, rs[i]? = some r ∧ r.name = name
  allRead_mem : ∀ {r : TaintEvent}, r ∈ rs → ∃ i, d.allRead[r.name]? = some i
  allWrite_some : ∀ {name : String} {id : Nat}, d.allWrite[name]? = some id → ∃ k w, ws[k]? = some w ∧ id = rs.length + k ∧ w.name = name
  allWrite_mem : ∀ {w : TaintEvent}, w ∈ ws → ∃ id, d.allWrite[w.name]? = some id

variable {allReadSet : TreeMap String (List TaintEvent)} {rs ws : List TaintEvent} {d : DTAM}

theorem Graph.addRead (h : Graph allReadSet rs [] d) (e : TaintEvent) : Graph allReadSet (rs ++ [e]) [] (d.addRead e) := by
  have hlen : d.points.length = rs.length := by simpa using h.length
  refine ⟨by simp [DTAM.addRead, hlen], h.isTaint, ?_, by simp, ?_, by simp, ?_, ?_, ?_, by simp⟩
  · intro i r hr
    rcases getElem?_snoc_cases hr with hr | ⟨rfl, rfl⟩
    · have hi : i < d.points.length := by rw [hlen]; exact (List.getElem?_eq_some_iff.mp hr).1
      have hp : (d.addRead e).point i = d.point i := by
        simpa [DTAM.addRead, point] using point_append hi
      rw [hp]
      exact h.read_point hr
    · have hp : (d.addRead r).point rs.length = { name := r.name, vectorClock := r.vectorClock } := by
        simp [DTAM.addRead, point, hlen]
      rw [hp]
      exact ⟨rfl, rfl⟩
  · intro i j hi
    simp only [List.getElem?_nil, reduceCtorEq, false_and, exists_false, iff_false]
    rw [List.length_append, List.length_singleton] at hi
    rcases Nat.lt_succ_iff_lt_or_eq.mp hi with hi | rfl
    · have hp : (d.addRead e).point i = d.point i := by
        simpa [DTAM.addRead, point] using point_append (hlen ▸ hi)
      rw [hp, h.read_edge hi]
      simp
    · have hp : (d.addRead e).point rs.length = { name := e.name, vectorClock := e.vectorClock } := by
        simp [DTAM.addRead, point, hlen]
      rw [hp]
      exact List.not_mem_nil
  · intro name i hname
    simp only [DTAM.addRead, TreeMap.getElem?_insert, Std.compare_eq_iff_eq] at hname
    split at hname
    case isTrue heq =>
      cases hname
      exact ⟨e, by simp [hlen], heq⟩
    case isFalse =>
      obtain ⟨r, hr, hn⟩ := h.allRead_some hname
      exact ⟨r, getElem?_snoc_of_some hr, hn⟩
  · intro r hr
    simp only [DTAM.addRead, TreeMap.getElem?_insert, Std.compare_eq_iff_eq]
    by_cases heq : e.name = r.name
    · exact ⟨d.points.length, by simp [heq]⟩
    · rcases List.mem_append.mp hr with hr | hr
      · obtain ⟨i, hi⟩ := h.allRead_mem hr
        exact ⟨i, by simp [heq, hi]⟩
      · exact absurd (by rw [List.mem_singleton.mp hr]) heq
  · intro name id hid
    obtain ⟨k, w, hw, _⟩ := h.allWrite_some hid
    simp at hw

theorem Graph.addReads (h : Graph allReadSet rs [] d) (rs' : List TaintEvent) :
    Graph allReadSet (rs ++ rs') [] (rs'.foldl DTAM.addRead d) := by
  induction rs' generalizing rs d with
  | nil => simpa using h
  | cons e rs' ih => simpa using ih (h.addRead e)

theorem exists_lookups {α : Type} {f : α → Option Nat} {l : List α} (h : ∀ x ∈ l, ∃ i, f x = some i) :
    ∃ is, l.mapM f = some is ∧ ∀ i, i ∈ is ↔ ∃ x ∈ l, f x = some i := by
  obtain ⟨is, his, hmem⟩ := OptionLoop.exists_mapM (P := fun i => ∃ x ∈ l, f x = some i) fun x hx => by
    obtain ⟨i, hi⟩ := h x hx
    exact ⟨i, hi, x, hx, hi⟩
  refine ⟨is, his, fun i => ⟨hmem i, ?_⟩⟩
  rintro ⟨x, hx, hxi⟩
  obtain ⟨j, hj, hxj⟩ := OptionLoop.mapM_mem his hx
  obtain rfl : i = j := Option.some.inj (hxi.symm.trans hxj)
  exact hj

/-- `d'` is `d` with a point for the write `e`, which the reads `related` affect and which affects `reads`. -/
structure NewWrite (e : TaintEvent) (related reads : List Nat) (d d' : DTAM) : Prop where
  length : d'.points.length = d.points.length + 1
  allRead : d'.allRead = d.allRead
  allWrite : d'.allWrite = d.allWrite.insert e.name d.points.length
  isTaint : d'.isTaint = d.isTaint
  old_point : ∀ id < d.points.length,
    (d'.point id).name = (d.point id).name ∧ (d'.point id).vectorClock = (d.point id).vectorClock
  new_point : (d'.point d.points.length).name = e.name ∧ (d'.point d.points.length).vectorClock = e.vectorClock
  old_edge : ∀ id < d.points.length, ∀ j, j ∈ (d'.point id).affectingVariable ↔
    j ∈ (d.point id).affectingVariable ∨ id ∈ related ∧ j = d.points.length
  new_edge : d.points.length ∉ related → ∀ j, j ∈ (d'.point d.points.length).affectingVariable ↔ j ∈ reads

theorem exists_addWrite {e : TaintEvent} (hrelated : ∀ value ∈ e.relatedSymbolicExpr, ∃ i, d.readOf value = some i)
    (hreads : ∀ r ∈ allReadSet.getD e.event.varName [], ∃ i, d.allRead[r.name]? = some i) :
    ∃ d' related reads, d.addWrite allReadSet e = some d' ∧ NewWrite e related reads d d' ∧
      (∀ i, i ∈ related ↔ ∃ value ∈ e.relatedSymbolicExpr, d.readOf value = some i) ∧
      ∀ i, i ∈ reads ↔ ∃ r ∈ allReadSet.getD e.event.varName [], d.allRead[r.name]? = some i := by
  obtain ⟨related, hmapRelated, hmemRelated⟩ := exists_lookups hrelated
  obtain ⟨reads, hmapReads, hmemReads⟩ := exists_lookups hreads
  let d₁ : DTAM := { d with points := d.points ++ [{ name := e.name, vectorClock := e.vectorClock }] }
  let edges := related.map (·, d.points.length) ++ reads.map (d.points.length, ·)
  let d₂ := edges.foldl (fun d e => d.addEdge e.1 e.2) d₁
  have hext : Extends edges d₁ d₂ := addEdges_extends edges d₁
  have hd₂ : d.addWrite allReadSet e = some { d₂ with allWrite := d₂.allWrite.insert e.name d.points.length } := by
    simp only [DTAM.addWrite, hmapRelated, hmapReads, Option.bind_eq_bind, Option.bind_some]
    simp only [d₂, edges, d₁, List.foldl_append, List.foldl_map]
  have hedges : ∀ i j, (i, j) ∈ edges ↔ i ∈ related ∧ j = d.points.length ∨ i = d.points.length ∧ j ∈ reads := by
    intro i j
    simp [edges, eq_comm, and_comm]
  have hlen : d₁.points.length = d.points.length + 1 := by simp [d₁]
  have hlast : d.points.length < d₁.points.length := by omega
  have hold : ∀ id < d.points.length, d₁.point id = d.point id := fun id hid => point_append hid
  have hnew : d₁.point d.points.length = { name := e.name, vectorClock := e.vectorClock } := point_append_last
  refine ⟨_, related, reads, hd₂,
    ⟨hext.length.trans hlen, hext.allRead, ?_, hext.isTaint, ?_, ?_, ?_, ?_⟩, hmemRelated, hmemReads⟩
  · show d₂.allWrite.insert _ _ = _
    rw [hext.allWrite]
  · intro id hid
    show (d₂.point id).name = _ ∧ (d₂.point id).vectorClock = _
    rw [hext.name id (by omega), hext.vectorClock id (by omega), hold id hid]
    exact ⟨rfl, rfl⟩
  · show (d₂.point _).name = _ ∧ (d₂.point _).vectorClock = _
    rw [hext.name _ hlast, hext.vectorClock _ hlast, hnew]
    exact ⟨rfl, rfl⟩
  · intro id hid j
    show j ∈ (d₂.point id).affectingVariable ↔ _
    rw [hext.affecting id (by omega), hold id hid, hedges]
    simp [Nat.ne_of_lt hid]
  · intro hno j
    show j ∈ (d₂.point _).affectingVariable ↔ _
    rw [hext.affecting _ hlast, hnew, hedges]
    simp [hno]

theorem Graph.lt_of_allRead (h : Graph allReadSet rs ws d) {name : String} {i : Nat} (hi : d.allRead[name]? = some i) :
    i < rs.length := by
  obtain ⟨r, hr, _⟩ := h.allRead_some hi
  exact (List.getElem?_eq_some_iff.mp hr).1

theorem Graph.lt_of_readOf (h : Graph allReadSet rs ws d) {value : Expr} {i : Nat} (hi : d.readOf value = some i) :
    i < rs.length := by
  obtain ⟨name, _, hname⟩ := Option.bind_eq_some_iff.mp hi
  exact h.lt_of_allRead hname

theorem Graph.write_lt (h : Graph allReadSet rs ws d) {k : Nat} {w : TaintEvent} (hw : ws[k]? = some w) :
    rs.length + k < d.points.length := by
  have hk := (List.getElem?_eq_some_iff.mp hw).1
  rw [h.length]
  omega

theorem Graph.addWrite (h : Graph allReadSet rs ws d) {e : TaintEvent}
    (hrelated : ∀ value ∈ e.relatedSymbolicExpr, ∃ i, d.readOf value = some i)
    (hreads : ∀ r ∈ allReadSet.getD e.event.varName [], ∃ i, d.allRead[r.name]? = some i) :
    ∃ d', d.addWrite allReadSet e = some d' ∧ Graph allReadSet rs (ws ++ [e]) d' := by
  obtain ⟨d', related, reads, hd', hnew, hmemRelated, hmemReads⟩ := exists_addWrite hrelated hreads
  have hsnoc : ∀ {k : Nat} {w : TaintEvent}, ws[k]? = some w → (ws ++ [e])[k]? = some w :=
    getElem?_snoc_of_some
  have hbelow : ∀ i ∈ related, i < rs.length := by
    intro i hi
    obtain ⟨value, _, hvalue⟩ := (hmemRelated i).mp hi
    exact h.lt_of_readOf hvalue
  have hle : rs.length ≤ d.points.length := by rw [h.length]; omega
  have hreadOf : ∀ value, d'.readOf value = d.readOf value := fun value => by simp only [readOf, hnew.allRead]
  refine ⟨d', hd', ?_, hnew.isTaint.trans h.isTaint, ?_, ?_, ?_, ?_, ?_, ?_, ?_, ?_⟩
  · rw [hnew.length, h.length, List.length_append, List.length_singleton, Nat.add_assoc]
  · intro i r hr
    obtain ⟨hname, hclock⟩ := hnew.old_point i ((List.getElem?_eq_some_iff.mp hr).1.trans_le hle)
    exact ⟨hname.trans (h.read_point hr).1, hclock.trans (h.read_point hr).2⟩
  · intro k w hw
    rcases getElem?_snoc_cases hw with hw | ⟨rfl, rfl⟩
    · obtain ⟨hname, hclock⟩ := hnew.old_point _ (h.write_lt hw)
      exact ⟨hname.trans (h.write_point hw).1, hclock.trans (h.write_point hw).2⟩
    · rw [← h.length]
      exact hnew.new_point
  · intro i j hi
    rw [hnew.old_edge i (hi.trans_le hle), h.read_edge hi, hmemRelated]
    simp only [hreadOf]
    constructor
    · rintro (⟨k, w, hw, rfl, hvalue⟩ | ⟨hvalue, rfl⟩)
      · exact ⟨k, w, hsnoc hw, rfl, hvalue⟩
      · exact ⟨ws.length, e, by simp, h.length, hvalue⟩
    · rintro ⟨k, w, hw, rfl, hvalue⟩
      rcases getElem?_snoc_cases hw with hw | ⟨rfl, rfl⟩
      · exact .inl ⟨k, w, hw, rfl, hvalue⟩
      · exact .inr ⟨hvalue, h.length.symm⟩
  · intro k i w hw
    rw [hnew.allRead]
    rcases getElem?_snoc_cases hw with hw | ⟨rfl, rfl⟩
    · rw [hnew.old_edge _ (h.write_lt hw), h.write_edge hw]
      refine or_iff_left fun hedge => ?_
      exact absurd (hbelow _ hedge.1) (by omega)
    · rw [← h.length, hnew.new_edge (fun hmem => absurd (hbelow _ hmem) (by omega)), hmemReads]
  · intro name i hi
    rw [hnew.allRead] at hi
    exact h.allRead_some hi
  · intro r hr
    rw [hnew.allRead]
    exact h.allRead_mem hr
  · intro name id hid
    rw [hnew.allWrite, TreeMap.getElem?_insert] at hid
    split at hid
    case isTrue heq =>
      cases hid
      exact ⟨ws.length, e, by simp, h.length, Std.compare_eq_iff_eq.mp heq⟩
    case isFalse =>
      obtain ⟨k, w, hw, hk, hn⟩ := h.allWrite_some hid
      exact ⟨k, w, hsnoc hw, hk, hn⟩
  · intro w hw
    rw [hnew.allWrite, TreeMap.getElem?_insert]
    split
    case isTrue => exact ⟨_, rfl⟩
    case isFalse hne =>
      rcases List.mem_append.mp hw with hw | hw
      · exact h.allWrite_mem hw
      · exact absurd (by rw [List.mem_singleton.mp hw]; exact Std.compare_eq_iff_eq.mpr rfl) hne

theorem Graph.addWrites (h : Graph allReadSet rs ws d) {ws' : List TaintEvent}
    (hrelated : ∀ w ∈ ws', ∀ value ∈ w.relatedSymbolicExpr, ∃ r ∈ rs, getFullName value = some r.name)
    (hreads : ∀ varName, ∀ r ∈ allReadSet.getD varName [], r ∈ rs) :
    ∃ d', ws'.foldlM (DTAM.addWrite allReadSet) d = some d' ∧ Graph allReadSet rs (ws ++ ws') d' := by
  induction ws' generalizing ws d with
  | nil => exact ⟨d, rfl, by simpa using h⟩
  | cons w ws' ih =>
    obtain ⟨d', hd', hgraph⟩ := h.addWrite (e := w)
      (fun value hvalue => by
        obtain ⟨r, hr, hname⟩ := hrelated w List.mem_cons_self value hvalue
        obtain ⟨i, hi⟩ := h.allRead_mem hr
        exact ⟨i, by simp [readOf, hname, hi]⟩)
      (fun r hr => h.allRead_mem (hreads _ r hr))
    obtain ⟨d'', hd'', hgraph'⟩ := ih hgraph fun w' hw' => hrelated w' (List.mem_cons_of_mem _ hw')
    refine ⟨d'', ?_, by simpa using hgraph'⟩
    rw [List.foldlM_cons, hd']
    exact hd''

theorem mem_reads {t : TaintTables} {varName : String} {r : TaintEvent} (hr : r ∈ t.allReadSet.getD varName []) :
    r ∈ t.reads := by
  rw [TreeMap.getD_eq_getD_getElem?] at hr
  cases hentry : t.allReadSet[varName]? with
  | none => simp [hentry] at hr
  | some rs =>
    rw [hentry, Option.getD_some] at hr
    exact List.mem_flatMap.mpr ⟨(varName, rs), TreeMap.mem_toList_iff_getElem?_eq_some.mpr hentry, hr⟩

/-- `DTAMParallel` returns, and its graph is that of the trace. -/
theorem exists_dtamParallel (t : TaintTrace) :
    ∃ d, dtamParallel t.toTaintTables = some d ∧ Graph t.allReadSet t.reads t.writes d := by
  have hstart : Graph t.allReadSet [] [] {} := by
    refine ⟨rfl, rfl, ?_, ?_, ?_, ?_, ?_, ?_, ?_, ?_⟩ <;> simp
  have hreads : Graph t.allReadSet t.reads [] (t.reads.foldl DTAM.addRead {}) := by simpa using hstart.addReads t.reads
  simpa [dtamParallel] using hreads.addWrites t.related_read fun _ _ hr => mem_reads hr

/-! ### The pruning -/

/-- The source erases a position of `affectingVariable` from `affectedVariable` when it comes to such a pair. -/
def Corrupts (d : DTAM) (w r : Nat) : Prop :=
  isBefore (d.point w).vectorClock (d.point r).vectorClock = false ∧ w ∈ (d.point r).affectingVariable

theorem pruneReads_eq_some {w : Nat} {rs kept : List Nat} (h : d.pruneReads w rs = some kept) :
    kept = rs.filter fun r => isBefore (d.point w).vectorClock (d.point r).vectorClock := by
  induction rs generalizing kept with
  | nil => simpa [pruneReads, eq_comm] using h
  | cons r rs ih =>
    rw [pruneReads] at h
    rw [List.filter_cons]
    split at h
    case isTrue hbefore =>
      obtain ⟨rest, hrest, rfl⟩ := Option.map_eq_some_iff.mp h
      rw [if_pos hbefore, ih hrest]
    case isFalse hafter =>
      rw [if_neg hafter]
      split at h
      · cases h
      · exact ih h

theorem pruneReads_isSome {w : Nat} {rs : List Nat} : (d.pruneReads w rs).isSome ↔ ∀ r ∈ rs, ¬Corrupts d w r := by
  induction rs with
  | nil => simp [pruneReads]
  | cons r rs ih =>
    rw [pruneReads, List.forall_mem_cons, ← ih]
    split
    case isTrue hbefore => simp [Corrupts, hbefore]
    case isFalse hafter =>
      split
      case isTrue hmem => simp [Corrupts, hafter, hmem]
      case isFalse hmem => simp [Corrupts, hmem]

/-- `d'` is `d` with less edges. -/
structure Subgraph (d' d : DTAM) : Prop where
  length : d'.points.length = d.points.length
  allRead : d'.allRead = d.allRead
  allWrite : d'.allWrite = d.allWrite
  name : ∀ id < d.points.length, (d'.point id).name = (d.point id).name
  affecting : ∀ id < d.points.length, ∀ j ∈ (d'.point id).affectingVariable, j ∈ (d.point id).affectingVariable

theorem Subgraph.trans {d'' d' d : DTAM} (h' : Subgraph d'' d') (h : Subgraph d' d) : Subgraph d'' d where
  length := h'.length.trans h.length
  allRead := h'.allRead.trans h.allRead
  allWrite := h'.allWrite.trans h.allWrite
  name id hid := (h'.name id (by rwa [h.length])).trans (h.name id hid)
  affecting id hid j hj := h.affecting id hid j (h'.affecting id (by rwa [h.length]) j hj)

theorem pruneWrite_subgraph {w : Nat} {d' : DTAM} (h : d.pruneWrite w = some d') :
    Subgraph d' d ∧ ∀ id < d.points.length, w ≠ id → d'.point id = d.point id := by
  obtain ⟨kept, hkept, hd'⟩ := Option.bind_eq_some_iff.mp h
  obtain rfl := Option.some.inj hd'
  have hsame : ∀ id < d.points.length, w ≠ id →
      (d.modify w fun p => { p with affectingVariable := kept }).point id = d.point id := by
    intro id hid hne
    rw [point_modify hid, if_neg hne]
  refine ⟨⟨by simp [modify], rfl, rfl, ?_, ?_⟩, hsame⟩
  · intro id hid
    rw [point_modify hid]
    split <;> rfl
  · intro id hid j hj
    by_cases hne : w = id
    · subst hne
      rw [point_modify hid, if_pos rfl, pruneReads_eq_some hkept] at hj
      exact List.mem_of_mem_filter hj
    · rwa [hsame id hid hne] at hj

theorem pruneWrites_subgraph {ws : List Nat} {d' : DTAM} (h : ws.foldlM pruneWrite d = some d') : Subgraph d' d := by
  induction ws generalizing d with
  | nil =>
    obtain rfl := Option.some.inj h
    exact ⟨rfl, rfl, rfl, fun _ _ => rfl, fun _ _ _ hj => hj⟩
  | cons w ws ih =>
    rw [List.foldlM_cons] at h
    obtain ⟨d₁, hd₁, hrest⟩ := Option.bind_eq_some_iff.mp h
    exact (ih hrest).trans (pruneWrite_subgraph hd₁).1

/-- Whether the loop over the writes is defined can be read off the graph that it starts with: what it looks at in a
    later round was not changed in an earlier one. -/
theorem pruneWrites_isSome {ws : List Nat} (hnodup : ws.Nodup) (hlt : ∀ w ∈ ws, w < d.points.length)
    (hreads : ∀ w ∈ ws, ∀ r ∈ (d.point w).affectingVariable, r < d.points.length ∧ r ∉ ws) :
    (ws.foldlM pruneWrite d).isSome ↔ ∀ w ∈ ws, ∀ r ∈ (d.point w).affectingVariable, ¬Corrupts d w r := by
  induction ws generalizing d with
  | nil => simp
  | cons w ws ih =>
    rw [List.forall_mem_cons, ← pruneReads_isSome, List.foldlM_cons]
    cases hkept : d.pruneReads w (d.point w).affectingVariable with
    | none => simp [pruneWrite, hkept]
    | some kept =>
      obtain ⟨d₁, hd₁⟩ : ∃ d₁, d.pruneWrite w = some d₁ := ⟨_, by rw [pruneWrite, hkept]; rfl⟩
      obtain ⟨hsub, hsame⟩ := pruneWrite_subgraph hd₁
      have hpoint : ∀ w' ∈ ws, d₁.point w' = d.point w' := fun w' hw' =>
        hsame w' (hlt w' (List.mem_cons_of_mem w hw')) fun heq => (List.nodup_cons.mp hnodup).1 (heq ▸ hw')
      have hread : ∀ w' ∈ ws, ∀ r ∈ (d.point w').affectingVariable, d₁.point r = d.point r := by
        intro w' hw' r hr
        obtain ⟨hrlt, hrout⟩ := hreads w' (List.mem_cons_of_mem w hw') r hr
        exact hsame r hrlt fun heq => hrout (heq ▸ List.mem_cons_self)
      have hrest := ih (d := d₁) (List.nodup_cons.mp hnodup).2
        (fun w' hw' => by rw [hsub.length]; exact hlt w' (List.mem_cons_of_mem w hw'))
        (fun w' hw' r hr => by
          rw [hpoint w' hw'] at hr
          obtain ⟨hrlt, hrout⟩ := hreads w' (List.mem_cons_of_mem w hw') r hr
          exact ⟨by rwa [hsub.length], fun hmem => hrout (List.mem_cons_of_mem w hmem)⟩)
      simp only [hd₁, Option.bind_eq_bind, Option.bind_some, Option.isSome_some, true_and]
      rw [hrest]
      refine forall₂_congr fun w' hw' => ?_
      rw [hpoint w' hw']
      refine forall₂_congr fun r hr => ?_
      rw [Corrupts, Corrupts, hpoint w' hw', hread w' hw' r hr]

/-! ### The marks -/

theorem initPoints_stack (DTAMSerial : TreeSet String) (ids : List Nat) (s : Search Nat) (a : Nat) :
    a ∈ (ids.foldl (d.initPoint DTAMSerial) s).stack ↔ a ∈ s.stack ∨ a ∈ ids ∧ (d.point a).name ∈ DTAMSerial := by
  induction ids generalizing s with
  | nil => simp
  | cons id ids ih =>
    rw [List.foldl_cons, ih, initPoint]
    split
    case isTrue hin => simp only [List.mem_cons]; grind
    case isFalse hout => simp only [List.mem_cons]; grind

theorem initPoints_marked (DTAMSerial : TreeSet String) (ids : List Nat) (s : Search Nat) (a : Nat) :
    a ∈ (ids.foldl (d.initPoint DTAMSerial) s).marked ↔
      if a ∈ ids then (d.point a).name ∈ DTAMSerial else a ∈ s.marked := by
  induction ids generalizing s with
  | nil => simp
  | cons id ids ih =>
    rw [List.foldl_cons, ih, initPoint]
    by_cases ha : a ∈ ids
    · simp [ha]
    · by_cases hin : (d.point id).name ∈ DTAMSerial
      · rw [if_pos hin, if_neg ha]
        simp only [List.mem_cons]
        grind
      · rw [if_neg hin, if_neg ha]
        simp only [List.mem_cons, List.mem_filter]
        grind

theorem initPoints_length (DTAMSerial : TreeSet String) (ids : List Nat) (s : Search Nat) :
    (ids.foldl (d.initPoint DTAMSerial) s).stack.length ≤ s.stack.length + ids.length := by
  induction ids generalizing s with
  | nil => simp
  | cons id ids ih =>
    rw [List.foldl_cons, List.length_cons]
    refine (ih _).trans ?_
    rw [initPoint]
    split
    · simp only [List.length_cons]; omega
    · simp only; omega

/-- `b` is one of the points that `a` affects. -/
def Affects (d : DTAM) (a b : Nat) : Prop := b ∈ (d.point a).affectingVariable

/-- The first stack of a pass: the points of the maps that the serial taint names. -/
theorem initSearch_stack (DTAMSerial : TreeSet String) (a : Nat) :
    a ∈ (d.allPoints.foldl (d.initPoint DTAMSerial) { marked := d.isTaint, stack := [] }).stack ↔
      a ∈ d.allPoints ∧ (d.point a).name ∈ DTAMSerial := by
  simp [initPoints_stack]

theorem initSearch_progress (DTAMSerial : TreeSet String) (fuel : Nat) :
    Search.Progress (fun id => (d.point id).affectingVariable)
      (d.allPoints.foldl (d.initPoint DTAMSerial) { marked := d.isTaint, stack := [] })
      ((d.allPoints.foldl (d.initPoint DTAMSerial) { marked := d.isTaint, stack := [] }).run
        (fun id => (d.point id).affectingVariable) fuel) := by
  refine (Search.Progress.start fun a ha => ?_).run fuel
  obtain ⟨hpoint, hname⟩ := (initSearch_stack DTAMSerial a).mp ha
  rwa [initPoints_marked, if_pos hpoint]

theorem affecting_mem_flatMap (a : Nat) : ∀ b ∈ (d.point a).affectingVariable,
    b ∈ d.points.flatMap DTAMPoint.affectingVariable := by
  intro b hb
  rcases Nat.lt_or_ge a d.points.length with ha | ha
  · refine List.mem_flatMap.mpr ⟨d.points[a], List.getElem_mem ha, ?_⟩
    rwa [point_of_getElem? (List.getElem?_eq_getElem ha)] at hb
  · rw [point, List.getD_eq_default _ _ ha] at hb
    exact absurd hb List.not_mem_nil

/-- Marks of an earlier pass on points outside the maps stay, but a point of the maps is tainted only if it is reached
    from the serial taint. -/
theorem reached_of_initTaint {DTAMSerial : TreeSet String} {a : Nat} (ha : a ∈ (d.initTaint DTAMSerial).isTaint)
    (hpoint : a ∈ d.allPoints) : ∃ r ∈ d.allPoints, (d.point r).name ∈ DTAMSerial ∧ ReflTransGen d.Affects r a := by
  rcases (initSearch_progress DTAMSerial _).reached a ha with ha | ⟨r, hr, hpath⟩
  · rw [initPoints_marked, if_pos hpoint] at ha
    exact ⟨a, hpoint, ha, .refl⟩
  · obtain ⟨hrpoint, hrname⟩ := (initSearch_stack DTAMSerial r).mp hr
    exact ⟨r, hrpoint, hrname, hpath⟩

theorem initTaint_of_serial {DTAMSerial : TreeSet String} {a : Nat} (hpoint : a ∈ d.allPoints)
    (hname : (d.point a).name ∈ DTAMSerial) : a ∈ (d.initTaint DTAMSerial).isTaint := by
  refine (initSearch_progress DTAMSerial _).kept a ?_
  rwa [initPoints_marked, if_pos hpoint]

/-- The first pass taints what the serial taint reaches. -/
theorem initTaint_of_reached (hclean : d.isTaint = []) {DTAMSerial : TreeSet String} {r a : Nat}
    (hpoint : r ∈ d.allPoints) (hname : (d.point r).name ∈ DTAMSerial) (hpath : ReflTransGen d.Affects r a) :
    a ∈ (d.initTaint DTAMSerial).isTaint := by
  refine (Search.mem_run_marked affecting_mem_flatMap ?_ ?_).mpr
    ⟨r, (initSearch_stack DTAMSerial r).mpr ⟨hpoint, hname⟩, hpath⟩
  · intro b
    rw [initSearch_stack, initPoints_marked, hclean]
    split
    case isTrue hb => simp [hb]
    case isFalse hb => simp [hb]
  · refine Nat.add_le_add_right ((initPoints_length _ _ _).trans ?_) _
    simp

theorem mem_getTaint {n : String} :
    n ∈ d.getTaint ∅ ↔ ∃ a ∈ d.allPoints, a ∈ d.isTaint ∧ (d.point a).name = n := by
  have hfold : ∀ (ids : List Nat) (taint : TreeSet String),
      n ∈ ids.foldl (fun taint id => taint.insert (d.point id).name) taint ↔
        n ∈ taint ∨ ∃ a ∈ ids, (d.point a).name = n := by
    intro ids
    induction ids with
    | nil => simp
    | cons id ids ih =>
      intro taint
      rw [List.foldl_cons, ih, TreeSet.mem_insert, Std.compare_eq_iff_eq]
      simp only [List.mem_cons, exists_eq_or_imp]
      tauto
  rw [getTaint, hfold]
  simp [and_assoc]

/-! ### The hierarchy -/

/-- `dtam` returns, the recorded names of the serial taint are in the hybrid one, and that is part of the parallel one. -/
def Hierarchy (t : TaintTables) : Prop :=
  ∃ taints, dtam t = some taints ∧
    (∀ name ∈ t.DTAMSerial, (∃ e ∈ t.reads ++ t.writes, e.name = name) → name ∈ taints.DTAMhybrid) ∧
    ∀ name ∈ taints.DTAMhybrid, name ∈ taints.DTAMParallel

/-- A write whose value was read from the written variable has a clock that is not after that of the read. -/
def UpdatesAtOnce (t : TaintTables) : Prop :=
  ∀ w ∈ t.writes, ∀ r ∈ t.allReadSet.getD w.event.varName [],
    (∃ value ∈ w.relatedSymbolicExpr, getFullName value = some r.name) → isBefore w.vectorClock r.vectorClock = true

theorem mem_allPoints {id : Nat} :
    id ∈ d.allPoints ↔ (∃ name : String, d.allWrite[name]? = some id) ∨ ∃ name : String, d.allRead[name]? = some id := by
  have hids : ∀ table : TreeMap String Nat, id ∈ table.toList.map (·.2) ↔ ∃ name : String, table[name]? = some id := by
    intro table
    simp only [List.mem_map, Prod.exists, exists_eq_right, TreeMap.mem_toList_iff_getElem?_eq_some]
  rw [allPoints, List.mem_append, hids, hids]

section
variable {t : TaintTrace} (h : Graph t.allReadSet t.reads t.writes d)
include h

/-- The point that a full name of a read stands for is that of the read. -/
theorem Graph.read_eq {r : TaintEvent} {i : Nat} (hr : r ∈ t.reads) (hi : d.allRead[r.name]? = some i) :
    t.reads[i]? = some r := by
  obtain ⟨r', hr', hname⟩ := h.allRead_some hi
  rwa [t.read_unique r' (List.mem_of_getElem? hr') r hr hname] at hr'

theorem Graph.allWrite_ids_nodup : (d.allWrite.toList.map (·.2)).Nodup := by
  have hkeys : (d.allWrite.toList.map (·.1)).Nodup := by
    refine (List.pairwise_map.mpr ?_)
    exact (TreeMap.distinct_keys_toList (t := d.allWrite)).imp fun hne heq => hne (Std.compare_eq_iff_eq.mpr heq)
  -- two names with the same number are the name of that point
  refine List.Nodup.map_on ?_ (List.Nodup.of_map _ hkeys)
  rintro ⟨name, id⟩ hmem ⟨name', id'⟩ hmem' heq
  simp only at heq
  subst heq
  obtain ⟨k, w, hw, hk, rfl⟩ := h.allWrite_some (TreeMap.mem_toList_iff_getElem?_eq_some.mp hmem)
  obtain ⟨k', w', hw', hk', rfl⟩ := h.allWrite_some (TreeMap.mem_toList_iff_getElem?_eq_some.mp hmem')
  obtain rfl : k = k' := by omega
  rw [Option.some.inj (hw.symm.trans hw')]

/-- Where the source comes to a pair that corrupts a list, the write is an update of the read whose clock is after it. -/
theorem Graph.corrupts_iff : (∀ id ∈ d.allWrite.toList.map (·.2), ∀ i ∈ (d.point id).affectingVariable, ¬Corrupts d id i) ↔
    UpdatesAtOnce t.toTaintTables := by
  constructor
  · intro hgood w hw r hr hvalue
    by_contra hafter
    obtain ⟨id, hid⟩ := h.allWrite_mem hw
    obtain ⟨k, w', hw', rfl, hname⟩ := h.allWrite_some hid
    obtain ⟨i, hi⟩ := h.allRead_mem (mem_reads hr)
    have hread := h.read_eq (mem_reads hr) hi
    obtain rfl | hclock := t.write_unique w hw w' (List.mem_of_getElem? hw') hname.symm
    · refine hgood _ (List.mem_map.mpr ⟨_, TreeMap.mem_toList_iff_getElem?_eq_some.mpr hid, rfl⟩) i
        ((h.write_edge hw').mpr ⟨r, hr, hi⟩) ⟨?_, ?_⟩
      · rw [(h.write_point hw').2, (h.read_point hread).2]
        simpa using hafter
      · obtain ⟨value, hvalue, hfull⟩ := hvalue
        exact (h.read_edge (List.getElem?_eq_some_iff.mp hread).1).mpr
          ⟨k, w, hw', rfl, value, hvalue, by simp [readOf, hfull, hi]⟩
    · exact hafter (by rw [hclock]; rfl)
  · rintro hgood id hid i hi ⟨hafter, hmem⟩
    obtain ⟨⟨name, id'⟩, hentry, rfl⟩ := List.mem_map.mp hid
    obtain ⟨k, w, hw, rfl, _⟩ := h.allWrite_some (TreeMap.mem_toList_iff_getElem?_eq_some.mp hentry)
    obtain ⟨r, hr, hri⟩ := (h.write_edge hw).mp hi
    have hread := h.read_eq (mem_reads hr) hri
    obtain ⟨k', w', hw', hk, value, hvalue, hof⟩ := (h.read_edge (List.getElem?_eq_some_iff.mp hread).1).mp hmem
    obtain rfl : k = k' := by omega
    obtain rfl : w = w' := Option.some.inj (hw.symm.trans hw')
    obtain ⟨full, hfull, hlookup⟩ := Option.bind_eq_some_iff.mp hof
    obtain ⟨r', hr', hname⟩ := h.allRead_some hlookup
    obtain rfl : r = r' := Option.some.inj (hread.symm.trans hr')
    rw [(h.write_point hw).2, (h.read_point hread).2] at hafter
    have hbefore := hgood w (List.mem_of_getElem? hw) r hr ⟨value, hvalue, by rw [hfull, hname]⟩
    rw [hbefore] at hafter
    cases hafter

end

theorem Graph.point_lt {t : TaintTables} (h : Graph t.allReadSet t.reads t.writes d) {id : Nat} (hid : id ∈ d.allPoints) :
    id < d.points.length := by
  rcases mem_allPoints.mp hid with ⟨name, hname⟩ | ⟨name, hname⟩
  · obtain ⟨k, w, hw, rfl, _⟩ := h.allWrite_some hname
    exact h.write_lt hw
  · have hlt := h.lt_of_allRead hname
    rw [h.length]
    omega

/-- Every edge leads to a point of the maps or to a write that another one of its name has replaced. -/
theorem Graph.affecting_lt {t : TaintTables} (h : Graph t.allReadSet t.reads t.writes d) {a b : Nat}
    (ha : a < d.points.length) (hb : d.Affects a b) : b < d.points.length := by
  rcases Nat.lt_or_ge a t.reads.length with hread | hwrite
  · obtain ⟨k, w, hw, rfl, _⟩ := (h.read_edge hread).mp hb
    exact h.write_lt hw
  · obtain ⟨k, rfl⟩ := Nat.exists_eq_add_of_le hwrite
    have hk : k < t.writes.length := by have := h.length; omega
    obtain ⟨r, hr, hname⟩ := (h.write_edge (List.getElem?_eq_getElem hk)).mp hb
    have hlt := h.lt_of_allRead hname
    rw [h.length]
    omega

/-- The taint along less edges is part of the taint along all of them. -/
theorem taint_mono {t : TaintTables} {d' : DTAM} (h : Graph t.allReadSet t.reads t.writes d) (hsub : Subgraph d' d)
    {r a : Nat} (hr : r ∈ d.allPoints) (hpath : ReflTransGen d'.Affects r a) :
    a < d.points.length ∧ ReflTransGen d.Affects r a := by
  induction hpath with
  | refl => exact ⟨h.point_lt hr, .refl⟩
  | tail _ hstep ih =>
    have hstep' := hsub.affecting _ ih.1 _ hstep
    exact ⟨h.affecting_lt ih.1 hstep', ih.2.tail hstep'⟩

theorem Graph.dtamHybrid_isSome {t : TaintTrace} (h : Graph t.allReadSet t.reads t.writes d) :
    (d.initTaint t.DTAMSerial).dtamHybrid.isSome ↔ UpdatesAtOnce t.toTaintTables := by
  rw [← h.corrupts_iff]
  refine pruneWrites_isSome (d := d.initTaint t.DTAMSerial) h.allWrite_ids_nodup (fun w hw => ?_) fun w hw r hr => ?_
  · exact h.point_lt (List.mem_append_left _ hw)
  · obtain ⟨⟨name, id⟩, hentry, rfl⟩ := List.mem_map.mp hw
    obtain ⟨k, w, hk, rfl, _⟩ := h.allWrite_some (TreeMap.mem_toList_iff_getElem?_eq_some.mp hentry)
    obtain ⟨r', hr', hname⟩ := (h.write_edge hk).mp hr
    refine ⟨h.point_lt (mem_allPoints.mpr (.inr ⟨_, hname⟩)), fun hmem => ?_⟩
    -- the numbers of the writes are above those of the reads
    obtain ⟨⟨name', id'⟩, hentry', rfl⟩ := List.mem_map.mp hmem
    obtain ⟨k', w', hk', hid', _⟩ := h.allWrite_some (TreeMap.mem_toList_iff_getElem?_eq_some.mp hentry')
    have hlt := h.lt_of_allRead hname
    simp only at hlt hid'
    omega

theorem Subgraph.allPoints {d' : DTAM} (hsub : Subgraph d' d) : d'.allPoints = d.allPoints := by
  rw [DTAM.allPoints, DTAM.allPoints, hsub.allRead, hsub.allWrite]

theorem Graph.exists_point {t : TaintTables} (h : Graph t.allReadSet t.reads t.writes d) {e : TaintEvent}
    (he : e ∈ t.reads ++ t.writes) : ∃ id ∈ d.allPoints, (d.point id).name = e.name := by
  rcases List.mem_append.mp he with he | he
  · obtain ⟨i, hi⟩ := h.allRead_mem he
    obtain ⟨r, hr, hname⟩ := h.allRead_some hi
    exact ⟨i, mem_allPoints.mpr (.inr ⟨_, hi⟩), (h.read_point hr).1.trans hname⟩
  · obtain ⟨id, hid⟩ := h.allWrite_mem he
    obtain ⟨k, w, hw, rfl, hname⟩ := h.allWrite_some hid
    exact ⟨_, mem_allPoints.mpr (.inl ⟨_, hid⟩), (h.write_point hw).1.trans hname⟩

/-- The taint sets are ordered on exactly the traces in which each update of a variable by its own old value is made
    under the clock of the read, since only there `DTAMhybrid` stays within its lists. -/
theorem hierarchy_iff (t : TaintTrace) : Hierarchy t.toTaintTables ↔ UpdatesAtOnce t.toTaintTables := by
  obtain ⟨d, hd, h⟩ := exists_dtamParallel t
  rw [← h.dtamHybrid_isSome, Hierarchy, dtam, hd]
  simp only [Option.bind_eq_bind, Option.bind_some]
  cases hprune : (d.initTaint t.DTAMSerial).dtamHybrid with
  | none => simp
  | some d' =>
    have hsub : Subgraph d' d := by
      obtain ⟨hlength, hreads, hwrites, hname, haffecting⟩ := pruneWrites_subgraph hprune
      exact ⟨hlength, hreads, hwrites, hname, haffecting⟩
    simp only [Option.bind_some, Option.isSome_some, iff_true]
    refine ⟨_, rfl, ?_, ?_⟩
    · rintro name hserial ⟨e, he, rfl⟩
      obtain ⟨id, hid, hname⟩ := h.exists_point he
      have hname' : (d'.point id).name = e.name := (hsub.name id (h.point_lt hid)).trans hname
      have hid' : id ∈ d'.allPoints := by rwa [hsub.allPoints]
      exact mem_getTaint.mpr ⟨id, hid', initTaint_of_serial hid' (by rwa [hname']), hname'⟩
    · intro name hmem
      obtain ⟨a, ha, htaint, rfl⟩ := mem_getTaint.mp hmem
      obtain ⟨r, hr, hserial, hpath⟩ := reached_of_initTaint htaint ha
      rw [hsub.allPoints] at hr
      rw [hsub.name r (h.point_lt hr)] at hserial
      obtain ⟨halt, hpath'⟩ := taint_mono h hsub hr hpath
      have ha' : a ∈ d.allPoints := by rw [← hsub.allPoints]; exact ha
      exact mem_getTaint.mpr ⟨a, ha', initTaint_of_reached h.isTaint hr hserial hpath', (hsub.name a halt).symm⟩

/-- The main thread reads `x`, creates a thread, and stores what it has read, increased, in `x`. -/
def updateAfterCreate : TaintTrace where
  allReadSet := (∅ : TreeMap String (List TaintEvent)).insert "G1_8"
    [{ event := { threadId := 1, eventId := 0, inst := .load ⟨1, 8, true⟩ false, eventType := .normal, varName := "G1_8",
                  globalVarFullName := "G1_8L1", isGlobal := true }
       vectorClock := [0, 0, 0, 0, 0], relatedSymbolicExpr := [] }]
  allWriteSet := (∅ : TreeMap String (List TaintEvent)).insert "G1_8"
    [{ event := { threadId := 1, eventId := 2, inst := .store ⟨1, 8, true⟩ false, eventType := .normal,
                  varName := "G1_8", globalVarFullName := "G1_8S1", isGlobal := true }
       vectorClock := [0, 1, 0, 0, 0], relatedSymbolicExpr := [.read ⟨"G1_8L1", rfl⟩] }]
  DTAMSerial := (∅ : TreeSet String).insert "G1_8L1"
  read_unique := by decide +kernel
  write_unique := by decide +kernel
  clock_length := by decide +kernel
  related_read := by decide +kernel

theorem not_hierarchy_updateAfterCreate : ¬Hierarchy updateAfterCreate.toTaintTables := by
  rintro ⟨taints, htaints, _⟩
  have hnone : (dtam updateAfterCreate.toTaintTables).isNone := by decide +kernel
  rw [htaints] at hnone
  cases hnone

end CapTaint.DTAM
