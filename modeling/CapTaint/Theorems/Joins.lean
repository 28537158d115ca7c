import CapTaint.Theorems.Clocks

/-! What a thread knows after a join. The end of a thread hands its clock to the threads that wait for it; a join of a
    thread that has ended before hands nothing on. -/

namespace CapTaint
open Std ExecutionState Executor Snoc

/-- After a join of a thread every recorded clock is at least every one that the joined thread recorded. -/
def JoinComplete (steps : List TaintStep) : Prop :=
  ∀ (k i j : Nat) (c a b : TaintStep) (V W : Vector Nat 5), steps[k]? = some c → steps[i]? = some a →
    steps[j]? = some b → c.inst = .call (.pthreadJoin a.threadId) → k < j → b.threadId = c.threadId →
    a.vectorClock = some V → b.vectorClock = some W → ∀ x : Fin 5, V[x] ≤ W[x]

/-- A thread that joins one that has ended knows its clock already. -/
def JoinsKnown (e : Executor) (t : Nat) (inst : Inst) : Prop :=
  match inst with
  | .call (.pthreadJoin u) => e.state.stateOf u = some .terminated → ∀ k < 5, e.state.clock u k ≤ e.state.clock t k
  | _ => True

instance (e : Executor) (t : Nat) (inst : Inst) : Decidable (JoinsKnown e t inst) := by
  unfold JoinsKnown
  split <;> infer_instance

/-- Each join so far: its thread still waits and has made no step since, or the joined thread has ended and the thread
    knows its clock. -/
structure Joined (steps : List TaintStep) (e : Executor) : Prop where
  joined : ∀ {k u : Nat} {c : TaintStep}, steps[k]? = some c → c.inst = .call (.pthreadJoin u) →
    (c.threadId ∈ e.joiners u ∧ ∀ (j : Nat) (b : TaintStep), k < j → steps[j]? = some b → b.threadId ≠ c.threadId) ∨
    e.state.stateOf u = some .terminated ∧ ∀ x, e.state.clock u x ≤ e.state.clock c.threadId x
  complete : JoinComplete steps

variable {steps : List TaintStep} {e e' : Executor} {s : TaintStep}

theorem clock_of_ge {st : ExecutionState} {q k : Nat} (hk : 5 ≤ k) : st.clock q k = 0 := by
  rw [clock]
  cases st.findThreadById q with
  | none => rfl
  | some thread => simp [Nat.not_lt.mpr hk]

theorem not_schedulable_of_mem_joiners (h : Placed e) {u q : Nat} (hq : q ∈ e.joiners u) : ¬e.Schedulable q := by
  have hblocked := (h.joiners.mem q).mpr ⟨u, hq⟩
  simp [Schedulable, hblocked]

/-- The clock of a thread that has ended does not change any more. -/
theorem TaintEffect.clock_terminated (hs : TaintEffect s e e') {u : Nat} (hu : e.state.stateOf u = some .terminated) (x : Nat) :
    e'.state.clock u x = e.state.clock u x := by
  refine hs.effect.passes.frame u (fun heq => ?_) (fun hmem => ?_) x
  · exact hs.schedulable.live.2 (heq ▸ hu)
  · rcases List.mem_append.mp hmem with hcreated | hreleased
    · refine (hs.effect.created u (Option.mem_toList.mp hcreated)).1 ?_
      exact stateOf_isSome.mp (by rw [hu]; rfl)
    · exact (hs.effect.released u hreleased).2 hu

theorem Joined.joined_step (h : Joined steps e) (hplaced : Placed e) (hs : TaintEffect s e e')
    (hknown : JoinsKnown e s.threadId s.inst) {k u : Nat} {c : TaintStep} (hc : (steps ++ [s])[k]? = some c)
    (hinst : c.inst = .call (.pthreadJoin u)) :
    (c.threadId ∈ e'.joiners u ∧
      ∀ (j : Nat) (b : TaintStep), k < j → (steps ++ [s])[j]? = some b → b.threadId ≠ c.threadId) ∨
    e'.state.stateOf u = some .terminated ∧ ∀ x, e'.state.clock u x ≤ e'.state.clock c.threadId x := by
  have hstays : e.state.stateOf u = some .terminated → (∀ x, e.state.clock u x ≤ e.state.clock c.threadId x) →
      e'.state.stateOf u = some .terminated ∧ ∀ x, e'.state.clock u x ≤ e'.state.clock c.threadId x := by
    intro hterm hle
    refine ⟨(hs.effect.terminated u).mpr (.inl hterm), fun x => ?_⟩
    rw [TaintEffect.clock_terminated hs hterm]
    exact (hle x).trans (hs.effect.passes.mono _ x)
  rcases getElem?_snoc_cases hc with hc | ⟨rfl, rfl⟩
  · rcases h.joined hc hinst with ⟨hwaits, hquiet⟩ | ⟨hterm, hle⟩
    swap
    · exact .inr (hstays hterm hle)
    obtain ⟨hrunning, hrecord⟩ := mem_joiners.mp hwaits
    have hother : s.threadId ≠ c.threadId := fun heq =>
      not_schedulable_of_mem_joiners hplaced hwaits (heq ▸ hs.schedulable)
    by_cases hexit : s.threadId = u ∧ s.inst = .ret true
    · -- the joined thread ends
      obtain ⟨rfl, hret⟩ := hexit
      obtain ⟨hown, hge⟩ := hs.effect.exit hret
      refine .inr ⟨(hs.effect.terminated _).mpr (.inr ⟨rfl, hret⟩), fun x => ?_⟩
      rw [hown]
      exact hge _ hrecord x
    · refine .inl ⟨mem_joiners.mpr ⟨fun hterm => ?_, (hs.effect.joinRecord u _).mpr (.inl hrecord)⟩, fun j b hkj hb => ?_⟩
      · rcases (hs.effect.terminated u).mp hterm with hterm | ⟨rfl, hret⟩
        · exact hrunning hterm
        · exact hexit ⟨rfl, hret⟩
      · rcases getElem?_snoc_cases hb with hb | ⟨rfl, rfl⟩
        · exact hquiet j b hkj hb
        · exact hother
  · by_cases hterm : e.state.stateOf u = some .terminated
    · refine .inr (hstays hterm fun x => ?_)
      rw [hinst] at hknown
      rcases Nat.lt_or_ge x 5 with hx | hx
      · exact hknown hterm x hx
      · rw [clock_of_ge hx]
        exact Nat.zero_le _
    · refine .inl ⟨mem_joiners.mpr ⟨fun hterm' => ?_, (hs.effect.joinRecord u _).mpr (.inr ⟨rfl, hinst, hterm⟩)⟩,
        fun j b hkj hb => ?_⟩
      · rcases (hs.effect.terminated u).mp hterm' with hterm' | ⟨-, hret⟩
        · exact hterm hterm'
        · rw [hinst] at hret
          cases hret
      · have hlt := (List.getElem?_eq_some_iff.mp hb).1
        rw [List.length_append, List.length_singleton] at hlt
        omega

theorem Joined.complete_step (h : Joined steps e) (hclocks : Clocks steps e) (hs : TaintEffect s e e') :
    JoinComplete (steps ++ [s]) := by
  intro k i j c a b V W hc ha hb hinst hkj hthread hV hW x
  have hk : steps[k]? = some c := by
    rcases getElem?_snoc_cases hc with hc | ⟨rfl, -⟩
    · exact hc
    · have hlt := (List.getElem?_eq_some_iff.mp hb).1
      rw [List.length_append, List.length_singleton] at hlt
      omega
  have hlive := hs.schedulable.live.2
  rcases getElem?_snoc_cases hb with hj | ⟨rfl, rfl⟩
  · rcases getElem?_snoc_cases ha with hi | ⟨rfl, rfl⟩
    · exact h.complete k i j c a b V W hk hi hj hinst hkj hthread hV hW x
    · -- the joined thread makes a step, so the thread that joined it still waits
      rcases h.joined hk hinst with ⟨-, hquiet⟩ | ⟨hterm, -⟩
      · exact absurd hthread (hquiet j b hkj hj)
      · exact absurd hterm hlive
  · rcases h.joined hk hinst with ⟨hwaits, -⟩ | ⟨hterm, hle⟩
    · exact absurd hs.schedulable (hthread ▸ not_schedulable_of_mem_joiners hclocks.placed hwaits)
    · have ha' : steps[i]? = some a := by
        rcases getElem?_snoc_cases ha with ha | ⟨-, rfl⟩
        · exact ha
        · exact absurd hterm hlive
      have hstamp : V[x] ≤ e.state.clock a.threadId x := by
        have hle' := hclocks.clocked.stamp_le (a := a.toStep) (by rw [List.getElem?_map, ha']; rfl)
          (by rw [TaintStep.toStep, hV]; rfl) x
        simpa [TaintStep.toStep] using hle'
      have hclock : W[x] = e'.state.clock b.threadId x := by
        have heq := (hs.vectorClock W hW).2 x
        simpa using heq
      calc V[x] ≤ e.state.clock a.threadId x := hstamp
        _ ≤ e.state.clock c.threadId x := hle x
        _ ≤ e'.state.clock c.threadId x := hs.effect.passes.mono _ x
        _ = W[x] := by rw [hclock, hthread]

/-- In every run in which a thread that is joined after its end is known to the thread that joins it, the clocks after a
    join are at least those of the joined thread. -/
theorem joinComplete_of_joinsKnown (h : TaintRun JoinsKnown steps e) : JoinComplete steps := by
  have hinv : Joined steps e := by
    induction h with
    | start => exact ⟨by simp, by intro k i j c a b V W hc; simp at hc⟩
    | createSpecialElement element _ ih =>
      obtain ⟨hjoined, hcomplete⟩ := ih
      cases element <;> exact ⟨hjoined, hcomplete⟩
    | step hrun hknown hstep ih =>
      have hclocks := taintRun_clocks hrun
      obtain ⟨rfl, rfl, hs⟩ := taintStep_effect hclocks.placed hstep
      exact ⟨fun hc hinst => ih.joined_step hclocks.placed hs hknown hc hinst, ih.complete_step hclocks hs⟩
  exact hinv.complete

/-- A thread stores and ends, and the main thread reads after it has joined it; `early` when it joins it before. -/
def joinAndRead (early : Bool) : List (Nat × Inst) :=
  let join := (1, Inst.call (.pthreadJoin 2))
  let other := [(2, Inst.store ⟨1, 8, true⟩ false), (2, Inst.ret true)]
  [(1, .call (.pthreadCreate ⟨2, 16, false⟩))] ++ (if early then join :: other else other ++ [join]) ++
    [(1, .load ⟨1, 8, true⟩ false)]

theorem joinComplete_early :
    ∃ steps e, replay JoinsKnown [] (joinAndRead true) = some (steps, e) ∧ steps.length = 5 ∧ JoinComplete steps := by
  have hrun : (replay JoinsKnown [] (joinAndRead true)).isSome := by decide +kernel
  obtain ⟨⟨steps, e⟩, hsteps⟩ := Option.isSome_iff_exists.mp hrun
  have hlength : (replay JoinsKnown [] (joinAndRead true)).map (fun result => result.1.length) = some 5 := by decide +kernel
  rw [hsteps] at hlength
  exact ⟨steps, e, hsteps, Option.some.inj hlength, joinComplete_of_joinsKnown (replay_taintRun hsteps)⟩

theorem not_joinComplete_late :
    ¬∀ steps e, TaintRun (fun _ _ _ => True) steps e → JoinComplete steps := by
  intro hall
  have hrun : (replay (fun _ _ _ => True) [] (joinAndRead false)).isSome := by decide +kernel
  obtain ⟨⟨steps, e⟩, hsteps⟩ := Option.isSome_iff_exists.mp hrun
  have hcomplete := hall steps e (replay_taintRun hsteps)
  have hshape : (replay (fun _ _ _ => True) [] (joinAndRead false)).map
        (fun result => result.1.map fun s => (s.threadId, s.inst, s.vectorClock)) =
      some [(1, .call (.pthreadCreate ⟨2, 16, false⟩), none), (2, .store ⟨1, 8, true⟩ false, some #v[0, 0, 1, 0, 0]),
        (2, .ret true, none), (1, .call (.pthreadJoin 2), none), (1, .load ⟨1, 8, true⟩ false, some #v[0, 2, 0, 0, 0])] := by
    decide +kernel
  rw [hsteps, Option.map_some, Option.some.injEq] at hshape
  obtain ⟨_, rest, rfl, -, hrest⟩ := List.map_eq_cons_iff.mp hshape
  obtain ⟨a, rest, rfl, ha, hrest⟩ := List.map_eq_cons_iff.mp hrest
  obtain ⟨_, rest, rfl, -, hrest⟩ := List.map_eq_cons_iff.mp hrest
  obtain ⟨c, rest, rfl, hc, hrest⟩ := List.map_eq_cons_iff.mp hrest
  obtain ⟨b, rest, rfl, hb, -⟩ := List.map_eq_cons_iff.mp hrest
  simp only [Prod.mk.injEq] at ha hb hc
  have hle := hcomplete 3 1 4 c a b _ _ rfl rfl rfl (by rw [hc.2.1, ha.1]) (by decide) (by rw [hb.1, hc.1]) ha.2.2 hb.2.2 2
  exact absurd hle (by decide)

end CapTaint
