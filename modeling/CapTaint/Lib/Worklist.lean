import Mathlib

/-! A search with a stack. Each element is marked when it is pushed, so none is pushed twice, and the marks at the end
    are what can be reached from the first stack. -/

namespace CapTaint.Worklist
open Relation

variable {α : Type} [DecidableEq α]

/-- The marks and the stack, top first. -/
structure Search (α : Type) where
  marked : List α
  stack : List α

namespace Search

def push (s : Search α) (a : α) : Search α :=
  if a ∈ s.marked then s else { marked := a :: s.marked, stack := a :: s.stack }

/-- The top is popped and its successors are pushed. -/
def visit (succ : α → List α) (s : Search α) : Search α :=
  match s.stack with
  | [] => s
  | a :: stack => (succ a).foldl push { s with stack := stack }

/-- `for (; !stack.empty();) visit`, at most `fuel` times. -/
def run (succ : α → List α) : Nat → Search α → Search α
  | 0, s => s
  | fuel + 1, s => run succ fuel (s.visit succ)

/-- The run, which appends what `f` finds in each element that it visits. -/
def collect {β : Type} (succ : α → List α) (f : α → List β) : Nat → Search α → List β → List β
  | 0, _, found => found
  | fuel + 1, s, found =>
    match s.stack with
    | [] => found
    | a :: _ => collect succ f fuel (s.visit succ) (found ++ f a)

theorem collect_map {β γ : Type} (g : β → γ) {succ : α → List α} {f : α → List β} (fuel : Nat) (s : Search α) (found : List β) :
    (collect succ f fuel s found).map g = collect succ (fun a => (f a).map g) fuel s (found.map g) := by
  induction fuel generalizing s found with
  | zero => rfl
  | succ fuel ih =>
    rw [collect, collect]
    split
    · rfl
    · rw [ih, List.map_append]

/-! ### One visit -/

theorem mem_push_marked {s : Search α} {a b : α} : b ∈ (s.push a).marked ↔ b = a ∨ b ∈ s.marked := by
  unfold push
  split
  · exact ⟨.inr, fun h => h.elim (fun h => by rwa [h]) id⟩
  · simp

theorem mem_pushes_marked {succs : List α} {s : Search α} {b : α} :
    b ∈ (succs.foldl push s).marked ↔ b ∈ succs ∨ b ∈ s.marked := by
  induction succs generalizing s with
  | nil => simp
  | cons a succs ih =>
    rw [List.foldl_cons, ih, mem_push_marked, List.mem_cons]
    tauto

/-- What is pushed is new: an element of the stack was there before, or was not marked. -/
theorem mem_pushes_stack {succs : List α} {s : Search α} {b : α} (hb : b ∈ (succs.foldl push s).marked) :
    b ∈ (succs.foldl push s).stack ↔ b ∈ s.stack ∨ b ∉ s.marked := by
  induction succs generalizing s with
  | nil => simp only [List.foldl_nil] at hb ⊢; tauto
  | cons a succs ih =>
    rw [List.foldl_cons] at hb ⊢
    rw [ih hb]
    unfold push
    split
    case isTrue => exact Iff.rfl
    case isFalse ha =>
      simp only [List.mem_cons]
      by_cases hba : b = a
      · simp [hba, ha]
      · simp [hba]

theorem mem_pushes_stack_or {succs : List α} {s : Search α} {b : α} (hb : b ∈ (succs.foldl push s).stack) :
    b ∈ succs ∨ b ∈ s.stack := by
  induction succs generalizing s with
  | nil => exact .inr hb
  | cons a succs ih =>
    rcases ih hb with hsuccs | hstack
    · exact .inl (List.mem_cons_of_mem a hsuccs)
    · unfold push at hstack
      split at hstack
      · exact .inr hstack
      · rcases List.mem_cons.mp hstack with rfl | hold
        · exact .inl List.mem_cons_self
        · exact .inr hold

theorem pushes_stack_marked {succs : List α} {s : Search α} (h : ∀ a ∈ s.stack, a ∈ s.marked) :
    ∀ a ∈ (succs.foldl push s).stack, a ∈ (succs.foldl push s).marked := by
  induction succs generalizing s with
  | nil => exact h
  | cons b succs ih =>
    refine ih fun a ha => ?_
    rw [mem_push_marked]
    unfold push at ha
    split at ha
    · exact .inr (h a ha)
    · rcases List.mem_cons.mp ha with rfl | ha
      · exact .inl rfl
      · exact .inr (h a ha)

theorem pushes_of_marked {succs : List α} {s : Search α} (h : ∀ a ∈ succs, a ∈ s.marked) : succs.foldl push s = s := by
  induction succs with
  | nil => rfl
  | cons a succs ih =>
    rw [List.foldl_cons, push, if_pos (h a List.mem_cons_self)]
    exact ih fun b hb => h b (List.mem_cons_of_mem a hb)

theorem pushes_stack_nodup {succs : List α} {s : Search α} (hmarked : ∀ a ∈ s.stack, a ∈ s.marked) (h : s.stack.Nodup) :
    (succs.foldl push s).stack.Nodup := by
  induction succs generalizing s with
  | nil => exact h
  | cons a succs ih =>
    rw [List.foldl_cons]
    unfold push
    split_ifs with ha
    · exact ih hmarked h
    · refine ih (fun b hb => ?_) (List.nodup_cons.mpr ⟨fun hmem => ha (hmarked a hmem), h⟩)
      rcases List.mem_cons.mp hb with rfl | hb
      · exact List.mem_cons_self
      · exact List.mem_cons_of_mem a (hmarked b hb)

/-- Each new mark takes an element out of `all` and puts one on the stack. -/
theorem pushes_measure {all succs : List α} (hall : ∀ a ∈ succs, a ∈ all) (s : Search α) :
    (succs.foldl push s).stack.length + (all.filter (· ∉ (succs.foldl push s).marked)).length ≤
      s.stack.length + (all.filter (· ∉ s.marked)).length := by
  induction succs generalizing s with
  | nil => exact Nat.le_refl _
  | cons a succs ih =>
    rw [List.foldl_cons]
    refine (ih (fun b hb => hall b (List.mem_cons_of_mem a hb)) _).trans ?_
    unfold push
    split
    case isTrue => exact Nat.le_refl _
    case isFalse ha =>
      have hsub : (all.filter (· ∉ a :: s.marked)).length < (all.filter (· ∉ s.marked)).length := by
        have hfilter : all.filter (· ∉ a :: s.marked) = (all.filter (· ∉ s.marked)).filter (· ≠ a) := by
          rw [List.filter_filter]
          exact List.filter_congr fun b _ => by simp
        rw [hfilter]
        refine List.length_filter_lt_length_iff_exists.mpr ⟨a, ?_, by simp⟩
        exact List.mem_filter.mpr ⟨hall a List.mem_cons_self, by simpa using ha⟩
      simp only [List.length_cons]
      omega

/-! ### The run -/

/-- The state of a search that started in `start`. -/
structure Progress (succ : α → List α) (start s : Search α) : Prop where
  kept : ∀ a ∈ start.marked, a ∈ s.marked
  reached : ∀ a ∈ s.marked, a ∈ start.marked ∨ ∃ r ∈ start.stack, ReflTransGen (fun a b => b ∈ succ a) r a
  stack_reached : ∀ a ∈ s.stack, ∃ r ∈ start.stack, ReflTransGen (fun a b => b ∈ succ a) r a
  stack_marked : ∀ a ∈ s.stack, a ∈ s.marked
  /-- What the start left on the stack or did not mark has its successors marked when it leaves the stack. -/
  explored : ∀ a ∈ s.marked, a ∈ start.stack ∨ a ∉ start.marked → a ∉ s.stack → ∀ b ∈ succ a, b ∈ s.marked

variable {succ : α → List α}

omit [DecidableEq α] in
theorem Progress.start {s : Search α} (hstack : ∀ a ∈ s.stack, a ∈ s.marked) : Progress succ s s where
  kept _ ha := ha
  reached _ ha := .inl ha
  stack_reached a ha := ⟨a, ha, .refl⟩
  stack_marked := hstack
  explored _ ha hfresh hout := (hfresh.elim hout (· ha)).elim

theorem Progress.visit {start s : Search α} (h : Progress succ start s) : Progress succ start (s.visit succ) := by
  unfold Search.visit
  split
  next => exact h
  next top stack hs =>
    have htop : top ∈ s.stack := by rw [hs]; exact List.mem_cons_self
    have hrest : ∀ a ∈ stack, a ∈ s.stack := fun a ha => by rw [hs]; exact List.mem_cons_of_mem top ha
    obtain ⟨r, hr, hpath⟩ := h.stack_reached top htop
    have hmarked : ∀ b, b ∈ ((succ top).foldl push { s with stack := stack }).marked ↔ b ∈ succ top ∨ b ∈ s.marked :=
      fun b => mem_pushes_marked
    have hstack : ∀ b ∈ ((succ top).foldl push { s with stack := stack }).stack,
        b ∈ ((succ top).foldl push { s with stack := stack }).marked :=
      pushes_stack_marked fun b hb => h.stack_marked b (hrest b hb)
    have hreach : ∀ b ∈ succ top, ∃ r ∈ start.stack, ReflTransGen (fun a b => b ∈ succ a) r b :=
      fun b hb => ⟨r, hr, hpath.tail hb⟩
    refine ⟨?_, ?_, ?_, hstack, ?_⟩
    · intro a ha
      exact (hmarked a).mpr (.inr (h.kept a ha))
    · intro a ha
      rcases (hmarked a).mp ha with ha | ha
      · exact .inr (hreach a ha)
      · exact h.reached a ha
    · intro a ha
      -- what is on the new stack was on the old one or is a new mark
      rcases (mem_pushes_stack (hstack a ha)).mp ha with hold | hnew
      · exact h.stack_reached a (hrest a hold)
      · exact hreach a (((hmarked a).mp (hstack a ha)).resolve_right hnew)
    · intro a ha hfresh hout b hb
      have hnot : a ∉ stack ∧ a ∈ s.marked := by simpa using (mem_pushes_stack ha).not.mp hout
      by_cases hat : a = top
      · subst hat
        exact (hmarked b).mpr (.inl hb)
      · have hold : a ∉ s.stack := by
          rw [hs]
          simpa [hat] using hnot.1
        exact (hmarked b).mpr (.inr (h.explored a hnot.2 hfresh hold b hb))

theorem Progress.run {start s : Search α} (h : Progress succ start s) (fuel : Nat) :
    Progress succ start (s.run succ fuel) := by
  induction fuel generalizing s with
  | zero => exact h
  | succ fuel ih => exact ih h.visit

theorem run_of_stack_nil {s : Search α} (hs : s.stack = []) (fuel : Nat) : s.run succ fuel = s := by
  induction fuel with
  | zero => rfl
  | succ fuel ih =>
    have hvisit : s.visit succ = s := by simp [visit, hs]
    rw [run, hvisit, ih]

/-- The stack is empty once there was fuel for the first stack and for everything that can be pushed. -/
theorem run_stack_of_closed {all : List α} (hall : ∀ a ∈ all, ∀ b ∈ succ a, b ∈ all) {fuel : Nat} {s : Search α}
    (hstack : ∀ a ∈ s.stack, ∀ b ∈ succ a, b ∈ all)
    (hfuel : s.stack.length + (all.filter (· ∉ s.marked)).length ≤ fuel) : (s.run succ fuel).stack = [] := by
  induction fuel generalizing s with
  | zero => exact List.length_eq_zero_iff.mp (by rw [run]; omega)
  | succ fuel ih =>
    cases hs : s.stack with
    | nil => rw [run_of_stack_nil hs, hs]
    | cons top stack =>
      have htop : ∀ b ∈ succ top, b ∈ all := hstack top (by rw [hs]; exact List.mem_cons_self)
      refine ih ?_ ?_
      · simp only [visit, hs]
        intro a ha b hb
        rcases mem_pushes_stack_or ha with hsucc | hold
        · exact hall a (htop a hsucc) b hb
        · exact hstack a (by rw [hs]; exact List.mem_cons_of_mem top hold) b hb
      · have hle := pushes_measure htop { s with stack := stack }
        rw [hs, List.length_cons] at hfuel
        simp only [visit, hs]
        exact hle.trans (by simp only; omega)

theorem run_stack {all : List α} (hall : ∀ a, ∀ b ∈ succ a, b ∈ all) {fuel : Nat} {s : Search α}
    (hfuel : s.stack.length + (all.filter (· ∉ s.marked)).length ≤ fuel) : (s.run succ fuel).stack = [] :=
  run_stack_of_closed (fun a _ => hall a) (fun a _ => hall a) hfuel

/-- The marks of a search whose marks were the stack and whose stack is empty now. -/
theorem mem_run_marked_of_stack {s : Search α} (hstart : ∀ a, a ∈ s.marked ↔ a ∈ s.stack) {fuel : Nat}
    (hend : (s.run succ fuel).stack = []) {a : α} :
    a ∈ (s.run succ fuel).marked ↔ ∃ r ∈ s.stack, ReflTransGen (fun a b => b ∈ succ a) r a := by
  have hfirst : Progress succ s s := .start fun a ha => (hstart a).mpr ha
  have h := hfirst.run fuel
  refine ⟨fun ha => ?_, ?_⟩
  · rcases h.reached a ha with ha | ha
    · exact ⟨a, (hstart a).mp ha, .refl⟩
    · exact ha
  · rintro ⟨r, hr, hpath⟩
    induction hpath with
    | refl => exact h.kept r ((hstart r).mpr hr)
    | @tail b c _ hbc ih =>
      refine h.explored b ih ?_ (by simp [hend]) c hbc
      rw [hstart]
      exact Decidable.em _

theorem mem_run_marked {all : List α} (hall : ∀ a, ∀ b ∈ succ a, b ∈ all) {s : Search α}
    (hstart : ∀ a, a ∈ s.marked ↔ a ∈ s.stack) {fuel : Nat} (hfuel : s.stack.length + all.length ≤ fuel) {a : α} :
    a ∈ (s.run succ fuel).marked ↔ ∃ r ∈ s.stack, ReflTransGen (fun a b => b ∈ succ a) r a :=
  mem_run_marked_of_stack hstart
    (run_stack hall (Nat.le_trans (Nat.add_le_add_left (List.length_filter_le _ _) _) hfuel))

/-! ### What is collected -/

variable {β : Type} {f : α → List β} {found : List β}

/-- What has left the stack has been visited. -/
theorem mem_collect_of_marked (fuel : Nat) {s : Search α}
    (h : ∀ a ∈ s.marked, a ∈ s.stack ∨ ∀ b ∈ f a, b ∈ found) :
    ∀ a ∈ (s.run succ fuel).marked, a ∈ (s.run succ fuel).stack ∨ ∀ b ∈ f a, b ∈ s.collect succ f fuel found := by
  induction fuel generalizing s found with
  | zero => exact h
  | succ fuel ih =>
    cases hs : s.stack with
    | nil =>
      rw [run_of_stack_nil hs, collect, hs]
      rw [hs] at h
      exact h
    | cons top stack =>
      rw [run, collect, hs]
      refine ih fun a ha => ?_
      simp only [visit, hs] at ha ⊢
      rw [mem_pushes_stack ha]
      by_cases hold : a ∈ s.marked
      · rcases h a hold with hstack | hfound
        · rcases List.mem_cons.mp (hs ▸ hstack) with rfl | hrest
          · exact .inr fun b hb => List.mem_append_right _ hb
          · exact .inl (.inl hrest)
        · exact .inr fun b hb => List.mem_append_left _ (hfound b hb)
      · exact .inl (.inr hold)

/-- Only what can be reached from the stack is visited. -/
theorem exists_of_mem_collect (fuel : Nat) {start s : Search α} (h : Progress succ start s) {b : β}
    (hb : b ∈ s.collect succ f fuel found) :
    b ∈ found ∨ ∃ r ∈ start.stack, ∃ a, ReflTransGen (fun a b => b ∈ succ a) r a ∧ b ∈ f a := by
  induction fuel generalizing s found with
  | zero => exact .inl hb
  | succ fuel ih =>
    rw [collect] at hb
    split at hb
    next => exact .inl hb
    next top _ hs =>
      rcases ih h.visit hb with hfound | hreached
      · rcases List.mem_append.mp hfound with hold | htop
        · exact .inl hold
        · obtain ⟨r, hr, hpath⟩ := h.stack_reached top (by rw [hs]; exact List.mem_cons_self)
          exact .inr ⟨r, hr, top, hpath, htop⟩
      · exact .inr hreached

/-- Nothing is visited twice. -/
theorem collect_nodup {f : α → List α} {found : List α} (hf : ∀ a, f a = [] ∨ f a = [a]) (fuel : Nat) {s : Search α}
    (hmarked : ∀ a ∈ s.stack, a ∈ s.marked) (hstack : s.stack.Nodup) (hfound : ∀ a ∈ found, a ∈ s.marked ∧ a ∉ s.stack)
    (hnodup : found.Nodup) : (s.collect succ f fuel found).Nodup := by
  induction fuel generalizing s found with
  | zero => exact hnodup
  | succ fuel ih =>
    rw [collect]
    split
    next => exact hnodup
    next top stack hs =>
      rw [hs] at hstack
      obtain ⟨htop, hrest⟩ := List.nodup_cons.mp hstack
      have hold : ∀ a ∈ stack, a ∈ s.marked := fun a ha => hmarked a (hs ▸ List.mem_cons_of_mem top ha)
      have hvisit : s.visit succ = (succ top).foldl push { s with stack := stack } := by rw [visit, hs]
      have hkept : ∀ a ∈ s.marked, a ∉ stack → a ∈ (s.visit succ).marked ∧ a ∉ (s.visit succ).stack := by
        intro a ha hnot
        have hin : a ∈ (s.visit succ).marked := by
          rw [hvisit]
          exact mem_pushes_marked.mpr (.inr ha)
        refine ⟨hin, ?_⟩
        rw [hvisit] at hin ⊢
        rw [mem_pushes_stack hin]
        exact fun h => h.elim hnot fun h => h ha
      refine ih ?_ ?_ ?_ ?_
      · rw [hvisit]
        exact pushes_stack_marked hold
      · rw [hvisit]
        exact pushes_stack_nodup hold hrest
      · intro a ha
        rcases List.mem_append.mp ha with ha | ha
        · obtain ⟨hin, hnot⟩ := hfound a ha
          exact hkept a hin fun h => hnot (hs ▸ List.mem_cons_of_mem top h)
        · rcases hf top with h | h <;> rw [h] at ha
          · cases ha
          · obtain rfl := List.mem_singleton.mp ha
            exact hkept a (hmarked a (hs ▸ List.mem_cons_self)) htop
      · refine List.Nodup.append hnodup ?_ ?_
        · rcases hf top with h | h <;> rw [h] <;> simp
        · intro a ha hmem
          rcases hf top with h | h <;> rw [h] at hmem
          · cases hmem
          · obtain rfl := List.mem_singleton.mp hmem
            exact (hfound a ha).2 (hs ▸ List.mem_cons_self)

/-- A search from `a` with fuel for `all` ends. -/
theorem run_from_stack {all : List α} (hall : ∀ a ∈ all, ∀ b ∈ succ a, b ∈ all) {a : α} (ha : a ∈ all) :
    (run succ all.length ⟨[a], [a]⟩).stack = [] := by
  refine run_stack_of_closed hall (fun r hr => ?_) ?_
  · obtain rfl := List.mem_singleton.mp hr
    exact hall r ha
  · have hlt : (all.filter (· ∉ (⟨[a], [a]⟩ : Search α).marked)).length < all.length :=
      List.length_filter_lt_length_iff_exists.mpr ⟨a, ha, by simp⟩
    rw [List.length_singleton, Nat.add_comm]
    exact hlt

/-- A search from `a` with fuel for `all` collects from what can be reached, and from nothing else. -/
theorem mem_collect {all : List α} (hall : ∀ a ∈ all, ∀ b ∈ succ a, b ∈ all) {a : α} (ha : a ∈ all) {b : β} :
    b ∈ collect succ f all.length ⟨[a], [a]⟩ [] ↔ ∃ c, ReflTransGen (fun a b => b ∈ succ a) a c ∧ b ∈ f c := by
  have hstart : ∀ c, c ∈ (⟨[a], [a]⟩ : Search α).marked ↔ c ∈ (⟨[a], [a]⟩ : Search α).stack := fun _ => Iff.rfl
  constructor
  · intro hb
    rcases exists_of_mem_collect _ (.start fun c hc => (hstart c).mpr hc) hb with hnil | ⟨r, hr, c, hpath, hc⟩
    · cases hnil
    · obtain rfl := List.mem_singleton.mp hr
      exact ⟨c, hpath, hc⟩
  · rintro ⟨c, hpath, hb⟩
    have hend := run_from_stack hall ha
    have hmarked := (mem_run_marked_of_stack hstart hend).mpr ⟨a, List.mem_singleton_self a, hpath⟩
    rcases mem_collect_of_marked all.length (fun c hc => .inl ((hstart c).mp hc)) c hmarked with hstack | hfound
    · rw [hend] at hstack
      cases hstack
    · exact hfound b hb

end Search
end CapTaint.Worklist
