import Mathlib
import CapTaint.PhiCleaner
import CapTaint.Theorems.LowerSwitch

/-! # PHI nodes as parallel assignments

The pass gives all nodes of a block the entries of the same blocks in the same order, and no node reads a node before it. What
it would read is copied at the end of the block that control comes from. -/

namespace CapTaint.PhiCleaner

open Ssa LowerSwitch ParallelCopy OptionLoop

variable {K O M : Type} {f g : Function K O} {b n next next' : Nat} {phis order : List Nat} {sem : Semantics K O M}

/-! ### Entries -/

theorem reorder_spec {reference pi : PHINode (Value K)} (h : (pi.incoming.map (·.2)).Perm (reference.incoming.map (·.2))) :
    ∃ node, reorder reference pi = some node ∧ node.incoming.map (·.2) = reference.incoming.map (·.2) ∧
      ∀ entry ∈ node.incoming, entry ∈ pi.incoming := by
  have hlength : pi.incoming.length = reference.incoming.length := by simpa using h.length_eq
  rw [reorder, if_neg (not_not.mpr hlength)]
  split
  case isTrue heq => exact ⟨pi, rfl, heq, fun _ hentry => hentry⟩
  case isFalse =>
    have hentries : ∀ entry ∈ reference.incoming, ∃ entry', (pi.valueFor entry.2).map (fun value => (value, entry.2)) = some entry' ∧
        entry'.2 = entry.2 ∧ entry' ∈ pi.incoming := by
      intro entry hentry
      obtain ⟨⟨value, p⟩, hmem, hp⟩ := List.mem_map.mp (h.mem_iff.mpr (List.mem_map_of_mem hentry))
      obtain ⟨found, hfound⟩ : ∃ found, pi.incoming.find? (·.2 = entry.2) = some found :=
        Option.isSome_iff_exists.mp (List.find?_isSome.mpr ⟨(value, p), hmem, decide_eq_true hp⟩)
      have hfind := List.find?_some hfound
      have hblock : found.2 = entry.2 := of_decide_eq_true hfind
      refine ⟨(found.1, entry.2), by rw [PHINode.valueFor, hfound, Option.map_some, Option.map_some], rfl, ?_⟩
      rw [← hblock]
      exact List.mem_of_find?_eq_some hfound
    obtain ⟨incoming, hincoming, hall⟩ := mapM_forall₂ hentries
    refine ⟨⟨incoming⟩, by rw [hincoming, Option.map_some], ?_, fun entry hentry => ?_⟩
    · exact map_eq_of_forall₂ hall fun _ _ hstep => hstep.1
    · obtain ⟨_, -, hstep⟩ := mem_of_forall₂ hall hentry
      exact hstep.2

/-- Bitcasts of results among `phis` at the ends of blocks of `order`, each with a register of its own. -/
structure NewMoves (phis order : List Nat) (next next' : Nat) (moves : List (Move K)) : Prop where
  le : next ≤ next'
  nodup : (moves.map (·.tmp)).Nodup
  tmp : ∀ move ∈ moves, next ≤ move.tmp ∧ move.tmp < next'
  operand : ∀ move ∈ moves, ∃ r ∈ phis, move.operand = .register r
  block : ∀ move ∈ moves, move.block ∈ order

theorem NewMoves.append {next'' : Nat} {moves moves' : List (Move K)} (h : NewMoves phis order next next' moves)
    (h' : NewMoves phis order next' next'' moves') : NewMoves phis order next next'' (moves ++ moves') where
  le := h.le.trans h'.le
  nodup := by
    rw [List.map_append]
    refine h.nodup.append h'.nodup fun tmp htmp htmp' => ?_
    obtain ⟨move, hmove, rfl⟩ := List.mem_map.mp htmp
    obtain ⟨move', hmove', heq⟩ := List.mem_map.mp htmp'
    have hlt := (h.tmp move hmove).2
    have hle := (h'.tmp move' hmove').1
    omega
  tmp move hmove := by
    rcases List.mem_append.mp hmove with hmove | hmove
    · exact ⟨(h.tmp move hmove).1, (h.tmp move hmove).2.trans_le h'.le⟩
    · exact ⟨h.le.trans (h'.tmp move hmove).1, (h'.tmp move hmove).2⟩
  operand move hmove := (List.mem_append.mp hmove).elim (h.operand move) (h'.operand move)
  block move hmove := (List.mem_append.mp hmove).elim (h.block move) (h'.block move)

theorem NewMoves.mono {phis' order' : List Nat} {moves : List (Move K)} (h : NewMoves phis order next next' moves)
    (hphis : phis ⊆ phis') (horder : order ⊆ order') : NewMoves phis' order' next next' moves where
  le := h.le
  nodup := h.nodup
  tmp := h.tmp
  operand move hmove := (h.operand move hmove).imp fun _ hr => ⟨hphis hr.1, hr.2⟩
  block move hmove := horder (h.block move hmove)

theorem NewMoves.nil (phis order : List Nat) (next : Nat) : NewMoves (K := K) phis order next next [] :=
  ⟨le_rfl, List.nodup_nil, fun _ h => absurd h List.not_mem_nil, fun _ h => absurd h List.not_mem_nil,
    fun _ h => absurd h List.not_mem_nil⟩

/-- The entry stands for an entry of the node, by its own value or by one that `moved` has for it. -/
def StandsFor (moved : Nat → Nat → Value K → Prop) (incoming : List (Value K × Nat)) (entry : Value K × Nat) : Prop :=
  ∃ value, (value, entry.2) ∈ incoming ∧ (entry.1 = value ∨ ∃ tmp, entry.1 = .register tmp ∧ moved entry.2 tmp value)

theorem StandsFor.mono {moved moved' : Nat → Nat → Value K → Prop} {incoming incoming' : List (Value K × Nat)}
    {entry : Value K × Nat} (h : StandsFor moved incoming entry) (hmoved : ∀ p tmp value, moved p tmp value → moved' p tmp value)
    (hincoming : ∀ e ∈ incoming, e ∈ incoming') : StandsFor moved' incoming' entry := by
  obtain ⟨value, hmem, hvalue⟩ := h
  exact ⟨value, hincoming _ hmem, hvalue.imp_right fun ⟨tmp, htmp, hmove⟩ => ⟨tmp, htmp, hmoved _ _ _ hmove⟩⟩

theorem moveValues_spec (incoming : List (Value K × Nat)) (hphis : ∀ r ∈ phis, r < next) :
    ∃ incoming' moves next', moveValues phis next incoming = (incoming', moves, next') ∧
      NewMoves phis (incoming.map (·.2)) next next' moves ∧ incoming'.map (·.2) = incoming.map (·.2) ∧
      ∀ entry ∈ incoming', StandsFor (fun p tmp value => ⟨p, tmp, value⟩ ∈ moves) incoming entry ∧
        ∀ r ∈ phis, entry.1 ≠ .register r := by
  induction incoming generalizing next with
  | nil => exact ⟨[], [], next, rfl, .nil _ _ _, rfl, fun _ h => absurd h List.not_mem_nil⟩
  | cons entry rest ih =>
    obtain ⟨value, block⟩ := entry
    have hsubset : rest.map (·.2) ⊆ ((value, block) :: rest).map (·.2) := List.subset_cons_self _ _
    cases hresult : isResult phis value with
    | true =>
      obtain ⟨r, hr, rfl⟩ : ∃ r ∈ phis, value = .register r := by
        cases value with
        | register r => exact ⟨r, of_decide_eq_true hresult, rfl⟩
        | constant c => cases hresult
      obtain ⟨incoming', moves, next', heq, hnew, hblocks, hstands⟩ := ih fun r hr => (hphis r hr).trans (Nat.lt_succ_self next)
      have hfirst : NewMoves (K := K) phis (((.register r, block) :: rest).map (·.2)) next (next + 1) [⟨block, next, .register r⟩] :=
        ⟨Nat.le_succ _, List.nodup_singleton _, by simp, by simpa using hr, by simp⟩
      refine ⟨(.register next, block) :: incoming', ⟨block, next, .register r⟩ :: moves, next', ?_,
        hfirst.append (hnew.mono (fun _ h => h) hsubset), congrArg (block :: ·) hblocks, fun entry hentry => ?_⟩
      · rw [moveValues, if_pos hresult, heq]
      · rcases List.mem_cons.mp hentry with rfl | hentry
        · refine ⟨⟨_, List.mem_cons_self, .inr ⟨next, rfl, List.mem_cons_self⟩⟩, fun r' hr' heq' => ?_⟩
          obtain rfl := Operand.register.inj heq'
          exact lt_irrefl _ (hphis _ hr')
        · exact ⟨(hstands entry hentry).1.mono (fun _ _ _ => List.mem_cons_of_mem _) fun _ => List.mem_cons_of_mem _,
            (hstands entry hentry).2⟩
    | false =>
      obtain ⟨incoming', moves, next', heq, hnew, hblocks, hstands⟩ := ih hphis
      refine ⟨(value, block) :: incoming', moves, next', ?_, hnew.mono (fun _ h => h) hsubset, congrArg (block :: ·) hblocks,
        fun entry hentry => ?_⟩
      · rw [moveValues, if_neg (Bool.eq_false_iff.mp hresult), heq]
      · rcases List.mem_cons.mp hentry with rfl | hentry
        · refine ⟨⟨value, List.mem_cons_self, .inl rfl⟩, fun r hr hvalue => ?_⟩
          obtain rfl : value = .register r := hvalue
          exact absurd (decide_eq_true hr) (Bool.eq_false_iff.mp hresult)
        · exact ⟨(hstands entry hentry).1.mono (fun _ _ _ h => h) fun _ => List.mem_cons_of_mem _, (hstands entry hentry).2⟩

/-! ### The nodes of a block -/

/-- `phi'` takes the place of `phi`. -/
structure Replaces (moved : Nat → Nat → Value K → Prop) (order : List Nat) (phi phi' : Phi K) : Prop where
  result : phi'.result = phi.result
  blocks : phi'.node.incoming.map (·.2) = order
  stands : ∀ entry ∈ phi'.node.incoming, StandsFor moved phi.node.incoming entry

theorem Replaces.mono {moved moved' : Nat → Nat → Value K → Prop} {phi phi' : Phi K} (h : Replaces moved order phi phi')
    (hmoved : ∀ p tmp value, moved p tmp value → moved' p tmp value) : Replaces moved' order phi phi' :=
  ⟨h.result, h.blocks, fun entry hentry => (h.stands entry hentry).mono hmoved fun _ h => h⟩

/-- The node does not read the register. -/
def Unread (r : Nat) (phi : Phi K) : Prop := ∀ entry ∈ phi.node.incoming, entry.1 ≠ .register r

theorem cleanPhis_spec {reference : PHINode (Value K)} {nodes : List (Phi K)} (hphis : ∀ r ∈ phis, r < next)
    (hnodes : ∀ phi ∈ nodes, phi.result < next ∧ (phi.node.incoming.map (·.2)).Perm (reference.incoming.map (·.2))) :
    ∃ nodes' moves next', cleanPhis reference phis next nodes = some (nodes', moves, next') ∧
      NewMoves (phis ++ nodes.map (·.result)) (reference.incoming.map (·.2)) next next' moves ∧
      List.Forall₂ (Replaces (fun p tmp value => ⟨p, tmp, value⟩ ∈ moves) (reference.incoming.map (·.2))) nodes nodes' ∧
      (∀ phi ∈ nodes', ∀ r ∈ phis, Unread r phi) ∧ nodes'.Pairwise fun phi phi' => Unread phi.result phi' := by
  induction nodes generalizing phis next with
  | nil => exact ⟨[], [], next, rfl, .nil _ _ _, .nil, fun _ h => absurd h List.not_mem_nil, .nil⟩
  | cons pi nodes ih =>
    obtain ⟨hpi, hperm⟩ := hnodes pi List.mem_cons_self
    obtain ⟨node, hnode, hblocks, hentries⟩ := reorder_spec hperm
    obtain ⟨incoming, moves, next₁, hmoves, hnew, hblocks', hstands⟩ := moveValues_spec node.incoming hphis
    have hphis' : ∀ r ∈ pi.result :: phis, r < next₁ := by
      simpa using ⟨hpi.trans_le hnew.le, fun r hr => (hphis r hr).trans_le hnew.le⟩
    obtain ⟨nodes', moves', next', heq, hnew', hreplaces, hunread, hpairwise⟩ := ih hphis' fun phi hphi =>
      ⟨(hnodes phi (List.mem_cons_of_mem _ hphi)).1.trans_le hnew.le, (hnodes phi (List.mem_cons_of_mem _ hphi)).2⟩
    refine ⟨⟨pi.result, ⟨incoming⟩⟩ :: nodes', moves ++ moves', next', ?_, ?_, .cons ⟨rfl, hblocks'.trans hblocks, ?_⟩ ?_, ?_, ?_⟩
    · simp only [cleanPhis, hnode, hmoves, heq, Option.bind_eq_bind, Option.bind_some, Option.pure_def]
    · refine (hnew.mono ?_ (by rw [hblocks]; exact fun _ h => h)).append (hnew'.mono ?_ fun _ h => h)
      · exact List.subset_append_left _ _
      · intro r hr
        simp only [List.map_cons, List.mem_append, List.mem_cons] at hr ⊢
        tauto
    · exact fun entry hentry => (hstands entry hentry).1.mono (fun _ _ _ => List.mem_append_left _) hentries
    · exact hreplaces.imp fun _ _ h => h.mono fun _ _ _ => List.mem_append_right _
    · intro phi hphi r hr
      rcases List.mem_cons.mp hphi with rfl | hphi
      · exact fun entry hentry => (hstands entry hentry).2 r hr
      · exact hunread phi hphi r (List.mem_cons_of_mem _ hr)
    · exact .cons (fun phi hphi => hunread phi hphi _ List.mem_cons_self) hpairwise

/-! ### Well-formed functions -/

theorem entries_eq_count {V : Type} (phi : PHINode V) (p : Nat) : phi.entries p = (phi.incoming.map (·.2)).count p := by
  rw [PHINode.entries, List.count_eq_countP, List.countP_map]
  exact List.countP_congr fun entry _ => by simp

theorem Function.succ_eq {bb : BasicBlock K O} (h : f.blocks[b]? = some bb) : f.succ b = bb.terminator.successors := by
  rw [Function.succ, h, Option.elim_some]

namespace Function.WellFormed

theorem perm (h : f.WellFormed) {bb : BasicBlock K O} (hbb : f.blocks[b]? = some bb) {phi phi' : Phi K} (hphi : phi ∈ bb.phis)
    (hphi' : phi' ∈ bb.phis) : (phi.node.incoming.map (·.2)).Perm (phi'.node.incoming.map (·.2)) := by
  refine List.perm_iff_count.mpr fun p => ?_
  rw [← entries_eq_count, ← entries_eq_count, h.entries b bb hbb phi hphi, h.entries b bb hbb phi' hphi']

theorem mem_blocks_iff (h : f.WellFormed) {bb : BasicBlock K O} (hbb : f.blocks[b]? = some bb) {phi : Phi K} (hphi : phi ∈ bb.phis)
    (p : Nat) : p ∈ phi.node.incoming.map (·.2) ↔ b ∈ f.succ p := by
  rw [← List.count_pos_iff, ← List.count_pos_iff, ← entries_eq_count, h.entries b bb hbb phi hphi]

theorem lt_length_of_mem_succ {p : Nat} (h : b ∈ f.succ p) : p < f.blocks.length := by
  by_contra hle
  rw [Function.succ, List.getElem?_eq_none (not_lt.mp hle)] at h
  cases h

theorem phi_lt (h : f.WellFormed) {bb : BasicBlock K O} (hbb : bb ∈ f.blocks) {phi : Phi K} (hphi : phi ∈ bb.phis) :
    phi.result < f.next :=
  h.results bb hbb _ (List.mem_append_left _ (List.mem_append_left _ (List.mem_map_of_mem hphi)))

end Function.WellFormed

/-! ### The moves -/

def bitCasts (moves : List (Nat × Value K)) : List (Instruction K O) := moves.map fun move => .bitCast move.1 move.2

def movesAt (b : Nat) (moves : List (Move K)) : List (Nat × Value K) :=
  (moves.filter (·.block = b)).map fun move => (move.tmp, move.operand)

theorem movesAt_cons (move : Move K) (moves : List (Move K)) :
    movesAt b (move :: moves) = (if move.block = b then [(move.tmp, move.operand)] else []) ++ movesAt b moves := by
  by_cases h : move.block = b <;> simp [movesAt, h]

theorem mem_movesAt {moves : List (Move K)} {tmp : Nat} {value : Value K} :
    (tmp, value) ∈ movesAt b moves ↔ ⟨b, tmp, value⟩ ∈ moves := by
  rw [movesAt, List.mem_map]
  constructor
  · rintro ⟨⟨block, tmp', value'⟩, hmem, heq⟩
    obtain ⟨hmoves, hblock⟩ := List.mem_filter.mp hmem
    obtain ⟨rfl, rfl⟩ := Prod.mk.inj heq
    obtain rfl : block = b := of_decide_eq_true hblock
    exact hmoves
  · exact fun hmem => ⟨_, List.mem_filter.mpr ⟨hmem, decide_eq_true rfl⟩, rfl⟩

/-- Each block gets its bitcasts behind the instructions that it has. -/
theorem insertMoves_spec {blocks : List (BasicBlock K O)} (moves : List (Move K)) (h : ∀ move ∈ moves, move.block < blocks.length) :
    ∃ blocks' : List (BasicBlock K O), moves.foldlM insertMove blocks = some blocks' ∧ blocks'.length = blocks.length ∧
      ∀ (b : Nat) bb, blocks[b]? = some bb →
        blocks'[b]? = some { bb with instructions := bb.instructions ++ bitCasts (movesAt b moves) } := by
  induction moves generalizing blocks with
  | nil => exact ⟨blocks, rfl, rfl, fun b bb hbb => by simpa [bitCasts, movesAt] using hbb⟩
  | cons move moves ih =>
    obtain ⟨target, htarget⟩ : ∃ target, blocks[move.block]? = some target :=
      ⟨_, List.getElem?_eq_getElem (h move List.mem_cons_self)⟩
    have hinsert : insertMove blocks move = some (blocks.set move.block
        { target with instructions := target.instructions ++ [.bitCast move.tmp move.operand] }) := by
      rw [insertMove, htarget]
      rfl
    have hlt : ∀ move' ∈ moves, move'.block < (blocks.set move.block
        { target with instructions := target.instructions ++ [.bitCast move.tmp move.operand] }).length := by
      intro move' hmove'
      rw [List.length_set]
      exact h move' (List.mem_cons_of_mem _ hmove')
    obtain ⟨blocks', heq, hlength, hblocks⟩ := ih hlt
    refine ⟨blocks', by rw [List.foldlM_cons, hinsert]; exact heq, hlength.trans List.length_set, fun b bb hbb => ?_⟩
    rw [movesAt_cons]
    by_cases hb : move.block = b
    · subst hb
      obtain rfl := Option.some.inj (htarget.symm.trans hbb)
      rw [hblocks move.block _ (List.getElem?_set_self (h move List.mem_cons_self)), if_pos rfl]
      simp [bitCasts]
    · rw [hblocks b bb ((List.getElem?_set_ne hb).trans hbb), if_neg hb, List.nil_append]

/-! ### The blocks -/

/-- `tmp` is a register of the pass, and gets the value at the end of the block. -/
def Moved (f g : Function K O) (p tmp : Nat) (value : Value K) : Prop :=
  f.next ≤ tmp ∧ ∃ bb, g.blocks[p]? = some bb ∧ .bitCast tmp value ∈ bb.instructions

def IsPhi (f : Function K O) (r : Nat) : Prop := ∃ bb ∈ f.blocks, r ∈ bb.phis.map (·.result)

/-- Results of PHI nodes are copied to registers of the pass. -/
structure Copies (f : Function K O) (next : Nat) (moves : List (Nat × Value K)) : Prop where
  nodup : (moves.map (·.1)).Nodup
  tmp : ∀ move ∈ moves, f.next ≤ move.1 ∧ move.1 < next
  operand : ∀ move ∈ moves, ∃ r, IsPhi f r ∧ move.2 = .register r

theorem Copies.append {moves moves' : List (Nat × Value K)} (h : Copies f next moves) (hle : next ≤ next') (hf : f.next ≤ next)
    (hnodup : (moves'.map (·.1)).Nodup) (htmp : ∀ move ∈ moves', next ≤ move.1 ∧ move.1 < next')
    (hoperand : ∀ move ∈ moves', ∃ r, IsPhi f r ∧ move.2 = .register r) : Copies f next' (moves ++ moves') where
  nodup := by
    rw [List.map_append]
    refine h.nodup.append hnodup fun tmp hmem hmem' => ?_
    obtain ⟨move, hmove, rfl⟩ := List.mem_map.mp hmem
    obtain ⟨move', hmove', heq⟩ := List.mem_map.mp hmem'
    have hlt := (h.tmp move hmove).2
    have hge := (htmp move' hmove').1
    omega
  tmp move hmove := by
    rcases List.mem_append.mp hmove with hmove | hmove
    · exact ⟨(h.tmp move hmove).1, (h.tmp move hmove).2.trans_le hle⟩
    · exact ⟨hf.trans (htmp move hmove).1, (htmp move hmove).2⟩
  operand move hmove := (List.mem_append.mp hmove).elim (h.operand move) (hoperand move)

/-- The nodes of a block behind the pass. -/
structure CleanPhis (f g : Function K O) (phis phis' : List (Phi K)) : Prop where
  head : phis'.head? = phis.head?
  replaces : ∀ reference ∈ phis.head?, List.Forall₂ (Replaces (Moved f g) (reference.node.incoming.map (·.2))) phis phis'
  unread : phis'.Pairwise fun phi phi' => Unread phi.result phi'

theorem CleanPhis.mono {g' : Function K O} {phis phis' : List (Phi K)} (h : CleanPhis f g phis phis')
    (hmoved : ∀ p tmp value, Moved f g p tmp value → Moved f g' p tmp value) : CleanPhis f g' phis phis' :=
  ⟨h.head, fun reference hhead => (h.replaces reference hhead).imp fun _ _ hreplaces => hreplaces.mono hmoved, h.unread⟩

/-- The pass has been through the first `n` blocks of `f`. -/
structure Cleaning (f g : Function K O) (n : Nat) : Prop where
  length : g.blocks.length = f.blocks.length
  next : f.next ≤ g.next
  block : ∀ b bb, f.blocks[b]? = some bb →
    ∃ phis moves, g.blocks[b]? = some ⟨phis, bb.instructions ++ bitCasts moves, bb.terminator⟩ ∧ Copies f g.next moves ∧
      (n ≤ b → phis = bb.phis) ∧ (b < n → CleanPhis f g bb.phis phis)

theorem cleaning_start (f : Function K O) : Cleaning f f 0 where
  length := rfl
  next := le_rfl
  block b bb hbb := by
    refine ⟨bb.phis, [], by simpa [bitCasts] using hbb, ⟨List.nodup_nil, fun _ h => absurd h List.not_mem_nil,
      fun _ h => absurd h List.not_mem_nil⟩, fun _ => rfl, fun h => absurd h (Nat.not_lt_zero b)⟩

theorem Cleaning.cleanBlock (hwell : f.WellFormed) (h : Cleaning f g n) (hn : n < f.blocks.length) :
    ∃ g', cleanBlock g n = some g' ∧ Cleaning f g' (n + 1) := by
  obtain ⟨bb, hbb⟩ : ∃ bb, f.blocks[n]? = some bb := ⟨_, List.getElem?_eq_getElem hn⟩
  have hmem : bb ∈ f.blocks := List.mem_of_getElem? hbb
  obtain ⟨nodes, moves₀, hg, hcopies₀, hnodes, -⟩ := h.block n bb hbb
  obtain rfl := hnodes le_rfl
  obtain ⟨nodes, instructions, terminator⟩ := bb
  cases nodes with
  | nil =>
    refine ⟨g, by simp [PhiCleaner.cleanBlock, hg], h.length, h.next, fun b bb' hbb' => ?_⟩
    obtain ⟨phis, moves, hblock, hcopies, hrest, hdone⟩ := h.block b bb' hbb'
    refine ⟨phis, moves, hblock, hcopies, fun hb => hrest (by omega), fun hb => ?_⟩
    rcases Nat.lt_succ_iff_lt_or_eq.mp hb with hb | rfl
    · exact hdone hb
    · obtain rfl := Option.some.inj (hbb.symm.trans hbb')
      obtain rfl := hrest le_rfl
      exact ⟨rfl, fun _ hhead => absurd hhead (by simp), .nil⟩
  | cons reference rest =>
    have hlt : ∀ phi ∈ reference :: rest, phi.result < g.next := fun phi hphi => (hwell.phi_lt hmem hphi).trans_le h.next
    have hreference : ∀ r ∈ [reference.result], r < g.next := by simpa using hlt reference List.mem_cons_self
    have hrest : ∀ phi ∈ rest, phi.result < g.next ∧ (phi.node.incoming.map (·.2)).Perm (reference.node.incoming.map (·.2)) :=
      fun phi hphi => ⟨hlt phi (List.mem_cons_of_mem _ hphi), hwell.perm hbb (List.mem_cons_of_mem _ hphi) List.mem_cons_self⟩
    obtain ⟨rest', moves, next', hclean, hnew, hreplaces, hunread, hpairwise⟩ := cleanPhis_spec hreference hrest
    have hblocks : ∀ move ∈ moves,
        move.block < (g.blocks.set n ⟨reference :: rest', instructions ++ bitCasts moves₀, terminator⟩).length := by
      intro move hmove
      rw [List.length_set, h.length]
      exact Function.WellFormed.lt_length_of_mem_succ ((hwell.mem_blocks_iff hbb List.mem_cons_self _).mp (hnew.block move hmove))
    obtain ⟨blocks', hinsert, hlength, hblocks'⟩ := insertMoves_spec moves hblocks
    have hset : ∀ (b : Nat) bb', g.blocks[b]? = some bb' →
        (g.blocks.set n ⟨reference :: rest', instructions ++ bitCasts moves₀, terminator⟩)[b]? =
          some (if b = n then ⟨reference :: rest', instructions ++ bitCasts moves₀, terminator⟩ else bb') := by
      intro b bb' hbb'
      by_cases hb : b = n
      · subst hb
        rw [List.getElem?_set_self (h.length.symm ▸ hn), if_pos rfl]
      · rw [List.getElem?_set_ne (Ne.symm hb), if_neg hb, hbb']
    -- the bitcasts stay where they are
    have hmono : ∀ p tmp value, Moved f g p tmp value → Moved f ⟨blocks', next'⟩ p tmp value := by
      rintro p tmp value ⟨hle, bb', hbb', hmove⟩
      refine ⟨hle, _, hblocks' p _ (hset p bb' hbb'), List.mem_append_left _ ?_⟩
      by_cases hp : p = n
      · subst hp
        obtain rfl := Option.some.inj (hg.symm.trans hbb')
        rwa [if_pos rfl]
      · rwa [if_neg hp]
    have hmoved : ∀ p tmp value, ⟨p, tmp, value⟩ ∈ moves → Moved f ⟨blocks', next'⟩ p tmp value := by
      intro p tmp value hmove
      obtain ⟨bb', hbb'⟩ : ∃ bb', g.blocks[p]? = some bb' :=
        ⟨_, List.getElem?_eq_getElem (by simpa using hblocks _ hmove)⟩
      exact ⟨h.next.trans (hnew.tmp _ hmove).1, _, hblocks' p _ (hset p bb' hbb'), List.mem_append_right _
        (List.mem_map.mpr ⟨_, mem_movesAt.mpr hmove, rfl⟩)⟩
    refine ⟨⟨blocks', next'⟩, ?_, by rw [hlength, List.length_set, h.length], h.next.trans hnew.le, fun b bb' hbb' => ?_⟩
    · simp only [PhiCleaner.cleanBlock, hg, hclean, hinsert, Option.bind_eq_bind, Option.bind_some, Option.pure_def]
    have hcopies : ∀ moves', Copies f g.next moves' → Copies f next' (moves' ++ movesAt b moves) := by
      intro moves' hmoves'
      refine hmoves'.append hnew.le h.next ?_ (fun move hmove => hnew.tmp _ (mem_movesAt.mp hmove)) fun move hmove => ?_
      · rw [movesAt, List.map_map]
        exact hnew.nodup.sublist (List.filter_sublist.map _)
      · obtain ⟨r, hr, heq⟩ := hnew.operand _ (mem_movesAt.mp hmove)
        exact ⟨r, ⟨_, hmem, hr⟩, heq⟩
    by_cases hb : b = n
    · subst hb
      obtain rfl := Option.some.inj (hbb.symm.trans hbb')
      refine ⟨reference :: rest', moves₀ ++ movesAt b moves, ?_, hcopies moves₀ hcopies₀,
        fun hle => absurd hle (Nat.not_succ_le_self b), fun _ => ⟨rfl, fun head hhead => ?_, ?_⟩⟩
      · rw [hblocks' b _ (hset b _ hg), if_pos rfl]
        simp [bitCasts]
      · obtain rfl := Option.some.inj hhead
        exact .cons ⟨rfl, rfl, fun entry hentry => ⟨entry.1, hentry, .inl rfl⟩⟩ (hreplaces.imp fun _ _ hstep => hstep.mono hmoved)
      · exact .cons (fun phi hphi => hunread phi hphi _ List.mem_cons_self) hpairwise
    · obtain ⟨phis, moves', hblock, hcopies', hrest, hdone⟩ := h.block b bb' hbb'
      refine ⟨phis, moves' ++ movesAt b moves, ?_, hcopies moves' hcopies', fun hle => hrest (by omega),
        fun hlt => (hdone (by omega)).mono hmono⟩
      rw [hblocks' b _ (hset b _ hblock), if_neg hb]
      simp [bitCasts]

/-- The pass ends, and all blocks are clean. -/
theorem runOnFunction_spec (h : f.WellFormed) : ∃ g, runOnFunction f = some g ∧ Cleaning f g f.blocks.length := by
  have hprefix : ∀ n ≤ f.blocks.length, ∃ g, (List.range n).foldlM cleanBlock f = some g ∧ Cleaning f g n := by
    intro n hn
    induction n with
    | zero => exact ⟨f, rfl, cleaning_start f⟩
    | succ n ih =>
      obtain ⟨g, heq, hclean⟩ := ih (Nat.le_of_succ_le hn)
      obtain ⟨g', heq', hclean'⟩ := hclean.cleanBlock h hn
      refine ⟨g', ?_, hclean'⟩
      rw [List.range_succ, List.foldlM_append, heq]
      simpa using heq'
  exact hprefix _ le_rfl

/-! ### Instructions -/

theorem Executes.split {l l' : List (Instruction K O)} {ρ ρ' : Nat → K} {m m' : M} (h : Executes sem (l ++ l') ρ m ρ' m') :
    ∃ ρ₁ m₁, Executes sem l ρ m ρ₁ m₁ ∧ Executes sem l' ρ₁ m₁ ρ' m' := by
  induction l generalizing ρ m with
  | nil => exact ⟨ρ, m, .nil, h⟩
  | cons instruction l ih =>
    cases h with
    | bitCast hrest =>
      obtain ⟨ρ₁, m₁, hl, hl'⟩ := ih hrest
      exact ⟨ρ₁, m₁, .bitCast hl, hl'⟩
    | other hexec hrest =>
      obtain ⟨ρ₁, m₁, hl, hl'⟩ := ih hrest
      exact ⟨ρ₁, m₁, .other hexec hl, hl'⟩

theorem Executes.bitCasts_eq {moves : List (Nat × Value K)} {ρ ρ' : Nat → K} {m m' : M}
    (h : Executes sem (bitCasts moves) ρ m ρ' m') : ρ' = sequential moves ρ ∧ m' = m := by
  induction moves generalizing ρ with
  | nil =>
    cases h
    exact ⟨rfl, rfl⟩
  | cons move moves ih =>
    cases h with
    | bitCast hrest => exact ih hrest

theorem Executes.append {l l' : List (Instruction K O)} {ρ ρ₁ ρ' : Nat → K} {m m₁ m' : M} (h : Executes sem l ρ m ρ₁ m₁)
    (h' : Executes sem l' ρ₁ m₁ ρ' m') : Executes sem (l ++ l') ρ m ρ' m' := by
  induction h with
  | nil => exact h'
  | bitCast _ ih => exact .bitCast (ih h')
  | other hexec _ ih => exact .other hexec (ih h')

theorem executes_bitCasts (sem : Semantics K O M) (moves : List (Nat × Value K)) (ρ : Nat → K) (m : M) :
    Executes sem (bitCasts moves) ρ m (sequential moves ρ) m := by
  induction moves generalizing ρ with
  | nil => exact .nil
  | cons move moves ih => exact .bitCast (ih _)

theorem update_agrees {ρ ρ' : Nat → K} {r : Nat} {k : K} (h : ∀ r < n, ρ r = ρ' r) :
    ∀ r' < n, Function.update ρ r k r' = Function.update ρ' r k r' := by
  intro r' hr'
  by_cases heq : r' = r
  · rw [heq, Function.update_self, Function.update_self]
  · rw [Function.update_of_ne heq, Function.update_of_ne heq, h r' hr']

theorem eval_agrees {ρ ρ' : Nat → K} {operands : List (Value K)} (h : ∀ r < n, ρ r = ρ' r)
    (hoperands : ∀ r, .register r ∈ operands → r < n) : operands.map (·.eval ρ) = operands.map (·.eval ρ') :=
  List.map_congr_left fun _ hmem => Operand.eval_congr fun r hr => h r (hoperands r (hr ▸ hmem))

/-- Instructions do the same with registers that agree where they read. -/
theorem Executes.agrees {l : List (Instruction K O)} {ρ ρ' ρf : Nat → K} {m m' : M} (h : Executes sem l ρ m ρ' m')
    (hoperands : ∀ r, .register r ∈ l.flatMap (·.operands) → r < n) (hρ : ∀ r < n, ρf r = ρ r) :
    ∃ ρf', Executes sem l ρf m ρf' m' ∧ ∀ r < n, ρf' r = ρ' r := by
  induction h generalizing ρf with
  | nil => exact ⟨ρf, .nil, hρ⟩
  | @bitCast result operand rest ρ ρ' m m' _ ih =>
    have heval : operand.eval ρf = operand.eval ρ :=
      Operand.eval_congr fun r hr => hρ r (hoperands r (by simp [Instruction.operands, hr]))
    obtain ⟨ρf', hexec, hagree⟩ := ih (fun r hr => hoperands r (List.mem_append_right _ hr)) (update_agrees hρ)
    exact ⟨ρf', .bitCast (heval ▸ hexec), hagree⟩
  | @other opcode result operands rest ρ ρ' m m' m'' k hexec _ ih =>
    have heval : operands.map (·.eval ρf) = operands.map (·.eval ρ) :=
      eval_agrees hρ fun r hr => hoperands r (List.mem_append_left _ hr)
    obtain ⟨ρf', hexec', hagree⟩ := ih (fun r hr => hoperands r (List.mem_append_right _ hr)) (update_agrees hρ)
    exact ⟨ρf', .other (heval ▸ hexec) hexec', hagree⟩

/-! ### The end of a block -/

/-- The registers of the pass have the values that they were given at the end of the block. -/
def Ready (f g : Function K O) (p : Nat) (ρ : Nat → K) : Prop := ∀ tmp value, Moved f g p tmp value → ρ tmp = value.eval ρ

theorem Function.WellFormed.nodup_results (h : f.WellFormed) {bb : BasicBlock K O} (hbb : bb ∈ f.blocks) : bb.results.Nodup :=
  (List.nodup_flatMap.mp h.distinct).1 bb hbb

theorem Function.WellFormed.phi_ne_terminator (h : f.WellFormed) {bb : BasicBlock K O} (hbb : bb ∈ f.blocks) {r : Nat}
    (hr : IsPhi f r) : r ≠ bb.terminator.result := by
  obtain ⟨bb', hbb', hr⟩ := hr
  rintro rfl
  by_cases heq : bb' = bb
  · subst heq
    have hnodup := h.nodup_results hbb
    rw [BasicBlock.results, List.nodup_append'] at hnodup
    exact hnodup.2.2 (List.mem_append_left _ hr) (List.mem_singleton_self _)
  · have : Std.Symm (Function.onFun List.Disjoint fun bb : BasicBlock K O => bb.results) := ⟨fun _ _ hd => hd.symm⟩
    have hdisjoint := (List.nodup_flatMap.mp h.distinct).2.forall hbb' hbb heq
    exact hdisjoint (List.mem_append_left _ (List.mem_append_left _ hr)) (List.mem_append_right _ (List.mem_singleton_self _))

theorem Copies.ready {moves : List (Nat × Value K)} (h : Copies f next moves) (hwell : f.WellFormed) {ρ : Nat → K} :
    (∀ r < f.next, sequential moves ρ r = ρ r) ∧
      ∀ tmp value, (tmp, value) ∈ moves → sequential moves ρ tmp = value.eval (sequential moves ρ) := by
  have hlt : ∀ r, IsPhi f r → r < f.next := by
    rintro r ⟨bb, hbb, hr⟩
    obtain ⟨phi, hphi, rfl⟩ := List.mem_map.mp hr
    exact hwell.phi_lt hbb hphi
  have hsequential : sequential moves ρ = parallel moves ρ := by
    refine sequential_eq_parallel (List.pairwise_of_forall_mem_list fun move hmove move' hmove' heq => ?_)
    obtain ⟨r, hr, heq'⟩ := h.operand move' hmove'
    obtain rfl := Operand.register.inj (heq'.symm.trans heq)
    exact absurd (hlt _ hr) (not_lt.mpr (h.tmp move hmove).1)
  have hkeep : ∀ r < f.next, parallel moves ρ r = ρ r := by
    refine fun r hr => parallel_of_notMem fun hmem => ?_
    obtain ⟨move, hmove, rfl⟩ := List.mem_map.mp hmem
    exact absurd hr (not_lt.mpr (h.tmp move hmove).1)
  rw [hsequential]
  refine ⟨hkeep, fun tmp value hmem => ?_⟩
  rw [parallel_of_mem h.nodup hmem]
  obtain ⟨r, hr, heq⟩ := h.operand _ hmem
  refine Operand.eval_congr fun r' hr' => (hkeep r' ?_).symm
  obtain rfl := Operand.register.inj (heq.symm.trans hr')
  exact hlt _ hr

/-! ### The start of a block -/

/-- Control has come to `b`: at the start of the function, or by an edge. -/
inductive Entered (f g : Function K O) : Option Nat → Nat → Option Nat → (Nat → K) → Prop
  | start {index : Option Nat} {ρ : Nat → K} : Entered f g none 0 index ρ
  | edge {p b : Nat} {index : Option Nat} {ρ : Nat → K} (hsucc : b ∈ f.succ p) (hready : Ready f g p ρ) :
      Entered f g (some p) b (transferToBasicBlock g b p index) ρ

/-- The assignment is what the node does with its entry at the index. -/
def ReadsAt (i : Nat) (phi : Phi K) (move : Nat × Value K) : Prop :=
  phi.result = move.1 ∧ ∃ p, phi.node.incoming[i]? = some (move.2, p)

/-- Nodes that have entries at the index, one by one. -/
theorem executePhis_eq {i : Nat} {nodes : List (Phi K)} {moves : List (Nat × Value K)} {ρ : Nat → K}
    (h : List.Forall₂ (ReadsAt i) nodes moves) :
    executePhis (some i) nodes ρ = some (sequential moves ρ) := by
  induction h generalizing ρ with
  | nil => rfl
  | @cons phi move nodes moves hphi _ ih =>
    obtain ⟨hresult, p, hentry⟩ := hphi
    have hstep : executePhi (some i) ρ phi = some (Function.update ρ move.1 (move.2.eval ρ)) := by
      simp [executePhi, hentry, hresult]
    rw [executePhis, List.foldlM_cons, hstep]
    exact ih

theorem pairwise_moves {i : Nat} {nodes : List (Phi K)} {moves : List (Nat × Value K)}
    (h : List.Forall₂ (ReadsAt i) nodes moves)
    (hunread : nodes.Pairwise fun phi phi' => Unread phi.result phi') :
    moves.Pairwise fun move move' => move'.2 ≠ .register move.1 := by
  induction h with
  | nil => exact .nil
  | @cons phi move nodes moves hphi hrest ih =>
    obtain ⟨hread, hunread⟩ := List.pairwise_cons.mp hunread
    refine .cons (fun move' hmove' => ?_) (ih hunread)
    obtain ⟨phi', hphi', -, p, hentry⟩ := mem_of_forall₂ hrest hmove'
    rw [← hphi.1]
    exact hread phi' hphi' _ (List.mem_of_getElem? hentry)

/-- The value at the index stands for the one that the node has when control comes from `p`. -/
theorem Replaces.value {p i : Nat} {phi phi' : Phi K} {ρ : Nat → K} (h : Replaces (Moved f g) order phi phi')
    (hagree : phi.node.Agree) (hready : Ready f g p ρ) (hi : order[i]? = some p) :
    ∃ move move' : Nat × Value K, (phi.node.valueFor p).map (fun value => (phi.result, value)) = some move ∧
      ReadsAt i phi' move' ∧
      (move.1, move.2.eval ρ) = (move'.1, move'.2.eval ρ) := by
  rw [← h.blocks, List.getElem?_map] at hi
  obtain ⟨⟨value', q⟩, hentry, rfl⟩ := Option.map_eq_some_iff.mp hi
  obtain ⟨value, hmem, hvalue⟩ := h.stands _ (List.mem_of_getElem? hentry)
  refine ⟨(phi.result, value), (phi'.result, value'), ?_, ⟨rfl, _, hentry⟩, ?_⟩
  · rw [PHINode.valueFor_eq hagree hmem, Option.map_some]
  · rw [h.result]
    rcases hvalue with rfl | ⟨tmp, rfl, hmoved⟩
    · rfl
    · exact congrArg (Prod.mk phi.result) (hready tmp value hmoved).symm

theorem replaces_moves {p i : Nat} {nodes nodes' : List (Phi K)} {ρ : Nat → K}
    (h : List.Forall₂ (Replaces (Moved f g) order) nodes nodes') (hagree : ∀ phi ∈ nodes, phi.node.Agree) (hready : Ready f g p ρ)
    (hi : order[i]? = some p) :
    ∃ moves moves', incomingMoves nodes (some p) = some moves ∧
      List.Forall₂ (ReadsAt i) nodes' moves' ∧
      parallel moves ρ = parallel moves' ρ := by
  suffices hlist : ∃ moves moves', incomingMoves nodes (some p) = some moves ∧
      List.Forall₂ (ReadsAt i) nodes' moves' ∧
      moves.map (fun move => (move.1, move.2.eval ρ)) = moves'.map fun move => (move.1, move.2.eval ρ) by
    obtain ⟨moves, moves', heq, hall, hvalues⟩ := hlist
    exact ⟨moves, moves', heq, hall, congrArg (write ρ) hvalues⟩
  induction h with
  | nil => exact ⟨[], [], rfl, .nil, rfl⟩
  | @cons phi phi' nodes nodes' hphi _ ih =>
    obtain ⟨move, move', hmove, hmove', hvalue⟩ := hphi.value (hagree phi List.mem_cons_self) hready hi
    obtain ⟨moves, moves', heq, hall, hvalues⟩ := ih fun phi hmem => hagree phi (List.mem_cons_of_mem _ hmem)
    refine ⟨move :: moves, move' :: moves', ?_, .cons hmove' hall, ?_⟩
    · rw [incomingMoves] at heq ⊢
      rw [List.mapM_cons, Option.bind_some, hmove, heq]
      rfl
    · rw [List.map_cons, List.map_cons, hvalue, hvalues]

/-- One by one, the nodes of the clean block get the values that the nodes of the block are to get at once. -/
theorem Entered.executePhis {src index : Option Nat} {bb : BasicBlock K O} {nodes : List (Phi K)} {ρ : Nat → K}
    (h : Entered f g src b index ρ) (hwell : f.WellFormed) (hbb : f.blocks[b]? = some bb) (hclean : CleanPhis f g bb.phis nodes)
    (hg : g.blocks[b]?.bind (·.phis.head?) = nodes.head?) :
    ∃ moves, incomingMoves bb.phis src = some moves ∧ executePhis index nodes ρ = some (parallel moves ρ) := by
  cases hhead : bb.phis.head? with
  | none =>
    have hphis : bb.phis = [] := List.head?_eq_none_iff.mp hhead
    have hnodes : nodes = [] := List.head?_eq_none_iff.mp (hclean.head.trans hhead)
    rw [hphis, hnodes]
    exact ⟨[], rfl, rfl⟩
  | some reference =>
    have hmem : reference ∈ bb.phis := List.mem_of_mem_head? hhead
    cases h with
    | start =>
      obtain ⟨bb', hbb', hphis⟩ := hwell.entry
      obtain rfl := Option.some.inj (hbb.symm.trans hbb')
      rw [hphis] at hmem
      cases hmem
    | @edge p _ index _ hsucc hready =>
      obtain ⟨i, hi⟩ : ∃ i, getBasicBlockIndex reference.node p = some i := by
        rw [← Option.isSome_iff_exists, getBasicBlockIndex, List.findIdx?_isSome, List.any_eq_true]
        obtain ⟨entry, hentry, heq⟩ := List.mem_map.mp ((hwell.mem_blocks_iff hbb hmem p).mpr hsucc)
        exact ⟨entry, hentry, decide_eq_true heq⟩
      have horder : (reference.node.incoming.map (·.2))[i]? = some p := by
        obtain ⟨hlt, hp, -⟩ := List.findIdx?_eq_some_iff_getElem.mp hi
        rw [List.getElem?_map, List.getElem?_eq_getElem hlt, Option.map_some, of_decide_eq_true hp]
      obtain ⟨moves, moves', hmoves, hall, hparallel⟩ := replaces_moves (hclean.replaces reference hhead)
        (hwell.agree bb (List.mem_of_getElem? hbb)) hready horder
      have htransfer : transferToBasicBlock g b p index = some i := by
        rw [transferToBasicBlock, hg, hclean.head, hhead]
        exact hi
      refine ⟨moves, hmoves, ?_⟩
      rw [htransfer, executePhis_eq hall, sequential_eq_parallel (pairwise_moves hall hclean.unread), hparallel]

/-! ### Whole runs -/

theorem incomingMoves_forall₂ {src : Option Nat} {nodes : List (Phi K)} {moves : List (Nat × Value K)}
    (h : incomingMoves nodes src = some moves) :
    List.Forall₂ (fun phi move => move.1 = phi.result ∧ src.bind phi.node.valueFor = some move.2) nodes moves := by
  induction nodes generalizing moves with
  | nil =>
    cases h
    exact .nil
  | cons phi nodes ih =>
    rw [incomingMoves, List.mapM_cons] at h
    obtain ⟨move, hmove, h⟩ := Option.bind_eq_some_iff.mp h
    obtain ⟨moves', hmoves', h⟩ := Option.bind_eq_some_iff.mp h
    obtain ⟨value, hvalue, rfl⟩ := Option.map_eq_some_iff.mp hmove
    cases h
    exact .cons ⟨rfl, hvalue⟩ (ih hmoves')

theorem mem_operands_of_incomingMoves {src : Option Nat} {bb : BasicBlock K O} {moves : List (Nat × Value K)}
    (h : incomingMoves bb.phis src = some moves) {move : Nat × Value K} (hmove : move ∈ moves) : move.2 ∈ bb.operands := by
  obtain ⟨phi, hphi, -, hvalue⟩ := mem_of_forall₂ (incomingMoves_forall₂ h) hmove
  obtain ⟨p, -, hvalue⟩ := Option.bind_eq_some_iff.mp hvalue
  obtain ⟨entry, hentry, heq⟩ := Option.map_eq_some_iff.mp hvalue
  refine List.mem_append_left _ (List.mem_append_left _ (List.mem_flatMap.mpr ⟨phi, hphi, List.mem_map.mpr ⟨entry, ?_, heq⟩⟩))
  exact List.mem_of_find?_eq_some hentry

theorem write_agrees {ρ ρ' : Nat → K} {values : List (Nat × K)} (h : ∀ r < n, ρ r = ρ' r) :
    ∀ r < n, write ρ values r = write ρ' values r := by
  induction values generalizing ρ ρ' with
  | nil => exact h
  | cons entry values ih => exact ih (update_agrees h)

theorem parallel_agrees {ρ ρ' : Nat → K} {moves : List (Nat × Value K)} (h : ∀ r < n, ρ r = ρ' r)
    (hmoves : ∀ move ∈ moves, ∀ r, move.2 = .register r → r < n) : ∀ r < n, parallel moves ρ r = parallel moves ρ' r := by
  have hvalues : moves.map (fun move => (move.1, move.2.eval ρ)) = moves.map fun move => (move.1, move.2.eval ρ') :=
    List.map_congr_left fun move hmove => congrArg (Prod.mk move.1) (Operand.eval_congr fun r hr => h r (hmoves move hmove r hr))
  rw [parallel, parallel, hvalues]
  exact write_agrees h

/-- The PHI nodes of the block that control has come to. -/
theorem Cleaning.executePhis {src index : Option Nat} {bb : BasicBlock K O} {ρ : Nat → K} (h : Cleaning f g f.blocks.length)
    (hwell : f.WellFormed) (hbb : f.blocks[b]? = some bb) (hentered : Entered f g src b index ρ) :
    ∃ nodes copies moves, g.blocks[b]? = some ⟨nodes, bb.instructions ++ bitCasts copies, bb.terminator⟩ ∧
      Copies f g.next copies ∧ incomingMoves bb.phis src = some moves ∧ executePhis index nodes ρ = some (parallel moves ρ) := by
  obtain ⟨nodes, copies, hg, hcopies, -, hclean⟩ := h.block b bb hbb
  obtain ⟨moves, hmoves, hexec⟩ := hentered.executePhis hwell hbb (hclean (List.getElem?_eq_some_iff.mp hbb).1)
    (by rw [hg, Option.bind_some])
  exact ⟨nodes, copies, moves, hg, hcopies, hmoves, hexec⟩

theorem Cleaning.ready {bb : BasicBlock K O} {nodes : List (Phi K)} {copies : List (Nat × Value K)} {ρ : Nat → K} {k : K}
    (hwell : f.WellFormed) (hbb : f.blocks[b]? = some bb)
    (hg : g.blocks[b]? = some ⟨nodes, bb.instructions ++ bitCasts copies, bb.terminator⟩) (hcopies : Copies f g.next copies) :
    Ready f g b (Function.update (sequential copies ρ) bb.terminator.result k) := by
  rintro tmp value ⟨htmp, bb', hbb', hmem⟩
  obtain rfl := Option.some.inj (hg.symm.trans hbb')
  have hblock : bb ∈ f.blocks := List.mem_of_getElem? hbb
  rcases List.mem_append.mp hmem with hmem | hmem
  · -- the results of the function itself are below
    refine absurd (hwell.results bb hblock tmp ?_) (not_lt.mpr htmp)
    exact List.mem_append_left _ (List.mem_append_right _ (List.mem_map.mpr ⟨_, hmem, rfl⟩))
  · obtain ⟨⟨tmp', value'⟩, hmove, heq⟩ := List.mem_map.mp hmem
    obtain ⟨rfl, rfl⟩ := Instruction.bitCast.inj heq
    have hterminator : bb.terminator.result < f.next :=
      hwell.results bb hblock _ (List.mem_append_right _ (List.mem_singleton_self _))
    rw [Function.update_of_ne (by omega), (hcopies.ready hwell).2 _ _ hmove]
    obtain ⟨r, hr, heq⟩ := hcopies.operand _ hmove
    refine Operand.eval_congr fun r' hr' => (Function.update_of_ne ?_ _ _).symm
    obtain rfl := Operand.register.inj (heq.symm.trans hr')
    exact hwell.phi_ne_terminator hblock hr

/-- A run of the clean function is one of the function with the same values, where PHI nodes get them at once. -/
theorem Enters.arrives {src index : Option Nat} {ρ₀ ρ : Nat → K} {m₀ m : M} (h : Enters g sem ρ₀ m₀ src b index ρ m)
    (hwell : f.WellFormed) (hclean : Cleaning f g f.blocks.length) :
    b < f.blocks.length ∧ Entered f g src b index ρ ∧ ∃ ρf, Arrives f sem ρ₀ m₀ src b ρf m ∧ ∀ r < f.next, ρf r = ρ r := by
  induction h with
  | start =>
    obtain ⟨bb, hbb, -⟩ := hwell.entry
    exact ⟨(List.getElem?_eq_some_iff.mp hbb).1, .start, ρ₀, .start, fun _ _ => rfl⟩
  | @next src index b s dst ρ ρ₁ ρ₂ m m₁ m₂ k bbg _ hbbg hphis hexec hgoes hdst ih =>
    obtain ⟨hlt, hentered, ρf, harrives, hρ⟩ := ih
    obtain ⟨bb, hbb⟩ : ∃ bb, f.blocks[b]? = some bb := ⟨_, List.getElem?_eq_getElem hlt⟩
    have hmem : bb ∈ f.blocks := List.mem_of_getElem? hbb
    obtain ⟨nodes, copies, moves, hg, hcopies, hmoves, hexecPhis⟩ := hclean.executePhis hwell hbb hentered
    obtain rfl := Option.some.inj (hg.symm.trans hbbg)
    obtain rfl := Option.some.inj (hexecPhis.symm.trans hphis)
    obtain ⟨ρ', m', hbody, hcast⟩ := hexec.split
    obtain ⟨rfl, rfl⟩ := hcast.bitCasts_eq
    have hdstmem : dst ∈ bb.terminator.successors := List.mem_of_getElem? hdst
    have hstart : ∀ r < f.next, parallel moves ρf r = parallel moves ρ r :=
      parallel_agrees hρ fun move hmove r hr => hwell.operands bb hmem r (hr ▸ mem_operands_of_incomingMoves hmoves hmove)
    obtain ⟨ρf', hbodyf, hend⟩ := hbody.agrees (n := f.next)
      (fun r hr => hwell.operands bb hmem r (List.mem_append_left _ (List.mem_append_right _ hr))) hstart
    have hendg : ∀ r < f.next, ρf' r = sequential copies ρ' r := fun r hr =>
      (hend r hr).trans ((hcopies.ready hwell).1 r hr).symm
    have hready : Ready f g b (Function.update (sequential copies ρ') bb.terminator.result k) :=
      Cleaning.ready hwell hbb hg hcopies
    have hsucc : dst ∈ f.succ b := by
      rw [Function.succ_eq hbb]
      exact hdstmem
    refine ⟨hwell.targets bb hmem dst hdstmem, .edge hsucc hready, _, .next harrives hbb hmoves hbodyf ?_ hdst, update_agrees hendg⟩
    rw [eval_agrees hendg fun r hr => hwell.operands bb hmem r (List.mem_append_right _ hr)]
    exact hgoes

/-- Every run of the function, where PHI nodes get their values at once, is one of the clean function. -/
theorem Arrives.enters {src : Option Nat} {ρ₀ ρ : Nat → K} {m₀ m : M} (h : Arrives f sem ρ₀ m₀ src b ρ m)
    (hwell : f.WellFormed) (hclean : Cleaning f g f.blocks.length) :
    ∃ index ρg, Enters g sem ρ₀ m₀ src b index ρg m ∧ ∀ r < f.next, ρ r = ρg r := by
  induction h with
  | start => exact ⟨_, ρ₀, .start, fun _ _ => rfl⟩
  | @next src b s dst ρ ρ₂ m m₁ m₂ k bb moves _ hbb hmoves hbody hgoes hdst ih =>
    obtain ⟨index, ρg, henters, hρ⟩ := ih
    have hmem : bb ∈ f.blocks := List.mem_of_getElem? hbb
    obtain ⟨-, hentered, -⟩ := henters.arrives hwell hclean
    obtain ⟨nodes, copies, moves', hg, hcopies, hmoves', hexecPhis⟩ := hclean.executePhis hwell hbb hentered
    obtain rfl := Option.some.inj (hmoves.symm.trans hmoves')
    have hstart : ∀ r < f.next, parallel moves ρg r = parallel moves ρ r :=
      parallel_agrees (fun r hr => (hρ r hr).symm) fun move hmove r hr =>
        hwell.operands bb hmem r (hr ▸ mem_operands_of_incomingMoves hmoves hmove)
    obtain ⟨ρg', hbodyg, hend⟩ := hbody.agrees (n := f.next)
      (fun r hr => hwell.operands bb hmem r (List.mem_append_left _ (List.mem_append_right _ hr))) hstart
    have hendg : ∀ r < f.next, ρ₂ r = sequential copies ρg' r := fun r hr =>
      (hend r hr).symm.trans ((hcopies.ready hwell).1 r hr).symm
    refine ⟨_, _, .next henters hg hexecPhis (hbodyg.append (executes_bitCasts sem copies ρg' m₁)) ?_ hdst, update_agrees hendg⟩
    rw [← eval_agrees hendg fun r hr => hwell.operands bb hmem r (List.mem_append_right _ hr)]
    exact hgoes

/-- Whenever control comes to a block, the PHI nodes, executed one by one in the function behind the pass, get the values that
they are to have at once, and the registers are those of a run in which they always do. There is such a run of the function
behind the pass for each of these runs. -/
theorem runOnFunction_parallel (h : f.WellFormed) :
    ∃ g, runOnFunction f = some g ∧ ∀ (M : Type) (sem : Semantics K O M) (ρ₀ : Nat → K) (m₀ : M) (src : Option Nat) (b : Nat),
      (∀ (index : Option Nat) (ρ : Nat → K) (m : M), Enters g sem ρ₀ m₀ src b index ρ m →
        ∃ bb bb' ρ', f.blocks[b]? = some bb ∧ g.blocks[b]? = some bb' ∧ executePhis index bb'.phis ρ = some ρ' ∧
          (∀ phi ∈ bb.phis, ∃ value, src.bind phi.node.valueFor = some value ∧ ρ' phi.result = value.eval ρ) ∧
          ∃ ρf, Arrives f sem ρ₀ m₀ src b ρf m ∧ ∀ r < f.next, ρf r = ρ r) ∧
        ∀ (ρf : Nat → K) (m : M), Arrives f sem ρ₀ m₀ src b ρf m →
          ∃ index ρ, Enters g sem ρ₀ m₀ src b index ρ m ∧ ∀ r < f.next, ρf r = ρ r := by
  obtain ⟨g, heq, hclean⟩ := runOnFunction_spec h
  refine ⟨g, heq, fun M sem ρ₀ m₀ src b => ⟨fun index ρ m henters => ?_, fun ρf m harrives => harrives.enters h hclean⟩⟩
  obtain ⟨hlt, hentered, harrives⟩ := henters.arrives h hclean
  obtain ⟨bb, hbb⟩ : ∃ bb, f.blocks[b]? = some bb := ⟨_, List.getElem?_eq_getElem hlt⟩
  obtain ⟨nodes, copies, moves, hg, -, hmoves, hexec⟩ := hclean.executePhis h hbb hentered
  refine ⟨bb, _, _, hbb, hg, hexec, fun phi hphi => ?_, harrives⟩
  have hall := incomingMoves_forall₂ hmoves
  have hresults : moves.map (·.1) = bb.phis.map (·.result) := map_eq_of_forall₂ hall fun _ _ hstep => hstep.1
  have hnodup : (moves.map (·.1)).Nodup := by
    have hblock := h.nodup_results (List.mem_of_getElem? hbb)
    rw [BasicBlock.results, List.append_assoc] at hblock
    exact hresults ▸ hblock.of_append_left
  obtain ⟨move, hmove, hresult, hvalue⟩ := mem_of_forall₂ hall.flip hphi
  refine ⟨move.2, hvalue, ?_⟩
  rw [← hresult]
  exact parallel_of_mem hnodup hmove

/-- A loop that swaps two registers, with its incoming blocks in different orders. -/
def swapLoop : Function Nat Unit where
  blocks := [
    ⟨[], [], ⟨(), 2, [], [1]⟩⟩,
    ⟨[⟨0, ⟨[(.constant 7, 0), (.register 1, 1)]⟩⟩, ⟨1, ⟨[(.register 0, 1), (.constant 8, 0)]⟩⟩], [],
      ⟨(), 3, [.register 0], [1, 2]⟩⟩,
    ⟨[], [], ⟨(), 4, [.register 1], []⟩⟩]
  next := 5

/-- The second node reads a copy of the first one. -/
example : (runOnFunction swapLoop).bind (·.blocks[1]?) = some
    ⟨[⟨0, ⟨[(.constant 7, 0), (.register 1, 1)]⟩⟩, ⟨1, ⟨[(.constant 8, 0), (.register 5, 1)]⟩⟩], [.bitCast 5 (.register 0)],
      ⟨(), 3, [.register 0], [1, 2]⟩⟩ := by decide

theorem swapLoop_wellFormed : swapLoop.WellFormed where
  distinct := by decide
  results := by decide
  operands bb hbb r hr := by
    simp only [swapLoop, List.mem_cons, List.not_mem_nil, or_false] at hbb
    rcases hbb with rfl | rfl | rfl <;> simp [BasicBlock.operands] at hr <;> simp only [swapLoop] <;> omega
  entry := ⟨_, rfl, rfl⟩
  targets := by decide
  entries b bb hbb phi hphi p := by
    rcases b with _ | _ | _ | b <;> simp [swapLoop] at hbb <;> subst hbb <;> simp at hphi
    rcases p with _ | _ | _ | p <;> rcases hphi with rfl | rfl <;> simp [PHINode.entries, Function.succ, swapLoop]
  agree := by
    unfold PHINode.Agree
    decide

theorem runOnFunction_parallel_swapLoop :
    ∃ g, runOnFunction swapLoop = some g ∧ ∀ (M : Type) (sem : Semantics Nat Unit M) (ρ₀ : Nat → Nat) (m₀ : M) (src : Option Nat)
      (b : Nat),
      (∀ (index : Option Nat) (ρ : Nat → Nat) (m : M), Enters g sem ρ₀ m₀ src b index ρ m →
        ∃ bb bb' ρ', swapLoop.blocks[b]? = some bb ∧ g.blocks[b]? = some bb' ∧ executePhis index bb'.phis ρ = some ρ' ∧
          (∀ phi ∈ bb.phis, ∃ value, src.bind phi.node.valueFor = some value ∧ ρ' phi.result = value.eval ρ) ∧
          ∃ ρf, Arrives swapLoop sem ρ₀ m₀ src b ρf m ∧ ∀ r < swapLoop.next, ρf r = ρ r) ∧
        ∀ (ρf : Nat → Nat) (m : M), Arrives swapLoop sem ρ₀ m₀ src b ρf m →
          ∃ index ρ, Enters g sem ρ₀ m₀ src b index ρ m ∧ ∀ r < swapLoop.next, ρf r = ρ r :=
  runOnFunction_parallel swapLoop_wellFormed

end CapTaint.PhiCleaner
