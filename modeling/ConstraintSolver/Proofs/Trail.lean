import ConstraintSolver.Proofs.Step

/-! # The trail — saved cells lead back to where a checkpoint was opened

    A cell is saved at most once per checkpoint, and its stamp says for which.
    That is enough to go back as long as the stamps tell the truth
    (`Stamped`): no stamp is ahead of the checkpoints, a cell with the stamp
    of the newest one has been saved in it, and the same holds again when the
    newest segment has been undone.

    Pruning then changes nothing that restoring gives back (`restore_prune`),
    and neither does any step.  Restoring a checkpoint which has just been
    opened gives back the state itself (`restore_checkpoint`), and going
    back in two stages is going back at once (`restore_restore`). -/

namespace ConstraintSolver

namespace Domains

/-! ## Undoing a segment -/

theorem undo_cons (cells : Array Cell) (saved : SavedCell) (segment : List SavedCell) :
    undo cells (saved :: segment) =
      undo (cells.setIfInBounds saved.index saved.cell) segment := rfl

@[simp] theorem size_undo (cells : Array Cell) (segment : List SavedCell) :
    (undo cells segment).size = cells.size := by
  induction segment generalizing cells with
  | nil => rfl
  | cons saved segment ih => rw [undo_cons, ih, Array.size_setIfInBounds]

/-- A cell that is put back may have been anything before. -/
theorem undo_setIfInBounds {segment : List SavedCell} {index : Nat}
    (h : ∃ saved ∈ segment, saved.index = index) (cells : Array Cell) (cell : Cell) :
    undo (cells.setIfInBounds index cell) segment = undo cells segment := by
  induction segment generalizing cells with
  | nil => simp at h
  | cons saved segment ih =>
      rw [undo_cons, undo_cons]
      by_cases heq : saved.index = index
      · rw [heq, Array.setIfInBounds_setIfInBounds]
      · obtain ⟨other, hm, hi⟩ := h
        rcases List.mem_cons.mp hm with rfl | hm
        · exact absurd hi heq
        · rw [Array.setIfInBounds_comm _ _ (Ne.symm heq)]
          exact ih ⟨other, hm, hi⟩ _

theorem getElem?_lt {cells : Array Cell} {index : Nat} {cell : Cell}
    (h : cells[index]? = some cell) : index < cells.size :=
  (Array.getElem?_eq_some_iff.mp h).1

theorem setIfInBounds_self {cells : Array Cell} {index : Nat} {cell : Cell}
    (h : cells[index]? = some cell) : cells.setIfInBounds index cell = cells := by
  obtain ⟨hlt, rfl⟩ := Array.getElem?_eq_some_iff.mp h
  rw [Array.setIfInBounds_def, dif_pos hlt, Array.set_getElem_self]

/-! ## Truthful stamps -/

/-- The stamps of the cells tell in which segments the cells are saved. -/
def StampedCells : Array Cell → List (List SavedCell) → Prop
  | cells, [] => ∀ (index : Nat) (cell : Cell), cells[index]? = some cell → cell.stamp = 0
  | cells, segment :: older =>
      (∀ (index : Nat) (cell : Cell), cells[index]? = some cell → cell.stamp ≤ older.length + 1 ∧
        (cell.stamp = older.length + 1 → ∃ saved ∈ segment, saved.index = index)) ∧
      StampedCells (undo cells segment) older

/-- The stamps tell the truth. -/
def Stamped (D : Domains) : Prop := StampedCells D.cells D.segments

/-- A cell is not stamped with a checkpoint that is not open. -/
theorem stamp_le {cells : Array Cell} {segments : List (List SavedCell)}
    (h : StampedCells cells segments) {index : Nat} {cell : Cell}
    (hc : cells[index]? = some cell) : cell.stamp ≤ segments.length := by
  cases segments with
  | nil =>
      rw [StampedCells] at h
      exact Nat.le_of_eq (h index cell hc)
  | cons segment older => exact (h.1 index cell hc).1

/-- What happened to the domains leaves every earlier state within reach. -/
structure Retraces (D E : Domains) : Prop where
  depth : E.depth = D.depth
  stamped : D.Stamped → E.Stamped
  restore : D.Stamped → ∀ k, k < D.depth → E.restore k = D.restore k

theorem Retraces.refl (D : Domains) : Retraces D D := ⟨rfl, id, fun _ _ _ => rfl⟩

theorem Retraces.trans {D E F : Domains} (h : Retraces D E) (h' : Retraces E F) :
    Retraces D F := by
  refine ⟨h'.depth.trans h.depth, fun hD => h'.stamped (h.stamped hD), fun hD k hk => ?_⟩
  rw [h'.restore (h.stamped hD) k (h.depth ▸ hk), h.restore hD k hk]

/-- Undoing the newest segment is the first part of restoring an earlier state. -/
theorem restore_of_undo {D E : Domains} {segment segment' : List SavedCell}
    {older : List (List SavedCell)} (howner : E.owner = D.owner)
    (hD : D.segments = segment :: older) (hE : E.segments = segment' :: older)
    (h : undo E.cells segment' = undo D.cells segment) {k : Nat} (hk : k < D.depth) :
    E.restore k = D.restore k := by
  have hdepth : D.depth = older.length + 1 := by rw [depth, hD, List.length_cons]
  have hdepth' : E.depth = older.length + 1 := by rw [depth, hE, List.length_cons]
  obtain ⟨m, hm⟩ : ∃ m, older.length + 1 - k = m + 1 := ⟨older.length - k, by omega⟩
  simp only [restore, hdepth, hdepth', hm, hD, hE, undoSegments, h, howner]

/-- At the root nothing is saved. -/
theorem replace_root {D : Domains} (hsegs : D.segments = []) (index : Nat) (cell : Cell)
    (after : Domain) :
    D.replace index cell after =
      { D with
        cells := D.cells.setIfInBounds index { cell with domain := after }
        changes := ⟨D.owner, index⟩ :: D.changes } := by
  rw [replace]
  rw [hsegs]

/-- Whether or not the cell is saved now, undoing the newest segment puts it
    back. -/
theorem replace_below {D : Domains} {segment : List SavedCell} {older : List (List SavedCell)}
    (hsegs : D.segments = segment :: older) (hst : D.Stamped) {index : Nat} {cell : Cell}
    (hc : D.cells[index]? = some cell) (after : Domain) :
    ∃ segment', D.replace index cell after =
        { D with
          cells := D.cells.setIfInBounds index ⟨after, older.length + 1⟩
          segments := segment' :: older
          changes := ⟨D.owner, index⟩ :: D.changes } ∧
      undo (D.cells.setIfInBounds index ⟨after, older.length + 1⟩) segment' =
        undo D.cells segment ∧
      ∀ other, other = index ∨ (∃ saved ∈ segment, saved.index = other) →
        ∃ saved ∈ segment', saved.index = other := by
  rw [replace]
  rw [hsegs]
  simp only
  split
  · rename_i hstamp
    -- the cell is saved in this segment already, and the older save counts
    rw [Stamped, hsegs] at hst
    have hm := (hst.1 index cell hc).2 hstamp
    refine ⟨segment, by rw [hstamp], undo_setIfInBounds hm _ _, fun other hi => ?_⟩
    rcases hi with rfl | hi
    · exact hm
    · exact hi
  · refine ⟨⟨index, cell⟩ :: segment, rfl, ?_, fun other hi => ?_⟩
    · rw [undo_cons, Array.setIfInBounds_setIfInBounds, setIfInBounds_self hc]
    · rcases hi with rfl | ⟨saved, hm, hi⟩
      · exact ⟨_, List.mem_cons_self, rfl⟩
      · exact ⟨saved, List.mem_cons_of_mem _ hm, hi⟩

/-- Replacing a domain opens and closes no checkpoint. -/
theorem depth_replace (D : Domains) (index : Nat) (cell : Cell) (after : Domain) :
    (D.replace index cell after).depth = D.depth := by
  unfold replace depth
  split
  · rfl
  · rename_i hsegs
    split
    · rfl
    · simp [hsegs]

/-- A cell that is replaced has been saved at the newest checkpoint. -/
theorem stamped_replace {D : Domains} (hst : D.Stamped) {index : Nat} {cell : Cell}
    (hc : D.cells[index]? = some cell) (after : Domain) :
    (D.replace index cell after).Stamped := by
  cases hsegs : D.segments with
  | nil =>
      rw [Stamped, hsegs, StampedCells] at hst
      rw [replace_root hsegs, Stamped]
      simp only [hsegs, StampedCells]
      intro other c hcell
      rw [Array.getElem?_setIfInBounds] at hcell
      by_cases hi : index = other
      · rw [if_pos hi, if_pos (getElem?_lt hc)] at hcell
        cases hcell
        exact hst index cell hc
      · rw [if_neg hi] at hcell
        exact hst other c hcell
  | cons segment older =>
      obtain ⟨segment', hrep, hundo, hsaved⟩ := replace_below hsegs hst hc after
      rw [Stamped, hsegs, StampedCells] at hst
      rw [hrep, Stamped]
      simp only [StampedCells]
      -- below the newest checkpoint nothing has changed: undoing gives the same cells
      refine ⟨fun other c hcell => ?_, hundo ▸ hst.2⟩
      rw [Array.getElem?_setIfInBounds] at hcell
      by_cases hi : index = other
      · rw [if_pos hi, if_pos (getElem?_lt hc)] at hcell
        cases hcell
        exact ⟨Nat.le_refl _, fun _ => hsaved other (.inl hi.symm)⟩
      · rw [if_neg hi] at hcell
        have := hst.1 other c hcell
        exact ⟨this.1, fun hs => hsaved other (.inr (this.2 hs))⟩

/-- Going back makes up for a domain that has been replaced. -/
theorem restore_replace {D : Domains} (hst : D.Stamped) {index : Nat} {cell : Cell}
    (hc : D.cells[index]? = some cell) (after : Domain) {k : Nat} (hk : k < D.depth) :
    (D.replace index cell after).restore k = D.restore k := by
  cases hsegs : D.segments with
  | nil => simp [depth, hsegs] at hk
  | cons segment older =>
      obtain ⟨segment', hrep, hundo, _⟩ := replace_below hsegs hst hc after
      rw [hrep]
      exact restore_of_undo (by rfl) hsegs (by rfl) hundo hk

/-- **PRUNING RETRACES**: it saves what restoring needs. -/
theorem retraces_prune (D : Domains) (v : Variable) (p : Pruning) :
    Retraces D (D.prune v p).2 := by
  rcases prune_cases D v p with ⟨h, _⟩ | ⟨cell, _, hc, h, _⟩
  · rw [h]
    exact Retraces.refl D
  · rw [h]
    exact ⟨depth_replace .., fun hst => stamped_replace hst hc _,
      fun hst _ hk => restore_replace hst hc _ hk⟩

/-! ## Checkpoints -/

/-- Without variables there are no stamps. -/
theorem stamped_empty (owner : Nat) : (empty owner).Stamped := by
  intro index cell hc
  simp [empty] at hc

/-- Opening a checkpoint saves nothing yet. -/
theorem Stamped.checkpoint {D : Domains} (h : D.Stamped) : D.checkpoint.Stamped := by
  refine ⟨fun index cell hc => ?_, h⟩
  have := stamp_le h hc
  exact ⟨by omega, fun hs => by omega⟩

/-- Forgetting which domains have changed changes none. -/
theorem retraces_settled (D : Domains) : Retraces D D.settled :=
  ⟨rfl, id, fun _ _ _ => rfl⟩

@[simp] theorem depth_checkpoint (D : Domains) : D.checkpoint.depth = D.depth + 1 := by
  simp [depth, checkpoint]

@[simp] theorem get_checkpoint (D : Domains) : D.checkpoint.get = D.get := rfl

@[simp] theorem get_settled (D : Domains) : D.settled.get = D.get := rfl

/-- Where nothing is listed, there is nothing to forget. -/
theorem settled_of_quiet {D : Domains} (h : D.changes = []) : D.settled = D := by
  rw [settled, ← h]

/-- **THE WAY BACK** from a checkpoint which has just been opened. -/
theorem restore_checkpoint (D : Domains) : D.checkpoint.restore D.depth = D.settled := by
  have hcount : D.checkpoint.depth - D.depth = 1 := by
    rw [depth_checkpoint]
    omega
  simp only [restore, hcount]
  rfl

/-- Undoing the newest checkpoint. -/
theorem restore_succ {D : Domains} {segment : List SavedCell} {older : List (List SavedCell)}
    (hsegs : D.segments = segment :: older) {k : Nat} (hk : k < D.depth) :
    D.restore k =
      ({ D with cells := undo D.cells segment, segments := older } : Domains).restore k := by
  have hdepth : D.depth = older.length + 1 := by rw [depth, hsegs, List.length_cons]
  obtain ⟨m, hm⟩ : ∃ m, older.length + 1 - k = m + 1 := ⟨older.length - k, by omega⟩
  have hm' : older.length - k = m := by omega
  simp only [restore, hdepth, hm, hsegs, undoSegments]
  simp only [depth, hm']

/-- What restoring gives back. -/
structure Restored (D E : Domains) (k : Nat) : Prop where
  owner : E.owner = D.owner
  size : E.cells.size = D.cells.size
  depth : E.depth = k
  changes : E.changes = []
  stamped : D.Stamped → E.Stamped
  restore : ∀ j, j ≤ k → E.restore j = D.restore j

/-- **GOING BACK** to a checkpoint that is open leads to a state at that depth. -/
theorem restored (D : Domains) {k : Nat} (hk : k ≤ D.depth) : Restored D (D.restore k) k := by
  induction hsegs : D.segments generalizing D with
  | nil =>
      have hdepth : D.depth = 0 := by simp [depth, hsegs]
      obtain rfl : k = 0 := by omega
      have hres : D.restore 0 = D.settled := by
        simp only [restore, hdepth, hsegs]
        simp [undoSegments, settled, hsegs]
      rw [hres]
      refine ⟨rfl, rfl, hdepth, rfl, id, fun j hj => ?_⟩
      obtain rfl : j = 0 := by omega
      rfl
  | cons segment older ih =>
      have hdepth : D.depth = older.length + 1 := by rw [depth, hsegs, List.length_cons]
      rcases Nat.lt_or_eq_of_le hk with hlt | heq
      · rw [restore_succ hsegs hlt]
        -- one segment is undone here, and the rest by the hypothesis
        have h := ih { D with cells := undo D.cells segment, segments := older }
          (by simp only [depth]; omega) rfl
        refine ⟨h.owner, by rw [h.size, size_undo], h.depth, h.changes, fun hst => h.stamped ?_,
          fun j hj => ?_⟩
        · rw [Stamped, hsegs] at hst
          exact hst.2
        · rw [h.restore j hj, ← restore_succ hsegs (by omega)]
      · have hres : D.restore k = D.settled := by
          simp only [restore, heq, Nat.sub_self, undoSegments]
          rfl
        rw [hres]
        exact ⟨rfl, rfl, heq.symm, rfl, id, fun j _ => rfl⟩

/-- A checkpoint that has just been opened does not stand in the way of older
    ones. -/
theorem restore_checkpoint_of_lt {D : Domains} (hst : D.Stamped) {k : Nat} (hk : k < D.depth) :
    D.checkpoint.restore k = D.restore k := by
  have hres := restored D.checkpoint (k := D.depth)
    (by rw [depth_checkpoint]; exact Nat.le_succ _)
  rw [← hres.restore k (Nat.le_of_lt hk), restore_checkpoint]
  exact (retraces_settled D).restore hst k hk

end Domains

namespace Step

/-- A step saves what restoring needs. -/
theorem Built.retraces {S : List Variable} {p : Step} (h : Built S p) (D : Domains) :
    D.Retraces (p D).2 :=
  h.preserves Domains.Retraces.refl Domains.Retraces.trans
    (fun v _ p D => D.retraces_prune v p) D

end Step

end ConstraintSolver
