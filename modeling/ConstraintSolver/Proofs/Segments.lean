import Mathlib.Order.Bounds.Defs
import ConstraintSolver.Proofs.Arising

/-! # Segments — what the trail holds for every open checkpoint

    Domains are pruned at any depth, checkpoints are opened, and going back
    leads to any earlier one; variables are declared and extended at the root
    only (`Traced`).  Whether a cell is saved is decided by its stamp, and
    stamps are saved and put back themselves.

    What keeps this right is a relation between the cells and the segments,
    from the newest checkpoint down (`Matched`): the stamp of a cell is the
    newest checkpoint exactly if the cell has been saved there, no cell is
    saved there twice, and once the segment has been undone, the cells are
    those from when the checkpoint was opened and match the older segments.
    Saving a cell that has not been saved yet, opening a checkpoint and
    undoing segments keep the relation, and so the trail is in step in every
    state (`trail_is_in_step`).

    A store does nothing else to its domains.  However it has been used, its
    trail is in step, too (`Arises.traced`). -/

namespace ConstraintSolver

namespace Domains

variable {D : Domains} {opened : List (Array Cell)}

/-! ## The course of domains -/

/-- The states that domains come to, with the cells from when each of the open
    checkpoints was opened, the newest first. -/
inductive Traced : Domains → List (Array Cell) → Prop
  | empty (owner : Nat) : Traced (.empty owner) []
  | push {D : Domains} {opened : List (Array Cell)} (d : Domain) (root : D.depth = 0) :
      Traced D opened → Traced (D.push d).2 opened
  | extend {D : Domains} {opened : List (Array Cell)} (v : Variable) (d : Domain)
      (root : D.depth = 0) : Traced D opened → Traced (D.extend v d) opened
  | prune {D : Domains} {opened : List (Array Cell)} (v : Variable) (p : Pruning) :
      Traced D opened → Traced (D.prune v p).2 opened
  | takeChanges {D : Domains} {opened : List (Array Cell)} :
      Traced D opened → Traced D.takeChanges.2 opened
  | checkpoint {D : Domains} {opened : List (Array Cell)} :
      Traced D opened → Traced D.checkpoint (D.cells :: opened)
  /-- Any earlier checkpoint can be returned to; the newer ones are closed. -/
  | restore {D : Domains} {opened : List (Array Cell)} {k : Nat} (earlier : k < D.depth) :
      Traced D opened → Traced (D.restore k) (opened.drop (D.depth - k))

/-! ## Segments by number -/

/-- The segment of a checkpoint, the newest save first.  The oldest checkpoint is
    number 1. -/
def segmentOf (segments : List (List SavedCell)) (k : Nat) : List SavedCell :=
  (segments[segments.length - k]?).getD []

/-- The saves in the segment of a checkpoint and in all newer ones, from the newest
    save to the oldest. -/
def savesFrom (segments : List (List SavedCell)) (k : Nat) : List SavedCell :=
  (segments.take (segments.length + 1 - k)).flatten

section Numbers

variable {segment : List SavedCell} {older : List (List SavedCell)} {k : Nat}

/-- The newest segment is that of the newest checkpoint. -/
theorem segmentOf_newest : segmentOf (segment :: older) (older.length + 1) = segment := by
  rw [segmentOf, List.length_cons, Nat.sub_self, List.getElem?_cons_zero, Option.getD_some]

/-- A new segment does not renumber the older ones. -/
theorem segmentOf_older (hk : k ≤ older.length) :
    segmentOf (segment :: older) k = segmentOf older k := by
  rw [segmentOf, List.length_cons, Nat.succ_sub hk, List.getElem?_cons_succ, segmentOf]

/-- From the newest checkpoint on there are only its own saves. -/
theorem savesFrom_newest : savesFrom (segment :: older) (older.length + 1) = segment := by
  have hone : older.length + 1 + 1 - (older.length + 1) = 1 := Nat.add_sub_cancel_left ..
  rw [savesFrom, List.length_cons, hone, List.take_succ_cons, List.take_zero,
    List.flatten_singleton]

/-- A new segment adds its saves to those from an older checkpoint on. -/
theorem savesFrom_older (hk : k ≤ older.length) :
    savesFrom (segment :: older) k = segment ++ savesFrom older k := by
  have hstep : older.length + 1 + 1 - k = (older.length + 1 - k) + 1 := by omega
  rw [savesFrom, List.length_cons, hstep, List.take_succ_cons, List.flatten_cons, savesFrom]

end Numbers

/-- **THE TRAIL IS IN STEP** with the domains, and leads back to the cells from when the
    checkpoints were opened. -/
structure InStep (D : Domains) (opened : List (Array Cell)) : Prop where
  /-- No variable is saved twice at a checkpoint. -/
  once : ∀ k, 0 < k → k ≤ D.depth → ((segmentOf D.segments k).map SavedCell.index).Nodup
  /-- The stamp of a variable is the newest checkpoint which it has been saved at, or 0. -/
  newest : ∀ index cell, D.cells[index]? = some cell →
    IsGreatest {k | k = 0 ∨ (0 < k ∧ k ≤ D.depth ∧
      ∃ saved ∈ segmentOf D.segments k, saved.index = index)} cell.stamp
  /-- Undoing all saves from a checkpoint on gives the cells from when it was opened. -/
  back : ∀ k, 0 < k → k ≤ D.depth →
    opened[D.depth - k]? = some (undo D.cells (savesFrom D.segments k))
  /-- This is what going back to the checkpoint before it does. -/
  returns : ∀ k, k < D.depth →
    (D.restore k).cells = undo D.cells (savesFrom D.segments (k + 1))

/-! ## Cells which match the segments -/

/-- The cells match the segments, and undoing these leads to the cells of old. -/
inductive Matched : Array Cell → List (List SavedCell) → List (Array Cell) → Prop
  | root {cells : Array Cell}
      (unsaved : ∀ (index : Nat) (cell : Cell), cells[index]? = some cell → cell.stamp = 0) :
      Matched cells [] []
  | deeper {cells : Array Cell} {segment : List SavedCell} {older : List (List SavedCell)}
      {opened : List (Array Cell)} (once : (segment.map SavedCell.index).Nodup)
      (stamps : ∀ (index : Nat) (cell : Cell), cells[index]? = some cell →
        cell.stamp ≤ older.length + 1 ∧
          (cell.stamp = older.length + 1 ↔ ∃ saved ∈ segment, saved.index = index))
      (undone : Matched (undo cells segment) older opened) :
      Matched cells (segment :: older) (undo cells segment :: opened)

/-- Saves are undone from the newest to the oldest. -/
theorem undo_append (cells : Array Cell) (newer older : List SavedCell) :
    undo cells (newer ++ older) = undo (undo cells newer) older := List.foldl_append

/-- The newest segments are undone one after the other, each from its newest save on. -/
theorem undoSegments_eq (count : Nat) (cells : Array Cell) (segments : List (List SavedCell)) :
    undoSegments count cells segments =
      (undo cells (segments.take count).flatten, segments.drop count) := by
  induction count generalizing cells segments with
  | zero => rfl
  | succ count ih =>
      cases segments with
      | nil => rfl
      | cons segment older =>
          rw [undoSegments, ih, List.take_succ_cons, List.flatten_cons, undo_append,
            List.drop_succ_cons]

/-- Going back undoes the saves of all checkpoints above. -/
theorem cells_restore (D : Domains) (k : Nat) :
    (D.restore k).cells = undo D.cells (savesFrom D.segments (k + 1)) := by
  have hcount : D.segments.length + 1 - (k + 1) = D.depth - k := Nat.add_sub_add_right ..
  rw [restore, savesFrom, hcount, undoSegments_eq]

/-- A cell which has not been saved is not touched by undoing. -/
theorem getElem?_undo_of_unsaved {segment : List SavedCell} {index : Nat}
    (h : ∀ saved ∈ segment, saved.index ≠ index) (cells : Array Cell) :
    (undo cells segment)[index]? = cells[index]? := by
  induction segment generalizing cells with
  | nil => rfl
  | cons saved segment ih =>
      obtain ⟨hsaved, hrest⟩ := List.forall_mem_cons.mp h
      rw [undo_cons, ih hrest, Array.getElem?_setIfInBounds_ne hsaved]

namespace Matched

variable {cells : Array Cell} {segments : List (List SavedCell)}

/-- No cell is stamped with a checkpoint that is not open. -/
theorem stamp_le (h : Matched cells segments opened) {index : Nat} {cell : Cell}
    (hc : cells[index]? = some cell) : cell.stamp ≤ segments.length := by
  cases h with
  | root unsaved => exact Nat.le_of_eq (unsaved index cell hc)
  | deeper once stamps undone => exact (stamps index cell hc).1

/-- At the root all stamps are 0, and nothing leads back. -/
theorem at_root (h : Matched cells [] opened) :
    opened = [] ∧ ∀ (index : Nat) (cell : Cell), cells[index]? = some cell → cell.stamp = 0 := by
  cases h with
  | root unsaved => exact ⟨rfl, unsaved⟩

/-- A segment saves no cell twice. -/
theorem once (h : Matched cells segments opened) {k : Nat} (hpos : 0 < k)
    (hk : k ≤ segments.length) : ((segmentOf segments k).map SavedCell.index).Nodup := by
  induction h with
  | root unsaved => exact absurd hk (Nat.not_le.mpr hpos)
  | @deeper cells segment older opened once stamps undone ih =>
      rcases Nat.lt_or_eq_of_le hk with hlt | rfl
      · rw [segmentOf_older (Nat.le_of_lt_succ hlt)]
        exact ih (Nat.le_of_lt_succ hlt)
      · rw [List.length_cons, segmentOf_newest]
        exact once

/-- A stamp is the newest checkpoint with a save of the cell, or 0. -/
theorem newest (h : Matched cells segments opened) {index : Nat} {cell : Cell}
    (hc : cells[index]? = some cell) :
    IsGreatest {k | k = 0 ∨ (0 < k ∧ k ≤ segments.length ∧
      ∃ saved ∈ segmentOf segments k, saved.index = index)} cell.stamp := by
  induction h with
  | root unsaved =>
      rw [unsaved index cell hc]
      refine ⟨.inl rfl, fun k hk => ?_⟩
      rcases hk with rfl | ⟨_, hle, _⟩
      · exact Nat.le_refl _
      · exact hle
  | @deeper cells segment older opened once stamps undone ih =>
      obtain ⟨hle, hiff⟩ := stamps index cell hc
      by_cases hsaved : ∃ saved ∈ segment, saved.index = index
      · -- it has been saved at the newest checkpoint of all
        rw [hiff.mpr hsaved]
        refine ⟨.inr ⟨Nat.succ_pos _, Nat.le_refl _, ?_⟩, fun k hk => ?_⟩
        · rwa [segmentOf_newest]
        · rcases hk with rfl | ⟨_, hk, _⟩
          · exact Nat.zero_le _
          · exact hk
      · -- it is as it was when the newest checkpoint was opened
        have hsame : (undo cells segment)[index]? = some cell := by
          rw [getElem?_undo_of_unsaved (fun saved hm hi => hsaved ⟨saved, hm, hi⟩), hc]
        obtain ⟨hmem, hupper⟩ := ih hsame
        refine ⟨?_, fun k hk => ?_⟩
        · rcases hmem with hzero | ⟨hpos, hk, hold⟩
          · exact .inl hzero
          · refine .inr ⟨hpos, Nat.le_succ_of_le hk, ?_⟩
            rwa [segmentOf_older hk]
        · rcases hk with rfl | ⟨hpos, hk, hold⟩
          · exact Nat.zero_le _
          · rcases Nat.lt_or_eq_of_le hk with hlt | rfl
            · rw [segmentOf_older (Nat.le_of_lt_succ hlt)] at hold
              exact hupper (.inr ⟨hpos, Nat.le_of_lt_succ hlt, hold⟩)
            · rw [List.length_cons, segmentOf_newest] at hold
              exact absurd hold hsaved

/-- Undoing the saves from a checkpoint on leads to the cells from when it was opened. -/
theorem back (h : Matched cells segments opened) {k : Nat} (hpos : 0 < k)
    (hk : k ≤ segments.length) :
    opened[segments.length - k]? = some (undo cells (savesFrom segments k)) := by
  induction h with
  | root unsaved => exact absurd hk (Nat.not_le.mpr hpos)
  | @deeper cells segment older opened once stamps undone ih =>
      rcases Nat.lt_or_eq_of_le hk with hlt | rfl
      · have hle : k ≤ older.length := Nat.le_of_lt_succ hlt
        rw [List.length_cons, Nat.succ_sub hle, List.getElem?_cons_succ, ih hle,
          savesFrom_older hle, undo_append]
      · rw [List.length_cons, Nat.sub_self, List.getElem?_cons_zero, savesFrom_newest]

/-! ## What keeps them matched -/

/-- Declaring and extending at the root leave the stamps at 0. -/
theorem of_root {D E : Domains} (h : Matched D.cells D.segments opened) (root : D.depth = 0)
    (hsegs : E.segments = D.segments)
    (hstamps : ∀ (index : Nat) (cell : Cell), E.cells[index]? = some cell →
      cell.stamp = 0 ∨ ∃ old, D.cells[index]? = some old ∧ old.stamp = cell.stamp) :
    Matched E.cells E.segments opened := by
  rw [List.length_eq_zero_iff.mp root] at h hsegs
  obtain ⟨rfl, hzero⟩ := h.at_root
  rw [hsegs]
  refine .root fun index cell hc => ?_
  rcases hstamps index cell hc with hcell | ⟨old, hold, heq⟩
  · exact hcell
  · exact heq ▸ hzero index old hold

/-- Opening a checkpoint: nothing has been saved at it yet. -/
theorem opens (h : Matched cells segments opened) :
    Matched cells ([] :: segments) (cells :: opened) := by
  refine .deeper List.nodup_nil (fun index cell hc => ?_) h
  have hle := h.stamp_le hc
  refine ⟨Nat.le_succ_of_le hle, fun heq => by omega, ?_⟩
  rintro ⟨_, hm, _⟩
  exact nomatch hm

/-- A cell may change if it has been saved at the newest checkpoint. -/
theorem changes {segment : List SavedCell} {older : List (List SavedCell)}
    (h : Matched cells (segment :: older) opened) {index : Nat}
    (hsaved : ∃ saved ∈ segment, saved.index = index) (after : Domain) :
    Matched (cells.setIfInBounds index ⟨after, older.length + 1⟩) (segment :: older) opened := by
  cases h with
  | deeper once stamps undone =>
      have hundo : undo (cells.setIfInBounds index ⟨after, older.length + 1⟩) segment =
          undo cells segment := undo_setIfInBounds hsaved cells _
      rw [← hundo] at undone ⊢
      refine .deeper once (fun other cell hc => ?_) undone
      rw [Array.getElem?_setIfInBounds] at hc
      by_cases hi : index = other
      · subst hi
        rw [if_pos rfl] at hc
        split at hc
        · cases hc
          exact ⟨Nat.le_refl _, fun _ => hsaved, fun _ => rfl⟩
        · cases hc
      · rw [if_neg hi] at hc
        exact stamps other cell hc

/-- A cell is saved at the newest checkpoint unless it has been saved there. -/
theorem saves {segment : List SavedCell} {older : List (List SavedCell)}
    (h : Matched cells (segment :: older) opened) {index : Nat} {cell : Cell}
    (hc : cells[index]? = some cell) (hstamp : cell.stamp ≠ older.length + 1) (after : Domain) :
    Matched (cells.setIfInBounds index ⟨after, older.length + 1⟩)
      ((⟨index, cell⟩ :: segment) :: older) opened := by
  cases h with
  | deeper once stamps undone =>
      have hfresh : ¬ ∃ saved ∈ segment, saved.index = index := fun hsaved =>
        hstamp ((stamps index cell hc).2.mpr hsaved)
      -- undoing puts the old cell back first, and then goes on as before
      have hundo : undo (cells.setIfInBounds index ⟨after, older.length + 1⟩)
          (⟨index, cell⟩ :: segment) = undo cells segment := by
        rw [undo_cons, Array.setIfInBounds_setIfInBounds, setIfInBounds_self hc]
      rw [← hundo] at undone ⊢
      refine .deeper ?_ (fun other c hother => ?_) undone
      · rw [List.map_cons, List.nodup_cons]
        refine ⟨fun hm => hfresh ?_, once⟩
        obtain ⟨saved, hsaved, hi⟩ := List.mem_map.mp hm
        exact ⟨saved, hsaved, hi⟩
      · rw [Array.getElem?_setIfInBounds] at hother
        by_cases hi : index = other
        · subst hi
          rw [if_pos rfl, if_pos (getElem?_lt hc)] at hother
          cases hother
          exact ⟨Nat.le_refl _, fun _ => ⟨_, List.mem_cons_self, rfl⟩, fun _ => rfl⟩
        · rw [if_neg hi] at hother
          obtain ⟨hle, hiff⟩ := stamps other c hother
          refine ⟨hle, hiff.trans ⟨?_, ?_⟩⟩
          · rintro ⟨saved, hm, heq⟩
            exact ⟨saved, List.mem_cons_of_mem _ hm, heq⟩
          · rintro ⟨saved, hm, heq⟩
            rcases List.mem_cons.mp hm with rfl | hm
            · exact absurd heq hi
            · exact ⟨saved, hm, heq⟩

/-- **PRUNING KEEPS THEM MATCHED**, whether the cell is saved or not. -/
theorem replaced {D : Domains} (h : Matched D.cells D.segments opened) {index : Nat} {cell : Cell}
    (hc : D.cells[index]? = some cell) (after : Domain) :
    Matched (D.replace index cell after).cells (D.replace index cell after).segments opened := by
  cases hsegs : D.segments with
  | nil =>
      rw [replace_root hsegs]
      refine h.of_root (by rw [depth, hsegs]; rfl) rfl fun other c hother => ?_
      rw [Array.getElem?_setIfInBounds] at hother
      split at hother
      · rename_i hi
        rw [if_pos (getElem?_lt hc)] at hother
        cases hother
        exact .inr ⟨cell, hi ▸ hc, rfl⟩
      · exact .inr ⟨c, hother, rfl⟩
  | cons segment older =>
      rw [hsegs] at h
      rw [replace]
      rw [hsegs]
      simp only
      split
      -- the cell has the stamp of this level, so it has been saved here before
      · rename_i hstamp
        have hsaved : ∃ saved ∈ segment, saved.index = index := by
          cases h with
          | deeper once stamps undone => exact (stamps index cell hc).2.mp hstamp
        rw [hstamp]
        exact h.changes hsaved after
      · rename_i hstamp
        exact h.saves hc hstamp after

/-- Undoing the newest segments leaves the older ones matched. -/
theorem undone (h : Matched cells segments opened) {count : Nat}
    (hcount : count ≤ segments.length) :
    Matched (undoSegments count cells segments).1 (undoSegments count cells segments).2
      (opened.drop count) := by
  induction count generalizing cells segments opened with
  | zero => exact h
  | succ count ih =>
      cases h with
      | root unsaved => exact absurd hcount (Nat.not_succ_le_zero _)
      | deeper once stamps undone => exact ih undone (Nat.le_of_succ_le_succ hcount)

end Matched

/-! ## Every state -/

/-- **THE CELLS MATCH THE SEGMENTS** in every state. -/
theorem Traced.matched (h : Traced D opened) : Matched D.cells D.segments opened := by
  induction h with
  | empty owner => exact .root fun index cell hc => by simp [Domains.empty] at hc
  | @push D opened d root _ ih =>
      refine ih.of_root (E := (D.push d).2) root rfl fun index cell hc => ?_
      rw [Domains.push, Array.getElem?_push] at hc
      split at hc
      · cases hc
        exact .inl rfl
      · exact .inr ⟨cell, hc, rfl⟩
  | @extend D opened v d root _ ih =>
      refine ih.of_root (E := D.extend v d) root rfl fun index cell hc => ?_
      rw [Domains.extend, Array.getElem?_modify] at hc
      split at hc
      · obtain ⟨old, hold, rfl⟩ := Option.map_eq_some_iff.mp hc
        exact .inr ⟨old, hold, rfl⟩
      · exact .inr ⟨cell, hc, rfl⟩
  | @prune D opened v p _ ih =>
      -- a pruning changes nothing, or replaces one cell, saving it at most once a level
      rcases prune_cases D v p with ⟨heq, _⟩ | ⟨cell, _, hc, heq, _⟩
      · rwa [heq]
      · rw [heq]
        exact ih.replaced hc _
  | takeChanges _ ih => exact ih
  | checkpoint _ ih => exact ih.opens
  | restore _ _ ih => exact ih.undone (Nat.sub_le ..)

/-- **TRAIL AND STAMPS STAY IN STEP**, whatever happens to the domains. -/
theorem trail_is_in_step (h : Traced D opened) : InStep D opened :=
  ⟨fun _ hpos hk => h.matched.once hpos hk, fun _ _ hc => h.matched.newest hc,
    fun _ hpos hk => h.matched.back hpos hk, fun k _ => D.cells_restore k⟩

/-- Two variables are narrowed at the root and at two checkpoints.  At a third one a
    variable loses all its values, and both checkpoints below the first are closed. -/
def revisited : Domains :=
  let two := ((empty 0).push (.between 0 9)).2.push (.between 0 9)
  let grown := (two.2.extend ⟨0, 1⟩ (.between 20 29)).prune ⟨0, 0⟩ (.atLeast 1)
  let first := (grown.2.checkpoint.prune ⟨0, 0⟩ (.atMost 8)).2.prune ⟨0, 0⟩ (.except 5)
  let second := (first.2.checkpoint.prune ⟨0, 1⟩ (.atMost 25)).2.prune ⟨0, 0⟩ (.atLeast 3)
  let third := (second.2.checkpoint.prune ⟨0, 1⟩ (.exactly 30)).2.prune ⟨0, 0⟩ (.atLeast 4)
  third.2.restore 1

/-- The second checkpoint is opened once more, and both variables are narrowed. -/
def reentered : Domains :=
  ((revisited.checkpoint.prune ⟨0, 1⟩ (.except 22)).2.prune ⟨0, 0⟩ (.exactly 2)).2

/-- The checkpoints of this state have been opened one after the other. -/
theorem traced_reentered : ∃ older, Traced reentered (revisited.cells :: older) := by
  have grown := (((Traced.empty 0).push (.between 0 9) (by decide)).push (.between 0 9)
    (by decide)).extend ⟨0, 1⟩ (.between 20 29) (by decide)
  have first := ((grown.prune ⟨0, 0⟩ (.atLeast 1)).checkpoint.prune ⟨0, 0⟩ (.atMost 8)).prune ⟨0, 0⟩
    (.except 5)
  have second := (first.checkpoint.prune ⟨0, 1⟩ (.atMost 25)).prune ⟨0, 0⟩ (.atLeast 3)
  have third := (second.checkpoint.prune ⟨0, 1⟩ (.exactly 30)).prune ⟨0, 0⟩ (.atLeast 4)
  have back := third.restore (k := 1) (by decide +kernel)
  exact ⟨_, (back.checkpoint.prune ⟨0, 1⟩ (.except 22)).prune ⟨0, 0⟩ (.exactly 2)⟩

/-- A checkpoint that is opened a second time saves the cells again. -/
theorem trail_of_reentered_is_in_step :
    reentered.depth = 2 ∧
      (∀ cell ∈ reentered.cells.toList, cell.stamp = 2) ∧
      undo reentered.cells (savesFrom reentered.segments 2) = revisited.cells ∧
      ∃ older, Traced reentered (revisited.cells :: older) ∧
        InStep reentered (revisited.cells :: older) := by
  obtain ⟨older, htraced⟩ := traced_reentered
  have hstep := trail_is_in_step htraced
  have hback := hstep.back 2 (by decide) (by decide +kernel)
  have hdepth : reentered.depth - 2 = 0 := by decide +kernel
  rw [hdepth] at hback
  exact ⟨by decide +kernel, by decide +kernel, (Option.some.inj hback).symm, older, htraced,
    hstep⟩

/-! ## The domains of a store -/

/-- What leads to the first state leads on to the second, at the same checkpoints. -/
def LeadsOn (D E : Domains) : Prop := ∀ opened, Traced D opened → Traced E opened

theorem LeadsOn.refl (D : Domains) : LeadsOn D D := fun _ h => h

theorem LeadsOn.trans {D E F : Domains} (h : LeadsOn D E) (h' : LeadsOn E F) : LeadsOn D F :=
  fun opened hD => h' opened (h opened hD)

/-- A pruning saves what it changes. -/
theorem leadsOn_prune (D : Domains) (v : Variable) (p : Pruning) : LeadsOn D (D.prune v p).2 :=
  fun _ h => h.prune v p

theorem leadsOn_settled (D : Domains) : LeadsOn D D.settled := fun _ h => h.takeChanges

end Domains

namespace Store

open Constraint Domains

variable {s t : Store}

/-- A run is a number of prunings. -/
theorem leadsOn_runOnce (s : Store) (id : ConstraintId) (c : Constraint) :
    LeadsOn s.domains (s.runOnce id c).2.domains := by
  rw [runOnce_eq]
  exact (leadsOn_settled s.domains).trans
    ((built_propagate c).preserves .refl .trans (fun v _ p D => D.leadsOn_prune v p) _)

theorem leadsOn_work (s : Store) (current : Option ConstraintId) :
    LeadsOn s.domains (s.work current).2.domains := by
  induction s, current using work_induction with
  | finished s h => exact .refl _
  | popped s id rest r h ih => exact ih
  | absent s id r h ih => exact ih
  | failed s id c why t hc h =>
      have hran := leadsOn_runOnce s id c
      rwa [h] at hran
  | ran s id c t r hc h hq ih =>
      have hran := leadsOn_runOnce s id c
      rw [h] at hran
      exact hran.trans ih
  | rerun s id c t r hc h _ ih =>
      have hran := leadsOn_runOnce s id c
      rw [h] at hran
      exact (hran.trans (leadsOn_settled t.domains)).trans ih

/-- Propagation is a number of runs. -/
theorem leadsOn_propagate (s : Store) : LeadsOn s.domains s.propagate.2.domains := by
  cases hf : s.failure with
  | some why =>
      rw [propagate_of_failed hf]
      exact .refl _
  | none =>
      cases hr : (s.work none).1 with
      | ok _ =>
          rw [propagate_of_ok hf hr]
          exact leadsOn_work s none
      | error why =>
          rw [propagate_of_error hf hr]
          exact (leadsOn_work s none).trans (leadsOn_settled _)

/-- An update is a pruning, which a failed store refuses. -/
theorem leadsOn_update (s : Store) (v : Variable) (p : Pruning) :
    LeadsOn s.domains (s.prune v p).2.domains := by
  cases hv : s.owns v with
  | false =>
      rw [prune_of_foreign hv]
      exact .refl _
  | true =>
      cases hf : s.failure with
      | some why =>
          rw [prune_of_failed hv hf]
          exact .refl _
      | none =>
          rw [prune_eq hv hf]
          split
          · exact (s.domains.leadsOn_prune v p).trans (leadsOn_settled _)
          · exact (s.domains.leadsOn_prune v p).trans (leadsOn_settled _)

theorem leadsOn_assign (s : Store) (v : Variable) (value : Int) :
    LeadsOn s.domains (s.assign v value).2.domains := by
  rw [assign]
  split
  · exact .refl _
  · split
    · exact .refl _
    · exact leadsOn_update s v _

/-- Enlarging a store at the root is a way to change its domains. -/
theorem Enlarges.leadsOn (h : Enlarges s t) : LeadsOn s.domains t.domains := by
  cases h with
  | refused => exact .refl _
  | declared root => exact fun _ h => h.push _ root
  | extended root _ _ d => exact fun _ h => h.extend _ d root

/-- Imposing a constraint is propagation. -/
theorem leadsOn_impose (s : Store) (c : Constraint) :
    LeadsOn s.domains (s.impose c).2.domains := by
  rcases s.impose_cases c with heq | ⟨_, _, heq | ⟨e, heq⟩⟩
  · rw [heq]
    exact .refl _
  · rw [heq]
    exact leadsOn_propagate (s.enter c).2
  · rw [heq]
    exact leadsOn_propagate (s.enter c).2

/-- An operation changes the domains as they may be changed. -/
theorem Operates.leadsOn (h : Operates s t) (hst : s.domains.Stamped) :
    LeadsOn s.domains t.domains := by
  cases h with
  | newInteger lower upper name => exact (newInteger_enlarges s lower upper name).leadsOn
  | newSparse values name => exact (newSparse_enlarges s values name).leadsOn
  | newBoolean name => exact (newBoolean_enlarges s name).leadsOn
  | extendDomain v lower upper => exact (extendDomain_enlarges s v lower upper).leadsOn
  | impose c => exact leadsOn_impose s c
  | assign v value => exact leadsOn_assign s v value
  | removeValue v value => exact leadsOn_update s v _
  | setLowerBound v bound => exact leadsOn_update s v _
  | setUpperBound v bound => exact leadsOn_update s v _
  | propagate => exact leadsOn_propagate s
  | search start session left =>
      rw [(returned_of_session hst start session left).domains]
      exact leadsOn_settled s.domains

/-- **THE TRAIL OF A STORE IS IN STEP**, however the store has been used. -/
theorem Arises.traced (h : Arises s) : ∃ opened, Traced s.domains opened := by
  induction h with
  | empty number listensTo => exact ⟨[], .empty number⟩
  | operated _ harises hop ih =>
      exact ih.imp fun opened htraced => hop.leadsOn harises.kempt.stamped opened htraced
  | @imposed s c _ _ _ ih => exact ih.imp fun opened htraced => leadsOn_impose s c opened htraced
  | noted _ _ ih => exact ih
  | snapshot _ ih =>
      obtain ⟨opened, htraced⟩ := ih
      exact ⟨_, htraced.checkpoint⟩
  | @restored s saved _ ih =>
      obtain ⟨opened, htraced⟩ := ih
      rcases s.restore_cases saved with heq | ⟨_, hlt, heq⟩
      · rw [heq]
        exact ⟨opened, htraced⟩
      · rw [heq]
        exact ⟨_, htraced.restore hlt⟩

end Store

end ConstraintSolver
