import ConstraintSolver.Domain.Pruning
import ConstraintSolver.Variable

/-! # Domains — the current values of every variable, with a way back

    `Domains` holds a domain for every variable of a store.  A checkpoint
    remembers the present state: the first time a variable is pruned after
    it, its cell is saved in the segment of that checkpoint, and undoing the
    segment puts the saved cells back.  The stamp of a cell names the
    checkpoint whose segment holds the cell's last save, so that a variable
    is saved at most once per checkpoint.

    Pruning a variable prunes its domain and leaves all others alone
    (`get_prune`). -/

namespace ConstraintSolver

/-- The domain of a variable, and the checkpoint at which it was last saved. -/
structure Cell where
  domain : Domain
  stamp : Nat
  deriving DecidableEq

/-- A cell as it was before the variable was first pruned at a checkpoint. -/
structure SavedCell where
  index : Nat
  cell : Cell
  deriving DecidableEq

/-- The domains of the variables of one store. -/
structure Domains where
  /-- The number of the store. -/
  owner : Nat
  cells : Array Cell
  /-- The saved cells of every open checkpoint; the newest checkpoint and the
      newest save come first. -/
  segments : List (List SavedCell)
  /-- The variables pruned since the last time this list was taken, the newest
      first. -/
  changes : List Variable
  deriving DecidableEq

namespace Domains

/-- No variables yet. -/
def empty (owner : Nat) : Domains := ⟨owner, #[], [], []⟩

/-- The number of open checkpoints. -/
def depth (D : Domains) : Nat := D.segments.length

/-- Whether the variable is one of this store. -/
def Owns (D : Domains) (v : Variable) : Prop := v.store = D.owner

instance (D : Domains) (v : Variable) : Decidable (D.Owns v) :=
  inferInstanceAs (Decidable (v.store = D.owner))

/-- The current domain of a variable.  A variable which is not one of this
    store has no values here. -/
def get (D : Domains) (v : Variable) : Domain :=
  if D.Owns v then (D.cells[v.index]?.map Cell.domain).getD ∅ else ∅

/-- The domain of a variable of this store is in its cell, -/
theorem get_of_owns {D : Domains} {v : Variable} (h : D.Owns v) :
    D.get v = (D.cells[v.index]?.map Cell.domain).getD ∅ := if_pos h

/-- if it has one, -/
theorem get_of_cell {D : Domains} {v : Variable} {cell : Cell} (hv : D.Owns v)
    (hc : D.cells[v.index]? = some cell) : D.get v = cell.domain := by
  rw [get_of_owns hv, hc]
  rfl

/-- and any other variable has no values. -/
theorem get_of_not_owns {D : Domains} {v : Variable} (h : ¬ D.Owns v) : D.get v = ∅ := if_neg h

/-- The variables in order of declaration. -/
def allVariables (D : Domains) : List Variable :=
  (List.range D.cells.size).map (Variable.mk D.owner)

/-! ## Growing, at the root only -/

/-- One more variable.  Its handle has the next position, of which 32 bits are
    kept; `handle_push` says that these are all, below the limit of handles. -/
def push (D : Domains) (d : Domain) : Variable × Domains :=
  (⟨D.owner, D.cells.size⟩, { D with cells := D.cells.push ⟨d, 0⟩ })

/-- **NEW HANDLES** fit into 32 bits while there are fewer variables than handles. -/
theorem handle_push {D : Domains} (h : D.cells.size < Variable.limit) (d : Domain) :
    (D.push d).1 = Variable.ofIndex D.owner D.cells.size :=
  (Variable.ofIndex_of_lt h).symm

/-- More values for a variable. -/
def extend (D : Domains) (v : Variable) (d : Domain) : Domains :=
  { D with cells := D.cells.modify v.index fun c => { c with domain := c.domain ∪ d } }

/-! ## Pruning -/

/-- The cells with the domain at `index` replaced; the old cell is saved if
    the newest checkpoint has no save of it. -/
def replace (D : Domains) (index : Nat) (cell : Cell) (after : Domain) : Domains :=
  match D.segments with
  | [] =>
      { D with
        cells := D.cells.setIfInBounds index { cell with domain := after }
        changes := ⟨D.owner, index⟩ :: D.changes }
  | segment :: older =>
      if cell.stamp = older.length + 1 then
        { D with
          cells := D.cells.setIfInBounds index { cell with domain := after }
          changes := ⟨D.owner, index⟩ :: D.changes }
      else
        { D with
          cells := D.cells.setIfInBounds index ⟨after, older.length + 1⟩
          segments := (⟨index, cell⟩ :: segment) :: older
          changes := ⟨D.owner, index⟩ :: D.changes }

/-- Whether the newest checkpoint still needs a save of the cell. -/
def needsSaving (D : Domains) (cell : Cell) : Bool :=
  D.depth != 0 && cell.stamp != D.depth

/-- Prunes the domain of a variable. -/
def prune (D : Domains) (v : Variable) (p : Pruning) : Domain.Effect × Domains :=
  if D.Owns v then
    match D.cells[v.index]? with
    | none => (.emptied, D)
    | some cell =>
        let after := cell.domain.prune p
        match Domain.effect cell.domain after with
        | .unchanged => (.unchanged, D)
        | .shrunk => (.shrunk, D.replace v.index cell after)
        | .emptied =>
            if D.needsSaving cell && cell.domain.isEmpty then (.emptied, D)
            else (.emptied, D.replace v.index cell after)
  else (.emptied, D)

/-- The variables pruned since this was last asked, in order. -/
def takeChanges (D : Domains) : List Variable × Domains :=
  (D.changes.reverse, { D with changes := [] })

/-- Forgets which variables were pruned. -/
def settled (D : Domains) : Domains := { D with changes := [] }

/-! ## Checkpoints -/

/-- Opens a checkpoint. -/
def checkpoint (D : Domains) : Domains := { D with segments := [] :: D.segments }

/-- Puts saved cells back, the newest first. -/
def undo (cells : Array Cell) (segment : List SavedCell) : Array Cell :=
  segment.foldl (fun cells saved => cells.setIfInBounds saved.index saved.cell) cells

/-- Undoes the segments of the newest `count` checkpoints. -/
def undoSegments : Nat → Array Cell → List (List SavedCell) → Array Cell × List (List SavedCell)
  | 0, cells, segments => (cells, segments)
  | _ + 1, cells, [] => (cells, [])
  | count + 1, cells, segment :: older => undoSegments count (undo cells segment) older

/-- The state in which only the first `depth` checkpoints were open and no
    later pruning had happened. -/
def restore (D : Domains) (depth : Nat) : Domains :=
  let (cells, segments) := undoSegments (D.depth - depth) D.cells D.segments
  { D with cells := cells, segments := segments, changes := [] }

/-! ## What pruning does to the domains -/

theorem owner_replace (D : Domains) (index : Nat) (cell : Cell) (after : Domain) :
    (D.replace index cell after).owner = D.owner := by
  unfold replace
  split
  · rfl
  · split <;> rfl

theorem cells_replace (D : Domains) (index : Nat) (cell : Cell) (after : Domain) :
    ∃ stamp, (D.replace index cell after).cells =
      D.cells.setIfInBounds index ⟨after, stamp⟩ := by
  unfold replace
  split
  · exact ⟨_, rfl⟩
  · split
    · exact ⟨_, rfl⟩
    · exact ⟨_, rfl⟩

theorem get_replace (D : Domains) {v : Variable} {cell : Cell} (after : Domain)
    (hv : D.Owns v) (hc : D.cells[v.index]? = some cell) (w : Variable) :
    (D.replace v.index cell after).get w = if w = v then after else D.get w := by
  obtain ⟨stamp, hcells⟩ := cells_replace D v.index cell after
  have hlt : v.index < D.cells.size := (Array.getElem?_eq_some_iff.mp hc).1
  simp only [get, Owns, owner_replace, hcells] at *
  by_cases hw : w.store = D.owner
  · simp only [hw, if_true]
    rw [Array.getElem?_setIfInBounds]
    by_cases hi : v.index = w.index
    · have : w = v := by cases w; cases v; simp_all
      simp [this, hlt]
    · have : w ≠ v := fun h => hi (h ▸ rfl)
      simp [hi, this]
  · have : w ≠ v := fun h => hw (h ▸ hv)
    simp [hw, this]

/-- What a pruning tells is what it did to the domain. -/
theorem prune_fst (D : Domains) (v : Variable) (p : Pruning) :
    (D.prune v p).1 = Domain.effect (D.get v) ((D.get v).prune p) := by
  have hnone : D.get v = ∅ →
      Domain.Effect.emptied = Domain.effect (D.get v) ((D.get v).prune p) := by
    intro h
    rw [h, Domain.prune_empty]
    rfl
  rw [prune]
  split
  · rename_i hv
    split
    · rename_i hc
      exact hnone (by rw [get_of_owns hv, hc]; rfl)
    · rename_i cell hc
      rw [get_of_cell hv hc]
      simp only
      split
      · rename_i heffect
        exact heffect.symm
      · rename_i heffect
        exact heffect.symm
      · rename_i heffect
        split <;> exact heffect.symm
  · rename_i hv
    exact hnone (get_of_not_owns hv)

/-- Either a pruning leaves everything as it is, or it replaces the domain of
    the variable by the pruned one. -/
theorem prune_cases (D : Domains) (v : Variable) (p : Pruning) :
    ((D.prune v p).2 = D ∧ (D.get v).prune p = D.get v) ∨
      ∃ cell, D.Owns v ∧ D.cells[v.index]? = some cell ∧
        (D.prune v p).2 = D.replace v.index cell (cell.domain.prune p) ∧
        (D.prune v p).1 ≠ .unchanged := by
  -- nothing can be taken from an empty domain, be it foreign, unknown or emptied before
  have hnone : D.get v = ∅ → (D.get v).prune p = D.get v := by
    intro h
    rw [h, Domain.prune_empty]
  rw [prune]
  split
  · rename_i hv
    split
    · rename_i hc
      exact .inl ⟨rfl, hnone (by rw [get_of_owns hv, hc]; rfl)⟩
    · rename_i cell hc
      have hget := get_of_cell hv hc
      simp only
      split
      · rename_i heffect
        exact .inl ⟨rfl, hget ▸ (Domain.effect_eq_unchanged.mp heffect).2⟩
      · exact .inr ⟨cell, hv, hc, rfl, fun h => nomatch h⟩
      · split
        · rename_i hspared
          have hempty := (Bool.and_eq_true_iff.mp hspared).2
          exact .inl ⟨rfl, hnone (hget.trans (Domain.eq_empty_of_isEmpty hempty))⟩
        · exact .inr ⟨cell, hv, hc, rfl, fun h => nomatch h⟩
  · rename_i hv
    exact .inl ⟨rfl, hnone (get_of_not_owns hv)⟩

/-- Where a pruning removes nothing and leaves a value, nothing happens at all. -/
theorem prune_eq_self (D : Domains) {v : Variable} {p : Pruning}
    (hleft : ((D.get v).prune p).isEmpty = false) (hsame : (D.get v).prune p = D.get v) :
    (D.prune v p).2 = D := by
  rcases prune_cases D v p with ⟨heq, _⟩ | ⟨_, _, _, _, hchanged⟩
  · exact heq
  · rw [prune_fst] at hchanged
    exact absurd (Domain.effect_eq_unchanged.mpr ⟨hleft, hsame⟩) hchanged

/-- **LOCALITY**: pruning a variable prunes its domain and no other. -/
theorem get_prune (D : Domains) (v : Variable) (p : Pruning) (w : Variable) :
    (D.prune v p).2.get w = if w = v then (D.get v).prune p else D.get w := by
  rcases prune_cases D v p with ⟨heq, hsame⟩ | ⟨cell, hv, hc, heq, _⟩
  · rw [heq, hsame]
    split
    · rename_i hw
      rw [hw]
    · rfl
  · rw [heq, get_replace D _ hv hc, get_of_cell hv hc]

/-! ## The number of values left -/

/-- The number of values in a list of cells. -/
def sizeOfCells : List Cell → Nat
  | [] => 0
  | cell :: rest => cell.domain.size + sizeOfCells rest

/-- The number of values left to all variables together. -/
def totalSize (D : Domains) : Nat := sizeOfCells D.cells.toList

theorem sizeOfCells_set (l : List Cell) (i : Nat) (cell : Cell) (h : i < l.length) :
    sizeOfCells (l.set i cell) + l[i].domain.size = sizeOfCells l + cell.domain.size := by
  induction l generalizing i with
  | nil => simp at h
  | cons a l ih =>
      cases i with
      | zero => simp only [List.set_cons_zero, List.getElem_cons_zero, sizeOfCells]; omega
      | succ i =>
          have := ih i (by simpa using h)
          simp only [List.set_cons_succ, List.getElem_cons_succ, sizeOfCells]
          omega

theorem totalSize_replace (D : Domains) {index : Nat} {cell : Cell} (after : Domain)
    (hc : D.cells[index]? = some cell) :
    (D.replace index cell after).totalSize + cell.domain.size
      = D.totalSize + after.size := by
  obtain ⟨stamp, hcells⟩ := cells_replace D index cell after
  obtain ⟨hlt, heq⟩ := Array.getElem?_eq_some_iff.mp hc
  have hs := sizeOfCells_set D.cells.toList index ⟨after, stamp⟩ (by simpa using hlt)
  simp only [totalSize, hcells, Array.toList_setIfInBounds]
  simp only [Array.getElem_toList, heq] at hs
  exact hs

/-- `E` comes out of `D` by removing values: it has no more values, and fewer
    if any change was recorded. -/
def Narrows (D E : Domains) : Prop :=
  E.totalSize ≤ D.totalSize ∧ (E.changes = D.changes ∨ E.totalSize < D.totalSize)

theorem Narrows.refl (D : Domains) : Narrows D D := ⟨Nat.le_refl _, Or.inl rfl⟩

theorem Narrows.trans {D E F : Domains} (h : Narrows D E) (h' : Narrows E F) : Narrows D F := by
  refine ⟨Nat.le_trans h'.1 h.1, ?_⟩
  rcases h.2 with h1 | h1
  · rcases h'.2 with h2 | h2
    · exact Or.inl (h2.trans h1)
    · exact Or.inr (Nat.lt_of_lt_of_le h2 h.1)
  · exact Or.inr (Nat.lt_of_le_of_lt h'.1 h1)

theorem totalSize_prune_le (D : Domains) (v : Variable) (p : Pruning) :
    (D.prune v p).2.totalSize ≤ D.totalSize := by
  rcases prune_cases D v p with ⟨heq, _⟩ | ⟨cell, _, hc, heq, _⟩
  · exact Nat.le_of_eq (congrArg totalSize heq)
  · rw [heq]
    have hreplaced := totalSize_replace D (cell.domain.prune p) hc
    have hsize := Domain.size_prune_le cell.domain p
    omega

/-- A pruning which leaves a value narrows the domains. -/
theorem narrows_prune {D E : Domains} {v : Variable} {p : Pruning} {effect : Domain.Effect}
    (h : D.prune v p = (effect, E)) (hne : effect ≠ .emptied) : Narrows D E := by
  obtain rfl : (D.prune v p).1 = effect := congrArg Prod.fst h
  obtain rfl : (D.prune v p).2 = E := congrArg Prod.snd h
  refine ⟨totalSize_prune_le D v p, ?_⟩
  rcases prune_cases D v p with ⟨heq, _⟩ | ⟨cell, hv, hc, heq, hchanged⟩
  · exact .inl (congrArg Domains.changes heq)
  · -- a value is left, so the domain was replaced because one was removed
    rw [prune_fst, get_of_cell hv hc, Ne, Domain.effect_eq_emptied, Bool.not_eq_true] at hne
    rw [prune_fst, get_of_cell hv hc, Ne, Domain.effect_eq_unchanged] at hchanged
    have hsize := Domain.size_prune_lt fun hsame => hchanged ⟨hne, hsame⟩
    have hreplaced := totalSize_replace D (cell.domain.prune p) hc
    rw [heq]
    omega

end Domains

end ConstraintSolver
