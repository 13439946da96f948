import ConstraintSolver.Proofs.Operations

/-! # Building a store — declarations, extensions and constraints at the root

    A store is built at the root: variables are declared, their domains are
    extended as long as no constraint refers to them, and constraints are
    imposed.  Each of these keeps the tables of the store in step
    (`Wired`), and every variable a value.  A constraint is watched by its
    variables from the moment it is entered, so the store stays coherent. -/

namespace ConstraintSolver

open Constraint

/-! ## Domains from outside -/

/-- Bounds which are accepted are those of a domain with values. -/
theorem Domain.inhabited_ofBounds? {lower upper : Int} {d : Domain}
    (h : Domain.ofBounds? lower upper = .ok d) : ∃ x, x ∈ d := by
  simp only [Domain.ofBounds?] at h
  split at h
  · cases h
  · rename_i hne
    cases h
    exact inhabited_of_not_isEmpty (Bool.not_eq_true _ ▸ hne)

/-- Values which are accepted make a domain with values. -/
theorem Domain.inhabited_ofValues? {values : List Int} {d : Domain}
    (h : Domain.ofValues? values = .ok d) : ∃ x, x ∈ d := by
  simp only [Domain.ofValues?] at h
  split at h
  · cases h
  · rename_i hne
    cases h
    exact inhabited_of_not_isEmpty (Bool.not_eq_true _ ▸ hne)

namespace Domains

/-! ## Growing -/

/-- A new variable has its domain, and the others keep theirs. -/
theorem get_push (D : Domains) (d : Domain) (v : Variable) :
    (D.push d).2.get v = if v = ⟨D.owner, D.cells.size⟩ then d else D.get v := by
  have howns : (D.push d).2.Owns v ↔ D.Owns v := Iff.rfl
  by_cases hv : D.Owns v
  · rw [get_of_owns (howns.mpr hv), get_of_owns hv, push, Array.getElem?_push]
    by_cases hi : v.index = D.cells.size
    · have heq : v = ⟨D.owner, D.cells.size⟩ := by rw [← hi, eq_of_owns hv]
      rw [if_pos hi, if_pos heq]
      rfl
    · have hne : v ≠ ⟨D.owner, D.cells.size⟩ := fun heq => hi (heq ▸ rfl)
      rw [if_neg hi, if_neg hne]
  · have hne : v ≠ ⟨D.owner, D.cells.size⟩ := fun heq => hv (heq ▸ rfl)
    rw [get_of_not_owns fun h => hv (howns.mp h), get_of_not_owns hv, if_neg hne]

/-- The extended variable has more values, and the others keep theirs. -/
theorem get_extend (D : Domains) {v : Variable} (hv : D.Owns v) (d : Domain) (w : Variable)
    (hw : w.index < D.cells.size) :
    (D.extend v d).get w = if w = v then D.get v ∪ d else D.get w := by
  have howns : (D.extend v d).Owns w ↔ D.Owns w := Iff.rfl
  by_cases hwo : D.Owns w
  · rw [get_of_owns (howns.mpr hwo), extend, Array.getElem?_modify]
    by_cases hi : v.index = w.index
    · obtain rfl : w = v := by rw [← eq_of_owns hwo, ← hi, eq_of_owns hv]
      rw [if_pos rfl, if_pos rfl, get_of_owns hwo, Array.getElem?_eq_getElem hw]
      rfl
    · have hne : w ≠ v := fun heq => hi (heq ▸ rfl)
      rw [if_neg hi, if_neg hne, get_of_owns hwo]
  · have hne : w ≠ v := fun heq => hwo (heq ▸ hv)
    rw [get_of_not_owns fun h => hwo (howns.mp h), get_of_not_owns hwo, if_neg hne]

/-- At the root there is nothing to undo, so a new cell needs no stamp. -/
theorem stamped_push {D : Domains} (hst : D.Stamped) (hroot : D.depth = 0) (d : Domain) :
    (D.push d).2.Stamped := by
  have hsegs : D.segments = [] := List.length_eq_zero_iff.mp hroot
  rw [Stamped, hsegs, StampedCells] at hst
  rw [Stamped, push]
  simp only [hsegs, StampedCells]
  intro index cell hc
  rw [Array.getElem?_push] at hc
  split at hc
  · cases hc
    rfl
  · exact hst index cell hc

/-- At the root there is nothing to undo, so a cell may be extended. -/
theorem stamped_extend {D : Domains} (hst : D.Stamped) (hroot : D.depth = 0) (v : Variable)
    (d : Domain) : (D.extend v d).Stamped := by
  have hsegs : D.segments = [] := List.length_eq_zero_iff.mp hroot
  rw [Stamped, hsegs, StampedCells] at hst
  rw [Stamped, extend]
  simp only [hsegs, StampedCells]
  intro index cell hc
  rw [Array.getElem?_modify] at hc
  split at hc
  · obtain ⟨c, hc', rfl⟩ := Option.map_eq_some_iff.mp hc
    exact hst index c hc'
  · exact hst index cell hc

end Domains

namespace Store

variable {s t : Store} {Q : Criterion}

/-! ## Declarations -/

/-- The store with one more variable. -/
def grown (s : Store) (d : Domain) (name : Option String) : Store :=
  { s with
    domains := (s.domains.push d).2
    names := s.names.add name
    watchers := s.watchers.push #[]
    journal := s.journal.record (.declared ((s.names.add name).get s.domains.cells.size) d) }

/-- A declaration adds a variable at the root, or changes nothing. -/
theorem declare_cases (s : Store) (d : Domain) (name : Option String) :
    ((∃ e, (s.declare d name).1 = .error e) ∧ (s.declare d name).2 = s) ∨
      (s.depth = 0 ∧ s.declare d name = (.ok ⟨s.number, s.variableCount⟩, s.grown d name)) := by
  unfold declare
  split
  · exact Or.inl ⟨⟨_, rfl⟩, rfl⟩
  · split
    · exact Or.inl ⟨⟨_, rfl⟩, rfl⟩
    · rename_i hroot
      exact Or.inr ⟨not_not.mp hroot, rfl⟩

/-- The new variable is one more. -/
theorem mem_allVariables_grown {d : Domain} {name : Option String} {v : Variable} :
    v ∈ (s.grown d name).allVariables ↔
      v = ⟨s.number, s.variableCount⟩ ∨ v ∈ s.allVariables := by
  rw [mem_allVariables, mem_allVariables]
  have howns : (s.grown d name).domains.Owns v ↔ s.domains.Owns v := Iff.rfl
  have hsize : (s.grown d name).domains.cells.size = s.domains.cells.size + 1 := by
    simp [grown, Domains.push]
  rw [howns, hsize]
  constructor
  · rintro ⟨hv, hi⟩
    rcases Nat.lt_or_eq_of_le (Nat.lt_succ_iff.mp hi) with hlt | heq
    · exact Or.inr ⟨hv, hlt⟩
    · left
      rw [← Domains.eq_of_owns hv, heq]
      rfl
  · rintro (rfl | ⟨hv, hi⟩)
    · exact ⟨rfl, Nat.lt_succ_self _⟩
    · exact ⟨hv, Nat.lt_succ_of_lt hi⟩

theorem get_grown {d : Domain} {name : Option String} {v : Variable} (hv : v ∈ s.allVariables) :
    (s.grown d name).domains.get v = s.domains.get v := by
  have hne : v ≠ ⟨s.domains.owner, s.domains.cells.size⟩ := by
    rintro rfl
    exact absurd (mem_allVariables.mp hv).2 (Nat.lt_irrefl _)
  exact (s.domains.get_push d v).trans (if_neg hne)

/-- A new variable with values leaves every variable with values. -/
theorem inhabited_grown (hin : Family.Inhabited s.domains.get s.allVariables) {d : Domain}
    (hd : ∃ x, x ∈ d) (name : Option String) :
    Family.Inhabited (s.grown d name).domains.get (s.grown d name).allVariables := by
  intro v hv
  rcases mem_allVariables_grown.mp hv with rfl | hv
  · have hget : (s.grown d name).domains.get ⟨s.number, s.variableCount⟩ = d :=
      (s.domains.get_push d ⟨s.number, s.variableCount⟩).trans (if_pos rfl)
    rw [hget]
    exact hd
  · rw [get_grown hv]
    exact hin v hv

/-- The tables of a store grow in step. -/
theorem wired_grown (hw : s.Wired) (d : Domain) (name : Option String) :
    (s.grown d name).Wired := by
  have hwatch : ∀ v ∈ s.allVariables, (s.grown d name).watchersOf v = s.watchersOf v := by
    intro v hv
    have hlt : v.index < s.watchers.size := hw.watchers ▸ (mem_allVariables.mp hv).2
    simp only [watchersOf, grown, Array.getElem?_push, if_neg (Nat.ne_of_lt hlt)]
  refine ⟨fun c hc v hv => mem_allVariables_grown.mpr (.inr (hw.declared c hc v hv)),
    fun i c hc v hv => ?_, ?_⟩
  · rw [hwatch v (hw.declared c (mem_constraints hc) v hv)]
    exact hw.watched i c hc v hv
  · simp only [grown, Domains.push, Array.size_push, hw.watchers]

/-- A variable that no constraint refers to unsettles none. -/
theorem coherent_grown (h : Coherent Q none s) (hw : s.Wired) {d : Domain} (hd : ∃ x, x ∈ d)
    (name : Option String) : Coherent Q none (s.grown d name) := by
  refine ⟨inhabited_grown h.inhabited hd name, h.quiet, h.agenda, fun i c hc => ?_⟩
  refine (h.served i c hc).imp id (Or.imp id fun hmet => ?_)
  refine Q.congr c s.domains _ (fun v hv => ?_) hmet
  exact (get_grown (hw.declared c (mem_constraints hc) v hv)).symm

/-! ## Extensions -/

/-- An extension changes a variable without constraints at the root, or changes
    nothing. -/
theorem extendDomain_cases (s : Store) (v : Variable) (lower upper : Int) :
    ((∃ e, (s.extendDomain v lower upper).1 = .error e) ∧
        (s.extendDomain v lower upper).2 = s) ∨
      ∃ d, (∃ x, x ∈ d) ∧ s.domains.Owns v ∧ s.watcherCount v = 0 ∧ s.depth = 0 ∧
        s.extendDomain v lower upper =
          (.ok (), { s with domains := s.domains.extend v d }) := by
  rw [extendDomain]
  split
  · exact Or.inl ⟨⟨_, rfl⟩, rfl⟩
  · rename_i hv
    split
    · exact Or.inl ⟨⟨_, rfl⟩, rfl⟩
    · rename_i hcount
      split
      · exact Or.inl ⟨⟨_, rfl⟩, rfl⟩
      · rename_i d hd
        split
        · exact Or.inl ⟨⟨_, rfl⟩, rfl⟩
        · rename_i hroot
          refine Or.inr ⟨d, Domain.inhabited_ofBounds? hd, ?_, not_not.mp hcount,
            not_not.mp hroot, rfl⟩
          simpa [owns] using hv

/-! ## Enlarging a store -/

/-- What a request to enlarge a store may come to: it is refused, or at the root a variable with
    values is new, or one that no constraint refers to has more values. -/
inductive Enlarges (s : Store) : Store → Prop
  | refused : Enlarges s s
  | declared {d : Domain} (root : s.depth = 0) (inhabited : ∃ x, x ∈ d) (name : Option String) :
      Enlarges s (s.grown d name)
  | extended {v : Variable} (root : s.depth = 0) (owned : s.domains.Owns v)
      (unwatched : s.watcherCount v = 0) (d : Domain) :
      Enlarges s { s with domains := s.domains.extend v d }

/-- Declaring a domain with values enlarges the store. -/
theorem declare_enlarges (s : Store) {d : Domain} (hd : ∃ x, x ∈ d) (name : Option String) :
    Enlarges s (s.declare d name).2 := by
  rcases s.declare_cases d name with ⟨_, heq⟩ | ⟨hroot, heq⟩
  · rw [heq]
    exact .refused
  · rw [heq]
    exact .declared hroot hd name

/-- Bounds are refused, or declared as a domain. -/
theorem newInteger_enlarges (s : Store) (lower upper : Int) (name : Option String) :
    Enlarges s (s.newInteger lower upper name).2 := by
  rw [newInteger]
  split
  · exact .refused
  · rename_i d hd
    exact s.declare_enlarges (Domain.inhabited_ofBounds? hd) name

/-- A list of values is refused, or declared as a domain. -/
theorem newSparse_enlarges (s : Store) (values : List Int) (name : Option String) :
    Enlarges s (s.newSparse values name).2 := by
  rw [newSparse]
  split
  · exact .refused
  · rename_i d hd
    exact s.declare_enlarges (Domain.inhabited_ofValues? hd) name

/-- An anonymous flag is refused below the root; otherwise it is declared. -/
theorem newBoolean_enlarges (s : Store) (name : Option String) :
    Enlarges s (s.newBoolean name).2 := by
  rw [newBoolean]
  split
  · exact .refused
  · exact s.declare_enlarges ⟨0, Domain.mem_between.mpr (by decide)⟩ name

/-- An extension is refused, or enlarges a domain. -/
theorem extendDomain_enlarges (s : Store) (v : Variable) (lower upper : Int) :
    Enlarges s (s.extendDomain v lower upper).2 := by
  rcases s.extendDomain_cases v lower upper with ⟨_, heq⟩ | ⟨d, _, howned, hfree, hroot, heq⟩
  · rw [heq]
    exact .refused
  · rw [heq]
    exact .extended hroot howned hfree d

section Extended

variable {v : Variable} {d : Domain}

theorem allVariables_extended :
    ({ s with domains := s.domains.extend v d } : Store).allVariables = s.allVariables := by
  simp only [allVariables, Domains.allVariables, Domains.extend, Array.size_modify]

/-- Only the variable in question has more values. -/
theorem get_extended (hv : s.domains.Owns v) {w : Variable} (hw : w ∈ s.allVariables) :
    (s.domains.extend v d).get w = if w = v then s.domains.get v ∪ d else s.domains.get w :=
  s.domains.get_extend hv d w (mem_allVariables.mp hw).2

theorem inhabited_extended (hin : Family.Inhabited s.domains.get s.allVariables)
    (hv : s.domains.Owns v) :
    Family.Inhabited (s.domains.extend v d).get s.allVariables := by
  intro w hw
  rw [get_extended hv hw]
  split
  · rename_i heq
    exact (hin w hw).imp fun x hx => Domain.mem_union.mpr (.inl (heq ▸ hx))
  · exact hin w hw

/-- Who is watched by whom has nothing to do with values. -/
theorem wired_extended (hw : s.Wired) :
    ({ s with domains := s.domains.extend v d } : Store).Wired := by
  refine ⟨?_, hw.watched, ?_⟩
  · rw [allVariables_extended]
    exact hw.declared
  · simp only [Domains.extend, Array.size_modify]
    exact hw.watchers

/-- No constraint refers to a variable without watchers. -/
theorem not_occurs_of_watcherCount (hw : s.Wired) (hcount : s.watcherCount v = 0) {i : Nat}
    {c : Constraint} (hc : s.constraints[i]? = some c) : v ∉ c.occurrences := by
  intro hv
  have hmem := hw.watched i c hc v hv
  have hnil : s.watchersOf v = [] := by
    rw [watchersOf, ← List.length_eq_zero_iff, Array.length_toList]
    exact hcount
  rw [hnil] at hmem
  cases hmem

/-- More values for a variable that no constraint refers to unsettle none. -/
theorem coherent_extended (h : Coherent Q none s) (hw : s.Wired) (hv : s.domains.Owns v)
    (hcount : s.watcherCount v = 0) :
    Coherent Q none { s with domains := s.domains.extend v d } := by
  refine ⟨?_, h.quiet, h.agenda, fun i c hc => ?_⟩
  · rw [allVariables_extended]
    exact inhabited_extended h.inhabited hv
  · refine (h.served i c hc).imp id (Or.imp id fun hmet => ?_)
    refine Q.congr c s.domains _ (fun w hw' => ?_) hmet
    have hne : w ≠ v := fun heq => not_occurs_of_watcherCount hw hcount hc (heq ▸ hw')
    rw [get_extended hv (hw.declared c (mem_constraints hc) w hw'), if_neg hne]

end Extended

/-! ## Constraints -/

/-- Leaving out repetitions leaves out no variable. -/
theorem mem_firsts {vs : List Variable} {v : Variable} : v ∈ firsts vs ↔ v ∈ vs := by
  induction vs with
  | nil => rfl
  | cons w vs ih =>
      rw [firsts, List.mem_cons, List.mem_cons, List.mem_filter, ih]
      by_cases hv : v = w
      · simp [hv]
      · simp [hv]

/-- The scope of a tree holds the variables that occur in it. -/
theorem mem_scope {c : Constraint} {v : Variable} : v ∈ c.scope ↔ v ∈ c.occurrences := mem_firsts

/-- The watchers after a constraint has been entered for some variables. -/
def watched (watchers : Array (Array ConstraintId)) (id : ConstraintId) (vs : List Variable) :
    Array (Array ConstraintId) :=
  vs.foldl (fun watchers v => watchers.modify v.index (·.push id)) watchers

theorem size_watched (watchers : Array (Array ConstraintId)) (id : ConstraintId)
    (vs : List Variable) : (watched watchers id vs).size = watchers.size := by
  induction vs generalizing watchers with
  | nil => rfl
  | cons v vs ih => exact (ih _).trans Array.size_modify

/-- Entering a constraint adds it to the watchers of its variables, and to no others. -/
theorem mem_watched {watchers : Array (Array ConstraintId)} {id other : ConstraintId}
    {vs : List Variable} {index : Nat} (hi : index < watchers.size) :
    other ∈ (((watched watchers id vs)[index]?).getD #[]).toList ↔
      other ∈ ((watchers[index]?).getD #[]).toList ∨
        (other = id ∧ ∃ v ∈ vs, v.index = index) := by
  induction vs generalizing watchers with
  | nil => simp [watched]
  | cons v vs ih =>
      have hi' : index < (watchers.modify v.index (·.push id)).size := by
        rwa [Array.size_modify]
      have hstep : other ∈ (((watchers.modify v.index (·.push id))[index]?).getD #[]).toList ↔
          other ∈ ((watchers[index]?).getD #[]).toList ∨ (other = id ∧ v.index = index) := by
        rw [Array.getElem?_modify]
        by_cases hv : v.index = index
        · simp [hv, Array.getElem?_eq_getElem hi]
        · simp [hv]
      rw [watched, List.foldl_cons, ← watched, ih hi', hstep, or_assoc]
      refine or_congr_right ?_
      simp only [List.mem_cons, exists_eq_or_imp]
      rw [and_or_left]

theorem enter_eq (s : Store) (c : Constraint) :
    s.enter c =
      (.ofIndex s.constraints.size,
        { s with
          constraints := s.constraints.push c
          watchers := watched s.watchers (.ofIndex s.constraints.size) c.scope
          agenda := s.agenda.enqueue (.ofIndex s.constraints.size) c.priority
          journal := s.journal.record (.imposing c) }) := rfl

/-- A new constraint is watched by its variables. -/
theorem wired_enter (hw : s.Wired) {c : Constraint}
    (hc : ∀ v ∈ c.occurrences, v ∈ s.allVariables) : (s.enter c).2.Wired := by
  rw [enter_eq]
  refine ⟨fun d hd v hv => ?_, fun i d hd v hv => ?_, ?_⟩
  · rcases List.mem_append.mp (Array.toList_push ▸ hd) with hd | hd
    · exact hw.declared d hd v hv
    · obtain rfl := List.mem_singleton.mp hd
      exact hc v hv
  · simp only [Array.getElem?_push] at hd
    have hlt : ∀ v ∈ s.allVariables, v.index < s.watchers.size := fun v hv =>
      hw.watchers ▸ (mem_allVariables.mp hv).2
    split at hd
    · rename_i hi
      cases hd
      refine (mem_watched (hlt v (hc v hv))).mpr (.inr ⟨by rw [hi], v, mem_scope.mpr hv, rfl⟩)
    · have hv' := hw.declared d (mem_constraints hd) v hv
      exact (mem_watched (hlt v hv')).mpr (.inl (hw.watched i d hd v hv))
  · exact (size_watched ..).trans hw.watchers

/-- There is an id left for the constraint. -/
theorem numbered_enter (hroom : s.constraintCount < ConstraintId.limit) (c : Constraint) :
    (s.enter c).2.Numbered := by
  have hsize : (s.enter c).2.constraintCount = s.constraintCount + 1 := by
    rw [enter_eq, constraintCount, Array.size_push]
    rfl
  rw [Numbered, hsize]
  exact hroom

/-- The new constraint waits. -/
theorem coherent_enter (h : Coherent Q none s) (c : Constraint) :
    Coherent Q none (s.enter c).2 := by
  rw [enter_eq]
  refine ⟨h.inhabited, h.quiet, h.agenda.enqueue .., fun i d hd => ?_⟩
  simp only [Array.getElem?_push] at hd
  simp only [Agenda.mem_enqueue h.agenda]
  split at hd
  · rename_i hi
    exact Or.inl (.inl (by rw [hi]))
  · exact (h.served i d hd).imp .inr id

/-- What imposing a constraint comes to, if the constraint is not refused at
    once. -/
theorem impose_eq {c : Constraint} (hf : s.failure = none)
    (hown : ∀ v ∈ c.occurrences, v ∈ s.allVariables) (hroot : s.depth = 0) :
    s.impose c =
      match (s.enter c).2.propagate with
      | (.ok (), t) => (.ok (.ofIndex s.constraints.size), t)
      | (.error why, t) =>
          (.error (.refused (.modelInconsistent (.ofIndex s.constraints.size))),
            t.note (.inconsistentAtRoot (.ofIndex s.constraints.size) why)) := by
  have hall : c.scope.all s.owns = true := by
    refine List.all_eq_true.mpr fun v hv => ?_
    exact owns_of_mem (hown v (mem_scope.mp hv))
  rw [impose]
  rw [if_neg (by simp [isFailed, hf]), if_neg (by simp [hall]), if_neg (not_not.mpr hroot)]
  rfl

/-- A constraint that is imposed well was entered in a store at the root, and
    propagated. -/
theorem impose_ok {c : Constraint} {id : ConstraintId} (h : s.impose c = (.ok id, t)) :
    s.depth = 0 ∧ (s.enter c).2.propagate = (.ok (), t) := by
  rw [impose] at h
  split at h
  · cases h
  · split at h
    · cases h
    · split at h
      · cases h
      · rename_i hroot
        simp only at h
        split at h
        · rename_i u hu
          cases h
          exact ⟨not_not.mp hroot, hu⟩
        · cases h

/-! ## Declared stores -/

/-- A store whose variables have been declared and extended, and which has no
    constraints yet. -/
inductive Declared : Store → Prop
  | empty (number : Nat) (listensTo : Option Level) : Declared (.empty number listensTo)
  | newInteger {s : Store} (lower upper : Int) (name : Option String) :
      Declared s → Declared (s.newInteger lower upper name).2
  | newSparse {s : Store} (values : List Int) (name : Option String) :
      Declared s → Declared (s.newSparse values name).2
  | newBoolean {s : Store} (name : Option String) : Declared s → Declared (s.newBoolean name).2
  | extendDomain {s : Store} (v : Variable) (lower upper : Int) :
      Declared s → Declared (s.extendDomain v lower upper).2

/-- At the root, without constraints, and with a value for every variable. -/
structure Blank (s : Store) : Prop where
  constraints : s.constraints = #[]
  agenda : s.agenda = .empty
  failure : s.failure = none
  root : s.depth = 0
  quiet : s.domains.changes = []
  wired : s.Wired
  inhabited : Family.Inhabited s.domains.get s.allVariables

/-- Enlarging a store leaves it without constraints. -/
theorem Blank.enlarges {s t : Store} (h : s.Blank) (henlarges : Enlarges s t) : t.Blank := by
  cases henlarges with
  | refused => exact h
  | declared _ inhabited name =>
      exact ⟨h.constraints, h.agenda, h.failure, h.root, h.quiet, wired_grown h.wired _ name,
        inhabited_grown h.inhabited inhabited name⟩
  | extended _ owned _ d =>
      refine ⟨h.constraints, h.agenda, h.failure, h.root, h.quiet, wired_extended h.wired, ?_⟩
      rw [allVariables_extended]
      exact inhabited_extended h.inhabited owned

/-- A store whose variables have just been declared has no constraints. -/
theorem Declared.blank {s : Store} (h : Declared s) : s.Blank := by
  induction h with
  | empty number listensTo =>
      refine ⟨rfl, rfl, rfl, rfl, rfl, ⟨fun c hc => ?_, fun i c hc => ?_, rfl⟩, fun v hv => ?_⟩
      · simp [Store.empty] at hc
      · simp [Store.empty] at hc
      · have := (mem_allVariables.mp hv).2
        simp [Store.empty, Domains.empty] at this
  | newInteger lower upper name _ ih => exact ih.enlarges (newInteger_enlarges _ lower upper name)
  | newSparse values name _ ih => exact ih.enlarges (newSparse_enlarges _ values name)
  | newBoolean name _ ih => exact ih.enlarges (newBoolean_enlarges _ name)
  | extendDomain v lower upper _ ih => exact ih.enlarges (extendDomain_enlarges _ v lower upper)

/-- Without constraints there is nothing to meet. -/
theorem Blank.coherent {s : Store} (h : s.Blank) (Q : Criterion) : Coherent Q none s := by
  refine ⟨h.inhabited, h.quiet, ?_, fun i c hc => ?_⟩
  · rw [h.agenda]
    exact Agenda.consistent_empty
  · simp [h.constraints] at hc

end Store

end ConstraintSolver
