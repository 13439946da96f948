import ConstraintSolver.Proofs.Arising

/-! # Watching — which constraints watch a variable

    A store keeps a list of watchers for every variable.  It is filled once,
    when a constraint is entered, for the variables of its scope, which holds
    each of them once.  Neither updates nor snapshots touch it, and no
    constraint refers to a variable that has not been declared yet.

    So the list is what a look through all constraints would give: the ids of
    those whose scope holds the variable, in order of imposition
    (`Arises.indexed`), and their number is the number of these constraints
    (`Arises.watcherCount_eq`). -/

namespace ConstraintSolver

open Constraint

namespace Constraint

theorem nodup_firsts (vs : List Variable) : (firsts vs).Nodup := by
  induction vs with
  | nil => exact List.nodup_nil
  | cons v vs ih =>
      rw [firsts, List.nodup_cons]
      refine ⟨fun hv => ?_, ih.filter _⟩
      simpa using (List.mem_filter.mp hv).2

theorem nodup_scope (c : Constraint) : c.scope.Nodup := nodup_firsts _

end Constraint

namespace Store

variable {s t : Store} {v : Variable}

/-- The constraints whose scope holds the variable. -/
def constraintsOn (s : Store) (v : Variable) : List Constraint :=
  s.constraints.toList.filter fun c => decide (v ∈ c.scope)

/-- The ids of the constraints whose scope holds the variable, in order of imposition. -/
def idsOn (s : Store) (v : Variable) : List ConstraintId :=
  (s.constraints.toList.zipIdx.filter fun entry => decide (v ∈ entry.1.scope)).map
    fun entry => .ofIndex entry.2

theorem length_idsOn (s : Store) (v : Variable) :
    (s.idsOn v).length = (s.constraintsOn v).length := by
  rw [idsOn, constraintsOn, List.length_map, ← List.countP_eq_length_filter,
    ← List.countP_eq_length_filter]
  conv_rhs => rw [← List.zipIdx_map_fst 0 s.constraints.toList, List.countP_map]
  rfl

/-- The watchers of the variables are those that their constraints give. -/
def Indexed (s : Store) : Prop := ∀ v ∈ s.allVariables, s.watchersOf v = s.idsOn v

/-- A store of the same model is indexed as well. -/
theorem SameModel.indexed (h : SameModel s t) (hindexed : s.Indexed) : t.Indexed := by
  intro v hv
  rw [h.allVariables] at hv
  rw [watchersOf, idsOn, h.watchers, h.constraints]
  exact hindexed v hv

theorem indexed_extended (hindexed : s.Indexed) (v : Variable) (d : Domain) :
    ({ s with domains := s.domains.extend v d } : Store).Indexed := by
  intro w hw
  rw [allVariables_extended] at hw
  exact hindexed w hw

/-- Nothing watches a variable that has just been declared. -/
theorem indexed_grown (hw : s.Wired) (hindexed : s.Indexed) (d : Domain)
    (name : Option String) : (s.grown d name).Indexed := by
  intro v hv
  rw [watchersOf, grown, Array.getElem?_push, hw.watchers]
  rcases mem_allVariables_grown.mp hv with rfl | hv
  · have hnone : s.idsOn ⟨s.number, s.variableCount⟩ = [] := by
      rw [← List.length_eq_zero_iff, length_idsOn, List.length_eq_zero_iff, constraintsOn,
        List.filter_eq_nil_iff]
      intro c hc hscope
      have hdeclared := hw.declared c hc _ (mem_scope.mp (of_decide_eq_true hscope))
      exact Nat.lt_irrefl _ (mem_allVariables.mp hdeclared).2
    have hlast : variableCount s = s.domains.cells.size := rfl
    rw [if_pos hlast]
    exact hnone.symm
  · rw [if_neg (Nat.ne_of_lt (mem_allVariables.mp hv).2)]
    exact hindexed v hv

/-- Entering a constraint adds its id to the variables of the list, once if they are
    listed once. -/
theorem watched_toList {watchers : Array (Array ConstraintId)} {id : ConstraintId}
    {vs : List Variable} {index : Nat} (hvs : (vs.map Variable.index).Nodup)
    (hi : index < watchers.size) :
    (((watched watchers id vs)[index]?).getD #[]).toList =
      ((watchers[index]?).getD #[]).toList ++
        if index ∈ vs.map Variable.index then [id] else [] := by
  induction vs generalizing watchers with
  | nil => simp [watched]
  | cons v vs ih =>
      obtain ⟨hfresh, hvs⟩ := List.nodup_cons.mp (List.map_cons ▸ hvs)
      have hi' : index < (watchers.modify v.index (·.push id)).size := by
        rwa [Array.size_modify]
      rw [watched, List.foldl_cons, ← watched, ih hvs hi', Array.getElem?_modify, List.map_cons]
      by_cases hv : v.index = index
      · -- it is entered here, and not again
        subst hv
        rw [if_pos rfl, if_neg hfresh, if_pos List.mem_cons_self, List.append_nil,
          Array.getElem?_eq_getElem hi]
        exact Array.toList_push
      · have hiff : index ∈ v.index :: vs.map Variable.index ↔ index ∈ vs.map Variable.index := by
          rw [List.mem_cons]
          exact or_iff_right (Ne.symm hv)
        rw [if_neg hv]
        simp only [hiff]

/-- Entering a constraint keeps the store indexed. -/
theorem indexed_enter (hw : s.Wired) (hindexed : s.Indexed) {c : Constraint}
    (hown : ∀ v ∈ c.occurrences, s.owns v = true) : (s.enter c).2.Indexed := by
  -- variables of the store are told apart by their positions
  have hback : ∀ w, s.domains.Owns w → (⟨s.domains.owner, w.index⟩ : Variable) = w :=
    fun _ => Domains.eq_of_owns
  have howns : ∀ w ∈ c.scope, s.domains.Owns w := fun w hw' => by
    simpa [owns] using hown w (mem_scope.mp hw')
  have hnodup : (c.scope.map Variable.index).Nodup := by
    refine List.Nodup.map_on (fun w hw w' hw' heq => ?_) (nodup_scope c)
    rw [← hback w (howns w hw), ← hback w' (howns w' hw'), heq]
  intro v hv
  have hv' : v ∈ s.allVariables := hv
  have hindex : v.index < s.watchers.size := hw.watchers ▸ (mem_allVariables.mp hv').2
  have hmem : v.index ∈ c.scope.map Variable.index ↔ v ∈ c.scope := by
    rw [List.mem_map]
    refine ⟨?_, fun hscope => ⟨v, hscope, rfl⟩⟩
    rintro ⟨w, hw', heq⟩
    rwa [← hback v (mem_allVariables.mp hv').1, ← heq, hback w (howns w hw')]
  have hold : ((s.watchers[v.index]?).getD #[]).toList = s.idsOn v := hindexed v hv'
  rw [enter_eq, watchersOf, watched_toList hnodup hindex, hold]
  simp only [idsOn, Array.toList_push, List.zipIdx_append, List.filter_append, List.map_append,
    hmem, List.zipIdx_singleton, Nat.zero_add, Array.length_toList]
  congr 1
  by_cases hscope : v ∈ c.scope
  · simp [hscope]
  · simp [hscope]

/-- **THE INDEX OF WATCHERS IS EXACT**, however the store has been used. -/
theorem Arises.indexed (h : Arises s) : s.Indexed := by
  induction h with
  | empty number listensTo =>
      exact fun v hv => absurd (mem_allVariables.mp hv).2 (Nat.not_lt_zero _)
  | operated same harises hop ih =>
      have hkempt := harises.kempt
      rcases hop.model_cases same hkempt.stamped with hmodel | _ | ⟨_, _, name⟩ | ⟨_, _, _, d⟩
      · exact hmodel.indexed ih
      · exact ih
      · exact indexed_grown hkempt.wired ih _ name
      · exact indexed_extended ih _ d
  | @imposed s c issued room harises ih =>
      rcases s.impose_cases c with heq | ⟨howns, _, heq⟩
      · rwa [heq]
      · have hentered := indexed_enter harises.kempt.wired ih howns
        have hev := evolves_propagate (s.enter c).2
        rcases heq with heq | ⟨e, heq⟩
        · rw [heq]
          exact hev.toSameModel.indexed hentered
        · rw [heq]
          exact (hev.trans (evolves_note _ e)).toSameModel.indexed hentered
  | noted e _ ih => exact (evolves_note _ e).toSameModel.indexed ih
  | snapshot _ ih => exact ih
  | restored saved _ ih => exact (sameModel_restore _ saved).indexed ih

/-- **AS MANY CONSTRAINTS** watch a variable as there are with the variable in their
    scope. -/
theorem Arises.watcherCount_eq (h : Arises s) (hv : v ∈ s.allVariables) :
    s.watcherCount v = (s.constraintsOn v).length := by
  rw [← length_idsOn, ← h.indexed v hv, watchersOf, Array.length_toList]
  rfl

end Store

end ConstraintSolver
