import ConstraintSolver.Proofs.Arising

/-! # Locality — a constraint looks at its variables, and touches no others

    What a constraint says and does depends on the domains of the variables
    in its scope only, and it changes no other domains (`Confined`).  It
    hands on propagation to trees below it and to negations that are built
    on the way (`Propagates`); none of them refers to a variable that the
    constraint does not refer to, so all of them are confined to the same
    variables.

    A store watches the variables of the scope.  So as long as no variable
    changes that a constraint watches, running the constraint again would
    not do anything new, whatever else has changed
    (`propagation_is_local`). -/

namespace ConstraintSolver

namespace Step

variable {S : List Variable} {p : Step}

/-- What a step adds to the list of changes are variables that it may prune. -/
theorem Built.marks (h : Built S p) (D : Domains) :
    ∃ marked, (p D).2.changes = marked ++ D.changes ∧ ∀ v ∈ marked, v ∈ S := by
  refine h.preserves
    (R := fun D E => ∃ marked, E.changes = marked ++ D.changes ∧ ∀ v ∈ marked, v ∈ S)
    (fun D => ⟨[], rfl, fun _ hv => nomatch hv⟩) ?_ (fun v hv p D => ?_) D
  · rintro D E F ⟨first, hfirst, hin⟩ ⟨later, hlater, hin'⟩
    refine ⟨later ++ first, by rw [hlater, hfirst, List.append_assoc], fun v hv => ?_⟩
    exact (List.mem_append.mp hv).elim (hin' v) (hin v)
  · rcases D.prune_cases v p with ⟨heq, _⟩ | ⟨cell, howns, _, heq, _⟩
    · exact ⟨[], congrArg Domains.changes heq, fun _ hw => nomatch hw⟩
    · refine ⟨[v], ?_, fun w hw => List.mem_singleton.mp hw ▸ hv⟩
      rw [heq, Domains.changes_replace, Domains.eq_of_owns howns]
      rfl

end Step

namespace Constraint

/-- **CONFINED**: of all domains the constraint looks at those of the near variables only,
    and it changes no others. -/
structure Confined (near : Variable → Prop) (c : Constraint) : Prop where
  /-- The verdict is the same where the near domains are. -/
  verdict : ∀ {F G : Family}, (∀ v, near v → F v = G v) → entailment F c = entailment G c
  /-- Propagation ends in the same way. -/
  outcome : ∀ {D E : Domains}, (∀ v, near v → D.get v = E.get v) →
    (propagate c D).1 = (propagate c E).1
  /-- It leaves the same near domains. -/
  result : ∀ {D E : Domains}, (∀ v, near v → D.get v = E.get v) →
    ∀ v, near v → (propagate c D).2.get v = (propagate c E).2.get v
  /-- It has something to prune in both cases, or in none. -/
  stable : ∀ {D E : Domains}, (∀ v, near v → D.get v = E.get v) → (Stable c D ↔ Stable c E)
  /-- It leaves the other domains alone. -/
  untouched : ∀ (D : Domains) v, ¬ near v → (propagate c D).2.get v = D.get v
  /-- The variables which it notes as changed are near. -/
  noted : ∀ D : Domains, ∃ marked, (propagate c D).2.changes = marked ++ D.changes ∧
    ∀ v ∈ marked, near v

variable {near : Variable → Prop} {c d : Constraint}

/-- A constraint is confined to all variables that include its own. -/
theorem confined_of_occurrences (h : ∀ v ∈ occurrences c, near v) : Confined near c := by
  have hbuilt := built_propagate c
  refine ⟨fun hsame => entailment_congr c fun v hv => hsame v (h v hv),
    fun hsame => (hbuilt.agrees fun v hv => hsame v (h v hv)).1, fun {D E} hsame v hv => ?_,
    fun hsame => hbuilt.idle_congr fun v hv => hsame v (h v hv),
    fun D v hv => hbuilt.outside D v fun hmem => hv (h v hmem), fun D => ?_⟩
  · by_cases hmem : v ∈ occurrences c
    · exact (hbuilt.agrees fun v hv => hsame v (h v hv)).2 v hmem
    · rw [hbuilt.outside D v hmem, hbuilt.outside E v hmem, hsame v hv]
  · obtain ⟨marked, hmarked, hin⟩ := hbuilt.marks D
    exact ⟨marked, hmarked, fun v hv => h v (hin v hv)⟩

/-! ## What propagation hands on to -/

/-- The trees that propagating a tree may lead to: some below it, and negations of
    some below it. -/
inductive Propagates : Constraint → Constraint → Prop
  | self (c : Constraint) : Propagates c c
  | body {body d : Constraint} {flag : Variable} :
      Propagates body d → Propagates (.reified body flag) d
  | negatedBody {body d : Constraint} {flag : Variable} :
      Propagates body.negation d → Propagates (.reified body flag) d
  | conjunct {operands : List Constraint} {c d : Constraint} (operand : c ∈ operands) :
      Propagates c d → Propagates (.and operands) d
  | disjunct {operands : List Constraint} {c d : Constraint} (operand : c ∈ operands) :
      Propagates c d → Propagates (.or operands) d
  | alternative {operands : List Constraint} {c d : Constraint} (operand : c ∈ operands) :
      Propagates c d → Propagates (.xor operands) d
  | negatedAlternative {operands : List Constraint} {c d : Constraint} (operand : c ∈ operands) :
      Propagates c.negation d → Propagates (.xor operands) d
  | consequent {antecedent consequent d : Constraint} :
      Propagates consequent d → Propagates (.ifThen antecedent consequent) d
  | negatedAntecedent {antecedent consequent d : Constraint} :
      Propagates antecedent.negation d → Propagates (.ifThen antecedent consequent) d

/-- None of them refers to a new variable. -/
theorem Propagates.occurrences (h : Propagates c d) :
    ∀ v ∈ occurrences d, v ∈ Constraint.occurrences c := by
  induction h with
  | self c => exact fun v hv => hv
  | body _ ih => exact fun v hv => List.mem_append_left _ (ih v hv)
  | negatedBody _ ih =>
      rw [occurrences_negation] at ih
      exact fun v hv => List.mem_append_left _ (ih v hv)
  | conjunct operand _ ih => exact fun v hv => occurs_of_operand operand (ih v hv)
  | disjunct operand _ ih => exact fun v hv => occurs_of_operand operand (ih v hv)
  | alternative operand _ ih => exact fun v hv => occurs_of_operand operand (ih v hv)
  | negatedAlternative operand _ ih =>
      rw [occurrences_negation] at ih
      exact fun v hv => occurs_of_operand operand (ih v hv)
  | consequent _ ih => exact fun v hv => List.mem_append_right _ (ih v hv)
  | negatedAntecedent _ ih =>
      rw [occurrences_negation] at ih
      exact fun v hv => List.mem_append_left _ (ih v hv)

/-- The same holds of what its negation leads to. -/
theorem occurs_of_propagates (h : Propagates c d ∨ Propagates c.negation d) :
    ∀ v ∈ occurrences d, v ∈ occurrences c := by
  rcases h with h | h
  · exact h.occurrences
  · have hsub := h.occurrences
    rwa [occurrences_negation] at hsub

/-! ## The watchers of a store -/

/-- In a store that arises, a constraint watches the variables of its scope and no
    others. -/
theorem watches_iff {s : Store} (h : s.Arises) {i : Nat} (hi : s.constraints[i]? = some c)
    {v : Variable} (hv : v ∈ s.allVariables) :
    ConstraintId.ofIndex i ∈ s.watchersOf v ↔ v ∈ c.scope := by
  have hkempt := h.kempt
  constructor
  · intro hwatch
    obtain ⟨d, hd, hvd⟩ := hkempt.attentive v hv _ hwatch
    rw [Store.constraint?_ofIndex hkempt.numbered hi] at hd
    cases hd
    exact Store.mem_scope.mpr hvd
  · exact fun hscope => hkempt.wired.watched i c hi v (Store.mem_scope.mp hscope)

/-- **PROPAGATION IS LOCAL.**  A negation has the scope of what it negates, in the same
    order.  A constraint, its negation and all that either hands propagation on to are
    confined to the scope of the constraint; these are the variables which it watches in
    a store, so they are confined to the variables that are watched. -/
theorem propagation_is_local (c : Constraint) :
    c.negation.scope = c.scope ∧ Confined (· ∈ c.scope) c ∧ Confined (· ∈ c.scope) c.negation ∧
      (∀ d, Propagates c d ∨ Propagates c.negation d → Confined (· ∈ c.scope) d) ∧
      ∀ (s : Store) (i : Nat), s.Arises → s.constraints[i]? = some c →
        (∀ v ∈ s.allVariables, ConstraintId.ofIndex i ∈ s.watchersOf v ↔ v ∈ c.scope) ∧
        ∀ d, Propagates c d ∨ Propagates c.negation d →
          Confined (fun v => v ∈ s.allVariables ∧ ConstraintId.ofIndex i ∈ s.watchersOf v) d := by
  have hlocal : ∀ d, Propagates c d ∨ Propagates c.negation d → Confined (· ∈ c.scope) d :=
    fun d hd => confined_of_occurrences fun v hv =>
      Store.mem_scope.mpr (occurs_of_propagates hd v hv)
  refine ⟨congrArg firsts (occurrences_negation c), hlocal c (.inl (.self c)),
    hlocal c.negation (.inr (.self _)), hlocal, fun s i harises hi =>
      ⟨fun v hv => watches_iff harises hi hv, fun d hd => ?_⟩⟩
  have hwired := harises.kempt.wired
  exact confined_of_occurrences fun v hv =>
    ⟨hwired.declared c (Store.mem_constraints hi) v (occurs_of_propagates hd v hv),
      hwired.watched i c hi v (occurs_of_propagates hd v hv)⟩

/-- The flag tells whether exactly one holds of `x < y` and `if x = 1 then y + 2 = x`. -/
def flaggedChoice : Constraint :=
  .reified (.xor [.ordering ⟨0, 0⟩ .less (.variable ⟨0, 1⟩),
    .ifThen (.equality ⟨0, 0⟩ .equal (.constant 1)) (.linear ⟨0, 1⟩ 2 .equal ⟨0, 0⟩)]) ⟨0, 2⟩

/-- Two variables and a flag, a variable that does not matter, and the choice. -/
def choosing : Store :=
  ((((((Store.empty 0 none).newInteger 0 3 none).2.newInteger 0 3 none).2.newBoolean
    none).2.newInteger 0 9 none).2.impose flaggedChoice).2

/-- The store comes about with whatever is allowed at a snapshot. -/
theorem reached_choosing (allowed : Store → Prop) : Store.Reached allowed choosing [] :=
  .impose (by decide +kernel) (by decide +kernel)
    (.newInteger 0 9 none (.newBoolean none (.newInteger 0 3 none (.newInteger 0 3 none
      (.empty 0 none)))))

/-- A variable outside the choice neither wakes it nor has a say in what it does. -/
theorem propagation_of_flaggedChoice_is_local :
    flaggedChoice.negation.scope = [⟨0, 0⟩, ⟨0, 1⟩, ⟨0, 2⟩] ∧
      ConstraintId.ofIndex 0 ∉ choosing.watchersOf ⟨0, 3⟩ ∧
      (∀ v ∈ flaggedChoice.scope, (propagate flaggedChoice choosing.domains).2.get v =
        (propagate flaggedChoice (choosing.assign ⟨0, 3⟩ 7).2.domains).2.get v) ∧
      ∀ D, (propagate (.equality ⟨0, 0⟩ .notEqual (.constant 1)) D).2.get ⟨0, 3⟩ =
        D.get ⟨0, 3⟩ := by
  obtain ⟨hscope, hown, _, _, hstore⟩ := propagation_is_local flaggedChoice
  obtain ⟨hwatch, hconfined⟩ := hstore choosing 0 (reached_choosing fun _ => True).arises
    (by decide +kernel)
  have hsame : ∀ v ∈ flaggedChoice.scope, choosing.domains.get v =
      (choosing.assign ⟨0, 3⟩ 7).2.domains.get v := by
    decide +kernel
  have hother : ConstraintId.ofIndex 0 ∉ choosing.watchersOf ⟨0, 3⟩ := fun h =>
    absurd ((hwatch ⟨0, 3⟩ (by decide +kernel)).mp h) (by decide +kernel)
  refine ⟨hscope.trans (by decide +kernel), hother, hown.result hsame, fun D => ?_⟩
  -- the flag leads to the choice, that to its second operand, and that to a negation
  have hnegated : Propagates flaggedChoice (.equality ⟨0, 0⟩ .notEqual (.constant 1)) :=
    .body (.alternative (List.mem_cons_of_mem _ (List.mem_cons_self ..))
      (.negatedAntecedent (.self _)))
  exact (hconfined _ (.inl hnegated)).untouched D _ fun h => hother h.2

end Constraint

end ConstraintSolver
