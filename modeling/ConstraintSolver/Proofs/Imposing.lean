import ConstraintSolver.Proofs.Building

/-! # Imposing constraints — solutions are kept, and the order does not matter

    On a store of declared variables, constraints are imposed one after the
    other, and after each of them the store propagates.  Two things are
    proved of the domains which this leaves.

    * They lose no solution, and an inconsistent constraint leaves none to
      lose (`imposing_preserves_solutions`).
    * They are the largest family inside the declared domains that every
      constraint leaves alone, or there is no such family and some constraint
      is inconsistent (`imposing_order_is_irrelevant`).  This says nothing
      about the order, so the outcome is the same for every order.

    Both follow from what one constraint does to the invariant `Founded`. -/

namespace ConstraintSolver

open Constraint

namespace Store

/-- Imposes constraints one after the other, up to the first that cannot be
    imposed. -/
def imposeAll : List Constraint → Store → Except (Failure ModelError) (List ConstraintId) × Store
  | [], s => (.ok [], s)
  | c :: cs, s =>
      match s.impose c with
      | (.error e, t) => (.error e, t)
      | (.ok id, t) =>
          match imposeAll cs t with
          | (.error e, u) => (.error e, u)
          | (.ok ids, u) => (.ok (id :: ids), u)

/-- The constraint is about variables of the store, its flags are declared
    inside 0 and 1, and its offsets can be negated. -/
structure Admits (s : Store) (c : Constraint) : Prop where
  declared : ∀ v ∈ c.occurrences, v ∈ s.allVariables
  boolean : ∀ b ∈ c.flags, ∀ x ∈ s.domain b, x = 0 ∨ x = 1
  negatable : ∀ k ∈ c.offsets, InRange (-k)

/-- Flags may be declared with both values. -/
theorem Admits.of_between {s : Store} {c : Constraint}
    (hdeclared : ∀ v ∈ c.occurrences, v ∈ s.allVariables)
    (hflags : ∀ b ∈ c.flags, s.domain b = Domain.between 0 1)
    (hoffsets : ∀ k ∈ c.offsets, InRange (-k)) : s.Admits c := by
  refine ⟨hdeclared, fun b hb x hx => ?_, hoffsets⟩
  rw [hflags b hb, Domain.mem_between] at hx
  omega

/-! ## One constraint after the other -/

/-- The family lies inside the domains of the store, gives every variable a
    value, and is stable under the constraints. -/
structure StableFamily (s : Store) (cs : List Constraint) (D : Domains) : Prop where
  inside : D.get ≤ s.domains.get
  inhabited : Family.Inhabited D.get s.allVariables
  stable : ∀ c ∈ cs, Stable c D

/-- A family that is stable under more constraints is stable under less. -/
theorem StableFamily.mono {s : Store} {cs ds : List Constraint} {D : Domains}
    (h : StableFamily s ds D) (hsub : ∀ c ∈ cs, c ∈ ds) : StableFamily s cs D :=
  ⟨h.inside, h.inhabited, fun c hc => h.stable c (hsub c hc)⟩

/-- The store `t` comes from the declared store `s` by imposing the constraints
    `cs`: it has not failed, and it has kept every stable family. -/
structure Founded (s : Store) (cs : List Constraint) (t : Store) : Prop where
  constraints : t.constraints.toList = cs
  failure : t.failure = none
  root : t.depth = 0
  sameVariables : t.allVariables = s.allVariables
  wired : t.Wired
  inhabited : Family.Inhabited t.domains.get s.allVariables
  shrinks : t.domains.get ≤ s.domains.get
  spares : ∀ D', StableFamily s cs D' → D'.get ≤ t.domains.get

/-- Before the first constraint there is nothing but declared variables. -/
theorem Declared.founded {s : Store} (h : Declared s) : Founded s [] s :=
  have hb := h.blank
  ⟨by rw [hb.constraints], hb.failure, hb.root, rfl, hb.wired, hb.inhabited, le_refl s.domains.get,
    fun _ hD' => hD'.inside⟩

namespace Founded

variable {s t u : Store} {cs : List Constraint} {c : Constraint}

/-- Constraints that are admitted can be propagated, whichever have been imposed. -/
theorem propagable (h : Founded s cs t) (hcs : ∀ c ∈ cs, s.Admits c) : t.Propagable := by
  intro c hc
  rw [h.constraints] at hc
  have hadm := hcs c hc
  exact ⟨h.inhabited.mono hadm.declared, fun b hb x hx => hadm.boolean b hb x (h.shrinks b x hx),
    hadm.negatable⟩

/-- The store with the new constraint on its agenda. -/
theorem enter (h : Founded s cs t) (hc : s.Admits c) :
    (t.enter c).2.Wired ∧ (t.enter c).2.constraints.toList = cs ++ [c] := by
  refine ⟨wired_enter h.wired fun v hv => ?_, ?_⟩
  · rw [h.sameVariables]
    exact hc.declared v hv
  · rw [enter_eq, Array.toList_push, h.constraints]

theorem entered_propagable (h : Founded s cs t) (hcs : ∀ c ∈ cs, s.Admits c)
    (hc : s.Admits c) : (t.enter c).2.Propagable := by
  intro d hd
  rw [(h.enter hc).2] at hd
  rcases List.mem_append.mp hd with hd | hd
  · exact h.propagable hcs d (h.constraints ▸ hd)
  · obtain rfl := List.mem_singleton.mp hd
    exact ⟨h.inhabited.mono hc.declared, fun b hb x hx => hc.boolean b hb x (h.shrinks b x hx),
      hc.negatable⟩

/-- A family that is stable under all constraints, the new one included, is a
    refuge. -/
theorem refuge (h : Founded s cs t) (hc : s.Admits c) {D' : Domains}
    (hD' : StableFamily s (cs ++ [c]) D') : Refuge (t.enter c).2 D' := by
  refine ⟨h.spares D' (hD'.mono fun d hd => List.mem_append_left _ hd), ?_, ?_⟩
  · have hvars : (t.enter c).2.allVariables = s.allVariables := h.sameVariables
    rw [hvars]
    exact hD'.inhabited
  · rw [(h.enter hc).2]
    exact hD'.stable

/-- **ONE MORE CONSTRAINT**: it is imposed and the invariant holds again, or it
    is inconsistent and no family is stable under all constraints. -/
theorem impose (h : Founded s cs t) (hcs : ∀ c ∈ cs, s.Admits c) (hc : s.Admits c) :
    (∃ id u, t.impose c = (.ok id, u) ∧ Founded s (cs ++ [c]) u) ∨
      (∃ id u, t.impose c = (.error (.refused (.modelInconsistent id)), u)) ∧
        ∀ D', ¬ StableFamily s (cs ++ [c]) D' := by
  have himp : t.impose c = _ := impose_eq h.failure (fun v hv => by
    rw [h.sameVariables]
    exact hc.declared v hv) h.root
  obtain ⟨hw, hconstraints⟩ := h.enter hc
  have hsuit := h.entered_propagable hcs hc
  have hfail : (t.enter c).2.failure = none := h.failure
  cases hwork : ((t.enter c).2.work none).1 with
  | ok o =>
      rw [propagate_of_ok hfail hwork] at himp
      have hev := evolves_work (t.enter c).2 none
      have hvars : ((t.enter c).2.work none).2.allVariables = s.allVariables :=
        hev.allVariables.trans h.sameVariables
      refine Or.inl ⟨_, _, himp, ?_⟩
      refine ⟨?_, (failure_work _ none).trans hfail, hev.retraces.depth.trans h.root, hvars,
        hev.wired hw, ?_, hev.shrinks.trans h.shrinks, fun D' hD' => ?_⟩
      · rw [hev.constraints, hconstraints]
      · rw [← hvars]
        refine work_inhabited _ none ?_ hwork
        have : (t.enter c).2.allVariables = s.allVariables := h.sameVariables
        rw [this]
        exact h.inhabited
      · exact (work_spares _ none (h.refuge hc hD') hsuit hw).2
  | error why =>
      -- a stable family would have survived the work
      rw [propagate_of_error hfail hwork] at himp
      refine Or.inr ⟨⟨_, _, himp⟩, fun D' hD' => ?_⟩
      have hok := (work_spares _ none (h.refuge hc hD') hsuit hw).1
      rw [hwork] at hok
      cases hok

end Founded

/-! ## All constraints -/

theorem admits_append {s : Store} {cs : List Constraint} {c : Constraint}
    (hcs : ∀ d ∈ cs, s.Admits d) (hc : s.Admits c) : ∀ d ∈ cs ++ [c], s.Admits d :=
  fun _ hd => (List.mem_append.mp hd).elim (hcs _) fun hd => List.mem_singleton.mp hd ▸ hc

/-- All constraints are imposed and the invariant holds, or one of them is
    inconsistent and no family is stable under all of them. -/
theorem founded_imposeAll {s : Store} (ds : List Constraint) {cs : List Constraint} {t : Store}
    (h : Founded s cs t) (hcs : ∀ c ∈ cs, s.Admits c) (hds : ∀ c ∈ ds, s.Admits c) :
    (∃ ids u, imposeAll ds t = (.ok ids, u) ∧ Founded s (cs ++ ds) u) ∨
      (∃ id u, imposeAll ds t = (.error (.refused (.modelInconsistent id)), u)) ∧
        ∀ D', ¬ StableFamily s (cs ++ ds) D' := by
  induction ds generalizing cs t with
  | nil => exact Or.inl ⟨[], t, rfl, (List.append_nil cs).symm ▸ h⟩
  | cons d ds ih =>
      have hd := hds d List.mem_cons_self
      have hrest := fun c hc => hds c (List.mem_cons_of_mem d hc)
      have happ : cs ++ d :: ds = cs ++ [d] ++ ds := by simp
      rw [imposeAll, happ]
      rcases h.impose hcs hd with ⟨id, u, himp, hu⟩ | ⟨⟨id, u, himp⟩, hno⟩
      · rw [himp]
        have hadm := admits_append hcs hd
        rcases ih hu hadm hrest with ⟨ids, w, hall, hw⟩ | ⟨⟨id', w, hall⟩, hno⟩
        · exact Or.inl ⟨id :: ids, w, by simp only [hall], hw⟩
        · exact Or.inr ⟨⟨id', w, by simp only [hall]⟩, hno⟩
      · rw [himp]
        refine Or.inr ⟨⟨id, u, rfl⟩, fun D' hD' => hno D' (hD'.mono fun c hc => ?_)⟩
        exact List.mem_append_left _ hc

/-- Nothing waits after constraints have been imposed well. -/
theorem coherent_imposeAll {Q : Criterion} {s : Store} (ds : List Constraint)
    {cs : List Constraint} {t : Store} (h : Founded s cs t) (hcs : ∀ c ∈ cs, s.Admits c)
    (hds : ∀ c ∈ ds, s.Admits c) (hlen : (cs ++ ds).length ≤ ConstraintId.limit)
    (hcoh : Coherent Q none t) (hempty : t.agenda.toList = []) {ids : List ConstraintId}
    {u : Store} (himp : imposeAll ds t = (.ok ids, u)) :
    Coherent Q none u ∧ u.agenda.toList = [] := by
  induction ds generalizing cs t ids with
  | nil =>
      cases himp
      exact ⟨hcoh, hempty⟩
  | cons d ds ih =>
      have hd := hds d List.mem_cons_self
      have happ : cs ++ d :: ds = cs ++ [d] ++ ds := by simp
      rw [imposeAll] at himp
      rcases h.impose hcs hd with ⟨id, w, himp', hw⟩ | ⟨⟨id, w, himp'⟩, _⟩
      · simp only [himp'] at himp
        obtain ⟨_, hprop⟩ := impose_ok himp'
        obtain ⟨hwired, hconstraints⟩ := h.enter hd
        have hnum : (t.enter d).2.Numbered := by
          have hsize := congrArg List.length hconstraints
          rw [Array.length_toList] at hsize
          rw [Numbered, constraintCount, hsize]
          rw [happ, List.length_append] at hlen
          omega
        -- one constraint is entered and waits; propagation leaves nothing that waits
        obtain ⟨hcoh', hempty', _⟩ := propagate_coherent (coherent_enter hcoh d) hwired hnum hprop
        have hadm := admits_append hcs hd
        cases hall : (imposeAll ds w).1 with
        | error e =>
            have hpair : imposeAll ds w = (.error e, (imposeAll ds w).2) := by rw [← hall]
            rw [hpair] at himp
            cases himp
        | ok ids' =>
            have hpair : imposeAll ds w = (.ok ids', (imposeAll ds w).2) := by rw [← hall]
            rw [hpair] at himp
            cases himp
            exact ih hw hadm (fun c hc => hds c (List.mem_cons_of_mem d hc)) (happ ▸ hlen) hcoh'
              hempty' hpair
      · simp only [himp'] at himp
        cases himp

/-! ## Solutions -/

/-- The values of a solution are a family inside the declared domains which is
    stable under all constraints. -/
theorem Declared.stableFamily {s : Store} (hs : Declared s) {cs : List Constraint}
    (hcs : ∀ c ∈ cs, s.Admits c) {σ : Assignment} (h : s.Solves cs σ) :
    StableFamily s cs (s.domains.pointed σ) := by
  have hget := s.domains.get_pointed σ
  refine ⟨hget ▸ Family.pointed_le _ σ, hget ▸ h.1.pointed.inhabited, fun c hc => ?_⟩
  have hadm := hcs c hc
  have hsuit : Suits s.domains.get c :=
    ⟨hs.blank.inhabited.mono hadm.declared, hadm.boolean, hadm.negatable⟩
  exact stable_pointed c hsuit (fun v hv => h.1 v (hadm.declared v hv)) (h.2 c hc)

/-- The domains which constraints leave have the solutions of the declared
    ones. -/
theorem Founded.solves_iff {s t : Store} {cs : List Constraint} (h : Founded s cs t)
    (hs : Declared s) (hcs : ∀ c ∈ cs, s.Admits c) (σ : Assignment) :
    t.Solves cs σ ↔ s.Solves cs σ := by
  constructor
  · rintro ⟨hdraw, hsat⟩
    rw [h.sameVariables] at hdraw
    exact ⟨hdraw.mono h.shrinks, hsat⟩
  · intro hsol
    have hkept := h.spares _ (hs.stableFamily hcs hsol)
    rw [Domains.get_pointed] at hkept
    refine ⟨?_, hsol.2⟩
    rw [h.sameVariables]
    exact hsol.1.pointed.mono hkept

/-- **IMPOSING PRESERVES SOLUTIONS.**  After constraints have been imposed well on
    declared variables, one more constraint is imposed well and the current
    domains have exactly the solutions of the declared ones, or it is
    inconsistent and there is no solution. -/
theorem imposing_preserves_solutions {s t : Store} (hs : Declared s) {cs : List Constraint}
    {c : Constraint} (hcs : ∀ d ∈ cs ++ [c], s.Admits d) {ids : List ConstraintId}
    (himp : imposeAll cs s = (.ok ids, t)) :
    match t.impose c with
    | (.ok _, u) => ∀ σ, u.Solves (cs ++ [c]) σ ↔ s.Solves (cs ++ [c]) σ
    | (.error (.refused (.modelInconsistent _)), _) => ∀ σ, ¬ s.Solves (cs ++ [c]) σ
    | _ => False := by
  have hcs' : ∀ d ∈ cs, s.Admits d := fun d hd => hcs d (List.mem_append_left _ hd)
  have hc : s.Admits c := hcs c (List.mem_append_right _ (List.mem_singleton_self c))
  have hfounded : Founded s cs t := by
    rcases founded_imposeAll cs hs.founded (fun d hd => nomatch hd) hcs' with
      ⟨ids', u, himp', hu⟩ | ⟨⟨id, u, himp'⟩, _⟩
    · rw [himp] at himp'
      cases himp'
      exact hu
    · rw [himp] at himp'
      cases himp'
  rcases hfounded.impose hcs' hc with ⟨id, u, himp', hu⟩ | ⟨⟨id, u, himp'⟩, hno⟩
  · rw [himp']
    exact fun σ => hu.solves_iff hs hcs σ
  · rw [himp']
    exact fun σ hσ => hno _ (hs.stableFamily hcs hσ)

/-- Two variables with three values each, and a flag. -/
def pairWithFlag : Store :=
  ((((Store.empty 0 none).newInteger 0 2 none).2.newInteger 0 2 none).2.newBoolean none).2

theorem declared_pairWithFlag : Declared pairWithFlag :=
  .newBoolean none (.newInteger 0 2 none (.newInteger 0 2 none (.empty 0 none)))

/-- The flag tells whether the first variable of the pair is the smaller one. -/
def flaggedOrder : Constraint := .reified (.ordering ⟨0, 0⟩ .less (.variable ⟨0, 1⟩)) ⟨0, 2⟩

/-- The second variable of the pair is greater by one. -/
def nextValue : Constraint := .linear ⟨0, 0⟩ 1 .equal ⟨0, 1⟩

/-- Both constraints refer to variables that are declared. -/
theorem admits_pairWithFlag : ∀ c ∈ [flaggedOrder, nextValue], pairWithFlag.Admits c := by
  intro c hc
  rcases List.mem_pair.mp hc with rfl | rfl
  · exact .of_between (by decide +kernel) (by decide +kernel) (by decide +kernel)
  · exact .of_between (by decide +kernel) (by decide +kernel) (by decide +kernel)

/-- The second constraint leaves the assignments which satisfy both. -/
theorem imposing_nextValue_preserves_solutions :
    ∃ t u, imposeAll [flaggedOrder] pairWithFlag = (.ok [⟨0⟩], t) ∧
      t.impose nextValue = (.ok ⟨1⟩, u) ∧
        ∀ σ, u.Solves [flaggedOrder, nextValue] σ ↔
          pairWithFlag.Solves [flaggedOrder, nextValue] σ := by
  have hfirst : imposeAll [flaggedOrder] pairWithFlag =
      (.ok [⟨0⟩], (imposeAll [flaggedOrder] pairWithFlag).2) := by decide +kernel
  have hsecond : (imposeAll [flaggedOrder] pairWithFlag).2.impose nextValue =
      (.ok ⟨1⟩, ((imposeAll [flaggedOrder] pairWithFlag).2.impose nextValue).2) := by
    decide +kernel
  have h := imposing_preserves_solutions declared_pairWithFlag admits_pairWithFlag hfirst
  rw [hsecond] at h
  exact ⟨_, _, hfirst, hsecond, h⟩

/-! ## Order -/

/-- The largest of the stable families. -/
structure LargestStable (s : Store) (cs : List Constraint) (D : Domains) : Prop extends
    StableFamily s cs D where
  largest : ∀ D', StableFamily s cs D' → D'.get ≤ D.get

/-- There is at most one largest stable family. -/
theorem LargestStable.unique {s : Store} {cs : List Constraint} {D E : Domains}
    (hD : LargestStable s cs D) (hE : LargestStable s cs E) : D.get = E.get :=
  le_antisymm (hE.largest D hD.toStableFamily) (hD.largest E hE.toStableFamily)

/-- The largest stable family is a matter of which constraints there are, not of their order. -/
theorem LargestStable.congr {s : Store} {cs ds : List Constraint} {D : Domains}
    (hD : LargestStable s cs D) (hsame : ∀ c, c ∈ cs ↔ c ∈ ds) : LargestStable s ds D :=
  ⟨hD.toStableFamily.mono fun c hc => (hsame c).mpr hc,
    fun D' hD' => hD.largest D' (hD'.mono fun c hc => (hsame c).mp hc)⟩

/-- Imposing constraints on declared variables leaves the largest stable family,
    unless there is no stable family at all. -/
theorem Declared.imposeAll_cases {s : Store} (hs : Declared s) {cs : List Constraint}
    (hcs : ∀ c ∈ cs, s.Admits c) (hlen : cs.length ≤ ConstraintId.limit) :
    (∃ ids t, imposeAll cs s = (.ok ids, t) ∧ LargestStable s cs t.domains) ∨
      (∃ id t, imposeAll cs s = (.error (.refused (.modelInconsistent id)), t)) ∧
        ∀ D, ¬ StableFamily s cs D := by
  have hnone : ∀ c ∈ ([] : List Constraint), s.Admits c := fun c hc => nomatch hc
  rcases founded_imposeAll cs hs.founded hnone hcs with ⟨ids, t, himp, ht⟩ | hno
  · refine Or.inl ⟨ids, t, himp, ⟨ht.shrinks, ht.inhabited, ?_⟩, ht.spares⟩
    have hagenda : s.agenda.toList = [] := by rw [hs.blank.agenda, Agenda.toList_empty]
    obtain ⟨hcoh, hempty⟩ := coherent_imposeAll cs hs.founded hnone hcs hlen
      (hs.blank.coherent .stable) hagenda himp
    intro c hc
    refine (hcoh.resting hempty).met c ?_
    rw [ht.constraints]
    exact hc
  · exact Or.inr hno

/-- **THE ORDER IS IRRELEVANT.**  Imposing the same constraints in two orders
    succeeds both times and leaves every variable the domain which it has in the
    largest stable family, or is inconsistent both times, and then there is no
    stable family. -/
theorem imposing_order_is_irrelevant {s : Store} (hs : Declared s) {cs ds : List Constraint}
    (hcs : ∀ c ∈ cs, s.Admits c) (hlen : cs.length ≤ ConstraintId.limit) (hperm : cs.Perm ds) :
    match imposeAll cs s, imposeAll ds s with
    | (.ok _, t), (.ok _, u) => u.domains.get = t.domains.get ∧ LargestStable s cs t.domains
    | (.error (.refused (.modelInconsistent _)), _),
        (.error (.refused (.modelInconsistent _)), _) => ∀ D, ¬ StableFamily s cs D
    | _, _ => False := by
  have hds : ∀ c ∈ ds, s.Admits c := fun c hc => hcs c (hperm.mem_iff.mpr hc)
  rcases hs.imposeAll_cases hcs hlen with ⟨ids, t, himp, ht⟩ | ⟨⟨id, t, himp⟩, hno⟩
  · rcases hs.imposeAll_cases hds (hperm.length_eq ▸ hlen) with
      ⟨ids', u, himp', hu⟩ | ⟨_, hno'⟩
    · rw [himp, himp']
      exact ⟨(hu.congr fun c => hperm.mem_iff.symm).unique ht, ht⟩
    · exact absurd (ht.congr fun c => hperm.mem_iff).toStableFamily (hno' t.domains)
  · rcases hs.imposeAll_cases hds (hperm.length_eq ▸ hlen) with
      ⟨ids', u, _, hu⟩ | ⟨⟨id', u, himp'⟩, _⟩
    · exact absurd (hu.congr fun c => hperm.mem_iff.symm).toStableFamily (hno u.domains)
    · rw [himp, himp']
      exact hno

/-- Both orders lead to the same domains. -/
theorem imposing_nextValue_first_or_last :
    (imposeAll [nextValue, flaggedOrder] pairWithFlag).2.domains.get =
      (imposeAll [flaggedOrder, nextValue] pairWithFlag).2.domains.get := by
  have hfirst : imposeAll [flaggedOrder, nextValue] pairWithFlag =
      (.ok [⟨0⟩, ⟨1⟩], (imposeAll [flaggedOrder, nextValue] pairWithFlag).2) := by decide +kernel
  have hlast : imposeAll [nextValue, flaggedOrder] pairWithFlag =
      (.ok [⟨0⟩, ⟨1⟩], (imposeAll [nextValue, flaggedOrder] pairWithFlag).2) := by decide +kernel
  have h := imposing_order_is_irrelevant declared_pairWithFlag admits_pairWithFlag
    (by decide) (List.Perm.swap nextValue flaggedOrder [])
  rw [hfirst, hlast] at h
  exact h.1

end Store

end ConstraintSolver
