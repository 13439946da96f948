import ConstraintSolver.Model.Parts
import ConstraintSolver.Proofs.Building
import ConstraintSolver.Proofs.Trying

/-! # Drafting — a model between two of its operations

    While a model is built, variables are declared and constraints imposed in
    turns.  What the model is to be is written down beforehand (`Plan`): the
    name and the domain of the variable at every position.  As long as the
    plan is followed, the store has exactly the solutions of the part of the
    plan that has been carried out, and nothing waits in it (`Stage`).  A
    declaration always succeeds (`Stage.opened`); a constraint does, or it
    leaves no solution (`Stage.impose`). -/

namespace ConstraintSolver

open Constraint Store

/-! ## Plans -/

/-- What a model declares at every position. -/
structure Plan where
  /-- The number of the store. -/
  number : Nat
  /-- The name of a variable, unless it is anonymous. -/
  label : Nat → Option String
  /-- The values with which a variable is declared. -/
  domain : Nat → Domain
  distinct : ∀ {i j : Nat} {name : String}, label i = some name → label j = some name → i = j
  unreserved : ∀ {i : Nat} {name : String}, label i = some name → Names.isReserved name = false

namespace Plan

/-- The variable at a position. -/
def handle (P : Plan) (i : Nat) : Variable := ⟨P.number, i⟩

/-- The first variables have values with which they are declared. -/
def Draws (P : Plan) (k : Nat) (σ : Assignment) : Prop := ∀ i < k, σ (P.handle i) ∈ P.domain i

/-- **A SOLUTION** of a part of the plan: values for its variables that satisfy its
    constraints. -/
def Solved (P : Plan) (k : Nat) (cs : List Constraint) (σ : Assignment) : Prop :=
  P.Draws k σ ∧ ∀ c ∈ cs, c.holds σ = true

/-- The constraint is about the first variables; its flags are declared inside 0
    and 1, and its offsets can be negated. -/
structure Admits (P : Plan) (k : Nat) (c : Constraint) : Prop where
  declared : ∀ v ∈ c.occurrences, ∃ i < k, v = P.handle i
  boolean : ∀ b ∈ c.flags, ∀ x ∈ P.domain b.index, x = 0 ∨ x = 1
  negatable : ∀ k ∈ c.offsets, InRange (-k)

/-- What is drawn for more variables is drawn for less. -/
theorem Draws.mono {P : Plan} {k m : Nat} {σ : Assignment} (h : P.Draws m σ) (hle : k ≤ m) :
    P.Draws k σ :=
  fun i hi => h i (Nat.lt_of_lt_of_le hi hle)

/-- What solves more of the plan solves less of it. -/
theorem Solved.mono {P : Plan} {k m : Nat} {cs ds : List Constraint} {σ : Assignment}
    (h : P.Solved m ds σ) (hle : k ≤ m) (hsub : ∀ c ∈ cs, c ∈ ds) : P.Solved k cs σ :=
  ⟨h.1.mono hle, fun c hc => h.2 c (hsub c hc)⟩

/-- One variable more takes one value more. -/
theorem draws_succ {P : Plan} {k : Nat} {σ : Assignment} :
    P.Draws (k + 1) σ ↔ P.Draws k σ ∧ σ (P.handle k) ∈ P.domain k := by
  constructor
  · exact fun h => ⟨h.mono (Nat.le_succ k), h k (Nat.lt_succ_self k)⟩
  · rintro ⟨h, hk⟩ i hi
    rcases Nat.lt_succ_iff_lt_or_eq.mp hi with hlt | rfl
    · exact h i hlt
    · exact hk

/-- The variables of a store with a plan are the handles of the plan. -/
theorem mem_allVariables_iff (P : Plan) {s : Store} {k : Nat}
    (hnumber : s.number = P.number) (hcount : s.variableCount = k) {v : Variable} :
    v ∈ s.allVariables ↔ ∃ i < k, v = P.handle i := by
  rw [mem_allVariables]
  constructor
  · rintro ⟨hv, hi⟩
    refine ⟨v.index, Nat.lt_of_lt_of_eq hi hcount, ?_⟩
    rw [← Domains.eq_of_owns hv]
    exact congrArg (Variable.mk · v.index) hnumber
  · rintro ⟨i, hi, rfl⟩
    exact ⟨hnumber.symm, Nat.lt_of_lt_of_eq hi hcount.symm⟩

/-- The solutions of a store in which that many variables of a plan are declared. -/
theorem solvedBy_iff (P : Plan) {s : Store} {k : Nat} (hnumber : s.number = P.number)
    (hcount : s.variableCount = k) {σ : Assignment} :
    s.SolvedBy σ ↔ (∀ i < k, σ (P.handle i) ∈ s.domains.get (P.handle i)) ∧
      ∀ c ∈ s.constraints.toList, c.holds σ = true := by
  refine and_congr_left fun _ => ?_
  constructor
  · exact fun h i hi => h _ ((P.mem_allVariables_iff hnumber hcount).mpr ⟨i, hi, rfl⟩)
  · intro h v hv
    obtain ⟨i, hi, rfl⟩ := (P.mem_allVariables_iff hnumber hcount).mp hv
    exact h i hi

end Plan

/-- Bounds with a value between them are accepted. -/
theorem Domain.ofBounds?_of_mem {lower upper x : Int} (h : x ∈ between lower upper) :
    ofBounds? lower upper = .ok (between lower upper) := by
  rw [ofBounds?, if_neg]
  exact fun hempty => isEmpty_iff.mp hempty x h

/-- Values of which one is in the range are accepted. -/
theorem Domain.ofValues?_of_mem {values : List Int} {x : Int} (h : x ∈ ofValues values) :
    ofValues? values = .ok (ofValues values) := by
  rw [ofValues?, if_neg]
  exact fun hempty => isEmpty_iff.mp hempty x h

/-- A name that is neither reserved nor given is available. -/
theorem Names.check_ok {names : Names} {name : String} (hreserved : isReserved name = false)
    (hfresh : some name ∉ names.given.toList) : names.check name = .ok () := by
  have hnone : names.find? name = none := by
    rw [find?, Array.findIdx?_eq_none_iff]
    intro other hother
    rw [beq_eq_false_iff_ne]
    rintro rfl
    exact hfresh (Array.mem_toList_iff.mpr hother)
  rw [check, hreserved, hnone]
  rfl

namespace Store

variable {s t : Store} {d : Domain} {name : Option String}

/-- The variable that is declared next. -/
def nextVariable (s : Store) : Variable := ⟨s.number, s.variableCount⟩

/-! ## One more variable -/

/-- The store with one more variable, which no constraint refers to yet. -/
structure Opened (s : Store) (name : Option String) (d : Domain) (t : Store) : Prop where
  fixpoint : AtFixpoint .stable t
  root : t.depth = 0
  number : t.number = s.number
  count : t.variableCount = s.variableCount + 1
  names : t.names = s.names.add name
  constraints : t.constraints = s.constraints
  unwatched : t.watcherCount s.nextVariable = 0
  current : t.domains.get s.nextVariable = d
  same : ∀ v ∈ s.allVariables, t.domains.get v = s.domains.get v

/-- At the root a variable with an available name can be declared. -/
theorem declare_ok (hname : ∀ n, name = some n → s.names.check n = .ok ()) (hroot : s.depth = 0) :
    s.declare d name = (.ok s.nextVariable, s.grown d name) := by
  cases name with
  | none =>
      simp only [declare, hroot, ne_eq, not_true_eq_false, if_false]
      rfl
  | some n =>
      simp only [declare, hname n rfl, hroot, ne_eq, not_true_eq_false, if_false]
      rfl

/-- **A DECLARATION** at the root opens a variable. -/
theorem opened_grown (hs : AtFixpoint .stable s) (hroot : s.depth = 0) (hd : ∃ x, x ∈ d)
    (name : Option String) : Opened s name d (s.grown d name) := by
  have hpropagable : (s.grown d name).Propagable := by
    intro c hc
    refine Criterion.suits_congr (fun v hv => ?_) (hs.propagable c hc)
    exact (get_grown (hs.wired.declared c hc v hv)).symm
  refine ⟨⟨⟨hs.failure, coherent_grown hs.coherent hs.wired hd name, wired_grown hs.wired d name,
    hs.numbered, hpropagable, Domains.stamped_push hs.stamped hroot d⟩, hs.idle⟩, hroot, rfl,
    Array.size_push _, rfl, rfl, ?_, ?_, fun v hv => get_grown hv⟩
  · have hindex : s.nextVariable.index = s.watchers.size := hs.wired.watchers.symm
    simp [watcherCount, grown, hindex]
  · exact (s.domains.get_push d s.nextVariable).trans (if_pos rfl)

/-- **AN EXTENSION** of this variable gives it more values. -/
theorem Opened.extendDomain (h : Opened s name d t) {lower upper x : Int}
    (hx : x ∈ Domain.between lower upper) :
    ∃ u, t.extendDomain s.nextVariable lower upper = (.ok (), u) ∧
      Opened s name (d ∪ Domain.between lower upper) u := by
  have hmem : s.nextVariable ∈ t.allVariables := by
    refine mem_allVariables.mpr ⟨h.number.symm, ?_⟩
    change s.variableCount < t.variableCount
    rw [h.count]
    exact Nat.lt_succ_self _
  have howns : t.domains.Owns s.nextVariable := (mem_allVariables.mp hmem).1
  have hsucc : t.extendDomain s.nextVariable lower upper =
      (.ok (), { t with domains := t.domains.extend s.nextVariable (.between lower upper) }) := by
    rw [Store.extendDomain]
    simp [owns_of_mem hmem, h.unwatched, Domain.ofBounds?_of_mem hx, h.root]
  -- the constraints do not refer to the new variable, so they find their domains as they were
  have hother : ∀ v ∈ t.allVariables, v ≠ s.nextVariable →
      (t.domains.extend s.nextVariable (.between lower upper)).get v = t.domains.get v :=
    fun v hv hne => (get_extended howns hv).trans (if_neg hne)
  refine ⟨_, hsucc, ?_⟩
  have hfix := h.fixpoint
  refine ⟨⟨⟨hfix.failure, coherent_extended hfix.coherent hfix.wired howns h.unwatched,
    wired_extended hfix.wired, hfix.numbered, fun c hc => ?_,
    Domains.stamped_extend hfix.stamped h.root ..⟩, hfix.idle⟩, h.root, h.number, ?_, h.names,
    h.constraints, h.unwatched, ?_, fun v hv => ?_⟩
  · refine Criterion.suits_congr (fun v hv => ?_) (hfix.propagable c hc)
    refine (hother v (hfix.wired.declared c hc v hv) ?_).symm
    rintro rfl
    obtain ⟨i, hi⟩ := List.mem_iff_getElem?.mp hc
    rw [Array.getElem?_toList] at hi
    exact not_occurs_of_watcherCount hfix.wired h.unwatched hi hv
  · exact Array.size_modify.trans h.count
  · refine ((get_extended howns hmem).trans (if_pos rfl)).trans ?_
    rw [h.current]
  · have hlt := (mem_allVariables.mp hv).2
    have hmem' : v ∈ t.allVariables := by
      refine mem_allVariables.mpr ⟨(mem_allVariables.mp hv).1.trans h.number.symm, ?_⟩
      exact Nat.lt_of_lt_of_eq (Nat.lt_succ_of_lt hlt) h.count.symm
    refine (hother v hmem' ?_).trans (h.same v hv)
    rintro rfl
    exact Nat.lt_irrefl _ hlt

/-! ## Stages -/

/-- **A STAGE** of a plan: the first variables have been declared and some constraints
    imposed. -/
structure Stage (P : Plan) (k : Nat) (cs : List Constraint) (s : Store) : Prop where
  fixpoint : AtFixpoint .stable s
  root : s.depth = 0
  number : s.number = P.number
  count : s.variableCount = k
  named : s.names.given.toList = (List.range k).map P.label
  constraints : s.constraints.toList = cs
  shrinks : ∀ i < k, s.domains.get (P.handle i) ≤ P.domain i
  /-- The solutions are those of what has been declared and imposed. -/
  solved : ∀ σ, s.SolvedBy σ ↔ P.Solved k cs σ

namespace Stage

variable {P : Plan} {k : Nat} {cs : List Constraint} {c : Constraint}

theorem mem_allVariables_iff (h : Stage P k cs s) {v : Variable} :
    v ∈ s.allVariables ↔ ∃ i < k, v = P.handle i :=
  P.mem_allVariables_iff h.number h.count

/-- The next variable is the next one of the plan. -/
theorem nextVariable_eq (h : Stage P k cs s) : s.nextVariable = P.handle k := by
  rw [nextVariable, h.number, h.count]
  rfl

/-- The empty store has not begun with its plan. -/
theorem empty (P : Plan) (listensTo : Option Level) :
    Stage P 0 [] (.empty P.number listensTo) := by
  have hdeclared := Declared.empty P.number listensTo
  have hblank := hdeclared.blank
  have hnothing : ∀ c, c ∉ (Store.empty P.number listensTo).constraints.toList := by
    simp [hblank.constraints]
  refine ⟨⟨⟨rfl, hblank.coherent .stable, hblank.wired, Nat.zero_le _,
    fun c hc => absurd hc (hnothing c), Domains.stamped_empty P.number⟩, ?_⟩, rfl, rfl, rfl, ?_,
    rfl, fun i hi => absurd hi (Nat.not_lt_zero i), fun σ => ?_⟩
  · exact Agenda.toList_empty
  · simp [Store.empty, Names.empty]
  · refine ⟨fun _ => ⟨fun i hi => absurd hi (Nat.not_lt_zero i),
        fun c hc => absurd hc List.not_mem_nil⟩,
      fun _ => ⟨fun v hv => ?_, fun c hc => absurd hc (hnothing c)⟩⟩
    exact absurd (mem_allVariables.mp hv).2 (Nat.not_lt_zero _)

/-- The name that is planned for the next variable is available. -/
theorem check_ok (h : Stage P k cs s) {name : String} (hlabel : P.label k = some name) :
    s.names.check name = .ok () := by
  refine Names.check_ok (P.unreserved hlabel) fun hmem => ?_
  rw [h.named] at hmem
  obtain ⟨i, hi, hname⟩ := List.mem_map.mp hmem
  exact absurd (P.distinct hname hlabel) (Nat.ne_of_lt (List.mem_range.mp hi))

/-- The names are given as they are planned. -/
theorem given_eq (h : Stage P k cs s) {i : Nat} (hi : i < k) :
    s.names.given[i]? = some (P.label i) := by
  rw [← Array.getElem?_toList, h.named, List.getElem?_map, List.getElem?_range hi, Option.map_some]

/-- The variables have the names that are planned. -/
theorem name_eq (h : Stage P k cs s) {i : Nat} (hi : i < k) {name : String}
    (hlabel : P.label i = some name) : s.name (P.handle i) = name := by
  change s.names.get i = name
  rw [Names.get, h.given_eq hi, hlabel]
  rfl

/-- A variable is found under the name that is planned for it. -/
theorem lookup_eq (h : Stage P k cs s) {i : Nat} (hi : i < k) {name : String}
    (hlabel : P.label i = some name) : s.lookup name = .ok (P.handle i) := by
  have hfind : s.names.find? name = some i := by
    obtain ⟨hsize, hgiven⟩ := Array.getElem?_eq_some_iff.mp (h.given_eq hi)
    refine Array.findIdx?_eq_some_iff_getElem.mpr ⟨hsize, ?_, fun j hji heq => ?_⟩
    · rw [hgiven, hlabel]
      exact beq_self_eq_true _
    · -- no variable before it has the name
      have hj := (Array.getElem?_eq_some_iff.mp (h.given_eq (Nat.lt_trans hji hi))).2
      rw [hj, beq_iff_eq] at heq
      exact absurd (P.distinct heq hlabel) (Nat.ne_of_lt hji)
  rw [lookup, hfind, h.number]
  rfl

/-- **THE NEXT VARIABLE** has been opened with the values that are planned. -/
theorem opened (h : Stage P k cs s) (ht : Opened s (P.label k) (P.domain k) t) :
    Stage P (k + 1) cs t := by
  have hsame : ∀ i < k, t.domains.get (P.handle i) = s.domains.get (P.handle i) :=
    fun i hi => ht.same _ (h.mem_allVariables_iff.mpr ⟨i, hi, rfl⟩)
  have hcurrent : t.domains.get (P.handle k) = P.domain k := by
    rw [← h.nextVariable_eq]
    exact ht.current
  have hcs : t.constraints.toList = cs := by rw [ht.constraints, h.constraints]
  have hnumber : t.number = P.number := ht.number.trans h.number
  have hcount : t.variableCount = k + 1 := by rw [ht.count, h.count]
  refine ⟨ht.fixpoint, ht.root, hnumber, hcount, ?_, hcs, fun i hi => ?_, fun σ => ?_⟩
  · rw [ht.names, Names.add, Array.toList_push, h.named, List.range_succ, List.map_append,
      List.map_singleton]
  · rcases Nat.lt_succ_iff_lt_or_eq.mp hi with hlt | rfl
    · rw [hsame i hlt]
      exact h.shrinks i hlt
    · exact hcurrent.le
  · -- the new variable has all its values, and the others have kept theirs
    have hbefore := (P.solvedBy_iff h.number h.count).symm.trans (h.solved σ)
    rw [h.constraints] at hbefore
    rw [P.solvedBy_iff hnumber hcount, hcs, Plan.Solved, Plan.draws_succ, and_right_comm,
      ← Plan.Solved, ← hbefore,
      and_right_comm]
    refine and_congr_left fun _ => ?_
    constructor
    · intro hdraw
      refine ⟨fun i hi => ?_, hcurrent ▸ hdraw k (Nat.lt_succ_self k)⟩
      rw [← hsame i hi]
      exact hdraw i (Nat.lt_succ_of_lt hi)
    · rintro ⟨hdraw, hk⟩ i hi
      rcases Nat.lt_succ_iff_lt_or_eq.mp hi with hlt | rfl
      · rw [hsame i hlt]
        exact hdraw i hlt
      · rwa [hcurrent]

/-- The store with a new constraint on its agenda. -/
theorem enter (h : Stage P k cs s) (hc : P.Admits k c)
    (hroom : cs.length < ConstraintId.limit) :
    Healthy .stable (s.enter c).2 ∧ (s.enter c).2.constraints.toList = cs ++ [c] := by
  have hfix := h.fixpoint
  have hcs : (s.enter c).2.constraints.toList = cs ++ [c] := by
    rw [enter_eq, Array.toList_push, h.constraints]
  have hdeclared : ∀ v ∈ c.occurrences, v ∈ s.allVariables := fun v hv =>
    h.mem_allVariables_iff.mpr (hc.declared v hv)
  refine ⟨⟨hfix.failure, coherent_enter hfix.coherent c, wired_enter hfix.wired hdeclared, ?_,
    fun d hd => ?_, hfix.stamped⟩, hcs⟩
  · have hsize := congrArg List.length hcs
    rw [Array.length_toList, List.length_append, List.length_singleton] at hsize
    rw [Numbered, constraintCount, hsize]
    exact hroom
  · rw [hcs] at hd
    rcases List.mem_append.mp hd with hd | hd
    · exact hfix.propagable d (h.constraints ▸ hd)
    · obtain rfl := List.mem_singleton.mp hd
      refine ⟨hfix.inhabited.mono hdeclared, fun b hb x hx => ?_, hc.negatable⟩
      obtain ⟨i, hi, rfl⟩ := hc.declared b (flags_subset_occurrences d b hb)
      exact hc.boolean _ hb x (h.shrinks i hi x hx)

/-- **ONE MORE CONSTRAINT** is imposed, or the plan has no solution with it. -/
theorem impose (h : Stage P k cs s) (hc : P.Admits k c) (hroom : cs.length < ConstraintId.limit) :
    (∃ id t, s.impose c = (.ok id, t) ∧ Stage P k (cs ++ [c]) t) ∨
      (∃ id t, s.impose c = (.error (.refused (.modelInconsistent id)), t)) ∧
        ∀ σ, ¬ P.Solved k (cs ++ [c]) σ := by
  obtain ⟨hhealthy, hcs⟩ := h.enter hc hroom
  have himp : s.impose c = _ := impose_eq h.fixpoint.failure
    (fun v hv => h.mem_allVariables_iff.mpr (hc.declared v hv)) h.root
  -- the entered store has the old domains
  have hentered : ∀ σ, (s.enter c).2.SolvedBy σ ↔ P.Solved k (cs ++ [c]) σ := by
    intro σ
    have hbefore := h.solved σ
    rw [SolvedBy, Solves, h.constraints, Plan.Solved] at hbefore
    rw [SolvedBy, Solves, hcs, Plan.Solved]
    simp only [List.forall_mem_append, ← and_assoc]
    exact and_congr_left fun _ => hbefore
  cases hprop : (s.enter c).2.propagate with
  | mk result t =>
      rw [hprop] at himp
      cases result with
      | ok _ =>
          obtain ⟨hfix, hev, hkept⟩ := hhealthy.propagate_ok hprop
          refine Or.inl ⟨_, _, himp, ?_⟩
          refine ⟨hfix, hev.retraces.depth.trans h.root, hev.number.trans h.number, ?_, ?_,
            ?_, fun i hi => ?_, fun σ => (hkept σ).trans (hentered σ)⟩
          · exact hev.shape.2.trans h.count
          · rw [hev.names]
            exact h.named
          · rw [hev.constraints, hcs]
          · exact le_trans (hev.shrinks _) (h.shrinks i hi)
      | error why =>
          refine Or.inr ⟨⟨_, _, himp⟩, fun σ hσ => ?_⟩
          exact hhealthy.propagate_error hprop σ ((hentered σ).mpr hσ)

/-- Every constraint suits the present domains, and there is nothing left to prune. -/
theorem stable (h : Stage P k cs s) (hc : c ∈ cs) :
    Suits s.domains.get c ∧ Stable c s.domains := by
  have hmem : c ∈ s.constraints.toList := h.constraints.symm ▸ hc
  exact ⟨h.fixpoint.propagable c hmem, (h.fixpoint.coherent.resting h.fixpoint.idle).met c hmem⟩

/-- A variable for which a single value is planned is fixed to it. -/
theorem fixed (h : Stage P k cs s) {i : Nat} (hi : i < k) {value : Int}
    (honly : ∀ x ∈ P.domain i, x = value) :
    (s.domains.get (P.handle i)).fixedValue? = some value := by
  obtain ⟨x, hx⟩ := h.fixpoint.inhabited _ (h.mem_allVariables_iff.mpr ⟨i, hi, rfl⟩)
  have hall : ∀ y ∈ s.domains.get (P.handle i), y = value := fun y hy =>
    honly y (h.shrinks i hi y hy)
  exact Domain.fixedValue?_eq_some.mpr ⟨hall x hx ▸ hx, hall⟩

/-- What is told to the journal does not matter. -/
theorem note (h : Stage P k cs s) (e : Event) : Stage P k cs (s.note e) :=
  ⟨⟨h.fixpoint.toHealthy.note e, h.fixpoint.idle⟩, h.root, h.number, h.count, h.named,
    h.constraints, h.shrinks, h.solved⟩

end Stage

end Store

end ConstraintSolver
