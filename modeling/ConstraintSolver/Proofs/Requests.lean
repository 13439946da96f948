import ConstraintSolver.Proofs.Drafting
import ConstraintSolver.Proofs.Watching

/-! # Requests — what is refused changes nothing

    Everything that a program can ask of a store is a request, and what it
    hears is a reply (`Request.perform`).  A request may meet an obstacle: the
    bounds admit no value, the name is taken, a variable somewhere in a
    constraint belongs to another store, and so on (`Obstacle`).

    The checks come in different orders, and some of them after a domain has
    been built or a scope collected.  In every case a request that meets an
    obstacle hears of an obstacle, and leaves the whole store as it was; and
    one that meets none hears of a model error only if propagation of a new
    constraint fails (`Request.verdict`).  So a program may leave out the
    requests that will be refused (`run_of_spared`). -/

namespace ConstraintSolver

/-! ## Variables at any depth -/

namespace Constraint

/-- The variable stands somewhere in the tree, at whatever depth. -/
inductive Mentions : Constraint → Variable → Prop
  | compared {x : Variable} {relation : EqualityRelation} {rhs : Term} :
      Mentions (.equality x relation rhs) x
  | comparedTo {x y : Variable} {relation : EqualityRelation} :
      Mentions (.equality x relation (.variable y)) y
  | ordered {x : Variable} {relation : OrderRelation} {rhs : Term} :
      Mentions (.ordering x relation rhs) x
  | orderedTo {x y : Variable} {relation : OrderRelation} :
      Mentions (.ordering x relation (.variable y)) y
  | summand {x z : Variable} {offset : Int} {relation : EqualityRelation} :
      Mentions (.linear x offset relation z) x
  | sum {x z : Variable} {offset : Int} {relation : EqualityRelation} :
      Mentions (.linear x offset relation z) z
  | index {index rhs : Variable} {array : List Variable} {first : Int} :
      Mentions (.element index array rhs first) index
  | entry {index rhs v : Variable} {array : List Variable} {first : Int} (listed : v ∈ array) :
      Mentions (.element index array rhs first) v
  | selected {index rhs : Variable} {array : List Variable} {first : Int} :
      Mentions (.element index array rhs first) rhs
  | flag {body : Constraint} {flag : Variable} : Mentions (.reified body flag) flag
  | body {body : Constraint} {flag v : Variable} :
      Mentions body v → Mentions (.reified body flag) v
  | conjunct {operands : List Constraint} {c : Constraint} {v : Variable} (operand : c ∈ operands) :
      Mentions c v → Mentions (.and operands) v
  | disjunct {operands : List Constraint} {c : Constraint} {v : Variable} (operand : c ∈ operands) :
      Mentions c v → Mentions (.or operands) v
  | alternative {operands : List Constraint} {c : Constraint} {v : Variable}
      (operand : c ∈ operands) : Mentions c v → Mentions (.xor operands) v
  | antecedent {antecedent consequent : Constraint} {v : Variable} :
      Mentions antecedent v → Mentions (.ifThen antecedent consequent) v
  | consequent {antecedent consequent : Constraint} {v : Variable} :
      Mentions consequent v → Mentions (.ifThen antecedent consequent) v
  | negated {operand : Constraint} {v : Variable} : Mentions operand v → Mentions (.not operand) v

variable {c : Constraint} {v : Variable}

/-- A variable that a tree mentions occurs in it. -/
theorem Mentions.occurs (h : c.Mentions v) : v ∈ c.occurrences := by
  induction h with
  | @compared _ _ rhs => cases rhs <;> exact List.mem_cons_self
  | comparedTo => exact List.mem_cons_of_mem _ List.mem_cons_self
  | @ordered _ _ rhs => cases rhs <;> exact List.mem_cons_self
  | orderedTo => exact List.mem_cons_of_mem _ List.mem_cons_self
  | summand => exact List.mem_cons_self
  | sum => exact List.mem_cons_of_mem _ List.mem_cons_self
  | index => exact List.mem_cons_self
  | entry listed => exact List.mem_cons_of_mem _ (List.mem_append_left _ listed)
  | selected => exact List.mem_cons_of_mem _ (List.mem_append_right _ List.mem_cons_self)
  | flag => exact List.mem_append_right _ List.mem_cons_self
  | body _ ih => exact List.mem_append_left _ ih
  | conjunct operand _ ih | disjunct operand _ ih | alternative operand _ ih =>
      exact occurs_of_operand operand ih
  | antecedent _ ih => exact List.mem_append_left _ ih
  | consequent _ ih => exact List.mem_append_right _ ih
  | negated _ ih => exact ih

/-- What occurs in operands occurs in one of them. -/
theorem exists_operand {cs : List Constraint} (h : v ∈ occurrencesAll cs) :
    ∃ c ∈ cs, v ∈ c.occurrences := by
  rw [occurrencesAll_eq_flatMap] at h
  exact List.mem_flatMap.mp h

/-- A variable that occurs in a tree is mentioned there. -/
theorem mentions_of_occurs (c : Constraint) : ∀ v ∈ c.occurrences, c.Mentions v := by
  induction c using treeInduction with
  | equality x relation rhs =>
      rcases rhs with y | value
      · exact List.forall_mem_cons.mpr ⟨.compared, List.forall_mem_singleton.mpr .comparedTo⟩
      · exact List.forall_mem_singleton.mpr .compared
  | ordering x relation rhs =>
      rcases rhs with y | value
      · exact List.forall_mem_cons.mpr ⟨.ordered, List.forall_mem_singleton.mpr .orderedTo⟩
      · exact List.forall_mem_singleton.mpr .ordered
  | linear x offset relation z =>
      exact List.forall_mem_cons.mpr ⟨.summand, List.forall_mem_singleton.mpr .sum⟩
  | element index array rhs first =>
      refine List.forall_mem_cons.mpr ⟨.index, List.forall_mem_append.mpr
        ⟨fun v hv => .entry hv, List.forall_mem_singleton.mpr .selected⟩⟩
  | reified body flag ih =>
      exact List.forall_mem_append.mpr
        ⟨fun v hv => .body (ih v hv), List.forall_mem_singleton.mpr .flag⟩
  | and operands ih =>
      intro v hv
      obtain ⟨c, hc, hv⟩ := exists_operand hv
      exact .conjunct hc (ih c hc v hv)
  | or operands ih =>
      intro v hv
      obtain ⟨c, hc, hv⟩ := exists_operand hv
      exact .disjunct hc (ih c hc v hv)
  | xor operands ih =>
      intro v hv
      obtain ⟨c, hc, hv⟩ := exists_operand hv
      exact .alternative hc (ih c hc v hv)
  | ifThen antecedent consequent iha ihc =>
      exact List.forall_mem_append.mpr
        ⟨fun v hv => .antecedent (iha v hv), fun v hv => .consequent (ihc v hv)⟩
  | not operand ih => exact fun v hv => .negated (ih v hv)

/-- **THE SCOPE** of a constraint holds the variables that it mentions, and no others. -/
theorem mem_scope_iff_mentions : v ∈ c.scope ↔ c.Mentions v :=
  Store.mem_scope.trans ⟨c.mentions_of_occurs v, Mentions.occurs⟩

end Constraint

/-- A name is reserved, or taken, or available. -/
theorem Names.check_cases (names : Names) (n : String) :
    (Names.isReserved n = true ∧ names.check n = .error (.reserved n)) ∨
      (some n ∈ names.given.toList ∧ names.check n = .error (.duplicate n)) ∨
      (Names.isReserved n = false ∧ some n ∉ names.given.toList ∧ names.check n = .ok ()) := by
  cases hreserved : Names.isReserved n with
  | true => exact Or.inl ⟨rfl, by rw [Names.check, if_pos hreserved]⟩
  | false =>
      by_cases htaken : some n ∈ names.given.toList
      · refine Or.inr (Or.inl ⟨htaken, ?_⟩)
        have hfound : (names.find? n).isSome = true := by
          rw [Names.find?, Array.findIdx?_isSome]
          exact Array.any_eq_true'.mpr ⟨some n, Array.mem_toList_iff.mp htaken, beq_self_eq_true _⟩
        rw [Names.check, if_neg (by simp [hreserved]), if_pos hfound]
      · exact Or.inr (Or.inr ⟨rfl, htaken, Names.check_ok hreserved htaken⟩)

/-- No domain is built from bounds without a value between them. -/
theorem Domain.ofBounds?_of_empty {lower upper : Int}
    (h : ∀ x, InRange x → ¬ (lower ≤ x ∧ x ≤ upper)) :
    ofBounds? lower upper = .error (.invalidBounds lower upper) :=
  if_pos (isEmpty_iff.mpr fun x hx => h x (mem_between.mp hx).1 (mem_between.mp hx).2)

/-- Values outside the range are as good as none. -/
theorem Domain.ofValues?_of_empty {values : List Int} (h : ∀ x ∈ values, ¬ InRange x) :
    ofValues? values = .error .emptyValueSet :=
  if_pos (isEmpty_iff.mpr fun x hx => h x (mem_ofValues.mp hx).2 (mem_ofValues.mp hx).1)

namespace Store

/-! ## Requests and replies -/

/-- What can be asked of a store. -/
inductive Request : Type 1
  | newInteger (lower upper : Int) (name : Option String)
  | newSparse (values : List Int) (name : Option String)
  | newBoolean (name : Option String)
  | extendDomain (v : Variable) (lower upper : Int)
  | impose (c : Constraint)
  | assign (v : Variable) (value : Int)
  | removeValue (v : Variable) (value : Int)
  | setLowerBound (v : Variable) (bound : Int)
  | setUpperBound (v : Variable) (bound : Int)
  | propagate
  | snapshot
  | restore (saved : Snapshot)
  /-- A search is to begin. -/
  | search {ρ τ : Type} (goal : SearchGoal) (random : ρ) (termination : τ)

/-- What a store answers. -/
inductive Reply
  | declared (v : Variable)
  | imposed (id : ConstraintId)
  | saved (saved : Snapshot)
  | done
  /-- A search has the store in its hands. -/
  | begun
  /-- The model cannot be built like this. -/
  | refused (error : ModelError)
  /-- The update cannot be made. -/
  | rejected (error : UpdateError)
  /-- Propagation fails. -/
  | inconsistent (why : Inconsistency)
  /-- A rule of use is broken. -/
  | broken (rule : Misuse)
  deriving DecidableEq

namespace Reply

/-- The reply to a request which may fail with a model error. -/
def ofModel {α : Type} (reply : α → Reply) : Except (Failure ModelError) α → Reply
  | .ok a => reply a
  | .error (.refused error) => refused error
  | .error (.misuse rule) => broken rule

/-- The reply to an update. -/
def ofUpdate : Except UpdateError Unit → Reply
  | .ok () => done
  | .error error => rejected error

/-- The reply to a propagation. -/
def ofPropagation : Except Inconsistency Unit → Reply
  | .ok () => done
  | .error why => inconsistent why

variable {error : ModelError}

theorem ofUpdate_ne_refused (result : Except UpdateError Unit) :
    ofUpdate result ≠ refused error := by
  cases result <;> exact nofun

theorem ofPropagation_ne_refused (result : Except Inconsistency Unit) :
    ofPropagation result ≠ refused error := by
  cases result <;> exact nofun

end Reply

namespace Request

/-- The name, or the wish for none, if a variable is to be declared. -/
def naming? : Request → Option (Option String)
  | newInteger _ _ name => some name
  | newSparse _ name => some name
  | newBoolean name => some name
  | _ => none

/-- The variable that is to be updated. -/
def updates? : Request → Option Variable
  | assign v _ => some v
  | removeValue v _ => some v
  | setLowerBound v _ => some v
  | setUpperBound v _ => some v
  | _ => none

/-- An update is no declaration. -/
theorem naming?_of_updates {r : Request} {v : Variable} (h : r.updates? = some v) :
    r.naming? = none := by
  cases r <;> first | rfl | cases h

/-- The reply, and the store after the request.  A search that begins takes the store in its
    hands; one that is refused leaves it to the caller. -/
def perform (r : Request) (s : Store) : Reply × Store :=
  match r with
  | newInteger lower upper name =>
      Prod.map (.ofModel .declared) id (s.newInteger lower upper name)
  | newSparse values name => Prod.map (.ofModel .declared) id (s.newSparse values name)
  | newBoolean name => Prod.map (.ofModel .declared) id (s.newBoolean name)
  | extendDomain v lower upper =>
      Prod.map (.ofModel fun _ => .done) id (s.extendDomain v lower upper)
  | impose c => Prod.map (.ofModel .imposed) id (s.impose c)
  | assign v value => Prod.map .ofUpdate id (s.assign v value)
  | removeValue v value => Prod.map .ofUpdate id (s.removeValue v value)
  | setLowerBound v bound => Prod.map .ofUpdate id (s.setLowerBound v bound)
  | setUpperBound v bound => Prod.map .ofUpdate id (s.setUpperBound v bound)
  | propagate => Prod.map .ofPropagation id s.propagate
  | snapshot => Prod.map .saved id s.snapshot
  | restore saved => Prod.map (.ofModel fun _ => .done) id (s.restore saved)
  | search goal random termination =>
      match Search.start goal random termination s with
      | .ok begun => (.begun, begun.store)
      | .error (.refused error) => (.refused error, s)
      | .error (.misuse rule) => (.broken rule, s)

/-- The replies to several requests, and the store after them. -/
def run (s : Store) : List Request → List Reply × Store
  | [] => ([], s)
  | r :: rs =>
      let next := r.perform s
      let later := run next.2 rs
      (next.1 :: later.1, later.2)

end Request

/-! ## Obstacles -/

/-- What stands in the way of a request, and how the store tells it. -/
inductive Obstacle (s : Store) : Request → Reply → Prop
  | noValueBetween {lower upper : Int} {name : Option String}
      (empty : ∀ x, InRange x → ¬ (lower ≤ x ∧ x ≤ upper)) :
      Obstacle s (.newInteger lower upper name)
        (.refused (.domain (.invalidBounds lower upper)))
  | noValue {values : List Int} {name : Option String} (empty : ∀ x ∈ values, ¬ InRange x) :
      Obstacle s (.newSparse values name) (.refused (.domain .emptyValueSet))
  | reservedName {r : Request} {n : String} (asks : r.naming? = some (some n))
      (reserved : Names.isReserved n = true) :
      Obstacle s r (.refused (.naming (.reserved n)))
  | duplicateName {r : Request} {n : String} (asks : r.naming? = some (some n))
      (taken : some n ∈ s.names.given.toList) :
      Obstacle s r (.refused (.naming (.duplicate n)))
  | foreignExtended {v : Variable} {lower upper : Int} (foreign : s.owns v = false) :
      Obstacle s (.extendDomain v lower upper) (.refused .ownershipMismatch)
  | frozen {v : Variable} {lower upper : Int} (watched : s.watcherCount v ≠ 0) :
      Obstacle s (.extendDomain v lower upper) (.refused (.domainFrozen (s.name v)))
  | noExtraBetween {v : Variable} {lower upper : Int}
      (empty : ∀ x, InRange x → ¬ (lower ≤ x ∧ x ≤ upper)) :
      Obstacle s (.extendDomain v lower upper)
        (.refused (.domain (.invalidBounds lower upper)))
  | infeasible {c : Constraint} (failed : s.isFailed = true) :
      Obstacle s (.impose c) (.refused .infeasibleState)
  | foreignMentioned {c : Constraint} {v : Variable} (mentions : c.Mentions v)
      (foreign : s.owns v = false) : Obstacle s (.impose c) (.refused .ownershipMismatch)
  | foreignSnapshot {saved : Snapshot} (foreign : saved.store ≠ s.number) :
      Obstacle s (.restore saved) (.refused .ownershipMismatch)
  | foreignScope {ρ τ : Type} {goal : SearchGoal} {random : ρ} {termination : τ} {v : Variable}
      (listed : v ∈ goal.scope) (foreign : s.owns v = false) :
      Obstacle s (.search goal random termination) (.refused .ownershipMismatch)
  | foreignUpdated {r : Request} {v : Variable} (updates : r.updates? = some v)
      (foreign : s.owns v = false) : Obstacle s r (.rejected .ownershipMismatch)
  | outside {v : Variable} {value : Int} (outside : value ∉ s.domain v) :
      Obstacle s (.assign v value) (.rejected (.inconsistent .emptyDomain))
  | failedUpdated {r : Request} {v : Variable} {why : Inconsistency}
      (updates : r.updates? = some v) (failed : s.failure = some why) :
      Obstacle s r (.rejected (.inconsistent why))
  | failedPropagated {why : Inconsistency} (failed : s.failure = some why) :
      Obstacle s .propagate (.inconsistent why)

/-- **THE VERDICT** on a request. -/
inductive Verdict (s : Store) (r : Request) : Prop
  /-- There are obstacles, and the store tells one of them. -/
  | refused {given : Reply} (obstacle : Obstacle s r given) (unchanged : r.perform s = (given, s))
  /-- There is none, and a model error is about a constraint that has been entered. -/
  | admitted (free : ∀ given, ¬ Obstacle s r given)
      (entered : ∀ error, (r.perform s).1 = .refused error → ∃ id, error = .modelInconsistent id)

variable {s : Store} {r : Request} {name : Option String} {d : Domain} {v : Variable}

/-! ### Declarations -/

/-- A name that cannot be given stops the declaration. -/
theorem declare_of_error {n : String} {e : NameError} (h : s.names.check n = .error e) :
    s.declare d (some n) = (.error (.refused (.naming e)), s) := by
  rw [declare]
  simp only [h]

/-- With a name that can be given, no model error stops the declaration. -/
theorem declare_admitted (h : ∀ n, name = some n → s.names.check n = .ok ()) {error : ModelError} :
    Reply.ofModel .declared (s.declare d name).1 ≠ .refused error := by
  intro herror
  by_cases hroot : s.depth = 0
  · rw [declare_ok h hroot] at herror
    cases herror
  · cases name with
    | none =>
        rw [declare] at herror
        simp only [if_pos hroot] at herror
        cases herror
    | some n =>
        rw [declare] at herror
        simp only [h n rfl, if_pos hroot] at herror
        cases herror

/-- Nothing but its name stands in the way of a declaration whose domain can be built. -/
theorem Obstacle.of_naming {given : Reply} (h : Obstacle s r given)
    (hname : r.naming? = some name) (hbuilt : ∀ e, ¬ Obstacle s r (.refused (.domain e))) :
    ∃ n, name = some n ∧ (Names.isReserved n = true ∨ some n ∈ s.names.given.toList) := by
  cases h with
  | noValueBetween empty => exact absurd (.noValueBetween empty) (hbuilt _)
  | noValue empty => exact absurd (.noValue empty) (hbuilt _)
  | reservedName asks reserved =>
      exact ⟨_, Option.some.inj (hname.symm.trans asks), .inl reserved⟩
  | duplicateName asks taken =>
      exact ⟨_, Option.some.inj (hname.symm.trans asks), .inr taken⟩
  | foreignUpdated updates | failedUpdated updates =>
      rw [Request.naming?_of_updates updates] at hname
      cases hname
  | _ => cases hname

/-- A declaration is refused for its name, unless its values have been refused before. -/
theorem Verdict.of_declare (hname : r.naming? = some name)
    (hperform : r.perform s = Prod.map (.ofModel .declared) id (s.declare d name))
    (hbuilt : ∀ e, ¬ Obstacle s r (.refused (.domain e))) : Verdict s r := by
  by_cases hbad : ∃ n, name = some n ∧ (Names.isReserved n = true ∨ some n ∈ s.names.given.toList)
  · obtain ⟨n, rfl, hbad⟩ := hbad
    rcases s.names.check_cases n with ⟨hreserved, hcheck⟩ | ⟨htaken, hcheck⟩ |
      ⟨hreserved, htaken, _⟩
    · refine .refused (.reservedName hname hreserved) ?_
      rw [hperform, declare_of_error hcheck]
      rfl
    · refine .refused (.duplicateName hname htaken) ?_
      rw [hperform, declare_of_error hcheck]
      rfl
    · rw [hreserved] at hbad
      exact absurd hbad (not_or.mpr ⟨Bool.false_ne_true, htaken⟩)
  · have hok : ∀ n, name = some n → s.names.check n = .ok () := fun n hn =>
      Names.check_ok (Bool.eq_false_iff.mpr fun h => hbad ⟨n, hn, .inl h⟩)
        fun h => hbad ⟨n, hn, .inr h⟩
    refine .admitted (fun given h => hbad (h.of_naming hname hbuilt)) fun error herror => ?_
    rw [hperform] at herror
    exact absurd herror (declare_admitted hok)

/-- **THE VERDICT** on an interval of values: no value in the range, or a name that cannot be
    given. -/
theorem verdict_newInteger (s : Store) (lower upper : Int) (name : Option String) :
    Verdict s (.newInteger lower upper name) := by
  by_cases hempty : ∀ x, InRange x → ¬ (lower ≤ x ∧ x ≤ upper)
  · refine .refused (.noValueBetween hempty) ?_
    rw [Request.perform, newInteger, Domain.ofBounds?_of_empty hempty]
    rfl
  · push Not at hempty
    obtain ⟨x, hrange, hlower, hupper⟩ := hempty
    refine .of_declare rfl (d := Domain.between lower upper) ?_ fun e h => ?_
    · rw [Request.perform, newInteger,
        Domain.ofBounds?_of_mem (Domain.mem_between.mpr ⟨hrange, hlower, hupper⟩)]
    · cases h with
      | noValueBetween empty => exact empty x hrange ⟨hlower, hupper⟩

/-- **THE VERDICT** on a list of values: no value in the range, or a name that cannot be given. -/
theorem verdict_newSparse (s : Store) (values : List Int) (name : Option String) :
    Verdict s (.newSparse values name) := by
  by_cases hempty : ∀ x ∈ values, ¬ InRange x
  · refine .refused (.noValue hempty) ?_
    rw [Request.perform, newSparse, Domain.ofValues?_of_empty hempty]
    rfl
  · push Not at hempty
    obtain ⟨x, hx, hrange⟩ := hempty
    refine .of_declare rfl (d := Domain.ofValues values) ?_ fun e h => ?_
    · rw [Request.perform, newSparse,
        Domain.ofValues?_of_mem (Domain.mem_ofValues.mpr ⟨hrange, hx⟩)]
    · cases h with
      | noValue empty => exact empty x hx hrange

/-- **THE VERDICT** on a flag: a name that cannot be given. -/
theorem verdict_newBoolean (s : Store) (name : Option String) : Verdict s (.newBoolean name) := by
  have hbuilt : ∀ e, ¬ Obstacle s (.newBoolean name) (.refused (.domain e)) := by
    intro e h
    cases h
  by_cases hbelow : (name.isNone && s.depth != 0) = true
  · -- without a name there is nothing to be refused
    obtain rfl : name = none := Option.isNone_iff_eq_none.mp (Bool.and_eq_true_iff.mp hbelow).1
    refine .admitted (fun given h => ?_) fun error herror => ?_
    · obtain ⟨n, hn, _⟩ := h.of_naming rfl hbuilt
      cases hn
    · rw [Request.perform, newBoolean, if_pos hbelow] at herror
      cases herror
  · exact .of_declare rfl (by rw [Request.perform, newBoolean, if_neg hbelow]) hbuilt

/-! ### The other requests at the root -/

/-- **THE VERDICT** on an extension: a variable of another store, no value, or a constraint that
    refers to the variable. -/
theorem verdict_extendDomain (s : Store) (v : Variable) (lower upper : Int) :
    Verdict s (.extendDomain v lower upper) := by
  cases hforeign : s.owns v with
  | false =>
      refine .refused (.foreignExtended hforeign) ?_
      rw [Request.perform, extendDomain, if_pos (by simp [hforeign])]
      rfl
  | true =>
      have howned : ¬ (!s.owns v) = true := by simp [hforeign]
      by_cases hwatched : s.watcherCount v ≠ 0
      · refine .refused (.frozen hwatched) ?_
        rw [Request.perform, extendDomain, if_neg howned, if_pos hwatched]
        rfl
      · by_cases hempty : ∀ x, InRange x → ¬ (lower ≤ x ∧ x ≤ upper)
        · refine .refused (.noExtraBetween hempty) ?_
          rw [Request.perform, extendDomain, if_neg howned, if_neg hwatched,
            Domain.ofBounds?_of_empty hempty]
          rfl
        · refine .admitted (fun given h => ?_) fun error herror => ?_
          · cases h with
            | foreignExtended foreign => exact howned (by simp [foreign])
            | frozen watched => exact hwatched watched
            | noExtraBetween empty => exact hempty empty
            | reservedName asks | duplicateName asks => cases asks
            | foreignUpdated updates | failedUpdated updates => cases updates
          · push Not at hempty
            obtain ⟨x, hrange, hlower, hupper⟩ := hempty
            rw [Request.perform, extendDomain, if_neg howned, if_neg hwatched,
              Domain.ofBounds?_of_mem (Domain.mem_between.mpr ⟨hrange, hlower, hupper⟩)] at herror
            by_cases hroot : s.depth ≠ 0
            · simp only [if_pos hroot] at herror
              cases herror
            · simp only [if_neg hroot] at herror
              cases herror

/-- **THE VERDICT** on a constraint: a variable of another store at any depth of the tree, or a
    store which has failed. -/
theorem verdict_impose (s : Store) (c : Constraint) : Verdict s (.impose c) := by
  by_cases hfailed : s.isFailed = true
  · refine .refused (.infeasible hfailed) ?_
    rw [Request.perform, impose, if_pos hfailed]
    rfl
  · by_cases hall : ∀ v, c.Mentions v → s.owns v = true
    · have hscope : ¬ (!c.scope.all s.owns) = true := by
        simp only [Bool.not_eq_true', Bool.not_eq_false, List.all_eq_true]
        exact fun v hv => hall v (Constraint.mem_scope_iff_mentions.mp hv)
      refine .admitted (fun given h => ?_) fun error herror => ?_
      · cases h with
        | infeasible failed => exact hfailed failed
        | foreignMentioned mentions foreign =>
            rw [hall _ mentions] at foreign
            cases foreign
        | reservedName asks | duplicateName asks => cases asks
        | foreignUpdated updates | failedUpdated updates => cases updates
      · rw [Request.perform, impose, if_neg hfailed, if_neg hscope] at herror
        by_cases hroot : s.depth ≠ 0
        · rw [if_pos hroot] at herror
          cases herror
        · rw [if_neg hroot] at herror
          -- the constraint has been entered, and only propagation can fail
          simp only at herror
          split at herror
          · cases herror
          · cases herror
            exact ⟨_, rfl⟩
    · push Not at hall
      obtain ⟨v, hmentions, hforeign⟩ := hall
      refine .refused (.foreignMentioned hmentions (Bool.eq_false_iff.mpr hforeign)) ?_
      have hscope : (!c.scope.all s.owns) = true := by
        simp only [Bool.not_eq_true', List.all_eq_false]
        exact ⟨v, Constraint.mem_scope_iff_mentions.mpr hmentions, hforeign⟩
      rw [Request.perform, impose, if_neg hfailed, if_pos hscope]
      rfl

/-- **THE VERDICT** on a snapshot: it is one of another store. -/
theorem verdict_restore (s : Store) (saved : Snapshot) : Verdict s (.restore saved) := by
  by_cases hforeign : saved.store ≠ s.number
  · refine .refused (.foreignSnapshot hforeign) ?_
    rw [Request.perform, restore, if_pos hforeign]
    rfl
  · refine .admitted (fun given h => ?_) fun error herror => ?_
    · cases h with
      | foreignSnapshot foreign => exact hforeign foreign
      | reservedName asks | duplicateName asks => cases asks
      | foreignUpdated updates | failedUpdated updates => cases updates
    · by_cases hdepth : saved.depth < s.depth
      · rw [Request.perform, restore_eq (not_not.mp hforeign) hdepth] at herror
        cases herror
      · rw [Request.perform, restore_refused (not_not.mp hforeign) hdepth] at herror
        cases herror

/-- **THE VERDICT** on a search: a variable of another store is in the scope. -/
theorem verdict_search {ρ τ : Type} (s : Store) (goal : SearchGoal) (random : ρ)
    (termination : τ) : Verdict s (.search goal random termination) := by
  by_cases hall : ∀ v ∈ goal.scope, s.owns v = true
  · refine .admitted (fun given h => ?_) fun error herror => ?_
    · cases h with
      | foreignScope listed foreign =>
          rw [hall _ listed] at foreign
          cases foreign
      | reservedName asks | duplicateName asks => cases asks
      | foreignUpdated updates | failedUpdated updates => cases updates
    · have hscope : ¬ (!goal.scope.all s.owns) = true := by
        simpa only [Bool.not_eq_true', Bool.not_eq_false, List.all_eq_true] using hall
      rw [Request.perform, Search.start, if_neg hscope] at herror
      -- the only way left to be refused is a store that has failed, and a search of it begins
      simp only at herror
      split at herror
      · cases herror
      · rename_i hstart
        split at hstart
        · cases hstart
        · cases hstart
      · cases herror
  · push Not at hall
    obtain ⟨v, hlisted, hforeign⟩ := hall
    refine .refused (.foreignScope hlisted (Bool.eq_false_iff.mpr hforeign)) ?_
    have hscope : (!goal.scope.all s.owns) = true := by
      simp only [Bool.not_eq_true', List.all_eq_false]
      exact ⟨v, hlisted, hforeign⟩
    rw [Request.perform, Search.start, if_pos hscope]

/-! ### Updates and propagation -/

/-- An obstacle to an update: the variable is foreign, or the store has failed, or a value is
    to be assigned that is not in the domain. -/
theorem Obstacle.of_updates {given : Reply} (h : Obstacle s r given)
    (hupdates : r.updates? = some v) :
    s.owns v = false ∨ s.failure ≠ none ∨ ∃ value, r = .assign v value ∧ value ∉ s.domain v := by
  cases h with
  | reservedName asks | duplicateName asks =>
      rw [Request.naming?_of_updates hupdates] at asks
      cases asks
  | foreignUpdated updates foreign =>
      exact Or.inl (Option.some.inj (updates.symm.trans hupdates) ▸ foreign)
  | failedUpdated updates failed => exact Or.inr (Or.inl (failed ▸ Option.some_ne_none _))
  | @outside w value outside =>
      cases hupdates
      exact Or.inr (Or.inr ⟨value, rfl, outside⟩)
  | _ => cases hupdates

/-- An update that comes down to pruning is refused if the variable is foreign or the store
    has failed. -/
theorem Verdict.of_prune {p : Pruning} (hupdates : r.updates? = some v)
    (hperform : r.perform s = Prod.map .ofUpdate id (s.prune v p))
    (hinside : ∀ value, r = .assign v value → value ∈ s.domain v) : Verdict s r := by
  cases hforeign : s.owns v with
  | false =>
      refine .refused (.foreignUpdated hupdates hforeign) ?_
      rw [hperform, prune_of_foreign hforeign]
      rfl
  | true =>
      cases hfailed : s.failure with
      | some why =>
          refine .refused (.failedUpdated hupdates hfailed) ?_
          rw [hperform, prune_of_failed hforeign hfailed]
          rfl
      | none =>
          -- what is left of the obstacles is a value outside the domain
          refine .admitted (fun given h => ?_) fun error herror => ?_
          · rcases h.of_updates hupdates with hnot | hnot | ⟨value, hassign, houtside⟩
            · rw [hforeign] at hnot
              cases hnot
            · exact hnot hfailed
            · exact houtside (hinside value hassign)
          · rw [hperform] at herror
            exact absurd herror (Reply.ofUpdate_ne_refused _)

/-- **THE VERDICT** on an assignment: a variable of another store, a value that is not there, or a
    store which has failed. -/
theorem verdict_assign (s : Store) (v : Variable) (value : Int) : Verdict s (.assign v value) := by
  cases hforeign : s.owns v with
  | false =>
      refine .refused (.foreignUpdated rfl hforeign) ?_
      rw [Request.perform, assign, if_pos (by simp [hforeign])]
      rfl
  | true =>
      have howned : ¬ (!s.owns v) = true := by simp [hforeign]
      -- a value outside the domain is refused before the store is asked whether it has failed
      by_cases hinside : value ∈ s.domain v
      · refine .of_prune rfl (p := .exactly value) ?_ fun other hother => ?_
        · rw [Request.perform, assign, if_neg howned,
            if_neg (by simp [Domain.contains_iff.mpr hinside])]
        · cases hother
          exact hinside
      · refine .refused (.outside hinside) ?_
        have hnot : (!(s.domain v).contains value) = true := by
          rw [Bool.not_eq_true']
          exact Bool.eq_false_iff.mpr fun h => hinside (Domain.contains_iff.mp h)
        rw [Request.perform, assign, if_neg howned, if_pos hnot]
        rfl

/-- **THE VERDICT** on propagation: the store has failed. -/
theorem verdict_propagate (s : Store) : Verdict s .propagate := by
  cases hfailed : s.failure with
  | some why =>
      refine .refused (.failedPropagated hfailed) ?_
      rw [Request.perform, propagate_of_failed hfailed]
      rfl
  | none =>
      refine .admitted (fun given h => ?_) fun error herror =>
        absurd herror (Reply.ofPropagation_ne_refused _)
      cases h with
      | failedPropagated failed =>
          rw [hfailed] at failed
          cases failed
      | reservedName asks | duplicateName asks => cases asks
      | foreignUpdated updates | failedUpdated updates => cases updates

/-- Nothing stands in the way of a snapshot. -/
theorem verdict_snapshot (s : Store) : Verdict s .snapshot := by
  refine .admitted (fun given h => ?_) fun error herror => nomatch herror
  cases h with
  | reservedName asks | duplicateName asks => cases asks
  | foreignUpdated updates | failedUpdated updates => cases updates

/-- **EVERY REQUEST** meets an obstacle, is refused because of one and changes nothing, or is
    admitted. -/
theorem Request.verdict (r : Request) (s : Store) : Verdict s r := by
  cases r with
  | newInteger lower upper name => exact verdict_newInteger s lower upper name
  | newSparse values name => exact verdict_newSparse s values name
  | newBoolean name => exact verdict_newBoolean s name
  | extendDomain v lower upper => exact verdict_extendDomain s v lower upper
  | impose c => exact verdict_impose s c
  | assign v value => exact verdict_assign s v value
  | removeValue v value => exact .of_prune rfl (p := .except value) rfl nofun
  | setLowerBound v bound => exact .of_prune rfl (p := .atLeast bound) rfl nofun
  | setUpperBound v bound => exact .of_prune rfl (p := .atMost bound) rfl nofun
  | propagate => exact verdict_propagate s
  | snapshot => exact verdict_snapshot s
  | restore saved => exact verdict_restore s saved
  | search goal random termination => exact verdict_search s goal random termination

/-! ## What is refused -/

/-- What meets an obstacle changes nothing. -/
theorem Obstacle.unchanged {given : Reply} (h : Obstacle s r given) : (r.perform s).2 = s := by
  cases r.verdict s with
  | refused _ unchanged => rw [unchanged]
  | admitted free => exact absurd h (free given)

/-- The second list is the first one without some of the requests that meet an obstacle
    when it is their turn. -/
inductive Spared : Store → List Request → List Request → Prop
  | nil {s : Store} : Spared s [] []
  | kept {s : Store} {r : Request} {rs rs' : List Request} :
      Spared (r.perform s).2 rs rs' → Spared s (r :: rs) (r :: rs')
  | spared {s : Store} {r : Request} {rs rs' : List Request} {given : Reply}
      (obstacle : Obstacle s r given) : Spared s rs rs' → Spared s (r :: rs) rs'

/-- **REFUSED REQUESTS CAN BE LEFT OUT**: the store ends up the same. -/
theorem run_of_spared {rs rs' : List Request} (h : Spared s rs rs') :
    (Request.run s rs).2 = (Request.run s rs').2 := by
  induction h with
  | nil => rfl
  | kept _ ih => exact ih
  | spared obstacle _ ih =>
      rw [Request.run, obstacle.unchanged]
      exact ih

/-- **REFUSED OPERATIONS CHANGE NOTHING.** In every store and for every request: if anything
    stands in its way, the reply tells something that does, and the store with all it holds
    is the same as before; and so it is whenever the reply is a model error, unless it says
    that a constraint has been entered whose propagation failed. -/
theorem refused_changes_nothing (s : Store) (r : Request) :
    (∀ reply, Obstacle s r reply → ∃ given, Obstacle s r given ∧ r.perform s = (given, s)) ∧
      ∀ error t, r.perform s = (.refused error, t) →
        (∃ id, error = .modelInconsistent id) ∨ t = s ∧ Obstacle s r (.refused error) := by
  cases r.verdict s with
  | @refused given obstacle unchanged =>
      refine ⟨fun _ _ => ⟨given, obstacle, unchanged⟩, fun error t h => Or.inr ?_⟩
      rw [unchanged] at h
      cases h
      exact ⟨rfl, obstacle⟩
  | admitted free entered =>
      refine ⟨fun given h => absurd h (free given), fun error t h => Or.inl (entered error ?_)⟩
      rw [h]

/-- Two variables of which one has a name, and which are different. -/
def twoNumbers : Store :=
  ((((Store.empty 0 none).newInteger 0 3 (some "x")).2.newInteger 0 3 none).2.impose
    (.equality ⟨0, 0⟩ .notEqual (.variable ⟨0, 1⟩))).2

/-- A variable of another store stands in an array below three connectives. -/
def straying : Constraint :=
  .not (.or [.equality ⟨0, 0⟩ .equal (.constant 1),
    .reified (.element ⟨0, 0⟩ [⟨0, 1⟩, ⟨7, 0⟩] ⟨0, 1⟩ 1) ⟨0, 0⟩])

/-- Five requests, each with an obstacle of its own, leave the store as it is. -/
theorem refused_by_twoNumbers :
    let failed := (twoNumbers.setLowerBound ⟨0, 0⟩ 9).2
    (Request.impose straying).perform twoNumbers = (.refused .ownershipMismatch, twoNumbers) ∧
      (Request.newSparse [4] (some "x")).perform twoNumbers =
        (.refused (.naming (.duplicate "x")), twoNumbers) ∧
      (Request.extendDomain ⟨0, 1⟩ 5 9).perform twoNumbers =
        (.refused (.domainFrozen "_1"), twoNumbers) ∧
      (Request.assign ⟨0, 1⟩ 5).perform twoNumbers =
        (.rejected (.inconsistent .emptyDomain), twoNumbers) ∧
      (Request.removeValue ⟨0, 1⟩ 2).perform failed =
        (.rejected (.inconsistent .emptyDomain), failed) := by
  -- what is told identifies the obstacle, which leaves the store as it was
  have hrefused : ∀ (s : Store) (r : Request) (reply : Reply), Obstacle s r reply →
      (r.perform s).1 = reply → r.perform s = (reply, s) := by
    intro s r reply hobstacle htold
    obtain ⟨given, _, hgiven⟩ := (refused_changes_nothing s r).1 reply hobstacle
    rw [hgiven] at htold
    rw [hgiven, ← htold]
  have hstrays : straying.Mentions ⟨7, 0⟩ :=
    .negated (.disjunct (List.mem_cons_of_mem _ List.mem_cons_self)
      (.body (.entry (List.mem_cons_of_mem _ List.mem_cons_self))))
  have hfrozen : Obstacle twoNumbers (.extendDomain ⟨0, 1⟩ 5 9)
      (.refused (.domainFrozen (twoNumbers.name ⟨0, 1⟩))) := .frozen (by decide +kernel)
  have hname : twoNumbers.name ⟨0, 1⟩ = "_1" := by decide +kernel
  rw [hname] at hfrozen
  exact ⟨hrefused _ _ _ (.foreignMentioned hstrays (by decide +kernel)) (by decide +kernel),
    hrefused _ _ _ (.duplicateName rfl (by decide +kernel)) (by decide +kernel),
    hrefused _ _ _ hfrozen (by decide +kernel),
    hrefused _ _ _ (.outside (by decide +kernel)) (by decide +kernel),
    hrefused _ _ _ (.failedUpdated rfl (by decide +kernel)) (by decide +kernel)⟩

end Store

end ConstraintSolver
