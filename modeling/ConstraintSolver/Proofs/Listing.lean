import ConstraintSolver.Proofs.Completable

/-! # Listing — the search goes through the enumeration

    The enumeration goes down on states of a store and never comes back; the
    search does the same on one store, with a stack of choice points and with
    snapshots.  Both are at the same point when the stores are alike
    (`Ready`).  From there the search finds what is enumerated, in the same
    order, and then goes back (`Lists`): the choice points it has opened on
    the way are left without candidates, and undoing them leads to where it
    was.

    This is shown for a choice point, value by value (`lists_branching`), and
    with it for a state, by the number of unfixed variables (`listsBelow`).
    On the way the steps are counted (`stepsBelow`). -/

namespace ConstraintSolver

open Constraint Store

/-! ## Conditions that never stop a search -/

namespace TerminationRule

variable {τ : Type} {rule : TerminationRule τ} {x y : τ}

/-- What a condition may become when it is asked and told of decisions. -/
inductive Leads (rule : TerminationRule τ) : τ → τ → Prop
  | here (x : τ) : Leads rule x x
  | asked {x y : τ} : Leads rule (rule.shouldStop x).2 y → Leads rule x y
  | decided {x y : τ} : Leads rule (rule.decisionMade x) y → Leads rule x y

/-- The condition does not stop the search, however long it takes. -/
def NeverStops (rule : TerminationRule τ) (x : τ) : Prop :=
  ∀ y, rule.Leads x y → (rule.shouldStop y).1 = false

/-- What never stops does not stop now. -/
theorem NeverStops.now (h : rule.NeverStops x) : (rule.shouldStop x).1 = false := h x (.here x)

/-- What never stops does not do so after being asked. -/
theorem NeverStops.asked (h : rule.NeverStops x) : rule.NeverStops (rule.shouldStop x).2 :=
  fun y hy => h y (.asked hy)

/-- What never stops does not do so after a decision. -/
theorem NeverStops.decided (h : rule.NeverStops x) : rule.NeverStops (rule.decisionMade x) :=
  fun y hy => h y (.decided hy)

/-- What never stops now and is kept by asking and by decisions never stops. -/
theorem neverStops_of (P : τ → Prop) (hnow : ∀ x, P x → (rule.shouldStop x).1 = false)
    (hasked : ∀ x, P x → P (rule.shouldStop x).2) (hdecided : ∀ x, P x → P (rule.decisionMade x))
    (hx : P x) : rule.NeverStops x := by
  intro y hy
  induction hy with
  | here x => exact hnow x hx
  | asked _ ih => exact ih (hasked _ hx)
  | decided _ ih => exact ih (hdecided _ hx)

end TerminationRule

/-- Without a condition that stops it, a watched search goes on, cancelled or not. -/
theorem Watch.neverStops_indefinite (cancelled : Bool) :
    Watch.rule.NeverStops ⟨.indefinite, cancelled⟩ := by
  refine TerminationRule.neverStops_of (fun w => w.condition = .indefinite) ?_ ?_ ?_ rfl
  · intro w hw
    change w.condition.shouldStop w.cancelled = false
    rw [hw]
    rfl
  · exact fun w hw => hw
  · intro w hw
    change w.condition.decisionMade = .indefinite
    rw [hw]
    rfl

/-! ## The same choices -/

namespace Store

variable {r s t u : Store}

/-- Stores which are alike have the same variable chosen. -/
theorem Alike.choose (h : Alike r t) (choice : VariableChoice) (scope : List Variable) :
    choice.choose t scope = choice.choose r scope := by
  have howns : t.owns = r.owns := funext h.owns
  have hunfixed : ∀ vs, VariableChoice.unfixed t vs = VariableChoice.unfixed r vs := fun vs => by
    rw [VariableChoice.unfixed, VariableChoice.unfixed, howns, h.domain, h.toSameModel.number]
  have hfirst : ∀ vs, VariableChoice.firstUnfixed t vs = VariableChoice.firstUnfixed r vs := by
    intro vs
    induction vs with
    | nil => rfl
    | cons v vs ih =>
        rw [VariableChoice.firstUnfixed, VariableChoice.firstUnfixed, howns, h.domain, ih,
          h.toSameModel.number]
  have hcount : t.watcherCount = r.watcherCount := by
    funext v
    rw [Store.watcherCount, Store.watcherCount, h.watchers]
  cases choice with
  | largestDomain => rw [VariableChoice.choose, VariableChoice.choose, hunfixed, h.domain]
  | smallestDomain => rw [VariableChoice.choose, VariableChoice.choose, hunfixed, h.domain]
  | mostConstrained =>
      rw [VariableChoice.choose, VariableChoice.choose, hunfixed, h.domain, hcount]
  | inputOrder => exact hfirst scope

end Store

/-- An order of values chooses the first one. -/
theorem ValueOrder.choose_eq {ρ : Type} [RandomSource ρ] (order : ValueOrder) (d : Domain)
    (random : ρ) : order.choice.choose d random = .ok (order.first d, random) := by
  cases order <;> rfl

/-- A domain inside another one has at most as many values. -/
theorem Domain.size_mono {d e : Domain} (h : d ≤ e) : d.size ≤ e.size := by
  have hsub : d.values ⊆ e.values := fun x hx =>
    Domain.mem_values.mpr (h x (Domain.mem_values.mp hx))
  rw [← d.length_values, ← e.length_values]
  exact (List.subperm_of_subset d.nodup_values hsub).length_le

/-! ## At the same point -/

namespace Store

variable {r r' s t u : Store} {scope : List Variable} {d : Nat}

/-- The first store is a state of the recursion, and the second one is alike. No
    domain is larger than a bound. -/
structure Ready (scope : List Variable) (d : Nat) (r t : Store) : Prop where
  alike : Alike r t
  tidy : r.Tidy
  stamped : t.domains.Stamped
  owned : ∀ v ∈ scope, r.owns v = true
  inhabited : r.failure = none → ∀ v ∈ scope, ∃ x, x ∈ r.domain v
  sizes : ∀ v, (r.domain v).size ≤ d

/-- Both go on in the same way. -/
theorem Ready.evolves (h : Ready scope d r t) (hev : Evolves r r') (halike : Alike r' u)
    (htidy : r'.Tidy) (hst : u.domains.Stamped) (hkeep : KeepsValues r r')
    (hf : r.failure = none) : Ready scope d r' u := by
  refine ⟨halike, htidy, hst, fun v hv => ?_, fun _ v hv => hkeep v (h.inhabited hf v hv),
    fun v => Nat.le_trans (Domain.size_mono (hev.shrinks v)) (h.sizes v)⟩
  have hv' := h.owned v hv
  rw [owns, decide_eq_true_eq] at hv' ⊢
  exact hv'.trans hev.shape.1.symm

/-- Where the recursion propagates, the search does, and both are ready again. -/
theorem Ready.propagate_ok (h : Ready scope d r t) (hprop : r.propagate = (.ok (), r')) :
    ∃ u, t.propagate = (.ok (), u) ∧ Ready scope d r' u ∧ r'.Drained ∧ Evolves t u := by
  have hev := evolves_propagate r
  rw [hprop] at hev
  obtain ⟨u, hprop', halike⟩ := h.alike.propagate hprop
  have hev' := evolves_propagate t
  rw [hprop'] at hev'
  have hdrained := h.tidy.drained hprop
  exact ⟨u, hprop', h.evolves hev (halike rfl) hdrained.toTidy
    (hev'.retraces.stamped h.stamped) (keepsValues_propagate hprop) (Store.propagate_ok hprop).1,
    hdrained, hev'⟩

/-- A decision of the search is an assignment of the recursion. -/
theorem Ready.assign (h : Ready scope d r t) (hr : r.Drained) {v : Variable} {value : Int}
    (hv : r.owns v = true) (hmem : value ∈ r.domain v) (e : Event) :
    ∃ r' u, r.assign v value = (.ok (), r') ∧ (t.snapshot.2.note e).assign v value = (.ok (), u) ∧
      Ready scope d r' u ∧ Evolves t.snapshot.2 u := by
  have hassign : r.assign v value = (.ok (), (r.assign v value).2) :=
    Prod.ext (assign_succeeds hv hmem hr.failure) rfl
  have hev := evolves_assign r v value
  obtain ⟨u, hassign', halike⟩ := (h.alike.snapshot.note e).assign hassign
  have hev' := evolves_assign (t.snapshot.2.note e) v value
  rw [hassign'] at hev'
  have hst : u.domains.Stamped := hev'.retraces.stamped h.stamped.checkpoint
  exact ⟨_, u, hassign, hassign', h.evolves hev (halike rfl) (h.tidy.assign v value) hst
    (keepsValues_assign hassign) hr.failure, (evolves_note _ e).trans hev'⟩

/-- A check that moves nothing leaves both ready. -/
theorem Ready.unmoved (h : Ready scope d r t) (hu : Unmoved t u) (halike : Alike r u) :
    Ready scope d r u :=
  ⟨halike, h.tidy, hu.evolves.retraces.stamped h.stamped, h.owned, h.inhabited, h.sizes⟩

end Store

namespace Search

variable {ρ τ : Type}

/-! ## Runs of a search -/

/-- A number of steps, taken before the search is over, and what they find. -/
inductive Runs (policy : Policy ρ) (rule : TerminationRule τ) :
    Nat → Search ρ τ → List Solution → Search ρ τ → Prop
  | zero (s : Search ρ τ) : Runs policy rule 0 s [] s
  | step {steps : Nat} {s t u : Search ρ τ} {found : Option Solution} {xs : List Solution}
      (going : s.control.phase ≠ .exhausted) (taken : s.step policy rule = (.ok found, t))
      (patience : t.control.patience = s.control.patience)
      (rest : Runs policy rule steps t xs u) :
      Runs policy rule (steps + 1) s (found.toList ++ xs) u

variable {policy : Policy ρ} {rule : TerminationRule τ} {s t u : Search ρ τ} {m n : Nat}
  {xs ys : List Solution}

/-- Steps after steps find what the first ones find, and then what the others do. -/
theorem Runs.trans (h : Runs policy rule m s xs t) (h' : Runs policy rule n t ys u) :
    Runs policy rule (m + n) s (xs ++ ys) u := by
  induction h with
  | zero s =>
      rw [Nat.zero_add]
      exact h'
  | @step m s t v found xs going taken patience _ ih =>
      rw [Nat.add_right_comm, List.append_assoc]
      exact .step going taken patience (ih h')

/-- A step which finds nothing. -/
theorem Runs.silent (going : s.control.phase ≠ .exhausted)
    (taken : s.step policy rule = (.ok none, t))
    (patience : t.control.patience = s.control.patience) : Runs policy rule 1 s [] t :=
  .step going taken patience (.zero t)

theorem Runs.patience (h : Runs policy rule n s xs t) :
    t.control.patience = s.control.patience := by
  induction h with
  | zero s => rfl
  | step _ _ patience _ ih => exact ih.trans patience

/-! ## Listing -/

/-- What a search keeps while it goes on, apart from the solutions it counts. -/
structure Onward (rule : TerminationRule τ) (c c' : SearchControl ρ τ) (count : Nat) : Prop where
  goal : c'.goal = c.goal
  root : c'.root = c.root
  solutions : c'.statistics.solutions = c.statistics.solutions + count
  endless : rule.NeverStops c.termination → rule.NeverStops c'.termination

/-- What is kept once and again is kept. -/
theorem Onward.trans {c c' c'' : SearchControl ρ τ} (h : Onward rule c c' m)
    (h' : Onward rule c' c'' n) : Onward rule c c'' (m + n) := by
  refine ⟨h'.goal.trans h.goal, h'.root.trans h.root, ?_, fun hc => h'.endless (h.endless hc)⟩
  rw [h'.solutions, h.solutions, Nat.add_assoc]

/-- The search is for all solutions of the scope, and is never stopped. -/
structure Unbounded (rule : TerminationRule τ) (scope : List Variable) (c : SearchControl ρ τ) :
    Prop where
  goal : c.goal = ⟨scope, true, none⟩
  never : rule.NeverStops c.termination

/-- A search for everything goes on being one. -/
theorem Unbounded.onward {scope : List Variable} {c c' : SearchControl ρ τ}
    (h : Unbounded rule scope c) (honward : Onward rule c c' n) : Unbounded rule scope c' :=
  ⟨honward.goal.trans h.goal, honward.endless h.never⟩

/-- The search goes back. The choice points it has opened meanwhile are left without
    candidates, so that undoing them leads to where it was. -/
structure GoesBack (rule : TerminationRule τ) (older : List ChoicePoint) (s t : Search ρ τ)
    (count : Nat) : Prop where
  phase : t.control.phase = .backtracking
  onward : Onward rule s.control t.control count
  undoes : ∃ u, undoTrial t.store t.control.stack = undoTrial u older ∧ Evolves s.store u

/-- **LISTING**: within a number of steps the search finds these solutions in this
    order, and goes back. -/
def Lists (policy : Policy ρ) (rule : TerminationRule τ) (older : List ChoicePoint) (steps : Nat)
    (s : Search ρ τ) (xs : List Solution) : Prop :=
  ∃ n t, n ≤ steps ∧ Runs policy rule n s xs t ∧ GoesBack rule older s t xs.length

variable {older : List ChoicePoint}

/-- More steps may be allowed. -/
theorem Lists.mono (h : Lists policy rule older m s xs) (hle : m ≤ n) :
    Lists policy rule older n s xs := by
  obtain ⟨steps, t, hsteps, hruns, hback⟩ := h
  exact ⟨steps, t, Nat.le_trans hsteps hle, hruns, hback⟩

/-- What is listed after some steps. -/
theorem Lists.after (hruns : Runs policy rule m s xs t)
    (honward : Onward rule s.control t.control xs.length) (hev : Evolves s.store t.store)
    (h : Lists policy rule older n t ys) : Lists policy rule older (m + n) s (xs ++ ys) := by
  obtain ⟨steps, u, hle, hlists, hphase, honward', w, hundo, hev'⟩ := h
  refine ⟨m + steps, u, Nat.add_le_add_left hle m, hruns.trans hlists, hphase, ?_, w, hundo,
    hev.trans hev'⟩
  rw [List.length_append]
  exact honward.trans honward'

/-! ## Steps -/

variable {c : SearchControl ρ τ} {t : Store}

/-- The control after the termination condition has been asked. -/
def asked (rule : TerminationRule τ) (c : SearchControl ρ τ) : SearchControl ρ τ :=
  { c with termination := (rule.shouldStop c.termination).2 }

/-- Asking a condition changes nothing but the condition. -/
theorem onward_asked (rule : TerminationRule τ) (c : SearchControl ρ τ) :
    Onward rule c (asked rule c) 0 :=
  ⟨rfl, rfl, rfl, fun h => h.asked⟩

/-- A condition that never stops the search lets it go on. -/
theorem unlessStopped_eq (hnever : rule.NeverStops c.termination)
    (go : Search ρ τ → Except Misuse (Option Solution) × Search ρ τ) :
    unlessStopped rule ⟨c, t⟩ go = go ⟨asked rule c, t⟩ := by
  have hnow := hnever.now
  rw [unlessStopped]
  cases hstop : rule.shouldStop c.termination with
  | mk stop termination =>
      rw [hstop] at hnow
      obtain rfl : stop = false := hnow
      simp only [asked, hstop]

/-- Undoing the newest trial. -/
theorem undoTrial_of_restore {v : Variable} {remaining : Domain} {saved : Snapshot} {u : Store}
    (hrestore : t.restoreOwned saved = (.ok (), u)) :
    undoTrial t (⟨v, remaining, some saved⟩ :: older) =
      if remaining.isEmpty then undoTrial u older
      else (.ok (⟨v, remaining, none⟩ :: older), u) := by
  rw [undoTrial]
  simp only [hrestore]

/-- The control when the newest choice point is tried again. -/
def resumed (c : SearchControl ρ τ) (stack : List ChoicePoint) : SearchControl ρ τ :=
  { c with stack := stack, phase := .branching }

/-- Going back to a choice point changes nothing that is kept. -/
theorem Onward.resumed {c' : SearchControl ρ τ} (h : Onward rule c c' n)
    (stack : List ChoicePoint) : Onward rule c (resumed c' stack) n :=
  ⟨h.goal, h.root, h.solutions, h.endless⟩

/-- Where trials can be undone, a step goes back to a choice point. -/
theorem step_backtracking (policy : Policy ρ) (rule : TerminationRule τ)
    (hphase : c.phase = .backtracking) {choice : ChoicePoint} {u : Store}
    (hundo : undoTrial t c.stack = (.ok (choice :: older), u)) :
    Search.step policy rule ⟨c, t⟩ =
      (.ok none, ⟨resumed c (choice :: older), u⟩) := by
  rw [Search.step]
  simp only [hphase]
  rw [Search.backtrack, hundo]
  rfl

/-- Where propagation fails, the search turns back. -/
theorem propagate_of_error {why : Inconsistency} {u : Store}
    (h : t.propagate = (.error why, u)) :
    Search.propagate ⟨c, t⟩ = ⟨c.failed, u.note (.propagationFailed why)⟩ := by
  rw [Search.propagate, h]

/-- Where propagation succeeds, the search selects. -/
theorem propagate_of_ok {u : Store} (h : t.propagate = (.ok (), u)) :
    Search.propagate ⟨c, t⟩ = ⟨c.goTo .selecting, u⟩ := by
  rw [Search.propagate, h]

theorem step_propagating (hphase : c.phase = .propagating) {s : Search ρ τ}
    (hprop : Search.propagate ⟨c, t⟩ = s) :
    Search.step policy rule ⟨c, t⟩ = (.ok none, s) := by
  rw [Search.step]
  simp only [hphase, hprop]

theorem step_selecting (hphase : c.phase = .selecting) (hnever : rule.NeverStops c.termination) :
    Search.step policy rule ⟨c, t⟩ = Search.select policy ⟨asked rule c, t⟩ := by
  rw [Search.step]
  simp only [hphase]
  rw [unlessStopped_eq hnever]

/-- Where the scope is fixed, a store that is alike reports the same. -/
theorem report_reading {r : Store} {scope : List Variable} (h : Alike r t)
    (hgoal : c.goal = ⟨scope, true, none⟩) (hfixed : ∀ v ∈ scope, (r.domain v).isFixed = true) :
    Search.report ⟨c, t⟩ = (.ok (some (r.reading scope)),
      ⟨(counted c).goTo .backtracking,
        t.note (.solution (c.statistics.solutions + 1) (r.reading scope))⟩) := by
  have hread : readSolution t c.goal.scope = .ok (r.reading scope).entries := by
    rw [hgoal, reading, ← h.toSameModel.restriction scope]
    refine readSolution_eq fun v hv => ?_
    obtain ⟨x, hx⟩ := Option.isSome_iff_exists.mp (hfixed v hv)
    obtain ⟨hmem, honly⟩ := Domain.fixedValue?_eq_some.mp hx
    rw [h.domain, hx, honly _ (Domain.lowerBound_mem ⟨x, hmem⟩)]
  have hlimit : (counted c).limitReached = false := by
    simp only [SearchControl.limitReached, counted, hgoal]
  rw [report_eq hread, hlimit]
  simp only [hgoal, Bool.not_true, Bool.or_false, Bool.false_eq_true, if_false]

/-! ## What the search lists -/

section BuiltInChoices

variable [RandomSource ρ] {choice : VariableChoice} {order : ValueOrder} {scope : List Variable}
  {d k : Nat} {r : Store} {v : Variable}

/-- **A DECISION** goes down to the first of the candidates, and the recursion goes
    there, too. -/
theorem step_branching (hphase : c.phase = .branching) {remaining : Domain}
    (hstack : c.stack = ⟨v, remaining, none⟩ :: older) (hnever : rule.NeverStops c.termination)
    (hready : Ready scope d r t) (hr : r.Drained) (hv : r.owns v = true) {value : Int}
    {rest : List Int} (hlist : order.list remaining = value :: rest)
    (hmem : value ∈ r.domain v) :
    ∃ (r' : Store) (c' : SearchControl ρ τ) (u : Store), r.assign v value = (.ok (), r') ∧
      Search.step (.of choice order.choice) rule ⟨c, t⟩ = (.ok none, ⟨c', u⟩) ∧
      c'.phase = .propagating ∧
      c'.stack = ⟨v, remaining.prune (.except value), some t.snapshot.1⟩ :: older ∧
      c'.patience = c.patience ∧ Onward rule c c' 0 ∧
      Ready scope d r' u ∧ Evolves t.snapshot.2 u := by
  obtain ⟨r', u, hassign, hassign', hready', hev⟩ :=
    hready.assign hr hv hmem (.decision v value (older.length + 1))
  have hcandidate : value ∈ remaining := ValueOrder.mem_list.mp (hlist ▸ List.mem_cons_self)
  have hleft : remaining.isEmpty = false :=
    Bool.eq_false_iff.mpr fun hempty => Domain.isEmpty_iff.mp hempty value hcandidate
  have hchosen : (Policy.of choice order.choice : Policy ρ).chooseValue t v remaining
      (asked rule c).random = .ok (value, c.random) := by
    rw [← ValueOrder.first_of_list hlist]
    exact order.choose_eq remaining c.random
  -- the search with the first of the list tried, and the others remaining
  let c' := (decided rule (asked rule c) ⟨v, remaining, none⟩ older value t.snapshot.1).goTo
    .propagating
  have hbranch : Search.branch (.of choice order.choice) rule ⟨asked rule c, t⟩ =
      (.ok (), ⟨c', u⟩) := by
    have htries : Tries (.of choice order.choice) (asked rule c) t ⟨v, remaining, none⟩ older
        value c.random := ⟨hstack, rfl, hleft, hchosen, hcandidate⟩
    rw [htries.branch, decide_eq, hassign']
    rfl
  refine ⟨r', c', u, hassign, ?_, rfl, rfl, rfl, ⟨rfl, rfl, rfl, fun h => h.asked.decided⟩,
    hready', hev⟩
  rw [Search.step]
  simp only [hphase]
  rw [unlessStopped_eq hnever, hbranch]
  rfl

/-- The most steps that a search takes below a state, by a bound on the number of
    unfixed variables, if no domain has more than `d` values. -/
def stepsBelow (d : Nat) : Nat → Nat
  | 0 => 0
  | unfixed + 1 => 2 + d * (2 + stepsBelow d unfixed)

/-- What is to be shown of the states with less than `k` unfixed variables. -/
def ListsBelow (choice : VariableChoice) (order : ValueOrder) (rule : TerminationRule τ)
    (scope : List Variable) (d k : Nat) (ρ : Type) [RandomSource ρ] : Prop :=
  ∀ {r t : Store} {c : SearchControl ρ τ}, Ready scope d r t → r.unfixedCount < k →
    c.phase = .propagating → Unbounded rule scope c →
      Lists (.of choice order.choice) rule c.stack (stepsBelow d k) ⟨c, t⟩
        (r.enumerate choice order scope)

/-- **A TRIAL** of a value lists what is enumerated for it. Undoing it leads to the
    choice point, with the candidates that are left. -/
theorem lists_trial (hbelow : ListsBelow choice order rule scope d k ρ) (hready : Ready scope d r t)
    (hr : r.Drained) (hv : r.owns v = true) (hfree : (r.domain v).isFixed = false)
    (hcount : r.unfixedCount < k + 1) (hphase : c.phase = .branching) {remaining : Domain}
    (hstack : c.stack = ⟨v, remaining, none⟩ :: older) (hall : Unbounded rule scope c)
    {value : Int} {rest : List Int} (hlist : order.list remaining = value :: rest)
    (hmem : value ∈ r.domain v) :
    ∃ (n : Nat) (c' : SearchControl ρ τ) (t' u : Store), n ≤ 1 + stepsBelow d k ∧
      Runs (.of choice order.choice) rule n ⟨c, t⟩ (r.enumerateWith choice order scope v value)
        ⟨c', t'⟩ ∧
      c'.phase = .backtracking ∧
      Onward rule c c' (r.enumerateWith choice order scope v value).length ∧
      undoTrial t' c'.stack = undoTrial u
        (⟨v, remaining.prune (.except value), some t.snapshot.1⟩ :: older) ∧
      Evolves t.snapshot.2 u := by
  obtain ⟨r', c₁, t₁, hassign, hstep, hphase₁, hstack₁, hpatience, honward, hready', hev⟩ :=
    step_branching hphase hstack hall.never hready hr hv hlist hmem
  have hlt := unfixedCount_assign hassign hfree
  obtain ⟨n, ⟨c', t'⟩, hn, hruns, hphase', honward', u, hundo, hev'⟩ :=
    hbelow hready' (by omega) hphase₁ (hall.onward honward)
  have hgoing : c.phase ≠ .exhausted := fun h => nomatch hphase.symm.trans h
  rw [enumerateWith_of_assign hassign]
  refine ⟨1 + n, c', t', u, Nat.add_le_add_left hn 1,
    (Runs.silent hgoing hstep hpatience).trans hruns, hphase', ?_, hstack₁ ▸ hundo,
    hev.trans hev'⟩
  have hboth := honward.trans honward'
  rwa [Nat.zero_add] at hboth

/-- **A CHOICE POINT** lists what is enumerated for its candidates, one after the
    other. -/
theorem lists_branching (hbelow : ListsBelow choice order rule scope d k ρ) (hr : r.Drained)
    (hv : r.owns v = true) (hfree : (r.domain v).isFixed = false)
    (hcount : r.unfixedCount < k + 1) (values : List Int) {remaining : Domain} {t : Store}
    {c : SearchControl ρ τ} (hlist : order.list remaining = values) (hne : values ≠ [])
    (hle : remaining ≤ r.domain v) (hready : Ready scope d r t) (hphase : c.phase = .branching)
    (hstack : c.stack = ⟨v, remaining, none⟩ :: older) (hall : Unbounded rule scope c) :
    Lists (.of choice order.choice) rule older (values.length * (2 + stepsBelow d k)) ⟨c, t⟩
      (values.flatMap (r.enumerateWith choice order scope v)) := by
  -- on the values that are left; the trial of each of them is undone before the next
  induction values generalizing remaining t c with
  | nil => exact absurd rfl hne
  | cons value rest ih =>
      have hmem : value ∈ r.domain v :=
        hle _ (ValueOrder.mem_list.mp (hlist ▸ List.mem_cons_self))
      obtain ⟨n, c', t', u, hn, hruns, hphase', honward, hundo, hev⟩ :=
        lists_trial hbelow hready hr hv hfree hcount hphase hstack hall hlist hmem
      obtain ⟨w, hrestore, hunmoved, halike⟩ := hready.alike.restore hr hready.stamped hev
      have hrest : order.list (remaining.prune (.except value)) = rest :=
        ValueOrder.list_except hlist
      rw [undoTrial_of_restore hrestore] at hundo
      rw [List.flatMap_cons]
      cases rest with
      | nil =>
          rw [if_pos (order.isEmpty_iff.mpr hrest)] at hundo
          rw [List.flatMap_nil, List.append_nil]
          refine ⟨n, ⟨c', t'⟩, ?_, hruns, hphase', honward, w, hundo, hunmoved.evolves⟩
          rw [List.length_singleton]
          omega
      | cons next rest =>
          rw [if_neg fun hempty => List.cons_ne_nil _ _ (hrest.symm.trans
            (order.isEmpty_iff.mp hempty))] at hundo
          -- the next candidate is tried in the store as it was
          have hback := step_backtracking (.of choice order.choice) rule hphase' hundo
          have hgoing : c'.phase ≠ .exhausted := fun h => nomatch hphase'.symm.trans h
          have hup := hruns.trans (Runs.silent hgoing hback rfl)
          rw [List.append_nil] at hup
          have honward' := honward.resumed
            (⟨v, remaining.prune (.except value), none⟩ :: older)
          have hlists := ih hrest (List.cons_ne_nil _ _) ((Domain.prune_le _ _).trans hle)
            (hready.unmoved hunmoved halike) rfl rfl (hall.onward honward')
          refine (hlists.after hup honward' hunmoved.evolves).mono ?_
          have hadd : (value :: next :: rest).length * (2 + stepsBelow d k) =
              (next :: rest).length * (2 + stepsBelow d k) + (2 + stepsBelow d k) :=
            Nat.succ_mul _ _
          omega

/-- Where the scope is fixed, its assignment is found if it can be completed, and
    nothing otherwise. -/
theorem lists_fixed (hready : Ready scope d r t) (hr : r.Drained)
    (hnone : choice.choose r scope = .ok none)
    (hfixed : ∀ v ∈ scope, (r.domain v).isFixed = true) (hphase : c.phase = .selecting)
    (hall : Unbounded rule scope c) :
    Lists (.of choice order.choice) rule c.stack 1 ⟨c, t⟩
      (if r.completable then [r.reading scope] else []) := by
  obtain ⟨u, hcheck, hunmoved⟩ := hready.alike.hasCompletion hr hready.stamped
  have halike := hready.alike.unmoved hr hunmoved
  have hgoing : c.phase ≠ .exhausted := fun h => nomatch hphase.symm.trans h
  have hgoal : (asked rule c).goal = ⟨scope, true, none⟩ := hall.goal
  have hchosen : (Policy.of choice order.choice : Policy ρ).chooseVariable t scope = .ok none :=
    (hready.alike.choose choice scope).trans hnone
  have hstep : Search.step (.of choice order.choice) rule ⟨c, t⟩ = _ :=
    step_selecting hphase hall.never
  rw [Search.select] at hstep
  simp only [hgoal, hchosen, hcheck] at hstep
  cases hcomplete : r.completable with
  | true =>
      simp only [hcomplete, report_reading halike hgoal hfixed] at hstep
      rw [if_pos rfl]
      exact ⟨1, _, Nat.le_refl 1, .step hgoing hstep rfl (.zero _), rfl,
        ⟨rfl, rfl, rfl, (onward_asked rule c).endless⟩, _, rfl,
        hunmoved.evolves.trans (evolves_note u _)⟩
  | false =>
      simp only [hcomplete] at hstep
      rw [if_neg Bool.false_ne_true]
      exact ⟨1, _, Nat.le_refl 1, .silent hgoing hstep rfl, rfl,
        ⟨rfl, rfl, rfl, (onward_asked rule c).endless⟩, _, rfl,
        hunmoved.evolves.trans (evolves_note u _)⟩

/-- Where a variable is chosen, what is enumerated for its values is found. -/
theorem lists_chosen (hbelow : ListsBelow choice order rule scope d k ρ)
    (hready : Ready scope d r t) (hr : r.Drained) (hsome : choice.choose r scope = .ok (some v))
    (hv : v ∈ scope) (hfree : (r.domain v).isFixed = false) (hcount : r.unfixedCount < k + 1)
    (hphase : c.phase = .selecting) (hall : Unbounded rule scope c) :
    Lists (.of choice order.choice) rule c.stack (1 + d * (2 + stepsBelow d k)) ⟨c, t⟩
      ((order.list (r.domain v)).flatMap (r.enumerateWith choice order scope v)) := by
  have hgoing : c.phase ≠ .exhausted := fun h => nomatch hphase.symm.trans h
  have hgoal : (asked rule c).goal = ⟨scope, true, none⟩ := hall.goal
  have hchosen : (Policy.of choice order.choice : Policy ρ).chooseVariable t scope =
      .ok (some v) := (hready.alike.choose choice scope).trans hsome
  have howned := hready.owned v hv
  have hstep : Search.step (.of choice order.choice) rule ⟨c, t⟩ = _ :=
    step_selecting hphase hall.never
  rw [Search.select] at hstep
  simp only [hgoal, hchosen, (hready.alike.owns v).trans howned, if_true,
    hready.alike.domain] at hstep
  -- the chosen variable has values, since the store has not failed
  have hne : order.list (r.domain v) ≠ [] := by
    obtain ⟨x, hx⟩ := hready.inhabited hr.failure v hv
    exact List.ne_nil_of_mem (ValueOrder.mem_list.mpr hx)
  have honward : Onward rule c ((asked rule c).opened v (r.domain v)) 0 :=
    ⟨rfl, rfl, rfl, (onward_asked rule c).endless⟩
  have hlists := lists_branching hbelow hr howned hfree hcount _ rfl hne (le_refl _) hready rfl
    rfl (hall.onward honward)
  rw [order.length_list] at hlists
  refine (hlists.after (.silent hgoing hstep rfl) honward (.refl t)).mono ?_
  exact Nat.add_le_add_left (Nat.mul_le_mul_right _ (hready.sizes v)) 1

/-- **THE SEARCH LISTS THE ENUMERATION** from every state on. -/
theorem listsBelow (k : Nat) :
    ListsBelow choice order rule scope d k ρ := by
  -- on the number of unfixed variables, which is smaller where a value is tried
  induction k with
  | zero => exact fun _ hcount => absurd hcount (Nat.not_lt_zero _)
  | succ k ih =>
      intro r t c hready hcount hphase hall
      have hgoing : c.phase ≠ .exhausted := fun h => nomatch hphase.symm.trans h
      have honward : Onward rule c (c.goTo .selecting) 0 := ⟨rfl, rfl, rfl, id⟩
      have hsteps : stepsBelow d (k + 1) = 1 + (1 + d * (2 + stepsBelow d k)) := by
        rw [stepsBelow]
        omega
      rw [hsteps]
      cases hprop : r.propagate with
      | mk result r' =>
          cases result with
          | error why =>
              obtain ⟨u, hprop', _⟩ := hready.alike.propagate hprop
              have hev := evolves_propagate t
              rw [hprop'] at hev
              have hstep : Search.step (.of choice order.choice) rule ⟨c, t⟩ = _ :=
                step_propagating hphase (propagate_of_error hprop')
              rw [enumerate_of_error hprop]
              exact ⟨1, _, Nat.le_add_right 1 _, .silent hgoing hstep rfl, rfl,
                ⟨rfl, rfl, rfl, id⟩, _, rfl, hev.trans (evolves_note u _)⟩
          | ok _ =>
              obtain ⟨u, hprop', hready', hdrained, hev⟩ := hready.propagate_ok hprop
              have hstep : Search.step (.of choice order.choice) rule ⟨c, t⟩ = _ :=
                step_propagating hphase (propagate_of_ok hprop')
              refine Lists.after (.silent hgoing hstep rfl) honward hev ?_
              have hcount' := Nat.lt_of_le_of_lt (unfixedCount_propagate hprop) hcount
              rcases VariableChoice.choose_cases choice hready'.owned with
                ⟨hnone, hfixed⟩ | ⟨v, hv, hsome, hfree⟩
              · rw [enumerate_of_none hprop hnone]
                have hlists : Lists (.of choice order.choice) rule c.stack 1
                    ⟨c.goTo .selecting, u⟩ _ :=
                  lists_fixed hready' hdrained hnone hfixed rfl (hall.onward honward)
                exact hlists.mono (Nat.le_add_right 1 _)
              · rw [enumerate_of_some hprop hsome]
                exact lists_chosen ih hready' hdrained hsome hv hfree hcount' rfl
                  (hall.onward honward)

end BuiltInChoices

end Search

end ConstraintSolver
