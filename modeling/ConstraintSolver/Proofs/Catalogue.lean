import ConstraintSolver.Proofs.Chart
import ConstraintSolver.Proofs.Naming

/-! # Catalogue — the constraints of a store, and who watches what

    The log of a store tells which constraints have been entered, and under
    which ids (`Store.entries`): those that were imposed well, and those whose
    propagation failed.  The store keeps two tables of them.  One holds the
    constraints in order, the other lists the ids with the variables.  Both
    say what the log says (`Store.Documented.catalogued`), although the second
    is filled once, when a constraint is entered, and never looked at again.

    A request declares a variable, extends a domain that nobody watches,
    enters a constraint, goes back to a snapshot, or leaves the model as it is
    and adds no value (`Store.Answered.alters`).  So whoever occurs in a
    constraint gets no values, other than by going back
    (`Store.Alters.frozen`).  In a search the same is true of every step that
    does not go back, and no step leads out of the domains with which the
    search began (`Search.Course.inside`). -/

namespace ConstraintSolver

open Constraint

namespace Store

variable {s t : Store} {r : Request} {reply : Reply} {c : Constraint} {v : Variable}
  {log : List (Request × Reply)}

/-! ## What a log says about the constraints -/

/-- The constraint which a request has entered, with its id.  An id is told also if
    propagation has failed. -/
def entered? : Request × Reply → Option (ConstraintId × Constraint)
  | (.impose c, .imposed id) => some (id, c)
  | (.impose c, .refused (.modelInconsistent id)) => some (id, c)
  | _ => none

/-- The constraints which have been entered according to the log, in order. -/
def entries (log : List (Request × Reply)) : List (ConstraintId × Constraint) :=
  log.filterMap entered?

/-- One request more enters at most one constraint. -/
theorem entries_snoc :
    entries (log ++ [(r, reply)]) = entries log ++ (entered? (r, reply)).toList := by
  rw [entries, List.filterMap_append, entries]
  cases h : entered? (r, reply) with
  | none => rw [List.filterMap_cons_none h]; rfl
  | some e => rw [List.filterMap_cons_some h]; rfl

/-- The handles in a constraint that is to be imposed. -/
def Request.handles : Request → List Variable
  | .impose c => c.occurrences
  | _ => []

/-- Those handles have been issued, if they belong to the store. -/
def Request.Genuine (s : Store) (r : Request) : Prop := ∀ v ∈ r.handles, s.Issued v

instance (s : Store) (r : Request) : Decidable (r.Genuine s) :=
  inferInstanceAs (Decidable (∀ v ∈ r.handles, s.Issued v))

/-- What has been asked of a store with genuine handles and what it has answered, the latest
    last. -/
inductive Documented : Store → List (Request × Reply) → Prop
  | empty (number : Nat) (listensTo : Option Level) : Documented (.empty number listensTo) []
  | answered {s t : Store} {log : List (Request × Reply)} {r : Request} {reply : Reply}
      (genuine : r.Genuine s) :
      Documented s log → Answered s r reply t → Documented t (log ++ [(r, reply)])

/-- Each of several requests is answered at once, and made with genuine handles. -/
def Request.AllGenuine (s : Store) : List Request → Prop
  | [] => True
  | r :: rs => ((r.perform s).1 ≠ .begun ∧ r.Genuine s) ∧ AllGenuine (r.perform s).2 rs

instance Request.decidableAllGenuine : (s : Store) → (rs : List Request) →
    Decidable (Request.AllGenuine s rs)
  | _, [] => .isTrue trivial
  | s, r :: rs => @instDecidableAnd _ _ _ (decidableAllGenuine (r.perform s).2 rs)

/-- A log may be continued with requests that are genuine. -/
theorem Documented.run (h : Documented s log) {rs : List Request}
    (hgenuine : Request.AllGenuine s rs) :
    Documented (Request.run s rs).2 (log ++ rs.zip (Request.run s rs).1) := by
  induction rs generalizing s log with
  | nil => rwa [Request.run, List.zip_nil_left, List.append_nil]
  | cons r rs ih =>
      obtain ⟨⟨houtside, hfirst⟩, hrest⟩ := hgenuine
      have hdocumented := ih (h.answered hfirst (.performed r houtside)) hrest
      rwa [List.append_assoc] at hdocumented

/-! ## What a request does to the constraints -/

/-- **WHAT A REQUEST CAN DO** to the constraints and the domains. -/
inductive Alters (s : Store) : Request → Reply → Store → Prop
  | declared {r : Request} {reply : Reply} (d : Domain) (name : Option String)
      (root : s.depth = 0) (silent : entered? (r, reply) = none) : Alters s r reply (s.grown d name)
  | extended {r : Request} {reply : Reply} {v : Variable} (d : Domain) (owned : s.domains.Owns v)
      (unwatched : s.watcherCount v = 0) (root : s.depth = 0)
      (silent : entered? (r, reply) = none) :
      Alters s r reply { s with domains := s.domains.extend v d }
  | entered {c : Constraint} {reply : Reply} {t : Store}
      (owned : ∀ v ∈ c.occurrences, s.owns v = true)
      (told : entered? (.impose c, reply) = some (.ofIndex s.constraintCount, c))
      (evolves : Evolves (s.enter c).2 t) : Alters s (.impose c) reply t
  | narrowed {r : Request} {reply : Reply} {t : Store} (model : SameModel s t)
      (stamped : t.domains.Stamped) (shrinks : t.domains.get ≤ s.domains.get)
      (silent : entered? (r, reply) = none) : Alters s r reply t
  | restored {saved : Snapshot} {reply : Reply} {t : Store} (model : SameModel s t)
      (stamped : t.domains.Stamped) : Alters s (.restore saved) reply t

/-- What only removes values enters no constraint. -/
theorem Evolves.alters (h : Evolves s t) (hst : s.domains.Stamped)
    (hsilent : entered? (r, reply) = none) : Alters s r reply t :=
  .narrowed h.toSameModel (h.retraces.stamped hst) h.shrinks hsilent

theorem alters_unchanged (hst : s.domains.Stamped) (hsilent : entered? (r, reply) = none) :
    Alters s r reply s :=
  (Evolves.refl s).alters hst hsilent

/-- A declaration enters no constraint. -/
theorem alters_declare (hst : s.domains.Stamped) (hsilent : ∀ reply, entered? (r, reply) = none)
    {d : Domain} {name : Option String}
    (hperform : r.perform s = Prod.map (.ofModel .declared) id (s.declare d name)) :
    Alters s r (r.perform s).1 (r.perform s).2 := by
  rw [hperform]
  rcases s.declare_cases d name with ⟨_, hsame⟩ | ⟨hroot, hdeclare⟩
  · rw [Prod.map_snd, hsame]
    exact alters_unchanged hst (hsilent _)
  · rw [hdeclare]
    exact .declared d name hroot (hsilent _)

/-- An extension enters no constraint. -/
theorem alters_extendDomain (hst : s.domains.Stamped) (v : Variable) (lower upper : Int) :
    Alters s (.extendDomain v lower upper) reply (s.extendDomain v lower upper).2 := by
  rcases s.extendDomain_cases v lower upper with ⟨_, heq⟩ | ⟨d, _, howned, hcount, hroot, heq⟩
  · rw [heq]
    exact alters_unchanged hst rfl
  · rw [heq]
    exact .extended d howned hcount hroot rfl

/-- A constraint that is not refused at once is told by its id, whatever propagation comes
    to. -/
theorem alters_impose (hst : s.domains.Stamped) (c : Constraint) :
    Alters s (.impose c) ((Request.impose c).perform s).1 ((Request.impose c).perform s).2 := by
  rw [Request.perform, impose]
  split
  · exact alters_unchanged hst rfl
  · split
    · exact alters_unchanged hst rfl
    · rename_i hall
      rw [Bool.not_eq_true', Bool.not_eq_false, List.all_eq_true] at hall
      have howned : ∀ v ∈ c.occurrences, s.owns v = true := fun v hv => hall v (mem_scope.mpr hv)
      split
      · exact alters_unchanged hst rfl
      -- entered, whether or not propagation fails afterwards
      · have hev := evolves_propagate (s.enter c).2
        simp only
        split
        · rename_i t hprop
          rw [hprop] at hev
          exact .entered howned rfl hev
        · rename_i why t hprop
          rw [hprop] at hev
          exact .entered howned rfl (hev.trans (evolves_note t _))

/-- A restored snapshot brings values back, and takes no constraint out. -/
theorem alters_restore (hst : s.domains.Stamped) (saved : Snapshot) :
    Alters s (.restore saved) reply (s.restore saved).2 := by
  refine .restored (sameModel_restore s saved) ?_
  rcases s.restore_cases saved with heq | ⟨_, hdepth, heq⟩
  · rwa [heq]
  · rw [heq]
    exact (Domains.restored s.domains (Nat.le_of_lt hdepth)).stamped hst

/-- **EVERY REQUEST** does one of these things. -/
theorem Answered.alters (h : Answered s r reply t) (hst : s.domains.Stamped) :
    Alters s r reply t := by
  cases h with
  | searched start session left =>
      have hreturned := returned_of_session hst start session left
      refine .narrowed hreturned.model (returned_continues hst hreturned).stamped ?_ rfl
      rw [hreturned.domains, Domains.get_settled]
  | performed r outside =>
      cases r with
      | newInteger lower upper name =>
          cases hdomain : Domain.ofBounds? lower upper with
          | error e =>
              rw [Request.perform, newInteger, hdomain]
              exact alters_unchanged hst rfl
          | ok d =>
              exact alters_declare hst (fun _ => rfl) (by rw [Request.perform, newInteger, hdomain])
      | newSparse values name =>
          cases hdomain : Domain.ofValues? values with
          | error e =>
              rw [Request.perform, newSparse, hdomain]
              exact alters_unchanged hst rfl
          | ok d =>
              exact alters_declare hst (fun _ => rfl) (by rw [Request.perform, newSparse, hdomain])
      | newBoolean name =>
          by_cases hbelow : (name.isNone && s.depth != 0) = true
          · rw [Request.perform, newBoolean, if_pos hbelow]
            exact alters_unchanged hst rfl
          · exact alters_declare hst (fun _ => rfl)
              (by rw [Request.perform, newBoolean, if_neg hbelow])
      | extendDomain v lower upper => exact alters_extendDomain hst v lower upper
      | impose c => exact alters_impose hst c
      | assign v value => exact (evolves_assign s v value).alters hst rfl
      | removeValue v value => exact (evolves_prune s v _).alters hst rfl
      | setLowerBound v bound => exact (evolves_prune s v _).alters hst rfl
      | setUpperBound v bound => exact (evolves_prune s v _).alters hst rfl
      | propagate => exact (evolves_propagate s).alters hst rfl
      | snapshot =>
          exact .narrowed ⟨rfl, rfl, rfl, .refl _⟩ hst.checkpoint (le_refl s.domains.get) rfl
      | restore saved => exact alters_restore hst saved
      | search goal random termination =>
          -- the search has not begun
          rw [Request.perform] at outside ⊢
          split at outside
          · exact absurd rfl outside
          · exact alters_unchanged hst rfl
          · exact alters_unchanged hst rfl

/-! ## What the tables say -/

/-- **THE TABLES AGREE WITH THE LOG.** -/
structure Catalogued (s : Store) (log : List (Request × Reply)) : Prop where
  stamped : s.domains.Stamped
  wired : s.Wired
  indexed : s.Indexed
  entered : entries log = s.constraints.toList.zipIdx.map fun entry => (.ofIndex entry.2, entry.1)

/-- The empty store has no constraints to list. -/
theorem catalogued_empty (number : Nat) (listensTo : Option Level) :
    Catalogued (.empty number listensTo) [] :=
  ⟨Domains.stamped_empty number, (Declared.empty number listensTo).blank.wired,
    fun _ hv => absurd (mem_allVariables.mp hv).2 (Nat.not_lt_zero _), rfl⟩

/-- What enters no constraint leaves the log of them as it is. -/
theorem entries_silent (hsilent : entered? (r, reply) = none) :
    entries (log ++ [(r, reply)]) = entries log := by
  rw [entries_snoc, hsilent, Option.toList_none, List.append_nil]

/-- A request that enters nothing leaves the catalogue right. -/
theorem Catalogued.model (h : Catalogued s log) (hmodel : SameModel s t)
    (hst : t.domains.Stamped) (hsilent : entered? (r, reply) = none) :
    Catalogued t (log ++ [(r, reply)]) := by
  refine ⟨hst, hmodel.wired h.wired, hmodel.indexed h.indexed, ?_⟩
  rw [entries_silent hsilent, hmodel.constraints]
  exact h.entered

/-- A constraint that is entered gets the next id. -/
theorem Catalogued.entered_snoc (h : Catalogued s log) (c : Constraint)
    (htold : entered? (r, reply) = some (.ofIndex s.constraintCount, c)) :
    entries (log ++ [(r, reply)]) =
      (s.constraints.push c).toList.zipIdx.map fun entry => (.ofIndex entry.2, entry.1) := by
  rw [entries_snoc, htold, h.entered, Array.toList_push, List.zipIdx_append, List.map_append,
    List.zipIdx_singleton, Nat.zero_add, Array.length_toList]
  rfl

/-- **EVERY REQUEST** keeps the tables as the log says. -/
theorem Catalogued.alters (h : Catalogued s log) (hgenuine : r.Genuine s)
    (halters : Alters s r reply t) : Catalogued t (log ++ [(r, reply)]) := by
  cases halters with
  | declared d name root silent =>
      refine ⟨Domains.stamped_push h.stamped root d, wired_grown h.wired d name,
        indexed_grown h.wired h.indexed d name, ?_⟩
      rw [entries_silent silent]
      exact h.entered
  | extended d owned unwatched root silent =>
      refine ⟨Domains.stamped_extend h.stamped root _ d, wired_extended h.wired,
        indexed_extended h.indexed _ d, ?_⟩
      rw [entries_silent silent]
      exact h.entered
  | @entered c _ _ owned told evolves =>
      have hissued : ∀ v ∈ c.occurrences, v ∈ s.allVariables := fun v hv =>
        hgenuine v hv (owned v hv)
      refine ⟨evolves.retraces.stamped h.stamped, evolves.wired (wired_enter h.wired hissued),
        evolves.toSameModel.indexed (indexed_enter h.wired h.indexed owned), ?_⟩
      rw [h.entered_snoc c told, evolves.constraints, enter_eq]
  | narrowed model stamped shrinks silent => exact h.model model stamped silent
  | restored model stamped => exact h.model model stamped rfl

/-- **THE TABLES SAY WHAT THE LOG SAYS**, at any time. -/
theorem Documented.catalogued (h : Documented s log) : Catalogued s log := by
  induction h with
  | empty number listensTo => exact catalogued_empty number listensTo
  | answered genuine _ hanswered ih => exact ih.alters genuine (hanswered.alters ih.stamped)

namespace Catalogued

/-- The constraints of the store are those which the log has entered, in order. -/
theorem constraints_eq (h : Catalogued s log) :
    s.constraints.toList = (entries log).map Prod.snd := by
  rw [h.entered, List.map_map]
  exact (List.zipIdx_map_fst 0 s.constraints.toList).symm

/-- There are as many constraints as the log has entered. -/
theorem length_entries (h : Catalogued s log) : (entries log).length = s.constraintCount := by
  rw [h.entered, List.length_map, List.length_zipIdx, Array.length_toList, constraintCount]

/-- The ids are given in order. -/
theorem ids_eq (h : Catalogued s log) :
    (entries log).map Prod.fst = (List.range (entries log).length).map .ofIndex := by
  rw [h.length_entries, h.entered, List.map_map, List.range_eq_range', constraintCount,
    ← Array.length_toList, ← List.zipIdx_map_snd 0 s.constraints.toList, List.map_map]
  rfl

/-- The watchers are the entries whose constraints have the variable in their scope. -/
theorem watchers_eq (h : Catalogued s log) (hv : v ∈ s.allVariables) :
    s.watchersOf v =
      ((entries log).filter fun entry => decide (v ∈ entry.2.scope)).map Prod.fst := by
  rw [h.indexed v hv, idsOn, h.entered, List.filter_map, List.map_map]
  rfl

/-- As long as the ids suffice they are the positions. -/
theorem positions_eq (h : Catalogued s log) (hnum : s.Numbered) :
    (entries log).map (fun entry => entry.1.index) = List.range (entries log).length := by
  have hids := congrArg (List.map ConstraintId.index) h.ids_eq
  rw [List.map_map, List.map_map] at hids
  refine hids.trans ((List.map_congr_left fun i hi => ?_).trans (List.map_id _))
  exact Nat.mod_eq_of_lt (Nat.lt_of_lt_of_le (List.mem_range.mp hi) (h.length_entries ▸ hnum))

/-- A constraint is found under the id that was told. -/
theorem constraint?_iff (h : Catalogued s log) (hnum : s.Numbered) {id : ConstraintId} :
    s.constraint? id = some c ↔ (id, c) ∈ entries log := by
  rw [h.entered, List.mem_map]
  constructor
  · intro hc
    refine ⟨(c, id.index), ?_, Prod.ext ?_ rfl⟩
    · rw [List.mem_zipIdx_iff_getElem?, Array.getElem?_toList]
      exact hc
    · have hlt := (Array.getElem?_eq_some_iff.mp hc).1
      exact congrArg ConstraintId.mk (Nat.mod_eq_of_lt (Nat.lt_of_lt_of_le hlt hnum))
  · rintro ⟨⟨d, i⟩, hmem, heq⟩
    cases heq
    rw [List.mem_zipIdx_iff_getElem?, Array.getElem?_toList] at hmem
    exact constraint?_ofIndex hnum hmem

/-- The watchers of a variable are listed in order of imposition, none of them twice. -/
theorem watchers_increasing (h : Catalogued s log) (hnum : s.Numbered) (hv : v ∈ s.allVariables) :
    (s.watchersOf v).Pairwise fun a b => a.index < b.index := by
  have hrange : ((entries log).map fun entry => entry.1.index).Pairwise (· < ·) := by
    rw [h.positions_eq hnum]
    exact List.pairwise_lt_range
  rw [h.watchers_eq hv, List.pairwise_map]
  exact (List.pairwise_map.mp hrange).filter _

end Catalogued

/-! ## Who gets no values -/

/-- **WHO OCCURS IN A CONSTRAINT** gets no values, other than by going back. -/
theorem Alters.frozen (h : Alters s r reply t) (hw : s.Wired)
    (hforward : ∀ saved, r ≠ .restore saved) (hc : c ∈ t.constraints.toList)
    (hv : v ∈ c.occurrences) : t.domain v ≤ s.domain v := by
  cases h with
  | declared d name root silent => exact le_of_eq (get_grown (hw.declared c hc v hv))
  | @extended _ _ w d owned unwatched root silent =>
      obtain ⟨i, hi⟩ := List.mem_iff_getElem?.mp hc
      rw [Array.getElem?_toList] at hi
      have hne : v ≠ w := fun heq => not_occurs_of_watcherCount hw unwatched hi (heq ▸ hv)
      exact le_of_eq ((get_extended owned (hw.declared c hc v hv)).trans (if_neg hne))
  | entered owned told evolves => exact evolves.shrinks v
  | narrowed model stamped shrinks silent => exact shrinks v
  | @restored saved => exact absurd rfl (hforward saved)

end Store

namespace Search

open Store

variable {ρ τ : Type} {policy : Policy ρ} {rule : TerminationRule τ} {base : Store}
  {goal : SearchGoal} {begun s s' : Search ρ τ} {reported : List Solution} {opened : Nat}
  {found : Option Solution}

/-- Propagation adds no values, whether it succeeds or not. -/
theorem propagate_le {t u : Store} {result : Except Inconsistency Unit}
    (h : t.propagate = (result, u)) : u.domains.get ≤ t.domains.get := by
  have hev := evolves_propagate t
  rw [h] at hev
  exact hev.shrinks

/-- Looking for a completion shrinks the domains, if anything: what is tried is undone. -/
theorem hasCompletion_le {t u : Store} {held : Bool} (hst : t.domains.Stamped)
    (h : t.hasCompletion = (.ok held, u)) : u.domains.get ≤ t.domains.get := by
  obtain ⟨held', u', hcheck, hev, _⟩ := undoes_hasCompletion t hst
  cases h.symm.trans hcheck
  exact hev.shrinks

/-- Trying a value shrinks the domains. -/
theorem assign_snapshot_le {t u : Store} {e : Event} {v : Variable} {value : Int}
    {result : Except UpdateError Unit} (h : (t.snapshot.2.note e).assign v value = (result, u)) :
    u.domains.get ≤ t.domains.get := by
  have hev := evolves_assign (t.snapshot.2.note e) v value
  rw [h] at hev
  exact hev.shrinks

theorem phase_of_finish {status : SearchStatus} (h : s.finish status = (.ok (), s')) :
    s'.control.phase = .exhausted := by
  obtain ⟨c, t⟩ := s
  obtain ⟨runs, hcontrol⟩ := control_of_finish h
  exact congrArg SearchControl.phase hcontrol

/-- **A MOVE** that does not go back adds no value. -/
theorem Moves.shrinks (h : Moves policy rule s found s') (hst : s.store.domains.Stamped)
    (hforward : s.control.phase ≠ .backtracking) (hgoing : s'.control.phase ≠ .exhausted) :
    s'.store.domains.get ≤ s.store.domains.get := by
  cases h with
  | propagated phase run => exact propagate_le run
  | @inconsistent c t u why phase run =>
      -- a note leaves the domains as they are
      have hle : u.domains.get ≤ t.domains.get := propagate_le run
      exact hle
  | stopped phase stop finished => exact absurd (phase_of_finish finished) hgoing
  | opened phase chosen owned => exact le_refl _
  | @incomplete c t u phase chosen check =>
      have hle : u.domains.get ≤ t.domains.get := hasCompletion_le hst check
      exact hle
  | @reported c t u x phase chosen check read =>
      have hle : u.domains.get ≤ t.domains.get := hasCompletion_le hst check
      exact hle
  | reportedLast phase chosen check read finished =>
      exact absurd (phase_of_finish finished) hgoing
  | unopened phase stack => exact le_refl _
  | tried phase stack chosen candidate assigned => exact assign_snapshot_le assigned
  | refused phase stack chosen candidate assigned => exact assign_snapshot_le assigned
  | resumed phase undone => exact absurd phase hforward
  | completed phase undone finished => exact absurd phase hforward
  | exhausted phase => exact absurd phase hgoing

/-- What is known of the places of a search: no value is there that was not there when the
    search began. -/
def insideChart (base : Store) : Chart where
  place D := D.get ≤ base.domains.get
  choice D _ := D.get ≤ base.domains.get
  left _ _ := True

/-- **WHEREVER A SEARCH IS**, the domains lie inside those it was begun with. -/
theorem insideChart_right (policy : Policy ρ) (base : Store) (scope : List Variable) :
    (insideChart base).Right policy base scope where
  propagated place run := (propagate_le run).trans place
  opened _ place _ := place
  resettled {D E choice choice'} known hget _ _ _ := by
    change E.get ≤ base.domains.get
    rw [hget]
    exact known
  tried known assigned := (assign_snapshot_le assigned).trans known
  shrunk _ _ := trivial
  dropped _ := trivial
  split _ _ _ _ := trivial
  reported _ _ := trivial

/-- A search that is over has given back the domains it began with. -/
theorem Standing.get_of_exhausted (h : Standing base s) (hphase : s.control.phase = .exhausted) :
    s.store.domains.get = base.domains.get := by
  cases h with
  | moving phase => rcases phase with phase | phase <;> exact nomatch hphase.symm.trans phase
  | selecting phase => exact nomatch hphase.symm.trans phase
  | branching phase => exact nomatch hphase.symm.trans phase
  | exhausted _ _ _ returned => rw [returned.domains, Domains.get_settled]

/-- The domains of a search that goes on are stamped. -/
theorem Standing.stamped (h : Standing base s) (hgoing : s.control.phase ≠ .exhausted) :
    s.store.domains.Stamped := by
  cases h with
  | moving _ amid => exact amid.stamped
  | selecting _ amid => exact amid.stamped
  | branching _ amid => exact amid.stamped
  | exhausted phase => exact absurd phase hgoing

/-- What is over stays over. -/
theorem going_of_step (hok : s.step policy rule = (.ok found, s'))
    (hgoing : s'.control.phase ≠ .exhausted) : s.control.phase ≠ .exhausted := by
  intro hphase
  rw [Search.step, hphase] at hok
  cases hok
  exact hgoing hphase

/-- **A STEP** of a search that does not go back adds no value. -/
theorem Course.shrinks (hbegun : Begun base goal begun)
    (h : Course policy rule begun reported opened s) (hok : s.step policy rule = (.ok found, s'))
    (hforward : s.control.phase ≠ .backtracking) (hgoing : s'.control.phase ≠ .exhausted) :
    s'.store.domains.get ≤ s.store.domains.get :=
  (step_moves hok).shrinks ((h.standing hbegun).stamped (going_of_step hok hgoing)) hforward hgoing

/-- Going back leads to a choice point, if it does not end the search. -/
theorem branching_of_step (hok : s.step policy rule = (.ok found, s'))
    (hback : s.control.phase = .backtracking) (hgoing : s'.control.phase ≠ .exhausted) :
    s'.control.phase = .branching := by
  obtain ⟨c, t⟩ := s
  rw [Search.step, hback] at hok
  have hbacktrack := of_silently hok
  rw [backtrack] at hbacktrack
  split at hbacktrack
  · cases hbacktrack
  · exact absurd (phase_of_finish hbacktrack) hgoing
  · cases hbacktrack
    rfl

/-- **NO STEP LEADS OUT** of the domains with which the search began. -/
theorem Course.inside (hbegun : Begun base goal begun)
    (h : Course policy rule begun reported opened s) :
    s.store.domains.get ≤ base.domains.get := by
  have hover : ∀ {reported opened} {s : Search ρ τ}, Course policy rule begun reported opened s →
      s.control.phase = .exhausted → s.store.domains.get ≤ base.domains.get :=
    fun h hphase => le_of_eq ((h.standing hbegun).get_of_exhausted hphase)
  induction h with
  | begun =>
      cases hbegun with
      | underway phase amid same stack remembers =>
          rw [remembers.domains, Domains.get_checkpoint]
      | ended phase root status returned => rw [returned.domains, Domains.get_settled]
  | @moved _ _ s t _ course move ih =>
      by_cases hend : t.control.phase = .exhausted
      · exact hover (course.moved move) hend
      · by_cases hback : s.control.phase = .backtracking
        · -- the choice point that the search has gone back to was opened inside
          have hright := insideChart_right policy base goal.scope
          have hcharted := (course.moved move).charted hright
            (hbegun.charted (le_refl base.domains.get) trivial)
          have hphase := branching_of_step move hback hend
          obtain ⟨choice, _, _, _, _, _, known, _⟩ := hcharted.at_branching hphase
          exact known
        · exact (course.shrinks hbegun move hback hend).trans ih
  | changed termination _ ih => exact ih
  | @summarized _ _ s t summary course told ih =>
      rcases summarize_cases told with rfl | hfinish
      · exact ih
      · exact hover (course.summarized told) (phase_of_finish hfinish)

end Search

namespace Store

variable {s : Store} {log : List (Request × Reply)}

/-- **THE CATALOGUE IS EXACT.** After any requests, whether they have gone well or not, the
    constraints are those that have been entered according to the log, in order, under the ids
    that were told; the watchers of a variable are the ids of those that have it in their
    scope, and their number is what is told.  As long as the ids suffice they are 0, 1, 2, and
    so on; a constraint is found under its id, and the watchers of a variable increase.  No
    request other than going back adds a value to the domain of a variable that a constraint
    mentions.  A search keeps constraints and watchers, is never outside the domains with which
    it began, and only adds a value when it goes back. -/
theorem catalogue_is_exact (h : Documented s log) :
    (s.constraints.toList = (entries log).map Prod.snd ∧
      s.constraintCount = (entries log).length ∧
      (entries log).map Prod.fst = (List.range (entries log).length).map .ofIndex) ∧
    (∀ v ∈ s.allVariables,
      s.watchersOf v = ((entries log).filter fun entry => decide (v ∈ entry.2.scope)).map Prod.fst ∧
        s.watcherCount v = (s.watchersOf v).length) ∧
    (s.constraintCount ≤ ConstraintId.limit →
      (entries log).map (fun entry => entry.1.index) = List.range (entries log).length ∧
      (∀ id c, s.constraint? id = some c ↔ (id, c) ∈ entries log) ∧
      ∀ v ∈ s.allVariables, (s.watchersOf v).Pairwise fun a b => a.index < b.index) ∧
    (∀ r reply t, Answered s r reply t → (∀ saved, r ≠ .restore saved) →
      ∀ c ∈ t.constraints.toList, ∀ v, c.Mentions v → ∀ x ∈ t.domain v, x ∈ s.domain v) ∧
    ∀ {ρ τ : Type} (policy : Policy ρ) (rule : TerminationRule τ) (goal : SearchGoal)
      (random : ρ) (termination : τ) (begun used : Search ρ τ) (reported : List Solution)
      (opened : Nat), Search.start goal random termination s = .ok begun →
      Search.Course policy rule begun reported opened used →
      used.store.constraints = s.constraints ∧ used.store.watchers = s.watchers ∧
        (∀ v, ∀ x ∈ used.store.domain v, x ∈ s.domain v) ∧
        ∀ found next, used.step policy rule = (.ok found, next) →
          used.control.phase ≠ .backtracking → next.control.phase ≠ .exhausted →
          ∀ v, ∀ x ∈ next.store.domain v, x ∈ used.store.domain v := by
  have hcat := h.catalogued
  refine ⟨⟨hcat.constraints_eq, hcat.length_entries.symm, hcat.ids_eq⟩,
    fun v hv => ⟨hcat.watchers_eq hv, rfl⟩,
    fun hnum => ⟨hcat.positions_eq hnum, fun id c => hcat.constraint?_iff hnum,
      fun v hv => hcat.watchers_increasing hnum hv⟩,
    fun r reply t hanswered hforward c hc v hv =>
      (hanswered.alters hcat.stamped).frozen hcat.wired hforward hc hv.occurs, ?_⟩
  intro ρ τ policy rule goal random termination begun used reported opened hstart hcourse
  obtain ⟨begun', hstart', hbegun⟩ :=
    Search.start_begun hcat.stamped (owns_of_start hstart) random termination
  rw [hstart] at hstart'
  cases hstart'
  have hmodel := (hcourse.standing hbegun).model
  exact ⟨hmodel.constraints, hmodel.watchers, hcourse.inside hbegun,
    fun found next hok hforward hgoing => hcourse.shrinks hbegun hok hforward hgoing⟩

/-- Neither are the numbers equal, nor does the flag tell whether one is less than itself. -/
def neither : Constraint :=
  .not (.or [.equality ⟨0, 0⟩ .equal (.variable ⟨0, 1⟩),
    .reified (.ordering ⟨0, 0⟩ .less (.variable ⟨0, 0⟩)) ⟨0, 2⟩])

def ascending : Constraint := .ordering ⟨0, 0⟩ .less (.variable ⟨0, 1⟩)

def impossible : Constraint := .equality ⟨0, 1⟩ .equal (.constant 12)

/-- Two constraints are entered between other requests, some of which are refused. -/
def enteringRequests : List Request :=
  [.newInteger 0 3 (some "x"), .newSparse [1, 5] (some "y"), .newBoolean none,
    .extendDomain ⟨0, 1⟩ 7 7, .impose neither,
    .impose (.equality ⟨0, 0⟩ .equal (.variable ⟨7, 0⟩)), .snapshot, .setUpperBound ⟨0, 0⟩ 2,
    .restore ⟨0, 0, none⟩, .extendDomain ⟨0, 1⟩ 9 9, .newInteger 0 9 (some "z"), .impose ascending]

def entering : Store := (Request.run (.empty 0 none) enteringRequests).2

/-- Three constraints, the last of which is inconsistent, who is watched by them, and a search. -/
theorem catalogue_of_entering :
    let first := enteringRequests.zip (Request.run (.empty 0 none) enteringRequests).1
    let last := (Request.impose impossible).perform entering
    let log := first ++ [(.impose impossible, last.1)]
    Documented entering first ∧ Documented last.2 log ∧ last.2.isFailed = true ∧
      entries log = [(⟨0⟩, neither), (⟨1⟩, ascending), (⟨2⟩, impossible)] ∧
      last.2.watchersOf ⟨0, 1⟩ = [⟨0⟩, ⟨1⟩, ⟨2⟩] ∧ last.2.watcherCount ⟨0, 0⟩ = 2 ∧
      last.2.constraint? ⟨2⟩ = some impossible ∧
      (∀ x ∈ last.2.domain ⟨0, 1⟩, x ∈ entering.domain ⟨0, 1⟩) ∧
      ∃ (begun used : Search Generator Watch) (x : Solution),
        Search.start ⟨[⟨0, 0⟩, ⟨0, 2⟩], false, none⟩ (.ofSeed 7) (.new .indefinite) entering =
            .ok begun ∧
          Search.Session (.of .inputOrder .inDomainMax) Watch.rule begun [x] used ∧
          x.text = "x=3, _2=1" ∧ used.store.watchers = entering.watchers ∧
          ∀ y ∈ used.store.domain ⟨0, 1⟩, y ∈ entering.domain ⟨0, 1⟩ := by
  intro first last log
  have hfirst : Documented entering first := (Documented.empty 0 none).run (by decide +kernel)
  have hanswered : Answered entering (.impose impossible) last.1 last.2 :=
    .performed _ (by decide +kernel)
  have hlog : Documented last.2 log := hfirst.answered (by decide +kernel) hanswered
  have hentries : entries log = [(⟨0⟩, neither), (⟨1⟩, ascending), (⟨2⟩, impossible)] := by
    decide +kernel
  obtain ⟨_, hwatchers, hids, _⟩ := catalogue_is_exact hlog
  obtain ⟨_, _, _, hfrozen, hsearch⟩ := catalogue_is_exact hfirst
  have hcount : last.2.watcherCount ⟨0, 0⟩ = 2 := by
    obtain ⟨heq, hlength⟩ := hwatchers ⟨0, 0⟩ (by decide +kernel)
    rw [hlength, heq, hentries]
    decide +kernel
  have hlast : last.2.watchersOf ⟨0, 1⟩ = [⟨0⟩, ⟨1⟩, ⟨2⟩] := by
    rw [(hwatchers ⟨0, 1⟩ (by decide +kernel)).1, hentries]
    decide +kernel
  have hconstraint : last.2.constraint? ⟨2⟩ = some impossible :=
    ((hids (by decide +kernel)).2.1 ⟨2⟩ impossible).mpr (by rw [hentries]; decide)
  refine ⟨hfirst, hlog, by decide +kernel, hentries, hlast, hcount, hconstraint,
    hfrozen _ _ _ hanswered (fun _ => nofun) impossible (by decide +kernel) _ .compared, ?_⟩
  let goal : SearchGoal := ⟨[⟨0, 0⟩, ⟨0, 2⟩], false, none⟩
  let x := entering.restriction goal.scope fun v => if v.index = 0 then 3 else 1
  -- the first answer, as the search computes it
  have hrun : (Search.start goal (Generator.ofSeed 7) (Watch.new .indefinite) entering).map
      (fun begun => (begun.next (.of .inputOrder .inDomainMax) Watch.rule).1) =
      .ok (.ok (.solution x)) := by
    decide +kernel
  cases hstart : Search.start goal (Generator.ofSeed 7) (Watch.new .indefinite) entering with
  | error e =>
      rw [hstart] at hrun
      cases hrun
  | ok begun =>
      rw [hstart] at hrun
      have hsession : Search.Session (.of .inputOrder .inDomainMax) Watch.rule begun [x] _ :=
        .next .begun (Prod.ext_iff.mpr ⟨Except.ok.inj hrun, rfl⟩)
      obtain ⟨_, hcourse⟩ := hsession.course
      obtain ⟨_, hkept, hinside, _⟩ := hsearch _ _ goal _ _ begun _ _ _ hstart hcourse
      exact ⟨begun, _, x, rfl, hsession, by decide +kernel, hkept, hinside ⟨0, 1⟩⟩

end Store

end ConstraintSolver
