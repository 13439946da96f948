import ConstraintSolver.Proofs.Sessions

/-! # Reachable stores — what holds after any sequence of operations

    A store is built, updated, propagated, remembered, restored and searched,
    in any order (`Reached`).  Snapshots may be taken whenever a condition
    holds; a snapshot is live until it is restored, or one that was taken
    before it is.

    The invariant is that the tables are in step, and that a store that has
    not failed is coherent; and the same can be said of the states which the
    live snapshots lead back to (`Sound`).  How much coherence asks for
    depends on when snapshots are taken, since what waits is forgotten when
    they are restored: nothing if they may be taken at any time
    (`keeps_trivial`), and that constraints which do not wait are stable if
    they are taken when nothing waits (`keeps_of_idle`). -/

namespace ConstraintSolver

open Constraint

namespace Store

/-- A handle which belongs to the store was issued by it. -/
def Issued (s : Store) (v : Variable) : Prop := s.owns v = true → v ∈ s.allVariables

instance (s : Store) (v : Variable) : Decidable (s.Issued v) :=
  inferInstanceAs (Decidable (s.owns v = true → v ∈ s.allVariables))

/-- The stores that can be reached by operations, with their live snapshots, the
    newest first.  Snapshots are taken when the condition holds. -/
inductive Reached (allowed : Store → Prop) : Store → List Snapshot → Prop
  | empty (number : Nat) (listensTo : Option Level) :
      Reached allowed (.empty number listensTo) []
  | newInteger {s : Store} {live : List Snapshot} (lower upper : Int) (name : Option String) :
      Reached allowed s live → Reached allowed (s.newInteger lower upper name).2 live
  | newSparse {s : Store} {live : List Snapshot} (values : List Int) (name : Option String) :
      Reached allowed s live → Reached allowed (s.newSparse values name).2 live
  | newBoolean {s : Store} {live : List Snapshot} (name : Option String) :
      Reached allowed s live → Reached allowed (s.newBoolean name).2 live
  | extendDomain {s : Store} {live : List Snapshot} (v : Variable) (lower upper : Int) :
      Reached allowed s live → Reached allowed (s.extendDomain v lower upper).2 live
  | impose {s : Store} {live : List Snapshot} {c : Constraint}
      (issued : ∀ v ∈ c.occurrences, s.Issued v)
      (room : s.constraintCount < ConstraintId.limit) :
      Reached allowed s live → Reached allowed (s.impose c).2 live
  | assign {s : Store} {live : List Snapshot} (v : Variable) (value : Int) :
      Reached allowed s live → Reached allowed (s.assign v value).2 live
  | removeValue {s : Store} {live : List Snapshot} (v : Variable) (value : Int) :
      Reached allowed s live → Reached allowed (s.removeValue v value).2 live
  | setLowerBound {s : Store} {live : List Snapshot} (v : Variable) (bound : Int) :
      Reached allowed s live → Reached allowed (s.setLowerBound v bound).2 live
  | setUpperBound {s : Store} {live : List Snapshot} (v : Variable) (bound : Int) :
      Reached allowed s live → Reached allowed (s.setUpperBound v bound).2 live
  | propagate {s : Store} {live : List Snapshot} :
      Reached allowed s live → Reached allowed s.propagate.2 live
  | snapshot {s : Store} {live : List Snapshot} (moment : allowed s) :
      Reached allowed s live → Reached allowed s.snapshot.2 (s.snapshot.1 :: live)
  | restore {s : Store} {newer older : List Snapshot} {saved : Snapshot} :
      Reached allowed s (newer ++ saved :: older) → Reached allowed (s.restore saved).2 older
  /-- A search is begun, used in any way, and left. -/
  | search {s t : Store} {live : List Snapshot} {ρ τ : Type} {policy : Policy ρ}
      {rule : TerminationRule τ} {goal : SearchGoal} {random : ρ} {termination : τ}
      {begun used : Search ρ τ} {reported : List Solution} (moment : allowed s)
      (start : Search.start goal random termination s = .ok begun)
      (session : Search.Session policy rule begun reported used)
      (left : used.release = (.ok (), t)) :
      Reached allowed s live → Reached allowed t live

/-! ## The invariant -/

/-- A snapshot which leads back to a state where nothing is left to do. -/
structure Alive (Q : Criterion) (s : Store) (saved : Snapshot) : Prop where
  number : saved.store = s.number
  depth : saved.depth < s.depth
  resting : saved.failure = none → Resting Q s (s.domains.restore saved.depth)

/-- **THE INVARIANT** of a store and its live snapshots. -/
structure Sound (Q : Criterion) (s : Store) (live : List Snapshot) : Prop where
  wired : s.Wired
  numbered : s.Numbered
  stamped : s.domains.Stamped
  quiet : s.domains.changes = []
  coherent : s.failure = none → Coherent Q none s
  alive : ∀ saved ∈ live, Alive Q s saved
  order : live.Pairwise fun newer older => older.depth < newer.depth

variable {Q : Criterion} {s t : Store} {live : List Snapshot}

theorem Resting.sameModel {D : Domains} (h : Resting Q s D) (hmodel : SameModel s t) :
    Resting Q t D := by
  refine ⟨?_, ?_⟩
  · rw [hmodel.allVariables]
    exact h.inhabited
  · rw [hmodel.constraints]
    exact h.met

/-- What has evolved is sound if it is coherent. -/
theorem Sound.evolves (h : Sound Q s live) (hev : Evolves s t) (hquiet : t.domains.changes = [])
    (hcoh : t.failure = none → Coherent Q none t) : Sound Q t live := by
  refine ⟨hev.wired h.wired, hev.numbered h.numbered, hev.retraces.stamped h.stamped, hquiet, hcoh,
    fun saved hsaved => ?_, h.order⟩
  obtain ⟨hnumber, hdepth, hrest⟩ := h.alive saved hsaved
  refine ⟨hnumber.trans hev.number.symm, ?_, fun hf => ?_⟩
  · have : t.depth = s.depth := hev.retraces.depth
    rwa [this]
  · rw [hev.retraces.restore h.stamped saved.depth hdepth]
    exact (hrest hf).sameModel hev.toSameModel

/-- At the root there are no live snapshots. -/
theorem Sound.live_eq_nil (h : Sound Q s live) (hroot : s.depth = 0) : live = [] := by
  cases live with
  | nil => rfl
  | cons saved live =>
      have := (h.alive saved List.mem_cons_self).depth
      omega

/-- What a store tells does not matter to its soundness. -/
theorem Sound.note (h : Sound Q s live) (e : Event) : Sound Q (s.note e) live :=
  h.evolves (evolves_note s e) h.quiet fun hf =>
    ⟨(h.coherent hf).inhabited, (h.coherent hf).quiet, (h.coherent hf).agenda,
      (h.coherent hf).served⟩

/-! ## Building -/

/-- Enlarging a store leaves it sound: at the root there is no snapshot to go back to. -/
theorem Sound.enlarges (h : Sound Q s live) (henlarges : Enlarges s t) : Sound Q t live := by
  cases henlarges with
  | refused => exact h
  | declared root inhabited name =>
      obtain rfl := h.live_eq_nil root
      exact ⟨wired_grown h.wired _ name, h.numbered, Domains.stamped_push h.stamped root _, h.quiet,
        fun hf => coherent_grown (h.coherent hf) h.wired inhabited name,
        (fun _ hsaved => nomatch hsaved), .nil⟩
  | extended root owned unwatched d =>
      obtain rfl := h.live_eq_nil root
      exact ⟨wired_extended h.wired, h.numbered, Domains.stamped_extend h.stamped root _ d, h.quiet,
        fun hf => coherent_extended (h.coherent hf) h.wired owned unwatched,
        (fun _ hsaved => nomatch hsaved), .nil⟩

/-! ## Propagation and updates -/

/-- Propagation leaves the store sound. -/
theorem Sound.propagate (h : Sound Q s live) : Sound Q s.propagate.2 live := by
  have hev := evolves_propagate s
  cases hf : s.failure with
  | some why =>
      rw [propagate_of_failed hf]
      exact h
  | none =>
      cases hwork : (s.work none).1 with
      | ok _ =>
          have hprop := propagate_of_ok hf hwork
          rw [hprop] at hev ⊢
          have hcoh := (propagate_coherent (h.coherent hf) h.wired h.numbered hprop).1
          exact h.evolves hev hcoh.quiet fun _ => hcoh
      | error why =>
          rw [propagate_of_error hf hwork] at hev ⊢
          exact h.evolves hev rfl fun hf' => nomatch hf'

/-- An update leaves the store sound. -/
theorem Sound.prune (h : Sound Q s live) (v : Variable) (p : Pruning) :
    Sound Q (s.prune v p).2 live := by
  have hev := evolves_prune s v p
  cases hv : s.owns v with
  | false =>
      rw [prune_of_foreign hv]
      exact h
  | true =>
      cases hf : s.failure with
      | some why =>
          rw [prune_of_failed hv hf]
          exact h
      | none =>
          have heq := prune_eq hv hf p
          split at heq
          · rw [heq] at hev ⊢
            exact h.evolves hev rfl fun hf' => nomatch hf'
          · rw [heq] at hev ⊢
            exact h.evolves hev rfl fun _ => prune_coherent (h.coherent hf) h.wired h.numbered heq

/-- An assignment leaves the store sound. -/
theorem Sound.assign (h : Sound Q s live) (v : Variable) (value : Int) :
    Sound Q (s.assign v value).2 live := by
  rw [Store.assign]
  split
  · exact h
  · split
    · exact h
    · exact h.prune v _

/-! ## Constraints -/

/-- A constraint is refused at once, or entered at the root and propagated. -/
theorem impose_cases (s : Store) (c : Constraint) :
    (s.impose c).2 = s ∨
      ((∀ v ∈ c.occurrences, s.owns v = true) ∧ s.depth = 0 ∧
        ((s.impose c).2 = (s.enter c).2.propagate.2 ∨
          ∃ e, (s.impose c).2 = (s.enter c).2.propagate.2.note e)) := by
  rw [impose]
  split
  · exact Or.inl rfl
  · split
    · exact Or.inl rfl
    · rename_i hall
      split
      · exact Or.inl rfl
      · rename_i hroot
        rw [Bool.not_eq_true', Bool.not_eq_false, List.all_eq_true] at hall
        refine Or.inr ⟨fun v hv => hall v (mem_scope.mpr hv), not_not.mp hroot, ?_⟩
        simp only
        split
        · rename_i t ht
          exact Or.inl (by rw [ht])
        · rename_i why t ht
          exact Or.inr ⟨_, by rw [ht]⟩

/-- A new constraint waits, so the store is as sound as before. -/
theorem Sound.enter (h : Sound Q s live) {c : Constraint}
    (hissued : ∀ v ∈ c.occurrences, s.Issued v) (hroom : s.constraintCount < ConstraintId.limit)
    (howns : ∀ v ∈ c.occurrences, s.owns v = true) (hroot : s.depth = 0) :
    Sound Q (s.enter c).2 live := by
  obtain rfl := h.live_eq_nil hroot
  exact ⟨wired_enter h.wired fun v hv => hissued v hv (howns v hv), numbered_enter hroom c,
    h.stamped, h.quiet, fun hf => coherent_enter (h.coherent hf) c,
    (fun _ hsaved => nomatch hsaved), .nil⟩

/-- Imposing a constraint over known variables leaves the store sound, as long as there is an id
    for it. -/
theorem Sound.impose (h : Sound Q s live) {c : Constraint}
    (hissued : ∀ v ∈ c.occurrences, s.Issued v) (hroom : s.constraintCount < ConstraintId.limit) :
    Sound Q (s.impose c).2 live := by
  rcases s.impose_cases c with heq | ⟨howns, hroot, heq⟩
  · rw [heq]
    exact h
  · have hentered := h.enter hissued hroom howns hroot
    rcases heq with heq | ⟨e, heq⟩
    · rw [heq]
      exact hentered.propagate
    · rw [heq]
      exact hentered.propagate.note e

/-! ## Snapshots and searches -/

/-- Snapshots are only taken in states where nothing is left to do. -/
def Keeps (allowed : Store → Prop) (Q : Criterion) : Prop :=
  ∀ s, allowed s → Coherent Q none s → Resting Q s s.domains

/-- Nothing is asked for. -/
theorem keeps_trivial (allowed : Store → Prop) : Keeps allowed .trivial :=
  fun _ _ hcoh => ⟨hcoh.inhabited, fun _ _ => True.intro⟩

/-- Where nothing waits, a snapshot can be taken. -/
theorem keeps_of_idle (Q : Criterion) : Keeps (fun s => s.agenda.isEmpty = true) Q :=
  fun s hidle hcoh => hcoh.resting (s.agenda.isEmpty_iff.mp hidle)

theorem Resting.congr {D E : Domains} (h : Resting Q s D) (hget : D.get = E.get) :
    Resting Q s E := by
  refine ⟨hget ▸ h.inhabited, fun c hc => ?_⟩
  exact Q.congr c D E (fun v _ => congrFun hget v) (h.met c hc)

/-- A snapshot at a fixpoint can be returned to. -/
theorem Sound.snapshot (h : Sound Q s live) (hrest : s.failure = none → Resting Q s s.domains) :
    Sound Q s.snapshot.2 (s.snapshot.1 :: live) := by
  have hmodel : SameModel s s.snapshot.2 := ⟨rfl, rfl, rfl, .refl _⟩
  have hdepth : s.snapshot.2.depth = s.depth + 1 := Domains.depth_checkpoint s.domains
  have hback : s.domains.checkpoint.restore s.depth = s.domains.settled :=
    s.domains.restore_checkpoint
  refine ⟨hmodel.wired h.wired, h.numbered, h.stamped.checkpoint, h.quiet, fun hf => ?_,
    fun saved hsaved => ?_, ?_⟩
  · have hcoh := h.coherent hf
    refine ⟨hcoh.inhabited, hcoh.quiet, hcoh.agenda, fun i c hc => ?_⟩
    refine (hcoh.served i c hc).imp id (Or.imp id fun hmet => ?_)
    exact Q.congr c s.domains _ (fun _ _ => rfl) hmet
  · rcases List.mem_cons.mp hsaved with rfl | hsaved
    · refine ⟨rfl, by rw [hdepth]; exact Nat.lt_succ_self _, fun hf => ?_⟩
      change Resting Q s.snapshot.2 (s.domains.checkpoint.restore s.depth)
      rw [hback]
      exact ((hrest hf).sameModel hmodel).congr rfl
    · obtain ⟨hnumber, hlt, hresting⟩ := h.alive saved hsaved
      -- the older snapshots lead back to where they led before
      refine ⟨hnumber, by rw [hdepth]; exact Nat.lt_succ_of_lt hlt, fun hf => ?_⟩
      change Resting Q s.snapshot.2 (s.domains.checkpoint.restore saved.depth)
      rw [Domains.restore_checkpoint_of_lt h.stamped hlt]
      exact (hresting hf).sameModel hmodel
  · exact List.pairwise_cons.mpr ⟨fun saved hsaved => (h.alive saved hsaved).depth, h.order⟩

/-- **RESTORING A LIVE SNAPSHOT** succeeds; the older ones stay alive. -/
theorem Sound.restore {newer older : List Snapshot} {saved : Snapshot}
    (h : Sound Q s (newer ++ saved :: older)) : Sound Q (s.restore saved).2 older := by
  obtain ⟨hnumber, hdepth, hresting⟩ :=
    h.alive saved (List.mem_append_right _ List.mem_cons_self)
  obtain ⟨_, horder, _⟩ := List.pairwise_append.mp h.order
  obtain ⟨holder, horder⟩ := List.pairwise_cons.mp horder
  have hres := Domains.restored s.domains (Nat.le_of_lt hdepth)
  rw [restore_eq hnumber hdepth]
  have hmodel : SameModel s { s with
      domains := s.domains.restore saved.depth
      agenda := .empty
      failure := saved.failure } := ⟨rfl, rfl, rfl, hres.owner, hres.size⟩
  refine ⟨hmodel.wired h.wired, h.numbered, hres.stamped h.stamped, hres.changes, fun hf => ?_,
    fun other hother => ?_, horder⟩
  · exact ((hresting hf).sameModel hmodel).coherent hres.changes rfl
  · have hmem : other ∈ newer ++ saved :: older :=
      List.mem_append_right _ (List.mem_cons_of_mem _ hother)
    -- going back further later is going back further now
    have hlt := holder other hother
    obtain ⟨hnumber', _, hresting'⟩ := h.alive other hmem
    refine ⟨hnumber'.trans hmodel.number.symm, ?_, fun hf => ?_⟩
    · change other.depth < (s.domains.restore saved.depth).depth
      rw [hres.depth]
      exact hlt
    · change Resting Q _ ((s.domains.restore saved.depth).restore other.depth)
      rw [hres.restore other.depth (Nat.le_of_lt hlt)]
      exact (hresting' hf).sameModel hmodel

/-- A store that a search gives back is sound. -/
theorem Sound.returned (h : Sound Q s live) (hrest : s.failure = none → Resting Q s s.domains)
    (ht : Search.Returned s t) : Sound Q t live := by
  have hdomains : t.domains = s.domains := ht.domains.trans (Domains.settled_of_quiet h.quiet)
  have hev : Evolves s t := by
    refine ⟨ht.model, ?_, ?_⟩
    · rw [hdomains]
      exact .refl _
    · rw [hdomains]
  refine h.evolves hev (hdomains ▸ h.quiet) fun hf => ?_
  have hresting := (hrest (ht.failure ▸ hf)).sameModel ht.model
  rw [← hdomains] at hresting
  exact hresting.coherent (hdomains ▸ h.quiet) ht.agenda

/-! ## Every reachable store -/

/-- The empty store is sound. -/
theorem sound_empty (number : Nat) (listensTo : Option Level) :
    Sound Q (.empty number listensTo) [] := by
  have hblank := (Declared.empty number listensTo).blank
  exact ⟨hblank.wired, Nat.zero_le _, Domains.stamped_empty number, rfl,
    fun _ => hblank.coherent Q, (fun _ hsaved => nomatch hsaved), .nil⟩

/-- The scope of a search that has been begun belongs to the store. -/
theorem owns_of_start {ρ τ : Type} {goal : SearchGoal} {random : ρ} {termination : τ}
    {begun : Search ρ τ} (h : Search.start goal random termination s = .ok begun) :
    ∀ v ∈ goal.scope, s.owns v = true := by
  rw [Search.start] at h
  split at h
  · cases h
  · rename_i hall
    rw [Bool.not_eq_true', Bool.not_eq_false, List.all_eq_true] at hall
    exact hall

/-- **EVERY REACHABLE STORE IS SOUND**, if snapshots are only taken in states where
    nothing is left to do. -/
theorem Reached.sound {allowed : Store → Prop} (hkeeps : Keeps allowed Q)
    (h : Reached allowed s live) : Sound Q s live := by
  induction h with
  | empty number listensTo => exact sound_empty number listensTo
  | newInteger lower upper name _ ih => exact ih.enlarges (newInteger_enlarges _ lower upper name)
  | newSparse values name _ ih => exact ih.enlarges (newSparse_enlarges _ values name)
  | newBoolean name _ ih => exact ih.enlarges (newBoolean_enlarges _ name)
  | extendDomain v lower upper _ ih => exact ih.enlarges (extendDomain_enlarges _ v lower upper)
  | impose issued room _ ih => exact ih.impose issued room
  | assign v value _ ih => exact ih.assign v value
  | removeValue v value _ ih => exact ih.prune v _
  | setLowerBound v bound _ ih => exact ih.prune v _
  | setUpperBound v bound _ ih => exact ih.prune v _
  | propagate _ ih => exact ih.propagate
  | snapshot moment _ ih => exact ih.snapshot fun hf => hkeeps _ moment (ih.coherent hf)
  | restore _ ih => exact ih.restore
  | @search s t live ρ τ policy rule goal random termination begun used reported moment start
      session left _ ih =>
      -- whatever the session was, the store has returned to where the search began
      obtain ⟨begun', hstart, hbegun⟩ :=
        Search.start_begun ih.stamped (owns_of_start start) random termination
      rw [start] at hstart
      cases hstart
      obtain ⟨u, hleft, hreturned⟩ := session.release hbegun
      rw [left] at hleft
      cases hleft
      exact ih.returned (fun hf => hkeeps _ moment (ih.coherent hf)) hreturned

end Store

end ConstraintSolver
