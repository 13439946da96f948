import ConstraintSolver.Proofs.Guards
import ConstraintSolver.Proofs.Labels
import ConstraintSolver.Proofs.Requests

/-! # Naming — names identify variables

    The names of anonymous variables are made up from their positions and not
    entered in any table.  All names of this form are reserved
    (`Names.isReserved_anonymous`), also those that have not been made up yet.
    So a table without reserved names and without repetitions tells all its
    positions apart by their names (`Names.Proper.get_injective`), whatever is
    declared later.

    A log holds what has been asked of a store and what it has answered
    (`Store.Logged`).  Of all requests only a declaration that goes well
    touches the names, and it adds a proper one (`Store.Answered.effect`).  So
    at any time the table is proper and says what the log says
    (`Store.Logged.recorded`).

    A search reports what it has read under the names its store had when it
    began (`Search.Course.reported_restriction`).  So a value is found under
    the name of its variable. -/

namespace ConstraintSolver

/-! ## Tables of names -/

namespace Names

variable {names : Names} {name : Option String} {n : String} {i j : Nat}

/-- An anonymous name is an underscore and the digits of the position. -/
theorem toList_anonymous (k : Nat) : (anonymous k).toList = '_' :: Nat.toDigits 10 k := by
  rw [anonymous, String.toList_append, Nat.toString_eq_repr, Nat.toList_repr]
  rfl

/-- **EVERY NAME THAT CAN BE MADE UP** is reserved. -/
theorem isReserved_anonymous (k : Nat) : isReserved (anonymous k) = true := by
  have hdigits : (Nat.toDigits 10 k).all Char.isDigit = true :=
    List.all_eq_true.mpr fun c hc => Nat.isDigit_of_mem_toDigits (by decide) (by decide) hc
  have hsome : (Nat.toDigits 10 k).isEmpty = false :=
    List.isEmpty_eq_false_iff.mpr Nat.toDigits_ne_nil
  rw [isReserved, toList_anonymous]
  simp only [hdigits, hsome, Bool.not_false, Bool.and_self]

/-- Anonymous names tell the positions apart. -/
theorem anonymous_injective (h : anonymous i = anonymous j) : i = j := by
  have hnumbered : ∀ k, anonymous k = numbered "_" k "" := fun _ => String.append_empty.symm
  rw [hnumbered, hnumbered] at h
  exact (numbered_inj (by decide) (by decide) (by decide) (by decide) h).1

/-- No name that has been given is reserved, and none has been given twice. -/
structure Proper (names : Names) : Prop where
  unreserved : ∀ (i : Nat) n, names.given[i]? = some (some n) → isReserved n = false
  once : ∀ (i j : Nat) n, names.given[i]? = some (some n) → names.given[j]? = some (some n) → i = j

theorem proper_empty : empty.Proper := ⟨(fun _ _ h => nomatch h), (fun _ _ _ h => nomatch h)⟩

/-- An available name, or none, can be added. -/
theorem Proper.add (h : names.Proper)
    (hname : ∀ n, name = some n → isReserved n = false ∧ some n ∉ names.given.toList) :
    (names.add name).Proper := by
  -- a given name is the new one, or was given before
  have hgiven : ∀ (i : Nat) n, (names.add name).given[i]? = some (some n) →
      (i = names.given.size ∧ name = some n) ∨ names.given[i]? = some (some n) := by
    intro i n hi
    rw [Names.add, Array.getElem?_push] at hi
    split at hi
    · rename_i hlast
      exact Or.inl ⟨hlast, Option.some.inj hi⟩
    · exact Or.inr hi
  have hold : ∀ {i : Nat} {n}, names.given[i]? = some (some n) → some n ∈ names.given.toList :=
    fun hi => Array.mem_toList_iff.mpr (Array.mem_of_getElem? hi)
  refine ⟨fun i n hi => ?_, fun i j n hi hj => ?_⟩
  · rcases hgiven i n hi with ⟨_, hn⟩ | hi
    · exact (hname n hn).1
    · exact h.unreserved i n hi
  · rcases hgiven i n hi with ⟨rfl, hn⟩ | hi
    · rcases hgiven j n hj with ⟨rfl, _⟩ | hj
      · rfl
      · exact absurd (hold hj) (hname n hn).2
    · rcases hgiven j n hj with ⟨rfl, hn⟩ | hj
      · exact absurd (hold hi) (hname n hn).2
      · exact h.once i j n hi hj

/-- A name that has been given is displayed. -/
theorem get_of_given (h : names.given[i]? = some (some n)) : names.get i = n := by
  rw [get, h]
  rfl

/-- A position without a name has the one that is made up. -/
theorem get_cases (names : Names) (i : Nat) :
    (∃ n, names.given[i]? = some (some n) ∧ names.get i = n) ∨ names.get i = anonymous i := by
  cases h : names.given[i]?.join with
  | some n =>
      have hgiven := Option.join_eq_some_iff.mp h
      exact Or.inl ⟨n, hgiven, get_of_given hgiven⟩
  | none =>
      right
      rw [get, h]
      rfl

/-- **NAMES TELL POSITIONS APART**, those which have been given and those which have not. -/
theorem Proper.get_injective (h : names.Proper) (hij : names.get i = names.get j) : i = j := by
  -- a given name is not reserved, and one that is made up is
  have hapart : ∀ {i : Nat} {n} k, names.given[i]? = some (some n) → n ≠ anonymous k := by
    rintro i _ k hi rfl
    have hreserved := h.unreserved i _ hi
    rw [isReserved_anonymous] at hreserved
    cases hreserved
  rcases names.get_cases i with ⟨n, hi, hget⟩ | hget
  · rcases names.get_cases j with ⟨m, hj, hget'⟩ | hget'
    · obtain rfl : n = m := hget.symm.trans (hij.trans hget')
      exact h.once i j n hi hj
    · exact absurd (hget.symm.trans (hij.trans hget')) (hapart j hi)
  · rcases names.get_cases j with ⟨m, hj, hget'⟩ | hget'
    · exact absurd (hget'.symm.trans (hij.symm.trans hget)) (hapart i hj)
    · exact anonymous_injective (hget.symm.trans (hij.trans hget'))

/-- A position is found under the name which it has been given. -/
theorem Proper.find?_eq_some_iff (h : names.Proper) :
    names.find? n = some i ↔ names.given[i]? = some (some n) := by
  rw [find?, Array.findIdx?_eq_some_iff_getElem]
  constructor
  · rintro ⟨hi, heq, _⟩
    rw [Array.getElem?_eq_getElem hi, eq_of_beq heq]
  · intro hi
    obtain ⟨hlt, heq⟩ := Array.getElem?_eq_some_iff.mp hi
    refine ⟨hlt, by rw [heq]; exact beq_self_eq_true _, fun j hji hj => ?_⟩
    have hj' : names.given[j]? = some (some n) := by
      rw [Array.getElem?_eq_getElem (Nat.lt_trans hji hlt), eq_of_beq hj]
    exact absurd (h.once j i n hj' hi) (Nat.ne_of_lt hji)

end Names

namespace Store

variable {s t : Store} {r : Request} {reply : Reply}

/-! ## Logs -/

/-- A request has been answered.  A search is answered when it is left. -/
inductive Answered (s : Store) : Request → Reply → Store → Prop
  | performed (r : Request) (outside : (r.perform s).1 ≠ .begun) :
      Answered s r (r.perform s).1 (r.perform s).2
  | searched {t : Store} {ρ τ : Type} {policy : Policy ρ} {rule : TerminationRule τ}
      {goal : SearchGoal} {random : ρ} {termination : τ} {begun used : Search ρ τ}
      {reported : List Solution} (start : Search.start goal random termination s = .ok begun)
      (session : Search.Session policy rule begun reported used)
      (left : used.release = (.ok (), t)) :
      Answered s (.search goal random termination) .begun t

/-- What has been asked of a store and what it has answered, the latest last. -/
inductive Logged : Store → List (Request × Reply) → Prop
  | empty (number : Nat) (listensTo : Option Level) : Logged (.empty number listensTo) []
  | answered {s t : Store} {log : List (Request × Reply)} {r : Request} {reply : Reply} :
      Logged s log → Answered s r reply t → Logged t (log ++ [(r, reply)])

/-- Requests that do not begin a search can be made one after the other. -/
theorem Logged.run {log : List (Request × Reply)} (h : Logged s log) (rs : List Request)
    (houtside : Reply.begun ∉ (Request.run s rs).1) :
    Logged (Request.run s rs).2 (log ++ rs.zip (Request.run s rs).1) := by
  induction rs generalizing s log with
  | nil => rwa [Request.run, List.zip_nil_left, List.append_nil]
  | cons r rs ih =>
      obtain ⟨hfirst, hrest⟩ := List.ne_and_not_mem_of_not_mem_cons houtside
      have hlogged := ih (h.answered (.performed r hfirst.symm)) hrest
      rwa [List.append_assoc] at hlogged

/-- According to the log the variable was declared with this name, or without one. -/
def Declares (log : List (Request × Reply)) (v : Variable) (name : Option String) : Prop :=
  ∃ r : Request, (r, Reply.declared v) ∈ log ∧ r.naming? = some name

/-- One more variable has been declared, under a name that was available or without one. -/
structure AddsName (s t : Store) (r : Request) (reply : Reply) : Prop where
  told : reply = .declared s.nextVariable
  grown : ∃ name d, r.naming? = some name ∧ t = s.grown d name ∧
    ∀ n, name = some n → Names.isReserved n = false ∧ some n ∉ s.names.given.toList
  root : s.depth = 0

/-- There are the same variables under the same names. -/
structure KeepsNames (s t : Store) (r : Request) (reply : Reply) : Prop where
  told : ∀ name v, r.naming? = some name → reply ≠ .declared v
  names : t.names = s.names
  shape : s.domains.SameShape t.domains
  stamped : t.domains.Stamped

/-- A request that is no declaration declares nothing. -/
theorem keepsNames_of (hr : r.naming? = none) (hnames : t.names = s.names)
    (hshape : s.domains.SameShape t.domains) (hst : t.domains.Stamped) :
    KeepsNames s t r reply := by
  refine ⟨fun name v hname => ?_, hnames, hshape, hst⟩
  rw [hr] at hname
  cases hname

/-- What keeps the variables keeps their names. -/
theorem SameModel.keepsNames (h : SameModel s t) (hst : t.domains.Stamped)
    (hr : r.naming? = none) : KeepsNames s t r reply :=
  keepsNames_of hr h.names h.shape hst

theorem Evolves.keepsNames (h : Evolves s t) (hst : s.domains.Stamped) (hr : r.naming? = none) :
    KeepsNames s t r reply :=
  h.toSameModel.keepsNames (h.retraces.stamped hst) hr

/-- A declaration that fails has declared nothing. -/
theorem keepsNames_of_error (hst : s.domains.Stamped) {e : Failure ModelError}
    (hperform : r.perform s = (Reply.ofModel .declared (.error e), s)) :
    KeepsNames s (r.perform s).2 r (r.perform s).1 := by
  rw [hperform]
  refine ⟨fun name v _ => ?_, rfl, .refl _, hst⟩
  cases e <;> exact nofun

/-- A declaration adds a name, or is refused and changes none. -/
theorem effect_declare (hst : s.domains.Stamped) {name : Option String} (d : Domain)
    (hname : r.naming? = some name)
    (hperform : r.perform s = Prod.map (.ofModel .declared) id (s.declare d name)) :
    AddsName s (r.perform s).2 r (r.perform s).1 ∨
      KeepsNames s (r.perform s).2 r (r.perform s).1 := by
  rcases s.declare_cases d name with ⟨⟨e, herror⟩, hsame⟩ | ⟨hroot, hdeclare⟩
  · have heq : s.declare d name = (.error e, s) := Prod.ext herror hsame
    exact Or.inr (keepsNames_of_error hst (hperform.trans (by rw [heq]; rfl)))
  · left
    rw [hperform]
    refine ⟨by rw [hdeclare]; rfl, ⟨name, d, hname, by rw [hdeclare]; rfl, ?_⟩, hroot⟩
    rintro n rfl
    -- had the name not been available, it would have been refused
    rcases s.names.check_cases n with ⟨_, hcheck⟩ | ⟨_, hcheck⟩ | ⟨hreserved, hfresh, _⟩
    · rw [declare_of_error hcheck] at hdeclare
      cases hdeclare
    · rw [declare_of_error hcheck] at hdeclare
      cases hdeclare
    · exact ⟨hreserved, hfresh⟩

/-- Imposing a constraint declares nothing. -/
theorem keepsNames_impose (hst : s.domains.Stamped) (c : Constraint) :
    KeepsNames s (s.impose c).2 (.impose c) reply := by
  have hst' := (impose_continues hst c).stamped
  rcases s.impose_cases c with heq | ⟨_, _, heq⟩
  · rw [heq] at hst' ⊢
    exact (SameModel.refl s).keepsNames hst' rfl
  · have hprop := evolves_propagate (s.enter c).2
    have hkept : (s.impose c).2.names = s.names ∧
        s.domains.SameShape (s.impose c).2.domains := by
      rcases heq with heq | ⟨e, heq⟩
      · rw [heq]
        exact ⟨hprop.names, hprop.shape⟩
      · rw [heq]
        exact ⟨hprop.names, hprop.shape⟩
    exact keepsNames_of rfl hkept.1 hkept.2 hst'

/-- Extending a domain keeps the names. -/
theorem keepsNames_extendDomain (hst : s.domains.Stamped) (v : Variable) (lower upper : Int) :
    KeepsNames s (s.extendDomain v lower upper).2 (.extendDomain v lower upper) reply := by
  rcases s.extendDomain_cases v lower upper with ⟨_, heq⟩ | ⟨d, _, _, _, hroot, heq⟩
  · rw [heq]
    exact (SameModel.refl s).keepsNames hst rfl
  · rw [heq]
    exact keepsNames_of rfl rfl ⟨rfl, Array.size_modify⟩ (Domains.stamped_extend hst hroot v d)

/-- Going back to a snapshot keeps the names. -/
theorem keepsNames_restore (hst : s.domains.Stamped) (saved : Snapshot) :
    KeepsNames s (s.restore saved).2 (.restore saved) reply := by
  refine (sameModel_restore s saved).keepsNames ?_ rfl
  rcases s.restore_cases saved with heq | ⟨_, hdepth, heq⟩
  · rwa [heq]
  · rw [heq]
    exact (Domains.restored s.domains (Nat.le_of_lt hdepth)).stamped hst

/-- **WHAT A REQUEST DOES TO THE NAMES**: a declaration that goes well adds one, and nothing
    else touches them. -/
theorem Answered.effect (h : Answered s r reply t) (hst : s.domains.Stamped) :
    AddsName s t r reply ∨ KeepsNames s t r reply := by
  cases h with
  | searched start session left =>
      have hreturned := returned_of_session hst start session left
      exact Or.inr (hreturned.model.keepsNames (returned_continues hst hreturned).stamped rfl)
  | performed r outside =>
      cases r with
      | newInteger lower upper name =>
          cases hdomain : Domain.ofBounds? lower upper with
          | error e =>
              refine Or.inr (keepsNames_of_error hst (e := .refused (.domain e)) ?_)
              rw [Request.perform, newInteger, hdomain]
              rfl
          | ok d => exact effect_declare hst d rfl (by rw [Request.perform, newInteger, hdomain])
      | newSparse values name =>
          cases hdomain : Domain.ofValues? values with
          | error e =>
              refine Or.inr (keepsNames_of_error hst (e := .refused (.domain e)) ?_)
              rw [Request.perform, newSparse, hdomain]
              rfl
          | ok d => exact effect_declare hst d rfl (by rw [Request.perform, newSparse, hdomain])
      | newBoolean name =>
          by_cases hbelow : (name.isNone && s.depth != 0) = true
          · refine Or.inr (keepsNames_of_error hst (e := .misuse .extendedBelowRoot) ?_)
            rw [Request.perform, newBoolean, if_pos hbelow]
            rfl
          · exact effect_declare hst _ rfl (by rw [Request.perform, newBoolean, if_neg hbelow])
      | extendDomain v lower upper => exact Or.inr (keepsNames_extendDomain hst v lower upper)
      | impose c => exact Or.inr (keepsNames_impose hst c)
      | assign v value => exact Or.inr ((evolves_assign s v value).keepsNames hst rfl)
      | removeValue v value => exact Or.inr ((evolves_prune s v _).keepsNames hst rfl)
      | setLowerBound v bound => exact Or.inr ((evolves_prune s v _).keepsNames hst rfl)
      | setUpperBound v bound => exact Or.inr ((evolves_prune s v _).keepsNames hst rfl)
      | propagate => exact Or.inr ((evolves_propagate s).keepsNames hst rfl)
      | snapshot => exact Or.inr (keepsNames_of rfl rfl (.refl _) hst.checkpoint)
      | restore saved => exact Or.inr (keepsNames_restore hst saved)
      | search goal random termination =>
          -- the search has not begun
          rw [Request.perform] at outside ⊢
          split at outside
          · exact absurd rfl outside
          · exact Or.inr ((SameModel.refl s).keepsNames hst rfl)
          · exact Or.inr ((SameModel.refl s).keepsNames hst rfl)

/-! ## What a log says about the names -/

variable {log : List (Request × Reply)} {v : Variable} {name : Option String} {n : String}

/-- One entry more in a log declares at most one variable more. -/
theorem declares_snoc : Declares (log ++ [(r, reply)]) v name ↔
    Declares log v name ∨ (reply = .declared v ∧ r.naming? = some name) := by
  constructor
  · rintro ⟨r', hmem, hname⟩
    rcases List.mem_append.mp hmem with hmem | hmem
    · exact Or.inl ⟨r', hmem, hname⟩
    · cases List.mem_singleton.mp hmem
      exact Or.inr ⟨rfl, hname⟩
  · rintro (⟨r', hmem, hname⟩ | ⟨rfl, hname⟩)
    · exact ⟨r', List.mem_append_left _ hmem, hname⟩
    · exact ⟨r, List.mem_append_right _ List.mem_cons_self, hname⟩

/-- The table of names is proper and holds what the log says. -/
structure Recorded (s : Store) (log : List (Request × Reply)) : Prop where
  stamped : s.domains.Stamped
  proper : s.names.Proper
  size : s.names.given.size = s.variableCount
  declares : ∀ v name, Declares log v name ↔
    v ∈ s.allVariables ∧ s.names.given[v.index]? = some name

/-- A log with a declaration more is right about the names. -/
theorem Recorded.adds (h : Recorded s log) (hadds : AddsName s t r reply) :
    Recorded t (log ++ [(r, reply)]) := by
  obtain ⟨rfl, ⟨name, d, hname, rfl, havailable⟩, hroot⟩ := hadds
  refine ⟨Domains.stamped_push h.stamped hroot d, h.proper.add havailable, ?_, fun v other => ?_⟩
  · exact (Array.size_push _).trans ((congrArg (· + 1) h.size).trans (Array.size_push _).symm)
  · have hgiven : (s.grown d name).names.given = s.names.given.push name := rfl
    -- the new entry is behind those of all older variables
    have hold : v ∈ s.allVariables → v.index ≠ s.variableCount :=
      fun hv => Nat.ne_of_lt (mem_allVariables.mp hv).2
    rw [declares_snoc, h.declares, mem_allVariables_grown, hgiven, Array.getElem?_push, h.size,
      hname]
    constructor
    · rintro (⟨hv, hother⟩ | ⟨hv, hother⟩)
      · exact ⟨Or.inr hv, (if_neg (hold hv)).trans hother⟩
      · cases hv
        exact ⟨Or.inl rfl, (if_pos rfl).trans hother⟩
    · rintro ⟨rfl | hv, hother⟩
      · rw [if_pos rfl] at hother
        exact Or.inr ⟨rfl, hother⟩
      · rw [if_neg (hold hv)] at hother
        exact Or.inl ⟨hv, hother⟩

/-- A log with another request more is right about the names. -/
theorem Recorded.keeps (h : Recorded s log) (hkeeps : KeepsNames s t r reply) :
    Recorded t (log ++ [(r, reply)]) := by
  have hall : ∀ v, v ∈ t.allVariables ↔ v ∈ s.allVariables := fun v => by
    rw [mem_allVariables, mem_allVariables, Domains.Owns, Domains.Owns, hkeeps.shape.1,
      hkeeps.shape.2]
  refine ⟨hkeeps.stamped, hkeeps.names ▸ h.proper, ?_, fun v name => ?_⟩
  · rw [hkeeps.names, h.size]
    exact hkeeps.shape.2.symm
  · rw [declares_snoc, h.declares, hall, hkeeps.names]
    exact or_iff_left fun hnew => hkeeps.told name v hnew.2 hnew.1

/-- **THE TABLE SAYS WHAT THE LOG SAYS**, at any time. -/
theorem Logged.recorded (h : Logged s log) : Recorded s log := by
  induction h with
  | empty number listensTo =>
      refine ⟨Domains.stamped_empty number, Names.proper_empty, rfl, fun v name => ⟨?_, ?_⟩⟩
      · rintro ⟨r, hmem, _⟩
        cases hmem
      · rintro ⟨hv, _⟩
        exact absurd (mem_allVariables.mp hv).2 (Nat.not_lt_zero _)
  | answered _ hanswered ih =>
      rcases hanswered.effect ih.stamped with hadds | hkeeps
      · exact ih.adds hadds
      · exact ih.keeps hkeeps

/-- Variables of the store are told apart by their names. -/
theorem Recorded.name_injective (h : Recorded s log) {w : Variable} (hv : s.owns v = true)
    (hw : s.owns w = true) (hname : s.name v = s.name w) : v = w := by
  have hv' : s.domains.Owns v := by simpa [owns] using hv
  have hw' : s.domains.Owns w := by simpa [owns] using hw
  have hindex : v.index = w.index := h.proper.get_injective hname
  rw [← Domains.eq_of_owns hv', hindex, Domains.eq_of_owns hw']

/-- No variable is listed twice. -/
theorem nodup_allVariables (s : Store) : s.allVariables.Nodup :=
  List.nodup_range.map fun _ _ h => congrArg Variable.index h

/-- **NAMES ARE UNIQUE**, given or anonymous. -/
theorem Recorded.nodup_names (h : Recorded s log) : (s.allVariables.map s.name).Nodup :=
  s.nodup_allVariables.map_on fun _ hv _ hw =>
    h.name_injective (owns_of_mem hv) (owns_of_mem hw)

/-- A variable is looked up by the name it was declared with. -/
theorem Recorded.lookup_iff (h : Recorded s log) :
    s.lookup n = .ok v ↔ Declares log v (some n) := by
  rw [h.declares, lookup]
  constructor
  · intro hlookup
    cases hfind : s.names.find? n with
    | none =>
        rw [hfind] at hlookup
        cases hlookup
    | some i =>
        rw [hfind] at hlookup
        cases hlookup
        have hgiven := h.proper.find?_eq_some_iff.mp hfind
        have hlt : i < s.variableCount := h.size ▸ (Array.getElem?_eq_some_iff.mp hgiven).1
        exact ⟨mem_allVariables.mpr ⟨rfl, hlt⟩, hgiven⟩
  · rintro ⟨hv, hgiven⟩
    rw [h.proper.find?_eq_some_iff.mpr hgiven]
    exact congrArg Except.ok (Domains.eq_of_owns (mem_allVariables.mp hv).1)

/-- A variable has the name it was declared with, or the anonymous one of its position. -/
theorem Recorded.name_of_declares (h : Recorded s log) (hv : Declares log v name) :
    s.name v = name.getD (Names.anonymous v.index) := by
  have hgiven := ((h.declares v name).mp hv).2
  rw [Store.name, Names.get, hgiven]
  rfl

end Store

/-! ## Solutions -/

namespace Search

open Store

variable {ρ τ : Type} {policy : Policy ρ} {rule : TerminationRule τ} {base : Store}
  {goal : SearchGoal} {s begun : Search ρ τ} {reported : List Solution} {opened : Nat}

/-- The store of a search has the variables and names it had when the search began. -/
theorem Standing.model (h : Standing base s) : SameModel base s.store := by
  cases h with
  | moving _ amid => exact amid.model
  | selecting _ amid => exact amid.model
  | branching _ amid => exact amid.model
  | exhausted _ _ _ returned => exact returned.model

/-- A search that is started looks for what was asked. -/
theorem goal_of_start {random : ρ} {termination : τ}
    (h : start goal random termination base = .ok begun) : begun.control.goal = goal := by
  obtain ⟨saved, u, hcontrol | ⟨runs, hcontrol⟩⟩ := control_of_start h
  · rw [hcontrol]
    rfl
  · rw [hcontrol]
    rfl

/-- The goal of a search does not change. -/
theorem Course.goal_eq (h : Course policy rule begun reported opened s) :
    s.control.goal = begun.control.goal := by
  induction h with
  | begun => rfl
  | moved _ move ih => exact (steady_step move).goal.trans ih
  | changed _ _ ih => exact ih
  | summarized _ hsummary ih =>
      rcases summarize_cases hsummary with rfl | hfinish
      · exact ih
      · exact (finish_ok hfinish).2.2.2.trans ih

/-- What a step reports has been read under the names of the store that the search began
    with. -/
theorem restriction_of_step (h : Standing base s) {t : Search ρ τ} {x : Solution}
    (hstep : s.step policy rule = (.ok (some x), t)) :
    ∃ σ, x = base.restriction s.control.goal.scope σ := by
  have hread : ∀ {c : SearchControl ρ τ} {t u : Store} {x : Solution}, Amid base ⟨c, t⟩ →
      t.hasCompletion = (.ok true, u) → readSolution u c.goal.scope = .ok x.entries →
      ∃ σ, x = base.restriction c.goal.scope σ := by
    intro c t u x amid check read
    obtain ⟨held, u', hcheck, hev, _⟩ := undoes_hasCompletion t amid.stamped
    obtain rfl : u = u' := congrArg Prod.snd (check.symm.trans hcheck)
    obtain ⟨σ, _, rfl⟩ := read_restriction read
    exact ⟨σ, (amid.model.trans hev.toSameModel).restriction _ σ⟩
  -- solutions are found while selecting only
  have hamid : s.control.phase = .selecting → Amid base s := fun hphase => by
    cases h with
    | moving phase => rcases phase with phase | phase <;> exact nomatch hphase.symm.trans phase
    | selecting _ amid => exact amid
    | branching phase => exact nomatch hphase.symm.trans phase
    | exhausted phase => exact nomatch hphase.symm.trans phase
  generalize hfound : some x = found at hstep
  cases step_moves hstep with
  | reported phase _ check read =>
      cases hfound
      exact hread (hamid phase) check read
  | reportedLast phase _ check read =>
      cases hfound
      exact hread (hamid phase) check read
  | _ => cases hfound

/-- **WHATEVER IS REPORTED** gives values to the scope under the names of the store that
    the search began with. -/
theorem Course.reported_restriction (hbegun : Begun base goal begun)
    (h : Course policy rule begun reported opened s) :
    ∀ x ∈ reported, ∃ σ, x = base.restriction begun.control.goal.scope σ := by
  induction h with
  | begun => exact fun x hx => nomatch hx
  | @moved _ _ _ _ found hcourse move ih =>
      intro x hx
      rcases List.mem_append.mp hx with hx | hx
      · exact ih x hx
      · obtain rfl : found = some x := Option.mem_toList.mp hx
        rw [← hcourse.goal_eq]
        exact restriction_of_step (hcourse.standing hbegun) move
  | changed _ _ ih => exact ih
  | summarized _ _ ih => exact ih

end Search

namespace Store

variable {s : Store} {log : List (Request × Reply)} {scope : List Variable} {v : Variable}

/-- An entry is found by what is true of no other entry. -/
theorem find?_restriction {σ : Assignment} {p : Assigned → Bool} (hv : v ∈ scope)
    (hp : p ⟨v, s.name v, σ v⟩ = true)
    (honly : ∀ w ∈ scope, p ⟨w, s.name w, σ w⟩ = true → w = v) :
    (s.restriction scope σ).entries.find? p = some ⟨v, s.name v, σ v⟩ := by
  rw [restriction, List.find?_map]
  cases hfound : scope.find? (p ∘ fun w => ⟨w, s.name w, σ w⟩) with
  | none => exact absurd hp (List.find?_eq_none.mp hfound v hv)
  | some w =>
      have hw : p ⟨w, s.name w, σ w⟩ = true := by simpa using List.find?_some hfound
      obtain rfl := honly w (List.mem_of_find?_eq_some hfound) hw
      rfl

/-- A value of a solution is found by the variable and by its name. -/
theorem Recorded.value_named (h : Recorded s log) {ρ τ : Type} {policy : Policy ρ}
    {rule : TerminationRule τ} {goal : SearchGoal} {random : ρ} {termination : τ}
    {begun used : Search ρ τ} {reported : List Solution}
    (hstart : Search.start goal random termination s = .ok begun)
    (hsession : Search.Session policy rule begun reported used) {x : Solution} (hx : x ∈ reported)
    (hv : v ∈ goal.scope) :
    ∃ value, x.valueOf? v = some value ∧ x.valueNamed? (s.name v) = some value := by
  have howns := owns_of_start hstart
  obtain ⟨begun', hstart', hbegun⟩ :=
    Search.start_begun h.stamped howns random termination
  rw [hstart] at hstart'
  cases hstart'
  obtain ⟨opened, hcourse⟩ := hsession.course
  obtain ⟨σ, rfl⟩ := hcourse.reported_restriction hbegun x hx
  rw [Search.goal_of_start hstart]
  refine ⟨σ v, ?_, ?_⟩
  · rw [Solution.valueOf?, find?_restriction hv (beq_self_eq_true v) fun w _ hw => eq_of_beq hw]
    rfl
  · rw [Solution.valueNamed?, find?_restriction hv (beq_self_eq_true (s.name v)) fun w hw hname =>
      h.name_injective (howns w hw) (howns v hv) (eq_of_beq hname)]
    rfl

/-- **NAMES IDENTIFY VARIABLES.** After any requests, whether they have gone well or not, no
    two variables have the same name; a variable that was declared without a name is named by
    its position, and one that was declared with a name has that name, which is not that of an
    anonymous variable at any position, also one that is declared later; a name leads to a
    variable exactly if it was declared with it; and in every solution of a search the value
    of a variable of the scope is found under its name. -/
theorem names_identify_variables (h : Logged s log) :
    (s.allVariables.map s.name).Nodup ∧
      (∀ v, v ∈ s.allVariables ↔ ∃ name, Declares log v name) ∧
      (∀ v, Declares log v none → s.name v = "_" ++ toString v.index) ∧
      (∀ v n, Declares log v (some n) →
        s.name v = n ∧ ∀ k : Nat, n ≠ "_" ++ toString k) ∧
      (∀ n v, s.lookup n = .ok v ↔ Declares log v (some n)) ∧
      ∀ {ρ τ : Type} (policy : Policy ρ) (rule : TerminationRule τ) (goal : SearchGoal)
        (random : ρ) (termination : τ) (begun used : Search ρ τ) (reported : List Solution),
        Search.start goal random termination s = .ok begun →
        Search.Session policy rule begun reported used →
        ∀ x ∈ reported, ∀ v ∈ goal.scope,
          ∃ value, x.valueOf? v = some value ∧ x.valueNamed? (s.name v) = some value := by
  have hrecorded := h.recorded
  refine ⟨hrecorded.nodup_names, fun v => ⟨fun hv => ?_, fun ⟨name, hname⟩ => ?_⟩,
    fun v hv => hrecorded.name_of_declares hv, fun v n hv => ⟨hrecorded.name_of_declares hv, ?_⟩,
    fun n v => hrecorded.lookup_iff, fun policy rule goal random termination begun used reported
      hstart hsession x hx v hv => hrecorded.value_named hstart hsession hx hv⟩
  · have hindex : v.index < s.names.given.size := hrecorded.size ▸ (mem_allVariables.mp hv).2
    exact ⟨_, (hrecorded.declares v _).mpr ⟨hv, Array.getElem?_eq_getElem hindex⟩⟩
  · exact ((hrecorded.declares v name).mp hname).1
  · rintro k rfl
    have hreserved := hrecorded.proper.unreserved _ _ ((hrecorded.declares v _).mp hv).2
    exact Bool.false_ne_true (hreserved.symm.trans (Names.isReserved_anonymous k))

/-- Declarations with and without names, some of which are refused. -/
def mixedRequests : List Request :=
  [.newInteger 0 3 (some "x"), .newSparse [1] (some "x"), .newInteger 0 3 (some "_1"),
    .newBoolean none, .newInteger 5 4 none, .newInteger 2 2 (some "_x")]

/-- The names after these requests, and a solution over a scope with a repetition. -/
theorem names_after_mixedRequests :
    let s := (Request.run (.empty 0 none) mixedRequests).2
    let log := mixedRequests.zip (Request.run (.empty 0 none) mixedRequests).1
    Logged s log ∧ s.allVariables.map s.name = ["x", "_1", "_x"] ∧
      (s.allVariables.map s.name).Nodup ∧ Declares log ⟨0, 2⟩ (some "_x") ∧
      ∃ (begun used : Search Generator Watch) (x : Solution),
        Search.start ⟨[⟨0, 1⟩, ⟨0, 0⟩, ⟨0, 1⟩], false, none⟩ (.ofSeed 7) (.new .indefinite) s =
            .ok begun ∧
          Search.Session (.of .inputOrder .inDomainMax) Watch.rule begun [x] used ∧
          x.text = "_1=1, x=3, _1=1" ∧ x.valueNamed? "x" = x.valueOf? ⟨0, 0⟩ := by
  intro s log
  have hlogged : Logged s log := (Logged.empty 0 none).run mixedRequests (by decide +kernel)
  obtain ⟨hnodup, _, _, _, hlookup, hvalues⟩ := names_identify_variables hlogged
  let goal : SearchGoal := ⟨[⟨0, 1⟩, ⟨0, 0⟩, ⟨0, 1⟩], false, none⟩
  let x := s.restriction goal.scope fun v => if v.index = 0 then 3 else 1
  -- the first answer, as the search computes it
  have hrun : (Search.start goal (Generator.ofSeed 7) (Watch.new .indefinite) s).map
      (fun begun => (begun.next (.of .inputOrder .inDomainMax) Watch.rule).1) =
      .ok (.ok (.solution x)) := by
    decide +kernel
  cases hstart : Search.start goal (Generator.ofSeed 7) (Watch.new .indefinite) s with
  | error e =>
      rw [hstart] at hrun
      cases hrun
  | ok begun =>
      rw [hstart] at hrun
      have hsession : Search.Session (.of .inputOrder .inDomainMax) Watch.rule begun [x] _ :=
        .next .begun (Prod.ext_iff.mpr ⟨Except.ok.inj hrun, rfl⟩)
      obtain ⟨value, hvalue, hnamed⟩ := hvalues _ _ goal _ _ begun _ _ hstart hsession x
        List.mem_cons_self ⟨0, 0⟩ (List.mem_cons_of_mem _ List.mem_cons_self)
      have hname : s.name ⟨0, 0⟩ = "x" := by decide +kernel
      exact ⟨hlogged, by decide +kernel, hnodup, (hlookup "_x" ⟨0, 2⟩).mp (by decide +kernel),
        begun, _, x, rfl, hsession, by decide +kernel, by rw [hvalue, ← hname, hnamed]⟩

end Store

end ConstraintSolver
