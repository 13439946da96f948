import ConstraintSolver.Proofs.Drafting
import ConstraintSolver.Proofs.Labels

/-! # Builds — what a sequence of operations comes to

    A build ends well or with its first error.  If it follows a plan, the only
    error there can be is that the model is inconsistent, and then the plan
    has no solution (`Build.LeadsTo`).  This is proved one operation at a
    time, and carried through sequences and loops. -/

namespace ConstraintSolver

open Constraint Store

/-- **WHAT A BUILD COMES TO**: it ends well with a result and a store as wanted, or the
    model is inconsistent, which only happens if there is no hope. -/
inductive Build.Ends {α : Type} (wanted : α → Store → Prop) (hopeless : Prop) :
    Except (Failure ModelError) α × Store → Prop
  | well {a : α} {t : Store} (h : wanted a t) : Ends wanted hopeless (.ok a, t)
  | badly {id : ConstraintId} {t : Store} (h : hopeless) :
      Ends wanted hopeless (.error (.refused (.modelInconsistent id)), t)

namespace Build

variable {α β : Type} {wanted : α → Store → Prop} {hopeless : Prop} {s : Store}

/-- The build, run in a store, comes to this. -/
def LeadsTo (b : Build α) (s : Store) (wanted : α → Store → Prop) (hopeless : Prop) : Prop :=
  Ends wanted hopeless (b s)

/-! ## Sequences and loops -/

/-- What a build leads to may be weakened. -/
theorem LeadsTo.mono {b : Build α} {wanted' : α → Store → Prop} {hopeless' : Prop}
    (h : b.LeadsTo s wanted hopeless) (hwanted : ∀ a t, wanted a t → wanted' a t)
    (hno : hopeless → hopeless') : b.LeadsTo s wanted' hopeless' := by
  rw [LeadsTo] at h ⊢
  generalize b s = r at h
  cases h with
  | well h => exact .well (hwanted _ _ h)
  | badly h => exact .badly (hno h)

theorem leadsTo_pure {a : α} (h : wanted a s) : LeadsTo (pure a) s wanted hopeless := .well h

/-- **ONE BUILD AFTER THE OTHER.** -/
theorem LeadsTo.bind {b : Build α} {f : α → Build β} {wanted' : β → Store → Prop}
    (h : b.LeadsTo s wanted hopeless)
    (hf : ∀ a t, wanted a t → (f a).LeadsTo t wanted' hopeless) :
    (b >>= f).LeadsTo s wanted' hopeless := by
  have heq : (b >>= f) s =
      match b s with
      | (.ok a, t) => f a t
      | (.error e, t) => (.error e, t) := by
    change ExceptT.bindCont f (b s).1 (b s).2 = _
    rcases b s with ⟨_ | _, t⟩ <;> rfl
  rw [LeadsTo] at h ⊢
  rw [heq]
  generalize b s = r at h
  cases h with
  | well h => exact hf _ _ h
  | badly h => exact .badly h

section Loops

variable {xs : List β}

/-- **A LOOP WITH RESULTS**, by what holds before each of its turns. -/
theorem leadsTo_mapM {f : β → Build α} (inv : Nat → Store → Prop) (result : Nat → α)
    (hstep : ∀ i (hi : i < xs.length) t, inv i t →
      (f xs[i]).LeadsTo t (fun a u => a = result i ∧ inv (i + 1) u) hopeless) (h : inv 0 s) :
    LeadsTo (xs.mapM f) s
      (fun as t => as = (List.range xs.length).map result ∧ inv xs.length t) hopeless := by
  induction xs generalizing s inv result with
  | nil => exact leadsTo_pure ⟨rfl, h⟩
  | cons x xs ih =>
      rw [List.mapM_cons]
      refine (hstep 0 (Nat.zero_lt_succ _) s h).bind fun a t ht => ?_
      have hlater := ih (fun i => inv (i + 1)) (fun i => result (i + 1))
        (fun i hi u hu => hstep (i + 1) (Nat.succ_lt_succ hi) u hu) ht.2
      refine hlater.bind fun as u hu => leadsTo_pure ⟨?_, hu.2⟩
      rw [ht.1, hu.1, List.length_cons, List.range_succ_eq_map, List.map_cons, List.map_map]
      rfl

/-- **A LOOP**, by what holds before each of its turns. -/
theorem leadsTo_forM {f : β → Build Unit} (inv : Nat → Store → Prop)
    (hstep : ∀ i (hi : i < xs.length) t, inv i t →
      (f xs[i]).LeadsTo t (fun _ u => inv (i + 1) u) hopeless) (h : inv 0 s) :
    LeadsTo (xs.forM f) s (fun _ t => inv xs.length t) hopeless := by
  induction xs generalizing s inv with
  | nil => exact leadsTo_pure h
  | cons x xs ih =>
      change LeadsTo (f x >>= fun _ => xs.forM f) s _ _
      refine (hstep 0 (Nat.zero_lt_succ _) s h).bind fun _ t ht => ?_
      exact ih (fun i => inv (i + 1)) (fun i hi u hu => hstep (i + 1) (Nat.succ_lt_succ hi) u hu) ht

end Loops

theorem range_prefix {i m : Nat} (h : i ≤ m) : List.range i <+: List.range m := by
  rw [List.prefix_iff_eq_take, List.length_range, List.take_range, Nat.min_eq_left h]

/-! ## Operations -/

section Operations

variable {P : Plan} {k : Nat} {cs : List Constraint} {d : Domain} {name : Option String}

/-- A declaration that succeeds. -/
theorem leadsTo_opened {b : Build Variable} (hs : AtFixpoint .stable s) (hroot : s.depth = 0)
    (hname : ∀ n, name = some n → s.names.check n = .ok ()) (hd : ∃ x, x ∈ d)
    (hb : b s = s.declare d name) :
    b.LeadsTo s (fun v t => v = s.nextVariable ∧ Opened s name d t) hopeless := by
  rw [LeadsTo, hb, declare_ok hname hroot]
  exact .well ⟨rfl, opened_grown hs hroot hd name⟩

/-- A variable between two bounds is the next one of the plan. -/
theorem leadsTo_integer (h : Stage P k cs s) {lower upper : Int} {name : String}
    (hlabel : P.label k = some name) (hdomain : P.domain k = .between lower upper)
    {x : Int} (hx : x ∈ Domain.between lower upper) :
    (integer lower upper name).LeadsTo s
      (fun v t => v = P.handle k ∧ Stage P (k + 1) cs t) hopeless := by
  have hb : integer lower upper name s = s.declare (.between lower upper) (some name) := by
    rw [integer, newInteger, Domain.ofBounds?_of_mem hx]
  have hname : ∀ n, some name = some n → s.names.check n = .ok () := by
    rintro n ⟨⟩
    exact h.check_ok hlabel
  refine (leadsTo_opened h.fixpoint h.root hname ⟨x, hx⟩ hb).mono ?_ id
  rintro v t ⟨rfl, ht⟩
  rw [← hlabel, ← hdomain] at ht
  exact ⟨h.nextVariable_eq, h.opened ht⟩

/-- A flag is the next variable of the plan. -/
theorem leadsTo_boolean (h : Stage P k cs s) (hlabel : P.label k = none)
    (hdomain : P.domain k = .between 0 1) :
    boolean.LeadsTo s (fun v t => v = P.handle k ∧ Stage P (k + 1) cs t) hopeless := by
  have hb : boolean s = s.declare (.between 0 1) none := by
    rw [boolean, newBoolean, h.root]
    rfl
  have hzero : (0 : Int) ∈ Domain.between 0 1 := Domain.mem_between.mpr (by decide)
  have hname : ∀ n, (none : Option String) = some n → s.names.check n = .ok () :=
    by rintro _ ⟨⟩
  refine (leadsTo_opened h.fixpoint h.root hname ⟨0, hzero⟩ hb).mono ?_ id
  rintro v t ⟨rfl, ht⟩
  rw [← hlabel, ← hdomain] at ht
  exact ⟨h.nextVariable_eq, h.opened ht⟩

/-- A variable with a list of values is opened under its name. -/
theorem leadsTo_sparse (h : Stage P k cs s) {values : List Int} {name : String}
    (hlabel : P.label k = some name) {x : Int} (hx : x ∈ Domain.ofValues values) :
    (sparse values name).LeadsTo s
      (fun v t => v = P.handle k ∧ Opened s (P.label k) (.ofValues values) t) hopeless := by
  have hb : sparse values name s = s.declare (.ofValues values) (some name) := by
    rw [sparse, newSparse, Domain.ofValues?_of_mem hx]
  have hname : ∀ n, some name = some n → s.names.check n = .ok () := by
    rintro n ⟨⟩
    exact h.check_ok hlabel
  refine (leadsTo_opened h.fixpoint h.root hname ⟨x, hx⟩ hb).mono ?_ id
  rintro v t ⟨rfl, ht⟩
  rw [hlabel]
  exact ⟨h.nextVariable_eq, ht⟩

/-- The variable that was opened is extended. -/
theorem leadsTo_extend (h : Stage P k cs s) {t : Store} (ht : Opened s name d t) {value : Int}
    (hvalue : InRange value) :
    (extend (P.handle k) value).LeadsTo t
      (fun _ u => Opened s name (d ∪ .between value value) u) hopeless := by
  have hmem : value ∈ Domain.between value value :=
    Domain.mem_between.mpr ⟨hvalue, Int.le_refl _, Int.le_refl _⟩
  obtain ⟨u, hu, hopened⟩ := ht.extendDomain hmem
  rw [LeadsTo, extend, ← h.nextVariable_eq, hu]
  exact .well hopened

/-- **A CONSTRAINT** is imposed, unless the whole plan has no solution. -/
theorem leadsTo_impose (h : Stage P k cs s) {c : Constraint} (hc : P.Admits k c) {m : Nat}
    {ds : List Constraint} (hle : k ≤ m) (hplanned : cs ++ [c] <+: ds)
    (hroom : ds.length ≤ ConstraintId.limit) :
    (impose c).LeadsTo s (fun _ t => Stage P k (cs ++ [c]) t) (∀ σ, ¬ P.Solved m ds σ) := by
  have hlength : cs.length < ConstraintId.limit := by
    have := hplanned.length_le
    rw [List.length_append, List.length_singleton] at this
    omega
  rw [LeadsTo, impose]
  rcases h.impose hc hlength with ⟨id, t, himp, ht⟩ | ⟨⟨id, t, himp⟩, hno⟩
  · rw [himp]
    exact .well ht
  · rw [himp]
    exact .badly fun σ hσ => hno σ (hσ.mono hle fun _ hd => hplanned.subset hd)

theorem leadsTo_finished (h : Stage P k cs s) :
    finished.LeadsTo s (fun _ t => Stage P k cs t) hopeless :=
  .well (h.note _)

end Operations

end Build

end ConstraintSolver
