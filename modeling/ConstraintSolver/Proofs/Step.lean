import ConstraintSolver.Constraint.Propagation
import ConstraintSolver.Proofs.Entailment

/-! # Steps — what a propagation step can and cannot do

    Every step is built from prunings of certain variables, and looks at
    nothing but the domains of these variables (`Built`).  From this alone
    follows what the rest of the development uses of a step:

    * whatever a pruning does to the domains in a reflexive and transitive
      way, the step does too (`Built.preserves`): it only removes values, it
      leaves other variables alone, it lists what it changes;
    * its outcome depends on the domains of these variables only
      (`Built.agrees`);
    * when it succeeds, no domain has become empty (`Built.keeps_inhabited`).

    A step is idle if it succeeds and changes nothing (`Idle`), and it spares
    a family of smaller domains if it succeeds and removes none of its values
    (`Spares`).  Propagating a tree is such a step (`built_propagate`). -/

namespace ConstraintSolver

namespace Domains

/-! ## Prunings -/

/-- A pruning reports an empty domain exactly if it leaves one. -/
theorem prune_emptied_iff (D : Domains) (v : Variable) (p : Pruning) :
    (D.prune v p).1 = .emptied ↔ ((D.get v).prune p).isEmpty = true := by
  rw [prune_fst]
  exact Domain.effect_eq_emptied

@[simp] theorem changes_replace (D : Domains) (index : Nat) (cell : Cell) (after : Domain) :
    (D.replace index cell after).changes = ⟨D.owner, index⟩ :: D.changes := by
  rw [replace]
  split
  · rfl
  · split <;> rfl

@[simp] theorem size_replace (D : Domains) (index : Nat) (cell : Cell) (after : Domain) :
    (D.replace index cell after).cells.size = D.cells.size := by
  obtain ⟨stamp, h⟩ := cells_replace D index cell after
  rw [h, Array.size_setIfInBounds]

/-- A variable is what its number and its position say. -/
theorem eq_of_owns {D : Domains} {v : Variable} (h : D.Owns v) :
    (⟨D.owner, v.index⟩ : Variable) = v := by
  cases v
  simp only [Owns] at h
  rw [h]

/-- The variables whose domains the second state has changed are on its list
    of changes, and so are those on the list of the first. -/
def Lists (D E : Domains) : Prop :=
  (∀ v ∈ D.changes, v ∈ E.changes) ∧ ∀ v, E.get v ≠ D.get v → v ∈ E.changes

theorem Lists.refl (D : Domains) : Lists D D := ⟨fun _ h => h, fun _ h => absurd rfl h⟩

theorem Lists.trans {D E F : Domains} (h : Lists D E) (h' : Lists E F) : Lists D F := by
  refine ⟨fun v hv => h'.1 v (h.1 v hv), fun v hv => ?_⟩
  by_cases hE : E.get v = D.get v
  · exact h'.2 v (hE ▸ hv)
  · exact h'.1 v (h.2 v hE)

/-- A pruning lists the variable whose domain it changes. -/
theorem lists_prune (D : Domains) (v : Variable) (p : Pruning) : Lists D (D.prune v p).2 := by
  rcases prune_cases D v p with ⟨h, _⟩ | ⟨cell, hv, hc, h, _⟩
  · rw [h]
    exact Lists.refl D
  · have hch : (D.prune v p).2.changes = v :: D.changes := by
      rw [h, changes_replace, eq_of_owns hv]
    refine ⟨fun w hw => hch ▸ List.mem_cons_of_mem _ hw, fun w hw => ?_⟩
    rw [get_prune] at hw
    split at hw
    · rename_i hwv
      rw [hch, hwv]
      exact List.mem_cons_self
    · exact absurd rfl hw

/-- The two states are about the same variables. -/
def SameShape (D E : Domains) : Prop := E.owner = D.owner ∧ E.cells.size = D.cells.size

theorem SameShape.refl (D : Domains) : SameShape D D := ⟨rfl, rfl⟩

theorem SameShape.trans {D E F : Domains} (h : SameShape D E) (h' : SameShape E F) :
    SameShape D F :=
  ⟨h'.1.trans h.1, h'.2.trans h.2⟩

theorem sameShape_prune (D : Domains) (v : Variable) (p : Pruning) :
    SameShape D (D.prune v p).2 := by
  rcases prune_cases D v p with ⟨h, _⟩ | ⟨cell, _, _, h, _⟩
  · rw [h]
    exact SameShape.refl D
  · rw [h]
    exact ⟨owner_replace .., size_replace ..⟩

/-- A pruning adds no value to any domain. -/
theorem get_prune_le (D : Domains) (v : Variable) (p : Pruning) : (D.prune v p).2.get ≤ D.get := by
  intro w
  rw [get_prune]
  split
  · rename_i hw
    exact hw ▸ Domain.prune_le _ p
  · exact le_refl _

end Domains

namespace Step

/-! ## The steps there are -/

/-- The step prunes only variables of a list, and looks at no others. -/
inductive Built (S : List Variable) : Step → Prop
  | done : Built S done
  | fail (why : Inconsistency) : Built S (fail why)
  | narrow {v : Variable} (p : Pruning) (hv : v ∈ S) : Built S (narrow v p)
  | andThen {p q : Step} : Built S p → Built S q → Built S (p.andThen q)
  | reading {p : Domains → Step} (hp : ∀ D, Built S (p D))
      (hsame : ∀ D E : Domains, (∀ v ∈ S, D.get v = E.get v) → p D = p E) : Built S (reading p)

/-- Steps one after the other are built from the prunings of all of them. -/
theorem Built.inOrder {S : List Variable} {ps : List Step} (h : ∀ p ∈ ps, Built S p) :
    Built S (inOrder ps) := by
  induction ps with
  | nil => exact .done
  | cons p ps ih =>
      exact .andThen (h p List.mem_cons_self) (ih fun q hq => h q (List.mem_cons_of_mem _ hq))

/-- A step that prunes some variables may be taken to prune more. -/
theorem Built.mono {S T : List Variable} {p : Step} (h : Built S p) (hsub : ∀ v ∈ S, v ∈ T) :
    Built T p := by
  induction h with
  | done => exact .done
  | fail why => exact .fail why
  | narrow p hv => exact .narrow p (hsub _ hv)
  | andThen _ _ ihp ihq => exact .andThen ihp ihq
  | reading _ hsame ih => exact .reading ih fun D E h => hsame D E fun v hv => h v (hsub v hv)

theorem Built.ite {S : List Variable} {c : Prop} [Decidable c] {p q : Step} (hp : Built S p)
    (hq : Built S q) : Built S (if c then p else q) := by
  split
  · exact hp
  · exact hq

/-! ## What they do -/

@[simp] theorem narrow_snd (v : Variable) (p : Pruning) (D : Domains) :
    (narrow v p D).2 = (D.prune v p).2 := by
  rw [narrow]
  split
  · rename_i h
    rw [h]
  · rename_i h
    rw [h]

/-- Narrowing fails exactly if it leaves no value. -/
theorem narrow_fst (v : Variable) (p : Pruning) (D : Domains) :
    (narrow v p D).1 =
      if ((D.get v).prune p).isEmpty then .error .emptyDomain else .ok () := by
  have hiff := D.prune_emptied_iff v p
  rw [narrow]
  split
  · rename_i h
    rw [h] at hiff
    rw [if_pos (hiff.mp rfl)]
  · rename_i effect E hne h
    rw [h] at hiff
    rw [if_neg fun hempty => hne (hiff.mpr hempty)]

/-- Narrowing succeeds exactly if a value is kept. -/
theorem narrow_ok_iff {v : Variable} {p : Pruning} {D : Domains} :
    (narrow v p D).1 = .ok () ↔ ∃ x ∈ D.get v, p.Keeps x := by
  rw [narrow_fst]
  cases he : ((D.get v).prune p).isEmpty with
  | true =>
      simp only [if_true, reduceCtorEq, false_iff]
      rintro ⟨x, hx, hk⟩
      exact Domain.isEmpty_iff.mp he x (Domain.mem_prune.mpr ⟨hx, hk⟩)
  | false =>
      simp only [Bool.false_eq_true, if_false, true_iff]
      by_contra hno
      rw [← Bool.not_eq_true, Domain.isEmpty_iff] at he
      exact he fun x hx => hno ⟨x, Domain.mem_prune.mp hx⟩

/-- Two steps in a row succeed exactly if each of them does where it is taken. -/
theorem andThen_fst (p q : Step) (D : Domains) :
    (p.andThen q D).1 = .ok () ↔ (p D).1 = .ok () ∧ (q (p D).2).1 = .ok () := by
  rw [andThen]
  split
  · rename_i h
    simp [h]
  · rename_i h
    simp [h]

/-- After a step that succeeds, the next one is taken where it has led. -/
theorem andThen_snd {p q : Step} {D : Domains} (h : (p D).1 = .ok ()) :
    (p.andThen q D).2 = (q (p D).2).2 := by
  rw [andThen]
  split
  · rename_i hp
    rw [hp]
  · rename_i hp
    rw [hp] at h
    cases h

variable {S : List Variable} {p q : Step}

/-- **PRESERVATION**: what holds between the domains before and after any
    pruning of the variables holds between those before and after the step. -/
theorem Built.preserves {R : Domains → Domains → Prop} (h : Built S p) (refl : ∀ D, R D D)
    (trans : ∀ {D E F}, R D E → R E F → R D F)
    (prune : ∀ v ∈ S, ∀ (p : Pruning) D, R D (D.prune v p).2) (D : Domains) : R D (p D).2 := by
  -- on how the step is built; only prunings change anything
  induction h generalizing D with
  | done => exact refl D
  | fail why => exact refl D
  | narrow p hv => exact narrow_snd _ p D ▸ prune _ hv p D
  | andThen _ _ ihp ihq =>
      have hp := ihp D
      unfold Step.andThen
      split
      · rename_i E hE
        rw [hE] at hp
        exact trans hp (ihq E)
      · rename_i hE
        rwa [hE] at hp
  | reading _ _ ih => exact ih D D

/-- A step only removes values. -/
theorem Built.shrinks (h : Built S p) (D : Domains) : (p D).2.get ≤ D.get :=
  h.preserves (R := fun D E => E.get ≤ D.get) (fun D => le_refl D.get) (fun h h' => h'.trans h)
    (fun v _ p D => D.get_prune_le v p) D

/-- A step leaves the other variables alone. -/
theorem Built.outside (h : Built S p) (D : Domains) : ∀ v, v ∉ S → (p D).2.get v = D.get v :=
  h.preserves (R := fun D E => ∀ v, v ∉ S → E.get v = D.get v) (fun _ _ _ => rfl)
    (fun h h' v hv => (h' v hv).trans (h v hv))
    (fun w hw p D v hv => by
      have hne : v ≠ w := fun heq => hv (heq ▸ hw)
      rw [D.get_prune, if_neg hne]) D

/-- A step lists the variables which it changes. -/
theorem Built.lists (h : Built S p) (D : Domains) : D.Lists (p D).2 :=
  h.preserves Domains.Lists.refl Domains.Lists.trans (fun v _ p D => D.lists_prune v p) D

theorem Built.sameShape (h : Built S p) (D : Domains) : D.SameShape (p D).2 :=
  h.preserves Domains.SameShape.refl Domains.SameShape.trans
    (fun v _ p D => D.sameShape_prune v p) D

/-- **LOCALITY**: the outcome depends only on the domains of the variables. -/
theorem Built.agrees (h : Built S p) {D E : Domains} (hDE : ∀ v ∈ S, D.get v = E.get v) :
    (p D).1 = (p E).1 ∧ ∀ v ∈ S, (p D).2.get v = (p E).2.get v := by
  -- on how the step is built; a reading takes the same branch in both states
  induction h generalizing D E with
  | done => exact ⟨rfl, hDE⟩
  | fail why => exact ⟨rfl, hDE⟩
  | narrow p hv =>
      refine ⟨by rw [narrow_fst, narrow_fst, hDE _ hv], fun w hw => ?_⟩
      rw [narrow_snd, narrow_snd, D.get_prune, E.get_prune, hDE w hw, hDE _ hv]
  | andThen _ _ ihp ihq =>
      obtain ⟨hfst, hsnd⟩ := ihp hDE
      unfold Step.andThen
      split
      · rename_i D' hD'
        rw [hD'] at hfst hsnd
        split
        · rename_i E' hE'
          rw [hE'] at hsnd
          exact ihq hsnd
        · rename_i hE'
          rw [hE'] at hfst
          cases hfst
      · rename_i hD'
        rw [hD'] at hfst hsnd
        split
        · rename_i hE'
          rw [hE'] at hfst
          cases hfst
        · rename_i hE'
          rw [hE'] at hfst hsnd
          exact ⟨hfst, hsnd⟩
  | reading _ hsame ih =>
      rw [Step.reading]
      rw [hsame D E hDE]
      exact ih E hDE

/-- A success leaves every variable a value which had one. -/
theorem Built.keeps_inhabited (h : Built S p) {D : Domains} (hok : (p D).1 = .ok ())
    {v : Variable} (hv : ∃ x, x ∈ D.get v) : ∃ x, x ∈ (p D).2.get v := by
  induction h generalizing D with
  | done => exact hv
  | fail why => cases hok
  | @narrow w p hw =>
      rw [narrow_snd, D.get_prune]
      split
      · obtain ⟨x, hx, hk⟩ := narrow_ok_iff.mp hok
        exact ⟨x, Domain.mem_prune.mpr ⟨hx, hk⟩⟩
      · exact hv
  | andThen _ _ ihp ihq =>
      obtain ⟨hp, hq⟩ := (andThen_fst _ _ D).mp hok
      rw [andThen_snd hp]
      exact ihq hq (ihp hp hv)
  | reading _ _ ih => exact ih D hok hv

/-! ## Idle steps -/

/-- The step succeeds and changes no domain. -/
def Idle (p : Step) (D : Domains) : Prop := (p D).1 = .ok () ∧ (p D).2.get = D.get

theorem idle_done (D : Domains) : Idle done D := ⟨rfl, rfl⟩

theorem not_idle_fail (why : Inconsistency) (D : Domains) : ¬ Idle (fail why) D :=
  fun h => nomatch h.1

/-- A step that reads the domains first is idle exactly if what it then does is. -/
theorem idle_reading_iff {p : Domains → Step} {D : Domains} :
    Idle (reading p) D ↔ Idle (p D) D := Iff.rfl

/-- Narrowing is idle exactly if there is a value and all of them are kept. -/
theorem idle_narrow_iff {v : Variable} {p : Pruning} {D : Domains} :
    Idle (narrow v p) D ↔ (∃ x, x ∈ D.get v) ∧ ∀ x ∈ D.get v, p.Keeps x := by
  rw [Idle, narrow_ok_iff, narrow_snd]
  -- nothing changes exactly if every value is kept
  have hget : (D.prune v p).2.get = D.get ↔ ∀ x ∈ D.get v, p.Keeps x := by
    rw [← Domain.prune_eq_self_iff]
    constructor
    · intro h
      have := D.get_prune v p v
      rwa [h, if_pos rfl, eq_comm] at this
    · intro h
      funext w
      rw [D.get_prune]
      split
      · rename_i hw
        rw [hw, h]
      · rfl
  rw [hget]
  constructor
  · rintro ⟨⟨x, hx, _⟩, hall⟩
    exact ⟨⟨x, hx⟩, hall⟩
  · rintro ⟨⟨x, hx⟩, hall⟩
    exact ⟨⟨x, hx, hall x hx⟩, hall⟩

/-- Being idle is a matter of the domains of the variables. -/
theorem Built.idle_congr (h : Built S p) {D E : Domains} (hDE : ∀ v ∈ S, D.get v = E.get v) :
    Idle p D ↔ Idle p E := by
  have transfer : ∀ {D E : Domains}, (∀ v ∈ S, D.get v = E.get v) → Idle p D → Idle p E := by
    intro D E hDE hD
    obtain ⟨hfst, hsnd⟩ := h.agrees hDE
    refine ⟨hfst ▸ hD.1, funext fun v => ?_⟩
    by_cases hv : v ∈ S
    · rw [← hsnd v hv, hD.2, hDE v hv]
    · exact h.outside E v hv
  exact ⟨transfer hDE, transfer fun v hv => (hDE v hv).symm⟩

/-- Two steps in a row are idle exactly if each of them is. -/
theorem idle_andThen_iff (hp : Built S p) (hq : Built S q) {D : Domains} :
    Idle (p.andThen q) D ↔ Idle p D ∧ Idle q D := by
  constructor
  · rintro ⟨hok, hget⟩
    obtain ⟨hpok, hqok⟩ := (andThen_fst p q D).mp hok
    rw [andThen_snd hpok] at hget
    -- the second step cannot put back what the first has removed
    have hpD : (p D).2.get = D.get :=
      le_antisymm (hp.shrinks D) (hget ▸ hq.shrinks (p D).2)
    have hq' : Idle q (p D).2 := ⟨hqok, hget.trans hpD.symm⟩
    exact ⟨⟨hpok, hpD⟩, (hq.idle_congr fun v _ => congrFun hpD v).mp hq'⟩
  · rintro ⟨hpD, hqD⟩
    have hq' := (hq.idle_congr fun v _ => congrFun hpD.2 v).mpr hqD
    refine ⟨(andThen_fst p q D).mpr ⟨hpD.1, hq'.1⟩, ?_⟩
    rw [andThen_snd hpD.1, hq'.2, hpD.2]

/-- Steps in a row are idle exactly if each of them is. -/
theorem idle_inOrder_iff {ps : List Step} (hps : ∀ p ∈ ps, Built S p) {D : Domains} :
    Idle (inOrder ps) D ↔ ∀ p ∈ ps, Idle p D := by
  induction ps with
  | nil => simp [inOrder, idle_done]
  | cons p ps ih =>
      have htail : ∀ q ∈ ps, Built S q := fun q hq => hps q (List.mem_cons_of_mem _ hq)
      rw [inOrder, idle_andThen_iff (hps p List.mem_cons_self) (Built.inOrder htail), ih htail,
        List.forall_mem_cons]

/-! ## Sparing steps -/

/-- The step succeeds and removes no value of the family. -/
def Spares (p : Step) (D : Domains) (G : Family) : Prop := (p D).1 = .ok () ∧ G ≤ (p D).2.get

variable {G : Family} {D : Domains}

theorem spares_done (hle : G ≤ D.get) : Spares done D G := ⟨rfl, hle⟩

/-- A step that reads the domains first spares what it then spares. -/
theorem spares_reading_iff {p : Domains → Step} : Spares (reading p) D G ↔ Spares (p D) D G :=
  Iff.rfl

/-- Narrowing spares the values which the pruning keeps. -/
theorem spares_narrow {v : Variable} {p : Pruning} (hle : G ≤ D.get) (hv : ∃ x, x ∈ G v)
    (hkeep : ∀ x ∈ G v, p.Keeps x) : Spares (narrow v p) D G := by
  refine ⟨?_, ?_⟩
  · obtain ⟨x, hx⟩ := hv
    exact narrow_ok_iff.mpr ⟨x, hle v x hx, hkeep x hx⟩
  · intro w x hx
    rw [narrow_snd, D.get_prune]
    split
    · rename_i hw
      subst hw
      exact Domain.mem_prune.mpr ⟨hle w x hx, hkeep x hx⟩
    · exact hle w x hx

/-- Two steps in a row spare what each of them spares, the second on whatever the first leaves. -/
theorem spares_andThen (hp : Built S p) (hpD : Spares p D G)
    (hq : ∀ E : Domains, G ≤ E.get → E.get ≤ D.get → Spares q E G) :
    Spares (p.andThen q) D G := by
  obtain ⟨hqok, hqle⟩ := hq (p D).2 hpD.2 (hp.shrinks D)
  refine ⟨(andThen_fst p q D).mpr ⟨hpD.1, hqok⟩, ?_⟩
  rwa [andThen_snd hpD.1]

/-- Steps in a row spare what each of them spares on all domains in between. -/
theorem spares_inOrder {ps : List Step} (hps : ∀ p ∈ ps, Built S p) (hle : G ≤ D.get)
    (h : ∀ p ∈ ps, ∀ E : Domains, G ≤ E.get → E.get ≤ D.get → Spares p E G) :
    Spares (inOrder ps) D G := by
  induction ps generalizing D with
  | nil => exact spares_done hle
  | cons p ps ih =>
      refine spares_andThen (hps p List.mem_cons_self)
        (h p List.mem_cons_self D hle (le_refl D.get)) fun E hGE hED => ?_
      refine ih (fun q hq => hps q (List.mem_cons_of_mem _ hq)) hGE fun q hq F hGF hFE => ?_
      exact h q (List.mem_cons_of_mem _ hq) F hGF (hFE.trans hED)

end Step

end ConstraintSolver
