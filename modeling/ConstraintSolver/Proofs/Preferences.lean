import ConstraintSolver.Proofs.Choices
import ConstraintSolver.Proofs.Watching

/-! # Preferences — which variable is chosen of those that are not fixed

    A choice of variables compares the unfixed variables of a list by a key:
    the number of values, the number of constraints and then the number of
    values, or the position in the list (`Beats`).  What is chosen is the
    first of the best of them (`FirstBest`), and there is only one such
    position (`FirstBest.position_eq`).

    A tie breaker looks at the candidates one by one.  At any moment the one
    it has kept is better than all before it, and none after it is better; a
    candidate that replaces it is better than all that came before
    (`Foremost.consider`).  This takes no more of the keys than that a better
    key is better than any third one, or the third one better than the worse
    (`Ranked`).  So the tie breaker ends with the first of the best
    (`best?_foremost`), and the built-in choices pick it
    (`choices_pick_first_best`). -/

namespace ConstraintSolver

/-! ## The first of the best candidates -/

namespace TieBreaker

/-- Of two keys no more than one is less than the other, and every third key is greater
    than the lesser or less than the greater. -/
structure Ranked (κ : Type) [LT κ] : Prop where
  asymm : ∀ a b : κ, a < b → ¬ b < a
  between : ∀ a b c : κ, a < b → a < c ∨ c < b

theorem ranked_nat : Ranked Nat :=
  ⟨fun _ _ h => Nat.lt_asymm h, fun a b c h => by omega⟩

theorem ranked_demand : Ranked Demand := by
  have hless : ∀ a b : Demand, a < b ↔ a.constraints < b.constraints ∨
      (a.constraints = b.constraints ∧ b.size < a.size) := fun _ _ => Iff.rfl
  refine ⟨fun a b h => ?_, fun a b c h => ?_⟩
  · rw [hless] at h ⊢
    omega
  · rw [hless] at h ⊢
    rw [hless]
    omega

variable {α κ : Type} [LT κ] [DecidableLT κ] {direction : Direction} {key : α → κ}
  {before after : List α} {v : α}

/-- For the maximum, more is better. -/
theorem better_maximum {a b : κ} : better .maximum a b = true ↔ b < a := decide_eq_true_iff

/-- For the minimum, less is better. -/
theorem better_minimum {a b : κ} : better .minimum a b = true ↔ a < b := decide_eq_true_iff

/-- No two keys are better than each other. -/
theorem better_asymm (hκ : Ranked κ) {a b : κ} (h : better direction a b = true) :
    better direction b a = false := by
  cases direction with
  | maximum => exact decide_eq_false (hκ.asymm _ _ (of_decide_eq_true h))
  | minimum => exact decide_eq_false (hκ.asymm _ _ (of_decide_eq_true h))

/-- What is not better than the second key is worse than the first. -/
theorem better_of_not_better (hκ : Ranked κ) {a b c : κ} (h : better direction a b = true)
    (hc : better direction c b = false) : better direction a c = true := by
  cases direction with
  | maximum =>
      exact decide_eq_true ((hκ.between _ _ c (of_decide_eq_true h)).resolve_left
        (of_decide_eq_false hc))
  | minimum =>
      exact decide_eq_true ((hκ.between _ _ c (of_decide_eq_true h)).resolve_right
        (of_decide_eq_false hc))

/-- The candidate is better than those before it, and none after it is better. -/
structure Foremost (direction : Direction) (key : α → κ) (before : List α) (v : α)
    (after : List α) : Prop where
  ahead : ∀ u ∈ before, better direction (key v) (key u) = true
  unbeaten : ∀ u ∈ after, better direction (key u) (key v) = false

/-- One more candidate either does not change this, or takes the place. -/
theorem Foremost.consider (hκ : Ranked κ) (h : Foremost direction key before v after) (c : α) :
    if better direction (key c) (key v) then Foremost direction key (before ++ v :: after) c []
    else Foremost direction key before v (after ++ [c]) := by
  split
  · rename_i hc
    refine ⟨fun u hu => ?_, List.forall_mem_nil _⟩
    rcases List.mem_append.mp hu with hu | hu
    · exact better_of_not_better hκ hc (better_asymm hκ (h.ahead u hu))
    · rcases List.mem_cons.mp hu with rfl | hu
      · exact hc
      · exact better_of_not_better hκ hc (h.unbeaten u hu)
  · rename_i hc
    refine ⟨h.ahead, fun u hu => ?_⟩
    rcases List.mem_append.mp hu with hu | hu
    · exact h.unbeaten u hu
    · obtain rfl := List.mem_singleton.mp hu
      exact Bool.not_eq_true _ ▸ hc

/-- What is kept in the end is the foremost of all that has been looked at. -/
theorem foldl_foremost (hκ : Ranked κ) (rest : List α) {t : TieBreaker α κ}
    (hdirection : t.direction = direction) (hselected : t.selected = some (v, key v))
    (h : Foremost direction key before v after) :
    ∃ before' w after', before ++ v :: (after ++ rest) = before' ++ w :: after' ∧
      (rest.foldl (fun t c => t.consider c (key c)) t).selected = some (w, key w) ∧
      Foremost direction key before' w after' := by
  induction rest generalizing t before v after with
  | nil => exact ⟨before, v, after, by rw [List.append_nil], hselected, h⟩
  | cons c rest ih =>
      have hnext := h.consider hκ c
      have hconsider : t.consider c (key c) =
          if better direction (key c) (key v) then { t with selected := some (c, key c) }
          else t := by
        rw [TieBreaker.consider]
        rw [hselected, hdirection]
      rw [List.foldl_cons, hconsider]
      -- the candidate takes the place of the best one only if it is strictly better
      split at hnext
      · rename_i hc
        rw [if_pos hc]
        obtain ⟨before', w, after', heq, hw, hforemost⟩ :=
          ih (t := { t with selected := some (c, key c) }) hdirection rfl hnext
        refine ⟨before', w, after', ?_, hw, hforemost⟩
        rw [← heq, List.nil_append, List.append_assoc, List.cons_append]
      · rename_i hc
        rw [if_neg hc]
        obtain ⟨before', w, after', heq, hw, hforemost⟩ := ih hdirection hselected hnext
        refine ⟨before', w, after', ?_, hw, hforemost⟩
        rw [← heq, List.append_assoc, List.singleton_append]

/-- **THE FIRST OF THE BEST** candidates is what a tie breaker selects. -/
theorem best?_foremost (hκ : Ranked κ) (direction : Direction) (key : α → κ)
    {candidates : List α} (hne : candidates ≠ []) :
    ∃ before w after, candidates = before ++ w :: after ∧
      best? direction candidates key = some w ∧ Foremost direction key before w after := by
  obtain ⟨c, rest, rfl⟩ := List.exists_cons_of_ne_nil hne
  have hfirst : Foremost direction key [] c [] :=
    ⟨List.forall_mem_nil _, List.forall_mem_nil _⟩
  obtain ⟨before, w, after, heq, hw, hforemost⟩ :=
    foldl_foremost hκ rest (t := (new direction).consider c (key c)) rfl rfl hfirst
  refine ⟨before, w, after, heq, ?_, hforemost⟩
  rw [best?, List.foldl_cons, select, hw]
  rfl

end TieBreaker

/-! ## The first of the best variables -/

namespace VariableChoice

variable {choice : VariableChoice} {s : Store} {scope : List Variable} {i j : Nat} {u v : Variable}

/-- The first entry of a list, a position with its variable, has a better key than the
    second. -/
def Beats (choice : VariableChoice) (s : Store) (a b : Nat × Variable) : Prop :=
  match choice with
  | largestDomain => (s.domain b.2).size < (s.domain a.2).size
  | smallestDomain => (s.domain a.2).size < (s.domain b.2).size
  | mostConstrained =>
      (s.constraintsOn b.2).length < (s.constraintsOn a.2).length ∨
        (s.constraintsOn b.2).length = (s.constraintsOn a.2).length ∧
          (s.domain a.2).size < (s.domain b.2).size
  | inputOrder => a.1 < b.1

/-- No two entries beat each other. -/
theorem beats_asymm {a b : Nat × Variable} (h : choice.Beats s a b) : ¬ choice.Beats s b a := by
  cases choice with
  | largestDomain => exact Nat.lt_asymm h
  | smallestDomain => exact Nat.lt_asymm h
  | mostConstrained =>
      simp only [Beats] at h ⊢
      omega
  | inputOrder => exact Nat.lt_asymm h

/-- At the position is the first of the unfixed variables of the list whose key is the
    best. -/
structure FirstBest (choice : VariableChoice) (s : Store) (scope : List Variable) (i : Nat)
    (v : Variable) : Prop where
  listed : scope[i]? = some v
  unfixed : (s.domain v).isFixed = false
  best : ∀ j u, scope[j]? = some u → (s.domain u).isFixed = false →
    ¬ choice.Beats s (j, u) (i, v)
  first : ∀ j u, j < i → scope[j]? = some u → (s.domain u).isFixed = false →
    choice.Beats s (i, v) (j, u)

/-- There is only one such position. -/
theorem FirstBest.position_eq (h : choice.FirstBest s scope i u)
    (h' : choice.FirstBest s scope j v) : i = j := by
  rcases Nat.lt_trichotomy i j with hlt | heq | hlt
  · exact absurd (h'.first i u hlt h.listed h.unfixed) (h.best j v h'.listed h'.unfixed)
  · exact heq
  · exact absurd (h.first j v hlt h'.listed h'.unfixed) (h'.best i u h.listed h.unfixed)

/-- There is at most one first best variable. -/
theorem FirstBest.eq (h : choice.FirstBest s scope i u) (h' : choice.FirstBest s scope j v) :
    u = v := by
  obtain rfl := h.position_eq h'
  exact Option.some.inj (h.listed.symm.trans h'.listed)

/-- A list is looked at in two parts, before and after the variable. -/
theorem FirstBest.of_split {earlier later : List Variable} (hscope : scope = earlier ++ v :: later)
    (hv : (s.domain v).isFixed = false)
    (hearlier : ∀ j, j < earlier.length → ∀ u ∈ earlier, (s.domain u).isFixed = false →
      choice.Beats s (earlier.length, v) (j, u))
    (hlater : ∀ j, earlier.length < j → ∀ u ∈ later, (s.domain u).isFixed = false →
      ¬ choice.Beats s (j, u) (earlier.length, v)) :
    choice.FirstBest s scope earlier.length v := by
  have hfirst : ∀ j u, j < earlier.length → scope[j]? = some u → (s.domain u).isFixed = false →
      choice.Beats s (earlier.length, v) (j, u) := by
    intro j u hj hu
    rw [hscope, List.getElem?_append_left hj] at hu
    exact hearlier j hj u (List.mem_of_getElem? hu)
  refine ⟨?_, hv, fun j u hu hfix => ?_, hfirst⟩
  · rw [hscope, List.getElem?_append_right (Nat.le_refl _), Nat.sub_self, List.getElem?_cons_zero]
  · rcases Nat.lt_trichotomy j earlier.length with hlt | rfl | hlt
    · exact beats_asymm (hfirst j u hlt hu hfix)
    · -- nothing beats itself
      rw [hscope, List.getElem?_append_right (Nat.le_refl _), Nat.sub_self,
        List.getElem?_cons_zero] at hu
      cases hu
      exact fun hself => beats_asymm hself hself
    · rw [hscope, List.getElem?_append_right (Nat.le_of_lt hlt)] at hu
      obtain ⟨k, hk⟩ : ∃ k, j - earlier.length = k + 1 := ⟨j - earlier.length - 1, by omega⟩
      rw [hk, List.getElem?_cons_succ] at hu
      exact hlater j hlt u (List.mem_of_getElem? hu) hfix

/-! ## What is chosen -/

/-- The first choice finds the first unfixed variable of the list. -/
theorem firstUnfixed_eq (hscope : ∀ v ∈ scope, s.owns v = true) :
    firstUnfixed s scope = .ok (scope.find? fun v => !(s.domain v).isFixed) := by
  induction scope with
  | nil => rfl
  | cons v vs ih =>
      have hv := hscope v List.mem_cons_self
      rw [firstUnfixed, if_neg (by simp [hv])]
      cases hfix : (s.domain v).isFixed with
      | true =>
          rw [if_pos rfl, ih fun w hw => hscope w (List.mem_cons_of_mem v hw),
            List.find?_cons_of_neg (by simp [hfix])]
      | false => rw [if_neg Bool.false_ne_true, List.find?_cons_of_pos (by simp [hfix])]

/-- The first unfixed variable is the best by its position. -/
theorem firstUnfixed_firstBest (hscope : ∀ v ∈ scope, s.owns v = true)
    (hsome : ∃ v ∈ scope, (s.domain v).isFixed = false) :
    ∃ i v, firstUnfixed s scope = .ok (some v) ∧ inputOrder.FirstBest s scope i v := by
  obtain ⟨w, hw, hfix⟩ := hsome
  have hfound : (scope.find? fun v => !(s.domain v).isFixed).isSome = true :=
    List.find?_isSome.mpr ⟨w, hw, by simp [hfix]⟩
  obtain ⟨v, hv⟩ := Option.isSome_iff_exists.mp hfound
  obtain ⟨hv', earlier, later, hsplit, hearlier⟩ := List.find?_eq_some_iff_append.mp hv
  refine ⟨earlier.length, v, by rw [firstUnfixed_eq hscope, hv], ?_⟩
  refine .of_split hsplit (by simpa using hv') (fun j hj u hu hunfixed => ?_)
    fun j hj u _ _ => Nat.lt_asymm hj
  have hfixed := hearlier u hu
  simp [hunfixed] at hfixed

/-- The best of the unfixed variables, if the choice compares by the key. -/
theorem bestUnfixed_firstBest {κ : Type} [LT κ] [DecidableLT κ] (hκ : TieBreaker.Ranked κ)
    (direction : Direction) (key : Variable → κ) (hscope : ∀ v ∈ scope, s.owns v = true)
    (hbeats : ∀ u ∈ scope, ∀ w ∈ scope, ∀ i j, choice.Beats s (i, u) (j, w) ↔
      TieBreaker.better direction (key u) (key w) = true)
    (hsome : ∃ v ∈ scope, (s.domain v).isFixed = false) :
    ∃ i v, ((unfixed s scope).map fun vs => TieBreaker.best? direction vs key) = .ok (some v) ∧
      choice.FirstBest s scope i v := by
  obtain ⟨w, hw, hfix⟩ := hsome
  have hne : (scope.filter fun v => !(s.domain v).isFixed) ≠ [] :=
    List.ne_nil_of_mem (List.mem_filter.mpr ⟨hw, by simp [hfix]⟩)
  obtain ⟨before, v, after, hsplit, hbest, hforemost⟩ :=
    TieBreaker.best?_foremost hκ direction key hne
  -- the list itself is split where its unfixed variables are
  obtain ⟨left, right, hlist, hleft, hright⟩ := List.filter_eq_append_iff.mp hsplit
  obtain ⟨skipped, later, rfl, hskipped, hv, hafter⟩ := List.filter_eq_cons_iff.mp hright
  have hlist' : scope = (left ++ skipped) ++ v :: later := by rw [hlist, List.append_assoc]
  have hmem : v ∈ scope := hlist' ▸ List.mem_append_right _ List.mem_cons_self
  refine ⟨(left ++ skipped).length, v, ?_, .of_split hlist' (by simpa using hv)
    (fun j _ u hu hunfixed => ?_) fun j _ u hu hunfixed => ?_⟩
  · rw [unfixed_eq hscope]
    exact congrArg Except.ok hbest
  · have hu' : u ∈ scope := hlist' ▸ List.mem_append_left _ hu
    refine (hbeats v hmem u hu' _ _).mpr (hforemost.ahead u ?_)
    rcases List.mem_append.mp hu with hu | hu
    · exact hleft ▸ List.mem_filter.mpr ⟨hu, by simp [hunfixed]⟩
    · exact absurd (by simp [hunfixed]) (hskipped u hu)
  · have hu' : u ∈ scope := hlist' ▸ List.mem_append_right _ (List.mem_cons_of_mem _ hu)
    rw [hbeats u hu' v hmem, Bool.not_eq_true]
    exact hforemost.unbeaten u (hafter ▸ List.mem_filter.mpr ⟨hu, by simp [hunfixed]⟩)

/-- Each of the built-in choices picks the first of the best, if a variable is unfixed. -/
theorem choose_firstBest (h : s.Arises)
    (hscope : ∀ v ∈ scope, v ∈ s.allVariables)
    (hsome : ∃ v ∈ scope, (s.domain v).isFixed = false) :
    ∃ i v, choice.choose s scope = .ok (some v) ∧ choice.FirstBest s scope i v := by
  have howns : ∀ v ∈ scope, s.owns v = true := fun v hv => Store.owns_of_mem (hscope v hv)
  cases choice with
  | largestDomain =>
      exact bestUnfixed_firstBest TieBreaker.ranked_nat .maximum _ howns
        (fun _ _ _ _ _ _ => TieBreaker.better_maximum.symm) hsome
  | smallestDomain =>
      exact bestUnfixed_firstBest TieBreaker.ranked_nat .minimum _ howns
        (fun _ _ _ _ _ _ => TieBreaker.better_minimum.symm) hsome
  | mostConstrained =>
      refine bestUnfixed_firstBest TieBreaker.ranked_demand .maximum
        (fun v => ⟨s.watcherCount v, (s.domain v).size⟩) howns (fun u hu w hw i j => ?_) hsome
      rw [TieBreaker.better_maximum, h.watcherCount_eq (hscope u hu),
        h.watcherCount_eq (hscope w hw)]
      exact Iff.rfl
  | inputOrder => exact firstUnfixed_firstBest howns hsome

/-- **THE FIRST BEST VARIABLE IS CHOSEN** by each of the built-in choices, in every store
    and from every list of its variables; none is chosen exactly if all of them are
    fixed. -/
theorem choices_pick_first_best (h : s.Arises)
    (hscope : ∀ v ∈ scope, v ∈ s.allVariables) :
    (∃ chosen, choice.choose s scope = .ok chosen) ∧
      (choice.choose s scope = .ok none ↔ ∀ v ∈ scope, (s.domain v).isFixed = true) ∧
      ∀ v, choice.choose s scope = .ok (some v) ↔ ∃ i, choice.FirstBest s scope i v := by
  have howns : ∀ v ∈ scope, s.owns v = true := fun v hv => Store.owns_of_mem (hscope v hv)
  rcases choose_cases choice howns with ⟨hnone, hall⟩ | ⟨u, hu, hsome, hfix⟩
  · refine ⟨⟨none, hnone⟩, ⟨fun _ => hall, fun _ => hnone⟩, fun v => ⟨fun hv => ?_, ?_⟩⟩
    · rw [hnone] at hv
      cases hv
    · rintro ⟨i, hbest⟩
      have hfixed := hall v (List.mem_of_getElem? hbest.listed)
      rw [hbest.unfixed] at hfixed
      cases hfixed
  · obtain ⟨i, w, hw, hbest⟩ := choose_firstBest h hscope ⟨u, hu, hfix⟩
    refine ⟨⟨some u, hsome⟩, ⟨fun hnone => ?_, fun hall => ?_⟩, fun v => ⟨fun hv => ?_, ?_⟩⟩
    · rw [hsome] at hnone
      cases hnone
    · rw [hall u hu] at hfix
      cases hfix
    · rw [hw] at hv
      cases hv
      exact ⟨i, hbest⟩
    -- there is only one first best
    · rintro ⟨j, hbest'⟩
      rw [hw, hbest.eq hbest']

/-- Three variables, of which neighbours differ, and a fixed one. -/
def neighbours : Store :=
  ((((((((Store.empty 0 none).newInteger 0 3 none).2.newInteger 0 5 none).2.newInteger 0 5
    none).2.newInteger 7 7 none).2.impose (.equality ⟨0, 0⟩ .notEqual (.variable ⟨0, 1⟩))).2).impose
      (.equality ⟨0, 1⟩ .notEqual (.variable ⟨0, 2⟩))).2

theorem reached_neighbours : Store.Reached (fun _ => True) neighbours [] :=
  .impose (by decide +kernel) (by decide +kernel)
    (.impose (by decide +kernel) (by decide +kernel)
      (.newInteger 7 7 none (.newInteger 0 5 none (.newInteger 0 5 none (.newInteger 0 3 none
        (.empty 0 none))))))

/-- The fixed variable comes first, and the middle one is listed twice. -/
theorem first_best_of_neighbours :
    let listed : List Variable := [⟨0, 3⟩, ⟨0, 0⟩, ⟨0, 2⟩, ⟨0, 1⟩, ⟨0, 1⟩]
    (∀ v ∈ listed, v ∈ neighbours.allVariables) ∧
      (∃ i, largestDomain.FirstBest neighbours listed i ⟨0, 2⟩) ∧
      (∃ i, smallestDomain.FirstBest neighbours listed i ⟨0, 0⟩) ∧
      (∃ i, mostConstrained.FirstBest neighbours listed i ⟨0, 1⟩) ∧
      inputOrder.choose neighbours [⟨0, 3⟩, ⟨0, 3⟩] = .ok none := by
  intro listed
  have hlisted : ∀ v ∈ listed, v ∈ neighbours.allVariables := by decide +kernel
  have harises : neighbours.Arises := reached_neighbours.arises
  have hpick : ∀ (choice : VariableChoice) (v : Variable),
      choice.choose neighbours listed = .ok (some v) →
      ∃ i, choice.FirstBest neighbours listed i v := fun choice v =>
    ((choices_pick_first_best harises hlisted).2.2 v).mp
  have hfixed : ∀ v ∈ [(⟨0, 3⟩ : Variable), ⟨0, 3⟩], v ∈ neighbours.allVariables := by
    decide +kernel
  exact ⟨hlisted, hpick largestDomain _ (by decide +kernel),
    hpick smallestDomain _ (by decide +kernel),
    hpick mostConstrained _ (by decide +kernel),
    (choices_pick_first_best harises hfixed).2.1.mpr (by decide +kernel)⟩

end VariableChoice

end ConstraintSolver
