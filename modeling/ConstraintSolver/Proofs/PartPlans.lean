import ConstraintSolver.Proofs.Builds

/-! # Plans of parts — decision variables, parts, and the rest

    Every model of parts declares its decision variables first, then the
    parts, and then what is particular to it (`Extras`).  The plan of a model
    is made from this, and so is an assignment that has given values for the
    decision variables and the rest, and for every part its number. -/

namespace ConstraintSolver

open Constraint Store

namespace Parts

/-! ## Variables -/

/-- A decision variable. -/
def decision (number j : Nat) : Variable := ⟨number, j⟩

/-- The variable of a part, counted from 0, after that many decision variables. -/
def part (number n i : Nat) : Variable := ⟨number, n + i⟩

/-- A variable after the decision variables and the parts. -/
def extra (number n p k : Nat) : Variable := ⟨number, n + p + k⟩

/-- **WHAT COMES AFTER** the decision variables and the parts. -/
structure Extras where
  label : Nat → Option String
  domain : Nat → Domain
  distinct : ∀ {i j : Nat} {name : String}, label i = some name → label j = some name → i = j
  unreserved : ∀ {i : Nat} {name : String}, label i = some name → Names.isReserved name = false
  /-- The names are not those of decision variables or parts. -/
  apart : ∀ {i : Nat} {name : String}, label i = some name →
    ∀ j, name ≠ numbered "x" j "" ∧ name ≠ numbered "part-" j ""

/-- The names in a model of parts. -/
def label (n p : Nat) (E : Extras) (i : Nat) : Option String :=
  if i < n then some (numbered "x" i "")
  else if i < n + p then some (numbered "part-" (i - n + 1) "")
  else E.label (i - (n + p))

/-- No name is given twice. -/
theorem label_distinct {n p : Nat} {E : Extras} {i j : Nat} {name : String}
    (hi : label n p E i = some name) (hj : label n p E j = some name) : i = j := by
  have hinj : ∀ {stem stem' : String} {k m : Nat}, Wordy stem → Wordy stem' →
      numbered stem k "" = numbered stem' m "" → k = m ∧ stem.toList ++ [] = stem'.toList ++ [] :=
    fun hstem hstem' h => numbered_inj hstem (by decide) hstem' (by decide) h
  simp only [label] at hi hj
  -- decisions and parts are told apart by their stems, and from the extra variables by assumption
  split_ifs at hi hj
  · cases hi
    exact (hinj (by decide) (by decide) (Option.some.inj hj)).1.symm
  · cases hi
    exact absurd (hinj (by decide) (by decide) (Option.some.inj hj)).2 (by decide)
  · exact absurd (Option.some.inj hi).symm (E.apart hj i).1
  · cases hi
    exact absurd (hinj (by decide) (by decide) (Option.some.inj hj)).2 (by decide)
  · cases hi
    have := (hinj (by decide) (by decide) (Option.some.inj hj)).1
    omega
  · exact absurd (Option.some.inj hi).symm (E.apart hj _).2
  · exact absurd (Option.some.inj hj).symm (E.apart hi j).1
  · exact absurd (Option.some.inj hj).symm (E.apart hi _).2
  · have := E.distinct hi hj
    omega

/-- No name is made of an underscore and digits. -/
theorem label_unreserved {n p : Nat} {E : Extras} {i : Nat} {name : String}
    (h : label n p E i = some name) : Names.isReserved name = false := by
  simp only [label] at h
  split_ifs at h
  · cases h
    exact isReserved_numbered (c := 'x') rfl (by decide)
  · cases h
    exact isReserved_numbered (c := 'p') rfl (by decide)
  · exact E.unreserved h

/-- **THE PLAN** of a model of parts. -/
def plan (number n p : Nat) (E : Extras) : Plan where
  number := number
  label := label n p E
  domain i :=
    if i < n then .between 1 p
    else if i < n + p then .between (Int.ofNat (i - n) + 1) (Int.ofNat (i - n) + 1)
    else E.domain (i - (n + p))
  distinct := label_distinct
  unreserved := label_unreserved

section Positions

variable {number n p : Nat} {E : Extras} {i : Nat}

/-- Decision variables are numbered from 0 on. -/
theorem label_decision (hi : i < n) : (plan number n p E).label i = some (numbered "x" i "") :=
  if_pos hi

/-- A decision variable may hold any of the parts. -/
theorem domain_decision (hi : i < n) : (plan number n p E).domain i = .between 1 p := if_pos hi

/-- Parts are numbered from 1 on. -/
theorem label_part (hi : i < p) :
    (plan number n p E).label (n + i) = some (numbered "part-" (i + 1) "") := by
  have hle : ¬ n + i < n := by omega
  have hlt : n + i < n + p := by omega
  simp only [plan, label, if_neg hle, if_pos hlt, Nat.add_sub_cancel_left]

/-- A part has its number from the beginning. -/
theorem domain_part (hi : i < p) :
    (plan number n p E).domain (n + i) = .between (Int.ofNat i + 1) (Int.ofNat i + 1) := by
  have hle : ¬ n + i < n := by omega
  have hlt : n + i < n + p := by omega
  simp only [plan, if_neg hle, if_pos hlt, Nat.add_sub_cancel_left]

theorem label_extra : (plan number n p E).label (n + p + i) = E.label i := by
  have hle : ¬ n + p + i < n := by omega
  have hlt : ¬ n + p + i < n + p := by omega
  simp only [plan, label, if_neg hle, if_neg hlt, Nat.add_sub_cancel_left]

theorem domain_extra : (plan number n p E).domain (n + p + i) = E.domain i := by
  have hle : ¬ n + p + i < n := by omega
  have hlt : ¬ n + p + i < n + p := by omega
  simp only [plan, if_neg hle, if_neg hlt, Nat.add_sub_cancel_left]

end Positions

/-! ## Numbers -/

/-- The values of a decision variable are the numbers of the parts. -/
theorem mem_numbers {m : Nat} (hm : InRange m) {x : Int} :
    x ∈ Domain.between 1 m ↔ 1 ≤ x ∧ x ≤ m := by
  rw [Domain.mem_between, and_iff_right_iff_imp]
  rintro ⟨hone, hle⟩
  simp only [InRange, minValue, maxValue] at hm ⊢
  omega

/-- There is a first part unless there is none. -/
theorem one_mem_numbers {m : Nat} (hm : InRange m) (hm0 : m ≠ 0) :
    (1 : Int) ∈ Domain.between 1 m :=
  (mem_numbers hm).mpr ⟨Int.le_refl 1, by omega⟩

/-- The numbers up to one that is in range are in range. -/
theorem inRange_succ {m i : Nat} (hm : InRange m) (hi : i < m) : InRange (Int.ofNat i + 1) := by
  simp only [InRange, minValue, maxValue, Int.ofNat_eq_natCast] at hm ⊢
  omega

/-- The part that a value is the number of. -/
theorem exists_part {m : Nat} {x : Int} (hx : 1 ≤ x ∧ x ≤ m) : ∃ i < m, x = Int.ofNat i + 1 := by
  obtain ⟨i, hi⟩ := Int.eq_ofNat_of_zero_le (by omega : 0 ≤ x - 1)
  refine ⟨i, by omega, ?_⟩
  simp only [Int.ofNat_eq_natCast]
  omega

/-- The value of a part is its number. -/
theorem mem_number {m i : Nat} (hm : InRange m) (hi : i < m) {x : Int} :
    x ∈ Domain.between (Int.ofNat i + 1) (Int.ofNat i + 1) ↔ x = Int.ofNat i + 1 := by
  rw [Domain.mem_between]
  constructor
  · exact fun h => Int.le_antisymm h.2.2 h.2.1
  · rintro rfl
    exact ⟨inRange_succ hm hi, Int.le_refl _, Int.le_refl _⟩

theorem length_numbers (count : Nat) : (numbers count).length = count := by simp [numbers]

theorem getElem_numbers {count i : Nat} (hi : i < (numbers count).length) :
    (numbers count)[i] = Int.ofNat i + 1 := by
  simp [numbers]

/-! ## Building -/

section Declaring

variable {P : Plan} {n p k : Nat} {cs : List Constraint} {s : Store} {hopeless : Prop}

/-- Decision variables are declared at the beginning of any plan that begins with them. -/
theorem leadsTo_declareVariables_of (hp : InRange p) (hp0 : p ≠ 0)
    (hlabel : ∀ j < n, P.label j = some (numbered "x" j ""))
    (hdomain : ∀ j < n, P.domain j = .between 1 p) (h : Stage P 0 [] s) :
    (declareVariables n p).LeadsTo s
      (fun vs t => vs = (List.range n).map (decision P.number) ∧ Stage P n [] t) hopeless := by
  rw [declareVariables, Int.toNat_natCast]
  refine (Build.leadsTo_mapM (fun i t => Stage P i [] t) (decision P.number)
    (fun i hi t ht => ?_) h).mono (fun vs t ht => ?_) id
  · rw [List.length_range] at hi
    rw [List.getElem_range]
    refine Build.leadsTo_integer ht ?_ (hdomain i hi) (one_mem_numbers hp hp0)
    rw [hlabel i hi, numbered, String.append_empty]
  · rwa [List.length_range] at ht

/-- Parts are declared wherever a plan has them. -/
theorem leadsTo_declareParts_of (hp : InRange p)
    (hlabel : ∀ i < p, P.label (k + i) = some (numbered "part-" (i + 1) ""))
    (hdomain : ∀ i < p, P.domain (k + i) = .between (Int.ofNat i + 1) (Int.ofNat i + 1))
    (h : Stage P k [] s) :
    (declareParts p).LeadsTo s
      (fun vs t => vs = (List.range p).map (part P.number k) ∧ Stage P (k + p) [] t)
      hopeless := by
  rw [declareParts]
  refine (Build.leadsTo_mapM (fun i t => Stage P (k + i) [] t) (part P.number k)
    (fun i hi t ht => ?_) h).mono (fun vs t ht => ?_) id
  · rw [length_numbers] at hi
    rw [getElem_numbers, partName_eq]
    refine Build.leadsTo_integer ht (x := Int.ofNat i + 1) (hlabel i hi) (hdomain i hi) ?_
    exact (mem_number hp hi).mpr rfl
  · rwa [length_numbers] at ht

/-- Decision variables have the names that are planned. -/
theorem decision_names_of (hlabel : ∀ j < n, P.label j = some (numbered "x" j ""))
    (h : Stage P k cs s) (hle : n ≤ k) :
    ((List.range n).map (decision P.number)).map s.name =
      (List.range n).map fun j => numbered "x" j "" := by
  rw [List.map_map]
  refine List.map_congr_left fun j hj => ?_
  have hjn := List.mem_range.mp hj
  exact h.name_eq (Nat.lt_of_lt_of_le hjn hle) (hlabel j hjn)

end Declaring

section Building

variable {number n p k : Nat} {E : Extras} {cs : List Constraint} {s : Store} {hopeless : Prop}

/-- The decision variables come first. -/
theorem leadsTo_declareVariables (hp : InRange p) (hp0 : p ≠ 0)
    (h : Stage (plan number n p E) 0 [] s) :
    (declareVariables n p).LeadsTo s
      (fun vs t => vs = (List.range n).map (decision number) ∧ Stage (plan number n p E) n [] t)
      hopeless :=
  leadsTo_declareVariables_of hp hp0 (fun _ => label_decision) (fun _ => domain_decision) h

/-- Then come the parts. -/
theorem leadsTo_declareParts (hp : InRange p) (h : Stage (plan number n p E) n [] s) :
    (declareParts p).LeadsTo s (fun vs t => vs = (List.range p).map (part number n) ∧
      Stage (plan number n p E) (n + p) [] t) hopeless :=
  leadsTo_declareParts_of hp (fun _ => label_part) (fun _ => domain_part) h

/-- The decision variables are called `x0`, `x1`, …. -/
theorem decision_names (h : Stage (plan number n p E) k cs s) (hle : n ≤ k) :
    ((List.range n).map (decision number)).map s.name =
      (List.range n).map fun j => numbered "x" j "" :=
  decision_names_of (fun _ => label_decision) h hle

end Building

/-! ## Assignments -/

section Assignments

variable {number n p m : Nat} {E : Extras} {σ : Assignment}

/-- **WHAT IS DRAWN** from the domains of the plan: for a decision variable the number of
    a part, and for a part its own. -/
theorem draws_iff (hp : InRange p) :
    (plan number n p E).Draws (n + p + m) σ ↔
      (∀ j < n, 1 ≤ σ (decision number j) ∧ σ (decision number j) ≤ p) ∧
        (∀ i < p, σ (part number n i) = Int.ofNat i + 1) ∧
          ∀ k < m, σ (extra number n p k) ∈ E.domain k := by
  constructor
  · intro h
    refine ⟨fun j hj => ?_, fun i hi => ?_, fun k hk => ?_⟩
    · have hdraw := h j (by omega)
      rw [domain_decision hj] at hdraw
      exact (mem_numbers hp).mp hdraw
    · have hdraw := h (n + i) (by omega)
      rw [domain_part hi] at hdraw
      exact (mem_number hp hi).mp hdraw
    · have hdraw := h (n + p + k) (by omega)
      rwa [domain_extra] at hdraw
  -- a position is one of a decision, a part or an extra variable
  · rintro ⟨hdecisions, hparts, hextras⟩ i hi
    rcases Nat.lt_or_ge i n with hin | hin
    · rw [domain_decision hin]
      exact (mem_numbers hp).mpr (hdecisions i hin)
    · obtain ⟨j, rfl⟩ := Nat.exists_eq_add_of_le hin
      rcases Nat.lt_or_ge j p with hjp | hjp
      · rw [domain_part hjp]
        exact (mem_number hp hjp).mpr (hparts j hjp)
      · obtain ⟨k, rfl⟩ := Nat.exists_eq_add_of_le hjp
        rw [← Nat.add_assoc, domain_extra]
        exact hextras k (by omega)

/-- The assignment with the values of a tuple, for every part its number, and the rest. -/
def assignment (n p : Nat) (tuple : List Int) (extras : Nat → Int) : Assignment := fun v =>
  if v.index < n then tuple[v.index]?.getD 0
  else if v.index < n + p then Int.ofNat (v.index - n) + 1
  else extras (v.index - (n + p))

variable {tuple : List Int} {extras : Nat → Int} {i : Nat}

/-- The decision variables take the values of the tuple. -/
theorem assignment_decision (hlength : tuple.length = n) (hi : i < tuple.length) :
    assignment n p tuple extras (decision number i) = tuple[i] := by
  have hlt : i < n := hlength ▸ hi
  simp only [assignment, decision, if_pos hlt, List.getElem?_eq_getElem hi, Option.getD_some]

/-- The parts take their numbers. -/
theorem assignment_part (hi : i < p) :
    assignment n p tuple extras (part number n i) = Int.ofNat i + 1 := by
  have hle : ¬ n + i < n := by omega
  have hlt : n + i < n + p := by omega
  simp only [assignment, part, if_neg hle, if_pos hlt, Nat.add_sub_cancel_left]

/-- The extra variables take the given values. -/
theorem assignment_extra : assignment n p tuple extras (extra number n p i) = extras i := by
  have hle : ¬ n + p + i < n := by omega
  have hlt : ¬ n + p + i < n + p := by omega
  simp only [assignment, extra, if_neg hle, if_neg hlt, Nat.add_sub_cancel_left]

/-- The values of the decision variables are the tuple. -/
theorem map_assignment (hlength : tuple.length = n) :
    ((List.range n).map (decision number)).map (assignment n p tuple extras) = tuple := by
  refine List.ext_getElem (by simp [hlength]) fun j _ hj => ?_
  rw [List.getElem_map, List.getElem_map, List.getElem_range]
  exact assignment_decision hlength hj

end Assignments

end Parts

end ConstraintSolver
