import ConstraintSolver.Model.Parts

/-! # Labels — names with a number in them

    The variables of a model are named by a number between two texts, such as
    `x7.strength`.  As long as there are no digits in the texts, the name
    tells the number from the rest, so two such names are equal only if their
    numbers and their texts are (`numbered_inj`). -/

namespace ConstraintSolver

/-- A number between two texts. -/
def numbered (stem : String) (number : Nat) (suffix : String) : String :=
  stem ++ toString number ++ suffix

/-- There are no digits in the text. -/
def Wordy (text : String) : Prop := ∀ c ∈ text.toList, c.isDigit = false

instance (text : String) : Decidable (Wordy text) :=
  List.decidableBAll (fun c : Char => c.isDigit = false) text.toList

theorem digits_of_wordy {text : String} (h : Wordy text) :
    text.toList.filter Char.isDigit = [] := by
  refine List.filter_eq_nil_iff.mpr fun c hc => ?_
  rw [h c hc]
  exact Bool.false_ne_true

section Numbered

variable {stem stem' suffix suffix' : String} {i j : Nat}

/-- The digits of the name are those of the number. -/
theorem digits_numbered (hstem : Wordy stem) (hsuffix : Wordy suffix) :
    (numbered stem i suffix).toList.filter Char.isDigit = Nat.toDigits 10 i := by
  have hall : (Nat.toDigits 10 i).filter Char.isDigit = Nat.toDigits 10 i :=
    List.filter_eq_self.mpr fun c hc => Nat.isDigit_of_mem_toDigits (by decide) (by decide) hc
  rw [numbered, String.toList_append, String.toList_append, List.filter_append,
    List.filter_append, digits_of_wordy hstem, digits_of_wordy hsuffix, Nat.toString_eq_repr,
    Nat.toList_repr, hall, List.nil_append, List.append_nil]

/-- The rest of the name are the two texts. -/
theorem letters_numbered (hstem : Wordy stem) (hsuffix : Wordy suffix) :
    (numbered stem i suffix).toList.filter (!·.isDigit) = stem.toList ++ suffix.toList := by
  have hall : ∀ {text : String}, Wordy text →
      text.toList.filter (!·.isDigit) = text.toList := by
    intro text htext
    refine List.filter_eq_self.mpr fun c hc => ?_
    rw [htext c hc]
    rfl
  have hnone : (Nat.toDigits 10 i).filter (!·.isDigit) = [] := by
    refine List.filter_eq_nil_iff.mpr fun c hc => ?_
    rw [Nat.isDigit_of_mem_toDigits (by decide) (by decide) hc]
    exact Bool.false_ne_true
  rw [numbered, String.toList_append, String.toList_append, List.filter_append,
    List.filter_append, hall hstem, hall hsuffix, Nat.toString_eq_repr, Nat.toList_repr, hnone,
    List.append_nil]

/-- **NUMBERED NAMES ARE TOLD APART** by their numbers and their texts. -/
theorem numbered_inj (hstem : Wordy stem) (hsuffix : Wordy suffix) (hstem' : Wordy stem')
    (hsuffix' : Wordy suffix') (h : numbered stem i suffix = numbered stem' j suffix') :
    i = j ∧ stem.toList ++ suffix.toList = stem'.toList ++ suffix'.toList := by
  have hdigits := digits_numbered (i := i) hstem hsuffix
  have hletters := letters_numbered (i := i) hstem hsuffix
  rw [h] at hdigits hletters
  rw [digits_numbered hstem' hsuffix'] at hdigits
  rw [letters_numbered hstem' hsuffix'] at hletters
  have hread := congrArg (Nat.ofDigitChars 10 · 0) hdigits
  simp only [Nat.ofDigitChars_toDigits (by decide : 1 < 10) (Nat.le_refl 10)] at hread
  exact ⟨hread.symm, hletters.symm⟩

/-- Only names that begin with an underscore are reserved. -/
theorem isReserved_numbered {c : Char} {rest : List Char} (hstem : stem.toList = c :: rest)
    (hc : c ≠ '_') : Names.isReserved (numbered stem i suffix) = false := by
  rw [Names.isReserved, numbered, String.toList_append, String.toList_append, hstem]
  simp [hc]

theorem numbered_append (stem : String) (i : Nat) (suffix : String) :
    numbered stem i "" ++ suffix = numbered stem i suffix := by
  rw [numbered, numbered, String.append_empty]

end Numbered

theorem Parts.partName_eq (i : Nat) : partName (Int.ofNat i + 1) = numbered "part-" (i + 1) "" :=
  (String.append_empty).symm

end ConstraintSolver
