/-
  Tables of sets.

  A finite set of elements is looked up by its key, the sorted list of its
  elements (`setKey`).  `missing S f` are the subsets of `S` that the table `f`
  does not have; an entry for a missing subset makes it smaller
  (`card_missing_update`), so that at most `2 ^ |S|` entries are made.
-/
import MooreFilter.Lib.Sorting
import Mathlib.Data.Finset.Powerset
import Mathlib.Logic.Function.Basic

namespace Sorting

variable {α β π : Type*} [LinearOrder β] [DecidableEq α] {key : α ↪ β}

/-- The key of the set of the elements of a list. -/
def setKey (key : α ↪ β) (l : List α) : List α := unique (sortBy key l)

theorem setKey_eq_iff {l l' : List α} : setKey key l = setKey key l' ↔ ∀ a, a ∈ l ↔ a ∈ l' :=
  unique_sortBy_eq_iff

variable (key) in
/-- The subsets of `S` that are not in the table. -/
noncomputable def missing (S : Finset α) (f : List α → Option π) : Finset (Finset α) :=
  S.powerset.filter fun F => (f (setKey key F.toList)).isNone = true

theorem mem_missing {S : Finset α} {f : List α → Option π} {F : Finset α} :
    F ∈ missing key S f ↔ F ⊆ S ∧ f (setKey key F.toList) = none := by
  rw [missing, Finset.mem_filter, Finset.mem_powerset, Option.isNone_iff_eq_none]

/-- An entry for a set that is missing. -/
theorem card_missing_update {S : Finset α} {f : List α → Option π} {l : List α} {q : π}
    (hl : ∀ a ∈ l, a ∈ S) (hnew : f (setKey key l) = none) :
    (missing key S (Function.update f (setKey key l) (some q))).card + 1 ≤
      (missing key S f).card := by
  have hkey : setKey key l.toFinset.toList = setKey key l :=
    setKey_eq_iff.2 fun a => by rw [Finset.mem_toList, List.mem_toFinset]
  have hmem : l.toFinset ∈ missing key S f :=
    mem_missing.2 ⟨fun a ha => hl a (List.mem_toFinset.1 ha), by rw [hkey]; exact hnew⟩
  have hsub : missing key S (Function.update f (setKey key l) (some q)) ⊆
      (missing key S f).erase l.toFinset := by
    intro G hG
    obtain ⟨hGS, hGk⟩ := mem_missing.1 hG
    have hne : setKey key G.toList ≠ setKey key l := by
      intro he; rw [he, Function.update_self] at hGk; exact absurd hGk (by simp)
    rw [Function.update_of_ne hne] at hGk
    refine Finset.mem_erase.2 ⟨?_, mem_missing.2 ⟨hGS, hGk⟩⟩
    rintro rfl; exact hne hkey
  calc (missing key S (Function.update f (setKey key l) (some q))).card + 1 ≤
        ((missing key S f).erase l.toFinset).card + 1 :=
        Nat.add_le_add_right (Finset.card_le_card hsub) 1
    _ = (missing key S f).card := Finset.card_erase_add_one hmem

end Sorting
