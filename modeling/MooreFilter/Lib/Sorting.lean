/-
  Sorted lists as keys for sets.

  `sortBy key l` is the list sorted by an injective key, `unique` removes the
  repetitions of neighbours (`std::sort`, `std::unique`).  Two lists have the
  same sorted list iff they are permutations of one another
  (`sortBy_eq_iff`), and the same sorted list without repetitions iff they have
  the same elements (`unique_sortBy_eq_iff`); the two forms agree on a list
  exactly if it has no repetitions (`sortBy_eq_unique_sortBy_iff`).

  In a sorted list the elements below a bound come first, so that `takeWhile` and
  `dropWhile` filter it (`takeWhile_eq_filter`, `dropWhile_eq_filter`).
-/
import Mathlib.Data.List.Sort
import Mathlib.Logic.Embedding.Basic

namespace Sorting

variable {α β : Type*} [LinearOrder β]

/-- The list sorted by a key. -/
def sortBy (key : α ↪ β) (l : List α) : List α :=
  l.insertionSort fun a b => key a ≤ key b

/-- The list without repetitions of neighbours. -/
def unique [DecidableEq α] : List α → List α
  | [] => []
  | [a] => [a]
  | a :: b :: l => if a = b then unique (b :: l) else a :: unique (b :: l)

section
variable {key : α ↪ β} {l l' : List α}

theorem perm_sortBy (key : α ↪ β) (l : List α) : (sortBy key l).Perm l :=
  List.perm_insertionSort _ l

@[simp] theorem mem_sortBy {a : α} : a ∈ sortBy key l ↔ a ∈ l :=
  (perm_sortBy key l).mem_iff

theorem pairwise_sortBy (key : α ↪ β) (l : List α) :
    (sortBy key l).Pairwise fun a b => key a ≤ key b := by
  have : Std.Total fun a b : α => key a ≤ key b := ⟨fun a b => le_total _ _⟩
  have : IsTrans α fun a b => key a ≤ key b := ⟨fun a b c => le_trans⟩
  exact List.pairwise_insertionSort _ l

theorem eq_of_perm_of_pairwise (key : α ↪ β) (h : l.Perm l')
    (hl : l.Pairwise fun a b => key a ≤ key b)
    (hl' : l'.Pairwise fun a b => key a ≤ key b) : l = l' :=
  h.eq_of_pairwise (fun _ _ _ _ h₁ h₂ => key.injective (le_antisymm h₁ h₂)) hl hl'

/-- Sorted lists are equal iff the lists are permutations of one another. -/
theorem sortBy_eq_iff : sortBy key l = sortBy key l' ↔ l.Perm l' := by
  constructor
  · intro h
    exact (perm_sortBy key l).symm.trans (h ▸ perm_sortBy key l')
  · intro h
    exact eq_of_perm_of_pairwise key (((perm_sortBy key l).trans h).trans (perm_sortBy key l').symm)
      (pairwise_sortBy key l) (pairwise_sortBy key l')

variable [DecidableEq α]

@[simp] theorem mem_unique {a : α} : ∀ {l : List α}, a ∈ unique l ↔ a ∈ l
  | [] => Iff.rfl
  | [b] => Iff.rfl
  | b :: c :: l => by
    unfold unique
    split_ifs with h
    · rw [mem_unique]; simp [h]
    · rw [List.mem_cons, mem_unique, List.mem_cons (l := c :: l)]

/-- Without repetitions, a sorted list is strictly sorted. -/
theorem pairwise_lt_unique : ∀ {l : List α}, l.Pairwise (fun a b => key a ≤ key b) →
    (unique l).Pairwise fun a b => key a < key b
  | [], _ => List.Pairwise.nil
  | [b], _ => List.pairwise_singleton _ _
  | b :: c :: l, h => by
    obtain ⟨hb, h⟩ := List.pairwise_cons.1 h
    unfold unique
    split_ifs with e
    · exact pairwise_lt_unique h
    · refine List.pairwise_cons.2 ⟨fun a ha => ?_, pairwise_lt_unique h⟩
      have hbc : key b < key c :=
        lt_of_le_of_ne (hb c (by simp)) fun he => e (key.injective he)
      rcases List.mem_cons.1 (mem_unique.1 ha) with rfl | ha
      · exact hbc
      · exact hbc.trans_le ((List.pairwise_cons.1 h).1 a ha)

theorem nodup_unique_sortBy (key : α ↪ β) (l : List α) : (unique (sortBy key l)).Nodup :=
  (pairwise_lt_unique (pairwise_sortBy key l)).imp fun h e => absurd (e ▸ h) (lt_irrefl _)

/-- Sorted lists without repetitions are equal iff the lists have the same
    elements. -/
theorem unique_sortBy_eq_iff :
    unique (sortBy key l) = unique (sortBy key l') ↔ ∀ a, a ∈ l ↔ a ∈ l' := by
  constructor
  · intro h a
    rw [← (perm_sortBy key l).mem_iff, ← mem_unique, h, mem_unique, mem_sortBy]
  · intro h
    refine eq_of_perm_of_pairwise key ?_
      ((pairwise_lt_unique (pairwise_sortBy key l)).imp le_of_lt)
      ((pairwise_lt_unique (pairwise_sortBy key l')).imp le_of_lt)
    rw [List.perm_ext_iff_of_nodup (nodup_unique_sortBy key l) (nodup_unique_sortBy key l')]
    intro a; simp [h a]

/-- Removing repetitions changes the sorted list of a list exactly if it has
    some. -/
theorem sortBy_eq_unique_sortBy_iff : sortBy key l = unique (sortBy key l) ↔ l.Nodup := by
  constructor
  · intro h
    rw [← (perm_sortBy key l).nodup_iff, h]; exact nodup_unique_sortBy key l
  · intro h
    refine eq_of_perm_of_pairwise key ?_ (pairwise_sortBy key l)
      ((pairwise_lt_unique (pairwise_sortBy key l)).imp le_of_lt)
    rw [List.perm_ext_iff_of_nodup ((perm_sortBy key l).nodup_iff.2 h) (nodup_unique_sortBy key l)]
    simp

theorem mem_of_sortBy_eq (h : sortBy key l = unique (sortBy key l')) {a : α} : a ∈ l ↔ a ∈ l' := by
  rw [← (perm_sortBy key l).mem_iff, h, mem_unique, mem_sortBy]

end

/-! ## Beginnings of sorted lists -/

theorem takeWhile_eq_filter {p : α → Bool} {l : List α}
    (h : l.Pairwise fun a b => p b = true → p a = true) : l.takeWhile p = l.filter p := by
  induction l with
  | nil => rfl
  | cons a l ih =>
    obtain ⟨ha, hl⟩ := List.pairwise_cons.1 h
    by_cases hp : p a = true
    · rw [List.takeWhile_cons_of_pos hp, List.filter_cons_of_pos hp, ih hl]
    · rw [List.takeWhile_cons_of_neg hp, List.filter_cons_of_neg hp, eq_comm]
      exact List.filter_eq_nil_iff.2 fun b hb hpb => hp (ha b hb hpb)

theorem dropWhile_eq_filter {p : α → Bool} {l : List α}
    (h : l.Pairwise fun a b => p b = true → p a = true) :
    l.dropWhile p = l.filter fun a => !p a := by
  induction l with
  | nil => rfl
  | cons a l ih =>
    obtain ⟨ha, hl⟩ := List.pairwise_cons.1 h
    by_cases hp : p a = true
    · rw [List.dropWhile_cons_of_pos hp, List.filter_cons_of_neg (by simp [hp]), ih hl]
    · rw [List.dropWhile_cons_of_neg hp, List.filter_cons_of_pos (by simp [hp]), eq_comm,
        List.filter_eq_self.2 fun b hb => by simpa using fun hpb => hp (ha b hb hpb)]

end Sorting
