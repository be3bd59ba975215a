/-
  Binary search.

  `lowerBound p l` is the index `std::lower_bound` returns on the vector `l`
  with the comparison `p`: it halves the range `[first, first + len)` until it
  is empty.  If the elements that satisfy `p` come first, the index is that of
  the first element that does not (`lowerBound_eq_findIdx`).
-/
import Mathlib.Data.List.Basic
import Mathlib.Tactic.Linarith

namespace Search

variable {α : Type*}

/-- The search loop over the range of `len` elements from `first` on, for at
    most `fuel` rounds. -/
def lowerBoundFrom (p : α → Bool) (l : List α) : ℕ → ℕ → ℕ → ℕ
  | 0, first, _ => first
  | fuel + 1, first, len =>
    if len = 0 then first
    else
      let half := len / 2
      match l[first + half]? with
      | some x => if p x then lowerBoundFrom p l fuel (first + half + 1) (len - half - 1)
          else lowerBoundFrom p l fuel first half
      | none => first

/-- `std::lower_bound`; each round shortens the range, so its length is fuel
    enough. -/
def lowerBound (p : α → Bool) (l : List α) : ℕ := lowerBoundFrom p l l.length 0 l.length

/-- Where the elements before `n` are those satisfying `p`, the search of a
    range around `n` finds `n`. -/
theorem lowerBoundFrom_eq {p : α → Bool} {l : List α} {n : ℕ}
    (hp : ∀ i x, l[i]? = some x → (p x = true ↔ i < n)) {fuel first len : ℕ} (hf : len ≤ fuel)
    (h₁ : first ≤ n) (h₂ : n ≤ first + len) (h₃ : first + len ≤ l.length) :
    lowerBoundFrom p l fuel first len = n := by
  induction fuel generalizing first len with
  | zero => simp only [lowerBoundFrom]; omega
  | succ fuel ih =>
    simp only [lowerBoundFrom]
    split_ifs with hlen
    · omega
    · have hlt : first + len / 2 < l.length := by omega
      simp only [List.getElem?_eq_getElem hlt]
      have hx := hp _ _ (List.getElem?_eq_getElem hlt)
      split_ifs with hpx
      · have := hx.1 hpx
        exact ih (by omega) (by omega) (by omega) (by omega)
      · have : ¬ first + len / 2 < n := fun h => hpx (hx.2 h)
        exact ih (by omega) h₁ (by omega) (by omega)

/-- In a vector partitioned by the predicate, its elements come first. -/
theorem iff_lt_findIdx {p : α → Bool} {l : List α}
    (hp : l.Pairwise fun x y => p y = true → p x = true) {i : ℕ} {x : α} (hi : l[i]? = some x) :
    p x = true ↔ i < l.findIdx fun x => !p x := by
  obtain ⟨hlt, rfl⟩ := List.getElem?_eq_some_iff.1 hi
  constructor
  · intro hpx
    by_contra hle
    rw [not_lt] at hle
    -- the first element without `p` is at or before `i`, so `i` has none either
    have hfound : l.findIdx (fun x => !p x) < l.length := lt_of_le_of_lt hle hlt
    have hnot := List.findIdx_getElem (w := hfound)
    rcases hle.lt_or_eq with hlt' | heq
    · have := List.pairwise_iff_getElem.1 hp _ _ hfound hlt hlt' hpx
      simp [this] at hnot
    · simp only [heq, hpx] at hnot
      simp at hnot
  · intro h
    simpa using List.not_of_lt_findIdx h

/-- **Binary search is linear search** on a vector partitioned by the
    comparison. -/
theorem lowerBound_eq_findIdx {p : α → Bool} {l : List α}
    (hp : l.Pairwise fun x y => p y = true → p x = true) :
    lowerBound p l = l.findIdx fun x => !p x :=
  lowerBoundFrom_eq (fun _ _ => iff_lt_findIdx hp) le_rfl (Nat.zero_le _)
    (by simpa using List.findIdx_le_length) (by simp)

end Search
