/-
  Events with time stamps, and runs of events.

  * `toDelays` replaces the stamps of a list of events by the delays between
    them, `toStamps` adds the delays up again; events with the delays of others get
    the stamps of these (`toStamps_eq_zipWith`);
  * `condense p` keeps of each maximal run of elements with `p` the first one,
    and also the last one if another element follows the run;
  * `condenseFrom p last` does so element by element, where `last` is the last
    element of the run that is being read (`condenseFrom_none`).
-/
import Mathlib.Algebra.Group.Basic
import Mathlib.Data.List.TakeWhile

namespace Stamps

/-! ## Stamps and delays -/

section
variable {α G : Type*} [AddCommGroup G]

/-- The delays of the events, the first one after the time `t`. -/
def toDelays (t : G) : List (α × G) → List (α × G)
  | [] => []
  | e :: w => (e.1, e.2 - t) :: toDelays e.2 w

/-- The time stamps of the events, the first one after the time `t`. -/
def toStamps (t : G) : List (α × G) → List (α × G)
  | [] => []
  | e :: w => (e.1, t + e.2) :: toStamps (t + e.2) w

theorem map_fst_toDelays (w : List (α × G)) :
    ∀ t : G, (toDelays t w).map Prod.fst = w.map Prod.fst := by
  induction w with
  | nil => intro t; rfl
  | cons e w ih => intro t; rw [toDelays, List.map_cons, List.map_cons, ih]

/-- Events with the same delays have the same stamps. -/
theorem toStamps_eq_zipWith (v w : List (α × G)) :
    ∀ t : G, v.map Prod.snd = (toDelays t w).map Prod.snd →
      toStamps t v = v.zipWith (fun o e => (o.1, e.2)) w := by
  induction v generalizing w with
  | nil => intro t _; rfl
  | cons o v ih =>
    intro t h
    cases w with
    | nil => exact absurd h (by simp [toDelays])
    | cons e w =>
      rw [toDelays, List.map_cons, List.map_cons, List.cons.injEq] at h
      obtain ⟨ho, hv⟩ := h
      have hsum : t + o.2 = e.2 := by rw [ho, add_sub_cancel]
      rw [toStamps, hsum, ih w e.2 hv, List.zipWith_cons_cons]

end

/-! ## Runs -/

section
variable {α : Type*} (p : α → Bool)

/-- The list where each maximal run of elements with `p` is replaced by its first
    element, followed by its last one if the list goes on. -/
def condense : List α → List α
  | [] => []
  | a :: l =>
    if p a then
      a :: (if l.dropWhile p = [] then [] else [(l.takeWhile p).getLastD a]) ++
        condense (l.dropWhile p)
    else a :: condense l
termination_by l => l.length
decreasing_by
  · exact Nat.lt_succ_of_le (List.length_dropWhile_le p l)
  · exact Nat.lt_succ_self _

/-- The same element by element, where `last` is the last element read if it
    has `p`. -/
def condenseFrom (last : Option α) : List α → List α
  | [] => []
  | a :: l =>
    if p a then (if last.isSome then [] else [a]) ++ condenseFrom (some a) l
    else last.toList ++ a :: condenseFrom none l

variable {p}

/-- **Reading element by element condenses the runs.** The second part is about
    a list whose beginning goes on with the run of `a`. -/
theorem condenseFrom_eq (l : List α) :
    condenseFrom p none l = condense p l ∧ ∀ a, condenseFrom p (some a) l =
      (if l.dropWhile p = [] then [] else [(l.takeWhile p).getLastD a]) ++
        condense p (l.dropWhile p) := by
  induction l with
  | nil => simp [condenseFrom, condense]
  | cons b l ih =>
    obtain ⟨ihnone, ihsome⟩ := ih
    cases hb : p b with
    | true =>
      constructor
      · rw [condenseFrom, if_pos hb, ihsome, condense, if_pos hb]; rfl
      · intro a
        rw [condenseFrom, if_pos hb, ihsome, List.dropWhile_cons_of_pos hb,
          List.takeWhile_cons_of_pos hb, List.getLastD_cons]
        rfl
    | false =>
      have hnb : ¬ p b = true := by rw [hb]; exact Bool.false_ne_true
      constructor
      · rw [condenseFrom, if_neg hnb, ihnone, condense, if_neg hnb]; rfl
      · intro a
        rw [condenseFrom, if_neg hnb, ihnone, List.dropWhile_cons_of_neg hnb,
          List.takeWhile_cons_of_neg hnb, if_neg (List.cons_ne_nil b l), condense, if_neg hnb]
        rfl

theorem condenseFrom_none (l : List α) : condenseFrom p none l = condense p l :=
  (condenseFrom_eq l).1

end

end Stamps
