/-
  Bounds on a difference.

  A bound is `< c`, `≤ c` or no bound at all.  Bounds are ordered by strength,
  the stronger one first (`< c` before `≤ c`), and added like the differences
  they bound: `x ≤ c` and `y < d` give `x + y < c + d`.

  * `Bound.Holds b x`: the number `x` meets the bound `b`;
  * bounds form a linear order with a top and an ordered commutative monoid;
  * `exists_holds_iff`: two bounds on `x` and on `-x` have a common solution iff
    their sum is not negative;
  * `Bound.strict` makes a bound strict, `Bound.IsInt` are the bounds by
    integers.
-/
import Mathlib.Algebra.Order.Field.Basic
import Mathlib.Algebra.Order.Monoid.Unbundled.Basic
import Mathlib.Data.Prod.Lex
import Mathlib.Order.WithBot
import Mathlib.Tactic.Linarith

/-- An upper bound on a number: `≤ c` (closed), `< c` (not closed), or none. -/
inductive Bound (K : Type*) where
  | fin (c : K) (closed : Bool)
  | inf
  deriving DecidableEq

namespace Bound

variable {K : Type*}

/-- The number meets the bound. -/
def Holds [LinearOrder K] : Bound K → K → Prop
  | fin c true, x => x ≤ c
  | fin c false, x => x < c
  | inf, _ => True

instance [LinearOrder K] (b : Bound K) (x : K) : Decidable (b.Holds x) :=
  match b with
  | fin c true => inferInstanceAs (Decidable (x ≤ c))
  | fin c false => inferInstanceAs (Decidable (x < c))
  | inf => inferInstanceAs (Decidable True)

/-- The bound as a pair compared lexicographically, `inf` on top. -/
def toPair : Bound K → WithTop (K ×ₗ Bool)
  | fin c s => ((toLex (c, s) : K ×ₗ Bool) : WithTop (K ×ₗ Bool))
  | inf => ⊤

theorem toPair_injective : Function.Injective (toPair (K := K)) := by
  rintro (⟨c, s⟩ | _) (⟨d, t⟩ | _) h
  · have := WithTop.coe_injective h
    simpa using this
  · exact absurd h WithTop.coe_ne_top
  · exact absurd h.symm WithTop.coe_ne_top
  · rfl

/-- The bound, made strict. -/
def strict : Bound K → Bound K
  | fin c _ => fin c false
  | inf => inf

@[simp] theorem strict_inf : (inf : Bound K).strict = inf := rfl

section Order
variable [LinearOrder K]

instance : LinearOrder (Bound K) := LinearOrder.lift' toPair toPair_injective

theorem fin_le_fin {c d : K} {s t : Bool} :
    fin c s ≤ fin d t ↔ c < d ∨ c = d ∧ s ≤ t := by
  change ((toLex (c, s) : K ×ₗ Bool) : WithTop (K ×ₗ Bool)) ≤ (toLex (d, t) : K ×ₗ Bool) ↔ _
  rw [WithTop.coe_le_coe, Prod.Lex.toLex_le_toLex]

theorem fin_le_closed (c : K) (s : Bool) : fin c s ≤ fin c true :=
  fin_le_fin.2 (Or.inr ⟨rfl, Bool.le_true s⟩)

theorem fin_lt_fin {c d : K} {s t : Bool} :
    fin c s < fin d t ↔ c < d ∨ c = d ∧ s < t := by
  change ((toLex (c, s) : K ×ₗ Bool) : WithTop (K ×ₗ Bool)) < (toLex (d, t) : K ×ₗ Bool) ↔ _
  rw [WithTop.coe_lt_coe, Prod.Lex.toLex_lt_toLex]

@[simp] theorem le_inf (b : Bound K) : b ≤ inf :=
  show toPair b ≤ ⊤ from le_top

instance : OrderTop (Bound K) where
  top := inf
  le_top := le_inf

@[simp] theorem inf_le_fin {c : K} {s : Bool} : ¬ (inf ≤ fin c s) := by
  intro h
  have : (⊤ : WithTop (K ×ₗ Bool)) ≤ (toLex (c, s) : K ×ₗ Bool) := h
  simp at this

theorem fin_lt_inf {c : K} {s : Bool} : fin c s < inf := lt_of_not_ge inf_le_fin

theorem top_eq_inf : (⊤ : Bound K) = inf := rfl

/-- A stronger bound implies a weaker one. -/
theorem Holds.mono {b b' : Bound K} {x : K} (h : b.Holds x) (hle : b ≤ b') : b'.Holds x := by
  rcases b with ⟨c, s⟩ | _ <;> rcases b' with ⟨d, t⟩ | _
  · rcases fin_le_fin.1 hle with hcd | ⟨rfl, hst⟩
    · cases s <;> cases t <;> simp only [Holds] at h ⊢
      exacts [h.trans hcd, (h.trans hcd).le, h.trans_lt hcd, h.trans hcd.le]
    · cases s <;> cases t <;> simp only [Holds] at h ⊢
      exacts [h, h.le, absurd hst (by decide), h]
  · trivial
  · exact absurd hle inf_le_fin
  · trivial

theorem Holds.anti {b : Bound K} {x y : K} (h : b.Holds x) (hle : y ≤ x) : b.Holds y := by
  rcases b with ⟨c, _ | _⟩ | _
  exacts [hle.trans_lt h, le_trans hle h, trivial]

theorem holds_min {b b' : Bound K} {x : K} : (min b b').Holds x ↔ b.Holds x ∧ b'.Holds x := by
  rcases le_total b b' with h | h
  · rw [min_eq_left h]; exact ⟨fun hb => ⟨hb, hb.mono h⟩, And.left⟩
  · rw [min_eq_right h]; exact ⟨fun hb => ⟨hb.mono h, hb⟩, And.right⟩

theorem strict_le (b : Bound K) : b.strict ≤ b := by
  rcases b with ⟨c, s⟩ | _
  · exact fin_le_fin.2 (Or.inr ⟨rfl, Bool.false_le s⟩)
  · exact le_rfl

theorem strict_mono {b b' : Bound K} (h : b ≤ b') : b.strict ≤ b'.strict := by
  rcases b with ⟨c, s⟩ | _ <;> rcases b' with ⟨d, t⟩ | _
  · rcases fin_le_fin.1 h with h | ⟨h, -⟩
    exacts [fin_le_fin.2 (Or.inl h), fin_le_fin.2 (Or.inr ⟨h, le_rfl⟩)]
  · exact le_inf _
  · exact absurd h inf_le_fin
  · exact le_rfl

end Order

section Add
variable [AddCommMonoid K]

instance : Add (Bound K) where
  add
    | fin c s, fin d t => fin (c + d) (s && t)
    | _, _ => inf

instance : Zero (Bound K) := ⟨fin 0 true⟩

theorem zero_def : (0 : Bound K) = fin 0 true := rfl

@[simp] theorem fin_add_fin (c d : K) (s t : Bool) :
    fin c s + fin d t = fin (c + d) (s && t) := rfl

@[simp] theorem inf_add (b : Bound K) : inf + b = inf := by cases b <;> rfl

@[simp] theorem add_inf (b : Bound K) : b + inf = inf := by cases b <;> rfl

instance : AddCommMonoid (Bound K) where
  add_assoc a b c := by
    rcases a with _ | _ <;> rcases b with _ | _ <;> rcases c with _ | _ <;>
      simp [add_assoc, Bool.and_assoc]
  zero_add a := by rcases a with _ | _ <;> simp [zero_def]
  add_zero a := by rcases a with _ | _ <;> simp [zero_def]
  add_comm a b := by
    rcases a with _ | _ <;> rcases b with _ | _ <;> simp [add_comm, Bool.and_comm]
  nsmul := nsmulRec

theorem strict_add [LinearOrder K] (a b : Bound K) : (a + b).strict = a.strict + b := by
  rcases a with _ | _ <;> rcases b with _ | _ <;> rfl

theorem zero_le_iff [LinearOrder K] {b : Bound K} : 0 ≤ b ↔ b.Holds 0 := by
  rcases b with ⟨c, _ | _⟩ | _
  · rw [zero_def, fin_le_fin]; simp [Holds]
  · rw [zero_def, fin_le_fin]; simp [Holds, le_iff_lt_or_eq]
  · simp [Holds]

/-- There is no bound between `< 0` and `≤ 0`. -/
theorem zero_le_of_lt [LinearOrder K] {b : Bound K} (h : fin 0 false < b) : 0 ≤ b := by
  rcases b with ⟨c, s⟩ | _
  · rw [zero_def, fin_le_fin]
    refine (fin_lt_fin.1 h).imp id fun hs => ⟨hs.1, ?_⟩
    have := hs.2
    cases s <;> simp at this ⊢
  · exact le_inf _

end Add

section Field
variable [Field K] [LinearOrder K] [IsStrictOrderedRing K]

instance : IsOrderedAddMonoid (Bound K) where
  add_le_add_left a b hab c := by
    rcases a with ⟨p, s⟩ | _ <;> rcases b with ⟨q, t⟩ | _ <;> rcases c with ⟨r, u⟩ | _
    · rcases fin_le_fin.1 hab with h | ⟨rfl, h⟩
      · exact fin_le_fin.2 (Or.inl (by linarith))
      · exact fin_le_fin.2 (Or.inr ⟨rfl, by cases s <;> cases t <;> cases u <;> simp_all⟩)
    all_goals first
      | exact absurd hab inf_le_fin
      | simp

/-- Bounds add up like the numbers they bound. -/
theorem Holds.add {b b' : Bound K} {x y : K} (h : b.Holds x) (h' : b'.Holds y) :
    (b + b').Holds (x + y) := by
  rcases b with ⟨c, _ | _⟩ | _ <;> rcases b' with ⟨d, _ | _⟩ | _ <;>
    simp only [fin_add_fin, Holds, Bool.and_self, Bool.and_true, Bool.and_false] at h h' ⊢ <;>
    linarith

theorem holds_add_fin {b : Bound K} {c x : K} : (b + fin c true).Holds x ↔ b.Holds (x - c) := by
  rcases b with ⟨d, _ | _⟩ | _ <;> simp [Holds, sub_lt_iff_lt_add]

/-- Two bounds, on `x` and on `-x`, have a common solution iff their sum is not
    negative. -/
theorem exists_holds_iff {b b' : Bound K} :
    (∃ x, b.Holds x ∧ b'.Holds (-x)) ↔ 0 ≤ b + b' := by
  constructor
  · rintro ⟨x, h, h'⟩
    rw [zero_le_iff, ← add_neg_cancel x]
    exact h.add h'
  · intro h
    rcases b with ⟨c, s⟩ | _
    · rcases b' with ⟨d, t⟩ | _
      · rw [fin_add_fin, zero_def, fin_le_fin] at h
        rcases h with h | ⟨h, hst⟩
        · -- room between the two bounds: the middle point meets both
          refine ⟨(c - d) / 2, ?_, ?_⟩
          · cases s <;> simp only [Holds] <;> linarith
          · cases t <;> simp only [Holds] <;> linarith
        · -- no room: both are closed at the same point
          obtain ⟨rfl, rfl⟩ : s = true ∧ t = true := by
            cases s <;> cases t <;> first | exact ⟨rfl, rfl⟩ | exact absurd hst (by decide)
          exact ⟨c, le_rfl, by simp only [Holds]; linarith⟩
      · exact ⟨c - 1, by cases s <;> simp [Holds], trivial⟩
    · rcases b' with ⟨d, t⟩ | _
      · exact ⟨1 - d, trivial, by cases t <;> simp [Holds]⟩
      · exact ⟨0, trivial, trivial⟩

theorem not_holds_fin {c x : K} {s : Bool} :
    ¬ (fin c s).Holds x ↔ (fin (-c) (!s)).Holds (-x) := by
  cases s <;> simp [Holds]

theorem fin_lt_iff {c : K} {s : Bool} {b : Bound K} :
    fin c s < b ↔ 0 ≤ b + fin (-c) (!s) := by
  rcases b with ⟨d, t⟩ | _
  · rw [fin_lt_fin, fin_add_fin, zero_def, fin_le_fin]
    have h₁ : 0 < d + -c ↔ c < d := by constructor <;> intro h <;> linarith
    have h₂ : 0 = d + -c ↔ c = d := by constructor <;> intro h <;> linarith
    have h₃ : s < t ↔ true ≤ (t && !s) := by cases s <;> cases t <;> decide
    rw [h₁, h₂, h₃]
  · simp [fin_lt_inf]

end Field

section IsInt
variable [Field K]

/-- The bound is none or by an integer. -/
def IsInt (b : Bound K) : Prop := ∀ c s, b = fin c s → ∃ z : ℤ, c = z

theorem IsInt.min [LinearOrder K] {b b' : Bound K} (h : b.IsInt) (h' : b'.IsInt) :
    (min b b').IsInt := by
  rcases min_choice b b' with e | e <;> rw [e] <;> assumption

theorem IsInt.add {b b' : Bound K} (h : b.IsInt) (h' : b'.IsInt) : (b + b').IsInt := by
  rcases b with ⟨c, s⟩ | _
  · rcases b' with ⟨d, t⟩ | _
    · obtain ⟨y, rfl⟩ := h c s rfl
      obtain ⟨z, rfl⟩ := h' d t rfl
      rintro _ _ ⟨⟩
      exact ⟨y + z, by push_cast; rfl⟩
    · simp [IsInt]
  · simp [IsInt]

theorem IsInt.strict {b : Bound K} (h : b.IsInt) : b.strict.IsInt := by
  rcases b with ⟨c, s⟩ | _
  · rintro _ _ ⟨⟩; exact h c s rfl
  · exact h

theorem isInt_inf : (inf : Bound K).IsInt := by simp [IsInt]

theorem isInt_fin (z : ℤ) (s : Bool) : (fin (z : K) s).IsInt := by
  rintro _ _ ⟨⟩; exact ⟨z, rfl⟩

theorem isInt_zero : (0 : Bound K).IsInt := by
  rintro _ _ ⟨⟩; exact ⟨0, by simp⟩

end IsInt

end Bound
