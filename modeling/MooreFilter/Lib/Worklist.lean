/-
  Worklist loops.

  A worklist loop keeps a state `s : σ` and the items `curr : List π` found
  since the last batch.  Each round takes the items found so far as its batch,
  empties `curr` and processes the batch in order; processing an item may
  change the state and push new items.  The loop ends when a round finds `curr`
  empty.  Processing may fail (`none`), and then so does the loop.

  * `run` is the loop, with one unit of fuel a round;
  * `Reached` are the moments of a run: the state, the items found in the
    current round and the rest of the batch;
  * `Reached.inv` is the invariant rule, `exists_run` the termination rule: the
    loop ends if each processed item pays for what it pushes;
  * `foldl_inv` is the invariant rule of a loop over a list.
-/
import Mathlib.Data.List.Induction
import Mathlib.Tactic.Linarith

namespace Worklist

variable {σ π : Type*}

/-- One round: process the items of the batch in order. -/
def batch (process : π → σ × List π → Option (σ × List π)) :
    List π → σ × List π → Option (σ × List π)
  | [], st => some st
  | p :: ps, st => (process p st).bind (batch process ps)

/-- The worklist loop, with one unit of fuel a round. -/
def run (process : π → σ × List π → Option (σ × List π)) : ℕ → σ × List π → Option σ
  | _, (s, []) => some s
  | 0, (_, _ :: _) => none
  | fuel + 1, (s, p :: ps) => (batch process (p :: ps) (s, [])).bind (run process fuel)

/-- The moments of a run from `st₀`: the state, the items found in this round
    and the rest of the batch. -/
inductive Reached (process : π → σ × List π → Option (σ × List π)) (st₀ : σ × List π) :
    σ → List π → List π → Prop
  | start : Reached process st₀ st₀.1 st₀.2 []
  | refill {s curr} : Reached process st₀ s curr [] → Reached process st₀ s [] curr
  | process {s curr p rest s' curr'} : Reached process st₀ s curr (p :: rest) →
      process p (s, curr) = some (s', curr') → Reached process st₀ s' curr' rest

section
variable {process : π → σ × List π → Option (σ × List π)} {st₀ : σ × List π}

theorem run_nil (fuel : ℕ) (s : σ) : run process fuel (s, []) = some s := by
  cases fuel <;> rfl

theorem batch_reached {ps : List π} : ∀ {s : σ} {curr : List π} {st : σ × List π},
    Reached process st₀ s curr ps → batch process ps (s, curr) = some st →
      Reached process st₀ st.1 st.2 [] := by
  induction ps with
  | nil =>
    intro s curr st hr hb
    simp only [batch, Option.some.injEq] at hb
    subst hb; exact hr
  | cons p ps ih =>
    intro s curr st hr hb
    simp only [batch, Option.bind_eq_some_iff] at hb
    obtain ⟨⟨s', curr'⟩, hp, hb⟩ := hb
    exact ih (.process hr hp) hb

theorem run_reached {fuel : ℕ} : ∀ {s : σ} {curr : List π} {s' : σ},
    Reached process st₀ s curr [] → run process fuel (s, curr) = some s' →
      Reached process st₀ s' [] [] := by
  induction fuel with
  | zero =>
    intro s curr s' hr h
    cases curr with
    | nil => simp only [run, Option.some.injEq] at h; subst h; exact hr
    | cons p ps => simp [run] at h
  | succ fuel ih =>
    intro s curr s' hr h
    cases curr with
    | nil => simp only [run, Option.some.injEq] at h; subst h; exact hr
    | cons p ps =>
      simp only [run, Option.bind_eq_some_iff] at h
      obtain ⟨⟨s₁, curr₁⟩, hb, h⟩ := h
      exact ih (batch_reached (.refill hr) hb) h

/-- The result of the loop is the last moment of its run. -/
theorem reached_of_run {fuel : ℕ} {s : σ} (h : run process fuel st₀ = some s) :
    Reached process st₀ s [] [] :=
  run_reached .start h

/-- **Invariant rule.** An invariant of the state and the pending items that
    each processed item preserves holds at every moment. -/
theorem Reached.inv (Inv : σ → List π → Prop) (h₀ : Inv st₀.1 st₀.2)
    (hstep : ∀ s curr p rest s' curr', Reached process st₀ s curr (p :: rest) →
      Inv s (p :: rest ++ curr) → process p (s, curr) = some (s', curr') → Inv s' (rest ++ curr'))
    {s : σ} {curr rest : List π} (hr : Reached process st₀ s curr rest) : Inv s (rest ++ curr) := by
  induction hr with
  | start => exact h₀
  | refill _ ih => simpa using ih
  | process hr hp ih => exact hstep _ _ _ _ _ _ hr ih hp

/-- More fuel does not change the result. -/
theorem run_mono {fuel : ℕ} : ∀ {fuel' : ℕ} {st : σ × List π} {s : σ}, fuel ≤ fuel' →
    run process fuel st = some s → run process fuel' st = some s := by
  induction fuel with
  | zero =>
    rintro fuel' ⟨s₁, curr⟩ s - h
    cases curr with
    | nil => rw [run_nil] at h ⊢; exact h
    | cons p ps => simp [run] at h
  | succ fuel ih =>
    rintro fuel' ⟨s₁, curr⟩ s hle h
    cases curr with
    | nil => rw [run_nil] at h ⊢; exact h
    | cons p ps =>
      obtain ⟨k, rfl⟩ : ∃ k, fuel' = k + 1 := ⟨fuel' - 1, by omega⟩
      simp only [run, Option.bind_eq_some_iff] at h ⊢
      obtain ⟨st, hb, h⟩ := h
      exact ⟨st, hb, ih (by omega) h⟩

/-- If the loop ends, its run goes on from every moment. -/
theorem Reached.exists_run {fuel : ℕ} {s' : σ} (h : run process fuel st₀ = some s') {s : σ}
    {curr rest : List π} (hr : Reached process st₀ s curr rest) :
    ∃ fuel, (batch process rest (s, curr)).bind (run process fuel) = some s' := by
  induction hr with
  | start => exact ⟨fuel, h⟩
  | @refill s curr _ ih =>
    obtain ⟨fuel, h⟩ := ih
    cases curr with
    | nil => exact ⟨fuel, h⟩
    | cons p ps =>
      cases fuel with
      | zero => exact absurd h (by simp [batch, run])
      | succ fuel => exact ⟨fuel, h⟩
  | process _ hp ih =>
    obtain ⟨fuel, h⟩ := ih
    rw [batch, hp, Option.bind_some] at h
    exact ⟨fuel, h⟩

/-- If the loop ends, each item of its run is processed. -/
theorem Reached.exists_process {fuel : ℕ} {s' : σ} (h : run process fuel st₀ = some s') {s : σ}
    {curr : List π} {p : π} {rest : List π} (hr : Reached process st₀ s curr (p :: rest)) :
    ∃ st, process p (s, curr) = some st := by
  obtain ⟨fuel, h⟩ := hr.exists_run h
  obtain ⟨st, hb, -⟩ := Option.bind_eq_some_iff.1 h
  obtain ⟨st', hp, -⟩ := Option.bind_eq_some_iff.1 hb
  exact ⟨st', hp⟩

section
variable (μ : σ → ℕ)
  (hstep : ∀ s curr p rest, Reached process st₀ s curr (p :: rest) →
    ∃ s' curr', process p (s, curr) = some (s', curr') ∧
      μ s' + curr'.length ≤ μ s + curr.length)
include hstep

theorem exists_batch {ps : List π} : ∀ {s : σ} {curr : List π}, Reached process st₀ s curr ps →
    ∃ st, batch process ps (s, curr) = some st ∧ μ st.1 + st.2.length ≤ μ s + curr.length := by
  induction ps with
  | nil => intro s curr _; exact ⟨_, rfl, le_rfl⟩
  | cons p ps ih =>
    intro s curr hr
    obtain ⟨s', curr', hp, hle⟩ := hstep s curr p ps hr
    obtain ⟨st, hb, hle'⟩ := ih (.process hr hp)
    exact ⟨st, by simp [batch, hp, hb], hle'.trans hle⟩

/-- **Termination rule.** If a potential of the state pays for every item
    pushed, the loop ends. -/
theorem exists_run : ∃ fuel s, run process fuel st₀ = some s := by
  -- a round uses up its batch, so the potential and the pending items shrink
  have key : ∀ n s curr, Reached process st₀ s curr [] → μ s + curr.length ≤ n →
      ∃ s', run process n (s, curr) = some s' := by
    intro n
    induction n with
    | zero =>
      intro s curr _ hn
      obtain rfl : curr = [] := List.length_eq_zero_iff.1 (by omega)
      exact ⟨s, rfl⟩
    | succ n ih =>
      intro s curr hr hn
      cases curr with
      | nil => exact ⟨s, rfl⟩
      | cons p ps =>
        obtain ⟨⟨s', curr'⟩, hb, hle⟩ := exists_batch μ hstep (.refill hr)
        simp only [List.length_nil, List.length_cons] at hle hn
        obtain ⟨s'', h⟩ := ih s' curr' (batch_reached (.refill hr) hb) (by omega)
        exact ⟨s'', by simp [run, hb, h]⟩
  exact ⟨_, key _ _ _ .start le_rfl⟩

end

end

/-- The invariant rule for a loop over a list: what the body preserves, at each
    beginning of the list. -/
theorem foldl_inv {α β : Type*} (Inv : β → Prop) {f : β → α → β} {l : List α} {b : β} (h₀ : Inv b)
    (hstep : ∀ l₁ a l₂, l = l₁ ++ a :: l₂ → Inv (l₁.foldl f b) → Inv (f (l₁.foldl f b) a)) :
    Inv (l.foldl f b) := by
  induction l using List.reverseRecOn with
  | nil => exact h₀
  | append_singleton l a ih =>
    rw [List.foldl_append]
    refine hstep l a [] rfl (ih fun l₁ a' l₂ hl => hstep l₁ a' (l₂ ++ [a]) ?_)
    rw [hl, List.append_assoc, List.cons_append]

end Worklist
