/-
  `toAutomatonWithCounter` is a counter product.

  The reachable pairs of a state and a counter are `CounterReach`.  A counter
  product (`CounterProduct`) reads its states as such pairs, by a map `src`, and
  its transitions as those of the first component, with the counter advanced.

  * `Copies src T b` is the invariant of the construction: `src` says which pair
    a new state was made for, and `T` at which positions a new state's transition
    still points to an old state.  `addNewState` (`Copies.addNewState`), the
    assignment of a target (`Copies.setTarget`) and hence the rewriting of a state
    (`Copies.rewriteState`) keep it;
  * `counterProduct_of_run`: the result is a counter product;
    `toAutomatonWithCounter_terminates`: there is one;
  * `toAutomatonWithCounter_faithful`: with distinct initial states the new states
    are in bijection with the reachable pairs, and the runs with the runs.
-/
import MooreFilter.Lib.Related
import MooreFilter.AddCounter
import Mathlib.Data.Finset.Card
import Mathlib.Data.Finset.Prod
import Mathlib.Order.Interval.Finset.Nat

namespace MooreFilter

variable {τ : Type} [Transition τ]

/-! ## The product -/

/-- The pairs of a state and a counter reachable from the initial states with
    the counter `0`. -/
inductive CounterReach (A : Automaton (NDState τ)) (N : ℕ) : Ptr × ℕ → Prop
  | initial {s} : s ∈ A.initialStates → CounterReach A N (s, 0)
  | next {x a t} : CounterReach A N x → t ∈ A.next x.1 a →
      CounterReach A N (lock t, nextCount N x.2)

/-- `B` is a product of `A` with the counter: `src` reads its states as pairs. -/
structure CounterProduct (A : Automaton (NDState τ)) (N : ℕ) (B : AutomatonWithCounter τ)
    (src : Ptr → Ptr × ℕ) : Prop where
  old : ∀ p < A.heap.size, B.heap.cell p = A.heap.cell p
  fresh : ∀ p ∈ B.states, A.heap.size ≤ p ∧ p < B.heap.size
  nodup : B.states.Nodup
  reach : ∀ p ∈ B.states, CounterReach A N (src p)
  surj : ∀ x, CounterReach A N x → ∃ p ∈ B.states, src p = x
  inj : A.initialStates.Nodup → Set.InjOn src {p | p ∈ B.states}
  counter : ∀ p ∈ B.states, B.counter p = (src p).2
  isMatch : ∀ p ∈ B.states, B.isMatch p = A.isMatch (src p).1
  next : ∀ p ∈ B.states, ∀ a,
    List.Forall₂ (fun t t' => ∃ q ∈ B.states,
      src q = (lock t, nextCount N (src p).2) ∧ t' = assign t q) (A.next (src p).1 a) (B.next p a)
  initial_mem : ∀ p ∈ B.initialStates, p ∈ B.states
  initial : (B.initialStates.map src).Perm (A.initialStates.map fun s => (s, 0))

/-- Each transition of the product comes from one of the automaton. -/
theorem CounterProduct.exists_of_mem_next {A : Automaton (NDState τ)} {N : ℕ}
    {B : AutomatonWithCounter τ} {src : Ptr → Ptr × ℕ} (h : CounterProduct A N B src) {p : Ptr}
    (hp : p ∈ B.states) {a : UInt8} {t' : τ} (ht' : t' ∈ B.next p a) :
    ∃ t ∈ A.next (src p).1 a, lock t' ∈ B.states ∧
      src (lock t') = (lock t, nextCount N (src p).2) ∧ t' = assign t (lock t') := by
  obtain ⟨t, ht, q, hq, hsrc, rfl⟩ := Related.exists_left (h.next p hp a) t' ht'
  rw [lock_assign]; exact ⟨t, ht, hq, hsrc, rfl⟩

/-- Each transition of the automaton has one in the product. -/
theorem CounterProduct.exists_mem_next {A : Automaton (NDState τ)} {N : ℕ}
    {B : AutomatonWithCounter τ} {src : Ptr → Ptr × ℕ} (h : CounterProduct A N B src) {p : Ptr}
    (hp : p ∈ B.states) {a : UInt8} {t : τ} (ht : t ∈ A.next (src p).1 a) :
    ∃ q ∈ B.states, src q = (lock t, nextCount N (src p).2) ∧ assign t q ∈ B.next p a := by
  obtain ⟨t', ht', q, hq, hsrc, rfl⟩ := Related.exists_left (h.next p hp a).flip t ht
  exact ⟨q, hq, hsrc, ht'⟩

/-- An initial state of the product comes from one of the automaton, with counter
    `0`. -/
theorem CounterProduct.src_of_mem_initial {A : Automaton (NDState τ)} {N : ℕ}
    {B : AutomatonWithCounter τ} {src : Ptr → Ptr × ℕ} (h : CounterProduct A N B src) {p : Ptr}
    (hp : p ∈ B.initialStates) : (src p).1 ∈ A.initialStates ∧ (src p).2 = 0 := by
  have hmem : src p ∈ A.initialStates.map fun s => (s, 0) :=
    h.initial.mem_iff.1 (List.mem_map.2 ⟨p, hp, rfl⟩)
  obtain ⟨s, hs, he⟩ := List.mem_map.1 hmem
  rw [← he]; exact ⟨hs, rfl⟩

/-- Each initial state of the automaton has one in the product. -/
theorem CounterProduct.exists_mem_initial {A : Automaton (NDState τ)} {N : ℕ}
    {B : AutomatonWithCounter τ} {src : Ptr → Ptr × ℕ} (h : CounterProduct A N B src) {s : Ptr}
    (hs : s ∈ A.initialStates) : ∃ p ∈ B.initialStates, src p = (s, 0) := by
  have hmem : (s, 0) ∈ B.initialStates.map src :=
    h.initial.mem_iff.2 (List.mem_map.2 ⟨s, hs, rfl⟩)
  exact List.mem_map.1 hmem

theorem nextCount_pos (N c : ℕ) : 0 < nextCount N c := by
  unfold nextCount; split_ifs <;> omega

theorem nextCount_le {N c : ℕ} (hN : 0 < N) (hc : c ≤ N) : nextCount N c ≤ N := by
  unfold nextCount; split_ifs <;> omega

section
variable {A : FiniteAutomaton τ} {N : ℕ}

theorem CounterReach.mem {x : Ptr × ℕ} (h : CounterReach A.toAutomaton N x) : x.1 ∈ A.states := by
  induction h with
  | initial hs => exact A.initial_mem _ hs
  | next _ ht ih => exact A.target_mem _ ih _ _ ht

theorem CounterReach.le {x : Ptr × ℕ} (hN : 0 < N) (h : CounterReach A.toAutomaton N x) :
    x.2 ≤ N := by
  induction h with
  | initial => exact Nat.zero_le N
  | next _ _ ih => exact nextCount_le hN ih

/-! ## The invariant -/

/-- The new states of `b` are copies: `src p` is the pair that `p` was made for,
    and `T` are the positions whose target is still the old one. -/
structure Copies (A : FiniteAutomaton τ) (N : ℕ) (src : Ptr → Ptr × ℕ)
    (T : Set (Ptr × UInt8 × ℕ)) (b : CounterBuilder τ) : Prop where
  size_le : A.heap.size ≤ b.heap.size
  old : ∀ p < A.heap.size, b.heap.cell p = A.heap.cell p
  fresh : ∀ p ∈ b.states, A.heap.size ≤ p ∧ p < b.heap.size
  nodup : b.states.Nodup
  reach : ∀ p ∈ b.states, CounterReach A.toAutomaton N (src p)
  counter : ∀ p ∈ b.states, b.counter p = (src p).2
  isMatch : ∀ p ∈ b.states, b.isMatch p = A.isMatch (src p).1
  lookup : ∀ x p, b.toNewState x = some p → p ∈ b.states ∧ src p = x
  found : ∀ p ∈ b.states, 0 < (src p).2 → b.toNewState (src p) = some p
  length : ∀ p ∈ b.states, ∀ a, (b.next p a).length = (A.next (src p).1 a).length
  slot : ∀ p ∈ b.states, ∀ a k t, (A.next (src p).1 a)[k]? = some t →
    ((p, a, k) ∈ T → (b.next p a)[k]? = some t) ∧
    ((p, a, k) ∉ T → ∃ q, b.toNewState (lock t, nextCount N (src p).2) = some q ∧
      (b.next p a)[k]? = some (assign t q))

/-- The initial states are the new states made with the counter `0`. -/
structure InitialCopies (A : FiniteAutomaton τ) (src : Ptr → Ptr × ℕ) (b : CounterBuilder τ) :
    Prop where
  mem : ∀ p ∈ b.initialStates, p ∈ b.states
  zero : ∀ p ∈ b.states, (src p).2 = 0 → p ∈ b.initialStates
  perm : (b.initialStates.map src).Perm (A.initialStates.map fun s => (s, 0))

section
variable {src : Ptr → Ptr × ℕ} {T : Set (Ptr × UInt8 × ℕ)} {b : CounterBuilder τ}

theorem Copies.congr {T' : Set (Ptr × UInt8 × ℕ)} (h : Copies A N src T b)
    (hT : ∀ p ∈ b.states, ∀ i, i.2 < (A.next (src p).1 i.1).length →
      ((p, i) ∈ T ↔ (p, i) ∈ T')) : Copies A N src T' b := by
  refine { h with slot := fun p hp a k t ht => ?_ }
  rw [← hT p hp (a, k) (List.getElem?_eq_some_iff.1 ht).1]
  exact h.slot p hp a k t ht

/-- A new copy hides no other, but one of the same initial pair. -/
theorem update_toNewState {f : Ptr × ℕ → Option Ptr} {x y : Ptr × ℕ} {p q : Ptr}
    (hnew : f x = none ∨ x.2 = 0) (hy : f y = some p) (hne : x.2 = 0 → y ≠ x) :
    Function.update f x (some q) y = some p := by
  have hyx : y ≠ x := by
    rintro rfl
    rcases hnew with hnew | hnew
    · rw [hnew] at hy; exact absurd hy (by simp)
    · exact hne hnew rfl
  rw [Function.update_of_ne hyx, hy]

/-- Making a copy for a reachable pair that has none, or for an initial one. -/
theorem Copies.addNewState (h : Copies A N src T b) {x : Ptr × ℕ} (currStates : List Ptr)
    (hx : CounterReach A.toAutomaton N x) (hnew : b.toNewState x = none ∨ x.2 = 0)
    (hT : x.2 = 0 → ∀ p ∈ b.states, ∀ i, (p, i) ∈ T)
    {q : Ptr} {b' : CounterBuilder τ} {currStates' : List Ptr}
    (he : addNewState x.1 x.2 (b, currStates) = (q, b', currStates')) :
    Copies A N (Function.update src q x) (T ∪ {z | z.1 = q}) b' ∧
      q = b.heap.size ∧ q ∉ b.states ∧ b'.states = b.states ++ [q] ∧
      currStates' = currStates ++ [q] ∧ b'.initialStates = b.initialStates ∧
      b'.toNewState = Function.update b.toNewState x (some q) := by
  simp only [MooreFilter.addNewState, Heap.makeShared, Prod.mk.injEq] at he
  obtain ⟨rfl, rfl, rfl⟩ := he
  have hq : b.heap.size ∉ b.states := fun hp => lt_irrefl _ (h.fresh _ hp).2
  have hold : x.1 < A.heap.size := A.states_lt _ hx.mem
  have hcell : b.heap.cell x.1 = A.heap.cell x.1 := h.old _ hold
  refine ⟨?_, rfl, hq, rfl, rfl, rfl, rfl⟩
  constructor
  case size_le => exact h.size_le.trans (Nat.le_succ _)
  case old =>
    intro p hp
    exact (Function.update_of_ne (hp.trans_le h.size_le).ne _ _).trans (h.old p hp)
  case fresh =>
    refine forall_mem_concat hq (fun p hp _ => ?_) ⟨h.size_le, Nat.lt_succ_self _⟩
    exact ⟨(h.fresh p hp).1, (h.fresh p hp).2.trans (Nat.lt_succ_self _)⟩
  case nodup => exact h.nodup.append (List.nodup_singleton _) (by simpa using hq)
  case reach =>
    refine forall_mem_concat hq (fun p hp hne => ?_) ?_
    · rw [Function.update_of_ne hne]; exact h.reach p hp
    · rw [Function.update_self]; exact hx
  case counter =>
    refine forall_mem_concat hq (fun p hp hne => ?_) ?_
    · simp only [Function.update_of_ne hne]; exact h.counter p hp
    · simp only [Function.update_self]
  case isMatch =>
    refine forall_mem_concat hq (fun p hp hne => ?_) ?_
    · rw [Function.update_of_ne hne, ← h.isMatch p hp]
      simp only [Automaton.isMatch, Function.update_of_ne hne]
    · rw [Function.update_self]
      simp only [Automaton.isMatch, Function.update_self, hcell]
  case lookup =>
    intro y p hy
    rcases eq_or_ne y x with rfl | hyx
    · have : b.heap.size = p := by simpa using hy
      subst this; simp
    · have hy : b.toNewState y = some p := by simpa [hyx] using hy
      obtain ⟨hp, hsrc⟩ := h.lookup y p hy
      have hne : p ≠ b.heap.size := fun e => hq (e ▸ hp)
      exact ⟨List.mem_append_left _ hp, by rw [Function.update_of_ne hne, hsrc]⟩
  case found =>
    refine forall_mem_concat hq (fun p hp hne hpos => ?_) fun _ => by simp
    rw [Function.update_of_ne hne] at hpos ⊢
    refine update_toNewState hnew (h.found p hp hpos) fun hzero hpx => ?_
    rw [hpx] at hpos
    exact hpos.ne' hzero
  case length =>
    refine forall_mem_concat hq (fun p hp hne a => ?_) fun a => ?_
    · rw [Function.update_of_ne hne, ← h.length p hp a]
      simp only [Automaton.next, Function.update_of_ne hne]
    · simp only [Automaton.next, Function.update_self, hcell]
  case slot =>
    refine forall_mem_concat hq (fun p hp hne a k t ht => ?_) fun a k t ht => ?_
    · rw [Function.update_of_ne hne] at ht
      obtain ⟨h₁, h₂⟩ := h.slot p hp a k t ht
      simp only [Automaton.next, Function.update_of_ne hne, Set.mem_union, Set.mem_ofPred_eq,
        hne, or_false, Prod.mk.eta]
      refine ⟨h₁, fun hpT => ?_⟩
      obtain ⟨q, hq, hqt⟩ := h₂ hpT
      exact ⟨q, update_toNewState hnew hq fun hzero => absurd (hT hzero p hp (a, k)) hpT, hqt⟩
    · rw [Function.update_self] at ht
      refine ⟨fun _ => ?_, fun hpT => absurd (Or.inr rfl) hpT⟩
      simp only [Automaton.next, Function.update_self, hcell]; exact ht

/-- Assigning the target of a position that still points to an old state. -/
theorem Copies.setTarget (h : Copies A N src T b) {p : Ptr} (hp : p ∈ b.states)
    {i : UInt8 × ℕ} {t : τ} (ht : (A.next (src p).1 i.1)[i.2]? = some t) {q : Ptr}
    (hT : (p, i) ∈ T) (hq : b.toNewState (lock t, nextCount N (src p).2) = some q) :
    Copies A N src (T \ {(p, i)}) (b.setTarget p i q) := by
  have hcell : ∀ {p'}, p' ≠ p → (b.setTarget p i q).heap.cell p' = b.heap.cell p' :=
    fun hne => Heap.cell_write_of_ne _ _ hne
  have hself : (b.setTarget p i q).heap.cell p = (b.heap.cell p).setTarget i q :=
    Heap.cell_write_self _ _ _
  have hmatch : ∀ p', (b.setTarget p i q).isMatch p' = b.isMatch p' := by
    intro p'
    rcases eq_or_ne p' p with rfl | hne
    · simp only [Automaton.isMatch, hself]; rfl
    · simp only [Automaton.isMatch, hcell hne]
  have hnext : ∀ p' a k, ((b.setTarget p i q).next p' a)[k]? =
      (b.next p' a)[k]?.map fun t => if (p', a, k) = (p, i) then assign t q else t := by
    intro p' a k
    rcases eq_or_ne p' p with rfl | hne
    · simp only [Automaton.next, hself, NDState.getElem?_next_setTarget, Prod.mk.injEq, true_and]
    · simp only [Automaton.next, hcell hne, Prod.mk.injEq, hne, false_and, if_false,
        Option.map_id']
  refine { h with
    old := fun p' hp' => ?_, isMatch := fun p' hp' => ?_, length := fun p' hp' a => ?_,
    slot := fun p' hp' a k t' ht' => ?_ }
  · rw [hcell (hp'.trans_le (h.fresh p hp).1).ne]; exact h.old p' hp'
  · rw [hmatch]; exact h.isMatch p' hp'
  · rw [← h.length p' hp' a]
    rcases eq_or_ne p' p with rfl | hne
    · simp only [Automaton.next, hself, NDState.length_next_setTarget]
    · simp only [Automaton.next, hcell hne]
  · obtain ⟨h₁, h₂⟩ := h.slot p' hp' a k t' ht'
    rw [hnext]
    rcases eq_or_ne (p', a, k) (p, i) with he | hne
    · obtain ⟨rfl, rfl⟩ := Prod.mk.inj he
      obtain rfl : t' = t := Option.some.inj (ht'.symm.trans ht)
      refine ⟨fun hd => absurd rfl hd.2, fun _ => ⟨q, hq, ?_⟩⟩
      rw [h₁ hT, Option.map_some, if_pos rfl]
    · simp only [hne, if_false, Option.map_id', Set.mem_sdiff, Set.mem_singleton_iff,
        not_false_eq_true, and_true]
      exact ⟨h₁, h₂⟩

end

/-! ## The steps of the construction -/

/-- The pairs that could still get a copy. -/
def unmade (A : FiniteAutomaton τ) (N : ℕ) (b : CounterBuilder τ) : Finset (Ptr × ℕ) :=
  (A.states.toFinset ×ˢ Finset.Icc 1 N).filter fun x => b.toNewState x = none

/-- From `b` to `b'` the states `new` were made, with positive counters. -/
structure Grows (A : FiniteAutomaton τ) (N : ℕ) (src : Ptr → Ptr × ℕ) (b : CounterBuilder τ)
    (new : List Ptr) (src' : Ptr → Ptr × ℕ) (b' : CounterBuilder τ) : Prop where
  states : b'.states = b.states ++ new
  src_eq : ∀ p ∈ b.states, src' p = src p
  pos : ∀ p ∈ new, 0 < (src' p).2
  initialStates : b'.initialStates = b.initialStates
  unmade_le : (unmade A N b').card + new.length ≤ (unmade A N b).card

section
variable {src src' src'' : Ptr → Ptr × ℕ} {T : Set (Ptr × UInt8 × ℕ)}
  {b b' b'' : CounterBuilder τ} {new new' : List Ptr}

theorem Grows.refl : Grows A N src b [] src b :=
  ⟨by simp, fun _ _ => rfl, by simp, rfl, by simp⟩

theorem Grows.mono (h : Grows A N src b new src' b') {p : Ptr} (hp : p ∈ b.states) :
    p ∈ b'.states := by rw [h.states]; exact List.mem_append_left _ hp

theorem Grows.trans (h : Grows A N src b new src' b') (h' : Grows A N src' b' new' src'' b'') :
    Grows A N src b (new ++ new') src'' b'' where
  states := by rw [h'.states, h.states, List.append_assoc]
  src_eq p hp := by rw [h'.src_eq p (h.mono hp), h.src_eq p hp]
  pos p hp := by
    rcases List.mem_append.1 hp with hp | hp
    · have : p ∈ b'.states := by rw [h.states]; exact List.mem_append_right _ hp
      rw [h'.src_eq p this]; exact h.pos p hp
    · exact h'.pos p hp
  initialStates := h'.initialStates.trans h.initialStates
  unmade_le := by
    have := h.unmade_le; have := h'.unmade_le
    rw [List.length_append]; omega

theorem card_unmade_update {x : Ptr × ℕ} {q : Ptr} (hx : x.1 ∈ A.states) (hpos : 0 < x.2)
    (hle : x.2 ≤ N) (hnew : b.toNewState x = none)
    (hb : b'.toNewState = Function.update b.toNewState x (some q)) :
    (unmade A N b').card + 1 ≤ (unmade A N b).card := by
  have hmem : x ∈ unmade A N b := by
    simp only [unmade, Finset.mem_filter, Finset.mem_product, List.mem_toFinset, Finset.mem_Icc]
    exact ⟨⟨hx, hpos, hle⟩, hnew⟩
  have hsub : unmade A N b' ⊆ (unmade A N b).erase x := by
    intro y hy
    simp only [unmade, Finset.mem_filter, hb] at hy
    have hyx : y ≠ x := by rintro rfl; simp at hy
    rw [Function.update_of_ne hyx] at hy
    exact Finset.mem_erase.2 ⟨hyx, Finset.mem_filter.2 hy⟩
  calc (unmade A N b').card + 1 ≤ ((unmade A N b).erase x).card + 1 :=
        Nat.add_le_add_right (Finset.card_le_card hsub) 1
    _ = (unmade A N b).card := Finset.card_erase_add_one hmem

/-- The body of the inner loops, at a position that still points to an old
    state. -/
theorem Copies.rewriteTarget (hN : 0 < N) (h : Copies A N src T b) {p : Ptr} (hp : p ∈ b.states)
    {i : UInt8 × ℕ} (hi : i.2 < (A.next (src p).1 i.1).length) (hT : (p, i) ∈ T)
    (currStates : List Ptr) {count' : ℕ} (hc : count' = nextCount N (src p).2) :
    ∃ src' b' new, MooreFilter.rewriteTarget p count' (b, currStates) i =
        (b', currStates ++ new) ∧
      Copies A N src' (T \ {(p, i)} ∪ {z | z.1 ∈ new}) b' ∧ Grows A N src b new src' b' := by
  obtain ⟨t, ht⟩ : ∃ t, (A.next (src p).1 i.1)[i.2]? = some t := ⟨_, List.getElem?_eq_getElem hi⟩
  have hget : (b.next p i.1)[i.2]? = some t := (h.slot p hp _ _ t ht).1 hT
  have hreach : CounterReach A.toAutomaton N (lock t, count') := by
    rw [hc]; exact .next (h.reach p hp) (List.mem_of_getElem? ht)
  simp only [MooreFilter.rewriteTarget, hget]
  cases hl : b.toNewState (lock t, count') with
  | some q =>
    refine ⟨src, b.setTarget p i q, [], by simp, ?_, ?_⟩
    · simpa using h.setTarget hp ht hT (hc ▸ hl)
    · exact ⟨by simp [CounterBuilder.setTarget], fun _ _ => rfl, by simp, rfl, le_rfl⟩
  | none =>
    have hpos : count' ≠ 0 := by rw [hc]; exact (nextCount_pos _ _).ne'
    obtain ⟨q, b₁, curr₁, he⟩ : ∃ q b₁ curr₁,
      MooreFilter.addNewState (lock t) count' (b, currStates) = (q, b₁, curr₁) := ⟨_, _, _, rfl⟩
    obtain ⟨hC, -, hq, hst, rfl, hinit, hlk⟩ := h.addNewState (x := (lock t, count')) currStates
      hreach (Or.inl hl) (fun h0 => absurd h0 hpos) he
    have hpq : p ≠ q := fun e => hq (e ▸ hp)
    have hp₁ : p ∈ b₁.states := by rw [hst]; exact List.mem_append_left _ hp
    have hsrc : Function.update src q (lock t, count') p = src p := Function.update_of_ne hpq _ _
    have hC' := hC.setTarget hp₁ (i := i) (t := t) (q := q) (by rw [hsrc]; exact ht) (Or.inl hT)
      (by rw [hlk, hsrc, ← hc, Function.update_self])
    refine ⟨_, b₁.setTarget p i q, [q], by simp only [he], hC'.congr ?_, ?_⟩
    · intro p' _ j _
      simp only [Set.mem_sdiff, Set.mem_union, Set.mem_singleton_iff, Set.mem_ofPred_eq,
        List.mem_singleton, Prod.mk.injEq]
      constructor
      · rintro ⟨hz | hz, hne⟩
        exacts [Or.inl ⟨hz, hne⟩, Or.inr hz]
      · rintro (⟨hz, hne⟩ | rfl)
        exacts [⟨Or.inl hz, hne⟩, ⟨Or.inr rfl, fun e => hpq e.1.symm⟩]
    · refine ⟨hst, fun p' hp' => Function.update_of_ne ?_ _ _, ?_, hinit, ?_⟩
      · rintro rfl; exact hq hp'
      · simp only [List.mem_singleton, forall_eq, Function.update_self]; omega
      · exact card_unmade_update hreach.mem (Nat.pos_of_ne_zero hpos)
          (hreach.le hN) hl hlk

/-- The inner loops, over positions `l` that still point to old states. -/
theorem foldl_rewriteTarget (hN : 0 < N) {p : Ptr} {count' : ℕ} {l : List (UInt8 × ℕ)} :
    ∀ {src : Ptr → Ptr × ℕ} {T : Set (Ptr × UInt8 × ℕ)} {b : CounterBuilder τ}
      (currStates : List Ptr), Copies A N src T b → p ∈ b.states → l.Nodup →
      (∀ i ∈ l, i.2 < (A.next (src p).1 i.1).length ∧ (p, i) ∈ T) →
      count' = nextCount N (src p).2 →
      ∃ src' b' new, l.foldl (MooreFilter.rewriteTarget p count') (b, currStates) =
          (b', currStates ++ new) ∧
        Copies A N src' (T \ {z | z.1 = p ∧ z.2 ∈ l} ∪ {z | z.1 ∈ new}) b' ∧
        Grows A N src b new src' b' := by
  induction l with
  | nil =>
    intro src T b currStates h hp _ _ _
    exact ⟨src, b, [], by simp, by simpa using h, .refl⟩
  | cons i l ih =>
    intro src T b currStates h hp hnd hl hc
    obtain ⟨hil, hnd⟩ := List.nodup_cons.1 hnd
    obtain ⟨src₁, b₁, new₁, he₁, h₁, hg₁⟩ :=
      h.rewriteTarget hN hp (hl i (by simp)).1 (hl i (by simp)).2 currStates hc
    have hsrc : src₁ p = src p := hg₁.src_eq p hp
    obtain ⟨src₂, b₂, new₂, he₂, h₂, hg₂⟩ := ih (currStates ++ new₁) h₁ (hg₁.mono hp) hnd
      (fun j hj => by
        rw [hsrc]
        refine ⟨(hl j (by simp [hj])).1, Or.inl ⟨(hl j (by simp [hj])).2, ?_⟩⟩
        simp only [Set.mem_singleton_iff, Prod.mk.injEq, true_and]
        rintro rfl; exact hil hj) (by rw [hsrc, hc])
    refine ⟨src₂, b₂, new₁ ++ new₂, ?_, h₂.congr ?_, hg₁.trans hg₂⟩
    · rw [List.foldl_cons, he₁, he₂, List.append_assoc]
    · -- a state made in the first step is not `p`
      have hnew : p ∉ new₁ := fun hpn => by
        have := h₁.nodup
        rw [hg₁.states] at this
        exact List.disjoint_of_nodup_append this hp hpn
      intro p' _ j _
      simp only [Set.mem_sdiff, Set.mem_union, Set.mem_singleton_iff, Set.mem_ofPred_eq,
        Prod.mk.injEq, List.mem_cons, List.mem_append]
      constructor
      · rintro (⟨⟨hz, hne⟩ | hz, hne'⟩ | hz)
        · exact Or.inl ⟨hz, by tauto⟩
        · exact Or.inr (Or.inl hz)
        · exact Or.inr (Or.inr hz)
      · rintro (⟨hz, hne⟩ | hz | hz)
        · exact Or.inl ⟨Or.inl ⟨hz, by tauto⟩, by tauto⟩
        · exact Or.inl ⟨Or.inr hz, fun e => hnew (e.1 ▸ hz)⟩
        · exact Or.inr hz

/-- The moments of the construction: the pending states are the copies whose
    transitions have not been rewritten. -/
def Copying (A : FiniteAutomaton τ) (N : ℕ) (b : CounterBuilder τ) (pend : List Ptr) : Prop :=
  ∃ src, Copies A N src {z | z.1 ∈ pend} b ∧ InitialCopies A src b ∧ pend.Nodup ∧
    ∀ p ∈ pend, p ∈ b.states

theorem InitialCopies.grows (h : InitialCopies A src b) (hg : Grows A N src b new src' b') :
    InitialCopies A src' b' where
  mem p hp := hg.mono (h.mem p (hg.initialStates ▸ hp))
  zero p hp h0 := by
    rw [hg.initialStates]
    rw [hg.states] at hp
    rcases List.mem_append.1 hp with hp | hp
    · exact h.zero p hp (by rw [← hg.src_eq p hp]; exact h0)
    · exact absurd h0 (hg.pos p hp).ne'
  perm := by
    rw [hg.initialStates, List.map_congr_left fun p hp => hg.src_eq p (h.mem p hp)]
    exact h.perm

/-- **The body of the worklist loop** keeps the copies, and pays for the states
    that it makes. -/
theorem Copying.rewriteState (hN : 0 < N) {b : CounterBuilder τ} {p : Ptr}
    {rest currStates : List Ptr} (h : Copying A N b (p :: rest ++ currStates)) :
    ∃ b' currStates', MooreFilter.rewriteState N p (b, currStates) = some (b', currStates') ∧
      Copying A N b' (rest ++ currStates') ∧
      (unmade A N b').card + currStates'.length ≤ (unmade A N b).card + currStates.length := by
  obtain ⟨src, h, hinit, hnd, hmem⟩ := h
  have hp : p ∈ b.states := hmem p (by simp)
  have hslots : ∀ i, i ∈ (b.heap.cell p).slots ↔ i.2 < (A.next (src p).1 i.1).length :=
    fun i => by rw [NDState.mem_slots, ← h.length p hp i.1]; rfl
  obtain ⟨src', b', new, he, h', hg⟩ := foldl_rewriteTarget hN currStates h hp
    (NDState.nodup_slots _) (fun i hi => ⟨(hslots i).1 hi, by simp⟩) rfl
  rw [← h.counter p hp] at he
  refine ⟨b', currStates ++ new, by rw [MooreFilter.rewriteState, he], ?_, ?_⟩
  · have hnd' := List.nodup_cons.1 hnd
    have hdisj : ∀ q ∈ rest ++ currStates, q ∉ new := fun q hq hn => by
      have := h'.nodup
      rw [hg.states] at this
      exact List.disjoint_of_nodup_append this (hmem q (List.mem_cons_of_mem p hq)) hn
    refine ⟨src', h'.congr ?_, hinit.grows hg, ?_, ?_⟩
    · intro q hq i hi
      have hi' : q = p → i ∈ (b.heap.cell p).slots := by
        rintro rfl; rw [hslots]; rw [hg.src_eq q hp] at hi; exact hi
      simp only [Set.mem_union, Set.mem_sdiff, Set.mem_ofPred_eq, List.cons_append, List.mem_cons,
        List.mem_append]
      constructor
      · rintro (⟨rfl | hz | hz, hne⟩ | hz)
        · exact absurd ⟨rfl, hi' rfl⟩ hne
        · exact Or.inl hz
        · exact Or.inr (Or.inl hz)
        · exact Or.inr (Or.inr hz)
      · have hne : q ∈ rest ∨ q ∈ currStates → ¬ (q = p ∧ i ∈ (b.heap.cell p).slots) := by
          rintro hq ⟨rfl, -⟩; exact hnd'.1 (by simpa using hq)
        rintro (hz | hz | hz)
        · exact Or.inl ⟨Or.inr (Or.inl hz), hne (Or.inl hz)⟩
        · exact Or.inl ⟨Or.inr (Or.inr hz), hne (Or.inr hz)⟩
        · exact Or.inr hz
    · have hnn : new.Nodup := by
        have := h'.nodup
        rw [hg.states] at this
        exact (List.nodup_append.1 this).2.1
      rw [← List.append_assoc]
      exact hnd'.2.append hnn fun q hq hn => hdisj q hq hn
    · intro q hq
      rw [← List.append_assoc] at hq
      rcases List.mem_append.1 hq with hq | hq
      · exact hg.mono (hmem q (List.mem_cons_of_mem p hq))
      · rw [hg.states]; exact List.mem_append_right _ hq
  · have := hg.unmade_le
    rw [List.length_append]; omega

end

/-! ## The construction -/

/-- The initial states are copied one after the other. -/
theorem addInitialStates_copies (l : List Ptr) (hl : ∀ s ∈ l, s ∈ A.initialStates) :
    ∃ src, Copies A N src Set.univ (addInitialStates A.heap l).1 ∧
      (addInitialStates A.heap l).1.initialStates =
        (addInitialStates A.heap l).1.states ∧
      (addInitialStates A.heap l).2 =
        (addInitialStates A.heap l).1.states ∧
      (addInitialStates A.heap l).1.states.map src =
        l.map fun s => (s, 0) := by
  induction l using List.reverseRecOn with
  | nil =>
    refine ⟨fun _ => (0, 0), ?_, rfl, rfl, rfl⟩
    constructor <;> simp [addInitialStates]
  | append_singleton l s ih =>
    obtain ⟨src, h, hin, hcur, hsrc⟩ := ih fun s' hs' => hl s' (by simp [hs'])
    have hstep : addInitialStates A.heap (l ++ [s]) =
        (fun st : CounterBuilder τ × List Ptr =>
          ({ (addNewState s 0 st).2.1 with
              initialStates := (addNewState s 0 st).2.1.initialStates ++ [(addNewState s 0 st).1] },
            (addNewState s 0 st).2.2))
          (addInitialStates A.heap l) := by
      simp [addInitialStates]
    rw [hstep]
    generalize addInitialStates A.heap l = st at h hin hcur hsrc
    obtain ⟨b, curr⟩ := st
    obtain ⟨q, b', curr', he⟩ : ∃ q b' curr', addNewState s 0 (b, curr) = (q, b', curr') :=
      ⟨_, _, _, rfl⟩
    obtain ⟨h', -, hq, hst, hcur', hin', -⟩ := h.addNewState (x := (s, 0)) curr
      (.initial (hl s (by simp))) (Or.inr rfl) (fun _ _ _ _ => trivial) he
    simp only [he]
    simp only at hin hcur hsrc
    refine ⟨Function.update src q (s, 0), ?_, ?_, ?_, ?_⟩
    · rw [Set.univ_union] at h'
      exact { h' with }
    · rw [hin', hst, hin]
    · rw [hcur', hst, hcur]
    · rw [hst, List.map_append, List.map_append, ← hsrc]
      congr 1
      · refine List.map_congr_left fun p hp => Function.update_of_ne ?_ _ _
        rintro rfl; exact hq hp
      · simp

theorem counterStart_copying (addr : Ptr ↪ ℕ) :
    Copying A N (counterStart addr A.toAutomaton).1 (counterStart addr A.toAutomaton).2 := by
  obtain ⟨src, h, hin, hcur, hsrc⟩ :=
    addInitialStates_copies (A := A) (N := N) A.initialStates fun _ h => h
  refine ⟨src, ?_, ⟨?_, ?_, ?_⟩, ?_, ?_⟩
  · refine { h.congr fun p hp i _ => ?_ with }
    simp only [Set.mem_univ, true_iff]
    change p ∈ (addInitialStates A.heap A.initialStates).2
    rw [hcur]; exact hp
  · intro p hp
    have hp : p ∈ (addInitialStates A.heap A.initialStates).1.initialStates :=
      Sorting.mem_sortBy.1 hp
    rw [hin] at hp; exact hp
  · intro p hp _
    refine Sorting.mem_sortBy.2 ?_
    change p ∈ (addInitialStates A.heap A.initialStates).1.initialStates
    rw [hin]; exact hp
  · have hperm := (Sorting.perm_sortBy addr
      (addInitialStates A.heap A.initialStates).1.initialStates).map src
    rw [← hsrc, ← hin]; exact hperm
  · change (addInitialStates A.heap A.initialStates).2.Nodup
    rw [hcur]; exact h.nodup
  · intro p hp
    change p ∈ (addInitialStates A.heap A.initialStates).1.states
    rw [← hcur]; exact hp

/-- When no copy is pending, the result is a product. -/
theorem Copying.counterProduct {b : CounterBuilder τ} (h : Copying A N b []) :
    ∃ src, CounterProduct A.toAutomaton N b.toAutomatonWithCounter src := by
  obtain ⟨src, h, hinit, -, -⟩ := h
  have hnext : ∀ p ∈ b.states, ∀ (a : UInt8) (k : ℕ) (t : τ),
      (A.next (src p).1 a)[k]? = some t →
      ∃ q ∈ b.states, src q = (lock t, nextCount N (src p).2) ∧
        (b.next p a)[k]? = some (assign t q) := by
    intro p hp a k t ht
    obtain ⟨q, hq, hqt⟩ := (h.slot p hp a k t ht).2 (by simp)
    exact ⟨q, (h.lookup _ _ hq).1, (h.lookup _ _ hq).2, hqt⟩
  refine ⟨src, ?_⟩
  refine ⟨h.old, h.fresh, h.nodup, h.reach, ?_, ?_, h.counter, h.isMatch, ?_, hinit.mem,
    hinit.perm⟩
  · intro x hx
    induction hx with
    | @initial s hs =>
      have : (s, 0) ∈ b.initialStates.map src :=
        hinit.perm.mem_iff.2 (List.mem_map.2 ⟨s, hs, rfl⟩)
      obtain ⟨p, hp, hsrc⟩ := List.mem_map.1 this
      exact ⟨p, hinit.mem p hp, hsrc⟩
    | next _ ht ih =>
      obtain ⟨p, hp, rfl⟩ := ih
      obtain ⟨k, hk⟩ := List.getElem?_of_mem ht
      obtain ⟨q, hq, hsrc, -⟩ := hnext p hp _ k _ hk
      exact ⟨q, hq, hsrc⟩
  · intro hnd p hp p' hp' he
    rcases Nat.eq_zero_or_pos (src p).2 with h0 | hpos
    · have hmap : (b.initialStates.map src).Nodup :=
        hinit.perm.nodup_iff.2 (hnd.map fun _ _ h => (Prod.mk.inj h).1)
      exact List.inj_on_of_nodup_map hmap (hinit.zero p hp h0) (hinit.zero p' hp' (he ▸ h0)) he
    · have h₁ := h.found p hp hpos
      have h₂ := h.found p' hp' (he ▸ hpos)
      rw [he, h₂] at h₁
      exact (Option.some.inj h₁).symm
  · intro p hp a
    refine List.forall₂_iff_get.2 ⟨(h.length p hp a).symm, fun k h₁ h₂ => ?_⟩
    obtain ⟨q, hq, hsrc, hqt⟩ := hnext p hp a k _ (List.getElem?_eq_getElem h₁)
    rw [List.getElem?_eq_getElem h₂] at hqt
    exact ⟨q, hq, hsrc, Option.some.inj hqt⟩

/-- The invariant at every moment of the construction. -/
theorem copying_of_reached (hN : 0 < N) {addr : Ptr ↪ ℕ} {b : CounterBuilder τ}
    {curr rest : List Ptr}
    (hr : Worklist.Reached (rewriteState N) (counterStart addr A.toAutomaton) b curr rest) :
    Copying A N b (rest ++ curr) := by
  refine hr.inv (Copying A N) (counterStart_copying addr) fun b curr p rest b' curr' _ hC he => ?_
  obtain ⟨b₁, curr₁, he₁, hC₁, -⟩ := hC.rewriteState hN
  rw [he₁] at he
  obtain ⟨rfl, rfl⟩ := Prod.mk.inj (Option.some.inj he)
  exact hC₁

/-- **The result is a counter product.** -/
theorem counterProduct_of_run (hN : 0 < N) {addr : Ptr ↪ ℕ} {fuel : ℕ} {B : AutomatonWithCounter τ}
    (h : toAutomatonWithCounter addr N A.toAutomaton fuel = some B) :
    ∃ src, CounterProduct A.toAutomaton N B src := by
  obtain ⟨b, hrun, rfl⟩ := Option.map_eq_some_iff.1 h
  exact (copying_of_reached hN (Worklist.reached_of_run hrun)).counterProduct

/-- **The construction terminates.** -/
theorem toAutomatonWithCounter_terminates (hN : 0 < N) (addr : Ptr ↪ ℕ) :
    ∃ fuel B, toAutomatonWithCounter addr N A.toAutomaton fuel = some B := by
  obtain ⟨fuel, b, h⟩ : ∃ fuel b,
      Worklist.run (rewriteState N) fuel (counterStart addr A.toAutomaton) = some b := by
    refine Worklist.exists_run (fun b => (unmade A N b).card) fun b curr p rest hr => ?_
    obtain ⟨b', curr', he, -, hle⟩ := (copying_of_reached hN hr).rewriteState hN
    exact ⟨b', curr', he, hle⟩
  exact ⟨fuel, b.toAutomatonWithCounter, by rw [toAutomatonWithCounter, h]; rfl⟩

/-! ## The bijections -/

omit [Transition τ] in
theorem iterate_nextCount (N k : ℕ) (hN : 0 < N) : (nextCount N)^[k + 1] 0 = k % N + 1 := by
  induction k with
  | zero =>
    have h0 : 0 ≠ N := by omega
    simp [nextCount, h0]
  | succ k ih =>
    rw [Function.iterate_succ_apply', ih, nextCount]
    have hlt := Nat.mod_lt k hN
    split_ifs with h
    · rw [show k + 1 = (k % N + 1) + N * (k / N) by have := Nat.mod_add_div k N; omega, h]
      simp
    · rw [show k + 1 = (k % N + 1) + N * (k / N) by have := Nat.mod_add_div k N; omega,
        Nat.add_mul_mod_self_left, Nat.mod_eq_of_lt (a := k % N + 1) (by omega)]

end

/-- The state that a path leads to; a path names each transition by its letter
    and its index. -/
def Automaton.follow (A : Automaton (NDState τ)) : Ptr → List (UInt8 × ℕ) → Option Ptr
  | s, [] => some s
  | s, i :: r => (A.next s i.1)[i.2]?.bind fun t => A.follow (lock t) r

/-- The runs of an automaton: an initial state and a path from it. -/
def Automaton.runs (A : Automaton (NDState τ)) : Set (Ptr × List (UInt8 × ℕ)) :=
  {r | r.1 ∈ A.initialStates ∧ (A.follow r.1 r.2).isSome = true}

/-- `B` is the counter product of `A` whose state for a reachable pair `x` is
    `copy x`. -/
structure FaithfulProduct (A : Automaton (NDState τ)) (N : ℕ) (B : AutomatonWithCounter τ)
    (copy : Ptr × ℕ → Ptr) : Prop where
  old : ∀ p < A.heap.size, B.heap.cell p = A.heap.cell p
  fresh : ∀ p ∈ B.states, A.heap.size ≤ p
  nodup : B.states.Nodup
  bijOn : Set.BijOn copy {x | CounterReach A N x} {p | p ∈ B.states}
  initial : B.initialStates.Perm (A.initialStates.map fun s => copy (s, 0))
  isMatch : ∀ x, CounterReach A N x → B.isMatch (copy x) = A.isMatch x.1
  counter : ∀ x, CounterReach A N x → B.counter (copy x) = x.2
  next : ∀ x, CounterReach A N x → ∀ a,
    B.next (copy x) a = (A.next x.1 a).map fun t => assign t (copy (lock t, nextCount N x.2))
  runs : Set.BijOn (fun r => (copy (r.1, 0), r.2)) A.runs B.runs
  follow : ∀ s ∈ A.initialStates, ∀ r q, A.follow s r = some q →
    ∃ c, B.follow (copy (s, 0)) r = some (copy (q, c)) ∧ B.counter (copy (q, c)) = c ∧
      (r ≠ [] → c = (r.length - 1) % N + 1)

section
variable {A : FiniteAutomaton τ} {N : ℕ} {B : AutomatonWithCounter τ} {src : Ptr → Ptr × ℕ}

/-- A path of the original automaton is one of the product, in the copies. -/
theorem follow_copy {copy : Ptr × ℕ → Ptr}
    (hnext : ∀ x, CounterReach A.toAutomaton N x → ∀ a, B.next (copy x) a =
      (A.next x.1 a).map fun t => assign t (copy (lock t, nextCount N x.2)))
    (r : List (UInt8 × ℕ)) :
    ∀ {x}, CounterReach A.toAutomaton N x → B.follow (copy x) r =
      (A.follow x.1 r).map fun q => copy (q, (nextCount N)^[r.length] x.2) := by
  induction r with
  | nil => intro x _; rfl
  | cons i r ih =>
    intro x hx
    simp only [Automaton.follow, hnext x hx, List.getElem?_map]
    cases ht : (A.next x.1 i.1)[i.2]? with
    | none => rfl
    | some t =>
      simp only [Option.map_some, Option.bind_some, lock_assign, List.length_cons,
        Function.iterate_succ_apply]
      exact ih (.next hx (List.mem_of_getElem? ht))

theorem reach_follow (r : List (UInt8 × ℕ)) : ∀ {x q}, CounterReach A.toAutomaton N x →
    A.follow x.1 r = some q → CounterReach A.toAutomaton N (q, (nextCount N)^[r.length] x.2) := by
  induction r with
  | nil => intro x q hx h; obtain rfl := Option.some.inj h; exact hx
  | cons i r ih =>
    intro x q hx h
    simp only [Automaton.follow, Option.bind_eq_some_iff] at h
    obtain ⟨t, ht, h⟩ := h
    exact ih (.next hx (List.mem_of_getElem? ht)) h

/-- With distinct initial states a counter product is faithful. -/
theorem CounterProduct.faithful (h : CounterProduct A.toAutomaton N B src) (hN : 0 < N)
    (hnd : A.initialStates.Nodup) : ∃ copy, FaithfulProduct A.toAutomaton N B copy := by
  classical
  choose! copy hcopy using h.surj
  have hinj := h.inj hnd
  have hmem : ∀ x, CounterReach A.toAutomaton N x → copy x ∈ B.states := fun x hx => (hcopy x hx).1
  have hsrc : ∀ x, CounterReach A.toAutomaton N x → src (copy x) = x := fun x hx => (hcopy x hx).2
  have hleft : ∀ p ∈ B.states, copy (src p) = p := fun p hp =>
    hinj (hmem _ (h.reach p hp)) hp (hsrc _ (h.reach p hp))
  have hnext : ∀ x, CounterReach A.toAutomaton N x → ∀ a, B.next (copy x) a =
      (A.next x.1 a).map fun t => assign t (copy (lock t, nextCount N x.2)) := by
    intro x hx a
    have hF := h.next (copy x) (hmem x hx) a
    rw [hsrc x hx] at hF
    refine (List.forall₂_eq_eq_eq ▸ List.forall₂_map_left_iff.2 (hF.imp ?_)).symm
    rintro t t' ⟨q, hq, hqs, rfl⟩
    rw [← hqs, hleft q hq]
  have hinit : B.initialStates.Perm (A.initialStates.map fun s => copy (s, 0)) := by
    have hmap : (B.initialStates.map src).map copy = B.initialStates := by
      rw [List.map_map]
      exact (List.map_congr_left fun p hp => hleft p (h.initial_mem p hp)).trans (List.map_id' _)
    have hperm := h.initial.map copy
    rwa [hmap, List.map_map] at hperm
  refine ⟨copy, h.old, fun p hp => (h.fresh p hp).1, h.nodup, ⟨hmem, ?_, ?_⟩, hinit, ?_, ?_, hnext,
    ⟨?_, ?_, ?_⟩, ?_⟩
  · intro x hx y hy he
    rw [← hsrc x hx, ← hsrc y hy, he]
  · intro p hp
    exact ⟨src p, h.reach p hp, hleft p hp⟩
  · intro x hx
    rw [h.isMatch _ (hmem x hx), hsrc x hx]
  · intro x hx
    rw [h.counter _ (hmem x hx), hsrc x hx]
  · rintro ⟨s, r⟩ ⟨hs, hr⟩
    refine ⟨hinit.mem_iff.2 (List.mem_map.2 ⟨s, hs, rfl⟩), ?_⟩
    rw [follow_copy hnext r (.initial hs)]; simpa using hr
  · rintro ⟨s, r⟩ ⟨hs, -⟩ ⟨s', r'⟩ ⟨hs', -⟩ he
    obtain ⟨he, rfl⟩ := Prod.mk.inj he
    have := (hsrc _ (.initial hs)).symm.trans ((congrArg src he).trans (hsrc _ (.initial hs')))
    exact Prod.ext (Prod.mk.inj this).1 rfl
  · rintro ⟨p, r⟩ ⟨hp, hr⟩
    obtain ⟨s, hs, rfl⟩ := List.mem_map.1 (hinit.mem_iff.1 hp)
    rw [follow_copy hnext r (.initial hs)] at hr
    exact ⟨(s, r), ⟨hs, by simpa using hr⟩, rfl⟩
  · intro s hs r q hq
    have hx : CounterReach A.toAutomaton N (s, 0) := .initial hs
    refine ⟨(nextCount N)^[r.length] 0, ?_, ?_, ?_⟩
    · rw [follow_copy hnext r hx, hq]; rfl
    · have hq' := reach_follow r hx hq
      rw [h.counter _ (hmem _ hq'), hsrc _ hq']
    · intro hr
      obtain ⟨k, hk⟩ : ∃ k, r.length = k + 1 :=
        ⟨r.length - 1, by have := List.length_pos_iff.2 hr; omega⟩
      rw [hk, iterate_nextCount N k hN]; rfl

end

/-- **Faithful counter product.** The construction terminates, and its result is
    the product of the automaton with the counter: states, transitions and runs
    are in bijection with the reachable pairs, their transitions and the runs of
    the original automaton, which is left unchanged. -/
theorem toAutomatonWithCounter_faithful (A : FiniteAutomaton τ) (N : ℕ) (hN : 0 < N)
    (hnd : A.initialStates.Nodup) (addr : Ptr ↪ ℕ) :
    (∃ fuel B, toAutomatonWithCounter addr N A.toAutomaton fuel = some B) ∧
    ∀ fuel B, toAutomatonWithCounter addr N A.toAutomaton fuel = some B →
      ∃ copy, FaithfulProduct A.toAutomaton N B copy := by
  refine ⟨toAutomatonWithCounter_terminates hN addr, fun fuel B h => ?_⟩
  obtain ⟨src, hP⟩ := counterProduct_of_run hN h
  exact hP.faithful hN hnd

/-- The product of the loop on `a` with a counter up to `2`. -/
theorem toAutomatonWithCounter_faithful_loop :
    ∃ fuel B copy, toAutomatonWithCounter (Function.Embedding.refl ℕ) 2
        (FiniteAutomaton.loop 97 [(0 : NFATransition)] (by decide)).toAutomaton fuel = some B ∧
      FaithfulProduct (FiniteAutomaton.loop 97 [(0 : NFATransition)] (by decide)).toAutomaton 2 B
        copy := by
  obtain ⟨⟨fuel, B, h⟩, hall⟩ := toAutomatonWithCounter_faithful
    (FiniteAutomaton.loop 97 [(0 : NFATransition)] (by decide)) 2 (by decide) (by decide)
    (Function.Embedding.refl ℕ)
  obtain ⟨copy, hcopy⟩ := hall fuel B h
  exact ⟨fuel, B, copy, h, hcopy⟩

end MooreFilter
