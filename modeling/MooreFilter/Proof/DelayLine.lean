/-
  The machine and the filter as a delay line.

  * `after` is the machine after a word, `stateAfter` its state; the buffers are
    those of `charBuffer_after` and `bitBuffer_after`;
  * `outputs` are the characters returned; `filter_eq`: the filter writes what is
    returned, from the `N`-th on, for the input followed by `N` mask characters;
  * `enabled` is the bit that decides about an input character, and if the bits
    are set exactly, `enabled_iff`: the bit of `p` was set by a state reached
    after fewer than `N` more characters with a counter that covers `p`;
  * `filter_delayLine` is the law of the delay line, for any machine.
-/
import MooreFilter.Filter

namespace MooreFilter

namespace MooreMachine
variable {N : ℕ} {α State : Type} [Alphabet α] [DeterministicState State α]
  (gae : BitVec N → ℕ → Bool × BitVec N) (A : MooreMachine N α State)

/-! ## The machine after a word -/

/-- The machine after a word. -/
def after (x : List α) : MooreMachine N α State := x.foldl (fun A c => (A.feed gae c).2) A

/-- The state after a word. -/
def stateAfter (x : List α) : Ptr := x.foldl A.nextState A.currentState

/-- The counters of the states after each character of a word. -/
def counters (x : List α) : List ℕ :=
  (List.range x.length).map fun k => A.counter (A.stateAfter (x.take (k + 1)))

/-- The characters returned for a word. -/
def outputs : MooreMachine N α State → List α → List α
  | _, [] => []
  | A, c :: x => (A.feed gae c).1 :: outputs (A.feed gae c).2 x

/-- The machine has read nothing yet. -/
structure IsFresh : Prop where
  charBuffer : A.charBuffer = List.replicate N maskChar
  bitBuffer : A.bitBuffer = 0#N

variable {A} {gae}

theorem after_append (x y : List α) : A.after gae (x ++ y) = (A.after gae x).after gae y :=
  List.foldl_append

theorem after_append_singleton (x : List α) (c : α) :
    A.after gae (x ++ [c]) = ((A.after gae x).feed gae c).2 := by rw [after_append]; rfl

omit [Alphabet α] in
theorem stateAfter_append_singleton (x : List α) (c : α) :
    A.stateAfter (x ++ [c]) = A.nextState (A.stateAfter x) c := by simp [stateAfter]

/-- The automaton and the counters stay as they are. -/
theorem toAutomaton_after (A : MooreMachine N α State) (gae : BitVec N → ℕ → Bool × BitVec N)
    (x : List α) :
    (A.after gae x).toAutomaton = A.toAutomaton ∧ (A.after gae x).counter = A.counter := by
  induction x using List.reverseRecOn with
  | nil => exact ⟨rfl, rfl⟩
  | append_singleton x c ih => rw [after_append_singleton]; exact ih

theorem nextState_after (x : List α) (s : Ptr) (c : α) :
    (A.after gae x).nextState s c = A.nextState s c := by
  have h := (toAutomaton_after A gae x).1
  simp only [nextState, h]

theorem currentState_after (x : List α) : (A.after gae x).currentState = A.stateAfter x := by
  induction x using List.reverseRecOn with
  | nil => rfl
  | append_singleton x c ih =>
    rw [after_append_singleton, stateAfter_append_singleton, ← ih]
    exact nextState_after x _ c

omit [Alphabet α] in
theorem counters_append_singleton (x : List α) (c : α) :
    A.counters (x ++ [c]) = A.counters x ++ [A.counter (A.stateAfter (x ++ [c]))] := by
  unfold counters
  rw [List.length_append, List.length_singleton, List.range_succ, List.map_append]
  congr 1
  · refine List.map_congr_left fun k hk => ?_
    rw [List.take_append_of_le_length (Nat.succ_le_of_lt (List.mem_range.1 hk))]
  · rw [List.map_singleton, List.take_of_length_le (by simp)]

theorem bitBuffer_after (hA : A.IsFresh) (x : List α) :
    (A.after gae x).bitBuffer = bufferAfter gae (A.counters x) := by
  induction x using List.reverseRecOn with
  | nil => exact hA.bitBuffer
  | append_singleton x c ih =>
    rw [after_append_singleton, counters_append_singleton, bufferAfter_append, ← ih,
      stateAfter_append_singleton]
    simp only [feed, nextState_after, currentState_after, (toAutomaton_after _ _ x).2]

theorem charBuffer_after (hN : 0 < N) (hA : A.IsFresh) (x : List α) :
    (A.after gae x).charBuffer = (List.replicate N maskChar ++ x).drop x.length := by
  induction x using List.reverseRecOn with
  | nil => simpa [after] using hA.charBuffer
  | append_singleton x c ih =>
    rw [after_append_singleton, ← List.append_assoc, List.length_append, List.length_singleton,
      List.drop_append_of_le_length (by simp; omega), ← List.tail_drop, ← ih]
    rfl

/-! ## The characters returned -/

theorem length_outputs (gae : BitVec N → ℕ → Bool × BitVec N) (x : List α) :
    ∀ A : MooreMachine N α State, (A.outputs gae x).length = x.length := by
  induction x with
  | nil => intro A; rfl
  | cons c x ih => intro A; simp [outputs, ih]

theorem outputs_append (x y : List α) : ∀ A : MooreMachine N α State,
    A.outputs gae (x ++ y) = A.outputs gae x ++ (A.after gae x).outputs gae y := by
  induction x with
  | nil => intro A; rfl
  | cons c x ih => intro A; simp [outputs, ih, after]

theorem outputs_append_singleton (x : List α) (c : α) :
    A.outputs gae (x ++ [c]) = A.outputs gae x ++ [((A.after gae x).feed gae c).1] := by
  rw [outputs_append]; rfl

theorem getElem?_outputs (x : List α) (k : ℕ) :
    (A.outputs gae x)[k]? = x[k]?.map fun c => ((A.after gae (x.take k)).feed gae c).1 := by
  induction x using List.reverseRecOn with
  | nil => simp [outputs]
  | append_singleton x c ih =>
    rw [outputs_append_singleton]
    rcases lt_trichotomy k x.length with hk | rfl | hk
    · rw [List.getElem?_append_left (by rw [length_outputs]; exact hk),
        List.getElem?_append_left hk, ih, List.take_append_of_le_length hk.le]
    · rw [List.getElem?_append_right (by rw [length_outputs]),
        List.getElem?_append_right le_rfl, length_outputs, Nat.sub_self]
      simp
    · rw [List.getElem?_eq_none (by simp [length_outputs]; omega),
        List.getElem?_eq_none (by simp; omega)]
      rfl

end MooreMachine

/-! ## The filter -/

section
variable {N : ℕ} {α State : Type} [Alphabet α] [DeterministicState State α]
  {gae : BitVec N → ℕ → Bool × BitVec N} {A : MooreMachine N α State}

/-- The input that the machine reads: `w`, then `N` mask characters. -/
def padded (N : ℕ) (w : List α) : List α := w ++ List.replicate N maskChar

theorem foldl_readOne (w : List α) :
    w.foldl (readOne gae) (A, 0, []) =
      (A.after gae w, min w.length N, (A.outputs gae w).drop N) := by
  induction w using List.reverseRecOn with
  | nil => simp [MooreMachine.after, MooreMachine.outputs]
  | append_singleton w c ih =>
    rw [List.foldl_append, ih, List.foldl_cons, List.foldl_nil, readOne,
      MooreMachine.after_append_singleton, MooreMachine.outputs_append_singleton]
    have hlen := MooreMachine.length_outputs gae w A
    simp only [List.length_append, List.length_singleton]
    split_ifs with h
    · rw [List.drop_append_of_le_length (by rw [hlen]; omega)]
      rw [show min (w.length + 1) N = min w.length N by omega]
    · rw [List.drop_of_length_le (by rw [hlen]; omega),
        List.drop_of_length_le (by rw [List.length_append, hlen, List.length_singleton]; omega)]
      rw [show min (w.length + 1) N = min w.length N + 1 by omega]

theorem iterate_fillOne (n : ℕ) :
    (fillOne gae)^[n] A = A.after gae (List.replicate n maskChar) := by
  induction n with
  | zero => rfl
  | succ n ih =>
    rw [Function.iterate_succ_apply', ih, List.replicate_succ', MooreMachine.after_append_singleton]
    rfl

theorem iterate_flushOne (n : ℕ) (fout : List α) :
    (flushOne gae)^[n] (A, fout) = (A.after gae (List.replicate n maskChar),
      fout ++ A.outputs gae (List.replicate n maskChar)) := by
  induction n with
  | zero => simp [MooreMachine.after, MooreMachine.outputs]
  | succ n ih =>
    rw [Function.iterate_succ_apply', ih, List.replicate_succ', MooreMachine.after_append_singleton,
      MooreMachine.outputs_append_singleton, ← List.append_assoc]
    rfl

/-- **The filter as a delay line.** -/
theorem filter_eq (w : List α) : filter gae A w = (A.outputs gae (padded N w)).drop N := by
  simp only [filter, foldl_readOne, iterate_fillOne, iterate_flushOne, ← MooreMachine.after_append]
  have hpad : padded N w = w ++ List.replicate (N - min w.length N) maskChar ++
      List.replicate (min w.length N) maskChar := by
    rw [List.append_assoc, List.replicate_append_replicate, padded,
      show N - min w.length N + min w.length N = N by omega]
  rw [hpad, MooreMachine.outputs_append]
  have hlen := MooreMachine.length_outputs gae
    (w ++ List.replicate (N - min w.length N) maskChar) A
  rw [List.length_append, List.length_replicate] at hlen
  rw [List.drop_append_of_le_length (by omega)]
  congr 1
  rcases lt_or_ge w.length N with h | h
  · have hw := MooreMachine.length_outputs gae w A
    rw [List.drop_of_length_le (by omega), List.drop_of_length_le (by omega)]
  · rw [min_eq_right h, Nat.sub_self]; simp

theorem length_filter (w : List α) : (filter gae A w).length = w.length := by
  rw [filter_eq, List.length_drop, MooreMachine.length_outputs, padded, List.length_append,
    List.length_replicate, Nat.add_sub_cancel]

/-- The bit that decides whether the character `p` of the input passes. -/
def enabled (gae : BitVec N → ℕ → Bool × BitVec N) (A : MooreMachine N α State) (w : List α)
    (p : ℕ) : Bool :=
  (gae (bufferAfter gae ((A.counters (padded N w)).take (N + p)))
    ((A.counters (padded N w)).getD (N + p) 0)).1

omit [Alphabet α] in
theorem take_counters (x : List α) {k : ℕ} (hk : k ≤ x.length) :
    A.counters (x.take k) = (A.counters x).take k := by
  unfold MooreMachine.counters
  rw [List.length_take, min_eq_left hk, ← List.map_take, List.take_range, min_eq_left hk]
  refine List.map_congr_left fun j hj => ?_
  rw [List.mem_range] at hj
  rw [List.take_take, min_eq_left hj]

/-- The filter passes the characters with their bits set. -/
theorem getElem?_filter (hN : 0 < N) (hA : A.IsFresh) (w : List α) (p : ℕ) :
    (filter gae A w)[p]? =
      w[p]?.map fun c => if enabled gae A w p = true then c else mask c := by
  rcases lt_or_ge p w.length with hp | hp
  · have hlen : (padded N w).length = w.length + N := by
      rw [padded, List.length_append, List.length_replicate]
    obtain ⟨c, hc⟩ : ∃ c, w[p]? = some c := ⟨_, List.getElem?_eq_getElem hp⟩
    obtain ⟨d, hd⟩ : ∃ d, (padded N w)[N + p]? = some d :=
      ⟨_, List.getElem?_eq_getElem (by omega)⟩
    rw [filter_eq, List.getElem?_drop, MooreMachine.getElem?_outputs, hd, hc, Option.map_some,
      Option.map_some]
    have hfront : (A.after gae ((padded N w).take (N + p))).charBuffer.headD maskChar = c := by
      rw [MooreMachine.charBuffer_after hN hA, List.headD_eq_head?_getD, List.head?_drop,
        List.length_take, hlen, min_eq_left (by omega),
        List.getElem?_append_right (by simp), List.length_replicate,
        show N + p - N = p by omega, List.getElem?_take_of_lt (by omega), padded,
        List.getElem?_append_left hp, hc]
      rfl
    have hcount : A.counter ((A.after gae ((padded N w).take (N + p))).nextState
        (A.after gae ((padded N w).take (N + p))).currentState d) =
        (A.counters (padded N w)).getD (N + p) 0 := by
      rw [MooreMachine.nextState_after, MooreMachine.currentState_after,
        ← MooreMachine.stateAfter_append_singleton, List.getD_eq_getElem?_getD]
      unfold MooreMachine.counters
      rw [List.getElem?_map, List.getElem?_range (by omega), Option.map_some, Option.getD_some,
        List.take_add_one, hd]
      rfl
    simp only [MooreMachine.feed, hfront, (MooreMachine.toAutomaton_after _ _ _).2,
      MooreMachine.bitBuffer_after hA, hcount, enabled,
      take_counters _ (show N + p ≤ (padded N w).length by omega)]
    rfl
  · rw [List.getElem?_eq_none (by rw [length_filter]; exact hp), List.getElem?_eq_none hp]; rfl

/-- Fewer than `N` characters after `p` a state has a counter that reaches back
    to it. -/
def ReachesBack (A : MooreMachine N α State) (w : List α) (p : ℕ) : Prop :=
  ∃ t, p ≤ t ∧ t < p + N ∧ t - p < A.counter (A.stateAfter ((padded N w).take (t + 1)))

/-- **The life of a bit.** If the bits are set exactly, the character `p` passes
    iff a counter reaches back to it. -/
theorem enabled_iff (hN : 0 < N) (hgae : ∀ n ≤ N, Enables gae n) {w : List α}
    (hA : ∀ t, A.counter (A.stateAfter ((padded N w).take (t + 1))) ≤ N) {p : ℕ}
    (hp : p < w.length) : enabled gae A w p = true ↔ ReachesBack A w p := by
  have hlen : (padded N w).length = w.length + N := by
    rw [padded, List.length_append, List.length_replicate]
  have hget : ∀ t, t < w.length + N → (A.counters (padded N w))[t]? =
      some (A.counter (A.stateAfter ((padded N w).take (t + 1)))) := by
    intro t ht
    unfold MooreMachine.counters
    rw [List.getElem?_map, List.getElem?_range (by omega)]; rfl
  have hwin : SlidingWindow gae (A.counters (padded N w)) := by
    refine slidingWindow hN fun n hn => ?_
    obtain ⟨k, -, rfl⟩ := List.mem_map.1 hn
    exact hgae _ (hA _)
  have hret := hwin.ret (N + p) _ (hget (N + p) (by omega))
  rw [enabled, List.getD_eq_getElem?_getD, hget (N + p) (by omega), Option.getD_some, hret]
  constructor
  · rintro ⟨j, m, hj, h₁, h₂, h₃⟩
    rw [hget j (by omega)] at hj
    obtain rfl := Option.some.inj hj
    exact ⟨j, by omega, by omega, by have := hA j; omega⟩
  · rintro ⟨t, h₁, h₂, h₃⟩
    refine ⟨t, _, hget t (by omega), by omega, by omega, ?_⟩
    have := hA t
    omega

/-! ## The delay line -/

/-- **The filter is an aligned delay line.** It writes a character for each one
    read: the character itself if a counter reaches back to it, else its mask. -/
theorem filter_delayLine (hN : 0 < N) (hgae : ∀ n ≤ N, Enables gae n) (hA : A.IsFresh)
    (hcounter : ∀ x, A.counter (A.stateAfter x) ≤ N) (w : List α) :
    (filter gae A w).length = w.length ∧ ∀ p c, w[p]? = some c →
      (ReachesBack A w p → (filter gae A w)[p]? = some c) ∧
      (¬ ReachesBack A w p → (filter gae A w)[p]? = some (mask c)) ∧
      (mask c ≠ c → ((filter gae A w)[p]? = some c ↔ ReachesBack A w p)) := by
  refine ⟨length_filter w, fun p c hc => ?_⟩
  have hp : p < w.length := (List.getElem?_eq_some_iff.1 hc).1
  have hiff := enabled_iff hN hgae (fun t => hcounter ((padded N w).take (t + 1))) hp
  have hout : (filter gae A w)[p]? = _ := getElem?_filter hN hA w p
  rw [hc, Option.map_some] at hout
  have hpass : ReachesBack A w p → (filter gae A w)[p]? = some c := fun h => by
    rw [hout, if_pos (hiff.2 h)]
  have hmask : ¬ ReachesBack A w p → (filter gae A w)[p]? = some (mask c) := fun h => by
    rw [hout, if_neg (mt hiff.1 h)]
  refine ⟨hpass, hmask, fun hne => ⟨fun h => ?_, hpass⟩⟩
  by_contra hcov
  rw [hmask hcov] at h
  exact hne (Option.some.inj h)

end

/-- The machine with one state, which has the counter `n`. -/
def oneState (N n : ℕ) : MooreMachine N UInt8 DFAState where
  heap := { cell := fun _ => ⟨true, fun _ => none⟩, size := 1 }
  states := [0]
  initialStates := [0]
  counter _ := n
  charBuffer := List.replicate N maskChar
  bitBuffer := 0#N
  currentState := 0

/-- With the counter `1`, a letter passes. -/
theorem filter_delayLine_oneState :
    (filter (getAndEnable x86Mask) (oneState 1 1) [97])[0]? = some 97 ↔
      ReachesBack (oneState 1 1) [97] 0 :=
  ((filter_delayLine (by decide) (fun n hn => getAndEnable_enables (Or.inl (by omega)))
    ⟨rfl, rfl⟩ (fun _ => le_rfl) [97]).2 0 97 rfl).2.2 (by decide)

/-- A mask character of the input is written as it is in any case. -/
theorem filter_mask_oneState :
    (filter (getAndEnable x86Mask) (oneState 1 0) ['_'.toUInt8])[0]? = some '_'.toUInt8 ∧
      ¬ ReachesBack (oneState 1 0) ['_'.toUInt8] 0 := by
  refine ⟨by decide +kernel, ?_⟩
  rintro ⟨t, -, -, ht⟩
  exact absurd ht (Nat.not_lt_zero _)

end MooreFilter
