/-
  The enable bits of the Moore machine (`bit_buffer.hh`).

  `BitBuffer<N>` is a `std::bitset<N>`, here `BitVec N`.  For `N ≤ 64` the `n`
  newest bits are set through a mask computed by the `int` expression
  `(1 << n) - 1`; otherwise by a loop.

  * `getAndEnable undef` is the method.  The `int` expression has a value only
    for `n ≤ 30`: at `31` the subtraction overflows, from `32` on the shift
    itself is undefined.  `undef n` is what the compiled program computes there;
  * `Enables gae n`: a call with the argument `n` returns the oldest bit, shifts
    by one and sets exactly the `n` newest bits; `SlidingWindow` is what follows
    for a sequence of calls from the empty buffer (`slidingWindow`);
  * `getAndEnable_window_iff`: the method keeps the window exactly iff no call
    reaches an undefined mask.
-/
import Mathlib.Data.List.Induction
import Mathlib.Data.Nat.Notation
import Mathlib.Tactic.Linarith

namespace MooreFilter

/-! ## The method -/

/-- The `int` expression `(1 << n) - 1`, where it has a value. -/
def intMask (n : ℕ) : Option (BitVec 32) :=
  if n ≤ 30 then some ((1#32 <<< n) - 1#32) else none

/-- `uint64_t mask = (1 << n) - 1` -/
def mask64 (undef : ℕ → BitVec 32) (n : ℕ) : BitVec 64 :=
  ((intMask n).getD (undef n)).signExtend 64

/-- The branch for `BufferSize <= 64`: `bitBuffer |= mask`. -/
def enableMask {N : ℕ} (undef : ℕ → BitVec 32) (b : BitVec N) (n : ℕ) : BitVec N :=
  b ||| (mask64 undef n).setWidth N

/-- The other branch: `bitBuffer.set(i, true)` for `i < n`. -/
def enableLoop {N : ℕ} (b : BitVec N) (n : ℕ) : BitVec N :=
  (List.range n).foldl (fun b i => b ||| BitVec.twoPow N i) b

/-- `BitBuffer::getAndEnable`: the returned bit and the new buffer. -/
def getAndEnable {N : ℕ} (undef : ℕ → BitVec 32) (b : BitVec N) (n : ℕ) : Bool × BitVec N :=
  let ret := b.getLsbD (N - 1)
  let b := b <<< 1
  (ret, if N ≤ 64 then enableMask undef b n else enableLoop b n)

/-- The shift of the x86 instruction set, which takes the count modulo 32, with
    a subtraction that wraps around. -/
def x86Mask (n : ℕ) : BitVec 32 := (1#32 <<< (n % 32)) - 1#32

/-! ## The sliding window -/

/-- A call with the argument `n` returns the oldest bit, shifts the buffer by
    one and sets exactly the `n` newest bits. -/
structure Enables {N : ℕ} (gae : BitVec N → ℕ → Bool × BitVec N) (n : ℕ) : Prop where
  ret : ∀ b, (gae b n).1 = b.getLsbD (N - 1)
  bit : ∀ b i, i < N → ((gae b n).2.getLsbD i = true ↔ i < n ∨ 0 < i ∧ b.getLsbD (i - 1) = true)

/-- The buffer after calls with the arguments `ns`, from the empty buffer. -/
def bufferAfter {N : ℕ} (gae : BitVec N → ℕ → Bool × BitVec N) (ns : List ℕ) : BitVec N :=
  ns.foldl (fun b n => (gae b n).2) 0#N

/-- The window law for the calls with the arguments `ns`: the `k`-th call
    returns the bit set by an earlier call `j` that enabled more than
    `N - (k - j)` bits, and afterwards bit `b` is set iff a call `j` enabled it
    `k - j` calls ago. -/
structure SlidingWindow {N : ℕ} (gae : BitVec N → ℕ → Bool × BitVec N) (ns : List ℕ) : Prop where
  ret : ∀ k n, ns[k]? = some n → ((gae (bufferAfter gae (ns.take k)) n).1 = true ↔
    ∃ j m, ns[j]? = some m ∧ j < k ∧ k ≤ j + N ∧ N - m < k - j)
  bits : ∀ k < ns.length, ∀ b < N, ((bufferAfter gae (ns.take (k + 1))).getLsbD b = true ↔
    ∃ j m, ns[j]? = some m ∧ j ≤ k ∧ k - j ≤ b ∧ b < m + (k - j))

section
variable {N : ℕ} {gae : BitVec N → ℕ → Bool × BitVec N}

theorem bufferAfter_append (ns : List ℕ) (n : ℕ) :
    bufferAfter gae (ns ++ [n]) = (gae (bufferAfter gae ns) n).2 := by
  simp [bufferAfter]

/-- The bits after a sequence of calls: bit `b` was set by the call `j` made
    `ns.length - 1 - j` calls before the last one. -/
theorem getLsbD_bufferAfter {ns : List ℕ} (h : ∀ n ∈ ns, Enables gae n) {b : ℕ} (hb : b < N) :
    (bufferAfter gae ns).getLsbD b = true ↔
      ∃ j m, ns[j]? = some m ∧ ns.length ≤ j + b + 1 ∧ j + b + 1 < m + ns.length := by
  induction ns using List.reverseRecOn generalizing b with
  | nil => simp [bufferAfter]
  | append_singleton ns n ih =>
    have ih := fun {b : ℕ} => ih (b := b) fun m hm => h m (by simp [hm])
    rw [bufferAfter_append, (h n (by simp)).bit _ b hb]
    simp only [List.length_append, List.length_singleton]
    constructor
    · rintro (hbn | ⟨hpos, hold⟩)
      · exact ⟨ns.length, n, by simp, by omega, by omega⟩
      · obtain ⟨j, m, hj, h₁, h₂⟩ := (ih (by omega)).1 hold
        have hlt : j < ns.length := (List.getElem?_eq_some_iff.1 hj).1
        exact ⟨j, m, by rw [List.getElem?_append_left hlt, hj], by omega, by omega⟩
    · rintro ⟨j, m, hj, h₁, h₂⟩
      rcases lt_or_ge j ns.length with hlt | hge
      · rw [List.getElem?_append_left hlt] at hj
        exact Or.inr ⟨by omega, (ih (by omega)).2 ⟨j, m, hj, by omega, by omega⟩⟩
      · rw [List.getElem?_append_right hge, List.getElem?_singleton] at hj
        split_ifs at hj with he
        obtain rfl := Option.some.inj hj
        exact Or.inl (by omega)

/-- **The sliding window.** Calls that shift by one and set the newest bits
    exactly keep the window law. -/
theorem slidingWindow (hN : 0 < N) {ns : List ℕ} (h : ∀ n ∈ ns, Enables gae n) :
    SlidingWindow gae ns := by
  have take : ∀ k, ∀ n ∈ ns.take k, Enables gae n := fun k n hn => h n (List.mem_of_mem_take hn)
  constructor
  · intro k n hk
    have hlt : k < ns.length := (List.getElem?_eq_some_iff.1 hk).1
    rw [(h n (List.mem_of_getElem? hk)).ret, getLsbD_bufferAfter (take k) (by omega),
      List.length_take, min_eq_left hlt.le]
    constructor
    · rintro ⟨j, m, hj, h₁, h₂⟩
      have hjk : j < k := by
        have := (List.getElem?_eq_some_iff.1 hj).1
        rw [List.length_take] at this; omega
      rw [List.getElem?_take_of_lt hjk] at hj
      exact ⟨j, m, hj, hjk, by omega, by omega⟩
    · rintro ⟨j, m, hj, hjk, h₁, h₂⟩
      exact ⟨j, m, by rwa [List.getElem?_take_of_lt hjk], by omega, by omega⟩
  · intro k hk b hb
    rw [getLsbD_bufferAfter (take (k + 1)) hb, List.length_take, min_eq_left hk]
    constructor
    · rintro ⟨j, m, hj, h₁, h₂⟩
      have hjk : j < k + 1 := by
        have := (List.getElem?_eq_some_iff.1 hj).1
        rw [List.length_take] at this; omega
      rw [List.getElem?_take_of_lt hjk] at hj
      exact ⟨j, m, hj, by omega, by omega, by omega⟩
    · rintro ⟨j, m, hj, hjk, h₁, h₂⟩
      exact ⟨j, m, by rwa [List.getElem?_take_of_lt (by omega)], by omega, by omega⟩

end

/-! ## The two branches -/

section
variable {N : ℕ} {undef : ℕ → BitVec 32}

theorem mask64_getLsbD {n : ℕ} (hn : n ≤ 30) (i : ℕ) :
    (mask64 undef n).getLsbD i = decide (i < n) := by
  have hpow : 2 ^ n ≤ 2 ^ 30 := Nat.pow_le_pow_right (by norm_num) hn
  have hpos : 0 < 2 ^ n := Nat.two_pow_pos n
  have hval : (1#32 <<< n) - 1#32 = BitVec.ofNat 32 (2 ^ n - 1) := by
    rw [show (1#32 <<< n) = BitVec.ofNat 32 (2 ^ n) by
      apply BitVec.eq_of_toNat_eq; simp [Nat.shiftLeft_eq]]
    exact BitVec.ofNat_sub_ofNat_of_le _ _ (by norm_num) hpos
  have hmsb : (BitVec.ofNat 32 (2 ^ n - 1)).msb = false := by
    rw [BitVec.msb_eq_decide, decide_eq_false_iff_not, BitVec.toNat_ofNat]
    rw [Nat.mod_eq_of_lt (by omega)]; omega
  rw [mask64, intMask, if_pos hn, Option.getD_some, hval,
    BitVec.signExtend_eq_setWidth_of_msb_false hmsb, BitVec.getLsbD_setWidth,
    BitVec.getLsbD_ofNat, Nat.testBit_two_pow_sub_one]
  by_cases h : i < n
  · simp only [h, decide_true, Bool.and_true, Bool.and_eq_true, decide_eq_true_eq]; omega
  · simp [h]

theorem enableLoop_getLsbD (b : BitVec N) (n : ℕ) {i : ℕ} (hi : i < N) :
    (enableLoop b n).getLsbD i = true ↔ i < n ∨ b.getLsbD i = true := by
  induction n with
  | zero => simp [enableLoop]
  | succ n ih =>
    have e : enableLoop b (n + 1) = enableLoop b n ||| BitVec.twoPow N n := by
      simp [enableLoop, List.range_succ]
    rw [e, BitVec.getLsbD_or, Bool.or_eq_true, ih, BitVec.getLsbD_twoPow]
    simp only [Bool.and_eq_true, decide_eq_true_eq]
    constructor
    · rintro ((h | h) | ⟨-, h⟩)
      exacts [Or.inl (by omega), Or.inr h, Or.inl (by omega)]
    · rintro (h | h)
      · rcases Nat.lt_succ_iff_lt_or_eq.1 h with h | h
        exacts [Or.inl (Or.inl h), Or.inr ⟨by omega, h.symm⟩]
      · exact Or.inl (Or.inr h)

/-- Where the mask has a value, both branches set the same bits. -/
theorem enableMask_eq {n : ℕ} (hn : n ≤ 30) (b : BitVec N) :
    enableMask undef b n = enableLoop b n := by
  apply BitVec.eq_of_getLsbD_eq
  intro i hi
  rw [Bool.eq_iff_iff, enableLoop_getLsbD b n hi, enableMask, BitVec.getLsbD_or,
    BitVec.getLsbD_setWidth, mask64_getLsbD hn]
  simp [hi, or_comm]

theorem getAndEnable_enables {n : ℕ} (hn : n ≤ 30 ∨ 64 < N) :
    Enables (getAndEnable (N := N) undef) n := by
  refine ⟨fun b => rfl, fun b i hi => ?_⟩
  have e : (getAndEnable undef b n).2 = enableLoop (b <<< 1) n := by
    unfold getAndEnable
    split_ifs with hN
    · exact enableMask_eq (hn.resolve_right (by omega)) _
    · rfl
  rw [e, enableLoop_getLsbD _ _ hi, BitVec.getLsbD_shiftLeft]
  simp only [hi, decide_true, Bool.true_and, Bool.and_eq_true, Bool.not_eq_true',
    decide_eq_false_iff_not, not_lt, Nat.one_le_iff_ne_zero, Nat.pos_iff_ne_zero]

theorem mask64_undef {n : ℕ} (hn : 30 < n) : mask64 undef n = (undef n).signExtend 64 := by
  rw [mask64, intMask, if_neg (by omega)]; rfl

/-- A mask without bits leaves the newest bit unset. -/
theorem enableMask_zero {n : ℕ} (hn : 30 < n) (b : BitVec N) :
    enableMask (fun _ => 0#32) b n = b := by
  rw [enableMask, mask64_undef hn]; simp

end

/-- **Exactness of the window.** Whatever an undefined mask yields, a sequence of
    calls keeps the window law iff the bits are set by the loop or every argument
    is at most `30`; and for `n ≤ N ≤ 64` the mask sets the bits that the loop
    sets iff `n` is at most `30`. -/
theorem getAndEnable_window_iff (N : ℕ) (hN : 0 < N) :
    (∀ ns : List ℕ, (∀ n ∈ ns, n ≤ N) →
      ((∀ undef, SlidingWindow (getAndEnable (N := N) undef) ns) ↔
        64 < N ∨ ∀ n ∈ ns, n ≤ 30)) ∧
    (N ≤ 64 → ∀ n ≤ N,
      ((∀ undef, ∀ b : BitVec N, enableMask undef b n = enableLoop b n) ↔ n ≤ 30)) := by
  refine ⟨fun ns _ => ⟨fun h => ?_, fun h undef => ?_⟩,
    fun hN64 n _ => ⟨fun h => ?_, fun h undef b => ?_⟩⟩
  · by_contra hcon
    simp only [not_or, not_lt, not_forall, not_le, exists_prop] at hcon
    obtain ⟨hN64, n, hn, hn30⟩ := hcon
    obtain ⟨k, hk⟩ := List.getElem?_of_mem hn
    have hlt : k < ns.length := (List.getElem?_eq_some_iff.1 hk).1
    -- call `k` enables bit `0`, and the shift has just cleared it
    have hbit := ((h fun _ => 0#32).bits k hlt 0 hN).2 ⟨k, n, hk, le_rfl, by omega, by omega⟩
    rw [List.take_add_one, hk, Option.toList_some, bufferAfter_append, getAndEnable, if_pos hN64,
      enableMask_zero hn30] at hbit
    simp at hbit
  · exact slidingWindow hN fun n hn =>
      getAndEnable_enables (h.elim Or.inr fun h => Or.inl (h n hn))
  · by_contra hn30
    have hbit := (enableLoop_getLsbD (0#N) n hN).2 (Or.inl (by omega))
    rw [← h (fun _ => 0#32), enableMask_zero (by omega)] at hbit
    simp at hbit
  · exact enableMask_eq h b

/-- Three calls on a buffer of five bits. -/
theorem getAndEnable_window_five :
    SlidingWindow (getAndEnable (N := 5) x86Mask) [3, 0, 5] :=
  (((getAndEnable_window_iff 5 (by decide)).1 [3, 0, 5] (by decide)).2 (Or.inr (by decide))) x86Mask

/-- On x86 a call that enables all bits of a buffer of 32 bits enables none. -/
theorem getAndEnable_window_x86 : ¬ SlidingWindow (getAndEnable (N := 32) x86Mask) [32] := by
  intro h
  have hbit := (h.bits 0 (by decide) 0 (by decide)).2 ⟨0, 32, rfl, by decide, by decide, by decide⟩
  exact absurd hbit (by decide)

end MooreFilter
