/-
  The converters, and what the absolute time mode keeps.

  * `rel2abs_eq`, `truncate_eq`, `rel2absTruncateAwk_eq`: what the awk scripts print;
  * `converters_agree`: `abs2rel` and `rel2abs` are inverse to each other, and the
    program for both steps is `rel2abs` followed by `truncate`, as is the script up to the
    format of the stamps;
  * `truncate_spec`: what `truncate` keeps;
  * `timedFilter_occurs`: the absolute time mode keeps the matches, with their stamps.
-/
import MooreFilter.Lib.Condense
import MooreFilter.Proof.AbsTime
import MooreFilter.Proof.TimedMatches

namespace MooreFilter

open Stamps
open Masking (segment)

/-! ## The awk scripts -/

theorem rel2abs_eq (fin : List (UInt8 × ℚ)) : rel2abs fin = toStamps 0 fin := by
  have key : ∀ (t : ℚ) out, (fin.foldl rel2absOne (t, out)).2 = out ++ toStamps t fin := by
    induction fin with
    | nil => exact fun _ out => (List.append_nil out).symm
    | cons line fin ih =>
      intro t out
      rw [List.foldl_cons, rel2absOne, ih, List.append_assoc]; rfl
  exact key 0 []

/-- The last line, if it is masked. -/
def AwkState.lastMasked (s : AwkState) : Option (UInt8 × ℚ) :=
  if s.truncating then some s.last else none

theorem truncateOne_fout (s : AwkState) (line : UInt8 × ℚ) (l : List (UInt8 × ℚ)) :
    (truncateOne s line).fout ++ condenseFrom isMasked (truncateOne s line).lastMasked l =
      s.fout ++ condenseFrom isMasked s.lastMasked (line :: l) := by
  obtain ⟨truncating, last, fout⟩ := s
  obtain ⟨c, t⟩ := line
  by_cases hc : c = '_'.toUInt8 <;> cases truncating <;>
    simp [condenseFrom, isMasked, truncateOne, AwkState.lastMasked, hc]

/-- **What `truncate.awk` prints**: the lines, with the masked runs condensed. -/
theorem foldl_truncateOne (l : List (UInt8 × ℚ)) (s : AwkState) :
    (l.foldl truncateOne s).fout = s.fout ++ condenseFrom isMasked s.lastMasked l := by
  induction l generalizing s with
  | nil => exact (List.append_nil s.fout).symm
  | cons line l ih => rw [List.foldl_cons, ih, truncateOne_fout]

theorem truncate_eq (last : UInt8 × ℚ) (l : List (UInt8 × ℚ)) :
    truncate last l = condense isMasked l := by
  rw [← condenseFrom_none]
  exact foldl_truncateOne l _

/-- The stamps of the lines in a format. -/
def formatStamps (convfmt : ℚ → ℚ) (l : List (UInt8 × ℚ)) : List (UInt8 × ℚ) :=
  l.map fun line => (line.1, convfmt line.2)

theorem rel2absTruncateAwk_eq (convfmt : ℚ → ℚ) (last : UInt8 × ℚ) (l : List (UInt8 × ℚ)) :
    rel2absTruncateAwk convfmt last l =
      condense isMasked (formatStamps convfmt (toStamps 0 l)) := by
  have key : ∀ (t : ℚ) (s : AwkState), (l.foldl (rel2absTruncateAwkOne convfmt) (t, s)).2 =
      (formatStamps convfmt (toStamps t l)).foldl truncateOne s := by
    induction l with
    | nil => exact fun _ _ => rfl
    | cons line l ih =>
      intro t s
      rw [List.foldl_cons, rel2absTruncateAwkOne, ih]; rfl
  rw [rel2absTruncateAwk, key, ← truncate_eq last]
  rfl

/-- **The converters.** `abs2rel` and `rel2abs` are inverse to each other; what the program
    converts and truncates in one step is the same as in two, and so it is for the script but
    for the format of its stamps; and with any machine the absolute time mode is the pipe of
    the scripts around the relative one. -/
theorem converters_agree (fin : List (UInt8 × ℚ)) (last : UInt8 × ℚ) :
    rel2abs (abs2rel fin) = fin ∧ abs2rel (rel2abs fin) = fin ∧
      (∀ convfmt, rel2absTruncateAwk convfmt last fin =
        truncate last (formatStamps convfmt (rel2abs fin))) ∧
      (∀ lastC lastAbsTime, rel2absTruncate lastC lastAbsTime fin = truncate last (rel2abs fin)) ∧
      ∀ {N : ℕ} {State : Type} [DeterministicState State (UInt8 × ℚ)]
        (gae : BitVec N → ℕ → Bool × BitVec N) (A : MooreMachine N (UInt8 × ℚ) State),
        timedFilter gae true A fin =
          truncate last (rel2abs (timedFilter gae false A (abs2rel fin))) := by
  refine ⟨?_, ?_, fun convfmt => ?_, fun lastC lastAbsTime => ?_, fun gae A => ?_⟩
  · rw [rel2abs_eq, abs2rel_eq, toStamps_toDelays]
  · rw [rel2abs_eq, abs2rel_eq, toDelays_toStamps]
  · rw [rel2absTruncateAwk_eq, truncate_eq, rel2abs_eq]
  · rw [rel2absTruncate_eq, truncate_eq, rel2abs_eq]
  · rw [truncate_eq, rel2abs_eq, timedFilter_false, timedFilter, filterWith_eq,
      events_getOne_true, printed_putOne_true, abs2rel_eq]

/-- **Truncation** keeps the lines that are not masked, in their order, and the order of the
    stamps; what is printed is of the input, and there is nothing to truncate in it. -/
theorem truncate_spec (last : UInt8 × ℚ) (fin : List (UInt8 × ℚ)) :
    (truncate last fin).filter (fun p => ! isMasked p) = fin.filter (fun p => ! isMasked p) ∧
      (∀ p ∈ truncate last fin, p ∈ fin) ∧
      (fin.Pairwise (fun p q => p.2 ≤ q.2) →
        (truncate last fin).Pairwise fun p q => p.2 ≤ q.2) ∧
      ∀ last', truncate last' (truncate last fin) = truncate last fin := by
  simp only [truncate_eq]
  exact ⟨filter_condense fin, fun p => mem_of_mem_condense,
    fun h => pairwise_condense (fun p => le_refl p.2) h, fun _ => condense_condense fin⟩

/-! ## The matches -/

section
variable {TA : TimedAutomaton}

/-- The events, with the times since the stamp `t`. -/
def since (t : ℚ) (u : List (UInt8 × ℚ)) : List (UInt8 × ℚ) := u.map fun e => (e.1, e.2 - t)

theorem timestampsFrom_toDelays (u : List (UInt8 × ℚ)) (t s : ℚ) :
    timestampsFrom s (toDelays t u) = u.map fun e => (e.1, s + (e.2 - t)) := by
  induction u generalizing t s with
  | nil => rfl
  | cons e u ih =>
    rw [toDelays, timestampsFrom, ih, List.map_cons]
    refine congrArg _ (List.map_congr_left fun e' _ => Prod.ext rfl ?_)
    dsimp only
    ring

theorem timestamps_toDelays (u : List (UInt8 × ℚ)) (t : ℚ) :
    timestamps (toDelays t u) = since t u :=
  (timestampsFrom_toDelays u t 0).trans
    (List.map_congr_left fun _ _ => Prod.ext rfl (zero_add _))

/-- No accepted event is masked. -/
theorem isMasked_of_isMember (hTA : TA.NoMaskLabel) {t : ℚ} {u : List (UInt8 × ℚ)}
    (hu : TA.isMember (since t u) = true) : ∀ e ∈ u, isMasked e = false := by
  rw [← timestamps_toDelays] at hu
  intro e he
  refine decide_eq_false fun hc => ?_
  have hmem : e.1 ∈ (toDelays t u).map Prod.fst := by
    rw [map_fst_toDelays]; exact List.mem_map_of_mem he
  obtain ⟨e', he', hfst⟩ := List.mem_map.1 hmem
  exact TimedAutomaton.fst_ne_of_isMember hTA hu e' he' (hfst.trans hc)

/-- With the stamps added up again, the matches occur where they did. -/
theorem occurs_toStamps_iff {fin o : List (UInt8 × ℚ)} {t : ℚ} {u : List (UInt8 × ℚ)}
    (hne : u ≠ []) (hu : TA.isMember (since t u) = true)
    (hdelays : o.map Prod.snd = (toDelays 0 fin).map Prod.snd)
    (hkeep : KeepsMatches (fun w => TA.isMember (timestamps w) = true) (toDelays 0 fin) o) :
    OccursAfter 0 t u (toStamps 0 o) ↔ OccursAfter 0 t u fin := by
  have hpos : 0 < u.length := List.length_pos_iff.2 hne
  have hstamps : (toStamps 0 o).map Prod.snd = fin.map Prod.snd := by
    rw [map_snd_toStamps hdelays, toStamps_toDelays]
  have hlast : ∀ i, lastStamp 0 ((toStamps 0 o).take i) = lastStamp 0 (fin.take i) := fun i =>
    lastStamp_congr (by rw [List.map_take, List.map_take, hstamps]) 0
  have hlength : (toStamps 0 o).length = fin.length := by
    have h := congrArg List.length hstamps
    rwa [List.length_map, List.length_map] at h
  rw [occurs_iff_delays, occurs_iff_delays, toDelays_toStamps, hlength]
  refine exists_congr fun i => and_congr_right fun hi => ?_
  rw [hlast]
  refine and_congr_right fun _ => ?_
  -- the segment of the events that may be `u`
  have hsegment : ∀ w : List (UInt8 × ℚ),
      (w.drop i).take u.length = segment w i (i + u.length - 1) := fun w => by
    unfold Masking.segment
    rw [show i + u.length - 1 + 1 - i = u.length by omega]
  have hj : i + u.length - 1 < (toDelays 0 fin).length := by rw [length_toDelays]; omega
  have hiff := hkeep.iff i (i + u.length - 1) (by omega) hj
  have hkeep := hkeep.segment_eq i (i + u.length - 1) (by omega) hj
  rw [hsegment, hsegment]
  have hmem : TA.isMember (timestamps (toDelays t u)) = true := by
    rw [timestamps_toDelays]; exact hu
  constructor
  · intro h
    rw [← hkeep (hiff.2 (h ▸ hmem))]; exact h
  · intro h
    rw [hkeep (h ▸ hmem)]; exact h

end

/-- **The absolute time mode keeps the matches.** Events one after the other that the timed
    automaton accepts, with the times since the event before them, are in the printed lines
    after this event's stamp iff they are in the input. -/
theorem timedFilter_occurs (TA : TimedAutomaton) (hTA : TA.NoMaskLabel)
    (hfit : TA.ReachedFit TA.clockSize) (N : ℕ) (hN : 0 < N)
    (gae : BitVec N → ℕ → Bool × BitVec N) (hgae : ∀ k ≤ N, Enables gae k) (addr : Ptr ↪ ℕ)
    (order : Ptr → UInt8 → ℕ) (fuel : ℕ) (T : MooreMachine N (UInt8 × ℚ) DRTAState)
    (hT : TA.constructFilter addr order N fuel = some T) (fin : List (UInt8 × ℚ))
    (hfin : ∀ c ∈ abs2rel fin, 0 < c.2) (t : ℚ) (u : List (UInt8 × ℚ)) (hne : u ≠ [])
    (hu : TA.isMember (since t u) = true) :
    OccursAfter 0 t u (timedFilter gae true T fin) ↔ OccursAfter 0 t u fin := by
  have hprinted : timedFilter gae true T fin =
      condense isMasked (toStamps 0 (filter gae T (toDelays 0 fin))) := by
    rw [timedFilter, filterWith_eq, events_getOne_true, printed_putOne_true]
  rw [abs2rel_eq] at hfin
  obtain ⟨hdelays, hkeep⟩ := filterPreserves_of_reachedFit hTA hfit hN hgae hT (toDelays 0 fin) hfin
  rw [hprinted, occurs_condense_iff hne (isMasked_of_isMember hTA hu)]
  exact occurs_toStamps_iff hne hu hdelays hkeep

/-- The free loop accepts the first of two events, after the stamp `0`. -/
theorem timedFilter_occurs_freeTimedLoop : ∃ T,
    freeTimedLoop.constructFilter (Function.Embedding.refl ℕ) letterOrder 1 5 = some T ∧
      (OccursAfter 0 0 [(97, 2)]
          (timedFilter (getAndEnable x86Mask) true T [(97, 2), (98, 3)]) ↔
        OccursAfter 0 0 [(97, 2)] [((97 : UInt8), (2 : ℚ)), (98, 3)]) := by
  obtain ⟨T, -, hT⟩ := exists_builds_freeTimedLoop
  refine ⟨T, hT, timedFilter_occurs freeTimedLoop freeTimedLoop_noMaskLabel
    freeTimedLoop_reachedFit 1 one_pos (getAndEnable x86Mask) enables_x86Mask_one
    (Function.Embedding.refl ℕ) letterOrder 5 T hT [(97, 2), (98, 3)] (by decide +kernel) 0
    [(97, 2)] (by simp) (by decide +kernel)⟩

end MooreFilter
