/-
  The absolute time mode.

  * `filterWith_eq`: around any `getOne` and `putOne`, the loop prints the output
    of `filter` for the events read; so in the relative mode it is `filter`
    (`timedFilter_false`);
  * `printed_putOne` and `rel2absTruncate_eq`: what `putOne` and
    `rel2abs_truncate.c` print is the condensed list of the events with the
    delays added up;
  * `timedFilter_true`: the lines of the absolute mode are those of the input,
    with the runs of masked events condensed.
-/
import MooreFilter.AbsTime
import MooreFilter.Lib.Stamps
import MooreFilter.Proof.DelayLine

namespace MooreFilter

open Stamps

/-! ## The loop around `getOne` and `putOne` -/

section
variable {N : ℕ} {α State σ τ β : Type} [Alphabet α] [DeterministicState State α]
  {gae : BitVec N → ℕ → Bool × BitVec N} (getOne : σ → β → α × σ) (putOne : τ → α → List β × τ)

/-- The characters that `getOne` reads. -/
def events : σ → List β → List α
  | _, [] => []
  | s, line :: fin => (getOne s line).1 :: events (getOne s line).2 fin

/-- What `putOne` prints, and its static variables afterwards. -/
def printed (t : τ) (l : List α) : List β × τ :=
  l.foldl (fun st c => (st.1 ++ (putOne st.2 c).1, (putOne st.2 c).2)) ([], t)

omit [Alphabet α] in
theorem printed_append_singleton (t : τ) (l : List α) (c : α) :
    printed putOne t (l ++ [c]) =
      ((printed putOne t l).1 ++ (putOne (printed putOne t l).2 c).1,
        (putOne (printed putOne t l).2 c).2) := by
  rw [printed, List.foldl_append]; rfl

variable {putOne}

/-- The state of the loop belongs to the machine and the output of `filter`. -/
structure Simulates (putOne : τ → α → List β × τ) (t : τ) (st : FilterState N α State σ τ β)
    (A : MooreMachine N α State) (fout : List α) : Prop where
  machine : st.A = A
  printed : (st.fout, st.putState) = printed putOne t fout

variable {t : τ} {st : FilterState N α State σ τ β} {A : MooreMachine N α State} {fout : List α}

theorem Simulates.dropFeed (h : Simulates putOne t st A fout) (c : α) :
    Simulates putOne t (dropFeed gae st c) (A.feed gae c).2 fout := by
  obtain ⟨rfl, hprinted⟩ := h
  exact ⟨rfl, hprinted⟩

theorem Simulates.putFeed (h : Simulates putOne t st A fout) (c : α) :
    Simulates putOne t (putFeed gae putOne st c) (A.feed gae c).2
      (fout ++ [(A.feed gae c).1]) := by
  obtain ⟨rfl, hprinted⟩ := h
  refine ⟨rfl, ?_⟩
  rw [printed_append_singleton, ← hprinted]
  rfl

theorem Simulates.dropFeed_iterate (h : Simulates putOne t st A fout) (n : ℕ) :
    Simulates putOne t ((fun st => MooreFilter.dropFeed gae st maskChar)^[n] st)
      ((fillOne gae)^[n] A) fout := by
  induction n with
  | zero => exact h
  | succ n ih =>
    rw [Function.iterate_succ_apply', Function.iterate_succ_apply']
    exact ih.dropFeed maskChar

theorem Simulates.putFeed_iterate (h : Simulates putOne t st A fout) (n : ℕ) :
    Simulates putOne t ((fun st => MooreFilter.putFeed gae putOne st maskChar)^[n] st)
      ((flushOne gae)^[n] (A, fout)).1 ((flushOne gae)^[n] (A, fout)).2 := by
  induction n with
  | zero => exact h
  | succ n ih =>
    rw [Function.iterate_succ_apply', Function.iterate_succ_apply']
    exact ih.putFeed maskChar

variable (gae) in
/-- The first loop. -/
theorem Simulates.foldl_readLine (fin : List β) :
    ∀ {st : FilterState N α State σ τ β} {A : MooreMachine N α State} {fout : List α},
      Simulates putOne t st A fout → ∀ counter,
      Simulates putOne t (fin.foldl (readLine gae getOne putOne) (st, counter)).1
          ((events getOne st.getState fin).foldl (readOne gae) (A, counter, fout)).1
          ((events getOne st.getState fin).foldl (readOne gae) (A, counter, fout)).2.2 ∧
        (fin.foldl (readLine gae getOne putOne) (st, counter)).2 =
          ((events getOne st.getState fin).foldl (readOne gae) (A, counter, fout)).2.1 := by
  induction fin with
  | nil => exact fun h _ => ⟨h, rfl⟩
  | cons line fin ih =>
    intro st A fout h counter
    simp only [List.foldl_cons, events, readLine, readOne]
    set st' : FilterState N α State σ τ β := { st with getState := (getOne st.getState line).2 }
    have h' : Simulates putOne t st' A fout := ⟨h.machine, h.printed⟩
    split_ifs
    · exact ih (h'.putFeed _) counter
    · exact ih (h'.dropFeed _) (counter + 1)

/-- **The loop prints the output of `filter`.** -/
theorem filterWith_eq (s : σ) (t : τ) (A : MooreMachine N α State) (fin : List β) :
    filterWith gae getOne putOne s t A fin =
      (printed putOne t (filter gae A (events getOne s fin))).1 := by
  have hstart : Simulates putOne t (⟨A, s, t, []⟩ : FilterState N α State σ τ β) A [] := ⟨rfl, rfl⟩
  obtain ⟨hread, hcounter⟩ := Simulates.foldl_readLine gae getOne fin hstart 0
  simp only [filterWith, hcounter]
  exact congrArg Prod.fst ((hread.dropFeed_iterate _).putFeed_iterate _).printed

end

/-! ## What is read and what is printed -/

theorem events_getOne_false (fin : List (UInt8 × ℚ)) (s : ℚ) :
    events (getOne false) s fin = fin := by
  induction fin with
  | nil => rfl
  | cons line fin ih => exact congrArg (line :: ·) ih

theorem events_getOne_true (fin : List (UInt8 × ℚ)) :
    ∀ s : ℚ, events (getOne true) s fin = toDelays s fin := by
  induction fin with
  | nil => intro s; rfl
  | cons line fin ih => intro s; exact congrArg _ (ih line.2)

theorem abs2rel_eq (fin : List (UInt8 × ℚ)) : abs2rel fin = toDelays 0 fin := by
  have key : ∀ (t : ℚ) out, (fin.foldl abs2relOne (t, out)).2 = out ++ toDelays t fin := by
    induction fin with
    | nil => intro t out; exact (List.append_nil out).symm
    | cons line fin ih =>
      intro t out
      rw [List.foldl_cons, abs2relOne, ih, List.append_assoc]; rfl
  exact key 0 []

theorem printed_putOne_false (l : List (UInt8 × ℚ)) (s : PutState) :
    printed (putOne false) s l = (l, s) := by
  induction l using List.reverseRecOn with
  | nil => rfl
  | append_singleton l p ih => rw [printed_append_singleton, ih]; rfl

/-- The event comes out as `_`. -/
def isMasked (p : UInt8 × ℚ) : Bool := p.1 = '_'.toUInt8

/-- The last event, if it is masked. -/
def PutState.last (s : PutState) : Option (UInt8 × ℚ) :=
  if s.truncating then some ('_'.toUInt8, s.lastAbsTime) else none

/-- The lines for an event, and for the events that follow it. -/
theorem putOne_true (s : PutState) (p : UInt8 × ℚ) (l : List (UInt8 × ℚ)) :
    (putOne true s p).1 ++ condenseFrom isMasked (putOne true s p).2.last
        (toStamps (putOne true s p).2.lastAbsTime l) =
      condenseFrom isMasked s.last (toStamps s.lastAbsTime (p :: l)) := by
  obtain ⟨truncating, lastAbsTime⟩ := s
  obtain ⟨c, d⟩ := p
  by_cases hc : c = '_'.toUInt8 <;> cases truncating <;>
    simp [toStamps, condenseFrom, isMasked, putOne, PutState.last, hc]

/-- **What `putOne` prints**: the stamps, with the masked runs condensed. -/
theorem printed_putOne_true (l : List (UInt8 × ℚ)) :
    (printed (putOne true) PutState.start l).1 = condense isMasked (toStamps 0 l) := by
  have key : ∀ (out : List (UInt8 × ℚ)) (s : PutState),
      (l.foldl (fun st p => (st.1 ++ (putOne true st.2 p).1, (putOne true st.2 p).2)) (out, s)).1 =
        out ++ condenseFrom isMasked s.last (toStamps s.lastAbsTime l) := by
    induction l with
    | nil => intro out s; exact (List.append_nil out).symm
    | cons p l ih =>
      intro out s
      rw [List.foldl_cons, ih, List.append_assoc, putOne_true]
  rw [← condenseFrom_none]
  exact key [] PutState.start

/-- The last event, if it is masked. -/
def TruncateState.last (s : TruncateState) : Option (UInt8 × ℚ) :=
  if s.truncating then some (s.lastC, s.lastAbsTime) else none

theorem rel2absTruncateOne_fout (s : TruncateState) (p : UInt8 × ℚ) (l : List (UInt8 × ℚ)) :
    (rel2absTruncateOne s p).fout ++ condenseFrom isMasked (rel2absTruncateOne s p).last
        (toStamps (rel2absTruncateOne s p).absTime l) =
      s.fout ++ condenseFrom isMasked s.last (toStamps s.absTime (p :: l)) := by
  obtain ⟨absTime, truncating, lastC, lastAbsTime, fout⟩ := s
  obtain ⟨c, d⟩ := p
  by_cases hc : c = '_'.toUInt8 <;> cases truncating <;>
    simp [toStamps, condenseFrom, isMasked, rel2absTruncateOne, TruncateState.last, hc]

theorem rel2absTruncate_eq (lastC : UInt8) (lastAbsTime : ℚ) (l : List (UInt8 × ℚ)) :
    rel2absTruncate lastC lastAbsTime l = condense isMasked (toStamps 0 l) := by
  have key : ∀ s : TruncateState, (l.foldl rel2absTruncateOne s).fout =
      s.fout ++ condenseFrom isMasked s.last (toStamps s.absTime l) := by
    induction l with
    | nil => intro s; exact (List.append_nil s.fout).symm
    | cons p l ih => intro s; rw [List.foldl_cons, ih, rel2absTruncateOne_fout]
  rw [← condenseFrom_none]
  exact key _

/-! ## The two modes -/

section
variable {N : ℕ} {State : Type} [DeterministicState State (UInt8 × ℚ)]
  {gae : BitVec N → ℕ → Bool × BitVec N} {A : MooreMachine N (UInt8 × ℚ) State}

/-- In the relative mode the program is `filter`. -/
theorem timedFilter_false (fin : List (UInt8 × ℚ)) :
    timedFilter gae false A fin = filter gae A fin := by
  rw [timedFilter, filterWith_eq, events_getOne_false, printed_putOne_false]

/-- The filter keeps the delays. -/
theorem map_snd_filter (hN : 0 < N) (hA : A.IsFresh) (w : List (UInt8 × ℚ)) :
    (filter gae A w).map Prod.snd = w.map Prod.snd := by
  apply List.ext_getElem?
  intro p
  rw [List.getElem?_map, List.getElem?_map, getElem?_filter hN hA, Option.map_map]
  congr 1
  funext c
  dsimp only [Function.comp_apply]
  split_ifs <;> rfl

/-- The events with their time stamps, where those that come out as `_` are
    replaced by `_`. -/
def stamped (out fin : List (UInt8 × ℚ)) : List (UInt8 × ℚ) :=
  out.zipWith (fun o e => if isMasked o then ('_'.toUInt8, e.2) else e) fin

/-- The stamps of the output are those of the input. -/
theorem toStamps_filter (hN : 0 < N) (hA : A.IsFresh) (fin : List (UInt8 × ℚ)) :
    toStamps 0 (filter gae A (abs2rel fin)) = stamped (filter gae A (abs2rel fin)) fin := by
  have hsnd : (filter gae A (toDelays 0 fin)).map Prod.snd = _ := map_snd_filter hN hA _
  rw [abs2rel_eq, toStamps_eq_zipWith _ _ _ hsnd, stamped]
  apply List.ext_getElem?
  intro p
  rw [List.getElem?_zipWith, List.getElem?_zipWith, getElem?_filter hN hA]
  cases he : fin[p]? with
  | none => cases (toDelays 0 fin)[p]? <;> rfl
  | some e =>
    have hfst : (toDelays 0 fin)[p]?.map Prod.fst = some e.1 := by
      rw [← List.getElem?_map, map_fst_toDelays, List.getElem?_map, he]; rfl
    obtain ⟨c, hc, hce⟩ := Option.map_eq_some_iff.1 hfst
    have hline : (c.1, e.2) = e := Prod.ext hce rfl
    rw [hc]
    -- the event comes out as it is, or as `_`
    by_cases hen : enabled gae A (toDelays 0 fin) p = true
    · by_cases hm : c.1 = '_'.toUInt8 <;> simp [hen, isMasked, hm, hline]
    · simp [hen, isMasked, mask]

/-- **The absolute time mode keeps every time stamp.** -/
theorem timedFilter_true (hN : 0 < N) (hA : A.IsFresh) (fin : List (UInt8 × ℚ)) :
    timedFilter gae true A fin =
        condense isMasked (stamped (filter gae A (abs2rel fin)) fin) ∧
      ∀ lastC lastAbsTime, timedFilter gae true A fin =
        rel2absTruncate lastC lastAbsTime (timedFilter gae false A (abs2rel fin)) := by
  have h : timedFilter gae true A fin =
      condense isMasked (toStamps 0 (filter gae A (abs2rel fin))) := by
    rw [timedFilter, filterWith_eq, events_getOne_true, printed_putOne_true, abs2rel_eq]
  refine ⟨by rw [h, toStamps_filter hN hA], fun lastC lastAbsTime => ?_⟩
  rw [h, timedFilter_false, rel2absTruncate_eq]

end

/-- The timed machine whose counter is `1` after `a`, and `0` after other letters. -/
def afterA : MooreMachine 1 (UInt8 × ℚ) DRTAState where
  heap :=
    { cell := fun _ => ⟨true, fun a =>
        if a = 97 then some [⟨(((⊤ : WithTop ℚ) : Double), false), 1⟩] else none⟩
      size := 2 }
  states := [0, 1]
  initialStates := [0]
  counter p := p
  charBuffer := List.replicate 1 maskChar
  bitBuffer := 0#1
  currentState := 0

/-- Of three masked events the first and the last are printed, and a single one twice. -/
theorem timedFilter_true_afterA :
    condense isMasked (stamped (filter (getAndEnable x86Mask) afterA
        (abs2rel [(98, 2), (99, 3), (98, 4), (97, 5), (98, 6), (97, 9)]))
      [(98, 2), (99, 3), (98, 4), (97, 5), (98, 6), (97, 9)]) =
        [(95, 2), (95, 4), (97, 5), (95, 6), (95, 6), (97, 9)] ∧
    rel2absTruncate 98 7 (timedFilter (getAndEnable x86Mask) false afterA
        (abs2rel [(98, 2), (99, 3), (98, 4), (97, 5), (98, 6), (97, 9)])) =
      [(95, 2), (95, 4), (97, 5), (95, 6), (95, 6), (97, 9)] := by
  have hlines : timedFilter (getAndEnable x86Mask) true afterA
      [(98, 2), (99, 3), (98, 4), (97, 5), (98, 6), (97, 9)] =
        [(95, 2), (95, 4), (97, 5), (95, 6), (95, 6), (97, 9)] := by decide +kernel
  obtain ⟨h, hpipe⟩ : timedFilter (getAndEnable x86Mask) true afterA _ = _ ∧ _ :=
    timedFilter_true (by decide) ⟨rfl, rfl⟩ [(98, 2), (99, 3), (98, 4), (97, 5), (98, 6), (97, 9)]
  exact ⟨h.symm.trans hlines, (hpipe 98 7).symm.trans hlines⟩

end MooreFilter
