/-
  Deep copies.

  * `Copied`, `redirected_edges`, `redirected_states`: what the loops build;
  * `Renames f A A'`: the automaton `A'` has the states of `A` with their names
    changed by `f`;
  * `deepCopy_spec`: the copy is in new memory, the original stays as it is, and the
    copy is the original with other names;
  * `deepCopy_behaves`: the two accept the same words, and have the same filters.
-/
import MooreFilter.DeepCopy
import MooreFilter.Proof.TimedLaws

namespace MooreFilter

open Masking (Included)

/-! ## The states -/

section
variable {A : TimedAutomaton}

/-- The states in `l` are copied, to the addresses from the old end of the memory on. -/
structure Copied (A : TimedAutomaton) (l : List Ptr) (dest : CopyState) : Prop where
  size : dest.heap.size = A.heap.size + l.length
  states : dest.states = (List.range l.length).map fun k => A.heap.size + k
  initialStates : dest.initialStates = []
  cell_old : ∀ p, p < A.heap.size → dest.heap.cell p = A.heap.cell p
  cell_new : ∀ (k : ℕ) old, l[k]? = some old → dest.heap.cell (A.heap.size + k) = A.heap.cell old
  old2new : ∀ old ∈ l, ∃ k : ℕ, l[k]? = some old ∧ dest.old2new old = some (A.heap.size + k)

theorem Copied.copyState {l : List Ptr} {dest : CopyState} (h : Copied A l dest) {old : Ptr}
    (hold : old < A.heap.size) : Copied A (l ++ [old]) (copyState dest old) := by
  have hcell : ∀ p, (MooreFilter.copyState dest old).heap.cell p =
      if p = A.heap.size + l.length then A.heap.cell old else dest.heap.cell p := by
    intro p
    rw [← h.size, ← h.cell_old old hold]
    exact Function.update_apply ..
  refine ⟨?_, ?_, h.initialStates, fun p hp => ?_, fun k old' hk => ?_, fun old' hmem => ?_⟩
  · change dest.heap.size + 1 = _
    rw [h.size, List.length_append, List.length_singleton, Nat.add_assoc]
  · change dest.states ++ [dest.heap.size] = _
    rw [h.states, h.size, List.length_append, List.length_singleton, List.range_succ,
      List.map_append, List.map_singleton]
  · rw [hcell, if_neg (Nat.ne_of_lt (hp.trans_le (Nat.le_add_right _ _)))]
    exact h.cell_old p hp
  · rw [hcell]
    rcases lt_trichotomy k l.length with hk' | rfl | hk'
    · rw [if_neg fun e => hk'.ne (Nat.add_left_cancel e)]
      rw [List.getElem?_append_left hk'] at hk
      exact h.cell_new k old' hk
    · rw [if_pos rfl]
      rw [List.getElem?_append_right le_rfl, Nat.sub_self] at hk
      rw [Option.some.inj hk]
    · rw [List.getElem?_eq_none (by rw [List.length_append, List.length_singleton]; omega)] at hk
      exact absurd hk (by simp)
  · have hmap : (MooreFilter.copyState dest old).old2new old' =
        if old' = old then some (A.heap.size + l.length) else dest.old2new old' := by
      rw [← h.size]
      exact Function.update_apply ..
    rw [hmap]
    split_ifs with he
    · exact ⟨l.length, by rw [he]; simp, rfl⟩
    · rcases List.mem_append.1 hmem with hmem | hmem
      · obtain ⟨k, hk, hnew⟩ := h.old2new old' hmem
        exact ⟨k, by rw [List.getElem?_append_left (List.getElem?_eq_some_iff.1 hk).1, hk], hnew⟩
      · exact absurd (List.mem_singleton.1 hmem) he

/-- What the first loop builds. -/
theorem copied_states (A : TimedAutomaton) (m : Ptr → Option Ptr) :
    Copied A A.states (A.states.foldl copyState ⟨⟨A.heap, [], []⟩, m⟩) := by
  have hlt : ∀ s ∈ A.states, s < A.heap.size := A.states_lt
  generalize A.states = l at hlt
  induction l using List.reverseRecOn with
  | nil => exact ⟨rfl, rfl, rfl, fun _ _ => rfl, by simp, by simp⟩
  | append_singleton l old ih =>
    rw [List.foldl_append]
    exact (ih fun s hs => hlt s (by simp [hs])).copyState (hlt old (by simp))

/-- The second loop looks up the initial states. -/
theorem foldlM_copyInitialState {f : Ptr → Ptr} (dest : CopyState) {l : List Ptr}
    (h : ∀ s ∈ l, dest.old2new s = some (f s)) : l.foldlM copyInitialState dest =
      some { dest with initialStates := dest.initialStates ++ l.map f } := by
  induction l using List.reverseRecOn with
  | nil => simp
  | append_singleton l s ih =>
    rw [List.foldlM_append, ih fun s hs => h s (by simp [hs])]
    change (copyInitialState { dest with initialStates := _ } s >>= pure) = _
    rw [copyInitialState, h s (by simp)]
    simp

/-! ## The transitions -/

/-- The transition to the copy of its target. -/
def redirect (f : Ptr → Ptr) (tr : TATransition) : TATransition := assign tr (f (lock tr))

/-- The transitions of the states in `ps` have been redirected. -/
structure Redirected (f : Ptr → Ptr) (ps : List Ptr) (dest dest' : CopyState) : Prop where
  size : dest'.heap.size = dest.heap.size
  states : dest'.states = dest.states
  initialStates : dest'.initialStates = dest.initialStates
  old2new : dest'.old2new = dest.old2new
  isMatch : ∀ p, dest'.isMatch p = dest.isMatch p
  next : ∀ p ∈ ps, ∀ c, dest'.next p c = (dest.next p c).map (redirect f)
  cell : ∀ p, p ∉ ps → dest'.heap.cell p = dest.heap.cell p

variable {f : Ptr → Ptr} {S : List Ptr}

/-- Some of the transitions of one state: those at the positions in `is`. -/
structure RedirectedAt (f : Ptr → Ptr) (p : Ptr) (is : List (UInt8 × ℕ))
    (dest dest' : CopyState) : Prop where
  size : dest'.heap.size = dest.heap.size
  states : dest'.states = dest.states
  initialStates : dest'.initialStates = dest.initialStates
  old2new : dest'.old2new = dest.old2new
  isMatch : ∀ q, dest'.isMatch q = dest.isMatch q
  next : ∀ c k, (dest'.next p c)[k]? =
    (dest.next p c)[k]?.map fun tr => if (c, k) ∈ is then redirect f tr else tr
  cell : ∀ q, q ≠ p → dest'.heap.cell q = dest.heap.cell q

theorem redirected_edges {dest : CopyState} {p : Ptr}
    (htargets : ∀ c, ∀ tr ∈ dest.next p c, dest.old2new (lock tr) = some (f (lock tr)))
    {is : List (UInt8 × ℕ)} (hnd : is.Nodup) :
    ∃ dest', is.foldlM (redirectEdge p) dest = some dest' ∧ RedirectedAt f p is dest dest' := by
  induction is using List.reverseRecOn with
  | nil => exact ⟨dest, rfl, rfl, rfl, rfl, rfl, fun _ => rfl, by simp, fun _ _ => rfl⟩
  | append_singleton is i ih =>
    obtain ⟨hnd, -, hi⟩ := List.nodup_append.1 hnd
    obtain ⟨d, hd, h⟩ := ih hnd
    have hi : i ∉ is := fun hmem => hi i hmem i (by simp) rfl
    rw [List.foldlM_append, hd]
    change ∃ dest', (redirectEdge p d i >>= pure) = some dest' ∧ _
    have hget := h.next i.1 i.2
    rw [show (i.1, i.2) = i from rfl] at hget
    simp only [if_neg hi, Option.map_id'] at hget
    unfold redirectEdge
    cases htr : (dest.next p i.1)[i.2]? with
    | none =>
      rw [hget, htr]
      refine ⟨d, rfl, h.size, h.states, h.initialStates, h.old2new, h.isMatch, fun c k => ?_,
        h.cell⟩
      rw [h.next]
      rcases eq_or_ne (c, k) i with rfl | hne
      · rw [htr]; rfl
      · simp [hne]
    | some tr =>
      rw [hget, htr]
      dsimp only
      rw [h.old2new, htargets _ tr (List.mem_of_getElem? htr)]
      refine ⟨_, rfl, h.size, h.states, h.initialStates, rfl, fun q => ?_, fun c k => ?_,
        fun q hq => ?_⟩
      · refine Eq.trans (isMatch_write ?_ q) (h.isMatch q)
        rfl
      · change (((d.heap.write p _).cell p).next c)[k]? = _
        rw [Heap.cell_write_self, NDState.getElem?_next_setTarget]
        change (d.next p c)[k]?.map _ = _
        rw [h.next, Option.map_map]
        rcases eq_or_ne (c, k) i with rfl | hne
        · rw [htr]; simp [hi, redirect]
        · simp [hne]
          rfl
      · exact (Heap.cell_write_of_ne _ _ hq).trans (h.cell q hq)

/-- The third loop's body redirects the transitions of the state. -/
theorem redirected_state (dest : CopyState) (p : Ptr)
    (htargets : ∀ c, ∀ tr ∈ dest.next p c, dest.old2new (lock tr) = some (f (lock tr))) :
    ∃ dest', redirectEdges dest p = some dest' ∧ Redirected f [p] dest dest' := by
  obtain ⟨dest', hd, h⟩ := redirected_edges htargets (dest.heap.cell p).nodup_slots
  refine ⟨dest', hd, h.size, h.states, h.initialStates, h.old2new, h.isMatch, fun q hq c => ?_,
    fun q hq => h.cell q fun e => hq (by simp [e])⟩
  rw [List.mem_singleton.1 hq]
  apply List.ext_getElem?
  intro k
  rw [h.next, List.getElem?_map]
  cases htr : (dest.next p c)[k]? with
  | none => rfl
  | some tr =>
    have hk : (c, k) ∈ (dest.heap.cell p).slots :=
      NDState.mem_slots.2 (List.getElem?_eq_some_iff.1 htr).1
    simp [hk]

/-- And the third loop those of all states. -/
theorem redirected_states (dest : CopyState) {ps : List Ptr} (hnd : ps.Nodup)
    (htargets : ∀ p ∈ ps, ∀ c, ∀ tr ∈ dest.next p c,
      dest.old2new (lock tr) = some (f (lock tr))) :
    ∃ dest', ps.foldlM redirectEdges dest = some dest' ∧ Redirected f ps dest dest' := by
  induction ps using List.reverseRecOn with
  | nil => exact ⟨dest, rfl, rfl, rfl, rfl, rfl, fun _ => rfl, by simp, fun _ _ => rfl⟩
  | append_singleton ps p ih =>
    obtain ⟨hnd, -, hp⟩ := List.nodup_append.1 hnd
    have hp : p ∉ ps := fun hmem => hp p hmem p (by simp) rfl
    obtain ⟨d, hd, h⟩ := ih hnd fun q hq => htargets q (by simp [hq])
    -- the state has not been changed yet
    have hnext : ∀ c, d.next p c = dest.next p c := fun c => by
      unfold Automaton.next
      rw [h.cell p hp]
    obtain ⟨d', hd', h'⟩ := redirected_state d p (f := f) (by
      intro c tr htr
      rw [hnext] at htr
      rw [h.old2new]
      exact htargets p (by simp) c tr htr)
    refine ⟨d', ?_, h'.size.trans h.size, h'.states.trans h.states,
      h'.initialStates.trans h.initialStates, h'.old2new.trans h.old2new,
      fun q => (h'.isMatch q).trans (h.isMatch q), fun q hq c => ?_, fun q hq => ?_⟩
    · rw [List.foldlM_append, hd]
      change (redirectEdges d p >>= pure) = _
      rw [hd']; rfl
    · rcases List.mem_append.1 hq with hq | hq
      · have hne : q ∉ [p] := fun e => hp (List.mem_singleton.1 e ▸ hq)
        rw [← h.next q hq]
        unfold Automaton.next
        rw [h'.cell q hne]
      · rw [List.mem_singleton.1 hq, h'.next p (by simp), hnext]
    · rw [List.mem_append, not_or] at hq
      exact (h'.cell q hq.2).trans (h.cell q hq.1)

end

/-! ## Other names -/

/-- The states of `A'` that `f` names are those of `A`, but for their names. -/
structure Renames (f : Ptr → Ptr) (A A' : FiniteAutomaton TATransition) : Prop where
  initialStates : A'.initialStates = A.initialStates.map f
  isMatch : ∀ s ∈ A.states, A'.isMatch (f s) = A.isMatch s
  next : ∀ s ∈ A.states, ∀ c, A'.next (f s) c = (A.next s c).map (redirect f)

section
variable {f : Ptr → Ptr}

/-- The zone graphs read and accept the same words. -/
theorem Renames.included {A A' : FiniteAutomaton TATransition} (h : Renames f A A') (n : ℕ) :
    Included (zoneNFA A.toAutomaton n) (zoneNFA A'.toAutomaton n) ∧
      Included (zoneNFA A'.toAutomaton n) (zoneNFA A.toAutomaton n) := by
  constructor
  · refine Masking.included_of_simulation
      (R := fun (z z' : ZConf n) => z.1 ∈ A.states ∧ z' = (f z.1, z.2)) ?_ ?_ ?_
    · rintro z ⟨hs, hZ⟩
      refine ⟨(f z.1, z.2), ⟨?_, hZ⟩, A.initial_mem _ hs, rfl⟩
      change f z.1 ∈ A'.initialStates
      rw [h.initialStates]; exact List.mem_map_of_mem hs
    · rintro z _ ⟨hs, rfl⟩ c z₁ ⟨tr, htr, hlock, hsucc⟩
      refine ⟨(f z₁.1, z₁.2), ⟨redirect f tr, ?_, ?_, hsucc⟩,
        hlock ▸ A.target_mem _ hs c.1 tr htr, rfl⟩
      · change redirect f tr ∈ A'.next (f z.1) c.1
        rw [h.next _ hs]; exact List.mem_map_of_mem htr
      · change f z₁.1 = _
        rw [hlock]; exact (lock_assign tr (f (lock tr))).symm
    · rintro z _ ⟨hs, rfl⟩ hacc
      exact (h.isMatch _ hs).trans hacc
  · refine Masking.included_of_simulation
      (R := fun (z' z : ZConf n) => z.1 ∈ A.states ∧ z' = (f z.1, z.2)) ?_ ?_ ?_
    · rintro z' ⟨hs, hZ⟩
      have hs : z'.1 ∈ A.initialStates.map f := h.initialStates ▸ hs
      obtain ⟨s, hs, he⟩ := List.mem_map.1 hs
      exact ⟨(s, z'.2), ⟨hs, hZ⟩, A.initial_mem _ hs, Prod.ext he.symm rfl⟩
    · rintro _ z ⟨hs, rfl⟩ c z₁ ⟨tr', htr', hlock, hsucc⟩
      have htr' : tr' ∈ (A.next z.1 c.1).map (redirect f) := h.next _ hs c.1 ▸ htr'
      obtain ⟨tr, htr, rfl⟩ := List.mem_map.1 htr'
      refine ⟨(lock tr, z₁.2), ⟨tr, htr, rfl, hsucc⟩, A.target_mem _ hs c.1 tr htr, ?_⟩
      exact Prod.ext (hlock.trans (lock_assign tr (f (lock tr)))) rfl
    · rintro _ z ⟨hs, rfl⟩ hacc
      exact (h.isMatch _ hs).symm.trans hacc

namespace TimedAutomaton
variable {A A' : TimedAutomaton}

theorem isMemberStep_of_renames (h : Renames f A.toFiniteAutomaton A'.toFiniteAutomaton)
    {CStates : List Config} (hC : ∀ p ∈ CStates, p.1 ∈ A.states) (c : UInt8) (d : ℚ) :
    A'.isMemberStep c d (CStates.map (Prod.map f id)) =
      (A.isMemberStep c d CStates).map (Prod.map f id) := by
  unfold isMemberStep
  rw [List.flatMap_map, List.map_flatMap]
  refine List.flatMap_congr fun p hp => ?_
  dsimp only [Prod.map, id]
  rw [h.next _ (hC p hp), List.filterMap_map, List.map_filterMap]
  refine congrArg (fun g => List.filterMap g (A.next p.1 c)) (funext fun tr => ?_)
  change (if _ then _ else _) = Option.map _ (if _ then _ else _)
  change (if (tr.guard.all fun g => g.satisfy (p.2 g.x + d)) then _ else _) = _
  split_ifs <;> rfl

theorem isMemberLoop_of_renames (h : Renames f A.toFiniteAutomaton A'.toFiniteAutomaton)
    (w : List (UInt8 × ℚ)) (last : Option ℚ) (CStates : List Config)
    (hC : ∀ p ∈ CStates, p.1 ∈ A.states) :
    A'.isMemberLoop last w (CStates.map (Prod.map f id)) =
        (A.isMemberLoop last w CStates).map (Prod.map f id) ∧
      ∀ p ∈ A.isMemberLoop last w CStates, p.1 ∈ A.states := by
  induction w generalizing last CStates with
  | nil => exact ⟨rfl, hC⟩
  | cons e w ih =>
    unfold isMemberLoop
    dsimp only
    rw [isMemberStep_of_renames h hC]
    refine ih _ _ fun p hp => ?_
    obtain ⟨q, hq, tr, htr, -, rfl⟩ := mem_isMemberStep.1 hp
    exact A.target_mem _ (hC q hq) _ tr htr

/-- The two accept the same words. -/
theorem isMember_of_renames (h : Renames f A.toFiniteAutomaton A'.toFiniteAutomaton)
    (w : List (UInt8 × ℚ)) : A'.isMember w = A.isMember w := by
  have hinit : (A'.initialStates.map fun s => ((s, fun _ => 0) : Config)) =
      (A.initialStates.map fun s => ((s, fun _ => 0) : Config)).map (Prod.map f id) := by
    rw [h.initialStates, List.map_map, List.map_map]; rfl
  obtain ⟨hloop, hmem⟩ := isMemberLoop_of_renames h w none
    (A.initialStates.map fun s => ((s, fun _ => 0) : Config)) (by
      intro p hp
      obtain ⟨s, hs, rfl⟩ := List.mem_map.1 hp
      exact A.initial_mem s hs)
  unfold isMember
  rw [hinit, hloop, List.any_map]
  refine Bool.eq_iff_iff.2 ?_
  rw [List.any_eq_true, List.any_eq_true]
  refine exists_congr fun p => and_congr_right fun hp => ?_
  exact Bool.eq_iff_iff.1 (h.isMatch p.1 (hmem p hp))

end TimedAutomaton

end

/-! ## The copy -/

/-- The destination after the three loops: the `k`-th state is copied to the `k`-th new
    address, with the transitions to the copies. -/
structure IsCopy (A : TimedAutomaton) (f : Ptr → Ptr) (dest : CopyState) : Prop where
  size : dest.heap.size = A.heap.size + A.states.length
  states : dest.states = (List.range A.states.length).map fun k => A.heap.size + k
  initialStates : dest.initialStates = A.initialStates.map f
  cell_old : ∀ p, p < A.heap.size → dest.heap.cell p = A.heap.cell p
  old2new : ∀ s ∈ A.states, dest.old2new s = some (f s) ∧
    ∃ k : ℕ, A.states[k]? = some s ∧ f s = A.heap.size + k
  isMatch : ∀ (k : ℕ) s, A.states[k]? = some s → dest.isMatch (A.heap.size + k) = A.isMatch s
  next : ∀ (k : ℕ) s, A.states[k]? = some s → ∀ c,
    dest.next (A.heap.size + k) c = (A.next s c).map (redirect f)

theorem mem_newStates_iff {A : TimedAutomaton} {p : Ptr} :
    p ∈ ((List.range A.states.length).map fun k => A.heap.size + k) ↔
      ∃ (k : ℕ) (s : Ptr), A.states[k]? = some s ∧ p = A.heap.size + k := by
  rw [List.mem_map]
  constructor
  · rintro ⟨k, hk, rfl⟩
    exact ⟨k, _, List.getElem?_eq_getElem (List.mem_range.1 hk), rfl⟩
  · rintro ⟨k, s, hk, rfl⟩
    exact ⟨k, List.mem_range.2 (List.getElem?_eq_some_iff.1 hk).1, rfl⟩

/-- The three loops succeed. -/
theorem exists_deepCopy (A : TimedAutomaton) (old2new : Ptr → Option Ptr) : ∃ f dest,
    A.deepCopy [] [] old2new = some (dest, A.maxConstraints) ∧ IsCopy A f dest := by
  have h := copied_states A old2new
  set d := A.states.foldl copyState ⟨⟨A.heap, [], []⟩, old2new⟩ with hd
  let f : Ptr → Ptr := fun s => (d.old2new s).getD 0
  have hf : ∀ s ∈ A.states, d.old2new s = some (f s) ∧
      ∃ k : ℕ, A.states[k]? = some s ∧ f s = A.heap.size + k := by
    intro s hs
    obtain ⟨k, hk, hnew⟩ := h.old2new s hs
    have hfs : f s = A.heap.size + k := by simp only [f, hnew, Option.getD_some]
    exact ⟨by rw [hfs, hnew], k, hk, hfs⟩
  have hinit := foldlM_copyInitialState d fun s hs => (hf s (A.initial_mem s hs)).1
  set d₁ : CopyState := { d with initialStates := d.initialStates ++ A.initialStates.map f }
  have hnd : d.states.Nodup := by
    rw [h.states]
    exact List.nodup_range.map fun _ _ => Nat.add_left_cancel
  have hmem : ∀ p, p ∈ d₁.states ↔
      ∃ (k : ℕ) (s : Ptr), A.states[k]? = some s ∧ p = A.heap.size + k := fun p => by
    rw [← mem_newStates_iff, ← h.states]
  -- the copies still have the transitions of the old states
  have hcopy : ∀ (k : ℕ) s, A.states[k]? = some s →
      d₁.heap.cell (A.heap.size + k) = A.heap.cell s := fun k s hk => h.cell_new k s hk
  obtain ⟨d₂, hd₂, hr⟩ := redirected_states d₁ (f := f) hnd (by
    intro p hp c tr htr
    obtain ⟨k, s, hk, rfl⟩ := (hmem p).1 hp
    unfold Automaton.next at htr
    rw [hcopy k s hk] at htr
    exact (hf _ (A.target_mem s (List.mem_of_getElem? hk) c tr htr)).1)
  refine ⟨f, d₂, ?_, hr.size.trans h.size, hr.states.trans h.states, ?_, fun p hp => ?_,
    fun s hs => ?_, fun k s hk => ?_, fun k s hk c => ?_⟩
  · change (A.initialStates.foldlM copyInitialState d >>= fun dest =>
      dest.states.foldlM redirectEdges dest >>= fun dest => pure (dest, A.maxConstraints)) = _
    rw [hinit]
    change (d₁.states.foldlM redirectEdges d₁ >>= fun dest => pure (dest, A.maxConstraints)) = _
    rw [hd₂]; rfl
  · rw [hr.initialStates]
    change d.initialStates ++ _ = _
    rw [h.initialStates, List.nil_append]
  · refine (hr.cell p fun hp' => ?_).trans (h.cell_old p hp)
    obtain ⟨k, s, -, rfl⟩ := (hmem p).1 hp'
    exact absurd hp (Nat.not_lt.2 (Nat.le_add_right _ _))
  · rw [hr.old2new]; exact hf s hs
  · refine (hr.isMatch _).trans ?_
    unfold Automaton.isMatch
    rw [hcopy k s hk]
  · rw [hr.next _ ((hmem _).2 ⟨k, s, hk, rfl⟩)]
    unfold Automaton.next
    rw [hcopy k s hk]

namespace IsCopy
variable {A : TimedAutomaton} {f : Ptr → Ptr} {dest : CopyState}

theorem mem_states_iff (h : IsCopy A f dest) {p : Ptr} : p ∈ dest.states ↔
    ∃ (k : ℕ) (s : Ptr), A.states[k]? = some s ∧ p = A.heap.size + k := by
  rw [h.states]; exact mem_newStates_iff

theorem map_mem (h : IsCopy A f dest) {s : Ptr} (hs : s ∈ A.states) : f s ∈ dest.states := by
  obtain ⟨-, k, hk, hfs⟩ := h.old2new s hs
  exact h.mem_states_iff.2 ⟨k, s, hk, hfs⟩

theorem renames (h : IsCopy A f dest) {A' : FiniteAutomaton TATransition}
    (hA' : A'.toAutomaton = dest.toAutomaton) : Renames f A.toFiniteAutomaton A' := by
  refine ⟨by rw [hA']; exact h.initialStates, fun s hs => ?_, fun s hs c => ?_⟩ <;>
    obtain ⟨-, k, hk, hfs⟩ := h.old2new s hs
  · rw [hA', hfs]; exact h.isMatch k s hk
  · rw [hA', hfs]; exact h.next k s hk c

/-- The copy is a timed automaton. -/
theorem exists_timedAutomaton (h : IsCopy A f dest) : ∃ A' : TimedAutomaton,
    A'.toAutomaton = dest.toAutomaton ∧ A'.maxConstraints = A.maxConstraints := by
  refine ⟨{ toAutomaton := dest.toAutomaton
            states_lt := fun p hp => ?_
            initial_mem := fun p hp => ?_
            target_mem := fun p hp c tr htr => ?_
            maxConstraints := A.maxConstraints }, rfl, rfl⟩
  · obtain ⟨k, s, hk, rfl⟩ := h.mem_states_iff.1 hp
    rw [h.size]
    exact Nat.add_lt_add_left (List.getElem?_eq_some_iff.1 hk).1 _
  · rw [h.initialStates] at hp
    obtain ⟨s, hs, rfl⟩ := List.mem_map.1 hp
    exact h.map_mem (A.initial_mem s hs)
  · obtain ⟨k, s, hk, rfl⟩ := h.mem_states_iff.1 hp
    have hnext : tr ∈ (A.next s c).map (redirect f) := h.next k s hk c ▸ htr
    obtain ⟨tr₀, htr₀, rfl⟩ := List.mem_map.1 hnext
    rw [redirect, lock_assign]
    exact h.map_mem (A.target_mem s (List.mem_of_getElem? hk) c tr₀ htr₀)

theorem noMaskLabel (h : IsCopy A f dest) (hA : A.NoMaskLabel) {A' : TimedAutomaton}
    (hA' : A'.toAutomaton = dest.toAutomaton) : A'.NoMaskLabel := by
  intro p hp
  rw [hA'] at hp
  obtain ⟨k, s, hk, rfl⟩ := h.mem_states_iff.1 hp
  rw [hA', h.next k s hk, hA s (List.mem_of_getElem? hk), List.map_nil]

/-- The copy names the clocks that the original does. -/
theorem names_iff (h : IsCopy A f dest) {A' : TimedAutomaton}
    (hA' : A'.toAutomaton = dest.toAutomaton) (x : ClockVariables) : A'.Names x ↔ A.Names x := by
  constructor
  · rintro ⟨p, hp, c, tr', htr', hx⟩
    rw [hA'] at hp htr'
    obtain ⟨k, s, hk, rfl⟩ := h.mem_states_iff.1 hp
    rw [h.next k s hk] at htr'
    obtain ⟨tr, htr, rfl⟩ := List.mem_map.1 htr'
    exact ⟨s, List.mem_of_getElem? hk, c, tr, htr, hx⟩
  · rintro ⟨s, hs, c, tr, htr, hx⟩
    refine ⟨f s, hA' ▸ h.map_mem hs, c, redirect f tr, ?_, hx⟩
    rw [(h.renames hA').next s hs]
    exact List.mem_map_of_mem htr

theorem injOn (h : IsCopy A f dest) : Set.InjOn f {s | s ∈ A.states} := by
  intro s hs s' hs' he
  obtain ⟨-, k, hk, hfs⟩ := h.old2new s hs
  obtain ⟨-, k', hk', hfs'⟩ := h.old2new s' hs'
  obtain rfl : k = k' := Nat.add_left_cancel (hfs.symm.trans (he.trans hfs'))
  exact Option.some.inj (hk.symm.trans hk')

end IsCopy

/-- **Deep copies.** To an empty destination the copy succeeds.  It is in new memory and
    the original is not changed; the map gives each old state its copy, different ones
    to different states; and the copy is the original with these names. -/
theorem deepCopy_spec (A : TimedAutomaton) (old2new : Ptr → Option Ptr) :
    ∃ (A' : TimedAutomaton) (m : Ptr → Option Ptr) (f : Ptr → Ptr),
      A.deepCopy [] [] old2new = some (⟨A'.toAutomaton, m⟩, A'.maxConstraints) ∧
      A'.maxConstraints = A.maxConstraints ∧ A'.states.length = A.states.length ∧
      (∀ p ∈ A'.states, A.heap.size ≤ p) ∧
      (∀ p, p < A.heap.size → A'.heap.cell p = A.heap.cell p) ∧
      (∀ s ∈ A.states, m s = some (f s) ∧ f s ∈ A'.states) ∧
      Set.InjOn f {s | s ∈ A.states} ∧
      Renames f A.toFiniteAutomaton A'.toFiniteAutomaton := by
  obtain ⟨f, dest, hcopy, h⟩ := exists_deepCopy A old2new
  obtain ⟨A', hA', hmax⟩ := h.exists_timedAutomaton
  refine ⟨A', dest.old2new, f, by rw [hcopy, hA', hmax], hmax, ?_, fun p hp => ?_, fun p hp => ?_,
    fun s hs => ⟨(h.old2new s hs).1, ?_⟩, h.injOn, h.renames hA'⟩
  · rw [hA', h.states, List.length_map, List.length_range]
  · rw [hA'] at hp
    obtain ⟨k, s, -, rfl⟩ := h.mem_states_iff.1 hp
    exact Nat.le_add_right _ _
  · rw [hA']; exact h.cell_old p hp
  · rw [hA']; exact h.map_mem hs

/-- **The copy behaves as the original**: if the clocks of the original are below their
    number, so are those of the copy, it accepts the same words, and filters that are made
    for the two have the same output. -/
theorem deepCopy_behaves (A : TimedAutomaton) (hA : ∀ x, A.Names x → x.toNat < A.clockSize)
    (old2new : Ptr → Option Ptr) (A' : TimedAutomaton) (m : Ptr → Option Ptr)
    (h : A.deepCopy [] [] old2new = some (⟨A'.toAutomaton, m⟩, A'.maxConstraints)) :
    (∀ x, A'.Names x → x.toNat < A'.clockSize) ∧
      (∀ w, A'.isMember w = A.isMember w) ∧
      (A.NoMaskLabel → ∀ N, 0 < N → ∀ f f', A.IsFilter N f → A'.IsFilter N f' →
        ∀ w : List (UInt8 × ℚ), (∀ c ∈ w, 0 < c.2) → f w = f' w) := by
  obtain ⟨g, dest, hcopy, hd⟩ := exists_deepCopy A old2new
  obtain ⟨hdest, hmax⟩ := Prod.mk.inj (Option.some.inj (hcopy.symm.trans h))
  have hA' : A'.toAutomaton = dest.toAutomaton := by rw [hdest]
  have hsize : A'.clockSize = A.clockSize := congrArg List.length hmax.symm
  have hren : Renames g A.toFiniteAutomaton A'.toFiniteAutomaton := hd.renames hA'
  refine ⟨fun x hx => hsize ▸ hA x ((hd.names_iff hA' x).1 hx),
    TimedAutomaton.isMember_of_renames hren, fun hmask N hN f f' hf hf' w hw => ?_⟩
  have hM := hf.isMasked hmask hN hw
  have hM' := hf'.isMasked (hd.noMaskLabel hmask hA') hN hw
  rw [hsize] at hM'
  obtain ⟨h₁, h₂⟩ := hren.included A.clockSize
  exact hM.eq_of_releases_iff hM' fun p => ⟨.mono h₁ dvd_rfl hN, .mono h₂ dvd_rfl hN⟩

/-- A copy of the free loop accepts what it does. -/
theorem deepCopy_behaves_freeTimedLoop : ∃ (A' : TimedAutomaton) (m : Ptr → Option Ptr),
    freeTimedLoop.deepCopy [] [] (fun _ => none) = some (⟨A'.toAutomaton, m⟩, A'.maxConstraints) ∧
      A'.isMember [(97, 2)] = freeTimedLoop.isMember [(97, 2)] := by
  obtain ⟨f, dest, hcopy, h⟩ := exists_deepCopy freeTimedLoop fun _ => none
  obtain ⟨A', hA', hmax⟩ := h.exists_timedAutomaton
  have he : freeTimedLoop.deepCopy [] [] (fun _ => none) =
      some (⟨A'.toAutomaton, dest.old2new⟩, A'.maxConstraints) := by rw [hcopy, hA', hmax]
  exact ⟨A', dest.old2new, he,
    (deepCopy_behaves freeTimedLoop freeTimedLoop_buildable.lt_clockSize _ A' _ he).2.1 _⟩

end MooreFilter
