/-
  The parts that `linearlizeNexts` makes.

  * `Entry.Proper`: the interval of the entry is not empty and has positive delays only,
    and its configuration is not initial; then it fits the sweep (`Entry.Proper.fits`);
  * `PicksActive init es parts`: the bounds of the parts are sorted up to infinity, and the
    search of `DRTAState::next` for a delay ends at a part that holds the initial
    configurations and those of the entries whose interval contains the delay;
  * `linearlizeNexts_partition`: the sweep makes such parts for each letter.
-/
import MooreFilter.Proof.TimedSubset

namespace MooreFilter

variable {n : ℕ}

/-! ## Entries -/

/-- The interval is not empty, its delays are positive, and the configuration is not
    initial. -/
structure Entry.Proper (init : List (Conf n)) (e : Entry n) : Prop where
  nonempty : ∃ t, e.Active t
  pos : ∀ t, e.Active t → 0 < t
  notInit : ∀ q ∈ init, sameConf e.conf q = false

theorem Entry.Proper.fits {init : List (Conf n)} {e : Entry n} (h : e.Proper init) :
    e.Fits init := by
  obtain ⟨t, ht⟩ := h.nonempty
  have hpos := h.pos t ht
  refine ⟨?_, ?_, List.any_eq_false.2 fun q hq => by simp [h.notInit q hq]⟩
  · -- otherwise the delay `0` would be in the interval, too
    by_contra hlow
    refine lt_irrefl (0 : ℚ) (h.pos 0 ⟨?_, ht.2.anti hpos.le⟩)
    rw [neg_zero, ← Bound.zero_le_iff]; exact Bound.zero_le_of_lt (not_le.1 hlow)
  · have hcuts := (e.active_iff t).1 ht
    exact hcuts.1.trans_le hcuts.2

/-! ## Multiplicities -/

theorem countP_sameConf (l : List (Conf n)) (q : Conf n) :
    l.countP (sameConf q) = (classes l).countP fun k => classOf q = k := by
  unfold classes
  rw [Multiset.coe_countP, List.countP_map]
  refine List.countP_congr fun p _ => ?_
  rw [sameConf_iff, Function.comp_apply, decide_eq_true_eq]

/-- Where `sameConf` is equality, the same multiplicities are the same multisets. -/
theorem perm_of_countP_sameConf {l l' : List (Conf n)}
    (h : ∀ q, l.countP (sameConf q) = l'.countP (sameConf q))
    (heq : ∀ p ∈ l ++ l', ∀ q ∈ l ++ l', sameConf p q = true → p = q) : l.Perm l' := by
  classical
  have hcount : ∀ l₁ : List (Conf n), l₁ ⊆ l ++ l' → ∀ q ∈ l ++ l',
      l₁.count q = l₁.countP (sameConf q) := by
    intro l₁ hsub q hq
    refine List.countP_congr fun p hp => ?_
    rw [beq_iff_eq]
    refine ⟨fun e => ?_, fun e => (heq q hq p (hsub hp) e).symm⟩
    rw [e]; exact sameConf_iff.2 rfl
  refine List.perm_iff_count.2 fun q => ?_
  by_cases hq : q ∈ l ++ l'
  · rw [hcount l (List.subset_append_left _ _) q hq, h,
      hcount l' (List.subset_append_right _ _) q hq]
  · rw [List.mem_append, not_or] at hq
    rw [List.count_eq_zero.2 hq.1, List.count_eq_zero.2 hq.2]

/-! ## The parts -/

/-- The configurations for a delay: the initial ones, and those of the entries whose
    interval contains it. -/
def confsAt (init : List (Conf n)) (es : List (Entry n)) (t : ℚ) : List (Conf n) :=
  init ++ (es.filter fun e => e.Active t).map Entry.conf

/-- The bounds of the parts are sorted and end with infinity, and for each delay the first
    part whose bound is not below it, which the search in the transitions finds, holds the
    configurations for the delay: each as often up to `DBM::operator==`, and so, if that is
    equality on them, exactly these. -/
structure PicksActive (init : List (Conf n)) (es : List (Entry n)) (parts : List (Part n)) :
    Prop where
  sorted : parts.Pairwise fun p q => toLex p.2 ≤ toLex q.2
  last : ∃ p, parts.getLast? = some p ∧ p.2.1 = ((⊤ : WithTop ℚ) : Double)
  pick : ∀ t, 0 < t → ∀ trs : List DRTATransition,
    trs.map DRTATransition.upperBound = parts.map Prod.snd → ∃ i part,
      Search.lowerBound (fun e => e.lt t) trs = i ∧ parts[i]? = some part ∧
      (∀ j e, trs[j]? = some e → (e.lt t = true ↔ j < i)) ∧
      (∀ q, part.1.countP (sameConf q) = (confsAt init es t).countP (sameConf q)) ∧
      ((∀ p ∈ part.1 ++ confsAt init es t, ∀ q ∈ part.1 ++ confsAt init es t,
        sameConf p q = true → p = q) → part.1.Perm (confsAt init es t))

theorem classes_confsAt (init : List (Conf n)) (es : List (Entry n)) (t : ℚ) :
    classes (confsAt init es t) = classesAt init es t :=
  classes_append _ _

/-- The search in the transitions ends at the part for the delay. -/
theorem IsPartition.pick {init : List (Conf n)} {es : List (Entry n)} {parts : List (Part n)}
    (h : IsPartition init es parts) {t : ℚ} (ht : 0 < t) {trs : List DRTATransition}
    (htrs : trs.map DRTATransition.upperBound = parts.map Prod.snd) :
    ∃ part, parts[Search.lowerBound (fun e => e.lt t) trs]? = some part ∧
      (∀ j e, trs[j]? = some e →
        (e.lt t = true ↔ j < Search.lowerBound (fun e => e.lt t) trs)) ∧
      classes part.1 = classesAt init es t := by
  obtain ⟨part, hpart, hclasses⟩ := h.find t ht
  -- the bounds of the transitions are those of the parts
  have hsorted : trs.Pairwise fun x y => y.lt t = true → x.lt t = true := by
    have hbounds : (trs.map DRTATransition.upperBound).Pairwise fun b b' => toLex b ≤ toLex b' := by
      rw [htrs, List.pairwise_map]; exact h.sorted
    refine (List.pairwise_map.1 hbounds).imp fun hle => ?_
    rw [lt_iff_lt_at, lt_iff_lt_at]
    exact hle.trans_lt
  have hidx : trs.findIdx (fun e => !e.lt t) =
      parts.findIdx fun p => decide (CutKey.at t ≤ toLex p.2) := by
    have hlt : (fun e : DRTATransition => !e.lt t) =
        (fun b : Cut => decide (CutKey.at t ≤ toLex b)) ∘ DRTATransition.upperBound := by
      funext e
      rw [Bool.eq_iff_iff, Bool.not_eq_true', ← Bool.not_eq_true, lt_iff_lt_at, not_lt,
        Function.comp_apply, decide_eq_true_eq]
    rw [hlt, ← List.findIdx_map, htrs, List.findIdx_map]
    rfl
  rw [Search.lowerBound_eq_findIdx hsorted]
  refine ⟨part, ?_, fun j e => Search.iff_lt_findIdx hsorted, hclasses⟩
  rw [hidx, ← List.find?_eq_getElem?_findIdx]
  exact hpart

theorem exists_last_closeParts (init : List (Conf n)) (parts : List (Part n)) :
    ∃ p, (closeParts init parts).getLast? = some p ∧
      (p.2.1 = ((⊤ : WithTop ℚ) : Double) ∨ p.2.1 = ⊥) := by
  unfold closeParts
  dsimp only
  cases hl : parts.getLast? with
  | none => exact ⟨_, List.getLast?_concat, Or.inl rfl⟩
  | some p =>
    dsimp only
    split_ifs with hinf
    · exact ⟨p, hl, hinf⟩
    · exact ⟨_, List.getLast?_concat, Or.inl rfl⟩

/-- The last bound is infinite. -/
theorem exists_last_of_linearlize {init : List (Conf n)} {es : List (Entry n)}
    {parts : List (Part n)} (h : linearlize init es = some parts)
    (hp : IsPartition init es parts) :
    ∃ p, parts.getLast? = some p ∧ p.2.1 = ((⊤ : WithTop ℚ) : Double) := by
  obtain ⟨s, -, hs⟩ := Option.map_eq_some_iff.1 h
  obtain ⟨p, hlast, htop⟩ := exists_last_closeParts init s.nextLineared
  rw [hs] at hlast
  refine ⟨p, hlast, htop.resolve_right fun hbot => ?_⟩
  -- the part for the delay `1` has a bound above, and the last one is not below it
  obtain ⟨part, hpart, -⟩ := hp.find 1 one_pos
  have hge : CutKey.at 1 ≤ toLex part.2 := by simpa using List.find?_some hpart
  have hle : toLex part.2 ≤ toLex p.2 := by
    obtain ⟨l, hl⟩ := List.getLast?_eq_some_iff.1 hlast
    have hmem := List.mem_of_find?_eq_some hpart
    have hsorted := hp.sorted
    rw [hl] at hmem hsorted
    rcases List.mem_append.1 hmem with hmem | hmem
    · exact (List.pairwise_append.1 hsorted).2.2 part hmem p (List.mem_singleton_self p)
    · rw [List.mem_singleton.1 hmem]
  rcases Prod.Lex.toLex_le_toLex.1 (hge.trans hle) with hlt | ⟨heq, -⟩
  · rw [hbot] at hlt; exact not_lt_bot hlt
  · rw [hbot] at heq; exact WithBot.coe_ne_bot heq

/-- **The sweep** makes such parts of the entries of a letter. -/
theorem picksActive_of_linearlize {init : List (Conf n)} {es : List (Entry n)}
    (hes : ∀ e ∈ es, e.Proper init) :
    ∃ parts, linearlize init es = some parts ∧ PicksActive init es parts := by
  obtain ⟨parts, hparts, hp⟩ := linearlize_spec init fun e he => (hes e he).fits
  refine ⟨parts, hparts, hp.sorted, exists_last_of_linearlize hparts hp, fun t ht trs htrs => ?_⟩
  obtain ⟨part, hpart, hlt, hclasses⟩ := hp.pick ht htrs
  have hcount : ∀ q, part.1.countP (sameConf q) = (confsAt init es t).countP (sameConf q) := by
    intro q
    rw [countP_sameConf, countP_sameConf, hclasses, classes_confsAt]
  exact ⟨_, part, rfl, hpart, hlt, hcount, perm_of_countP_sameConf hcount⟩

/-- **Parts.** For all letters with proper entries, the sweep ends, and its parts are those of
    the intervals. -/
theorem linearlizeNexts_partition (init : List (Conf n))
    (nexts : AList fun _ : UInt8 => List (Entry n))
    (hnexts : ∀ c es, nexts.lookup c = some es → ∀ e ∈ es, e.Proper init) :
    ∃ L, linearlizeNexts init nexts = some L ∧ L.map Prod.fst = nexts.keys ∧
      ∀ c es, nexts.lookup c = some es → ∃ parts, (c, parts) ∈ L ∧ PicksActive init es parts := by
  have hmem : ∀ e ∈ nexts.entries, nexts.lookup e.1 = some e.2 := fun e he =>
    AList.mem_lookup_iff.2 he
  obtain ⟨L, hL⟩ := Related.exists_mapM (l := nexts.entries)
    (f := fun e => (linearlize init e.2).map fun parts => (e.1, parts)) fun e he => by
      obtain ⟨parts, hparts, -⟩ := picksActive_of_linearlize (hnexts e.1 e.2 (hmem e he))
      exact ⟨(e.1, parts), by rw [hparts]; rfl⟩
  refine ⟨L, hL, (linearlizeNexts_spec hL).1, fun c es hes => ?_⟩
  obtain ⟨nextPair, hpair, he⟩ := Related.exists_right (Related.forall₂_of_mapM hL) ⟨c, es⟩
    (AList.mem_lookup_iff.1 hes)
  obtain ⟨parts, hparts, rfl⟩ := Option.map_eq_some_iff.1 he
  obtain ⟨parts', hparts', hpick⟩ := picksActive_of_linearlize (hnexts c es hes)
  obtain rfl := Option.some.inj (hparts'.symm.trans hparts)
  exact ⟨parts', hpair, hpick⟩

/-- One entry, for the delays up to `1`. -/
def upToOne : Entry 1 := ⟨(0, DBM.zero 1), .fin 0 false, .fin 1 true⟩

theorem upToOne_active (t : ℚ) : upToOne.Active t ↔ 0 < t ∧ t ≤ 1 :=
  and_congr_left fun _ => neg_lt_zero

theorem linearlizeNexts_partition_upToOne : ∃ L,
    linearlizeNexts [] ((∅ : AList fun _ : UInt8 => List (Entry 1)).insert 97 [upToOne]) = some L ∧
      L.map Prod.fst = [97] ∧ ∃ parts, (97, parts) ∈ L ∧ PicksActive [] [upToOne] parts := by
  have hproper : upToOne.Proper [] :=
    ⟨⟨1, (upToOne_active 1).2 (by norm_num)⟩, fun t ht => ((upToOne_active t).1 ht).1, by simp⟩
  obtain ⟨L, hL, hkeys, hparts⟩ := linearlizeNexts_partition []
    ((∅ : AList fun _ : UInt8 => List (Entry 1)).insert 97 [upToOne]) fun c es hes e he => by
      by_cases hc : c = 97
      · rw [hc, AList.lookup_insert] at hes
        rw [← Option.some.inj hes] at he
        rw [List.mem_singleton.1 he]; exact hproper
      · rw [AList.lookup_insert_ne hc] at hes
        exact absurd hes (by simp)
  exact ⟨L, hL, hkeys, hparts 97 _ (AList.lookup_insert _)⟩

end MooreFilter
