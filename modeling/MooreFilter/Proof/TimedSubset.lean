/-
  The timed determinisation.

  * `IsPartition.exists_part`: the part of a delay; `target_of_forall₂`: the
    binary search in the transitions made for the parts finds its state;
  * `MadeFor b t s`: the state `t` was made for the configurations `s`, as a set;
  * `addPart_spec`, `foldl_addPart`, `foldl_addParts`: the loops, which write to
    one state and make others (`GrowsParts`);
  * `Zones T b` is the invariant of `toTimedMooreMachine`: the transitions of a
    state lead to states made for the parts of its successors, but for the states
    in `T`, which have none yet;
  * `Zones.holdsExactly_stateAfter`: the state after a word was made for the
    configurations of the runs over its suffixes.
-/
import MooreFilter.Proof.Subset
import MooreFilter.Proof.ZoneGraph

namespace MooreFilter

open Masking (suffixEval suffixEval_nil suffixEval_append_singleton)

variable {n : ℕ}

/-! ## Finding the part of a delay -/

theorem mem_classes {l : List (Conf n)} {k : Ptr × (Fin (n + 1) → Fin (n + 1) → Bounds)} :
    k ∈ classes l ↔ ∃ q ∈ l, classOf q = k := by
  simp [classes]

theorem IsPartition.exists_part {init : List (Conf n)} {es : List (Entry n)}
    {parts : List (Part n)} (h : IsPartition init es parts) {t : ℚ} (ht : 0 < t) :
    ∃ part, partAt parts t = some part ∧ part ∈ parts ∧ ∀ k, (∃ q ∈ part.1, classOf q = k) ↔
      (∃ q ∈ init, classOf q = k) ∨ ∃ e ∈ es, e.Active t ∧ classOf e.conf = k := by
  obtain ⟨part, hpart, hcl⟩ := h.find t ht
  refine ⟨part, hpart, List.mem_of_find?_eq_some hpart, fun k => ?_⟩
  rw [← mem_classes, hcl, classesAt, Multiset.mem_add, mem_classes]
  refine or_congr_right ?_
  unfold classesOf
  rw [mem_classes]
  simp only [List.mem_map, List.mem_filter, decide_eq_true_eq]
  constructor
  · rintro ⟨_, ⟨e, ⟨he, hact⟩, rfl⟩, hk⟩
    exact ⟨e, he, hact, hk⟩
  · rintro ⟨e, he, hact, hk⟩
    exact ⟨_, ⟨e, ⟨he, hact⟩, rfl⟩, hk⟩

/-- All delays are in a part up to infinity. -/
theorem partAt_infinity (cs : List (Conf n)) (t : ℚ) :
    partAt [(cs, (((⊤ : WithTop ℚ) : Double), false))] t =
      some (cs, (((⊤ : WithTop ℚ) : Double), false)) := by
  unfold partAt
  rw [List.find?_cons_of_pos]
  exact decide_eq_true (Prod.Lex.toLex_le_toLex.2
    (Or.inl (WithBot.coe_lt_coe.2 (WithTop.coe_lt_top _))))

/-- The transitions of a letter, made for sorted parts: the search for a delay
    finds the transition made for its part. -/
theorem target_of_forall₂ {R : DRTATransition → Part n → Prop} {trs : List DRTATransition}
    {parts : List (Part n)} (h : List.Forall₂ R trs parts)
    (hR : ∀ tr part, R tr part → tr.upperBound = part.2)
    (hsorted : parts.Pairwise fun p q => toLex p.2 ≤ toLex q.2) {t : ℚ} {part : Part n}
    (hpart : partAt parts t = some part) :
    ∃ tr, trs[Search.lowerBound (fun e => e.lt t) trs]? = some tr ∧ R tr part := by
  have hlt : trs.Pairwise fun x y => y.lt t = true → x.lt t = true := by
    refine Related.pairwise h hsorted fun x y b b' hx hy hle => ?_
    rw [lt_iff_lt_at, lt_iff_lt_at, hR _ _ hx, hR _ _ hy]
    exact hle.trans_lt
  rw [Search.lowerBound_eq_findIdx hlt, ← List.find?_eq_getElem?_findIdx]
  refine Related.find?_eq_some h (fun x b hx => ?_) hpart
  rw [Bool.eq_iff_iff, Bool.not_eq_true', ← Bool.not_eq_true, lt_iff_lt_at, hR _ _ hx, not_lt,
    decide_eq_true_eq]

/-! ## The loops over the parts -/

section
variable {addr : Ptr ↪ ℕ} {order : Ptr → UInt8 → ℕ} {N : ℕ}
  {A : AutomatonWithCounter TATransition}

/-- The builder's keys and counters. -/
abbrev InternedZones (addr : Ptr ↪ ℕ) (N : ℕ) (A : AutomatonWithCounter TATransition)
    (b : DRTABuilder n) : Prop :=
  b.Interned N (fun p => A.isMatch p.1) (fun p => A.counter p.1) (stateKey addr)

/-- The state `t` was made for the configurations, as a set. -/
def MadeFor (b : DRTABuilder n) (t : Ptr) (s : List (Conf n)) : Prop :=
  t ∈ b.states ∧ ∀ k, k ∈ tuples (b.toOldStates t) ↔ k ∈ tuples s

/-- The transition was made for the part. -/
def Leads (b : DRTABuilder n) (tr : DRTATransition) (part : Part n) : Prop :=
  tr.upperBound = part.2 ∧ MadeFor b tr.target part.1

/-- From `b` to `b'` the states `new` were made, and transitions of `s` added. -/
structure GrowsParts (b : DRTABuilder n) (s : Ptr) (new : List Ptr) (b' : DRTABuilder n) :
    Prop where
  states : b'.states = b.states ++ new
  initial : b'.initialStates = b.initialStates
  old_eq : ∀ p ∈ b.states, b'.toOldStates p = b.toOldStates p
  cell_eq : ∀ p ∈ b.states, p ≠ s → b'.heap.cell p = b.heap.cell p
  cell_new : ∀ p ∈ new, (b'.heap.cell p).nextMap = fun _ => none
  not_mem : s ∈ b.states → s ∉ new

namespace GrowsParts
variable {b b' b'' : DRTABuilder n} {s : Ptr} {new new' : List Ptr}

theorem mono (h : GrowsParts b s new b') {p : Ptr} (hp : p ∈ b.states) : p ∈ b'.states := by
  rw [h.states]; exact List.mem_append_left _ hp

theorem trans (h : GrowsParts b s new b') (h' : GrowsParts b' s new' b'') (hs : s ∈ b.states) :
    GrowsParts b s (new ++ new') b'' where
  states := by rw [h'.states, h.states, List.append_assoc]
  initial := h'.initial.trans h.initial
  old_eq p hp := (h'.old_eq p (h.mono hp)).trans (h.old_eq p hp)
  cell_eq p hp hne := (h'.cell_eq p (h.mono hp) hne).trans (h.cell_eq p hp hne)
  cell_new p hp := by
    rcases List.mem_append.1 hp with hp | hp
    · have hps : p ≠ s := fun e => h.not_mem hs (e ▸ hp)
      rw [h'.cell_eq p (by rw [h.states]; exact List.mem_append_right _ hp) hps]
      exact h.cell_new p hp
    · exact h'.cell_new p hp
  not_mem hs := by
    rw [List.mem_append]
    exact fun e => e.elim (h.not_mem hs) (h'.not_mem (h.mono hs))

theorem madeFor (h : GrowsParts b s new b') {t : Ptr} {l : List (Conf n)} (ht : MadeFor b t l) :
    MadeFor b' t l :=
  ⟨h.mono ht.1, fun k => by rw [h.old_eq t ht.1]; exact ht.2 k⟩

theorem leads (h : GrowsParts b s new b') {tr : DRTATransition} {part : Part n}
    (ht : Leads b tr part) : Leads b' tr part := ⟨ht.1, h.madeFor ht.2⟩

end GrowsParts

variable {b : DRTABuilder n} {s : Ptr}

/-- Writing the transitions of a letter. -/
theorem setNextDRTA_spec (hI : InternedZones addr N A b) (a : UInt8) (es : List DRTATransition) :
    InternedZones addr N A (setNextDRTA b s a es) ∧ GrowsParts b s [] (setNextDRTA b s a es) ∧
      ((setNextDRTA b s a es).heap.cell s).nextMap =
        Function.update (b.heap.cell s).nextMap a (some es) := by
  have hself : (setNextDRTA b s a es).heap.cell s = { b.heap.cell s with
      nextMap := Function.update (b.heap.cell s).nextMap a (some es) } := Heap.cell_write_self _ _ _
  have hne : ∀ {p}, p ≠ s → (setNextDRTA b s a es).heap.cell p = b.heap.cell p :=
    fun hne => Heap.cell_write_of_ne _ _ hne
  refine ⟨{ hI with isMatch_eq := fun p hp => ?_ }, ⟨(List.append_nil _).symm, rfl, fun _ _ => rfl,
    fun p _ hps => hne hps, by simp, by simp⟩, by rw [hself]⟩
  rw [show (setNextDRTA b s a es).toOldStates = b.toOldStates from rfl, ← hI.isMatch_eq p hp]
  rcases eq_or_ne p s with rfl | hps
  · rw [hself]; rfl
  · rw [hne hps]

/-- The body of the loop over the parts: the state of the part is found, or made. -/
theorem addPart_spec (hI : InternedZones addr N A b) (hs : s ∈ b.states) (a : UInt8)
    (currStates : List Ptr) (part : Part n) :
    ∃ b' new t, addPart addr N A s a (b, currStates) part = (b', currStates ++ new) ∧
      InternedZones addr N A b' ∧ GrowsParts b s new b' ∧ Leads b' ⟨part.2, t⟩ part ∧
      (b'.heap.cell s).nextMap = Function.update (b.heap.cell s).nextMap a
        (some (((b.heap.cell s).nextMap a).getD [] ++ [⟨part.2, t⟩])) ∧
      (new = [] ∧ b'.toNewState = b.toNewState ∧ b'.toOldStates = b.toOldStates ∨
        new = [t] ∧ b.toNewState (lookupKey addr part.1) = none ∧
          b'.toNewState = Function.update b.toNewState (stateKey addr part.1) (some t) ∧
          b'.toOldStates t = part.1) := by
  unfold addPart
  dsimp only
  cases hlk : b.toNewState (lookupKey addr part.1) with
  | some t =>
    obtain ⟨ht, hkey⟩ := hI.lookup _ _ hlk
    obtain ⟨hI', hg, hnext⟩ := setNextDRTA_spec (s := s) hI a
      (((b.heap.cell s).nextMap a).getD [] ++ [⟨part.2, t⟩])
    exact ⟨_, [], t, by rw [List.append_nil]; rfl, hI', hg,
      hg.leads ⟨rfl, ht, fun k => Sorting.mem_of_sortBy_eq hkey⟩, hnext, Or.inl ⟨rfl, rfl, rfl⟩⟩
  | none =>
    obtain ⟨t, b₁, curr₁, he⟩ : ∃ t b₁ curr₁,
      addNewDRTAState addr N A part.1 (b, currStates) = (t, b₁, curr₁) := ⟨_, _, _, rfl⟩
    obtain ⟨hI₁, ht, hst, rfl, hin, hnew, hold, hcell⟩ :=
      hI.addNewState (fun _ => rfl) currStates he
    have hst' : s ≠ t := fun e => ht (e ▸ hs)
    have hg₁ : GrowsParts b s [t] b₁ := by
      refine ⟨hst, hin, fun p hp => ?_, fun p hp _ => ?_, fun p hp => ?_, fun _ => by simpa⟩
      · rw [hold, Function.update_of_ne fun e : p = t => ht (e ▸ hp)]
      · rw [hcell, Function.update_of_ne fun e : p = t => ht (e ▸ hp)]
      · rw [List.mem_singleton.1 hp, hcell, Function.update_self]
    have hcells : b₁.heap.cell s = b.heap.cell s := by
      rw [hcell, Function.update_of_ne hst']
    have hself : b₁.toOldStates t = part.1 := by rw [hold, Function.update_self]
    obtain ⟨hI', hg, hnext⟩ := setNextDRTA_spec (s := s) hI₁ a
      (((b₁.heap.cell s).nextMap a).getD [] ++ [⟨part.2, t⟩])
    have hlead : Leads b₁ ⟨part.2, t⟩ part :=
      ⟨rfl, by rw [hst]; simp, fun k => by change k ∈ tuples (b₁.toOldStates t) ↔ _; rw [hself]⟩
    rw [hcells] at hnext
    refine ⟨pushNextDRTA b₁ s a part.2 t, [t], t, by simp only [he], hI', ?_, hg.leads hlead, ?_,
      Or.inr ⟨rfl, rfl, hnew, hself⟩⟩
    · have := hg₁.trans hg hs
      rwa [List.append_nil] at this
    · unfold pushNextDRTA; rw [hcells]; exact hnext

theorem GrowsParts.refl : GrowsParts b s [] b :=
  ⟨(List.append_nil _).symm, rfl, fun _ _ => rfl, fun _ _ _ => rfl, by simp, by simp⟩

/-- The loop over the parts of a letter. -/
theorem foldl_addPart (hI : InternedZones addr N A b) (hs : s ∈ b.states) (a : UInt8)
    (currStates : List Ptr) (parts : List (Part n)) (trs₀ : List DRTATransition)
    (htrs₀ : (b.heap.cell s).nextMap a = some trs₀) :
    ∃ b' new trs, parts.foldl (addPart addr N A s a) (b, currStates) = (b', currStates ++ new) ∧
      InternedZones addr N A b' ∧ GrowsParts b s new b' ∧ List.Forall₂ (Leads b') trs parts ∧
      (b'.heap.cell s).nextMap = Function.update (b.heap.cell s).nextMap a (some (trs₀ ++ trs)) ∧
      ∀ p ∈ new, ∃ part ∈ parts, b'.toOldStates p = part.1 := by
  induction parts generalizing b currStates trs₀ with
  | nil =>
    exact ⟨b, [], [], by simp, hI, .refl, .nil,
      by rw [List.append_nil, ← htrs₀, Function.update_eq_self], by simp⟩
  | cons part parts ih =>
    obtain ⟨b₁, new₁, t, he₁, hI₁, hg₁, ht, hnext₁, hnew₁⟩ :=
      addPart_spec hI hs a currStates part
    rw [htrs₀, Option.getD_some] at hnext₁
    obtain ⟨b₂, new₂, trs, he₂, hI₂, hg₂, htrs, hnext₂, hnew₂⟩ :=
      ih hI₁ (hg₁.mono hs) (currStates ++ new₁) (trs₀ ++ [⟨part.2, t⟩])
        (by rw [hnext₁, Function.update_self])
    refine ⟨b₂, new₁ ++ new₂, ⟨part.2, t⟩ :: trs, ?_, hI₂, hg₁.trans hg₂ hs,
      .cons (hg₂.leads ht) htrs, ?_, fun p hp => ?_⟩
    · rw [List.foldl_cons, he₁, he₂, List.append_assoc]
    · rw [hnext₂, hnext₁, Function.update_idem, List.append_assoc]; rfl
    · rcases List.mem_append.1 hp with hp | hp
      · rcases hnew₁ with ⟨rfl, -, -⟩ | ⟨rfl, -, -, hold⟩
        · exact absurd hp (by simp)
        · obtain rfl := List.mem_singleton.1 hp
          exact ⟨part, by simp, by rw [hg₂.old_eq p (by rw [hg₁.states]; simp), hold]⟩
      · obtain ⟨part', hpart', hold⟩ := hnew₂ p hp
        exact ⟨part', by simp [hpart'], hold⟩

/-- The loop over the letters. -/
theorem foldl_addParts (hI : InternedZones addr N A b) (hs : s ∈ b.states)
    (currStates : List Ptr) {L : List (UInt8 × List (Part n))} (hL : (L.map Prod.fst).Nodup)
    (hnone : ∀ a ∈ L.map Prod.fst, (b.heap.cell s).nextMap a = none) :
    ∃ b' new, L.foldl (addParts addr N A s) (b, currStates) = (b', currStates ++ new) ∧
      InternedZones addr N A b' ∧ GrowsParts b s new b' ∧
      (∀ nextPair ∈ L, ∃ trs, (b'.heap.cell s).nextMap nextPair.1 = some trs ∧
        List.Forall₂ (Leads b') trs nextPair.2) ∧
      (∀ a, a ∉ L.map Prod.fst → (b'.heap.cell s).nextMap a = (b.heap.cell s).nextMap a) ∧
      ∀ p ∈ new, ∃ nextPair ∈ L, ∃ part ∈ nextPair.2, b'.toOldStates p = part.1 := by
  induction L generalizing b currStates with
  | nil => exact ⟨b, [], by simp, hI, .refl, by simp, fun _ _ => rfl, by simp⟩
  | cons nextPair L ih =>
    obtain ⟨a, parts⟩ := nextPair
    rw [List.map_cons, List.nodup_cons] at hL
    obtain ⟨haL, hL⟩ := hL
    have ha := hnone a (by simp)
    obtain ⟨hI₀, hg₀, hnext₀⟩ := setNextDRTA_spec (s := s) hI a []
    obtain ⟨b₁, new₁, trs, he₁, hI₁, hg₁, htrs, hnext₁, hnew₁⟩ :=
      foldl_addPart hI₀ (hg₀.mono hs) a currStates parts []
        (by rw [hnext₀, Function.update_self])
    rw [hnext₀, Function.update_idem, List.nil_append] at hnext₁
    have hg₀₁ : GrowsParts b s new₁ b₁ := hg₀.trans hg₁ hs
    obtain ⟨b₂, new₂, he₂, hI₂, hg₂, hsome₂, hnone₂, hnew₂⟩ :=
      ih hI₁ (hg₀₁.mono hs) (currStates ++ new₁) hL fun a' ha' => by
          rw [hnext₁, Function.update_of_ne fun e : a' = a => haL (e ▸ ha')]
          exact hnone a' (by simp [ha'])
    refine ⟨b₂, new₁ ++ new₂, ?_, hI₂, hg₀₁.trans hg₂ hs, fun nextPair hp => ?_, fun a' ha' => ?_,
      fun p hp => ?_⟩
    · rw [List.foldl_cons, addParts]
      simp only [ha, Option.getD_none]
      rw [he₁, he₂, List.append_assoc]
    · rcases List.mem_cons.1 hp with rfl | hp
      · refine ⟨trs, ?_, htrs.imp fun _ _ h => hg₂.leads h⟩
        rw [hnone₂ a haL, hnext₁, Function.update_self]
      · exact hsome₂ nextPair hp
    · rw [List.map_cons, List.mem_cons, not_or] at ha'
      rw [hnone₂ a' ha'.2, hnext₁, Function.update_of_ne ha'.1]
    · rcases List.mem_append.1 hp with hp | hp
      · obtain ⟨part, hpart, hold⟩ := hnew₁ p hp
        refine ⟨(a, parts), by simp, part, hpart, ?_⟩
        rw [hg₂.old_eq p (by rw [hg₀₁.states]; exact List.mem_append_right _ hp), hold]
      · obtain ⟨nextPair, hp', part, hpart, hold⟩ := hnew₂ p hp
        exact ⟨nextPair, by simp [hp'], part, hpart, hold⟩

/-! ## The construction -/

variable {M : Bounds}

/-- No entry of `constructNexts` has an initial configuration. -/
def NoReturn (A : AutomatonWithCounter TATransition) (M : Bounds) (l : List (Conf n)) : Prop :=
  ∀ c es, (constructNexts A l).lookup c = some es →
    ∀ e ∈ es, (initConfs A n M).any (sameConf e.conf) = false

/-- The transitions of the state `p` on a letter lead to the parts of its
    successors. -/
def Linked (A : AutomatonWithCounter TATransition) (M : Bounds) (b : DRTABuilder n) (p : Ptr)
    (c : UInt8) : Prop :=
  ((constructNexts A (b.toOldStates p)).lookup c = none ∧ (b.heap.cell p).nextMap c = none) ∨
  ∃ es parts trs, (constructNexts A (b.toOldStates p)).lookup c = some es ∧
    linearlize (initConfs A n M) es = some parts ∧ (b.heap.cell p).nextMap c = some trs ∧
    List.Forall₂ (Leads b) trs parts

/-- The states made so far: they hold nodes of the zone graph, and are linked, but
    for those in `T`, which have no transitions. -/
structure Zones (addr : Ptr ↪ ℕ) (N : ℕ) (A : AutomatonWithCounter TATransition) (M : Bounds)
    (T : Set Ptr) (b : DRTABuilder n) : Prop where
  interned : InternedZones addr N A b
  denotes : ∀ p ∈ b.states, ∀ q ∈ b.toOldStates p, ∃ z ∈ zoneGraph A.toAutomaton n, q.Denotes M z
  initial : ∃ p, b.initialStates = [p] ∧ p ∈ b.states ∧ b.toOldStates p = initConfs A n M
  todo : ∀ p ∈ b.states, p ∈ T → (b.heap.cell p).nextMap = fun _ => none
  linked : ∀ p ∈ b.states, p ∉ T → ∀ c, Linked A M b p c

theorem GrowsParts.linked {new : List Ptr} {b' : DRTABuilder n} (h : GrowsParts b s new b')
    {p : Ptr} (hp : p ∈ b.states) (hps : p ≠ s) {c : UInt8} (hl : Linked A M b p c) :
    Linked A M b' p c := by
  unfold Linked
  rw [h.old_eq p hp, h.cell_eq p hp hps]
  refine hl.imp_right ?_
  rintro ⟨es, parts, trs, hes, hparts, htrs, hleads⟩
  exact ⟨es, parts, trs, hes, hparts, htrs, hleads.imp fun _ _ hlead => h.leads hlead⟩

/-- The successors of nodes of the zone graph fit the sweep, if none is initial. -/
theorem fits_of_mem {l : List (Conf n)}
    (hl : ∀ q ∈ l, ∃ z ∈ zoneGraph A.toAutomaton n, q.Denotes M z) {c : UInt8}
    {es : List (Entry n)} (hes : (constructNexts A l).lookup c = some es)
    (hinit : ∀ e ∈ es, (initConfs A n M).any (sameConf e.conf) = false) :
    ∀ e ∈ es, e.Fits (initConfs A n M) := by
  intro e he
  obtain ⟨p, hp, tr, htr, hsucc⟩ := (mem_constructNexts hes e).1 he
  obtain ⟨z, -, hpz⟩ := hl p hp
  exact hpz.fits htr hsucc (hinit e he)

/-- The result of the sweep is a partition. -/
theorem isPartition_of_linearlize {l : List (Conf n)}
    (hl : ∀ q ∈ l, ∃ z ∈ zoneGraph A.toAutomaton n, q.Denotes M z) {c : UInt8}
    {es : List (Entry n)} (hes : (constructNexts A l).lookup c = some es) {parts : List (Part n)}
    (h : linearlize (initConfs A n M) es = some parts) :
    IsPartition (initConfs A n M) es parts := by
  obtain ⟨parts', hparts', hpartition⟩ := linearlize_spec (initConfs A n M)
    (fits_of_mem hl hes (not_initial_of_linearlize h))
  rwa [Option.some.inj (h.symm.trans hparts')]

/-- The configurations that occur are nodes of the zone graph. -/
theorem exists_denotes_of_occurs {l : List (Conf n)}
    (hl : ∀ q ∈ l, ∃ z ∈ zoneGraph A.toAutomaton n, q.Denotes M z) {c : UInt8}
    {es : List (Entry n)} (hes : (constructNexts A l).lookup c = some es) {q : Conf n}
    (hq : Occurs (initConfs A n M) es q) : ∃ z ∈ zoneGraph A.toAutomaton n, q.Denotes M z := by
  rcases hq with hq | ⟨e, he, rfl⟩
  · obtain ⟨z, hz, hqz⟩ := exists_denotes_of_mem_initConfs hq
    exact ⟨z, start_subset_zoneGraph hz, hqz⟩
  · obtain ⟨p, hp, tr, htr, he⟩ := (mem_constructNexts hes e).1 he
    obtain ⟨z, hz, hpz⟩ := hl p hp
    obtain ⟨z', hz', -, ⟨d, -, hd⟩, hstep⟩ := hpz.of_successor htr he
    exact ⟨z', step_subset_zoneGraph hz (c, d) (hstep d hd), hz'⟩

/-- The loop of `linearlizeNexts` has a result if no successor is initial. -/
theorem exists_linearlizeNexts {l : List (Conf n)}
    (hl : ∀ q ∈ l, ∃ z ∈ zoneGraph A.toAutomaton n, q.Denotes M z) (hA : NoReturn A M l) :
    ∃ L, linearlizeNexts (initConfs A n M) (constructNexts A l) = some L := by
  refine Related.exists_mapM fun e he => ?_
  have hes : (constructNexts A l).lookup e.1 = some e.2 := AList.mem_lookup_iff.2 he
  obtain ⟨parts, hparts, -⟩ :=
    linearlize_spec (initConfs A n M) (fits_of_mem hl hes (hA e.1 e.2 hes))
  exact ⟨_, Option.map_eq_some_iff.2 ⟨parts, hparts, rfl⟩⟩

/-- And only then. -/
theorem noReturn_of_linearlizeNexts {l : List (Conf n)} {L : List (UInt8 × List (Part n))}
    (h : linearlizeNexts (initConfs A n M) (constructNexts A l) = some L) : NoReturn A M l := by
  intro c es hes
  obtain ⟨nextPair, -, hpair⟩ := Related.exists_right (Related.forall₂_of_mapM h) _
    (AList.mem_lookup_iff.1 hes)
  obtain ⟨parts, hparts, -⟩ := Option.map_eq_some_iff.1 hpair
  exact not_initial_of_linearlize hparts

/-- The result of `linearlizeNexts`: the parts of each letter of `nexts`. -/
theorem linearlizeNexts_spec {init : List (Conf n)} {nexts : AList fun _ : UInt8 => List (Entry n)}
    {L : List (UInt8 × List (Part n))} (h : linearlizeNexts init nexts = some L) :
    L.map Prod.fst = nexts.entries.map Sigma.fst ∧
      ∀ nextPair ∈ L, ∃ es, nexts.lookup nextPair.1 = some es ∧
        linearlize init es = some nextPair.2 := by
  have hL := Related.forall₂_of_mapM h
  have hpair : ∀ (e : (_ : UInt8) × List (Entry n)) (nextPair : UInt8 × List (Part n)),
      ((linearlize init e.2).map fun parts => (e.1, parts)) = some nextPair →
        e.1 = nextPair.1 ∧ linearlize init e.2 = some nextPair.2 := by
    intro e nextPair he
    obtain ⟨parts, hparts, rfl⟩ := Option.map_eq_some_iff.1 he
    exact ⟨rfl, hparts⟩
  constructor
  · have : List.Forall₂ (· = ·) (nexts.entries.map Sigma.fst) (L.map Prod.fst) :=
      List.forall₂_map_left_iff.2 (List.forall₂_map_right_iff.2
        (hL.imp fun e nextPair he => (hpair e nextPair he).1))
    rw [List.forall₂_eq_eq_eq] at this
    exact this.symm
  · intro nextPair hp
    obtain ⟨e, he, hep⟩ := Related.exists_left hL nextPair hp
    obtain ⟨h₁, h₂⟩ := hpair e nextPair hep
    exact ⟨e.2, h₁ ▸ AList.mem_lookup_iff.2 he, h₂⟩

theorem iterate_perm {β : Type} (order : UInt8 → ℕ) (m : List (UInt8 × β)) :
    (iterate order m).Perm m :=
  List.perm_insertionSort _ m

/-- The parts of a letter, whenever it is its turn. -/
theorem exists_linearlize_of_mem_iterate {init : List (Conf n)}
    {nexts : AList fun _ : UInt8 => List (Entry n)} {L : List (UInt8 × List (Part n))}
    (h : linearlizeNexts init nexts = some L) {order : UInt8 → ℕ} {a : UInt8} {ps : List (Part n)}
    (hps : (a, ps) ∈ iterate order L) :
    ∃ es, nexts.lookup a = some es ∧ linearlize init es = some ps :=
  (linearlizeNexts_spec h).2 _ ((iterate_perm order L).mem_iff.1 hps)

/-- **The body of the worklist loop** links the state. -/
theorem Zones.addTimedTransitions {T : Set Ptr} (h : Zones addr N A M T b) {p : Ptr}
    (hp : p ∈ b.states) (hpT : p ∈ T) (hA : NoReturn A M (b.toOldStates p))
    (currStates : List Ptr) :
    ∃ b' new, MooreFilter.addTimedTransitions addr order N A M p (b, currStates) =
        some (b', currStates ++ new) ∧
      Zones addr N A M (T \ {p} ∪ {q | q ∈ new}) b' ∧ GrowsParts b p new b' ∧
      ∀ p' ∈ new, ∀ q ∈ b'.toOldStates p', ∃ c es,
        (constructNexts A (b.toOldStates p)).lookup c = some es ∧
          Occurs (initConfs A n M) es q := by
  obtain ⟨L, hL⟩ := exists_linearlizeNexts (h.denotes p hp) hA
  obtain ⟨hkeys, hletter⟩ := linearlizeNexts_spec hL
  -- the order of the letters does not matter
  have hperm := iterate_perm (order p) L
  generalize hit : iterate (order p) L = L' at hperm
  have hkeys : (L'.map Prod.fst).Perm
      ((constructNexts A (b.toOldStates p)).entries.map Sigma.fst) :=
    hkeys ▸ hperm.map Prod.fst
  have hletter := fun nextPair hnp => hletter nextPair (hperm.mem_iff.1 hnp)
  have hnd : (L'.map Prod.fst).Nodup :=
    hkeys.nodup_iff.2 (constructNexts A (b.toOldStates p)).nodupKeys
  obtain ⟨b', new, he, hI, hg, hsome, hnone, hnew⟩ := foldl_addParts h.interned hp currStates hnd
    fun a _ => by rw [h.todo p hp hpT]
  -- the new states hold parts
  have hocc : ∀ p' ∈ new, ∀ q ∈ b'.toOldStates p', ∃ c es,
      (constructNexts A (b.toOldStates p)).lookup c = some es ∧
        Occurs (initConfs A n M) es q := by
    intro p' hp' q hq
    obtain ⟨nextPair, hnp, part, hpart, hold⟩ := hnew p' hp'
    obtain ⟨es, hes, hlin⟩ := hletter nextPair hnp
    have hpartition := isPartition_of_linearlize (h.denotes p hp) hes hlin
    rw [hold] at hq
    exact ⟨_, es, hes, hpartition.occurs part hpart q hq⟩
  refine ⟨b', new, ?_, ⟨hI, fun p' hp' q hq => ?_, ?_, fun p' hp' hT => ?_, fun p' hp' hT c => ?_⟩,
    hg, hocc⟩
  · unfold MooreFilter.addTimedTransitions
    dsimp only
    rw [hL, Option.map_some, hit, he]
  · rw [hg.states] at hp'
    rcases List.mem_append.1 hp' with hp' | hp'
    · rw [hg.old_eq p' hp'] at hq; exact h.denotes p' hp' q hq
    · obtain ⟨c, es, hes, hq⟩ := hocc p' hp' q hq
      exact exists_denotes_of_occurs (h.denotes p hp) hes hq
  · obtain ⟨p₀, hp₀, hps, hpo⟩ := h.initial
    exact ⟨p₀, hg.initial.trans hp₀, hg.mono hps, (hg.old_eq p₀ hps).trans hpo⟩
  · rcases hT with ⟨hT, hne⟩ | hT
    · rw [hg.states] at hp'
      rcases List.mem_append.1 hp' with hp' | hp'
      · rw [hg.cell_eq p' hp' hne]; exact h.todo p' hp' hT
      · exact hg.cell_new p' hp'
    · exact hg.cell_new p' hT
  · rw [Set.mem_union, not_or, Set.mem_sdiff, not_and, not_not] at hT
    obtain ⟨hT, hnew'⟩ := hT
    rw [hg.states] at hp'
    have hp' := (List.mem_append.1 hp').resolve_right hnew'
    rcases eq_or_ne p' p with rfl | hne
    · unfold Linked
      rw [hg.old_eq p' hp]
      by_cases hc : c ∈ L'.map Prod.fst
      · obtain ⟨nextPair, hnp, rfl⟩ := List.mem_map.1 hc
        obtain ⟨es, hes, hlin⟩ := hletter nextPair hnp
        obtain ⟨trs, htrs, hleads⟩ := hsome nextPair hnp
        exact Or.inr ⟨es, _, trs, hes, hlin, htrs, hleads⟩
      · refine Or.inl ⟨?_, ?_⟩
        · rw [AList.lookup_eq_none, AList.mem_keys]
          exact hkeys.mem_iff.not.1 hc
        · rw [hnone c hc, h.todo p' hp hpT]
    · exact hg.linked hp' hne (h.linked p' hp' (fun h' => hne (hT h')) c)

/-- The moments of the construction. -/
def Linking (addr : Ptr ↪ ℕ) (N : ℕ) (A : AutomatonWithCounter TATransition) (M : Bounds)
    (b : DRTABuilder n) (pend : List Ptr) : Prop :=
  Zones addr N A M {p | p ∈ pend} b ∧ (∀ p ∈ pend, p ∈ b.states) ∧ pend.Nodup

theorem Linking.addTimedTransitions {p : Ptr} {rest currStates : List Ptr}
    (h : Linking addr N A M b (p :: rest ++ currStates)) (hA : NoReturn A M (b.toOldStates p)) :
    ∃ b' new, MooreFilter.addTimedTransitions addr order N A M p (b, currStates) =
        some (b', currStates ++ new) ∧
      Linking addr N A M b' (rest ++ (currStates ++ new)) ∧ GrowsParts b p new b' ∧
      ∀ p' ∈ new, ∀ q ∈ b'.toOldStates p', ∃ c es,
        (constructNexts A (b.toOldStates p)).lookup c = some es ∧
          Occurs (initConfs A n M) es q := by
  obtain ⟨h, hmem, hnd⟩ := h
  have hp : p ∈ b.states := hmem p (by simp)
  obtain ⟨b', new, he, h', hg, hocc⟩ := h.addTimedTransitions hp (by simp) hA currStates
  have hnd' : (b.states ++ new).Nodup := hg.states ▸ h'.interned.nodup
  have hnewp : ∀ q ∈ new, q ∉ b.states := fun q hq hqb =>
    (List.nodup_append.1 hnd').2.2 q hqb q hq rfl
  rw [List.cons_append, List.nodup_cons] at hnd
  refine ⟨b', new, he, ⟨?_, fun q hq => ?_, ?_⟩, hg, hocc⟩
  · convert h' using 1
    ext q
    simp only [Set.mem_union, Set.mem_sdiff, Set.mem_ofPred_eq, Set.mem_singleton_iff,
      List.cons_append, List.mem_cons, List.mem_append]
    constructor
    · rintro (hq | hq | hq)
      · exact Or.inl ⟨Or.inr (Or.inl hq), fun e => hnd.1 (e ▸ List.mem_append_left _ hq)⟩
      · exact Or.inl ⟨Or.inr (Or.inr hq), fun e => hnd.1 (e ▸ List.mem_append_right _ hq)⟩
      · exact Or.inr hq
    · rintro (⟨hq | hq | hq, hne⟩ | hq)
      exacts [absurd hq hne, Or.inl hq, Or.inr (Or.inl hq), Or.inr (Or.inr hq)]
  · rw [← List.append_assoc] at hq
    rcases List.mem_append.1 hq with hq | hq
    · exact hg.mono (hmem q (List.mem_cons_of_mem p hq))
    · rw [hg.states]; exact List.mem_append_right _ hq
  · rw [← List.append_assoc]
    refine hnd.2.append (List.nodup_append.1 hnd').2.1 fun q hq hq' => ?_
    exact hnewp q hq' (hmem q (List.mem_cons_of_mem p hq))

/-- The start: one state, for the initial configurations, without transitions. -/
theorem drtaStart_spec (addr : Ptr ↪ ℕ) (N : ℕ) (A : AutomatonWithCounter TATransition) (n : ℕ)
    (M : Bounds) : ∃ (q : Ptr) (b : DRTABuilder n), drtaStart addr N A M = (b, [q]) ∧
      InternedZones addr N A b ∧ b.states = [q] ∧ b.initialStates = [q] ∧
      b.toOldStates q = initConfs A n M ∧ (b.heap.cell q).nextMap = (fun _ => none) ∧
      b.toNewState (stateKey addr (initConfs A n M)) = some q := by
  obtain ⟨q, b, curr, he⟩ : ∃ q b curr, addNewDRTAState addr N A (initConfs A n M)
    (SubsetBuilder.empty fun m => ⟨m, fun _ => none⟩, []) = (q, b, curr) := ⟨_, _, _, rfl⟩
  have hI : InternedZones addr N A
      (SubsetBuilder.empty fun m => (⟨m, fun _ => none⟩ : DRTAState) : DRTABuilder n) :=
    SubsetBuilder.interned_empty
  obtain ⟨hI, -, hst, rfl, -, hnew, hold, hcell⟩ := hI.addNewState (fun _ => rfl) [] he
  refine ⟨q, { b with initialStates := [q] }, ?_, { hI with }, hst, rfl, ?_, ?_, ?_⟩
  · rw [drtaStart, he]; rfl
  · rw [show b.toOldStates = _ from hold, Function.update_self]
  · rw [show b.heap.cell = _ from hcell, Function.update_self]
  · rw [show b.toNewState = _ from hnew, Function.update_self]

theorem drtaStart_linking :
    Linking addr N A M (drtaStart (n := n) addr N A M).1 (drtaStart (n := n) addr N A M).2 := by
  obtain ⟨q, b, he, hI, hst, hin, hself, hnext, -⟩ := drtaStart_spec addr N A n M
  have hmem : ∀ {p}, p ∈ b.states → p = q := by intro p hp; rw [hst] at hp; simpa using hp
  have hq : q ∈ b.states := by rw [hst]; exact List.mem_singleton_self q
  rw [he]
  refine ⟨⟨hI, fun p hp q' hq' => ?_, ⟨q, hin, hq, hself⟩, fun p hp _ => ?_, fun p hp hT => ?_⟩,
    fun p hp => hst ▸ hp, List.nodup_singleton q⟩
  · rw [hmem hp, hself] at hq'
    obtain ⟨z, hz, hqz⟩ := exists_denotes_of_mem_initConfs hq'
    exact ⟨z, start_subset_zoneGraph hz, hqz⟩
  · rw [hmem hp]; exact hnext
  · rw [hmem hp] at hT; exact absurd List.mem_cons_self hT

theorem linking_of_reached {b : DRTABuilder n} {curr rest : List Ptr}
    (hr : Worklist.Reached (addTimedTransitions addr order N A M) (drtaStart addr N A M) b curr
      rest) :
    Linking addr N A M b (rest ++ curr) := by
  refine hr.inv (Linking addr N A M) drtaStart_linking fun b curr p rest b' curr' _ hC he => ?_
  obtain ⟨L, hL, -⟩ := Option.map_eq_some_iff.1 he
  obtain ⟨b₁, new, he₁, hC₁, -⟩ := hC.addTimedTransitions (noReturn_of_linearlizeNexts hL)
  rw [he₁] at he
  obtain ⟨rfl, rfl⟩ := Prod.mk.inj (Option.some.inj he)
  exact hC₁

/-! ## The states after words -/

/-- The list holds the nodes of the zone graph in `S`. -/
def HoldsExactly (M : Bounds) (l : List (Conf n)) (S : Set (ZConf n)) : Prop :=
  (∀ q ∈ l, ∃ z ∈ S, q.Denotes M z) ∧ ∀ z ∈ S, ∃ q ∈ l, q.Denotes M z

theorem holdsExactly_initConfs :
    HoldsExactly M (initConfs A n M) (zoneNFA A.toAutomaton n).start :=
  ⟨fun _ hq => exists_denotes_of_mem_initConfs hq, fun _ hz => exists_mem_initConfs hz⟩

/-- The tuples have the states of the configurations. -/
theorem exists_mem_tuples {l : List (Conf n)} {P : Ptr → Prop} :
    (∃ k ∈ tuples l, P k.1) ↔ ∃ q ∈ l, P q.1 := by
  simp [tuples]

/-- Lists with the same tuples hold the same nodes. -/
theorem HoldsExactly.of_tuples {l l' : List (Conf n)} {S : Set (ZConf n)}
    (h : HoldsExactly M l S) (hl' : ∀ q ∈ l', ∃ z, q.Denotes M z)
    (ht : ∀ k, k ∈ tuples l' ↔ k ∈ tuples l) : HoldsExactly M l' S := by
  have hmem : ∀ {l : List (Conf n)} {k}, k ∈ tuples l ↔ ∃ q ∈ l, (q.1, q.2.toTuple) = k :=
    List.mem_map
  constructor
  · intro q hq
    obtain ⟨z, hz⟩ := hl' q hq
    obtain ⟨q', hq', he⟩ := hmem.1 ((ht _).1 (hmem.2 ⟨q, hq, rfl⟩))
    obtain ⟨z', hz'S, hz'⟩ := h.1 q' hq'
    rw [hz'.tuple_iff hz] at he
    exact ⟨z, he ▸ hz'S, hz⟩
  · intro z hz
    obtain ⟨q', hq', hq'z⟩ := h.2 z hz
    obtain ⟨q, hq, he⟩ := hmem.1 ((ht _).2 (hmem.2 ⟨q', hq', rfl⟩))
    obtain ⟨z', hqz⟩ := hl' q hq
    rw [hqz.tuple_iff hq'z] at he
    exact ⟨q, hq, he ▸ hqz⟩

/-- The entries of a letter, for a delay: the successors of the nodes. -/
theorem HoldsExactly.exists_active_iff {l : List (Conf n)} {S : Set (ZConf n)}
    (h : HoldsExactly M l S) {c : UInt8 × ℚ} {es : List (Entry n)}
    (hes : (constructNexts A l).lookup c.1 = some es) :
    (∀ e ∈ es, e.Active c.2 → ∃ z ∈ (zoneNFA A.toAutomaton n).stepSet S c, e.conf.Denotes M z) ∧
      ∀ z ∈ (zoneNFA A.toAutomaton n).stepSet S c, ∃ e ∈ es, e.Active c.2 ∧ e.conf.Denotes M z := by
  constructor
  · intro e he hact
    obtain ⟨p, hp, tr, htr, he⟩ := (mem_constructNexts hes e).1 he
    obtain ⟨z, hz, hpz⟩ := h.1 p hp
    obtain ⟨z', hz', -, -, hstep⟩ := hpz.of_successor htr he
    exact ⟨z', NFA.mem_stepSet.2 ⟨z, hz, hstep c.2 hact⟩, hz'⟩
  · intro z' hz'
    obtain ⟨z, hz, hstep⟩ := NFA.mem_stepSet.1 hz'
    obtain ⟨p, hp, hpz⟩ := h.2 z hz
    obtain ⟨tr, htr, e, he, hact, hez⟩ := hpz.exists_successor hstep
    exact ⟨e, (mem_constructNexts hes e).2 ⟨p, hp, tr, htr, he⟩, hact, hez⟩

/-- Without transitions on the letter there are no successors. -/
theorem HoldsExactly.stepSet_eq_empty {l : List (Conf n)} {S : Set (ZConf n)}
    (h : HoldsExactly M l S) {c : UInt8 × ℚ} (hc : ∀ q ∈ l, A.next q.1 c.1 = []) :
    (zoneNFA A.toAutomaton n).stepSet S c = ∅ := by
  refine Set.eq_empty_iff_forall_notMem.2 fun z' hz' => ?_
  obtain ⟨z, hz, tr, htr, -⟩ := NFA.mem_stepSet.1 hz'
  obtain ⟨q, hq, hqz⟩ := h.2 z hz
  rw [← hqz.state] at htr
  rw [hc q hq] at htr
  exact absurd htr (by simp)

/-- The part of a delay holds the initial nodes and the successors. -/
theorem holdsExactly_part {l : List (Conf n)} {S : Set (ZConf n)} (h : HoldsExactly M l S)
    {c : UInt8 × ℚ} {es : List (Entry n)} (hes : (constructNexts A l).lookup c.1 = some es)
    {part : List (Conf n)} (hocc : ∀ q ∈ part, ∃ z, q.Denotes M z)
    (hpart : ∀ k, (∃ q ∈ part, classOf q = k) ↔ (∃ q ∈ initConfs A n M, classOf q = k) ∨
      ∃ e ∈ es, e.Active c.2 ∧ classOf e.conf = k) :
    HoldsExactly M part ((zoneNFA A.toAutomaton n).start ∪
      (zoneNFA A.toAutomaton n).stepSet S c) := by
  obtain ⟨hact₁, hact₂⟩ := h.exists_active_iff hes
  constructor
  · intro q hq
    obtain ⟨z, hqz⟩ := hocc q hq
    rcases (hpart _).1 ⟨q, hq, rfl⟩ with ⟨q', hq', he⟩ | ⟨e, he, hd, he'⟩
    · obtain ⟨z', hz', hqz'⟩ := exists_denotes_of_mem_initConfs hq'
      rw [hqz'.classOf_iff hqz] at he
      exact ⟨z, Or.inl (he ▸ hz'), hqz⟩
    · obtain ⟨z', hz', hqz'⟩ := hact₁ e he hd
      rw [hqz'.classOf_iff hqz] at he'
      exact ⟨z, Or.inr (he' ▸ hz'), hqz⟩
  · have key : ∀ {q' : Conf n} {z}, q'.Denotes M z → (∃ q ∈ part, classOf q = classOf q') →
        ∃ q ∈ part, q.Denotes M z := by
      rintro q' z hq'z ⟨q, hq, he⟩
      obtain ⟨z', hqz⟩ := hocc q hq
      rw [hqz.classOf_iff hq'z] at he
      exact ⟨q, hq, he ▸ hqz⟩
    rintro z (hz | hz)
    · obtain ⟨q', hq', hq'z⟩ := exists_mem_initConfs hz
      exact key hq'z ((hpart _).2 (Or.inl ⟨q', hq', rfl⟩))
    · obtain ⟨e, he, hd, hez⟩ := hact₂ z hz
      exact key hez ((hpart _).2 (Or.inr ⟨e, he, hd, rfl⟩))

/-- The events after which the states are known: the delay is positive, or there
    are no transitions on the letter. -/
def Timely (A : AutomatonWithCounter TATransition) (c : UInt8 × ℚ) : Prop :=
  0 < c.2 ∨ ∀ s, s ∈ A.states → A.next s c.1 = []

/-- What the machine can do at an event: it returns to the initial state if there
    are no transitions on the letter, or goes to the state made for the part that
    the delay is in. -/
theorem Zones.nextState_cases (h : Zones addr N A M ∅ b) {p : Ptr} (hp : p ∈ b.states)
    (c : UInt8 × ℚ) :
    ((∀ q ∈ b.toOldStates p, A.next q.1 c.1 = []) ∧ (b.toMachine N).nextState p c ∈ b.states ∧
      b.toOldStates ((b.toMachine N).nextState p c) = initConfs A n M) ∨
    ∃ es parts, (constructNexts A (b.toOldStates p)).lookup c.1 = some es ∧
      linearlize (initConfs A n M) es = some parts ∧
      ∀ part, partAt parts c.2 = some part → MadeFor b ((b.toMachine N).nextState p c) part.1 := by
  obtain ⟨p₀, hp₀, hps, hpo⟩ := h.initial
  rw [SubsetBuilder.nextState_toMachine hp₀]
  rcases h.linked p hp (Set.notMem_empty p) c.1 with ⟨hnone, hmap⟩ |
    ⟨es, parts, trs, hes, hparts, htrs, hleads⟩
  · have hcell : DeterministicState.next (b.heap.cell p) c = none := by
      change (b.heap.cell p).next c = none
      unfold DRTAState.next; rw [hmap]
    rw [hcell]
    exact Or.inl ⟨next_eq_nil_of_constructNexts hnone, hps, hpo⟩
  · refine Or.inr ⟨es, parts, hes, hparts, fun part hpart => ?_⟩
    obtain ⟨tr, htr, -, hmade⟩ := target_of_forall₂ hleads (fun _ _ hl => hl.1)
      (isPartition_of_linearlize (h.denotes p hp) hes hparts).sorted hpart
    have hcell : DeterministicState.next (b.heap.cell p) c = some tr.target := by
      change (b.heap.cell p).next c = some tr.target
      unfold DRTAState.next; rw [htrs]; dsimp only; rw [htr]; rfl
    rw [hcell]
    exact hmade

/-- The part of a timely event holds the initial configurations and those of the
    active entries. -/
theorem Zones.exists_part (hst : ∀ z ∈ zoneGraph A.toAutomaton n, z.1 ∈ A.states)
    (h : Zones addr N A M ∅ b) {p : Ptr} (hp : p ∈ b.states) {c : UInt8 × ℚ} (hc : Timely A c)
    {es : List (Entry n)} (hes : (constructNexts A (b.toOldStates p)).lookup c.1 = some es)
    {parts : List (Part n)} (hparts : linearlize (initConfs A n M) es = some parts) :
    ∃ part, partAt parts c.2 = some part ∧ part ∈ parts ∧
      ∀ k, (∃ q ∈ part.1, classOf q = k) ↔ (∃ q ∈ initConfs A n M, classOf q = k) ∨
        ∃ e ∈ es, e.Active c.2 ∧ classOf e.conf = k := by
  rcases hc with hc | hc
  · exact (isPartition_of_linearlize (h.denotes p hp) hes hparts).exists_part hc
  · -- without entries there is one part
    obtain rfl : es = [] := List.eq_nil_iff_forall_not_mem.2 fun e he => by
      obtain ⟨q, hq, tr, htr, -⟩ := (mem_constructNexts hes e).1 he
      obtain ⟨z, hz, hqz⟩ := h.denotes p hp q hq
      rw [hc q.1 (hqz.state ▸ hst z hz)] at htr
      exact absurd htr (by simp)
    rw [linearlize_of_always (by simp)] at hparts
    obtain rfl := Option.some.inj hparts
    exact ⟨_, partAt_infinity _ _, List.mem_singleton_self _, by simp⟩

/-- **One event.** -/
theorem Zones.holdsExactly_nextState
    (hst : ∀ z ∈ zoneGraph A.toAutomaton n, z.1 ∈ A.states) (h : Zones addr N A M ∅ b) {p : Ptr}
    (hp : p ∈ b.states) {S : Set (ZConf n)} (hpS : HoldsExactly M (b.toOldStates p) S)
    {c : UInt8 × ℚ} (hc : Timely A c) :
    (b.toMachine N).nextState p c ∈ b.states ∧
      HoldsExactly M (b.toOldStates ((b.toMachine N).nextState p c))
        ((zoneNFA A.toAutomaton n).start ∪ (zoneNFA A.toAutomaton n).stepSet S c) := by
  rcases h.nextState_cases hp c with ⟨hnil, hmem, hold⟩ | ⟨es, parts, hes, hparts, hmade⟩
  · rw [hpS.stepSet_eq_empty hnil, Set.union_empty, hold]
    exact ⟨hmem, holdsExactly_initConfs⟩
  · obtain ⟨part, hpart, hmem, hiff⟩ := h.exists_part hst hp hc hes hparts
    obtain ⟨hnext, htup⟩ := hmade part hpart
    have hdenotes : ∀ q ∈ part.1, ∃ z, q.Denotes M z := by
      intro q hq
      have hpartition := isPartition_of_linearlize (h.denotes p hp) hes hparts
      obtain ⟨z, -, hqz⟩ := exists_denotes_of_occurs (h.denotes p hp) hes
        (hpartition.occurs part hmem q hq)
      exact ⟨z, hqz⟩
    refine ⟨hnext, (holdsExactly_part hpS hes hdenotes hiff).of_tuples (fun q hq => ?_) htup⟩
    obtain ⟨z, -, hqz⟩ := h.denotes _ hnext q hq
    exact ⟨z, hqz⟩

/-- **The states after words** hold the nodes of the runs over the suffixes. -/
theorem Zones.holdsExactly_stateAfter
    (hst : ∀ z ∈ zoneGraph A.toAutomaton n, z.1 ∈ A.states) (h : Zones addr N A M ∅ b)
    {x : List (UInt8 × ℚ)} (hx : ∀ c ∈ x, Timely A c) :
    (b.toMachine N).stateAfter x ∈ b.states ∧
      HoldsExactly M (b.toOldStates ((b.toMachine N).stateAfter x))
        (suffixEval (zoneNFA A.toAutomaton n) x) := by
  obtain ⟨p₀, hp₀, hps, hpo⟩ := h.initial
  induction x using List.reverseRecOn with
  | nil =>
    rw [SubsetBuilder.stateAfter_nil hp₀, hpo, suffixEval_nil]
    exact ⟨hps, holdsExactly_initConfs⟩
  | append_singleton x c ih =>
    obtain ⟨hmem, hold⟩ := ih fun c hc => hx c (List.mem_append_left _ hc)
    rw [MooreMachine.stateAfter_append_singleton, suffixEval_append_singleton]
    exact h.holdsExactly_nextState hst hmem hold (hx c (by simp))

end

end MooreFilter
