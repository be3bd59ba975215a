/-
  The sweep of `linearlizeNexts`.

  The delays are cut at the bounds of the entries: a cut is a number with a flag,
  and the delay `t` is below it if `at t ≤ cut`, which is the test of
  `DRTATransition` (`lt_iff_lt_at`).  An entry is active between its two cuts.

  * `Sweep.At BL BU s` is the invariant: the lower bounds up to the cut `BL` and
    the upper bounds up to `BU` are used, and the current configurations are the
    initial ones with those of the entries whose lower bound only is used;
  * `Covers B parts`: up to the cut `B`, the first part whose bound is not below
    the delay holds the configurations of the active entries;
  * `linearlize_spec`: the sweep ends, and its parts cover all delays;
  * `Sweep.Reached` are the sweeps that the calls lead to, in any order;
  * `not_initial_of_linearlize`: it does not end if an entry has an initial
    configuration.
-/
import MooreFilter.TimedMooreMachine
import Mathlib.Data.List.TakeWhile
import Mathlib.Data.Multiset.Filter
import Mathlib.Data.Multiset.UnionInter

namespace MooreFilter

variable {n : ℕ}

/-! ## Cuts -/

/-- Cuts, ordered. -/
abbrev CutKey := Double ×ₗ Bool

/-- The delay `t`, as a cut: the last one that it is not beyond. -/
def CutKey.at (t : ℚ) : CutKey := toLex (((t : WithTop ℚ) : Double), true)

/-- The cut at a lower bound: the delays up to it are too short. -/
def lowerKey (l : Cut) : CutKey := toLex (l.1, !l.2)

/-- There is no cut between those at a number. -/
theorem CutKey.le_of_lt {x : Double} {k : CutKey} (h : toLex (x, false) < k) :
    toLex (x, true) ≤ k := by
  obtain ⟨⟨z, b⟩, rfl⟩ := toLex.surjective k
  refine Prod.Lex.toLex_le_toLex.2 ((Prod.Lex.toLex_lt_toLex.1 h).imp_right fun h => ⟨h.1, ?_⟩)
  have := h.2
  cases b <;> simp at this ⊢

theorem lowerKey_injective : Function.Injective lowerKey := by
  rintro ⟨a, s⟩ ⟨b, t⟩ h
  have := toLex.injective h
  simpa using this

theorem lt_iff_lt_at (e : DRTATransition) (t : ℚ) :
    e.lt t = true ↔ toLex e.upperBound < CutKey.at t := by
  unfold DRTATransition.lt CutKey.at
  rw [Prod.Lex.toLex_lt_toLex]
  simp only [Bool.or_eq_true, decide_eq_true_eq, Bool.and_eq_true, beq_iff_eq, Bool.not_eq_true',
    Bool.lt_iff, and_true]

namespace Entry

/-- The item of `nextsLower`. -/
def lowItem (e : Entry n) : Conf n × Cut :=
  (e.conf, (Double.neg e.lowerBound.toPair.1, e.lowerBound.toPair.2))

/-- The item of `nextsUpper`. -/
def upItem (e : Entry n) : Conf n × Cut := (e.conf, e.upperBound.toPair)

/-- The cut from which on the entry is active. -/
def lowerCut (e : Entry n) : CutKey := lowerKey e.lowItem.2

/-- The cut up to which the entry is active. -/
def upperCut (e : Entry n) : CutKey := toLex e.upItem.2

/-- The delay is within the bounds of the entry. -/
def Active (e : Entry n) (t : ℚ) : Prop := e.lowerBound.Holds (-t) ∧ e.upperBound.Holds t

theorem lowerCut_lt_iff (e : Entry n) (t : ℚ) :
    e.lowerCut < CutKey.at t ↔ e.lowerBound.Holds (-t) := by
  unfold lowerCut lowerKey lowItem CutKey.at
  rw [Prod.Lex.toLex_lt_toLex]
  rcases e.lowerBound with ⟨c, _ | _⟩ | _
  · change ((-c : ℚ) : WithTop ℚ) < ((t : WithTop ℚ) : Double) ∨ _ ∧ true < true ↔ -t < c
    rw [WithBot.coe_lt_coe, WithTop.coe_lt_coe]
    simp [neg_lt]
  · change ((-c : ℚ) : WithTop ℚ) < ((t : WithTop ℚ) : Double) ∨
      (((-c : ℚ) : WithTop ℚ) : Double) = ((t : WithTop ℚ) : Double) ∧ false < true ↔ -t ≤ c
    rw [WithBot.coe_lt_coe, WithTop.coe_lt_coe, WithBot.coe_inj, WithTop.coe_inj,
      and_iff_left (by decide), ← le_iff_lt_or_eq, neg_le]
  · change (⊥ : Double) < ((t : WithTop ℚ) : Double) ∨ _ ∧ _ ↔ True
    simp

theorem le_upperCut_iff (e : Entry n) (t : ℚ) :
    CutKey.at t ≤ e.upperCut ↔ e.upperBound.Holds t := by
  unfold upperCut upItem CutKey.at
  rw [Prod.Lex.toLex_le_toLex]
  rcases e.upperBound with ⟨c, _ | _⟩ | _
  · change ((t : WithTop ℚ) : Double) < ((c : WithTop ℚ) : Double) ∨ _ ∧ _ ↔ t < c
    rw [WithBot.coe_lt_coe, WithTop.coe_lt_coe]
    simp [Bounds.toPair]
  · change ((t : WithTop ℚ) : Double) < ((c : WithTop ℚ) : Double) ∨
      ((t : WithTop ℚ) : Double) = ((c : WithTop ℚ) : Double) ∧ _ ↔ t ≤ c
    rw [WithBot.coe_lt_coe, WithTop.coe_lt_coe, WithBot.coe_inj, WithTop.coe_inj]
    simp only [Bounds.toPair, le_refl, and_true, ← le_iff_lt_or_eq]
  · change ((t : WithTop ℚ) : Double) < ((⊤ : WithTop ℚ) : Double) ∨ _ ∧ _ ↔ True
    rw [WithBot.coe_lt_coe]
    simp

instance (e : Entry n) (t : ℚ) : Decidable (e.Active t) := inferInstanceAs (Decidable (_ ∧ _))

theorem active_iff (e : Entry n) (t : ℚ) :
    e.Active t ↔ e.lowerCut < CutKey.at t ∧ CutKey.at t ≤ e.upperCut := by
  rw [lowerCut_lt_iff, le_upperCut_iff]; rfl

end Entry

theorem lowerKey_le_iff_of_ne {a b : Bounds} (ha : a ≠ .inf) (hb : b ≠ .inf) :
    lowerKey (Double.neg a.toPair.1, a.toPair.2) ≤ lowerKey (Double.neg b.toPair.1, b.toPair.2) ↔
      b ≤ a := by
  rcases a with ⟨c, s⟩ | _ <;> rcases b with ⟨d, t⟩ | _
  · unfold lowerKey
    rw [Prod.Lex.toLex_le_toLex, Bound.fin_le_fin]
    change ((-c : ℚ) : WithTop ℚ) < (((-d : ℚ) : WithTop ℚ) : Double) ∨
      (((-c : ℚ) : WithTop ℚ) : Double) = ((-d : ℚ) : WithTop ℚ) ∧ _ ↔ _
    rw [WithBot.coe_lt_coe, WithTop.coe_lt_coe, WithBot.coe_inj, WithTop.coe_inj, neg_lt_neg_iff,
      neg_inj]
    have : (!s) ≤ (!t) ↔ t ≤ s := by cases s <;> cases t <;> decide
    simp only [Bounds.toPair, this, eq_comm]
  all_goals contradiction

theorem toLex_toPair_le_iff {a b : Bounds} : toLex a.toPair ≤ toLex b.toPair ↔ a ≤ b := by
  rw [Prod.Lex.toLex_le_toLex]
  rcases a with ⟨c, s⟩ | _ <;> rcases b with ⟨d, t⟩ | _
  · rw [Bound.fin_le_fin]
    change ((c : ℚ) : WithTop ℚ) < ((d : WithTop ℚ) : Double) ∨
      ((c : WithTop ℚ) : Double) = ((d : WithTop ℚ) : Double) ∧ _ ↔ _
    rw [WithBot.coe_lt_coe, WithTop.coe_lt_coe, WithBot.coe_inj, WithTop.coe_inj]
    rfl
  · change ((c : ℚ) : WithTop ℚ) < ((⊤ : WithTop ℚ) : Double) ∨ _ ∧ _ ↔ _
    rw [WithBot.coe_lt_coe]; simp
  · change ((⊤ : WithTop ℚ) : Double) < ((d : WithTop ℚ) : Double) ∨
      ((⊤ : WithTop ℚ) : Double) = ((d : WithTop ℚ) : Double) ∧ _ ↔ _
    rw [WithBot.coe_lt_coe, WithBot.coe_inj]; simp
  · simp

/-! ## Multisets of configurations -/

/-- What `sameConf` compares: the state, and the zone but for the entry `(0, 0)`. -/
def classOf (p : Conf n) : Ptr × (Fin (n + 1) → Fin (n + 1) → Bounds) :=
  (p.1, fun i j => if i = 0 ∧ j = 0 then 0 else p.2.value i j)

theorem sameConf_iff {p q : Conf n} : sameConf p q = true ↔ classOf p = classOf q := by
  unfold sameConf classOf DBM.beq
  simp only [Bool.and_eq_true, beq_iff_eq, decide_eq_true_eq, Prod.mk.injEq, funext_iff]
  refine and_congr_right fun _ => forall_congr' fun i => forall_congr' fun j => ?_
  by_cases h : i = 0 ∧ j = 0 <;> simp [h]

/-- Other states are other configurations. -/
theorem any_sameConf_of_state_ne {init : List (Conf n)} {p : Conf n}
    (h : ∀ q ∈ init, q.1 ≠ p.1) : init.any (sameConf p) = false := by
  refine List.any_eq_false.2 fun q hq hsame => ?_
  exact h q hq (beq_iff_eq.1 (Bool.and_eq_true_iff.1 hsame).1).symm

/-- The multiset of the classes of a list of configurations. -/
def classes (l : List (Conf n)) : Multiset (Ptr × (Fin (n + 1) → Fin (n + 1) → Bounds)) :=
  (l.map classOf : List _)

theorem classes_append (l l' : List (Conf n)) : classes (l ++ l') = classes l + classes l' := by
  simp [classes]

theorem classes_cons (p : Conf n) (l : List (Conf n)) :
    classes (p :: l) = classOf p ::ₘ classes l := rfl

theorem classes_eraseP (l : List (Conf n)) (p : Conf n) :
    classes (l.eraseP (sameConf p)) = (classes l).erase (classOf p) := by
  induction l with
  | nil => rfl
  | cons q l ih =>
    by_cases h : classOf p = classOf q
    · rw [List.eraseP_cons_of_pos (sameConf_iff.2 h), classes_cons, h, Multiset.erase_cons_head]
    · rw [List.eraseP_cons_of_neg (fun e => h (sameConf_iff.1 e)), classes_cons, classes_cons,
        Multiset.erase_cons_tail _ (Ne.symm h), ih]

theorem classes_foldl_eraseP (ps : List (Conf n)) (cur : List (Conf n)) :
    classes (ps.foldl (fun cur p => cur.eraseP (sameConf p)) cur) = classes cur - classes ps := by
  induction ps generalizing cur with
  | nil => simp [classes]
  | cons p ps ih =>
    rw [List.foldl_cons, ih, classes_eraseP]
    rw [classes_cons, Multiset.sub_cons]

theorem mem_of_mem_foldl_eraseP {q : Conf n} (ps : List (Conf n)) {cur : List (Conf n)}
    (h : q ∈ ps.foldl (fun cur p => cur.eraseP (sameConf p)) cur) : q ∈ cur := by
  induction ps generalizing cur with
  | nil => exact h
  | cons p ps ih => exact List.mem_of_mem_eraseP (ih h)

/-- The classes of the configurations of the entries with a property. -/
def classesOf (es : List (Entry n)) (P : Entry n → Prop) [DecidablePred P] :
    Multiset (Ptr × (Fin (n + 1) → Fin (n + 1) → Bounds)) :=
  classes ((es.filter fun e => P e).map Entry.conf)

section
variable {es es' : List (Entry n)} {P Q R : Entry n → Prop} [DecidablePred P] [DecidablePred Q]
  [DecidablePred R]

theorem classesOf_eq : classesOf es P =
    ((es : Multiset (Entry n)).filter P).map fun e => classOf e.conf := by
  unfold classesOf classes
  rw [Multiset.filter_coe, Multiset.map_coe, List.map_map]
  rfl

theorem classesOf_perm (h : es.Perm es') : classesOf es P = classesOf es' P := by
  rw [classesOf_eq, classesOf_eq, Multiset.coe_eq_coe.2 h]

theorem classesOf_congr (h : ∀ e ∈ es, P e ↔ Q e) : classesOf es P = classesOf es Q := by
  rw [classesOf_eq, classesOf_eq, Multiset.filter_congr fun e he => h e he]

theorem classesOf_add (h : ∀ e ∈ es, (P e ∨ Q e ↔ R e) ∧ ¬ (P e ∧ Q e)) :
    classesOf es P + classesOf es Q = classesOf es R := by
  rw [classesOf_eq, classesOf_eq, classesOf_eq, ← Multiset.map_add, Multiset.filter_add_filter,
    Multiset.filter_congr fun e he => (h e he).1,
    Multiset.filter_eq_nil.2 fun e he => (h e he).2, add_zero]

end

/-! ## The loops over equal bounds -/

theorem addAll_eq {init : List (Conf n)} {b : Cut} {l : List (Conf n × Cut)}
    (h : ∀ x ∈ l, init.any (sameConf x.1) = false) (cur : List (Conf n)) :
    Sweep.addAll init b l cur = (l.dropWhile fun x => decide (x.2 = b),
      cur ++ (l.takeWhile fun x => decide (x.2 = b)).map Prod.fst) := by
  induction l generalizing cur with
  | nil => simp [Sweep.addAll]
  | cons x l ih =>
    obtain ⟨p, c⟩ := x
    unfold Sweep.addAll
    have hp : init.any (sameConf p) = false := h (p, c) (by simp)
    split_ifs with hc
    · simp_all
    · rw [ih fun x hx => h x (by simp [hx])]
      simp [hc]
    · simp [hc]

theorem removeAll_eq {init : List (Conf n)} {b : Cut} {l : List (Conf n × Cut)}
    (h : ∀ x ∈ l, init.any (sameConf x.1) = false) (cur : List (Conf n)) :
    Sweep.removeAll init b l cur = (l.dropWhile fun x => decide (x.2 = b),
      ((l.takeWhile fun x => decide (x.2 = b)).map Prod.fst).foldl
        (fun cur p => cur.eraseP (sameConf p)) cur) := by
  induction l generalizing cur with
  | nil => simp [Sweep.removeAll]
  | cons x l ih =>
    obtain ⟨p, c⟩ := x
    unfold Sweep.removeAll
    have hp : init.any (sameConf p) = false := h (p, c) (by simp)
    split_ifs with hc
    · simp_all
    · rw [ih fun x hx => h x (by simp [hx])]
      simp [hc]
    · simp [hc]

/-! ## One bound -/

/-- The entries of one letter: the delays are positive, the intervals not empty,
    and the configurations not initial. -/
structure Entry.Fits (init : List (Conf n)) (e : Entry n) : Prop where
  lower_le : e.lowerBound ≤ .fin 0 false
  lt : e.lowerCut < e.upperCut
  notInit : init.any (sameConf e.conf) = false

namespace Entry.Fits
variable {init : List (Conf n)} {e : Entry n}

theorem lower_ne_inf (h : e.Fits init) : e.lowerBound ≠ .inf := by
  intro h'
  have := h.lower_le
  rw [h'] at this
  simp at this

theorem zero_le_lowerCut (h : e.Fits init) : CutKey.at 0 ≤ e.lowerCut := by
  have h0 : CutKey.at 0 = lowerKey (Double.neg (Bounds.toPair (.fin 0 false)).1,
      (Bounds.toPair (.fin 0 false)).2) := by
    unfold CutKey.at lowerKey
    change toLex ((((0 : ℚ) : WithTop ℚ) : Double), true) =
      toLex ((((-0 : ℚ) : WithTop ℚ) : Double), true)
    rw [neg_zero]
  rw [h0]
  exact (lowerKey_le_iff_of_ne (by simp) h.lower_ne_inf).2 h.lower_le

end Entry.Fits

/-- The entries, by their lower bounds. -/
def lowerOrder (es : List (Entry n)) : List (Entry n) :=
  es.insertionSort fun x y => x.lowerBound ≥ y.lowerBound

/-- The entries, by their upper bounds. -/
def upperOrder (es : List (Entry n)) : List (Entry n) :=
  es.insertionSort fun x y => x.upperBound ≤ y.upperBound

theorem lowerOrder_perm (es : List (Entry n)) : (lowerOrder es).Perm es :=
  List.perm_insertionSort _ _

theorem upperOrder_perm (es : List (Entry n)) : (upperOrder es).Perm es :=
  List.perm_insertionSort _ _

theorem pairwise_lowerOrder {init : List (Conf n)} {es : List (Entry n)}
    (h : ∀ e ∈ es, e.Fits init) :
    (lowerOrder es).Pairwise fun e e' => e.lowerCut ≤ e'.lowerCut := by
  have : Std.Total fun x y : Entry n => x.lowerBound ≥ y.lowerBound := ⟨fun x y => le_total _ _⟩
  have : IsTrans (Entry n) fun x y => x.lowerBound ≥ y.lowerBound :=
    ⟨fun x y z hxy hyz => le_trans hyz hxy⟩
  refine (List.pairwise_insertionSort _ es).imp_of_mem fun {x y} hx hy hxy => ?_
  have hx := (h x ((lowerOrder_perm es).mem_iff.1 hx)).lower_ne_inf
  have hy := (h y ((lowerOrder_perm es).mem_iff.1 hy)).lower_ne_inf
  exact (lowerKey_le_iff_of_ne hx hy).2 hxy

theorem pairwise_upperOrder (es : List (Entry n)) :
    (upperOrder es).Pairwise fun e e' => e.upperCut ≤ e'.upperCut := by
  have : Std.Total fun x y : Entry n => x.upperBound ≤ y.upperBound := ⟨fun x y => le_total _ _⟩
  have : IsTrans (Entry n) fun x y => x.upperBound ≤ y.upperBound := ⟨fun x y z => le_trans⟩
  exact (List.pairwise_insertionSort _ es).imp fun hxy => toLex_toPair_le_iff.2 hxy

/-- The loops take the items with the first cut off a sorted vector. -/
theorem takeWhile_front (item : Entry n → Conf n × Cut) {key : Cut → CutKey}
    (hkey : Function.Injective key) {l : List (Entry n)} {b : Cut}
    (hl : l.Pairwise fun e e' => key (item e).2 ≤ key (item e').2)
    (hb : ∀ e ∈ l, key b ≤ key (item e).2) :
    ((l.map item).takeWhile fun x => decide (x.2 = b)) =
        (l.filter fun e => key (item e).2 = key b).map item ∧
      ((l.map item).dropWhile fun x => decide (x.2 = b)) =
        (l.filter fun e => key b < key (item e).2).map item := by
  have hp : l.Pairwise fun e e' => decide ((item e').2 = b) = true →
      decide ((item e).2 = b) = true := by
    refine hl.imp_of_mem fun {e e'} he _ hee' h => ?_
    rw [decide_eq_true_eq] at h ⊢
    rw [h] at hee'
    exact hkey (le_antisymm hee' (hb e he))
  rw [List.takeWhile_map, List.dropWhile_map]
  constructor
  · refine congrArg _ ((Sorting.takeWhile_eq_filter hp).trans (List.filter_congr fun e _ => ?_))
    exact decide_eq_decide.2 hkey.eq_iff.symm
  · refine congrArg _ ((Sorting.dropWhile_eq_filter hp).trans (List.filter_congr fun e he => ?_))
    rw [← decide_not]
    refine decide_eq_decide.2 ⟨fun h => lt_of_le_of_ne (hb e he) fun e' => h (hkey e'.symm),
      fun h e' => h.ne (congrArg key e'.symm)⟩

/-- A vector of the sweep: the items with cuts beyond `B`, in the order of the cuts. -/
structure Pending (item : Entry n → Conf n × Cut) (key : Cut → CutKey) (order : List (Entry n))
    (B : CutKey) (vec : List (Conf n × Cut)) : Prop where
  conf : ∀ e, (item e).1 = e.conf
  injective : Function.Injective key
  sorted : order.Pairwise fun e e' => key (item e).2 ≤ key (item e').2
  eq : vec = (order.filter fun e => B < key (item e).2).map item

namespace Pending
variable {item : Entry n → Conf n × Cut} {key : Cut → CutKey} {order : List (Entry n)} {B : CutKey}
  {vec rest : List (Conf n × Cut)} {p : Conf n} {b : Cut}

theorem exists_of_mem (h : Pending item key order B vec) {x : Conf n × Cut} (hx : x ∈ vec) :
    ∃ e ∈ order, e.conf = x.1 := by
  rw [h.eq] at hx
  obtain ⟨e, he, rfl⟩ := List.mem_map.1 hx
  exact ⟨e, (List.mem_filter.1 he).1, (h.conf e).symm⟩

/-- At the end of the vector, all cuts are used. -/
theorem le_of_nil (h : Pending item key order B vec) (hs : vec = []) :
    ∀ e ∈ order, key (item e).2 ≤ B := by
  intro e he
  refine not_lt.1 fun hlt => ?_
  have hmem : e ∈ order.filter fun e => B < key (item e).2 :=
    List.mem_filter.2 ⟨he, decide_eq_true hlt⟩
  rw [List.map_eq_nil_iff.1 (h.eq.symm.trans hs)] at hmem
  exact List.not_mem_nil hmem

/-- The front is at the next cut. -/
theorem front (h : Pending item key order B vec) (hs : vec = (p, b) :: rest) :
    (∃ e ∈ order, key (item e).2 = key b) ∧ B < key b ∧
      ∀ e ∈ order, B < key (item e).2 → key b ≤ key (item e).2 := by
  obtain ⟨e, l', hl, he, -⟩ := List.map_eq_cons_iff.1 (h.eq.symm.trans hs)
  have hmem : e ∈ order.filter fun e => B < key (item e).2 := by rw [hl]; simp
  obtain ⟨hmem, hlt⟩ := List.mem_filter.1 hmem
  have heb : key (item e).2 = key b := congrArg (fun x : Conf n × Cut => key x.2) he
  refine ⟨⟨e, hmem, heb⟩, heb ▸ of_decide_eq_true hlt, fun e' he' hlt' => ?_⟩
  have hmem' : e' ∈ order.filter fun e => B < key (item e).2 :=
    List.mem_filter.2 ⟨he', decide_eq_true hlt'⟩
  have hpair := h.sorted.filter fun e => B < key (item e).2
  rw [hl] at hmem' hpair
  rw [← heb]
  rcases List.mem_cons.1 hmem' with rfl | hmem'
  · exact le_rfl
  · exact (List.pairwise_cons.1 hpair).1 e' hmem'

/-- What the loops take off the vector, and what they leave. -/
theorem takeWhile_dropWhile (h : Pending item key order B vec) (hs : vec = (p, b) :: rest) :
    (vec.takeWhile fun x => decide (x.2 = b)) =
        (order.filter fun e => key (item e).2 = key b ∧ B < key (item e).2).map item ∧
      (vec.dropWhile fun x => decide (x.2 = b)) =
        (order.filter fun e => key b < key (item e).2 ∧ B < key (item e).2).map item := by
  have hfront := (h.front hs).2.2
  have := takeWhile_front item h.injective (h.sorted.filter fun e => B < key (item e).2) (b := b)
    fun e he => hfront e (List.mem_filter.1 he).1 (of_decide_eq_true (List.mem_filter.1 he).2)
  simpa only [← h.eq, List.filter_filter, ← Bool.decide_and] using this

theorem dropWhile (h : Pending item key order B vec) (hs : vec = (p, b) :: rest) :
    Pending item key order (key b) (vec.dropWhile fun x => decide (x.2 = b)) := by
  refine ⟨h.conf, h.injective, h.sorted, (h.takeWhile_dropWhile hs).2.trans ?_⟩
  refine congrArg _ (List.filter_congr fun e _ => decide_eq_decide.2 ?_)
  exact and_iff_left_of_imp (h.front hs).2.1.trans

theorem length_dropWhile_lt (hs : vec = (p, b) :: rest) :
    (vec.dropWhile fun x => decide (x.2 = b)).length < vec.length := by
  rw [hs, List.dropWhile_cons_of_pos (by simp)]
  exact Nat.lt_succ_of_le (List.dropWhile_sublist _).length_le

/-- The configurations that the loops take off the vector. -/
theorem classes_takeWhile (h : Pending item key order B vec) (hs : vec = (p, b) :: rest) :
    classes ((vec.takeWhile fun x => decide (x.2 = b)).map Prod.fst) =
      classesOf order fun e => key (item e).2 = key b ∧ B < key (item e).2 := by
  rw [(h.takeWhile_dropWhile hs).1, List.map_map]
  unfold classesOf
  exact congrArg classes (List.map_congr_left fun e _ => h.conf e)

end Pending

/-- The configuration is initial, or that of an entry. -/
def Occurs (init : List (Conf n)) (es : List (Entry n)) (q : Conf n) : Prop :=
  q ∈ init ∨ ∃ e ∈ es, e.conf = q

namespace Sweep

/-- The lower bounds up to `BL` and the upper bounds up to `BU` are used. -/
structure At (init : List (Conf n)) (es : List (Entry n)) (BL BU : CutKey) (s : Sweep n) :
    Prop where
  lower : s.lowerVec = ((lowerOrder es).filter fun e => BL < e.lowerCut).map Entry.lowItem
  upper : s.upperVec = ((upperOrder es).filter fun e => BU < e.upperCut).map Entry.upItem
  le_lower : ∀ e ∈ es, BL < e.lowerCut → BU ≤ e.lowerCut
  le_upper : ∀ e ∈ es, BU < e.upperCut → BL ≤ e.upperCut
  current : classes s.currentStates =
    classes init + classesOf es fun e => e.lowerCut ≤ BL ∧ BU < e.upperCut
  occurs : ∀ q ∈ s.currentStates, Occurs init es q

namespace At
variable {init : List (Conf n)} {es : List (Entry n)} {BL BU : CutKey} {s : Sweep n}

theorem pending_lower (h : At init es BL BU s) (hes : ∀ e ∈ es, e.Fits init) :
    Pending Entry.lowItem lowerKey (lowerOrder es) BL s.lowerVec :=
  ⟨fun _ => rfl, lowerKey_injective, pairwise_lowerOrder hes, h.lower⟩

theorem pending_upper (h : At init es BL BU s) :
    Pending Entry.upItem toLex (upperOrder es) BU s.upperVec :=
  ⟨fun _ => rfl, toLex.injective, pairwise_upperOrder es, h.upper⟩

/-- The front of the lower bounds is the next lower cut. -/
theorem front_lower (h : At init es BL BU s) (hes : ∀ e ∈ es, e.Fits init) {p : Conf n} {l : Cut}
    {rest : List (Conf n × Cut)} (hs : s.lowerVec = (p, l) :: rest) :
    (∃ e ∈ es, e.lowerCut = lowerKey l) ∧ BL < lowerKey l ∧
      ∀ e ∈ es, BL < e.lowerCut → lowerKey l ≤ e.lowerCut := by
  have := (h.pending_lower hes).front hs
  simp only [(lowerOrder_perm es).mem_iff] at this
  exact this

/-- The front of the upper bounds is the next upper cut. -/
theorem front_upper (h : At init es BL BU s) {p : Conf n} {u : Cut} {rest : List (Conf n × Cut)}
    (hs : s.upperVec = (p, u) :: rest) :
    (∃ e ∈ es, e.upperCut = toLex u) ∧ BU < toLex u ∧
      ∀ e ∈ es, BU < e.upperCut → toLex u ≤ e.upperCut := by
  have := h.pending_upper.front hs
  simp only [(upperOrder_perm es).mem_iff] at this
  exact this

/-- At the end of the lower bounds, all lower cuts are used. -/
theorem lower_nil (h : At init es BL BU s) (hes : ∀ e ∈ es, e.Fits init) (hs : s.lowerVec = []) :
    ∀ e ∈ es, e.lowerCut ≤ BL := fun e he =>
  (h.pending_lower hes).le_of_nil hs e ((lowerOrder_perm es).mem_iff.2 he)

/-- At the end of the upper bounds, all upper cuts are used. -/
theorem upper_nil (h : At init es BL BU s) (hs : s.upperVec = []) : ∀ e ∈ es, e.upperCut ≤ BU :=
  fun e he => h.pending_upper.le_of_nil hs e ((upperOrder_perm es).mem_iff.2 he)

/-- `useLowerFront`, where no upper bound is before the front. -/
theorem useLowerFront (h : At init es BL BU s) (hes : ∀ e ∈ es, e.Fits init) {p : Conf n} {l : Cut}
    {rest : List (Conf n × Cut)} (hs : s.lowerVec = (p, l) :: rest)
    (hU : ∀ e ∈ es, BU < e.upperCut → lowerKey l ≤ e.upperCut) :
    ∃ s', s.useLowerFront init = some s' ∧ At init es (lowerKey l) BU s' ∧
      s'.nextLineared = s.nextLineared ∧ s'.upperVec = s.upperVec ∧
      s'.lowerVec.length < s.lowerVec.length := by
  obtain ⟨-, hlt, hmin⟩ := h.front_lower hes hs
  have hpend := h.pending_lower hes
  have hocc : ∀ x ∈ s.lowerVec, ∃ e ∈ es, e.conf = x.1 := fun x hx => by
    obtain ⟨e, he, hex⟩ := hpend.exists_of_mem hx
    exact ⟨e, (lowerOrder_perm es).mem_iff.1 he, hex⟩
  have hinit : ∀ x ∈ s.lowerVec, init.any (sameConf x.1) = false := fun x hx => by
    obtain ⟨e, he, hex⟩ := hocc x hx
    exact hex ▸ (hes e he).notInit
  have hrun : s.useLowerFront init = some { s with
      lowerVec := s.lowerVec.dropWhile fun x => decide (x.2 = l)
      currentStates := s.currentStates ++
        (s.lowerVec.takeWhile fun x => decide (x.2 = l)).map Prod.fst } := by
    unfold Sweep.useLowerFront
    rw [hs]
    dsimp only
    rw [← hs, addAll_eq hinit]
  refine ⟨_, hrun, ⟨(hpend.dropWhile hs).eq, h.upper, fun e he hlt' =>
    h.le_lower e he (hlt.trans hlt'), hU, ?_, fun q hq => ?_⟩, rfl, rfl,
    Pending.length_dropWhile_lt hs⟩
  · dsimp only
    rw [classes_append, h.current, hpend.classes_takeWhile hs, classesOf_perm (lowerOrder_perm es),
      add_assoc]
    refine congrArg _ (classesOf_add fun e he => ⟨⟨?_, ?_⟩, ?_⟩)
    · rintro (⟨h₁, h₂⟩ | ⟨h₁, h₂⟩)
      · exact ⟨h₁.trans hlt.le, h₂⟩
      · exact ⟨h₁.le, (h.le_lower e he h₂).trans_lt (hes e he).lt⟩
    · rintro ⟨h₁, h₂⟩
      rcases le_or_gt e.lowerCut BL with h₃ | h₃
      · exact Or.inl ⟨h₃, h₂⟩
      · exact Or.inr ⟨le_antisymm h₁ (hmin e he h₃), h₃⟩
    · rintro ⟨⟨h₁, -⟩, -, h₂⟩
      exact absurd h₁ (not_le.2 h₂)
  · rcases List.mem_append.1 hq with hq | hq
    · exact h.occurs q hq
    · obtain ⟨x, hx, rfl⟩ := List.mem_map.1 hq
      exact Or.inr (hocc x ((List.takeWhile_sublist _).subset hx))

/-- `useUpperFront`, where no lower bound is before the front. -/
theorem useUpperFront (h : At init es BL BU s) (hes : ∀ e ∈ es, e.Fits init) {p : Conf n} {u : Cut}
    {rest : List (Conf n × Cut)} (hs : s.upperVec = (p, u) :: rest)
    (hL : ∀ e ∈ es, BL < e.lowerCut → toLex u ≤ e.lowerCut) :
    ∃ s', s.useUpperFront init = some s' ∧ At init es BL (toLex u) s' ∧
      s'.nextLineared = s.nextLineared ∧ s'.lowerVec = s.lowerVec ∧
      s'.upperVec.length < s.upperVec.length := by
  obtain ⟨-, hlt, hmin⟩ := h.front_upper hs
  have hpend := h.pending_upper
  have hinit : ∀ x ∈ s.upperVec, init.any (sameConf x.1) = false := fun x hx => by
    obtain ⟨e, he, hex⟩ := hpend.exists_of_mem hx
    exact hex ▸ (hes e ((upperOrder_perm es).mem_iff.1 he)).notInit
  have hrun : s.useUpperFront init = some { s with
      upperVec := s.upperVec.dropWhile fun x => decide (x.2 = u)
      currentStates := ((s.upperVec.takeWhile fun x => decide (x.2 = u)).map Prod.fst).foldl
        (fun cur p => cur.eraseP (sameConf p)) s.currentStates } := by
    unfold Sweep.useUpperFront
    rw [hs]
    dsimp only
    rw [← hs, removeAll_eq hinit]
  refine ⟨_, hrun, ⟨h.lower, (hpend.dropWhile hs).eq, hL, fun e he hlt' =>
    h.le_upper e he (hlt.trans hlt'), ?_, fun q hq => h.occurs q (mem_of_mem_foldl_eraseP _ hq)⟩,
    rfl, rfl, Pending.length_dropWhile_lt hs⟩
  dsimp only
  rw [classes_foldl_eraseP, h.current, hpend.classes_takeWhile hs,
    classesOf_perm (upperOrder_perm es), tsub_eq_of_eq_add]
  rw [add_assoc]
  refine congrArg _ (classesOf_add fun e he => ⟨⟨?_, ?_⟩, ?_⟩).symm
  · rintro (⟨h₁, h₂⟩ | ⟨h₁, h₂⟩)
    · exact ⟨h₁, hlt.trans h₂⟩
    · refine ⟨not_lt.1 fun h₃ => ?_, h₂⟩
      exact absurd ((hL e he h₃).trans_lt (hes e he).lt) (h₁ ▸ lt_irrefl _)
  · rintro ⟨h₁, h₂⟩
    rcases (hmin e he h₂).eq_or_lt with h₃ | h₃
    · exact Or.inr ⟨h₃.symm, h₂⟩
    · exact Or.inl ⟨h₁, h₃⟩
  · rintro ⟨⟨-, h₁⟩, h₂, -⟩
    exact absurd h₂ h₁.ne'

end At

end Sweep

/-! ## The parts -/

/-- The first part whose bound is not below the delay. -/
def partAt (parts : List (Part n)) (t : ℚ) : Option (Part n) :=
  parts.find? fun p => CutKey.at t ≤ toLex p.2

/-- The classes of the configurations for a delay: the initial ones, and those of
    the active entries. -/
def classesAt (init : List (Conf n)) (es : List (Entry n)) (t : ℚ) :
    Multiset (Ptr × (Fin (n + 1) → Fin (n + 1) → Bounds)) :=
  classes init + classesOf es fun e => e.Active t

/-- The parts hold the configurations of the delays up to the cut `B`. -/
structure Covers (init : List (Conf n)) (es : List (Entry n)) (B : CutKey)
    (parts : List (Part n)) : Prop where
  sorted : parts.Pairwise fun p q => toLex p.2 ≤ toLex q.2
  le : ∀ p ∈ parts, toLex p.2 ≤ B
  zero_le : CutKey.at 0 ≤ B
  last : parts = [] ∧ B = CutKey.at 0 ∨ ∃ p, parts.getLast? = some p ∧ toLex p.2 = B
  find : ∀ t, 0 < t → CutKey.at t ≤ B → ∃ p, partAt parts t = some p ∧
    classes p.1 = classesAt init es t
  occurs : ∀ p ∈ parts, ∀ q ∈ p.1, Occurs init es q

namespace Covers
variable {init : List (Conf n)} {es : List (Entry n)} {B : CutKey} {parts : List (Part n)}

theorem nil : Covers init es (CutKey.at 0) [] where
  sorted := List.Pairwise.nil
  le := by simp
  zero_le := le_rfl
  last := Or.inl ⟨rfl, rfl⟩
  find t ht h := by
    unfold CutKey.at at h
    rw [Prod.Lex.toLex_le_toLex] at h
    rcases h with h | h
    · exact absurd (WithTop.coe_lt_coe.1 (WithBot.coe_lt_coe.1 h)) (not_lt.2 ht.le)
    · exact absurd (WithTop.coe_inj.1 (WithBot.coe_inj.1 h.1)) ht.ne'
  occurs := by simp

/-- One more part, for the delays between the last bound and its own. -/
theorem append (h : Covers init es B parts) (cur : List (Conf n)) {b : Cut} (hb : B ≤ toLex b)
    (hcur : ∀ t, 0 < t → B < CutKey.at t → CutKey.at t ≤ toLex b →
      classes cur = classesAt init es t) (ho : ∀ q ∈ cur, Occurs init es q) :
    Covers init es (toLex b) (parts ++ [(cur, b)]) where
  sorted := by
    refine List.pairwise_append.2 ⟨h.sorted, List.pairwise_singleton _ _, fun p hp q hq => ?_⟩
    rw [List.mem_singleton.1 hq]
    exact (h.le p hp).trans hb
  le p hp := by
    rcases List.mem_append.1 hp with hp | hp
    · exact (h.le p hp).trans hb
    · rw [List.mem_singleton.1 hp]
  zero_le := h.zero_le.trans hb
  last := Or.inr ⟨_, List.getLast?_concat, rfl⟩
  find t ht htb := by
    unfold partAt
    rw [List.find?_append]
    rcases le_or_gt (CutKey.at t) B with htB | htB
    · obtain ⟨p, hp, hpc⟩ := h.find t ht htB
      unfold partAt at hp
      exact ⟨p, by rw [hp]; rfl, hpc⟩
    · have hnone : parts.find? (fun p => decide (CutKey.at t ≤ toLex p.2)) = none :=
        List.find?_eq_none.2 fun p hp => by simpa using (h.le p hp).trans_lt htB
      refine ⟨(cur, b), ?_, hcur t ht htB htb⟩
      rw [hnone]
      simp [htb]
  occurs p hp := by
    rcases List.mem_append.1 hp with hp | hp
    · exact h.occurs p hp
    · rw [List.mem_singleton.1 hp]; exact ho

end Covers

namespace Sweep

/-- The invariant of the loops. -/
structure Inv (init : List (Conf n)) (es : List (Entry n)) (BL BU : CutKey) (s : Sweep n) : Prop
    extends At init es BL BU s where
  covers : Covers init es (max BL BU) s.nextLineared

namespace Inv
variable {init : List (Conf n)} {es : List (Entry n)} {BL BU : CutKey} {s : Sweep n}

/-- A part is appended for a bound that no unused cut is before. -/
theorem emit (h : Inv init es BL BU s) {b : Cut} (hBL : BL ≤ toLex b) (hBU : BU ≤ toLex b)
    (hL : ∀ e ∈ es, BL < e.lowerCut → toLex b ≤ e.lowerCut)
    (hU : ∀ e ∈ es, BU < e.upperCut → toLex b ≤ e.upperCut) :
    Covers init es (toLex b) (s.emit b).nextLineared := by
  refine h.covers.append _ (max_le hBL hBU) (fun t _ ht htb => ?_) h.occurs
  rw [h.current, classesAt]
  refine congrArg _ (classesOf_congr fun e he => ?_)
  rw [Entry.active_iff]
  constructor
  · rintro ⟨h₁, h₂⟩
    exact ⟨h₁.trans_lt ((le_max_left _ _).trans_lt ht), htb.trans (hU e he h₂)⟩
  · rintro ⟨h₁, h₂⟩
    refine ⟨not_lt.1 fun h₃ => ?_, (le_max_right _ _).trans_lt (ht.trans_le h₂)⟩
    exact absurd (h₁.trans_le (htb.trans (hL e he h₃))) (lt_irrefl _)

theorem at_emit (h : At init es BL BU s) (b : Cut) : At init es BL BU (s.emit b) :=
  ⟨h.lower, h.upper, h.le_lower, h.le_upper, h.current, h.occurs⟩

/-- A part up to the next lower cut, which is then used. -/
theorem emit_useLowerFront (h : Inv init es BL BU s) (hes : ∀ e ∈ es, e.Fits init) {p : Conf n}
    {l b : Cut} {rest : List (Conf n × Cut)} (hs : s.lowerVec = (p, l) :: rest)
    (hb : toLex b = lowerKey l) (hU : ∀ e ∈ es, BU < e.upperCut → lowerKey l ≤ e.upperCut) :
    ∃ s', (s.emit b).useLowerFront init = some s' ∧ Inv init es (lowerKey l) BU s' ∧
      s'.upperVec = s.upperVec ∧ s'.lowerVec.length < s.lowerVec.length := by
  obtain ⟨⟨e₀, he₀, hl⟩, hlt, hmin⟩ := h.front_lower hes hs
  have hBU : BU ≤ lowerKey l := hl ▸ h.le_lower e₀ he₀ (hl ▸ hlt)
  have hcov := h.emit (hb ▸ hlt.le) (hb ▸ hBU) (hb ▸ hmin) (hb ▸ hU)
  obtain ⟨s', hrun, hat, hn, hu, hlen⟩ :=
    (at_emit h.toAt b).useLowerFront hes (show (s.emit b).lowerVec = _ from hs) hU
  refine ⟨s', hrun, ⟨hat, ?_⟩, hu, hlen⟩
  rw [hn, max_eq_left hBU, ← hb]; exact hcov

/-- A part up to the next upper cut, which is then used. -/
theorem emit_useUpperFront (h : Inv init es BL BU s) (hes : ∀ e ∈ es, e.Fits init) {p : Conf n}
    {u b : Cut} {rest : List (Conf n × Cut)} (hs : s.upperVec = (p, u) :: rest)
    (hb : toLex b = toLex u) (hL : ∀ e ∈ es, BL < e.lowerCut → toLex u ≤ e.lowerCut) :
    ∃ s', (s.emit b).useUpperFront init = some s' ∧ Inv init es BL (toLex u) s' ∧
      s'.lowerVec = s.lowerVec ∧ s'.upperVec.length < s.upperVec.length := by
  obtain ⟨⟨e₀, he₀, hu⟩, hlt, hmin⟩ := h.front_upper hs
  have hBL : BL ≤ toLex u := hu ▸ h.le_upper e₀ he₀ (hu ▸ hlt)
  have hcov := h.emit (hb ▸ hBL) (hb ▸ hlt.le) (hb ▸ hL) (hb ▸ hmin)
  obtain ⟨s', hrun, hat, hn, hl, hlen⟩ :=
    (at_emit h.toAt b).useUpperFront hes (show (s.emit b).upperVec = _ from hs) hL
  refine ⟨s', hrun, ⟨hat, ?_⟩, hl, hlen⟩
  rw [hn, max_eq_right hBL, ← hb]; exact hcov

/-- At one cut, the intervals that end are removed before others are added. -/
theorem emit_useUpperFront_useLowerFront (h : Inv init es BL BU s) (hes : ∀ e ∈ es, e.Fits init)
    {p q : Conf n} {l u : Cut} {lowers uppers : List (Conf n × Cut)}
    (hl : s.lowerVec = (p, l) :: lowers) (hu : s.upperVec = (q, u) :: uppers)
    (hcut : lowerKey l = toLex u) :
    ∃ s', ((s.emit u).useUpperFront init).bind (fun s => s.useLowerFront init) = some s' ∧
      Inv init es (lowerKey l) (toLex u) s' ∧
      s'.lowerVec.length + s'.upperVec.length < s.lowerVec.length + s.upperVec.length := by
  obtain ⟨-, -, hminL⟩ := h.front_lower hes hl
  obtain ⟨⟨e₀, he₀, hu₀⟩, hlt₀, -⟩ := h.front_upper hu
  have hBL : BL ≤ toLex u := hu₀ ▸ h.le_upper e₀ he₀ (hu₀ ▸ hlt₀)
  obtain ⟨s₁, hrun₁, hinv₁, hL₁, hlen₁⟩ := h.emit_useUpperFront hes hu rfl
    fun e he he' => hcut ▸ hminL e he he'
  obtain ⟨s₂, hrun₂, hat₂, hn₂, hU₂, hlen₂⟩ := hinv₁.toAt.useLowerFront hes (hL₁.trans hl)
    fun e _ he' => hcut ▸ he'.le
  rw [hrun₁, Option.bind_some]
  refine ⟨s₂, hrun₂, ⟨hat₂, ?_⟩, ?_⟩
  · have hcov := hinv₁.covers
    rw [max_eq_right hBL] at hcov
    rw [hcut, max_self, hn₂]; exact hcov
  · rw [hU₂]; rw [hL₁] at hlen₂; omega

/-- **The body of the second loop.** -/
theorem mergeStep (h : Inv init es BL BU s) (hes : ∀ e ∈ es, e.Fits init) {p q : Conf n} {l u : Cut}
    {lowers uppers : List (Conf n × Cut)} (hl : s.lowerVec = (p, l) :: lowers)
    (hu : s.upperVec = (q, u) :: uppers) :
    ∃ s' BL' BU', s.mergeStep init l u = some s' ∧ Inv init es BL' BU' s' ∧
      s'.lowerVec.length + s'.upperVec.length < s.lowerVec.length + s.upperVec.length := by
  obtain ⟨-, -, hminL⟩ := h.front_lower hes hl
  obtain ⟨-, -, hminU⟩ := h.front_upper hu
  obtain ⟨x, a⟩ := l
  obtain ⟨y, c⟩ := u
  unfold Sweep.mergeStep
  dsimp only
  by_cases hlt : x < y
  · -- the lower bound is first
    have hlu : lowerKey (x, a) < toLex (y, c) := Prod.Lex.toLex_lt_toLex.2 (Or.inl hlt)
    obtain ⟨s', hrun, hinv, hU', hlen⟩ := h.emit_useLowerFront hes hl (b := (x, !a)) rfl
      fun e he he' => hlu.le.trans (hminU e he he')
    rw [if_pos hlt]
    exact ⟨s', _, _, hrun, hinv, by rw [hU']; omega⟩
  rw [if_neg hlt]
  by_cases hgt : x > y
  · -- the upper bound is first
    have hul : toLex (y, c) < lowerKey (x, a) := Prod.Lex.toLex_lt_toLex.2 (Or.inl hgt)
    obtain ⟨s', hrun, hinv, hL', hlen⟩ := h.emit_useUpperFront hes hu rfl
      fun e he he' => hul.le.trans (hminL e he he')
    rw [if_pos hgt]
    exact ⟨s', _, _, hrun, hinv, by rw [hL']; omega⟩
  rw [if_neg hgt]
  obtain rfl : x = y := le_antisymm (not_lt.1 hgt) (not_lt.1 hlt)
  by_cases hac : a ≠ c
  · -- the same cut: the intervals that end are removed before others are added
    have hcut : lowerKey (x, a) = toLex (x, c) := by
      unfold lowerKey
      cases a <;> cases c <;> simp at hac ⊢
    obtain ⟨s', hrun, hinv, hlen⟩ := h.emit_useUpperFront_useLowerFront hes hl hu hcut
    rw [if_pos hac]
    exact ⟨s', _, _, hrun, hinv, hlen⟩
  rw [if_neg hac]
  obtain rfl : a = c := not_not.1 hac
  cases a with
  | true =>
    -- both bounds are closed: the interval of one point
    have hlu : lowerKey (x, true) < toLex (x, true) :=
      Prod.Lex.toLex_lt_toLex.2 (Or.inr ⟨rfl, Bool.false_lt_true⟩)
    obtain ⟨s₁, hrun₁, hinv₁, hU₁, hlen₁⟩ := h.emit_useLowerFront hes hl (b := (x, false)) rfl
      fun e he he' => hlu.le.trans (hminU e he he')
    obtain ⟨s₂, hrun₂, hinv₂, hL₂, hlen₂⟩ := hinv₁.emit_useUpperFront hes (hU₁.trans hu) rfl
      fun e _ he' => CutKey.le_of_lt he'
    rw [if_pos rfl, hrun₁, Option.bind_some]
    exact ⟨s₂, _, _, hrun₂, hinv₂, by rw [hL₂]; rw [hU₁] at hlen₂; omega⟩
  | false =>
    -- both bounds are open: the point between the intervals
    have hul : toLex (x, false) < lowerKey (x, false) :=
      Prod.Lex.toLex_lt_toLex.2 (Or.inr ⟨rfl, Bool.false_lt_true⟩)
    obtain ⟨s₁, hrun₁, hinv₁, hL₁, hlen₁⟩ := h.emit_useUpperFront hes hu rfl
      fun e he he' => hul.le.trans (hminL e he he')
    obtain ⟨s₂, hrun₂, hinv₂, hU₂, hlen₂⟩ := hinv₁.emit_useLowerFront hes (hL₁.trans hl)
      (b := (x, true)) rfl fun e _ he' => CutKey.le_of_lt he'
    rw [if_neg Bool.false_ne_true, hrun₁, Option.bind_some]
    exact ⟨s₂, _, _, hrun₂, hinv₂, by rw [hU₂]; rw [hL₁] at hlen₂; omega⟩

theorem mergeLoop (hes : ∀ e ∈ es, e.Fits init) (fuel : ℕ) (h : Inv init es BL BU s)
    (hfuel : s.lowerVec.length + s.upperVec.length ≤ fuel) :
    ∃ s' BL' BU', s.mergeLoop init fuel = some s' ∧ Inv init es BL' BU' s' ∧ s'.lowerVec = [] ∧
      s'.upperVec.length ≤ fuel := by
  induction fuel generalizing s BL BU with
  | zero =>
    have hl : s.lowerVec = [] := List.eq_nil_of_length_eq_zero (by omega)
    refine ⟨s, BL, BU, ?_, h, hl, by omega⟩
    unfold Sweep.mergeLoop; rw [hl]
  | succ fuel ih =>
    unfold Sweep.mergeLoop
    rcases hl : s.lowerVec with _ | ⟨⟨p, l⟩, lowers⟩
    · exact ⟨s, BL, BU, rfl, h, hl, by omega⟩
    · rcases hu : s.upperVec with _ | ⟨⟨q, u⟩, uppers⟩
      · -- the entry of the lower bound has its upper bound left
        obtain ⟨⟨e, he, hel⟩, hlt, -⟩ := h.front_lower hes hl
        exact absurd (h.upper_nil hu e he)
          (not_le.2 ((h.le_lower e he (hel ▸ hlt)).trans_lt (hes e he).lt))
      · obtain ⟨s₁, BL₁, BU₁, hrun, hinv, hlen⟩ := h.mergeStep hes hl hu
        obtain ⟨s', BL', BU', hrun', hinv', hl', hlen'⟩ := ih hinv (by omega)
        refine ⟨s', BL', BU', ?_, hinv', hl', by omega⟩
        dsimp only
        rw [hrun, Option.bind_some, hrun']

theorem endLoop (hes : ∀ e ∈ es, e.Fits init) {fuel : ℕ} (h : Inv init es BL BU s)
    (hl : s.lowerVec = []) (hfuel : s.upperVec.length ≤ fuel) :
    ∃ s' BU', s.endLoop init fuel = some s' ∧ Inv init es BL BU' s' ∧ s'.upperVec = [] := by
  induction fuel generalizing s BU with
  | zero =>
    have hu : s.upperVec = [] := List.eq_nil_of_length_eq_zero (by omega)
    refine ⟨s, BU, ?_, h, hu⟩
    unfold Sweep.endLoop; rw [hu]
  | succ fuel ih =>
    unfold Sweep.endLoop
    rcases hu : s.upperVec with _ | ⟨⟨q, u⟩, uppers⟩
    · exact ⟨s, BU, rfl, h, hu⟩
    · obtain ⟨s₁, hrun, hinv, hL₁, hlen⟩ := h.emit_useUpperFront hes hu rfl
        fun e he he' => absurd he' (not_lt.2 (h.lower_nil hes hl e he))
      obtain ⟨s', BU', hrun', hinv', hu'⟩ := ih hinv (hL₁.trans hl) (by omega)
      refine ⟨s', BU', ?_, hinv', hu'⟩
      dsimp only
      rw [hrun, Option.bind_some, hrun']

end Inv

/-- The state before the first loop. -/
theorem at_start (init : List (Conf n)) {es : List (Entry n)} (hes : ∀ e ∈ es, e.Fits init) :
    At init es (toLex (⊥, false)) (CutKey.at 0)
      { lowerVec := sortLower es, upperVec := sortUpper es, currentStates := init,
        nextLineared := [] } := by
  have hbot : ∀ k : CutKey, CutKey.at 0 ≤ k → toLex (⊥, false) < k := fun k hk =>
    (Prod.Lex.toLex_lt_toLex.2 (Or.inl (WithBot.bot_lt_coe _))).trans_le hk
  have hlow : ∀ e ∈ es, toLex (⊥, false) < e.lowerCut := fun e he =>
    hbot _ (hes e he).zero_le_lowerCut
  refine ⟨?_, ?_, fun e he _ => (hes e he).zero_le_lowerCut, fun e he he' =>
    (hbot _ he'.le).le, ?_, fun q hq => Or.inl hq⟩
  · rw [List.filter_eq_self.2 fun e he =>
      decide_eq_true (hlow e ((lowerOrder_perm es).mem_iff.1 he))]
    rfl
  · rw [List.filter_eq_self.2 fun e he => decide_eq_true
      ((hes e ((upperOrder_perm es).mem_iff.1 he)).zero_le_lowerCut.trans_lt
        (hes e ((upperOrder_perm es).mem_iff.1 he)).lt)]
    rfl
  · have hnone : classesOf es (fun e => e.lowerCut ≤ toLex (⊥, false) ∧ CutKey.at 0 < e.upperCut) =
        0 := by
      unfold classesOf
      rw [List.filter_eq_nil_iff.2 fun e he h => absurd (of_decide_eq_true h).1
        (not_le.2 (hlow e he))]
      rfl
    rw [hnone, add_zero]

/-- The test of the first loop: the cut is at `0`. -/
theorem le_zero_iff {l : Cut} (hl : CutKey.at 0 ≤ lowerKey l) :
    Cut.le l (((0 : ℚ) : WithTop ℚ), true) = true ↔ lowerKey l = CutKey.at 0 := by
  obtain ⟨x, a⟩ := l
  have hl' := Prod.Lex.toLex_le_toLex.1 hl
  unfold Cut.le lowerKey CutKey.at
  rw [toLex_inj, Prod.mk.injEq]
  simp only [Bool.or_true, Bool.and_true, Bool.or_eq_true, decide_eq_true_eq, beq_iff_eq]
  rcases hl' with h₁ | ⟨h₁, h₂⟩
  · exact ⟨fun h => (h.elim h₁.not_gt h₁.ne').elim, fun h => Or.inr h.1⟩
  · refine ⟨fun _ => ⟨h₁.symm, ?_⟩, fun h => Or.inr h.1⟩
    cases a with
    | false => rfl
    | true => exact absurd h₂ (not_le.2 Bool.false_lt_true)

/-- Beyond the first cut the first loop has nothing to do. -/
theorem At.startLoop_eq {init : List (Conf n)} {es : List (Entry n)} {s : Sweep n}
    (h : At init es (CutKey.at 0) (CutKey.at 0) s) (hes : ∀ e ∈ es, e.Fits init) (fuel : ℕ) :
    s.startLoop init fuel = some s := by
  unfold startLoop
  rcases hl : s.lowerVec with _ | ⟨⟨p, l⟩, lowers⟩
  · rfl
  · obtain ⟨-, hlt, -⟩ := h.front_lower hes hl
    dsimp only
    rw [if_neg fun hc => hlt.ne' ((le_zero_iff hlt.le).1 hc)]

/-- The first loop takes the entries that are active from the start. -/
theorem exists_startLoop {init : List (Conf n)} {es : List (Entry n)} (fuel : ℕ) {s : Sweep n}
    (hes : ∀ e ∈ es, e.Fits init) (h : At init es (toLex (⊥, false)) (CutKey.at 0) s)
    (hn : s.nextLineared = []) (hfuel : s.lowerVec.length ≤ fuel) :
    ∃ s', s.startLoop init fuel = some s' ∧ Inv init es (CutKey.at 0) (CutKey.at 0) s' ∧
      s'.lowerVec.length ≤ s.lowerVec.length ∧ s'.upperVec = s.upperVec := by
  have hbot : ∀ e ∈ es, toLex (⊥, false) < e.lowerCut := fun e he =>
    (Prod.Lex.toLex_lt_toLex.2 (Or.inl (WithBot.bot_lt_coe _))).trans_le
      (hes e he).zero_le_lowerCut
  have hcov : Covers init es (max (CutKey.at 0) (CutKey.at 0)) ([] : List (Part n)) := by
    rw [max_self]; exact Covers.nil
  unfold startLoop
  rcases hl : s.lowerVec with _ | ⟨⟨p, l⟩, lowers⟩
  · obtain rfl : es = [] := List.eq_nil_iff_forall_not_mem.2 fun e he =>
      absurd (h.lower_nil hes hl e he) (not_le.2 (hbot e he))
    exact ⟨s, rfl, ⟨⟨hl, h.upper, by simp, by simp, h.current, h.occurs⟩, hn ▸ hcov⟩,
      by rw [hl], rfl⟩
  · obtain ⟨⟨e₀, he₀, hel⟩, -, hmin⟩ := h.front_lower hes hl
    have h0 : CutKey.at 0 ≤ lowerKey l := hel ▸ (hes e₀ he₀).zero_le_lowerCut
    dsimp only
    split_ifs with hc
    · have hkey := (le_zero_iff h0).1 hc
      obtain ⟨s₁, hrun, hat, hn₁, hu₁, hlen⟩ := h.useLowerFront hes hl
        fun e _ he' => hkey ▸ he'.le
      rw [hkey] at hat
      obtain ⟨fuel, rfl⟩ : ∃ k, fuel = k + 1 :=
        Nat.exists_eq_succ_of_ne_zero fun e => by rw [e, hl] at hfuel; simp at hfuel
      dsimp only
      refine ⟨s₁, ?_, ⟨hat, ?_⟩, ?_, hu₁⟩
      · rw [hrun, Option.bind_some, hat.startLoop_eq hes]
      · rw [hn₁, hn]; exact hcov
      · rw [← hl]; exact hlen.le
    · have hlt : CutKey.at 0 < lowerKey l :=
        lt_of_le_of_ne h0 fun e => hc ((le_zero_iff h0).2 e.symm)
      have hall : ∀ e ∈ es, CutKey.at 0 < e.lowerCut := fun e he =>
        hlt.trans_le (hmin e he (hbot e he))
      refine ⟨s, rfl, ⟨⟨?_, h.upper, fun e he _ => (hall e he).le, fun e _ he' => he'.le, ?_,
        h.occurs⟩, hn ▸ hcov⟩, by rw [hl], rfl⟩
      · rw [h.lower]
        refine congrArg _ (List.filter_congr fun e he => decide_eq_decide.2 ?_)
        have he := (lowerOrder_perm es).mem_iff.1 he
        exact iff_of_true (hbot e he) (hall e he)
      · rw [h.current]
        refine congrArg _ (classesOf_congr fun e he => ?_)
        exact ⟨fun h' => absurd h'.1 (not_le.2 (hbot e he)),
          fun h' => absurd h'.1 (not_le.2 (hall e he))⟩

end Sweep

/-- The bounds of the parts are sorted, and the first part whose bound is not
    below a delay holds the initial configurations and those of the entries that
    are active. -/
structure IsPartition (init : List (Conf n)) (es : List (Entry n)) (parts : List (Part n)) :
    Prop where
  sorted : parts.Pairwise fun p q => toLex p.2 ≤ toLex q.2
  find : ∀ t, 0 < t → ∃ p, partAt parts t = some p ∧ classes p.1 = classesAt init es t
  occurs : ∀ p ∈ parts, ∀ q ∈ p.1, Occurs init es q

/-- The last part covers the delays beyond the last bound. -/
theorem Covers.closeParts {init : List (Conf n)} {es : List (Entry n)} {B : CutKey}
    {parts : List (Part n)} (h : Covers init es B parts) (hes : ∀ e ∈ es, e.upperCut ≤ B) :
    IsPartition init es (closeParts init parts) := by
  have hB0 := h.zero_le
  have hlast : ∀ b : Cut, toLex b = B → b.1 ≠ ((⊤ : WithTop ℚ) : Double) →
      B ≤ toLex (((⊤ : WithTop ℚ) : Double), false) := by
    rintro ⟨x, a⟩ rfl hx
    refine Prod.Lex.toLex_le_toLex.2 (Or.inl ?_)
    refine lt_of_le_of_ne ?_ hx
    exact le_top (α := Double)
  have hextend : B ≤ toLex (((⊤ : WithTop ℚ) : Double), false) →
      IsPartition init es (parts ++ [(init, (((⊤ : WithTop ℚ) : Double), false))]) := by
    intro hB
    have hcov := h.append init hB (fun t _ ht _ => by
      have hnone : classesOf es (fun e => e.Active t) = 0 := by
        unfold classesOf
        rw [List.filter_eq_nil_iff.2 fun e he ha => ?_]
        · rfl
        · exact absurd ((e.active_iff t).1 (of_decide_eq_true ha)).2
            (not_le.2 ((hes e he).trans_lt ht))
      rw [classesAt, hnone, add_zero]) fun q hq => Or.inl hq
    refine ⟨hcov.sorted, fun t ht => hcov.find t ht ?_, hcov.occurs⟩
    exact Prod.Lex.toLex_le_toLex.2 (Or.inl (WithBot.coe_lt_coe.2 (WithTop.coe_lt_top t)))
  unfold MooreFilter.closeParts
  dsimp only
  rcases h.last with ⟨rfl, rfl⟩ | ⟨p, hp, hpB⟩
  · exact hextend (hlast (_, true) rfl fun e => WithTop.coe_ne_top (WithBot.coe_inj.1 e))
  · rw [hp]
    dsimp only
    split_ifs with hc
    · refine ⟨h.sorted, fun t ht => h.find t ht ?_, h.occurs⟩
      rcases hc with hc | hc
      · rw [← hpB]
        exact Prod.Lex.toLex_le_toLex.2 (Or.inl (hc ▸ WithBot.coe_lt_coe.2 (WithTop.coe_lt_top t)))
      · rw [← hpB] at hB0
        rcases Prod.Lex.toLex_le_toLex.1 hB0 with h' | ⟨h', -⟩
        · exact absurd (hc ▸ h') not_lt_bot
        · exact absurd (h'.trans hc) WithBot.coe_ne_bot
    · exact hextend (hlast p.2 hpB fun e => hc (Or.inl e))

/-- **The sweep.** It has a result, a partition of the positive delays. -/
theorem linearlize_spec (init : List (Conf n)) {es : List (Entry n)}
    (hes : ∀ e ∈ es, e.Fits init) :
    ∃ parts, linearlize init es = some parts ∧ IsPartition init es parts := by
  have hl : (sortLower es).length = es.length := by simp [sortLower]
  have hu : (sortUpper es).length = es.length := by simp [sortUpper]
  obtain ⟨s₁, hrun₁, hinv₁, hlen₁, hup₁⟩ := Sweep.exists_startLoop
    (es.length + es.length) hes (Sweep.at_start init hes) rfl (by dsimp only; omega)
  dsimp only at hlen₁ hup₁
  obtain ⟨s₂, BL, BU, hrun₂, hinv₂, hl₂, hlen₂⟩ :=
    Sweep.Inv.mergeLoop hes (es.length + es.length) hinv₁ (by rw [hup₁]; omega)
  obtain ⟨s₃, BU', hrun₃, hinv₃, hu₃⟩ := hinv₂.endLoop hes hl₂ hlen₂
  have hend : ∀ e ∈ es, e.upperCut ≤ max BL BU' := fun e he =>
    (hinv₃.upper_nil hu₃ e he).trans (le_max_right _ _)
  refine ⟨closeParts init s₃.nextLineared, ?_, hinv₃.covers.closeParts hend⟩
  unfold linearlize
  dsimp only
  rw [hrun₁, Option.bind_some, hrun₂, Option.bind_some, hrun₃, Option.map_some]

/-! ## Calls -/

namespace Sweep

/-- The sweep before the first loop. -/
def start (init : List (Conf n)) (es : List (Entry n)) : Sweep n where
  lowerVec := sortLower es
  upperVec := sortUpper es
  currentStates := init
  nextLineared := []

/-- The sweeps that the calls in the loops lead to, in any order of the calls. -/
inductive Reached (init : List (Conf n)) (s₀ : Sweep n) : Sweep n → Prop
  | start : Reached init s₀ s₀
  | emit {s} (b : Cut) : Reached init s₀ s → Reached init s₀ (s.emit b)
  | lower {s s'} : Reached init s₀ s → s.useLowerFront init = some s' → Reached init s₀ s'
  | upper {s s'} : Reached init s₀ s → s.useUpperFront init = some s' → Reached init s₀ s'

variable {init : List (Conf n)} {s₀ s s' : Sweep n} {x : Conf n × Cut} {fuel : ℕ}

/-- Does a call take the item off? -/
def takes (init : List (Conf n)) (b : Cut) (x : Conf n × Cut) : Bool :=
  decide (x.2 = b) && !init.any (sameConf x.1)

theorem addAll_fst (b : Cut) (vec : List (Conf n × Cut)) (cur : List (Conf n)) :
    (addAll init b vec cur).1 = vec.dropWhile (takes init b) := by
  induction vec generalizing cur with
  | nil => rfl
  | cons x vec ih =>
    unfold addAll
    split_ifs with hb hx
    · rw [List.dropWhile_cons_of_neg (by simp [takes, hx])]
    · rw [List.dropWhile_cons_of_pos (by simp [takes, hb, hx]), ih]
    · rw [List.dropWhile_cons_of_neg (by simp [takes, hb])]

theorem removeAll_fst (b : Cut) (vec : List (Conf n × Cut)) (cur : List (Conf n)) :
    (removeAll init b vec cur).1 = vec.dropWhile (takes init b) := by
  induction vec generalizing cur with
  | nil => rfl
  | cons x vec ih =>
    unfold removeAll
    split_ifs with hb hx
    · rw [List.dropWhile_cons_of_neg (by simp [takes, hx])]
    · rw [List.dropWhile_cons_of_pos (by simp [takes, hb, hx]), ih]
    · rw [List.dropWhile_cons_of_neg (by simp [takes, hb])]

/-- `useLowerFront` takes items with one bound off its deque. -/
theorem useLowerFront_vecs (h : s.useLowerFront init = some s') :
    (∃ b, s'.lowerVec = s.lowerVec.dropWhile (takes init b)) ∧ s'.upperVec = s.upperVec := by
  unfold Sweep.useLowerFront at h
  split at h
  · exact absurd h (by simp)
  · obtain rfl := Option.some.inj h
    exact ⟨⟨_, addAll_fst _ _ _⟩, rfl⟩

theorem useUpperFront_vecs (h : s.useUpperFront init = some s') :
    s'.lowerVec = s.lowerVec ∧ ∃ b, s'.upperVec = s.upperVec.dropWhile (takes init b) := by
  unfold Sweep.useUpperFront at h
  split at h
  · exact absurd h (by simp)
  · obtain rfl := Option.some.inj h
    exact ⟨rfl, _, removeAll_fst _ _ _⟩

namespace Reached

theorem startLoop (hr : Reached init s₀ s) (h : s.startLoop init fuel = some s') :
    Reached init s₀ s' := by
  induction fuel generalizing s with
  | zero =>
    unfold Sweep.startLoop at h
    split at h
    · obtain rfl := Option.some.inj h; exact hr
    · split_ifs at h with hc
      obtain rfl := Option.some.inj h; exact hr
  | succ fuel ih =>
    unfold Sweep.startLoop at h
    split at h
    · obtain rfl := Option.some.inj h; exact hr
    · split_ifs at h with hc
      · obtain ⟨s₁, h₁, h⟩ := Option.bind_eq_some_iff.1 h
        exact ih (hr.lower h₁) h
      · obtain rfl := Option.some.inj h; exact hr

theorem mergeStep (hr : Reached init s₀ s) {l u : Cut} (h : s.mergeStep init l u = some s') :
    Reached init s₀ s' := by
  unfold Sweep.mergeStep at h
  split_ifs at h
  · exact (hr.emit _).lower h
  · exact (hr.emit _).upper h
  · obtain ⟨s₁, h₁, h⟩ := Option.bind_eq_some_iff.1 h
    exact ((hr.emit _).upper h₁).lower h
  · obtain ⟨s₁, h₁, h⟩ := Option.bind_eq_some_iff.1 h
    exact (((hr.emit _).lower h₁).emit _).upper h
  · obtain ⟨s₁, h₁, h⟩ := Option.bind_eq_some_iff.1 h
    exact (((hr.emit _).upper h₁).emit _).lower h

/-- The second loop ends when no lower bound is left. -/
theorem mergeLoop (hr : Reached init s₀ s) (h : s.mergeLoop init fuel = some s') :
    Reached init s₀ s' ∧ s'.lowerVec = [] := by
  induction fuel generalizing s with
  | zero =>
    unfold Sweep.mergeLoop at h
    split at h
    · obtain rfl := Option.some.inj h
      exact ⟨hr, ‹_›⟩
    · exact absurd h (by simp)
    · exact absurd h (by simp)
    · contradiction
  | succ fuel ih =>
    unfold Sweep.mergeLoop at h
    split at h
    · obtain rfl := Option.some.inj h
      exact ⟨hr, ‹_›⟩
    · exact absurd h (by simp)
    · exact absurd h (by simp)
    · obtain ⟨s₁, h₁, h⟩ := Option.bind_eq_some_iff.1 h
      obtain rfl := Nat.succ.inj ‹_›
      exact ih (hr.mergeStep h₁) h

/-- The third loop leaves the lower bounds. -/
theorem endLoop (hr : Reached init s₀ s) (h : s.endLoop init fuel = some s') :
    Reached init s₀ s' ∧ s'.lowerVec = s.lowerVec := by
  induction fuel generalizing s with
  | zero =>
    unfold Sweep.endLoop at h
    split at h
    · obtain rfl := Option.some.inj h
      exact ⟨hr, rfl⟩
    · exact absurd h (by simp)
    · contradiction
  | succ fuel ih =>
    unfold Sweep.endLoop at h
    split at h
    · obtain rfl := Option.some.inj h
      exact ⟨hr, rfl⟩
    · exact absurd h (by simp)
    · obtain ⟨s₁, h₁, h⟩ := Option.bind_eq_some_iff.1 h
      obtain rfl := Nat.succ.inj ‹_›
      obtain ⟨hr', hl⟩ := ih ((hr.emit _).upper h₁) h
      exact ⟨hr', hl.trans (useUpperFront_vecs (s := s.emit _) h₁).1⟩

end Reached

/-- The result of the sweep is that of a sweep which its calls lead to. -/
theorem reached_of_linearlize {es : List (Entry n)} {parts : List (Part n)}
    (h : linearlize init es = some parts) : ∃ s, Reached init (start init es) s ∧
      s.lowerVec = [] ∧ closeParts init s.nextLineared = parts := by
  obtain ⟨s₃, h, hparts⟩ := Option.map_eq_some_iff.1 h
  obtain ⟨s₁, h₁, h⟩ := Option.bind_eq_some_iff.1 h
  obtain ⟨s₂, h₂, h₃⟩ := Option.bind_eq_some_iff.1 h
  obtain ⟨hr₂, hl₂⟩ := (Reached.start.startLoop h₁).mergeLoop h₂
  obtain ⟨hr₃, hl₃⟩ := hr₂.endLoop h₃
  exact ⟨s₃, hr₃, hl₃.trans hl₂, hparts⟩

/-! ## Initial configurations -/

/-- No call takes an initial configuration off. -/
theorem mem_dropWhile_takes (hx : init.any (sameConf x.1) = true) (b : Cut)
    {l : List (Conf n × Cut)} (hl : x ∈ l) : x ∈ l.dropWhile (takes init b) := by
  rw [← List.takeWhile_append_dropWhile (p := takes init b) (l := l), List.mem_append] at hl
  refine hl.resolve_left fun htake => ?_
  have := List.mem_takeWhile_imp htake
  simp [takes, hx] at this

theorem Reached.mem_lowerVec (hx : init.any (sameConf x.1) = true) (hl : x ∈ s₀.lowerVec)
    (hr : Reached init s₀ s) : x ∈ s.lowerVec := by
  induction hr with
  | start => exact hl
  | emit b _ ih => exact ih
  | lower _ h ih =>
    obtain ⟨⟨b, hb⟩, -⟩ := useLowerFront_vecs h
    rw [hb]; exact mem_dropWhile_takes hx b ih
  | upper _ h ih => rw [(useUpperFront_vecs h).1]; exact ih

end Sweep

/-- The sweep takes an initial configuration off no deque, and has a result only
    without one. -/
theorem not_initial_of_linearlize {init : List (Conf n)} {es : List (Entry n)}
    {parts : List (Part n)} (h : linearlize init es = some parts) :
    ∀ e ∈ es, init.any (sameConf e.conf) = false := by
  obtain ⟨s, hr, hl, -⟩ := Sweep.reached_of_linearlize h
  intro e he
  by_contra hx
  rw [Bool.not_eq_false] at hx
  have hmem : e.lowItem ∈ sortLower es :=
    List.mem_map.2 ⟨e, (List.perm_insertionSort _ es).mem_iff.2 he, rfl⟩
  have hs := hr.mem_lowerVec (x := e.lowItem) hx hmem
  rw [hl] at hs
  exact absurd hs (by simp)

/-! ## Entries that are always active -/

section
variable {init : List (Conf n)} {es : List (Entry n)}

theorem sortLower_of_forall {b : Bounds} (h : ∀ e ∈ es, e.lowerBound = b) :
    sortLower es = es.map fun e => (e.conf, (Double.neg b.toPair.1, b.toPair.2)) := by
  unfold sortLower
  rw [List.Pairwise.insertionSort_eq]
  · exact List.map_congr_left fun e he => by rw [h e he]
  · exact List.pairwise_of_forall_mem_list fun x hx y hy => by rw [h x hx, h y hy]

theorem sortUpper_of_forall {b : Bounds} (h : ∀ e ∈ es, e.upperBound = b) :
    sortUpper es = es.map fun e => (e.conf, b.toPair) := by
  unfold sortUpper
  rw [List.Pairwise.insertionSort_eq]
  · exact List.map_congr_left fun e he => by rw [h e he]
  · exact List.pairwise_of_forall_mem_list fun x hx y hy => by rw [h x hx, h y hy]

/-- All entries with one bound are added at once. -/
theorem addAll_map (h : ∀ e ∈ es, init.any (sameConf e.conf) = false) (b : Cut)
    (cur : List (Conf n)) :
    Sweep.addAll init b (es.map fun e => (e.conf, b)) cur = ([], cur ++ es.map Entry.conf) := by
  induction es generalizing cur with
  | nil => simp [Sweep.addAll]
  | cons e es ih =>
    rw [List.map_cons]
    unfold Sweep.addAll
    rw [if_pos rfl, h e List.mem_cons_self]
    simp [ih fun e he => h e (List.mem_cons_of_mem _ he)]

/-- And removed at once. -/
theorem exists_removeAll_map (h : ∀ e ∈ es, init.any (sameConf e.conf) = false) (b : Cut)
    (cur : List (Conf n)) : ∃ cur',
    Sweep.removeAll init b (es.map fun e => (e.conf, b)) cur = ([], cur') := by
  induction es generalizing cur with
  | nil => exact ⟨cur, rfl⟩
  | cons e es ih =>
    rw [List.map_cons]
    unfold Sweep.removeAll
    rw [if_pos rfl, h e List.mem_cons_self]
    exact ih (fun e he => h e (List.mem_cons_of_mem _ he)) _

/-- The first loop, where all delays start at `0`. -/
theorem startLoop_map (h : ∀ e ∈ es, init.any (sameConf e.conf) = false) {fuel : ℕ}
    (hfuel : es.length ≤ fuel) (upperVec : List (Conf n × Cut)) :
    Sweep.startLoop init fuel
      { lowerVec := es.map fun e => (e.conf, ((((0 : ℚ) : WithTop ℚ) : Double), false))
        upperVec := upperVec, currentStates := init, nextLineared := [] } =
      some { lowerVec := [], upperVec := upperVec, currentStates := init ++ es.map Entry.conf
             nextLineared := [] } := by
  cases es with
  | nil => unfold Sweep.startLoop; simp
  | cons e es =>
    obtain ⟨fuel, rfl⟩ : ∃ k, fuel = k + 1 := Nat.exists_eq_add_one.2 (Nat.zero_lt_of_lt hfuel)
    have hadd := addAll_map h ((((0 : ℚ) : WithTop ℚ) : Double), false) init
    rw [List.map_cons] at hadd ⊢
    unfold Sweep.startLoop
    dsimp only
    rw [if_pos (by simp [Cut.le])]
    unfold Sweep.useLowerFront
    dsimp only
    rw [hadd, Option.bind_some]
    unfold Sweep.startLoop
    rfl

/-- The third loop, where no delay has an upper bound. -/
theorem exists_endLoop_map (h : ∀ e ∈ es, init.any (sameConf e.conf) = false) (hne : es ≠ [])
    {fuel : ℕ} (hfuel : es.length ≤ fuel) (lowerVec : List (Conf n × Cut)) (cur : List (Conf n)) :
    ∃ s, Sweep.endLoop init fuel
        { lowerVec := lowerVec
          upperVec := es.map fun e => (e.conf, (((⊤ : WithTop ℚ) : Double), false))
          currentStates := cur, nextLineared := [] } = some s ∧
      s.nextLineared = [(cur, (((⊤ : WithTop ℚ) : Double), false))] := by
  cases es with
  | nil => exact absurd rfl hne
  | cons e es =>
    obtain ⟨fuel, rfl⟩ : ∃ k, fuel = k + 1 := Nat.exists_eq_add_one.2 (Nat.zero_lt_of_lt hfuel)
    obtain ⟨cur', hremove⟩ := exists_removeAll_map h (((⊤ : WithTop ℚ) : Double), false) cur
    rw [List.map_cons] at hremove ⊢
    unfold Sweep.endLoop
    dsimp only
    unfold Sweep.useUpperFront Sweep.emit
    dsimp only
    rw [hremove, Option.bind_some]
    unfold Sweep.endLoop
    exact ⟨_, rfl, rfl⟩

/-- Entries that are active for all delays: there is one part. -/
theorem linearlize_of_always
    (hes : ∀ e ∈ es, e.lowerBound = .fin 0 false ∧ e.upperBound = .inf ∧
      init.any (sameConf e.conf) = false) :
    linearlize init es =
      some [(init ++ es.map Entry.conf, (((⊤ : WithTop ℚ) : Double), false))] := by
  have hinit : ∀ e ∈ es, init.any (sameConf e.conf) = false := fun e he => (hes e he).2.2
  have hlow : sortLower es =
      es.map fun e => (e.conf, ((((0 : ℚ) : WithTop ℚ) : Double), false)) :=
    sortLower_of_forall fun e he => (hes e he).1
  have hupp : sortUpper es = es.map fun e => (e.conf, (((⊤ : WithTop ℚ) : Double), false)) :=
    sortUpper_of_forall fun e he => (hes e he).2.1
  have hmerge : ∀ fuel (s : Sweep n), s.lowerVec = [] → Sweep.mergeLoop init fuel s = some s := by
    intro fuel s hs
    unfold Sweep.mergeLoop; rw [hs]
  unfold linearlize
  dsimp only
  rw [hlow, hupp, startLoop_map hinit (Nat.le_add_right _ _), Option.bind_some, hmerge _ _ rfl,
    Option.bind_some]
  rcases eq_or_ne es [] with rfl | hne
  · unfold Sweep.endLoop; simp [closeParts]
  · obtain ⟨s, hs, hparts⟩ := exists_endLoop_map hinit hne (Nat.le_add_right es.length es.length) []
      (init ++ es.map Entry.conf)
    rw [hs, Option.map_some, hparts]
    simp [closeParts]

end

end MooreFilter
