/-
  What condensing the runs of a list keeps.

  * `runInduction` is the induction over the runs of a list, and `condense_run` the
    condensed list for one run;
  * `filter_condense`, `pairwise_condense`, `condense_condense`: the elements outside the
    runs stay, orders stay, and there is nothing to condense again;
  * `OccursAfter s t u v`: the events `u` come one after the other in `v`, and the event
    before them has the stamp `t`; this is not changed by condensing runs of other
    events (`occurs_condense_iff`), as the last event of a run stays.
-/
import MooreFilter.Lib.Stamps

namespace Stamps

variable {α : Type*} {p : α → Bool}

/-! ## Runs -/

/-- Induction over the runs: the last one ends the list, the others are followed by an
    element without `p`. -/
theorem runInduction {motive : List α → Prop} (nil : motive [])
    (keep : ∀ a l, p a = false → motive l → motive (a :: l))
    (last : ∀ a r, (∀ e ∈ a :: r, p e = true) → motive (a :: r))
    (run : ∀ a r b l, (∀ e ∈ a :: r, p e = true) → p b = false → motive (b :: l) →
      motive (a :: r ++ b :: l)) (l : List α) : motive l := by
  induction hn : l.length using Nat.strong_induction_on generalizing l with
  | _ n ih =>
    cases l with
    | nil => exact nil
    | cons a l =>
      have hlen : l.length < n := by rw [← hn]; exact Nat.lt_succ_self _
      cases ha : p a with
      | false => exact keep a l ha (ih _ hlen l rfl)
      | true =>
        have hrun : ∀ e ∈ a :: l.takeWhile p, p e = true := by
          intro e he
          rcases List.mem_cons.1 he with rfl | he
          · exact ha
          · exact List.mem_takeWhile_imp he
        rw [← List.takeWhile_append_dropWhile (p := p) (l := l)]
        cases hd : l.dropWhile p with
        | nil => rw [List.append_nil]; exact last a _ hrun
        | cons b l' =>
          have hb : p b = false := by
            have h := List.head?_dropWhile_not p l
            rw [hd] at h
            simpa using h
          refine run a _ b l' hrun hb (ih (b :: l').length ?_ _ rfl)
          have hle : (b :: l').length ≤ l.length := hd ▸ List.length_dropWhile_le p l
          exact hle.trans_lt hlen

theorem dropWhile_run {a : α} {r : List α} (h : ∀ e ∈ a :: r, p e = true) (l : List α) :
    (r ++ l).dropWhile p = l.dropWhile p ∧ (r ++ l).takeWhile p = r ++ l.takeWhile p := by
  have hr : ∀ e ∈ r, p e = true := fun e he => h e (List.mem_cons_of_mem a he)
  exact ⟨List.dropWhile_append_of_pos hr, List.takeWhile_append_of_pos hr⟩

theorem condense_keep {a : α} (ha : p a = false) (l : List α) :
    condense p (a :: l) = a :: condense p l := by
  rw [condense, if_neg (by rw [ha]; exact Bool.false_ne_true)]

/-- Of the last run its first element stays. -/
theorem condense_last {a : α} {r : List α} (h : ∀ e ∈ a :: r, p e = true) :
    condense p (a :: r) = [a] := by
  have hr := dropWhile_run h []
  rw [List.append_nil, List.dropWhile_nil] at hr
  rw [condense, if_pos (h a List.mem_cons_self), if_pos hr.1, hr.1, condense]
  rfl

/-- The first and the last element of a run. -/
def runEnds (a : α) (r : List α) : List α := [a, r.getLastD a]

theorem mem_of_mem_runEnds {a e : α} {r : List α} (he : e ∈ runEnds a r) : e ∈ a :: r := by
  rcases List.mem_cons.1 he with rfl | he
  · exact List.mem_cons_self
  · rw [List.mem_singleton.1 he, List.getLastD_eq_getLast?]
    cases h : r.getLast? with
    | none => exact List.mem_cons_self
    | some b => exact List.mem_cons_of_mem a (List.mem_of_getLast? h)

/-- Of the others the first and the last one. -/
theorem condense_run {a : α} {r : List α} (h : ∀ e ∈ a :: r, p e = true) {b : α}
    (hb : p b = false) (l : List α) :
    condense p (a :: r ++ b :: l) = runEnds a r ++ condense p (b :: l) := by
  have hnb : ¬ p b = true := by rw [hb]; exact Bool.false_ne_true
  obtain ⟨hdrop, htake⟩ := dropWhile_run h (b :: l)
  rw [List.dropWhile_cons_of_neg hnb] at hdrop
  rw [List.takeWhile_cons_of_neg hnb, List.append_nil] at htake
  rw [List.cons_append, condense, if_pos (h a List.mem_cons_self), hdrop, htake,
    if_neg (List.cons_ne_nil b l)]
  rfl

/-! ## What stays -/

theorem filter_run {r : List α} (h : ∀ e ∈ r, p e = true) : (r.filter fun a => ! p a) = [] :=
  List.filter_eq_nil_iff.2 fun e he => by simp [h e he]

/-- The elements outside the runs stay, in their order. -/
theorem filter_condense (l : List α) :
    (condense p l).filter (fun a => ! p a) = l.filter fun a => ! p a := by
  induction l using runInduction (p := p) with
  | nil => rw [condense]
  | keep a l ha ih =>
    rw [condense_keep ha, List.filter_cons_of_pos (by simp [ha]), ih,
      List.filter_cons_of_pos (by simp [ha])]
  | last a r h =>
    rw [condense_last h, filter_run h]
    exact filter_run fun e he => by rw [List.mem_singleton.1 he]; exact h a List.mem_cons_self
  | run a r b l h hb ih =>
    rw [condense_run h hb, List.filter_append, List.filter_append, filter_run h, ih,
      filter_run fun e he => h e (mem_of_mem_runEnds he)]

/-- A condensed list has nothing to condense. -/
theorem condense_condense (l : List α) : condense p (condense p l) = condense p l := by
  induction l using runInduction (p := p) with
  | nil => rw [condense, condense]
  | keep a l ha ih => rw [condense_keep ha, condense_keep ha, ih]
  | last a r h =>
    rw [condense_last h]
    exact condense_last fun e he => by
      rw [List.mem_singleton.1 he]; exact h a List.mem_cons_self
  | run a r b l h hb ih =>
    rw [condense_run h hb]
    rw [condense_keep hb] at ih ⊢
    exact (condense_run (fun e he => h e (mem_of_mem_runEnds he)) hb _).trans
      (congrArg (runEnds a r ++ ·) ih)

theorem mem_of_mem_condense {l : List α} : ∀ {a}, a ∈ condense p l → a ∈ l := by
  induction l using runInduction (p := p) with
  | nil => intro a ha; rwa [condense] at ha
  | keep b l hb ih =>
    intro a ha
    rw [condense_keep hb] at ha
    exact List.mem_cons.2 ((List.mem_cons.1 ha).imp_right ih)
  | last b r h =>
    intro a ha
    rw [condense_last h] at ha
    rw [List.mem_singleton.1 ha]; exact List.mem_cons_self
  | run b r c l h hc ih =>
    intro a ha
    rw [condense_run h hc] at ha
    exact List.mem_append.2 ((List.mem_append.1 ha).imp mem_of_mem_runEnds ih)

/-- Orders stay. -/
theorem pairwise_condense {R : α → α → Prop} (hR : ∀ a, R a a) {l : List α} (hl : l.Pairwise R) :
    (condense p l).Pairwise R := by
  induction l using runInduction (p := p) with
  | nil => rw [condense]; exact List.Pairwise.nil
  | keep a l ha ih =>
    obtain ⟨ha', hl⟩ := List.pairwise_cons.1 hl
    rw [condense_keep ha]
    exact List.pairwise_cons.2 ⟨fun e he => ha' e (mem_of_mem_condense he), ih hl⟩
  | last a r h => rw [condense_last h]; exact List.pairwise_singleton R a
  | run a r b l h hb ih =>
    obtain ⟨hr, hl, hcross⟩ := List.pairwise_append.1 hl
    rw [condense_run h hb]
    refine List.pairwise_append.2 ⟨List.pairwise_pair.2 ?_, ih hl, fun e he e' he' =>
      hcross e (mem_of_mem_runEnds he) e' (mem_of_mem_condense he')⟩
    have hlast : r.getLastD a ∈ a :: r :=
      mem_of_mem_runEnds (List.mem_cons_of_mem a (List.mem_singleton_self _))
    rcases List.mem_cons.1 hlast with he | hmem
    · rw [he]; exact hR a
    · exact (List.pairwise_cons.1 hr).1 _ hmem

/-! ## Occurrences -/

section
variable {G : Type*} {p : α × G → Bool} {s t : G} {u v : List (α × G)}

/-- The stamp of the last event, or `s` if there is none. -/
def lastStamp (s : G) : List (α × G) → G
  | [] => s
  | e :: v => lastStamp e.2 v

/-- The events `u` come one after the other in `v`, and the event before them has the
    stamp `t`; before `v` the stamp is `s`. -/
def OccursAfter (s t : G) (u v : List (α × G)) : Prop :=
  ∃ x y, v = x ++ u ++ y ∧ lastStamp s x = t

theorem occurs_nil_iff : OccursAfter s t u [] ↔ u = [] ∧ s = t := by
  constructor
  · rintro ⟨x, y, he, hs⟩
    obtain ⟨hxu, -⟩ := List.append_eq_nil_iff.1 he.symm
    obtain ⟨rfl, rfl⟩ := List.append_eq_nil_iff.1 hxu
    exact ⟨rfl, hs⟩
  · rintro ⟨rfl, rfl⟩
    exact ⟨[], [], rfl, rfl⟩

/-- They begin with the first event, or come after it. -/
theorem occurs_cons_iff {e : α × G} :
    OccursAfter s t u (e :: v) ↔ (s = t ∧ u <+: e :: v) ∨ OccursAfter e.2 t u v := by
  constructor
  · rintro ⟨x, y, he, hs⟩
    cases x with
    | nil => exact Or.inl ⟨hs, y, he.symm⟩
    | cons e' x =>
      obtain ⟨rfl, rfl⟩ := List.cons.inj he
      exact Or.inr ⟨x, y, rfl, hs⟩
  · rintro (⟨hs, y, he⟩ | ⟨x, y, rfl, hs⟩)
    · exact ⟨[], y, he.symm, hs⟩
    · exact ⟨e :: x, y, rfl, hs⟩

/-- Events without `p` come after a run. -/
theorem occurs_append_iff (hne : u ≠ []) (hu : ∀ e ∈ u, p e = false) (r : List (α × G)) :
    ∀ {s}, (∀ e ∈ r, p e = true) →
      (OccursAfter s t u (r ++ v) ↔ OccursAfter (lastStamp s r) t u v) := by
  induction r with
  | nil => exact fun _ => Iff.rfl
  | cons e r ih =>
    intro s hr
    have hno : ¬ (s = t ∧ u <+: e :: (r ++ v)) := by
      rintro ⟨-, hpre⟩
      obtain ⟨e', u, rfl⟩ := List.exists_cons_of_ne_nil hne
      have he := (List.cons_prefix_cons.1 hpre).1
      have hfalse := hu e' List.mem_cons_self
      rw [he, hr e List.mem_cons_self] at hfalse
      exact absurd hfalse (by simp)
    rw [List.cons_append, occurs_cons_iff, or_iff_right hno]
    exact ih fun e' he' => hr e' (List.mem_cons_of_mem e he')

/-- Events without `p` cannot begin with one of a run. -/
theorem prefix_cons_iff (hu : ∀ e ∈ u, p e = false) {a : α × G} (ha : p a = true)
    (v v' : List (α × G)) : u <+: a :: v ↔ u <+: a :: v' := by
  cases u with
  | nil => simp
  | cons e u =>
    have hne : e ≠ a := by
      rintro rfl
      have hfalse := hu e List.mem_cons_self
      rw [ha] at hfalse
      exact absurd hfalse (by simp)
    simp [List.cons_prefix_cons, hne]

theorem prefix_condense_iff (hu : ∀ e ∈ u, p e = false) (v : List (α × G)) :
    u <+: condense p v ↔ u <+: v := by
  induction v using runInduction (p := p) generalizing u with
  | nil => rw [condense]
  | keep a v ha ih =>
    rw [condense_keep ha]
    cases u with
    | nil => simp
    | cons e u =>
      rw [List.cons_prefix_cons, List.cons_prefix_cons,
        ih fun e' he' => hu e' (List.mem_cons_of_mem e he')]
  | last a r h =>
    rw [condense_last h]; exact prefix_cons_iff hu (h a List.mem_cons_self) _ _
  | run a r b v h hb ih =>
    rw [condense_run h hb]; exact prefix_cons_iff hu (h a List.mem_cons_self) _ _

theorem lastStamp_eq_getLastD (a : α × G) (r : List (α × G)) :
    ∀ s, lastStamp s (a :: r) = (r.getLastD a).2 := by
  induction r generalizing a with
  | nil => exact fun _ => rfl
  | cons b r ih => exact fun s => (ih b a.2).trans (by rw [List.getLastD_cons])

/-- **Occurrences.** Condensing runs of other events does not change where events occur
    one after the other, and after which stamp. -/
theorem occurs_condense_iff (hne : u ≠ []) (hu : ∀ e ∈ u, p e = false) (v : List (α × G)) :
    ∀ s, OccursAfter s t u (condense p v) ↔ OccursAfter s t u v := by
  induction v using runInduction (p := p) with
  | nil => intro s; rw [condense]
  | keep a v ha ih =>
    intro s
    have hpre := prefix_condense_iff hu (a :: v)
    rw [condense_keep ha] at hpre ⊢
    rw [occurs_cons_iff, occurs_cons_iff, hpre, ih]
  | last a r h =>
    intro s
    have ha : ∀ e ∈ [a], p e = true := fun e he => by
      rw [List.mem_singleton.1 he]; exact h a List.mem_cons_self
    have h₁ := occurs_append_iff hne hu [a] (v := []) (s := s) (t := t) ha
    have h₂ := occurs_append_iff hne hu (a :: r) (v := []) (s := s) (t := t) h
    rw [List.append_nil, occurs_nil_iff] at h₁ h₂
    rw [condense_last h, h₁, h₂]
    exact iff_of_false (fun hnil => hne hnil.1) fun hnil => hne hnil.1
  | run a r b v h hb ih =>
    intro s
    have hends : lastStamp s (runEnds a r) = lastStamp s (a :: r) :=
      (lastStamp_eq_getLastD a [r.getLastD a] s).trans (lastStamp_eq_getLastD a r s).symm
    rw [condense_run h hb, occurs_append_iff hne hu _ fun e he => h e (mem_of_mem_runEnds he),
      occurs_append_iff hne hu _ h, hends, ih]

end

/-! ## Occurrences by delays -/

theorem lastStamp_congr {β G : Type*} {v : List (α × G)} {w : List (β × G)}
    (h : v.map Prod.snd = w.map Prod.snd) : ∀ s, lastStamp s v = lastStamp s w := by
  induction v generalizing w with
  | nil =>
    cases w with
    | nil => exact fun _ => rfl
    | cons _ _ => exact absurd h (by simp)
  | cons e v ih =>
    cases w with
    | nil => exact absurd h (by simp)
    | cons e' w =>
      rw [List.map_cons, List.map_cons, List.cons.injEq] at h
      intro s
      rw [lastStamp, lastStamp, h.1]
      exact ih h.2 _

section
variable {G : Type*} [AddCommGroup G] {s t : G} {u v : List (α × G)}

theorem toStamps_toDelays (v : List (α × G)) : ∀ t, toStamps t (toDelays t v) = v := by
  induction v with
  | nil => exact fun _ => rfl
  | cons e v ih =>
    intro t
    rw [toDelays, toStamps, add_sub_cancel, ih]

theorem toDelays_toStamps (v : List (α × G)) : ∀ t, toDelays t (toStamps t v) = v := by
  induction v with
  | nil => exact fun _ => rfl
  | cons e v ih =>
    intro t
    rw [toStamps, toDelays, add_sub_cancel_left, ih]

theorem length_toDelays (v : List (α × G)) (t : G) : (toDelays t v).length = v.length := by
  have h := congrArg List.length (map_fst_toDelays v t)
  rwa [List.length_map, List.length_map] at h

/-- Events with the same delays have the same stamps. -/
theorem map_snd_toStamps {β : Type*} {w : List (β × G)} (h : v.map Prod.snd = w.map Prod.snd) :
    ∀ t, (toStamps t v).map Prod.snd = (toStamps t w).map Prod.snd := by
  induction v generalizing w with
  | nil =>
    cases w with
    | nil => exact fun _ => rfl
    | cons _ _ => exact absurd h (by simp)
  | cons e v ih =>
    cases w with
    | nil => exact absurd h (by simp)
    | cons e' w =>
      rw [List.map_cons, List.map_cons, List.cons.injEq] at h
      intro t
      rw [toStamps, toStamps, List.map_cons, List.map_cons, h.1, ih h.2]

theorem drop_toDelays (i : ℕ) : ∀ (v : List (α × G)) (t : G),
    (toDelays t v).drop i = toDelays (lastStamp t (v.take i)) (v.drop i) := by
  induction i with
  | zero => exact fun _ _ => rfl
  | succ i ih =>
    intro v t
    cases v with
    | nil => rfl
    | cons e v => exact ih v e.2

theorem take_toDelays (k : ℕ) : ∀ (v : List (α × G)) (t : G),
    (toDelays t v).take k = toDelays t (v.take k) := by
  induction k with
  | zero => exact fun _ _ => rfl
  | succ k ih =>
    intro v t
    cases v with
    | nil => rfl
    | cons e v => exact congrArg _ (ih v e.2)

/-- Events occur after a stamp where their delays since it are those of the list. -/
theorem occurs_iff_delays : OccursAfter s t u v ↔ ∃ i, i + u.length ≤ v.length ∧
    lastStamp s (v.take i) = t ∧ ((toDelays s v).drop i).take u.length = toDelays t u := by
  constructor
  · rintro ⟨x, y, rfl, ht⟩
    have htake : (x ++ u ++ y).take x.length = x := by
      rw [List.append_assoc, List.take_left']; rfl
    refine ⟨x.length, by simp, by rw [htake]; exact ht, ?_⟩
    rw [drop_toDelays, htake, ht, take_toDelays, List.append_assoc, List.drop_left,
      List.take_left]
  · rintro ⟨i, -, ht, hu⟩
    rw [drop_toDelays, ht, take_toDelays] at hu
    have hu : (v.drop i).take u.length = u := by
      rw [← toStamps_toDelays ((v.drop i).take u.length) t, hu, toStamps_toDelays]
    refine ⟨v.take i, (v.drop i).drop u.length, ?_, ht⟩
    calc v = v.take i ++ v.drop i := (List.take_append_drop i v).symm
      _ = v.take i ++ ((v.drop i).take u.length ++ (v.drop i).drop u.length) := by
        rw [List.take_append_drop u.length (v.drop i)]
      _ = v.take i ++ u ++ (v.drop i).drop u.length := by rw [hu, List.append_assoc]

end

end Stamps
