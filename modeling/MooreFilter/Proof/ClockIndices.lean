/-
  Clock indices, from the text of a graph to the matrices.

  * `guardNumerals` and `resetNumerals` are the clock numerals of an attribute;
  * `map_toNat_eq_of_readGuard`, `map_toNat_eq_of_readResetVars`: the clocks that
    are read are the numerals modulo 256;
  * `lt_clockSize_iff`: the size is that of the largest clock of a guard;
  * `clocksSurvive_iff`: all clocks keep their numerals and have rows of their own
    exactly if the numerals are at most 254, a guard has a constraint, and no
    clock is reset that is larger than those of the guards.
-/
import MooreFilter.Graph
import MooreFilter.Proof.Membership
import MooreFilter.Proof.Syntax

namespace MooreFilter

open Text

/-! ## Numerals -/

/-- The numbers whose digits follow a character with `p`. -/
def numeralsAfter (p : Char → Bool) : List Char → List ℕ
  | [] => []
  | c :: l =>
    if p c then Nat.ofDigitChars 10 (l.takeWhile Char.isDigit) 0 :: numeralsAfter p l
    else numeralsAfter p l

/-- A digit follows each character with `p`. -/
def decimalAfter (p : Char → Bool) : List Char → Bool
  | [] => true
  | c :: l => (!p c || l.head?.any Char.isDigit) && decimalAfter p l

/-- In a guard, the numerals of the clocks follow `x`. -/
def isClockMark (c : Char) : Bool := c = 'x'

/-- In a list of clocks, they follow the opening brace and the spaces. -/
def isItemMark (c : Char) : Bool := c = '{' ∨ c = ' '

/-- The clock numerals of a guard. -/
def guardNumerals (text : List Char) : List ℕ := numeralsAfter isClockMark text

/-- The numerals of a list of clocks. -/
def resetNumerals (text : List Char) : List ℕ := numeralsAfter isItemMark text

section
variable {p : Char → Bool} {l : List Char}

theorem numeralsAfter_append (h : ∀ c ∈ l, p c = false) (m : List Char) :
    numeralsAfter p (l ++ m) = numeralsAfter p m := by
  induction l with
  | nil => rfl
  | cons c l ih =>
    have hc : ¬ p c = true := by rw [h c (by simp)]; exact Bool.false_ne_true
    rw [List.cons_append, numeralsAfter, if_neg hc, ih fun c hc => h c (by simp [hc])]

theorem decimalAfter_of_append {m : List Char} (h : decimalAfter p (l ++ m) = true) :
    decimalAfter p m = true := by
  induction l with
  | nil => exact h
  | cons c l ih => exact ih (Bool.and_eq_true_iff.1 h).2

/-- The numeral after a mark has no sign, and its digits are the literal's. -/
theorem numeralsAfter_mark {c : Char} (hc : p c = true) (hp : ∀ d, d.isDigit = true → p d = false)
    {lit : IntLiteral} {rest : List Char} (hrest : NoDigit rest)
    (hdec : decimalAfter p (c :: (lit.text ++ rest)) = true) :
    ∃ k : ℕ, lit.value = k ∧
      numeralsAfter p (c :: (lit.text ++ rest)) = k :: numeralsAfter p rest := by
  obtain ⟨sign, digits, hsign, hne, hdigits⟩ := lit
  have hhead := (Bool.and_eq_true_iff.1 hdec).1
  rw [hc, Bool.not_true, Bool.false_or] at hhead
  rcases mem_signs.1 hsign with rfl | rfl | rfl
  · refine ⟨Nat.ofDigitChars 10 digits 0, by simp [IntLiteral.value, signed], ?_⟩
    have hread : readDigits (digits ++ rest) = _ := readDigits_append hdigits hrest
    rw [readDigits, Option.some.injEq, Prod.mk.injEq] at hread
    change numeralsAfter p (c :: (digits ++ rest)) = _
    rw [numeralsAfter, if_pos hc, hread.1,
      numeralsAfter_append fun d hd => hp d (hdigits d hd)]
  · exact absurd hhead (by simp [IntLiteral.text])
  · exact absurd hhead (by simp [IntLiteral.text])

end

/-! ## Lists of items -/

/-- An item, read after a brace or a separator, has one numeral, and its clock is
    that numeral modulo 256. -/
def HasNumeral {α : Type} (p : Char → Bool) (R : List Char → α → Prop)
    (clock : α → ClockVariables) : Prop :=
  ∀ t a sep rest, R t a → sep = ['{'] ∨ sep = [',', ' '] → NoDigit rest →
    decimalAfter p (sep ++ (t ++ rest)) = true → ∃ k : ℕ, (clock a).toNat = k % 256 ∧
      numeralsAfter p (sep ++ (t ++ rest)) = k :: numeralsAfter p rest

section
variable {α : Type} {p : Char → Bool} {R : List Char → α → Prop} {clock : α → ClockVariables}

/-- The items after a separator, to the closing brace. -/
def remainingItems (ts : List (List Char)) : List Char :=
  (ts.flatMap fun t => [',', ' '] ++ t) ++ ['}']

theorem noDigit_remainingItems (ts : List (List Char)) : NoDigit (remainingItems ts) := by
  cases ts <;> rintro c ⟨⟩ <;> decide

theorem remainingItems_cons (t : List Char) (ts : List (List Char)) :
    remainingItems (t :: ts) = [',', ' '] ++ (t ++ remainingItems ts) := by
  simp [remainingItems]

theorem braces_cons (t : List Char) (ts : List (List Char)) :
    braces (t :: ts) = ['{'] ++ (t ++ remainingItems ts) := by
  simp [braces, joined, remainingItems]

/-- The clocks of a list of items are its numerals modulo 256. -/
theorem map_clock_eq (h : HasNumeral p R clock) (hp : p '}' = false) {ts : List (List Char)}
    {xs : List α} (hts : List.Forall₂ R ts xs) (hne : ts ≠ [])
    (hdec : decimalAfter p (braces ts) = true) :
    xs.map (fun a => (clock a).toNat) = (numeralsAfter p (braces ts)).map (· % 256) := by
  have key : ∀ {ts xs}, List.Forall₂ R ts xs → decimalAfter p (remainingItems ts) = true →
      xs.map (fun a => (clock a).toNat) =
        (numeralsAfter p (remainingItems ts)).map (· % 256) := by
    intro ts xs hts
    induction hts with
    | nil => intro _; simp [remainingItems, numeralsAfter, hp]
    | @cons t a ts xs hR _ ih =>
      intro hdec
      rw [remainingItems_cons] at hdec ⊢
      obtain ⟨k, hk, hnum⟩ := h t a _ _ hR (Or.inr rfl) (noDigit_remainingItems ts) hdec
      rw [hnum, List.map_cons, List.map_cons, hk,
        ih (decimalAfter_of_append (decimalAfter_of_append hdec))]
  cases hts with
  | nil => exact absurd rfl hne
  | @cons t a ts xs hR hts =>
    rw [braces_cons] at hdec ⊢
    obtain ⟨k, hk, hnum⟩ := h t a _ _ hR (Or.inl rfl) (noDigit_remainingItems ts) hdec
    rw [hnum, List.map_cons, List.map_cons, hk,
      key hts (decimalAfter_of_append (decimalAfter_of_append hdec))]

end

theorem toNat_toClock_natCast {v : ℤ} {k : ℕ} (h : v = k) : (toClock v).toNat = k % 256 := by
  have hv := toNat_toClock v
  omega

theorem hasNumeral_spellsClock : HasNumeral isItemMark SpellsClock id := by
  rintro t x sep rest ⟨lit, -, rfl, rfl⟩ hsep hrest hdec
  have hdigit : ∀ d : Char, d.isDigit = true → isItemMark d = false := by
    intro d hd
    refine decide_eq_false ?_
    rintro (rfl | rfl) <;> exact absurd hd (by decide)
  rcases hsep with rfl | rfl
  · obtain ⟨k, hk, hnum⟩ := numeralsAfter_mark (by decide) hdigit hrest hdec
    exact ⟨k, toNat_toClock_natCast hk, hnum⟩
  · have hcomma : ∀ c ∈ [','], isItemMark c = false := by simp [isItemMark]
    have hdec : decimalAfter isItemMark (' ' :: (lit.text ++ rest)) = true :=
      decimalAfter_of_append (l := [',']) hdec
    obtain ⟨k, hk, hnum⟩ := numeralsAfter_mark (by decide) hdigit hrest hdec
    exact ⟨k, toNat_toClock_natCast hk, (numeralsAfter_append hcomma _).trans hnum⟩

theorem hasNumeral_spellsConstraint :
    HasNumeral isClockMark SpellsConstraint Constraint.x := by
  rintro t ⟨x, odr, pc⟩ sep rest ⟨clock, c, -, rfl, rfl, -⟩ hsep hrest hdec
  have hdigit : ∀ d : Char, d.isDigit = true → isClockMark d = false := by
    intro d hd
    refine decide_eq_false ?_
    rintro rfl; exact absurd hd (by decide)
  have hseps : ∀ c ∈ sep, isClockMark c = false := by
    rcases hsep with rfl | rfl <;> simp [isClockMark]
  have hodr : ∀ c ∈ odr.write, isClockMark c = false := by
    cases odr <;> simp [Constraint.Order.write, isClockMark]
  have hc : ∀ d ∈ c.text, isClockMark d = false := by
    intro d hd
    rcases List.mem_append.1 hd with hd | hd
    · rcases mem_signs.1 c.sign_mem with h | h | h <;> rw [h] at hd <;> simp_all [isClockMark]
    · exact hdigit d (c.isDigit d hd)
  -- what follows the clock has no mark
  have hafter : ∀ c' ∈ [' '] ++ odr.write ++ [' '] ++ c.text, isClockMark c' = false := by
    simp only [List.mem_append]
    rintro d (((hd | hd) | hd) | hd)
    · rw [List.mem_singleton.1 hd]; decide
    · exact hodr d hd
    · rw [List.mem_singleton.1 hd]; decide
    · exact hc d hd
  have htext : sep ++ (constraintText clock odr c ++ rest) =
      sep ++ ('x' :: (clock.text ++ ([' '] ++ odr.write ++ [' '] ++ c.text ++ rest))) := by
    simp [constraintText]
  rw [htext] at hdec ⊢
  have hspace : NoDigit ([' '] ++ odr.write ++ [' '] ++ c.text ++ rest) := by
    rintro d ⟨⟩; decide
  obtain ⟨k, hk, hnum⟩ :=
    numeralsAfter_mark (by decide) hdigit hspace (decimalAfter_of_append hdec)
  refine ⟨k, toNat_toClock_natCast hk, ?_⟩
  rw [numeralsAfter_append hseps, hnum, numeralsAfter_append hafter]

/-! ## Attributes -/

/-- What the reader of an attribute makes of its text. -/
theorem readAttribute_eq_some {α : Type} {read : Istream α} {R : List Char → α → Prop}
    (h : Spells read R) {text : List Char} {xs : List α}
    (hread : readAttribute (readVector read) text = some xs) :
    text = [] ∧ xs = [] ∨ ∃ ts, ts ≠ [] ∧ List.Forall₂ R ts xs ∧ text = braces ts := by
  unfold readAttribute lexicalCast at hread
  split_ifs at hread with htext
  · exact Or.inl ⟨htext, (Option.some.inj hread).symm⟩
  · split at hread
    · next x hx =>
      obtain rfl := Option.some.inj hread
      obtain ⟨ts, hne, hts, he⟩ := (readVector_eq_some h).1 hx
      exact Or.inr ⟨ts, hne, hts, he.trans (List.append_nil _)⟩
    · exact absurd hread (by simp)

theorem map_toNat_eq_of_readGuard {text : List Char} {guard : List Constraint}
    (hread : readAttribute readGuard text = some guard)
    (hdec : decimalAfter isClockMark text = true) :
    guard.map (fun g => g.x.toNat) = (guardNumerals text).map (· % 256) := by
  rcases readAttribute_eq_some spells_readConstraint hread with ⟨rfl, rfl⟩ | ⟨ts, hne, hts, rfl⟩
  · rfl
  · exact map_clock_eq hasNumeral_spellsConstraint (by decide) hts hne hdec

theorem map_toNat_eq_of_readResetVars {text : List Char} {resetVars : List ClockVariables}
    (hread : readAttribute readResetVars text = some resetVars)
    (hdec : decimalAfter isItemMark text = true) :
    resetVars.map UInt8.toNat = (resetNumerals text).map (· % 256) := by
  rcases readAttribute_eq_some spells_readClock hread with ⟨rfl, rfl⟩ | ⟨ts, hne, hts, rfl⟩
  · rfl
  · exact map_clock_eq hasNumeral_spellsClock (by decide) hts hne hdec

/-! ## The size -/

theorem length_raiseMax (m : List ℤ) (g : Constraint) :
    (raiseMax m g).length = max m.length (g.x.toNat + 1) := by
  simp only [raiseMax, List.length_set, List.length_append, List.length_replicate]
  omega

theorem lt_length_foldl_raiseMax (gs : List Constraint) (k : ℕ) :
    k < (gs.foldl raiseMax []).length ↔ ∃ g ∈ gs, k ≤ g.x.toNat := by
  induction gs using List.reverseRecOn with
  | nil => simp
  | append_singleton gs g ih =>
    rw [List.foldl_append, List.foldl_cons, List.foldl_nil, length_raiseMax, lt_max_iff, ih,
      Nat.lt_succ_iff]
    simp [or_and_right, exists_or]

variable {G : DotGraph} {B : BoostTimedAutomaton}

theorem mem_flatMap_outEdges {ε : Type} (B : BoostGraph ε) (e : Edge ε) :
    e ∈ (List.range B.vertices.length).flatMap B.outEdges ↔ e ∈ B.edges := by
  rw [List.mem_flatMap]
  constructor
  · rintro ⟨v, -, he⟩; exact (BoostGraph.mem_outEdges.1 he).1
  · intro he
    exact ⟨e.source, List.mem_range.2 (B.source_lt e he), BoostGraph.mem_outEdges.2 ⟨he, rfl⟩⟩

/-- The size is that of the largest clock of a guard. -/
theorem lt_clockSize_iff (B : BoostTimedAutomaton) (k : ℕ) :
    k < (convBoostTA B).clockSize ↔
      ∃ e ∈ B.edges, ∃ g ∈ e.property.guard, k ≤ g.x.toNat := by
  change k < (convLoop B).2.length ↔ _
  rw [(edgesAdded_convLoop B).maxConstraints, lt_length_foldl_raiseMax]
  constructor
  · rintro ⟨g, hg, hk⟩
    obtain ⟨e, he, hg⟩ := List.mem_flatMap.1 hg
    exact ⟨e, (mem_flatMap_outEdges B e).1 he, g, hg, hk⟩
  · rintro ⟨e, he, g, hg, hk⟩
    exact ⟨g, List.mem_flatMap.2 ⟨e, (mem_flatMap_outEdges B e).2 he, hg⟩, hk⟩

/-! ## The clocks of an edge -/

/-- The clocks of the guard and of the resets. -/
def TATransition.clockNumbers (tr : TATransition) : List ℕ × List ℕ :=
  (tr.guard.map fun g => g.x.toNat, tr.resetVars.map UInt8.toNat)

/-- The clock numerals of the guard and of the resets. -/
def DotTransition.numerals (d : DotTransition) : List ℕ × List ℕ :=
  (guardNumerals d.guard, resetNumerals d.reset)

/-- The attributes have decimal clock numerals without a sign. -/
def DotTransition.Decimal (d : DotTransition) : Prop :=
  decimalAfter isClockMark d.guard = true ∧ decimalAfter isItemMark d.reset = true

instance (d : DotTransition) : Decidable d.Decimal := inferInstanceAs (Decidable (_ ∧ _))

theorem parseBoostTA_eq_some (h : parseBoostTA G = some B) :
    B.vertices = G.vertices ∧ List.Forall₂ (fun e b => readEdge e = some b) G.edges B.edges := by
  unfold parseBoostTA at h
  split at h
  · exact absurd h (by simp)
  · next edges hedges =>
    obtain rfl := Option.some.inj h
    exact ⟨rfl, Related.forall₂_of_mapM hedges⟩

theorem filter_flatMap_outEdges (B : BoostTimedAutomaton) (v : ℕ) (c : UInt8) :
    ((List.range B.vertices.length).flatMap B.outEdges).filter
        (fun e => e.source = v ∧ e.property.c = c) =
      (B.outEdges v).filter fun e => e.property.c = c := by
  set leaving := (B.outEdges v).filter fun e => e.property.c = c
  have hpart : ∀ w, (B.outEdges w).filter (fun e => e.source = v ∧ e.property.c = c) =
      if w = v then leaving else [] := by
    intro w
    split_ifs with hw
    · rw [hw]
      refine List.filter_congr fun e he => ?_
      simp [(BoostGraph.mem_outEdges.1 he).2]
    · rw [List.filter_eq_nil_iff]
      intro e he
      simp [(BoostGraph.mem_outEdges.1 he).2, hw]
  -- only the part of `v` is left
  have hrange : ∀ n, ((List.range n).flatMap fun w => if w = v then leaving else []) =
      if v < n then leaving else [] := by
    intro n
    induction n with
    | zero => rfl
    | succ n ih =>
      rw [List.range_succ, List.flatMap_append, ih, List.flatMap_singleton]
      rcases lt_trichotomy v n with hv | rfl | hv
      · rw [if_pos hv, if_neg hv.ne', if_pos (hv.trans (Nat.lt_succ_self n)), List.append_nil]
      · simp
      · rw [if_neg hv.not_gt, if_neg hv.ne, if_neg (by omega), List.append_nil]
  rw [List.filter_flatMap, List.flatMap_congr fun w _ => hpart w, hrange]
  split_ifs with hv
  · rfl
  · -- a vertex that is none has no edges
    symm
    rw [List.filter_eq_nil_iff]
    intro e he
    obtain ⟨hmem, rfl⟩ := BoostGraph.mem_outEdges.1 he
    exact absurd (B.source_lt e hmem) hv

/-- The transitions of a state are the edges that leave its vertex. -/
theorem next_convBoostTA (B : BoostTimedAutomaton) (v : ℕ) (c : UInt8) :
    (convBoostTA B).next v c =
      ((B.outEdges v).filter fun e => e.property.c = c).map Edge.transition := by
  rw [← filter_flatMap_outEdges]
  exact (edgesAdded_convLoop B).next v c

/-- The edges that leave a vertex with a letter. -/
theorem mem_leaving {v : ℕ} {c : UInt8} {e : Edge DotTransition} :
    e ∈ ((G.outEdges v).filter fun e => e.property.label = c) ↔
      e ∈ G.edges ∧ e.source = v ∧ e.property.label = c := by
  rw [List.mem_filter, BoostGraph.mem_outEdges, decide_eq_true_iff, and_assoc]

/-- Every clock keeps its numeral and has a row of its own. -/
structure ClocksSurvive (G : DotGraph) (TA : TimedAutomaton) : Prop where
  named : ∀ v c, (TA.next v c).map TATransition.clockNumbers =
    ((G.outEdges v).filter fun e => e.property.label = c).map fun e => e.property.numerals
  lt_clockSize : ∀ x, TA.Names x → x.toNat < TA.clockSize
  maxConstraints_ne_nil : TA.maxConstraints ≠ []
  row : ∀ x, TA.Names x → (row TA.clockSize x).val = x.toNat + 1 ∧
    1 ≤ (row TA.clockSize x).val ∧ (row TA.clockSize x).val ≤ TA.clockSize

/-- The numerals are below the one of the reference clock, and those of the
    resets not above those of the guards. -/
structure ClocksFit (G : DotGraph) : Prop where
  guard_le : ∀ e ∈ G.edges, ∀ k ∈ e.property.numerals.1, k ≤ 254
  constrained : ∃ e ∈ G.edges, e.property.numerals.1 ≠ []
  reset_le : ∀ e ∈ G.edges, ∀ k ∈ e.property.numerals.2,
    ∃ e' ∈ G.edges, ∃ k' ∈ e'.property.numerals.1, k ≤ k'

theorem ClocksFit.mod_eq (hF : ClocksFit G) {e : Edge DotTransition} (he : e ∈ G.edges) :
    (∀ k ∈ e.property.numerals.1, k % 256 = k) ∧ ∀ k ∈ e.property.numerals.2, k % 256 = k := by
  refine ⟨fun k hk => ?_, fun k hk => ?_⟩
  · have := hF.guard_le e he k hk; omega
  · obtain ⟨e', he', k', hk', hle⟩ := hF.reset_le e he k hk
    have := hF.guard_le e' he' k' hk'; omega

section
variable (h : parseBoostTA G = some B) (hdec : ∀ e ∈ G.edges, e.property.Decimal)
include h hdec

/-- **The clocks of the transitions** are the numerals of the edges, modulo 256. -/
theorem clockNumbers_next (v : ℕ) (c : UInt8) :
    ((convBoostTA B).next v c).map TATransition.clockNumbers =
      ((G.outEdges v).filter fun e => e.property.label = c).map fun e =>
        (e.property.numerals.1.map (· % 256), e.property.numerals.2.map (· % 256)) := by
  have hedges := (List.forall₂_and_left _ _).2 ⟨hdec, (parseBoostTA_eq_some h).2⟩
  rw [next_convBoostTA, List.map_map, BoostGraph.outEdges, BoostGraph.outEdges, List.filter_filter,
    List.filter_filter]
  refine (Related.map_filter_eq hedges ?_ ?_).symm
  · rintro e b ⟨-, hread⟩
    obtain ⟨hsource, -, hlabel, -, -⟩ := readEdge_eq_some.1 hread
    rw [hsource, hlabel]
  · rintro e b ⟨⟨hguard, hreset⟩, hread⟩
    obtain ⟨-, -, -, hresets, hguards⟩ := readEdge_eq_some.1 hread
    exact Prod.ext (map_toNat_eq_of_readGuard hguards hguard).symm
      (map_toNat_eq_of_readResetVars hresets hreset).symm

/-- The automaton names the numerals of the edges, modulo 256. -/
theorem names_convBoostTA_iff (x : ClockVariables) :
    (convBoostTA B).Names x ↔ ∃ e ∈ G.edges,
      (∃ k ∈ e.property.numerals.1, k % 256 = x.toNat) ∨
        ∃ k ∈ e.property.numerals.2, k % 256 = x.toNat := by
  have hx : ∀ {tr : TATransition} {d : DotTransition},
      (d.numerals.1.map (· % 256), d.numerals.2.map (· % 256)) = tr.clockNumbers →
      (tr.Names x ↔ (∃ k ∈ d.numerals.1, k % 256 = x.toNat) ∨
        ∃ k ∈ d.numerals.2, k % 256 = x.toNat) := by
    intro tr d htr
    obtain ⟨hguard, hreset⟩ := Prod.mk.inj htr
    rw [← List.mem_map, ← List.mem_map, hguard, hreset]
    simp only [TATransition.Names, List.mem_map, UInt8.toNat_inj, exists_eq_right]
  constructor
  · rintro ⟨s, -, c, tr, htr, hnames⟩
    have hmem := List.mem_map_of_mem (f := TATransition.clockNumbers) htr
    rw [clockNumbers_next h hdec] at hmem
    obtain ⟨e, he, htr⟩ := List.mem_map.1 hmem
    exact ⟨e, (mem_leaving.1 he).1, (hx htr).1 hnames⟩
  · rintro ⟨e, he, hk⟩
    have hmem := List.mem_map_of_mem (f := fun e : Edge DotTransition =>
      (e.property.numerals.1.map (· % 256), e.property.numerals.2.map (· % 256)))
      (mem_leaving.2 ⟨he, rfl, rfl⟩)
    rw [← clockNumbers_next h hdec] at hmem
    obtain ⟨tr, htr, htr'⟩ := List.mem_map.1 hmem
    refine ⟨e.source, ?_, e.property.label, tr, htr, (hx htr'.symm).2 hk⟩
    change e.source ∈ (convLoop B).1.states
    rw [(edgesAdded_convLoop B).statesFor.states, List.mem_range, (parseBoostTA_eq_some h).1]
    exact G.source_lt e he

/-- The size, by the numerals of the guards. -/
theorem lt_clockSize_convBoostTA_iff (m : ℕ) :
    m < (convBoostTA B).clockSize ↔
      ∃ e ∈ G.edges, ∃ k ∈ e.property.numerals.1, m ≤ k % 256 := by
  have hedges := (List.forall₂_and_left _ _).2 ⟨hdec, (parseBoostTA_eq_some h).2⟩
  have hguard : ∀ {e : Edge DotTransition} {b : Edge BoostTATransition},
      e.property.Decimal ∧ readEdge e = some b →
      ((∃ g ∈ b.property.guard, m ≤ g.x.toNat) ↔ ∃ k ∈ e.property.numerals.1, m ≤ k % 256) := by
    rintro e b ⟨⟨hdec, -⟩, hread⟩
    have hmap := map_toNat_eq_of_readGuard (readEdge_eq_some.1 hread).2.2.2.2 hdec
    have hclock : (∃ g ∈ b.property.guard, m ≤ g.x.toNat) ↔
        ∃ y ∈ b.property.guard.map fun g => g.x.toNat, m ≤ y := by simp
    rw [hclock, hmap]
    simp [DotTransition.numerals]
  rw [lt_clockSize_iff]
  constructor
  · rintro ⟨b, hb, hg⟩
    obtain ⟨e, he, hR⟩ := Related.exists_left hedges b hb
    exact ⟨e, he, (hguard hR).1 hg⟩
  · rintro ⟨e, he, hk⟩
    obtain ⟨b, hb, hR⟩ := Related.exists_right hedges e he
    exact ⟨b, hb, (hguard hR).2 hk⟩

theorem maxConstraints_convBoostTA_ne_nil_iff :
    (convBoostTA B).maxConstraints ≠ [] ↔ ∃ e ∈ G.edges, e.property.numerals.1 ≠ [] := by
  rw [← List.length_pos_iff]
  refine (lt_clockSize_convBoostTA_iff h hdec 0).trans (exists_congr fun e => ?_)
  refine and_congr_right fun _ => ⟨fun ⟨_, hk, _⟩ => List.ne_nil_of_mem hk, fun hne => ?_⟩
  exact (List.exists_mem_of_ne_nil _ hne).imp fun k hk => ⟨hk, Nat.zero_le _⟩

/-- If the clocks keep their numerals, these are their own remainders. -/
theorem ClocksSurvive.mod_eq (hS : ClocksSurvive G (convBoostTA B))
    {e : Edge DotTransition} (he : e ∈ G.edges) :
    (∀ k ∈ e.property.numerals.1, k % 256 = k) ∧ ∀ k ∈ e.property.numerals.2, k % 256 = k := by
  have hmap := (clockNumbers_next h hdec e.source e.property.label).symm.trans
    (hS.named e.source e.property.label)
  obtain ⟨hguard, hreset⟩ :=
    Prod.mk.inj (List.map_inj_left.1 hmap e (mem_leaving.2 ⟨he, rfl, rfl⟩))
  exact ⟨List.map_inj_left.1 (hguard.trans (List.map_id _).symm),
    List.map_inj_left.1 (hreset.trans (List.map_id _).symm)⟩

theorem ClocksSurvive.clocksFit (hS : ClocksSurvive G (convBoostTA B)) : ClocksFit G := by
  have hnames := names_convBoostTA_iff h hdec
  have hclock : ∀ {k : ℕ}, k % 256 = k → k % 256 = (UInt8.ofNat k).toNat := fun _ =>
    UInt8.toNat_ofNat'.symm
  refine ⟨fun e he k hk => ?_, ?_, fun e he k hk => ?_⟩
  · have hkmod := (hS.mod_eq h hdec he).1 k hk
    have hrow := (hS.row (UInt8.ofNat k) ((hnames _).2 ⟨e, he, Or.inl ⟨k, hk, hclock hkmod⟩⟩)).1
    rw [← hclock hkmod, hkmod] at hrow
    -- the row of the clock `255` is that of the reference point
    by_contra hk
    obtain rfl : k = 255 := by omega
    exact absurd hrow (by simp)
  · exact (maxConstraints_convBoostTA_ne_nil_iff h hdec).1 hS.maxConstraints_ne_nil
  · have hkmod := (hS.mod_eq h hdec he).2 k hk
    have hlt := hS.lt_clockSize (UInt8.ofNat k)
      ((hnames _).2 ⟨e, he, Or.inr ⟨k, hk, hclock hkmod⟩⟩)
    obtain ⟨e', he', k', hk', hle⟩ := (lt_clockSize_convBoostTA_iff h hdec _).1 hlt
    refine ⟨e', he', k', hk', ?_⟩
    rwa [← hclock hkmod, hkmod, (hS.mod_eq h hdec he').1 k' hk'] at hle

/-- The clocks that the automaton names have rows of their own. -/
theorem ClocksFit.hasRow (hF : ClocksFit G) {x : ClockVariables}
    (hx : (convBoostTA B).Names x) : HasRow (convBoostTA B).clockSize x := by
  -- a guard has a clock with a numeral not below `x`
  obtain ⟨e, he, k, hk, hle⟩ : ∃ e ∈ G.edges, ∃ k ∈ e.property.numerals.1, x.toNat ≤ k := by
    obtain ⟨e, he, ⟨k, hk, hkx⟩ | ⟨k, hk, hkx⟩⟩ := (names_convBoostTA_iff h hdec x).1 hx
    · exact ⟨e, he, k, hk, by rw [← hkx]; exact Nat.mod_le k 256⟩
    · obtain ⟨e', he', k', hk', hle⟩ := hF.reset_le e he k hk
      exact ⟨e', he', k', hk', by rw [← hkx]; exact (Nat.mod_le k 256).trans hle⟩
  refine ⟨(lt_clockSize_convBoostTA_iff h hdec _).2 ⟨e, he, k, hk, ?_⟩, ?_⟩
  · rwa [(hF.mod_eq he).1 k hk]
  · rintro rfl
    exact absurd (hle.trans (hF.guard_le e he k hk)) (by decide)

theorem ClocksFit.clocksSurvive (hF : ClocksFit G) :
    ClocksSurvive G (convBoostTA B) := by
  refine ⟨fun v c => ?_, fun x hx => (hF.hasRow h hdec hx).1,
    (maxConstraints_convBoostTA_ne_nil_iff h hdec).2 hF.constrained, fun x hx => ?_⟩
  · rw [clockNumbers_next h hdec]
    refine List.map_congr_left fun e he => ?_
    obtain ⟨hguards, hresets⟩ := hF.mod_eq (mem_leaving.1 he).1
    exact Prod.ext ((List.map_congr_left hguards).trans (List.map_id _))
      ((List.map_congr_left hresets).trans (List.map_id _))
  · have hrow := hF.hasRow h hdec hx
    have hlt := hrow.1
    rw [hrow.val_row]
    omega

end

/-- A filter can be built. -/
theorem ClocksFit.buildable (h : parseBoostTA G = some B)
    (hdec : ∀ e ∈ G.edges, e.property.Decimal) (hF : ClocksFit G) : (convBoostTA B).Buildable :=
  ⟨(maxConstraints_convBoostTA_ne_nil_iff h hdec).2 hF.constrained,
    fun _ hx => (hF.hasRow h hdec hx).1⟩

/-- And its matrices read the transitions as they are, unless a bound overflows. -/
theorem ClocksFit.reachedFit (h : parseBoostTA G = some B)
    (hdec : ∀ e ∈ G.edges, e.property.Decimal) (hF : ClocksFit G)
    (hover : ∀ e ∈ B.edges, ∀ g ∈ e.property.guard, ¬ g.Overflows) :
    (convBoostTA B).ReachedFit (convBoostTA B).clockSize := by
  intro π s hπ _ c tr htr
  refine ⟨fun x hx => hF.hasRow h hdec ⟨s, hπ.mem_states, c, tr, htr, hx⟩, fun g hg => ?_⟩
  rw [next_convBoostTA] at htr
  obtain ⟨e, he, rfl⟩ := List.mem_map.1 htr
  exact hover e (BoostGraph.mem_outEdges.1 (List.mem_of_mem_filter he)).1 g hg

/-- **When the clocks survive**: exactly if they fit. -/
theorem clocksSurvive_iff (G : DotGraph) (B : BoostTimedAutomaton) (h : parseBoostTA G = some B)
    (hdec : ∀ e ∈ G.edges, e.property.Decimal) :
    ClocksSurvive G (convBoostTA B) ↔ ClocksFit G :=
  ⟨fun hS => hS.clocksFit h hdec, fun hF => hF.clocksSurvive h hdec⟩

/-- One vertex, with an edge on `a` that has one reset and one constraint. -/
def loopGraph (reset guard : String) : DotGraph where
  vertices := [⟨true, true⟩]
  edges := [⟨0, 0, ⟨97, braces [reset.toList], braces [guard.toList]⟩⟩]
  source_lt := by simp
  target_lt := by simp

/-- The clock of the guard is reset. -/
theorem clocksSurvive_loopGraph : ∃ B, parseBoostTA (loopGraph "0" "x0 < 1") = some B ∧
    ClocksSurvive (loopGraph "0" "x0 < 1") (convBoostTA B) := by
  obtain ⟨B, hB⟩ := Option.isSome_iff_exists.1 (by decide +kernel :
    (parseBoostTA (loopGraph "0" "x0 < 1")).isSome)
  refine ⟨B, hB, (clocksSurvive_iff _ B hB (by decide +kernel)).2 ⟨?_, ?_, ?_⟩⟩ <;> decide +kernel

/-- A clock is reset that no guard has: its row is none of the matrix. -/
theorem not_clocksSurvive_loopGraph : ∃ B,
    parseBoostTA (loopGraph "1" "x0 < 1") = some B ∧
      (∀ e ∈ (loopGraph "1" "x0 < 1").edges, e.property.Decimal) ∧
      ¬ ClocksSurvive (loopGraph "1" "x0 < 1") (convBoostTA B) := by
  obtain ⟨B, hB⟩ := Option.isSome_iff_exists.1 (by decide +kernel :
    (parseBoostTA (loopGraph "1" "x0 < 1")).isSome)
  have hdec : ∀ e ∈ (loopGraph "1" "x0 < 1").edges, e.property.Decimal := by decide +kernel
  refine ⟨B, hB, hdec, fun hS => ?_⟩
  exact absurd (hS.clocksFit hB hdec).reset_le (by decide +kernel)

end MooreFilter
