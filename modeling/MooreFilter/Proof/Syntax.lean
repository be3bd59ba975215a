/-
  The attribute syntax, written and read back.

  * `writeVector_eq`: a vector is written as its elements in braces;
  * `readVector_eq_some`: such texts are read, with at least one element, and no
    others, where the element reader is given by what it accepts (`Spells`);
  * `spells_readConstraint` is the syntax of a constraint, `spells_readClock` the
    one of a clock;
  * `roundTrips_iff`: of what the writers write, the readers read back the guards
    with a constraint, and nothing else.
-/
import MooreFilter.Parser

namespace MooreFilter

open Text

/-! ## Vectors -/

/-- The texts of the elements, separated. -/
def joined : List (List Char) → List Char
  | [] => []
  | t :: ts => t ++ ts.flatMap fun t => [',', ' '] ++ t

/-- The texts of the elements, separated and in braces. -/
def braces (ts : List (List Char)) : List Char := ['{'] ++ joined ts ++ ['}']

theorem joined_cons_cons (t t' : List Char) (ts : List (List Char)) :
    joined (t :: t' :: ts) = t ++ ',' :: ' ' :: joined (t' :: ts) := by
  simp [joined]

section
variable {α : Type} {read : Istream α} {R : List Char → α → Prop} {is rest : List Char}
  {xs : List α}

theorem writeVector_eq (write : α → List Char) (l : List α) :
    writeVector write l = braces (l.map write) := by
  have hrest : ∀ (l : List α) (os : List Char), (l.foldl (writeItem write) (false, os)).2 =
      os ++ (l.map write).flatMap fun t => [',', ' '] ++ t := by
    intro l
    induction l with
    | nil => intro os; exact (List.append_nil os).symm
    | cons g l ih =>
      intro os
      rw [List.foldl_cons, writeItem, ih]
      simp
  unfold writeVector braces
  congr 1
  cases l with
  | nil => rfl
  | cons g l =>
    rw [List.foldl_cons, writeItem, hrest, List.map_cons, joined]
    simp

/-- What the loop reads: elements, each but the last followed by a separator. -/
theorem readItems_eq_some (h : Spells read R) {fuel : ℕ} :
    readItems read fuel is = some (xs, rest) ↔
      ∃ ts, ts ≠ [] ∧ ts.length ≤ fuel ∧ List.Forall₂ R ts xs ∧ is = joined ts ++ '}' :: rest := by
  induction fuel generalizing is xs with
  | zero =>
    constructor
    · intro hread
      exact absurd hread failure_eq_some
    · rintro ⟨ts, hne, hlen, -⟩
      exact absurd (List.length_eq_zero_iff.1 (Nat.le_zero.1 hlen)) hne
  | succ fuel ih =>
    rw [readItems]
    constructor
    · intro hread
      obtain ⟨x, mid, hx, hnext⟩ := bind_eq_some.1 hread
      obtain ⟨t, hR, his, -⟩ := (h _ _ _).1 hx
      obtain ⟨c, mid', hc, hend⟩ := bind_eq_some.1 hnext
      rw [getc_eq_some.1 hc] at his
      split_ifs at hend with hclose hcomma
      · obtain ⟨rfl, rfl⟩ := pure_eq_some.1 hend
        rw [hclose] at his
        exact ⟨[t], by simp, by simp, .cons hR .nil, by simpa [joined] using his⟩
      · obtain ⟨_, mid, hspace, htail⟩ := bind_eq_some.1 hend
        obtain ⟨xs, _, hxs, hpure⟩ := bind_eq_some.1 htail
        obtain ⟨rfl, rfl⟩ := pure_eq_some.1 hpure
        rw [hcomma, expect_eq_some.1 hspace] at his
        obtain ⟨ts, hne, hlen, hRs, rfl⟩ := ih.1 hxs
        obtain ⟨t', ts, rfl⟩ := List.exists_cons_of_ne_nil hne
        refine ⟨t :: t' :: ts, by simp, Nat.succ_le_succ hlen, .cons hR hRs, ?_⟩
        rw [his, joined_cons_cons]
        simp
      · exact absurd hend failure_eq_some
    · rintro ⟨ts, hne, hlen, hRs, rfl⟩
      cases hRs with
      | nil => exact absurd rfl hne
      | @cons t x ts xs hR hRs =>
        cases hRs with
        | nil =>
          have hstop : NoDigit ('}' :: rest) := by rintro c ⟨⟩; decide
          refine bind_eq_some.2 ⟨x, _, (h _ _ _).2 ⟨t, hR, by simp [joined], hstop⟩, ?_⟩
          refine bind_eq_some.2 ⟨'}', rest, getc_eq_some.2 rfl, ?_⟩
          exact pure_eq_some.2 ⟨rfl, rfl⟩
        | @cons t' x' ts xs hR' hRs =>
          have hstop : NoDigit (',' :: ' ' :: (joined (t' :: ts) ++ '}' :: rest)) := by
            rintro c ⟨⟩; decide
          refine bind_eq_some.2 ⟨x, _, (h _ _ _).2 ⟨t, hR, ?_, hstop⟩, ?_⟩
          · rw [joined_cons_cons]; simp
          refine bind_eq_some.2 ⟨',', _, getc_eq_some.2 rfl, ?_⟩
          refine bind_eq_some.2 ⟨(), _, expect_eq_some.2 rfl, ?_⟩
          refine bind_eq_some.2 ⟨x' :: xs, rest, ih.2 ?_, pure_eq_some.2 ⟨rfl, rfl⟩⟩
          exact ⟨t' :: ts, by simp, Nat.le_of_succ_le_succ hlen, .cons hR' hRs, rfl⟩

theorem length_le_length_joined (ts : List (List Char)) (rest : List Char) :
    ts.length ≤ (joined ts ++ '}' :: rest).length := by
  cases ts with
  | nil => exact Nat.zero_le _
  | cons t ts =>
    have hflat : ts.length ≤ (ts.flatMap fun t => [',', ' '] ++ t).length := by
      induction ts with
      | nil => exact Nat.zero_le _
      | cons t ts ih => simp at ih ⊢; omega
    simp only [joined, List.length_append, List.length_cons]
    omega

/-- **What `readVector` reads**: elements in braces, at least one. -/
theorem readVector_eq_some (h : Spells read R) : readVector read is = some (xs, rest) ↔
    ∃ ts, ts ≠ [] ∧ List.Forall₂ R ts xs ∧ is = braces ts ++ rest := by
  unfold readVector
  rw [bind_eq_some]
  constructor
  · rintro ⟨_, mid, hbrace, hread⟩
    obtain ⟨ts, hne, -, hRs, rfl⟩ := (readItems_eq_some h).1 hread
    exact ⟨ts, hne, hRs, by rw [expect_eq_some.1 hbrace]; simp [braces]⟩
  · rintro ⟨ts, hne, hRs, rfl⟩
    refine ⟨(), joined ts ++ '}' :: rest, expect_eq_some.2 (by simp [braces]), ?_⟩
    exact (readItems_eq_some h).2 ⟨ts, hne, length_le_length_joined ts rest, hRs, rfl⟩

end

/-! ## Constraints and clocks -/

/-- The text of a constraint. -/
def constraintText (clock : IntLiteral) (odr : Constraint.Order) (c : IntLiteral) : List Char :=
  ['x'] ++ clock.text ++ [' '] ++ odr.write ++ [' '] ++ c.text

/-- The text is that of the constraint, where the clock is narrowed to 8 bits. -/
def SpellsConstraint (t : List Char) (p : Constraint) : Prop :=
  ∃ clock c : IntLiteral, IsInt clock.value ∧ t = constraintText clock p.odr c ∧
    p.x = toClock clock.value ∧ p.c.toInt = c.value

/-- The text is a number, whose low 8 bits are the clock. -/
def SpellsClock (t : List Char) (x : ClockVariables) : Prop :=
  ∃ lit : IntLiteral, IsInt lit.value ∧ t = lit.text ∧ x = toClock lit.value

theorem spells_readClock : Spells readClock SpellsClock := by
  intro is x rest
  unfold readClock
  rw [bind_eq_some]
  constructor
  · rintro ⟨v, mid, hv, hpure⟩
    obtain ⟨rfl, rfl⟩ := pure_eq_some.1 hpure
    obtain ⟨t, ⟨hint, lit, rfl, rfl⟩, his, hrest⟩ := (spells_readInt _ _ _).1 hv
    exact ⟨_, ⟨lit, hint, rfl, rfl⟩, his, hrest⟩
  · rintro ⟨t, ⟨lit, hint, rfl, rfl⟩, his, hrest⟩
    refine ⟨lit.value, rest, (spells_readInt _ _ _).2 ?_, pure_eq_some.2 ⟨rfl, rfl⟩⟩
    exact ⟨_, ⟨hint, lit, rfl, rfl⟩, his, hrest⟩

/-- The order is read with the space that follows it. -/
theorem readOrder_eq_some {p : Char × Char} {odr : Constraint.Order} {is rest : List Char} :
    readOrder p is = some (odr, rest) ↔ p.1 :: p.2 :: is = odr.write ++ ' ' :: rest := by
  fun_cases readOrder p
  case case5 hge hgt hle hlt =>
    obtain ⟨a, b⟩ := p
    refine iff_of_false failure_eq_some fun h => ?_
    cases odr <;> simp_all [Constraint.Order.write]
  all_goals
    cases odr <;>
      simp [Constraint.Order.write, map_eq_some, expect_eq_some, pure_eq_some]

theorem spells_readConstraint : Spells readConstraint SpellsConstraint := by
  intro is p rest
  unfold readConstraint
  constructor
  · intro h
    obtain ⟨_, is₁, hx, h⟩ := bind_eq_some.1 h
    obtain ⟨v, is₂, hclock, h⟩ := bind_eq_some.1 h
    obtain ⟨_, is₃, hspace, h⟩ := bind_eq_some.1 h
    obtain ⟨a, is₄, ha, h⟩ := bind_eq_some.1 h
    obtain ⟨b, is₅, hb, h⟩ := bind_eq_some.1 h
    obtain ⟨odr, is₆, hodr, h⟩ := bind_eq_some.1 h
    obtain ⟨c, is₇, hc, h⟩ := bind_eq_some.1 h
    obtain ⟨rfl, rfl⟩ := pure_eq_some.1 h
    obtain ⟨_, ⟨hclockInt, clock, rfl, rfl⟩, rfl, -⟩ := (spells_readInt _ _ _).1 hclock
    obtain ⟨_, ⟨hcInt, c, rfl, rfl⟩, rfl, hrest⟩ := (spells_readInt _ _ _).1 hc
    have hc : (Int32.ofInt c.value).toInt = c.value :=
      Int32.toInt_ofInt_of_le hcInt.1 hcInt.2
    refine ⟨_, ⟨clock, c, hclockInt, rfl, rfl, hc⟩, ?_, hrest⟩
    rw [expect_eq_some.1 hx, expect_eq_some.1 hspace, getc_eq_some.1 ha, getc_eq_some.1 hb,
      readOrder_eq_some.1 hodr]
    simp [constraintText]
  · rintro ⟨_, ⟨clock, c, hclock, rfl, hx, hpc⟩, rfl, hrest⟩
    obtain ⟨x, odr, pc⟩ := p
    obtain rfl : x = _ := hx
    have hpc : pc.toInt = c.value := hpc
    have hc : IsInt c.value := hpc ▸ ⟨pc.le_toInt, pc.toInt_lt⟩
    obtain rfl : pc = Int32.ofInt c.value := by rw [← hpc, Int32.ofInt_toInt]
    have hspace : ∀ l, NoDigit (' ' :: l) := by rintro l c ⟨⟩; decide
    obtain ⟨a, b, tail, hodr⟩ : ∃ a b tail,
        odr.write ++ ' ' :: (c.text ++ rest) = a :: b :: tail := by
      cases odr <;> exact ⟨_, _, _, rfl⟩
    refine bind_eq_some.2 ⟨(), clock.text ++ ' ' :: a :: b :: tail, expect_eq_some.2 ?_, ?_⟩
    · simp [constraintText, ← hodr]
    refine bind_eq_some.2 ⟨clock.value, ' ' :: a :: b :: tail, ?_, ?_⟩
    · exact (spells_readInt _ _ _).2 ⟨_, ⟨hclock, clock, rfl, rfl⟩, rfl, hspace _⟩
    refine bind_eq_some.2 ⟨(), a :: b :: tail, expect_eq_some.2 rfl, ?_⟩
    refine bind_eq_some.2 ⟨a, b :: tail, getc_eq_some.2 rfl, ?_⟩
    refine bind_eq_some.2 ⟨b, tail, getc_eq_some.2 rfl, ?_⟩
    refine bind_eq_some.2 ⟨odr, c.text ++ rest, readOrder_eq_some.2 hodr.symm, ?_⟩
    refine bind_eq_some.2 ⟨c.value, rest, ?_, pure_eq_some.2 ⟨rfl, rfl⟩⟩
    exact (spells_readInt _ _ _).2 ⟨_, ⟨hc, c, rfl, rfl⟩, rfl, hrest⟩

/-! ## Reading back -/

/-- What is written is read back, to its end. -/
def RoundTrips {α : Type} (write : α → List Char) (read : Istream α) (x : α) : Prop :=
  read (write x) = some (x, [])

theorem toNat_toClock (v : ℤ) : ((toClock v).toNat : ℤ) = v % 256 := by
  unfold toClock UInt8.ofInt
  rw [UInt8.toNat_ofNat']
  omega

theorem toClock_toNat (x : ClockVariables) : toClock x.toNat = x := by
  apply UInt8.toNat_inj.1
  have h := toNat_toClock x.toNat
  have hx := x.toNat_lt
  omega

/-- A constraint is spelled by what is written for it. -/
theorem spellsConstraint_write (p : Constraint) : SpellsConstraint p.write p := by
  refine ⟨.ofInt p.x.toNat, .ofInt p.c.toInt, ?_, ?_, ?_, ?_⟩
  · have hx := p.x.toNat_lt
    rw [IntLiteral.value_ofInt]
    constructor <;> omega
  · rw [constraintText, IntLiteral.text_ofInt, IntLiteral.text_ofInt, Constraint.write]
  · rw [IntLiteral.value_ofInt, toClock_toNat]
  · rw [IntLiteral.value_ofInt]

/-- A guard is read back iff it is not empty. -/
theorem roundTrips_guard_iff {guard : List Constraint} :
    RoundTrips writeGuard readGuard guard ↔ guard ≠ [] := by
  unfold RoundTrips writeGuard readGuard
  rw [writeVector_eq, readVector_eq_some spells_readConstraint]
  constructor
  · rintro ⟨ts, hne, hts, -⟩ rfl
    exact hne (List.forall₂_nil_right_iff.1 hts)
  · intro hne
    refine ⟨guard.map Constraint.write, by simpa using hne, ?_, (List.append_nil _).symm⟩
    rw [List.forall₂_map_left_iff]
    exact List.forall₂_same.2 fun g _ => spellsConstraint_write g

/-- The character with the code `x` does not begin a number that is read as `x`. -/
theorem not_spellsClock_writeChar {x : ClockVariables} {t tail tail' : List Char}
    (htail : NoDigit tail) (h : writeChar x ++ tail = t ++ tail') : ¬ SpellsClock t x := by
  rintro ⟨⟨sign, digits, hsign, hne, hdigits⟩, -, rfl, hx⟩
  obtain ⟨d, digits, rfl⟩ := List.exists_cons_of_ne_nil hne
  have hd : d.isDigit = true := hdigits d (by simp)
  have hfalse : ∀ {c}, c.isDigit = true → c ∈ tail.head? → False := fun hc hmem =>
    Bool.false_ne_true ((htail _ hmem).symm.trans hc)
  rcases mem_signs.1 hsign with rfl | rfl | rfl
  · obtain ⟨hchar, rfl⟩ := List.cons.inj (h : Char.ofNat x.toNat :: tail = d :: (digits ++ tail'))
    cases digits with
    | nil =>
      -- the digit with the code `x` is read as `x - 48`
      have hcode : d.toNat = x.toNat := by
        have hvalid : x.toNat.isValidChar := Or.inl (x.toNat_lt.trans (by decide))
        rw [← hchar, Char.ofNat, dif_pos hvalid]; rfl
      have hrange : 48 ≤ d.toNat ∧ d.toNat ≤ 57 := Char.isDigit_iff_toNat.1 hd
      have hvalue : IntLiteral.value ⟨[], [d], hsign, hne, hdigits⟩ = (d.toNat - 48 : ℕ) := by
        simp [IntLiteral.value, signed, Nat.ofDigitChars_cons]
      have hread := toNat_toClock (d.toNat - 48 : ℕ)
      rw [← hvalue, ← hx] at hread
      omega
    | cons d' digits => exact hfalse (hdigits d' (by simp)) rfl
  · obtain ⟨-, rfl⟩ := List.cons.inj (h : _ :: tail = '+' :: (d :: (digits ++ tail')))
    exact hfalse hd rfl
  · obtain ⟨-, rfl⟩ := List.cons.inj (h : _ :: tail = '-' :: (d :: (digits ++ tail')))
    exact hfalse hd rfl

/-- No list of clocks is read back. -/
theorem not_roundTrips_resetVars (resetVars : List ClockVariables) :
    ¬ RoundTrips writeResetVars readResetVars resetVars := by
  unfold RoundTrips writeResetVars readResetVars
  rw [writeVector_eq, readVector_eq_some spells_readClock]
  rintro ⟨ts, hne, hts, h⟩
  cases hts with
  | nil => exact hne rfl
  | @cons t x ts xs ht hts =>
    rw [List.append_nil, braces, braces, List.map_cons, joined, joined] at h
    have htail : NoDigit (((xs.map writeChar).flatMap fun t => [',', ' '] ++ t) ++ ['}']) := by
      cases xs <;> rintro c ⟨⟩ <;> decide
    rw [List.append_assoc, List.append_assoc, List.append_assoc, List.append_assoc,
      List.append_cancel_left_eq] at h
    exact not_spellsClock_writeChar htail h ht

/-- **What is read back**: the guards with a constraint, and no list of clocks. -/
theorem roundTrips_iff (guard : List Constraint) (resetVars : List ClockVariables) :
    (RoundTrips writeGuard readGuard guard ↔ guard ≠ []) ∧
      ¬ RoundTrips writeResetVars readResetVars resetVars :=
  ⟨roundTrips_guard_iff, not_roundTrips_resetVars resetVars⟩

/-- Two constraints, one with a negative constant. -/
theorem roundTrips_twoConstraints :
    RoundTrips writeGuard readGuard [⟨0, .lt, 1⟩, ⟨255, .ge, -5⟩] :=
  (roundTrips_iff [⟨0, .lt, 1⟩, ⟨255, .ge, -5⟩] []).1.2 (by decide)

/-- The empty guard, and the list of the clock `1`. -/
theorem not_roundTrips_nil :
    ¬ RoundTrips writeGuard readGuard [] ∧ ¬ RoundTrips writeResetVars readResetVars [1] := by
  unfold RoundTrips
  decide +kernel

end MooreFilter
