/-
  Reading values from a text.

  An `Istream α` reads a value at the front of a text and leaves the rest, or
  fails; no whitespace is skipped.

  * `getc`, `expect c` and `readInt` read a character, the character `c` and a
    decimal `int`; `writeInt` writes one;
  * `bind_eq_some` takes the reading of two values one after the other apart;
  * an `IntLiteral` is a sign with digits; `readInt` reads these, as long as
    possible, if the value is an `int` (`spells_readInt`);
  * `Spells p R` says so of any reader `p`: it reads the texts `t` with `R t x`
    as `x`, where no digit follows.
-/
import Mathlib.Algebra.Group.Int.Defs
import Mathlib.Data.List.TakeWhile
import Mathlib.Data.Nat.Notation
import Mathlib.Tactic.Common

namespace Text

/-! ## Streams -/

/-- A reader: the value and the rest of the text, or nothing on failure. -/
abbrev Istream := StateT (List Char) Option

/-- `is.get()`, where the end of the text is a failure. -/
def getc : Istream Char := fun is =>
  match is with
  | [] => none
  | c :: is => some (c, is)

/-- `is.get()`, which fails unless it reads `c`. -/
def expect (c : Char) : Istream Unit := do
  let d ← getc
  if d = c then return () else failure

section
variable {α β : Type} {p : Istream α} {f : α → Istream β} {is rest : List Char}

/-- Reading two values one after the other. -/
theorem bind_eq_some {b : β} : (p >>= f) is = some (b, rest) ↔
    ∃ a mid, p is = some (a, mid) ∧ f a mid = some (b, rest) := by
  change (p is).bind (fun r => f r.1 r.2) = _ ↔ _
  rw [Option.bind_eq_some_iff, Prod.exists]

theorem pure_eq_some {a b : α} :
    (pure a : Istream α) is = some (b, rest) ↔ a = b ∧ is = rest := by
  change some (a, is) = some (b, rest) ↔ _
  rw [Option.some.injEq, Prod.mk.injEq]

theorem failure_eq_some {b : α} : ¬ (failure : Istream α) is = some (b, rest) :=
  (Option.some_ne_none (b, rest)).symm

theorem map_eq_some {g : α → β} {b : β} :
    (g <$> p) is = some (b, rest) ↔ ∃ a, p is = some (a, rest) ∧ g a = b := by
  rw [map_eq_pure_bind, bind_eq_some]
  simp only [pure_eq_some]
  constructor
  · rintro ⟨a, mid, hp, hb, rfl⟩; exact ⟨a, hp, hb⟩
  · rintro ⟨a, hp, hb⟩; exact ⟨a, rest, hp, hb, rfl⟩

theorem getc_eq_some {c : Char} : getc is = some (c, rest) ↔ is = c :: rest := by
  cases is <;> simp [getc]

theorem expect_eq_some {c : Char} {u : Unit} :
    expect c is = some (u, rest) ↔ is = c :: rest := by
  unfold expect
  rw [bind_eq_some]
  constructor
  · rintro ⟨d, mid, hd, h⟩
    rw [getc_eq_some] at hd
    split_ifs at h with hdc
    · rw [hd, hdc, (pure_eq_some.1 h).2]
    · exact absurd h failure_eq_some
  · rintro rfl
    refine ⟨c, rest, getc_eq_some.2 rfl, ?_⟩
    rw [if_pos rfl]
    exact pure_eq_some.2 ⟨rfl, rfl⟩

end

/-! ## Integers -/

/-- The values of an `int`. -/
def IsInt (v : ℤ) : Prop := -2 ^ 31 ≤ v ∧ v < 2 ^ 31

instance (v : ℤ) : Decidable (IsInt v) := inferInstanceAs (Decidable (_ ∧ _))

/-- The number `n`, or `-n`. -/
def signed (neg : Bool) (n : ℕ) : ℤ := if neg then -n else n

/-- `os << v` -/
def writeInt (v : ℤ) : List Char :=
  if v < 0 then '-' :: Nat.toDigits 10 v.natAbs else Nat.toDigits 10 v.natAbs

/-- An optional sign: is it `-`? -/
def readSign : Istream Bool := fun is =>
  match is with
  | '-' :: is => some (true, is)
  | '+' :: is => some (false, is)
  | is => some (false, is)

/-- The digits at the front. -/
def readDigits : Istream (List Char) := fun is =>
  some (is.takeWhile Char.isDigit, is.dropWhile Char.isDigit)

/-- `is >> v` for an `int`: a sign, and at least one digit. -/
def readInt : Istream ℤ := do
  let neg ← readSign
  let digits ← readDigits
  let v := signed neg (Nat.ofDigitChars 10 digits 0)
  if digits ≠ [] ∧ IsInt v then return v else failure

theorem mem_signs {sign : List Char} :
    sign ∈ [[], ['+'], ['-']] ↔ sign = [] ∨ sign = ['+'] ∨ sign = ['-'] := by
  simp only [List.mem_cons, List.not_mem_nil, or_false]

/-- An integer in a text. -/
structure IntLiteral where
  sign : List Char
  digits : List Char
  sign_mem : sign ∈ [[], ['+'], ['-']]
  digits_ne_nil : digits ≠ []
  isDigit : ∀ c ∈ digits, c.isDigit = true

namespace IntLiteral

def text (lit : IntLiteral) : List Char := lit.sign ++ lit.digits

def value (lit : IntLiteral) : ℤ :=
  signed (lit.sign = ['-']) (Nat.ofDigitChars 10 lit.digits 0)

/-- The literal that is written for a number. -/
def ofInt (v : ℤ) : IntLiteral where
  sign := if v < 0 then ['-'] else []
  digits := Nat.toDigits 10 v.natAbs
  sign_mem := by split_ifs <;> simp
  digits_ne_nil := Nat.toDigits_ne_nil
  isDigit _ hc := Nat.isDigit_of_mem_toDigits (by decide) (by decide) hc

theorem text_ofInt (v : ℤ) : (ofInt v).text = writeInt v := by
  unfold text ofInt writeInt
  dsimp only
  split_ifs <;> rfl

theorem value_ofInt (v : ℤ) : (ofInt v).value = v := by
  have hsign : decide ((ofInt v).sign = ['-']) = decide (v < 0) := by
    unfold ofInt
    by_cases hv : v < 0 <;> simp [hv]
  rw [value, hsign, signed, ofInt, Nat.ofDigitChars_ten_toDigits]
  by_cases hv : v < 0
  · rw [if_pos (decide_eq_true hv)]; omega
  · rw [if_neg (by simpa using hv)]; omega

end IntLiteral

/-! ## What a reader accepts -/

/-- The text does not go on with a digit. -/
def NoDigit (rest : List Char) : Prop := ∀ c ∈ rest.head?, c.isDigit = false

/-- The reader `p` reads the texts `t` with `R t x` as `x`, if no digit follows,
    and no others. -/
def Spells {α : Type} (p : Istream α) (R : List Char → α → Prop) : Prop :=
  ∀ is x rest, p is = some (x, rest) ↔ ∃ t, R t x ∧ is = t ++ rest ∧ NoDigit rest

section
variable {rest digits : List Char}

theorem noDigit_dropWhile (is : List Char) : NoDigit (is.dropWhile Char.isDigit) := by
  intro c hc
  have h := List.head?_dropWhile_not Char.isDigit is
  rw [Option.mem_def.1 hc] at h
  simpa using h

theorem readDigits_append (hdigits : ∀ c ∈ digits, c.isDigit = true) (hrest : NoDigit rest) :
    readDigits (digits ++ rest) = some (digits, rest) := by
  have hstop : rest.takeWhile Char.isDigit = [] ∧ rest.dropWhile Char.isDigit = rest := by
    cases rest with
    | nil => exact ⟨rfl, rfl⟩
    | cons c rest =>
      have hc : ¬ c.isDigit = true := by rw [hrest c rfl]; exact Bool.false_ne_true
      exact ⟨List.takeWhile_cons_of_neg hc, List.dropWhile_cons_of_neg hc⟩
  rw [readDigits, List.takeWhile_append_of_pos hdigits, List.dropWhile_append_of_pos hdigits,
    hstop.1, hstop.2, List.append_nil]

theorem readSign_append (lit : IntLiteral) (rest : List Char) :
    readSign (lit.sign ++ (lit.digits ++ rest)) =
      some (decide (lit.sign = ['-']), lit.digits ++ rest) := by
  obtain ⟨sign, digits, hsign, hne, hdigits⟩ := lit
  obtain ⟨c, digits, rfl⟩ := List.exists_cons_of_ne_nil hne
  have hc : c.isDigit = true := hdigits c (by simp)
  rcases mem_signs.1 hsign with rfl | rfl | rfl
  · -- without a sign, the first digit is none
    have hplus : c ≠ '+' := by rintro rfl; exact absurd hc (by decide)
    have hminus : c ≠ '-' := by rintro rfl; exact absurd hc (by decide)
    simp [readSign, hplus, hminus]
  · rfl
  · rfl

/-- The signs. -/
theorem readSign_eq_some {neg : Bool} {is mid : List Char} (h : readSign is = some (neg, mid)) :
    ∃ sign ∈ [[], ['+'], ['-']], neg = decide (sign = ['-']) ∧ is = sign ++ mid := by
  unfold readSign at h
  split at h <;> obtain ⟨rfl, rfl⟩ := Prod.mk.inj (Option.some.inj h)
  · exact ⟨['-'], by simp, rfl, rfl⟩
  · exact ⟨['+'], by simp, rfl, rfl⟩
  · exact ⟨[], by simp, rfl, rfl⟩

/-- **What `readInt` reads**: the literals whose value is an `int`. -/
theorem spells_readInt :
    Spells readInt fun t v => IsInt v ∧ ∃ lit : IntLiteral, t = lit.text ∧ v = lit.value := by
  intro is v rest
  constructor
  · intro h
    obtain ⟨neg, mid, hsign, h⟩ := bind_eq_some.1 h
    obtain ⟨digits, rest', hdigits, h⟩ := bind_eq_some.1 h
    obtain ⟨sign, hmem, rfl, rfl⟩ := readSign_eq_some hsign
    obtain ⟨rfl, rfl⟩ := Prod.mk.inj (Option.some.inj hdigits)
    split_ifs at h with hok
    · obtain ⟨rfl, rfl⟩ := pure_eq_some.1 h
      refine ⟨sign ++ mid.takeWhile Char.isDigit, ⟨hok.2, ?_⟩, ?_, noDigit_dropWhile mid⟩
      · exact ⟨⟨sign, _, hmem, hok.1, fun c hc => List.mem_takeWhile_imp hc⟩, rfl, rfl⟩
      · rw [List.append_assoc, List.takeWhile_append_dropWhile]
    · exact absurd h failure_eq_some
  · rintro ⟨t, ⟨hint, lit, rfl, rfl⟩, rfl, hrest⟩
    unfold readInt
    rw [IntLiteral.text, List.append_assoc]
    refine bind_eq_some.2 ⟨_, _, readSign_append lit rest, ?_⟩
    refine bind_eq_some.2 ⟨_, _, readDigits_append lit.isDigit hrest, ?_⟩
    rw [if_pos ⟨lit.digits_ne_nil, hint⟩]
    exact pure_eq_some.2 ⟨rfl, rfl⟩

end

end Text
