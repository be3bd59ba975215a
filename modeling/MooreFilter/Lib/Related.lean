/-
  Lists related element by element.

  What one list of a `Forall₂` has, the other has: elements (`exists_left`), an
  order (`pairwise`), a first element with a property (`find?_eq_some`), the same
  images (`map_filter_eq`).  A list and its image under a partial function are
  related (`forall₂_of_mapM`).
-/
import Mathlib.Data.List.Forall2

namespace Related

variable {α β : Type*} {R : α → β → Prop} {l : List α} {l' : List β}

theorem exists_left (h : List.Forall₂ R l l') : ∀ b ∈ l', ∃ a ∈ l, R a b := by
  induction h with
  | nil => simp
  | cons hR _ ih =>
    intro b hb
    rcases List.mem_cons.1 hb with rfl | hb
    · exact ⟨_, List.mem_cons_self, hR⟩
    · obtain ⟨a, ha, hR⟩ := ih b hb
      exact ⟨a, List.mem_cons_of_mem _ ha, hR⟩

theorem exists_right (h : List.Forall₂ R l l') : ∀ a ∈ l, ∃ b ∈ l', R a b :=
  exists_left h.flip

theorem pairwise {r : α → α → Prop} {s : β → β → Prop} (h : List.Forall₂ R l l')
    (hl' : l'.Pairwise s) (hrs : ∀ a a' b b', R a b → R a' b' → s b b' → r a a') :
    l.Pairwise r := by
  induction h with
  | nil => exact List.Pairwise.nil
  | @cons x y l l' hxy hl ih =>
    obtain ⟨hy, hl'⟩ := List.pairwise_cons.1 hl'
    refine List.pairwise_cons.2 ⟨fun a ha => ?_, ih hl'⟩
    obtain ⟨b, hb, hR⟩ := exists_right hl a ha
    exact hrs _ _ _ _ hxy hR (hy b hb)

theorem find?_eq_some {p : α → Bool} {q : β → Bool} (h : List.Forall₂ R l l')
    (hpq : ∀ a b, R a b → p a = q b) {b : β} (hb : l'.find? q = some b) :
    ∃ a, l.find? p = some a ∧ R a b := by
  induction h with
  | nil => simp at hb
  | @cons x y l l' hxy _ ih =>
    by_cases hq : q y = true
    · rw [List.find?_cons_of_pos hq] at hb
      obtain rfl := Option.some.inj hb
      exact ⟨x, List.find?_cons_of_pos ((hpq x y hxy).trans hq), hxy⟩
    · rw [List.find?_cons_of_neg hq] at hb
      obtain ⟨a, ha, hR⟩ := ih hb
      exact ⟨a, by rw [List.find?_cons_of_neg (by rw [hpq x y hxy]; exact hq)]; exact ha, hR⟩

/-- Related elements are kept together, and mapped to the same. -/
theorem map_filter_eq {γ : Type*} {p : α → Bool} {q : β → Bool} {f : α → γ} {g : β → γ}
    (h : List.Forall₂ R l l') (hpq : ∀ a b, R a b → p a = q b) (hfg : ∀ a b, R a b → f a = g b) :
    (l.filter p).map f = (l'.filter q).map g := by
  induction h with
  | nil => rfl
  | @cons a b l l' hab _ ih =>
    rw [List.filter_cons, List.filter_cons, hpq a b hab]
    split_ifs
    · rw [List.map_cons, List.map_cons, ih, hfg a b hab]
    · exact ih

/-- The results of a partial function for the elements of a list. -/
theorem forall₂_of_mapM {f : α → Option β} (h : l.mapM f = some l') :
    List.Forall₂ (fun a b => f a = some b) l l' := by
  induction l generalizing l' with
  | nil =>
    rw [List.mapM_nil] at h
    obtain rfl := Option.some.inj h
    exact .nil
  | cons a l ih =>
    rw [List.mapM_cons] at h
    obtain ⟨b, hb, h⟩ := Option.bind_eq_some_iff.1 h
    obtain ⟨l₁, hl₁, h⟩ := Option.bind_eq_some_iff.1 h
    obtain rfl := Option.some.inj h
    exact .cons hb (ih hl₁)

theorem exists_mapM {f : α → Option β} (h : ∀ a ∈ l, ∃ b, f a = some b) :
    ∃ l', l.mapM f = some l' := by
  induction l with
  | nil => exact ⟨[], rfl⟩
  | cons a l ih =>
    obtain ⟨b, hb⟩ := h a (by simp)
    obtain ⟨l', hl'⟩ := ih fun a ha => h a (by simp [ha])
    exact ⟨b :: l', by rw [List.mapM_cons, hb, hl']; rfl⟩

end Related
