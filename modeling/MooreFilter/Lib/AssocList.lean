/-
  Association lists with list values, as maps from keys to vectors.

  `push` appends to the vector of a key (`m[k].push_back`), `collect` does so for
  a list of keys with vectors; `lookup_collect` says what the result holds at
  each key, `lookup_collect_flatMap` what it holds when several maps are merged.
-/
import Mathlib.Data.List.AList
import Mathlib.Data.List.Induction

namespace AssocList

variable {κ : Type*} [DecidableEq κ] {β γ : Type*}

theorem lookup_replace (a : κ) (b : γ) (m : AList fun _ : κ => γ) (c : κ) :
    (m.replace a b).lookup c = if c = a then (m.lookup a).map fun _ => b else m.lookup c := by
  have hmem : ∀ x, x ∈ (m.replace a b).lookup c ↔
      (c ≠ a ∧ x ∈ m.lookup c) ∨ (c = a ∧ a ∈ m ∧ x = b) := by
    intro x
    rw [AList.mem_lookup_iff, AList.mem_lookup_iff]
    change _ ∈ List.kreplace a b m.entries ↔ _
    have hm : a ∈ m ↔ ∃ y, (⟨a, y⟩ : Sigma fun _ : κ => γ) ∈ m.entries := by
      rw [AList.mem_keys]; exact List.mem_keys
    rw [hm]
    have hnd := m.nodupKeys
    generalize m.entries = l at hnd
    induction l with
    | nil => simp [List.kreplace]
    | cons e l ih =>
      obtain ⟨k, y⟩ := e
      obtain ⟨hk, hnd⟩ := List.nodupKeys_cons.1 hnd
      rw [List.mem_keys] at hk
      rcases eq_or_ne a k with rfl | hak
      · rw [List.kreplace, List.lookmap_cons_some (b := ⟨a, b⟩) _ _ (by simp)]
        rcases eq_or_ne c a with rfl | hc
        · simp only [List.mem_cons, Sigma.mk.injEq, heq_eq_eq, true_and, ne_eq, not_true_eq_false,
            false_and, false_or]
          refine ⟨fun h => ?_, fun h => Or.inl h.2⟩
          rcases h with h | h
          · exact ⟨⟨y, Or.inl rfl⟩, h⟩
          · exact absurd ⟨x, h⟩ hk
        · simp [hc]
      · rw [List.kreplace, List.lookmap_cons_none _ _ (by simp [hak])]
        have := ih hnd
        rw [List.kreplace] at this
        simp only [List.mem_cons, this, Sigma.mk.injEq, heq_eq_eq]
        rcases eq_or_ne c a with rfl | hc <;> simp [*]
  apply Option.ext
  intro x
  have := hmem x
  simp only [Option.mem_def] at this ⊢
  rw [this]
  split_ifs with hc
  · rw [← AList.lookup_isSome]
    cases h : m.lookup a <;> simp [hc, eq_comm]
  · simp [hc]

/-- Append to the vector of a key. -/
def push (m : AList fun _ : κ => List β) (e : κ × List β) : AList fun _ : κ => List β :=
  match m.lookup e.1 with
  | some l => m.replace e.1 (l ++ e.2)
  | none => m.insert e.1 e.2

/-- Append a list of vectors, each to the vector of its key. -/
def collect (es : List (κ × List β)) : AList fun _ : κ => List β :=
  es.foldl push ∅

theorem lookup_push (m : AList fun _ : κ => List β) (e : κ × List β) (c : κ) :
    (push m e).lookup c = if c = e.1 then some ((m.lookup e.1).getD [] ++ e.2) else m.lookup c := by
  unfold push
  split
  · next l h => rw [lookup_replace, h]; rfl
  · next h =>
    rcases eq_or_ne c e.1 with rfl | hc
    · simp [h]
    · rw [AList.lookup_insert_ne hc, if_neg hc]

/-- **What `collect` holds**: at each key that occurs, the vectors of the key in
    their order. -/
theorem lookup_collect (es : List (κ × List β)) (c : κ) :
    (collect es).lookup c =
      if c ∈ es.map Prod.fst then some ((es.filter fun e => e.1 = c).flatMap Prod.snd)
      else none := by
  induction es using List.reverseRecOn with
  | nil => simp [collect]
  | append_singleton es e ih =>
    have h : collect (es ++ [e]) = push (collect es) e := by simp [collect]
    rw [h, lookup_push]
    rcases eq_or_ne c e.1 with rfl | hc
    · have hlast : e ∈ es ++ [e] := List.mem_append_right es (List.mem_singleton_self e)
      rw [ih, if_pos rfl, if_pos (List.mem_map_of_mem hlast), List.filter_append,
        List.flatMap_append]
      by_cases hmem : e.1 ∈ es.map Prod.fst
      · simp [hmem]
      · have : es.filter (fun e' => e'.1 = e.1) = [] := by
          simp only [List.filter_eq_nil_iff, decide_eq_true_eq]
          exact fun e' he' he => hmem (List.mem_map.2 ⟨e', he', he⟩)
        simp [hmem, this]
    · have hmap : c ∈ (es ++ [e]).map Prod.fst ↔ c ∈ es.map Prod.fst := by
        rw [List.map_append, List.mem_append, List.map_singleton, List.mem_singleton,
          or_iff_left hc]
      have hfil : (es ++ [e]).filter (fun e' => e'.1 = c) = es.filter fun e' => e'.1 = c := by
        simp [List.filter_append, hc.symm]
      rw [if_neg hc, ih, hfil]
      simp only [hmap]

theorem filter_entries (m : AList fun _ : κ => γ) (f : γ → List β) (c : κ) :
    ((m.entries.map fun e => (e.1, f e.2)).filter fun e => e.1 = c).flatMap Prod.snd =
      ((m.lookup c).map f).getD [] := by
  have hlk : ∀ x, m.lookup c = some x ↔ (⟨c, x⟩ : Sigma fun _ : κ => γ) ∈ m.entries := fun x =>
    AList.mem_lookup_iff
  cases h : m.lookup c with
  | none =>
    have : (m.entries.map fun e => (e.1, f e.2)).filter (fun e => e.1 = c) = [] := by
      simp only [List.filter_eq_nil_iff, List.mem_map, decide_eq_true_eq]
      rintro _ ⟨⟨k, x⟩, he, rfl⟩ rfl
      rw [(hlk x).2 he] at h; exact absurd h (by simp)
    rw [this]; rfl
  | some x =>
    have hmem := (hlk x).1 h
    obtain ⟨l₁, l₂, hl⟩ := List.append_of_mem hmem
    have hne : ∀ e ∈ l₁ ++ l₂, e.1 ≠ c := by
      have hp := List.nodupKeys_iff_pairwise.1 m.nodupKeys
      rw [hl] at hp
      intro e he
      rcases List.mem_append.1 he with he | he
      · exact (List.pairwise_append.1 hp).2.2 e he ⟨c, x⟩ (by simp)
      · exact ((List.pairwise_cons.1 (List.pairwise_append.1 hp).2.1).1 e he).symm
    have hnil : ∀ l : List (Sigma fun _ : κ => γ), (∀ e ∈ l, e.1 ≠ c) →
        (l.map fun e => (e.1, f e.2)).filter (fun e => e.1 = c) = [] := by
      intro l hl
      simp only [List.filter_eq_nil_iff, List.mem_map, decide_eq_true_eq]
      rintro _ ⟨e, he, rfl⟩ hc; exact hl e he hc
    rw [hl, List.map_append, List.filter_append, List.map_cons, List.filter_cons,
      hnil l₁ fun e he => hne e (List.mem_append_left _ he),
      hnil l₂ fun e he => hne e (List.mem_append_right _ he)]
    simp

/-- **Merging maps**: at each key, the vectors of the maps in their order. -/
theorem lookup_collect_flatMap {ι : Type*} (s : List ι) (m : ι → AList fun _ : κ => γ)
    (f : ι → γ → List β) (c : κ) :
    (collect (s.flatMap fun i => (m i).entries.map fun e => (e.1, f i e.2))).lookup c =
      if ∃ i ∈ s, c ∈ m i then some (s.flatMap fun i => (((m i).lookup c).map (f i)).getD [])
      else none := by
  have hmem : c ∈ (s.flatMap fun i => (m i).entries.map fun e => (e.1, f i e.2)).map Prod.fst ↔
      ∃ i ∈ s, c ∈ m i := by
    simp only [List.mem_map, List.mem_flatMap, AList.mem_keys, AList.keys, List.keys]
    constructor
    · rintro ⟨_, ⟨i, hi, e, he, rfl⟩, rfl⟩
      exact ⟨i, hi, e, he, rfl⟩
    · rintro ⟨i, hi, e, he, rfl⟩
      exact ⟨_, ⟨i, hi, e, he, rfl⟩, rfl⟩
  rw [lookup_collect]
  simp only [hmem, List.filter_flatMap, List.flatMap_assoc, filter_entries]

end AssocList
