import Mathlib

/-!
# Cyclic linked lists

A function `next` runs through the list `x :: l` as a cycle if each element is followed by the one after it and the last
by `x` (`Cyclic`). The list can be read from any of its elements (`Cyclic.rotate`, `Cyclic.read_from`); `next` is
injective on it (`Cyclic.inj`) and leads from each element to all others (`Cyclic.mem_iff`); the list is determined by
`next` and its head (`Cyclic.unique`); and a loop `for (x = x₀; !stop(x); x = next(x))` that starts in the cycle ends at the
only element where it can (`walk_cyclic`).
-/

namespace CyclicList

variable {α : Type*} {next next' : α → α}

/-- Each element is linked to the one after it. -/
def Linked (next : α → α) (l : List α) : Prop := l.IsChain fun x y => next x = y

/-- `next` runs through the list and back to its first element. -/
def Cyclic (next : α → α) : List α → Prop
  | [] => False
  | x :: l => Linked next (x :: l ++ [x])

/-! ## Links -/

theorem linked_split {l₁ l₂ : List α} {x : α} :
    Linked next (l₁ ++ x :: l₂) ↔ Linked next (l₁ ++ [x]) ∧ Linked next (x :: l₂) := List.isChain_split

/-- Links are a matter of all elements but the last. -/
theorem Linked.congr {l : List α} {y : α} (h : Linked next (l ++ [y])) (hsame : ∀ x ∈ l, next' x = next x) :
    Linked next' (l ++ [y]) := by
  induction l with
  | nil => exact List.isChain_singleton _
  | cons x l ih =>
    have hx := hsame x List.mem_cons_self
    have ih := fun h => ih h fun z hz => hsame z (List.mem_cons_of_mem _ hz)
    cases l with
    | nil =>
      simp only [Linked, List.cons_append, List.nil_append, List.isChain_cons_cons, List.isChain_singleton,
        and_true] at h ⊢
      rw [hx, h]
    | cons z l =>
      simp only [Linked, List.cons_append, List.isChain_cons_cons] at h ih ⊢
      exact ⟨hx.trans h.1, ih h.2⟩

/-- Another head takes over the link. -/
theorem Linked.relink_head {l : List α} {x x' y : α} (h : Linked next (x :: (l ++ [y]))) (hx : next' x' = next x)
    (hsame : ∀ z ∈ l, next' z = next z) : Linked next' (x' :: (l ++ [y])) := by
  cases l with
  | nil =>
    simp only [Linked, List.nil_append, List.isChain_cons_cons, List.isChain_singleton, and_true] at h ⊢
    rw [hx, h]
  | cons z l =>
    obtain ⟨hz, hl⟩ := List.isChain_cons_cons.mp h
    have hl : Linked next (z :: l ++ [y]) := hl
    exact List.isChain_cons_cons.mpr ⟨hx.trans hz, hl.congr hsame⟩

/-- The element after `x`, or the end. -/
theorem Linked.next_mem {l : List α} {x y : α} (h : Linked next (l ++ [y])) (hx : x ∈ l) :
    next x = y ∨ ∃ l₁ l₂, l = l₁ ++ x :: next x :: l₂ := by
  obtain ⟨l₁, l₂, rfl⟩ := List.append_of_mem hx
  cases l₂ with
  | nil =>
    left
    rw [List.append_assoc, Linked] at h
    have := (List.isChain_append_cons_cons.mp h).2.1
    exact this
  | cons z l₂ =>
    right
    rw [List.append_assoc, Linked] at h
    obtain rfl := (List.isChain_append_cons_cons.mp h).2.1
    exact ⟨l₁, l₂, rfl⟩

/-- In an ordered list each element is linked to a later one, or to the end. -/
theorem Linked.next_rel {R : α → α → Prop} {l : List α} {x y : α} (h : Linked next (l ++ [y]))
    (hR : l.Pairwise R) (hx : x ∈ l) : next x = y ∨ next x ∈ l ∧ R x (next x) := by
  rcases h.next_mem hx with hy | ⟨l₁, l₂, hl⟩
  · exact Or.inl hy
  · refine Or.inr ⟨by rw [hl]; simp, ?_⟩
    rw [hl, List.pairwise_append, List.pairwise_cons] at hR
    exact hR.2.1.1 _ List.mem_cons_self

/-! ## Cycles -/

theorem Cyclic.rotate {l₁ l₂ : List α} (h : Cyclic next (l₁ ++ l₂)) : Cyclic next (l₂ ++ l₁) := by
  cases l₁ with
  | nil => simpa using h
  | cons x l₁ =>
    cases l₂ with
    | nil => simpa using h
    | cons y l₂ =>
      simp only [List.cons_append, List.append_assoc, Cyclic] at h ⊢
      rw [← List.cons_append, linked_split] at h
      rw [← List.cons_append, linked_split]
      exact ⟨h.2, h.1⟩

/-- A cycle read from one of its elements. -/
theorem Cyclic.read_from {c : List α} {x : α} (h : Cyclic next c) (hx : x ∈ c) :
    ∃ l, Linked next (x :: l ++ [x]) ∧ (x :: l).Perm c := by
  obtain ⟨l₁, l₂, rfl⟩ := List.append_of_mem hx
  have hperm : (x :: l₂ ++ l₁).Perm (l₁ ++ x :: l₂) := List.perm_append_comm
  exact ⟨l₂ ++ l₁, h.rotate, hperm⟩

theorem Cyclic.map_next {x : α} {l : List α} (h : Cyclic next (x :: l)) : (x :: l).map next = l ++ [x] := by
  have h := List.isChain_cons_append_singleton_iff_forall₂.mp h
  rw [← List.forall₂_eq_eq_eq, List.forall₂_map_left_iff]
  exact h

/-- In a cycle without repetitions every element has one predecessor. -/
theorem Cyclic.inj {c : List α} {x y : α} (h : Cyclic next c) (hc : c.Nodup) (hx : x ∈ c) (hy : y ∈ c)
    (hxy : next x = next y) : x = y := by
  cases c with
  | nil => cases hx
  | cons z l =>
    have hnd : ((z :: l).map next).Nodup := by
      rw [h.map_next]
      exact (List.perm_append_singleton z l).symm.nodup_iff.mp hc
    exact List.inj_on_of_nodup_map hnd hx hy hxy

/-- The links lead to every later element. -/
theorem Linked.exists_iterate {l : List α} {x y : α} (h : Linked next (x :: l)) (hy : y ∈ x :: l) :
    ∃ k, next^[k] x = y := by
  induction l generalizing x with
  | nil =>
    obtain rfl := List.mem_singleton.mp hy
    exact ⟨0, rfl⟩
  | cons z l ih =>
    obtain ⟨rfl, hl⟩ := List.isChain_cons_cons.mp h
    rcases List.mem_cons.mp hy with rfl | hy
    · exact ⟨0, rfl⟩
    · obtain ⟨k, hk⟩ := ih hl hy
      exact ⟨k + 1, by rwa [Function.iterate_succ_apply]⟩

theorem Cyclic.next_mem {c : List α} {x : α} (h : Cyclic next c) (hx : x ∈ c) : next x ∈ c := by
  cases c with
  | nil => cases hx
  | cons z l =>
    have hmem : next x ∈ (z :: l).map next := List.mem_map_of_mem hx
    rw [h.map_next, List.mem_append, List.mem_singleton] at hmem
    exact List.mem_cons.mpr hmem.symm

/-- **The links lead from every element to all others**, and nowhere else. -/
theorem Cyclic.mem_iff {c : List α} {x y : α} (h : Cyclic next c) (hx : x ∈ c) : y ∈ c ↔ ∃ k, next^[k] x = y := by
  constructor
  · intro hy
    obtain ⟨l, hl, hperm⟩ := h.read_from hx
    exact Linked.exists_iterate (List.IsChain.left_of_append hl) (hperm.mem_iff.mpr hy)
  · rintro ⟨k, rfl⟩
    induction k with
    | zero => exact hx
    | succ k ih =>
      rw [Function.iterate_succ_apply']
      exact h.next_mem ih

/-- Two cycles without repetitions that start with one element are the same. -/
theorem Cyclic.unique {x : α} {l l' : List α} (h : Cyclic next (x :: l)) (h' : Cyclic next (x :: l'))
    (hn : (x :: l).Nodup) (hn' : (x :: l').Nodup) : l = l' := by
  have hprefix : ∀ (m m' : List α) (z : α), Linked next (z :: (m ++ [x])) → Linked next (z :: (m' ++ [x])) →
      x ∉ m → x ∉ m' → m = m' := by
    intro m
    induction m with
    | nil =>
      intro m' z hz hz' _ hm'
      cases m' with
      | nil => rfl
      | cons w m' =>
        have hx : next z = x := (List.isChain_cons_cons.mp hz).1
        have hw : next z = w := (List.isChain_cons_cons.mp hz').1
        exact absurd (hx.symm.trans hw ▸ List.mem_cons_self) hm'
    | cons y m ih =>
      intro m' z hz hz' hm hm'
      obtain ⟨rfl, hrest⟩ := List.isChain_cons_cons.mp hz
      cases m' with
      | nil => exact absurd ((List.isChain_cons_cons.mp hz').1 ▸ List.mem_cons_self) hm
      | cons w m' =>
        obtain ⟨rfl, hrest'⟩ := List.isChain_cons_cons.mp hz'
        rw [List.mem_cons, not_or] at hm hm'
        rw [ih m' _ hrest hrest' hm.2 hm'.2]
  exact hprefix l l' x h h' (List.nodup_cons.mp hn).1 (List.nodup_cons.mp hn').1

/-! ## Loops -/

/-- The list up to its first element with a property. -/
theorem exists_first {P : α → Prop} [DecidablePred P] {l : List α} (h : ∃ x ∈ l, P x) :
    ∃ l₁ x l₂, l = l₁ ++ x :: l₂ ∧ P x ∧ ∀ y ∈ l₁, ¬P y := by
  cases hf : l.find? fun x => decide (P x) with
  | none =>
    obtain ⟨x, hx, hp⟩ := h
    exact absurd hp (by simpa using List.find?_eq_none.mp hf x hx)
  | some x =>
    obtain ⟨hp, l₁, l₂, hl, hno⟩ := List.find?_eq_some_iff_append.mp hf
    exact ⟨l₁, x, l₂, hl, by simpa using hp, fun y hy => by simpa using hno y hy⟩

/-- The loop `for (x = x₀; !stop(x); x = next(x))`, for so many rounds at most. -/
def walk (next : α → α) (stop : α → Bool) : Nat → α → Option α
  | 0, _ => none
  | n + 1, x => if stop x then some x else walk next stop n (next x)

/-- The loop runs along a linked list to the only element where it stops. -/
theorem walk_linked {stop : α → Bool} {t : α} (l : List α) {n : Nat} {x : α} (hl : Linked next (x :: l))
    (ht : t ∈ x :: l) (hst : ∀ y ∈ x :: l, stop y = true ↔ y = t) (hn : l.length < n) :
    walk next stop n x = some t := by
  induction l generalizing x n with
  | nil =>
    obtain ⟨n, rfl⟩ := Nat.exists_eq_succ_of_ne_zero (Nat.ne_of_gt (Nat.zero_lt_of_lt hn))
    obtain rfl := List.mem_singleton.mp ht
    rw [walk, if_pos ((hst t List.mem_cons_self).mpr rfl)]
  | cons y l ih =>
    obtain ⟨n, rfl⟩ := Nat.exists_eq_succ_of_ne_zero (Nat.ne_of_gt (Nat.zero_lt_of_lt hn))
    obtain ⟨rfl, hl⟩ := List.isChain_cons_cons.mp hl
    by_cases hx : x = t
    · rw [walk, if_pos ((hst x List.mem_cons_self).mpr hx), hx]
    · rw [walk, if_neg fun h => hx ((hst x List.mem_cons_self).mp h)]
      refine ih hl ((List.mem_cons.mp ht).resolve_left (Ne.symm hx)) (fun z hz => hst z (List.mem_cons_of_mem _ hz)) ?_
      simpa using hn

/-- **A loop in a cycle** ends at the only element where it stops. -/
theorem walk_cyclic {stop : α → Bool} {c : List α} {x t : α} (h : Cyclic next c) (hx : x ∈ c) (ht : t ∈ c)
    (hst : ∀ y ∈ c, stop y = true ↔ y = t) {n : Nat} (hn : c.length ≤ n) : walk next stop n x = some t := by
  obtain ⟨l, hl, hperm⟩ := h.read_from hx
  refine walk_linked l (List.IsChain.left_of_append hl) (hperm.mem_iff.mpr ht)
    (fun y hy => hst y (hperm.mem_iff.mp hy)) ?_
  have := hperm.length_eq
  rw [List.length_cons] at this
  omega

end CyclicList
