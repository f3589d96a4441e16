import Mathlib

/-!
# Tilings by intervals

`Tiles is s`: the intervals `[a, b)` of the list `is` are pairwise disjoint and cover exactly the set `s`. A tiling does
not depend on the order of the list (`Tiles.perm`); an interval may be cut in two or two be joined (`tiles_cut`); an
interval outside of `s` may be added (`Tiles.add`). Intervals in order with a gap after each are determined by the set
that they cover (`Gapped.unique`), also beside others (`Tiles.gapped_unique`).
-/

namespace Tiling

variable {α : Type*} [LinearOrder α]

def interval (i : α × α) : Set α := Set.Ico i.1 i.2

structure Tiles (is : List (α × α)) (s : Set α) : Prop where
  disjoint : is.Pairwise fun i j => Disjoint (interval i) (interval j)
  cover : ∀ x, x ∈ s ↔ ∃ i ∈ is, x ∈ interval i

variable {is js : List (α × α)} {i j : α × α} {s : Set α}

theorem tiles_nil : Tiles ([] : List (α × α)) ∅ := ⟨List.Pairwise.nil, by simp⟩

theorem Tiles.perm (h : Tiles is s) (hp : is.Perm js) : Tiles js s :=
  ⟨(hp.pairwise_iff fun h => h.symm).mp h.disjoint, fun x => by simp only [h.cover, hp.mem_iff]⟩

theorem Tiles.append_disjoint (h : Tiles (is ++ js) s) (hi : i ∈ is) (hj : j ∈ js) :
    Disjoint (interval i) (interval j) := (List.pairwise_append.mp h.disjoint).2.2 i hi j hj

theorem Tiles.subset (h : Tiles is s) (hi : i ∈ is) : interval i ⊆ s := fun x hx => (h.cover x).mpr ⟨i, hi, hx⟩

/-- **An interval may be cut in two, or two be joined.** -/
theorem tiles_cut {a b c : α} (hab : a ≤ b) (hbc : b ≤ c) : Tiles ((a, b) :: (b, c) :: is) s ↔ Tiles ((a, c) :: is) s := by
  have hunion : interval (a, b) ∪ interval (b, c) = interval (a, c) := Set.Ico_union_Ico_eq_Ico hab hbc
  have hdisj : Disjoint (interval (a, b)) (interval (b, c)) := by
    rw [Set.disjoint_left]
    intro x hx hx'
    exact absurd hx.2 (not_lt.mpr hx'.1)
  have hmem : ∀ x, (∃ i ∈ (a, b) :: (b, c) :: is, x ∈ interval i) ↔ ∃ i ∈ (a, c) :: is, x ∈ interval i := by
    intro x
    simp only [List.mem_cons, exists_eq_or_imp, ← hunion, Set.mem_union, or_assoc]
  constructor
  · rintro ⟨hd, hc⟩
    simp only [List.pairwise_cons, List.mem_cons, forall_eq_or_imp] at hd
    refine ⟨List.pairwise_cons.mpr ⟨fun j hj => ?_, hd.2.2⟩, fun x => (hc x).trans (hmem x)⟩
    rw [← hunion]
    exact Disjoint.sup_left (hd.1.2 j hj) (hd.2.1 j hj)
  · rintro ⟨hd, hc⟩
    rw [List.pairwise_cons] at hd
    refine ⟨?_, fun x => (hc x).trans (hmem x).symm⟩
    simp only [List.pairwise_cons, List.mem_cons, forall_eq_or_imp]
    have hleft : ∀ j ∈ is, Disjoint (interval (a, b)) (interval j) ∧ Disjoint (interval (b, c)) (interval j) := by
      intro j hj
      have := hd.1 j hj
      rwa [← hunion, Set.disjoint_union_left] at this
    exact ⟨⟨hdisj, fun j hj => (hleft j hj).1⟩, fun j hj => (hleft j hj).2, hd.2⟩

/-- **New ground may be added.** -/
theorem Tiles.add (h : Tiles is s) (hi : Disjoint (interval i) s) : Tiles (i :: is) (interval i ∪ s) := by
  refine ⟨List.pairwise_cons.mpr ⟨fun j hj => hi.mono_right (h.subset hj), h.disjoint⟩, fun x => ?_⟩
  simp [h.cover]

/-! ## Gaps -/

/-- Nonempty intervals in order, with a gap after each. -/
structure Gapped (is : List (α × α)) : Prop where
  nonempty : ∀ i ∈ is, i.1 < i.2
  gaps : is.Pairwise fun i j => i.2 < j.1

theorem Gapped.tail (h : Gapped (i :: is)) : Gapped is :=
  ⟨fun j hj => h.nonempty j (List.mem_cons_of_mem _ hj), (List.pairwise_cons.mp h.gaps).2⟩

theorem Gapped.head_lt (h : Gapped (i :: is)) (hj : j ∈ is) : i.2 < j.1 := (List.pairwise_cons.mp h.gaps).1 j hj

/-- The first interval starts lowest. -/
theorem Gapped.head_le {x : α} (h : Gapped (i :: is)) (hx : ∃ j ∈ i :: is, x ∈ interval j) : i.1 ≤ x := by
  obtain ⟨j, hj, hxj⟩ := hx
  rcases List.mem_cons.mp hj with rfl | hj
  · exact hxj.1
  · exact ((h.nonempty i List.mem_cons_self).trans (h.head_lt hj)).le.trans hxj.1

/-- The end of the first interval is not covered. -/
theorem Gapped.head_end (h : Gapped (i :: is)) : ¬ ∃ j ∈ i :: is, i.2 ∈ interval j := by
  rintro ⟨j, hj, hij⟩
  rcases List.mem_cons.mp hj with rfl | hj
  · exact lt_irrefl _ hij.2
  · exact absurd hij.1 (not_le.mpr (h.head_lt hj))

/-- The rest covers what the first interval does not. -/
theorem Gapped.tail_cover {x : α} (h : Gapped (i :: is)) :
    (∃ j ∈ is, x ∈ interval j) ↔ (∃ j ∈ i :: is, x ∈ interval j) ∧ x ∉ interval i := by
  constructor
  · rintro ⟨j, hj, hx⟩
    exact ⟨⟨j, List.mem_cons_of_mem _ hj, hx⟩, fun hxi => absurd (hxi.2.trans (h.head_lt hj)) (not_lt.mpr hx.1)⟩
  · rintro ⟨⟨j, hj, hx⟩, hxi⟩
    rcases List.mem_cons.mp hj with rfl | hj
    · exact absurd hx hxi
    · exact ⟨j, hj, hx⟩

/-- **The intervals are determined by what they cover.** -/
theorem Gapped.unique (hi : Gapped is) (hj : Gapped js)
    (hcover : ∀ x, (∃ i ∈ is, x ∈ interval i) ↔ ∃ j ∈ js, x ∈ interval j) : is = js := by
  induction is generalizing js with
  | nil =>
    cases js with
    | nil => rfl
    | cons j js =>
      have hmem : j.1 ∈ interval j := ⟨le_rfl, hj.nonempty j List.mem_cons_self⟩
      obtain ⟨_, h, _⟩ := (hcover j.1).mpr ⟨j, List.mem_cons_self, hmem⟩
      cases h
  | cons i is ih =>
    have himem : i.1 ∈ interval i := ⟨le_rfl, hi.nonempty i List.mem_cons_self⟩
    cases js with
    | nil =>
      obtain ⟨_, h, _⟩ := (hcover i.1).mp ⟨i, List.mem_cons_self, himem⟩
      cases h
    | cons j js =>
      have hjmem : j.1 ∈ interval j := ⟨le_rfl, hj.nonempty j List.mem_cons_self⟩
      have hstart : i.1 = j.1 := le_antisymm
        (hi.head_le ((hcover j.1).mpr ⟨j, List.mem_cons_self, hjmem⟩))
        (hj.head_le ((hcover i.1).mp ⟨i, List.mem_cons_self, himem⟩))
      -- where one interval ended earlier there would be a gap that the other covers
      have hend : i.2 = j.2 := by
        rcases lt_trichotomy i.2 j.2 with hlt | heq | hgt
        · have hmem : i.2 ∈ interval j := ⟨hstart ▸ himem.2.le, hlt⟩
          exact absurd ((hcover i.2).mpr ⟨j, List.mem_cons_self, hmem⟩) hi.head_end
        · exact heq
        · have hmem : j.2 ∈ interval i := ⟨hstart ▸ hjmem.2.le, hgt⟩
          exact absurd ((hcover j.2).mp ⟨i, List.mem_cons_self, hmem⟩) hj.head_end
      obtain rfl : i = j := Prod.ext hstart hend
      rw [ih hi.tail hj.tail fun x => by rw [hi.tail_cover, hj.tail_cover, hcover]]

theorem Tiles.gapped_unique {ks : List (α × α)} (hi : Gapped is) (hj : Gapped js) (h : Tiles (is ++ ks) s)
    (h' : Tiles (js ++ ks) s) : is = js := by
  have hrest : ∀ {ls}, Tiles (ls ++ ks) s →
      ∀ x, (∃ i ∈ ls, x ∈ interval i) ↔ x ∈ s ∧ ¬ ∃ k ∈ ks, x ∈ interval k := by
    intro ls ht x
    constructor
    · rintro ⟨i, hi, hx⟩
      refine ⟨ht.subset (List.mem_append_left _ hi) hx, fun ⟨k, hk, hxk⟩ => ?_⟩
      exact Set.disjoint_left.mp (ht.append_disjoint hi hk) hx hxk
    · rintro ⟨hx, hno⟩
      obtain ⟨i, hi, hxi⟩ := (ht.cover x).mp hx
      exact ⟨i, (List.mem_append.mp hi).resolve_right fun hk => hno ⟨i, hk, hxi⟩, hxi⟩
  exact hi.unique hj fun x => (hrest h x).trans (hrest h' x).symm

end Tiling
