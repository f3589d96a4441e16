import Mathlib

/-!
# References of several owners

Owners hold references to objects, and each object has a counter.

- `total`: the references of all owners; `total_change`: one owner changes its references;
- `Covered`: every counter is at least the number of references, and above it for the objects that are in use otherwise;
- `Balanced`: the counters move with the references of one owner; `Covered.balanced`: this keeps them covered;
- `Tally`: every counter is the number of references and of the fixed ones; `Tally.balanced`, `Tally.covered`;
- `card_filter_change`: the number of places that refer to an object, when one place changes; `card_filter_single`.
-/

namespace Refs

variable {ι F α : Type*}

/-- The references that the owners in `s` hold to `f`. -/
def total (s : Finset ι) (held : ι → F → ℕ) (f : F) : ℕ := ∑ p ∈ s, held p f

section Total

variable {s : Finset ι} {held held' : ι → F → ℕ} {p q : ι} {f : F}

theorem held_le_total (hp : p ∈ s) : held p f ≤ total s held f :=
  Finset.single_le_sum (f := fun p => held p f) (fun _ _ => Nat.zero_le _) hp

theorem held_add_le_total [DecidableEq ι] (hp : p ∈ s) (hq : q ∈ s) (hne : p ≠ q) :
    held p f + held q f ≤ total s held f := by
  have hsub : ({p, q} : Finset ι) ⊆ s := by
    intro x hx
    rcases Finset.mem_insert.mp hx with rfl | hx
    · exact hp
    · rw [Finset.mem_singleton.mp hx]
      exact hq
  have hpair : ∑ x ∈ {p, q}, held x f = held p f + held q f := Finset.sum_pair hne
  rw [total, ← hpair]
  exact Finset.sum_le_sum_of_subset hsub

/-- One owner changes its references. -/
theorem total_change [DecidableEq ι] (hp : p ∈ s) (hother : ∀ q ∈ s, q ≠ p → held' q f = held q f) :
    total s held' f + held p f = total s held f + held' p f := by
  have hsame : ∑ q ∈ s.erase p, held' q f = ∑ q ∈ s.erase p, held q f := by
    apply Finset.sum_congr rfl
    intro q hq
    exact hother q (Finset.mem_of_mem_erase hq) (Finset.ne_of_mem_erase hq)
  rw [total, total, ← Finset.add_sum_erase s _ hp, ← Finset.add_sum_erase s (fun q => held q f) hp, hsame]
  omega

end Total

/-- Every counter is at least the number of references, and above it for what is in use otherwise. -/
structure Covered (s : Finset ι) (held : ι → F → ℕ) (pinned : F → Prop) (count : F → ℕ) : Prop where
  le : ∀ f, total s held f ≤ count f
  lt : ∀ f, pinned f → total s held f < count f

/-- The counters move with the references of one owner, who held `own` and holds `own'`. -/
def Balanced (own own' : F → ℕ) (count count' : F → ℕ) : Prop := ∀ f, count' f + own f = count f + own' f

section Covered

variable {s : Finset ι} {held held' : ι → F → ℕ} {pinned pinned' : F → Prop} {count count' : F → ℕ} {p q : ι} {f : F}

theorem Balanced.trans {o₀ o₁ o₂ c₀ c₁ c₂ : F → ℕ} (h : Balanced o₀ o₁ c₀ c₁) (h' : Balanced o₁ o₂ c₁ c₂) :
    Balanced o₀ o₂ c₀ c₂ := by
  intro f
  have h1 := h f
  have h2 := h' f
  omega

theorem Balanced.refl (o c : F → ℕ) : Balanced o o c c := fun _ => rfl

theorem Covered.ne_zero (h : Covered s held pinned count) (hf : (∃ p ∈ s, 0 < held p f) ∨ pinned f) : count f ≠ 0 := by
  rcases hf with ⟨p, hp, hpos⟩ | hf
  · have h1 := h.le f
    have h2 : held p f ≤ total s held f := held_le_total hp
    omega
  · have := h.lt f hf
    omega

/-- A counter of one: nobody else refers to the object, and it is not in use otherwise. -/
theorem Covered.only [DecidableEq ι] (h : Covered s held pinned count) (hone : count f = 1) (hp : p ∈ s)
    (hpos : 0 < held p f) : held p f = 1 ∧ ¬ pinned f ∧ ∀ q ∈ s, q ≠ p → held q f = 0 := by
  have h1 := h.le f
  have h2 : held p f ≤ total s held f := held_le_total hp
  refine ⟨by omega, fun hf => ?_, fun q hq hne => ?_⟩
  · have := h.lt f hf
    omega
  · have : held p f + held q f ≤ total s held f := held_add_le_total hp hq hne.symm
    omega

/-- **The counters stay covered** when they move with one owner's references. -/
theorem Covered.balanced [DecidableEq ι] (h : Covered s held pinned count) (hp : p ∈ s)
    (hother : ∀ q ∈ s, q ≠ p → ∀ f, held' q f = held q f) (hb : Balanced (held p) (held' p) count count')
    (hpin : ∀ f, pinned' f → pinned f) : Covered s held' pinned' count' := by
  have htotal : ∀ f, total s held' f + held p f = total s held f + held' p f :=
    fun f => total_change hp fun q hq hne => hother q hq hne f
  refine ⟨fun f => ?_, fun f hf => ?_⟩
  · have h1 := h.le f
    have h2 := htotal f
    have h3 := hb f
    omega
  · have h1 := h.lt f (hpin f hf)
    have h2 := htotal f
    have h3 := hb f
    omega

end Covered

/-- Every counter is the number of references, with `fixed` of them that no owner holds. -/
def Tally (s : Finset ι) (held : ι → F → ℕ) (fixed count : F → ℕ) : Prop := ∀ f, count f = fixed f + total s held f

section Tally

variable {s : Finset ι} {held held' : ι → F → ℕ} {fixed fixed' : F → ℕ} {pinned : F → Prop} {count count' : F → ℕ}
  {p : ι}

theorem Tally.covered (h : Tally s held fixed count) (hpin : ∀ f, pinned f → 0 < fixed f) :
    Covered s held pinned count := by
  refine ⟨fun f => ?_, fun f hf => ?_⟩
  · have := h f
    omega
  · have := h f
    have := hpin f hf
    omega

/-- **The counters stay exact** when they move with one owner's references and with the fixed ones. -/
theorem Tally.change [DecidableEq ι] (h : Tally s held fixed count) (hp : p ∈ s)
    (hother : ∀ q ∈ s, q ≠ p → ∀ f, held' q f = held q f)
    (hb : ∀ f, count' f + held p f + fixed f = count f + held' p f + fixed' f) : Tally s held' fixed' count' := by
  intro f
  have h1 := h f
  have h2 : total s held' f + held p f = total s held f + held' p f := total_change hp fun q hq hne => hother q hq hne f
  have h3 := hb f
  omega

theorem Tally.balanced [DecidableEq ι] (h : Tally s held fixed count) (hp : p ∈ s)
    (hother : ∀ q ∈ s, q ≠ p → ∀ f, held' q f = held q f) (hb : Balanced (held p) (held' p) count count') :
    Tally s held' fixed count' :=
  h.change hp hother fun f => by rw [hb f]

end Tally

/-- The places of `s` with a property, when only the place `a` changes. -/
theorem card_filter_change [DecidableEq α] {s : Finset α} {P Q : α → Prop} [DecidablePred P] [DecidablePred Q] {a : α}
    (ha : a ∈ s) (hrest : ∀ x ∈ s, x ≠ a → (Q x ↔ P x)) :
    (s.filter Q).card + (if P a then 1 else 0) = (s.filter P).card + (if Q a then 1 else 0) := by
  have hsame : (s.erase a).filter Q = (s.erase a).filter P := by
    apply Finset.filter_congr
    intro x hx
    exact hrest x (Finset.mem_of_mem_erase hx) (Finset.ne_of_mem_erase hx)
  have hsplit : ∀ (R : α → Prop) [DecidablePred R],
      (s.filter R).card = ((s.erase a).filter R).card + (if R a then 1 else 0) := by
    intro R _
    rw [← Finset.insert_erase ha, Finset.filter_insert]
    by_cases hR : R a
    · rw [if_pos hR, if_pos hR, Finset.card_insert_of_notMem (by simp), Finset.erase_insert (Finset.notMem_erase a s)]
    · rw [if_neg hR, if_neg hR, Finset.erase_insert (Finset.notMem_erase a s), Nat.add_zero]
  rw [hsplit Q, hsplit P, hsame]
  omega

/-- One place at most has the property. -/
theorem card_filter_single [DecidableEq α] {s : Finset α} {P : α → Prop} [DecidablePred P] {a : α} {Q : Prop} [Decidable Q]
    (ha : a ∈ s) (h : ∀ x ∈ s, P x ↔ x = a ∧ Q) : (s.filter P).card = if Q then 1 else 0 := by
  by_cases hQ : Q
  · have hone : s.filter P = {a} := by
      ext x
      rw [Finset.mem_filter, Finset.mem_singleton]
      exact ⟨fun hx => ((h x hx.1).mp hx.2).1, fun hx => hx ▸ ⟨ha, (h a ha).mpr ⟨rfl, hQ⟩⟩⟩
    rw [hone, Finset.card_singleton, if_pos hQ]
  · rw [if_neg hQ, Finset.card_eq_zero, Finset.filter_eq_empty_iff]
    exact fun x hx hP => hQ ((h x hx).mp hP).2

end Refs
