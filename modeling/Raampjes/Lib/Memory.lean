import Mathlib.Logic.Function.Basic

/-!
# Memories

A memory is what some addresses contain. Processes that have a memory each do not see one another's stores.

- `Extends`: everything that is there stays there;
- `overlay`: a memory with other values on top; `Extends.overlay`, `overlay_overlay`;
- `layers`: many memories on top of each other; `layers_agree`;
- `span`: the values at a row of addresses; `span_at`;
- `Alters`, `Replaces`: what one process does to the memories of all.
-/

namespace Memories

variable {ι κ β : Type*}

/-- The values at the addresses that are there. -/
abbrev Memory (κ β : Type*) := κ → Option β

/-- What is there in the first memory is there in the second. -/
def Extends (M N : Memory κ β) : Prop := ∀ a b, M a = some b → N a = some b

/-- The memory `M` with the values of `w` on top. -/
def overlay (w M : Memory κ β) : Memory κ β := fun a => (w a).or (M a)

/-- Nothing is there. -/
def empty : Memory κ β := fun _ => none

section Extends

variable {M N O w v : Memory κ β} {a : κ} {b : β}

theorem Extends.refl (M : Memory κ β) : Extends M M := fun _ _ h => h

theorem Extends.trans (h : Extends M N) (h' : Extends N O) : Extends M O := fun a b hb => h' a b (h a b hb)

theorem overlay_some (h : w a = some b) : overlay w M a = some b := by rw [overlay, h, Option.some_or]

theorem overlay_none (h : w a = none) : overlay w M a = M a := by rw [overlay, h, Option.none_or]

@[simp] theorem empty_overlay (M : Memory κ β) : overlay empty M = M := funext fun _ => overlay_none rfl

@[simp] theorem overlay_empty (w : Memory κ β) : overlay w empty = w := funext fun _ => Option.or_none

theorem overlay_overlay (v w M : Memory κ β) : overlay v (overlay w M) = overlay (overlay v w) M :=
  funext fun _ => Option.or_assoc.symm

/-- What is on top covers the same in both. -/
theorem Extends.overlay (h : Extends M N) : Extends (overlay w M) (overlay w N) := by
  intro a b hb
  cases hw : w a with
  | some c =>
    rw [overlay_some hw] at hb ⊢
    exact hb
  | none =>
    rw [overlay_none hw] at hb ⊢
    exact h a b hb

theorem extends_overlay_self (w M : Memory κ β) : Extends w (Memories.overlay w M) := fun _ _ h => overlay_some h

/-- Memories on top of each other, the last one on top. -/
def layers : List (Memory κ β) → Memory κ β
  | [] => empty
  | w :: ws => Memories.overlay (layers ws) w

/-- A value is that of some layer. -/
theorem mem_layers {ws : List (Memory κ β)} (hb : layers ws a = some b) : ∃ w ∈ ws, w a = some b := by
  induction ws with
  | nil => cases hb
  | cons v ws ih =>
    cases htop : layers ws a with
    | some c =>
      rw [layers, overlay_some htop] at hb
      obtain ⟨w, hw, hwb⟩ := ih (htop.trans hb)
      exact ⟨w, List.mem_cons_of_mem v hw, hwb⟩
    | none =>
      rw [layers, overlay_none htop] at hb
      exact ⟨v, List.mem_cons_self, hb⟩

/-- Where the layers that have a value agree, this is the value. -/
theorem layers_agree {ws : List (Memory κ β)} (hw : w ∈ ws) (hb : w a = some b)
    (h : ∀ v ∈ ws, v a = none ∨ v a = some b) : layers ws a = some b := by
  induction ws with
  | nil => cases hw
  | cons v ws ih =>
    cases htop : layers ws a with
    | some c =>
      obtain ⟨u, hu, hc⟩ := mem_layers htop
      rcases h u (List.mem_cons_of_mem v hu) with hn | hs
      · rw [hc] at hn
        cases hn
      · rw [layers, overlay_some htop, ← hc, hs]
    | none =>
      rw [layers, overlay_none htop]
      rcases List.mem_cons.mp hw with rfl | hw
      · exact hb
      · rw [ih hw fun u hu => h u (List.mem_cons_of_mem v hu)] at htop
        cases htop

end Extends

section Span

variable [DecidableEq κ]

/-- One value. -/
def single (a : κ) (b : β) : Memory κ β := fun c => if c = a then some b else none

/-- The first `n` of the values, each at its place; later ones cover earlier ones. -/
def span (place : Nat → κ) (value : Nat → β) : Nat → Memory κ β
  | 0 => empty
  | n + 1 => overlay (single (place n) (value n)) (span place value n)

@[simp] theorem single_self (a : κ) (b : β) : single a b a = some b := if_pos rfl

theorem single_of_ne {a c : κ} {b : β} (h : c ≠ a) : single a b c = none := if_neg h

/-- Places that differ keep their values. -/
theorem span_at {place : Nat → κ} {value : Nat → β} {n i : Nat} (hinj : ∀ j, j < n → place j = place i → j = i) (hi : i < n) :
    span place value n (place i) = some (value i) := by
  induction n with
  | zero => exact absurd hi (Nat.not_lt_zero i)
  | succ n ih =>
    by_cases hin : i = n
    · subst hin
      exact overlay_some (single_self _ _)
    · have hne : place i ≠ place n := fun he => hin (hinj n (Nat.lt_succ_self n) he.symm).symm
      rw [span, overlay_none (single_of_ne hne)]
      exact ih (fun j hj => hinj j (Nat.lt_succ_of_lt hj)) (by omega)

end Span

/-! ## Processes with a memory each -/

section Processes

variable [DecidableEq ι] {M M' M'' : ι → Option (Memory κ β)} {p : ι} {v w : Memory κ β}

/-- The process stores `w`, and may get more memory. Nobody else's memory changes. -/
def Alters (p : ι) (w : Memory κ β) (M M' : ι → Option (Memory κ β)) : Prop :=
  ∃ N N', M p = some N ∧ Extends (overlay w N) N' ∧ M' = Function.update M p (some N')

/-- The process gets a memory with `w` in it, and loses what it had. -/
def Replaces (p : ι) (w : Memory κ β) (M M' : ι → Option (Memory κ β)) : Prop :=
  ∃ N', Extends w N' ∧ M' = Function.update M p (some N')

end Processes

end Memories
