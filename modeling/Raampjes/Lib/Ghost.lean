import Raampjes.Lib.Prog

/-!
# Programs that keep an invariant

The invariant may speak of more than the state: of a ghost, that no program sees and every program may choose anew.

- `Upholds`: a program keeps the invariant, and relates states and ghosts before and after;
- `Upholds.bind`, `Upholds.ite`, `Upholds.loop`, `Upholds.forM`: the rules for one relation;
- `Upholds.seq`, `Upholds.loop_seq`, `Upholds.forM_seq`: those for relations that add up.
-/

namespace Progs

variable {σ γ ε α β : Type} {I : σ → γ → Prop} {R : σ × γ → σ × γ → Prop}

/-- The program keeps `I`, for some new ghost, and relates what was before to what is after. -/
def Upholds (I : σ → γ → Prop) (R : σ × γ → σ × γ → Prop) (x : Prog σ ε α) : Prop :=
  ∀ s g a s', I s g → Returns x s a s' → ∃ g', I s' g' ∧ R (s, g) (s', g')

theorem upholds_of_same [Std.Refl R] {x : Prog σ ε α} (h : ∀ s a s', Returns x s a s' → s' = s) : Upholds I R x := by
  intro s g a s' hI hr
  rw [h s a s' hr]
  exact ⟨g, hI, Std.Refl.refl _⟩

theorem upholds_pure [Std.Refl R] (a : α) : Upholds I R (pure a : Prog σ ε α) :=
  upholds_of_same fun _ _ _ h => (pure_ok.mp h).2

theorem upholds_stop (e : ε) : Upholds I R (stop e : Prog σ ε α) := fun _ _ _ _ _ h => absurd h (stop_ok e)

theorem Upholds.bind [IsTrans _ R] {x : Prog σ ε α} {f : α → Prog σ ε β} (hx : Upholds I R x) (hf : ∀ a, Upholds I R (f a)) :
    Upholds I R (x >>= f) := by
  intro s g b s' hI hr
  obtain ⟨a, t, h1, h2⟩ := (bind_ok x f b).mp hr
  obtain ⟨g1, hI1, hR1⟩ := hx s g a t hI h1
  obtain ⟨g2, hI2, hR2⟩ := hf a t g1 b s' hI1 h2
  exact ⟨g2, hI2, IsTrans.trans _ _ _ hR1 hR2⟩

theorem Upholds.ite {c : Prop} [Decidable c] {x y : Prog σ ε α} (hx : Upholds I R x) (hy : Upholds I R y) :
    Upholds I R (if c then x else y) := by
  by_cases hc : c
  · rw [if_pos hc]
    exact hx
  · rw [if_neg hc]
    exact hy

theorem Upholds.onlyIf [Std.Refl R] {c : Bool} {x : Prog σ ε Unit} (hx : Upholds I R x) : Upholds I R (onlyIf c x) :=
  Upholds.ite hx (upholds_pure ())

theorem Upholds.onlyIf_of [Std.Refl R] {c : Prop} [Decidable c] {x : Prog σ ε Unit} (hx : c → Upholds I R x) :
    Upholds I R (Progs.onlyIf (decide c) x) := by
  by_cases hc : c
  · exact Upholds.onlyIf (hx hc)
  · rw [onlyIf_neg (decide_eq_false hc)]
    exact upholds_pure ()

theorem Upholds.loop [Std.Refl R] [IsTrans _ R] {body : Nat → Prog σ ε Unit} {n : Nat}
    (h : ∀ i, i < n → Upholds I R (body i)) : Upholds I R (loop body n) := by
  induction n with
  | zero => exact upholds_pure ()
  | succ n ih => exact (ih fun i hi => h i (Nat.lt_succ_of_lt hi)).bind fun _ => h n (Nat.lt_succ_self n)

theorem Upholds.forM [Std.Refl R] [IsTrans _ R] {f : β → Prog σ ε Unit} :
    ∀ xs : List β, (∀ x ∈ xs, Upholds I R (f x)) → Upholds I R (xs.forM f)
  | [], _ => upholds_pure ()
  | x :: xs, h => (h x List.mem_cons_self).bind fun _ => Upholds.forM xs fun y hy => h y (List.mem_cons_of_mem _ hy)

/-! ## Relations that add up -/

section Sums

variable {S U : σ × γ → σ × γ → Prop}

theorem Upholds.seq {x : Prog σ ε α} {f : α → Prog σ ε β} (hx : Upholds I R x) (hf : ∀ a, Upholds I S (f a))
    (h : ∀ c c₁ c₂, R c c₁ → S c₁ c₂ → U c c₂) : Upholds I U (x >>= f) := by
  intro s g b s' hI hr
  obtain ⟨a, t, h1, h2⟩ := (bind_ok x f b).mp hr
  obtain ⟨g1, hI1, hR1⟩ := hx s g a t hI h1
  obtain ⟨g2, hI2, hS2⟩ := hf a t g1 b s' hI1 h2
  exact ⟨g2, hI2, h _ _ _ hR1 hS2⟩

theorem Upholds.loop_seq {R S : Nat → σ × γ → σ × γ → Prop} {body : Nat → Prog σ ε Unit} (h0 : ∀ c, R 0 c c)
    (hR : ∀ i c c₁ c₂, R i c c₁ → S i c₁ c₂ → R (i + 1) c c₂) {n : Nat}
    (h : ∀ i, i < n → Upholds I (S i) (body i)) : Upholds I (R n) (Progs.loop body n) := by
  induction n with
  | zero =>
    intro s g u s' hI hr
    obtain ⟨_, rfl⟩ := pure_ok.mp hr
    exact ⟨g, hI, h0 _⟩
  | succ n ih => exact (ih fun i hi => h i (Nat.lt_succ_of_lt hi)).seq (fun _ => h n (Nat.lt_succ_self n)) (hR n)

theorem Upholds.forM_seq {R : List β → σ × γ → σ × γ → Prop} {S : β → σ × γ → σ × γ → Prop} {f : β → Prog σ ε Unit}
    (h0 : ∀ c, R [] c c) (hR : ∀ x xs c c₁ c₂, S x c c₁ → R xs c₁ c₂ → R (x :: xs) c c₂) :
    ∀ xs : List β, (∀ x ∈ xs, Upholds I (S x) (f x)) → Upholds I (R xs) (xs.forM f)
  | [], _ => fun s g u s' hI hr => by
    obtain ⟨_, rfl⟩ := pure_ok.mp hr
    exact ⟨g, hI, h0 _⟩
  | x :: xs, h => (h x List.mem_cons_self).seq
      (fun _ => Upholds.forM_seq h0 hR xs fun y hy => h y (List.mem_cons_of_mem _ hy)) (hR x xs)

end Sums

end Progs
