import Raampjes.Lib.Prog
import Raampjes.Lib.Runs

/-!
# Two runs side by side

A program that is run from two related states, where both runs return: they return the same value and end in related
states again. `R` says besides what becomes of the pair of states.

- `Lockstep`: the two runs of a program, with the rules for sequences, branches and loops;
- `Lockstep.loop_all`, `Lockstep.forM_all`: a loop in which every round establishes something that the others keep;
- `Run.both`: two runs of a machine that take the same actions.
-/

namespace Progs

section Lockstep

variable {σ ε α β : Type} {I : σ → σ → Prop} {R : σ × σ → σ × σ → Prop} {s s' t t' : σ} {a b : α}

/-- Two runs of the program from related states agree. -/
def Lockstep (I : σ → σ → Prop) (R : σ × σ → σ × σ → Prop) (x : Prog σ ε α) : Prop :=
  ∀ s t a b s' t', I s t → Returns x s a s' → Returns x t b t' → b = a ∧ I s' t' ∧ R (s, t) (s', t')

theorem Lockstep.mono {R' : σ × σ → σ × σ → Prop} {x : Prog σ ε α} (h : Lockstep I R x)
    (hR : ∀ c c', R c c' → R' c c') : Lockstep I R' x := by
  intro s t a b s' t' hI hs ht
  obtain ⟨hab, hI', hr⟩ := h s t a b s' t' hI hs ht
  exact ⟨hab, hI', hR _ _ hr⟩

theorem lockstep_stop (e : ε) : Lockstep I R (stop e : Prog σ ε α) := fun _ _ _ _ _ _ _ hs => absurd hs (stop_ok e)

/-- A sequence of two programs that establish different things. -/
theorem Lockstep.seq {R₁ R₂ : σ × σ → σ × σ → Prop} {x : Prog σ ε α} {f : α → Prog σ ε β} (hx : Lockstep I R₁ x)
    (hf : ∀ a, Lockstep I R₂ (f a)) (hR : ∀ c d e, R₁ c d → R₂ d e → R c e) : Lockstep I R (x >>= f) := by
  intro s t a b s' t' hI hs ht
  obtain ⟨v, s1, hs1, hs2⟩ := (bind_ok x f a).mp hs
  obtain ⟨w, t1, ht1, ht2⟩ := (bind_ok x f b).mp ht
  obtain ⟨rfl, hI1, h1⟩ := hx _ _ _ _ _ _ hI hs1 ht1
  obtain ⟨hab, hI', h2⟩ := hf _ _ _ _ _ _ _ hI1 hs2 ht2
  exact ⟨hab, hI', hR _ _ _ h1 h2⟩

theorem Lockstep.bind [IsTrans _ R] {x : Prog σ ε α} {f : α → Prog σ ε β} (hx : Lockstep I R x)
    (hf : ∀ a, Lockstep I R (f a)) : Lockstep I R (x >>= f) := hx.seq hf fun _ _ _ => IsTrans.trans _ _ _

theorem Lockstep.ite {c : Prop} [Decidable c] {x y : Prog σ ε α} (hx : Lockstep I R x) (hy : Lockstep I R y) :
    Lockstep I R (if c then x else y) := by
  by_cases hc : c
  · rw [if_pos hc]
    exact hx
  · rw [if_neg hc]
    exact hy

section Refl

variable [Std.Refl R]

theorem lockstep_pure (a : α) : Lockstep I R (pure a : Prog σ ε α) := by
  intro s t v w s' t' hI hs ht
  obtain ⟨rfl, rfl⟩ := pure_ok.mp hs
  obtain ⟨rfl, rfl⟩ := pure_ok.mp ht
  exact ⟨rfl, hI, Std.Refl.refl _⟩

/-- What is read is the same in related states. -/
theorem lockstep_gets {f : σ → α} (hf : ∀ s t, I s t → f t = f s) : Lockstep I R (gets f : Prog σ ε α) := by
  intro s t v w s' t' hI hs ht
  obtain ⟨rfl, rfl⟩ := (gets_ok f).mp hs
  obtain ⟨rfl, rfl⟩ := (gets_ok f).mp ht
  exact ⟨hf _ _ hI, hI, Std.Refl.refl _⟩

theorem Lockstep.onlyIf {c : Bool} {x : Prog σ ε Unit} (hx : Lockstep I R x) : Lockstep I R (onlyIf c x) :=
  hx.ite (lockstep_pure ())

variable [IsTrans _ R]

theorem Lockstep.loop {body : Nat → Prog σ ε Unit} {n : Nat} (h : ∀ i, i < n → Lockstep I R (body i)) :
    Lockstep I R (loop body n) := by
  induction n with
  | zero => exact lockstep_pure ()
  | succ n ih => exact (ih fun i hi => h i (Nat.lt_succ_of_lt hi)).bind fun _ => h n (Nat.lt_succ_self n)

/-- Each round of the loop establishes a property that the rounds after it keep. -/
theorem Lockstep.loop_all {body : Nat → Prog σ ε Unit} {n : Nat} (Q : Nat → σ × σ → Prop)
    (hQ : ∀ i c c', R c c' → Q i c → Q i c')
    (h : ∀ i, i < n → Lockstep I (fun c c' => R c c' ∧ Q i c') (body i)) :
    Lockstep I (fun c c' => R c c' ∧ ∀ i, i < n → Q i c') (Progs.loop body n) := by
  induction n with
  | zero =>
    refine Lockstep.mono (R := R) (lockstep_pure ()) fun c c' hr => ⟨hr, fun i hi => ?_⟩
    exact absurd hi (Nat.not_lt_zero i)
  | succ n ih =>
    refine (ih fun i hi => h i (Nat.lt_succ_of_lt hi)).seq (fun _ => h n (Nat.lt_succ_self n)) ?_
    rintro c d e ⟨h1, hbefore⟩ ⟨h2, hlast⟩
    refine ⟨IsTrans.trans _ _ _ h1 h2, fun i hi => ?_⟩
    rcases Nat.lt_succ_iff_lt_or_eq.mp hi with hlt | rfl
    · exact hQ i d e h2 (hbefore i hlt)
    · exact hlast

/-- The same for a loop over a list. -/
theorem Lockstep.forM_all {γ : Type} {body : γ → Prog σ ε Unit} (Q : γ → σ × σ → Prop)
    (hQ : ∀ x c c', R c c' → Q x c → Q x c') :
    ∀ xs : List γ, (∀ x ∈ xs, Lockstep I (fun c c' => R c c' ∧ Q x c') (body x)) →
      Lockstep I (fun c c' => R c c' ∧ ∀ x ∈ xs, Q x c') (xs.forM body)
  | [], _ => by
    refine Lockstep.mono (R := R) (lockstep_pure ()) fun c c' hr => ⟨hr, fun x hx => ?_⟩
    exact absurd hx List.not_mem_nil
  | y :: ys, h => by
    have hrest := Lockstep.forM_all Q hQ ys fun x hx => h x (List.mem_cons_of_mem _ hx)
    refine (h y List.mem_cons_self).seq (fun _ => hrest) ?_
    rintro c d e ⟨h1, hfirst⟩ ⟨h2, hafter⟩
    refine ⟨IsTrans.trans _ _ _ h1 h2, fun x hx => ?_⟩
    rcases List.mem_cons.mp hx with rfl | hx
    · exact hQ x d e h2 hfirst
    · exact hafter x hx

end Refl

end Lockstep

end Progs

namespace Runs

variable {σ α ε : Type*} {step : σ → α → Option (σ × List ε)}

/-- **Two runs that take the same actions**: what holds of the two starts, and is kept when both take a step, holds of
the two ends. The history and the condition are those of the first run. -/
theorem Run.both {C : σ → α → Prop} (P : List (Step σ α ε) → σ → σ → Prop) {s₀ t₀ s t : σ} {xs ys : List (Step σ α ε)}
    (h0 : P [] s₀ t₀)
    (hs : ∀ xs s t a s' t' es es', P xs s t → C s a → step s a = some (s', es) → step t a = some (t', es') →
      P (xs ++ [⟨s, a, es, s'⟩]) s' t')
    (h : Run step s₀ xs s) (h' : Run step t₀ ys t) (hacts : acts xs = acts ys) (hC : ∀ x ∈ xs, C x.before x.act) :
    P xs s t := by
  induction h generalizing ys t with
  | refl =>
    cases h' with
    | refl => exact h0
    | snoc => simp at hacts
  | snoc _ hst ih =>
    cases h' with
    | refl => simp at hacts
    | snoc hprev' hst' =>
      rw [acts_snoc, acts_snoc] at hacts
      obtain ⟨hpre, hlast⟩ := List.append_inj' hacts rfl
      obtain rfl := List.singleton_inj.mp hlast
      have hP := ih hprev' hpre fun x hx => hC x (List.mem_append_left _ hx)
      exact hs _ _ _ _ _ _ _ _ hP (hC _ (List.mem_append_right _ (List.mem_singleton_self _))) hst hst'

end Runs
