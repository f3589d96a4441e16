import Mathlib

/-!
# Runs of a partial step function

A machine takes an action in a state and either stops or moves on and emits events. `Run step s₀ xs s` is a run from
`s₀` to `s`; `xs` lists its steps, each with the state before, the action, the events and the state after.

- `Run.induct`: what the start has and every step keeps holds after a run, with the history in view, when all steps
  meet a condition on the state before and the action;
- `Run.inv`: the same for a property of the state alone, and `Run.inv_steps` for the states inside a run;
- `Run.steps_iff`, `Run.good_iff`: when a condition is exactly what makes the steps right, or keeps a property;
- `Run.split`, `Run.trans`: runs taken apart and put together;
- `Run.of_replay`: a run from an executable replay, so that concrete runs are computed.
-/

namespace Runs

variable {σ α ε : Type*}

/-- One step of a run. -/
structure Step (σ α ε : Type*) where
  before : σ
  act : α
  events : List ε
  after : σ

/-- Runs from `s₀`, with their steps in order. -/
inductive Run (step : σ → α → Option (σ × List ε)) (s₀ : σ) : List (Step σ α ε) → σ → Prop
  | refl : Run step s₀ [] s₀
  | snoc {xs : List (Step σ α ε)} {s t : σ} {a : α} {es : List ε} :
      Run step s₀ xs s → step s a = some (t, es) → Run step s₀ (xs ++ [⟨s, a, es, t⟩]) t

/-- All events of a run, in order. -/
def events (xs : List (Step σ α ε)) : List ε := xs.flatMap Step.events

@[simp] theorem events_nil : events ([] : List (Step σ α ε)) = [] := rfl

@[simp] theorem events_snoc (xs : List (Step σ α ε)) (x : Step σ α ε) :
    events (xs ++ [x]) = events xs ++ x.events := by
  simp [events]

/-- The actions of a run, in order. -/
def acts (xs : List (Step σ α ε)) : List α := xs.map Step.act

@[simp] theorem acts_nil : acts ([] : List (Step σ α ε)) = [] := rfl

@[simp] theorem acts_snoc (xs : List (Step σ α ε)) (x : Step σ α ε) :
    acts (xs ++ [x]) = acts xs ++ [x.act] := by
  simp [acts]

variable {step : σ → α → Option (σ × List ε)} {s₀ s : σ} {xs : List (Step σ α ε)}

/-- **The run rule.** A property of history and state that the start has and every admitted step keeps holds after
every run whose steps are all admitted. -/
theorem Run.induct {C : σ → α → Prop} (P : List (Step σ α ε) → σ → Prop) (h0 : P [] s₀)
    (hs : ∀ xs s a t es, P xs s → C s a → step s a = some (t, es) → P (xs ++ [⟨s, a, es, t⟩]) t)
    (h : Run step s₀ xs s) (hC : ∀ x ∈ xs, C x.before x.act) : P xs s := by
  induction h with
  | refl => exact h0
  | snoc _ hst ih =>
    have hprev := ih fun x hx => hC x (List.mem_append_left _ hx)
    exact hs _ _ _ _ _ hprev (hC _ (List.mem_append_right _ (List.mem_singleton_self _))) hst

/-- **The invariant rule.** -/
theorem Run.inv {C : σ → α → Prop} (I : σ → Prop) (h0 : I s₀)
    (hs : ∀ s a t es, I s → C s a → step s a = some (t, es) → I t)
    (h : Run step s₀ xs s) (hC : ∀ x ∈ xs, C x.before x.act) : I s :=
  h.induct (fun _ s => I s) h0 (fun _ s a t es hi hc hst => hs s a t es hi hc hst) hC

/-- Every step inside a run starts in a state with the invariant and is a step of the machine. -/
theorem Run.inv_steps {C : σ → α → Prop} (I : σ → Prop) (h0 : I s₀)
    (hs : ∀ s a t es, I s → C s a → step s a = some (t, es) → I t)
    (h : Run step s₀ xs s) (hC : ∀ x ∈ xs, C x.before x.act) :
    ∀ x ∈ xs, I x.before ∧ step x.before x.act = some (x.after, x.events) := by
  refine (h.induct (fun xs s => I s ∧ ∀ x ∈ xs, I x.before ∧ step x.before x.act = some (x.after, x.events))
    ⟨h0, by simp⟩ ?_ hC).2
  intro xs s a t es hi hc hst
  refine ⟨hs s a t es hi.1 hc hst, fun x hx => ?_⟩
  rcases List.mem_append.mp hx with hx | hx
  · exact hi.2 x hx
  · rw [List.mem_singleton] at hx
    subst hx
    exact ⟨hi.1, hst⟩

/-- **The rule for exact steps.** When from a good state a step is right just if a condition on the state before and the
action holds, and then leads to a good state, then all steps of a run are right just if all meet the condition. -/
theorem Run.steps_iff {C E : σ → α → Prop} {G : Step σ α ε → Prop} (R : σ → Prop) (h0 : R s₀)
    (hs : ∀ s a t es, R s → E s a → step s a = some (t, es) → (G ⟨s, a, es, t⟩ ↔ C s a) ∧ (C s a → R t))
    (h : Run step s₀ xs s) (hE : ∀ x ∈ xs, E x.before x.act) :
    (∀ x ∈ xs, G x) ↔ ∀ x ∈ xs, C x.before x.act := by
  have hboth : ((∀ x ∈ xs, G x) ↔ ∀ x ∈ xs, C x.before x.act) ∧ ((∀ x ∈ xs, C x.before x.act) → R s) := by
    induction h with
    | refl => simp [h0]
    | @snoc xs s t a es _ hst ih =>
      simp only [List.forall_mem_append, List.forall_mem_singleton] at hE ⊢
      obtain ⟨hiff, hend⟩ := ih hE.1
      refine ⟨⟨?_, ?_⟩, fun h => (hs s a t es (hend h.1) hE.2 hst).2 h.2⟩
      · rintro ⟨hpre, hg⟩
        have hc := hiff.mp hpre
        exact ⟨hc, (hs s a t es (hend hc) hE.2 hst).1.mp hg⟩
      · rintro ⟨hpre, hc⟩
        exact ⟨hiff.mpr hpre, (hs s a t es (hend hpre) hE.2 hst).1.mpr hc⟩
  exact hboth.1

/-- **The rule for an exact condition.** When a step from a good state ends in a good one just if a condition on the
state before and the action holds, then all states of a run are good just if all its steps meet the condition. -/
theorem Run.good_iff {C : σ → α → Prop} (R : σ → Prop) (h0 : R s₀)
    (hs : ∀ s a t es, R s → step s a = some (t, es) → (R t ↔ C s a)) (h : Run step s₀ xs s) :
    (∀ x ∈ xs, R x.after) ↔ ∀ x ∈ xs, C x.before x.act :=
  h.steps_iff (E := fun _ _ => True) (G := fun x => R x.after) R h0
    (fun s a t es hr _ hst => ⟨hs s a t es hr hst, (hs s a t es hr hst).mpr⟩) fun _ _ => trivial

/-- A run up to one of its steps is a run, and the step is a step of the machine. -/
theorem Run.split {pre post : List (Step σ α ε)} {x : Step σ α ε} (h : Run step s₀ (pre ++ x :: post) s) :
    Run step s₀ pre x.before ∧ step x.before x.act = some (x.after, x.events) := by
  generalize hxs : pre ++ x :: post = xs at h
  induction h generalizing post with
  | refl => simp at hxs
  | snoc hprev hst ih =>
    rcases List.eq_nil_or_concat post with rfl | ⟨post, y, rfl⟩
    · obtain ⟨rfl, hx⟩ := List.append_inj' hxs rfl
      cases hx
      exact ⟨hprev, hst⟩
    · rw [List.concat_eq_append, ← List.cons_append, ← List.append_assoc] at hxs
      exact ih (List.append_inj' hxs rfl).1

/-- A run and a run from where it ends. -/
theorem Run.trans {ys : List (Step σ α ε)} {t : σ} (h : Run step s₀ xs s) (h' : Run step s ys t) :
    Run step s₀ (xs ++ ys) t := by
  induction h' with
  | refl => rwa [List.append_nil]
  | snoc _ hst ih =>
    rw [← List.append_assoc]
    exact ih.snoc hst

/-- An event of a run is an event of one of its steps. -/
theorem mem_events {e : ε} : e ∈ events xs ↔ ∃ x ∈ xs, e ∈ x.events := by
  simp [events]

/-- Replay a list of actions. -/
def replay (step : σ → α → Option (σ × List ε)) : σ → List α → Option (σ × List (Step σ α ε))
  | s, [] => some (s, [])
  | s, a :: as =>
    match step s a with
    | none => none
    | some (t, es) => (replay step t as).map fun r => (r.1, ⟨s, a, es, t⟩ :: r.2)

/-- A run extended by a replay. -/
theorem Run.append_replay (as : List α) {xs ys : List (Step σ α ε)} {s t : σ} (h : Run step s₀ xs s)
    (hr : replay step s as = some (t, ys)) : Run step s₀ (xs ++ ys) t ∧ acts (xs ++ ys) = acts xs ++ as := by
  induction as generalizing s xs ys with
  | nil =>
    simp only [replay, Option.some.injEq, Prod.mk.injEq] at hr
    obtain ⟨rfl, rfl⟩ := hr
    simpa using h
  | cons a as ih =>
    simp only [replay] at hr
    split at hr
    · cases hr
    · rename_i u es hst
      simp only [Option.map_eq_some_iff, Prod.mk.injEq] at hr
      obtain ⟨⟨t', zs⟩, hzs, rfl, rfl⟩ := hr
      simpa using ih (h.snoc hst) hzs

/-- **A replay that goes through is a run**, and what is computed of its steps and its end holds of them. -/
theorem Run.of_replay (as : List α) (p : List (Step σ α ε) → σ → Bool)
    (hr : (replay step s₀ as).any fun r => p r.2 r.1) : ∃ xs s, Run step s₀ xs s ∧ acts xs = as ∧ p xs s = true := by
  obtain ⟨⟨t, ys⟩, hr, hp⟩ := (Option.any_eq_true _ _).mp hr
  obtain ⟨h, ha⟩ := Run.append_replay as Run.refl hr
  exact ⟨ys, t, by simpa using h, by simpa using ha, hp⟩

end Runs
