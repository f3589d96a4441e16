import Mathlib

/-!
# Programs with state that may stop

A program takes a state and either stops with a reason or returns a value and a new state.

- `bind_ok`, `pure_ok`, `gets_ok`, `update_ok`, `stop_ok`: when the parts of a program return, and in which state;
- `focus_ok`: the same for a program on a part of the state;
- `loop_ok`: a loop that returns keeps what its body keeps, counted by the rounds; `loop_returns`: when it returns;
- `loop_eq`: a loop whose rounds are known returns;
- `Within`: what every run of a program does to the state, kept by sequences, branches and loops.
-/

namespace Progs

variable {σ ε α β : Type*}

/-- Programs over the state `σ`; `ε` says why one stops. -/
abbrev Prog (σ ε : Type) (α : Type) := StateT σ (Except ε) α

section Rules

variable {σ ε α β : Type}

/-- The program returns `a` in state `s'`. -/
def Returns (x : Prog σ ε α) (s : σ) (a : α) (s' : σ) : Prop := x s = .ok (a, s')

def stop (e : ε) : Prog σ ε α := fun _ => .error e

def gets (f : σ → α) : Prog σ ε α := fun s => .ok (f s, s)

def update (f : σ → σ) : Prog σ ε Unit := fun s => .ok ((), f s)

/-- `if (c) x;` -/
def onlyIf (c : Bool) (x : Prog σ ε Unit) : Prog σ ε Unit := if c then x else pure ()

/-- A program on a part of the state. -/
def focus {τ : Type} (get : τ → σ) (set : σ → τ → τ) (x : Prog σ ε α) : Prog τ ε α := fun t =>
  match x (get t) with
  | .error e => .error e
  | .ok (a, s) => .ok (a, set s t)

/-- `for (i = 0; i < n; i++) body(i);` -/
def loop (body : Nat → Prog σ ε Unit) : Nat → Prog σ ε Unit
  | 0 => pure ()
  | n + 1 => do
    loop body n
    body n

variable {s s' t : σ} {a b : α}

@[simp] theorem bind_ok (x : Prog σ ε α) (f : α → Prog σ ε β) (b : β) :
    Returns (x >>= f) s b s' ↔ ∃ a t, Returns x s a t ∧ Returns (f a) t b s' := by
  unfold Returns
  constructor
  · intro h
    cases hx : x s with
    | error e => simp [bind, StateT.bind, Except.bind, hx] at h
    | ok r => exact ⟨r.1, r.2, rfl, by simpa [bind, StateT.bind, Except.bind, hx] using h⟩
  · rintro ⟨a, t, hx, hf⟩
    simpa [bind, StateT.bind, Except.bind, hx] using hf

@[simp] theorem pure_ok : Returns (pure a : Prog σ ε α) s b s' ↔ b = a ∧ s' = s := by
  simp only [Returns, pure, StateT.pure, Except.pure, Except.ok.injEq, Prod.mk.injEq, eq_comm]

@[simp] theorem stop_ok (e : ε) : ¬ Returns (stop e : Prog σ ε α) s a s' := by
  simp [Returns, stop]

@[simp] theorem gets_ok (f : σ → α) : Returns (gets f : Prog σ ε α) s a s' ↔ a = f s ∧ s' = s := by
  simp only [Returns, gets, Except.ok.injEq, Prod.mk.injEq, eq_comm]

@[simp] theorem update_ok (f : σ → σ) (u : Unit) : Returns (update f : Prog σ ε Unit) s u s' ↔ s' = f s := by
  simp only [Returns, update, Except.ok.injEq, Prod.mk.injEq, true_and, eq_comm]

theorem focus_ok {τ : Type} {get : τ → σ} {set : σ → τ → τ} {x : Prog σ ε α} {u u' : τ} :
    Returns (focus get set x) u a u' ↔ ∃ s, Returns x (get u) a s ∧ u' = set s u := by
  unfold Returns focus
  cases x (get u) with
  | error e => simp
  | ok r => simp [Prod.ext_iff, eq_comm, and_assoc]

theorem onlyIf_pos {c : Bool} (h : c = true) (x : Prog σ ε Unit) : onlyIf c x = x := if_pos h

theorem onlyIf_neg {c : Bool} (h : c = false) (x : Prog σ ε Unit) : onlyIf c x = pure () := by
  rw [onlyIf, h]
  rfl

/-- A program returns at most once. -/
theorem Returns.unique {x : Prog σ ε α} (h : Returns x s a t) (h' : Returns x s b s') : a = b ∧ t = s' := by
  have : (Except.ok (a, t) : Except ε (α × σ)) = .ok (b, s') := h.symm.trans h'
  simpa using this

/-- A first part whose run is known. -/
theorem Returns.bind_iff {x : Prog σ ε α} (h : Returns x s a t) (f : α → Prog σ ε β) {b : β} :
    Returns (x >>= f) s b s' ↔ Returns (f a) t b s' := by
  rw [bind_ok]
  constructor
  · rintro ⟨a', t', hx, hf⟩
    obtain ⟨rfl, rfl⟩ := h.unique hx
    exact hf
  · intro hf
    exact ⟨a, t, h, hf⟩

/-- A check at the start that stops the program. -/
theorem check_bind_ok {c : Bool} {e : ε} {f : Unit → Prog σ ε β} {b : β} :
    Returns (onlyIf c (stop e) >>= f) s b s' ↔ c = false ∧ Returns (f ()) s b s' := by
  cases c with
  | false =>
    rw [onlyIf_neg rfl, Returns.bind_iff (pure_ok.mpr ⟨rfl, rfl⟩)]
    simp
  | true =>
    rw [onlyIf_pos rfl, bind_ok]
    constructor
    · rintro ⟨_, _, hs, _⟩
      exact absurd hs (stop_ok e)
    · rintro ⟨hc, _⟩
      cases hc

/-- **The loop rule.** -/
theorem loop_ok {body : Nat → Prog σ ε Unit} (I : Nat → σ → Prop) {n : Nat} {u : Unit}
    (h : Returns (loop body n) s u s') (h0 : I 0 s)
    (hs : ∀ i t t', i < n → I i t → Returns (body i) t () t' → I (i + 1) t') : I n s' := by
  induction n generalizing s' u with
  | zero =>
    obtain ⟨_, rfl⟩ := pure_ok.mp h
    exact h0
  | succ n ih =>
    obtain ⟨_, t, hl, hb⟩ := (bind_ok _ _ _).mp h
    exact hs n t s' (Nat.lt_succ_self n) (ih hl fun i t t' hi => hs i t t' (Nat.lt_succ_of_lt hi)) hb

/-- **The loop rule** for total correctness: the rounds return as long as the invariant holds. -/
theorem loop_returns {body : Nat → Prog σ ε Unit} (I : Nat → σ → Prop) {n : Nat} (h0 : I 0 s)
    (hs : ∀ i t, i < n → I i t → ∃ t', Returns (body i) t () t' ∧ I (i + 1) t') :
    ∃ s', Returns (loop body n) s () s' ∧ I n s' := by
  induction n with
  | zero => exact ⟨s, pure_ok.mpr ⟨rfl, rfl⟩, h0⟩
  | succ n ih =>
    obtain ⟨t, hl, hI⟩ := ih fun i t hi => hs i t (Nat.lt_succ_of_lt hi)
    obtain ⟨t', hb, hI'⟩ := hs n t (Nat.lt_succ_self n) hI
    exact ⟨t', (bind_ok _ _ _).mpr ⟨(), t, hl, hb⟩, hI'⟩

/-- A loop whose states are known. -/
theorem loop_eq {body : Nat → Prog σ ε Unit} (f : Nat → σ) {n : Nat}
    (hs : ∀ i, i < n → Returns (body i) (f i) () (f (i + 1))) : Returns (loop body n) (f 0) () (f n) := by
  induction n with
  | zero => exact pure_ok.mpr ⟨rfl, rfl⟩
  | succ n ih =>
    exact (bind_ok _ _ _).mpr ⟨(), f n, ih fun i hi => hs i (Nat.lt_succ_of_lt hi), hs n (Nat.lt_succ_self n)⟩

/-! ## What a program does to the state -/

/-- Every run that returns relates the state before to the state after. -/
def Within (R : σ → σ → Prop) (x : Prog σ ε α) : Prop := ∀ s a s', Returns x s a s' → R s s'

variable {R : σ → σ → Prop}

theorem within_of_same [Std.Refl R] {x : Prog σ ε α} (h : ∀ s a s', Returns x s a s' → s' = s) : Within R x := by
  intro s a s' hx
  rw [h s a s' hx]
  exact Std.Refl.refl s

theorem within_pure [Std.Refl R] (a : α) : Within R (pure a : Prog σ ε α) :=
  within_of_same fun _ _ _ h => (pure_ok.mp h).2

theorem within_stop (e : ε) : Within R (stop e : Prog σ ε α) := fun _ _ _ h => absurd h (stop_ok e)

theorem within_gets [Std.Refl R] (f : σ → α) : Within R (gets f : Prog σ ε α) :=
  within_of_same fun _ _ _ h => ((gets_ok f).mp h).2

theorem within_update {f : σ → σ} (h : ∀ s, R s (f s)) : Within R (update f : Prog σ ε Unit) := by
  intro s u s' hx
  rw [(update_ok f u).mp hx]
  exact h s

theorem Within.bind [IsTrans σ R] {x : Prog σ ε α} {f : α → Prog σ ε β} (hx : Within R x)
    (hf : ∀ a, Within R (f a)) : Within R (x >>= f) := by
  intro s b s' h
  obtain ⟨a, t, h1, h2⟩ := (bind_ok x f b).mp h
  exact IsTrans.trans _ _ _ (hx s a t h1) (hf a t b s' h2)

theorem Within.ite {c : Prop} [Decidable c] {x y : Prog σ ε α} (hx : Within R x) (hy : Within R y) :
    Within R (if c then x else y) := by
  by_cases hc : c
  · rw [if_pos hc]
    exact hx
  · rw [if_neg hc]
    exact hy

theorem Within.onlyIf [Std.Refl R] {c : Bool} {x : Prog σ ε Unit} (hx : Within R x) : Within R (onlyIf c x) :=
  Within.ite hx (within_pure ())

theorem Within.loop [Std.Refl R] [IsTrans σ R] {body : Nat → Prog σ ε Unit} (h : ∀ i, Within R (body i)) :
    ∀ n, Within R (loop body n)
  | 0 => within_pure ()
  | n + 1 => (Within.loop h n).bind fun _ => h n

theorem Within.forM [Std.Refl R] [IsTrans σ R] {f : β → Prog σ ε Unit} (h : ∀ b, Within R (f b)) :
    ∀ xs : List β, Within R (xs.forM f)
  | [] => within_pure ()
  | x :: xs => (h x).bind fun _ => Within.forM h xs

end Rules

end Progs
