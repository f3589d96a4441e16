import Raampjes.Lib.Prog

/-!
# Loops without a bound

A round of such a loop takes the loop's variable and goes on with another value of it, or is done with a result.

- `forever_chain`: the rounds are known, so the loop returns; `goesOn_chain`: what the variable was meanwhile;
- `forever_rule`: the invariant rule, for loops that need not return;
- `forever_goesOn`: a loop that returned went through rounds to the one that was done;
- `exists_lt_of_iterate`: among `N` values, what an iteration reaches at all it reaches in fewer than `N` rounds, so a
  loop over them that has not ended after `N` rounds never does.
-/

namespace Progs

section While

variable {σ ε α β : Type}

/-- `for (;;) body`: a round goes on with `inl` and is done with `inr`. The program stops with `e` after `n` rounds. -/
def forever (e : ε) (body : α → Prog σ ε (α ⊕ β)) : Nat → α → Prog σ ε β
  | 0, _ => stop e
  | n + 1, a => do
    match ← body a with
    | .inl a' => forever e body n a'
    | .inr b => pure b

variable {e : ε} {body : α → Prog σ ε (α ⊕ β)}

theorem forever_succ {n : Nat} {a : α} {b : β} {s s' : σ} :
    Returns (forever e body (n + 1) a) s b s' ↔ Returns (body a) s (.inr b) s' ∨
      ∃ a' t, Returns (body a) s (.inl a') t ∧ Returns (forever e body n a') t b s' := by
  rw [forever, bind_ok]
  constructor
  · rintro ⟨r, t, hb, hr⟩
    cases r with
    | inl a' => exact Or.inr ⟨a', t, hb, hr⟩
    | inr b' =>
      obtain ⟨rfl, rfl⟩ := pure_ok.mp hr
      exact Or.inl hb
  · rintro (hb | ⟨a', t, hb, hr⟩)
    · exact ⟨.inr b, s', hb, pure_ok.mpr ⟨rfl, rfl⟩⟩
    · exact ⟨.inl a', t, hb, hr⟩

/-- What follows a part whose run is known. -/
theorem Returns.bind_eq {x : Prog σ ε α} {s t : σ} {a : α} (h : Returns x s a t) (f : α → Prog σ ε β) :
    (x >>= f) s = f a t := by
  have h : x s = .ok (a, t) := h
  simp [bind, StateT.bind, Except.bind, h]

theorem update_run (f : σ → σ) (k : Unit → Prog σ ε β) (s : σ) : (update f >>= k) s = k () (f s) :=
  Returns.bind_eq ((update_ok f ()).mpr rfl) k

/-- Nothing follows a part that stops. -/
theorem bind_error {x : Prog σ ε α} {s : σ} {y : ε} (h : x s = .error y) (f : α → Prog σ ε β) : (x >>= f) s = .error y := by
  simp [bind, StateT.bind, Except.bind, h]

/-- A loop after a round that goes on. -/
theorem forever_on {n : Nat} {a a' : α} {s t : σ} (h : Returns (body a) s (.inl a') t) :
    forever e body (n + 1) a s = forever e body n a' t := by
  rw [forever, h.bind_eq]

/-- A loop whose round stops. -/
theorem forever_stops {n : Nat} {a : α} {s : σ} {x : ε} (h : body a s = .error x) :
    forever e body (n + 1) a s = .error x := by
  rw [forever, bind_error h]

/-- Some rounds lead from one value and state to another, and go on there. -/
def GoesOn (body : α → Prog σ ε (α ⊕ β)) : α × σ → α × σ → Prop :=
  Relation.ReflTransGen fun x y => Returns (body x.1) x.2 (.inl y.1) y.2

/-- A loop that returned went through rounds to the one that was done. -/
theorem forever_goesOn {n : Nat} {a : α} {b : β} {s s' : σ} (h : Returns (forever e body n a) s b s') :
    ∃ x, GoesOn body (a, s) x ∧ Returns (body x.1) x.2 (.inr b) s' := by
  induction n generalizing a s with
  | zero => exact absurd h (stop_ok e)
  | succ n ih =>
    rcases forever_succ.mp h with hb | ⟨a', t, hb, hr⟩
    · exact ⟨(a, s), .refl, hb⟩
    · obtain ⟨x, hx, hd⟩ := ih hr
      exact ⟨x, .head hb hx, hd⟩

/-- **The rule for partial correctness**: what every round keeps that goes on, and what the last one ends with. -/
theorem forever_rule {I : α → σ → Prop} {Q : β → σ → Prop}
    (hon : ∀ a s a' t, I a s → Returns (body a) s (.inl a') t → I a' t)
    (hdone : ∀ a s b t, I a s → Returns (body a) s (.inr b) t → Q b t) {n : Nat} {a : α} {b : β} {s s' : σ}
    (h : Returns (forever e body n a) s b s') (h0 : I a s) : Q b s' := by
  induction n generalizing a s with
  | zero => exact absurd h (stop_ok e)
  | succ n ih =>
    rcases forever_succ.mp h with hb | ⟨a', t, hb, hr⟩
    · exact hdone a s b s' h0 hb
    · exact ih hr (hon a s a' t h0 hb)

theorem Within.forever {R : σ → σ → Prop} [Std.Refl R] [IsTrans σ R] (h : ∀ a, Within R (body a)) :
    ∀ n a, Within R (forever e body n a)
  | 0, _ => within_stop e
  | n + 1, a => (h a).bind fun r => by
    cases r with
    | inl a' => exact Within.forever h n a'
    | inr b => exact within_pure b

variable {f : Nat → α} {I : Nat → σ → Prop} {k : Nat} {b : β}

/-- **A loop whose rounds are known**: `f i` is the variable at the start of round `i`, and round `k` is done. -/
theorem forever_chain (hon : ∀ i t, i < k → I i t → ∃ t', Returns (body (f i)) t (.inl (f (i + 1))) t' ∧ I (i + 1) t')
    {J : σ → Prop} (hdone : ∀ t, I k t → ∃ t', Returns (body (f k)) t (.inr b) t' ∧ J t') {n : Nat} (hn : k < n)
    {s : σ} (h0 : I 0 s) : ∃ t', Returns (forever e body n (f 0)) s b t' ∧ J t' := by
  -- the rounds before the last, from the last one backwards
  have hrest : ∀ j i t n, i + j = k → j < n → I i t → ∃ t', Returns (forever e body n (f i)) t b t' ∧ J t' := by
    intro j
    induction j with
    | zero =>
      intro i t n hi hn hI
      obtain ⟨n, rfl⟩ := Nat.exists_eq_succ_of_ne_zero (Nat.ne_zero_of_lt hn)
      rw [Nat.add_zero] at hi
      obtain ⟨t', hb, hJ⟩ := hdone t (hi ▸ hI)
      exact ⟨t', forever_succ.mpr (Or.inl (hi ▸ hb)), hJ⟩
    | succ j ih =>
      intro i t n hi hn hI
      obtain ⟨n, rfl⟩ := Nat.exists_eq_succ_of_ne_zero (Nat.ne_zero_of_lt hn)
      obtain ⟨t', hb, hI'⟩ := hon i t (by omega) hI
      obtain ⟨u, hr, hJ⟩ := ih (i + 1) t' n (by omega) (by omega) hI'
      exact ⟨u, forever_succ.mpr (Or.inr ⟨_, t', hb, hr⟩), hJ⟩
  exact hrest k 0 s n (Nat.zero_add k) hn h0

/-- What the variable was at the start of each round of such a loop. -/
theorem goesOn_chain (hon : ∀ i t, i < k → I i t → ∃ t', Returns (body (f i)) t (.inl (f (i + 1))) t' ∧ I (i + 1) t')
    (hdone : ∀ t, I k t → ∃ t', Returns (body (f k)) t (.inr b) t') {s : σ} (h0 : I 0 s) {x : α × σ}
    (hx : GoesOn body (f 0, s) x) : ∃ i, i ≤ k ∧ x.1 = f i ∧ I i x.2 := by
  induction hx with
  | refl => exact ⟨0, Nat.zero_le k, rfl, h0⟩
  | @tail y z _ hz ih =>
    obtain ⟨i, hi, hy, hI⟩ := ih
    rw [hy] at hz
    rcases Nat.lt_or_ge i k with hlt | hge
    · obtain ⟨t', hb, hI'⟩ := hon i y.2 hlt hI
      obtain ⟨heq, rfl⟩ := hb.unique hz
      exact ⟨i + 1, hlt, (Sum.inl.inj heq).symm, hI'⟩
    · obtain rfl : i = k := Nat.le_antisymm hi hge
      obtain ⟨t', hb⟩ := hdone y.2 hI
      exact absurd (hb.unique hz).1 Sum.inr_ne_inl

end While

/-- Among `N` values, what an iteration reaches at all it reaches in fewer than `N` rounds. -/
theorem exists_lt_of_iterate {g : Nat → Nat} {N a : Nat} (ha : a < N) (hg : ∀ x, g x < N) {p : Nat → Prop}
    (h : ∃ k, p (g^[k] a)) : ∃ k < N, p (g^[k] a) := by
  classical
  have hlt : ∀ k, g^[k] a < N := by
    intro k
    cases k with
    | zero => exact ha
    | succ k =>
      rw [Function.iterate_succ_apply']
      exact hg _
  refine ⟨Nat.find h, ?_, Nat.find_spec h⟩
  by_contra hge
  -- two of the first `N + 1` values are the same, so what follows the later one follows the earlier one too
  obtain ⟨i, hi, j, hj, hne, heq⟩ := Finset.exists_ne_map_eq_of_card_lt_of_maps_to
    (s := Finset.range (N + 1)) (t := Finset.range N) (by simp)
    (fun k _ => Finset.mem_coe.mpr (Finset.mem_range.mpr (hlt k)))
  rw [Finset.mem_range] at hi hj
  have hshort : ∀ i j, i < j → j < N + 1 → g^[i] a = g^[j] a → False := by
    intro i j hij hj heq
    have hle : j ≤ Nat.find h := by omega
    have hp : p (g^[Nat.find h - j + i] a) := by
      rw [Function.iterate_add_apply, heq, ← Function.iterate_add_apply, Nat.sub_add_cancel hle]
      exact Nat.find_spec h
    exact Nat.find_min h (by omega) hp
  rcases Nat.lt_or_gt_of_ne hne with hij | hji
  · exact hshort i j hij hj heq
  · exact hshort j i hji hi heq.symm

end Progs
