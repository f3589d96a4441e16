import Raampjes.Boot.Fat

/-!
# Finding a file

`FindDirEntry` of `fat.asm`: the entries of 32 bytes are compared with a name of eleven characters, one after the other.
The data segment is 0, like the variables and the names of the loader it lies apart from what is loaded.

- `repeCmpsb_returns`: the comparison of two strings;
- `dirRound_returns`: one entry; `findDirEntry_finds`: the first entry with the name is found;
- `findDirEntry_falls`: when there is none, the search takes the address that it should go back to for the saved `cx`.
-/

namespace Raampjes.Boot

open Progs RealMode

/-! ## The program -/

/-- `repe cmpsb`, with `n` in `cx`. -/
def repeCmpsb : Nat → OnLoader Unit
  | 0 => pure ()
  | n + 1 => do
    update fun s => { s with
      zf := s.mem (linear 0 s.si) = s.mem (linear s.es s.di), si := (s.si + 1) % 65536, di := (s.di + 1) % 65536, cx := n }
    let equal ← gets fun s => s.zf
    if equal then repeCmpsb n else pure ()

/-- From `.loop` to the jump back there, to `EntryFound`, or to `NotFound`. -/
def dirRound (name : Nat) : OnLoader (Unit ⊕ Bool) := do
  push fun s => s.cx
  push fun s => s.si
  update fun s => { s with cx := 11 }
  update fun s => { s with si := name }
  repeCmpsb 11
  pop fun w s => { s with si := w }
  let equal ← gets fun s => s.zf
  if equal then pure (.inr true)
  else do
    update fun s => { s with ax := (s.ax + 32) % 65536 }
    update fun s => { s with di := s.si }
    update fun s => { s with di := (s.di + s.ax) % 65536 }
    pop fun w s => { s with cx := w }
    update fun s => { s with cx := dec s.cx }
    let cx ← gets fun s => s.cx
    pure (if cx = 0 then .inr false else .inl ())

/-- The name that `ax` points to. A search that finds nothing comes to `NotFound`, where a text is printed and `hlt` waits
for an interrupt; behind it lies `EntryFound`, so the code goes on there either way. What `Print` leaves in `si` is not
modelled. -/
def findDirEntry : OnLoader Nat := do
  let name ← gets fun s => s.ax
  update fun s => { s with cx := rootDirectoryEntries }
  update fun s => { s with di := s.si }
  update fun s => { s with ax := 0 }
  let _ ← forever .endless (fun _ => dirRound name) rootDirectoryEntries ()
  pop fun w s => { s with cx := w }
  ret

/-! ## Comparing -/

section Compare

variable {s t : Machine Vars} {n : Nat}

/-- The strings at `ds:si` and `es:di` agree in `n` bytes. -/
def Agree (s : Machine Vars) (n : Nat) : Prop := ∀ k < n, s.mem (linear 0 (s.si + k)) = s.mem (linear s.es (s.di + k))

/-- What a comparison leaves as it is. -/
structure Compared (s t : Machine Vars) : Prop where
  ax : t.ax = s.ax
  bx : t.bx = s.bx
  dx : t.dx = s.dx
  es : t.es = s.es
  stack : t.stack = s.stack
  mem : t.mem = s.mem
  vars : t.vars = s.vars
  reads : t.reads = s.reads

theorem Compared.refl (s : Machine Vars) : Compared s s := ⟨rfl, rfl, rfl, rfl, rfl, rfl, rfl, rfl⟩

/-- **`repe cmpsb`** goes on up to the first difference. -/
theorem repeCmpsb_returns (hsi : s.si + n < 65536) (hdi : s.di + n < 65536) (hzf : n = 0 → s.zf = true) : ∃ t,
    Returns (repeCmpsb n) s () t ∧ Compared s t ∧ (t.zf = true ↔ Agree s n) ∧ (Agree s n → t.di = s.di + n) := by
  induction n generalizing s with
  | zero =>
    have hagree : Agree s 0 := fun k hk => absurd hk (Nat.not_lt_zero k)
    exact ⟨s, pure_ok.mpr ⟨rfl, rfl⟩, Compared.refl s, iff_of_true (hzf rfl) hagree, fun _ => rfl⟩
  | succ n ih =>
    have hsi' : (s.si + 1) % 65536 = s.si + 1 := by omega
    have hdi' : (s.di + 1) % 65536 = s.di + 1 := by omega
    set u : Machine Vars := { s with
      zf := s.mem (linear 0 s.si) = s.mem (linear s.es s.di), si := s.si + 1, di := s.di + 1, cx := n } with hu
    have hfirst : ∀ t, Returns (repeCmpsb (n + 1)) s () t ↔
        Returns (if u.zf then repeCmpsb n else pure ()) u () t := fun t => by
      rw [repeCmpsb, update_bind, gets_bind, hsi', hdi']
    have hagree : Agree s (n + 1) ↔ u.zf = true ∧ Agree u n := by
      have hshift : ∀ a k : Nat, a + (k + 1) = a + 1 + k := fun a k => by omega
      constructor
      · refine fun h => ⟨decide_eq_true (h 0 (Nat.succ_pos n)), fun k hk => ?_⟩
        have := h (k + 1) (Nat.succ_lt_succ hk)
        rwa [hshift s.si, hshift s.di] at this
      · rintro ⟨h0, h⟩ k hk
        cases k with
        | zero => exact of_decide_eq_true h0
        | succ k =>
          rw [hshift s.si, hshift s.di]
          exact h k (Nat.lt_of_succ_lt_succ hk)
    cases hz : u.zf with
    | false =>
      have hno : ¬ Agree s (n + 1) := fun h => by
        rw [hz] at hagree
        exact Bool.false_ne_true (hagree.mp h).1
      refine ⟨u, (hfirst u).mpr ?_, ⟨rfl, rfl, rfl, rfl, rfl, rfl, rfl, rfl⟩, ?_, fun h => absurd h hno⟩
      · rw [hz]
        exact pure_ok.mpr ⟨rfl, rfl⟩
      · rw [hz]
        exact iff_of_false Bool.false_ne_true hno
    | true =>
      obtain ⟨t, ht, hcompared, hiff, hend⟩ := ih (s := u) (by dsimp only [u]; omega) (by dsimp only [u]; omega) fun _ => hz
      refine ⟨t, (hfirst t).mpr ?_, ⟨hcompared.ax, hcompared.bx, hcompared.dx, hcompared.es, hcompared.stack,
        hcompared.mem, hcompared.vars, hcompared.reads⟩, ?_, fun h => ?_⟩
      · rwa [hz]
      · rw [hiff, hagree, hz]
        exact ⟨fun h => ⟨rfl, h⟩, fun h => h.2⟩
      · rw [hend (hagree.mp h).2]
        show s.di + 1 + n = _
        omega

/-! ## The search -/

/-- The entry `i` behind `es:si` has the name at `ds:name`. -/
def Named (s : Machine Vars) (name i : Nat) : Prop :=
  ∀ k < 11, s.mem (linear 0 (name + k)) = s.mem (linear s.es (s.si + 32 * i + k))

/-- In front of entry `i`. -/
structure Before (s t : Machine Vars) (i : Nat) : Prop where
  ax : t.ax = 32 * i
  bx : t.bx = s.bx
  cx : t.cx = rootDirectoryEntries - i
  si : t.si = s.si
  di : t.di = s.si + 32 * i
  es : t.es = s.es
  stack : t.stack = s.stack
  mem : t.mem = s.mem
  vars : t.vars = s.vars
  reads : t.reads = s.reads

/-- The entry `i` has been found. -/
structure Found (s t : Machine Vars) (i : Nat) : Prop where
  bx : t.bx = s.bx
  di : t.di = s.si + 32 * i + 11
  es : t.es = s.es
  mem : t.mem = s.mem
  vars : t.vars = s.vars
  reads : t.reads = s.reads

variable {name i : Nat}

/-- **One entry.** -/
theorem dirRound_returns (hname : name + 11 < 65536) (hsi : s.si + 32 * rootDirectoryEntries < 65536)
    (hi : i < rootDirectoryEntries) (h : Before s t i) :
    (Named s name i → ∃ u w, Returns (dirRound name) t (.inr true) u ∧ u.stack = w :: s.stack ∧ Found s u i) ∧
      (¬ Named s name i → ∃ u, Returns (dirRound name) t (if i + 1 = rootDirectoryEntries then .inr false else .inl ()) u ∧
        u.stack = s.stack ∧ (i + 1 < rootDirectoryEntries → Before s u (i + 1))) := by
  set t1 : Machine Vars := { t with cx := 11, si := name, stack := t.si :: t.cx :: t.stack } with ht1
  have hdi := h.di
  obtain ⟨u, hu, hcompared, hiff, hend⟩ := @repeCmpsb_returns t1 11 hname
    (by dsimp only [t1]; unfold rootDirectoryEntries at hi hsi; omega) (fun h0 => absurd h0 (by decide))
  have hstack : u.stack = t.si :: t.cx :: t.stack := hcompared.stack
  have hagree : Agree t1 11 ↔ Named s name i := by
    unfold Agree Named
    rw [show t1.mem = s.mem from h.mem, show t1.es = s.es from h.es, show t1.di = s.si + 32 * i from hdi]
  have hround : ∀ r v, Returns (dirRound name) t r v ↔
      Returns (if u.zf then pure (.inr true) else do
        update fun s => { s with ax := (s.ax + 32) % 65536 }
        update fun s => { s with di := s.si }
        update fun s => { s with di := (s.di + s.ax) % 65536 }
        pop fun w s => { s with cx := w }
        update fun s => { s with cx := dec s.cx }
        let cx ← gets fun s => s.cx
        pure (if cx = 0 then .inr false else .inl ()))
        { u with si := t.si, stack := t.cx :: t.stack } r v := fun r v => by
    rw [dirRound, push_bind, push_bind, update_bind, update_bind, Returns.bind_iff hu,
      Returns.bind_iff (pop_returns _ hstack), gets_bind]
  constructor
  · intro hnamed
    have hzf : u.zf = true := hiff.mpr (hagree.mpr hnamed)
    refine ⟨{ u with si := t.si, stack := t.cx :: t.stack }, t.cx, (hround _ _).mpr ?_, ?_, ?_⟩
    · rw [hzf]
      exact pure_ok.mpr ⟨rfl, rfl⟩
    · rw [h.stack]
    · refine ⟨hcompared.bx.trans h.bx, ?_, hcompared.es.trans h.es, hcompared.mem.trans h.mem,
        hcompared.vars.trans h.vars, hcompared.reads.trans h.reads⟩
      show u.di = _
      rw [hend (hagree.mpr hnamed)]
      show t.di + 11 = _
      rw [hdi]
  · intro hother
    have hzf : u.zf = false := Bool.eq_false_iff.mpr fun hz => hother (hagree.mp (hiff.mp hz))
    have hax : (u.ax + 32) % 65536 = 32 * (i + 1) := by
      have hax : u.ax = 32 * i := hcompared.ax.trans h.ax
      unfold rootDirectoryEntries at hi hsi
      omega
    have hdi' : (t.si + 32 * (i + 1)) % 65536 = s.si + 32 * (i + 1) := by
      have hsi' := h.si
      unfold rootDirectoryEntries at hi hsi
      omega
    have hcx : dec t.cx = rootDirectoryEntries - (i + 1) := by
      rw [h.cx, dec_pos (by omega) (by unfold rootDirectoryEntries; omega)]
      omega
    refine ⟨{ u with
      ax := 32 * (i + 1), si := t.si, di := s.si + 32 * (i + 1), cx := rootDirectoryEntries - (i + 1), stack := t.stack },
      (hround _ _).mpr ?_, h.stack, fun hlt => ?_⟩
    · rw [hzf]
      simp only [Bool.false_eq_true, if_false, update_bind, pop_bind, gets_bind, hax, hdi', hcx]
      refine pure_ok.mpr ⟨?_, rfl⟩
      by_cases hlast : i + 1 = rootDirectoryEntries
      · rw [if_pos hlast, if_pos (by omega)]
      · rw [if_neg hlast, if_neg (by omega)]
    · exact ⟨rfl, hcompared.bx.trans h.bx, rfl, h.si, rfl, hcompared.es.trans h.es, h.stack, hcompared.mem.trans h.mem,
        hcompared.vars.trans h.vars, hcompared.reads.trans h.reads⟩

/-- The search, in front of the first entry. -/
def searching (s : Machine Vars) : Machine Vars := { s with cx := rootDirectoryEntries, di := s.si, ax := 0 }

theorem searching_before (s : Machine Vars) : Before s (searching s) 0 := ⟨rfl, rfl, rfl, rfl, rfl, rfl, rfl, rfl, rfl, rfl⟩

/-- Behind the search. -/
theorem findDirEntry_eq {b : Bool} {u : Machine Vars} {w : Nat} {rest : List Nat}
    (hu : Returns (forever .endless (fun _ => dirRound s.ax) rootDirectoryEntries ()) (searching s) b u)
    (hstack : u.stack = w :: rest) : findDirEntry s = ret { u with cx := w, stack := rest } := by
  have hpop : Returns (pop fun w s => { s with cx := w }) u () { u with cx := w, stack := rest } := pop_returns _ hstack
  have hrun : findDirEntry s = (forever .endless (fun _ => dirRound s.ax) rootDirectoryEntries () >>= fun _ => do
      pop fun w s => { s with cx := w }
      ret) (searching s) := rfl
  rw [hrun, hu.bind_eq, hpop.bind_eq]

/-- **`FindDirEntry`** finds the first entry with the name. -/
theorem findDirEntry_finds {back : Nat} {rest : List Nat} (hname : s.ax + 11 < 65536)
    (hsi : s.si + 32 * rootDirectoryEntries < 65536) (hi : i < rootDirectoryEntries) (hnamed : Named s s.ax i)
    (hfirst : ∀ j < i, ¬ Named s s.ax j) (hstack : s.stack = back :: rest) :
    ∃ t, Returns findDirEntry s back t ∧ t.stack = rest ∧ Found s t i := by
  obtain ⟨u, hu, w, hw, hfound⟩ := @forever_chain _ _ _ _ Trap.endless (fun _ => dirRound s.ax) (fun _ => ())
    (fun j t => Before s t j) i true
    (fun j t hj hbefore => by
      obtain ⟨u, hu, _, hnext⟩ := (dirRound_returns hname hsi (hj.trans hi) hbefore).2 (hfirst j hj)
      rw [if_neg (by omega)] at hu
      exact ⟨u, hu, hnext (by omega)⟩)
    (fun u => ∃ w, u.stack = w :: s.stack ∧ Found s u i)
    (fun t hbefore => by
      obtain ⟨u, w, hu, hw, hfound⟩ := (dirRound_returns hname hsi hi hbefore).1 hnamed
      exact ⟨u, hu, w, hw, hfound⟩)
    _ hi _ (searching_before s)
  have hret : Returns ret { u with cx := w, stack := s.stack } back { u with cx := w, stack := rest } := ret_returns hstack
  exact ⟨{ u with cx := w, stack := rest }, (findDirEntry_eq hu hw).trans hret, rfl, ⟨hfound.bx, hfound.di, hfound.es,
    hfound.mem, hfound.vars, hfound.reads⟩⟩

/-- **When no entry has the name**, `EntryFound` takes the return address for the saved `cx`, and the next word for the
return address. -/
theorem findDirEntry_falls {back : Nat} {rest : List Nat} (hname : s.ax + 11 < 65536)
    (hsi : s.si + 32 * rootDirectoryEntries < 65536) (hnone : ∀ j < rootDirectoryEntries, ¬ Named s s.ax j)
    (hstack : s.stack = back :: rest) : ∃ u, u.stack = rest ∧ findDirEntry s = ret u := by
  obtain ⟨u, hu, hkept⟩ := @forever_chain _ _ _ _ Trap.endless (fun _ => dirRound s.ax) (fun _ => ())
    (fun j t => Before s t j) (rootDirectoryEntries - 1) false
    (fun j t hj hbefore => by
      obtain ⟨u, hu, _, hnext⟩ := (dirRound_returns hname hsi (by omega) hbefore).2 (hnone j (by omega))
      rw [if_neg (by omega)] at hu
      exact ⟨u, hu, hnext (by omega)⟩)
    (fun u => u.stack = s.stack)
    (fun t hbefore => by
      obtain ⟨u, hu, hkept, _⟩ := (dirRound_returns hname hsi (by decide) hbefore).2 (hnone _ (by decide))
      rw [if_pos (by decide)] at hu
      exact ⟨u, hu, hkept⟩)
    rootDirectoryEntries (by decide) _ (searching_before s)
  exact ⟨{ u with cx := back, stack := rest }, rfl, findDirEntry_eq hu (hkept.trans hstack)⟩

end Compare

end Raampjes.Boot
