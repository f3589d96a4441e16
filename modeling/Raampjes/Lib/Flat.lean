import Raampjes.Lib.Prog

/-!
# Programs in a flat address space

Eight registers of 32 bits, the register of the page directory, the interrupt flag, and a memory of words, one at every
fourth address. A subroutine answers with the address that its `ret` goes to, so code can leave to where another stack says.

- `push_bind`, `pop_bind`, `load_bind`, `store_bind`: the instructions, at addresses that are aligned and do not wrap;
- `ret_returns`, `call_bind`: subroutines that go back to their caller;
- `compiled`: a function behind the calling convention, with anything below its stack; `compiled_returns`;
- `put`, `scribbled`: what is written to memory, and what is not;
- `Stacked`: a stack with more words on top; `pusha_returns`, `popa_returns`.
-/

namespace Flat

open Progs

structure Cpu where
  eax : Nat
  ebx : Nat
  ecx : Nat
  edx : Nat
  esi : Nat
  edi : Nat
  ebp : Nat
  esp : Nat
  cr3 : Nat
  interruptible : Bool
  mem : Nat → Nat

/-- Why a program leaves the model. -/
inductive Trap
  /-- An address that is not a multiple of four. -/
  | misaligned (address : Nat)
  /-- A subroutine went to an address other than the one behind its call. -/
  | jumped (address : Nat)
  deriving DecidableEq, Repr

abbrev OnCpu (α : Type) := Prog Cpu Trap α

/-! ## Memory -/

/-- The word `w` at `a`. -/
def put (mem : Nat → Nat) (a w : Nat) (b : Nat) : Nat := if b = a then w else mem b

@[simp] theorem put_self (mem : Nat → Nat) (a w : Nat) : put mem a w a = w := if_pos rfl

theorem put_of_ne {mem : Nat → Nat} {a b : Nat} (w : Nat) (h : b ≠ a) : put mem a w b = mem b := if_neg h

/-- Anything at the addresses from `start` on and below `stop`. -/
def scribbled (words : Nat → Nat) (start stop : Nat) (mem : Nat → Nat) (b : Nat) : Nat :=
  if start ≤ b ∧ b < stop then words b else mem b

theorem scribbled_of_lt {words mem : Nat → Nat} {start stop b : Nat} (h : b < start) : scribbled words start stop mem b = mem b :=
  if_neg fun hb => absurd hb.1 (by omega)

theorem scribbled_of_ge {words mem : Nat → Nat} {start stop b : Nat} (h : stop ≤ b) : scribbled words start stop mem b = mem b :=
  if_neg fun hb => absurd hb.2 (by omega)

/-! ## Instructions -/

/-- An address, or what it is after `add`. -/
def plus (a n : Nat) : Nat := (a + n) % 2 ^ 32

def minus (a n : Nat) : Nat := (a + (2 ^ 32 - n)) % 2 ^ 32

theorem plus_eq {a n : Nat} (h : a + n < 2 ^ 32) : plus a n = a + n := Nat.mod_eq_of_lt h

theorem minus_eq {a n : Nat} (h : n ≤ a) (hlt : a < 2 ^ 32) : minus a n = a - n := by
  rw [minus]
  omega

def load (a : Cpu → Nat) : OnCpu Nat := fun s =>
  if a s % 4 = 0 then .ok (s.mem (a s), s) else .error (.misaligned (a s))

def store (a w : Cpu → Nat) : OnCpu Unit := fun s =>
  if a s % 4 = 0 then .ok ((), { s with mem := put s.mem (a s) (w s) }) else .error (.misaligned (a s))

def push (w : Cpu → Nat) : OnCpu Unit := do
  let v ← gets w
  update fun s => { s with esp := minus s.esp 4 }
  store Cpu.esp fun _ => v

def pop (set : Nat → Cpu → Cpu) : OnCpu Unit := do
  let v ← load Cpu.esp
  update fun s => set v { s with esp := plus s.esp 4 }

/-- `mov r, [a]`. -/
def loadTo (set : Nat → Cpu → Cpu) (a : Cpu → Nat) : OnCpu Unit := do
  let v ← load a
  update (set v)

/-- `ret`: the address that is gone to. -/
def ret : OnCpu Nat := do
  let v ← load Cpu.esp
  update fun s => { s with esp := plus s.esp 4 }
  pure v

def leave : OnCpu Unit := do
  update fun s => { s with esp := s.ebp }
  pop fun v s => { s with ebp := v }

/-- `call f`, with the address behind the instruction. -/
def call (behind : Nat) (f : OnCpu Nat) : OnCpu Unit := do
  push fun _ => behind
  let address ← f
  if address = behind then pure () else stop (.jumped address)

/-- `add esp, n`. -/
def drop (n : Nat) : OnCpu Unit := update fun s => { s with esp := plus s.esp n }

def pusha : OnCpu Unit := do
  let esp ← gets Cpu.esp
  push Cpu.eax
  push Cpu.ecx
  push Cpu.edx
  push Cpu.ebx
  push fun _ => esp
  push Cpu.ebp
  push Cpu.esi
  push Cpu.edi

/-- `popa` skips the stack pointer. -/
def popa : OnCpu Unit := do
  pop fun v s => { s with edi := v }
  pop fun v s => { s with esi := v }
  pop fun v s => { s with ebp := v }
  pop fun _ s => s
  pop fun v s => { s with ebx := v }
  pop fun v s => { s with edx := v }
  pop fun v s => { s with ecx := v }
  pop fun v s => { s with eax := v }

/-! ## Functions behind the calling convention -/

/-- What a compiled function leaves in the registers that it need not keep, and in the words that it used. -/
structure Junk where
  eax : Nat
  ecx : Nat
  edx : Nat
  words : Nat → Nat

/-- A compiled function with `args` words of arguments: its effect on memory and its result are known, and it leaves
anything in `ecx` and `edx`, in the `depth` bytes below its stack and in its arguments. -/
def compiled (junk : Cpu → Junk) (depth args : Nat) (effect : Cpu → Nat → Nat) (result : Cpu → Nat) : OnCpu Nat := do
  update fun s => { s with
    eax := result s
    ecx := (junk s).ecx
    edx := (junk s).edx
    mem := scribbled (junk s).words (s.esp + 4) (s.esp + 4 + 4 * args)
      (scribbled (junk s).words (s.esp - depth) s.esp (effect s)) }
  ret

/-- `push w`, `call f`, `add esp, 4`: a call of a compiled function with one argument. -/
def callWith (behind : Nat) (w : Cpu → Nat) (f : OnCpu Nat) : OnCpu Unit := do
  push w
  call behind f
  drop 4

/-! ## Rules -/

section Rules

variable {α : Type} {s t : Cpu} {a : α} {n : Nat}

theorem load_returns {p : Cpu → Nat} (h : p s % 4 = 0) : Returns (load p) s (s.mem (p s)) s := by
  unfold Returns load
  rw [if_pos h]

theorem load_bind {p : Cpu → Nat} (k : Nat → OnCpu α) (h : p s % 4 = 0) :
    Returns (load p >>= k) s a t ↔ Returns (k (s.mem (p s))) s a t :=
  Returns.bind_iff (load_returns h) k

theorem loadTo_ok {p : Cpu → Nat} {u : Unit} (set : Nat → Cpu → Cpu) (h : p s % 4 = 0) :
    Returns (loadTo set p) s u t ↔ t = set (s.mem (p s)) s := by
  rw [loadTo, load_bind _ h, update_ok]

theorem loadTo_bind {p : Cpu → Nat} (set : Nat → Cpu → Cpu) (k : Unit → OnCpu α) (h : p s % 4 = 0) :
    Returns (loadTo set p >>= k) s a t ↔ Returns (k ()) (set (s.mem (p s)) s) a t :=
  Returns.bind_iff ((loadTo_ok set h).mpr rfl) k

theorem store_returns {p w : Cpu → Nat} (h : p s % 4 = 0) :
    Returns (store p w) s () { s with mem := put s.mem (p s) (w s) } := by
  unfold Returns store
  rw [if_pos h]

theorem store_bind {p w : Cpu → Nat} (k : Unit → OnCpu α) (h : p s % 4 = 0) :
    Returns (store p w >>= k) s a t ↔ Returns (k ()) { s with mem := put s.mem (p s) (w s) } a t :=
  Returns.bind_iff (store_returns h) k

theorem move_bind (f : Cpu → Cpu) (k : Unit → OnCpu α) :
    Returns (update f >>= k) s a t ↔ Returns (k ()) (f s) a t :=
  Returns.bind_iff ((update_ok f ()).mpr rfl) k

theorem push_returns (w : Cpu → Nat) (h : s.esp % 4 = 0) (hge : 4 ≤ s.esp) (hlt : s.esp < 2 ^ 32) :
    Returns (push w) s () { s with esp := s.esp - 4, mem := put s.mem (s.esp - 4) (w s) } := by
  have hesp := minus_eq hge hlt
  rw [push, Returns.bind_iff ((gets_ok w).mpr ⟨rfl, rfl⟩), move_bind, hesp]
  exact store_returns (by dsimp only; omega)

theorem push_bind (w : Cpu → Nat) (k : Unit → OnCpu α) (h : s.esp % 4 = 0) (hge : 4 ≤ s.esp) (hlt : s.esp < 2 ^ 32) :
    Returns (push w >>= k) s a t ↔ Returns (k ()) { s with esp := s.esp - 4, mem := put s.mem (s.esp - 4) (w s) } a t :=
  Returns.bind_iff (push_returns w h hge hlt) k

theorem pop_returns (set : Nat → Cpu → Cpu) (h : s.esp % 4 = 0) (hlt : s.esp + 4 < 2 ^ 32) :
    Returns (pop set) s () (set (s.mem s.esp) { s with esp := s.esp + 4 }) := by
  rw [pop, load_bind _ h, update_ok, plus_eq hlt]

theorem pop_bind (set : Nat → Cpu → Cpu) (k : Unit → OnCpu α) (h : s.esp % 4 = 0) (hlt : s.esp + 4 < 2 ^ 32) :
    Returns (pop set >>= k) s a t ↔ Returns (k ()) (set (s.mem s.esp) { s with esp := s.esp + 4 }) a t :=
  Returns.bind_iff (pop_returns set h hlt) k

theorem ret_returns (h : s.esp % 4 = 0) (hlt : s.esp + 4 < 2 ^ 32) :
    Returns ret s (s.mem s.esp) { s with esp := s.esp + 4 } := by
  rw [ret, load_bind _ h, move_bind, plus_eq hlt]
  exact pure_ok.mpr ⟨rfl, rfl⟩

theorem leave_returns (h : s.ebp % 4 = 0) (hlt : s.ebp + 4 < 2 ^ 32) :
    Returns leave s () { s with ebp := s.mem s.ebp, esp := s.ebp + 4 } := by
  rw [leave, move_bind]
  exact pop_returns _ h hlt

theorem drop_bind (k : Unit → OnCpu α) (hlt : s.esp + n < 2 ^ 32) :
    Returns (drop n >>= k) s a t ↔ Returns (k ()) { s with esp := s.esp + n } a t := by
  rw [drop, move_bind, plus_eq hlt]

/-- A subroutine that goes back to its caller. -/
theorem call_bind {behind : Nat} {f : OnCpu Nat} {u : Cpu} (k : Unit → OnCpu α) (h : s.esp % 4 = 0) (hge : 4 ≤ s.esp)
    (hlt : s.esp < 2 ^ 32) (hf : Returns f { s with esp := s.esp - 4, mem := put s.mem (s.esp - 4) behind } behind u) :
    Returns (call behind f >>= k) s a t ↔ Returns (k ()) u a t := by
  refine Returns.bind_iff ?_ k
  rw [call, push_bind _ _ h hge hlt, Returns.bind_iff hf, if_pos rfl]
  exact pure_ok.mpr ⟨rfl, rfl⟩

/-- A compiled function goes back to where its stack says. -/
theorem compiled_returns {junk : Cpu → Junk} {depth args : Nat} {effect : Cpu → Nat → Nat} {result : Cpu → Nat}
    (h : s.esp % 4 = 0) (hlt : s.esp + 4 < 2 ^ 32) : Returns (compiled junk depth args effect result) s (effect s s.esp)
      { s with
        eax := result s, ecx := (junk s).ecx, edx := (junk s).edx, esp := s.esp + 4
        mem := scribbled (junk s).words (s.esp + 4) (s.esp + 4 + 4 * args)
          (scribbled (junk s).words (s.esp - depth) s.esp (effect s)) } := by
  rw [compiled, move_bind]
  have hback : scribbled (junk s).words (s.esp + 4) (s.esp + 4 + 4 * args)
      (scribbled (junk s).words (s.esp - depth) s.esp (effect s)) s.esp = effect s s.esp := by
    rw [scribbled_of_lt (by omega), scribbled_of_ge (Nat.le_refl _)]
  rw [← hback]
  exact ret_returns h hlt

/-- The machine when a compiled function is entered with one argument. -/
def passing (behind : Nat) (w : Cpu → Nat) (s : Cpu) : Cpu :=
  { s with esp := s.esp - 8, mem := put (put s.mem (s.esp - 4) (w s)) (s.esp - 8) behind }

/-- What a compiled function leaves to its caller, when its effect on memory was `effect` and it used `depth` bytes. -/
structure Passed (depth result : Nat) (effect : Nat → Nat) (s t : Cpu) : Prop where
  eax : t.eax = result
  ebx : t.ebx = s.ebx
  esi : t.esi = s.esi
  edi : t.edi = s.edi
  ebp : t.ebp = s.ebp
  esp : t.esp = s.esp
  cr3 : t.cr3 = s.cr3
  mem : ∀ a, (a < s.esp - 8 - depth ∨ s.esp ≤ a) → t.mem a = effect a

/-- **A call of a compiled function**, whose effect spares the address that it goes back to. -/
theorem callWith_returns {junk : Cpu → Junk} {depth behind : Nat} {w : Cpu → Nat} {effect : Cpu → Nat → Nat}
    {result : Cpu → Nat} (h : s.esp % 4 = 0) (hge : 8 ≤ s.esp) (hlt : s.esp < 2 ^ 32)
    (hback : effect (passing behind w s) (s.esp - 8) = behind) :
    ∃ t, Returns (callWith behind w (compiled junk depth 1 effect result)) s () t ∧
      Passed depth (result (passing behind w s)) (effect (passing behind w s)) s t := by
  have hentry : (passing behind w s).esp = s.esp - 8 := rfl
  have hc := @compiled_returns (passing behind w s) junk depth 1 effect result (by omega) (by omega)
  rw [hentry, hback] at hc
  set t1 : Cpu := { passing behind w s with
    eax := result (passing behind w s), ecx := (junk (passing behind w s)).ecx, edx := (junk (passing behind w s)).edx
    esp := s.esp - 8 + 4
    mem := scribbled (junk (passing behind w s)).words (s.esp - 8 + 4) (s.esp - 8 + 4 + 4 * 1)
      (scribbled (junk (passing behind w s)).words (s.esp - 8 - depth) (s.esp - 8) (effect (passing behind w s))) }
  have hesp : t1.esp = s.esp - 4 := show s.esp - 8 + 4 = s.esp - 4 by omega
  refine ⟨{ t1 with esp := s.esp }, ?_, ⟨rfl, rfl, rfl, rfl, rfl, rfl, rfl, fun a ha => ?_⟩⟩
  · have hsub : s.esp - 4 - 4 = s.esp - 8 := by omega
    rw [callWith, push_bind _ _ h (by omega) hlt]
    refine (call_bind _ (by dsimp only; omega) (by dsimp only; omega) (by dsimp only; omega) (u := t1) ?_).mpr ?_
    · dsimp only
      rw [hsub]
      exact hc
    · rw [drop, update_ok, plus_eq (by omega), hesp, Nat.sub_add_cancel (by omega)]
  · show scribbled _ (s.esp - 8 + 4) (s.esp - 8 + 4 + 4 * 1) (scribbled _ (s.esp - 8 - depth) (s.esp - 8) _) a = _
    rcases ha with ha | ha
    · rw [scribbled_of_lt (by omega), scribbled_of_lt (by omega)]
    · rw [scribbled_of_ge (by omega), scribbled_of_ge (by omega)]

end Rules

/-! ## Words on the stack -/

/-- The words that lie one after the other from `a` on. -/
def WordsAt (mem : Nat → Nat) : Nat → List Nat → Prop
  | _, [] => True
  | a, w :: ws => mem a = w ∧ WordsAt mem (a + 4) ws

/-- The memory with these words one after the other from `a` on. -/
def putWords (mem : Nat → Nat) : Nat → List Nat → Nat → Nat
  | _, [] => mem
  | a, w :: ws => put (putWords mem (a + 4) ws) a w

/-- The machine with one more word on its stack. -/
def pushed (s : Cpu) (w : Nat) : Cpu := { s with esp := s.esp - 4, mem := put s.mem (s.esp - 4) w }

/-- `t` is `s` with `ws` on top of its stack. -/
structure Stacked (ws : List Nat) (s t : Cpu) : Prop where
  esp : t.esp + 4 * ws.length = s.esp
  words : WordsAt t.mem t.esp ws
  mem : ∀ a, (a < t.esp ∨ s.esp ≤ a) → t.mem a = s.mem a
  rest : t = { s with esp := t.esp, mem := t.mem }

section Words

variable {mem mem' : Nat → Nat} {a n : Nat} {s t u : Cpu} {vs ws : List Nat} {w : Nat}

theorem WordsAt.congr (h : WordsAt mem a ws) (hsame : ∀ b, a ≤ b → b < a + 4 * ws.length → mem' b = mem b) :
    WordsAt mem' a ws := by
  induction ws generalizing a with
  | nil => trivial
  | cons w ws ih =>
    rw [List.length_cons] at hsame
    refine ⟨(hsame a (Nat.le_refl _) (by omega)).trans h.1, ih h.2 fun b hge hlt => hsame b (by omega) (by omega)⟩

theorem putWords_of_not_mem {b : Nat} (h : b < a ∨ a + 4 * ws.length ≤ b) : putWords mem a ws b = mem b := by
  induction ws generalizing a with
  | nil => rfl
  | cons w ws ih =>
    rw [List.length_cons] at h
    rw [putWords, put_of_ne _ (by omega), ih (by omega)]

theorem WordsAt.putWords (h : WordsAt mem' a ws) (hrest : ∀ b, a + 4 * ws.length ≤ b → mem' b = mem b) {b : Nat}
    (hb : b % 4 = a % 4) (hle : a ≤ b) : mem' b = putWords mem a ws b := by
  induction ws generalizing a with
  | nil => exact hrest b hle
  | cons w ws ih =>
    rw [List.length_cons] at hrest
    by_cases hat : b = a
    · rw [hat, Flat.putWords, put_self]
      exact h.1
    · rw [Flat.putWords, put_of_ne _ hat]
      exact ih h.2 (fun c hc => hrest c (by omega)) (by omega) (by omega)

theorem wordsAt_append : WordsAt mem a (vs ++ ws) ↔ WordsAt mem a vs ∧ WordsAt mem (a + 4 * vs.length) ws := by
  induction vs generalizing a with
  | nil => exact ⟨fun h => ⟨trivial, h⟩, fun h => h.2⟩
  | cons v vs ih =>
    have hsum : a + 4 + 4 * vs.length = a + 4 * (vs.length + 1) := by omega
    rw [List.cons_append, WordsAt, WordsAt, List.length_cons, ih, hsum, and_assoc]

theorem Stacked.nil (s : Cpu) : Stacked [] s s := ⟨rfl, trivial, fun _ _ => rfl, rfl⟩

theorem Stacked.one (h : 4 ≤ s.esp) (w : Nat) : Stacked [w] s (pushed s w) where
  esp := Nat.sub_add_cancel h
  words := ⟨put_self .., trivial⟩
  mem a ha := put_of_ne _ (show a ≠ s.esp - 4 from fun e => by
    rcases ha with ha | ha
    · exact absurd ha (by rw [e]; exact Nat.lt_irrefl _)
    · omega)
  rest := rfl

/-- **What the memory is** where the stack has grown. -/
theorem Stacked.word (h : Stacked ws s t) {b : Nat} (hb : b % 4 = s.esp % 4) :
    t.mem b = putWords s.mem (s.esp - 4 * ws.length) ws b := by
  have hesp := h.esp
  rw [show s.esp - 4 * ws.length = t.esp by omega]
  by_cases hlow : b < t.esp
  · rw [h.mem b (Or.inl hlow), putWords_of_not_mem (Or.inl hlow)]
  · exact h.words.putWords (fun c hc => h.mem c (Or.inr (by omega))) (by omega) (by omega)

/-- More words on top. -/
theorem Stacked.trans (h : Stacked ws s t) (h' : Stacked vs t u) : Stacked (vs ++ ws) s u := by
  have hesp := h.esp
  have hesp' := h'.esp
  refine ⟨?_, wordsAt_append.mpr ⟨h'.words, ?_⟩, fun a ha => ?_, ?_⟩
  · rw [List.length_append]
    omega
  · rw [hesp']
    exact h.words.congr fun b hge hlt => h'.mem b (Or.inr hge)
  · rw [h'.mem a (by omega), h.mem a (by omega)]
  · exact h'.rest.trans (congrArg (fun c : Cpu => { c with esp := u.esp, mem := u.mem }) h.rest)

/-- What does not depend on the stack may be changed under it. -/
theorem Stacked.set {f : Cpu → Cpu} (h : Stacked ws s t)
    (hf : ∀ c e m, f { c with esp := e, mem := m } = { f c with esp := e, mem := m }) (hesp : ∀ c, (f c).esp = c.esp)
    (hmem : ∀ c, (f c).mem = c.mem) : Stacked ws (f s) (f t) where
  esp := by rw [hesp, hesp, h.esp]
  words := by rw [hesp, hmem]; exact h.words
  mem a ha := by
    rw [hesp, hesp] at ha
    rw [hmem, hmem, h.mem a ha]
  rest := by
    rw [hesp, hmem, ← hf]
    exact congrArg f h.rest

end Words

/-! ## Pushing and popping several words -/

section Several

variable {α : Type} {s t u : Cpu} {a : α} {ws : List Nat}

theorem push_pushed (w : Cpu → Nat) (h : s.esp % 4 = 0) (hge : 4 ≤ s.esp) (hlt : s.esp < 2 ^ 32) :
    Returns (push w) s () (pushed s (w s)) := push_returns w h hge hlt

/-- A push on a stack that has grown, of something that does not depend on the stack. -/
theorem Stacked.and_push {w : Cpu → Nat} {v : Nat} (hs : Stacked ws s t) (hw : ∀ e m, w { s with esp := e, mem := m } = v)
    (h : s.esp % 4 = 0) (hge : 4 * ws.length + 4 ≤ s.esp) (hlt : s.esp < 2 ^ 32) :
    ∃ u, Returns (push w) t () u ∧ Stacked (v :: ws) s u := by
  have hesp := hs.esp
  have hv : w t = v := (congrArg w hs.rest).trans (hw _ _)
  have hone : Stacked [v] t (pushed t (w t)) := hv ▸ Stacked.one (by omega) (w t)
  exact ⟨_, push_pushed w (by omega) (by omega) (by omega), hs.trans hone⟩

theorem pusha_returns (h : s.esp % 4 = 0) (hge : 32 ≤ s.esp) (hlt : s.esp < 2 ^ 32) :
    ∃ t, Returns pusha s () t ∧ Stacked [s.edi, s.esi, s.ebp, s.esp, s.ebx, s.edx, s.ecx, s.eax] s t := by
  obtain ⟨t1, h1, hs1⟩ := (Stacked.nil s).and_push (w := Cpu.eax) (fun _ _ => rfl) h (by simp only [List.length]; omega) hlt
  obtain ⟨t2, h2, hs2⟩ := hs1.and_push (w := Cpu.ecx) (fun _ _ => rfl) h (by simp only [List.length]; omega) hlt
  obtain ⟨t3, h3, hs3⟩ := hs2.and_push (w := Cpu.edx) (fun _ _ => rfl) h (by simp only [List.length]; omega) hlt
  obtain ⟨t4, h4, hs4⟩ := hs3.and_push (w := Cpu.ebx) (fun _ _ => rfl) h (by simp only [List.length]; omega) hlt
  obtain ⟨t5, h5, hs5⟩ := hs4.and_push (w := fun _ => s.esp) (fun _ _ => rfl) h (by simp only [List.length]; omega) hlt
  obtain ⟨t6, h6, hs6⟩ := hs5.and_push (w := Cpu.ebp) (fun _ _ => rfl) h (by simp only [List.length]; omega) hlt
  obtain ⟨t7, h7, hs7⟩ := hs6.and_push (w := Cpu.esi) (fun _ _ => rfl) h (by simp only [List.length]; omega) hlt
  obtain ⟨t8, h8, hs8⟩ := hs7.and_push (w := Cpu.edi) (fun _ _ => rfl) h (by simp only [List.length]; omega) hlt
  refine ⟨t8, ?_, hs8⟩
  rw [pusha, Returns.bind_iff ((gets_ok Cpu.esp).mpr ⟨rfl, rfl⟩), Returns.bind_iff h1, Returns.bind_iff h2,
    Returns.bind_iff h3, Returns.bind_iff h4, Returns.bind_iff h5, Returns.bind_iff h6, Returns.bind_iff h7]
  exact h8

/-- `popa` takes the registers from the stack. -/
theorem popa_returns {edi esi ebp esp ebx edx ecx eax : Nat} (h : s.esp % 4 = 0) (hlt : s.esp + 32 < 2 ^ 32)
    (hws : WordsAt s.mem s.esp [edi, esi, ebp, esp, ebx, edx, ecx, eax]) :
    Returns popa s () { s with
      eax := eax, ebx := ebx, ecx := ecx, edx := edx, esi := esi, edi := edi, ebp := ebp, esp := s.esp + 32 } := by
  obtain ⟨rfl, rfl, rfl, -, rfl, rfl, rfl, rfl, -⟩ := hws
  rw [popa, pop_bind _ _ h (by omega), pop_bind _ _ (by dsimp only; omega) (by dsimp only; omega),
    pop_bind _ _ (by dsimp only; omega) (by dsimp only; omega), pop_bind _ _ (by dsimp only; omega) (by dsimp only; omega),
    pop_bind _ _ (by dsimp only; omega) (by dsimp only; omega), pop_bind _ _ (by dsimp only; omega) (by dsimp only; omega),
    pop_bind _ _ (by dsimp only; omega) (by dsimp only; omega)]
  exact pop_returns _ (by dsimp only; omega) (by dsimp only; omega)

end Several

end Flat
