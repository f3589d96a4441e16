import Raampjes.Sched.Line

/-!
# Writing to the input queue

`do_write` on descriptor 0 leaves out the first byte and returns the number of bytes and one more.

- `enqueueAll_length_le`, `enqueueAll_full`, `length_enqueueAll_zero`: what the loop does to the length of the queue, in
  general, when `FULL` answers, and when the head is at 0 and it never does;
- `ssize_lt`, `ssize_neg`: what is returned is one too many, or negative, or 0;
- `do_write_iff`: so a write does what it should only when its length is the largest number and nothing is accepted.
-/

namespace Raampjes.Sched

open Runs Tty

variable {k : Kernel} {bytes : List UInt8}

/-! ## What a write is to do -/

/-- The places that are free in `input_buf`. -/
def freePlaces (k : Kernel) : Nat := BUF_SIZE - 1 - (contents k.terminal.inputBuf).length

/-- Calls of `do_read(0)` and nothing else. -/
def OnlyReads (as : List Act) : Prop := ∀ a ∈ as, ∃ nbytes, a = .read 0 nbytes

/-- All of the bytes are queued, and reads of any sizes return them behind what was queued before. -/
structure Queued (k t : Kernel) (bytes : List UInt8) (ret : Int) : Prop where
  count : ret = bytes.length
  contents : contents t.terminal.inputBuf = contents k.terminal.inputBuf ++ bytes
  readBack : ∀ {ys : List (Step Kernel Act Event)} {u : Kernel}, Run step t ys u → OnlyReads (acts ys) →
    delivered (events ys) ++ Tty.contents u.terminal.inputBuf = Tty.contents k.terminal.inputBuf ++ bytes

/-- The number of bytes that were queued is returned. -/
def Counted (k t : Kernel) (bytes : List UInt8) (ret : Int) : Prop :=
  ∃ appended : List UInt8, appended.Sublist bytes ∧
    contents t.terminal.inputBuf = contents k.terminal.inputBuf ++ appended ∧ ret = appended.length

/-- `do_write(0, bytes, n)` does what it should. -/
def Writes (k : Kernel) (bytes : List UInt8) : Prop :=
  ∃ t ret, step k (.write 0 bytes) = some (t, [.wrote k.current ret]) ∧
    if bytes.length ≤ freePlaces k then Queued k t bytes ret else Counted k t bytes ret

/-! ## The loop -/

section Loop

variable {buf : TtyBuffer}

theorem bufEnqueue_length_le (h : Wf buf) (c : UInt8) :
    (contents (bufEnqueue buf c).2).length ≤ (contents buf).length + 1 := by
  rcases Nat.lt_or_ge (contents buf).length (BUF_SIZE - 1) with hl | hl
  · rw [(bufEnqueue_append h hl c).2, List.length_append, List.length_singleton]
  · have hl : (contents buf).length = BUF_SIZE - 1 := by have := length_lt h; omega
    by_cases h0 : buf.head = 0
    · rw [(bufEnqueue_overrun h hl h0 c).2]
      exact Nat.zero_le _
    · rw [bufEnqueue_full ((full_of_length h hl).mpr h0)]
      exact Nat.le_succ _

theorem enqueueAll_length_le (h : Wf buf) (bytes : List UInt8) :
    (contents (enqueueAll buf bytes)).length ≤ (contents buf).length + bytes.length := by
  induction bytes generalizing buf with
  | nil => exact Nat.le_refl _
  | cons c bytes ih =>
    have h1 := bufEnqueue_length_le h c
    have h2 := ih (bufEnqueue_wf h c)
    rw [List.length_cons]
    exact Nat.le_trans h2 (by omega)

/-- A full queue that is recognised refuses everything. -/
theorem enqueueAll_full (hf : full buf = true) (bytes : List UInt8) : enqueueAll buf bytes = buf := by
  induction bytes with
  | nil => rfl
  | cons c bytes ih =>
    rw [enqueueAll, List.foldl_cons, bufEnqueue_full hf]
    exact ih

theorem bufEnqueue_head (buf : TtyBuffer) (c : UInt8) : (bufEnqueue buf c).2.head = buf.head := by
  unfold bufEnqueue
  split <;> rfl

/-- With its head at 0 the queue grows until it starts again from nothing. -/
theorem length_enqueueAll_zero (h : Wf buf) (h0 : buf.head = 0) (bytes : List UInt8) :
    (contents (enqueueAll buf bytes)).length = ((contents buf).length + bytes.length) % BUF_SIZE := by
  induction bytes generalizing buf with
  | nil => exact (Nat.mod_eq_of_lt (length_lt h)).symm
  | cons c bytes ih =>
    have hnext := ih (bufEnqueue_wf h c) ((bufEnqueue_head buf c).trans h0)
    have hlt := length_lt h
    have hone : (contents (bufEnqueue buf c).2).length = ((contents buf).length + 1) % BUF_SIZE := by
      rcases Nat.lt_or_ge (contents buf).length (BUF_SIZE - 1) with hl | hl
      · rw [(bufEnqueue_append h hl c).2, List.length_append, List.length_singleton, Nat.mod_eq_of_lt (by omega)]
      · have hl : (contents buf).length = BUF_SIZE - 1 := by omega
        rw [(bufEnqueue_overrun h hl h0 c).2, hl]
        rfl
    rw [enqueueAll, List.foldl_cons, ← enqueueAll, hnext, hone, Nat.mod_add_mod, List.length_cons]
    congr 1
    omega

/-- With its head elsewhere the queue does not get shorter. -/
theorem length_le_enqueueAll (h : Wf buf) (h0 : buf.head ≠ 0) (bytes : List UInt8) :
    (contents buf).length ≤ (contents (enqueueAll buf bytes)).length := by
  induction bytes generalizing buf with
  | nil => exact Nat.le_refl _
  | cons c bytes ih =>
    have hnext := ih (bufEnqueue_wf h c) (by rwa [bufEnqueue_head])
    refine Nat.le_trans ?_ hnext
    rcases Nat.lt_or_ge (contents buf).length (BUF_SIZE - 1) with hl | hl
    · rw [(bufEnqueue_append h hl c).2, List.length_append]
      exact Nat.le_add_right _ _
    · have hl : (contents buf).length = BUF_SIZE - 1 := by have := length_lt h; omega
      rw [bufEnqueue_full ((full_of_length h hl).mpr h0)]

/-- A queue that is as long after `2 ^ 32 - 2` bytes as before refused them all. -/
theorem full_of_same_length (h : Wf buf) {bytes : List UInt8} (hlen : bytes.length = 2 ^ 32 - 2)
    (hsame : (contents (enqueueAll buf bytes)).length = (contents buf).length) : full buf = true := by
  have hlt := length_lt h
  by_cases h0 : buf.head = 0
  · rw [length_enqueueAll_zero h h0, hlen] at hsame
    rw [BUF_SIZE] at *
    omega
  · rcases Nat.lt_or_ge (contents buf).length (BUF_SIZE - 1) with hl | hl
    · -- the first byte would have been accepted
      obtain ⟨c, rest, rfl⟩ := List.exists_cons_of_ne_nil (show bytes ≠ [] by
        rintro rfl
        exact absurd hlen (by decide))
      have happ := (bufEnqueue_append h hl c).2
      have hle := length_le_enqueueAll (bufEnqueue_wf h c) (by rwa [bufEnqueue_head]) rest
      rw [happ, List.length_append, List.length_singleton] at hle
      rw [enqueueAll, List.foldl_cons, ← enqueueAll] at hsame
      omega
    · exact (full_of_length h (by omega)).mpr h0

end Loop

/-! ## The result -/

theorem ssize_lt {i : Nat} (h : i < 2 ^ 31) : ssize i = i := by
  unfold ssize
  rw [Int.bmod_def]
  split <;> omega

theorem ssize_neg {i : Nat} (h : 2 ^ 31 ≤ i) (h' : i < 2 ^ 32) : ssize i < 0 := by
  unfold ssize
  rw [Int.bmod_def]
  split <;> omega

theorem ssize_wrap : ssize (2 ^ 32) = 0 := by
  unfold ssize
  rw [Int.bmod_def]
  norm_num

/-- The state after a write. -/
def written (k : Kernel) (bytes : List UInt8) : Kernel := setInput k (enqueueAll k.terminal.inputBuf (bytes.drop 1))

theorem step_write (hc : k.cur.cont = .user) (bytes : List UInt8) :
    step k (.write 0 bytes) = some (written k bytes, [.wrote k.current (ssize (max 1 bytes.length + 1))]) := by
  unfold step
  simp only [hc]
  unfold doWrite
  rw [if_pos rfl]
  rfl

/-- A write that returns the number of bytes it queued has returned 0, because its count wrapped around. -/
theorem counted_length (hw : BuffersWf k) (hlen : bytes.length < 2 ^ 32)
    (h : Counted k (written k bytes) bytes (ssize (max 1 bytes.length + 1))) :
    bytes.length = 2 ^ 32 - 1 ∧ contents (written k bytes).terminal.inputBuf = contents k.terminal.inputBuf := by
  obtain ⟨appended, hsub, hcont, hret⟩ := h
  have hle := enqueueAll_length_le hw.1 (bytes.drop 1)
  have hcont' : contents (enqueueAll k.terminal.inputBuf (bytes.drop 1)) = contents k.terminal.inputBuf ++ appended := hcont
  rw [hcont', List.length_append, List.length_drop] at hle
  rcases Nat.lt_or_ge (max 1 bytes.length + 1) (2 ^ 31) with hsmall | hlarge
  · rw [ssize_lt hsmall] at hret
    omega
  · rcases Nat.lt_or_ge (max 1 bytes.length + 1) (2 ^ 32) with hmid | htop
    · have := ssize_neg hlarge hmid
      omega
    · have hmax : max 1 bytes.length + 1 = 2 ^ 32 := by omega
      rw [hmax, ssize_wrap] at hret
      have hnil : appended = [] := List.length_eq_zero_iff.mp (by omega)
      rw [hnil, List.append_nil] at hcont
      exact ⟨by omega, hcont⟩

/-- **When a write to the input queue does what it should.** -/
theorem do_write_iff (hw : BuffersWf k) (hc : k.cur.cont = .user) (hlen : bytes.length < 2 ^ 32) :
    Writes k bytes ↔ bytes.length = 2 ^ 32 - 1 ∧ full k.terminal.inputBuf = true := by
  have hfree : freePlaces k < 2 ^ 11 := by
    rw [freePlaces, BUF_SIZE]
    omega
  constructor
  · rintro ⟨t, ret, hst, h⟩
    rw [step_write hc, Option.some.injEq, Prod.mk.injEq, List.cons.injEq] at hst
    obtain ⟨rfl, hret, -⟩ := hst
    obtain ⟨-, rfl⟩ := Event.wrote.inj hret
    by_cases hroom : bytes.length ≤ freePlaces k
    · rw [if_pos hroom] at h
      have hcount := h.count
      rw [ssize_lt (by omega)] at hcount
      omega
    · rw [if_neg hroom] at h
      obtain ⟨htop, hsame⟩ := counted_length hw hlen h
      have hlength : (contents (enqueueAll k.terminal.inputBuf (bytes.drop 1))).length =
          (contents k.terminal.inputBuf).length := congrArg List.length hsame
      refine ⟨htop, full_of_same_length hw.1 ?_ hlength⟩
      rw [List.length_drop, htop]
      rfl
  · rintro ⟨htop, hf⟩
    have hroom : ¬ bytes.length ≤ freePlaces k := by omega
    have hmax : max 1 bytes.length + 1 = 2 ^ 32 := by omega
    refine ⟨written k bytes, 0, ?_, ?_⟩
    · rw [step_write hc, hmax, ssize_wrap]
    · rw [if_neg hroom]
      refine ⟨[], List.nil_sublist _, ?_, rfl⟩
      rw [List.append_nil, written, setInput_inputBuf, enqueueAll_full hf]

theorem do_write_iff_letter : ¬ Writes boot [97] := by
  intro h
  have hlen := ((do_write_iff buffersWf_boot rfl (by simp)).mp h).1
  simp at hlen

/-- A write of two bytes into the empty queue queues the second and returns 3. -/
theorem do_write_two : step boot (.write 0 [97, 98]) = some (written boot [97, 98], [.wrote 0 3]) ∧
    contents (written boot [97, 98]).terminal.inputBuf = [98] ∧ ¬ Writes boot [97, 98] := by
  have hret : ssize (max 1 ([97, 98] : List UInt8).length + 1) = 3 := ssize_lt (by simp)
  have hst : step boot (.write 0 [97, 98]) = some (written boot [97, 98], [.wrote 0 3]) := by
    rw [step_write rfl, hret]
    rfl
  refine ⟨hst, ?_, ?_⟩
  · exact (bufEnqueue_append buffersWf_boot.1 (by decide) 98).2
  · rintro ⟨t, ret, hst', h⟩
    rw [hst, Option.some.injEq, Prod.mk.injEq, List.cons.injEq] at hst'
    obtain ⟨-, hret', -⟩ := hst'
    obtain ⟨-, rfl⟩ := Event.wrote.inj hret'
    rw [if_pos (by decide)] at h
    exact absurd h.count (by decide)

end Raampjes.Sched
