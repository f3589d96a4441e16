import Raampjes.Lib.RingQueue
import Raampjes.Lib.Runs

/-!
# The ring buffers of the terminal

`tty_buffer` with its four operations, indices in 32-bit unsigned arithmetic. `contents` reads a buffer as the list of
characters from `head` to `tail`; on buffers with both indices below `BUF_SIZE` (`Wf`) every operation is described by
what it does to that list:

- `bufEnqueue_append`, `bufEnqueue_full`: append and answer 1, or refuse and answer 0;
- `bufEnqueue_overrun`: `FULL` compares `head` with `tail + 1` without wrapping, so with `head = 0` a full buffer is not
  recognised; the write makes the indices meet and all characters are lost;
- `bufDequeue_cons`, `bufRestore_snoc`: take the first, take back the last;
- `moveQueue_contents`: one queue is moved to the end of the other.

`Fifo` is the bounded queue with undo that the buffer is meant to be; `buffer_fifo_iff` says for every run from an empty
buffer when it is that queue.
-/

namespace Raampjes.Tty

open RingQueue

def BUF_SIZE : Nat := 2048

structure TtyBuffer where
  head : UInt32
  tail : UInt32
  buffer : Nat → UInt8

/-! ## The operations -/

/-- The macro `FULL`. -/
def full (buf : TtyBuffer) : Bool := buf.head == buf.tail + 1

/-- The macro `EMPTY`. -/
def empty (buf : TtyBuffer) : Bool := buf.head == buf.tail

def bufEnqueue (buf : TtyBuffer) (c : UInt8) : Int × TtyBuffer :=
  if full buf then (0, buf)
  else (1, { buf with
    buffer := Function.update buf.buffer buf.tail.toNat c
    tail := (buf.tail + 1) % UInt32.ofNat BUF_SIZE })

def bufDequeue (buf : TtyBuffer) : UInt8 × TtyBuffer :=
  if empty buf then (0, buf)
  else
    let currentHead := buf.head
    (buf.buffer currentHead.toNat, { buf with head := (currentHead + 1) % UInt32.ofNat BUF_SIZE })

def bufRestore (buf : TtyBuffer) : UInt8 × TtyBuffer :=
  if empty buf then (0, buf)
  else
    let tail := (buf.tail - 1) % UInt32.ofNat BUF_SIZE
    (buf.buffer tail.toNat, { buf with tail := tail })

def bufQueueLength (buf : TtyBuffer) : Nat :=
  ((buf.tail - buf.head + UInt32.ofNat BUF_SIZE) % UInt32.ofNat BUF_SIZE).toNat

/-- The loop of `move_queue`, `nr` rounds to go. -/
def moveLoop : Nat → TtyBuffer → TtyBuffer → TtyBuffer × TtyBuffer
  | 0, src, dst => (src, dst)
  | nr + 1, src, dst =>
    let (c, src') := bufDequeue src
    moveLoop nr src' (bufEnqueue dst c).2

def moveQueue (src dst : TtyBuffer) : TtyBuffer × TtyBuffer := moveLoop (bufQueueLength src) src dst

/-! ## A buffer as a list -/

/-- The characters from `head` to `tail`. -/
def contents (buf : TtyBuffer) : List UInt8 :=
  RingQueue.contents BUF_SIZE buf.buffer buf.head.toNat buf.tail.toNat

/-- Both indices point into the buffer. -/
structure Wf (buf : TtyBuffer) : Prop where
  head_lt : buf.head.toNat < BUF_SIZE
  tail_lt : buf.tail.toNat < BUF_SIZE

variable {buf : TtyBuffer}

theorem toNat_mod_size (i : UInt32) : (i % UInt32.ofNat BUF_SIZE).toNat = i.toNat % BUF_SIZE := by
  simp [UInt32.toNat_mod, BUF_SIZE]

theorem toNat_mod_size_lt (i : UInt32) : (i % UInt32.ofNat BUF_SIZE).toNat < BUF_SIZE := by
  rw [toNat_mod_size]
  exact Nat.mod_lt _ (by decide)

theorem toNat_next (i : UInt32) :
    ((i + 1) % UInt32.ofNat BUF_SIZE).toNat = (i.toNat + 1) % BUF_SIZE := by
  rw [toNat_mod_size, UInt32.toNat_add]
  simp only [BUF_SIZE, UInt32.reduceToNat] at *
  omega

theorem toNat_prev (i : UInt32) :
    ((i - 1) % UInt32.ofNat BUF_SIZE).toNat = (i.toNat + BUF_SIZE - 1) % BUF_SIZE := by
  rw [toNat_mod_size, UInt32.toNat_sub]
  simp only [BUF_SIZE, UInt32.reduceToNat] at *
  omega

theorem length_contents (buf : TtyBuffer) :
    (contents buf).length = count BUF_SIZE buf.head.toNat buf.tail.toNat :=
  RingQueue.length_contents

theorem length_lt (h : Wf buf) : (contents buf).length < BUF_SIZE := by
  rw [length_contents]
  exact count_lt h.head_lt h.tail_lt

/-- `buf_queue_length` is the length of the list. -/
theorem bufQueueLength_eq (h : Wf buf) : bufQueueLength buf = (contents buf).length := by
  obtain ⟨hh, ht⟩ := h
  rw [length_contents, count_eq hh ht, bufQueueLength, toNat_mod_size, UInt32.toNat_add, UInt32.toNat_sub]
  simp only [BUF_SIZE, UInt32.toNat_ofNat', Nat.reducePow, Nat.reduceMod] at *
  split <;> omega

theorem empty_iff (h : Wf buf) : empty buf = true ↔ contents buf = [] := by
  rw [contents, contents_eq_nil h.head_lt h.tail_lt, UInt32.toNat_inj]
  simp [empty]

/-- `FULL` compares with `tail + 1`, which never wraps below `BUF_SIZE`. -/
theorem full_eq (h : Wf buf) : full buf = true ↔ buf.head.toNat = buf.tail.toNat + 1 := by
  have ht := h.tail_lt
  rw [full, beq_iff_eq, ← UInt32.toNat_inj, UInt32.toNat_add]
  simp only [BUF_SIZE, UInt32.reduceToNat] at *
  omega

/-- `FULL` holds only of full buffers. -/
theorem length_of_full (h : Wf buf) (hf : full buf = true) : (contents buf).length = BUF_SIZE - 1 := by
  rw [length_contents, ← full_iff h.head_lt h.tail_lt, ← (full_eq h).mp hf]
  exact Nat.mod_eq_of_lt h.head_lt

/-- `FULL` misses a full buffer exactly when its head is at 0. -/
theorem full_of_length (h : Wf buf) (hl : (contents buf).length = BUF_SIZE - 1) :
    full buf = true ↔ buf.head ≠ 0 := by
  rw [length_contents, ← full_iff h.head_lt h.tail_lt, succ_mod h.tail_lt] at hl
  rw [full_eq h, ne_eq, ← UInt32.toNat_inj, UInt32.toNat_zero]
  split at hl <;> omega

/-! ## What each operation does to the list -/

theorem bufEnqueue_wf (h : Wf buf) (c : UInt8) : Wf (bufEnqueue buf c).2 := by
  unfold bufEnqueue
  split
  · exact h
  · exact ⟨h.head_lt, toNat_mod_size_lt _⟩

theorem bufDequeue_wf (h : Wf buf) : Wf (bufDequeue buf).2 := by
  unfold bufDequeue
  split
  · exact h
  · exact ⟨toNat_mod_size_lt _, h.tail_lt⟩

theorem bufRestore_wf (h : Wf buf) : Wf (bufRestore buf).2 := by
  unfold bufRestore
  split
  · exact h
  · exact ⟨h.head_lt, toNat_mod_size_lt _⟩

/-- Below capacity a character is appended. -/
theorem bufEnqueue_append (h : Wf buf) (hl : (contents buf).length < BUF_SIZE - 1) (c : UInt8) :
    (bufEnqueue buf c).1 = 1 ∧ contents (bufEnqueue buf c).2 = contents buf ++ [c] := by
  have hf : full buf = false := by
    by_contra hf
    have := length_of_full h (by simpa using hf)
    omega
  have hc : count BUF_SIZE buf.head.toNat buf.tail.toNat + 1 < BUF_SIZE := by
    rw [← length_contents]
    omega
  simp only [bufEnqueue, hf, Bool.false_eq_true, ↓reduceIte, contents, toNat_next, true_and]
  exact contents_push h.head_lt h.tail_lt hc c

/-- A recognised full buffer is left alone. -/
theorem bufEnqueue_full (hf : full buf = true) (c : UInt8) : bufEnqueue buf c = (0, buf) := by
  simp [bufEnqueue, hf]

/-- **The unrecognised full buffer.** With the head at 0 the character is accepted and the whole queue is lost. -/
theorem bufEnqueue_overrun (h : Wf buf) (hl : (contents buf).length = BUF_SIZE - 1) (h0 : buf.head = 0) (c : UInt8) :
    (bufEnqueue buf c).1 = 1 ∧ contents (bufEnqueue buf c).2 = [] := by
  have hf : full buf = false := by
    by_contra hf
    exact (full_of_length h hl).mp (by simpa using hf) h0
  have ht : (buf.tail.toNat + 1) % BUF_SIZE = buf.head.toNat := by
    rw [full_iff h.head_lt h.tail_lt, ← length_contents, hl]
  simp only [bufEnqueue, hf, Bool.false_eq_true, ↓reduceIte, contents, toNat_next, true_and]
  exact contents_overrun h.head_lt ht c

theorem not_empty (h : Wf buf) (hq : contents buf ≠ []) : empty buf = false := by
  by_contra he
  exact hq ((empty_iff h).mp (by simpa using he))

theorem head_ne_tail (h : Wf buf) (hq : contents buf ≠ []) : buf.head.toNat ≠ buf.tail.toNat :=
  fun he => hq ((contents_eq_nil h.head_lt h.tail_lt).mpr he)

/-- A buffer with characters hands out the first. -/
theorem bufDequeue_cons (h : Wf buf) {c : UInt8} {q : List UInt8} (hq : contents buf = c :: q) :
    (bufDequeue buf).1 = c ∧ contents (bufDequeue buf).2 = q := by
  have he := not_empty h (by simp [hq])
  have hne := head_ne_tail h (by simp [hq])
  rw [contents, contents_pop h.head_lt h.tail_lt hne, List.cons.injEq] at hq
  simp only [bufDequeue, he, Bool.false_eq_true, ↓reduceIte, contents, toNat_next]
  exact hq

theorem bufDequeue_nil (h : Wf buf) (hq : contents buf = []) : bufDequeue buf = (0, buf) := by
  simp [bufDequeue, (empty_iff h).mpr hq]

/-- A buffer with characters gives back the last. -/
theorem bufRestore_snoc (h : Wf buf) {c : UInt8} {q : List UInt8} (hq : contents buf = q ++ [c]) :
    (bufRestore buf).1 = c ∧ contents (bufRestore buf).2 = q := by
  have he := not_empty h (by simp [hq])
  have hne := head_ne_tail h (by simp [hq])
  rw [contents, contents_unpush h.head_lt h.tail_lt hne] at hq
  obtain ⟨h1, h2⟩ := List.append_inj' hq rfl
  rw [List.cons.injEq] at h2
  simp only [bufRestore, he, Bool.false_eq_true, ↓reduceIte, contents, toNat_prev]
  exact ⟨h2.1, h1⟩

theorem bufRestore_nil (h : Wf buf) (hq : contents buf = []) : bufRestore buf = (0, buf) := by
  simp [bufRestore, (empty_iff h).mpr hq]

/-- In any case `buf_restore` drops the last character. -/
theorem contents_bufRestore (h : Wf buf) : contents (bufRestore buf).2 = (contents buf).dropLast := by
  rcases List.eq_nil_or_concat (contents buf) with hq | ⟨q, c, hq⟩
  · rw [bufRestore_nil h hq, hq]
    rfl
  · rw [List.concat_eq_append] at hq
    rw [(bufRestore_snoc h hq).2, hq, List.dropLast_concat]

/-- The loop of `move_queue` moves the first `nr` characters, if there is room for all of them. -/
theorem moveLoop_contents (nr : Nat) {src dst : TtyBuffer} (hs : Wf src) (hd : Wf dst)
    (hn : nr ≤ (contents src).length) (hroom : (contents dst).length + nr < BUF_SIZE) :
    Wf (moveLoop nr src dst).1 ∧ Wf (moveLoop nr src dst).2 ∧
      contents (moveLoop nr src dst).1 = (contents src).drop nr ∧
      contents (moveLoop nr src dst).2 = contents dst ++ (contents src).take nr := by
  induction nr generalizing src dst with
  | zero => simpa [moveLoop] using ⟨hs, hd⟩
  | succ nr ih =>
    obtain ⟨c, q, hq⟩ : ∃ c q, contents src = c :: q := by
      cases hq : contents src with
      | nil => simp [hq] at hn
      | cons c q => exact ⟨c, q, rfl⟩
    obtain ⟨hc, hsrc⟩ := bufDequeue_cons hs hq
    have happ := (bufEnqueue_append hd (by simp only [BUF_SIZE] at *; omega) (bufDequeue src).1).2
    have := ih (bufDequeue_wf hs) (bufEnqueue_wf hd (bufDequeue src).1)
      (by rw [hsrc]; simp [hq] at hn; omega) (by rw [happ]; simp; omega)
    rw [hsrc, happ, hc] at this
    simpa [moveLoop, hq, hc] using this

/-- **`move_queue`** empties the source into the destination, if there is room. -/
theorem moveQueue_contents {src dst : TtyBuffer} (hs : Wf src) (hd : Wf dst)
    (hroom : (contents dst).length + (contents src).length < BUF_SIZE) :
    Wf (moveQueue src dst).1 ∧ Wf (moveQueue src dst).2 ∧ contents (moveQueue src dst).1 = [] ∧
      contents (moveQueue src dst).2 = contents dst ++ contents src := by
  unfold moveQueue
  rw [bufQueueLength_eq hs]
  simpa using moveLoop_contents (contents src).length hs hd le_rfl hroom

/-- The indices stay in range whatever is moved. -/
theorem moveLoop_wf (nr : Nat) {src dst : TtyBuffer} (hs : Wf src) (hd : Wf dst) :
    Wf (moveLoop nr src dst).1 ∧ Wf (moveLoop nr src dst).2 := by
  induction nr generalizing src dst with
  | zero => exact ⟨hs, hd⟩
  | succ nr ih => exact ih (bufDequeue_wf hs) (bufEnqueue_wf hd _)

theorem moveQueue_wf {src dst : TtyBuffer} (hs : Wf src) (hd : Wf dst) :
    Wf (moveQueue src dst).1 ∧ Wf (moveQueue src dst).2 := moveLoop_wf _ hs hd

/-! ## Runs of the buffer -/

inductive BufOp
  | enqueue (c : UInt8)
  | dequeue
  | restore

/-- What a call returns. -/
inductive Reply
  | int (n : Int)
  | char (c : UInt8)

def bufStep (buf : TtyBuffer) : BufOp → Option (TtyBuffer × List Reply)
  | .enqueue c => some ((bufEnqueue buf c).2, [.int (bufEnqueue buf c).1])
  | .dequeue => some ((bufDequeue buf).2, [.char (bufDequeue buf).1])
  | .restore => some ((bufRestore buf).2, [.char (bufRestore buf).1])

/-- The bounded queue with undo: `BUF_SIZE - 1` characters at most. -/
inductive Fifo : List UInt8 → BufOp → Reply → List UInt8 → Prop
  | accept {q : List UInt8} {c : UInt8} : q.length < BUF_SIZE - 1 → Fifo q (.enqueue c) (.int 1) (q ++ [c])
  | refuse {q : List UInt8} {c : UInt8} : q.length = BUF_SIZE - 1 → Fifo q (.enqueue c) (.int 0) q
  | dequeue {q : List UInt8} {c : UInt8} : Fifo (c :: q) .dequeue (.char c) q
  | dequeueEmpty : Fifo [] .dequeue (.char 0) []
  | restore {q : List UInt8} {c : UInt8} : Fifo (q ++ [c]) .restore (.char c) q
  | restoreEmpty : Fifo [] .restore (.char 0) []

/-- What an enqueue can do to the queue. -/
theorem Fifo.enqueue_inv {q q' : List UInt8} {c : UInt8} {r : Reply} (h : Fifo q (.enqueue c) r q') :
    r = .int 1 ∧ q' = q ++ [c] ∨ r = .int 0 ∧ q' = q := by
  cases h with
  | accept _ => exact Or.inl ⟨rfl, rfl⟩
  | refuse _ => exact Or.inr ⟨rfl, rfl⟩

/-- A step of the buffer is a step of the queue. -/
def StepsAsFifo (x : Runs.Step TtyBuffer BufOp Reply) : Prop :=
  ∃ r, x.events = [r] ∧ Fifo (contents x.before) x.act r (contents x.after)

/-- The call that `FULL` lets through: an enqueue with the head at 0 and `BUF_SIZE - 1` characters queued. -/
def Overruns (x : Runs.Step TtyBuffer BufOp Reply) : Prop :=
  (∃ c, x.act = .enqueue c) ∧ x.before.head = 0 ∧ (contents x.before).length = BUF_SIZE - 1

/-- An empty buffer with its indices at `r`. -/
def emptyAt (r : UInt32) (cells : Nat → UInt8) : TtyBuffer := ⟨r, r, cells⟩

theorem emptyAt_wf {r : UInt32} (hr : r.toNat < BUF_SIZE) (cells : Nat → UInt8) : Wf (emptyAt r cells) := ⟨hr, hr⟩

theorem bufStep_wf {s t : TtyBuffer} {op : BufOp} {es : List Reply} (h : Wf s) (hst : bufStep s op = some (t, es)) :
    Wf t := by
  cases op <;> simp only [bufStep, Option.some.injEq, Prod.mk.injEq] at hst <;> obtain ⟨rfl, _⟩ := hst
  · exact bufEnqueue_wf h _
  · exact bufDequeue_wf h
  · exact bufRestore_wf h

/-- One call on a well-formed buffer is a step of the queue exactly when it does not overrun. -/
theorem bufStep_fifo_iff {s t : TtyBuffer} {op : BufOp} {es : List Reply} (h : Wf s)
    (hst : bufStep s op = some (t, es)) : StepsAsFifo ⟨s, op, es, t⟩ ↔ ¬Overruns ⟨s, op, es, t⟩ := by
  cases op with
  | enqueue c =>
    simp only [bufStep, Option.some.injEq, Prod.mk.injEq] at hst
    obtain ⟨rfl, rfl⟩ := hst
    rcases Nat.lt_or_ge (contents s).length (BUF_SIZE - 1) with hl | hl
    · obtain ⟨h1, h2⟩ := bufEnqueue_append h hl c
      refine iff_of_true ⟨_, rfl, ?_⟩ fun ho => absurd ho.2.2 (by simp; omega)
      simpa [h1, h2] using Fifo.accept hl
    · have hl : (contents s).length = BUF_SIZE - 1 := by have := length_lt h; omega
      by_cases h0 : s.head = 0
      · -- the queue would have answered 0, or 1 with a longer list
        obtain ⟨h1, h2⟩ := bufEnqueue_overrun h hl h0 c
        refine iff_of_false ?_ fun hn => hn ⟨⟨c, rfl⟩, h0, hl⟩
        rintro ⟨r, hr, hF⟩
        simp only [List.cons.injEq, and_true] at hr
        subst hr
        rcases hF.enqueue_inv with ⟨_, hq⟩ | ⟨hr, _⟩
        · simp [h2] at hq
        · simp [h1] at hr
      · have hf := (full_of_length h hl).mpr h0
        refine iff_of_true ⟨_, rfl, ?_⟩ fun ho => h0 ho.2.1
        simpa [bufEnqueue_full hf] using Fifo.refuse hl
  | dequeue =>
    simp only [bufStep, Option.some.injEq, Prod.mk.injEq] at hst
    obtain ⟨rfl, rfl⟩ := hst
    refine iff_of_true ⟨_, rfl, ?_⟩ (by simp [Overruns])
    cases hq : contents s with
    | nil => simpa [bufDequeue_nil h hq, hq] using Fifo.dequeueEmpty
    | cons c q =>
      obtain ⟨h1, h2⟩ := bufDequeue_cons h hq
      simpa [h1, h2, hq] using Fifo.dequeue
  | restore =>
    simp only [bufStep, Option.some.injEq, Prod.mk.injEq] at hst
    obtain ⟨rfl, rfl⟩ := hst
    refine iff_of_true ⟨_, rfl, ?_⟩ (by simp [Overruns])
    rcases List.eq_nil_or_concat (contents s) with hq | ⟨q, c, hq⟩
    · simpa [bufRestore_nil h hq, hq] using Fifo.restoreEmpty
    · rw [List.concat_eq_append] at hq
      obtain ⟨h1, h2⟩ := bufRestore_snoc h hq
      simpa [h1, h2, hq] using Fifo.restore

/-- **The terminal buffer is a bounded queue with undo as long as no enqueue meets a full buffer with its head at 0**,
and then no longer; in every case the indices stay in range and `buf_queue_length` is the length of the list. -/
theorem buffer_fifo_iff {r : UInt32} (hr : r.toNat < BUF_SIZE) (cells : Nat → UInt8)
    {xs : List (Runs.Step TtyBuffer BufOp Reply)} {buf : TtyBuffer}
    (hrun : Runs.Run bufStep (emptyAt r cells) xs buf) :
    ((∀ x ∈ xs, StepsAsFifo x) ↔ ∀ x ∈ xs, ¬Overruns x) ∧
      buf.head.toNat < BUF_SIZE ∧ buf.tail.toNat < BUF_SIZE ∧ bufQueueLength buf = (contents buf).length := by
  have hkeep : ∀ s a t es, Wf s → True → bufStep s a = some (t, es) → Wf t :=
    fun s a t es h _ hst => bufStep_wf h hst
  have hsteps := hrun.inv_steps Wf (emptyAt_wf hr cells) hkeep (by simp)
  have hwf : Wf buf := hrun.inv Wf (emptyAt_wf hr cells) hkeep (by simp)
  refine ⟨forall₂_congr fun x hx => ?_, hwf.head_lt, hwf.tail_lt, bufQueueLength_eq hwf⟩
  obtain ⟨hb, hst⟩ := hsteps x hx
  exact bufStep_fifo_iff hb hst

/-- The indices may start at the last cell. -/
theorem buffer_fifo_iff_rotated : ∃ xs buf, Runs.Run bufStep (emptyAt 2047 fun _ => 0) xs buf ∧
    Runs.acts xs = [.enqueue 65, .restore] ∧ ((∀ x ∈ xs, StepsAsFifo x) ↔ ∀ x ∈ xs, ¬Overruns x) ∧
      buf.head.toNat < BUF_SIZE ∧ buf.tail.toNat < BUF_SIZE ∧ bufQueueLength buf = (contents buf).length :=
  have h0 : Runs.Run bufStep (emptyAt 2047 fun _ => 0) [] (emptyAt 2047 fun _ => 0) := .refl
  have hrun := (h0.snoc (a := .enqueue 65) rfl).snoc (a := .restore) rfl
  ⟨_, _, hrun, rfl, buffer_fifo_iff (by decide) _ hrun⟩

/-- From a fresh buffer with its head at 0, up to `BUF_SIZE - 1` characters are queued one after the other. -/
theorem run_fill (cells : Nat → UInt8) (c : UInt8) :
    ∀ k, k < BUF_SIZE → ∃ xs buf, Runs.Run bufStep (emptyAt 0 cells) xs buf ∧
      Runs.acts xs = List.replicate k (.enqueue c) ∧ Wf buf ∧ buf.head = 0 ∧ contents buf = List.replicate k c
  | 0, _ => ⟨[], _, .refl, rfl, ⟨Nat.zero_lt_succ _, Nat.zero_lt_succ _⟩, rfl, contents_self (Nat.zero_lt_succ _)⟩
  | k + 1, hk => by
    obtain ⟨xs, buf, hrun, ha, hwf, h0, hc⟩ := run_fill cells c k (by omega)
    have hlt : (contents buf).length < BUF_SIZE - 1 := by simp [hc]; omega
    refine ⟨_, _, hrun.snoc (a := .enqueue c) rfl, ?_, bufEnqueue_wf hwf c, ?_, ?_⟩
    · rw [Runs.acts_snoc, ha, List.replicate_succ']
    · unfold bufEnqueue
      split <;> exact h0
    · rw [(bufEnqueue_append hwf hlt c).2, hc, List.replicate_succ']

/-- `BUF_SIZE` enqueues into a fresh buffer: the last one is accepted and empties the queue. -/
theorem buffer_not_fifo : ∃ xs buf, Runs.Run bufStep (emptyAt 0 fun _ => 0) xs buf ∧
    Runs.acts xs = List.replicate BUF_SIZE (.enqueue 65) ∧ ¬∀ x ∈ xs, StepsAsFifo x := by
  obtain ⟨xs, buf, hrun, ha, hwf, h0, hc⟩ := run_fill (fun _ => 0) 65 (BUF_SIZE - 1) (by decide)
  refine ⟨_, _, hrun.snoc (a := .enqueue 65) rfl, ?_, fun h => ?_⟩
  · rw [Runs.acts_snoc, ha, ← List.replicate_succ']
    rfl
  · have hlast := h _ (List.mem_append_right _ (List.mem_singleton_self _))
    rw [bufStep_fifo_iff hwf rfl] at hlast
    exact hlast ⟨⟨65, rfl⟩, h0, by rw [hc, List.length_replicate]⟩

end Raampjes.Tty
