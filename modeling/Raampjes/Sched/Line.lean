import Raampjes.Sched.Wakeup

/-!
# The line discipline

What is typed is edited in `line_buf` and committed to `input_buf` line by line; readers take it from there in pieces of
any size. `Typed` is the editor that this implements: it knows of keys and lines only, not of buffers or readers.
`line_discipline` says that in every run in which there is room for what is typed, the bytes read so far and the
contents of `input_buf` are the committed lines, and `line_buf` is the text being edited.
-/

namespace Raampjes.Sched

open Runs Tty

variable {k : Kernel} {xs : List (Step Kernel Act Event)}

/-! ## The editor -/

/-- The lines committed so far, each with its newline, and the text of the line being edited. -/
structure Typed where
  lines : List (List UInt8)
  pending : List UInt8

def Typed.key (s : Typed) (c : UInt8) : Typed :=
  if c = backspace then { s with pending := s.pending.dropLast }
  else if c = newline then ⟨s.lines ++ [s.pending ++ [newline]], []⟩
  else { s with pending := s.pending ++ [c] }

/-- The editor after these keys. -/
def typed (keys : List UInt8) : Typed := keys.foldl Typed.key ⟨[], []⟩

/-- The keys among the actions of a run. -/
def keysOf (as : List Act) : List UInt8 := as.filterMap fun
  | .key c => some c
  | _ => none

/-- What an action of the kernel means to the editor. -/
def Typed.act (s : Typed) : Act → Typed
  | .key c => s.key c
  | _ => s

theorem Typed.act_eq {a : Act} (h : ∀ c, a ≠ .key c) (s : Typed) : s.act a = s := by
  cases a <;> first | rfl | exact absurd rfl (h _)

theorem typed_keysOf_snoc (as : List Act) (a : Act) :
    typed (keysOf (as ++ [a])) = (typed (keysOf as)).act a := by
  cases a <;> simp [keysOf, typed, Typed.act]

/-! ## What is read -/

/-- The bytes that an event hands to a reader. -/
def Event.bytes : Event → List UInt8
  | .got _ bytes _ => bytes
  | _ => []

/-- The bytes read, in order. -/
def delivered (es : List Event) : List UInt8 := es.flatMap Event.bytes

@[simp] theorem delivered_append (es es' : List Event) : delivered (es ++ es') = delivered es ++ delivered es' :=
  List.flatMap_append ..

theorem delivered_got (task : TaskId) (bytes : List UInt8) (ret : Int) :
    delivered [.got task bytes ret] = bytes := List.append_nil _

theorem delivered_eq_nil {es : List Event} (h : ∀ e ∈ es, e.bytes = []) : delivered es = [] :=
  List.flatMap_eq_nil_iff.mpr h

/-- The loop of `do_read` takes the first `n` characters. -/
theorem dequeueMany_contents (n : Nat) {buf : TtyBuffer} (h : Wf buf) (hn : n ≤ (contents buf).length) :
    (dequeueMany n buf).1 = (contents buf).take n ∧ contents (dequeueMany n buf).2 = (contents buf).drop n := by
  induction n generalizing buf with
  | zero => simp [dequeueMany]
  | succ n ih =>
    obtain ⟨c, q, hq⟩ : ∃ c q, contents buf = c :: q := by
      cases hq : contents buf with
      | nil => simp [hq] at hn
      | cons c q => exact ⟨c, q, rfl⟩
    obtain ⟨hc, hbuf⟩ := bufDequeue_cons h hq
    rw [hq, List.length_cons] at hn
    obtain ⟨h1, h2⟩ := ih (bufDequeue_wf h) (by rw [hbuf]; omega)
    rw [hbuf] at h1 h2
    simp only [dequeueMany, hq, hc, h1, List.take_succ_cons, List.drop_succ_cons, true_and]
    exact h2

/-- **What a read takes**: the front of `input_buf`, at most as much as was asked for. -/
theorem taken_contents (h : Wf k.terminal.inputBuf) (nbytes : Nat) :
    (taken k nbytes).1 ++ contents (taken k nbytes).2 = contents k.terminal.inputBuf ∧
      (taken k nbytes).1.length ≤ nbytes := by
  have htaken : taken k nbytes =
      dequeueMany (min nbytes (contents k.terminal.inputBuf).length) k.terminal.inputBuf := by
    simp only [taken, bufQueueLength_eq h]
    congr 1
    split <;> omega
  obtain ⟨h1, h2⟩ := dequeueMany_contents (min nbytes (contents k.terminal.inputBuf).length) h (by omega)
  rw [htaken, h1, h2, List.take_append_drop, List.length_take]
  exact ⟨rfl, by omega⟩

theorem Reports.delivered {a : Act} {es : List Event} (h : Reports k a es) : Sched.delivered es = [] := by
  cases h with
  | read _ => simp [Sched.delivered, kprintf, Event.bytes, List.flatMap_map]
  | write _ => simp [Sched.delivered, Event.bytes, List.flatMap_map]

theorem mem_echo {accepted : Bool} {c : UInt8} {e : Event} : e ∈ echo accepted c ↔ accepted = true ∧ e = .put c := by
  cases accepted <;> simp [echo]

theorem keyEvents_delivered (c : UInt8) : delivered (keyEvents k c) = [] := by
  refine delivered_eq_nil fun e he => ?_
  rw [(mem_echo.mp he).2]
  rfl

theorem Sleeps.delivered {a : Act} {c : Cont} {es : List Event} (h : Sleeps k a c es) : Sched.delivered es = [] := by
  refine delivered_eq_nil fun e he => ?_
  obtain ⟨i, _, rfl⟩ := h.events e he
  rfl

theorem scanEvents_delivered : delivered (scanEvents k) = [] := by
  refine delivered_eq_nil fun e he => ?_
  obtain ⟨i, _, rfl | ⟨_, _, rfl⟩⟩ := mem_scanEvents.mp he <;> rfl

/-! ## What is typed -/

/-- There is room for the key: neither buffer will hold `BUF_SIZE - 1` characters at any moment. -/
def RoomFor (k : Kernel) (c : UInt8) : Prop :=
  c ≠ backspace → (contents k.terminal.lineBuf).length + 1 < BUF_SIZE - 1 ∧
    (c = newline → (contents k.terminal.inputBuf).length + (contents k.terminal.lineBuf).length + 1 < BUF_SIZE - 1)

/-- The step is not a write to `input_buf`, and there is room for what it types. -/
def Types (k : Kernel) (a : Act) : Prop := (∀ bytes, a ≠ .write 0 bytes) ∧ ∀ c, a = .key c → RoomFor k c

/-- The buffers hold what the editor says, when `read` has been read. -/
def Holds (k : Kernel) (s : Typed) (read : List UInt8) : Prop :=
  read ++ contents k.terminal.inputBuf = s.lines.flatten ∧ contents k.terminal.lineBuf = s.pending

/-- **`tty_input`** is a key of the editor. -/
theorem keyed_holds {c : UInt8} {s : Typed} {read : List UInt8} (hw : BuffersWf k) (hr : RoomFor k c)
    (h : Holds k s read) : Holds (keyed k c) (s.key c) read := by
  obtain ⟨hin, hline⟩ := h
  unfold keyed Typed.key
  split
  · refine ⟨hin, ?_⟩
    rw [setLine_lineBuf, contents_bufRestore hw.2, hline]
  · rename_i hb
    obtain ⟨hroom, hcommit⟩ := hr hb
    have happ := (bufEnqueue_append hw.2 (by omega) c).2
    split
    · rename_i hn
      obtain ⟨_, _, hsrc, hdst⟩ := moveQueue_contents (bufEnqueue_wf hw.2 c) hw.1
        (by rw [happ, List.length_append, List.length_singleton]; have := hcommit hn; omega)
      refine ⟨?_, ?_⟩
      · rw [awakeBelow_terminal, setInput_inputBuf, hdst, happ, ← List.append_assoc, hin, hline, hn]
        simp
      · rw [awakeBelow_terminal, setInput_lineBuf, setLine_lineBuf, hsrc]
    · refine ⟨hin, ?_⟩
      rw [setLine_lineBuf, happ, hline]

/-- Sleeping, reading and reporting are no keys. -/
theorem Sleeps.not_key {a : Act} {c : Cont} {es : List Event} (h : Sleeps k a c es) : ∀ c, a ≠ .key c := by
  cases h with
  | pause _ => simp
  | read hr _ => rcases hr with ⟨_, rfl⟩ | ⟨_, rfl⟩ <;> simp
  | wait hr _ => rcases hr with ⟨_, rfl⟩ | ⟨_, rfl⟩ <;> simp

theorem Scans.not_key {a : Act} {statLoc : Bool} (h : Scans k a statLoc) : ∀ c, a ≠ .key c := by
  rcases h with ⟨_, rfl⟩ | ⟨_, rfl⟩ <;> simp

theorem Reads.not_key {a : Act} {nbytes : Nat} (h : Reads k a nbytes) : ∀ c, a ≠ .key c := by
  rcases h with ⟨_, rfl⟩ | ⟨_, rfl⟩ <;> simp

theorem Reports.not_key {a : Act} {es : List Event} (h : Reports k a es) : ∀ c, a ≠ .key c := by
  cases h <;> simp

/-- **One step** keeps the agreement of buffers and editor. -/
theorem holds_step {t : Kernel} {a : Act} {es : List Event} {s : Typed} {read : List UInt8} (hw : BuffersWf k)
    (h : Outcome k a t es) (ha : Types k a) (hs : Holds k s read) : Holds t (s.act a) (read ++ delivered es) := by
  have hsame : (∀ c, a ≠ .key c) → t.terminal = k.terminal → delivered es = [] →
      Holds t (s.act a) (read ++ delivered es) := by
    intro hkey ht hes
    rw [hes, List.append_nil, Typed.act_eq hkey, Holds, ht]
    exact hs
  cases h with
  | fork _ _ _ _ _ => exact hsame (by simp) rfl rfl
  | sleep hsl _ => exact hsame hsl.not_key rfl (by rw [delivered_append, hsl.delivered]; rfl)
  | tick _ _ => exact hsame (by simp) rfl rfl
  | exit _ _ _ _ => exact hsame (by simp) (exitWoken_terminal _ _) rfl
  | reap hr _ => exact hsame hr.not_key rfl (by rw [delivered_append, scanEvents_delivered]; rfl)
  | got hr _ =>
    rename_i nbytes _
    have htaken := (taken_contents hw.1 nbytes).1
    rw [delivered_got, Typed.act_eq hr.not_key, Holds, setInput_inputBuf, setInput_lineBuf, List.append_assoc, htaken]
    exact hs
  | writeInput _ => exact absurd rfl (ha.1 _)
  | report _ hr => exact hsame hr.not_key rfl hr.delivered
  | key _ =>
    rw [keyEvents_delivered, List.append_nil]
    exact keyed_holds hw (ha.2 _ rfl) hs

/-- A read from the terminal returns as many bytes as it says, and not more than were asked for. -/
theorem Outcome.got_length {t : Kernel} {a : Act} {es : List Event} (hw : BuffersWf k) (h : Outcome k a t es)
    {nbytes : Nat} (hr : Reads k a nbytes) {task : TaskId} {bytes : List UInt8} {ret : Int}
    (he : .got task bytes ret ∈ es) : ret = bytes.length ∧ bytes.length ≤ nbytes := by
  cases h with
  | fork _ _ _ _ _ => cases List.mem_singleton.mp he
  | sleep hs _ =>
    rcases List.mem_append.mp he with he | he
    · obtain ⟨i, _, hi⟩ := hs.events _ he
      cases hi
    · cases List.mem_singleton.mp he
  | tick _ _ => cases List.mem_singleton.mp he
  | exit _ _ _ _ => simp at he
  | reap hs _ => exact absurd hs (hr.not_scans _)
  | got hr' _ =>
    rename_i nbytes' _
    cases List.mem_singleton.mp he
    have hn : nbytes' = nbytes := by
      rcases hr with ⟨h1, rfl⟩ | ⟨h1, rfl⟩ <;> rcases hr' with ⟨h2, h3⟩ | ⟨h2, h3⟩
      · cases h3
        rfl
      · cases h3
      · cases h3
      · rw [h1] at h2
        cases h2
        rfl
    exact ⟨rfl, hn ▸ (taken_contents hw.1 nbytes').2⟩
  | writeInput _ => cases List.mem_singleton.mp he
  | report _ hrep =>
    rcases hr with ⟨_, rfl⟩ | ⟨_, rfl⟩ <;> cases hrep
    exact absurd rfl ‹_›
  | key _ => exact absurd rfl (hr.not_key _)

/-! ## Runs -/

/-- What the line discipline guarantees after the run `xs` to `k`. -/
structure Disciplined (xs : List (Step Kernel Act Event)) (k : Kernel) : Prop where
  /-- What was read and what is queued are the committed lines. -/
  committed : delivered (events xs) ++ contents k.terminal.inputBuf = (typed (keysOf (acts xs))).lines.flatten
  /-- `line_buf` is the text being edited. -/
  pending : contents k.terminal.lineBuf = (typed (keysOf (acts xs))).pending
  read_le : ∀ x ∈ xs, ∀ nbytes, Reads x.before x.act nbytes → ∀ task bytes ret, .got task bytes ret ∈ x.events →
    ret = bytes.length ∧ bytes.length ≤ nbytes
  /-- A backspace leaves committed text alone. -/
  backspace : ∀ x ∈ xs, x.act = .key backspace → delivered x.events = [] ∧
    contents x.after.terminal.inputBuf = contents x.before.terminal.inputBuf

theorem holds_run (h : Run step boot xs k) (ht : ∀ x ∈ xs, Types x.before x.act) :
    Holds k (typed (keysOf (acts xs))) (delivered (events xs)) := by
  suffices hP : Inv k ∧ BuffersWf k ∧ Holds k (typed (keysOf (acts xs))) (delivered (events xs)) from hP.2.2
  refine h.induct (C := Types)
    (fun xs k => Inv k ∧ BuffersWf k ∧ Holds k (typed (keysOf (acts xs))) (delivered (events xs)))
    ⟨inv_boot, buffersWf_boot, rfl, rfl⟩ ?_ ht
  intro xs s a t es ⟨hs, hw, hh⟩ ha hst
  have ho := step_outcome hs hst
  rw [acts_snoc, events_snoc, typed_keysOf_snoc, delivered_append]
  exact ⟨inv_step hs hst, buffersWf_step ho hw, holds_step hw ho ha hh⟩

/-- Every step of a run starts with well-formed buffers. -/
theorem buffersWf_run (h : Run step boot xs k) : ∀ x ∈ xs, BuffersWf x.before := by
  intro x hx
  refine (h.inv_steps (C := fun _ _ => True) (fun k => Inv k ∧ BuffersWf k) ⟨inv_boot, buffersWf_boot⟩ ?_
    (by simp) x hx).1.2
  intro s a t es ⟨hs, hw⟩ _ hst
  exact ⟨inv_step hs hst, buffersWf_step (step_outcome hs hst) hw⟩

/-- **The line discipline.** As long as there is room for what is typed, and nobody writes to `input_buf`, readers get
the committed lines in order, and what is not committed is still being edited. -/
theorem line_discipline (h : Run step boot xs k) (ht : ∀ x ∈ xs, Types x.before x.act) : Disciplined xs k := by
  obtain ⟨hin, hline⟩ := holds_run h ht
  refine ⟨hin, hline, fun x hx nbytes hr task bytes ret he => ?_, fun x hx hb => ?_⟩
  · exact (outcome_run h x hx).2.got_length (buffersWf_run h x hx) hr he
  · have ho := (outcome_run h x hx).2
    rw [hb] at ho
    generalize x.before = s, x.after = t, x.events = es at ho ⊢
    cases ho with
    | sleep hs _ => exact absurd rfl (hs.not_key _)
    | reap hs _ => exact absurd rfl (hs.not_key _)
    | got hr _ => exact absurd rfl (hr.not_key _)
    | report _ hr => exact absurd rfl (hr.not_key _)
    | key _ => exact ⟨keyEvents_delivered _, rfl⟩

/-- The buffers are all but empty. -/
def short (k : Kernel) : Bool :=
  decide ((contents k.terminal.lineBuf).length ≤ 2 ∧ (contents k.terminal.inputBuf).length ≤ 2)

/-- A line with a correction is typed, and read in two pieces. -/
theorem line_discipline_pieces : ∃ xs k, Run step boot xs k ∧
    acts xs = [.key 97, .key 98, .key backspace, .key newline, .read 0 1, .read 0 8] ∧ Disciplined xs k := by
  obtain ⟨xs, k, h, ha, hp⟩ : ∃ xs k, Run step boot xs k ∧
      acts xs = [.key 97, .key 98, .key backspace, .key newline, .read 0 1, .read 0 8] ∧
      (xs.all fun x => short x.before) = true :=
    Run.of_replay _ (fun xs _ => xs.all fun x => short x.before) (by decide +kernel)
  refine ⟨xs, k, h, ha, line_discipline h fun x hx => ⟨fun bytes hb => ?_, fun c _ _ => ?_⟩⟩
  · have hact : x.act ∈ acts xs := List.mem_map_of_mem hx
    rw [ha, hb] at hact
    simp at hact
  · obtain ⟨h1, h2⟩ := of_decide_eq_true (List.all_eq_true.mp hp x hx)
    simp only [BUF_SIZE]
    omega

end Raampjes.Sched
