import Raampjes.Sched.Line

/-!
# Keys when the buffers are full

`tty_input` echoes a key exactly when `line_buf` took it. On Enter the line is moved to `input_buf` character by
character; what does not fit there has been taken from `line_buf` already and is lost. A line that fills its buffer is
moved without its newline, and with the head at 0 the key behind it empties the buffer.

- `accepted`: the editor, given the keys that were echoed;
- `Spares`: the keys that meet none of this; `keyed_spares`: such a key is one of the editor, or is refused by both;
- `no_key_lost`: in a run of such keys the lines read, the queued lines and the line being edited are the editor's.
-/

namespace Raampjes.Sched

open Runs Tty

variable {k : Kernel} {xs : List (Step Kernel Act Event)}

/-! ## What was accepted -/

def Event.shows (c : UInt8) : Event → Bool
  | .put d => d == c
  | _ => false

/-- A key that was echoed is typed, a backspace takes back, and everything else changes nothing. -/
def Typed.echoed (s : Typed) (x : Step Kernel Act Event) : Typed :=
  match x.act with
  | .key c => if c = backspace ∨ x.events.any (Event.shows c) = true then s.key c else s
  | _ => s

/-- The editor after a run that began with these buffers. -/
def accepted (k : Kernel) (xs : List (Step Kernel Act Event)) : Typed :=
  xs.foldl Typed.echoed ⟨[contents k.terminal.inputBuf], contents k.terminal.lineBuf⟩

theorem accepted_snoc (k : Kernel) (xs : List (Step Kernel Act Event)) (x : Step Kernel Act Event) :
    accepted k (xs ++ [x]) = (accepted k xs).echoed x := by
  rw [accepted, List.foldl_append]
  rfl

/-- Nothing is written to `input_buf`. Enter finds a place for the newline, and room for the whole line in `input_buf`;
another key does not find the head of `line_buf` at 0 and the buffer full. -/
structure Spares (k : Kernel) (a : Act) : Prop where
  write : ∀ bytes, a ≠ .write 0 bytes
  enter : a = .key newline → (contents k.terminal.lineBuf).length < BUF_SIZE - 1 ∧
    (contents k.terminal.inputBuf).length + (contents k.terminal.lineBuf).length + 1 < BUF_SIZE
  other : ∀ c, a = .key c → c ≠ newline → c ≠ backspace →
    ¬ (k.terminal.lineBuf.head = 0 ∧ (contents k.terminal.lineBuf).length = BUF_SIZE - 1)

/-! ## One key -/

theorem echo_shows (accepted : Bool) (c : UInt8) : (echo accepted c).any (Event.shows c) = accepted := by
  cases accepted
  · rfl
  · simp [echo, Event.shows]

theorem keyEvents_shows {c : UInt8} (hb : c ≠ backspace) :
    (keyEvents k c).any (Event.shows c) = decide ((bufEnqueue k.terminal.lineBuf c).1 ≠ 0) := by
  rw [keyEvents, echo_shows, if_neg hb]

/-- A key that finds room is echoed. -/
theorem echoed_key {c : UInt8} {s : Typed} {t : Kernel} (hw : BuffersWf k)
    (hroom : (contents k.terminal.lineBuf).length < BUF_SIZE - 1) :
    s.echoed ⟨k, .key c, keyEvents k c, t⟩ = s.key c := by
  by_cases hb : c = backspace
  · exact if_pos (Or.inl hb)
  · refine if_pos (Or.inr ?_)
    rw [keyEvents_shows hb, (bufEnqueue_append hw.2 hroom c).1]
    rfl

/-- **A key** of the editor that was echoed, or one that both leave out. -/
theorem keyed_spares {c : UInt8} {s : Typed} {read : List UInt8} (hw : BuffersWf k) (hk : Spares k (.key c))
    (h : Holds k s read) : Holds (keyed k c) (s.echoed ⟨k, .key c, keyEvents k c, keyed k c⟩) read := by
  obtain ⟨hin, hline⟩ := h
  by_cases hb : c = backspace
  · have hecho : s.echoed ⟨k, .key c, keyEvents k c, keyed k c⟩ = s.key c := if_pos (Or.inl hb)
    rw [hecho, keyed, if_pos hb, Typed.key, if_pos hb]
    exact ⟨hin, by rw [setLine_lineBuf, contents_bufRestore hw.2, hline]⟩
  by_cases hroom : (contents k.terminal.lineBuf).length < BUF_SIZE - 1
  · have happ := (bufEnqueue_append hw.2 hroom c).2
    rw [echoed_key hw hroom, keyed, if_neg hb, Typed.key, if_neg hb]
    by_cases hn : c = newline
    · obtain ⟨-, -, hsrc, hdst⟩ := moveQueue_contents (bufEnqueue_wf hw.2 c) hw.1 (by
        have := (hk.enter (by rw [hn])).2
        rw [happ, List.length_append, List.length_singleton]
        omega)
      rw [if_pos hn, if_pos hn]
      refine ⟨?_, ?_⟩
      · rw [awakeBelow_terminal, setInput_inputBuf, hdst, happ, ← List.append_assoc, hin, hline, hn]
        simp
      · rw [awakeBelow_terminal, setInput_lineBuf, setLine_lineBuf, hsrc]
    · rw [if_neg hn, if_neg hn]
      exact ⟨hin, by rw [setLine_lineBuf, happ, hline]⟩
  · -- a full line refuses the key
    have hn : c ≠ newline := fun hn => hroom (hk.enter (by rw [hn])).1
    have hlen : (contents k.terminal.lineBuf).length = BUF_SIZE - 1 := by
      have := length_lt hw.2
      omega
    have hfull : full k.terminal.lineBuf = true :=
      (full_of_length hw.2 hlen).mpr fun h0 => hk.other c rfl hn hb ⟨h0, hlen⟩
    have hecho : s.echoed ⟨k, .key c, keyEvents k c, keyed k c⟩ = s := by
      refine if_neg (not_or.mpr ⟨hb, ?_⟩)
      rw [keyEvents_shows hb, bufEnqueue_full hfull]
      exact Bool.false_ne_true
    rw [hecho, keyed, if_neg hb, if_neg hn, bufEnqueue_full hfull]
    exact ⟨hin, hline⟩

/-- **One step** keeps the agreement of buffers and editor. -/
theorem spares_step {t : Kernel} {a : Act} {es : List Event} {s : Typed} {read : List UInt8} (hw : BuffersWf k)
    (h : Outcome k a t es) (ha : Spares k a) (hs : Holds k s read) :
    Holds t (s.echoed ⟨k, a, es, t⟩) (read ++ delivered es) := by
  by_cases hkey : ∃ c, a = .key c
  · obtain ⟨c, rfl⟩ := hkey
    cases h with
    | sleep hsl _ => exact absurd rfl (hsl.not_key c)
    | reap hr _ => exact absurd rfl (hr.not_key c)
    | got hr _ => exact absurd rfl (hr.not_key c)
    | report _ hr => exact absurd rfl (hr.not_key c)
    | key _ =>
      rw [keyEvents_delivered, List.append_nil]
      exact keyed_spares hw ha hs
  · rw [not_exists] at hkey
    have hsame : s.echoed ⟨k, a, es, t⟩ = s.act a := by
      rw [Typed.act_eq hkey]
      cases a <;> first | rfl | exact absurd rfl (hkey _)
    rw [hsame]
    exact holds_step hw h ⟨ha.write, fun c hc => absurd hc (hkey c)⟩ hs

/-! ## Runs -/

/-- **No accepted key is lost**, from any buffers on: what was read and what is queued are the lines that were committed,
each with its newline, and `line_buf` is the text being edited. -/
theorem no_key_lost {k₀ : Kernel} (h₀ : Inv k₀) (hw : BuffersWf k₀) (h : Run step k₀ xs k)
    (hs : ∀ x ∈ xs, Spares x.before x.act) : Holds k (accepted k₀ xs) (delivered (events xs)) := by
  suffices hP : Inv k ∧ BuffersWf k ∧ Holds k (accepted k₀ xs) (delivered (events xs)) from hP.2.2
  refine h.induct (C := Spares)
    (fun xs k => Inv k ∧ BuffersWf k ∧ Holds k (accepted k₀ xs) (delivered (events xs)))
    ⟨h₀, hw, ?_, rfl⟩ ?_ hs
  · show [] ++ contents k₀.terminal.inputBuf = [contents k₀.terminal.inputBuf].flatten
    simp
  · intro xs s a t es ⟨hi, hw, hh⟩ ha hst
    have ho := step_outcome hi hst
    rw [accepted_snoc, events_snoc, delivered_append]
    exact ⟨inv_step hi hst, buffersWf_step ho hw, spares_step hw ho ha hh⟩

/-- A line is typed and read. -/
theorem no_key_lost_line : ∃ xs k, Run step boot xs k ∧ acts xs = [.key 97, .key newline, .read 0 8] ∧
    Holds k (accepted boot xs) (delivered (events xs)) := by
  obtain ⟨xs, k, h, ha, hp⟩ : ∃ xs k, Run step boot xs k ∧ acts xs = [.key 97, .key newline, .read 0 8] ∧
      (xs.all fun x => short x.before) = true :=
    Run.of_replay _ (fun xs _ => xs.all fun x => short x.before) (by decide +kernel)
  refine ⟨xs, k, h, ha, no_key_lost inv_boot buffersWf_boot h fun x hx => ?_⟩
  obtain ⟨h1, h2⟩ := of_decide_eq_true (List.all_eq_true.mp hp x hx)
  refine ⟨fun bytes hb => ?_, fun _ => ?_, fun _ _ _ _ hlen => ?_⟩
  · have hact : x.act ∈ acts xs := List.mem_map_of_mem hx
    rw [ha, hb] at hact
    simp at hact
  · simp only [BUF_SIZE]
    omega
  · simp only [BUF_SIZE] at hlen
    omega

/-- The state after boot, with `input_buf` full of characters that nobody reads. -/
def jammed : Kernel := setInput boot ⟨1, 0, fun _ => 98⟩

theorem moveLoop_full {dst : TtyBuffer} (h : full dst = true) (nr : Nat) (src : TtyBuffer) :
    (moveLoop nr src dst).2 = dst := by
  induction nr generalizing src with
  | zero => rfl
  | succ nr ih =>
    show (moveLoop nr (bufDequeue src).2 (bufEnqueue dst (bufDequeue src).1).2).2 = dst
    rw [bufEnqueue_full h]
    exact ih _

theorem step_key (h : Inv k) (hc : k.cur.cont = .user) (c : UInt8) :
    step k (.key c) = some (keyed k c, keyEvents k c) := by
  unfold step
  rw [hc]
  exact ttyInput_eq h c

/-- The line `a` is typed and echoed, and it is nowhere after the Enter. -/
theorem key_lost : Inv jammed ∧ BuffersWf jammed ∧ ∃ xs k, Run step jammed xs k ∧ acts xs = [.key 97, .key newline] ∧
    ¬ Holds k (accepted jammed xs) (delivered (events xs)) := by
  have hinv : Inv jammed := setInput_inv inv_boot _
  have hw : BuffersWf jammed := ⟨⟨by decide, by decide⟩, buffersWf_boot.2⟩
  have hline : contents jammed.terminal.lineBuf = [] := by decide
  have hst := step_key hinv rfl 97
  have hw' : BuffersWf (keyed jammed 97) := buffersWf_step (step_outcome hinv hst) hw
  have hline' : contents (keyed jammed 97).terminal.lineBuf = [97] :=
    (bufEnqueue_append hw.2 (by rw [hline]; decide) 97).2.trans (by rw [hline]; rfl)
  have hrun := (Run.refl.snoc hst).snoc (step_key (keyed_inv hinv 97) rfl newline)
  refine ⟨hinv, hw, _, _, hrun, rfl, fun h => ?_⟩
  have hinput : contents (keyed (keyed jammed 97) newline).terminal.inputBuf = contents jammed.terminal.inputBuf := by
    show contents (moveQueue (bufEnqueue (keyed jammed 97).terminal.lineBuf newline).2 jammed.terminal.inputBuf).2 = _
    rw [moveQueue, moveLoop_full (by decide)]
  have hin := congrArg List.length h.1
  rw [List.nil_append, accepted_snoc, ← List.nil_append [_], accepted_snoc,
    echoed_key hw (by rw [hline]; decide), echoed_key hw' (by rw [hline']; decide)] at hin
  simp only [events_snoc, List.nil_append, delivered_append, keyEvents_delivered, hinput, accepted, List.foldl_nil,
    hline] at hin
  simp [Typed.key, newline, backspace, events, keyEvents_delivered] at hin

end Raampjes.Sched
