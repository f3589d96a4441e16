import Raampjes.Sched.Dispatch

/-!
# The slots that are looked at

A step looks at slots of the task table through their pointer (`Examines`): a scan of `do_wait` at all of them, `do_exit`
at the slot of the parent's pid. Neither tests the pointer. Which slots are taken is a matter of history only: a pid is
in use from the `do_fork` that hands it out to the `do_wait` that frees its task (`pidsInUse`, `slots_history`), so
`examined_taken_iff` says of every run, from its forks and reaps, whether an empty slot was ever looked at.
-/

namespace Raampjes.Sched

open Runs

variable {k : Kernel} {xs : List (Step Kernel Act Event)}

/-! ## Slots and history -/

/-- What an event does to the pids in use. -/
def usePid (used : Nat → Bool) : Event → Nat → Bool
  | .forked _ _ pid => Function.update used pid true
  | .freed k t => Function.update used (k.page t).pid false
  | _ => used

/-- The pids in use after these events: at first 0 alone. -/
def pidsInUse (es : List Event) : Nat → Bool := es.foldl usePid fun pid => pid == 0

theorem foldl_usePid_eq {es : List Event} (h : ∀ e ∈ es, ∀ used, usePid used e = used) (used : Nat → Bool) :
    es.foldl usePid used = used := by
  induction es with
  | nil => rfl
  | cons e es ih =>
    rw [List.foldl_cons, h e List.mem_cons_self]
    exact ih fun e he => h e (List.mem_cons_of_mem _ he)

theorem Event.Quiet.usePid {e : Event} (h : e.Quiet) (used : Nat → Bool) : usePid used e = used := by
  cases e <;> first | rfl | exact h.elim

/-- The slots taken. -/
def takenAt (k : Kernel) (pid : Nat) : Bool := (k.tasks pid).isSome

/-- A scan frees the pids of the slots it empties. -/
theorem foldl_usePid_scan (hk : Inv k) (n : Nat) :
    ((List.range n).flatMap (slotEvents k)).foldl usePid (takenAt k) = takenAt (afterScan k n) := by
  induction n with
  | zero => simp [afterScan_zero]
  | succ n ih =>
    rw [List.range_succ, List.flatMap_append, List.foldl_append, ih, List.flatMap_singleton, slotEvents]
    cases hr : reapAt k n with
    | none => simp [usePid, afterScan_succ_of_none hr]
    | some t =>
      have hpid : (k.page t).pid = n := hk.slot_pid (reapAt_eq_some.mp hr).1
      rw [← freeTask_afterScan hk.slot_pid hr]
      funext p
      by_cases hp : p = n
      · subst hp
        simp [usePid, takenAt, freeTask, afterScan, hpid]
      · simp [usePid, takenAt, freeTask, afterScan, hpid, hp]

/-- A step changes the slots as its events say. -/
theorem Outcome.usePid {t : Kernel} {a : Act} {es : List Event} (hk : Inv k) (h : Outcome k a t es) :
    es.foldl Sched.usePid (takenAt k) = takenAt t := by
  cases h with
  | fork _ _ _ _ _ =>
    rename_i newPid _ _ _ _ _
    funext p
    by_cases hp : p = newPid
    · subst hp
      simp [Sched.usePid, takenAt, forked]
    · simp [Sched.usePid, takenAt, forked, hp]
  | sleep hs _ =>
    refine foldl_usePid_eq (fun e he used => ?_) _
    rcases List.mem_append.mp he with he | he
    · obtain ⟨i, _, rfl⟩ := hs.events e he
      rfl
    · rw [List.mem_singleton.mp he]
      rfl
  | tick _ _ => rfl
  | exit _ _ _ _ =>
    funext p
    simp [Sched.usePid, takenAt]
  | reap _ _ =>
    rw [List.foldl_append, scanEvents, foldl_usePid_scan hk]
    rfl
  | got _ _ => rfl
  | writeInput _ => rfl
  | report _ hr => exact foldl_usePid_eq (fun e he => (hr.quiet e he).usePid) _
  | key _ =>
    rw [foldl_usePid_eq (fun e he => (keyEvents_quiet _ e he).usePid)]
    funext p
    simp [takenAt]

/-- **The slots taken are the pids in use.** -/
theorem slots_history (h : Run step boot xs k) (pid : Nat) : pidsInUse (events xs) pid = (k.tasks pid).isSome := by
  suffices hP : Inv k ∧ pidsInUse (events xs) = takenAt k from congrFun hP.2 pid
  refine h.induct (C := fun _ _ => True) (fun xs k => Inv k ∧ pidsInUse (events xs) = takenAt k)
    ⟨inv_boot, ?_⟩ ?_ (by simp)
  · funext p
    by_cases hp : p = 0 <;> simp [pidsInUse, takenAt, boot, hp]
  · intro xs s a t es hi _ hst
    refine ⟨inv_step hi.1 hst, ?_⟩
    rw [events_snoc, pidsInUse, List.foldl_append]
    have := hi.2
    rw [pidsInUse] at this
    rw [this, (step_outcome hi.1 hst).usePid hi.1]

/-! ## What is looked at -/

/-- The step looks at the slot. -/
def Examines (k : Kernel) (a : Act) (slot : Nat) : Prop :=
  (∃ statLoc, Scans k a statLoc) ∧ slot < MAX_TASKS ∨ (∃ status, a = .exit status) ∧ slot = k.cur.ppid

theorem examined_scanEvents {slot : Nat} {o : Option TaskId} :
    .examined slot o ∈ scanEvents k ↔ slot < MAX_TASKS ∧ o = k.tasks slot := by
  rw [mem_scanEvents]
  constructor
  · rintro ⟨i, hi, he | ⟨t, _, he⟩⟩ <;> cases he
    exact ⟨hi, rfl⟩
  · rintro ⟨hi, rfl⟩
    exact ⟨slot, hi, Or.inl rfl⟩

theorem not_examines {a : Act} {slot : Nat} (hs : ∀ statLoc, ¬Scans k a statLoc) (he : ∀ status, a ≠ .exit status) :
    ¬Examines k a slot := by
  rintro (⟨⟨b, hb⟩, _⟩ | ⟨⟨st, hst⟩, _⟩)
  · exact hs b hb
  · exact he st hst

theorem Reads.not_examines {a : Act} {nbytes slot : Nat} (h : Reads k a nbytes) : ¬Examines k a slot := by
  refine Sched.not_examines ?_ ?_
  · rintro b (⟨h1, rfl⟩ | ⟨h1, rfl⟩) <;> rcases h with ⟨h2, h3⟩ | ⟨h2, h3⟩ <;> simp_all
  · rintro st rfl
    rcases h with ⟨_, h3⟩ | ⟨_, h3⟩ <;> cases h3

theorem Scans.examines {a : Act} {b : Bool} {slot : Nat} (h : Scans k a b) :
    Examines k a slot ↔ slot < MAX_TASKS := by
  refine ⟨?_, fun hlt => Or.inl ⟨⟨b, h⟩, hlt⟩⟩
  rintro (⟨_, hlt⟩ | ⟨⟨st, rfl⟩, _⟩)
  · exact hlt
  · rcases h with ⟨_, h3⟩ | ⟨_, h3⟩ <;> cases h3

/-- **What a step records of its looks at the table.** -/
theorem Outcome.examined {t : Kernel} {a : Act} {es : List Event} (h : Outcome k a t es) {slot : Nat}
    {o : Option TaskId} : .examined slot o ∈ es ↔ Examines k a slot ∧ o = k.tasks slot := by
  cases h with
  | fork _ _ _ _ _ => simp [not_examines, Scans]
  | sleep hs _ =>
    rw [List.mem_append, or_iff_left (by simp)]
    cases hs with
    | pause _ => simp [not_examines, Scans]
    | read hr _ => simp [hr.not_examines]
    | wait hs _ => rw [examined_scanEvents, hs.examines]
  | tick _ _ => simp [not_examines, Scans]
  | exit _ _ _ _ =>
    have hx : ∀ st, Examines k (.exit st) slot ↔ slot = k.cur.ppid := fun st => by simp [Examines, Scans]
    simp only [List.mem_cons, reduceCtorEq, Event.examined.injEq, List.not_mem_nil, or_false, false_or, hx]
    constructor
    · rintro ⟨rfl, rfl⟩
      exact ⟨rfl, rfl⟩
    · rintro ⟨rfl, rfl⟩
      exact ⟨rfl, rfl⟩
  | reap hs _ => rw [List.mem_append, or_iff_left (by simp), examined_scanEvents, hs.examines]
  | got hr _ => exact iff_of_false (fun he => by cases List.mem_singleton.mp he) fun he => hr.not_examines he.1
  | writeInput _ => simp [not_examines, Scans]
  | report _ hr =>
    refine iff_of_false (fun he => hr.quiet _ he) fun he => ?_
    cases hr <;> exact not_examines (by simp [Scans]) (by simp) he.1
  | key _ =>
    refine iff_of_false (fun he => keyEvents_quiet _ _ he) fun he => ?_
    exact not_examines (by simp [Scans]) (by simp) he.1

/-! ## Runs -/

/-- With the events `es` behind it: a scan of `do_wait` begins with all pids in use, and `do_exit` with the pid of the
parent in use. -/
def SlotsTaken (es : List Event) (k : Kernel) (a : Act) : Prop :=
  (∀ statLoc, Scans k a statLoc → ∀ pid < MAX_TASKS, pidsInUse es pid) ∧
    ∀ status, a = .exit status → pidsInUse es k.cur.ppid

theorem slotsTaken_iff {es : List Event} (hes : ∀ pid, pidsInUse es pid = (k.tasks pid).isSome) (a : Act) :
    SlotsTaken es k a ↔ ∀ slot, Examines k a slot → k.tasks slot ≠ none := by
  simp only [SlotsTaken, hes, Examines, ← Option.isSome_iff_ne_none]
  constructor
  · rintro ⟨h1, h2⟩ slot (⟨⟨b, hb⟩, hlt⟩ | ⟨⟨st, hst⟩, rfl⟩)
    · exact h1 b hb slot hlt
    · exact h2 st hst
  · intro h
    exact ⟨fun b hb pid hlt => h pid (Or.inl ⟨⟨b, hb⟩, hlt⟩), fun st hst => h _ (Or.inr ⟨⟨st, hst⟩, rfl⟩)⟩

/-- The steps of a run look at taken slots exactly when their histories say so. -/
theorem slotsTaken_run (h : Run step boot xs k) {pre post : List (Step Kernel Act Event)} {x : Step Kernel Act Event}
    (hx : xs = pre ++ x :: post) :
    SlotsTaken (events pre) x.before x.act ↔ ∀ slot, .examined slot none ∉ x.events := by
  obtain ⟨hpre, hst⟩ := (hx ▸ h).split
  rw [slotsTaken_iff (slots_history hpre)]
  have hexamined : ∀ slot, .examined slot none ∈ x.events ↔
      Examines x.before x.act slot ∧ none = x.before.tasks slot :=
    fun _ => (step_outcome (inv_run hpre) hst).examined
  refine forall_congr' fun slot => ?_
  rw [hexamined, not_and, ne_eq, eq_comm]

/-- **No empty slot is looked at** in a run exactly when every scan of `do_wait` begins with all pids in use and every
`do_exit` with the parent's pid in use. -/
theorem examined_taken_iff (h : Run step boot xs k) : (∀ slot, .examined slot none ∉ events xs) ↔
    ∀ pre x post, xs = pre ++ x :: post → SlotsTaken (events pre) x.before x.act := by
  constructor
  · intro hno pre x post hx
    rw [slotsTaken_run h hx]
    exact fun slot he => hno slot (mem_events.mpr ⟨x, by simp [hx], he⟩)
  · intro hall slot he
    obtain ⟨x, hx, he⟩ := mem_events.mp he
    obtain ⟨pre, post, hsplit⟩ := List.append_of_mem hx
    exact (slotsTaken_run h hsplit).mp (hall pre x post hsplit) slot he

/-- A child that exits while its parent sleeps in `do_pause`. -/
theorem examined_taken_iff_exit : ∃ xs k, Run step boot xs k ∧ acts xs = [.fork, .tick, .fork, .exit 3] ∧
    ((∀ slot, .examined slot none ∉ events xs) ↔
      ∀ pre x post, xs = pre ++ x :: post → SlotsTaken (events pre) x.before x.act) :=
  have ⟨xs, k, h, ha, _⟩ := Run.of_replay [.fork, .tick, .fork, .exit 3] (fun _ _ => true) (by decide +kernel)
  ⟨xs, k, h, ha, examined_taken_iff h⟩

/-- An event that records an empty slot. -/
def Event.atEmpty : Event → Bool
  | .examined _ none => true
  | _ => false

/-- With two tasks in the table a scan of `do_wait` follows the empty pointers of the other slots. -/
theorem examined_empty : ∃ xs k, Run step boot xs k ∧ acts xs = [.fork, .wait false] ∧
    ¬∀ slot, .examined slot none ∉ events xs := by
  obtain ⟨xs, k, h, ha, hp⟩ : ∃ xs k, Run step boot xs k ∧ acts xs = [.fork, .wait false] ∧
      (events xs).any Event.atEmpty = true :=
    Run.of_replay _ (fun xs _ => (events xs).any Event.atEmpty) (by decide +kernel)
  refine ⟨xs, k, h, ha, fun hno => ?_⟩
  obtain ⟨e, he, hempty⟩ := List.any_eq_true.mp hp
  cases e with
  | examined slot o =>
    cases o with
    | none => exact hno slot he
    | some t => cases hempty
  | _ => cases hempty

end Raampjes.Sched
