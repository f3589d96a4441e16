import Raampjes.Sched.Dispatch

/-!
# Exits and their reports

A child that exits is to be reported by one `do_wait` of the task that forked it, which removes it from the table.
`do_wait` knows children by the pid in `ppid` only, and frees every stopped child that its scan meets while it returns
one. `wait_reports_iff` says for every run when that goes well: at each scan at most one stopped task carries the
pid of the caller, and its own parent has not been freed.

- `Change`, `Outcome.change`: what a step can do to the `TaskStruct` of a task;
- `Known`: what the events of a run say of the tasks in the table;
- `exits_nodup`, `reaped_nodup`: a task exits once and is freed once, whatever happens.
-/

namespace Raampjes.Sched

open Runs

variable {k : Kernel} {xs : List (Step Kernel Act Event)}

/-! ## What a step does to a task -/

/-- What can become of the `TaskStruct` of `u` in a step with the events `es`. -/
inductive Change (k : Kernel) (es : List Event) (u : TaskId) : TaskStruct → Prop
  | same : Change k es u (k.page u)
  | woken : (k.page u).state = .waiting → Change k es u { k.page u with state := .running }
  | slept {a : Act} {c : Cont} {es' : List Event} : u = k.current → Sleeps k a c es' →
      Change k es u { k.page u with state := .waiting, cont := c }
  | back : u = k.current → Change k es u { k.page u with cont := .user }
  | stopped {status : Int} : u = k.current → .exited u status ∈ es →
      Change k es u { k.page u with exitStatus := status, state := .stopped }

theorem awakeBelow_change (es : List Event) (n : Nat) (u : TaskId) : Change k es u ((awakeBelow k n).page u) := by
  by_cases h : (k.page u).pid < n ∧ k.tasks (k.page u).pid = some u ∧ (k.page u).state = .waiting
  · rw [awakeBelow_page_wake h]
    exact .woken h.2.2
  · rw [awakeBelow_page_eq h]
    exact .same

theorem keyed_change (es : List Event) (c : UInt8) (u : TaskId) : Change k es u ((keyed k c).page u) := by
  unfold keyed
  split
  · exact .same
  · split
    · exact awakeBelow_change (k := k) es MAX_TASKS u
    · exact .same

theorem back_change (es : List Event) (u : TaskId) : Change k es u ((back k).page u) := by
  by_cases hu : u = k.current
  · subst hu
    rw [Sched.back, Kernel.setTask_page]
    exact .back rfl
  · rw [Sched.back, Kernel.setTask_page_of_ne _ _ _ hu]
    exact .same

/-- Stopping comes before waking: the running task is not its own waiting parent. -/
theorem exitWoken_cur (k : Kernel) (status : Int) :
    (exitWoken k status).page k.current = { k.cur with exitStatus := status, state := .stopped } := by
  have hpage : (exitStopped k status).page k.current = { k.cur with exitStatus := status, state := .stopped } :=
    Kernel.setTask_page ..
  rcases exitWoken_page k status k.current with hp | ⟨hw, _⟩
  · rw [hp, hpage]
  · rw [hpage] at hw
    cases hw

theorem exitWoken_change {es : List Event} {status : Int} (he : .exited k.current status ∈ es) (u : TaskId) :
    Change k es u ((exitWoken k status).page u) := by
  by_cases hu : u = k.current
  · subst hu
    rw [exitWoken_cur]
    exact .stopped rfl he
  · have hpage : (exitStopped k status).page u = k.page u := Kernel.setTask_page_of_ne _ _ _ hu
    rcases exitWoken_page k status u with hp | ⟨hw, hp⟩ <;> rw [hp, hpage]
    · exact .same
    · exact .woken (hpage ▸ hw)

/-- **What a step does to the tasks there are.** -/
theorem Outcome.change {t : Kernel} {a : Act} {es : List Event} (h : Outcome k a t es) {u : TaskId}
    (hu : u < k.fresh) : Change k es u (t.page u) := by
  cases h with
  | fork _ _ _ _ _ =>
    have hpage : ∀ newPid, (forked k newPid).page u = k.page u := fun _ => Function.update_of_ne (Nat.ne_of_lt hu) _ _
    rw [hpage]
    exact .same
  | sleep hs _ =>
    rename_i c _ _ _
    show Change k _ u ((asleep k c).page u)
    by_cases hc : u = k.current
    · subst hc
      rw [asleep, Kernel.setTask_page]
      exact .slept rfl hs
    · rw [asleep, Kernel.setTask_page_of_ne _ _ _ hc]
      exact .same
  | tick _ _ => exact .same
  | exit _ _ _ _ => exact exitWoken_change List.mem_cons_self u
  | reap _ _ => exact back_change (k := k) _ u
  | got _ _ => exact back_change _ u
  | writeInput _ => exact .same
  | report _ _ => exact .same
  | key _ => exact keyed_change _ _ u

section Change

variable {es : List Event} {u : TaskId} {x : TaskStruct}

theorem Change.pid (h : Change k es u x) : x.pid = (k.page u).pid := by
  cases h <;> rfl

theorem Change.ppid (h : Change k es u x) : x.ppid = (k.page u).ppid := by
  cases h <;> rfl

/-- A task is stopped by its exit only. -/
theorem Change.of_stopped (h : Change k es u x) (hcur : k.cur.state ≠ .stopped) (hx : x.state = .stopped) :
    x = k.page u ∨ .exited u x.exitStatus ∈ es := by
  cases h with
  | same => exact Or.inl rfl
  | woken _ => cases hx
  | slept _ _ => cases hx
  | back hu =>
    subst hu
    exact absurd hx hcur
  | stopped _ he => exact Or.inr he

/-- What is stopped stays as it is. -/
theorem Change.frozen (h : Change k es u x) (hcur : k.cur.state ≠ .stopped) (hst : (k.page u).state = .stopped) :
    x = k.page u := by
  have hne : u ≠ k.current := by
    rintro rfl
    exact hcur hst
  cases h with
  | same => rfl
  | woken hw => rw [hst] at hw; cases hw
  | slept hu _ => exact absurd hu hne
  | back hu => exact absurd hu hne
  | stopped hu _ => exact absurd hu hne

end Change

/-! ## Exits and reaps of a history -/

/-- The tasks that have exited, in order. -/
def exits (es : List Event) : List TaskId := es.filterMap fun
  | .exited t _ => some t
  | _ => none

/-- The tasks that `free_task` was applied to, in order. -/
def reaped (es : List Event) : List TaskId := es.filterMap fun
  | .freed _ t => some t
  | _ => none

@[simp] theorem exits_append (es es' : List Event) : exits (es ++ es') = exits es ++ exits es' :=
  List.filterMap_append ..

@[simp] theorem reaped_append (es es' : List Event) : reaped (es ++ es') = reaped es ++ reaped es' :=
  List.filterMap_append ..

theorem mem_exits {es : List Event} {t : TaskId} : t ∈ exits es ↔ ∃ status, .exited t status ∈ es := by
  rw [exits, List.mem_filterMap]
  constructor
  · rintro ⟨e, he, ht⟩
    cases e <;> cases ht
    exact ⟨_, he⟩
  · rintro ⟨status, he⟩
    exact ⟨_, he, rfl⟩

theorem mem_reaped {es : List Event} {t : TaskId} : t ∈ reaped es ↔ ∃ k', .freed k' t ∈ es := by
  rw [reaped, List.mem_filterMap]
  constructor
  · rintro ⟨e, he, ht⟩
    cases e <;> cases ht
    exact ⟨_, he⟩
  · rintro ⟨k', he⟩
    exact ⟨_, he, rfl⟩

/-- Nothing exits in these events. -/
theorem exits_eq_nil {es : List Event} (h : ∀ t status, .exited t status ∉ es) : exits es = [] :=
  List.eq_nil_iff_forall_not_mem.mpr fun t ht =>
    have ⟨status, he⟩ := mem_exits.mp ht
    h t status he

theorem reaped_eq_nil {es : List Event} (h : ∀ k' t, .freed k' t ∉ es) : reaped es = [] :=
  List.eq_nil_iff_forall_not_mem.mpr fun t ht =>
    have ⟨k', he⟩ := mem_reaped.mp ht
    h k' t he

/-- A scan frees the stopped children, in the order of their slots. -/
theorem reaped_scanEvents (k : Kernel) : reaped (scanEvents k) = (List.range MAX_TASKS).filterMap (reapAt k) := by
  have hslot : ∀ i, reaped (slotEvents k i) = (reapAt k i).toList := fun i => by
    cases hr : reapAt k i with
    | none => simp [reaped, slotEvents, hr]
    | some t => simp [reaped, slotEvents, hr]
  unfold scanEvents
  induction List.range MAX_TASKS with
  | nil => rfl
  | cons i is ih =>
    rw [List.flatMap_cons, reaped_append, ih, hslot, List.filterMap_cons]
    cases reapAt k i <;> rfl

/-- What a step exits: the running task, or none. -/
theorem Outcome.exits {t : Kernel} {a : Act} {es : List Event} (h : Outcome k a t es) :
    Sched.exits es = [] ∨ Sched.exits es = [k.current] ∧ (t.page k.current).state = .stopped := by
  cases h with
  | fork _ _ _ _ _ => exact Or.inl rfl
  | sleep hs _ =>
    refine Or.inl (exits_eq_nil fun u status he => ?_)
    rcases List.mem_append.mp he with he | he
    · obtain ⟨i, _, hi⟩ := hs.events _ he
      cases hi
    · cases List.mem_singleton.mp he
  | tick _ _ => exact Or.inl rfl
  | exit _ _ _ _ =>
    rename_i status _ _ _ _ _
    exact Or.inr ⟨rfl, congrArg TaskStruct.state (exitWoken_cur k status)⟩
  | reap _ _ =>
    refine Or.inl (exits_eq_nil fun u status he => ?_)
    rcases List.mem_append.mp he with he | he
    · obtain ⟨i, _, he | ⟨_, _, he⟩⟩ := mem_scanEvents.mp he <;> cases he
    · cases List.mem_singleton.mp he
  | got _ _ => exact Or.inl rfl
  | writeInput _ => exact Or.inl rfl
  | report _ hr => exact Or.inl (exits_eq_nil fun _ _ he => hr.quiet _ he)
  | key _ => exact Or.inl (exits_eq_nil fun _ _ he => keyEvents_quiet _ _ he)

/-- **What a step forks**: the running task's child, which goes on running. -/
theorem Outcome.forked {t : Kernel} {a : Act} {es : List Event} (hk : Inv k) (h : Outcome k a t es) {p u : TaskId}
    {pid : Nat} (he : .forked p u pid ∈ es) :
    u = k.fresh ∧ t.fresh = k.fresh + 1 ∧ t.current = u ∧ (t.page u).cont = .user ∧
      t.tasks (t.page u).ppid = some p := by
  cases h with
  | fork _ _ _ hnone _ =>
    cases List.mem_singleton.mp he
    have hpage : (Sched.forked k pid).page k.fresh = forkTask k pid := Function.update_self ..
    have hne : k.cur.pid ≠ pid := fun h => by rw [← h, hk.cur_slot] at hnone; cases hnone
    refine ⟨rfl, rfl, rfl, by rw [hpage]; rfl, ?_⟩
    rw [hpage]
    exact (Function.update_of_ne hne ..).trans hk.cur_slot
  | sleep hs _ =>
    rcases List.mem_append.mp he with he | he
    · obtain ⟨i, _, hi⟩ := hs.events _ he
      cases hi
    · cases List.mem_singleton.mp he
  | tick _ _ => cases List.mem_singleton.mp he
  | exit _ _ _ _ => simp at he
  | reap _ _ =>
    rcases List.mem_append.mp he with he | he
    · obtain ⟨i, _, he | ⟨_, _, he⟩⟩ := mem_scanEvents.mp he <;> cases he
    · cases List.mem_singleton.mp he
  | got _ _ => cases List.mem_singleton.mp he
  | writeInput _ => cases List.mem_singleton.mp he
  | report _ hr => exact (hr.quiet _ he).elim
  | key _ => exact (keyEvents_quiet _ _ he).elim

/-- The step is the return of a `do_wait` that frees what its scan finds and reports the last of it. -/
def Returns (k : Kernel) (a : Act) (t : Kernel) (es : List Event) (statLoc : Bool) (c : TaskId) : Prop :=
  Scans k a statLoc ∧ lastFound k MAX_TASKS = some c ∧ t = back (afterScan k MAX_TASKS) ∧
    es = scanEvents k ++ [.waited k.current (k.page c).pid (if statLoc then some (k.page c).exitStatus else none)]

/-- The step neither frees nor reports, and found nothing if it was a scan. -/
structure Idle (k : Kernel) (a : Act) (es : List Event) : Prop where
  no_wait : ∀ task pid stat, .waited task pid stat ∉ es
  no_free : ∀ k' u, .freed k' u ∉ es
  no_find : ∀ statLoc, Scans k a statLoc → lastFound k MAX_TASKS = none

theorem Reads.not_scans {a : Act} {nbytes : Nat} (h : Reads k a nbytes) (statLoc : Bool) : ¬Scans k a statLoc := by
  rintro (⟨h1, rfl⟩ | ⟨h1, rfl⟩) <;> rcases h with ⟨h2, h3⟩ | ⟨h2, h3⟩
  · cases h3
  · cases h3
  · cases h3
  · rw [h1] at h2
    cases h2

/-- **A step reports one exit or none.** -/
theorem Outcome.waits {t : Kernel} {a : Act} {es : List Event} (h : Outcome k a t es) :
    (∃ statLoc c, Returns k a t es statLoc c) ∨ Idle k a es := by
  cases h with
  | fork _ _ _ _ _ => exact Or.inr ⟨by simp, by simp, by simp [Scans]⟩
  | sleep hs _ =>
    right
    refine ⟨fun task pid stat he => ?_, fun k' u he => ?_, ?_⟩
    · rcases List.mem_append.mp he with he | he
      · obtain ⟨i, _, hi⟩ := hs.events _ he
        cases hi
      · cases List.mem_singleton.mp he
    · rcases List.mem_append.mp he with he | he
      · obtain ⟨i, _, hi⟩ := hs.events _ he
        cases hi
      · cases List.mem_singleton.mp he
    · cases hs with
      | pause _ => simp [Scans]
      | read hr _ => exact fun statLoc hs => absurd hs (hr.not_scans statLoc)
      | wait _ hf => exact fun _ _ => hf
  | tick _ _ => exact Or.inr ⟨by simp, by simp, by simp [Scans]⟩
  | exit _ _ _ _ => exact Or.inr ⟨by simp, by simp, by simp [Scans]⟩
  | reap hs hf => exact Or.inl ⟨_, _, hs, hf, rfl, rfl⟩
  | got hr _ =>
    refine Or.inr ⟨fun _ _ _ he => ?_, fun _ _ he => ?_, fun statLoc hs => absurd hs (hr.not_scans statLoc)⟩ <;>
      cases List.mem_singleton.mp he
  | writeInput _ => exact Or.inr ⟨by simp, by simp, by simp [Scans]⟩
  | report _ hr =>
    refine Or.inr ⟨fun _ _ _ he => hr.quiet _ he, fun _ _ he => hr.quiet _ he, fun statLoc hs => ?_⟩
    cases hr <;> simp [Scans] at hs
  | key _ =>
    exact Or.inr ⟨fun _ _ _ he => keyEvents_quiet _ _ he, fun _ _ he => keyEvents_quiet _ _ he, by simp [Scans]⟩

/-! ## What the history knows -/

/-- What the events `es` of a run to `k` say of its tasks. -/
structure Known (es : List Event) (k : Kernel) : Prop where
  /-- A task that has exited stays stopped. -/
  exited_stopped : ∀ {u status}, .exited u status ∈ es → u < k.fresh ∧ (k.page u).state = .stopped
  /-- A stopped task of the table has exited, with the status it carries. -/
  stopped_exited : ∀ {i u}, k.tasks i = some u → (k.page u).state = .stopped → .exited u (k.page u).exitStatus ∈ es
  forked_old : ∀ {p u pid}, .forked p u pid ∈ es → u < k.fresh
  /-- A task is forked once. -/
  forked_unique : ∀ {p p' u pid pid'}, .forked p u pid ∈ es → .forked p' u pid' ∈ es → p = p'
  /-- Outside slot 0, a task was forked into its slot; its parent has been freed, or is in the slot `ppid`. -/
  parent : ∀ {i u}, i ≠ 0 → k.tasks i = some u →
    ∃ p, .forked p u i ∈ es ∧ (p ∈ reaped es ∨ k.tasks (k.page u).ppid = some p)
  buried : Buried es k

theorem known_boot : Known [] boot := by
  refine ⟨by simp, fun hi hst => ?_, by simp, by simp, fun hi ht => ?_, by simp [Buried]⟩
  · cases hst
  · simp [boot, hi] at ht

theorem known_step {t : Kernel} {a : Act} {es es' : List Event} (hk : Inv k) (ht : Inv t) (h : Outcome k a t es')
    (hp : Known es k) : Known (es ++ es') t := by
  have hchange : ∀ {u}, u < k.fresh → Change k es' u (t.page u) := h.change
  refine ⟨fun {u status} he => ?_, fun {i u} hi hst => ?_, fun {p u pid} he => ?_, fun {p p' u pid pid'} he he' => ?_,
    fun {i u} h0 hi => ?_, buried_step hk ht h hp.buried⟩
  · rcases List.mem_append.mp he with he | he
    · obtain ⟨hu, hst⟩ := hp.exited_stopped he
      rw [(hchange hu).frozen hk.cur_state hst]
      exact ⟨Nat.lt_of_lt_of_le hu (fresh_mono h), hst⟩
    · have hmem := mem_exits.mpr ⟨status, he⟩
      rcases h.exits with hx | ⟨hx, hst⟩ <;> rw [hx] at hmem
      · cases hmem
      · cases List.mem_singleton.mp hmem
        exact ⟨Nat.lt_of_lt_of_le (hk.slot_fresh hk.cur_slot) (fresh_mono h), hst⟩
  · rcases h.origin hi with ho | ⟨_, he⟩
    · rcases (hchange (hk.slot_fresh ho)).of_stopped hk.cur_state hst with hx | hx
      · rw [hx] at hst ⊢
        exact List.mem_append_left _ (hp.stopped_exited ho hst)
      · exact List.mem_append_right _ hx
    · obtain ⟨_, _, rfl, _⟩ := h.forked hk he
      exact absurd hst ht.cur_state
  · rcases List.mem_append.mp he with he | he
    · exact Nat.lt_of_lt_of_le (hp.forked_old he) (fresh_mono h)
    · obtain ⟨rfl, hf, _, _⟩ := h.forked hk he
      rw [hf]
      exact Nat.lt_succ_self _
  · rcases List.mem_append.mp he with he | he <;> rcases List.mem_append.mp he' with he' | he'
    · exact hp.forked_unique he he'
    · exact absurd (h.forked hk he').1 (Nat.ne_of_lt (hp.forked_old he))
    · exact absurd (h.forked hk he).1 (Nat.ne_of_lt (hp.forked_old he'))
    · have h1 := (h.forked hk he).2.2.2.2
      rw [(h.forked hk he').2.2.2.2, Option.some.injEq] at h1
      exact h1.symm
  · rcases h.origin hi with ho | ⟨_, he⟩
    · obtain ⟨p, he, hpar⟩ := hp.parent h0 ho
      refine ⟨p, List.mem_append_left _ he, ?_⟩
      rw [reaped_append, (hchange (hk.slot_fresh ho)).ppid]
      rcases hpar with hr | hr
      · exact Or.inl (List.mem_append_left _ hr)
      · rcases h.keeps hk hr with hr | ⟨_, hr⟩
        · exact Or.inr hr
        · exact Or.inl (List.mem_append_right _ (mem_reaped.mpr hr))
    · exact ⟨k.current, List.mem_append_right _ he, Or.inr (h.forked hk he).2.2.2.2⟩

theorem known_run (h : Run step boot xs k) : Known (events xs) k := by
  refine (h.induct (C := fun _ _ => True) (fun xs k => Inv k ∧ Known (events xs) k)
    ⟨inv_boot, known_boot⟩ ?_ (by simp)).2
  intro xs s a t es hi _ hst
  have ht := inv_step hi.1 hst
  rw [events_snoc]
  exact ⟨ht, known_step hi.1 ht (step_outcome hi.1 hst) hi.2⟩

/-! ## Once -/

/-- What a step frees was in the table, and is freed once. -/
theorem Outcome.reaped_nodup {t : Kernel} {a : Act} {es : List Event} (hk : Inv k) (h : Outcome k a t es) :
    (reaped es).Nodup ∧ ∀ u ∈ reaped es, ∃ i, k.tasks i = some u := by
  refine ⟨?_, fun u hu => ?_⟩
  · rcases h.waits with ⟨statLoc, c, _, _, _, rfl⟩ | hidle
    · rw [reaped_append, reaped_scanEvents, show reaped [_] = [] from rfl, List.append_nil]
      refine List.Nodup.filterMap (fun i j u hi hj => ?_) List.nodup_range
      exact hk.slot_inj (reapAt_eq_some.mp hi).1 (reapAt_eq_some.mp hj).1
    · rw [reaped_eq_nil hidle.no_free]
      exact List.nodup_nil
  · obtain ⟨k', he⟩ := mem_reaped.mp hu
    obtain ⟨⟨i, _, hr, _⟩, _⟩ := h.freed he
    exact ⟨i, (reapAt_eq_some.mp hr).1⟩

/-- **A task exits once and is freed once.** -/
theorem once_run (h : Run step boot xs k) : (exits (events xs)).Nodup ∧ (reaped (events xs)).Nodup := by
  suffices hP : Inv k ∧ Known (events xs) k ∧ (exits (events xs)).Nodup ∧ (reaped (events xs)).Nodup from hP.2.2
  refine h.induct (C := fun _ _ => True)
    (fun xs k => Inv k ∧ Known (events xs) k ∧ (exits (events xs)).Nodup ∧ (reaped (events xs)).Nodup)
    ⟨inv_boot, known_boot, List.nodup_nil, List.nodup_nil⟩ ?_ (by simp)
  intro xs s a t es ⟨hs, hkn, hex, hre⟩ _ hst
  have ht := inv_step hs hst
  have ho := step_outcome hs hst
  rw [events_snoc, exits_append, reaped_append]
  refine ⟨ht, known_step hs ht ho hkn, ?_, ?_⟩
  · rcases ho.exits with hx | ⟨hx, _⟩ <;> rw [hx]
    · rwa [List.append_nil]
    · refine List.nodup_append.mpr ⟨hex, List.nodup_singleton _, fun u hu v hv => ?_⟩
      rintro rfl
      cases List.mem_singleton.mp hv
      obtain ⟨status, he⟩ := mem_exits.mp hu
      exact hs.cur_state (hkn.exited_stopped he).2
  · obtain ⟨hnd, hin⟩ := ho.reaped_nodup hs
    refine List.nodup_append.mpr ⟨hre, hnd, fun u hu v hv => ?_⟩
    rintro rfl
    obtain ⟨k', he⟩ := mem_reaped.mp hu
    obtain ⟨i, hi⟩ := hin u hv
    exact (hkn.buried k' u he).2.2 i hi

/-! ## Reports -/

/-- In the step `x`, with the events `es` behind it, `do_wait` of `task` reports the exit of a child that `task` forked,
and the child and nothing else is freed and leaves the table. -/
def ReportsExit (es : List Event) (x : Step Kernel Act Event) (task : TaskId) (pid : Nat) (stat : Option Int) : Prop :=
  ∃ c status statLoc, .forked task c pid ∈ es ∧ .exited c status ∈ es ∧
    Scans x.before x.act statLoc ∧ stat = (if statLoc then some status else none) ∧
    x.before.tasks pid = some c ∧ x.after.tasks = Function.update x.before.tasks pid none ∧
    ∀ u, u ∈ reaped x.events ↔ u = c

/-- What the step returns from `do_wait` is as it should be, and without a return nothing leaves the table. -/
def Reported (es : List Event) (x : Step Kernel Act Event) : Prop :=
  (∀ task pid stat, .waited task pid stat ∈ x.events → ReportsExit es x task pid stat) ∧
    ((∀ task pid stat, .waited task pid stat ∉ x.events) →
      reaped x.events = [] ∧ ∀ i u, x.before.tasks i = some u → x.after.tasks i = some u)

/-- `c` is in the table, is stopped and carries the pid of the running task as its `ppid`. -/
def Ready (k : Kernel) (c : TaskId) : Prop :=
  ∃ i, k.tasks i = some c ∧ (k.page c).ppid = k.cur.pid ∧ (k.page c).state = .stopped

theorem ready_iff {c : TaskId} : Ready k c ↔ ∃ i, reapAt k i = some c :=
  exists_congr fun _ => reapAt_eq_some.symm

/-- At a scan one task at most is ready for the caller, and the task that forked it has not been freed. -/
def SingleReady (es : List Event) (k : Kernel) (a : Act) : Prop :=
  ∀ statLoc, Scans k a statLoc → ∀ c, Ready k c →
    (∀ d, Ready k d → d = c) ∧ ∀ p pid, .forked p c pid ∈ es → p ∉ reaped es

/-- With one task ready, a return empties its slot and no other. -/
theorem back_afterScan_tasks (hk : Inv k) {i : Nat} {c : TaskId} (hi : i < MAX_TASKS) (hr : reapAt k i = some c)
    (hone : ∀ d, Ready k d → d = c) :
    (back (afterScan k MAX_TASKS)).tasks = Function.update k.tasks i none := by
  funext j
  by_cases hj : j = i
  · subst hj
    simp [back, afterScan, hi, hr]
  · have hrj : reapAt k j = none := by
      cases hrj : reapAt k j with
      | none => rfl
      | some d =>
        have hd := hone d (ready_iff.mpr ⟨j, hrj⟩)
        rw [hd] at hrj
        exact absurd (hk.slot_inj (reapAt_eq_some.mp hrj).1 (reapAt_eq_some.mp hr).1) hj
    simp [back, afterScan, hj, hrj]

theorem ready_iff_reaped {a : Act} {t : Kernel} {es : List Event} {statLoc : Bool} {c : TaskId} (hk : Inv k)
    (h : Returns k a t es statLoc c) {u : TaskId} : u ∈ reaped es ↔ Ready k u := by
  obtain ⟨_, _, _, rfl⟩ := h
  rw [reaped_append, reaped_scanEvents, show reaped [_] = [] from rfl, List.append_nil, List.mem_filterMap, ready_iff]
  constructor
  · rintro ⟨i, _, hr⟩
    exact ⟨i, hr⟩
  · rintro ⟨i, hr⟩
    exact ⟨i, List.mem_range.mpr (hk.slot_lt (reapAt_eq_some.mp hr).1), hr⟩

/-- One step. -/
theorem reported_iff {a : Act} {t : Kernel} {es es' : List Event} (hk : Inv k) (hkn : Known es k)
    (h : Outcome k a t es') : Reported es ⟨k, a, es', t⟩ ↔ SingleReady es k a := by
  rcases h.waits with ⟨statLoc, c, hret⟩ | hidle
  · have hreaped : ∀ u, u ∈ reaped es' ↔ Ready k u := fun u => ready_iff_reaped hk hret
    obtain ⟨hs, hf, rfl, rfl⟩ := hret
    obtain ⟨i, hi, hr⟩ := lastFound_some hf
    obtain ⟨hc, hppid, hst⟩ := reapAt_eq_some.mp hr
    have hready : Ready k c := ready_iff.mpr ⟨i, hr⟩
    constructor
    · -- a good report names the forker, which runs and so has not been freed
      rintro ⟨hrep, _⟩ _ _ d hd
      obtain ⟨c', status, _, hfork, _, _, _, _, _, hone⟩ := hrep _ _ _ (List.mem_append_right _ List.mem_cons_self)
      have heq : ∀ u, Ready k u → u = c' := fun u hu => (hone u).mp ((hreaped u).mpr hu)
      refine ⟨fun u hu => (heq u hu).trans (heq d hd).symm, fun p pid hp hfreed => ?_⟩
      obtain ⟨k', hfreed⟩ := mem_reaped.mp hfreed
      rw [heq d hd] at hp
      rw [hkn.forked_unique hp hfork] at hfreed
      exact (hkn.buried k' _ hfreed).2.1 rfl
    · intro hsingle
      obtain ⟨hone, hpar⟩ := hsingle statLoc hs c hready
      refine ⟨fun task pid stat he => ?_, fun hno => absurd (List.mem_append_right _ List.mem_cons_self) (hno _ _ _)⟩
      rcases List.mem_append.mp he with he | he
      · obtain ⟨j, _, he | ⟨_, _, he⟩⟩ := mem_scanEvents.mp he <;> cases he
      · cases List.mem_singleton.mp he
        obtain ⟨p, hfork, hp⟩ := hkn.parent (by have := (hk.freed_spec hr).2.2; omega) hc
        rcases hp with hp | hp
        · exact absurd hp (hpar p i hfork)
        · -- the slot of the parent's pid is the running task's
          rw [hppid, hk.cur_slot, Option.some.injEq] at hp
          subst hp
          obtain rfl := hk.slot_pid hc
          exact ⟨c, _, statLoc, hfork, hkn.stopped_exited hc hst, hs, rfl, hc,
            back_afterScan_tasks hk hi hr hone, fun u => (hreaped u).trans
              ⟨hone u, fun hu => hu ▸ hready⟩⟩
  · refine iff_of_true ⟨fun task pid stat he => absurd he (hidle.no_wait _ _ _), fun _ =>
      ⟨reaped_eq_nil hidle.no_free, fun i u hi => ?_⟩⟩ fun statLoc hs c hc => ?_
    · rcases h.keeps hk hi with hi | ⟨_, k', he⟩
      · exact hi
      · exact absurd he (hidle.no_free k' u)
    · obtain ⟨i, hr⟩ := ready_iff.mp hc
      have := lastFound_eq_none.mp (hidle.no_find statLoc hs) i (hk.slot_lt (reapAt_eq_some.mp hr).1)
      rw [hr] at this
      cases this

/-- **Every exit is reported once and to the right parent** in a run exactly when at each scan of `do_wait` one stopped
task at most carries the caller's pid, and its parent has not been freed. Exits and frees are unique in every run. -/
theorem wait_reports_iff (h : Run step boot xs k) :
    ((∀ pre x post, xs = pre ++ x :: post → Reported (events pre) x) ↔
      ∀ pre x post, xs = pre ++ x :: post → SingleReady (events pre) x.before x.act) ∧
    (exits (events xs)).Nodup ∧ (reaped (events xs)).Nodup := by
  refine ⟨forall_congr' fun pre => forall_congr' fun x => forall_congr' fun post => forall_congr' fun hx => ?_,
    once_run h⟩
  obtain ⟨hpre, hst⟩ := (hx ▸ h).split
  exact reported_iff (inv_run hpre) (known_run hpre) (step_outcome (inv_run hpre) hst)

/-- A child exits and is waited for. -/
theorem wait_reports_iff_one : ∃ xs k, Run step boot xs k ∧
    acts xs = [.fork, .pause, .fork, .exit 7, .wait true] ∧
    ((∀ pre x post, xs = pre ++ x :: post → Reported (events pre) x) ↔
      ∀ pre x post, xs = pre ++ x :: post → SingleReady (events pre) x.before x.act) ∧
    (exits (events xs)).Nodup ∧ (reaped (events xs)).Nodup :=
  have ⟨xs, k, h, ha, _⟩ := Run.of_replay [.fork, .pause, .fork, .exit 7, .wait true] (fun _ _ => true)
    (by decide +kernel)
  ⟨xs, k, h, ha, wait_reports_iff h⟩

/-- Two children exit before their parent waits: one call frees both, and reports one of them. -/
theorem wait_frees_two : ∃ xs k, Run step boot xs k ∧
    acts xs = [.fork, .pause, .fork, .tick, .fork, .exit 5, .tick, .exit 6, .wait true] ∧
    ¬∀ pre x post, xs = pre ++ x :: post → Reported (events pre) x := by
  obtain ⟨xs, k, h, ha, hp⟩ : ∃ xs k, Run step boot xs k ∧
      acts xs = [.fork, .pause, .fork, .tick, .fork, .exit 5, .tick, .exit 6, .wait true] ∧
      xs.any (fun x => reaped x.events == [2, 3]) = true :=
    Run.of_replay _ (fun xs _ => xs.any fun x => reaped x.events == [2, 3]) (by decide +kernel)
  refine ⟨xs, k, h, ha, fun hall => ?_⟩
  obtain ⟨x, hx, hfreed⟩ := List.any_eq_true.mp hp
  rw [beq_iff_eq] at hfreed
  obtain ⟨pre, post, hsplit⟩ := List.append_of_mem hx
  obtain ⟨hrep, hidle⟩ := hall pre x post hsplit
  by_cases hw : ∃ task pid stat, .waited task pid stat ∈ x.events
  · obtain ⟨task, pid, stat, he⟩ := hw
    obtain ⟨c, _, _, _, _, _, _, _, _, hone⟩ := hrep task pid stat he
    rw [hfreed] at hone
    have h2 := (hone 2).mp (by simp)
    have h3 := (hone 3).mp (by simp)
    rw [← h2] at h3
    cases h3
  · have := (hidle fun task pid stat he => hw ⟨task, pid, stat, he⟩).1
    rw [hfreed] at this
    cases this

end Raampjes.Sched
