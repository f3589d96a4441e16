import Raampjes.Sched.Wait

/-!
# Fairness

`next_process` goes round the table, so a task that could run is passed over by each other task at most once, until a
fork puts its child in the processor at once, wherever the child's slot is.

- `ahead`: the slots before that of a task; `SchedChoice.ahead`: each choice of another task brings it nearer;
- `Outcome.bound`: what one step does; **`bounded_waiting`**: a task waits for at most 62 switches, and for 62 more for
  each fork meanwhile;
- **`fork_starves`**: without a bound on the forks there is no bound on the wait.
-/

namespace Raampjes.Sched

open Runs CyclicScan

variable {k t : Kernel} {p : Nat} {u : TaskId}

/-- How many slots `next_process` looks at before slot `p`. -/
def ahead (k : Kernel) (p : Nat) : Nat := offset MAX_TASKS (k.cur.pid + 1) p

def Event.isFork : Event → Bool
  | .forked _ _ _ => true
  | _ => false

/-- The switches of `sched`. -/
def switches (es : List Event) : Nat := es.countP Event.isSwitch

def forks (es : List Event) : Nat := es.countP Event.isFork

/-- The steps that call `sched`. -/
def schedCalls (xs : List (Step Kernel Act Event)) : Nat := xs.countP fun x => (schedEntry x.before x.act).isSome

/-! ## One choice -/

/-- The choice is the task in slot `p`, or brings it nearer. -/
theorem SchedChoice.ahead {next : TaskId} (hs : ∀ {i t}, k.tasks i = some t → (k.page t).pid = i) (hp : p < MAX_TASKS)
    (hr : Running k p u) (h : SchedChoice k next) :
    next = u ∨ Sched.ahead { k with current := next } p < Sched.ahead k p := by
  rcases h with ⟨i, hi, hnext, hfirst⟩ | ⟨hnone, _⟩
  · have hspec : (offset MAX_TASKS (k.cur.pid + 1) p + (k.cur.pid + 1)) % MAX_TASKS = p := offset_spec hp
    have hge : i ≤ Sched.ahead k p := by
      by_contra hlt
      refine hfirst (Sched.ahead k p) (by omega) u ?_
      rwa [Sched.ahead, hspec]
    rcases Nat.eq_or_lt_of_le hge with he | hlt
    · have hslot := hnext.1
      rw [he, Sched.ahead, hspec] at hslot
      exact Or.inl (Option.some.inj (hslot.symm.trans hr.1))
    · have hpid : ({ k with current := next } : Kernel).cur.pid = (i + (k.cur.pid + 1)) % MAX_TASKS := hs hnext.1
      refine Or.inr ?_
      rw [Sched.ahead, hpid]
      exact offset_next hp hlt
  · exact absurd hr (hnone p hp u)

/-! ## One step -/

/-- A task that is not the running one stays in its slot and can still run. -/
theorem Outcome.running {a : Act} {es : List Event} (hk : Inv k) (h : Outcome k a t es) (hr : Running k p u)
    (hne : u ≠ k.current) : Running t p u := by
  obtain ⟨hslot, hrun⟩ := hr
  constructor
  · refine (h.keeps hk hslot).resolve_right fun hreap => ?_
    have hst := (reapAt_eq_some.mp hreap.1).2.2
    rw [hrun] at hst
    cases hst
  · have hchange := h.change (hk.slot_fresh hslot)
    generalize t.page u = x at hchange
    cases hchange with
    | same => exact hrun
    | woken _ => rfl
    | slept hu _ => exact absurd hu hne
    | back hu => exact absurd hu hne
    | stopped hu _ => exact absurd hu hne

theorem Event.Quiet.not_counted {e : Event} (h : e.Quiet) : e.isSwitch = false ∧ e.isFork = false := by
  refine ⟨h.isSwitch, ?_⟩
  cases e <;> first | rfl | exact h.elim

/-- Each call of `sched` is logged once, and nothing else is. -/
theorem Outcome.counted {a : Act} {es : List Event} (hk : Inv k) (h : Outcome k a t es) :
    switches es = if (schedEntry k a).isSome then 1 else 0 := by
  obtain ⟨henters, hstays⟩ := h.dispatches hk
  rw [switches, List.countP_eq_length_filter]
  cases he : schedEntry k a with
  | some k' =>
    rw [(henters k' he).once]
    rfl
  | none =>
    rw [(hstays he).none]
    rfl

theorem counts_zero {es : List Event} (h : ∀ e ∈ es, e.isSwitch = false ∧ e.isFork = false) :
    switches es = 0 ∧ forks es = 0 := by
  unfold switches forks
  rw [List.countP_eq_zero, List.countP_eq_zero]
  exact ⟨fun e he => by simp [(h e he).1], fun e he => by simp [(h e he).2]⟩

theorem counts_scan (k : Kernel) : switches (scanEvents k) = 0 ∧ forks (scanEvents k) = 0 := by
  refine counts_zero fun e he => ?_
  obtain ⟨i, _, rfl | ⟨_, _, rfl⟩⟩ := mem_scanEvents.mp he
  · exact ⟨rfl, rfl⟩
  · exact ⟨rfl, rfl⟩

theorem ahead_congr (h : t.cur.pid = k.cur.pid) : ahead t p = ahead k p := by
  rw [ahead, h, ahead]

/-- The running task's pid is the same before `sched` chooses. -/
theorem asleep_ahead (c : Cont) : ahead (asleep k c) p = ahead k p := by
  refine ahead_congr ?_
  simp [asleep, Kernel.cur]

theorem exitWoken_ahead (status : Int) : ahead (exitWoken k status) p = ahead k p := by
  refine ahead_congr ?_
  have hcur : (exitWoken k status).current = k.current := by
    unfold exitWoken
    split <;> rfl
  rw [Kernel.cur, hcur, exitWoken_cur]

/-- A choice of another task is one switch, and brings the task nearer. -/
theorem SchedChoice.bound {next : TaskId} {es : List Event} (hs : ∀ {i t}, k.tasks i = some t → (k.page t).pid = i)
    (hp : p < MAX_TASKS) (hr : Running k p u) (h : SchedChoice k next) (hne : u ≠ next)
    (hes : switches es = 0 ∧ forks es = 0) :
    switches (es ++ [.switch k next]) + Sched.ahead { k with current := next } p ≤ Sched.ahead k p ∧
      forks (es ++ [.switch k next]) = 0 := by
  have hless := (h.ahead hs hp hr).resolve_left fun e => hne e.symm
  unfold switches forks at hes ⊢
  rw [List.countP_append, List.countP_append, hes.1, hes.2]
  refine ⟨?_, rfl⟩
  show 0 + 1 + _ ≤ _
  omega

/-- **One step**, when the task is neither running before nor after. -/
theorem Outcome.bound {a : Act} {es : List Event} (hk : Inv k) (h : Outcome k a t es) (hr : Running k p u)
    (hne : u ≠ k.current) (hne' : u ≠ t.current) :
    switches es + ahead t p ≤ ahead k p + (MAX_TASKS - 2) * forks es := by
  have hp := hk.slot_lt hr.1
  have hquiet : ∀ {t' : Kernel} {es' : List Event}, switches es' = 0 ∧ forks es' = 0 → t'.cur.pid = k.cur.pid →
      switches es' + ahead t' p ≤ ahead k p + (MAX_TASKS - 2) * forks es' := fun hes hcur => by
    rw [hes.1, ahead_congr hcur]
    omega
  have hback : ∀ k' : Kernel, (back k').cur.pid = k'.cur.pid := fun k' => by simp [back, Kernel.cur]
  cases h with
  | @fork newPid _ _ hlt hnone _ =>
    have hpid : (Sched.forked k newPid).cur.pid = newPid := by simp [Sched.forked, Kernel.cur, forkTask]
    have hslot : p ≠ newPid := fun e => by
      rw [← e, hr.1] at hnone
      cases hnone
    have hfar := offset_behind hp hlt hslot
    have hnear : ahead (Sched.forked k newPid) p ≤ MAX_TASKS - 2 := by rwa [ahead, hpid]
    show 0 + ahead (Sched.forked k newPid) p ≤ ahead k p + (MAX_TASKS - 2) * 1
    omega
  | @sleep _ c es next hs hn =>
    have hes : switches es = 0 ∧ forks es = 0 := counts_zero fun e he => by
      obtain ⟨i, _, rfl⟩ := hs.events e he
      exact ⟨rfl, rfl⟩
    have hr' : Running (asleep k c) p u := by
      refine ⟨hr.1, ?_⟩
      rw [asleep, Kernel.setTask_page_of_ne _ _ _ hne]
      exact hr.2
    obtain ⟨hle, hf⟩ := hn.bound (hk.asleep_pid c) hp hr' hne' hes
    rw [hf]
    exact hle.trans (by rw [asleep_ahead]; omega)
  | tick _ hn =>
    have hquiet : switches [] = 0 ∧ forks [] = 0 := ⟨rfl, rfl⟩
    obtain ⟨hle, hf⟩ := hn.bound hk.slot_pid hp hr hne' hquiet
    exact hle.trans (Nat.le_add_right _ _)
  | @exit status next _ h0 h1 hn =>
    have hpage : (exitStopped k status).page u = k.page u := Kernel.setTask_page_of_ne _ _ _ hne
    have hr' : Running (exitWoken k status) p u := by
      refine ⟨by rw [exitWoken_tasks]; exact hr.1, ?_⟩
      rcases exitWoken_page k status u with hu | ⟨_, hu⟩
      · rw [hu, hpage]
        exact hr.2
      · rw [hu]
    have hquiet : switches [.exited k.current status, .examined k.cur.ppid (k.tasks k.cur.ppid)] = 0 ∧
        forks [.exited k.current status, .examined k.cur.ppid (k.tasks k.cur.ppid)] = 0 := ⟨rfl, rfl⟩
    obtain ⟨hle, hf⟩ := hn.bound (exitWoken_spec hk status h0 h1).1 hp hr' hne' hquiet
    rw [exitWoken_ahead] at hle
    exact hle.trans (Nat.le_add_right _ _)
  | reap _ _ =>
    obtain ⟨hs, hf⟩ := counts_scan k
    refine hquiet ⟨?_, ?_⟩ (hback _)
    · unfold switches at hs ⊢
      rw [List.countP_append, hs]
      rfl
    · unfold forks at hf ⊢
      rw [List.countP_append, hf]
      rfl
  | got _ _ =>
    refine hquiet (counts_zero fun e he => ?_) ?_
    · rw [List.mem_singleton.mp he]
      exact ⟨rfl, rfl⟩
    · rw [Kernel.cur, setInput_page, setInput_current]
      exact hback k
  | writeInput _ => exact hquiet ⟨rfl, rfl⟩ rfl
  | report _ hq => exact hquiet (counts_zero fun e he => (hq.quiet e he).not_counted) rfl
  | @key c _ =>
    refine hquiet (counts_zero fun e he => (keyEvents_quiet c e he).not_counted) ?_
    rw [Kernel.cur, keyed_current]
    exact (keyed_change [] c k.current).pid

/-! ## Runs -/

/-- Every call of `sched` in a run is a switch. -/
theorem switches_run {xs : List (Step Kernel Act Event)} (hk : Inv k) (h : Run step k xs t) :
    switches (events xs) = schedCalls xs := by
  have hrun : Inv t ∧ switches (events xs) = schedCalls xs := by
    refine h.induct (C := fun _ _ => True) (fun xs t => Inv t ∧ switches (events xs) = schedCalls xs) ⟨hk, rfl⟩ ?_ (by simp)
    intro xs s a t es hi _ hst
    refine ⟨inv_step hi.1 hst, ?_⟩
    have hone := (step_outcome hi.1 hst).counted hi.1
    have hsofar := hi.2
    rw [switches] at hone hsofar ⊢
    rw [schedCalls] at hsofar ⊢
    rw [events_snoc, List.countP_append, List.countP_append, hsofar, List.countP_singleton]
    dsimp only
    rw [hone]
  exact hrun.2

/-- A task that could run, and is never switched to, can run at every step. -/
theorem running_run {xs : List (Step Kernel Act Event)} (hk : Inv k) (hr : Running k p u) (h : Run step k xs t)
    (hnot : ∀ x ∈ xs, x.before.current ≠ u) : Running t p u ∧ ∀ x ∈ xs, Running x.before p u := by
  have hstep : ∀ s a s' es, Inv s ∧ Running s p u → s.current ≠ u → step s a = some (s', es) → Inv s' ∧ Running s' p u :=
    fun s a s' es hi hne hst =>
      ⟨inv_step hi.1 hst, (step_outcome hi.1 hst).running hi.1 hi.2 (Ne.symm hne)⟩
  have hend := h.inv (C := fun s _ => s.current ≠ u) (fun s => Inv s ∧ Running s p u) ⟨hk, hr⟩ hstep hnot
  have hsteps := h.inv_steps (C := fun s _ => s.current ≠ u) (fun s => Inv s ∧ Running s p u) ⟨hk, hr⟩ hstep hnot
  exact ⟨hend.2, fun x hx => (hsteps x hx).1.2⟩

/-- **Bounded waiting.** From any state that a run reaches, while a task that could run is not switched to, `sched` is
called, and switches, at most 62 times, and 62 times more for each fork; and the task can still run. -/
theorem bounded_waiting {pre xs : List (Step Kernel Act Event)} (hpre : Run step boot pre k) (hr : Running k p u)
    (h : Run step k xs t) (hnot : ∀ x ∈ xs, x.before.current ≠ u) (hend : t.current ≠ u) :
    Running t p u ∧ switches (events xs) = schedCalls xs ∧
      switches (events xs) ≤ (MAX_TASKS - 2) * (forks (events xs) + 1) := by
  have hk := inv_run hpre
  have hp := hk.slot_lt hr.1
  have hrun : Inv t ∧ Running t p u ∧ (t.current ≠ u → (k.current ≠ u) ∧
      switches (events xs) + ahead t p ≤ ahead k p + (MAX_TASKS - 2) * forks (events xs)) := by
    refine h.induct (C := fun s _ => s.current ≠ u) (fun xs t => Inv t ∧ Running t p u ∧ (t.current ≠ u →
      (k.current ≠ u) ∧ switches (events xs) + ahead t p ≤ ahead k p + (MAX_TASKS - 2) * forks (events xs)))
      ⟨hk, hr, fun hne => ⟨hne, by simp [switches, forks]⟩⟩ ?_ hnot
    intro xs s a t es hi hne hst
    obtain ⟨hinv, hrs, hbound⟩ := hi
    have ho := step_outcome hinv hst
    refine ⟨inv_step hinv hst, ho.running hinv hrs (Ne.symm hne), fun hne' => ?_⟩
    obtain ⟨hfirst, hsofar⟩ := hbound hne
    have hstep := ho.bound hinv hrs (Ne.symm hne) (Ne.symm hne')
    refine ⟨hfirst, ?_⟩
    unfold switches forks at hsofar hstep ⊢
    rw [events_snoc, List.countP_append, List.countP_append, Nat.mul_add]
    dsimp only
    omega
  obtain ⟨_, hrt, hbound⟩ := hrun
  obtain ⟨hfirst, hsofar⟩ := hbound hend
  have hnear : ahead k p ≤ MAX_TASKS - 2 := by
    have hslot : p ≠ k.cur.pid := fun e => by
      have hslot := hr.1
      rw [e, hk.cur_slot] at hslot
      exact hfirst (Option.some.inj hslot)
    exact offset_behind hp (hk.slot_lt hk.cur_slot) hslot
  refine ⟨hrt, switches_run hk h, ?_⟩
  rw [Nat.mul_add]
  omega

/-- Three tasks; the third switches to the first and passes over the second. -/
theorem bounded_waiting_tick : ∃ pre k xs t, Run step boot pre k ∧ acts pre = [.fork, .fork] ∧ Run step k xs t ∧
    acts xs = [.tick] ∧ Running t 1 1 ∧ switches (events xs) ≤ (MAX_TASKS - 2) * (forks (events xs) + 1) := by
  have h1 : Run step boot _ (forked boot 1) := Run.refl.snoc (show step boot .fork = some (_, _) from rfl)
  have h2 : Run step boot _ (forked (forked boot 1) 2) :=
    h1.snoc (show step (forked boot 1) .fork = some (_, _) from rfl)
  have h3 : Run step (forked (forked boot 1) 2) _ { forked (forked boot 1) 2 with current := 0 } :=
    Run.refl.snoc (show step (forked (forked boot 1) 2) .tick = some (_, _) from rfl)
  obtain ⟨hr, _, hle⟩ := bounded_waiting h2 (show Running _ 1 1 from ⟨rfl, rfl⟩) h3
    (fun x hx => by rw [List.mem_singleton.mp hx]; decide) (by decide)
  exact ⟨_, _, _, _, h2, rfl, h3, rfl, hr, hle⟩

/-! ## Forks -/

/-- `sched` switches to the task of the first slot that is not empty, when it can run. -/
theorem sched_to {next : TaskId} {i : Nat} (hs : ∀ {i t}, k.tasks i = some t → (k.page t).pid = i) (hi : i < MAX_TASKS)
    (hr : Running k ((i + (k.cur.pid + 1)) % MAX_TASKS) next)
    (hfirst : ∀ j < i, k.tasks ((j + (k.cur.pid + 1)) % MAX_TASKS) = none) :
    sched k = some ({ k with current := next }, [.switch k next]) := by
  have hround := (nextRunning_round k _ _).mpr ⟨next, hr, rfl⟩
  have hscan : nextRunning k (k.cur.pid + 1) = some (k.page next).pid := by
    refine CyclicScan.findSome_range_eq_some.mpr ⟨i, hi, hround, fun j hj => ?_⟩
    refine (nextRunning_round_none k _).mpr fun t ht => ?_
    cases (hfirst j hj).symm.trans ht.1
  rw [sched, nextProcess, hscan, Option.getD_some, hs hr.1, hr.1]
  rfl

/-- Four tasks that can run, in the first four slots; that of slot 2 does. -/
structure Round (k : Kernel) : Prop where
  tasks : ∀ i < MAX_TASKS, k.tasks i = if i < 4 then some i else none
  current : k.current = 2
  fresh : 4 ≤ k.fresh
  ready : ∀ i : Nat, i < 4 → (k.page i).pid = i ∧ (k.page i).state = .running ∧ (k.page i).cont = .user

section Round

variable (hk : Inv k) (hround : Round k)

include hround

theorem Round.cur : k.cur.pid = 2 ∧ k.cur.state = .running ∧ k.cur.cont = .user := by
  rw [Kernel.cur, hround.current]
  exact hround.ready 2 (by decide)

theorem Round.forks : step k .fork = some (forked k 4, [.forked 2 k.fresh 4]) := by
  have hempty : findEmptyTask k = 4 := by
    have hfind : (List.range MAX_TASKS).find? (fun i => (k.tasks i).isNone) = some 4 := by
      refine List.find?_range_eq_some.mpr ⟨?_, by decide, fun j hj => ?_⟩
      · rw [hround.tasks 4 (by decide)]
        rfl
      · rw [hround.tasks j (by unfold MAX_TASKS; omega), if_pos (by omega)]
        rfl
    rw [findEmptyTask, hfind]
    rfl
  unfold step
  rw [hround.cur.2.2]
  simp only [doFork, hempty, hround.current]
  rfl

end Round

/-- The same four tasks, the running one that of slot `c`, and a stopped child of the third. -/
structure Zombie (k : Kernel) (c f : Nat) : Prop where
  tasks : ∀ i < MAX_TASKS, k.tasks i = if i < 4 then some i else if i = 4 then some f else none
  current : k.current = c
  child : 4 ≤ f ∧ f < k.fresh
  ready : ∀ i : Nat, i < 4 → (k.page i).pid = i ∧ (k.page i).state = .running ∧ (k.page i).cont = .user
  stopped : (k.page f).ppid = 2 ∧ (k.page f).state = .stopped

section Zombie

variable {c f : Nat}

theorem Zombie.slot (h : Zombie k c f) {i : Nat} (hi : i < 4) : k.tasks i = some i := by
  rw [h.tasks i (by unfold MAX_TASKS; omega), if_pos hi]

theorem Zombie.tick (hk : Inv k) (h : Zombie k c f) (hc : c < 2) :
    ∃ t es, step k .tick = some (t, es) ∧ Zombie t (c + 1) f ∧ switches es = 1 := by
  obtain ⟨hpid, hrun, hcont⟩ := h.ready c (by omega)
  have hcur : k.cur = k.page c := by rw [Kernel.cur, h.current]
  have hslot : (0 + (k.cur.pid + 1)) % MAX_TASKS = c + 1 := by
    rw [hcur, hpid, MAX_TASKS]
    omega
  have hsched := @sched_to k (c + 1) 0 hk.slot_pid (by decide)
    (by rw [hslot]; exact ⟨h.slot (by omega), (h.ready (c + 1) (by omega)).2.1⟩) fun j hj => absurd hj (Nat.not_lt_zero j)
  refine ⟨{ k with current := c + 1 }, [.switch k (c + 1)], ?_, ⟨h.tasks, rfl, h.child, h.ready, h.stopped⟩, rfl⟩
  unfold step
  rw [hcur, hcont]
  exact hsched

/-- `do_wait` of the third task reaps the child. -/
theorem Zombie.waits (hk : Inv k) (h : Zombie k 2 f) : ∃ t es, step k (.wait false) = some (t, es) ∧ Round t ∧ switches es = 0 := by
  obtain ⟨hpid, hrun, hcont⟩ := h.ready 2 (by decide)
  have hcur : k.cur = k.page 2 := by rw [Kernel.cur, h.current]
  have hchild : k.tasks 4 = some f := by rw [h.tasks 4 (by decide)]; rfl
  have hreap : reapAt k 4 = some f := reapAt_eq_some.mpr ⟨hchild, by rw [hcur, hpid]; exact h.stopped.1, h.stopped.2⟩
  have hrest : ∀ i < 4, reapAt k i = none := fun i hi => by
    by_contra hsome
    obtain ⟨u, hu⟩ := Option.ne_none_iff_exists'.mp hsome
    obtain ⟨hu, _, hst⟩ := reapAt_eq_some.mp hu
    obtain rfl := Option.some.inj ((h.slot hi).symm.trans hu)
    rw [(h.ready i hi).2.1] at hst
    cases hst
  obtain ⟨d, hd⟩ : ∃ d, lastFound k MAX_TASKS = some d := Option.ne_none_iff_exists'.mp fun hnone => by
    rw [lastFound_eq_none.mp hnone 4 (by decide)] at hreap
    cases hreap
  have hscan := scanTo_eq hk.slot_pid MAX_TASKS
  rw [hd, Option.elim_some, Option.elim_some] at hscan
  have hstep : step k (.wait false) = some (back (afterScan k MAX_TASKS), scanEvents k ++
      [.waited k.current (k.page d).pid none]) := by
    unfold step
    rw [hcur, hcont]
    simp only [doWait, hscan, ne_eq, hk.found_pid hd, not_false_eq_true, ↓reduceIte]
    rfl
  have hes : switches (scanEvents k ++ [.waited k.current (k.page d).pid none]) = 0 := by
    rw [switches, List.countP_append, show List.countP Event.isSwitch (scanEvents k) = 0 from (counts_scan k).1]
    rfl
  refine ⟨_, _, hstep, ⟨fun i hi => ?_, h.current, h.child.1.trans h.child.2.le, fun i hi => ?_⟩, hes⟩
  · show (if i < MAX_TASKS ∧ (reapAt k i).isSome then none else k.tasks i) = _
    rcases Nat.lt_trichotomy i 4 with hlt | rfl | hgt
    · rw [hrest i hlt, if_neg (by simp), h.slot hlt, if_pos hlt]
    · rw [hreap, if_pos ⟨by decide, rfl⟩]
      rfl
    · have hnone : k.tasks i = none := by rw [h.tasks i hi, if_neg (by omega), if_neg (by omega)]
      have hno : reapAt k i = none := by rw [reapAt, hnone]; rfl
      rw [hno, if_neg (by simp), hnone, if_neg (by omega)]
  · by_cases h2 : i = 2
    · subst h2
      rw [back, show (afterScan k MAX_TASKS).current = 2 from h.current, Kernel.setTask_page, Kernel.cur,
        show (afterScan k MAX_TASKS).current = 2 from h.current]
      exact ⟨hpid, hrun, rfl⟩
    · rw [back, show (afterScan k MAX_TASKS).current = 2 from h.current, Kernel.setTask_page_of_ne _ _ _ h2]
      exact h.ready i hi

/-- The child exits, and the first task is next. -/
theorem Round.child_exits (hk : Inv (forked k 4)) (h : Round k) :
    ∃ t es, step (forked k 4) (.exit 0) = some (t, es) ∧ Zombie t 0 k.fresh ∧ switches es = 1 := by
  obtain ⟨hpid, hrun, hcont⟩ := h.cur
  have hfresh : ∀ i : Nat, i < 4 → i ≠ k.fresh := fun i hi e => absurd h.fresh (by rw [← e]; exact Nat.not_le.mpr hi)
  have hcur : (forked k 4).cur = forkTask k 4 := Function.update_self ..
  generalize hs : exitStopped (forked k 4) 0 = s
  have hcurrent : s.current = k.fresh := by rw [← hs]; rfl
  have hpage : ∀ i : Nat, i < 4 → s.page i = k.page i := fun i hi => by
    rw [← hs, exitStopped, Kernel.setTask_page_of_ne _ _ _ (show i ≠ (forked k 4).current from hfresh i hi)]
    exact Function.update_of_ne (hfresh i hi) _ _
  have hstopped : s.page k.fresh = { forkTask k 4 with exitStatus := 0, state := .stopped } := by
    rw [← hs, exitStopped, hcur]
    exact Function.update_self ..
  have htasks : ∀ i < MAX_TASKS, s.tasks i = if i < 4 then some i else if i = 4 then some k.fresh else none := by
    intro i hi
    show s.tasks i = _
    rw [← hs]
    show Function.update k.tasks 4 (some k.fresh) i = _
    by_cases h4 : i = 4
    · rw [h4, Function.update_self]
      rfl
    · rw [if_neg h4, ← h.tasks i hi, Function.update_of_ne h4]
  have hscur : s.cur = { forkTask k 4 with exitStatus := 0, state := .stopped } := by rw [Kernel.cur, hcurrent, hstopped]
  have hwoken : exitWoken (forked k 4) 0 = s := by
    have hnone : waitingParent s = none := by
      have hparent : s.tasks s.cur.ppid = some 2 := by
        rw [hscur]
        exact (congrArg s.tasks hpid).trans (htasks 2 (by decide))
      rw [waitingParent, hparent, Option.filter_some, hpage 2 (by decide), (h.ready 2 (by decide)).2.1]
      rfl
    rw [exitWoken, hs, hnone]
  have hwake : wakeParent ((forked k 4).setTask (forked k 4).current
      { (forked k 4).cur with exitStatus := 0, state := .stopped }) = some s := hwoken ▸ wakeParent_eq (forked k 4) 0
  have hspid : ∀ {i t}, s.tasks i = some t → (s.page t).pid = i := fun hi => by
    rw [← hs] at hi ⊢
    exact hk.exitStopped_pid 0 hi
  have hspid4 : s.cur.pid = 4 := by rw [hscur]; rfl
  have hnext : (59 + (s.cur.pid + 1)) % MAX_TASKS = 0 := by rw [hspid4]; rfl
  have hsched := @sched_to s 0 59 hspid (by decide)
    (by rw [hnext]; exact ⟨htasks 0 (by decide), by rw [hpage 0 (by decide)]; exact (h.ready 0 (by decide)).2.1⟩)
    (fun j hj => by
      have hslot : (j + (s.cur.pid + 1)) % MAX_TASKS = j + 5 := by
        rw [hspid4]
        exact Nat.mod_eq_of_lt (by unfold MAX_TASKS; omega)
      rw [hslot, htasks _ (by unfold MAX_TASKS; omega), if_neg (by omega), if_neg (by omega)])
  have hstep : step (forked k 4) (.exit 0) = some ({ s with current := 0 }, [.exited k.fresh 0,
      .examined (forked k 4).cur.ppid ((forked k 4).tasks (forked k 4).cur.ppid), .switch s 0]) := by
    have hcont4 : (forked k 4).cur.cont = .user := by rw [hcur]; rfl
    have hpid4 : (forked k 4).cur.pid = 4 := by rw [hcur]; rfl
    unfold step
    rw [hcont4]
    have hlow : ¬((forked k 4).cur.pid = 0 ∨ (forked k 4).cur.pid = 1) := by rw [hpid4]; decide
    simp only [doExit, if_neg hlow, hwake, Option.bind_eq_bind, Option.bind_some, hsched]
    rfl
  refine ⟨_, _, hstep, ⟨htasks, rfl, ⟨h.fresh, ?_⟩, fun i hi => ?_, ?_⟩, rfl⟩
  · show k.fresh < s.fresh
    rw [← hs]
    exact Nat.lt_succ_self _
  · show (s.page i).pid = i ∧ (s.page i).state = .running ∧ (s.page i).cont = .user
    rw [hpage i hi]
    exact h.ready i hi
  · show (s.page k.fresh).ppid = 2 ∧ (s.page k.fresh).state = .stopped
    rw [hstopped]
    exact ⟨hpid, rfl⟩

end Zombie

/-- The third task forks, its child exits, the others have their turns, and it waits for the child. -/
theorem Round.again (hk : Inv k) (h : Round k) : ∃ xs t, Run step k xs t ∧ Inv t ∧ Round t ∧
    (∀ x ∈ xs, x.before.current ≠ 3) ∧ switches (events xs) = 3 := by
  have hst1 := h.forks
  have hk1 := inv_step hk hst1
  obtain ⟨k2, es2, hst2, h2, hs2⟩ := h.child_exits hk1
  have hk2 := inv_step hk1 hst2
  obtain ⟨k3, es3, hst3, h3, hs3⟩ := h2.tick hk2 (by decide)
  have hk3 := inv_step hk2 hst3
  obtain ⟨k4, es4, hst4, h4, hs4⟩ := h3.tick hk3 (by decide)
  have hk4 := inv_step hk3 hst4
  obtain ⟨k5, es5, hst5, h5, hs5⟩ := h4.waits hk4
  have hrun := ((((Run.refl.snoc hst1).snoc hst2).snoc hst3).snoc hst4).snoc hst5
  refine ⟨_, k5, hrun, inv_step hk4 hst5, h5, fun x hx => ?_, ?_⟩
  · simp only [List.nil_append, List.cons_append, List.mem_cons, List.not_mem_nil, or_false] at hx
    rcases hx with rfl | rfl | rfl | rfl | rfl
    · rw [h.current]
      decide
    · exact Ne.symm (ne_of_lt h.fresh)
    · rw [h2.current]
      decide
    · rw [h3.current]
      decide
    · rw [h4.current]
      decide
  · unfold switches at hs2 hs3 hs4 hs5 ⊢
    simp only [events_snoc, events_nil, List.countP_append, hs2, hs3, hs4, hs5]
    rfl

theorem round_reached : ∃ pre k, Run step boot pre k ∧ Round k := by
  obtain ⟨pre, k, h, _, hp⟩ := @Run.of_replay _ _ _ step boot
    [.fork, .tick, .fork, .tick, .fork, .tick, .tick, .tick]
    (fun _ k => decide ((∀ i < MAX_TASKS, k.tasks i = if i < 4 then some i else none) ∧ k.current = 2 ∧ 4 ≤ k.fresh ∧
      ∀ i : Nat, i < 4 → (k.page i).pid = i ∧ (k.page i).state = .running ∧ (k.page i).cont = .user)) (by decide +kernel)
  obtain ⟨htasks, hcurrent, hfresh, hready⟩ := of_decide_eq_true hp
  exact ⟨pre, k, h, htasks, hcurrent, hfresh, hready⟩

/-- **Forks starve.** There are runs in which a task that can run all the time waits for any number of switches: each fork starts the
child at once, and when the child is gone the parent is reached before the task. -/
theorem fork_starves (n : Nat) : ∃ pre k xs t u, Run step boot pre k ∧ Run step k xs t ∧
    (∀ x ∈ xs, Running x.before 3 u ∧ x.before.current ≠ u) ∧ Running t 3 u ∧ t.current ≠ u ∧
    switches (events xs) = 3 * n := by
  obtain ⟨pre, k, hpre, hround⟩ := round_reached
  have hrounds : ∃ xs t, Run step k xs t ∧ Inv t ∧ Round t ∧ (∀ x ∈ xs, x.before.current ≠ 3) ∧
      switches (events xs) = 3 * n := by
    induction n with
    | zero => exact ⟨[], k, Run.refl, inv_run hpre, hround, fun x hx => absurd hx List.not_mem_nil, rfl⟩
    | succ n ih =>
      obtain ⟨xs, s, hrun, hinv, hs, hne, hcount⟩ := ih
      obtain ⟨ys, t, hrun', hinv', ht, hne', hcount'⟩ := hs.again hinv
      refine ⟨xs ++ ys, t, hrun.trans hrun', hinv', ht, fun x hx => ?_, ?_⟩
      · exact (List.mem_append.mp hx).elim (hne x) (hne' x)
      · unfold switches events at hcount hcount' ⊢
        rw [List.flatMap_append, List.countP_append, hcount, hcount']
        rfl
  obtain ⟨xs, t, hrun, _, ht, hne, hcount⟩ := hrounds
  have hready : Running k 3 3 :=
    ⟨(hround.tasks 3 (by decide)).trans (if_pos (by decide)), (hround.ready 3 (by decide)).2.1⟩
  obtain ⟨hend, hsteps⟩ := running_run (inv_run hpre) hready hrun hne
  refine ⟨pre, k, xs, t, 3, hpre, hrun, fun x hx => ⟨hsteps x hx, hne x hx⟩, hend, ?_, hcount⟩
  rw [ht.current]
  decide

end Raampjes.Sched
