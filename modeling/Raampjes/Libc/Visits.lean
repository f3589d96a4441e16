import Raampjes.Libc.Undo

/-!
# What `malloc` looks at

The loop of `malloc` with a log of the nodes that it looks at and of its calls of `sbrk`.

- `mallocLogged_result`: the log changes nothing;
- `logged_around`: one time around the list, which stops at a block that is large enough or calls `alloc_free` at the end;
- `HeapInv.logged_clean`: at most two times around, with `sbrk` called once in between and only if it must be;
- `malloc_clean`: every call after a run of unwrapped calls; `malloc_not_clean`: after others the loop may never end.
-/

namespace Raampjes.Libc

open CyclicList Tiling Runs

variable {base size blockSize : Nat} {h : Heap} {free : List Block} {live : List Live} {s : State}

/-- A round of the loop looks at a node; at the end of the list it may call `sbrk`. -/
inductive Look
  | node (p : Nat)
  | sbrk
  deriving DecidableEq, Repr

/-- The loop of `malloc`, with its log. -/
def mallocLoopLogged (size blockSize : Nat) : Nat → Heap → Nat → Nat → List Nat → Option (List Look × Nat × Heap)
  | 0, _, _, _, _ => none
  | n + 1, h, prev, p, answers =>
    if h.size p = blockSize then
      some ([.node p], ptrAdd p 1, { h.setNext prev (h.next p) with freeP := prev })
    else if h.size p > blockSize then
      let (q, h) := splitBlock h p blockSize
      some ([.node p], ptrAdd q 1, { h with freeP := prev })
    else if p = h.freeP then
      match allocFree h size answers with
      | none => none
      | some (q, h, answers) =>
        if q = 0 then some ([.node p, .sbrk], 0, h)
        else (mallocLoopLogged size blockSize n h q (h.next q) answers).map fun r => (.node p :: .sbrk :: r.1, r.2)
    else (mallocLoopLogged size blockSize n h p (h.next p) answers).map fun r => (.node p :: r.1, r.2)

/-- `malloc`, with its log. -/
def mallocLogged (base : Nat) (h : Heap) (size : Nat) (answers : List Nat) : Option (List Look × Nat × Heap) :=
  if size = 0 then some ([], 0, h)
  else mallocLoopLogged size ((size - 1) / sizeofHeader + 2) rounds (withList base h) (withList base h).freeP
    ((withList base h).next (withList base h).freeP) answers

/-! ## The log -/

theorem mallocLoopLogged_result (n : Nat) (prev p : Nat) (answers : List Nat) :
    (mallocLoopLogged size blockSize n h prev p answers).map Prod.snd =
      mallocLoop size blockSize n h prev p answers := by
  induction n generalizing h prev p answers with
  | zero => rfl
  | succ n ih =>
    rw [mallocLoopLogged, mallocLoop]
    by_cases heq : h.size p = blockSize
    · rw [if_pos heq, if_pos heq]
      rfl
    rw [if_neg heq, if_neg heq]
    by_cases hgt : h.size p > blockSize
    · rw [if_pos hgt, if_pos hgt]
      rfl
    rw [if_neg hgt, if_neg hgt]
    by_cases hp : p = h.freeP
    · rw [if_pos hp, if_pos hp]
      cases allocFree h size answers with
      | none => rfl
      | some r =>
        dsimp only
        by_cases hz : r.1 = 0
        · rw [if_pos hz, if_pos hz]
          rfl
        · rw [if_neg hz, if_neg hz, ← ih, Option.map_map]
          rfl
    · rw [if_neg hp, if_neg hp, ← ih, Option.map_map]
      rfl

/-- **The log changes nothing.** -/
theorem mallocLogged_result (answers : List Nat) :
    (mallocLogged base h size answers).map Prod.snd = malloc base h size answers := by
  unfold mallocLogged malloc
  by_cases h0 : size = 0
  · rw [if_pos h0, if_pos h0]
    rfl
  · rw [if_neg h0, if_neg h0, mallocLoopLogged_result]
    rfl

/-- How a time around the list ends. -/
inductive Around (size blockSize : Nat) (h : Heap) (answers nodes : List Nat) (log : List Look) (r : Nat × Heap) : Prop
  | found {seen : List Nat} : seen.Sublist nodes → log = seen.map .node → (∃ y ∈ nodes, blockSize ≤ h.size y) →
      Around size blockSize h answers nodes log r
  | refused {h' : Heap} {rest : List Nat} : (∀ y ∈ nodes, h.size y < blockSize) →
      allocFree h size answers = some (0, h', rest) → log = nodes.map .node ++ [.sbrk] → r = (0, h') →
      Around size blockSize h answers nodes log r
  | again {n q : Nat} {h' : Heap} {rest : List Nat} {log' : List Look} : (∀ y ∈ nodes, h.size y < blockSize) →
      allocFree h size answers = some (q, h', rest) → q ≠ 0 → log = nodes.map .node ++ .sbrk :: log' →
      mallocLoopLogged size blockSize n h' q (h'.next q) rest = some (log', r) →
      Around size blockSize h answers nodes log r

/-- A node that is too small comes in front. -/
theorem Around.cons {answers nodes : List Nat} {log : List Look} {r : Nat × Heap} {y : Nat}
    (hy : h.size y < blockSize) (ha : Around size blockSize h answers nodes log r) :
    Around size blockSize h answers (y :: nodes) (.node y :: log) r := by
  have hall : (∀ z ∈ nodes, h.size z < blockSize) → ∀ z ∈ y :: nodes, h.size z < blockSize := fun hs z hz => by
    rcases List.mem_cons.mp hz with rfl | hz
    · exact hy
    · exact hs z hz
  cases ha with
  | found hsub hlog hlarge =>
    obtain ⟨z, hz, hle⟩ := hlarge
    exact .found (hsub.cons_cons y) (by rw [hlog, List.map_cons]) ⟨z, List.mem_cons_of_mem _ hz, hle⟩
  | refused hsmall halloc hlog hr => exact .refused (hall hsmall) halloc (by rw [hlog]; rfl) hr
  | again hsmall halloc hq hlog hrest => exact .again (hall hsmall) halloc hq (by rw [hlog]; rfl) hrest

/-- One round: the node is large enough, or the list ends here, or the loop goes on to the next node. -/
theorem logged_round {n prev p : Nat} {answers : List Nat} {log : List Look} {r : Nat × Heap}
    (heq : mallocLoopLogged size blockSize (n + 1) h prev p answers = some (log, r)) :
    blockSize ≤ h.size p ∧ log = [.node p] ∨ p = h.freeP ∧ Around size blockSize h answers [p] log r ∨
      h.size p < blockSize ∧ p ≠ h.freeP ∧ ∃ log', log = .node p :: log' ∧
        mallocLoopLogged size blockSize n h p (h.next p) answers = some (log', r) := by
  rw [mallocLoopLogged] at heq
  by_cases hle : blockSize ≤ h.size p
  · left
    refine ⟨hle, ?_⟩
    by_cases hexact : h.size p = blockSize
    · rw [if_pos hexact] at heq
      exact (Prod.mk.inj (Option.some.inj heq)).1.symm
    · rw [if_neg hexact, if_pos (by omega)] at heq
      exact (Prod.mk.inj (Option.some.inj heq)).1.symm
  right
  rw [not_le] at hle
  rw [if_neg hle.ne, if_neg (by omega)] at heq
  by_cases hp : p = h.freeP
  · left
    refine ⟨hp, ?_⟩
    have hsmall : ∀ y ∈ [p], h.size y < blockSize := fun y hy => by rwa [List.mem_singleton.mp hy]
    rw [if_pos hp] at heq
    cases ha : allocFree h size answers with
    | none =>
      rw [ha] at heq
      cases heq
    | some res =>
      obtain ⟨q, h', rest⟩ := res
      rw [ha] at heq
      dsimp only at heq
      by_cases hz : q = 0
      · rw [if_pos hz] at heq
        obtain ⟨rfl, rfl⟩ := Prod.mk.inj (Option.some.inj heq)
        exact .refused hsmall (hz ▸ ha) rfl rfl
      · rw [if_neg hz] at heq
        obtain ⟨⟨log', r'⟩, hrest, hlog⟩ := Option.map_eq_some_iff.mp heq
        obtain ⟨rfl, rfl⟩ := Prod.mk.inj hlog
        exact .again hsmall ha hz rfl hrest
  · right
    rw [if_neg hp] at heq
    obtain ⟨⟨log', r'⟩, hrest, hlog⟩ := Option.map_eq_some_iff.mp heq
    obtain ⟨rfl, rfl⟩ := Prod.mk.inj hlog
    exact ⟨hle, hp, log', rfl, hrest⟩

/-- **One time around the list.** -/
theorem logged_around {l : List Nat} {n prev : Nat} {answers : List Nat} {log : List Look} {r : Nat × Heap}
    (hl : Linked h.next (prev :: (l ++ [h.freeP]))) (hno : h.freeP ∉ l)
    (heq : mallocLoopLogged size blockSize n h prev (h.next prev) answers = some (log, r)) :
    Around size blockSize h answers (l ++ [h.freeP]) log r := by
  induction l generalizing prev n log with
  | nil =>
    have hnext : h.next prev = h.freeP := (List.isChain_cons_cons.mp hl).1
    cases n with
    | zero => cases heq
    | succ n =>
      rw [hnext] at heq
      rcases logged_round heq with ⟨hle, rfl⟩ | ⟨_, ha⟩ | ⟨_, hne, _⟩
      · have hsub : [h.freeP].Sublist ([] ++ [h.freeP]) := List.Sublist.refl _
        exact .found hsub rfl ⟨_, List.mem_singleton_self _, hle⟩
      · exact ha
      · exact absurd rfl hne
  | cons y l ih =>
    obtain ⟨hnext, hl⟩ := List.isChain_cons_cons.mp hl
    obtain ⟨hyne, hno⟩ := not_or.mp (mt List.mem_cons.mpr hno)
    cases n with
    | zero => cases heq
    | succ n =>
      rw [hnext] at heq
      rcases logged_round heq with ⟨hle, rfl⟩ | ⟨hy, _⟩ | ⟨hlt, _, log', rfl, hrest⟩
      · have hsub : [y].Sublist (y :: (l ++ [h.freeP])) := by simp
        exact .found hsub rfl ⟨y, List.mem_cons_self, hle⟩
      · exact absurd hy.symm hyne
      · exact (ih hl hno hrest).cons hlt

/-! ## A clean call -/

/-- What a call of `malloc` comes to, with the answer `p` of `sbrk`. -/
inductive Outcome (base : Nat) (s : State) (bytes p : Nat) : Nat × Heap → Prop
  | found {h : Heap} {free : List Block} {b : Block} : Libc.Fits s.heap bytes →
      HeapInv base h (⟨b, bytes⟩ :: s.live) free → h.brks = s.heap.brks → Outcome base s bytes p (ptrAdd b.addr 1, h)
  | refused : ¬ Libc.Fits s.heap bytes → p = sbrkFailed → Outcome base s bytes p (0, withList base s.heap)
  | extended {h : Heap} {free : List Block} {b : Block} : ¬ Libc.Fits s.heap bytes → p ≠ sbrkFailed →
      HeapInv base h (⟨b, bytes⟩ :: s.live) free → h.brks = (p, requested bytes * sizeofHeader) :: s.heap.brks →
      Outcome base s bytes p (ptrAdd b.addr 1, h)

/-- **`malloc` returns**: with a block from the list, without memory, or with a block from a new region. -/
theorem Sound.outcome (hbase : 0 < base) (hs : Sound base s) {bytes p : Nat} (h0 : 0 < bytes)
    (hp : Fits s.heap bytes ∨ Answer base s.heap.brks bytes p) (rest : List Nat) :
    ∃ r, malloc base s.heap bytes (p :: rest) = some r ∧ Outcome base s bytes p r := by
  obtain ⟨free, hi, hbrks, hfits⟩ := hs.withList hbase
  rw [malloc_withList h0]
  by_cases hfit : Fits s.heap bytes
  · obtain ⟨b, h', free', heq, hinv, hbrks'⟩ := hi.search hbase bytes (p :: rest) ((hfits bytes).mp hfit)
      (hi.rep.length_le.trans_lt (by decide) : free.length < rounds)
    exact ⟨_, heq, .found hfit hinv (hbrks'.trans hbrks)⟩
  · have hsmall := mt (hfits bytes).mpr hfit
    by_cases hfail : p = sbrkFailed
    · subst hfail
      exact ⟨_, hi.refused bytes rest hsmall, .refused hfit rfl⟩
    · have hfresh := (hp.resolve_left hfit).resolve_left hfail
      rw [← hbrks] at hfresh
      obtain ⟨b, h', free', heq, hinv, hbrks'⟩ := hi.extended hbase rest hfail hfresh hsmall
      exact ⟨_, heq, .extended hfit hfail hinv (by rw [hbrks', hbrks])⟩

/-- **A call is clean**: the loop looks at each node two times at most, and calls `sbrk` once at most, just if no block
is large enough; memory is refused to the program only if `sbrk` refuses, and then the heap is as before. -/
structure Clean (base : Nat) (h : Heap) (bytes p : Nat) (log : List Look) (r : Nat × Heap) : Prop where
  visits : ∀ q, log.count (.node q) ≤ 2
  once : log.count .sbrk ≤ 1
  asks : .sbrk ∈ log ↔ ¬ Fits h bytes
  served : Fits h bytes ∨ p ≠ sbrkFailed → r.1 ≠ 0
  refused : ¬ Fits h bytes → p = sbrkFailed → r = (0, withList base h)

theorem count_node_le {seen nodes : List Nat} (hsub : seen.Sublist nodes) (hn : nodes.Nodup) (q : Nat) :
    (seen.map Look.node).count (.node q) ≤ 1 := by
  have hnodup : (seen.map Look.node).Nodup := (hn.sublist hsub).map fun _ _ h => Look.node.inj h
  exact List.nodup_iff_count_le_one.mp hnodup _

theorem count_sbrk (seen : List Nat) : (seen.map Look.node).count .sbrk = 0 := List.count_eq_zero.mpr (by simp)

/-- The nodes behind `free_p`, each once; a block is large enough just if some node is. -/
theorem Rep.nodes (hr : Rep base h free) : ∃ l, Linked h.next (h.freeP :: (l ++ [h.freeP])) ∧ h.freeP ∉ l ∧
    (l ++ [h.freeP]).Nodup ∧ ∀ n, 0 < n → ((∃ y ∈ l ++ [h.freeP], n ≤ h.size y) ↔ ∃ b ∈ free, n ≤ b.size) := by
  obtain ⟨l, hl, hperm, hno⟩ := hr.read_cursor
  have hperm : (l ++ [h.freeP]).Perm (base :: addrs free) := (List.perm_append_singleton _ _).trans hperm
  refine ⟨l, hl, hno, hperm.nodup_iff.mpr hr.nodup, fun n hn => ⟨fun ⟨y, hy, hle⟩ => ?_, fun ⟨b, hb, hle⟩ => ?_⟩⟩
  · rcases List.mem_cons.mp (hperm.mem_iff.mp hy) with rfl | hy
    · rw [hr.size_base] at hle
      omega
    · obtain ⟨b, hb, rfl⟩ := mem_addrs.mp hy
      exact ⟨b, hb, by rwa [← hr.size b hb]⟩
  · exact ⟨b.addr, hperm.mem_iff.mpr (List.mem_cons_of_mem _ (mem_addrs.mpr ⟨b, hb, rfl⟩)), by rwa [hr.size b hb]⟩

/-- The search that succeeds goes around the list once at most. -/
theorem Rep.logged_found (hr : Rep base h free) (hpos : 0 < blockSize) (hlarge : ∃ b ∈ free, blockSize ≤ b.size)
    {n : Nat} {answers : List Nat} {log : List Look} {r : Nat × Heap}
    (heq : mallocLoopLogged size blockSize n h h.freeP (h.next h.freeP) answers = some (log, r)) :
    (∀ q, log.count (.node q) ≤ 1) ∧ log.count .sbrk = 0 := by
  obtain ⟨l, hl, hno, hnodup, hiff⟩ := hr.nodes
  obtain ⟨y, hy, hle⟩ := (hiff blockSize hpos).mpr hlarge
  cases logged_around hl hno heq with
  | found hsub hlog _ =>
    rw [hlog]
    exact ⟨count_node_le hsub hnodup, count_sbrk _⟩
  | refused hsmall => exact absurd (hsmall y hy) (not_lt.mpr hle)
  | again hsmall => exact absurd (hsmall y hy) (not_lt.mpr hle)

/-- **The log of the loop**, whether it calls `sbrk` or not. -/
theorem HeapInv.logged (hbase : 0 < base) (hi : HeapInv base h live free) {bytes p : Nat} {rest : List Nat}
    (hp : (∃ b ∈ free, (bytes - 1) / sizeofHeader + 2 ≤ b.size) ∨ Answer base h.brks bytes p) {n : Nat} {log : List Look} {r : Nat × Heap}
    (heq : mallocLoopLogged bytes ((bytes - 1) / sizeofHeader + 2) n h h.freeP (h.next h.freeP) (p :: rest) =
      some (log, r)) : (∀ q, log.count (.node q) ≤ 2) ∧ log.count .sbrk ≤ 1 ∧
      (.sbrk ∈ log ↔ ¬ ∃ b ∈ free, (bytes - 1) / sizeofHeader + 2 ≤ b.size) := by
  have hpos : 0 < (bytes - 1) / sizeofHeader + 2 := Nat.succ_pos _
  by_cases hlarge : ∃ b ∈ free, (bytes - 1) / sizeofHeader + 2 ≤ b.size
  · obtain ⟨hnode, hsbrk⟩ := hi.rep.logged_found hpos hlarge heq
    refine ⟨fun q => (hnode q).trans (by decide), hsbrk.le.trans (by decide), iff_of_false ?_ (not_not.mpr hlarge)⟩
    exact List.count_eq_zero.mp hsbrk
  obtain ⟨l, hl, hno, hnodup, hiff⟩ := hi.rep.nodes
  have hnodes := count_node_le (List.Sublist.refl _) hnodup
  cases logged_around hl hno heq with
  | found _ _ hfound => exact absurd ((hiff _ hpos).mp hfound) hlarge
  | refused _ _ hlog _ =>
    subst hlog
    refine ⟨fun q => ?_, ?_, iff_of_true (by simp) hlarge⟩
    · have hsbrk : [Look.sbrk].count (.node q) = 0 := List.count_eq_zero.mpr (by simp)
      rw [List.count_append, hsbrk]
      exact (hnodes q).trans (by decide)
    · rw [List.count_append, count_sbrk]
      decide
  | again _ halloc hq hlog hrest =>
    rename_i n q h' rest' log'
    subst hlog
    have hfail : p ≠ sbrkFailed := by
      rintro rfl
      rw [allocFree, if_pos rfl] at halloc
      exact hq (Prod.mk.inj (Option.some.inj halloc)).1.symm
    obtain ⟨h₁, free₁, hinv, hret, _, c, hc, hle⟩ := allocFree_inv hbase hi rest hfail
      ((hp.resolve_left hlarge).resolve_left hfail)
    obtain ⟨rfl, hh⟩ := Prod.mk.inj (Option.some.inj (hret.symm.trans halloc))
    obtain ⟨rfl, rfl⟩ := Prod.mk.inj hh
    have hfits : (bytes - 1) / sizeofHeader + 2 ≤ requested bytes := by
      obtain ⟨h1, h2, _⟩ := requested_spec bytes
      simp only [ALLOC_SIZE, sizeofHeader] at h2 ⊢
      omega
    obtain ⟨hnode, hsbrk⟩ := hinv.rep.logged_found hpos ⟨c, hc, hfits.trans hle⟩ hrest
    refine ⟨fun q => ?_, ?_, iff_of_true (by simp) hlarge⟩
    · have h1 := hnodes q
      have h2 := hnode q
      rw [List.count_append, List.count_cons_of_ne (by simp)]
      omega
    · rw [List.count_append, count_sbrk, List.count_cons_self, hsbrk]

/-- **A call in a sound state is clean.** -/
theorem Sound.logged_clean (hbase : 0 < base) (hs : Sound base s) {bytes p : Nat} (h0 : 0 < bytes)
    (hp : Fits s.heap bytes ∨ Answer base s.heap.brks bytes p) (rest : List Nat) : ∃ log r,
    mallocLogged base s.heap bytes (p :: rest) = some (log, r) ∧ malloc base s.heap bytes (p :: rest) = some r ∧
      Clean base s.heap bytes p log r := by
  obtain ⟨r, hmalloc, hout⟩ := hs.outcome hbase h0 hp rest
  have hres : (mallocLogged base s.heap bytes (p :: rest)).map Prod.snd = some r := by
    rw [mallocLogged_result, hmalloc]
  obtain ⟨⟨log, r'⟩, hlog, hr⟩ := Option.map_eq_some_iff.mp hres
  obtain rfl : r' = r := hr
  obtain ⟨free, hi, hbrks, hfits⟩ := hs.withList hbase
  rw [← hbrks, hfits] at hp
  have hloop := hlog
  rw [mallocLogged, if_neg h0.ne'] at hloop
  obtain ⟨hvisits, honce, hasks⟩ := hi.logged hbase hp hloop
  refine ⟨log, r', hlog, hmalloc, hvisits, honce, hasks.trans (not_congr (hfits bytes).symm), fun hserved => ?_,
    fun hno hfail => ?_⟩
  · cases hout with
    | found _ hinv _ => exact hinv.ptr_ne List.mem_cons_self h0
    | refused hno hfail => exact absurd hserved (not_or.mpr ⟨hno, not_not.mpr hfail⟩)
    | extended _ _ hinv _ => exact hinv.ptr_ne List.mem_cons_self h0
  · cases hout with
    | found hfit _ _ => exact absurd hfit hno
    | refused _ _ => rfl
    | extended _ hne _ _ => exact absurd hfail hne

/-- **`malloc` terminates and fails cleanly.** After a run of unwrapped calls, every call of `malloc` returns, whether
`sbrk` refuses or hands out the bytes that are asked for, and is clean. -/
theorem malloc_clean (hbase : 0 < base) (mem : Nat → Header) {xs : List (Runs.Step State Act Nat)}
    (hrun : Run (step base) (start mem) xs s) (hx : ∀ x ∈ xs, Allowed base x.before x.act ∧ Unwrapped x.before x.act)
    {bytes p : Nat} (h0 : 0 < bytes) (hp : Answer base s.heap.brks bytes p) (rest : List Nat) :
    ∃ log r, mallocLogged base s.heap bytes (p :: rest) = some (log, r) ∧
      malloc base s.heap bytes (p :: rest) = some r ∧ Clean base s.heap bytes p log r :=
  (run_sound_unwrapped hbase mem hrun hx).logged_clean hbase h0 (Or.inr hp) rest

/-- A large block is asked for after a small one. -/
theorem malloc_clean_two : ∃ s, step 4096 (start fun _ => ⟨0, 0⟩) (.malloc 10 [8192]) = some (s, [12272]) ∧
    ∃ log r, mallocLogged 4096 s.heap 10000 [16384] = some (log, r) ∧
      malloc 4096 s.heap 10000 [16384] = some r ∧ Clean 4096 s.heap 10000 16384 log r := by
  have hruns : ((step 4096 (start fun _ => ⟨0, 0⟩) (.malloc 10 [8192])).any fun r =>
      r.2 == [12272] && r.1.heap.brks == [(8192, 4096)]) = true := by decide +kernel
  obtain ⟨⟨s, es⟩, hs, hruns⟩ := (Option.any_eq_true _ _).mp hruns
  simp only [Bool.and_eq_true, beq_iff_eq] at hruns
  obtain ⟨rfl, hbrks⟩ := hruns
  have hrun := Run.snoc Run.refl hs
  refine ⟨s, hs, malloc_clean (by decide) _ hrun (fun x hx => ?_) (by decide) (Or.inr ?_) []⟩
  · obtain rfl := List.mem_singleton.mp hx
    exact ⟨⟨by decide, by decide, 8192, [], rfl, Or.inr fun _ => ⟨by decide, by decide, by simp [start]⟩⟩,
      Or.inl (by decide)⟩
  · rw [hbrks]
    exact ⟨by decide, by decide, by decide⟩

/-! ## A call that never returns -/

/-- A node that is linked to itself holds the loop, unless the list ends there. -/
theorem mallocLoop_stuck {p : Nat} (hself : h.next p = p) (hsmall : h.size p < blockSize) (hne : p ≠ h.freeP)
    (answers : List Nat) (n prev : Nat) : mallocLoop size blockSize n h prev p answers = none := by
  induction n generalizing prev with
  | zero => rfl
  | succ n ih =>
    rw [mallocLoop, if_neg hsmall.ne, if_neg (by omega), if_neg hne, hself]
    exact ih p

/-- The program writes inside of a block that it holds. -/
def writesHeld (s : State) : Act → Bool
  | .write p _ => s.live.any fun l => l.block.addr + sizeofHeader ≤ p && p + sizeofHeader ≤ l.block.stop
  | _ => true

/-- After a request whose product wraps, `malloc` hands out a block that holds the list head. The program writes to it,
and the next call goes round and round, however long it runs and whatever `sbrk` answers. -/
theorem malloc_not_clean : ∃ xs s, Run (step 4096) (start fun _ => ⟨0, 0⟩) xs s ∧
    acts xs = [.malloc 613566759 [8192], .malloc 4104 [sbrkFailed], .write 4096 ⟨4104, 0⟩, .write 4104 ⟨4104, 0⟩] ∧
    Fresh 4096 [] 8192 (sbrkArg 613566759) ∧ (∀ x ∈ xs, Allowed 4096 x.before x.act) ∧
    ∀ answers, malloc 4096 s.heap 100 answers = none ∧
      ∀ n, mallocLoop 100 14 n s.heap s.heap.freeP (s.heap.next s.heap.freeP) answers = none := by
  obtain ⟨xs, s, h, ha, hp⟩ : ∃ xs s, Run (step 4096) (start fun _ => ⟨0, 0⟩) xs s ∧
      acts xs = [.malloc 613566759 [8192], .malloc 4104 [sbrkFailed], .write 4096 ⟨4104, 0⟩, .write 4104 ⟨4104, 0⟩] ∧
      ((xs.all fun x => writesHeld x.before x.act) && s.heap.freeP == 4096 && s.heap.next 4096 == 4104 &&
        s.heap.next 4104 == 4104 && s.heap.size 4104 == 0) = true :=
    Run.of_replay _ (fun xs s => (xs.all fun x => writesHeld x.before x.act) && s.heap.freeP == 4096 &&
      s.heap.next 4096 == 4104 && s.heap.next 4104 == 4104 && s.heap.size 4104 == 0) (by decide +kernel)
  simp only [Bool.and_eq_true, beq_iff_eq] at hp
  obtain ⟨⟨⟨⟨hwrites, hfree⟩, hhead⟩, hself⟩, hsize⟩ := hp
  have hstuck : ∀ answers n, mallocLoop 100 14 n s.heap s.heap.freeP (s.heap.next s.heap.freeP) answers = none :=
    fun answers n => by
      rw [hfree, hhead]
      exact mallocLoop_stuck hself (by omega) (by omega) answers n 4096
  refine ⟨xs, s, h, ha, ⟨by decide, by decide, by simp⟩, fun x hx => ?_, fun answers => ⟨?_, hstuck answers⟩⟩
  · have hheld := List.all_eq_true.mp hwrites x hx
    have hact : x.act ∈ acts xs := List.mem_map_of_mem hx
    have hwrite : ∀ p words, x.act = .write p words → Allowed 4096 x.before x.act := fun p words heq => by
      rw [heq] at hheld ⊢
      obtain ⟨l, hl, hin⟩ := List.any_eq_true.mp hheld
      exact ⟨l, hl, by simpa using hin⟩
    rw [ha] at hact
    simp only [List.mem_cons, List.not_mem_nil, or_false] at hact
    rcases hact with heq | heq | heq | heq
    · rw [heq]
      exact ⟨by decide, by decide, 8192, [], rfl, Or.inr fun hlt => absurd hlt (by decide)⟩
    · rw [heq]
      exact ⟨by decide, by decide, sbrkFailed, [], rfl, Or.inl rfl⟩
    · exact hwrite _ _ heq
    · exact hwrite _ _ heq
  · rw [malloc_withList (by decide), withList, if_neg (by omega)]
    exact hstuck answers rounds

end Raampjes.Libc
