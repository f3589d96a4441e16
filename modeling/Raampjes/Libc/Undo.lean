import Raampjes.Libc.Sizes

/-!
# `free` undoes `malloc`

A free list has a gap after each of its blocks, so the blocks are determined by the addresses that are free
(`HeapInv.free_unique`). `malloc` without `sbrk` and `free` of its result leave these addresses as they were; so the list
is the same, wherever `free_p` points (`free_undoes_malloc`).
-/

namespace Raampjes.Libc

open CyclicList Tiling Runs

variable {base : Nat} {h h' : Heap} {free free' : List Block} {live : List Live} {s t : State}

/-- The list runs from its head through these blocks. -/
structure Listed (base : Nat) (h : Heap) (free : List Block) : Prop where
  cyclic : Cyclic h.next (base :: addrs free)
  nodup : (base :: addrs free).Nodup
  size : ∀ b ∈ free, h.size b.addr = b.size

theorem Rep.listed (hr : Rep base h free) : Listed base h free := ⟨hr.cyclic, hr.nodup, hr.size⟩

/-- The blocks of a heap are its own. -/
theorem Listed.unique (hl : Listed base h free) (hl' : Listed base h free') : free = free' := by
  have haddrs := hl.cyclic.unique hl'.cyclic hl.nodup hl'.nodup
  have hmap : ∀ {bs : List Block}, (∀ b ∈ bs, h.size b.addr = b.size) →
      bs = (addrs bs).map fun x => ⟨x, h.size x⟩ := by
    intro bs hbs
    rw [addrs, List.map_map]
    refine (List.map_id bs).symm.trans (List.map_congr_left fun b hb => ?_)
    simp [hbs b hb]
  rw [hmap hl.size, haddrs, ← hmap hl'.size]

theorem Rep.gapped (hr : Rep base h free) : Gapped (spans free) := by
  refine ⟨fun i hi => ?_, List.pairwise_map.mpr hr.gaps⟩
  obtain ⟨b, hb, rfl⟩ := List.mem_map.mp hi
  exact (hr.bounded b hb).addr_lt.2

/-- A block is where it starts and where it stops. -/
theorem spans_injective : Function.Injective spans := by
  refine List.map_injective_iff.mpr fun b c hbc => ?_
  obtain ⟨haddr, hstop⟩ := Prod.mk.inj hbc
  obtain ⟨a, n⟩ := b
  obtain ⟨a', n'⟩ := c
  simp only [Block.stop, sizeofHeader] at haddr hstop
  simp only [Block.mk.injEq]
  omega

/-- **The free blocks are determined** by the live blocks and the regions. -/
theorem HeapInv.free_unique (hi : HeapInv base h live free) (hi' : HeapInv base h' live free')
    (hbrks : h'.brks = h.brks) : free = free' := by
  have htiles' := hi'.tiles
  rw [hbrks] at htiles'
  exact spans_injective (hi.tiles.gapped_unique hi.rep.gapped hi'.rep.gapped htiles')

/-- `malloc` returns without an answer of `sbrk`: it has found a block. -/
theorem malloc_served (hbase : 0 < base) (hs : Sound base s) {bytes : Nat} (h0 : 0 < bytes) {r : Nat × Heap}
    (hm : malloc base s.heap bytes [] = some r) : ∃ free b h' free', HeapInv base s.heap s.live free ∧
      r = (ptrAdd b.addr 1, h') ∧ HeapInv base h' (⟨b, bytes⟩ :: s.live) free' ∧ h'.brks = s.heap.brks := by
  obtain ⟨h, free, hi, _, hfits, hloop⟩ := hs.malloc_loop hbase h0
  have hfit : Fits s.heap bytes := by
    by_contra hno
    obtain ⟨n, _, hask⟩ := hi.ask bytes [] (mt hfits.mpr hno)
    rw [hloop, hask] at hm
    cases hm
  rcases hs with hu | ⟨free, hi⟩
  · exact absurd hu.freeP hfit.1
  · obtain ⟨h₁, free₁, hi₁, hbrks₁, hfits₁, hloop₁⟩ := Sound.malloc_loop hbase (Or.inr ⟨free, hi⟩) h0
    obtain ⟨b, h', free', heq, hinv, hbrks⟩ := hi₁.search hbase bytes [] (hfits₁.mp hfit)
      (hi₁.rep.length_le.trans_lt (by decide) : free₁.length < rounds)
    rw [hloop₁] at hm
    exact ⟨free, b, h', free', hi, Option.some.inj (hm.symm.trans heq), hinv, hbrks.trans hbrks₁⟩

theorem run_sound_unwrapped (hbase : 0 < base) (mem : Nat → Header) {xs : List (Runs.Step State Act Nat)}
    (hrun : Run (step base) (start mem) xs s) (hx : ∀ x ∈ xs, Allowed base x.before x.act ∧ Unwrapped x.before x.act) :
    Sound base s := by
  refine hrun.inv (C := fun s a => Allowed base s a ∧ Unwrapped s a) (Sound base) (Or.inl ⟨rfl, rfl, rfl⟩)
    (fun s a t es hs ha hst => ?_) hx
  obtain ⟨t', es', heq, hsound, _⟩ := step_unwrapped hbase hs ha.1 ha.2
  obtain ⟨rfl, rfl⟩ := Prod.mk.inj (Option.some.inj (heq.symm.trans hst))
  exact hsound

/-- **`free` undoes `malloc`.** After a run of unwrapped calls, a block that `malloc` found in the list and that is given
back at once leaves the same free blocks in the same order. -/
theorem free_undoes_malloc (hbase : 0 < base) (mem : Nat → Header) {xs : List (Runs.Step State Act Nat)}
    (hrun : Run (step base) (start mem) xs s) (hx : ∀ x ∈ xs, Allowed base x.before x.act ∧ Unwrapped x.before x.act)
    {bytes p : Nat} (h0 : 0 < bytes) (hserved : step base s (.malloc bytes []) = some (t, [p])) :
    ∃ u, step base t (.free p) = some (u, []) ∧ u.live = s.live ∧
      ∃ free, Listed base s.heap free ∧ Listed base u.heap free := by
  have hs := run_sound_unwrapped hbase mem hrun hx
  obtain ⟨r, hm, _⟩ := Option.map_eq_some_iff.mp hserved
  obtain ⟨free, b, h', free', hi, rfl, hinv, hbrks⟩ := malloc_served hbase hs h0 hm
  have hst := step_block hm h0 hinv
  obtain ⟨rfl, hp⟩ := Prod.mk.inj (Option.some.inj (hserved.symm.trans hst))
  obtain rfl := List.singleton_inj.mp hp
  obtain ⟨h'', free'', heq, hinv', hbrks', _⟩ := free_inv hbase hinv List.mem_cons_self
  rw [List.erase_cons_head] at hinv'
  obtain rfl := hi.free_unique hinv' (hbrks'.trans hbrks)
  refine ⟨⟨h'', s.live⟩, ?_, rfl, free, hi.rep.listed, hinv'.rep.listed⟩
  simp only [step, List.find?_cons_of_pos, beq_self_eq_true, heq, Option.map_some, List.erase_cons_head]

/-- A small block is cut from a larger one and given back. -/
theorem free_undoes_malloc_small : ∃ s t u, step 4096 s (.malloc 100 []) = some (t, [12160]) ∧
    step 4096 t (.free 12160) = some (u, []) ∧ ∃ free, Listed 4096 s.heap free ∧ Listed 4096 u.heap free := by
  have hruns : ((step 4096 (start fun _ => ⟨0, 0⟩) (.malloc 10 [8192])).any fun r =>
      (step 4096 r.1 (.malloc 100 [])).any fun r' => r'.2 == [12160]) = true := by decide +kernel
  obtain ⟨⟨s, es⟩, hs, hruns⟩ := (Option.any_eq_true _ _).mp hruns
  obtain ⟨⟨t, es'⟩, ht, hes⟩ := (Option.any_eq_true _ _).mp hruns
  obtain rfl : es' = [12160] := by simpa using hes
  have hrun := Run.snoc Run.refl hs
  obtain ⟨u, hu, _, hfree⟩ := free_undoes_malloc (by decide) _ hrun (fun x hx => by
    obtain rfl := List.mem_singleton.mp hx
    exact ⟨⟨by decide, by decide, 8192, [], rfl, Or.inr fun _ => ⟨by decide, by decide, by simp [start]⟩⟩,
      Or.inl (by decide)⟩) (by decide) ht
  exact ⟨s, t, u, ht, hu, hfree⟩

/-- After a request whose product wraps, a free block can reach around the address space: `malloc` cuts its tail off in
front of it, and `free` leaves the tail in the list as a block of its own. -/
theorem free_not_undone : ∃ s es t u, step 4096 (start fun _ => ⟨0, 0⟩) (.malloc 613566759 [8192]) = some (s, es) ∧
    Fresh 4096 [] 8192 (sbrkArg 613566759) ∧ step 4096 s (.malloc 1 []) = some (t, [8192]) ∧
    step 4096 t (.free 8192) = some (u, []) ∧ (∃ free, Listed 4096 s.heap free) ∧
    ¬ ∃ free, Listed 4096 s.heap free ∧ Listed 4096 u.heap free := by
  have hruns : ((step 4096 (start fun _ => ⟨0, 0⟩) (.malloc 613566759 [8192])).any fun r =>
      (step 4096 r.1 (.malloc 1 [])).any fun r' => r'.2 == [8192] && (step 4096 r'.1 (.free 8192)).any fun r'' =>
        r''.2.isEmpty && r.1.heap.next 4096 == 8192 && r.1.heap.next 8192 == 4096 && r.1.heap.size 8192 == 2 ^ 29 + 1 &&
        r''.1.heap.next 4096 == 8184) = true := by decide +kernel
  obtain ⟨⟨s, es⟩, hs, hruns⟩ := (Option.any_eq_true _ _).mp hruns
  obtain ⟨⟨t, es'⟩, ht, hruns⟩ := (Option.any_eq_true _ _).mp hruns
  obtain ⟨hes, hruns⟩ := Bool.and_eq_true_iff.mp hruns
  obtain ⟨⟨u, es''⟩, hu, hruns⟩ := (Option.any_eq_true _ _).mp hruns
  simp only [Bool.and_eq_true, beq_iff_eq, List.isEmpty_iff] at hes hruns
  obtain ⟨⟨⟨⟨rfl, hnext⟩, hback⟩, hsize⟩, hnext'⟩ := hruns
  subst hes
  have hlisted : Listed 4096 s.heap [⟨8192, 2 ^ 29 + 1⟩] :=
    ⟨List.isChain_cons_cons.mpr ⟨hnext, List.isChain_cons_cons.mpr ⟨hback, List.isChain_singleton _⟩⟩, by decide,
      by simpa using hsize⟩
  refine ⟨s, es, t, u, hs, ⟨by decide, by decide, by simp⟩, ht, hu, ⟨_, hlisted⟩, fun ⟨free, h1, h2⟩ => ?_⟩
  obtain rfl := hlisted.unique h1
  have hfirst : u.heap.next 4096 = 8192 := (List.isChain_cons_cons.mp h2.cyclic).1
  exact absurd (hnext'.symm.trans hfirst) (by decide)

end Raampjes.Libc
