import Raampjes.Libc.FreeList

/-!
# The search of `malloc`

The loop of `malloc` goes once around the free list. `mallocLoop_find`: if a block is large enough it finds the first
such block behind `free_p`, and `taken_exact` and `taken_split` say what it takes from it; `mallocLoop_none`: if none is, it comes back
to `free_p` and calls `alloc_free`.
-/

namespace Raampjes.Libc

open CyclicList Tiling

variable {base : Nat} {h : Heap} {free : List Block} {blockSize : Nat}

/-! ## The loop -/

/-- Nodes that are too small are passed over. -/
theorem mallocLoop_skip (size : Nat) (answers : List Nat) (l : List Nat) {prev t : Nat} (n : Nat)
    (hl : Linked h.next (prev :: (l ++ [t])))
    (hsmall : ∀ y ∈ l, h.size y < blockSize ∧ y ≠ h.freeP) :
    ∃ prev', prev' ∈ prev :: l ∧ h.next prev' = t ∧
      mallocLoop size blockSize (n + l.length) h prev (h.next prev) answers =
        mallocLoop size blockSize n h prev' (h.next prev') answers := by
  induction l generalizing prev with
  | nil => exact ⟨prev, List.mem_cons_self, by simpa [Linked] using hl, rfl⟩
  | cons y l ih =>
    obtain ⟨rfl, hl⟩ := List.isChain_cons_cons.mp hl
    obtain ⟨hlt, hne⟩ := hsmall _ List.mem_cons_self
    obtain ⟨prev', hmem, hnext, heq⟩ := ih hl fun z hz => hsmall z (List.mem_cons_of_mem _ hz)
    refine ⟨prev', List.mem_cons_of_mem _ hmem, hnext, ?_⟩
    rw [List.length_cons, ← Nat.add_assoc, mallocLoop, if_neg hlt.ne, if_neg (by omega), if_neg hne, heq]

/-- What `malloc` returns when it stops at the node `p` behind `prev`. -/
def takeAt (h : Heap) (blockSize prev p : Nat) : Nat × Heap :=
  if h.size p = blockSize then (ptrAdd p 1, { h.setNext prev (h.next p) with freeP := prev })
  else (ptrAdd (splitBlock h p blockSize).1 1, { (splitBlock h p blockSize).2 with freeP := prev })

theorem mallocLoop_take (size : Nat) (answers : List Nat) {n prev : Nat} (hp : blockSize ≤ h.size (h.next prev)) :
    mallocLoop size blockSize (n + 1) h prev (h.next prev) answers =
      some (takeAt h blockSize prev (h.next prev)) := by
  rw [mallocLoop, takeAt]
  split
  · rfl
  · rw [if_pos (by omega)]

/-- The free list read from `free_p`. -/
theorem Rep.read_cursor (hr : Rep base h free) : ∃ l, Linked h.next (h.freeP :: (l ++ [h.freeP])) ∧
    (h.freeP :: l).Perm (base :: addrs free) ∧ h.freeP ∉ l := by
  obtain ⟨l, hl, hperm⟩ := hr.cyclic.read_from hr.cursor
  exact ⟨l, hl, hperm, (List.nodup_cons.mp (hperm.nodup_iff.mpr hr.nodup)).1⟩

/-- The node before a block. -/
theorem Rep.pred {pre post : List Block} {b : Block} (hr : Rep base h (pre ++ b :: post)) {prev : Nat}
    (hprev : prev ∈ base :: addrs (pre ++ b :: post)) (hnext : h.next prev = b.addr) :
    ∃ init, base :: addrs pre = init ++ [prev] := by
  obtain ⟨init, p, hinit⟩ := exists_last base pre
  have hp : p ∈ base :: addrs (pre ++ b :: post) := by
    rw [addrs_append, ← List.cons_append, hinit]
    simp
  have hpnext : h.next p = b.addr := (List.isChain_cons_cons.mp (hr.cut hinit).1.after).1
  obtain rfl := hr.cyclic.inj hr.nodup hprev hp (hnext.trans hpnext.symm)
  exact ⟨init, hinit⟩

/-- The block that `malloc` takes is the first large enough one behind `free_p`, and `prev` the node before it. -/
structure Fit (base : Nat) (h : Heap) (blockSize : Nat) (pre : List Block) (b : Block) (post : List Block)
    (init : List Nat) (prev : Nat) : Prop where
  base_pos : 0 < base
  rep : Rep base h (pre ++ b :: post)
  pos : 0 < blockSize
  large : blockSize ≤ b.size
  pred : base :: addrs pre = init ++ [prev]

/-- **The search succeeds** if some block is large enough. -/
theorem mallocLoop_find (size : Nat) (answers : List Nat) (hbase : 0 < base) (hr : Rep base h free) (hpos : 0 < blockSize)
    (hlarge : ∃ b ∈ free, blockSize ≤ b.size) {n : Nat} (hn : free.length < n) :
    ∃ pre b post init prev, free = pre ++ b :: post ∧ Fit base h blockSize pre b post init prev ∧
      mallocLoop size blockSize n h h.freeP (h.next h.freeP) answers = some (takeAt h blockSize prev b.addr) := by
  obtain ⟨l, hl, hperm, hnot⟩ := hr.read_cursor
  have hmem : ∀ y, y ∈ l ++ [h.freeP] ↔ y ∈ base :: addrs free := fun y => by
    rw [← hperm.mem_iff, List.mem_append, List.mem_singleton, List.mem_cons, or_comm]
  obtain ⟨l₁, t, l₂, hsplit, ht, hsmall⟩ : ∃ l₁ t l₂, l ++ [h.freeP] = l₁ ++ t :: l₂ ∧ blockSize ≤ h.size t ∧
      ∀ y ∈ l₁, ¬blockSize ≤ h.size y := by
    refine exists_first ?_
    obtain ⟨b, hb, hle⟩ := hlarge
    exact ⟨b.addr, (hmem _).mpr (List.mem_cons_of_mem _ (mem_addrs.mpr ⟨b, hb, rfl⟩)), by rwa [hr.size b hb]⟩
  -- the nodes passed over are not `free_p`, where the loop would give up
  have hsub : l₁ ⊆ l := by
    rcases List.eq_nil_or_concat l₂ with rfl | ⟨l₂, y, rfl⟩
    · rw [(List.append_inj' hsplit rfl).1]
      exact List.Subset.refl _
    · rw [List.concat_eq_append, ← List.cons_append, ← List.append_assoc] at hsplit
      rw [(List.append_inj' hsplit rfl).1]
      exact List.subset_append_left _ _
  have hlink : Linked h.next (h.freeP :: (l₁ ++ [t])) := by
    rw [hsplit] at hl
    have hl : Linked h.next (h.freeP :: l₁ ++ t :: l₂) := hl
    exact (linked_split.mp hl).1
  have hlen : l₁.length ≤ free.length := by
    have h1 := congrArg List.length hsplit
    have h2 := hperm.length_eq
    simp only [List.length_append, List.length_cons, List.length_nil, addrs, List.length_map] at h1 h2
    omega
  obtain ⟨m, rfl⟩ : ∃ m, n = m + 1 + l₁.length := ⟨n - 1 - l₁.length, by omega⟩
  obtain ⟨prev, hprev, rfl, heq⟩ := mallocLoop_skip size answers l₁ (m + 1) hlink
    fun y hy => ⟨not_le.mp (hsmall y hy), fun he => hnot (he ▸ hsub hy)⟩
  have htmem : h.next prev ∈ base :: addrs free := (hmem _).mp (by rw [hsplit]; simp)
  have hprevmem : prev ∈ base :: addrs free := by
    refine hperm.mem_iff.mp ?_
    rcases List.mem_cons.mp hprev with rfl | hprev
    · exact List.mem_cons_self
    · exact List.mem_cons_of_mem _ (hsub hprev)
  have htne : h.next prev ≠ base := fun he => by
    rw [he, hr.size_base] at ht
    omega
  obtain ⟨b, hb, hbaddr⟩ := mem_addrs.mp ((List.mem_cons.mp htmem).resolve_left htne)
  have hle : blockSize ≤ b.size := by rwa [← hr.size b hb, hbaddr]
  obtain ⟨pre, post, rfl⟩ := List.append_of_mem hb
  obtain ⟨init, hinit⟩ := hr.pred hprevmem hbaddr.symm
  refine ⟨pre, b, post, init, prev, rfl, ⟨hbase, hr, hpos, hle, hinit⟩, ?_⟩
  rw [heq, mallocLoop_take size answers ht, hbaddr]

/-- **The search fails** and calls `alloc_free` if all blocks are too small. -/
theorem mallocLoop_none (size : Nat) (answers : List Nat) (hr : Rep base h free) (hpos : 0 < blockSize)
    (hsmall : ∀ b ∈ free, b.size < blockSize) (n : Nat) :
    mallocLoop size blockSize (n + 1 + free.length) h h.freeP (h.next h.freeP) answers =
      match allocFree h size answers with
      | none => none
      | some (p, h, answers) => if p = 0 then some (0, h) else mallocLoop size blockSize n h p (h.next p) answers := by
  obtain ⟨l, hl, hperm, hnot⟩ := hr.read_cursor
  have hsize : ∀ y ∈ h.freeP :: l, h.size y < blockSize := by
    intro y hy
    rcases List.mem_cons.mp (hperm.mem_iff.mp hy) with rfl | hy
    · rwa [hr.size_base]
    · obtain ⟨b, hb, rfl⟩ := mem_addrs.mp hy
      rw [hr.size b hb]
      exact hsmall b hb
  have hlen : l.length = free.length := by simpa [addrs] using hperm.length_eq
  obtain ⟨prev, _, hnext, heq⟩ := mallocLoop_skip size answers l (n + 1) hl
    fun y hy => ⟨hsize y (List.mem_cons_of_mem _ hy), fun he => hnot (he ▸ hy)⟩
  have hcur := hsize h.freeP List.mem_cons_self
  rw [← hlen, heq, hnext, mallocLoop, if_neg hcur.ne, if_neg (by omega)]
  exact if_pos rfl

/-! ## What is taken -/

/-- What `malloc` takes from the heap: `blk`, of the size asked for. -/
structure Taken (base : Nat) (h : Heap) (blockSize : Nat) (free : List Block) (r : Nat × Heap) (blk : Block)
    (free' : List Block) : Prop where
  rep : Rep base r.2 free'
  ptr : r.1 = ptrAdd blk.addr 1
  bounded : Bounded base blk
  blockSize : blk.size = blockSize
  size : r.2.size blk.addr = blk.size
  brks : r.2.brks = h.brks
  size_same : ∀ x, x ≠ blk.addr → x ∉ base :: addrs free → r.2.size x = h.size x
  tiles : ∀ is s, Tiles (spans free ++ is) s → Tiles (spans (blk :: free') ++ is) s

section Fit

variable {pre post : List Block} {b : Block} {init : List Nat} {prev : Nat}

/-- The other blocks lie apart from the one taken. -/
theorem Fit.apart (hf : Fit base h blockSize pre b post init prev) {c : Block} (hc : c ∈ pre ++ post) :
    c.stop < b.addr ∨ b.stop < c.addr := by
  obtain ⟨_, hpost, hcross⟩ := List.pairwise_append.mp hf.rep.gaps
  rcases List.mem_append.mp hc with hc | hc
  · exact Or.inl (hcross c hc b List.mem_cons_self)
  · exact Or.inr ((List.pairwise_cons.mp hpost).1 c hc)

theorem Fit.mem_other {c : Block} (hc : c ∈ pre ++ post) : c ∈ pre ++ b :: post := by
  rcases List.mem_append.mp hc with hc | hc
  · exact List.mem_append_left _ hc
  · exact List.mem_append_right _ (List.mem_cons_of_mem _ hc)

theorem Fit.bounded (hf : Fit base h blockSize pre b post init prev) : Bounded base b :=
  hf.rep.bounded b (by simp)

/-- **An exact fit** is taken out of the list. -/
theorem taken_exact (hf : Fit base h blockSize pre b post init prev) (hb : b.size = blockSize) :
    Taken base h blockSize (pre ++ b :: post) (takeAt h blockSize prev b.addr) b (pre ++ post) := by
  have hbsize : h.size b.addr = b.size := hf.rep.size b (by simp)
  obtain ⟨hcut, hsorted⟩ := hf.rep.cut hf.pred
  obtain ⟨_, hpost, hcross⟩ := List.pairwise_append.mp hsorted
  rw [List.pairwise_cons] at hpost
  have htake : takeAt h blockSize prev b.addr =
      (ptrAdd b.addr 1, { h.setNext prev (h.next b.addr) with freeP := prev }) := if_pos (hbsize.trans hb)
  generalize hh' : ({ h.setNext prev (h.next b.addr) with freeP := prev } : Heap) = h' at htake
  have hnext : ∀ x, h'.next x = if x = prev then h.next b.addr else h.next x := fun x => by
    subst hh'
    exact Heap.setNext_next ..
  have hsize : ∀ x, h'.size x = h.size x := fun x => by
    subst hh'
    exact Heap.setNext_size ..
  rw [htake]
  refine ⟨⟨?_, ?_, ?_, fun c hc => ?_, fun c hc => hf.rep.bounded c (Fit.mem_other hc), ?_⟩, rfl, hf.bounded, hb, ?_, ?_,
    fun x _ _ => hsize x, fun is s ht => ?_⟩
  · refine Cut.cyclic ⟨hcut.before.congr fun x hx => ?_, ?_⟩ hf.pred
    · have := hcross x hx prev List.mem_cons_self
      rw [hnext, if_neg (by omega)]
    · have hafter : Linked h.next (b.addr :: (addrs post ++ [base])) := (List.isChain_cons_cons.mp hcut.after).2
      refine hafter.relink_head (by rw [hnext, if_pos rfl]) fun z hz => ?_
      have := hpost.1 z (List.mem_cons_of_mem _ hz)
      rw [hnext, if_neg (by omega)]
  · subst hh'
    rw [addrs_append, ← List.cons_append, hf.pred]
    simp
  · rw [hsize, hf.rep.size_base]
  · rw [hsize, hf.rep.size c (Fit.mem_other hc)]
  · exact hf.rep.gaps.sublist ((List.sublist_cons_self b post).append_left pre)
  · rw [hsize, hbsize]
  · subst hh'
    rfl
  · refine ht.perm ?_
    simp only [spans_append, spans_cons, List.append_assoc, List.cons_append]
    exact List.perm_middle

/-- **A larger block** loses its tail. -/
theorem taken_split (hf : Fit base h blockSize pre b post init prev) (hb : blockSize < b.size) :
    ∃ blk, Taken base h blockSize (pre ++ b :: post) (takeAt h blockSize prev b.addr) blk
      (pre ++ ⟨b.addr, b.size - blockSize⟩ :: post) := by
  have hbsize : h.size b.addr = b.size := hf.rep.size b (by simp)
  have hbb := hf.bounded
  have hpos := hf.pos
  obtain ⟨ha, _, hs⟩ := hf.bounded
  simp only [Block.stop, sizeofHeader] at ha hs
  -- the sizes and addresses do not wrap
  have hleft : (h.size b.addr + 2 ^ 32 - blockSize) % 2 ^ 32 = b.size - blockSize := by
    rw [hbsize]
    omega
  generalize hq : b.addr + (b.size - blockSize) * sizeofHeader = q
  have hqaddr : ptrAdd b.addr (b.size - blockSize) = q := by
    rw [ptrAdd, hq, Nat.mod_eq_of_lt]
    simp only [sizeofHeader] at hq
    omega
  generalize hh' : ({ (h.setSize b.addr (b.size - blockSize)).setSize q blockSize with freeP := prev } : Heap) = h'
  have htake : takeAt h blockSize prev b.addr = (ptrAdd q 1, h') := by
    have hsize : (h.setSize b.addr (b.size - blockSize)).size b.addr = b.size - blockSize := by
      rw [Heap.setSize_size, if_pos rfl]
    rw [takeAt, if_neg (by omega)]
    simp only [splitBlock, hleft, hsize, hqaddr, ← hh']
  have hnext : ∀ x, h'.next x = h.next x := fun x => by
    subst hh'
    show ((h.setSize b.addr (b.size - blockSize)).setSize q blockSize).next x = _
    rw [Heap.setSize_next, Heap.setSize_next]
  have hsize : ∀ x, h'.size x = if x = q then blockSize else if x = b.addr then b.size - blockSize else h.size x :=
    fun x => by
      subst hh'
      show ((h.setSize b.addr (b.size - blockSize)).setSize q blockSize).size x = _
      rw [Heap.setSize_size, Heap.setSize_size]
  have hqb : b.addr < q ∧ q + blockSize * sizeofHeader = b.stop := by
    simp only [sizeofHeader, Block.stop] at hq ⊢
    omega
  have hother : ∀ c ∈ pre ++ post, c.addr ≠ q ∧ c.addr ≠ b.addr := fun c hc => by
    have := hf.apart hc
    have := (hf.rep.bounded c (Fit.mem_other hc)).addr_lt
    omega
  have hmem : ∀ {c}, c ∈ pre ++ ⟨b.addr, b.size - blockSize⟩ :: post →
      c = ⟨b.addr, b.size - blockSize⟩ ∨ c ∈ pre ++ post := fun {c} hc => by
    simp only [List.mem_append, List.mem_cons] at hc ⊢
    tauto
  have haddrs : addrs (pre ++ ⟨b.addr, b.size - blockSize⟩ :: post) = addrs (pre ++ b :: post) := by simp
  rw [htake]
  refine ⟨⟨q, blockSize⟩, ⟨?_, ?_, ?_, fun c hc => ?_, fun c hc => ?_, ?_⟩, rfl, ?_, rfl, ?_, ?_, fun x hxq hx => ?_,
    fun is s ht => ?_⟩
  · rw [haddrs, show h'.next = h.next from funext hnext]
    exact hf.rep.cyclic
  · subst hh'
    rw [haddrs, addrs_append, ← List.cons_append, hf.pred]
    simp
  · have := hbb.addr_lt
    rw [hsize, if_neg (by omega), if_neg (by omega), hf.rep.size_base]
  · rcases hmem hc with rfl | hc
    · rw [hsize, if_neg (by dsimp only; omega), if_pos rfl]
    · rw [hsize, if_neg (hother c hc).1, if_neg (hother c hc).2, hf.rep.size c (Fit.mem_other hc)]
  · rcases hmem hc with rfl | hc
    · refine ⟨hbb.above, by dsimp only; omega, ?_⟩
      simp only [Block.stop, sizeofHeader]
      omega
    · exact hf.rep.bounded c (Fit.mem_other hc)
  · obtain ⟨hgpre, hgpost, hcross⟩ := List.pairwise_append.mp hf.rep.gaps
    rw [List.pairwise_cons] at hgpost
    refine List.pairwise_append.mpr ⟨hgpre, List.pairwise_cons.mpr ⟨fun c hc => ?_, hgpost.2⟩, fun c hc d hd => ?_⟩
    · have := hgpost.1 c hc
      simp only [Block.stop, sizeofHeader] at *
      omega
    · rcases List.mem_cons.mp hd with rfl | hd
      · exact hcross c hc b List.mem_cons_self
      · exact hcross c hc d (List.mem_cons_of_mem _ hd)
  · refine ⟨?_, hpos, ?_⟩
    · simp only [sizeofHeader] at *
      omega
    · have := hbb.below
      simp only [Block.stop] at *
      omega
  · rw [hsize, if_pos rfl]
  · subst hh'
    rfl
  · rw [hsize, if_neg hxq, if_neg fun he => hx (by simp [he])]
  · have hfront : (spans (pre ++ b :: post) ++ is).Perm ((b.addr, b.stop) :: (spans pre ++ (spans post ++ is))) := by
      simp only [spans_append, spans_cons, List.append_assoc, List.cons_append]
      exact List.perm_middle
    have hcut := (tiles_cut hqb.1.le (by omega)).mpr (ht.perm hfront)
    have hstop : (⟨b.addr, b.size - blockSize⟩ : Block).stop = q := hq
    have hstop' : (⟨q, blockSize⟩ : Block).stop = b.stop := hqb.2
    refine hcut.perm ((List.Perm.swap _ _ _).trans ?_)
    simp only [spans_append, spans_cons, List.append_assoc, List.cons_append, hstop, hstop']
    exact List.perm_middle.symm.cons _

end Fit

end Raampjes.Libc
