import Raampjes.Libc.Search

/-!
# The heap partition

`HeapInv`: the free blocks and the blocks that the program holds tile the regions from `sbrk`. `malloc_inv`, `free_inv`
and `write_inv` keep it, and say on the way that the calls return. `heap_partition` is what follows for every program.
-/

namespace Raampjes.Libc

open CyclicList Tiling Runs

variable {base : Nat} {h : Heap} {free : List Block} {live : List Live}

/-- The addresses handed out by `sbrk`. -/
def region (brks : List (Nat × Nat)) : Set Nat := {x | ∃ r ∈ brks, x ∈ interval (r.1, r.1 + r.2)}

/-- The block holds its header and so many bytes. -/
def Live.Holds (l : Live) : Prop := l.bytes + sizeofHeader ≤ l.block.size * sizeofHeader

structure HeapInv (base : Nat) (h : Heap) (live : List Live) (free : List Block) : Prop where
  rep : Rep base h free
  live_size : ∀ l ∈ live, h.size l.block.addr = l.block.size
  live_bounded : ∀ l ∈ live, Bounded base l.block
  live_holds : ∀ l ∈ live, l.Holds
  tiles : Tiles (spans free ++ spans (live.map Live.block)) (region h.brks)

theorem mem_spans {b : Block} {bs : List Block} (hb : b ∈ bs) : (b.addr, b.stop) ∈ spans bs := List.mem_map_of_mem hb

theorem addr_ne_of_disjoint {b c : Block} (hb : Bounded base b) (hc : Bounded base c)
    (hd : Disjoint (interval (c.addr, c.stop)) (interval (b.addr, b.stop))) : b.addr ≠ c.addr := by
  have := apart_of_disjoint hb hc hd
  have := hb.addr_lt
  have := hc.addr_lt
  omega

/-- A live block is no node of the free list. -/
theorem HeapInv.live_not_free (hi : HeapInv base h live free) {l : Live} (hl : l ∈ live) :
    l.block.addr ∉ base :: addrs free := by
  rintro hmem
  rcases List.mem_cons.mp hmem with heq | hmem
  · have := (hi.live_bounded l hl).addr_lt
    omega
  · obtain ⟨c, hc, heq⟩ := mem_addrs.mp hmem
    have hd := hi.tiles.append_disjoint (mem_spans hc) (mem_spans (List.mem_map_of_mem hl))
    exact addr_ne_of_disjoint (hi.live_bounded l hl) (hi.rep.bounded c hc) hd heq.symm

/-! ## `malloc` finds a block -/

/-- The block taken becomes live. -/
theorem HeapInv.take (hi : HeapInv base h live free) {blockSize bytes : Nat} {r : Nat × Heap} {blk : Block}
    {free' : List Block} (ht : Taken base h blockSize free r blk free')
    (hb : bytes + sizeofHeader ≤ blockSize * sizeofHeader) : HeapInv base r.2 (⟨blk, bytes⟩ :: live) free' := by
  have htiles := ht.tiles _ _ hi.tiles
  refine ⟨ht.rep, fun l hl => ?_, fun l hl => ?_, fun l hl => ?_, ?_⟩
  · rcases List.mem_cons.mp hl with rfl | hl
    · exact ht.size
    · have hd : Disjoint (interval (blk.addr, blk.stop)) (interval (l.block.addr, l.block.stop)) :=
        htiles.append_disjoint (mem_spans List.mem_cons_self) (mem_spans (List.mem_map_of_mem hl))
      rw [ht.size_same _ (addr_ne_of_disjoint (hi.live_bounded l hl) ht.bounded hd) (hi.live_not_free hl),
        hi.live_size l hl]
  · rcases List.mem_cons.mp hl with rfl | hl
    · exact ht.bounded
    · exact hi.live_bounded l hl
  · rcases List.mem_cons.mp hl with rfl | hl
    · rw [Live.Holds, ht.blockSize]
      exact hb
    · exact hi.live_holds l hl
  · rw [ht.brks]
    refine htiles.perm ?_
    simp only [spans_cons, List.map_cons, List.cons_append]
    exact List.perm_middle.symm

/-- The result of `malloc`: `NULL` and nothing new, or a new live block behind the pointer. -/
inductive Allocated (base : Nat) (live : List Live) (bytes : Nat) : Nat × Heap → Prop
  | fail {h : Heap} {free : List Block} : HeapInv base h live free → Allocated base live bytes (0, h)
  | block {h : Heap} {free : List Block} {b : Block} : HeapInv base h (⟨b, bytes⟩ :: live) free →
      Allocated base live bytes (ptrAdd b.addr 1, h)

/-- The units asked for hold the bytes and a header. -/
theorem blockSize_holds (bytes : Nat) :
    bytes + sizeofHeader ≤ ((bytes - 1) / sizeofHeader + 2) * sizeofHeader := by
  simp only [sizeofHeader]
  omega

/-- **The search succeeds**, and `sbrk` is not called. -/
theorem HeapInv.search (hbase : 0 < base) (hi : HeapInv base h live free) (bytes : Nat) (answers : List Nat)
    (hlarge : ∃ b ∈ free, (bytes - 1) / sizeofHeader + 2 ≤ b.size) {n : Nat} (hn : free.length < n) :
    ∃ b h' free', mallocLoop bytes ((bytes - 1) / sizeofHeader + 2) n h h.freeP (h.next h.freeP) answers =
      some (ptrAdd b.addr 1, h') ∧ HeapInv base h' (⟨b, bytes⟩ :: live) free' ∧ h'.brks = h.brks := by
  obtain ⟨pre, b, post, init, prev, rfl, hf, heq⟩ :=
    mallocLoop_find bytes answers hbase hi.rep (Nat.succ_pos _) hlarge hn
  have htaken : ∃ blk free', Taken base h ((bytes - 1) / sizeofHeader + 2) (pre ++ b :: post)
      (takeAt h ((bytes - 1) / sizeofHeader + 2) prev b.addr) blk free' := by
    rcases Nat.lt_or_eq_of_le hf.large with hlt | heq'
    · obtain ⟨blk, ht⟩ := taken_split hf hlt
      exact ⟨blk, _, ht⟩
    · exact ⟨b, _, taken_exact hf heq'.symm⟩
  obtain ⟨blk, free', ht⟩ := htaken
  have hinv := hi.take ht (blockSize_holds bytes)
  have hptr := ht.ptr
  have hbrks := ht.brks
  generalize takeAt _ _ _ _ = r at heq hinv hptr hbrks
  obtain ⟨p, h'⟩ := r
  subst hptr
  exact ⟨blk, h', free', heq, hinv, hbrks⟩

/-! ## `free` -/

/-- **`free`** of a live block returns, and the block is free. -/
theorem free_inv (hbase : 0 < base) (hi : HeapInv base h live free) {l : Live} (hl : l ∈ live) :
    ∃ h' free', Libc.free h (ptrAdd l.block.addr 1) = some h' ∧ HeapInv base h' (live.erase l) free' ∧
      h'.brks = h.brks ∧ ∃ c ∈ free', l.block.size ≤ c.size := by
  have hperm : live.Perm (l :: live.erase l) := List.perm_cons_erase hl
  have htiles : Tiles (spans (l.block :: free) ++ spans ((live.erase l).map Live.block)) (region h.brks) := by
    refine hi.tiles.perm (((hperm.map Live.block).map _).append_left _ |>.trans ?_)
    exact List.perm_middle
  have hd : ∀ c ∈ free, Disjoint (interval (c.addr, c.stop)) (interval (l.block.addr, l.block.stop)) := fun c hc =>
    hi.tiles.append_disjoint (mem_spans hc) (mem_spans (List.mem_map_of_mem hl))
  obtain ⟨h', free', heq, hfreed⟩ := free_rep hbase hi.rep (hi.live_bounded l hl) (hi.live_size l hl) hd
  have hmem : ∀ {l'}, l' ∈ live.erase l → l' ∈ live := List.mem_of_mem_erase
  refine ⟨h', free', heq, ⟨hfreed.rep, fun l' hl' => ?_, fun l' hl' => hi.live_bounded l' (hmem hl'),
    fun l' hl' => hi.live_holds l' (hmem hl'), ?_⟩, hfreed.brks, hfreed.grows⟩
  · have hd' : Disjoint (interval (l.block.addr, l.block.stop)) (interval (l'.block.addr, l'.block.stop)) :=
      htiles.append_disjoint (mem_spans List.mem_cons_self) (mem_spans (List.mem_map_of_mem hl'))
    have hne := addr_ne_of_disjoint (hi.live_bounded l' (hmem hl')) (hi.live_bounded l hl) hd'
    rw [hfreed.size_same _ hne (hi.live_not_free (hmem hl')), hi.live_size l' (hmem hl')]
  · rw [hfreed.brks]
    exact hfreed.tiles _ _ htiles

/-! ## More memory -/

/-- `sbrk` may hand out these bytes: they lie behind the list head, in the address space, and are new. -/
def Fresh (base : Nat) (brks : List (Nat × Nat)) (p bytes : Nat) : Prop :=
  base + sizeofHeader ≤ p ∧ p + bytes ≤ 2 ^ 32 ∧ ∀ r ∈ brks, p + bytes ≤ r.1 ∨ r.1 + r.2 ≤ p

/-- The units that `alloc_free` asks for. -/
def requested (bytes : Nat) : Nat := if bytes < ALLOC_SIZE then ALLOC_SIZE else bytes

theorem requested_spec (bytes : Nat) : bytes ≤ requested bytes ∧ ALLOC_SIZE ≤ requested bytes ∧
    (bytes < 2 ^ 28 → requested bytes < 2 ^ 28) := by
  unfold requested ALLOC_SIZE
  split <;> omega

/-- What `sbrk` may answer to a request of `malloc`. -/
def Answer (base : Nat) (brks : List (Nat × Nat)) (bytes p : Nat) : Prop :=
  p = sbrkFailed ∨ Fresh base brks p (requested bytes * sizeofHeader)

theorem Fresh.disjoint {brks : List (Nat × Nat)} {p bytes : Nat} (hf : Fresh base brks p bytes) :
    Disjoint (interval (p, p + bytes)) (region brks) := by
  rw [Set.disjoint_left]
  rintro x ⟨h1, h2⟩ ⟨r, hr, h3, h4⟩
  have := hf.2.2 r hr
  simp only at h1 h2 h3 h4
  omega

theorem region_cons (p bytes : Nat) (brks : List (Nat × Nat)) :
    region ((p, bytes) :: brks) = interval (p, p + bytes) ∪ region brks := by
  ext x
  simp [region]

/-- A new region is like a block that the program holds. -/
theorem HeapInv.grow (hi : HeapInv base h live free) {p units : Nat}
    (hf : Fresh base h.brks p (units * sizeofHeader)) (hu : 1 ≤ units) :
    HeapInv base (({ h with brks := (p, units * sizeofHeader) :: h.brks } : Heap).setSize p units)
      (⟨⟨p, units⟩, 0⟩ :: live) free := by
  have hd := hf.disjoint
  have hb : Bounded base ⟨p, units⟩ := ⟨hf.1, hu, hf.2.1⟩
  have hstop : (⟨p, units⟩ : Block).stop = p + units * sizeofHeader := rfl
  have hnot : ∀ {c : Block}, Bounded base c → interval (c.addr, c.stop) ⊆ region h.brks → c.addr ≠ p :=
    fun hc hsub => (addr_ne_of_disjoint hb hc (hstop ▸ (hd.mono_right hsub).symm)).symm
  have hfree : ∀ x ∈ base :: addrs free, x ≠ p := fun x hx => by
    rcases List.mem_cons.mp hx with rfl | hx
    · have := hb.addr_lt.1
      exact Nat.ne_of_lt this
    · obtain ⟨c, hc, rfl⟩ := mem_addrs.mp hx
      exact hnot (hi.rep.bounded c hc) (hi.tiles.subset (List.mem_append_left _ (mem_spans hc)))
  refine ⟨hi.rep.congr rfl fun x hx => ⟨Heap.setSize_next .., ?_⟩, fun l hl => ?_, fun l hl => ?_, fun l hl => ?_, ?_⟩
  · rw [Heap.setSize_size, if_neg (hfree x hx)]
    rfl
  · rcases List.mem_cons.mp hl with rfl | hl
    · rw [Heap.setSize_size, if_pos rfl]
    · have hsub := hi.tiles.subset (List.mem_append_right _ (mem_spans (List.mem_map_of_mem (f := Live.block) hl)))
      rw [Heap.setSize_size, if_neg (hnot (hi.live_bounded l hl) hsub)]
      exact hi.live_size l hl
  · rcases List.mem_cons.mp hl with rfl | hl
    · exact hb
    · exact hi.live_bounded l hl
  · rcases List.mem_cons.mp hl with rfl | hl
    · simp only [Live.Holds, sizeofHeader]
      omega
    · exact hi.live_holds l hl
  · rw [Heap.setSize_brks, region_cons]
    refine (hi.tiles.add (hstop ▸ hd)).perm ?_
    simp only [List.map_cons, spans_cons]
    exact List.perm_middle.symm

/-- **`alloc_free`** returns: without memory, or with a free block of the size asked for. -/
theorem allocFree_inv (hbase : 0 < base) (hi : HeapInv base h live free) {bytes p : Nat} (rest : List Nat)
    (hfail : p ≠ sbrkFailed) (hfresh : Fresh base h.brks p (requested bytes * sizeofHeader)) :
    ∃ h' free', HeapInv base h' live free' ∧ allocFree h bytes (p :: rest) = some (h'.freeP, h', rest) ∧
      h'.brks = (p, requested bytes * sizeofHeader) :: h.brks ∧ ∃ c ∈ free', requested bytes ≤ c.size := by
  have hunits : requested bytes * sizeofHeader % 2 ^ 32 = requested bytes * sizeofHeader ∧ 1 ≤ requested bytes := by
    obtain ⟨_, h1, _⟩ := requested_spec bytes
    have hlow := hfresh.1
    have hhigh := hfresh.2.1
    simp only [ALLOC_SIZE, sizeofHeader] at h1 hlow hhigh ⊢
    omega
  have hgrow := hi.grow hfresh hunits.2
  obtain ⟨h', free', heq, hinv, hbrks, hlarge⟩ := free_inv hbase hgrow List.mem_cons_self
  refine ⟨h', free', by simpa using hinv, ?_, hbrks, hlarge⟩
  have hdef : allocFree h bytes (p :: rest) = (Libc.free
      (({ h with brks := (p, requested bytes * sizeofHeader % 2 ^ 32) :: h.brks } : Heap).setSize p (requested bytes))
      (ptrAdd p 1)).bind fun h => some (h.freeP, h, rest) := by
    simp only [allocFree, if_neg hfail, requested, Option.bind_eq_bind]
  rw [hdef, hunits.1, heq, Option.bind_some]

/-- The list head is never at 0. -/
theorem HeapInv.freeP_ne (hbase : 0 < base) (hi : HeapInv base h live free) : h.freeP ≠ 0 := by
  rcases List.mem_cons.mp hi.rep.cursor with he | he
  · omega
  · obtain ⟨d, hd, he⟩ := mem_addrs.mp he
    have := (hi.rep.bounded d hd).addr_lt
    omega

/-- **No block is large enough**: the loop comes to `alloc_free`. -/
theorem HeapInv.ask (hi : HeapInv base h live free) (bytes : Nat) (answers : List Nat)
    (hsmall : ¬ ∃ b ∈ free, (bytes - 1) / sizeofHeader + 2 ≤ b.size) : ∃ n, 2 ^ 29 < n ∧
    mallocLoop bytes ((bytes - 1) / sizeofHeader + 2) rounds h h.freeP (h.next h.freeP) answers =
      match allocFree h bytes answers with
      | none => none
      | some (p, h, answers) => if p = 0 then some (0, h)
        else mallocLoop bytes ((bytes - 1) / sizeofHeader + 2) n h p (h.next p) answers := by
  have hlen := hi.rep.length_le
  obtain ⟨n, hn, hrounds⟩ : ∃ n, rounds = n + 1 + free.length ∧ 2 ^ 29 < n :=
    ⟨rounds - 1 - free.length, by simp only [rounds]; omega, by simp only [rounds]; omega⟩
  refine ⟨n, hrounds, ?_⟩
  rw [hn]
  exact mallocLoop_none bytes answers hi.rep (Nat.succ_pos _) (fun b hb => not_le.mp fun hle => hsmall ⟨b, hb, hle⟩) n

/-- Without memory `malloc` returns `NULL`. -/
theorem HeapInv.refused (hi : HeapInv base h live free) (bytes : Nat) (rest : List Nat)
    (hsmall : ¬ ∃ b ∈ free, (bytes - 1) / sizeofHeader + 2 ≤ b.size) :
    mallocLoop bytes ((bytes - 1) / sizeofHeader + 2) rounds h h.freeP (h.next h.freeP) (sbrkFailed :: rest) =
      some (0, h) := by
  obtain ⟨n, _, heq⟩ := hi.ask bytes (sbrkFailed :: rest) hsmall
  rw [heq, allocFree]
  simp

/-- With more memory `malloc` finds a block. -/
theorem HeapInv.extended (hbase : 0 < base) (hi : HeapInv base h live free) {bytes p : Nat} (rest : List Nat)
    (hfail : p ≠ sbrkFailed) (hfresh : Fresh base h.brks p (requested bytes * sizeofHeader))
    (hsmall : ¬ ∃ b ∈ free, (bytes - 1) / sizeofHeader + 2 ≤ b.size) :
    ∃ b h' free', mallocLoop bytes ((bytes - 1) / sizeofHeader + 2) rounds h h.freeP (h.next h.freeP) (p :: rest) =
      some (ptrAdd b.addr 1, h') ∧ HeapInv base h' (⟨b, bytes⟩ :: live) free' ∧
      h'.brks = (p, requested bytes * sizeofHeader) :: h.brks := by
  obtain ⟨n, hn, hask⟩ := hi.ask bytes (p :: rest) hsmall
  obtain ⟨h₁, free₁, hinv, heq, hbrks, c, hc, hle⟩ := allocFree_inv hbase hi rest hfail hfresh
  have hfits : (bytes - 1) / sizeofHeader + 2 ≤ requested bytes := by
    obtain ⟨h1, h2, _⟩ := requested_spec bytes
    simp only [ALLOC_SIZE, sizeofHeader] at h2 ⊢
    omega
  have hlen : free₁.length < n := hinv.rep.length_le.trans_lt hn
  obtain ⟨b, h', free', hloop, hinv', hbrks'⟩ := hinv.search hbase bytes rest ⟨c, hc, hfits.trans hle⟩ hlen
  refine ⟨b, h', free', ?_, hinv', hbrks'.trans hbrks⟩
  rw [hask, heq]
  simp only [hinv.freeP_ne hbase, ↓reduceIte, hloop]

/-- **`malloc` returns**, `NULL` or a new block. -/
theorem mallocLoop_inv (hbase : 0 < base) (hi : HeapInv base h live free) {bytes p : Nat} (rest : List Nat)
    (hp : Answer base h.brks bytes p) :
    ∃ r, mallocLoop bytes ((bytes - 1) / sizeofHeader + 2) rounds h h.freeP (h.next h.freeP) (p :: rest) = some r ∧
      Allocated base live bytes r := by
  have hlen : free.length < rounds := hi.rep.length_le.trans_lt (by decide)
  by_cases hlarge : ∃ b ∈ free, (bytes - 1) / sizeofHeader + 2 ≤ b.size
  · obtain ⟨b, h', free', heq, hinv, _⟩ := hi.search hbase bytes (p :: rest) hlarge hlen
    exact ⟨_, heq, .block hinv⟩
  · by_cases hfail : p = sbrkFailed
    · subst hfail
      exact ⟨_, hi.refused bytes rest hlarge, .fail hi⟩
    · obtain ⟨b, h', free', heq, hinv, _⟩ := hi.extended hbase rest hfail (hp.resolve_left hfail) hlarge
      exact ⟨_, heq, .block hinv⟩

/-! ## Programs -/

/-- What a program may do: allocate, with answers of `sbrk` that are failures or new regions; free what it holds; write
to what it holds. -/
def Admissible (base : Nat) (s : State) : Act → Prop
  | .malloc bytes answers => 0 < bytes ∧ bytes < 2 ^ 28 ∧ ∃ p rest, answers = p :: rest ∧ Answer base s.heap.brks bytes p
  | .free p => ∃ l ∈ s.live, ptrAdd l.block.addr 1 = p
  | .write p _ => ∃ l ∈ s.live, l.block.addr + sizeofHeader ≤ p ∧ p + sizeofHeader ≤ l.block.stop

/-- Nothing was allocated yet. -/
structure Untouched (s : State) : Prop where
  freeP : s.heap.freeP = 0
  live : s.live = []
  brks : s.heap.brks = []

/-- The state of the allocator between calls. -/
def Sound (base : Nat) (s : State) : Prop := Untouched s ∨ ∃ free, HeapInv base s.heap s.live free

/-- The first call makes the list of the head alone. -/
theorem heapInv_first {base : Nat} {h : Heap} (hb : h.brks = []) :
    HeapInv base { (h.setNext base base).setSize base 0 with freeP := base } [] [] := by
  refine ⟨⟨?_, List.mem_singleton_self _, ?_, by simp, by simp, List.Pairwise.nil⟩, by simp, by simp, by simp, ?_⟩
  · refine List.isChain_cons_cons.mpr ⟨?_, List.isChain_singleton _⟩
    show ((h.setNext base base).setSize base 0).next base = base
    rw [Heap.setSize_next, Heap.setNext_next, if_pos rfl]
  · show ((h.setNext base base).setSize base 0).size base = 0
    rw [Heap.setSize_size, if_pos rfl]
  · have hempty : region h.brks = ∅ := by
      rw [hb]
      simp [region]
    show Tiles [] (region h.brks)
    rw [hempty]
    exact tiles_nil

/-- A program that writes to a block it holds touches no header. -/
theorem write_inv (hi : HeapInv base h live free) {l : Live} (hl : l ∈ live) {p : Nat} {words : Header}
    (hlo : l.block.addr + sizeofHeader ≤ p) (hhi : p + sizeofHeader ≤ l.block.stop) :
    HeapInv base { h with mem := Function.update h.mem p words } live free := by
  have hpin : p ∈ interval (l.block.addr, l.block.stop) := by
    simp only [sizeofHeader] at hlo hhi
    exact Set.mem_Ico.mpr (by omega)
  have hstart : ∀ {b : Block}, Bounded base b → b.addr ∈ interval (b.addr, b.stop) := fun hb =>
    Set.mem_Ico.mpr ⟨le_rfl, hb.addr_lt.2⟩
  have hfree : ∀ x ∈ base :: addrs free, x ≠ p := by
    rintro x hx rfl
    rcases List.mem_cons.mp hx with rfl | hx
    · have := (hi.live_bounded l hl).addr_lt
      omega
    · obtain ⟨c, hc, rfl⟩ := mem_addrs.mp hx
      have hd := hi.tiles.append_disjoint (mem_spans hc) (mem_spans (List.mem_map_of_mem hl))
      exact Set.disjoint_left.mp hd (hstart (hi.rep.bounded c hc)) hpin
  have hlive : ∀ l' ∈ live, l'.block.addr ≠ p := by
    rintro l' hl' heq
    have hperm : live.Perm (l :: live.erase l) := List.perm_cons_erase hl
    rcases List.mem_cons.mp (hperm.mem_iff.mp hl') with rfl | hl'
    · simp only [sizeofHeader] at hlo
      omega
    · have htiles := hi.tiles.perm (((hperm.map Live.block).map _).append_left _)
      have hpair := (List.pairwise_append.mp htiles.disjoint).2.1
      have hd := (List.pairwise_cons.mp hpair).1 _ (mem_spans (List.mem_map_of_mem (f := Live.block) hl'))
      refine Set.disjoint_left.mp hd hpin (heq ▸ hstart (hi.live_bounded l' ?_))
      exact List.mem_of_mem_erase hl'
  have hsame : ∀ x, x ≠ p → ({ h with mem := Function.update h.mem p words } : Heap).next x = h.next x ∧
      ({ h with mem := Function.update h.mem p words } : Heap).size x = h.size x := fun x hx => by
    simp [Heap.next, Heap.size, Function.update_of_ne hx]
  refine ⟨hi.rep.congr rfl fun x hx => hsame x (hfree x hx), fun l' hl' => ?_, hi.live_bounded, hi.live_holds, hi.tiles⟩
  rw [(hsame _ (hlive l' hl')).2, hi.live_size l' hl']

/-- The result of `malloc` in the state after. -/
theorem Allocated.sound {bytes : Nat} {r : Nat × Heap} (ha : Allocated base live bytes r) (h0 : 0 < bytes) :
    Sound base (if r.1 = 0 then ⟨r.2, live⟩
      else ⟨r.2, ⟨⟨ptrSub r.1 1, r.2.size (ptrSub r.1 1)⟩, bytes⟩ :: live⟩) := by
  cases ha with
  | fail hi => exact Or.inr ⟨_, hi⟩
  | block hi =>
    rename_i h' free' b
    have hb := hi.live_bounded _ List.mem_cons_self
    have hholds := hi.live_holds _ List.mem_cons_self
    have hne : ptrAdd b.addr 1 ≠ 0 := by
      have h3 := hb.below
      simp only [Live.Holds, Block.stop, sizeofHeader, ptrAdd] at *
      omega
    have hsize := hi.live_size _ List.mem_cons_self
    refine Or.inr ⟨free', ?_⟩
    simp only [if_neg hne, ptrSub_ptrAdd hb]
    rw [hsize]
    exact hi

/-- **Every admissible call returns**, and keeps the state sound. -/
theorem step_sound (hbase : 0 < base) {s : State} {a : Act} (hs : Sound base s) (ha : Admissible base s a) :
    ∃ t es, step base s a = some (t, es) ∧ Sound base t := by
  cases a with
  | malloc bytes answers =>
    obtain ⟨h0, _, p, rest, rfl, hp⟩ := ha
    have hmalloc : ∃ r, malloc base s.heap bytes (p :: rest) = some r ∧ Allocated base s.live bytes r := by
      rcases hs with hu | ⟨free, hi⟩
      · have hi := @heapInv_first base _ hu.brks
        obtain ⟨r, heq, hr⟩ := mallocLoop_inv hbase hi rest hp
        refine ⟨r, ?_, hu.live ▸ hr⟩
        rw [malloc, if_neg (by omega), if_pos hu.freeP]
        exact heq
      · obtain ⟨r, heq, hr⟩ := mallocLoop_inv hbase hi rest hp
        refine ⟨r, ?_, hr⟩
        rw [malloc, if_neg (by omega), if_neg (hi.freeP_ne hbase)]
        exact heq
    obtain ⟨⟨p', h'⟩, heq, hr⟩ := hmalloc
    have hsound := hr.sound h0
    refine ⟨_, [p'], ?_, hsound⟩
    by_cases hz : p' = 0
    · simp [step, heq, hz]
    · simp [step, heq, hz]
  | free p =>
    obtain ⟨l, hl, hp⟩ := ha
    rcases hs with hu | ⟨free, hi⟩
    · rw [hu.live] at hl
      cases hl
    · cases hf : s.live.find? fun l => ptrAdd l.block.addr 1 == p with
      | none => exact absurd hp (by simpa using List.find?_eq_none.mp hf l hl)
      | some l' =>
        obtain rfl : ptrAdd l'.block.addr 1 = p := by simpa using List.find?_some hf
        obtain ⟨h', free', heq, hinv, _, _⟩ := free_inv hbase hi (List.mem_of_find?_eq_some hf)
        refine ⟨⟨h', s.live.erase l'⟩, [], ?_, Or.inr ⟨free', hinv⟩⟩
        simp only [step, hf, heq, Option.map_some]
  | write p words =>
    obtain ⟨l, hl, hlo, hhi⟩ := ha
    rcases hs with hu | ⟨free, hi⟩
    · rw [hu.live] at hl
      cases hl
    · exact ⟨_, _, rfl, Or.inr ⟨free, write_inv hi hl hlo hhi⟩⟩

/-- The heap partition: `free` are the blocks on the list behind `free_p`. -/
structure Partition (base : Nat) (s : State) (free : List Block) : Prop where
  /-- The list runs through the head and the free blocks, with their sizes, and back; `free_p` is on it. -/
  cyclic : Cyclic s.heap.next (base :: addrs free)
  cursor : s.heap.freeP ∈ base :: addrs free
  size_base : s.heap.size base = 0
  size : ∀ b ∈ free, s.heap.size b.addr = b.size
  /-- The addresses increase but for the step back to the head. -/
  sorted : (base :: addrs free).Pairwise (· < ·)
  /-- Free and live blocks are disjoint and cover what was obtained from `sbrk`. -/
  tiles : Tiles (spans free ++ spans (s.live.map Live.block)) (region s.heap.brks)
  apart : ∀ b ∈ free, ∀ c ∈ free, b.stop ≠ c.addr
  /-- A live block has the size in its header, and room for what was asked for. -/
  live : ∀ l ∈ s.live, s.heap.size l.block.addr = l.block.size ∧ l.bytes ≤ (l.block.size - 1) * sizeofHeader

theorem HeapInv.partition {s : State} (hi : HeapInv base s.heap s.live free) : Partition base s free := by
  refine ⟨hi.rep.cyclic, hi.rep.cursor, hi.rep.size_base, hi.rep.size, hi.rep.sorted, hi.tiles, fun b hb c hc heq => ?_,
    fun l hl => ⟨hi.live_size l hl, ?_⟩⟩
  · have hbb := (hi.rep.bounded b hb).addr_lt
    have hcb := (hi.rep.bounded c hc).addr_lt
    obtain ⟨pre, post, rfl⟩ := List.append_of_mem hb
    obtain ⟨_, hpost, hcross⟩ := List.pairwise_append.mp hi.rep.gaps
    rcases List.mem_append.mp hc with hc | hc
    · have := hcross c hc b List.mem_cons_self
      omega
    · rcases List.mem_cons.mp hc with rfl | hc
      · omega
      · have := (List.pairwise_cons.mp hpost).1 c hc
        omega
  · have := hi.live_holds l hl
    simp only [Live.Holds, sizeofHeader] at *
    omega

/-- Every program keeps the state sound. -/
theorem run_sound (hbase : 0 < base) (mem : Nat → Header) {xs : List (Step State Act Nat)} {s : State}
    (hrun : Run (step base) (start mem) xs s) (hx : ∀ x ∈ xs, Admissible base x.before x.act) : Sound base s := by
  refine hrun.inv (C := Admissible base) (Sound base) (Or.inl ⟨rfl, rfl, rfl⟩) (fun s a t es hs ha hst => ?_) hx
  obtain ⟨t', es', heq, ht⟩ := step_sound hbase hs ha
  rw [hst, Option.some.injEq, Prod.mk.injEq] at heq
  rw [heq.1]
  exact ht

/-- **The heap partition.** Whatever a program allocates, frees and writes, the free and the live blocks partition what
was obtained from `sbrk`, and every further call returns. -/
theorem heap_partition (hbase : 0 < base) (mem : Nat → Header) {xs : List (Step State Act Nat)} {s : State}
    (hrun : Run (step base) (start mem) xs s) (hx : ∀ x ∈ xs, Admissible base x.before x.act) :
    (Untouched s ∨ ∃ free, Partition base s free) ∧ ∀ a, Admissible base s a → (step base s a).isSome := by
  have hs := run_sound hbase mem hrun hx
  refine ⟨hs.imp_right fun ⟨free, hi⟩ => ⟨free, hi.partition⟩, fun a ha => ?_⟩
  obtain ⟨t, es, heq, _⟩ := step_sound hbase hs ha
  rw [heq]
  rfl

/-- A condition that is easily checked: memory comes at once or never, and what is freed is held. -/
def plain (s : State) : Act → Bool
  | .malloc _ answers => answers.head? == some sbrkFailed || s.heap.brks.isEmpty
  | .free p => s.live.any fun l => ptrAdd l.block.addr 1 == p
  | .write _ _ => false

/-- Two blocks are cut from one region, and the first is given back. -/
theorem heap_partition_two : ∃ xs s, Run (step 4096) (start fun _ => ⟨0, 0⟩) xs s ∧
    acts xs = [.malloc 10 [8192], .malloc 100 [sbrkFailed], .free 12272] ∧
    (Untouched s ∨ ∃ free, Partition 4096 s free) ∧ ∀ a, Admissible 4096 s a → (step 4096 s a).isSome := by
  obtain ⟨xs, s, h, ha, hp⟩ : ∃ xs s, Run (step 4096) (start fun _ => ⟨0, 0⟩) xs s ∧
      acts xs = [.malloc 10 [8192], .malloc 100 [sbrkFailed], .free 12272] ∧
      (xs.all fun x => plain x.before x.act) = true :=
    Run.of_replay _ (fun xs _ => xs.all fun x => plain x.before x.act) (by decide +kernel)
  refine ⟨xs, s, h, ha, heap_partition (by decide) _ h fun x hx => ?_⟩
  have hplain := List.all_eq_true.mp hp x hx
  have hact : x.act ∈ acts xs := List.mem_map_of_mem hx
  rw [ha] at hact
  simp only [List.mem_cons, List.not_mem_nil, or_false] at hact
  rcases hact with heq | heq | heq <;> rw [heq] at hplain ⊢
  · have hempty : x.before.heap.brks = [] := by simpa [plain, sbrkFailed] using hplain
    refine ⟨by decide, by decide, 8192, [], rfl, Or.inr ⟨by decide, by decide, ?_⟩⟩
    rw [hempty]
    simp
  · exact ⟨by decide, by decide, sbrkFailed, [], rfl, Or.inl rfl⟩
  · obtain ⟨l, hl, hp⟩ := List.any_eq_true.mp hplain
    exact ⟨l, hl, by simpa using hp⟩

end Raampjes.Libc
