import Raampjes.Lib.Tiling
import Raampjes.Libc.Malloc

/-!
# The free list

`Rep base h free`: the list behind `free_p` runs through `base`, of size 0, and the blocks `free` in the order of their
addresses, with a gap after each. `free_rep` says what `free` makes of it: the block given back is joined with the
blocks that it touches, and `Rep` holds again.
-/

namespace Raampjes.Libc

open CyclicList Tiling

variable {base : Nat} {h : Heap} {free : List Block}

/-- The block lies behind the list head and inside of the address space. -/
structure Bounded (base : Nat) (b : Block) : Prop where
  above : base + sizeofHeader ≤ b.addr
  pos : 1 ≤ b.size
  below : b.stop ≤ 2 ^ 32

def addrs (bs : List Block) : List Nat := bs.map Block.addr

/-- The addresses that the blocks take up. -/
def spans (bs : List Block) : List (Nat × Nat) := bs.map fun b => (b.addr, b.stop)

@[simp] theorem addrs_nil : addrs [] = [] := rfl

@[simp] theorem addrs_cons (b : Block) (bs : List Block) : addrs (b :: bs) = b.addr :: addrs bs := rfl

@[simp] theorem addrs_append (bs cs : List Block) : addrs (bs ++ cs) = addrs bs ++ addrs cs := List.map_append

@[simp] theorem spans_nil : spans [] = [] := rfl

@[simp] theorem spans_cons (b : Block) (bs : List Block) : spans (b :: bs) = (b.addr, b.stop) :: spans bs := rfl

@[simp] theorem spans_append (bs cs : List Block) : spans (bs ++ cs) = spans bs ++ spans cs := List.map_append

theorem mem_addrs {x : Nat} {bs : List Block} : x ∈ addrs bs ↔ ∃ b ∈ bs, b.addr = x := List.mem_map

structure Rep (base : Nat) (h : Heap) (free : List Block) : Prop where
  cyclic : Cyclic h.next (base :: addrs free)
  cursor : h.freeP ∈ base :: addrs free
  size_base : h.size base = 0
  size : ∀ b ∈ free, h.size b.addr = b.size
  bounded : ∀ b ∈ free, Bounded base b
  gaps : free.Pairwise fun b c => b.stop < c.addr

/-! ## Order and length -/

theorem Bounded.addr_lt {b : Block} (hb : Bounded base b) : base < b.addr ∧ b.addr < b.stop := by
  obtain ⟨h1, h2, _⟩ := hb
  simp only [Block.stop, sizeofHeader] at *
  omega

theorem sorted_addrs (hb : ∀ b ∈ free, Bounded base b) (hg : free.Pairwise fun b c => b.stop < c.addr) :
    (base :: addrs free).Pairwise (· < ·) := by
  refine List.pairwise_cons.mpr ⟨fun x hx => ?_, List.pairwise_map.mpr (hg.imp_of_mem fun {b c} hmem _ hgap => ?_)⟩
  · obtain ⟨b, hmem, rfl⟩ := mem_addrs.mp hx
    exact (hb b hmem).addr_lt.1
  · have := (hb b hmem).addr_lt
    omega

theorem Rep.sorted (hr : Rep base h free) : (base :: addrs free).Pairwise (· < ·) := sorted_addrs hr.bounded hr.gaps

theorem Rep.nodup (hr : Rep base h free) : (base :: addrs free).Nodup := hr.sorted.imp fun h => h.ne

/-- A free list is a matter of its own headers. -/
theorem Rep.congr {h' : Heap} (hr : Rep base h free) (hp : h'.freeP = h.freeP)
    (hs : ∀ x ∈ base :: addrs free, h'.next x = h.next x ∧ h'.size x = h.size x) : Rep base h' free := by
  have hlink : Linked h.next (base :: addrs free ++ [base]) := hr.cyclic
  refine ⟨hlink.congr fun x hx => (hs x hx).1, hp ▸ hr.cursor, ?_, fun b hb => ?_, hr.bounded, hr.gaps⟩
  · rw [(hs base List.mem_cons_self).2, hr.size_base]
  · rw [(hs b.addr (List.mem_cons_of_mem _ (mem_addrs.mpr ⟨b, hb, rfl⟩))).2, hr.size b hb]

/-- Headers take up room. -/
theorem length_le_of_gaps (lo : Nat) (hb : ∀ b ∈ free, lo ≤ b.addr ∧ 1 ≤ b.size ∧ b.stop ≤ 2 ^ 32)
    (hg : free.Pairwise fun b c => b.stop < c.addr) : lo + free.length * sizeofHeader ≤ 2 ^ 32 ∨ free = [] := by
  induction free generalizing lo with
  | nil => exact Or.inr rfl
  | cons b bs ih =>
    obtain ⟨h1, h2, h3⟩ := hb b List.mem_cons_self
    rw [List.pairwise_cons] at hg
    have hrest := ih b.stop (fun c hc => ⟨(hg.1 c hc).le, (hb c (List.mem_cons_of_mem _ hc)).2⟩) hg.2
    simp only [Block.stop, sizeofHeader, List.length_cons] at *
    rcases hrest with hrest | rfl
    · omega
    · simp only [List.length_nil]
      omega

theorem Rep.length_le (hr : Rep base h free) : free.length ≤ 2 ^ 29 := by
  rcases length_le_of_gaps 0 (fun b hb => ⟨Nat.zero_le _, (hr.bounded b hb).pos, (hr.bounded b hb).below⟩)
    hr.gaps with hl | rfl
  · simp only [sizeofHeader] at hl
    omega
  · exact Nat.zero_le _

/-- The blocks below an address, and those above. -/
theorem exists_split {n : Nat} (hs : (addrs free).Pairwise (· < ·)) (hn : n ∉ addrs free) :
    ∃ pre post, free = pre ++ post ∧ (∀ x ∈ addrs pre, x < n) ∧ ∀ x ∈ addrs post, n < x := by
  induction free with
  | nil => exact ⟨[], [], rfl, by simp, by simp⟩
  | cons b bs ih =>
    rw [addrs_cons, List.mem_cons, not_or] at hn
    rw [addrs_cons, List.pairwise_cons] at hs
    rcases Nat.lt_or_ge b.addr n with hlt | hge
    · obtain ⟨pre, post, rfl, h1, h2⟩ := ih hs.2 hn.2
      refine ⟨b :: pre, post, rfl, fun x hx => ?_, h2⟩
      rcases List.mem_cons.mp hx with rfl | hx
      · exact hlt
      · exact h1 x hx
    · refine ⟨[], b :: bs, rfl, by simp, fun x hx => ?_⟩
      rcases List.mem_cons.mp hx with rfl | hx
      · omega
      · have := hs.1 x hx
        omega

/-! ## The loop of `free` -/

theorem stopsAt_iff {n y : Nat} : stopsAt h n y = true ↔
    y < n ∧ n < h.next y ∨ h.next y ≤ y ∧ (y < n ∨ n < h.next y) := by
  simp [stopsAt]

/-- The cycle cut open behind `p`. -/
structure Cut (base : Nat) (next : Nat → Nat) (init : List Nat) (p : Nat) (post : List Block) : Prop where
  before : Linked next (init ++ [p])
  after : Linked next (p :: (addrs post ++ [base]))

theorem Cut.cyclic {next : Nat → Nat} {init : List Nat} {p : Nat} {pre post : List Block}
    (hc : Cut base next init p post) (hinit : base :: addrs pre = init ++ [p]) :
    Cyclic next (base :: addrs (pre ++ post)) := by
  have hall : Linked next (init ++ p :: (addrs post ++ [base])) := linked_split.mpr ⟨hc.before, hc.after⟩
  show Linked next (base :: addrs (pre ++ post) ++ [base])
  rw [addrs_append, ← List.cons_append, hinit]
  simpa using hall

/-- The cycle of a free list, cut open behind its part `pre`. -/
theorem Rep.cut {init : List Nat} {p : Nat} {pre post : List Block} (hr : Rep base h (pre ++ post))
    (hinit : base :: addrs pre = init ++ [p]) : Cut base h.next init p post ∧
      (init ++ p :: addrs post).Pairwise (· < ·) := by
  have hcyc : Linked h.next (base :: addrs (pre ++ post) ++ [base]) := hr.cyclic
  have hsorted := hr.sorted
  rw [addrs_append, ← List.cons_append, hinit] at hcyc hsorted
  simp only [List.append_assoc, List.cons_append] at hcyc hsorted
  obtain ⟨hbefore, hafter⟩ := linked_split.mp hcyc
  exact ⟨⟨hbefore, hafter⟩, hsorted⟩

/-- The last node below a part of the list. -/
theorem exists_last (base : Nat) (pre : List Block) : ∃ init p, base :: addrs pre = init ++ [p] := by
  obtain ⟨init, p, h⟩ := (List.eq_nil_or_concat (base :: addrs pre)).resolve_left (by simp)
  exact ⟨init, p, by simpa using h⟩

/-- Where the cycle is cut the address `n` belongs. -/
structure CutAt (base : Nat) (h : Heap) (n : Nat) (init : List Nat) (p : Nat) (post : List Block) : Prop where
  cut : Cut base h.next init p post
  sorted : (init ++ p :: addrs post).Pairwise (· < ·)
  lt : p < n
  gt : ∀ x ∈ addrs post, n < x
  base_le : base ≤ p

/-- **The loop of `free`** stops at the last node before the block. -/
theorem CutAt.stopsAt {n p : Nat} {init : List Nat} {post : List Block} (hc : CutAt base h n init p post) {y : Nat}
    (hy : y ∈ init ++ p :: addrs post) : stopsAt h n y = true ↔ y = p := by
  obtain ⟨⟨hbefore, hafter⟩, hsorted, hlt, hgt, hbase⟩ := hc
  obtain ⟨hinit, hpost, hcross⟩ := List.pairwise_append.mp hsorted
  rw [List.pairwise_cons] at hpost
  rw [stopsAt_iff]
  rcases List.mem_append.mp hy with hy | hy
  · -- before p the links ascend and stay below n
    have hyp := hcross y hy p List.mem_cons_self
    rcases hbefore.next_rel hinit hy with hnext | ⟨hmem, hnext⟩
    · omega
    · have := hcross _ hmem p List.mem_cons_self
      omega
  · rcases List.mem_cons.mp hy with rfl | hy
    · have hrel := hafter.next_rel (l := y :: addrs post) (List.pairwise_cons.mpr hpost) List.mem_cons_self
      rcases hrel with hnext | ⟨hmem, hnext⟩
      · omega
      · rcases List.mem_cons.mp hmem with heq | hmem
        · omega
        · have := hgt _ hmem
          omega
    · -- behind p the links ascend above n, or lead back to base
      have hny := hgt y hy
      have htail : Linked h.next (addrs post ++ [base]) := List.IsChain.tail hafter
      rcases htail.next_rel hpost.2 hy with hnext | ⟨_, hnext⟩ <;> omega

/-! ## Joining -/

theorem ptrAdd_stop {b : Block} (hb : Bounded base b) (hs : h.size b.addr = b.size) (x : Nat) (hx : 0 < x)
    (hx' : x < 2 ^ 32) : ptrAdd b.addr (h.size b.addr) = x ↔ b.stop = x := by
  have h3 := hb.below
  rw [hs, ptrAdd]
  simp only [Block.stop] at *
  rcases Nat.lt_or_ge (b.addr + b.size * sizeofHeader) (2 ^ 32) with hlt | hge
  · rw [Nat.mod_eq_of_lt hlt]
  · have : b.addr + b.size * sizeofHeader = 2 ^ 32 := by omega
    rw [this, Nat.mod_self]
    omega

/-- `b` joined with the block right above. -/
def Block.join (b c : Block) : Block := ⟨b.addr, b.size + c.size⟩

theorem Block.join_stop {b c : Block} (hbc : b.stop = c.addr) : (b.join c).stop = c.stop := by
  simp only [Block.stop, Block.join, sizeofHeader] at *
  omega

theorem Bounded.join {b c : Block} (hb : Bounded base b) (hc : Bounded base c) (hbc : b.stop = c.addr) :
    Bounded base (b.join c) := by
  refine ⟨hb.above, Nat.le_add_right_of_le hb.pos, ?_⟩
  rw [Block.join_stop hbc]
  exact hc.below

/-- The new size fits. -/
theorem Bounded.join_size {b c : Block} (hb : Bounded base b) (hc : Bounded base c) (hbc : b.stop = c.addr) :
    (b.size + c.size) % 2 ^ 32 = (b.join c).size := by
  have := (hb.join hc hbc).below
  simp only [Block.stop, Block.join, sizeofHeader] at *
  omega

theorem tiles_join {b c : Block} {is : List (Nat × Nat)} {s : Set Nat} (hbc : b.stop = c.addr)
    (ht : Tiles ((b.addr, b.stop) :: (c.addr, c.stop) :: is) s) :
    Tiles (((b.join c).addr, (b.join c).stop) :: is) s := by
  rw [Block.join_stop hbc]
  rw [hbc] at ht
  have hb : b.addr ≤ c.addr := by
    rw [← hbc]
    exact Nat.le_add_right _ _
  exact (tiles_cut hb (Nat.le_add_right _ _)).mp ht

/-- What the first half of `free` leaves: `m` starts the chain back to `base`, and is not linked to yet. -/
structure Upper (base : Nat) (h : Heap) (b : Block) (post : List Block) (h' : Heap) (m : Block) (rest : List Block) :
    Prop where
  addr : m.addr = b.addr
  linked : Linked h'.next (m.addr :: (addrs rest ++ [base]))
  size : h'.size m.addr = m.size
  next_same : ∀ x, x ≠ b.addr → h'.next x = h.next x
  size_same : ∀ x, x ≠ b.addr → h'.size x = h.size x
  freeP : h'.freeP = h.freeP
  brks : h'.brks = h.brks
  bounded : Bounded base m
  grows : b.size ≤ m.size
  sublist : rest.Sublist post
  gap : ∀ c ∈ rest, m.stop < c.addr
  tiles : ∀ is s, Tiles (spans (b :: post) ++ is) s → Tiles (spans (m :: rest) ++ is) s

/-- **Joining upwards.** -/
theorem joinUpper_spec {b : Block} {p : Nat} {post : List Block} (hbase : 0 < base) (hb : Bounded base b)
    (hsize : h.size b.addr = b.size) (hpost : ∀ c ∈ post, Bounded base c ∧ h.size c.addr = c.size)
    (hgaps : post.Pairwise fun b c => b.stop < c.addr) (hgt : ∀ c ∈ post, b.stop ≤ c.addr)
    (hlink : Linked h.next (p :: (addrs post ++ [base]))) :
    ∃ m rest, Upper base h b post (joinUpper h b.addr p) m rest := by
  have hbaddr := hb.addr_lt
  have hne : ∀ c ∈ post, c.addr ≠ b.addr := fun c hc => by have := hgt c hc; omega
  -- nothing to join: the block is linked to what p was linked to
  have hlinked : ptrAdd b.addr (h.size b.addr) ≠ h.next p → (∀ c ∈ post, b.stop < c.addr) →
      Upper base h b post (joinUpper h b.addr p) b post := by
    intro hno hgap
    have heq : joinUpper h b.addr p = h.setNext b.addr (h.next p) := if_neg hno
    rw [heq]
    refine ⟨rfl, ?_, by rw [Heap.setNext_size, hsize], fun x hx => by rw [Heap.setNext_next, if_neg hx],
      fun x _ => Heap.setNext_size .., rfl, rfl, hb, le_rfl, List.Sublist.refl _, hgap, fun _ _ ht => ht⟩
    refine hlink.relink_head (by rw [Heap.setNext_next, if_pos rfl]) fun z hz => ?_
    obtain ⟨c, hc, rfl⟩ := mem_addrs.mp hz
    rw [Heap.setNext_next, if_neg (hne c hc)]
  cases post with
  | nil =>
    have hnext : h.next p = base := by simpa [Linked] using hlink
    refine ⟨b, [], hlinked ?_ (by simp)⟩
    rw [hnext, ne_eq, ptrAdd_stop hb hsize base hbase (by have := hb.below; omega)]
    omega
  | cons c post =>
    obtain ⟨hnext, hchain⟩ : h.next p = c.addr ∧ Linked h.next (c.addr :: (addrs post ++ [base])) := by
      simpa only [Linked, addrs_cons, List.cons_append, List.isChain_cons_cons] using hlink
    obtain ⟨hc, hcsize⟩ := hpost c List.mem_cons_self
    have hcaddr := hc.addr_lt
    rw [List.pairwise_cons] at hgaps
    have hiff := ptrAdd_stop hb hsize c.addr (by omega) (by have := hc.below; omega)
    by_cases hj : b.stop = c.addr
    · have heq : joinUpper h b.addr p = (h.setSize b.addr (b.join c).size).setNext b.addr (h.next c.addr) := by
        rw [joinUpper, if_pos (by rw [hnext]; exact hiff.mpr hj)]
        simp only [Heap.setSize_next, hnext, hsize, hcsize, hb.join_size hc hj]
      rw [heq]
      refine ⟨b.join c, post, rfl, ?_, ?_, fun x hx => ?_, fun x hx => ?_, rfl, rfl, hb.join hc hj,
        Nat.le_add_right _ _, List.sublist_cons_self _ _, fun d hd => ?_, fun is s ht => tiles_join hj ht⟩
      · refine hchain.relink_head (by rw [Block.join, Heap.setNext_next, if_pos rfl]) fun z hz => ?_
        obtain ⟨d, hd, rfl⟩ := mem_addrs.mp hz
        rw [Heap.setNext_next, if_neg (hne d (List.mem_cons_of_mem _ hd)), Heap.setSize_next]
      · rw [Heap.setNext_size, Heap.setSize_size]
        exact if_pos rfl
      · rw [Heap.setNext_next, if_neg hx, Heap.setSize_next]
      · rw [Heap.setNext_size, Heap.setSize_size, if_neg hx]
      · rw [Block.join_stop hj]
        exact hgaps.1 d hd
    · refine ⟨b, c :: post, hlinked (by rw [hnext]; exact fun he => hj (hiff.mp he)) fun d hd => ?_⟩
      have hbc := hgt c List.mem_cons_self
      rcases List.mem_cons.mp hd with rfl | hd
      · omega
      · have := hgaps.1 d hd
        omega

/-! ## Giving a block back -/

theorem spans_front (b : Block) (pre post : List Block) (is : List (Nat × Nat)) :
    (spans (b :: (pre ++ post)) ++ is).Perm (spans (b :: post) ++ (spans pre ++ is)) := by
  simp only [spans_cons, spans_append, List.cons_append, List.append_assoc]
  exact (List.perm_append_comm_assoc _ _ _).cons _

theorem spans_back (pre bs : List Block) (is : List (Nat × Nat)) :
    (spans bs ++ (spans pre ++ is)).Perm (spans (pre ++ bs) ++ is) := by
  rw [spans_append, List.append_assoc]
  exact List.perm_append_comm_assoc _ _ _

/-- The block `b` lies between the free blocks `pre` and `post`. -/
structure Placed (base : Nat) (h : Heap) (b : Block) (pre post : List Block) : Prop where
  base_pos : 0 < base
  rep : Rep base h (pre ++ post)
  bounded : Bounded base b
  size : h.size b.addr = b.size
  below : ∀ c ∈ pre, c.stop ≤ b.addr
  above : ∀ c ∈ post, b.stop ≤ c.addr

/-- What `free` of the block `b` does to the heap. -/
structure Freed (base : Nat) (h : Heap) (b : Block) (free : List Block) (h' : Heap) (free' : List Block) : Prop where
  rep : Rep base h' free'
  brks : h'.brks = h.brks
  size_same : ∀ x, x ≠ b.addr → x ∉ base :: addrs free → h'.size x = h.size x
  grows : ∃ c ∈ free', b.size ≤ c.size
  tiles : ∀ is s, Tiles (spans (b :: free) ++ is) s → Tiles (spans free' ++ is) s

section Placed

variable {b m : Block} {pre post rest : List Block} {h₁ : Heap} {init : List Nat} {p : Nat}

theorem Placed.pre_ne (hp : Placed base h b pre post) {c : Block} (hc : c ∈ pre ++ post) : c.addr ≠ b.addr := by
  have hcaddr := (hp.rep.bounded c hc).addr_lt
  have hbaddr := hp.bounded.addr_lt
  rcases List.mem_append.mp hc with hc | hc
  · have := hp.below c hc
    omega
  · have := hp.above c hc
    omega

/-- The last node below the block is not one of those above. -/
theorem Placed.last_lt (hp : Placed base h b pre post) (hinit : base :: addrs pre = init ++ [p]) :
    p < b.addr ∧ p ∈ base :: addrs pre := by
  have hmem : p ∈ base :: addrs pre := hinit ▸ List.mem_append_right _ (List.mem_singleton_self p)
  refine ⟨?_, hmem⟩
  rcases List.mem_cons.mp hmem with rfl | hmem
  · exact hp.bounded.addr_lt.1
  · obtain ⟨c, hc, rfl⟩ := mem_addrs.mp hmem
    have := (hp.rep.bounded c (List.mem_append_left _ hc)).addr_lt
    have := hp.below c hc
    omega

theorem Placed.cutAt (hp : Placed base h b pre post) (hinit : base :: addrs pre = init ++ [p]) :
    CutAt base h b.addr init p post := by
  obtain ⟨hcut, hsorted⟩ := hp.rep.cut hinit
  refine ⟨hcut, hsorted, (hp.last_lt hinit).1, fun x hx => ?_, ?_⟩
  · obtain ⟨c, hc, rfl⟩ := mem_addrs.mp hx
    have := hp.above c hc
    have := hp.bounded.addr_lt
    omega
  · rcases List.mem_cons.mp (hp.last_lt hinit).2 with rfl | hmem
    · exact le_rfl
    · obtain ⟨c, hc, rfl⟩ := mem_addrs.mp hmem
      exact (hp.rep.bounded c (List.mem_append_left _ hc)).addr_lt.1.le

/-- The loop finds it. -/
theorem Placed.walk_eq (hp : Placed base h b pre post) (hinit : base :: addrs pre = init ++ [p]) :
    walk h.next (Libc.stopsAt h b.addr) rounds h.freeP = some p := by
  have hcut := hp.cutAt hinit
  have hnodes : base :: addrs (pre ++ post) = init ++ p :: addrs post := by
    rw [addrs_append, ← List.cons_append, hinit, List.append_assoc, List.singleton_append]
  refine walk_cyclic hp.rep.cyclic hp.rep.cursor ?_ (fun y hy => ?_) ?_
  · rw [hnodes]
    simp
  · rw [hnodes] at hy
    exact hcut.stopsAt hy
  · have := hp.rep.length_le
    simp only [addrs, rounds, List.length_cons, List.length_map]
    omega

theorem Placed.upper (hp : Placed base h b pre post) (hinit : base :: addrs pre = init ++ [p]) :
    ∃ m rest, Upper base h b post (joinUpper h b.addr p) m rest :=
  joinUpper_spec hp.base_pos hp.bounded hp.size
    (fun c hc => ⟨hp.rep.bounded c (List.mem_append_right _ hc), hp.rep.size c (List.mem_append_right _ hc)⟩)
    (List.pairwise_append.mp hp.rep.gaps).2.1 hp.above (hp.cutAt hinit).cut.after

theorem mem_of_upper (hu : Upper base h b post h₁ m rest) {c : Block} (hc : c ∈ rest) : c ∈ post := hu.sublist.subset hc

/-- **No block below touches**: the last node below is linked to the block. -/
theorem Placed.unjoined (hp : Placed base h b pre post) (hu : Upper base h b post h₁ m rest)
    (hinit : base :: addrs pre = init ++ [p]) (hgap : ∀ c ∈ pre, c.stop < b.addr) :
    Freed base h b (pre ++ post) { h₁.setNext p b.addr with freeP := p } (pre ++ m :: rest) := by
  have hcut := hp.cutAt hinit
  obtain ⟨hlt, hpmem⟩ := hp.last_lt hinit
  have hnext : ∀ x, x ≠ p → ({ h₁.setNext p b.addr with freeP := p } : Heap).next x = h₁.next x := fun x hx => by
    show (h₁.setNext p b.addr).next x = _
    rw [Heap.setNext_next, if_neg hx]
  have hsize : ∀ x, ({ h₁.setNext p b.addr with freeP := p } : Heap).size x = h₁.size x := fun x =>
    Heap.setNext_size ..
  obtain ⟨_, hpostp, hcross⟩ := List.pairwise_append.mp hcut.sorted
  have hrestgt : ∀ c ∈ rest, b.addr < c.addr := fun c hc => hcut.gt _ (mem_addrs.mpr ⟨c, mem_of_upper hu hc, rfl⟩)
  obtain ⟨hgpre, hgpost, hgcross⟩ := List.pairwise_append.mp hp.rep.gaps
  refine ⟨⟨?_, ?_, ?_, fun c hc => ?_, fun c hc => ?_, ?_⟩, hu.brks, fun x hx _ => ?_, ⟨m, by simp, hu.grows⟩,
    fun is s ht => ?_⟩
  · refine Cut.cyclic ⟨hcut.cut.before.congr fun x hx => ?_, List.isChain_cons_cons.mpr ⟨?_, ?_⟩⟩ hinit
    · have := hcross x hx p List.mem_cons_self
      rw [hnext x (by omega), hu.next_same x (by omega)]
    · show (h₁.setNext p b.addr).next p = m.addr
      rw [Heap.setNext_next, if_pos rfl, hu.addr]
    · refine Linked.congr (l := m.addr :: addrs rest) hu.linked fun x hx => hnext x ?_
      rcases List.mem_cons.mp hx with rfl | hx
      · rw [hu.addr]
        omega
      · obtain ⟨c, hc, rfl⟩ := mem_addrs.mp hx
        have := hrestgt c hc
        omega
  · rw [addrs_append, ← List.cons_append]
    exact List.mem_append_left _ hpmem
  · rw [hsize, hu.size_same base hp.bounded.addr_lt.1.ne, hp.rep.size_base]
  · rw [hsize]
    rcases List.mem_append.mp hc with hc | hc
    · have hmem := List.mem_append_left post hc
      rw [hu.size_same _ (hp.pre_ne hmem), hp.rep.size c hmem]
    · rcases List.mem_cons.mp hc with rfl | hc
      · exact hu.size
      · have hmem := List.mem_append_right pre (mem_of_upper hu hc)
        rw [hu.size_same _ (hp.pre_ne hmem), hp.rep.size c hmem]
  · rcases List.mem_append.mp hc with hc | hc
    · exact hp.rep.bounded c (List.mem_append_left _ hc)
    · rcases List.mem_cons.mp hc with rfl | hc
      · exact hu.bounded
      · exact hp.rep.bounded c (List.mem_append_right _ (mem_of_upper hu hc))
  · refine List.pairwise_append.mpr ⟨hgpre, List.pairwise_cons.mpr ⟨hu.gap, hgpost.sublist hu.sublist⟩,
      fun c hc d hd => ?_⟩
    rcases List.mem_cons.mp hd with rfl | hd
    · rw [hu.addr]
      exact hgap c hc
    · exact hgcross c hc d (mem_of_upper hu hd)
  · rw [hsize, hu.size_same x hx]
  · exact (hu.tiles _ _ (ht.perm (spans_front b pre post is))).perm (spans_back pre (m :: rest) is)

/-- **The block `q` below touches**: it takes the block in, with what was joined from above. -/
theorem Placed.joined {q : Block} (hp : Placed base h b (pre ++ [q]) post) (hu : Upper base h b post h₁ m rest)
    (hq : q.stop = b.addr) : Freed base h b (pre ++ [q] ++ post)
      { (h₁.setSize q.addr (q.join m).size).setNext q.addr (h₁.next m.addr) with freeP := q.addr }
      (pre ++ q.join m :: rest) := by
  have hinit : base :: addrs (pre ++ [q]) = base :: addrs pre ++ [q.addr] := by simp
  have hcut := hp.cutAt hinit
  obtain ⟨hlt, hpmem⟩ := hp.last_lt hinit
  have hqm : q.stop = m.addr := hq.trans hu.addr.symm
  have hqmem : q ∈ pre ++ [q] ++ post := by simp
  have hqb := hp.rep.bounded q hqmem
  generalize hh₂ : ({ (h₁.setSize q.addr (q.join m).size).setNext q.addr (h₁.next m.addr) with
    freeP := q.addr } : Heap) = h₂
  have hnext : ∀ x, h₂.next x = if x = q.addr then h₁.next m.addr else h₁.next x := fun x => by
    subst hh₂
    show ((h₁.setSize q.addr (q.join m).size).setNext q.addr (h₁.next m.addr)).next x = _
    rw [Heap.setNext_next, Heap.setSize_next]
  have hsize : ∀ x, h₂.size x = if x = q.addr then (q.join m).size else h₁.size x := fun x => by
    subst hh₂
    show ((h₁.setSize q.addr (q.join m).size).setNext q.addr (h₁.next m.addr)).size x = _
    rw [Heap.setNext_size, Heap.setSize_size]
  obtain ⟨hsorted, _, hcross⟩ := List.pairwise_append.mp hcut.sorted
  obtain ⟨hgpre, hgpost, hgcross⟩ := List.pairwise_append.mp hp.rep.gaps
  obtain ⟨hgpre, _, hgq⟩ := List.pairwise_append.mp hgpre
  have hrestgt : ∀ c ∈ rest, b.addr < c.addr := fun c hc => hcut.gt _ (mem_addrs.mpr ⟨c, mem_of_upper hu hc, rfl⟩)
  -- the size of an old block other than q
  have hold : ∀ c ∈ pre ++ [q] ++ post, c.addr ≠ q.addr → h₂.size c.addr = c.size := fun c hc hne => by
    rw [hsize, if_neg hne, hu.size_same _ (hp.pre_ne hc), hp.rep.size c hc]
  have hpreq : ∀ c ∈ pre, c.addr ≠ q.addr := fun c hc => by
    have := hgq c hc q List.mem_cons_self
    have := (hp.rep.bounded c (by simp [hc])).addr_lt
    omega
  refine ⟨⟨?_, ?_, ?_, fun c hc => ?_, fun c hc => ?_, ?_⟩, ?_, fun x hx hxf => ?_,
    ⟨q.join m, by simp, hu.grows.trans (Nat.le_add_left _ _)⟩, fun is s ht => ?_⟩
  · rw [List.append_cons]
    refine Cut.cyclic ⟨hcut.cut.before.congr fun x hx => ?_, ?_⟩ (by simp [Block.join])
    · have := hcross x hx q.addr List.mem_cons_self
      rw [hnext, if_neg (by omega), hu.next_same x (by omega)]
    · refine hu.linked.relink_head (by rw [hnext]; exact if_pos rfl) fun z hz => ?_
      obtain ⟨c, hc, rfl⟩ := mem_addrs.mp hz
      have := hrestgt c hc
      rw [hnext, if_neg (by omega)]
  · subst hh₂
    simp [Block.join]
  · rw [hsize, if_neg hqb.addr_lt.1.ne, hu.size_same base hp.bounded.addr_lt.1.ne, hp.rep.size_base]
  · rcases List.mem_append.mp hc with hc | hc
    · exact hold c (by simp [hc]) (hpreq c hc)
    · rcases List.mem_cons.mp hc with rfl | hc
      · rw [hsize]
        exact if_pos rfl
      · have := hrestgt c hc
        exact hold c (List.mem_append_right _ (mem_of_upper hu hc)) (by omega)
  · rcases List.mem_append.mp hc with hc | hc
    · exact hp.rep.bounded c (by simp [hc])
    · rcases List.mem_cons.mp hc with rfl | hc
      · exact hqb.join hu.bounded hqm
      · exact hp.rep.bounded c (List.mem_append_right _ (mem_of_upper hu hc))
  · refine List.pairwise_append.mpr ⟨hgpre, List.pairwise_cons.mpr ⟨fun d hd => ?_, hgpost.sublist hu.sublist⟩,
      fun c hc d hd => ?_⟩
    · rw [Block.join_stop hqm]
      exact hu.gap d hd
    · rcases List.mem_cons.mp hd with rfl | hd
      · exact hgq c hc q List.mem_cons_self
      · exact hgcross c (by simp [hc]) d (mem_of_upper hu hd)
  · subst hh₂
    exact hu.brks
  · rw [hsize, if_neg fun he => hxf (by simp [he]), hu.size_same x hx]
  · have hbelow : (spans (m :: rest) ++ (spans (pre ++ [q]) ++ is)).Perm
        (spans (q :: m :: rest) ++ (spans pre ++ is)) := by
      have hq : spans (pre ++ [q]) ++ is = spans pre ++ (q.addr, q.stop) :: is := by simp
      rw [hq, ← List.append_assoc, spans_cons q, List.cons_append, ← List.append_assoc]
      exact List.perm_middle
    have hjoined := tiles_join hqm ((hu.tiles _ _ (ht.perm (spans_front b (pre ++ [q]) post is))).perm hbelow)
    exact hjoined.perm (spans_back pre (q.join m :: rest) is)

end Placed

/-- Disjoint blocks lie one above the other. -/
theorem apart_of_disjoint {b c : Block} (hb : Bounded base b) (hc : Bounded base c)
    (hd : Disjoint (interval (c.addr, c.stop)) (interval (b.addr, b.stop))) : c.stop ≤ b.addr ∨ b.stop ≤ c.addr := by
  have hbaddr := hb.addr_lt
  have hcaddr := hc.addr_lt
  by_contra hno
  have hmax : max b.addr c.addr ∈ interval (c.addr, c.stop) := Set.mem_Ico.mpr ⟨le_max_right _ _, by omega⟩
  exact Set.disjoint_left.mp hd hmax (Set.mem_Ico.mpr ⟨le_max_left _ _, by omega⟩)

theorem exists_placed {b : Block} (hbase : 0 < base) (hr : Rep base h free) (hb : Bounded base b)
    (hsize : h.size b.addr = b.size)
    (hd : ∀ c ∈ free, Disjoint (interval (c.addr, c.stop)) (interval (b.addr, b.stop))) :
    ∃ pre post, free = pre ++ post ∧ Placed base h b pre post := by
  have hapart := fun c hc => apart_of_disjoint hb (hr.bounded c hc) (hd c hc)
  have hbaddr := hb.addr_lt
  have hnot : b.addr ∉ addrs free := by
    intro hmem
    obtain ⟨c, hc, heq⟩ := mem_addrs.mp hmem
    have := hapart c hc
    have := (hr.bounded c hc).addr_lt
    omega
  obtain ⟨pre, post, rfl, hlt, hgt⟩ := exists_split (List.pairwise_cons.mp hr.sorted).2 hnot
  refine ⟨pre, post, rfl, hbase, hr, hb, hsize, fun c hc => ?_, fun c hc => ?_⟩
  · have := hapart c (List.mem_append_left _ hc)
    have := hlt c.addr (mem_addrs.mpr ⟨c, hc, rfl⟩)
    omega
  · have := hapart c (List.mem_append_right _ hc)
    have := hgt c.addr (mem_addrs.mpr ⟨c, hc, rfl⟩)
    have := (hr.bounded c (List.mem_append_right _ hc)).addr_lt
    omega

theorem ptrSub_ptrAdd {b : Block} (hb : Bounded base b) : ptrSub (ptrAdd b.addr 1) 1 = b.addr := by
  obtain ⟨_, h2, h3⟩ := hb
  simp only [ptrSub, ptrAdd, Block.stop, sizeofHeader] at *
  omega

/-- **`free`** gives a block back that overlaps no free block. -/
theorem free_rep {b : Block} (hbase : 0 < base) (hr : Rep base h free) (hb : Bounded base b)
    (hsize : h.size b.addr = b.size)
    (hd : ∀ c ∈ free, Disjoint (interval (c.addr, c.stop)) (interval (b.addr, b.stop))) :
    ∃ h' free', Libc.free h (ptrAdd b.addr 1) = some h' ∧ Freed base h b free h' free' := by
  obtain ⟨pre, post, rfl, hp⟩ := exists_placed hbase hr hb hsize hd
  rcases List.eq_nil_or_concat pre with rfl | ⟨pre, q, rfl⟩
  · -- the list head is the last node below; it is never joined
    have hinit : base :: addrs [] = [] ++ [base] := rfl
    obtain ⟨m, rest, hu⟩ := hp.upper hinit
    have hno : ptrAdd base ((joinUpper h b.addr base).size base) ≠ b.addr := by
      rw [hu.size_same base hb.addr_lt.1.ne, hr.size_base, ptrAdd, Nat.zero_mul, Nat.add_zero]
      have := Nat.mod_le base (2 ^ 32)
      have := hb.addr_lt
      omega
    refine ⟨_, _, ?_, hp.unjoined hu hinit (by simp)⟩
    rw [Libc.free, ptrSub_ptrAdd hb, hp.walk_eq hinit, Option.map_some, joinLower, if_neg hno]
  · rw [List.concat_eq_append] at hp ⊢
    have hinit : base :: addrs (pre ++ [q]) = base :: addrs pre ++ [q.addr] := by simp
    obtain ⟨m, rest, hu⟩ := hp.upper hinit
    have hqmem : q ∈ pre ++ [q] ++ post := by simp
    have hqb := hr.bounded q (by simp)
    have hqsize : (joinUpper h b.addr q.addr).size q.addr = q.size := by
      rw [hu.size_same _ (hp.pre_ne hqmem), hp.rep.size q hqmem]
    have hiff := ptrAdd_stop hqb hqsize b.addr (by have := hb.addr_lt; omega) (by have := hb.addr_lt; have := hb.below; omega)
    by_cases hj : q.stop = b.addr
    · refine ⟨_, _, ?_, hp.joined hu hj⟩
      have hmsize := hu.size
      rw [hu.addr] at hmsize
      rw [Libc.free, ptrSub_ptrAdd hb, hp.walk_eq hinit, Option.map_some, joinLower, if_pos (hiff.mpr hj)]
      simp only [Heap.setSize_next, hqsize, hmsize, hqb.join_size hu.bounded (hj.trans hu.addr.symm), hu.addr]
    · refine ⟨_, _, ?_, hp.unjoined hu hinit fun c hc => ?_⟩
      · rw [Libc.free, ptrSub_ptrAdd hb, hp.walk_eq hinit, Option.map_some, joinLower,
          if_neg fun he => hj (hiff.mp he)]
      · have hbelow := hp.below c hc
        rcases List.mem_append.mp hc with hc | hc
        · have := (List.pairwise_append.mp (List.pairwise_append.mp hp.rep.gaps).1).2.2 c hc q List.mem_cons_self
          have := hp.below q (by simp)
          have := hqb.addr_lt
          omega
        · rw [List.mem_singleton.mp hc] at hbelow ⊢
          omega

end Raampjes.Libc
