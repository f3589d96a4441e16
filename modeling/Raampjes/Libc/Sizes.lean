import Raampjes.Libc.Partition

/-!
# Requests of every size

`alloc_free` asks `sbrk` for `size * 8` bytes, formed in 32 bits and read as a signed number, and enters a block of
`size` units whatever the product is.

- `Unwrapped`: the request is below 2^28 bytes, or a free block is large enough, or `sbrk` refuses;
- `malloc_cases`: what `malloc` then does; `step_unwrapped`: no call leaves a sound state;
- `malloc_sound_iff`: the calls of a program are sound just if they are all unwrapped.
-/

namespace Raampjes.Libc

open CyclicList Tiling Runs

variable {base lo : Nat} {h : Heap} {free : List Block} {live : List Live} {s t : State}

/-- The argument of `sbrk` in a call of `malloc`. -/
def sbrkArg (bytes : Nat) : Nat := requested bytes * sizeofHeader % 2 ^ 32

/-- A 32-bit argument read as a signed number. -/
def signed (w : Nat) : Int := if w < 2 ^ 31 then w else w - 2 ^ 32

/-- Some free block has the units for so many bytes. -/
def Fits (h : Heap) (bytes : Nat) : Prop :=
  h.freeP ≠ 0 ∧ ∃ k, (bytes - 1) / sizeofHeader + 2 ≤ h.size (h.next^[k] h.freeP)

/-- The product is no issue: it does not wrap, it is not formed, or nothing comes of it. -/
def Unwrapped (s : State) : Act → Prop
  | .malloc bytes answers => bytes < 2 ^ 28 ∨ Fits s.heap bytes ∨ answers.head? = some sbrkFailed
  | .free _ => True
  | .write _ _ => True

/-- `sbrk` fails, or hands out a new region of the length it is asked for; the length matters below 2^31 bytes only. -/
def Handed (base : Nat) (s : State) (bytes p : Nat) : Prop :=
  p = sbrkFailed ∨ (bytes < 2 ^ 28 → Fresh base s.heap.brks p (sbrkArg bytes))

/-- What a program may do: allocate any number of bytes, free what it holds, write to what it holds. -/
def Allowed (base : Nat) (s : State) : Act → Prop
  | .malloc bytes answers => 0 < bytes ∧ bytes < 2 ^ 32 ∧ ∃ p rest, answers = p :: rest ∧ Handed base s bytes p
  | .free p => Admissible base s (.free p)
  | .write p words => Admissible base s (.write p words)

/-! ## The argument -/

theorem sbrkArg_small {bytes : Nat} (hb : bytes < 2 ^ 28) : sbrkArg bytes = requested bytes * sizeofHeader ∧
    signed (sbrkArg bytes) = (requested bytes * sizeofHeader : Nat) := by
  have h := (requested_spec bytes).2.2 hb
  have harg : sbrkArg bytes = requested bytes * sizeofHeader := by
    rw [sbrkArg, Nat.mod_eq_of_lt]
    rw [sizeofHeader]
    omega
  refine ⟨harg, ?_⟩
  rw [harg, signed, if_pos]
  rw [sizeofHeader]
  omega

/-- From 2^28 bytes on the block entered is larger than what `sbrk` gives. -/
theorem signed_large {bytes : Nat} (hb : 2 ^ 28 ≤ bytes) :
    signed (sbrkArg bytes) < (requested bytes * sizeofHeader : Nat) := by
  have h := (requested_spec bytes).1
  have hlt : sbrkArg bytes < 2 ^ 32 := Nat.mod_lt _ (by decide)
  simp only [signed, sizeofHeader]
  split <;> omega

/-! ## `malloc` -/

/-- The heap with its list, which the first call creates. -/
def withList (base : Nat) (h : Heap) : Heap :=
  if h.freeP = 0 then { (h.setNext base base).setSize base 0 with freeP := base } else h

theorem malloc_withList {bytes : Nat} (h0 : 0 < bytes) (answers : List Nat) : malloc base h bytes answers =
    mallocLoop bytes ((bytes - 1) / sizeofHeader + 2) rounds (withList base h) (withList base h).freeP
      ((withList base h).next (withList base h).freeP) answers := by
  rw [malloc, if_neg h0.ne']
  rfl

/-- The list that a call finds or creates. -/
theorem Sound.withList (hbase : 0 < base) (hs : Sound base s) : ∃ free,
    HeapInv base (withList base s.heap) s.live free ∧ (withList base s.heap).brks = s.heap.brks ∧
      ∀ bytes, Fits s.heap bytes ↔ ∃ b ∈ free, (bytes - 1) / sizeofHeader + 2 ≤ b.size := by
  rcases hs with hu | ⟨free, hi⟩
  · have hi := @heapInv_first base _ hu.brks
    rw [← hu.live] at hi
    rw [Libc.withList, if_pos hu.freeP]
    exact ⟨[], hi, rfl, fun bytes => iff_of_false (fun hf => hf.1 hu.freeP) (by simp)⟩
  · rw [Libc.withList, if_neg (hi.freeP_ne hbase)]
    refine ⟨free, hi, rfl, fun bytes => ⟨?_, ?_⟩⟩
    · rintro ⟨_, k, hk⟩
      have hmem := (hi.rep.cyclic.mem_iff hi.rep.cursor).mpr ⟨k, rfl⟩
      rcases List.mem_cons.mp hmem with heq | hmem
      · rw [heq, hi.rep.size_base] at hk
        exact absurd hk (Nat.not_succ_le_zero _)
      · obtain ⟨b, hb, heq⟩ := mem_addrs.mp hmem
        rw [← heq, hi.rep.size b hb] at hk
        exact ⟨b, hb, hk⟩
    · rintro ⟨b, hb, hle⟩
      obtain ⟨k, hk⟩ := (hi.rep.cyclic.mem_iff hi.rep.cursor).mp (List.mem_cons_of_mem _ (mem_addrs.mpr ⟨b, hb, rfl⟩))
      exact ⟨hi.freeP_ne hbase, k, by rwa [hk, hi.rep.size b hb]⟩

/-- The loop of `malloc` in a sound state, the first call included. -/
theorem Sound.malloc_loop (hbase : 0 < base) (hs : Sound base s) {bytes : Nat} (h0 : 0 < bytes) :
    ∃ h free, HeapInv base h s.live free ∧ h.brks = s.heap.brks ∧
      (Fits s.heap bytes ↔ ∃ b ∈ free, (bytes - 1) / sizeofHeader + 2 ≤ b.size) ∧
      ∀ answers, malloc base s.heap bytes answers =
        mallocLoop bytes ((bytes - 1) / sizeofHeader + 2) rounds h h.freeP (h.next h.freeP) answers := by
  obtain ⟨free, hi, hbrks, hfits⟩ := hs.withList hbase
  exact ⟨_, free, hi, hbrks, hfits bytes, malloc_withList h0⟩

/-- What an unwrapped call of `malloc` does. -/
inductive Served (base : Nat) (s : State) (bytes p : Nat) : Nat × Heap → Prop
  | refused {h : Heap} {free : List Block} : HeapInv base h s.live free → h.brks = s.heap.brks →
      Served base s bytes p (0, h)
  | found {h : Heap} {free : List Block} {b : Block} : HeapInv base h (⟨b, bytes⟩ :: s.live) free →
      h.brks = s.heap.brks → Served base s bytes p (ptrAdd b.addr 1, h)
  | extended {h : Heap} {free : List Block} {b : Block} : HeapInv base h (⟨b, bytes⟩ :: s.live) free →
      bytes < 2 ^ 28 → p ≠ sbrkFailed → h.brks = (p, sbrkArg bytes) :: s.heap.brks →
      Served base s bytes p (ptrAdd b.addr 1, h)

/-- **`malloc`**, with any number of bytes. -/
theorem malloc_cases (hbase : 0 < base) (hs : Sound base s) {bytes p : Nat} {rest : List Nat} (h0 : 0 < bytes)
    (hp : Handed base s bytes p) (hc : Unwrapped s (.malloc bytes (p :: rest))) :
    ∃ r, malloc base s.heap bytes (p :: rest) = some r ∧ Served base s bytes p r := by
  obtain ⟨h, free, hi, hbrks, hfits, hloop⟩ := hs.malloc_loop hbase h0
  rw [hloop]
  by_cases hlarge : ∃ b ∈ free, (bytes - 1) / sizeofHeader + 2 ≤ b.size
  · obtain ⟨b, h', free', heq, hinv, hbrks'⟩ := hi.search hbase bytes (p :: rest) hlarge
      (hi.rep.length_le.trans_lt (by decide) : free.length < rounds)
    exact ⟨_, heq, .found hinv (hbrks'.trans hbrks)⟩
  · by_cases hfail : p = sbrkFailed
    · subst hfail
      exact ⟨_, hi.refused bytes rest hlarge, .refused hi hbrks⟩
    · have hsmall : bytes < 2 ^ 28 := by
        rcases hc with hlt | hfit | hhead
        · exact hlt
        · exact absurd (hfits.mp hfit) hlarge
        · exact absurd (Option.some.inj hhead) hfail
      have hfresh := hp.resolve_left hfail hsmall
      rw [← hbrks, (sbrkArg_small hsmall).1] at hfresh
      obtain ⟨b, h', free', heq, hinv, hbrks'⟩ := hi.extended hbase rest hfail hfresh hlarge
      rw [hbrks, ← (sbrkArg_small hsmall).1] at hbrks'
      exact ⟨_, heq, .extended hinv hsmall hfail hbrks'⟩

/-- The pointer of a live block is not 0. -/
theorem HeapInv.ptr_ne (hi : HeapInv base h live free) {l : Live} (hl : l ∈ live) (hb : 0 < l.bytes) :
    ptrAdd l.block.addr 1 ≠ 0 := by
  have h3 := (hi.live_bounded l hl).below
  have hholds := hi.live_holds l hl
  simp only [Live.Holds, Block.stop, sizeofHeader, ptrAdd] at *
  omega

/-- The step of `malloc` that returns a block. -/
theorem step_block {bytes : Nat} {answers : List Nat} {b : Block}
    (hm : malloc base s.heap bytes answers = some (ptrAdd b.addr 1, h)) (h0 : 0 < bytes)
    (hi : HeapInv base h (⟨b, bytes⟩ :: live) free) :
    step base s (.malloc bytes answers) = some (⟨h, ⟨b, bytes⟩ :: s.live⟩, [ptrAdd b.addr 1]) := by
  have hne := hi.ptr_ne List.mem_cons_self h0
  have hsize : h.size b.addr = b.size := hi.live_size _ List.mem_cons_self
  dsimp only at hne
  rw [step, hm, Option.map_some]
  simp only [if_neg hne, ptrSub_ptrAdd (hi.live_bounded _ List.mem_cons_self), hsize]

/-- What an unwrapped step does to the regions of `sbrk`. -/
def Extends (a : Act) (s t : State) : Prop :=
  t.heap.brks = s.heap.brks ∨ ∃ bytes p rest, a = .malloc bytes (p :: rest) ∧ bytes < 2 ^ 28 ∧ p ≠ sbrkFailed ∧
    t.heap.brks = (p, sbrkArg bytes) :: s.heap.brks

/-- The result of `malloc` in the state after. -/
theorem Served.step {bytes p : Nat} {rest : List Nat} {r : Nat × Heap}
    (hm : malloc base s.heap bytes (p :: rest) = some r) (hr : Served base s bytes p r) (h0 : 0 < bytes) :
    (∃ t, Libc.step base s (.malloc bytes (p :: rest)) = some (t, [0]) ∧ Sound base t ∧ t.live = s.live ∧
      t.heap.brks = s.heap.brks) ∨
    ∃ t b free, Libc.step base s (.malloc bytes (p :: rest)) = some (t, [ptrAdd b.addr 1]) ∧
      t.live = ⟨b, bytes⟩ :: s.live ∧ HeapInv base t.heap t.live free ∧ Extends (.malloc bytes (p :: rest)) s t := by
  cases hr with
  | refused hi hbrks =>
    rename_i h free
    left
    refine ⟨⟨h, s.live⟩, ?_, Or.inr ⟨free, hi⟩, rfl, hbrks⟩
    rw [Libc.step, hm]
    rfl
  | found hi hbrks => exact Or.inr ⟨_, _, _, step_block hm h0 hi, rfl, hi, Or.inl hbrks⟩
  | extended hi hsmall hfail hbrks =>
    exact Or.inr ⟨_, _, _, step_block hm h0 hi, rfl, hi, Or.inr ⟨bytes, p, rest, rfl, hsmall, hfail, hbrks⟩⟩

/-- **An unwrapped step** returns and keeps the state sound. -/
theorem step_unwrapped (hbase : 0 < base) (hs : Sound base s) {a : Act} (ha : Allowed base s a) (hc : Unwrapped s a) :
    ∃ t es, step base s a = some (t, es) ∧ Sound base t ∧ Extends a s t := by
  cases a with
  | malloc bytes answers =>
    obtain ⟨h0, _, p, rest, rfl, hp⟩ := ha
    obtain ⟨r, hm, hr⟩ := malloc_cases hbase hs h0 hp hc
    rcases hr.step hm h0 with ⟨t, hst, hsound, _, hbrks⟩ | ⟨t, b, free, hst, _, hi, hext⟩
    · exact ⟨t, _, hst, hsound, Or.inl hbrks⟩
    · exact ⟨t, _, hst, Or.inr ⟨free, hi⟩, hext⟩
  | free p =>
    obtain ⟨l, hl, hp⟩ := ha
    rcases hs with hu | ⟨free, hi⟩
    · rw [hu.live] at hl
      cases hl
    · cases hf : s.live.find? fun l => ptrAdd l.block.addr 1 == p with
      | none => exact absurd hp (by simpa using List.find?_eq_none.mp hf l hl)
      | some l' =>
        obtain rfl : ptrAdd l'.block.addr 1 = p := by simpa using List.find?_some hf
        obtain ⟨h', free', heq, hinv, hbrks, _⟩ := free_inv hbase hi (List.mem_of_find?_eq_some hf)
        refine ⟨⟨h', s.live.erase l'⟩, [], ?_, Or.inr ⟨free', hinv⟩, Or.inl hbrks⟩
        simp only [step, hf, heq, Option.map_some]
  | write p words =>
    obtain ⟨l, hl, hlo, hhi⟩ := ha
    rcases hs with hu | ⟨free, hi⟩
    · rw [hu.live] at hl
      cases hl
    · exact ⟨_, _, rfl, Or.inr ⟨free, write_inv hi hl hlo hhi⟩, Or.inl rfl⟩

/-! ## Regions -/

theorem joinUpper_brks (h : Heap) (bp p : Nat) : (joinUpper h bp p).brks = h.brks := by
  by_cases hc : ptrAdd bp (h.size bp) = h.next p
  · rw [joinUpper, if_pos hc, Heap.setNext_brks, Heap.setSize_brks]
  · rw [joinUpper, if_neg hc, Heap.setNext_brks]

theorem joinLower_brks (h : Heap) (bp p : Nat) : (joinLower h bp p).brks = h.brks := by
  by_cases hc : ptrAdd p (h.size p) = bp
  · rw [joinLower, if_pos hc, Heap.setNext_brks, Heap.setSize_brks]
  · rw [joinLower, if_neg hc, Heap.setNext_brks]

/-- For `rw`: comparing the heaps instead would compute with the addresses in them. -/
theorem mk_brks (mem : Nat → Header) (p : Nat) (brks : List (Nat × Nat)) : (Heap.mk mem p brks).brks = brks := rfl

theorem free_brks {p : Nat} {h' : Heap} (hf : Libc.free h p = some h') : h'.brks = h.brks := by
  unfold Libc.free at hf
  dsimp only at hf
  generalize walk h.next _ rounds h.freeP = w at hf
  cases w with
  | none => cases hf
  | some q =>
    rw [Option.map_some] at hf
    rw [← Option.some.inj hf, mk_brks, joinLower_brks, joinUpper_brks]

theorem allocFree_brks {size q : Nat} {h' : Heap} {answers rest : List Nat}
    (ha : allocFree h size answers = some (q, h', rest)) : ∃ new, h'.brks = new ++ h.brks := by
  cases answers with
  | nil => cases ha
  | cons p answers =>
    simp only [allocFree, Option.bind_eq_bind] at ha
    split at ha
    · obtain ⟨rfl, rfl, rfl⟩ : q = 0 ∧ h' = h ∧ rest = answers := by simpa [eq_comm] using ha
      exact ⟨[], rfl⟩
    · obtain ⟨h₁, hf, heq⟩ := Option.bind_eq_some_iff.mp ha
      simp only [Option.some.injEq, Prod.mk.injEq] at heq
      obtain ⟨_, rfl, _⟩ := heq
      exact ⟨[_], free_brks hf⟩

/-- The loop of `malloc` forgets no region. -/
theorem mallocLoop_brks {size blockSize : Nat} (n : Nat) {prev p q : Nat} {h h' : Heap} {answers : List Nat}
    (hm : mallocLoop size blockSize n h prev p answers = some (q, h')) : ∃ new, h'.brks = new ++ h.brks := by
  induction n generalizing h prev p answers with
  | zero => cases hm
  | succ n ih =>
    rw [mallocLoop] at hm
    split at hm
    · obtain ⟨_, rfl⟩ := Prod.mk.inj (Option.some.inj hm)
      exact ⟨[], rfl⟩
    split at hm
    · obtain ⟨_, rfl⟩ := Prod.mk.inj (Option.some.inj hm)
      exact ⟨[], rfl⟩
    split at hm
    · cases ha : allocFree h size answers with
      | none =>
        rw [ha] at hm
        cases hm
      | some r =>
        obtain ⟨p', h₁, rest⟩ := r
        obtain ⟨new, hnew⟩ := allocFree_brks ha
        rw [ha] at hm
        dsimp only at hm
        split at hm
        · obtain ⟨_, rfl⟩ := Prod.mk.inj (Option.some.inj hm)
          exact ⟨new, hnew⟩
        · obtain ⟨new', hnew'⟩ := ih hm
          exact ⟨new' ++ new, by rw [hnew', hnew, List.append_assoc]⟩
    · exact ih hm

/-- **A request that wraps** leaves its region behind, whatever happens next. -/
theorem malloc_wrapped (hbase : 0 < base) (hs : Sound base s) {bytes p : Nat} {rest : List Nat} {r : Nat × Heap}
    (h0 : 0 < bytes) (hc : ¬ Unwrapped s (.malloc bytes (p :: rest)))
    (hm : malloc base s.heap bytes (p :: rest) = some r) :
    2 ^ 28 ≤ bytes ∧ ∃ new, r.2.brks = new ++ s.heap.brks ∧ (p, sbrkArg bytes) ∈ new := by
  simp only [Unwrapped, not_or, not_lt, List.head?_cons, Option.some.injEq] at hc
  obtain ⟨hlarge, hfits, hfail⟩ := hc
  obtain ⟨h, free, hi, hbrks, hiff, hloop⟩ := hs.malloc_loop hbase h0
  obtain ⟨n, _, hask⟩ := hi.ask bytes (p :: rest) (mt hiff.mpr hfits)
  rw [hloop, hask] at hm
  refine ⟨hlarge, ?_⟩
  have hdef : allocFree h bytes (p :: rest) = (Libc.free
      (({ h with brks := (p, sbrkArg bytes) :: h.brks } : Heap).setSize p (requested bytes))
      (ptrAdd p 1)).bind fun h => some (h.freeP, h, rest) := by
    simp only [allocFree, if_neg hfail, requested, sbrkArg, Option.bind_eq_bind]
  cases hf : Libc.free (({ h with brks := (p, sbrkArg bytes) :: h.brks } : Heap).setSize p (requested bytes))
      (ptrAdd p 1) with
  | none =>
    rw [hdef, hf] at hm
    cases hm
  | some h₁ =>
    have hnew : h₁.brks = (p, sbrkArg bytes) :: s.heap.brks := by
      rw [free_brks hf, Heap.setSize_brks, hbrks]
    rw [hdef, hf, Option.bind_some] at hm
    dsimp only at hm
    split at hm
    · obtain rfl := Option.some.inj hm
      exact ⟨[_], hnew, List.mem_singleton_self _⟩
    · obtain ⟨new, hr⟩ := mallocLoop_brks n hm
      exact ⟨new ++ [(p, sbrkArg bytes)], by rw [hr, hnew, List.append_assoc, List.singleton_append], by simp⟩

/-! ## A heap that grows -/

/-- The end of the heap, which the last call of `sbrk` moved by its signed argument. -/
def brkOf (lo : Nat) : List (Nat × Nat) → Int
  | [] => lo
  | r :: _ => r.1 + signed r.2

/-- `sbrk` refuses, or returns the end and moves it by exactly its signed argument. -/
def Grown (lo : Nat) (s : State) (bytes p : Nat) : Prop :=
  p = sbrkFailed ∨ (p : Int) = brkOf lo s.heap.brks ∧ 0 ≤ p + signed (sbrkArg bytes) ∧ p + signed (sbrkArg bytes) < 2 ^ 32

/-- What a program may do on such a heap. -/
def Grows (base lo : Nat) (s : State) : Act → Prop
  | .malloc bytes answers => 0 < bytes ∧ bytes < 2 ^ 32 ∧ ∃ p rest, answers = p :: rest ∧ Grown lo s bytes p
  | .free p => Admissible base s (.free p)
  | .write p words => Admissible base s (.write p words)

/-- The address lies in memory obtained from `sbrk`. -/
def Provided (lo : Nat) (h : Heap) (x : Nat) : Prop := lo ≤ x ∧ (x : Int) < brkOf lo h.brks

/-- **A call is sound**: the bytes behind its pointer are provided and belong to no other live block; what
`alloc_free` enters in the free list, and all of the list, is provided. -/
structure SoundCall (base lo : Nat) (x : Runs.Step State Act Nat) : Prop where
  bytes : ∀ n answers p, x.act = .malloc n answers → x.events = [p] → p ≠ 0 → ∀ k < n,
    Provided lo x.after.heap (p + k) ∧ ∀ l ∈ x.before.live, p + k ∉ interval (l.block.addr, l.block.stop)
  entered : ∀ n answers new, x.act = .malloc n answers → x.after.heap.brks = new ++ x.before.heap.brks →
    ∀ r ∈ new, (requested n * sizeofHeader : Nat) ≤ signed r.2
  listed : x.after.heap.freeP ≠ 0 → ∀ k q, x.after.heap.next^[k] x.after.heap.freeP = q →
    q = base ∨ ∀ y ∈ interval (q, q + x.after.heap.size q * sizeofHeader), Provided lo x.after.heap y

/-- The regions lie one behind the other up to the end of the heap. -/
structure Stacked (lo : Nat) (brks : List (Nat × Nat)) : Prop where
  low : (lo : Int) ≤ brkOf lo brks
  high : brkOf lo brks < 2 ^ 32
  inside : ∀ r ∈ brks, lo ≤ r.1 ∧ (r.1 + r.2 : Nat) ≤ brkOf lo brks

theorem Stacked.provided {brks : List (Nat × Nat)} (hst : Stacked lo h.brks) (hb : h.brks = brks) {x : Nat}
    (hx : x ∈ region brks) : Provided lo h x := by
  obtain ⟨r, hr, hlo, hhi⟩ := hx
  obtain ⟨h1, h2⟩ := hst.inside r (hb ▸ hr)
  dsimp only at hlo hhi
  exact ⟨h1.trans hlo, lt_of_lt_of_le (by exact_mod_cast hhi) h2⟩

/-- Memory from the end of the heap is new. -/
theorem Grown.handed (hlo : base + sizeofHeader ≤ lo) (hst : Stacked lo s.heap.brks) {bytes p : Nat}
    (hg : Grown lo s bytes p) : Handed base s bytes p := by
  refine hg.imp_right fun ⟨hp, _, hhi⟩ hsmall => ?_
  rw [(sbrkArg_small hsmall).2] at hhi
  rw [(sbrkArg_small hsmall).1]
  have hlow := hst.low
  refine ⟨by omega, by omega, fun r hr => Or.inr ?_⟩
  have := (hst.inside r hr).2
  omega

theorem Grows.allowed (hlo : base + sizeofHeader ≤ lo) (hst : Stacked lo s.heap.brks) {a : Act}
    (hg : Grows base lo s a) : Allowed base s a := by
  cases a with
  | malloc bytes answers =>
    obtain ⟨h0, hlt, p, rest, hans, hp⟩ := hg
    exact ⟨h0, hlt, p, rest, hans, hp.handed hlo hst⟩
  | free p => exact hg
  | write p words => exact hg

theorem Stacked.step (hst : Stacked lo s.heap.brks) {a : Act} (hg : Grows base lo s a) (he : Extends a s t) :
    Stacked lo t.heap.brks := by
  rcases he with heq | ⟨bytes, p, rest, rfl, hsmall, hfail, heq⟩
  · rwa [heq]
  · obtain ⟨_, _, p', rest', hans, hp⟩ := hg
    obtain ⟨rfl, rfl⟩ := List.cons.inj hans
    obtain ⟨hp, _, hhi⟩ := hp.resolve_left hfail
    obtain ⟨harg, hsigned⟩ := sbrkArg_small hsmall
    have hlow := hst.low
    rw [heq]
    rw [hsigned] at hhi
    refine ⟨?_, ?_, fun r hr => ?_⟩ <;> simp only [brkOf, hsigned]
    · omega
    · exact hhi
    · rcases List.mem_cons.mp hr with rfl | hr
      · dsimp only
        omega
      · have := hst.inside r hr
        omega

/-- The free list of a sound state is provided. -/
theorem Sound.listed (hs : Sound base s) (hst : Stacked lo s.heap.brks) (hne : s.heap.freeP ≠ 0) {k q : Nat}
    (hq : s.heap.next^[k] s.heap.freeP = q) :
    q = base ∨ ∀ y ∈ interval (q, q + s.heap.size q * sizeofHeader), Provided lo s.heap y := by
  rcases hs with hu | ⟨free, hi⟩
  · exact absurd hu.freeP hne
  · rcases List.mem_cons.mp ((hi.rep.cyclic.mem_iff hi.rep.cursor).mpr ⟨k, hq⟩) with rfl | hmem
    · exact Or.inl rfl
    · obtain ⟨b, hb, rfl⟩ := mem_addrs.mp hmem
      right
      rw [hi.rep.size b hb]
      exact fun y hy => hst.provided rfl (hi.tiles.subset (List.mem_append_left _ (mem_spans hb)) hy)

/-- The bytes behind the pointer of a new block. -/
theorem HeapInv.new_bytes {bytes : Nat} {b : Block} (hi : HeapInv base h (⟨b, bytes⟩ :: live) free)
    (hst : Stacked lo h.brks) {k : Nat} (hk : k < bytes) : Provided lo h (ptrAdd b.addr 1 + k) ∧
      ∀ l ∈ live, ptrAdd b.addr 1 + k ∉ interval (l.block.addr, l.block.stop) := by
  have hb := hi.live_bounded _ List.mem_cons_self
  have hholds := hi.live_holds _ List.mem_cons_self
  have hmem : ptrAdd b.addr 1 + k ∈ interval (b.addr, b.stop) := by
    have h3 := hb.below
    simp only [Live.Holds, Block.stop, sizeofHeader, ptrAdd, interval, Set.mem_Ico] at *
    omega
  refine ⟨hst.provided rfl (hi.tiles.subset (List.mem_append_right _ (mem_spans List.mem_cons_self)) hmem),
    fun l hl hin => ?_⟩
  have hpair := (List.pairwise_append.mp hi.tiles.disjoint).2.1
  have hd := (List.pairwise_cons.mp hpair).1 _ (mem_spans (List.mem_map_of_mem (f := Live.block) hl))
  exact Set.disjoint_left.mp hd hmem hin

/-- **An unwrapped call is sound.** -/
theorem soundCall_of_unwrapped (hbase : 0 < base) (hlo : base + sizeofHeader ≤ lo) (hs : Sound base s)
    (hst : Stacked lo s.heap.brks) {a : Act} (hg : Grows base lo s a) (hc : Unwrapped s a) {es : List Nat}
    (hstep : step base s a = some (t, es)) :
    SoundCall base lo ⟨s, a, es, t⟩ ∧ Sound base t ∧ Stacked lo t.heap.brks := by
  obtain ⟨t', es', heq, hsound, hext⟩ := step_unwrapped hbase hs (hg.allowed hlo hst) hc
  obtain ⟨rfl, rfl⟩ := Prod.mk.inj (Option.some.inj (heq.symm.trans hstep))
  have hst' := hst.step hg hext
  refine ⟨⟨?_, ?_, fun hne k q hq => hsound.listed hst' hne hq⟩, hsound, hst'⟩
  · rintro n answers p rfl hp hne k hk
    obtain ⟨h0, _, p', rest, rfl, hp'⟩ := hg
    obtain ⟨r, hm, hr⟩ := malloc_cases hbase hs h0 (hp'.handed hlo hst) hc
    rcases hr.step hm h0 with ⟨t, heq', _⟩ | ⟨t, b, free, heq', hlive, hi, _⟩
    · obtain ⟨rfl, rfl⟩ := Prod.mk.inj (Option.some.inj (heq.symm.trans heq'))
      exact absurd (List.singleton_inj.mp hp).symm hne
    · obtain ⟨rfl, rfl⟩ := Prod.mk.inj (Option.some.inj (heq.symm.trans heq'))
      obtain rfl := List.singleton_inj.mp hp
      rw [hlive] at hi
      exact hi.new_bytes hst' hk
  · rintro n answers new rfl hnew r hr
    dsimp only at hnew
    rcases hext with hsame | ⟨bytes, p, rest, hact, hsmall, _, hbrks⟩
    · rw [hsame, List.self_eq_append_left] at hnew
      rw [hnew] at hr
      cases hr
    · injection hact with hn _
      rw [hbrks, ← List.singleton_append] at hnew
      rw [← List.append_cancel_right hnew, List.mem_singleton] at hr
      rw [hr, hn, (sbrkArg_small hsmall).2]

/-- **`malloc` with every size.** On a heap that `sbrk` grows by its signed argument, the calls of a program are sound
just if no request of 2^28 bytes or more is passed to `sbrk` and accepted. -/
theorem malloc_sound_iff (hbase : 0 < base) (hlo : base + sizeofHeader ≤ lo) (hhi : lo < 2 ^ 32) (mem : Nat → Header)
    {xs : List (Runs.Step State Act Nat)} (hrun : Run (step base) (start mem) xs s)
    (hx : ∀ x ∈ xs, Grows base lo x.before x.act) :
    (∀ x ∈ xs, SoundCall base lo x) ↔ ∀ x ∈ xs, Unwrapped x.before x.act := by
  refine hrun.steps_iff (fun s => Sound base s ∧ Stacked lo s.heap.brks) ?_ (fun s a t es hs hg hstep => ?_) hx
  · exact ⟨Or.inl ⟨rfl, rfl, rfl⟩, by simp [start, brkOf], by simpa [start, brkOf] using hhi, by simp [start]⟩
  · refine ⟨⟨fun hsound => ?_, fun hc => (soundCall_of_unwrapped hbase hlo hs.1 hs.2 hg hc hstep).1⟩,
      fun hc => (soundCall_of_unwrapped hbase hlo hs.1 hs.2 hg hc hstep).2⟩
    by_contra hc
    cases a with
    | malloc bytes answers =>
      obtain ⟨h0, _, p, rest, rfl, _⟩ := hg
      obtain ⟨r, hm, hr⟩ := Option.map_eq_some_iff.mp hstep
      obtain ⟨hlarge, new, hnew, hmem⟩ := malloc_wrapped hbase hs.1 h0 hc hm
      have hbrks : t.heap.brks = new ++ s.heap.brks := by
        rw [← hnew, ← congrArg (fun r => r.1.heap) hr]
        dsimp only
        split <;> rfl
      exact absurd (hsound.entered _ _ new rfl hbrks _ hmem) (not_le.mpr (signed_large hlarge))
    | free p => exact hc trivial
    | write p words => exact hc trivial

/-- Memory is asked for once. -/
theorem malloc_sound_two : ∃ xs s, Run (step 4096) (start fun _ => ⟨0, 0⟩) xs s ∧
    acts xs = [.malloc 10 [8192], .malloc 100 [sbrkFailed]] ∧ ∀ x ∈ xs, SoundCall 4096 8192 x := by
  obtain ⟨xs, s, h, ha, hp⟩ : ∃ xs s, Run (step 4096) (start fun _ => ⟨0, 0⟩) xs s ∧
      acts xs = [.malloc 10 [8192], .malloc 100 [sbrkFailed]] ∧
      (xs.all fun x => plain x.before x.act) = true :=
    Run.of_replay _ (fun xs _ => xs.all fun x => plain x.before x.act) (by decide +kernel)
  have hacts : ∀ x ∈ xs, x.act = .malloc 10 [8192] ∨ x.act = .malloc 100 [sbrkFailed] := fun x hx => by
    have hact : x.act ∈ acts xs := List.mem_map_of_mem hx
    simpa [ha] using hact
  refine ⟨xs, s, h, ha, (malloc_sound_iff (by decide) (by decide) (by decide) _ h fun x hx => ?_).mpr fun x hx => ?_⟩
  · have hplain := List.all_eq_true.mp hp x hx
    rcases hacts x hx with heq | heq <;> rw [heq] at hplain ⊢
    · have hempty : x.before.heap.brks = [] := by simpa [plain, sbrkFailed] using hplain
      refine ⟨by decide, by decide, 8192, [], rfl, Or.inr ?_⟩
      rw [hempty]
      exact ⟨by decide, by decide, by decide⟩
    · exact ⟨by decide, by decide, sbrkFailed, [], rfl, Or.inl rfl⟩
  · rcases hacts x hx with heq | heq <;> rw [heq] <;> exact Or.inl (by decide)

/-- For 2^29 bytes `sbrk` is asked for none, and the pointer returned is no memory at all. -/
theorem malloc_not_sound : ∃ xs s, Run (step 4096) (start fun _ => ⟨0, 0⟩) xs s ∧ acts xs = [.malloc (2 ^ 29) [8192]] ∧
    (∀ x ∈ xs, Grows 4096 8192 x.before x.act) ∧ ¬ ∀ x ∈ xs, SoundCall 4096 8192 x := by
  obtain ⟨xs, s, h, ha, hp⟩ : ∃ xs s, Run (step 4096) (start fun _ => ⟨0, 0⟩) xs s ∧
      acts xs = [.malloc (2 ^ 29) [8192]] ∧ (xs.all fun x => x.before.heap.brks.isEmpty && x.events == [0xE0002000] &&
        x.after.heap.brks == [(8192, 0)]) = true :=
    Run.of_replay _ (fun (xs : List (Runs.Step State Act Nat)) _ => xs.all fun x => x.before.heap.brks.isEmpty && x.events == [0xE0002000] &&
      x.after.heap.brks == [(8192, 0)]) (by decide +kernel)
  obtain ⟨x, rfl⟩ : ∃ x, xs = [x] := List.length_eq_one_iff.mp (by simpa [acts] using congrArg List.length ha)
  have hact : x.act = .malloc (2 ^ 29) [8192] := by simpa [acts] using ha
  simp only [List.all_cons, List.all_nil, Bool.and_true, Bool.and_eq_true, List.isEmpty_iff, beq_iff_eq] at hp
  obtain ⟨⟨hbefore, hevents⟩, hafter⟩ := hp
  refine ⟨[x], s, h, ha, fun y hy => ?_, fun hsound => ?_⟩
  · obtain rfl := List.mem_singleton.mp hy
    rw [hact]
    refine ⟨by decide, by decide, 8192, [], rfl, Or.inr ?_⟩
    rw [hbefore]
    exact ⟨by decide, by decide, by decide⟩
  · have hbytes := (hsound x (List.mem_singleton_self x)).bytes _ _ _ hact hevents (by decide) 0 (by decide)
    have hhigh := hbytes.1.2
    rw [hafter] at hhigh
    exact absurd hhigh (by decide)

end Raampjes.Libc
