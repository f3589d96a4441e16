import Mathlib

/-!
# Buffered input

The macro `getc` and `_fillbuf`. The world of a stream is the memory, the answers that `read` still has to give on each
descriptor, and a log of what `read` returned. `char` is signed on the i686 target.

- `getc_fast`, `getc_fill`: one call, on the fast path of the macro or through `_fillbuf`;
- `getcs_eq`: what any number of calls returns, as a list over the answers;
- `getc_delivers_iff`: `_fillbuf` returns the first byte of a chunk as a signed `char`, so the stream is delivered
  unchanged exactly when no first byte that is reached has its top bit set.
-/

namespace Raampjes.Libc

def BUFSIZ : Nat := 1024

def EOF : Int := -1

/-- What one `read` of at most `BUFSIZ` bytes puts into the buffer. -/
structure Chunk where
  bytes : List UInt8
  nonempty : bytes ≠ []
  fits : bytes.length ≤ BUFSIZ

def Chunk.first (c : Chunk) : UInt8 := c.bytes.head c.nonempty

/-- An answer of `read`: bytes, 0 or -1. -/
inductive ReadAnswer
  | chunk (c : Chunk)
  | endOfFile
  | error

/-- `FILE`, with addresses for pointers. `flag` is not used by the source. -/
structure File where
  cnt : Int
  ptr : Nat
  base : Nat
  fd : Int

def NULL : Nat := 0

/-- The initial state of a `FILE` in `_iob`. -/
def File.zero (fd : Int) : File := ⟨0, NULL, NULL, fd⟩

/-- `stdin` in `_iob`. -/
def stdin : File := File.zero 0

structure World where
  mem : Nat → UInt8
  answers : Int → List ReadAnswer
  reads : List Int

/-! ## The functions -/

def writeBytes (mem : Nat → UInt8) (a : Nat) (bs : List UInt8) : Nat → UInt8 :=
  fun p => if a ≤ p then (bs[p - a]?).getD (mem p) else mem p

/-- `read(fd, buf, BUFSIZ)`; a descriptor without further answers is at its end. -/
def read (w : World) (fd : Int) (buf : Nat) : Int × World :=
  match w.answers fd with
  | [] => (0, { w with reads := w.reads ++ [0] })
  | .chunk c :: rest =>
    (c.bytes.length,
      { mem := writeBytes w.mem buf c.bytes
        answers := Function.update w.answers fd rest
        reads := w.reads ++ [(c.bytes.length : Int)] })
  | .endOfFile :: rest =>
    (0, { w with answers := Function.update w.answers fd rest, reads := w.reads ++ [0] })
  | .error :: rest =>
    (-1, { w with answers := Function.update w.answers fd rest, reads := w.reads ++ [-1] })

/-- `_fillbuf`; `malloc` is what `malloc(BUFSIZ)` answers. -/
def fillbuf (malloc : Nat) (f : File) (w : World) : Int × File × World :=
  let f := if f.base = NULL then { f with base := malloc } else f
  if f.base = NULL then (EOF, f, w)
  else
    let (n, w) := read w f.fd f.base
    let f := { f with ptr := f.base, cnt := n }
    if f.cnt ≤ 0 then (EOF, f, w)
    -- `(int) *f->ptr++` converts a signed `char`.
    else ((w.mem f.ptr).toInt8.toInt, { f with ptr := f.ptr + 1 }, w)

/-- The macro `getc`. -/
def getc (malloc : Nat) (f : File) (w : World) : Int × File × World :=
  let f := { f with cnt := f.cnt - 1 }
  if 0 < f.cnt then ((w.mem f.ptr).toNat, { f with ptr := f.ptr + 1 }, w)
  else fillbuf malloc f w

/-- One call of `getc`: its result, and what `read` returned meanwhile. -/
structure Call where
  result : Int
  reads : List Int

/-- `n` calls of `getc` on one stream. -/
def getcs (malloc : Nat) : Nat → File → World → List Call
  | 0, _, _ => []
  | n + 1, f, w =>
    let r := getc malloc f w
    ⟨r.1, r.2.2.reads.drop w.reads.length⟩ :: getcs malloc n r.2.1 r.2.2

/-! ## What is to be delivered -/

/-- The values of the bytes that `read` answers, in order, with `EOF` where it has none. -/
def expected (answers : List ReadAnswer) : List Int :=
  answers.flatMap fun
    | .chunk c => c.bytes.map fun b => (b.toNat : Int)
    | _ => [EOF]

/-- The calls return the byte stream, and `EOF` only after a `read` that returned no byte. -/
structure Delivers (answers : List ReadAnswer) (calls : List Call) : Prop where
  bytes : calls.map Call.result = (expected answers).takeD calls.length EOF
  eof : ∀ k ∈ calls, k.result = EOF → ∃ r ∈ k.reads, r ≤ 0

/-- The first byte of every chunk that `n` calls reach is below 128. -/
def FirstsPlain (answers : List ReadAnswer) (n : Nat) : Prop :=
  ∀ pre c post, answers = pre ++ .chunk c :: post → (expected pre).length < n → c.first.toNat < 128

/-! ## One call -/

/-- The bytes in the buffer at `ptr` are `rest`, and `cnt` is one more than their number, or not positive. -/
structure Holding (f : File) (w : World) (rest : List UInt8) : Prop where
  held : ∀ i b, rest[i]? = some b → w.mem (f.ptr + i) = b
  count : f.cnt = rest.length + 1 ∨ rest = [] ∧ f.cnt ≤ 0

/-- A call on the fast path of the macro. -/
def fastCall (b : UInt8) : Call := ⟨b.toNat, []⟩

/-- What the code returns for one answer of `read`. -/
def callsOf : ReadAnswer → List Call
  | .chunk c =>
    ⟨c.first.toInt8.toInt, [(c.bytes.length : Int)]⟩ :: c.bytes.tail.map fastCall
  | .endOfFile => [⟨EOF, [0]⟩]
  | .error => [⟨EOF, [-1]⟩]

theorem writeBytes_at (mem : Nat → UInt8) (a : Nat) {i : Nat} {b : UInt8} {bs : List UInt8} (hi : bs[i]? = some b) :
    writeBytes mem a bs (a + i) = b := by
  have hle : a ≤ a + i := Nat.le_add_right a i
  rw [writeBytes, if_pos hle, Nat.add_sub_cancel_left, hi]
  rfl

/-- An empty buffer. -/
theorem holding_nil {f : File} (w : World) (h : f.cnt ≤ 0) : Holding f w [] :=
  ⟨fun _ _ h => (by cases h), Or.inr ⟨rfl, h⟩⟩

theorem getc_fast {f : File} {w : World} {b : UInt8} {rest : List UInt8} (malloc : Nat)
    (h : Holding f w (b :: rest)) :
    ∃ f', getc malloc f w = ((b.toNat : Int), f', w) ∧ Holding f' w rest ∧ f'.fd = f.fd := by
  have hcnt : f.cnt = rest.length + 2 := by
    rcases h.count with h | ⟨h, _⟩
    · rw [h, List.length_cons]
      omega
    · cases h
  have hb : w.mem f.ptr = b := h.held 0 b rfl
  have hpos : 0 < f.cnt - 1 := by omega
  refine ⟨{ f with cnt := f.cnt - 1, ptr := f.ptr + 1 }, ?_, ⟨?_, Or.inl ?_⟩, rfl⟩
  · simp only [getc, if_pos hpos, hb]
  · intro i c hi
    have := h.held (i + 1) c hi
    rwa [Nat.add_comm i 1, ← Nat.add_assoc] at this
  · show f.cnt - 1 = rest.length + 1
    omega

/-- With an empty buffer `getc` is `_fillbuf`. -/
theorem getc_eq_fillbuf {f : File} {w : World} (malloc : Nat) (h : Holding f w []) :
    getc malloc f w = fillbuf malloc { f with cnt := f.cnt - 1 } w := by
  have hcnt : f.cnt ≤ 1 := by
    rcases h.count with h | ⟨_, h⟩
    · simp [h]
    · omega
  have hneg : ¬ 0 < f.cnt - 1 := by omega
  simp only [getc, if_neg hneg]

/-- `_fillbuf` after its buffer is allocated. -/
theorem fillbuf_eq {malloc : Nat} (hm : malloc ≠ NULL) (f : File) (w : World) :
    ∃ base, base ≠ NULL ∧ ∀ n w', read w f.fd base = (n, w') →
      fillbuf malloc f w =
        if n ≤ 0 then (EOF, ⟨n, base, base, f.fd⟩, w')
        else ((w'.mem base).toInt8.toInt, ⟨n, base + 1, base, f.fd⟩, w') := by
  by_cases hb : f.base = NULL
  · refine ⟨malloc, hm, fun n w' hr => ?_⟩
    simp only [fillbuf, if_pos hb, if_neg hm, hr]
  · refine ⟨f.base, hb, fun n w' hr => ?_⟩
    simp only [fillbuf, if_neg hb, hr]

/-- `_fillbuf` at the end of the descriptor's answers. -/
theorem getc_end {malloc : Nat} (hm : malloc ≠ NULL) {f : File} {w : World} (h : Holding f w [])
    (ha : w.answers f.fd = []) :
    ∃ f', getc malloc f w = (EOF, f', { w with reads := w.reads ++ [0] }) ∧
      Holding f' { w with reads := w.reads ++ [0] } [] ∧ f'.fd = f.fd := by
  obtain ⟨base, _, heq⟩ := fillbuf_eq hm { f with cnt := f.cnt - 1 } w
  have hr : read w f.fd base = (0, { w with reads := w.reads ++ [0] }) := by rw [read, ha]
  refine ⟨⟨0, base, base, f.fd⟩, ?_, holding_nil _ (le_refl _), rfl⟩
  rw [getc_eq_fillbuf malloc h, heq _ _ hr, if_pos (le_refl _)]

/-- `_fillbuf` on one answer: its calls are the first of `callsOf`, the rest of which is left in the buffer. -/
theorem getc_fill {malloc : Nat} (hm : malloc ≠ NULL) {f : File} {w : World} (h : Holding f w []) {a : ReadAnswer}
    {as : List ReadAnswer} (ha : w.answers f.fd = a :: as) :
    ∃ c f' w' rest, getc malloc f w = (c, f', w') ∧ Holding f' w' rest ∧ f'.fd = f.fd ∧
      w'.answers f.fd = as ∧ ∃ reads, w'.reads = w.reads ++ reads ∧
        callsOf a = ⟨c, reads⟩ :: rest.map fastCall := by
  obtain ⟨base, _, heq⟩ := fillbuf_eq hm { f with cnt := f.cnt - 1 } w
  cases a with
  | chunk c =>
    obtain ⟨b, bs, hbs⟩ := List.exists_cons_of_ne_nil c.nonempty
    have hr : read w f.fd base = ((c.bytes.length : Int), ⟨writeBytes w.mem base c.bytes,
        Function.update w.answers f.fd as, w.reads ++ [(c.bytes.length : Int)]⟩) := by rw [read, ha]
    have hlen : c.bytes.length = bs.length + 1 := by rw [hbs, List.length_cons]
    have hfirst : c.first = b := by simp [Chunk.first, hbs]
    have hb : writeBytes w.mem base c.bytes base = b := writeBytes_at w.mem base (i := 0) (by rw [hbs]; rfl)
    have hpos : ¬ (c.bytes.length : Int) ≤ 0 := by omega
    have hget := heq _ _ hr
    rw [if_neg hpos, ← getc_eq_fillbuf malloc h] at hget
    simp only [hb] at hget
    refine ⟨_, _, _, bs, hget, ⟨?_, Or.inl ?_⟩, rfl, Function.update_self .., [(c.bytes.length : Int)], rfl, ?_⟩
    · intro i d hi
      rw [Nat.add_assoc, Nat.add_comm 1 i]
      exact writeBytes_at w.mem base (by rw [hbs]; exact hi)
    · simp only [hlen, Nat.cast_add, Nat.cast_one]
    · rw [callsOf, hfirst, hbs, List.tail_cons]
  | endOfFile =>
    have hr : read w f.fd base = (0, { w with
        answers := Function.update w.answers f.fd as, reads := w.reads ++ [0] }) := by rw [read, ha]
    have hget := heq _ _ hr
    rw [if_pos (le_refl _), ← getc_eq_fillbuf malloc h] at hget
    exact ⟨_, _, _, [], hget, holding_nil _ (le_refl _), rfl, Function.update_self .., [0], rfl, rfl⟩
  | error =>
    have hr : read w f.fd base = (-1, { w with
        answers := Function.update w.answers f.fd as, reads := w.reads ++ [-1] }) := by rw [read, ha]
    have hneg : (-1 : Int) ≤ 0 := by decide
    have hget := heq _ _ hr
    rw [if_pos hneg, ← getc_eq_fillbuf malloc h] at hget
    exact ⟨_, _, _, [], hget, holding_nil _ hneg, rfl, Function.update_self .., [-1], rfl, rfl⟩

/-! ## Any number of calls -/

/-- What the code returns for the answers of `read`. -/
def produced (answers : List ReadAnswer) : List Call := answers.flatMap callsOf

/-- **All calls.** The results are those of `produced`, and `EOF` from there on. -/
theorem getcs_eq {malloc : Nat} (hm : malloc ≠ NULL) (n : Nat) {f : File} {w : World} {rest : List UInt8}
    (h : Holding f w rest) :
    getcs malloc n f w =
      (rest.map fastCall ++ produced (w.answers f.fd)).takeD n ⟨EOF, [0]⟩ := by
  induction n generalizing f w rest with
  | zero => rfl
  | succ n ih =>
    cases rest with
    | cons b rest =>
      obtain ⟨f', hg, hf', hfd⟩ := getc_fast malloc h
      rw [getcs, hg]
      simp only [ih hf', hfd, fastCall, List.drop_length, List.map_cons, List.cons_append, List.takeD_succ, List.head?_cons, Option.getD_some,
        List.tail_cons]
    | nil =>
      cases ha : w.answers f.fd with
      | nil =>
        obtain ⟨f', hg, hf', hfd⟩ := getc_end hm h ha
        rw [getcs, hg]
        simp only [ih hf', hfd, ha, produced, List.drop_left, List.map_nil, List.nil_append, List.flatMap_nil,
          List.takeD_succ, List.head?_nil, Option.getD_none, List.tail_nil]
      | cons a as =>
        obtain ⟨c, f', w', rest, hg, hf', hfd, has, reads, hr, hc⟩ := getc_fill hm h ha
        rw [getcs, hg]
        simp only [ih hf', hfd, has, hr, hc, produced, List.drop_left, List.map_nil, List.nil_append,
          List.flatMap_cons, List.cons_append, List.takeD_succ, List.head?_cons, Option.getD_some, List.tail_cons]

/-! ## When the stream is delivered -/

theorem signed_eq_iff (b : UInt8) : b.toInt8.toInt = b.toNat ↔ b.toNat < 128 := by
  have h : b.toInt8.toInt = b.toBitVec.toInt := rfl
  have hn : b.toBitVec.toNat = b.toNat := rfl
  rw [h, BitVec.toInt_eq_toNat_cond, hn]
  have := b.toNat_lt
  split <;> omega

theorem Chunk.bytes_eq (c : Chunk) : c.bytes = c.first :: c.bytes.tail := (List.cons_head_tail c.nonempty).symm

theorem takeD_append {α : Type} (x l : List α) (d : α) (n : Nat) :
    (x ++ l).takeD n d = x.take n ++ l.takeD (n - x.length) d := by
  induction x generalizing n with
  | nil => simp
  | cons a x ih =>
    cases n with
    | zero => simp
    | succ n => simp [List.takeD_succ, ih]

theorem map_takeD {α β : Type} (g : α → β) (l : List α) (d : α) (n : Nat) :
    (l.takeD n d).map g = (l.map g).takeD n (g d) := by
  induction n generalizing l with
  | zero => rfl
  | succ n ih => cases l <;> simp [List.takeD_succ, ih]

theorem expected_cons (a : ReadAnswer) (as : List ReadAnswer) : expected (a :: as) = expected [a] ++ expected as :=
  @List.flatMap_append _ _ [a] as _

theorem firstsPlain_nil (n : Nat) : FirstsPlain [] n := by
  intro pre c post h
  simp at h

theorem firstsPlain_cons (a : ReadAnswer) (as : List ReadAnswer) (n : Nat) :
    FirstsPlain (a :: as) n ↔
      (∀ c, a = .chunk c → 0 < n → c.first.toNat < 128) ∧ FirstsPlain as (n - (expected [a]).length) := by
  constructor
  · intro h
    refine ⟨fun c hc hn => h [] c as (by rw [hc]; rfl) hn, fun pre c post hp hlen => ?_⟩
    apply h (a :: pre) c post (by rw [hp]; rfl)
    rw [expected_cons, List.length_append]
    omega
  · rintro ⟨hfirst, hrest⟩ pre c post hp hlen
    cases pre with
    | nil =>
      obtain ⟨rfl, rfl⟩ := List.cons.inj hp
      exact hfirst c rfl hlen
    | cons p pre =>
      obtain ⟨rfl, rfl⟩ := List.cons.inj hp
      apply hrest pre c post rfl
      rw [expected_cons, List.length_append] at hlen
      omega

/-- The results for one answer are the bytes of it, but for a first byte with its top bit set. -/
theorem callsOf_results (a : ReadAnswer) (n : Nat) :
    ((callsOf a).map Call.result).take n = (expected [a]).take n ↔
      ∀ c, a = .chunk c → 0 < n → c.first.toNat < 128 := by
  cases a with
  | chunk c =>
    have hexp : expected [.chunk c] = (c.first.toNat : Int) :: c.bytes.tail.map fun b => (b.toNat : Int) := by
      simp only [expected, List.flatMap_cons, List.flatMap_nil, List.append_nil]
      rw [c.bytes_eq, List.map_cons, List.tail_cons]
    have hres : (c.bytes.tail.map fastCall).map Call.result = c.bytes.tail.map fun b => (b.toNat : Int) := by
      rw [List.map_map]
      rfl
    cases n with
    | zero => simp
    | succ n =>
      rw [callsOf, hexp, List.map_cons, hres, List.take_succ_cons, List.take_succ_cons, List.cons.injEq]
      simp only [and_true, ReadAnswer.chunk.injEq, forall_eq', Nat.succ_pos, true_implies, signed_eq_iff]
  | endOfFile => simp [callsOf, expected]
  | error => simp [callsOf, expected]

theorem length_callsOf (a : ReadAnswer) : (callsOf a).length = (expected [a]).length := by
  cases a with
  | chunk c =>
    have hpos : 0 < c.bytes.length := List.length_pos_iff.mpr c.nonempty
    simp only [callsOf, expected, List.flatMap_cons, List.flatMap_nil, List.append_nil, List.length_cons,
      List.length_map, List.length_tail]
    omega
  | endOfFile => rfl
  | error => rfl

theorem produced_results_iff (answers : List ReadAnswer) (n : Nat) :
    ((produced answers).map Call.result).takeD n EOF = (expected answers).takeD n EOF ↔ FirstsPlain answers n := by
  induction answers generalizing n with
  | nil => exact iff_of_true rfl (firstsPlain_nil n)
  | cons a as ih =>
    have hlen : ((callsOf a).map Call.result).length = (expected [a]).length := by
      rw [List.length_map, length_callsOf]
    rw [expected_cons, show produced (a :: as) = callsOf a ++ produced as from List.flatMap_cons, List.map_append,
      takeD_append, takeD_append, hlen, firstsPlain_cons, ← callsOf_results, ← ih]
    have htake : (((callsOf a).map Call.result).take n).length = ((expected [a]).take n).length := by
      rw [List.length_take, List.length_take, hlen]
    exact ⟨fun h => List.append_inj h htake, fun h => by rw [h.1, h.2]⟩

/-- Plain first bytes are never taken for `EOF`. -/
theorem produced_eof {answers : List ReadAnswer} {n : Nat} (h : FirstsPlain answers n) :
    ∀ k ∈ (produced answers).takeD n ⟨EOF, [0]⟩, k.result = EOF → ∃ r ∈ k.reads, r ≤ 0 := by
  induction answers generalizing n with
  | nil =>
    intro k hk _
    have : k = ⟨EOF, [0]⟩ := by
      rw [show produced [] = [] from rfl, List.takeD_nil] at hk
      exact List.eq_of_mem_replicate hk
    exact ⟨0, by simp [this], le_refl _⟩
  | cons a as ih =>
    obtain ⟨hfirst, hrest⟩ := (firstsPlain_cons a as n).mp h
    rw [show produced (a :: as) = callsOf a ++ produced as from List.flatMap_cons, takeD_append, length_callsOf]
    intro k hk heof
    rcases List.mem_append.mp hk with hk | hk
    · cases a with
      | chunk c =>
        cases n with
        | zero => simp at hk
        | succ n =>
          rw [callsOf, List.take_succ_cons] at hk
          rcases List.mem_cons.mp hk with rfl | hk
          · have := (signed_eq_iff c.first).mpr (hfirst c rfl (Nat.succ_pos n))
            simp only [this, EOF] at heof
            omega
          · obtain ⟨b, _, rfl⟩ := List.mem_map.mp (List.mem_of_mem_take hk)
            simp only [fastCall, EOF] at heof
            omega
      | endOfFile =>
        have : k = ⟨EOF, [0]⟩ := by simpa [callsOf] using List.mem_of_mem_take hk
        exact ⟨0, by simp [this], le_refl _⟩
      | error =>
        have : k = ⟨EOF, [-1]⟩ := by simpa [callsOf] using List.mem_of_mem_take hk
        exact ⟨-1, by simp [this], by decide⟩
    · exact ih hrest k hk heof

theorem length_getcs (malloc n : Nat) (f : File) (w : World) : (getcs malloc n f w).length = n := by
  induction n generalizing f w with
  | zero => rfl
  | succ n ih => rw [getcs, List.length_cons, ih]

/-- **Buffered input.** On a fresh stream the byte stream is delivered unchanged by any number of calls exactly when the
first byte of every chunk they reach is below 128. -/
theorem getc_delivers_iff (malloc n : Nat) (fd : Int) (w : World) (hm : malloc ≠ NULL) :
    Delivers (w.answers fd) (getcs malloc n (File.zero fd) w) ↔ FirstsPlain (w.answers fd) n := by
  have hcalls : getcs malloc n (File.zero fd) w = (produced (w.answers fd)).takeD n ⟨EOF, [0]⟩ :=
    getcs_eq hm n (holding_nil w (le_refl _))
  have hbytes : (getcs malloc n (File.zero fd) w).map Call.result = (expected (w.answers fd)).takeD n EOF ↔
      FirstsPlain (w.answers fd) n := by
    rw [hcalls, map_takeD, produced_results_iff]
  constructor
  · intro h
    have := h.bytes
    rw [length_getcs] at this
    exact hbytes.mp this
  · intro h
    refine ⟨?_, ?_⟩
    · rw [length_getcs]
      exact hbytes.mpr h
    · rw [hcalls]
      exact produced_eof h

/-- Two chunks, the second of one byte. -/
theorem getc_delivers_iff_two :
    4096 ≠ NULL ∧ Delivers [.chunk ⟨[72, 200], by decide, by decide⟩, .chunk ⟨[10], by decide, by decide⟩]
      (getcs 4096 4 (File.zero 0)
        ⟨fun _ => 0, fun _ => [.chunk ⟨[72, 200], by decide, by decide⟩, .chunk ⟨[10], by decide, by decide⟩], []⟩) := by
  refine ⟨by decide, (getc_delivers_iff 4096 4 0 ⟨fun _ => 0, fun _ => _, []⟩ (by decide)).mpr ?_⟩
  rw [firstsPlain_cons, firstsPlain_cons]
  exact ⟨fun c hc _ => by cases hc; decide, fun c hc _ => by cases hc; decide, firstsPlain_nil _⟩

/-- A chunk that starts with 255 is taken for the end of the file. -/
theorem getc_not_delivered :
    ¬ ∀ (n : Nat) (w : World), Delivers (w.answers 0) (getcs 4096 n stdin w) := by
  intro h
  have := (h 1 ⟨fun _ => 0, fun _ => [.chunk ⟨[255, 65], by decide, by decide⟩], []⟩).bytes
  revert this
  decide

end Raampjes.Libc
