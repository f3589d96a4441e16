import Raampjes.Initrd.Tokens

/-!
# `parse_line` of the calculator

The line is copied without its terminator. The array of tokens is a table of pointers beside the bytes, with whatever was
in it before.

- `lineValue`: what a line is to give; `Evaluates`: the line is evaluated or rejected, and nothing but the line, its copy
  and the delimiters is read;
- `strtok_reads_end`: the calls of `strtok` go on until the byte behind the copy has been read;
- `parse_line_not_evaluates`: so the property fails for every line and every heap.
-/

namespace Raampjes.Initrd

open Progs Libc Words

def SIZE_BUF : Nat := 512

/-! ## The function -/

/-- A round of the loop over the tokens: the array, `index` and `token`. -/
def tokenRound (delims : Nat) (x : (Nat → Nat) × Nat × Nat) :
    OnBytes (((Nat → Nat) × Nat × Nat) ⊕ ((Nat → Nat) × Nat)) :=
  if x.2.2 = NULL then pure (.inr (x.1, x.2.1))
  else do
    onlyIf (x.2.1 + 1 ≥ SIZE_BUF) (stop (.exited 1))
    let token ← strtok NULL delims
    pure (.inl (Function.update x.1 x.2.1 x.2.2, x.2.1 + 1, token))

/-- What `parse_line` returns, whether it reported an error, and how many tokens there were. -/
structure Answer where
  value : Int
  reported : Bool
  index : Nat

/-- The `switch` over the operator. -/
def operate (op : UInt8) (num1 num2 : Int) : OnBytes (Int × Bool) :=
  if char op = 42 then pure (int (num1 * num2), false)
  else if char op = 47 then do
    onlyIf (num2 = 0 ∨ num1 = -2 ^ 31 ∧ num2 = -1) (stop .divides)
    pure (num1.tdiv num2, false)
  else if char op = 43 then pure (int (num1 + num2), false)
  else if char op = 45 then pure (int (num1 - num2), false)
  else pure (0, true)

/-- `parse_line`; `line` and `tokens` are what `malloc` answers, `old` the array before. -/
def parseLine (ln delims line tokens : Nat) (old : Nat → Nat) : OnBytes Answer := do
  let len ← strlen ln
  onlyIf (line = NULL ∨ tokens = NULL) (stop (.exited 1))
  memcpy line ln len
  let token ← strtok line delims
  let (array, index) ← forever .endless (tokenRound delims) rounds (old, 0, token)
  let num1 ← atoi (array 0)
  let num2 ← atoi (array 2)
  let oplen ← strlen (array 1)
  if oplen > 1 then pure ⟨0, true, index⟩
  else do
    let op ← load (array 1)
    let (value, reported) ← operate op num1 num2
    pure ⟨value, reported, index⟩

/-! ## What is to be computed -/

/-- A number without a sign. -/
def decimal (w : List UInt8) : Option Int :=
  if w ≠ [] ∧ ∀ c ∈ w, 48 ≤ c.toNat ∧ c.toNat ≤ 57 then some (w.foldl (fun n c => 10 * n + (c.toNat - 48 : Int)) 0) else none

/-- An optionally signed number of 32 bits. -/
def number (w : List UInt8) : Option Int :=
  (match w with
    | 45 :: w => (decimal w).map Neg.neg
    | w => decimal w).filter fun n => decide (-2 ^ 31 ≤ n ∧ n < 2 ^ 31)

/-- The result of an operation, where it is defined in 32 bits. -/
def apply (op : UInt8) (m n : Int) : Option Int :=
  (if op = 42 then some (m * n)
    else if op = 47 then if n = 0 then none else some (m.tdiv n)
    else if op = 43 then some (m + n)
    else if op = 45 then some (m - n)
    else none).filter fun n => decide (-2 ^ 31 ≤ n ∧ n < 2 ^ 31)

/-- The value of a line: three tokens, a number, an operator and a number. -/
noncomputable def lineValue (ds bs : List UInt8) : Option Int :=
  match words (delim ds) bs with
  | [a, [op], b] => (number a).bind fun m => (number b).bind fun n => apply op m n
  | _ => none

/-- The line, its copy or the delimiters. -/
def Allowed (ln line delims : Nat) (bs ds : List UInt8) (p : Nat) : Prop :=
  (ln ≤ p ∧ p ≤ ln + bs.length) ∨ (line ≤ p ∧ p < line + bs.length) ∨ (delims ≤ p ∧ p ≤ delims + ds.length)

/-- **The line is evaluated or rejected.** -/
structure Evaluates (mem : Nat → UInt8) (tokNext ln delims line tokens : Nat) (old : Nat → Nat) (bs ds : List UInt8)
    (a : Answer) (t : Bytes) : Prop where
  returns : Returns (parseLine ln delims line tokens old) ⟨mem, tokNext, []⟩ a t
  produced : 3 ≤ a.index
  inside : ∀ p ∈ t.reads, Allowed ln line delims bs ds p
  value : match lineValue ds bs with
    | some v => a.value = v ∧ a.reported = false
    | none => a.value = 0 ∧ a.reported = true

/-! ## What stays read -/

/-- The addresses read so far stay on record. -/
def Grows (s t : Bytes) : Prop := ∀ p ∈ s.reads, p ∈ t.reads

instance : Std.Refl Grows := ⟨fun _ _ h => h⟩

instance : IsTrans Bytes Grows := ⟨fun _ _ _ h h' p hp => h' p (h p hp)⟩

/-- Memory and the cursor of `strtok` stay as they are. -/
def Keeps (s t : Bytes) : Prop := t.mem = s.mem ∧ t.tokNext = s.tokNext

instance : Std.Refl Keeps := ⟨fun _ => ⟨rfl, rfl⟩⟩

instance : IsTrans Bytes Keeps := ⟨fun _ _ _ h h' => ⟨h'.1.trans h.1, h'.2.trans h.2⟩⟩

theorem grows_load (p : Nat) : Within Grows (load p) := by
  intro s a t h
  cases h
  exact fun q hq => List.mem_cons_of_mem _ hq

theorem keeps_load (p : Nat) : Within Keeps (load p) := by
  intro s a t h
  cases h
  exact ⟨rfl, rfl⟩

section Looking

variable {R : Bytes → Bytes → Prop} [Std.Refl R] [IsTrans Bytes R]

theorem within_strlen (hload : ∀ p, Within R (load p)) (str : Nat) : Within R (strlen str) :=
  Within.forever (fun _ => (hload _).bind fun _ => Within.ite (within_pure _) (within_pure _)) _ _

theorem within_strchrFrom (hload : ∀ p, Within R (load p)) (uc : UInt8) : ∀ len s, Within R (strchrFrom uc len s)
  | 0, _ => within_pure _
  | len + 1, s => (hload s).bind fun _ => Within.ite (within_pure _) (within_strchrFrom hload uc len (s + 1))

theorem within_strchr (hload : ∀ p, Within R (load p)) (s : Nat) (uc : UInt8) : Within R (strchr s uc) :=
  (within_strlen hload s).bind fun _ => within_strchrFrom hload uc _ s

theorem within_atoiFrom (hload : ∀ p, Within R (load p)) (str : Nat) : ∀ left i ret, Within R (atoiFrom str left i ret)
  | 0, _, _ => within_pure _
  | left + 1, i, _ => (hload _).bind fun _ => Within.ite (within_atoiFrom hload str left (i + 1) _) (within_pure _)

theorem within_atoi (hload : ∀ p, Within R (load p)) (str : Nat) : Within R (atoi str) :=
  (within_strlen hload str).bind fun _ => (hload str).bind fun _ => (within_atoiFrom hload str _ _ _).bind fun r => by
    cases r with
    | none => exact within_pure _
    | some n => exact within_pure _

end Looking

theorem grows_setTokNext (p : Nat) : Within Grows (setTokNext p) := within_update fun _ _ h => h

theorem grows_store (p : Nat) (b : UInt8) : Within Grows (store p b) := within_update fun _ _ h => h

theorem grows_scanRound (q : Nat) : Within Grows (scanRound q) :=
  (within_gets _).bind fun _ => (grows_load _).bind fun _ =>
    Within.ite ((grows_setTokNext _).bind fun _ => within_pure _) <| (within_strchr grows_load q _).bind fun _ =>
      Within.ite ((grows_setTokNext _).bind fun _ => within_pure _)
        ((grows_store _ _).bind fun _ => (grows_setTokNext _).bind fun _ => within_pure _)

theorem grows_skipRound (q c : Nat) : Within Grows (skipRound q c) :=
  (grows_load _).bind fun _ => Within.ite (within_pure _) <| (within_strchr grows_load q _).bind fun _ =>
    Within.ite ((grows_setTokNext _).bind fun _ => within_pure _) (within_pure _)

theorem grows_takeToken (q : Nat) : Within Grows (takeToken q) :=
  (within_gets _).bind fun _ => (Within.forever (fun _ => grows_scanRound q) _ _).bind fun _ => within_pure _

theorem grows_strtok (p q : Nat) : Within Grows (strtok p q) :=
  (within_gets _).bind fun _ => Within.ite (within_pure _) <| Within.ite (grows_takeToken q) <|
    (Within.forever (fun _ => grows_skipRound q _) _ _).bind fun _ => Within.ite (grows_takeToken q) (within_pure _)

/-! ## The end of the copy is read -/

/-- The cursor is inside the copy of `n` characters, or at its end, and there is no terminator from it on. -/
def Ahead (line n c : Nat) (mem : Nat → UInt8) : Prop :=
  ∃ i ≤ n, c = line + i ∧ ∀ j, i ≤ j → j < n → mem (line + j) ≠ 0

/-- The byte behind the copy has been read, or the cursor is still ahead of it. -/
def Open (line n c : Nat) (s : Bytes) : Prop := line + n ∈ s.reads ∨ Ahead line n c s.mem

theorem Ahead.ne_null {line n c : Nat} {mem : Nat → UInt8} (hline : line ≠ NULL) (h : Ahead line n c mem) : c ≠ NULL := by
  obtain ⟨i, -, rfl, -⟩ := h
  have := Nat.pos_of_ne_zero hline
  rw [NULL]
  omega

section End

variable {line n q : Nat} (hfits : line + n < 2 ^ 32)

include hfits

/-- A character that is read is behind the copy, or is no terminator. -/
theorem load_ahead {c : Nat} {b : UInt8} {s t : Bytes} (h : Ahead line n c s.mem) (hr : Returns (load c) s b t) :
    line + n ∈ t.reads ∨ b ≠ 0 ∧ t.mem = s.mem ∧ t.tokNext = s.tokNext ∧ ∃ i < n, c = line + i ∧
      ∀ j, i ≤ j → j < n → s.mem (line + j) ≠ 0 := by
  obtain ⟨i, hi, rfl, hne⟩ := h
  cases hr
  rcases Nat.lt_or_eq_of_le hi with hlt | rfl
  · refine Or.inr ⟨?_, rfl, rfl, i, hlt, rfl, hne⟩
    rw [Nat.mod_eq_of_lt (by omega)]
    exact hne i (Nat.le_refl i) hlt
  · refine Or.inl ?_
    show line + i ∈ (line + i) % 2 ^ 32 :: s.reads
    rw [Nat.mod_eq_of_lt hfits]
    exact List.mem_cons_self

/-- The cursor moves on over a character of the copy. -/
theorem Ahead.next {i : Nat} {mem mem' : Nat → UInt8} (hi : i < n) (h : ∀ j, i ≤ j → j < n → mem (line + j) ≠ 0)
    (hmem : ∀ a, line + i < a → mem' a = mem a) : Ahead line n ((line + i + 1) % 2 ^ 32) mem' := by
  refine ⟨i + 1, hi, Nat.mod_eq_of_lt (by omega), fun j hij hj => ?_⟩
  rw [hmem _ (by omega)]
  exact h j (by omega) hj

/-- A round of the loop over a token. -/
theorem scanRound_open {s t : Bytes} {r : Unit ⊕ Unit} (h : Open line n s.tokNext s) (hr : Returns (scanRound q) s r t) :
    Open line n t.tokNext t := by
  rcases h with hread | hahead
  · exact Or.inl (grows_scanRound q s r t hr _ hread)
  rw [scanRound, Returns.bind_iff ((gets_ok _).mpr ⟨rfl, rfl⟩)] at hr
  obtain ⟨b, u, hload, hr⟩ := (bind_ok _ _ _).mp hr
  have hcase := load_ahead hfits hahead hload
  by_cases hb : b = 0
  · rw [if_pos hb, Returns.bind_iff (setTokNext_returns _ _)] at hr
    obtain ⟨-, rfl⟩ := pure_ok.mp hr
    exact Or.inl (hcase.resolve_right fun h => h.1 hb)
  · rw [if_neg hb] at hr
    obtain ⟨found, v, hstr, hr⟩ := (bind_ok _ _ _).mp hr
    have hgrow := within_strchr grows_load q b u found v hstr
    obtain ⟨hmem, -⟩ := within_strchr keeps_load q b u found v hstr
    rcases hcase with hread | ⟨-, hmem', -, i, hi, hc, hne⟩
    · have hread := hgrow _ hread
      by_cases hfound : found = NULL
      · rw [if_pos hfound, Returns.bind_iff (setTokNext_returns _ _)] at hr
        obtain ⟨-, rfl⟩ := pure_ok.mp hr
        exact Or.inl hread
      · rw [if_neg hfound, Returns.bind_iff (store_returns _ _ _), Returns.bind_iff (setTokNext_returns _ _)] at hr
        obtain ⟨-, rfl⟩ := pure_ok.mp hr
        exact Or.inl hread
    · have hsame : v.mem = s.mem := hmem.trans hmem'
      rw [hc] at hr
      by_cases hfound : found = NULL
      · rw [if_pos hfound, Returns.bind_iff (setTokNext_returns _ _)] at hr
        obtain ⟨-, rfl⟩ := pure_ok.mp hr
        exact Or.inr (Ahead.next hfits hi hne fun a _ => by rw [hsame])
      · rw [if_neg hfound, Returns.bind_iff (store_returns _ _ _), Returns.bind_iff (setTokNext_returns _ _)] at hr
        obtain ⟨-, rfl⟩ := pure_ok.mp hr
        refine Or.inr (Ahead.next hfits hi hne fun a ha => ?_)
        -- the terminator is stored behind the cursor
        rw [Nat.mod_eq_of_lt (show line + i < 2 ^ 32 by omega)]
        show Function.update v.mem (line + i) 0 a = s.mem a
        rw [Function.update_of_ne (by omega), hsame]

/-- A round of the loop that skips delimiters. -/
theorem skipRound_open {c : Nat} {s t : Bytes} {r : Nat ⊕ Bool} (h : Open line n c s) (hr : Returns (skipRound q c) s r t) :
    line + n ∈ t.reads ∨ (∃ c', r = .inl c' ∧ Ahead line n c' t.mem) ∨ r = .inr true ∧ Ahead line n t.tokNext t.mem := by
  rcases h with hread | hahead
  · exact Or.inl (grows_skipRound q c s r t hr _ hread)
  obtain ⟨b, u, hload, hr⟩ := (bind_ok _ _ _).mp hr
  have hcase := load_ahead hfits hahead hload
  by_cases hb : b = 0
  · rw [if_pos hb] at hr
    obtain ⟨-, rfl⟩ := pure_ok.mp hr
    exact Or.inl (hcase.resolve_right fun h => h.1 hb)
  · rw [if_neg hb] at hr
    obtain ⟨found, v, hstr, hr⟩ := (bind_ok _ _ _).mp hr
    have hgrow := within_strchr grows_load q b u found v hstr
    obtain ⟨hmem, -⟩ := within_strchr keeps_load q b u found v hstr
    by_cases hfound : found = NULL
    · rw [if_pos hfound, Returns.bind_iff (setTokNext_returns _ _)] at hr
      obtain ⟨rfl, rfl⟩ := pure_ok.mp hr
      rcases hcase with hread | ⟨-, hmem', -, i, hi, hc, hne⟩
      · exact Or.inl (hgrow _ hread)
      · refine Or.inr (Or.inr ⟨rfl, i, Nat.le_of_lt hi, hc, ?_⟩)
        show ∀ j, i ≤ j → j < n → v.mem (line + j) ≠ 0
        rw [hmem, hmem']
        exact hne
    · rw [if_neg hfound] at hr
      obtain ⟨rfl, rfl⟩ := pure_ok.mp hr
      rcases hcase with hread | ⟨-, hmem', -, i, hi, hc, hne⟩
      · exact Or.inl (hgrow _ hread)
      · refine Or.inr (Or.inl ⟨_, rfl, ?_⟩)
        rw [hc]
        exact Ahead.next hfits hi hne fun a _ => by rw [hmem, hmem']

/-- After a call of `strtok`: the byte behind the copy has been read, or there is a token and the cursor is ahead. -/
def Pending (line n token : Nat) (s : Bytes) : Prop :=
  line + n ∈ s.reads ∨ token ≠ NULL ∧ Ahead line n s.tokNext s.mem

variable (hline : line ≠ NULL)

include hline

theorem takeToken_pending {s t : Bytes} {token : Nat} (h : Open line n s.tokNext s) (hr : Returns (takeToken q) s token t) :
    Pending line n token t := by
  rw [takeToken, Returns.bind_iff ((gets_ok _).mpr ⟨rfl, rfl⟩)] at hr
  obtain ⟨u, v, hloop, hr⟩ := (bind_ok _ _ _).mp hr
  obtain ⟨rfl, rfl⟩ := pure_ok.mp hr
  rcases h with hread | hahead
  · exact Or.inl (Within.forever (fun _ => grows_scanRound q) _ _ _ _ _ hloop _ hread)
  · have hopen : Open line n t.tokNext t := forever_rule (I := fun _ s => Open line n s.tokNext s)
      (Q := fun _ s => Open line n s.tokNext s) (fun _ _ _ _ h hr => scanRound_open hfits h hr)
      (fun _ _ _ _ h hr => scanRound_open hfits h hr) hloop (Or.inr hahead)
    exact hopen.imp_right fun h => ⟨Ahead.ne_null hline hahead, h⟩

/-- A call that goes on. -/
theorem strtok_pending {s t : Bytes} {token : Nat} (h : Open line n s.tokNext s) (hr : Returns (strtok NULL q) s token t) :
    Pending line n token t := by
  by_cases hnext : s.tokNext = NULL
  · rcases h with hread | hahead
    · exact Or.inl (grows_strtok NULL q s token t hr _ hread)
    · exact absurd hnext (Ahead.ne_null hline hahead)
  · exact takeToken_pending hfits hline h ((strtok_next hnext).mp hr)

/-- The call with the copy. -/
theorem strtok_line_pending {s t : Bytes} {token : Nat} (h : ∀ j < n, s.mem (line + j) ≠ 0)
    (hr : Returns (strtok line q) s token t) : Pending line n token t := by
  rw [strtok, Returns.bind_iff ((gets_ok _).mpr ⟨rfl, rfl⟩), if_neg (fun h => hline h.2), if_neg hline] at hr
  obtain ⟨begins, u, hskip, hr⟩ := (bind_ok _ _ _).mp hr
  have hstart : Open line n line s := Or.inr ⟨0, Nat.zero_le n, rfl, fun j _ hj => h j hj⟩
  have hskipped : line + n ∈ u.reads ∨ begins = true ∧ Ahead line n u.tokNext u.mem := by
    refine forever_rule (I := fun c s => Open line n c s)
      (Q := fun b s => line + n ∈ s.reads ∨ b = true ∧ Ahead line n s.tokNext s.mem) ?_ ?_ hskip hstart
    · intro c s c' t h hr
      rcases skipRound_open hfits h hr with hread | ⟨_, heq, ha⟩ | ⟨heq, -⟩
      · exact Or.inl hread
      · exact Or.inr (Sum.inl.inj heq ▸ ha)
      · exact absurd heq Sum.inl_ne_inr
    · intro c s b t h hr
      rcases skipRound_open hfits h hr with hread | ⟨_, heq, -⟩ | ⟨heq, ha⟩
      · exact Or.inl hread
      · exact absurd heq Sum.inr_ne_inl
      · exact Or.inr ⟨Sum.inr.inj heq, ha⟩
  cases hb : begins with
  | true =>
    rw [hb, if_pos rfl] at hr
    exact takeToken_pending hfits hline (hskipped.imp_right And.right) hr
  | false =>
    rw [hb, if_neg Bool.false_ne_true] at hr
    obtain ⟨-, rfl⟩ := pure_ok.mp hr
    exact Or.inl (hskipped.resolve_right fun h => Bool.noConfusion (hb.symm.trans h.1))

/-- **The calls of `strtok` go on until the byte behind the copy has been read.** -/
theorem strtok_reads_end {s t : Bytes} {token : Nat} {old array : Nat → Nat} {index : Nat} (h : Pending line n token s)
    (hr : Returns (forever .endless (tokenRound q) rounds (old, 0, token)) s (array, index) t) : line + n ∈ t.reads := by
  refine forever_rule (I := fun x s => Pending line n x.2.2 s) (Q := fun _ s => line + n ∈ s.reads) ?_ ?_ hr h
  · intro x s x' t h hr
    rw [tokenRound] at hr
    by_cases hx : x.2.2 = NULL
    · rw [if_pos hx] at hr
      exact absurd (pure_ok.mp hr).1 Sum.inl_ne_inr
    · rw [if_neg hx, check_bind_ok] at hr
      obtain ⟨-, hr⟩ := hr
      obtain ⟨token', u, hcall, hr⟩ := (bind_ok _ _ _).mp hr
      obtain ⟨heq, rfl⟩ := pure_ok.mp hr
      rw [Sum.inl.inj heq]
      exact strtok_pending hfits hline (h.imp_right And.right) hcall
  · intro x s b t h hr
    rw [tokenRound] at hr
    by_cases hx : x.2.2 = NULL
    · rw [if_pos hx] at hr
      obtain ⟨-, rfl⟩ := pure_ok.mp hr
      exact h.resolve_right fun h => h.1 hx
    · rw [if_neg hx, check_bind_ok] at hr
      obtain ⟨-, hr⟩ := hr
      obtain ⟨_, u, -, hr⟩ := (bind_ok _ _ _).mp hr
      exact absurd (pure_ok.mp hr).1 Sum.inr_ne_inl

end End

/-! ## The line -/

/-- `memcpy` to a place away from the source. -/
theorem memcpy_copies {dest src len : Nat} {s t : Bytes} (hdest : dest + len < 2 ^ 32) (hsrc : src + len < 2 ^ 32)
    (hap : Apart dest len src len) (hr : Returns (memcpy dest src len) s () t) :
    ∀ j < len, t.mem (dest + j) = s.mem (src + j) := by
  have hinv : (∀ j < len, t.mem (dest + j) = s.mem (src + j)) ∧ ∀ a, src ≤ a → a ≤ src + len → t.mem a = s.mem a := by
    refine loop_ok (fun i t => (∀ j < i, t.mem (dest + j) = s.mem (src + j)) ∧
      ∀ a, src ≤ a → a ≤ src + len → t.mem a = s.mem a) hr ⟨fun j hj => absurd hj (Nat.not_lt_zero j), fun _ _ _ => rfl⟩ ?_
    rintro i u v hi ⟨hcopied, hsame⟩ hr
    obtain ⟨b, w, hload, hr⟩ := (bind_ok _ _ _).mp hr
    cases hload
    obtain rfl := (update_ok _ _).mp hr
    rw [Apart] at hap
    refine ⟨fun j hj => ?_, fun a h1 h2 => ?_⟩
    · show Function.update u.mem ((dest + i) % 2 ^ 32) (u.mem ((src + i) % 2 ^ 32)) (dest + j) = _
      rw [Nat.mod_eq_of_lt (by omega), Nat.mod_eq_of_lt (a := src + i) (by omega), hsame _ (by omega) (by omega)]
      by_cases hji : j = i
      · rw [hji, Function.update_self]
      · rw [Function.update_of_ne (by omega)]
        exact hcopied j (by omega)
    · show Function.update u.mem ((dest + i) % 2 ^ 32) _ a = _
      rw [Nat.mod_eq_of_lt (by omega), Function.update_of_ne (by omega)]
      exact hsame a h1 h2
  exact hinv.1

theorem grows_operate (op : UInt8) (num1 num2 : Int) : Within Grows (operate op num1 num2) :=
  Within.ite (within_pure _) <| Within.ite ((Within.onlyIf (within_stop _)).bind fun _ => within_pure _) <|
    Within.ite (within_pure _) <| Within.ite (within_pure _) (within_pure _)

/-- Where `malloc` puts the copy: away from the line and the delimiters, and not at the end of the address space. -/
structure CopyBlock (line n ln delims m : Nat) : Prop where
  fits : line + n < 2 ^ 32
  source : Apart line n ln n
  delimiters : Apart line n delims m

/-- `parse_line` reads the byte behind the copy whenever it returns. -/
theorem parseLine_reads_end {s t : Bytes} {ln delims line tokens m : Nat} {old : Nat → Nat} {bs : List UInt8} {a : Answer}
    (hln : CString s.mem ln bs) (hblock : line ≠ NULL → CopyBlock line bs.length ln delims m)
    (hr : Returns (parseLine ln delims line tokens old) s a t) : line ≠ NULL ∧ line + bs.length ∈ t.reads := by
  obtain ⟨u, hlen, hlook⟩ := strlen_returns hln
  rw [parseLine, Returns.bind_iff hlen, check_bind_ok] at hr
  obtain ⟨hnull, hr⟩ := hr
  have hline : line ≠ NULL := fun h => (of_decide_eq_false hnull) (Or.inl h)
  obtain ⟨hfits, hap, -⟩ := hblock hline
  obtain ⟨_, v, hcopy, hr⟩ := (bind_ok _ _ _).mp hr
  obtain ⟨token, w, htoken, hr⟩ := (bind_ok _ _ _).mp hr
  obtain ⟨⟨array, index⟩, x, hloop, hr⟩ := (bind_ok _ _ _).mp hr
  have hcopied : ∀ j < bs.length, v.mem (line + j) ≠ 0 := by
    intro j hj
    rw [memcpy_copies hfits hln.fits hap hcopy j hj, hlook.mem, hln.held j hj]
    exact fun hz => hln.nonzero (hz ▸ List.getElem_mem hj)
  have hread := strtok_reads_end hfits hline (strtok_line_pending hfits hline hcopied htoken) hloop
  -- what is read later stays on record
  obtain ⟨num1, x1, h1, hr⟩ := (bind_ok _ _ _).mp hr
  obtain ⟨num2, x2, h2, hr⟩ := (bind_ok _ _ _).mp hr
  obtain ⟨oplen, x3, h3, hr⟩ := (bind_ok _ _ _).mp hr
  have hread := within_strlen grows_load _ _ _ _ h3 _
    (within_atoi grows_load _ _ _ _ h2 _ (within_atoi grows_load _ _ _ _ h1 _ hread))
  refine ⟨hline, ?_⟩
  by_cases hop : oplen > 1
  · rw [if_pos hop] at hr
    obtain ⟨-, rfl⟩ := pure_ok.mp hr
    exact hread
  · rw [if_neg hop] at hr
    obtain ⟨op, x4, h4, hr⟩ := (bind_ok _ _ _).mp hr
    obtain ⟨⟨value, reported⟩, x5, h5, hr⟩ := (bind_ok _ _ _).mp hr
    obtain ⟨-, rfl⟩ := pure_ok.mp hr
    exact grows_operate _ _ _ _ _ _ h5 _ (grows_load _ _ _ _ h4 _ hread)

/-- The byte behind the copy is neither in the line nor in the copy nor in the delimiters. -/
theorem CopyBlock.not_allowed {ln line delims : Nat} {bs ds : List UInt8} (h : CopyBlock line bs.length ln delims ds.length) :
    ¬ Allowed ln line delims bs ds (line + bs.length) := by
  have h1 := h.source
  have h2 := h.delimiters
  rw [Apart] at h1 h2
  rw [Allowed]
  omega

/-- **`parse_line` reads outside the copied line**, whatever the line and the heap are. -/
theorem parse_line_not_evaluates {mem : Nat → UInt8} {ln delims : Nat} {bs ds : List UInt8} (hln : CString mem ln bs)
    (tokNext tokens : Nat) (old : Nat → Nat) {line : Nat}
    (hblock : line ≠ NULL → CopyBlock line bs.length ln delims ds.length) :
    ¬ ∃ a t, Evaluates mem tokNext ln delims line tokens old bs ds a t := by
  rintro ⟨a, t, h⟩
  obtain ⟨hline, hread⟩ := parseLine_reads_end (s := ⟨mem, tokNext, []⟩) hln hblock h.returns
  exact (hblock hline).not_allowed (h.inside _ hread)

/-- The line `1 + 2`, and the delimiters elsewhere. -/
def sumMemory (p : Nat) : UInt8 :=
  if p = 0x2000 then 32 else if p = 0x2001 then 9 else if p < 0x1000 then 0 else [49, 32, 43, 32, 50].getD (p - 0x1000) 0

theorem cString_sum : CString sumMemory 0x1000 [49, 32, 43, 32, 50] := ⟨by decide, by decide, by decide, by decide⟩

theorem copyBlock_sum :
    CopyBlock 0x4000 ([49, 32, 43, 32, 50] : List UInt8).length 0x1000 0x2000 ([32, 9] : List UInt8).length :=
  ⟨by decide, Or.inr (by decide), Or.inr (by decide)⟩

theorem parse_line_not_evaluates_sum :
    ¬ ∃ a t, Evaluates sumMemory 0 0x1000 0x2000 0x4000 0x5000 (fun _ => 0) [49, 32, 43, 32, 50] [32, 9] a t :=
  parse_line_not_evaluates cString_sum 0 0x5000 (fun _ => 0) fun _ => copyBlock_sum

/-- The byte at `0x4005` is behind the copy of five bytes at `0x4000`. -/
theorem parse_line_reads_outside : (∀ a t,
      Returns (parseLine 0x1000 0x2000 0x4000 0x5000 fun _ => 0) ⟨sumMemory, 0, []⟩ a t → 0x4005 ∈ t.reads) ∧
    ¬ ∃ a t, Evaluates sumMemory 0 0x1000 0x2000 0x4000 0x5000 (fun _ => 0) [49, 32, 43, 32, 50] [32, 9] a t := by
  have hread : ∀ a t, Returns (parseLine 0x1000 0x2000 0x4000 0x5000 fun _ => 0) ⟨sumMemory, 0, []⟩ a t →
      0x4005 ∈ t.reads := fun a t h =>
    (parseLine_reads_end (s := ⟨sumMemory, 0, []⟩) cString_sum (fun _ => copyBlock_sum) h).2
  refine ⟨hread, ?_⟩
  rintro ⟨a, t, h⟩
  exact copyBlock_sum.not_allowed (h.inside _ (hread a t h.returns))

end Raampjes.Initrd
