import Raampjes.Tty.Decimal
import Raampjes.Tty.Vga

/-!
# Formats in memory

`vkprintf` over the bytes of its format, the words of its arguments and the array that it prints numbers into. What it reads
through the format pointer and what it passes to `vga_putchar` is kept.

- `Expands`: what a format stands for, given matching arguments;
- `Puts`: what a part of a run has put out, and how far it has looked into the format;
- `plain_returns`: a text without percent signs, as the numbers are printed; `number_returns`: a number;
- `outcome`: by the expansion, the run either puts it out or looks behind the terminator;
- `vkprintf_expands_iff`: which of the two, for every format.
-/

namespace Raampjes.Print

open Progs Numerals Libc

/-- Memory, the bytes looked at through a format pointer (the format and the index), what `vga_putchar` was given, and
the screen. -/
structure Console where
  chars : Chars
  looked : List (Nat × Nat)
  put : List UInt8
  screen : Vga.Screen

abbrev OnConsole (α : Type) := Prog Console Fault α

def onChars (x : OnChars α) : OnConsole α := focus Console.chars (fun c s => { s with chars := c }) x

/-! ## The functions -/

/-- `*c`, where the pointer is so many bytes behind the start of the format. -/
def look (format i : Nat) : OnConsole UInt8 := fun s =>
  .ok (s.chars.mem ((format + i) % 2 ^ 32), { s with looked := s.looked ++ [(format, i)] })

/-- `vga_putchar`, which prints a tab by `kprintf`. -/
def vgaPutchar (c : UInt8) : OnConsole Unit := fun s =>
  match Vga.vgaPutchar 3 c s.screen with
  | none => .error .nested
  | some v => .ok ((), { s with put := s.put ++ [c], screen := v })

/-- `va_arg(ap, ...)`, with the words that are left. -/
def vaArg : List Nat → OnConsole (Nat × List Nat)
  | [] => stop .argument
  | w :: args => pure (w, args)

/-- `for (sval = ...; *sval; sval++) vga_putchar(*sval);` -/
def putString (sval : Nat) : OnConsole Unit :=
  forever .endless (fun p => do
    let c ← gets fun s => s.chars.mem (p % 2 ^ 32)
    if c = 0 then pure (.inr ())
    else do
      vgaPutchar c
      pure (.inl (p + 1))) rounds sval

/-- The `switch` over the character behind a percent sign; `print` is `kprintf` without arguments. -/
def conversion (print : Nat → OnConsole Unit) (str : Nat) (d : UInt8) (args : List Nat) : OnConsole (List Nat) :=
  if d = 105 ∨ d = 100 then do
    let x ← vaArg args
    let _ ← onChars (itoa (int x.1) str 10)
    print str
    pure x.2
  else if d = 117 then do
    let x ← vaArg args
    let _ ← onChars (uitoa (x.1 % 2 ^ 32) str 10)
    print str
    pure x.2
  else if d = 120 ∨ d = 88 then do
    let x ← vaArg args
    let _ ← onChars (uitoa (x.1 % 2 ^ 32) str 16)
    print str
    pure x.2
  else if d = 115 then do
    let x ← vaArg args
    putString x.1
    pure x.2
  else if d = 37 then do
    vgaPutchar 37
    pure args
  else pure args

/-- A round of `for (c = format; *c; *c++)`, for the index of `c` and the arguments that are left. -/
def formatRound (print : Nat → OnConsole Unit) (str format : Nat) (x : Nat × List Nat) :
    OnConsole ((Nat × List Nat) ⊕ Unit) := do
  let c ← look format x.1
  if c = 0 then pure (.inr ())
  else if c ≠ 37 then do
    vgaPutchar c
    pure (.inl (x.1 + 1, x.2))
  else do
    let d ← look format (x.1 + 1)
    let args ← conversion print str d x.2
    pure (.inl (x.1 + 2, args))

/-- `vkprintf`, at most so many calls deep, with its argument pointer already set up as `kprintf` and `panic` do; `str` is
where the array of each call lies. -/
def vkprintf (str : Nat → Nat) : Nat → Nat → List Nat → OnConsole Unit
  | 0, _, _ => stop .nested
  | depth + 1, format, args =>
    forever .endless (formatRound (fun s => vkprintf str depth s []) (str depth) format) rounds (0, args)

/-! ## What a format stands for -/

/-- A character behind a percent sign that `vkprintf` knows. -/
def Known (d : UInt8) : Prop := d = 105 ∨ d = 100 ∨ d = 117 ∨ d = 120 ∨ d = 88 ∨ d = 115 ∨ d = 37

/-- The expansion of a format with matching arguments. Strings lie outside of the array `own`; behind a percent sign, a
character that is no conversion stands for nothing. -/
inductive Expands (mem : Nat → UInt8) (own : Nat → Prop) : List UInt8 → List Nat → List UInt8 → Prop
  | done (args) : Expands mem own [] args []
  | text {c format args out} (hc : c ≠ 37) (h : Expands mem own format args out) :
      Expands mem own (c :: format) args (c :: out)
  | last (args) : Expands mem own [37] args [37]
  | signed {d format} {w : Nat} {args out v} (hd : d = 105 ∨ d = 100) (hv : Decimal (int w) v)
      (h : Expands mem own format args out) : Expands mem own (37 :: d :: format) (w :: args) (v ++ out)
  | unsigned {format w args out v} (hv : Numeral 10 (w % 2 ^ 32) v) (h : Expands mem own format args out) :
      Expands mem own (37 :: 117 :: format) (w :: args) (v ++ out)
  | hex {d format w args out v} (hd : d = 120 ∨ d = 88) (hv : Numeral 16 (w % 2 ^ 32) v)
      (h : Expands mem own format args out) :
      Expands mem own (37 :: d :: format) (w :: args) ([48, 120] ++ v ++ out)
  | string {format w args out v} (hv : CString mem w v) (how : ∀ i ≤ v.length, ¬ own (w + i))
      (h : Expands mem own format args out) : Expands mem own (37 :: 115 :: format) (w :: args) (v ++ out)
  | percent {format args out} (h : Expands mem own format args out) :
      Expands mem own (37 :: 37 :: format) args (37 :: out)
  | unknown {d format args out} (hd : ¬ Known d) (h : Expands mem own format args out) :
      Expands mem own (37 :: d :: format) args out

section Conversions

variable {print : Nat → OnConsole Unit} {str w : Nat} {args : List Nat} {d : UInt8}

theorem conversion_signed (hd : d = 105 ∨ d = 100) : conversion print str d (w :: args) = (do
    let _ ← onChars (itoa (int w) str 10)
    print str
    pure args) := by
  rw [conversion, if_pos hd, vaArg, pure_bind]

theorem conversion_unsigned : conversion print str 117 (w :: args) = (do
    let _ ← onChars (uitoa (w % 2 ^ 32) str (10 : Nat))
    print str
    pure args) := by
  rw [conversion, if_neg (by decide), if_pos rfl, vaArg, pure_bind]
  rfl

theorem conversion_hex (hd : d = 120 ∨ d = 88) : conversion print str d (w :: args) = (do
    let _ ← onChars (uitoa (w % 2 ^ 32) str (16 : Nat))
    print str
    pure args) := by
  rw [conversion, if_neg (by rcases hd with rfl | rfl <;> decide), if_neg (by rcases hd with rfl | rfl <;> decide),
    if_pos hd, vaArg, pure_bind]
  rfl

theorem conversion_string : conversion print str 115 (w :: args) = (do
    putString w
    pure args) := by
  rw [conversion, if_neg (by decide), if_neg (by decide), if_neg (by decide), if_pos rfl, vaArg, pure_bind]

theorem conversion_percent : conversion print str 37 args = (do
    vgaPutchar 37
    pure args) := by
  rw [conversion, if_neg (by decide), if_neg (by decide), if_neg (by decide), if_neg (by decide), if_pos rfl]

theorem conversion_unknown (hd : ¬ Known d) : conversion print str d args = pure args := by
  simp only [Known, not_or] at hd
  simp only [conversion, hd, or_self, if_false]

end Conversions

/-- No percent sign is left over at the end. -/
def paired : List UInt8 → Bool
  | [] => true
  | [c] => c ≠ 37
  | c :: d :: format => if c = 37 then paired format else paired (d :: format)

/-- No argument of `%d` or `%i` is `INT_MIN`. -/
def aboveMin : List UInt8 → List Nat → Bool
  | c :: d :: format, args =>
    if c ≠ 37 then aboveMin (d :: format) args
    else if d = 105 ∨ d = 100 then int (args.headD 0) ≠ -2 ^ 31 && aboveMin format args.tail
    else if d = 117 ∨ d = 120 ∨ d = 88 ∨ d = 115 then aboveMin format args.tail
    else aboveMin format args
  | _, _ => true

/-- Both conditions on a format and its arguments. -/
def Safe (format : List UInt8) (args : List Nat) : Prop := paired format = true ∧ aboveMin format args = true

/-- What a part of a run has put out, looking no further into the format than up to `bound`. -/
structure Puts (format bound : Nat) (out : List UInt8) (s t : Console) : Prop where
  put : t.put = s.put ++ out
  screen : Vga.putchars 3 out s.screen = some t.screen
  looked : ∀ x ∈ t.looked, x ∈ s.looked ∨ (x.1 = format → x.2 ≤ bound)

/-! ## Text -/

section Texts

variable {f bound : Nat} {out out' : List UInt8} {s t u : Console}

theorem Puts.refl (f bound : Nat) (s : Console) : Puts f bound [] s s :=
  ⟨(List.append_nil _).symm, rfl, fun _ hx => Or.inl hx⟩

theorem putchars_append (depth : Nat) (out out' : List UInt8) (v : Vga.Screen) :
    Vga.putchars depth (out ++ out') v = (Vga.putchars depth out v).bind (Vga.putchars depth out') := by
  induction out generalizing v with
  | nil => rfl
  | cons c out ih =>
    have h : ∀ cs w, Vga.putchars depth (c :: cs) w = (Vga.vgaPutchar depth c w).bind (Vga.putchars depth cs) :=
      fun _ _ => rfl
    rw [List.cons_append, h, h, Option.bind_assoc]
    congr 1
    funext w
    exact ih w

theorem Puts.trans (h : Puts f bound out s t) (h' : Puts f bound out' t u) : Puts f bound (out ++ out') s u := by
  refine ⟨?_, ?_, fun x hx => ?_⟩
  · rw [h'.put, h.put, List.append_assoc]
  · rw [putchars_append, h.screen]
    exact h'.screen
  · rcases h'.looked x hx with hx | hx
    · exact h.looked x hx
    · exact Or.inr hx

theorem look_returns {g i : Nat} (hi : g = f → i ≤ bound) (s : Console) : ∃ t,
    Returns (look g i) s (s.chars.mem ((g + i) % 2 ^ 32)) t ∧ Puts f bound [] s t ∧ t.chars = s.chars := by
  refine ⟨_, rfl, ⟨(List.append_nil _).symm, rfl, fun x hx => ?_⟩, rfl⟩
  rcases List.mem_append.mp hx with hx | hx
  · exact Or.inl hx
  · obtain rfl := List.mem_singleton.mp hx
    exact Or.inr hi

theorem putchar_returns (f bound : Nat) (c : UInt8) (s : Console) : ∃ t,
    Returns (vgaPutchar c) s () t ∧ Puts f bound [c] s t ∧ t.chars = s.chars := by
  obtain ⟨v, hv⟩ := Vga.vgaPutchar_returns 0 c s.screen
  refine ⟨{ s with put := s.put ++ [c], screen := v }, ?_, ⟨rfl, ?_, fun _ hx => Or.inl hx⟩, rfl⟩
  · unfold Returns vgaPutchar
    rw [hv]
  · rw [Vga.putchars, Vga.putString, hv]
    rfl

variable {print : Nat → OnConsole Unit} {str g i : Nat} {args : List Nat}

theorem round_end (f bound : Nat) (print : Nat → OnConsole Unit) (str : Nat) (args : List Nat)
    (hi : g = f → i ≤ bound) (h0 : s.chars.mem ((g + i) % 2 ^ 32) = 0) :
    ∃ t, Returns (formatRound print str g (i, args)) s (.inr ()) t ∧ Puts f bound [] s t ∧ t.chars = s.chars := by
  obtain ⟨t, ht, hp, hc⟩ := look_returns hi s
  refine ⟨t, ?_, hp, hc⟩
  rw [formatRound, Returns.bind_iff ht, if_pos h0]
  exact pure_ok.mpr ⟨rfl, rfl⟩

/-- A character that is no percent sign is passed on. -/
theorem round_text (f bound : Nat) (print : Nat → OnConsole Unit) (str : Nat) (args : List Nat)
    (hi : g = f → i ≤ bound) {c : UInt8} (hc : s.chars.mem ((g + i) % 2 ^ 32) = c) (h0 : c ≠ 0)
    (h37 : c ≠ 37) : ∃ t, Returns (formatRound print str g (i, args)) s (.inl (i + 1, args)) t ∧
      Puts f bound [c] s t ∧ t.chars = s.chars := by
  obtain ⟨t, ht, hp, hchars⟩ := look_returns hi s
  obtain ⟨u, hu, hp', hchars'⟩ := putchar_returns f bound c t
  refine ⟨u, ?_, hp.trans hp', hchars'.trans hchars⟩
  rw [formatRound, Returns.bind_iff ht, hc, if_neg h0, if_pos h37, Returns.bind_iff hu]
  exact pure_ok.mpr ⟨rfl, rfl⟩

/-- Behind a percent sign the next character decides. -/
theorem round_percent (f bound : Nat) (print : Nat → OnConsole Unit) (str : Nat) (args : List Nat)
    (hi : g = f → i + 1 ≤ bound) (h37 : s.chars.mem ((g + i) % 2 ^ 32) = 37) {d : UInt8}
    (hd : s.chars.mem ((g + (i + 1)) % 2 ^ 32) = d) : ∃ t, Puts f bound [] s t ∧ t.chars = s.chars ∧
      formatRound print str g (i, args) s = (conversion print str d args >>= fun args => pure (.inl (i + 2, args))) t := by
  obtain ⟨t, ht, hp, hchars⟩ := look_returns (fun h => Nat.le_of_succ_le (hi h)) s
  obtain ⟨u, hu, hp', hchars'⟩ := look_returns hi t
  rw [hchars, hd] at hu
  refine ⟨u, hp.trans hp', hchars'.trans hchars, ?_⟩
  rw [formatRound, ht.bind_eq, h37, if_neg (by decide), if_neg (by decide), hu.bind_eq]

/-- **A text without percent signs** is put out as it is. -/
theorem plain_returns (f bound : Nat) (print : Nat → OnConsole Unit) (str : Nat) (args : List Nat)
    {w : List UInt8} (hw : CString s.chars.mem (g + i) w) (h37 : (37 : UInt8) ∉ w)
    (hi : g = f → i + w.length ≤ bound) {n : Nat} (hn : w.length < n) : ∃ t,
      Returns (forever .endless (formatRound print str g) n (i, args)) s () t ∧ Puts f bound w s t ∧
        t.chars = s.chars := by
  induction w generalizing s i n with
  | nil =>
    obtain ⟨n, rfl⟩ := Nat.exists_eq_succ_of_ne_zero (Nat.ne_zero_of_lt hn)
    obtain ⟨t, ht, hp, hchars⟩ := round_end f bound print str args hi hw.nil
    exact ⟨t, forever_succ.mpr (Or.inl ht), hp, hchars⟩
  | cons c w ih =>
    obtain ⟨n, rfl⟩ := Nat.exists_eq_succ_of_ne_zero (Nat.ne_zero_of_lt hn)
    rw [List.length_cons] at hi hn
    obtain ⟨hc, h0⟩ := hw.head
    obtain ⟨t, ht, hp, hchars⟩ := round_text f bound print str args
      (fun h => by have := hi h; omega) hc h0 (fun h => h37 (h ▸ List.mem_cons_self))
    obtain ⟨u, hu, hp', hchars'⟩ := ih (s := t) (i := i + 1) (n := n) (by rw [hchars, ← Nat.add_assoc]; exact hw.tail)
      (fun h => h37 (List.mem_cons_of_mem c h)) (fun h => by have := hi h; omega) (by omega)
    exact ⟨u, forever_succ.mpr (Or.inr ⟨_, t, ht, hu⟩), hp.trans hp', hchars'.trans hchars⟩

/-- The characters of a string argument. -/
theorem putString_returns (f bound : Nat) {p : Nat} {w : List UInt8} (hw : CString s.chars.mem p w) : ∃ t,
    Returns (putString p) s () t ∧ Puts f bound w s t ∧ t.chars = s.chars := by
  have hfits := hw.fits
  unfold putString
  generalize hn : rounds = n
  have hlt : w.length < n := by rw [← hn, rounds]; omega
  clear hn hfits
  induction w generalizing s p n with
  | nil =>
    obtain ⟨n, rfl⟩ := Nat.exists_eq_succ_of_ne_zero (Nat.ne_zero_of_lt hlt)
    refine ⟨s, forever_succ.mpr (Or.inl ?_), Puts.refl f bound s, rfl⟩
    rw [Returns.bind_iff ((gets_ok _).mpr ⟨rfl, rfl⟩), if_pos hw.nil]
    exact pure_ok.mpr ⟨rfl, rfl⟩
  | cons c w ih =>
    obtain ⟨n, rfl⟩ := Nat.exists_eq_succ_of_ne_zero (Nat.ne_zero_of_lt hlt)
    obtain ⟨hc, h0⟩ := hw.head
    obtain ⟨t, ht, hp, hchars⟩ := putchar_returns f bound c s
    obtain ⟨u, hu, hp', hchars'⟩ := ih (s := t) (p := p + 1) (n := n) (by rw [hchars]; exact hw.tail)
      (Nat.lt_of_succ_lt_succ hlt)
    refine ⟨u, forever_succ.mpr (Or.inr ⟨p + 1, t, ?_, hu⟩), hp.trans hp', hchars'.trans hchars⟩
    rw [Returns.bind_iff ((gets_ok _).mpr ⟨rfl, rfl⟩), hc, if_neg h0, Returns.bind_iff ht]
    exact pure_ok.mpr ⟨rfl, rfl⟩

end Texts

/-! ## Numbers -/

/-- The array of 24 bytes that numbers are printed into. -/
def Local (str q : Nat) : Prop := str ≤ q ∧ q < str + 24

section Numbers

variable {f bound str depth : Nat} {strs : Nat → Nat} {s : Console}

/-- A text that was stored in the array is put out, and nothing but the array changes. -/
theorem number_returns {x : OnChars Nat} {w : List UInt8} {o : List Nat} {c : Chars} (hx : Returns x s.chars str c)
    (hw : Wrote str (w ++ [0]) o s.chars c) (hlen : w.length < 24) (hstr : str + 24 ≤ 2 ^ 32) (hne : str ≠ f)
    (h0 : (0 : UInt8) ∉ w) (h37 : (37 : UInt8) ∉ w) {args : List Nat} : ∃ t,
      Returns (do let _ ← onChars x; vkprintf strs (depth + 1) str []; pure args) s args t ∧ Puts f bound w s t ∧
        ∀ q, ¬ Local str q → t.chars.mem q = s.chars.mem q := by
  have hstring := hw.cstring (by omega) h0
  have hchars : Returns (onChars x) s str { s with chars := c } := focus_ok.mpr ⟨c, hx, rfl⟩
  obtain ⟨t, ht, hp, hc⟩ := plain_returns f bound (fun s => vkprintf strs depth s []) (strs depth) []
    (s := { s with chars := c }) (g := str) (i := 0) hstring h37 (fun h => absurd h hne)
    (n := rounds) (by rw [rounds]; omega)
  refine ⟨t, ?_, ⟨hp.put, hp.screen, hp.looked⟩, fun q hq => ?_⟩
  · rw [Returns.bind_iff hchars, vkprintf, Returns.bind_iff ht]
    exact pure_ok.mpr ⟨rfl, rfl⟩
  · rw [hc]
    apply hw.kept
    intro j hj
    rw [List.length_append, List.length_singleton] at hj
    rw [Nat.mod_eq_of_lt (by omega)]
    rintro rfl
    exact hq ⟨Nat.le_add_right str j, by omega⟩

/-- The characters of digits are neither terminators nor percent signs. -/
theorem glyph_plain (b n : Nat) (hb : 1 < b) (hb' : b ≤ 16) :
    (0 : UInt8) ∉ (numeral b n).map glyph ∧ (37 : UInt8) ∉ (numeral b n).map glyph := by
  have hglyph : ∀ d : Fin 16, glyph d ≠ 0 ∧ glyph d ≠ 37 := by decide
  have hlt : ∀ d ∈ numeral b n, d < 16 := fun d hd => Nat.lt_of_lt_of_le ((numeral_canonical hb n).digits d hd) hb'
  refine ⟨fun h => ?_, fun h => ?_⟩
  · obtain ⟨d, hd, hz⟩ := List.mem_map.mp h
    exact (hglyph ⟨d, hlt d hd⟩).1 hz
  · obtain ⟨d, hd, hz⟩ := List.mem_map.mp h
    exact (hglyph ⟨d, hlt d hd⟩).2 hz

theorem signed_plain (n : Int) : (37 : UInt8) ∉ decimalText n := by
  intro h
  rcases List.mem_append.mp h with h | h
  · unfold sign at h
    split at h
    · simp at h
    · cases h
  · exact (glyph_plain 10 _ (by decide) (by decide)).2 h

/-- `%d` and `%i`, above `INT_MIN`. -/
theorem itoa_number {n : Int} (hn : -2 ^ 31 < n) (hn' : n < 2 ^ 31) (hstr : str + 24 ≤ 2 ^ 32) (hne : str ≠ f)
    (args : List Nat) : ∃ t,
      Returns (do let _ ← onChars (itoa n str 10); vkprintf strs (depth + 1) str []; pure args) s args t ∧
        Puts f bound (decimalText n) s t ∧ ∀ q, ¬ Local str q → t.chars.mem q = s.chars.mem q := by
  have hsign := length_sign_le n
  have hlen := length_digits_le hn hn'
  obtain ⟨o, c, hx, hw⟩ := signed_returns hn hn' str s.chars
  apply number_returns (x := itoa n str 10) hx hw _ hstr hne (decimalText_nonzero n) (signed_plain n)
  rw [decimalText, List.length_append, List.length_map]
  omega

/-- `%u`, `%x` and `%X`. -/
theorem uitoa_number {n base : Nat} (hn : n < 2 ^ 32) (hbase : base = 10 ∨ base = 16) (hstr : str + 24 ≤ 2 ^ 32)
    (hne : str ≠ f) (args : List Nat) : ∃ t,
      Returns (do let _ ← onChars (uitoa n str base); vkprintf strs (depth + 1) str []; pure args) s args t ∧
        Puts f bound (leading base ++ (numeral base n).map glyph) s t ∧
        ∀ q, ¬ Local str q → t.chars.mem q = s.chars.mem q := by
  have hlen := length_le_eleven hn hbase
  obtain ⟨c, hx, hw⟩ := uitoa_returns hn hbase str s.chars
  obtain ⟨h0, h37⟩ := glyph_plain base n (by omega) (by omega)
  have hlead : (0 : UInt8) ∉ leading base ∧ (37 : UInt8) ∉ leading base := by
    rcases hbase with rfl | rfl <;> decide
  rw [← List.append_assoc] at hw
  refine number_returns hx hw ?_ hstr hne (fun h => ?_) fun h => ?_
  · rw [List.length_append, List.length_map]
    omega
  · exact (List.mem_append.mp h).elim hlead.1 h0
  · exact (List.mem_append.mp h).elim hlead.2 h37

end Numbers

/-! ## What stays looked at -/

/-- The bytes looked at so far stay on record. -/
def Grows (s t : Console) : Prop := ∀ x ∈ s.looked, x ∈ t.looked

instance : Std.Refl Grows := ⟨fun _ _ h => h⟩

instance : IsTrans Console Grows := ⟨fun _ _ _ h h' x hx => h' x (h x hx)⟩

theorem grows_look (format i : Nat) : Within Grows (look format i) := by
  intro s a t h
  cases h
  exact fun x hx => List.mem_append_left _ hx

theorem grows_onChars {α : Type} (x : OnChars α) : Within Grows (onChars x) := by
  intro s a t h
  obtain ⟨c, -, rfl⟩ := focus_ok.mp h
  exact fun x hx => hx

theorem grows_vgaPutchar (c : UInt8) : Within Grows (vgaPutchar c) := by
  intro s a t h
  unfold Returns vgaPutchar at h
  split at h
  · cases h
  · cases h
    exact fun x hx => hx

theorem grows_vaArg (args : List Nat) : Within Grows (vaArg args) := by
  cases args with
  | nil => exact within_stop _
  | cons w args => exact within_pure _

theorem grows_putString (p : Nat) : Within Grows (putString p) :=
  Within.forever (fun _ => (within_gets _).bind fun _ =>
    Within.ite (within_pure _) ((grows_vgaPutchar _).bind fun _ => within_pure _)) _ _

theorem grows_conversion {print : Nat → OnConsole Unit} (hprint : ∀ s, Within Grows (print s)) (str : Nat) (d : UInt8)
    (args : List Nat) : Within Grows (conversion print str d args) := by
  have hnumber : ∀ x : Nat → OnChars Nat, Within Grows (do
      let w ← vaArg args
      let _ ← onChars (x w.1)
      print str
      pure w.2) := fun x =>
    (grows_vaArg args).bind fun w => (grows_onChars _).bind fun _ => (hprint str).bind fun _ => within_pure _
  exact Within.ite (hnumber fun w => itoa (int w) str 10) <| Within.ite (hnumber fun w => uitoa (w % 2 ^ 32) str 10) <|
    Within.ite (hnumber fun w => uitoa (w % 2 ^ 32) str 16) <|
    Within.ite ((grows_vaArg args).bind fun w => (grows_putString _).bind fun _ => within_pure _) <|
    Within.ite ((grows_vgaPutchar 37).bind fun _ => within_pure _) (within_pure _)

/-- A round looks at its character. -/
theorem formatRound_looks {print : Nat → OnConsole Unit} (hprint : ∀ s, Within Grows (print s)) {str format : Nat}
    {x : Nat × List Nat} {r : (Nat × List Nat) ⊕ Unit} {s t : Console}
    (h : Returns (formatRound print str format x) s r t) : ∀ y, y ∈ s.looked ∨ y = (format, x.1) → y ∈ t.looked := by
  obtain ⟨c, u, hlook, hrest⟩ := (bind_ok _ _ _).mp h
  have hu : ∀ y, y ∈ s.looked ∨ y = (format, x.1) → y ∈ u.looked := by
    cases hlook
    exact fun y hy => List.mem_append.mpr (hy.imp_right List.mem_singleton.mpr)
  have hgrows : ∀ {p : OnConsole ((Nat × List Nat) ⊕ Unit)}, Returns p u r t → Within Grows p → Grows u t :=
    fun hp hw => hw u r t hp
  refine fun y hy => hgrows hrest ?_ y (hu y hy)
  exact Within.ite (within_pure _) <| Within.ite ((grows_vgaPutchar _).bind fun _ => within_pure _) <|
    (grows_look _ _).bind fun _ => (grows_conversion hprint _ _ _).bind fun _ => within_pure _

theorem grows_formatRound {print : Nat → OnConsole Unit} (hprint : ∀ s, Within Grows (print s)) (str format : Nat)
    (x : Nat × List Nat) : Within Grows (formatRound print str format x) :=
  fun _ _ _ h y hy => formatRound_looks hprint h y (Or.inl hy)

theorem grows_vkprintf (strs : Nat → Nat) : ∀ depth format args, Within Grows (vkprintf strs depth format args)
  | 0, _, _ => within_stop _
  | depth + 1, _, _ =>
    Within.forever (grows_formatRound (fun s => grows_vkprintf strs depth s []) _ _) rounds _

/-- A run that returns has looked at the character that it starts with. -/
theorem run_looks {strs : Nat → Nat} {depth str format i n : Nat} {args : List Nat} {s t : Console}
    (h : Returns (forever .endless (formatRound (fun s => vkprintf strs depth s []) str format) n (i, args)) s () t) :
    (format, i) ∈ t.looked := by
  have hprint := fun s => grows_vkprintf strs depth s []
  cases n with
  | zero => exact absurd h (stop_ok _)
  | succ n =>
    rcases forever_succ.mp h with hr | ⟨x, u, hr, hrest⟩
    · exact formatRound_looks hprint hr _ (Or.inr rfl)
    · exact Within.forever (grows_formatRound hprint _ _) n x _ _ _ hrest _ (formatRound_looks hprint hr _ (Or.inr rfl))

/-! ## The run -/

theorem safe_text {c : UInt8} (hc : c ≠ 37) (format : List UInt8) (args : List Nat) :
    Safe (c :: format) args ↔ Safe format args := by
  cases format <;> simp [Safe, paired, aboveMin, hc]

/-- The rest of a run: when it is safe it puts the expansion out, and otherwise it looks behind the end, or stops. -/
structure Outcome (body : Nat × List Nat → OnConsole ((Nat × List Nat) ⊕ Unit)) (format L : Nat) (rest : List UInt8)
    (args : List Nat) (out : List UInt8) (i n : Nat) (s : Console) : Prop where
  safe : Safe rest args → ∃ u, Returns (forever .endless body n (i, args)) s () u ∧ Puts format L out s u
  behind : ¬ Safe rest args → ∀ u, Returns (forever .endless body n (i, args)) s () u → (format, L + 1) ∈ u.looked

section Run

variable {body : Nat × List Nat → OnConsole ((Nat × List Nat) ⊕ Unit)} {format L i i' n : Nat} {rest rest' : List UInt8}
  {args args' : List Nat} {o out : List UInt8} {s t : Console}

/-- A round that goes on, in front of the rest of a run. -/
theorem Outcome.step (h : Outcome body format L rest' args' out i' n t)
    (hround : Returns (body (i, args)) s (.inl (i', args')) t) (hput : Puts format L o s t)
    (hsafe : Safe rest args ↔ Safe rest' args') : Outcome body format L rest args (o ++ out) i (n + 1) s := by
  refine ⟨fun hs => ?_, fun hs u hu => ?_⟩
  · obtain ⟨u, hu, hp⟩ := h.safe (hsafe.mp hs)
    exact ⟨u, forever_succ.mpr (Or.inr ⟨_, t, hround, hu⟩), hput.trans hp⟩
  · have hrest : Returns (forever .endless body n (i', args')) t () u := (forever_on hround).symm.trans hu
    exact h.behind (fun h => hs (hsafe.mpr h)) u hrest

variable {mem : Nat → UInt8} {str depth : Nat} {strs : Nat → Nat} {d : UInt8}

/-- A conversion that returns, in front of the rest of a run. -/
theorem Outcome.conversion (hi : i + 1 ≤ L) (h37 : s.chars.mem ((format + i) % 2 ^ 32) = 37)
    (hd : s.chars.mem ((format + (i + 1)) % 2 ^ 32) = d)
    (hconv : ∀ t, t.chars = s.chars → ∃ u, Returns (Print.conversion (fun s => vkprintf strs (depth + 1) s []) str d args) t
      args' u ∧ Puts format L o t u ∧ ∀ q, ¬ Local str q → u.chars.mem q = s.chars.mem q)
    (hsafe : Safe (37 :: d :: rest) args ↔ Safe rest args')
    (h : ∀ u, (∀ q, ¬ Local str q → u.chars.mem q = s.chars.mem q) →
      Outcome (formatRound (fun s => vkprintf strs (depth + 1) s []) str format) format L rest args' out (i + 2) n u) :
    Outcome (formatRound (fun s => vkprintf strs (depth + 1) s []) str format) format L (37 :: d :: rest) args (o ++ out) i
      (n + 1) s := by
  obtain ⟨t, hp, hchars, hround⟩ := round_percent format L (fun s => vkprintf strs (depth + 1) s []) str args
    (fun _ => hi) h37 hd
  obtain ⟨u, hu, hp', hmem⟩ := hconv t hchars
  refine (h u hmem).step (hround.trans ?_) (hp.trans hp') hsafe
  exact hu.bind_eq _

/-- The rest of the format lies `i` bytes behind its start, apart from the array, and ends at `L`. -/
structure Place (mem : Nat → UInt8) (str format L : Nat) (rest : List UInt8) (i : Nat) : Prop where
  length : i + rest.length = L
  text : CString mem (format + i) rest
  apart : ∀ j ≤ rest.length, ¬ Local str (format + i + j)

theorem Place.tail {c : UInt8} (h : Place mem str format L (c :: rest) i) : Place mem str format L rest (i + 1) := by
  obtain ⟨hlen, htext, hapart⟩ := h
  rw [List.length_cons] at hlen hapart
  refine ⟨by omega, by rw [← Nat.add_assoc]; exact htext.tail, fun j hj => ?_⟩
  have := hapart (j + 1) (Nat.succ_le_succ hj)
  rwa [Nat.add_comm j 1, ← Nat.add_assoc, Nat.add_assoc format] at this

/-- A state in which only the array has changed has the same rest. -/
theorem Place.string (h : Place mem str format L rest i) (hmem : ∀ q, ¬ Local str q → s.chars.mem q = mem q) :
    CString s.chars.mem (format + i) rest := by
  obtain ⟨-, htext, hapart⟩ := h
  refine ⟨fun j hj => ?_, ?_, htext.nonzero, htext.fits⟩
  · rw [hmem _ (hapart j hj.le)]
    exact htext.held j hj
  · rw [hmem _ (hapart _ (Nat.le_refl _))]
    exact htext.ends

/-- The two characters of a conversion. -/
theorem Place.conversion (h : Place mem str format L (37 :: d :: rest) i)
    (hmem : ∀ q, ¬ Local str q → s.chars.mem q = mem q) : s.chars.mem ((format + i) % 2 ^ 32) = 37 ∧
      s.chars.mem ((format + (i + 1)) % 2 ^ 32) = d ∧ i + 1 ≤ L ∧ Place mem str format L rest (i + 2) := by
  have hlen := h.length
  rw [List.length_cons] at hlen
  exact ⟨(h.string hmem).head.1, (h.tail.string hmem).head.1, by omega, h.tail.tail⟩

theorem safe_conversion (hd : d ≠ 105 ∧ d ≠ 100) (ht : d = 117 ∨ d = 120 ∨ d = 88 ∨ d = 115) (w : Nat) :
    Safe (37 :: d :: rest) (w :: args) ↔ Safe rest args := by
  simp [Safe, paired, aboveMin, hd, ht]

theorem safe_signed (hd : d = 105 ∨ d = 100) (w : Nat) (hw : int w ≠ -2 ^ 31) :
    Safe (37 :: d :: rest) (w :: args) ↔ Safe rest args := by
  simp only [Safe, paired, if_true, aboveMin, ne_eq, not_true, if_false, hd, List.headD_cons, List.tail_cons,
    Bool.and_eq_true, decide_eq_true_eq, hw, not_false_eq_true, true_and]

theorem safe_other (hd : d ≠ 105 ∧ d ≠ 100 ∧ d ≠ 117 ∧ d ≠ 120 ∧ d ≠ 88 ∧ d ≠ 115) (args : List Nat) :
    Safe (37 :: d :: rest) args ↔ Safe rest args := by
  simp [Safe, paired, aboveMin, hd]

theorem int_bounds (n : Int) : -2 ^ 31 ≤ int n ∧ int n < 2 ^ 31 :=
  ⟨Int.le_bmod (m := 2 ^ 32) (by decide), Int.bmod_lt (m := 2 ^ 32) (by decide)⟩

/-- A conversion of `INT_MIN` never returns. -/
theorem outcome_min {w : Nat} (hd : d = 105 ∨ d = 100) (hw : int w = -2 ^ 31) (hi : i + 1 ≤ L)
    (h37 : s.chars.mem ((format + i) % 2 ^ 32) = 37) (hdbyte : s.chars.mem ((format + (i + 1)) % 2 ^ 32) = d) :
    Outcome (formatRound (fun s => vkprintf strs (depth + 1) s []) str format) format L (37 :: d :: rest) (w :: args) out i
      (n + 1) s := by
  have hstops : ∀ r u, ¬ Returns (formatRound (fun s => vkprintf strs (depth + 1) s []) str format (i, w :: args)) s r u := by
    intro r u h
    obtain ⟨t, -, -, hround⟩ := round_percent format L (fun s => vkprintf strs (depth + 1) s []) str
      (w :: args) (fun _ => hi) h37 hdbyte
    obtain ⟨_, _, hconv, -⟩ := (bind_ok _ _ _).mp (hround.symm.trans h)
    rw [conversion_signed hd, hw] at hconv
    obtain ⟨_, _, hchars, -⟩ := (bind_ok _ _ _).mp hconv
    obtain ⟨c, hx, -⟩ := focus_ok.mp hchars
    exact stop_ok Fault.outside hx
  refine ⟨fun hs => ?_, fun _ u hu => ?_⟩
  · have := hs.2
    simp only [aboveMin, ne_eq, not_true, if_false, hd, if_true, List.headD_cons, hw, Bool.and_eq_true,
      decide_eq_true_eq, false_and] at this
  · rcases forever_succ.mp hu with h | ⟨x, t, h, -⟩
    · exact absurd h (hstops _ _)
    · exact absurd h (hstops _ _)

/-- **By the expansion**, the rest of a run is as it should be. -/
theorem outcome (h : Expands mem (Local str) rest args out) (hstr : str + 24 ≤ 2 ^ 32) (hne : str ≠ format)
    (hplace : Place mem str format L rest i) (hmem : ∀ q, ¬ Local str q → s.chars.mem q = mem q) (hn : rest.length < n) :
    Outcome (formatRound (fun s => vkprintf strs (depth + 1) s []) str format) format L rest args out i n s := by
  obtain ⟨n, rfl⟩ := Nat.exists_eq_succ_of_ne_zero (Nat.ne_zero_of_lt hn)
  induction h generalizing i s n with
  | done args =>
    obtain ⟨t, ht, hp, -⟩ := round_end format L (fun s => vkprintf strs (depth + 1) s []) str args
      (fun _ => hplace.length.le) (hplace.string hmem).nil
    exact ⟨fun _ => ⟨t, forever_succ.mpr (Or.inl ht), hp⟩, fun hs => absurd ⟨rfl, rfl⟩ hs⟩
  | @text c rest args out hc h ih =>
    obtain ⟨hbyte, h0⟩ := (hplace.string hmem).head
    have hlen := hplace.length
    rw [List.length_cons] at hlen hn
    obtain ⟨n, rfl⟩ := Nat.exists_eq_succ_of_ne_zero (n := n) (by omega)
    obtain ⟨t, ht, hp, hchars⟩ := round_text format L (fun s => vkprintf strs (depth + 1) s []) str args
      (fun _ => by omega) hbyte h0 hc
    have hrest := ih hplace.tail (s := t) (fun q hq => by rw [hchars]; exact hmem q hq) n (by omega)
    exact hrest.step ht hp (safe_text hc rest args)
  | last args =>
    refine ⟨fun hs => absurd hs.1 (by decide), fun _ u hu => ?_⟩
    have hlen := hplace.length
    rw [List.length_singleton] at hlen hn
    -- the terminator is taken for the conversion, and the next round looks behind it
    obtain ⟨t, -, -, hround⟩ := round_percent format L (fun s => vkprintf strs (depth + 1) s []) str args
      (fun _ => hlen.le) (hplace.string hmem).head.1 (hplace.tail.string hmem).nil
    have hgo : Returns (formatRound (fun s => vkprintf strs (depth + 1) s []) str format (i, args)) s
        (.inl (i + 2, args)) t := hround
    have hu' : Returns (forever .endless (formatRound (fun s => vkprintf strs (depth + 1) s []) str format) n
        (i + 2, args)) t () u := (forever_on hgo).symm.trans hu
    rw [← hlen]
    exact run_looks hu'
  | @signed d rest w args out v hd hv h ih =>
    obtain ⟨h37, hdbyte, hi, hplace'⟩ := hplace.conversion hmem
    rw [List.length_cons, List.length_cons] at hn
    obtain ⟨n, rfl⟩ := Nat.exists_eq_succ_of_ne_zero (n := n) (by omega)
    rw [hv.unique]
    obtain ⟨hlow, hhigh⟩ := int_bounds w
    by_cases hw : int w = -2 ^ 31
    · exact outcome_min hd hw hi h37 hdbyte
    · apply Outcome.conversion hi h37 hdbyte _ (safe_signed hd w hw)
        fun u hu => ih hplace' (fun q hq => (hu q hq).trans (hmem q hq)) n (by omega)
      intro t ht
      rw [conversion_signed hd, ← ht]
      exact itoa_number (by omega) hhigh hstr hne args
  | @unsigned rest w args out v hv h ih =>
    obtain ⟨h37, hdbyte, hi, hplace'⟩ := hplace.conversion hmem
    rw [List.length_cons, List.length_cons] at hn
    obtain ⟨n, rfl⟩ := Nat.exists_eq_succ_of_ne_zero (n := n) (by omega)
    rw [hv.unique (by decide) (by decide)]
    apply Outcome.conversion hi h37 hdbyte _ (safe_conversion (by decide) (Or.inl rfl) w)
      fun u hu => ih hplace' (fun q hq => (hu q hq).trans (hmem q hq)) n (by omega)
    intro t ht
    rw [conversion_unsigned, ← ht]
    exact uitoa_number (Nat.mod_lt _ (by decide)) (Or.inl rfl) hstr hne args
  | @hex d rest w args out v hd hv h ih =>
    obtain ⟨h37, hdbyte, hi, hplace'⟩ := hplace.conversion hmem
    rw [List.length_cons, List.length_cons] at hn
    obtain ⟨n, rfl⟩ := Nat.exists_eq_succ_of_ne_zero (n := n) (by omega)
    rw [hv.unique (by decide) (by decide)]
    have hnot : d ≠ 105 ∧ d ≠ 100 := by rcases hd with rfl | rfl <;> decide
    apply Outcome.conversion hi h37 hdbyte _ (safe_conversion hnot (Or.inr (by tauto)) w)
      fun u hu => ih hplace' (fun q hq => (hu q hq).trans (hmem q hq)) n (by omega)
    intro t ht
    rw [conversion_hex hd, ← ht]
    exact uitoa_number (Nat.mod_lt _ (by decide)) (Or.inr rfl) hstr hne args
  | @string rest w args out v hv how h ih =>
    obtain ⟨h37, hdbyte, hi, hplace'⟩ := hplace.conversion hmem
    rw [List.length_cons, List.length_cons] at hn
    obtain ⟨n, rfl⟩ := Nat.exists_eq_succ_of_ne_zero (n := n) (by omega)
    apply Outcome.conversion hi h37 hdbyte _ (safe_conversion (by decide) (by simp) w)
      fun u hu => ih hplace' (fun q hq => (hu q hq).trans (hmem q hq)) n (by omega)
    intro t ht
    have hstring : CString t.chars.mem w v := by
      have hplace : Place mem str w v.length v 0 := ⟨Nat.zero_add _, hv, how⟩
      rw [ht]
      exact hplace.string hmem
    obtain ⟨u, hu, hp, hchars⟩ := putString_returns format L hstring
    refine ⟨u, ?_, hp, fun q _ => by rw [hchars, ht]⟩
    rw [conversion_string, Returns.bind_iff hu]
    exact pure_ok.mpr ⟨rfl, rfl⟩
  | @percent rest args out h ih =>
    obtain ⟨h37, hdbyte, hi, hplace'⟩ := hplace.conversion hmem
    rw [List.length_cons, List.length_cons] at hn
    obtain ⟨n, rfl⟩ := Nat.exists_eq_succ_of_ne_zero (n := n) (by omega)
    apply Outcome.conversion (o := [37]) hi h37 hdbyte _ (safe_other (by decide) args)
      fun u hu => ih hplace' (fun q hq => (hu q hq).trans (hmem q hq)) n (by omega)
    intro t ht
    obtain ⟨u, hu, hp, hchars⟩ := putchar_returns format L 37 t
    refine ⟨u, ?_, hp, fun q _ => by rw [hchars, ht]⟩
    rw [conversion_percent, Returns.bind_iff hu]
    exact pure_ok.mpr ⟨rfl, rfl⟩
  | @unknown d rest args out hd h ih =>
    obtain ⟨h37, hdbyte, hi, hplace'⟩ := hplace.conversion hmem
    rw [List.length_cons, List.length_cons] at hn
    obtain ⟨n, rfl⟩ := Nat.exists_eq_succ_of_ne_zero (n := n) (by omega)
    have hnot : d ≠ 105 ∧ d ≠ 100 ∧ d ≠ 117 ∧ d ≠ 120 ∧ d ≠ 88 ∧ d ≠ 115 := by
      simp only [Known, not_or] at hd
      tauto
    apply Outcome.conversion (o := []) hi h37 hdbyte _ (safe_other hnot args)
      fun u hu => ih hplace' (fun q hq => (hu q hq).trans (hmem q hq)) n (by omega)
    intro t ht
    refine ⟨t, ?_, Puts.refl format L t, fun q _ => by rw [ht]⟩
    rw [conversion_unknown hd]
    exact pure_ok.mpr ⟨rfl, rfl⟩

end Run

/-! ## `vkprintf` -/

/-- `vkprintf` returns, has passed the expansion to `vga_putchar`, and has read no byte of the format behind its terminator. -/
def Expanded (strs : Nat → Nat) (depth format : Nat) (args : List Nat) (mem : Nat → UInt8) (screen : Vga.Screen)
    (bs out : List UInt8) : Prop :=
  ∃ t, Returns (vkprintf strs depth format args) ⟨⟨mem, []⟩, [], [], screen⟩ () t ∧ t.put = out ∧
    Vga.putchars 3 out screen = some t.screen ∧ ∀ x ∈ t.looked, x.1 = format → x.2 ≤ bs.length

section Formats

variable {strs : Nat → Nat} {depth format : Nat} {args : List Nat} {mem : Nat → UInt8} {bs out : List UInt8}

theorem expanded_iff_safe (h : Expands mem (Local (strs (depth + 1))) bs args out) (hbs : CString mem format bs)
    (hapart : ∀ j ≤ bs.length, ¬ Local (strs (depth + 1)) (format + j)) (hstr : strs (depth + 1) + 24 ≤ 2 ^ 32)
    (screen : Vga.Screen) : Expanded strs (depth + 2) format args mem screen bs out ↔ Safe bs args := by
  have hne : strs (depth + 1) ≠ format := by
    rintro rfl
    exact hapart 0 (Nat.zero_le _) ⟨Nat.le_refl _, by omega⟩
  have hfits := hbs.fits
  have houtcome : Outcome (formatRound (fun s => vkprintf strs (depth + 1) s []) (strs (depth + 1)) format) format bs.length
      bs args out 0 rounds ⟨⟨mem, []⟩, [], [], screen⟩ :=
    outcome h hstr hne ⟨Nat.zero_add _, hbs, hapart⟩ (fun _ _ => rfl) (by rw [rounds]; omega)
  constructor
  · rintro ⟨t, ht, -, -, hlooked⟩
    by_contra hs
    exact absurd (hlooked _ (houtcome.behind hs t ht) rfl) (Nat.not_succ_le_self _)
  · intro hs
    obtain ⟨t, ht, hput, hscreen, hlooked⟩ := houtcome.safe hs
    exact ⟨t, ht, hput, hscreen, fun x hx => (hlooked x hx).resolve_left List.not_mem_nil⟩

/-- **When a format is expanded**: exactly when no percent sign is left over at its end and no `%d` or `%i` is given
`INT_MIN`. -/
theorem vkprintf_expands_iff (h : Expands mem (Local (strs (depth + 1))) bs args out) (hbs : CString mem format bs)
    (hapart : ∀ j ≤ bs.length, ¬ Local (strs (depth + 1)) (format + j)) (hstr : strs (depth + 1) + 24 ≤ 2 ^ 32)
    (screen : Vga.Screen) :
    Expanded strs (depth + 2) format args mem screen bs out ↔ paired bs = true ∧ aboveMin bs args = true :=
  expanded_iff_safe h hbs hapart hstr screen

end Formats

/-- Memory that holds `%u` at 100, and `%` at 200. -/
def formats (q : Nat) : UInt8 := if q = 100 ∨ q = 200 then 37 else if q = 101 then 117 else 0

/-- `%u` of 7. -/
theorem seven_expanded :
    Expanded (fun _ => 1000) 2 100 [7] formats ⟨0, 0, fun _ => 0, [], []⟩ [37, 117] [55] ↔
      paired [37, 117] = true ∧ aboveMin [37, 117] [7] = true := by
  refine @vkprintf_expands_iff (fun _ => 1000) 0 100 [7] formats [37, 117] [55] ?_ ?_ ?_ (by decide) _
  · exact Expands.unsigned (v := [55]) ⟨by decide, by decide⟩ (Expands.done [])
  · exact ⟨by decide, by decide, by decide, by decide⟩
  · intro j hj h
    exact absurd h.1 (by simp at hj; omega)

/-- A percent sign alone: what stands behind its terminator is read. -/
theorem percent_not_expanded :
    Expands formats (Local 1000) [37] [] [37] ∧ CString formats 200 [37] ∧ (∀ j ≤ 1, ¬ Local 1000 (200 + j)) ∧
      ¬ Expanded (fun _ => 1000) 2 200 [] formats ⟨0, 0, fun _ => 0, [], []⟩ [37] [37] := by
  have h : Expands formats (Local 1000) [37] [] [37] := Expands.last []
  have hbs : CString formats 200 [37] := ⟨by decide, by decide, by decide, by decide⟩
  have hapart : ∀ j ≤ 1, ¬ Local 1000 (200 + j) := fun j hj h => absurd h.1 (by omega)
  refine ⟨h, hbs, hapart, ?_⟩
  rw [@expanded_iff_safe (fun _ => 1000) 0 200 [] formats [37] [37] h hbs hapart (by decide)]
  exact fun hs => absurd hs.1 (by decide)

end Raampjes.Print
