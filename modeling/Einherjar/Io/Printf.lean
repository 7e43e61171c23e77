import Einherjar.Io.Itoa
import Einherjar.Lib.ByteMemory
import Einherjar.Lib.Traced

/-! `printf`: the loop over the format in memory, and the text that it displays. -/
namespace Einherjar.Io
open Einherjar.Lib

/-- What `printf` reads, and the characters that it displays. -/
inductive PrintfEvent where
  | format (address : BitVec 32)
  | argument (address : BitVec 32)
  /-- A byte of a string in memory. -/
  | string (address : BitVec 32)
  /-- A byte of `buffer`. -/
  | buffer (offset : ℕ)
  | display (character : BitVec 8)

/-- Reading displays nothing. -/
def PrintfEvent.displays : PrintfEvent → Option (BitVec 8)
  | display c => some c
  | _ => none

/-- `while (*ptr_str) vga_display_character(*ptr_str++);` from the offset `k` of a string on. -/
def stringLoop (str : ℕ → BitVec 8) (read : ℕ → PrintfEvent) : ℕ → ℕ → Traced PrintfEvent Unit
  | 0, _ => .quiet .outOfFuel
  | fuel + 1, k =>
    .after (read k) <|
      if str k = 0 then .quiet (.done ())
      else .after (.display (str k)) (stringLoop str read fuel (k + 1))

/-- The bytes in memory from an address on. -/
def bytesAt (mem : Memory 32) (a : BitVec 32) (k : ℕ) : BitVec 8 := mem (a + BitVec.ofNat 32 k)

/-- The loop of `printf`. The arguments lie from `arg` on, and `(null)` at `nullText`. -/
def printf (mem : Memory 32) (nullText : BitVec 32) :
    ℕ → BitVec 32 → BitVec 32 → (ℕ → BitVec 8) → Traced PrintfEvent Unit
  | 0, _, _, _ => .quiet .outOfFuel
  | fuel + 1, format, arg, buffer =>
    .after (.format format) <|
      let c := mem format
      let format := format + 1
      if c = 0 then .quiet (.done ())
      else if c ≠ byteOf '%' then .after (.display c) (printf mem nullText fuel format arg buffer)
      else
        .after (.format format) <|
          let c := mem format
          let format := format + 1
          if c = byteOf '%' then
            .after (.display (byteOf '%')) (printf mem nullText fuel format arg buffer)
          else
            .after (.argument arg) <|
              let word := mem.load32 arg
              let arg := arg + 4
              if c = byteOf 'i' ∨ c = byteOf 'd' ∨ c = byteOf 'x' then
                let base := if c = byteOf 'i' ∨ c = byteOf 'd' then 10 else 16
                (Traced.quiet (itoaBuffer fuel word buffer base)).bind fun buffer =>
                  (stringLoop buffer .buffer fuel 0).bind fun _ =>
                    printf mem nullText fuel format arg buffer
              else if c = byteOf 's' then
                let ptrStr := if word = 0 then nullText else word
                (stringLoop (bytesAt mem ptrStr) (fun k => .string (ptrStr + BitVec.ofNat 32 k))
                    fuel 0).bind fun _ =>
                  printf mem nullText fuel format arg buffer
              else
                .after (.display (word.setWidth 8)) (printf mem nullText fuel format arg buffer)

/-! What a format means. -/

/-- A part of a format. A conversion that is none of the others displays its argument as a
character. -/
inductive Directive where
  | literal (c : BitVec 8)
  | percent
  | decimal (letter : BitVec 8)
  | hexadecimal
  | string
  | character (letter : BitVec 8)

/-- What is displayed for `NULL`. -/
def nullString : List (BitVec 8) := "(null)".toList.map byteOf

namespace Directive

/-- The directive as it stands in the format. -/
def bytes : Directive → List (BitVec 8)
  | literal c => [c]
  | percent => [byteOf '%', byteOf '%']
  | decimal letter => [byteOf '%', letter]
  | hexadecimal => [byteOf '%', byteOf 'x']
  | string => [byteOf '%', byteOf 's']
  | character letter => [byteOf '%', letter]

/-- How many arguments the directive takes. -/
def arity : Directive → ℕ
  | literal _ | percent => 0
  | decimal _ | hexadecimal | string | character _ => 1

/-- The conversion that a letter behind `%` stands for. -/
def ofLetter (c : BitVec 8) : Directive :=
  if c = byteOf '%' then percent
  else if c = byteOf 'i' ∨ c = byteOf 'd' then decimal c
  else if c = byteOf 'x' then hexadecimal
  else if c = byteOf 's' then string
  else character c

/-- The text of a directive with its argument. A string ends at its first NUL. -/
def Renders (mem : Memory 32) (word : BitVec 32) : Directive → List (BitVec 8) → Prop
  | literal c, text => text = [c]
  | percent, text => text = [byteOf '%']
  | decimal _, text => text = (itoa word 10).map byteOf
  | hexadecimal, text => text = (itoa word 16).map byteOf
  | string, text =>
    if word = 0 then text = nullString else (∀ c ∈ text, c ≠ 0) ∧ mem.Holds word (text ++ [0])
  | character _, text => text = [word.setWidth 8]

end Directive

/-- The directives of a format, and whether it ends behind a single `%`. -/
def parseFormat : List (BitVec 8) → List Directive × Bool
  | [] => ([], false)
  | c :: rest =>
    if c ≠ byteOf '%' then
      let parsed := parseFormat rest
      (.literal c :: parsed.1, parsed.2)
    else
      match rest with
      | [] => ([], true)
      | letter :: rest =>
        let parsed := parseFormat rest
        (.ofLetter letter :: parsed.1, parsed.2)

/-- The text of directives whose arguments lie from `arg` on. -/
inductive RendersAll (mem : Memory 32) : BitVec 32 → List Directive → List (BitVec 8) → Prop
  | nil (arg : BitVec 32) : RendersAll mem arg [] []
  | cons {arg : BitVec 32} {d : Directive} {ds : List Directive} {text rest : List (BitVec 8)}
      (head : d.Renders mem (mem.load32 arg) text)
      (tail : RendersAll mem (arg + BitVec.ofNat 32 (4 * d.arity)) ds rest) :
      RendersAll mem arg (d :: ds) (text ++ rest)

/-- How many arguments the directives take. -/
def arguments (ds : List Directive) : ℕ := (ds.map Directive.arity).sum

/-- The characters that are displayed. -/
def displayed (x : Traced PrintfEvent Unit) : List (BitVec 8) :=
  x.events.filterMap PrintfEvent.displays

/-- The computation returns, displays the text, and its events satisfy `P`. -/
structure Prints (P : PrintfEvent → Prop) (x : Traced PrintfEvent Unit)
    (text : List (BitVec 8)) : Prop where
  returns : x.outcome = .done ()
  text : displayed x = text
  events : x.All P

namespace Prints

variable {P : PrintfEvent → Prop} {x y : Traced PrintfEvent Unit} {s t : List (BitVec 8)}

theorem done : Prints P (.quiet (.done ())) [] := ⟨rfl, rfl, Traced.all_quiet _⟩

theorem after_display {c : BitVec 8} (h : Prints P x t) (hc : P (.display c)) :
    Prints P (.after (.display c) x) (c :: t) :=
  ⟨h.returns, congrArg (c :: ·) h.text, Traced.all_after.mpr ⟨hc, h.events⟩⟩

theorem after_read {e : PrintfEvent} (h : Prints P x t) (he : P e)
    (hread : e.displays = none) : Prints P (.after e x) t := by
  refine ⟨h.returns, ?_, Traced.all_after.mpr ⟨he, h.events⟩⟩
  rw [displayed, Traced.after, List.filterMap_cons_none hread]
  exact h.text

theorem bind (hx : Prints P x s) (hy : Prints P y t) : Prints P (x.bind fun _ => y) (s ++ t) := by
  have hevents : (x.bind fun _ => y).events = x.events ++ y.events := by
    unfold Traced.bind
    rw [hx.returns]
  constructor
  case returns => rw [Traced.outcome_bind, hx.returns, Outcome.done_bind, hy.returns]
  case text =>
    rw [displayed, hevents, List.filterMap_append]
    exact congrArg₂ (· ++ ·) hx.text hy.text
  case events => exact Traced.all_bind.mpr ⟨hx.events, fun _ _ => hy.events⟩

end Prints

section strings

variable {P : PrintfEvent → Prop} {str : ℕ → BitVec 8} {read : ℕ → PrintfEvent}
  {text : List (BitVec 8)} {k fuel : ℕ}

/-- The loop displays a string and reads nothing behind its NUL. -/
theorem stringLoop_prints (hstr : Begins (fun i => str (k + i)) (text ++ [0]))
    (hnonNul : ∀ c ∈ text, c ≠ 0) (hread : ∀ i, (read i).displays = none)
    (hP : ∀ i ≤ text.length, P (read (k + i))) (hdisplay : ∀ c, P (.display c))
    (hfuel : text.length < fuel) : Prints P (stringLoop str read fuel k) text := by
  induction text generalizing k fuel with
  | nil =>
    obtain ⟨fuel, rfl⟩ := Nat.exists_eq_succ_of_ne_zero (Nat.ne_zero_of_lt hfuel)
    have hnul : str k = 0 := hstr 0 0 rfl
    rw [stringLoop, if_pos hnul]
    exact Prints.done.after_read (hP 0 (Nat.zero_le _)) (hread k)
  | cons c text ih =>
    obtain ⟨fuel, rfl⟩ := Nat.exists_eq_succ_of_ne_zero (Nat.ne_zero_of_lt hfuel)
    obtain ⟨hc, hrest⟩ := List.forall_mem_cons.mp hnonNul
    have hhead : str k = c := hstr 0 c rfl
    have htail : Begins (fun i => str (k + 1 + i)) (text ++ [0]) := by
      intro i b hb
      have hnext : str (k + (i + 1)) = b := hstr (i + 1) b hb
      rwa [Nat.add_comm i 1, ← Nat.add_assoc] at hnext
    rw [stringLoop, if_neg (by rw [hhead]; exact hc), hhead]
    have htext : Prints P (stringLoop str read fuel (k + 1)) text := by
      refine ih htail hrest (fun i hi => ?_) (Nat.lt_of_succ_lt_succ hfuel)
      have hnext : P (read (k + (i + 1))) := hP (i + 1) (Nat.succ_le_succ hi)
      rwa [Nat.add_comm i 1, ← Nat.add_assoc] at hnext
    exact (htext.after_display (hdisplay c)).after_read (hP 0 (Nat.zero_le _)) (hread k)

theorem begins_of_holds {mem : Memory 32} {a : BitVec 32} {bytes : List (BitVec 8)}
    (h : mem.Holds a bytes) : Begins (bytesAt mem a) bytes := by
  intro i b hb
  obtain ⟨hi, rfl⟩ := List.getElem?_eq_some_iff.mp hb
  exact Memory.holds_iff.mp h i hi

/-- `itoa` in the buffer, and the loop over what it has left there. -/
theorem itoa_prints {b : ℕ} (hb : b = 10 ∨ b = 16) (word : BitVec 32) (buffer : ℕ → BitVec 8)
    (hP : ∀ i < 20, P (.buffer i)) (hdisplay : ∀ c, P (.display c)) :
    ∃ n buffer', ∀ fuel ≥ n, itoaBuffer fuel word buffer (BitVec.ofNat 32 b) = .done buffer' ∧
      Prints P (stringLoop buffer' .buffer fuel 0)
        ((itoa word (BitVec.ofNat 32 b)).map byteOf) := by
  obtain ⟨n, buffer', hdone, hstr, hlen, -⟩ := itoaGives_itoa hb word buffer
  generalize itoa word (BitVec.ofNat 32 b) = text at hstr hlen ⊢
  have hbegins : Begins buffer' (text.map byteOf ++ [0]) :=
    hstr.begins.concat (by rw [List.length_map]; exact hstr.nul)
  refine ⟨max n 20, buffer', fun fuel hfuel => ⟨?_, ?_⟩⟩
  · exact Outcome.eq_done_of_le (itoaBuffer_mono word buffer _ (by omega)) hdone
  · apply stringLoop_prints
    case hstr => simpa only [Nat.zero_add] using hbegins
    case hnonNul =>
      intro c hc
      obtain ⟨d, hd, rfl⟩ := List.mem_map.mp hc
      exact hstr.nonNul d hd
    case hread => exact fun _ => rfl
    case hP =>
      intro i hi
      rw [List.length_map] at hi
      exact hP _ (by omega)
    case hdisplay => exact hdisplay
    case hfuel =>
      rw [List.length_map]
      omega

end strings

/-- The events that a call may have whose format has `len` bytes and takes `n` arguments. -/
structure Permits (P : PrintfEvent → Prop) (mem : Memory 32) (nullText format arg : BitVec 32)
    (len n : ℕ) : Prop where
  format : ∀ i ≤ len, P (.format (format + BitVec.ofNat 32 i))
  argument : ∀ k < n, P (.argument (arg + BitVec.ofNat 32 (4 * k)))
  string : ∀ k < n, ∀ ptrStr text, (ptrStr = mem.load32 (arg + BitVec.ofNat 32 (4 * k)) ∨
      ptrStr = nullText) → (∀ c ∈ text, c ≠ 0) → mem.Holds ptrStr (text ++ [0]) →
    ∀ i ≤ text.length, P (.string (ptrStr + BitVec.ofNat 32 i))
  buffer : ∀ i < 20, P (.buffer i)
  display : ∀ c, P (.display c)

theorem add_ofNat_add (a : BitVec 32) (m n : ℕ) :
    a + BitVec.ofNat 32 m + BitVec.ofNat 32 n = a + BitVec.ofNat 32 (m + n) := by
  rw [BitVec.add_assoc, ← BitVec.ofNat_add]

theorem Permits.advance {P : PrintfEvent → Prop} {mem : Memory 32}
    {nullText format arg : BitVec 32} {len n : ℕ} (i k : ℕ)
    (h : Permits P mem nullText format arg (i + len) (k + n)) :
    Permits P mem nullText (format + BitVec.ofNat 32 i) (arg + BitVec.ofNat 32 (4 * k)) len n := by
  constructor
  case format =>
    intro j hj
    rw [add_ofNat_add]
    exact h.format _ (by omega)
  case argument =>
    intro j hj
    rw [add_ofNat_add, ← Nat.mul_add]
    exact h.argument _ (by omega)
  case string =>
    intro j hj
    rw [add_ofNat_add, ← Nat.mul_add]
    exact h.string _ (by omega)
  case buffer => exact h.buffer
  case display => exact h.display

section directives

variable {P : PrintfEvent → Prop} {mem : Memory 32} {nullText format arg : BitVec 32}
  {text : List (BitVec 8)} {len n : ℕ}

/-- Behind a conversion the loop reads an argument. -/
theorem printf_conversion {letter : BitVec 8} (hpercent : mem format = byteOf '%')
    (hletter : mem (format + 1) = letter) (h37 : letter ≠ byteOf '%') (fuel : ℕ)
    (buffer : ℕ → BitVec 8) :
    printf mem nullText (fuel + 1) format arg buffer =
      .after (.format format) (.after (.format (format + 1)) (.after (.argument arg) (
        let word := mem.load32 arg
        if letter = byteOf 'i' ∨ letter = byteOf 'd' ∨ letter = byteOf 'x' then
          let base := if letter = byteOf 'i' ∨ letter = byteOf 'd' then 10 else 16
          (Traced.quiet (itoaBuffer fuel word buffer base)).bind fun buffer =>
            (stringLoop buffer .buffer fuel 0).bind fun _ =>
              printf mem nullText fuel (format + 1 + 1) (arg + 4) buffer
        else if letter = byteOf 's' then
          let ptrStr := if word = 0 then nullText else word
          (stringLoop (bytesAt mem ptrStr) (fun k => .string (ptrStr + BitVec.ofNat 32 k))
              fuel 0).bind fun _ =>
            printf mem nullText fuel (format + 1 + 1) (arg + 4) buffer
        else
          .after (.display (word.setWidth 8))
            (printf mem nullText fuel (format + 1 + 1) (arg + 4) buffer)))) := by
  have hne : byteOf '%' ≠ 0 := by decide
  rw [printf]
  simp only [hpercent, hletter, h37, hne, if_false, ne_eq, not_true_eq_false]

/-- The three reads of a conversion. -/
theorem Prints.conversion {x : Traced PrintfEvent Unit} (h : Prints P x text)
    (hP : Permits P mem nullText format arg (2 + len) (1 + n)) :
    Prints P (.after (.format format) (.after (.format (format + 1)) (.after (.argument arg) x)))
      text := by
  have hread0 : P (.format format) := by
    simpa using hP.format 0 (Nat.zero_le _)
  have hread1 : P (.format (format + 1)) := hP.format 1 (by omega)
  have hargument : P (.argument arg) := by
    simpa using hP.argument 0 (by omega)
  exact ((h.after_read hargument rfl).after_read hread1 rfl).after_read hread0 rfl

/-- The string of an argument, or `(null)`. -/
theorem argument_prints (fuel : ℕ)
    (hrender : Directive.Renders mem (mem.load32 arg) .string text)
    (hnull : mem.Holds nullText (nullString ++ [0]))
    (hP : Permits P mem nullText format arg (2 + len) (1 + n)) (hfuel : text.length < fuel) :
    let ptrStr := if mem.load32 arg = 0 then nullText else mem.load32 arg
    Prints P (stringLoop (bytesAt mem ptrStr) (fun k => .string (ptrStr + BitVec.ofNat 32 k))
      fuel 0) text := by
  intro ptrStr
  have hloop : ∀ p, (∀ c ∈ text, c ≠ 0) → mem.Holds p (text ++ [0]) →
      (p = mem.load32 arg ∨ p = nullText) →
      Prints P (stringLoop (bytesAt mem p) (fun k => .string (p + BitVec.ofNat 32 k)) fuel 0)
        text := by
    intro p hnonNul hholds hp
    apply stringLoop_prints _ hnonNul (fun _ => rfl) _ hP.display hfuel
    · simpa only [Nat.zero_add] using begins_of_holds hholds
    · intro i hi
      rw [Nat.zero_add]
      refine hP.string 0 (by omega) p text ?_ hnonNul hholds i hi
      simpa using hp
  rw [Directive.Renders] at hrender
  split_ifs at hrender with hzero
  · rw [show ptrStr = nullText from if_pos hzero]
    refine hloop _ ?_ ?_ (.inr rfl)
    · rw [hrender]
      decide
    · rw [hrender]
      exact hnull
  · rw [show ptrStr = mem.load32 arg from if_neg hzero]
    exact hloop _ hrender.1 hrender.2 (.inl rfl)

theorem ofLetter_length (letter : BitVec 8) : (Directive.ofLetter letter).bytes.length = 2 := by
  unfold Directive.ofLetter
  split_ifs <;> rfl

/-- The computation displays the text of a directive, and goes on behind it. -/
def PrintsFirst (P : PrintfEvent → Prop) (mem : Memory 32) (nullText format arg : BitVec 32)
    (buffer : ℕ → BitVec 8) (d : Directive) (text : List (BitVec 8)) : Prop :=
  ∃ m buffer', ∀ fuel ≥ m, ∃ x, Prints P x text ∧
    printf mem nullText (fuel + 1) format arg buffer = x.bind fun _ =>
      printf mem nullText fuel (format + BitVec.ofNat 32 d.bytes.length)
        (arg + BitVec.ofNat 32 (4 * d.arity)) buffer'

theorem literal_first {c : BitVec 8} (hmem : mem format = c) (hc : c ≠ 0) (h37 : c ≠ byteOf '%')
    (hP : Permits P mem nullText format arg (1 + len) n) (buffer : ℕ → BitVec 8) :
    PrintsFirst P mem nullText format arg buffer (.literal c) [c] := by
  have hread : P (.format format) := by
    simpa using hP.format 0 (Nat.zero_le _)
  have hx := (Prints.done.after_display (hP.display c)).after_read hread rfl
  refine ⟨0, buffer, fun fuel _ => ⟨_, hx, ?_⟩⟩
  rw [printf]
  simp only [hmem, hc, h37, if_false, if_true, ne_eq, not_false_eq_true, Traced.after_bind,
    Traced.quiet_done_bind, Directive.arity, Nat.mul_zero, BitVec.add_zero]
  rfl

/-- The address behind a conversion. -/
theorem behind_conversion {d : Directive} (h : d.bytes.length = 2) (format : BitVec 32) :
    format + BitVec.ofNat 32 d.bytes.length = format + 1 + 1 := by
  rw [h]
  exact (add_ofNat_add format 1 1).symm

theorem percent_first (hpercent : mem format = byteOf '%') (hletter : mem (format + 1) = byteOf '%')
    (hP : Permits P mem nullText format arg (2 + len) n) (buffer : ℕ → BitVec 8) :
    PrintsFirst P mem nullText format arg buffer .percent [byteOf '%'] := by
  have hread0 : P (.format format) := by
    simpa using hP.format 0 (Nat.zero_le _)
  have hread1 : P (.format (format + 1)) := hP.format 1 (by omega)
  have hne : byteOf '%' ≠ 0 := by decide
  have hx := ((Prints.done.after_display (hP.display (byteOf '%'))).after_read hread1
    rfl).after_read hread0 rfl
  refine ⟨0, buffer, fun fuel _ => ⟨_, hx, ?_⟩⟩
  rw [printf, behind_conversion rfl]
  simp only [hpercent, hletter, hne, if_false, if_true, ne_eq, not_true_eq_false,
    Traced.after_bind, Traced.quiet_done_bind, Directive.arity, Nat.mul_zero, BitVec.add_zero]

/-- `%i`, `%d` and `%x` in their bases. -/
theorem integer_first {letter : BitVec 8} {b : ℕ} {d : Directive}
    (hpercent : mem format = byteOf '%') (hletter : mem (format + 1) = letter)
    (h37 : letter ≠ byteOf '%')
    (hinteger : letter = byteOf 'i' ∨ letter = byteOf 'd' ∨ letter = byteOf 'x')
    (hb : b = 10 ∨ b = 16)
    (hbase : (if letter = byteOf 'i' ∨ letter = byteOf 'd' then 10 else 16) = BitVec.ofNat 32 b)
    (hlength : d.bytes.length = 2) (harity : d.arity = 1)
    (hP : Permits P mem nullText format arg (2 + len) (1 + n)) (buffer : ℕ → BitVec 8) :
    PrintsFirst P mem nullText format arg buffer d
      ((itoa (mem.load32 arg) (BitVec.ofNat 32 b)).map byteOf) := by
  obtain ⟨m, buffer', hitoa⟩ := itoa_prints hb (mem.load32 arg) buffer hP.buffer hP.display
  refine ⟨m, buffer', fun fuel hfuel => ?_⟩
  obtain ⟨hdone, htext⟩ := hitoa fuel hfuel
  refine ⟨_, htext.conversion hP, ?_⟩
  rw [printf_conversion hpercent hletter h37, behind_conversion hlength, harity]
  simp only [if_pos hinteger, hbase, hdone, Traced.after_bind, Traced.quiet_done_bind]
  rfl

/-- A directive with a letter. -/
theorem conversion_first {letter : BitVec 8} (hpercent : mem format = byteOf '%')
    (hletter : mem (format + 1) = letter)
    (hrender : (Directive.ofLetter letter).Renders mem (mem.load32 arg) text)
    (hnull : mem.Holds nullText (nullString ++ [0]))
    (hP : Permits P mem nullText format arg (2 + len) ((Directive.ofLetter letter).arity + n))
    (buffer : ℕ → BitVec 8) :
    PrintsFirst P mem nullText format arg buffer (.ofLetter letter) text := by
  by_cases h37 : letter = byteOf '%'
  · rw [Directive.ofLetter, if_pos h37] at hrender hP ⊢
    obtain rfl : text = [byteOf '%'] := hrender
    exact percent_first hpercent (hletter.trans h37) hP buffer
  rw [Directive.ofLetter, if_neg h37] at hrender hP ⊢
  by_cases hdecimal : letter = byteOf 'i' ∨ letter = byteOf 'd'
  · rw [if_pos hdecimal] at hrender hP ⊢
    obtain rfl : text = (itoa (mem.load32 arg) 10).map byteOf := hrender
    exact integer_first hpercent hletter h37 (hdecimal.imp_right .inl) (.inl rfl)
      (if_pos hdecimal) rfl rfl hP buffer
  rw [if_neg hdecimal] at hrender hP ⊢
  by_cases hx : letter = byteOf 'x'
  · rw [if_pos hx] at hrender hP ⊢
    obtain rfl : text = (itoa (mem.load32 arg) 16).map byteOf := hrender
    exact integer_first hpercent hletter h37 (.inr (.inr hx)) (.inr rfl) (if_neg hdecimal) rfl rfl
      hP buffer
  have hinteger : ¬ (letter = byteOf 'i' ∨ letter = byteOf 'd' ∨ letter = byteOf 'x') := by
    rintro (h | h | h)
    · exact hdecimal (.inl h)
    · exact hdecimal (.inr h)
    · exact hx h
  rw [if_neg hx] at hrender hP ⊢
  by_cases hs : letter = byteOf 's'
  · rw [if_pos hs] at hrender hP ⊢
    refine ⟨text.length + 1, buffer, fun fuel hfuel => ?_⟩
    have htext := (argument_prints fuel hrender hnull hP (by omega)).conversion hP
    refine ⟨_, htext, ?_⟩
    rw [printf_conversion hpercent hletter h37, behind_conversion rfl]
    simp only [if_neg hinteger, if_pos hs, Traced.after_bind]
    rfl
  · rw [if_neg hs] at hrender hP ⊢
    obtain rfl : text = [(mem.load32 arg).setWidth 8] := hrender
    have hdisplay := hP.display ((mem.load32 arg).setWidth 8)
    have htext := (Prints.done.after_display hdisplay).conversion hP
    refine ⟨0, buffer, fun fuel _ => ⟨_, htext, ?_⟩⟩
    rw [printf_conversion hpercent hletter h37, behind_conversion rfl]
    simp only [if_neg hinteger, if_neg hs, Traced.after_bind, Traced.quiet_done_bind]
    rfl

/-- A directive as it can stand in a format: a literal is neither NUL nor `%`. -/
def Directive.Valid (d : Directive) : Prop :=
  (∃ c, d = .literal c ∧ c ≠ 0 ∧ c ≠ byteOf '%') ∨ ∃ letter, d = .ofLetter letter

theorem ofLetter_bytes (letter : BitVec 8) :
    (Directive.ofLetter letter).bytes = [byteOf '%', letter] := by
  unfold Directive.ofLetter
  split_ifs with h37 hdecimal hx hs
  · rw [h37]
    rfl
  · rfl
  · rw [hx]
    rfl
  · rw [hs]
    rfl
  · rfl

/-- The first directive of a format. -/
theorem directive_first {d : Directive} (hd : d.Valid) (hholds : mem.Holds format d.bytes)
    (hrender : d.Renders mem (mem.load32 arg) text)
    (hnull : mem.Holds nullText (nullString ++ [0]))
    (hP : Permits P mem nullText format arg (d.bytes.length + len) (d.arity + n))
    (buffer : ℕ → BitVec 8) : PrintsFirst P mem nullText format arg buffer d text := by
  rcases hd with ⟨c, rfl, hc, h37⟩ | ⟨letter, rfl⟩
  · obtain rfl : text = [c] := hrender
    exact literal_first hholds.1 hc h37 hP buffer
  · rw [ofLetter_bytes] at hholds
    rw [ofLetter_length] at hP
    exact conversion_first hholds.1 hholds.2.1 hrender hnull hP buffer

/-- Directive after directive: their texts are displayed, and the loop goes on behind them. -/
theorem directives_print {ds : List Directive} (hds : ∀ d ∈ ds, d.Valid)
    (hholds : mem.Holds format (ds.flatMap Directive.bytes)) (hrender : RendersAll mem arg ds text)
    (hnull : mem.Holds nullText (nullString ++ [0]))
    (hP : Permits P mem nullText format arg ((ds.flatMap Directive.bytes).length + len)
      (arguments ds))
    (buffer : ℕ → BitVec 8) :
    ∃ m buffer', ∀ fuel ≥ m, ∃ x, Prints P x text ∧
      printf mem nullText (fuel + ds.length) format arg buffer = x.bind fun _ =>
        printf mem nullText fuel
          (format + BitVec.ofNat 32 (ds.flatMap Directive.bytes).length)
          (arg + BitVec.ofNat 32 (4 * arguments ds)) buffer' := by
  induction ds generalizing format arg text buffer with
  | nil =>
    cases hrender
    refine ⟨0, buffer, fun fuel _ => ⟨_, Prints.done, ?_⟩⟩
    rw [Traced.quiet_done_bind]
    simp [arguments]
  | cons d ds ih =>
    cases hrender with
    | cons head tail =>
      obtain ⟨hd, hds⟩ := List.forall_mem_cons.mp hds
      rw [List.flatMap_cons] at hholds hP ⊢
      obtain ⟨hfirst, hrest⟩ := Memory.holds_append.mp hholds
      have harguments : arguments (d :: ds) = d.arity + arguments ds := List.sum_cons
      rw [List.length_append, Nat.add_assoc, harguments] at hP
      obtain ⟨m, buffer₁, hstep⟩ := directive_first hd hfirst head hnull hP buffer
      obtain ⟨m', buffer₂, hloop⟩ := ih hds hrest tail (hP.advance _ _) buffer₁
      refine ⟨max m m', buffer₂, fun fuel hfuel => ?_⟩
      obtain ⟨x, hx, hxeq⟩ := hstep (fuel + ds.length) (by omega)
      obtain ⟨y, hy, hyeq⟩ := hloop fuel (by omega)
      refine ⟨x.bind fun _ => y, hx.bind hy, ?_⟩
      rw [List.length_cons, ← Nat.add_assoc, hxeq, hyeq, Traced.bind_assoc, add_ofNat_add,
        add_ofNat_add, ← Nat.mul_add, List.length_append, harguments]

end directives

section formats

variable {mem : Memory 32} {nullText format arg : BitVec 32} {text out : List (BitVec 8)}

theorem parseFormat_bytes (text : List (BitVec 8)) :
    (parseFormat text).1.flatMap Directive.bytes ++
      (if (parseFormat text).2 then [byteOf '%'] else []) = text := by
  fun_induction parseFormat text with
  | case1 => rfl
  | case2 c rest hc parsed ih =>
    rw [List.flatMap_cons, List.append_assoc, ih]
    rfl
  | case3 c hc =>
    rw [not_not.mp hc]
    rfl
  | case4 c hc letter rest parsed ih =>
    rw [List.flatMap_cons, List.append_assoc, ih, ofLetter_bytes, not_not.mp hc]
    rfl

theorem parseFormat_valid (hnonNul : ∀ c ∈ text, c ≠ 0) : ∀ d ∈ (parseFormat text).1, d.Valid := by
  fun_induction parseFormat text with
  | case1 => exact fun d hd => absurd hd List.not_mem_nil
  | case2 c rest hc parsed ih =>
    obtain ⟨hzero, hrest⟩ := List.forall_mem_cons.mp hnonNul
    exact List.forall_mem_cons.mpr ⟨.inl ⟨c, rfl, hzero, hc⟩, ih hrest⟩
  | case3 c hc => exact fun d hd => absurd hd List.not_mem_nil
  | case4 c hc letter rest parsed ih =>
    have hrest := (List.forall_mem_cons.mp (List.forall_mem_cons.mp hnonNul).2).2
    exact List.forall_mem_cons.mpr ⟨.inr ⟨letter, rfl⟩, ih hrest⟩

theorem RendersAll.concat {ds : List Directive} (h : RendersAll mem arg ds out) {d : Directive}
    (hd : d.Renders mem (mem.load32 (arg + BitVec.ofNat 32 (4 * arguments ds))) text) :
    RendersAll mem arg (ds ++ [d]) (out ++ text) := by
  induction h with
  | nil arg =>
    rw [show arguments [] = 0 from rfl, Nat.mul_zero, BitVec.add_zero] at hd
    rw [List.nil_append, List.nil_append, ← List.append_nil text]
    exact .cons hd (.nil _)
  | @cons arg e ds s rest head tail ih =>
    have harguments : arguments (e :: ds) = e.arity + arguments ds := List.sum_cons
    rw [harguments, Nat.mul_add, ← add_ofNat_add] at hd
    rw [List.cons_append, List.append_assoc]
    exact .cons head (ih hd)

theorem parseFormat_literals {rest : List (BitVec 8)} (h : ∀ c ∈ text, c ≠ byteOf '%') :
    parseFormat (text ++ rest) =
      (text.map .literal ++ (parseFormat rest).1, (parseFormat rest).2) := by
  induction text with
  | nil => rfl
  | cons c text ih =>
    obtain ⟨hc, htext⟩ := List.forall_mem_cons.mp h
    rw [List.cons_append, parseFormat.eq_def]
    simp only [if_pos hc, ih htext]
    rfl

theorem RendersAll.literals {ds : List Directive} (h : RendersAll mem arg ds out)
    (text : List (BitVec 8)) : RendersAll mem arg (text.map .literal ++ ds) (text ++ out) := by
  induction text with
  | nil => exact h
  | cons c text ih =>
    have hrest : RendersAll mem (arg + BitVec.ofNat 32 (4 * (Directive.literal c).arity))
        (text.map .literal ++ ds) (text ++ out) := by
      rw [Directive.arity, Nat.mul_zero, BitVec.add_zero]
      exact ih
    exact @RendersAll.cons mem arg (.literal c) _ [c] _ rfl hrest

/-- A format with a single conversion, a `%s`. -/
theorem parseFormat_string {before behind : List (BitVec 8)} (h : ∀ c ∈ before, c ≠ byteOf '%')
    (h' : ∀ c ∈ behind, c ≠ byteOf '%') :
    parseFormat (before ++ ([byteOf '%', byteOf 's'] ++ behind)) =
      (before.map .literal ++ .string :: (behind.map .literal ++ []), false) := by
  have hbehind : parseFormat behind = (behind.map .literal ++ [], false) := by
    have := @parseFormat_literals behind [] h'
    rwa [List.append_nil] at this
  have hpercent : parseFormat ([byteOf '%', byteOf 's'] ++ behind) =
      (.string :: (parseFormat behind).1, (parseFormat behind).2) := rfl
  rw [parseFormat_literals h, hpercent, hbehind]

/-- What a call may read: its format up to the NUL, the arguments of its directives, the strings
that these point to, and the buffer. -/
def ReadsInside (mem : Memory 32) (nullText format arg : BitVec 32) (len n : ℕ) :
    PrintfEvent → Prop
  | .format a => ∃ i ≤ len, a = format + BitVec.ofNat 32 i
  | .argument a => ∃ k < n, a = arg + BitVec.ofNat 32 (4 * k)
  | .string a => ∃ k < n, ∃ ptrStr text, (ptrStr = mem.load32 (arg + BitVec.ofNat 32 (4 * k)) ∨
      ptrStr = nullText) ∧ (∀ c ∈ text, c ≠ 0) ∧ mem.Holds ptrStr (text ++ [0]) ∧
      ∃ i ≤ text.length, a = ptrStr + BitVec.ofNat 32 i
  | .buffer i => i < 20
  | .display _ => True

theorem permits_readsInside (mem : Memory 32) (nullText format arg : BitVec 32) (len n : ℕ) :
    Permits (ReadsInside mem nullText format arg len n) mem nullText format arg len n := by
  constructor
  case format => exact fun i hi => ⟨i, hi, rfl⟩
  case argument => exact fun k hk => ⟨k, hk, rfl⟩
  case string =>
    intro k hk ptrStr text hptr hnonNul hholds i hi
    exact ⟨k, hk, ptrStr, text, hptr, hnonNul, hholds, i, hi, rfl⟩
  case buffer => exact fun i hi => hi
  case display => exact fun c => trivial

/-- Behind a format that ends with a single `%` the loop goes on. -/
theorem printf_overruns (hnull : mem.Holds nullText (nullString ++ [0]))
    (hholds : mem.Holds format (text ++ [0])) (hnonNul : ∀ c ∈ text, c ≠ 0)
    (hrender : RendersAll mem arg (parseFormat text).1 out) (hopen : (parseFormat text).2 = true)
    (buffer : ℕ → BitVec 8) :
    ∃ m, ∀ fuel ≥ m, .format (format + BitVec.ofNat 32 (text.length + 1)) ∈
      (printf mem nullText fuel format arg buffer).events := by
  have hbytes := parseFormat_bytes text
  rw [hopen, if_pos rfl] at hbytes
  have hvalid := parseFormat_valid hnonNul
  generalize (parseFormat text).1 = ds at hbytes hvalid hrender
  -- the NUL is the letter of one more conversion
  have hall : (ds ++ [Directive.ofLetter 0]).flatMap Directive.bytes = text ++ [0] := by
    rw [List.flatMap_append, ← hbytes, List.append_assoc]
    rfl
  have hlength : (text ++ [(0 : BitVec 8)]).length = text.length + 1 := List.length_append
  have hpermits : Permits (fun _ => True) mem nullText format arg
      (((ds ++ [Directive.ofLetter 0]).flatMap Directive.bytes).length + 0)
      (arguments (ds ++ [Directive.ofLetter 0])) := by
    constructor <;> intros <;> trivial
  obtain ⟨m, buffer', hprint⟩ := directives_print (List.forall_mem_append.mpr
    ⟨hvalid, List.forall_mem_singleton.mpr (.inr ⟨0, rfl⟩)⟩) (by rwa [hall])
    (hrender.concat (d := Directive.ofLetter 0) rfl) hnull hpermits buffer
  refine ⟨m + 1 + (ds ++ [Directive.ofLetter 0]).length, fun fuel hfuel => ?_⟩
  obtain ⟨fuel, rfl⟩ := Nat.exists_eq_add_of_le' (show
    1 + (ds ++ [Directive.ofLetter 0]).length ≤ fuel by omega)
  obtain ⟨x, hx, heq⟩ := hprint (fuel + 1) (by omega)
  rw [← Nat.add_assoc, heq, hall, hlength]
  have hevents : ∀ y : Traced PrintfEvent Unit,
      (x.bind fun _ => y).events = x.events ++ y.events := by
    intro y
    unfold Traced.bind
    rw [hx.returns]
  rw [hevents, printf]
  exact List.mem_append_right _ List.mem_cons_self

/-- A call displays its format with the arguments in their places, returns, and reads nothing else,
exactly when the format does not end behind a single `%`. -/
theorem printf_prints_iff (mem : Memory 32) (nullText format arg : BitVec 32)
    (text out : List (BitVec 8)) (buffer : ℕ → BitVec 8)
    (hnull : mem.Holds nullText (nullString ++ [0])) (hholds : mem.Holds format (text ++ [0]))
    (hnonNul : ∀ c ∈ text, c ≠ 0) (hlen : text.length + 1 < 2 ^ 32)
    (hrender : RendersAll mem arg (parseFormat text).1 out) :
    (∃ m, ∀ fuel ≥ m,
      Prints (ReadsInside mem nullText format arg text.length (arguments (parseFormat text).1))
        (printf mem nullText fuel format arg buffer) out) ↔ (parseFormat text).2 = false := by
  constructor
  · intro h
    obtain ⟨m, hprints⟩ := h
    by_contra hopen
    obtain ⟨m', hoverruns⟩ := printf_overruns hnull hholds hnonNul hrender
      (Bool.eq_true_of_not_eq_false hopen) buffer
    obtain ⟨i, hi, he⟩ := (hprints (max m m') (by omega)).events _ (hoverruns (max m m') (by omega))
    exact Memory.offset_ne (by omega) (by omega) (by omega) he
  · intro hclosed
    have hbytes := parseFormat_bytes text
    rw [hclosed, if_neg Bool.false_ne_true, List.append_nil] at hbytes
    have hvalid := parseFormat_valid hnonNul
    generalize (parseFormat text).1 = ds at hbytes hvalid hrender ⊢
    have hpermits := permits_readsInside mem nullText format arg text.length (arguments ds)
    obtain ⟨hdirectives, hnul⟩ := Memory.holds_append.mp hholds
    have hlength : Permits (ReadsInside mem nullText format arg text.length (arguments ds)) mem
        nullText format arg ((ds.flatMap Directive.bytes).length + 0) (arguments ds) := by
      rw [hbytes]
      exact hpermits
    obtain ⟨m, buffer', hprint⟩ :=
      directives_print hvalid (by rwa [hbytes]) hrender hnull hlength buffer
    refine ⟨m + 1 + ds.length, fun fuel hfuel => ?_⟩
    obtain ⟨fuel, rfl⟩ := Nat.exists_eq_add_of_le' (show 1 + ds.length ≤ fuel by omega)
    obtain ⟨x, hx, heq⟩ := hprint (fuel + 1) (by omega)
    have hend : Prints (ReadsInside mem nullText format arg text.length (arguments ds))
        (printf mem nullText (fuel + 1) (format + BitVec.ofNat 32 text.length)
          (arg + BitVec.ofNat 32 (4 * arguments ds)) buffer') [] := by
      rw [printf, if_pos hnul.1]
      exact Prints.done.after_read (hpermits.format _ (Nat.le_refl _)) rfl
    rw [← Nat.add_assoc, heq, hbytes, ← List.append_nil out]
    exact hx.bind hend

end formats

section Example

/-- `%d %s%%` -/
def exampleFormat : List (BitVec 8) := [37, 100, 32, 37, 115, 37, 37]

/-- `(null)`, the format, and the arguments 42 and `NULL`, one behind the other. -/
def printfMemory : Memory 32 := fun a =>
  (([40, 110, 117, 108, 108, 41, 0] ++ (exampleFormat ++ [0]) ++
    [42, 0, 0, 0, 0, 0, 0, 0] : List (BitVec 8))[(a - 0x1000).toNat]?).getD 0

/-- `42 (null)%` is displayed. -/
theorem printf_prints_null : ∃ m, ∀ fuel ≥ m,
    displayed (printf printfMemory 0x1000 fuel 0x1007 0x100F fun _ => 0) =
      [52, 50, 32, 40, 110, 117, 108, 108, 41, 37] := by
  have hnull : printfMemory.Holds 0x1000 (nullString ++ [0]) := by
    refine ⟨?_, ?_, ?_, ?_, ?_, ?_, ?_, trivial⟩ <;> decide +kernel
  have hformat : printfMemory.Holds 0x1007 (exampleFormat ++ [0]) := by
    refine ⟨?_, ?_, ?_, ?_, ?_, ?_, ?_, ?_, trivial⟩ <;> decide +kernel
  have hrender : RendersAll printfMemory 0x100F (parseFormat exampleFormat).1
      ([52, 50] ++ ([32] ++ (nullString ++ ([byteOf '%'] ++ [])))) := by
    have hword : printfMemory.load32 0x100F = 42 := by decide +kernel
    have hdecimal : [52, 50] = (itoa 42 10).map byteOf := by decide +kernel
    have hparse : (parseFormat exampleFormat).1 =
        [.decimal 100, .literal 32, .string, .percent] := rfl
    rw [hparse]
    refine .cons ?_ (.cons rfl (.cons ?_ (.cons rfl (.nil _))))
    · rw [hword]
      exact hdecimal
    · rw [Directive.Renders, if_pos]
      decide +kernel
  obtain ⟨m, hprints⟩ := (printf_prints_iff printfMemory 0x1000 0x1007 0x100F exampleFormat _
    (fun _ => 0) hnull hformat (by decide) (by decide) hrender).mpr rfl
  exact ⟨m, fun fuel hfuel => (hprints fuel hfuel).text⟩

end Example

end Einherjar.Io
