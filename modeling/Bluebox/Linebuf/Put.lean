/-
  Bluebox.Linebuf.Put

  How `rb_linebuf_put`, `rb_linebuf_putbuf` and `rb_linebuf_putmsg` make a line of a message,
  with every access to `buf` at its index.

  `Linebuf.Basic` has the outcome (`finishLine`); here it is computed in the buffer, and
  `Put.run_eq` says that it is the same.  An access outside of the buffer has no result.
  `expansion` is what a format and its arguments stand for; its length fits an `int`.
-/
import Mathlib.Data.List.DropRight
import Bluebox.Linebuf.Basic

namespace Bluebox
namespace Linebuf

open Bluebox.Lib

-- ============================================================================
-- The buffer of a line
-- ============================================================================

/-- The size of `buf` in a `buf_line_t`. -/
def lineBufSize : Nat := bufDataSize + 2

/-- `buf`. -/
structure Buffer where
  bytes : Bytes
  size : bytes.length = lineBufSize

/-- `buf[i]`. -/
def Buffer.read (b : Buffer) (i : Int) : Option UInt8 :=
  if 0 ≤ i then b.bytes[i.toNat]? else none

/-- `buf[i] = c`. -/
def Buffer.write (b : Buffer) (i : Int) (c : UInt8) : Option Buffer :=
  if 0 ≤ i ∧ i < lineBufSize then some ⟨b.bytes.set i.toNat c, by rw [List.length_set]; exact b.size⟩ else none

/-- Bytes one after the other, from an index on. -/
def Buffer.copy (b : Buffer) (i : Int) : Bytes → Option Buffer
  | [] => some b
  | c :: l => (b.write i c).bind fun b => b.copy (i + 1) l

-- ============================================================================
-- What fills it
-- ============================================================================

/-- `rb_vsnprintf` to `buf + i`: it refuses a negative size, and else returns the length of all
    of the expansion, of which it writes as much as fits before the NUL. -/
def rbVsnprintf (b : Buffer) (i size : Int) (expansion : Bytes) : Option (Buffer × Int) :=
  if size < 0 then some (b, 0)
  else
    (b.copy i (expansion.take size.toNat)).bind fun b =>
      if size > 0 then
        (b.write (i + min (expansion.length : Int) (size - 1)) 0).map fun b => (b, (expansion.length : Int))
      else some (b, (expansion.length : Int))

/-- `rb_strlcpy` to `buf`: it returns the length of the source. -/
def rbStrlcpy (b : Buffer) (src : Bytes) (size : Nat) : Option (Buffer × Int) :=
  if size = 0 then some (b, (src.length : Int))
  else
    let len := if src.length ≥ size then size - 1 else src.length
    (b.copy 0 (src.take len)).bind fun b => (b.write len 0).map fun b => (b, (src.length : Int))

/-- The loop that chops off what is at the end, from `buf[len]` down. -/
def chop (b : Buffer) : Nat → Option Nat
  | 0 =>
    -- `buf[-1]` is read next
    (b.read 0).bind fun c => if isChopped c then none else some 0
  | len + 1 => (b.read ((len + 1 : Nat) : Int)).bind fun c => if isChopped c then chop b len else some (len + 1)

/-- What the three functions end with: the buffer and `len`. -/
def finish (b : Buffer) (len : Int) : Option (Buffer × Int) :=
  if len > 510 then
    (b.write 510 13).bind fun b => (b.write 511 10).map fun b => (b, 512)
  else if len = 0 then
    (b.write 0 13).bind fun b => (b.write 1 10).bind fun b => (b.write 2 0).map fun b => (b, 2)
  else
    (chop b len.toNat).bind fun len =>
      (b.write (len + 1) 13).bind fun b => (b.write (len + 2) 10).bind fun b =>
        (b.write (len + 3) 0).map fun b => (b, (len : Int) + 3)

-- ============================================================================
-- The three functions
-- ============================================================================

/-- A call: the arguments are NULL or expand to a text. -/
inductive Put
  | put (expansion : Option Bytes)
  | putbuf (buffer : Option Bytes)
  | putmsg (pfx body : Option Bytes)

/-- Append the expansion of a format to the `len` bytes that are there; of no format, nothing. -/
def expand (b : Buffer) (len : Int) : Option Bytes → Option (Buffer × Int)
  | none => some (b, len)
  | some expansion => (rbVsnprintf b len (bufDataSize - len) expansion).map fun r => (r.1, len + r.2)

/-- Fill the buffer of a new line; what was in it before is anything. -/
def Put.fill (b : Buffer) : Put → Option (Buffer × Int)
  | .put expansion => expand b 0 expansion
  | .putbuf none => some (b, 0)
  | .putbuf (some buffer) => rbStrlcpy b buffer bufDataSize
  | .putmsg pfx body => (expand b 0 pfx).bind fun r => expand r.1 r.2 body

/-- The line that is stored: its buffer and its length. -/
def Put.run (b : Buffer) (p : Put) : Option (Buffer × Int) := (p.fill b).bind fun st => finish st.1 st.2

/-- The whole message. -/
def Put.message : Put → Bytes
  | .put expansion => expansion.getD []
  | .putbuf buffer => buffer.getD []
  | .putmsg pfx body => pfx.getD [] ++ body.getD []

/-- The line is the message, cut to 510 bytes and without the CR and LF bytes at its end, with
    CR LF. -/
def WellFormed (message : Bytes) (line : Option (Buffer × Int)) : Prop :=
  ∃ b len, line = some (b, len) ∧ 0 ≤ len ∧ len ≤ 512 ∧
    b.bytes.take len.toNat = (message.take 510).rdropWhile isCrlf ++ [13, 10]

/-- A message that the functions make a line of: one of at most 510 bytes is empty or has more
    than line ends, and a longer one has no line end where it is cut. -/
def Clean (message : Bytes) : Prop :=
  if message.length ≤ 510 then message = [] ∨ ∃ c ∈ message, isCrlf c = false
  else ∀ c, message[509]? = some c → isCrlf c = false

-- ============================================================================
-- Accesses in the buffer
-- ============================================================================

section Accesses

theorem bufDataSize_eq : bufDataSize = 511 := rfl

theorem lineBufSize_eq : lineBufSize = 513 := rfl

theorem Buffer.read_eq (b : Buffer) (i : Nat) : b.read i = b.bytes[i]? := if_pos (Int.natCast_nonneg i)

/-- A byte of the buffer, behind those before it. -/
theorem Buffer.read_take (b : Buffer) {i : Nat} (hi : i < lineBufSize) :
    ∃ c, b.read i = some c ∧ b.bytes.take (i + 1) = b.bytes.take i ++ [c] := by
  have hlt : i < b.bytes.length := by
    rw [b.size]
    exact hi
  refine ⟨b.bytes[i], ?_, (List.take_append_getElem hlt).symm⟩
  rw [b.read_eq, List.getElem?_eq_getElem hlt]

/-- A write in the buffer. -/
theorem Buffer.write_eq (b : Buffer) {i : Nat} (hi : i < lineBufSize) (c : UInt8) :
    ∃ b', b.write i c = some b' ∧ b'.bytes = b.bytes.take i ++ c :: b.bytes.drop (i + 1) := by
  refine ⟨_, if_pos ⟨Int.natCast_nonneg i, Int.ofNat_lt.mpr hi⟩, ?_⟩
  have hlt : i < b.bytes.length := by
    rw [b.size]
    exact hi
  dsimp only
  rw [Int.toNat_natCast, List.set_eq_take_append_cons_drop, if_pos hlt]

/-- What a write leaves of the buffer up to it. -/
theorem Buffer.write_take (b : Buffer) {i : Nat} (hi : i < lineBufSize) (c : UInt8) :
    ∃ b', b.write i c = some b' ∧ b'.bytes.take (i + 1) = b.bytes.take i ++ [c] := by
  obtain ⟨b', hwrite, hb'⟩ := b.write_eq hi c
  have hlen : (b.bytes.take i).length = i := by
    rw [List.length_take, b.size]
    omega
  refine ⟨b', hwrite, ?_⟩
  rw [hb', List.take_append, List.take_of_length_le (by omega), hlen, Nat.add_sub_cancel_left]
  rfl

/-- Bytes that fit, one after the other. -/
theorem Buffer.copy_take (l : Bytes) : ∀ (b : Buffer) {i : Nat}, i + l.length ≤ lineBufSize →
    ∃ b', b.copy i l = some b' ∧ b'.bytes.take (i + l.length) = b.bytes.take i ++ l := by
  induction l with
  | nil =>
    intro b i _
    exact ⟨b, rfl, (List.append_nil _).symm⟩
  | cons c l ih =>
    intro b i hi
    rw [List.length_cons] at hi
    obtain ⟨b₁, hwrite, hb₁⟩ := b.write_take (i := i) (by omega) c
    obtain ⟨b₂, hcopy, hb₂⟩ := ih b₁ (i := i + 1) (by omega)
    refine ⟨b₂, ?_, ?_⟩
    · rw [Buffer.copy, hwrite]
      exact hcopy
    · rw [List.length_cons, Nat.add_comm l.length 1, ← Nat.add_assoc, hb₂, hb₁, List.append_assoc]
      rfl

/-- Bytes, and a NUL behind the first `n` of them. -/
theorem Buffer.copy_nul (b : Buffer) {i n : Nat} {l : Bytes} (hl : i + l.length ≤ lineBufSize) (hn : n ≤ l.length)
    (hi : i + n < lineBufSize) :
    ∃ b₁ b₂, b.copy i l = some b₁ ∧ b₁.write (i + n : Nat) 0 = some b₂ ∧
      b₂.bytes.take (i + n + 1) = b.bytes.take i ++ l.take n ++ [0] := by
  obtain ⟨b₁, hcopy, hb₁⟩ := b.copy_take l hl
  obtain ⟨b₂, hwrite, hb₂⟩ := b₁.write_take hi 0
  have hlen : (b.bytes.take i).length = i := by
    rw [List.length_take, b.size]
    omega
  refine ⟨b₁, b₂, hcopy, hwrite, ?_⟩
  have htake : b₁.bytes.take (i + n) = (b₁.bytes.take (i + l.length)).take (i + n) := by
    rw [List.take_take, Nat.min_eq_left (by omega)]
  rw [hb₂, htake, hb₁, List.take_append, List.take_of_length_le (by omega), hlen, Nat.add_sub_cancel_left]

end Accesses

-- ============================================================================
-- What is in the buffer of a new line
-- ============================================================================

/-- The buffer holds a text, cut to 510 bytes, with a NUL; for an empty text it is not looked at. -/
def Filled (b : Buffer) (text : Bytes) : Prop :=
  text ≠ [] → b.bytes.take (min text.length 510 + 1) = text.take 510 ++ [0]

section Fill

/-- `rb_vsnprintf` to what is left of the buffer behind `i` bytes. -/
theorem rbVsnprintf_take (b : Buffer) {i : Nat} (hi : i ≤ 510) (expansion : Bytes) :
    ∃ b', rbVsnprintf b i (bufDataSize - i) expansion = some (b', (expansion.length : Int)) ∧
      b'.bytes.take (i + min expansion.length (510 - i) + 1) =
        b.bytes.take i ++ expansion.take (510 - i) ++ [0] := by
  have hdata := bufDataSize_eq
  have hsize := lineBufSize_eq
  obtain ⟨b₁, b₂, hcopy, hwrite, htake⟩ := b.copy_nul (i := i) (n := min expansion.length (510 - i))
    (l := expansion.take (511 - i)) (by rw [List.length_take]; omega) (by rw [List.length_take]; omega) (by omega)
  have hfits : ((bufDataSize : Int) - i).toNat = 511 - i := by omega
  have hat : (i : Int) + min (expansion.length : Int) ((bufDataSize : Int) - i - 1) =
      ((i + min expansion.length (510 - i) : Nat) : Int) := by omega
  refine ⟨b₂, ?_, ?_⟩
  · rw [rbVsnprintf, if_neg (by omega), hfits, hcopy, Option.bind_some, if_pos (by omega), hat, hwrite]
    rfl
  · rw [htake, List.take_take, Nat.min_eq_left (by omega), Nat.min_comm, ← List.take_eq_take_min]

/-- A size below 0 is refused. -/
theorem rbVsnprintf_refuses (b : Buffer) {i size : Int} (h : size < 0) (expansion : Bytes) :
    rbVsnprintf b i size expansion = some (b, 0) := if_pos h

/-- Nothing is written where no byte is left. -/
theorem rbVsnprintf_full (b : Buffer) (i : Int) (expansion : Bytes) :
    rbVsnprintf b i 0 expansion = some (b, (expansion.length : Int)) := by
  rw [rbVsnprintf, if_neg (by omega), Int.toNat_zero, List.take_zero, Buffer.copy, Option.bind_some,
    if_neg (by omega)]

/-- `rb_strlcpy` to the buffer. -/
theorem rbStrlcpy_take (b : Buffer) (src : Bytes) :
    ∃ b', rbStrlcpy b src bufDataSize = some (b', (src.length : Int)) ∧
      b'.bytes.take (min src.length 510 + 1) = src.take 510 ++ [0] := by
  have hdata := bufDataSize_eq
  have hsize := lineBufSize_eq
  have hcut : (if src.length ≥ bufDataSize then bufDataSize - 1 else src.length) = min src.length 510 := by
    split <;> omega
  obtain ⟨b₁, b₂, hcopy, hwrite, htake⟩ := b.copy_nul (i := 0) (n := min src.length 510)
    (l := src.take (min src.length 510)) (by rw [List.length_take]; omega) (by rw [List.length_take]; omega)
    (by omega)
  rw [Nat.zero_add] at hwrite htake
  refine ⟨b₂, ?_, ?_⟩
  · rw [rbStrlcpy, if_neg (by omega), hcut]
    dsimp only
    rw [← Int.natCast_zero, hcopy, Option.bind_some, hwrite]
    rfl
  · rw [htake, List.take_take, Nat.min_self, List.take_zero, List.nil_append, Nat.min_comm,
      ← List.take_eq_take_min]

/-- The text gets longer by the expansion of a format; behind the end of the buffer that is not seen, and the
    length may then be any above 510. -/
theorem expand_filled {b : Buffer} {text : Bytes} (h : Filled b text) (expansion : Option Bytes) :
    ∃ b' len, expand b text.length expansion = some (b', len) ∧ Filled b' (text ++ expansion.getD []) ∧
      (len = (text ++ expansion.getD []).length ∨ 510 < text.length ∧ 510 < len) := by
  have hdata := bufDataSize_eq
  cases expansion with
  | none =>
    refine ⟨b, text.length, rfl, ?_, .inl ?_⟩
    · rw [Option.getD_none, List.append_nil]
      exact h
    · rw [Option.getD_none, List.append_nil]
  | some e =>
    rw [Option.getD_some, expand, List.length_append]
    by_cases hlen : text.length ≤ 510
    · obtain ⟨b', hprint, htake⟩ := rbVsnprintf_take b hlen e
      refine ⟨b', text.length + e.length, by rw [hprint]; rfl, fun _ => ?_, .inl (by omega)⟩
      have hsum : min (text ++ e).length 510 + 1 = text.length + min e.length (510 - text.length) + 1 := by
        rw [List.length_append]
        omega
      rw [hsum, htake, List.take_append, List.take_of_length_le hlen]
      congr 2
      by_cases hnil : text = []
      · rw [hnil]
        rfl
      · have hbefore := congrArg (List.take text.length) (h hnil)
        rw [Nat.min_eq_left hlen, List.take_take, Nat.min_eq_left (by omega), List.take_of_length_le hlen,
          List.take_left] at hbefore
        exact hbefore
    · -- the buffer is full
      have hnil : text ≠ [] := by
        rintro rfl
        exact hlen (Nat.zero_le _)
      have hkept : Filled b (text ++ e) := by
        intro _
        have hcut : (text ++ e).take 510 = text.take 510 := List.take_append_of_le_length (by omega)
        have hmin : min (text ++ e).length 510 = min text.length 510 := by
          rw [List.length_append]
          omega
        rw [hcut, hmin]
        exact h hnil
      by_cases heq : text.length = 511
      · have hsize : ((bufDataSize : Int) - text.length) = 0 := by omega
        refine ⟨b, text.length + e.length, ?_, hkept, .inl (by omega)⟩
        rw [hsize, rbVsnprintf_full]
        rfl
      · refine ⟨b, text.length + 0, ?_, hkept, .inr (by omega)⟩
        rw [rbVsnprintf_refuses b (by omega)]
        rfl

/-- Each of the three functions fills the buffer with its message. -/
theorem Put.fill_filled (p : Put) (b : Buffer) :
    ∃ b' len, p.fill b = some (b', len) ∧ Filled b' p.message ∧
      (len = p.message.length ∨ 510 < len ∧ 510 < p.message.length) := by
  have hempty : Filled b [] := fun h => absurd rfl h
  cases p with
  | put expansion =>
    obtain ⟨b', len, hprint, hfilled, hlen⟩ := expand_filled hempty expansion
    exact ⟨b', len, hprint, hfilled, hlen.imp_right fun h => absurd h.1 (Nat.not_lt_zero _)⟩
  | putbuf buffer =>
    cases buffer with
    | none => exact ⟨b, 0, rfl, hempty, .inl rfl⟩
    | some src =>
      obtain ⟨b', hcopy, htake⟩ := rbStrlcpy_take b src
      exact ⟨b', src.length, hcopy, fun _ => htake, .inl rfl⟩
  | putmsg pfx body =>
    obtain ⟨b₁, len₁, hpfx, hfilled, hlen⟩ := expand_filled hempty pfx
    rw [List.nil_append] at hfilled hlen
    obtain rfl : len₁ = ((pfx.getD []).length : Int) := hlen.resolve_right fun h => absurd h.1 (Nat.not_lt_zero _)
    obtain ⟨b₂, len₂, hbody, hfilled₂, hlen₂⟩ := expand_filled hfilled body
    refine ⟨b₂, len₂, ?_, hfilled₂, hlen₂.imp_right fun h => ⟨h.2, ?_⟩⟩
    · rw [Put.fill]
      exact (congrArg (·.bind fun r => expand r.1 r.2 body) hpfx).trans hbody
    · rw [Put.message, List.length_append]
      omega

end Fill

-- ============================================================================
-- The end of a line
-- ============================================================================

section Finish

/-- The loop stops at the last byte that is not chopped off. -/
theorem chop_eq (b : Buffer) : ∀ len : Nat, len < lineBufSize →
    chop b len = if (b.bytes.take (len + 1)).rdropWhile isChopped = [] then none
      else some (((b.bytes.take (len + 1)).rdropWhile isChopped).length - 1) := by
  intro len hlen
  induction len with
  | zero =>
    obtain ⟨c, hread, htake⟩ := b.read_take hlen
    rw [Int.natCast_zero] at hread
    rw [chop, hread, Option.bind_some, htake, List.rdropWhile_concat]
    by_cases hc : isChopped c = true
    · rw [if_pos hc, if_pos hc]
      rfl
    · rw [if_neg hc, if_neg hc]
      rfl
  | succ len ih =>
    obtain ⟨c, hread, htake⟩ := b.read_take hlen
    rw [chop, hread, Option.bind_some, htake, List.rdropWhile_concat]
    by_cases hc : isChopped c = true
    · rw [if_pos hc, if_pos hc]
      exact ih (by omega)
    · rw [if_neg hc, if_neg hc, if_neg (List.concat_ne_nil _ _), List.length_append, List.length_take, b.size]
      congr 1
      rw [List.length_singleton]
      omega

/-- CR LF behind the first `i` bytes. -/
theorem Buffer.write_crlf (b : Buffer) {i : Nat} (hi : i + 1 < lineBufSize) :
    ∃ b₁ b₂, b.write i 13 = some b₁ ∧ b₁.write (i + 1 : Nat) 10 = some b₂ ∧
      b₂.bytes.take (i + 2) = b.bytes.take i ++ [13, 10] := by
  obtain ⟨b₁, hcr, hb₁⟩ := b.write_take (i := i) (by omega) 13
  obtain ⟨b₂, hlf, hb₂⟩ := b₁.write_take hi 10
  exact ⟨b₁, b₂, hcr, hlf, by rw [hb₂, hb₁, List.append_assoc]; rfl⟩

/-- A NUL behind the first `i` bytes leaves them. -/
theorem Buffer.write_nul (b : Buffer) {i : Nat} (hi : i < lineBufSize) :
    ∃ b', b.write i 0 = some b' ∧ b'.bytes.take i = b.bytes.take i := by
  obtain ⟨b', hnul, hb'⟩ := b.write_take hi 0
  have htake := congrArg (List.take i) hb'
  have hlen : (b.bytes.take i).length = i := by
    rw [List.length_take, b.size]
    omega
  rw [List.take_take, Nat.min_eq_left (Nat.le_succ i), List.take_left' hlen] at htake
  exact ⟨b', hnul, htake⟩

/-- The text of a filled buffer. -/
theorem Filled.take_eq {b : Buffer} {text : Bytes} (h : Filled b text) {n : Nat} (hn : n ≤ min text.length 510) :
    b.bytes.take n = text.take n := by
  by_cases hnil : text = []
  · subst hnil
    obtain rfl : n = 0 := Nat.le_zero.mp (hn.trans (Nat.min_le_left _ _))
    rfl
  · have htake := congrArg (List.take n) (h hnil)
    rw [List.take_take, Nat.min_eq_left (by omega), List.take_append_of_le_length (by rw [List.length_take]; omega),
      List.take_take, Nat.min_eq_left (by omega)] at htake
    exact htake

/-- What a line holds: its bytes and its length. -/
def stored (r : Buffer × Int) : Bytes × Int := (r.1.bytes.take r.2.toNat, r.2)

/-- The end of the functions does what `finishLine` says. -/
theorem finish_eq {b : Buffer} {len : Int} {text : Bytes} (h : Filled b text)
    (hlen : len = text.length ∨ 510 < len ∧ 510 < text.length) :
    (finish b len).map stored = finishLine text := by
  have hsize := lineBufSize_eq
  by_cases hlong : text.length > 510
  · rw [finish, if_pos (by omega), finishLine, if_pos hlong]
    obtain ⟨b₁, b₂, hcr, hlf, hb₂⟩ := b.write_crlf (i := 510) (by omega)
    rw [h.take_eq (by omega)] at hb₂
    have hcr : b.write 510 13 = some b₁ := hcr
    have hlf : b₁.write 511 10 = some b₂ := hlf
    rw [hcr, Option.bind_some, hlf, Option.map_some, Option.map_some]
    exact congrArg (fun l => some (l, (512 : Int))) hb₂
  · obtain rfl : len = text.length := hlen.resolve_right fun h => hlong h.2
    rw [finish, if_neg (by omega), finishLine, if_neg hlong]
    by_cases hnil : text.length = 0
    · rw [if_pos (by omega), if_pos hnil]
      obtain ⟨b₁, b₂, hcr, hlf, hb₂⟩ := b.write_crlf (i := 0) (by omega)
      obtain ⟨b₃, hnul, hb₃⟩ := b₂.write_nul (i := 2) (by omega)
      have hcr : b.write 0 13 = some b₁ := hcr
      have hlf : b₁.write 1 10 = some b₂ := hlf
      have hnul : b₂.write 2 0 = some b₃ := hnul
      rw [hcr, Option.bind_some, hlf, Option.bind_some, hnul, Option.map_some, Option.map_some]
      exact congrArg (fun l => some (l, (2 : Int))) (hb₃.trans hb₂)
    · -- the NUL behind the text is the first byte that is chopped off
      have hne : text ≠ [] := fun h => hnil (congrArg List.length h)
      have hall : text.take 510 = text := List.take_of_length_le (by omega)
      have htext := h hne
      rw [Nat.min_eq_left (by omega), hall] at htext
      rw [if_neg (by omega), if_neg hnil, Int.toNat_natCast, chop_eq b _ (by omega), htext,
        List.rdropWhile_concat_pos isChopped text 0 rfl]
      dsimp only
      by_cases hkept : text.rdropWhile isChopped = []
      · rw [if_pos hkept, if_pos hkept]
        rfl
      · rw [if_neg hkept, if_neg hkept, Option.bind_some]
        have hprefix : text.rdropWhile isChopped <+: text := List.rdropWhile_prefix _ _
        have hle := hprefix.length_le
        have hpos := List.length_pos_iff.mpr hkept
        have htake := List.prefix_iff_eq_take.mp hprefix
        generalize hn : (text.rdropWhile isChopped).length = n at hle hpos htake
        obtain ⟨b₁, b₂, hcr, hlf, hb₂⟩ := b.write_crlf (i := n) (by omega)
        obtain ⟨b₃, hnul, hb₃⟩ := b₂.write_nul (i := n + 2) (by omega)
        rw [h.take_eq (by omega), ← htake] at hb₂
        have h₁ : ((n - 1 : Nat) : Int) + 1 = (n : Nat) := by omega
        have h₂ : ((n - 1 : Nat) : Int) + 2 = (n + 1 : Nat) := by omega
        have h₃ : ((n - 1 : Nat) : Int) + 3 = (n + 2 : Nat) := by omega
        have h₄ : (n : Int) - 1 + 3 = (n + 2 : Nat) := by omega
        rw [h₁, h₂, h₃, h₄, hcr, Option.bind_some, hlf, Option.bind_some, hnul, Option.map_some, Option.map_some,
          stored, Int.toNat_natCast, hb₃, hb₂]

end Finish

-- ============================================================================
-- Which lines are well formed
-- ============================================================================

/-- What is stored, in any buffer, is what `finishLine` makes of the message. -/
theorem Put.run_eq (p : Put) (b : Buffer) : (p.run b).map stored = finishLine p.message := by
  obtain ⟨b', len, hfill, hfilled, hlen⟩ := p.fill_filled b
  rw [Put.run, hfill, Option.bind_some]
  exact finish_eq hfilled hlen

/-- A prefix that leaves no room for the body is followed by nothing of it either way. -/
theorem finishLine_long {text : Bytes} (h : text.length > 510) (body : Bytes) :
    finishLine (text ++ body) = finishLine text := by
  rw [finishLine, if_pos (by rw [List.length_append]; omega), finishLine, if_pos h,
    List.take_append_of_le_length (by omega)]

/-- `rb_linebuf_putmsg` stores the line of the whole message. -/
theorem rbLinebufPutmsg_eq {ι : Type _} [DecidableEq ι] (s : Sys ι) (q : ι) (pfx body : Option Bytes) :
    rbLinebufPutmsg s q pfx body = putText s q (Put.putmsg pfx body).message := by
  have hdata := bufDataSize_eq
  rw [rbLinebufPutmsg, Put.message]
  by_cases h : (pfx.getD []).length > bufDataSize
  · rw [if_pos h, putText, putText, finishLine_long (by omega)]
  · rw [if_neg h]

/-- Without a NUL only line ends are chopped off. -/
theorem rdropWhile_isChopped {text : Bytes} (h : NoNul text) :
    text.rdropWhile isChopped = text.rdropWhile isCrlf := by
  induction text using List.reverseRecOn with
  | nil => rfl
  | append_singleton l c ih =>
    have hc : c ≠ 0 := fun hc => h (List.mem_append_right l (List.mem_singleton.mpr hc.symm))
    have hsame : isChopped c = isCrlf c := by
      rw [isChopped, beq_false_of_ne hc, Bool.or_false, isCrlf]
    rw [List.rdropWhile_concat, List.rdropWhile_concat, hsame, ih fun hmem => h (List.mem_append_left _ hmem)]

/-- The line of a message is well formed if `finishLine` makes a well formed line of it. -/
theorem wellFormed_run (b : Buffer) (p : Put) :
    WellFormed p.message (p.run b) ↔
      ∃ len, 0 ≤ len ∧ len ≤ 512 ∧
        finishLine p.message = some ((p.message.take 510).rdropWhile isCrlf ++ [13, 10], len) := by
  rw [← p.run_eq b]
  constructor
  · rintro ⟨b', len, hrun, hpos, hle, htake⟩
    exact ⟨len, hpos, hle, by rw [hrun, Option.map_some, stored, htake]⟩
  · rintro ⟨len, hpos, hle, hline⟩
    obtain ⟨⟨b', len'⟩, hrun, hstored⟩ := Option.map_eq_some_iff.mp hline
    obtain ⟨htake, rfl⟩ := Prod.mk.inj hstored
    exact ⟨b', len', hrun, hpos, hle, htake⟩

/-- A message that is cut: its last byte that fits decides. -/
theorem finishLine_cut {text : Bytes} (hlong : ¬ text.length ≤ 510) :
    (∃ len, 0 ≤ len ∧ len ≤ 512 ∧
      finishLine text = some ((text.take 510).rdropWhile isCrlf ++ [13, 10], len)) ↔
      ∀ c, text[509]? = some c → isCrlf c = false := by
  obtain ⟨c, hc⟩ : ∃ c, text[509]? = some c := ⟨text[509], List.getElem?_eq_getElem (by omega)⟩
  have htake : text.take 510 = text.take 509 ++ [c] := by
    rw [List.take_add_one, hc]
    rfl
  rw [finishLine, if_pos (by omega), htake, List.rdropWhile_concat]
  constructor
  · rintro ⟨len, -, -, hline⟩ c' hc'
    obtain rfl := Option.some.inj (hc.symm.trans hc')
    by_contra hcrlf
    have hcrlf : isCrlf c = true := Bool.eq_true_of_not_eq_false hcrlf
    have hbytes := congrArg Prod.fst (Option.some.inj hline)
    rw [if_pos hcrlf] at hbytes
    have hlen := congrArg List.length (List.append_cancel_right hbytes)
    have hle := (List.rdropWhile_prefix isCrlf (text.take 509)).length_le
    rw [List.length_append, List.length_singleton] at hlen
    omega
  · intro hclean
    refine ⟨512, by omega, by omega, ?_⟩
    rw [if_neg (by rw [hclean c hc]; exact Bool.false_ne_true)]

/-- A message that fits: it must not be of line ends only. -/
theorem finishLine_fits {text : Bytes} (hnul : NoNul text) (hfits : text.length ≤ 510) :
    (∃ len, 0 ≤ len ∧ len ≤ 512 ∧
      finishLine text = some ((text.take 510).rdropWhile isCrlf ++ [13, 10], len)) ↔
      text = [] ∨ ∃ c ∈ text, isCrlf c = false := by
  rw [finishLine, if_neg (by omega), List.take_of_length_le hfits, rdropWhile_isChopped hnul]
  by_cases hnil : text = []
  · subst hnil
    exact iff_of_true ⟨2, by omega, by omega, rfl⟩ (.inl rfl)
  · rw [if_neg fun h => hnil (List.length_eq_zero_iff.mp h)]
    dsimp only
    by_cases hkept : text.rdropWhile isCrlf = []
    · rw [if_pos hkept]
      refine iff_of_false ?_ ?_
      · rintro ⟨len, -, -, hline⟩
        cases hline
      · rintro (h | ⟨c, hmem, hc⟩)
        · exact hnil h
        · rw [List.rdropWhile_eq_nil_iff.mp hkept c hmem] at hc
          cases hc
    · rw [if_neg hkept]
      refine iff_of_true ⟨_, ?_, ?_, rfl⟩ (.inr ?_)
      · have hpos := List.length_pos_iff.mpr hkept
        omega
      · have hle := (List.rdropWhile_prefix isCrlf text).length_le
        omega
      · by_contra hall
        refine hkept (List.rdropWhile_eq_nil_iff.mpr fun c hmem => ?_)
        by_contra hc
        exact hall ⟨c, hmem, Bool.eq_false_of_not_eq_true hc⟩

/-- The line of a message is well formed, and made without an access outside of the buffer, if and only if the message
    is clean. -/
theorem wellFormed_iff (b : Buffer) (p : Put) (h : NoNul p.message) :
    WellFormed p.message (p.run b) ↔ Clean p.message := by
  rw [wellFormed_run, Clean]
  by_cases hfits : p.message.length ≤ 510
  · rw [if_pos hfits]
    exact finishLine_fits h hfits
  · rw [if_neg hfits]
    exact finishLine_cut hfits

/-- `PRIVMSG` of a line that ends in CR LF. -/
theorem wellFormed_privmsg :
    NoNul (Put.putmsg (some [58, 97, 32]) (some [104, 105, 13, 10])).message ∧
      ∀ b : Buffer, WellFormed [58, 97, 32, 104, 105, 13, 10]
        ((Put.putmsg (some [58, 97, 32]) (some [104, 105, 13, 10])).run b) :=
  ⟨by decide, fun b => (wellFormed_iff b (.putmsg (some [58, 97, 32]) (some [104, 105, 13, 10])) (by decide)).mpr
    (.inr ⟨58, by decide, by decide⟩)⟩

/-- A text of a CR and a LF: the loop goes on below the buffer. -/
theorem not_wellFormed :
    ¬ ∀ (b : Buffer) (p : Put), NoNul p.message → WellFormed p.message (p.run b) := by
  intro h
  let b : Buffer := ⟨List.replicate lineBufSize 0, List.length_replicate⟩
  obtain ⟨len, -, -, hline⟩ := (wellFormed_run b (.putbuf (some [13, 10]))).mp (h b _ (by decide))
  have hnone : finishLine (Put.putbuf (some [13, 10])).message = none := by decide
  rw [hnone] at hline
  cases hline

end Linebuf
end Bluebox
