/-
  Bluebox.Lib.DomainName

  Names in messages: labels with their length byte in front, the root behind the last
  one, and pointers to names elsewhere in the message.

  How long a label is depends on the bytes at its place, through the parameter `size`:
  a format has plain labels and perhaps others.  `NameAt` says which name stands at an
  offset, how many bytes it takes there, and how much a reader looks at until it is past
  the last pointer.  There is no name at an offset whose pointers go round in a circle.
-/
import Bluebox.Lib.CString
import Mathlib.Tactic.Common

namespace Bluebox.Lib

-- ============================================================================
-- Pointers
-- ============================================================================

/-- The first byte of a pointer. -/
def IsPointer (n : UInt8) : Prop := 192 ≤ n.toNat

instance (n : UInt8) : Decidable (IsPointer n) := inferInstanceAs (Decidable (192 ≤ n.toNat))

/-- The offset in the two bytes of a pointer. -/
def pointerOffset (hi lo : UInt8) : Nat := hi.toNat % 64 * 256 + lo.toNat

/-- The two bytes of the pointer to an offset. -/
def pointerBytes (off : Nat) : Bytes := [UInt8.ofNat (192 + off / 256), UInt8.ofNat (off % 256)]

theorem pointerBytes_isPointer {off : Nat} (h : off < 16384) :
    IsPointer (UInt8.ofNat (192 + off / 256)) := by
  show 192 ≤ (UInt8.ofNat (192 + off / 256)).toNat
  rw [UInt8.toNat_ofNat_of_lt' (by simp only [UInt8.size]; omega)]
  omega

theorem pointerOffset_bytes {off : Nat} (h : off < 16384) :
    pointerOffset (UInt8.ofNat (192 + off / 256)) (UInt8.ofNat (off % 256)) = off := by
  show (UInt8.ofNat (192 + off / 256)).toNat % 64 * 256 + (UInt8.ofNat (off % 256)).toNat = off
  rw [UInt8.toNat_ofNat_of_lt' (by simp only [UInt8.size]; omega),
    UInt8.toNat_ofNat_of_lt' (by simp only [UInt8.size]; omega)]
  omega

-- ============================================================================
-- Names
-- ============================================================================

/-- What a reader has looked at until it is past the last pointer, with `n` more bytes in
    front: nothing, where no pointer comes. -/
def readMore (n cost : Nat) : Nat := if cost = 0 then 0 else n + cost

section Names

variable (size : Bytes → Option Nat)

/-- The name at an offset of a message: its labels with their length bytes, how many bytes
    it takes at that place, and how many are read until the last pointer has been. -/
inductive NameAt (msg : Bytes) : Nat → List Bytes → Nat → Nat → Prop
  | root {off : Nat} {rest : Bytes} (h : msg.drop off = 0 :: rest) : NameAt msg off [] 1 0
  | label {off l span cost : Nat} {n : UInt8} {rest : Bytes} {ls : List Bytes}
      (h : msg.drop off = n :: rest) (hn : n ≠ 0) (hp : ¬ IsPointer n) (hl : size (n :: rest) = some l)
      (hs : NameAt msg (off + (l + 1)) ls span cost) :
      NameAt msg off ((n :: rest.take l) :: ls) (l + 1 + span) (readMore (l + 1) cost)
  | pointer {off span cost : Nat} {hi lo : UInt8} {rest : Bytes} {ls : List Bytes}
      (h : msg.drop off = hi :: lo :: rest) (hp : IsPointer hi)
      (hs : NameAt msg (pointerOffset hi lo) ls span cost) :
      NameAt msg off ls 2 (cost + 2)

variable {size} {msg : Bytes} {off span cost : Nat} {ls : List Bytes}

theorem NameAt.lt_length (h : NameAt size msg off ls span cost) : off < msg.length := by
  have hne : msg.drop off ≠ [] := by
    cases h <;> rename_i h' <;> simp_all
  simpa [List.drop_eq_nil_iff] using hne

theorem NameAt.span_pos (h : NameAt size msg off ls span cost) : 0 < span := by
  cases h <;> omega

theorem not_nameAt_of_nil (h : msg.drop off = []) : ¬ NameAt size msg off ls span cost := by
  intro hs
  have := hs.lt_length
  have hle : msg.length ≤ off := List.drop_eq_nil_iff.mp h
  omega

theorem nameAt_root_iff {rest : Bytes} (h : msg.drop off = 0 :: rest) :
    NameAt size msg off ls span cost ↔ ls = [] ∧ span = 1 ∧ cost = 0 := by
  constructor
  · intro hs
    cases hs with
    | root => simp
    | label h' hn => simp_all
    | pointer h' hp =>
      rw [h] at h'
      simp only [List.cons.injEq] at h'
      rw [← h'.1] at hp
      simp [IsPointer] at hp
  · rintro ⟨rfl, rfl, rfl⟩
    exact .root h

theorem nameAt_label_iff {n : UInt8} {rest : Bytes} (h : msg.drop off = n :: rest) (hn : n ≠ 0)
    (hp : ¬ IsPointer n) :
    NameAt size msg off ls span cost ↔ ∃ l ls' span' cost', size (n :: rest) = some l ∧
      NameAt size msg (off + (l + 1)) ls' span' cost' ∧ ls = (n :: rest.take l) :: ls' ∧
      span = l + 1 + span' ∧ cost = readMore (l + 1) cost' := by
  constructor
  · intro hs
    cases hs with
    | root h' => simp_all
    | label h' _ _ hl hs =>
      obtain ⟨rfl, rfl⟩ : _ ∧ _ := by simpa [h] using h'
      exact ⟨_, _, _, _, hl, hs, rfl, rfl, rfl⟩
    | pointer h' hp' => simp_all
  · rintro ⟨l, ls', span', cost', hl, hs, rfl, rfl, rfl⟩
    exact .label h hn hp hl hs

theorem nameAt_pointer_iff {hi : UInt8} {rest : Bytes} (h : msg.drop off = hi :: rest) (hp : IsPointer hi) :
    NameAt size msg off ls span cost ↔ ∃ lo rest' span' cost', rest = lo :: rest' ∧
      NameAt size msg (pointerOffset hi lo) ls span' cost' ∧ span = 2 ∧ cost = cost' + 2 := by
  constructor
  · intro hs
    cases hs with
    | root h' =>
      rw [h] at h'
      simp only [List.cons.injEq] at h'
      rw [h'.1] at hp
      simp [IsPointer] at hp
    | label h' _ hp' => simp_all
    | pointer h' _ hs =>
      obtain ⟨rfl, rfl⟩ : _ ∧ _ := by simpa [h] using h'
      exact ⟨_, _, _, _, rfl, hs, rfl, rfl⟩
  · rintro ⟨lo, rest', span', cost', rfl, hs, rfl, rfl⟩
    exact .pointer h hp hs

/-- There is at most one name at an offset. -/
theorem NameAt.unique {ls' : List Bytes} {span' cost' : Nat} (h : NameAt size msg off ls span cost)
    (h' : NameAt size msg off ls' span' cost') : ls = ls' ∧ span = span' ∧ cost = cost' := by
  induction h generalizing ls' span' cost' with
  | root h =>
    obtain ⟨rfl, rfl, rfl⟩ := (nameAt_root_iff h).mp h'
    simp
  | label h hn hp hl _ ih =>
    obtain ⟨l, ls', span', cost', hl', hs', rfl, rfl, rfl⟩ := (nameAt_label_iff h hn hp).mp h'
    obtain rfl : _ = l := by simpa [hl] using hl'
    obtain ⟨rfl, rfl, rfl⟩ := ih hs'
    simp
  | pointer h hp _ ih =>
    obtain ⟨lo, rest, span', cost', hr, hs', rfl, rfl⟩ := (nameAt_pointer_iff h hp).mp h'
    simp only [List.cons.injEq] at hr
    obtain ⟨rfl, -⟩ := hr
    obtain ⟨rfl, -, rfl⟩ := ih hs'
    simp

end Names

-- ============================================================================
-- Plain names
-- ============================================================================

/-- A plain label with its length byte. -/
def wireLabel (l : Bytes) : Bytes := UInt8.ofNat l.length :: l

/-- Labels as they are written without pointers. -/
def wireLabels (ls : List Bytes) : Bytes := ls.flatMap wireLabel

/-- A name of plain labels: none is empty or longer than 63 bytes, and the whole takes at most
    255 bytes. -/
structure DomainName where
  labels : List Bytes
  label_ok : ∀ l ∈ labels, 0 < l.length ∧ l.length < 64
  fits : (wireLabels labels).length < 255

/-- The name as it is written without pointers. -/
def DomainName.wire (d : DomainName) : Bytes := wireLabels d.labels ++ [0]

@[simp] theorem wireLabels_nil : wireLabels [] = [] := rfl

@[simp] theorem wireLabels_cons (l : Bytes) (ls : List Bytes) :
    wireLabels (l :: ls) = UInt8.ofNat l.length :: (l ++ wireLabels ls) := rfl

theorem wireLabels_append (ls ls' : List Bytes) : wireLabels (ls ++ ls') = wireLabels ls ++ wireLabels ls' :=
  List.flatMap_append

theorem flatten_wireLabel (ls : List Bytes) : (ls.map wireLabel).flatten = wireLabels ls :=
  List.flatMap_def.symm

theorem toNat_length_byte {l : Bytes} (h : l.length < 64) : (UInt8.ofNat l.length).toNat = l.length := by
  apply UInt8.toNat_ofNat_of_lt'
  simp only [UInt8.size]
  omega

-- ============================================================================
-- Names whose pointers go back
-- ============================================================================

/-- There is a pointer at an offset. -/
def PointerAt (msg : Bytes) (off : Nat) : Prop := IsPointer ((msg.drop off).headD 0)

instance (msg : Bytes) (off : Nat) : Decidable (PointerAt msg off) :=
  inferInstanceAs (Decidable (IsPointer _))

/-- The labels at an offset, for names in which a pointer leads to a label of a name that ends
    in front of the place `start`, where the own name starts.  The bytes of the name end in
    front of `stop`. -/
inductive PackedAt (msg : Bytes) : Nat → Nat → List Bytes → Nat → Prop
  | root {start off : Nat} {rest : Bytes} (h : msg.drop off = 0 :: rest) : PackedAt msg start off [] (off + 1)
  | label {start off stop : Nat} {l rest : Bytes} {ls : List Bytes} (h : msg.drop off = wireLabel l ++ rest)
      (hl : 0 < l.length ∧ l.length < 64) (hs : PackedAt msg start (off + (l.length + 1)) ls stop) :
      PackedAt msg start off (l :: ls) stop
  | pointer {start off start' stop' : Nat} {hi lo : UInt8} {rest l : Bytes} {ls : List Bytes}
      (h : msg.drop off = hi :: lo :: rest) (hp : IsPointer hi) (hstart : start' ≤ pointerOffset hi lo)
      (hs : PackedAt msg start' (pointerOffset hi lo) (l :: ls) stop') (hback : stop' ≤ start)
      (hdirect : ¬ PointerAt msg (pointerOffset hi lo)) : PackedAt msg start off (l :: ls) (off + 2)

section Packed

variable {size : Bytes → Option Nat} {msg : Bytes} {start off stop : Nat} {ls : List Bytes}

theorem wireLabel_ne_zero {l : Bytes} (hl : 0 < l.length ∧ l.length < 64) :
    UInt8.ofNat l.length ≠ 0 ∧ ¬ IsPointer (UInt8.ofNat l.length) := by
  have hn := toNat_length_byte hl.2
  refine ⟨fun h => ?_, fun h => ?_⟩
  · rw [h] at hn
    simp at hn
    omega
  · have h192 : 192 ≤ (UInt8.ofNat l.length).toNat := h
    omega

/-- Such a name is a name, and it is read before as much as lies in front of its end. -/
theorem PackedAt.nameAt (hsize : ∀ l rest, l.length < 64 → size (wireLabel l ++ rest) = some l.length)
    (h : PackedAt msg start off ls stop) (hstart : start ≤ off) :
    ∃ span cost, NameAt size msg off (ls.map wireLabel) span cost ∧ off + span = stop ∧
      (cost = 0 ∨ cost + off < stop + start) ∧ stop ≤ msg.length := by
  induction h with
  | @root start off rest h =>
    have hlen : (msg.drop off).length = rest.length + 1 := by rw [h, List.length_cons]
    rw [List.length_drop] at hlen
    exact ⟨1, 0, .root h, rfl, by omega, by omega⟩
  | @label start off stop l rest ls h hl hs ih =>
    obtain ⟨span, cost, hname, hspan, hcost, hstop⟩ := ih (by omega)
    obtain ⟨hne, hnp⟩ := wireLabel_ne_zero hl
    refine ⟨l.length + 1 + span, readMore (l.length + 1) cost, ?_, by omega, ?_, hstop⟩
    · have hlabel := NameAt.label h hne hnp (hsize l rest hl.2) hname
      have htake : (l ++ rest).take l.length = l := by simp
      rw [show l.append rest = l ++ rest from rfl, htake] at hlabel
      exact hlabel
    · unfold readMore
      split <;> omega
  | @pointer start off start' stop' hi lo rest l ls h hp hstart' hs hback hdirect ih =>
    obtain ⟨span, cost, hname, hspan, hcost, hstop⟩ := ih hstart'
    have hlen : (msg.drop off).length = rest.length + 2 := by rw [h, List.length_cons, List.length_cons]
    rw [List.length_drop] at hlen
    have hpos := hname.span_pos
    exact ⟨2, cost + 2, .pointer h hp hname, rfl, by omega, by omega⟩

theorem PackedAt.drop_eq (h : PackedAt msg start off ls stop) : ∃ b rest, msg.drop off = b :: rest := by
  cases h with
  | root h => exact ⟨_, _, h⟩
  | label h => exact ⟨_, _, h⟩
  | pointer h => exact ⟨_, _, h⟩

/-- What stands behind a label decides whether the label is the last one. -/
theorem PackedAt.head_iff (h : PackedAt msg start off ls stop) : (msg.drop off).head? = some 0 ↔ ls = [] := by
  cases h with
  | root h => simp [h]
  | label h hl =>
    rw [h]
    simpa [wireLabel] using (wireLabel_ne_zero hl).1
  | @pointer _ _ _ _ hi lo rest l ls h hp =>
    have hne : hi ≠ 0 := by
      rintro rfl
      exact absurd hp (by decide)
    simp [h, hne]

/-- Every label of such a name is plain. -/
theorem PackedAt.label_lt (h : PackedAt msg start off ls stop) : ∀ l ∈ ls, l.length < 64 := by
  induction h with
  | root => simp
  | label h hl _ ih => exact List.forall_mem_cons.mpr ⟨hl.2, ih⟩
  | pointer _ _ _ _ _ _ ih => exact ih

theorem drop_append_of_cons {b : UInt8} {rest : Bytes} (h : msg.drop off = b :: rest) (more : Bytes) :
    (msg ++ more).drop off = b :: (rest ++ more) := by
  have hle : off ≤ msg.length := by
    by_contra hgt
    rw [List.drop_of_length_le (by omega)] at h
    simp at h
  rw [List.drop_append_of_le_length hle, h, List.cons_append]

/-- A message that goes on keeps its names. -/
theorem PackedAt.append (h : PackedAt msg start off ls stop) (more : Bytes) :
    PackedAt (msg ++ more) start off ls stop := by
  induction h with
  | root h => exact .root (drop_append_of_cons h more)
  | @label start off stop l rest ls h hl hs ih =>
    have h' : (msg ++ more).drop off = wireLabel l ++ (rest ++ more) := by
      simpa [wireLabel] using drop_append_of_cons h more
    exact .label h' hl ih
  | @pointer start off start' stop' hi lo rest l ls h hp hstart hs hback hdirect ih =>
    refine .pointer (drop_append_of_cons h more) hp hstart ih hback ?_
    obtain ⟨b, rest', hb⟩ := hs.drop_eq
    unfold PointerAt at hdirect ⊢
    rw [hb] at hdirect
    rwa [drop_append_of_cons hb]

theorem drop_message (msg : Bytes) {dst out tail : Bytes} (h : out = dst ++ tail) :
    (msg ++ out).drop (msg.length + dst.length) = tail := by
  rw [h, ← List.append_assoc, ← List.length_append]
  exact List.drop_left

/-- Labels that are written without pointers make a name. -/
theorem packedAt_wire {rest : Bytes} (hls : ∀ l ∈ ls, 0 < l.length ∧ l.length < 64)
    (h : msg.drop off = wireLabels ls ++ 0 :: rest) :
    PackedAt msg start off ls (off + (wireLabels ls).length + 1) := by
  induction ls generalizing off with
  | nil => exact .root h
  | cons l ls ih =>
    obtain ⟨hl, hls⟩ := List.forall_mem_cons.mp hls
    have hsplit : msg.drop off = wireLabel l ++ (wireLabels ls ++ 0 :: rest) := by simpa [wireLabel] using h
    have hnext : msg.drop (off + (wireLabel l).length) = wireLabels ls ++ 0 :: rest := by
      rw [← List.drop_drop, hsplit, List.drop_left]
    have hstop : off + (l.length + 1) + (wireLabels ls).length + 1 = off + (wireLabels (l :: ls)).length + 1 := by
      rw [wireLabels_cons, List.length_cons, List.length_append]
      omega
    rw [← hstop]
    exact .label hsplit hl (ih hls hnext)

/-- A pointer to a label of an earlier name can be written behind the message. -/
theorem PackedAt.pointTo {l : Bytes} (h : PackedAt msg start off (l :: ls) stop) (hstart : start ≤ off)
    (hstop : stop ≤ msg.length) (hoff : off < 16384) (hdirect : ¬ PointerAt msg off) (dst : Bytes) :
    PackedAt (msg ++ (dst ++ pointerBytes off)) msg.length (msg.length + dst.length) (l :: ls)
      (msg.length + dst.length + 2) := by
  have hbytes := drop_message msg (rfl : dst ++ pointerBytes off = dst ++ pointerBytes off)
  have hto := pointerOffset_bytes hoff
  obtain ⟨b, rest, hb⟩ := h.drop_eq
  have happ : PackedAt (msg ++ (dst ++ pointerBytes off)) start
      (pointerOffset (UInt8.ofNat (192 + off / 256)) (UInt8.ofNat (off % 256))) (l :: ls) stop := by
    rw [hto]
    exact h.append _
  refine .pointer hbytes (pointerBytes_isPointer hoff) (by rwa [hto]) happ hstop ?_
  unfold PointerAt at hdirect ⊢
  rw [hb] at hdirect
  rwa [hto, drop_append_of_cons hb]

end Packed

/-- A name is known from its wire form. -/
theorem DomainName.labels_eq_of_wire {d d' : DomainName} (h : d.wire = d'.wire) : d.labels = d'.labels := by
  let size : Bytes → Option Nat := fun m => m.head?.map UInt8.toNat
  have hsize : ∀ l rest : Bytes, l.length < 64 → size (wireLabel l ++ rest) = some l.length :=
    fun l rest hl => congrArg some (toNat_length_byte hl)
  have hname : ∀ d : DomainName, ∃ span cost, NameAt size d.wire 0 (d.labels.map wireLabel) span cost := by
    intro d
    have hpacked : PackedAt d.wire 0 0 d.labels _ := packedAt_wire d.label_ok rfl
    obtain ⟨span, cost, hat, -⟩ := hpacked.nameAt hsize (Nat.le_refl 0)
    exact ⟨span, cost, hat⟩
  obtain ⟨span, cost, hd⟩ := hname d
  obtain ⟨span', cost', hd'⟩ := hname d'
  rw [h] at hd
  have hmap := congrArg (List.map List.tail) (hd.unique hd').1
  have htail : List.tail ∘ wireLabel = id := rfl
  simpa [htail] using hmap

theorem DomainName.length_wire (d : DomainName) : d.wire.length = (wireLabels d.labels).length + 1 := by
  simp [DomainName.wire]

end Bluebox.Lib
