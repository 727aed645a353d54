/-
  Bluebox.Resolver.Query

  Questions about addresses: `irc_res_mkquery` and `irc_dn_expand` of `resolver/reslib.c`,
  `do_query_number` and `check_question` of `resolver/res.c`.

  `check_question` lets a reply through when its question is the name that was asked for,
  whatever else the reply holds.

  `reply_answers_query`: the reply to the question about an address is taken for an answer
  about this address and about no other.
-/
import Bluebox.Resolver.Pack

namespace Bluebox.Resolver

open Bluebox.Lib

/-- An address, with its bytes in the order in which they are sent. -/
inductive Addr where
  | v4 (cp : Fin 4 → UInt8)
  | v6 (cp : Fin 16 → UInt8)

/-- `T_PTR`. -/
def tPtr : Nat := 12

/-- `C_IN`. -/
def cIn : Nat := 1

/-- `HFIXEDSZ`, which is also the size of `HEADER`. -/
def hfixedsz : Nat := 12

/-- `QFIXEDSZ`. -/
def qfixedsz : Nat := 4

/-- `MAXPACKET`. -/
def maxpacket : Nat := 1024

-- ============================================================================
-- irc_res_mkquery
-- ============================================================================

/-- `IRC_NS_PUT16`. -/
def ircNsPut16 (s : Nat) : Bytes := [UInt8.ofNat (s / 256), UInt8.ofNat s]

/-- The header of a query: recursion is desired, and there is one question. -/
def queryHeader : Bytes := [0, 0, 1, 0, 0, 1, 0, 0, 0, 0, 0, 0]

/-- How many entries fit into the 20 of `dnptrs` behind the first, with the NULL at the end. -/
def dnptrsRoom : Nat := 18

/-- `irc_res_mkquery`: what it leaves in the buffer. -/
def ircResMkquery (dname : Bytes) (dnsClass type buflen : Nat) : Option Bytes :=
  if buflen < hfixedsz ∨ buflen - hfixedsz < qfixedsz then none
  else
    match ircNsNameCompress queryHeader dname (buflen - hfixedsz - qfixedsz) [] dnptrsRoom with
    | .ok dst _ => some (queryHeader ++ dst ++ ircNsPut16 type ++ ircNsPut16 dnsClass)
    | _ => none

-- ============================================================================
-- do_query_number
-- ============================================================================

/-- `%x`, of a number below 16. -/
def hexLabel (n : Nat) : Bytes := [hexChar n]

/-- The labels of the name that `do_query_number` asks for. -/
def Addr.labels : Addr → List Bytes
  | .v4 cp => [fmtInt (cp 3).toNat, fmtInt (cp 2).toNat, fmtInt (cp 1).toNat, fmtInt (cp 0).toNat] ++
      [[105, 110, 45, 97, 100, 100, 114], [97, 114, 112, 97]]
  | .v6 cp => (List.finRange 16).reverse.flatMap (fun i => [hexLabel ((cp i).toNat % 16), hexLabel ((cp i).toNat / 16)])
      ++ [[105, 112, 54], [97, 114, 112, 97]]

/-- The `queryname` that `do_query_number` writes: with the decimal numbers of an address and
    `in-addr.arpa`, or with its hexadecimal digits and `ip6.arpa`. -/
def doQueryNumber (addr : Addr) : Bytes := [0x2E].intercalate addr.labels

-- ============================================================================
-- check_question
-- ============================================================================

/-- `irc_dn_expand`: the name, and how many bytes it takes. -/
def ircDnExpand (msg past : Bytes) (src dstsiz : Nat) : Option (Bytes × Nat) :=
  (ircNsNameUnpack msg past src nsMaxcdname).bind fun r =>
    (ircNsNameNtop r.1 dstsiz).map fun dst => (if r.2 > 0 ∧ dst.head? = some 0x2E then [] else dst, r.2)

/-- `strcasecmp`, for whether there is no difference. -/
def strcasecmp (s t : Bytes) : Bool := s.map mklower == t.map mklower

/-- `check_question`: `buf` is the message with its counts in the order of the machine. -/
def checkQuestion (queryname : Bytes) (qdcount : Nat) (buf past : Bytes) : Bool :=
  if qdcount ≠ 1 then false
  else
    match ircDnExpand buf past hfixedsz 128 with
    | none => false
    | some (hostbuf, n) => if n = 0 then false else strcasecmp hostbuf queryname

-- ============================================================================
-- The case of letters
-- ============================================================================

/-- Digits, small letters and `-` are written as they are. -/
theorem ntopChar_plain {c : UInt8} (h : c.toNat = 45 ∨ 48 ≤ c.toNat ∧ c.toNat ≤ 57 ∨ 97 ≤ c.toNat ∧ c.toNat ≤ 122) :
    ntopChar c = [c] ∧ mklower c = c := by
  have hspecial : special c = false := by
    simp only [special, decide_eq_false_iff_not]
    intro hmem
    simp only [List.mem_cons, List.not_mem_nil, or_false] at hmem
    rcases hmem with rfl | rfl | rfl | rfl | rfl | rfl | rfl | rfl <;> simp at h
  have hprintable : printable c = true := by
    simp only [printable, Bool.and_eq_true, decide_eq_true_eq, UInt8.lt_iff_toNat_lt]
    show 32 < c.toNat ∧ c.toNat < 127
    omega
  have hlower : ¬(0x41 ≤ c ∧ c ≤ 0x5A) := by
    rw [UInt8.le_iff_toNat_le, UInt8.le_iff_toNat_le]
    show ¬(65 ≤ c.toNat ∧ c.toNat ≤ 90)
    omega
  exact ⟨by simp [ntopChar, hspecial, hprintable], if_neg hlower⟩

theorem ntopChar_mklower (c : UInt8) : ntopChar (mklower c) = (ntopChar c).map mklower := by
  have hlt := c.toNat_lt
  by_cases hupper : 0x41 ≤ c ∧ c ≤ 0x5A
  · have hc : 65 ≤ c.toNat ∧ c.toNat ≤ 90 := by simpa [UInt8.le_iff_toNat_le] using hupper
    have hlow : mklower c = c + 0x20 := if_pos hupper
    have hval : (c + 0x20).toNat = c.toNat + 32 := by
      rw [UInt8.toNat_add]
      show (c.toNat + 32) % 256 = _
      omega
    have hspecial : special c = false := by
      simp only [special, decide_eq_false_iff_not]
      intro hmem
      simp only [List.mem_cons, List.not_mem_nil, or_false] at hmem
      rcases hmem with rfl | rfl | rfl | rfl | rfl | rfl | rfl | rfl <;> simp at hc
    have hprintable : printable c = true := by
      simp only [printable, Bool.and_eq_true, decide_eq_true_eq, UInt8.lt_iff_toNat_lt]
      show 32 < c.toNat ∧ c.toNat < 127
      omega
    rw [hlow, (ntopChar_plain (c := c + 0x20) (.inr (.inr (by omega)))).1]
    simp [ntopChar, hspecial, hprintable, hlow]
  · have hsame : mklower c = c := if_neg hupper
    have hslash : mklower 0x5C = 0x5C := by decide
    have hdigit : ∀ d < 10, mklower (digit d) = digit d := fun d hd => (ntopChar_plain (by
      rw [digit, toNat_digit hd]
      omega)).2
    rw [hsame]
    unfold ntopChar
    split
    · simp [hsame, hslash]
    · split
      · simp [hslash, hdigit (c.toNat / 100) (by omega), hdigit (c.toNat % 100 / 10) (by omega), hdigit (c.toNat % 10) (by omega)]
      · simp [hsame]

/-- A label in lower case is written as its text in lower case. -/
theorem labelText_mklower (l : Bytes) : labelText (l.map mklower) = (labelText l).map mklower := by
  induction l with
  | nil => rfl
  | cons c l ih =>
    show ntopChar (mklower c) ++ labelText (l.map mklower) = (ntopChar c ++ labelText l).map mklower
    rw [ih, ntopChar_mklower, ← List.map_append]

theorem nameText_foldCase {ls : List Bytes} (hls : ∀ l ∈ ls, 0 < l.length) :
    nameText (foldCase ls) = (nameText ls).map mklower := by
  have hmore : ∀ ls, moreText (foldCase ls) = (moreText ls).map mklower := by
    intro ls
    induction ls with
    | nil => rfl
    | cons l ls ih =>
      show 0x2E :: (labelText (l.map mklower) ++ moreText (foldCase ls)) = (0x2E :: (labelText l ++ moreText ls)).map mklower
      rw [ih, labelText_mklower, List.map_cons, List.map_append]
      rfl
  cases ls with
  | nil => decide
  | cons l ls =>
    have hl := hls l List.mem_cons_self
    show nameText (l.map mklower :: foldCase ls) = _
    rw [nameText_cons (by simpa using hl), nameText_cons hl, List.map_append, hmore, labelText_mklower]

-- ============================================================================
-- Reading a question
-- ============================================================================

/-- A question with a plain name is for `queryname` when the texts agree. -/
theorem checkQuestion_iff {queryname buf past : Bytes} {d : DomainName} {span cost : Nat}
    (h : NameAt wireSize buf hfixedsz (d.labels.map wireLabel) span cost) (hcost : cost < buf.length)
    (hne : d.labels ≠ []) (hlen : (nameText d.labels).length < 128) :
    checkQuestion queryname 1 buf past = true ↔ (nameText d.labels).map mklower = queryname.map mklower := by
  have hunpack : ircNsNameUnpack buf past hfixedsz nsMaxcdname = some (d.wire, span) := by
    refine (ircNsNameUnpack_iff buf past hfixedsz d.wire span).1.mpr ⟨_, cost, h, hcost, ?_, ?_⟩
    · rw [flatten_wireLabel]
      rfl
    · rw [d.length_wire]
      have := d.fits
      unfold nsMaxcdname
      omega
  have hntop := ircNsNameNtop_wire d 128
  rw [if_pos hlen] at hntop
  have hdot : (nameText d.labels).head? ≠ some 0x2E := by
    obtain ⟨l, ls, hl⟩ := List.exists_cons_of_ne_nil hne
    have hpos := (d.label_ok l (by simp [hl])).1
    obtain ⟨c, t, htext, hc⟩ := labelText_head hpos
    rw [hl, nameText_cons hpos, htext]
    simpa using hc
  have hspan := h.span_pos
  unfold checkQuestion ircDnExpand
  rw [hunpack]
  simp only [Option.bind_some, hntop, Option.map_some]
  simp [hdot, strcasecmp, show span ≠ 0 by omega]

-- ============================================================================
-- The question about an address
-- ============================================================================

/-- Bytes that are written as they are, and are in lower case. -/
def Lower (l : Bytes) : Prop := ∀ c ∈ l, ntopChar c = [c] ∧ mklower c = c

section Lower

variable {ls : List Bytes}

theorem labelText_lower {l : Bytes} (h : Lower l) : labelText l = l := by
  induction l with
  | nil => rfl
  | cons c l ih =>
    obtain ⟨hc, hl⟩ := List.forall_mem_cons.mp h
    show ntopChar c ++ labelText l = c :: l
    rw [hc.1, ih hl]
    rfl

theorem foldCase_lower (h : ∀ l ∈ ls, Lower l) : foldCase ls = ls := by
  unfold foldCase
  conv_rhs => rw [← List.map_id ls]
  refine List.map_congr_left fun l hl => ?_
  conv_rhs => rw [id, ← List.map_id l]
  exact List.map_congr_left fun c hc => (h l hl c hc).2

theorem moreText_lower (h : ∀ l ∈ ls, Lower l) : moreText ls = ls.flatMap fun l => 0x2E :: l := by
  induction ls with
  | nil => rfl
  | cons l ls ih =>
    obtain ⟨hl, hls⟩ := List.forall_mem_cons.mp h
    show 0x2E :: (labelText l ++ moreText ls) = 0x2E :: (l ++ ls.flatMap fun l => 0x2E :: l)
    rw [labelText_lower hl, ih hls]

theorem intercalate_cons (l : Bytes) (ls : List Bytes) :
    [0x2E].intercalate (l :: ls) = l ++ ls.flatMap fun l => 0x2E :: l := by
  induction ls generalizing l with
  | nil => simp [List.intercalate]
  | cons l' ls ih =>
    have hstep : [0x2E].intercalate (l :: l' :: ls) = l ++ 0x2E :: [0x2E].intercalate (l' :: ls) := by
      simp [List.intercalate]
    rw [hstep, ih]
    rfl

/-- The text of such labels is what stands between dots, and one byte shorter than the labels
    with their lengths. -/
theorem nameText_lower (hpos : ∀ l ∈ ls, 0 < l.length) (h : ∀ l ∈ ls, Lower l) (hne : ls ≠ []) :
    nameText ls = [0x2E].intercalate ls ∧ (nameText ls).length + 1 = (wireLabels ls).length := by
  have hlen : ∀ ls : List Bytes, (ls.flatMap fun l => 0x2E :: l).length = (wireLabels ls).length := by
    intro ls
    induction ls with
    | nil => rfl
    | cons l ls ih => simpa [wireLabel] using ih
  obtain ⟨l, ls, rfl⟩ := List.exists_cons_of_ne_nil hne
  obtain ⟨hl, hls⟩ := List.forall_mem_cons.mp h
  have htext : nameText (l :: ls) = l ++ ls.flatMap fun l => 0x2E :: l := by
    rw [nameText_cons (hpos l List.mem_cons_self), labelText_lower hl, moreText_lower hls]
  rw [intercalate_cons]
  refine ⟨htext, ?_⟩
  rw [htext, List.length_append, hlen, wireLabels_cons, List.length_cons, List.length_append]

end Lower

theorem decDigits_octet (fuel : Nat) {n : Nat} (h : n < 256) : (decDigits fuel n).length ≤ 3 := by
  have hlast : n / 10 / 10 < 10 := by omega
  rcases fuel with - | - | - | fuel <;> simp only [decDigits, if_pos hlast] <;> repeat' split
  all_goals simp

theorem decimal_lower {n : Nat} (h : n < 256) : 0 < (fmtInt n).length ∧ (fmtInt n).length < 8 ∧ Lower (fmtInt n) := by
  have htext : fmtInt n = decDigits (n + 1) n := by simp [fmtInt]
  rw [htext]
  refine ⟨List.length_pos_of_ne_nil (decDigits_ne_nil n n), ?_, fun c hc => ntopChar_plain (.inr (.inl ?_))⟩
  · have := decDigits_octet (n + 1) h
    omega
  · have hdigit := decDigits_isDigit (n + 1) n c hc
    simpa [isDigit, UInt8.le_iff_toNat_le] using hdigit

theorem hexLabel_lower {n : Nat} (h : n < 16) : 0 < (hexLabel n).length ∧ (hexLabel n).length < 8 ∧ Lower (hexLabel n) := by
  refine ⟨Nat.one_pos, by simp [hexLabel], fun c hc => ntopChar_plain ?_⟩
  rw [List.mem_singleton.mp hc, hexChar]
  split
  · rw [toNat_digit (by omega)]
    omega
  · rw [UInt8.toNat_ofNat']
    omega

/-- The labels of an address are decimal numbers, hexadecimal digits and the ends. -/
theorem Addr.label_spec (addr : Addr) : ∀ l ∈ addr.labels, 0 < l.length ∧ l.length < 8 ∧ Lower l := by
  have hends : ∀ l ∈ ([[105, 110, 45, 97, 100, 100, 114], [97, 114, 112, 97], [105, 112, 54]] : List Bytes),
      0 < l.length ∧ l.length < 8 ∧ Lower l := by
    have hplain : ∀ l ∈ ([[105, 110, 45, 97, 100, 100, 114], [97, 114, 112, 97], [105, 112, 54]] : List Bytes),
        0 < l.length ∧ l.length < 8 ∧
          ∀ c ∈ l, c.toNat = 45 ∨ 48 ≤ c.toNat ∧ c.toNat ≤ 57 ∨ 97 ≤ c.toNat ∧ c.toNat ≤ 122 := by simp
    intro l hl
    obtain ⟨hpos, hlen, hc⟩ := hplain l hl
    exact ⟨hpos, hlen, fun c hmem => ntopChar_plain (hc c hmem)⟩
  intro l hl
  cases addr with
  | v4 cp =>
    simp only [Addr.labels, List.mem_append, List.mem_cons, List.not_mem_nil, or_false] at hl
    rcases hl with (rfl | rfl | rfl | rfl) | rfl | rfl
    · exact decimal_lower (cp 3).toNat_lt
    · exact decimal_lower (cp 2).toNat_lt
    · exact decimal_lower (cp 1).toNat_lt
    · exact decimal_lower (cp 0).toNat_lt
    · exact hends _ (by simp)
    · exact hends _ (by simp)
  | v6 cp =>
    simp only [Addr.labels, List.mem_append, List.mem_flatMap, List.mem_cons, List.not_mem_nil, or_false] at hl
    rcases hl with ⟨i, -, rfl | rfl⟩ | rfl | rfl
    · exact hexLabel_lower (by omega)
    · have := (cp i).toNat_lt
      exact hexLabel_lower (by omega)
    · exact hends _ (by simp)
    · exact hends _ (by simp)

theorem length_wireLabels_hex (cp : Fin 16 → UInt8) (is : List (Fin 16)) :
    (wireLabels (is.flatMap fun i => [hexLabel ((cp i).toNat % 16), hexLabel ((cp i).toNat / 16)])).length =
      4 * is.length := by
  induction is with
  | nil => rfl
  | cons i is ih =>
    rw [List.flatMap_cons, wireLabels_append, List.length_append, ih, List.length_cons]
    simp only [wireLabels_cons, wireLabels_nil, hexLabel, List.length_cons, List.length_append, List.length_nil]
    omega

theorem Addr.length_wireLabels (addr : Addr) : (wireLabels addr.labels).length < 128 := by
  cases addr with
  | v4 cp =>
    have hlen : ∀ l ∈ (Addr.v4 cp).labels, l.length < 8 := fun l hl => ((Addr.v4 cp).label_spec l hl).2.1
    simp only [Addr.labels, List.cons_append, List.nil_append, List.forall_mem_cons] at hlen
    obtain ⟨h3, h2, h1, h0, -⟩ := hlen
    simp only [Addr.labels, List.cons_append, List.nil_append, wireLabels_cons, wireLabels_nil, List.length_cons,
      List.length_append, List.length_nil]
    omega
  | v6 cp =>
    show (wireLabels (_ ++ _)).length < 128
    rw [wireLabels_append, List.length_append, length_wireLabels_hex, List.length_reverse, List.length_finRange]
    decide

/-- The name that is asked for. -/
def Addr.name (addr : Addr) : DomainName where
  labels := addr.labels
  label_ok := fun l hl => by
    obtain ⟨hpos, hlen, -⟩ := addr.label_spec l hl
    omega
  fits := by
    have := addr.length_wireLabels
    omega

theorem Addr.labels_ne_nil (addr : Addr) : addr.labels ≠ [] := by
  cases addr <;> simp [Addr.labels]

theorem Addr.nameText_eq (addr : Addr) :
    nameText addr.labels = doQueryNumber addr ∧ (nameText addr.labels).length < 128 ∧
      (nameText addr.labels).map mklower = nameText addr.labels := by
  have hpos : ∀ l ∈ addr.labels, 0 < l.length := fun l hl => (addr.label_spec l hl).1
  have hlower : ∀ l ∈ addr.labels, Lower l := fun l hl => (addr.label_spec l hl).2.2
  obtain ⟨htext, hlen⟩ := nameText_lower hpos hlower addr.labels_ne_nil
  have hwire := addr.length_wireLabels
  refine ⟨htext, by omega, ?_⟩
  rw [← nameText_foldCase hpos, foldCase_lower hlower]

-- ============================================================================
-- Two addresses
-- ============================================================================

theorem fmtInt_injective {a b : UInt8} (h : fmtInt a.toNat = fmtInt b.toNat) : a = b := by
  have ha := atol_fmtInt (n := (a.toNat : Int)) (by have := a.toNat_lt; omega)
  have hb := atol_fmtInt (n := (b.toNat : Int)) (by have := b.toNat_lt; omega)
  rw [h, hb] at ha
  apply UInt8.toNat_inj.mp
  omega

theorem hexLabels_injective {a b : UInt8}
    (h : [hexLabel (a.toNat % 16), hexLabel (a.toNat / 16)] = [hexLabel (b.toNat % 16), hexLabel (b.toNat / 16)]) :
    a = b := by
  have hall : ∀ x y : Fin 16, hexLabel x = hexLabel y → x = y := by decide +kernel
  simp only [List.cons.injEq, and_true] at h
  have ha := a.toNat_lt
  have hb := b.toNat_lt
  have hlow := hall ⟨a.toNat % 16, by omega⟩ ⟨b.toNat % 16, by omega⟩ h.1
  have hhigh := hall ⟨a.toNat / 16, by omega⟩ ⟨b.toNat / 16, by omega⟩ h.2
  simp only [Fin.mk.injEq] at hlow hhigh
  apply UInt8.toNat_inj.mp
  omega

/-- Lists that are put together from pieces of two are equal piece by piece. -/
theorem eq_of_flatMap_eq {ι : Type} {f g : ι → List Bytes} (hf : ∀ i, (f i).length = 2) (hg : ∀ i, (g i).length = 2)
    {is : List ι} (h : is.flatMap f = is.flatMap g) : ∀ i ∈ is, f i = g i := by
  induction is with
  | nil => simp
  | cons i is ih =>
    rw [List.flatMap_cons, List.flatMap_cons] at h
    obtain ⟨hi, his⟩ := List.append_inj h (by rw [hf, hg])
    exact List.forall_mem_cons.mpr ⟨hi, ih his⟩

theorem Addr.labels_injective {addr addr' : Addr} (h : addr.labels = addr'.labels) : addr = addr' := by
  cases addr with
  | v4 cp =>
    cases addr' with
    | v4 cp' =>
      simp only [Addr.labels, List.cons_append, List.nil_append, List.cons.injEq, and_true] at h
      obtain ⟨h3, h2, h1, h0⟩ := h
      congr 1
      funext i
      match i with
      | 0 => exact fmtInt_injective h0
      | 1 => exact fmtInt_injective h1
      | 2 => exact fmtInt_injective h2
      | 3 => exact fmtInt_injective h3
    | v6 cp' =>
      have hlen := congrArg List.length h
      simp [Addr.labels] at hlen
  | v6 cp =>
    cases addr' with
    | v4 cp' =>
      have hlen := congrArg List.length h
      simp [Addr.labels] at hlen
    | v6 cp' =>
      have hflat := List.append_cancel_right (show _ ++ _ = _ ++ _ from h)
      congr 1
      funext i
      exact hexLabels_injective (eq_of_flatMap_eq (fun _ => rfl) (fun _ => rfl) hflat i (by simp))

-- ============================================================================
-- The query and its replies
-- ============================================================================

/-- With no earlier names, a name is written as it is. -/
theorem packLoop_alone (msg : Bytes) (room : Nat) {dstsiz : Nat} {ds : List Bytes}
    (hds : ∀ d ∈ ds, 0 < d.length ∧ d.length < 64) {dst : Bytes} (ptrs : List Nat) (first : Bool)
    (hfits : dst.length + (wireLabels ds).length + 1 < dstsiz) :
    ∃ ptrs', packLoop msg [] room dstsiz (wireLabels ds ++ [0]) dst ptrs first = .ok (dst ++ (wireLabels ds ++ [0])) ptrs' := by
  induction ds generalizing dst ptrs first with
  | nil =>
    rw [wireLabels_nil, List.length_nil] at hfits
    rw [wireLabels_nil, List.nil_append, packLoop_root, if_neg (by omega)]
    exact ⟨ptrs, rfl⟩
  | cons d ds ih =>
    obtain ⟨hd, hds⟩ := List.forall_mem_cons.mp hds
    have hsplit : wireLabels (d :: ds) ++ [0] = wireLabel d ++ (wireLabels ds ++ [0]) := by simp [wireLabel]
    have hlen : (dst ++ wireLabel d).length = dst.length + (d.length + 1) := by
      rw [List.length_append, wireLabel, List.length_cons]
    obtain ⟨ptrs', first', -, hstep⟩ := packLoop_missing dst ptrs first hd
      (rfl : ircDnFind msg (wireLabel d ++ (wireLabels ds ++ [0])) [] = .missing)
    rw [wireLabels_cons, List.length_cons, List.length_append] at hfits
    obtain ⟨ptrs'', hrest⟩ := ih hds ptrs' first' (show (dst ++ wireLabel d).length + _ + 1 < dstsiz by omega)
    refine ⟨ptrs'', ?_⟩
    rw [hsplit, hstep, if_neg (by omega), hrest]
    simp

/-- The query for an address holds its name. -/
theorem ircResMkquery_addr (addr : Addr) :
    ircResMkquery (doQueryNumber addr) cIn tPtr maxpacket =
      some (queryHeader ++ addr.name.wire ++ ircNsPut16 tPtr ++ ircNsPut16 cIn) := by
  have htext : ircNsNamePton (doQueryNumber addr) nsMaxcdname = .ok addr.name.wire addr.name.labels.isEmpty := by
    rw [← addr.nameText_eq.1]
    exact ircNsNamePton_text addr.name
  have hlegal : packLegal addr.name.wire 0 = true :=
    packLegal_wire addr.name.label_ok (by simpa [nsMaxcdname] using addr.name.fits)
  have hfits : ([] : Bytes).length + (wireLabels addr.name.labels).length + 1 < maxpacket - hfixedsz - qfixedsz := by
    have := addr.length_wireLabels
    simp only [List.length_nil, maxpacket, hfixedsz, qfixedsz]
    show 0 + (wireLabels addr.labels).length + 1 < _
    omega
  obtain ⟨ptrs, hloop⟩ := packLoop_alone queryHeader dnptrsRoom addr.name.label_ok [] true hfits
  have hpack : ircNsNamePack queryHeader addr.name.wire (maxpacket - hfixedsz - qfixedsz) [] dnptrsRoom =
      .ok addr.name.wire ptrs := by
    unfold ircNsNamePack
    rw [if_pos hlegal]
    exact hloop
  unfold ircResMkquery ircNsNameCompress
  rw [if_neg (by decide), htext]
  dsimp only
  rw [hpack]

/-- A reply that repeats the question about an address, under whatever header that counts one
    question and with whatever behind it, is an answer about this address and about no other. -/
theorem reply_answers_query (addr addr' : Addr) :
    ∃ query, ircResMkquery (doQueryNumber addr') cIn tPtr maxpacket = some query ∧
      ∀ (header : Fin 12 → UInt8) (more past : Bytes),
        checkQuestion (doQueryNumber addr) 1 (List.ofFn header ++ query.drop hfixedsz ++ more) past = true ↔
          addr = addr' := by
  refine ⟨_, ircResMkquery_addr addr', fun header more past => ?_⟩
  have hquestion : (queryHeader ++ addr'.name.wire ++ ircNsPut16 tPtr ++ ircNsPut16 cIn).drop hfixedsz =
      wireLabels addr'.labels ++ 0 :: (ircNsPut16 tPtr ++ ircNsPut16 cIn) := by
    show wireLabels addr'.labels ++ [0] ++ ircNsPut16 tPtr ++ ircNsPut16 cIn = _
    simp
  have hheader : (List.ofFn header).length = hfixedsz := List.length_ofFn
  have hdrop : (List.ofFn header ++ (queryHeader ++ addr'.name.wire ++ ircNsPut16 tPtr ++ ircNsPut16 cIn).drop hfixedsz ++
      more).drop hfixedsz = wireLabels addr'.labels ++ 0 :: (ircNsPut16 tPtr ++ ircNsPut16 cIn ++ more) := by
    rw [hquestion, List.append_assoc, List.drop_left' hheader]
    simp
  generalize List.ofFn header ++ _ ++ more = reply at hdrop ⊢
  obtain ⟨span, cost, hname, -, hcost, hstop⟩ :=
    (packedAt_wire addr'.name.label_ok hdrop).nameAt wireSize_wireLabel (Nat.le_refl hfixedsz)
  obtain ⟨htext, hlen, hlower⟩ := addr'.nameText_eq
  obtain ⟨htext', -, hlower'⟩ := addr.nameText_eq
  have hlt := hname.lt_length
  rw [checkQuestion_iff (d := addr'.name) hname (by omega) addr'.labels_ne_nil hlen, ← htext', hlower']
  show (nameText addr'.labels).map mklower = nameText addr.labels ↔ addr = addr'
  rw [hlower]
  constructor
  · intro h
    have hok := ircNsNamePton_text addr'.name
    rw [show nameText addr'.name.labels = nameText addr.name.labels from h, ircNsNamePton_text] at hok
    simp only [Pton.ok.injEq] at hok
    exact Addr.labels_injective (DomainName.labels_eq_of_wire hok.1)
  · rintro rfl
    rfl

end Bluebox.Resolver
