/-
  Bluebox.Resolver.Text

  Names as text: `irc_ns_name_ntop`, `irc_decode_bitstring` and `irc_ns_name_pton` of
  `resolver/reslib.c`.

  The characters that mean something in a zone file are written with a backslash, and
  those that cannot be seen with their three decimal digits.

  `irc_encode_bitsring` writes behind the pointer it is given and not behind what that
  points at.  The model says `wild` where it gets as far as that.

  `text_roundTrip`: a name is read back from its text, its text is written exactly where
  there is room, and what is read from any text is a name.
-/
import Bluebox.Resolver.Name

namespace Bluebox.Resolver

open Bluebox.Lib

-- ============================================================================
-- irc_ns_name_ntop
-- ============================================================================

/-- `special`. -/
def special (ch : UInt8) : Bool := ch ∈ ([0x22, 0x2E, 0x3B, 0x5C, 0x28, 0x29, 0x40, 0x24] : Bytes)

/-- `printable`. -/
def printable (ch : UInt8) : Bool := 0x20 < ch && ch < 0x7f

/-- A byte of `digits`. -/
def digit (n : Nat) : UInt8 := UInt8.ofNat (48 + n)

/-- What `irc_ns_name_ntop` writes for a byte of a label. -/
def ntopChar (c : UInt8) : Bytes :=
  if special c then [0x5C, c]
  else if !printable c then [0x5C, digit (c.toNat / 100), digit (c.toNat % 100 / 10), digit (c.toNat % 10)]
  else [c]

/-- The inner loop of `irc_ns_name_ntop`: the bytes of a label, with `dn` before them.  A byte
    needs room for all that is written for it. -/
def ntopLabel (dstsiz : Nat) (dn : Bytes) : Bytes → Option Bytes
  | [] => some dn
  | c :: cp =>
    if dn.length + ((ntopChar c).length - 1) ≥ dstsiz then none else ntopLabel dstsiz (dn ++ ntopChar c) cp

/-- A digit of `%x`. -/
def hexChar (d : Nat) : UInt8 := if d < 10 then UInt8.ofNat (48 + d) else UInt8.ofNat (87 + d)

/-- `%02x`, of a number below 4096. -/
def hexPair (n : Nat) : Bytes :=
  if n < 256 then [hexChar (n / 16), hexChar (n % 16)] else [hexChar (n / 256), hexChar (n / 16 % 16), hexChar (n % 16)]

/-- `irc_decode_bitstring`: what stands in `dst` afterwards.  The last byte is a `char`, and
    what it is masked with is wider than a byte. -/
def ircDecodeBitstring (dstsiz : Nat) (dn cp : Bytes) : Option Bytes :=
  match cp with
  | [] => none
  | b0 :: cp =>
    let blen := if b0 = 0 then 256 else b0.toNat
    let plen := (blen + 3) / 4 + (6 + if blen > 99 then 3 else if blen > 9 then 2 else 1)
    if dn.length + plen ≥ dstsiz then none
    else
      let b := blen % 8
      let tc := (cp.drop (blen / 8)).headD 0
      let last :=
        if b > 4 then hexPair ((if tc.toNat < 128 then tc.toNat else tc.toNat + 0xffffff00) &&& 0xff <<< (8 - b))
        else if b > 0 then [hexChar ((tc.toNat >>> 4 &&& 0x0f) &&& 0x0f <<< (4 - b))]
        else []
      some (dn ++ [0x5C, 0x5B, 0x78] ++ (cp.take (blen / 8)).flatMap (fun c => hexPair c.toNat) ++ last ++ [0x2F] ++
        fmtInt blen ++ [0x5D])

/-- The loop of `irc_ns_name_ntop`.  Behind a bit string it goes on as behind any label. -/
def ntopLoop (dstsiz : Nat) : Bytes → Bytes → Option Bytes
  | [], _ => none
  | n :: cp, dn =>
    if n = 0 then some dn
    else if n &&& nsCmprsflgs = nsCmprsflgs then none
    else if dn ≠ [] ∧ dn.length ≥ dstsiz then none
    else
      let dn := if dn = [] then dn else dn ++ [0x2E]
      match labellen (n :: cp) with
      | none => none
      | some l =>
        if dn.length + l ≥ dstsiz then none
        else if n &&& nsCmprsflgs = nsTypeElt then
          if n ≠ dnsLabeltypeBitstring then none
          else (ircDecodeBitstring dstsiz dn cp).bind fun dn => ntopLoop dstsiz (cp.drop l) dn
        else (ntopLabel dstsiz dn (cp.take l)).bind fun dn => ntopLoop dstsiz (cp.drop l) dn
termination_by src => src.length
decreasing_by
  all_goals
    simp only [List.length_cons, List.length_drop]
    omega

/-- `irc_ns_name_ntop`: the string in `dst`. -/
def ircNsNameNtop (src : Bytes) (dstsiz : Nat) : Option Bytes :=
  (ntopLoop dstsiz src []).bind fun dn =>
    if dn = [] ∧ dn.length ≥ dstsiz then none
    else
      let dn := if dn = [] then [0x2E] else dn
      if dn.length ≥ dstsiz then none else some dn

-- ============================================================================
-- irc_ns_name_pton
-- ============================================================================

/-- How `irc_ns_name_pton` ends: with what is in `dst` and whether the name was fully
    qualified, or with -1.  `wild` is a write to a place that nothing reserves. -/
inductive Pton where
  | wild
  | fail
  | ok (dst : Bytes) (qualified : Bool)
  deriving DecidableEq

/-- `isxdigit`. -/
def isHex (c : UInt8) : Bool := isDigit c || (97 ≤ c && c ≤ 102) || (65 ≤ c && c ≤ 70)

/-- A bit string in the text, from behind its `[`.  `irc_encode_bitsring` rejects some of them
    before it writes. -/
def ptonBitstring (src : Bytes) : Pton :=
  if (0x5D : UInt8) ∉ src then .fail
  else if src.head? ≠ some 0x78 then .fail
  else if !isHex (src.tail.headD 0) then .fail
  else .wild

/-- The end of a name: `label` is behind the labels of `done`, and `cur` is behind `label`. -/
def ptonFinish (dstsiz : Nat) (done cur : Bytes) (qualified : Bool) : Pton :=
  if cur.length &&& 0xc0 ≠ 0 then .fail
  else if done.length ≥ dstsiz then .fail
  else if cur.length ≠ 0 ∧ done.length + 1 + cur.length ≥ dstsiz then .fail
  else
    let dst := done ++ wireLabel cur ++ if cur.length ≠ 0 then [0] else []
    if dst.length > nsMaxcdname then .fail else .ok dst qualified

/-- The three digits of `\ddd`. -/
def ptonDigits (c d e : UInt8) : Nat := (c.toNat - 48) * 100 + (d.toNat - 48) * 10 + (e.toNat - 48)

/-- The loop of `irc_ns_name_pton`. -/
def ptonLoop (dstsiz : Nat) : Bytes → Bytes → Bytes → Bool → Pton
  | [], done, cur, _ => ptonFinish dstsiz done cur false
  | c :: src, done, cur, true =>
    if c = 0x5B then ptonBitstring src
    else if isDigit c then
      match src with
      | d :: e :: src =>
        if isDigit d && isDigit e then
          if ptonDigits c d e > 255 then .fail
          else if done.length + 1 + cur.length ≥ dstsiz then .fail
          else ptonLoop dstsiz src done (cur ++ [UInt8.ofNat (ptonDigits c d e)]) false
        else .fail
      | _ => .fail
    else if done.length + 1 + cur.length ≥ dstsiz then .fail
    else ptonLoop dstsiz src done (cur ++ [c]) false
  | c :: src, done, cur, false =>
    if c = 0x5C then ptonLoop dstsiz src done cur true
    else if c = 0x2E then
      if src = [] then ptonFinish dstsiz done cur true
      else if cur.length &&& 0xc0 ≠ 0 then .fail
      else if done.length ≥ dstsiz then .fail
      else if cur.length = 0 ∨ src.head? = some 0x2E then .fail
      else ptonLoop dstsiz src (done ++ wireLabel cur) [] false
    else if done.length + 1 + cur.length ≥ dstsiz then .fail
    else ptonLoop dstsiz src done (cur ++ [c]) false

/-- `irc_ns_name_pton`. -/
def ircNsNamePton (src : Bytes) (dstsiz : Nat) : Pton := ptonLoop dstsiz src [] [] false

-- ============================================================================
-- The text of a name
-- ============================================================================

/-- The text of a label. -/
def labelText (l : Bytes) : Bytes := l.flatMap ntopChar

/-- Labels behind what has been written of a name. -/
def joinText (dn : Bytes) (ls : List Bytes) : Bytes :=
  ls.foldl (fun dn l => (if dn = [] then dn else dn ++ [0x2E]) ++ labelText l) dn

/-- The text of a name. -/
def nameText (ls : List Bytes) : Bytes := if ls = [] then [0x2E] else joinText [] ls

/-- What a byte is written as, and how it starts. -/
theorem ntopChar_cases (c : UInt8) :
    (ntopChar c = [0x5C, c] ∧ c ≠ 0x5B ∧ isDigit c = false) ∨
    (∃ d e f, ntopChar c = [0x5C, d, e, f] ∧ isDigit d = true ∧ isDigit e = true ∧ isDigit f = true ∧
      d ≠ 0x5B ∧ ptonDigits d e f = c.toNat) ∨
    (ntopChar c = [c] ∧ c ≠ 0x5C ∧ c ≠ 0x2E) := by
  have hlt := c.toNat_lt
  unfold ntopChar
  split
  next h =>
    refine .inl ⟨rfl, ?_⟩
    simp only [special, decide_eq_true_eq, List.mem_cons, List.not_mem_nil, or_false] at h
    rcases h with rfl | rfl | rfl | rfl | rfl | rfl | rfl | rfl <;> decide
  next h =>
    split
    · refine .inr (.inl ⟨_, _, _, rfl, isDigit_digit (by omega), isDigit_digit (by omega), isDigit_digit (by omega), ?_, ?_⟩)
      · intro heq
        have hval := congrArg UInt8.toNat heq
        rw [digit, toNat_digit (by omega)] at hval
        have : (0x5B : UInt8).toNat = 91 := rfl
        omega
      · simp only [ptonDigits, digit]
        rw [toNat_digit (by omega), toNat_digit (by omega), toNat_digit (by omega)]
        omega
    · refine .inr (.inr ⟨rfl, ?_, ?_⟩) <;> rintro rfl <;> simp [special] at h

theorem ntopChar_length_pos (c : UInt8) : 0 < (ntopChar c).length := by
  rcases ntopChar_cases c with ⟨h, -⟩ | ⟨d, e, f, h, -⟩ | ⟨h, -⟩ <;> simp [h]

theorem length_le_labelText (l : Bytes) : l.length ≤ (labelText l).length := by
  induction l with
  | nil => simp
  | cons c l ih =>
    have := ntopChar_length_pos c
    simp only [labelText, List.flatMap_cons, List.length_append, List.length_cons] at ih ⊢
    omega

@[simp] theorem joinText_nil (dn : Bytes) : joinText dn [] = dn := rfl

@[simp] theorem joinText_cons (dn l : Bytes) (ls : List Bytes) :
    joinText dn (l :: ls) = joinText ((if dn = [] then dn else dn ++ [0x2E]) ++ labelText l) ls := rfl

/-- What is written in front of a label. -/
def dotted (dn : Bytes) : Bytes := if dn = [] then dn else dn ++ [0x2E]

theorem length_le_dotted (dn : Bytes) : dn.length ≤ (dotted dn).length := by
  unfold dotted
  split <;> simp

/-- Labels only add to the text. -/
theorem length_le_joinText (ls : List Bytes) (dn : Bytes) : dn.length ≤ (joinText dn ls).length := by
  induction ls generalizing dn with
  | nil => exact Nat.le_refl _
  | cons l ls ih =>
    have hdot := length_le_dotted dn
    have hrest := ih (dotted dn ++ labelText l)
    rw [List.length_append] at hrest
    show dn.length ≤ (joinText (dotted dn ++ labelText l) ls).length
    omega

theorem joinText_ne_nil {ls : List Bytes} (hls : ∀ l ∈ ls, 0 < l.length) (h : ls ≠ []) (dn : Bytes) :
    joinText dn ls ≠ [] := by
  cases ls with
  | nil => exact absurd rfl h
  | cons l ls =>
    have hl := hls l List.mem_cons_self
    have htext := length_le_labelText l
    have hrest := length_le_joinText ls (dotted dn ++ labelText l)
    rw [List.length_append] at hrest
    intro hnil
    have hlen : (joinText (dotted dn ++ labelText l) ls).length = 0 := List.length_eq_zero_iff.mpr hnil
    omega

-- ============================================================================
-- Writing the text
-- ============================================================================

theorem ntopLabel_eq (dstsiz : Nat) (l dn : Bytes) (hdn : dn.length ≤ dstsiz) :
    ntopLabel dstsiz dn l = if (dn ++ labelText l).length ≤ dstsiz then some (dn ++ labelText l) else none := by
  induction l generalizing dn with
  | nil => simp [ntopLabel, labelText, hdn]
  | cons c l ih =>
    have hpos := ntopChar_length_pos c
    have htext : dn ++ labelText (c :: l) = dn ++ ntopChar c ++ labelText l := by simp [labelText]
    rw [ntopLabel, htext]
    split
    next hfull =>
      rw [if_neg]
      simp only [List.length_append]
      omega
    next hroom =>
      apply ih
      simp only [List.length_append]
      omega

theorem ntopLoop_label (dstsiz : Nat) {l : Bytes} (hl : 0 < l.length ∧ l.length < 64) (rest dn : Bytes) :
    ntopLoop dstsiz (wireLabel l ++ rest) dn =
      if dn ≠ [] ∧ dn.length ≥ dstsiz then none
      else if (dotted dn).length + l.length ≥ dstsiz then none
      else (ntopLabel dstsiz (dotted dn) l).bind fun dn => ntopLoop dstsiz rest dn := by
  have hn := toNat_length_byte hl.2
  obtain ⟨-, helt, hptr⟩ := cmprsflgs_iff (UInt8.ofNat l.length)
  obtain ⟨hne, hnp⟩ := wireLabel_ne_zero hl
  have hnelt : ¬ UInt8.ofNat l.length &&& nsCmprsflgs = nsTypeElt := by
    rw [helt]
    omega
  have hlen : labellen (UInt8.ofNat l.length :: (l ++ rest)) = some l.length := labellen_wireLabel hl.2 rest
  show ntopLoop dstsiz (UInt8.ofNat l.length :: (l ++ rest)) dn = _
  rw [ntopLoop, if_neg hne, if_neg (fun h => hnp (hptr.mp h))]
  by_cases hfull : dn ≠ [] ∧ dn.length ≥ dstsiz
  · rw [if_pos hfull, if_pos hfull]
  · rw [if_neg hfull, if_neg hfull]
    simp only [hlen, if_neg hnelt, List.take_left, List.drop_left]
    rfl

theorem ntopLoop_root (dstsiz : Nat) (more dn : Bytes) : ntopLoop dstsiz (0 :: more) dn = some dn := by
  rw [ntopLoop, if_pos rfl]

/-- The loop writes the labels, or nothing. -/
theorem ntopLoop_some {dstsiz : Nat} {ls : List Bytes} (hls : ∀ l ∈ ls, 0 < l.length ∧ l.length < 64)
    {more dn r : Bytes} (h : ntopLoop dstsiz (wireLabels ls ++ 0 :: more) dn = some r) : r = joinText dn ls := by
  induction ls generalizing dn with
  | nil =>
    rw [wireLabels_nil, List.nil_append, ntopLoop_root] at h
    exact (Option.some.inj h).symm
  | cons l ls ih =>
    obtain ⟨hl, hls⟩ := List.forall_mem_cons.mp hls
    have hsplit : wireLabels (l :: ls) ++ 0 :: more = wireLabel l ++ (wireLabels ls ++ 0 :: more) := by
      simp [wireLabel]
    rw [hsplit, ntopLoop_label dstsiz hl] at h
    split at h
    · simp at h
    · split at h
      · simp at h
      · rw [ntopLabel_eq _ _ _ (by omega)] at h
        split at h
        · exact ih hls h
        · simp at h

/-- Where there is room for the labels and a byte more, the loop writes them. -/
theorem ntopLoop_fits {dstsiz : Nat} {ls : List Bytes} (hls : ∀ l ∈ ls, 0 < l.length ∧ l.length < 64)
    {dn : Bytes} (h : (joinText dn ls).length < dstsiz) (more : Bytes) :
    ntopLoop dstsiz (wireLabels ls ++ 0 :: more) dn = some (joinText dn ls) := by
  induction ls generalizing dn with
  | nil => rw [wireLabels_nil, List.nil_append, ntopLoop_root, joinText_nil]
  | cons l ls ih =>
    obtain ⟨hl, hls⟩ := List.forall_mem_cons.mp hls
    have hsplit : wireLabels (l :: ls) ++ 0 :: more = wireLabel l ++ (wireLabels ls ++ 0 :: more) := by
      simp [wireLabel]
    have hall : (dotted dn ++ labelText l).length ≤ (joinText dn (l :: ls)).length := length_le_joinText ls _
    have hdot := length_le_dotted dn
    have htext := length_le_labelText l
    have hsum := hall
    rw [List.length_append] at hsum
    rw [hsplit, ntopLoop_label dstsiz hl, if_neg (by omega), if_neg (by omega), ntopLabel_eq _ _ _ (by omega),
      if_pos (by omega)]
    exact ih hls h

/-- The text of a name is written where it fits with its NUL. -/
theorem ircNsNameNtop_wire (d : DomainName) (dstsiz : Nat) :
    ircNsNameNtop d.wire dstsiz = if (nameText d.labels).length < dstsiz then some (nameText d.labels) else none := by
  unfold ircNsNameNtop DomainName.wire
  by_cases hnil : d.labels = []
  · rw [hnil, wireLabels_nil, List.nil_append, ntopLoop_root]
    cases dstsiz with
    | zero => rfl
    | succ n => cases n <;> simp [nameText]
  · have hne := joinText_ne_nil (fun l hl => (d.label_ok l hl).1) hnil []
    have htext : nameText d.labels = joinText [] d.labels := if_neg hnil
    rw [htext]
    split
    next hfits =>
      rw [ntopLoop_fits d.label_ok hfits []]
      simp [hne, hfits]
    next hlong =>
      cases hloop : ntopLoop dstsiz (wireLabels d.labels ++ [0]) [] with
      | none => rfl
      | some r =>
        obtain rfl := ntopLoop_some d.label_ok hloop
        simp only [Option.bind_some, hne, false_and, if_false]
        rw [if_pos (by omega)]

-- ============================================================================
-- Reading the text
-- ============================================================================

section Read

variable {dstsiz : Nat} {src done cur : Bytes}

/-- The length of a label has none of the two bits set. -/
theorem land_cmprsflgs_eq_zero_iff {n : Nat} (h : n < 256) : n &&& 0xc0 = 0 ↔ n < 64 := by
  have hall : ∀ x : Fin 256, x.val &&& 0xc0 = 0 ↔ x.val < 64 := by decide +kernel
  exact hall ⟨n, h⟩

theorem ptonLoop_escaped {c : UInt8} (hopen : c ≠ 0x5B) (hdigit : isDigit c = false) :
    ptonLoop dstsiz (c :: src) done cur true =
      if done.length + 1 + cur.length ≥ dstsiz then .fail else ptonLoop dstsiz src done (cur ++ [c]) false := by
  rcases src with _ | ⟨d, _ | ⟨e, src⟩⟩ <;> simp [ptonLoop, hopen, hdigit]

theorem ptonLoop_char (c : UInt8) :
    ptonLoop dstsiz (ntopChar c ++ src) done cur false =
      if done.length + 1 + cur.length ≥ dstsiz then .fail else ptonLoop dstsiz src done (cur ++ [c]) false := by
  rcases ntopChar_cases c with ⟨h, hopen, hdigit⟩ | ⟨d, e, f, h, hd, he, hf, hopen, hval⟩ | ⟨h, hslash, hdot⟩
  · rw [h]
    show ptonLoop dstsiz (0x5C :: c :: src) done cur false = _
    rw [ptonLoop, if_pos rfl, ptonLoop_escaped hopen hdigit]
  · have hle : ¬ c.toNat > 255 := by
      have := c.toNat_lt
      omega
    rw [h]
    show ptonLoop dstsiz (0x5C :: d :: e :: f :: src) done cur false = _
    rw [ptonLoop, if_pos rfl, ptonLoop, if_neg hopen, if_pos hd]
    simp only [he, hf, Bool.and_self, if_true, if_neg hle, hval, UInt8.ofNat_toNat]
  · rw [h]
    show ptonLoop dstsiz (c :: src) done cur false = _
    rw [ptonLoop, if_neg hslash, if_neg hdot]

theorem ptonLoop_label {l : Bytes} (h : done.length + 1 + (cur ++ l).length ≤ dstsiz) :
    ptonLoop dstsiz (labelText l ++ src) done cur false = ptonLoop dstsiz src done (cur ++ l) false := by
  induction l generalizing cur with
  | nil => simp [labelText]
  | cons c l ih =>
    have htext : labelText (c :: l) ++ src = ntopChar c ++ (labelText l ++ src) := by simp [labelText]
    rw [List.length_append, List.length_cons] at h
    rw [htext, ptonLoop_char, if_neg (by omega), ih (by simp only [List.length_append, List.length_singleton]; omega),
      List.append_assoc, List.singleton_append]

theorem labelText_head {l : Bytes} (h : 0 < l.length) : ∃ c t, labelText l = c :: t ∧ c ≠ 0x2E := by
  cases l with
  | nil => simp at h
  | cons c l =>
    rcases ntopChar_cases c with ⟨hc, -⟩ | ⟨d, e, f, hc, -⟩ | ⟨hc, -, hdot⟩
    · exact ⟨0x5C, c :: labelText l, by simp [labelText, hc], by decide⟩
    · exact ⟨0x5C, d :: e :: f :: labelText l, by simp [labelText, hc], by decide⟩
    · exact ⟨c, labelText l, by simp [labelText, hc], hdot⟩

/-- The labels that come behind others in a text. -/
def moreText (ls : List Bytes) : Bytes := ls.flatMap fun l => 0x2E :: labelText l

theorem joinText_eq {dn : Bytes} (h : dn ≠ []) (ls : List Bytes) : joinText dn ls = dn ++ moreText ls := by
  induction ls generalizing dn with
  | nil => simp [moreText]
  | cons l ls ih =>
    rw [joinText_cons, if_neg h, ih (by simp [h])]
    simp [moreText]

theorem nameText_cons {l : Bytes} (hl : 0 < l.length) (ls : List Bytes) :
    nameText (l :: ls) = labelText l ++ moreText ls := by
  obtain ⟨c, t, htext, -⟩ := labelText_head hl
  show joinText (labelText l) ls = _
  exact joinText_eq (by simp [htext]) ls

/-- The text of labels is read, with `cur` as the label before them. -/
theorem ptonLoop_more {ls : List Bytes} (hls : ∀ l ∈ ls, 0 < l.length ∧ l.length < 64)
    (hcur : 0 < cur.length ∧ cur.length < 64)
    (hfits : done.length + (cur.length + 1) + (wireLabels ls).length < nsMaxcdname) :
    ptonLoop nsMaxcdname (moreText ls) done cur false =
      .ok (done ++ wireLabel cur ++ (wireLabels ls ++ [0])) false := by
  have hland : cur.length &&& 0xc0 = 0 := (land_cmprsflgs_eq_zero_iff (by omega)).mpr hcur.2
  have hwire : (wireLabel cur).length = cur.length + 1 := List.length_cons
  induction ls generalizing done cur with
  | nil =>
    rw [wireLabels_nil, List.length_nil] at hfits
    show ptonFinish nsMaxcdname done cur false = _
    unfold ptonFinish
    rw [if_neg (by omega), if_neg (by omega), if_neg (by omega)]
    simp only [if_pos (show cur.length ≠ 0 by omega), List.length_append, hwire, List.length_singleton,
      wireLabels_nil, List.nil_append]
    rw [if_neg (by omega)]
  | cons l ls ih =>
    obtain ⟨hl, hls⟩ := List.forall_mem_cons.mp hls
    obtain ⟨c, t, htext, hdot⟩ := labelText_head hl.1
    rw [wireLabels_cons, List.length_cons, List.length_append] at hfits
    have hsrc : labelText l ++ moreText ls ≠ [] := by simp [htext]
    have hhead : (labelText l ++ moreText ls).head? ≠ some 0x2E := by simpa [htext] using hdot
    show ptonLoop nsMaxcdname (0x2E :: (labelText l ++ moreText ls)) done cur false = _
    rw [ptonLoop, if_neg (by decide), if_pos rfl, if_neg hsrc, if_neg (by omega), if_neg (by omega),
      if_neg (by rintro (h | h); exacts [by omega, hhead h]),
      ptonLoop_label (by simp only [List.length_append, hwire, List.nil_append]; omega), List.nil_append,
      ih hls hl (by rw [List.length_append, hwire]; omega)
        ((land_cmprsflgs_eq_zero_iff (by omega)).mpr hl.2) List.length_cons]
    simp [wireLabel]

/-- A name is read back from its text. -/
theorem ircNsNamePton_text (d : DomainName) :
    ircNsNamePton (nameText d.labels) nsMaxcdname = .ok d.wire (d.labels.isEmpty) := by
  obtain ⟨ls, hls, hfits⟩ := d
  show ircNsNamePton (nameText ls) nsMaxcdname = .ok (wireLabels ls ++ [0]) ls.isEmpty
  cases ls with
  | nil => decide
  | cons l ls =>
    obtain ⟨hl, hls⟩ := List.forall_mem_cons.mp hls
    rw [wireLabels_cons, List.length_cons, List.length_append] at hfits
    unfold ircNsNamePton
    rw [nameText_cons hl.1, ptonLoop_label (by simp only [List.length_nil, List.nil_append, nsMaxcdname]; omega), List.nil_append,
      ptonLoop_more hls hl (by simp only [List.length_nil, nsMaxcdname]; omega)]
    simp [wireLabel]

/-- What the end of `irc_ns_name_pton` leaves is a name. -/
theorem ptonFinish_name {ls : List Bytes} {wire : Bytes} {qualified q : Bool}
    (hls : ∀ l ∈ ls, 0 < l.length ∧ l.length < 64) (hcur : cur.length < 256)
    (h : ptonFinish dstsiz (wireLabels ls) cur qualified = .ok wire q) : ∃ d : DomainName, wire = d.wire := by
  unfold ptonFinish at h
  generalize hdst : wireLabels ls ++ wireLabel cur ++ (if cur.length ≠ 0 then [0] else []) = dst at h
  have hland : cur.length < 64 := by
    rw [← land_cmprsflgs_eq_zero_iff hcur]
    by_contra hne
    simp [hne] at h
  obtain ⟨hlong, rfl⟩ : dst.length ≤ nsMaxcdname ∧ dst = wire := by
    dsimp only at h
    split_ifs at h with h1 h2 h3 h4
    simp only [Pton.ok.injEq] at h
    exact ⟨by omega, h.1⟩
  rw [← hdst] at hlong ⊢
  by_cases hnil : cur = []
  · subst hnil
    refine ⟨⟨ls, hls, ?_⟩, by simp [DomainName.wire, wireLabel]⟩
    simp only [wireLabel, nsMaxcdname, List.length_append, List.length_cons, List.length_nil] at hlong
    omega
  · have hpos : 0 < cur.length := List.length_pos_of_ne_nil hnil
    rw [if_pos (by omega)] at hlong ⊢
    have hwire : wireLabels (ls ++ [cur]) = wireLabels ls ++ wireLabel cur := by
      simp [wireLabels_append, wireLabel]
    refine ⟨⟨ls ++ [cur], ?_, ?_⟩, ?_⟩
    · simpa [or_imp, forall_and, hpos, hland] using hls
    · rw [hwire]
      simp only [nsMaxcdname, List.length_append, List.length_singleton] at hlong ⊢
      omega
    · show _ = wireLabels (ls ++ [cur]) ++ [0]
      rw [hwire]

/-- What is read from a text is a name. -/
theorem ptonLoop_name {escaped : Bool} {wire : Bytes} {q : Bool} {ls : List Bytes} (hdone : done = wireLabels ls)
    (hls : ∀ l ∈ ls, 0 < l.length ∧ l.length < 64) (hcur : cur = [] ∨ done.length + 1 + cur.length ≤ 255)
    (hsize : dstsiz ≤ 255) (h : ptonLoop dstsiz src done cur escaped = .ok wire q) :
    ∃ d : DomainName, wire = d.wire := by
  have hput : ∀ {done cur : Bytes} (c : UInt8), ¬ done.length + 1 + cur.length ≥ dstsiz →
      cur ++ [c] = [] ∨ done.length + 1 + (cur ++ [c]).length ≤ 255 := by
    intro done cur c hroom
    simp only [List.length_append, List.length_singleton]
    omega
  have hshort : ∀ {done cur : Bytes}, cur = [] ∨ done.length + 1 + cur.length ≤ 255 → cur.length < 256 := by
    rintro done cur (rfl | hcur)
    · simp
    · omega
  fun_induction ptonLoop dstsiz src done cur escaped generalizing ls with
  | case1 done cur escaped =>
    subst hdone
    exact ptonFinish_name hls (hshort hcur) h
  | case2 src done cur =>
    unfold ptonBitstring at h
    split_ifs at h
  | case5 done cur c hopen hdigit d e src hdigits hle hroom ih => exact ih hdone hls (hput _ hroom) h
  | case9 c src done cur hopen hdigit hroom ih => exact ih hdone hls (hput _ hroom) h
  | case10 src done cur ih => exact ih hdone hls hcur h
  | case11 done cur hslash =>
    subst hdone
    exact ptonFinish_name hls (hshort hcur) h
  | case15 src done cur hsrc hland hlabel hempty hslash ih =>
    have hlen : 0 < cur.length ∧ cur.length < 64 := by
      rw [not_not, land_cmprsflgs_eq_zero_iff (hshort hcur)] at hland
      omega
    have hdone' : done ++ wireLabel cur = wireLabels (ls ++ [cur]) := by
      simp [hdone, wireLabels_append, wireLabel]
    refine ih hdone' ?_ (.inl rfl) h
    simpa [or_imp, forall_and, hlen] using hls
  | case17 c src done cur hslash hdot hroom ih => exact ih hdone hls (hput _ hroom) h
  | _ => simp at h

end Read

/-- Text and wire form go over into each other: the text of a name is written where it fits,
    whatever is written for a name reads as that name, and whatever text is read without
    harm is read as a name. -/
theorem text_roundTrip :
    (∀ (d : DomainName) (dstsiz : Nat), ircNsNameNtop d.wire dstsiz =
      if (nameText d.labels).length < dstsiz then some (nameText d.labels) else none) ∧
    (∀ (d : DomainName) (dstsiz : Nat) (text : Bytes), ircNsNameNtop d.wire dstsiz = some text →
      ircNsNamePton text nsMaxcdname = .ok d.wire d.labels.isEmpty) ∧
    (∀ (text wire : Bytes) (q : Bool), ircNsNamePton text nsMaxcdname = .ok wire q →
      ∃ d : DomainName, wire = d.wire) := by
  refine ⟨ircNsNameNtop_wire, fun d dstsiz text h => ?_, fun text wire q h => ?_⟩
  · rw [ircNsNameNtop_wire] at h
    split at h
    · rw [← Option.some.inj h]
      exact ircNsNamePton_text d
    · simp at h
  · have hnil : ([] : Bytes) = wireLabels [] := rfl
    exact ptonLoop_name hnil (by simp) (.inl rfl) (Nat.le_refl _) h

end Bluebox.Resolver
