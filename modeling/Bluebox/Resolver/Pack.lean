/-
  Bluebox.Resolver.Pack

  Names with pointers: `irc_dn_find`, `irc_ns_name_pack` and `irc_ns_name_compress` of
  `resolver/reslib.c`.

  A message is put together from bytes and names.  A name that is not found among the
  earlier ones is written, and its place is kept in `dnptrs`; as soon as the rest of one
  is found, a pointer ends it.

  `packed_names_read`: however a message is put together, every name in it is read again
  as it was given, up to the case of its letters, and no search among the names goes on
  for ever.
-/
import Bluebox.Resolver.Text

namespace Bluebox.Resolver

open Bluebox.Lib

-- ============================================================================
-- irc_dn_find
-- ============================================================================

/-- `mklower`. -/
def mklower (ch : UInt8) : UInt8 := if 0x41 ≤ ch ∧ ch ≤ 0x5A then ch + 0x20 else ch

/-- How a search ends: at an offset, with nothing found, at a label of a type there is not, or
    never. -/
inductive Search where
  | found (off : Nat)
  | missing
  | illegal
  | endless
  deriving DecidableEq

/-- The loop of `irc_dn_find` that compares the name at `cp` with the rest `dn` of the domain:
    `sp` is found when both end together.  A label is the smallest thing that is compared;
    pointers are followed `fuel` times at most, with the labels counted too. -/
def compareNames (msg : Bytes) (sp : Nat) : Nat → Bytes → Nat → Search
  | 0, _, _ => .endless
  | fuel + 1, dn, cp =>
    match msg.drop cp with
    | [] => .missing
    | n :: rest =>
      if n = 0 then .missing
      else if n &&& nsCmprsflgs = 0 then
        let l := (labellen (n :: rest)).getD 0
        if dn.head? ≠ some n then .missing
        else if (dn.tail.take l).map mklower ≠ (rest.take l).map mklower then .missing
        else if dn.tail.drop l = [] ∨ (dn.tail.drop l).head? = some 0 then
          if (msg.drop (cp + 1 + l)).head? = some 0 then .found sp else .missing
        else compareNames msg sp fuel (dn.tail.drop l) (cp + 1 + l)
      else if n &&& nsCmprsflgs = nsCmprsflgs then
        match rest with
        | [] => .missing
        | lo :: _ => compareNames msg sp fuel dn (indirection n lo)
      else .illegal

/-- The loop of `irc_dn_find` over the labels of an entry.  No name of 255 bytes has as many
    labels and pointers as `fuel`. -/
def findFrom (msg domain : Bytes) (sp : Nat) : Search :=
  match _hd : msg.drop sp with
  | [] => .missing
  | n :: _ =>
    if n ≠ 0 ∧ n &&& nsCmprsflgs = 0 ∧ sp < 0x4000 then
      match compareNames msg sp (2 * nsMaxcdname) domain sp with
      | .missing => findFrom msg domain (sp + n.toNat + 1)
      | r => r
    else .missing
termination_by msg.length - sp
decreasing_by
  have hlt : sp < msg.length := by
    rw [← Nat.not_le, ← List.drop_eq_nil_iff, _hd]
    simp
  omega

/-- `irc_dn_find`, over the entries from `dnptrs` to `lastdnptr`. -/
def ircDnFind (msg domain : Bytes) : List Nat → Search
  | [] => .missing
  | sp :: cpp =>
    match findFrom msg domain sp with
    | .missing => ircDnFind msg domain cpp
    | r => r

-- ============================================================================
-- irc_ns_name_pack
-- ============================================================================

/-- How `irc_ns_name_pack` ends: with the bytes at `dst` and the entries of `dnptrs` behind
    the first, with -1, or in a search that does not end; `irc_ns_name_compress` may not get
    as far. -/
inductive Packed where
  | wild
  | endless
  | fail
  | ok (dst : Bytes) (dnptrs : List Nat)
  deriving DecidableEq

/-- The loop of `irc_ns_name_pack` that looks whether the name is legal: `l` is how much of it
    has been seen. -/
def packLegal : Bytes → Nat → Bool
  | [], _ => false
  | n :: src, l =>
    if n &&& nsCmprsflgs = nsCmprsflgs then false
    else
      match labellen (n :: src) with
      | none => false
      | some l0 =>
        if l + (l0 + 1) > nsMaxcdname then false
        else if n = 0 then true
        else packLegal (src.drop l0) (l + (l0 + 1))
termination_by src => src.length
decreasing_by
  simp only [List.length_cons, List.length_drop]
  omega

/-- The loop of `irc_ns_name_pack` that copies labels.  `msg` is what is in front of `dst`,
    `search` are the entries that are there at the start, and `room` is how many there can
    be; `first` is set until an entry has been made. -/
def packLoop (msg : Bytes) (search : List Nat) (room dstsiz : Nat) : Bytes → Bytes → List Nat → Bool → Packed
  | [], _, _, _ => .fail
  | n :: src, dst, ptrs, first =>
    match if n ≠ 0 then ircDnFind msg (n :: src) search else .missing with
    | .endless => .endless
    | .found l =>
      if dst.length + 1 ≥ dstsiz then .fail
      else .ok (dst ++ [UInt8.ofNat (l / 256) ||| nsCmprsflgs, UInt8.ofNat (l % 256)]) ptrs
    | _ =>
      let save := n ≠ 0 ∧ ptrs.length < room ∧ msg.length + dst.length < 0x4000 ∧ first
      let ptrs := if save then ptrs ++ [msg.length + dst.length] else ptrs
      let first := if save then false else first
      if n &&& nsCmprsflgs = nsCmprsflgs then .fail
      else
        let l := (labellen (n :: src)).getD 0
        if dst.length + 1 + l ≥ dstsiz then .fail
        else
          let dst := dst ++ n :: src.take l
          if l = 0 then .ok dst ptrs else packLoop msg search room dstsiz (src.drop l) dst ptrs first
termination_by src => src.length
decreasing_by
  simp only [List.length_cons, List.length_drop]
  omega

/-- `irc_ns_name_pack`, with the start of the message as the first entry of `dnptrs`. -/
def ircNsNamePack (msg src : Bytes) (dstsiz : Nat) (dnptrs : List Nat) (room : Nat) : Packed :=
  if packLegal src 0 then packLoop msg dnptrs room dstsiz src [] dnptrs true else .fail

/-- `irc_ns_name_compress`. -/
def ircNsNameCompress (msg src : Bytes) (dstsiz : Nat) (dnptrs : List Nat) (room : Nat) : Packed :=
  match ircNsNamePton src nsMaxcdname with
  | .wild => .wild
  | .fail => .fail
  | .ok tmp _ => ircNsNamePack msg tmp dstsiz dnptrs room

-- ============================================================================
-- Searching
-- ============================================================================

/-- Labels without the case of their letters. -/
def foldCase (ls : List Bytes) : List Bytes := ls.map fun l => l.map mklower

section Search

variable {msg : Bytes} {start cp stop sp fuel : Nat} {ls ds : List Bytes}

/-- The rest of a domain ends where it has no labels. -/
theorem wireLabels_head_iff (hds : ∀ d ∈ ds, 0 < d.length ∧ d.length < 64) (more : Bytes) :
    (wireLabels ds ++ 0 :: more = [] ∨ (wireLabels ds ++ 0 :: more).head? = some 0) ↔ ds = [] := by
  cases ds with
  | nil => simp
  | cons d ds =>
    have hne := (wireLabel_ne_zero (hds d List.mem_cons_self)).1
    simp [hne]

theorem compareNames_label (sp fuel : Nat) (dn : Bytes) {l rest : Bytes} (h : msg.drop cp = wireLabel l ++ rest)
    (hl : 0 < l.length ∧ l.length < 64) :
    compareNames msg sp (fuel + 1) dn cp =
      if dn.head? ≠ some (UInt8.ofNat l.length) then .missing
      else if (dn.tail.take l.length).map mklower ≠ l.map mklower then .missing
      else if dn.tail.drop l.length = [] ∨ (dn.tail.drop l.length).head? = some 0 then
        if (msg.drop (cp + 1 + l.length)).head? = some 0 then .found sp else .missing
      else compareNames msg sp fuel (dn.tail.drop l.length) (cp + 1 + l.length) := by
  have hzero : UInt8.ofNat l.length &&& nsCmprsflgs = 0 := by
    rw [(cmprsflgs_iff _).1, toNat_length_byte hl.2]
    exact hl.2
  have hlabel : labellen (UInt8.ofNat l.length :: (l ++ rest)) = some l.length := labellen_wireLabel hl.2 rest
  have htake : (l ++ rest).take l.length = l := List.take_left
  rw [compareNames, h]
  show (if _ then _ else if _ then _ else _) = _
  rw [if_neg (wireLabel_ne_zero hl).1, if_pos hzero]
  show (let l' := (labellen (UInt8.ofNat l.length :: (l ++ rest))).getD 0
    if dn.head? ≠ some (UInt8.ofNat l.length) then Search.missing
    else if (dn.tail.take l').map mklower ≠ ((l ++ rest).take l').map mklower then .missing
    else if dn.tail.drop l' = [] ∨ (dn.tail.drop l').head? = some 0 then
      if (msg.drop (cp + 1 + l')).head? = some 0 then .found sp else .missing
    else compareNames msg sp fuel (dn.tail.drop l') (cp + 1 + l')) = _
  simp only [hlabel, Option.getD_some, htake]

/-- A search among the names of a message ends, and what it finds is the rest of the domain. -/
theorem compareNames_spec (sp : Nat) (h : PackedAt msg start cp ls stop) (hds : ∀ d ∈ ds, 0 < d.length ∧ d.length < 64)
    (hfuel : 2 * ds.length + (if PointerAt msg cp then 2 else 1) ≤ fuel) (more : Bytes) :
    compareNames msg sp fuel (wireLabels ds ++ 0 :: more) cp = .missing ∨
      compareNames msg sp fuel (wireLabels ds ++ 0 :: more) cp = .found sp ∧ foldCase ls = foldCase ds := by
  induction h generalizing ds fuel with
  | @root start cp rest h =>
    obtain ⟨fuel, rfl⟩ : ∃ k, fuel = k + 1 := ⟨fuel - 1, by split at hfuel <;> omega⟩
    left
    rw [compareNames, h]
    rfl
  | @label start cp stop l rest ls h hl hs ih =>
    obtain ⟨fuel, rfl⟩ : ∃ k, fuel = k + 1 := ⟨fuel - 1, by split at hfuel <;> omega⟩
    have hcp : cp + 1 + l.length = cp + (l.length + 1) := by omega
    have hstep := compareNames_label sp fuel (wireLabels ds ++ 0 :: more) h hl
    rw [hcp] at hstep
    rw [hstep]
    cases ds with
    | nil =>
      have hroot : (wireLabels [] ++ 0 :: more).head? ≠ some (UInt8.ofNat l.length) := by
        simpa using (wireLabel_ne_zero hl).1.symm
      rw [if_pos hroot]
      exact .inl rfl
    | cons d ds =>
      obtain ⟨hd, hds⟩ := List.forall_mem_cons.mp hds
      by_cases hlen : UInt8.ofNat d.length = UInt8.ofNat l.length
      · have hdl : d.length = l.length := by
          rw [← toNat_length_byte hd.2, hlen, toNat_length_byte hl.2]
        have htake : (wireLabels (d :: ds) ++ 0 :: more).tail.take l.length = d := by
          simp [← hdl]
        have hdrop : (wireLabels (d :: ds) ++ 0 :: more).tail.drop l.length = wireLabels ds ++ 0 :: more := by
          simp [← hdl]
        rw [if_neg (by simp [hlen]), htake, hdrop]
        by_cases hcase : d.map mklower = l.map mklower
        · rw [if_neg (by simp [hcase])]
          by_cases hnil : ds = []
          · rw [if_pos ((wireLabels_head_iff hds more).mpr hnil)]
            by_cases hroot : (msg.drop (cp + (l.length + 1))).head? = some 0
            · rw [if_pos hroot]
              refine .inr ⟨rfl, ?_⟩
              simp [foldCase, hnil, hs.head_iff.mp hroot, hcase]
            · rw [if_neg hroot]
              exact .inl rfl
          · rw [if_neg (fun h => hnil ((wireLabels_head_iff hds more).mp h))]
            have hfuel' : 2 * ds.length + (if PointerAt msg (cp + (l.length + 1)) then 2 else 1) ≤ fuel := by
              rw [List.length_cons] at hfuel
              split at hfuel <;> split <;> omega
            refine (ih hds hfuel').imp_right fun ⟨hfound, hfold⟩ => ⟨hfound, ?_⟩
            simp only [foldCase, List.map_cons, hcase, List.cons.injEq, true_and]
            exact hfold
        · rw [if_pos hcase]
          exact .inl rfl
      · have hne : (wireLabels (d :: ds) ++ 0 :: more).head? ≠ some (UInt8.ofNat l.length) := by simpa using hlen
        rw [if_pos hne]
        exact .inl rfl
  | @pointer start cp start' stop' hi lo rest l ls h hp hstart hs hback hdirect ih =>
    have hat : PointerAt msg cp := by
      show IsPointer ((msg.drop cp).headD 0)
      rwa [h]
    rw [if_pos hat] at hfuel
    obtain ⟨fuel, rfl⟩ : ∃ k, fuel = k + 1 := ⟨fuel - 1, by omega⟩
    obtain ⟨hzero, helt, hptr⟩ := cmprsflgs_iff hi
    have hi192 : 192 ≤ hi.toNat := hp
    have hne : hi ≠ 0 := by
      rintro rfl
      simp at hi192
    have hstep : compareNames msg sp (fuel + 1) (wireLabels ds ++ 0 :: more) cp =
        compareNames msg sp fuel (wireLabels ds ++ 0 :: more) (pointerOffset hi lo) := by
      rw [compareNames, h]
      show (if _ then _ else if _ then _ else if _ then _ else _) = _
      rw [if_neg hne, if_neg (by rw [hzero]; omega), if_pos (hptr.mpr hp), ← indirection_eq]
    rw [hstep]
    exact ih hds (by rw [if_neg hdirect]; omega)

/-- A name of the message is at the place of an entry. -/
def Entry (msg : Bytes) (p : Nat) : Prop := ∃ start ls stop, PackedAt msg start p ls stop ∧ start ≤ p

theorem length_le_wireLabels (hds : ∀ d ∈ ds, 0 < d.length ∧ d.length < 64) :
    2 * ds.length ≤ (wireLabels ds).length := by
  induction ds with
  | nil => simp
  | cons d ds ih =>
    obtain ⟨hd, hds⟩ := List.forall_mem_cons.mp hds
    have := ih hds
    rw [wireLabels_cons, List.length_cons, List.length_cons, List.length_append]
    omega

/-- What `irc_dn_find` may find: a label, and from there on the domain. -/
def Finds (msg : Bytes) (ds : List Bytes) (r : Search) : Prop :=
  r = .missing ∨ ∃ off start l ls stop, r = .found off ∧ off < 0x4000 ∧ start ≤ off ∧ ¬ PointerAt msg off ∧
    PackedAt msg start off (l :: ls) stop ∧ foldCase (l :: ls) = foldCase ds

theorem findFrom_finds (h : PackedAt msg start sp ls stop) (hstart : start ≤ sp)
    (hds : ∀ d ∈ ds, 0 < d.length ∧ d.length < 64) (hfits : (wireLabels ds).length < nsMaxcdname) (more : Bytes) :
    Finds msg ds (findFrom msg (wireLabels ds ++ 0 :: more) sp) := by
  have hlen := length_le_wireLabels hds
  unfold nsMaxcdname at hfits
  induction h with
  | @root start sp rest h =>
    rw [findFrom]
    left
    split
    · rfl
    next n _ h' =>
      obtain ⟨rfl, rfl⟩ : _ ∧ _ := by simpa [h] using h'.symm
      rfl
  | @label start sp stop l rest ls h hl hs ih =>
    obtain ⟨hne, hnp⟩ := wireLabel_ne_zero hl
    have hat : ¬ PointerAt msg sp := by
      show ¬ IsPointer ((msg.drop sp).headD 0)
      rw [h]
      exact hnp
    rw [findFrom]
    split
    · exact .inl rfl
    next n _ h' =>
      obtain ⟨rfl, rfl⟩ : _ ∧ _ := by simpa [h, wireLabel] using h'.symm
      have hnext : sp + (UInt8.ofNat l.length).toNat + 1 = sp + (l.length + 1) := by
        rw [toNat_length_byte hl.2]
        omega
      split
      next hwhile =>
        have hspec := compareNames_spec sp (.label h hl hs) hds
          (show _ ≤ 2 * nsMaxcdname by rw [if_neg hat, nsMaxcdname]; omega) more
        rcases hspec with hmiss | ⟨hfound, hfold⟩
        · rw [hmiss, hnext]
          exact ih (by omega)
        · rw [hfound]
          exact .inr ⟨sp, start, l, ls, stop, rfl, hwhile.2.2, hstart, hat, .label h hl hs, hfold⟩
      · exact .inl rfl
  | @pointer start sp start' stop' hi lo rest l ls h hp hstart' hs hback hdirect ih =>
    have hhi : 192 ≤ hi.toNat := hp
    rw [findFrom]
    left
    split
    · rfl
    next n _ h' =>
      obtain ⟨rfl, rfl⟩ : _ ∧ _ := by simpa [h] using h'.symm
      rw [if_neg]
      rw [(cmprsflgs_iff _).1]
      omega

theorem ircDnFind_finds {ptrs : List Nat} (h : ∀ p ∈ ptrs, Entry msg p)
    (hds : ∀ d ∈ ds, 0 < d.length ∧ d.length < 64) (hfits : (wireLabels ds).length < nsMaxcdname) (more : Bytes) :
    Finds msg ds (ircDnFind msg (wireLabels ds ++ 0 :: more) ptrs) := by
  induction ptrs with
  | nil => exact .inl rfl
  | cons p ptrs ih =>
    obtain ⟨⟨start, ls, stop, hp, hstart⟩, hptrs⟩ := List.forall_mem_cons.mp h
    rw [ircDnFind]
    rcases findFrom_finds hp hstart hds hfits more with hmiss | ⟨off, s', l, ls', stop', hfound, hrest⟩
    · rw [hmiss]
      exact ih hptrs
    · rw [hfound]
      exact .inr ⟨off, s', l, ls', stop', rfl, hrest⟩

end Search

-- ============================================================================
-- Packing
-- ============================================================================

section Packing

variable {msg : Bytes} {search : List Nat} {room dstsiz : Nat} {ds : List Bytes}

theorem packLegal_wire (hds : ∀ d ∈ ds, 0 < d.length ∧ d.length < 64) {k : Nat}
    (hfits : k + (wireLabels ds).length < nsMaxcdname) : packLegal (wireLabels ds ++ [0]) k = true := by
  induction ds generalizing k with
  | nil =>
    rw [wireLabels_nil, List.length_nil] at hfits
    show packLegal [0] k = true
    rw [packLegal, if_neg (by decide)]
    show (if k + (0 + 1) > nsMaxcdname then false else if (0 : UInt8) = 0 then true else _) = true
    rw [if_neg (by omega), if_pos rfl]
  | cons d ds ih =>
    obtain ⟨hd, hds⟩ := List.forall_mem_cons.mp hds
    obtain ⟨hne, hnp⟩ := wireLabel_ne_zero hd
    have hlabel : labellen (UInt8.ofNat d.length :: (d ++ (wireLabels ds ++ [0]))) = some d.length :=
      labellen_wireLabel hd.2 _
    have hsplit : wireLabels (d :: ds) ++ [0] = UInt8.ofNat d.length :: (d ++ (wireLabels ds ++ [0])) := by simp
    rw [wireLabels_cons, List.length_cons, List.length_append] at hfits
    rw [hsplit, packLegal, if_neg (fun h => hnp ((cmprsflgs_iff _).2.2.mp h))]
    simp only [hlabel, if_neg hne, List.drop_left]
    rw [if_neg (by omega)]
    exact ih hds (by omega)

/-- What packing a name leaves behind what has been copied of it: the name stands there, and
    every entry that is new is the place of a name. -/
def Leaves (msg dst : Bytes) (ptrs : List Nat) (ds : List Bytes) (r : Packed) : Prop :=
  r = .fail ∨ ∃ out ptrs' ls stop, r = .ok out ptrs' ∧ dst <+: out ∧
    PackedAt (msg ++ out) msg.length (msg.length + dst.length) ls stop ∧ foldCase ls = foldCase ds ∧
    ∀ p ∈ ptrs', p ∈ ptrs ∨ Entry (msg ++ out) p

theorem pointer_bytes {off : Nat} (h : off < 0x4000) :
    [UInt8.ofNat (off / 256) ||| nsCmprsflgs, UInt8.ofNat (off % 256)] = pointerBytes off := by
  have hall : ∀ x : Fin 64, UInt8.ofNat x ||| nsCmprsflgs = UInt8.ofNat (192 + x) := by decide
  unfold pointerBytes
  rw [hall ⟨off / 256, by omega⟩]

theorem packLoop_root (dst : Bytes) (ptrs : List Nat) (first : Bool) :
    packLoop msg search room dstsiz [0] dst ptrs first =
      if dst.length + 1 ≥ dstsiz then .fail else .ok (dst ++ [0]) ptrs := by
  have hzero : labellen [0] = some 0 := by decide
  have hflags : ¬ (0 : UInt8) &&& nsCmprsflgs = nsCmprsflgs := by decide
  rw [packLoop, if_neg (show ¬ (0 : UInt8) ≠ 0 by simp)]
  simp only [ne_eq, not_true_eq_false, false_and, if_false, if_neg hflags, hzero, Option.getD_some, Nat.add_zero,
    List.take_nil, if_true]

section Label

variable {d rest dst : Bytes} {ptrs : List Nat} {first : Bool}

/-- A label that is not found is copied, and perhaps its place is kept. -/
theorem packLoop_missing (dst : Bytes) (ptrs : List Nat) (first : Bool) (hd : 0 < d.length ∧ d.length < 64)
    (h : ircDnFind msg (wireLabel d ++ rest) search = .missing) :
    ∃ ptrs' first', (∀ p ∈ ptrs', p ∈ ptrs ∨ p = msg.length + dst.length) ∧
      packLoop msg search room dstsiz (wireLabel d ++ rest) dst ptrs first =
        if dst.length + 1 + d.length ≥ dstsiz then .fail
        else packLoop msg search room dstsiz rest (dst ++ wireLabel d) ptrs' first' := by
  obtain ⟨hne, hnp⟩ := wireLabel_ne_zero hd
  have hlabel : labellen (UInt8.ofNat d.length :: (d ++ rest)) = some d.length := labellen_wireLabel hd.2 rest
  have hflags : ¬ UInt8.ofNat d.length &&& nsCmprsflgs = nsCmprsflgs := fun h => hnp ((cmprsflgs_iff _).2.2.mp h)
  have hfind : ircDnFind msg (UInt8.ofNat d.length :: (d ++ rest)) search = .missing := h
  refine ⟨if UInt8.ofNat d.length ≠ 0 ∧ ptrs.length < room ∧ msg.length + dst.length < 0x4000 ∧ first then
      ptrs ++ [msg.length + dst.length] else ptrs,
    if UInt8.ofNat d.length ≠ 0 ∧ ptrs.length < room ∧ msg.length + dst.length < 0x4000 ∧ first then false else first,
    ?_, ?_⟩
  · intro p hp
    split at hp
    · simpa using hp
    · exact .inl hp
  · show packLoop msg search room dstsiz (UInt8.ofNat d.length :: (d ++ rest)) dst ptrs first = _
    rw [packLoop, if_pos hne, hfind]
    simp only [hflags, if_false, hlabel, Option.getD_some, List.take_left, List.drop_left,
      if_neg (show ¬ d.length = 0 by omega)]
    rfl

/-- A name whose rest is found ends in a pointer. -/
theorem packLoop_found (hd : 0 < d.length ∧ d.length < 64) {off : Nat}
    (h : ircDnFind msg (wireLabel d ++ rest) search = .found off) :
    packLoop msg search room dstsiz (wireLabel d ++ rest) dst ptrs first =
      if dst.length + 1 ≥ dstsiz then .fail
      else .ok (dst ++ [UInt8.ofNat (off / 256) ||| nsCmprsflgs, UInt8.ofNat (off % 256)]) ptrs := by
  have hfind : ircDnFind msg (UInt8.ofNat d.length :: (d ++ rest)) search = .found off := h
  show packLoop msg search room dstsiz (UInt8.ofNat d.length :: (d ++ rest)) dst ptrs first = _
  rw [packLoop, if_pos (wireLabel_ne_zero hd).1, hfind]

end Label

theorem packLoop_leaves (room dstsiz : Nat) (hsearch : ∀ p ∈ search, Entry msg p) (hds : ∀ d ∈ ds, 0 < d.length ∧ d.length < 64)
    (hfits : (wireLabels ds).length < nsMaxcdname) (dst : Bytes) (ptrs : List Nat) (first : Bool) :
    Leaves msg dst ptrs ds (packLoop msg search room dstsiz (wireLabels ds ++ [0]) dst ptrs first) := by
  induction ds generalizing dst ptrs first with
  | nil =>
    rw [wireLabels_nil, List.nil_append, packLoop_root]
    split
    · exact .inl rfl
    · refine .inr ⟨dst ++ [0], ptrs, [], msg.length + dst.length + 1, rfl, List.prefix_append _ _, ?_, rfl,
        fun p hp => .inl hp⟩
      exact .root (drop_message msg rfl)
  | cons d ds ih =>
    have hfinds := ircDnFind_finds hsearch hds hfits []
    obtain ⟨hd, hds⟩ := List.forall_mem_cons.mp hds
    have hsplit : wireLabels (d :: ds) ++ [0] = wireLabel d ++ (wireLabels ds ++ [0]) := by simp [wireLabel]
    rw [hsplit] at hfinds ⊢
    rcases hfinds with hmiss | ⟨off, start, l, ls, stop, hfound, hoff, hstart, hdirect, hpacked, hfold⟩
    · obtain ⟨ptrs', first', hptrs, hstep⟩ := packLoop_missing dst ptrs first hd hmiss
      rw [hstep]
      split
      · exact .inl rfl
      · rw [wireLabels_cons, List.length_cons, List.length_append] at hfits
        rcases ih hds (by omega) (dst ++ wireLabel d) ptrs' first' with hfail | ⟨out, more, ls, stop, hok, hpre, hat, hfold, hmore⟩
        · exact .inl hfail
        · obtain ⟨tail, htail⟩ := hpre
          have hlen : msg.length + dst.length + (d.length + 1) = msg.length + (dst ++ wireLabel d).length := by
            rw [List.length_append, wireLabel, List.length_cons]
            omega
          rw [← hlen] at hat
          have hout : out = dst ++ (wireLabel d ++ tail) := by rw [← htail, List.append_assoc]
          have hname := PackedAt.label (drop_message msg hout) hd hat
          refine .inr ⟨out, more, d :: ls, stop, hok, ⟨_, hout.symm⟩, hname, ?_, ?_⟩
          · simpa [foldCase] using hfold
          · intro p hp
            rcases hmore p hp with hp | hp
            · rcases hptrs p hp with hp | rfl
              · exact .inl hp
              · exact .inr ⟨_, _, _, hname, by omega⟩
            · exact .inr hp
    · rw [packLoop_found hd hfound]
      split
      · exact .inl rfl
      · refine .inr ⟨_, ptrs, l :: ls, msg.length + dst.length + 2, rfl, List.prefix_append _ _, ?_, hfold,
          fun p hp => .inl hp⟩
        obtain ⟨span, cost, -, -, -, hstop⟩ := hpacked.nameAt wireSize_wireLabel hstart
        rw [pointer_bytes hoff]
        exact hpacked.pointTo hstart hstop hoff hdirect dst

end Packing

-- ============================================================================
-- Messages
-- ============================================================================

/-- A message that is being put together: its bytes, the entries of `dnptrs`, and the names
    that have been packed, each with its place and its text. -/
structure Message where
  bytes : Bytes
  dnptrs : List Nat
  names : List (Nat × Bytes)

/-- Nothing is there yet. -/
def Message.start : Message := ⟨[], [], []⟩

/-- What is put behind a message: bytes, or a name from its text. -/
inductive Part where
  | data (bytes : Bytes)
  | name (src : Bytes) (dstsiz room : Nat)

/-- A part more; a name that cannot be packed changes nothing. -/
def Message.add (m : Message) : Part → Option Message
  | .data bytes => some { m with bytes := m.bytes ++ bytes }
  | .name src dstsiz room =>
    match ircNsNameCompress m.bytes src dstsiz m.dnptrs room with
    | .wild => none
    | .endless => none
    | .fail => some m
    | .ok dst dnptrs => some ⟨m.bytes ++ dst, dnptrs, m.names ++ [(m.bytes.length, src)]⟩

/-- The text of a name gets as far as the writing of a bit string. -/
def Part.IsWild : Part → Prop
  | .data _ => False
  | .name src _ _ => ircNsNamePton src nsMaxcdname = .wild

/-- A name of the message at a place is one of a text, up to the case of letters. -/
def Carries (msg : Bytes) (off : Nat) (src : Bytes) : Prop :=
  ∃ (d : DomainName) (q : Bool) (start : Nat) (ls : List Bytes) (stop : Nat),
    ircNsNamePton src nsMaxcdname = .ok d.wire q ∧ PackedAt msg start off ls stop ∧ start ≤ off ∧
      foldCase ls = foldCase d.labels

/-- Every entry is the place of a name, and every name is where it was packed. -/
structure Message.Inv (m : Message) : Prop where
  entries : ∀ p ∈ m.dnptrs, Entry m.bytes p
  carries : ∀ e ∈ m.names, Carries m.bytes e.1 e.2

section Message

variable {m m' : Message}

theorem Entry.append {msg : Bytes} {p : Nat} (h : Entry msg p) (more : Bytes) : Entry (msg ++ more) p := by
  obtain ⟨start, ls, stop, hp, hstart⟩ := h
  exact ⟨start, ls, stop, hp.append more, hstart⟩

theorem Carries.append {msg src : Bytes} {off : Nat} (h : Carries msg off src) (more : Bytes) :
    Carries (msg ++ more) off src := by
  obtain ⟨d, q, start, ls, stop, htext, hp, hstart, hfold⟩ := h
  exact ⟨d, q, start, ls, stop, htext, hp.append more, hstart, hfold⟩

/-- What packing a text does to a message. -/
theorem ircNsNameCompress_spec (h : m.Inv) (src : Bytes) (dstsiz room : Nat) :
    let r := ircNsNameCompress m.bytes src dstsiz m.dnptrs room
    (r = .wild ∧ ircNsNamePton src nsMaxcdname = .wild) ∨ r = .fail ∨
      ∃ dst dnptrs, r = .ok dst dnptrs ∧ Carries (m.bytes ++ dst) m.bytes.length src ∧
        ∀ p ∈ dnptrs, Entry (m.bytes ++ dst) p := by
  unfold ircNsNameCompress
  cases htext : ircNsNamePton src nsMaxcdname with
  | wild => exact .inl ⟨rfl, rfl⟩
  | fail => exact .inr (.inl rfl)
  | ok tmp q =>
    obtain ⟨d, rfl⟩ := text_roundTrip.2.2 src tmp q htext
    have hlegal : packLegal d.wire 0 = true := packLegal_wire d.label_ok (by simpa [nsMaxcdname] using d.fits)
    dsimp only [ircNsNamePack]
    rw [if_pos hlegal]
    rcases packLoop_leaves room dstsiz h.entries d.label_ok d.fits [] m.dnptrs true with
      hfail | ⟨dst, dnptrs, ls, stop, hok, -, hat, hfold, hptrs⟩
    · exact .inr (.inl hfail)
    · refine .inr (.inr ⟨dst, dnptrs, hok, ⟨d, q, _, ls, stop, htext, hat, Nat.le_refl _, hfold⟩, ?_⟩)
      intro p hp
      rcases hptrs p hp with hp | hp
      · exact (h.entries p hp).append dst
      · exact hp

theorem Message.Inv.add (h : m.Inv) {part : Part} (hm : m.add part = some m') : m'.Inv := by
  cases part with
  | data bytes =>
    obtain rfl := Option.some.inj hm
    exact ⟨fun p hp => (h.entries p hp).append bytes, fun e he => (h.carries e he).append bytes⟩
  | name src dstsiz room =>
    rw [Message.add] at hm
    rcases ircNsNameCompress_spec h src dstsiz room with ⟨hr, -⟩ | hr | ⟨dst, dnptrs, hr, hcarries, hptrs⟩
    · rw [hr] at hm
      simp at hm
    · rw [hr] at hm
      obtain rfl := Option.some.inj hm
      exact h
    · rw [hr] at hm
      obtain rfl := Option.some.inj hm
      refine ⟨hptrs, fun e he => ?_⟩
      rcases List.mem_append.mp he with he | he
      · exact (h.carries e he).append dst
      · obtain rfl := List.mem_singleton.mp he
        exact hcarries

theorem Message.Inv.add_isSome (h : m.Inv) {part : Part} (hpart : ¬ part.IsWild) : (m.add part).isSome := by
  cases part with
  | data bytes => rfl
  | name src dstsiz room =>
    rw [Message.add]
    rcases ircNsNameCompress_spec h src dstsiz room with ⟨-, hwild⟩ | hr | ⟨dst, dnptrs, hr, -⟩
    · exact absurd hwild hpart
    · rw [hr]
      rfl
    · rw [hr]
      rfl

theorem Message.Inv.run (h : m.Inv) (parts : List Part) :
    (∀ m', parts.foldlM Message.add m = some m' → m'.Inv) ∧
      ((∀ part ∈ parts, ¬ part.IsWild) → (parts.foldlM Message.add m).isSome) := by
  induction parts generalizing m with
  | nil =>
    refine ⟨fun m' hm => ?_, fun _ => rfl⟩
    obtain rfl := Option.some.inj hm
    exact h
  | cons part parts ih =>
    rw [List.foldlM_cons]
    cases hadd : m.add part with
    | none =>
      refine ⟨fun m' hm => by simp at hm, fun hparts => ?_⟩
      have hsome := h.add_isSome (hparts part List.mem_cons_self)
      simp [hadd] at hsome
    | some m₁ =>
      obtain ⟨hinv, hsome⟩ := ih (h.add hadd)
      exact ⟨hinv, fun hparts => hsome fun part hp => hparts part (List.mem_cons_of_mem _ hp)⟩

/-- The length bytes of labels have no case. -/
theorem map_mklower_wireLabels {ls : List Bytes} (hls : ∀ l ∈ ls, l.length < 64) :
    (wireLabels ls).map mklower = wireLabels (foldCase ls) := by
  have hall : ∀ x : Fin 64, mklower (UInt8.ofNat x) = UInt8.ofNat x := by decide
  induction ls with
  | nil => rfl
  | cons l ls ih =>
    obtain ⟨hl, hls⟩ := List.forall_mem_cons.mp hls
    show _ = wireLabels (l.map mklower :: foldCase ls)
    rw [wireLabels_cons, wireLabels_cons, List.map_cons, List.map_append, ih hls, hall ⟨l.length, hl⟩, List.length_map]

/-- A name that is carried is unpacked. -/
theorem Carries.unpacks {msg src : Bytes} {off : Nat} (h : Carries msg off src) (past : Bytes) :
    ∃ tmp q wire n, ircNsNamePton src nsMaxcdname = .ok tmp q ∧
      ircNsNameUnpack msg past off nsMaxcdname = some (wire, n) ∧ wire.map mklower = tmp.map mklower := by
  obtain ⟨d, q, start, ls, stop, htext, hp, hstart, hfold⟩ := h
  obtain ⟨span, cost, hname, -, hcost, hstop⟩ := hp.nameAt wireSize_wireLabel hstart
  have hlt := hname.lt_length
  have hmap : (wireLabels ls ++ [0]).map mklower = d.wire.map mklower := by
    unfold DomainName.wire
    rw [List.map_append, List.map_append, map_mklower_wireLabels hp.label_lt, hfold,
      map_mklower_wireLabels fun l hl => (d.label_ok l hl).2]
  have hlen : (wireLabels ls ++ [0]).length = d.wire.length := by
    have := congrArg List.length hmap
    simpa using this
  refine ⟨d.wire, q, wireLabels ls ++ [0], span, htext, ?_, hmap⟩
  refine (ircNsNameUnpack_iff msg past off _ span).1.mpr ⟨ls.map wireLabel, cost, hname, by omega, ?_, ?_⟩
  · rw [flatten_wireLabel]
  · rw [hlen, d.length_wire]
    have := d.fits
    unfold nsMaxcdname
    omega

end Message

/-- However a message is put together, each of its names is read, at the place where it was
    packed, as it was given, up to the case of letters; and no search for an earlier name goes
    on for ever: a message is refused by none of its parts but a bit string. -/
theorem packed_names_read (parts : List Part) :
    (∀ m, parts.foldlM Message.add Message.start = some m → ∀ e ∈ m.names, ∀ past,
      ∃ tmp q wire n, ircNsNamePton e.2 nsMaxcdname = .ok tmp q ∧
        ircNsNameUnpack m.bytes past e.1 nsMaxcdname = some (wire, n) ∧ wire.map mklower = tmp.map mklower) ∧
    ((∀ part ∈ parts, ¬ part.IsWild) → (parts.foldlM Message.add Message.start).isSome) := by
  have hstart : Message.start.Inv := ⟨by simp [Message.start], by simp [Message.start]⟩
  obtain ⟨hinv, hsome⟩ := hstart.run parts
  exact ⟨fun m hm e he past => ((hinv m hm).carries e he).unpacks past, hsome⟩

end Bluebox.Resolver
