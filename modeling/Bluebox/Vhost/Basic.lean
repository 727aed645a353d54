/-
  Bluebox.Vhost.Basic

  The cloaked host of a user (`libratboxcore/cloak.c`): `cloak_host` fills the 64 bytes
  of `virthost` with the network's name, a checksum of the host and a part of the host.

  The checksum is `fnv_hash` of a SHA-1 digest.  The digest is a parameter: nothing below
  depends on what it is.
-/
import Bluebox.Atable
import Bluebox.Sizes

namespace Bluebox.Vhost

open Bluebox.Lib

-- ============================================================================
-- The checksum
-- ============================================================================

/-- What `init_cloak` has set up: `cloak_network`, and `sha1_hash` with `cloak_key`. -/
structure Setup where
  cloakNetwork : Bytes
  sha1Hash : Bytes → Bytes

/-- `FNV_PRIME`. -/
def fnvPrime : BitVec 32 := 16777619

/-- `fnv_hash`.  The product has 64 bits in C, but `h` keeps only the low 32 bits of it; the
    bytes are signed. -/
def fnvHash (s : Bytes) : BitVec 32 :=
  s.foldl (fun h b => (h * fnvPrime) ^^^ b.toBitVec.signExtend 32) 0

/-- `csum`. -/
def Setup.csum (k : Setup) (host : Bytes) : BitVec 32 := fnvHash (k.sha1Hash host)

/-- A digit of `%X`. -/
def hexDigit (d : Nat) : UInt8 := if d < 10 then UInt8.ofNat (48 + d) else UInt8.ofNat (55 + d)

/-- `%X`: the digits are put down from the last one on; the fuel bounds their number. -/
def hexDigits : Nat → Nat → Bytes
  | 0, _ => []
  | fuel + 1, n =>
    if n / 16 = 0 then [hexDigit (n % 16)] else hexDigits fuel (n / 16) ++ [hexDigit (n % 16)]

/-- `"%s%c%X"`: the network, the sign of the checksum and its magnitude. -/
def Setup.tag (k : Setup) (host : Bytes) : Bytes :=
  k.cloakNetwork ++ (if (k.csum host).toInt < 0 then 61 else 45) ::
    hexDigits 8 (if (k.csum host).toInt < 0 then -k.csum host else k.csum host).toNat

-- ============================================================================
-- cloak_host
-- ============================================================================

/-- `rb_snprintf` into `virthost`. -/
def intoVirthost (text : Bytes) : Bytes := text.take hostLen

/-- The `default` branch of the `switch`: what follows the first dot of the host from which
    on it is short enough, if there is one. -/
def trimLabels (chlen : Nat) : Bytes → Option Bytes
  | [] => none
  | b :: s =>
    if b = 46 then if s.length + 1 + chlen > hostLen then trimLabels chlen s else some s
    else trimLabels chlen s

/-- `ipmask` up to its second dot, if it has two. -/
def cutIpmask (ipmask : Bytes) : Option Bytes :=
  match ipmask.dropWhile (· != 46) with
  | [] => none
  | dot :: r =>
    if r.contains 46 then some (ipmask.takeWhile (· != 46) ++ dot :: r.takeWhile (· != 46)) else none

/-- `cloak_host`: what it returns, and `virthost`. -/
def cloakHost (k : Setup) (host : Bytes) : Bool × Bytes :=
  if host.any isLetter then
    if host.count 46 = 0 then (false, [])
    else if host.count 46 = 1 then (true, intoVirthost (k.tag host ++ 46 :: host))
    else
      match trimLabels (k.cloakNetwork.length + 10) host with
      | none => (false, [])
      | some p => (true, intoVirthost (k.tag host ++ 46 :: p))
  else
    match cutIpmask (strlcpy host 16) with
    | none => (true, intoVirthost (k.tag host))
    | some ipmask => (true, intoVirthost (ipmask ++ 46 :: k.tag host))

-- ============================================================================
-- The digits
-- ============================================================================

/-- A digit that `%X` prints. -/
def isXDigit (b : UInt8) : Bool := isDigit b || (65 ≤ b && b ≤ 70)

theorem isXDigit_hexDigit {d : Nat} (h : d < 16) : isXDigit (hexDigit d) = true := by
  have hall : ∀ d : Fin 16, isXDigit (hexDigit d) = true := by decide
  exact hall ⟨d, h⟩

theorem isXDigit_hexDigits {fuel n : Nat} : ∀ b ∈ hexDigits fuel n, isXDigit b = true := by
  induction fuel generalizing n with
  | zero => exact fun b hb => absurd hb List.not_mem_nil
  | succ fuel ih =>
    have hlast : isXDigit (hexDigit (n % 16)) = true := isXDigit_hexDigit (Nat.mod_lt n (by omega))
    intro b hb
    rw [hexDigits] at hb
    split at hb
    · rw [List.mem_singleton.mp hb]
      exact hlast
    · rcases List.mem_append.mp hb with hb | hb
      · exact ih b hb
      · rw [List.mem_singleton.mp hb]
        exact hlast

theorem length_hexDigits (fuel n : Nat) :
    (hexDigits fuel n).length ≤ fuel ∧ (0 < fuel → 0 < (hexDigits fuel n).length) := by
  induction fuel generalizing n with
  | zero => exact ⟨Nat.le_refl 0, fun h => h⟩
  | succ fuel ih =>
    have hrest := (ih (n / 16)).1
    rw [hexDigits]
    split
    · exact ⟨Nat.le_add_left 1 fuel, fun _ => Nat.one_pos⟩
    · rw [List.length_append, List.length_singleton]
      exact ⟨by omega, fun _ => by omega⟩

/-- The shape of the tag. -/
theorem Setup.tag_eq (k : Setup) (host : Bytes) : ∃ sign hex, k.tag host = k.cloakNetwork ++ sign :: hex ∧
    (sign = 45 ∨ sign = 61) ∧ 1 ≤ hex.length ∧ hex.length ≤ 8 ∧ ∀ b ∈ hex, isXDigit b = true := by
  refine ⟨_, _, rfl, ?_, (length_hexDigits 8 _).2 (by omega), (length_hexDigits 8 _).1,
    isXDigit_hexDigits⟩
  split
  · exact Or.inr rfl
  · exact Or.inl rfl

theorem not_dot_of_isXDigit {b : UInt8} (h : isXDigit b = true) : b ≠ 46 := by
  rintro rfl
  cases h

-- ============================================================================
-- Cut texts
-- ============================================================================

variable {α : Type _}

/-- Where a separator does not occur before, the two ends of a text are determined by it. -/
theorem append_cons_inj_of_not_mem {c : α} {a a' b b' : List α} (ha : c ∉ a) (ha' : c ∉ a')
    (h : a ++ c :: b = a' ++ c :: b') : a = a' ∧ b = b' := by
  induction a generalizing a' with
  | nil =>
    cases a' with
    | nil => exact ⟨rfl, (List.cons.inj h).2⟩
    | cons x a' => exact absurd ((List.cons.inj h).1 ▸ List.mem_cons_self) ha'
  | cons x a ih =>
    cases a' with
    | nil => exact absurd ((List.cons.inj h).1 ▸ List.mem_cons_self) ha
    | cons y a' =>
      obtain ⟨hxy, htail⟩ := List.cons.inj h
      obtain ⟨haa, hbb⟩ := ih (fun hc => ha (List.mem_cons_of_mem _ hc))
        (fun hc => ha' (List.mem_cons_of_mem _ hc)) htail
      exact ⟨by rw [hxy, haa], hbb⟩

/-- The same where it does not occur behind. -/
theorem append_cons_inj_of_not_mem_right {c : α} {a a' b b' : List α} (hb : c ∉ b) (hb' : c ∉ b')
    (h : a ++ c :: b = a' ++ c :: b') : a = a' ∧ b = b' := by
  have hrev := congrArg List.reverse h
  simp only [List.reverse_append, List.reverse_cons, List.append_assoc, List.singleton_append] at hrev
  obtain ⟨hbb, haa⟩ := append_cons_inj_of_not_mem (by rwa [List.mem_reverse]) (by rwa [List.mem_reverse]) hrev
  exact ⟨List.reverse_injective haa, List.reverse_injective hbb⟩

/-- A part of the host that begins with it or behind one of its dots. -/
def DotSuffix (p host : Bytes) : Prop := p = host ∨ ∃ q, host = q ++ 46 :: p

/-- What `trimLabels` finds stands behind a dot, and with that dot it is short enough. -/
theorem trimLabels_eq_some {chlen : Nat} {host p : Bytes} (h : trimLabels chlen host = some p) :
    (∃ q, host = q ++ 46 :: p) ∧ p.length + 1 + chlen ≤ hostLen := by
  induction host with
  | nil => cases h
  | cons b s ih =>
    rw [trimLabels] at h
    by_cases hb : b = 46
    · rw [if_pos hb] at h
      by_cases hlong : s.length + 1 + chlen > hostLen
      · rw [if_pos hlong] at h
        obtain ⟨⟨q, hq⟩, hlen⟩ := ih h
        exact ⟨⟨b :: q, by rw [hq]; rfl⟩, hlen⟩
      · rw [if_neg hlong] at h
        cases h
        exact ⟨⟨[], by rw [hb]; rfl⟩, not_lt.mp hlong⟩
    · rw [if_neg hb] at h
      obtain ⟨⟨q, hq⟩, hlen⟩ := ih h
      exact ⟨⟨b :: q, by rw [hq]; rfl⟩, hlen⟩

-- ============================================================================
-- Host names
-- ============================================================================

/-- The form of a cloaked host name: the network, a sign, one to eight hex digits, a dot and
    the host from its beginning or from behind one of its dots on. -/
def IsCloaked (network host virthost : Bytes) : Prop :=
  ∃ sign hex p, virthost = network ++ sign :: hex ++ 46 :: p ∧ (sign = 45 ∨ sign = 61) ∧
    1 ≤ hex.length ∧ hex.length ≤ 8 ∧ (∀ b ∈ hex, isXDigit b = true) ∧ DotSuffix p host

/-- The host with all that comes before it fits `virthost`. -/
def Fits (k : Setup) (host : Bytes) : Prop := (k.tag host).length + 1 + host.length ≤ hostLen

instance (k : Setup) (host : Bytes) : Decidable (Fits k host) := inferInstanceAs (Decidable (_ ≤ _))

/-- The text is cut off in the host, where it has just repeated the host's last label. -/
def CutAtLabel (k : Setup) (host : Bytes) : Prop :=
  (k.tag host).length + 1 ≤ hostLen ∧
    ∃ q, host = q ++ 46 :: host.take (hostLen - ((k.tag host).length + 1))

theorem intoVirthost_of_le {text : Bytes} (h : text.length ≤ hostLen) : intoVirthost text = text :=
  List.take_of_length_le h

theorem tag_dot_isCloaked (k : Setup) {host p : Bytes} (hp : DotSuffix p host) :
    IsCloaked k.cloakNetwork host (k.tag host ++ 46 :: p) := by
  obtain ⟨sign, hex, htag, hsign, hpos, hle, hhex⟩ := k.tag_eq host
  exact ⟨sign, hex, p, by rw [htag], hsign, hpos, hle, hhex, hp⟩

/-- With one dot in it the host has two such parts: itself and its last label. -/
theorem DotSuffix.of_take {host : Bytes} {n : Nat} (h : DotSuffix (host.take n) host)
    (hn : n < host.length) : ∃ q, host = q ++ 46 :: host.take n := by
  rcases h with h | h
  · have hlen := congrArg List.length h
    rw [List.length_take] at hlen
    omega
  · exact h

/-- The text of the one-dot case keeps its form exactly if it fits, or by chance. -/
theorem isCloaked_one_dot (k : Setup) (host : Bytes) :
    IsCloaked k.cloakNetwork host (intoVirthost (k.tag host ++ 46 :: host)) ↔
      Fits k host ∨ CutAtLabel k host := by
  obtain ⟨sign, hex, htag, hsign, hpos, hle, hhex⟩ := k.tag_eq host
  have hnodot : ∀ {l : Bytes}, (∀ b ∈ l, isXDigit b = true) → (46 : UInt8) ∉ l := fun h hmem =>
    not_dot_of_isXDigit (h 46 hmem) rfl
  have hlen : (k.tag host).length = k.cloakNetwork.length + 1 + hex.length := by
    rw [htag, List.length_append, List.length_cons]
    omega
  by_cases hfits : Fits k host
  · refine ⟨fun _ => Or.inl hfits, fun _ => ?_⟩
    rw [intoVirthost_of_le (by rw [List.length_append, List.length_cons]; unfold Fits at hfits; omega)]
    exact tag_dot_isCloaked k (Or.inl rfl)
  · by_cases hroom : (k.tag host).length + 1 ≤ hostLen
    · -- the cut is in the host
      have hcut : intoVirthost (k.tag host ++ 46 :: host)
          = k.tag host ++ 46 :: host.take (hostLen - ((k.tag host).length + 1)) := by
        unfold intoVirthost
        rw [List.take_append, List.take_of_length_le (by omega)]
        have hsub : hostLen - (k.tag host).length = hostLen - ((k.tag host).length + 1) + 1 := by omega
        rw [hsub, List.take_succ_cons]
      rw [hcut]
      constructor
      · rintro ⟨sign', hex', p, heq, -, -, -, hhex', hp⟩
        rw [htag, List.append_assoc, List.append_assoc] at heq
        have htail := List.append_cancel_left heq
        rw [List.cons_append, List.cons_append] at htail
        obtain ⟨-, htake⟩ := append_cons_inj_of_not_mem (hnodot hhex) (hnodot hhex') (List.cons.inj htail).2
        rw [← htag] at htake
        rw [← htake] at hp
        refine Or.inr ⟨hroom, hp.of_take ?_⟩
        unfold Fits at hfits
        omega
      · rintro (h | ⟨-, q, hq⟩)
        · exact absurd h hfits
        · exact tag_dot_isCloaked k (Or.inr ⟨q, hq⟩)
    · -- the cut is before the dot
      refine ⟨fun h => ?_, fun h => ?_⟩
      · obtain ⟨sign', hex', p, heq, -, -, -, -, -⟩ := h
        exfalso
        have hcut : intoVirthost (k.tag host ++ 46 :: host) = (k.tag host).take hostLen := by
          unfold intoVirthost
          rw [List.take_append_of_le_length (by omega)]
        rw [hcut, htag] at heq
        -- behind the network and the sign there are digits only
        have hlong := congrArg List.length heq
        simp only [List.length_take, List.length_append, List.length_cons] at hlong
        have htake : (k.cloakNetwork ++ sign :: hex).take hostLen
            = k.cloakNetwork ++ (sign :: hex).take (hostLen - k.cloakNetwork.length) := by
          rw [List.take_append, List.take_of_length_le (by omega)]
        rw [htake, List.append_assoc] at heq
        have htail := List.append_cancel_left heq
        obtain ⟨m, hm⟩ : ∃ m, hostLen - k.cloakNetwork.length = m + 1 := ⟨hostLen - k.cloakNetwork.length - 1, by omega⟩
        rw [hm, List.take_succ_cons, List.cons_append] at htail
        have hdigits := (List.cons.inj htail).2
        have hmem : (46 : UInt8) ∈ hex.take m := by
          rw [hdigits]
          exact List.mem_append_right _ List.mem_cons_self
        exact hnodot hhex (List.mem_of_mem_take hmem)
      · rcases h with h | h
        · exact absurd h hfits
        · exact absurd h.1 hroom

/-- The trimmed host fits behind the tag. -/
theorem tag_dot_length (k : Setup) {host p : Bytes}
    (h : p.length + 1 + (k.cloakNetwork.length + 10) ≤ hostLen) :
    (k.tag host ++ 46 :: p).length ≤ hostLen := by
  obtain ⟨sign, hex, htag, -, -, hle, -⟩ := k.tag_eq host
  rw [htag]
  simp only [List.length_append, List.length_cons]
  omega

/-- What `cloak_host` makes of a host name has its whole form, except where the host has one
    dot and is too long: there nothing shortens it before it is cut off. -/
theorem cloakHost_whole_iff (k : Setup) (host : Bytes) (hletter : host.any isLetter = true) :
    ((cloakHost k host).1 = true → IsCloaked k.cloakNetwork host (cloakHost k host).2) ↔
      (host.count 46 = 1 → Fits k host ∨ CutAtLabel k host) := by
  unfold cloakHost
  rw [if_pos hletter]
  by_cases hnone : host.count 46 = 0
  · rw [if_pos hnone]
    refine ⟨fun _ hone => ?_, fun _ h => by cases h⟩
    omega
  · rw [if_neg hnone]
    by_cases hone : host.count 46 = 1
    · rw [if_pos hone]
      exact ⟨fun h _ => (isCloaked_one_dot k host).mp (h rfl),
        fun h _ => (isCloaked_one_dot k host).mpr (h hone)⟩
    · rw [if_neg hone]
      refine ⟨fun _ h => absurd h hone, fun _ => ?_⟩
      cases htrim : trimLabels (k.cloakNetwork.length + 10) host with
      | none => exact fun h => by cases h
      | some p =>
        intro _
        obtain ⟨hsuffix, hshort⟩ := trimLabels_eq_some htrim
        show IsCloaked k.cloakNetwork host (intoVirthost (k.tag host ++ 46 :: p))
        rw [intoVirthost_of_le (tag_dot_length k hshort)]
        exact tag_dot_isCloaked k (Or.inr hsuffix)

/-- `Azzurra`. -/
def azzurra : Bytes := [65, 122, 122, 117, 114, 114, 97]

/-- `alice.example`. -/
def aliceHost : Bytes := [97, 108, 105, 99, 101, 46, 101, 120, 97, 109, 112, 108, 101]

/-- The digest of `alice.example` with the word `bluebox` as the key, twenty times over. -/
def aliceSetup : Setup where
  cloakNetwork := azzurra
  sha1Hash s := if s = aliceHost then
      [99, 57, 55, 101, 50, 53, 57, 57, 101, 56, 57, 99, 54, 56, 48, 100, 100, 50, 50, 51,
       102, 102, 52, 98, 53, 101, 55, 102, 49, 49, 55, 51, 51, 56, 99, 56, 97, 48, 57, 54]
    else []

/-- `alice.example` becomes `Azzurra=6309ED96.alice.example`. -/
theorem cloakHost_whole_alice :
    cloakHost aliceSetup aliceHost = (true, azzurra ++ [61, 54, 51, 48, 57, 69, 68, 57, 54, 46] ++ aliceHost) ∧
      IsCloaked azzurra aliceHost (cloakHost aliceSetup aliceHost).2 :=
  ⟨by decide +kernel, (cloakHost_whole_iff aliceSetup aliceHost (by decide)).mpr
    (fun _ => Or.inl (by decide +kernel)) (by decide +kernel)⟩

/-- A host name of 63 bytes with one dot: 60 bytes `a`, then `.it`. -/
def longHost : Bytes := List.replicate 60 97 ++ [46, 105, 116]

/-- Whatever the digest is, the end of the long host is missing. -/
theorem not_cloakHost_whole :
    longHost.length ≤ hostLen ∧ longHost.any isLetter = true ∧ ∀ sha1Hash : Bytes → Bytes,
      (cloakHost ⟨azzurra, sha1Hash⟩ longHost).1 = true ∧
        ¬ IsCloaked azzurra longHost (cloakHost ⟨azzurra, sha1Hash⟩ longHost).2 := by
  refine ⟨by decide, by decide, fun sha1Hash => ?_⟩
  have hwhole : (cloakHost ⟨azzurra, sha1Hash⟩ longHost)
      = (true, intoVirthost ((Setup.mk azzurra sha1Hash).tag longHost ++ 46 :: longHost)) := by
    unfold cloakHost
    rw [if_pos (by decide), if_neg (by decide), if_pos (by decide)]
  obtain ⟨sign, hex, htag, -, hpos, hle, -⟩ := (Setup.mk azzurra sha1Hash).tag_eq longHost
  have hlen : ((Setup.mk azzurra sha1Hash).tag longHost).length = 8 + hex.length := by
    rw [htag, List.length_append, List.length_cons]
    show 7 + (hex.length + 1) = 8 + hex.length
    omega
  refine ⟨by rw [hwhole], ?_⟩
  rw [hwhole]
  intro hform
  rcases (isCloaked_one_dot ⟨azzurra, sha1Hash⟩ longHost).mp hform with hfits | ⟨-, q, hq⟩
  · unfold Fits at hfits
    rw [hlen] at hfits
    have hhost : longHost.length = 63 := by decide
    unfold hostLen at hfits
    omega
  · -- the cut is too far from the end to leave a last label
    have hcut := congrArg List.length hq
    have hat : longHost[q.length]? = some 46 := by
      refine (congrArg (fun l => l[q.length]?) hq).trans ?_
      simp
    have hhost : longHost.length = 63 := by decide
    rw [List.length_append, List.length_cons, List.length_take, hlen, hhost] at hcut
    unfold hostLen at hcut
    have hbefore : longHost[q.length]? = some 97 := by
      unfold longHost
      rw [List.getElem?_append_left (by rw [List.length_replicate]; omega),
        List.getElem?_replicate_of_lt (by omega)]
    rw [hbefore] at hat
    exact absurd (Option.some.inj hat) (by decide)

end Bluebox.Vhost
