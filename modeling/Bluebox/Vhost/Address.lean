/-
  Bluebox.Vhost.Address

  `cloak_host` on hosts that are addresses.  It tells them from names by a letter, so an
  IPv6 address with a hexadecimal letter in it is taken for a name.
-/
import Bluebox.Vhost.Basic

namespace Bluebox.Vhost

open Bluebox.Lib

-- ============================================================================
-- The text of an address
-- ============================================================================

/-- A group of decimal digits, of an IPv4 address. -/
def IsOctet (g : Bytes) : Prop := g ≠ [] ∧ g.length ≤ 3 ∧ ∀ b ∈ g, isDigit b = true

/-- A group of hexadecimal digits, of an IPv6 address. -/
def IsHextet (g : Bytes) : Prop :=
  g ≠ [] ∧ g.length ≤ 4 ∧ ∀ b ∈ g, (isDigit b || (65 ≤ b && b ≤ 70) || (97 ≤ b && b ≤ 102)) = true

/-- A dotted quad. -/
def IsQuad (s : Bytes) : Prop :=
  ∃ a b c d, IsOctet a ∧ IsOctet b ∧ IsOctet c ∧ IsOctet d ∧
    s = a ++ 46 :: (b ++ 46 :: (c ++ 46 :: d))

/-- Groups with colons between them. -/
def joinColon : List Bytes → Bytes
  | [] => []
  | [g] => g
  | g :: l => g ++ 58 :: joinColon l

/-- Groups for so many of the eight words of an IPv6 address; a dotted quad at their end
    stands for two. -/
inductive Groups : List Bytes → Nat → Prop
  | nil : Groups [] 0
  | quad {s : Bytes} : IsQuad s → Groups [s] 2
  | hextet {g : Bytes} {l : List Bytes} {n : Nat} : IsHextet g → Groups l n → Groups (g :: l) (n + 1)

/-- The text of an IPv4 or IPv6 address.  In the latter one run of zero words may be left
    out between two colons. -/
inductive IsAddress : Bytes → Prop
  | ipv4 {s : Bytes} : IsQuad s → IsAddress s
  | ipv6 {l : List Bytes} : Groups l 8 → IsAddress (joinColon l)
  | ipv6Short {l r : List Bytes} {n : Nat} : (∀ g ∈ l, IsHextet g) → Groups r n → l.length + n ≤ 7 →
      IsAddress (joinColon l ++ 58 :: 58 :: joinColon r)

/-- The bytes of an address: digits, the letters up to `f`, dots and colons. -/
def isAddressChar (b : UInt8) : Bool :=
  isDigit b || (65 ≤ b && b ≤ 70) || (97 ≤ b && b ≤ 102) || b == 46 || b == 58

/-- What `cloak_host` sees of an address: its bytes, and no dot or three. -/
structure AddressLike (s : Bytes) : Prop where
  chars : ∀ b ∈ s, isAddressChar b = true
  dots : s.count 46 = 0 ∨ s.count 46 = 3

theorem IsOctet.like {g : Bytes} (h : IsOctet g) : (∀ b ∈ g, isAddressChar b = true) ∧ g.count 46 = 0 := by
  refine ⟨fun b hb => ?_, List.count_eq_zero.mpr fun hdot => ?_⟩
  · unfold isAddressChar
    rw [h.2.2 b hb]
    rfl
  · exact absurd (h.2.2 46 hdot) (by decide)

theorem IsHextet.like {g : Bytes} (h : IsHextet g) : (∀ b ∈ g, isAddressChar b = true) ∧ g.count 46 = 0 := by
  refine ⟨fun b hb => ?_, List.count_eq_zero.mpr fun hdot => ?_⟩
  · unfold isAddressChar
    rw [h.2.2 b hb]
    rfl
  · exact absurd (h.2.2 46 hdot) (by decide)

theorem chars_append_cons {a b : Bytes} {c : UInt8} (ha : ∀ x ∈ a, isAddressChar x = true)
    (hb : ∀ x ∈ b, isAddressChar x = true) (hc : isAddressChar c = true) :
    ∀ x ∈ a ++ c :: b, isAddressChar x = true := by
  intro x hx
  rcases List.mem_append.mp hx with hx | hx
  · exact ha x hx
  · rcases List.mem_cons.mp hx with rfl | hx
    · exact hc
    · exact hb x hx

theorem IsQuad.like {s : Bytes} (h : IsQuad s) : (∀ b ∈ s, isAddressChar b = true) ∧ s.count 46 = 3 := by
  obtain ⟨a, b, c, d, ha, hb, hc, hd, rfl⟩ := h
  refine ⟨chars_append_cons ha.like.1 (chars_append_cons hb.like.1
    (chars_append_cons hc.like.1 hd.like.1 (by decide)) (by decide)) (by decide), ?_⟩
  rw [List.count_append, List.count_cons_self, List.count_append, List.count_cons_self,
    List.count_append, List.count_cons_self, ha.like.2, hb.like.2, hc.like.2, hd.like.2]

theorem joinColon_cons (g : Bytes) {l : List Bytes} (h : l ≠ []) :
    joinColon (g :: l) = g ++ 58 :: joinColon l := by
  cases l with
  | nil => exact absurd rfl h
  | cons g' l => rfl

theorem joinColon_hextets {l : List Bytes} (h : ∀ g ∈ l, IsHextet g) :
    (∀ b ∈ joinColon l, isAddressChar b = true) ∧ (joinColon l).count 46 = 0 := by
  induction l with
  | nil => exact ⟨fun b hb => absurd hb List.not_mem_nil, rfl⟩
  | cons g l ih =>
    obtain ⟨hg, hl⟩ := List.forall_mem_cons.mp h
    by_cases hnil : l = []
    · rw [hnil]
      exact hg.like
    · rw [joinColon_cons g hnil]
      refine ⟨chars_append_cons hg.like.1 (ih hl).1 (by decide), ?_⟩
      rw [List.count_append, List.count_cons_of_ne (by decide), hg.like.2, (ih hl).2]

theorem Groups.like {l : List Bytes} {n : Nat} (h : Groups l n) : AddressLike (joinColon l) := by
  induction h with
  | nil => exact ⟨fun b hb => absurd hb List.not_mem_nil, Or.inl rfl⟩
  | quad hq => exact ⟨hq.like.1, Or.inr hq.like.2⟩
  | @hextet g l n hg _ ih =>
    by_cases hnil : l = []
    · rw [hnil]
      exact ⟨hg.like.1, Or.inl hg.like.2⟩
    · rw [joinColon_cons g hnil]
      refine ⟨chars_append_cons hg.like.1 ih.chars (by decide), ?_⟩
      rw [List.count_append, List.count_cons_of_ne (by decide), hg.like.2, Nat.zero_add]
      exact ih.dots

theorem IsAddress.like {s : Bytes} (h : IsAddress s) : AddressLike s := by
  cases h with
  | ipv4 hq => exact ⟨hq.like.1, Or.inr hq.like.2⟩
  | ipv6 hl => exact hl.like
  | @ipv6Short l r n hl hr _ =>
    obtain ⟨hchars, hdots⟩ := joinColon_hextets hl
    refine ⟨chars_append_cons hchars ?_ (by decide), ?_⟩
    · intro b hb
      rcases List.mem_cons.mp hb with rfl | hb
      · decide
      · exact hr.like.chars b hb
    · rw [List.count_append, List.count_cons_of_ne (by decide), List.count_cons_of_ne (by decide),
        hdots, Nat.zero_add]
      exact hr.like.dots

-- ============================================================================
-- What is shown of an address
-- ============================================================================

/-- The cloaked host shows at most the first two of the groups between the dots. -/
def ShowsTwoGroups (k : Setup) (host virthost : Bytes) : Prop :=
  virthost = intoVirthost (k.tag host) ∨
    ∃ a b rest, 46 ∉ a ∧ 46 ∉ b ∧ host = a ++ 46 :: (b ++ 46 :: rest) ∧
      virthost = intoVirthost (a ++ 46 :: (b ++ 46 :: k.tag host))

theorem not_mem_takeWhile_ne (s : Bytes) : (46 : UInt8) ∉ s.takeWhile (· != 46) := fun h => by
  have hne := List.mem_takeWhile_imp h
  exact absurd rfl (bne_iff_ne.mp hne)

/-- A text is what comes before its first dot, the dot and the rest. -/
theorem eq_of_dropWhile_cons {s r : Bytes} {c : UInt8} (h : s.dropWhile (· != 46) = c :: r) :
    c = 46 ∧ s = s.takeWhile (· != 46) ++ 46 :: r := by
  have hc : c = 46 := by
    have hhead := List.head?_dropWhile_not (· != 46) s
    rw [h] at hhead
    simpa using hhead
  have hsplit := List.takeWhile_append_dropWhile (p := (· != 46)) (l := s)
  rw [h, hc] at hsplit
  exact ⟨hc, hsplit.symm⟩

theorem cutIpmask_eq_some {s m : Bytes} (h : cutIpmask s = some m) :
    ∃ a b r, 46 ∉ a ∧ 46 ∉ b ∧ s = a ++ 46 :: (b ++ 46 :: r) ∧ m = a ++ 46 :: b := by
  unfold cutIpmask at h
  cases hdrop : s.dropWhile (· != 46) with
  | nil =>
    rw [hdrop] at h
    cases h
  | cons c r =>
    rw [hdrop] at h
    dsimp only at h
    obtain ⟨hc, hs⟩ := eq_of_dropWhile_cons hdrop
    by_cases hmore : r.contains 46 = true
    · rw [if_pos hmore] at h
      cases hdrop' : r.dropWhile (· != 46) with
      | nil =>
        have hall := List.dropWhile_eq_nil_iff.mp hdrop' 46 (List.contains_iff_mem.mp hmore)
        exact absurd rfl (bne_iff_ne.mp hall)
      | cons c' r' =>
        obtain ⟨-, hr⟩ := eq_of_dropWhile_cons hdrop'
        refine ⟨_, _, r', not_mem_takeWhile_ne s, not_mem_takeWhile_ne r, ?_, ?_⟩
        · rw [← hr]
          exact hs
        · rw [hc] at h
          exact (Option.some.inj h).symm
    · rw [if_neg hmore] at h
      cases h

/-- Without a letter the address is cloaked as one. -/
theorem cloakHost_numeric (k : Setup) {host : Bytes} (hletter : host.any isLetter = false) :
    (cloakHost k host).1 = true ∧ ShowsTwoGroups k host (cloakHost k host).2 := by
  unfold cloakHost
  rw [if_neg (by rw [hletter]; exact Bool.false_ne_true)]
  cases hcut : cutIpmask (strlcpy host 16) with
  | none => exact ⟨rfl, Or.inl rfl⟩
  | some m =>
    obtain ⟨a, b, r, ha, hb, hs, rfl⟩ := cutIpmask_eq_some hcut
    refine ⟨rfl, Or.inr ⟨a, b, r ++ host.drop 15, ha, hb, ?_, ?_⟩⟩
    · have hhost := List.take_append_drop 15 host
      unfold strlcpy at hs
      rw [hs] at hhost
      simpa using hhost.symm
    · show intoVirthost ((a ++ 46 :: b) ++ 46 :: k.tag host) = _
      rw [List.append_assoc, List.cons_append]

/-- The text of a host name shows more than the first two groups. -/
theorem not_showsTwoGroups (k : Setup) {host p : Bytes} (hlike : ∀ b ∈ host, isAddressChar b = true)
    (hsuffix : ∃ q, host = q ++ 46 :: p) : ¬ ShowsTwoGroups k host (k.tag host ++ 46 :: p) := by
  obtain ⟨sign, hex, htag, hsign, -, -, hhex⟩ := k.tag_eq host
  have haddr : isAddressChar sign = false ∧ isXDigit sign = false ∧ sign ≠ 46 := by
    rcases hsign with rfl | rfl <;> decide
  have hsignHex : sign ∉ hex := fun h => by
    rw [hhex sign h] at haddr
    cases haddr.2.1
  have hsignHost : sign ∉ host := fun h => by
    rw [hlike sign h] at haddr
    cases haddr.1
  rintro (hbare | ⟨a, b, rest, -, -, hhost, hshown⟩)
  · -- there is something behind the tag
    have hlen := congrArg List.length hbare
    unfold intoVirthost at hlen
    simp only [List.length_append, List.length_cons, List.length_take] at hlen
    omega
  · obtain ⟨q, hq⟩ := hsuffix
    have hsignTail : sign ∉ hex ++ 46 :: p := by
      rw [List.mem_append, List.mem_cons]
      rintro (h | h | h)
      · exact hsignHex h
      · exact haddr.2.2 h
      · refine hsignHost ?_
        rw [hq]
        exact List.mem_append_right _ (List.mem_cons_of_mem _ h)
    -- the groups come before the network, and have no sign
    have hgroups : a ++ 46 :: (b ++ 46 :: k.tag host) = (a ++ 46 :: (b ++ [46])) ++ k.tag host := by
      simp
    have hsignGroups : sign ∉ a ++ 46 :: (b ++ [46]) := fun h => hsignHost <| by
      rw [hhost]
      simp only [List.mem_append, List.mem_cons, List.not_mem_nil] at h ⊢
      tauto
    have hpos : 0 < (a ++ 46 :: (b ++ [46])).length := by
      rw [List.length_append, List.length_cons]
      omega
    rw [hgroups] at hshown
    generalize a ++ 46 :: (b ++ [46]) = g at hshown hsignGroups hpos
    unfold intoVirthost at hshown
    rw [List.take_append, htag, List.append_assoc, List.cons_append] at hshown
    generalize hostLen - g.length = m at hshown
    by_cases hcut : m ≤ k.cloakNetwork.length
    · -- the sign of the tag is cut off
      rw [List.take_append_of_le_length hcut] at hshown
      have hcount := congrArg (List.count sign) hshown
      have hnone : (g.take hostLen).count sign = 0 :=
        List.count_eq_zero.mpr fun h => hsignGroups (List.mem_of_mem_take h)
      have hless : (k.cloakNetwork.take m).count sign ≤ k.cloakNetwork.count sign :=
        (List.take_sublist m _).count_le sign
      simp only [List.count_append, List.count_cons_self, hnone] at hcount
      omega
    · -- it stands behind the groups too
      obtain ⟨j, hj⟩ : ∃ j, m - k.cloakNetwork.length = j + 1 := ⟨m - k.cloakNetwork.length - 1, by omega⟩
      rw [List.take_append, List.take_of_length_le (l := k.cloakNetwork) (by omega), hj,
        List.take_succ_cons, ← List.append_assoc] at hshown
      obtain ⟨hnet, -⟩ := append_cons_inj_of_not_mem_right hsignTail
        (fun h => hsignHex (List.mem_of_mem_take h)) hshown
      have hlen := congrArg List.length hnet
      have hkept : g.take hostLen ≠ [] := by
        intro hnil
        have hzero := congrArg List.length hnil
        rw [List.length_take, List.length_nil] at hzero
        unfold hostLen at hzero
        omega
      rw [List.length_append] at hlen
      exact hkept (List.length_eq_zero_iff.mp (by omega))

/-- An address is cloaked as one exactly if it has no letter. -/
theorem cloakHost_address_iff (k : Setup) (host : Bytes) (haddress : IsAddress host) :
    ((cloakHost k host).1 = true ∧ ShowsTwoGroups k host (cloakHost k host).2) ↔
      host.any isLetter = false := by
  have hlike := haddress.like
  refine ⟨fun h => ?_, cloakHost_numeric k⟩
  by_contra hletter
  rw [Bool.not_eq_false] at hletter
  unfold cloakHost at h
  rw [if_pos hletter] at h
  rcases hlike.dots with hdots | hdots
  · rw [if_pos hdots] at h
    cases h.1
  · rw [if_neg (by omega), if_neg (by omega)] at h
    cases htrim : trimLabels (k.cloakNetwork.length + 10) host with
    | none =>
      rw [htrim] at h
      cases h.1
    | some p =>
      rw [htrim] at h
      obtain ⟨hsuffix, hshort⟩ := trimLabels_eq_some htrim
      have hfit : (k.tag host ++ 46 :: p).length ≤ hostLen := tag_dot_length k hshort
      have hshown : ShowsTwoGroups k host (intoVirthost (k.tag host ++ 46 :: p)) := h.2
      rw [intoVirthost_of_le hfit] at hshown
      exact not_showsTwoGroups k hlike.chars hsuffix hshown

/-- `fe80::1`. -/
def linkLocal : Bytes := [102, 101, 56, 48, 58, 58, 49]

/-- `10.1.2.3`. -/
def tenNet : Bytes := [49, 48, 46, 49, 46, 50, 46, 51]

theorem isAddress_tenNet : IsAddress tenNet := by
  have hdigit : ∀ b : UInt8, isDigit b = true → IsOctet [b] := fun b hb =>
    ⟨List.cons_ne_nil _ _, Nat.succ_le_succ (Nat.zero_le 2), fun c hc => by
      rw [List.mem_singleton.mp hc]
      exact hb⟩
  exact IsAddress.ipv4 ⟨[49, 48], [49], [50], [51],
    ⟨by decide, by decide, List.all_eq_true.mp (by decide)⟩,
    hdigit 49 (by decide), hdigit 50 (by decide), hdigit 51 (by decide), rfl⟩

/-- Of `10.1.2.3` the first two groups are shown. -/
theorem cloakHost_address_tenNet :
    (cloakHost aliceSetup tenNet).1 = true ∧
      ShowsTwoGroups aliceSetup tenNet (cloakHost aliceSetup tenNet).2 :=
  (cloakHost_address_iff aliceSetup tenNet isAddress_tenNet).mpr (by decide)

/-- `fe80::1` is not cloaked at all, whatever the network and the digest are. -/
theorem not_cloakHost_address :
    IsAddress linkLocal ∧ ∀ k : Setup, (cloakHost k linkLocal).1 = false := by
  refine ⟨IsAddress.ipv6Short (l := [[102, 101, 56, 48]]) (r := [[49]]) (n := 1) ?_
    (Groups.hextet ⟨by decide, by decide, List.all_eq_true.mp (by decide)⟩ Groups.nil) (by decide), fun k => ?_⟩
  · intro g hg
    rw [List.mem_singleton.mp hg]
    exact ⟨by decide, by decide, List.all_eq_true.mp (by decide)⟩
  · unfold cloakHost
    rw [if_pos (by decide), if_pos (by decide)]

end Bluebox.Vhost
