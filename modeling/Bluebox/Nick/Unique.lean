/-
  Bluebox.Nick.Unique

  Nicks in the hash table over whole runs.

  A nick that does not begin with a digit is looked up among the names before it is taken,
  and only one client can be put aside for it.  Nothing looks among the names for one that
  begins with a digit, and nothing looks for a UID at all.  So nicks stay unique as long as
  a nick that begins with a digit is the UID of its user, and no user gets the UID of
  another: then a client with such a name can only be compared with itself.
-/
import Bluebox.Nick.Follow
import Bluebox.Nick.Hash

namespace Bluebox.NickHash

open Bluebox.Lib
open Bluebox.Nick (cleanNick cleanUsername cleanHost cleanUid nickArg saveNickTs Sid
  initUid generateUid IsNick nickArg_isNick irccmp_ne_of_digit digit_of_cleanUid)

-- ============================================================================
-- Names and IDs
-- ============================================================================

theorem irccmp_trans {s t u : Bytes} (hs : NoNul s) (ht : NoNul t) (hu : NoNul u) (hst : irccmp s t = 0)
    (hsu : irccmp s u = 0) : irccmp t u = 0 :=
  irccmp_eq_zero_trans ht hs hu ((irccmp_eq_zero_comm s t).mp hst) hsu

theorem length_of_irccmp {s t : Bytes} (hs : NoNul s) (ht : NoNul t) (h : irccmp s t = 0) :
    s.length = t.length := by
  have hmap := congrArg List.length ((irccmp_eq_zero_iff hs ht).mp h)
  rwa [List.length_map, List.length_map] at hmap

theorem isDigit_of_irccmp {s t : Bytes} (hne : t ≠ []) (h : irccmp s t = 0)
    (hs : isDigit (s.headD 0) = true) : isDigit (t.headD 0) = true := by
  by_contra ht
  exact irccmp_ne_of_digit hs (Bool.eq_false_iff.mpr ht) hne h

theorem dot_of_irccmp {s t : Bytes} (hs : NoNul s) (ht : NoNul t) (h : irccmp s t = 0) (hdot : 46 ∈ s) :
    46 ∈ t := by
  have hupper : ∀ x : Fin 256, toUpper (UInt8.ofFin x) = 46 → UInt8.ofFin x = 46 := by decide +kernel
  have hmem : (46 : UInt8) ∈ s.map toUpper := List.mem_map.mpr ⟨46, hdot, by decide⟩
  rw [(irccmp_eq_zero_iff hs ht).mp h] at hmem
  obtain ⟨b, hb, hup⟩ := List.mem_map.mp hmem
  have heq : b = 46 := hupper b.toFin hup
  rwa [heq] at hb

/-- The case of the letters does not matter to `clean_uid`. -/
theorem cleanUid_of_irccmp {s t : Bytes} (hs : NoNul s) (ht : NoNul t) (h : irccmp s t = 0)
    (hclean : cleanUid s = true) : cleanUid t = true := by
  have hdigit : ∀ x : Fin 256, isDigit (toUpper (UInt8.ofFin x)) = isDigit (UInt8.ofFin x) := by decide +kernel
  have hid : ∀ x : Fin 256, isIdChar (toUpper (UInt8.ofFin x)) = isIdChar (UInt8.ofFin x) := by decide +kernel
  have hup : ∀ u : Bytes, cleanUid (u.map toUpper) = cleanUid u := by
    intro u
    unfold cleanUid
    rw [List.length_map]
    cases u with
    | nil => rfl
    | cons b u =>
      rw [List.map_cons, List.headD_cons, List.headD_cons, List.tail_cons, List.tail_cons, List.all_map,
        show isDigit (toUpper b) = isDigit b from hdigit b.toFin,
        show isIdChar ∘ toUpper = isIdChar from funext fun c => hid c.toFin]
  rw [← hup t, ← (irccmp_eq_zero_iff hs ht).mp h, hup]
  exact hclean

/-- What `clean_nick` lets through for a remote user. -/
theorem cleanNick_facts {nick : Bytes} {local_ : Bool} (h : cleanNick nick local_ = true) :
    nick ≠ [] ∧ NoNul nick ∧ 46 ∉ nick := by
  unfold cleanNick at h
  simp only [Bool.and_eq_true, bne_iff_ne, ne_eq, List.all_eq_true] at h
  obtain ⟨⟨⟨⟨hne, -⟩, -⟩, hall⟩, -⟩ := h
  exact ⟨hne, fun hmem => absurd (hall 0 hmem) (by decide), fun hmem => absurd (hall 46 hmem) (by decide)⟩

/-- What `clean_uid` lets through. -/
theorem cleanUid_facts {uid : Bytes} (h : cleanUid uid = true) :
    isDigit (uid.headD 0) = true ∧ NoNul uid ∧ 46 ∉ uid ∧ uid.length = 9 := by
  have hdigit := (digit_of_cleanUid h).1
  unfold cleanUid at h
  simp only [Bool.and_eq_true, beq_iff_eq, List.all_eq_true] at h
  obtain ⟨⟨-, htail⟩, hlen⟩ := h
  have hall : ∀ b ∈ uid, b ≠ 0 ∧ b ≠ 46 := by
    intro b hb
    cases uid with
    | nil => cases hb
    | cons d uid =>
      have hd : isDigit d = true := hdigit
      obtain heq | hb := List.mem_cons.mp hb
      · rw [heq]
        exact ⟨fun h0 => absurd hd (by rw [h0]; decide), fun h46 => absurd hd (by rw [h46]; decide)⟩
      · have hid := htail b hb
        exact ⟨fun h0 => absurd hid (by rw [h0]; decide), fun h46 => absurd hid (by rw [h46]; decide)⟩
  exact ⟨hdigit, fun hmem => (hall 0 hmem).1 rfl, fun hmem => (hall 46 hmem).2 rfl, hlen⟩

-- ============================================================================
-- The invariant
-- ============================================================================

/-- No user has this UID, in any case. -/
def World.UidFree (w : World) (uid : Bytes) : Prop :=
  ∀ b ∈ w.idTable, (w.client b).kind = .client → irccmp uid (w.client b).id ≠ 0

/-- The buffer of `generate_uid` is a SID and a reading of the wheels. -/
def World.Counts (w : World) : Prop :=
  ∃ (sid : Sid) (ds : Bytes), Reading Nick.uidWheels ds ∧ w.currentUid = sid.bytes ++ ds

/-- What holds on the way. -/
structure World.Inv (w : World) : Prop where
  nodup : w.clientTable.Nodup
  lt : ∀ a, a ∈ w.clientTable ∨ a ∈ w.unknownList → a < w.next
  text : ∀ a ∈ w.clientTable, (w.client a).name ≠ [] ∧ NoNul (w.client a).name
  unique : w.NicksUnique
  servName : ∀ a ∈ w.clientTable, w.isServer a = true → 46 ∈ (w.client a).name
  owner : ∀ a ∈ w.clientTable, cleanUid (w.client a).name = true →
    (w.client a).kind = .client ∧ a ∈ w.idTable ∧ irccmp (w.client a).name (w.client a).id = 0
  ids : ∀ a ∈ w.idTable, (w.client a).kind = .client → ∀ b ∈ w.idTable, (w.client b).kind = .client →
    irccmp (w.client a).id (w.client b).id = 0 → a = b
  uid : ∀ a ∈ w.idTable, (w.client a).kind = .client ∧ cleanUid (w.client a).id = true ∨ w.isServer a = true
  known : ∀ a ∈ w.idTable, a ∈ w.clientTable
  filed : ∀ a ∈ w.clientTable, (w.client a).kind = .client → (w.client a).id ≠ [] → a ∈ w.idTable
  home : ∀ a ∈ w.clientTable, (w.client a).kind = .client → (w.client a).myConnect = true →
    (w.client a).id ≠ []
  counts : w.Counts

variable {k : Setup} {w w' : World} {a b : Nat} {nick : Bytes}

theorem World.isServer_of_client (h : (w.client a).kind = .client) : w.isServer a = false := by
  unfold World.isServer
  rw [h]
  rfl

theorem World.isServer_of_unknown (h : (w.client a).kind = .unknown) : w.isServer a = false := by
  unfold World.isServer
  rw [h]
  rfl

theorem World.Inv.cleanUid (h : w.Inv) (ha : a ∈ w.idTable) (hk : (w.client a).kind = .client) :
    cleanUid (w.client a).id = true := by
  obtain ⟨-, hclean⟩ | hserver := h.uid a ha
  · exact hclean
  · rw [World.isServer_of_client hk] at hserver
    cases hserver

/-- A name that is the same as a UID is that of the user with this UID. -/
theorem World.Inv.uid_of_name (h : w.Inv) {uid : Bytes} (hclean : Nick.cleanUid uid = true)
    (hb : b ∈ w.clientTable) (heq : irccmp uid (w.client b).name = 0) :
    b ∈ w.idTable ∧ (w.client b).kind = .client ∧ irccmp uid (w.client b).id = 0 := by
  have hnul := (cleanUid_facts hclean).2.1
  have hnul' := (h.text b hb).2
  obtain ⟨hk, hid, hname⟩ := h.owner b hb (cleanUid_of_irccmp hnul hnul' heq hclean)
  have hnul'' := (cleanUid_facts (h.cleanUid hid hk)).2.1
  exact ⟨hid, hk, irccmp_eq_zero_trans hnul hnul' hnul'' heq hname⟩

/-- Nobody else has the ID of a user as its name. -/
theorem World.Inv.own_id (h : w.Inv) (ha : a ∈ w.idTable) (hk : (w.client a).kind = .client)
    (hb : b ∈ w.clientTable) (heq : irccmp (w.client a).id (w.client b).name = 0) : b = a := by
  obtain ⟨hid, hk', hsame⟩ := h.uid_of_name (h.cleanUid ha hk) hb heq
  exact (h.ids a ha hk b hid hk' hsame).symm

/-- Nobody has a UID as its name that no user has. -/
theorem World.Inv.free_of_uidFree (h : w.Inv) {uid : Bytes} (hclean : Nick.cleanUid uid = true)
    (hfree : w.UidFree uid) : ∀ b ∈ w.clientTable, irccmp uid (w.client b).name ≠ 0 := by
  intro b hb heq
  obtain ⟨hid, hk, hsame⟩ := h.uid_of_name hclean hb heq
  exact hfree b hid hk hsame

-- ============================================================================
-- One client changes
-- ============================================================================

/-- Only `a` changes, and where it stands. -/
structure World.Changes (w w' : World) (a : Nat) : Prop where
  other : ∀ b, b ≠ a → w'.client b = w.client b
  table : ∀ b, b ≠ a → (b ∈ w'.clientTable ↔ b ∈ w.clientTable)
  idTable : ∀ b, b ≠ a → (b ∈ w'.idTable ↔ b ∈ w.idTable)
  unknownList : ∀ b, b ≠ a → b ∈ w'.unknownList → b ∈ w.unknownList
  nodup : w.clientTable.Nodup → w'.clientTable.Nodup
  next : w.next ≤ w'.next

/-- What a user has to bring for its place in the tables. -/
structure World.Fits (w w' : World) (a : Nat) : Prop where
  user : w'.isServer a = false
  lt : a < w'.next
  text : a ∈ w'.clientTable → (w'.client a).name ≠ [] ∧ NoNul (w'.client a).name
  name : a ∈ w'.clientTable → ∀ b ∈ w.clientTable, irccmp (w'.client a).name (w.client b).name = 0 → b = a
  owner : a ∈ w'.clientTable → Nick.cleanUid (w'.client a).name = true →
    (w'.client a).kind = .client ∧ a ∈ w'.idTable ∧ irccmp (w'.client a).name (w'.client a).id = 0
  uid : a ∈ w'.idTable → (w'.client a).kind = .client ∧ Nick.cleanUid (w'.client a).id = true ∧ a ∈ w'.clientTable
  ids : a ∈ w'.idTable → ∀ b ∈ w.idTable, (w.client b).kind = .client →
    irccmp (w'.client a).id (w.client b).id = 0 → b = a
  filed : a ∈ w'.clientTable → (w'.client a).kind = .client → (w'.client a).id ≠ [] → a ∈ w'.idTable
  home : a ∈ w'.clientTable → (w'.client a).kind = .client → (w'.client a).myConnect = true →
    (w'.client a).id ≠ []
  counts : w'.Counts

/-- The invariant holds if the client that changed fits in. -/
theorem World.Inv.changes (h : w.Inv) (hc : w.Changes w' a) (hf : w.Fits w' a) : w'.Inv := by
  have hserver : ∀ {b}, b ≠ a → w'.isServer b = w.isServer b := by
    intro b hb
    unfold World.isServer
    rw [hc.other b hb]
  refine ⟨hc.nodup h.nodup, fun b hb => ?_, fun b hb => ?_, fun b hb d hd heq => ?_, fun b hb hs => ?_,
    fun b hb hclean => ?_, fun b hb hk d hd hk' heq => ?_, fun b hb => ?_, fun b hb => ?_, fun b hb hk hid => ?_,
    fun b hb hk hm => ?_, hf.counts⟩ <;> by_cases hba : b = a
  · exact hba ▸ hf.lt
  · exact Nat.lt_of_lt_of_le (h.lt b (hb.imp (hc.table b hba).mp (hc.unknownList b hba))) hc.next
  · subst hba
    exact hf.text hb
  · rw [hc.other b hba]
    exact h.text b ((hc.table b hba).mp hb)
  · subst hba
    by_cases hdb : d = b
    · exact hdb.symm
    · rw [hc.other d hdb] at heq
      exact (hf.name hb d ((hc.table d hdb).mp hd) heq).symm
  · rw [hc.other b hba] at heq
    by_cases hda : d = a
    · subst hda
      rw [irccmp_eq_zero_comm] at heq
      exact hf.name hd b ((hc.table b hba).mp hb) heq
    · rw [hc.other d hda] at heq
      exact h.unique b ((hc.table b hba).mp hb) d ((hc.table d hda).mp hd) heq
  · rw [hba, hf.user] at hs
    cases hs
  · rw [hserver hba] at hs
    rw [hc.other b hba]
    exact h.servName b ((hc.table b hba).mp hb) hs
  · subst hba
    exact hf.owner hb hclean
  · rw [hc.other b hba] at hclean ⊢
    rw [hc.idTable b hba]
    exact h.owner b ((hc.table b hba).mp hb) hclean
  · subst hba
    by_cases hdb : d = b
    · exact hdb.symm
    · rw [hc.other d hdb] at hk' heq
      exact (hf.ids hb d ((hc.idTable d hdb).mp hd) hk' heq).symm
  · rw [hc.other b hba] at hk heq
    by_cases hda : d = a
    · subst hda
      rw [irccmp_eq_zero_comm] at heq
      exact hf.ids hd b ((hc.idTable b hba).mp hb) hk heq
    · rw [hc.other d hda] at hk' heq
      exact h.ids b ((hc.idTable b hba).mp hb) hk d ((hc.idTable d hda).mp hd) hk' heq
  · subst hba
    exact Or.inl ⟨(hf.uid hb).1, (hf.uid hb).2.1⟩
  · rw [hc.other b hba, hserver hba]
    exact h.uid b ((hc.idTable b hba).mp hb)
  · subst hba
    exact (hf.uid hb).2.2
  · exact (hc.table b hba).mpr (h.known b ((hc.idTable b hba).mp hb))
  · subst hba
    exact hf.filed hb hk hid
  · rw [hc.other b hba] at hk hid
    exact (hc.idTable b hba).mpr (h.filed b ((hc.table b hba).mp hb) hk hid)
  · subst hba
    exact hf.home hb hk hm
  · rw [hc.other b hba] at hk hm ⊢
    exact h.home b ((hc.table b hba).mp hb) hk hm

/-- A client that has not been there before. -/
theorem World.Inv.fresh (h : w.Inv) : w.next ∉ w.clientTable ∧ w.next ∉ w.idTable := by
  have hnew : w.next ∉ w.clientTable := fun hin => Nat.lt_irrefl _ (h.lt w.next (Or.inl hin))
  exact ⟨hnew, fun hin => hnew (h.known _ hin)⟩

-- ============================================================================
-- A name changes
-- ============================================================================

/-- A client has another name, and stands in the table. -/
structure Renames (w w' : World) (a : Nat) (nick : Bytes) : Prop where
  name : (w'.client a).name = nick
  kind : (w'.client a).kind = (w.client a).kind
  id : (w'.client a).id = (w.client a).id
  home : (w'.client a).myConnect = (w.client a).myConnect
  other : ∀ b, b ≠ a → w'.client b = w.client b
  table : ∀ b, b ∈ w'.clientTable ↔ b = a ∨ b ∈ w.clientTable
  nodup : w.clientTable.Nodup → w'.clientTable.Nodup
  idTable : w'.idTable = w.idTable
  unknownList : w'.unknownList = w.unknownList
  next : w'.next = w.next
  currentUid : w'.currentUid = w.currentUid

theorem renames_rename (w : World) (a : Nat) (nick : Bytes) (ts : Int) : Renames w (w.rename a nick ts) a nick := by
  have hself : (w.rename a nick ts).client a = { w.client a with name := nick, tsinfo := ts } :=
    Function.update_self ..
  refine ⟨by rw [hself], by rw [hself], by rw [hself], by rw [hself],
    fun b hb => Function.update_of_ne hb .., fun b => ?_, fun hnodup => ?_, rfl, rfl, rfl, rfl⟩
  · show b ∈ a :: w.clientTable.erase a ↔ _
    rw [List.mem_cons]
    by_cases hb : b = a
    · exact ⟨fun _ => Or.inl hb, fun _ => Or.inl hb⟩
    · rw [List.mem_erase_of_ne hb]
  · exact List.nodup_cons.mpr ⟨hnodup.not_mem_erase, hnodup.erase a⟩

theorem renames_self (ha : a ∈ w.clientTable) : Renames w w a (w.client a).name := by
  refine ⟨rfl, rfl, rfl, rfl, fun _ _ => rfl, fun b => ⟨Or.inr, fun hb => ?_⟩, fun hnodup => hnodup, rfl, rfl, rfl,
    rfl⟩
  obtain rfl | hb := hb
  · exact ha
  · exact hb

/-- The client is written over in its place. -/
theorem Renames.write {old : Bytes} (hr : Renames w w' a old) {w'' : World} {c : Client}
    (heq : w'' = { w' with client := Function.update w'.client a c }) (hname : c.name = nick)
    (hkind : c.kind = (w'.client a).kind) (hid : c.id = (w'.client a).id)
    (hhome : c.myConnect = (w'.client a).myConnect) : Renames w w'' a nick := by
  have hself : w''.client a = c := by
    rw [heq]
    exact Function.update_self ..
  have hother : ∀ b, b ≠ a → w''.client b = w'.client b := by
    intro b hb
    rw [heq]
    exact Function.update_of_ne hb ..
  have hrest : w''.clientTable = w'.clientTable ∧ w''.idTable = w'.idTable ∧ w''.unknownList = w'.unknownList ∧
      w''.next = w'.next ∧ w''.currentUid = w'.currentUid := by
    rw [heq]
    exact ⟨rfl, rfl, rfl, rfl, rfl⟩
  obtain ⟨hT, hI, hU, hnext, hcur⟩ := hrest
  refine ⟨?_, ?_, ?_, ?_, fun b hb => (hother b hb).trans (hr.other b hb), hT ▸ hr.table, hT ▸ hr.nodup,
    hI.trans hr.idTable, hU.trans hr.unknownList, hnext.trans hr.next, hcur.trans hr.currentUid⟩
  · rw [hself, hname]
  · rw [hself, hkind, hr.kind]
  · rw [hself, hid, hr.id]
  · rw [hself, hhome, hr.home]

theorem Renames.isServer (hr : Renames w w' a nick) : w'.isServer a = w.isServer a := by
  unfold World.isServer
  rw [hr.kind]

theorem Renames.changes (hr : Renames w w' a nick) : w.Changes w' a := by
  refine ⟨hr.other, fun b hb => ?_, fun b _ => ?_, fun b _ => ?_, hr.nodup, Nat.le_of_eq hr.next.symm⟩
  · rw [hr.table]
    exact ⟨fun hin => hin.resolve_left hb, Or.inr⟩
  · rw [hr.idTable]
  · rw [hr.unknownList]
    exact fun hin => hin

/-- A name that nobody else has. -/
theorem World.Inv.renames (h : w.Inv) (hr : Renames w w' a nick) (ha : a < w.next)
    (hserver : w.isServer a = false) (hin : (w.client a).kind = .client → a ∈ w.clientTable)
    (hnick : nick ≠ [] ∧ NoNul nick)
    (hfree : ∀ b ∈ w.clientTable, irccmp nick (w.client b).name = 0 → b = a)
    (howner : Nick.cleanUid nick = true →
      (w.client a).kind = .client ∧ a ∈ w.idTable ∧ irccmp nick (w.client a).id = 0) : w'.Inv := by
  have hclient : a ∈ w.idTable → (w.client a).kind = .client := by
    intro hid
    obtain ⟨hk, -⟩ | hs := h.uid a hid
    · exact hk
    · rw [hserver] at hs
      cases hs
  refine h.changes hr.changes ⟨?_, ?_, fun _ => ?_, fun _ => ?_, fun _ => ?_, fun hid => ?_, fun hid => ?_,
    fun _ hk => ?_, fun _ hk => ?_, ?_⟩
  · rw [hr.isServer]
    exact hserver
  · rw [hr.next]
    exact ha
  · rw [hr.name]
    exact hnick
  · rw [hr.name]
    exact hfree
  · rw [hr.name, hr.kind, hr.id, hr.idTable]
    exact howner
  · rw [hr.idTable] at hid
    rw [hr.kind, hr.id, hr.table]
    exact ⟨hclient hid, h.cleanUid hid (hclient hid), Or.inl rfl⟩
  · rw [hr.idTable] at hid
    rw [hr.id]
    exact fun b hb hk heq => (h.ids a hid (hclient hid) b hb hk heq).symm
  · rw [hr.kind] at hk
    rw [hr.id, hr.idTable]
    exact h.filed a (hin hk) hk
  · rw [hr.kind] at hk
    rw [hr.home, hr.id]
    exact h.home a (hin hk) hk
  · unfold World.Counts
    rw [hr.currentUid]
    exact h.counts

-- ============================================================================
-- Clients leave and come
-- ============================================================================

/-- Some clients leave. -/
theorem World.Inv.drop (h : w.Inv) (gone : Nat → Bool) : (w.drop gone).Inv := by
  have hmem : ∀ {l : List Nat} {b : Nat}, b ∈ l.filter (fun a => !gone a) → b ∈ l :=
    fun hb => (List.mem_filter.mp hb).1
  refine ⟨h.nodup.filter _, fun b hb => ?_, fun b hb => h.text b (hmem hb),
    fun b hb c hc heq => h.unique b (hmem hb) c (hmem hc) heq, fun b hb hs => h.servName b (hmem hb) hs,
    fun b hb hclean => ?_, fun b hb hk c hc hk' heq => h.ids b (hmem hb) hk c (hmem hc) hk' heq,
    fun b hb => h.uid b (hmem hb), fun b hb => ?_, fun b hb hk hid => ?_,
    fun b hb hk hm => h.home b (hmem hb) hk hm, h.counts⟩
  · exact h.lt b (hb.imp hmem hmem)
  · obtain ⟨hk, hid, hname⟩ := h.owner b (hmem hb) hclean
    exact ⟨hk, List.mem_filter.mpr ⟨hid, (List.mem_filter.mp hb).2⟩, hname⟩
  · exact List.mem_filter.mpr ⟨h.known b (hmem hb), (List.mem_filter.mp hb).2⟩
  · exact List.mem_filter.mpr ⟨h.filed b (hmem hb) hk hid, (List.mem_filter.mp hb).2⟩

theorem World.exitClient_eq (w : World) (a : Nat) :
    w.exitClient a = w ∨ ∃ gone, w.exitClient a = w.drop gone := by
  unfold World.exitClient
  cases (w.client a).kind with
  | me => exact Or.inl rfl
  | server => exact Or.inr ⟨_, rfl⟩
  | client => exact Or.inr ⟨_, rfl⟩
  | unknown => exact Or.inr ⟨_, rfl⟩

theorem World.Inv.exitClient (h : w.Inv) (a : Nat) : (w.exitClient a).Inv := by
  obtain heq | ⟨gone, heq⟩ := w.exitClient_eq a
  · rw [heq]
    exact h
  · rw [heq]
    exact h.drop gone

/-- `exit_client` of a user. -/
theorem World.exitClient_user (hserver : w.isServer a = false) : w.exitClient a = w.drop fun b => b == a := by
  unfold World.isServer at hserver
  unfold World.exitClient
  cases hk : (w.client a).kind with
  | unknown => rfl
  | client => rfl
  | server =>
    rw [hk] at hserver
    cases hserver
  | me =>
    rw [hk] at hserver
    cases hserver

/-- A new connection. -/
theorem World.Inv.accept (h : w.Inv) (username host : Bytes) : (w.accept username host).Inv := by
  obtain ⟨hnew, hnew'⟩ := h.fresh
  have hself : (w.accept username host).client w.next =
      ⟨.unknown, [], [], 0, username, host, true, w.next, 0, false⟩ := Function.update_self ..
  have hk : ((w.accept username host).client w.next).kind ≠ .client := by
    rw [hself]
    exact Kind.noConfusion
  refine h.changes (a := w.next) ⟨fun b hb => Function.update_of_ne hb .., fun b _ => Iff.rfl, fun b _ => Iff.rfl,
    fun b hb hin => (List.mem_cons.mp hin).resolve_left hb, fun hnodup => hnodup, Nat.le_succ _⟩
    ⟨World.isServer_of_unknown (by rw [hself]), Nat.lt_succ_self _, fun hin => absurd hin hnew,
      fun hin => absurd hin hnew, fun hin => absurd hin hnew, fun hin => absurd hin hnew',
      fun hin => absurd hin hnew', fun _ hc => absurd hc hk, fun _ hc => absurd hc hk, h.counts⟩

/-- A user that a server introduces, with a nick that nobody has. -/
theorem World.Inv.addClient (h : w.Inv) (link server : Nat) (i : Intro) {newts : Int}
    (hnick : nick ≠ [] ∧ NoNul nick) (hfree : ∀ b ∈ w.clientTable, irccmp nick (w.client b).name ≠ 0)
    (huid : ∀ id, i.uid = some id → Nick.cleanUid id = true ∧ w.UidFree id)
    (howner : Nick.cleanUid nick = true → ∃ id, i.uid = some id ∧ irccmp nick id = 0) :
    (w.addClient link server i nick newts).Inv := by
  obtain ⟨hnew, hnew'⟩ := h.fresh
  -- the user has the UID that it was introduced with, if any
  have hid : ∀ id, i.uid = some id → (i.uid.map fun id => strlcpy id idLen).getD [] = id := by
    intro id hi
    rw [hi, Option.map_some, Option.getD_some]
    refine strlcpy_of_lt ?_
    rw [(cleanUid_facts (huid id hi).1).2.2.2]
    decide
  have hnone : i.uid = none → (i.uid.map fun id => strlcpy id idLen).getD [] = [] := by
    intro hi
    rw [hi]
    rfl
  have hadd : ∀ w' : World, w'.client = Function.update w.client w.next
        ⟨.client, nick, (i.uid.map fun id => strlcpy id idLen).getD [], newts,
          strlcpy i.username (userLen + 1), strlcpy i.host (hostLen + 1), false, link, server, false⟩ →
      w'.next = w.next + 1 → w'.clientTable = w.next :: w.clientTable →
      w'.idTable = (if i.uid.isSome = true then w.next :: w.idTable else w.idTable) →
      w'.unknownList = w.unknownList → w'.currentUid = w.currentUid → w'.Inv := by
    intro w' hclient hnext hT hI hU hcur
    have hself := congrFun hclient w.next
    rw [Function.update_self] at hself
    have hmem : ∀ b, b ∈ w'.idTable ↔ b ∈ w.idTable ∨ b = w.next ∧ i.uid.isSome = true := by
      intro b
      rw [hI]
      by_cases hsome : i.uid.isSome = true
      · rw [if_pos hsome, List.mem_cons]
        exact ⟨fun hb => hb.elim (fun hb => Or.inr ⟨hb, hsome⟩) Or.inl, fun hb => hb.symm.imp_left And.left⟩
      · rw [if_neg hsome]
        exact ⟨Or.inl, fun hb => hb.resolve_right fun hb => hsome hb.2⟩
    have hgiven : w.next ∈ w'.idTable → ∃ id, i.uid = some id := fun hin =>
      Option.isSome_iff_exists.mp (((hmem _).mp hin).resolve_left hnew').2
    refine h.changes (a := w.next) ⟨fun b hb => ?_, fun b hb => ?_, fun b hb => ?_, fun b _ => ?_, fun hnodup => ?_, ?_⟩
      ⟨World.isServer_of_client (by rw [hself]), ?_, fun _ => ?_, fun _ => ?_, fun _ => ?_, fun hin => ?_,
        fun hin => ?_, fun _ _ hne => ?_, fun _ _ hm => ?_, ?_⟩
    · rw [hclient]
      exact Function.update_of_ne hb ..
    · rw [hT, List.mem_cons]
      exact ⟨fun hin => hin.resolve_left hb, Or.inr⟩
    · rw [hmem]
      exact ⟨fun hin => hin.resolve_right fun hin => hb hin.1, Or.inl⟩
    · rw [hU]
      exact fun hin => hin
    · rw [hT]
      exact List.nodup_cons.mpr ⟨hnew, hnodup⟩
    · rw [hnext]
      exact Nat.le_succ _
    · rw [hnext]
      exact Nat.lt_succ_self _
    · rw [hself]
      exact hnick
    · rw [hself]
      exact fun b hb heq => absurd heq (hfree b hb)
    · rw [hself]
      intro hclean
      obtain ⟨id, hi, heq⟩ := howner hclean
      refine ⟨rfl, (hmem _).mpr (Or.inr ⟨rfl, Option.isSome_of_eq_some hi⟩), ?_⟩
      rw [hid id hi]
      exact heq
    · obtain ⟨id, hi⟩ := hgiven hin
      rw [hself, hT]
      refine ⟨rfl, ?_, List.mem_cons_self⟩
      rw [hid id hi]
      exact (huid id hi).1
    · obtain ⟨id, hi⟩ := hgiven hin
      rw [hself, hid id hi]
      exact fun b hb hk heq => absurd heq ((huid id hi).2 b hb hk)
    · rw [hself] at hne
      refine (hmem _).mpr (Or.inr ⟨rfl, ?_⟩)
      rw [← Option.ne_none_iff_isSome]
      exact fun hi => hne (hnone hi)
    · rw [hself] at hm
      cases hm
    · unfold World.Counts
      rw [hcur]
      exact h.counts
  unfold World.addClient
  dsimp only
  split
  · refine World.Inv.exitClient ?_ _
    exact hadd _ rfl rfl rfl rfl rfl rfl
  · exact hadd _ rfl rfl rfl rfl rfl rfl

/-- The same, where the server may be unknown. -/
theorem World.Inv.registerClient (h : w.Inv) (link source : Nat) (i : Intro) {newts : Int}
    (hnick : nick ≠ [] ∧ NoNul nick) (hfree : ∀ b ∈ w.clientTable, irccmp nick (w.client b).name ≠ 0)
    (huid : ∀ id, i.uid = some id → Nick.cleanUid id = true ∧ w.UidFree id)
    (howner : Nick.cleanUid nick = true → ∃ id, i.uid = some id ∧ irccmp nick id = 0) :
    (w.registerClient link source i nick newts).Inv := by
  unfold World.registerClient
  split
  · exact h.addClient link source i hnick hfree huid howner
  · split
    · exact h
    · exact h.addClient link _ i hnick hfree huid howner

/-- `register_local_user`, with an ID that nobody has. -/
theorem World.Inv.registerLocalUser (h : w.Inv) (hk : (w.client a).kind = .unknown)
    (hin : a ∈ w.clientTable) (hfree : w.UidFree (generateUid w.currentUid)) : (w.registerLocalUser a).Inv := by
  obtain ⟨sid, ds, hread, hcur⟩ := h.counts
  have hread' := (tick_value hread).1
  have hgen : generateUid w.currentUid = sid.bytes ++ (tick Nick.uidWheels ds).1 := by
    rw [hcur]
    exact Nick.generateUid_tick sid hread
  have hclean : Nick.cleanUid (generateUid w.currentUid) = true := by
    rw [hgen]
    exact (Nick.isUidOf_of_reading sid hread').clean
  have hself : (w.registerLocalUser a).client a =
      { w.client a with kind := .client, id := generateUid w.currentUid } := Function.update_self ..
  have hfiled : a ∈ (w.registerLocalUser a).idTable := List.mem_cons_self
  refine h.changes ⟨fun b hb => Function.update_of_ne hb .., fun b _ => Iff.rfl, fun b hb => ?_,
    fun b _ => List.mem_of_mem_erase, fun hnodup => hnodup, Nat.le_refl _⟩
    ⟨World.isServer_of_client (by rw [hself]), h.lt a (Or.inl hin), fun _ => ?_, fun _ => ?_, fun _ hnick => ?_,
      fun _ => ?_, fun _ => ?_, fun _ _ _ => hfiled, fun _ _ _ => ?_, sid, _, hread', hgen⟩
  · exact ⟨fun hid => (List.mem_cons.mp hid).resolve_left hb, List.mem_cons_of_mem _⟩
  · rw [hself]
    exact h.text a hin
  · rw [hself]
    exact fun b hb heq => (h.unique a hin b hb heq).symm
  · -- nobody who has not registered has such a nick
    rw [hself] at hnick
    rw [(h.owner a hin hnick).1] at hk
    cases hk
  · rw [hself]
    exact ⟨rfl, hclean, hin⟩
  · rw [hself]
    exact fun b hb hkb heq => absurd heq (hfree b hb hkb)
  · rw [hself]
    exact (digit_of_cleanUid hclean).2

-- ============================================================================
-- Lookups
-- ============================================================================

theorem World.findId_some {id : Bytes} (h : w.findId id = some a) : a ∈ w.idTable ∧ (w.client a).id = id := by
  unfold World.findId at h
  split at h
  · cases h
  · have hid := List.find?_some h
    exact ⟨List.mem_of_find?_eq_some h, eq_of_beq hid⟩

theorem World.findClient_of_digit (hne : nick ≠ []) (hd : isDigit (nick.headD 0) = true) :
    w.findClient nick = w.findId nick := by
  unfold World.findClient
  rw [if_neg hne, if_pos hd]

theorem World.findClient_of_not_digit (hne : nick ≠ []) (hd : isDigit (nick.headD 0) = false) :
    w.findClient nick = w.clientTable.find? fun a => irccmp nick (w.client a).name == 0 := by
  unfold World.findClient
  rw [if_neg hne, if_neg (by rw [hd]; exact Bool.false_ne_true)]

theorem World.findClient_none (hne : nick ≠ []) (hd : isDigit (nick.headD 0) = false)
    (h : w.findClient nick = none) : ∀ b ∈ w.clientTable, irccmp nick (w.client b).name ≠ 0 := by
  rw [World.findClient_of_not_digit hne hd] at h
  intro b hb heq
  exact List.find?_eq_none.mp h b hb (beq_iff_eq.mpr heq)

/-- Nobody else has the nick that was found, and no server has it. -/
theorem World.Inv.found (h : w.Inv) (hclean : cleanNick nick false = true)
    (hd : isDigit (nick.headD 0) = false) (hfound : w.findClient nick = some a) :
    a ∈ w.clientTable ∧ w.isServer a = false ∧
      ∀ b ∈ w.clientTable, irccmp nick (w.client b).name = 0 → b = a := by
  obtain ⟨hne, hnul, hdot⟩ := cleanNick_facts hclean
  rw [World.findClient_of_not_digit hne hd] at hfound
  have ha := List.mem_of_find?_eq_some hfound
  have hname := List.find?_some hfound
  have heq : irccmp nick (w.client a).name = 0 := eq_of_beq hname
  have hnul' := (h.text a ha).2
  refine ⟨ha, ?_, fun b hb hb' => ?_⟩
  · by_contra hserver
    rw [Bool.not_eq_false] at hserver
    have hdot' := h.servName a ha hserver
    exact hdot (dot_of_irccmp hnul' hnul ((irccmp_eq_zero_comm _ _).mp heq) hdot')
  · exact h.unique b hb a ha (irccmp_trans hnul (h.text b hb).2 hnul' hb' heq)

theorem World.kind_client (hserver : w.isServer a = false) (hk : (w.client a).kind ≠ .unknown) :
    (w.client a).kind = .client := by
  unfold World.isServer at hserver
  cases hkind : (w.client a).kind with
  | unknown => exact absurd hkind hk
  | client => rfl
  | server =>
    rw [hkind] at hserver
    cases hserver
  | me =>
    rw [hkind] at hserver
    cases hserver

-- ============================================================================
-- Another client is put aside
-- ============================================================================

/-- A client has left, or has a name that begins with a digit; the others are as they
    were. -/
structure World.Aside (w w' : World) (t : Nat) : Prop where
  inv : w'.Inv
  other : ∀ b, b ≠ t → w'.client b = w.client b
  table : ∀ b ∈ w'.clientTable, b ∈ w.clientTable
  stays : ∀ b ∈ w.clientTable, b ≠ t → b ∈ w'.clientTable
  ids : ∀ b ∈ w'.idTable, b ∈ w.idTable
  id : (w'.client t).id = (w.client t).id
  kind : (w'.client t).kind = (w.client t).kind
  gone : t ∈ w'.clientTable → isDigit ((w'.client t).name.headD 0) = true

theorem World.Inv.aside_exitClient (h : w.Inv) (hserver : w.isServer a = false) :
    w.Aside (w.exitClient a) a := by
  have hinv := h.exitClient a
  rw [World.exitClient_user hserver] at hinv ⊢
  have hmem : ∀ {l : List Nat} {b : Nat}, b ∈ l.filter (fun c => !(c == a)) ↔ b ∈ l ∧ b ≠ a := by
    intro l b
    rw [List.mem_filter, Bool.not_eq_true', beq_eq_false_iff_ne]
  exact ⟨hinv, fun _ _ => rfl, fun b hb => (hmem.mp hb).1, fun b hb hne => hmem.mpr ⟨hb, hne⟩,
    fun b hb => (hmem.mp hb).1, rfl, rfl, fun hin => absurd rfl (hmem.mp hin).2⟩

/-- A user takes its ID as its name. -/
theorem World.Inv.to_id (h : w.Inv) (ha : a ∈ w.clientTable) (hk : (w.client a).kind = .client)
    (hid : (w.client a).id ≠ []) (hr : Renames w w' a (w.client a).id) : w'.Inv := by
  have hin := h.filed a ha hk hid
  have hclean := h.cleanUid hin hk
  have hnul := (cleanUid_facts hclean).2.1
  exact h.renames hr (h.lt a (Or.inl ha)) (World.isServer_of_client hk) (fun _ => ha) ⟨hid, hnul⟩
    (fun b hb heq => h.own_id hin hk hb heq) fun _ => ⟨hk, hin, (irccmp_eq_zero_iff hnul hnul).mpr rfl⟩

theorem World.Inv.aside_to_id (h : w.Inv) (ha : a ∈ w.clientTable) (hk : (w.client a).kind = .client)
    (hid : (w.client a).id ≠ []) (hr : Renames w w' a (w.client a).id) : w.Aside w' a := by
  refine ⟨h.to_id ha hk hid hr, hr.other, fun b hb => ?_, fun b hb _ => (hr.table b).mpr (Or.inr hb), fun b hb => ?_,
    hr.id, hr.kind, fun _ => ?_⟩
  · obtain rfl | hb := (hr.table b).mp hb
    · exact ha
    · exact hb
  · exact hr.idTable ▸ hb
  · rw [hr.name]
    exact (cleanUid_facts (h.cleanUid (h.filed a ha hk hid) hk)).1

/-- `save_user` kills the user, or gives it its ID as its nick. -/
theorem World.saveUser_eq (hk : (w.client a).kind = .client)
    (hhome : (w.client a).myConnect = true → (w.client a).id ≠ []) (now : Int) :
    w.saveUser a now = w.exitClient a ∨
      (w.client a).id ≠ [] ∧ Renames w (w.saveUser a now) a (w.client a).id := by
  unfold World.saveUser
  by_cases hexit : (!(w.client a).myConnect && ((w.client a).id == [] ||
      !(w.client (w.client a).link).capSave)) = true
  · rw [if_pos hexit]
    exact Or.inl rfl
  · rw [if_neg hexit]
    by_cases hlocal : (w.client a).myConnect = true
    · have hmy : w.myClient a = true := by
        unfold World.myClient
        rw [hlocal, hk]
        rfl
      rw [if_pos hmy]
      have hr := renames_rename w a (w.client a).id
        (if irccmp (w.client a).name (w.client a).id = 0 then (w.client a).tsinfo
        else if now ≤ (w.client a).tsinfo then (w.client a).tsinfo + 1 else now)
      -- only the timestamp is written over
      exact Or.inr ⟨hhome hlocal, hr.write rfl hr.name rfl rfl rfl⟩
    · have hmy : w.myClient a ≠ true := by
        unfold World.myClient
        rw [ne_eq, Bool.and_eq_true]
        exact fun hmy => hlocal hmy.1
      rw [if_neg hmy]
      refine Or.inr ⟨fun hid => hexit ?_, renames_rename ..⟩
      rw [Bool.eq_false_iff.mpr hlocal, hid]
      rfl

/-- A user that is in the way is saved or killed. -/
theorem World.Inv.aside_saveUser (h : w.Inv) (ha : a ∈ w.clientTable) (hk : (w.client a).kind = .client)
    (now : Int) : w.Aside (w.saveUser a now) a := by
  obtain heq | ⟨hid, hr⟩ := World.saveUser_eq hk (h.home a ha hk) now
  · rw [heq]
    exact h.aside_exitClient (World.isServer_of_client hk)
  · exact h.aside_to_id ha hk hid hr

theorem World.Inv.aside_putAside (h : w.Inv) (ha : a ∈ w.clientTable) (hk : (w.client a).kind = .client)
    (useSave : Bool) (now : Int) : w.Aside (w.putAside useSave a now) a := by
  unfold World.putAside
  split
  · exact h.aside_saveUser ha hk now
  · exact h.aside_exitClient (World.isServer_of_client hk)

/-- The nick of a client that is put aside is free, where it does not begin with a digit. -/
theorem World.Aside.free (h : w.Aside w' a) (hne : nick ≠ []) (hd : isDigit (nick.headD 0) = false)
    (honly : ∀ b ∈ w.clientTable, irccmp nick (w.client b).name = 0 → b = a) :
    ∀ b ∈ w'.clientTable, irccmp nick (w'.client b).name ≠ 0 := by
  intro b hb heq
  by_cases hba : b = a
  · rw [hba] at hb heq
    have hdigit := isDigit_of_irccmp hne ((irccmp_eq_zero_comm _ _).mp heq) (h.gone hb)
    rw [hd] at hdigit
    cases hdigit
  · rw [h.other b hba] at heq
    exact hba (honly b (h.table b hb) heq)

theorem World.Aside.uidFree (h : w.Aside w' a) {uid : Bytes} (hfree : w.UidFree uid) : w'.UidFree uid := by
  intro b hb hk
  by_cases hba : b = a
  · rw [hba] at hb hk ⊢
    rw [h.kind] at hk
    rw [h.id]
    exact hfree a (h.ids a hb) hk
  · rw [h.other b hba] at hk ⊢
    exact hfree b (h.ids b hb) hk

end Bluebox.NickHash
