/-
  Bluebox.Nick.UniqueRuns

  Each command keeps the nicks in the hash table apart, if what it is given is in order: a
  nick that begins with a digit is no client's already, neither as its name nor as its ID,
  and if it looks like a UID it is the user's own; and a new user has a new UID.  A user
  that loses a collision gets its ID as its nick, which is then nobody else's.
-/
import Bluebox.Nick.Unique

namespace Bluebox.NickHash

open Bluebox.Lib
open Bluebox.Nick (cleanNick cleanUsername cleanHost cleanUid nickArg saveNickTs Sid
  initUid generateUid nickArg_isNick digit_of_cleanUid)

variable {k : Setup} {w w' : World} {a b : Nat} {nick : Bytes}

-- ============================================================================
-- Collisions
-- ============================================================================

/-- A nick that does not begin with a digit is no UID. -/
theorem not_cleanUid (hd : isDigit (nick.headD 0) = false) {p : Prop} (h : cleanUid nick = true) : p := by
  rw [(digit_of_cleanUid h).1] at hd
  cases hd

/-- A user or a connection takes a nick that nobody else has, and that does not begin with a
    digit. -/
theorem World.Inv.take (h : w.Inv) (ha : a < w.next) (hserver : w.isServer a = false)
    (hin : (w.client a).kind = .client → a ∈ w.clientTable) (hclean : cleanNick nick false = true)
    (hd : isDigit (nick.headD 0) = false)
    (hfree : ∀ b ∈ w.clientTable, irccmp nick (w.client b).name = 0 → b = a) (hr : Renames w w' a nick) :
    w'.Inv := by
  obtain ⟨hne, hnul, -⟩ := cleanNick_facts hclean
  exact h.renames hr ha hserver hin ⟨hne, hnul⟩ hfree (not_cleanUid hd)

/-- A user takes a nick after another client was put aside for it. -/
theorem World.Aside.take {t : Nat} (h : w.Aside w' t) (ha : a ∈ w.clientTable) (hk : (w.client a).kind = .client)
    (hne : a ≠ t) (hclean : cleanNick nick false = true) (hd : isDigit (nick.headD 0) = false)
    (honly : ∀ b ∈ w.clientTable, irccmp nick (w.client b).name = 0 → b = t) {w'' : World}
    (hr : Renames w' w'' a nick) : w''.Inv := by
  have hfree := h.free (cleanNick_facts hclean).1 hd honly
  have ha' := h.stays a ha hne
  have hk' : (w'.client a).kind = .client := by
    rw [h.other a hne]
    exact hk
  exact h.inv.take (h.inv.lt a (Or.inl ha')) (World.isServer_of_client hk') (fun _ => ha') hclean hd
    (fun b hb heq => absurd heq (hfree b hb)) hr

/-- A user is introduced under a nick that nobody has, and that does not begin with a
    digit. -/
theorem World.Inv.introduce (h : w.Inv) (link source : Nat) (i : Intro) (newts : Int)
    (hclean : cleanNick nick false = true) (hd : isDigit (nick.headD 0) = false)
    (hfree : ∀ b ∈ w.clientTable, irccmp nick (w.client b).name ≠ 0)
    (huid : ∀ id, i.uid = some id → Nick.cleanUid id = true ∧ w.UidFree id) :
    (w.registerClient link source i nick newts).Inv := by
  obtain ⟨hne, hnul, -⟩ := cleanNick_facts hclean
  exact h.registerClient link source i ⟨hne, hnul⟩ hfree huid (not_cleanUid hd)

/-- A user is introduced under its UID. -/
theorem World.Inv.introduce_saved (h : w.Inv) (link source : Nat) (i : Intro) (newts : Int)
    (hsome : i.uid.isSome = true) (huid : ∀ id, i.uid = some id → Nick.cleanUid id = true ∧ w.UidFree id) :
    (w.registerClient link source i (i.uid.getD []) newts).Inv := by
  obtain ⟨id, hid⟩ := Option.isSome_iff_exists.mp hsome
  obtain ⟨hclean, hfree⟩ := huid id hid
  have hnul := (cleanUid_facts hclean).2.1
  rw [hid, Option.getD_some]
  exact h.registerClient link source i ⟨(digit_of_cleanUid hclean).2, hnul⟩ (h.free_of_uidFree hclean hfree) huid
    fun _ => ⟨id, hid, (irccmp_eq_zero_iff hnul hnul).mpr rfl⟩

/-- A user loses its nick change. -/
theorem World.Inv.loseNick (h : w.Inv) (ha : a ∈ w.clientTable) (hk : (w.client a).kind = .client)
    {useSave : Bool} (hid : useSave = true → (w.client a).id ≠ []) (now : Int) :
    (w.loseNick useSave a now).Inv := by
  unfold World.loseNick
  by_cases hsave : useSave = true
  · rw [if_pos hsave]
    split
    · exact h
    · exact h.to_id ha hk (hid hsave) (renames_rename ..)
  · rw [if_neg hsave]
    exact h.exitClient a

/-- `can_save` wants an ID. -/
theorem World.Inv.id_of_canSave (h : w.Inv) (ha : a ∈ w.clientTable) (hk : (w.client a).kind = .client)
    (hsave : w.canSave a = true) : (w.client a).id ≠ [] := by
  unfold World.canSave at hsave
  by_cases hmy : w.myClient a = true
  · unfold World.myClient at hmy
    exact h.home a ha hk (Bool.and_eq_true_iff.mp hmy).1
  · rw [if_neg hmy] at hsave
    intro hid
    rw [if_pos hid] at hsave
    cases hsave

/-- `perform_nick_collides`. -/
theorem World.Inv.performNickCollides (h : w.Inv) (source : Nat) (i : Intro) (now : Int) {t : Nat}
    (hclean : cleanNick i.nick false = true) (hd : isDigit (i.nick.headD 0) = false)
    (hfound : w.findClient i.nick = some t) (hkind : (w.client t).kind ≠ .unknown)
    (huid : ∀ id, i.uid = some id → Nick.cleanUid id = true ∧ w.UidFree id) :
    (w.performNickCollides k source t i now).Inv := by
  obtain ⟨ht, hserver, honly⟩ := h.found hclean hd hfound
  have hk := World.kind_client hserver hkind
  unfold World.performNickCollides
  dsimp only
  have hsome : (k.collisionFnc && w.canSave t && i.uid.isSome && w.canSave source) = true → i.uid.isSome = true := by
    intro hsave
    rw [Bool.and_eq_true, Bool.and_eq_true] at hsave
    exact hsave.1.2
  generalize (k.collisionFnc && w.canSave t && i.uid.isSome && w.canSave source) = useSave at hsome ⊢
  split
  · split
    · -- both are saved
      rename_i hsave
      have haside := h.aside_saveUser ht hk now
      exact haside.inv.introduce_saved _ _ i _ (hsome hsave)
        fun id hid => ⟨(huid id hid).1, haside.uidFree (huid id hid).2⟩
    · exact h.exitClient t
  · split
    · -- the new user loses
      split
      · rename_i hsave
        exact h.introduce_saved _ _ i _ (hsome hsave) huid
      · exact h
    · -- the old one does
      have haside := h.aside_putAside ht hk useSave now
      exact haside.inv.introduce _ _ i _ hclean hd (haside.free (cleanNick_facts hclean).1 hd honly)
        fun id hid => ⟨(huid id hid).1, haside.uidFree (huid id hid).2⟩

/-- `perform_nickchange_collides`. -/
theorem World.Inv.performNickchangeCollides (h : w.Inv) (newts now : Int) {t : Nat}
    (ha : a ∈ w.clientTable) (hk : (w.client a).kind = .client) (hne : a ≠ t)
    (hclean : cleanNick nick false = true) (hd : isDigit (nick.headD 0) = false)
    (hfound : w.findClient nick = some t) (hkind : (w.client t).kind ≠ .unknown) :
    (w.performNickchangeCollides k a t newts nick now).Inv := by
  obtain ⟨ht, hserver, honly⟩ := h.found hclean hd hfound
  have hkt := World.kind_client hserver hkind
  unfold World.performNickchangeCollides
  dsimp only
  have hid : (k.collisionFnc && w.canSave t && w.canSave a) = true → (w.client a).id ≠ [] :=
    fun hsave => h.id_of_canSave ha hk (Bool.and_eq_true_iff.mp hsave).2
  generalize (k.collisionFnc && w.canSave t && w.canSave a) = useSave at hid ⊢
  have haside := h.aside_putAside ht hkt useSave now
  split
  · -- both lose
    have hsame := haside.other a hne
    refine haside.inv.loseNick (haside.stays a ha hne) ?_ ?_ now
    · rw [hsame]
      exact hk
    · rw [hsame]
      exact hid
  · split
    · exact h.loseNick ha hk hid now
    · exact haside.take ha hk hne hclean hd honly (renames_rename ..)

-- ============================================================================
-- What is in order
-- ============================================================================

/-- Nobody but `a` has the nick, as its name or as its ID; and if the nick looks like a UID,
    it is the one that goes with it. -/
structure World.Own (w : World) (nick uid : Bytes) (a : Nat) : Prop where
  name : ∀ b ∈ w.clientTable, irccmp nick (w.client b).name = 0 → b = a
  id : ∀ b ∈ w.idTable, irccmp nick (w.client b).id = 0 → b = a
  own : cleanUid nick = true → irccmp nick uid = 0

/-- A nick of a remote user that begins with a digit is its own, and the UID of a new user
    is new.  The address of a new user is `next`. -/
def World.Proper (w : World) : Op → Prop
  | .register _ => w.UidFree (generateUid w.currentUid)
  | .mcNick a nick _ _ => isDigit (nick.headD 0) = true → w.Own nick (w.client a).id a
  | .msNick _ nick _ _ _ _ _ => isDigit (nick.headD 0) = true → w.Own nick [] w.next
  | .msUid _ nick _ _ _ id _ => w.UidFree id ∧ (isDigit (nick.headD 0) = true → w.Own nick id w.next)
  | _ => True

theorem ne_nil_of_irccmp {s t : Bytes} (hs : NoNul s) (hne : s ≠ []) (h : irccmp s t = 0) : t ≠ [] := by
  rintro rfl
  exact hne (List.eq_nil_of_length_eq_zero (length_of_irccmp hs (fun hmem => by cases hmem) h))

/-- `find_client` finds at most `a`. -/
theorem World.Own.findClient {uid : Bytes} (hown : w.Own nick uid a) (hclean : cleanNick nick false = true)
    (hd : isDigit (nick.headD 0) = true) {t : Nat} (hfound : w.findClient nick = some t) :
    t ∈ w.idTable ∧ t = a := by
  obtain ⟨hne, hnul, -⟩ := cleanNick_facts hclean
  rw [World.findClient_of_digit hne hd] at hfound
  obtain ⟨ht, hid⟩ := World.findId_some hfound
  have hsame : irccmp nick (w.client t).id = 0 := by
    rw [hid]
    exact (irccmp_eq_zero_iff hnul hnul).mpr rfl
  exact ⟨ht, hown.id t ht hsame⟩

/-- A user takes a nick that is its own. -/
theorem World.Inv.take_own (h : w.Inv) (ha : a ∈ w.clientTable) (hk : (w.client a).kind = .client)
    (hclean : cleanNick nick false = true) (hown : w.Own nick (w.client a).id a) (hr : Renames w w' a nick) :
    w'.Inv := by
  obtain ⟨hne, hnul, -⟩ := cleanNick_facts hclean
  refine h.renames hr (h.lt a (Or.inl ha)) (World.isServer_of_client hk) (fun _ => ha) ⟨hne, hnul⟩ hown.name
    fun huid => ?_
  have hsame := hown.own huid
  exact ⟨hk, h.filed a ha hk (ne_nil_of_irccmp hnul hne hsame), hsame⟩

/-- A user is introduced under a nick that is its own. -/
theorem World.Inv.introduce_own (h : w.Inv) (link source : Nat) (i : Intro) (newts : Int)
    (hclean : cleanNick nick false = true) (hown : w.Own nick (i.uid.getD []) w.next)
    (huid : ∀ id, i.uid = some id → Nick.cleanUid id = true ∧ w.UidFree id) :
    (w.registerClient link source i nick newts).Inv := by
  obtain ⟨hne, hnul, -⟩ := cleanNick_facts hclean
  refine h.registerClient link source i ⟨hne, hnul⟩ (fun b hb heq => ?_) huid fun hnick => ?_
  · exact Nat.ne_of_lt (h.lt b (Or.inl hb)) (hown.name b hb heq)
  · have hsame := hown.own hnick
    cases hi : i.uid with
    | none =>
      rw [hi] at hsame
      exact absurd rfl (ne_nil_of_irccmp hnul hne hsame)
    | some id =>
      rw [hi] at hsame
      exact ⟨id, rfl, hsame⟩

-- ============================================================================
-- The commands
-- ============================================================================

theorem World.Inv.mrNick (h : w.Inv) (ha : a ∈ w.unknownList) (hk : (w.client a).kind = .unknown) (arg : Bytes)
    (denied : Bool) (now : Int) : (w.mrNick a arg denied now).Inv := by
  unfold World.mrNick
  cases hn : nickArg arg with
  | none => exact h
  | some nick =>
    obtain ⟨hne, hd, -, hclean⟩ := (nickArg_isNick hn).facts
    have hin : (w.client a).kind = .client → a ∈ w.clientTable := fun hkind => by rw [hk] at hkind; cases hkind
    have htake : ∀ {w' : World}, (∀ b ∈ w.clientTable, irccmp nick (w.client b).name = 0 → b = a) →
        Renames w w' a nick → w'.Inv :=
      fun hfree hr => h.take (h.lt a (Or.inr ha)) (World.isServer_of_unknown hk) hin hclean hd hfree hr
    dsimp only
    split
    · exact h
    · cases hf : w.findClient nick with
      | none => exact htake (fun b hb heq => absurd heq (World.findClient_none hne hd hf b hb)) (renames_rename ..)
      | some t =>
        dsimp only
        split
        · rename_i heq
          obtain ⟨ht, -, honly⟩ := h.found hclean hd hf
          rw [← heq] at ht honly
          exact htake honly ((renames_self ht).write rfl rfl rfl rfl rfl)
        · exact h

theorem World.Inv.mNick (h : w.Inv) (ha : a ∈ w.clientTable) (hk : (w.client a).kind = .client) (arg : Bytes)
    (denied tooFast : Bool) (now : Int) : (w.mNick a arg denied tooFast now).Inv := by
  unfold World.mNick
  cases hn : nickArg arg with
  | none => exact h
  | some nick =>
    obtain ⟨hne, hd, -, hclean⟩ := (nickArg_isNick hn).facts
    have htake : ∀ {w' : World}, (∀ b ∈ w.clientTable, irccmp nick (w.client b).name = 0 → b = a) →
        Renames w w' a nick → w'.Inv :=
      fun hfree hr => h.take (h.lt a (Or.inl ha)) (World.isServer_of_client hk) (fun _ => ha) hclean hd hfree hr
    dsimp only
    split
    · exact h
    · cases hf : w.findClient nick with
      | none =>
        dsimp only
        split
        · exact h
        · exact htake (fun b hb heq => absurd heq (World.findClient_none hne hd hf b hb)) (renames_rename ..)
      | some t =>
        obtain ⟨ht, hserver, honly⟩ := h.found hclean hd hf
        dsimp only
        split
        · -- another case of its own nick
          rename_i heq
          rw [heq] at honly
          split
          · split
            · exact h
            · exact htake honly (renames_rename ..)
          · exact h
        · rename_i hne'
          split
          · -- a connection with the nick that has not registered
            split
            · exact h.exitClient t
            · exact (h.aside_exitClient hserver).take ha hk (Ne.symm hne') hclean hd honly (renames_rename ..)
          · exact h

theorem World.Inv.mcNick (h : w.Inv) (ha : a ∈ w.clientTable) (hk : (w.client a).kind = .client) (newts now : Int)
    (hown : isDigit (nick.headD 0) = true → w.Own nick (w.client a).id a) : (w.mcNick k a nick newts now).Inv := by
  unfold World.mcNick
  split
  · exact h.exitClient a
  · rename_i hclean
    rw [Bool.not_eq_false] at hclean
    have hne := (cleanNick_facts hclean).1
    by_cases hd : isDigit (nick.headD 0) = true
    · have htake : ∀ {w' : World}, Renames w w' a nick → w'.Inv := fun hr => h.take_own ha hk hclean (hown hd) hr
      cases hf : w.findClient nick with
      | none => exact htake (renames_rename ..)
      | some t =>
        obtain ⟨-, rfl⟩ := (hown hd).findClient hclean hd hf
        dsimp only
        rw [if_neg (by rw [hk]; exact Kind.noConfusion), if_pos rfl]
        split
        · exact htake (renames_rename ..)
        · exact h
    · rw [Bool.not_eq_true] at hd
      have htake : ∀ {w' : World}, (∀ b ∈ w.clientTable, irccmp nick (w.client b).name = 0 → b = a) →
          Renames w w' a nick → w'.Inv :=
        fun hfree hr => h.take (h.lt a (Or.inl ha)) (World.isServer_of_client hk) (fun _ => ha) hclean hd hfree hr
      cases hf : w.findClient nick with
      | none => exact htake (fun b hb heq => absurd heq (World.findClient_none hne hd hf b hb)) (renames_rename ..)
      | some t =>
        obtain ⟨ht, hserver, honly⟩ := h.found hclean hd hf
        dsimp only
        by_cases hkind : (w.client t).kind = .unknown
        · rw [if_pos hkind]
          have hne' : a ≠ t := by
            rintro rfl
            rw [hk] at hkind
            cases hkind
          exact (h.aside_exitClient hserver).take ha hk hne' hclean hd honly (renames_rename ..)
        · rw [if_neg hkind]
          by_cases heq : t = a
          · rw [if_pos heq]
            rw [heq] at honly
            split
            · exact htake honly (renames_rename ..)
            · exact h
          · rw [if_neg heq]
            exact h.performNickchangeCollides newts now ha hk (Ne.symm heq) hclean hd hf hkind

/-- What `ms_nick` and `ms_uid` do with a nick that does not begin with a digit, if a
    connection that has not registered has it. -/
theorem World.Inv.introduce_after (h : w.Inv) (link source : Nat) (i : Intro) (newts : Int) {t : Nat}
    (hclean : cleanNick nick false = true) (hd : isDigit (nick.headD 0) = false)
    (hfound : w.findClient nick = some t)
    (huid : ∀ id, i.uid = some id → Nick.cleanUid id = true ∧ w.UidFree id) :
    ((w.exitClient t).registerClient link source i nick newts).Inv := by
  obtain ⟨-, hserver, honly⟩ := h.found hclean hd hfound
  have haside := h.aside_exitClient hserver
  exact haside.inv.introduce link source i newts hclean hd (haside.free (cleanNick_facts hclean).1 hd honly)
    fun id hid => ⟨(huid id hid).1, haside.uidFree (huid id hid).2⟩

/-- What they do with a nick that nobody has. -/
theorem World.Inv.introduce_new (h : w.Inv) (link source : Nat) (i : Intro) (newts : Int)
    (hclean : cleanNick nick false = true) (hfound : w.findClient nick = none)
    (hown : isDigit (nick.headD 0) = true → w.Own nick (i.uid.getD []) w.next)
    (huid : ∀ id, i.uid = some id → Nick.cleanUid id = true ∧ w.UidFree id) :
    (w.registerClient link source i nick newts).Inv := by
  by_cases hd : isDigit (nick.headD 0) = true
  · exact h.introduce_own link source i newts hclean (hown hd) huid
  · have hd := Bool.eq_false_iff.mpr hd
    exact h.introduce link source i newts hclean hd
      (World.findClient_none (cleanNick_facts hclean).1 hd hfound) huid

/-- A nick of the new user's own is nobody's, so that one that somebody has does not begin with a digit. -/
theorem World.Inv.digit_of_found (h : w.Inv) {t : Nat} {uid : Bytes} (hclean : cleanNick nick false = true)
    (hfound : w.findClient nick = some t) (hown : isDigit (nick.headD 0) = true → w.Own nick uid w.next) :
    isDigit (nick.headD 0) = false := by
  by_contra hd
  have hd := Bool.eq_true_of_not_eq_false hd
  obtain ⟨ht, rfl⟩ := (hown hd).findClient hclean hd hfound
  exact absurd (h.lt _ (Or.inl (h.known _ ht))) (Nat.lt_irrefl _)

theorem World.Inv.msNick (h : w.Inv) (hk : (w.client a).kind = .server) (i : Intro) (now : Int)
    (hi : i.uid = none) (hown : isDigit (i.nick.headD 0) = true → w.Own i.nick [] w.next) :
    (w.msNick k a i now).Inv := by
  have huid : ∀ id, i.uid = some id → Nick.cleanUid id = true ∧ w.UidFree id := by
    intro id hid
    rw [hi] at hid
    cases hid
  unfold World.msNick
  dsimp only
  split
  · exact h
  · rename_i hc
    rw [Bool.not_eq_false, Bool.and_eq_true, Bool.and_eq_true] at hc
    have hclean := hc.1.1
    cases hf : w.findClient i.nick with
    | none =>
      refine h.introduce_new _ a i _ hclean hf ?_ huid
      rw [hi]
      exact hown
    | some t =>
      have hd := h.digit_of_found hclean hf hown
      dsimp only
      by_cases hkind : (w.client t).kind = .unknown
      · rw [if_pos hkind]
        exact h.introduce_after _ a i _ hclean hd hf huid
      · rw [if_neg hkind]
        have hta : t ≠ a := by
          rintro rfl
          have hserver := (h.found hclean hd hf).2.1
          rw [World.kind_client hserver hkind] at hk
          cases hk
        rw [if_neg hta]
        exact h.performNickCollides a i now hclean hd hf hkind huid

theorem World.Inv.msUid (h : w.Inv) (a : Nat) (i : Intro) (now : Int)
    (hfree : ∀ id, i.uid = some id → w.UidFree id)
    (hown : isDigit (i.nick.headD 0) = true → w.Own i.nick (i.uid.getD []) w.next) :
    (w.msUid k a i now).Inv := by
  unfold World.msUid
  dsimp only
  split
  · exact h
  · rename_i hc
    rw [Bool.not_eq_false, Bool.and_eq_true, Bool.and_eq_true, Bool.and_eq_true] at hc
    have hclean := hc.1.1.1
    have huid : ∀ id, i.uid = some id → Nick.cleanUid id = true ∧ w.UidFree id := by
      intro id hid
      have hall := hc.2
      rw [hid] at hall
      exact ⟨hall, hfree id hid⟩
    cases hf : w.findClient i.nick with
    | none => exact h.introduce_new _ a i _ hclean hf hown huid
    | some t =>
      have hd := h.digit_of_found hclean hf hown
      dsimp only
      by_cases hkind : (w.client t).kind = .unknown
      · rw [if_pos hkind]
        exact h.introduce_after _ a i _ hclean hd hf huid
      · rw [if_neg hkind]
        exact h.performNickCollides a i now hclean hd hf hkind huid

theorem World.Inv.msSave (h : w.Inv) (id : Bytes) (ts now : Int) : (w.msSave id ts now).Inv := by
  unfold World.msSave
  cases hf : w.findId id with
  | none => exact h
  | some t =>
    dsimp only
    split
    · exact h
    · rename_i hk
      rw [not_not] at hk
      split
      · exact h
      · split
        · exact (h.aside_saveUser (h.known t (World.findId_some hf).1) hk now).inv
        · exact h

-- ============================================================================
-- Runs
-- ============================================================================

theorem World.Inv.perform (h : w.Inv) {op : Op} (hsends : w.sends op = true) (hok : w.Proper op) :
    (w.perform k op).Inv := by
  unfold World.sends at hsends
  cases op with
  | accept username host => exact h.accept username host
  | register a =>
    rw [Bool.and_eq_true, Bool.and_eq_true, List.contains_iff_mem, List.contains_iff_mem, beq_iff_eq] at hsends
    exact h.registerLocalUser hsends.1.2 hsends.2 hok
  | mrNick a arg denied now =>
    rw [Bool.and_eq_true, List.contains_iff_mem, beq_iff_eq] at hsends
    exact h.mrNick hsends.1 hsends.2 arg denied now
  | mNick a arg denied tooFast now =>
    rw [Bool.and_eq_true, Bool.and_eq_true, List.contains_iff_mem, beq_iff_eq] at hsends
    exact h.mNick hsends.1.1 hsends.1.2 arg denied tooFast now
  | mcNick a nick newts now =>
    rw [Bool.and_eq_true, Bool.and_eq_true, List.contains_iff_mem, beq_iff_eq] at hsends
    exact h.mcNick hsends.1.1 hsends.1.2 newts now hok
  | msNick a nick ts username host server now =>
    rw [Bool.and_eq_true, List.contains_iff_mem, beq_iff_eq] at hsends
    exact h.msNick hsends.2 ⟨nick, ts, username, host, .server server⟩ now rfl hok
  | msUid a nick ts username host id now =>
    refine h.msUid a ⟨nick, ts, username, host, .uid id⟩ now (fun id' hid => ?_) hok.2
    obtain rfl := Option.some.inj hid
    exact hok.1
  | msSave a id ts now => exact h.msSave id ts now
  | exit a => exact h.exitClient a

theorem World.Inv.step (h : w.Inv) {op : Op} (hok : w.Proper op) (hs : w.step k op = some w') : w'.Inv := by
  unfold World.step at hs
  split at hs
  · rename_i hsends
    cases hs
    exact h.perform hsends hok
  · cases hs

/-- At the start there are servers only. -/
theorem World.start_client (k : Setup) (a : Nat) :
    (World.start k).isServer a = true ∧
      ∀ h : a < (k.name :: k.peers.map Peer.name).length,
        ((World.start k).client a).name = (k.name :: k.peers.map Peer.name)[a] := by
  cases a with
  | zero => exact ⟨rfl, fun _ => rfl⟩
  | succ a =>
    unfold World.start World.isServer
    dsimp only
    cases hp : k.peers[a]? with
    | none =>
      refine ⟨rfl, fun h => ?_⟩
      rw [List.length_cons, List.length_map] at h
      rw [List.getElem?_eq_none_iff] at hp
      omega
    | some p =>
      refine ⟨rfl, fun h => ?_⟩
      rw [List.getElem_cons_succ, List.getElem_map]
      obtain ⟨hlt, hget⟩ := List.getElem?_eq_some_iff.mp hp
      rw [hget]
      rfl

theorem World.start_inv (k : Setup) : (World.start k).Inv := by
  have hlen : (k.name :: k.peers.map Peer.name).length = k.peers.length + 1 := by
    rw [List.length_cons, List.length_map]
  have hserv : ∀ a ∈ (World.start k).clientTable, IsServName ((World.start k).client a).name := by
    intro a ha
    have hlt := List.mem_range.mp ha
    rw [(World.start_client k a).2 (by omega)]
    exact k.servName _ (List.getElem_mem _)
  have huser : ∀ {a}, ((World.start k).client a).kind = .client → False := by
    intro a hk
    have hserver := (World.start_client k a).1
    rw [World.isServer_of_client hk] at hserver
    cases hserver
  refine ⟨List.nodup_range, fun a ha => ?_, fun a ha => ?_, fun a ha b hb heq => ?_, fun a ha _ => (hserv a ha).1,
    fun a ha hclean => ?_, fun a _ hk => (huser hk).elim, fun a _ => Or.inr (World.start_client k a).1, fun a ha => ha,
    fun a _ hk => (huser hk).elim, fun a _ hk => (huser hk).elim, k.sid, zeros Nick.uidWheels, reading_zeros _, ?_⟩
  · obtain ha | ha := ha
    · exact List.mem_range.mp ha
    · cases ha
  · obtain ⟨hdot, hnul⟩ := hserv a ha
    exact ⟨List.ne_nil_of_mem hdot, hnul⟩
  · have hlt := List.mem_range.mp ha
    have hlt' := List.mem_range.mp hb
    rw [(World.start_client k a).2 (by omega), (World.start_client k b).2 (by omega)] at heq
    have hpair := List.pairwise_iff_getElem.mp k.distinct
    obtain hab | hab | hab := Nat.lt_trichotomy a b
    · exact absurd heq (hpair a b _ _ hab)
    · exact hab
    · exact absurd ((irccmp_eq_zero_comm _ _).mp heq) (hpair b a _ _ hab)
  · exact absurd (hserv a ha).1 (cleanUid_facts hclean).2.2.1
  · obtain ⟨x, y, z, hsid⟩ := k.sid.exists_bytes
    show initUid k.sid = _
    unfold initUid
    rw [hsid]
    rfl

theorem World.inv_of_reach (h : Reach (World.step k) World.Proper (World.start k) w) : w.Inv :=
  h.invariant (World.start_inv k) fun _ _ _ hinv hok hs => hinv.step hok hs

/-- Nicks stay unique in every run in which remote nicks that begin with a digit are their
    users' own, and UIDs are new. -/
theorem nicks_unique_of_proper_run (h : Reach (World.step k) World.Proper (World.start k) w) : w.NicksUnique :=
  (World.inv_of_reach h).unique

-- ============================================================================
-- Two servers
-- ============================================================================

/-- The server `a.b` with the SID `00A`, and the server `c.d` with the SID `01B` linked to
    it. -/
def pair : Setup where
  sid := ⟨[48, 48, 65], by decide⟩
  name := [97, 46, 98]
  collisionFnc := true
  peers := [⟨[99, 46, 100], [48, 49, 66], 1, 0, true⟩]
  servName := by
    unfold IsServName NoNul
    decide
  distinct := by decide

/-- `UID` for a user with the nick, and with the letter at the end of its UID. -/
def introduced (nick : Bytes) (letter : UInt8) : Op :=
  .msUid 1 nick 5 [117] [104] [48, 49, 66, 65, 65, 65, 65, 65, letter] 6

/-- `abc` and `ABC` at the same time: both get their UIDs. -/
def World.collided : World :=
  Reach.perform (World.step pair) (Reach.perform (World.step pair) (World.start pair) (introduced [97, 98, 99] 65))
    (introduced [65, 66, 67] 66)

example : World.collided.clientTable.map (fun a => (World.collided.client a).name) =
    [[48, 49, 66, 65, 65, 65, 65, 65, 66], [48, 49, 66, 65, 65, 65, 65, 65, 65], [97, 46, 98], [99, 46, 100]] := by
  decide

theorem nicks_unique_collided : World.collided.NicksUnique := by
  refine nicks_unique_of_proper_run (k := pair) ((Reach.init.performed ?_).performed ?_)
  · refine ⟨?_, fun hd => ?_⟩
    · unfold World.UidFree
      decide
    · exact absurd hd (show ¬ isDigit 97 = true by decide)
  · refine ⟨?_, fun hd => ?_⟩
    · unfold World.UidFree
      decide
    · exact absurd hd (show ¬ isDigit 65 = true by decide)

/-- `1abc` twice: the second time it is looked up among the IDs. -/
def World.twice : World :=
  Reach.perform (World.step pair) (Reach.perform (World.step pair) (World.start pair) (introduced [49, 97, 98, 99] 65))
    (introduced [49, 97, 98, 99] 66)

theorem not_nicks_unique : ¬ ∀ (k : Setup) (w : World), Reach (World.step k) anyStep (World.start k) w →
    w.NicksUnique := by
  intro h
  have hreach : Reach (World.step pair) anyStep (World.start pair) World.twice :=
    (Reach.init.performed trivial).performed trivial
  have heq := h pair _ hreach 2 (by decide) 3 (by decide) (by decide)
  cases heq

end Bluebox.NickHash
