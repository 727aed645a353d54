/-
  Bluebox.Limits.Exact

  The counters of the classes over whole runs.  `attach_conf` counts a client in
  its block before it detaches it from where it was, so in the middle of a call
  one block has one client too many.  When the call then finds the class full, it
  returns without taking the client out again.
-/
import Bluebox.Limits.Basic

namespace Bluebox.Limits

open Bluebox.Lib Bluebox.Patricia

variable {settings : Nat → Settings} {w w' : World}

-- ============================================================================
-- The invariant
-- ============================================================================

/-- The client that is counted in a block already, but not attached yet. -/
def extra (settings : Nat → Settings) (x : Option (Nat × Ip)) (k : Nat) (ip : Ip) : Int :=
  if x.any (fun y => y.1 == k && (settings k).same y.2 ip) then 1 else 0

theorem extra_none (k : Nat) (ip : Ip) : extra settings none k ip = 0 := rfl

theorem extra_nonneg (x : Option (Nat × Ip)) (k : Nat) (ip : Ip) : 0 ≤ extra settings x k ip := by
  unfold extra
  split
  · decide
  · decide

theorem extra_self (k : Nat) (ip ip' : Ip) :
    extra settings (some (k, ip)) k ip' = if (settings k).same ip ip' then 1 else 0 := by
  unfold extra
  simp

theorem extra_of_ne {k k' : Nat} (h : k ≠ k') (ip ip' : Ip) :
    extra settings (some (k, ip)) k' ip' = 0 := by
  unfold extra
  simp [h]

/-- The inductive invariant, up to one client. -/
structure World.Inv (settings : Nat → Settings) (x : Option (Nat × Ip)) (w : World) : Prop where
  ok : ∀ k, (w.classes k).freed = false → (w.classes k).Ok (settings k)
  count : ∀ k, (w.classes k).freed = false → (settings k).limited = true → ∀ ip,
    (w.classes k).ipLimits.dataAt ((settings k).block ip) =
      w.usersIn k ((settings k).block ip) + extra settings x k ip
  users : ∀ k, (w.classes k).freed = false → (w.classes k).currUsers = w.users k

theorem World.inv_start (ips : List Ip) (confs : Nat → Option Nat × Bool × Bool × Bool) :
    (World.start ips confs).Inv settings none := by
  have hzero : ∀ P : Client → Bool, (∀ client, client.attConf = none → P client = false) →
      (World.start ips confs).clients.countP P = 0 := by
    intro P hP
    rw [List.countP_eq_zero]
    intro client hin
    obtain ⟨ip, -, rfl⟩ := List.mem_map.mp hin
    rw [hP _ rfl]
    nofun
  refine ⟨fun k _ => ⟨Tree.sound_nil, nofun⟩, ?_, ?_⟩
  · intro k _ _ ip
    rw [extra_none]
    unfold World.usersIn
    rw [hzero]
    · rfl
    · intro client hnone
      unfold World.attached
      rw [hnone]
      rfl
  · intro k _
    unfold World.users
    rw [hzero]
    · rfl
    · intro client hnone
      unfold World.attached
      rw [hnone]
      rfl

/-- What the invariant is for. -/
theorem World.Inv.exact (h : w.Inv settings none) : w.Exact settings where
  counted := by
    intro k hlive n hn p hp
    obtain ⟨hlimited, ip, hkey⟩ := (h.ok k hlive).keys n hn
    rw [hp] at hkey
    obtain rfl := Option.some.inj hkey
    have hholds : n.Holds ((settings k).block ip) := ⟨_, hp, rfl, fun _ _ => rfl⟩
    have hcount := h.count k hlive hlimited ip
    rw [(h.ok k hlive).sound.dataAt (Tree.mem_entries.mp hn).1 hholds, extra_none, Int.add_zero] at hcount
    exact hcount
  present := by
    intro k hlive hlimited client hin hatt
    have hpos : 0 < w.usersIn k ((settings k).block client.ip) := by
      refine List.countP_pos_iff.mpr ⟨client, hin, ?_⟩
      rw [hatt, Bool.true_and]
      exact compWithMask_iff.mpr fun _ _ => rfl
    have hcount := h.count k hlive hlimited client.ip
    rw [extra_none, Int.add_zero] at hcount
    by_contra hnone
    have hzero := (h.ok k hlive).sound.dataAt_none (p := (settings k).block client.ip)
      fun m hm hp => hnone ⟨m, Tree.mem_entries.mpr ⟨hm, hp.isSome⟩, hp⟩
    rw [hzero] at hcount
    have hdefault : (default : Int) = 0 := rfl
    omega
  users := h.users

-- ============================================================================
-- Moving a client
-- ============================================================================

theorem countP_set_add {l : List Client} {i : Nat} {a : Client} (h : l[i]? = some a) (b : Client)
    (P : Client → Bool) : (l.set i b).countP P + (P a).toNat = l.countP P + (P b).toNat := by
  obtain ⟨hlt, rfl⟩ := List.getElem?_eq_some_iff.mp h
  have hpos : P l[i] = true → 0 < l.countP P := fun hP =>
    List.countP_pos_iff.mpr ⟨l[i], List.getElem_mem hlt, hP⟩
  rw [List.countP_set hlt]
  cases hP : P l[i] with
  | true =>
    have hpos := hpos hP
    cases P b with
    | true => simp; omega
    | false => simp; omega
  | false =>
    cases P b with
    | true => simp
    | false => simp

theorem attached_congr {k : Nat}
    (h : ∀ a, (w'.confs a).classPtr = some k ↔ (w.confs a).classPtr = some k) :
    w'.attached k = w.attached k := by
  funext client
  unfold World.attached
  cases client.attConf with
  | none => rfl
  | some a =>
    simp only [Option.any_some]
    rw [Bool.eq_iff_iff, beq_iff_eq, beq_iff_eq]
    exact h a

theorem same_comm (s : Settings) (ip ip' : Ip) :
    compWithMask (bits ip) (bits ip') s.cidrIpv4Bitlen = s.same ip' ip := by
  rw [Bool.eq_iff_iff, same_iff, compWithMask_iff]
  exact ⟨Agree.symm, Agree.symm⟩

/-- A client is attached to another class, or to none, and the counters of the
    classes that are still there follow. -/
theorem World.Inv.move {x x' : Option (Nat × Ip)} (h : w.Inv settings x) {i : Nat}
    {client new : Client} (hi : w.clients[i]? = some client)
    (hclients : w'.clients = w.clients.set i new) (hip : new.ip = client.ip)
    (hlive : ∀ k, (w'.classes k).freed = false → (w.classes k).freed = false ∧
      ∀ a, (w'.confs a).classPtr = some k ↔ (w.confs a).classPtr = some k)
    (hok : ∀ k, (w'.classes k).freed = false → (w'.classes k).Ok (settings k))
    (hcount : ∀ k, (w'.classes k).freed = false → (settings k).limited = true → ∀ ip,
      (w'.classes k).ipLimits.dataAt ((settings k).block ip) + extra settings x k ip +
          (w.attached k client && (settings k).same client.ip ip).toNat =
        (w.classes k).ipLimits.dataAt ((settings k).block ip) + extra settings x' k ip +
          (w.attached k new && (settings k).same client.ip ip).toNat)
    (husers : ∀ k, (w'.classes k).freed = false →
      (w'.classes k).currUsers + (w.attached k client).toNat =
        (w.classes k).currUsers + (w.attached k new).toNat) : w'.Inv settings x' := by
  refine ⟨hok, ?_, ?_⟩
  · intro k hk hlimited ip
    obtain ⟨hk', hconfs⟩ := hlive k hk
    have hset := countP_set_add hi new fun c =>
      w.attached k c && compWithMask (bits ip) (bits c.ip) (settings k).cidrIpv4Bitlen
    rw [hip, same_comm, ← hclients, ← attached_congr hconfs] at hset
    have hold := h.count k hk' hlimited ip
    have hnew := hcount k hk hlimited ip
    rw [← attached_congr hconfs] at hnew
    change w'.usersIn k ((settings k).block ip) + _ = w.clients.countP _ + _ at hset
    have holdusers : w.clients.countP (fun c => w'.attached k c &&
        compWithMask (bits ip) (bits c.ip) (settings k).cidrIpv4Bitlen) =
        w.usersIn k ((settings k).block ip) := by
      rw [attached_congr hconfs]
      rfl
    omega
  · intro k hk
    obtain ⟨hk', hconfs⟩ := hlive k hk
    have hset := countP_set_add hi new (w.attached k)
    rw [← hclients, ← attached_congr hconfs] at hset
    have hold := h.users k hk'
    have hnew := husers k hk
    rw [← attached_congr hconfs] at hnew
    have holdusers : w.clients.countP (w'.attached k) = w.users k := by
      rw [attached_congr hconfs]
      rfl
    change w'.users k + _ = _ at hset
    omega

theorem attached_of_none {k : Nat} {client : Client} (h : client.attConf = none) :
    w.attached k client = false := by
  unfold World.attached
  rw [h]
  rfl

theorem attached_of_some {a k : Nat} {client : Client} (h : client.attConf = some a) :
    w.attached k client = ((w.confs a).classPtr == some k) := by
  unfold World.attached
  rw [h]
  rfl

-- ============================================================================
-- detach_conf
-- ============================================================================

theorem setClass_of_ne {k k' : Nat} (h : k ≠ k') (c : Class) :
    (w.setClass k c).classes k' = w.classes k' := Function.update_of_ne (Ne.symm h) ..

theorem setClass_self (k : Nat) (c : Class) : (w.setClass k c).classes k = c :=
  Function.update_self ..

theorem setConf_classes (a : Nat) (c : Conf) : (w.setConf a c).classes = w.classes := rfl

theorem setConf_classPtr {a : Nat} {c : Conf} (h : c.classPtr = (w.confs a).classPtr) (b : Nat) :
    ((w.setConf a c).confs b).classPtr = (w.confs b).classPtr := by
  unfold World.setConf
  dsimp only
  by_cases hb : b = a
  · rw [hb, Function.update_self, h]
  · rw [Function.update_of_ne hb]

/-- What the classes that are still there look like after a client left one. -/
theorem World.Inv.leaveClass {x : Option (Nat × Ip)} (h : w.Inv settings x) {a k : Nat}
    {client : Client} (hin : client ∈ w.clients) (hatt : w.attached k client = true)
    (hk : (w.confs a).classPtr = some k)
    (hleft : w.leaveClass settings a k client.ip = some w') :
    w'.clients = w.clients ∧ ∀ k', (w'.classes k').freed = false →
      (w.classes k').freed = false ∧
      (∀ b, (w'.confs b).classPtr = some k' ↔ (w.confs b).classPtr = some k') ∧
      (w'.classes k').Ok (settings k') ∧
      ((settings k').limited = true → ∀ ip,
        (w'.classes k').ipLimits.dataAt ((settings k').block ip) +
            (k == k' && (settings k').same client.ip ip).toNat =
          (w.classes k').ipLimits.dataAt ((settings k').block ip)) ∧
      (w'.classes k').currUsers + (k == k').toNat = (w.classes k').currUsers := by
  unfold World.leaveClass at hleft
  dsimp only at hleft
  split at hleft
  · cases hleft
  rename_i hlive
  have hlive := Bool.eq_false_iff.mpr hlive
  have husers := h.users k hlive
  have hpos : 0 < w.users k := List.countP_pos_iff.mpr ⟨client, hin, hatt⟩
  have hcounted : (settings k).limited = true →
      0 < (w.classes k).ipLimits.dataAt ((settings k).block client.ip) := by
    intro hlimited
    have hposIn : 0 < w.usersIn k ((settings k).block client.ip) := by
      refine List.countP_pos_iff.mpr ⟨client, hin, ?_⟩
      rw [hatt, Bool.true_and]
      exact compWithMask_iff.mpr fun _ _ => rfl
    have hextra : 0 ≤ extra settings x k client.ip := extra_nonneg x k client.ip
    rw [h.count k hlive hlimited client.ip]
    omega
  obtain ⟨hok, husers', hfreed', hdata⟩ := (h.ok k hlive).removeIpLimit client.ip hcounted
  have hgt : (w.classes k).currUsers > 0 := by omega
  rw [husers', if_pos hgt] at hleft
  -- another class keeps its counters
  have hother : ∀ {k'}, k ≠ k' → (w.classes k').freed = false → (w.classes k').Ok (settings k') ∧
      ((settings k').limited = true → ∀ ip,
        (w.classes k').ipLimits.dataAt ((settings k').block ip) +
            (k == k' && (settings k').same client.ip ip).toNat =
          (w.classes k').ipLimits.dataAt ((settings k').block ip)) ∧
      (w.classes k').currUsers + (k == k').toNat = (w.classes k').currUsers := by
    intro k' hne hlive'
    simp only [beq_false_of_ne hne, Bool.false_and]
    exact ⟨h.ok k' hlive', fun _ _ => Int.add_zero _, Int.add_zero _⟩
  split at hleft
  · obtain rfl := Option.some.inj hleft
    refine ⟨rfl, fun k' hk' => ?_⟩
    by_cases hne : k = k'
    · rw [← hne] at hk'
      rw [setConf_classes, setClass_self] at hk'
      cases hk'
    · rw [setConf_classes, setClass_of_ne hne] at hk' ⊢
      refine ⟨hk', fun b => ?_, hother hne hk'⟩
      unfold World.setConf World.setClass
      dsimp only
      by_cases hb : b = a
      · rw [hb, Function.update_self, hk]
        simp [hne]
      · rw [Function.update_of_ne hb]
  · obtain rfl := Option.some.inj hleft
    refine ⟨rfl, fun k' hk' => ?_⟩
    by_cases hne : k = k'
    · rw [← hne]
      rw [setClass_self]
      refine ⟨hlive, fun _ => Iff.rfl, ⟨hok.sound, hok.keys⟩, fun hlimited ip => ?_, ?_⟩
      · rw [hdata hlimited ip, beq_self_eq_true, Bool.true_and]
        cases (settings k).same client.ip ip with
        | true => simp
        | false => simp
      · simp
    · rw [setClass_of_ne hne] at hk' ⊢
      exact ⟨hk', fun _ => Iff.rfl, hother hne hk'⟩

/-- `detach_conf` keeps the invariant, and the client is detached. -/
theorem World.Inv.detachConf {x : Option (Nat × Ip)} (h : w.Inv settings x) {i : Nat}
    {client : Client} (hi : w.clients[i]? = some client)
    (hs : w.detachConf settings i = some w') :
    w'.Inv settings x ∧ w'.clients = w.clients.set i { client with attConf := none } ∧
      ∀ k, (w'.classes k).freed = false →
        ∀ b, (w'.confs b).classPtr = some k ↔ (w.confs b).classPtr = some k := by
  unfold World.detachConf at hs
  rw [hi, Option.bind_some] at hs
  split at hs
  · rename_i hnone
    obtain rfl := Option.some.inj hs
    refine ⟨h, ?_, fun _ _ _ => Iff.rfl⟩
    rw [← hnone]
    obtain ⟨hlt, rfl⟩ := List.getElem?_eq_some_iff.mp hi
    exact (List.set_getElem_self hlt).symm
  rename_i a ha
  split at hs
  · cases hs
  obtain ⟨v, hv, rfl⟩ := Option.map_eq_some_iff.mp hs
  have hfresh : ∀ k, w.attached k { client with attConf := none } = false :=
    fun k => attached_of_none rfl
  cases hk : (w.confs a).classPtr with
  | none =>
    rw [hk] at hv
    obtain rfl := Option.some.inj hv
    have hatt : ∀ k, w.attached k client = false := by
      intro k
      rw [attached_of_some ha, hk]
      rfl
    have hconfs : ∀ k b, ((w.setConf a (w.confs a).release).confs b).classPtr = some k ↔
        (w.confs b).classPtr = some k := by
      intro k b
      rw [setConf_classPtr]
      rfl
    refine ⟨h.move hi rfl rfl (fun k hlive => ⟨hlive, hconfs k⟩) h.ok ?_ ?_, rfl, fun k _ => hconfs k⟩
    · intro k _ _ ip
      rw [hatt, hfresh]
      rfl
    · intro k _
      rw [hatt, hfresh]
      rfl
  | some k =>
    rw [hk] at hv
    have hatt : ∀ k', w.attached k' client = (k == k') := by
      intro k'
      rw [attached_of_some ha, hk]
      rfl
    obtain ⟨hclients, hrest⟩ := h.leaveClass (List.mem_of_getElem? hi)
      ((hatt k).trans (beq_self_eq_true k)) hk hv
    have hset : v.clients.set i { client with attConf := none } =
        w.clients.set i { client with attConf := none } := by rw [hclients]
    have hconfs : ∀ k', (v.classes k').freed = false → ∀ b,
        ((v.setConf a (v.confs a).release).confs b).classPtr = some k' ↔
          (w.confs b).classPtr = some k' := by
      intro k' hlive b
      rw [setConf_classPtr]
      · exact (hrest k' hlive).2.1 b
      · rfl
    refine ⟨h.move hi hset rfl (fun k' hlive => ⟨(hrest k' hlive).1, hconfs k' hlive⟩)
      (fun k' hlive => (hrest k' hlive).2.2.1) ?_ ?_, hset, hconfs⟩
    · intro k' hlive hlimited ip
      rw [hfresh, hatt]
      have hdata := (hrest k' hlive).2.2.2.1 hlimited ip
      change (v.classes k').ipLimits.dataAt _ + _ + _ = _
      rw [← hdata, Bool.false_and]
      simp only [Bool.toNat_false]
      omega
    · intro k' hlive
      rw [hfresh, hatt]
      have husers := (hrest k' hlive).2.2.2.2
      change (v.classes k').currUsers + _ = _
      rw [husers]
      simp

-- ============================================================================
-- attach_conf
-- ============================================================================

/-- A block that was counted for a client, and the client that then comes in. -/
theorem World.Inv.enterClass {k i a : Nat} {client : Client}
    (h : w.Inv settings (some (k, client.ip))) (hi : w.clients[i]? = some client)
    (hnone : client.attConf = none) (hk : (w.confs a).classPtr = some k)
    (hs : w.enterClass i a = some w') : w'.Inv settings none := by
  unfold World.enterClass at hs
  dsimp only at hs
  rw [hk, Option.bind_some] at hs
  split at hs
  · cases hs
  rename_i hlive
  rw [not_or] at hlive
  have hlive := Bool.eq_false_iff.mpr hlive.2
  rw [hi, Option.map_some] at hs
  obtain rfl := Option.some.inj hs
  have hatt : ∀ k', w.attached k' client = false := fun _ => attached_of_none hnone
  have hnew : ∀ k', w.attached k' { client with attConf := some a } = (k == k') := by
    intro k'
    rw [attached_of_some rfl, hk]
    rfl
  -- only the number of users of the class changes
  have hclass : ∀ k', (Function.update w.classes k
      { w.classes k with currUsers := (w.classes k).currUsers + 1 }) k' =
      { w.classes k' with currUsers := (w.classes k').currUsers + (k == k').toNat } := by
    intro k'
    by_cases hne : k = k'
    · rw [← hne, Function.update_self, beq_self_eq_true]
      rfl
    · rw [Function.update_of_ne (Ne.symm hne), beq_false_of_ne hne]
      simp
  refine h.move hi rfl rfl ?_ ?_ ?_ ?_
  · intro k' hk'
    unfold World.setClass at hk'
    dsimp only at hk'
    rw [setConf_classes, hclass] at hk'
    refine ⟨hk', fun b => ?_⟩
    change ((w.setConf a _).confs b).classPtr = _ ↔ _
    rw [setConf_classPtr]
    exact hk.symm
  · intro k' hk'
    unfold World.setClass at hk' ⊢
    dsimp only at hk' ⊢
    rw [setConf_classes, hclass] at hk' ⊢
    exact ⟨(h.ok k' hk').sound, (h.ok k' hk').keys⟩
  · intro k' _ _ ip
    unfold World.setClass
    dsimp only
    rw [setConf_classes, hclass, hatt, hnew, extra_none]
    by_cases hne : k = k'
    · rw [hne, extra_self, beq_self_eq_true, Bool.true_and, Bool.false_and]
      cases (settings k').same client.ip ip with
      | true => simp
      | false => simp
    · rw [extra_of_ne hne, beq_false_of_ne hne, Bool.false_and]
  · intro k' _
    unfold World.setClass
    dsimp only
    rw [setConf_classes, hclass, hatt, hnew]
    simp

theorem enterClass_live {i a : Nat} (h : w.enterClass i a = some w') :
    ∃ k, (w.confs a).classPtr = some k ∧ (w.classes k).freed = false := by
  unfold World.enterClass at h
  obtain ⟨k, hk, h⟩ := Option.bind_eq_some_iff.mp h
  split at h
  · cases h
  · rename_i hlive
    rw [not_or] at hlive
    exact ⟨k, hk, Bool.eq_false_iff.mpr hlive.2⟩

/-- The tree of one class changed. -/
theorem World.Inv.setClass {x x' : Option (Nat × Ip)} (h : w.Inv settings x) {k : Nat} {c : Class}
    (hlive : (w.classes k).freed = false) (hok : c.Ok (settings k))
    (husers : c.currUsers = (w.classes k).currUsers)
    (hcount : (settings k).limited = true → ∀ ip, c.ipLimits.dataAt ((settings k).block ip) =
      (w.classes k).ipLimits.dataAt ((settings k).block ip) - extra settings x k ip +
        extra settings x' k ip)
    (hother : ∀ k', k ≠ k' → ∀ ip, extra settings x' k' ip = extra settings x k' ip) :
    (w.setClass k c).Inv settings x' := by
  refine ⟨?_, ?_, ?_⟩
  · intro k' hk'
    by_cases hne : k = k'
    · rw [← hne, setClass_self]
      exact hok
    · rw [setClass_of_ne hne] at hk' ⊢
      exact h.ok k' hk'
  · intro k' hk' hlimited ip
    change ((w.setClass k c).classes k').ipLimits.dataAt _ = w.usersIn k' _ + _
    by_cases hne : k = k'
    · rw [← hne] at hlimited ⊢
      rw [setClass_self, hcount hlimited ip, h.count k hlive hlimited ip]
      omega
    · rw [setClass_of_ne hne] at hk' ⊢
      rw [hother k' hne ip]
      exact h.count k' hk' hlimited ip
  · intro k' hk'
    change ((w.setClass k c).classes k').currUsers = w.users k'
    by_cases hne : k = k'
    · rw [← hne, setClass_self, husers]
      exact h.users k hlive
    · rw [setClass_of_ne hne] at hk' ⊢
      exact h.users k' hk'

/-- The class is not full, or its limits by address are off or reached. -/
def World.attachOk (settings : Nat → Settings) (w : World) (i a : Nat) : Bool :=
  w.clients[i]?.all fun client => (w.confs a).classPtr.all fun k =>
    (w.confs a).illegal || !(settings k).limited || !w.full settings a k ||
      decide ((w.classes k).ipLimits.dataAt ((settings k).block client.ip) ≥ (settings k).cidrAmount)

/-- The guard of a step. -/
def World.stepOk (settings : Nat → Settings) (w : World) : Op → Prop
  | .attach i a => w.attachOk settings i a = true
  | .detach _ => True

theorem sameCounters_setClass {k : Nat} {c : Class} (husers : c.currUsers = (w.classes k).currUsers)
    (hdata : ∀ p, c.ipLimits.dataAt p = (w.classes k).ipLimits.dataAt p) :
    SameCounters w (w.setClass k c) := by
  intro k'
  by_cases hne : k = k'
  · rw [← hne, setClass_self]
    exact ⟨husers, hdata⟩
  · rw [setClass_of_ne hne]
    exact ⟨rfl, fun _ => rfl⟩

/-- `attach_conf` keeps the invariant, and changes no counter when it fails. -/
theorem World.Inv.attachConf (h : w.Inv settings none) {i a : Nat} {code : Code}
    (hguard : w.attachOk settings i a = true)
    (hs : w.attachConf settings i a = some (w', code)) :
    w'.Inv settings none ∧ (code ≠ .ok → SameCounters w w') := by
  unfold World.attachConf at hs
  obtain ⟨client, hi, hs⟩ := Option.bind_eq_some_iff.mp hs
  dsimp only at hs
  split at hs
  · cases hs
  split at hs
  · obtain ⟨rfl, -⟩ := Prod.mk.inj (Option.some.inj hs)
    exact ⟨h, fun _ _ => ⟨rfl, fun _ => rfl⟩⟩
  rename_i hillegal
  obtain ⟨k, hk, hs⟩ := Option.bind_eq_some_iff.mp hs
  split at hs
  · cases hs
  rename_i hlive
  have hlive := Bool.eq_false_iff.mpr hlive
  obtain ⟨c, ok, hadd, hok, husers, -, hrefused, hsame, hcounted⟩ :=
    (h.ok k hlive).addIpLimit (w.confs a).exemptLimits client.ip
  rw [hadd, Option.bind_some] at hs
  dsimp only at hs
  -- where no block was counted, nothing changed
  have hunchanged : ok = false ∨ (settings k).limited = false →
      (w.setClass k c).Inv settings none ∧ SameCounters w (w.setClass k c) := by
    intro hnone
    refine ⟨h.setClass hlive hok husers ?_ fun _ _ _ => rfl, sameCounters_setClass husers (hsame hnone)⟩
    intro _ ip
    rw [extra_none, hsame hnone]
    omega
  split at hs
  · rename_i hfalse
    obtain ⟨rfl, rfl⟩ := Prod.mk.inj (Option.some.inj hs)
    obtain ⟨hinv, hcounters⟩ := hunchanged (Or.inl hfalse)
    exact ⟨hinv, fun _ => hcounters⟩
  rename_i htrue
  have htrue : ok = true := by simpa using htrue
  split at hs
  · rename_i hfull
    obtain ⟨rfl, rfl⟩ := Prod.mk.inj (Option.some.inj hs)
    -- the class is full: then by the guard no block was counted
    have hfull' : w.full settings a k = true := by
      unfold World.full at hfull ⊢
      rw [setClass_self, husers] at hfull
      exact hfull
    have hexempt : (w.confs a).exemptLimits = false := by
      unfold World.full at hfull'
      simp only [Bool.and_eq_true, Bool.not_eq_true'] at hfull'
      exact hfull'.2
    have hoff : (settings k).limited = false := by
      by_contra hlimited
      have hlimited : (settings k).limited = true := by simpa using hlimited
      unfold World.attachOk at hguard
      rw [hi, hk] at hguard
      simp only [Option.all_some, hlimited, hfull', hillegal, Bool.not_true, Bool.or_false,
        Bool.false_or, decide_eq_true_eq] at hguard
      rw [hrefused.mpr ⟨hlimited, hguard, hexempt⟩] at htrue
      cases htrue
    obtain ⟨hinv, hcounters⟩ := hunchanged (Or.inr hoff)
    exact ⟨hinv, fun _ => hcounters⟩
  obtain ⟨v, hv, hcode⟩ := Option.map_eq_some_iff.mp hs
  obtain ⟨rfl, rfl⟩ := Prod.mk.inj hcode
  refine ⟨?_, fun hne => absurd rfl hne⟩
  obtain ⟨u, hu, henter⟩ := Option.bind_eq_some_iff.mp hv
  have hpending : (w.setClass k c).Inv settings (some (k, client.ip)) := by
    refine h.setClass hlive hok husers ?_ fun k' hne ip => extra_of_ne hne client.ip ip
    intro hlimited ip
    rw [hcounted htrue hlimited ip, extra_none, extra_self]
    omega
  split at hu
  · rename_i hnone
    obtain rfl := Option.some.inj hu
    exact hpending.enterClass hi hnone hk henter
  · obtain ⟨hinv, hclients, hconfs⟩ := hpending.detachConf hi hu
    have hi' : u.clients[i]? = some { client with attConf := none } := by
      rw [hclients]
      exact List.getElem?_set_self (List.getElem?_eq_some_iff.mp hi).1
    -- the class is still there, or there is no result
    obtain ⟨k', hk', hlive'⟩ := enterClass_live henter
    have hkk : some k' = some k := ((hconfs k' hlive' a).mp hk').symm.trans hk
    rw [Option.some.inj hkk] at hk'
    have hinv : u.Inv settings (some (k, ({ client with attConf := none } : Client).ip)) := hinv
    exact hinv.enterClass hi' rfl hk' henter

-- ============================================================================
-- Whole runs
-- ============================================================================

theorem World.Inv.step (h : w.Inv settings none) {op : Op} (hguard : w.stepOk settings op)
    (hs : w.step settings op = some w') : w'.Inv settings none := by
  cases op with
  | attach i a =>
    obtain ⟨⟨v, code⟩, hv, rfl⟩ := Option.map_eq_some_iff.mp hs
    exact (h.attachConf hguard hv).1
  | detach i =>
    have hs' : w.detachConf settings i = some w' := hs
    unfold World.detachConf at hs'
    obtain ⟨client, hi, -⟩ := Option.bind_eq_some_iff.mp hs'
    exact (h.detachConf hi hs).1

/-- In every run in which no client is refused because its class is full after it
    was counted in its block, the counters are exact, and a call that fails changes
    none of them. -/
theorem exact_of_stepOk_run {ips : List Ip} {confs : Nat → Option Nat × Bool × Bool × Bool}
    (h : Reach (World.step settings) (World.stepOk settings) (World.start ips confs) w) :
    w.Exact settings ∧ ∀ i a w' code, w.attachOk settings i a = true →
      w.attachConf settings i a = some (w', code) → code ≠ .ok → SameCounters w w' := by
  have hinv : w.Inv settings none :=
    h.invariant (P := World.Inv settings none) (World.inv_start ips confs)
      fun _ _ _ hinv hguard hs => hinv.step hguard hs
  exact ⟨hinv.exact, fun i a w' code hguard hs hne => (hinv.attachConf hguard hs).2 hne⟩

/-- A class for one client in each /24, and a second client of the same block: it is
    refused, and the counters stay. -/
theorem exact_after_refusal : ∃ w w' : World, w.Exact (fun _ => ⟨5, 1, 24, 0, by decide⟩) ∧
    w.attachConf (fun _ => ⟨5, 1, 24, 0, by decide⟩) 1 0 = some (w', .tooManyLocal) ∧
    SameCounters w w' := by
  have hreach : Reach (World.step fun _ => ⟨5, 1, 24, 0, by decide⟩)
      (World.stepOk fun _ => ⟨5, 1, 24, 0, by decide⟩)
      (World.start [0x0a000001#32, 0x0a000002#32] fun _ => (some 0, true, false, false))
      (Reach.perform (World.step fun _ => ⟨5, 1, 24, 0, by decide⟩)
        (World.start [0x0a000001#32, 0x0a000002#32] fun _ => (some 0, true, false, false))
        (.attach 0 0)) :=
    Reach.init.performed (by unfold World.stepOk; decide)
  obtain ⟨hexact, hsame⟩ := exact_of_stepOk_run hreach
  generalize hw : Reach.perform _ _ _ = w at hexact hsame
  have hcode : (w.attachConf (fun _ => ⟨5, 1, 24, 0, by decide⟩) 1 0).map Prod.snd =
      some .tooManyLocal := by
    rw [← hw]
    decide
  obtain ⟨⟨w', code⟩, hs, rfl⟩ := Option.map_eq_some_iff.mp hcode
  refine ⟨w, w', hexact, hs, hsame 1 0 w' _ ?_ hs nofun⟩
  rw [← hw]
  decide

/-- With room for one client only, a second one from another block is refused but
    stays counted in its block. -/
theorem not_exact_after_full : ¬ ∀ (settings : Nat → Settings) (ips : List Ip)
    (confs : Nat → Option Nat × Bool × Bool × Bool) (w : World),
    Reach (World.step settings) anyStep (World.start ips confs) w →
      w.Exact settings ∧ ∀ i a w' code, w.attachConf settings i a = some (w', code) → code ≠ .ok →
        SameCounters w w' := by
  intro h
  have hsame := (h (fun _ => ⟨1, 2, 24, 0, by decide⟩) [0x0a000001#32, 0x0a000101#32]
    (fun _ => (some 0, true, false, false)) _ (Reach.performed_all [.attach 0 0] .init)).2
  generalize hw : List.foldl _ _ _ = w at hsame
  have hfull : (w.attachConf (fun _ => ⟨1, 2, 24, 0, by decide⟩) 1 0).map (fun x => (x.2,
      (x.1.classes 0).ipLimits.dataAt ⟨24, bits 0x0a000101#32⟩)) = some (.iLineFull, 1) := by
    rw [← hw]
    decide
  have hzero : (w.classes 0).ipLimits.dataAt ⟨24, bits 0x0a000101#32⟩ = 0 := by
    rw [← hw]
    decide
  obtain ⟨⟨w', code⟩, hs, hx⟩ := Option.map_eq_some_iff.mp hfull
  obtain ⟨rfl, hone⟩ := Prod.mk.inj hx
  have hdata := (hsame 1 0 w' _ hs nofun 0).2 ⟨24, bits 0x0a000101#32⟩
  rw [hzero] at hdata
  exact absurd (hone.symm.trans hdata) (by decide)

end Bluebox.Limits
