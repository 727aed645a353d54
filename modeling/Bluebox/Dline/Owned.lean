/-
  Bluebox.Dline.Owned

  D-lines and the tree over whole runs.  A prefix has one slot for a D-line.  As
  long as no temporary D-line is pushed out of its slot, and `UNDLINE` of a
  temporary one still finds its flag, temporary D-lines and nodes point to each
  other, and what is removed is what was meant.
-/
import Bluebox.Dline.Basic

namespace Bluebox.Dline

open Bluebox.Lib Bluebox.Patricia

variable {cfg : Config} {w w' : World}

-- ============================================================================
-- The condition
-- ============================================================================

/-- A temporary D-line has the prefix of a host. -/
def World.tempAt (cfg : Config) (w : World) (host : Bytes) : Bool :=
  (w.heldAt cfg host).any fun c => (w.confs c).temporary

/-- The guard of a step. -/
def World.keeps (cfg : Config) (w : World) : Op → Bool
  | .dline isAdmin dlhost _ _ _ =>
    !(validDline cfg isAdmin dlhost && w.alreadyPlacedDline cfg dlhost && w.tempAt cfg dlhost)
  | .undline isAdmin host stale =>
    (w.undlined cfg isAdmin host).all fun c => !(w.confs c).temporary || stale
  | .finish rows => rows.all fun row => !w.tempAt cfg row.1
  | _ => true

-- ============================================================================
-- Entries of the tree
-- ============================================================================

section Entries

variable {t : Patricia.Tree (Option Nat)} {next : Nat}

/-- A slot is made and filled. -/
theorem fill_slot (h : t.Sound 128 next) {p : Pfx} (hlen : p.bitlen ≤ 128) (c : Nat) :
    ∃ x, lookup 128 p next t = some x ∧ (x.1.setData x.2 fun _ => some c).Sound 128 (next + 2) ∧
      ∃ e : Node (Option Nat), e.loc = x.2 ∧ e.Holds p ∧ e.data = some c ∧
        ∀ n, n ∈ (x.1.setData x.2 fun _ => some c).entries ↔ n = e ∨ n ∈ t.entries ∧ ¬ n.Holds p := by
  obtain ⟨x, hx, hsound, ⟨e, he, hloc, hholds, hnew⟩, hold, -⟩ := h.lookup hlen
  have hentry : e ∈ x.1.entries := Tree.mem_entries.mpr ⟨he, hholds.isSome⟩
  have hset := (hsound.setData hentry fun _ => some c).1
  have hsame := Node.update_same e.loc (fun _ => some c) e
  refine ⟨x, hx, ?_⟩
  rw [← hloc]
  refine ⟨hset, e.update e.loc fun _ => some c, hsame.1, ?_, ?_, ?_⟩
  · obtain ⟨q, hq, hlen, hagree⟩ := hholds
    exact ⟨q, hsame.2.2.trans hq, hlen, hagree⟩
  · unfold Node.update
    rw [if_pos rfl]
  · intro n
    rw [Tree.entries_setData, List.mem_map]
    constructor
    · rintro ⟨m, hm, rfl⟩
      by_cases hme : m.loc = e.loc
      · exact Or.inl (by rw [hsound.eq_of_loc (Tree.mem_entries.mp hm).1 he hme])
      · have hkeep : m.update e.loc (fun _ => some c) = m := if_neg hme
        rw [hkeep]
        have hnot : ¬ m.Holds p := fun hp =>
          hme (congrArg Node.loc (hsound.wf.holds_unique (Tree.mem_entries.mp hm).1 he hp hholds))
        obtain hm | ⟨rfl, -, -⟩ := hnew m hm
        · exact Or.inr ⟨hm, hnot⟩
        · exact absurd hholds hnot
    · rintro (rfl | ⟨hn, hnot⟩)
      · exact ⟨e, hentry, rfl⟩
      · refine ⟨n, hold n hn, if_neg fun hloc' => hnot ?_⟩
        rw [hsound.eq_of_loc (Tree.mem_entries.mp (hold n hn)).1 he hloc']
        exact hholds

/-- A slot is given up. -/
theorem mem_remove (h : t.Sound 128 next) {e : Node (Option Nat)} (he : e ∈ t.entries)
    (n : Node (Option Nat)) : n ∈ (remove e.loc t).entries ↔ n ∈ t.entries ∧ n ≠ e := by
  obtain ⟨-, hperm, -⟩ := h.remove he
  have hnodup : t.entries.Nodup := (List.Nodup.of_map _ h.nodup).filter _
  have hcons := List.nodup_cons.mp (hperm.nodup_iff.mp hnodup)
  rw [hperm.mem_iff, List.mem_cons]
  constructor
  · intro hn
    exact ⟨Or.inr hn, fun hne => hcons.1 (hne ▸ hn)⟩
  · rintro ⟨rfl | hn, hne⟩
    · exact absurd rfl hne
    · exact hn

/-- The data of a prefix is that of the entry that has it. -/
theorem dataAt_eq_some (h : t.Sound 128 next) {p : Pfx} {c : Nat} :
    t.dataAt p = some c ↔ ∃ n ∈ t.entries, n.Holds p ∧ n.data = some c := by
  constructor
  · intro hdata
    by_contra hnone
    have hall : ∀ m ∈ t.nodes, ¬ m.Holds p := by
      intro m hm hp
      rw [h.dataAt hm hp] at hdata
      exact hnone ⟨m, Tree.mem_entries.mpr ⟨hm, hp.isSome⟩, hp, hdata⟩
    rw [h.dataAt_none hall] at hdata
    cases hdata
  · rintro ⟨n, hn, hp, hdata⟩
    rw [h.dataAt (Tree.mem_entries.mp hn).1 hp, hdata]

end Entries

-- ============================================================================
-- The invariant
-- ============================================================================

/-- The inductive invariant. -/
structure World.Inv (w : World) : Prop where
  sound : w.dlineTree.Sound 128 w.nextNode
  held : ∀ n ∈ w.dlineTree.entries, ∃ c, n.data = some c ∧ c < w.nextConf ∧
    (w.confs c).pnode = some n.loc
  temp : ∀ t, ∀ c ∈ w.temp t, (w.confs c).temporary = true ∧ (w.confs c).port = t ∧ w.InForce c
  nodup : ∀ t, (w.temp t).Nodup

theorem World.inv_start : World.start.Inv where
  sound := Tree.sound_nil
  held := nofun
  temp := nofun
  nodup := fun _ => List.nodup_nil

theorem World.Inv.lt_of_inForce (h : w.Inv) {c : Nat} (hc : w.InForce c) : c < w.nextConf := by
  obtain ⟨n, hn, hdata⟩ := hc
  obtain ⟨d, hd, hlt, -⟩ := h.held n hn
  rw [hdata] at hd
  rwa [← Option.some.inj hd] at hlt

/-- What the invariant is for. -/
theorem World.Inv.owned (h : w.Inv) : w.Owned where
  temp := by
    intro t c hc
    obtain ⟨-, -, n, hn, hdata⟩ := h.temp t c hc
    obtain ⟨d, hd, -, hloc⟩ := h.held n hn
    rw [hdata] at hd
    obtain rfl := Option.some.inj hd
    exact ⟨n, (Tree.mem_entries.mp hn).1, hloc, hdata⟩
  held := by
    intro n hn c hc
    obtain ⟨d, hd, -, hloc⟩ := h.held n hn
    rw [hc] at hd
    rwa [← Option.some.inj hd] at hloc

-- ============================================================================
-- Removal
-- ============================================================================

/-- `remove_dline` of a D-line in force. -/
theorem World.Inv.removeDline (h : w.Inv) {c : Nat} {n : Node (Option Nat)}
    (hn : n ∈ w.dlineTree.entries) (hc : n.data = some c) :
    w.removeDline c = some { w with dlineTree := remove n.loc w.dlineTree } := by
  obtain ⟨d, hd, -, hloc⟩ := h.held n hn
  rw [hc] at hd
  obtain rfl := Option.some.inj hd
  unfold World.removeDline
  rw [hloc, Option.bind_some, h.sound.deref (Tree.mem_entries.mp hn).1]
  rfl

/-- A D-line leaves the tree and the lists. -/
theorem World.Inv.drop (h : w.Inv) {c : Nat} {n : Node (Option Nat)}
    (hn : n ∈ w.dlineTree.entries) (hc : n.data = some c) (w' : World)
    (htree : w'.dlineTree = remove n.loc w.dlineTree) (hconfs : w'.confs = w.confs)
    (hnext : w'.nextConf = w.nextConf) (hnode : w'.nextNode = w.nextNode)
    (htemp : ∀ t, w'.temp t = (w.temp t).erase c) :
    w'.Inv ∧ ∀ d, w.InForce d → d ≠ c → w'.InForce d := by
  have hmem := mem_remove h.sound hn
  have hforce : ∀ d, w.InForce d → d ≠ c → w'.InForce d := by
    rintro d ⟨m, hm, hd⟩ hne
    refine ⟨m, ?_, hd⟩
    rw [htree]
    refine (hmem m).mpr ⟨hm, ?_⟩
    rintro rfl
    rw [hc] at hd
    exact hne (Option.some.inj hd).symm
  refine ⟨⟨?_, ?_, ?_, ?_⟩, hforce⟩
  · rw [htree, hnode]
    exact (h.sound.remove hn).1
  · intro m hm
    rw [htree] at hm
    rw [hnext, hconfs]
    exact h.held m ((hmem m).mp hm).1
  · intro t d hd
    rw [htemp, List.Nodup.mem_erase_iff (h.nodup t)] at hd
    obtain ⟨htemporary, hport, hf⟩ := h.temp t d hd.2
    rw [hconfs]
    exact ⟨htemporary, hport, hforce d hf hd.1⟩
  · intro t
    rw [htemp]
    exact (h.nodup t).erase c

/-- A D-line that is not in a list is not taken out of it. -/
theorem World.Inv.erase_eq (h : w.Inv) {c : Nat} {t : Temp}
    (hnot : (w.confs c).temporary = false ∨ (w.confs c).port ≠ t) :
    (w.temp t).erase c = w.temp t := by
  refine List.erase_of_not_mem fun hin => ?_
  obtain ⟨htemporary, hport, -⟩ := h.temp t c hin
  obtain hnot | hnot := hnot
  · rw [htemporary] at hnot
    cases hnot
  · exact hnot hport

theorem setTemp_erase (h : w.Inv) {c : Nat} {t : Temp} (hport : (w.confs c).port = t) (t' : Temp) :
    (w.setTemp t ((w.temp t).erase c)).temp t' = (w.temp t').erase c := by
  unfold World.setTemp
  dsimp only
  by_cases ht : t' = t
  · rw [ht, Function.update_self]
  · rw [Function.update_of_ne ht, h.erase_eq (Or.inr fun hp => ht (hp.symm.trans hport))]

/-- `mo_undline`. -/
theorem World.Inv.undline (h : w.Inv) {isAdmin stale : Bool} {host : Bytes}
    (hguard : w.keeps cfg (.undline isAdmin host stale) = true)
    (hs : w.undline cfg isAdmin host stale = some w') :
    w'.Inv ∧ ∀ d, w.InForce d → w.undlined cfg isAdmin host ≠ some d → w'.InForce d := by
  unfold World.undline at hs
  cases hu : w.undlined cfg isAdmin host with
  | none =>
    rw [hu] at hs
    obtain rfl := Option.some.inj hs
    exact ⟨h, fun d hd _ => hd⟩
  | some c =>
    rw [hu] at hs
    have hstale : (!(w.confs c).temporary || stale) = true := by
      rw [World.keeps, hu] at hguard
      exact hguard
    -- the D-line is in the tree
    obtain ⟨n, hn, hdata⟩ : w.InForce c := by
      unfold World.undlined at hu
      obtain ⟨mask, -, hu⟩ := Option.bind_eq_some_iff.mp hu
      obtain ⟨hfound, -⟩ := Option.filter_eq_some_iff.mp hu
      obtain ⟨n, hn, hdata⟩ := Option.bind_eq_some_iff.mp hfound
      obtain ⟨hmem, hholds⟩ := searchExact_some h.sound.wf hn
      exact ⟨n, Tree.mem_entries.mpr ⟨hmem, hholds.isSome⟩, hdata⟩
    dsimp only at hs
    rw [h.removeDline hn hdata, Option.map_some] at hs
    obtain rfl := Option.some.inj hs
    have hne : ∀ d, some c ≠ some d → d ≠ c := fun d hcd hd => hcd (congrArg some hd.symm)
    cases htemporary : (w.confs c).temporary with
    | true =>
      rw [htemporary] at hstale
      have hstale : stale = true := hstale
      rw [if_pos hstale]
      obtain ⟨hinv, hforce⟩ := h.drop hn hdata
        ({ w with dlineTree := remove n.loc w.dlineTree }.setTemp (w.confs c).port
          ((w.temp (w.confs c).port).erase c)) rfl rfl rfl rfl fun t => setTemp_erase h rfl t
      exact ⟨hinv, fun d hd hcd => hforce d hd (hne d hcd)⟩
    | false =>
      have herase : ∀ t, (w.temp t).erase c = w.temp t := fun t => h.erase_eq (Or.inl htemporary)
      have hdrop : ∀ v : World, v.dlineTree = remove n.loc w.dlineTree → v.confs = w.confs →
          v.nextConf = w.nextConf → v.nextNode = w.nextNode → v.temp = w.temp →
          v.Inv ∧ ∀ d, w.InForce d → some c ≠ some d → v.InForce d := by
        intro v h1 h2 h3 h4 h5
        obtain ⟨hinv, hforce⟩ := h.drop hn hdata v h1 h2 h3 h4 fun t => by rw [h5, herase]
        exact ⟨hinv, fun d hd hcd => hforce d hd (hne d hcd)⟩
      refine hdrop _ ?_ ?_ ?_ ?_ ?_
      · split <;> rfl
      · split <;> rfl
      · split <;> rfl
      · split <;> rfl
      · split
        · unfold World.setTemp
          dsimp only
          rw [herase, Function.update_eq_self]
        · rfl

/-- One `ConfItem` of `expire_temp_kd`. -/
theorem World.Inv.expireOne (h : w.Inv) {t : Temp} {now : Int} {c : Nat} (hc : c ∈ w.temp t)
    (hs : w.expireOne t now c = some w') :
    w'.Inv ∧ w'.confs = w.confs ∧ (∀ d ∈ w.temp t, d ≠ c → d ∈ w'.temp t) ∧
      ∀ d, w.InForce d → ¬ (d = c ∧ (w.confs c).hold ≤ now) → w'.InForce d := by
  obtain ⟨-, hport, n, hn, hdata⟩ := h.temp t c hc
  unfold World.expireOne at hs
  by_cases hhold : (w.confs c).hold ≤ now
  · rw [if_pos hhold] at hs
    dsimp only at hs
    obtain ⟨d, hd, -, hloc⟩ := h.held n hn
    rw [hdata] at hd
    obtain rfl := Option.some.inj hd
    rw [if_neg (by rw [hloc]; nofun), h.removeDline hn hdata, Option.map_some] at hs
    obtain rfl := Option.some.inj hs
    obtain ⟨hinv, hforce⟩ := h.drop hn hdata
      ({ w with dlineTree := remove n.loc w.dlineTree }.setTemp t ((w.temp t).erase c)) rfl rfl rfl rfl
      fun t' => setTemp_erase h hport t'
    refine ⟨hinv, rfl, ?_, fun d hd hne => hforce d hd fun hdc => hne ⟨hdc, hhold⟩⟩
    intro d hd hne
    have herase : ((w.setTemp t ((w.temp t).erase c)).temp t) = (w.temp t).erase c :=
      setTemp_erase h hport t
    change d ∈ (w.setTemp t ((w.temp t).erase c)).temp t
    rw [herase]
    exact (List.Nodup.mem_erase_iff (h.nodup t)).mpr ⟨hne, hd⟩
  · rw [if_neg hhold] at hs
    obtain rfl := Option.some.inj hs
    exact ⟨h, rfl, fun d hd _ => hd, fun d hd _ => hd⟩

/-- The loop of `expire_temp_kd`; by induction over what is left of the list. -/
theorem World.Inv.expire_foldlM {t : Temp} {now : Int} {l : List Nat} (hl : l.Nodup) :
    ∀ {w : World}, w.Inv → (∀ c ∈ l, c ∈ w.temp t) → l.foldlM (World.expireOne t now) w = some w' →
      w'.Inv ∧ ∀ d, w.InForce d → ¬ (d ∈ l ∧ (w.confs d).hold ≤ now) → w'.InForce d := by
  induction l with
  | nil =>
    intro w h _ hs
    obtain rfl := Option.some.inj hs
    exact ⟨h, fun d hd _ => hd⟩
  | cons c l ih =>
    intro w h hin hs
    obtain ⟨hout, hl⟩ := List.nodup_cons.mp hl
    rw [List.foldlM_cons] at hs
    obtain ⟨v, hv, hs⟩ := Option.bind_eq_some_iff.mp hs
    obtain ⟨hinv, hconfs, htemp, hforce⟩ := h.expireOne (hin c List.mem_cons_self) hv
    have hin' : ∀ d ∈ l, d ∈ v.temp t := fun d hd =>
      htemp d (hin d (List.mem_cons_of_mem c hd)) fun hdc => hout (hdc ▸ hd)
    obtain ⟨hinv', hforce'⟩ := ih hl hinv hin' hs
    refine ⟨hinv', fun d hd hne => hforce' d (hforce d hd ?_) ?_⟩
    · rintro ⟨rfl, hhold⟩
      exact hne ⟨List.mem_cons_self, hhold⟩
    · rintro ⟨hdl, hhold⟩
      rw [hconfs] at hhold
      exact hne ⟨List.mem_cons_of_mem c hdl, hhold⟩

-- ============================================================================
-- Reorganising
-- ============================================================================

/-- One `ConfItem` moves to another list. -/
theorem World.Inv.reorganiseOne (h : w.Inv) {t : Temp} {now : Int} {c : Nat} (hc : c ∈ w.temp t) :
    (w.reorganiseOne t now c).Inv ∧ (∀ d ∈ w.temp t, d ≠ c → d ∈ (w.reorganiseOne t now c).temp t) ∧
      ∀ d, w.InForce d → (w.reorganiseOne t now c).InForce d := by
  obtain ⟨htemporary, hport, hf⟩ := h.temp t c hc
  unfold World.reorganiseOne
  cases hm : (w.confs c).moveTo now with
  | none => exact ⟨h, fun d hd _ => hd, fun d hd => hd⟩
  | some t' =>
    dsimp only
    -- the lists afterwards
    have hlist : ∀ t'', ((w.setTemp t ((w.temp t).erase c)).setTemp t'
        (c :: (w.setTemp t ((w.temp t).erase c)).temp t')).temp t'' =
        if t'' = t' then c :: (w.temp t'').erase c else (w.temp t'').erase c := by
      intro t''
      by_cases ht : t'' = t'
      · rw [if_pos ht, ht, ← setTemp_erase h hport t']
        exact Function.update_self ..
      · rw [if_neg ht, ← setTemp_erase h hport t'']
        exact Function.update_of_ne ht ..
    refine ⟨⟨h.sound, ?_, ?_, ?_⟩, ?_, fun d hd => hd⟩
    · intro n hn
      obtain ⟨d, hd, hlt, hloc⟩ := h.held n hn
      refine ⟨d, hd, hlt, ?_⟩
      unfold World.setConf
      dsimp only
      by_cases hdc : d = c
      · rw [hdc] at hloc ⊢
        rw [Function.update_self]
        exact hloc
      · rw [Function.update_of_ne hdc]
        exact hloc
    · intro t'' d hd
      change d ∈ ((w.setTemp t ((w.temp t).erase c)).setTemp t'
        (c :: (w.setTemp t ((w.temp t).erase c)).temp t')).temp t'' at hd
      rw [hlist] at hd
      unfold World.setConf
      dsimp only
      by_cases hdc : d = c
      · rw [hdc] at hd ⊢
        rw [Function.update_self]
        refine ⟨htemporary, ?_, hf⟩
        by_contra ht
        rw [if_neg (Ne.symm ht), List.Nodup.mem_erase_iff (h.nodup t'')] at hd
        exact hd.1 rfl
      · rw [Function.update_of_ne hdc]
        refine h.temp t'' d ?_
        split at hd
        · exact List.mem_of_mem_erase ((List.mem_cons.mp hd).resolve_left hdc)
        · exact List.mem_of_mem_erase hd
    · intro t''
      change (((w.setTemp t ((w.temp t).erase c)).setTemp t'
        (c :: (w.setTemp t ((w.temp t).erase c)).temp t')).temp t'').Nodup
      rw [hlist]
      split
      · exact List.nodup_cons.mpr ⟨List.Nodup.not_mem_erase (h.nodup t''), (h.nodup t'').erase c⟩
      · exact (h.nodup t'').erase c
    · intro d hd hne
      change d ∈ ((w.setTemp t ((w.temp t).erase c)).setTemp t'
        (c :: (w.setTemp t ((w.temp t).erase c)).temp t')).temp t
      rw [hlist]
      have hmem := (List.Nodup.mem_erase_iff (h.nodup t)).mpr ⟨hne, hd⟩
      split
      · exact List.mem_cons_of_mem c hmem
      · exact hmem

theorem World.Inv.reorganise_foldl {t : Temp} {now : Int} {l : List Nat} (hl : l.Nodup) :
    ∀ {w : World}, w.Inv → (∀ c ∈ l, c ∈ w.temp t) →
      (l.foldl (World.reorganiseOne t now) w).Inv ∧
        ∀ d, w.InForce d → (l.foldl (World.reorganiseOne t now) w).InForce d := by
  induction l with
  | nil => exact fun h _ => ⟨h, fun d hd => hd⟩
  | cons c l ih =>
    intro w h hin
    obtain ⟨hout, hl⟩ := List.nodup_cons.mp hl
    obtain ⟨hinv, htemp, hforce⟩ := h.reorganiseOne (hin c List.mem_cons_self)
    rw [List.foldl_cons]
    obtain ⟨hinv', hforce'⟩ := ih hl hinv fun d hd =>
      htemp d (hin d (List.mem_cons_of_mem c hd)) fun hdc => hout (hdc ▸ hd)
    exact ⟨hinv', fun d hd => hforce' d (hforce d hd)⟩

-- ============================================================================
-- Adding
-- ============================================================================

theorem World.Inv.heldAt_eq_some (h : w.Inv) {host : Bytes} {mask : Netmask}
    (hmask : parseNetmask cfg.pton host = some mask) {c : Nat} :
    w.heldAt cfg host = some c ↔
      ∃ n ∈ w.dlineTree.entries, n.Holds (newPrefix mask.addr mask.bits) ∧ n.data = some c := by
  unfold World.heldAt
  rw [hmask, Option.bind_some]
  exact dataAt_eq_some h.sound

/-- `add_dline` of a new `ConfItem`, which may have been put on a list before. -/
theorem World.Inv.addDline (h : w.Inv) {v : World} (hs : v.addDline cfg w.nextConf = some w')
    (k : Conf) (hconfs : v.confs = Function.update w.confs w.nextConf k) (hnext : v.nextConf = w.nextConf + 1)
    (htree : v.dlineTree = w.dlineTree) (hnode : v.nextNode = w.nextNode)
    (htemp : ∀ t, v.temp t = if k.temporary = true ∧ k.port = t then w.nextConf :: w.temp t
      else w.temp t)
    {mask : Netmask} (hmask : parseNetmask cfg.pton k.host = some mask)
    (hfree : w.tempAt cfg k.host = false) :
    w'.Inv ∧ (∀ d, w.InForce d → w.heldAt cfg k.host ≠ some d → w'.InForce d) ∧
      (∀ n ∈ w'.dlineTree.entries, n ∈ w.dlineTree.entries ∨ n.data = some w.nextConf) ∧
      (w'.confs w.nextConf).temporary = k.temporary ∧
      ∀ d, d ≠ w.nextConf → w'.confs d = w.confs d := by
  have hself : v.confs w.nextConf = k := by
    rw [hconfs]
    exact Function.update_self ..
  obtain ⟨x, hx, hsound, e, hloc, hholds, hdata, hmem⟩ :=
    fill_slot h.sound (newPrefix_bitlen_le mask.addr mask.bits_le) w.nextConf
  unfold World.addDline at hs
  rw [hself, hmask] at hs
  dsimp only at hs
  rw [htree, hnode, hx, Option.map_some] at hs
  obtain rfl := Option.some.inj hs
  have hother : ∀ d, d ≠ w.nextConf →
      (v.setConf w.nextConf { k with pnode := some x.2 }).confs d = w.confs d := by
    intro d hd
    refine (Function.update_of_ne hd ..).trans ?_
    rw [hconfs]
    exact Function.update_of_ne hd ..
  have hnew : (v.setConf w.nextConf { k with pnode := some x.2 }).confs w.nextConf =
      { k with pnode := some x.2 } := Function.update_self ..
  -- the D-lines of other prefixes stay
  have hforce : ∀ d, w.InForce d → w.heldAt cfg k.host ≠ some d →
      ∃ n ∈ (x.1.setData x.2 fun _ => some w.nextConf).entries, n.data = some d := by
    rintro d ⟨n, hn, hd⟩ hne
    refine ⟨n, (hmem n).mpr (Or.inr ⟨hn, fun hp => hne ?_⟩), hd⟩
    exact (h.heldAt_eq_some hmask).mpr ⟨n, hn, hp, hd⟩
  refine ⟨⟨hsound, ?_, ?_, ?_⟩, hforce, ?_, ?_, hother⟩
  · intro n hn
    obtain rfl | ⟨hn, -⟩ := (hmem n).mp hn
    · refine ⟨w.nextConf, hdata, ?_, ?_⟩
      · change w.nextConf < v.nextConf
        omega
      · change ((v.setConf w.nextConf { k with pnode := some x.2 }).confs w.nextConf).pnode = _
        rw [hnew, hloc]
    · obtain ⟨d, hd, hlt, hpnode⟩ := h.held n hn
      refine ⟨d, hd, ?_, ?_⟩
      · change d < v.nextConf
        omega
      · change ((v.setConf w.nextConf { k with pnode := some x.2 }).confs d).pnode = _
        rw [hother d (Nat.ne_of_lt hlt)]
        exact hpnode
  · intro t d hd
    change d ∈ v.temp t at hd
    rw [htemp] at hd
    change ((v.setConf w.nextConf { k with pnode := some x.2 }).confs d).temporary = true ∧
      ((v.setConf w.nextConf { k with pnode := some x.2 }).confs d).port = t ∧ _
    have hold : d ∈ w.temp t →
        ((v.setConf w.nextConf { k with pnode := some x.2 }).confs d).temporary = true ∧
        ((v.setConf w.nextConf { k with pnode := some x.2 }).confs d).port = t ∧
        ∃ n ∈ (x.1.setData x.2 fun _ => some w.nextConf).entries, n.data = some d := by
      intro hd
      obtain ⟨htemporary, hport, hf⟩ := h.temp t d hd
      rw [hother d (Nat.ne_of_lt (h.lt_of_inForce hf))]
      refine ⟨htemporary, hport, hforce d hf fun hheld => ?_⟩
      unfold World.tempAt at hfree
      rw [hheld, Option.any_some, htemporary] at hfree
      cases hfree
    split at hd
    · rename_i hk
      obtain rfl | hd := List.mem_cons.mp hd
      · rw [hnew]
        exact ⟨hk.1, hk.2, e, (hmem e).mpr (Or.inl rfl), hdata⟩
      · exact hold hd
    · exact hold hd
  · intro t
    change (v.temp t).Nodup
    rw [htemp]
    split
    · refine List.nodup_cons.mpr ⟨fun hin => ?_, h.nodup t⟩
      exact Nat.lt_irrefl _ (h.lt_of_inForce (h.temp t _ hin).2.2)
    · exact h.nodup t
  · intro n hn
    obtain rfl | ⟨hn, -⟩ := (hmem n).mp hn
    · exact Or.inr hdata
    · exact Or.inl hn
  · change ((v.setConf w.nextConf { k with pnode := some x.2 }).confs w.nextConf).temporary = _
    rw [hnew]

/-- `set_dline`. -/
theorem World.Inv.setDline (h : w.Inv) {dlhost : Bytes} {time now : Int} {admin : Bool}
    {mask : Netmask} (hmask : parseNetmask cfg.pton dlhost = some mask)
    (hfree : w.tempAt cfg dlhost = false) (hs : w.setDline cfg dlhost time now admin = some w') :
    w'.Inv ∧ ∀ d, w.InForce d → w.heldAt cfg dlhost ≠ some d → w'.InForce d := by
  unfold World.setDline at hs
  dsimp only at hs
  by_cases htime : 0 < time
  · rw [if_pos htime] at hs
    unfold World.addTempDline at hs
    dsimp only at hs
    have hself : (w.makeConf dlhost admin (now + time)).confs w.nextConf =
        ⟨dlhost, false, admin, .min, now + time, none⟩ := Function.update_self ..
    rw [hself] at hs
    dsimp only at hs
    have hadd := h.addDline hs ⟨dlhost, true, admin, tempList (now + time) now, now + time, none⟩
      ?_ rfl rfl rfl ?_ hmask hfree
    · exact ⟨hadd.1, hadd.2.1⟩
    · unfold World.setConf World.setTemp World.makeConf World.setConf
      dsimp only
      rw [Function.update_self, Function.update_idem]
    · intro t
      unfold World.setConf World.setTemp
      dsimp only
      by_cases ht : tempList (now + time) now = t
      · rw [if_pos ⟨rfl, ht⟩, ← ht, Function.update_self]
        rfl
      · rw [if_neg fun hc => ht hc.2, Function.update_of_ne (Ne.symm ht)]
        rfl
  · rw [if_neg htime] at hs
    have hadd := h.addDline hs ⟨dlhost, false, admin, .min, 0, none⟩ rfl rfl rfl rfl
      (fun t => (if_neg fun hc => nomatch hc.1).symm) hmask hfree
    exact ⟨hadd.1, hadd.2.1⟩

/-- `mo_dline` and `mo_admindline`. -/
theorem World.Inv.dline (h : w.Inv) {isAdmin admin : Bool} {dlhost : Bytes} {time now : Int}
    (hguard : w.keeps cfg (.dline isAdmin dlhost time now admin) = true)
    (hs : w.dline cfg isAdmin dlhost time now admin = some w') :
    w'.Inv ∧ ∀ d, w.InForce d → w.heldAt cfg dlhost ≠ some d → w'.InForce d := by
  unfold World.dline at hs
  split at hs
  · obtain rfl := Option.some.inj hs
    exact ⟨h, fun d hd _ => hd⟩
  rename_i hvalid
  split at hs
  · obtain rfl := Option.some.inj hs
    exact ⟨h, fun d hd _ => hd⟩
  rename_i hplaced
  have hvalid : validDline cfg isAdmin dlhost = true := by simpa using hvalid
  have hplaced : w.alreadyPlacedDline cfg dlhost = true := by simpa using hplaced
  have hfree : w.tempAt cfg dlhost = false := by
    rw [World.keeps, hvalid, hplaced] at hguard
    simpa using hguard
  unfold validDline at hvalid
  rw [Option.any_eq_true] at hvalid
  obtain ⟨mask, hmask, -⟩ := hvalid
  exact h.setDline hmask hfree hs

-- ============================================================================
-- Reload
-- ============================================================================

/-- The walk of `remove_perm_dlines`; by induction over the nodes still to come. -/
theorem World.Inv.removePerm_foldlM {l : List (Node (Option Nat))} (hl : l.Nodup) :
    ∀ {w : World}, w.Inv → (∀ n ∈ l, n ∈ w.dlineTree.entries) →
      l.foldlM World.removePerm w = some w' →
      w'.Inv ∧ w'.confs = w.confs ∧ (∀ n ∈ w'.dlineTree.entries, n ∈ w.dlineTree.entries) ∧
        ∀ d, w.InForce d → (w.confs d).temporary = true → w'.InForce d := by
  induction l with
  | nil =>
    intro w h _ hs
    obtain rfl := Option.some.inj hs
    exact ⟨h, rfl, fun n hn => hn, fun d hd _ => hd⟩
  | cons n l ih =>
    intro w h hin hs
    obtain ⟨hout, hl⟩ := List.nodup_cons.mp hl
    rw [List.foldlM_cons] at hs
    obtain ⟨v, hv, hs⟩ := Option.bind_eq_some_iff.mp hs
    have hn := hin n List.mem_cons_self
    obtain ⟨c, hdata, -⟩ := h.held n hn
    unfold World.removePerm at hv
    rw [hdata, Option.bind_some] at hv
    split at hv
    · obtain rfl := Option.some.inj hv
      exact ih hl h (fun m hm => hin m (List.mem_cons_of_mem n hm)) hs
    · rename_i htemporary
      have htemporary := Bool.eq_false_iff.mpr htemporary
      rw [h.removeDline hn hdata] at hv
      obtain rfl := Option.some.inj hv
      have hmem := mem_remove h.sound hn
      obtain ⟨hinv, hforce⟩ := h.drop hn hdata { w with dlineTree := remove n.loc w.dlineTree } rfl
        rfl rfl rfl fun t => (h.erase_eq (Or.inl htemporary)).symm
      obtain ⟨hinv', hconfs, hsub, hforce'⟩ := ih hl hinv
        (fun m hm => (hmem m).mpr ⟨hin m (List.mem_cons_of_mem n hm), fun hmn => hout (hmn ▸ hm)⟩) hs
      refine ⟨hinv', hconfs, fun m hm => ((hmem m).mp (hsub m hm)).1, fun d hd ht => ?_⟩
      refine hforce' d (hforce d hd ?_) ht
      rintro rfl
      rw [htemporary] at ht
      cases ht

/-- Where no temporary D-line is new, no prefix has one that had none. -/
theorem World.Inv.tempAt_of_subset {v : World} (h : w.Inv) (hv : v.Inv) {host : Bytes}
    (hsub : ∀ n ∈ v.dlineTree.entries, ∀ d, n.data = some d → (v.confs d).temporary = true →
      n ∈ w.dlineTree.entries ∧ (w.confs d).temporary = true)
    (hfree : w.tempAt cfg host = false) : v.tempAt cfg host = false := by
  by_contra htemp
  have htemp : v.tempAt cfg host = true := by simpa using htemp
  unfold World.tempAt at htemp
  rw [Option.any_eq_true] at htemp
  obtain ⟨c, hheld, htemporary⟩ := htemp
  cases hmask : parseNetmask cfg.pton host with
  | none =>
    unfold World.heldAt at hheld
    rw [hmask] at hheld
    cases hheld
  | some mask =>
    obtain ⟨n, hn, hp, hdata⟩ := (hv.heldAt_eq_some hmask).mp hheld
    obtain ⟨hn', htemporary'⟩ := hsub n hn c hdata htemporary
    have hheld' := (h.heldAt_eq_some hmask).mpr ⟨n, hn', hp, hdata⟩
    unfold World.tempAt at hfree
    rw [hheld', Option.any_some, htemporary'] at hfree
    cases hfree

/-- The D-lines of `bandb_pending` one after the other. -/
theorem World.Inv.rows_foldlM {rows : List (Bytes × Bool)} :
    ∀ {w : World}, w.Inv → (∀ row ∈ rows, w.tempAt cfg row.1 = false) →
      rows.foldlM (World.addRow cfg) w = some w' →
      w'.Inv ∧ ∀ d, w.InForce d → (w.confs d).temporary = true → w'.InForce d := by
  induction rows with
  | nil =>
    intro w h _ hs
    obtain rfl := Option.some.inj hs
    exact ⟨h, fun d hd _ => hd⟩
  | cons row rows ih =>
    intro w h hfree hs
    rw [List.foldlM_cons] at hs
    obtain ⟨v, hv, hs⟩ := Option.bind_eq_some_iff.mp hs
    have hfree' := fun row' hrow => hfree row' (List.mem_cons_of_mem row hrow)
    unfold World.addRow at hv
    cases hmask : parseNetmask cfg.pton row.1 with
    | none =>
      rw [hmask] at hv
      obtain rfl := Option.some.inj hv
      exact ih h hfree' hs
    | some mask =>
      rw [hmask] at hv
      have hrow := hfree row List.mem_cons_self
      obtain ⟨hinv, hforce, hentries, hperm, hother⟩ := h.addDline hv
        ⟨row.1, false, row.2, .min, 0, none⟩ rfl rfl rfl rfl
        (fun t => (if_neg fun hc => nomatch hc.1).symm) hmask hrow
      have hrest : ∀ row' ∈ rows, v.tempAt cfg row'.1 = false := by
        intro row' hin
        refine h.tempAt_of_subset hinv (fun n hn d hd ht => ?_) (hfree' row' hin)
        have hne : d ≠ w.nextConf := by
          rintro rfl
          rw [hperm] at ht
          cases ht
        rw [hother d hne] at ht
        refine ⟨(hentries n hn).resolve_right fun hnew => hne ?_, ht⟩
        rw [hd] at hnew
        exact Option.some.inj hnew
      obtain ⟨hinv', hforce'⟩ := ih hinv hrest hs
      refine ⟨hinv', fun d hd ht => hforce' d (hforce d hd fun hheld => ?_) ?_⟩
      · unfold World.tempAt at hrow
        rw [hheld, Option.any_some, ht] at hrow
        cases hrow
      · rw [hother d (Nat.ne_of_lt (h.lt_of_inForce hd))]
        exact ht

/-- `bandb_handle_finish`. -/
theorem World.Inv.finish (h : w.Inv) {rows : List (Bytes × Bool)}
    (hguard : w.keeps cfg (.finish rows) = true) (hs : w.finish cfg rows = some w') :
    w'.Inv ∧ ∀ d, w.InForce d → ¬ (w.confs d).temporary = false → w'.InForce d := by
  unfold World.finish at hs
  obtain ⟨v, hv, hs⟩ := Option.bind_eq_some_iff.mp hs
  have hnodup : w.dlineTree.entries.Nodup := (List.Nodup.of_map _ h.sound.nodup).filter _
  obtain ⟨hinv, hconfs, hsub, hforce⟩ := World.Inv.removePerm_foldlM hnodup h (fun n hn => hn) hv
  have hfree : ∀ row ∈ rows, v.tempAt cfg row.1 = false := by
    intro row hrow
    refine h.tempAt_of_subset hinv (fun n hn d _ ht => ⟨hsub n hn, hconfs ▸ ht⟩) ?_
    rw [World.keeps] at hguard
    simpa using List.all_eq_true.mp hguard row hrow
  obtain ⟨hinv', hforce'⟩ := World.Inv.rows_foldlM hinv hfree hs
  refine ⟨hinv', fun d hd ht => ?_⟩
  have ht : (w.confs d).temporary = true := by simpa using ht
  exact hforce' d (hforce d hd ht) (by rw [hconfs]; exact ht)

-- ============================================================================
-- Whole runs
-- ============================================================================

/-- Every step under the guard keeps the invariant, and in force what it is not to
    remove. -/
theorem World.Inv.step (h : w.Inv) {op : Op} (hguard : w.keeps cfg op = true)
    (hs : w.step cfg op = some w') :
    w'.Inv ∧ ∀ c, w.InForce c → ¬ w.removes cfg c op → w'.InForce c := by
  cases op with
  | dline isAdmin dlhost time now admin => exact h.dline hguard hs
  | undline isAdmin host stale => exact h.undline hguard hs
  | expire t now => exact World.Inv.expire_foldlM (h.nodup t) h (fun c hc => hc) hs
  | reorganise t now =>
    obtain rfl := Option.some.inj hs
    obtain ⟨hinv, hforce⟩ := World.Inv.reorganise_foldl (h.nodup t) h fun c hc => hc
    exact ⟨hinv, fun c hc _ => hforce c hc⟩
  | finish rows => exact h.finish hguard hs
  | exempt host =>
    have hs : w.addEline cfg host = some w' := hs
    unfold World.addEline at hs
    split at hs
    · obtain rfl := Option.some.inj hs
      exact ⟨h, fun c hc _ => hc⟩
    · obtain ⟨x, -, rfl⟩ := Option.map_eq_some_iff.mp hs
      exact ⟨⟨h.sound, h.held, h.temp, h.nodup⟩, fun c hc _ => hc⟩

/-- In every run in which no D-line takes the slot of a temporary one, and `UNDLINE`
    reads the flag of a temporary one as it was, D-lines and the tree own each
    other, and what a step removes is what it is to remove. -/
theorem owned_of_keeps_run
    (h : Reach (World.step cfg) (fun w op => w.keeps cfg op = true) World.start w) :
    w.Owned ∧ ∀ op w', w.keeps cfg op = true → w.step cfg op = some w' →
      ∀ c, w.InForce c → ¬ w.removes cfg c op → w'.InForce c := by
  have hinv : w.Inv := h.invariant (P := World.Inv) World.inv_start
    fun _ _ _ hinv hguard hs => (hinv.step hguard hs).1
  exact ⟨hinv.owned, fun op w' hguard hs => (hinv.step hguard hs).2⟩

/-- What `rb_inet_pton_sock` makes of `10.0.0.1` and `10.0.0.2`. -/
def twoAddresses (text : Bytes) : Option IpAddr :=
  if text = [49, 48, 46, 48, 46, 48, 46, 49] then some ⟨false, fun i => (0x0a000001#32).getMsbD i⟩
  else if text = [49, 48, 46, 48, 46, 48, 46, 50] then
    some ⟨false, fun i => (0x0a000002#32).getMsbD i⟩
  else none

/-- A temporary D-line and a permanent one; the temporary one is removed, the other
    stays in force. -/
theorem owned_after_undline : ∃ w w' : World, w.Owned ∧
    w.step ⟨twoAddresses, true⟩ (.undline true [49, 48, 46, 48, 46, 48, 46, 49] true) = some w' ∧
    w'.InForce 1 := by
  have hreach : Reach (World.step ⟨twoAddresses, true⟩)
      (fun w op => w.keeps ⟨twoAddresses, true⟩ op = true) World.start
      ([Op.dline true [49, 48, 46, 48, 46, 48, 46, 49] 600 0 false,
        .dline true [49, 48, 46, 48, 46, 48, 46, 50] 0 0 false].foldl
        (Reach.perform (World.step ⟨twoAddresses, true⟩)) World.start) := by
    simp only [List.foldl_cons, List.foldl_nil]
    exact (Reach.init.performed (by decide)).performed (by decide)
  obtain ⟨howned, hforce⟩ := owned_of_keeps_run hreach
  generalize hw : List.foldl _ _ _ = w at howned hforce
  have hstep : (w.step ⟨twoAddresses, true⟩
      (.undline true [49, 48, 46, 48, 46, 48, 46, 49] true)).isSome = true := by
    rw [← hw]
    decide
  have hkeeps : w.keeps ⟨twoAddresses, true⟩
      (.undline true [49, 48, 46, 48, 46, 48, 46, 49] true) = true := by
    rw [← hw]
    decide
  have hin : (w.dlineTree.entries.any fun n => n.data == some 1) = true := by
    rw [← hw]
    decide
  have hundlined : w.undlined ⟨twoAddresses, true⟩ true [49, 48, 46, 48, 46, 48, 46, 49] = some 0 := by
    rw [← hw]
    decide
  obtain ⟨w', hw'⟩ := Option.isSome_iff_exists.mp hstep
  refine ⟨w, w', howned, hw', hforce _ w' hkeeps hw' 1 ?_ ?_⟩
  · obtain ⟨n, hn, hdata⟩ := List.any_eq_true.mp hin
    exact ⟨n, hn, eq_of_beq hdata⟩
  · intro hremoves
    have hone : some 0 = some 1 := hundlined.symm.trans hremoves
    cases hone

/-- A reload that brings a D-line for an address with a temporary one: the
    temporary one stays on its list but is not in the tree. -/
theorem not_owned_after_reload : ¬ ∀ (cfg : Config) (w : World),
    Reach (World.step cfg) anyStep World.start w →
      w.Owned ∧ ∀ op w', w.step cfg op = some w' → ∀ c, w.InForce c → ¬ w.removes cfg c op →
        w'.InForce c := by
  intro h
  have howned := (h ⟨twoAddresses, true⟩ _ (Reach.performed_all
    [.dline true [49, 48, 46, 48, 46, 48, 46, 49] 600 0 false,
      .finish [([49, 48, 46, 48, 46, 48, 46, 49], false)]] .init)).1
  generalize hw : List.foldl _ _ _ = w at howned
  have hlist : w.temp .min = [0] := by
    rw [← hw]
    decide
  have htree : (w.dlineTree.nodes.all fun n => n.data != some 0) = true := by
    rw [← hw]
    decide
  obtain ⟨n, hn, -, hdata⟩ := howned.temp .min 0 (by rw [hlist]; exact List.mem_singleton_self 0)
  have hne := List.all_eq_true.mp htree n hn
  rw [hdata] at hne
  cases hne

end Bluebox.Dline
