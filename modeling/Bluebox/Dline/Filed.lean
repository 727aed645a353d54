/-
  Bluebox.Dline.Filed

  What holds of `dline_tree` whatever happens: it is well formed, and every entry is a
  D-line that points back to its node.  A temporary D-line that has lost its slot may still
  point to a node, even to glue; its expiry then takes away what is there, and the rest
  stays as it was.
-/
import Bluebox.Dline.Owned

namespace Bluebox.Patricia

variable {β : Type} [Inhabited β] {maxbits : Nat}

/-- Glue stays, with nothing to clear. -/
theorem remove_glue {t : Tree β} (h : t.Wf maxbits) (hlocs : (t.nodes.map Node.loc).Nodup) {m : Node β}
    (hm : m ∈ t.nodes) (hk : m.key = none) : remove m.loc t = t := by
  induction t with
  | nil => cases hm
  | node n l r ihl ihr =>
    obtain ⟨hok, hl, hr⟩ := h
    rw [Tree.nodes, List.map_cons, List.map_append, List.nodup_cons, List.nodup_append] at hlocs
    obtain ⟨hn, hlocsl, hlocsr, hdisj⟩ := hlocs
    rw [List.mem_append, not_or] at hn
    -- a leaf with this address would be glue without children
    have hleaf : ∀ {s : Tree β}, s.Wf maxbits → (s.nodes.map Node.loc).Nodup → m ∈ s.nodes →
        ¬ s.isLeaf m.loc = true := by
      intro s hs hnodup hin hleaf
      obtain ⟨x, rfl, hx⟩ := Tree.eq_leaf_of_isLeaf hleaf
      obtain rfl := List.mem_singleton.mp hin
      exact absurd (hs.1.glue hk).2.1 (fun hnil => Bool.noConfusion hnil)
    have hout : ∀ {s : Tree β}, m.loc ∉ s.nodes.map Node.loc → ¬ s.isLeaf m.loc = true := by
      intro s hs hleaf
      obtain ⟨x, rfl, hx⟩ := Tree.eq_leaf_of_isLeaf hleaf
      exact hs (List.mem_singleton.mpr hx.symm)
    rw [remove]
    obtain rfl | hin | hin := Tree.mem_nodes.mp hm
    · obtain ⟨hdata, hlnil, hrnil⟩ := hok.glue hk
      rw [if_pos rfl, if_neg (Bool.eq_false_iff.mp hlnil), if_neg (Bool.eq_false_iff.mp hrnil), ← hk,
        ← hdata]
    · have hloc := List.mem_map_of_mem (f := Node.loc) hin
      have hr' : m.loc ∉ r.nodes.map Node.loc := fun hmem => hdisj _ hloc _ hmem rfl
      have hhead : ¬ n.loc = m.loc := fun heq => hn.1 (heq ▸ hloc)
      rw [if_neg hhead, if_neg (hleaf hl hlocsl hin), if_neg (hout hr'), ihl hl hlocsl hin,
        remove_of_not_mem hr']
    · have hloc := List.mem_map_of_mem (f := Node.loc) hin
      have hl' : m.loc ∉ l.nodes.map Node.loc := fun hmem => hdisj _ hmem _ hloc rfl
      have hhead : ¬ n.loc = m.loc := fun heq => hn.2 (heq ▸ hloc)
      rw [if_neg hhead, if_neg (hout hl'), if_neg (hleaf hr hlocsr hin), ihr hr hlocsr hin,
        remove_of_not_mem hl']

/-- A removal leaves the tree sound and adds no entry. -/
theorem Tree.Sound.remove_any {t : Tree β} {next : Nat} (h : t.Sound maxbits next) {m : Node β}
    (hm : m ∈ t.nodes) :
    (Patricia.remove m.loc t).Sound maxbits next ∧
      ∀ e ∈ (Patricia.remove m.loc t).entries, e ∈ t.entries := by
  cases hk : m.key with
  | none =>
    rw [remove_glue h.wf h.nodup hm hk]
    exact ⟨h, fun e he => he⟩
  | some p =>
    have hentry : m ∈ t.entries := Tree.mem_entries.mpr ⟨hm, by rw [hk]; rfl⟩
    obtain ⟨hsound, hperm, -⟩ := h.remove hentry
    exact ⟨hsound, fun e he => hperm.mem_iff.mpr (List.mem_cons_of_mem m he)⟩

end Bluebox.Patricia

namespace Bluebox.Dline

open Bluebox.Lib Bluebox.Patricia

variable {cfg : Config} {w w' : World}

/-- The tree is sound, and its entries are D-lines that point back. -/
structure World.Filed (w : World) : Prop where
  sound : w.dlineTree.Sound 128 w.nextNode
  held : ∀ n ∈ w.dlineTree.entries, ∃ c, n.data = some c ∧ c < w.nextConf ∧
    (w.confs c).pnode = some n.loc

theorem World.filed_start : World.start.Filed where
  sound := Tree.sound_nil
  held := fun _ hn => absurd hn List.not_mem_nil

/-- Two nodes never hold the same D-line. -/
theorem World.Filed.eq_of_data (h : w.Filed) {n m : Node (Option Nat)} (hn : n ∈ w.dlineTree.entries)
    (hm : m ∈ w.dlineTree.entries) (hdata : n.data = m.data) : n = m := by
  obtain ⟨c, hc, -, hloc⟩ := h.held n hn
  obtain ⟨d, hd, -, hloc'⟩ := h.held m hm
  rw [hc, hd] at hdata
  obtain rfl := Option.some.inj hdata
  exact h.sound.eq_of_loc (Tree.mem_entries.mp hn).1 (Tree.mem_entries.mp hm).1
    (Option.some.inj (hloc.symm.trans hloc'))

/-- Fewer entries, with the links of their D-lines as they were. -/
theorem World.Filed.mono (h : w.Filed) (hsound : w'.dlineTree.Sound 128 w'.nextNode)
    (hsub : ∀ n ∈ w'.dlineTree.entries, n ∈ w.dlineTree.entries) (hnext : w.nextConf ≤ w'.nextConf)
    (hpnode : ∀ c < w.nextConf, (w'.confs c).pnode = (w.confs c).pnode) : w'.Filed := by
  refine ⟨hsound, fun n hn => ?_⟩
  obtain ⟨c, hc, hlt, hloc⟩ := h.held n (hsub n hn)
  exact ⟨c, hc, Nat.lt_of_lt_of_le hlt hnext, (hpnode c hlt).trans hloc⟩

-- ============================================================================
-- Steps
-- ============================================================================

/-- `remove_dline`, also of a D-line that is not in force. -/
theorem World.Filed.removeDline (h : w.Filed) {c : Nat} (hs : w.removeDline c = some w') :
    w'.Filed ∧ w'.confs = w.confs ∧ w'.temp = w.temp := by
  unfold World.removeDline at hs
  obtain ⟨loc, -, hs⟩ := Option.bind_eq_some_iff.mp hs
  obtain ⟨m, hm, rfl⟩ := Option.map_eq_some_iff.mp hs
  unfold Tree.deref at hm
  have hloc := List.find?_some hm
  rw [beq_iff_eq] at hloc
  obtain ⟨hsound, hsub⟩ := h.sound.remove_any (List.mem_of_find?_eq_some hm)
  rw [hloc] at hsound hsub
  exact ⟨h.mono hsound hsub (Nat.le_refl _) fun _ _ => rfl, rfl, rfl⟩

theorem World.Filed.setTemp (h : w.Filed) (t : Temp) (l : List Nat) : (w.setTemp t l).Filed :=
  ⟨h.sound, h.held⟩

/-- `add_dline` of a new `ConfItem`. -/
theorem World.Filed.addDline (h : w.Filed) {v : World} (hs : v.addDline cfg w.nextConf = some w')
    (hother : ∀ d < w.nextConf, v.confs d = w.confs d) (hnext : v.nextConf = w.nextConf + 1)
    (htree : v.dlineTree = w.dlineTree) (hnode : v.nextNode = w.nextNode) : w'.Filed := by
  have hv : v.Filed := h.mono (by rw [htree, hnode]; exact h.sound) (by rw [htree]; exact fun n hn => hn)
    (by omega) fun d hd => by rw [hother d hd]
  unfold World.addDline at hs
  cases hmask : parseNetmask cfg.pton (v.confs w.nextConf).host with
  | none =>
    rw [hmask] at hs
    obtain rfl := Option.some.inj hs
    exact hv
  | some mask =>
    rw [hmask] at hs
    obtain ⟨x, hx, hsound, e, hloc, -, hdata, hmem⟩ :=
      fill_slot hv.sound (newPrefix_bitlen_le mask.addr mask.bits_le) w.nextConf
    obtain ⟨y, hy, rfl⟩ := Option.map_eq_some_iff.mp hs
    obtain rfl := Option.some.inj (hx.symm.trans hy)
    refine ⟨hsound, fun n hn => ?_⟩
    obtain rfl | ⟨hn, -⟩ := (hmem n).mp hn
    · refine ⟨w.nextConf, hdata, by show w.nextConf < v.nextConf; omega, ?_⟩
      unfold World.setConf
      dsimp only
      rw [Function.update_self, hloc]
    · rw [htree] at hn
      obtain ⟨d, hd, hlt, hpnode⟩ := h.held n hn
      refine ⟨d, hd, by show d < v.nextConf; omega, ?_⟩
      unfold World.setConf
      dsimp only
      rw [Function.update_of_ne (Nat.ne_of_lt hlt), hother d hlt]
      exact hpnode

/-- `make_conf`, which may be followed by a change of the new `ConfItem`. -/
theorem World.makeConf_other {d : Nat} (hd : d < w.nextConf) (host : Bytes) (locked : Bool) (hold : Int) :
    (w.makeConf host locked hold).confs d = w.confs d := by
  unfold World.makeConf World.setConf
  dsimp only
  rw [Function.update_of_ne (Nat.ne_of_lt hd)]

/-- `set_dline`. -/
theorem World.Filed.setDline (h : w.Filed) {dlhost : Bytes} {time now : Int} {admin : Bool}
    (hs : w.setDline cfg dlhost time now admin = some w') : w'.Filed := by
  unfold World.setDline at hs
  dsimp only at hs
  by_cases htime : 0 < time
  · rw [if_pos htime] at hs
    unfold World.addTempDline at hs
    dsimp only at hs
    refine h.addDline hs (fun d hd => ?_) rfl rfl rfl
    refine (Function.update_of_ne (Nat.ne_of_lt hd) _ _).trans ?_
    exact World.makeConf_other hd _ _ _
  · rw [if_neg htime] at hs
    exact h.addDline hs (fun d hd => World.makeConf_other hd _ _ _) rfl rfl rfl

/-- A loop whose steps keep the tree filed. -/
theorem World.Filed.foldlM {α : Type} {f : World → α → Option World}
    (hf : ∀ {w w' : World} {a : α}, w.Filed → f w a = some w' → w'.Filed) {l : List α} :
    ∀ {w : World}, w.Filed → l.foldlM f w = some w' → w'.Filed := by
  induction l with
  | nil =>
    intro w h hs
    obtain rfl := Option.some.inj hs
    exact h
  | cons a l ih =>
    intro w h hs
    rw [List.foldlM_cons] at hs
    obtain ⟨v, hv, hs⟩ := Option.bind_eq_some_iff.mp hs
    exact ih (hf h hv) hs

/-- One D-line of `expire_temp_kd`. -/
theorem World.Filed.expireOne (h : w.Filed) {t : Temp} {now : Int} {c : Nat}
    (hs : w.expireOne t now c = some w') : w'.Filed := by
  unfold World.expireOne at hs
  by_cases hhold : (w.confs c).hold ≤ now
  · rw [if_pos hhold] at hs
    dsimp only at hs
    obtain ⟨v, hv, rfl⟩ := Option.map_eq_some_iff.mp hs
    split at hv
    · obtain rfl := Option.some.inj hv
      exact h.setTemp _ _
    · exact (h.removeDline hv).1.setTemp _ _
  · rw [if_neg hhold] at hs
    obtain rfl := Option.some.inj hs
    exact h

/-- One D-line of `reorganise_temp_kd`. -/
theorem World.Filed.reorganiseOne (h : w.Filed) (t : Temp) (now : Int) (c : Nat) :
    (w.reorganiseOne t now c).Filed := by
  unfold World.reorganiseOne
  split
  · exact h
  · refine h.mono h.sound (fun n hn => hn) (Nat.le_refl _) fun d _ => ?_
    unfold World.setConf World.setTemp
    dsimp only
    by_cases hd : d = c
    · rw [hd, Function.update_self]
    · rw [Function.update_of_ne hd]

theorem World.Filed.reorganise (h : w.Filed) (t : Temp) (now : Int) (l : List Nat) :
    (l.foldl (World.reorganiseOne t now) w).Filed := by
  induction l generalizing w with
  | nil => exact h
  | cons c l ih => exact ih (h.reorganiseOne t now c)

/-- One node of `remove_perm_dlines`. -/
theorem World.Filed.removePerm (h : w.Filed) {n : Node (Option Nat)} (hs : w.removePerm n = some w') :
    w'.Filed := by
  unfold World.removePerm at hs
  obtain ⟨c, -, hs⟩ := Option.bind_eq_some_iff.mp hs
  split at hs
  · obtain rfl := Option.some.inj hs
    exact h
  · exact (h.removeDline hs).1

/-- One D-line of `bandb_pending`. -/
theorem World.Filed.addRow (h : w.Filed) {row : Bytes × Bool} (hs : w.addRow cfg row = some w') :
    w'.Filed := by
  unfold World.addRow at hs
  split at hs
  · obtain rfl := Option.some.inj hs
    exact h
  · exact h.addDline hs (fun d hd => World.makeConf_other hd _ _ _) rfl rfl rfl

/-- Every step keeps the tree filed. -/
theorem World.Filed.step (h : w.Filed) {op : Op} (hs : w.step cfg op = some w') : w'.Filed := by
  cases op with
  | dline isAdmin dlhost time now admin =>
    unfold World.step World.dline at hs
    dsimp only at hs
    split at hs
    · obtain rfl := Option.some.inj hs
      exact h
    split at hs
    · obtain rfl := Option.some.inj hs
      exact h
    exact h.setDline hs
  | undline isAdmin host stale =>
    unfold World.step World.undline at hs
    dsimp only at hs
    split at hs
    · obtain rfl := Option.some.inj hs
      exact h
    · obtain ⟨v, hv, rfl⟩ := Option.map_eq_some_iff.mp hs
      have hfiled := (h.removeDline hv).1
      split
      · exact hfiled.setTemp _ _
      · exact hfiled
  | expire t now => exact World.Filed.foldlM (fun h hs => h.expireOne hs) h hs
  | reorganise t now =>
    obtain rfl := Option.some.inj hs
    exact h.reorganise t now _
  | finish rows =>
    unfold World.step World.finish at hs
    obtain ⟨v, hv, hs⟩ := Option.bind_eq_some_iff.mp hs
    have hfiled := World.Filed.foldlM (fun h hs => h.removePerm hs) h hv
    exact World.Filed.foldlM (fun h hs => h.addRow hs) hfiled hs
  | exempt host =>
    unfold World.step World.addEline at hs
    dsimp only at hs
    split at hs
    · obtain rfl := Option.some.inj hs
      exact h
    · obtain ⟨x, -, rfl⟩ := Option.map_eq_some_iff.mp hs
      exact ⟨h.sound, h.held⟩

/-- Every reachable tree is filed. -/
theorem filed_of_reach (h : Reach (World.step cfg) anyStep World.start w) : w.Filed :=
  h.invariant World.filed_start fun _ _ _ hfiled _ hs => hfiled.step hs

end Bluebox.Dline
