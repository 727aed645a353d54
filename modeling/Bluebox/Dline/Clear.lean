/-
  Bluebox.Dline.Clear

  `remove_perm_dlines` of `reject.c` as the walk that it is: the node of a permanent D-line
  is given back to `rb_patricia_remove` in the middle of the walk, and then
  `RB_PATRICIA_WALK_END` asks the same node for its children.

  A node with two children stays, as glue.  Any other is released, and then its links are
  not there.  So the walk gets through if and only if the node of every permanent D-line has
  two children, which is to say that both halves of its block have further D-lines.
-/
import Bluebox.Dline.Report

namespace Bluebox.Dline

open Bluebox.Lib Bluebox.Patricia

-- ============================================================================
-- The walk
-- ============================================================================

/-- The statements for a node in the walk of `remove_perm_dlines`. -/
def World.clearBody (w : World) (loc : Nat) : Option (World × Bool) :=
  (w.dlineTree.deref loc).bind fun n =>
    if n.key.isNone then some (w, false)
    else n.data.bind fun c =>
      if (w.confs c).temporary then some (w, false)
      else (w.removeDline c).map fun w => (w, false)

/-- `remove_perm_dlines`, with the links as they are when the walk asks for them. -/
def World.clearPermDlines (w : World) : Outcome World :=
  walk World.clearBody (fun w loc => w.dlineTree.links loc) (w.dlineTree.nodes.length + 1) w
    w.dlineTree.headLoc []

/-- The walk ends, without asking a released node for its children, and the temporary
    D-lines are left. -/
def World.Clears (w : World) : Prop :=
  ∃ w', w.clearPermDlines = .done w' ∧
    ∀ n, n ∈ w'.dlineTree.entries ↔ n ∈ w.dlineTree.entries ∧ w.ofKind true n = true

/-- In both halves of the block of every permanent D-line there are others. -/
def World.Halved (w : World) : Prop :=
  ∀ p ∈ w.dlineTree.entries, w.ofKind false p = true → ∀ right,
    ∃ q ∈ w.dlineTree.entries, q.InHalf right p

instance World.decidableHalved (w : World) : Decidable w.Halved :=
  inferInstanceAs (Decidable (∀ p ∈ w.dlineTree.entries, w.ofKind false p = true → ∀ right : Bool,
    ∃ q ∈ w.dlineTree.entries, q.InHalf right p))

-- ============================================================================
-- One node
-- ============================================================================

variable {w v v' : World}

/-- What holds in the walk as long as it has not lost a node. -/
structure World.Clearing (w v : World) : Prop where
  sound : v.dlineTree.Sound 128 w.nextNode
  confs : v.confs = w.confs
  links : ∀ loc, v.dlineTree.links loc = w.dlineTree.links loc
  sub : ∀ n ∈ v.dlineTree.entries, n ∈ w.dlineTree.entries

theorem World.Filed.clearing (h : w.Filed) : w.Clearing w :=
  ⟨h.sound, rfl, fun _ => rfl, fun _ hn => hn⟩

/-- `remove_dline` of an entry. -/
theorem World.Clearing.removeDline (h : w.Filed) (hv : w.Clearing v) {n : Node (Option Nat)}
    (hn : n ∈ v.dlineTree.entries) {c : Nat} (hc : n.data = some c) :
    v.removeDline c = some { v with dlineTree := remove n.loc v.dlineTree } := by
  obtain ⟨d, hd, -, hloc⟩ := h.held n (hv.sub n hn)
  rw [hc] at hd
  obtain rfl := Option.some.inj hd
  unfold World.removeDline
  rw [hv.confs, hloc, Option.bind_some, hv.sound.deref (Tree.mem_entries.mp hn).1]
  rfl

/-- The D-lines after the statements for an entry. -/
def World.clearOne (w v : World) (n : Node (Option Nat)) : World :=
  if w.ofKind false n then { v with dlineTree := remove n.loc v.dlineTree } else v

/-- The statements for an entry. -/
theorem World.Clearing.clearBody_entry (h : w.Filed) (hv : w.Clearing v) {n : Node (Option Nat)}
    (hn : n ∈ v.dlineTree.entries) : v.clearBody n.loc = some (w.clearOne v n, false) := by
  obtain ⟨hmem, hkey⟩ := Tree.mem_entries.mp hn
  obtain ⟨c, hc, -, -⟩ := h.held n (hv.sub n hn)
  obtain ⟨k, hk⟩ := Option.isSome_iff_exists.mp hkey
  have hconf : (v.confs c).temporary = (w.confs c).temporary := by rw [hv.confs]
  unfold World.clearBody World.clearOne World.ofKind
  rw [hv.sound.deref hmem, Option.bind_some, hk, if_neg (by exact Bool.false_ne_true), hc, Option.bind_some,
    Option.any_some, hconf]
  cases htemporary : (w.confs c).temporary with
  | true => rfl
  | false =>
    rw [if_neg Bool.false_ne_true, hv.removeDline h hn hc]
    rfl

theorem World.Clearing.removePerm_entry (h : w.Filed) (hv : w.Clearing v) {n : Node (Option Nat)}
    (hn : n ∈ v.dlineTree.entries) : v.removePerm n = some (w.clearOne v n) := by
  obtain ⟨c, hc, -, -⟩ := h.held n (hv.sub n hn)
  have hconf : (v.confs c).temporary = (w.confs c).temporary := by rw [hv.confs]
  unfold World.removePerm World.clearOne World.ofKind
  rw [hc, Option.bind_some, Option.any_some, hconf]
  cases htemporary : (w.confs c).temporary with
  | true => rfl
  | false =>
    rw [if_neg Bool.false_ne_true, hv.removeDline h hn hc]
    rfl

/-- A node with two children is left in place. -/
theorem World.Clearing.drop (hv : w.Clearing v) {n : Node (Option Nat)}
    (hn : n ∈ v.dlineTree.entries) {a b : Nat} (hlinks : v.dlineTree.links n.loc = some (some a, some b)) :
    w.Clearing { v with dlineTree := remove n.loc v.dlineTree } where
  sound := (hv.sound.remove hn).1
  confs := hv.confs
  links := fun loc => ((Tree.links_remove hv.sound.nodup hlinks).2 loc).trans (hv.links loc)
  sub := fun m hm => hv.sub m ((mem_remove hv.sound hn m).mp hm).1

/-- After the statements the walk has either lost the node or is as it was. -/
theorem World.Clearing.step (h : w.Filed) (hv : w.Clearing v) {loc : Nat} {brk : Bool}
    (hs : v.clearBody loc = some (v', brk)) :
    brk = false ∧ ((v'.dlineTree.links loc).isSome = true → w.Clearing v') := by
  obtain ⟨n, hderef, hrest⟩ := Option.bind_eq_some_iff.mp hs
  have hmem := List.mem_of_find?_eq_some hderef
  have hloc := List.find?_some hderef
  rw [beq_iff_eq] at hloc
  cases hk : n.key with
  | none =>
    rw [hk, if_pos (by rfl)] at hrest
    obtain ⟨rfl, rfl⟩ := Prod.mk.inj (Option.some.inj hrest)
    exact ⟨rfl, fun _ => hv⟩
  | some k =>
    have hn : n ∈ v.dlineTree.entries := Tree.mem_entries.mpr ⟨hmem, by rw [hk]; rfl⟩
    rw [← hloc, hv.clearBody_entry h hn] at hs
    obtain ⟨rfl, rfl⟩ := Prod.mk.inj (Option.some.inj hs)
    refine ⟨rfl, fun hlinks => ?_⟩
    unfold World.clearOne at hlinks ⊢
    rw [← hloc] at hlinks
    by_cases hkind : w.ofKind false n = true
    · rw [if_pos hkind] at hlinks ⊢
      obtain ⟨⟨a, b⟩, hab⟩ := Option.isSome_iff_exists.mp
        (Tree.links_isSome.mpr (List.mem_map_of_mem (f := Node.loc) hmem))
      have hkept : ¬ (a = none ∨ b = none) := fun hmissing =>
        Bool.false_ne_true (by rw [← hlinks, Tree.links_released hv.sound.nodup hab hmissing]; rfl)
      rw [not_or] at hkept
      obtain ⟨a, rfl⟩ := Option.ne_none_iff_exists'.mp hkept.1
      obtain ⟨b, rfl⟩ := Option.ne_none_iff_exists'.mp hkept.2
      exact hv.drop hn hab
    · rw [if_neg hkind]
      exact hv

/-- The entries with one of them gone, if it is a permanent D-line. -/
theorem World.Clearing.mem_clearOne (hv : w.Clearing v) {n m : Node (Option Nat)}
    (hn : n ∈ v.dlineTree.entries) :
    m ∈ (w.clearOne v n).dlineTree.entries ↔
      m ∈ v.dlineTree.entries ∧ ¬ (m = n ∧ w.ofKind false n = true) := by
  unfold World.clearOne
  by_cases hkind : w.ofKind false n = true
  · rw [if_pos hkind]
    refine (mem_remove hv.sound hn m).trans ?_
    rw [and_iff_left hkind]
  · rw [if_neg hkind]
    exact ⟨fun hm => ⟨hm, fun hboth => hkind hboth.2⟩, fun hm => hm.1⟩

/-- Glue is passed by. -/
theorem World.Clearing.clearBody_glue (h : w.Filed) (hv : w.Clearing v) {n : Node (Option Nat)}
    (hn : n ∈ w.dlineTree.nodes) (hk : n.key = none) : v.clearBody n.loc = some (v, false) := by
  have hloc : n.loc ∈ v.dlineTree.nodes.map Node.loc := by
    rw [← Tree.links_isSome, hv.links]
    exact Tree.links_isSome.mpr (List.mem_map_of_mem hn)
  obtain ⟨m, hm, hmn⟩ := List.mem_map.mp hloc
  have hglue : m.key = none := by
    by_contra hkey
    have hentry : m ∈ v.dlineTree.entries :=
      Tree.mem_entries.mpr ⟨hm, Option.isSome_iff_ne_none.mpr hkey⟩
    have heq := h.sound.eq_of_loc (Tree.mem_entries.mp (hv.sub m hentry)).1 hn hmn
    rw [heq] at hkey
    exact hkey hk
  unfold World.clearBody
  rw [← hmn, hv.sound.deref hm, Option.bind_some, hglue]
  rfl

-- ============================================================================
-- The recursion
-- ============================================================================

/-- The head of a part of the tree: its links are lost if it is a permanent D-line without two
    children, and otherwise the walk goes on. -/
theorem World.Filed.clear_head (h : w.Filed) {n : Node (Option Nat)} {l r : Patricia.Tree (Option Nat)}
    (hat : w.dlineTree.links n.loc = some (l.headLoc, r.headLoc)) (hn : n ∈ w.dlineTree.nodes)
    (hv : w.Clearing v) (hthere : n.key.isSome = true → n ∈ v.dlineTree.entries) :
    ∃ v₁, v.clearBody n.loc = some (v₁, false) ∧
      ([n].filter fun n => n.key.isSome).foldlM World.removePerm v = some v₁ ∧
      (∀ m, m ∈ v₁.dlineTree.entries ↔
        m ∈ v.dlineTree.entries ∧ ¬ (m = n ∧ n.key.isSome = true ∧ w.ofKind false n = true)) ∧
      ((n.key.isSome = true → w.ofKind false n = true → l.isNil = false ∧ r.isNil = false) →
        w.Clearing v₁) ∧
      (¬ (n.key.isSome = true → w.ofKind false n = true → l.isNil = false ∧ r.isNil = false) →
        v₁.dlineTree.links n.loc = none) := by
  cases hk : n.key with
  | none =>
    refine ⟨v, hv.clearBody_glue h hn hk, ?_, fun m => ?_, ?_⟩
    · rw [List.filter_cons_of_neg (by rw [hk]; exact Bool.false_ne_true)]
      rfl
    · exact ⟨fun hm => ⟨hm, fun hboth => Bool.false_ne_true hboth.2.1⟩, fun hm => hm.1⟩
    · exact ⟨fun _ => hv, fun hnot => absurd (fun hsome => absurd hsome Bool.false_ne_true) hnot⟩
  | some k =>
    have hentry := hthere (by rw [hk]; rfl)
    refine ⟨w.clearOne v n, hv.clearBody_entry h hentry, ?_, fun m => ?_, ?_⟩
    · rw [List.filter_cons_of_pos (by rw [hk]; rfl), List.filter_nil, List.foldlM_cons,
        hv.removePerm_entry h hentry]
      rfl
    · rw [hv.mem_clearOne hentry]
      exact and_congr_right fun _ => not_congr (and_congr_right fun _ => (and_iff_right rfl).symm)
    · have hlinks : v.dlineTree.links n.loc = some (l.headLoc, r.headLoc) := (hv.links n.loc).trans hat
      have hiff : ∀ t : Patricia.Tree (Option Nat), t.isNil = false ↔ ∃ a, t.headLoc = some a := fun t => by
        rw [← Option.ne_none_iff_exists', Ne, Tree.headLoc_eq_none, Bool.not_eq_true]
      unfold World.clearOne
      by_cases hkind : w.ofKind false n = true
      · rw [if_pos hkind]
        refine ⟨fun hok => ?_, fun hnot => ?_⟩
        · obtain ⟨hl, hr⟩ := hok rfl hkind
          obtain ⟨a, ha⟩ := (hiff l).mp hl
          obtain ⟨b, hb⟩ := (hiff r).mp hr
          rw [ha, hb] at hlinks
          exact hv.drop hentry hlinks
        · refine Tree.links_released hv.sound.nodup hlinks ?_
          by_contra hboth
          rw [not_or] at hboth
          exact hnot fun _ _ => ⟨(hiff l).mpr (Option.ne_none_iff_exists'.mp hboth.1),
            (hiff r).mpr (Option.ne_none_iff_exists'.mp hboth.2)⟩
      · rw [if_neg hkind]
        exact ⟨fun _ => hv, fun hnot => absurd (fun _ hk => absurd hk hkind) hnot⟩

/-- The recursion over a part of the tree that it has not come to yet: it gets through if the
    nodes of the permanent D-lines there have two children, and clears that part. -/
theorem World.Filed.visit_clear (h : w.Filed) {t : Patricia.Tree (Option Nat)}
    (hlinked : Patricia.Linked (fun loc => w.dlineTree.links loc) t) (hlocs : (t.nodes.map Node.loc).Nodup)
    (ht : ∀ n ∈ t.nodes, n ∈ w.dlineTree.nodes) :
    ∀ {v : World}, w.Clearing v → (∀ n ∈ t.entries, n ∈ v.dlineTree.entries) →
      (t.TwoChildren (w.ofKind false) → ∃ v',
        visit World.clearBody (fun w loc => w.dlineTree.links loc) t v = some v' ∧ w.Clearing v' ∧
          t.entries.foldlM World.removePerm v = some v' ∧
          ∀ m, m ∈ v'.dlineTree.entries ↔
            m ∈ v.dlineTree.entries ∧ ¬ (m ∈ t.entries ∧ w.ofKind false m = true)) ∧
      (¬ t.TwoChildren (w.ofKind false) →
        visit World.clearBody (fun w loc => w.dlineTree.links loc) t v = none) := by
  induction t with
  | nil =>
    intro v hv _
    exact ⟨fun _ => ⟨v, rfl, hv, rfl, fun m => ⟨fun hm => ⟨hm, fun hin => absurd hin.1 List.not_mem_nil⟩,
      fun hm => hm.1⟩⟩, fun hnot => absurd trivial hnot⟩
  | node n l r ihl ihr =>
    intro v hv hthere
    obtain ⟨hat, hll, hlr⟩ := hlinked
    obtain ⟨hnl, hnr, hl, hr, hdisj⟩ := Tree.nodup_node hlocs
    have hn := ht n (Tree.mem_nodes.mpr (Or.inl rfl))
    have htl : ∀ m ∈ l.nodes, m ∈ w.dlineTree.nodes := fun m hm =>
      ht m (Tree.mem_nodes.mpr (Or.inr (Or.inl hm)))
    have htr : ∀ m ∈ r.nodes, m ∈ w.dlineTree.nodes := fun m hm =>
      ht m (Tree.mem_nodes.mpr (Or.inr (Or.inr hm)))
    obtain ⟨v₁, hbody, hfold₁, hmem₁, hhead⟩ := h.clear_head hat hn hv fun hkey =>
      hthere n (Tree.mem_entries.mpr ⟨Tree.mem_nodes.mpr (Or.inl rfl), hkey⟩)
    have hne : ∀ {m}, m ∈ l.nodes ∨ m ∈ r.nodes → m ≠ n := by
      rintro m (hm | hm) rfl
      · exact hnl (List.mem_map_of_mem hm)
      · exact hnr (List.mem_map_of_mem hm)
    -- what is below the head is still there after it
    have hstill : ∀ {m}, m ∈ l.entries ∨ m ∈ r.entries → m ∈ v₁.dlineTree.entries := by
      intro m hm
      have hnode : m ∈ l.nodes ∨ m ∈ r.nodes :=
        hm.imp (fun hm => (Tree.mem_entries.mp hm).1) fun hm => (Tree.mem_entries.mp hm).1
      have hkey : m.key.isSome = true :=
        hm.elim (fun hm => (Tree.mem_entries.mp hm).2) fun hm => (Tree.mem_entries.mp hm).2
      refine (hmem₁ m).mpr ⟨hthere m ?_, fun hboth => hne hnode hboth.1⟩
      exact Tree.mem_entries.mpr ⟨Tree.mem_nodes.mpr (Or.inr hnode), hkey⟩
    rw [visit, hbody, Tree.TwoChildren]
    dsimp only
    by_cases hok : n.key.isSome = true → w.ofKind false n = true → l.isNil = false ∧ r.isNil = false
    · have hv₁ := hhead.1 hok
      obtain ⟨hgo, hstop⟩ := ihl hll hl htl hv₁ fun m hm => hstill (Or.inl hm)
      rw [(hv₁.links n.loc).trans hat]
      dsimp only
      by_cases hleft : l.TwoChildren (w.ofKind false)
      · obtain ⟨v₂, hvisit₂, hv₂, hfold₂, hmem₂⟩ := hgo hleft
        rw [hvisit₂, Option.bind_some]
        have hstill₂ : ∀ m ∈ r.entries, m ∈ v₂.dlineTree.entries := by
          intro m hm
          refine (hmem₂ m).mpr ⟨hstill (Or.inr hm), fun hboth => ?_⟩
          exact hdisj m.loc (List.mem_map_of_mem (Tree.mem_entries.mp hboth.1).1)
            (List.mem_map_of_mem (Tree.mem_entries.mp hm).1)
        obtain ⟨hgo', hstop'⟩ := ihr hlr hr htr hv₂ hstill₂
        refine ⟨fun hall => ?_, fun hnot => hstop' fun hright => hnot ⟨hok, hleft, hright⟩⟩
        obtain ⟨v₃, hvisit₃, hv₃, hfold₃, hmem₃⟩ := hgo' hall.2.2
        refine ⟨v₃, hvisit₃, hv₃, ?_, fun m => ?_⟩
        · rw [Tree.entries_node, List.foldlM_append, hfold₁, Option.bind_eq_bind, Option.bind_some,
            List.foldlM_append, hfold₂, Option.bind_eq_bind, Option.bind_some, hfold₃]
        rw [hmem₃, hmem₂, hmem₁, Tree.mem_entries_node, and_assoc, and_assoc, ← not_or, ← not_or,
          or_and_right, or_and_right, and_assoc]
        exact and_congr_right fun _ => not_congr
          (or_congr_left (and_congr_right fun heq => by rw [heq]))
      · rw [hstop hleft]
        exact ⟨fun hall => absurd hall.2.1 hleft, fun _ => rfl⟩
    · rw [hhead.2 hok]
      exact ⟨fun hall => absurd hall.1 hok, fun _ => rfl⟩

/-- The whole walk: it gets through if the nodes of the permanent D-lines have two children,
    and then it is the loop over the entries as they were before. -/
theorem World.Filed.clearPermDlines_spec (h : w.Filed) :
    (w.dlineTree.TwoChildren (w.ofKind false) → ∃ w', w.clearPermDlines = .done w' ∧
      w.removePermDlines = some w' ∧
      ∀ n, n ∈ w'.dlineTree.entries ↔ n ∈ w.dlineTree.entries ∧ w.ofKind true n = true) ∧
      (¬ w.dlineTree.TwoChildren (w.ofKind false) → w.clearPermDlines = .fault) := by
  have hsteady : Steady World.clearBody (fun w loc => w.dlineTree.links loc)
      (fun loc => w.dlineTree.links loc) fun v => w.Clearing v :=
    ⟨fun hv => hv.links _, fun hv hs => absurd (hv.step h hs).1.symm Bool.false_ne_true,
      fun hv hs hlinks => (hv.step h hs).2 hlinks⟩
  have hlinked := Tree.linked h.sound.nodup
  obtain ⟨hgo, hstop⟩ := h.visit_clear hlinked h.sound.nodup (fun n hn => hn) h.clearing fun n hn => hn
  unfold World.clearPermDlines
  rw [walk_tree hsteady hlinked h.clearing]
  refine ⟨fun hall => ?_, fun hnot => by rw [hstop hnot]⟩
  obtain ⟨w', hvisit, -, hfold, hmem⟩ := hgo hall
  rw [hvisit]
  refine ⟨w', rfl, hfold, fun n => (hmem n).trans (and_congr_right fun hn => ?_)⟩
  have hkind : w.ofKind true n = !w.ofKind false n := h.ofKind_not hn false
  rw [hkind, and_iff_right hn, Bool.not_eq_true', Bool.not_eq_true]

/-- Whether the permanent D-lines are cleared. -/
theorem World.Filed.clears_iff_twoChildren (h : w.Filed) :
    w.Clears ↔ w.dlineTree.TwoChildren (w.ofKind false) := by
  obtain ⟨hgo, hstop⟩ := h.clearPermDlines_spec
  refine ⟨fun hclears => ?_, fun hall => ?_⟩
  · by_contra hnot
    obtain ⟨w', hdone, -⟩ := hclears
    rw [hstop hnot] at hdone
    cases hdone
  · obtain ⟨w', hdone, -, hmem⟩ := hgo hall
    exact ⟨w', hdone, hmem⟩

/-- `remove_perm_dlines` ends with the temporary D-lines, and without asking a released node
    for its children, if and only if both halves of the block of every permanent D-line have
    further D-lines. -/
theorem clears_iff_halved (w : World) (h : w.Filed) : w.Clears ↔ w.Halved :=
  h.clears_iff_twoChildren.trans (h.sound.wf.twoChildren_iff _)

/-- `10.0.0.1/30` for good, with `10.0.0.1` and `10.0.0.2` for a time in its halves: it is
    cleared. -/
theorem clears_halved_three : ∃ w : World,
    w.InForce 2 ∧ (w.confs 2).temporary = false ∧ w.Clears := by
  have hfiled := @filed_of_reach ⟨twoAddresses, true⟩ _ (Reach.performed_all
    [Op.dline true [49, 48, 46, 48, 46, 48, 46, 49] 600 0 false,
      .dline true [49, 48, 46, 48, 46, 48, 46, 50] 600 0 false,
      .dline true [49, 48, 46, 48, 46, 48, 46, 49, 47, 51, 48] 0 0 false] Reach.init)
  generalize hw : List.foldl _ _ _ = w at hfiled
  have hforce : (w.dlineTree.entries.any fun n => n.data == some 2) = true := by
    rw [← hw]
    decide
  have hperm : (w.confs 2).temporary = false := by
    rw [← hw]
    decide
  have hhalved : w.Halved := by
    rw [← hw]
    decide
  obtain ⟨n, hn, hdata⟩ := List.any_eq_true.mp hforce
  exact ⟨w, ⟨n, hn, eq_of_beq hdata⟩, hperm, (clears_iff_halved w hfiled).mpr hhalved⟩

/-- One permanent D-line: its node is released, and then asked for its children. -/
theorem not_clears : ¬ ∀ (cfg : Config) (w : World),
    Reach (World.step cfg) anyStep World.start w → w.Clears := by
  intro h
  obtain ⟨w', hdone, -⟩ := h ⟨twoAddresses, true⟩ _ (Reach.performed_all
    [Op.dline true [49, 48, 46, 48, 46, 48, 46, 49] 0 0 false] Reach.init)
  generalize hw : List.foldl _ _ _ = w at hdone
  have hfault : w.clearPermDlines.isDone = false := by
    rw [← hw]
    decide
  rw [hdone] at hfault
  cases hfault

end Bluebox.Dline
