/-
  Bluebox.Dline.Report

  `report_dlines` and `report_tdlines` of `reject.c`: each walks `dline_tree` and leaves a
  D-line of the other kind by `RB_PATRICIA_WALK_BREAK`.

  The break does not only leave the entry, it leaves everything below it.  So a D-line is
  missing from its report if and only if its block lies inside one of the other kind.
-/
import Bluebox.Dline.Filed
import Bluebox.Patricia.Nested
import Bluebox.Patricia.Walk

namespace Bluebox.Dline

open Bluebox.Lib Bluebox.Patricia

-- ============================================================================
-- The reports
-- ============================================================================

/-- A line of `RPL_STATSDLINE`: the letter, and the D-line it shows. -/
structure StatsLine where
  letter : UInt8
  conf : Nat
deriving DecidableEq, Repr

/-- The statements for a node in the walk of a report. -/
def World.reportBody (w : World) (temporary : Bool) (letter : UInt8) (lines : List StatsLine) (loc : Nat) :
    Option (List StatsLine × Bool) :=
  (w.dlineTree.deref loc).bind fun n =>
    if n.key.isNone then some (lines, false)
    else n.data.map fun c =>
      if (w.confs c).temporary = !temporary then (lines, true)
      else (lines ++ [⟨letter, c⟩], false)

/-- The walk of a report. -/
def World.report (w : World) (temporary : Bool) (letter : UInt8) : Outcome (List StatsLine) :=
  walk (w.reportBody temporary letter) (fun _ loc => w.dlineTree.links loc) (w.dlineTree.nodes.length + 1)
    [] w.dlineTree.headLoc []

/-- `report_dlines`. -/
def World.reportDlines (w : World) : Outcome (List StatsLine) := w.report false 68

/-- `report_tdlines`. -/
def World.reportTdlines (w : World) : Outcome (List StatsLine) := w.report true 100

-- ============================================================================
-- What is reported
-- ============================================================================

/-- The entry is a D-line of this kind. -/
def World.ofKind (w : World) (temporary : Bool) (n : Node (Option Nat)) : Bool :=
  n.data.any fun c => (w.confs c).temporary == temporary

/-- The report ends and has every D-line of the kind once, and no other. -/
def World.Complete (w : World) (temporary : Bool) (letter : UInt8) (report : Outcome (List StatsLine)) : Prop :=
  ∃ cs : List Nat, report = .done (cs.map fun c => ⟨letter, c⟩) ∧ cs.Nodup ∧
    ∀ c, c ∈ cs ↔ w.InForce c ∧ (w.confs c).temporary = temporary

/-- No D-line of the kind lies inside one of the other kind. -/
def World.Apart (w : World) (temporary : Bool) : Prop :=
  ∀ p ∈ w.dlineTree.entries, ∀ q ∈ w.dlineTree.entries, w.ofKind temporary q = true →
    w.ofKind (!temporary) p = true → ¬ q.Inside p

instance World.decidableApart (w : World) (temporary : Bool) : Decidable (w.Apart temporary) :=
  inferInstanceAs (Decidable (∀ p ∈ w.dlineTree.entries, ∀ q ∈ w.dlineTree.entries,
    w.ofKind temporary q = true → w.ofKind (!temporary) p = true → ¬ q.Inside p))

variable {w : World}

/-- An entry is of one kind or of the other. -/
theorem World.Filed.ofKind_not (h : w.Filed) {n : Node (Option Nat)} (hn : n ∈ w.dlineTree.entries)
    (temporary : Bool) : w.ofKind (!temporary) n = !w.ofKind temporary n := by
  obtain ⟨c, hc, -, -⟩ := h.held n hn
  unfold World.ofKind
  rw [hc, Option.any_some, Option.any_some]
  cases (w.confs c).temporary with
  | false => cases temporary <;> rfl
  | true => cases temporary <;> rfl

/-- The recursion over a part of the tree. -/
theorem World.Filed.visit_report (h : w.Filed) (temporary : Bool) (letter : UInt8)
    {t : Patricia.Tree (Option Nat)} (ht : ∀ n ∈ t.nodes, n ∈ w.dlineTree.nodes) :
    ∀ lines : List StatsLine,
      visit (w.reportBody temporary letter) (fun _ loc => w.dlineTree.links loc) t lines =
        some (lines ++ ((t.shown (w.ofKind temporary)).filterMap Node.data).map fun c => ⟨letter, c⟩) := by
  induction t with
  | nil =>
    intro lines
    rw [visit, Tree.shown, List.filterMap_nil, List.map_nil, List.append_nil]
  | node n l r ihl ihr =>
    intro lines
    have hn := ht n (Tree.mem_nodes.mpr (Or.inl rfl))
    have hl := ihl fun m hm => ht m (Tree.mem_nodes.mpr (Or.inr (Or.inl hm)))
    have hr := ihr fun m hm => ht m (Tree.mem_nodes.mpr (Or.inr (Or.inr hm)))
    have hlinks : ∃ c, w.dlineTree.links n.loc = some c :=
      Option.isSome_iff_exists.mp (Tree.links_isSome.mpr (List.mem_map_of_mem hn))
    obtain ⟨c, hlinks⟩ := hlinks
    rw [visit, World.reportBody, h.sound.deref hn, Option.bind_some, Tree.shown]
    cases hk : n.key with
    | none =>
      rw [if_pos (by rfl), if_pos (by rfl)]
      dsimp only
      rw [hlinks]
      dsimp only
      rw [hl, Option.bind_some, hr, List.filterMap_append, List.map_append, List.append_assoc]
    | some k =>
      obtain ⟨d, hd, -, -⟩ := h.held n (Tree.mem_entries.mpr ⟨hn, by rw [hk]; rfl⟩)
      have hkind : w.ofKind temporary n = ((w.confs d).temporary == temporary) := by
        unfold World.ofKind
        rw [hd, Option.any_some]
      rw [if_neg (by exact Bool.false_ne_true), if_neg (by exact Bool.false_ne_true), hd, Option.map_some, hkind]
      by_cases hother : (w.confs d).temporary = !temporary
      · have hkeep : ¬ ((w.confs d).temporary == temporary) = true := by
          rw [hother, beq_iff_eq]
          exact Bool.not_ne_self temporary
        rw [if_pos hother, if_neg hkeep, List.filterMap_nil, List.map_nil, List.append_nil]
      · have hkeep : ((w.confs d).temporary == temporary) = true := by
          rw [beq_iff_eq]
          exact Bool.not_eq_not.mp hother
        rw [if_neg hother, if_pos hkeep]
        dsimp only
        rw [hlinks]
        dsimp only
        rw [hl, Option.bind_some, hr, List.filterMap_cons_some hd, List.map_cons, List.filterMap_append,
          List.map_append, List.append_assoc, List.append_assoc]
        rfl

/-- A report shows the entries of its kind, without what is below one of the other. -/
theorem World.Filed.report_eq (h : w.Filed) (temporary : Bool) (letter : UInt8) :
    w.report temporary letter =
      .done (((w.dlineTree.shown (w.ofKind temporary)).filterMap Node.data).map fun c => ⟨letter, c⟩) := by
  have hsteady : Steady (w.reportBody temporary letter) (fun _ loc => w.dlineTree.links loc)
      (fun loc => w.dlineTree.links loc) fun _ => True :=
    ⟨fun _ => rfl, fun _ _ => trivial, fun _ _ _ => trivial⟩
  unfold World.report
  rw [walk_tree hsteady (Tree.linked h.sound.nodup) trivial, h.visit_report temporary letter fun n hn => hn]
  rfl

/-- Whether a report is complete. -/
theorem World.Filed.complete_iff (h : w.Filed) (temporary : Bool) (letter : UInt8) :
    w.Complete temporary letter (w.report temporary letter) ↔ w.Apart temporary := by
  have hsub := Tree.shown_sublist (w.ofKind temporary) w.dlineTree
  have hentries : w.dlineTree.entries.Nodup := (List.Nodup.of_map _ h.sound.nodup).filter _
  have hmem : ∀ {c}, c ∈ (w.dlineTree.shown (w.ofKind temporary)).filterMap Node.data ↔
      ∃ n ∈ w.dlineTree.shown (w.ofKind temporary), n.data = some c := List.mem_filterMap
  have hinjective : ∀ a a' : Nat, (⟨letter, a⟩ : StatsLine) = ⟨letter, a'⟩ → a = a' :=
    fun _ _ heq => congrArg StatsLine.conf heq
  rw [h.report_eq]
  constructor
  · rintro ⟨cs, hdone, -, hall⟩ p hp q hq hkq hkp hin
    have hcs := List.map_injective_iff.mpr hinjective (Outcome.done.inj hdone)
    obtain ⟨c, hc, -, -⟩ := h.held q hq
    have hshown : c ∈ cs := by
      refine (hall c).mpr ⟨⟨q, hq, hc⟩, ?_⟩
      unfold World.ofKind at hkq
      rw [hc, Option.any_some, beq_iff_eq] at hkq
      exact hkq
    rw [← hcs, hmem] at hshown
    obtain ⟨m, hm, hmc⟩ := hshown
    obtain rfl := h.eq_of_data (hsub.subset hm) hq (hmc.trans hc.symm)
    have hkeep := ((h.sound.wf.mem_shown _ hq).mp hm).2 p hp hin
    rw [h.ofKind_not hp, hkeep] at hkp
    cases hkp
  · intro hapart
    refine ⟨_, rfl, ?_, fun c => ?_⟩
    · refine List.pairwise_filterMap.mpr ((hsub.nodup hentries).imp_of_mem fun hn hm hne c hc d hd hcd => ?_)
      exact hne (h.eq_of_data (hsub.subset hn) (hsub.subset hm) (hc.trans (hcd ▸ hd.symm)))
    · rw [hmem]
      constructor
      · rintro ⟨n, hn, hc⟩
        have hkind := ((h.sound.wf.mem_shown _ (hsub.subset hn)).mp hn).1
        unfold World.ofKind at hkind
        rw [hc, Option.any_some, beq_iff_eq] at hkind
        exact ⟨⟨n, hsub.subset hn, hc⟩, hkind⟩
      · rintro ⟨⟨n, hn, hc⟩, htemporary⟩
        have hkind : w.ofKind temporary n = true := by
          unfold World.ofKind
          rw [hc, Option.any_some, beq_iff_eq]
          exact htemporary
        refine ⟨n, (h.sound.wf.mem_shown _ hn).mpr ⟨hkind, fun p hp hin => ?_⟩, hc⟩
        by_contra hother
        refine hapart p hp n hn hkind ?_ hin
        rw [h.ofKind_not hp, Bool.eq_false_iff.mpr hother]
        rfl

/-- `report_dlines` is complete if and only if no permanent D-line lies inside a temporary
    one, and `report_tdlines` if and only if no temporary one lies inside a permanent one. -/
theorem reports_complete_iff (w : World) (h : w.Filed) :
    (w.Complete false 68 w.reportDlines ↔ w.Apart false) ∧
      (w.Complete true 100 w.reportTdlines ↔ w.Apart true) :=
  ⟨h.complete_iff false 68, h.complete_iff true 100⟩

/-- A temporary D-line and a permanent one side by side: both are reported. -/
theorem reports_complete_two : ∃ w : World,
    w.InForce 0 ∧ w.InForce 1 ∧ w.Complete false 68 w.reportDlines ∧ w.Complete true 100 w.reportTdlines := by
  have hfiled := @filed_of_reach ⟨twoAddresses, true⟩ _ (Reach.performed_all
    [Op.dline true [49, 48, 46, 48, 46, 48, 46, 49] 600 0 false,
      .dline true [49, 48, 46, 48, 46, 48, 46, 50] 0 0 false] Reach.init)
  generalize hw : List.foldl _ _ _ = w at hfiled
  have hforce : ([0, 1].all fun c => w.dlineTree.entries.any fun n => n.data == some c) = true := by
    rw [← hw]
    decide
  have hapart : w.Apart false ∧ w.Apart true := by
    rw [← hw]
    decide
  have hin : ∀ c ∈ [0, 1], w.InForce c := by
    intro c hc
    obtain ⟨n, hn, hdata⟩ := List.any_eq_true.mp (List.all_eq_true.mp hforce c hc)
    exact ⟨n, hn, eq_of_beq hdata⟩
  obtain ⟨hdlines, htdlines⟩ := reports_complete_iff w hfiled
  exact ⟨w, hin 0 List.mem_cons_self, hin 1 (List.mem_cons_of_mem 0 List.mem_cons_self),
    hdlines.mpr hapart.1, htdlines.mpr hapart.2⟩

/-- `10.0.0.2` for good and `10.0.0.1/16` for a time: the permanent D-line is not reported. -/
theorem not_reports_complete : ¬ ∀ (cfg : Config) (w : World),
    Reach (World.step cfg) anyStep World.start w →
      w.Complete false 68 w.reportDlines ∧ w.Complete true 100 w.reportTdlines := by
  intro h
  obtain ⟨⟨cs, hdone, -, hall⟩, -⟩ := h ⟨twoAddresses, true⟩ _ (Reach.performed_all
    [Op.dline true [49, 48, 46, 48, 46, 48, 46, 50] 0 0 false,
      .dline true [49, 48, 46, 48, 46, 48, 46, 49, 47, 49, 54] 600 0 false] Reach.init)
  generalize hw : List.foldl _ _ _ = w at hdone hall
  have hreport : w.reportDlines = .done [] := by
    rw [← hw]
    decide
  have hperm : (w.confs 0).temporary = false := by
    rw [← hw]
    decide
  have hforce : (w.dlineTree.entries.any fun n => n.data == some 0) = true := by
    rw [← hw]
    decide
  obtain ⟨n, hn, hdata⟩ := List.any_eq_true.mp hforce
  have hin : 0 ∈ cs := (hall 0).mpr ⟨⟨n, hn, eq_of_beq hdata⟩, hperm⟩
  have hnil := List.map_eq_nil_iff.mp (Outcome.done.inj (hreport.symm.trans hdone)).symm
  rw [hnil] at hin
  cases hin

end Bluebox.Dline
