/-
  Bluebox.Spam.Map

  The spam filter as a map from masks, up to case, to types and reasons.

  Three things keep it from being one.  A mask is stored after `collapse` and looked
  up as it was given; an update writes the type to `flags`, where nobody reads it; and
  it leaves the pattern as it is, though case matters in an escaped `s`.
-/
import Bluebox.Lib.First
import Bluebox.Lib.Reach
import Bluebox.Spam.Basic
import Bluebox.Spam.Escape

namespace Bluebox.Spam

open Bluebox.Lib

-- ============================================================================
-- Orders
-- ============================================================================

/-- What a command asks for. -/
inductive Order
  | set (mask : Bytes) (type : Int) (reason : Bytes)
  | unset (mask : Bytes)
deriving DecidableEq, Repr

/-- The mask that an order is about. -/
def Order.mask : Order → Bytes
  | .set mask _ _ => mask
  | .unset mask => mask

/-- A command with its source and its parameters, `parv[0]` included. -/
structure Event where
  command : Command
  source : Source
  parv : List Bytes
deriving DecidableEq, Repr

/-- What the parameters of a command ask for. -/
def Event.order (e : Event) : Order :=
  match e.command with
  | .spam => .set (e.parv.getD 1 []) (atoi (e.parv.getD 2 [])) (e.parv.getD 3 [])
  | .bspam => .set (e.parv.getD 1 []) (atoi (e.parv.getD 2 [])) (e.parv.getD 4 [])
  | .unspam => .unset (e.parv.getD 1 [])

/-- The source may use the command. -/
def Event.permitted (e : Event) : Bool :=
  match e.command with
  | .bspam => e.source.burstingServer
  | _ => e.source.serviceClient

/-- The mask is a string without blanks and the type is one of the three. -/
def Order.valid (o : Order) : Bool :=
  !(o.mask.contains 0) && !(o.mask.contains 32) &&
    match o with
    | .set _ type _ => decide (0 ≤ type ∧ type < lastSpamType)
    | .unset _ => true

/-- The filter and the orders it has had, newest first. -/
structure State where
  slines : Slines
  history : List Order

/-- An empty filter. -/
def State.start : State := ⟨[], []⟩

/-- A command from a permitted source. -/
def State.step (s : State) (e : Event) : Option State :=
  if e.permitted && e.order.valid then
    some ⟨s.slines.handle e.command e.source e.parv, e.order :: s.history⟩
  else none

/-- The last order for a mask, up to case. -/
def lastOrder (history : List Order) (mask : Bytes) : Option Order :=
  history.find? fun o => irccmp o.mask mask == 0

/-- The entries for a mask are as an order wants them. -/
def Slines.Obey (l : Slines) (mask : Bytes) : Option Order → Prop
  | some (.set given type reason) => ∃ aconf, l.filter (·.isFor mask) = [aconf] ∧
      spamAction aconf.port = spamAction type ∧ aconf.passwd = reason ∧
      ∀ name, matchEsc aconf.host name = matchEsc given name
  | _ => l.filter (·.isFor mask) = []

/-- The filter is the map that the orders describe: it has one entry for each mask
    that was last set, and no other entry; and the mask that an entry was set with
    removes it. -/
structure State.IsMap (s : State) : Prop where
  obey : ∀ mask, NoNul mask → s.slines.Obey mask (lastOrder s.history mask)
  listed : ∀ aconf ∈ s.slines, ∃ given type reason,
    lastOrder s.history aconf.host = some (.set given type reason)
  removed : ∀ given type reason, lastOrder s.history given = some (.set given type reason) →
    (s.slines.removeSpam given).filter (·.isFor given) = []

/-- A mask that is set has no run of stars, and if it is there already it has the
    type it had, and the same letters behind backslashes. -/
def State.keeps (s : State) (e : Event) : Bool :=
  match e.order with
  | .set mask type _ => collapse mask == mask &&
      s.slines.all fun aconf => !aconf.isFor mask ||
        (aconf.port == type && escFold false aconf.host == escFold false mask)
  | .unset _ => true

-- ============================================================================
-- The map
-- ============================================================================

/-- What a run keeps.  The other parts of `IsMap` follow. -/
structure State.Inv (s : State) : Prop where
  obey : ∀ mask, NoNul mask → s.slines.Obey mask (lastOrder s.history mask)
  hosts : ∀ aconf ∈ s.slines, NoNul aconf.host
  orders : ∀ o ∈ s.history, NoNul o.mask

theorem State.inv_start : State.start.Inv where
  obey := by
    intro mask hmask
    rfl
  hosts := by
    intro aconf ha
    cases ha
  orders := by
    intro o ho
    cases ho

theorem isFor_congr {aconf : Sline} {mask mask' : Bytes} (haconf : NoNul aconf.host)
    (hm : NoNul mask) (hm' : NoNul mask') (h : irccmp mask mask' = 0) :
    aconf.isFor mask' = aconf.isFor mask := by
  unfold Sline.isFor
  rw [Bool.eq_iff_iff, beq_iff_eq, beq_iff_eq]
  constructor
  · intro hfor
    exact irccmp_eq_zero_trans haconf hm' hm hfor ((irccmp_eq_zero_comm mask mask').mp h)
  · intro hfor
    exact irccmp_eq_zero_trans haconf hm hm' hfor h

/-- An entry is for one mask up to case. -/
theorem isFor_disjoint {aconf : Sline} {mask mask' : Bytes} (haconf : NoNul aconf.host)
    (hm : NoNul mask) (hm' : NoNul mask') (h : irccmp mask mask' ≠ 0)
    (hfor : aconf.isFor mask = true) : aconf.isFor mask' = false := by
  rw [Bool.eq_false_iff]
  intro hfor'
  refine h (irccmp_eq_zero_trans hm haconf hm' ?_ (eq_of_beq hfor'))
  exact (irccmp_eq_zero_comm aconf.host mask).mp (eq_of_beq hfor)

theorem Slines.Obey.of_filter_eq {l l' : Slines} {mask mask' : Bytes} {o : Option Order}
    (h : l.filter (·.isFor mask) = l'.filter (·.isFor mask')) (hobey : l'.Obey mask' o) :
    l.Obey mask o := by
  cases o with
  | none => exact h.trans hobey
  | some o =>
    cases o with
    | set given type reason =>
      obtain ⟨aconf, hfilter, hrest⟩ := hobey
      exact ⟨aconf, h.trans hfilter, hrest⟩
    | unset given => exact h.trans hobey

theorem lastOrder_of_eq {o : Order} {mask : Bytes} (h : irccmp o.mask mask = 0)
    (history : List Order) : lastOrder (o :: history) mask = some o := by
  unfold lastOrder
  rw [List.find?_cons, h]
  rfl

theorem lastOrder_of_ne {o : Order} {mask : Bytes} (h : irccmp o.mask mask ≠ 0)
    (history : List Order) : lastOrder (o :: history) mask = lastOrder history mask := by
  unfold lastOrder
  rw [List.find?_cons, beq_eq_false_iff_ne.mpr h]

/-- A set order for a mask that is new. -/
theorem State.Inv.insert {s : State} (h : s.Inv) {mask reason : Bytes} {type : Int}
    (hmask : NoNul mask) (hcollapse : collapse mask = mask)
    (hnew : s.slines.any (·.isFor mask) = false) :
    State.Inv ⟨⟨collapse mask, reason, type, 0⟩ :: s.slines, .set mask type reason :: s.history⟩ := by
  have hnone : ∀ aconf ∈ s.slines, aconf.isFor mask = false := fun aconf ha => by
    rw [Bool.eq_false_iff]
    exact List.any_eq_false.mp hnew aconf ha
  refine ⟨fun q hq => ?_, fun aconf ha => ?_, fun o ho => ?_⟩
  · show Slines.Obey (⟨collapse mask, reason, type, 0⟩ :: s.slines) q
      (lastOrder (.set mask type reason :: s.history) q)
    rw [hcollapse]
    by_cases heq : irccmp mask q = 0
    · have hhead : Sline.isFor ⟨mask, reason, type, 0⟩ q = true := beq_iff_eq.mpr heq
      have hrest : s.slines.filter (·.isFor q) = [] := by
        refine List.filter_eq_nil_iff.mpr fun aconf ha => ?_
        rw [isFor_congr (h.hosts aconf ha) hmask hq heq, hnone aconf ha]
        exact Bool.false_ne_true
      rw [lastOrder_of_eq (o := .set mask type reason) heq]
      refine ⟨⟨mask, reason, type, 0⟩, ?_, rfl, rfl, fun _ => rfl⟩
      rw [List.filter_cons, if_pos hhead, hrest]
    · have hhead : ¬ Sline.isFor ⟨mask, reason, type, 0⟩ q = true := fun hfor => heq (eq_of_beq hfor)
      rw [lastOrder_of_ne (o := .set mask type reason) heq]
      refine Slines.Obey.of_filter_eq ?_ (h.obey q hq)
      rw [List.filter_cons, if_neg hhead]
  · obtain rfl | ha := List.mem_cons.mp ha
    · show NoNul (collapse mask)
      rw [hcollapse]
      exact hmask
    · exact h.hosts aconf ha
  · obtain rfl | ho := List.mem_cons.mp ho
    · exact hmask
    · exact h.orders o ho

/-- A set order for a mask that is there. -/
theorem State.Inv.update {s : State} (h : s.Inv) {mask reason : Bytes} {type : Int}
    (hmask : NoNul mask) (hold : s.slines.any (·.isFor mask) = true)
    (hsame : ∀ aconf ∈ s.slines, aconf.isFor mask = true →
      aconf.port = type ∧ escFold false aconf.host = escFold false mask) :
    State.Inv ⟨updateFirst (·.isFor mask) (fun aconf => { aconf with flags := type, passwd := reason })
      s.slines, .set mask type reason :: s.history⟩ := by
  have hone : ∃ aconf, s.slines.filter (·.isFor mask) = [aconf] := by
    have hobey := h.obey mask hmask
    unfold Slines.Obey at hobey
    split at hobey
    · obtain ⟨aconf, hfilter, -⟩ := hobey
      exact ⟨aconf, hfilter⟩
    · obtain ⟨aconf, ha, hfor⟩ := List.any_eq_true.mp hold
      have hmem : aconf ∈ s.slines.filter (·.isFor mask) := List.mem_filter.mpr ⟨ha, hfor⟩
      rw [hobey] at hmem
      cases hmem
  obtain ⟨aconf, hfilter⟩ := hone
  have hmem : aconf ∈ s.slines.filter (·.isFor mask) := by
    rw [hfilter]
    exact List.mem_singleton_self aconf
  obtain ⟨hin, hfor⟩ := List.mem_filter.mp hmem
  obtain ⟨hport, halike⟩ := hsame aconf hin hfor
  have hhosts : ∀ a ∈ updateFirst (·.isFor mask)
      (fun aconf => { aconf with flags := type, passwd := reason }) s.slines, NoNul a.host := by
    intro a ha
    obtain ha | ⟨b, hb, rfl⟩ := mem_updateFirst ha
    · exact h.hosts a ha
    · exact h.hosts b (List.mem_of_find?_eq_some hb)
  refine ⟨fun q hq => ?_, hhosts, fun o ho => ?_⟩
  · by_cases heq : irccmp mask q = 0
    · rw [lastOrder_of_eq (o := .set mask type reason) heq]
      refine ⟨{ aconf with flags := type, passwd := reason }, ?_, ?_, rfl, fun name => ?_⟩
      · rw [List.filter_congr fun a ha => isFor_congr (hhosts a ha) hmask hq heq]
        exact filter_updateFirst_self
          (f := fun aconf => { aconf with flags := type, passwd := reason }) (fun _ => rfl) hfilter
      · show spamAction aconf.port = spamAction type
        rw [hport]
      · exact matchEsc_alike halike name
    · rw [lastOrder_of_ne (o := .set mask type reason) heq]
      refine Slines.Obey.of_filter_eq ?_ (h.obey q hq)
      exact filter_updateFirst_of_disjoint
        (f := fun aconf => { aconf with flags := type, passwd := reason }) (fun _ => rfl) fun a ha =>
          isFor_disjoint (h.hosts a ha) hmask hq heq
  · obtain rfl | ho := List.mem_cons.mp ho
    · exact hmask
    · exact h.orders o ho

theorem Slines.Obey.tail_eq_nil {l : Slines} {mask : Bytes} {o : Option Order}
    (h : l.Obey mask o) : (l.filter (·.isFor mask)).tail = [] := by
  unfold Slines.Obey at h
  split at h
  · obtain ⟨aconf, hfilter, -⟩ := h
    rw [hfilter]
    rfl
  · rw [h]
    rfl

/-- An order to remove a mask. -/
theorem State.Inv.remove {s : State} (h : s.Inv) {mask : Bytes} (hmask : NoNul mask) :
    State.Inv ⟨s.slines.removeSpam mask, .unset mask :: s.history⟩ := by
  have hhosts : ∀ a ∈ s.slines.removeSpam mask, NoNul a.host := fun a ha =>
    h.hosts a (List.mem_of_mem_eraseP ha)
  refine ⟨fun q hq => ?_, hhosts, fun o ho => ?_⟩
  · by_cases heq : irccmp mask q = 0
    · rw [lastOrder_of_eq (o := .unset mask) heq]
      show List.filter (·.isFor q) (s.slines.removeSpam mask) = []
      rw [List.filter_congr fun a ha => isFor_congr (hhosts a ha) hmask hq heq]
      exact (filter_eraseP_self _ _).trans (h.obey mask hmask).tail_eq_nil
    · rw [lastOrder_of_ne (o := .unset mask) heq]
      refine Slines.Obey.of_filter_eq ?_ (h.obey q hq)
      exact filter_eraseP_of_disjoint fun a ha => isFor_disjoint (h.hosts a ha) hmask hq heq
  · obtain rfl | ho := List.mem_cons.mp ho
    · exact hmask
    · exact h.orders o ho

/-- What a command from a permitted source does. -/
theorem handle_eq {e : Event} (h : e.permitted = true) (hvalid : e.order.valid = true) (l : Slines) :
    l.handle e.command e.source e.parv =
      match e.order with
      | .set mask type reason =>
        if l.any (·.isFor mask) then
          updateFirst (·.isFor mask) (fun aconf => { aconf with flags := type, passwd := reason }) l
        else ⟨collapse mask, reason, type, 0⟩ :: l
      | .unset mask => l.removeSpam mask := by
  have hadd : ∀ (mask : Bytes) (type : Int) (reason : Bytes),
      (Order.set mask type reason).valid = true → l.addSpam mask type reason =
        if l.any (·.isFor mask) then
          updateFirst (·.isFor mask) (fun aconf => { aconf with flags := type, passwd := reason }) l
        else ⟨collapse mask, reason, type, 0⟩ :: l := by
    intro mask type reason hvalid
    have hrange : 0 ≤ type ∧ type < lastSpamType :=
      of_decide_eq_true (Bool.and_eq_true_iff.mp hvalid).2
    unfold Slines.addSpam
    rw [if_neg (by omega)]
  unfold Event.permitted at h
  unfold Event.order at hvalid ⊢
  cases hcommand : e.command with
  | spam =>
    rw [hcommand] at h hvalid
    obtain ⟨hclient, hservice⟩ := Bool.and_eq_true_iff.mp h
    show Slines.meSpam l e.source e.parv = _
    unfold Slines.meSpam
    rw [hclient, hservice, if_neg (by decide)]
    exact hadd _ _ _ hvalid
  | bspam =>
    rw [hcommand] at h hvalid
    obtain ⟨hserver, heob⟩ := Bool.and_eq_true_iff.mp h
    show Slines.meBspam l e.source e.parv = _
    unfold Slines.meBspam
    rw [Bool.not_eq_true'] at heob
    rw [eq_of_beq hserver, heob, if_neg (by decide)]
    exact hadd _ _ _ hvalid
  | unspam =>
    rw [hcommand] at h
    obtain ⟨hclient, hservice⟩ := Bool.and_eq_true_iff.mp h
    show Slines.meUnspam l e.source e.parv = _
    unfold Slines.meUnspam
    rw [hclient, if_neg (by simp)]

theorem State.Inv.step {s s' : State} {e : Event} (h : s.Inv) (hkeeps : s.keeps e = true)
    (hs : s.step e = some s') : s'.Inv := by
  unfold State.step at hs
  split at hs
  · rename_i hok
    rw [Bool.and_eq_true] at hok
    obtain rfl := Option.some.inj hs
    rw [handle_eq hok.1 hok.2]
    have hvalid := hok.2
    unfold State.keeps at hkeeps
    unfold Order.valid at hvalid
    rw [Bool.and_eq_true, Bool.and_eq_true] at hvalid
    have hmask : NoNul e.order.mask := by
      intro hmem
      have hcontains : e.order.mask.contains 0 = true := List.contains_iff_mem.mpr hmem
      rw [hcontains] at hvalid
      cases hvalid.1.1
    cases ho : e.order with
    | set mask type reason =>
      rw [ho] at hkeeps hmask
      simp only [Bool.and_eq_true, beq_iff_eq] at hkeeps
      dsimp only
      split
      · rename_i hany
        refine h.update hmask hany fun aconf ha hfor => ?_
        have hall := List.all_eq_true.mp hkeeps.2 aconf ha
        rw [hfor, Bool.not_true, Bool.false_or, Bool.and_eq_true, beq_iff_eq, beq_iff_eq] at hall
        exact hall
      · rename_i hany
        exact h.insert hmask hkeeps.1 (Bool.eq_false_iff.mpr hany)
    | unset mask =>
      rw [ho] at hmask
      exact h.remove hmask
  · cases hs

/-- In a run that sets no mask with a run of stars, and a mask that is there only
    with the type it has and the same letters behind backslashes, the filter is the
    map that the orders describe. -/
theorem isMap_of_keeps_run {s : State}
    (h : Reach State.step (fun s e => s.keeps e = true) State.start s) : s.IsMap := by
  have hinv : s.Inv := h.invariant (P := State.Inv) State.inv_start
    fun _ _ _ hinv hkeeps hs => hinv.step hkeeps hs
  refine ⟨hinv.obey, fun aconf ha => ?_, fun given type reason hlast => ?_⟩
  · have hobey := hinv.obey aconf.host (hinv.hosts aconf ha)
    unfold Slines.Obey at hobey
    split at hobey
    · rename_i given type reason hlast
      exact ⟨given, type, reason, hlast⟩
    · have hmem : aconf ∈ s.slines.filter (·.isFor aconf.host) :=
        List.mem_filter.mpr ⟨ha, beq_iff_eq.mpr (irccmp_self aconf.host)⟩
      rw [hobey] at hmem
      cases hmem
  · have hgiven : NoNul given := hinv.orders _ (List.mem_of_find?_eq_some hlast)
    exact (filter_eraseP_self _ _).trans (hinv.obey given hgiven).tail_eq_nil

/-- `SPAM <mask> <type> :<reason>` from a service. -/
def spamEvent (mask type reason : Bytes) : Event :=
  ⟨.spam, ⟨.client, false, false, true, false⟩, [[115], mask, type, reason]⟩

/-- `SPAM f*o 1 :a` and then `SPAM F*O 1 :b`. -/
theorem isMap_after_second_reason :
    ([spamEvent [102, 42, 111] [49] [97], spamEvent [70, 42, 79] [49] [98]].foldl
      (Reach.perform State.step) State.start).IsMap := by
  refine isMap_of_keeps_run ?_
  simp only [List.foldl_cons, List.foldl_nil]
  exact (Reach.init.performed (by decide +kernel)).performed (by decide +kernel)

/-- `SPAM foo 0 :a` and then `SPAM foo 1 :b`: operators are not told. -/
theorem not_isMap_after_second_type :
    ¬ ∀ s : State, Reach State.step anyStep State.start s → s.IsMap := by
  intro h
  have hmap := h _ (Reach.performed_all [spamEvent [102, 111, 111] [48] [97],
    spamEvent [102, 111, 111] [49] [98]] Reach.init)
  generalize hs : List.foldl _ _ _ = s at hmap
  have hslines : s.slines = [⟨[102, 111, 111], [98], 0, 1⟩] := by
    rw [← hs]
    decide +kernel
  have hlast : lastOrder s.history [102, 111, 111] = some (.set [102, 111, 111] 1 [98]) := by
    rw [← hs]
    decide +kernel
  have hobey := hmap.obey [102, 111, 111] (by decide)
  rw [hlast, hslines] at hobey
  obtain ⟨aconf, hfilter, haction, -⟩ := hobey
  have hfor : List.filter (fun a => Sline.isFor a [102, 111, 111])
      [⟨[102, 111, 111], [98], 0, 1⟩] = [⟨[102, 111, 111], [98], 0, 1⟩] := by decide +kernel
  obtain ⟨rfl, -⟩ := List.cons.inj (hfor.symm.trans hfilter)
  revert haction
  decide

end Bluebox.Spam
