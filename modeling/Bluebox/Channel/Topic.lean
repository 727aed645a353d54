/-
  Bluebox.Channel.Topic

  Topics in a burst: `ms_tb` of `modules/m_tb.c` and `set_channel_topic` of
  `libratboxcore/channel.c`.

  Of two topics the older one wins, but a topic with the text that is there already
  is dropped together with its time.  So the order of the messages does not matter
  as long as the oldest of them is the only one with its text.
-/
import Mathlib
import Bluebox.Channel.Table

namespace Bluebox.Chan

open Bluebox.Lib

-- ============================================================================
-- ms_tb
-- ============================================================================

/-- `struct topic_info`. -/
structure TopicInfo where
  topic : Bytes
  topicInfo : Bytes
  topicTime : Int
deriving DecidableEq, Repr

/-- The settings of `ConfigChannel` for topics. -/
structure TopicConfig where
  topiclen : Nat
  burstTopicwho : Bool

/-- The channels and the topics they have. -/
structure Topics where
  table : Table
  topic : Nat → Option TopicInfo

/-- A `TB` message: its source and its parameters, `parv[0]` included. -/
structure TbMessage where
  sourceName : Bytes
  sourceId : Bytes
  parv : List Bytes
deriving DecidableEq, Repr

/-- What `ms_tb` sends: to the members of the channel that are here, and to the
    servers with or without TS6. -/
inductive TbSend
  | topic (source chname newtopic : Bytes)
  | tb (ts6 : Bool) (source chname : Bytes) (ts : Int) (who : Option Bytes) (topic : Bytes)
deriving DecidableEq, Repr

/-- `newtopicts`. -/
def TbMessage.ts (m : TbMessage) : Int := atol (m.parv.getD 2 [])

/-- `newtopic`. -/
def TbMessage.newtopic (m : TbMessage) : Bytes :=
  if m.parv.length = 5 then m.parv.getD 4 [] else m.parv.getD 3 []

/-- `newtopicwho`. -/
def TbMessage.newtopicwho (m : TbMessage) : Bytes :=
  if m.parv.length = 5 then m.parv.getD 3 [] else m.sourceName

/-- `set_channel_topic`. -/
def setChannelTopic (cfg : TopicConfig) (topic info : Bytes) (ts : Int) : Option TopicInfo :=
  if 0 < topic.length then
    some ⟨strlcpy topic (cfg.topiclen + 1), strlcpy info userhostReplyLen, ts⟩
  else none

/-- The two calls of `sendto_server`. -/
def tbSends (cfg : TopicConfig) (m : TbMessage) (chname : Bytes) (t : TopicInfo) : List TbSend :=
  let who := if cfg.burstTopicwho then some t.topicInfo else none
  let useId := if m.sourceId = [] then m.sourceName else m.sourceId
  [.tb true useId chname t.topicTime who t.topic,
    .tb false m.sourceName chname t.topicTime who t.topic]

/-- A topic comes in for a channel: nothing, or the topic that the channel gets. -/
def newerTopic (cfg : TopicConfig) (old : Option TopicInfo) (m : TbMessage) : Option TopicInfo :=
  if old.all fun t => decide (t.topicTime > m.ts) then
    if old.any fun t => t.topic == m.newtopic then none
    else setChannelTopic cfg m.newtopic m.newtopicwho m.ts
  else none

/-- `ms_tb`. -/
def Topics.msTb (cfg : TopicConfig) (s : Topics) (m : TbMessage) : Topics × List TbSend :=
  match findChannel s.table (m.parv.getD 1 []) with
  | none => (s, [])
  | some p =>
    if m.newtopic = [] then (s, [])
    else
      match newerTopic cfg (s.topic p) m with
      | none => (s, [])
      | some t =>
        ({ s with topic := Function.update s.topic p (some t) },
          .topic m.sourceName (s.table.chan p).chname m.newtopic ::
            tbSends cfg m (s.table.chan p).chname t)

/-- The topics after some messages. -/
def Topics.msTbs (cfg : TopicConfig) (s : Topics) (l : List TbMessage) : Topics :=
  l.foldl (fun s m => (s.msTb cfg m).1) s

-- ============================================================================
-- One channel
-- ============================================================================

/-- A text and its time. -/
abbrev Stamp := Bytes × Int

/-- The text and the time of a topic. -/
def TopicInfo.stamp (t : TopicInfo) : Stamp := (t.topic, t.topicTime)

/-- The text and the time of a message. -/
def TbMessage.stamp (m : TbMessage) : Stamp := (m.newtopic, m.ts)

/-- The older one wins, unless it has the same text. -/
def older (old : Option Stamp) (x : Stamp) : Option Stamp :=
  match old with
  | none => some x
  | some c => if x.2 < c.2 ∧ c.1 ≠ x.1 then some x else some c

theorem older_of_lt {c x : Stamp} (htime : x.2 < c.2) (htext : c.1 ≠ x.1) :
    older (some c) x = some x := if_pos ⟨htime, htext⟩

theorem older_of_not {c x : Stamp} (h : ¬ (x.2 < c.2 ∧ c.1 ≠ x.1)) :
    older (some c) x = some c := if_neg h

theorem older_foldl_mem (l : List Stamp) : ∀ {old : Option Stamp} {c : Stamp},
    l.foldl older old = some c → old = some c ∨ c ∈ l := by
  induction l with
  | nil => intro old c h; exact Or.inl h
  | cons x l ih =>
    intro old c h
    obtain h | h := ih h
    · unfold older at h
      split at h
      · rw [← Option.some.inj h]
        exact Or.inr List.mem_cons_self
      · split at h
        · rw [← Option.some.inj h]
          exact Or.inr List.mem_cons_self
        · exact Or.inl h
    · exact Or.inr (List.mem_cons_of_mem x h)

theorem older_foldl_least (l : List Stamp) {c : Stamp} (h : ∀ x ∈ l, c.2 ≤ x.2) :
    l.foldl older (some c) = some c := by
  induction l with
  | nil => rfl
  | cons x l ih =>
    have hx := h x List.mem_cons_self
    rw [List.foldl_cons]
    rw [older_of_not fun hlt => absurd hlt.1 (Int.not_lt.mpr hx)]
    exact ih fun y hy => h y (List.mem_cons_of_mem x hy)

/-- The oldest one wins when no other one has its text. -/
theorem older_foldl_of_only {l : List Stamp} {c : Stamp} (hc : c ∈ l)
    (hleast : ∀ x ∈ l, c.2 ≤ x.2) (hnodup : (l.map Prod.snd).Nodup)
    (honly : ∀ x ∈ l, x.1 = c.1 → x = c) : l.foldl older none = some c := by
  obtain ⟨pre, post, rfl⟩ := List.append_of_mem hc
  rw [List.foldl_append, List.foldl_cons]
  rw [List.map_append, List.map_cons, List.perm_middle.nodup_iff, List.nodup_cons] at hnodup
  have htake : older (pre.foldl older none) c = some c := by
    cases hpre : pre.foldl older none with
    | none => rfl
    | some d =>
      have hd : d ∈ pre := (older_foldl_mem pre hpre).resolve_left (Option.some_ne_none d).symm
      have hne : d.2 ≠ c.2 := by
        intro heq
        refine hnodup.1 ?_
        rw [← heq]
        exact List.mem_append_left _ (List.mem_map_of_mem hd)
      have hle := hleast d (List.mem_append_left _ hd)
      refine older_of_lt (by omega) fun htext => hne ?_
      rw [honly d (List.mem_append_left _ hd) htext]
  rw [htake]
  exact older_foldl_least post fun x hx =>
    hleast x (List.mem_append_right pre (List.mem_cons_of_mem c hx))

/-- One that comes right after another one with its text never wins. -/
theorem older_foldl_ne {l : List Stamp} {c d : Stamp} (htext : d.1 = c.1)
    (hnodup : ((d :: c :: l).map Prod.snd).Nodup) :
    (d :: c :: l).foldl older none ≠ some c := by
  intro h
  have hdrop : older (some d) c = some d := older_of_not fun hlt => hlt.2 htext
  rw [List.foldl_cons, List.foldl_cons] at h
  change l.foldl older (older (some d) c) = some c at h
  rw [hdrop] at h
  simp only [List.map_cons, List.nodup_cons, List.mem_cons, not_or] at hnodup
  obtain h | h := older_foldl_mem l h
  · exact hnodup.1.1 (congrArg Prod.snd (Option.some.inj h))
  · exact hnodup.2.1 (List.mem_map_of_mem h)

-- ============================================================================
-- The burst
-- ============================================================================

/-- Messages with topics for one channel that has none, with different times. -/
structure TbBurst (cfg : TopicConfig) (s : Topics) (p : Nat) (l : List TbMessage) : Prop where
  no_topic : s.topic p = none
  found : ∀ m ∈ l, findChannel s.table (m.parv.getD 1 []) = some p
  nonempty : ∀ m ∈ l, m.newtopic ≠ []
  short : ∀ m ∈ l, m.newtopic.length < cfg.topiclen
  distinct : (l.map TbMessage.ts).Nodup

/-- In any order, the messages leave the text and the time of the oldest one. -/
def OldestWins (cfg : TopicConfig) (s : Topics) (p : Nat) (l : List TbMessage) : Prop :=
  ∀ order : List TbMessage, order.Perm l →
    ((s.msTbs cfg order).topic p).map TopicInfo.stamp
      = (l.argmin TbMessage.ts).map TbMessage.stamp

theorem msTb_table (cfg : TopicConfig) (s : Topics) (m : TbMessage) :
    (s.msTb cfg m).1.table = s.table := by
  unfold Topics.msTb
  split
  · rfl
  · split
    · rfl
    · split <;> rfl

/-- What one message does to the topic of its channel. -/
theorem msTb_stamp {cfg : TopicConfig} {s : Topics} {p : Nat} {m : TbMessage}
    (hfound : findChannel s.table (m.parv.getD 1 []) = some p) (hne : m.newtopic ≠ [])
    (hshort : m.newtopic.length < cfg.topiclen) :
    ((s.msTb cfg m).1.topic p).map TopicInfo.stamp
      = older ((s.topic p).map TopicInfo.stamp) m.stamp := by
  have hset : setChannelTopic cfg m.newtopic m.newtopicwho m.ts
      = some ⟨m.newtopic, strlcpy m.newtopicwho userhostReplyLen, m.ts⟩ := by
    unfold setChannelTopic
    rw [if_pos (List.length_pos_of_ne_nil hne),
      strlcpy_of_lt (Nat.lt_succ_of_lt hshort)]
  unfold Topics.msTb
  rw [hfound]
  dsimp only
  rw [if_neg hne]
  unfold newerTopic
  cases hold : s.topic p with
  | none =>
    rw [Option.all_none, if_pos rfl, Option.any_none, if_neg Bool.false_ne_true, hset]
    dsimp only
    rw [Function.update_self]
    rfl
  | some t =>
    rw [Option.all_some, Option.any_some, Option.map_some]
    by_cases htime : t.topicTime > m.ts
    · rw [if_pos (decide_eq_true htime)]
      by_cases htext : t.topic = m.newtopic
      · rw [if_pos (beq_iff_eq.mpr htext), older_of_not fun h => h.2 htext]
        dsimp only
        rw [hold]
        rfl
      · rw [if_neg (mt beq_iff_eq.mp htext), hset, older_of_lt htime htext]
        dsimp only
        rw [Function.update_self]
        rfl
    · rw [if_neg (mt of_decide_eq_true htime), older_of_not fun h => htime h.1]
      dsimp only
      rw [hold]
      rfl

/-- What the messages of a burst do to the topic of the channel. -/
theorem msTbs_stamp {cfg : TopicConfig} {p : Nat} (l : List TbMessage) : ∀ {s : Topics},
    (∀ m ∈ l, findChannel s.table (m.parv.getD 1 []) = some p) → (∀ m ∈ l, m.newtopic ≠ []) →
    (∀ m ∈ l, m.newtopic.length < cfg.topiclen) →
    ((s.msTbs cfg l).topic p).map TopicInfo.stamp
      = (l.map TbMessage.stamp).foldl older ((s.topic p).map TopicInfo.stamp) := by
  induction l with
  | nil => intro s _ _ _; rfl
  | cons m l ih =>
    intro s hfound hne hshort
    obtain ⟨hfm, hfound⟩ := List.forall_mem_cons.mp hfound
    obtain ⟨hnm, hne⟩ := List.forall_mem_cons.mp hne
    obtain ⟨hsm, hshort⟩ := List.forall_mem_cons.mp hshort
    rw [List.map_cons, List.foldl_cons, ← msTb_stamp hfm hnm hsm]
    refine ih (fun x hx => ?_) hne hshort
    rw [msTb_table]
    exact hfound x hx

/-- The oldest topic wins in every order exactly when no other message of the burst
    has its text. -/
theorem oldestWins_iff {cfg : TopicConfig} {s : Topics} {p : Nat} {l : List TbMessage}
    (h : TbBurst cfg s p l) :
    OldestWins cfg s p l ↔
      ∀ m ∈ l.argmin TbMessage.ts, ∀ m' ∈ l, m'.newtopic = m.newtopic → m' = m := by
  have hrun : ∀ order : List TbMessage, order.Perm l →
      ((s.msTbs cfg order).topic p).map TopicInfo.stamp
        = (order.map TbMessage.stamp).foldl older none := by
    intro order hperm
    rw [msTbs_stamp order (fun m hm => h.found m (hperm.subset hm))
      (fun m hm => h.nonempty m (hperm.subset hm)) (fun m hm => h.short m (hperm.subset hm)),
      h.no_topic]
    rfl
  have hstamps : ∀ order : List TbMessage, order.Perm l →
      ((order.map TbMessage.stamp).map Prod.snd).Nodup := by
    intro order hperm
    rw [List.map_map]
    exact ((hperm.map TbMessage.ts).nodup_iff).mpr h.distinct
  constructor
  · intro hwins m hm m' hm' htext
    by_contra hne
    have hmem := List.argmin_mem hm
    -- the order that has the other message right before the oldest one
    have hperm : (m' :: m :: (l.erase m').erase m).Perm l := by
      have hin : m ∈ l.erase m' := (List.mem_erase_of_ne (Ne.symm hne)).mpr hmem
      exact ((List.perm_cons_erase hin).symm.cons m').trans (List.perm_cons_erase hm').symm
    have hlast := hwins _ hperm
    rw [hrun _ hperm, Option.mem_def.mp hm, Option.map_some] at hlast
    exact older_foldl_ne (c := m.stamp) (d := m'.stamp) htext (hstamps _ hperm) hlast
  · intro honly order hperm
    rw [hrun order hperm]
    cases hmin : l.argmin TbMessage.ts with
    | none =>
      rw [List.argmin_eq_none.mp hmin, List.perm_nil] at hperm
      rw [hperm]
      rfl
    | some m =>
      have hmem := List.argmin_mem hmin
      rw [Option.map_some]
      refine older_foldl_of_only ?_ (fun x hx => ?_) (hstamps order hperm) fun x hx htext => ?_
      · exact List.mem_map_of_mem (hperm.symm.subset hmem)
      · obtain ⟨m', hm', rfl⟩ := List.mem_map.mp hx
        have hle : m.ts ≤ m'.ts := List.le_of_mem_argmin (hperm.subset hm') hmin
        exact hle
      · obtain ⟨m', hm', rfl⟩ := List.mem_map.mp hx
        rw [honly m hmin m' (hperm.subset hm') htext]

/-- A server with the channel `#a`. -/
def oneChannel : Topics := ⟨Table.start.add [35, 97] 0, fun _ => none⟩

/-- `TB #a <ts> :<topic>` from the server `s`. -/
def tbMessage (ts topic : Bytes) : TbMessage := ⟨[115], [], [[84, 66], [35, 97], ts, topic]⟩

/-- The topics `x` at 20, `y` at 10 and `x` at 30. -/
theorem oldestWins_three : OldestWins ⟨160, true⟩ oneChannel 0
    [tbMessage [50, 48] [120], tbMessage [49, 48] [121], tbMessage [51, 48] [120]] := by
  refine (oldestWins_iff ⟨rfl, ?_, ?_, ?_, by decide⟩).mpr ?_
  · exact List.forall_iff_forall_mem.mp (by decide)
  · exact List.forall_iff_forall_mem.mp (by decide)
  · exact List.forall_iff_forall_mem.mp (by decide)
  · intro m hm
    have hmin : List.argmin TbMessage.ts [tbMessage [50, 48] [120], tbMessage [49, 48] [121],
        tbMessage [51, 48] [120]] = some (tbMessage [49, 48] [121]) := by decide
    rw [hmin] at hm
    obtain rfl := Option.some.inj hm
    exact List.forall_iff_forall_mem.mp (by decide)

/-- The topic `x` at 20 and then at 10: the time stays 20. -/
theorem not_oldestWins_same_text : ¬ ∀ (cfg : TopicConfig) (s : Topics) (p : Nat)
    (l : List TbMessage), TbBurst cfg s p l → OldestWins cfg s p l := by
  intro h
  have hburst : TbBurst ⟨160, true⟩ oneChannel 0
      [tbMessage [50, 48] [120], tbMessage [49, 48] [120]] :=
    ⟨rfl, List.forall_iff_forall_mem.mp (by decide),
      List.forall_iff_forall_mem.mp (by decide),
      List.forall_iff_forall_mem.mp (by decide), by decide⟩
  have hwins := h _ _ _ _ hburst _ (List.Perm.refl _)
  have hne : (((oneChannel.msTbs ⟨160, true⟩ [tbMessage [50, 48] [120],
      tbMessage [49, 48] [120]]).topic 0).map TopicInfo.stamp
        == (List.argmin TbMessage.ts [tbMessage [50, 48] [120],
          tbMessage [49, 48] [120]]).map TbMessage.stamp) = false := by decide
  rw [hwins, beq_self_eq_true] at hne
  cases hne

end Bluebox.Chan
