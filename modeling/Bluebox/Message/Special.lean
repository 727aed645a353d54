/-
  Bluebox.Message.Special

  The targets of `PRIVMSG` and `NOTICE` (`build_target_list` and `handle_special` in
  `modules/core/m_message.c`), in any state of the hash tables.

  A lookup gives nothing where the source gives `NULL`.  There is no result at all where
  the source goes on with that pointer.
-/
import Bluebox.Channel.Table
import Bluebox.Nick.Hash
import Bluebox.Bandb.Params
import Mathlib.Data.List.Dedup

namespace Bluebox.Message

open Bluebox.Lib
open Bluebox.Chan (Membership findChannel chflChanop chflHalfop chflVoice)
open Bluebox.NickHash (World Kind serverMasks)

-- ============================================================================
-- Lookups
-- ============================================================================

/-- The clients and the channels, which of the clients are operators, and `max_targets`. -/
structure State where
  world : World
  table : Chan.Table
  oper : Nat → Bool
  maxTargets : Int

/-- `IsClient`. -/
def State.isClient (s : State) (c : Nat) : Bool := (s.world.client c).kind == .client

/-- `IsServer`. -/
def State.isServer (s : State) (c : Nat) : Bool := (s.world.client c).kind == .server

/-- `MyClient`. -/
def State.myClient (s : State) (c : Nat) : Bool := (s.world.client c).myConnect && s.isClient c

/-- `MyOper`. -/
def State.myOper (s : State) (c : Nat) : Bool := (s.world.client c).myConnect && s.oper c

/-- `find_named_client`. -/
def State.findNamedClient (s : State) (name : Bytes) : Option Nat :=
  if name = [] then none else s.world.clientTable.find? fun a => irccmp name (s.world.client a).name == 0

/-- `find_named_person`. -/
def State.findNamedPerson (s : State) (name : Bytes) : Option Nat := (s.findNamedClient name).filter s.isClient

/-- `find_person`. -/
def State.findPerson (s : State) (name : Bytes) : Option Nat := (s.world.findClient name).filter s.isClient

/-- The person that a source can mean: a local one cannot give an ID. -/
def State.person (s : State) (source : Nat) (name : Bytes) : Option Nat :=
  if s.myClient source then s.findNamedPerson name else s.findPerson name

/-- `hash_find_masked_server`. -/
def State.hashFindMaskedServer (s : State) (name : Bytes) : Option Nat :=
  if name.headD 0 = 42 ∨ name.headD 0 = 46 then none
  else (serverMasks (strlcpy name (hostLen + 1))).findSome? s.world.findServName

/-- `find_server`. -/
def State.findServer (s : State) (source : Nat) (name : Bytes) : Option Nat :=
  if name = [] then none
  else if !s.myClient source && isDigit (name.headD 0) && name.length == 3 then s.world.findId name
  else (s.world.findServName name).or (s.hashFindMaskedServer name)

/-- `find_channel_membership`. -/
def State.findMembership (s : State) (p c : Nat) : Option Membership :=
  if s.isClient c then (s.table.chan p).findMembership c else none

/-- `is_chanop_voiced`. -/
def isChanopVoiced (msptr : Option Membership) : Bool :=
  msptr.any fun m => m.flags &&& (chflChanop ||| chflHalfop ||| chflVoice) != 0

-- ============================================================================
-- Targets
-- ============================================================================

/-- A pointer of `struct entity`. -/
inductive Ptr
  | channel (p : Nat)
  | client (c : Nat)
deriving DecidableEq, Repr

/-- `struct entity`. -/
inductive Entity
  | channel (p : Nat)
  | chanopsOnChannel (p : Nat) (flags : UInt8)
  | client (c : Nat)
deriving DecidableEq, Repr

def Entity.ptr : Entity → Ptr
  | .channel p => .channel p
  | .chanopsOnChannel p _ => .channel p
  | .client c => .client c

/-- What is sent while the targets are read: replies to the source, the calls of
    `msg_client`, and `sendto_match_butone`. -/
inductive Event
  | tooManyTargets (nick : Bytes)
  | noSuchNick (nick : Bytes)
  | targetLeft (text : Bytes)
  | noRecipient
  | chanopPrivsNeeded (name : Bytes)
  | noSuchServer (name : Bytes)
  | notSupported (nick : Bytes)
  | notTopLevel (nick : Bytes)
  | wildTopLevel (nick : Bytes)
  | msgClient (target : Nat)
  | matchButone (mask : Bytes) (host : Bool) (nick : Bytes)
deriving DecidableEq, Repr

/-- `targets`, and what was sent. -/
structure Build where
  targets : List Entity
  events : List Event
deriving DecidableEq, Repr

def Build.say (b : Build) (e : Event) : Build := { b with events := b.events ++ [e] }

/-- A call of `m_message`: its source, whether `client_p` is a server, whether it is a
    `NOTICE`, and the text. -/
structure Send where
  source : Nat
  fromServer : Bool
  notice : Bool
  text : Bytes

/-- `duplicate_ptr`. -/
def duplicatePtr (targets : List Entity) (ptr : Ptr) : Bool := targets.any fun e => e.ptr == ptr

/-- A target that was found.  The second part is what `build_target_list` returns, when it
    returns here. -/
def Build.put (s : State) (b : Build) (e : Entity) (nick : Bytes) : Build × Option Int :=
  if duplicatePtr b.targets e.ptr then (b, none)
  else if (b.targets.length : Int) ≥ s.maxTargets then (b.say (.tooManyTargets nick), some 1)
  else ({ b with targets := b.targets ++ [e] }, none)

/-- `IsChanPrefix`. -/
def isChanPrefix (nick : Bytes) : Bool := nick.head? == some 35 || nick.head? == some 38

/-- The status before a channel, and what is behind it. -/
def statusType : UInt8 → Bytes → UInt8 × Bytes
  | type, [] => (type, [])
  | type, c :: nick =>
    if c = 64 then statusType (type ||| chflChanop) nick
    else if c = 37 then statusType (type ||| (chflChanop ||| chflHalfop)) nick
    else if c = 43 then statusType (type ||| (chflChanop ||| chflHalfop ||| chflVoice)) nick
    else (type, c :: nick)

/-- The mask of a `$` target, behind the sign: it needs a dot, and no wildcard behind the
    last one. -/
def maskEvent (nick : Bytes) : Event :=
  if 46 ∉ nick then .notTopLevel nick
  else if (nick.reverse.takeWhile (· != 46)).any (fun b => b == 42 || b == 63) then .wildTopLevel nick
  else .matchButone nick.tail (nick.head? == some 35) nick

/-- `handle_special`.  The server of the target is read without a test of the target. -/
def handleSpecial (s : State) (k : Send) (nick : Bytes) : Option (List Event) :=
  match strchr 64 nick with
  | some (user, server) =>
    match s.findServer k.source server with
    | none => some [.noSuchServer server]
    | some serverP =>
      (s.person k.source user).map fun targetP =>
        -- client is on wrong server, drop this message altogether
        if (s.world.client targetP).servptr ≠ serverP then [] else [.msgClient targetP]
  | none =>
    if s.oper k.source && nick.head? == some 36 then
      if nick.tail.head? == some 36 || nick.tail.head? == some 35 then some [maskEvent nick.tail]
      else if s.myOper k.source then some [.notSupported nick]
      else some [maskEvent nick]
    else some []

/-- One turn of the loop of `build_target_list`. -/
def buildTarget (s : State) (k : Send) (nick : Bytes) (b : Build) : Option (Build × Option Int) :=
  if isChanPrefix nick then
    if k.fromServer && nick.head? == some 38 then some (b, none)
    else
      match findChannel s.table nick with
      | some p => some (b.put s (.channel p) nick)
      | none => some (if k.notice then b else b.say (.noSuchNick nick), none)
  else
    match s.person k.source nick with
    | some c => some (b.put s (.client c) nick)
    | none =>
      if (statusType 0 nick).1 ≠ 0 then
        if (statusType 0 nick).2 = [] then some (b.say .noRecipient, none)
        else
          match findChannel s.table (statusType 0 nick).2 with
          | some p =>
            if !s.isServer k.source && !isChanopVoiced (s.findMembership p k.source) then
              some (b.say (.chanopPrivsNeeded nick), some (-1))
            else some (b.put s (.chanopsOnChannel p (statusType 0 nick).1) (statusType 0 nick).2)
          | none => some (if k.notice then b else b.say (.noSuchNick (statusType 0 nick).2), none)
      else if nick.contains 64 || (s.oper k.source && nick.head? == some 36) then
        (handleSpecial s k nick).map fun events => ({ b with events := b.events ++ events }, none)
      else if k.notice then some (b, none)
      else if !s.myClient k.source && isDigit (nick.headD 0) then some (b.say (.targetLeft (k.text.take 20)), none)
      else some (b.say (.noSuchNick nick), none)

/-- The loop. -/
def buildTargets (s : State) (k : Send) : List Bytes → Build → Option (Build × Int)
  | [], b => some (b, 1)
  | nick :: l, b =>
    match buildTarget s k nick b with
    | none => none
    | some (b, none) => buildTargets s k l b
    | some (b, some r) => some (b, r)

/-- What `rb_strtok_r` gives for commas. -/
def commaTokens (text : Bytes) : List Bytes := (text.splitOn 44).filter (· ≠ [])

/-- `build_target_list`. -/
def buildTargetList (s : State) (k : Send) (nicksChannels : Bytes) : Option (Build × Int) :=
  buildTargets s k (commaTokens nicksChannels) ⟨[], []⟩

-- ============================================================================
-- The targets that are missed
-- ============================================================================

/-- The pointer that a target names. -/
def State.names (s : State) (k : Send) (nick : Bytes) : Option Ptr :=
  if isChanPrefix nick then
    if k.fromServer && nick.head? == some 38 then none else (findChannel s.table nick).map .channel
  else
    match s.person k.source nick with
    | some c => some (.client c)
    | none => if (statusType 0 nick).1 ≠ 0 then (findChannel s.table (statusType 0 nick).2).map .channel else none

/-- The target is for those with a status on a channel where the source has none. -/
def State.Denied (s : State) (k : Send) (nick : Bytes) : Prop :=
  isChanPrefix nick = false ∧ s.person k.source nick = none ∧ (statusType 0 nick).1 ≠ 0 ∧
    ∃ p, findChannel s.table (statusType 0 nick).2 = some p ∧ s.isServer k.source = false ∧
      isChanopVoiced (s.findMembership p k.source) = false

/-- The targets do not end the loop: they name no more than `max_targets`, and none is
    denied. -/
def State.Passes (s : State) (k : Send) (l : List Bytes) : Prop :=
  (l.filterMap (s.names k)).dedup.length ≤ s.maxTargets.toNat ∧ ∀ nick ∈ l, ¬ s.Denied k nick

/-- The target is a user at a server, where the server is there and the user is not. -/
def State.Dangling (s : State) (k : Send) (nick : Bytes) : Prop :=
  isChanPrefix nick = false ∧ s.person k.source nick = none ∧ (statusType 0 nick).1 = 0 ∧
    ∃ user server, strchr 64 nick = some (user, server) ∧ (s.findServer k.source server).isSome ∧
      s.person k.source user = none

-- ============================================================================
-- The targets so far
-- ============================================================================

variable {s : State} {k : Send} {nick : Bytes} {l done : List Bytes} {b : Build} {e : Entity}

/-- The pointers of the targets are those that were named, once each. -/
structure Tracks (s : State) (k : Send) (done : List Bytes) (b : Build) : Prop where
  nodup : (b.targets.map Entity.ptr).Nodup
  named : ∀ x, x ∈ b.targets.map Entity.ptr ↔ x ∈ done.filterMap (s.names k)

theorem Tracks.length (h : Tracks s k done b) : (done.filterMap (s.names k)).dedup.length = b.targets.length := by
  have hperm : (b.targets.map Entity.ptr).Perm (done.filterMap (s.names k)).dedup := by
    rw [List.perm_ext_iff_of_nodup h.nodup (List.nodup_dedup _)]
    intro x
    rw [List.mem_dedup]
    exact h.named x
  rw [← hperm.length_eq, List.length_map]

theorem duplicatePtr_iff {targets : List Entity} {ptr : Ptr} :
    duplicatePtr targets ptr = true ↔ ptr ∈ targets.map Entity.ptr := by
  unfold duplicatePtr
  rw [List.any_eq_true, List.mem_map]
  exact exists_congr fun e => and_congr_right fun _ => beq_iff_eq

theorem Tracks.say (h : Tracks s k done b) (ev : Event) : Tracks s k done (b.say ev) := ⟨h.nodup, h.named⟩

/-- A target that names nothing. -/
theorem Tracks.skip (h : Tracks s k done b) (hnick : s.names k nick = none) : Tracks s k (done ++ [nick]) b := by
  refine ⟨h.nodup, fun x => ?_⟩
  rw [List.filterMap_append, List.filterMap_cons_none hnick, List.filterMap_nil, List.append_nil]
  exact h.named x

/-- A target that was named before. -/
theorem Tracks.again (h : Tracks s k done b) (hnick : s.names k nick = some e.ptr)
    (hdup : e.ptr ∈ b.targets.map Entity.ptr) : Tracks s k (done ++ [nick]) b := by
  refine ⟨h.nodup, fun x => ?_⟩
  rw [List.filterMap_append, List.filterMap_cons_some hnick, List.filterMap_nil, List.mem_append, ← h.named x,
    List.mem_singleton]
  refine ⟨Or.inl, fun hx => ?_⟩
  obtain hx | rfl := hx
  · exact hx
  · exact hdup

/-- A target that was not. -/
theorem Tracks.add (h : Tracks s k done b) (hnick : s.names k nick = some e.ptr)
    (hnew : e.ptr ∉ b.targets.map Entity.ptr) :
    Tracks s k (done ++ [nick]) { b with targets := b.targets ++ [e] } := by
  refine ⟨?_, fun x => ?_⟩
  · rw [List.map_append, List.map_singleton, ← List.concat_eq_append]
    exact List.Nodup.concat hnew h.nodup
  · rw [List.map_append, List.map_singleton, List.filterMap_append, List.filterMap_cons_some hnick, List.filterMap_nil,
      List.mem_append, List.mem_append, h.named x]

theorem State.Passes.of_append {l l' : List Bytes} (h : s.Passes k (l ++ l')) : s.Passes k l := by
  refine ⟨Nat.le_trans ?_ h.1, fun nick hnick => h.2 nick (List.mem_append_left l' hnick)⟩
  have hsub : (l.filterMap (s.names k)).dedup ⊆ ((l ++ l').filterMap (s.names k)).dedup := fun x hx => by
    rw [List.filterMap_append]
    exact List.mem_dedup.mpr (List.mem_append_left _ (List.mem_dedup.mp hx))
  exact (List.subperm_of_subset (List.nodup_dedup _) hsub).length_le

-- ============================================================================
-- One target
-- ============================================================================

/-- What a turn of the loop can be: it uses a pointer that it has not got, it ends the loop,
    or it goes on. -/
inductive Turn (s : State) (k : Send) (done : List Bytes) (nick : Bytes) : Option (Build × Option Int) → Prop
  | fault (h : s.Dangling k nick) : Turn s k done nick none
  | stop {b : Build} {r : Int} (h : ¬ s.Dangling k nick) (hstop : ¬ s.Passes k (done ++ [nick])) :
      Turn s k done nick (some (b, some r))
  | next {b : Build} (h : ¬ s.Dangling k nick) (hnext : s.Passes k (done ++ [nick]))
      (htracks : Tracks s k (done ++ [nick]) b) : Turn s k done nick (some (b, none))

theorem passes_concat_iff (hdone : s.Passes k done) (hdenied : ¬ s.Denied k nick) :
    s.Passes k (done ++ [nick]) ↔ ((done ++ [nick]).filterMap (s.names k)).dedup.length ≤ s.maxTargets.toNat := by
  refine and_iff_left fun n hn => ?_
  obtain hn | hn := List.mem_append.mp hn
  · exact hdone.2 n hn
  · exact List.mem_singleton.mp hn ▸ hdenied

/-- A target without a pointer. -/
theorem turn_skip (h : Tracks s k done b) (hdone : s.Passes k done) (hdangling : ¬ s.Dangling k nick)
    (hdenied : ¬ s.Denied k nick) (hnick : s.names k nick = none) : Turn s k done nick (some (b, none)) := by
  have htracks := h.skip hnick
  refine Turn.next hdangling ?_ htracks
  rw [passes_concat_iff hdone hdenied, htracks.length, ← h.length]
  exact hdone.1

/-- A target that is found. -/
theorem turn_put (h : Tracks s k done b) (hdone : s.Passes k done) (hdangling : ¬ s.Dangling k nick)
    (hdenied : ¬ s.Denied k nick) (hnick : s.names k nick = some e.ptr) (name : Bytes) :
    Turn s k done nick (some (b.put s e name)) := by
  have hpasses := passes_concat_iff hdone hdenied
  have hlength := hdone.1
  rw [h.length] at hlength
  unfold Build.put
  by_cases hdup : duplicatePtr b.targets e.ptr = true
  · rw [if_pos hdup]
    have htracks := h.again hnick (duplicatePtr_iff.mp hdup)
    refine Turn.next hdangling ?_ htracks
    rw [hpasses, htracks.length]
    exact hlength
  · have htracks := h.add hnick (fun hmem => hdup (duplicatePtr_iff.mpr hmem))
    rw [htracks.length, List.length_append, List.length_singleton] at hpasses
    rw [if_neg hdup]
    by_cases hmax : (b.targets.length : Int) ≥ s.maxTargets
    · rw [if_pos hmax]
      refine Turn.stop hdangling ?_
      rw [hpasses]
      omega
    · rw [if_neg hmax]
      refine Turn.next hdangling ?_ htracks
      rw [hpasses]
      omega

/-- `handle_special` has no result when the server of the target is there and the user is
    not. -/
theorem handleSpecial_eq_none_iff : handleSpecial s k nick = none ↔
    ∃ user server, strchr 64 nick = some (user, server) ∧ (s.findServer k.source server).isSome ∧
      s.person k.source user = none := by
  unfold handleSpecial
  cases hat : strchr 64 nick with
  | none =>
    refine iff_of_false ?_ (by rintro ⟨_, _, h, -⟩; cases h)
    dsimp only
    split
    · split
      · exact Option.some_ne_none _
      · split
        · exact Option.some_ne_none _
        · exact Option.some_ne_none _
    · exact Option.some_ne_none _
  | some parts =>
    obtain ⟨user, server⟩ := parts
    dsimp only
    cases hserver : s.findServer k.source server with
    | none =>
      refine iff_of_false (Option.some_ne_none _) ?_
      rintro ⟨_, _, h, hsome, -⟩
      obtain ⟨rfl, rfl⟩ := Prod.mk.inj (Option.some.inj h)
      rw [hserver] at hsome
      cases hsome
    | some serverP =>
      rw [Option.map_eq_none_iff]
      constructor
      · exact fun h => ⟨user, server, rfl, by rw [hserver]; rfl, h⟩
      · rintro ⟨_, _, h, -, huser⟩
        obtain ⟨rfl, rfl⟩ := Prod.mk.inj (Option.some.inj h)
        exact huser

/-- A channel is looked up and tested before it is a target. -/
theorem turn_channel (h : Tracks s k done b) (hdone : s.Passes k done) (hchan : isChanPrefix nick = true) :
    Turn s k done nick (buildTarget s k nick b) := by
  have hdangling : ¬ s.Dangling k nick := fun hd => Bool.noConfusion (hchan.symm.trans hd.1)
  have hdenied : ¬ s.Denied k nick := fun hd => Bool.noConfusion (hchan.symm.trans hd.1)
  have hnames : s.names k nick =
      if (k.fromServer && nick.head? == some 38) = true then none else (findChannel s.table nick).map .channel :=
    if_pos hchan
  unfold buildTarget
  rw [if_pos hchan]
  by_cases hlocal : (k.fromServer && nick.head? == some 38) = true
  · rw [if_pos hlocal] at hnames ⊢
    exact turn_skip h hdone hdangling hdenied hnames
  · rw [if_neg hlocal] at hnames ⊢
    cases hfind : findChannel s.table nick with
    | some p =>
      rw [hfind] at hnames
      exact turn_put (e := .channel p) h hdone hdangling hdenied hnames nick
    | none =>
      rw [hfind] at hnames
      dsimp only
      split
      · exact turn_skip h hdone hdangling hdenied hnames
      · exact turn_skip (h.say _) hdone hdangling hdenied hnames

/-- So is one behind a status, and the source has one too. -/
theorem turn_status (h : Tracks s k done b) (hdone : s.Passes k done) (hchan : isChanPrefix nick = false)
    (hperson : s.person k.source nick = none) (htype : (statusType 0 nick).1 ≠ 0) :
    Turn s k done nick (buildTarget s k nick b) := by
  have hdangling : ¬ s.Dangling k nick := fun hd => htype hd.2.2.1
  have hnames : s.names k nick = (findChannel s.table (statusType 0 nick).2).map .channel := by
    unfold State.names
    rw [if_neg (by rw [hchan]; exact Bool.false_ne_true), hperson]
    exact if_pos htype
  unfold buildTarget
  rw [if_neg (by rw [hchan]; exact Bool.false_ne_true), hperson]
  dsimp only
  rw [if_pos htype]
  by_cases hempty : (statusType 0 nick).2 = []
  · rw [if_pos hempty]
    rw [hempty] at hnames
    refine turn_skip (h.say _) hdone hdangling ?_ hnames
    rintro ⟨-, -, -, p, hfind, -⟩
    rw [hempty] at hfind
    cases hfind
  · rw [if_neg hempty]
    cases hfind : findChannel s.table (statusType 0 nick).2 with
    | none =>
      have hdenied : ¬ s.Denied k nick := by
        rintro ⟨-, -, -, p, hfind', -⟩
        rw [hfind] at hfind'
        cases hfind'
      rw [hfind] at hnames
      dsimp only
      split
      · exact turn_skip h hdone hdangling hdenied hnames
      · exact turn_skip (h.say _) hdone hdangling hdenied hnames
    | some p =>
      rw [hfind] at hnames
      dsimp only
      by_cases hpriv : (!s.isServer k.source && !isChanopVoiced (s.findMembership p k.source)) = true
      · rw [if_pos hpriv]
        rw [Bool.and_eq_true, Bool.not_eq_true', Bool.not_eq_true'] at hpriv
        refine Turn.stop hdangling fun hpasses => ?_
        exact hpasses.2 nick (List.mem_append_right done List.mem_cons_self)
          ⟨hchan, hperson, htype, p, hfind, hpriv⟩
      · rw [if_neg hpriv]
        have hdenied : ¬ s.Denied k nick := by
          rintro ⟨-, -, -, p', hfind', hpriv'⟩
          obtain rfl := Option.some.inj (hfind.symm.trans hfind')
          rw [Bool.and_eq_true, Bool.not_eq_true', Bool.not_eq_true'] at hpriv
          exact hpriv hpriv'
        exact turn_put (e := .chanopsOnChannel p (statusType 0 nick).1) h hdone hdangling hdenied hnames _

/-- One turn of the loop. -/
theorem turn_buildTarget (h : Tracks s k done b) (hdone : s.Passes k done) (nick : Bytes) :
    Turn s k done nick (buildTarget s k nick b) := by
  by_cases hchan : isChanPrefix nick = true
  · exact turn_channel h hdone hchan
  have hchan' : isChanPrefix nick = false := Bool.not_eq_true _ ▸ hchan
  cases hperson : s.person k.source nick with
  | some c =>
    have hdangling : ¬ s.Dangling k nick := fun hd => Option.some_ne_none c (hperson.symm.trans hd.2.1)
    have hdenied : ¬ s.Denied k nick := fun hd => Option.some_ne_none c (hperson.symm.trans hd.2.1)
    have hnames : s.names k nick = some (Ptr.client c) := by
      unfold State.names
      rw [if_neg hchan, hperson]
    unfold buildTarget
    rw [if_neg hchan, hperson]
    exact turn_put (e := .client c) h hdone hdangling hdenied hnames nick
  | none =>
    by_cases htype : (statusType 0 nick).1 ≠ 0
    · exact turn_status h hdone hchan' hperson htype
    · have hdenied : ¬ s.Denied k nick := fun hd => htype hd.2.2.1
      have hnames : s.names k nick = none := by
        unfold State.names
        rw [if_neg hchan, hperson]
        exact if_neg htype
      have hdangling_iff : s.Dangling k nick ↔ handleSpecial s k nick = none := by
        rw [handleSpecial_eq_none_iff]
        exact ⟨fun hd => hd.2.2.2, fun hs => ⟨hchan', hperson, not_not.mp htype, hs⟩⟩
      unfold buildTarget
      rw [if_neg hchan, hperson]
      dsimp only
      rw [if_neg htype]
      by_cases hspecial : (nick.contains 64 || (s.oper k.source && nick.head? == some 36)) = true
      · rw [if_pos hspecial]
        cases hhandle : handleSpecial s k nick with
        | none => exact Turn.fault (hdangling_iff.mpr hhandle)
        | some events =>
          have hdangling : ¬ s.Dangling k nick := fun hd =>
            Option.some_ne_none events (hhandle.symm.trans (hdangling_iff.mp hd))
          exact turn_skip (b := { b with events := b.events ++ events }) ⟨h.nodup, h.named⟩ hdone hdangling hdenied hnames
      · rw [if_neg hspecial]
        have hdangling : ¬ s.Dangling k nick := by
          rintro ⟨-, -, -, user, server, hat, -⟩
          refine hspecial (Bool.or_eq_true_iff.mpr (Or.inl ?_))
          rw [List.contains_iff_mem, (strchr_eq_some hat).1]
          exact List.mem_append_right user List.mem_cons_self
        split
        · exact turn_skip h hdone hdangling hdenied hnames
        · split
          · exact turn_skip (h.say _) hdone hdangling hdenied hnames
          · exact turn_skip (h.say _) hdone hdangling hdenied hnames

-- ============================================================================
-- The list
-- ============================================================================

theorem buildTargets_eq_none_iff (l : List Bytes) : ∀ {done : List Bytes} {b : Build}, Tracks s k done b →
    s.Passes k done →
      (buildTargets s k l b = none ↔
        ∃ l₁ nick l₂, l = l₁ ++ nick :: l₂ ∧ s.Passes k (done ++ l₁) ∧ s.Dangling k nick) := by
  induction l with
  | nil =>
    intro done b _ _
    refine iff_of_false (Option.some_ne_none _) ?_
    rintro ⟨l₁, nick, l₂, h, -⟩
    exact List.append_ne_nil_of_right_ne_nil l₁ (List.cons_ne_nil nick l₂) h.symm
  | cons nick l ih =>
    intro done b h hdone
    have hturn := turn_buildTarget h hdone nick
    unfold buildTargets
    cases hresult : buildTarget s k nick b with
    | none =>
      rw [hresult] at hturn
      obtain ⟨hd⟩ := hturn
      exact iff_of_true rfl ⟨[], nick, l, rfl, by rwa [List.append_nil], hd⟩
    | some result =>
      rw [hresult] at hturn
      obtain ⟨b', r⟩ := result
      cases r with
      | some r =>
        obtain - | ⟨hdangling, hstop⟩ := hturn
        refine iff_of_false (Option.some_ne_none _) ?_
        rintro ⟨l₁, nick', l₂, hl, hpasses, hd⟩
        -- the loop would have to go past the target that ends it
        cases l₁ with
        | nil =>
          obtain ⟨rfl, rfl⟩ := List.cons.inj hl
          exact hdangling hd
        | cons n l₁ =>
          obtain ⟨rfl, rfl⟩ := List.cons.inj hl
          rw [List.append_cons] at hpasses
          exact hstop hpasses.of_append
      | none =>
        obtain - | - | ⟨hdangling, hnext, htracks⟩ := hturn
        dsimp only
        rw [ih htracks hnext]
        constructor
        · rintro ⟨l₁, nick', l₂, rfl, hpasses, hd⟩
          refine ⟨nick :: l₁, nick', l₂, rfl, ?_, hd⟩
          rwa [List.append_cons]
        · rintro ⟨l₁, nick', l₂, hl, hpasses, hd⟩
          cases l₁ with
          | nil =>
            obtain ⟨rfl, rfl⟩ := List.cons.inj hl
            exact absurd hd hdangling
          | cons n l₁ =>
            obtain ⟨rfl, rfl⟩ := List.cons.inj hl
            rw [List.append_cons] at hpasses
            exact ⟨l₁, nick', l₂, rfl, hpasses, hd⟩

theorem tracks_start : Tracks s k [] ⟨[], []⟩ := ⟨List.nodup_nil, fun _ => Iff.rfl⟩

theorem passes_nil : s.Passes k [] := ⟨Nat.zero_le _, fun _ h => absurd h List.not_mem_nil⟩

/-- The targets are read without a pointer that was not found. -/
def LookupsOk (s : State) (k : Send) (nicksChannels : Bytes) : Prop := buildTargetList s k nicksChannels ≠ none

/-- So they are when no target that the loop comes to is a user, who is not there, at a
    server that is. -/
theorem lookupsOk_iff (s : State) (k : Send) (nicksChannels : Bytes) : LookupsOk s k nicksChannels ↔
    ∀ l₁ nick l₂, commaTokens nicksChannels = l₁ ++ nick :: l₂ → s.Passes k l₁ → ¬ s.Dangling k nick := by
  unfold LookupsOk buildTargetList
  rw [Ne, buildTargets_eq_none_iff _ tracks_start passes_nil]
  constructor
  · exact fun h l₁ nick l₂ hl hpasses hd => h ⟨l₁, nick, l₂, hl, hpasses, hd⟩
  · rintro h ⟨l₁, nick, l₂, hl, hpasses, hd⟩
    exact h l₁ nick l₂ hl hpasses hd

/-- A server `a.b` with one local user, `u`. -/
def lonelyState : State where
  world := {
    client := fun c =>
      if c = 0 then ⟨.me, [97, 46, 98], [], 0, [], [], false, 0, 0, false⟩
      else ⟨.client, [117], [], 0, [], [], true, 1, 0, false⟩
    next := 2
    clientTable := [1, 0]
    idTable := []
    unknownList := []
    currentUid := [] }
  table := Chan.Table.start
  oper := fun _ => false
  maxTargets := 4

/-- `PRIVMSG x@a.b` of `u`. -/
theorem not_lookupsOk : ¬ LookupsOk lonelyState ⟨1, false, false, [104, 105]⟩ [120, 64, 97, 46, 98] := by
  have hnone : buildTargetList lonelyState ⟨1, false, false, [104, 105]⟩ [120, 64, 97, 46, 98] = none := by decide
  exact fun h => h hnone

end Bluebox.Message
