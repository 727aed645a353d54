/-
  Bluebox.Bandb.Reload

  The reload of the bans from the database: `bandb_parse` of `libratboxcore/bandbi.c`
  and the tables that it clears and fills again.

  The bans that the helper lists wait in `bandb_pending` until the letter F.  The case
  for the letter C, which only schedules a clear of what waits, has no break and goes
  on into the case for F: all permanent bans are gone until the end of the list.  A
  D-line that is loaded also takes its slot of the tree from one that is there.
-/
import Bluebox.Atable
import Bluebox.Bandb.Masks
import Bluebox.Dline.Linked

namespace Bluebox.Bandb

open Bluebox.Lib

-- ============================================================================
-- Tables
-- ============================================================================

/-- The `ConfItem` of a ban; the operator's name and the counters play no role. -/
structure Entry where
  status : Status
  user : Option Bytes
  host : Bytes
  passwd : Bytes
  spasswd : Option Bytes
  temporary : Bool
deriving DecidableEq, Repr

/-- A new ban of the list. -/
def Conf.entry (c : Conf) : Entry := ⟨c.status, c.user, c.host, c.passwd, c.spasswd, false⟩

/-- `atable`, `xline_conf_list`, `resvTable` and `resv_conf_list`.  The chains of
    `resvTable` are one list: names that `irccmp` finds equal have the same chain. -/
structure Tables where
  atable : Atable Entry
  xlineConfList : List Entry
  resvTable : List Entry
  resvConfList : List Entry

/-- The server, as far as the reload sees it. -/
structure State where
  tables : Tables
  dline : Dline.World
  pending : List Entry

section Code

variable (cfg : Dline.Config)

/-- `bandb_check_kline`. -/
def Tables.bandbCheckKline (t : Tables) (aconf : Entry) : Bool :=
  let user := aconf.user.getD []
  let addr := (parseNetmask cfg.pton aconf.host).map fun mask => (mask.v6, mask.addr)
  let kconf := findConfByAddress t.atable aconf.host none addr .kill user
  !(kconf.any fun r => !r.conf.temporary) && validUserHost user aconf.host

/-- `bandb_check_dline`. -/
def bandbCheckDline (aconf : Entry) : Bool := (parseNetmask cfg.pton aconf.host).isSome

/-- `bandb_check_xline`. -/
def Tables.bandbCheckXline (t : Tables) (aconf : Entry) : Bool :=
  !((t.xlineConfList.find? fun x => irccmp x.host aconf.host == 0).any fun x => !x.temporary)

/-- `bandb_check_resv_channel`. -/
def Tables.bandbCheckResvChannel (t : Tables) (aconf : Entry) : Bool :=
  (t.resvTable.find? fun r => irccmp aconf.host r.host == 0).isNone &&
    decide (aconf.host.length ≤ Chan.channelLen) && Chan.checkChannelName aconf.host

/-- `bandb_check_resv_nick`. -/
def Tables.bandbCheckResvNick (t : Tables) (aconf : Entry) : Bool :=
  cleanResvNick aconf.host && (t.resvConfList.find? fun r => matchEsc r.host aconf.host).isNone

/-- The check for a ban of `bandb_pending`. -/
def Tables.check (t : Tables) (aconf : Entry) : Bool :=
  match aconf.status with
  | .kill => t.bandbCheckKline cfg aconf
  | .dline => bandbCheckDline cfg aconf
  | .xline => t.bandbCheckXline aconf
  | .resvChannel => t.bandbCheckResvChannel aconf
  | .resvNick => t.bandbCheckResvNick aconf

/-- A ban that passed its check goes to its table.  D-lines are not in these. -/
def Tables.add (t : Tables) (aconf : Entry) : Tables :=
  match aconf.status with
  | .kill =>
    { t with atable := addConfByAddress cfg.pton t.atable aconf.host .kill (aconf.user.getD []) aconf }
  | .dline => t
  | .xline => { t with xlineConfList := aconf :: t.xlineConfList }
  | .resvChannel => { t with resvTable := aconf :: t.resvTable }
  | .resvNick => { t with resvConfList := aconf :: t.resvConfList }

/-- `clear_out_address_conf_bans` and `clear_s_newconf_bans`. -/
def Tables.clear (t : Tables) : Tables where
  atable := clearOutAddressConfBans Entry.temporary t.atable
  xlineConfList := t.xlineConfList.filter Entry.temporary
  resvTable := t.resvTable.filter Entry.temporary
  resvConfList := t.resvConfList.filter Entry.temporary

/-- One ban in the loop of `bandb_handle_finish`. -/
def State.place (s : State) (aconf : Entry) : Option State :=
  if s.tables.check cfg aconf then
    if aconf.status = .dline then
      (s.dline.addRow cfg (aconf.host, false)).map fun w => { s with dline := w }
    else some { s with tables := s.tables.add cfg aconf }
  else some s

/-- `bandb_handle_clear`. -/
def State.bandbHandleClear (s : State) : State := { s with pending := [] }

/-- `bandb_handle_finish`. -/
def State.bandbHandleFinish (s : State) : Option State :=
  s.dline.removePermDlines.bind fun w =>
    s.pending.foldlM (State.place cfg) ⟨s.tables.clear, w, []⟩

/-- One line in the loop of `bandb_parse`.  The server ends at the letter of a
    failure. -/
def State.bandbParseLine (s : State) (line : Bytes) : Option State :=
  let parv := rbStringToArray line maxPara
  let letter := (parv.headD []).headD 0
  match banTypes.find? fun type => type.letter == letter with
  | some type => (bandbHandleBan [] type parv).map fun c => { s with pending := c.entry :: s.pending }
  | none =>
    if letter = 33 then none
    -- the case for C has no break
    else if letter = 67 then s.bandbHandleClear.bandbHandleFinish cfg
    else if letter = 70 then s.bandbHandleFinish cfg
    else some s

/-- `bandb_parse`, with the lines that have come in. -/
def State.bandbParse (s : State) (lines : List Bytes) : Option State :=
  lines.foldlM (State.bandbParseLine cfg) s

end Code

-- ============================================================================
-- Bans in force
-- ============================================================================

/-- The tables by what they hold. -/
inductive Table
  | klines
  | glines
  | xlines
  | resvChannels
  | resvNicks
deriving DecidableEq, Repr

/-- What a table holds. -/
def Tables.entries (t : Tables) : Table → Set Entry
  | .klines => {e | ∃ r, t.atable.Has r ∧ r.type = .kill ∧ r.conf = e}
  | .glines => {e | ∃ r, t.atable.Has r ∧ r.type = .gline ∧ r.conf = e}
  | .xlines => {e | e ∈ t.xlineConfList}
  | .resvChannels => {e | e ∈ t.resvTable}
  | .resvNicks => {e | e ∈ t.resvConfList}

/-- The table for a status. -/
def Status.table : Status → Option Table
  | .kill => some .klines
  | .dline => none
  | .xline => some .xlines
  | .resvChannel => some .resvChannels
  | .resvNick => some .resvNicks

/-- The bans of all tables; D-lines by their hosts. -/
@[ext]
structure Bans where
  entries : Table → Set Entry
  dlines : Set Bytes

/-- The temporary or permanent bans in force. -/
def State.bans (s : State) (temporary : Bool) : Bans where
  entries := fun k => {e | e ∈ s.tables.entries k ∧ e.temporary = temporary}
  dlines := s.dline.hosts temporary

/-- No bans. -/
def Bans.none : Bans := ⟨fun _ => ∅, ∅⟩

/-- The bans of a list. -/
def listedBans (l : List Entry) : Bans where
  entries := fun k => {e | e ∈ l ∧ e.status.table = some k}
  dlines := {host | ∃ e ∈ l, e.status = .dline ∧ e.host = host}

/-- The bans that pass their checks, one after the other. -/
def passing (cfg : Dline.Config) (t : Tables) : List Entry → List Entry
  | [] => []
  | e :: l => if t.check cfg e then e :: passing cfg (t.add cfg e) l else passing cfg t l

/-- A stream of `list_bans` with some lines for bans. -/
def banStream (lines : List Bytes) : List Bytes := [67] :: lines ++ [[70]]

/-- The bans of the lines, in the order of `bandb_pending`. -/
def pendingOf (lines : List Bytes) : List Entry :=
  (lines.filterMap fun line => (bandbParseBan [] line).map Conf.entry).reverse

/-- The reload is atomic: however the stream is split over the calls of `bandb_parse`,
    the permanent bans are the old ones until the end, and then those of the list that
    pass their checks; the temporary ones never change. -/
def Atomic (cfg : Dline.Config) (s : State) (lines : List Bytes) : Prop :=
  ∀ (calls : List (List Bytes)) (rest : List Bytes), calls.flatten ++ rest = banStream lines →
    ∃ s' : State, calls.foldlM (State.bandbParse cfg) s = some s' ∧ s'.bans true = s.bans true ∧
      (rest ≠ [] → s'.bans false = s.bans false) ∧
      (rest = [] → s'.bans false = listedBans (passing cfg s.tables.clear (pendingOf lines)))

/-- No permanent ban is in force, and no D-line of the list has the slot of a
    temporary one or of another one of the list. -/
structure Undisturbed (cfg : Dline.Config) (s : State) (lines : List Bytes) : Prop where
  no_old : s.bans false = Bans.none
  temp_free : ∀ e ∈ pendingOf lines, e.status = .dline → s.dline.tempAt cfg e.host = false
  one_host : ∀ e ∈ pendingOf lines, ∀ e' ∈ pendingOf lines, e.status = .dline →
    e'.status = .dline → Dline.SameSlot cfg e.host e'.host → e.host = e'.host

-- ============================================================================
-- The tables
-- ============================================================================

variable {cfg : Dline.Config}

theorem mem_addConfByAddress {t : Atable Entry} {address username : Bytes} {conf : Entry}
    {r : AddressRec Entry} :
    Atable.Has (addConfByAddress cfg.pton t address .kill username conf) r ↔
      r = mkAddressRec cfg.pton address .kill username conf ∨ t.Has r := by
  unfold addConfByAddress Atable.Has
  generalize mkAddressRec cfg.pton address .kill username conf = new
  constructor
  · rintro ⟨hv, hr⟩
    by_cases hchain : hv = new.chain
    · subst hchain
      rw [Function.update_self] at hr
      obtain rfl | hr := List.mem_cons.mp hr
      · exact Or.inl rfl
      · exact Or.inr ⟨_, hr⟩
    · rw [Function.update_of_ne hchain] at hr
      exact Or.inr ⟨hv, hr⟩
  · rintro (rfl | ⟨hv, hr⟩)
    · refine ⟨r.chain, ?_⟩
      rw [Function.update_self]
      exact List.mem_cons_self
    · by_cases hchain : hv = new.chain
      · subst hchain
        refine ⟨new.chain, ?_⟩
        rw [Function.update_self]
        exact List.mem_cons_of_mem _ hr
      · refine ⟨hv, ?_⟩
        rw [Function.update_of_ne hchain]
        exact hr

/-- A ban goes to its table and to no other. -/
theorem Tables.mem_entries_add {t : Tables} {e x : Entry} {k : Table} :
    x ∈ (t.add cfg e).entries k ↔ x ∈ t.entries k ∨ x = e ∧ e.status.table = some k := by
  unfold Tables.add
  cases hstatus : e.status with
  | kill =>
    have hrec : ∀ type, (∃ r, Atable.Has (addConfByAddress cfg.pton t.atable e.host .kill
        (e.user.getD []) e) r ∧ r.type = type ∧ r.conf = x) ↔
          (∃ r, t.atable.Has r ∧ r.type = type ∧ r.conf = x) ∨ x = e ∧ type = .kill := by
      intro type
      simp only [mem_addConfByAddress]
      constructor
      · rintro ⟨r, rfl | hr, rfl, rfl⟩
        · exact Or.inr ⟨rfl, rfl⟩
        · exact Or.inl ⟨r, hr, rfl, rfl⟩
      · rintro (⟨r, hr, rfl, rfl⟩ | ⟨rfl, rfl⟩)
        · exact ⟨r, Or.inr hr, rfl, rfl⟩
        · exact ⟨_, Or.inl rfl, rfl, rfl⟩
    cases k with
    | klines => simpa [Tables.entries, Status.table] using hrec .kill
    | glines => simpa [Tables.entries, Status.table] using hrec .gline
    | xlines => simp [Tables.entries, Status.table]
    | resvChannels => simp [Tables.entries, Status.table]
    | resvNicks => simp [Tables.entries, Status.table]
  | dline => simp [Status.table]
  | xline => cases k <;> simp [Tables.entries, Status.table, or_comm]
  | resvChannel => cases k <;> simp [Tables.entries, Status.table, or_comm]
  | resvNick => cases k <;> simp [Tables.entries, Status.table, or_comm]

/-- A clear leaves the temporary bans. -/
theorem Tables.mem_entries_clear {t : Tables} {x : Entry} {k : Table} :
    x ∈ t.clear.entries k ↔ x ∈ t.entries k ∧ x.temporary = true := by
  have hrec : ∀ type, type ≠ RecType.client → type ≠ RecType.exemptDline →
      ((∃ r, t.clear.atable.Has r ∧ r.type = type ∧ r.conf = x) ↔
        (∃ r, t.atable.Has r ∧ r.type = type ∧ r.conf = x) ∧ x.temporary = true) := by
    intro type hclient hexempt
    constructor
    · rintro ⟨r, ⟨hv, hr⟩, rfl, rfl⟩
      obtain ⟨hr, hkeep⟩ := List.mem_filter.mp hr
      simp only [Bool.or_eq_true, beq_iff_eq, hclient, hexempt, or_false] at hkeep
      exact ⟨⟨r, ⟨hv, hr⟩, rfl, rfl⟩, hkeep⟩
    · rintro ⟨⟨r, ⟨hv, hr⟩, rfl, rfl⟩, ht⟩
      refine ⟨r, ⟨hv, List.mem_filter.mpr ⟨hr, ?_⟩⟩, rfl, rfl⟩
      rw [ht, Bool.true_or, Bool.true_or]
  cases k with
  | klines => exact hrec .kill (by decide) (by decide)
  | glines => exact hrec .gline (by decide) (by decide)
  | xlines => exact List.mem_filter
  | resvChannels => exact List.mem_filter
  | resvNicks => exact List.mem_filter

theorem Tables.clear_clear (t : Tables) : t.clear.clear = t.clear := by
  unfold Tables.clear clearOutAddressConfBans
  simp only [List.filter_filter, Bool.and_self]

/-- The bans of a list that pass are the ones that the tables get. -/
theorem Tables.mem_entries_foldl {x : Entry} {k : Table} (l : List Entry) : ∀ {t : Tables},
    x ∈ (l.foldl (Tables.add cfg) t).entries k ↔
      x ∈ t.entries k ∨ x ∈ l ∧ x.status.table = some k := by
  induction l with
  | nil => intro t; simp
  | cons e l ih =>
    intro t
    rw [List.foldl_cons, ih, Tables.mem_entries_add, List.mem_cons]
    constructor
    · rintro ((hx | ⟨rfl, htable⟩) | ⟨hx, htable⟩)
      · exact Or.inl hx
      · exact Or.inr ⟨Or.inl rfl, htable⟩
      · exact Or.inr ⟨Or.inr hx, htable⟩
    · rintro (hx | ⟨rfl | hx, htable⟩)
      · exact Or.inl (Or.inl hx)
      · exact Or.inl (Or.inr ⟨rfl, htable⟩)
      · exact Or.inr ⟨hx, htable⟩

theorem mem_of_mem_passing {e : Entry} (l : List Entry) : ∀ {t : Tables},
    e ∈ passing cfg t l → e ∈ l := by
  induction l with
  | nil => intro t h; exact h
  | cons x l ih =>
    intro t h
    rw [passing] at h
    split at h
    · obtain rfl | h := List.mem_cons.mp h
      · exact List.mem_cons_self
      · exact List.mem_cons_of_mem x (ih h)
    · exact List.mem_cons_of_mem x (ih h)

/-- A D-line passes when its host is an address. -/
theorem dline_mem_passing {e : Entry} (hdline : e.status = .dline) (l : List Entry) :
    ∀ {t : Tables}, e ∈ passing cfg t l ↔ e ∈ l ∧ (parseNetmask cfg.pton e.host).isSome = true := by
  induction l with
  | nil => intro t; simp [passing]
  | cons x l ih =>
    intro t
    rw [passing, List.mem_cons]
    by_cases hx : t.check cfg x = true
    · rw [if_pos hx, List.mem_cons, ih]
      constructor
      · rintro (rfl | ⟨he, hvalid⟩)
        · refine ⟨Or.inl rfl, ?_⟩
          unfold Tables.check at hx
          rw [hdline] at hx
          exact hx
        · exact ⟨Or.inr he, hvalid⟩
      · rintro ⟨rfl | he, hvalid⟩
        · exact Or.inl rfl
        · exact Or.inr ⟨he, hvalid⟩
    · rw [if_neg hx, ih]
      refine and_congr_left fun hvalid => ⟨Or.inr, fun he => he.resolve_left ?_⟩
      rintro rfl
      refine hx ?_
      unfold Tables.check
      rw [hdline]
      exact hvalid

/-- The hosts of the D-lines in a list. -/
def dlineHosts (l : List Entry) : List Bytes :=
  (l.filter fun e => e.status == .dline).map Entry.host

theorem mem_dlineHosts {l : List Entry} {host : Bytes} :
    host ∈ dlineHosts l ↔ ∃ e ∈ l, e.status = .dline ∧ e.host = host := by
  simp [dlineHosts, and_assoc]

-- ============================================================================
-- bandb_handle_finish
-- ============================================================================

/-- The loop of `bandb_handle_finish`: the tables and the D-lines get what passes. -/
theorem place_foldlM (l : List Entry) : ∀ (s : State) (w : Dline.World),
    s.dline.addHosts cfg (dlineHosts (passing cfg s.tables l)) = some w →
    l.foldlM (State.place cfg) s
      = some ⟨(passing cfg s.tables l).foldl (Tables.add cfg) s.tables, w, s.pending⟩ := by
  induction l with
  | nil =>
    intro s w hw
    obtain rfl := Option.some.inj hw
    rfl
  | cons e l ih =>
    intro s w hw
    rw [List.foldlM_cons, passing] at *
    unfold State.place
    by_cases hcheck : s.tables.check cfg e = true
    · rw [if_pos hcheck] at hw ⊢
      rw [if_pos hcheck, List.foldl_cons]
      by_cases hdline : e.status = .dline
      · have hadd : s.tables.add cfg e = s.tables := by
          unfold Tables.add
          rw [hdline]
        have hhosts : dlineHosts (e :: passing cfg s.tables l)
            = e.host :: dlineHosts (passing cfg s.tables l) := by
          simp [dlineHosts, hdline]
        rw [hadd] at hw ⊢
        rw [hhosts, Dline.World.addHosts, List.foldlM_cons] at hw
        obtain ⟨v, hv, hw⟩ := Option.bind_eq_some_iff.mp hw
        rw [if_pos hdline, hv]
        exact ih { s with dline := v } w hw
      · have hhosts : ∀ m, dlineHosts (e :: m) = dlineHosts m := by
          intro m
          simp [dlineHosts, hdline]
        rw [hhosts] at hw
        rw [if_neg hdline]
        exact ih { s with tables := s.tables.add cfg e } w hw
    · rw [if_neg hcheck] at hw ⊢
      rw [if_neg hcheck]
      exact ih s w hw

/-- What `bandb_handle_finish` does: the permanent bans go, and what passes comes. -/
theorem finish_spec {s : State} (h : s.dline.Linked cfg) :
    ∃ (s' : State) (v : Dline.World), s.bandbHandleFinish cfg = some s' ∧
      s'.dline.Linked cfg ∧ s'.pending = [] ∧
      s'.tables = (passing cfg s.tables.clear s.pending).foldl (Tables.add cfg) s.tables.clear ∧
      v.Linked cfg ∧ v.hosts true = s.dline.hosts true ∧ v.hosts false = ∅ ∧
      (∀ host, v.tempAt cfg host = s.dline.tempAt cfg host) ∧
      v.addHosts cfg (dlineHosts (passing cfg s.tables.clear s.pending)) = some s'.dline := by
  obtain ⟨v, hv, hlinked, htrue, hfalse, htemp⟩ := h.removePermDlines_hosts
  have hvalid : ∀ host ∈ dlineHosts (passing cfg s.tables.clear s.pending),
      (parseNetmask cfg.pton host).isSome = true := by
    intro host hhost
    obtain ⟨e, he, hdline, rfl⟩ := mem_dlineHosts.mp hhost
    exact ((dline_mem_passing hdline _).mp he).2
  obtain ⟨w, hw, hlinked'⟩ := hlinked.addHosts hvalid
  refine ⟨⟨(passing cfg s.tables.clear s.pending).foldl (Tables.add cfg) s.tables.clear, w, []⟩, v,
    ?_, hlinked', rfl, rfl, hlinked, htrue, hfalse, htemp, hw⟩
  unfold State.bandbHandleFinish
  rw [hv]
  exact place_foldlM s.pending ⟨s.tables.clear, v, []⟩ w hw

/-- The bans that are left of a server when nothing waits. -/
theorem finish_nil {s : State} (h : s.dline.Linked cfg) (hpending : s.pending = []) :
    ∃ s' : State, s.bandbHandleFinish cfg = some s' ∧ s'.dline.Linked cfg ∧ s'.pending = [] ∧
      s'.tables = s.tables.clear ∧ s'.bans true = s.bans true ∧ s'.bans false = Bans.none ∧
      ∀ host, s'.dline.tempAt cfg host = s.dline.tempAt cfg host := by
  obtain ⟨s', v, hs, hlinked, hnil, htables, -, htrue, hfalse, htemp, hv⟩ := finish_spec h
  rw [hpending] at htables hv
  obtain rfl := Option.some.inj hv
  have htables : s'.tables = s.tables.clear := htables
  refine ⟨s', hs, hlinked, hnil, htables, ?_, ?_, htemp⟩
  · refine Bans.ext ?_ htrue
    funext k
    ext e
    show e ∈ s'.tables.entries k ∧ _ ↔ _
    rw [htables, Tables.mem_entries_clear]
    exact ⟨fun he => ⟨he.1.1, he.2⟩, fun he => ⟨⟨he.1, he.2⟩, he.2⟩⟩
  · refine Bans.ext ?_ hfalse
    funext k
    refine Set.eq_empty_of_forall_notMem fun e he => ?_
    obtain ⟨he, hperm⟩ := he
    rw [htables, Tables.mem_entries_clear, hperm] at he
    cases he.2

/-- The permanent bans of a list that pass their checks, in force. -/
theorem bans_of_passing {s' : State} {t : Tables} {l : List Entry}
    (hnone : ∀ k, ∀ e ∈ t.entries k, e.temporary = true) (hl : ∀ e ∈ l, e.temporary = false)
    (htables : s'.tables = l.foldl (Tables.add cfg) t) :
    (s'.bans false).entries = (listedBans l).entries ∧
      (s'.bans true).entries = fun k => t.entries k := by
  constructor
  · funext k
    ext e
    show e ∈ s'.tables.entries k ∧ _ ↔ _
    rw [htables, Tables.mem_entries_foldl]
    constructor
    · rintro ⟨he | he, hperm⟩
      · rw [hnone k e he] at hperm
        cases hperm
      · exact he
    · intro he
      exact ⟨Or.inr he, hl e he.1⟩
  · funext k
    ext e
    show e ∈ s'.tables.entries k ∧ _ ↔ _
    rw [htables, Tables.mem_entries_foldl]
    constructor
    · rintro ⟨he | he, htemp⟩
      · exact he
      · rw [hl e he.1] at htemp
        cases htemp
    · intro he
      exact ⟨Or.inl he, hnone k e he⟩

-- ============================================================================
-- bandb_parse
-- ============================================================================

theorem bandbParse_calls (calls : List (List Bytes)) : ∀ s : State,
    calls.foldlM (State.bandbParse cfg) s = calls.flatten.foldlM (State.bandbParseLine cfg) s := by
  induction calls with
  | nil => intro s; rfl
  | cons lines calls ih =>
    intro s
    rw [List.foldlM_cons, List.flatten_cons, List.foldlM_append]
    exact congrArg _ (funext ih)

theorem bandbParseLine_clear (s : State) :
    s.bandbParseLine cfg [67] = s.bandbHandleClear.bandbHandleFinish cfg := rfl

theorem bandbParseLine_finish (s : State) :
    s.bandbParseLine cfg [70] = s.bandbHandleFinish cfg := rfl

theorem bandbParseLine_ban {line : Bytes} {c : Conf} (h : bandbParseBan [] line = some c)
    (s : State) :
    s.bandbParseLine cfg line = some { s with pending := c.entry :: s.pending } := by
  obtain ⟨type, htype, hban⟩ := Option.bind_eq_some_iff.mp h
  unfold State.bandbParseLine
  simp only [htype, hban, Option.map_some]

/-- Lines with bans only fill `bandb_pending`. -/
theorem bandbParseLine_bans {lines : List Bytes}
    (hlines : ∀ line ∈ lines, (bandbParseBan [] line).isSome = true) : ∀ s : State,
    lines.foldlM (State.bandbParseLine cfg) s
      = some { s with pending := pendingOf lines ++ s.pending } := by
  induction lines with
  | nil => intro s; rfl
  | cons line lines ih =>
    intro s
    obtain ⟨c, hc⟩ := Option.isSome_iff_exists.mp (hlines line List.mem_cons_self)
    rw [List.foldlM_cons, bandbParseLine_ban hc, Option.bind_eq_bind, Option.bind_some,
      ih fun l hl => hlines l (List.mem_cons_of_mem line hl)]
    simp [pendingOf, hc]

theorem pendingOf_permanent (lines : List Bytes) : ∀ e ∈ pendingOf lines, e.temporary = false := by
  intro e he
  obtain ⟨line, -, hline⟩ := List.mem_filterMap.mp (List.mem_reverse.mp he)
  obtain ⟨c, -, rfl⟩ := Option.map_eq_some_iff.mp hline
  rfl

-- ============================================================================
-- The reload
-- ============================================================================

/-- The states of a reload: after the C, and at the end. -/
theorem reload_states {s : State} (h : s.dline.Linked cfg) {lines : List Bytes}
    (hlines : ∀ line ∈ lines, (bandbParseBan [] line).isSome = true) :
    ∃ (s₁ s₂ : State) (v : Dline.World), s.bandbParseLine cfg [67] = some s₁ ∧ s₁.pending = [] ∧
      s₁.bans true = s.bans true ∧ s₁.bans false = Bans.none ∧
      (banStream lines).foldlM (State.bandbParseLine cfg) s = some s₂ ∧
      (s₂.bans true).entries = (s.bans true).entries ∧
      (s₂.bans false).entries
        = (listedBans (passing cfg s.tables.clear (pendingOf lines))).entries ∧
      s₂.dline.Linked cfg ∧ v.Linked cfg ∧ v.hosts true = s.dline.hosts true ∧
      v.hosts false = ∅ ∧ (∀ host, v.tempAt cfg host = s.dline.tempAt cfg host) ∧
      v.addHosts cfg (dlineHosts (passing cfg s.tables.clear (pendingOf lines)))
        = some s₂.dline := by
  obtain ⟨s₁, hs₁, hlinked₁, hnil₁, htables₁, htrue₁, hfalse₁, htemp₁⟩ :=
    finish_nil (s := s.bandbHandleClear) h rfl
  have hpend : ({ s₁ with pending := pendingOf lines ++ s₁.pending } : State).dline.Linked cfg :=
    hlinked₁
  obtain ⟨s₂, v, hs₂, hlinked₂, -, htables₂, hv, hvtrue, hvfalse, hvtemp, hadd⟩ := finish_spec hpend
  have htables₁ : s₁.tables = s.tables.clear := htables₁
  rw [hnil₁, List.append_nil] at htables₂ hadd
  simp only [htables₁, Tables.clear_clear] at htables₂ hadd
  have hbans := bans_of_passing (t := s.tables.clear)
    (fun k e he => (Tables.mem_entries_clear.mp he).2)
    (fun e he => pendingOf_permanent lines e (mem_of_mem_passing _ he)) htables₂
  refine ⟨s₁, s₂, v, hs₁, hnil₁, htrue₁, hfalse₁, ?_, ?_, hbans.1, hlinked₂, hv, ?_, hvfalse,
    fun host => (hvtemp host).trans (htemp₁ host), hadd⟩
  · rw [banStream, List.cons_append, List.foldlM_cons, bandbParseLine_clear, hs₁,
      Option.bind_eq_bind, Option.bind_some, List.foldlM_append, bandbParseLine_bans hlines,
      Option.bind_eq_bind, Option.bind_some, List.foldlM_cons, bandbParseLine_finish, hs₂]
    rfl
  · rw [hbans.2]
    funext k
    ext e
    exact Tables.mem_entries_clear
  · exact hvtrue.trans (congrArg Bans.dlines htrue₁)

/-- Before the F, the bans are those of the start or those after the C. -/
theorem reload_cut {s s₁ : State} (hs₁ : s.bandbParseLine cfg [67] = some s₁) {lines : List Bytes}
    (hlines : ∀ line ∈ lines, (bandbParseBan [] line).isSome = true) {p rest : List Bytes}
    (hrest : rest ≠ []) (hsplit : p ++ rest = banStream lines) :
    ∃ s' : State, p.foldlM (State.bandbParseLine cfg) s = some s' ∧
      (s'.bans = s.bans ∨ s'.bans = s₁.bans) := by
  cases p with
  | nil => exact ⟨s, rfl, Or.inl rfl⟩
  | cons line q =>
    rw [banStream, List.cons_append, List.cons_append] at hsplit
    obtain ⟨rfl, hlist⟩ := List.cons.inj hsplit
    -- the last line of what is left is the F
    obtain rfl | ⟨r, last, rfl⟩ := List.eq_nil_or_concat rest
    · exact absurd rfl hrest
    rw [List.concat_eq_append, ← List.append_assoc] at hlist
    obtain ⟨hq, -⟩ := List.append_inj' hlist rfl
    have hbans : ∀ l ∈ q, (bandbParseBan [] l).isSome = true := by
      intro l hl
      refine hlines l ?_
      rw [← hq]
      exact List.mem_append_left r hl
    refine ⟨{ s₁ with pending := pendingOf q ++ s₁.pending }, ?_, Or.inr rfl⟩
    rw [List.foldlM_cons, hs₁, Option.bind_eq_bind, Option.bind_some]
    exact bandbParseLine_bans hbans s₁

/-- The reload is atomic exactly when it has nothing to disturb. -/
theorem atomic_iff_undisturbed (s : State) (h : s.dline.Linked cfg) (lines : List Bytes)
    (hlines : ∀ line ∈ lines, (bandbParseBan [] line).isSome = true) :
    Atomic cfg s lines ↔ Undisturbed cfg s lines := by
  obtain ⟨s₁, s₂, v, hs₁, hnil₁, htrue₁, hfalse₁, hs₂, htrue₂, hfalse₂, hlinked₂, hv, hvtrue,
    hvfalse, hvtemp, hadd⟩ := reload_states h hlines
  constructor
  · intro hatomic
    have hfirst := hatomic [[[67]]] (lines ++ [[70]]) rfl
    obtain ⟨s', hs', -, hold, -⟩ := hfirst
    rw [bandbParse_calls] at hs'
    have hs' : s.bandbParseLine cfg [67] = some s' := by
      have hone : ([[67]] : List Bytes).foldlM (State.bandbParseLine cfg) s
          = s.bandbParseLine cfg [67] := by
        rw [List.foldlM_cons]
        exact bind_pure _
      rw [← hone]
      exact hs'
    rw [hs₁] at hs'
    obtain rfl := Option.some.inj hs'
    have hlast := hatomic [banStream lines] [] (by rw [List.append_nil, List.flatten_singleton])
    obtain ⟨s', hs', htemp, -, hnew⟩ := hlast
    rw [bandbParse_calls, List.flatten_singleton, hs₂] at hs'
    obtain rfl := Option.some.inj hs'
    have hdlines : s₂.dline.hosts false
        = (listedBans (passing cfg s.tables.clear (pendingOf lines))).dlines :=
      congrArg Bans.dlines (hnew rfl)
    have htemps : s₂.dline.hosts true = s.dline.hosts true := congrArg Bans.dlines htemp
    -- a listed D-line with an address is in force
    have hin : ∀ e ∈ pendingOf lines, e.status = .dline →
        (parseNetmask cfg.pton e.host).isSome = true → e.host ∈ s₂.dline.hosts false := by
      intro e he hdline hvalid
      rw [hdlines]
      exact ⟨e, (dline_mem_passing hdline _).mpr ⟨he, hvalid⟩, hdline, rfl⟩
    refine ⟨(hold (by simp)).symm.trans hfalse₁, fun e he hdline => ?_,
      fun e he e' he' hdline hdline' hslot => ?_⟩
    · rw [Bool.eq_false_iff]
      intro htempAt
      unfold Dline.World.tempAt at htempAt
      rw [Option.any_eq_true] at htempAt
      obtain ⟨c, hheld, ht⟩ := htempAt
      obtain ⟨hc, hslot⟩ := h.heldAt_iff.mp hheld
      obtain ⟨-, mask, -, hmask, -⟩ := hslot
      have hperm := hin e he hdline (by rw [hmask]; rfl)
      have htemporary : (s.dline.confs c).host ∈ s₂.dline.hosts true := by
        rw [htemps]
        exact ⟨c, hc, ht, rfl⟩
      cases (hlinked₂.slots_of_hosts hperm htemporary (h.heldAt_iff.mp hheld).2).2
    · obtain ⟨mask, mask', hmask, hmask', -⟩ := id hslot
      exact (hlinked₂.slots_of_hosts (hin e' he' hdline' (by rw [hmask']; rfl))
        (hin e he hdline (by rw [hmask]; rfl)) hslot).1
  · rintro ⟨hno, hfree, hone⟩ calls rest hsplit
    rw [bandbParse_calls]
    have hvalid : ∀ host ∈ dlineHosts (passing cfg s.tables.clear (pendingOf lines)),
        (parseNetmask cfg.pton host).isSome = true := by
      intro host hhost
      obtain ⟨e, he, hdline, rfl⟩ := mem_dlineHosts.mp hhost
      exact ((dline_mem_passing hdline _).mp he).2
    have hmem : ∀ host ∈ dlineHosts (passing cfg s.tables.clear (pendingOf lines)),
        ∃ e ∈ pendingOf lines, e.status = .dline ∧ e.host = host := by
      intro host hhost
      obtain ⟨e, he, hdline, rfl⟩ := mem_dlineHosts.mp hhost
      exact ⟨e, mem_of_mem_passing _ he, hdline, rfl⟩
    have hpairs : ∀ x ∈ dlineHosts (passing cfg s.tables.clear (pendingOf lines)),
        ∀ y ∈ dlineHosts (passing cfg s.tables.clear (pendingOf lines)),
          Dline.SameSlot cfg x y → x = y := by
      intro x hx y hy hslot
      obtain ⟨e, he, hdline, rfl⟩ := hmem x hx
      obtain ⟨e', he', hdline', rfl⟩ := hmem y hy
      exact hone e he e' he' hdline hdline' hslot
    have hold : ∀ x ∈ v.hosts false,
        x ∈ dlineHosts (passing cfg s.tables.clear (pendingOf lines)) := by
      intro x hx
      rw [hvfalse] at hx
      cases hx
    have hfreeAt : ∀ x ∈ dlineHosts (passing cfg s.tables.clear (pendingOf lines)),
        v.tempAt cfg x = false := by
      intro x hx
      obtain ⟨e, he, hdline, rfl⟩ := hmem x hx
      rw [hvtemp]
      exact hfree e he hdline
    obtain ⟨hhtrue, hhfalse⟩ :=
      Dline.World.Linked.addHosts_hosts hpairs hvalid hv (fun x hx => hx) hold hfreeAt hadd
    obtain rfl | hrest := eq_or_ne rest []
    · rw [List.append_nil] at hsplit
      refine ⟨s₂, by rw [hsplit]; exact hs₂, ?_, fun h => absurd rfl h, fun _ => ?_⟩
      · exact Bans.ext htrue₂ (hhtrue.trans hvtrue)
      · refine Bans.ext hfalse₂ ?_
        show s₂.dline.hosts false = _
        rw [hhfalse, hvfalse, Set.empty_union]
        ext host
        exact mem_dlineHosts
    · obtain ⟨s', hs', hsame⟩ := reload_cut hs₁ hlines hrest hsplit
      refine ⟨s', hs', ?_, fun _ => ?_, fun h => absurd h hrest⟩
      · obtain hsame | hsame := hsame
        · rw [hsame]
        · rw [hsame, htrue₁]
      · obtain hsame | hsame := hsame
        · rw [hsame]
        · rw [hsame, hfalse₁, hno]

/-- A server with some X-lines and no other ban. -/
def xlineState (xlines : List Entry) : State := ⟨⟨fun _ => [], xlines, [], []⟩, Dline.World.start, []⟩

/-- `D 10.0.0.1 o :no` and `X spam o :no`. -/
def twoBans : List Bytes :=
  [[68, 32, 49, 48, 46, 48, 46, 48, 46, 49, 32, 111, 32, 58, 110, 111],
    [88, 32, 115, 112, 97, 109, 32, 111, 32, 58, 110, 111]]

theorem atomic_twoBans : Atomic ⟨Dline.twoAddresses, true⟩ (xlineState []) twoBans := by
  refine (atomic_iff_undisturbed (xlineState []) Dline.World.linked_start twoBans ?_).mpr
    ⟨?_, ?_, ?_⟩
  · exact List.all_eq_true.mp (by decide)
  · refine Bans.ext ?_ ?_
    · funext k
      refine Set.eq_empty_of_forall_notMem fun e he => ?_
      cases k with
      | klines => obtain ⟨⟨r, ⟨hv, hr⟩, -⟩, -⟩ := he; cases hr
      | glines => obtain ⟨⟨r, ⟨hv, hr⟩, -⟩, -⟩ := he; cases hr
      | xlines => cases he.1
      | resvChannels => cases he.1
      | resvNicks => cases he.1
    · refine Set.eq_empty_of_forall_notMem fun host hhost => ?_
      obtain ⟨c, ⟨n, hn, -⟩, -⟩ := hhost
      cases hn
  · intro e _ _
    rw [Bool.eq_false_iff]
    intro htemp
    unfold Dline.World.tempAt at htemp
    rw [Option.any_eq_true] at htemp
    obtain ⟨c, hheld, -⟩ := htemp
    have hlinked : Dline.World.start.Linked ⟨Dline.twoAddresses, true⟩ := Dline.World.linked_start
    obtain ⟨⟨n, hn, -⟩, -⟩ := hlinked.heldAt_iff.mp hheld
    cases hn
  · intro e he e' he' hdline hdline' _
    have hone : ((pendingOf twoBans).filter fun e => e.status == .dline).map Entry.host
        = [[49, 48, 46, 48, 46, 48, 46, 49]] := by decide
    have hhost : ∀ x ∈ pendingOf twoBans, x.status = .dline →
        x.host = [49, 48, 46, 48, 46, 48, 46, 49] := by
      intro x hx hstatus
      refine List.mem_singleton.mp ?_
      rw [← hone]
      exact List.mem_map_of_mem (List.mem_filter.mpr ⟨hx, by rw [hstatus]; rfl⟩)
    rw [hhost e he hdline, hhost e' he' hdline']

/-- A permanent X-line, with an empty list: it is gone before the F. -/
theorem not_atomic_xline : ¬ ∀ (cfg : Dline.Config) (s : State), s.dline.Linked cfg →
    ∀ lines : List Bytes, (∀ line ∈ lines, (bandbParseBan [] line).isSome = true) →
      Atomic cfg s lines := by
  intro h
  have hold : (⟨.xline, none, [115, 112, 97, 109], [110, 111], none, false⟩ : Entry) ∈
      ((xlineState [⟨.xline, none, [115, 112, 97, 109], [110, 111], none, false⟩]).bans false).entries
        .xlines := ⟨List.mem_singleton_self _, rfl⟩
  obtain ⟨s', hs', -, hsame, -⟩ := h ⟨Dline.twoAddresses, true⟩
    (xlineState [⟨.xline, none, [115, 112, 97, 109], [110, 111], none, false⟩]) Dline.World.linked_start []
    (fun line hline => by cases hline) [[[67]]] [[70]] rfl
  rw [← hsame (List.cons_ne_nil _ _)] at hold
  have hxlines : ([[[67]]].foldlM (State.bandbParse ⟨Dline.twoAddresses, true⟩)
      (xlineState [⟨.xline, none, [115, 112, 97, 109], [110, 111], none, false⟩])).map
        (fun s => s.tables.xlineConfList) = some [] := by decide
  rw [hs'] at hxlines
  have hnil : s'.tables.xlineConfList = [] := Option.some.inj hxlines
  have hmem : _ ∈ s'.tables.xlineConfList := hold.1
  rw [hnil] at hmem
  cases hmem

end Bluebox.Bandb
