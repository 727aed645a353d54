/-
  Bluebox.Ssld.Table

  The connection table over whole runs.  As long as every connection is closed
  from its plain side, and ids are looked up that are there, the table is sound:
  live connections are in the bucket of their id, dead ones on the list of the
  dead, and no handler is left behind on a dead connection.

  A connection that is closed from the other side waits for its plain side with
  a handler that does not know it.
-/
import Mathlib.Data.List.Nodup
import Bluebox.Ssld.Conn

namespace Bluebox.Ssld

open Bluebox.Lib

-- ============================================================================
-- The condition
-- ============================================================================

/-- The SSL side neither ends nor fails, and compression works. -/
def Answer.benign : Answer → Bool
  | .modRead .eof => false
  | .modRead .error => false
  | .modFlush .eof => false
  | .modFlush .error => false
  | .deflated ok => ok
  | .inflated ok => ok
  | _ => true

/-- No control message is refused for want of support, asks for an id that is not
    there or brings a negative id for a compressed link; no outgoing handshake
    fails, and no connection floods. -/
def Event.plainSide (sup : Support) (w : World) : Event → Bool
  | .control ctlb =>
    match modProcessCmdRecv sup ctlb with
    | .run (.connid id _) => (connFindById w id).isSome
    | .run (.zlib id _ _) => decide (0 ≤ id.toInt)
    | .noSsl => false
    | .noZlib => false
    | _ => true
  | .ready _ _ => true
  | .handshake c status => status == .ok || (w.conns c).handshake != some .connect
  | .checkHandshakeFlood count =>
    (List.range w.next).all fun c => !(w.conns c).ssl || decide (count c ≤ 2)
  | .cleanDeadConns => true

/-- The guard of a step. -/
def PlainSide (sup : Support) (w : World) (x : Event × List Answer × Nat) : Prop :=
  x.2.1.all Answer.benign = true ∧ x.1.plainSide sup w = true

instance (sup : Support) (w : World) (x : Event × List Answer × Nat) :
    Decidable (PlainSide sup w x) :=
  inferInstanceAs (Decidable (_ ∧ _))

-- ============================================================================
-- The invariant
-- ============================================================================

/-- The handlers registered for a connection. -/
def Conn.callbacks (k : Conn) : List (Option Callback) :=
  [k.onModRead, k.onModWrite, k.onPlainRead, k.onPlainWrite]

/-- A dead connection has no handler, and the handlers of a live one are for it. -/
structure Conn.Ok (c : Nat) (k : Conn) : Prop where
  idle : k.dead = true → (∀ o ∈ k.callbacks, o = none) ∧ k.handshake = none
  callback : ∀ o ∈ k.callbacks, ∀ cb ∈ o, cb.data = some c ∧ cb.fn ≠ .shutdown
  freed : k.freed = true → k.dead = true

/-- The connection belongs in the table. -/
def Conn.Hashed (k : Conn) : Prop := k.dead = false ∧ 0 ≤ k.id.toInt ∧ k.zipSsl = false

/-- The inductive invariant. -/
structure World.Inv (w : World) : Prop where
  conn : ∀ c, (w.conns c).Ok c
  hashed : ∀ c b, c ∈ w.buckets b →
    c < w.next ∧ (w.conns c).Hashed ∧ connidHash (w.conns c).id = some b
  nodup : ∀ b, (w.buckets b).Nodup
  live : ∀ c, c < w.next → (w.conns c).Hashed → c ∈ w.bucket (w.conns c).id
  dead : ∀ c, w.Exists c → (w.conns c).dead = true → c ∈ w.deadList
  listed : ∀ c ∈ w.deadList, c < w.next ∧ (w.conns c).dead = true
  found : w.wild = false

/-- No call is made without a bound. -/
theorem World.run_zero (r : Routine) (c : Nat) (w : World) : w.run 0 r c = none := by
  rw [World.run]

theorem connidHash_of_nonneg {id : ConnId} (h : 0 ≤ id.toInt) :
    connidHash id = some (id.toInt.tmod connHashSize).toNat := by
  unfold connidHash
  rw [if_neg (Int.not_lt.mpr (Int.tmod_nonneg _ h))]

theorem World.bucket_of_hash {w : World} {id : ConnId} {b : Nat} (h : connidHash id = some b) :
    w.bucket id = w.buckets b := by
  unfold World.bucket
  rw [h]
  rfl

theorem World.setBucket_of_hash {w : World} {id : ConnId} {b : Nat} (h : connidHash id = some b)
    (l : List Nat) : w.setBucket id l = { w with buckets := Function.update w.buckets b l } := by
  unfold World.setBucket
  rw [h]
  rfl

/-- What the invariant is for. -/
theorem World.Inv.sound {w : World} (h : w.Inv) : w.Sound where
  live := by
    intro c hc hlive hid hzip b
    have hmem := h.live c hc.1 ⟨hlive, hid, hzip⟩
    split
    · rename_i hb
      rw [World.bucket_of_hash hb] at hmem
      exact List.count_eq_one_of_mem (h.nodup b) hmem
    · rename_i hb
      exact List.count_eq_zero_of_not_mem fun hin => hb (h.hashed c b hin).2.2
  dead := by
    intro c _ hdead b hin
    have hlive := (h.hashed c b hin).2.1.1
    rw [hdead] at hlive
    cases hlive
  waiting := fun c hc hdead => Or.inl (h.dead c hc hdead)
  found := h.found

theorem Conn.fresh_ok (c : Nat) : Conn.fresh.Ok c := by
  refine ⟨nofun, ?_, nofun⟩
  intro o ho cb hcb
  simp only [Conn.callbacks, Conn.fresh, List.mem_cons, List.not_mem_nil, or_false, or_self] at ho
  rw [ho] at hcb
  cases hcb

theorem World.inv_start : World.start.Inv where
  conn := Conn.fresh_ok
  hashed := nofun
  nodup := fun _ => List.nodup_nil
  live := nofun
  dead := fun c hc => absurd hc.1 (Nat.not_lt_zero c)
  listed := nofun
  found := rfl

/-- Answers do not matter. -/
theorem World.Inv.answers {w : World} (h : w.Inv) (l : List Answer) : { w with answers := l }.Inv :=
  ⟨h.conn, h.hashed, h.nodup, h.live, h.dead, h.listed, h.found⟩

-- ============================================================================
-- Writing to a connection
-- ============================================================================

theorem World.modify_self (w : World) (c : Nat) (f : Conn → Conn) :
    (w.modify c f).conns c = f (w.conns c) := Function.update_self ..

theorem World.modify_of_ne {w : World} {c d : Nat} (h : d ≠ c) (f : Conn → Conn) :
    (w.modify c f).conns d = w.conns d := Function.update_of_ne h ..

/-- Flags and handlers of a connection may change, if the handlers are for it. -/
theorem World.Inv.modify {w : World} (h : w.Inv) {c : Nat} {f : Conn → Conn}
    (hid : (f (w.conns c)).id = (w.conns c).id) (hdead : (f (w.conns c)).dead = (w.conns c).dead)
    (hzip : (f (w.conns c)).zipSsl = (w.conns c).zipSsl)
    (hfreed : (f (w.conns c)).freed = (w.conns c).freed) (hok : (f (w.conns c)).Ok c) :
    (w.modify c f).Inv := by
  have hsame : ∀ d, ((w.modify c f).conns d).id = (w.conns d).id ∧
      ((w.modify c f).conns d).dead = (w.conns d).dead ∧
      ((w.modify c f).conns d).zipSsl = (w.conns d).zipSsl ∧
      ((w.modify c f).conns d).freed = (w.conns d).freed := by
    intro d
    by_cases hd : d = c
    · rw [hd, World.modify_self]
      exact ⟨hid, hdead, hzip, hfreed⟩
    · rw [World.modify_of_ne hd]
      exact ⟨rfl, rfl, rfl, rfl⟩
  have hhashed : ∀ d, ((w.modify c f).conns d).Hashed ↔ (w.conns d).Hashed := by
    intro d
    obtain ⟨h1, h2, h3, -⟩ := hsame d
    unfold Conn.Hashed
    rw [h1, h2, h3]
  exact {
    conn := by
      intro d
      by_cases hd : d = c
      · rw [hd, World.modify_self]
        exact hok
      · rw [World.modify_of_ne hd]
        exact h.conn d
    hashed := by
      intro d b hin
      rw [hhashed, (hsame d).1]
      exact h.hashed d b hin
    nodup := h.nodup
    live := by
      intro d hlt hd
      rw [(hsame d).1]
      exact h.live d hlt ((hhashed d).mp hd)
    dead := by
      intro d hd hdd
      rw [(hsame d).2.1] at hdd
      exact h.dead d ⟨hd.1, by rw [← (hsame d).2.2.2]; exact hd.2⟩ hdd
    listed := by
      intro d hd
      rw [(hsame d).2.1]
      exact h.listed d hd
    found := h.found }

/-- New handlers on a live connection. -/
theorem Conn.Ok.register {c : Nat} {k k' : Conn} (h : k.Ok c) (hlive : k.dead = false)
    (hdead : k'.dead = k.dead) (hfreed : k'.freed = k.freed)
    (hcb : ∀ o ∈ k'.callbacks, o ∈ k.callbacks ∨ o = none ∨
      ∃ fn, fn ≠ .shutdown ∧ o = some ⟨fn, some c⟩) : k'.Ok c where
  idle := by
    intro hd
    rw [hdead, hlive] at hd
    cases hd
  callback := by
    intro o ho cb hin
    obtain hold | hnone | ⟨fn, hfn, hsome⟩ := hcb o ho
    · exact h.callback o hold cb hin
    · rw [hnone] at hin
      cases hin
    · rw [hsome] at hin
      obtain rfl := Option.mem_some_iff.mp hin
      exact ⟨rfl, hfn⟩
  freed := by
    intro hf
    rw [hfreed] at hf
    rw [hdead]
    exact h.freed hf

/-- The same for the table. -/
theorem World.Inv.register {w : World} (h : w.Inv) {c : Nat} {f : Conn → Conn}
    (hlive : (w.conns c).dead = false)
    (hid : (f (w.conns c)).id = (w.conns c).id) (hdead : (f (w.conns c)).dead = (w.conns c).dead)
    (hzip : (f (w.conns c)).zipSsl = (w.conns c).zipSsl)
    (hfreed : (f (w.conns c)).freed = (w.conns c).freed)
    (hcb : ∀ o ∈ (f (w.conns c)).callbacks, o ∈ (w.conns c).callbacks ∨ o = none ∨
      ∃ fn, fn ≠ .shutdown ∧ o = some ⟨fn, some c⟩) : (w.modify c f).Inv :=
  h.modify hid hdead hzip hfreed ((h.conn c).register hlive hdead hfreed hcb)

-- ============================================================================
-- Leaving the table
-- ============================================================================

/-- A connection that is in no other bucket is taken out of all of them at once. -/
theorem World.Inv.erase_bucket {w : World} (h : w.Inv) {c : Nat}
    (hid : 0 ≤ (w.conns c).id.toInt) (b : Nat) :
    (w.setBucket (w.conns c).id ((w.bucket (w.conns c).id).erase c)).buckets b =
      (w.buckets b).erase c := by
  have hh := connidHash_of_nonneg hid
  rw [World.setBucket_of_hash hh, World.bucket_of_hash hh]
  by_cases hb : b = ((w.conns c).id.toInt.tmod connHashSize).toNat
  · rw [hb]
    exact Function.update_self ..
  · have hout : c ∉ w.buckets b := by
      intro hin
      have hsome := (h.hashed c b hin).2.2
      rw [hh] at hsome
      exact hb (Option.some.inj hsome).symm
    rw [List.erase_of_not_mem hout]
    exact Function.update_of_ne hb ..

theorem World.Inv.erase_of_not_hashed {w : World} (h : w.Inv) {c : Nat}
    (hnot : ¬ (w.conns c).Hashed) (b : Nat) : (w.buckets b).erase c = w.buckets b :=
  List.erase_of_not_mem fun hin => hnot (h.hashed c b hin).2.1

/-- A connection is rewritten so that it belongs in no bucket, and taken out. -/
theorem World.Inv.unhash {w w' : World} (h : w.Inv) {c : Nat} {k : Conn} (hc : c < w.next)
    (hconns : w'.conns = Function.update w.conns c k) (hnext : w'.next = w.next)
    (hbuckets : ∀ b, w'.buckets b = (w.buckets b).erase c) (hwild : w'.wild = w.wild)
    (hk : k.Ok c) (hnot : ¬ k.Hashed)
    (hdl : w'.deadList = if k.dead then c :: w.deadList else w.deadList)
    (hlive : (w.conns c).dead = false) : w'.Inv := by
  have hself : w'.conns c = k := by
    rw [hconns]
    exact Function.update_self ..
  have hne : ∀ {d}, d ≠ c → w'.conns d = w.conns d := by
    intro d hd
    rw [hconns]
    exact Function.update_of_ne hd ..
  exact {
    conn := by
      intro d
      by_cases hd : d = c
      · rw [hd, hself]
        exact hk
      · rw [hne hd]
        exact h.conn d
    hashed := by
      intro d b hin
      rw [hbuckets] at hin
      obtain ⟨hd, hin⟩ := (List.Nodup.mem_erase_iff (h.nodup b)).mp hin
      rw [hne hd, hnext]
      exact h.hashed d b hin
    nodup := by
      intro b
      rw [hbuckets]
      exact (h.nodup b).erase c
    live := by
      intro d hlt hd
      by_cases hdc : d = c
      · rw [hdc, hself] at hd
        exact absurd hd hnot
      · rw [hne hdc] at hd ⊢
        rw [hnext] at hlt
        have hin := h.live d hlt hd
        have hh := connidHash_of_nonneg hd.2.1
        rw [World.bucket_of_hash hh] at hin ⊢
        rw [hbuckets]
        exact (List.Nodup.mem_erase_iff (h.nodup _)).mpr ⟨hdc, hin⟩
    dead := by
      intro d hd hdead
      by_cases hdc : d = c
      · rw [hdc, hself] at hdead
        rw [hdl, if_pos hdead, hdc]
        exact List.mem_cons_self
      · have hin := h.dead d ⟨hnext ▸ hd.1, hne hdc ▸ hd.2⟩ (hne hdc ▸ hdead)
        rw [hdl]
        split
        · exact List.mem_cons_of_mem c hin
        · exact hin
    listed := by
      intro d hd
      rw [hnext]
      by_cases hdc : d = c
      · rw [hdl] at hd
        rw [hdc, hself]
        refine ⟨hc, ?_⟩
        by_contra hk
        rw [if_neg hk, hdc] at hd
        have hdead := (h.listed c hd).2
        rw [hlive] at hdead
        cases hdead
      · rw [hne hdc]
        refine h.listed d ?_
        rw [hdl] at hd
        split at hd
        · exact (List.mem_cons.mp hd).resolve_left hdc
        · exact hd
    found := hwild.trans h.found }

/-- `close_conn` from the plain side. -/
theorem World.Inv.close {w : World} (h : w.Inv) {c : Nat} (hc : c < w.next) :
    (closeConn w c false).Inv := by
  unfold closeConn
  by_cases hdead : (w.conns c).dead = true
  · rw [if_pos hdead]
    exact h
  have hlive := Bool.eq_false_iff.mpr hdead
  rw [if_neg hdead]
  dsimp only
  by_cases hin : 0 ≤ (w.conns c).id.toInt ∧ (w.conns c).zipSsl = false
  · rw [if_pos hin]
    refine h.unhash hc rfl rfl (fun b => ?_) rfl ⟨?_, ?_, fun _ => rfl⟩ nofun rfl hlive
    · exact h.erase_bucket hin.1 b
    · refine fun _ => ⟨?_, rfl⟩
      simp [Conn.callbacks]
    · simp [Conn.callbacks]
  · rw [if_neg hin]
    have hnot : ¬ (w.conns c).Hashed := fun hh => hin hh.2
    refine h.unhash hc rfl rfl (fun b => ?_) rfl ⟨?_, ?_, fun _ => rfl⟩ nofun rfl hlive
    · exact (h.erase_of_not_hashed hnot b).symm
    · refine fun _ => ⟨?_, rfl⟩
      simp [Conn.callbacks]
    · simp [Conn.callbacks]

@[simp] theorem closeConn_next (w : World) (c : Nat) (wait : Bool) :
    (closeConn w c wait).next = w.next := by
  unfold closeConn World.setBucket
  dsimp only
  split
  · rfl
  · split <;> split <;> rfl

@[simp] theorem closeConn_answers (w : World) (c : Nat) (wait : Bool) :
    (closeConn w c wait).answers = w.answers := by
  unfold closeConn World.setBucket
  dsimp only
  split
  · rfl
  · split <;> split <;> rfl

/-- `change_connid` of a connection that is there. -/
theorem World.Inv.changeId {w : World} (h : w.Inv) {id newid : ConnId}
    (hfound : (connFindById w id).isSome = true) : (changeId w id newid).Inv := by
  obtain ⟨c, hc⟩ := Option.isSome_iff_exists.mp hfound
  have hin := List.mem_of_find?_eq_some hc
  obtain ⟨b, hb, hin⟩ : ∃ b, connidHash id = some b ∧ c ∈ w.buckets b := by
    unfold World.bucket at hin
    cases hh : connidHash id with
    | none =>
      rw [hh] at hin
      cases hin
    | some b =>
      rw [hh] at hin
      exact ⟨b, rfl, hin⟩
  obtain ⟨hlt, hhashed, -⟩ := h.hashed c b hin
  unfold Ssld.changeId
  rw [hc]
  dsimp only
  rw [if_pos hhashed.2.1]
  refine h.unhash hlt rfl rfl (fun b => h.erase_bucket hhashed.2.1 b) rfl ?_ nofun ?_ hhashed.1
  · exact (h.conn c).register hhashed.1 rfl rfl fun o ho => Or.inl ho
  · dsimp only
    rw [hhashed.1]
    rfl

-- ============================================================================
-- Entering the table
-- ============================================================================

/-- `make_conn`. -/
theorem World.Inv.make {w : World} (h : w.Inv) : (makeConn w).Inv := by
  have hself : (makeConn w).conns w.next = Conn.fresh := Function.update_self ..
  have hne : ∀ {d}, d ≠ w.next → (makeConn w).conns d = w.conns d := fun hd =>
    Function.update_of_ne hd ..
  exact {
    conn := by
      intro d
      by_cases hd : d = w.next
      · rw [hd, hself]
        exact Conn.fresh_ok _
      · rw [hne hd]
        exact h.conn d
    hashed := by
      intro d b hin
      obtain ⟨hlt, hd⟩ := h.hashed d b hin
      rw [hne (Nat.ne_of_lt hlt)]
      exact ⟨Nat.lt_succ_of_lt hlt, hd⟩
    nodup := h.nodup
    live := by
      intro d hlt hd
      by_cases hdn : d = w.next
      · rw [hdn, hself] at hd
        exact absurd hd.2.1 (by decide)
      · rw [hne hdn] at hd ⊢
        exact h.live d (Nat.lt_of_le_of_ne (Nat.le_of_lt_succ hlt) hdn) hd
    dead := by
      intro d hd hdead
      by_cases hdn : d = w.next
      · rw [hdn, hself] at hdead
        cases hdead
      · exact h.dead d ⟨Nat.lt_of_le_of_ne (Nat.le_of_lt_succ hd.1) hdn, hne hdn ▸ hd.2⟩
          (hne hdn ▸ hdead)
    listed := by
      intro d hd
      obtain ⟨hlt, hdead⟩ := h.listed d hd
      rw [hne (Nat.ne_of_lt hlt)]
      exact ⟨Nat.lt_succ_of_lt hlt, hdead⟩
    found := h.found }

/-- `conn_add_id_hash` for a new connection. -/
theorem World.Inv.add {w : World} (h : w.Inv) {c : Nat} {id : ConnId} (hc : c < w.next)
    (hfresh : w.conns c = Conn.fresh) (hid : 0 ≤ id.toInt) : (connAddIdHash w c id).Inv := by
  have hh := connidHash_of_nonneg hid
  have hout : ∀ b, c ∉ w.buckets b := by
    intro b hin
    have hneg := (h.hashed c b hin).2.1.2.1
    rw [hfresh] at hneg
    exact absurd hneg (by decide)
  unfold connAddIdHash
  rw [World.setBucket_of_hash hh, World.bucket_of_hash hh]
  generalize (id.toInt.tmod connHashSize).toNat = b₀ at hh
  have hself := World.modify_self w c fun k => { k with id := id }
  have hhashed : ((w.modify c fun k => { k with id := id }).conns c).Hashed := by
    rw [hself, hfresh]
    exact ⟨rfl, hid, rfl⟩
  have hbucket : ∀ b d, d ∈ Function.update w.buckets b₀ (c :: w.buckets b₀) b ↔
      d ∈ w.buckets b ∨ (d = c ∧ b = b₀) := by
    intro b d
    by_cases hb : b = b₀
    · rw [hb, Function.update_self, List.mem_cons, or_comm]
      simp only [and_true]
    · rw [Function.update_of_ne hb]
      simp only [hb, and_false, or_false]
  exact {
    conn := by
      intro d
      by_cases hd : d = c
      · rw [hd]
        dsimp only
        rw [hself, hfresh]
        exact (Conn.fresh_ok c).register rfl rfl rfl fun o ho => Or.inl ho
      · dsimp only
        rw [World.modify_of_ne hd]
        exact h.conn d
    hashed := by
      intro d b hin
      obtain hin | ⟨rfl, rfl⟩ := (hbucket b d).mp hin
      · have hd : d ≠ c := fun hd => hout b (hd ▸ hin)
        dsimp only
        rw [World.modify_of_ne hd]
        exact h.hashed d b hin
      · refine ⟨hc, hhashed, ?_⟩
        dsimp only
        rw [hself]
        exact hh
    nodup := by
      intro b
      by_cases hb : b = b₀
      · dsimp only
        rw [hb, Function.update_self]
        exact List.nodup_cons.mpr ⟨hout b₀, h.nodup b₀⟩
      · dsimp only
        rw [Function.update_of_ne hb]
        exact h.nodup b
    live := by
      intro d hlt hd
      by_cases hdc : d = c
      · have hid' : ((w.modify c fun k => { k with id := id }).conns c).id = id := by rw [hself]
        rw [hdc]
        dsimp only
        rw [hid', World.bucket_of_hash hh]
        exact (hbucket b₀ c).mpr (Or.inr ⟨rfl, rfl⟩)
      · dsimp only at hd ⊢
        rw [World.modify_of_ne hdc] at hd ⊢
        have hin := h.live d hlt hd
        have hhd := connidHash_of_nonneg hd.2.1
        rw [World.bucket_of_hash hhd] at hin ⊢
        exact (hbucket _ d).mpr (Or.inl hin)
    dead := by
      intro d hd hdead
      by_cases hdc : d = c
      · rw [hdc] at hdead
        dsimp only at hdead
        rw [hself, hfresh] at hdead
        cases hdead
      · dsimp only at hdead
        rw [World.modify_of_ne hdc] at hdead
        refine h.dead d ⟨hd.1, ?_⟩ hdead
        rw [← World.modify_of_ne hdc (fun k => { k with id := id })]
        exact hd.2
    listed := by
      intro d hd
      obtain ⟨hlt, hdead⟩ := h.listed d hd
      have hdc : d ≠ c := by
        rintro rfl
        rw [hfresh] at hdead
        cases hdead
      dsimp only
      rw [World.modify_of_ne hdc]
      exact ⟨hlt, hdead⟩
    found := h.found }

theorem connAddIdHash_self (w : World) (c : Nat) (id : ConnId) :
    (connAddIdHash w c id).conns c = { w.conns c with id := id } :=
  World.modify_self w c fun k => { k with id := id }

theorem makeConn_self (w : World) : (makeConn w).conns w.next = Conn.fresh :=
  Function.update_self ..

/-- A new connection lives and has no handlers. -/
theorem newConn_self (w : World) (id : ConnId) :
    ∃ id', (newConn w id).conns w.next = { Conn.fresh with id := id' } := by
  unfold newConn
  split
  · refine ⟨id, ?_⟩
    rw [connAddIdHash_self, makeConn_self]
  · exact ⟨-1, makeConn_self w⟩

theorem World.Inv.newConn {w : World} (h : w.Inv) (id : ConnId) : (newConn w id).Inv := by
  unfold Ssld.newConn
  by_cases hid : 0 ≤ id.toInt
  · rw [if_pos hid]
    exact h.make.add (Nat.lt_succ_self _) (Function.update_self ..) hid
  · rw [if_neg hid]
    exact h.make

/-- `ssl_process_accept` and `ssl_process_connect`. -/
theorem World.Inv.sslProcess {w : World} (h : w.Inv) (id : ConnId) (hs : Handshake) :
    (sslProcess w id hs).Inv := by
  obtain ⟨id', hself⟩ := newConn_self w id
  refine (h.newConn id).register ?_ rfl rfl rfl rfl fun o ho => Or.inl ho
  rw [hself]
  rfl

-- ============================================================================
-- The handlers
-- ============================================================================

/-- The invariant inside a handler: no connection is made there. -/
structure World.Good (n : Nat) (w : World) : Prop where
  inv : w.Inv
  next : w.next = n
  benign : w.answers.all Answer.benign = true

section Handlers

variable {n fuel c : Nat} {w w' : World}

theorem World.Good.answers (h : w.Good n) {a : Answer} {l : List Answer}
    (ha : w.answers = a :: l) : a.benign = true ∧ { w with answers := l }.Good n := by
  have hall := h.benign
  rw [ha, List.all_cons, Bool.and_eq_true] at hall
  exact ⟨hall.1, h.inv.answers l, h.next, hall.2⟩

theorem World.Good.close (h : w.Good n) (hc : c < n) : (closeConn w c false).Good n := by
  refine ⟨h.inv.close (h.next ▸ hc), ?_, ?_⟩
  · rw [closeConn_next, h.next]
  · rw [closeConn_answers, h.benign]

theorem World.Good.register (h : w.Good n) {f : Conn → Conn} (hlive : (w.conns c).dead = false)
    (hid : (f (w.conns c)).id = (w.conns c).id) (hdead : (f (w.conns c)).dead = (w.conns c).dead)
    (hzip : (f (w.conns c)).zipSsl = (w.conns c).zipSsl)
    (hfreed : (f (w.conns c)).freed = (w.conns c).freed)
    (hcb : ∀ o ∈ (f (w.conns c)).callbacks, o ∈ (w.conns c).callbacks ∨ o = none ∨
      ∃ fn, fn ≠ .shutdown ∧ o = some ⟨fn, some c⟩) : (w.modify c f).Good n :=
  ⟨h.inv.register hlive hid hdead hzip hfreed hcb, h.next, h.benign⟩

/-- Two routines do not look at the flag of a dead connection. -/
def Routine.assumesLive : Routine → Bool
  | .modFlush => true
  | .plainCork => true
  | _ => false

/-- What a bounded call of a handler keeps. -/
def Kept (n fuel : Nat) : Prop :=
  ∀ (r : Routine) (c : Nat) (w w' : World), w.Good n → c < n → r ≠ .shutdown →
    (r.assumesLive = true → (w.conns c).dead = false) → w.run fuel r c = some w' → w'.Good n

theorem Kept.modWriteSendq (ih : Kept n fuel) (h : w.Good n) (hc : c < n)
    (hs : World.run (fuel + 1) .modWriteSendq c w = some w') : w'.Good n := by
  rw [World.run] at hs
  split at hs
  · exact Option.some.inj hs ▸ h
  rename_i hlive
  have hlive := Bool.eq_false_iff.mpr hlive
  split at hs
  · obtain ⟨v, hv, hs⟩ := Option.bind_eq_some_iff.mp hs
    have hgood : v.Good n := by
      refine ih .modReadCb c _ v ?_ hc nofun nofun hv
      exact h.register hlive rfl rfl rfl rfl fun o ho => Or.inl ho
    split at hs
    · exact Option.some.inj hs ▸ hgood
    · rename_i hlive'
      exact ih .modFlush c v w' hgood hc nofun (fun _ => Bool.eq_false_iff.mpr hlive') hs
  · exact ih .modFlush c w w' h hc nofun (fun _ => hlive) hs

theorem Conn.flushed_same (c : Nat) (r : IoResult) (m : Nat) (k : Conn) :
    (k.flushed c r m).id = k.id ∧ (k.flushed c r m).dead = k.dead ∧
      (k.flushed c r m).zipSsl = k.zipSsl ∧ (k.flushed c r m).freed = k.freed := by
  unfold Conn.flushed
  split
  · exact ⟨rfl, rfl, rfl, rfl⟩
  · split
    · exact ⟨rfl, rfl, rfl, rfl⟩
    · exact ⟨rfl, rfl, rfl, rfl⟩

theorem Conn.flushed_callbacks (c : Nat) (r : IoResult) (m : Nat) (k : Conn) :
    ∀ o ∈ (k.flushed c r m).callbacks, o ∈ k.callbacks ∨ o = none ∨
      ∃ fn, fn ≠ .shutdown ∧ o = some ⟨fn, some c⟩ := by
  unfold Conn.flushed Conn.callbacks
  split
  · simp
  · split
    · simp
    · simp

theorem World.Good.flushed (h : w.Good n) (r : IoResult) (m : Nat)
    (hlive : (w.conns c).dead = false) : (w.modify c (Conn.flushed c r m)).Good n := by
  obtain ⟨h1, h2, h3, h4⟩ := Conn.flushed_same c r m (w.conns c)
  exact h.register hlive h1 h2 h3 h4 (Conn.flushed_callbacks c r m (w.conns c))

theorem Kept.modFlush (ih : Kept n fuel) (h : w.Good n) (hc : c < n)
    (hlive : (w.conns c).dead = false)
    (hs : World.run (fuel + 1) .modFlush c w = some w') : w'.Good n := by
  rw [World.run] at hs
  split at hs
  case h_2 => cases hs
  rename_i r l ha
  obtain ⟨hb, hgood⟩ := h.answers ha
  split at hs
  · exact ih .modFlush c _ w' hgood hc nofun (fun _ => hlive) hs
  split at hs
  · rename_i hend
    obtain rfl | rfl := hend
    · cases hb
    · cases hb
  split at hs
  case h_2 => cases hs
  rename_i m l
  obtain ⟨-, hgood⟩ := hgood.answers rfl
  unfold World.flushed at hs
  have hflushed := hgood.flushed r m hlive
  split at hs
  · refine ih .plainReadCb c _ w' ?_ hc nofun nofun hs
    refine hflushed.register ?_ rfl rfl rfl rfl fun o ho => Or.inl ho
    rw [World.modify_self]
    exact (Conn.flushed_same c r m _).2.1.trans hlive
  · exact Option.some.inj hs ▸ hflushed

theorem Kept.plainReadCb (ih : Kept n fuel) (h : w.Good n) (hc : c < n)
    (hs : World.run (fuel + 1) .plainReadCb c w = some w') : w'.Good n := by
  rw [World.run] at hs
  split at hs
  · exact Option.some.inj hs ▸ h
  · rename_i hlive
    exact ih .plainCork c w w' h hc nofun (fun _ => Bool.eq_false_iff.mpr hlive) hs

theorem Kept.plainCork (ih : Kept n fuel) (h : w.Good n) (hc : c < n)
    (hlive : (w.conns c).dead = false)
    (hs : World.run (fuel + 1) .plainCork c w = some w') : w'.Good n := by
  rw [World.run] at hs
  split at hs
  case h_2 => cases hs
  rename_i m l ha
  obtain ⟨-, hgood⟩ := h.answers ha
  dsimp only at hs
  split at hs
  · refine ih .modWriteSendq c _ w' ?_ hc nofun nofun hs
    refine hgood.register hlive rfl rfl rfl rfl ?_
    simp [Conn.callbacks]
  · exact ih .plainRead c _ w' hgood hc nofun nofun hs

theorem Kept.plainRead (ih : Kept n fuel) (h : w.Good n) (hc : c < n)
    (hs : World.run (fuel + 1) .plainRead c w = some w') : w'.Good n := by
  rw [World.run] at hs
  split at hs
  · exact Option.some.inj hs ▸ h
  rename_i hlive
  have hlive := Bool.eq_false_iff.mpr hlive
  split at hs
  case h_2 => cases hs
  rename_i r l ha
  obtain ⟨-, hgood⟩ := h.answers ha
  split at hs
  · exact Option.some.inj hs ▸ hgood.close hc
  · exact Option.some.inj hs ▸ hgood.close hc
  · split at hs
    · split at hs
      · obtain ⟨-, hgood⟩ := hgood.answers rfl
        exact ih .plainCork c _ w' hgood hc nofun (fun _ => hlive) hs
      · obtain ⟨hb, -⟩ := hgood.answers rfl
        cases hb
      · cases hs
    · exact ih .plainCork c _ w' hgood hc nofun (fun _ => hlive) hs
  · refine ih .modWriteSendq c _ w' ?_ hc nofun nofun hs
    refine hgood.register hlive rfl rfl rfl rfl ?_
    simp [Conn.callbacks]

theorem Kept.modReadCb (ih : Kept n fuel) (h : w.Good n) (hc : c < n)
    (hs : World.run (fuel + 1) .modReadCb c w = some w') : w'.Good n := by
  rw [World.run] at hs
  split at hs
  · exact Option.some.inj hs ▸ h
  rename_i hlive
  have hlive := Bool.eq_false_iff.mpr hlive
  split at hs
  · obtain ⟨v, hv, hs⟩ := Option.bind_eq_some_iff.mp hs
    have hgood : v.Good n := by
      refine ih .modWriteSendq c _ v ?_ hc nofun nofun hv
      exact h.register hlive rfl rfl rfl rfl fun o ho => Or.inl ho
    split at hs
    · exact Option.some.inj hs ▸ hgood
    · exact ih .modRead c v w' hgood hc nofun nofun hs
  · exact ih .modRead c w w' h hc nofun nofun hs

theorem Kept.modRead (ih : Kept n fuel) (h : w.Good n) (hc : c < n)
    (hs : World.run (fuel + 1) .modRead c w = some w') : w'.Good n := by
  rw [World.run] at hs
  split at hs
  · exact Option.some.inj hs ▸ h
  rename_i hlive
  have hlive := Bool.eq_false_iff.mpr hlive
  split at hs
  case h_2 => cases hs
  rename_i r l ha
  obtain ⟨hb, hgood⟩ := h.answers ha
  split at hs
  · cases hb
  · cases hb
  · split at hs
    · split at hs
      · obtain ⟨-, hgood⟩ := hgood.answers rfl
        exact ih .modRead c _ w' hgood hc nofun nofun hs
      · obtain ⟨hb, -⟩ := hgood.answers rfl
        cases hb
      · cases hs
    · exact ih .modRead c _ w' hgood hc nofun nofun hs
  · refine ih .plainWriteSendq c _ w' ?_ hc nofun nofun hs
    refine hgood.register hlive rfl rfl rfl rfl ?_
    simp [Conn.callbacks]
  · refine ih .plainWriteSendq c _ w' ?_ hc nofun nofun hs
    refine hgood.register hlive rfl rfl rfl rfl ?_
    simp [Conn.callbacks]

theorem Kept.plainWriteSendq (ih : Kept n fuel) (h : w.Good n) (hc : c < n)
    (hs : World.run (fuel + 1) .plainWriteSendq c w = some w') : w'.Good n := by
  rw [World.run] at hs
  split at hs
  · exact Option.some.inj hs ▸ h
  rename_i hlive
  have hlive := Bool.eq_false_iff.mpr hlive
  split at hs
  case h_2 => cases hs
  rename_i r l ha
  obtain ⟨-, hgood⟩ := h.answers ha
  split at hs
  · exact ih .plainWriteSendq c _ w' hgood hc nofun nofun hs
  · exact Option.some.inj hs ▸ hgood.close hc
  · exact Option.some.inj hs ▸ hgood.close hc
  · split at hs
    case h_2 => cases hs
    rename_i m l
    obtain ⟨-, hgood⟩ := hgood.answers rfl
    refine Option.some.inj hs ▸ hgood.register hlive rfl rfl rfl rfl ?_
    by_cases hm : m = 0
    · simp [Conn.callbacks, hm]
    · simp [Conn.callbacks, hm]

/-- By induction on the bound, a handler keeps the invariant. -/
theorem kept (n fuel : Nat) : Kept n fuel := by
  induction fuel with
  | zero =>
    intro r c w w' _ _ _ _ hs
    rw [World.run_zero] at hs
    cases hs
  | succ fuel ih =>
    intro r c w w' h hc hr hlive hs
    cases r with
    | modWriteSendq => exact ih.modWriteSendq h hc hs
    | modFlush => exact ih.modFlush h hc (hlive rfl) hs
    | plainReadCb => exact ih.plainReadCb h hc hs
    | plainCork => exact ih.plainCork h hc (hlive rfl) hs
    | plainRead => exact ih.plainRead h hc hs
    | modReadCb => exact ih.modReadCb h hc hs
    | modRead => exact ih.modRead h hc hs
    | plainWriteSendq => exact ih.plainWriteSendq h hc hs
    | shutdown => exact absurd rfl hr

/-- The handler of the SSL side, then that of the plain side. -/
theorem World.Good.run_both (h : w.Good n) (hc : c < n)
    (hs : ((w.run fuel .modReadCb c).bind fun w => w.run fuel .plainReadCb c) = some w') :
    w'.Good n := by
  obtain ⟨v, hv, hs⟩ := Option.bind_eq_some_iff.mp hs
  have hgood := kept n fuel .modReadCb c w v h hc nofun nofun hv
  exact kept n fuel .plainReadCb c v w' hgood hc nofun nofun hs

end Handlers

-- ============================================================================
-- Events
-- ============================================================================

section Events

variable {w w' : World} {fuel c : Nat}

theorem World.Inv.zlibStart (h : w.Inv) (hb : w.answers.all Answer.benign = true) {id : ConnId}
    (hid : 0 ≤ id.toInt) {recvq : Bytes} (hs : zlibStart w fuel id recvq = some w') : w'.Inv := by
  unfold Ssld.zlibStart at hs
  rw [if_neg (by rw [connidHash_of_nonneg hid]; nofun)] at hs
  dsimp only at hs
  obtain ⟨v, hv, hs⟩ := Option.bind_eq_some_iff.mp hs
  have hadd := h.make.add (Nat.lt_succ_self _) (makeConn_self w) hid
  have hself := connAddIdHash_self (makeConn w) w.next id
  have hzip : ((connAddIdHash (makeConn w) w.next id).modify w.next fun k =>
      { k with zip := true }).Good (w.next + 1) := by
    refine ⟨hadd.register ?_ rfl rfl rfl rfl fun o ho => Or.inl ho, rfl, hb⟩
    rw [hself, makeConn_self]
    rfl
  have hgood : v.Good (w.next + 1) := by
    split at hv
    · exact Option.some.inj hv ▸ hzip
    · split at hv
      · rename_i ha
        exact Option.some.inj hv ▸ (hzip.answers ha).2
      · rename_i ha
        cases (hzip.answers ha).1
      · cases hv
  exact (hgood.run_both (Nat.lt_succ_self _) hs).inv

theorem World.Inv.control {sup : Support} {ctlb : CtlBuf} (h : w.Inv)
    (hb : w.answers.all Answer.benign = true)
    (hguard : (Event.control ctlb).plainSide sup w = true)
    (hs : w.control sup fuel ctlb = some w') : w'.Inv := by
  unfold World.control at hs
  dsimp only [Event.plainSide] at hguard
  split at hs <;> rename_i hm
  · exact Option.some.inj hs ▸ h.sslProcess _ _
  · exact Option.some.inj hs ▸ h.sslProcess _ _
  · exact Option.some.inj hs ▸ h
  · exact Option.some.inj hs ▸ h
  · exact Option.some.inj hs ▸ h
  · rw [hm] at hguard
    exact Option.some.inj hs ▸ h.changeId hguard
  · rw [hm] at hguard
    exact h.zlibStart hb (of_decide_eq_true hguard) hs
  · rw [hm] at hguard
    cases hguard
  · rw [hm] at hguard
    cases hguard
  · exact Option.some.inj hs ▸ h
  · exact Option.some.inj hs ▸ h

/-- A handler that is registered is one of a live connection. -/
theorem Conn.take_spec {k : Conn} {r : Ready} {cb : Callback} {k' : Conn}
    (h : k.take r = (some cb, k')) :
    some cb ∈ k.callbacks ∧ k'.id = k.id ∧ k'.dead = k.dead ∧ k'.zipSsl = k.zipSsl ∧
      k'.freed = k.freed ∧ ∀ o ∈ k'.callbacks, o ∈ k.callbacks ∨ o = none := by
  unfold Conn.take at h
  cases r with
  | modRead =>
    obtain ⟨h1, rfl⟩ := Prod.mk.inj h
    simp [Conn.callbacks, h1]
  | modWrite =>
    obtain ⟨h1, rfl⟩ := Prod.mk.inj h
    simp [Conn.callbacks, h1]
  | plainRead =>
    obtain ⟨h1, rfl⟩ := Prod.mk.inj h
    simp [Conn.callbacks, h1]
  | plainWrite =>
    obtain ⟨h1, rfl⟩ := Prod.mk.inj h
    simp [Conn.callbacks, h1]

theorem World.Inv.ready (h : w.Inv) (hb : w.answers.all Answer.benign = true) (hc : c < w.next)
    {r : Ready} {cb : Callback} {k : Conn} (htake : (w.conns c).take r = (some cb, k))
    (hs : (w.modify c fun _ => k).call fuel cb = some w') : w'.Inv := by
  obtain ⟨hin, h1, h2, h3, h4, hcbs⟩ := Conn.take_spec htake
  obtain ⟨hdata, hfn⟩ := (h.conn c).callback _ hin cb rfl
  have hdead : (w.conns c).dead = false := by
    by_contra hd
    have hnone := ((h.conn c).idle (by simpa using hd)).1 _ hin
    cases hnone
  have hgood : (w.modify c fun _ => k).Good w.next := by
    refine ⟨h.register hdead h1 h2 h3 h4 fun o ho => ?_, rfl, hb⟩
    obtain hold | hnone := hcbs o ho
    · exact Or.inl hold
    · exact Or.inr (Or.inl hnone)
  unfold World.call at hs
  rw [hdata] at hs
  refine (kept w.next fuel cb.fn c _ w' hgood hc hfn (fun _ => ?_) hs).inv
  rw [World.modify_self]
  exact h2.trans hdead

theorem World.Inv.handshaken (h : w.Inv) (hb : w.answers.all Answer.benign = true)
    (hc : c < w.next) {hsk : Handshake} {status : Status}
    (hcur : (w.conns c).handshake = some hsk)
    (hguard : (status == .ok || (w.conns c).handshake != some .connect) = true)
    (hs : w.handshaken fuel c hsk status = some w') : w'.Inv := by
  have hdead : (w.conns c).dead = false := by
    by_contra hd
    have hnone := ((h.conn c).idle (by simpa using hd)).2
    rw [hcur] at hnone
    cases hnone
  have hgood : (w.modify c fun k => { k with handshake := none }).Good w.next :=
    ⟨h.register hdead rfl rfl rfl rfl fun o ho => Or.inl ho, rfl, hb⟩
  unfold World.handshaken at hs
  dsimp only at hs
  split at hs
  · exact (hgood.run_both hc hs).inv
  · rename_i hne
    have haccept : (hsk == .connect) = false := by
      cases hsk with
      | accept => rfl
      | connect =>
        rw [hcur] at hguard
        cases status with
        | ok => exact absurd rfl hne
        | timeout => cases hguard
        | error => cases hguard
    rw [haccept] at hs
    exact Option.some.inj hs ▸ (hgood.close hc).inv

/-- Without a flood nothing is closed. -/
theorem checkFlood_foldl {count : Nat → Nat} {l : List Nat}
    (hl : ∀ d ∈ l, ¬ ((w.conns d).ssl = true ∧ count d > 2)) :
    l.foldl (checkFlood count) w = w := by
  induction l with
  | nil => rfl
  | cons d l ih =>
    rw [List.foldl_cons]
    have hd : checkFlood count w d = w := if_neg (hl d List.mem_cons_self)
    rw [hd]
    exact ih fun e he => hl e (List.mem_cons_of_mem d he)

theorem World.Inv.flood (h : w.Inv) {sup : Support} {count : Nat → Nat}
    (hguard : (Event.checkHandshakeFlood count).plainSide sup w = true) (l : List Nat) :
    l.foldl (fun w' b => (w.buckets b).foldl (checkFlood count) w') w = w := by
  have hquiet : ∀ d, d < w.next → ¬ ((w.conns d).ssl = true ∧ count d > 2) := by
    rintro d hd ⟨hssl, hcount⟩
    have hd' := List.all_eq_true.mp hguard d (List.mem_range.mpr hd)
    rw [hssl] at hd'
    exact absurd (of_decide_eq_true hd') (Nat.not_le.mpr hcount)
  induction l with
  | nil => rfl
  | cons b l ih =>
    rw [List.foldl_cons, checkFlood_foldl fun d hd => hquiet d (h.hashed d b hd).1]
    exact ih

theorem World.Inv.clean (h : w.Inv) :
    { w with
      conns := fun c => if c ∈ w.deadList then { w.conns c with freed := true } else w.conns c
      deadList := [] }.Inv := by
  have hsame : ∀ d, (if d ∈ w.deadList then { w.conns d with freed := true } else w.conns d) =
      { w.conns d with freed := decide (d ∈ w.deadList) || (w.conns d).freed } := by
    intro d
    by_cases hd : d ∈ w.deadList
    · rw [if_pos hd, decide_eq_true hd, Bool.true_or]
    · rw [if_neg hd, decide_eq_false hd, Bool.false_or]
  simp only [hsame]
  exact {
    conn := by
      intro d
      refine ⟨(h.conn d).idle, (h.conn d).callback, ?_⟩
      intro hfreed
      obtain hin | hfreed := Bool.or_eq_true_iff.mp hfreed
      · exact (h.listed d (of_decide_eq_true hin)).2
      · exact (h.conn d).freed hfreed
    hashed := h.hashed
    nodup := h.nodup
    live := h.live
    dead := by
      intro d hd hdead
      obtain ⟨hin, hfreed⟩ := Bool.or_eq_false_iff.mp hd.2
      exact absurd (h.dead d ⟨hd.1, hfreed⟩ hdead) (of_decide_eq_false hin)
    listed := nofun
    found := h.found }

/-- Every event under the guard keeps the invariant. -/
theorem World.Inv.step {sup : Support} {x : Event × List Answer × Nat} (h : w.Inv)
    (hguard : PlainSide sup w x) (hs : w.step sup x = some w') : w'.Inv := by
  obtain ⟨e, answers, fuel⟩ := x
  obtain ⟨hb, hguard⟩ := hguard
  have h := h.answers answers
  unfold World.step at hs
  dsimp only at hs hb hguard
  rw [if_neg (by rw [h.found]; nofun)] at hs
  cases e with
  | control ctlb => exact h.control hb hguard hs
  | ready c r =>
    dsimp only at hs
    split at hs
    · cases hs
    rename_i hc
    split at hs
    · cases hs
    · rename_i cb k htake
      exact h.ready hb (Nat.lt_of_not_le hc) htake hs
  | handshake c status =>
    dsimp only at hs
    split at hs
    · cases hs
    rename_i hc
    split at hs
    · cases hs
    · rename_i hsk hcur
      exact h.handshaken hb (Nat.lt_of_not_le hc) hcur hguard hs
  | checkHandshakeFlood count =>
    dsimp only at hs
    have hquiet : (Event.checkHandshakeFlood count).plainSide sup { w with answers := answers } =
        true := hguard
    rw [h.flood hquiet] at hs
    exact Option.some.inj hs ▸ h
  | cleanDeadConns => exact Option.some.inj hs ▸ h.clean

end Events

-- ============================================================================
-- Whole runs
-- ============================================================================

/-- In every run in which no connection is closed from its SSL side, every id
    that is to be changed is found and no compressed link has a negative id, the
    table is sound. -/
theorem sound_of_plainSide_run {sup : Support} {w : World}
    (h : Reach (World.step sup) (PlainSide sup) World.start w) : w.Sound :=
  (h.invariant (P := World.Inv) World.inv_start fun _ _ _ hinv hguard hs => hinv.step hguard hs).sound

/-- An accepted connection whose plain side ends after the handshake. -/
theorem sound_after_plain_eof : ∃ w : World, w.Sound ∧ w.deadList = [0] := by
  have hreach : Reach (World.step ⟨true, true⟩) (PlainSide ⟨true, true⟩) World.start
      ([(Event.control ⟨[65, 5, 0, 0, 0], 5, 2⟩, [], 0),
        (.handshake 0 .ok, [.modRead .again, .plainFlush .again, .plainLength 0, .modLength 0,
          .plainRead .eof], 4)].foldl (Reach.perform (World.step ⟨true, true⟩)) World.start) := by
    simp only [List.foldl_cons, List.foldl_nil]
    exact (Reach.init.performed (by decide +kernel)).performed (by decide +kernel)
  exact ⟨_, sound_of_plainSide_run hreach, by decide +kernel⟩

/-- When the SSL side ends instead, the connection is dead, not on the list, and
    the handler that waits for it has no argument. -/
theorem not_sound_after_ssl_eof :
    ¬ ∀ (sup : Support) (w : World), Reach (World.step sup) anyStep World.start w → w.Sound := by
  intro h
  have hsound := h ⟨true, true⟩ _ (Reach.performed_all
    [(Event.control ⟨[65, 5, 0, 0, 0], 5, 2⟩, [], 0), (.handshake 0 .ok, [.modRead .eof], 3)] .init)
  have hwaiting := hsound.waiting 0 (by unfold World.Exists; decide +kernel) (by decide +kernel)
  revert hwaiting
  decide +kernel

end Bluebox.Ssld
