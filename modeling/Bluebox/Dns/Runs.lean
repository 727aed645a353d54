/-
  Bluebox.Dns.Runs

  Lookups that begin, and what holds in every run of the server with its resolver.
-/
import Bluebox.Dns.Safe

namespace Bluebox.Dns

open Bluebox.Lib

variable {w w' : World} {a nid : Nat} {q : Auth} {fresh half : Option Nat}

-- ============================================================================
-- New lookups
-- ============================================================================

/-- The number of a turn: the numbers come in turn, and 0 is none of them. -/
def idAt (turn : Nat) : Nat := turn % (idtable - 1) + 1

theorem idAt_succ (turn : Nat) : (if idAt turn < idtable - 1 then idAt turn + 1 else 1) = idAt (turn + 1) := by
  by_cases h : idAt turn < idtable - 1
  · rw [if_pos h]
    simp only [idAt, idtable] at *
    omega
  · rw [if_neg h]
    simp only [idAt, idtable] at *
    omega

theorem exists_idAt {i : Nat} (h : 0 < i) (h' : i < idtable) (turn : Nat) : ∃ k < idtable, idAt (turn + 1 + k) = i := by
  simp only [idAt, idtable] at *
  refine ⟨(i - 1 + 65534 - (turn + 1) % 65534) % 65534, ?_, ?_⟩ <;> omega

/-- The number handed out is the first free one. -/
theorem assignDnsId_eq_some {t : Nat → Option Owner} {fuel turn i : Nat} (h : assignDnsId t fuel (idAt turn) = some i) :
    ∃ k < fuel, idAt (turn + 1 + k) = i ∧ t i = none ∧ ∀ j < k, t (idAt (turn + 1 + j)) ≠ none := by
  induction fuel generalizing turn with
  | zero => simp [assignDnsId] at h
  | succ fuel ih =>
    simp only [assignDnsId, idAt_succ] at h
    by_cases hfree : t (idAt (turn + 1)) = none
    · rw [if_pos hfree, Option.some.injEq] at h
      exact ⟨0, by omega, h, h ▸ hfree, by simp⟩
    · rw [if_neg hfree] at h
      obtain ⟨k, hk, hi, hnone, hheld⟩ := ih h
      refine ⟨k + 1, by omega, by rw [← hi]; congr 1; omega, hnone, fun j hj => ?_⟩
      rcases j with - | j
      · exact hfree
      · have := hheld j (by omega)
        rwa [show turn + 1 + (j + 1) = turn + 1 + 1 + j by omega]

theorem assignDnsId_eq_none {t : Nat → Option Owner} {fuel turn : Nat} (h : assignDnsId t fuel (idAt turn) = none) :
    ∀ k < fuel, t (idAt (turn + 1 + k)) ≠ none := by
  induction fuel generalizing turn with
  | zero => omega
  | succ fuel ih =>
    simp only [assignDnsId, idAt_succ] at h
    split at h
    · simp at h
    · rename_i hheld
      intro k hk
      rcases k with - | k
      · exact hheld
      · have := ih h k (by omega)
        rwa [show turn + 1 + (k + 1) = turn + 1 + 1 + k by omega]

theorem Inv.exists_turn (h : Inv fresh half w) : ∃ turn, w.id = idAt turn := by
  obtain ⟨hpos, hlt⟩ := h.id_range
  exact ⟨w.id - 1, by simp only [idAt, idtable] at *; omega⟩

/-- A number is found exactly if there is one. -/
theorem assignDnsId_isSome (h : Inv fresh half w) :
    (assignDnsId w.querytable idtable w.id).isSome ↔ ∃ i, 0 < i ∧ i < idtable ∧ w.querytable i = none := by
  obtain ⟨turn, hturn⟩ := h.exists_turn
  rw [hturn]
  constructor
  · intro hsome
    obtain ⟨i, hi⟩ := Option.isSome_iff_exists.mp hsome
    obtain ⟨k, -, rfl, hfree, -⟩ := assignDnsId_eq_some hi
    exact ⟨_, by simp [idAt], by simp only [idAt, idtable]; omega, hfree⟩
  · rintro ⟨i, hi, hlt, hfree⟩
    obtain ⟨k, hk, rfl⟩ := exists_idAt hi hlt turn
    by_contra hnone
    exact assignDnsId_eq_none (by simpa using hnone) k hk hfree

theorem assignDnsId_free (h : Inv fresh half w) (hid : assignDnsId w.querytable idtable w.id = some nid) :
    0 < nid ∧ nid < idtable ∧ w.querytable nid = none := by
  obtain ⟨turn, hturn⟩ := h.exists_turn
  rw [hturn] at hid
  obtain ⟨k, -, rfl, hfree, -⟩ := assignDnsId_eq_some hid
  exact ⟨by simp [idAt], by simp only [idAt, idtable]; omega, hfree⟩

/-- With the resolver there, a lookup is an entry. -/
theorem lookup_eq (h : w.dnsHelper = true) (o : Owner) (started : Bool) :
    lookup w o started = (assignDnsId w.querytable idtable w.id).map fun nid =>
      ({ w with id := nid, querytable := Function.update w.querytable nid (some o) }, nid) := by
  rw [lookup, if_pos h, Option.bind_some]
  cases assignDnsId w.querytable idtable w.id with
  | none => rfl
  | some nid => simp [h]

theorem Inv.makeAuthRequest (h : Inv none none w) (timeout : Int) :
    Inv (some (w.next + 1)) none (makeAuthRequest w timeout) := by
  have htable : (Dns.makeAuthRequest w timeout).awaited = w.awaited := rfl
  simp only [Dns.makeAuthRequest] at htable ⊢
  have hnew : w.auths (w.next + 1) = none := by
    by_contra hsome
    obtain ⟨q, hq⟩ := Option.ne_none_iff_exists'.mp hsome
    have := (h.auth_lt _ q hq).1
    omega
  have hclient : ∀ b q, w.auths b = some q → b < w.next ∧ q.client < w.next := h.auth_lt
  constructor
  case helper => exact h.helper
  case held => exact h.held
  case entry =>
    intro i o hi
    have := h.entry i o (htable ▸ hi)
    cases o <;> grind [Waits, Function.update_apply]
  case auth_waits =>
    intro b q hb hdns hne
    have := h.auth_waits b q
    rw [htable]
    simp only [Function.update_apply] at hb
    grind
  case auth_fresh =>
    intro b q hb hf
    simp only [Function.update_apply] at hb
    grind
  case conf_waits => exact h.conf_waits
  case pending =>
    intro b q hb hne
    have := h.pending b q
    simp only [Function.update_apply] at hb
    grind
  case socket =>
    intro F b
    have := h.socket F b
    simp only [Function.update_apply]
    grind
  case socket_ident =>
    intro b q hb hF
    have := h.socket_ident b q
    simp only [Function.update_apply] at hb
    grind
  case request =>
    intro c b
    have := h.request c b
    simp only [Function.update_apply]
    by_cases hba : b = w.next + 1
    · rw [if_pos hba]
      by_cases hc : c = w.next
      · simp [hc, hba]
      · rw [if_neg hc, this]
        simp [hba, hnew, Ne.symm hc]
    · grind
  case listed =>
    obtain ⟨hnodup, hlist⟩ := h.listed
    refine ⟨List.nodup_cons.mpr ⟨by simp [hlist, hnew], hnodup⟩, fun b => ?_⟩
    simp only [List.mem_cons, hlist, Function.update_apply]
    grind
  case released =>
    obtain ⟨hnodup, hrel⟩ := h.released
    refine ⟨hnodup, fun c hc => ?_⟩
    have := hrel c hc
    simp only [Function.update_apply]
    grind
  case auth_lt =>
    intro b q hb
    have := h.auth_lt b q
    simp only [Function.update_apply] at hb
    grind
  case conf_lt =>
    intro c hc
    have := h.conf_lt c hc
    grind
  case socket_lt =>
    intro F hF
    have := h.socket_lt F hF
    grind
  case id_range => exact h.id_range

/-- A socket is opened for the new request. -/
theorem Inv.openSocket (h : Inv (some a) none w) (hq : w.auths a = some q) (hF : q.authF = none) (hident : q.ident = true) :
    Inv (some a) none { w.setAuth a { q with authF := some w.next } with
      sockets := Function.update w.sockets w.next (some a)
      next := w.next + 1 } := by
  have hnew : w.sockets w.next = none := by
    by_contra hsome
    have := h.socket_lt _ hsome
    omega
  simp only [World.setAuth]
  constructor
  case helper => exact h.helper
  case held => exact h.held
  case entry =>
    intro i o hi
    have := h.entry i o hi
    cases o <;> grind [Waits, Function.update_apply]
  case auth_waits =>
    intro b q hb hdns hne
    have := h.auth_waits b q
    simp only [Function.update_apply] at hb
    show w.awaited q.dnsQuery = _
    grind
  case auth_fresh =>
    intro b q hb hf
    have := h.auth_fresh b
    simp only [Function.update_apply] at hb
    grind
  case conf_waits => exact h.conf_waits
  case pending =>
    intro b q hb hne
    have := h.pending b
    simp only [Function.update_apply] at hb
    grind
  case socket =>
    intro F b
    have := h.socket F b
    have := h.socket w.next b
    have := h.socket F a
    simp only [Function.update_apply]
    by_cases hba : b = a <;> grind
  case socket_ident =>
    intro b q hb hF
    have := h.socket_ident b q
    simp only [Function.update_apply] at hb
    grind
  case request =>
    intro c b
    have := h.request c b
    simp only [Function.update_apply]
    grind
  case listed =>
    obtain ⟨hnodup, hlist⟩ := h.listed
    refine ⟨hnodup, fun b => ?_⟩
    simp only [hlist, Function.update_apply]
    grind
  case released =>
    obtain ⟨hnodup, hrel⟩ := h.released
    refine ⟨hnodup, fun c hc => ?_⟩
    have := hrel c hc
    grind
  case auth_lt =>
    intro b q hb
    have := h.auth_lt b
    simp only [Function.update_apply] at hb
    grind
  case conf_lt =>
    intro c hc
    have := h.conf_lt c hc
    grind
  case socket_lt =>
    intro F hF
    have := h.socket_lt F
    simp only [Function.update_apply] at hF
    grind
  case id_range => exact h.id_range

/-- An entry that is free is taken. -/
theorem Inv.awaited_update (h : Inv fresh half w) (hfree : w.querytable nid = none) (o : Owner) (i : Nat) :
    (if w.reading = some (.results i) then none else Function.update w.querytable nid (some o) i) =
      if i = nid then some o else w.awaited i := by
  simp only [World.awaited, Function.update_apply]
  have := h.held i
  grind

/-- The entry of the answer that is being read stays. -/
theorem Inv.held_update (h : Inv fresh half w) (o : Owner) {i : Nat} (hi : w.reading = some (.results i)) :
    0 < i ∧ Function.update w.querytable nid (some o) i ≠ none := by
  obtain ⟨hpos, hheld⟩ := h.held i hi
  refine ⟨hpos, ?_⟩
  rw [Function.update_apply]
  split
  · simp
  · exact hheld

/-- The new request is entered. -/
theorem Inv.enterAuth (h : Inv (some a) half w) (hhalf : half = none ∨ half = some a) (hq : w.auths a = some q) (hpos : 0 < nid) (hlt : nid < idtable)
    (hfree : w.querytable nid = none) :
    Inv none none { w with
      id := nid
      querytable := Function.update w.querytable nid (some (.auth a))
      auths := Function.update w.auths a (some { q with dnsQuery := nid }) } := by
  have hfresh := h.auth_fresh a q hq rfl
  have htable := h.awaited_update hfree (.auth a)
  have hnone := awaited_eq_none hfree
  have hzero := h.awaited_zero
  refine { h with entry := ?_, held := fun _ hi => h.held_update _ hi, auth_waits := ?_, auth_fresh := ?_, conf_waits := ?_, pending := ?_, socket := ?_,
                  socket_ident := ?_, request := ?_, listed := ?_, auth_lt := ?_, id_range := ⟨hpos, hlt⟩ }
  · intro i o hi
    rw [World.awaited, htable] at hi
    have := h.entry i o
    cases o <;> grind [Waits, Function.update_apply]
  · intro b q hb hdns hne
    have := h.auth_waits b q
    rw [World.awaited, htable]
    simp only [Function.update_apply] at hb
    grind
  · simp
  · intro c i hc hne
    have := h.conf_waits c i hc hne
    rw [World.awaited, htable]
    grind
  · intro b q hb hne
    have := h.pending b q
    simp only [Function.update_apply] at hb
    grind
  · intro F b
    have := h.socket F b
    simp only [Function.update_apply]
    grind
  · intro b q hb hF
    have := h.socket_ident b
    simp only [Function.update_apply] at hb
    grind
  · intro c b
    have := h.request c b
    simp only [Function.update_apply]
    grind
  · obtain ⟨hnodup, hlist⟩ := h.listed
    refine ⟨hnodup, fun b => ?_⟩
    simp only [hlist, Function.update_apply]
    grind
  · intro b q hb
    have := h.auth_lt b
    simp only [Function.update_apply] at hb
    grind

/-- A new configuration is entered. -/
theorem Inv.enterConf (h : Inv none none w) (hpos : 0 < nid) (hlt : nid < idtable) (hfree : w.querytable nid = none) :
    Inv none none { w with
      id := nid
      querytable := Function.update w.querytable nid (some (.conf w.next))
      confs := Function.update w.confs w.next (some nid)
      next := w.next + 1 } := by
  have hnew : w.confs w.next = none := by
    by_contra hsome
    have := h.conf_lt _ hsome
    omega
  have htable := h.awaited_update hfree (.conf w.next)
  have hnone := awaited_eq_none hfree
  refine { h with entry := ?_, held := fun _ hi => h.held_update _ hi, auth_waits := ?_, conf_waits := ?_, released := ?_,
                  auth_lt := ?_, conf_lt := ?_, socket_lt := ?_, id_range := ⟨hpos, hlt⟩ }
  · intro i o hi
    rw [World.awaited, htable] at hi
    have := h.entry i o
    cases o <;> grind [Waits, Function.update_apply]
  · intro b q hb hdns hne
    have := h.auth_waits b q hb hdns hne
    rw [World.awaited, htable]
    grind
  · intro c i hc hne
    have := h.conf_waits c i
    rw [World.awaited, htable]
    simp only [Function.update_apply] at hc
    grind
  · obtain ⟨hnodup, hrel⟩ := h.released
    exact ⟨hnodup, fun c hc => by have := hrel c hc; grind⟩
  · intro b q hb
    have := h.auth_lt b q hb
    grind
  · intro c hc
    have := h.conf_lt c
    simp only [Function.update_apply] at hc
    grind
  · intro F hF
    have := h.socket_lt F hF
    grind

/-- Whatever becomes of ident, the new request is there and still waits for its name. -/
theorem Inv.startAuthQuery (h : Inv (some a) none w) (hidle : w.reading = none) (hq : w.auths a = some q) (hF : q.authF = none) (hident : q.ident = true)
    (i : IdentStart) : ∃ w' q', startAuthQuery w a i = some w' ∧ w'.auths a = some q' ∧ Inv (some a) none w' ∧
      w'.querytable = w.querytable ∧ w'.id = w.id := by
  have hdns := (h.auth_fresh a q hq rfl).1
  cases i with
  | dead => exact ⟨w, q, rfl, hq, h, rfl, rfl⟩
  | ended =>
    obtain ⟨w', hw', hinv⟩ := h.identOver hq hidle (fun _ => hdns)
    have hw := hw'
    simp only [Dns.identOver, hq, releaseAuthClient, closeAuthF, Function.update_self, hdns, Bool.true_or, if_true,
      Option.some.injEq] at hw
    exact ⟨w', { q with ident := false, authF := none }, hw', by simp [← hw, hdns], hinv, by simp [← hw],
      by simp [← hw]⟩
  | pending =>
    exact ⟨_, { q with authF := some w.next }, by simp only [Dns.startAuthQuery, hq], Function.update_self ..,
      h.openSocket hq hF hident, rfl, rfl⟩

/-- What `lookup` needs. -/
def HasFree (w : World) : Prop := ∃ i, 0 < i ∧ i < idtable ∧ w.querytable i = none

/-- What `lookup` does: `o` has got the first free number. -/
def Takes (w w' : World) (o : Owner) : Prop :=
  assignDnsId w.querytable idtable w.id = some w'.id ∧ w'.querytable = Function.update w.querytable w'.id (some o)

/-- A client that connects is entered, if there is a number for its lookup. -/
theorem Inv.startAuth (h : Inv none none w) (hidle : w.reading = none) (disableAuth : Bool) (i : IdentStart) (started : Bool) (timeout : Int) :
    (∀ w', startAuth w disableAuth i started timeout = some w' → Inv none none w' ∧ Takes w w' (.auth (w.next + 1))) ∧
      ((startAuth w disableAuth i started timeout).isSome ↔ HasFree w) := by
  have hmake := h.makeAuthRequest timeout
  have hmade : (Dns.makeAuthRequest w timeout).auths (w.next + 1) = some ⟨w.next, 0, none, true, true, timeout⟩ :=
    Function.update_self ..
  obtain ⟨w₂, q₂, half, hw₂, hq₂, hinv, hhalf, htable, hsame⟩ : ∃ w₂ q₂ half,
      (if disableAuth then ((Dns.makeAuthRequest w timeout).auths (w.next + 1)).map fun q =>
          (Dns.makeAuthRequest w timeout).setAuth (w.next + 1) { q with ident := false }
        else Dns.startAuthQuery (Dns.makeAuthRequest w timeout) (w.next + 1) i) = some w₂ ∧
      w₂.auths (w.next + 1) = some q₂ ∧ Inv (some (w.next + 1)) half w₂ ∧ (half = none ∨ half = some (w.next + 1)) ∧
      w₂.querytable = w.querytable ∧ w₂.id = w.id := by
    cases disableAuth with
    | true =>
      have hamend : Inv (some (w.next + 1)) (some (w.next + 1))
          ((Dns.makeAuthRequest w timeout).setAuth (w.next + 1) ⟨w.next, 0, none, true, false, timeout⟩) :=
        hmake.amend ⟨w.next, 0, none, true, false, timeout⟩ hmade (.inl rfl) (by simp)
          ⟨rfl, rfl, .inl ⟨rfl, rfl, fun _ => rfl⟩, hmake.held, .inr ⟨rfl, fun F => by simp [World.setAuth]⟩, rfl, rfl, rfl, rfl, rfl, rfl, rfl⟩
      exact ⟨_, ⟨w.next, 0, none, true, false, timeout⟩, some (w.next + 1), by simp [hmade], Function.update_self ..,
        hamend, .inr rfl, rfl, rfl⟩
    | false =>
      obtain ⟨w₂, q₂, hw₂, hq₂, hinv, htable, hsame⟩ := hmake.startAuthQuery hidle hmade rfl rfl i
      exact ⟨w₂, q₂, none, by simpa using hw₂, hq₂, hinv, .inl rfl, htable, hsame⟩
  have hfree := assignDnsId_isSome hinv
  rw [htable] at hfree
  simp only [Dns.startAuth, hw₂, Option.bind_some, lookup_eq hinv.helper]
  cases hid : assignDnsId w₂.querytable idtable w₂.id with
  | none =>
    rw [htable] at hid
    rw [hid] at hfree
    exact ⟨by simp, by simpa [HasFree] using hfree⟩
  | some nid =>
    obtain ⟨hpos, hlt, hnone⟩ := assignDnsId_free hinv hid
    rw [htable] at hid
    rw [hid] at hfree
    refine ⟨fun w' hw' => ?_, by simpa [HasFree, hq₂] using hfree⟩
    simp only [Option.map_some, Option.bind_some, hq₂, Option.some.injEq] at hw'
    rw [← hw']
    refine ⟨hinv.enterAuth hhalf hq₂ hpos hlt hnone, by rwa [← hsame], ?_⟩
    simp [World.setAuth, htable]

/-- A configuration is entered, if there is a number for its lookup. -/
theorem Inv.addServerConf (h : Inv none none w) (started : Bool) :
    (∀ w', addServerConf w started = some w' → Inv none none w' ∧ Takes w w' (.conf w.next)) ∧
      ((addServerConf w started).isSome ↔ HasFree w) := by
  have hfree := assignDnsId_isSome h
  simp only [Dns.addServerConf, lookup_eq (w := { w with confs := Function.update w.confs w.next (some 0), next := w.next + 1 }) h.helper]
  cases hid : assignDnsId w.querytable idtable w.id with
  | none =>
    rw [hid] at hfree
    exact ⟨by simp, by simpa [HasFree] using hfree⟩
  | some nid =>
    obtain ⟨hpos, hlt, hnone⟩ := assignDnsId_free h hid
    rw [hid] at hfree
    refine ⟨fun w' hw' => ?_, by simpa [HasFree] using hfree⟩
    simp only [Option.map_some, Option.bind_some, Function.update_self, Function.update_idem, Option.some.injEq] at hw'
    rw [← hw']
    exact ⟨h.enterConf hpos hlt hnone, hid, rfl⟩

-- ============================================================================
-- The timer
-- ============================================================================

/-- The client of a request that is overdue. -/
def overdue (w : World) (now : Int) (a : Nat) : Option Nat :=
  (w.auths a).bind fun q => if q.timeout < now then some q.client else none

/-- The walk has let the client of a request go. -/
structure LetsGo (now : Int) (w w' : World) (a : Nat) (q : Auth) (next : Option Nat) : Prop where
  auth : w.auths a = some q
  late : q.timeout < now
  auths : w'.auths = Function.update w.auths a none
  list : w'.authPollList = w.authPollList.erase a
  released : w'.released = w.released ++ [q.client]
  reading : w'.reading = some (.timeout now next)

theorem LetsGo.overdue {now : Int} {next : Option Nat} (h : LetsGo now w w' a q next) : overdue w now a = some q.client := by
  simp [Dns.overdue, h.auth, h.late]

theorem Inv.timeoutAuth_late (h : Inv none none w) (hidle : w.reading = none) {now : Int} (next : Option Nat)
    (hq : w.auths a = some q) (hlate : q.timeout < now) :
    ∃ w', Dns.timeoutAuth now w a next = some w' ∧ Inv none none w' ∧ LetsGo now w w' a q next := by
  obtain ⟨w', hw', hinv⟩ := h.timeoutAuth hidle now next hq
  refine ⟨w', hw', hinv, ?_⟩
  simp only [Dns.timeoutAuth, hq, if_pos hlate] at hw'
  cases hdns : q.dns <;>
    simp only [hdns, Bool.false_eq_true, if_true, if_false, releaseAuthClient, cancelLookup, closeAuthF,
      Function.update_self, Bool.or_self, Option.some.injEq] at hw' <;>
    subst hw' <;> exact ⟨hq, hlate, Function.update_idem .., rfl, rfl, rfl⟩

/-- The loop goes as far as the first request that is overdue. -/
theorem Inv.timeoutLoop (h : Inv none none w) (hidle : w.reading = none) (now : Int) {l : List Nat}
    (hlive : ∀ a ∈ l, (w.auths a).isSome) :
    ∃ w', Dns.timeoutLoop now w l = some w' ∧ Inv none none w' ∧
      ((∀ a ∈ l, overdue w now a = none) ∧ w' = w ∨
        ∃ pre a q post, l = pre ++ a :: post ∧ (∀ b ∈ pre, overdue w now b = none) ∧ LetsGo now w w' a q post.head?) := by
  induction l with
  | nil => exact ⟨w, rfl, h, .inl ⟨by simp, rfl⟩⟩
  | cons a l ih =>
    obtain ⟨q, hq⟩ := Option.isSome_iff_exists.mp (hlive a (by simp))
    by_cases hlate : q.timeout < now
    · obtain ⟨w', hw', hinv, hgo⟩ := h.timeoutAuth_late hidle l.head? hq hlate
      exact ⟨w', by simp [Dns.timeoutLoop, hw', hgo.reading], hinv, .inr ⟨[], a, q, l, rfl, by simp, hgo⟩⟩
    · have hkeep : Dns.timeoutAuth now w a l.head? = some w := by simp [Dns.timeoutAuth, hq, hlate]
      have hnone : overdue w now a = none := by simp [overdue, hq, hlate]
      obtain ⟨w', hw', hinv, hloop⟩ := ih fun b hb => hlive b (by simp [hb])
      refine ⟨w', by simp [Dns.timeoutLoop, hkeep, hidle, hw'], hinv, ?_⟩
      rcases hloop with ⟨hall, rfl⟩ | ⟨pre, b, qb, post, rfl, hpre, hgo⟩
      · exact .inl ⟨by simpa [hnone] using hall, rfl⟩
      · exact .inr ⟨a :: pre, b, qb, post, rfl, by simpa [hnone] using hpre, hgo⟩

/-- The commands of a client have run, and no entry is behind. -/
theorem Inv.endRead (h : Inv none none w) {t : Nat → Option Owner} (ht : w.awaited = t) :
    Inv none none { w with querytable := t, reading := none } := by
  subst ht
  have htable : World.awaited { w with querytable := w.awaited, reading := none } = w.awaited := World.awaited_of_idle rfl
  exact { h with
    entry := fun i o hi => h.entry i o (htable ▸ hi)
    held := by simp
    auth_waits := htable ▸ h.auth_waits
    conf_waits := htable ▸ h.conf_waits }

/-- Where the walk goes on. -/
theorem readPacketReturns_timeout {now : Int} {next : Option Nat} {x y : List Nat} (h : Inv none none w)
    (hreading : w.reading = some (.timeout now next)) (hlist : w.authPollList = x ++ y) (hnext : next = y.head?) :
    readPacketReturns w = Dns.timeoutLoop now { w with reading := none } y := by
  subst hnext
  cases y with
  | nil => simp [readPacketReturns, hreading, Dns.timeoutLoop]
  | cons p y =>
    obtain ⟨hnodup, hmem⟩ := h.listed
    have hlive : (w.auths p).isSome := (hmem p).mp (by simp [hlist])
    obtain ⟨q, hq⟩ := Option.isSome_iff_exists.mp hlive
    have hx : ∀ a ∈ x, a ≠ p := by
      rintro a ha rfl
      rw [hlist] at hnodup
      exact (List.nodup_append.mp hnodup).2.2 a ha a (by simp) rfl
    have hdrop : w.authPollList.dropWhile (· ≠ p) = p :: y := by
      rw [hlist, List.dropWhile_append_of_pos (by simpa using hx)]
      simp
    simp only [readPacketReturns, hreading, List.head?_cons, hq, Option.bind_some, hdrop]

theorem Inv.readPacketReturns (h : Inv none none w) :
    (∀ w', Dns.readPacketReturns w = some w' → Inv none none w') ∧
      ((Dns.readPacketReturns w).isSome ↔
        w.reading ≠ none ∧ ∀ now p, w.reading = some (.timeout now (some p)) → (w.auths p).isSome) := by
  have hquiet : (∀ i, w.reading ≠ some (.results i)) → w.awaited = w.querytable := fun hne => by
    funext i
    rw [World.awaited, if_neg (hne i)]
  cases hreading : w.reading with
  | none => simp [Dns.readPacketReturns, hreading]
  | some caller =>
    cases caller with
    | results nid =>
      have htable : w.awaited = (cancelLookup w nid).querytable := by
        funext i
        simp only [World.awaited, hreading, cancelLookup, Function.update_apply]
        grind
      refine ⟨fun w' hw' => ?_, by simp [Dns.readPacketReturns, hreading]⟩
      simp only [Dns.readPacketReturns, hreading, Option.some.injEq] at hw'
      exact hw' ▸ h.endRead htable
    | ident =>
      refine ⟨fun w' hw' => ?_, by simp [Dns.readPacketReturns, hreading]⟩
      simp only [Dns.readPacketReturns, hreading, Option.some.injEq] at hw'
      exact hw' ▸ h.endRead (hquiet (by simp [hreading]))
    | timeout now next =>
      have hinv : Inv none none { w with reading := none } := h.endRead (hquiet (by simp [hreading]))
      cases next with
      | none =>
        refine ⟨fun w' hw' => ?_, by simp [Dns.readPacketReturns, hreading]⟩
        simp only [Dns.readPacketReturns, hreading, Option.some.injEq] at hw'
        exact hw' ▸ hinv
      | some p =>
        cases hp : w.auths p with
        | none => simp [Dns.readPacketReturns, hreading, hp]
        | some q =>
          have hlive : ∀ a ∈ w.authPollList.dropWhile (· ≠ p), (w.auths a).isSome := fun a ha =>
            (h.listed.2 a).mp ((List.dropWhile_sublist _).subset ha)
          obtain ⟨w₁, hw₁, hinv₁, -⟩ := hinv.timeoutLoop rfl now hlive
          simp only [Dns.readPacketReturns, hreading, hp, Option.bind_some, hw₁]
          exact ⟨by simp [hinv₁], by simp [hp]⟩

-- ============================================================================
-- Runs
-- ============================================================================

/-- What a step needs: the main loop, or a command; a number for a new lookup, an answer that has a
    place in `querytable`, a configuration that is there, a resolver that starts and whose answer is
    not being read.  Where the commands of a client are over, the request that the walk of the timer
    goes on at is still there. -/
def Able (w : World) (e : Event) : Prop :=
  (w.reading = none ∨ e.nested = true) ∧
    match e with
    | .connect .. => HasFree w
    | .addConf _ => HasFree w
    | .answer nid => nid % 65536 < idtable
    | .freeConf c => (w.confs c).isSome
    | .restart started => started = true ∧ ∀ nid, w.reading ≠ some (.results nid)
    | .readEnd => w.reading ≠ none ∧ ∀ now p, w.reading = some (.timeout now (some p)) → (w.auths p).isSome
    | _ => True

theorem answering_eq_false : w.answering = false ↔ ∀ nid, w.reading ≠ some (.results nid) := by
  unfold World.answering
  cases w.reading with
  | none => simp
  | some caller => cases caller <;> simp

theorem Inv.step (h : Inv none none w) (e : Event) :
    (∀ w', step w e = some w' → Inv none none w') ∧ ((step w e).isSome ↔ Able w e) := by
  by_cases hwhen : w.reading = none ∨ e.nested = true
  swap
  · exact ⟨by simp [Dns.step, hwhen], by simp [Dns.step, Able, hwhen]⟩
  simp only [Dns.step, Able, hwhen, if_true, true_and]
  -- a step that has a result that keeps the invariant
  have hdone : ∀ {r : Option World} {P : Prop}, (∃ w', r = some w' ∧ Inv none none w') → P →
      (∀ w', r = some w' → Inv none none w') ∧ (r.isSome ↔ P) := by
    rintro r P ⟨w₁, rfl, hinv⟩ hable
    exact ⟨by simp [hinv], by simp [hable]⟩
  cases e with
  | connect disableAuth ident started timeout =>
    obtain ⟨hstep, hable⟩ := h.startAuth (by simpa [Event.nested] using hwhen) disableAuth ident started timeout
    exact ⟨fun w' hw' => (hstep w' hw').1, hable⟩
  | answer nid =>
    simp only [Event.run, resultsCallback]
    by_cases hnid : nid % 65536 < idtable
    · rw [if_pos hnid]
      exact hdone (h.finishLookup (by simpa [Event.nested] using hwhen) _) hnid
    · rw [if_neg hnid]
      exact ⟨by simp, by simp [hnid]⟩
  | ident F more =>
    refine hdone ?_ trivial
    simp only [Event.run, identEvent]
    cases hF : w.sockets F with
    | none => exact ⟨w, rfl, h⟩
    | some a =>
      obtain ⟨q, hq, -⟩ := (h.socket F a).mp hF
      cases more with
      | true => exact ⟨w, by simp [hq], h⟩
      | false => exact h.identOver hq (by simpa [Event.nested] using hwhen) (by simp)
  | timer now =>
    obtain ⟨w', hw', hinv, -⟩ := h.timeoutLoop (by simpa [Event.nested] using hwhen) now fun a ha => (h.listed.2 a).mp ha
    exact hdone ⟨w', hw', hinv⟩ trivial
  | exit client => exact hdone (h.deleteAuthQueries client) trivial
  | addConf started =>
    obtain ⟨hstep, hable⟩ := h.addServerConf started
    exact ⟨fun w' hw' => (hstep w' hw').1, hable⟩
  | freeConf c =>
    simp only [Event.run, freeServerConf]
    cases hc : w.confs c with
    | none => exact ⟨by simp, by simp⟩
    | some i => exact hdone ⟨_, rfl, h.settleConf hc (.inl rfl)⟩ (by simp)
  | restart started =>
    simp only [Event.run, restartResolver, ← answering_eq_false]
    by_cases hstart : started = true ∧ w.answering = false
    · exact hdone ⟨{ w with dnsHelper := true }, by simp [hstart], { h with helper := rfl }⟩ hstart
    · exact ⟨by simp [hstart], by simp [hstart]⟩
  | readEnd => exact h.readPacketReturns

theorem inv_of_reach (h : Reach step anyStep World.start w) : Inv none none w :=
  h.invariant inv_start fun _ e w' hinv _ hw' => (hinv.step e).1 w' hw'

/-- In every run, an entry of `querytable` and the one that waits for it point at each other, so that
    no answer and no socket comes back to a request that is gone; a request is there as long as it
    waits for something, and its client is let through at most once.  A step fails only where
    it lacks what it needs. -/
theorem lookups_safe (h : Reach step anyStep World.start w) :
    (∀ i o, w.awaited i = some o ↔ 0 < i ∧ Waits w i o) ∧
      (∀ F a, w.sockets F = some a ↔ ∃ q, w.auths a = some q ∧ q.authF = some F) ∧
      (∀ a q, w.auths a = some q → (q.dns ∨ q.ident) ∧ w.authRequest q.client = some a ∧ a ∈ w.authPollList) ∧
      w.released.Nodup ∧ (∀ c ∈ w.released, w.authRequest c = none) ∧
      ∀ e, (step w e).isSome ↔ Able w e := by
  have hinv := inv_of_reach h
  refine ⟨fun i o => ⟨hinv.entry i o, ?_⟩, hinv.socket, fun a q hq => ⟨hinv.pending a q hq (by simp), ?_, ?_⟩,
    hinv.released.1, fun c hc => (hinv.released.2 c hc).1, fun e => (hinv.step e).2⟩
  · rintro ⟨hpos, hwaits⟩
    cases o with
    | auth a =>
      obtain ⟨q, hq, hdns, rfl⟩ := hwaits
      exact hinv.auth_waits a q hq hdns (by simp)
    | conf c => exact hinv.conf_waits c i hwaits (by omega)
  · exact (hinv.request q.client a).mpr ⟨q, hq, rfl⟩
  · exact (hinv.listed.2 a).mpr (by simp [hq])

/-- The answer lets the client through, and its commands make a configuration. -/
theorem lookups_safe_connected :
    let w := [Event.connect true .dead true 0, .answer 2, .addConf true].foldl (Reach.perform step) World.start
    (∀ i o, w.awaited i = some o ↔ 0 < i ∧ Waits w i o) ∧
      (∀ F a, w.sockets F = some a ↔ ∃ q, w.auths a = some q ∧ q.authF = some F) ∧
      (∀ a q, w.auths a = some q → (q.dns ∨ q.ident) ∧ w.authRequest q.client = some a ∧ a ∈ w.authPollList) ∧
      w.released.Nodup ∧ (∀ c ∈ w.released, w.authRequest c = none) ∧
      ∀ e, (step w e).isSome ↔ Able w e :=
  lookups_safe (Reach.init.performed_all _)

-- ============================================================================
-- The walk of the timer
-- ============================================================================

/-- The walk that began at `w` has come to `u`: `done` is behind it, `rest` is before it, the clients `r`
    have been let through, and those of `gone` may have exited.  Nothing behind it is overdue. -/
structure Walk (now : Int) (gone : Nat → Prop) (w u : World) (done rest r : List Nat) : Prop where
  whole : w.authPollList = done ++ rest
  list : ∃ x y, u.authPollList = x ++ y ∧ x.Sublist done ∧ y.Sublist rest ∧ ∀ a ∈ x, overdue u now a = none
  kept : ∀ a q, u.auths a = some q → w.auths a = some q
  released : u.released = w.released ++ r
  order : r.Sublist (done.filterMap (overdue w now))
  left : ∀ a q, w.auths a = some q → u.auths a = none → gone q.client ∨ q.timeout < now ∧ q.client ∈ r

variable {now : Int} {gone : Nat → Prop} {u u' : World} {done rest r : List Nat}

/-- The walk waits at the request that `rest` begins with, or is over. -/
def Halts (now : Int) (u : World) (rest : List Nat) : Prop :=
  u.reading = some (.timeout now rest.head?) ∨ u.reading = none ∧ rest = []

/-- The elements of a sublist that stand before one of it stand before it in the list. -/
theorem sublist_split {x y l : List Nat} {p : Nat} (h : (x ++ p :: y).Sublist l) :
    ∃ d e, l = d ++ p :: e ∧ x.Sublist d ∧ (p :: y).Sublist (p :: e) := by
  obtain ⟨d, l', rfl, hx, hy⟩ := List.append_sublist_iff.mp h
  obtain ⟨d', e, rfl, hp, hrest⟩ := List.cons_sublist_iff.mp hy
  obtain ⟨s, t, rfl⟩ := List.append_of_mem hp
  exact ⟨d ++ s, t ++ e, by simp, hx.trans (List.sublist_append_left d s), (hrest.trans (List.sublist_append_right t e)).cons_cons p⟩

/-- The lists of a walk that has let a client go: what it has passed, and what is left. -/
theorem LetsGo.split {q : Auth} {x pre post : List Nat} {next : Option Nat} (h : LetsGo now w w' a q next)
    (hlist : w.authPollList = x ++ (pre ++ a :: post)) (hnodup : w.authPollList.Nodup) :
    w'.authPollList = x ++ pre ++ post ∧ a ∉ post := by
  rw [hlist, ← List.append_assoc] at hnodup
  obtain ⟨-, hpost, hdisj⟩ := List.nodup_append.mp hnodup
  refine ⟨?_, (List.nodup_cons.mp hpost).1⟩
  rw [h.list, hlist, ← List.append_assoc, List.erase_append_right _ fun ha => hdisj a ha a (by simp) rfl, List.erase_cons_head]

/-- The walk goes on to the next request that is overdue. -/
theorem Walk.loop (h : Walk now gone w u done rest r) (hinv : Inv none none u) (hidle : u.reading = none) {x y : List Nat}
    (hlist : u.authPollList = x ++ y) (hx : x.Sublist done) (hy : y.Sublist rest) (hnone : ∀ a ∈ x, overdue u now a = none)
    (hloop : Dns.timeoutLoop now u y = some u') :
    ∃ done' rest' r', Walk now gone w u' done' rest' r' ∧ Halts now u' rest' := by
  obtain ⟨hnodup, hmem⟩ := hinv.listed
  have hlive : ∀ a ∈ y, (u.auths a).isSome := fun a ha => (hmem a).mp (by simp [hlist, ha])
  obtain ⟨u₁, hu₁, -, hcase⟩ := hinv.timeoutLoop hidle now hlive
  obtain rfl : u₁ = u' := Option.some.inj (hu₁.symm.trans hloop)
  rcases hcase with ⟨hall, rfl⟩ | ⟨pre, a, q, post, rfl, hpre, hgo⟩
  · -- nothing is overdue any longer
    refine ⟨w.authPollList, [], r, { h with
      whole := by simp
      list := ⟨u₁.authPollList, [], by simp, ?_, by simp, fun a ha => ?_⟩
      order := ?_ }, .inr ⟨hidle, rfl⟩⟩
    · rw [hlist, h.whole]
      exact hx.append hy
    · rw [hlist] at ha
      exact (List.mem_append.mp ha).elim (hnone a) (hall a)
    · rw [h.whole, List.filterMap_append]
      exact h.order.trans (List.sublist_append_left _ _)
  · -- the client of `a` is let through, and `post` is left
    have hauths : ∀ b, u₁.auths b = if b = a then none else u.auths b := fun b => by
      rw [hgo.auths, Function.update_apply]
    have hover : ∀ b, overdue u now b = none → overdue u₁ now b = none := fun b hb => by
      rw [overdue, hauths]
      split
      · rfl
      · exact hb
    have hlist' := (hgo.split hlist hnodup).1
    have hkept : ∀ b qb, u₁.auths b = some qb → w.auths b = some qb := by
      intro b qb hb
      rw [hauths] at hb
      split at hb
      · cases hb
      · exact h.kept b qb hb
    have hleft : ∀ b qb, w.auths b = some qb → u₁.auths b = none →
        gone qb.client ∨ qb.timeout < now ∧ qb.client ∈ r ++ [q.client] := by
      intro b qb hb hgone
      rw [hauths] at hgone
      split at hgone
      · rename_i hba
        subst hba
        obtain rfl : q = qb := Option.some.inj ((h.kept b q hgo.auth).symm.trans hb)
        exact .inr ⟨hgo.late, by simp⟩
      · rcases h.left b qb hb hgone with hg | ⟨hlate, hr⟩
        · exact .inl hg
        · exact .inr ⟨hlate, by simp [hr]⟩
    have hrel : u₁.released = w.released ++ (r ++ [q.client]) := by rw [hgo.released, h.released, List.append_assoc]
    have hpassed : ∀ b ∈ x ++ pre, overdue u₁ now b = none := fun b hb =>
      hover b ((List.mem_append.mp hb).elim (hnone b) (hpre b))
    -- the requests of `d` begin behind those of `done`, and `a` is one of them
    have horder : ∀ d : List Nat, (pre ++ [a]).Sublist d → (r ++ [q.client]).Sublist ((done ++ d).filterMap (overdue w now)) := by
      intro d hd
      rw [List.filterMap_append]
      refine h.order.append ?_
      have ha : overdue w now a = some q.client := by simp [overdue, h.kept a q hgo.auth, hgo.late]
      have := ((List.sublist_append_right pre [a]).trans hd).filterMap (overdue w now)
      simpa [ha] using this
    cases post with
    | nil =>
      refine ⟨w.authPollList, [], r ++ [q.client], ⟨by simp, ⟨x ++ pre, [], hlist', ?_, by simp, hpassed⟩, hkept, hrel, ?_, hleft⟩,
        .inl hgo.reading⟩
      · rw [h.whole]
        exact hx.append ((List.sublist_append_left pre [a]).trans hy)
      · rw [h.whole]
        exact horder rest hy
    | cons p post =>
      obtain ⟨d, e, rfl, hd, he⟩ := sublist_split (x := pre ++ [a]) (by simpa using hy)
      exact ⟨done ++ d, p :: e, r ++ [q.client], ⟨by simp [h.whole], ⟨x ++ pre, p :: post, hlist',
        hx.append ((List.sublist_append_left pre [a]).trans hd), he, hpassed⟩, hkept, hrel, horder d hd, hleft⟩, .inl hgo.reading⟩

/-- What a command does to the requests does not disturb the walk, where a client that exits counts as gone. -/
theorem Walk.narrow (h : Walk now gone w u done rest r) {l : Nat → Bool} (hlist : u'.authPollList = u.authPollList.filter l)
    (hauths : ∀ a, u'.auths a = if l a then u.auths a else none) (hreleased : u'.released = u.released)
    (hgone : ∀ a q, u.auths a = some q → l a = false → gone q.client) : Walk now gone w u' done rest r := by
  obtain ⟨x, y, hxy, hx, hy, hnone⟩ := h.list
  refine { h with
    list := ⟨x.filter l, y.filter l, by rw [hlist, hxy, List.filter_append], List.filter_sublist.trans hx,
      List.filter_sublist.trans hy, fun a ha => ?_⟩
    kept := fun a q ha => ?_
    released := hreleased.trans h.released
    left := fun a q ha hleft => ?_ }
  · obtain ⟨ha, hl⟩ := List.mem_filter.mp ha
    rw [overdue, hauths, if_pos hl]
    exact hnone a ha
  · rw [hauths] at ha
    split at ha
    · exact h.kept a q ha
    · cases ha
  · rw [hauths] at hleft
    cases hl : l a with
    | true =>
      rw [if_pos hl] at hleft
      exact h.left a q ha hleft
    | false =>
      cases hu : u.auths a with
      | none => exact h.left a q ha hu
      | some q' =>
        obtain rfl : q' = q := Option.some.inj ((h.kept a q' hu).symm.trans ha)
        exact .inl (hgone a q' hu hl)

/-- A client that exits takes its request along, and no other. -/
theorem Inv.deleteAuthQueries_spec (h : Inv none none w) {client : Nat} (hw' : Dns.deleteAuthQueries w client = some w') :
    w'.authPollList = w.authPollList.filter (fun a => !decide (w.authRequest client = some a)) ∧
      (∀ a, w'.auths a = if (!decide (w.authRequest client = some a)) = true then w.auths a else none) ∧
      w'.released = w.released ∧ w'.reading = w.reading := by
  simp only [Dns.deleteAuthQueries] at hw'
  cases hc : w.authRequest client with
  | none =>
    simp only [hc, Option.some.injEq] at hw'
    subst hw'
    simp
  | some a =>
    obtain ⟨q, hq, rfl⟩ := (h.request client a).mp hc
    simp only [hc, hq, Option.some.injEq] at hw'
    have hfilter : w.authPollList.erase a = w.authPollList.filter fun b => !decide (some a = some b) := by
      rw [h.listed.1.erase_eq_filter]
      exact List.filter_congr fun b _ => by grind
    subst hw'
    refine ⟨?_, fun b => ?_, ?_, ?_⟩
    · split <;> exact hfilter
    · have : Function.update w.auths a none b = if (!decide (some a = some b)) = true then w.auths b else none := by
        rw [Function.update_apply]
        by_cases hb : b = a
        · simp [hb]
        · simp [hb, Ne.symm hb]
      split <;> simpa [closeAuthF, cancelLookup] using this
    · split <;> rfl
    · split <;> rfl

/-- A configuration that is made does not touch the requests. -/
theorem Inv.addServerConf_spec (h : Inv none none w) {started : Bool} (hw' : Dns.addServerConf w started = some w') :
    w'.auths = w.auths ∧ w'.authPollList = w.authPollList ∧ w'.released = w.released ∧ w'.reading = w.reading := by
  simp only [Dns.addServerConf,
    lookup_eq (w := { w with confs := Function.update w.confs w.next (some 0), next := w.next + 1 }) h.helper] at hw'
  cases hid : assignDnsId w.querytable idtable w.id with
  | none => simp [hid] at hw'
  | some nid =>
    simp only [hid, Option.map_some, Option.bind_some, Function.update_self, Option.some.injEq] at hw'
    subst hw'
    exact ⟨rfl, rfl, rfl, rfl⟩

/-- What is left of the list begins where the walk waits, if the request there has not been freed. -/
theorem Walk.here (h : Walk now gone w u done rest r) (hw : w.authPollList.Nodup) {x y : List Nat} (hxy : u.authPollList = x ++ y)
    (hx : x.Sublist done) (hy : y.Sublist rest) (hlive : ∀ p, rest.head? = some p → p ∈ u.authPollList) : rest.head? = y.head? := by
  cases rest with
  | nil => simp [List.sublist_nil.mp hy]
  | cons p rest =>
    rw [h.whole] at hw
    obtain ⟨-, hrest, hdisj⟩ := List.nodup_append.mp hw
    have hpx : p ∉ x := fun hp => hdisj p (hx.subset hp) p (by simp) rfl
    have hpy : p ∈ y := by
      have := hlive p rfl
      rw [hxy] at this
      exact (List.mem_append.mp this).resolve_left hpx
    rcases List.sublist_cons_iff.mp hy with hskip | ⟨y', rfl, -⟩
    · exact absurd (hskip.subset hpy) (List.nodup_cons.mp hrest).1
    · rfl

/-- One step of the walk: a command, or its end. -/
theorem Walk.step (h : Walk now gone w u done rest r) (hhalts : Halts now u rest) (hw : w.authPollList.Nodup) (hinv : Inv none none u) {e : Event}
    (he : e.nested = true) (hgone : ∀ c, e = .exit c → gone c) (hstep : step u e = some u') :
    ∃ done' rest' r', Walk now gone w u' done' rest' r' ∧ Halts now u' rest' := by
  rw [Dns.step, if_pos (.inr he)] at hstep
  -- a command that is not about requests
  have hother : u'.auths = u.auths → u'.authPollList = u.authPollList → u'.released = u.released → u'.reading = u.reading →
      ∃ done' rest' r', Walk now gone w u' done' rest' r' ∧ Halts now u' rest' := fun ha hl hr hh =>
    ⟨done, rest, r, h.narrow (l := fun _ => true) (by simp [hl]) (by simp [ha]) hr (by simp), by rwa [Halts, hh]⟩
  cases e with
  | connect | answer | ident | timer => simp [Event.nested] at he
  | exit client =>
    obtain ⟨hl, ha, hr, hh⟩ := hinv.deleteAuthQueries_spec hstep
    refine ⟨done, rest, r, h.narrow hl ha hr fun a q hq hout => ?_, by rwa [Halts, hh]⟩
    obtain ⟨q', hq', hclient⟩ := (hinv.request client a).mp (by simpa using hout)
    obtain rfl : q' = q := Option.some.inj (hq'.symm.trans hq)
    exact hgone _ (by rw [hclient])
  | addConf started =>
    obtain ⟨ha, hl, hr, hh⟩ := hinv.addServerConf_spec hstep
    exact hother ha hl hr hh
  | freeConf c =>
    simp only [Event.run, freeServerConf] at hstep
    cases hc : u.confs c with
    | none => simp [hc] at hstep
    | some i =>
      simp only [hc, Option.some.injEq] at hstep
      subst hstep
      exact hother rfl rfl rfl rfl
  | restart started =>
    simp only [Event.run, restartResolver] at hstep
    split at hstep
    · cases hstep
      exact hother rfl rfl rfl rfl
    · cases hstep
  | readEnd =>
    have hable := hinv.readPacketReturns.2.mp (Option.isSome_iff_exists.mpr ⟨u', hstep⟩)
    rcases hhalts with hreading | ⟨hidle, -⟩
    · obtain ⟨x, y, hxy, hx, hy, hnone⟩ := h.list
      have hlive : ∀ p, rest.head? = some p → p ∈ u.authPollList := fun p hp =>
        (hinv.listed.2 p).mpr (hable.2 now p (by rw [hreading, hp]))
      have hgo := readPacketReturns_timeout hinv hreading hxy (h.here hw hxy hx hy hlive)
      have htable : u.awaited = u.querytable := by
        funext i
        simp [World.awaited, hreading]
      have hstand : Walk now gone w { u with reading := none } done rest r :=
        h.narrow (l := fun _ => true) (by simp) (by simp) rfl (by simp)
      exact hstand.loop (hinv.endRead htable) rfl hxy hx hy hnone (hgo ▸ hstep)
    · exact absurd hidle hable.1

theorem Walk.run (h : Walk now gone w u done rest r) (hhalts : Halts now u rest) (hw : w.authPollList.Nodup) (hinv : Inv none none u)
    {es : List Event} (hes : ∀ e ∈ es, e.nested = true) (hgone : ∀ c, .exit c ∈ es → gone c) (hrun : es.foldlM Dns.step u = some u') :
    Inv none none u' ∧ ∃ done' rest' r', Walk now gone w u' done' rest' r' ∧ Halts now u' rest' := by
  induction es generalizing u done rest r with
  | nil =>
    obtain rfl : u = u' := Option.some.inj hrun
    exact ⟨hinv, done, rest, r, h, hhalts⟩
  | cons e es ih =>
    obtain ⟨u₁, hu₁, hrun⟩ := Option.bind_eq_some_iff.mp (by simpa using hrun)
    obtain ⟨done₁, rest₁, r₁, h₁, hhalts₁⟩ := h.step hhalts hw hinv (hes e (by simp)) (fun c hc => hgone c (by simp [hc])) hu₁
    exact ih h₁ hhalts₁ ((hinv.step e).1 u₁ hu₁) (fun e he => hes e (by simp [he])) (fun c hc => hgone c (by simp [hc])) hrun

/-- Where no client has sent a command, the walk comes to its end, after as many clients as are overdue. -/
theorem Inv.walk_ends (h : Inv none none w) (hidle : w.reading = none) {x y : List Nat} (hlist : w.authPollList = x ++ y) :
    ∃ w', (Dns.timeoutLoop now w y).bind
        ((List.replicate (y.filterMap (overdue w now)).length Event.readEnd).foldlM Dns.step) = some w' ∧ w'.reading = none := by
  induction hn : y.length using Nat.strongRecOn generalizing w x y with
  | ind n ih =>
    have hlive : ∀ a ∈ y, (w.auths a).isSome := fun a ha => (h.listed.2 a).mp (by simp [hlist, ha])
    obtain ⟨u, hu, hinv, hcase⟩ := h.timeoutLoop hidle now hlive
    rw [hu, Option.bind_some]
    rcases hcase with ⟨hall, rfl⟩ | ⟨pre, a, q, post, rfl, hpre, hgo⟩
    · exact ⟨u, by simp [List.filterMap_eq_nil_iff.mpr hall], hidle⟩
    · obtain ⟨hlist', ha⟩ := hgo.split hlist h.listed.1
      have hsame : post.filterMap (overdue w now) = post.filterMap (overdue { u with reading := none } now) := by
        refine List.filterMap_congr fun b hb => ?_
        have hne : b ≠ a := by
          rintro rfl
          exact ha hb
        simp [overdue, hgo.auths, Function.update_of_ne hne]
      have hlen : ((pre ++ a :: post).filterMap (overdue w now)).length =
          (post.filterMap (overdue { u with reading := none } now)).length + 1 := by
        simp [List.filterMap_eq_nil_iff.mpr hpre, hgo.overdue, hsame]
      have htable : u.awaited = u.querytable := by
        funext i
        simp [World.awaited, hgo.reading]
      obtain ⟨w', hw', hdone⟩ := ih post.length (by simp [← hn]; omega) (hinv.endRead htable) rfl hlist' rfl
      refine ⟨w', ?_, hdone⟩
      have hstep : Dns.step u .readEnd = Dns.timeoutLoop now { u with reading := none } post :=
        (if_pos (.inr rfl)).trans (readPacketReturns_timeout hinv hgo.reading hlist' rfl)
      rw [hlen, List.replicate_succ, List.foldlM_cons, hstep]
      exact hw'

/-- In every run, when the timer goes off the walk lets clients through, and takes the commands of each
    before it goes on.  When it is over, no request that was overdue is left; every other is as
    it was, or its client has exited; and the clients of the overdue requests have been let
    through in the order of the list, but for those who had exited by then.  Where none of them
    has sent a command, the walk comes to that end. -/
theorem timer_releases (h : Reach step anyStep World.start w) (hidle : w.reading = none) (now : Int) :
    (∀ es w', (∀ e ∈ es, e.nested = true) → (.timer now :: es).foldlM step w = some w' → w'.reading = none →
      (∀ a q, w'.auths a = some q → w.auths a = some q ∧ now ≤ q.timeout) ∧
        (∀ a q, w.auths a = some q → now ≤ q.timeout → w'.auths a = some q ∨ .exit q.client ∈ es) ∧
        ∃ r, w'.released = w.released ++ r ∧ r.Sublist (w.authPollList.filterMap (overdue w now)) ∧
          ∀ c ∈ w.authPollList.filterMap (overdue w now), c ∈ r ∨ .exit c ∈ es) ∧
      ∃ n w', (.timer now :: List.replicate n .readEnd).foldlM step w = some w' ∧ w'.reading = none := by
  have hinv := inv_of_reach h
  have hstart : step w (.timer now) = Dns.timeoutLoop now w w.authPollList := by simp [step, hidle, Event.run, timeoutAuthQueries]
  refine ⟨fun es w' hes hrun hdone => ?_, ?_⟩
  · rw [List.foldlM_cons, hstart] at hrun
    obtain ⟨u, hu, hrun⟩ := Option.bind_eq_some_iff.mp hrun
    have hbegin : Walk now (fun c => .exit c ∈ es) w w [] w.authPollList [] :=
      ⟨rfl, ⟨[], w.authPollList, rfl, by simp, List.Sublist.refl _, by simp⟩, fun _ _ h => h, by simp, by simp,
        fun a q ha hnone => by simp [ha] at hnone⟩
    obtain ⟨done₀, rest₀, r₀, hwalk, hhalts⟩ := hbegin.loop hinv hidle (x := []) rfl (by simp) (List.Sublist.refl _) (by simp) hu
    have hinv₀ := (hinv.step (.timer now)).1 u (hstart.trans hu)
    obtain ⟨hinv', done, rest, r, hend, hhalts'⟩ := hwalk.run hhalts hinv.listed.1 hinv₀ hes (fun _ hc => hc) hrun
    obtain rfl : rest = [] := by
      rcases hhalts' with hreading | ⟨-, hrest⟩
      · simp [hdone] at hreading
      · exact hrest
    obtain ⟨x, y, hxy, -, hy, hnone⟩ := hend.list
    obtain rfl := List.sublist_nil.mp hy
    rw [List.append_nil] at hxy
    have hwhole : w.authPollList = done := by simpa using hend.whole
    refine ⟨fun a q ha => ⟨hend.kept a q ha, ?_⟩, fun a q ha htime => ?_, r, hend.released, hwhole ▸ hend.order, fun c hc => ?_⟩
    · have := hnone a (hxy ▸ (hinv'.listed.2 a).mpr (by simp [ha]))
      simpa [overdue, ha] using this
    · cases ha' : w'.auths a with
      | some q' =>
        left
        rw [hend.kept a q' ha'] at ha
        exact ha
      | none => exact .inr ((hend.left a q ha ha').resolve_right fun hlate => absurd hlate.1 (by omega))
    · obtain ⟨a, ha, hover⟩ := List.mem_filterMap.mp hc
      simp only [overdue, Option.bind_eq_some_iff, Option.ite_none_right_eq_some, Option.some.injEq] at hover
      obtain ⟨q, hq, hlate, rfl⟩ := hover
      cases ha' : w'.auths a with
      | some q' =>
        obtain rfl : q' = q := Option.some.inj ((hend.kept a q' ha').symm.trans hq)
        have := hnone a (hxy ▸ (hinv'.listed.2 a).mpr (by simp [ha']))
        simp [overdue, ha', hlate] at this
      | none => exact (hend.left a q hq ha').symm.imp (·.2) id
  · obtain ⟨w', hw', hdone⟩ := hinv.walk_ends hidle (x := []) (y := w.authPollList) rfl
    exact ⟨_, w', by rw [List.foldlM_cons, hstart]; exact hw', hdone⟩

/-- Both clients are overdue. -/
theorem timer_releases_connected :
    let w := [Event.connect true .dead true 30, .connect false .pending true 31].foldl (Reach.perform step) World.start
    (∀ es w', (∀ e ∈ es, e.nested = true) → (.timer 32 :: es).foldlM step w = some w' → w'.reading = none →
      (∀ a q, w'.auths a = some q → w.auths a = some q ∧ 32 ≤ q.timeout) ∧
        (∀ a q, w.auths a = some q → 32 ≤ q.timeout → w'.auths a = some q ∨ .exit q.client ∈ es) ∧
        ∃ r, w'.released = w.released ++ r ∧ r.Sublist (w.authPollList.filterMap (overdue w 32)) ∧
          ∀ c ∈ w.authPollList.filterMap (overdue w 32), c ∈ r ∨ .exit c ∈ es) ∧
      ∃ n w', (.timer 32 :: List.replicate n .readEnd).foldlM step w = some w' ∧ w'.reading = none :=
  timer_releases (Reach.init.performed_all _) rfl 32

/-- What the first client has sent closes the second, whose request is next: the walk goes on in
    memory that has been freed. -/
example : (([.connect true .dead true 30, .connect true .dead true 30, .timer 31, .exit 1, .readEnd] : List Event).foldlM
    step World.start).isNone = true := rfl


end Bluebox.Dns
