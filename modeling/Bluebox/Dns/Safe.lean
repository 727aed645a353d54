/-
  Bluebox.Dns.Safe

  No callback reaches a request that is gone.

  An entry of `querytable` and the request or configuration that waits for it point at
  each other; a request that is freed has taken its entry and its socket with it.  The
  invariant is kept by each step, whatever the resolver answers, in whatever order, and
  for whichever numbers.  While the commands of a client that has been let through run, the
  entry that brought the answer still has its callback, with a request that is gone; nobody
  waits for that entry, and nobody else gets it.
-/
import Bluebox.Dns.Basic
import Mathlib.Data.List.Nodup

namespace Bluebox.Dns

open Bluebox.Lib

variable {w w' : World} {a nid : Nat} {q q' : Auth} {o : Owner} {fresh half : Option Nat}

/-- The entries that wait for an answer: all but the one whose callback has not returned. -/
def World.awaited (w : World) (i : Nat) : Option Owner :=
  if w.reading = some (.results i) then none else w.querytable i

/-- `o` waits for the lookup with the number `i`. -/
def Waits (w : World) (i : Nat) : Owner → Prop
  | .auth a => ∃ q, w.auths a = some q ∧ q.dns = true ∧ q.dnsQuery = i
  | .conf c => w.confs c = some i

/-- The requests, their entries, their sockets and their clients belong together.  The request
    `fresh` has not been entered yet, and `half` has been answered, but perhaps not let go. -/
structure Inv (fresh half : Option Nat) (w : World) : Prop where
  helper : w.dnsHelper = true
  entry : ∀ i o, w.awaited i = some o → 0 < i ∧ Waits w i o
  held : ∀ i, w.reading = some (.results i) → 0 < i ∧ w.querytable i ≠ none
  auth_waits : ∀ a q, w.auths a = some q → q.dns = true → fresh ≠ some a → w.awaited q.dnsQuery = some (.auth a)
  auth_fresh : ∀ a q, w.auths a = some q → fresh = some a → q.dns = true ∧ q.dnsQuery = 0
  conf_waits : ∀ c i, w.confs c = some i → i ≠ 0 → w.awaited i = some (.conf c)
  pending : ∀ a q, w.auths a = some q → half ≠ some a → q.dns = true ∨ q.ident = true
  socket : ∀ F a, w.sockets F = some a ↔ ∃ q, w.auths a = some q ∧ q.authF = some F
  socket_ident : ∀ a q, w.auths a = some q → q.authF ≠ none → q.ident = true
  request : ∀ c a, w.authRequest c = some a ↔ ∃ q, w.auths a = some q ∧ q.client = c
  listed : w.authPollList.Nodup ∧ ∀ a, a ∈ w.authPollList ↔ (w.auths a).isSome
  released : w.released.Nodup ∧ ∀ c ∈ w.released, w.authRequest c = none ∧ c < w.next
  auth_lt : ∀ a q, w.auths a = some q → a < w.next ∧ q.client < w.next
  conf_lt : ∀ c, w.confs c ≠ none → c < w.next
  socket_lt : ∀ F, w.sockets F ≠ none → F < w.next
  id_range : 0 < w.id ∧ w.id < idtable

theorem inv_start : Inv none none World.start := by
  constructor <;> simp [World.start, World.awaited, idtable]

/-- An entry that is free is awaited by nobody. -/
theorem awaited_eq_none {i : Nat} (h : w.querytable i = none) : w.awaited i = none := by
  unfold World.awaited
  split
  · rfl
  · exact h

theorem World.awaited_of_idle (h : w.reading = none) : w.awaited = w.querytable := by
  funext i
  rw [World.awaited, if_neg (by simp [h])]

/-- Where another entry is emptied. -/
theorem awaited_cancelLookup (w : World) (i j : Nat) :
    (cancelLookup w i).awaited j = if j = i then none else w.awaited j := by
  simp only [World.awaited, cancelLookup, Function.update_apply]
  grind

/-- Number 0 is nobody's. -/
theorem Inv.awaited_zero (h : Inv fresh half w) : w.awaited 0 = none := by
  cases ho : w.awaited 0 with
  | none => rfl
  | some o => exact absurd (h.entry 0 o ho).1 (Nat.lt_irrefl 0)

theorem Inv.number_pos (h : Inv fresh half w) {i : Nat} (ho : w.querytable i = some o) : 0 < i := by
  by_cases hreading : w.reading = some (.results i)
  · exact (h.held i hreading).1
  · exact (h.entry i o (by rw [World.awaited, if_neg hreading, ho])).1

-- ============================================================================
-- A request is written
-- ============================================================================

/-- A request that is written again: its client stays, and it gives up its entry or its socket
    if it does not wait for them any longer. -/
structure Amends (w w' : World) (a : Nat) (q q' : Auth) : Prop where
  auths : w'.auths = Function.update w.auths a (some q')
  client : q'.client = q.client
  entry : q'.dns = q.dns ∧ q'.dnsQuery = q.dnsQuery ∧ (∀ i, w'.awaited i = w.awaited i) ∨
    q'.dns = false ∧ q.dns = true ∧ ∀ i, w'.awaited i = if i = q.dnsQuery then none else w.awaited i
  held : ∀ i, w'.reading = some (.results i) → 0 < i ∧ w'.querytable i ≠ none
  socket : q'.authF = q.authF ∧ w'.sockets = w.sockets ∧ q'.ident = q.ident ∨
    q'.authF = none ∧ ∀ F, w'.sockets F = if q.authF = some F then none else w.sockets F
  rest : w'.confs = w.confs ∧ w'.authRequest = w.authRequest ∧ w'.authPollList = w.authPollList ∧
    w'.dnsHelper = w.dnsHelper ∧ w'.released = w.released ∧ w'.next = w.next ∧ w'.id = w.id

theorem Amends.auths_apply (h : Amends w w' a q q') (b : Nat) : w'.auths b = if b = a then some q' else w.auths b := by
  rw [h.auths, Function.update_apply]

theorem Inv.amend (h : Inv fresh half w) (q' : Auth) (hq : w.auths a = some q) (hhalf : half = none ∨ half = some a)
    (hfresh : fresh = some a → q'.dns = true) (ha : Amends w w' a q q') : Inv fresh (some a) w' := by
  obtain ⟨hconfs, hrequest, hlist, hhelper, hreleased, hnext, hid⟩ := ha.rest
  have hauths := ha.auths_apply
  have hclient := ha.client
  have hwaits := h.auth_waits a q hq
  have hfr := h.auth_fresh a q hq
  have hsock := h.socket
  have hsockid := h.socket_ident a q hq
  constructor
  case helper => rw [hhelper]; exact h.helper
  case held => exact ha.held
  case entry =>
    intro i o hi
    rcases ha.entry with ⟨hdns, hnid, htable⟩ | ⟨hdns, hdns', htable⟩
    · rw [htable] at hi
      obtain ⟨hpos, hw⟩ := h.entry i o hi
      cases o <;> grind [Waits]
    · rw [htable] at hi
      have := h.entry i o
      cases o <;> grind [Waits]
  case auth_waits =>
    intro b qb hb hdns hne
    rcases ha.entry with ⟨hdns', hnid, htable⟩ | ⟨hdns', hd, htable⟩
    · have := h.auth_waits b
      grind
    · rw [htable]
      have := h.auth_waits b
      grind
  case auth_fresh =>
    intro b qb hb hf
    have := h.auth_fresh b
    have := ha.entry
    grind
  case conf_waits =>
    intro c i hi hne
    have := h.conf_waits c i
    rcases ha.entry with ⟨-, -, htable⟩ | ⟨-, hd, htable⟩
    · grind
    · rw [htable]
      have := h.auth_fresh a q
      grind
  case pending =>
    intro b qb hb hne
    have := h.pending b
    grind
  case socket =>
    intro F b
    have hb := h.socket F b
    have := h.socket F a
    rcases ha.socket with ⟨hF, hs, -⟩ | ⟨hF, hs⟩
    · grind
    · rw [hs, hauths]
      by_cases hba : b = a <;> grind
  case socket_ident =>
    intro b qb hb hF
    have := h.socket_ident b
    rcases ha.socket with ⟨hF', hs, hident⟩ | ⟨hF', hs⟩ <;> grind
  case request =>
    intro c b
    have := h.request c b
    grind
  case listed =>
    have := h.listed
    grind
  case released =>
    have := h.released
    grind
  case auth_lt =>
    intro b qb hb
    have := h.auth_lt b
    grind
  case conf_lt => rw [hconfs, hnext]; exact h.conf_lt
  case socket_lt =>
    intro F
    have := h.socket_lt F
    rcases ha.socket with ⟨hF', hs, -⟩ | ⟨hF', hs⟩ <;> grind
  case id_range => rw [hid]; exact h.id_range

-- ============================================================================
-- A request is freed
-- ============================================================================

/-- A request that is freed, with its entry, its socket and its place in the list. -/
structure Removes (w w' : World) (a : Nat) (q : Auth) : Prop where
  auths : w'.auths = Function.update w.auths a none
  entry : ∀ i, w'.awaited i = if q.dns ∧ i = q.dnsQuery then none else w.awaited i
  held : ∀ i, w'.reading = some (.results i) → 0 < i ∧ w'.querytable i ≠ none
  socket : ∀ F, w'.sockets F = if q.authF = some F then none else w.sockets F
  request : w'.authRequest = Function.update w.authRequest q.client none
  list : w'.authPollList = w.authPollList.erase a
  released : w'.released = w.released ∨ w'.released = w.released ++ [q.client]
  rest : w'.confs = w.confs ∧ w'.dnsHelper = w.dnsHelper ∧ w'.next = w.next ∧ w'.id = w.id

theorem Removes.auths_apply (h : Removes w w' a q) (b : Nat) : w'.auths b = if b = a then none else w.auths b := by
  rw [h.auths, Function.update_apply]

theorem Removes.request_apply (h : Removes w w' a q) (c : Nat) :
    w'.authRequest c = if c = q.client then none else w.authRequest c := by
  rw [h.request, Function.update_apply]

theorem Inv.remove (h : Inv fresh half w) (hq : w.auths a = some q) (hhalf : half = none ∨ half = some a)
    (hfresh : fresh ≠ some a) (ha : Removes w w' a q) : Inv fresh none w' := by
  obtain ⟨hconfs, hhelper, hnext, hid⟩ := ha.rest
  have hauths := ha.auths_apply
  have htable := ha.entry
  have hs := ha.socket
  have hreq := ha.request_apply
  have hwaits := h.auth_waits a q hq
  constructor
  case helper => rw [hhelper]; exact h.helper
  case held => exact ha.held
  case entry =>
    intro i o hi
    have := h.entry i o
    cases o <;> grind [Waits]
  case auth_waits =>
    intro b qb hb hdns hne
    have := h.auth_waits b
    grind
  case auth_fresh =>
    intro b qb hb hf
    have := h.auth_fresh b
    grind
  case conf_waits =>
    intro c i hi hne
    have := h.conf_waits c i
    grind
  case pending =>
    intro b qb hb hne
    have := h.pending b
    grind
  case socket =>
    intro F b
    have hb := h.socket F b
    have ha' := h.socket F a
    rw [hs, hauths]
    by_cases hba : b = a <;> grind
  case socket_ident =>
    intro b qb hb hF
    have := h.socket_ident b
    grind
  case request =>
    intro c b
    have hb := h.request c b
    have ha' := h.request c a
    rw [hreq, hauths]
    by_cases hba : b = a <;> grind
  case listed =>
    obtain ⟨hnodup, hlist⟩ := h.listed
    rw [ha.list]
    refine ⟨hnodup.erase a, fun b => ?_⟩
    rw [hnodup.mem_erase_iff, hauths, hlist]
    by_cases hba : b = a <;> simp [hba]
  case released =>
    obtain ⟨hnodup, hrel⟩ := h.released
    have hclient := (h.request q.client a).mpr ⟨q, hq, rfl⟩
    have hlt := h.auth_lt a q hq
    rcases ha.released with hr | hr
    · rw [hr, hnext]
      exact ⟨hnodup, fun c hc => by grind⟩
    · rw [hr, hnext]
      refine ⟨List.nodup_append'.mpr ⟨hnodup, by simp, ?_⟩, fun c hc => ?_⟩
      · intro c hc hc'
        grind
      · grind
  case auth_lt =>
    intro b qb hb
    have := h.auth_lt b
    grind
  case conf_lt => rw [hconfs, hnext]; exact h.conf_lt
  case socket_lt =>
    intro F
    have := h.socket_lt F
    grind
  case id_range => rw [hid]; exact h.id_range

/-- A request that still waits for something stays. -/
theorem Inv.stay (h : Inv fresh (some a) w) (hq : w.auths a = some q) (hwait : q.dns = true ∨ q.ident = true) :
    Inv fresh none w := by
  refine { h with pending := fun b qb hb _ => ?_ }
  by_cases hba : b = a
  · grind
  · exact h.pending b qb hb (by simpa using Ne.symm hba)

/-- A request that waits for nothing any longer is let go. -/
theorem Inv.release (h : Inv fresh (some a) w) (hq : w.auths a = some q) (hidle : w.reading = none) (caller : Caller)
    (hcaller : ∀ i, caller ≠ .results i) : ∃ w', releaseAuthClient w caller a = some w' ∧ Inv fresh none w' := by
  rw [releaseAuthClient, hq]
  by_cases hwait : (q.dns || q.ident) = true
  · exact ⟨w, if_pos hwait, h.stay hq (by simpa using hwait)⟩
  · have hdns : q.dns = false := by grind
    have hident : q.ident = false := by grind
    refine ⟨_, if_neg hwait, h.remove hq (.inr rfl) (fun hf => ?_)
      ⟨rfl, fun i => ?_, fun i hi => ?_, fun F => ?_, rfl, rfl, .inr rfl, rfl, rfl, rfl, rfl⟩⟩
    · have := h.auth_fresh a q hq hf
      grind
    · simp [World.awaited, hidle, hdns, hcaller]
    · simp [hcaller] at hi
    · have := h.socket_ident a q hq
      grind

-- ============================================================================
-- Answers, ident and the timer
-- ============================================================================

/-- What becomes of a socket that is closed. -/
theorem closeAuthF_sockets (w : World) (a : Nat) (q : Auth) (F : Nat) :
    (closeAuthF w a q).sockets F = if q.authF = some F then none else w.sockets F := by
  simp only [closeAuthF]
  cases hF : q.authF with
  | none => simp
  | some F' => simp [Function.update_apply, eq_comm]

theorem Inv.identOver (h : Inv fresh none w) (hq : w.auths a = some q) (hidle : w.reading = none)
    (hfresh : fresh = some a → q.dns = true) : ∃ w', identOver w a = some w' ∧ Inv fresh none w' := by
  rw [Dns.identOver, hq]
  have hamend : Inv fresh (some a) (closeAuthF w a { q with ident := false }) :=
    h.amend { q with ident := false, authF := none } hq (.inl rfl) hfresh
      ⟨rfl, rfl, .inl ⟨rfl, rfl, fun _ => rfl⟩, h.held, .inr ⟨rfl, closeAuthF_sockets w a _⟩, rfl, rfl, rfl, rfl, rfl, rfl, rfl⟩
  exact hamend.release (Function.update_self ..) hidle .ident (by simp)

/-- A configuration that no longer waits, or is freed, has its entry emptied. -/
theorem Inv.settleConf {c i : Nat} (h : Inv none none w) (hc : w.confs c = some i) {v : Option Nat} (hv : v = none ∨ v = some 0) :
    Inv none none (cancelLookup { w with confs := Function.update w.confs c v } i) := by
  have hconf := h.conf_waits c i hc
  have hzero := h.awaited_zero
  have htable : ∀ j, (cancelLookup { w with confs := Function.update w.confs c v } i).awaited j =
      if j = i then none else w.awaited j := fun j => awaited_cancelLookup { w with confs := Function.update w.confs c v } i j
  refine { h with entry := ?_, held := ?_, auth_waits := ?_, conf_waits := ?_, conf_lt := ?_ }
  · intro j o hj
    rw [htable] at hj
    have := h.entry j o
    simp only [cancelLookup]
    cases o <;> grind [Waits, Function.update_apply]
  · intro j hj
    replace hj : w.reading = some (.results j) := hj
    have hheld := h.held j hj
    have hne : j ≠ i := by
      rintro rfl
      have := hconf (by omega)
      rw [World.awaited, if_pos hj] at this
      simp at this
    simpa [cancelLookup, Function.update_of_ne hne] using hheld
  · intro b q hb hdns hne
    have := h.auth_waits b q hb hdns hne
    rw [htable]
    grind
  · intro d j hd hj
    have := h.conf_waits d j
    rw [htable]
    simp only [cancelLookup, Function.update_apply] at hd
    grind
  · intro d hd
    have := h.conf_lt d
    simp only [cancelLookup, Function.update_apply] at hd ⊢
    grind

/-- An answer lets a client through, or ident goes on; in the one case the entry is still there. -/
theorem finishLookup_auth {i : Nat} (hidle : w.reading = none) (ho : w.querytable i = some (.auth a)) (hq : w.auths a = some q) :
    finishLookup w i = some (if q.ident then cancelLookup (w.setAuth a { q with dns := false, dnsQuery := 0 }) i
      else { w with
        authRequest := Function.update w.authRequest q.client none
        authPollList := w.authPollList.erase a
        auths := Function.update w.auths a none
        released := w.released ++ [q.client]
        reading := some (.results i) }) := by
  cases hident : q.ident <;>
    simp [finishLookup, ho, runCallback, authDnsCallback, hq, releaseAuthClient, World.setAuth, hident, hidle]

theorem Inv.finishLookup (h : Inv none none w) (hidle : w.reading = none) (i : Nat) :
    ∃ w', finishLookup w i = some w' ∧ Inv none none w' := by
  have htable := World.awaited_of_idle hidle
  cases ho : w.querytable i with
  | none => exact ⟨w, by simp [Dns.finishLookup, ho], h⟩
  | some o =>
    obtain ⟨hpos, hwaits⟩ := h.entry i o (by rw [htable]; exact ho)
    cases o with
    | auth a =>
      obtain ⟨q, hq, hdns, rfl⟩ := hwaits
      refine ⟨_, finishLookup_auth hidle ho hq, ?_⟩
      by_cases hident : q.ident = true
      · have hamend : Inv none (some a) (cancelLookup (w.setAuth a { q with dns := false, dnsQuery := 0 }) q.dnsQuery) :=
          h.amend { q with dns := false, dnsQuery := 0 } hq (.inl rfl) (by simp)
            ⟨rfl, rfl, .inr ⟨rfl, hdns, awaited_cancelLookup (w.setAuth a _) q.dnsQuery⟩, by simp [cancelLookup, World.setAuth, hidle],
            .inl ⟨rfl, rfl, rfl⟩, rfl, rfl, rfl, rfl, rfl, rfl, rfl⟩
        rw [if_pos hident]
        exact hamend.stay (Function.update_self ..) (.inr hident)
      · rw [if_neg hident]
        refine h.remove hq (.inl rfl) (by simp) ⟨rfl, fun j => ?_, fun j hj => ?_, fun F => ?_, rfl, rfl, .inr rfl, rfl, rfl, rfl, rfl⟩
        · simp [World.awaited, hidle, hdns, eq_comm]
        · simp only [Option.some.injEq, Caller.results.injEq] at hj
          subst hj
          exact ⟨hpos, by simp [ho]⟩
        · have := h.socket_ident a q hq
          grind
    | conf c =>
      have hc : w.confs c = some i := hwaits
      exact ⟨_, by simp only [Dns.finishLookup, ho, runCallback, confDnsCallback, hc, Option.map_some, hidle, if_true],
        h.settleConf hc (.inr rfl)⟩

theorem Inv.timeoutAuth (h : Inv none none w) (hidle : w.reading = none) (now : Int) (next : Option Nat) (hq : w.auths a = some q) :
    ∃ w', timeoutAuth now w a next = some w' ∧ Inv none none w' := by
  simp only [Dns.timeoutAuth, hq]
  by_cases hover : q.timeout < now
  · rw [if_pos hover]
    cases hdns : q.dns
    · have hamend : Inv none (some a) (closeAuthF w a { q with ident := false, dns := false }) :=
        h.amend { q with ident := false, dns := false, authF := none } hq (.inl rfl) (by simp)
          ⟨rfl, rfl, .inl ⟨hdns.symm, rfl, fun _ => rfl⟩, h.held, .inr ⟨rfl, closeAuthF_sockets w a _⟩, rfl, rfl, rfl, rfl, rfl, rfl, rfl⟩
      simpa using hamend.release (Function.update_self ..) hidle (.timeout now next) (by simp)
    · have hamend : Inv none (some a)
          (cancelLookup (closeAuthF w a { q with ident := false, dns := false, dnsQuery := 0 }) q.dnsQuery) :=
        h.amend { q with ident := false, dns := false, dnsQuery := 0, authF := none } hq (.inl rfl) (by simp)
          ⟨rfl, rfl, .inr ⟨rfl, hdns, awaited_cancelLookup (closeAuthF w a _) q.dnsQuery⟩,
          by simp [cancelLookup, closeAuthF, hidle], .inr ⟨rfl, closeAuthF_sockets w a _⟩, rfl, rfl, rfl, rfl, rfl, rfl, rfl⟩
      simpa using hamend.release (Function.update_self ..) hidle (.timeout now next) (by simp)
  · exact ⟨w, if_neg hover, h⟩

theorem Inv.deleteAuthQueries (h : Inv none none w) (client : Nat) :
    ∃ w', deleteAuthQueries w client = some w' ∧ Inv none none w' := by
  rw [Dns.deleteAuthQueries]
  cases hc : w.authRequest client with
  | none => exact ⟨w, rfl, h⟩
  | some a =>
    obtain ⟨q, hq, rfl⟩ := (h.request client a).mp hc
    simp only [hq]
    cases hdns : q.dns
    · refine ⟨_, rfl, h.remove hq (.inl rfl) (by simp) ⟨Function.update_idem .., fun i => ?_, ?_, closeAuthF_sockets _ a q, rfl, rfl,
        .inl rfl, rfl, rfl, rfl, rfl⟩⟩
      · simp [hdns, World.awaited, closeAuthF]
      · simpa [closeAuthF] using h.held
    · have hwaits := h.auth_waits a q hq hdns (by simp)
      have hpos : 0 < q.dnsQuery := (h.entry _ _ hwaits).1
      refine ⟨_, rfl, h.remove hq (.inl rfl) (by simp) ⟨?_, fun i => ?_, fun i hi => ?_, ?_, ?_, ?_, .inl ?_, ?_⟩⟩
      · simp [hpos, cancelLookup, closeAuthF]
      · simp only [hdns, hpos, and_self, if_true, true_and]
        exact awaited_cancelLookup w q.dnsQuery i
      · have hi' : w.reading = some (.results i) := by simpa [hpos, cancelLookup, closeAuthF] using hi
        have hne : i ≠ q.dnsQuery := by
          rintro rfl
          rw [World.awaited, if_pos hi'] at hwaits
          simp at hwaits
        simpa [hpos, cancelLookup, closeAuthF, Function.update_of_ne hne] using h.held i hi'
      · simp [hpos, closeAuthF_sockets, cancelLookup]
      · simp [hpos, cancelLookup, closeAuthF]
      · simp [hpos, cancelLookup, closeAuthF]
      · simp [hpos, cancelLookup, closeAuthF]
      · simp [hpos, cancelLookup, closeAuthF]

end Bluebox.Dns
