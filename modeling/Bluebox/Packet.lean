/-
  Bluebox.Packet

  Reading from a connection (`libratboxcore/packet.c`): `read_packet` parses
  each chunk into the receive queue and `parse_client_queued` hands complete
  lines to `client_dopacket`.

  What a command does to the connection is a parameter (`Env.parse`); it can
  change every field of the client, kill it included.  The loop over the lines
  of a server link ends at the first call of `rb_linebuf_get` that returns 0,
  and an empty line returns 0 as an empty queue does.  `Stalls` is the chunk
  that makes this happen in front of complete lines.
-/
import Bluebox.Linebuf.Split

namespace Bluebox.Packet

open Bluebox.Linebuf

-- ============================================================================
-- Connections
-- ============================================================================

/-- The `STAT_` values of a client. -/
inductive Status
  | connecting | handshake | me | unknown | reject | server | client
deriving DecidableEq, Repr

/-- The fields of a client that reading uses; `rest` stands for all others. -/
structure Client (ω : Type _) where
  status : Status
  ioError : Bool
  dead : Bool
  closing : Bool
  exemptFlood : Bool
  oper : Bool
  sentParsed : Int
  allowRead : Int
  firsttime : Int
  receiveM : Nat
  receiveB : Nat
  rest : ω

variable {ω : Type _}

/-- `IsAnyDead`. -/
def Client.isAnyDead (c : Client ω) : Bool := c.ioError || c.dead || c.closing

/-- `IsAnyServer`. -/
def Client.isAnyServer (c : Client ω) : Bool :=
  c.status == .server || c.status == .handshake || c.status == .connecting

/-- The configuration and the code that reading calls.  A server stays a server
    until it is dead: nothing sets the status of one. -/
structure Env (ω : Type _) where
  parse : Client ω → Bytes → Client ω
  exitClient : Client ω → Client ω
  now : Int
  postRegistrationDelay : Int
  noOperFlood : Bool
  clientFlood : Int
  parse_server : ∀ c line, c.status = .server →
    (parse c line).status = .server ∨ (parse c line).isAnyDead = true

/-- A connection: the client, its receive queue, and the log of the lines given
    to `client_dopacket`. -/
structure Link (ω : Type _) where
  client : Client ω
  recvq : Sys Unit
  packets : List Bytes

/-- `READBUF_SIZE`. -/
def readbufSize : Int := 16384

/-- `client_dopacket`. -/
def clientDopacket (env : Env ω) (c : Client ω) (buffer : Bytes) : Client ω :=
  if c.isAnyDead then c
  else env.parse { c with receiveM := c.receiveM + 1, receiveB := c.receiveB + buffer.length } buffer

/-- `rb_linebuf_get` on the receive queue, for a complete parsed line. -/
def Link.getLine (lk : Link ω) : Sys Unit × Bytes :=
  rbLinebufGet lk.recvq () readbufSize false false

/-- Hand a line to `client_dopacket`. -/
def Link.dispatch (env : Env ω) (lk : Link ω) (g : Sys Unit × Bytes) : Link ω :=
  { client := clientDopacket env lk.client g.2, recvq := g.1, packets := lk.packets ++ [g.2] }

-- ============================================================================
-- parse_client_queued
-- ============================================================================

/-- The loop for a client that has not registered.  The flag says whether the
    function returns from inside the loop. -/
def unknownLoop (env : Env ω) : Nat → Link ω → Link ω × Bool
  | 0, lk => (lk, false)
  | fuel + 1, lk =>
    if lk.client.sentParsed ≥ lk.client.allowRead then (lk, false)
    else
      let g := lk.getLine
      if g.2.length = 0 ∨ lk.client.dead = true then ({ lk with recvq := g.1 }, false)
      else
        let lk' := lk.dispatch env g
        let lk' := { lk' with client := { lk'.client with sentParsed := lk'.client.sentParsed + 1 } }
        if lk'.client.isAnyDead then (lk', true)
        else if lk'.client.status ≠ .unknown then
          ({ lk' with client := { lk'.client with sentParsed := 0 } }, false)
        else unknownLoop env fuel lk'

/-- The loop for servers and for clients exempt from flood control. -/
def serverLoop (env : Env ω) : Nat → Link ω → Link ω
  | 0, lk => lk
  | fuel + 1, lk =>
    if lk.client.isAnyDead then lk
    else
      let g := lk.getLine
      if g.2.length > 0 then serverLoop env fuel (lk.dispatch env g)
      else { lk with recvq := g.1 }

/-- The loop for registered clients. -/
def clientLoop (env : Env ω) (checkflood : Bool) : Nat → Bool → Link ω → Link ω
  | 0, _, lk => lk
  | fuel + 1, tested, lk =>
    if tested = false ∧ lk.client.firsttime + env.postRegistrationDelay > env.now then lk
    else if lk.client.sentParsed ≥
        (if checkflood then lk.client.allowRead else 4 * lk.client.allowRead) then lk
    else
      let g := lk.getLine
      if g.2.length = 0 then { lk with recvq := g.1 }
      else
        let lk' := lk.dispatch env g
        if lk'.client.isAnyDead then lk'
        else clientLoop env checkflood fuel true
          { lk' with client := { lk'.client with sentParsed := lk'.client.sentParsed + 1 } }

/-- Rounds that are enough: each takes a line off the queue or is the last. -/
def Link.rounds (lk : Link ω) : Nat := (lk.recvq.head ()).list.length + 1

/-- `parse_client_queued`. -/
def parseClientQueued (env : Env ω) (lk : Link ω) : Link ω :=
  if lk.client.isAnyDead then lk
  else
    let u := if lk.client.status = .unknown then unknownLoop env lk.rounds lk else (lk, false)
    if u.2 then u.1
    else
      let lk := u.1
      if lk.client.isAnyServer || lk.client.exemptFlood then serverLoop env lk.rounds lk
      else if lk.client.status = .client then
        clientLoop env (! (lk.client.oper && env.noOperFlood)) lk.rounds false lk
      else lk

/-- `rb_linebuf_parse` on the receive queue. -/
def Link.store (lk : Link ω) (data : Bytes) (binary : Bool) : Link ω :=
  { lk with recvq := (rbLinebufParse lk.recvq () data binary).1 }

/-- One round of `read_packet`, for a read that returned the chunk `data`. -/
def readPacket (env : Env ω) (lk : Link ω) (data : Bytes) : Link ω :=
  if lk.client.isAnyDead then lk
  else
    let binary := lk.client.status == .handshake || lk.client.status == .unknown
    let lk := parseClientQueued env (lk.store data binary)
    if lk.client.isAnyDead then lk
    else if !lk.client.isAnyServer && (lk.recvq.head ()).alloclen > env.clientFlood
        && !(env.noOperFlood && lk.client.oper) then
      { lk with client := env.exitClient lk.client }
    else lk

/-- The connection after the chunks. -/
def readChunks (env : Env ω) (lk : Link ω) (chunks : List Bytes) : Link ω :=
  chunks.foldl (readPacket env) lk

-- ============================================================================
-- What has to hold after each chunk
-- ============================================================================

/-- The complete non-empty lines of a queue, as `rb_linebuf_get` reads them. -/
def completeLines (ls : List BufLine) : List Bytes :=
  ((ls.filter (·.terminated)).map (lineText · readbufSize false)).filter (! ·.isEmpty)

/-- No complete line is left behind: the receive queue has no terminated line,
    and `client_dopacket` got the complete lines of the chunks, in order. -/
def Drained (lk : Link ω) (chunks : List Bytes) : Prop :=
  (∀ l ∈ lk.recvq.queue (), l.terminated = false) ∧
    lk.packets = completeLines ((received chunks).queue ())

/-- A chunk that leaves complete lines behind: no line waits for it, it starts
    with CR and LF bytes that fit into a line, and what follows them holds
    another complete line. -/
def Stalls (lk : Link ω) (data : Bytes) : Prop :=
  lk.recvq.queue () = [] ∧ lineBody data = [] ∧ crlfRun data ≠ [] ∧ (crlfRun data).length ≤ 510 ∧
    ((∃ x ∈ afterLine data, isCrlf x = true) ∨ 510 < (afterLine data).length)

-- ============================================================================
-- The lines of a chunk
-- ============================================================================

/-- A complete line with text, as it comes from parsing. -/
def Full (l : BufLine) : Prop := (∃ text, Complete l text) ∧ l.buf ≠ []

/-- The end of a queue that has been drained: nothing, or a line that waits. -/
def Waiting (tail : List BufLine) : Prop :=
  tail = [] ∨ ∃ l r, tail = [l] ∧ Open l r ∧ r ≠ []

theorem Waiting.not_terminated {tail : List BufLine} (h : Waiting tail) :
    ∀ l ∈ tail, l.terminated = false := by
  intro l hl
  rcases h with rfl | ⟨l', r, rfl, hopen, -⟩
  · exact absurd hl List.not_mem_nil
  · rw [List.mem_singleton.mp hl]
    exact hopen.terminated

theorem lineText_complete {l : BufLine} {text : Bytes} (h : Complete l text) :
    lineText l readbufSize false = l.buf := by
  have hlen := h.len_eq
  have hle := h.length_le
  unfold lineText
  rw [h.raw, if_neg (show ¬ readbufSize < l.len by rw [hlen, readbufSize]; omega), hlen,
    Int.toNat_natCast, List.take_length]
  rfl

theorem completeLines_append (ls ls' : List BufLine) :
    completeLines (ls ++ ls') = completeLines ls ++ completeLines ls' := by
  simp [completeLines]

theorem completeLines_waiting {tail : List BufLine} (h : Waiting tail) :
    completeLines tail = [] := by
  rcases h with rfl | ⟨l, r, rfl, hopen, -⟩
  · rfl
  · simp [completeLines, hopen.terminated]

theorem completeLines_full {l : BufLine} (h : Full l) : completeLines [l] = [l.buf] := by
  obtain ⟨⟨text, hl⟩, hne⟩ := h
  simp [completeLines, hl.terminated, lineText_complete hl, hne]

theorem completeLines_empty {l : BufLine} {text : Bytes} (h : Complete l text)
    (hnil : l.buf = []) : completeLines [l] = [] := by
  simp [completeLines, h.terminated, lineText_complete h, hnil]

theorem crlf_mem_iff (data : Bytes) : (∃ x ∈ data, isCrlf x = true) ↔ crlfRun data ≠ [] := by
  constructor
  · rintro ⟨x, hx, hcrlf⟩ hrun
    rw [← lineBody_eq_self hrun] at hx
    rw [lineBody_not_crlf _ x hx] at hcrlf
    cases hcrlf
  · intro hrun
    obtain ⟨x, xs, hx⟩ := List.exists_cons_of_ne_nil hrun
    have hmem : x ∈ crlfRun data := by rw [hx]; exact List.mem_cons_self
    refine ⟨x, ?_, crlfRun_crlf x hmem⟩
    rw [← line_split data]
    exact List.mem_append_left _ (List.mem_append_right _ hmem)

/-- The line a waiting line becomes: one with text, or one that still waits.
    Only CR and LF bytes onto an empty line make an empty one. -/
theorem full_or_waiting {l : BufLine} {r data : Bytes} (hl : Open l r) (hdata : data ≠ [])
    (hne : r ++ lineBody data = [] → 510 < (crlfRun data).length) :
    (Full (rbLinebufCopyLine l data).line ∧ (crlfRun data ≠ [] ∨ 510 < (r ++ data).length)) ∨
      (Waiting [(rbLinebufCopyLine l data).line] ∧ crlfRun data = [] ∧
        (r ++ data).length ≤ 510) := by
  have hcase := (rbLinebufCopyLine_case hl data).2
  generalize rbLinebufCopyLine l data = c at hcase
  cases hcase with
  | ended hrun hline hempty =>
    refine Or.inl ⟨⟨⟨_, hline⟩, fun hnil => ?_⟩, Or.inl hrun⟩
    obtain ⟨hr, hle⟩ := hempty.mp hnil
    exact absurd (hne hr) (Nat.not_lt.mpr hle)
  | overlong hrun hlong hline hfull => exact Or.inl ⟨⟨⟨_, hline⟩, hfull⟩, Or.inr hlong⟩
  | waits hrun hline =>
    refine Or.inr ⟨Or.inr ⟨c.line, r ++ data, rfl, hline, ?_⟩, hrun, hline.length_le⟩
    exact fun h => hdata (List.append_eq_nil_iff.mp h).2

/-- New lines that do not start with CR or LF: full ones, and possibly one that
    waits.  There is a full one exactly when the data ends a line or is too
    long for one. -/
theorem breakLines_full (fuel : Nat) : ∀ data : Bytes, data.length ≤ fuel →
    (∀ b rest, data = b :: rest → isCrlf b = false ∨ 510 < (crlfRun data).length) →
    ∃ ls tail, breakLines false fuel data = ls ++ tail ∧ (∀ l ∈ ls, Full l) ∧ Waiting tail ∧
      (ls ≠ [] ↔ (∃ x ∈ data, isCrlf x = true) ∨ 510 < data.length) := by
  have hnone : ∀ fuel, ∃ ls tail, breakLines false fuel [] = ls ++ tail ∧ (∀ l ∈ ls, Full l) ∧
      Waiting tail ∧ (ls ≠ [] ↔ (∃ x ∈ ([] : Bytes), isCrlf x = true) ∨ 510 < ([] : Bytes).length) :=
    fun fuel => ⟨[], [], breakLines_nil _ _, fun l hl => absurd hl List.not_mem_nil, Or.inl rfl,
      by simp⟩
  induction fuel with
  | zero =>
    intro data hlen _
    obtain rfl := List.length_eq_zero_iff.mp (Nat.le_zero.mp hlen)
    exact hnone 0
  | succ fuel ih =>
    intro data hlen hhead
    by_cases hdata : data = []
    · subst hdata
      exact hnone _
    · rw [breakLines_cons fuel hdata, crlf_mem_iff]
      have hbody : [] ++ lineBody data = [] → 510 < (crlfRun data).length := by
        obtain ⟨b, rest, rfl⟩ := List.exists_cons_of_ne_nil hdata
        intro hnil
        rcases hhead b rest rfl with hb | hlong
        · simp [lineBody, hb] at hnil
        · exact hlong
      have hafter := afterLine_length_lt hdata
      rcases full_or_waiting open_fresh hdata hbody with ⟨hfull, hwhy⟩ | ⟨hwait, hrun, hle⟩
      · obtain ⟨ls, tail, heq, hls, htail, -⟩ := ih (afterLine data) (by omega)
          (fun b rest h => Or.inl (afterLine_head h))
        refine ⟨_ :: ls, tail, by rw [heq]; rfl, ?_, htail, ?_⟩
        · intro l hl
          rcases List.mem_cons.mp hl with rfl | hl
          · exact hfull
          · exact hls l hl
        · exact ⟨fun _ => hwhy, fun _ => List.cons_ne_nil _ _⟩
      · refine ⟨[], _, ?_, fun l hl => absurd hl List.not_mem_nil, hwait, ?_⟩
        · rw [afterLine_eq_nil hrun, breakLines_nil]
          rfl
        · constructor
          · exact fun h => absurd rfl h
          · rintro (h | h)
            · exact absurd hrun h
            · exact absurd hle (Nat.not_le.mpr h)

/-- What a chunk makes of a drained queue: full lines and a line that waits, or
    these behind an empty line. -/
inductive ParseShape (q : List BufLine) (data : Bytes) : Prop
  | plain (ls tail : List BufLine) (heq : parseLines false q data = ls ++ tail)
      (hls : ∀ l ∈ ls, Full l) (htail : Waiting tail)
      (hnot : ¬ (q = [] ∧ lineBody data = [] ∧ (crlfRun data).length ≤ 510))
  | empty (e : BufLine) (text : Bytes) (ls tail : List BufLine) (hq : q = [])
      (heq : parseLines false q data = e :: (ls ++ tail)) (he : Complete e text) (hnil : e.buf = [])
      (hls : ∀ l ∈ ls, Full l) (htail : Waiting tail) (hbody : lineBody data = [])
      (hrun : crlfRun data ≠ []) (hfits : (crlfRun data).length ≤ 510)
      (hmore : ls ≠ [] ↔ (∃ x ∈ afterLine data, isCrlf x = true) ∨ 510 < (afterLine data).length)

/-- Data behind the first line never starts with CR or LF. -/
theorem breakLines_after (data : Bytes) {fuel : Nat} (hlen : (afterLine data).length ≤ fuel) :
    ∃ ls tail, breakLines false fuel (afterLine data) = ls ++ tail ∧ (∀ l ∈ ls, Full l) ∧
      Waiting tail ∧
      (ls ≠ [] ↔ (∃ x ∈ afterLine data, isCrlf x = true) ∨ 510 < (afterLine data).length) :=
  breakLines_full fuel _ hlen fun _ _ h => Or.inl (afterLine_head h)

theorem parseLines_shape {q : List BufLine} {data : Bytes} (hq : Waiting q) (hdata : data ≠ []) :
    ParseShape q data := by
  have hafter := afterLine_length_lt hdata
  rcases hq with rfl | ⟨l, r, rfl, hopen, hr⟩
  · by_cases hlead : lineBody data = [] ∧ (crlfRun data).length ≤ 510
    · obtain ⟨hbody, hfits⟩ := hlead
      have hrun : crlfRun data ≠ [] := by
        intro hrun
        rw [lineBody_eq_self hrun] at hbody
        exact hdata hbody
      obtain ⟨n, hn⟩ := Nat.exists_eq_succ_of_ne_zero
        (Nat.ne_of_gt (List.length_pos_of_ne_nil hdata))
      obtain ⟨ls, tail, heq, hls, htail, hmore⟩ := breakLines_after data
        (show (afterLine data).length ≤ n by omega)
      have hparse : parseLines false [] data
          = (rbLinebufCopyLine BufLine.fresh data).line :: (ls ++ tail) := by
        rw [parseLines_nil, hn, breakLines_cons n hdata, heq]
      have hcase := (rbLinebufCopyLine_case open_fresh data).2
      cases hcase with
      | ended _ hline hempty =>
        exact .empty _ _ ls tail rfl hparse hline (hempty.mpr ⟨by rw [hbody]; rfl, hfits⟩) hls htail
          hbody hrun hfits hmore
      | overlong hrun' _ _ _ => exact absurd hrun' hrun
      | waits hrun' _ => exact absurd hrun' hrun
    · obtain ⟨ls, tail, heq, hls, htail, -⟩ := breakLines_full data.length data (Nat.le_refl _)
        (by
          rintro b rest rfl
          by_contra hb
          rw [not_or, Bool.not_eq_false, Nat.not_lt] at hb
          exact hlead ⟨by simp [lineBody, hb.1], hb.2⟩)
      exact .plain ls tail heq hls htail fun h => hlead h.2
  · have hne : r ++ lineBody data = [] → 510 < (crlfRun data).length :=
      fun h => absurd (List.append_eq_nil_iff.mp h).1 hr
    have hnot : ¬ ([l] = [] ∧ lineBody data = [] ∧ (crlfRun data).length ≤ 510) :=
      fun h => absurd h.1 (List.cons_ne_nil _ _)
    have hparse : parseLines false [l] data = (rbLinebufCopyLine l data).line
        :: breakLines false data.length (afterLine data) := by
      rw [← List.nil_append [l], parseLines_open hopen]
      rfl
    rcases full_or_waiting hopen hdata hne with ⟨hfull, -⟩ | ⟨hwait, hrun, -⟩
    · obtain ⟨ls, tail, heq, hls, htail, -⟩ := breakLines_after data
        (Nat.le_of_lt hafter)
      refine .plain (_ :: ls) tail (by rw [hparse, heq]; rfl) ?_ htail hnot
      intro l' hl'
      rcases List.mem_cons.mp hl' with rfl | hl'
      · exact hfull
      · exact hls l' hl'
    · refine .plain [] _ ?_ (fun l' hl' => absurd hl' List.not_mem_nil) hwait hnot
      rw [hparse, afterLine_eq_nil hrun, breakLines_nil]
      rfl

/-- Lines that are done with do not take part in parsing. -/
theorem parseLines_done {ls q : List BufLine} {data : Bytes}
    (hdone : ∀ l ∈ ls, l.terminated = true ∧ l.raw = false) (hq : Waiting q) (hdata : data ≠ []) :
    parseLines false (ls ++ q) data = ls ++ parseLines false q data := by
  rcases hq with rfl | ⟨l, r, rfl, hopen, -⟩
  · rw [List.append_nil, parseLines_nil]
    cases hlast : ls.getLast? with
    | none =>
      obtain rfl := List.getLast?_eq_none_iff.mp hlast
      rfl
    | some l =>
      obtain ⟨ls', rfl⟩ := List.getLast?_eq_some_iff.mp hlast
      obtain ⟨hterm, hraw⟩ := hdone l (by simp)
      have hsame : { l with raw := false } = l := by rw [← hraw]
      rw [parseLines_terminated hterm hdata, hsame]
  · rw [parseLines_open hopen, show ([l] : List BufLine) = [] ++ [l] from rfl,
      parseLines_open hopen, List.nil_append, List.append_assoc]

-- ============================================================================
-- The dispatch loop
-- ============================================================================

section Loop

variable {env : Env ω} {lk : Link ω}

/-- A server link between two calls: its queue is sound. -/
structure ServerLink (lk : Link ω) : Prop where
  sound : Sound lk.recvq ()
  server : lk.client.status = .server

theorem ServerLink.getLine_cons (h : ServerLink lk) {l : BufLine} {rest : List BufLine}
    {text : Bytes} (hq : lk.recvq.queue () = l :: rest) (hl : Complete l text) :
    Sound lk.getLine.1 () ∧ lk.getLine.1.queue () = rest ∧ lk.getLine.2 = l.buf := by
  obtain ⟨hsound, hget⟩ := rbLinebufGet_queue h.sound readbufSize false false
  rw [hq, getLines, if_pos (by rw [hl.terminated]; rfl), lineText_complete hl] at hget
  obtain ⟨hqueue, htext⟩ := Prod.mk.inj hget
  exact ⟨hsound, hqueue, htext⟩

theorem ServerLink.getLine_waiting (h : ServerLink lk) (hq : Waiting (lk.recvq.queue ())) :
    Sound lk.getLine.1 () ∧ lk.getLine.1.queue () = lk.recvq.queue () ∧ lk.getLine.2 = [] := by
  obtain ⟨hsound, hget⟩ := rbLinebufGet_queue h.sound readbufSize false false
  refine ⟨hsound, ?_⟩
  rcases hq with hnil | ⟨l, r, hone, hopen, -⟩
  · rw [hnil, getLines] at hget
    rw [hnil]
    exact Prod.mk.inj hget
  · rw [hone, getLines, if_neg (by rw [hopen.terminated]; exact Bool.false_ne_true)] at hget
    rw [hone]
    exact Prod.mk.inj hget

/-- A command leaves a server a server, or dead. -/
theorem ServerLink.dispatch (env : Env ω) (h : ServerLink lk) {g : Sys Unit × Bytes} (hg : Sound g.1 ()) :
    ServerLink (lk.dispatch env g) ∨ (lk.dispatch env g).client.isAnyDead = true := by
  by_cases hdead : lk.client.isAnyDead = true
  · right
    simp only [Link.dispatch, clientDopacket, if_pos hdead]
    exact hdead
  · simp only [Link.dispatch, clientDopacket, if_neg hdead]
    rcases env.parse_server { lk.client with
        receiveM := lk.client.receiveM + 1, receiveB := lk.client.receiveB + g.2.length }
      g.2 h.server with hs | hd
    · exact Or.inl ⟨hg, hs⟩
    · exact Or.inr hd

theorem serverLoop_dead (fuel : Nat) (h : lk.client.isAnyDead = true) :
    serverLoop env fuel lk = lk := by
  cases fuel with
  | zero => rfl
  | succ fuel => rw [serverLoop, if_pos h]

/-- The loop hands over the full lines in front and stops at the line that
    waits.  The induction is on these lines. -/
theorem serverLoop_full (env : Env ω) {tail : List BufLine} (htail : Waiting tail)
    (ls : List BufLine) : ∀ {fuel : Nat} {lk : Link ω}, (∀ l ∈ ls, Full l) → ls.length < fuel → ServerLink lk →
      lk.recvq.queue () = ls ++ tail →
      (serverLoop env fuel lk).client.isAnyDead = true ∨
        (ServerLink (serverLoop env fuel lk) ∧ (serverLoop env fuel lk).recvq.queue () = tail ∧
          (serverLoop env fuel lk).packets = lk.packets ++ completeLines ls) := by
  induction ls with
  | nil =>
    intro fuel lk _ hfuel h hq
    obtain ⟨fuel, rfl⟩ := Nat.exists_eq_succ_of_ne_zero (Nat.ne_of_gt hfuel)
    rw [List.nil_append] at hq
    by_cases hdead : lk.client.isAnyDead = true
    · rw [serverLoop_dead _ hdead]
      exact Or.inl hdead
    · obtain ⟨hsound, hqueue, htext⟩ := h.getLine_waiting (by rw [hq]; exact htail)
      rw [serverLoop, if_neg hdead]
      simp only
      rw [if_neg (by rw [htext]; exact Nat.lt_irrefl 0)]
      exact Or.inr ⟨⟨hsound, h.server⟩, hqueue.trans hq, (List.append_nil _).symm⟩
  | cons l ls ih =>
    intro fuel lk hls hfuel h hq
    obtain ⟨fuel, rfl⟩ := Nat.exists_eq_succ_of_ne_zero (Nat.ne_of_gt (Nat.zero_lt_of_lt hfuel))
    have hl := hls l List.mem_cons_self
    by_cases hdead : lk.client.isAnyDead = true
    · rw [serverLoop_dead _ hdead]
      exact Or.inl hdead
    · obtain ⟨text, hline⟩ := hl.1
      obtain ⟨hsound, hqueue, htext⟩ := h.getLine_cons hq hline
      rw [serverLoop, if_neg hdead]
      simp only
      rw [if_pos (by rw [htext]; exact List.length_pos_of_ne_nil hl.2)]
      rcases h.dispatch env hsound with hlink | hd
      · have hrest := ih (fun l' hl' => hls l' (List.mem_cons_of_mem _ hl'))
          (Nat.lt_of_succ_lt_succ hfuel) hlink hqueue
        rcases hrest with hdead' | ⟨hlink', hq', hpackets⟩
        · exact Or.inl hdead'
        refine Or.inr ⟨hlink', hq', ?_⟩
        rw [hpackets, ← List.singleton_append, completeLines_append, completeLines_full hl,
          ← List.append_assoc]
        simp only [Link.dispatch, htext]
      · rw [serverLoop_dead _ hd]
        exact Or.inl hd

/-- At an empty line the loop takes it off and stops. -/
theorem serverLoop_empty (env : Env ω) (fuel : Nat) {l : BufLine} {rest : List BufLine}
    {text : Bytes} (h : ServerLink lk) (halive : lk.client.isAnyDead = false)
    (hq : lk.recvq.queue () = l :: rest) (hl : Complete l text) (hnil : l.buf = []) :
    let lk' := serverLoop env (fuel + 1) lk
    ServerLink lk' ∧ lk'.client = lk.client ∧ lk'.recvq.queue () = rest ∧
      lk'.packets = lk.packets := by
  obtain ⟨hsound, hqueue, htext⟩ := h.getLine_cons hq hl
  rw [serverLoop, if_neg (by rw [halive]; exact Bool.false_ne_true)]
  simp only
  rw [if_neg (by rw [htext, hnil]; exact Nat.lt_irrefl 0)]
  exact ⟨⟨hsound, h.server⟩, rfl, hqueue, rfl⟩

/-- On a live server link, a chunk is parsed and the loop runs. -/
theorem readPacket_server {data : Bytes} (h : ServerLink lk) (halive : lk.client.isAnyDead = false)
    (hend : (serverLoop env (lk.store data false).rounds (lk.store data false)).client.isAnyDead
        = true ∨ ServerLink (serverLoop env (lk.store data false).rounds (lk.store data false))) :
    readPacket env lk data
      = serverLoop env (lk.store data false).rounds (lk.store data false) := by
  have hno : ¬ lk.client.isAnyDead = true := by rw [halive]; exact Bool.false_ne_true
  have hbinary : (lk.client.status == .handshake || lk.client.status == .unknown) = false := by
    rw [h.server]; rfl
  have hqueued : parseClientQueued env (lk.store data false)
      = serverLoop env (lk.store data false).rounds (lk.store data false) := by
    have hstatus : (lk.store data false).client.status = .server := h.server
    have hserver : ((lk.store data false).client.isAnyServer
        || (lk.store data false).client.exemptFlood) = true := by
      rw [Client.isAnyServer, hstatus]; rfl
    have hno' : ¬ (lk.store data false).client.isAnyDead = true := hno
    have hknown : ¬ (lk.store data false).client.status = .unknown := by rw [hstatus]; decide
    rw [parseClientQueued, if_neg hno']
    simp only [if_neg hknown, hserver, if_true, Bool.false_eq_true, if_false]
  rw [readPacket, if_neg hno]
  simp only [hbinary, hqueued]
  generalize serverLoop env (lk.store data false).rounds (lk.store data false) = lk' at hend
  rcases hend with hdead | hlink
  · rw [if_pos hdead]
  · have hstill : lk'.client.isAnyServer = true := by rw [Client.isAnyServer, hlink.server]; rfl
    simp only [hstill, Bool.not_true, Bool.false_and, Bool.false_eq_true, if_false, ite_self]

end Loop

-- ============================================================================
-- Whole runs
-- ============================================================================

/-- What holds of a live server link after the chunks of `pre`, as long as none
    of them stalled it: only a waiting line is queued, and the lines in front of
    it have been handed over. -/
structure Inv (lk : Link ω) (pre : List Bytes) : Prop where
  link : ServerLink lk
  waiting : Waiting (lk.recvq.queue ())
  received_sound : Sound (received pre) ()
  handed : ∃ ls, (received pre).queue () = ls ++ lk.recvq.queue () ∧
    (∀ l ∈ ls, l.terminated = true ∧ l.raw = false) ∧ lk.packets = completeLines ls

theorem Inv.drained {lk : Link ω} {pre : List Bytes} (h : Inv lk pre) : Drained lk pre := by
  obtain ⟨ls, hq, -, hpackets⟩ := h.handed
  refine ⟨h.waiting.not_terminated, ?_⟩
  rw [hq, completeLines_append, completeLines_waiting h.waiting, List.append_nil, hpackets]

theorem received_concat (pre : List Bytes) (data : Bytes) :
    received (pre ++ [data]) = (rbLinebufParse (received pre) () data false).1 := by
  rw [received, List.foldl_append]
  rfl

section Step

variable {env : Env ω} {lk : Link ω} {pre : List Bytes} {data : Bytes}

/-- The received lines after one more chunk. -/
theorem Inv.received_queue (h : Inv lk pre) {ls : List BufLine}
    (hq : (received pre).queue () = ls ++ lk.recvq.queue ())
    (hls : ∀ l ∈ ls, l.terminated = true ∧ l.raw = false) (hdata : data ≠ []) :
    Sound (received (pre ++ [data])) () ∧
      (received (pre ++ [data])).queue () = ls ++ parseLines false (lk.recvq.queue ()) data := by
  obtain ⟨hsound, hparse⟩ := rbLinebufParse_queue h.received_sound data false
  rw [received_concat]
  exact ⟨hsound, by rw [hparse, hq, parseLines_done hls h.waiting hdata]⟩

/-- More lines are handed over. -/
theorem Inv.hand (h : Inv lk pre) (hdata : data ≠ []) {lk' : Link ω} {ls tail : List BufLine}
    (hparse : parseLines false (lk.recvq.queue ()) data = ls ++ tail)
    (hls : ∀ l ∈ ls, ∃ text, Complete l text) (htail : Waiting tail) (hlink : ServerLink lk')
    (hq : lk'.recvq.queue () = tail) (hpackets : lk'.packets = lk.packets ++ completeLines ls) :
    Inv lk' (pre ++ [data]) := by
  obtain ⟨done, hdq, hdone, hdp⟩ := h.handed
  obtain ⟨hsound, hrec⟩ := h.received_queue hdq hdone hdata
  refine ⟨hlink, by rw [hq]; exact htail, hsound, done ++ ls, ?_, ?_, ?_⟩
  · rw [hrec, hparse, hq, List.append_assoc]
  · intro l hl
    rcases List.mem_append.mp hl with hl | hl
    · exact hdone l hl
    · obtain ⟨text, hline⟩ := hls l hl
      exact ⟨hline.terminated, hline.raw⟩
  · rw [hpackets, hdp, completeLines_append]

/-- One chunk on a live link: a stalling one leaves a complete line in the queue,
    any other one keeps the invariant or ends with a dead link. -/
theorem Inv.step (env : Env ω) (h : Inv lk pre) (halive : lk.client.isAnyDead = false) (hdata : data ≠ []) :
    (Stalls lk data → (readPacket env lk data).client.isAnyDead = false ∧
        ¬ Drained (readPacket env lk data) (pre ++ [data])) ∧
      (¬ Stalls lk data → (readPacket env lk data).client.isAnyDead = true ∨
        Inv (readPacket env lk data) (pre ++ [data])) := by
  obtain ⟨hsound, hparse⟩ := rbLinebufParse_queue h.link.sound data false
  have hlink : ServerLink (lk.store data false) := ⟨hsound, h.link.server⟩
  have hstore : (lk.store data false).recvq.queue () = parseLines false (lk.recvq.queue ()) data :=
    hparse
  have hrounds : (lk.store data false).rounds
      = (parseLines false (lk.recvq.queue ()) data).length + 1 := by
    rw [← hstore, Link.rounds, Sys.queue, List.length_map]
  cases parseLines_shape h.waiting hdata with
  | plain ls tail heq hls htail hnot =>
    refine ⟨fun hst => absurd ⟨hst.1, hst.2.1, hst.2.2.2.1⟩ hnot, fun _ => ?_⟩
    have hfuel : ls.length < (lk.store data false).rounds := by
      rw [hrounds, heq, List.length_append]
      omega
    have hloop := serverLoop_full env htail ls hls hfuel hlink (hstore.trans heq)
    have hread := readPacket_server h.link halive (hloop.imp_right fun hr => hr.1)
    rw [hread]
    rcases hloop with hdead | ⟨hlink', hq', hp'⟩
    · exact Or.inl hdead
    · exact Or.inr (h.hand hdata heq (fun l hl => (hls l hl).1) htail hlink' hq' hp')
  | empty e text ls tail hq heq he hnil hls htail hbody hrun hfits hmore =>
    have hloop := serverLoop_empty env (parseLines false (lk.recvq.queue ()) data).length hlink
      halive (hstore.trans heq) he hnil
    rw [← hrounds] at hloop
    obtain ⟨hlink', hclient, hq', hp'⟩ := hloop
    have hread := readPacket_server h.link halive (Or.inr hlink')
    rw [hread]
    constructor
    · intro hst
      refine ⟨by rw [hclient]; exact halive, fun hdr => ?_⟩
      obtain ⟨l, ls', rfl⟩ := List.exists_cons_of_ne_nil (hmore.mpr hst.2.2.2.2)
      obtain ⟨⟨text', hl⟩, -⟩ := hls l List.mem_cons_self
      have hfalse := hdr.1 l (by rw [hq']; simp)
      rw [hl.terminated] at hfalse
      cases hfalse
    · intro hst
      have hno : ls = [] := by
        by_contra hne
        exact hst ⟨hq, hbody, hrun, hfits, hmore.mp hne⟩
      subst hno
      have heq' : parseLines false (lk.recvq.queue ()) data = [e] ++ tail := heq
      refine Or.inr (h.hand hdata heq' ?_ htail hlink' hq' ?_)
      · intro l hl
        exact ⟨text, by rw [List.mem_singleton.mp hl]; exact he⟩
      · rw [hp', completeLines_empty he hnil, List.append_nil]
        rfl

theorem readPacket_dead (h : lk.client.isAnyDead = true) : readPacket env lk data = lk := by
  rw [readPacket, if_pos h]

theorem readChunks_concat (chunks : List Bytes) :
    readChunks env lk (chunks ++ [data]) = readPacket env (readChunks env lk chunks) data := by
  rw [readChunks, List.foldl_append]
  rfl

end Step

/-- A server link that has read nothing. -/
structure NewServerLink (ω : Type _) where
  client : Client ω
  server : client.status = .server
  alive : client.isAnyDead = false

/-- The connection of a new server link. -/
def NewServerLink.link (lk : NewServerLink ω) : Link ω := ⟨lk.client, Sys.start, []⟩

theorem NewServerLink.inv (lk : NewServerLink ω) : Inv lk.link [] where
  link := ⟨sound_start (), lk.server⟩
  waiting := Or.inl rfl
  received_sound := sound_start ()
  handed := ⟨[], rfl, fun _ hl => absurd hl List.not_mem_nil, rfl⟩

/-- The invariant holds along a run on live links if no chunk stalls, or if each
    chunk leaves the queue drained. -/
theorem inv_of_run (env : Env ω) (lk : NewServerLink ω) {chunks : List Bytes}
    (hne : ∀ c ∈ chunks, c ≠ [])
    (hstep : ∀ pre data, pre ++ [data] <+: chunks →
      (readChunks env lk.link pre).client.isAnyDead = false →
      ¬ Stalls (readChunks env lk.link pre) data ∨
        ((readChunks env lk.link (pre ++ [data])).client.isAnyDead = false →
          Drained (readChunks env lk.link (pre ++ [data])) (pre ++ [data])))
    {pre : List Bytes} (hpre : pre <+: chunks) :
    (readChunks env lk.link pre).client.isAnyDead = true ∨
      Inv (readChunks env lk.link pre) pre := by
  induction pre using List.reverseRecOn with
  | nil => exact Or.inr lk.inv
  | append_singleton pre data ih =>
    have hpre' : pre <+: chunks := (List.prefix_append pre [data]).trans hpre
    have hdata : data ≠ [] := hne data (hpre.subset (by simp))
    cases halive : (readChunks env lk.link pre).client.isAnyDead with
    | true =>
      rw [readChunks_concat, readPacket_dead halive]
      exact Or.inl halive
    | false =>
      have hinv := (ih hpre').resolve_left (by rw [halive]; exact Bool.false_ne_true)
      obtain ⟨hstall, hgood⟩ := hinv.step env halive hdata
      rw [readChunks_concat]
      by_cases hst : Stalls (readChunks env lk.link pre) data
      · obtain ⟨halive', hnot⟩ := hstall hst
        rcases hstep pre data hpre halive with hno | hdr
        · exact absurd hst hno
        · rw [readChunks_concat] at hdr
          exact absurd (hdr halive') hnot
      · exact hgood hst

/-- On a server link, for every stream, every chunking and every behaviour of
    the commands: after each chunk that leaves the link alive the queue is
    drained, if and only if no chunk read by a live link stalls it. -/
theorem drained_iff_no_stall (env : Env ω) (lk : NewServerLink ω) (chunks : List Bytes)
    (hne : ∀ c ∈ chunks, c ≠ []) :
    (∀ pre, pre <+: chunks → (readChunks env lk.link pre).client.isAnyDead = false →
        Drained (readChunks env lk.link pre) pre)
      ↔ ∀ pre data, pre ++ [data] <+: chunks →
        (readChunks env lk.link pre).client.isAnyDead = false →
        ¬ Stalls (readChunks env lk.link pre) data := by
  constructor
  · intro hdr pre data hpre halive hst
    have hinv := (inv_of_run env lk hne (fun pre data hpre _ => Or.inr (hdr _ hpre))
      ((List.prefix_append pre [data]).trans hpre)).resolve_left
      (by rw [halive]; exact Bool.false_ne_true)
    obtain ⟨halive', hnot⟩ := (hinv.step env halive
      (hne data (hpre.subset (by simp)))).1 hst
    rw [← readChunks_concat] at halive' hnot
    exact hnot (hdr _ hpre halive')
  · intro hno pre hpre halive
    have hinv := (inv_of_run env lk hne (fun pre data hpre ha => Or.inl (hno pre data hpre ha))
      hpre).resolve_left (by rw [halive]; exact Bool.false_ne_true)
    exact hinv.drained

/-- A client record of a live server. -/
def exampleServer : NewServerLink Unit where
  client := ⟨.server, false, false, false, false, false, 0, 20, 0, 0, 0, ()⟩
  server := rfl
  alive := rfl

/-- Commands that change nothing. -/
def quietEnv : Env Unit where
  parse c _ := c
  exitClient c := { c with dead := true }
  now := 0
  postRegistrationDelay := 0
  noOperFlood := false
  clientFlood := 20
  parse_server _ _ h := Or.inl h

/-- Two lines in two chunks that do not stall. -/
theorem drained_after_two_lines :
    Drained (readChunks quietEnv exampleServer.link [[97, 13, 10, 98], [99, 13, 10]])
      [[97, 13, 10, 98], [99, 13, 10]] := by
  have hiff := drained_iff_no_stall quietEnv exampleServer [[97, 13, 10, 98], [99, 13, 10]]
    (by decide)
  refine hiff.mpr ?_ _ List.prefix_rfl (by decide)
  rintro pre data hpre - ⟨-, hbody, -⟩
  have hmem : data ∈ [[97, 13, 10, 98], [99, 13, 10]] := hpre.subset (by simp)
  have hall : ∀ c ∈ ([[97, 13, 10, 98], [99, 13, 10]] : List Bytes), lineBody c ≠ [] := by decide
  exact hall data hmem hbody

/-- A chunk boundary between CR and LF: the line `b` stays in the queue. -/
theorem not_drained_after_split_crlf :
    ¬ ∀ (env : Env Unit) (lk : NewServerLink Unit) (chunks : List Bytes), (∀ c ∈ chunks, c ≠ []) →
      ∀ pre, pre <+: chunks → (readChunks env lk.link pre).client.isAnyDead = false →
        Drained (readChunks env lk.link pre) pre := by
  intro h
  have hdr := (h quietEnv exampleServer [[97, 13], [10, 98, 13, 10]] (by decide) _ List.prefix_rfl
    (by decide)).2
  revert hdr
  decide

end Bluebox.Packet
