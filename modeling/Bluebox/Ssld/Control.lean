/-
  Bluebox.Ssld.Control

  The control messages from the IRC daemon to `ssld`.  The daemon builds them in
  `libratboxcore/sslproc.c`, a letter and packed fields, and passes descriptors
  with some of them; `mod_process_cmd_recv` of `ssld/ssld.c` takes them apart.

  The socket keeps message boundaries and descriptors.  Integers are copied in
  the byte order of the machine, which is little endian here.
-/
import Bluebox.Lib.CString
import Bluebox.Sizes

namespace Bluebox.Ssld

open Bluebox.Lib

-- ============================================================================
-- Sizes and integers
-- ============================================================================

/-- `READBUF_SIZE`. -/
def readbufSize : Nat := 16384

/-- A connection id, `int32_t`. -/
abbrev ConnId := BitVec 32

/-- `int32_to_buf`. -/
def int32ToBuf (x : ConnId) : Bytes :=
  [UInt8.ofNat x.toNat, UInt8.ofNat (x.toNat / 256), UInt8.ofNat (x.toNat / 65536),
    UInt8.ofNat (x.toNat / 16777216)]

/-- `buf_to_int32`. -/
def bufToInt32 (buf : Bytes) : ConnId :=
  BitVec.ofNat 32 ((buf.getD 0 0).toNat + 256 * (buf.getD 1 0).toNat
    + 65536 * (buf.getD 2 0).toNat + 16777216 * (buf.getD 3 0).toNat)

theorem bufToInt32_int32ToBuf (x : ConnId) (rest : Bytes) :
    bufToInt32 (int32ToBuf x ++ rest) = x := by
  have hlt : x.toNat < 4294967296 := x.isLt
  apply BitVec.eq_of_toNat_eq
  simp only [bufToInt32, int32ToBuf, List.cons_append, List.getD_cons_zero, List.getD_cons_succ,
    UInt8.toNat_ofNat', BitVec.toNat_ofNat]
  omega

-- ============================================================================
-- The daemon
-- ============================================================================

/-- `prng_seed_t`. -/
inductive PrngSeed
  | egd
  | file
  | default
deriving DecidableEq, Repr

/-- The number of an enumerator. -/
def PrngSeed.toByte : PrngSeed → UInt8
  | .egd => 0
  | .file => 1
  | .default => 2

/-- The enumerator of a number; `rb_init_prng` takes any other for none it knows. -/
def PrngSeed.ofByte (b : UInt8) : Option PrngSeed :=
  if b = 0 then some .egd else if b = 1 then some .file else if b = 2 then some .default else none

/-- A message on the control socket: its bytes and how many descriptors go along. -/
structure Packet where
  bytes : Bytes
  nfds : Nat
deriving DecidableEq, Repr

/-- `start_ssld_accept`. -/
def startSsldAccept (id : ConnId) : Packet := ⟨65 :: int32ToBuf id, 2⟩

/-- `start_ssld_connect`. -/
def startSsldConnect (id : ConnId) : Packet := ⟨67 :: int32ToBuf id, 2⟩

/-- `send_new_ssl_certs_one`: nothing is sent when the strings are too long. -/
def sendNewSslCertsOne (sslCert sslPrivateKey sslDhParams : CStr) : Option Packet :=
  let len := sslCert.bytes.length + sslPrivateKey.bytes.length + sslDhParams.bytes.length + 5
  if len > readbufSize then none
  else some ⟨75 :: 0 :: (sslCert.bytes ++ 0 :: (sslPrivateKey.bytes ++ 0 ::
    (sslDhParams.bytes ++ [0]))), 0⟩

/-- `send_init_prng`; no path is an empty one. -/
def sendInitPrng (seedtype : PrngSeed) (path : Option CStr) : Option Packet :=
  let s := path.elim [] CStr.bytes
  let len := s.length + 3
  if len > readbufSize then none
  else some ⟨73 :: seedtype.toByte :: (s ++ [0]), 0⟩

/-- `collect_zipstats`, for one server: its name is copied into the message. -/
def collectZipstats (id : ConnId) (name : CStr) : Packet :=
  ⟨83 :: (int32ToBuf id ++ (strlcpy name.bytes hostLen ++ [0])), 0⟩

/-- The loop of `start_zlib_session` that copies the receive queue, a line at a
    time, into a space of `left` bytes.  `rb_linebuf_get` leaves the last byte free where the
    line does not fit, and where there is no space at all it copies for ever. -/
def copyRecvq : Nat → List Bytes → Option Bytes
  | _, [] => some []
  | left, line :: lines =>
    let cpylen : Int := if left < line.length then (left : Int) - 1 else line.length
    if cpylen < 0 then none
    else if cpylen = 0 then some []
    else (copyRecvq (left - cpylen.toNat) lines).map (line.take cpylen.toNat ++ ·)

/-- The message of `start_zlib_session` that names the new connection. -/
def zlibConnid (id newid : ConnId) : Packet := ⟨89 :: (int32ToBuf id ++ int32ToBuf newid), 0⟩

/-- The message of `start_zlib_session` that passes the connection on, with the
    lines of its receive queue.  The length is kept in 16 bits, and the space is zeroed. -/
def startZlibSession (id : ConnId) (level : UInt8) (recvq : List Bytes) : Option Packet :=
  let recvqlen := recvq.flatten.length % 65536
  let len := recvqlen + 6
  if len > readbufSize then none
  else (copyRecvq recvqlen recvq).map fun copied =>
    ⟨90 :: (int32ToBuf id ++ level :: (copied ++ List.replicate (recvqlen - copied.length) 0)), 2⟩

-- ============================================================================
-- ssld
-- ============================================================================

/-- `mod_ctl_buf_t`: a zeroed buffer with the message in front. -/
structure CtlBuf where
  buf : Bytes
  buflen : Nat
  nfds : Nat

/-- What `mod_read_ctl` makes of a message. -/
def Packet.received (p : Packet) : CtlBuf :=
  ⟨p.bytes ++ List.replicate (readbufSize - p.bytes.length) 0, p.bytes.length, p.nfds⟩

/-- The string at the front of a buffer. -/
def cstring (buf : Bytes) : Bytes := buf.takeWhile (· != 0)

/-- What a handler of `ssld` reads from a message. -/
inductive Command
  | accept (id : ConnId)
  | connect (id : ConnId)
  | newKeys (cert key : Bytes) (dhparam : Option Bytes)
  | initPrng (seedType : Option PrngSeed) (path : Bytes)
  | stats (id : ConnId) (odata : Bytes)
  | connid (id newid : ConnId)
  | zlib (id : ConnId) (level : UInt8) (recvq : Bytes)
deriving DecidableEq, Repr

/-- `ssl_new_keys`: empty parameters are none. -/
def sslNewKeys (buf : Bytes) : Command :=
  let cert := cstring (buf.drop 2)
  let buf := (buf.drop 2).drop (cert.length + 1)
  let key := cstring buf
  let dhparam := cstring (buf.drop (key.length + 1))
  .newKeys cert key (if dhparam = [] then none else some dhparam)

/-- `init_prng`. -/
def initPrng (buf : Bytes) : Command :=
  .initPrng (PrngSeed.ofByte (buf.getD 1 0)) (cstring (buf.drop 2))

/-- `process_stats`, as far as it reads the message: a negative id ends it. -/
def processStats (buf : Bytes) : Option Command :=
  let id := bufToInt32 (buf.drop 1)
  if id.toInt < 0 then none else some (.stats id (cstring (buf.drop 5)))

/-- `change_connid`. -/
def changeConnid (buf : Bytes) : Command :=
  .connid (bufToInt32 (buf.drop 1)) (bufToInt32 (buf.drop 5))

/-- `zlib_process`; the length is a `size_t`. -/
def zlibProcess (ctlb : CtlBuf) : Command :=
  let recvqlen := (ctlb.buflen + 2 ^ 64 - 6) % 2 ^ 64
  .zlib (bufToInt32 (ctlb.buf.drop 1)) (ctlb.buf.getD 5 0) ((ctlb.buf.drop 6).take recvqlen)

/-- What `ssld` was built with. -/
structure Support where
  sslOk : Bool
  haveZlib : Bool

/-- What becomes of a message. -/
inductive Handled
  | run (c : Command)
  | noSsl
  | noZlib
  | bad
  | dropped
deriving DecidableEq, Repr

/-- `mod_process_cmd_recv`, for one message. -/
def modProcessCmdRecv (sup : Support) (ctlb : CtlBuf) : Handled :=
  match (ctlb.buf.headD 0).toNat with
  | 65 => -- A
    if ctlb.nfds ≠ 2 ∨ ctlb.buflen ≠ 5 then .bad
    else if !sup.sslOk then .noSsl
    else .run (.accept (bufToInt32 (ctlb.buf.drop 1)))
  | 67 => -- C
    if ctlb.nfds ≠ 2 ∨ ctlb.buflen ≠ 5 then .bad
    else if !sup.sslOk then .noSsl
    else .run (.connect (bufToInt32 (ctlb.buf.drop 1)))
  | 75 => if !sup.sslOk then .noSsl else .run (sslNewKeys ctlb.buf) -- K
  | 73 => .run (initPrng ctlb.buf) -- I
  | 83 => (processStats ctlb.buf).elim .dropped .run -- S
  | 89 => .run (changeConnid ctlb.buf) -- Y
  | 90 => -- Z
    if !sup.haveZlib then .noZlib
    else if ctlb.nfds ≠ 2 ∨ ctlb.buflen ≠ 5 then .bad
    else .run (zlibProcess ctlb)
  | _ => .dropped

-- ============================================================================
-- Agreement
-- ============================================================================

/-- What the daemon has to say. -/
inductive Message
  | accept (id : ConnId)
  | connect (id : ConnId)
  | newKeys (cert key dhparam : CStr)
  | initPrng (seedType : PrngSeed) (path : Option CStr)
  | stats (id : ConnId) (name : CStr)
  | connid (id newid : ConnId)
  | zlib (id : ConnId) (level : UInt8) (recvq : List Bytes)

/-- The message as it is built. -/
def Message.packet : Message → Option Packet
  | .accept id => some (startSsldAccept id)
  | .connect id => some (startSsldConnect id)
  | .newKeys cert key dhparam => sendNewSslCertsOne cert key dhparam
  | .initPrng seedType path => sendInitPrng seedType path
  | .stats id name => some (collectZipstats id name)
  | .connid id newid => some (zlibConnid id newid)
  | .zlib id level recvq => startZlibSession id level recvq

/-- The fields that went into it. -/
def Message.command : Message → Command
  | .accept id => .accept id
  | .connect id => .connect id
  | .newKeys cert key dhparam =>
    .newKeys cert.bytes key.bytes (if dhparam.bytes = [] then none else some dhparam.bytes)
  | .initPrng seedType path => .initPrng (some seedType) (path.elim [] CStr.bytes)
  | .stats id name => .stats id (strlcpy name.bytes hostLen)
  | .connid id newid => .connid id newid
  | .zlib id level recvq => .zlib id level recvq.flatten

/-- The messages that `ssld` takes: none of kind `Z`, with SSL support those for
    which it needs it, and no statistics of a negative id. -/
def Message.taken (sup : Support) : Message → Bool
  | .accept _ => sup.sslOk
  | .connect _ => sup.sslOk
  | .newKeys .. => sup.sslOk
  | .initPrng .. => true
  | .stats id _ => decide (0 ≤ id.toInt)
  | .connid .. => true
  | .zlib .. => false

theorem cstring_append {s : Bytes} (h : NoNul s) (rest : Bytes) : cstring (s ++ 0 :: rest) = s := by
  unfold cstring
  rw [List.takeWhile_append_of_pos]
  · rw [List.takeWhile_cons_of_neg (by decide), List.append_nil]
  · intro b hb
    exact bne_iff_ne.mpr fun h0 => h (h0 ▸ hb)

theorem drop_cstring (s rest : Bytes) : (s ++ 0 :: rest).drop (s.length + 1) = rest := by
  rw [List.drop_append, List.drop_eq_nil_of_le (Nat.le_succ _), Nat.add_sub_cancel_left]
  rfl

/-- The strings of a `K` message. -/
theorem sslNewKeys_packed (cert key dhparam : CStr) (rest : Bytes) :
    sslNewKeys (75 :: 0 :: (cert.bytes ++ 0 :: (key.bytes ++ 0 :: (dhparam.bytes ++ 0 :: rest))))
      = (Message.newKeys cert key dhparam).command := by
  unfold sslNewKeys
  simp only [List.drop_succ_cons, List.drop_zero]
  rw [cstring_append cert.noNul, drop_cstring, cstring_append key.noNul, drop_cstring,
    cstring_append dhparam.noNul]
  rfl

theorem ofByte_toByte (s : PrngSeed) : PrngSeed.ofByte s.toByte = some s := by
  cases s with
  | egd => decide
  | file => decide
  | default => decide

/-- The id behind the letter. -/
theorem bufToInt32_packed (c : UInt8) (id : ConnId) (rest : Bytes) :
    bufToInt32 ((c :: (int32ToBuf id ++ rest)).drop 1) = id :=
  bufToInt32_int32ToBuf id rest

-- What becomes of each kind of message.

theorem received_accept (sup : Support) (id : ConnId) :
    modProcessCmdRecv sup (startSsldAccept id).received
      = if !sup.sslOk then .noSsl else .run (.accept id) := by
  have hid : bufToInt32 ((startSsldAccept id).received.buf.drop 1) = id := bufToInt32_packed 65 id _
  change (if !sup.sslOk then Handled.noSsl else .run (.accept (bufToInt32 _))) = _
  rw [hid]

theorem received_connect (sup : Support) (id : ConnId) :
    modProcessCmdRecv sup (startSsldConnect id).received
      = if !sup.sslOk then .noSsl else .run (.connect id) := by
  have hid : bufToInt32 ((startSsldConnect id).received.buf.drop 1) = id := bufToInt32_packed 67 id _
  change (if !sup.sslOk then Handled.noSsl else .run (.connect (bufToInt32 _))) = _
  rw [hid]

theorem received_newKeys (sup : Support) (cert key dhparam : CStr) {p : Packet}
    (hp : sendNewSslCertsOne cert key dhparam = some p) :
    modProcessCmdRecv sup p.received
      = if !sup.sslOk then .noSsl else .run (Message.newKeys cert key dhparam).command := by
  unfold sendNewSslCertsOne at hp
  dsimp only at hp
  split at hp
  · cases hp
  · obtain rfl := Option.some.inj hp
    rw [← sslNewKeys_packed cert key dhparam (List.replicate (readbufSize
      - (75 :: 0 :: (cert.bytes ++ 0 :: (key.bytes ++ 0 :: (dhparam.bytes ++ [0])))).length) 0)]
    simp only [Packet.received, List.cons_append, List.append_assoc, List.nil_append]
    rfl

theorem received_initPrng (sup : Support) (seedType : PrngSeed) (path : Option CStr) {p : Packet}
    (hp : sendInitPrng seedType path = some p) :
    modProcessCmdRecv sup p.received = .run (Message.initPrng seedType path).command := by
  have hpath : NoNul (path.elim [] CStr.bytes) := by
    cases path with
    | none => exact List.not_mem_nil
    | some s => exact s.noNul
  unfold sendInitPrng at hp
  dsimp only at hp
  split at hp
  · cases hp
  · obtain rfl := Option.some.inj hp
    simp only [Packet.received, List.cons_append, List.append_assoc, List.nil_append]
    change Handled.run (.initPrng (PrngSeed.ofByte seedType.toByte) (cstring _)) = _
    rw [ofByte_toByte]
    exact congrArg (fun s => Handled.run (.initPrng (some seedType) s)) (cstring_append hpath _)

theorem received_stats (sup : Support) (id : ConnId) (name : CStr) :
    modProcessCmdRecv sup (collectZipstats id name).received
      = if id.toInt < 0 then .dropped else .run (.stats id (strlcpy name.bytes hostLen)) := by
  have hname : NoNul (strlcpy name.bytes hostLen) := name.noNul.take _
  simp only [Packet.received, collectZipstats, List.cons_append, List.append_assoc, List.nil_append]
  change (processStats _).elim Handled.dropped .run = _
  unfold processStats
  rw [bufToInt32_packed]
  dsimp only
  split
  · rfl
  · exact congrArg (fun s => Handled.run (.stats id s)) (cstring_append hname _)

theorem received_connid (sup : Support) (id newid : ConnId) :
    modProcessCmdRecv sup (zlibConnid id newid).received = .run (.connid id newid) := by
  simp only [Packet.received, zlibConnid, List.cons_append, List.append_assoc]
  have hid := bufToInt32_packed 89 id (int32ToBuf newid ++ List.replicate
    (readbufSize - (89 :: (int32ToBuf id ++ int32ToBuf newid)).length) 0)
  have hnewid := bufToInt32_int32ToBuf newid (List.replicate
    (readbufSize - (89 :: (int32ToBuf id ++ int32ToBuf newid)).length) 0)
  exact congrArg₂ (fun a b => Handled.run (.connid a b)) hid hnewid

theorem received_zlib (sup : Support) {id : ConnId} {level : UInt8} {recvq : List Bytes} {p : Packet}
    (hp : startZlibSession id level recvq = some p) :
    modProcessCmdRecv sup p.received = if !sup.haveZlib then .noZlib else .bad := by
  unfold startZlibSession at hp
  dsimp only at hp
  split at hp
  · cases hp
  · obtain ⟨copied, -, rfl⟩ := Option.map_eq_some_iff.mp hp
    -- the header alone has six bytes
    have hlen : (Packet.received ⟨90 :: (int32ToBuf id ++ level ::
        (copied ++ List.replicate (recvq.flatten.length % 65536 - copied.length) 0)), 2⟩).buflen ≠ 5 := by
      simp [Packet.received, int32ToBuf]
    change (if !sup.haveZlib then Handled.noZlib else if _ ≠ 2 ∨ _ ≠ 5 then .bad else _) = _
    rw [if_pos (Or.inr hlen)]

/-- For every message that the daemon builds: `ssld` takes it and reads the fields
    that went into it if and only if it is one of those named above. -/
theorem decoded_iff_taken (sup : Support) (m : Message) {p : Packet} (hp : m.packet = some p) :
    modProcessCmdRecv sup p.received = .run m.command ↔ m.taken sup = true := by
  have hssl : ∀ c : Command,
      (if !sup.sslOk then Handled.noSsl else .run c) = .run c ↔ sup.sslOk = true := by
    intro c
    cases sup.sslOk with
    | false => exact iff_of_false nofun nofun
    | true => exact iff_of_true rfl rfl
  cases m with
  | accept id =>
    obtain rfl := Option.some.inj hp
    rw [received_accept]
    exact hssl _
  | connect id =>
    obtain rfl := Option.some.inj hp
    rw [received_connect]
    exact hssl _
  | newKeys cert key dhparam =>
    rw [received_newKeys sup cert key dhparam hp]
    exact hssl _
  | initPrng seedType path => exact iff_of_true (received_initPrng sup seedType path hp) rfl
  | stats id name =>
    obtain rfl := Option.some.inj hp
    rw [received_stats, Message.taken, decide_eq_true_iff]
    by_cases hneg : id.toInt < 0
    · rw [if_pos hneg]
      exact iff_of_false nofun (Int.not_le.mpr hneg)
    · rw [if_neg hneg]
      exact iff_of_true rfl (Int.not_lt.mp hneg)
  | connid id newid =>
    obtain rfl := Option.some.inj hp
    exact iff_of_true (received_connid sup id newid) rfl
  | zlib id level recvq =>
    rw [received_zlib sup hp]
    refine iff_of_false ?_ nofun
    split
    · exact nofun
    · exact nofun

/-- The strings `c`, `k` and none. -/
theorem decoded_newKeys :
    modProcessCmdRecv ⟨true, true⟩ (Packet.received ⟨[75, 0, 99, 0, 107, 0, 0], 0⟩)
      = .run (.newKeys [99] [107] none) :=
  (decoded_iff_taken ⟨true, true⟩ (.newKeys ⟨[99], by decide⟩ ⟨[107], by decide⟩ ⟨[], by decide⟩)
    (p := ⟨[75, 0, 99, 0, 107, 0, 0], 0⟩) (by decide)).mpr rfl

/-- A compressed link with an empty receive queue is refused. -/
theorem not_decoded_zlib :
    ¬ ∀ (m : Message) (p : Packet), m.packet = some p →
      modProcessCmdRecv ⟨true, true⟩ p.received = .run m.command := by
  intro h
  have hz := h (.zlib 5 6 []) ⟨[90, 5, 0, 0, 0, 6], 2⟩ (by decide)
  rw [received_zlib ⟨true, true⟩ (show startZlibSession 5 6 [] = _ by decide)] at hz
  cases hz

end Bluebox.Ssld
