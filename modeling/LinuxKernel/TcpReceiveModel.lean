import LinuxKernel.SequenceNumber

/-!
# The receiving side of a TCP connection

`tcp_sequence`, `tcp_ack`, `tcp_urg`, `tcp_data` and `tcp_fin` under `tcp_rcv`,
`tcp_read` with `cleanup_rbuf`, and the functions of `net/inet/tcp.c` that put an
acknowledgement and a window into a segment.  The connection is synchronized: the
handshake is over.

The queues of the sending side are not here; where they decide how far `sent_seq`
goes, the event says it.  Timers fire at any time, and whether there is memory and a
route for a segment comes with the event.
-/

namespace LinuxKernel.Tcp

def maxWindow : ℕ := 4096

def minWindow : ℕ := 2048

def eagain : ℤ := 11
def einval : ℤ := 22
def epipe : ℤ := 32
def econnreset : ℤ := 104
def enotconn : ℤ := 107
def etimedout : ℤ := 110

inductive State where
  | established
  | closeWait
  | finWait1
  | finWait2
  | lastAck
  | timeWait
  | close
  deriving DecidableEq

/-- A segment as it comes in: `header` is its `4 * doff` bytes of header, `memLen`
the memory its buffer takes. -/
structure Segment where
  seq : Seq
  ackSeq : Seq
  window : UInt16
  urgPtr : UInt16
  syn : Bool
  fin : Bool
  rst : Bool
  psh : Bool
  ack : Bool
  urg : Bool
  header : List UInt8
  data : List UInt8
  memLen : ℕ
  header_len : 20 ≤ header.length
  fits : header.length + data.length ≤ memLen

/-- `struct sk_buff` on the receive queue; `ackSeq` is what `tcp_data` writes over
the field of the header. -/
structure Skb where
  th : Segment
  ackSeq : Seq
  acked : Bool
  used : Bool

def Skb.seq (skb : Skb) : Seq := skb.th.seq

def Skb.len (skb : Skb) : ℕ := skb.th.data.length

inductive UrgData where
  | none
  | notYet
  | valid (b : UInt8)
  | read
  deriving DecidableEq

structure Advert where
  ackSeq : Seq
  window : ℕ

/-- `struct sock`.  `rcvShutdown` and `sendShutdown` are the bits of `shutdown`;
`request` is the memory of a connection request that is not accepted yet;
`shutdowns` and `closes` count the calls that wait in `tcp_shutdown` and
`tcp_close`; `sent` records what was put into the segments, the last one first. -/
structure Sock where
  state : State
  rcvShutdown : Bool
  sendShutdown : Bool
  err : ℤ
  zapped : Bool
  done : Bool
  ackedSeq : Seq
  copiedSeq : Seq
  finSeq : Seq
  sentSeq : Seq
  writeSeq : Seq
  rcvAckSeq : Seq
  urgSeq : Seq
  urgData : UrgData
  urginline : Bool
  window : ℕ
  bytesRcv : ℕ
  ackBacklog : UInt8
  maxAckBacklog : UInt8
  maxUnacked : ℕ
  delayAcks : Bool
  mtu : ℕ
  mss : ℕ
  maxWindow : ℕ
  rcvbuf : ℕ
  rmemAlloc : ℕ
  request : ℕ
  shutdowns : ℕ
  closes : ℕ
  rqueue : List Skb
  sent : List Advert

/-- What `wmalloc` and `build_header` say about a segment that is to go out. -/
inductive Buff where
  | noMemory
  | unroutable
  | ok

def unsigned (z : ℤ) : ℕ := (z % 4294967296).toNat

def Sock.rspace (sk : Sock) : ℕ :=
  if unsigned ((sk.rcvbuf : ℤ) - 2 * minWindow) ≤ sk.rmemAlloc then 0
  else
    min (unsigned ((unsigned ((sk.rcvbuf : ℤ) - sk.rmemAlloc) / 2 : ℕ) - (minWindow : ℤ)))
      Tcp.maxWindow

def Sock.tcpSelectWindow (sk : Sock) : ℕ :=
  if sk.rspace < min sk.mss (Tcp.maxWindow / 2) ∨ sk.rspace < sk.window then sk.window
  else sk.rspace

/-- The acknowledgement and the window of a segment; all but `tcp_write_wakeup` keep
the window. -/
def Sock.advertise (sk : Sock) : Sock :=
  { sk with
    window := sk.tcpSelectWindow
    sent := ⟨sk.ackedSeq, sk.tcpSelectWindow⟩ :: sk.sent }

def Sock.tcpSendAck (sk : Sock) (b : Buff) : Sock :=
  if sk.zapped then sk
  else
    match b with
    | .noMemory => { sk with ackBacklog := sk.ackBacklog + 1 }
    | .unroutable => sk
    | .ok => { sk.advertise with ackBacklog := 0, bytesRcv := 0 }

def Sock.tcpBuildHeader (sk : Sock) (copy : ℕ) : Sock :=
  { sk.advertise with
    ackBacklog := 0
    bytesRcv := 0
    writeSeq := sk.writeSeq + BitVec.ofNat 32 copy }

def Sock.tcpReadWakeup (sk : Sock) (b : Buff) : Sock :=
  if sk.ackBacklog = 0 then sk
  else
    match b with
    | .noMemory => sk
    | .unroutable => sk
    | .ok => { sk.advertise with ackBacklog := 0, bytesRcv := 0 }

def Sock.tcpWriteWakeup (sk : Sock) (b : Buff) : Sock :=
  if sk.zapped then sk
  else if sk.state ≠ .established ∧ sk.state ≠ .closeWait ∧ sk.state ≠ .finWait1 ∧
      sk.state ≠ .finWait2 then sk
  else
    match b with
    | .noMemory => sk
    | .unroutable => sk
    -- The window that is offered here is not put into `sk->window`.
    | .ok => { sk with sent := ⟨sk.ackedSeq, sk.tcpSelectWindow⟩ :: sk.sent }

/-- `kfree_skb(skb, FREE_READ)` for a buffer charged to the socket. -/
def Sock.rfree (sk : Sock) (size : ℕ) : Sock := { sk with rmemAlloc := sk.rmemAlloc - size }

def Sock.shutdownAll (sk : Sock) : Sock := { sk with rcvShutdown := true, sendShutdown := true }

def Sock.tcpTimeWait (sk : Sock) : Sock := { sk.shutdownAll with state := .timeWait }

def Segment.span (th : Segment) : ℕ := th.data.length + th.fin.toNat

def Sock.acceptable (sk : Sock) (th : Segment) : Bool :=
  if th.span ≠ 0 ∧ sk.window = 0 then false
  else
    Seq.after (BitVec.ofNat 32 th.span + th.seq + 1) sk.ackedSeq &&
      Seq.before th.seq (sk.ackedSeq + BitVec.ofNat 32 sk.window + 1)

def Sock.refuse (sk : Sock) (th : Segment) (b : Buff) : Sock :=
  if th.rst then sk else sk.tcpSendAck b

/-- `tcp_ack`, with what it returns.  `sentSeq` is how far `tcp_write_xmit` and
`tcp_send_partial` go, if they send. -/
def Sock.tcpAck (sk : Sock) (th : Segment) (sentSeq : Option Seq) (b : Buff) : Sock × Bool :=
  if sk.zapped then (sk, true)
  else
    let sk : Sock :=
      if sk.maxWindow < th.window.toNat then
        { sk with maxWindow := th.window.toNat, mss := min th.window.toNat sk.mtu }
      else sk
    if Seq.after th.ackSeq (sk.sentSeq + 1) ∨ Seq.before th.ackSeq (sk.rcvAckSeq - 1) then
      if Seq.after th.ackSeq sk.sentSeq ∨ (sk.state ≠ .established ∧ sk.state ≠ .closeWait) then
        (sk, false)
      else (sk, true)
    else
      let sk : Sock := { sk with rcvAckSeq := th.ackSeq, sentSeq := sentSeq.getD sk.sentSeq }
      let sk : Sock :=
        if sk.state = .timeWait ∧ sk.rcvAckSeq = sk.writeSeq ∧ sk.ackedSeq = sk.finSeq then
          { sk.shutdownAll with state := .close }
        else sk
      if (sk.state = .lastAck ∨ sk.state = .finWait2) ∧ sk.rcvAckSeq = sk.writeSeq then
        if sk.ackedSeq ≠ sk.finSeq then (sk.tcpTimeWait, true)
        else ({ (sk.tcpSendAck b).shutdownAll with state := .close }, true)
      else (sk, true)

def Sock.tcpCheckUrg (sk : Sock) (th : Segment) : Sock :=
  let ptr := BitVec.ofNat 32 (th.urgPtr.toNat - 1) + th.seq
  if Seq.after (sk.copiedSeq + 1) ptr then sk
  else if sk.urgData ≠ .none ∧ ¬Seq.after ptr sk.urgSeq then sk
  else { sk with urgData := .notYet, urgSeq := ptr }

def Sock.tcpUrg (sk : Sock) (th : Segment) : Sock :=
  let sk : Sock := if th.urg then sk.tcpCheckUrg th else sk
  if sk.urgData ≠ .notYet then sk
  else
    -- The offset from the start of the header; the sum may wrap.
    let ptr := (sk.urgSeq - th.seq + BitVec.ofNat 32 th.header.length).toNat
    match (th.header ++ th.data)[ptr]? with
    | none => sk
    | some b => { sk with urgData := .valid b }

/-- The walk of `tcp_data` from the tail of the queue to the place of a segment: what
stays before it, from the tail on, and what comes after it.  A segment with the same
number that is not longer is dropped. -/
def place (skb : Skb) : List Skb → List Skb → List Skb × List Skb
  | [], later => ([], later)
  | skb1 :: rest, later =>
    if skb.seq = skb1.seq ∧ skb1.len ≤ skb.len then (rest, later)
    else if Seq.after (skb.seq + 1) skb1.seq then (skb1 :: rest, later)
    else place skb rest (skb1 :: later)

def placeFreed (skb : Skb) : List Skb → ℕ
  | [] => 0
  | skb1 :: rest =>
    if skb.seq = skb1.seq ∧ skb1.len ≤ skb.len then skb1.th.memLen
    else if Seq.after (skb.seq + 1) skb1.seq then 0
    else placeFreed skb rest

def Sock.ackSkb (sk : Sock) (skb : Skb) : Sock :=
  let sk : Sock :=
    if Seq.after skb.ackSeq sk.ackedSeq then
      { sk with
        window := sk.window - (skb.ackSeq - sk.ackedSeq).toNat
        ackedSeq := skb.ackSeq }
    else sk
  if skb.th.fin then { sk with rcvShutdown := true } else sk

def Sock.ackLater (sk : Sock) : List Skb → Sock × List Skb
  | [] => (sk, [])
  | skb2 :: rest =>
    if Seq.before skb2.seq (sk.ackedSeq + 1) then
      let next := { sk.ackSkb skb2 with ackBacklog := sk.maxAckBacklog }
      ((next.ackLater rest).1, { skb2 with acked := true } :: (next.ackLater rest).2)
    else (sk, skb2 :: rest)

/-- The loop of `tcp_data` that makes room by dropping what is not acknowledged. -/
def Sock.discard (sk : Sock) : List Skb → Sock
  | [] => { sk with rqueue := [] }
  | skb1 :: rest =>
    if sk.rspace < sk.mtu ∧ skb1.acked = false then (sk.rfree skb1.th.memLen).discard rest
    else { sk with rqueue := skb1 :: rest }

def Segment.skb (th : Segment) : Skb where
  th := th
  ackSeq := th.seq + BitVec.ofNat 32 (th.data.length + th.syn.toNat + th.fin.toNat)
  acked := false
  used := false

/-- `tcp_data` when the segment is on the queue, between `earlier`, the last one
first, and `later`.  The outer test of the source follows from the inner one. -/
def Sock.tcpDataAck (sk : Sock) (skb : Skb) (earlier later : List Skb) (b : Buff) : Sock :=
  if Seq.before skb.seq (sk.ackedSeq + 1) then
    let acked := (sk.ackSkb skb).ackLater later
    let sk' : Sock :=
      if sk.delayAcks = false ∨ sk.maxAckBacklog ≤ acked.1.ackBacklog ∨
          sk.maxUnacked < sk.bytesRcv ∨ skb.th.fin then acked.1
      else { acked.1 with ackBacklog := acked.1.ackBacklog + 1 }
    { sk' with rqueue := earlier.reverse ++ { skb with acked := true } :: acked.2 }.tcpSendAck b
  else
    let sk' : Sock := (sk.discard (earlier.reverse ++ skb :: later)).tcpSendAck b
    { sk' with ackBacklog := sk'.ackBacklog + 1 }

def Sock.tcpDataQueue (sk : Sock) (th : Segment) (b : Buff) : Sock :=
  let placed := place th.skb sk.rqueue.reverse []
  let sk : Sock := sk.rfree (placeFreed th.skb sk.rqueue.reverse)
  let sk : Sock :=
    if Seq.before sk.ackedSeq sk.copiedSeq then { sk with ackedSeq := sk.copiedSeq } else sk
  let sk : Sock := sk.tcpDataAck th.skb placed.1 placed.2 b
  if sk.state = .finWait2 ∧ sk.ackedSeq = sk.finSeq ∧ sk.rcvAckSeq = sk.writeSeq then
    { sk.shutdownAll with state := .lastAck }
  else sk

def Sock.tcpData (sk : Sock) (th : Segment) (b : Buff) : Sock :=
  let sk : Sock := { sk with bytesRcv := (sk.bytesRcv + th.data.length) % 65536 }
  if th.data = [] ∧ th.fin = false ∧ th.urg = false ∧ th.psh = false then
    (if th.ack then sk else sk.tcpSendAck b).rfree th.memLen
  else if sk.rcvShutdown then
    -- `tcp_reset` answers; it says nothing about the window.
    { sk.shutdownAll.rfree th.memLen with
      ackedSeq := th.seq + BitVec.ofNat 32 (th.data.length + th.syn.toNat + th.fin.toNat)
      state := .close
      err := epipe }
  else sk.tcpDataQueue th b

def Sock.tcpFin (sk : Sock) (th : Segment) : Sock :=
  match sk.state with
  | .established =>
    { sk with finSeq := th.seq + 1, state := .closeWait, ackBacklog := sk.ackBacklog + 1 }
  | .closeWait => { sk with ackBacklog := sk.ackBacklog + 1 }
  | .finWait2 => { sk with ackBacklog := sk.ackBacklog + 1 }
  | .finWait1 =>
    { sk with finSeq := th.seq + 1, state := .finWait2, ackBacklog := sk.ackBacklog + 1 }
  | .lastAck => { sk with state := .lastAck }
  | .timeWait => { sk with state := .lastAck }
  | .close => { sk with state := .lastAck }

def Sock.kill (sk : Sock) (err : ℤ) : Sock := { sk.shutdownAll with state := .close, err := err }

def Sock.tcpRcvData (sk : Sock) (th : Segment) (sentSeq : Option Seq) (b b' : Buff) : Sock :=
  let acked := if th.ack then sk.tcpAck th sentSeq b else (sk, true)
  if acked.2 = false then acked.1.rfree th.memLen
  else
    let sk : Sock := (acked.1.tcpUrg th).tcpData th b'
    if th.fin then sk.tcpFin th else sk

def Sock.tcpRcvState (sk : Sock) (th : Segment) (sentSeq : Option Seq) (b b' : Buff) : Sock :=
  if sk.state = .close then sk.rfree th.memLen
  else if sk.state = .lastAck ∧ th.rst then
    { (sk.kill econnreset).rfree th.memLen with zapped := true }
  else if sk.acceptable th = false then (sk.refuse th b').rfree th.memLen
  else if th.rst then
    { (sk.kill (if sk.state = .closeWait then epipe else econnreset)).rfree th.memLen with
      zapped := true }
  else if th.syn then (sk.kill econnreset).rfree th.memLen
  else sk.tcpRcvData th sentSeq b b'

def Sock.tcpRcv (sk : Sock) (th : Segment) (sentSeq : Option Seq) (b b' : Buff) : Sock :=
  if sk.zapped then sk
  else if sk.rcvbuf ≤ sk.rmemAlloc + th.memLen then sk
  else { sk with rmemAlloc := sk.rmemAlloc + th.memLen }.tcpRcvState th sentSeq b b'

def Skb.offset (skb : Skb) (seq : Seq) : ℕ :=
  (1 + seq - skb.seq - BitVec.ofNat 32 skb.th.syn.toNat).toNat

def Skb.found (skb : Skb) (seq : Seq) : Bool :=
  !Seq.before (1 + seq) skb.seq && decide (skb.offset seq < skb.len)

/-- The search of `tcp_read`: the buffers it passes over, and the rest. -/
def scan (peek : Bool) (seq : Seq) : List Skb → List Skb × List Skb
  | [] => ([], [])
  | skb :: rest =>
    if Seq.before (1 + seq) skb.seq ∨ skb.found seq then ([], skb :: rest)
    else
      ({ skb with used := skb.used || !peek } :: (scan peek seq rest).1, (scan peek seq rest).2)

/-- What `tcp_read` takes from a buffer: the bytes it skips, as urgent data, and
those it copies then. -/
def Sock.share (sk : Sock) (skb : Skb) (seq : Seq) (len : ℕ) : ℕ × ℕ :=
  let used := min len (skb.len - skb.offset seq)
  let urgOffset := (sk.urgSeq - (1 + seq)).toNat
  if sk.urgData ≠ .none ∧ urgOffset < used then
    if urgOffset = 0 then if sk.urginline then (0, used) else (1, used - 1)
    else (0, urgOffset)
  else (0, used)

inductive ReadResult where
  | copied (bytes : List UInt8)
  | error (e : ℤ)
  | sleep

def Sock.readNothing (sk : Sock) (nonblock : Bool) : Sock × ReadResult :=
  if sk.err ≠ 0 then ({ sk with err := 0 }, .error sk.err)
  else if sk.state = .close then
    if sk.done then (sk, .error enotconn) else ({ sk with done := true }, .copied [])
  else if sk.rcvShutdown then ({ sk with done := true }, .copied [])
  else if nonblock then (sk, .error eagain)
  else (sk, .sleep)

def Sock.readFrom (sk : Sock) (peek : Bool) (seq : Seq) (passed : List Skb) (skb : Skb)
    (rest : List Skb) (len : ℕ) : Sock :=
  let skip := (sk.share skb seq len).1
  let used := (sk.share skb seq len).2
  let copiedSeq := if peek then sk.copiedSeq else seq + BitVec.ofNat 32 (skip + used)
  let last := !peek && decide (skb.len ≤ skb.offset seq + skip + used)
  { sk with
    copiedSeq := copiedSeq
    urgData := if Seq.after (copiedSeq + 1) sk.urgSeq then .none else sk.urgData
    rqueue := passed ++ { skb with used := skb.used || last } :: rest }

/-- The loop of `tcp_read`; `seq` is `peek_seq` for `MSG_PEEK`.  Each pass copies a
byte or skips the urgent one, so `2 * len` passes are enough. -/
def Sock.tcpReadLoop (peek nonblock : Bool) : ℕ → ℕ → Seq → List UInt8 → Sock → Sock × ReadResult
  | 0, _, _, out, sk => (sk, .copied out)
  | fuel + 1, len, peekSeq, out, sk =>
    let seq := if peek then peekSeq else sk.copiedSeq
    if len = 0 then (sk, .copied out)
    else if out ≠ [] ∧ sk.urgData ≠ .none ∧ sk.urgSeq = 1 + seq then (sk, .copied out)
    else
      let passed := (scan peek seq sk.rqueue).1
      match (scan peek seq sk.rqueue).2 with
      | [] =>
        if out ≠ [] then ({ sk with rqueue := passed }, .copied out)
        else { sk with rqueue := passed }.readNothing nonblock
      | skb :: rest =>
        if skb.found seq = false then
          if out ≠ [] then ({ sk with rqueue := passed ++ skb :: rest }, .copied out)
          else { sk with rqueue := passed ++ skb :: rest }.readNothing nonblock
        else
          let skip := (sk.share skb seq len).1
          let used := (sk.share skb seq len).2
          let bytes := (skb.th.data.drop (skb.offset seq + skip)).take used
          (sk.readFrom peek seq passed skb rest len).tcpReadLoop peek nonblock fuel (len - used)
            (seq + BitVec.ofNat 32 (skip + used)) (out ++ bytes)

def Sock.cleanupRbuf (sk : Sock) (b : Buff) : Sock :=
  let freed := sk.rqueue.takeWhile (·.used)
  let next : Sock :=
    { sk with
      rqueue := sk.rqueue.dropWhile (·.used)
      rmemAlloc := sk.rmemAlloc - (freed.map (·.th.memLen)).sum }
  if next.rspace = sk.rspace then next
  else
    let next : Sock := { next with ackBacklog := next.ackBacklog + 1 }
    if unsigned ((next.window : ℤ) - next.bytesRcv + next.mtu) < next.rspace then
      next.tcpReadWakeup b
    else next

/-- `tcp_read` up to the point where it returns or sleeps.  A call that has slept
goes on as a call that starts, a peeking one at the number it had. -/
def Sock.tcpRead (sk : Sock) (peek : Option Seq) (len : ℕ) (nonblock : Bool) (b : Buff) :
    Sock × ReadResult :=
  if len = 0 then (sk, .copied [])
  else
    let result := sk.tcpReadLoop peek.isSome nonblock (2 * len) len (peek.getD sk.copiedSeq) []
    (result.1.cleanupRbuf b, result.2)

def Sock.tcpReadUrg (sk : Sock) (peek nonblock : Bool) : Sock × ReadResult :=
  match sk.urgData with
  | .none => (sk, .error einval)
  | .read => (sk, .error einval)
  | .valid c =>
    if sk.urginline then (sk, .error einval)
    else (if peek then sk else { sk with urgData := .read }, .copied [c])
  | .notYet =>
    if sk.urginline then (sk, .error einval)
    else if sk.err ≠ 0 then ({ sk with err := 0 }, .error sk.err)
    else if sk.state = .close ∨ sk.done then
      if sk.done then (sk, .error enotconn) else ({ sk with done := true }, .copied [])
    else if sk.rcvShutdown then ({ sk with done := true }, .copied [])
    else if nonblock then (sk, .error eagain)
    else (sk, .sleep)

def tcpConnected : State → Bool
  | .established => true
  | .closeWait => true
  | .finWait1 => true
  | .finWait2 => true
  | .lastAck => false
  | .timeWait => false
  | .close => false

def Sock.inetShutdown (sk : Sock) (rcv send : Bool) : Sock :=
  if tcpConnected sk.state = false then sk
  else
    let next : Sock :=
      { sk with rcvShutdown := sk.rcvShutdown || rcv, sendShutdown := sk.sendShutdown || send }
    if sk.state = .finWait1 ∨ sk.state = .finWait2 ∨ send = false then next
    else { next with shutdowns := next.shutdowns + 1 }

/-- The FIN of `tcp_shutdown` and `tcp_close`; `direct` says that the write queue is
empty. -/
def Sock.sendFin (sk : Sock) (direct : Bool) : Sock :=
  { sk.advertise with
    writeSeq := sk.writeSeq + 1
    sentSeq := if direct then sk.writeSeq + 1 else sk.sentSeq }

def Sock.tcpShutdown (sk : Sock) (b : Buff) (direct : Bool) : Sock :=
  if sk.shutdowns = 0 then sk
  else
    let sk : Sock := { sk with shutdowns := sk.shutdowns - 1 }
    match b with
    | .noMemory => sk
    | .unroutable => sk
    | .ok =>
      { sk.sendFin direct with
        state := if sk.state = .established then .finWait1 else .finWait2 }

def Sock.flush (sk : Sock) : Sock :=
  { sk.shutdownAll with
    rqueue := []
    rmemAlloc := sk.rmemAlloc - (sk.rqueue.map (·.th.memLen)).sum }

def Sock.tcpClose (sk : Sock) (timeout : Bool) (b : Buff) (direct : Bool) : Sock :=
  let sk : Sock := sk.flush
  match sk.state with
  | .finWait1 => if timeout then sk.tcpTimeWait else sk
  | .finWait2 => if timeout then sk.tcpTimeWait else sk
  | .lastAck => if timeout then sk.tcpTimeWait else sk
  | .timeWait => if timeout then { sk with state := .close } else sk
  | .close => sk
  | .closeWait =>
    match b with
    | .noMemory => { sk with closes := sk.closes + 1 }
    | .unroutable => sk
    | .ok => { sk.sendFin direct with delayAcks := false, state := .finWait2 }
  | .established =>
    match b with
    | .noMemory => { sk with closes := sk.closes + 1 }
    | .unroutable => sk
    | .ok => { sk.sendFin direct with delayAcks := false, state := .finWait1 }

/-- The rest of `tcp_close` without memory, after `release_sock`. -/
def Sock.tcpCloseLater (sk : Sock) : Sock :=
  if sk.closes = 0 then sk
  else
    { sk with
      closes := sk.closes - 1
      state := if sk.state = .closeWait then .closeWait else .established }

def Sock.timedOut (sk : Sock) : Sock :=
  { sk with
    err := etimedout
    state :=
      if sk.state = .finWait1 ∨ sk.state = .finWait2 ∨ sk.state = .lastAck then .timeWait
      else sk.state }

inductive Event where
  | rcv (th : Segment) (sentSeq : Option Seq) (b b' : Buff)
  | read (len : ℕ) (nonblock : Bool) (b : Buff)
  | peek (seq : Seq) (len : ℕ) (nonblock : Bool) (b : Buff)
  | interrupted (b : Buff)
  | readUrg (peek nonblock : Bool)
  | readWakeup (b : Buff)
  | write (copy : ℕ)
  | transmit (sentSeq : Seq)
  | shutdown (rcv send : Bool)
  | shutdownFin (b : Buff) (direct : Bool)
  | close (timeout : Bool) (b : Buff) (direct : Bool)
  | closeLater
  | writeWakeup (b : Buff)
  | timeClose
  | timedOut
  | accept
  | setErr (err : ℤ)
  | setRcvbuf (val : ℤ)
  | setUrginline (urginline : Bool)

/-- One step of a connection.  `interrupted` is the end of a `tcp_read` that a signal
wakes, `write` a segment of `tcp_write`, `setErr` what ICMP reports and what
`tcp_write` and `getsockopt` take. -/
def Sock.step (sk : Sock) : Event → Sock
  | .rcv th sentSeq b b' => sk.tcpRcv th sentSeq b b'
  | .read len nonblock b => (sk.tcpRead none len nonblock b).1
  | .peek seq len nonblock b => (sk.tcpRead (some seq) len nonblock b).1
  | .interrupted b => sk.cleanupRbuf b
  | .readUrg peek nonblock => (sk.tcpReadUrg peek nonblock).1
  | .readWakeup b => sk.tcpReadWakeup b
  | .write copy => sk.tcpBuildHeader copy
  | .transmit sentSeq => { sk with sentSeq := sentSeq }
  | .shutdown rcv send => sk.inetShutdown rcv send
  | .shutdownFin b direct => sk.tcpShutdown b direct
  | .close timeout b direct => sk.tcpClose timeout b direct
  | .closeLater => sk.tcpCloseLater
  | .writeWakeup b => sk.tcpWriteWakeup b
  | .timeClose => { sk.shutdownAll with state := .close }
  | .timedOut => sk.timedOut
  | .accept => { sk with rmemAlloc := sk.rmemAlloc - sk.request, request := 0 }
  | .setErr err => { sk with err := err }
  | .setRcvbuf val => { sk with rcvbuf := (max 256 (min val 32767)).toNat }
  | .setUrginline urginline => { sk with urginline := urginline }

def Sock.run (sk : Sock) : List Event → Sock
  | [] => sk
  | e :: es => (sk.step e).run es

/-- What the handshake leaves: nothing is queued and nothing is read yet. -/
structure Sock.Fresh (sk : Sock) : Prop where
  state : sk.state = .established
  open_rcv : sk.rcvShutdown = false
  open_send : sk.sendShutdown = false
  err : sk.err = 0
  zapped : sk.zapped = false
  copied : sk.copiedSeq + 1 = sk.ackedSeq
  urgData : sk.urgData = .none
  window : sk.window < 65536
  rcvbuf : 256 ≤ sk.rcvbuf ∧ sk.rcvbuf ≤ 32767
  rmem : sk.rmemAlloc = sk.request
  request : sk.request < 32767
  shutdowns : sk.shutdowns = 0
  closes : sk.closes = 0
  rqueue : sk.rqueue = []
  sent : sk.sent = []

end LinuxKernel.Tcp
