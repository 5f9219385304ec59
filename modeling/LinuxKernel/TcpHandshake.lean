import LinuxKernel.TcpReceiveModel

/-!
# A TCP connection before it is synchronized

`tcp_rcv` in `TCP_SYN_SENT` and `TCP_SYN_RECV`.  The segment that ends the handshake may carry
urgent data, data and a FIN like any other; it may be the one with the SYN.
-/

namespace LinuxKernel.Tcp

def econnrefused : ℤ := 111

inductive Handshake where
  | synSent
  | synRecv
  deriving DecidableEq

inductive Conn where
  | handshake (state : Handshake) (sk : Sock)
  | synchronized (sk : Sock)

def Conn.sock : Conn → Sock
  | .handshake _ sk => sk
  | .synchronized sk => sk

def Sock.tcpAckHandshake (sk : Sock) (th : Segment) (sentSeq : Option Seq) : Sock × Bool :=
  let sk : Sock :=
    if sk.maxWindow < th.window.toNat then
      { sk with maxWindow := th.window.toNat, mss := min th.window.toNat sk.mtu }
    else sk
  if Seq.after th.ackSeq (sk.sentSeq + 1) ∨ Seq.before th.ackSeq (sk.rcvAckSeq - 1) then
    (sk, false)
  else ({ sk with rcvAckSeq := th.ackSeq, sentSeq := sentSeq.getD sk.sentSeq }, true)

/-- What `tcp_rcv` does when the handshake is over; `mtu` and `mss` are what `tcp_options`
leaves. -/
def Sock.establish (sk : Sock) (mtu mss : ℕ) : Sock :=
  let sk : Sock :=
    { sk with state := .established, mtu := mtu, mss := mss, copiedSeq := sk.ackedSeq - 1 }
  if sk.maxWindow = 0 then { sk with maxWindow := 32, mss := min 32 mtu } else sk

def Sock.tcpRcvSynRecv (sk : Sock) (state : Handshake) (th : Segment) (sentSeq : Option Seq)
    (mtu mss : ℕ) (b : Buff) : Conn :=
  let acked := sk.tcpAckHandshake th sentSeq
  if acked.2 = false then .handshake state (acked.1.rfree th.memLen)
  else
    let sk : Sock := acked.1.establish mtu mss
    let sk : Sock := if th.urg then sk.tcpUrg th else sk
    let sk : Sock := sk.tcpData th b
    .synchronized (if th.fin then sk.tcpFin th else sk)

/-- `tcp_rcv` during the handshake for a segment that is charged to the socket. -/
def Sock.tcpRcvHandshakeState (sk : Sock) (state : Handshake) (th : Segment)
    (sentSeq sentSeq' : Option Seq) (mtu mss : ℕ) (b b' : Buff) : Conn :=
  if state = .synRecv ∧ sk.acceptable th = false then
    .handshake state ((sk.refuse th b').rfree th.memLen)
  else if th.rst then
    .synchronized { (sk.kill econnrefused).rfree th.memLen with zapped := true }
  else if th.ack = false then
    .handshake (if th.syn then .synRecv else state) (sk.rfree th.memLen)
  else
    match state with
    | .synSent =>
      let acked := sk.tcpAckHandshake th sentSeq
      if acked.2 = false ∨ th.syn = false then .handshake state (acked.1.rfree th.memLen)
      else
        let sk : Sock := { acked.1 with ackedSeq := th.seq + 1, finSeq := th.seq }
        (sk.tcpSendAck b).tcpRcvSynRecv state th sentSeq' mtu mss b'
    | .synRecv => sk.tcpRcvSynRecv state th sentSeq mtu mss b'

def Sock.tcpRcvHandshake (sk : Sock) (state : Handshake) (th : Segment)
    (sentSeq sentSeq' : Option Seq) (mtu mss : ℕ) (b b' : Buff) : Conn :=
  if sk.zapped then .handshake state sk
  else if sk.rcvbuf ≤ sk.rmemAlloc + th.memLen then .handshake state sk
  else
    { sk with rmemAlloc := sk.rmemAlloc + th.memLen }.tcpRcvHandshakeState state th
      sentSeq sentSeq' mtu mss b b'

/-- A segment of the handshake, or a step of a synchronized connection. -/
inductive ConnEvent where
  | handshake (th : Segment) (sentSeq sentSeq' : Option Seq) (mtu mss : ℕ) (b b' : Buff)
  | step (e : Event)

def Conn.step : Conn → ConnEvent → Conn
  | .handshake state sk, .handshake th sentSeq sentSeq' mtu mss b b' =>
    sk.tcpRcvHandshake state th sentSeq sentSeq' mtu mss b b'
  | .synchronized sk, .step e => .synchronized (sk.step e)
  | c, _ => c

def Conn.run (c : Conn) : List ConnEvent → Conn
  | [] => c
  | e :: es => (c.step e).run es

end LinuxKernel.Tcp
