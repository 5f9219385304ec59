import Mathlib.Tactic

/-!
# Socket buffers and what they are charged to

`alloc_skb`, `kfree_skb` and the locks that devices hold (`net/inet/skbuff.c`), the
allocation functions of `sock.c`, and the queue of `arp.c` on which buffers wait for an
address.  A buffer is its number in the order of allocation; freed memory is not used again.

The functions of `sock.c` return a buffer without an owner, and the protocol that asked for
it writes the owner into it before anyone else sees it; here this is part of the allocation.
A received buffer is charged when a protocol takes it (`udp_rcv` and its like).

`charged` and `frees` are no fields of the kernel: they record to whom the memory was charged
and how often it was given back.  The counters are integers: the buffers that they count are
in memory together, so that no sum of them reaches `2 ^ 32`.
-/

namespace LinuxKernel.Skb

def ARP_MAX_TRIES : BitVec 8 := 3

inductive Rw where
  | read
  | write
  deriving DecidableEq

/-- `struct sk_buff`; `good` says that `magic_debug_cookie` is `SK_GOOD_SKB`. -/
structure SkBuff where
  good : Bool
  sk : Option ℕ
  memLen : ℕ
  free : ℕ
  lock : BitVec 8
  tries : BitVec 8
  arp : Bool
  charged : Option (ℕ × Rw)
  frees : ℕ
  deriving DecidableEq

structure Sock where
  wmemAlloc : ℤ
  rmemAlloc : ℤ
  sndbuf : ℕ
  rcvbuf : ℕ
  sendShutdown : Bool
  inet : Bool

/-- `working` holds the lists that the running calls of `arp_send_q` have taken off the
queue, the innermost call first. -/
structure Net where
  bufs : List SkBuff
  socks : ℕ → Sock
  netMemory : ℤ
  netSkbcount : ℤ
  arpQ : List ℕ
  working : List (List ℕ)

def Net.setBuf (n : Net) (skb : ℕ) (f : SkBuff → SkBuff) : Net :=
  { n with bufs := n.bufs.modify skb f }

def Net.setSock (n : Net) (sk : ℕ) (f : Sock → Sock) : Net :=
  { n with socks := Function.update n.socks sk (f (n.socks sk)) }

def Net.queued (n : Net) : List ℕ := n.arpQ ++ n.working.flatten

/-! ## Allocation -/

def Net.allocSkb (n : Net) (size : ℕ) (charged : Option (ℕ × Rw)) : Net :=
  let skb : SkBuff :=
    { good := true, sk := charged.map Prod.fst, memLen := size, free := 2, lock := 0,
      tries := 0, arp := false, charged := charged, frees := 0 }
  { n with
    bufs := n.bufs ++ [skb], netMemory := n.netMemory + size,
    netSkbcount := n.netSkbcount + 1 }

def Sock.charge (s : Sock) (rw : Rw) (size : ℤ) : Sock :=
  match rw with
  | .read => { s with rmemAlloc := s.rmemAlloc + size }
  | .write => { s with wmemAlloc := s.wmemAlloc + size }

def Sock.room (s : Sock) (rw : Rw) (size : ℕ) : Bool :=
  match rw with
  | .read => s.rmemAlloc + size < s.rcvbuf
  | .write => s.wmemAlloc + size < s.sndbuf

/-- `sock_wmalloc` and `sock_rmalloc`, which differ in the counter and the limit only;
`memory` says that `kmalloc` succeeds. -/
def Net.sockMalloc (n : Net) (rw : Rw) (sk : Option ℕ) (size : ℕ) (force memory : Bool) : Net :=
  match sk with
  | none => if memory then n.allocSkb size none else n
  | some sk =>
    if (n.socks sk).room rw size || force then
      if memory then (n.allocSkb size (some (sk, rw))).setSock sk (·.charge rw size) else n
    else n

def Net.sockWmalloc (n : Net) := n.sockMalloc .write

def Net.sockRmalloc (n : Net) := n.sockMalloc .read

def Net.take (n : Net) (skb sk : ℕ) : Net :=
  match n.bufs[skb]? with
  | none => n
  | some b =>
    (n.setBuf skb fun b => { b with sk := some sk, charged := some (sk, .read) }).setSock sk
      (·.charge .read b.memLen)

def Net.sockWspace (n : Net) (sk : ℕ) : ℤ :=
  let s := n.socks sk
  if s.sendShutdown then 0
  else if s.wmemAlloc ≥ s.sndbuf then 0
  else s.sndbuf - s.wmemAlloc

/-! ## Freeing -/

def Net.kfreeSkbmem (n : Net) (mem : ℕ) (size : ℕ) : Net :=
  match n.bufs[mem]? with
  | none => n
  | some x =>
    if x.good then
      let n := n.setBuf mem fun x => { x with good := false, frees := x.frees + 1 }
      { n with netSkbcount := n.netSkbcount - 1, netMemory := n.netMemory - size }
    else n

/-- `sock_wfree` and `sock_rfree` give back to one counter or the other. -/
def Net.sockFree (n : Net) (rw : Rw) (sk mem size : ℕ) : Net :=
  let n := n.kfreeSkbmem mem size
  n.setSock sk (·.charge rw (-size))

def Net.sockWfree (n : Net) := n.sockFree .write

def Net.sockRfree (n : Net) := n.sockFree .read

def Net.kfreeSkb (n : Net) (skb : ℕ) (rw : Rw) : Net :=
  match n.bufs[skb]? with
  | none => n
  | some b =>
    if b.lock ≠ 0 then n.setBuf skb fun b => { b with free := 1 }
    else
      match b.sk with
      | none => n.kfreeSkbmem skb b.memLen
      | some sk =>
        if (n.socks sk).inet then
          match rw with
          | .read => n.sockRfree sk skb b.memLen
          | .write => n.sockWfree sk skb b.memLen
        else
          let n := n.setSock sk (·.charge rw (-b.memLen))
          n.kfreeSkbmem skb b.memLen

def Net.skbKeptByDevice (n : Net) (skb : ℕ) : Net :=
  n.setBuf skb fun b => { b with lock := b.lock + 1 }

def Net.skbDeviceRelease (n : Net) (skb : ℕ) (mode : Rw) : Net :=
  let n := n.setBuf skb fun b => { b with lock := b.lock - 1 }
  match n.bufs[skb]? with
  | none => n
  | some b => if b.lock = 0 ∧ b.free = 1 then n.kfreeSkb skb mode else n

/-- `arp_queue`.  `linked` says that the buffer is on a queue of some other part of the
kernel. -/
def Net.arpQueue (n : Net) (skb : ℕ) (linked : Bool) : Net :=
  let n := n.setBuf skb fun b => { b with tries := ARP_MAX_TRIES }
  if linked || skb ∈ n.queued then n else { n with arpQ := n.arpQ ++ [skb] }

def Net.arpSendStart (n : Net) : Net := { n with arpQ := [], working := n.arpQ :: n.working }

/-- One turn of the loop of the innermost call of `arp_send_q`; `built` is what
`rebuild_header` says.  A buffer that is sent goes to the driver. -/
def Net.arpSendTurn (n : Net) (built : Bool) : Net :=
  match n.working with
  | [] => n
  | [] :: outer => { n with working := outer }
  | (skb :: workQ) :: outer =>
    let n := { n with working := workQ :: outer }
    let n := n.setBuf skb fun b => { b with tries := b.tries - 1 }
    match n.bufs[skb]? with
    | none => n
    | some b =>
      if b.tries = 0 then
        let n := n.setBuf skb fun b => { b with sk := none }
        if b.free ≠ 0 then n.kfreeSkb skb .write else n
      else if b.arp || built then n.setBuf skb fun b => { b with arp := true }
      else { n with arpQ := skb :: n.arpQ }

inductive Event where
  | wmalloc (sk : Option ℕ) (size : ℕ) (force memory : Bool)
  | rmalloc (sk : Option ℕ) (size : ℕ) (force memory : Bool)
  | take (skb sk : ℕ)
  | setFree (skb free : ℕ)
  | kfreeSkb (skb : ℕ) (rw : Rw)
  | keep (skb : ℕ)
  | release (skb : ℕ) (mode : Rw)
  | arpQueue (skb : ℕ) (linked : Bool)
  | arpSendStart
  | arpSendTurn (built : Bool)

def step (n : Net) : Event → Net
  | .wmalloc sk size force memory => n.sockWmalloc sk size force memory
  | .rmalloc sk size force memory => n.sockRmalloc sk size force memory
  | .take skb sk => n.take skb sk
  | .setFree skb free => n.setBuf skb fun b => { b with free := free }
  | .kfreeSkb skb rw => n.kfreeSkb skb rw
  | .keep skb => n.skbKeptByDevice skb
  | .release skb mode => n.skbDeviceRelease skb mode
  | .arpQueue skb linked => n.arpQueue skb linked
  | .arpSendStart => n.arpSendStart
  | .arpSendTurn built => n.arpSendTurn built

def run (n : Net) (es : List Event) : Net := es.foldl step n

def boot (socks : ℕ → Sock) : Net :=
  { bufs := [], socks := fun sk => { socks sk with wmemAlloc := 0, rmemAlloc := 0 },
    netMemory := 0, netSkbcount := 0, arpQ := [], working := [] }

end LinuxKernel.Skb
