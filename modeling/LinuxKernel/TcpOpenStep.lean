import LinuxKernel.TcpTaken

/-!
# Steps of a socket that is open for receiving

A step gives a segment to `tcp_data`, or it leaves `acked_seq` where it is and takes from the queue
only what the reader is done with.
-/

namespace LinuxKernel.Tcp
open List

/-- The socket and the answer of `tcp_ack`, for a segment that is charged to the socket. -/
def Sock.ackedBy (sk : Sock) (th : Segment) (sentSeq : Option Seq) (b : Buff) : Sock × Bool :=
  let charged : Sock := { sk with rmemAlloc := sk.rmemAlloc + th.memLen }
  if th.ack then charged.tcpAck th sentSeq b else (charged, true)

def Sock.forData (sk : Sock) (th : Segment) (sentSeq : Option Seq) (b : Buff) : Sock :=
  (sk.ackedBy th sentSeq b).1.tcpUrg th

/-- `tcp_sequence` accepts the segment, and `tcp_data` gets it with something to put on the
queue. -/
structure Sock.Gives (sk : Sock) (th : Segment) (sentSeq : Option Seq) (b : Buff) : Prop where
  zapped : sk.zapped = false
  room : sk.rmemAlloc + th.memLen < sk.rcvbuf
  state : sk.state ≠ .close
  acceptable : sk.acceptable th = true
  rst : th.rst = false
  syn : th.syn = false
  acked : (sk.ackedBy th sentSeq b).2 = true
  nonempty : ¬(th.data = [] ∧ th.fin = false ∧ th.urg = false ∧ th.psh = false)

instance (sk : Sock) (th : Segment) (sentSeq : Option Seq) (b : Buff) :
    Decidable (sk.Gives th sentSeq b) :=
  decidable_of_iff (sk.zapped = false ∧ sk.rmemAlloc + th.memLen < sk.rcvbuf ∧
    sk.state ≠ .close ∧ sk.acceptable th = true ∧ th.rst = false ∧ th.syn = false ∧
    (sk.ackedBy th sentSeq b).2 = true ∧
    ¬(th.data = [] ∧ th.fin = false ∧ th.urg = false ∧ th.psh = false))
    ⟨fun ⟨h1, h2, h3, h4, h5, h6, h7, h8⟩ => ⟨h1, h2, h3, h4, h5, h6, h7, h8⟩,
      fun ⟨h1, h2, h3, h4, h5, h6, h7, h8⟩ => ⟨h1, h2, h3, h4, h5, h6, h7, h8⟩⟩

def Sock.given (sk : Sock) : Event → Option Segment
  | .rcv th sentSeq b _ => if sk.Gives th sentSeq b then some th else none
  | _ => none

/-- The socket is shut down for receiving when `tcp_data` gets the segment, or at the end of a step
without one. -/
def Sock.shutFor (sk : Sock) : Event → Bool
  | .rcv th sentSeq b b' =>
    if sk.Gives th sentSeq b then (sk.forData th sentSeq b).rcvShutdown
    else (sk.tcpRcv th sentSeq b b').rcvShutdown
  | e => (sk.step e).rcvShutdown

def Sock.RunOpen (sk : Sock) : List Event → Prop
  | [] => True
  | e :: es => sk.shutFor e = false ∧ (sk.step e).RunOpen es

def Sock.Lacks (sk : Sock) : Event → Prop
  | .rcv th sentSeq b _ => (sk.forData th sentSeq b).Short th
  | _ => False

section steps

variable {sk sk' : Sock} {th : Segment} {o : Prop}

section
variable (sk : Sock)

theorem Sock.front_tcpUrg (th : Segment) : (sk.tcpUrg th).front = sk.front := by
  have hcore := (core_tcpUrg sk th).1
  unfold Sock.core at hcore
  simp only [Prod.mk.injEq] at hcore
  unfold Sock.front
  rw [hcore.2.2.1, hcore.2.2.2.2.2.2.2]

theorem Sock.front_tcpAck (th : Segment) (sentSeq : Option Seq) (b : Buff) :
    (sk.tcpAck th sentSeq b).1.front = sk.front := by
  have hsent : ∀ sk' : Sock,
      ({ (sk'.tcpSendAck b).shutdownAll with state := .close } : Sock).front = sk'.front :=
    fun sk' => sk'.front_tcpSendAck b
  unfold Sock.tcpAck
  dsimp only
  split
  · rfl
  · generalize hsk : (if sk.maxWindow < th.window.toNat then
      { sk with maxWindow := th.window.toNat, mss := min th.window.toNat sk.mtu } else sk) = sk1
    have h1 : sk1.front = sk.front := by
      rw [← hsk]
      split <;> rfl
    rw [← h1]
    split
    · split <;> rfl
    · generalize hsk : (if sk1.state = .timeWait ∧ th.ackSeq = sk1.writeSeq ∧
          sk1.ackedSeq = sk1.finSeq then _ else _ : Sock) = sk2
      have h2 : sk2.front = sk1.front := by
        rw [← hsk]
        split <;> rfl
      rw [← h2]
      split
      · split
        · rfl
        · exact hsent sk2
      · rfl

theorem Sock.front_tcpFin (th : Segment) : (sk.tcpFin th).front = sk.front := by
  unfold Sock.tcpFin
  split <;> rfl

theorem Sock.front_tcpReadWakeup (b : Buff) : (sk.tcpReadWakeup b).front = sk.front := by
  unfold Sock.tcpReadWakeup
  split
  · rfl
  · cases b <;> rfl

theorem Sock.front_tcpWriteWakeup (b : Buff) : (sk.tcpWriteWakeup b).front = sk.front := by
  unfold Sock.tcpWriteWakeup
  split_ifs
  · rfl
  · rfl
  · cases b <;> rfl

theorem Sock.front_ackedBy (th : Segment) (sentSeq : Option Seq) (b : Buff) :
    (sk.ackedBy th sentSeq b).1.front = sk.front := by
  unfold Sock.ackedBy
  split
  · exact Sock.front_tcpAck ..
  · rfl

end

/-- `acked_seq` stays, and buffers leave the queue at most at its front; with `o` they are
acknowledged. -/
structure Stays (o : Prop) (sk sk' : Sock) : Prop where
  acked : sk'.ackedSeq = sk.ackedSeq
  queue : ∃ l, sk.rqueue.map Skb.unmark = l ++ sk'.rqueue.map Skb.unmark ∧
    (o → ∀ q ∈ l, q.acked = true)

theorem Stays.same_buffers (hacked : sk'.ackedSeq = sk.ackedSeq)
    (hqueue : sk'.rqueue.map Skb.unmark = sk.rqueue.map Skb.unmark) : Stays o sk sk' :=
  ⟨hacked, [], by rw [hqueue]; rfl, fun _ q hq => absurd hq not_mem_nil⟩

theorem Stays.of_front (h : sk'.front = sk.front) : Stays o sk sk' := by
  unfold Sock.front at h
  rw [Prod.mk.injEq] at h
  exact Stays.same_buffers h.1 (by rw [h.2])

theorem Stays.trans {sk'' : Sock} (h : Stays o sk sk') (h' : Stays o sk' sk'') :
    Stays o sk sk'' := by
  obtain ⟨l, hl, hacked⟩ := h.queue
  obtain ⟨l', hl', hacked'⟩ := h'.queue
  refine ⟨h'.acked.trans h.acked, l ++ l', by rw [hl, hl', append_assoc], ?_⟩
  intro ho q hq
  rcases mem_append.mp hq with hq | hq
  · exact hacked ho q hq
  · exact hacked' ho q hq

theorem Stays.tcpRcv (sk : Sock) (th : Segment) (sentSeq : Option Seq) (b b' : Buff)
    (hnone : ¬sk.Gives th sentSeq b) :
    Stays o sk (sk.tcpRcv th sentSeq b b') := by
  unfold Sock.tcpRcv
  split_ifs with hzapped hroom
  · exact Stays.of_front rfl
  · exact Stays.of_front rfl
  unfold Sock.tcpRcvState
  split_ifs with hclose hlast haccept hrst hwait hsyn
  · exact Stays.of_front rfl
  · exact Stays.of_front rfl
  · apply Stays.of_front
    unfold Sock.refuse
    split
    · rfl
    · exact Sock.front_tcpSendAck ..
  · exact Stays.of_front rfl
  · exact Stays.of_front rfl
  · exact Stays.of_front rfl
  -- All tests before `tcp_ack` are passed.
  have hrefused : (sk.ackedBy th sentSeq b).2 = false ∨
      (th.data = [] ∧ th.fin = false ∧ th.urg = false ∧ th.psh = false) := by
    by_contra hgiven
    rw [not_or, Bool.not_eq_false] at hgiven
    rw [Bool.not_eq_true] at hzapped hrst hsyn
    rw [Bool.not_eq_false] at haccept
    exact hnone ⟨hzapped, by omega, hclose, haccept, hrst, hsyn, hgiven.1, hgiven.2⟩
  have hfront := sk.front_ackedBy th sentSeq b
  have hurg := (sk.ackedBy th sentSeq b).1.front_tcpUrg th
  have hacked : (if th.ack then ({ sk with rmemAlloc := sk.rmemAlloc + th.memLen } : Sock).tcpAck
      th sentSeq b else ({ sk with rmemAlloc := sk.rmemAlloc + th.memLen }, true)) =
        sk.ackedBy th sentSeq b := rfl
  unfold Sock.tcpRcvData
  dsimp only
  rw [hacked]
  apply Stays.of_front
  rw [← hfront]
  split_ifs with hno hfin
  · rfl
  · rcases hrefused with hrefused | ⟨-, hfin', -⟩
    · exact absurd hrefused hno
    · rw [hfin] at hfin'
      exact absurd hfin' Bool.noConfusion
  · rcases hrefused with hrefused | hempty
    · exact absurd hrefused hno
    · unfold Sock.tcpData
      rw [if_pos hempty, ← hurg]
      split
      · rfl
      · exact Sock.front_tcpSendAck ..

theorem Sock.front_readNothing (sk : Sock) (nonblock : Bool) :
    (sk.readNothing nonblock).1.front = sk.front := by
  unfold Sock.readNothing
  split_ifs <;> rfl

theorem Stays.readFrom (peek : Bool) (seq : Seq) {passed rest : List Skb} {skb : Skb}
    (hqueue : (passed ++ skb :: rest).map Skb.unmark = sk.rqueue.map Skb.unmark) (len : ℕ) :
    Stays o sk (sk.readFrom peek seq passed skb rest len) := by
  refine Stays.same_buffers rfl ?_
  rw [← hqueue]
  unfold Sock.readFrom
  rw [map_append, map_append]
  rfl

theorem Stays.tcpReadLoop (peek nonblock : Bool) (fuel len : ℕ) (peekSeq : Seq)
    (out : List UInt8) (sk : Sock) :
    Stays o sk (sk.tcpReadLoop peek nonblock fuel len peekSeq out).1 := by
  induction fuel generalizing sk len peekSeq out with
  | zero => exact Stays.of_front rfl
  | succ fuel ih =>
    unfold Sock.tcpReadLoop
    dsimp only
    generalize (if peek then peekSeq else sk.copiedSeq) = seq
    have hscan := scan_unmark peek seq sk.rqueue
    split
    · exact Stays.of_front rfl
    split
    · exact Stays.of_front rfl
    split
    · next hrest =>
      rw [hrest, append_nil] at hscan
      have hpassed : Stays o sk { sk with rqueue := (scan peek seq sk.rqueue).1 } :=
        Stays.same_buffers rfl hscan
      split
      · exact hpassed
      · exact hpassed.trans (Stays.of_front (Sock.front_readNothing _ nonblock))
    · next skb rest hrest =>
      rw [hrest] at hscan
      have hpassed : Stays o sk
          { sk with rqueue := (scan peek seq sk.rqueue).1 ++ skb :: rest } :=
        Stays.same_buffers rfl hscan
      split
      · split
        · exact hpassed
        · exact hpassed.trans (Stays.of_front (Sock.front_readNothing _ nonblock))
      · exact (Stays.readFrom peek seq hscan len).trans (ih ..)

theorem Stays.cleanupRbuf {x : ℕ} (h : Kept False sk x) (hopen : o → sk.rcvShutdown = false)
    (b : Buff) : Stays o sk (sk.cleanupRbuf b) := by
  have hfreed : Stays o sk { sk with
      rqueue := sk.rqueue.dropWhile (·.used)
      rmemAlloc := sk.rmemAlloc - ((sk.rqueue.takeWhile (·.used)).map (·.th.memLen)).sum } := by
    refine ⟨rfl, (sk.rqueue.takeWhile (·.used)).map Skb.unmark, ?_, ?_⟩
    · rw [← map_append, takeWhile_append_dropWhile]
    · intro ho q hq
      obtain ⟨p, hp, rfl⟩ := mem_map.mp hq
      have hused := all_eq_true.mp all_takeWhile p hp
      have hok := h.queue (hopen ho)
      have hmem := (takeWhile_sublist _).subset hp
      have hread := hok.used p hmem hused
      have hcopied := hok.copied
      exact hok.acks p hmem (by omega)
  unfold Sock.cleanupRbuf
  dsimp only
  split_ifs
  · exact hfreed
  · exact hfreed.trans (Stays.of_front (Sock.front_tcpReadWakeup _ b))
  · exact ⟨hfreed.acked, hfreed.queue⟩

theorem Sock.rcvShutdown_cleanupRbuf (sk : Sock) (b : Buff) :
    (sk.cleanupRbuf b).rcvShutdown = sk.rcvShutdown := by
  have hwakeup : ∀ sk' : Sock, (sk'.tcpReadWakeup b).rcvShutdown = sk'.rcvShutdown := by
    intro sk'
    unfold Sock.tcpReadWakeup
    split
    · rfl
    · cases b <;> rfl
  unfold Sock.cleanupRbuf
  dsimp only
  split_ifs
  · rfl
  · exact hwakeup _
  · rfl

theorem Stays.tcpRead {x : ℕ} (h : Kept False sk x) (peek : Option Seq) (len : ℕ)
    (nonblock : Bool) (b : Buff)
    (hopen : o → (sk.tcpRead peek len nonblock b).1.rcvShutdown = false) :
    Stays o sk (sk.tcpRead peek len nonblock b).1 := by
  unfold Sock.tcpRead at hopen ⊢
  split_ifs at hopen ⊢
  · exact Stays.of_front rfl
  · refine (Stays.tcpReadLoop ..).trans (Stays.cleanupRbuf
      (h.tcpReadLoop peek.isSome nonblock (2 * len)) ?_ b)
    intro ho
    exact (Sock.rcvShutdown_cleanupRbuf _ b).symm.trans (hopen ho)

theorem Sock.tcpClose_frame (sk : Sock) (timeout : Bool) (b : Buff) (direct : Bool) :
    (sk.tcpClose timeout b direct).front = (sk.ackedSeq, []) ∧
      (sk.tcpClose timeout b direct).rcvShutdown = true := by
  have hflush : sk.flush.front = (sk.ackedSeq, []) ∧ sk.flush.rcvShutdown = true := ⟨rfl, rfl⟩
  unfold Sock.tcpClose
  dsimp only
  split
  · split_ifs
    · exact ⟨hflush.1, rfl⟩
    · exact hflush
  · split_ifs
    · exact ⟨hflush.1, rfl⟩
    · exact hflush
  · split_ifs
    · exact ⟨hflush.1, rfl⟩
    · exact hflush
  · split_ifs
    · exact hflush
    · exact hflush
  · exact hflush
  · cases b <;> exact hflush
  · cases b <;> exact hflush

theorem Stays.step (h : Kept False sk 0) (e : Event) (hnone : sk.given e = none) :
    Stays ((sk.step e).rcvShutdown = false) sk (sk.step e) := by
  cases e with
  | rcv th sentSeq b b' =>
    apply Stays.tcpRcv
    intro hgives
    unfold Sock.given at hnone
    dsimp only at hnone
    rw [if_pos hgives] at hnone
    exact Option.some_ne_none _ hnone
  | read len nonblock b => exact Stays.tcpRead h _ _ _ _ id
  | peek seq len nonblock b => exact Stays.tcpRead h _ _ _ _ id
  | interrupted b =>
    refine Stays.cleanupRbuf h ?_ b
    intro hopen
    exact (Sock.rcvShutdown_cleanupRbuf sk b).symm.trans hopen
  | readUrg peek nonblock =>
    apply Stays.of_front
    change (sk.tcpReadUrg peek nonblock).1.front = sk.front
    unfold Sock.tcpReadUrg
    split
    · rfl
    · rfl
    · split_ifs <;> rfl
    · split_ifs <;> rfl
  | readWakeup b => exact Stays.of_front (Sock.front_tcpReadWakeup ..)
  | shutdown rcv send =>
    apply Stays.of_front
    change (sk.inetShutdown rcv send).front = sk.front
    unfold Sock.inetShutdown
    split_ifs <;> rfl
  | shutdownFin b direct =>
    apply Stays.of_front
    change (sk.tcpShutdown b direct).front = sk.front
    unfold Sock.tcpShutdown
    split
    · rfl
    · cases b <;> rfl
  | close timeout b direct =>
    obtain ⟨hfront, hshut⟩ := sk.tcpClose_frame timeout b direct
    unfold Sock.front at hfront
    rw [Prod.mk.injEq] at hfront
    refine ⟨hfront.1, sk.rqueue.map Skb.unmark, ?_, ?_⟩
    · change _ = _ ++ (sk.tcpClose timeout b direct).rqueue.map Skb.unmark
      rw [hfront.2]
      exact (append_nil _).symm
    · intro hopen
      change (sk.tcpClose timeout b direct).rcvShutdown = false at hopen
      rw [hshut] at hopen
      exact absurd hopen Bool.noConfusion
  | closeLater =>
    apply Stays.of_front
    change sk.tcpCloseLater.front = sk.front
    unfold Sock.tcpCloseLater
    split <;> rfl
  | writeWakeup b => exact Stays.of_front (Sock.front_tcpWriteWakeup ..)
  | write copy => exact Stays.of_front rfl
  | transmit sentSeq => exact Stays.of_front rfl
  | timeClose => exact Stays.of_front rfl
  | timedOut => exact Stays.of_front rfl
  | accept => exact Stays.of_front rfl
  | setErr err => exact Stays.of_front rfl
  | setRcvbuf val => exact Stays.of_front rfl
  | setUrginline urginline => exact Stays.of_front rfl

theorem Sock.Gives.tcpRcv_front {sentSeq : Option Seq} {b : Buff} (h : sk.Gives th sentSeq b)
    (b' : Buff) :
    (sk.tcpRcv th sentSeq b b').front = ((sk.forData th sentSeq b).tcpData th b').front := by
  have hroom := h.room
  have hzapped : ¬sk.zapped = true := by simp [h.zapped]
  have hrst : ¬th.rst = true := by simp [h.rst]
  have hsyn : ¬th.syn = true := by simp [h.syn]
  have haccept : ¬({ sk with rmemAlloc := sk.rmemAlloc + th.memLen } : Sock).acceptable th =
      false := by
    change ¬sk.acceptable th = false
    simp [h.acceptable]
  have hacked : ¬(sk.ackedBy th sentSeq b).2 = false := by simp [h.acked]
  have hdata : sk.tcpRcv th sentSeq b b' =
      ({ sk with rmemAlloc := sk.rmemAlloc + th.memLen } : Sock).tcpRcvData th sentSeq b b' := by
    unfold Sock.tcpRcv
    rw [if_neg hzapped, if_neg (by omega)]
    unfold Sock.tcpRcvState
    rw [if_neg h.state, if_neg fun h => hrst h.2, if_neg haccept, if_neg hrst, if_neg hsyn]
  rw [hdata]
  unfold Sock.tcpRcvData
  change (if (sk.ackedBy th sentSeq b).2 = false then _ else _ : Sock).front = _
  rw [if_neg hacked]
  dsimp only
  split
  · exact Sock.front_tcpFin ..
  · rfl

theorem Sock.Gives.taken {sentSeq : Option Seq} {b : Buff} (hgives : sk.Gives th sentSeq b)
    (h : Kept False sk 0) (hopen : (sk.forData th sentSeq b).rcvShutdown = false) (b' : Buff) :
    ∃ d lost, Taken sk.ackedSeq sk.rqueue (sk.tcpRcv th sentSeq b b').rqueue th d lost
        ((sk.forData th sentSeq b).Short th) ∧
      (sk.tcpRcv th sentSeq b b').ackedSeq = sk.ackedSeq + BitVec.ofNat 32 d := by
  have hfront := hgives.tcpRcv_front b'
  have hroom := hgives.room
  have haccept := hgives.acceptable
  have hrcvbuf := h.rcvbuf
  have hmemory := h.memory
  have hspan := th.span_le
  have hcharged : Before False th.memLen { sk with rmemAlloc := sk.rmemAlloc + th.memLen }
      { sk with rmemAlloc := sk.rmemAlloc + th.memLen } := by
    refine ⟨⟨⟨h.window, hrcvbuf, ?_, ?_, h.queue⟩, False.elim, False.elim⟩, False.elim,
      ⟨rfl, Nat.le_refl _⟩⟩
    · change sk.rmemAlloc + th.memLen = (sk.rqueue.map (·.th.memLen)).sum + sk.request + th.memLen
      omega
    · change sk.rmemAlloc + th.memLen ≤ 32767
      omega
  have hbefore : Before False th.memLen { sk with rmemAlloc := sk.rmemAlloc + th.memLen }
      (sk.forData th sentSeq b) := by
    unfold Sock.forData Sock.ackedBy
    split
    · exact (hcharged.tcpAck th sentSeq b).tcpUrg th
    · exact hcharged.tcpUrg th
  rw [Sock.acceptable_iff h.window (by omega)] at haccept
  have hfits := hbefore.holds.fits ⟨haccept.1, haccept.2.1, haccept.2.2⟩
  have hfront' : (sk.forData th sentSeq b).front = sk.front := by
    unfold Sock.forData
    rw [Sock.front_tcpUrg, Sock.front_ackedBy]
  generalize sk.forData th sentSeq b = sk1 at *
  unfold Sock.front at hfront'
  rw [Prod.mk.injEq] at hfront'
  have hcounted : Kept False
      { sk1 with bytesRcv := (sk1.bytesRcv + th.data.length) % 65536 } th.memLen :=
    hbefore.kept.frame rfl id
  obtain ⟨d, lost, htaken, hacked⟩ := Sock.tcpDataQueue_taken hcounted hopen hgives.syn
    ⟨hfits.nonzero, hfits.reaches, hfits.starts⟩ b'
  have hqueued : sk1.tcpData th b' =
      ({ sk1 with bytesRcv := (sk1.bytesRcv + th.data.length) % 65536 } : Sock).tcpDataQueue th
        b' := by
    unfold Sock.tcpData
    rw [if_neg hgives.nonempty, hopen]
    rfl
  rw [← hqueued, ← hfront] at htaken hacked
  refine ⟨d, lost, ?_, ?_⟩
  · rw [← hfront'.1, ← hfront'.2]
    exact htaken
  · rw [← hfront'.1]
    exact hacked

theorem Sock.step_open {e : Event} (hk : Kept False sk 0) (hopen : sk.shutFor e = false) :
    (∃ th d lost, sk.given e = some th ∧
      Taken sk.ackedSeq sk.rqueue (sk.step e).rqueue th d lost (sk.Lacks e) ∧
      (sk.step e).ackedSeq = sk.ackedSeq + BitVec.ofNat 32 d) ∨
    (sk.given e = none ∧ Stays True sk (sk.step e) ∧
      Settled (sk.step e).ackedSeq (sk.step e).rqueue) := by
  have hother : sk.given e = none → (sk.step e).rcvShutdown = false →
      sk.given e = none ∧ Stays True sk (sk.step e) ∧
        Settled (sk.step e).ackedSeq (sk.step e).rqueue := by
    intro hnone hstep
    have hnext := hk.step e False.elim
    have hstays := Stays.step hk e hnone
    obtain ⟨l, hl, hacked⟩ := hstays.queue
    exact ⟨hnone, ⟨hstays.acked, l, hl, fun _ => hacked hstep⟩,
      (hnext.queue hstep).settled hnext.window⟩
  cases e with
  | rcv th sentSeq b b' =>
    unfold Sock.shutFor at hopen
    dsimp only at hopen
    by_cases hgives : sk.Gives th sentSeq b
    · rw [if_pos hgives] at hopen
      obtain ⟨d, lost, htaken, hacked⟩ := hgives.taken hk hopen b'
      exact .inl ⟨th, d, lost, if_pos hgives, htaken, hacked⟩
    · rw [if_neg hgives] at hopen
      exact .inr (hother (if_neg hgives) hopen)
  | read len nonblock b => exact .inr (hother rfl hopen)
  | peek seq len nonblock b => exact .inr (hother rfl hopen)
  | interrupted b => exact .inr (hother rfl hopen)
  | readUrg peek nonblock => exact .inr (hother rfl hopen)
  | readWakeup b => exact .inr (hother rfl hopen)
  | write copy => exact .inr (hother rfl hopen)
  | transmit sentSeq => exact .inr (hother rfl hopen)
  | shutdown rcv send => exact .inr (hother rfl hopen)
  | shutdownFin b direct => exact .inr (hother rfl hopen)
  | close timeout b direct => exact .inr (hother rfl hopen)
  | closeLater => exact .inr (hother rfl hopen)
  | writeWakeup b => exact .inr (hother rfl hopen)
  | timeClose => exact .inr (hother rfl hopen)
  | timedOut => exact .inr (hother rfl hopen)
  | accept => exact .inr (hother rfl hopen)
  | setErr err => exact .inr (hother rfl hopen)
  | setRcvbuf val => exact .inr (hother rfl hopen)
  | setUrginline urginline => exact .inr (hother rfl hopen)

end steps

end LinuxKernel.Tcp
