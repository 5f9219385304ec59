import LinuxKernel.TcpReceiveData
import LinuxKernel.TcpReceiveRead

/-!
# What a connection keeps

`Inv` holds in every state of a connection.  `Kept` adds what was said about the window:
the right edge of the segments that went out never moved to the left, and the edge of
the socket is at the last one that was said, or beyond it with no window open.
-/

namespace LinuxKernel.Tcp
open List

def Advert.edge (e : Advert) : Seq := e.ackSeq + BitVec.ofNat 32 e.window

def Sock.edge (sk : Sock) : Seq := sk.ackedSeq + BitVec.ofNat 32 sk.window

def NeverShrinks (sent : List Advert) : Prop :=
  sent.IsChain fun new old => ¬Seq.before new.edge old.edge = true

structure Inv (sk : Sock) (x : ℕ) : Prop where
  window : sk.window < 65536
  rcvbuf : sk.rcvbuf ≤ 32767
  memory : sk.rmemAlloc = (sk.rqueue.map (·.th.memLen)).sum + sk.request + x
  room : sk.rmemAlloc ≤ 32767
  queue : sk.rcvShutdown = false → QueueOk sk.ackedSeq sk.copiedSeq sk.window sk.rqueue

structure Lag (e : Advert) (sk : Sock) : Prop where
  nonneg : 0 ≤ Seq.rel e.edge sk.edge
  le : Seq.rel e.edge sk.edge ≤ 1073840128
  open_rcv : sk.rcvShutdown = false →
    Seq.rel e.edge sk.edge = 0 ∨ sk.window = 0 ∧ Seq.rel e.edge sk.edge ≤ 32748

structure Kept (good : Prop) (sk : Sock) (x : ℕ) : Prop extends Inv sk x where
  never_shrinks : good → NeverShrinks sk.sent
  lag : good → ∀ e ∈ sk.sent.head?, Lag e sk

def Small (good : Prop) (sk : Sock) : Prop :=
  good → ∀ e ∈ sk.sent.head?, Seq.rel e.edge sk.edge < 1073741824

variable {e : Advert}

def Sock.view (sk : Sock) : Seq × Seq × ℕ × ℕ × ℕ × ℕ × List Skb × List Advert :=
  (sk.ackedSeq, sk.copiedSeq, sk.window, sk.rcvbuf, sk.rmemAlloc, sk.request, sk.rqueue, sk.sent)

section Frame

variable {good : Prop} {sk sk' : Sock} {x : ℕ}

theorem Lag.congr (h : Lag e sk) (hedge : sk'.edge = sk.edge)
    (hwindow : sk'.window = sk.window)
    (hshut : sk'.rcvShutdown = false → sk.rcvShutdown = false) : Lag e sk' := by
  refine ⟨?_, ?_, ?_⟩
  · rw [hedge]
    exact h.nonneg
  · rw [hedge]
    exact h.le
  · intro hfalse
    rw [hedge, hwindow]
    exact h.open_rcv (hshut hfalse)

theorem Kept.frame (h : Kept good sk x) (hview : sk'.view = sk.view)
    (hshut : sk'.rcvShutdown = false → sk.rcvShutdown = false) : Kept good sk' x := by
  have hfields := hview
  unfold Sock.view at hfields
  simp only [Prod.mk.injEq] at hfields
  obtain ⟨hacked, hcopied, hwindow, hrcvbuf, hrmem, hrequest, hrqueue, hsent⟩ := hfields
  refine ⟨⟨?_, ?_, ?_, ?_, ?_⟩, ?_, ?_⟩
  · rw [hwindow]
    exact h.window
  · rw [hrcvbuf]
    exact h.rcvbuf
  · rw [hrmem, hrqueue, hrequest]
    exact h.memory
  · rw [hrmem]
    exact h.room
  · intro hfalse
    rw [hacked, hcopied, hwindow, hrqueue]
    exact h.queue (hshut hfalse)
  · rw [hsent]
    exact h.never_shrinks
  · intro hgood e he
    rw [hsent] at he
    refine (h.lag hgood e he).congr ?_ hwindow hshut
    unfold Sock.edge
    rw [hacked, hwindow]

theorem Small.frame (h : Small good sk) (hedge : sk'.edge = sk.edge)
    (hsent : sk'.sent = sk.sent) : Small good sk' := by
  intro hgood e he
  rw [hsent] at he
  rw [hedge]
  exact h hgood e he

end Frame

/-! ### Segments that go out -/

theorem Sock.rspace_le (sk : Sock) : sk.rspace ≤ 4096 := by
  unfold Sock.rspace
  split_ifs
  · exact Nat.zero_le _
  · exact Nat.min_le_right _ _

theorem Sock.le_tcpSelectWindow (sk : Sock) : sk.window ≤ sk.tcpSelectWindow := by
  unfold Sock.tcpSelectWindow
  split_ifs with h
  · exact Nat.le_refl _
  · omega

theorem Sock.tcpSelectWindow_lt {sk : Sock} (h : sk.window < 65536) :
    sk.tcpSelectWindow < 65536 := by
  have hle := sk.rspace_le
  unfold Sock.tcpSelectWindow
  split_ifs
  · exact h
  · omega

variable {w : ℕ} {l : List Skb}

theorem QueueOk.mono {a c : Seq} {w' : ℕ} (h : QueueOk a c w l) (hle : w ≤ w') :
    QueueOk a c w' l := by
  refine ⟨⟨h.ends, h.sorted, h.acked_le, h.no_fin, ?_, h.behind, h.memory, h.copied, h.used,
    h.covered⟩, h.acks⟩
  intro q hq
  have := h.upper q hq
  omega

section Advertise

variable {good : Prop} {sk : Sock} {x : ℕ}

theorem Lag.rel_edge (h : Lag e sk) (hle : sk.window ≤ w)
    (hw : w < 65536) :
    Seq.rel e.edge (sk.ackedSeq + BitVec.ofNat 32 w) =
      Seq.rel e.edge sk.edge + ((w : ℤ) - sk.window) := by
  have hedge : sk.ackedSeq + BitVec.ofNat 32 w = sk.edge + Seq.ofInt ((w : ℤ) - sk.window) := by
    unfold Sock.edge
    rw [Seq.natCast_eq, Seq.natCast_eq, add_assoc, ← Seq.ofInt_add]
    congr 2
    omega
  have hlo := h.nonneg
  have hhi := h.le
  rw [hedge]
  apply Seq.rel_add_right <;> omega

section
variable (h : Kept good sk x)
include h

theorem Kept.never_shrinks_cons (hle : sk.window ≤ w) (hw : w < 65536) (hgood : good) :
    NeverShrinks (⟨sk.ackedSeq, w⟩ :: sk.sent) := by
  unfold NeverShrinks
  rw [isChain_cons]
  refine ⟨?_, h.never_shrinks hgood⟩
  intro e he
  have hlag := h.lag hgood e he
  rw [Seq.before_iff]
  change ¬Seq.rel e.edge (sk.ackedSeq + BitVec.ofNat 32 w) < 0
  rw [hlag.rel_edge hle hw]
  have := hlag.nonneg
  omega

omit h in
theorem lag_self {sk : Sock} (h : e.edge = sk.edge) : Lag e sk := by
  have hzero : Seq.rel e.edge sk.edge = 0 := by
    rw [h]
    exact Seq.rel_self _
  exact ⟨by omega, by omega, fun _ => .inl hzero⟩

theorem Kept.advertise : Kept good sk.advertise x := by
  have hle := sk.le_tcpSelectWindow
  have hlt := Sock.tcpSelectWindow_lt h.window
  refine ⟨⟨hlt, h.rcvbuf, h.memory, h.room, fun hfalse => (h.queue hfalse).mono hle⟩, ?_, ?_⟩
  · exact h.never_shrinks_cons hle hlt
  · intro _ e he
    change e ∈ some _ at he
    rw [Option.mem_some_iff] at he
    subst he
    exact lag_self rfl

omit h in
theorem small_advertise (good : Prop) (sk : Sock) : Small good sk.advertise := by
  intro _ e he
  change e ∈ some _ at he
  rw [Option.mem_some_iff] at he
  subst he
  have hzero := Seq.rel_self sk.advertise.edge
  change Seq.rel sk.advertise.edge sk.advertise.edge < _
  omega

theorem Kept.tcpSendAck (b : Buff) : Kept good (sk.tcpSendAck b) x := by
  unfold Sock.tcpSendAck
  split_ifs
  · exact h
  · cases b with
    | noMemory => exact h.frame rfl id
    | unroutable => exact h
    | ok => exact h.advertise.frame rfl id

omit h in
theorem Small.tcpSendAck (h : Small good sk) (b : Buff) : Small good (sk.tcpSendAck b) := by
  unfold Sock.tcpSendAck
  split_ifs
  · exact h
  · cases b with
    | noMemory => exact h.frame rfl rfl
    | unroutable => exact h
    | ok => exact (small_advertise good sk).frame rfl rfl

theorem Kept.tcpReadWakeup (b : Buff) : Kept good (sk.tcpReadWakeup b) x := by
  unfold Sock.tcpReadWakeup
  split_ifs
  · exact h
  · cases b with
    | noMemory => exact h
    | unroutable => exact h
    | ok => exact h.advertise.frame rfl id

theorem Kept.tcpWriteWakeup (b : Buff) (hwindow : good → sk.tcpSelectWindow = sk.window) :
    Kept good (sk.tcpWriteWakeup b) x := by
  unfold Sock.tcpWriteWakeup
  split_ifs
  · exact h
  · exact h
  · cases b with
    | noMemory => exact h
    | unroutable => exact h
    | ok =>
      refine ⟨⟨h.window, h.rcvbuf, h.memory, h.room, h.queue⟩, ?_, ?_⟩
      · exact h.never_shrinks_cons sk.le_tcpSelectWindow (Sock.tcpSelectWindow_lt h.window)
      · intro hgood e he
        change e ∈ some _ at he
        rw [Option.mem_some_iff] at he
        subst he
        apply lag_self
        rw [hwindow hgood]
        rfl

omit h in
theorem Kept.rfree {n : ℕ} (h : Kept good sk (x + n)) : Kept good (sk.rfree n) x := by
  have hmemory := h.memory
  have hroom := h.room
  refine ⟨⟨h.window, h.rcvbuf, ?_, ?_, h.queue⟩, h.never_shrinks,
    fun hgood e he => (h.lag hgood e he).congr rfl rfl id⟩
  · change sk.rmemAlloc - n = (sk.rqueue.map (·.th.memLen)).sum + sk.request + x
    omega
  · change sk.rmemAlloc - n ≤ 32767
    omega

theorem Kept.shutdownAll : Kept good sk.shutdownAll x :=
  h.frame rfl fun hfalse => absurd hfalse Bool.noConfusion

end

end Advertise

/-! ### Segments that come in -/

structure Fits (sk : Sock) (th : Segment) : Prop where
  nonzero : th.span ≠ 0 → sk.window ≠ 0
  reaches : 0 ≤ Seq.rel sk.ackedSeq th.seq + th.span
  starts : Seq.rel sk.ackedSeq th.seq ≤ sk.window

section Receive

variable {good : Prop} {sk : Sock} {x : ℕ} {th : Segment}

theorem Lag.moved (h : Lag e sk) (hopen : sk.rcvShutdown = false) {d : ℕ}
    (hd : d ≤ sk.window + 32748) (hstill : sk.window = 0 → d = 0) (shut : Bool)
    (backlog : UInt8) : Lag e (sk.moved d shut backlog) := by
  have hzero := h.open_rcv hopen
  have hnonneg := h.nonneg
  have hedge : (sk.moved d shut backlog).edge =
      sk.edge + Seq.ofInt (max 0 ((d : ℤ) - sk.window)) := by
    unfold Sock.moved Sock.edge
    dsimp only
    rw [Seq.natCast_eq, Seq.natCast_eq, Seq.natCast_eq, add_assoc, add_assoc, ← Seq.ofInt_add,
      ← Seq.ofInt_add]
    congr 2
    omega
  have hrel : Seq.rel e.edge (sk.moved d shut backlog).edge =
      Seq.rel e.edge sk.edge + max 0 ((d : ℤ) - sk.window) := by
    rw [hedge]
    apply Seq.rel_add_right <;> omega
  have hwindow : (sk.moved d shut backlog).window = sk.window - d := rfl
  refine ⟨by omega, by omega, ?_⟩
  intro _
  omega

theorem before_copied {a c : Seq} (h : QueueOk a c w l) : ¬Seq.before a c = true := by
  have hlow := h.copied_lower
  have hcopied := h.copied
  have hc : c = a + Seq.ofInt (Seq.rel a (c + 1) - 1) := by
    rw [Seq.ofInt_sub, add_sub_assoc', Seq.add_ofInt_rel, ← Seq.one_eq, add_sub_cancel_right]
  have hrel := Seq.rel_eq hc (by omega) (by omega)
  have hself := Seq.rel_self a
  have hback : Seq.rel c a = Seq.rel a a - Seq.rel a c := by
    apply Seq.rel_trans <;> omega
  rw [Seq.before_iff, hback]
  omega

theorem Kept.inserted (h : Kept good sk th.memLen) (hopen : sk.rcvShutdown = false)
    (hsyn : th.syn = false) (hfits : Fits sk th) :
    QueueBase sk.ackedSeq sk.copiedSeq sk.window
        ((place th.skb sk.rqueue.reverse []).1.reverse ++
          th.skb :: (place th.skb sk.rqueue.reverse []).2) ∧
      (∀ p ∈ (place th.skb sk.rqueue.reverse []).1, p.pos sk.ackedSeq ≤ 0 → p.acked = true) ∧
      ∀ p ∈ (place th.skb sk.rqueue.reverse []).2, p.pos sk.ackedSeq ≤ 0 → p.acked = true := by
  have hmemory := h.memory
  have hroom := h.room
  have hends : th.skb.th.syn = false ∧
      th.skb.ackSeq = th.skb.seq + BitVec.ofNat 32 th.skb.th.span := by
    refine ⟨hsyn, ?_⟩
    unfold Segment.skb Skb.seq Segment.span
    rw [hsyn]
    rfl
  exact (h.queue hopen).insert h.window hends rfl rfl
    (by change _ + th.memLen ≤ 32767; omega) hfits.reaches hfits.starts

theorem Kept.tcpDataQueue (h : Kept good sk th.memLen) (hopen : sk.rcvShutdown = false)
    (hsyn : th.syn = false) (hfits : Fits sk th) (b : Buff) :
    Kept good (sk.tcpDataQueue th b) 0 := by
  have hok := h.queue hopen
  have hmemory := h.memory
  have hroom := h.room
  obtain ⟨hbase, hearlier, hlater⟩ := h.inserted hopen hsyn hfits
  obtain ⟨dropped, hsplit, -, -, hfreed⟩ := place_split th.skb sk.rqueue.reverse []
  rw [reverse_reverse, append_nil] at hsplit
  have hmem := congrArg (fun l => (l.map fun q : Skb => q.th.memLen).sum) hsplit
  simp only [map_append, sum_append] at hmem
  have hcopied := before_copied hok
  unfold Sock.tcpDataQueue
  dsimp only
  rw [if_neg (show ¬Seq.before (sk.rfree (placeFreed th.skb sk.rqueue.reverse)).ackedSeq
    (sk.rfree (placeFreed th.skb sk.rqueue.reverse)).copiedSeq = true from hcopied)]
  generalize place th.skb sk.rqueue.reverse [] = placed at *
  obtain ⟨earlier, later⟩ := placed
  dsimp only at *
  obtain ⟨d, shut, backlog, backlog', queue, freed, hout, heq⟩ :=
    Sock.tcpDataAck_eq (sk.rfree (placeFreed th.skb sk.rqueue.reverse)) b h.window hbase
      hfits.reaches hearlier hlater
  -- The state before the acknowledgement is sent.
  have hstate : Kept good ((sk.rfree (placeFreed th.skb sk.rqueue.reverse)).dataState d shut
      backlog queue freed) 0 := by
    have hmoved := hout.moved_le
    have hqueue := hout.memory
    have hw := h.window
    simp only [map_append, sum_append, map_cons, sum_cons] at hqueue
    change _ = _ + (th.memLen + _) at hqueue
    refine ⟨⟨?_, h.rcvbuf, ?_, ?_, hout.queue⟩, h.never_shrinks, ?_⟩
    · change sk.window - d < 65536
      omega
    · change sk.rmemAlloc - placeFreed th.skb sk.rqueue.reverse - freed =
        (queue.map (·.th.memLen)).sum + sk.request + 0
      omega
    · change sk.rmemAlloc - placeFreed th.skb sk.rqueue.reverse - freed ≤ 32767
      omega
    · intro hgood e he
      have hlag := (h.lag hgood e he).moved hopen hmoved (fun hzero =>
        hout.still hzero (by
          by_contra hspan
          exact hfits.nonzero hspan hzero)) shut backlog
      exact hlag.congr rfl rfl id
  have hsent := hstate.tcpSendAck b
  have hack : Kept good ((sk.rfree (placeFreed th.skb sk.rqueue.reverse)).tcpDataAck th.skb
      earlier later b) 0 := by
    rcases heq with heq | heq
    · rw [heq]
      exact hsent
    · rw [heq]
      exact hsent.frame rfl id
  split_ifs
  · exact hack.shutdownAll.frame rfl id
  · exact hack

theorem Kept.reset {sk' : Sock} (h : Kept good sk x) (hsmall : Small good sk)
    (hsyn : th.syn = false) (hspan : th.span ≤ 32748) (hfits : Fits sk th)
    (hshut : sk'.rcvShutdown = true)
    (hacked : sk'.ackedSeq =
      th.seq + BitVec.ofNat 32 (th.data.length + th.syn.toNat + th.fin.toNat))
    (hwindow : sk'.window = sk.window) (hrcvbuf : sk'.rcvbuf = sk.rcvbuf)
    (hrmem : sk'.rmemAlloc = sk.rmemAlloc) (hrequest : sk'.request = sk.request)
    (hrqueue : sk'.rqueue = sk.rqueue) (hsent : sk'.sent = sk.sent) : Kept good sk' x := by
  have hw := h.window
  have hreaches := hfits.reaches
  have hstarts := hfits.starts
  have hedge : sk'.edge = sk.edge + Seq.ofInt (Seq.rel sk.ackedSeq th.seq + th.span) := by
    have hseq := Seq.add_ofInt_rel sk.ackedSeq th.seq
    have hnum : th.data.length + th.syn.toNat + th.fin.toNat = th.span := by
      rw [hsyn]
      rfl
    unfold Sock.edge
    calc sk'.ackedSeq + BitVec.ofNat 32 sk'.window
        = sk.ackedSeq + Seq.ofInt (Seq.rel sk.ackedSeq th.seq) + Seq.ofInt th.span +
            BitVec.ofNat 32 sk.window := by
          rw [hacked, hwindow, hnum, hseq, Seq.natCast_eq th.span]
      _ = _ := by
          rw [Seq.ofInt_add]
          abel
  refine ⟨⟨?_, ?_, ?_, ?_, ?_⟩, ?_, ?_⟩
  · rw [hwindow]
    exact hw
  · rw [hrcvbuf]
    exact h.rcvbuf
  · rw [hrmem, hrequest, hrqueue]
    exact h.memory
  · rw [hrmem]
    exact h.room
  · intro hfalse
    rw [hshut] at hfalse
    exact absurd hfalse Bool.noConfusion
  · rw [hsent]
    exact h.never_shrinks
  · intro hgood e he
    rw [hsent] at he
    have hlag := (h.lag hgood e he).nonneg
    have hlt := hsmall hgood e he
    have hrel : Seq.rel e.edge sk'.edge =
        Seq.rel e.edge sk.edge + (Seq.rel sk.ackedSeq th.seq + th.span) := by
      rw [hedge]
      apply Seq.rel_add_right <;> omega
    refine ⟨by omega, by omega, ?_⟩
    intro hfalse
    rw [hshut] at hfalse
    exact absurd hfalse Bool.noConfusion

theorem Kept.tcpData (h : Kept good sk th.memLen) (hsmall : Small good sk)
    (hsyn : th.syn = false) (hfits : Fits sk th) (b : Buff) :
    Kept good (sk.tcpData th b) 0 := by
  have hspan : th.span ≤ 32748 := by
    have hle := th.span_le
    have hmemory := h.memory
    have hroom := h.room
    omega
  have hbytes : Kept good { sk with bytesRcv := (sk.bytesRcv + th.data.length) % 65536 }
      (0 + th.memLen) := by
    rw [Nat.zero_add]
    exact h.frame rfl id
  unfold Sock.tcpData
  dsimp only
  split_ifs with hempty hack hshut
  · exact hbytes.rfree
  · exact (hbytes.tcpSendAck b).rfree
  · have hfreed := hbytes.rfree
    have hsmall' : Small good
        ({ sk with bytesRcv := (sk.bytesRcv + th.data.length) % 65536 }.rfree th.memLen) :=
      hsmall.frame rfl rfl
    exact hfreed.reset hsmall' hsyn hspan ⟨hfits.nonzero, hfits.reaches, hfits.starts⟩ rfl rfl
      rfl rfl rfl rfl rfl rfl
  · rw [Nat.zero_add] at hbytes
    rw [Bool.not_eq_true] at hshut
    exact hbytes.tcpDataQueue hshut hsyn ⟨hfits.nonzero, hfits.reaches, hfits.starts⟩ b

theorem Kept.tcpFin (h : Kept good sk x) (th : Segment) : Kept good (sk.tcpFin th) x := by
  unfold Sock.tcpFin
  split <;> exact h.frame rfl id

structure Holds (sk sk' : Sock) : Prop where
  acked : sk'.ackedSeq = sk.ackedSeq
  window : sk.window ≤ sk'.window

theorem Holds.fits {sk' : Sock} (h : Holds sk sk') (hfits : Fits sk th) : Fits sk' th := by
  obtain ⟨hacked, hwindow⟩ := h
  obtain ⟨hnonzero, hreaches, hstarts⟩ := hfits
  refine ⟨?_, ?_, ?_⟩
  · intro hspan
    omega
  · rw [hacked]
    exact hreaches
  · rw [hacked]
    omega

theorem Holds.tcpSendAck {sk' : Sock} (h : Holds sk sk') (b : Buff) :
    Holds sk (sk'.tcpSendAck b) := by
  unfold Sock.tcpSendAck
  split
  · exact h
  · cases b with
    | noMemory => exact ⟨h.acked, h.window⟩
    | unroutable => exact h
    | ok => exact ⟨h.acked, h.window.trans sk'.le_tcpSelectWindow⟩

structure Before (good : Prop) (x : ℕ) (sk sk' : Sock) : Prop where
  kept : Kept good sk' x
  small : Small good sk'
  holds : Holds sk sk'

section
variable {sk' : Sock} (h : Before good x sk sk')
include h

theorem Before.frame {sk'' : Sock} (hview : sk''.view = sk'.view)
    (hshut : sk''.rcvShutdown = false → sk'.rcvShutdown = false) : Before good x sk sk'' := by
  have hfields := hview
  unfold Sock.view at hfields
  simp only [Prod.mk.injEq] at hfields
  obtain ⟨hacked, -, hwindow, -, -, -, -, hsent⟩ := hfields
  refine ⟨h.kept.frame hview hshut, ?_, ?_⟩
  · apply h.small.frame
    · unfold Sock.edge
      rw [hacked, hwindow]
    · exact hsent
  · exact ⟨hacked.trans h.holds.acked, hwindow ▸ h.holds.window⟩

theorem Before.shutdownAll : Before good x sk sk'.shutdownAll :=
  h.frame rfl fun hfalse => absurd hfalse Bool.noConfusion

theorem Before.tcpSendAck (b : Buff) : Before good x sk (sk'.tcpSendAck b) :=
  ⟨h.kept.tcpSendAck b, h.small.tcpSendAck b, h.holds.tcpSendAck b⟩

omit h in
theorem Before.tcpAck (h : Before good x sk sk) (th : Segment) (sentSeq : Option Seq) (b : Buff) :
    Before good x sk (sk.tcpAck th sentSeq b).1 := by
  unfold Sock.tcpAck
  dsimp only
  split
  · exact h
  · generalize hsk : (if sk.maxWindow < th.window.toNat then
      { sk with maxWindow := th.window.toNat, mss := min th.window.toNat sk.mtu } else sk) = sk1
    have h1 : Before good x sk sk1 := by
      rw [← hsk]
      split
      · exact h.frame rfl id
      · exact h
    split
    · split <;> exact h1
    · generalize hsk : (if sk1.state = .timeWait ∧ th.ackSeq = sk1.writeSeq ∧
          sk1.ackedSeq = sk1.finSeq then _ else _ : Sock) = sk2
      have h2 : Before good x sk sk2 := by
        rw [← hsk]
        split
        · exact h1.shutdownAll.frame rfl id
        · exact h1.frame rfl id
      split
      · split
        · exact h2.shutdownAll.frame rfl id
        · exact (h2.tcpSendAck b).shutdownAll.frame rfl id
      · exact h2

theorem Before.tcpUrg (th : Segment) : Before good x sk (sk'.tcpUrg th) := by
  have hcheck : Before good x sk (if th.urg then sk'.tcpCheckUrg th else sk') := by
    split
    · unfold Sock.tcpCheckUrg
      dsimp only
      split_ifs
      · exact h
      · exact h
      · exact h.frame rfl id
    · exact h
  unfold Sock.tcpUrg
  dsimp only
  generalize (if th.urg then sk'.tcpCheckUrg th else sk') = sk1 at *
  split_ifs
  · exact hcheck
  · split
    · exact hcheck
    · exact hcheck.frame rfl id

end

theorem Kept.tcpRcvData (h : Kept good sk th.memLen) (hsmall : Small good sk)
    (hsyn : th.syn = false) (hfits : Fits sk th) (sentSeq : Option Seq) (b b' : Buff) :
    Kept good (sk.tcpRcvData th sentSeq b b') 0 := by
  have hbefore : Before good th.memLen sk sk := ⟨h, hsmall, ⟨rfl, Nat.le_refl _⟩⟩
  unfold Sock.tcpRcvData
  dsimp only
  generalize hsk : (if th.ack then sk.tcpAck th sentSeq b else (sk, true)) = acked
  have hacked : Before good th.memLen sk acked.1 := by
    rw [← hsk]
    split
    · exact hbefore.tcpAck th sentSeq b
    · exact hbefore
  have hfree : Kept good acked.1 (0 + th.memLen) := by
    rw [Nat.zero_add]
    exact hacked.kept
  have hurg := hacked.tcpUrg th
  have hdata := hurg.kept.tcpData hurg.small hsyn (hurg.holds.fits hfits) b'
  split_ifs
  · exact hfree.rfree
  · exact hdata.tcpFin th
  · exact hdata

def ReadyToReset (sk : Sock) : Prop :=
  sk.rcvShutdown = true → ∀ e ∈ sk.sent.head?, Seq.rel e.edge sk.edge < 1073741824

theorem Kept.small (h : Kept good sk x) (hready : good → ReadyToReset sk) : Small good sk := by
  intro hgood e he
  cases hshut : sk.rcvShutdown with
  | true => exact hready hgood hshut e he
  | false =>
    have := (h.lag hgood e he).open_rcv hshut
    omega

theorem Kept.tcpRcvState (h : Kept good sk th.memLen) (hready : good → ReadyToReset sk)
    (sentSeq : Option Seq) (b b' : Buff) :
    Kept good (sk.tcpRcvState th sentSeq b b') 0 := by
  have h0 : Kept good sk (0 + th.memLen) := by
    rw [Nat.zero_add]
    exact h
  have hkill : ∀ err, Kept good ((sk.kill err).rfree th.memLen) 0 := by
    intro err
    have : Kept good (sk.kill err) (0 + th.memLen) := h0.shutdownAll.frame rfl id
    exact this.rfree
  unfold Sock.tcpRcvState
  split_ifs with hclose hlast haccept hrst hwait hsyn
  · exact h0.rfree
  · exact (hkill _).frame rfl id
  · unfold Sock.refuse
    split_ifs
    · exact h0.rfree
    · exact (h0.tcpSendAck b').rfree
  · exact (hkill _).frame rfl id
  · exact (hkill _).frame rfl id
  · exact hkill _
  · have hspan : th.span ≤ 32748 := by
      have hle := th.span_le
      have hmemory := h.memory
      have hroom := h.room
      omega
    rw [Bool.not_eq_false, Sock.acceptable_iff h.window hspan] at haccept
    rw [Bool.not_eq_true] at hsyn
    exact h.tcpRcvData (h.small hready) hsyn ⟨haccept.1, haccept.2.1, haccept.2.2⟩ sentSeq b b'

theorem Kept.tcpRcv (h : Kept good sk 0) (hready : good → ReadyToReset sk) (th : Segment)
    (sentSeq : Option Seq) (b b' : Buff) : Kept good (sk.tcpRcv th sentSeq b b') 0 := by
  unfold Sock.tcpRcv
  split_ifs with hzapped hroom
  · exact h
  · exact h
  · have hrcvbuf := h.rcvbuf
    have hmemory := h.memory
    have hcharged : Kept good { sk with rmemAlloc := sk.rmemAlloc + th.memLen } th.memLen := by
      refine ⟨⟨h.window, hrcvbuf, ?_, ?_, h.queue⟩, h.never_shrinks,
        fun hgood e he => (h.lag hgood e he).congr rfl rfl id⟩
      · change sk.rmemAlloc + th.memLen = (sk.rqueue.map (·.th.memLen)).sum + sk.request + th.memLen
        omega
      · change sk.rmemAlloc + th.memLen ≤ 32767
        omega
    exact hcharged.tcpRcvState hready sentSeq b b'

end Receive

/-! ### Reading -/

section Read

variable {good : Prop} {sk : Sock} {x : ℕ}

section
variable (h : Kept good sk x)
include h

theorem Kept.reread {sk' : Sock} (hacked : sk'.ackedSeq = sk.ackedSeq)
    (hwindow : sk'.window = sk.window) (hshut : sk'.rcvShutdown = sk.rcvShutdown)
    (hrcvbuf : sk'.rcvbuf = sk.rcvbuf) (hrmem : sk'.rmemAlloc = sk.rmemAlloc)
    (hrequest : sk'.request = sk.request) (hsent : sk'.sent = sk.sent)
    (hunmark : sk'.rqueue.map Skb.unmark = sk.rqueue.map Skb.unmark)
    (hqueue : sk.rcvShutdown = false →
      QueueOk sk.ackedSeq sk'.copiedSeq sk.window sk'.rqueue) : Kept good sk' x := by
  refine ⟨⟨?_, ?_, ?_, ?_, ?_⟩, ?_, ?_⟩
  · rw [hwindow]
    exact h.window
  · rw [hrcvbuf]
    exact h.rcvbuf
  · rw [hrmem, hrequest, memLen_of_unmark hunmark]
    exact h.memory
  · rw [hrmem]
    exact h.room
  · intro hfalse
    rw [hacked, hwindow]
    exact hqueue (hshut ▸ hfalse)
  · rw [hsent]
    exact h.never_shrinks
  · intro hgood e he
    rw [hsent] at he
    refine (h.lag hgood e he).congr ?_ hwindow (fun hfalse => hshut ▸ hfalse)
    unfold Sock.edge
    rw [hacked, hwindow]

theorem Kept.scan (peek : Bool) {seq : Seq} (hseq : peek = false → seq = sk.copiedSeq)
    (hl : l = (Tcp.scan peek seq sk.rqueue).1 ++ (Tcp.scan peek seq sk.rqueue).2) :
    Kept good { sk with rqueue := l } x := by
  refine h.reread rfl rfl rfl rfl rfl rfl rfl ?_ ?_
  · rw [hl]
    exact scan_unmark peek seq sk.rqueue
  · intro hfalse
    cases peek with
    | true =>
      rw [hl, scan_peek]
      exact h.queue hfalse
    | false =>
      rw [hl, hseq rfl]
      exact (h.queue hfalse).scan h.window

theorem Kept.readNothing (nonblock : Bool) : Kept good (sk.readNothing nonblock).1 x := by
  unfold Sock.readNothing
  split_ifs
  · exact h.frame rfl id
  · exact h
  · exact h.frame rfl id
  · exact h.frame rfl id
  · exact h
  · exact h

theorem Kept.readFrom (peek : Bool) {seq : Seq} (hseq : peek = false → seq = sk.copiedSeq)
    {passed rest : List Skb} {skb : Skb} (hqueue : sk.rqueue = passed ++ skb :: rest)
    (hfound : skb.found seq = true) (len : ℕ) :
    Kept good (sk.readFrom peek seq passed skb rest len) x := by
  have hoffset : skb.offset seq < skb.len := by
    unfold Skb.found at hfound
    simp only [Bool.and_eq_true, decide_eq_true_eq] at hfound
    exact hfound.2
  refine h.reread rfl rfl rfl rfl rfl rfl rfl ?_ ?_
  · unfold Sock.readFrom
    rw [hqueue, map_append, map_append, map_cons, map_cons]
    rfl
  · intro hfalse
    cases peek with
    | true =>
      have hsame : ({ skb with used := skb.used || false } : Skb) = skb := by
        cases skb
        simp
      change QueueOk sk.ackedSeq sk.copiedSeq sk.window
        (passed ++ { skb with used := skb.used || false } :: rest)
      rw [hsame, ← hqueue]
      exact h.queue hfalse
    | false =>
      rw [hseq rfl] at hfound hoffset ⊢
      refine (h.queue hfalse).readFrom h.window hqueue hfound
        (sk.share_le skb sk.copiedSeq len hoffset) _ ?_
      intro hlast
      simp only [Bool.not_false, Bool.true_and, decide_eq_true_eq] at hlast
      omega

omit h in
theorem Kept.tcpReadLoop (peek nonblock : Bool) (fuel : ℕ) {len : ℕ} {peekSeq : Seq}
    {out : List UInt8} (h : Kept good sk x) :
    Kept good (sk.tcpReadLoop peek nonblock fuel len peekSeq out).1 x := by
  induction fuel generalizing sk len peekSeq out with
  | zero => exact h
  | succ fuel ih =>
    unfold Sock.tcpReadLoop
    dsimp only
    have hseq : peek = false → (if peek then peekSeq else sk.copiedSeq) = sk.copiedSeq := by
      intro hpeek
      rw [hpeek]
      rfl
    generalize (if peek then peekSeq else sk.copiedSeq) = seq at *
    have hscan := fun l hl => h.scan peek hseq (l := l) hl
    split
    · exact h
    split
    · exact h
    split
    · next hrest =>
      have hpassed := hscan _ (by rw [hrest, append_nil])
      split
      · exact hpassed
      · exact hpassed.readNothing nonblock
    · next skb rest hrest =>
      have hpassed := hscan _ (by rw [hrest])
      split
      · split
        · exact hpassed
        · exact hpassed.readNothing nonblock
      · next hfound =>
        rw [Bool.not_eq_false] at hfound
        apply ih
        exact (hpassed.readFrom peek hseq rfl hfound len).frame rfl id

theorem Kept.cleanupRbuf (b : Buff) : Kept good (sk.cleanupRbuf b) x := by
  have hsplit := takeWhile_append_dropWhile (p := fun q : Skb => q.used) (l := sk.rqueue)
  have hfreed : Kept good { sk with
      rqueue := sk.rqueue.dropWhile (·.used)
      rmemAlloc := sk.rmemAlloc - ((sk.rqueue.takeWhile (·.used)).map (·.th.memLen)).sum } x := by
    have hmemory := h.memory
    have hroom := h.room
    rw [← hsplit, map_append, sum_append] at hmemory
    refine ⟨⟨h.window, h.rcvbuf, ?_, ?_, ?_⟩, h.never_shrinks,
      fun hgood e he => (h.lag hgood e he).congr rfl rfl id⟩
    · change sk.rmemAlloc - _ = ((sk.rqueue.dropWhile (·.used)).map (·.th.memLen)).sum +
        sk.request + x
      omega
    · change sk.rmemAlloc - _ ≤ 32767
      omega
    · intro hfalse
      have hqueue := h.queue hfalse
      rw [← hsplit] at hqueue
      apply hqueue.drop
      intro q hq
      exact .inr (all_eq_true.mp all_takeWhile q hq)
  unfold Sock.cleanupRbuf
  dsimp only
  split_ifs
  · exact hfreed
  · apply Kept.tcpReadWakeup
    exact hfreed.frame rfl id
  · exact hfreed.frame rfl id

theorem Kept.tcpRead (peek : Option Seq) (len : ℕ) (nonblock : Bool) (b : Buff) :
    Kept good (sk.tcpRead peek len nonblock b).1 x := by
  unfold Sock.tcpRead
  split_ifs
  · exact h
  · exact (h.tcpReadLoop peek.isSome nonblock (2 * len)).cleanupRbuf b

theorem Kept.tcpReadUrg (peek nonblock : Bool) : Kept good (sk.tcpReadUrg peek nonblock).1 x := by
  unfold Sock.tcpReadUrg
  split
  · exact h
  · exact h
  · split_ifs
    · exact h
    · exact h
    · exact h.frame rfl id
  · split_ifs <;> first | exact h | exact h.frame rfl id

end

end Read

section Close

variable {good : Prop} {sk : Sock} {x : ℕ}

section
variable (h : Kept good sk x)
include h

theorem Kept.sendFin (direct : Bool) : Kept good (sk.sendFin direct) x :=
  h.advertise.frame rfl id

theorem Kept.inetShutdown (rcv send : Bool) : Kept good (sk.inetShutdown rcv send) x := by
  unfold Sock.inetShutdown
  split_ifs
  · exact h
  · refine h.frame rfl ?_
    intro hfalse
    exact (Bool.or_eq_false_iff.mp hfalse).1
  · refine h.frame rfl ?_
    intro hfalse
    exact (Bool.or_eq_false_iff.mp hfalse).1

theorem Kept.tcpShutdown (b : Buff) (direct : Bool) : Kept good (sk.tcpShutdown b direct) x := by
  unfold Sock.tcpShutdown
  have hnext : Kept good { sk with shutdowns := sk.shutdowns - 1 } x := h.frame rfl id
  split
  · exact h
  · cases b with
    | noMemory => exact hnext
    | unroutable => exact hnext
    | ok => exact (hnext.sendFin direct).frame rfl id

theorem Kept.flush : Kept good sk.flush x := by
  have hmemory := h.memory
  have hroom := h.room
  refine ⟨⟨h.window, h.rcvbuf, ?_, ?_, fun hfalse => absurd hfalse Bool.noConfusion⟩,
    h.never_shrinks, fun hgood e he => (h.lag hgood e he).congr rfl rfl
      fun hfalse => absurd hfalse Bool.noConfusion⟩
  · change sk.rmemAlloc - _ = 0 + sk.request + x
    omega
  · change sk.rmemAlloc - _ ≤ 32767
    omega

theorem Kept.tcpClose (timeout : Bool) (b : Buff) (direct : Bool) :
    Kept good (sk.tcpClose timeout b direct) x := by
  have hflushed := h.flush
  unfold Sock.tcpClose
  dsimp only
  generalize sk.flush = sk' at *
  have hwait : Kept good (if timeout then sk'.tcpTimeWait else sk') x := by
    split_ifs
    · exact hflushed.shutdownAll.frame rfl id
    · exact hflushed
  split
  · exact hwait
  · exact hwait
  · exact hwait
  · split_ifs
    · exact hflushed.frame rfl id
    · exact hflushed
  · exact hflushed
  · cases b with
    | noMemory => exact hflushed.frame rfl id
    | unroutable => exact hflushed
    | ok => exact (hflushed.sendFin direct).frame rfl id
  · cases b with
    | noMemory => exact hflushed.frame rfl id
    | unroutable => exact hflushed
    | ok => exact (hflushed.sendFin direct).frame rfl id

end

end Close

/-- What is assumed of a step: a probe announces the window that the socket has, and a
segment that comes in after the socket is shut down for receiving does not find it far
beyond the last announcement. -/
def StepRemembers (sk : Sock) : Event → Prop
  | .writeWakeup _ => sk.tcpSelectWindow = sk.window
  | .rcv _ _ _ _ => ReadyToReset sk
  | _ => True

theorem Kept.step {good : Prop} {sk : Sock} (h : Kept good sk 0) (e : Event)
    (hgood : good → StepRemembers sk e) : Kept good (sk.step e) 0 := by
  cases e with
  | rcv th sentSeq b b' => exact h.tcpRcv hgood th sentSeq b b'
  | read len nonblock b => exact h.tcpRead none len nonblock b
  | peek seq len nonblock b => exact h.tcpRead (some seq) len nonblock b
  | interrupted b => exact h.cleanupRbuf b
  | readUrg peek nonblock => exact h.tcpReadUrg peek nonblock
  | readWakeup b => exact h.tcpReadWakeup b
  | write copy => exact h.advertise.frame rfl id
  | transmit sentSeq => exact h.frame rfl id
  | shutdown rcv send => exact h.inetShutdown rcv send
  | shutdownFin b direct => exact h.tcpShutdown b direct
  | close timeout b direct => exact h.tcpClose timeout b direct
  | closeLater =>
    change Kept good sk.tcpCloseLater 0
    unfold Sock.tcpCloseLater
    split
    · exact h
    · exact h.frame rfl id
  | writeWakeup b => exact h.tcpWriteWakeup b hgood
  | timeClose => exact h.shutdownAll.frame rfl id
  | timedOut => exact h.frame rfl id
  | accept =>
    have hmemory := h.memory
    have hroom := h.room
    refine ⟨⟨h.window, h.rcvbuf, ?_, ?_, h.queue⟩, h.never_shrinks,
      fun hgood e he => (h.lag hgood e he).congr rfl rfl id⟩
    · change sk.rmemAlloc - sk.request = (sk.rqueue.map (·.th.memLen)).sum + 0 + 0
      omega
    · change sk.rmemAlloc - sk.request ≤ 32767
      omega
  | setErr err => exact h.frame rfl id
  | setRcvbuf val =>
    refine ⟨⟨h.window, ?_, h.memory, h.room, h.queue⟩, h.never_shrinks,
      fun hgood e he => (h.lag hgood e he).congr rfl rfl id⟩
    change (max 256 (min val 32767)).toNat ≤ 32767
    omega
  | setUrginline urginline => exact h.frame rfl id

theorem Sock.Fresh.kept {sk : Sock} (h : sk.Fresh) (good : Prop) : Kept good sk 0 := by
  have hzero : Seq.rel sk.ackedSeq (sk.copiedSeq + 1) = 0 := by
    rw [h.copied]
    exact Seq.rel_self _
  have hmem : ∀ {P : Skb → Prop}, ∀ q ∈ sk.rqueue, P q := by
    intro P q hq
    rw [h.rqueue] at hq
    exact absurd hq not_mem_nil
  have hrequest := h.request
  refine ⟨⟨h.window, h.rcvbuf.2, ?_, ?_, ?_⟩, ?_, ?_⟩
  · rw [h.rqueue, h.rmem]
    change sk.request = 0 + sk.request + 0
    omega
  · rw [h.rmem]
    omega
  · intro _
    refine ⟨⟨hmem, ?_, hmem, hmem, hmem, ?_, ?_, by omega, hmem, ?_⟩, hmem⟩
    · rw [h.rqueue]
      exact List.Pairwise.nil
    · rw [h.rqueue]
      exact trivial
    · rw [h.rqueue]
      exact Nat.zero_le _
    · intro x hlo hhi
      omega
  · intro _
    rw [h.sent]
    exact List.IsChain.nil
  · intro _ e he
    rw [h.sent] at he
    exact absurd he (Option.not_mem_none e)

end LinuxKernel.Tcp
