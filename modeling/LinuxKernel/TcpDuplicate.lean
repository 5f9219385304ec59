import LinuxKernel.TcpWindow

/-!
# Segments that come a second time

A segment that lies before `acked_seq` is either refused by `tcp_sequence`, or it ends at
`acked_seq` and goes the way of new data once more.
-/

namespace LinuxKernel.Tcp
open List

variable {sk sk' : Sock} {th : Segment} {s : Seq}

def Segment.holds (th : Segment) (s : Seq) : Bool := (s - th.seq).toNat < th.data.length

/-- The byte that `tcp_read` copies for a sequence number: that of the first buffer that has
it. -/
def streamByte (l : List Segment) (s : Seq) : Option UInt8 :=
  (l.find? fun th => th.holds s).bind fun th => th.data[(s - th.seq).toNat]?

def Sock.byteAt (sk : Sock) (s : Seq) : Option UInt8 := streamByte (sk.rqueue.map (·.th)) s

def Sock.unread (sk : Sock) : List (Option UInt8) :=
  (List.range (sk.ackedSeq - (sk.copiedSeq + 1)).toNat).map fun n =>
    sk.byteAt (sk.copiedSeq + 1 + BitVec.ofNat 32 n)

theorem streamByte_insert {earlier dropped later : List Segment}
    (hdropped : ∀ d ∈ dropped, d.holds s = true → th.holds s = true)
    (hsame : th.holds s = true →
      streamByte (earlier ++ dropped ++ later) s = th.data[(s - th.seq).toNat]?) :
    streamByte (earlier ++ th :: later) s = streamByte (earlier ++ dropped ++ later) s := by
  cases hfirst : earlier.find? fun th => th.holds s with
  | some p =>
    simp only [streamByte, List.find?_append, hfirst, Option.some_or]
  | none =>
    by_cases hholds : th.holds s = true
    · rw [hsame hholds]
      simp only [streamByte, List.find?_append, hfirst, Option.none_or, List.find?_cons, hholds,
        Option.bind_some]
    · have hnone : dropped.find? (fun th => th.holds s) = none := by
        rw [List.find?_eq_none]
        intro d hd hd'
        exact hholds (hdropped d hd hd')
      simp only [streamByte, List.find?_append, hfirst, hnone, Option.none_or, List.find?_cons,
        hholds]

/-! ### What a duplicate must not change -/

structure Unchanged (sk sk' : Sock) : Prop where
  state : sk'.state = sk.state
  err : sk'.err = sk.err
  ackedSeq : sk'.ackedSeq = sk.ackedSeq
  finSeq : sk'.finSeq = sk.finSeq
  rcvShutdown : sk'.rcvShutdown = sk.rcvShutdown
  sendShutdown : sk'.sendShutdown = sk.sendShutdown
  unread : sk'.unread = sk.unread

def Sock.core (sk : Sock) : State × ℤ × Seq × Seq × Bool × Bool × Seq × List Skb :=
  (sk.state, sk.err, sk.ackedSeq, sk.finSeq, sk.rcvShutdown, sk.sendShutdown, sk.copiedSeq,
    sk.rqueue)

theorem Unchanged.of_core (h : sk'.core = sk.core) : Unchanged sk sk' := by
  unfold Sock.core at h
  simp only [Prod.mk.injEq] at h
  obtain ⟨hstate, herr, hacked, hfin, hrcv, hsend, hcopied, hqueue⟩ := h
  refine ⟨hstate, herr, hacked, hfin, hrcv, hsend, ?_⟩
  unfold Sock.unread Sock.byteAt
  rw [hacked, hcopied, hqueue]

theorem Unchanged.trans {sk'' : Sock} (h : Unchanged sk sk') (h' : Unchanged sk' sk'') :
    Unchanged sk sk'' :=
  ⟨h'.state.trans h.state, h'.err.trans h.err, h'.ackedSeq.trans h.ackedSeq,
    h'.finSeq.trans h.finSeq, h'.rcvShutdown.trans h.rcvShutdown,
    h'.sendShutdown.trans h.sendShutdown, h'.unread.trans h.unread⟩

theorem core_tcpSendAck (sk : Sock) (b : Buff) : (sk.tcpSendAck b).core = sk.core ∧
    (sk.tcpSendAck b).rcvAckSeq = sk.rcvAckSeq ∧ (sk.tcpSendAck b).writeSeq = sk.writeSeq := by
  unfold Sock.tcpSendAck
  split
  · exact ⟨rfl, rfl, rfl⟩
  · cases b <;> exact ⟨rfl, rfl, rfl⟩

theorem core_tcpUrg (sk : Sock) (th : Segment) : (sk.tcpUrg th).core = sk.core ∧
    (sk.tcpUrg th).rcvAckSeq = sk.rcvAckSeq ∧ (sk.tcpUrg th).writeSeq = sk.writeSeq := by
  have hcheck : ∀ sk1 : Sock, sk1 = (if th.urg then sk.tcpCheckUrg th else sk) →
      sk1.core = sk.core ∧ sk1.rcvAckSeq = sk.rcvAckSeq ∧ sk1.writeSeq = sk.writeSeq := by
    rintro _ rfl
    split
    · unfold Sock.tcpCheckUrg
      dsimp only
      split_ifs <;> exact ⟨rfl, rfl, rfl⟩
    · exact ⟨rfl, rfl, rfl⟩
  unfold Sock.tcpUrg
  dsimp only
  generalize hsk : (if th.urg then sk.tcpCheckUrg th else sk) = sk1
  have h1 := hcheck sk1 hsk.symm
  split_ifs
  · exact h1
  · split
    · exact h1
    · exact h1

def Sock.badAck (sk : Sock) (th : Segment) : Bool :=
  Seq.after th.ackSeq (sk.sentSeq + 1) || Seq.before th.ackSeq (sk.rcvAckSeq - 1)

def Sock.ackDrops (sk : Sock) (th : Segment) : Bool :=
  th.ack && sk.badAck th && (Seq.after th.ackSeq sk.sentSeq ||
    (sk.state ≠ .established && sk.state ≠ .closeWait))

def Sock.live (sk : Sock) : Bool :=
  sk.state = .established || sk.state = .closeWait || sk.state = .finWait1 || sk.state = .finWait2

theorem core_tcpAck {sentSeq : Option Seq} {b : Buff} {x : Sock × Bool}
    (hx : sk.tcpAck th sentSeq b = x) (hlive : sk.live = true) (hzapped : sk.zapped = false)
    (hack : sk.state = .finWait2 → sk.badAck th = false → th.ackSeq ≠ sk.writeSeq) :
    x.1.core = sk.core ∧ x.1.writeSeq = sk.writeSeq ∧
      (sk.badAck th = false → x.1.rcvAckSeq = th.ackSeq) ∧
        (sk.badAck th = true → x.2 = true → Seq.after th.ackSeq sk.sentSeq = false ∧
          (sk.state = .established ∨ sk.state = .closeWait)) := by
  unfold Sock.tcpAck at hx
  dsimp only at hx
  split at hx
  · rename_i htrue
    rw [hzapped] at htrue
    exact absurd htrue Bool.false_ne_true
  · generalize hsk : (if sk.maxWindow < th.window.toNat then
      { sk with maxWindow := th.window.toNat, mss := min th.window.toNat sk.mtu }
      else sk) = sk1 at hx
    have h1 : sk1.core = sk.core ∧ sk1.writeSeq = sk.writeSeq ∧ sk1.sentSeq = sk.sentSeq ∧
        sk1.rcvAckSeq = sk.rcvAckSeq ∧ sk1.state = sk.state := by
      rw [← hsk]
      split <;> exact ⟨rfl, rfl, rfl, rfl, rfl⟩
    obtain ⟨hcore, hwrite, hsent, hrcvAck, hstate⟩ := h1
    have hbad : (Seq.after th.ackSeq (sk1.sentSeq + 1) = true ∨
        Seq.before th.ackSeq (sk1.rcvAckSeq - 1) = true) ↔ sk.badAck th = true := by
      unfold Sock.badAck
      rw [hsent, hrcvAck, Bool.or_eq_true]
    split at hx
    · rename_i hrefused
      have hbadAck := hbad.1 hrefused
      have htaken : ¬sk.badAck th = false := by
        rw [hbadAck]
        exact Bool.noConfusion
      split at hx
      · subst hx
        exact ⟨hcore, hwrite, fun hgood => absurd hgood htaken,
          fun _ hfalse => absurd hfalse Bool.false_ne_true⟩
      · rename_i hkept
        subst hx
        refine ⟨hcore, hwrite, fun hgood => absurd hgood htaken, fun _ _ => ?_⟩
        rw [hsent, hstate] at hkept
        rw [not_or, Bool.not_eq_true] at hkept
        refine ⟨hkept.1, ?_⟩
        by_contra hnot
        rw [not_or] at hnot
        exact hkept.2 hnot
    · rename_i htaken
      have hgood : sk.badAck th = false := by
        rw [← Bool.not_eq_true, ← hbad]
        exact htaken
      have hnotBad : ¬sk.badAck th = true := by
        rw [hgood]
        exact Bool.false_ne_true
      unfold Sock.live at hlive
      have htime : ¬(sk1.state = .timeWait ∧ th.ackSeq = sk1.writeSeq ∧
          sk1.ackedSeq = sk1.finSeq) := by
        rintro ⟨htime, -⟩
        rw [hstate] at htime
        rw [htime] at hlive
        simp at hlive
      have hclosing : ¬((sk1.state = .lastAck ∨ sk1.state = .finWait2) ∧
          th.ackSeq = sk1.writeSeq) := by
        rintro ⟨hlast | hwait, hall⟩
        · rw [hstate] at hlast
          rw [hlast] at hlive
          simp at hlive
        · rw [hwrite] at hall
          exact hack (hstate ▸ hwait) hgood hall
      rw [if_neg htime] at hx
      rw [if_neg hclosing] at hx
      subst hx
      exact ⟨hcore, hwrite, fun _ => rfl, fun hbadAck => absurd hbadAck hnotBad⟩

theorem ackLater_still (sk : Sock) (l : List Skb)
    (h : ∀ q ∈ l, Seq.before q.seq (sk.ackedSeq + 1) = true →
      Seq.after q.ackSeq sk.ackedSeq = false ∧ q.th.fin = false) :
    (∃ backlog, (sk.ackLater l).1 = { sk with ackBacklog := backlog }) ∧
      (sk.ackLater l).2.map (·.th) = l.map (·.th) := by
  induction l generalizing sk with
  | nil => exact ⟨⟨sk.ackBacklog, rfl⟩, rfl⟩
  | cons q l ih =>
    unfold Sock.ackLater
    split
    · rename_i hbefore
      obtain ⟨hafter, hfin⟩ := h q mem_cons_self hbefore
      have hack : sk.ackSkb q = sk := by
        unfold Sock.ackSkb
        rw [hafter, hfin]
        rfl
      obtain ⟨⟨backlog, hstate⟩, hqueue⟩ := ih { sk with ackBacklog := sk.maxAckBacklog }
        fun p hp => h p (mem_cons_of_mem q hp)
      rw [hack]
      refine ⟨⟨backlog, hstate⟩, ?_⟩
      rw [map_cons, hqueue, map_cons]
    · exact ⟨⟨sk.ackBacklog, rfl⟩, rfl⟩

def Sock.Agrees (sk : Sock) (th : Segment) : Prop :=
  ∀ n < (sk.ackedSeq - (sk.copiedSeq + 1)).toNat,
    th.holds (sk.copiedSeq + 1 + BitVec.ofNat 32 n) = true →
      sk.byteAt (sk.copiedSeq + 1 + BitVec.ofNat 32 n) =
        th.data[(sk.copiedSeq + 1 + BitVec.ofNat 32 n - th.seq).toNat]?

instance (sk : Sock) (th : Segment) : Decidable (sk.Agrees th) :=
  inferInstanceAs (Decidable (∀ n < (sk.ackedSeq - (sk.copiedSeq + 1)).toNat, _ → _))

theorem holds_of_len {d : Segment} (hseq : th.seq = d.seq) (hlen : d.data.length ≤ th.data.length)
    (h : d.holds s = true) : th.holds s = true := by
  unfold Segment.holds at h ⊢
  rw [decide_eq_true_iff] at h ⊢
  rw [hseq]
  omega

theorem unchanged_tcpDataQueue (h : Kept False sk th.memLen) (hopen : sk.rcvShutdown = false)
    (hsyn : th.syn = false) (hfin : th.fin = false) (hfits : Fits sk th)
    (hend : Seq.rel sk.ackedSeq th.seq + th.span = 0) (hagrees : sk.Agrees th)
    (hlast : sk.state = .finWait2 → sk.ackedSeq = sk.finSeq → sk.rcvAckSeq ≠ sk.writeSeq)
    (b : Buff) : Unchanged sk (sk.tcpDataQueue th b) := by
  have hok := h.queue hopen
  have hmemory := h.memory
  have hroom := h.room
  have hw := h.window
  obtain ⟨hbase, -, hlater⟩ := h.inserted hopen hsyn hfits
  obtain ⟨dropped, hsplit, hsame, -, -⟩ := place_split th.skb sk.rqueue.reverse []
  rw [reverse_reverse, append_nil] at hsplit
  have hcopied := before_copied hok
  unfold Sock.tcpDataQueue
  dsimp only
  rw [if_neg (show ¬Seq.before (sk.rfree (placeFreed th.skb sk.rqueue.reverse)).ackedSeq
    (sk.rfree (placeFreed th.skb sk.rqueue.reverse)).copiedSeq = true from hcopied)]
  generalize place th.skb sk.rqueue.reverse [] = placed at *
  obtain ⟨earlier, later⟩ := placed
  have hq : th.skb ∈ earlier.reverse ++ th.skb :: later := mem_append_right _ mem_cons_self
  have hbefore : Seq.before th.skb.seq (sk.ackedSeq + 1) = true := by
    rw [Seq.before_succ_iff]
    · change Seq.rel sk.ackedSeq th.seq ≤ 0
      omega
    · have := hbase.lower hq
      unfold Skb.pos at this
      omega
  have hack : (sk.rfree (placeFreed th.skb sk.rqueue.reverse)).ackSkb th.skb =
      sk.rfree (placeFreed th.skb sk.rqueue.reverse) := by
    have hrel := hbase.rel_ackSeq hw hq
    have hafter : Seq.after th.skb.ackSeq
        (sk.rfree (placeFreed th.skb sk.rqueue.reverse)).ackedSeq = false := by
      rw [← Bool.not_eq_true, Seq.after_iff]
      change ¬0 < Seq.rel sk.ackedSeq th.skb.ackSeq
      change _ = Seq.rel sk.ackedSeq th.seq + th.span at hrel
      omega
    unfold Sock.ackSkb
    rw [hafter]
    change (if th.fin then _ else _) = _
    rw [hfin]
    rfl
  obtain ⟨⟨backlog, hstate⟩, hqueue⟩ :=
    ackLater_still (sk.rfree (placeFreed th.skb sk.rqueue.reverse)) later (by
      intro p hp hbefore
      have hpl : p ∈ earlier.reverse ++ th.skb :: later := mem_append_right _ (mem_cons_of_mem _ hp)
      have hlower := hbase.lower hpl
      have hpos : p.pos sk.ackedSeq ≤ 0 :=
        (Seq.before_succ_iff (by unfold Skb.pos at hlower; omega)).1 hbefore
      have hflag := hlater p hp hpos
      have hrel := hbase.rel_ackSeq hw hpl
      have hle := hbase.acked_le p hpl hflag
      refine ⟨?_, hbase.no_fin p hpl hflag⟩
      rw [← Bool.not_eq_true, Seq.after_iff]
      change ¬0 < Seq.rel sk.ackedSeq p.ackSeq
      omega)
  generalize placeFreed th.skb sk.rqueue.reverse = freed at *
  have hdata : ∃ queue, queue.map (·.th) = earlier.reverse.map (·.th) ++ th :: later.map (·.th) ∧
      ((sk.rfree freed).tcpDataAck th.skb earlier later b).core =
          ({ sk with rqueue := queue } : Sock).core ∧
        ((sk.rfree freed).tcpDataAck th.skb earlier later b).rcvAckSeq = sk.rcvAckSeq ∧
          ((sk.rfree freed).tcpDataAck th.skb earlier later b).writeSeq = sk.writeSeq := by
    refine ⟨earlier.reverse ++ { th.skb with acked := true } :: ((sk.rfree freed).ackLater later).2,
      ?_, ?_⟩
    · rw [map_append, map_cons, hqueue]
      rfl
    · unfold Sock.tcpDataAck
      rw [if_pos (show Seq.before th.skb.seq ((sk.rfree freed).ackedSeq + 1) = true from hbefore)]
      dsimp only
      rw [hack, hstate]
      split <;> exact core_tcpSendAck _ b
  obtain ⟨queue, hmap, hcore, hrcvAck, hwrite⟩ := hdata
  generalize (sk.rfree freed).tcpDataAck th.skb earlier later b = sk' at hcore hrcvAck hwrite ⊢
  have hsegments : sk.rqueue.map (·.th) =
      earlier.reverse.map (·.th) ++ dropped.map (·.th) ++ later.map (·.th) := by
    rw [hsplit, map_append, map_append]
  have hunread : ({ sk with rqueue := queue } : Sock).unread = sk.unread := by
    apply map_congr_left
    intro n hn
    rw [mem_range] at hn
    unfold Sock.byteAt
    rw [hmap, hsegments]
    apply streamByte_insert
    · intro d hd
      obtain ⟨q, hq, rfl⟩ := mem_map.1 hd
      exact holds_of_len (hsame q hq).1 (hsame q hq).2
    · intro hholds
      rw [← hsegments]
      exact hagrees n hn hholds
  have hmiddle : Unchanged sk { sk with rqueue := queue } := ⟨rfl, rfl, rfl, rfl, rfl, rfl, hunread⟩
  have hunchanged : Unchanged sk sk' := hmiddle.trans (Unchanged.of_core hcore)
  rw [if_neg]
  · exact hunchanged
  · rintro ⟨hwait, hfinSeq, hall⟩
    rw [hunchanged.state] at hwait
    rw [hunchanged.ackedSeq, hunchanged.finSeq] at hfinSeq
    rw [hrcvAck, hwrite] at hall
    exact hlast hwait hfinSeq hall

/-! ### A duplicate in a reachable state -/

structure Duplicate (sk : Sock) (th : Segment) : Prop where
  live : sk.live = true
  rst : th.rst = false
  syn : th.syn = false
  span : th.span ≠ 0
  before : Seq.after (th.seq + BitVec.ofNat 32 th.span) sk.ackedSeq = false

structure Harmless (sk : Sock) (th : Segment) : Prop where
  open_rcv : sk.rcvShutdown = false
  fin : th.fin = false
  agrees : sk.Agrees th
  ack : sk.state = .finWait2 → th.ack = true → sk.badAck th = false → th.ackSeq ≠ sk.writeSeq
  lastAck : sk.state = .finWait2 → th.ack = false → sk.ackedSeq = sk.finSeq →
    sk.rcvAckSeq ≠ sk.writeSeq

/-- `tcp_rcv` takes the segment, it is not refused by `tcp_sequence`, nor dropped by `tcp_ack`. -/
structure Passes (sk : Sock) (th : Segment) : Prop where
  zapped : sk.zapped = false
  room : sk.rmemAlloc + th.memLen < sk.rcvbuf
  ends : th.seq + BitVec.ofNat 32 th.span = sk.ackedSeq
  window : sk.window ≠ 0
  ack : sk.ackDrops th = false

theorem Sock.Fresh.inv_run (h : sk.Fresh) (es : List Event) : Kept False (sk.run es) 0 := by
  have hkept := h.kept False
  clear h
  induction es generalizing sk with
  | nil => exact hkept
  | cons e es ih => exact ih (hkept.step e False.elim)

theorem unchanged_refl (sk : Sock) : Unchanged sk sk := Unchanged.of_core rfl

theorem Sock.Agrees.of_core (h : sk'.core = sk.core) (hagrees : sk.Agrees th) : sk'.Agrees th := by
  unfold Sock.core at h
  simp only [Prod.mk.injEq] at h
  obtain ⟨-, -, hacked, -, -, -, hcopied, hqueue⟩ := h
  unfold Sock.Agrees Sock.byteAt at hagrees ⊢
  rw [hacked, hcopied, hqueue]
  exact hagrees

section
variable (h : Kept False sk th.memLen) (hdup : Duplicate sk th)
include h hdup

theorem unchanged_tcpData (hopen : sk.rcvShutdown = false) (hfin : th.fin = false)
    (hfits : Fits sk th) (hend : Seq.rel sk.ackedSeq th.seq + th.span = 0) (hagrees : sk.Agrees th)
    (hlast : sk.state = .finWait2 → sk.ackedSeq = sk.finSeq → sk.rcvAckSeq ≠ sk.writeSeq) (b : Buff)
    : Unchanged sk (sk.tcpData th b) := by
  have hspan := hdup.span
  have hbytes : Unchanged sk { sk with bytesRcv := (sk.bytesRcv + th.data.length) % 65536 } :=
    Unchanged.of_core rfl
  have hkept : Kept False { sk with bytesRcv := (sk.bytesRcv + th.data.length) % 65536 }
      th.memLen := h.frame rfl id
  unfold Sock.tcpData
  rw [if_neg, if_neg (by rw [hopen]; exact Bool.false_ne_true)]
  · exact hbytes.trans (unchanged_tcpDataQueue hkept hopen hdup.syn hfin
      ⟨hfits.nonzero, hfits.reaches, hfits.starts⟩ hend hagrees hlast b)
  · rintro ⟨hempty, -⟩
    apply hspan
    unfold Segment.span
    rw [hempty, hfin]
    rfl

theorem unchanged_tcpRcvData (hfits : Fits sk th) (hzapped : sk.zapped = false)
    (hend : Seq.rel sk.ackedSeq th.seq + th.span = 0)
    (hok : sk.ackDrops th = false → Harmless sk th) (sentSeq : Option Seq) (b b' : Buff) :
    Unchanged sk (sk.tcpRcvData th sentSeq b b') := by
  have hbefore : Before False th.memLen sk sk := ⟨h, False.elim, ⟨rfl, Nat.le_refl _⟩⟩
  unfold Sock.tcpRcvData
  dsimp only
  generalize hacked : (if th.ack then sk.tcpAck th sentSeq b else (sk, true)) = acked
  have hafter : Before False th.memLen sk acked.1 := by
    rw [← hacked]
    split
    · exact hbefore.tcpAck th sentSeq b
    · exact hbefore
  -- what is left of tcp_ack for a segment that it does not drop
  have hack : acked.1.core = sk.core ∧ (acked.2 = true → Harmless sk th ∧
      (sk.state = .finWait2 → sk.ackedSeq = sk.finSeq → acked.1.rcvAckSeq ≠ acked.1.writeSeq)) := by
    cases hflag : th.ack with
    | false =>
      rw [hflag, if_neg Bool.false_ne_true] at hacked
      subst hacked
      have hharmless := hok (by unfold Sock.ackDrops; rw [hflag]; rfl)
      exact ⟨rfl, fun _ => ⟨hharmless, fun hwait => hharmless.lastAck hwait hflag⟩⟩
    | true =>
      rw [hflag, if_pos rfl] at hacked
      have hclosing : sk.state = .finWait2 → sk.badAck th = false → th.ackSeq ≠ sk.writeSeq := by
        intro hwait hgood
        refine (hok ?_).ack hwait hflag hgood
        unfold Sock.ackDrops
        rw [hgood, Bool.and_false, Bool.false_and]
      obtain ⟨hcore, hwrite, htaken, hrefused⟩ := core_tcpAck hacked hdup.live hzapped hclosing
      refine ⟨hcore, fun hgo => ?_⟩
      cases hbad : sk.badAck th with
      | false =>
        refine ⟨hok ?_, fun hwait _ => ?_⟩
        · unfold Sock.ackDrops
          rw [hbad, Bool.and_false, Bool.false_and]
        · rw [htaken hbad, hwrite]
          exact hclosing hwait hbad
      | true =>
        obtain ⟨hsent, hstate⟩ := hrefused hbad hgo
        refine ⟨hok ?_, fun hwait => ?_⟩
        · unfold Sock.ackDrops
          rw [hsent]
          rcases hstate with hstate | hstate <;> rw [hstate] <;> simp
        · rw [hwait] at hstate
          simp at hstate
  obtain ⟨hcore, hgo⟩ := hack
  have hacked' : Unchanged sk acked.1 := Unchanged.of_core hcore
  split
  · exact hacked'.trans (Unchanged.of_core rfl)
  · rename_i hnot
    rw [Bool.not_eq_false] at hnot
    obtain ⟨hharmless, hlast⟩ := hgo hnot
    obtain ⟨hurg, hrcvAck, hwrite⟩ := core_tcpUrg acked.1 th
    have hurgBefore := hafter.tcpUrg th
    have hurg' : Unchanged sk (acked.1.tcpUrg th) := hacked'.trans (Unchanged.of_core hurg)
    rw [hharmless.fin, if_neg Bool.false_ne_true]
    refine hurg'.trans (unchanged_tcpData hurgBefore.kept ?_ ?_ hharmless.fin
      (hurgBefore.holds.fits hfits) ?_ (hharmless.agrees.of_core (hurg.trans hcore)) ?_ b')
    · refine ⟨?_, hdup.rst, hdup.syn, hdup.span, ?_⟩
      · unfold Sock.live
        rw [hurg'.state]
        exact hdup.live
      · rw [hurg'.ackedSeq]
        exact hdup.before
    · rw [hurg'.rcvShutdown]
      exact hharmless.open_rcv
    · rw [hurg'.ackedSeq]
      exact hend
    · rw [hurg'.state, hurg'.ackedSeq, hurg'.finSeq, hrcvAck, hwrite]
      exact hlast

theorem unchanged_tcpRcvState (hzapped : sk.zapped = false)
    (hok : th.seq + BitVec.ofNat 32 th.span = sk.ackedSeq → sk.window ≠ 0 →
      sk.ackDrops th = false → Harmless sk th) (sentSeq : Option Seq) (b b' : Buff) :
    Unchanged sk (sk.tcpRcvState th sentSeq b b') := by
  have hlive := hdup.live
  have hw := h.window
  have hspan := th.span_le
  have hmemory := h.memory
  have hroom := h.room
  unfold Sock.live at hlive
  have hopen : sk.state ≠ .close := by
    intro hclose
    rw [hclose] at hlive
    simp at hlive
  unfold Sock.tcpRcvState
  rw [if_neg hopen, hdup.rst, hdup.syn, if_neg fun hlast => absurd hlast.2 Bool.false_ne_true]
  split
  · unfold Sock.refuse
    rw [hdup.rst, if_neg Bool.false_ne_true]
    have hsend : Unchanged sk (sk.tcpSendAck b') := Unchanged.of_core (core_tcpSendAck sk b').1
    exact hsend.trans (Unchanged.of_core rfl)
  · rename_i haccept
    rw [Bool.not_eq_false, Sock.acceptable_iff hw (by omega)] at haccept
    obtain ⟨hnonzero, hreaches, hstarts⟩ := haccept
    -- the segment is before acked_seq, and reaches it
    have hrel : Seq.rel sk.ackedSeq (th.seq + BitVec.ofNat 32 th.span) =
        Seq.rel sk.ackedSeq th.seq + th.span := by
      rw [Seq.natCast_eq]
      apply Seq.rel_add_right <;> omega
    have hle : ¬0 < Seq.rel sk.ackedSeq (th.seq + BitVec.ofNat 32 th.span) := by
      rw [← Seq.after_iff, hdup.before]
      exact Bool.false_ne_true
    have hend : Seq.rel sk.ackedSeq th.seq + th.span = 0 := by omega
    have hends : th.seq + BitVec.ofNat 32 th.span = sk.ackedSeq := by
      have hadd := Seq.add_ofInt_rel sk.ackedSeq (th.seq + BitVec.ofNat 32 th.span)
      rw [hrel, hend] at hadd
      rw [← hadd]
      exact add_zero _
    exact unchanged_tcpRcvData h hdup ⟨hnonzero, hreaches, hstarts⟩ hzapped hend
      (hok hends (hnonzero hdup.span)) sentSeq b b'

end

theorem unchanged_tcpRcv (h : Kept False sk 0) (hdup : Duplicate sk th)
    (hok : Passes sk th → Harmless sk th) (sentSeq : Option Seq) (b b' : Buff) :
    Unchanged sk (sk.tcpRcv th sentSeq b b') := by
  unfold Sock.tcpRcv
  split
  · exact unchanged_refl sk
  · rename_i hzapped
    rw [Bool.not_eq_true] at hzapped
    split
    · exact unchanged_refl sk
    · rename_i hroom
      rw [not_le] at hroom
      have hrcvbuf := h.rcvbuf
      have hmemory := h.memory
      have hcore : Unchanged sk { sk with rmemAlloc := sk.rmemAlloc + th.memLen } :=
        Unchanged.of_core rfl
      refine hcore.trans ?_
      apply unchanged_tcpRcvState
      · refine ⟨⟨h.window, hrcvbuf, ?_, ?_, h.queue⟩, False.elim, False.elim⟩
        · change sk.rmemAlloc + th.memLen =
            (sk.rqueue.map (·.th.memLen)).sum + sk.request + th.memLen
          omega
        · change sk.rmemAlloc + th.memLen ≤ 32767
          omega
      · exact ⟨hdup.live, hdup.rst, hdup.syn, hdup.span, hdup.before⟩
      · exact hzapped
      · intro hends hwindow hdrops
        have hharmless := hok ⟨hzapped, hroom, hends, hwindow, hdrops⟩
        exact ⟨hharmless.open_rcv, hharmless.fin, hharmless.agrees, hharmless.ack,
          hharmless.lastAck⟩

/-- In every reachable state a segment that lies before `acked_seq` changes nothing, unless it
passes all tests without being harmless. -/
theorem run_duplicate_unchanged (sk : Sock) (hfresh : sk.Fresh) (es : List Event) (th : Segment)
    (hdup : Duplicate (sk.run es) th) (hok : Passes (sk.run es) th → Harmless (sk.run es) th)
    (sentSeq : Option Seq) (b b' : Buff) :
    Unchanged (sk.run es) ((sk.run es).step (.rcv th sentSeq b b')) :=
  unchanged_tcpRcv (hfresh.inv_run es) hdup hok sentSeq b b'

def threeBytes : Segment where
  seq := 1001
  ackSeq := 501
  window := 4096
  urgPtr := 0
  syn := false
  fin := false
  rst := false
  psh := true
  ack := true
  urg := false
  header := List.replicate 20 0
  data := [1, 2, 3]
  memLen := 200
  header_len := by decide
  fits := by decide

def finSegment : Segment where
  seq := 1001
  ackSeq := 501
  window := 4096
  urgPtr := 0
  syn := false
  fin := true
  rst := false
  psh := false
  ack := true
  urg := false
  header := List.replicate 20 0
  data := []
  memLen := 200
  header_len := by decide
  fits := by decide

theorem run_duplicate_unchanged_threeBytes :
    Unchanged (smallBuffer.run [.rcv threeBytes none .ok .ok])
      ((smallBuffer.run [.rcv threeBytes none .ok .ok]).step (.rcv threeBytes none .ok .ok)) := by
  apply run_duplicate_unchanged smallBuffer smallBuffer_fresh
  · exact ⟨by decide, rfl, rfl, by decide, by decide⟩
  · intro _
    exact ⟨by decide, rfl, by decide, by decide, by decide⟩

/-- A FIN that comes a second time resets the connection. -/
theorem fin_twice_changes :
    ¬∀ (sk : Sock), sk.Fresh → ∀ (es : List Event) (th : Segment) (sentSeq : Option Seq)
      (b b' : Buff), Duplicate (sk.run es) th →
        (∃ earlier later, es = earlier ++ .rcv th sentSeq b b' :: later ∧
          (sk.run earlier).acceptable th = true) →
            Unchanged (sk.run es) ((sk.run es).step (.rcv th sentSeq b b')) := by
  intro h
  have hfin := h smallBuffer smallBuffer_fresh
    [.rcv finSegment none .ok .ok] finSegment none .ok .ok
    ⟨by decide, rfl, rfl, by decide, by decide⟩ ⟨[], [], rfl, by decide⟩
  have herr : (smallBuffer.run [.rcv finSegment none .ok .ok]).err = 0 := by decide
  have herr' : ((smallBuffer.run [.rcv finSegment none .ok .ok]).step
      (.rcv finSegment none .ok .ok)).err = epipe := by decide
  have hsame := hfin.err
  exact absurd hsame (by decide)

end LinuxKernel.Tcp
