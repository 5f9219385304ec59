import LinuxKernel.TcpHandshake

/-!
# What keeps the marks in the stream

`urg_seq`, `urg_data`, `copied_seq` and `fin_seq` are changed by few functions.  The lemmas say
so for the others.
-/

namespace LinuxKernel.Tcp

def Sock.marks (sk : Sock) : Seq × UrgData × Seq × Seq :=
  (sk.urgSeq, sk.urgData, sk.copiedSeq, sk.finSeq)

/-- Nothing is learnt about the peer's stream; urgent data may be read or passed. -/
structure Quiet (sk sk' : Sock) : Prop where
  urgSeq : sk'.urgSeq = sk.urgSeq
  urgData : sk'.urgData = sk.urgData ∨ sk'.urgData = .none ∨ sk'.urgData = .read
  finSeq : sk'.finSeq = sk.finSeq

section Frame

variable {sk sk' sk'' : Sock} {th : Segment}

section
variable (h : sk'.marks = sk.marks)
include h

theorem urgSeq_of_marks : sk'.urgSeq = sk.urgSeq :=
  congrArg (fun marks : Seq × UrgData × Seq × Seq => marks.1) h

theorem urgData_of_marks : sk'.urgData = sk.urgData :=
  congrArg (fun marks : Seq × UrgData × Seq × Seq => marks.2.1) h

theorem copiedSeq_of_marks : sk'.copiedSeq = sk.copiedSeq :=
  congrArg (fun marks : Seq × UrgData × Seq × Seq => marks.2.2.1) h

theorem finSeq_of_marks : sk'.finSeq = sk.finSeq :=
  congrArg (fun marks : Seq × UrgData × Seq × Seq => marks.2.2.2) h

theorem Quiet.of_marks : Quiet sk sk' :=
  ⟨urgSeq_of_marks h, Or.inl (urgData_of_marks h), finSeq_of_marks h⟩

end

theorem Quiet.trans (h : Quiet sk sk') (h' : Quiet sk' sk'') : Quiet sk sk'' := by
  refine ⟨h'.urgSeq.trans h.urgSeq, ?_, h'.finSeq.trans h.finSeq⟩
  rcases h'.urgData with hsame | hgone
  · rw [hsame]
    exact h.urgData
  · exact Or.inr hgone

section
variable (sk : Sock)

@[simp] theorem marks_rfree (n : ℕ) : (sk.rfree n).marks = sk.marks := rfl

@[simp] theorem marks_tcpSendAck (b : Buff) : (sk.tcpSendAck b).marks = sk.marks := by
  unfold Sock.tcpSendAck
  split
  · rfl
  · cases b <;> rfl

@[simp] theorem marks_tcpReadWakeup (b : Buff) : (sk.tcpReadWakeup b).marks = sk.marks := by
  unfold Sock.tcpReadWakeup
  split
  · rfl
  · cases b <;> rfl

@[simp] theorem marks_tcpWriteWakeup (b : Buff) : (sk.tcpWriteWakeup b).marks = sk.marks := by
  unfold Sock.tcpWriteWakeup
  split_ifs
  · rfl
  · rfl
  · cases b <;> rfl

@[simp] theorem marks_refuse (th : Segment) (b : Buff) : (sk.refuse th b).marks = sk.marks := by
  unfold Sock.refuse
  split
  · rfl
  · exact marks_tcpSendAck sk b

theorem marks_tcpAck (th : Segment) (sentSeq : Option Seq) (b : Buff) :
    (sk.tcpAck th sentSeq b).1.marks = sk.marks := by
  have hend : ∀ sk2 : Sock, (sk2.tcpSendAck b).shutdownAll.marks = sk2.marks :=
    fun sk2 => marks_tcpSendAck sk2 b
  unfold Sock.tcpAck
  dsimp only
  split_ifs <;> first | rfl | exact hend _

theorem marks_tcpAckHandshake (th : Segment) (sentSeq : Option Seq) :
    (sk.tcpAckHandshake th sentSeq).1.marks = sk.marks := by
  unfold Sock.tcpAckHandshake
  dsimp only
  split_ifs <;> rfl

@[simp] theorem marks_ackSkb (skb : Skb) : (sk.ackSkb skb).marks = sk.marks := by
  unfold Sock.ackSkb
  split_ifs <;> rfl

@[simp] theorem marks_ackLater (l : List Skb) : (sk.ackLater l).1.marks = sk.marks := by
  induction l generalizing sk with
  | nil => rfl
  | cons skb rest ih =>
    unfold Sock.ackLater
    split_ifs
    · rw [ih]
      exact marks_ackSkb sk skb
    · rfl

@[simp] theorem marks_discard (l : List Skb) : (sk.discard l).marks = sk.marks := by
  induction l generalizing sk with
  | nil => rfl
  | cons skb rest ih =>
    unfold Sock.discard
    split_ifs
    · rw [ih]
      rfl
    · rfl

theorem marks_tcpDataAck (skb : Skb) (earlier later : List Skb) (b : Buff) :
    (sk.tcpDataAck skb earlier later b).marks = sk.marks := by
  have hacked : ((sk.ackSkb skb).ackLater later).1.marks = sk.marks := by simp
  unfold Sock.tcpDataAck
  split
  · rw [marks_tcpSendAck]
    refine Eq.trans ?_ hacked
    split <;> rfl
  · refine Eq.trans (marks_tcpSendAck _ b) ?_
    exact marks_discard ..

theorem marks_tcpDataQueue (th : Segment) (b : Buff) : (sk.tcpDataQueue th b).marks = sk.marks := by
  unfold Sock.tcpDataQueue
  dsimp only
  generalize hsk : (if Seq.before (sk.rfree (placeFreed th.skb sk.rqueue.reverse)).ackedSeq
    (sk.rfree (placeFreed th.skb sk.rqueue.reverse)).copiedSeq = true then _ else _ : Sock) = sk1
  have h1 : sk1.marks = sk.marks := by
    rw [← hsk]
    split <;> rfl
  split
  · exact (marks_tcpDataAck ..).trans h1
  · exact (marks_tcpDataAck ..).trans h1

@[simp] theorem marks_tcpData (th : Segment) (b : Buff) : (sk.tcpData th b).marks = sk.marks := by
  unfold Sock.tcpData
  dsimp only
  split
  · split
    · rfl
    · exact marks_tcpSendAck ..
  · split
    · rfl
    · exact marks_tcpDataQueue ..

theorem marks_tcpFin (th : Segment) :
    (sk.tcpFin th).marks = (sk.urgSeq, sk.urgData, sk.copiedSeq, (sk.tcpFin th).finSeq) := by
  unfold Sock.tcpFin
  split <;> rfl

theorem marks_readNothing (nonblock : Bool) : (sk.readNothing nonblock).1.marks = sk.marks := by
  unfold Sock.readNothing
  split_ifs <;> rfl

theorem marks_cleanupRbuf (b : Buff) : (sk.cleanupRbuf b).marks = sk.marks := by
  unfold Sock.cleanupRbuf
  dsimp only
  split_ifs
  · rfl
  · exact marks_tcpReadWakeup ..
  · rfl

theorem quiet_readFrom (peek : Bool) (seq : Seq) (passed : List Skb) (skb : Skb) (rest : List Skb)
    (len : ℕ) : Quiet sk (sk.readFrom peek seq passed skb rest len) := by
  refine ⟨rfl, ?_, rfl⟩
  change (if _ then UrgData.none else sk.urgData) = sk.urgData ∨
    (if _ then UrgData.none else sk.urgData) = UrgData.none ∨ _
  generalize (if peek then sk.copiedSeq else _) = copiedSeq
  split
  · exact Or.inr (Or.inl rfl)
  · exact Or.inl rfl

theorem quiet_tcpReadLoop (peek nonblock : Bool) (fuel len : ℕ) (peekSeq : Seq)
    (out : List UInt8) (sk : Sock) :
    Quiet sk (sk.tcpReadLoop peek nonblock fuel len peekSeq out).1 := by
  induction fuel generalizing sk len peekSeq out with
  | zero => exact Quiet.of_marks rfl
  | succ fuel ih =>
    unfold Sock.tcpReadLoop
    dsimp only
    generalize (if peek then peekSeq else sk.copiedSeq) = seq
    split
    · exact Quiet.of_marks rfl
    split
    · exact Quiet.of_marks rfl
    split
    · split
      · exact Quiet.of_marks rfl
      · exact Quiet.of_marks (marks_readNothing ..)
    · split
      · split
        · exact Quiet.of_marks rfl
        · exact Quiet.of_marks (marks_readNothing ..)
      · exact (quiet_readFrom ..).trans (ih ..)

theorem quiet_tcpRead (peek : Option Seq) (len : ℕ) (nonblock : Bool) (b : Buff) :
    Quiet sk (sk.tcpRead peek len nonblock b).1 := by
  unfold Sock.tcpRead
  split
  · exact Quiet.of_marks rfl
  · exact (quiet_tcpReadLoop ..).trans (Quiet.of_marks (marks_cleanupRbuf ..))

theorem quiet_tcpReadUrg (peek nonblock : Bool) : Quiet sk (sk.tcpReadUrg peek nonblock).1 := by
  unfold Sock.tcpReadUrg
  split
  · exact Quiet.of_marks rfl
  · exact Quiet.of_marks rfl
  · split
    · exact Quiet.of_marks rfl
    · split
      · exact Quiet.of_marks rfl
      · exact ⟨rfl, Or.inr (Or.inr rfl), rfl⟩
  · split_ifs <;> exact Quiet.of_marks rfl

theorem quiet_step (e : Event) (he : ∀ th sentSeq b b', e ≠ .rcv th sentSeq b b') :
    Quiet sk (sk.step e) := by
  cases e with
  | rcv th sentSeq b b' => exact absurd rfl (he th sentSeq b b')
  | read len nonblock b => exact quiet_tcpRead sk none len nonblock b
  | peek seq len nonblock b => exact quiet_tcpRead sk (some seq) len nonblock b
  | interrupted b => exact Quiet.of_marks (marks_cleanupRbuf sk b)
  | readUrg peek nonblock => exact quiet_tcpReadUrg sk peek nonblock
  | readWakeup b => exact Quiet.of_marks (marks_tcpReadWakeup sk b)
  | write copy => exact Quiet.of_marks rfl
  | transmit sentSeq => exact Quiet.of_marks rfl
  | shutdown rcv send =>
    apply Quiet.of_marks
    change (sk.inetShutdown rcv send).marks = _
    unfold Sock.inetShutdown
    split_ifs <;> rfl
  | shutdownFin b direct =>
    apply Quiet.of_marks
    change (sk.tcpShutdown b direct).marks = _
    unfold Sock.tcpShutdown
    split
    · rfl
    · cases b <;> rfl
  | close timeout b direct =>
    apply Quiet.of_marks
    change (sk.tcpClose timeout b direct).marks = _
    unfold Sock.tcpClose
    dsimp only
    split <;> first | rfl | (split_ifs <;> rfl) | (cases b <;> rfl)
  | closeLater =>
    apply Quiet.of_marks
    change sk.tcpCloseLater.marks = _
    unfold Sock.tcpCloseLater
    split <;> rfl
  | writeWakeup b => exact Quiet.of_marks (marks_tcpWriteWakeup sk b)
  | timeClose => exact Quiet.of_marks rfl
  | timedOut => exact Quiet.of_marks rfl
  | accept => exact Quiet.of_marks rfl
  | setErr err => exact Quiet.of_marks rfl
  | setRcvbuf val => exact Quiet.of_marks rfl
  | setUrginline urginline => exact Quiet.of_marks rfl

end

end Frame

end LinuxKernel.Tcp
