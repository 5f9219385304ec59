import LinuxKernel.TcpUrgent

/-!
# The sequence number of the FIN

`tcp_fin` notes in `fin_seq` the number after that of the first byte of the segment.  The tests of
`tcp_ack` and `tcp_data` compare it with `acked_seq`, which the FIN moves behind its data.
-/

namespace LinuxKernel.Tcp

def Segment.finEnd (th : Segment) : Seq :=
  th.seq + BitVec.ofNat 32 (th.syn.toNat + th.data.length) + 1

/-- `tcp_fin` notes a FIN that comes in this state; a socket that is shut down for receiving is
reset before. -/
def Sock.Notes (sk : Sock) : Prop :=
  (sk.state = .established ∨ sk.state = .finWait1) ∧ sk.rcvShutdown = false

def Conn.NotesFin : Conn → ConnEvent → Prop
  | .synchronized sk, .step (.rcv th _ _ _) =>
    th.fin = true ∧ sk.Takes th ∧ sk.Notes ∧ sk.acceptable th = true ∧ th.syn = false ∧
      sk.ackDrops th = false
  | .handshake .synRecv sk, .handshake th _ _ _ _ _ _ =>
    th.fin = true ∧ sk.Takes th ∧ sk.rcvShutdown = false ∧ sk.acceptable th = true ∧
      th.ack = true ∧ sk.badAck th = false
  | _, _ => False

def Conn.NotesNoFin : Conn → List ConnEvent → Prop
  | _, [] => True
  | c, e :: es => ¬c.NotesFin e ∧ (c.step e).NotesNoFin es

section Steps

variable {sk sk' : Sock} {th : Segment}

theorem not_notes (st : State) (hstate : sk.state = st) (hne : st ≠ .established)
    (hne' : st ≠ .finWait1) : ¬sk.Notes := by
  rintro ⟨hest | hfin, _⟩
  · exact hne (hstate.symm.trans hest)
  · exact hne' (hstate.symm.trans hfin)

section
variable (sk : Sock)

theorem notes_tcpAck (th : Segment) (sentSeq : Option Seq) (b : Buff) :
    (sk.tcpAck th sentSeq b).1.Notes ↔ sk.Notes := by
  unfold Sock.tcpAck
  dsimp only
  split
  · exact Iff.rfl
  · generalize hsk : (if sk.maxWindow < th.window.toNat then
      { sk with maxWindow := th.window.toNat, mss := min th.window.toNat sk.mtu } else sk) = sk1
    have h1 : sk1.Notes ↔ sk.Notes := by
      rw [← hsk]
      split <;> exact Iff.rfl
    rw [← h1]
    split
    · split <;> exact Iff.rfl
    · generalize hsk : (if sk1.state = .timeWait ∧ th.ackSeq = sk1.writeSeq ∧
          sk1.ackedSeq = sk1.finSeq then _ else _ : Sock) = sk2
      have h2 : sk2.Notes ↔ sk1.Notes := by
        rw [← hsk]
        split
        · next htime =>
          exact iff_of_false (not_notes .close rfl (by decide) (by decide))
            (not_notes .timeWait htime.1 (by decide) (by decide))
        · exact Iff.rfl
      rw [← h2]
      split
      · next hclosing =>
        -- The states that close are not those in which a FIN is noted.
        have hnot : ¬sk2.Notes := by
          rcases hclosing.1 with hlast | hwait
          · exact not_notes .lastAck hlast (by decide) (by decide)
          · exact not_notes .finWait2 hwait (by decide) (by decide)
        split
        · exact iff_of_false (not_notes .timeWait rfl (by decide) (by decide)) hnot
        · exact iff_of_false (not_notes .close rfl (by decide) (by decide)) hnot
      · exact Iff.rfl

theorem notes_tcpUrg (th : Segment) : (sk.tcpUrg th).Notes ↔ sk.Notes := by
  have hcore := (core_tcpUrg sk th).1
  unfold Sock.core at hcore
  simp only [Prod.mk.injEq] at hcore
  unfold Sock.Notes
  rw [hcore.1, hcore.2.2.2.2.1]

theorem state_ackSkb (skb : Skb) : (sk.ackSkb skb).state = sk.state := by
  unfold Sock.ackSkb
  split_ifs <;> rfl

theorem state_ackLater (l : List Skb) : (sk.ackLater l).1.state = sk.state := by
  induction l generalizing sk with
  | nil => rfl
  | cons skb rest ih =>
    unfold Sock.ackLater
    split_ifs
    · rw [ih]
      exact state_ackSkb sk skb
    · rfl

theorem state_tcpSendAck (b : Buff) : (sk.tcpSendAck b).state = sk.state :=
  congrArg Prod.fst (core_tcpSendAck sk b).1

theorem state_tcpDataAck (skb : Skb) (earlier later : List Skb) (b : Buff) :
    (sk.tcpDataAck skb earlier later b).state = sk.state := by
  have hacked : ((sk.ackSkb skb).ackLater later).1.state = sk.state :=
    (state_ackLater ..).trans (state_ackSkb sk skb)
  unfold Sock.tcpDataAck
  split
  · rw [state_tcpSendAck]
    refine Eq.trans ?_ hacked
    split <;> rfl
  · refine Eq.trans (state_tcpSendAck _ b) ?_
    obtain ⟨_, _, _, _, hdiscard⟩ := Sock.discard_eq sk (earlier.reverse ++ skb :: later)
    rw [hdiscard]

theorem state_tcpDataQueue (th : Segment) (b : Buff) :
    (sk.tcpDataQueue th b).state = sk.state ∨
      sk.state = .finWait2 ∧ (sk.tcpDataQueue th b).state = .lastAck := by
  unfold Sock.tcpDataQueue
  dsimp only
  generalize hsk : (if Seq.before (sk.rfree (placeFreed th.skb sk.rqueue.reverse)).ackedSeq
    (sk.rfree (placeFreed th.skb sk.rqueue.reverse)).copiedSeq = true then _ else _ : Sock) = sk1
  have h1 : sk1.state = sk.state := by
    rw [← hsk]
    split <;> rfl
  have hacked (earlier later : List Skb) :
      (sk1.tcpDataAck th.skb earlier later b).state = sk.state :=
    (state_tcpDataAck ..).trans h1
  split
  · next hlast =>
    rw [hacked] at hlast
    exact Or.inr ⟨hlast.1, rfl⟩
  · exact Or.inl (hacked ..)

end

theorem finSeq_tcpFin_of_notes (h : sk.state = .established ∨ sk.state = .finWait1) :
    (sk.tcpFin th).finSeq = th.seq + 1 := by
  unfold Sock.tcpFin
  rcases h with h | h <;> rw [h]

theorem finSeq_tcpFin_of_not (h : sk.state ≠ .established) (h' : sk.state ≠ .finWait1) :
    (sk.tcpFin th).finSeq = sk.finSeq := by
  unfold Sock.tcpFin
  split <;> first | rfl | contradiction

section
variable (sk : Sock) (th : Segment)

theorem finSeq_tcpData_tcpFin (hfin : th.fin = true) (b : Buff) :
    (sk.Notes → ((sk.tcpData th b).tcpFin th).finSeq = th.seq + 1) ∧
      (¬sk.Notes → ((sk.tcpData th b).tcpFin th).finSeq = sk.finSeq) := by
  have hmarks := finSeq_of_marks (marks_tcpData sk th b)
  have hdata : (sk.Notes → (sk.tcpData th b).state = sk.state) ∧
      (¬sk.Notes → (sk.tcpData th b).state ≠ .established ∧
        (sk.tcpData th b).state ≠ .finWait1) := by
    unfold Sock.tcpData
    rw [if_neg (by simp [hfin])]
    split
    · next hshut =>
      refine ⟨fun hnotes => ?_, fun _ => ?_⟩
      · have hopen : sk.rcvShutdown = false := hnotes.2
        rw [hopen] at hshut
        exact absurd hshut Bool.false_ne_true
      · exact ⟨fun h => State.noConfusion h, fun h => State.noConfusion h⟩
    · next hopen =>
      rw [Bool.not_eq_true] at hopen
      let counted : Sock := { sk with bytesRcv := (sk.bytesRcv + th.data.length) % 65536 }
      rcases state_tcpDataQueue counted th b with hsame | ⟨hwait, hlast⟩
      · rw [hsame]
        refine ⟨fun _ => rfl, fun hnot => ?_⟩
        rw [← not_or]
        exact fun hstate => hnot ⟨hstate, hopen⟩
      · rw [hlast]
        refine ⟨fun hnotes => ?_, fun _ => ⟨by decide, by decide⟩⟩
        exact absurd hnotes (not_notes .finWait2 hwait (by decide) (by decide))
  constructor
  · intro hnotes
    apply finSeq_tcpFin_of_notes
    rw [hdata.1 hnotes]
    exact hnotes.1
  · intro hnot
    rw [finSeq_tcpFin_of_not (hdata.2 hnot).1 (hdata.2 hnot).2, hmarks]

theorem finSeq_tcpUrg : (sk.tcpUrg th).finSeq = sk.finSeq :=
  congrArg (fun core => core.2.2.2.1) (core_tcpUrg sk th).1

theorem finSeq_tcpRcvData (hzapped : sk.zapped = false) (sentSeq : Option Seq) (b b' : Buff) :
    (th.fin = true ∧ sk.Notes ∧ sk.ackDrops th = false →
        (sk.tcpRcvData th sentSeq b b').finSeq = th.seq + 1) ∧
      (¬(th.fin = true ∧ sk.Notes ∧ sk.ackDrops th = false) →
        (sk.tcpRcvData th sentSeq b b').finSeq = sk.finSeq) := by
  unfold Sock.tcpRcvData
  dsimp only
  generalize hacked : (if th.ack then sk.tcpAck th sentSeq b else (sk, true)) = acked
  have hmarks : acked.1.finSeq = sk.finSeq := by
    rw [← hacked]
    split
    · exact finSeq_of_marks (marks_tcpAck ..)
    · rfl
  have hnotes : (acked.1.tcpUrg th).Notes ↔ sk.Notes := by
    rw [notes_tcpUrg, ← hacked]
    split
    · exact notes_tcpAck ..
    · exact Iff.rfl
  have hdrops : sk.ackDrops th = false ↔ acked.2 = true := by
    rw [← hacked, ← not_iff_not, Bool.not_eq_false, Bool.not_eq_true]
    split
    · next hack => exact (tcpAck_drops_iff hack hzapped sentSeq b).symm
    · next hack => simp [Sock.ackDrops, hack]
  rw [hdrops]
  split
  · next hdropped =>
    rw [hdropped]
    exact ⟨fun h => absurd h.2.2 Bool.false_ne_true, fun _ => hmarks⟩
  · next hpassed =>
    rw [Bool.not_eq_false] at hpassed
    split
    · next hfin =>
      obtain ⟨hnoted, hnot⟩ := finSeq_tcpData_tcpFin (acked.1.tcpUrg th) th hfin b'
      refine ⟨fun h => hnoted (hnotes.mpr h.2.1), fun h => ?_⟩
      rw [hnot fun hn => h ⟨hfin, hnotes.mp hn, hpassed⟩, finSeq_tcpUrg, hmarks]
    · next hfin =>
      refine ⟨fun h => absurd h.1 hfin, fun _ => ?_⟩
      rw [finSeq_of_marks (marks_tcpData ..), finSeq_tcpUrg, hmarks]

theorem finSeq_tcpRcv (sentSeq : Option Seq) (b b' : Buff) :
    ((Conn.synchronized sk).NotesFin (.step (.rcv th sentSeq b b')) →
        (sk.tcpRcv th sentSeq b b').finSeq = th.seq + 1) ∧
      (¬(Conn.synchronized sk).NotesFin (.step (.rcv th sentSeq b b')) →
        (sk.tcpRcv th sentSeq b b').finSeq = sk.finSeq) := by
  have hdropped : ∀ {sk' : Sock}, sk'.finSeq = sk.finSeq →
      ¬(Conn.synchronized sk).NotesFin (.step (.rcv th sentSeq b b')) →
        ((Conn.synchronized sk).NotesFin (.step (.rcv th sentSeq b b')) → sk'.finSeq = th.seq + 1) ∧
        (¬(Conn.synchronized sk).NotesFin (.step (.rcv th sentSeq b b')) →
          sk'.finSeq = sk.finSeq) :=
    fun heq hnot => ⟨fun h => absurd h hnot, fun _ => heq⟩
  unfold Sock.tcpRcv
  split
  · next hzapped =>
    refine hdropped rfl ?_
    rintro ⟨_, htakes, _⟩
    exact Bool.false_ne_true (htakes.found.symm.trans hzapped)
  · next hzapped =>
    rw [Bool.not_eq_true] at hzapped
    split
    · next hroom =>
      refine hdropped rfl ?_
      rintro ⟨_, htakes, _⟩
      exact absurd htakes.room (by omega)
    · next hroom =>
      unfold Sock.tcpRcvState
      split
      · next hclose =>
        refine hdropped rfl ?_
        rintro ⟨_, _, hnotes, _⟩
        exact not_notes .close hclose (by decide) (by decide) hnotes
      split
      · next hlast =>
        refine hdropped rfl ?_
        rintro ⟨_, _, hnotes, _⟩
        exact not_notes .lastAck hlast.1 (by decide) (by decide) hnotes
      split
      · next haccept =>
        refine hdropped (finSeq_of_marks (marks_refuse ..)) ?_
        rintro ⟨_, _, _, haccepted, _⟩
        exact Bool.false_ne_true (haccept.symm.trans haccepted)
      split
      · next hrst =>
        refine hdropped rfl ?_
        rintro ⟨_, htakes, _⟩
        exact Bool.false_ne_true (htakes.no_rst.symm.trans hrst)
      split
      · next hsyn =>
        refine hdropped rfl ?_
        rintro ⟨_, _, _, _, hno, _⟩
        exact Bool.false_ne_true (hno.symm.trans hsyn)
      · next haccept hrst hsyn =>
        rw [Bool.not_eq_true] at hrst hsyn
        rw [Bool.not_eq_false] at haccept
        let charged : Sock := { sk with rmemAlloc := sk.rmemAlloc + th.memLen }
        obtain ⟨hnoted, hnot⟩ := finSeq_tcpRcvData charged th hzapped sentSeq b b'
        refine ⟨fun h => hnoted ⟨h.1, h.2.2.1, h.2.2.2.2.2⟩, fun h => hnot ?_⟩
        rintro ⟨hfin, hnotes, hkept⟩
        exact h ⟨hfin, ⟨hzapped, by omega, hrst⟩, hnotes, haccept, hsyn, hkept⟩

theorem finSeq_run (sk : Sock) (es : List ConnEvent)
    (hno : (Conn.synchronized sk).NotesNoFin es) :
    ((Conn.synchronized sk).run es).sock.finSeq = sk.finSeq := by
  induction es generalizing sk with
  | nil => rfl
  | cons e es ih =>
    obtain ⟨hnot, hrest⟩ := hno
    cases e with
    | handshake th sentSeq sentSeq' mtu mss b b' => exact ih sk hrest
    | step e =>
      refine (ih (sk.step e) hrest).trans ?_
      by_cases hrcv : ∃ th sentSeq b b', e = .rcv th sentSeq b b'
      · obtain ⟨th, sentSeq, b, b', rfl⟩ := hrcv
        exact (finSeq_tcpRcv sk th sentSeq b b').2 hnot
      · apply Quiet.finSeq
        apply quiet_step
        intro th sentSeq b b' heq
        exact hrcv ⟨th, sentSeq, b, b', heq⟩

theorem notes_establish (sk : Sock) (mtu mss : ℕ) (hopen : sk.rcvShutdown = false) :
    (sk.establish mtu mss).Notes := by
  unfold Sock.establish
  dsimp only
  split <;> exact ⟨Or.inl rfl, hopen⟩

theorem rcvShutdown_tcpAckHandshake (sentSeq : Option Seq) :
    (sk.tcpAckHandshake th sentSeq).1.rcvShutdown = sk.rcvShutdown := by
  unfold Sock.tcpAckHandshake
  dsimp only
  split_ifs <;> rfl

theorem finSeq_tcpRcvHandshake (sentSeq sentSeq' : Option Seq) (mtu mss : ℕ) (b b' : Buff)
    (hnotes : (Conn.handshake .synRecv sk).NotesFin
      (.handshake th sentSeq sentSeq' mtu mss b b')) :
    ∃ sk', sk.tcpRcvHandshake .synRecv th sentSeq sentSeq' mtu mss b b' = .synchronized sk' ∧
      sk'.finSeq = th.seq + 1 := by
  obtain ⟨hfin, htakes, hopen, haccept, hack, hgood⟩ := hnotes
  have hfound := htakes.found
  have hroom := htakes.room
  let charged : Sock := { sk with rmemAlloc := sk.rmemAlloc + th.memLen }
  have hsnd : (charged.tcpAckHandshake th sentSeq).2 = true := by
    rw [tcpAckHandshake_snd]
    exact congrArg (! ·) hgood
  have hshut := rcvShutdown_tcpAckHandshake charged th sentSeq
  let established := (charged.tcpAckHandshake th sentSeq).1.establish mtu mss
  let urgent : Sock := if th.urg then established.tcpUrg th else established
  have hurgent : urgent.Notes := by
    have hestablished : established.Notes := notes_establish _ mtu mss (hshut.trans hopen)
    change (if th.urg then established.tcpUrg th else established : Sock).Notes
    split
    · exact (notes_tcpUrg established th).mpr hestablished
    · exact hestablished
  refine ⟨(urgent.tcpData th b').tcpFin th, ?_, (finSeq_tcpData_tcpFin urgent th hfin b').1 hurgent⟩
  have haccepted : ¬(Handshake.synRecv = .synRecv ∧ charged.acceptable th = false) := by
    rintro ⟨_, hrefused⟩
    exact Bool.false_ne_true (hrefused.symm.trans haccept)
  have hnoRst : ¬th.rst = true := by simp [htakes.no_rst]
  have hasAck : ¬th.ack = false := by simp [hack]
  have hfoundNot : ¬sk.zapped = true := by simp [hfound]
  unfold Sock.tcpRcvHandshake
  rw [if_neg hfoundNot, if_neg (by omega)]
  change charged.tcpRcvHandshakeState .synRecv th sentSeq sentSeq' mtu mss b b' = _
  unfold Sock.tcpRcvHandshakeState
  rw [if_neg haccepted, if_neg hnoRst, if_neg hasAck]
  unfold Sock.tcpRcvSynRecv
  dsimp only
  rw [if_neg (by simp [hsnd]), if_pos hfin]

end

theorem finSeq_of_notesFin (c : Conn) (e : ConnEvent) (th : Segment)
    (hth : e.segment? = some th) (hnotes : c.NotesFin e) :
    ∃ sk, c.step e = .synchronized sk ∧ sk.finSeq = th.seq + 1 := by
  cases c with
  | handshake state sk =>
    cases e with
    | step e => cases state <;> exact False.elim hnotes
    | handshake th' sentSeq sentSeq' mtu mss b b' =>
      obtain rfl : th' = th := Option.some.inj hth
      cases state with
      | synSent => exact False.elim hnotes
      | synRecv => exact finSeq_tcpRcvHandshake sk th' sentSeq sentSeq' mtu mss b b' hnotes
  | synchronized sk =>
    cases e with
    | handshake th' sentSeq sentSeq' mtu mss b b' => exact False.elim hnotes
    | step e =>
      cases e with
      | rcv th' sentSeq b b' =>
        obtain rfl : th' = th := Option.some.inj hth
        exact ⟨_, rfl, (finSeq_tcpRcv sk th' sentSeq b b').1 hnotes⟩
      | _ => exact absurd hth (by simp [ConnEvent.segment?])

end Steps

def finWithData : Segment := { threeBytes with fin := true }

end LinuxKernel.Tcp
