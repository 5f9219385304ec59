import LinuxKernel.TcpDuplicate
import LinuxKernel.TcpMarks

/-!
# The urgent byte

`tcp_urg` takes the urgent byte from the segment that comes in, at an offset that it computes
from the start of the header.  A segment that starts just after the awaited byte has its header
there, and a segment with a SYN has the byte one place further on.
-/

namespace LinuxKernel.Tcp
open List

def Segment.Carries (th : Segment) (s : Seq) (b : UInt8) : Prop :=
  ∃ k, th.data[k]? = some b ∧ s = th.seq + BitVec.ofNat 32 (th.syn.toNat + k)

def Segment.urgentSeq (th : Segment) : Seq := th.seq + BitVec.ofNat 32 (th.urgPtr.toNat - 1)

def Sock.Announces (sk : Sock) (th : Segment) : Prop :=
  th.urg = true ∧ Seq.after (sk.copiedSeq + 1) th.urgentSeq = false ∧
    (sk.urgData = .none ∨ Seq.after th.urgentSeq sk.urgSeq = true)

/-- A segment after the awaited byte does not start within the length of its header of it, and
the byte is not in the data of a segment with a SYN. -/
structure Sock.UrgentOk (sk : Sock) (th : Segment) : Prop where
  announced : sk.Announces th → th.syn = true → th.data.length ≤ th.urgPtr.toNat - 1
  after_byte : ¬sk.Announces th → sk.urgData = .notYet →
    (sk.urgSeq - th.seq).toNat + th.header.length < 4294967296
  with_syn : ¬sk.Announces th → sk.urgData = .notYet → th.syn = true →
    th.data.length ≤ (sk.urgSeq - th.seq).toNat

section Segments

variable {sk sk' : Sock} {th : Segment}

theorem tcpCheckUrg_of_announces (h : sk.Announces th) :
    sk.tcpCheckUrg th = { sk with urgData := .notYet, urgSeq := th.urgentSeq } := by
  obtain ⟨_, hcopied, hnew⟩ := h
  have hptr : BitVec.ofNat 32 (th.urgPtr.toNat - 1) + th.seq = th.urgentSeq := BitVec.add_comm ..
  unfold Sock.tcpCheckUrg
  rw [hptr, if_neg (by rw [hcopied]; exact Bool.false_ne_true), if_neg]
  rintro ⟨hpending, hold⟩
  rcases hnew with hnone | hafter
  · exact hpending hnone
  · exact hold hafter

theorem tcpCheckUrg_of_not (h : ¬sk.Announces th) (hurg : th.urg = true) :
    sk.tcpCheckUrg th = sk := by
  have hptr : BitVec.ofNat 32 (th.urgPtr.toNat - 1) + th.seq = th.urgentSeq := BitVec.add_comm ..
  unfold Sock.tcpCheckUrg
  dsimp only
  rw [hptr]
  split_ifs with hcopied hold
  · rfl
  · rfl
  · refine absurd ⟨hurg, ?_, ?_⟩ h
    · exact Bool.not_eq_true _ ▸ hcopied
    · by_contra hnew
      rw [not_or] at hnew
      exact hold hnew

def Sock.takeUrgent (sk : Sock) (th : Segment) : Sock :=
  if sk.urgData ≠ .notYet then sk
  else
    let ptr := (sk.urgSeq - th.seq + BitVec.ofNat 32 th.header.length).toNat
    match (th.header ++ th.data)[ptr]? with
    | none => sk
    | some b => { sk with urgData := .valid b }

theorem tcpUrg_eq (sk : Sock) (th : Segment) :
    sk.tcpUrg th = (if th.urg then sk.tcpCheckUrg th else sk).takeUrgent th := rfl

theorem tcpUrg_of_announces (h : sk.Announces th) :
    sk.tcpUrg th = { sk with urgData := .notYet, urgSeq := th.urgentSeq : Sock }.takeUrgent th := by
  rw [tcpUrg_eq, if_pos h.1, tcpCheckUrg_of_announces h]

theorem tcpUrg_of_not (h : ¬sk.Announces th) : sk.tcpUrg th = sk.takeUrgent th := by
  rw [tcpUrg_eq]
  split_ifs with hurg
  · rw [tcpCheckUrg_of_not h hurg]
  · rfl

theorem takeUrgent_carries
    (hheader : (sk.urgSeq - th.seq).toNat + th.header.length < 4294967296)
    (hsyn : th.syn = true → th.data.length ≤ (sk.urgSeq - th.seq).toNat)
    (hpending : sk.urgData = .notYet) {b : UInt8}
    (hvalid : (sk.takeUrgent th).urgData = .valid b) : th.Carries sk.urgSeq b := by
  have hptr : (sk.urgSeq - th.seq + BitVec.ofNat 32 th.header.length).toNat =
      th.header.length + (sk.urgSeq - th.seq).toNat := by
    rw [BitVec.toNat_add, BitVec.toNat_ofNat, Nat.add_mod_mod, Nat.mod_eq_of_lt (by omega)]
    omega
  unfold Sock.takeUrgent at hvalid
  rw [if_neg (not_not.mpr hpending)] at hvalid
  dsimp only at hvalid
  rw [hptr, List.getElem?_append_right (Nat.le_add_right ..), Nat.add_sub_cancel_left] at hvalid
  split at hvalid
  · rw [hpending] at hvalid
    exact UrgData.noConfusion hvalid
  · next c hbyte =>
    obtain rfl : c = b := UrgData.valid.inj hvalid
    cases hs : th.syn with
    | true =>
      rw [List.getElem?_eq_none (hsyn hs)] at hbyte
      exact absurd hbyte (by simp)
    | false =>
      refine ⟨_, hbyte, ?_⟩
      rw [hs, Bool.toNat_false, Nat.zero_add, BitVec.ofNat_toNat, BitVec.setWidth_eq]
      exact (add_sub_cancel th.seq sk.urgSeq).symm

theorem takeUrgent_urgSeq (sk : Sock) (th : Segment) : (sk.takeUrgent th).urgSeq = sk.urgSeq := by
  unfold Sock.takeUrgent
  split_ifs
  · rfl
  · dsimp only
    split <;> rfl

theorem takeUrgent_urgData (hpending : sk.urgData ≠ .notYet) : sk.takeUrgent th = sk := by
  unfold Sock.takeUrgent
  rw [if_pos hpending]

structure Learns (th : Segment) (sk sk' : Sock) : Prop where
  valid : ∀ b, sk'.urgData = .valid b →
    th.Carries sk'.urgSeq b ∨ sk.urgData = .valid b ∧ sk'.urgSeq = sk.urgSeq
  forward : sk.urgData ≠ .none → sk'.urgSeq = sk.urgSeq ∨ Seq.after sk'.urgSeq sk.urgSeq = true

theorem learns_tcpUrg (hok : sk.UrgentOk th) (hdoff : th.header.length ≤ 60) :
    Learns th sk (sk.tcpUrg th) := by
  by_cases h : sk.Announces th
  · rw [tcpUrg_of_announces h]
    have hdistance : (th.urgentSeq - th.seq).toNat = th.urgPtr.toNat - 1 := by
      have hbound := th.urgPtr.toNat_lt
      unfold Segment.urgentSeq
      rw [add_sub_cancel_left, BitVec.toNat_ofNat]
      omega
    constructor
    · intro b hvalid
      left
      rw [takeUrgent_urgSeq]
      refine takeUrgent_carries ?_ ?_ rfl hvalid
      · have hbound := th.urgPtr.toNat_lt
        change (th.urgentSeq - th.seq).toNat + _ < _
        omega
      · intro hsyn
        rw [hdistance]
        exact hok.announced h hsyn
    · intro hpending
      rw [takeUrgent_urgSeq]
      exact .inr (h.2.2.resolve_left hpending)
  · rw [tcpUrg_of_not h]
    constructor
    · intro b hvalid
      by_cases hpending : sk.urgData = .notYet
      · left
        rw [takeUrgent_urgSeq]
        exact takeUrgent_carries (hok.after_byte h hpending) (hok.with_syn h hpending)
          hpending hvalid
      · rw [takeUrgent_urgData hpending] at hvalid ⊢
        exact .inr ⟨hvalid, rfl⟩
    · intro _
      exact .inl (takeUrgent_urgSeq sk th)

end Segments

/-! ### Segments that arrive -/

section Arrivals

variable {sk sk1 sk2 sk' : Sock} {th : Segment}

theorem Quiet.learns (h : Quiet sk sk') (th : Segment) : Learns th sk sk' := by
  refine ⟨fun b hvalid => ?_, fun _ => .inl h.urgSeq⟩
  rcases h.urgData with hsame | hnone | hread
  · exact .inr ⟨hsame ▸ hvalid, h.urgSeq⟩
  · rw [hnone] at hvalid
    exact UrgData.noConfusion hvalid
  · rw [hread] at hvalid
    exact UrgData.noConfusion hvalid

theorem Learns.congr (h : Learns th sk1 sk2) (hseq : sk1.urgSeq = sk.urgSeq)
    (hdata : sk1.urgData = sk.urgData) (hseq' : sk'.urgSeq = sk2.urgSeq)
    (hdata' : sk'.urgData = sk2.urgData) : Learns th sk sk' := by
  refine ⟨fun b hvalid => ?_, fun hpending => ?_⟩
  · rw [hseq', ← hseq, ← hdata]
    exact h.valid b (hdata' ▸ hvalid)
  · rw [hseq', ← hseq]
    exact h.forward (hdata ▸ hpending)

theorem UrgentOk.congr (h : sk.UrgentOk th) (hseq : sk'.urgSeq = sk.urgSeq)
    (hdata : sk'.urgData = sk.urgData) (hcopied : sk'.copiedSeq = sk.copiedSeq) :
    sk'.UrgentOk th := by
  have hannounces : sk'.Announces th ↔ sk.Announces th := by
    unfold Sock.Announces
    rw [hseq, hdata, hcopied]
  refine ⟨fun hnew => h.announced (hannounces.mp hnew), fun hold => ?_, fun hold => ?_⟩
  · rw [hseq, hdata]
    exact h.after_byte fun hnew => hold (hannounces.mpr hnew)
  · rw [hseq, hdata]
    exact h.with_syn fun hnew => hold (hannounces.mpr hnew)

theorem tcpDataFin_marks (sk : Sock) (th : Segment) (b : Buff) :
    (if th.fin then (sk.tcpData th b).tcpFin th else sk.tcpData th b).urgSeq = sk.urgSeq ∧
      (if th.fin then (sk.tcpData th b).tcpFin th else sk.tcpData th b).urgData = sk.urgData := by
  have hdata := marks_tcpData sk th b
  split
  · have hfin := marks_tcpFin (sk.tcpData th b) th
    exact ⟨(congrArg Prod.fst hfin).trans (urgSeq_of_marks hdata),
      (congrArg (fun marks => marks.2.1) hfin).trans (urgData_of_marks hdata)⟩
  · exact ⟨urgSeq_of_marks hdata, urgData_of_marks hdata⟩

structure Sock.Takes (sk : Sock) (th : Segment) : Prop where
  found : sk.zapped = false
  room : sk.rmemAlloc + th.memLen < sk.rcvbuf
  no_rst : th.rst = false

theorem tcpAck_drops_iff (hack : th.ack = true) (hzapped : sk.zapped = false)
    (sentSeq : Option Seq) (b : Buff) :
    (sk.tcpAck th sentSeq b).2 = false ↔ sk.ackDrops th = true := by
  unfold Sock.ackDrops Sock.badAck
  simp only [hack, Bool.true_and, Bool.and_eq_true, Bool.or_eq_true, decide_eq_true_eq]
  unfold Sock.tcpAck
  dsimp only
  rw [if_neg (by rw [hzapped]; exact Bool.false_ne_true)]
  generalize hsk : (if sk.maxWindow < th.window.toNat then
    { sk with maxWindow := th.window.toNat, mss := min th.window.toNat sk.mtu } else sk) = sk1
  have hsame : sk1.sentSeq = sk.sentSeq ∧ sk1.rcvAckSeq = sk.rcvAckSeq ∧ sk1.state = sk.state := by
    rw [← hsk]
    split <;> exact ⟨rfl, rfl, rfl⟩
  obtain ⟨hsent, hrcvAck, hstate⟩ := hsame
  rw [hsent, hrcvAck, hstate]
  split
  · next hbad =>
    split
    · next hbeyond => exact iff_of_true rfl ⟨hbad, hbeyond⟩
    · next hbeyond => exact iff_of_false Bool.noConfusion fun h => hbeyond h.2
  · next hbad =>
    have hpassed : ∀ {x : Sock × Bool}, x.2 = true → (x.2 = false ↔
        (Seq.after th.ackSeq (sk.sentSeq + 1) = true ∨
          Seq.before th.ackSeq (sk.rcvAckSeq - 1) = true) ∧
          (Seq.after th.ackSeq sk.sentSeq = true ∨
            ¬sk.state = .established ∧ ¬sk.state = .closeWait)) := by
      intro x hx
      rw [hx]
      exact iff_of_false Bool.noConfusion fun h => hbad h.1
    apply hpassed
    split_ifs <;> rfl

theorem learns_tcpRcvData (hok : sk.ackDrops th = false → sk.UrgentOk th)
    (hzapped : sk.zapped = false) (hdoff : th.header.length ≤ 60) (sentSeq : Option Seq)
    (b b' : Buff) : Learns th sk (sk.tcpRcvData th sentSeq b b') := by
  unfold Sock.tcpRcvData
  dsimp only
  generalize hacked : (if th.ack then sk.tcpAck th sentSeq b else (sk, true)) = acked
  have hmarks : acked.1.marks = sk.marks := by
    rw [← hacked]
    split
    · exact marks_tcpAck ..
    · rfl
  split
  · exact (Quiet.of_marks (by rw [marks_rfree, hmarks])).learns th
  · next hpassed =>
    have hkept : sk.ackDrops th = false := by
      rw [← Bool.not_eq_true]
      intro hdrops
      apply hpassed
      rw [← hacked]
      have hack : th.ack = true := by
        unfold Sock.ackDrops at hdrops
        simp only [Bool.and_eq_true] at hdrops
        exact hdrops.1.1
      rw [if_pos hack]
      exact (tcpAck_drops_iff hack hzapped sentSeq b).mpr hdrops
    have hafter := tcpDataFin_marks (acked.1.tcpUrg th) th b'
    exact (learns_tcpUrg (UrgentOk.congr (hok hkept) (urgSeq_of_marks hmarks)
      (urgData_of_marks hmarks) (copiedSeq_of_marks hmarks)) hdoff).congr
      (urgSeq_of_marks hmarks) (urgData_of_marks hmarks) hafter.1 hafter.2

def Conn.UrgentOk : Conn → ConnEvent → Prop
  | .synchronized sk, .step (.rcv th _ _ _) =>
    sk.Takes th → sk.state ≠ .close → sk.acceptable th = true → th.syn = false →
      sk.ackDrops th = false → sk.UrgentOk th
  | .handshake .synSent sk, .handshake th _ _ _ _ _ _ =>
    sk.Takes th → th.ack = true → th.syn = true → sk.badAck th = false → th.urg = true →
      { sk with copiedSeq := th.seq }.UrgentOk th
  | .handshake .synRecv sk, .handshake th _ _ _ _ _ _ =>
    sk.Takes th → sk.acceptable th = true → th.ack = true → sk.badAck th = false →
      th.urg = true → { sk with copiedSeq := sk.ackedSeq - 1 }.UrgentOk th
  | _, _ => True

theorem learns_tcpRcv {sentSeq : Option Seq} {b b' : Buff}
    (hok : (Conn.synchronized sk).UrgentOk (.step (.rcv th sentSeq b b')))
    (hdoff : th.header.length ≤ 60) : Learns th sk (sk.tcpRcv th sentSeq b b') := by
  have hquiet : ∀ {sk' : Sock}, sk'.marks = sk.marks → Learns th sk sk' :=
    fun h => (Quiet.of_marks h).learns th
  unfold Sock.tcpRcv
  split
  · exact hquiet rfl
  · next hzapped =>
    rw [Bool.not_eq_true] at hzapped
    split
    · exact hquiet rfl
    · next hroom =>
      unfold Sock.tcpRcvState
      split
      · exact hquiet rfl
      split
      · exact hquiet rfl
      split
      · exact hquiet (marks_refuse ..)
      split
      · exact hquiet rfl
      split
      · exact hquiet rfl
      · next hclose _ haccept hrst hsyn =>
        rw [Bool.not_eq_true] at hrst hsyn
        rw [Bool.not_eq_false] at haccept
        have htakes : sk.Takes th := ⟨hzapped, by omega, hrst⟩
        let charged : Sock := { sk with rmemAlloc := sk.rmemAlloc + th.memLen }
        have hcharged : charged.ackDrops th = false → charged.UrgentOk th :=
          fun hkept => UrgentOk.congr (hok htakes hclose haccept hsyn hkept) rfl rfl rfl
        have hdata : Learns th charged (charged.tcpRcvData th sentSeq b b') :=
          learns_tcpRcvData hcharged hzapped hdoff sentSeq b b'
        exact hdata.congr rfl rfl rfl rfl

theorem tcpAckHandshake_snd (sk : Sock) (th : Segment) (sentSeq : Option Seq) :
    (sk.tcpAckHandshake th sentSeq).2 = !sk.badAck th := by
  unfold Sock.tcpAckHandshake Sock.badAck
  dsimp only
  generalize hsk : (if sk.maxWindow < th.window.toNat then
    { sk with maxWindow := th.window.toNat, mss := min th.window.toNat sk.mtu } else sk) = sk1
  have hsame : sk1.sentSeq = sk.sentSeq ∧ sk1.rcvAckSeq = sk.rcvAckSeq := by
    rw [← hsk]
    split <;> exact ⟨rfl, rfl⟩
  rw [hsame.1, hsame.2]
  split
  · next hbad =>
    rw [← Bool.or_eq_true] at hbad
    rw [hbad]
    rfl
  · next hgood =>
    rw [← Bool.or_eq_true, Bool.not_eq_true] at hgood
    rw [hgood]
    rfl

theorem ackedSeq_tcpAckHandshake (sk : Sock) (th : Segment) (sentSeq : Option Seq) :
    (sk.tcpAckHandshake th sentSeq).1.ackedSeq = sk.ackedSeq := by
  unfold Sock.tcpAckHandshake
  dsimp only
  split_ifs <;> rfl

theorem marks_establish (sk : Sock) (mtu mss : ℕ) :
    (sk.establish mtu mss).marks = (sk.urgSeq, sk.urgData, sk.ackedSeq - 1, sk.finSeq) := by
  unfold Sock.establish
  dsimp only
  split_ifs <;> rfl

theorem learns_tcpRcvSynRecv {state : Handshake} {sentSeq : Option Seq} {mtu mss : ℕ} {b : Buff}
    (hok : sk.badAck th = false → th.urg = true →
      { sk with copiedSeq := sk.ackedSeq - 1 }.UrgentOk th)
    (hdoff : th.header.length ≤ 60) :
    Learns th sk (sk.tcpRcvSynRecv state th sentSeq mtu mss b).sock := by
  have hacked := marks_tcpAckHandshake sk th sentSeq
  have hackedSeq := ackedSeq_tcpAckHandshake sk th sentSeq
  have hsnd := tcpAckHandshake_snd sk th sentSeq
  unfold Sock.tcpRcvSynRecv
  dsimp only
  generalize sk.tcpAckHandshake th sentSeq = acked at *
  split
  · have hfreed : (acked.1.rfree th.memLen).marks = sk.marks := hacked
    exact (Quiet.of_marks hfreed).learns th
  · next hpassed =>
    have hgood : sk.badAck th = false := by
      rw [hsnd, Bool.not_eq_false, Bool.not_eq_true'] at hpassed
      exact hpassed
    have hestablished := marks_establish acked.1 mtu mss
    rw [hackedSeq, urgSeq_of_marks hacked, urgData_of_marks hacked] at hestablished
    generalize acked.1.establish mtu mss = sk1 at *
    have hseq : sk1.urgSeq = sk.urgSeq := congrArg Prod.fst hestablished
    have hdata : sk1.urgData = sk.urgData := congrArg (fun marks => marks.2.1) hestablished
    have hcopied : sk1.copiedSeq = sk.ackedSeq - 1 :=
      congrArg (fun marks => marks.2.2.1) hestablished
    have hurg : Learns th sk1 (if th.urg then sk1.tcpUrg th else sk1) := by
      split
      · next hset => exact learns_tcpUrg (UrgentOk.congr (hok hgood hset) hseq hdata hcopied) hdoff
      · exact (Quiet.of_marks rfl).learns th
    have hafter := tcpDataFin_marks (if th.urg then sk1.tcpUrg th else sk1) th b
    exact hurg.congr hseq hdata hafter.1 hafter.2

theorem ackedSeq_tcpSendAck (sk : Sock) (b : Buff) : (sk.tcpSendAck b).ackedSeq = sk.ackedSeq := by
  unfold Sock.tcpSendAck
  split
  · rfl
  · cases b <;> rfl

theorem learns_tcpRcvHandshake {state : Handshake} {sentSeq sentSeq' : Option Seq} {mtu mss : ℕ}
    {b b' : Buff}
    (hok : (Conn.handshake state sk).UrgentOk (.handshake th sentSeq sentSeq' mtu mss b b'))
    (hdoff : th.header.length ≤ 60) :
    Learns th sk (sk.tcpRcvHandshake state th sentSeq sentSeq' mtu mss b b').sock := by
  have hquiet : ∀ {sk' : Sock}, sk'.marks = sk.marks → Learns th sk sk' :=
    fun h => (Quiet.of_marks h).learns th
  unfold Sock.tcpRcvHandshake
  split
  · exact hquiet rfl
  · next hzapped =>
    rw [Bool.not_eq_true] at hzapped
    split
    · exact hquiet rfl
    · next hroom =>
      let charged : Sock := { sk with rmemAlloc := sk.rmemAlloc + th.memLen }
      unfold Sock.tcpRcvHandshakeState
      split
      · exact hquiet (marks_refuse charged th b')
      split
      · exact hquiet rfl
      split
      · exact hquiet rfl
      · next haccept hrst hack =>
        rw [Bool.not_eq_true] at hrst
        rw [Bool.not_eq_false] at hack
        have htakes : sk.Takes th := ⟨hzapped, by omega, hrst⟩
        cases state with
        | synSent =>
          dsimp only
          have hacked := marks_tcpAckHandshake charged th sentSeq
          have hsnd : (charged.tcpAckHandshake th sentSeq).2 = !sk.badAck th :=
            tcpAckHandshake_snd charged th sentSeq
          generalize charged.tcpAckHandshake th sentSeq = acked at *
          split
          · exact hquiet hacked
          · next hpassed =>
            rw [not_or, Bool.not_eq_false, Bool.not_eq_false] at hpassed
            have hgood : sk.badAck th = false := by
              rw [hsnd, Bool.not_eq_true'] at hpassed
              exact hpassed.1
            let synced : Sock := { acked.1 with ackedSeq := th.seq + 1, finSeq := th.seq }
            have hsent := marks_tcpSendAck synced b
            have hseq1 : acked.1.urgSeq = sk.urgSeq := (urgSeq_of_marks hacked : _ = charged.urgSeq)
            have hdata1 : acked.1.urgData = sk.urgData :=
              (urgData_of_marks hacked : _ = charged.urgData)
            have hseq := (urgSeq_of_marks hsent).trans hseq1
            have hdata := (urgData_of_marks hsent).trans hdata1
            have hackedSeq : (synced.tcpSendAck b).ackedSeq - 1 = th.seq := by
              rw [ackedSeq_tcpSendAck]
              exact add_sub_cancel_right th.seq 1
            have hsynced : (synced.tcpSendAck b).badAck th = false → th.urg = true →
                { synced.tcpSendAck b with
                  copiedSeq := (synced.tcpSendAck b).ackedSeq - 1 : Sock }.UrgentOk th :=
              fun _ hurg =>
                UrgentOk.congr (hok htakes hack hpassed.2 hgood hurg) hseq hdata hackedSeq
            exact (learns_tcpRcvSynRecv hsynced hdoff).congr hseq hdata rfl rfl
        | synRecv =>
          have haccepted : sk.acceptable th = true := by
            rw [← Bool.not_eq_false]
            exact fun hrefused => haccept ⟨rfl, hrefused⟩
          have hcharged : charged.badAck th = false → th.urg = true →
              { charged with copiedSeq := charged.ackedSeq - 1 : Sock }.UrgentOk th :=
            fun hgood hurg => UrgentOk.congr (hok htakes haccepted hack hgood hurg) rfl rfl rfl
          exact (learns_tcpRcvSynRecv hcharged hdoff).congr rfl rfl rfl rfl

end Arrivals

/-! ### Runs -/

def ConnEvent.segment? : ConnEvent → Option Segment
  | .handshake th _ _ _ _ _ _ => some th
  | .step (.rcv th _ _ _) => some th
  | .step _ => none

def Conn.RunUrgentOk : Conn → List ConnEvent → Prop
  | _, [] => True
  | c, e :: es => c.UrgentOk e ∧ (c.step e).RunUrgentOk es

def arrived (es : List ConnEvent) : List Segment := es.filterMap ConnEvent.segment?

def Known (ths : List Segment) (c : Conn) : Prop :=
  ∀ b, c.sock.urgData = .valid b → ∃ th ∈ ths, th.Carries c.sock.urgSeq b

section Runs

variable {c : Conn} {e : ConnEvent} {es : List ConnEvent} {ths : List Segment}

theorem step_urgent (hok : c.UrgentOk e) (hdoff : ∀ th ∈ e.segment?, th.header.length ≤ 60) :
    Quiet c.sock (c.step e).sock ∨ ∃ th ∈ e.segment?, Learns th c.sock (c.step e).sock := by
  cases c with
  | handshake state sk =>
    cases e with
    | handshake th sentSeq sentSeq' mtu mss b b' =>
      exact .inr ⟨th, rfl, learns_tcpRcvHandshake hok (hdoff th rfl)⟩
    | step e => exact .inl (Quiet.of_marks rfl)
  | synchronized sk =>
    cases e with
    | handshake th sentSeq sentSeq' mtu mss b b' => exact .inl (Quiet.of_marks rfl)
    | step e =>
      by_cases hrcv : ∃ th sentSeq b b', e = .rcv th sentSeq b b'
      · obtain ⟨th, sentSeq, b, b', rfl⟩ := hrcv
        exact .inr ⟨th, rfl, learns_tcpRcv hok (hdoff th rfl)⟩
      · left
        apply quiet_step
        intro th sentSeq b b' heq
        exact hrcv ⟨th, sentSeq, b, b', heq⟩

theorem Known.step (h : Known ths c) (hok : c.UrgentOk e)
    (hdoff : ∀ th ∈ e.segment?, th.header.length ≤ 60) :
    Known (ths ++ e.segment?.toList) (c.step e) := by
  have hlearns : ∀ {th : Segment}, Learns th c.sock (c.step e).sock →
      ∀ b, (c.step e).sock.urgData = .valid b →
        th.Carries (c.step e).sock.urgSeq b ∨ ∃ th ∈ ths, th.Carries (c.step e).sock.urgSeq b := by
    intro th hth b hvalid
    rcases hth.valid b hvalid with hcarries | ⟨hold, hseq⟩
    · exact .inl hcarries
    · rw [hseq]
      exact .inr (h b hold)
  intro b hvalid
  rcases step_urgent hok hdoff with hquiet | ⟨th, hmem, hth⟩
  · rcases hquiet.urgData with hsame | hnone | hread
    · obtain ⟨th, hmem, hcarries⟩ := h b (hsame ▸ hvalid)
      exact ⟨th, mem_append_left _ hmem, hquiet.urgSeq ▸ hcarries⟩
    · rw [hnone] at hvalid
      exact UrgData.noConfusion hvalid
    · rw [hread] at hvalid
      exact UrgData.noConfusion hvalid
  · rcases hlearns hth b hvalid with hcarries | ⟨th', hmem', hcarries⟩
    · exact ⟨th, mem_append_right _ (Option.mem_toList.mpr hmem), hcarries⟩
    · exact ⟨th', mem_append_left _ hmem', hcarries⟩

theorem Known.run (h : Known ths c) (hok : c.RunUrgentOk es)
    (hdoff : ∀ th ∈ arrived es, th.header.length ≤ 60) :
    Known (ths ++ arrived es) (c.run es) := by
  induction es generalizing c ths with
  | nil =>
    change Known (ths ++ []) c
    rw [append_nil]
    exact h
  | cons e es ih =>
    have harrived : arrived (e :: es) = e.segment?.toList ++ arrived es := by
      unfold arrived
      rw [filterMap_cons]
      cases e.segment? <;> rfl
    rw [harrived] at hdoff ⊢
    rw [← append_assoc]
    refine ih (h.step hok.1 fun th hmem => hdoff th ?_) hok.2 fun th hmem => hdoff th ?_
    · exact mem_append_left _ (Option.mem_toList.mpr hmem)
    · exact mem_append_right _ hmem

theorem run_append (c : Conn) (es es' : List ConnEvent) :
    c.run (es ++ es') = (c.run es).run es' := by
  induction es generalizing c with
  | nil => rfl
  | cons e es ih => exact ih (c.step e)

theorem Conn.RunUrgentOk.before {es' : List ConnEvent} (h : c.RunUrgentOk (es ++ es')) :
    c.RunUrgentOk es := by
  induction es generalizing c with
  | nil => trivial
  | cons e es ih => exact ⟨h.1, ih h.2⟩

theorem Conn.RunUrgentOk.last (h : c.RunUrgentOk (es ++ [e])) : (c.run es).UrgentOk e := by
  induction es generalizing c with
  | nil => exact h.1
  | cons e es ih => exact ih h.2

end Runs

def pointsAhead : Segment := { threeBytes with urg := true, urgPtr := 8 }

def startsAfter : Segment := { threeBytes with seq := 1009 }

def pointsInside : Segment := { threeBytes with urg := true, urgPtr := 2 }

end LinuxKernel.Tcp
