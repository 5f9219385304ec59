import LinuxKernel.TcpDuplicate

/-!
# A segment that `tcp_data` takes

Either the segment starts at or before `acked_seq`; then `acked_seq` goes to the end of what is
contiguous now and nothing is lost but what the segment replaces.  Or it starts further on; then
`acked_seq` stays, and what is not acknowledged may go for lack of room.
-/

namespace LinuxKernel.Tcp
open List

structure Settled (a : Seq) (l : List Skb) : Prop where
  sorted : l.Pairwise fun p q => p.pos a ≤ q.pos a
  near : ∀ q ∈ l, -536870912 ≤ q.pos a ∧ q.pos a ≤ 536870912
  acks : ∀ q ∈ l, q.acked = true ↔ q.pos a ≤ 0
  ends : ∀ q ∈ l, q.acked = true → q.pos a + q.th.span ≤ 0

/-- A step from one queue to another that takes a segment and moves `acked_seq` by `d`; `lost` are
the buffers that are not on the queue afterwards, and `short` says that there was no room. -/
structure Taken (a : Seq) (l l' : List Skb) (th : Segment) (d : ℕ) (lost : List Skb)
    (short : Prop) : Prop where
  moved_le : d ≤ 98303
  segments : (((th.skb :: l).map (·.th) : List Segment) : Multiset Segment) =
    ((l'.map (·.th) : List Segment) : Multiset Segment) +
      ((lost.map (·.th) : List Segment) : Multiset Segment)
  near : ∀ q ∈ l', q.Near a
  sorted : l'.Pairwise fun p q => p.pos a ≤ q.pos a
  acks : ∀ q ∈ l', q.acked = true ↔ q.pos a ≤ d
  ends : ∀ q ∈ l', q.acked = true → q.pos a + q.th.span ≤ d
  covered : ∀ x, 0 ≤ x → x < (d : ℤ) → ∃ q ∈ l', q.pos a ≤ x ∧ x < q.pos a + q.th.span
  keeps : ∀ q ∈ l, q.acked = true → q ∈ l' ∨
    (q.seq = th.seq ∧ q.len ≤ th.data.length ∧ ∃ p ∈ l', p.th = th ∧ p.acked = true)
  reasons : ∀ q ∈ lost, (q.seq = th.seq ∧ q.len ≤ th.data.length) ∨
    (q.acked = false ∧ 0 < q.pos a ∧ short)
  takes : th.skb.pos a ≤ 0 → ∃ p ∈ l', p.th = th ∧ p.acked = true

section taken

variable {sk : Sock} {th : Segment} {a c : Seq} {w : ℕ} {l : List Skb}

theorem QueueOk.settled (h : QueueOk a c w l) (hw : w < 65536) : Settled a l := by
  refine ⟨h.sorted, ?_, ?_, h.acked_le⟩
  · intro q hq
    obtain ⟨hlower, hupper⟩ := h.near hw hq
    omega
  · intro q hq
    constructor
    · intro hacked
      have := h.acked_le q hq hacked
      omega
    · exact h.acks q hq

theorem Taken.settled {l' lost : List Skb} {d : ℕ} {short : Prop}
    (h : Taken a l l' th d lost short) : Settled (a + BitVec.ofNat 32 d) l' := by
  have hmoved := h.moved_le
  have hpos : ∀ q ∈ l', q.pos (a + BitVec.ofNat 32 d) = q.pos a - d :=
    fun q hq => Skb.pos_add q (h.near q hq).1 hmoved
  refine ⟨?_, ?_, ?_, ?_⟩
  · refine h.sorted.imp_of_mem ?_
    intro p q hp hq hle
    rw [hpos p hp, hpos q hq]
    omega
  · intro q hq
    obtain ⟨hlower, hupper⟩ := h.near q hq
    rw [hpos q hq]
    omega
  · intro q hq
    rw [hpos q hq, h.acks q hq]
    omega
  · intro q hq hacked
    have := h.ends q hq hacked
    rw [hpos q hq]
    omega

theorem Sock.ackLater_swept (hw : sk.window < 65536)
    (hl : ∀ q ∈ l, q.Queued sk.ackedSeq sk.window)
    (hsorted : l.Pairwise fun p q => p.pos sk.ackedSeq ≤ q.pos sk.ackedSeq) {d : ℕ}
    (hd : d ≤ sk.window + 32748) (shut : Bool) (backlog : UInt8) :
    ∃ (d' : ℕ) (shut' : Bool) (backlog' : UInt8) (l1 l2 : List Skb),
      d ≤ d' ∧ d' ≤ sk.window + 32748 ∧ l = l1 ++ l2 ∧
      (sk.moved d shut backlog).ackLater l = (sk.moved d' shut' backlog', l1.map Skb.ackIt ++ l2) ∧
      (∀ q ∈ l1, q.pos sk.ackedSeq ≤ d' ∧ q.pos sk.ackedSeq + q.th.span ≤ d') ∧
      (∀ q ∈ l2, (d' : ℤ) < q.pos sk.ackedSeq) ∧
      ∀ x, (d : ℤ) ≤ x → x < d' →
        ∃ q ∈ l1, q.pos sk.ackedSeq ≤ x ∧ x < q.pos sk.ackedSeq + q.th.span := by
  induction l generalizing d shut backlog with
  | nil =>
    exact ⟨d, shut, backlog, [], [], Nat.le_refl _, hd, rfl, rfl, by simp, by simp, by omega⟩
  | cons q l ih =>
    have hq := hl q mem_cons_self
    have hlow := hq.lower
    have hpos := Skb.pos_add q hlow (d := d) (by omega)
    have hiff : Seq.before q.seq ((sk.moved d shut backlog).ackedSeq + 1) = true ↔
        q.pos sk.ackedSeq ≤ d := by
      rw [Seq.before_succ_iff]
      · change q.pos (sk.ackedSeq + BitVec.ofNat 32 d) ≤ 0 ↔ _
        omega
      · change -2147483648 < q.pos (sk.ackedSeq + BitVec.ofNat 32 d)
        omega
    rw [pairwise_cons] at hsorted
    unfold Sock.ackLater
    by_cases hbefore : Seq.before q.seq ((sk.moved d shut backlog).ackedSeq + 1) = true
    · rw [if_pos hbefore]
      rw [hiff] at hbefore
      obtain ⟨e, he, hack⟩ := Sock.moved_ackSkb hw hd hq shut backlog
      have hle := hq.upper
      have hspan := hq.span_le
      obtain ⟨d', shut', backlog', l1, l2, hdd', hd', rfl, heq, hswept, hrest, hcovered⟩ :=
        ih (fun p hp => hl p (mem_cons_of_mem q hp)) hsorted.2 (d := d + e) (by omega)
          (shut || q.th.fin) sk.maxAckBacklog
      have hturn : ({ (sk.moved d shut backlog).ackSkb q with
          ackBacklog := (sk.moved d shut backlog).maxAckBacklog } : Sock) =
          sk.moved (d + e) (shut || q.th.fin) sk.maxAckBacklog := by
        rw [hack]
        rfl
      refine ⟨d', shut', backlog', q :: l1, l2, by omega, hd', rfl, ?_, ?_, hrest, ?_⟩
      · dsimp only
        rw [hturn, heq]
        rfl
      · intro p hp
        rcases mem_cons.mp hp with rfl | hp
        · omega
        · exact hswept p hp
      · intro x hx hx'
        by_cases hnear : x < ((d + e : ℕ) : ℤ)
        · exact ⟨q, mem_cons_self, by omega, by omega⟩
        · obtain ⟨p, hp, hcover⟩ := hcovered x (by omega) hx'
          exact ⟨p, mem_cons_of_mem q hp, hcover⟩
    · rw [if_neg hbefore]
      rw [hiff] at hbefore
      refine ⟨d, shut, backlog, [], q :: l, Nat.le_refl _, hd, rfl, rfl, by simp, ?_, by omega⟩
      intro p hp
      rcases mem_cons.mp hp with rfl | hp
      · omega
      · have := hsorted.1 p hp
        omega

theorem Sock.discard_short (sk : Sock) (l : List Skb) :
    ∃ l1 l2 : List Skb, l = l1 ++ l2 ∧ (∀ q ∈ l1, q.acked = false) ∧
      (l1 ≠ [] → sk.rspace < sk.mtu) ∧ (sk.discard l).rqueue = l2 ∧
      (sk.discard l).ackedSeq = sk.ackedSeq := by
  cases l with
  | nil => exact ⟨[], [], rfl, by simp, by simp, rfl, rfl⟩
  | cons q rest =>
    obtain ⟨l1, l2, hl, hacked, hdiscard⟩ := sk.discard_eq (q :: rest)
    refine ⟨l1, l2, hl, hacked, ?_, by rw [hdiscard], by rw [hdiscard]⟩
    intro hne
    by_contra hroom
    -- With room the loop stops at once.
    have hstop : (sk.discard (q :: rest)).rqueue = q :: rest := by
      unfold Sock.discard
      rw [if_neg fun h => hroom h.1]
    rw [hdiscard] at hstop
    change l2 = q :: rest at hstop
    rw [hl] at hstop
    have hlength := congrArg List.length hstop
    rw [length_append] at hlength
    exact hne (length_eq_zero_iff.mp (by omega))

/-- There is less room than one segment may take, once the segment with the same number is
dropped. -/
def Sock.Short (sk : Sock) (th : Segment) : Prop :=
  (sk.rfree (placeFreed th.skb sk.rqueue.reverse)).rspace < sk.mtu

/-- The queue that `tcp_data` puts the segment on, before anything is acknowledged. -/
structure Placed (a : Seq) (w : ℕ) (l : List Skb) (th : Segment)
    (earlier later dropped : List Skb) : Prop where
  split : l = earlier.reverse ++ dropped ++ later
  same : ∀ q ∈ dropped, q.seq = th.seq ∧ q.len ≤ th.data.length
  acked_le : ∀ q ∈ l, q.acked = true → q.pos a ≤ 0
  base : ∃ c, QueueBase a c w (earlier.reverse ++ th.skb :: later)
  near : ∀ q ∈ earlier.reverse ++ th.skb :: later, q.Near a
  earlier_acks : ∀ q ∈ earlier, q.pos a ≤ 0 → q.acked = true
  later_acks : ∀ q ∈ later, q.pos a ≤ 0 → q.acked = true

section placed

variable {earlier later dropped : List Skb}

theorem Placed.segments (h : Placed a w l th earlier later dropped) :
    (((th.skb :: l).map (·.th) : List Segment) : Multiset Segment) =
      (((earlier.reverse ++ th.skb :: later).map (·.th) : List Segment) : Multiset Segment) +
        ((dropped.map (·.th) : List Segment) : Multiset Segment) := by
  rw [h.split]
  simp only [map_cons, map_append, ← Multiset.cons_coe, ← Multiset.coe_add,
    Multiset.add_cons, Multiset.cons_add]
  abel

section
variable (h : Placed sk.ackedSeq sk.window l th earlier later dropped)
include h

theorem Placed.taken_front (hw : sk.window < 65536) (hpos : th.skb.pos sk.ackedSeq ≤ 0)
    (short : Prop) :
    ∃ d, Taken sk.ackedSeq l
        (earlier.reverse ++ { th.skb with acked := true } :: ((sk.ackSkb th.skb).ackLater later).2)
        th d dropped short ∧
      ((sk.ackSkb th.skb).ackLater later).1.ackedSeq = sk.ackedSeq + BitVec.ofNat 32 d := by
  obtain ⟨c, hbase⟩ := h.base
  have hq : th.skb ∈ earlier.reverse ++ th.skb :: later := mem_append_right _ mem_cons_self
  have hin : ∀ p ∈ later, p ∈ earlier.reverse ++ th.skb :: later := fun p hp =>
    mem_append_right _ (mem_cons_of_mem _ hp)
  have hspan := hbase.span_le hq
  have hsorted := pairwise_append.mp hbase.sorted
  have hsorted' := pairwise_cons.mp hsorted.2.1
  obtain ⟨e, he, hack⟩ := Sock.ackSkb_moved sk (hbase.rel_ackSeq hw hq)
  obtain ⟨d, shut, backlog, l1, l2, hle, hd, rfl, heq, hswept, hrest, hcovered⟩ :=
    Sock.ackLater_swept hw (fun p hp => hbase.queued (hin p hp)) hsorted'.2 (d := e) (by omega)
      (sk.rcvShutdown || th.skb.th.fin) sk.ackBacklog
  rw [hack, heq]
  have hmem : ∀ q ∈ earlier.reverse ++ { th.skb with acked := true } :: (l1.map Skb.ackIt ++ l2),
      q ∈ earlier ∨ q = { th.skb with acked := true } ∨ (∃ p ∈ l1, q = p.ackIt) ∨ q ∈ l2 := by
    intro q hq
    rw [mem_append, mem_reverse, mem_cons, mem_append, mem_map] at hq
    rcases hq with hq | rfl | ⟨p, hp, rfl⟩ | hq
    · exact .inl hq
    · exact .inr (.inl rfl)
    · exact .inr (.inr (.inl ⟨p, hp, rfl⟩))
    · exact .inr (.inr (.inr hq))
  have hearlier : ∀ q ∈ earlier, q.pos sk.ackedSeq ≤ th.skb.pos sk.ackedSeq := fun q hq =>
    hsorted.2.2 q (mem_reverse.mpr hq) th.skb mem_cons_self
  refine ⟨d, ⟨by omega, ?_, ?_, ?_, ?_, ?_, ?_, ?_, fun q hq => .inl (h.same q hq), ?_⟩, rfl⟩
  · rw [h.segments]
    simp only [map_append, map_cons, map_map]
    rfl
  · intro q hq
    rcases hmem q hq with hq | rfl | ⟨p, hp, rfl⟩ | hq
    · exact h.near q (mem_append_left _ (mem_reverse.mpr hq))
    · exact h.near th.skb (mem_append_right _ mem_cons_self)
    · exact h.near p (hin p (mem_append_left _ hp))
    · exact h.near q (hin q (mem_append_right _ hq))
  · have hpositions : ∀ m : List Skb,
        (m.Pairwise fun p q => p.pos sk.ackedSeq ≤ q.pos sk.ackedSeq) ↔
        (m.map (Skb.pos sk.ackedSeq)).Pairwise (· ≤ ·) := fun m => pairwise_map.symm
    have hold := hbase.sorted
    rw [hpositions] at hold ⊢
    simp only [map_append, map_cons, map_map] at hold ⊢
    exact hold
  · intro q hq
    rcases hmem q hq with hq | rfl | ⟨p, hp, rfl⟩ | hq
    · have hle' := hearlier q hq
      rw [h.earlier_acks q hq (by omega)]
      exact iff_of_true rfl (by omega)
    · change true = true ↔ th.skb.pos sk.ackedSeq ≤ d
      exact iff_of_true rfl (by omega)
    · exact iff_of_true rfl (hswept p hp).1
    · have hbeyond := hrest q hq
      refine iff_of_false ?_ (by omega)
      intro hacked
      have := hbase.acked_le q (hin q (mem_append_right _ hq)) hacked
      omega
  · intro q hq hacked
    rcases hmem q hq with hq | rfl | ⟨p, hp, rfl⟩ | hq
    · have := hbase.acked_le q (mem_append_left _ (mem_reverse.mpr hq)) hacked
      omega
    · change th.skb.pos sk.ackedSeq + th.skb.th.span ≤ d
      omega
    · exact (hswept p hp).2
    · have := hbase.acked_le q (hin q (mem_append_right _ hq)) hacked
      omega
  · intro x hx hx'
    by_cases hnear : x < e
    · refine ⟨{ th.skb with acked := true }, mem_append_right _ mem_cons_self, ?_, ?_⟩
      · change th.skb.pos sk.ackedSeq ≤ x
        omega
      · change x < th.skb.pos sk.ackedSeq + th.skb.th.span
        omega
    · obtain ⟨p, hp, hcover⟩ := hcovered x (by omega) hx'
      refine ⟨p.ackIt, ?_, hcover⟩
      exact mem_append_right _ (mem_cons_of_mem _
        (mem_append_left _ (mem_map_of_mem hp)))
  · intro q hq hacked
    rw [h.split, mem_append, mem_append] at hq
    have hself : q.ackIt = q := by
      unfold Skb.ackIt
      rw [← hacked]
    rcases hq with (hq | hq) | hq
    · exact .inl (mem_append_left _ hq)
    · refine .inr ⟨(h.same q hq).1, (h.same q hq).2, { th.skb with acked := true }, ?_, rfl, rfl⟩
      exact mem_append_right _ mem_cons_self
    · left
      refine mem_append_right _ (mem_cons_of_mem _ ?_)
      rcases mem_append.mp hq with hq | hq
      · exact mem_append_left _ (mem_map.mpr ⟨q, hq, hself⟩)
      · exact mem_append_right _ hq
  · intro _
    exact ⟨{ th.skb with acked := true }, mem_append_right _ mem_cons_self, rfl, rfl⟩

theorem Placed.taken_beyond (hpos : 0 < th.skb.pos sk.ackedSeq) :
    ∃ lost, Taken sk.ackedSeq l (sk.discard (earlier.reverse ++ th.skb :: later)).rqueue th 0
      lost (sk.rspace < sk.mtu) ∧
        (sk.discard (earlier.reverse ++ th.skb :: later)).ackedSeq = sk.ackedSeq := by
  obtain ⟨c, hbase⟩ := h.base
  obtain ⟨l1, l2, hl, hunacked, hshort, hqueue, hacked⟩ :=
    sk.discard_short (earlier.reverse ++ th.skb :: later)
  have hacks : ∀ q ∈ earlier.reverse ++ th.skb :: later,
      q.acked = true ↔ q.pos sk.ackedSeq ≤ 0 := by
    intro q hq
    constructor
    · intro hflag
      have := hbase.acked_le q hq hflag
      omega
    · intro hle
      rw [mem_append, mem_reverse, mem_cons] at hq
      rcases hq with hq | rfl | hq
      · exact h.earlier_acks q hq hle
      · omega
      · exact h.later_acks q hq hle
  have hin : ∀ q ∈ l2, q ∈ earlier.reverse ++ th.skb :: later := by
    intro q hq
    rw [hl]
    exact mem_append_right _ hq
  rw [hqueue]
  refine ⟨dropped ++ l1, ⟨by omega, ?_, fun q hq => h.near q (hin q hq), ?_, ?_, ?_, by omega, ?_,
    ?_, by omega⟩, hacked⟩
  · rw [h.segments, hl]
    simp only [map_append, ← Multiset.coe_add]
    abel
  · have hsorted := hbase.sorted
    rw [hl, pairwise_append] at hsorted
    exact hsorted.2.1
  · intro q hq
    exact_mod_cast hacks q (hin q hq)
  · intro q hq hflag
    exact_mod_cast hbase.acked_le q (hin q hq) hflag
  · intro q hq hflag
    left
    have hkept : q ∈ earlier.reverse ++ th.skb :: later := by
      rw [h.split, mem_append, mem_append] at hq
      rcases hq with (hq | hq) | hq
      · exact mem_append_left _ hq
      · have hle := h.acked_le q (by rw [h.split]; simp [hq]) hflag
        have hseq : q.seq = th.skb.seq := (h.same q hq).1
        rw [Skb.pos_eq_of_seq hseq] at hle
        exact absurd hle (not_le.mpr hpos)
      · exact mem_append_right _ (mem_cons_of_mem _ hq)
    rw [hl] at hkept
    rcases mem_append.mp hkept with hq' | hq'
    · rw [hunacked q hq'] at hflag
      exact absurd hflag Bool.false_ne_true
    · exact hq'
  · intro q hq
    rcases mem_append.mp hq with hq | hq
    · exact .inl (h.same q hq)
    · right
      have hq' : q ∈ earlier.reverse ++ th.skb :: later := by
        rw [hl]
        exact mem_append_left _ hq
      have hflag := hunacked q hq
      refine ⟨hflag, ?_, hshort (ne_nil_of_mem hq)⟩
      by_contra hle
      rw [(hacks q hq').mpr (by omega)] at hflag
      exact absurd hflag Bool.noConfusion

end

end placed

def Sock.front (sk : Sock) : Seq × List Skb := (sk.ackedSeq, sk.rqueue)

theorem Sock.front_tcpSendAck (sk : Sock) (b : Buff) : (sk.tcpSendAck b).front = sk.front := by
  unfold Sock.tcpSendAck
  split
  · rfl
  · cases b <;> rfl

theorem Sock.tcpDataQueue_taken (h : Kept False sk th.memLen) (hopen : sk.rcvShutdown = false)
    (hsyn : th.syn = false) (hfits : Fits sk th) (b : Buff) :
    ∃ d lost, Taken sk.ackedSeq sk.rqueue (sk.tcpDataQueue th b).front.2 th d lost
        (sk.Short th) ∧
      (sk.tcpDataQueue th b).front.1 = sk.ackedSeq + BitVec.ofNat 32 d := by
  have hok := h.queue hopen
  have hw := h.window
  have hmemory := h.memory
  have hroom := h.room
  obtain ⟨hbase, hearlier, hlater⟩ := h.inserted hopen hsyn hfits
  obtain ⟨dropped, hsplit, hsame, -, -⟩ := place_split th.skb sk.rqueue.reverse []
  rw [reverse_reverse, append_nil] at hsplit
  have hcopied := before_copied hok
  unfold Sock.tcpDataQueue Sock.Short
  dsimp only
  rw [if_neg (show ¬Seq.before (sk.rfree (placeFreed th.skb sk.rqueue.reverse)).ackedSeq
    (sk.rfree (placeFreed th.skb sk.rqueue.reverse)).copiedSeq = true from hcopied)]
  generalize place th.skb sk.rqueue.reverse [] = placed at *
  obtain ⟨earlier, later⟩ := placed
  have hplaced : Placed sk.ackedSeq sk.window sk.rqueue th earlier later dropped := by
    refine ⟨hsplit, fun q hq => ⟨(hsame q hq).1.symm, (hsame q hq).2⟩, ?_, ⟨_, hbase⟩,
      fun q hq => hbase.near hw hq, hearlier, hlater⟩
    intro q hq hacked
    have := hok.acked_le q hq hacked
    omega
  have hq : th.skb ∈ earlier.reverse ++ th.skb :: later := mem_append_right _ mem_cons_self
  have hlower := hbase.lower hq
  have hiff : Seq.before th.skb.seq (sk.ackedSeq + 1) = true ↔ th.skb.pos sk.ackedSeq ≤ 0 :=
    Seq.before_succ_iff (by unfold Skb.pos at hlower; omega)
  generalize hfreed : sk.rfree (placeFreed th.skb sk.rqueue.reverse) = sk1
  have hfront : sk1.ackedSeq = sk.ackedSeq := by rw [← hfreed]; rfl
  have hwindow : sk1.window = sk.window := by rw [← hfreed]; rfl
  have hdata : ∃ d lost, Taken sk.ackedSeq sk.rqueue
      (sk1.tcpDataAck th.skb earlier later b).front.2 th d lost (sk1.rspace < sk1.mtu) ∧
      (sk1.tcpDataAck th.skb earlier later b).front.1 = sk.ackedSeq + BitVec.ofNat 32 d := by
    rw [← hfront] at hplaced hiff ⊢
    rw [← hwindow] at hplaced
    unfold Sock.tcpDataAck
    by_cases hpos : th.skb.pos sk1.ackedSeq ≤ 0
    · obtain ⟨d, htaken, hacked⟩ := hplaced.taken_front (hwindow ▸ hw) hpos (sk1.rspace < sk1.mtu)
      rw [if_pos (hiff.mpr hpos)]
      rw [Sock.front_tcpSendAck]
      refine ⟨d, dropped, htaken, ?_⟩
      rw [← hacked]
      split <;> rfl
    · obtain ⟨lost, htaken, hacked⟩ := hplaced.taken_beyond (not_le.mp hpos)
      have hsent := (sk1.discard (earlier.reverse ++ th.skb :: later)).front_tcpSendAck b
      rw [if_neg fun h => hpos (hiff.mp h)]
      change ∃ d lost, Taken sk1.ackedSeq sk.rqueue
        ((sk1.discard (earlier.reverse ++ th.skb :: later)).tcpSendAck b).front.2 th d lost
          (sk1.rspace < sk1.mtu) ∧
        ((sk1.discard (earlier.reverse ++ th.skb :: later)).tcpSendAck b).front.1 =
          sk1.ackedSeq + BitVec.ofNat 32 d
      rw [hsent]
      refine ⟨0, lost, htaken, ?_⟩
      change (sk1.discard _).ackedSeq = sk1.ackedSeq + 0
      rw [hacked, add_zero]
  have hmtu : sk1.mtu = sk.mtu := by rw [← hfreed]; rfl
  rw [← hmtu]
  split
  · exact hdata
  · exact hdata

end taken

end LinuxKernel.Tcp
