import LinuxKernel.TcpReceiveQueue

/-!
# What `tcp_data` does to the queue

A segment that fills the gap at `acked_seq` moves it, and the window with it, over
everything that is then contiguous; any other segment makes `tcp_data` drop what is
not acknowledged, as far as it needs the room.
-/

namespace LinuxKernel.Tcp
open List

def Sock.moved (sk : Sock) (d : ℕ) (shut : Bool) (backlog : UInt8) : Sock :=
  { sk with
    ackedSeq := sk.ackedSeq + BitVec.ofNat 32 d
    window := sk.window - d
    rcvShutdown := shut
    ackBacklog := backlog }

theorem Sock.moved_moved (sk : Sock) (d d' : ℕ) (shut shut' : Bool) (backlog backlog' : UInt8) :
    (sk.moved d shut backlog).moved d' shut' backlog' = sk.moved (d + d') shut' backlog' := by
  unfold Sock.moved
  simp only [Nat.sub_sub, BitVec.ofNat_add, add_assoc]

variable {q : Skb}

theorem Sock.ackSkb_moved (sk : Sock)
    (hrel : Seq.rel sk.ackedSeq q.ackSeq = q.pos sk.ackedSeq + q.th.span) :
    ∃ d : ℕ, (d : ℤ) = max 0 (q.pos sk.ackedSeq + q.th.span) ∧
      sk.ackSkb q = sk.moved d (sk.rcvShutdown || q.th.fin) sk.ackBacklog := by
  unfold Sock.ackSkb
  by_cases hafter : Seq.after q.ackSeq sk.ackedSeq = true
  · have hpos := (Seq.after_iff _ _).mp hafter
    have hnat := Seq.toNat_rel hpos.le
    have hend : sk.ackedSeq + BitVec.ofNat 32 (q.ackSeq - sk.ackedSeq).toNat = q.ackSeq := by
      rw [BitVec.ofNat_toNat, BitVec.setWidth_eq]
      exact add_sub_cancel _ _
    refine ⟨(q.ackSeq - sk.ackedSeq).toNat, by omega, ?_⟩
    rw [if_pos hafter]
    unfold Sock.moved
    rw [hend]
    cases q.th.fin <;> simp
  · have hpos := mt (Seq.after_iff _ _).mpr hafter
    refine ⟨0, by omega, ?_⟩
    rw [if_neg hafter]
    unfold Sock.moved
    cases q.th.fin <;> simp

/-- A buffer on the queue as `ackLater` needs it, seen from where `acked_seq` was. -/
structure Skb.Queued (a : Seq) (w : ℕ) (q : Skb) : Prop where
  lower : -98303 ≤ q.pos a
  upper : q.pos a ≤ w
  span_le : q.th.span ≤ 32748
  ends : q.ackSeq = q.seq + BitVec.ofNat 32 q.th.span

variable {a c : Seq} {w : ℕ}

theorem QueueBase.queued {l : List Skb} (h : QueueBase a c w l)
    (hq : q ∈ l) : q.Queued a w :=
  ⟨h.lower hq, h.upper q hq, h.span_le hq, (h.ends q hq).2⟩

variable {d : ℕ}

theorem Skb.Queued.rel_ackSeq (h : q.Queued a w) (hw : w < 65536)
    (hd : d ≤ w + 32748) :
    Seq.rel (a + BitVec.ofNat 32 d) q.ackSeq = q.pos (a + BitVec.ofNat 32 d) + q.th.span := by
  obtain ⟨hlower, hupper, hspan, hends⟩ := h
  have hpos := Skb.pos_add q hlower (d := d) (by omega)
  rw [hends, Seq.natCast_eq q.th.span]
  unfold Skb.pos at *
  apply Seq.rel_add_right <;> omega

variable {sk : Sock}

theorem Sock.moved_ackSkb (hw : sk.window < 65536)
    (hd : d ≤ sk.window + 32748) (hq : q.Queued sk.ackedSeq sk.window) (shut : Bool)
    (backlog : UInt8) :
    ∃ e : ℕ, (e : ℤ) = max 0 (q.pos sk.ackedSeq - d + q.th.span) ∧
      (sk.moved d shut backlog).ackSkb q = sk.moved (d + e) (shut || q.th.fin) backlog := by
  have hrel := hq.rel_ackSeq hw hd
  have hpos := Skb.pos_add q hq.lower (d := d) (by omega)
  obtain ⟨e, he, hack⟩ := Sock.ackSkb_moved (sk.moved d shut backlog) hrel
  refine ⟨e, ?_, ?_⟩
  · rw [he]
    change max 0 (q.pos (sk.ackedSeq + BitVec.ofNat 32 d) + _) = _
    rw [hpos]
  · rw [hack, Sock.moved_moved]
    rfl

theorem Sock.ackLater_moved {l : List Skb} (hw : sk.window < 65536)
    (hl : ∀ q ∈ l, q.Queued sk.ackedSeq sk.window) (hd : d ≤ sk.window + 32748)
    (shut : Bool) (backlog : UInt8) :
    ∃ (d' : ℕ) (shut' : Bool) (backlog' : UInt8), d ≤ d' ∧ d' ≤ sk.window + 32748 ∧
      (shut = true → shut' = true) ∧
      ((∀ q ∈ l, q.pos sk.ackedSeq - d ≤ 0 → q.pos sk.ackedSeq - d + q.th.span ≤ 0) → d' = d) ∧
      ((sk.moved d shut backlog).ackLater l).1 = sk.moved d' shut' backlog' := by
  induction l generalizing d shut backlog with
  | nil => exact ⟨d, shut, backlog, Nat.le_refl _, hd, id, fun _ => rfl, rfl⟩
  | cons q l ih =>
    have hq := hl q mem_cons_self
    have hpos := Skb.pos_add q hq.lower (d := d) (by omega)
    unfold Sock.ackLater
    by_cases hbefore : Seq.before q.seq ((sk.moved d shut backlog).ackedSeq + 1) = true
    · rw [if_pos hbefore]
      obtain ⟨e, he, hack⟩ := Sock.moved_ackSkb hw hd hq shut backlog
      have hle := hq.upper
      have hspan := hq.span_le
      obtain ⟨d', shut', backlog', hdd', hd', hshut, hstill, heq⟩ :=
        ih (fun p hp => hl p (mem_cons_of_mem q hp)) (d := d + e) (by omega)
          (shut || q.th.fin) sk.maxAckBacklog
      refine ⟨d', shut', backlog', by omega, hd', ?_, ?_, ?_⟩
      · intro h
        apply hshut
        rw [h, Bool.true_or]
      · intro hends
        have hfirst : q.pos sk.ackedSeq - d ≤ 0 := by
          have hlow := hq.lower
          rw [Seq.before_succ_iff] at hbefore
          · change q.pos (sk.ackedSeq + BitVec.ofNat 32 d) ≤ 0 at hbefore
            omega
          · change -2147483648 < q.pos (sk.ackedSeq + BitVec.ofNat 32 d)
            omega
        have hzero : e = 0 := by
          have := hends q mem_cons_self hfirst
          omega
        rw [hzero, Nat.add_zero] at hstill
        apply hstill
        intro p hp
        exact hends p (mem_cons_of_mem q hp)
      · rw [← heq]
        rw [hack]
        rfl
    · rw [if_neg hbefore]
      exact ⟨d, shut, backlog, Nat.le_refl _, hd, id, fun _ => rfl, rfl⟩

theorem Sock.ackLater_shutdown (h : sk.rcvShutdown = true) (l : List Skb) :
    (sk.ackLater l).1.rcvShutdown = true := by
  induction l generalizing sk with
  | nil => exact h
  | cons q l ih =>
    unfold Sock.ackLater
    split_ifs
    · apply ih
      unfold Sock.ackSkb
      split_ifs <;> simp [h]
    · exact h

theorem QueueBase.ackLater (sk : Sock) (done l : List Skb)
    (h : QueueBase sk.ackedSeq c sk.window (done ++ l)) (hw : sk.window < 65536)
    (hdone : ∀ q ∈ done, q.acked = true) (hshut : (sk.ackLater l).1.rcvShutdown = false) :
    QueueOk (sk.ackLater l).1.ackedSeq c (sk.ackLater l).1.window
      (done ++ (sk.ackLater l).2) := by
  induction l generalizing sk done with
  | nil =>
    refine ⟨h, ?_⟩
    intro q hq _
    change q ∈ done ++ [] at hq
    rw [append_nil] at hq
    exact hdone q hq
  | cons q l ih =>
    have hq : q ∈ done ++ q :: l := mem_append_right done mem_cons_self
    have hlower := h.lower hq
    have hiff : Seq.before q.seq (sk.ackedSeq + 1) = true ↔ q.pos sk.ackedSeq ≤ 0 :=
      Seq.before_succ_iff (by unfold Skb.pos at hlower; omega)
    unfold Sock.ackLater at hshut ⊢
    by_cases hbefore : Seq.before q.seq (sk.ackedSeq + 1) = true
    · rw [if_pos hbefore] at hshut ⊢
      obtain ⟨d, hd, hack⟩ := Sock.ackSkb_moved sk (h.rel_ackSeq hw hq)
      cases hfin : q.th.fin with
      | true =>
        rw [hack, hfin, Bool.or_true] at hshut
        rw [Sock.ackLater_shutdown rfl] at hshut
        exact absurd hshut Bool.noConfusion
      | false =>
        have hbase := h.ack (hiff.mp hbefore) hfin hd
        rw [hack] at hshut ⊢
        rw [append_cons] at hbase ⊢
        apply ih _ _ hbase
        · change sk.window - d < 65536
          omega
        · intro p hp
          rcases mem_append.mp hp with hp | hp
          · exact hdone p hp
          · rw [mem_singleton] at hp
            subst hp
            rfl
        · exact hshut
    · rw [if_neg hbefore] at hshut ⊢
      refine ⟨h, ?_⟩
      intro p hp hpos
      change p.pos sk.ackedSeq ≤ 0 at hpos
      rcases mem_append.mp hp with hp | hp
      · exact hdone p hp
      · -- The first buffer is after `acked_seq`, so all that follow are.
        have hsorted := (pairwise_append.mp h.sorted).2.1
        rw [pairwise_cons] at hsorted
        rw [hiff] at hbefore
        rcases mem_cons.mp hp with rfl | hp
        · exact absurd hpos hbefore
        · have := hsorted.1 p hp
          omega

theorem Sock.ackLater_memLen (sk : Sock) (l : List Skb) :
    (sk.ackLater l).2.map (·.th.memLen) = l.map (·.th.memLen) := by
  induction l generalizing sk with
  | nil => rfl
  | cons q l ih =>
    unfold Sock.ackLater
    split_ifs
    · rw [map_cons, map_cons, ih]
    · rfl

theorem QueueOk.drop {l1 l2 : List Skb} (h : QueueOk a c w (l1 ++ l2))
    (hl1 : ∀ q ∈ l1, q.acked = false ∨ q.used = true) : QueueOk a c w l2 := by
  have hin : ∀ q ∈ l2, q ∈ l1 ++ l2 := fun q hq => mem_append_right l1 hq
  refine ⟨⟨?_, ?_, ?_, ?_, ?_, ?_, ?_, h.copied, ?_, ?_⟩, ?_⟩
  · exact fun q hq => h.ends q (hin q hq)
  · exact (pairwise_append.mp h.sorted).2.1
  · exact fun q hq => h.acked_le q (hin q hq)
  · exact fun q hq => h.no_fin q (hin q hq)
  · exact fun q hq => h.upper q (hin q hq)
  · have hbehind := h.behind
    clear h hl1 hin
    induction l1 with
    | nil => exact hbehind
    | cons p l1 ih => exact ih hbehind.2
  · have := h.memory
    rw [map_append, sum_append] at this
    omega
  · exact fun q hq => h.used q (hin q hq)
  · intro x hlo hhi
    obtain ⟨q, hq, hqlo, hqhi⟩ := h.covered x hlo hhi
    refine ⟨q, ?_, hqlo, hqhi⟩
    rcases mem_append.mp hq with hq1 | hq2
    · rcases hl1 q hq1 with hacked | hused
      · rw [h.acks q hq (by omega)] at hacked
        exact absurd hacked Bool.noConfusion
      · have := h.used q hq hused
        omega
    · exact hq2
  · exact fun q hq => h.acks q (hin q hq)

theorem Sock.discard_eq (sk : Sock) (l : List Skb) :
    ∃ l1 l2 : List Skb, l = l1 ++ l2 ∧ (∀ q ∈ l1, q.acked = false) ∧
      sk.discard l =
        { sk with rqueue := l2, rmemAlloc := sk.rmemAlloc - (l1.map (·.th.memLen)).sum } := by
  induction l generalizing sk with
  | nil => exact ⟨[], [], rfl, fun q hq => absurd hq not_mem_nil, rfl⟩
  | cons q l ih =>
    unfold Sock.discard
    split_ifs with hdrop
    · obtain ⟨l1, l2, hsplit, hacked, heq⟩ := ih (sk.rfree q.th.memLen)
      refine ⟨q :: l1, l2, ?_, ?_, ?_⟩
      · rw [hsplit]
        rfl
      · intro p hp
        rcases mem_cons.mp hp with rfl | hp
        · exact hdrop.2
        · exact hacked p hp
      · rw [heq, map_cons, sum_cons, ← Nat.sub_sub]
        rfl
    · exact ⟨[], q :: l, rfl, fun q hq => absurd hq not_mem_nil, rfl⟩

/-- What `tcp_data` leaves before it sends its acknowledgement: `acked_seq` has moved by
`d`, the queue is `queue` and `freed` is given back. -/
def Sock.dataState (sk : Sock) (d : ℕ) (shut : Bool) (backlog : UInt8) (queue : List Skb)
    (freed : ℕ) : Sock :=
  { sk.moved d shut backlog with rqueue := queue, rmemAlloc := sk.rmemAlloc - freed }

structure DataOutcome (sk : Sock) (q : Skb) (mem d : ℕ) (shut : Bool) (queue : List Skb)
    (freed : ℕ) : Prop where
  moved_le : d ≤ sk.window + 32748
  still : sk.window = 0 → q.th.span = 0 → d = 0
  memory : (queue.map (·.th.memLen)).sum + freed = mem
  queue : shut = false →
    QueueOk (sk.ackedSeq + BitVec.ofNat 32 d) sk.copiedSeq (sk.window - d) queue

theorem Sock.tcpDataAck_eq (sk : Sock) {earlier later : List Skb} (b : Buff)
    (hw : sk.window < 65536)
    (h : QueueBase sk.ackedSeq sk.copiedSeq sk.window (earlier.reverse ++ q :: later))
    (hlo : 0 ≤ q.pos sk.ackedSeq + q.th.span)
    (hearlier : ∀ p ∈ earlier, p.pos sk.ackedSeq ≤ 0 → p.acked = true)
    (hlater : ∀ p ∈ later, p.pos sk.ackedSeq ≤ 0 → p.acked = true) :
    ∃ (d : ℕ) (shut : Bool) (backlog backlog' : UInt8) (queue : List Skb) (freed : ℕ),
      DataOutcome sk q ((earlier.reverse ++ q :: later).map (·.th.memLen)).sum d shut queue
        freed ∧
      (sk.tcpDataAck q earlier later b = (sk.dataState d shut backlog queue freed).tcpSendAck b ∨
        sk.tcpDataAck q earlier later b =
          { (sk.dataState d shut backlog queue freed).tcpSendAck b with
            ackBacklog := backlog' }) := by
  have hq : q ∈ earlier.reverse ++ q :: later := mem_append_right _ mem_cons_self
  have hlower := h.lower hq
  have hiff : Seq.before q.seq (sk.ackedSeq + 1) = true ↔ q.pos sk.ackedSeq ≤ 0 :=
    Seq.before_succ_iff (by unfold Skb.pos at hlower; omega)
  have hsorted := pairwise_append.mp h.sorted
  unfold Sock.tcpDataAck
  by_cases hbefore : Seq.before q.seq (sk.ackedSeq + 1) = true
  · have hpos := hiff.mp hbefore
    have hspan := h.span_le hq
    rw [if_pos hbefore]
    obtain ⟨e, he, hack⟩ := Sock.ackSkb_moved sk (h.rel_ackSeq hw hq)
    have hqueued : ∀ p ∈ later, p.Queued sk.ackedSeq sk.window := fun p hp =>
      h.queued (mem_append_right _ (mem_cons_of_mem q hp))
    obtain ⟨d, shut, backlog, hle, hd, hmono, hstill, hmoved⟩ :=
      Sock.ackLater_moved hw hqueued (d := e) (by omega) (sk.rcvShutdown || q.th.fin)
        sk.ackBacklog
    rw [← hack] at hmoved
    have hmem : (earlier.reverse ++ { q with acked := true } ::
        ((sk.ackSkb q).ackLater later).2).map (·.th.memLen) =
        (earlier.reverse ++ q :: later).map (·.th.memLen) := by
      rw [map_append, map_append, map_cons, map_cons, Sock.ackLater_memLen]
    refine ⟨d, shut, if sk.delayAcks = false ∨ sk.maxAckBacklog ≤ backlog ∨
        sk.maxUnacked < sk.bytesRcv ∨ q.th.fin then backlog else backlog + 1, 0,
      earlier.reverse ++ { q with acked := true } :: ((sk.ackSkb q).ackLater later).2, 0,
      ⟨hd, ?_, ?_, ?_⟩, .inl ?_⟩
    · intro hzero hempty
      -- With no window and no data nothing moves.
      have hezero : e = 0 := by
        omega
      rw [← hezero]
      apply hstill
      intro p hp hp0
      have hpl : p ∈ earlier.reverse ++ q :: later := mem_append_right _ (mem_cons_of_mem q hp)
      have hflag := hlater p hp (by omega)
      have := h.acked_le p hpl hflag
      omega
    · rw [hmem]
      rfl
    · intro hfalse
      have hfin : q.th.fin = false := by
        cases hfin : q.th.fin with
        | false => rfl
        | true =>
          rw [hfin, Bool.or_true] at hmono
          rw [hmono rfl] at hfalse
          exact absurd hfalse Bool.noConfusion
      have hbase := h.ack hpos hfin he
      rw [append_cons] at hbase
      have hwin : ((sk.ackSkb q).ackLater later).1.window = sk.window - d := by
        rw [hmoved]
        rfl
      have hseq : ((sk.ackSkb q).ackLater later).1.ackedSeq = sk.ackedSeq + BitVec.ofNat 32 d := by
        rw [hmoved]
        rfl
      have hqueue := QueueBase.ackLater (c := sk.copiedSeq) (sk.ackSkb q)
        (earlier.reverse ++ [q.ackIt]) later (by rw [hack]; exact hbase)
        (by rw [hack]; change sk.window - e < 65536; omega) (by
          intro p hp
          rcases mem_append.mp hp with hp | hp
          · have hple := hsorted.2.2 p hp q mem_cons_self
            exact hearlier p (mem_reverse.mp hp) (by omega)
          · rw [mem_singleton] at hp
            subst hp
            rfl) (by rw [hmoved]; exact hfalse)
      rw [hwin, hseq, append_assoc] at hqueue
      exact hqueue
    · dsimp only
      rw [hmoved]
      unfold Sock.dataState Sock.moved
      split_ifs <;> simp
  · rw [if_neg hbefore]
    obtain ⟨l1, l2, hsplit, hunacked, hdiscard⟩ :=
      Sock.discard_eq sk (earlier.reverse ++ q :: later)
    refine ⟨0, sk.rcvShutdown, sk.ackBacklog,
      ((sk.discard (earlier.reverse ++ q :: later)).tcpSendAck b).ackBacklog + 1, l2,
      (l1.map (·.th.memLen)).sum, ⟨Nat.zero_le _, fun _ _ => rfl, ?_, ?_⟩, .inr ?_⟩
    · rw [hsplit, map_append, sum_append, Nat.add_comm]
    · intro _
      have hok : QueueOk sk.ackedSeq sk.copiedSeq sk.window (l1 ++ l2) := by
        rw [← hsplit]
        refine ⟨h, ?_⟩
        intro p hp hp0
        rcases mem_append.mp hp with hp | hp
        · exact hearlier p (mem_reverse.mp hp) hp0
        · rcases mem_cons.mp hp with rfl | hp
          · exact absurd (hiff.mpr hp0) hbefore
          · exact hlater p hp hp0
      have := hok.drop fun p hp => .inl (hunacked p hp)
      simpa using this
    · rw [hdiscard]
      unfold Sock.dataState Sock.moved
      simp

end LinuxKernel.Tcp
