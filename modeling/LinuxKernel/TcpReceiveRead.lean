import LinuxKernel.TcpReceiveQueue

/-!
# What `tcp_read` does to the queue

`tcp_read` moves `copied_seq` within what is acknowledged and marks the buffers it is
done with; nothing else of the queue changes.
-/

namespace LinuxKernel.Tcp
open List

def Skb.unmark (q : Skb) : Skb := { q with used := false }

theorem Behind.unmark_iff (a : Seq) (l : List Skb) : Behind a (l.map Skb.unmark) ↔ Behind a l := by
  induction l with
  | nil => exact Iff.rfl
  | cons q l ih =>
    have hsum : ((l.map Skb.unmark).map (Skb.before a)).sum = (l.map (Skb.before a)).sum := by
      rw [map_map]
      rfl
    rw [map_cons]
    unfold Behind
    rw [hsum, ih]
    rfl

variable {l l' : List Skb}

theorem memLen_of_unmark (h : l'.map Skb.unmark = l.map Skb.unmark) :
    l'.map (·.th.memLen) = l.map (·.th.memLen) := by
  have hmap := congrArg (List.map fun q : Skb => q.th.memLen) h
  rw [map_map, map_map] at hmap
  exact hmap

variable {q : Skb}

theorem exists_of_unmark (h : l'.map Skb.unmark = l.map Skb.unmark)
    (hq : q ∈ l') : ∃ p ∈ l, p.unmark = q.unmark := by
  have hmem := mem_map_of_mem (f := Skb.unmark) hq
  rw [h] at hmem
  exact mem_map.mp hmem

variable {a c : Seq} {w : ℕ}

theorem QueueOk.reread {c' : Seq} (h : QueueOk a c w l)
    (hl : l'.map Skb.unmark = l.map Skb.unmark) (hle : Seq.rel a (c + 1) ≤ Seq.rel a (c' + 1))
    (hcopied : Seq.rel a (c' + 1) ≤ 0)
    (hused : ∀ q ∈ l', q.used = true → q.pos a + q.th.span ≤ Seq.rel a (c' + 1)) :
    QueueOk a c' w l' := by
  have hmem : ∀ q ∈ l', ∃ p ∈ l, p.th = q.th ∧ p.ackSeq = q.ackSeq ∧ p.acked = q.acked := by
    intro q hq
    obtain ⟨p, hp, heq⟩ := exists_of_unmark hl hq
    rw [Skb.mk.injEq] at heq
    exact ⟨p, hp, heq.1, heq.2.1, heq.2.2.1⟩
  have hpos : ∀ {p q : Skb}, p.th = q.th → p.pos a = q.pos a := by
    intro p q hth
    unfold Skb.pos Skb.seq
    rw [hth]
  refine ⟨⟨?_, ?_, ?_, ?_, ?_, ?_, ?_, hcopied, hused, ?_⟩, ?_⟩
  · intro q hq
    obtain ⟨p, hp, hth, hack, -⟩ := hmem q hq
    have := h.ends p hp
    unfold Skb.seq at *
    rw [hth, hack] at this
    exact this
  · have hiff : ∀ m : List Skb, (m.map Skb.unmark).Pairwise (fun p q => p.pos a ≤ q.pos a) ↔
        m.Pairwise fun p q => p.pos a ≤ q.pos a := fun m => pairwise_map
    rw [← hiff, hl, hiff]
    exact h.sorted
  · intro q hq hflag
    obtain ⟨p, hp, hth, -, hacked⟩ := hmem q hq
    have := h.acked_le p hp (hacked.trans hflag)
    rw [hpos hth, hth] at this
    exact this
  · intro q hq hflag
    obtain ⟨p, hp, hth, -, hacked⟩ := hmem q hq
    have := h.no_fin p hp (hacked.trans hflag)
    rw [hth] at this
    exact this
  · intro q hq
    obtain ⟨p, hp, hth, -⟩ := hmem q hq
    have := h.upper p hp
    rw [hpos hth] at this
    exact this
  · rw [← Behind.unmark_iff, hl, Behind.unmark_iff]
    exact h.behind
  · rw [memLen_of_unmark hl]
    exact h.memory
  · intro x hlo hhi
    obtain ⟨p, hp, hplo, hphi⟩ := h.covered x (by omega) hhi
    obtain ⟨q, hq, heq⟩ := exists_of_unmark hl.symm hp
    have hth : q.th = p.th := by
      rw [Skb.mk.injEq] at heq
      exact heq.1
    refine ⟨q, hq, ?_⟩
    rw [hpos hth, hth]
    exact ⟨hplo, hphi⟩
  · intro q hq hle0
    obtain ⟨p, hp, hth, -, hacked⟩ := hmem q hq
    rw [← hacked]
    apply h.acks p hp
    rw [hpos hth]
    exact hle0

theorem QueueOk.offset_eq (h : QueueOk a c w l)
    (hw : w < 65536) (hq : q ∈ l) (hbefore : ¬Seq.before (1 + c) q.seq = true) :
    q.pos a ≤ Seq.rel a (c + 1) ∧ (q.offset c : ℤ) = Seq.rel a (c + 1) - q.pos a := by
  have hlower := h.lower hq
  have hupper := h.upper q hq
  have hcopied := h.copied
  have hclower := h.copied_lower
  have hrel : Seq.rel q.seq (c + 1) = Seq.rel a (c + 1) - q.pos a := by
    unfold Skb.pos at *
    apply Seq.rel_trans <;> omega
  rw [Seq.before_iff, add_comm, hrel] at hbefore
  refine ⟨by omega, ?_⟩
  unfold Skb.offset
  rw [(h.ends q hq).1]
  rw [← hrel, ← Seq.toNat_rel (by omega), add_comm 1 c]
  simp

theorem QueueOk.span_eq_len (h : QueueOk a c w l)
    (hq : q ∈ l) (hpos : q.pos a ≤ Seq.rel a (c + 1)) :
    q.th.span = q.len ∧ q.pos a + q.th.span ≤ 0 := by
  have hcopied := h.copied
  have hacked := h.acks q hq (by omega)
  refine ⟨?_, h.acked_le q hq hacked⟩
  unfold Segment.span Skb.len
  rw [h.no_fin q hq hacked]
  rfl

theorem scan_unmark (peek : Bool) (seq : Seq) (l : List Skb) :
    ((scan peek seq l).1 ++ (scan peek seq l).2).map Skb.unmark = l.map Skb.unmark := by
  induction l with
  | nil => rfl
  | cons q l ih =>
    unfold scan
    split_ifs
    · rfl
    · rw [cons_append, map_cons, map_cons, ih]
      rfl

theorem scan_peek (seq : Seq) (l : List Skb) : (scan true seq l).1 ++ (scan true seq l).2 = l := by
  induction l with
  | nil => rfl
  | cons q l ih =>
    unfold scan
    split_ifs
    · rfl
    · rw [cons_append, ih]
      cases q
      simp

theorem scan_passed {seq : Seq} (hq : q ∈ (scan false seq l).1) :
    ∃ p ∈ l, p.unmark = q.unmark ∧ ¬Seq.before (1 + seq) p.seq = true ∧ p.found seq = false := by
  induction l with
  | nil => exact absurd hq not_mem_nil
  | cons p l ih =>
    unfold scan at hq
    split_ifs at hq with hstop
    · exact absurd hq not_mem_nil
    · rw [not_or, Bool.not_eq_true (p.found seq)] at hstop
      rcases mem_cons.mp hq with rfl | hq
      · exact ⟨p, mem_cons_self, rfl, hstop.1, hstop.2⟩
      · obtain ⟨r, hr, hrest⟩ := ih hq
        exact ⟨r, mem_cons_of_mem p hr, hrest⟩

theorem scan_rest_mem {peek : Bool} {seq : Seq}
    (hq : q ∈ (scan peek seq l).2) : q ∈ l := by
  induction l with
  | nil => exact hq
  | cons p l ih =>
    unfold scan at hq
    split_ifs at hq
    · exact hq
    · exact mem_cons_of_mem p (ih hq)

theorem QueueOk.scan (h : QueueOk a c w l) (hw : w < 65536) :
    QueueOk a c w ((scan false c l).1 ++ (scan false c l).2) := by
  apply h.reread (scan_unmark false c l) (Int.le_refl _) h.copied
  intro q hq hused
  rcases mem_append.mp hq with hq | hq
  · obtain ⟨p, hp, heq, hbefore, hfound⟩ := scan_passed hq
    have hoffset := h.offset_eq hw hp hbefore
    have hspan := h.span_eq_len hp hoffset.1
    have hlen : p.len ≤ p.offset c := by
      unfold Skb.found at hfound
      simp only [Bool.not_eq_true] at hbefore
      rw [hbefore] at hfound
      simpa using hfound
    have hth : p.th = q.th := by
      rw [Skb.mk.injEq] at heq
      exact heq.1
    have hpos : p.pos a = q.pos a := by
      unfold Skb.pos Skb.seq
      rw [hth]
    rw [← hpos, ← hth]
    omega
  · exact h.used q (scan_rest_mem hq) hused

theorem Sock.share_le (sk : Sock) (skb : Skb) (seq : Seq) (len : ℕ)
    (h : skb.offset seq < skb.len) :
    skb.offset seq + ((sk.share skb seq len).1 + (sk.share skb seq len).2) ≤ skb.len := by
  unfold Sock.share
  dsimp only
  split_ifs <;> dsimp only <;> omega

theorem QueueOk.readFrom (h : QueueOk a c w l)
    (hw : w < 65536) {passed rest : List Skb} (hl : l = passed ++ q :: rest)
    (hfound : q.found c = true) {n : ℕ} (hn : q.offset c + n ≤ q.len) (u : Bool)
    (hu : u = true → q.len ≤ q.offset c + n) :
    QueueOk a (c + BitVec.ofNat 32 n) w (passed ++ { q with used := q.used || u } :: rest) := by
  have hq : q ∈ l := by
    rw [hl]
    exact mem_append_right _ mem_cons_self
  have hbefore : ¬Seq.before (1 + c) q.seq = true := by
    unfold Skb.found at hfound
    simp only [Bool.and_eq_true, Bool.not_eq_true'] at hfound
    rw [hfound.1]
    exact Bool.false_ne_true
  have hoffset := h.offset_eq hw hq hbefore
  have hspan := h.span_eq_len hq hoffset.1
  have hlower := h.copied_lower
  have hmoved : Seq.rel a (c + BitVec.ofNat 32 n + 1) = Seq.rel a (c + 1) + n := by
    have hcomm : c + BitVec.ofNat 32 n + 1 = c + 1 + Seq.ofInt n := by
      rw [Seq.natCast_eq]
      abel
    rw [hcomm]
    apply Seq.rel_add_right <;> omega
  apply h.reread
  · rw [hl, map_append, map_append, map_cons, map_cons]
    rfl
  · omega
  · omega
  · rw [hmoved]
    intro p hp hused
    have hold : ∀ r ∈ l, r.used = true → r.pos a + r.th.span ≤ Seq.rel a (c + 1) + n := by
      intro r hr hflag
      have := h.used r hr hflag
      omega
    rcases mem_append.mp hp with hp | hp
    · exact hold p (by rw [hl]; exact mem_append_left _ hp) hused
    · rcases mem_cons.mp hp with rfl | hp
      · rw [Bool.or_eq_true] at hused
        change q.pos a + q.th.span ≤ _
        rcases hused with hflag | hflag
        · exact hold q hq hflag
        · have := hu hflag
          omega
      · refine hold p ?_ hused
        rw [hl]
        exact mem_append_right _ (mem_cons_of_mem q hp)

end LinuxKernel.Tcp
