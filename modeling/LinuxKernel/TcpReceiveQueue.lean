import LinuxKernel.TcpReceiveModel

/-!
# The receive queue

Positions are distances from `acked_seq`.  While the socket is open for receiving,
the queue is sorted, what lies at or before `acked_seq` is acknowledged and ends
there, and the acknowledged segments cover everything between what was read and
`acked_seq`.  All positions stay far from half of the sequence space, so the
comparisons of the code are those of the positions.
-/

namespace LinuxKernel.Tcp
open List

theorem card_le_sum_of_covered {α : Type} (lo : α → ℤ) (len : α → ℕ) :
    ∀ (l : List α) (S : Finset ℤ), (∀ x ∈ S, ∃ q ∈ l, lo q ≤ x ∧ x < lo q + len q) →
      S.card ≤ (l.map len).sum := by
  intro l
  induction l with
  | nil =>
    intro S hS
    have hempty : S = ∅ := by
      apply Finset.eq_empty_of_forall_notMem
      intro x hx
      obtain ⟨q, hq, -⟩ := hS x hx
      exact not_mem_nil hq
    rw [hempty]
    exact Nat.zero_le _
  | cons q l ih =>
    intro S hS
    let In : ℤ → Prop := fun x => lo q ≤ x ∧ x < lo q + len q
    have hin : (S.filter In).card ≤ len q := by
      calc (S.filter In).card ≤ (Finset.Ico (lo q) (lo q + len q)).card := by
            apply Finset.card_le_card
            intro x hx
            rw [Finset.mem_filter] at hx
            exact Finset.mem_Ico.mpr hx.2
        _ = len q := by
            rw [Int.card_Ico]
            omega
    have hout : (S.filter fun x => ¬In x).card ≤ (l.map len).sum := by
      apply ih
      intro x hx
      rw [Finset.mem_filter] at hx
      obtain ⟨p, hp, hcover⟩ := hS x hx.1
      rcases mem_cons.mp hp with rfl | hp
      · exact absurd hcover hx.2
      · exact ⟨p, hp, hcover⟩
    have hsplit := Finset.card_filter_add_card_filter_not (s := S) In
    rw [map_cons, sum_cons]
    omega

def Skb.pos (a : Seq) (q : Skb) : ℤ := Seq.rel a q.seq

def Skb.before (a : Seq) (q : Skb) : ℕ := min q.th.span (-q.pos a).toNat

def Behind (a : Seq) : List Skb → Prop
  | [] => True
  | q :: rest => -q.pos a ≤ 65536 + ((rest.map (Skb.before a)).sum : ℕ) ∧ Behind a rest

/-- The queue with `acked_seq`, `copied_seq` and `window`, while segments are being
acknowledged. -/
structure QueueBase (a c : Seq) (w : ℕ) (l : List Skb) : Prop where
  ends : ∀ q ∈ l, q.th.syn = false ∧ q.ackSeq = q.seq + BitVec.ofNat 32 q.th.span
  sorted : l.Pairwise fun p q => p.pos a ≤ q.pos a
  acked_le : ∀ q ∈ l, q.acked = true → q.pos a + q.th.span ≤ 0
  no_fin : ∀ q ∈ l, q.acked = true → q.th.fin = false
  upper : ∀ q ∈ l, q.pos a ≤ w
  behind : Behind a l
  memory : (l.map (·.th.memLen)).sum ≤ 32767
  copied : Seq.rel a (c + 1) ≤ 0
  used : ∀ q ∈ l, q.used = true → q.pos a + q.th.span ≤ Seq.rel a (c + 1)
  covered : ∀ x, Seq.rel a (c + 1) ≤ x → x < 0 → ∃ q ∈ l, q.pos a ≤ x ∧ x < q.pos a + q.th.span

structure QueueOk (a c : Seq) (w : ℕ) (l : List Skb) : Prop extends QueueBase a c w l where
  acks : ∀ q ∈ l, q.pos a ≤ 0 → q.acked = true

theorem Segment.span_le (th : Segment) : th.span + 19 ≤ th.memLen := by
  have hheader := th.header_len
  have hfits := th.fits
  have hfin := Bool.toNat_le th.fin
  unfold Segment.span
  omega

variable {q : Skb}

theorem memLen_le_sum {l : List Skb} (hq : q ∈ l) : q.th.memLen ≤ (l.map (·.th.memLen)).sum := by
  apply single_le_sum (by simp)
  exact mem_map_of_mem hq

theorem sum_span_le (l : List Skb) : (l.map (·.th.span)).sum ≤ (l.map (·.th.memLen)).sum := by
  apply sum_le_sum
  intro q _
  have := q.th.span_le
  omega

theorem Behind.mem {a : Seq} {l : List Skb} (h : Behind a l) (hq : q ∈ l) :
    -q.pos a ≤ 65536 + ((l.map (·.th.span)).sum : ℕ) := by
  induction l with
  | nil => exact absurd hq not_mem_nil
  | cons p l ih =>
    rw [map_cons, sum_cons]
    rcases mem_cons.mp hq with rfl | hq
    · have hbefore : (l.map (Skb.before a)).sum ≤ (l.map (·.th.span)).sum :=
        sum_le_sum fun r _ => Nat.min_le_left _ _
      have := h.1
      omega
    · have := ih h.2 hq
      omega

section Bounds

variable {a c : Seq} {w : ℕ} {l : List Skb} (h : QueueBase a c w l)

include h

theorem QueueBase.span_le (hq : q ∈ l) : q.th.span ≤ 32748 := by
  have hspan := q.th.span_le
  have hmem := memLen_le_sum hq
  have := h.memory
  omega

theorem QueueBase.lower (hq : q ∈ l) : -98303 ≤ q.pos a := by
  have hbehind := h.behind.mem hq
  have hspan := sum_span_le l
  have := h.memory
  omega

theorem QueueBase.copied_lower : -32767 ≤ Seq.rel a (c + 1) := by
  have hcard := card_le_sum_of_covered (fun q : Skb => q.pos a) (fun q => q.th.span) l
    (Finset.Ico (Seq.rel a (c + 1)) 0) (by
      intro x hx
      rw [Finset.mem_Ico] at hx
      exact h.covered x hx.1 hx.2)
  rw [Int.card_Ico] at hcard
  have hspan := sum_span_le l
  have := h.memory
  omega

theorem QueueBase.rel_ackSeq (hw : w < 65536) (hq : q ∈ l) :
    Seq.rel a q.ackSeq = q.pos a + q.th.span := by
  have hlower := h.lower hq
  have hupper := h.upper q hq
  have hspan := h.span_le hq
  rw [(h.ends q hq).2, Seq.natCast_eq]
  apply Seq.rel_add_right a q.seq
  · unfold Skb.pos at hlower
    omega
  · unfold Skb.pos at hupper
    omega

end Bounds

variable {d : ℕ}

theorem Skb.pos_add {a : Seq} (q : Skb) (hlo : -98303 ≤ q.pos a) (hd : d ≤ 98303) :
    q.pos (a + BitVec.ofNat 32 d) = q.pos a - d := by
  have hhi := (Seq.rel_bounds a q.seq).2
  unfold Skb.pos at hlo ⊢
  rw [Seq.natCast_eq]
  apply Seq.rel_add_left <;> omega

def Skb.ackIt (q : Skb) : Skb := { q with acked := true }

variable {l1 l2 : List Skb}

theorem Behind.ack {a : Seq} (hd : (d : ℤ) = max 0 (q.pos a + q.th.span))
    (hd' : d ≤ 98303) (hpos : q.pos a ≤ 0) (hspan : q.th.span ≤ 32748)
    (hlower : ∀ p ∈ l1 ++ q :: l2, -98303 ≤ p.pos a) (hafter : ∀ p ∈ l2, q.pos a ≤ p.pos a)
    (h : Behind a (l1 ++ q :: l2)) :
    Behind (a + BitVec.ofNat 32 d) (l1 ++ q.ackIt :: l2) := by
  have hmono : ∀ l : List Skb, (∀ p ∈ l, -98303 ≤ p.pos a) →
      (l.map (Skb.before a)).sum ≤ (l.map (Skb.before (a + BitVec.ofNat 32 d))).sum := by
    intro l hl
    apply sum_le_sum
    intro p hp
    have := Skb.pos_add p (hl p hp) hd'
    unfold Skb.before
    omega
  have hq : q ∈ l1 ++ q :: l2 := mem_append_right l1 mem_cons_self
  have hq' := Skb.pos_add q (hlower q hq) hd'
  -- What the segment fills grows by as much as `acked_seq` moves.
  have hfill : q.ackIt.before (a + BitVec.ofNat 32 d) = q.before a + d := by
    change min q.th.span (-q.pos (a + BitVec.ofNat 32 d)).toNat = _
    unfold Skb.before
    omega
  induction l1 with
  | nil =>
    have hold := h.1
    refine ⟨?_, ?_⟩
    · have hsum := hmono l2 fun p hp => hlower p (mem_cons_of_mem q hp)
      change -q.pos (a + BitVec.ofNat 32 d) ≤ _
      omega
    · have hrest : ∀ p ∈ l2, -98303 ≤ p.pos a ∧ q.pos a ≤ p.pos a := fun p hp =>
        ⟨hlower p (mem_cons_of_mem q hp), hafter p hp⟩
      have hl2 := h.2
      clear hlower hafter h hq hold
      induction l2 with
      | nil => exact trivial
      | cons p l2 ih =>
        have hp := hrest p mem_cons_self
        refine ⟨?_, ih (fun r hr => hrest r (mem_cons_of_mem p hr)) hl2.2⟩
        have hsum := hmono l2 fun r hr => (hrest r (mem_cons_of_mem p hr)).1
        have hold := hl2.1
        rw [Skb.pos_add p hp.1 hd']
        omega
  | cons p l1 ih =>
    have hp := Skb.pos_add p (hlower p mem_cons_self) hd'
    have hlower' : ∀ r ∈ l1 ++ q :: l2, -98303 ≤ r.pos a := fun r hr =>
      hlower r (mem_cons_of_mem p hr)
    refine ⟨?_, ih hlower' h.2 (mem_append_right l1 mem_cons_self)⟩
    have hold : -p.pos a ≤ 65536 + (((l1 ++ q :: l2).map (Skb.before a)).sum : ℕ) := h.1
    change -p.pos (a + BitVec.ofNat 32 d) ≤
      65536 + (((l1 ++ q.ackIt :: l2).map (Skb.before (a + BitVec.ofNat 32 d))).sum : ℕ)
    have h1 := hmono l1 fun r hr => hlower' r (mem_append_left _ hr)
    have h2 := hmono l2 fun r hr =>
      hlower' r (mem_append_right _ (mem_cons_of_mem q hr))
    rw [map_append, sum_append, map_cons, sum_cons] at hold ⊢
    omega

theorem QueueBase.ack {a c : Seq} {w : ℕ}
    (h : QueueBase a c w (l1 ++ q :: l2)) (hpos : q.pos a ≤ 0)
    (hfin : q.th.fin = false) (hd : (d : ℤ) = max 0 (q.pos a + q.th.span)) :
    QueueBase (a + BitVec.ofNat 32 d) c (w - d) (l1 ++ q.ackIt :: l2) := by
  have hq : q ∈ l1 ++ q :: l2 := mem_append_right l1 mem_cons_self
  have hspan := h.span_le hq
  have hmem : ∀ p ∈ l1 ++ q.ackIt :: l2, p = q.ackIt ∨ p ∈ l1 ++ q :: l2 := by
    intro p hp
    rw [mem_append, mem_cons] at hp
    rw [mem_append, mem_cons]
    tauto
  -- Each buffer moves back by what is acknowledged.
  have hshift : ∀ p ∈ l1 ++ q :: l2, p.pos (a + BitVec.ofNat 32 d) = p.pos a - d := fun p hp =>
    Skb.pos_add p (h.lower hp) (by omega)
  have hshiftq : q.ackIt.pos (a + BitVec.ofNat 32 d) = q.pos a - d := hshift q hq
  have hlow := h.copied_lower
  have hcopied : Seq.rel (a + BitVec.ofNat 32 d) (c + 1) = Seq.rel a (c + 1) - d := by
    have := h.copied
    rw [Seq.natCast_eq]
    apply Seq.rel_add_left <;> omega
  refine ⟨?_, ?_, ?_, ?_, ?_, ?_, ?_, ?_, ?_, ?_⟩
  · intro p hp
    rcases hmem p hp with rfl | hp
    · exact h.ends q hq
    · exact h.ends p hp
  · have hsorted := h.sorted
    rw [pairwise_append, pairwise_cons] at hsorted ⊢
    obtain ⟨h1, ⟨hq2, h2⟩, h12⟩ := hsorted
    have hle : ∀ {p r : Skb}, p ∈ l1 ++ q :: l2 → r ∈ l1 ++ q :: l2 → p.pos a ≤ r.pos a →
        p.pos (a + BitVec.ofNat 32 d) ≤ r.pos (a + BitVec.ofNat 32 d) := by
      intro p r hp hr hpr
      rw [hshift p hp, hshift r hr]
      omega
    have hin1 : ∀ p ∈ l1, p ∈ l1 ++ q :: l2 := fun p hp => mem_append_left _ hp
    have hin2 : ∀ p ∈ l2, p ∈ l1 ++ q :: l2 := fun p hp =>
      mem_append_right _ (mem_cons_of_mem q hp)
    refine ⟨?_, ⟨?_, ?_⟩, ?_⟩
    · exact h1.imp_of_mem fun hp hr hpr => hle (hin1 _ hp) (hin1 _ hr) hpr
    · intro r hr
      change q.pos (a + BitVec.ofNat 32 d) ≤ _
      exact hle hq (hin2 r hr) (hq2 r hr)
    · exact h2.imp_of_mem fun hp hr hpr => hle (hin2 _ hp) (hin2 _ hr) hpr
    · intro p hp r hr
      rcases mem_cons.mp hr with rfl | hr
      · change _ ≤ q.pos (a + BitVec.ofNat 32 d)
        exact hle (hin1 p hp) hq (h12 p hp q mem_cons_self)
      · exact hle (hin1 p hp) (hin2 r hr) (h12 p hp r (mem_cons_of_mem q hr))
  · intro p hp hacked
    rcases hmem p hp with rfl | hp
    · rw [hshiftq]
      change q.pos a - d + q.th.span ≤ 0
      omega
    · have := h.acked_le p hp hacked
      rw [hshift p hp]
      omega
  · intro p hp hacked
    rcases hmem p hp with rfl | hp
    · exact hfin
    · exact h.no_fin p hp hacked
  · intro p hp
    rcases hmem p hp with rfl | hp
    · omega
    · have := h.upper p hp
      rw [hshift p hp]
      omega
  · have hsorted := h.sorted
    rw [pairwise_append, pairwise_cons] at hsorted
    exact Behind.ack hd (by omega) hpos hspan (fun p hp => h.lower hp) hsorted.2.1.1 h.behind
  · have := h.memory
    rw [map_append, map_cons] at this ⊢
    exact this
  · have := h.copied
    omega
  · intro p hp hused
    rcases hmem p hp with rfl | hp
    · have := h.used q hq hused
      rw [hshiftq]
      change q.pos a - d + q.th.span ≤ _
      omega
    · have := h.used p hp hused
      rw [hshift p hp]
      omega
  · intro x hlo hhi
    by_cases hx : x + d < 0
    · obtain ⟨p, hp, hplo, hphi⟩ := h.covered (x + d) (by omega) hx
      rw [mem_append, mem_cons] at hp
      rcases hp with hp | rfl | hp
      · refine ⟨p, mem_append_left _ hp, ?_⟩
        rw [hshift p (mem_append_left _ hp)]
        omega
      · refine ⟨p.ackIt, mem_append_right _ mem_cons_self, ?_⟩
        rw [hshiftq]
        change p.pos a - d ≤ x ∧ x < p.pos a - d + p.th.span
        omega
      · refine ⟨p, mem_append_right _ (mem_cons_of_mem _ hp), ?_⟩
        rw [hshift p (mem_append_right _ (mem_cons_of_mem _ hp))]
        omega
    · refine ⟨q.ackIt, mem_append_right _ mem_cons_self, ?_⟩
      rw [hshiftq]
      change q.pos a - d ≤ x ∧ x < q.pos a - d + q.th.span
      omega

/-! ### The place of a segment -/

def Skb.Near (a : Seq) (q : Skb) : Prop := -98303 ≤ q.pos a ∧ q.pos a ≤ 98303

theorem QueueBase.near {a c : Seq} {w : ℕ} {l : List Skb} (h : QueueBase a c w l)
    (hw : w < 65536) (hq : q ∈ l) : q.Near a := by
  have hupper := h.upper q hq
  exact ⟨h.lower hq, by omega⟩

variable {p : Skb}

theorem Skb.rel_seq {a : Seq} (hp : p.Near a) (hq : q.Near a) :
    Seq.rel p.seq q.seq = q.pos a - p.pos a := by
  obtain ⟨hplo, hphi⟩ := hp
  obtain ⟨hqlo, hqhi⟩ := hq
  unfold Skb.pos at *
  apply Seq.rel_trans <;> omega

theorem Skb.after_succ_iff {a : Seq} (hp : p.Near a) (hq : q.Near a) :
    Seq.after (q.seq + 1) p.seq = true ↔ p.pos a ≤ q.pos a := by
  have hrel := Skb.rel_seq hp hq
  obtain ⟨hplo, hphi⟩ := hp
  obtain ⟨hqlo, hqhi⟩ := hq
  rw [Seq.after_iff, Seq.one_eq, Seq.rel_add_right p.seq q.seq (by omega) (by omega), hrel]
  omega

theorem Skb.pos_eq_of_seq {a : Seq} (h : p.seq = q.seq) : p.pos a = q.pos a := by
  unfold Skb.pos
  rw [h]

theorem place_split (q : Skb) (rev later : List Skb) :
    ∃ dropped : List Skb,
      rev.reverse ++ later = (place q rev later).1.reverse ++ dropped ++ (place q rev later).2 ∧
      (∀ d ∈ dropped, q.seq = d.seq ∧ d.len ≤ q.len) ∧ dropped.length ≤ 1 ∧
      placeFreed q rev = (dropped.map (·.th.memLen)).sum := by
  induction rev generalizing later with
  | nil => exact ⟨[], by simp [place, placeFreed]⟩
  | cons p rev ih =>
    unfold place placeFreed
    by_cases hsame : q.seq = p.seq ∧ p.len ≤ q.len
    · rw [if_pos hsame, if_pos hsame]
      refine ⟨[p], ?_, ?_, by simp, by simp⟩
      · simp
      · intro d hd
        rw [mem_singleton] at hd
        subst hd
        exact hsame
    · rw [if_neg hsame, if_neg hsame]
      by_cases hafter : Seq.after (q.seq + 1) p.seq = true
      · rw [if_pos hafter, if_pos hafter]
        exact ⟨[], by simp⟩
      · rw [if_neg hafter, if_neg hafter]
        obtain ⟨dropped, hsplit, hrest⟩ := ih (p :: later)
        refine ⟨dropped, ?_, hrest⟩
        rw [← hsplit]
        simp

theorem place_order {a : Seq} (hq : q.Near a) (rev later : List Skb)
    (hnear : ∀ p ∈ rev, p.Near a) (hsorted : rev.Pairwise fun p r => r.pos a ≤ p.pos a)
    (hlater : ∀ p ∈ later, q.pos a < p.pos a) :
    (∀ p ∈ (place q rev later).1, p ∈ rev ∧ p.pos a ≤ q.pos a) ∧
      ∀ p ∈ (place q rev later).2, q.pos a < p.pos a := by
  induction rev generalizing later with
  | nil =>
    refine ⟨fun p hp => absurd hp not_mem_nil, hlater⟩
  | cons p rev ih =>
    rw [pairwise_cons] at hsorted
    have hrest : ∀ r ∈ rev, r ∈ p :: rev := fun r hr => mem_cons_of_mem p hr
    unfold place
    by_cases hsame : q.seq = p.seq ∧ p.len ≤ q.len
    · rw [if_pos hsame]
      refine ⟨?_, hlater⟩
      intro r hr
      have := hsorted.1 r hr
      rw [Skb.pos_eq_of_seq hsame.1]
      exact ⟨hrest r hr, this⟩
    · rw [if_neg hsame]
      have hiff := Skb.after_succ_iff (hnear p mem_cons_self) hq
      by_cases hafter : Seq.after (q.seq + 1) p.seq = true
      · rw [if_pos hafter]
        have hp := hiff.mp hafter
        refine ⟨?_, hlater⟩
        intro r hr
        refine ⟨hr, ?_⟩
        rcases mem_cons.mp hr with rfl | hr
        · exact hp
        · exact (hsorted.1 r hr).trans hp
      · rw [if_neg hafter]
        have hp : q.pos a < p.pos a := by
          rw [hiff] at hafter
          omega
        have hrec := ih (p :: later) (fun r hr => hnear r (hrest r hr)) hsorted.2 (by
          intro r hr
          rcases mem_cons.mp hr with rfl | hr
          · exact hp
          · exact hlater r hr)
        exact ⟨fun r hr => ⟨hrest r (hrec.1 r hr).1, (hrec.1 r hr).2⟩, hrec.2⟩

theorem Behind.insert {a : Seq} (hq : -q.pos a ≤ 65536) {dropped : List Skb}
    (hdropped : (dropped.map (Skb.before a)).sum ≤ q.before a)
    (h : Behind a (l1 ++ dropped ++ l2)) : Behind a (l1 ++ q :: l2) := by
  induction l1 with
  | nil =>
    refine ⟨by omega, ?_⟩
    clear hdropped
    induction dropped with
    | nil => exact h
    | cons d dropped ih => exact ih h.2
  | cons p l1 ih =>
    have hold : -p.pos a ≤ 65536 + (((l1 ++ dropped ++ l2).map (Skb.before a)).sum : ℕ) := h.1
    refine ⟨?_, ih h.2⟩
    change -p.pos a ≤ 65536 + (((l1 ++ q :: l2).map (Skb.before a)).sum : ℕ)
    simp only [map_append, sum_append, map_cons, sum_cons] at hold ⊢
    omega

theorem Sock.acceptable_iff {sk : Sock} {th : Segment} (hw : sk.window < 65536)
    (hspan : th.span ≤ 32748) :
    sk.acceptable th = true ↔
      (th.span ≠ 0 → sk.window ≠ 0) ∧ 0 ≤ Seq.rel sk.ackedSeq th.seq + th.span ∧
        Seq.rel sk.ackedSeq th.seq ≤ sk.window := by
  unfold Sock.acceptable
  have hbounds := Seq.rel_bounds sk.ackedSeq th.seq
  have hcomm : BitVec.ofNat 32 th.span + th.seq + 1 = th.seq + Seq.ofInt (th.span + 1) := by
    rw [Seq.ofInt_add, Seq.natCast_eq, Seq.one_eq]
    abel
  have hedge : sk.ackedSeq + BitVec.ofNat 32 sk.window + 1 =
      sk.ackedSeq + Seq.ofInt (sk.window + 1) := by
    rw [Seq.ofInt_add, Seq.natCast_eq, Seq.one_eq, add_assoc]
  split_ifs with hzero
  · tauto
  · rw [Bool.and_eq_true, Seq.after_iff, Seq.before_iff, hcomm, hedge]
    -- A number far behind wraps in the second test, so the two go together.
    by_cases hfar : Seq.rel sk.ackedSeq th.seq < -2147400000
    · have hrel : Seq.rel sk.ackedSeq (th.seq + Seq.ofInt (th.span + 1)) =
          Seq.rel sk.ackedSeq th.seq + (th.span + 1) := by
        apply Seq.rel_add_right <;> omega
      omega
    · have hrel : Seq.rel (sk.ackedSeq + Seq.ofInt (sk.window + 1)) th.seq =
          Seq.rel sk.ackedSeq th.seq - (sk.window + 1) := by
        apply Seq.rel_add_left <;> omega
      by_cases hup : Seq.rel sk.ackedSeq th.seq ≤ sk.window
      · have hrel' : Seq.rel sk.ackedSeq (th.seq + Seq.ofInt (th.span + 1)) =
            Seq.rel sk.ackedSeq th.seq + (th.span + 1) := by
          apply Seq.rel_add_right <;> omega
        omega
      · omega

theorem QueueOk.insert {a c : Seq} {w : ℕ} {l : List Skb} (h : QueueOk a c w l) (hw : w < 65536)
    (hends : q.th.syn = false ∧ q.ackSeq = q.seq + BitVec.ofNat 32 q.th.span)
    (hacked : q.acked = false) (hused : q.used = false)
    (hmemory : (l.map (·.th.memLen)).sum + q.th.memLen ≤ 32767)
    (hlo : 0 ≤ q.pos a + q.th.span) (hhi : q.pos a ≤ w) :
    QueueBase a c w ((place q l.reverse []).1.reverse ++ q :: (place q l.reverse []).2) ∧
      (∀ p ∈ (place q l.reverse []).1, p.pos a ≤ 0 → p.acked = true) ∧
      (∀ p ∈ (place q l.reverse []).2, p.pos a ≤ 0 → p.acked = true) := by
  have hspan := q.th.span_le
  have hnear : q.Near a := ⟨by omega, by omega⟩
  obtain ⟨dropped, hsplit, hsame, hone, -⟩ := place_split q l.reverse []
  have horder := place_order hnear l.reverse []
    (fun p hp => h.near hw (mem_reverse.mp hp)) (pairwise_reverse.mpr h.sorted)
    (fun p hp => absurd hp not_mem_nil)
  generalize place q l.reverse [] = placed at *
  obtain ⟨earlier, later⟩ := placed
  simp only [reverse_reverse, append_nil] at hsplit horder ⊢
  have hle : ∀ p ∈ earlier.reverse, p.pos a ≤ q.pos a := fun p hp =>
    (horder.1 p (mem_reverse.mp hp)).2
  have hin1 : ∀ p ∈ earlier.reverse, p ∈ l := by
    intro p hp
    rw [hsplit]
    exact mem_append_left _ (mem_append_left _ hp)
  have hin2 : ∀ p ∈ later, p ∈ l := by
    intro p hp
    rw [hsplit]
    exact mem_append_right _ hp
  have hind : ∀ d ∈ dropped, d ∈ l := by
    intro p hp
    rw [hsplit]
    exact mem_append_left _ (mem_append_right _ hp)
  have hmem : ∀ p ∈ earlier.reverse ++ q :: later, p = q ∨ p ∈ l := by
    intro p hp
    rcases mem_append.mp hp with hp | hp
    · exact .inr (hin1 p hp)
    · rcases mem_cons.mp hp with rfl | hp
      · exact .inl rfl
      · exact .inr (hin2 p hp)
  refine ⟨?_, fun p hp => h.acks p (hin1 p (mem_reverse.mpr hp)), fun p hp => h.acks p (hin2 p hp)⟩
  refine ⟨?_, ?_, ?_, ?_, ?_, ?_, ?_, h.copied, ?_, ?_⟩
  · intro p hp
    rcases hmem p hp with rfl | hp
    · exact hends
    · exact h.ends p hp
  · have hsorted := h.sorted
    rw [hsplit, pairwise_append, pairwise_append] at hsorted
    rw [pairwise_append, pairwise_cons]
    refine ⟨hsorted.1.1, ⟨fun p hp => (horder.2 p hp).le, hsorted.2.1⟩, ?_⟩
    intro p hp r hr
    rcases mem_cons.mp hr with rfl | hr
    · exact hle p hp
    · exact hsorted.2.2 p (mem_append_left _ hp) r hr
  · intro p hp hflag
    rcases hmem p hp with rfl | hp
    · rw [hacked] at hflag
      exact absurd hflag Bool.false_ne_true
    · exact h.acked_le p hp hflag
  · intro p hp hflag
    rcases hmem p hp with rfl | hp
    · rw [hacked] at hflag
      exact absurd hflag Bool.false_ne_true
    · exact h.no_fin p hp hflag
  · intro p hp
    rcases hmem p hp with rfl | hp
    · exact hhi
    · exact h.upper p hp
  · have hbehind := h.behind
    rw [hsplit] at hbehind
    apply Behind.insert (by omega) _ hbehind
    cases dropped with
    | nil => exact Nat.zero_le _
    | cons d rest =>
      have hrest : rest = [] := length_eq_zero_iff.mp (by simp at hone; simpa using hone)
      have hd := hsame d mem_cons_self
      have hpos : d.pos a = q.pos a := Skb.pos_eq_of_seq hd.1.symm
      rw [hrest, map_singleton, sum_singleton]
      unfold Skb.before
      by_cases hneg : d.pos a ≤ 0
      · omega
      · omega
  · rw [hsplit] at hmemory
    simp only [map_append, sum_append, map_cons, sum_cons] at hmemory ⊢
    omega
  · intro p hp hflag
    rcases hmem p hp with rfl | hp
    · rw [hused] at hflag
      exact absurd hflag Bool.false_ne_true
    · exact h.used p hp hflag
  · intro x hxlo hxhi
    obtain ⟨p, hp, hplo, hphi⟩ := h.covered x hxlo hxhi
    have hpl := hp
    rw [hsplit, mem_append, mem_append] at hp
    rcases hp with (hp | hp) | hp
    · exact ⟨p, mem_append_left _ hp, hplo, hphi⟩
    · have hd := hsame p hp
      have hpos : p.pos a = q.pos a := Skb.pos_eq_of_seq hd.1.symm
      exact ⟨q, mem_append_right _ mem_cons_self, by omega, by omega⟩
    · exact ⟨p, mem_append_right _ (mem_cons_of_mem q hp), hplo, hphi⟩

end LinuxKernel.Tcp
