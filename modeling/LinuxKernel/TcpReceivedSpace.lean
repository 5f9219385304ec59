import LinuxKernel.TcpOpenStep

/-!
# The received sequence space

A history of a connection records where the segments that `tcp_data` got lie, and which of them it
dropped before they were acknowledged.
-/

namespace LinuxKernel.Tcp
open List

def Segment.extent (th : Segment) (sk : Sock) (acked : ℤ) : ℤ × ℕ :=
  (acked + Seq.rel sk.ackedSeq th.seq, th.span)

/-- `acked` counts how far `acked_seq` has come; `dropped` are the segments that left the queue, or
did not get on it, before they were acknowledged. -/
structure History where
  sock : Sock
  acked : ℤ
  received : Multiset (ℤ × ℕ)
  dropped : Multiset (ℤ × ℕ)

def History.start (sk : Sock) : History := ⟨sk, 0, 0, 0⟩

def History.extents (h : History) (l : List Skb) : Multiset (ℤ × ℕ) :=
  ((l.map fun q => q.th.extent h.sock h.acked : List (ℤ × ℕ)) : Multiset (ℤ × ℕ))

def History.pending (h : History) (e : Event) : Multiset (ℤ × ℕ) :=
  h.extents (h.sock.rqueue.filter fun q => !q.acked) +
    (((h.sock.given e).map fun th => th.extent h.sock h.acked).toList : Multiset (ℤ × ℕ))

def History.drops (h : History) (e : Event) : Multiset (ℤ × ℕ) :=
  let next : History :=
    { h with
      sock := h.sock.step e
      acked := h.acked + Seq.rel h.sock.ackedSeq (h.sock.step e).ackedSeq }
  h.pending e - next.extents next.sock.rqueue

def History.step (h : History) (e : Event) : History where
  sock := h.sock.step e
  acked := h.acked + Seq.rel h.sock.ackedSeq (h.sock.step e).ackedSeq
  received := h.received +
    (((h.sock.given e).map fun th => th.extent h.sock h.acked).toList : Multiset (ℤ × ℕ))
  dropped := h.dropped + h.drops e

def History.run (h : History) : List Event → History
  | [] => h
  | e :: es => (h.step e).run es

def History.kept (h : History) : Multiset (ℤ × ℕ) := h.received - h.dropped

structure RunEnd (s : Multiset (ℤ × ℕ)) (n : ℤ) : Prop where
  covered : ∀ x, 0 ≤ x → x < n → ∃ e ∈ s, e.1 ≤ x ∧ x < e.1 + e.2
  maximal : ∀ e ∈ s, ¬(e.1 ≤ n ∧ n < e.1 + e.2)

structure Sock.QueueSound (sk : Sock) : Prop where
  sorted : sk.rqueue.Pairwise fun p q => ¬Seq.after p.seq q.seq = true
  acks : ∀ q ∈ sk.rqueue, q.acked = true ↔ ¬Seq.after q.seq sk.ackedSeq = true

/-- What holds of each step: `acked_seq` does not go back, what is acknowledged stays on the queue
that `tcp_data` works on or is replaced, and what is dropped lies beyond `acked_seq` and is
replaced or makes room. -/
structure History.StepSound (h : History) (e : Event) : Prop where
  forward : ¬Seq.before (h.sock.step e).ackedSeq h.sock.ackedSeq = true
  keeps : ∀ th, h.sock.given e = some th → ∀ q ∈ h.sock.rqueue, q.acked = true →
    q ∈ (h.sock.step e).rqueue ∨
      (q.seq = th.seq ∧ q.len ≤ th.data.length ∧
        ∃ p ∈ (h.sock.step e).rqueue, p.th = th ∧ p.acked = true)
  drops : ∀ x ∈ h.drops e, h.acked < x.1 ∧ ∃ th, h.sock.given e = some th ∧
    (x.1 = (th.extent h.sock h.acked).1 ∨ h.sock.Lacks e)

structure Sock.Receives (sk : Sock) (es : List Event) : Prop where
  queue : (sk.run es).QueueSound
  place : (sk.run es).ackedSeq = sk.ackedSeq + Seq.ofInt ((History.start sk).run es).acked
  run_end : RunEnd ((History.start sk).run es).kept ((History.start sk).run es).acked
  steps : ∀ es1 e es2, es = es1 ++ e :: es2 → ((History.start sk).run es1).StepSound e

section history

variable {h : History} {e : Event} {d : ℕ}

theorem Settled.mem_extents_acked {l : List Skb} {x : ℤ × ℕ} (hs : Settled h.sock.ackedSeq l)
    (hx : x ∈ h.extents l) (hle : x.1 ≤ h.acked) : x.1 + x.2 ≤ h.acked := by
  unfold History.extents at hx
  rw [Multiset.mem_coe, mem_map] at hx
  obtain ⟨q, hq, rfl⟩ := hx
  change h.acked + q.pos h.sock.ackedSeq ≤ h.acked at hle
  change h.acked + q.pos h.sock.ackedSeq + (q.th.span : ℤ) ≤ h.acked
  have := hs.ends q hq ((hs.acks q hq).mpr (by omega))
  omega

theorem Settled.unacked_eq {l : List Skb} (hs : Settled h.sock.ackedSeq l) :
    h.extents (l.filter fun q => !q.acked) = (h.extents l).filter fun x => h.acked < x.1 := by
  unfold History.extents
  rw [Multiset.filter_coe, filter_map]
  congr 2
  apply filter_congr
  intro q hq
  have hacks := hs.acks q hq
  have hiff : (h.acked < h.acked + q.pos h.sock.ackedSeq) ↔ ¬q.acked = true := by
    rw [hacks]
    omega
  change (!q.acked) = decide (h.acked < h.acked + q.pos h.sock.ackedSeq)
  by_cases hq' : q.acked = true
  · rw [hq', decide_eq_false (fun hlt => hiff.mp hlt hq')]
    rfl
  · rw [decide_eq_true (hiff.mpr hq'), Bool.not_eq_true']
    exact Bool.eq_false_iff.mpr hq'

structure History.Moves (h : History) (e : Event) (d : ℕ) : Prop where
  acked : (h.step e).acked = h.acked + d
  seq : (h.step e).sock.ackedSeq = h.sock.ackedSeq + Seq.ofInt d
  settled : Settled (h.step e).sock.ackedSeq (h.step e).sock.rqueue
  extents : (h.step e).extents (h.step e).sock.rqueue = h.extents (h.step e).sock.rqueue
  queue : h.extents (h.step e).sock.rqueue ≤ h.extents h.sock.rqueue +
    (((h.sock.given e).map fun th => th.extent h.sock h.acked).toList : Multiset (ℤ × ℕ))
  covered : ∀ x, h.acked ≤ x → x < h.acked + d →
    ∃ y ∈ h.extents (h.step e).sock.rqueue, y.1 ≤ x ∧ x < y.1 + y.2

theorem History.Moves.drops_eq (hm : h.Moves e d) :
    h.drops e = h.pending e - h.extents (h.step e).sock.rqueue := by
  rw [← hm.extents]
  rfl

structure History.Balanced (h : History) (old : Multiset (ℤ × ℕ)) : Prop where
  balance : h.received = h.dropped + (old + h.extents (h.sock.rqueue.filter fun q => !q.acked))
  behind : ∀ y ∈ old, y.1 + y.2 ≤ h.acked
  covered : ∀ x, 0 ≤ x → x < h.acked → ∃ y ∈ old, y.1 ≤ x ∧ x < y.1 + y.2

theorem History.Moves.balanced {old : Multiset (ℤ × ℕ)} (hm : h.Moves e d)
    (hs : Settled h.sock.ackedSeq h.sock.rqueue) (hb : h.Balanced old) :
    ∃ old', (h.step e).Balanced old' := by
  have hacked := hm.acked
  have hunacked := hs.unacked_eq
  have hunacked' := hm.settled.unacked_eq
  have hdrops := hm.drops_eq
  generalize hqueue : h.extents (h.step e).sock.rqueue = queue at *
  have hqueueLe := hm.queue
  have hextents := hm.extents
  rw [hqueue] at hqueueLe hextents
  rw [hextents, hacked] at hunacked'
  generalize hgiven : (((h.sock.given e).map fun th => th.extent h.sock h.acked).toList :
    Multiset (ℤ × ℕ)) = given at *
  have hpending : h.pending e =
      (h.extents h.sock.rqueue).filter (fun x => h.acked < x.1) + given := by
    unfold History.pending
    rw [hunacked, hgiven]
  -- What is on the queue and not acknowledged was waiting before.
  have hwaiting : queue.filter (fun x => h.acked + d < x.1) ≤ h.pending e := by
    rw [hpending]
    refine (Multiset.filter_le_filter _ hqueueLe).trans ?_
    rw [Multiset.filter_add]
    refine add_le_add ?_ (Multiset.filter_le _ _)
    exact Multiset.monotone_filter_right _ fun x hx => by omega
  have hinter : (h.pending e ∩ queue).filter (fun x => h.acked + d < x.1) =
      queue.filter fun x => h.acked + d < x.1 := by
    rw [Multiset.filter_inter]
    refine le_antisymm Multiset.inter_le_right (Multiset.le_inter ?_ le_rfl)
    rw [Multiset.le_filter]
    exact ⟨hwaiting, fun x hx => (Multiset.mem_filter.mp hx).2⟩
  have hsplit := Multiset.filter_add_not (fun x : ℤ × ℕ => h.acked + d < x.1)
  refine ⟨old + (h.pending e ∩ queue).filter fun x => ¬h.acked + d < x.1, ?_, ?_, ?_⟩
  · change h.received + _ = h.dropped + h.drops e + _
    rw [hgiven, hb.balance, hunacked, hdrops, hunacked', ← hinter]
    have hall := Multiset.sub_add_inter (h.pending e) queue
    calc h.dropped + (old + (h.extents h.sock.rqueue).filter fun x => h.acked < x.1) + given
        = h.dropped + (old + h.pending e) := by
          rw [hpending]
          abel
      _ = h.dropped + (old + (h.pending e - queue + h.pending e ∩ queue)) := by
          rw [hall]
      _ = h.dropped + (old + (h.pending e - queue +
            ((h.pending e ∩ queue).filter (fun x => h.acked + d < x.1) +
              (h.pending e ∩ queue).filter fun x => ¬h.acked + d < x.1))) := by
          rw [hsplit]
      _ = _ := by
          generalize h.pending e - queue = lost
          abel
  · intro y hy
    rcases Multiset.mem_add.mp hy with hy | hy
    · have := hb.behind y hy
      omega
    · rw [Multiset.mem_filter, Multiset.mem_inter] at hy
      have := hm.settled.mem_extents_acked (hextents ▸ hy.1.2) (by rw [hacked]; omega)
      omega
  · intro x hlow hx
    rw [hacked] at hx
    by_cases hold : x < h.acked
    · obtain ⟨y, hy, hcover⟩ := hb.covered x hlow hold
      exact ⟨y, Multiset.mem_add.mpr (.inl hy), hcover⟩
    · obtain ⟨y, hy, hstart, hend⟩ := hm.covered x (by omega) hx
      rw [hqueue] at hy
      refine ⟨y, Multiset.mem_add.mpr (.inr ?_), hstart, hend⟩
      rw [Multiset.mem_filter, Multiset.mem_inter]
      refine ⟨⟨?_, hy⟩, by omega⟩
      rw [hpending, Multiset.mem_add]
      rcases Multiset.mem_add.mp (Multiset.mem_of_le hqueueLe hy) with hin | hin
      · left
        rw [Multiset.mem_filter]
        refine ⟨hin, ?_⟩
        by_contra hle
        have := hs.mem_extents_acked hin (by omega)
        omega
      · exact .inr hin

theorem unmark_extents {l l' : List Skb} (hl : l.map Skb.unmark = l'.map Skb.unmark) :
    h.extents l = h.extents l' := by
  have hmap := congrArg (List.map fun q : Skb => q.th.extent h.sock h.acked) hl
  rw [map_map, map_map] at hmap
  exact congrArg (fun m : List (ℤ × ℕ) => (m : Multiset (ℤ × ℕ))) hmap

theorem Stays.moves {o : Prop} (hstays : Stays o h.sock (h.sock.step e))
    (hs : Settled (h.sock.step e).ackedSeq (h.sock.step e).rqueue) : h.Moves e 0 := by
  have hzero : Seq.rel h.sock.ackedSeq (h.sock.step e).ackedSeq = 0 := by
    rw [hstays.acked]
    exact Seq.rel_self _
  have hacked : (h.step e).acked = h.acked + (0 : ℕ) := by
    change h.acked + Seq.rel h.sock.ackedSeq (h.sock.step e).ackedSeq = _
    rw [hzero]
    rfl
  refine ⟨hacked, ?_, hs, ?_, ?_, fun x hlow hx => by omega⟩
  · change (h.sock.step e).ackedSeq = h.sock.ackedSeq + 0
    rw [hstays.acked, add_zero]
  · unfold History.extents Segment.extent
    rw [hacked]
    simp only [show (h.step e).sock.ackedSeq = h.sock.ackedSeq from hstays.acked, Nat.cast_zero,
      add_zero]
  · obtain ⟨l, hl, -⟩ := hstays.queue
    have hmap := congrArg (List.map fun q : Skb => q.th.extent h.sock h.acked) hl
    rw [map_append, map_map, map_map] at hmap
    refine le_trans ?_ (Multiset.le_add_right _ _)
    unfold History.extents
    rw [show (h.sock.rqueue.map fun q => q.th.extent h.sock h.acked) = _ from hmap,
      ← Multiset.coe_add]
    exact Multiset.le_add_left _ _

section
variable {th : Segment} {lost : List Skb} {short : Prop}
  (htaken : Taken h.sock.ackedSeq h.sock.rqueue (h.sock.step e).rqueue th d lost short)
include htaken

theorem Taken.moves (hacked : (h.sock.step e).ackedSeq = h.sock.ackedSeq + BitVec.ofNat 32 d)
    (hgiven : h.sock.given e = some th) : h.Moves e d := by
  have hmoved := htaken.moved_le
  have hrel : Seq.rel h.sock.ackedSeq (h.sock.step e).ackedSeq = d := by
    rw [hacked, Seq.natCast_eq]
    exact Seq.rel_eq rfl (by omega) (by omega)
  refine ⟨?_, ?_, ?_, ?_, ?_, ?_⟩
  · change h.acked + Seq.rel h.sock.ackedSeq (h.sock.step e).ackedSeq = _
    rw [hrel]
  · change (h.sock.step e).ackedSeq = _
    rw [hacked, Seq.natCast_eq]
  · change Settled (h.sock.step e).ackedSeq (h.sock.step e).rqueue
    rw [hacked]
    exact htaken.settled
  · unfold History.extents
    congr 1
    apply map_congr_left
    intro q hq
    have hpos := Skb.pos_add q (htaken.near q hq).1 hmoved
    change (h.acked + Seq.rel h.sock.ackedSeq (h.sock.step e).ackedSeq +
      q.pos (h.sock.step e).ackedSeq, q.th.span) = (h.acked + q.pos h.sock.ackedSeq, q.th.span)
    rw [hrel, hacked, hpos]
    congr 1
    omega
  · have hmap := congrArg (Multiset.map fun th : Segment => th.extent h.sock h.acked)
      htaken.segments
    rw [Multiset.map_add, Multiset.map_coe, Multiset.map_coe, Multiset.map_coe, map_map,
      map_map, map_map, map_cons, ← Multiset.cons_coe] at hmap
    rw [hgiven]
    change _ ≤ _ + ((([th.extent h.sock h.acked] : List (ℤ × ℕ))) : Multiset (ℤ × ℕ))
    rw [add_comm, Multiset.coe_singleton, Multiset.singleton_add]
    refine le_of_le_of_eq (Multiset.le_add_right _ _) hmap.symm
  · intro x hlow hx
    obtain ⟨q, hq, hstart, hend⟩ := htaken.covered (x - h.acked) (by omega) (by omega)
    refine ⟨q.th.extent h.sock h.acked, ?_, ?_, ?_⟩
    · unfold History.extents
      rw [Multiset.mem_coe]
      exact mem_map_of_mem hq
    · change h.acked + q.pos h.sock.ackedSeq ≤ x
      omega
    · change x < h.acked + q.pos h.sock.ackedSeq + (q.th.span : ℤ)
      omega

omit htaken in
theorem Stays.drops_eq (hstays : Stays True h.sock (h.sock.step e))
    (hnone : h.sock.given e = none) (hm : h.Moves e 0) : h.drops e = 0 := by
  obtain ⟨l, hl, hacked⟩ := hstays.queue
  have hfilter : ∀ m : List Skb, (m.map Skb.unmark).filter (fun q => !q.acked) =
      (m.filter fun q => !q.acked).map Skb.unmark := fun m => filter_map ..
  have hgone : l.filter (fun q => !q.acked) = [] := by
    rw [filter_eq_nil_iff]
    intro q hq
    rw [hacked trivial q hq]
    exact Bool.false_ne_true
  have hunacked := congrArg (List.filter fun q : Skb => !q.acked) hl
  rw [filter_append, hgone, nil_append, hfilter, hfilter] at hunacked
  have hpending : h.pending e = h.extents ((h.sock.step e).rqueue.filter fun q => !q.acked) := by
    unfold History.pending
    rw [hnone, unmark_extents hunacked]
    exact add_zero _
  have hdrops : h.drops e = h.pending e - h.extents (h.sock.step e).rqueue := hm.drops_eq
  rw [hdrops, hpending]
  apply tsub_eq_zero_of_le
  unfold History.extents
  exact (filter_sublist.map _).subperm

theorem Taken.drops (hgiven : h.sock.given e = some th) (hm : h.Moves e d)
    (hs : Settled h.sock.ackedSeq h.sock.rqueue) {x : ℤ × ℕ} (hx : x ∈ h.drops e) :
    h.acked < x.1 ∧ (x.1 = (th.extent h.sock h.acked).1 ∨ short) := by
  have hdrops : h.drops e = h.pending e - h.extents (h.sock.step e).rqueue := hm.drops_eq
  have hpending : h.pending e = (h.extents h.sock.rqueue).filter (fun x => h.acked < x.1) +
      {th.extent h.sock h.acked} := by
    unfold History.pending
    rw [hs.unacked_eq, hgiven]
    rfl
  have hmap := congrArg (Multiset.map fun th : Segment => th.extent h.sock h.acked)
    htaken.segments
  rw [Multiset.map_add, Multiset.map_coe, Multiset.map_coe, Multiset.map_coe, map_map,
    map_map, map_map, map_cons, ← Multiset.cons_coe] at hmap
  have hall : h.extents h.sock.rqueue + {th.extent h.sock h.acked} =
      h.extents (h.sock.step e).rqueue + h.extents lost := by
    rw [add_comm, Multiset.singleton_add]
    exact hmap
  rw [hdrops] at hx
  constructor
  · have hmem := Multiset.mem_of_le (Multiset.sub_le_self _ _) hx
    rw [hpending, Multiset.mem_add, Multiset.mem_filter, Multiset.mem_singleton] at hmem
    rcases hmem with hmem | rfl
    · exact hmem.2
    · -- A segment that starts at or before `acked_seq` is on the queue afterwards.
      by_contra hle
      obtain ⟨p, hp, hth, -⟩ := htaken.takes (by
        change ¬h.acked < h.acked + th.skb.pos h.sock.ackedSeq at hle
        omega)
      have hin : th.extent h.sock h.acked ∈ h.extents (h.sock.step e).rqueue := by
        unfold History.extents
        rw [Multiset.mem_coe, mem_map]
        exact ⟨p, hp, by rw [hth]⟩
      have hone := Multiset.one_le_count_iff_mem.mpr hin
      have hcount := Multiset.count_pos.mpr hx
      have hnot : Multiset.count (th.extent h.sock h.acked)
          ((h.extents h.sock.rqueue).filter fun x => h.acked < x.1) = 0 := by
        rw [Multiset.count_eq_zero, Multiset.mem_filter]
        exact fun hmem => hle hmem.2
      rw [Multiset.count_sub, hpending, Multiset.count_add, hnot, Multiset.count_singleton_self]
        at hcount
      omega
  · have hlost : x ∈ h.extents lost := by
      refine Multiset.mem_of_le ?_ hx
      rw [tsub_le_iff_left, ← hall, hpending]
      exact add_le_add_left (Multiset.filter_le _ _) _
    unfold History.extents at hlost
    rw [Multiset.mem_coe, mem_map] at hlost
    obtain ⟨q, hq, rfl⟩ := hlost
    rcases htaken.reasons q hq with ⟨hseq, -⟩ | ⟨-, -, hshort⟩
    · left
      unfold Segment.extent
      rw [show q.th.seq = th.seq from hseq]
    · exact .inr hshort

end

structure History.Inv (start : Seq) (h : History) : Prop where
  kept : Kept False h.sock 0
  place : h.sock.ackedSeq = start + Seq.ofInt h.acked
  settled : Settled h.sock.ackedSeq h.sock.rqueue
  balanced : ∃ old, h.Balanced old

theorem History.Moves.stepSound {start : Seq} (hm : h.Moves e d) (hd : d ≤ 98303)
    (hkeeps : ∀ th, h.sock.given e = some th → ∀ q ∈ h.sock.rqueue, q.acked = true →
      q ∈ (h.sock.step e).rqueue ∨ (q.seq = th.seq ∧ q.len ≤ th.data.length ∧
        ∃ p ∈ (h.sock.step e).rqueue, p.th = th ∧ p.acked = true))
    (hdrops : ∀ x ∈ h.drops e, h.acked < x.1 ∧ ∃ th, h.sock.given e = some th ∧
      (x.1 = (th.extent h.sock h.acked).1 ∨ h.sock.Lacks e))
    (hi : h.Inv start) : (h.step e).Inv start ∧ h.StepSound e := by
  obtain ⟨old, hb⟩ := hi.balanced
  refine ⟨⟨hi.kept.step e False.elim, ?_, hm.settled, hm.balanced hi.settled hb⟩, ?_, hkeeps,
    hdrops⟩
  · rw [hm.seq, hm.acked, hi.place, add_assoc, ← Seq.ofInt_add]
  · have hrel : Seq.rel h.sock.ackedSeq (h.sock.step e).ackedSeq = d :=
      Seq.rel_eq hm.seq (by omega) (by omega)
    rw [Seq.before_iff, hrel]
    omega

theorem History.Inv.step {start : Seq} (hi : h.Inv start) (hopen : h.sock.shutFor e = false) :
    (h.step e).Inv start ∧ h.StepSound e := by
  rcases Sock.step_open hi.kept hopen with
    ⟨th, d, lost, hgiven, htaken, hacked⟩ | ⟨hnone, hstays, hsettled⟩
  · have hm := htaken.moves hacked hgiven
    refine hm.stepSound htaken.moved_le ?_ ?_ hi
    · intro t ht
      obtain rfl := Option.some.inj (hgiven.symm.trans ht)
      exact htaken.keeps
    · intro x hx
      obtain ⟨hbeyond, hreason⟩ := htaken.drops hgiven hm hi.settled hx
      exact ⟨hbeyond, th, hgiven, hreason⟩
  · have hm := hstays.moves hsettled
    refine hm.stepSound (by omega) ?_ ?_ hi
    · intro th hth
      rw [hnone] at hth
      cases hth
    · intro x hx
      rw [hstays.drops_eq hnone hm] at hx
      exact absurd hx (Multiset.notMem_zero x)

theorem History.Inv.run {start : Seq} {es : List Event} (hi : h.Inv start)
    (hopen : h.sock.RunOpen es) :
    (h.run es).Inv start ∧ ∀ es1 e es2, es = es1 ++ e :: es2 → (h.run es1).StepSound e := by
  induction es generalizing h with
  | nil =>
    refine ⟨hi, fun es1 e es2 hes => ?_⟩
    have := congrArg List.length hes
    simp at this
  | cons e es ih =>
    obtain ⟨hnext, hstep⟩ := hi.step hopen.1
    obtain ⟨hlast, hsteps⟩ := ih hnext hopen.2
    refine ⟨hlast, fun es1 e' es2 hes => ?_⟩
    cases es1 with
    | nil =>
      rw [nil_append, List.cons.injEq] at hes
      rw [← hes.1]
      exact hstep
    | cons e1 es1 =>
      rw [cons_append, List.cons.injEq] at hes
      rw [← hes.1]
      exact hsteps es1 e' es2 hes.2

theorem History.sock_run (h : History) (es : List Event) : (h.run es).sock = h.sock.run es := by
  induction es generalizing h with
  | nil => rfl
  | cons e es ih => exact ih (h.step e)

theorem Settled.queueSound {sk : Sock} (hs : Settled sk.ackedSeq sk.rqueue) : sk.QueueSound := by
  refine ⟨hs.sorted.imp_of_mem ?_, ?_⟩
  · intro p q hp hq hle
    have hnear := hs.near p hp
    have hnear' := hs.near q hq
    unfold Skb.pos at *
    rw [Seq.after_iff, Seq.rel_trans (a := sk.ackedSeq) (by omega) (by omega)]
    omega
  · intro q hq
    rw [hs.acks q hq, Seq.after_iff, not_lt]
    rfl

theorem History.Balanced.run_end {old : Multiset (ℤ × ℕ)} (hb : h.Balanced old)
    (hs : Settled h.sock.ackedSeq h.sock.rqueue) : RunEnd h.kept h.acked := by
  have hkept : h.kept = old + h.extents (h.sock.rqueue.filter fun q => !q.acked) := by
    unfold History.kept
    rw [hb.balance, add_tsub_cancel_left]
  rw [hkept, hs.unacked_eq]
  refine ⟨?_, ?_⟩
  · intro x hlow hx
    obtain ⟨y, hy, hcover⟩ := hb.covered x hlow hx
    exact ⟨y, Multiset.mem_add.mpr (.inl hy), hcover⟩
  · rintro y hy ⟨hstart, hend⟩
    rcases Multiset.mem_add.mp hy with hy | hy
    · have := hb.behind y hy
      omega
    · have := (Multiset.mem_filter.mp hy).2
      omega

theorem Sock.Fresh.inv {sk : Sock} (hfresh : sk.Fresh) : (History.start sk).Inv sk.ackedSeq := by
  have hempty := hfresh.rqueue
  refine ⟨hfresh.kept False, (add_zero _).symm, ?_, 0, ?_, ?_, ?_⟩
  · change Settled sk.ackedSeq sk.rqueue
    rw [hempty]
    exact ⟨List.Pairwise.nil, by simp, by simp, by simp⟩
  · change (0 : Multiset (ℤ × ℕ)) = 0 + (0 + (History.start sk).extents (sk.rqueue.filter _))
    rw [hempty]
    rfl
  · intro y hy
    exact absurd hy (Multiset.notMem_zero y)
  · intro x hlow hx
    change x < 0 at hx
    omega

/-- In every run in which the socket is open for receiving when `tcp_data` gets a segment, the
queue is sorted, what is at or before `acked_seq` is acknowledged and stays, and `acked_seq` is
the end of the longest contiguous run of what was received and not dropped unacknowledged. -/
theorem run_receives (sk : Sock) (hfresh : sk.Fresh) (es : List Event) (hopen : sk.RunOpen es) :
    sk.Receives es := by
  obtain ⟨hinv, hsteps⟩ := hfresh.inv.run hopen
  obtain ⟨old, hb⟩ := hinv.balanced
  have hsock := (History.start sk).sock_run es
  have hsettled := hinv.settled
  have hplace := hinv.place
  have hend := hb.run_end hsettled
  rw [hsock] at hsettled hplace
  exact ⟨hsettled.queueSound, hplace, hend, hsteps⟩

def bigBuffer : Segment := { threeBytes with seq := 1004, memLen := 1300, fits := by decide }

theorem run_receives_outOfOrder :
    smallBuffer.Receives [.rcv { threeBytes with seq := 1004 } none .ok .ok,
      .rcv threeBytes none .ok .ok] :=
  run_receives smallBuffer smallBuffer_fresh _
    ⟨by decide +kernel, by decide +kernel, trivial⟩

/-- What was received beyond a gap is dropped for lack of room, and `acked_seq` does not come to
its end when the gap is filled. -/
theorem dropped_not_acked :
    ¬∀ sk : Sock, sk.Fresh → ∀ es : List Event, sk.RunOpen es →
      RunEnd ((History.start sk).run es).received ((History.start sk).run es).acked := by
  intro h
  have hrun := h smallBuffer smallBuffer_fresh
    [.rcv bigBuffer none .ok .ok, .rcv threeBytes none .ok .ok]
    ⟨by decide +kernel, by decide +kernel, trivial⟩
  exact hrun.maximal (3, 3) (by decide +kernel) (by decide +kernel)

end history

end LinuxKernel.Tcp
