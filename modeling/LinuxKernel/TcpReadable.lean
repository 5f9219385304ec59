import LinuxKernel.TcpReadStream

/-!
# `tcp_readable` against `tcp_read`

`tcp_readable` walks over the queue with `counted`, the number of the next byte, and
`amount`.  A SYN and a pending urgent byte are subtracted once more than they should be.
-/

namespace LinuxKernel.Tcp
open List

/-- The loop of `tcp_readable`; `sum` is an `int`, `amount` an `unsigned long`. -/
def countReadable (counted : Seq) (amount : BitVec 32) : List Skb → Seq × BitVec 32
  | [] => (counted, amount)
  | skb :: rest =>
    if Seq.before counted skb.seq then (counted, amount)
    else
      let syn := BitVec.ofNat 32 skb.th.syn.toNat
      let sum := BitVec.ofNat 32 skb.len - (counted - skb.seq) + syn
      let next := if 0 ≤ sum.toInt then (counted + sum, amount + sum - syn) else (counted, amount)
      if next.2 ≠ 0 ∧ skb.th.psh then next else countReadable next.1 next.2 rest

def Sock.tcpReadable (sk : Sock) : ℤ :=
  if sk.rqueue.isEmpty then 0
  else
    let total := countReadable (sk.copiedSeq + 1) 0 sk.rqueue
    if total.2 ≠ 0 ∧ sk.urginline = false ∧ sk.urgData ≠ .none ∧
        (sk.urgSeq - sk.copiedSeq).toNat ≤ (total.1 - sk.copiedSeq).toNat then
      (total.2 - 1).toInt
    else total.2.toInt

/-- How far buffers reach in order from `n` on, and how many of those that end there or further
have a SYN. -/
def tally (base : Seq) (n : ℤ) (l : List Skb) : ℤ × ℕ :=
  l.foldl (fun t q => (max t.1 (q.finish base),
    t.2 + if q.th.syn = true ∧ t.1 ≤ q.finish base then 1 else 0)) (n, 0)

def Pushed (base : Seq) (n : ℤ) (l : List Skb) : Prop :=
  ∃ l' q, l = l' ++ [q] ∧ q.th.psh = true ∧ (tally base n l).1 ≠ n + (tally base n l).2

/-- Buffers that follow each other without a hole and without a push before the last one. -/
inductive Joined (base : Seq) (n : ℤ) : List Skb → Prop
  | nil : Joined base n []
  | snoc {l : List Skb} {q : Skb} (joined : Joined base n l) (unpushed : ¬Pushed base n l)
      (meets : q.pos base ≤ (tally base n l).1) : Joined base n (l ++ [q])

structure UpToPush (base : Seq) (n : ℤ) (l1 l2 : List Skb) : Prop where
  joined : Joined base n l1
  stops : l2 = [] ∨ Pushed base n l1 ∨ ∃ q rest, l2 = q :: rest ∧ (tally base n l1).1 < q.pos base

def urgShort (oob : Option ℤ) (c : ℤ) : ℕ :=
  match oob with
  | none => 0
  | some u => if u ≤ c then 1 else 0

section walk

variable {base : Seq} {n : ℤ} {l l1 l2 : List Skb} {q : Skb}

section
variable (base : Seq) (n : ℤ) (l : List Skb)

theorem tally_snoc (q : Skb) :
    tally base n (l ++ [q]) = (max (tally base n l).1 (q.finish base),
      (tally base n l).2 +
        if q.th.syn = true ∧ (tally base n l).1 ≤ q.finish base then 1 else 0) := by
  unfold tally
  rw [foldl_append]
  rfl

theorem le_tally : n ≤ (tally base n l).1 := by
  induction l using List.reverseRecOn with
  | nil => exact le_rfl
  | append_singleton l q ih =>
    rw [tally_snoc]
    exact ih.trans (le_max_left _ _)

theorem tally_short_le : (tally base n l).2 ≤ l.length := by
  induction l using List.reverseRecOn with
  | nil => exact le_rfl
  | append_singleton l q ih =>
    rw [tally_snoc, length_append, length_singleton]
    split_ifs <;> omega

end

theorem tally_reach_le {m : ℤ} (hn : n ≤ m) (h : ∀ q ∈ l, q.finish base ≤ m) :
    (tally base n l).1 ≤ m := by
  induction l using List.reverseRecOn with
  | nil => exact hn
  | append_singleton l q ih =>
    rw [tally_snoc]
    refine max_le (ih fun p hp => h p (mem_append_left _ hp)) (h q ?_)
    exact mem_append_right _ (mem_singleton_self q)

theorem pushed_snoc : Pushed base n (l ++ [q]) ↔ q.th.psh = true ∧
    (tally base n (l ++ [q])).1 ≠ n + (tally base n (l ++ [q])).2 := by
  constructor
  · rintro ⟨l', p, heq, hpsh, hne⟩
    obtain ⟨-, rfl⟩ := append_inj' heq rfl |>.imp_right singleton_inj.mp
    exact ⟨hpsh, hne⟩
  · rintro ⟨hpsh, hne⟩
    exact ⟨l, q, rfl, hpsh, hne⟩

theorem Joined.exists_upToPush (h : Joined base n l1) (l2 : List Skb) :
    ∃ l3 l4, l2 = l3 ++ l4 ∧ UpToPush base n (l1 ++ l3) l4 := by
  induction l2 generalizing l1 with
  | nil =>
    refine ⟨[], [], rfl, ?_, .inl rfl⟩
    rw [append_nil]
    exact h
  | cons q l2 ih =>
    by_cases hpushed : Pushed base n l1
    · refine ⟨[], q :: l2, rfl, ?_, .inr (.inl ?_)⟩
      · rw [append_nil]
        exact h
      · rw [append_nil]
        exact hpushed
    by_cases hhole : (tally base n l1).1 < q.pos base
    · refine ⟨[], q :: l2, rfl, ?_, .inr (.inr ⟨q, l2, rfl, ?_⟩)⟩
      · rw [append_nil]
        exact h
      · rw [append_nil]
        exact hhole
    · have hmeets : q.pos base ≤ (tally base n l1).1 := by omega
      obtain ⟨l3, l4, hl, hstop⟩ := ih (h.snoc hpushed hmeets)
      refine ⟨q :: l3, l4, ?_, ?_⟩
      · rw [hl]
        rfl
      · rw [append_assoc] at hstop
        exact hstop

def countedAt (base : Seq) (n : ℤ) (l : List Skb) : Seq × BitVec 32 :=
  (base + Seq.ofInt (tally base n l).1, Seq.ofInt ((tally base n l).1 - n - (tally base n l).2))

theorem ofInt_eq_zero {z : ℤ} (hlow : -2147483648 ≤ z) (hhigh : z < 2147483648) :
    Seq.ofInt z = 0 ↔ z = 0 := by
  constructor
  · intro h
    rw [← Seq.toInt_ofInt hlow hhigh, h]
    rfl
  · rintro rfl
    rfl

theorem before_reached {x : ℤ} (hlow : 0 ≤ x) (hhigh : x ≤ 1073741824) (hrange : q.InRange base) :
    Seq.before (base + Seq.ofInt x) q.seq = true ↔ x < q.pos base := by
  have hplace : 1 + (base + Seq.ofInt x - 1) = base + Seq.ofInt x := add_sub_cancel _ _
  rw [← before_reader hplace hlow hhigh hrange, hplace]

theorem countedAt_ne_zero (hn : 0 ≤ n) (hreach : (tally base n l).1 ≤ 1073741824)
    (hlength : l.length ≤ 1073741824) :
    (countedAt base n l).2 ≠ 0 ↔ (tally base n l).1 ≠ n + (tally base n l).2 := by
  have hfrom := le_tally base n l
  have hshort := tally_short_le base n l
  unfold countedAt
  rw [Ne, ofInt_eq_zero (by omega) (by omega)]
  omega

theorem countReadable_cons (hn : 0 ≤ n) (hmeets : q.pos base ≤ (tally base n l).1)
    (hrange : q.InRange base) (hreach : (tally base n l).1 ≤ 1073741824)
    (hlength : l.length < 1073741824) (rest : List Skb) :
    countReadable (countedAt base n l).1 (countedAt base n l).2 (q :: rest) =
      if (tally base n (l ++ [q])).1 ≠ n + (tally base n (l ++ [q])).2 ∧ q.th.psh = true then
        countedAt base n (l ++ [q])
      else
        countReadable (countedAt base n (l ++ [q])).1 (countedAt base n (l ++ [q])).2 rest := by
  have hfrom := le_tally base n l
  have hsyn : q.th.syn.toNat ≤ 1 := Bool.toNat_le _
  have hbefore : Seq.before (base + Seq.ofInt (tally base n l).1) q.seq = false := by
    rw [← Bool.not_eq_true, before_reached (by omega) hreach hrange]
    omega
  have hsum : BitVec.ofNat 32 q.len - (base + Seq.ofInt (tally base n l).1 - q.seq) +
      BitVec.ofNat 32 q.th.syn.toNat = Seq.ofInt (q.finish base - (tally base n l).1) := by
    have hseq : q.seq = base + Seq.ofInt (q.pos base) := (Seq.add_ofInt_rel base q.seq).symm
    unfold Skb.finish Skb.first
    nth_rewrite 1 [hseq]
    rw [Seq.natCast_eq, Seq.natCast_eq, Seq.ofInt_sub, Seq.ofInt_add, Seq.ofInt_add]
    abel
  have hint : (Seq.ofInt (q.finish base - (tally base n l).1)).toInt =
      q.finish base - (tally base n l).1 := by
    unfold Skb.finish Skb.first
    unfold Skb.InRange at hrange
    exact Seq.toInt_ofInt (by omega) (by omega)
  have hnext : (if 0 ≤ (Seq.ofInt (q.finish base - (tally base n l).1)).toInt then
      ((countedAt base n l).1 + Seq.ofInt (q.finish base - (tally base n l).1),
        (countedAt base n l).2 + Seq.ofInt (q.finish base - (tally base n l).1) -
          BitVec.ofNat 32 q.th.syn.toNat)
      else countedAt base n l) = countedAt base n (l ++ [q]) := by
    unfold countedAt
    rw [tally_snoc]
    by_cases hbeyond : (tally base n l).1 ≤ q.finish base
    · have hcount : (if q.th.syn = true ∧ (tally base n l).1 ≤ q.finish base then 1 else 0) =
          q.th.syn.toNat := by
        cases q.th.syn <;> simp [hbeyond]
      rw [if_pos (by omega), hcount, max_eq_right hbeyond, Seq.natCast_eq, add_assoc,
        ← Seq.ofInt_add, ← Seq.ofInt_add, ← Seq.ofInt_sub]
      congr 2
      · congr 1
        omega
      · push_cast
        omega
    · rw [if_neg (by omega), if_neg fun h => hbeyond h.2, max_eq_left (by omega), Nat.add_zero]
  have hend := tally_snoc base n l q
  have hbound : (tally base n (l ++ [q])).1 ≤ 1073741824 := by
    rw [hend]
    unfold Skb.finish Skb.first
    unfold Skb.InRange at hrange
    omega
  have hlength' : (l ++ [q]).length ≤ 1073741824 := by
    rw [length_append, length_singleton]
    omega
  have hzero := countedAt_ne_zero hn hbound hlength'
  change (if Seq.before (base + Seq.ofInt (tally base n l).1) q.seq = true then _ else _) = _
  rw [hbefore, if_neg Bool.false_ne_true]
  dsimp only
  rw [show BitVec.ofNat 32 q.len - ((countedAt base n l).1 - q.seq) +
    BitVec.ofNat 32 q.th.syn.toNat = Seq.ofInt (q.finish base - (tally base n l).1) from hsum,
    hnext]
  exact if_congr (and_congr_left' hzero) rfl rfl

theorem Joined.count_eq (h : Joined base n l1) (hn : 0 ≤ n) (hhigh : n ≤ 1073741824)
    (hrange : ∀ q ∈ l1, q.InRange base) (hlength : l1.length ≤ 1073741824) :
    (Pushed base n l1 → ∀ l2,
      countReadable (base + Seq.ofInt n) 0 (l1 ++ l2) = countedAt base n l1) ∧
    (¬Pushed base n l1 → ∀ l2, countReadable (base + Seq.ofInt n) 0 (l1 ++ l2) =
      countReadable (countedAt base n l1).1 (countedAt base n l1).2 l2) := by
  induction h with
  | nil =>
    constructor
    · rintro ⟨l', q, heq, -⟩
      exact absurd heq.symm (by simp)
    · intro _ l2
      have hstart : countedAt base n [] = (base + Seq.ofInt n, 0) := by
        change (base + Seq.ofInt n, Seq.ofInt (n - n - 0)) = _
        rw [sub_self]
        rfl
      rw [hstart]
      rfl
  | @snoc l q joined unpushed meets ih =>
    rw [length_append, length_singleton] at hlength
    have hl : ∀ p ∈ l, p.InRange base := fun p hp => hrange p (mem_append_left _ hp)
    have hq : q.InRange base := hrange q (mem_append_right _ (mem_singleton_self q))
    have hreach := tally_reach_le hhigh fun p hp => (hl p hp).finish_le
    have hturn : ∀ l2, countReadable (base + Seq.ofInt n) 0 (l ++ [q] ++ l2) =
        if (tally base n (l ++ [q])).1 ≠ n + (tally base n (l ++ [q])).2 ∧ q.th.psh = true then
          countedAt base n (l ++ [q])
        else
          countReadable (countedAt base n (l ++ [q])).1 (countedAt base n (l ++ [q])).2 l2 := by
      intro l2
      rw [append_assoc, singleton_append, (ih hl (by omega)).2 unpushed,
        countReadable_cons hn meets hq hreach (by omega)]
    constructor
    · intro hpushed l2
      rw [hturn, if_pos (pushed_snoc.mp hpushed).symm]
    · intro hpushed l2
      rw [hturn, if_neg fun h => hpushed (pushed_snoc.mpr h.symm)]

theorem UpToPush.count_eq (h : UpToPush base n l1 l2) (hn : 0 ≤ n) (hhigh : n ≤ 1073741824)
    (hrange : ∀ q ∈ l1 ++ l2, q.InRange base) (hlength : l1.length ≤ 1073741824) :
    countReadable (base + Seq.ofInt n) 0 (l1 ++ l2) = countedAt base n l1 := by
  have hl1 : ∀ p ∈ l1, p.InRange base := fun p hp => hrange p (mem_append_left _ hp)
  obtain ⟨hpush, hnopush⟩ := h.joined.count_eq hn hhigh hl1 hlength
  by_cases hpushed : Pushed base n l1
  · exact hpush hpushed l2
  · rw [hnopush hpushed]
    rcases h.stops with rfl | hstop | ⟨q, rest, rfl, hhole⟩
    · rfl
    · exact absurd hstop hpushed
    · have hq := hrange q (mem_append_right _ mem_cons_self)
      have hfrom := le_tally base n l1
      have hreach := tally_reach_le hhigh fun p hp => (hl1 p hp).finish_le
      have hbefore : Seq.before (countedAt base n l1).1 q.seq = true :=
        (before_reached (by omega) hreach hq).mpr hhole
      rw [countReadable, if_pos hbefore]

theorem urgShort_eq {sk : Sock} (h : sk.Readable base n) {c : ℤ} (hc : n ≤ c)
    (hhigh : c ≤ 1073741824) :
    (sk.urginline = false ∧ sk.urgData ≠ .none ∧
        (sk.urgSeq - sk.copiedSeq).toNat ≤ (base + Seq.ofInt c - sk.copiedSeq).toNat) ↔
      urgShort (sk.outOfBand base) c = 1 := by
  have hlow := h.low
  have hcopied : sk.copiedSeq = base + Seq.ofInt (n - 1) := by
    rw [Seq.ofInt_sub, ← Seq.one_eq, ← add_sub_assoc, ← h.reader, add_sub_cancel_right]
  have hcounted : ((base + Seq.ofInt c - sk.copiedSeq).toNat : ℤ) = c - n + 1 := by
    rw [hcopied, add_sub_add_left_eq_sub, ← Seq.ofInt_sub]
    unfold Seq.ofInt
    rw [BitVec.toNat_ofInt]
    omega
  unfold urgShort Sock.outOfBand Sock.urgMark
  cases hinline : sk.urginline with
  | true => simp
  | false =>
    by_cases hurg : sk.urgData = .none
    · simp [hurg]
    · have hmark := h.mark hurg
      have hbounds := Seq.rel_bounds base sk.urgSeq
      have hurgent : ((sk.urgSeq - sk.copiedSeq).toNat : ℤ) = Seq.rel base sk.urgSeq - n + 1 := by
        nth_rewrite 1 [← Seq.add_ofInt_rel base sk.urgSeq]
        rw [hcopied, add_sub_add_left_eq_sub, ← Seq.ofInt_sub]
        unfold Seq.ofInt
        rw [BitVec.toNat_ofInt]
        omega
      rw [if_neg hurg]
      simp only [Bool.false_eq_true, if_false]
      constructor
      · rintro ⟨-, -, hle⟩
        rw [if_pos (by omega)]
      · intro hone
        refine ⟨trivial, hurg, ?_⟩
        split_ifs at hone
        omega

theorem urgShort_le (oob : Option ℤ) (c : ℤ) : urgShort oob c ≤ 1 := by
  unfold urgShort
  split
  · omega
  · split_ifs <;> omega

theorem UpToPush.tcpReadable_eq {sk : Sock} (h : sk.Readable base n)
    (hl : sk.rqueue = l1 ++ l2) (hstop : UpToPush base n l1 l2)
    (hlength : sk.rqueue.length ≤ 1073741824) :
    sk.tcpReadable =
      if (tally base n l1).1 = n + (tally base n l1).2 then 0
      else (tally base n l1).1 - n - (tally base n l1).2 -
        urgShort (sk.outOfBand base) (tally base n l1).1 := by
  have hrange : ∀ q ∈ l1 ++ l2, q.InRange base := fun q hq => h.queue.near q (hl ▸ hq)
  have hlow := h.low
  have hlen : l1.length ≤ 1073741824 := by
    rw [hl, length_append] at hlength
    omega
  have hfrom := le_tally base n l1
  have hshort := tally_short_le base n l1
  have hreach := tally_reach_le h.high fun p hp =>
    (hrange p (mem_append_left l2 hp)).finish_le
  have hurg := urgShort_eq h hfrom hreach
  have hurgLe := urgShort_le (sk.outOfBand base) (tally base n l1).1
  unfold Sock.tcpReadable
  by_cases hempty : sk.rqueue.isEmpty = true
  · rw [if_pos hempty]
    rw [List.isEmpty_iff, hl, List.append_eq_nil_iff] at hempty
    rw [hempty.1]
    exact (if_pos (add_zero n).symm).symm
  · rw [if_neg hempty]
    have hcount := hstop.count_eq hlow h.high hrange hlen
    rw [h.reader, hl, hcount]
    have hzero := countedAt_ne_zero hlow hreach hlen
    have hamount : (countedAt base n l1).2.toInt = (tally base n l1).1 - n - (tally base n l1).2 :=
      Seq.toInt_ofInt (by omega) (by omega)
    have hless : ((countedAt base n l1).2 - 1).toInt =
        (tally base n l1).1 - n - (tally base n l1).2 - 1 := by
      unfold countedAt
      rw [Seq.one_eq, ← Seq.ofInt_sub]
      exact Seq.toInt_ofInt (by omega) (by omega)
    by_cases hnone : (tally base n l1).1 = n + (tally base n l1).2
    · rw [if_pos hnone, if_neg fun h => hzero.mp h.1 hnone, hamount]
      omega
    · rw [if_neg hnone]
      by_cases hone : urgShort (sk.outOfBand base) (tally base n l1).1 = 1
      · rw [if_pos ⟨hzero.mpr hnone, hurg.mpr hone⟩, hless, hone]
        rfl
      · rw [if_neg fun h => hone (hurg.mp h.2), hamount]
        omega

theorem Joined.reach_le_gap {gap : ℤ} (h : Joined base n l1) (hq : StreamQueue base n l)
    (hmem : ∀ q ∈ l1, q ∈ l) (hgap : FirstGap base l n gap) : (tally base n l1).1 ≤ gap := by
  induction h with
  | nil => exact hgap.le
  | @snoc l' q joined unpushed meets ih =>
    have hreach := ih fun p hp => hmem p (mem_append_left _ hp)
    have hq' : q ∈ l := hmem q (mem_append_right _ (mem_singleton_self q))
    rw [tally_snoc]
    refine max_le hreach ?_
    by_contra hlt
    push Not at hlt
    -- The buffer holds the byte that is said to be missing.
    have hfirst := hq.first_le hq' (le_tally base n l') meets
    have hmissing := hgap.missing
    unfold streamAt at hmissing
    rw [List.findSome?_eq_none_iff] at hmissing
    exact Skb.byteAt_ne_none (hfirst.trans hreach) hlt (hmissing q hq')

theorem length_streamBytes {x : ℤ} (oob : Option ℤ) (k : ℕ)
    (hheld : ∀ y, x ≤ y → y < x + k → streamAt base l y ≠ none) :
    (streamBytes base l oob x k).length +
      (match oob with
        | none => 0
        | some u => if x ≤ u ∧ u < x + k then 1 else 0) = k := by
  induction k generalizing x with
  | zero =>
    cases oob with
    | none => rfl
    | some u =>
      dsimp only
      rw [if_neg (by omega)]
      rfl
  | succ k ih =>
    have hbyte := hheld x le_rfl (by omega)
    rw [Option.ne_none_iff_exists'] at hbyte
    obtain ⟨b, hb⟩ := hbyte
    have hrest := ih (x := x + 1) fun y hy hy' => hheld y (by omega) (by omega)
    unfold streamBytes
    rw [hb, length_append]
    cases oob with
    | none =>
      rw [if_neg (by simp)]
      dsimp only at hrest ⊢
      rw [Option.toList_some, length_singleton]
      omega
    | some u =>
      dsimp only at hrest ⊢
      by_cases hu : u = x
      · rw [if_pos (by rw [hu]), if_pos (by omega)]
        rw [if_neg (by omega)] at hrest
        rw [length_nil]
        omega
      · rw [if_neg (by rw [Option.some.injEq]; exact hu), Option.toList_some, length_singleton]
        split_ifs at hrest ⊢ <;> omega

theorem portions_two (mark : Option ℤ) (inline : Bool) {x gap : ℤ} (hgap : x ≤ gap)
    (bytes : ℤ → ℕ → List UInt8) :
    (portions mark inline gap bytes x
      [(gap - x).toNat + 1, (gap - x).toNat + 1]).1 = gap := by
  unfold portions portions portions
  dsimp only
  cases mark with
  | none =>
    rw [readEnd_none, if_neg (by omega), readEnd_none, if_neg (by omega)]
    omega
  | some u =>
    by_cases hu : x < u
    · have hfirst : readEnd (some u) inline false gap x ((gap - x).toNat + 1) = min u gap := by
        rw [readEnd_ahead (.inl hu), if_neg (by omega)]
        omega
      rw [hfirst]
      by_cases hfar : gap ≤ u
      · rw [min_eq_right hfar, readEnd_gap]
      · rw [min_eq_left (by omega), readEnd_some, if_neg (by omega)]
        simp only [lt_self_iff_false, Bool.false_eq_true, and_false, or_false, if_false]
        split_ifs <;> omega
    · have hfirst : readEnd (some u) inline false gap x ((gap - x).toNat + 1) = gap := by
        rw [readEnd_some, if_neg (by omega)]
        simp only [Bool.false_eq_true, and_false, or_false]
        split_ifs <;> omega
      rw [hfirst, readEnd_gap]

def Sock.NoByte (sk : Sock) (base : Seq) (n : ℤ) : Prop :=
  streamAt base sk.rqueue n = none ∨
    sk.outOfBand base = some n ∧ streamAt base sk.rqueue (n + 1) = none

/-- `tcp_readable` tells whether `tcp_read` returns a byte, and not more than the calls after each
other can return. -/
structure Sock.Tells (sk : Sock) : Prop where
  positive : ∀ (len : ℕ) (b : Buff), len ≠ 0 →
    (0 < sk.tcpReadable ↔ (sk.tcpRead none len true b).2.bytes ≠ [])
  never_more : ∃ calls : List (ℕ × Buff), sk.tcpReadable ≤ ((sk.reads calls).2.flatten.length : ℕ)

section calls

variable {sk : Sock} {gap : ℤ}

theorem Sock.Readable.le_outOfBand (h : sk.Readable base n) {u : ℤ}
    (hoob : sk.outOfBand base = some u) : n ≤ u := by
  unfold Sock.outOfBand Sock.urgMark at hoob
  split_ifs at hoob with _ hurg
  rw [← Option.some.inj hoob]
  exact h.mark hurg

section
variable (h : sk.Readable base n) (hgap : FirstGap base sk.rqueue n gap)
include h hgap

theorem Sock.Readable.length_stream :
    ((streamBytes base sk.rqueue (sk.outOfBand base) n (gap - n).toNat).length : ℤ) +
      urgShort (sk.outOfBand base) (gap - 1) = gap - n := by
  have hle := hgap.le
  have hlength := length_streamBytes (sk.outOfBand base) (gap - n).toNat
    fun y hy hy' => hgap.held y hy (by omega)
  unfold urgShort
  cases hoob : sk.outOfBand base with
  | none =>
    rw [hoob] at hlength
    dsimp only at hlength ⊢
    omega
  | some u =>
    have hu := h.le_outOfBand hoob
    rw [hoob] at hlength
    dsimp only at hlength ⊢
    split_ifs at hlength ⊢ <;> omega

theorem Sock.Readable.noByte_iff :
    sk.NoByte base n ↔
      (streamBytes base sk.rqueue (sk.outOfBand base) n (gap - n).toNat).length = 0 := by
  have hlength := h.length_stream hgap
  constructor
  · rintro (hnone | ⟨hoob, hnone⟩)
    · have := hgap.eq_of_missing hnone
      omega
    · have hnear : gap ≤ n + 1 := by
        by_contra hlt
        exact hgap.held (n + 1) (by omega) (by omega) hnone
      unfold urgShort at hlength
      rw [hoob] at hlength ⊢
      dsimp only at hlength
      split_ifs at hlength <;> omega
  · intro hzero
    by_cases hnear : gap = n
    · left
      rw [← hnear]
      exact hgap.missing
    · right
      unfold urgShort at hlength
      cases hoob : sk.outOfBand base with
      | none =>
        rw [hoob] at hlength hzero
        dsimp only at hlength
        omega
      | some u =>
        have hu := h.le_outOfBand hoob
        rw [hoob] at hlength hzero
        dsimp only at hlength
        split_ifs at hlength with hin
        · have hmissing := hgap.missing
          rw [show gap = n + 1 by omega] at hmissing
          rw [show u = n by omega]
          exact ⟨rfl, hmissing⟩
        · omega

theorem Sock.Readable.read_empty_iff {len : ℕ} (hlen : len ≠ 0) (b : Buff) :
    (sk.tcpRead none len true b).2.bytes = [] ↔
      (streamBytes base sk.rqueue (sk.outOfBand base) n (gap - n).toNat).length = 0 := by
  rw [(h.tcpRead hgap len b rfl).1, length_eq_zero_iff]
  have hbounds := readEnd_bounds (sk.urgMark base) sk.urginline false hgap.le len
  constructor
  · intro hnone
    have hend := readEnd_eq_gap hgap (sk.urgMark base) sk.urginline hlen hnone
    rw [hend] at hnone
    exact hnone
  · intro hnone
    rw [show (gap - n).toNat = (readEnd (sk.urgMark base) sk.urginline false gap n len - n).toNat +
      (gap - readEnd (sk.urgMark base) sk.urginline false gap n len).toNat by omega,
      streamBytes_add, append_eq_nil_iff] at hnone
    exact hnone.1

theorem Sock.Readable.all_read (b : Buff) :
    ∃ calls : List (ℕ × Buff), (sk.reads calls).2.flatten =
      streamBytes base sk.rqueue (sk.outOfBand base) n (gap - n).toNat := by
  refine ⟨[((gap - n).toNat + 1, b), ((gap - n).toNat + 1, b)], ?_⟩
  rw [(h.reads hgap _).1]
  have hflat := (portions_flatten (sk.urgMark base) sk.urginline hgap.le base sk.rqueue
    (sk.outOfBand base) [(gap - n).toNat + 1, (gap - n).toNat + 1]).2.2
  rw [portions_two _ _ hgap.le] at hflat
  exact hflat

theorem Sock.Readable.tcpReadable_le (hlength : sk.rqueue.length ≤ 1073741824) :
    sk.tcpReadable ≤
      ((streamBytes base sk.rqueue (sk.outOfBand base) n (gap - n).toNat).length : ℕ) := by
  obtain ⟨l1, l2, hl, hstop⟩ := (Joined.nil : Joined base n []).exists_upToPush sk.rqueue
  rw [nil_append] at hstop
  have hstream := h.length_stream hgap
  have hreach := hstop.joined.reach_le_gap h.queue
    (fun q hq => hl ▸ mem_append_left l2 hq) hgap
  rw [hstop.tcpReadable_eq h hl hlength]
  unfold urgShort at hstream ⊢
  cases hoob : sk.outOfBand base with
  | none =>
    rw [hoob] at hstream
    dsimp only at hstream ⊢
    split_ifs <;> omega
  | some u =>
    rw [hoob] at hstream
    dsimp only at hstream ⊢
    split_ifs at hstream ⊢ <;> omega

end

/-- `tcp_readable` is right exactly when nothing can be read, or when the bytes up to the first hole
or push are more than the SYN and the urgent byte that it subtracts. -/
theorem tcpReadable_tells_iff (h : sk.Readable base n)
    (hlength : sk.rqueue.length ≤ 1073741824) :
    sk.Tells ↔ sk.NoByte base n ∨ ∃ l1 l2, sk.rqueue = l1 ++ l2 ∧ UpToPush base n l1 l2 ∧
      n + (tally base n l1).2 + urgShort (sk.outOfBand base) (tally base n l1).1 <
        (tally base n l1).1 := by
  obtain ⟨gap, hgap⟩ := h.exists_gap
  have hle := h.tcpReadable_le hgap hlength
  have hnone := h.noByte_iff hgap
  constructor
  · intro htells
    by_cases hempty : sk.NoByte base n
    · exact .inl hempty
    · right
      rw [hnone, ← h.read_empty_iff hgap one_ne_zero .ok] at hempty
      have hpositive := (htells.positive 1 .ok one_ne_zero).mpr hempty
      obtain ⟨l1, l2, hl, hstop⟩ := (Joined.nil : Joined base n []).exists_upToPush sk.rqueue
      rw [nil_append] at hstop
      refine ⟨l1, l2, hl, hstop, ?_⟩
      rw [hstop.tcpReadable_eq h hl hlength] at hpositive
      split_ifs at hpositive <;> omega
  · intro hcase
    have hpositive : 0 < sk.tcpReadable ↔
        (streamBytes base sk.rqueue (sk.outOfBand base) n (gap - n).toNat).length ≠ 0 := by
      rcases hcase with hempty | ⟨l1, l2, hl, hstop, hmore⟩
      · rw [hnone] at hempty
        omega
      · have hreadable := hstop.tcpReadable_eq h hl hlength
        omega
    refine ⟨?_, ?_⟩
    · intro len b hlen
      rw [hpositive, Ne, ← h.read_empty_iff hgap hlen b]
    · obtain ⟨calls, hcalls⟩ := h.all_read hgap .ok
      refine ⟨calls, ?_⟩
      rw [hcalls]
      exact hle

theorem tcpReadable_tells_iff_overlapping :
    overlapping.Tells ↔ overlapping.NoByte 1001 0 ∨ ∃ l1 l2, overlapping.rqueue = l1 ++ l2 ∧
      UpToPush 1001 0 l1 l2 ∧
      0 + (tally 1001 0 l1).2 + urgShort (overlapping.outOfBand 1001) (tally 1001 0 l1).1 <
        (tally 1001 0 l1).1 :=
  tcpReadable_tells_iff
    ⟨⟨by decide, by decide, by decide, by decide⟩, by decide, by decide, by decide, by decide⟩
    (by decide)

def markAhead : Segment :=
  { threeBytes with urgPtr := 2, urg := true, data := [1], fits := by decide }

/-- `tcp_readable` says nothing of a byte that the urgent mark follows. -/
theorem tcpReadable_misses_byte :
    ¬∀ (sk : Sock), sk.Readable (sk.copiedSeq + 1) 0 → sk.rqueue.length ≤ 1073741824 →
      sk.Tells := by
  intro h
  have htells := h (smallBuffer.run [.rcv markAhead none .ok .ok])
    ⟨⟨by decide +kernel, by decide +kernel, by decide +kernel, by decide +kernel⟩,
      by decide +kernel, by decide, by decide, by decide +kernel⟩ (by decide +kernel)
  have hbytes : ((smallBuffer.run [.rcv markAhead none .ok .ok]).tcpRead none 100 true
      .ok).2.bytes = [1] := by decide +kernel
  have hpositive := (htells.positive 100 .ok (by decide)).mpr
    (by rw [hbytes]; exact cons_ne_nil _ _)
  have hzero : (smallBuffer.run [.rcv markAhead none .ok .ok]).tcpReadable = 0 := by decide +kernel
  omega

end calls

end walk

end LinuxKernel.Tcp
