import LinuxKernel.TcpReceiveRead

/-!
# The stream in the receive queue

Positions of the stream are integers: position `x` has the sequence number `base + x`.
The queue gives each position at most one byte, that of the first buffer that holds it.
A read is then described without the queue: where it starts, where it ends, and that its
bytes are those in between.
-/

namespace LinuxKernel.Tcp
open List

def Skb.first (base : Seq) (q : Skb) : ℤ := q.pos base + q.th.syn.toNat

def Skb.finish (base : Seq) (q : Skb) : ℤ := q.first base + q.len

def Skb.byteAt (base : Seq) (q : Skb) (x : ℤ) : Option UInt8 :=
  if q.first base ≤ x then q.th.data[(x - q.first base).toNat]? else none

def streamAt (base : Seq) (l : List Skb) (x : ℤ) : Option UInt8 := l.findSome? (·.byteAt base x)

def streamBytes (base : Seq) (l : List Skb) (oob : Option ℤ) : ℤ → ℕ → List UInt8
  | _, 0 => []
  | x, k + 1 =>
    (if oob = some x then [] else (streamAt base l x).toList) ++ streamBytes base l oob (x + 1) k

structure FirstGap (base : Seq) (l : List Skb) (x gap : ℤ) : Prop where
  le : x ≤ gap
  held : ∀ y, x ≤ y → y < gap → streamAt base l y ≠ none
  missing : streamAt base l gap = none

def Skb.InRange (base : Seq) (q : Skb) : Prop :=
  -536870912 ≤ q.pos base ∧ q.pos base ≤ 536870912 ∧ q.len < 65536

instance (base : Seq) (q : Skb) : Decidable (q.InRange base) := inferInstanceAs (Decidable (_ ∧ _))

/-- What `tcp_data` keeps of the queue, for a reader whose next position is `n`. -/
structure StreamQueue (base : Seq) (n : ℤ) (l : List Skb) : Prop where
  sorted : l.Pairwise fun p q => p.pos base ≤ q.pos base
  near : ∀ q ∈ l, q.InRange base
  syn : ∀ q ∈ l, q.th.syn = true → q.pos base < n
  unused : ∀ q ∈ l, q.used = false

def Sock.urgMark (sk : Sock) (base : Seq) : Option ℤ :=
  if sk.urgData = .none then none else some (Seq.rel base sk.urgSeq)

def Sock.outOfBand (sk : Sock) (base : Seq) : Option ℤ :=
  if sk.urginline then none else sk.urgMark base

def readEnd (mark : Option ℤ) (inline started : Bool) (gap x : ℤ) (len : ℕ) : ℤ :=
  if len = 0 then x
  else
    let begins := if mark = some x ∧ inline = false ∧ started = false ∧ x < gap then x + 1 else x
    let ends :=
      match mark with
      | none => gap
      | some u => if x < u ∨ u = x ∧ started = true then min u gap else gap
    min (begins + len) ends

structure Sock.Readable (sk : Sock) (base : Seq) (n : ℤ) : Prop where
  queue : StreamQueue base n sk.rqueue
  reader : sk.copiedSeq + 1 = base + Seq.ofInt n
  low : 0 ≤ n
  high : n ≤ 1073741824
  mark : sk.urgData ≠ .none → n ≤ Seq.rel base sk.urgSeq

def portion (mark : Option ℤ) (inline : Bool) (x : ℤ) (used : ℕ) : ℕ × ℕ :=
  match mark with
  | none => (0, used)
  | some u =>
    if x ≤ u ∧ u < x + used then
      if u = x then if inline then (0, used) else (1, used - 1) else (0, (u - x).toNat)
    else (0, used)

section positions

variable {base seq : Seq} {n x : ℤ} {q : Skb} {l l1 l2 : List Skb}

theorem Skb.byteAt_eq_none (h : q.finish base ≤ x) : q.byteAt base x = none := by
  unfold Skb.byteAt
  unfold Skb.finish Skb.len at h
  split_ifs with hfirst
  · rw [List.getElem?_eq_none_iff]
    omega
  · rfl

theorem Skb.byteAt_before (h : x < q.pos base) : q.byteAt base x = none := by
  unfold Skb.byteAt Skb.first
  rw [if_neg (by omega)]

theorem Skb.byteAt_ne_none (hfirst : q.first base ≤ x) (hfinish : x < q.finish base) :
    q.byteAt base x ≠ none := by
  unfold Skb.byteAt
  unfold Skb.finish Skb.len at hfinish
  rw [if_pos hfirst, Ne, List.getElem?_eq_none_iff]
  omega

theorem streamAt_append_of_finish (h : ∀ p ∈ l1, p.finish base ≤ x) :
    streamAt base (l1 ++ l2) x = streamAt base l2 x := by
  unfold streamAt
  rw [List.findSome?_append, List.findSome?_eq_none_iff.mpr, Option.none_or]
  intro p hp
  exact Skb.byteAt_eq_none (h p hp)

theorem streamAt_eq_of_first (hfirst : q.first base ≤ x) (hfinish : x < q.finish base) :
    streamAt base (q :: l) x = q.byteAt base x := by
  have hsome := Skb.byteAt_ne_none hfirst hfinish
  rw [Option.ne_none_iff_exists'] at hsome
  obtain ⟨b, hb⟩ := hsome
  unfold streamAt
  rw [List.findSome?_cons, hb]

section
variable (hseq : 1 + seq = base + Seq.ofInt x) (hlow : 0 ≤ x) (hhigh : x ≤ 1073741824)
  (hnear : q.InRange base)
include hseq hlow hhigh hnear

theorem rel_reader : Seq.rel q.seq (1 + seq) = x - q.pos base := by
  have hrel : Seq.rel base (1 + seq) = x := Seq.rel_eq hseq (by omega) (by omega)
  unfold Skb.InRange Skb.pos at *
  rw [Seq.rel_trans (a := base) (b := q.seq) (by omega) (by omega), hrel]

theorem before_reader : Seq.before (1 + seq) q.seq = true ↔ x < q.pos base := by
  rw [Seq.before_iff, rel_reader hseq hlow hhigh hnear]
  omega

theorem Skb.offset_reader (hfirst : q.first base ≤ x) : (q.offset seq : ℤ) = x - q.first base := by
  have hrel := rel_reader hseq hlow hhigh hnear
  have hseq' : 1 + seq = q.seq + BitVec.ofNat 32 q.th.syn.toNat + Seq.ofInt (x - q.first base) := by
    rw [Seq.natCast_eq, add_assoc, ← Seq.ofInt_add]
    unfold Skb.first
    rw [show (q.th.syn.toNat : ℤ) + (x - (q.pos base + q.th.syn.toNat)) = x - q.pos base by omega,
      ← hrel, Seq.add_ofInt_rel]
  unfold Skb.first Skb.InRange at *
  have hdist : Seq.rel (q.seq + BitVec.ofNat 32 q.th.syn.toNat) (1 + seq) =
      x - (q.pos base + q.th.syn.toNat) := Seq.rel_eq hseq' (by omega) (by omega)
  rw [← hdist, ← Seq.toNat_rel (by omega)]
  unfold Skb.offset
  rw [sub_sub]

theorem Skb.found_iff (hfirst : q.first base ≤ x) : q.found seq = true ↔ x < q.finish base := by
  have hbefore := before_reader hseq hlow hhigh hnear
  have hoffset := Skb.offset_reader hseq hlow hhigh hnear hfirst
  have hnot : Seq.before (1 + seq) q.seq = false := by
    rw [← Bool.not_eq_true, hbefore]
    unfold Skb.first at hfirst
    omega
  unfold Skb.found Skb.finish
  rw [hnot, Bool.not_false, Bool.true_and, decide_eq_true_eq]
  omega

end

theorem StreamQueue.first_le (h : StreamQueue base n l) (hq : q ∈ l) (hn : n ≤ x)
    (hpos : q.pos base ≤ x) : q.first base ≤ x := by
  have hsyn := h.syn q hq
  unfold Skb.first
  cases hflag : q.th.syn with
  | false =>
    change q.pos base + 0 ≤ x
    omega
  | true =>
    have := hsyn hflag
    change q.pos base + 1 ≤ x
    omega

def Skb.pass (peek : Bool) (q : Skb) : Skb := { q with used := q.used || !peek }

theorem Skb.pass_pass (peek : Bool) (q : Skb) : (q.pass peek).pass peek = q.pass peek := by
  unfold Skb.pass
  cases q.used <;> cases peek <;> rfl

theorem scan_append (peek : Bool) (h : ∀ p ∈ l1, ¬Seq.before (1 + seq) p.seq = true ∧
    p.found seq = false) :
    scan peek seq (l1 ++ l2) = (l1.map (Skb.pass peek) ++ (scan peek seq l2).1,
      (scan peek seq l2).2) := by
  induction l1 with
  | nil => rfl
  | cons p l1 ih =>
    have hp := h p mem_cons_self
    rw [cons_append, scan, if_neg (by rw [hp.2]; simpa using hp.1),
      ih fun q hq => h q (mem_cons_of_mem p hq)]
    rfl

theorem scan_stops (peek : Bool) (seq : Seq) (l : List Skb) :
    ∃ l1 l2, l = l1 ++ l2 ∧ scan peek seq l = (l1.map (Skb.pass peek), l2) ∧
      (∀ p ∈ l1, ¬Seq.before (1 + seq) p.seq = true ∧ p.found seq = false) ∧
      ∀ q rest, l2 = q :: rest → Seq.before (1 + seq) q.seq = true ∨ q.found seq = true := by
  induction l with
  | nil => exact ⟨[], [], rfl, rfl, by simp, by simp⟩
  | cons p l ih =>
    unfold scan
    split_ifs with hstop
    · refine ⟨[], p :: l, rfl, rfl, by simp, ?_⟩
      intro q rest heq
      rw [cons_eq_cons] at heq
      rw [← heq.1]
      exact hstop
    · rw [not_or, Bool.not_eq_true (p.found seq)] at hstop
      obtain ⟨l1, l2, hl, hscan, hpassed, hrest⟩ := ih
      refine ⟨p :: l1, l2, ?_, ?_, ?_, hrest⟩
      · rw [hl]
        rfl
      · rw [hscan]
        rfl
      · intro q hq
        rcases mem_cons.mp hq with rfl | hq
        · exact hstop
        · exact hpassed q hq

theorem StreamQueue.passes_iff (h : StreamQueue base n l) (hq : q ∈ l)
    (hseq : 1 + seq = base + Seq.ofInt x) (hlow : 0 ≤ n) (hn : n ≤ x) (hhigh : x ≤ 1073741824) :
    (¬Seq.before (1 + seq) q.seq = true ∧ q.found seq = false) ↔
      q.pos base ≤ x ∧ q.finish base ≤ x := by
  have hnear := h.near q hq
  rw [before_reader hseq (by omega) hhigh hnear, not_lt]
  apply and_congr_right
  intro hpos
  have hfirst := h.first_le hq hn hpos
  rw [← Bool.not_eq_true, Skb.found_iff hseq (by omega) hhigh hnear hfirst, not_lt]

theorem StreamQueue.scan_eq (h : StreamQueue base n (l1 ++ l2))
    (hseq : 1 + seq = base + Seq.ofInt x) (hlow : 0 ≤ n) (hn : n ≤ x) (hhigh : x ≤ 1073741824)
    (hbehind : ∀ p ∈ l1, p.pos base ≤ x ∧ p.finish base ≤ x) (peek : Bool) :
    ∃ l3 l4, l2 = l3 ++ l4 ∧
      scan peek seq (l1.map (Skb.pass peek) ++ l2) = ((l1 ++ l3).map (Skb.pass peek), l4) ∧
      (∀ p ∈ l1 ++ l3, p.pos base ≤ x ∧ p.finish base ≤ x) ∧
      (l4 = [] ∨ (∃ q rest, l4 = q :: rest ∧ x < q.pos base) ∨
        ∃ q rest, l4 = q :: rest ∧ q.found seq = true ∧ q.first base ≤ x ∧ x < q.finish base) := by
  obtain ⟨l3, l4, hl, hscan, hpassed, hrest⟩ := scan_stops peek seq l2
  have hmem : ∀ p ∈ l2, p ∈ l1 ++ l2 := fun p hp => mem_append_right l1 hp
  refine ⟨l3, l4, hl, ?_, ?_, ?_⟩
  · rw [scan_append, hscan, map_map, map_append]
    · congr 2
      apply map_congr_left
      intro p hp
      exact Skb.pass_pass peek p
    · intro p hp
      obtain ⟨r, hr, rfl⟩ := mem_map.mp hp
      exact (h.passes_iff (mem_append_left l2 hr) hseq hlow hn hhigh).mpr (hbehind r hr)
  · intro p hp
    rcases mem_append.mp hp with hp | hp
    · exact hbehind p hp
    · have hin : p ∈ l1 ++ l2 := by
        apply hmem
        rw [hl]
        exact mem_append_left l4 hp
      exact (h.passes_iff hin hseq hlow hn hhigh).mp (hpassed p hp)
  · cases l4 with
    | nil => exact .inl rfl
    | cons q rest =>
      right
      have hin : q ∈ l1 ++ l2 := by
        apply hmem
        rw [hl]
        exact mem_append_right l3 mem_cons_self
      have hbefore := before_reader hseq (by omega) hhigh (h.near q hin)
      by_cases hpos : x < q.pos base
      · exact .inl ⟨q, rest, rfl, hpos⟩
      · have hfirst := h.first_le hin hn (by omega)
        rcases hrest q rest rfl with hstop | hfound
        · exact absurd (hbefore.mp hstop) hpos
        · refine .inr ⟨q, rest, rfl, hfound, hfirst, ?_⟩
          exact (Skb.found_iff hseq (by omega) hhigh (h.near q hin) hfirst).mp hfound

end positions

section streams

variable {base seq : Seq} {x y : ℤ} {q : Skb} {l : List Skb} {oob : Option ℤ}

theorem streamBytes_add (base : Seq) (l : List Skb) (oob : Option ℤ) (x : ℤ) (j k : ℕ) :
    streamBytes base l oob x (j + k) =
      streamBytes base l oob x j ++ streamBytes base l oob (x + j) k := by
  induction j generalizing x with
  | zero =>
    rw [Nat.zero_add, Nat.cast_zero, add_zero]
    rfl
  | succ j ih =>
    rw [Nat.succ_add, streamBytes, streamBytes, ih, append_assoc,
      show x + 1 + (j : ℤ) = x + (j + 1 : ℕ) by omega]

variable {k : ℕ} {u gap : ℤ}

theorem streamBytes_congr {l' : List Skb} {oob' : Option ℤ}
    (hbytes : ∀ y, x ≤ y → streamAt base l y = streamAt base l' y)
    (hoob : ∀ y, x ≤ y → (oob = some y ↔ oob' = some y)) :
    streamBytes base l oob x k = streamBytes base l' oob' x k := by
  induction k generalizing x with
  | zero => rfl
  | succ k ih =>
    unfold streamBytes
    rw [hbytes x (by omega), ih (fun y hy => hbytes y (by omega)) fun y hy => hoob y (by omega)]
    congr 1
    exact if_congr (hoob x (by omega)) rfl rfl

theorem streamBytes_eq_take (hfirst : q.first base ≤ y) (hfinish : y + k ≤ q.finish base)
    (hbytes : ∀ z, y ≤ z → z < y + k → streamAt base l z = q.byteAt base z)
    (hoob : ∀ z, y ≤ z → z < y + k → oob ≠ some z) :
    streamBytes base l oob y k = (q.th.data.drop (y - q.first base).toNat).take k := by
  induction k generalizing y with
  | zero => rfl
  | succ k ih =>
    have hlt : (y - q.first base).toNat < q.th.data.length := by
      unfold Skb.finish Skb.len at hfinish
      omega
    have hbyte : streamAt base l y = some (q.th.data[(y - q.first base).toNat]) := by
      rw [hbytes y (by omega) (by omega)]
      unfold Skb.byteAt
      rw [if_pos hfirst, List.getElem?_eq_getElem hlt]
    have hnext : (y + 1 - q.first base).toNat = (y - q.first base).toNat + 1 := by omega
    unfold streamBytes
    rw [if_neg (hoob y (by omega) (by omega)), hbyte,
      ih (by omega) (by omega) (fun z hz hz' => hbytes z (by omega) (by omega))
        fun z hz hz' => hoob z (by omega) (by omega), hnext, drop_eq_getElem_cons hlt]
    rfl

theorem portion_le (mark : Option ℤ) (inline : Bool) (x : ℤ) (used : ℕ) :
    (portion mark inline x used).1 + (portion mark inline x used).2 ≤ used := by
  unfold portion
  cases mark with
  | none => simp
  | some u =>
    dsimp only
    split_ifs <;> dsimp only <;> omega

theorem streamBytes_portion (mark : Option ℤ) (inline : Bool) (used : ℕ) (hfirst : q.first base ≤ x)
    (hfinish : x + used ≤ q.finish base)
    (hbytes : ∀ z, x ≤ z → z < x + used → streamAt base l z = q.byteAt base z) :
    streamBytes base l (if inline then none else mark) x
        ((portion mark inline x used).1 + (portion mark inline x used).2) =
      (q.th.data.drop ((x - q.first base).toNat + (portion mark inline x used).1)).take
        (portion mark inline x used).2 := by
  have hplain : ∀ (oob : Option ℤ) {k : ℕ}, k ≤ used →
      (∀ z, x ≤ z → z < x + k → oob ≠ some z) →
      streamBytes base l oob x (0 + k) =
        (q.th.data.drop ((x - q.first base).toNat + 0)).take k := by
    intro oob k hk hoob
    rw [Nat.zero_add, Nat.add_zero]
    exact streamBytes_eq_take hfirst (by omega) (fun z hz hz' => hbytes z hz (by omega)) hoob
  unfold portion
  cases mark with
  | none =>
    rw [ite_self]
    exact hplain none le_rfl fun z _ _ => by simp
  | some u =>
    cases inline with
    | true =>
      simp only [if_true]
      split_ifs
      · exact hplain none le_rfl fun z _ _ => by simp
      · exact hplain none (by omega) fun z _ _ => by simp
      · exact hplain none le_rfl fun z _ _ => by simp
    | false =>
      have hother : ∀ z, u ≠ z → (some u : Option ℤ) ≠ some z := by
        intro z hz heq
        exact hz (Option.some.inj heq)
      simp only [Bool.false_eq_true, if_false]
      split_ifs with hin hu
      · -- The urgent byte is skipped.
        have hnext : (x + 1 - q.first base).toNat = (x - q.first base).toNat + 1 := by omega
        rw [Nat.add_comm 1, streamBytes, if_pos (by rw [hu]), nil_append, ← hnext]
        apply streamBytes_eq_take (by omega) (by omega)
        · intro z hz hz'
          exact hbytes z (by omega) (by omega)
        · intro z hz _
          exact hother z (by omega)
      · exact hplain (some u) (by omega) fun z _ _ => hother z (by omega)
      · exact hplain (some u) le_rfl fun z _ _ => hother z (by omega)

theorem sub_reader (u : Seq) (hseq : 1 + seq = base + Seq.ofInt x) :
    u - (1 + seq) = Seq.ofInt (Seq.rel base u - x) := by
  nth_rewrite 1 [← Seq.add_ofInt_rel base u]
  rw [hseq, Seq.ofInt_sub, add_sub_add_left_eq_sub]

theorem urgOffset_lt {u : Seq} (hseq : 1 + seq = base + Seq.ofInt x) (hlow : 0 ≤ x)
    (hhigh : x ≤ 1073741824) (hk : k < 65536) :
    (u - (1 + seq)).toNat < k ↔ x ≤ Seq.rel base u ∧ Seq.rel base u < x + k := by
  have hbounds := Seq.rel_bounds base u
  rw [sub_reader u hseq]
  unfold Seq.ofInt
  rw [BitVec.toNat_ofInt]
  omega

theorem urgOffset_eq {u : Seq} (hseq : 1 + seq = base + Seq.ofInt x) (hlow : 0 ≤ x)
    (hu : x ≤ Seq.rel base u) : (u - (1 + seq)).toNat = (Seq.rel base u - x).toNat := by
  have hbounds := Seq.rel_bounds base u
  rw [sub_reader u hseq]
  unfold Seq.ofInt
  rw [BitVec.toNat_ofInt]
  omega

theorem Sock.share_eq (sk : Sock) (len : ℕ) (hseq : 1 + seq = base + Seq.ofInt x) (hlow : 0 ≤ x)
    (hhigh : x ≤ 1073741824) (hrange : q.InRange base) (hfirst : q.first base ≤ x) :
    sk.share q seq len =
      portion (sk.urgMark base) sk.urginline x (min len (q.finish base - x).toNat) := by
  have hoffset := Skb.offset_reader hseq hlow hhigh hrange hfirst
  have hused : min len (q.len - q.offset seq) = min len (q.finish base - x).toNat := by
    unfold Skb.finish
    omega
  have hsmall : min len (q.finish base - x).toNat < 65536 := by
    have := hrange.2.2
    omega
  have hlt := urgOffset_lt (u := sk.urgSeq) hseq hlow hhigh hsmall
  have heq := urgOffset_eq (u := sk.urgSeq) hseq hlow
  unfold Sock.share Sock.urgMark portion
  rw [hused]
  by_cases hurg : sk.urgData = .none
  · rw [if_neg (by simp [hurg]), if_pos hurg]
  · rw [if_neg hurg]
    dsimp only
    by_cases hin : x ≤ Seq.rel base sk.urgSeq ∧
        Seq.rel base sk.urgSeq < x + (min len (q.finish base - x).toNat : ℕ)
    · have hzero : (Seq.rel base sk.urgSeq - x).toNat = 0 ↔ Seq.rel base sk.urgSeq = x := by omega
      rw [if_pos ⟨hurg, hlt.mpr hin⟩, if_pos hin, heq hin.1]
      exact if_congr hzero rfl rfl
    · rw [if_neg fun h => hin (hlt.mp h.2), if_neg hin]

theorem portion_behind (hu : u < x) (inline : Bool) (used : ℕ) :
    portion (some u) inline x used = (0, used) := by
  unfold portion
  dsimp only
  rw [if_neg (by omega)]

theorem readEnd_behind (hu : u < x) (inline started : Bool) (gap : ℤ) (len : ℕ) :
    readEnd (some u) inline started gap x len = readEnd none inline started gap x len := by
  have hne : (some u : Option ℤ) ≠ some x := by
    intro h
    have := Option.some.inj h
    omega
  unfold readEnd
  dsimp only
  rw [if_neg (c := x < u ∨ _) (by omega), if_neg (c := _ ∧ _) (fun h => hne h.1),
    if_neg (c := _ ∧ _) (by simp)]

theorem readEnd_none (inline started : Bool) (gap x : ℤ) (len : ℕ) :
    readEnd none inline started gap x len = if len = 0 then x else min (x + len) gap := by
  unfold readEnd
  simp

theorem readEnd_some (u : ℤ) (inline started : Bool) (gap x : ℤ) (len : ℕ) :
    readEnd (some u) inline started gap x len =
      if len = 0 then x
      else
        min ((if u = x ∧ inline = false ∧ started = false ∧ x < gap then x + 1 else x) + len)
          (if x < u ∨ u = x ∧ started = true then min u gap else gap) := by
  unfold readEnd
  simp only [Option.some.injEq]

theorem readEnd_bounds (mark : Option ℤ) (inline started : Bool) (h : x ≤ gap) (len : ℕ) :
    x ≤ readEnd mark inline started gap x len ∧ readEnd mark inline started gap x len ≤ gap := by
  cases mark with
  | none =>
    rw [readEnd_none]
    split_ifs <;> omega
  | some u =>
    rw [readEnd_some]
    split_ifs <;> omega

theorem readEnd_ahead {started : Bool} (h : x < u ∨ u = x ∧ started = true) (inline : Bool)
    (gap : ℤ) (len : ℕ) :
    readEnd (some u) inline started gap x len =
      if len = 0 then x else min (x + len) (min u gap) := by
  rw [readEnd_some, if_pos h, if_neg (c := u = x ∧ _)]
  rintro ⟨hu, -, hstarted, -⟩
  rcases h with hlt | ⟨-, hflag⟩
  · omega
  · rw [hstarted] at hflag
    exact Bool.false_ne_true hflag

theorem readEnd_mark (inline : Bool) (h : x ≤ gap) (len : ℕ) :
    readEnd (some x) inline true gap x len = x := by
  rw [readEnd_ahead (.inr ⟨rfl, rfl⟩)]
  split_ifs <;> omega

theorem readEnd_gap (mark : Option ℤ) (inline started : Bool) (x : ℤ) (len : ℕ) :
    readEnd mark inline started x x len = x := by
  have := readEnd_bounds mark inline started (le_refl x) len
  omega

def skips (mark : Option ℤ) (x : ℤ) : ℕ :=
  match mark with
  | none => 0
  | some u => if x ≤ u then 1 else 0

theorem readEnd_portion {inline started : Bool} {finish : ℤ} {len skip used : ℕ} (hlen : len ≠ 0)
    (hx : x < finish) (hgap : finish ≤ gap) (hstop : ¬(started = true ∧ mark = some x))
    (hportion : portion mark inline x (min len (finish - x).toNat) = (skip, used)) :
    readEnd mark inline (started || decide (0 < used)) gap (x + (skip + used : ℕ)) (len - used) =
        readEnd mark inline started gap x len ∧
      len - used + skips mark (x + (skip + used : ℕ)) < len + skips mark x := by
  cases mark with
  | none =>
    unfold portion at hportion
    obtain ⟨rfl, hused⟩ := hportion
    rw [readEnd_none, readEnd_none]
    unfold skips
    dsimp only
    constructor
    · split_ifs <;> omega
    · omega
  | some u =>
    have hmark : started = true → u ≠ x := by
      intro hflag heq
      exact hstop ⟨hflag, by rw [heq]⟩
    unfold portion at hportion
    unfold skips
    dsimp only at hportion ⊢
    by_cases hin : x ≤ u ∧ u < x + (min len (finish - x).toNat : ℕ)
    · rw [if_pos hin] at hportion
      by_cases hu : u = x
      · have hstarted : started = false := by
          cases started with
          | false => rfl
          | true => exact absurd hu (hmark rfl)
        rw [if_pos hu] at hportion
        rw [readEnd_some u inline started, hstarted, if_neg hlen]
        cases inline with
        | true =>
          obtain ⟨rfl, rfl⟩ := Prod.mk.inj hportion
          rw [readEnd_behind (by omega), readEnd_none]
          simp only [Bool.true_eq_false, false_and, and_false, if_false, Bool.false_eq_true,
            or_false]
          constructor <;> split_ifs <;> omega
        | false =>
          obtain ⟨rfl, rfl⟩ := Prod.mk.inj hportion
          rw [readEnd_behind (by omega), readEnd_none,
            if_pos (c := u = x ∧ _) ⟨hu, rfl, rfl, by omega⟩,
            if_neg (c := x < u ∨ _) (by simp [hu])]
          constructor <;> split_ifs <;> omega
      · -- The mark is in what is left of the buffer.
        rw [if_neg hu] at hportion
        obtain ⟨rfl, rfl⟩ := Prod.mk.inj hportion
        have hcopied : decide (0 < (u - x).toNat) = true := decide_eq_true (by omega)
        rw [hcopied, Bool.or_true, readEnd_ahead (.inr ⟨by omega, rfl⟩),
          readEnd_ahead (.inl (by omega))]
        constructor <;> split_ifs <;> omega
    · rw [if_neg hin] at hportion
      obtain ⟨rfl, rfl⟩ := Prod.mk.inj hportion
      by_cases hu : u < x
      · rw [readEnd_behind (by omega), readEnd_behind hu, readEnd_none, readEnd_none]
        constructor <;> split_ifs <;> omega
      · have hcopied : decide (0 < min len (finish - x).toNat) = true := decide_eq_true (by omega)
        rw [hcopied, Bool.or_true, readEnd_ahead (x := x + _) _, readEnd_ahead (.inl (by omega))]
        · constructor <;> split_ifs <;> omega
        · by_cases hlast : u = x + (0 + min len (finish - x).toNat : ℕ)
          · exact .inr ⟨hlast, rfl⟩
          · exact .inl (by omega)

end streams

end LinuxKernel.Tcp
