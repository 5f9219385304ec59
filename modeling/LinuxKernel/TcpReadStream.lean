import LinuxKernel.TcpDuplicate
import LinuxKernel.TcpStream

/-!
# `tcp_read` delivers the stream
-/

namespace LinuxKernel.Tcp
open List

variable {y : ℤ}

variable {l : List Skb}

variable {len : ℕ} {out : List UInt8}

/-- A call of `tcp_read` that started in `sk0` has come to position `x`. -/
structure Sock.ReadTo (sk0 sk : Sock) (base : Seq) (peek : Bool) (seq : Seq) (x : ℤ) : Prop where
  place : 1 + seq = base + Seq.ofInt x
  copied : peek = false → sk.copiedSeq = seq
  urgSeq : sk.urgSeq = sk0.urgSeq
  inline : sk.urginline = sk0.urginline
  urgData : peek = false → sk.urgData = if Seq.rel base sk0.urgSeq < x then .none else sk0.urgData
  queue : ∃ l1 l2, sk0.rqueue = l1 ++ l2 ∧ sk.rqueue = l1.map (Skb.pass peek) ++ l2 ∧
    ∀ p ∈ l1, p.pos base ≤ x ∧ p.finish base ≤ x
  peeked : peek = true → sk = sk0

section loop

variable {sk0 sk : Sock} {base seq : Seq} {peek : Bool} {n x gap : ℤ} {l1 rest : List Skb}
  {q : Skb}

theorem Skb.pass_true (q : Skb) : q.pass true = q := by
  unfold Skb.pass
  rw [Bool.not_true, Bool.or_false]

theorem map_pass_true (l : List Skb) : l.map (Skb.pass true) = l := by
  rw [map_congr_left (g := id) fun q _ => Skb.pass_true q, map_id]

section
variable (h : sk0.ReadTo sk base peek seq x)
include h

theorem Sock.ReadTo.scanned (hl : sk0.rqueue = l1 ++ rest)
    (hbehind : ∀ p ∈ l1, p.pos base ≤ x ∧ p.finish base ≤ x) :
    sk0.ReadTo { sk with rqueue := l1.map (Skb.pass peek) ++ rest } base peek seq x := by
  refine ⟨h.place, h.copied, h.urgSeq, h.inline, h.urgData, ⟨l1, rest, hl, rfl, hbehind⟩, ?_⟩
  rintro rfl
  rw [map_pass_true, ← hl, h.peeked rfl]

theorem Sock.ReadTo.portion_eq (inline : Bool) (used : ℕ) :
    portion (sk.urgMark base) inline x used = portion (sk0.urgMark base) inline x used := by
  cases peek with
  | true => rw [h.peeked rfl]
  | false =>
    unfold Sock.urgMark
    rw [h.urgSeq, h.urgData rfl]
    by_cases hu : Seq.rel base sk0.urgSeq < x
    · rw [if_pos hu, if_pos rfl]
      split_ifs
      · rfl
      · rw [portion_behind hu]
        rfl
    · rw [if_neg hu]

theorem Sock.ReadTo.atMark_iff (hlow : 0 ≤ x) (hhigh : x ≤ 1073741824) :
    (sk.urgData ≠ .none ∧ sk.urgSeq = 1 + seq) ↔ sk0.urgMark base = some x := by
  have hat : sk.urgSeq = 1 + seq ↔ Seq.rel base sk0.urgSeq = x := by
    rw [h.urgSeq, h.place]
    constructor
    · intro heq
      exact Seq.rel_eq heq (by omega) (by omega)
    · intro heq
      rw [← heq, Seq.add_ofInt_rel]
  have hdata : Seq.rel base sk0.urgSeq = x → sk.urgData = sk0.urgData := by
    intro heq
    cases peek with
    | true => rw [h.peeked rfl]
    | false => rw [h.urgData rfl, if_neg (by omega)]
  unfold Sock.urgMark
  rw [hat]
  constructor
  · rintro ⟨hurg, heq⟩
    rw [if_neg (by rw [← hdata heq]; exact hurg), heq]
  · intro hmark
    split_ifs at hmark with hnone
    have heq := Option.some.inj hmark
    exact ⟨by rw [hdata heq]; exact hnone, heq⟩

end

theorem after_urgSeq {c u : Seq} (hplace : c + 1 = base + Seq.ofInt x) (hlow : 0 ≤ x)
    (hhigh : x ≤ 1073741824) (hu : 0 ≤ Seq.rel base u) :
    Seq.after (c + 1) u = true ↔ Seq.rel base u < x := by
  have hbounds := Seq.rel_bounds base u
  have hreader : Seq.rel base (c + 1) = x := Seq.rel_eq hplace (by omega) (by omega)
  rw [Seq.after_iff, Seq.rel_trans (a := base) (b := u) (by omega) (by omega), hreader]
  omega

theorem Skb.InRange.finish_le (h : q.InRange base) : q.finish base ≤ 1073741824 := by
  have hsyn : q.th.syn.toNat ≤ 1 := Bool.toNat_le _
  unfold Skb.InRange at h
  unfold Skb.finish Skb.first
  omega

theorem Sock.Readable.finish_le (h : sk.Readable base n) (hq : q ∈ sk.rqueue) :
    q.finish base ≤ 1073741824 :=
  (h.queue.near q hq).finish_le

theorem Sock.ReadTo.readFrom (h : sk0.ReadTo sk base peek seq x) (hr : sk0.Readable base n)
    (hn : n ≤ x) (hhigh : x ≤ 1073741824) (hl : sk0.rqueue = l1 ++ q :: rest)
    (hbehind : ∀ p ∈ l1, p.pos base ≤ x ∧ p.finish base ≤ x) (hfirst : q.first base ≤ x)
    (len : ℕ) {skip used : ℕ} (hshare : sk.share q seq len = (skip, used))
    (hfits : x + (skip + used : ℕ) ≤ q.finish base) :
    sk0.ReadTo (sk.readFrom peek seq (l1.map (Skb.pass peek)) q rest len) base peek
      (seq + BitVec.ofNat 32 (skip + used)) (x + (skip + used : ℕ)) := by
  have hlow := hr.low
  have hq : q ∈ sk0.rqueue := by
    rw [hl]
    exact mem_append_right _ mem_cons_self
  have hend := hr.finish_le hq
  have hplace : 1 + (seq + BitVec.ofNat 32 (skip + used)) =
      base + Seq.ofInt (x + (skip + used : ℕ)) := by
    rw [Seq.natCast_eq, Seq.ofInt_add, ← add_assoc, ← add_assoc, h.place]
  have hoffset := Skb.offset_reader h.place (by omega) hhigh (hr.queue.near q hq) hfirst
  unfold Sock.readFrom
  rw [hshare]
  cases peek with
  | true =>
    obtain rfl := h.peeked rfl
    have hkept : (if Seq.after (sk.copiedSeq + 1) sk.urgSeq = true then UrgData.none
        else sk.urgData) = sk.urgData := by
      by_cases hurg : sk.urgData = .none
      · rw [hurg, ite_self]
      · have hmark := hr.mark hurg
        rw [if_neg]
        rw [after_urgSeq hr.reader hlow (by omega) (by omega)]
        omega
    have hsame : ({ q with used := q.used || false } : Skb) = q := by rw [Bool.or_false]
    simp only [Bool.not_true, Bool.false_and, if_true]
    rw [hkept, hsame, map_pass_true, ← hl]
    refine ⟨hplace, by simp, rfl, rfl, by simp, ⟨l1, q :: rest, hl, ?_, ?_⟩, fun _ => rfl⟩
    · rw [map_pass_true]
      exact hl
    · intro p hp
      have := hbehind p hp
      omega
  | false =>
    refine ⟨hplace, fun _ => rfl, h.urgSeq, h.inline, fun _ => ?_, ?_, by simp⟩
    · change (if Seq.after (seq + BitVec.ofNat 32 (skip + used) + 1) sk.urgSeq = true
        then UrgData.none else sk.urgData) = _
      rw [h.urgData rfl]
      by_cases hu : Seq.rel base sk0.urgSeq < x
      · rw [if_pos hu, ite_self, if_pos (by omega)]
      · rw [if_neg hu, h.urgSeq]
        refine if_congr ?_ rfl rfl
        exact after_urgSeq (by rw [add_comm, hplace]) (by omega) (by omega) (by omega)
    · by_cases hlast : q.len ≤ q.offset seq + skip + used
      · refine ⟨l1 ++ [q], rest, ?_, ?_, ?_⟩
        · rw [hl, append_assoc]
          rfl
        · change l1.map (Skb.pass false) ++ { q with used := q.used || decide _ } :: rest = _
          rw [decide_eq_true hlast, map_append, append_assoc]
          rfl
        · intro p hp
          rcases mem_append.mp hp with hp | hp
          · have := hbehind p hp
            omega
          · rw [mem_singleton] at hp
            rw [hp]
            unfold Skb.finish
            unfold Skb.first at *
            omega
      · refine ⟨l1, q :: rest, hl, ?_, ?_⟩
        · change l1.map (Skb.pass false) ++ { q with used := q.used || decide _ } :: rest = _
          rw [decide_eq_false hlast, Bool.or_false]
        · intro p hp
          have := hbehind p hp
          omega

/-- What a read returns that has copied `out` and come to the end of what there is for it. -/
def Sock.readResult (sk : Sock) (nonblock : Bool) (len : ℕ) (out : List UInt8) :
    Sock × ReadResult :=
  if out = [] ∧ len ≠ 0 then sk.readNothing nonblock else (sk, .copied out)

theorem Sock.readResult_eq (sk : Sock) (nonblock : Bool)
    (h : out = [] → len = 0) : sk.readResult nonblock len out = (sk, .copied out) := by
  unfold Sock.readResult
  rw [if_neg fun hempty => hempty.2 (h hempty.1)]

theorem streamAt_gap (hq : StreamQueue base n sk.rqueue) {l2 : List Skb}
    (hl : sk.rqueue = l1 ++ l2) (hbehind : ∀ p ∈ l1, p.pos base ≤ x ∧ p.finish base ≤ x)
    (hstop : l2 = [] ∨ ∃ q rest, l2 = q :: rest ∧ x < q.pos base) :
    streamAt base sk.rqueue x = none := by
  rw [hl, streamAt_append_of_finish fun p hp => (hbehind p hp).2]
  unfold streamAt
  rw [List.findSome?_eq_none_iff]
  intro p hp
  rcases hstop with rfl | ⟨q, rest, rfl, hpos⟩
  · exact absurd hp not_mem_nil
  · apply Skb.byteAt_before
    rcases mem_cons.mp hp with rfl | hp
    · exact hpos
    · have hsorted := hq.sorted
      rw [hl, pairwise_append, pairwise_cons] at hsorted
      have := hsorted.2.1.1 p hp
      omega

theorem FirstGap.finish_le (h : FirstGap base (l1 ++ q :: l) x gap)
    (hbehind : ∀ p ∈ l1, p.finish base ≤ x) (hfirst : q.first base ≤ x) :
    q.finish base ≤ gap := by
  by_contra hlt
  push Not at hlt
  have hle := h.le
  apply Skb.byteAt_ne_none (show q.first base ≤ gap by omega) hlt
  have hmissing := h.missing
  rw [streamAt_append_of_finish fun p hp => (hbehind p hp).trans hle,
    streamAt_eq_of_first (by omega) hlt] at hmissing
  exact hmissing

theorem FirstGap.onward {l' : List Skb} (h : FirstGap base l x gap) (hxy : x ≤ y)
    (hy : y ≤ gap) (hbytes : ∀ z, y ≤ z → streamAt base l' z = streamAt base l z) :
    FirstGap base l' y gap := by
  refine ⟨hy, ?_, ?_⟩
  · intro z hlow hz
    rw [hbytes z hlow]
    exact h.held z (hxy.trans hlow) hz
  · rw [hbytes gap hy]
    exact h.missing

theorem FirstGap.eq_of_missing (h : FirstGap base l x gap)
    (hx : streamAt base l x = none) : gap = x := by
  by_contra hne
  have hle := h.le
  exact h.held x (le_refl x) (by omega) hx

section
variable (nonblock : Bool) (hseq : (if peek then seq else sk.copiedSeq) = seq) (hlen : len ≠ 0)
  (hstop : ¬(out ≠ [] ∧ sk.urgData ≠ .none ∧ sk.urgSeq = 1 + seq))
include hseq hlen hstop

theorem Sock.tcpReadLoop_nothing {fuel : ℕ} {passed : List Skb}
    (hscan : scan peek seq sk.rqueue = (passed, l)) (hnone : ∀ q ∈ l.head?, q.found seq = false) :
    sk.tcpReadLoop peek nonblock (fuel + 1) len seq out =
      { sk with rqueue := passed ++ l }.readResult nonblock len out := by
  unfold Sock.tcpReadLoop Sock.readResult
  dsimp only
  rw [hseq, if_neg hlen, if_neg hstop, hscan]
  cases l with
  | nil =>
    rw [append_nil]
    by_cases hout : out = []
    · rw [if_neg fun h => h hout, if_pos ⟨hout, hlen⟩]
    · rw [if_pos hout, if_neg fun h => hout h.1]
  | cons q rest =>
    dsimp only
    rw [if_pos (hnone q rfl)]
    by_cases hout : out = []
    · rw [if_neg fun h => h hout, if_pos ⟨hout, hlen⟩]
    · rw [if_pos hout, if_neg fun h => hout h.1]

theorem Sock.tcpReadLoop_found {fuel skip used : ℕ} {passed : List Skb}
    (hscan : scan peek seq sk.rqueue = (passed, q :: rest)) (hfound : q.found seq = true)
    (hshare : sk.share q seq len = (skip, used)) :
    sk.tcpReadLoop peek nonblock (fuel + 1) len seq out =
      (sk.readFrom peek seq passed q rest len).tcpReadLoop peek nonblock fuel (len - used)
        (seq + BitVec.ofNat 32 (skip + used))
        (out ++ (q.th.data.drop (q.offset seq + skip)).take used) := by
  conv_lhs => unfold Sock.tcpReadLoop
  rw [hseq, if_neg hlen, if_neg hstop, hscan]
  dsimp only
  rw [if_neg (by rw [hfound]; exact Bool.noConfusion), hshare]

end

theorem Sock.ReadTo.tcpReadLoop (hr : sk0.Readable base n) (nonblock : Bool) (fuel : ℕ)
    (len : ℕ) (out : List UInt8) (h : sk0.ReadTo sk base peek seq x) (hn : n ≤ x)
    (hhigh : x ≤ 1073741824) (hgap : FirstGap base sk0.rqueue x gap)
    (hfuel : len + skips (sk0.urgMark base) x ≤ fuel) :
    ∃ sk' seq' e, e = readEnd (sk0.urgMark base) sk0.urginline (decide (out ≠ [])) gap x len ∧
      sk0.ReadTo sk' base peek seq' e ∧
      sk.tcpReadLoop peek nonblock fuel len seq out =
        sk'.readResult nonblock len
          (out ++ streamBytes base sk0.rqueue (sk0.outOfBand base) x (e - x).toNat) := by
  have hstay : ∀ (out : List UInt8) (x : ℤ),
      out ++ streamBytes base sk0.rqueue (sk0.outOfBand base) x (x - x).toNat = out := by
    intro out x
    rw [sub_self]
    exact append_nil out
  induction fuel generalizing sk seq x len out with
  | zero =>
    obtain rfl : len = 0 := by omega
    refine ⟨sk, seq, x, ?_, h, ?_⟩
    · unfold readEnd
      rw [if_pos rfl]
    · rw [hstay, Sock.readResult_eq _ _ fun _ => rfl]
      rfl
  | succ fuel ih =>
    have hlow := hr.low
    have hseq : (if peek then seq else sk.copiedSeq) = seq := by
      cases peek with
      | true => rfl
      | false => exact h.copied rfl
    by_cases hlen : len = 0
    · refine ⟨sk, seq, x, ?_, h, ?_⟩
      · unfold readEnd
        rw [if_pos hlen]
      · rw [hstay, Sock.readResult_eq _ _ fun _ => hlen]
        exact if_pos hlen
    have hmark := h.atMark_iff (by omega) hhigh
    by_cases hstop : out ≠ [] ∧ sk.urgData ≠ .none ∧ sk.urgSeq = 1 + seq
    · refine ⟨sk, seq, x, ?_, h, ?_⟩
      · rw [decide_eq_true hstop.1, hmark.mp hstop.2, readEnd_mark _ hgap.le]
      · rw [hstay, Sock.readResult_eq _ _ fun hempty => absurd hempty hstop.1]
        unfold Sock.tcpReadLoop
        rw [hseq, if_neg hlen, if_pos hstop]
    obtain ⟨l1, l2, hl, hsk, hbehind⟩ := h.queue
    have hqueue := hr.queue
    rw [hl] at hqueue
    obtain ⟨l3, l4, rfl, hscan, hpassed, hcases⟩ :=
      hqueue.scan_eq h.place hlow hn hhigh hbehind peek
    rw [← append_assoc] at hl
    rw [← hsk] at hscan
    have hnone : l4 = [] ∨ (∃ q rest, l4 = q :: rest ∧ x < q.pos base) →
        ∃ sk' seq' e,
          e = readEnd (sk0.urgMark base) sk0.urginline (decide (out ≠ [])) gap x len ∧
          sk0.ReadTo sk' base peek seq' e ∧
          sk.tcpReadLoop peek nonblock (fuel + 1) len seq out =
            sk'.readResult nonblock len
              (out ++ streamBytes base sk0.rqueue (sk0.outOfBand base) x (e - x).toNat) := by
      intro hend
      have hmissing := streamAt_gap hr.queue hl hpassed hend
      refine ⟨_, seq, x, by rw [hgap.eq_of_missing hmissing, readEnd_gap], h.scanned hl hpassed, ?_⟩
      rw [hstay]
      refine Sock.tcpReadLoop_nothing nonblock hseq hlen hstop hscan fun q hq => ?_
      rcases hend with rfl | ⟨p, rest, rfl, hpos⟩
      · cases hq
      · obtain rfl := Option.some.inj hq
        have hp : p ∈ sk0.rqueue := by
          rw [hl]
          exact mem_append_right _ mem_cons_self
        unfold Skb.found
        rw [(before_reader h.place (by omega) hhigh (hr.queue.near p hp)).mpr hpos]
        rfl
    rcases hcases with hend | hend | ⟨q, rest, hl4, hfound, hfirst, hfinish⟩
    · exact hnone (.inl hend)
    · exact hnone (.inr hend)
    · subst hl4
      have hq : q ∈ sk0.rqueue := by
        rw [hl]
        exact mem_append_right _ mem_cons_self
      have hgap' : FirstGap base (l1 ++ l3 ++ q :: rest) x gap := by
        rw [← hl]
        exact hgap
      have hreach := hgap'.finish_le (fun p hp => (hpassed p hp).2) hfirst
      have hend := hr.finish_le hq
      have hoffset := Skb.offset_reader h.place (by omega) hhigh (hr.queue.near q hq) hfirst
      have hbytes : ∀ z, x ≤ z → z < q.finish base →
          streamAt base sk0.rqueue z = q.byteAt base z := by
        intro z hz hz'
        rw [hl, streamAt_append_of_finish fun p hp => (hpassed p hp).2.trans hz,
          streamAt_eq_of_first (by omega) hz']
      have hportion := h.portion_eq sk0.urginline (min len (q.finish base - x).toNat)
      have hle := portion_le (sk0.urgMark base) sk0.urginline x (min len (q.finish base - x).toNat)
      have hstream := streamBytes_portion (sk0.urgMark base) sk0.urginline
        (min len (q.finish base - x).toNat) hfirst (by omega)
        fun z hz hz' => hbytes z hz (by omega)
      have hshare := sk.share_eq len h.place (by omega) hhigh (hr.queue.near q hq) hfirst
      rw [h.inline, hportion] at hshare
      have hstop' : ¬(decide (out ≠ []) = true ∧ sk0.urgMark base = some x) := by
        rintro ⟨hout, hat⟩
        exact hstop ⟨of_decide_eq_true hout, hmark.mpr hat⟩
      rcases hsplit : portion (sk0.urgMark base) sk0.urginline x
        (min len (q.finish base - x).toNat) with ⟨skip, used⟩
      rw [hsplit] at hle hstream hshare
      obtain ⟨hsame, hless⟩ := readEnd_portion hlen hfinish hreach hstop' hsplit
      have hto := h.readFrom hr hn hhigh hl hpassed hfirst len hshare (by omega)
      have hplace : (x - q.first base).toNat = q.offset seq := by omega
      rw [hplace] at hstream
      have hlength : ((q.th.data.drop (q.offset seq + skip)).take used).length = used := by
        rw [length_take, length_drop]
        unfold Skb.finish Skb.len at hle
        omega
      obtain ⟨sk', seq', e, he, hto', hloop⟩ := ih
        (len - used) (out ++ (q.th.data.drop (q.offset seq + skip)).take used) hto
        (by omega) (by omega) (hgap.onward (by omega) (by omega) fun _ _ => rfl) (by omega)
      have hstarted : decide (out ++ (q.th.data.drop (q.offset seq + skip)).take used ≠ []) =
          (decide (out ≠ []) || decide (0 < used)) := by
        rw [← Bool.decide_or, decide_eq_decide, ← length_pos_iff, length_append, hlength,
          ← length_pos_iff]
        omega
      rw [hstarted, hsame] at he
      have hbounds := readEnd_bounds (sk0.urgMark base) sk0.urginline
        (decide (out ≠ []) || decide (0 < used)) (show x + (skip + used : ℕ) ≤ gap by omega)
        (len - used)
      refine ⟨sk', seq', e, he, hto', ?_⟩
      have hsum : (e - x).toNat = skip + used + (e - (x + (skip + used : ℕ))).toNat := by omega
      rw [Sock.tcpReadLoop_found nonblock hseq hlen hstop hscan hfound hshare, hloop, hsum,
          streamBytes_add, ← append_assoc]
      unfold Sock.outOfBand
      rw [hstream]
      -- A read that has copied nothing may still copy all it was asked for.
      by_cases hused : used = 0
      · rw [hused, Nat.sub_zero]
      · have hnonempty : out ++ (q.th.data.drop (q.offset seq + skip)).take used ++
            streamBytes base sk0.rqueue (if sk0.urginline then none else sk0.urgMark base)
              (x + (skip + used : ℕ)) (e - (x + (skip + used : ℕ))).toNat ≠ [] := by
          intro hempty
          rw [append_eq_nil_iff, append_eq_nil_iff] at hempty
          rw [hempty.1.2] at hlength
          exact hused hlength.symm
        rw [Sock.readResult_eq _ _ fun h => absurd h hnonempty,
          Sock.readResult_eq _ _ fun h => absurd h hnonempty]

end loop

variable {e : ℤ}

def ReadResult.bytes : ReadResult → List UInt8
  | .copied bytes => bytes
  | .error _ => []
  | .sleep => []

section calls

variable {sk sk' : Sock} {base seq : Seq} {n gap : ℤ}

theorem Sock.cleanupRbuf_unused (h : ∀ q ∈ sk.rqueue, q.used = false) (b : Buff) :
    sk.cleanupRbuf b = sk := by
  have htake : sk.rqueue.takeWhile (·.used) = [] := by
    cases hl : sk.rqueue with
    | nil => rfl
    | cons q l =>
      have hq := h q (by rw [hl]; exact mem_cons_self)
      exact takeWhile_cons_of_neg (by simp [hq])
  have hdrop : sk.rqueue.dropWhile (·.used) = sk.rqueue := by
    have := takeWhile_append_dropWhile (p := fun q : Skb => q.used) (l := sk.rqueue)
    rw [htake] at this
    exact this
  unfold Sock.cleanupRbuf
  rw [htake, hdrop]
  exact if_pos rfl

def Sock.reader (sk : Sock) : List Skb × Seq × Seq × UrgData × Bool :=
  (sk.rqueue, sk.copiedSeq, sk.urgSeq, sk.urgData, sk.urginline)

theorem Sock.reader_readNothing (sk : Sock) (nonblock : Bool) :
    (sk.readNothing nonblock).1.reader = sk.reader := by
  unfold Sock.readNothing
  split_ifs <;> rfl

theorem Sock.reader_readResult (sk : Sock) (nonblock : Bool) (len : ℕ) (out : List UInt8) :
    (sk.readResult nonblock len out).1.reader = sk.reader := by
  unfold Sock.readResult
  split_ifs
  · exact sk.reader_readNothing nonblock
  · rfl

theorem Sock.bytes_readResult (sk : Sock) (nonblock : Bool) (len : ℕ) (out : List UInt8) :
    (sk.readResult nonblock len out).2.bytes = out := by
  unfold Sock.readResult
  split_ifs with hempty
  · rw [hempty.1]
    unfold Sock.readNothing
    split_ifs <;> rfl
  · rfl

theorem Sock.reader_tcpReadWakeup (sk : Sock) (b : Buff) :
    (sk.tcpReadWakeup b).reader = sk.reader := by
  unfold Sock.tcpReadWakeup
  split
  · rfl
  · cases b <;> rfl

theorem Sock.reader_cleanupRbuf (sk : Sock) (b : Buff) :
    (sk.cleanupRbuf b).reader =
      (sk.rqueue.dropWhile (·.used), sk.copiedSeq, sk.urgSeq, sk.urgData, sk.urginline) := by
  unfold Sock.cleanupRbuf
  dsimp only
  split_ifs
  · rfl
  · exact Sock.reader_tcpReadWakeup ..
  · rfl

theorem Sock.Readable.tcpRead_eq (h : sk.Readable base n) (hgap : FirstGap base sk.rqueue n gap)
    (peek nonblock : Bool) (len : ℕ) (b : Buff) :
    ∃ sk' seq e, e = readEnd (sk.urgMark base) sk.urginline false gap n len ∧
      sk.ReadTo sk' base peek seq e ∧
      sk.tcpRead (if peek then some sk.copiedSeq else none) len nonblock b =
        ((sk'.readResult nonblock len
            (streamBytes base sk.rqueue (sk.outOfBand base) n (e - n).toNat)).1.cleanupRbuf b,
          (sk'.readResult nonblock len
            (streamBytes base sk.rqueue (sk.outOfBand base) n (e - n).toNat)).2) := by
  have hstart : sk.ReadTo sk base peek sk.copiedSeq n := by
    refine ⟨by rw [add_comm]; exact h.reader, fun _ => rfl, rfl, rfl, fun _ => ?_,
      ⟨[], sk.rqueue, rfl, rfl, by simp⟩, fun _ => rfl⟩
    by_cases hurg : sk.urgData = .none
    · rw [hurg, ite_self]
    · have := h.mark hurg
      rw [if_neg (by omega)]
  have hpeek : (if peek then some sk.copiedSeq else none).isSome = peek := by
    cases peek <;> rfl
  have hseq : (if peek then some sk.copiedSeq else none).getD sk.copiedSeq = sk.copiedSeq := by
    cases peek <;> rfl
  have hskips : skips (sk.urgMark base) n ≤ 1 := by
    unfold skips
    split
    · omega
    · split_ifs <;> omega
  unfold Sock.tcpRead
  rw [hpeek, hseq]
  by_cases hlen : len = 0
  · refine ⟨sk, sk.copiedSeq, n, ?_, hstart, ?_⟩
    · unfold readEnd
      rw [if_pos hlen]
    · rw [if_pos hlen, Sock.readResult_eq _ _ fun _ => hlen, sub_self]
      change _ = (sk.cleanupRbuf b, ReadResult.copied [])
      rw [Sock.cleanupRbuf_unused h.queue.unused]
  · obtain ⟨sk', seq, e, he, hto, hloop⟩ := hstart.tcpReadLoop h nonblock (2 * len) len
      [] le_rfl h.high hgap (by omega)
    rw [if_neg hlen]
    refine ⟨sk', seq, e, ?_, hto, ?_⟩
    · rw [he]
      rfl
    · rw [hloop, nil_append]

theorem dropWhile_pass {l1 l2 : List Skb} (h : ∀ q ∈ l2, q.used = false) :
    (l1.map (Skb.pass false) ++ l2).dropWhile (·.used) = l2 := by
  induction l1 with
  | nil =>
    cases l2 with
    | nil => rfl
    | cons q l => exact dropWhile_cons_of_neg (by simp [h q mem_cons_self])
  | cons p l1 ih =>
    rw [map_cons, cons_append, dropWhile_cons_of_pos]
    · exact ih
    · unfold Skb.pass
      simp

structure Sock.Onward (sk sk' : Sock) (base : Seq) (e : ℤ) : Prop where
  readable : sk'.Readable base e
  bytes : ∀ y, e ≤ y → streamAt base sk'.rqueue y = streamAt base sk.rqueue y
  inline : sk'.urginline = sk.urginline
  mark : sk'.urgMark base = sk.urgMark base ∨
    sk'.urgMark base = none ∧ ∃ u < e, sk.urgMark base = some u

theorem Sock.ReadTo.onward (h : sk.ReadTo sk' base false seq e)
    (hr : sk.Readable base n) (hn : n ≤ e) (hhigh : e ≤ 1073741824) (nonblock : Bool) (len : ℕ)
    (out : List UInt8) (b : Buff) :
    sk.Onward ((sk'.readResult nonblock len out).1.cleanupRbuf b) base e := by
  obtain ⟨l1, l2, hl, hsk, hbehind⟩ := h.queue
  have hmem : ∀ q ∈ l2, q ∈ sk.rqueue := by
    intro q hq
    rw [hl]
    exact mem_append_right l1 hq
  have hunused : ∀ q ∈ l2, q.used = false := fun q hq => hr.queue.unused q (hmem q hq)
  have hsame := sk'.reader_readResult nonblock len out
  have hview := (sk'.readResult nonblock len out).1.reader_cleanupRbuf b
  generalize (sk'.readResult nonblock len out).1.cleanupRbuf b = sk2 at hview ⊢
  obtain ⟨hq1, hcopied1, hseq1, hdata1, hinline1⟩ : _ ∧ _ ∧ _ ∧ _ ∧ _ := by
    unfold Sock.reader at hsame
    simpa only [Prod.mk.injEq] using hsame
  obtain ⟨hq2, hcopied2, hseq2, hdata2, hinline2⟩ : _ ∧ _ ∧ _ ∧ _ ∧ _ := by
    unfold Sock.reader at hview
    simpa only [Prod.mk.injEq] using hview
  have hqueue : sk2.rqueue = l2 := by
    rw [hq2, hq1, hsk, dropWhile_pass hunused]
  have hurgSeq : sk2.urgSeq = sk.urgSeq := hseq2.trans (hseq1.trans h.urgSeq)
  have hurgData : sk2.urgData = if Seq.rel base sk.urgSeq < e then .none else sk.urgData :=
    hdata2.trans (hdata1.trans (h.urgData rfl))
  refine ⟨⟨⟨?_, ?_, ?_, ?_⟩, ?_, hr.low.trans hn, hhigh, ?_⟩, ?_, ?_, ?_⟩
  · have hsorted := hr.queue.sorted
    rw [hl, pairwise_append] at hsorted
    rw [hqueue]
    exact hsorted.2.1
  · rw [hqueue]
    exact fun q hq => hr.queue.near q (hmem q hq)
  · rw [hqueue]
    intro q hq hsyn
    have := hr.queue.syn q (hmem q hq) hsyn
    omega
  · rw [hqueue]
    exact hunused
  · rw [hcopied2, hcopied1, h.copied rfl, add_comm]
    exact h.place
  · rw [hurgData, hurgSeq]
    intro hpending
    split_ifs at hpending with hu
    · exact absurd rfl hpending
    · omega
  · intro y hy
    rw [hqueue, hl, streamAt_append_of_finish fun p hp => (hbehind p hp).2.trans hy]
  · exact hinline2.trans (hinline1.trans h.inline)
  · unfold Sock.urgMark
    rw [hurgData, hurgSeq]
    by_cases hnone : sk.urgData = .none
    · rw [hnone, ite_self]
      exact .inl rfl
    · rw [if_neg hnone]
      by_cases hu : Seq.rel base sk.urgSeq < e
      · rw [if_pos hu]
        exact .inr ⟨rfl, _, hu, rfl⟩
      · rw [if_neg hu, if_neg hnone]
        exact .inl rfl

theorem Sock.Onward.outOfBand_iff (h : sk.Onward sk' base e) (hy : e ≤ y) :
    sk'.outOfBand base = some y ↔ sk.outOfBand base = some y := by
  unfold Sock.outOfBand
  rw [h.inline]
  rcases h.mark with hsame | ⟨hnone, u, hu, hmark⟩
  · rw [hsame]
  · rw [hnone, hmark]
    cases sk.urginline with
    | true => rfl
    | false =>
      simp only [Bool.false_eq_true, if_false, reduceCtorEq, Option.some.injEq, false_iff]
      omega

theorem Sock.Onward.readEnd_eq {x : ℤ} (h : sk.Onward sk' base e) (hx : e ≤ x) (len : ℕ) :
    readEnd (sk'.urgMark base) sk'.urginline false gap x len =
      readEnd (sk.urgMark base) sk.urginline false gap x len := by
  rw [h.inline]
  rcases h.mark with hsame | ⟨hnone, u, hu, hmark⟩
  · rw [hsame]
  · rw [hnone, hmark, readEnd_behind (by omega)]

theorem Sock.Onward.streamBytes_eq {x : ℤ} (h : sk.Onward sk' base e) (hx : e ≤ x) (k : ℕ) :
    streamBytes base sk'.rqueue (sk'.outOfBand base) x k =
      streamBytes base sk.rqueue (sk.outOfBand base) x k :=
  streamBytes_congr (fun y hy => h.bytes y (hx.trans hy))
    fun _ hy => h.outOfBand_iff (hx.trans hy)

def Sock.reads (sk : Sock) : List (ℕ × Buff) → Sock × List (List UInt8)
  | [] => (sk, [])
  | (len, b) :: calls =>
    let result := sk.tcpRead none len true b
    ((result.1.reads calls).1, result.2.bytes :: (result.1.reads calls).2)

def portions (mark : Option ℤ) (inline : Bool) (gap : ℤ) (bytes : ℤ → ℕ → List UInt8) :
    ℤ → List ℕ → ℤ × List (List UInt8)
  | x, [] => (x, [])
  | x, len :: lens =>
    let e := readEnd mark inline false gap x len
    ((portions mark inline gap bytes e lens).1,
      bytes x (e - x).toNat :: (portions mark inline gap bytes e lens).2)

theorem Sock.Onward.portions_eq {x : ℤ} (h : sk.Onward sk' base e) (hx : e ≤ x)
    (hgap : x ≤ gap) (lens : List ℕ) :
    portions (sk'.urgMark base) sk'.urginline gap
        (streamBytes base sk'.rqueue (sk'.outOfBand base)) x lens =
      portions (sk.urgMark base) sk.urginline gap
        (streamBytes base sk.rqueue (sk.outOfBand base)) x lens := by
  induction lens generalizing x with
  | nil => rw [portions, portions]
  | cons len lens ih =>
    have hbounds := readEnd_bounds (sk.urgMark base) sk.urginline false hgap len
    unfold portions
    dsimp only
    rw [h.readEnd_eq hx, h.streamBytes_eq hx, ih (hx.trans hbounds.1) hbounds.2]

theorem portions_flatten (mark : Option ℤ) (inline : Bool) {x gap : ℤ} (hgap : x ≤ gap)
    (base : Seq) (l : List Skb) (oob : Option ℤ) (lens : List ℕ) :
    x ≤ (portions mark inline gap (streamBytes base l oob) x lens).1 ∧
      (portions mark inline gap (streamBytes base l oob) x lens).1 ≤ gap ∧
      (portions mark inline gap (streamBytes base l oob) x lens).2.flatten =
        streamBytes base l oob x
          ((portions mark inline gap (streamBytes base l oob) x lens).1 - x).toNat := by
  induction lens generalizing x with
  | nil =>
    refine ⟨le_rfl, hgap, ?_⟩
    change [] = streamBytes base l oob x (x - x).toNat
    rw [sub_self]
    rfl
  | cons len lens ih =>
    have hbounds := readEnd_bounds mark inline false hgap len
    obtain ⟨hlow, hhigh, hbytes⟩ := ih hbounds.2
    unfold portions
    refine ⟨hbounds.1.trans hlow, hhigh, ?_⟩
    rw [flatten_cons, hbytes]
    generalize (portions mark inline gap (streamBytes base l oob)
      (readEnd mark inline false gap x len) lens).1 = e at hlow ⊢
    generalize readEnd mark inline false gap x len = m at hbounds hlow ⊢
    have hsum : (e - x).toNat = (m - x).toNat + (e - m).toNat := by omega
    have hm : x + ((m - x).toNat : ℤ) = m := by omega
    rw [hsum, streamBytes_add, hm]

theorem Sock.Readable.exists_gap (h : sk.Readable base n) :
    ∃ gap, FirstGap base sk.rqueue n gap := by
  have hfar : ∃ k : ℕ, streamAt base sk.rqueue (n + k) = none := by
    refine ⟨(1073741824 - n).toNat, ?_⟩
    unfold streamAt
    rw [List.findSome?_eq_none_iff]
    intro q hq
    apply Skb.byteAt_eq_none
    have := h.finish_le hq
    omega
  refine ⟨n + Nat.find hfar, by omega, ?_, Nat.find_spec hfar⟩
  intro y hlow hy
  have hmin := Nat.find_min hfar (m := (y - n).toNat) (by omega)
  rwa [show n + ((y - n).toNat : ℤ) = y by omega] at hmin

section
variable (h : sk.Readable base n) (hgap : FirstGap base sk.rqueue n gap)
include h hgap

theorem Sock.Readable.gap_le : gap ≤ 1073741824 := by
  by_contra hlt
  push Not at hlt
  apply hgap.held 1073741824 h.high hlt
  unfold streamAt
  rw [List.findSome?_eq_none_iff]
  intro q hq
  exact Skb.byteAt_eq_none (h.finish_le hq)

theorem Sock.Readable.tcpRead (len : ℕ) (b : Buff)
    (he : e = readEnd (sk.urgMark base) sk.urginline false gap n len) :
    (sk.tcpRead none len true b).2.bytes =
        streamBytes base sk.rqueue (sk.outOfBand base) n (e - n).toNat ∧
      sk.Onward (sk.tcpRead none len true b).1 base e := by
  obtain ⟨sk', seq, e', he', hto, hread⟩ := h.tcpRead_eq hgap false true len b
  obtain rfl : e = e' := he.trans he'.symm
  have hbounds := readEnd_bounds (sk.urgMark base) sk.urginline false hgap.le len
  rw [← he] at hbounds
  have hhigh := h.gap_le hgap
  rw [if_neg Bool.false_ne_true] at hread
  rw [hread]
  exact ⟨Sock.bytes_readResult .., hto.onward h hbounds.1 (hbounds.2.trans hhigh) true len _ b⟩

theorem Sock.Readable.reads (calls : List (ℕ × Buff)) :
    (sk.reads calls).2 = (portions (sk.urgMark base) sk.urginline gap
        (streamBytes base sk.rqueue (sk.outOfBand base)) n (calls.map (·.1))).2 ∧
      (sk.reads calls).1.Readable base (portions (sk.urgMark base) sk.urginline gap
        (streamBytes base sk.rqueue (sk.outOfBand base)) n (calls.map (·.1))).1 := by
  induction calls generalizing sk n with
  | nil =>
    exact ⟨rfl, h⟩
  | cons call calls ih =>
    obtain ⟨len, b⟩ := call
    obtain ⟨hbytes, honward⟩ := h.tcpRead hgap len b rfl
    have hbounds := readEnd_bounds (sk.urgMark base) sk.urginline false hgap.le len
    have hgap' := hgap.onward hbounds.1 hbounds.2 honward.bytes
    obtain ⟨hrest, hlast⟩ := ih honward.readable hgap'
    rw [honward.portions_eq le_rfl hbounds.2] at hrest hlast
    rw [map_cons, portions]
    refine ⟨?_, hlast⟩
    change (sk.tcpRead none len true b).2.bytes :: _ = _
    rw [hbytes, hrest]

theorem Sock.Readable.peek_eq (len : ℕ) (b : Buff)
    (he : e = readEnd (sk.urgMark base) sk.urginline false gap n len) :
    sk.tcpRead (some sk.copiedSeq) len true b =
      sk.readResult true len
        (streamBytes base sk.rqueue (sk.outOfBand base) n (e - n).toNat) := by
  obtain ⟨sk', seq, e', he', hto, hread⟩ := h.tcpRead_eq hgap true true len b
  obtain rfl : e = e' := he.trans he'.symm
  obtain rfl := hto.peeked rfl
  rw [if_pos rfl] at hread
  rw [hread]
  refine Prod.ext (Sock.cleanupRbuf_unused ?_ b) rfl
  have hqueue := congrArg Prod.fst (sk'.reader_readResult true len
    (streamBytes base sk'.rqueue (sk'.outOfBand base) n (e - n).toNat))
  generalize (sk'.readResult true len _).1 = sk1 at hqueue ⊢
  intro q hq
  change sk1.rqueue = sk'.rqueue at hqueue
  rw [hqueue] at hq
  exact h.queue.unused q hq

omit h hgap in
theorem Sock.Readable.onward_of_reader (h : sk.Readable base n) (hsame : sk'.reader = sk.reader) :
    sk.Onward sk' base n := by
  unfold Sock.reader at hsame
  simp only [Prod.mk.injEq] at hsame
  obtain ⟨hqueue, hcopied, hseq, hdata, hinline⟩ := hsame
  refine ⟨⟨by rw [hqueue]; exact h.queue, by rw [hcopied]; exact h.reader, h.low, h.high, ?_⟩, ?_,
    hinline, .inl ?_⟩
  · rw [hdata, hseq]
    exact h.mark
  · intro y _
    rw [hqueue]
  · unfold Sock.urgMark
    rw [hdata, hseq]

theorem Sock.Readable.peek_bytes (len : ℕ) (b b' : Buff) :
    ((sk.tcpRead (some sk.copiedSeq) len true b).1.tcpRead none len true b').2.bytes =
      (sk.tcpRead (some sk.copiedSeq) len true b).2.bytes := by
  rw [h.peek_eq hgap len b rfl, Sock.bytes_readResult]
  have honward := h.onward_of_reader (sk.reader_readResult true len
    (streamBytes base sk.rqueue (sk.outOfBand base) n
      (readEnd (sk.urgMark base) sk.urginline false gap n len - n).toNat))
  have hgap' := hgap.onward le_rfl hgap.le honward.bytes
  rw [(honward.readable.tcpRead hgap' len b' rfl).1, honward.readEnd_eq le_rfl,
    honward.streamBytes_eq le_rfl]

end

theorem streamBytes_eq_nil {oob : Option ℤ} {x : ℤ} {k : ℕ}
    (h : streamBytes base l oob x k = []) (hlow : x ≤ y) (hhigh : y < x + k) :
    oob = some y ∨ streamAt base l y = none := by
  induction k generalizing x with
  | zero => omega
  | succ k ih =>
    unfold streamBytes at h
    rw [append_eq_nil_iff] at h
    by_cases hy : y = x
    · subst hy
      by_cases hoob : oob = some y
      · exact .inl hoob
      · rw [if_neg hoob, Option.toList_eq_nil_iff] at h
        exact .inr h.1
    · exact ih h.2 (by omega) (by omega)

theorem readEnd_eq_gap (hgap : FirstGap base l n gap) (mark : Option ℤ)
    (inline : Bool) (hlen : len ≠ 0)
    (hnone : streamBytes base l (if inline then none else mark) n
      (readEnd mark inline false gap n len - n).toNat = []) :
    readEnd mark inline false gap n len = gap := by
  have hbounds := readEnd_bounds mark inline false hgap.le len
  have hskipped : ∀ y, n ≤ y → y < readEnd mark inline false gap n len →
      (if inline then none else mark) = some y := by
    intro y hlow hhigh
    rcases streamBytes_eq_nil hnone hlow (by omega) with hoob | hmissing
    · exact hoob
    · exact absurd hmissing (hgap.held y hlow (by omega))
  by_contra hne
  cases mark with
  | none =>
    have hle : readEnd none inline false gap n len ≤ n := by
      by_contra hlt
      have hoob := hskipped n le_rfl (by omega)
      rw [ite_self] at hoob
      cases hoob
    rw [readEnd_none, if_neg hlen] at hle hne
    omega
  | some u =>
    have hfirst := hskipped n le_rfl
    have hsecond := hskipped (n + 1) (by omega)
    rw [readEnd_some, if_neg hlen] at *
    cases inline with
    | true =>
      simp only [if_true, reduceCtorEq, imp_false, not_lt, Bool.true_eq_false, false_and, and_false,
        if_false, Bool.false_eq_true, or_false] at *
      split_ifs at * <;> omega
    | false =>
      simp only [Bool.false_eq_true, if_false, Option.some.injEq, true_and, and_false,
        or_false] at *
      split_ifs at * <;> omega

structure Sock.Delivers (sk : Sock) (base : Seq) (n gap : ℤ) : Prop where
  each : ∀ calls : List (ℕ × Buff),
    (sk.reads calls).2 = (portions (sk.urgMark base) sk.urginline gap
      (streamBytes base sk.rqueue (sk.outOfBand base)) n (calls.map (·.1))).2
  all : ∀ calls : List (ℕ × Buff), ∃ e, n ≤ e ∧ e ≤ gap ∧ (sk.reads calls).1.Readable base e ∧
    (sk.reads calls).2.flatten = streamBytes base sk.rqueue (sk.outOfBand base) n (e - n).toNat
  until_gap : ∀ (len : ℕ) (b : Buff), len ≠ 0 → (sk.tcpRead none len true b).2.bytes = [] →
    (sk.tcpRead none len true b).1.Readable base gap
  peek_bytes : ∀ (len : ℕ) (b b' : Buff),
    ((sk.tcpRead (some sk.copiedSeq) len true b).1.tcpRead none len true b').2.bytes =
      (sk.tcpRead (some sk.copiedSeq) len true b).2.bytes
  peek_state : ∀ (len : ℕ) (b : Buff),
    (sk.tcpRead (some sk.copiedSeq) len true b).1 =
      if (sk.tcpRead (some sk.copiedSeq) len true b).2.bytes = [] ∧ len ≠ 0 then
        (sk.readNothing true).1
      else sk

/-- Nonblocking calls return the bytes of the stream in order, up to the first gap and each call
up to the urgent mark, without the byte there when it is out of band; a peeking call returns
what the next one returns, and changes nothing if it returns a byte. -/
theorem read_delivers_stream (sk : Sock) (h : sk.Readable base n) :
    ∃ gap, FirstGap base sk.rqueue n gap ∧ sk.Delivers base n gap := by
  obtain ⟨gap, hgap⟩ := h.exists_gap
  refine ⟨gap, hgap, fun calls => (h.reads hgap calls).1, ?_, ?_, h.peek_bytes hgap, ?_⟩
  · intro calls
    obtain ⟨hbytes, hlast⟩ := h.reads hgap calls
    obtain ⟨hlow, hhigh, hflat⟩ := portions_flatten (sk.urgMark base) sk.urginline hgap.le base
      sk.rqueue (sk.outOfBand base) (calls.map (·.1))
    refine ⟨_, hlow, hhigh, hlast, ?_⟩
    rw [hbytes, hflat]
  · intro len b hlen hnone
    obtain ⟨hbytes, honward⟩ := h.tcpRead hgap len b rfl
    rw [hbytes] at hnone
    have hend := readEnd_eq_gap hgap (sk.urgMark base) sk.urginline hlen hnone
    rw [hend] at honward
    exact honward.readable
  · intro len b
    rw [h.peek_eq hgap len b rfl, Sock.bytes_readResult]
    unfold Sock.readResult
    split_ifs <;> rfl

def overlapping : Sock :=
  { smallBuffer with
    ackedSeq := 1006
    urgSeq := 1003
    urgData := .valid 3
    rqueue := [{ threeBytes.skb with acked := true },
      { Segment.skb { threeBytes with seq := 1002, data := [2, 3, 4, 5], fits := by decide } with
        acked := true }] }

theorem read_delivers_stream_overlapping :
    ∃ gap, FirstGap 1001 overlapping.rqueue 0 gap ∧ overlapping.Delivers 1001 0 gap :=
  read_delivers_stream overlapping
    ⟨⟨by decide, by decide, by decide, by decide⟩, by decide, by decide, by decide, by decide⟩

example : (overlapping.reads [(1, .ok), (9, .ok), (9, .ok), (9, .ok)]).2 =
    [[1], [2], [4, 5], []] := by
  decide +kernel

/-- A peeking call takes an error that is pending. -/
theorem peek_takes_error :
    ¬∀ (sk : Sock), sk.Readable (sk.copiedSeq + 1) 0 → ∀ (len : ℕ) (b : Buff),
      (sk.tcpRead (some sk.copiedSeq) len true b).1 = sk := by
  intro h
  have hpeek := h { smallBuffer with err := etimedout }
    ⟨⟨by decide, by decide, by decide, by decide⟩, by decide, by decide, by decide, by decide⟩ 1 .ok
  exact absurd (congrArg Sock.err hpeek) (by decide)

end calls

end LinuxKernel.Tcp
