import LinuxKernel.BitMask
import LinuxKernel.IpFragmentChain

/-!
# Reassembly undoes fragmentation

The pieces of a datagram, cut by `ip_fragment` and cut again on the way, tile
its payload.  `ip_defrag` keeps one `ipfrag` for every piece it has seen and an
empty one for every duplicate, and hands the datagram up with the last piece
that was missing.
-/

namespace LinuxKernel.IpFragment
open List

/-! ## The pieces of a datagram -/

structure Fragmentable (d : Skb) : Prop where
  whole : ¬d.iph.moreFragments ∧ d.iph.offsetUnits = 0
  allowed : ¬d.iph.dontFragment
  totLen : d.iph.totLen = d.iph.hlen + d.payload.length
  fits : d.iph.totLen < 65536
  nonempty : d.payload ≠ []

def Room (p : Skb) (dev : Device) : Prop := p.iph.hlen + dev.hardHeaderLen + 8 ≤ dev.mtu

/-- What `ip_fragment` makes of a datagram, with any piece replaced by what
`ip_fragment` makes of it when it is forwarded. -/
inductive Pieces (d : Skb) : List Skb → Prop where
  | cut (dev : Device) : Room d dev → Pieces d (ipFragment d dev 0)
  | again {front back : List Skb} {p : Skb} (dev : Device) : Room p dev →
      Pieces d (front ++ p :: back) →
      Pieces d (front ++ ipFragment p dev (isFragOf p.iph) ++ back)

def pieceStart (p : Skb) : ℕ := p.iph.offsetUnits * 8

def pieceStop (p : Skb) : ℕ := pieceStart p + p.payload.length

structure TileOf (d p : Skb) : Prop where
  mac : p.mac = d.mac
  iph : p.iph = { d.iph with fragOff := p.iph.fragOff, totLen := p.iph.totLen }
  allowed : ¬p.iph.dontFragment
  totLen : p.iph.totLen = p.iph.hlen + p.payload.length
  nonempty : 0 < p.payload.length
  stop_le : pieceStop p ≤ d.payload.length
  more : p.iph.moreFragments ↔ pieceStop p < d.payload.length
  bytes : ∀ i, i < p.payload.length → p.payload.getD i 0 = d.payload.getD (pieceStart p + i) 0

def Tiling (d : Skb) : ℕ → ℕ → List Skb → Prop
  | start, stop, [] => start = stop
  | start, stop, p :: ps => TileOf d p ∧ pieceStart p = start ∧ Tiling d (pieceStop p) stop ps

variable {start stop : ℕ}

theorem Tiling.append {d : Skb} {front back : List Skb} {middle : ℕ}
    (hfront : Tiling d start middle front) (hback : Tiling d middle stop back) :
    Tiling d start stop (front ++ back) := by
  induction front generalizing start with
  | nil =>
    have heq : start = middle := hfront
    rw [heq]
    exact hback
  | cons p ps ih => exact ⟨hfront.1, hfront.2.1, ih hfront.2.2⟩

theorem Tiling.split {d : Skb} {front back : List Skb}
    (h : Tiling d start stop (front ++ back)) :
    ∃ middle, Tiling d start middle front ∧ Tiling d middle stop back := by
  induction front generalizing start with
  | nil => exact ⟨start, rfl, h⟩
  | cons p ps ih =>
    obtain ⟨middle, hfront, hback⟩ := ih h.2.2
    exact ⟨middle, ⟨h.1, h.2.1, hfront⟩, hback⟩

section
variable {d : Skb} {ps : List Skb} (h : Tiling d start stop ps)
include h

theorem Tiling.tileOf {p : Skb} (hp : p ∈ ps) : TileOf d p := by
  induction ps generalizing start with
  | nil => simp at hp
  | cons q qs ih =>
    rcases mem_cons.mp hp with heq | hmem
    · rw [heq]
      exact h.1
    · exact ih h.2.2 hmem

theorem Tiling.start_le {p : Skb} (hp : p ∈ ps) : start ≤ pieceStart p := by
  induction ps generalizing start with
  | nil => simp at hp
  | cons q qs ih =>
    rcases mem_cons.mp hp with heq | hmem
    · rw [heq]
      exact le_of_eq h.2.1.symm
    · have hle := ih h.2.2 hmem
      have hstart := h.2.1
      unfold pieceStop at hle
      omega

theorem Tiling.disjoint {p q : Skb} (hp : p ∈ ps) (hq : q ∈ ps) :
    p = q ∨ pieceStop p ≤ pieceStart q ∨ pieceStop q ≤ pieceStart p := by
  induction ps generalizing start with
  | nil => simp at hp
  | cons r rs ih =>
    rcases mem_cons.mp hp with hpr | hp
    · rcases mem_cons.mp hq with hqr | hq
      · exact .inl (hpr.trans hqr.symm)
      · rw [hpr]
        exact .inr (.inl (h.2.2.start_le hq))
    · rcases mem_cons.mp hq with hqr | hq
      · rw [hqr]
        exact .inr (.inr (h.2.2.start_le hp))
      · exact ih h.2.2 hp hq

theorem Tiling.exists_piece {x : ℕ} (hstart : start ≤ x) (hstop : x < stop) :
    ∃ p ∈ ps, pieceStart p ≤ x ∧ x < pieceStop p := by
  induction ps generalizing start with
  | nil =>
    have heq : start = stop := h
    omega
  | cons q qs ih =>
    by_cases hx : x < pieceStop q
    · refine ⟨q, mem_cons_self .., ?_, hx⟩
      rw [h.2.1]
      exact hstart
    · obtain ⟨p, hp, hpx⟩ := ih h.2.2 (by omega)
      exact ⟨p, mem_cons_of_mem q hp, hpx⟩

end

theorem or_more {x : ℕ} (hx : x < 8192) : x ||| 0x2000 = x + 8192 := by
  have h := Nat.two_pow_add_eq_or_of_lt (i := 13) hx 1
  rw [Nat.or_comm]
  norm_num at h ⊢
  omega

theorem offsetUnits_eq (iph : Iphdr) : iph.offsetUnits = iph.fragOff % 8192 :=
  Nat.and_two_pow_sub_one_eq_mod iph.fragOff 13

theorem moreFragments_iff (iph : Iphdr) : iph.moreFragments ↔ iph.fragOff / 8192 % 2 = 1 :=
  BitMask.and_two_pow_ne_zero_iff iph.fragOff 13

theorem dontFragment_iff (iph : Iphdr) : iph.dontFragment ↔ iph.fragOff / 16384 % 2 = 1 :=
  BitMask.and_two_pow_ne_zero_iff iph.fragOff 14

theorem isFragOf_and_one (iph : Iphdr) : isFragOf iph &&& 1 ≠ 0 ↔ iph.moreFragments := by
  unfold isFragOf
  by_cases h1 : iph.moreFragments <;> by_cases h2 : iph.offsetUnits = 0 <;> simp [h1, h2]

theorem isFragOf_and_two (iph : Iphdr) : isFragOf iph &&& 2 ≠ 0 ↔ iph.offsetUnits ≠ 0 := by
  unfold isFragOf
  by_cases h1 : iph.moreFragments <;> by_cases h2 : iph.offsetUnits = 0 <;> simp [h1, h2]

theorem piece_bits (skb : Skb) (isFrag start len left : ℕ) {offset : ℕ} (hoffset : offset < 65536) :
    (piece skb isFrag offset start len left).iph.offsetUnits = offset / 8 ∧
      ¬(piece skb isFrag offset start len left).iph.dontFragment ∧
      ((piece skb isFrag offset start len left).iph.moreFragments ↔
        0 < left ∨ isFrag &&& 1 ≠ 0) := by
  have hunits : offset / 8 % 65536 = offset / 8 := Nat.mod_eq_of_lt (by omega)
  rw [offsetUnits_eq, dontFragment_iff, moreFragments_iff]
  simp only [piece, hunits]
  split
  · rename_i h
    rw [or_more (by omega)]
    refine ⟨by omega, by omega, ?_⟩
    omega
  · rename_i h
    refine ⟨by omega, by omega, ?_⟩
    omega

/-! ## `ip_fragment` tiles -/

theorem pieceLen_eq (left mtu : ℕ) :
    pieceLen left mtu = if mtu < left then mtu / 8 * 8 else left := by
  unfold pieceLen
  by_cases h : mtu < left
  · simp [h]
  · simp [h]

theorem pieceLen_le (left mtu : ℕ) : pieceLen left mtu ≤ left := by
  rw [pieceLen_eq]
  split
  · omega
  · exact le_refl left

variable {mtu : ℕ}

theorem pieceLen_pos {left : ℕ} (hmtu : 8 ≤ mtu) (hleft : 0 < left) : 0 < pieceLen left mtu := by
  rw [pieceLen_eq]
  split
  · omega
  · exact hleft

theorem pieceLen_mod {left : ℕ} (h : pieceLen left mtu < left) : pieceLen left mtu % 8 = 0 := by
  rw [pieceLen_eq] at h ⊢
  split at h
  · rename_i hlt
    rw [if_pos hlt]
    omega
  · omega

section
variable {d p : Skb} (hp : TileOf d p) (hfits : d.payload.length < 65536)
include hp hfits

theorem piece_tileOf (hmtu : 8 ≤ mtu) (start : ℕ) (hstart : start < p.payload.length)
    (hunits : start % 8 = 0) (htot : p.iph.totLen < 65536) :
    let len := pieceLen (p.payload.length - start) mtu
    let q := piece p (isFragOf p.iph) (pieceStart p + start) start len
      (p.payload.length - start - len)
    TileOf d q ∧ pieceStart q = pieceStart p + start ∧
      pieceStop q = pieceStart p + start + len := by
  intro len q
  have hlen_le : len ≤ p.payload.length - start := pieceLen_le _ _
  have hlen_pos : 0 < len := pieceLen_pos hmtu (by omega)
  have hstop := hp.stop_le
  unfold pieceStop at hstop
  have htotLen := hp.totLen
  have hdiv : (pieceStart p + start) / 8 * 8 = pieceStart p + start := by
    unfold pieceStart
    omega
  have hoffset : pieceStart p + start < 65536 := by omega
  obtain ⟨hoff, hdf, hmf⟩ := piece_bits p (isFragOf p.iph) start len
    (p.payload.length - start - len) hoffset
  have hqlen : q.payload.length = len := by simp [q, piece]
  have hqstart : pieceStart q = pieceStart p + start := by
    rw [← hdiv, ← hoff]
    rfl
  have hqstop : pieceStop q = pieceStart p + start + len := by
    unfold pieceStop
    rw [hqstart, hqlen]
  refine ⟨?_, hqstart, hqstop⟩
  constructor
  · exact hp.mac
  · have hiph := hp.iph
    simp only [q, piece]
    rw [hiph]
  · exact hdf
  · rw [hqlen]
    simp only [q, piece]
    rw [Nat.mod_eq_of_lt (by omega)]
    rfl
  · rw [hqlen]
    exact hlen_pos
  · omega
  · rw [hqstop, hmf, isFragOf_and_one, hp.more]
    unfold pieceStop
    omega
  · intro i hi
    rw [hqlen] at hi
    have hbyte := hp.bytes (start + i) (by omega)
    rw [hqstart]
    simp only [q, piece]
    rw [getD_eq_getElem?_getD, List.getElem?_map, List.getElem?_range hi]
    simp only [Option.map_some, Option.getD_some, byteAt, Int.toNat_natCast]
    rw [hbyte, Nat.add_assoc]

theorem fragmentLoop_tiling (htot : p.iph.totLen < 65536) (hmtu : 8 ≤ mtu) :
    ∀ fuel start, start ≤ p.payload.length → p.payload.length - start ≤ fuel →
      (start < p.payload.length → start % 8 = 0) →
      Tiling d (pieceStart p + start) (pieceStop p)
        (fragmentLoop p (isFragOf p.iph) mtu fuel (pieceStart p + start) start
          (p.payload.length - start)) := by
  intro fuel
  induction fuel with
  | zero =>
    intro start hstart hfuel _
    unfold fragmentLoop Tiling pieceStop
    omega
  | succ fuel ih =>
    intro start hstart hfuel hunits
    unfold fragmentLoop
    split
    · rename_i hleft
      have htile := piece_tileOf hp hfits hmtu start (by omega) (hunits (by omega)) htot
      set len := pieceLen (p.payload.length - start) mtu with hlen
      obtain ⟨htile, hqstart, hqstop⟩ := htile
      have hlen_le : len ≤ p.payload.length - start := pieceLen_le _ _
      have hlen_pos : 0 < len := pieceLen_pos hmtu hleft
      refine ⟨htile, hqstart, ?_⟩
      rw [hqstop, Nat.add_assoc, show p.payload.length - start - len =
        p.payload.length - (start + len) by omega]
      apply ih (start + len) (by omega) (by omega)
      intro hmore
      have h1 : len % 8 = 0 := pieceLen_mod (by omega)
      omega
    · unfold Tiling pieceStop
      omega

theorem ipFragment_tiling (htot : p.iph.totLen < 65536) {dev : Device} (hroom : Room p dev) :
    Tiling d (pieceStart p) (pieceStop p) (ipFragment p dev (isFragOf p.iph)) := by
  have hleft : p.iph.totLen - p.iph.hlen = p.payload.length := by
    rw [hp.totLen]
    omega
  have hoffset : (if isFragOf p.iph &&& 2 ≠ 0 then p.iph.offsetUnits * 8 else 0) = pieceStart p :=
    by
    unfold pieceStart
    by_cases h : p.iph.offsetUnits = 0
    · simp [h]
    · rw [if_pos ((isFragOf_and_two _).mpr h)]
  unfold ipFragment
  rw [if_neg hp.allowed, hleft, hoffset]
  unfold Room at hroom
  exact fragmentLoop_tiling hp hfits htot (by omega) _ 0 (by omega) (by omega) (by omega)

end

theorem Fragmentable.tileOf {d : Skb} (hd : Fragmentable d) : TileOf d d := by
  have hstart : pieceStart d = 0 := by simp [pieceStart, hd.whole.2]
  have hlen : 0 < d.payload.length := length_pos_iff.mpr hd.nonempty
  constructor
  · rfl
  · rfl
  · exact hd.allowed
  · exact hd.totLen
  · exact hlen
  · simp [pieceStop, hstart]
  · simp [pieceStop, hstart, hd.whole.1]
  · simp [hstart]

theorem TileOf.totLen_lt {d p : Skb} (hp : TileOf d p) (hd : Fragmentable d) :
    p.iph.totLen < 65536 := by
  have h1 := hp.totLen
  have h2 := hp.stop_le
  have h3 := hd.totLen
  have h4 := hd.fits
  have hlen : p.iph.hlen = d.iph.hlen := by
    unfold Iphdr.hlen
    rw [hp.iph]
  unfold pieceStop at h2
  omega

theorem Pieces.tiling {d : Skb} (hd : Fragmentable d) {ps : List Skb} (h : Pieces d ps) :
    Tiling d 0 d.payload.length ps := by
  have hfits : d.payload.length < 65536 := by
    have h1 := hd.totLen
    have h2 := hd.fits
    omega
  induction h with
  | cut dev hroom =>
    have hwhole : isFragOf d.iph = 0 := by simp [isFragOf, hd.whole]
    have htiling := ipFragment_tiling hd.tileOf hfits hd.fits hroom
    rw [hwhole] at htiling
    simpa [pieceStart, pieceStop, hd.whole.2] using htiling
  | again dev hroom _ ih =>
    obtain ⟨middle, hfront, htile, hstart, hback⟩ := ih.split
    rw [← hstart] at hfront
    have htiling := ipFragment_tiling htile hfits (htile.totLen_lt hd) hroom
    exact (hfront.append htiling).append hback

/-! ## The chain of the pieces seen so far -/

def fragOf (p : Skb) : Ipfrag := ipFragCreate (pieceStart p) (pieceStop p) p 0

variable {f : Ipfrag}

/-- The chain after the pieces `seen`: their fragments, and an empty one behind a
piece for each duplicate of it. -/
structure Holding (seen : List Skb) (chain : List Ipfrag) : Prop where
  ok : ChainOk chain
  piece : ∀ p ∈ seen, fragOf p ∈ chain
  frag : ∀ f ∈ chain, ∃ p ∈ seen, f = fragOf p ∨ (f.offset = pieceStop p ∧ f.fend = pieceStop p)

section Chain

variable {d p : Skb} {ps seen : List Skb} {chain : List Ipfrag}

section
variable (h : Holding seen chain) (htiling : Tiling d 0 d.payload.length ps)
  (hseen : ∀ q ∈ seen, q ∈ ps)
include h htiling hseen

theorem Holding.fend_le (hp : p ∈ ps) (hf : f ∈ chain) (hle : f.offset ≤ pieceStart p) :
    f.fend ≤ pieceStop p := by
  have hpos : pieceStart p ≤ pieceStop p := by
    unfold pieceStop
    omega
  obtain ⟨q, hq, heq | hempty⟩ := h.frag f hf
  · rw [heq] at hle ⊢
    simp only [fragOf, ipFragCreate] at hle ⊢
    have hne := (htiling.tileOf hp).nonempty
    rcases htiling.disjoint hp (hseen q hq) with hpq | hpq | hpq
    · rw [hpq]
    · unfold pieceStop at hpq
      omega
    · omega
  · omega

theorem Holding.le_offset (hp : p ∈ ps) (hf : f ∈ chain) (hlt : (pieceStart p : ℤ) < f.offset) :
    (pieceStop p : ℤ) ≤ f.offset := by
  obtain ⟨q, hq, heq | hempty⟩ := h.frag f hf
  · rw [heq] at hlt ⊢
    simp only [fragOf, ipFragCreate] at hlt ⊢
    rcases htiling.disjoint hp (hseen q hq) with hpq | hpq | hpq
    · rw [hpq] at hlt
      omega
    · omega
    · unfold pieceStop at hpq
      omega
  · have hstop : pieceStart q ≤ pieceStop q := by
      unfold pieceStop
      omega
    rcases htiling.disjoint hp (hseen q hq) with hpq | hpq | hpq
    · rw [hpq]
      omega
    · omega
    · omega

theorem Holding.placeable (hp : p ∈ ps) : Placeable chain (pieceStart p) (pieceStop p) := by
  constructor
  · unfold pieceStop
    omega
  · intro prev hprev
    have hmem := mem_of_getLast? hprev
    exact h.fend_le htiling hseen hp ((inFront_sublist _ _).subset hmem)
      (offset_le_of_mem_inFront hmem)
  · intro last hlast hlt hin
    have := h.le_offset htiling hseen hp (mem_of_getLast? hlast) hlt
    omega

theorem Holding.lowOverlap_new (hp : p ∈ ps) (hnew : p ∉ seen) :
    lowOverlap (inFront (pieceStart p) chain).getLast? (pieceStart p) = 0 := by
  unfold lowOverlap
  split
  · rfl
  · rename_i prev hprev
    have hmem := mem_of_getLast? hprev
    have hle := offset_le_of_mem_inFront hmem
    obtain ⟨q, hq, heq | hempty⟩ := h.frag prev ((inFront_sublist _ _).subset hmem)
    · rw [heq] at hle ⊢
      simp only [fragOf, ipFragCreate] at hle ⊢
      have hne := (htiling.tileOf hp).nonempty
      rcases htiling.disjoint hp (hseen q hq) with hpq | hpq | hpq
      · rw [hpq] at hnew
        exact absurd hq hnew
      · unfold pieceStop at hpq
        omega
      · omega
    · omega

theorem Holding.lowOverlap_seen (hp : p ∈ seen) :
    pieceStart p + lowOverlap (inFront (pieceStart p) chain).getLast? (pieceStart p) =
      pieceStop p := by
  have hfits := (h.placeable htiling hseen (hseen p hp)).lowOverlap_le
  have hmem : fragOf p ∈ inFront (pieceStart p : ℤ) chain :=
    mem_inFront_of_le h.ok (h.piece p hp) (le_refl _)
  have hle := fend_le_of_mem_inFront h.ok hmem
  simp only [fragOf, ipFragCreate] at hle
  omega

theorem Holding.insert (hp : p ∈ ps) :
    ∃ chain', insertFragment chain (pieceStart p) (pieceStop p) p allGranted = some chain' ∧
      Holding (seen ++ [p]) chain' := by
  have hplace := h.placeable htiling hseen hp
  obtain ⟨rest, hrest, hinsert⟩ := hplace.insertFragment_eq h.ok p
    (show allGranted.frag = true from rfl)
  refine ⟨_, hinsert, ?_⟩
  have hchain := hplace.chainOk h.ok (Int.natCast_nonneg _) p hrest
  have hkeep : ∀ f ∈ chain, f ∈ inFront (pieceStart p : ℤ) chain ∨ f ∈ rest := by
    intro f hf
    by_cases hle : f.offset ≤ pieceStart p
    · exact .inl (mem_inFront_of_le h.ok hf hle)
    · have hstop := h.le_offset htiling hseen hp hf (not_le.mp hle)
      exact .inr (mem_trimOverlap hrest (mem_behind_of_lt hf (not_le.mp hle)) hstop)
  have hold : ∀ f ∈ chain, f ∈ inFront (pieceStart p : ℤ) chain ++
      ipFragCreate (pieceStart p + lowOverlap (inFront (pieceStart p) chain).getLast? (pieceStart p))
        (pieceStop p) p (lowOverlap (inFront (pieceStart p) chain).getLast? (pieceStart p)) ::
          rest := by
    intro f hf
    rcases hkeep f hf with hmem | hmem
    · exact mem_append_left _ hmem
    · exact mem_append_right _ (mem_cons_of_mem _ hmem)
  refine ⟨hchain, ?_, ?_⟩
  · intro q hq
    by_cases hqseen : q ∈ seen
    · exact hold _ (h.piece q hqseen)
    · have hqp : q = p := by
        rcases mem_append.mp hq with hmem | hmem
        · exact absurd hmem hqseen
        · exact mem_singleton.mp hmem
      rw [hqp] at hqseen ⊢
      rw [h.lowOverlap_new htiling hseen hp hqseen, add_zero]
      exact mem_append_right _ (mem_cons_self ..)
  · intro f hf
    rcases mem_append.mp hf with hmem | hmem
    · obtain ⟨q, hq, hqf⟩ := h.frag f ((inFront_sublist _ _).subset hmem)
      exact ⟨q, mem_append_left _ hq, hqf⟩
    · rcases mem_cons.mp hmem with heq | hmem
      · refine ⟨p, mem_append_right _ (mem_singleton.mpr rfl), ?_⟩
        rw [heq]
        by_cases hpseen : p ∈ seen
        · refine .inr ⟨?_, rfl⟩
          exact h.lowOverlap_seen htiling hseen hpseen
        · rw [h.lowOverlap_new htiling hseen hp hpseen, add_zero]
          exact .inl rfl
      · have hbehind := (trimOverlap_sublist hrest).subset hmem
        obtain ⟨q, hq, hqf⟩ := h.frag f ((behind_sublist _ _).subset hbehind)
        exact ⟨q, mem_append_left _ hq, hqf⟩

omit h htiling hseen in
theorem Holding.covered_piece (h : Holding seen chain) {x : ℤ} (hf : f ∈ chain)
    (hx : f.offset ≤ x ∧ x < f.fend) : ∃ p ∈ seen, f = fragOf p := by
  obtain ⟨p, hp, heq | hempty⟩ := h.frag f hf
  · exact ⟨p, hp, heq⟩
  · omega

theorem Holding.not_connected {missing final : Skb} (hmissing : missing ∈ ps)
    (hnot : missing ∉ seen) (hfinal : final ∈ seen) (hstop : pieceStop final = d.payload.length) :
    connected 0 chain = false := by
  rw [Bool.eq_false_iff]
  intro hconnected
  have hmne := (htiling.tileOf hmissing).nonempty
  have hmstop := (htiling.tileOf hmissing).stop_le
  have hbefore : pieceStop missing ≤ pieceStart final := by
    rcases htiling.disjoint hmissing (hseen final hfinal) with heq | hle | hle
    · rw [heq] at hnot
      exact absurd hfinal hnot
    · exact hle
    · unfold pieceStop at hstop hmstop hle
      omega
  have hlt : (pieceStart missing : ℤ) < (fragOf final).offset := by
    simp only [fragOf, ipFragCreate]
    unfold pieceStop at hbefore
    omega
  obtain ⟨f, hf, hfx⟩ :=
    connected_covered hconnected (h.piece final hfinal) (Int.natCast_nonneg _) hlt
  obtain ⟨q, hq, hfq⟩ := h.covered_piece hf hfx
  rw [hfq] at hfx
  simp only [fragOf, ipFragCreate] at hfx
  rcases htiling.disjoint hmissing (hseen q hq) with heq | hle | hle
  · rw [heq] at hnot
    exact absurd hq hnot
  · unfold pieceStop at hle
    omega
  · omega

omit h htiling hseen in
theorem Holding.covered_of_all (h : Holding seen chain)
    (htiling : Tiling d 0 d.payload.length ps) (hall : ∀ q ∈ ps, q ∈ seen) {x : ℤ} (hx : 0 ≤ x)
    (hlt : x < d.payload.length) :
    ∃ p ∈ ps, fragOf p ∈ chain ∧ (pieceStart p : ℤ) ≤ x ∧ x < pieceStop p := by
  obtain ⟨p, hp, hpx⟩ := htiling.exists_piece (x := x.toNat) (Nat.zero_le _) (by omega)
  exact ⟨p, hp, h.piece p (hall p hp), by omega, by omega⟩

theorem Holding.fend_le_length (hf : f ∈ chain) : f.fend ≤ d.payload.length := by
  obtain ⟨q, hq, heq | hempty⟩ := h.frag f hf
  · have hle := (htiling.tileOf (hseen q hq)).stop_le
    rw [heq]
    simp only [fragOf, ipFragCreate]
    omega
  · have hle := (htiling.tileOf (hseen q hq)).stop_le
    omega

theorem Holding.connected_of_all (hall : ∀ q ∈ ps, q ∈ seen) : connected 0 chain = true := by
  apply connected_of_covered h.ok
  · intro f hf
    exact (h.ok.frag f hf).offset_nonneg
  · intro f hf x hx hlt
    have h1 := h.fend_le_length htiling hseen hf
    have h2 := (h.ok.frag f hf).offset_le
    obtain ⟨p, _, hp, hpx⟩ := h.covered_of_all htiling hall hx (by omega)
    exact ⟨fragOf p, hp, hpx⟩

theorem Holding.lenSum_of_all (hall : ∀ q ∈ ps, q ∈ seen) (hne : d.payload ≠ []) :
    lenSum chain = d.payload.length := by
  have hpos : 0 < d.payload.length := length_pos_iff.mpr hne
  have hle := h.ok.lenSum_le 0 (fun f hf => (h.ok.frag f hf).offset_nonneg)
    (Int.natCast_nonneg _) (fun f hf => h.fend_le_length htiling hseen hf)
  obtain ⟨p, hp, hmem, hpx⟩ := h.covered_of_all htiling hall (x := (d.payload.length : ℤ) - 1)
    (by omega) (by omega)
  have hge := connected_fend_le h.ok (h.connected_of_all htiling hseen hall) hmem
  simp only [fragOf, ipFragCreate] at hge
  omega

end

end Chain

structure Queued (d : Skb) (seen : List Skb) (qp : Ipq) : Prop where
  holding : Holding seen qp.fragments
  mac : qp.mac = d.mac
  iph : qp.iph = { d.iph with fragOff := qp.iph.fragOff, totLen := qp.iph.totLen }
  len_of_final : ∀ p ∈ seen, pieceStop p = d.payload.length → qp.len = d.payload.length
  len_of_open : (∀ p ∈ seen, pieceStop p ≠ d.payload.length) → qp.len = 0

section Queue

variable {d p : Skb} {ps seen : List Skb} {qp : Ipq}

section
variable (h : Queued d seen qp) (htiling : Tiling d 0 d.payload.length ps)
  (hseen : ∀ q ∈ seen, q ∈ ps)
include h htiling hseen

theorem Queued.not_done (hmissing : ∃ q ∈ ps, q ∉ seen) : ipDone qp = false := by
  obtain ⟨missing, hmem, hnot⟩ := hmissing
  unfold ipDone
  by_cases hfinal : ∃ final ∈ seen, pieceStop final = d.payload.length
  · obtain ⟨final, hfinal, hstop⟩ := hfinal
    rw [h.holding.not_connected htiling hseen hmem hnot hfinal hstop]
    split <;> rfl
  · push Not at hfinal
    rw [if_pos (h.len_of_open hfinal)]

omit h htiling hseen in
theorem Queued.len_of_all (h : Queued d seen qp) (htiling : Tiling d 0 d.payload.length ps)
    (hall : ∀ q ∈ ps, q ∈ seen) (hne : d.payload ≠ []) : qp.len = d.payload.length := by
  have hpos : 0 < d.payload.length := length_pos_iff.mpr hne
  obtain ⟨p, hp, hpx⟩ := htiling.exists_piece (x := d.payload.length - 1) (Nat.zero_le _) (by omega)
  have hle := (htiling.tileOf hp).stop_le
  exact h.len_of_final p (hall p hp) (by omega)

theorem Queued.done (hall : ∀ q ∈ ps, q ∈ seen) (hne : d.payload ≠ []) : ipDone qp = true := by
  have hpos : 0 < d.payload.length := length_pos_iff.mpr hne
  have hlen := h.len_of_all htiling hall hne
  unfold ipDone
  rw [if_neg (by omega)]
  exact h.holding.connected_of_all htiling hseen hall

theorem Queued.memory (hall : ∀ q ∈ ps, q ∈ seen) (hne : d.payload ≠ []) :
    (glueBuffer qp).count = d.payload.length ∧ (glueBuffer qp).overSize = false ∧
      ∀ i, i < d.payload.length → (glueBuffer qp).memory i = d.payload.getD i 0 := by
  have hlen := h.len_of_all htiling hall hne
  have hsum := h.holding.lenSum_of_all htiling hseen hall hne
  have hsize : (0 : ℤ) + lenSum qp.fragments ≤ glueLen qp - qp.maclen := by
    simp only [glueLen]
    omega
  have hcopied := copyFragments_copied h.holding.ok (glueLen qp - qp.maclen)
    (c := { count := 0, memory := fun _ => 0, copied := [], overSize := false }) hsize
  refine ⟨?_, hcopied.2.1, ?_⟩
  · have hcount := hcopied.2.2
    rw [hsum, zero_add] at hcount
    exact hcount
  · intro i hi
    obtain ⟨p, hp, hmem, hpx⟩ :=
      h.holding.covered_of_all htiling hall (x := (i : ℤ)) (by omega) (by omega)
    have hbyte := copyFragments_memory h.holding.ok
      (c := { count := 0, memory := fun _ => 0, copied := [], overSize := false }) hsize hmem
      hpx.1 hpx.2
    unfold glueBuffer
    rw [hbyte]
    have hbytes := (htiling.tileOf hp).bytes (i - pieceStart p) (by unfold pieceStop at hpx; omega)
    simp only [fragOf, ipFragCreate, byteAt]
    rw [show (0 + ((i : ℤ) - pieceStart p)).toNat = i - pieceStart p by omega, hbytes]
    congr 1
    omega

omit h htiling hseen in
theorem Queued.glued (h : Queued d seen qp) (hd : Fragmentable d)
    (htiling : Tiling d 0 d.payload.length ps)
    (hseen : ∀ q ∈ seen, q ∈ ps) (hall : ∀ q ∈ ps, q ∈ seen) :
    (gluedSkb qp).mac = d.mac ∧ (gluedSkb qp).payload = d.payload ∧
      (gluedSkb qp).iph = { d.iph with fragOff := 0 } := by
  obtain ⟨hcount, _, hmemory⟩ := h.memory htiling hseen hall hd.nonempty
  have hnat : (glueBuffer qp).count.toNat = d.payload.length := by
    rw [hcount]
    exact Int.toNat_natCast _
  refine ⟨h.mac, ?_, ?_⟩
  · simp only [gluedSkb, hnat]
    apply ext_getElem
    · simp
    · intro i h1 h2
      rw [getElem_map, getElem_range, hmemory i h2]
      simp [getD_eq_getElem?_getD, h2]
  · have hhlen : qp.iph.hlen = d.iph.hlen := by
      unfold Iphdr.hlen
      rw [h.iph]
    have htot := hd.totLen
    have hfits := hd.fits
    simp only [gluedSkb, hnat, hhlen]
    rw [Nat.mod_eq_of_lt (by omega), ← htot, h.iph]

theorem Queued.insert (hp : p ∈ ps) :
    ∃ qp', Queued d (seen ++ [p]) qp' ∧ ∀ ipqueue,
      queueFragment ipqueue qp p allGranted =
        if ipDone qp' then some (ipGlue (storeQueue ipqueue p.iph qp') qp' allGranted)
        else some { ipqueue := storeQueue ipqueue p.iph qp', skb := none, glue := none } := by
  have htile := htiling.tileOf hp
  obtain ⟨chain, hinsert, hholding⟩ := h.holding.insert htiling hseen hp
  have hfend : ((p.iph.offsetUnits * 8 : ℕ) : ℤ) + p.iph.totLen - p.iph.hlen = pieceStop p := by
    rw [htile.totLen]
    unfold pieceStop pieceStart
    push_cast
    ring
  refine ⟨{ qp with
    len := if p.iph.moreFragments then qp.len else (pieceStop p : ℤ)
    fragments := chain }, ?_, ?_⟩
  · have hmore := htile.more
    have hle := htile.stop_le
    refine ⟨hholding, h.mac, h.iph, ?_, ?_⟩
    · intro q hq hstop
      dsimp only
      rcases mem_append.mp hq with hmem | hmem
      · have hlen := h.len_of_final q hmem hstop
        split
        · exact hlen
        · rename_i hlast
          rw [hmore] at hlast
          omega
      · rw [mem_singleton.mp hmem] at hstop
        rw [if_neg (by rw [hmore]; omega), hstop]
    · intro hopen
      have hpopen := hopen p (by simp)
      rw [if_pos (by rw [hmore]; omega)]
      exact h.len_of_open (fun q hq => hopen q (mem_append_left _ hq))
  · intro ipqueue
    unfold queueFragment
    dsimp only
    rw [hfend]
    have hinsert' : insertFragment qp.fragments ((p.iph.offsetUnits * 8 : ℕ) : ℤ) (pieceStop p) p
        allGranted = some chain := hinsert
    rw [hinsert']

end

end Queue

/-! ## Deliveries -/

/-- Hand frames to `ip_defrag` one after the other, with every `kmalloc` granted:
the queues in the end and what the calls return. -/
def deliver : List Ipq → List Skb → Option (List Ipq × List (Option Skb))
  | ipqueue, [] => some (ipqueue, [])
  | ipqueue, p :: ps =>
    match ipDefrag ipqueue p allGranted with
    | none => none
    | some r => (deliver r.ipqueue ps).map fun rest => (rest.1, r.skb :: rest.2)

def QueuesAfter (d : Skb) (others : List Ipq) (seen : List Skb) (ipqueue : List Ipq) : Prop :=
  (seen = [] ∧ ipqueue = others) ∨ (seen ≠ [] ∧ ∃ qp, ipqueue = qp :: others ∧ Queued d seen qp)

section Deliveries

variable {d p : Skb} {ps seen : List Skb} {others ipqueue : List Ipq}

theorem TileOf.sameDatagram (hp : TileOf d p) (qp : Ipq) :
    sameDatagram p.iph qp = sameDatagram d.iph qp := by
  unfold IpFragment.sameDatagram
  rw [hp.iph]

theorem Queued.sameDatagram {qp : Ipq} (h : Queued d seen qp) : sameDatagram d.iph qp = true := by
  unfold IpFragment.sameDatagram
  rw [h.iph]
  simp

theorem Tiling.eq_of_whole (htiling : Tiling d 0 d.payload.length ps) (hp : p ∈ ps)
    (hwhole : ¬p.iph.moreFragments ∧ p.iph.offsetUnits = 0) {q : Skb} (hq : q ∈ ps) : q = p := by
  have htile := htiling.tileOf hp
  have hqtile := htiling.tileOf hq
  have hstart : pieceStart p = 0 := by simp [pieceStart, hwhole.2]
  have hstop : ¬pieceStop p < d.payload.length := fun hlt => hwhole.1 (htile.more.mpr hlt)
  have hqstop := hqtile.stop_le
  have hqne := hqtile.nonempty
  rcases htiling.disjoint hq hp with heq | hle | hle
  · exact heq
  · unfold pieceStop at hle
    omega
  · unfold pieceStop at hqstop hle hstop
    omega

theorem TileOf.of_whole (hp : TileOf d p) (hd : Fragmentable d)
    (hwhole : ¬p.iph.moreFragments ∧ p.iph.offsetUnits = 0) :
    p.payload = d.payload ∧ p.iph = { d.iph with fragOff := p.iph.fragOff } := by
  have hstart : pieceStart p = 0 := by simp [pieceStart, hwhole.2]
  have hstop : ¬pieceStop p < d.payload.length := fun hlt => hwhole.1 (hp.more.mpr hlt)
  have hle := hp.stop_le
  unfold pieceStop at hstop hle
  have hlen : p.payload.length = d.payload.length := by omega
  constructor
  · apply ext_getElem hlen
    intro i h1 h2
    have hbyte := hp.bytes i h1
    rw [hstart, Nat.zero_add] at hbyte
    simpa [getD_eq_getElem?_getD, h1, h2] using hbyte
  · have hhlen : p.iph.hlen = d.iph.hlen := by
      unfold Iphdr.hlen
      rw [hp.iph]
    have htot : p.iph.totLen = d.iph.totLen := by
      rw [hp.totLen, hd.totLen, hlen, hhlen]
    have hiph := hp.iph
    rw [htot] at hiph
    exact hiph

section
variable (h : QueuesAfter d others seen ipqueue) (hothers : ipFind others d.iph = none)
  (htiling : Tiling d 0 d.payload.length ps)
include h hothers htiling

theorem ipDefrag_piece (hp : p ∈ ps) (hfragment : ¬(¬p.iph.moreFragments ∧ p.iph.offsetUnits = 0)) :
    ∃ qp, Queued d seen qp ∧
      ipDefrag ipqueue p allGranted = queueFragment (qp :: others) qp p allGranted := by
  have htile := htiling.tileOf hp
  unfold ipDefrag
  rw [if_neg hfragment]
  rcases h with ⟨hnil, heq⟩ | ⟨_, qp, heq, hqueued⟩
  · have hfind : ipFind ipqueue p.iph = none := by
      rw [heq, ← hothers]
      unfold ipFind
      congr 1
      funext qp
      exact htile.sameDatagram qp
    rw [hfind]
    refine ⟨{ mac := p.mac, iph := p.iph, len := 0, ihlen := p.iph.hlen,
              maclen := p.mac.length, fragments := [] }, ?_, ?_⟩
    · rw [hnil]
      refine ⟨⟨ChainOk.nil, by simp, by simp⟩, htile.mac, htile.iph, by simp, fun _ => rfl⟩
    · rw [heq]
      rfl
  · have hfind : ipFind ipqueue p.iph = some qp := by
      rw [heq]
      unfold ipFind
      rw [List.find?_cons_of_pos]
      rw [htile.sameDatagram]
      exact hqueued.sameDatagram
    rw [hfind]
    refine ⟨qp, hqueued, ?_⟩
    rw [heq]

omit h hothers htiling in
theorem storeQueue_head {qp qp' : Ipq} (htile : TileOf d p) (h : Queued d seen qp) :
    storeQueue (qp :: others) p.iph qp' = qp' :: others := by
  unfold storeQueue
  rw [if_pos]
  rw [htile.sameDatagram]
  exact h.sameDatagram

theorem deliver_missing (hseen : ∀ q ∈ seen, q ∈ ps) (hp : p ∈ ps)
    (hmissing : ∃ q ∈ ps, q ∉ seen ++ [p]) :
    ∃ ipqueue', ipDefrag ipqueue p allGranted =
        some { ipqueue := ipqueue', skb := none, glue := none } ∧
      QueuesAfter d others (seen ++ [p]) ipqueue' := by
  have hfragment : ¬(¬p.iph.moreFragments ∧ p.iph.offsetUnits = 0) := by
    intro hwhole
    obtain ⟨q, hq, hnot⟩ := hmissing
    rw [htiling.eq_of_whole hp hwhole hq] at hnot
    simp at hnot
  obtain ⟨qp, hqueued, heq⟩ := ipDefrag_piece h hothers htiling hp hfragment
  obtain ⟨qp', hqueued', hinsert⟩ := hqueued.insert htiling hseen hp
  have hseen' : ∀ q ∈ seen ++ [p], q ∈ ps := by
    intro q hq
    rcases mem_append.mp hq with hmem | hmem
    · exact hseen q hmem
    · rw [mem_singleton.mp hmem]
      exact hp
  rw [heq, hinsert, hqueued'.not_done htiling hseen' hmissing]
  rw [storeQueue_head (htiling.tileOf hp) hqueued]
  exact ⟨qp' :: others, rfl, .inr ⟨by simp, qp', rfl, hqueued'⟩⟩

end

theorem deliver_last (h : QueuesAfter d others seen ipqueue) (hd : Fragmentable d)
    (hothers : ipFind others d.iph = none) (htiling : Tiling d 0 d.payload.length ps)
    (hseen : ∀ q ∈ seen, q ∈ ps) (hp : p ∈ ps) (hmissing : ∃ q ∈ ps, q ∉ seen)
    (hall : ∀ q ∈ ps, q ∈ seen ++ [p]) :
    ∃ r skb, ipDefrag ipqueue p allGranted = some r ∧ r.ipqueue = others ∧ r.skb = some skb ∧
      skb.mac = d.mac ∧ skb.payload = d.payload ∧
      skb.iph = { d.iph with fragOff := skb.iph.fragOff } := by
  have htile := htiling.tileOf hp
  by_cases hwhole : ¬p.iph.moreFragments ∧ p.iph.offsetUnits = 0
  · have honly : ∀ q ∈ ps, q = p := fun q hq => htiling.eq_of_whole hp hwhole hq
    have hnil : seen = [] := by
      obtain ⟨missing, hmem, hnot⟩ := hmissing
      rw [honly missing hmem] at hnot
      apply eq_nil_iff_forall_not_mem.mpr
      intro q hq
      rw [honly q (hseen q hq)] at hq
      exact hnot hq
    have heq : ipqueue = others := by
      rcases h with ⟨_, heq⟩ | ⟨hne, _⟩
      · exact heq
      · exact absurd hnil hne
    obtain ⟨hpayload, hiph⟩ := htile.of_whole hd hwhole
    refine ⟨_, p, by rw [ipDefrag, if_pos hwhole], ?_, rfl, htile.mac, hpayload, hiph⟩
    rw [heq]
    apply eraseP_of_forall_not
    intro qp hqp hsame
    rw [htile.sameDatagram] at hsame
    exact absurd hsame (List.find?_eq_none.mp hothers qp hqp)
  · obtain ⟨qp, hqueued, heq⟩ := ipDefrag_piece h hothers htiling hp hwhole
    obtain ⟨qp', hqueued', hinsert⟩ := hqueued.insert htiling hseen hp
    have hseen' : ∀ q ∈ seen ++ [p], q ∈ ps := by
      intro q hq
      rcases mem_append.mp hq with hmem | hmem
      · exact hseen q hmem
      · rw [mem_singleton.mp hmem]
        exact hp
    have hsize := (hqueued'.memory htiling hseen' hall hd.nonempty).2.1
    obtain ⟨hmac, hpayload, hiph⟩ := hqueued'.glued hd htiling hseen' hall
    rw [heq, hinsert, hqueued'.done htiling hseen' hall hd.nonempty]
    rw [storeQueue_head htile hqueued]
    refine ⟨_, gluedSkb qp', rfl, ?_, ?_, hmac, hpayload, ?_⟩
    · apply eraseP_cons_of_pos
      simp [sameDatagram]
    · simp [ipGlue, allGranted, hsize]
    · rw [hiph]

theorem deliver_rest (hd : Fragmentable d) (hothers : ipFind others d.iph = none)
    (htiling : Tiling d 0 d.payload.length ps) {last : Skb} (hlast : last ∈ ps) (rest : List Skb) :
    ∀ {seen : List Skb} {ipqueue : List Ipq}, QueuesAfter d others seen ipqueue →
      (∀ q ∈ seen ++ rest, q ∈ ps) → (∃ q ∈ ps, q ∉ seen ++ rest) →
      (∀ q ∈ ps, q ∈ seen ++ rest ++ [last]) →
      ∃ skb, deliver ipqueue (rest ++ [last]) =
          some (others, List.replicate rest.length none ++ [some skb]) ∧
        skb.mac = d.mac ∧ skb.payload = d.payload ∧
        skb.iph = { d.iph with fragOff := skb.iph.fragOff } := by
  induction rest with
  | nil =>
    intro seen ipqueue h hseen hmissing hall
    rw [append_nil] at hseen hmissing hall
    obtain ⟨r, skb, hdefrag, hqueue, hskb, hsame⟩ :=
      deliver_last h hd hothers htiling hseen hlast hmissing hall
    refine ⟨skb, ?_, hsame⟩
    simp [deliver, hdefrag, hqueue, hskb]
  | cons p rest ih =>
    intro seen ipqueue h hseen hmissing hall
    rw [append_cons seen p rest] at hseen hmissing hall
    have hp : p ∈ ps := hseen p (by simp)
    obtain ⟨missing, hmem, hnot⟩ := hmissing
    obtain ⟨ipqueue', hdefrag, hafter⟩ := deliver_missing h hothers htiling
      (fun q hq => hseen q (by simp [hq])) hp
      ⟨missing, hmem, fun hin => hnot (mem_append_left _ hin)⟩
    obtain ⟨skb, hrest, hsame⟩ := ih hafter hseen ⟨missing, hmem, hnot⟩ hall
    refine ⟨skb, ?_, hsame⟩
    simp [deliver, hdefrag, hrest, replicate_succ]

end Deliveries

/-- The pieces of a datagram, in any order and with any duplicates before the
last missing one, give the datagram back with that piece and nothing before. -/
theorem deliver_pieces {d : Skb} (hd : Fragmentable d) {ps : List Skb} (hps : Pieces d ps)
    {others : List Ipq} (hothers : ipFind others d.iph = none) (before : List Skb) (last : Skb)
    (hbefore : ∀ p ∈ before, p ∈ ps) (hlast : last ∈ ps) (hmissing : ∃ p ∈ ps, p ∉ before)
    (hall : ∀ p ∈ ps, p ∈ before ++ [last]) :
    ∃ skb, deliver others (before ++ [last]) =
        some (others, List.replicate before.length none ++ [some skb]) ∧
      skb.mac = d.mac ∧ skb.payload = d.payload ∧
      skb.iph = { d.iph with fragOff := skb.iph.fragOff } :=
  deliver_rest hd hothers (hps.tiling hd) hlast before (.inl ⟨rfl, rfl⟩) hbefore hmissing hall

def twentyBytes (fragOff : ℕ) : Skb :=
  { mac := []
    iph :=
      { ihl := 5
        totLen := 40
        id := 7
        fragOff := fragOff
        protocol := 17
        saddr := 2
        daddr := 1
        options := [] }
    payload := (List.range 20).map fun i : ℕ => UInt8.ofNat i }

def narrowDevice : Device := { hardHeaderLen := 0, mtu := 30 }

/-- Bytes 8 to 16, twice bytes 16 to 20, then bytes 0 to 8. -/
theorem deliver_pieces_twentyBytes :
    ∃ skb, deliver [] [piece (twentyBytes 0) 0 8 8 8 4, piece (twentyBytes 0) 0 16 16 4 0,
        piece (twentyBytes 0) 0 16 16 4 0, piece (twentyBytes 0) 0 0 0 8 12] =
        some ([], [none, none, none, some skb]) ∧
      skb.mac = [] ∧ skb.payload = (twentyBytes 0).payload ∧
      skb.iph = { (twentyBytes 0).iph with fragOff := skb.iph.fragOff } :=
  deliver_pieces (d := twentyBytes 0)
    ⟨by decide, by decide, by decide, by decide, by decide⟩
    (Pieces.cut narrowDevice (by unfold Room; decide)) (by decide)
    [piece (twentyBytes 0) 0 8 8 8 4, piece (twentyBytes 0) 0 16 16 4 0,
      piece (twentyBytes 0) 0 16 16 4 0]
    (piece (twentyBytes 0) 0 0 0 8 12) (by decide) (by decide) (by decide) (by decide)

/-- A datagram that must not be fragmented is never delivered. -/
theorem dontFragment_never_delivered :
    Room (twentyBytes 0x4000) narrowDevice ∧
      ∀ before ipqueue out, (∀ p ∈ before, p ∈ ipFragment (twentyBytes 0x4000) narrowDevice 0) →
        deliver [] before = some (ipqueue, out) → ∀ skb, some skb ∉ out := by
  refine ⟨by unfold Room; decide, ?_⟩
  intro before ipqueue out hbefore hdeliver skb
  have hnone : ipFragment (twentyBytes 0x4000) narrowDevice 0 = [] := by decide
  have hnil : before = [] := by
    apply eq_nil_iff_forall_not_mem.mpr
    intro p hp
    have hmem := hbefore p hp
    rw [hnone] at hmem
    simp at hmem
  rw [hnil] at hdeliver
  simp only [deliver, Option.some.injEq, Prod.mk.injEq] at hdeliver
  rw [← hdeliver.2]
  simp

end LinuxKernel.IpFragment
