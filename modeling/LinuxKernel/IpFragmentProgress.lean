import LinuxKernel.IpFragmentInverse

/-!
# The fragmentation loop makes progress

`ip_fragment` of `net/inet/ip.c` with the integers that it computes with: the room behind
the headers may be negative, as `SIOCSIFMTU` takes every number.  A turn that would copy a
negative length, which `memcpy` takes for almost all of the memory, has no result.
-/

namespace LinuxKernel.IpFragment

def Skb.len (skb : Skb) : ℕ := skb.mac.length + skb.iph.hlen + skb.payload.length

def turnLen (left mtu : ℤ) : ℤ :=
  let len := if mtu < left then mtu else left
  if len < left then len.tdiv 8 * 8 else len

/-- A frame given to `ip_queue_xmit`, with its offset in the datagram and what is left
to send after it. -/
structure Sent where
  frame : Skb
  offset : ℕ
  rest : ℤ

/-- The loop of `ip_fragment`; `grants` answers the calls of `alloc_skb`. -/
def fragmentTurns (skb : Skb) (isFrag : ℕ) (mtu : ℤ) :
    ℕ → (ℕ → Bool) → ℕ → ℕ → ℤ → Option (List Sent)
  | 0, _, _, _, _ => none
  | fuel + 1, grants, offset, start, left =>
    if 0 < left then
      let len := turnLen left mtu
      if grants 0 then
        if len < 0 then none
        else
          (fragmentTurns skb isFrag mtu fuel (fun i => grants (i + 1)) (offset + len.toNat)
            (start + len.toNat) (left - len)).map
            ({ frame := piece skb isFrag offset start len.toNat (left - len).toNat
               offset := offset
               rest := left - len } :: ·)
      else some []
    else some []

def payloadLeft (skb : Skb) : ℤ := (skb.iph.totLen : ℤ) - skb.iph.hlen

def payloadRoom (skb : Skb) (dev : Device) : ℤ := (dev.mtu : ℤ) - (skb.iph.hlen + dev.hardHeaderLen)

def firstOffset (skb : Skb) (isFrag : ℕ) : ℕ :=
  if isFrag &&& 2 ≠ 0 then skb.iph.offsetUnits * 8 else 0

def fragmentRun (skb : Skb) (dev : Device) (isFrag : ℕ) (grants : ℕ → Bool) (fuel : ℕ) :
    Option (List Sent) :=
  if skb.iph.dontFragment then some []
  else
    fragmentTurns skb isFrag (payloadRoom skb dev) fuel grants (firstOffset skb isFrag) 0
      (payloadLeft skb)

structure Sent.Ok (t : Sent) (dev : Device) : Prop where
  progress : 0 < t.rest → 0 < t.frame.payload.length ∧ t.frame.payload.length % 8 = 0
  fits : t.frame.len ≤ dev.mtu
  field : t.offset / 8 < 8192

/-- However `alloc_skb` answers, the loop ends and its fragments are as they should be. -/
def Progresses (skb : Skb) (dev : Device) (isFrag : ℕ) : Prop :=
  ∀ grants, ∃ fuel sent, fragmentRun skb dev isFrag grants fuel = some sent ∧ ∀ t ∈ sent, t.Ok dev

/-- Where the last piece starts, when `left` bytes go out in pieces of a multiple of eight
bytes and a last one of at most `room`. -/
def lastStart (left room : ℕ) : ℕ :=
  (left - room + (room / 8 * 8 - 1)) / (room / 8 * 8) * (room / 8 * 8)

variable {room : ℕ}

theorem lastStart_of_le {left : ℕ} (hroom : 8 ≤ room) (h : left ≤ room) :
    lastStart left room = 0 := by
  unfold lastStart
  have hlt : left - room + (room / 8 * 8 - 1) < room / 8 * 8 := by omega
  rw [Nat.div_eq_of_lt hlt, Nat.zero_mul]

theorem lastStart_of_lt {left : ℕ} (hroom : 8 ≤ room) (h : room < left) :
    lastStart left room = room / 8 * 8 + lastStart (left - room / 8 * 8) room := by
  unfold lastStart
  have hpos : 0 < room / 8 * 8 := by omega
  by_cases hlast : left - room / 8 * 8 ≤ room
  · have hone : left - room + (room / 8 * 8 - 1) = (left - room - 1) + room / 8 * 8 := by omega
    have hzero : left - room / 8 * 8 - room = 0 := by omega
    rw [hone, Nat.add_div_right _ hpos, hzero, Nat.div_eq_of_lt (a := left - room - 1) (by omega),
      Nat.div_eq_of_lt (a := 0 + _) (by omega)]
    omega
  · have hsplit : left - room + (room / 8 * 8 - 1) =
        left - room / 8 * 8 - room + (room / 8 * 8 - 1) + room / 8 * 8 := by omega
    rw [hsplit, Nat.add_div_right _ hpos, Nat.succ_mul, Nat.add_comm]

theorem piece_len (skb : Skb) (isFrag offset start len left : ℕ) :
    (piece skb isFrag offset start len left).len = skb.mac.length + skb.iph.hlen + len := by
  simp [piece, Skb.len, Iphdr.hlen]

variable {left mtu : ℤ}

theorem turnLen_of_le (h : left ≤ mtu) : turnLen left mtu = left := by
  unfold turnLen
  rw [if_neg (not_lt.mpr h)]
  simp

theorem turnLen_of_lt (h : mtu < left) : turnLen left mtu = mtu.tdiv 8 * 8 := by
  unfold turnLen
  simp [h]

theorem turnLen_room (h : (room : ℤ) < left) : turnLen left room = (room / 8 * 8 : ℕ) := by
  rw [turnLen_of_lt h, Int.tdiv_eq_ediv_of_nonneg (by omega)]
  omega

variable {skb : Skb} {isFrag : ℕ}

theorem fragmentTurns_whole {dev : Device} {offset : ℕ}
    (hleft : 0 < left) (h : left ≤ mtu) (hmtu : skb.mac.length + skb.iph.hlen + mtu ≤ dev.mtu)
    (hoffset : offset / 8 < 8192) (grants : ℕ → Bool) (start : ℕ) :
    ∃ fuel sent, fragmentTurns skb isFrag mtu fuel grants offset start left = some sent ∧
      ∀ t ∈ sent, t.Ok dev := by
  cases hgrant : grants 0 with
  | false => exact ⟨1, [], by simp [fragmentTurns, hgrant], by simp⟩
  | true =>
    refine ⟨2, [⟨piece skb isFrag offset start left.toNat 0, offset, 0⟩], ?_, ?_⟩
    · rw [fragmentTurns, if_pos hleft]
      simp only [turnLen_of_le h, hgrant, if_true]
      rw [if_neg (not_lt.mpr hleft.le), sub_self, fragmentTurns, if_neg (lt_irrefl _)]
      rfl
    · intro t ht
      rw [List.mem_singleton] at ht
      subst ht
      refine ⟨fun hrest => absurd hrest (lt_irrefl _), ?_, hoffset⟩
      rw [piece_len]
      omega

theorem fragmentTurns_ok {dev : Device} (hroom : 8 ≤ room)
    (hfits : skb.mac.length + skb.iph.hlen + room ≤ dev.mtu) (left : ℕ) (grants : ℕ → Bool)
    (offset start : ℕ) (hlast : offset + lastStart left room < 65536) :
    ∃ fuel sent, fragmentTurns skb isFrag room fuel grants offset start left = some sent ∧
      ∀ t ∈ sent, t.Ok dev := by
  induction left using Nat.strong_induction_on generalizing grants offset start with
  | _ left ih =>
    by_cases hleft : left = 0
    · subst hleft
      exact ⟨1, [], by simp [fragmentTurns], by simp⟩
    have hpos : (0 : ℤ) < left := by omega
    by_cases hfinal : left ≤ room
    · exact fragmentTurns_whole hpos (by omega) (by omega) (by omega) grants start
    -- a piece of a multiple of eight bytes, and less is left
    have hlen : turnLen left room = (room / 8 * 8 : ℕ) := turnLen_room (by omega)
    have hstart := lastStart_of_lt hroom (not_le.mp hfinal)
    cases hgrant : grants 0 with
    | false => exact ⟨1, [], by simp [fragmentTurns, hgrant], by simp⟩
    | true =>
      obtain ⟨fuel, sent, hrun, hsent⟩ :=
        ih (left - room / 8 * 8) (by omega) (fun i => grants (i + 1))
          (offset + room / 8 * 8) (start + room / 8 * 8) (by omega)
      have hrest : (left : ℤ) - (room / 8 * 8 : ℕ) = (left - room / 8 * 8 : ℕ) := by omega
      refine ⟨fuel + 1,
        ⟨piece skb isFrag offset start (room / 8 * 8) (left - room / 8 * 8), offset,
          (left - room / 8 * 8 : ℕ)⟩ :: sent, ?_, ?_⟩
      · rw [fragmentTurns, if_pos hpos]
        simp only [hlen, hgrant, if_true]
        rw [if_neg (by omega), hrest, Int.toNat_natCast, Int.toNat_natCast, hrun]
        rfl
      · intro t ht
        rcases List.mem_cons.mp ht with rfl | ht
        · refine ⟨fun _ => ?_, ?_, ?_⟩
          · simp only [piece, List.length_map, List.length_range]
            omega
          · rw [piece_len]
            omega
          · change offset / 8 < 8192
            omega
        · exact hsent t ht

theorem fragmentTurns_last (hroom : 8 ≤ room) {fuel left : ℕ}
    {offset start : ℕ} {sent : List Sent} (hleft : 0 < left)
    (h : fragmentTurns skb isFrag room fuel (fun _ => true) offset start left = some sent) :
    ∃ t ∈ sent, t.offset = offset + lastStart left room := by
  induction fuel generalizing left offset start sent with
  | zero => simp [fragmentTurns] at h
  | succ fuel ih =>
    have hpos : (0 : ℤ) < left := by omega
    rw [fragmentTurns, if_pos hpos] at h
    simp only [if_true] at h
    by_cases hfinal : left ≤ room
    · have hlen : turnLen left room = left := turnLen_of_le (by omega)
      rw [hlen, if_neg (by omega)] at h
      obtain ⟨rest, -, rfl⟩ := Option.map_eq_some_iff.mp h
      exact ⟨_, List.mem_cons_self, by rw [lastStart_of_le hroom hfinal]; rfl⟩
    · have hlen : turnLen left room = (room / 8 * 8 : ℕ) := turnLen_room (by omega)
      have hrest : (left : ℤ) - (room / 8 * 8 : ℕ) = (left - room / 8 * 8 : ℕ) := by omega
      rw [hlen, if_neg (by omega), hrest, Int.toNat_natCast, Int.toNat_natCast] at h
      obtain ⟨rest, hrun, rfl⟩ := Option.map_eq_some_iff.mp h
      obtain ⟨t, ht, hoffset⟩ := ih (by omega) hrun
      refine ⟨t, List.mem_cons_of_mem _ ht, ?_⟩
      rw [hoffset, lastStart_of_lt hroom (not_le.mp hfinal)]
      omega

theorem turnLen_nonpos (hmtu : mtu < 8) (h : mtu < left) : turnLen left mtu ≤ 0 := by
  rw [turnLen_of_lt h]
  rcases le_or_gt 0 mtu with hpos | hneg
  · rw [Int.tdiv_eq_ediv_of_nonneg hpos]
    omega
  · have hdiv : mtu.tdiv 8 = -(-mtu / 8) := by
      rw [← Int.tdiv_eq_ediv_of_nonneg (by omega), Int.neg_tdiv, neg_neg]
    omega

theorem fragmentTurns_stuck (hmtu : mtu < 8)
    (h : mtu < left) (hleft : 0 < left) (fuel offset start : ℕ) :
    fragmentTurns skb isFrag mtu fuel (fun _ => true) offset start left = none := by
  have hlen := turnLen_nonpos hmtu h
  induction fuel generalizing offset start with
  | zero => rfl
  | succ fuel ih =>
    rw [fragmentTurns, if_pos hleft]
    simp only [if_true]
    by_cases hneg : turnLen left mtu < 0
    · rw [if_pos hneg]
    · have hzero : turnLen left mtu = 0 := by omega
      rw [if_neg hneg, hzero, sub_zero, ih]
      rfl

/-- The datagram may not be cut, has nothing behind its header, fits, or has room for
eight bytes in a frame and no piece that starts beyond the offset field. -/
def Cuttable (skb : Skb) (dev : Device) (isFrag : ℕ) : Prop :=
  skb.iph.dontFragment ∨ payloadLeft skb ≤ 0 ∨ payloadLeft skb ≤ payloadRoom skb dev ∨
    8 ≤ payloadRoom skb dev ∧
      firstOffset skb isFrag + lastStart (payloadLeft skb).toNat (payloadRoom skb dev).toNat < 65536

theorem firstOffset_lt (skb : Skb) (isFrag : ℕ) : firstOffset skb isFrag / 8 < 8192 := by
  unfold firstOffset
  split
  · rw [offsetUnits_eq]
    omega
  · decide

theorem fragment_progresses_iff (skb : Skb) (dev : Device) (isFrag : ℕ)
    (hmac : skb.mac.length = dev.hardHeaderLen) :
    Progresses skb dev isFrag ↔ Cuttable skb dev isFrag := by
  unfold Progresses Cuttable fragmentRun
  by_cases hdf : skb.iph.dontFragment
  · simp [hdf]
  simp only [hdf, if_false, false_or]
  have hoffset := firstOffset_lt skb isFrag
  by_cases hleft : payloadLeft skb ≤ 0
  · have hend : ∀ grants, fragmentTurns skb isFrag (payloadRoom skb dev) 1 grants
        (firstOffset skb isFrag) 0 (payloadLeft skb) = some [] := by
      intro grants
      rw [fragmentTurns, if_neg (not_lt.mpr hleft)]
    exact ⟨fun _ => .inl hleft, fun _ grants => ⟨1, [], hend grants, by simp⟩⟩
  by_cases hfits : payloadLeft skb ≤ payloadRoom skb dev
  · refine ⟨fun _ => .inr (.inl hfits), fun _ grants => ?_⟩
    exact fragmentTurns_whole (not_le.mp hleft) hfits (by unfold payloadRoom; omega) hoffset
      grants 0
  by_cases hroom : payloadRoom skb dev < 8
  · -- with less room every turn is like the first one
    have hnever : ¬(payloadLeft skb ≤ 0 ∨ payloadLeft skb ≤ payloadRoom skb dev ∨
        8 ≤ payloadRoom skb dev ∧ firstOffset skb isFrag +
          lastStart (payloadLeft skb).toNat (payloadRoom skb dev).toNat < 65536) := by omega
    refine ⟨fun h => ?_, fun h => absurd h hnever⟩
    obtain ⟨fuel, sent, hrun, -⟩ := h fun _ => true
    rw [fragmentTurns_stuck hroom (not_le.mp hfits) (not_le.mp hleft)] at hrun
    cases hrun
  obtain ⟨left, hleft'⟩ := Int.eq_ofNat_of_zero_le (not_le.mp hleft).le
  obtain ⟨room, hroom'⟩ := Int.eq_ofNat_of_zero_le (a := payloadRoom skb dev) (by omega)
  have hmtu : skb.mac.length + skb.iph.hlen + room ≤ dev.mtu := by
    unfold payloadRoom at hroom'
    omega
  rw [hleft'] at hleft hfits ⊢
  rw [hroom'] at hfits hroom ⊢
  rw [Int.toNat_natCast, Int.toNat_natCast]
  have hroom8 : 8 ≤ room := by omega
  constructor
  · intro h
    obtain ⟨fuel, sent, hrun, hsent⟩ := h fun _ => true
    obtain ⟨t, ht, hoffset'⟩ := fragmentTurns_last hroom8 (by omega) hrun
    have hfield := (hsent t ht).field
    refine .inr (.inr ⟨by omega, ?_⟩)
    omega
  · rintro (h | h | ⟨-, h⟩)
    · exact absurd h hleft
    · exact absurd h hfits
    · exact fun grants => fragmentTurns_ok hroom8 hmtu left grants _ 0 h

/-- A datagram of twenty bytes for a device with room for ten. -/
theorem fragment_progresses_twentyBytes : Progresses (twentyBytes 0) narrowDevice 0 :=
  (fragment_progresses_iff (twentyBytes 0) narrowDevice 0 rfl).mpr (by
    right
    decide)

/-- With an mtu of 26 there is room for six bytes behind the header, and the loop sends
empty fragments for ever. -/
theorem fragment_never_ends : ¬∀ (skb : Skb) (dev : Device) (isFrag : ℕ),
    skb.mac.length = dev.hardHeaderLen → Progresses skb dev isFrag := by
  intro h
  obtain ⟨fuel, sent, hrun, -⟩ := h (twentyBytes 0) { hardHeaderLen := 0, mtu := 26 } 0 rfl
    fun _ => true
  unfold fragmentRun at hrun
  rw [if_neg (by decide), fragmentTurns_stuck (by decide) (by decide) (by decide)] at hrun
  cases hrun

end LinuxKernel.IpFragment
