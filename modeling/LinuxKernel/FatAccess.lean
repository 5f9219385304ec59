import LinuxKernel.FatAccessModel

/-!
# FAT entries are independent cells

Writing an entry changes no other entry, although narrow entries share bytes.  The changed
sectors are copied to all the other FATs, but the second sector of an entry that lies in two
is not marked dirty there.
-/

namespace LinuxKernel.Fat
open Function

/-- The FATs have room for the entries of all clusters, as the mount checks. -/
structure Layout.Wf (l : Layout) : Prop where
  fats : 0 < l.fats
  room : l.clusters + 2 ≤ l.fatLength * sectorSize * 8 / (if l.wide then 16 else 12)

variable {d' : Disk}

variable {s : ℕ}

variable {c : ℕ}

variable {t : ℕ}

variable {v : BitVec 32}

variable {n : ℕ}

def Layout.Accepts (l : Layout) (nr : ℕ) : Prop := 2 ≤ nr ∧ nr - 2 < l.clusters

section

variable {l : Layout} {d : Disk} {nr pos : ℕ}

theorem Layout.Wf.first_lt (h : l.Wf) (hnr : l.Accepts nr) :
    l.first nr + 1 < l.fatLength * sectorSize := by
  have hroom := h.room
  obtain ⟨h2, hlt⟩ := hnr
  unfold Layout.first
  cases hw : l.wide with
  | true =>
    rw [hw] at hroom
    simp only [if_true] at hroom ⊢
    omega
  | false =>
    rw [hw] at hroom
    simp only [Bool.false_eq_true, if_false] at hroom ⊢
    omega

theorem Layout.byte_store (b : BitVec 8) (q : ℕ) :
    l.byte (d.store (l.sector pos) (pos % sectorSize) b) q = if q = pos then b else l.byte d q := by
  unfold Layout.byte Disk.store Layout.sector
  dsimp only
  by_cases hsector : q / sectorSize = pos / sectorSize
  · rw [hsector, update_self]
    by_cases hoff : q % sectorSize = pos % sectorSize
    · have heq : q = pos := by
        rw [← Nat.div_add_mod q sectorSize, ← Nat.div_add_mod pos sectorSize, hsector, hoff]
      rw [hoff, update_self, if_pos heq]
    · have hne : q ≠ pos := fun h => hoff (by rw [h])
      rw [update_of_ne hoff, if_neg hne]
  · have hne : q ≠ pos := fun h => hsector (by rw [h])
    rw [update_of_ne (by omega), if_neg hne]

def Layout.low (l : Layout) (d : Disk) (nr : ℕ) (v : BitVec 32) : BitVec 8 :=
  if l.wide then v.setWidth 8
  else if nr % 2 = 1 then l.byte d (l.first nr) &&& 0xf ||| (v <<< 4).setWidth 8
  else (v &&& 0xff).setWidth 8

def Layout.high (l : Layout) (d : Disk) (nr : ℕ) (v : BitVec 32) : BitVec 8 :=
  if l.wide then (v >>> 8).setWidth 8
  else if nr % 2 = 1 then (v >>> 4).setWidth 8
  else l.byte d (l.first nr + 1) &&& 0xf0 ||| (v >>> 8).setWidth 8

theorem Layout.byte_put (v : BitVec 32) (q : ℕ) :
    l.byte (l.put d nr v) q = if q = l.first nr + 1 then l.high d nr v
      else if q = l.first nr then l.low d nr v else l.byte d q := by
  unfold Layout.put
  rw [Layout.byte_store, Layout.byte_store]
  rfl

theorem eq_of_bits {x y : BitVec 32} (hx : ∀ i, n ≤ i → x.getLsbD i = false)
    (hy : ∀ i, n ≤ i → y.getLsbD i = false) (h : ∀ i < n, x.getLsbD i = y.getLsbD i) : x = y := by
  apply BitVec.eq_of_getLsbD_eq
  intro i _
  rcases Nat.lt_or_ge i n with hlt | hge
  · exact h i hlt
  · rw [hx i hge, hy i hge]

theorem getLsbD_of_lt_two_pow (hv : v.toNat < 2 ^ n) {i : ℕ}
    (hi : n ≤ i) : v.getLsbD i = false := by
  exact Nat.testBit_lt_two_pow (hv.trans_le (Nat.pow_le_pow_right (by decide) hi))

theorem wideValue_eq (hv : v.toNat < 2 ^ 16) :
    wideValue (v.setWidth 8) ((v >>> 8).setWidth 8) = v := by
  refine eq_of_bits (n := 16) ?_ (fun i hi => getLsbD_of_lt_two_pow hv hi) ?_
  · intro i hi
    simp [wideValue]
    omega
  · intro i hi
    interval_cases i <;> simp [wideValue]

theorem add_bytes (a b : BitVec 8) :
    a.setWidth 32 + b.setWidth 32 <<< 8 = (a.setWidth 32 ||| b.setWidth 32 <<< 8 : BitVec 32) := by
  apply BitVec.add_eq_or_of_and_eq_zero
  apply BitVec.eq_of_getLsbD_eq
  intro i hi
  interval_cases i <;> simp

theorem narrowValue_high (odd : Bool) (a b : BitVec 8) {i : ℕ} (hi : 12 ≤ i) :
    (narrowValue odd a b).getLsbD i = false := by
  have hmask : (0xfff : BitVec 32).getLsbD i = false :=
    getLsbD_of_lt_two_pow (n := 12) (by decide) hi
  unfold narrowValue
  split <;> rw [BitVec.getLsbD_and, hmask, Bool.and_false]

theorem narrowValue_odd_eq (b : BitVec 8) (hv : v.toNat < 2 ^ 12) :
    narrowValue true (b &&& 0xf ||| (v <<< 4).setWidth 8) ((v >>> 4).setWidth 8) = v := by
  refine eq_of_bits (n := 12) (fun i hi => narrowValue_high _ _ _ hi)
    (fun i hi => getLsbD_of_lt_two_pow hv hi) ?_
  intro i hi
  interval_cases i <;> simp [narrowValue]

theorem narrowValue_even_eq (b : BitVec 8) (hv : v.toNat < 2 ^ 12) :
    narrowValue false ((v &&& 0xff).setWidth 8) (b &&& 0xf0 ||| (v >>> 8).setWidth 8) = v := by
  refine eq_of_bits (n := 12) (fun i hi => narrowValue_high _ _ _ hi)
    (fun i hi => getLsbD_of_lt_two_pow hv hi) ?_
  intro i hi
  unfold narrowValue
  rw [if_neg Bool.false_ne_true, add_bytes]
  interval_cases i <;> simp

theorem narrowValue_odd_congr (b c : BitVec 8) (hv : v.toNat < 2 ^ 12) :
    narrowValue true (b &&& 0xf0 ||| (v >>> 8).setWidth 8) c = narrowValue true b c := by
  refine eq_of_bits (n := 12) (fun i hi => narrowValue_high _ _ _ hi)
    (fun i hi => narrowValue_high _ _ _ hi) ?_
  intro i hi
  have hzero : ∀ (j : ℕ) (hj : j < 32), 12 ≤ j → v[j] = false := by
    intro j hj hle
    exact getLsbD_of_lt_two_pow hv hle
  have h12 := hzero 12 (by decide) (by decide)
  have h13 := hzero 13 (by decide) (by decide)
  have h14 := hzero 14 (by decide) (by decide)
  have h15 := hzero 15 (by decide) (by decide)
  interval_cases i <;> simp [narrowValue, h12, h13, h14, h15]

theorem narrowValue_even_congr (b c : BitVec 8) (v : BitVec 32) :
    narrowValue false b (c &&& 0xf ||| (v <<< 4).setWidth 8) = narrowValue false b c := by
  refine eq_of_bits (n := 12) (fun i hi => narrowValue_high _ _ _ hi)
    (fun i hi => narrowValue_high _ _ _ hi) ?_
  intro i hi
  unfold narrowValue
  rw [if_neg Bool.false_ne_true, if_neg Bool.false_ne_true, add_bytes, add_bytes]
  interval_cases i <;> simp

def Layout.Fits (l : Layout) (v : BitVec 32) : Prop := v.toNat < 2 ^ if l.wide then 16 else 12

instance (v : BitVec 32) : Decidable (l.Fits v) := inferInstanceAs (Decidable (_ < _))

theorem Layout.entry_put_self (hv : l.Fits v) : l.entry (l.put d nr v) nr = v := by
  have hlow : l.byte (l.put d nr v) (l.first nr) = l.low d nr v := by
    rw [Layout.byte_put, if_neg (Nat.succ_ne_self _).symm, if_pos rfl]
  have hhigh : l.byte (l.put d nr v) (l.first nr + 1) = l.high d nr v := by
    rw [Layout.byte_put, if_pos rfl]
  unfold Layout.Fits at hv
  unfold Layout.entry
  rw [hlow, hhigh]
  unfold Layout.low Layout.high
  cases hw : l.wide with
  | true =>
    rw [hw] at hv
    exact wideValue_eq hv
  | false =>
    rw [hw] at hv
    by_cases hodd : nr % 2 = 1
    · simpa [hodd] using narrowValue_odd_eq _ hv
    · simpa [hodd] using narrowValue_even_eq _ hv

theorem Layout.entry_put_of_ne (hv : l.Fits v) {nr' : ℕ} (hne : nr' ≠ nr) :
    l.entry (l.put d nr v) nr' = l.entry d nr' := by
  unfold Layout.Fits at hv
  unfold Layout.entry
  rw [Layout.byte_put, Layout.byte_put]
  unfold Layout.first
  cases hw : l.wide with
  | true =>
    simp only [if_true]
    rw [if_neg (by omega), if_neg (by omega), if_neg (by omega), if_neg (by omega)]
  | false =>
    rw [hw] at hv
    simp only [Bool.false_eq_true, if_false]
    by_cases hodd : nr' % 2 = 1
    · -- its first byte may be the last byte of the entry before it
      rw [if_neg (show ¬nr' * 3 / 2 + 1 = nr * 3 / 2 + 1 by omega),
        if_neg (show ¬nr' * 3 / 2 + 1 = nr * 3 / 2 by omega)]
      by_cases hshare : nr' * 3 / 2 = nr * 3 / 2 + 1
      · rw [if_pos hshare]
        have heven : ¬nr % 2 = 1 := by omega
        unfold Layout.high Layout.first
        simp only [hw, Bool.false_eq_true, if_false, heven, hodd, decide_true]
        rw [narrowValue_odd_congr _ _ hv, hshare]
      · rw [if_neg hshare, if_neg (by omega)]
    · -- its last byte may be the first byte of the entry behind it
      rw [if_neg (show ¬nr' * 3 / 2 = nr * 3 / 2 + 1 by omega),
        if_neg (show ¬nr' * 3 / 2 = nr * 3 / 2 by omega),
        if_neg (show ¬nr' * 3 / 2 + 1 = nr * 3 / 2 + 1 by omega)]
      by_cases hshare : nr' * 3 / 2 + 1 = nr * 3 / 2
      · rw [if_pos hshare]
        have hodd' : nr % 2 = 1 := by omega
        unfold Layout.low Layout.first
        simp only [hw, Bool.false_eq_true, if_false, if_true, hodd', hodd, decide_false]
        rw [narrowValue_even_congr, hshare]
      · rw [if_neg hshare]

/-- The sectors of an entry are one sector or two that follow each other. -/
structure Layout.Sectors (l : Layout) (nr : ℕ) : Prop where
  length : 1 ≤ l.fatLength
  next : l.sector (l.first nr) ≠ l.sector (l.last nr) →
    l.sector (l.last nr) = l.sector (l.first nr) + 1 ∧ 2 ≤ l.fatLength

structure Mirrored (l : Layout) (nr c n : ℕ) (d d' : Disk) : Prop where
  copied : ∀ c', c ≤ c' → c' < c + n →
    d'.data (l.sector (l.first nr) + l.fatLength * c') = d.data (l.sector (l.first nr))
  second : l.sector (l.first nr) ≠ l.sector (l.last nr) → ∀ c', c ≤ c' → c' < c + n →
    d'.data (l.sector (l.first nr) + l.fatLength * c' + 1) = d.data (l.sector (l.last nr))
  others : ∀ t, (∀ c', c ≤ c' → c' < c + n → t ≠ l.sector (l.first nr) + l.fatLength * c' ∧
      (l.sector (l.first nr) ≠ l.sector (l.last nr) →
        t ≠ l.sector (l.first nr) + l.fatLength * c' + 1)) → d'.data t = d.data t
  dirty : ∀ b, d'.dirty b = true ↔ d.dirty b = true ∨
    ∃ c', c ≤ c' ∧ c' < c + n ∧ (l.sector (l.first nr) + l.fatLength * c') / 2 = b

@[simp]
theorem Disk.mark_data (s : ℕ) : (d.mark s).data = d.data := rfl

@[simp]
theorem Disk.copy_data_self (dst src : ℕ) : (d.copy dst src).data dst = d.data src := update_self ..

theorem Disk.copy_data_of_ne {dst : ℕ} (src : ℕ) (h : t ≠ dst) :
    (d.copy dst src).data t = d.data t :=
  update_of_ne h ..

def Layout.copyTo (l : Layout) (nr c : ℕ) (d : Disk) : Disk :=
  let s := l.sector (l.first nr)
  let s2 := l.sector (l.last nr)
  let d := (d.copy (s + l.fatLength * c) s).mark (s + l.fatLength * c)
  if s ≠ s2 then d.copy (s + l.fatLength * c + 1) s2 else d

theorem mirror_succ (hread : ∀ s, d.readable s = true) (c n : ℕ) :
    l.mirror nr (n + 1) c d = l.mirror nr n (c + 1) (l.copyTo nr c d) := by
  by_cases hone : l.sector (l.first nr) = l.sector (l.last nr)
  · simp [Layout.mirror, Layout.copyTo, hread, hone]
  · simp [Layout.mirror, Layout.copyTo, Disk.copy, Disk.mark, hread, hone]

theorem copyTo_readable (c s : ℕ) : (l.copyTo nr c d).readable s = d.readable s := by
  unfold Layout.copyTo
  dsimp only
  split <;> rfl

theorem copyTo_dirty (c b : ℕ) : (l.copyTo nr c d).dirty b = true ↔
    d.dirty b = true ∨ (l.sector (l.first nr) + l.fatLength * c) / 2 = b := by
  have hdirty : (l.copyTo nr c d).dirty =
      update d.dirty ((l.sector (l.first nr) + l.fatLength * c) / 2) true := by
    unfold Layout.copyTo
    dsimp only
    split <;> rfl
  rw [hdirty]
  by_cases hb : b = (l.sector (l.first nr) + l.fatLength * c) / 2
  · rw [hb, update_self]
    simp
  · rw [update_of_ne hb]
    simp [Ne.symm hb]

theorem copyTo_of_ne (ht : t ≠ l.sector (l.first nr) + l.fatLength * c)
    (ht2 : l.sector (l.first nr) ≠ l.sector (l.last nr) →
      t ≠ l.sector (l.first nr) + l.fatLength * c + 1) :
    (l.copyTo nr c d).data t = d.data t := by
  unfold Layout.copyTo
  dsimp only
  split
  · next hne =>
    rw [Disk.copy_data_of_ne _ (ht2 hne), Disk.mark_data, Disk.copy_data_of_ne _ ht]
  · rw [Disk.mark_data, Disk.copy_data_of_ne _ ht]

theorem copyTo_first (c : ℕ) :
    (l.copyTo nr c d).data (l.sector (l.first nr) + l.fatLength * c) =
      d.data (l.sector (l.first nr)) := by
  unfold Layout.copyTo
  dsimp only
  split
  · rw [Disk.copy_data_of_ne _ (Nat.ne_of_lt (Nat.lt_succ_self _)), Disk.mark_data,
      Disk.copy_data_self]
  · rw [Disk.mark_data, Disk.copy_data_self]

theorem copyTo_second (h : l.Sectors nr) (hc : 1 ≤ c)
    (hne : l.sector (l.first nr) ≠ l.sector (l.last nr)) :
    (l.copyTo nr c d).data (l.sector (l.first nr) + l.fatLength * c + 1) =
      d.data (l.sector (l.last nr)) := by
  have hfar : l.fatLength ≤ l.fatLength * c := Nat.le_mul_of_pos_right _ hc
  obtain ⟨hnext, htwo⟩ := h.next hne
  unfold Layout.copyTo
  rw [if_pos hne, Disk.copy_data_self, Disk.mark_data, Disk.copy_data_of_ne _ (by omega)]

theorem copyTo_source (h : l.Sectors nr) (hc : 1 ≤ c)
    (ht : t = l.sector (l.first nr) ∨ t = l.sector (l.last nr)) :
    (l.copyTo nr c d).data t = d.data t := by
  have hfar : l.fatLength ≤ l.fatLength * c := Nat.le_mul_of_pos_right _ hc
  have hlen := h.length
  have hnext := h.next
  apply copyTo_of_ne
  · rcases ht with rfl | rfl <;> omega
  · intro hne
    rcases ht with rfl | rfl <;> omega

theorem mirror_mirrored (h : l.Sectors nr) (hread : ∀ s, d.readable s = true)
    (hc : 1 ≤ c) : Mirrored l nr c n d (l.mirror nr n c d) := by
  induction n generalizing c d with
  | zero =>
    refine ⟨fun c' h1 h2 => by omega, fun _ c' h1 h2 => by omega, fun _ _ => rfl, fun b => ?_⟩
    constructor
    · exact Or.inl
    · rintro (hdirty | ⟨c', h1, h2, -⟩)
      · exact hdirty
      · omega
  | succ n ih =>
    rw [mirror_succ hread]
    have hrest := ih (c := c + 1) (d := l.copyTo nr c d)
      (fun s => (copyTo_readable c s).trans (hread s)) (by omega)
    have hlater : ∀ c', c + 1 ≤ c' → l.fatLength * c + l.fatLength ≤ l.fatLength * c' := by
      intro c' hc'
      have := Nat.mul_le_mul_left l.fatLength hc'
      rwa [Nat.mul_add, Nat.mul_one] at this
    have hlen := h.length
    have hnext := h.next
    refine ⟨?_, ?_, ?_, ?_⟩
    · intro c' h1 h2
      by_cases hcc : c' = c
      · subst hcc
        rw [hrest.others _ fun c'' h3 h4 => ?_, copyTo_first]
        have := hlater c'' h3
        exact ⟨by omega, fun _ => by omega⟩
      · rw [hrest.copied c' (by omega) (by omega), copyTo_source h hc (Or.inl rfl)]
    · intro hne c' h1 h2
      by_cases hcc : c' = c
      · subst hcc
        rw [hrest.others _ fun c'' h3 h4 => ?_, copyTo_second h hc hne]
        have := hlater c'' h3
        exact ⟨by omega, fun _ => by omega⟩
      · rw [hrest.second hne c' (by omega) (by omega), copyTo_source h hc (Or.inr rfl)]
    · intro t ht
      have hhere := ht c le_rfl (by omega)
      rw [hrest.others t fun c' h1 h2 => ht c' (by omega) (by omega), copyTo_of_ne hhere.1 hhere.2]
    · intro b
      rw [hrest.dirty b, copyTo_dirty]
      constructor
      · rintro ((hold | hself) | ⟨c', h1, h2, hb⟩)
        · exact Or.inl hold
        · exact Or.inr ⟨c, le_rfl, by omega, hself⟩
        · exact Or.inr ⟨c', by omega, by omega, hb⟩
      · rintro (hold | ⟨c', h1, h2, hb⟩)
        · exact Or.inl (Or.inl hold)
        · by_cases hcc : c' = c
          · exact Or.inl (Or.inr (hcc ▸ hb))
          · exact Or.inr ⟨c', by omega, by omega, hb⟩

theorem Layout.sector_first_succ (l : Layout) (nr : ℕ) :
    l.sector (l.first nr + 1) = l.sector (l.last nr) := by
  unfold Layout.last Layout.sector Layout.first sectorSize
  cases l.wide with
  | true =>
    simp only [if_true]
    omega
  | false => rfl

theorem Layout.Wf.sectors (h : l.Wf) (hnr : l.Accepts nr) : l.Sectors nr := by
  have hlt := h.first_lt hnr
  have hlast := l.sector_first_succ nr
  unfold Layout.sector sectorSize at hlast
  unfold sectorSize at hlt
  constructor
  · omega
  · intro hne
    unfold Layout.sector sectorSize at hne ⊢
    omega

theorem Layout.put_of_ne (h1 : t ≠ l.sector (l.first nr))
    (h2 : t ≠ l.sector (l.last nr)) : (l.put d nr v).data t = d.data t := by
  unfold Layout.put Disk.store
  dsimp only
  rw [l.sector_first_succ, update_of_ne h2, update_of_ne h1]

def Layout.secondSector (l : Layout) (d : Disk) (nr : ℕ) (v : BitVec 32) : ℕ → BitVec 8 :=
  update (d.data (l.sector (l.last nr))) ((l.first nr + 1) % sectorSize) (l.high d nr v)

theorem Layout.put_second (hne : l.sector (l.first nr) ≠ l.sector (l.last nr)) :
    (l.put d nr v).data (l.sector (l.last nr)) = l.secondSector d nr v := by
  unfold Layout.put Disk.store Layout.secondSector
  dsimp only
  rw [l.sector_first_succ, update_self, update_of_ne hne.symm]
  rfl

def Layout.copySector (l : Layout) (c s : ℕ) : ℕ := l.fatStart + s + l.fatLength * c

theorem Layout.copySector_inj {c' s' : ℕ} (hs : s < l.fatLength) (hs' : s' < l.fatLength)
    (h : l.copySector c s = l.copySector c' s') : c = c' ∧ s = s' := by
  unfold Layout.copySector at h
  have hsum : s + l.fatLength * c = s' + l.fatLength * c' := by omega
  have hmod := congrArg (· % l.fatLength) hsum
  simp only [Nat.add_mul_mod_self_left, Nat.mod_eq_of_lt hs, Nat.mod_eq_of_lt hs'] at hmod
  subst hmod
  exact ⟨Nat.eq_of_mul_eq_mul_left (by omega) (Nat.add_left_cancel hsum), rfl⟩

/-- What a write of an entry promises: the entry reads as the value, the others as before, and
where a sector of some FAT has changed, all FATs agree and the buffer of the sector is dirty. -/
structure Layout.Independent (l : Layout) (d : Disk) (nr : ℕ) (v : BitVec 32) (d' : Disk) :
    Prop where
  value : (l.fatAccess d' nr none).2 = l.next v
  others : ∀ nr', nr' ≠ nr → (l.fatAccess d' nr' none).2 = (l.fatAccess d nr' none).2
  mirrored : ∀ c < l.fats, ∀ s < l.fatLength,
    d'.data (l.copySector c s) ≠ d.data (l.copySector c s) →
    ∀ c' < l.fats, d'.data (l.copySector c' s) = d'.data (l.copySector 0 s)
  dirty : ∀ c < l.fats, ∀ s < l.fatLength,
    d'.data (l.copySector c s) ≠ d.data (l.copySector c s) →
    d'.dirty (l.copySector c s / 2) = true

/-- The buffers that are dirty already, or that `fat_access` marks: those of the entry in the
first FAT and those of its first sector in the other FATs. -/
def Layout.Marked (l : Layout) (d : Disk) (nr b : ℕ) : Prop :=
  d.dirty b = true ∨ l.sector (l.first nr) / 2 = b ∨ l.sector (l.last nr) / 2 = b ∨
    ∃ c, 1 ≤ c ∧ c < l.fats ∧ (l.sector (l.first nr) + l.fatLength * c) / 2 = b

/-- The second sector of the entry in another FAT is as it should be, or in a buffer that is
dirty for another reason. -/
def Layout.Safe (l : Layout) (d : Disk) (nr : ℕ) (v : BitVec 32) : Prop :=
  l.sector (l.first nr) ≠ l.sector (l.last nr) → ∀ c, 1 ≤ c → c < l.fats →
    d.data (l.sector (l.last nr) + l.fatLength * c) = l.secondSector d nr v ∨
    l.Marked d nr ((l.sector (l.last nr) + l.fatLength * c) / 2)

def Layout.written (l : Layout) (d : Disk) (nr : ℕ) (v : BitVec 32) : Disk :=
  (if l.wide then l.put d nr v else (l.put d nr v).mark (l.sector (l.last nr))).mark
    (l.sector (l.first nr))

theorem written_data (v : BitVec 32) : (l.written d nr v).data = (l.put d nr v).data := by
  unfold Layout.written
  split <;> rfl

theorem written_readable (v : BitVec 32) (s : ℕ) :
    (l.written d nr v).readable s = d.readable s := by
  unfold Layout.written
  split <;> rfl

theorem Disk.mark_dirty (s b : ℕ) : (d.mark s).dirty b = true ↔ d.dirty b = true ∨ s / 2 = b := by
  unfold Disk.mark
  dsimp only
  by_cases hb : b = s / 2
  · rw [hb, update_self]
    simp
  · rw [update_of_ne hb]
    simp [Ne.symm hb]

theorem written_dirty (v : BitVec 32) (b : ℕ) : (l.written d nr v).dirty b = true ↔
    d.dirty b = true ∨ l.sector (l.first nr) / 2 = b ∨ l.sector (l.last nr) / 2 = b := by
  unfold Layout.written
  rw [Disk.mark_dirty]
  cases hw : l.wide with
  | true =>
    have hlast : l.last nr = l.first nr := by simp [Layout.last, Layout.first, hw]
    rw [hlast, or_self]
    rfl
  | false =>
    simp only [Bool.false_eq_true, if_false]
    rw [Disk.mark_dirty, or_assoc, or_comm (a := l.sector (l.last nr) / 2 = b)]
    rfl

theorem fatAccess_write (hread : ∀ s, d.readable s = true) (hnr : l.Accepts nr) (v : BitVec 32) :
    (l.fatAccess d nr (some v)).1 = l.mirror nr (l.fats - 1) 1 (l.written d nr v) := by
  have hrange : ¬(nr < 2 ∨ l.clusters ≤ nr - 2) := by
    have := hnr.1
    have := hnr.2
    omega
  unfold Layout.fatAccess
  simp only [hrange, hread, Bool.true_eq_false, and_false, if_false]
  rfl

theorem fatAccess_read (hread : ∀ s, d.readable s = true) (hnr : l.Accepts nr) :
    (l.fatAccess d nr none).2 = l.next (l.entry d nr) := by
  have hrange : ¬(nr < 2 ∨ l.clusters ≤ nr - 2) := by
    have := hnr.1
    have := hnr.2
    omega
  unfold Layout.fatAccess
  simp only [hrange, hread, Bool.true_eq_false, and_false, if_false]

theorem fatAccess_refuses (hnr : ¬l.Accepts nr) (v : Option (BitVec 32)) :
    l.fatAccess d nr v = (d, 0) := by
  unfold Layout.Accepts at hnr
  unfold Layout.fatAccess
  rw [if_pos (by omega)]

theorem mirror_readable (n c s : ℕ) (hread : ∀ s, d.readable s = true) :
    (l.mirror nr n c d).readable s = true := by
  induction n generalizing c d with
  | zero => exact hread s
  | succ n ih =>
    rw [mirror_succ hread]
    exact ih (c + 1) fun t => (copyTo_readable c t).trans (hread t)

section
variable (hwf : l.Wf) (hnr : l.Accepts nr)
include hwf hnr

theorem entry_congr (h : ∀ t < l.fatStart + l.fatLength, d'.data t = d.data t) :
    l.entry d' nr = l.entry d nr := by
  have hlt := hwf.first_lt hnr
  have hbyte : ∀ pos < l.fatLength * sectorSize, l.byte d' pos = l.byte d pos := by
    intro pos hpos
    have hsector : l.sector pos < l.fatStart + l.fatLength := by
      exact Nat.add_lt_add_left (Nat.div_lt_of_lt_mul (by rwa [Nat.mul_comm])) _
    unfold Layout.byte
    rw [h _ hsector]
  unfold Layout.entry
  rw [hbyte _ hlt, hbyte _ (by omega)]

omit hwf hnr in
theorem Layout.Wf.first_sector_lt (h : l.Wf) (hnr : l.Accepts nr) :
    l.first nr / sectorSize < l.fatLength ∧ l.last nr / sectorSize < l.fatLength := by
  have hlt := h.first_lt hnr
  have hlast := l.sector_first_succ nr
  unfold Layout.sector at hlast
  unfold sectorSize at *
  omega

theorem mirror_source (hm : Mirrored l nr 1 n d d') (ht : t < l.fatStart + l.fatLength) :
    d'.data t = d.data t := by
  refine hm.others t fun c h1 _ => ?_
  have hfar : l.fatLength ≤ l.fatLength * c := Nat.le_mul_of_pos_right _ h1
  have hstart : l.fatStart ≤ l.sector (l.first nr) := Nat.le_add_right ..
  exact ⟨by omega, fun _ => by omega⟩

theorem mirror_first (hm : Mirrored l nr 1 (l.fats - 1) d d') (hc : c < l.fats) :
    d'.data (l.copySector c (l.first nr / sectorSize)) = d.data (l.sector (l.first nr)) := by
  have hlt := hwf.first_sector_lt hnr
  rcases Nat.eq_zero_or_pos c with rfl | hpos
  · exact mirror_source hwf hnr hm (Nat.add_lt_add_left hlt.1 _)
  · exact hm.copied c hpos (by omega)

theorem mirror_second (hm : Mirrored l nr 1 (l.fats - 1) d d')
    (hne : l.sector (l.first nr) ≠ l.sector (l.last nr)) (hc : c < l.fats) :
    d'.data (l.copySector c (l.last nr / sectorSize)) = d.data (l.sector (l.last nr)) := by
  have hlt := hwf.first_sector_lt hnr
  rcases Nat.eq_zero_or_pos c with rfl | hpos
  · exact mirror_source hwf hnr hm (Nat.add_lt_add_left hlt.2 _)
  · have hsector : l.copySector c (l.last nr / sectorSize) =
        l.sector (l.first nr) + l.fatLength * c + 1 := by
      have hnext := ((hwf.sectors hnr).next hne).1
      unfold Layout.sector at hnext ⊢
      unfold Layout.copySector
      omega
    rw [hsector]
    exact hm.second hne c hpos (by omega)

theorem mirror_rest (hm : Mirrored l nr 1 (l.fats - 1) d d') (hs : s < l.fatLength)
    (h1 : s ≠ l.first nr / sectorSize) (h2 : s ≠ l.last nr / sectorSize) :
    d'.data (l.copySector c s) = d.data (l.copySector c s) := by
  have hlt := hwf.first_sector_lt hnr
  refine hm.others _ fun c' hc' _ => ⟨fun heq => h1 ?_, fun hne heq => h2 ?_⟩
  · exact (Layout.copySector_inj hs hlt.1 heq).2
  · have hcopy : l.copySector c s = l.copySector c' (l.last nr / sectorSize) := by
      have hnext := ((hwf.sectors hnr).next hne).1
      unfold Layout.sector at hnext heq
      unfold Layout.copySector at heq ⊢
      omega
    exact (Layout.copySector_inj hs hlt.2 hcopy).2

theorem put_rest (hs : s < l.fatLength) (h1 : s ≠ l.first nr / sectorSize)
    (h2 : s ≠ l.last nr / sectorSize) :
    (l.put d nr v).data (l.copySector c s) = d.data (l.copySector c s) := by
  have hlt := hwf.first_sector_lt hnr
  apply Layout.put_of_ne
  · intro heq
    have hcopy : l.copySector c s = l.copySector 0 (l.first nr / sectorSize) := heq
    exact h1 (Layout.copySector_inj hs hlt.1 hcopy).2
  · intro heq
    have hcopy : l.copySector c s = l.copySector 0 (l.last nr / sectorSize) := heq
    exact h2 (Layout.copySector_inj hs hlt.2 hcopy).2

end

theorem fatAccess_dirty (hwf : l.Wf) (hread : ∀ s, d.readable s = true) (hnr : l.Accepts nr)
    (v : BitVec 32) (b : ℕ) :
    (l.fatAccess d nr (some v)).1.dirty b = true ↔ l.Marked d nr b := by
  have hfats := hwf.fats
  have hread' : ∀ s, (l.written d nr v).readable s = true :=
    fun s => (written_readable v s).trans (hread s)
  have hm := mirror_mirrored (n := l.fats - 1) (hwf.sectors hnr) hread' le_rfl
  rw [fatAccess_write hread hnr, hm.dirty, written_dirty]
  unfold Layout.Marked
  rw [show 1 + (l.fats - 1) = l.fats by omega, or_assoc, or_assoc]

/-- Writing an entry keeps its promises unless the second sector of the entry in another FAT
changes in a buffer that nothing else marks. -/
theorem fatAccess_independent_iff (hwf : l.Wf) (hread : ∀ s, d.readable s = true)
    (hnr : l.Accepts nr) {v : BitVec 32} (hv : l.Fits v) :
    l.Independent d nr v (l.fatAccess d nr (some v)).1 ↔ l.Safe d nr v := by
  have hlt := hwf.first_sector_lt hnr
  have hdirty := fatAccess_dirty hwf hread hnr v
  have hread' : ∀ s, (l.written d nr v).readable s = true :=
    fun s => (written_readable v s).trans (hread s)
  have hm := mirror_mirrored (n := l.fats - 1) (hwf.sectors hnr) hread' le_rfl
  have hreadable : ∀ s, (l.mirror nr (l.fats - 1) 1 (l.written d nr v)).readable s = true :=
    fun s => mirror_readable (l.fats - 1) 1 s hread'
  rw [fatAccess_write hread hnr] at hdirty ⊢
  set d' := l.mirror nr (l.fats - 1) 1 (l.written d nr v) with hd'
  have hentry : ∀ nr', l.Accepts nr' → l.entry d' nr' = l.entry (l.put d nr v) nr' := by
    intro nr' hnr'
    refine entry_congr hwf hnr' fun t ht => ?_
    rw [mirror_source hwf hnr hm ht, written_data]
  have hfirst : ∀ c < l.fats, d'.data (l.copySector c (l.first nr / sectorSize)) =
      (l.put d nr v).data (l.sector (l.first nr)) := by
    intro c hc
    rw [mirror_first hwf hnr hm hc, written_data]
  have hrest : ∀ c s, s < l.fatLength → s ≠ l.first nr / sectorSize →
      s ≠ l.last nr / sectorSize → d'.data (l.copySector c s) = d.data (l.copySector c s) := by
    intro c s hs h1 h2
    rw [mirror_rest hwf hnr hm hs h1 h2, written_data, put_rest hwf hnr hs h1 h2]
  have hsecond : l.sector (l.first nr) ≠ l.sector (l.last nr) → ∀ c < l.fats,
      d'.data (l.copySector c (l.last nr / sectorSize)) = l.secondSector d nr v := by
    intro hne c hc
    rw [mirror_second hwf hnr hm hne hc, written_data, Layout.put_second hne]
  constructor
  · intro h hne c h1 hc
    by_cases hchanged : d.data (l.sector (l.last nr) + l.fatLength * c) = l.secondSector d nr v
    · exact Or.inl hchanged
    · refine Or.inr ((hdirty _).mp (h.dirty c hc _ hlt.2 ?_))
      rw [hsecond hne c hc]
      exact Ne.symm hchanged
  · intro hsafe
    refine ⟨?_, ?_, ?_, ?_⟩
    · rw [fatAccess_read hreadable hnr, hentry nr hnr, Layout.entry_put_self hv]
    · intro nr' hne
      by_cases hnr' : l.Accepts nr'
      · rw [fatAccess_read hreadable hnr', fatAccess_read hread hnr', hentry nr' hnr',
          Layout.entry_put_of_ne hv hne]
      · rw [fatAccess_refuses hnr', fatAccess_refuses hnr']
    · intro c hc s hs hchanged c' hc'
      by_cases h1 : s = l.first nr / sectorSize
      · rw [h1, hfirst c' hc', hfirst 0 hwf.fats]
      · by_cases h2 : s = l.last nr / sectorSize
        · have hne : l.sector (l.first nr) ≠ l.sector (l.last nr) := by
            unfold Layout.sector
            omega
          rw [h2, hsecond hne c' hc', hsecond hne 0 hwf.fats]
        · exact absurd (hrest c s hs h1 h2) hchanged
    · intro c hc s hs hchanged
      rw [hdirty]
      by_cases h1 : s = l.first nr / sectorSize
      · rcases Nat.eq_zero_or_pos c with rfl | hpos
        · exact Or.inr (Or.inl (by rw [h1]; rfl))
        · exact Or.inr (Or.inr (Or.inr ⟨c, hpos, hc, by rw [h1]; rfl⟩))
      · by_cases h2 : s = l.last nr / sectorSize
        · have hne : l.sector (l.first nr) ≠ l.sector (l.last nr) := by
            unfold Layout.sector
            omega
          rcases Nat.eq_zero_or_pos c with rfl | hpos
          · exact Or.inr (Or.inr (Or.inl (by rw [h2]; rfl)))
          · rcases hsafe hne c hpos hc with hsame | hmarked
            · rw [h2, hsecond hne c hc] at hchanged
              exact absurd hsame.symm hchanged
            · rw [h2]
              exact hmarked
        · exact absurd (hrest c s hs h1 h2) hchanged

end

def floppy : Layout where
  fatStart := 1
  fatLength := 9
  fats := 2
  clusters := 2847
  wide := false

def blank : Disk where
  data _ _ := 0
  dirty _ := false
  readable _ := true

theorem floppy_wf : floppy.Wf := by
  constructor <;> decide

theorem fatAccess_independent_iff_floppy :
    floppy.Independent blank 2 0xfff (floppy.fatAccess blank 2 (some 0xfff)).1 :=
  (fatAccess_independent_iff floppy_wf (fun _ => rfl) ⟨by decide, by decide⟩ (by decide)).mpr
    fun h => absurd (by decide) h

/-- The entry lies in the sectors 2 and 3, in the second FAT in 11 and 12: the buffer of 12 is
changed and not dirty. -/
theorem floppy_not_independent :
    floppy.Wf ∧ (∀ s, blank.readable s = true) ∧ floppy.Accepts 682 ∧ floppy.Fits 0xfff ∧
      ¬floppy.Independent blank 682 0xfff (floppy.fatAccess blank 682 (some 0xfff)).1 := by
  refine ⟨floppy_wf, fun _ => rfl, ⟨by decide, by decide⟩, by decide, fun h => ?_⟩
  have hchanged : (floppy.fatAccess blank 682 (some 0xfff)).1.data (floppy.copySector 1 2) ≠
      blank.data (floppy.copySector 1 2) := by
    intro heq
    have hbyte := congrFun heq 0
    revert hbyte
    decide
  have hdirty := h.dirty 1 (by decide) 2 (by decide) hchanged
  revert hdirty
  decide

end LinuxKernel.Fat
