import LinuxKernel.ListUpdate
import LinuxKernel.SwapModel

/-!
# The free slots of the swap devices

The free slots of a device stay between `lowest_bit` and `highest_bit`, and
`nr_swap_pages` counts the free slots of all devices.
-/

namespace LinuxKernel.Swap
open Function List

open ListUpdate

theorem unsigned_of_nonneg {z : ℤ} (h0 : 0 ≤ z) (h1 : z < 4294967296) : (unsigned z : ℤ) = z := by
  unfold unsigned
  omega

theorem eq_of_add_one_eq_zero {x : UInt8} (h : x + 1 = 0) : x = 255 := by
  have hnat := congrArg UInt8.toNat h
  have hlt := x.toNat_lt
  apply UInt8.toNat_inj.1
  change (x.toNat + 1) % 256 = 0 at hnat
  change x.toNat = 255
  omega

def freeOf (map : ℕ → UInt8) (max : ℕ) : Finset ℕ := (Finset.range max).filter fun o => map o = 0

def SwapInfo.freeSlots (p : SwapInfo) : Finset ℕ :=
  match p.swapMap with
  | none => ∅
  | some map => freeOf map p.max

variable {map : ℕ → UInt8} {o : ℕ}

theorem mem_freeOf {max : ℕ} : o ∈ freeOf map max ↔ o < max ∧ map o = 0 := by
  simp [freeOf]

theorem freeOf_update_zero {max : ℕ} (ho : o < max) :
    freeOf (update map o 0) max = insert o (freeOf map max) := by
  ext i
  rw [Finset.mem_insert, mem_freeOf, mem_freeOf]
  by_cases hi : i = o
  · subst hi
    simp [ho]
  · simp [hi]

theorem freeOf_update_of_ne_zero (map : ℕ → UInt8) (max o : ℕ) {v : UInt8} (hv : v ≠ 0) :
    freeOf (update map o v) max = (freeOf map max).erase o := by
  ext i
  rw [Finset.mem_erase, mem_freeOf, mem_freeOf]
  by_cases hi : i = o
  · subst hi
    simp [hv]
  · simp [hi]

structure MapOk (p : SwapInfo) (map : ℕ → UInt8) : Prop where
  max_le : p.max ≤ 32768
  low_nonneg : 0 ≤ p.lowestBit
  low_le : p.lowestBit ≤ p.max
  high_nonneg : 0 ≤ p.highestBit
  high_lt : p.highestBit < p.max
  inside : ∀ o, o < p.max → map o = 0 → p.lowestBit ≤ o ∧ (o : ℤ) ≤ p.highestBit
  bad : ∀ o, p.bad o = true → map o ≠ 0
  bad_zero : p.bad 0 = true

/-- What the scan of the first page has left in a device that is not yet set up. -/
structure ScanOk (p : SwapInfo) (count : ℕ) : Prop where
  max_le : p.max ≤ 32768
  low_pos : 0 < p.lowestBit
  low_le : p.lowestBit ≤ p.highestBit
  high_lt : p.highestBit < p.max
  inside : ∀ o, o ≠ 0 → o < p.max → p.lockmap o = true → p.lowestBit ≤ o ∧ (o : ℤ) ≤ p.highestBit
  count_eq : count = ((Finset.range p.max).filter fun o => o ≠ 0 ∧ p.lockmap o = true).card

def DeviceOk (p : SwapInfo) : Prop :=
  match p.flags with
  | .writeok => ∃ map, p.swapMap = some map ∧ MapOk p map
  | .used => p.swapMap = none ∧ ∀ count, p.count = some count → ScanOk p count
  | .unused => p.swapMap = none

structure TableOk (s : SwapTable) : Prop where
  devices : ∀ p ∈ s.info, DeviceOk p
  total : s.nrSwapPages = (s.info.map fun p => (p.freeSlots.card : ℤ)).sum
  waiting : ∀ w ∈ s.waiting, ∃ p, s.info[w.1]? = some p ∧ p.flags = .writeok ∧
    w.2 < p.max ∧ p.bad w.2 = false

theorem DeviceOk.of_map {p : SwapInfo} (h : DeviceOk p)
    (hmap : p.swapMap = some map) : p.flags = .writeok ∧ MapOk p map := by
  unfold DeviceOk at h
  split at h
  · rename_i hflags
    obtain ⟨map', hmap', hok⟩ := h
    obtain rfl : map = map' := Option.some.inj (hmap.symm.trans hmap')
    exact ⟨hflags, hok⟩
  · rw [h.1] at hmap
    cases hmap
  · rw [h] at hmap
    cases hmap

theorem DeviceOk.map_of_writeok {p : SwapInfo} (h : DeviceOk p) (hflags : p.flags = .writeok) :
    ∃ map, p.swapMap = some map ∧ MapOk p map := by
  unfold DeviceOk at h
  rw [hflags] at h
  exact h

variable {s' : SwapTable}

variable {n : ℕ}

theorem DeviceOk.of_writeok {p : SwapInfo} (hflags : p.flags = .writeok)
    (hmap : p.swapMap = some map) (h : MapOk p map) : DeviceOk p := by
  unfold DeviceOk
  rw [hflags]
  exact ⟨map, hmap, h⟩

section

variable {s : SwapTable} {type : ℕ} {p q : SwapInfo}

section
variable (h : TableOk s) (hp : s.info[type]? = some p) (hq : DeviceOk q)
  (hkeep : p.flags = .writeok → q.flags = .writeok ∧ q.max = p.max ∧ q.bad = p.bad)
include h hp hq hkeep

theorem TableOk.set {n : ℤ} (hn : n = s.nrSwapPages - p.freeSlots.card + q.freeSlots.card) :
    TableOk { s with info := s.info.set type q, nrSwapPages := n } := by
  have hlt : type < s.info.length := (List.getElem?_eq_some_iff.1 hp).1
  refine ⟨?_, ?_, ?_⟩
  · intro r hr
    rcases mem_or_eq_of_mem_set hr with hr | rfl
    · exact h.devices r hr
    · exact hq
  · rw [sum_map_set _ q hp, ← h.total, hn]
  · intro w hw
    obtain ⟨r, hr, hflags, hmax, hbad⟩ := h.waiting w hw
    by_cases hw1 : w.1 = type
    · rw [hw1] at hr
      obtain rfl : p = r := Option.some.inj (hp.symm.trans hr)
      obtain ⟨hqflags, hqmax, hqbad⟩ := hkeep hflags
      refine ⟨q, ?_, hqflags, by rwa [hqmax], by rwa [hqbad]⟩
      rw [hw1, List.getElem?_set_self hlt]
    · refine ⟨r, ?_, hflags, hmax, hbad⟩
      rw [List.getElem?_set_ne (Ne.symm hw1)]
      exact hr

theorem TableOk.set_of_card_eq (hcard : q.freeSlots.card = p.freeSlots.card) :
    TableOk { s with info := s.info.set type q } :=
  h.set hp hq hkeep (by rw [hcard]; omega)

end

theorem findFree_some {offset : ℕ} (h : findFree map offset n = some o) :
    offset ≤ o ∧ o < offset + n ∧ map o = 0 ∧ ∀ i, offset ≤ i → i < o → map i ≠ 0 := by
  induction n generalizing offset with
  | zero => cases h
  | succ n ih =>
    unfold findFree at h
    split at h
    · rename_i hused
      obtain ⟨hle, hlt, hzero, hbefore⟩ := ih h
      refine ⟨by omega, by omega, hzero, ?_⟩
      intro i hi hio
      rcases Nat.eq_or_lt_of_le hi with rfl | hi
      · exact hused
      · exact hbefore i hi hio
    · rename_i hfree
      obtain rfl : offset = o := Option.some.inj h
      refine ⟨le_rfl, by omega, not_not.1 hfree, ?_⟩
      intro i hi hio
      omega

theorem findFree_none {offset : ℕ} (h : findFree map offset n = none) :
    ∀ i, offset ≤ i → i < offset + n → map i ≠ 0 := by
  induction n generalizing offset with
  | zero =>
    intro i hi hin
    omega
  | succ n ih =>
    unfold findFree at h
    split at h
    · rename_i hused
      intro i hi hin
      rcases Nat.eq_or_lt_of_le hi with rfl | hi
      · exact hused
      · exact ih h i hi (by omega)
    · cases h

theorem MapOk.unsigned_low (h : MapOk p map) : (unsigned p.lowestBit : ℤ) = p.lowestBit := by
  have := h.max_le
  have := h.low_le
  exact unsigned_of_nonneg h.low_nonneg (by omega)

theorem MapOk.unsigned_high (h : MapOk p map) : (unsigned p.highestBit : ℤ) = p.highestBit := by
  have := h.max_le
  have := h.high_lt
  exact unsigned_of_nonneg h.high_nonneg (by omega)

theorem freeSlots_of_map (hmap : p.swapMap = some map) : p.freeSlots = freeOf map p.max := by
  unfold SwapInfo.freeSlots
  rw [hmap]

theorem DeviceOk.findFree_some (h : DeviceOk p) (ho : p.findFree = some o) :
    p.flags = .writeok ∧ ∃ map, p.swapMap = some map ∧ MapOk p map ∧ o < p.max ∧ map o = 0 ∧
      ∀ i, i < p.max → map i = 0 → o ≤ i := by
  unfold SwapInfo.findFree at ho
  split at ho
  · rename_i hflags
    obtain ⟨map, hmap, hok⟩ := h.map_of_writeok hflags
    rw [hmap, Option.bind_some] at ho
    obtain ⟨hle, hlt, hzero, hbefore⟩ := Swap.findFree_some ho
    have hlow := hok.unsigned_low
    have hhigh := hok.unsigned_high
    have hmax := hok.high_lt
    refine ⟨hflags, map, hmap, hok, by omega, hzero, ?_⟩
    intro i hi hfree
    by_contra hio
    have hinside := hok.inside i hi hfree
    exact hbefore i (by omega) (by omega) hfree
  · cases ho

theorem DeviceOk.findFree_none (h : DeviceOk p) (hnone : p.findFree = none)
    (hflags : p.flags = .writeok) : p.freeSlots = ∅ := by
  obtain ⟨map, hmap, hok⟩ := h.map_of_writeok hflags
  unfold SwapInfo.findFree at hnone
  rw [if_pos hflags, hmap, Option.bind_some] at hnone
  have hused := Swap.findFree_none hnone
  have hlow := hok.unsigned_low
  have hhigh := hok.unsigned_high
  rw [freeSlots_of_map hmap, Finset.eq_empty_iff_forall_notMem]
  intro o ho
  obtain ⟨hlt, hzero⟩ := mem_freeOf.1 ho
  have hinside := hok.inside o hlt hzero
  exact hused o (by omega) (by omega) hzero

theorem getFrom_some {l : List SwapInfo} {t : ℕ} (h : getFrom t l = some (type, o)) :
    ∃ p, t ≤ type ∧ l[type - t]? = some p ∧ p.findFree = some o := by
  induction l generalizing t with
  | nil => cases h
  | cons x rest ih =>
    unfold getFrom at h
    split at h
    · rename_i offset hfind
      obtain ⟨rfl, rfl⟩ : t = type ∧ offset = o := by simpa using h
      exact ⟨x, le_rfl, by simp, hfind⟩
    · obtain ⟨p, hle, hp, hfind⟩ := ih h
      refine ⟨p, by omega, ?_, hfind⟩
      rw [show type - t = type - (t + 1) + 1 by omega, List.getElem?_cons_succ]
      exact hp

theorem getFrom_none {l : List SwapInfo} {t : ℕ} (h : getFrom t l = none) :
    ∀ p ∈ l, p.findFree = none := by
  induction l generalizing t with
  | nil =>
    intro p hp
    cases hp
  | cons x rest ih =>
    unfold getFrom at h
    split at h
    · cases h
    · rename_i hfind
      intro p hp
      rcases mem_cons.1 hp with rfl | hp
      · exact hfind
      · exact ih h p hp

theorem DeviceOk.take (h : DeviceOk p) (ho : p.findFree = some o) :
    DeviceOk (p.take o) ∧ (p.freeSlots.card : ℤ) = (p.take o).freeSlots.card + 1 := by
  obtain ⟨hflags, map, hmap, hok, hlt, hzero, hfirst⟩ := h.findFree_some ho
  have hhigh := hok.unsigned_high
  have hmax := hok.high_lt
  have ho_pos : o ≠ 0 := by
    rintro rfl
    exact hok.bad 0 hok.bad_zero hzero
  have hmap' : (p.take o).swapMap = some (update map o 1) := by
    simp [SwapInfo.take, hmap]
  have hupdate := freeOf_update_of_ne_zero map p.max o (v := 1) (by decide)
  refine ⟨DeviceOk.of_writeok hflags hmap' ?_, ?_⟩
  · refine ⟨hok.max_le, ?_, ?_, ?_, ?_, ?_, ?_, hok.bad_zero⟩
    · exact Int.natCast_nonneg o
    · change (o : ℤ) ≤ p.max
      omega
    · change 0 ≤ if o = unsigned p.highestBit then p.highestBit - 1 else p.highestBit
      split <;> omega
    · change (if o = unsigned p.highestBit then p.highestBit - 1 else p.highestBit) < p.max
      split <;> omega
    · intro i hi hfree
      have hmem : i ∈ freeOf (update map o 1) p.max := mem_freeOf.2 ⟨hi, hfree⟩
      rw [hupdate, Finset.mem_erase, mem_freeOf] at hmem
      obtain ⟨hne, -, hold⟩ := hmem
      have hle := hfirst i hi hold
      have hinside := hok.inside i hi hold
      change (o : ℤ) ≤ i ∧ (i : ℤ) ≤ if o = unsigned p.highestBit then p.highestBit - 1
        else p.highestBit
      split <;> omega
    · intro i hbad
      by_cases hi : i = o
      · subst hi
        simp
      · rw [update_of_ne hi]
        exact hok.bad i hbad
  · rw [freeSlots_of_map hmap, freeSlots_of_map hmap']
    change ((freeOf map p.max).card : ℤ) = (freeOf (update map o 1) p.max).card + 1
    rw [hupdate, ← Nat.cast_add_one, Finset.card_erase_add_one (mem_freeOf.2 ⟨hlt, hzero⟩)]

theorem TableOk.getSwapPage (h : TableOk s) : TableOk s.getSwapPage.1 := by
  unfold SwapTable.getSwapPage
  split
  · exact h
  · rename_i type o hget
    obtain ⟨p, -, hp, hfind⟩ := getFrom_some hget
    rw [Nat.sub_zero] at hp
    obtain ⟨htake, hcard⟩ := (h.devices p (mem_of_getElem? hp)).take hfind
    rw [modify_eq_set_of_getElem? _ hp]
    exact h.set hp htake (fun hflags => ⟨hflags, rfl, rfl⟩) (by omega)

theorem TableOk.swapDuplicate (h : TableOk s) {entry : ℕ} (hok : Event.Ok s (.duplicate entry))
    {r : SwapTable × ℕ} (hr : s.swapDuplicate entry = some r) : TableOk r.1 := by
  unfold SwapTable.swapDuplicate at hr
  split at hr
  · obtain rfl := Option.some.inj hr
    exact h
  · rename_i hentry
    split at hr
    · obtain rfl := Option.some.inj hr
      exact h
    · split at hr
      · obtain rfl := Option.some.inj hr
        exact h
      · rename_i p hp
        split at hr
        · obtain rfl := Option.some.inj hr
          exact h
        · rename_i hmax
          obtain ⟨map, hmap, rfl⟩ := Option.map_eq_some_iff.1 hr
          obtain ⟨hflags, hmapok⟩ := (h.devices p (mem_of_getElem? hp)).of_map hmap
          split
          · exact h
          · rename_i hused
            have hfull := hok hentry p map hp hmap (by omega)
            have hnext : map (swpOffset entry) + 1 ≠ 0 :=
              fun hzero => hfull (eq_of_add_one_eq_zero hzero)
            have hfree : freeOf (update map (swpOffset entry)
                (map (swpOffset entry) + 1)) p.max = freeOf map p.max := by
              rw [freeOf_update_of_ne_zero _ _ _ hnext]
              apply Finset.erase_eq_of_notMem
              intro hmem
              exact hused (mem_freeOf.1 hmem).2
            refine h.set_of_card_eq hp (DeviceOk.of_writeok hflags rfl ?_)
              (fun _ => ⟨hflags, rfl, rfl⟩) ?_
            · refine ⟨hmapok.max_le, hmapok.low_nonneg, hmapok.low_le, hmapok.high_nonneg,
                hmapok.high_lt, ?_, ?_, hmapok.bad_zero⟩
              · intro o ho hzero
                have hmem := mem_freeOf.2 ⟨ho, hzero⟩
                rw [hfree] at hmem
                exact hmapok.inside o ho (mem_freeOf.1 hmem).2
              · intro o hbad
                by_cases ho : o = swpOffset entry
                · rw [ho, update_self]
                  exact hnext
                · rw [update_of_ne ho]
                  exact hmapok.bad o hbad
            · rw [freeSlots_of_map hmap]
              exact congrArg Finset.card hfree

theorem MapOk.widen (h : MapOk p map) (ho : o < p.max)
    (map' : ℕ → UInt8) (hmap' : ∀ i, i ≠ o → map' i = map i)
    (hbad : ∀ i, p.bad i = true → map' i ≠ 0) :
    MapOk { p with
      lowestBit := if o < unsigned p.lowestBit then (o : ℤ) else p.lowestBit
      highestBit := if unsigned p.highestBit < o then (o : ℤ) else p.highestBit
      swapMap := some map' } map' := by
  have hlow := h.unsigned_low
  have hhigh := h.unsigned_high
  have hhigh1 := h.high_lt
  refine ⟨h.max_le, ?_, ?_, ?_, ?_, ?_, hbad, h.bad_zero⟩
  · dsimp only
    split <;> omega
  · dsimp only
    split <;> omega
  · dsimp only
    split <;> omega
  · dsimp only
    split <;> omega
  · intro i hi hzero
    dsimp only
    by_cases hio : i = o
    · constructor
      · split <;> omega
      · split <;> omega
    · rw [hmap' i hio] at hzero
      have hinside := h.inside i hi hzero
      constructor
      · split <;> omega
      · split <;> omega

theorem TableOk.freeSlot (h : TableOk s) (hp : s.info[type]? = some p) (ho : o < p.max)
    (hbad : p.bad o = false) (hs : s.freeSlot type o = some s') :
    TableOk s' := by
  unfold SwapTable.freeSlot at hs
  rw [hp] at hs
  obtain ⟨map, hmap, rfl⟩ := Option.map_eq_some_iff.1 hs
  obtain ⟨hflags, hok⟩ := (h.devices p (mem_of_getElem? hp)).of_map hmap
  dsimp only
  split
  · have hwide := hok.widen ho map (fun _ _ => rfl) hok.bad
    rw [← hmap] at hwide
    refine h.set_of_card_eq hp (DeviceOk.of_writeok hflags hmap hwide)
      (fun _ => ⟨hflags, rfl, rfl⟩) ?_
    rw [freeSlots_of_map hmap]
    exact congrArg Finset.card (freeSlots_of_map hmap)
  · rename_i hused
    have hwide := hok.widen ho (update map o (map o - 1))
      (fun i hi => update_of_ne hi ..) (by
        intro i hi
        have hio : i ≠ o := by
          rintro rfl
          rw [hbad] at hi
          cases hi
        rw [update_of_ne hio]
        exact hok.bad i hi)
    refine h.set hp (DeviceOk.of_writeok (by exact hflags) rfl hwide)
      (fun _ => ⟨hflags, rfl, rfl⟩) ?_
    have hold : o ∉ freeOf map p.max := fun hmem => hused (mem_freeOf.1 hmem).2
    rw [freeSlots_of_map hmap]
    change _ = s.nrSwapPages - ((freeOf map p.max).card : ℤ) +
      (freeOf (update map o (map o - 1)) p.max).card
    split
    · rename_i hlast
      rw [hlast, freeOf_update_zero ho, Finset.card_insert_of_notMem hold]
      omega
    · rename_i hmore
      rw [freeOf_update_of_ne_zero _ _ _ hmore, Finset.erase_eq_of_notMem hold]
      omega

theorem TableOk.swapFree (h : TableOk s) {entry : ℕ} {locked : Bool}
    (hok : Event.Ok s (.free entry locked))
    (hs : s.swapFree entry locked = some s') : TableOk s' := by
  unfold SwapTable.swapFree at hs
  split at hs
  · obtain rfl := Option.some.inj hs
    exact h
  · rename_i hentry
    split at hs
    · obtain rfl := Option.some.inj hs
      exact h
    · split at hs
      · obtain rfl := Option.some.inj hs
        exact h
      · rename_i p hp
        split at hs
        · obtain rfl := Option.some.inj hs
          exact h
        · rename_i hmax
          split at hs
          · obtain rfl := Option.some.inj hs
            exact h
          · split at hs
            · cases hs
            · rename_i hmapped
              obtain ⟨map, hmap⟩ := Option.ne_none_iff_exists'.1 (by simpa using hmapped)
              obtain ⟨hflags, -⟩ := (h.devices p (mem_of_getElem? hp)).of_map hmap
              have hbad := hok hentry p hp hflags (by omega)
              split at hs
              · obtain rfl := Option.some.inj hs
                refine ⟨h.devices, h.total, ?_⟩
                intro w hw
                rcases mem_append.1 hw with hw | hw
                · exact h.waiting w hw
                · rw [mem_singleton.1 hw]
                  exact ⟨p, hp, hflags, by omega, hbad⟩
              · exact h.freeSlot hp (by omega) hbad hs

theorem TableOk.resume (h : TableOk s) (hs : s.resume n = some s') : TableOk s' := by
  unfold SwapTable.resume at hs
  split at hs
  · obtain rfl := Option.some.inj hs
    exact h
  · rename_i type o hw
    obtain ⟨p, hp, -, hmax, hbad⟩ := h.waiting (type, o) (mem_of_getElem? hw)
    have hleft : TableOk { s with waiting := s.waiting.eraseIdx n } :=
      ⟨h.devices, h.total, fun w hw => h.waiting w (mem_of_mem_eraseIdx hw)⟩
    exact hleft.freeSlot hp hmax hbad hs

end

end LinuxKernel.Swap
