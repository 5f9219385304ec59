import LinuxKernel.SwapSlots

/-!
# Swap devices that are added

`sys_swapon` finds the bounds of the free slots while it scans the first page of the
device.  With it every run of the swap functions keeps the slots right.
-/

namespace LinuxKernel.Swap
open List

variable {bits : ℕ → Bool} {found : Found} {i : ℕ}

open ListUpdate

section

variable {s : SwapTable} {type : ℕ} {p q : SwapInfo}

theorem freeSlots_of_none (hmap : p.swapMap = none) : p.freeSlots = ∅ := by
  unfold SwapInfo.freeSlots
  rw [hmap]

theorem DeviceOk.map_none (h : DeviceOk p) (hflags : p.flags ≠ .writeok) : p.swapMap = none := by
  unfold DeviceOk at h
  split at h
  · rename_i hw
    exact absurd hw hflags
  · exact h.1
  · exact h

theorem deviceOk_fresh (p : SwapInfo) : DeviceOk (fresh p) := by
  refine ⟨rfl, ?_⟩
  intro count hcount
  cases hcount

theorem TableOk.set_not_mapped (h : TableOk s) (hp : s.info[type]? = some p)
    (hflags : p.flags ≠ .writeok) (hq : DeviceOk q) (hmap : q.swapMap = none) :
    TableOk { s with info := s.info.set type q } := by
  have hold := (h.devices p (mem_of_getElem? hp)).map_none hflags
  refine h.set_of_card_eq hp hq (fun hw => absurd hw hflags) ?_
  rw [freeSlots_of_none hold, freeSlots_of_none hmap]

theorem TableOk.swaponStart (h : TableOk s) : TableOk s.swaponStart := by
  unfold SwapTable.swaponStart
  dsimp only
  split
  · exact h
  · split
    · refine ⟨?_, ?_, ?_⟩
      · intro r hr
        rcases mem_append.1 hr with hr | hr
        · exact h.devices r hr
        · rw [mem_singleton.1 hr]
          exact deviceOk_fresh blank
      · rw [map_append, sum_append, h.total]
        simp [freeSlots_of_none, fresh]
      · intro w hw
        obtain ⟨r, hr, hrest⟩ := h.waiting w hw
        refine ⟨r, ?_, hrest⟩
        rw [List.getElem?_append_left (List.getElem?_eq_some_iff.1 hr).1]
        exact hr
    · rename_i hlt
      obtain ⟨p, hp⟩ : ∃ p, s.info[s.info.findIdx fun p => p.flags = .unused]? = some p :=
        ⟨_, List.getElem?_eq_getElem (by omega)⟩
      have hunused : p.flags = .unused := by
        have hget := s.info.findIdx_of_getElem?_eq_some hp
        simpa using hget
      rw [modify_eq_set_of_getElem? _ hp]
      exact h.set_not_mapped hp (by rw [hunused]; decide) (deviceOk_fresh p) rfl

/-- The bits that are set from 1 on and below `i` are those that have been found. -/
structure FoundOk (bits : ℕ → Bool) (found : Found) (i : ℕ) : Prop where
  count_eq : found.count = ((Finset.range i).filter fun o => o ≠ 0 ∧ bits o = true).card
  some_found : found.count ≠ 0 →
    0 < found.lowestBit ∧ found.lowestBit ≤ found.highestBit ∧
      found.highestBit < found.max ∧ found.max ≤ i
  none_found : found.count = 0 → found.lowestBit = 0
  inside : ∀ o, o ≠ 0 → o < i → bits o = true → found.lowestBit ≤ o ∧ (o : ℤ) ≤ found.highestBit

section
variable (h : FoundOk bits found i)
include h

theorem FoundOk.skip (hbit : ¬bits i = true) : FoundOk bits found (i + 1) := by
  refine ⟨?_, ?_, h.none_found, ?_⟩
  · rw [h.count_eq, Finset.range_add_one, Finset.filter_insert, if_neg (fun hb => hbit hb.2)]
  · intro hcount
    obtain ⟨h1, h2, h3, h4⟩ := h.some_found hcount
    exact ⟨h1, h2, h3, by omega⟩
  · intro o ho hlt hset
    rcases Nat.lt_succ_iff_lt_or_eq.1 hlt with hlt | rfl
    · exact h.inside o ho hlt hset
    · exact absurd hset hbit

theorem FoundOk.hit (hi : i ≠ 0) (hbit : bits i = true) :
    FoundOk bits
      { lowestBit := if found.lowestBit = 0 then (i : ℤ) else found.lowestBit
        highestBit := i
        max := i + 1
        count := found.count + 1 } (i + 1) := by
  -- the first bit that is found sets the lowest one, and no other does
  have hlow : (if found.lowestBit = 0 then (i : ℤ) else found.lowestBit) ≤ i ∧
      0 < (if found.lowestBit = 0 then (i : ℤ) else found.lowestBit) := by
    by_cases hcount : found.count = 0
    · rw [if_pos (h.none_found hcount)]
      omega
    · have hfound := h.some_found hcount
      omega
  refine ⟨?_, ?_, ?_, ?_⟩
  · change found.count + 1 = _
    rw [Finset.range_add_one, Finset.filter_insert, if_pos ⟨hi, hbit⟩,
      Finset.card_insert_of_notMem (by simp), ← h.count_eq]
  · intro _
    refine ⟨hlow.2, hlow.1, ?_, le_rfl⟩
    dsimp only
    omega
  · intro hcount
    dsimp only at hcount
    omega
  · intro o ho hlt hset
    dsimp only
    rcases Nat.lt_succ_iff_lt_or_eq.1 hlt with hlt | rfl
    · obtain ⟨hle, hge⟩ := h.inside o ho hlt hset
      refine ⟨?_, by omega⟩
      split
      · -- a bit found before makes the lowest one positive
        have hcount : found.count ≠ 0 := by
          rw [h.count_eq, Finset.card_ne_zero]
          exact ⟨o, by simp [hlt, ho, hset]⟩
        have hfound := h.some_found hcount
        omega
      · exact hle
    · exact ⟨hlow.1, le_rfl⟩

theorem FoundOk.scan (hi : i ≠ 0) (n : ℕ) : FoundOk bits (scan bits found i n) (i + n) := by
  induction n generalizing found i with
  | zero => exact h
  | succ n ih =>
    unfold Swap.scan
    rw [show i + (n + 1) = i + 1 + n by omega]
    split
    · rename_i hbit
      exact ih (h.hit hi hbit) (by omega)
    · rename_i hbit
      exact ih (h.skip hbit) (by omega)

omit h in
theorem foundOk_start (bits : ℕ → Bool) (max : ℕ) : FoundOk bits ⟨0, 0, max, 0⟩ 1 := by
  refine ⟨?_, ?_, fun _ => rfl, ?_⟩
  · symm
    rw [Finset.card_eq_zero, Finset.filter_eq_empty_iff]
    intro o ho hset
    exact hset.1 (by simpa using ho)
  · intro hcount
    exact absurd rfl hcount
  · intro o ho hlt
    omega

theorem FoundOk.count_eq_below_max (hcount : found.count ≠ 0) :
    found.count = ((Finset.range found.max).filter fun o => o ≠ 0 ∧ bits o = true).card := by
  obtain ⟨-, -, hmax, hle⟩ := h.some_found hcount
  rw [h.count_eq]
  congr 1
  ext o
  simp only [Finset.mem_filter, Finset.mem_range]
  constructor
  · rintro ⟨hlt, ho, hset⟩
    have := h.inside o ho hlt hset
    exact ⟨by omega, ho, hset⟩
  · rintro ⟨hlt, ho, hset⟩
    exact ⟨by omega, ho, hset⟩

end

theorem deviceOk_scanned (hflags : p.flags = .used) (hmap : p.swapMap = none)
    (page : ℕ → Bool) : DeviceOk (scanned p page) ∧ (scanned p page).swapMap = none := by
  have hfound := (foundOk_start (fun i => page i && decide (i < 32688)) p.max).scan
    one_ne_zero 32767
  unfold scanned
  dsimp only
  split
  · exact ⟨rfl, rfl⟩
  · rename_i hcount
    refine ⟨?_, hmap⟩
    obtain ⟨h1, h2, h3, h4⟩ := hfound.some_found hcount
    unfold DeviceOk
    rw [hflags]
    refine ⟨hmap, ?_⟩
    intro count hc
    obtain rfl := Option.some.inj hc
    refine ⟨by omega, h1, h2, h3, ?_, ?_⟩
    · intro o ho hlt hset
      exact hfound.inside o ho (by dsimp only at hlt; omega) hset
    · exact hfound.count_eq_below_max hcount

theorem deviceOk_mapped {count : ℕ} (h : ScanOk p count) :
    DeviceOk (mapped p count) ∧ (mapped p count).freeSlots.card = count := by
  have hmap : (mapped p count).swapMap =
      some fun i => if i = 0 then 0x80 else if p.lockmap i then 0 else 0x80 := rfl
  have hfree : ∀ o, (if o = 0 then (0x80 : UInt8) else if p.lockmap o then 0 else 0x80) = 0 ↔
      o ≠ 0 ∧ p.lockmap o = true := by
    intro o
    split
    · simp_all
    · split
      · simp_all
      · simp_all
  refine ⟨DeviceOk.of_writeok rfl hmap ?_, ?_⟩
  · refine ⟨h.max_le, h.low_pos.le, ?_, ?_, h.high_lt, ?_, ?_, rfl⟩
    · exact (h.low_le.trans_lt h.high_lt).le
    · exact h.low_pos.le.trans h.low_le
    · intro o ho hzero
      obtain ⟨hne, hset⟩ := (hfree o).1 hzero
      exact h.inside o hne ho hset
    · intro o hbad hzero
      obtain ⟨hne, hset⟩ := (hfree o).1 hzero
      simp [mapped, hne, hset] at hbad
  · rw [freeSlots_of_map hmap, h.count_eq]
    unfold freeOf
    congr 1
    simp only [Finset.mem_filter, hfree]
    rfl

theorem swapping_eq_some (hp : s.swapping type = some p) :
    s.info[type]? = some p ∧ p.flags = .used := by
  unfold SwapTable.swapping at hp
  rw [Option.filter_eq_some_iff] at hp
  exact ⟨hp.1, by simpa using hp.2⟩

theorem TableOk.step (h : TableOk s) {e : Event} (hok : e.Ok s) {s' : SwapTable}
    (hs : s.step e = some s') : TableOk s' := by
  cases e with
  | get =>
    obtain rfl := Option.some.inj hs
    exact h.getSwapPage
  | duplicate entry =>
    obtain ⟨r, hr, rfl⟩ := Option.map_eq_some_iff.1 hs
    exact h.swapDuplicate hok hr
  | free entry locked => exact h.swapFree hok hs
  | resume n => exact h.resume hs
  | swaponStart =>
    obtain rfl := Option.some.inj hs
    exact h.swaponStart
  | swaponFail type =>
    obtain ⟨p, hp, rfl⟩ := Option.map_eq_some_iff.1 hs
    obtain ⟨hp, hflags⟩ := swapping_eq_some hp
    exact h.set_not_mapped hp (by rw [hflags]; decide) rfl rfl
  | swaponRead type page =>
    obtain ⟨p, hp, hread⟩ := Option.bind_eq_some_iff.1 hs
    obtain ⟨hp, hflags⟩ := swapping_eq_some hp
    have hmap := (h.devices p (mem_of_getElem? hp)).map_none (by rw [hflags]; decide)
    split at hread
    · obtain rfl := Option.some.inj hread
      obtain ⟨hdevice, hnone⟩ := deviceOk_scanned hflags hmap page
      exact h.set_not_mapped hp (by rw [hflags]; decide) hdevice hnone
    · cases hread
  | swaponMap type =>
    obtain ⟨p, hp, hread⟩ := Option.bind_eq_some_iff.1 hs
    obtain ⟨hp, hflags⟩ := swapping_eq_some hp
    obtain ⟨count, hcount, rfl⟩ := Option.map_eq_some_iff.1 hread
    have hdevice := h.devices p (mem_of_getElem? hp)
    have hnone := hdevice.map_none (by rw [hflags]; decide)
    unfold DeviceOk at hdevice
    rw [hflags] at hdevice
    obtain ⟨hmapped, hcard⟩ := deviceOk_mapped (hdevice.2 count hcount)
    refine h.set hp hmapped (fun hw => ?_) ?_
    · rw [hflags] at hw
      cases hw
    · rw [freeSlots_of_none hnone, hcard]
      simp

theorem TableOk.run (h : TableOk s) {events : List Event} (hok : RunOk s events) {s' : SwapTable}
    (hs : s.run events = some s') : TableOk s' := by
  induction events generalizing s with
  | nil =>
    obtain rfl := Option.some.inj hs
    exact h
  | cons e events ih =>
    obtain ⟨next, hnext, hs⟩ := Option.bind_eq_some_iff.1 hs
    exact ih (h.step hok.1 hnext) (hok.2 next hnext) hs

theorem boot_tableOk : TableOk boot := by
  refine ⟨?_, rfl, ?_⟩
  · intro p hp
    cases hp
  · intro w hw
    cases hw

theorem swpEntry_ne_zero {o : ℕ} (type : ℕ) (ho : o ≠ 0) : swpEntry type o ≠ 0 := by
  intro h
  have hshift := (Nat.or_eq_zero_iff.1 h).2
  omega

theorem TableOk.getSwapPage_result (h : TableOk s) :
    (s.getSwapPage.2 ≠ 0 → ∃ type o p map, s.getSwapPage.2 = swpEntry type o ∧
        s.info[type]? = some p ∧ p.flags = .writeok ∧ p.swapMap = some map ∧ o < p.max ∧
        map o = 0 ∧ p.bad o = false) ∧
      (s.getSwapPage.2 = 0 → ∀ p ∈ s.info, p.flags = .writeok → p.freeSlots = ∅) := by
  unfold SwapTable.getSwapPage
  split
  · rename_i hget
    refine ⟨fun hne => absurd rfl hne, ?_⟩
    intro _ p hp hflags
    exact (h.devices p hp).findFree_none (getFrom_none hget p hp) hflags
  · rename_i type o hget
    obtain ⟨p, -, hp, hfind⟩ := getFrom_some hget
    obtain ⟨hflags, map, hmap, hok, hlt, hzero, -⟩ :=
      (h.devices p (mem_of_getElem? hp)).findFree_some hfind
    have hgood : p.bad o = false := by
      by_contra hbad
      exact hok.bad o (by simpa using hbad) hzero
    have hne : o ≠ 0 := by
      rintro rfl
      rw [hok.bad_zero] at hgood
      cases hgood
    refine ⟨fun _ => ⟨type, o, p, map, rfl, hp, hflags, hmap, hlt, hzero, hgood⟩, ?_⟩
    intro hentry
    exact absurd hentry (swpEntry_ne_zero type hne)

/-- After every run of the four functions on any number of devices: the free slots of a
device lie between its bounds, `nr_swap_pages` is their number over all devices,
`get_swap_page` returns a slot that is neither in use nor bad, and it returns 0 only when no
device that it may write to has a free slot. -/
theorem run_slots {events : List Event} (hok : RunOk boot events) {s : SwapTable}
    (hs : boot.run events = some s) :
    (∀ p ∈ s.info, ∀ map, p.swapMap = some map → ∀ o, o < p.max → map o = 0 →
        p.lowestBit ≤ o ∧ (o : ℤ) ≤ p.highestBit) ∧
      s.nrSwapPages = (s.info.map fun p => (p.freeSlots.card : ℤ)).sum ∧
      (s.getSwapPage.2 ≠ 0 → ∃ type o p map, s.getSwapPage.2 = swpEntry type o ∧
        s.info[type]? = some p ∧ p.flags = .writeok ∧ p.swapMap = some map ∧ o < p.max ∧
        map o = 0 ∧ p.bad o = false) ∧
      (s.getSwapPage.2 = 0 → ∀ p ∈ s.info, p.flags = .writeok → p.freeSlots = ∅) := by
  have h := boot_tableOk.run hok hs
  refine ⟨?_, h.total, h.getSwapPage_result⟩
  intro p hp map hmap
  exact ((h.devices p hp).of_map hmap).2.inside

end

def oneSlot (c : UInt8) : SwapTable where
  info := [{
    flags := .writeok
    swapMap := some (Function.update
      (fun i => if i = 0 then 0x80 else if decide (i = 1) && decide (i < 32688) then 0 else 0x80)
      1 c)
    lockmap := fun i => decide (i = 1) && decide (i < 32688)
    bad := fun i => decide (i = 0) || !(decide (i = 1) && decide (i < 32688))
    count := some 1
    pages := 1
    lowestBit := 1
    highestBit := 0
    max := 2 }]
  nrSwapPages := 0
  waiting := []

theorem scan_of_forall_not (h : ∀ j, i ≤ j → bits j = false)
    (found : Found) (n : ℕ) : scan bits found i n = found := by
  induction n generalizing i with
  | zero => rfl
  | succ n ih =>
    unfold scan
    rw [if_neg (by simp [h i le_rfl])]
    exact ih fun j hj => h j (by omega)

theorem scan_oneSlot (n : ℕ) :
    scan (fun i => decide (i = 1) && decide (i < 32688)) ⟨0, 0, 1, 0⟩ 1 (n + 1) = ⟨1, 1, 2, 1⟩ := by
  unfold scan
  rw [if_pos (by decide), scan_of_forall_not (by intro j hj; simp; omega)]
  rfl

theorem scanned_of_scan {p : SwapInfo} {page : ℕ → Bool} {n : ℕ} (hn : n = 32767)
    (h : scan (fun i => page i && decide (i < 32688)) ⟨0, 0, p.max, 0⟩ 1 n = found)
    (hcount : found.count ≠ 0) :
    scanned p page =
      { p with
        lockmap := fun i => page i && decide (i < 32688)
        count := some found.count
        lowestBit := found.lowestBit
        highestBit := found.highestBit
        max := found.max } := by
  rw [hn] at h
  subst h
  exact if_neg hcount

theorem scanned_oneSlot :
    scanned (fresh blank) (fun i => decide (i = 1)) =
      { fresh blank with
        lockmap := fun i => decide (i = 1) && decide (i < 32688)
        count := some 1
        lowestBit := 1
        highestBit := 1
        max := 2 } :=
  scanned_of_scan (p := fresh blank) (by norm_num) (scan_oneSlot 32766) (by decide)

def takeOne : List Event :=
  [.swaponStart, .swaponRead 0 (fun i => decide (i = 1)), .swaponMap 0, .get]

theorem boot_run_takeOne : boot.run takeOne = some (oneSlot 1) := by
  have hstart : boot.step .swaponStart = some { boot with info := [fresh blank] } := rfl
  have hread : ({ boot with info := [fresh blank] } : SwapTable).step
      (.swaponRead 0 fun i => decide (i = 1)) =
        some { boot with info := [scanned (fresh blank) fun i => decide (i = 1)] } := rfl
  unfold takeOne
  simp only [SwapTable.run, hstart, hread, Option.bind_some, scanned_oneSlot]
  rfl

theorem runOk_takeOne : RunOk boot takeOne :=
  ⟨trivial, fun _ _ => ⟨trivial, fun _ _ => ⟨trivial, fun _ _ => ⟨trivial, fun _ _ => trivial⟩⟩⟩⟩

theorem run_slots_takeOne :
    RunOk boot takeOne ∧ boot.run takeOne = some (oneSlot 1) ∧
      (oneSlot 1).nrSwapPages = ((oneSlot 1).info.map fun p => (p.freeSlots.card : ℤ)).sum :=
  ⟨runOk_takeOne, boot_run_takeOne, (run_slots runOk_takeOne boot_run_takeOne).2.1⟩

theorem run_append (s : SwapTable) (events events' : List Event) :
    s.run (events ++ events') = (s.run events).bind fun s' => s'.run events' := by
  induction events generalizing s with
  | nil => rfl
  | cons e events ih =>
    simp only [cons_append, SwapTable.run, Option.bind_assoc, ih]

theorem step_duplicate_oneSlot {c : UInt8} (hc : c ≠ 0) :
    (oneSlot c).step (.duplicate 4096) = some (oneSlot (c + 1)) := by
  have htype : swpType 4096 = 0 := by decide
  have hoffset : swpOffset 4096 = 1 := by decide
  simp [SwapTable.step, SwapTable.swapDuplicate, htype, hoffset, oneSlot, shmSwpType, hc]

theorem run_duplicate_oneSlot {k n : ℕ} (hk : 0 < k) (hn : k + n ≤ 256) :
    (oneSlot (UInt8.ofNat k)).run (List.replicate n (.duplicate 4096)) =
      some (oneSlot (UInt8.ofNat (k + n))) := by
  induction n generalizing k with
  | zero => rfl
  | succ n ih =>
    have hne : UInt8.ofNat k ≠ 0 := by
      intro h
      have hnat := congrArg UInt8.toNat h
      change k % 256 = 0 at hnat
      omega
    have hsucc : UInt8.ofNat k + 1 = UInt8.ofNat (k + 1) := UInt8.ofNat_add k 1 |>.symm
    rw [replicate_succ]
    simp only [SwapTable.run, step_duplicate_oneSlot hne, Option.bind_some, hsucc]
    rw [ih (by omega) (by omega), show k + 1 + n = k + (n + 1) by omega]

/-- After 255 more references the byte of the slot is 0 again: the slot looks free and is
not counted. -/
theorem duplicate_wraps :
    ¬∀ (events : List Event) (s : SwapTable), boot.run events = some s →
      s.nrSwapPages = (s.info.map fun p => (p.freeSlots.card : ℤ)).sum := by
  intro h
  have hrun : boot.run (takeOne ++ List.replicate 255 (.duplicate 4096)) = some (oneSlot 0) := by
    rw [run_append, boot_run_takeOne, Option.bind_some]
    exact run_duplicate_oneSlot (k := 1) one_pos le_rfl
  exact absurd (h _ _ hrun) (by decide)

end LinuxKernel.Swap
