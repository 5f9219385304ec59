import LinuxKernel.BreadPageShare

/-!
# `bread_page` gives every reference back

On each of its ways out the counts of the buffers are what they were, `mem_map` has
changed by the sharing of the page that is returned, and that page has the blocks.
-/

namespace LinuxKernel.BreadPage

variable {s s' s'' : Cache} {bs : ℕ → ℕ} {own x : ℕ}

/-- The cache is consistent, and the caller has a page for `bread_page`. -/
structure Cache.Ready (s : Cache) (bs : ℕ → ℕ) (address own : ℕ) : Prop where
  heads : s.Heads []
  data : s.Data bs own
  zeroed : s.Zeroed address own
  mappable : s.Mappable

/-- How the page that `bread_page` returns is shared with the cache, and `mem_map`
outside the lists of free pages: the page of the caller, not shared or put into the
cache, or a page of the cache for that of the caller, which is free. -/
inductive Sharing (s s' : Cache) (address own r : ℕ) : Prop where
  | caller (hr : r = address) (h : ∀ f, f ∉ s.freePages → s'.memMap f = s.memMap f)
  | loaded (hr : r = address) (h : ∀ f, f ∉ s.freePages →
      s'.memMap f = if f = own then s.memMap f + 1 else s.memMap f)
  | cache (hr : r / pageSize ≠ own) (h : ∀ f, f ∉ s.freePages →
      s'.memMap f =
        if f = r / pageSize then s.memMap f + 1
        else if f = own then s.memMap f - 1
        else s.memMap f)

theorem tryToShareBuffers_spec {address dev r : ℕ} {b : ℕ → ℕ} (hs : s.Ready bs address own)
    (h : s.tryToShareBuffers address dev b (bs dev) = (s', r)) :
    (r = 0 ∧ Step bs own s s' []) ∨
      r ≠ 0 ∧ (∀ y, (s'.head y).count = (s.head y).count) ∧ Sharing s s' address own r ∧
        Filled s s' r dev b (bs dev) := by
  unfold Cache.tryToShareBuffers at h
  by_cases hb : b 0 = 0
  · rw [if_pos hb] at h
    obtain ⟨rfl, rfl⟩ := Prod.mk.inj h
    exact .inl ⟨rfl, Step.refl hs.heads hs.data⟩
  rw [if_neg hb] at h
  unfold Cache.getHashTable at h
  cases hfind : s.findBuffer dev (b 0) (bs dev) with
  | some x =>
    simp only [hfind] at h
    rcases checkAligned_spec hs.heads hs.data hs.zeroed hs.mappable hfind hb h with
      hfail | ⟨h0, hshared⟩
    · exact .inl hfail
    · exact .inr ⟨h0, hshared.count, .cache hshared.other hshared.memMap, hshared.filled⟩
  | none =>
    simp only [hfind] at h
    rcases tryToLoadAligned_spec hs.heads hs.data hs.zeroed h with hfail | ⟨rfl, hloaded⟩
    · exact .inl hfail
    · exact .inr ⟨hs.zeroed.nonzero, hloaded.count, .loaded rfl hloaded.memMap, hloaded.filled⟩

theorem Step.zeroed {address : ℕ} (h : Step bs own s s' []) (hs : s.Data bs own)
    (hown : s.Zeroed address own) : s'.Zeroed address own where
  aligned := hown.aligned
  below := lt_of_lt_of_eq hown.below h.highMemory.symm
  nonzero := hown.nonzero
  used := by
    rw [h.memMap own (List.nodup_cons.mp hs.pages).1]
    exact hown.used
  zero k hk := by
    rw [h.ownPage _ (hown.div hk)]
    exact hown.zero k hk

theorem breadPage_balanced (s s' : Cache) (bs : ℕ → ℕ) (fuel address own dev r : ℕ) (b : ℕ → ℕ)
    (rw : Bool) (hs : s.Ready bs address own) (hdev : dev ≠ 0)
    (h : s.breadPage fuel address dev b (bs dev) rw = some (s', r)) :
    (∀ y, (s'.head y).count = (s.head y).count) ∧ Sharing s s' address own r ∧
      Filled s s' r dev b (bs dev) := by
  -- the copying path after a step that shares nothing
  have hcopy : ∀ s1, Step bs own s s1 [] → s1.copyPage fuel address dev b (bs dev) = some (s', r) →
      (∀ y, (s'.head y).count = (s.head y).count) ∧ Sharing s s' address own r ∧
        Filled s s' r dev b (bs dev) := by
    intro s1 hstep hrun
    obtain ⟨rfl, hcount, hmap, hfilled⟩ :=
      copyPage_spec hstep.heads hstep.data hdev (hstep.zeroed hs.data hs.zeroed) hrun
    refine ⟨fun y => ?_, .caller rfl fun f hf => ?_, fun hio i hi k hk => ?_⟩
    · rw [hcount, hstep.count, List.count_nil, Nat.add_zero]
    · rw [hmap f fun hin => hf (hstep.pages.subset hin), hstep.memMap f hf]
    · rw [hfilled (by rw [hstep.io]; exact hio) i hi k hk, hstep.content hio dev (b i) k hk]
  unfold Cache.breadPage at h
  cases rw with
  | true => exact hcopy s (Step.refl hs.heads hs.data) h
  | false =>
    cases hshare : s.tryToShareBuffers address dev b (bs dev) with
    | mk s1 page =>
      simp only [hshare, Bool.false_eq_true, if_false] at h
      rcases tryToShareBuffers_spec hs hshare with ⟨rfl, hstep⟩ | ⟨h0, hdone⟩
      · exact hcopy s1 hstep h
      · cases page with
        | zero => exact absurd rfl h0
        | succ page =>
          obtain ⟨rfl, rfl⟩ := h
          exact hdone

/-- Two buffers of 2048 bytes in page 5 for the blocks 1 and 2 of the device 1, and the
page 3 of the caller. -/
def twoBuffers (count : UInt16) (io : ℕ → Bool) : Cache where
  head := fun x =>
    if x = 0 then { blank with data := 20480, size := 2048, dev := 1, blocknr := 1 }
    else if x = 1 then { blank with data := 22528, size := 2048, dev := 1, blocknr := 2 }
    else blank
  hash := [0, 1]
  free := [0, 1]
  unused := []
  heads := 2
  memMap := fun f => if f = 5 then count else if f = 3 then 1 else 0
  highMemory := 0x100000
  pages := []
  secondary := []
  byte := fun _ => 0
  disk := fun _ _ => 7
  io := io
  tick := 0
  growSize := 0

def twoBlocks : ℕ → ℕ := fun i => if i = 0 then 1 else if i = 1 then 2 else 0

theorem twoBuffers_head_zero (count : UInt16) (io : ℕ → Bool) :
    (twoBuffers count io).head 0 =
      { blank with data := 20480, size := 2048, dev := 1, blocknr := 1 } :=
  rfl

theorem twoBuffers_head_one (count : UInt16) (io : ℕ → Bool) :
    (twoBuffers count io).head 1 =
      { blank with data := 22528, size := 2048, dev := 1, blocknr := 2 } :=
  rfl

theorem mem_twoBuffers {count : UInt16} {io : ℕ → Bool} (h : x ∈ (twoBuffers count io).free) :
    x = 0 ∨ x = 1 := by
  simpa [twoBuffers] using h

theorem twoBuffers_ready : (twoBuffers 1 fun _ => true).Ready (fun _ => 2048) 12288 3 where
  heads := by
    refine ⟨by decide, by decide, by decide, fun x hx => ?_⟩
    change 2 ≤ x at hx
    change (if x = 0 then _ else if x = 1 then _ else blank).count = 0
    rw [if_neg (by omega), if_neg (by omega)]
    rfl
  data := by
    refine ⟨by decide, by decide, by decide, by decide, fun x hx hup => ?_, by decide,
      fun x hx y hy hne k hk l hl => ?_, fun x hx k hk => ?_, by decide, by decide⟩
    · have hx' : x ∈ (twoBuffers 1 fun _ => true).free := hx
      rcases mem_twoBuffers hx' with rfl | rfl
      · simp [twoBuffers_head_zero, blank] at hup
      · simp [twoBuffers_head_one, blank] at hup
    · rcases mem_twoBuffers hx with rfl | rfl <;> rcases mem_twoBuffers hy with rfl | rfl
      · exact absurd rfl hne
      · change 20480 + k ≠ 22528 + l
        change k < 2048 at hk
        omega
      · change 22528 + k ≠ 20480 + l
        change l < 2048 at hl
        omega
      · exact absurd rfl hne
    · rcases mem_twoBuffers hx with rfl | rfl
      · change k < 2048 at hk
        change (20480 + k) / 4096 = 20480 / 4096
        omega
      · change k < 2048 at hk
        change (22528 + k) / 4096 = 22528 / 4096
        omega
  zeroed := ⟨rfl, by decide, by decide, by decide, fun _ _ => rfl⟩
  mappable := by
    unfold Cache.Mappable
    decide

/-- `bread_page` shares the page of the cache with the two blocks. -/
theorem breadPage_balanced_twoBuffers :
    ∃ s', (twoBuffers 1 fun _ => true).breadPage 1 12288 1 twoBlocks 2048 false = some (s', 20480) ∧
      s'.memMap 5 = 2 ∧ (∀ y, (s'.head y).count = ((twoBuffers 1 fun _ => true).head y).count) ∧
      Sharing (twoBuffers 1 fun _ => true) s' 12288 3 20480 ∧
      Filled (twoBuffers 1 fun _ => true) s' 20480 1 twoBlocks 2048 := by
  have hpage : ((twoBuffers 1 fun _ => true).breadPage 1 12288 1 twoBlocks 2048 false).map
      (fun r => (r.2, r.1.memMap 5)) = some (20480, 2) := by decide +kernel
  obtain ⟨⟨s', r⟩, hrun, hr⟩ := Option.map_eq_some_iff.mp hpage
  obtain ⟨rfl, hmap⟩ := Prod.mk.inj hr
  exact ⟨s', hrun, hmap, breadPage_balanced _ s' (fun _ => 2048) 1 12288 3 1 _ twoBlocks false
    twoBuffers_ready (by decide) hrun⟩

def noBuffers : Cache :=
  { twoBuffers 0 fun _ => true with
    head := fun _ => blank
    hash := []
    free := []
    heads := 0
    pages := [8, 9] }

/-- The content is missing when a read fails, in the page of the caller and in that of
the cache; `getblk` takes free pages; and a page with 32767 users becomes a reserved
one. -/
theorem breadPage_unbalanced :
    ((twoBuffers 1 fun _ => false).breadPage 9 12288 1 twoBlocks 2048 true).map
      (fun r => (r.2, r.1.byte 12288)) = some (12288, 0) ∧
    ((twoBuffers 1 fun _ => false).breadPage 9 12288 1 twoBlocks 2048 false).map
      (fun r => (r.2, r.1.byte 20480)) = some (20480, 0) ∧
    (twoBuffers 1 fun _ => false).content 1 1 2048 0 = 7 ∧
    (noBuffers.breadPage 9 12288 1 twoBlocks 2048 true).map
      (fun r => (r.1.memMap 8, r.1.memMap 9)) = some (1, 1) ∧
    (noBuffers.memMap 8, noBuffers.memMap 9) = (0, 0) ∧
    ((twoBuffers 0x7fff fun _ => true).breadPage 9 12288 1 (fun i => if i = 0 then 1 else 0)
      2048 false).map (fun r => (r.2, r.1.memMap 5)) = some (12288, 0x8000) := by
  refine ⟨by decide +kernel, by decide +kernel, by decide +kernel, by decide +kernel,
    by decide +kernel, by decide +kernel⟩

end LinuxKernel.BreadPage
