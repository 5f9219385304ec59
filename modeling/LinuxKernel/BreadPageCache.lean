import LinuxKernel.BreadPageHeads

/-!
# What the buffer cache holds

The content of a block is what its buffer has, or the device when there is none or the
buffer is not up to date.  `getblk` and the requests that it makes leave all contents
as they are while no request fails.
-/

namespace LinuxKernel.BreadPage
open List

variable {s s' s'' : Cache} {bs : ℕ → ℕ} {own x : ℕ}

def Cache.value (s : Cache) (x k : ℕ) : UInt8 :=
  if (s.head x).uptodate then s.byte ((s.head x).data + k)
  else s.disk (s.head x).dev ((s.head x).blocknr * (s.head x).size + k)

def Cache.content (s : Cache) (dev block size k : ℕ) : UInt8 :=
  match s.findBuffer dev block size with
  | some x => s.value x k
  | none => s.disk dev (block * size + k)

/-- The cache is consistent: `bs` gives the block size of every device, and the page
`own` is not in the cache. -/
structure Cache.Data (s : Cache) (bs : ℕ → ℕ) (own : ℕ) : Prop where
  hashed : ∀ x ∈ s.hash, x ∈ s.free
  nodup : s.hash.Nodup
  sizes : ∀ x ∈ s.hash, (s.head x).size = bs (s.head x).dev
  unique : ∀ x ∈ s.hash, ∀ y ∈ s.hash, (s.head x).dev = (s.head y).dev →
    (s.head x).blocknr = (s.head y).blocknr → x = y
  clean : ∀ x ∈ s.hash, (s.head x).uptodate = true → (s.head x).dirt = false →
    ∀ k < (s.head x).size, s.byte ((s.head x).data + k) =
      s.disk (s.head x).dev ((s.head x).blocknr * (s.head x).size + k)
  dirty : ∀ x ∈ s.free, (s.head x).dirt = true → x ∈ s.hash ∧ (s.head x).uptodate = true
  apart : ∀ x ∈ s.free, ∀ y ∈ s.free, x ≠ y → ∀ k < (s.head x).size, ∀ l < (s.head y).size,
    (s.head x).data + k ≠ (s.head y).data + l
  inPage : ∀ x ∈ s.free, ∀ k < (s.head x).size,
    ((s.head x).data + k) / pageSize = (s.head x).data / pageSize
  page : ∀ x ∈ s.free, (s.head x).data / pageSize ∉ own :: s.freePages
  pages : (own :: s.freePages).Nodup

/-! ## Contents -/

theorem findBuffer_some {dev block size : ℕ} (h : s.findBuffer dev block size = some x) :
    x ∈ s.hash ∧ (s.head x).dev = dev ∧ (s.head x).blocknr = block ∧ (s.head x).size = size := by
  unfold Cache.findBuffer at h
  split at h
  · simp at h
  next y hfind =>
    split at h
    next hsize =>
      obtain rfl := Option.some.inj h
      have hkey := List.find?_some hfind
      simp only [decide_eq_true_eq] at hkey
      exact ⟨mem_of_find?_eq_some hfind, hkey.1, hkey.2, hsize⟩
    next => simp at h

theorem Cache.Data.findBuffer_of_mem (hs : s.Data bs own) (hx : x ∈ s.hash) :
    s.findBuffer (s.head x).dev (s.head x).blocknr (bs (s.head x).dev) = some x := by
  unfold Cache.findBuffer
  cases hfind : s.hash.find? fun y =>
      (s.head y).dev = (s.head x).dev ∧ (s.head y).blocknr = (s.head x).blocknr with
  | none =>
    have hnone := List.find?_eq_none.mp hfind x hx
    simp at hnone
  | some y =>
    have hkey := List.find?_some hfind
    simp only [decide_eq_true_eq] at hkey
    have hsame := hs.unique y (mem_of_find?_eq_some hfind) x hx hkey.1 hkey.2
    subst hsame
    exact if_pos (hs.sizes y hx)

theorem Cache.Data.content_of_mem (hs : s.Data bs own) (hx : x ∈ s.hash) (k : ℕ) :
    s.content (s.head x).dev (s.head x).blocknr (bs (s.head x).dev) k = s.value x k := by
  unfold Cache.content
  rw [hs.findBuffer_of_mem hx]

def Cache.Absent (s : Cache) (dev block : ℕ) : Prop :=
  ∀ x ∈ s.hash, ¬((s.head x).dev = dev ∧ (s.head x).blocknr = block)

theorem findBuffer_of_absent {dev block : ℕ} (h : s.Absent dev block) (size : ℕ) :
    s.findBuffer dev block size = none := by
  unfold Cache.findBuffer
  have hfind :
      s.hash.find? (fun y => (s.head y).dev = dev ∧ (s.head y).blocknr = block) = none := by
    refine List.find?_eq_none.mpr fun y hy => ?_
    simpa using h y hy
  rw [hfind]

theorem Cache.Data.absent_of_findBuffer (hs : s.Data bs own) {dev block : ℕ}
    (h : s.findBuffer dev block (bs dev) = none) : s.Absent dev block := by
  rintro x hx ⟨rfl, rfl⟩
  rw [hs.findBuffer_of_mem hx] at h
  simp at h

theorem content_of_absent {dev block : ℕ} (h : s.Absent dev block) (size k : ℕ) :
    s.content dev block size k = s.disk dev (block * size + k) := by
  unfold Cache.content
  rw [findBuffer_of_absent h]

theorem Cache.Data.content_eq (hs : s.Data bs own) (hs' : s'.Data bs own)
    (hold : ∀ x ∈ s.hash,
      (x ∈ s'.hash ∧ (s'.head x).dev = (s.head x).dev ∧ (s'.head x).blocknr = (s.head x).blocknr ∧
        ∀ k < bs (s.head x).dev, s'.value x k = s.value x k) ∨
      s'.Absent (s.head x).dev (s.head x).blocknr ∧
        ∀ k < bs (s.head x).dev,
          s'.disk (s.head x).dev ((s.head x).blocknr * bs (s.head x).dev + k) = s.value x k)
    (hnew : ∀ x ∈ s'.hash,
      (x ∈ s.hash ∧ (s'.head x).dev = (s.head x).dev ∧ (s'.head x).blocknr = (s.head x).blocknr) ∨
      ∀ k < bs (s'.head x).dev, s'.value x k =
        s'.disk (s'.head x).dev ((s'.head x).blocknr * bs (s'.head x).dev + k))
    (hdisk : ∀ dev block, s.Absent dev block → ∀ k < bs dev,
      s'.disk dev (block * bs dev + k) = s.disk dev (block * bs dev + k))
    (dev block k : ℕ) (hk : k < bs dev) :
    s'.content dev block (bs dev) k = s.content dev block (bs dev) k := by
  by_cases h : s.Absent dev block
  · rw [content_of_absent h, ← hdisk dev block h k hk]
    by_cases h' : s'.Absent dev block
    · rw [content_of_absent h']
    · unfold Cache.Absent at h'
      push Not at h'
      obtain ⟨x, hx, rfl, rfl⟩ := h'
      rw [hs'.content_of_mem hx]
      rcases hnew x hx with ⟨hx', hdev, hblock⟩ | hvalue
      · exact absurd ⟨hdev.symm, hblock.symm⟩ (h x hx')
      · exact hvalue k hk
  · unfold Cache.Absent at h
    push Not at h
    obtain ⟨x, hx, rfl, rfl⟩ := h
    rw [hs.content_of_mem hx]
    rcases hold x hx with ⟨hx', hdev, hblock, hvalue⟩ | ⟨hgone, hvalue⟩
    · rw [← hdev, ← hblock, hs'.content_of_mem hx', hvalue k hk]
    · rw [content_of_absent hgone, hvalue k hk]

structure Step (bs : ℕ → ℕ) (own : ℕ) (s s' : Cache) (l : List ℕ) : Prop where
  heads : s'.Heads []
  data : s'.Data bs own
  count : ∀ x, (s'.head x).count = (s.head x).count + l.count x
  content : (∀ n, s.io n = true) → ∀ dev block k, k < bs dev →
    s'.content dev block (bs dev) k = s.content dev block (bs dev) k
  held : ∀ x ∈ s.hash, (s.head x).count ≠ 0 → x ∈ s'.hash ∧ (s'.head x).data = (s.head x).data ∧
    (s'.head x).dev = (s.head x).dev ∧ (s'.head x).blocknr = (s.head x).blocknr
  ownPage : ∀ a, a / pageSize = own → s'.byte a = s.byte a
  io : s'.io = s.io
  highMemory : s'.highMemory = s.highMemory
  memMap : ∀ f, f ∉ s.freePages → s'.memMap f = s.memMap f
  pages : s'.freePages <:+ s.freePages

theorem Step.refl (hheads : s.Heads []) (hdata : s.Data bs own) : Step bs own s s [] where
  heads := hheads
  data := hdata
  count x := by simp
  content _ _ _ _ _ := rfl
  held x hx _ := ⟨hx, rfl, rfl, rfl⟩
  ownPage _ _ := rfl
  io := rfl
  highMemory := rfl
  memMap _ _ := rfl
  pages := suffix_refl _

theorem Step.trans {l l' : List ℕ} (h : Step bs own s s' l) (h' : Step bs own s' s'' l') :
    Step bs own s s'' (l ++ l') where
  heads := h'.heads
  data := h'.data
  count x := by rw [h'.count, h.count, count_append, add_assoc]
  content hio dev block k hk := by
    rw [h'.content (by rw [h.io]; exact hio) dev block k hk, h.content hio dev block k hk]
  held x hx hcount := by
    obtain ⟨hx', hdata, hdev, hblock⟩ := h.held x hx hcount
    have hcount' : (s'.head x).count ≠ 0 := by
      rw [h.count]
      omega
    obtain ⟨hx'', hdata', hdev', hblock'⟩ := h'.held x hx' hcount'
    exact ⟨hx'', hdata'.trans hdata, hdev'.trans hdev, hblock'.trans hblock⟩
  ownPage a ha := (h'.ownPage a ha).trans (h.ownPage a ha)
  io := h'.io.trans h.io
  highMemory := h'.highMemory.trans h.highMemory
  memMap f hf := (h'.memMap f fun hin => hf (h.pages.subset hin)).trans (h.memMap f hf)
  pages := h'.pages.trans h.pages

/-! ## Counts and the order of the free list -/

/-- The buffers are the same up to their counts, the order of the free list and pages
that are no longer free. -/
structure SameView (s s' : Cache) : Prop where
  free : ∀ x, x ∈ s'.free ↔ x ∈ s.free
  head : ∀ x ∈ s.free, { s'.head x with count := (s.head x).count } = s.head x
  hash : s'.hash = s.hash
  byte : s'.byte = s.byte
  disk : s'.disk = s.disk
  pages : s'.freePages <:+ s.freePages

section SameView

variable (h : SameView s s')
include h

section
variable (hx : x ∈ s.free)
include hx

theorem SameView.data : (s'.head x).data = (s.head x).data := by
  rw [← h.head x hx]

theorem SameView.size : (s'.head x).size = (s.head x).size := by
  rw [← h.head x hx]

theorem SameView.dev : (s'.head x).dev = (s.head x).dev := by
  rw [← h.head x hx]

theorem SameView.blocknr : (s'.head x).blocknr = (s.head x).blocknr := by
  rw [← h.head x hx]

theorem SameView.uptodate : (s'.head x).uptodate = (s.head x).uptodate := by
  rw [← h.head x hx]

theorem SameView.dirt : (s'.head x).dirt = (s.head x).dirt := by
  rw [← h.head x hx]

theorem SameView.value (k : ℕ) : s'.value x k = s.value x k := by
  unfold Cache.value
  rw [h.uptodate hx, h.data hx, h.dev hx, h.blocknr hx, h.size hx, h.byte, h.disk]

end

theorem SameView.toData (hs : s.Data bs own) : s'.Data bs own where
  hashed x hx := by
    rw [h.free]
    exact hs.hashed x (h.hash ▸ hx)
  nodup := by
    rw [h.hash]
    exact hs.nodup
  sizes x hx := by
    rw [h.hash] at hx
    rw [h.size (hs.hashed x hx), h.dev (hs.hashed x hx)]
    exact hs.sizes x hx
  unique x hx y hy hdev hblock := by
    rw [h.hash] at hx hy
    rw [h.dev (hs.hashed x hx), h.dev (hs.hashed y hy)] at hdev
    rw [h.blocknr (hs.hashed x hx), h.blocknr (hs.hashed y hy)] at hblock
    exact hs.unique x hx y hy hdev hblock
  clean x hx hup hdirt k hk := by
    rw [h.hash] at hx
    have hfree := hs.hashed x hx
    rw [h.uptodate hfree] at hup
    rw [h.dirt hfree] at hdirt
    rw [h.size hfree] at hk ⊢
    rw [h.byte, h.disk, h.data hfree, h.dev hfree, h.blocknr hfree]
    exact hs.clean x hx hup hdirt k hk
  dirty x hx hdirt := by
    rw [h.free] at hx
    rw [h.dirt hx] at hdirt
    rw [h.hash, h.uptodate hx]
    exact hs.dirty x hx hdirt
  apart x hx y hy hne k hk l hl := by
    rw [h.free] at hx hy
    rw [h.size hx] at hk
    rw [h.size hy] at hl
    rw [h.data hx, h.data hy]
    exact hs.apart x hx y hy hne k hk l hl
  inPage x hx k hk := by
    rw [h.free] at hx
    rw [h.size hx] at hk
    rw [h.data hx]
    exact hs.inPage x hx k hk
  page x hx := by
    rw [h.free] at hx
    rw [h.data hx]
    exact fun hin => hs.page x hx (cons_subset_cons own h.pages.subset hin)
  pages := (List.Sublist.cons_cons own h.pages.sublist).nodup hs.pages

theorem SameView.content (hs : s.Data bs own) (dev block k : ℕ) (hk : k < bs dev) :
    s'.content dev block (bs dev) k = s.content dev block (bs dev) k := by
  refine hs.content_eq (h.toData hs) (fun x hx => .inl ?_) (fun x hx => .inl ?_) ?_ dev block k hk
  · have hfree := hs.hashed x hx
    refine ⟨by rw [h.hash]; exact hx, h.dev hfree, h.blocknr hfree, fun k _ => h.value hfree k⟩
  · rw [h.hash] at hx
    exact ⟨hx, h.dev (hs.hashed x hx), h.blocknr (hs.hashed x hx)⟩
  · intro dev block _ k _
    rw [h.disk]

end SameView

theorem Step.of_view {l : List ℕ} (hs : s.Data bs own) (h : SameView s s') (hheads : s'.Heads [])
    (hcount : ∀ x, (s'.head x).count = (s.head x).count + l.count x) (hio : s'.io = s.io)
    (hhigh : s'.highMemory = s.highMemory)
    (hmap : ∀ f, f ∉ s.freePages → s'.memMap f = s.memMap f) : Step bs own s s' l where
  heads := hheads
  data := h.toData hs
  count := hcount
  content _ := h.content hs
  held x hx _ := by
    have hfree := hs.hashed x hx
    exact ⟨by rw [h.hash]; exact hx, h.data hfree, h.dev hfree, h.blocknr hfree⟩
  ownPage a _ := by rw [h.byte]
  io := hio
  highMemory := hhigh
  memMap := hmap
  pages := h.pages

theorem setHead_count_view {n : ℕ} : SameView s (s.setHead x { s.head x with count := n }) where
  free _ := Iff.rfl
  head y _ := by
    by_cases hy : y = x
    · rw [hy, setHead_self]
    · rw [setHead_of_ne hy]
  hash := rfl
  byte := rfl
  disk := rfl
  pages := suffix_refl _

theorem hold_step (hheads : s.Heads []) (hs : s.Data bs own) (hx : x ∈ s.free) :
    Step bs own s (s.hold x) [x] := by
  refine .of_view hs setHead_count_view (hheads.setFree hx _) (fun y => ?_) rfl rfl fun _ _ => rfl
  unfold Cache.hold
  by_cases hy : y = x
  · rw [hy, setHead_self, count_singleton_self]
  · rw [setHead_of_ne hy, count_singleton, if_neg (by simpa using Ne.symm hy), add_zero]

theorem putLastFree_step (hheads : s.Heads []) (hs : s.Data bs own) (hx : x ∈ s.free) :
    Step bs own s (s.putLastFree x) [] := by
  have hperm : (s.free.erase x ++ [x]).Perm s.free :=
    perm_append_comm.trans (perm_cons_erase hx).symm
  have hview : SameView s (s.putLastFree x) :=
    ⟨fun y => hperm.mem_iff, fun _ _ => rfl, rfl, rfl, rfl, suffix_refl _⟩
  exact .of_view hs hview (hheads.permFree hperm) (fun y => by simp [Cache.putLastFree]) rfl rfl
    fun _ _ => rfl

/-! ## New buffers -/

theorem Alloc.step (hs : s.Data bs own) (h : Alloc s s') (hheads : s'.Heads [])
    (hfree : s'.free = s.free) : Step bs own s s' [] := by
  have hview : SameView s s' := by
    refine ⟨fun y => by rw [hfree], fun y hy => ?_, h.hash, h.byte, h.disk, h.pages⟩
    rw [h.head y hy]
  exact .of_view hs hview hheads (fun y => by rw [h.count]; simp) h.io h.highMemory h.memMap

theorem Grown.place {size page : ℕ} {bh : List ℕ} (hgrown : Grown s s' size page bh) (hx : x ∈ bh) :
    ∃ i, bh[i]? = some x ∧ (s'.head x).data = page * pageSize + i * size ∧
      (s'.head x).size = size ∧ i * size + size ≤ pageSize := by
  obtain ⟨i, hi⟩ := mem_iff_getElem?.mp hx
  obtain ⟨hdata, hsize⟩ := hgrown.split i x hi
  have hlt : i + 1 ≤ pageSize / size := by
    rw [← hgrown.length]
    exact (List.getElem?_eq_some_iff.mp hi).1
  refine ⟨i, hi, by rw [hdata, Nat.zero_add], hsize, ?_⟩
  calc i * size + size = (i + 1) * size := by ring
    _ ≤ pageSize / size * size := Nat.mul_le_mul_right _ hlt
    _ ≤ pageSize := Nat.div_mul_le_self _ _

theorem slices_ne {i j k l size : ℕ} (hij : i ≠ j) (hk : k < size) (hl : l < size) :
    i * size + k ≠ j * size + l := by
  rcases Nat.lt_or_gt_of_ne hij with h | h
  · have hle : (i + 1) * size ≤ j * size := Nat.mul_le_mul_right _ h
    rw [Nat.add_mul] at hle
    omega
  · have hle : (j + 1) * size ≤ i * size := Nat.mul_le_mul_right _ h
    rw [Nat.add_mul] at hle
    omega

theorem div_pageSize {page k : ℕ} (hk : k < pageSize) :
    (page * pageSize + k) / pageSize = page := by
  rw [Nat.mul_comm, Nat.mul_add_div (by decide), Nat.div_eq_of_lt hk, Nat.add_zero]

theorem Grown.toData {size page : ℕ} {bh : List ℕ} (hs : s.Data bs own) (h : Alloc s s')
    (hgrown : Grown s s' size page bh) : s'.Data bs own := by
  have hmem : ∀ y, y ∈ s'.free → y ∈ bh ∨ y ∈ s.free := by
    intro y hy
    rw [hgrown.free, mem_append, mem_reverse] at hy
    exact hy
  have hpages : page ∉ s'.freePages := hgrown.page_taken (nodup_cons.mp hs.pages).2
  -- the new buffers are in a page of their own
  have hnewPage : ∀ y ∈ bh, ∀ k < (s'.head y).size, ((s'.head y).data + k) / pageSize = page := by
    intro y hy k hk
    obtain ⟨i, -, hdata, hsize, hle⟩ := hgrown.place hy
    rw [hdata, Nat.add_assoc]
    exact div_pageSize (by omega)
  have holdPage : ∀ y ∈ s.free, ∀ k < (s.head y).size, ((s.head y).data + k) / pageSize ≠ page := by
    intro y hy k hk hsame
    rw [hs.inPage y hy k hk] at hsame
    exact hs.page y hy (mem_cons_of_mem _ (hsame ▸ hgrown.page_mem))
  constructor
  · intro y hy
    rw [h.hash] at hy
    exact h.free y (hs.hashed y hy)
  · rw [h.hash]
    exact hs.nodup
  · intro y hy
    rw [h.hash] at hy
    rw [h.head y (hs.hashed y hy)]
    exact hs.sizes y hy
  · intro y hy z hz
    rw [h.hash] at hy hz
    rw [h.head y (hs.hashed y hy), h.head z (hs.hashed z hz)]
    exact hs.unique y hy z hz
  · intro y hy
    rw [h.hash] at hy
    rw [h.head y (hs.hashed y hy), h.byte, h.disk]
    exact hs.clean y hy
  · intro y hy hdirt
    rcases hmem y hy with hnew | hold
    · rw [hgrown.dirt y hnew] at hdirt
      exact absurd hdirt (by decide)
    · rw [h.head y hold] at hdirt ⊢
      rw [h.hash]
      exact hs.dirty y hold hdirt
  · intro y hy z hz hne k hk l hl hsame
    rcases hmem y hy with hnewY | holdY
    · rcases hmem z hz with hnewZ | holdZ
      · obtain ⟨i, hi, hdataY, hsizeY, -⟩ := hgrown.place hnewY
        obtain ⟨j, hj, hdataZ, hsizeZ, -⟩ := hgrown.place hnewZ
        have hij : i ≠ j := by
          rintro rfl
          exact hne (Option.some.inj (hi.symm.trans hj))
        rw [hsizeY] at hk
        rw [hsizeZ] at hl
        rw [hdataY, hdataZ, Nat.add_assoc, Nat.add_assoc] at hsame
        exact slices_ne hij hk hl (Nat.add_left_cancel hsame)
      · have hpageY := hnewPage y hnewY k hk
        rw [h.head z holdZ] at hl hsame
        rw [hsame] at hpageY
        exact holdPage z holdZ l hl hpageY
    · rcases hmem z hz with hnewZ | holdZ
      · have hpageZ := hnewPage z hnewZ l hl
        rw [h.head y holdY] at hk hsame
        rw [← hsame] at hpageZ
        exact holdPage y holdY k hk hpageZ
      · rw [h.head y holdY] at hk hsame
        rw [h.head z holdZ] at hl hsame
        exact hs.apart y holdY z holdZ hne k hk l hl hsame
  · intro y hy k hk
    rcases hmem y hy with hnew | hold
    · have hzero := hnewPage y hnew 0 (by omega)
      rw [Nat.add_zero] at hzero
      rw [hnewPage y hnew k hk, hzero]
    · rw [h.head y hold] at hk ⊢
      exact hs.inPage y hold k hk
  · intro y hy
    rcases hmem y hy with hnew | hold
    · obtain ⟨i, -, hdata, -, hle⟩ := hgrown.place hnew
      have hlt : i * size < pageSize := by
        rcases Nat.eq_zero_or_pos size with h0 | hpos
        · rw [h0, Nat.mul_zero]
          decide
        · omega
      rw [hdata, div_pageSize hlt, mem_cons]
      rintro (hown | hstill)
      · exact (nodup_cons.mp hs.pages).1 (hown ▸ hgrown.page_mem)
      · exact hpages hstill
    · rw [h.head y hold]
      exact fun hin => hs.page y hold (cons_subset_cons own h.pages.subset hin)
  · exact (List.Sublist.cons_cons own h.pages.sublist).nodup hs.pages

theorem Grown.step {size page : ℕ} {bh : List ℕ} (hs : s.Data bs own) (h : Alloc s s')
    (hheads : s'.Heads []) (hgrown : Grown s s' size page bh) : Step bs own s s' [] := by
  have hdata := hgrown.toData hs h
  refine ⟨hheads, hdata, fun y => by rw [h.count]; simp, fun _ => ?_, fun y hy _ => ?_,
    fun a _ => by rw [h.byte], h.io, h.highMemory, h.memMap, h.pages⟩
  · refine hs.content_eq hdata (fun y hy => .inl ?_) (fun y hy => .inl ?_) fun _ _ _ _ _ => by
      rw [h.disk]
    · unfold Cache.value
      rw [h.hash, h.head y (hs.hashed y hy), h.byte, h.disk]
      exact ⟨hy, rfl, rfl, fun _ _ => rfl⟩
    · rw [h.hash] at hy
      rw [h.head y (hs.hashed y hy)]
      exact ⟨hy, rfl, rfl⟩
  · rw [h.hash, h.head y (hs.hashed y hy)]
    exact ⟨hy, rfl, rfl, rfl⟩

section
variable (hheads : s.Heads []) (hs : s.Data bs own)
include hheads hs

theorem growBuffers_step {atomic ok : Bool} {size : ℕ} (h : s.growBuffers atomic size = (s', ok)) :
    Step bs own s s' [] := by
  obtain ⟨halloc, hheads', hfree | ⟨page, bh, hgrown⟩⟩ := growBuffers_spec hheads h
  · exact halloc.step hs hheads' hfree
  · exact hgrown.step hs halloc hheads'

omit hheads hs in
theorem Step.setGrowSize {l : List ℕ} (h : Step bs own s s' l) (n : ℤ) :
    Step bs own s { s' with growSize := n } l where
  heads := ⟨h.heads.nodup, h.heads.made, h.heads.idle, h.heads.fresh⟩
  data := (⟨fun _ => Iff.rfl, fun _ _ => rfl, rfl, rfl, rfl, suffix_refl _⟩ :
    SameView s' { s' with growSize := n }).toData h.data
  count := h.count
  content := h.content
  held := h.held
  ownPage := h.ownPage
  io := h.io
  highMemory := h.highMemory
  memMap := h.memMap
  pages := h.pages

theorem growEarly_step (size : ℕ) : Step bs own s (s.growEarly size) [] := by
  have hless := (Step.refl hheads hs).setGrowSize (s.growSize - size)
  unfold Cache.growEarly
  simp only
  split
  · cases hgrow : { s with growSize := s.growSize - size }.growBuffers false size with
    | mk s1 ok =>
      have hstep := hless.trans (growBuffers_step hless.heads hless.data hgrow)
      cases ok with
      | true => exact hstep.setGrowSize pageSize
      | false => exact hstep
  · exact hless

theorem growLate_step (size : ℕ) : Step bs own s (s.growLate size) [] := by
  have hatomic : ∀ s : Cache, s.Heads [] → s.Data bs own →
      Step bs own s (s.growBuffers true size).1 [] := fun s hheads hs =>
    growBuffers_step hheads hs (Prod.mk.eta (p := s.growBuffers true size)).symm
  unfold Cache.growLate
  split
  · cases hgrow : s.growBuffers false size with
    | mk s1 ok =>
      have hstep := growBuffers_step hheads hs hgrow
      cases ok with
      | true => exact hstep
      | false => exact hstep.trans (hatomic s1 hstep.heads hstep.data)
  · exact hatomic s hheads hs

end

/-! ## Requests -/

def Cache.finish (s : Cache) (x : ℕ) (up : Bool) (byte : ℕ → UInt8) (disk : ℕ → ℕ → UInt8) :
    Cache :=
  { s.setHead x { s.head x with uptodate := up, dirt := false } with
    tick := s.tick + 1
    byte := byte
    disk := disk }

section Finish

variable {up : Bool} {byte : ℕ → UInt8} {disk : ℕ → ℕ → UInt8}

theorem finish_head_self : (s.finish x up byte disk).head x =
    { s.head x with uptodate := up, dirt := false } :=
  setHead_self ..

theorem finish_head_of_ne {y : ℕ} (h : y ≠ x) : (s.finish x up byte disk).head y = s.head y :=
  setHead_of_ne h ..

theorem finish_head (y : ℕ) :
    (s.finish x up byte disk).head y =
      { s.head y with
        uptodate := if y = x then up else (s.head y).uptodate
        dirt := if y = x then false else (s.head y).dirt } := by
  by_cases hy : y = x
  · rw [hy, finish_head_self, if_pos rfl, if_pos rfl]
  · rw [finish_head_of_ne hy, if_neg hy, if_neg hy]

theorem finish_data (hs : s.Data bs own) (hx : x ∈ s.hash)
    (hbyte : ∀ y ∈ s.free, y ≠ x → ∀ k < (s.head y).size,
      byte ((s.head y).data + k) = s.byte ((s.head y).data + k))
    (hdisk : ∀ y ∈ s.hash, y ≠ x → ∀ k < (s.head y).size,
      disk (s.head y).dev ((s.head y).blocknr * (s.head y).size + k) =
        s.disk (s.head y).dev ((s.head y).blocknr * (s.head y).size + k))
    (hself : up = true → ∀ k < (s.head x).size, byte ((s.head x).data + k) =
      disk (s.head x).dev ((s.head x).blocknr * (s.head x).size + k)) :
    (s.finish x up byte disk).Data bs own := by
  constructor
  · exact hs.hashed
  · exact hs.nodup
  · simp only [finish_head]
    exact hs.sizes
  · simp only [finish_head]
    exact hs.unique
  · intro y hy hup hdirt k hk
    simp only [finish_head] at hup hdirt hk ⊢
    change byte _ = disk _ _
    by_cases hyx : y = x
    · subst hyx
      rw [if_pos rfl] at hup
      exact hself hup k hk
    · rw [if_neg hyx] at hup hdirt
      rw [hbyte y (hs.hashed y hy) hyx k hk, hdisk y hy hyx k hk]
      exact hs.clean y hy hup hdirt k hk
  · intro y hy hdirt
    simp only [finish_head] at hdirt ⊢
    by_cases hyx : y = x
    · simp [hyx] at hdirt
    · rw [if_neg hyx] at hdirt ⊢
      exact hs.dirty y hy hdirt
  · simp only [finish_head]
    exact hs.apart
  · simp only [finish_head]
    exact hs.inPage
  · simp only [finish_head]
    exact hs.page
  · exact hs.pages

theorem finish_step (hheads : s.Heads []) (hs : s.Data bs own) (hx : x ∈ s.hash)
    (hbyte : ∀ y ∈ s.free, y ≠ x → ∀ k < (s.head y).size,
      byte ((s.head y).data + k) = s.byte ((s.head y).data + k))
    (hdisk : ∀ y ∈ s.hash, y ≠ x → ∀ k < (s.head y).size,
      disk (s.head y).dev ((s.head y).blocknr * (s.head y).size + k) =
        s.disk (s.head y).dev ((s.head y).blocknr * (s.head y).size + k))
    (hself : up = true → ∀ k < (s.head x).size, byte ((s.head x).data + k) =
      disk (s.head x).dev ((s.head x).blocknr * (s.head x).size + k))
    (hown : ∀ a, a / pageSize = own → byte a = s.byte a)
    (hvalue : (∀ n, s.io n = true) → ∀ k < (s.head x).size,
      (s.finish x up byte disk).value x k = s.value x k)
    (habsent : ∀ dev block, s.Absent dev block → ∀ k < bs dev,
      disk dev (block * bs dev + k) = s.disk dev (block * bs dev + k)) :
    Step bs own s (s.finish x up byte disk) [] := by
  have hdata := finish_data hs hx hbyte hdisk hself
  have hheads' := hheads.setFree (hs.hashed x hx) { s.head x with uptodate := up, dirt := false }
  refine ⟨⟨hheads'.nodup, hheads'.made, hheads'.idle, hheads'.fresh⟩, hdata, fun y => ?_,
    fun hio => ?_, fun y hy _ => ?_, hown, rfl, rfl, fun _ _ => rfl, suffix_refl _⟩
  · simp [finish_head]
  · refine hs.content_eq hdata (fun y hy => .inl ⟨hy, ?_, ?_, fun k hk => ?_⟩)
      (fun y hy => .inl ⟨hy, ?_, ?_⟩) habsent
    · simp [finish_head]
    · simp [finish_head]
    · rw [← hs.sizes y hy] at hk
      by_cases hyx : y = x
      · subst hyx
        exact hvalue hio k hk
      · unfold Cache.value
        rw [finish_head_of_ne hyx]
        change (if _ then byte _ else disk _ _) = _
        rw [hbyte y (hs.hashed y hy) hyx k hk, hdisk y hy hyx k hk]
    · simp [finish_head]
    · simp [finish_head]
  · simp only [finish_head]
    exact ⟨hy, trivial, trivial, trivial⟩

end Finish

section
variable (hheads : s.Heads []) (hs : s.Data bs own)
include hheads hs

theorem readBlock_step (hx : x ∈ s.hash) : Step bs own s (s.readBlock x) [] := by
  have hfree := hs.hashed x hx
  unfold Cache.readBlock
  simp only
  cases hup : (s.head x).uptodate with
  | true => exact Step.refl hheads hs
  | false =>
    have hvalue : ∀ k, s.value x k =
        s.disk (s.head x).dev ((s.head x).blocknr * (s.head x).size + k) := by
      intro k
      simp [Cache.value, hup]
    by_cases hio : s.io s.tick = true
    · rw [if_pos hio]
      refine finish_step hheads hs hx (fun y hy hyx k hk => if_neg fun hin => ?_)
        (fun _ _ _ _ _ => rfl) (fun _ k hk => ?_) (fun a ha => if_neg fun hin => ?_)
        (fun _ k hk => ?_) fun _ _ _ _ _ => rfl
      · have hmeet := hs.apart y hy x hfree hyx k hk ((s.head y).data + k - (s.head x).data)
        omega
      · rw [if_pos ⟨by omega, by omega⟩, Nat.add_sub_cancel_left]
        rfl
      · have hpage := hs.inPage x hfree (a - (s.head x).data) (by omega)
        rw [Nat.add_sub_cancel' hin.1, ha] at hpage
        exact hs.page x hfree (by rw [← hpage]; exact mem_cons_self)
      · rw [hvalue]
        unfold Cache.value
        rw [finish_head_self]
        simp only [if_true]
        change (if _ then _ else _) = _
        rw [if_pos ⟨by omega, by omega⟩, Nat.add_sub_cancel_left]
    · rw [if_neg hio]
      refine finish_step hheads hs hx (fun _ _ _ _ _ => rfl) (fun _ _ _ _ _ => rfl) (by simp)
        (fun _ _ => rfl) (fun _ k _ => ?_) fun _ _ _ _ _ => rfl
      rw [hvalue]
      unfold Cache.value
      rw [finish_head_self]
      rfl

theorem writeBlock_step (hx : x ∈ s.free) : Step bs own s (s.writeBlock x) [] := by
  unfold Cache.writeBlock
  simp only
  cases hdirt : (s.head x).dirt with
  | false => exact Step.refl hheads hs
  | true =>
    obtain ⟨hhash, hup⟩ := hs.dirty x hx hdirt
    have hvalue : ∀ k, s.value x k = s.byte ((s.head x).data + k) := by
      intro k
      simp [Cache.value, hup]
    by_cases hio : s.io s.tick = true
    · rw [if_pos hio]
      -- the block of another buffer does not meet that of `x` on the device
      have hother : ∀ dev block, (dev = (s.head x).dev → block ≠ (s.head x).blocknr) →
          ∀ k < bs dev, ¬(dev = (s.head x).dev ∧
            (s.head x).blocknr * (s.head x).size ≤ block * bs dev + k ∧
            block * bs dev + k < (s.head x).blocknr * (s.head x).size + (s.head x).size) := by
        rintro dev block hne k hk ⟨rfl, hlow, hhigh⟩
        rw [hs.sizes x hhash] at hlow hhigh
        have hmeet := slices_ne (hne rfl) hk (l := block * bs (s.head x).dev + k -
          (s.head x).blocknr * bs (s.head x).dev) (by omega)
        omega
      refine finish_step hheads hs hhash (fun _ _ _ _ _ => rfl) (fun y hy hyx k hk => if_neg ?_)
        (fun _ k hk => ?_) (fun _ _ => rfl) (fun _ k _ => ?_) (fun dev block h k hk => if_neg ?_)
      · rw [hs.sizes y hy] at hk ⊢
        exact hother _ _ (fun hdev hblock => hyx (hs.unique y hy x hhash hdev hblock)) k hk
      · rw [if_pos ⟨rfl, by omega, by omega⟩, Nat.add_sub_cancel_left]
        rfl
      · rw [hvalue]
        unfold Cache.value
        rw [finish_head_self]
        rfl
      · exact hother _ _ (fun hdev hblock => h x hhash ⟨hdev.symm, hblock.symm⟩) k hk
    · rw [if_neg hio]
      exact finish_step hheads hs hhash (fun _ _ _ _ _ => rfl) (fun _ _ _ _ _ => rfl) (by simp)
        (fun _ _ => rfl) (fun hall => absurd (hall _) hio) fun _ _ _ _ _ => rfl

omit hheads hs in
theorem writeBlock_free (s : Cache) (x : ℕ) : (s.writeBlock x).free = s.free := by
  unfold Cache.writeBlock
  simp only
  split
  · rfl
  · split <;> rfl

theorem writeBlocks_step {l : List ℕ} (hl : ∀ x ∈ l, x ∈ s.free) :
    Step bs own s (l.foldl Cache.writeBlock s) [] := by
  induction l generalizing s with
  | nil => exact Step.refl hheads hs
  | cons x l ih =>
    have hstep := writeBlock_step hheads hs (hl x mem_cons_self)
    refine hstep.trans (ih hstep.heads hstep.data fun y hy => ?_)
    rw [writeBlock_free]
    exact hl y (mem_cons_of_mem _ hy)

theorem syncBuffers_step : Step bs own s s.syncBuffers [] :=
  writeBlocks_step hheads hs fun _ hx => hx

end

structure SameKeys (s s' : Cache) : Prop where
  hash : s'.hash = s.hash
  free : s'.free = s.free
  head : ∀ x, { s'.head x with uptodate := (s.head x).uptodate, dirt := (s.head x).dirt } = s.head x
  uptodate : ∀ x, (s.head x).uptodate = true → (s'.head x).uptodate = true
  memMap : s'.memMap = s.memMap

theorem SameKeys.refl (s : Cache) : SameKeys s s := ⟨rfl, rfl, fun _ => rfl, fun _ h => h, rfl⟩

section
variable (h : SameKeys s s')
include h

theorem SameKeys.trans (h' : SameKeys s' s'') : SameKeys s s'' where
  hash := h'.hash.trans h.hash
  free := h'.free.trans h.free
  head x := by rw [← h.head x, ← h'.head x]
  uptodate x hx := h'.uptodate x (h.uptodate x hx)
  memMap := h'.memMap.trans h.memMap

theorem SameKeys.data (x : ℕ) : (s'.head x).data = (s.head x).data := by
  rw [← h.head x]

theorem SameKeys.dev (x : ℕ) : (s'.head x).dev = (s.head x).dev := by
  rw [← h.head x]

theorem SameKeys.blocknr (x : ℕ) : (s'.head x).blocknr = (s.head x).blocknr := by
  rw [← h.head x]

end

theorem readBlock_keys (s : Cache) (x : ℕ) :
    SameKeys s (s.readBlock x) ∧
      (s.io s.tick = true → ((s.readBlock x).head x).uptodate = true) := by
  unfold Cache.readBlock
  simp only
  cases hup : (s.head x).uptodate with
  | true => exact ⟨SameKeys.refl s, fun _ => hup⟩
  | false =>
    rw [if_neg (by simp)]
    have hkeep : ∀ (flag : Bool) (y : ℕ), (s.head y).uptodate = true →
        ((s.setHead x { s.head x with uptodate := flag, dirt := false }).head y).uptodate =
          true := by
      intro flag y hy
      have hne : y ≠ x := by
        rintro rfl
        rw [hup] at hy
        exact absurd hy (by decide)
      rwa [setHead_of_ne hne]
    have hsame : ∀ (flag : Bool) (y : ℕ),
        { (s.setHead x { s.head x with uptodate := flag, dirt := false }).head y with
          uptodate := (s.head y).uptodate, dirt := (s.head y).dirt } = s.head y := by
      intro flag y
      by_cases hy : y = x
      · rw [hy, setHead_self]
      · rw [setHead_of_ne hy]
    split
    · exact ⟨⟨rfl, rfl, hsame true, hkeep true, rfl⟩, fun _ => by
        rw [setHead_self]⟩
    next hio => exact ⟨⟨rfl, rfl, hsame false, hkeep false, rfl⟩, fun h => absurd h hio⟩

theorem readBlocks_keys (l : List ℕ) (s : Cache) : SameKeys s (l.foldl Cache.readBlock s) := by
  induction l generalizing s with
  | nil => exact SameKeys.refl s
  | cons x l ih => exact (readBlock_keys s x).1.trans (ih (s.readBlock x))

theorem readBlocks_step {l : List ℕ} (hheads : s.Heads []) (hs : s.Data bs own)
    (hl : ∀ x ∈ l, x ∈ s.hash) :
    Step bs own s (l.foldl Cache.readBlock s) [] ∧
      ((∀ n, s.io n = true) → ∀ x ∈ l, ((l.foldl Cache.readBlock s).head x).uptodate = true) := by
  induction l generalizing s with
  | nil => exact ⟨Step.refl hheads hs, fun _ x hx => absurd hx (by simp)⟩
  | cons x l ih =>
    have hstep := readBlock_step hheads hs (hl x mem_cons_self)
    obtain ⟨hkeys, hread⟩ := readBlock_keys s x
    obtain ⟨hstep', hall⟩ := ih hstep.heads hstep.data fun y hy => by
      rw [hkeys.hash]
      exact hl y (mem_cons_of_mem _ hy)
    refine ⟨hstep.trans hstep', fun hio y hy => ?_⟩
    rcases mem_cons.mp hy with rfl | hy
    · exact (readBlocks_keys l (s.readBlock y)).uptodate y (hread (hio _))
    · exact hall (by rw [hstep.io]; exact hio) y hy

theorem readBuffers_step {bh : List ℕ} (hheads : s.Heads []) (hs : s.Data bs own)
    (hbh : ∀ x ∈ bh, x ∈ s.hash) :
    Step bs own s (s.readBuffers bh) [] ∧ SameKeys s (s.readBuffers bh) ∧
      ((∀ n, s.io n = true) → ∀ x ∈ bh, ((s.readBuffers bh).head x).uptodate = true) := by
  obtain ⟨hstep, hall⟩ := readBlocks_step hheads hs
    (l := bh.filter fun x => !(s.head x).uptodate) fun x hx => hbh x (mem_filter.mp hx).1
  have hkeys : SameKeys s (s.readBuffers bh) := readBlocks_keys _ s
  refine ⟨hstep, hkeys, fun hio x hx => ?_⟩
  cases hup : (s.head x).uptodate with
  | true => exact hkeys.uptodate x hup
  | false => exact hall hio x (mem_filter.mpr ⟨hx, by simp [hup]⟩)

/-! ## `getblk` -/

def Head.claimed (h : Head) (dev block : ℕ) : Head :=
  { h with dev := dev, blocknr := block, uptodate := false, dirt := false, count := 1 }

theorem claim_eq {dev : ℕ} (hdev : dev ≠ 0) (block : ℕ) :
    s.claim x dev block =
      { s.setHead x ((s.head x).claimed dev block) with
        free := s.free.erase x ++ [x]
        hash := x :: s.hash.erase x } := by
  simp [Cache.claim, Cache.insertIntoQueues, Cache.removeFromQueues, Cache.setHead, Head.claimed,
    hdev]

section Claim

variable {dev block : ℕ}

section
variable (hdev : dev ≠ 0)
include hdev

theorem claim_head_self : (s.claim x dev block).head x = (s.head x).claimed dev block := by
  rw [claim_eq hdev]
  exact setHead_self ..

theorem claim_head_of_ne {y : ℕ} (h : y ≠ x) : (s.claim x dev block).head y = s.head y := by
  rw [claim_eq hdev]
  exact setHead_of_ne h ..

theorem mem_claim_hash (hs : s.Data bs own) {y : ℕ} :
    y ∈ (s.claim x dev block).hash ↔ y = x ∨ y ≠ x ∧ y ∈ s.hash := by
  rw [claim_eq hdev]
  rw [mem_cons, hs.nodup.mem_erase_iff]

theorem claim_free_perm (hx : x ∈ s.free) (block : ℕ) : (s.claim x dev block).free.Perm s.free := by
  exact perm_append_comm.trans (perm_cons_erase hx).symm

theorem claim_data (hs : s.Data bs own) (hx : x ∈ s.free) (hsize : (s.head x).size = bs dev)
    (habsent : s.Absent dev block) : (s.claim x dev block).Data bs own := by
  have hfree : ∀ y, y ∈ (s.claim x dev block).free ↔ y ∈ s.free := fun y =>
    (claim_free_perm hdev hx block).mem_iff
  -- a claimed buffer keeps its place in memory
  have hplace : ∀ y, ((s.claim x dev block).head y).data = (s.head y).data ∧
      ((s.claim x dev block).head y).size = (s.head y).size := by
    intro y
    by_cases hy : y = x
    · rw [hy, claim_head_self hdev]
      exact ⟨rfl, rfl⟩
    · rw [claim_head_of_ne hdev hy]
      exact ⟨rfl, rfl⟩
  constructor
  · intro y hy
    rw [hfree]
    rcases (mem_claim_hash hdev hs).mp hy with rfl | ⟨-, hold⟩
    · exact hx
    · exact hs.hashed y hold
  · rw [claim_eq hdev]
    exact nodup_cons.mpr ⟨hs.nodup.not_mem_erase, hs.nodup.erase x⟩
  · intro y hy
    rcases (mem_claim_hash hdev hs).mp hy with rfl | ⟨hne, hold⟩
    · rw [claim_head_self hdev]
      exact hsize
    · rw [claim_head_of_ne hdev hne]
      exact hs.sizes y hold
  · intro y hy z hz hdevs hblocks
    rcases (mem_claim_hash hdev hs).mp hy with rfl | ⟨hneY, holdY⟩
    · rcases (mem_claim_hash hdev hs).mp hz with rfl | ⟨hneZ, holdZ⟩
      · rfl
      · rw [claim_head_self hdev, claim_head_of_ne hdev hneZ] at hdevs hblocks
        exact absurd ⟨hdevs.symm, hblocks.symm⟩ (habsent z holdZ)
    · rcases (mem_claim_hash hdev hs).mp hz with rfl | ⟨hneZ, holdZ⟩
      · rw [claim_head_self hdev, claim_head_of_ne hdev hneY] at hdevs hblocks
        exact absurd ⟨hdevs, hblocks⟩ (habsent y holdY)
      · rw [claim_head_of_ne hdev hneY, claim_head_of_ne hdev hneZ] at hdevs hblocks
        exact hs.unique y holdY z holdZ hdevs hblocks
  · intro y hy hup
    rcases (mem_claim_hash hdev hs).mp hy with rfl | ⟨hne, hold⟩
    · rw [claim_head_self hdev] at hup
      exact absurd hup (by simp [Head.claimed])
    · rw [claim_head_of_ne hdev hne] at hup ⊢
      have hclean := hs.clean y hold hup
      exact hclean
  · intro y hy hdirt
    rw [hfree] at hy
    by_cases hne : y = x
    · rw [hne, claim_head_self hdev] at hdirt
      exact absurd hdirt (by simp [Head.claimed])
    · rw [claim_head_of_ne hdev hne] at hdirt ⊢
      obtain ⟨hhash, hup⟩ := hs.dirty y hy hdirt
      exact ⟨(mem_claim_hash hdev hs).mpr (.inr ⟨hne, hhash⟩), hup⟩
  · intro y hy z hz
    rw [hfree] at hy hz
    rw [(hplace y).1, (hplace y).2, (hplace z).1, (hplace z).2]
    exact hs.apart y hy z hz
  · intro y hy
    rw [hfree] at hy
    rw [(hplace y).1, (hplace y).2]
    exact hs.inPage y hy
  · intro y hy
    rw [hfree] at hy
    rw [(hplace y).1, claim_eq hdev]
    exact hs.page y hy
  · exact hs.pages

theorem claim_content (hs : s.Data bs own) (hx : x ∈ s.free) (hdirt : (s.head x).dirt = false)
    (hsize : (s.head x).size = bs dev) (habsent : s.Absent dev block) (dev' block' k : ℕ)
    (hk : k < bs dev') :
    (s.claim x dev block).content dev' block' (bs dev') k = s.content dev' block' (bs dev') k := by
  have hdisk : (s.claim x dev block).disk = s.disk := by
    rfl
  have hbyte : (s.claim x dev block).byte = s.byte := by
    rfl
  refine hs.content_eq (claim_data hdev hs hx hsize habsent) (fun y hy => ?_) (fun y hy => ?_)
    (fun _ _ _ _ _ => by rw [hdisk]) dev' block' k hk
  · by_cases hne : y = x
    · -- the old block of the buffer is on the device
      subst hne
      right
      constructor
      · rintro z hz ⟨hdevs, hblocks⟩
        rcases (mem_claim_hash hdev hs).mp hz with rfl | ⟨hneZ, holdZ⟩
        · rw [claim_head_self hdev] at hdevs hblocks
          exact habsent z hy ⟨hdevs.symm, hblocks.symm⟩
        · rw [claim_head_of_ne hdev hneZ] at hdevs hblocks
          exact hneZ (hs.unique z holdZ y hy hdevs hblocks)
      · intro k hk
        rw [← hs.sizes y hy] at hk ⊢
        unfold Cache.value
        split
        next hup => exact (hs.clean y hy hup hdirt k hk).symm
        next => rfl
    · left
      have hhead : (s.claim x dev block).head y = s.head y := claim_head_of_ne hdev hne
      refine ⟨(mem_claim_hash hdev hs).mpr (.inr ⟨hne, hy⟩), by rw [hhead], by rw [hhead],
        fun k _ => ?_⟩
      unfold Cache.value
      rw [hhead, hdisk, hbyte]
  · rcases (mem_claim_hash hdev hs).mp hy with rfl | ⟨hne, hold⟩
    · right
      intro k _
      have hclaimed : (s.head y).claimed dev block = (s.claim y dev block).head y :=
        (claim_head_self hdev).symm
      have hnot : ((s.claim y dev block).head y).uptodate = false := by
        rw [← hclaimed]
        rfl
      have hsize' :
          ((s.claim y dev block).head y).size = bs ((s.claim y dev block).head y).dev := by
        rw [← hclaimed]
        exact hsize
      unfold Cache.value
      rw [hnot, ← hsize', if_neg (by simp)]
    · left
      rw [claim_head_of_ne hdev hne]
      exact ⟨hold, rfl, rfl⟩

end

theorem claim_step (hheads : s.Heads []) (hdev : dev ≠ 0) (hs : s.Data bs own) (hx : x ∈ s.free)
    (hcount : (s.head x).count = 0) (hdirt : (s.head x).dirt = false)
    (hsize : (s.head x).size = bs dev) (habsent : s.Absent dev block) :
    Step bs own s (s.claim x dev block) [x] := by
  have hheads' : (s.claim x dev block).Heads [] := by
    have hset := hheads.setFree hx ((s.head x).claimed dev block)
    have hperm := claim_free_perm hdev hx block
    rw [claim_eq hdev] at hperm ⊢
    have hboth := hset.permFree hperm
    exact ⟨hboth.nodup, hboth.made, hboth.idle, hboth.fresh⟩
  refine ⟨hheads', claim_data hdev hs hx hsize habsent, fun y => ?_,
    fun _ => claim_content hdev hs hx hdirt hsize habsent, fun y hy hheld => ?_, ?_, ?_, ?_, ?_, ?_⟩
  · by_cases hy : y = x
    · rw [hy, claim_head_self hdev, hcount, count_singleton_self]
      rfl
    · rw [claim_head_of_ne hdev hy, count_singleton, if_neg (by simpa using Ne.symm hy), add_zero]
  · have hne : y ≠ x := by
      rintro rfl
      exact hheld hcount
    rw [claim_head_of_ne hdev hne]
    exact ⟨(mem_claim_hash hdev hs).mpr (.inr ⟨hne, hy⟩), rfl, rfl, rfl⟩
  · exact fun _ _ => rfl
  · rfl
  · rfl
  · exact fun _ _ => rfl
  · exact suffix_refl _

end Claim

theorem candidate_some {size : ℕ} (h : s.candidate size = some x) :
    x ∈ s.free ∧ (s.head x).count = 0 ∧ (s.head x).size = size := by
  have hmem : x ∈ s.free.filter fun y =>
      (s.head y).count = 0 ∧ (s.head y).size = size ∧
        s.memMap ((s.head y).data / pageSize) = 1 := by
    unfold Cache.candidate at h
    simp only at h
    split at h
    next y hfind =>
      obtain rfl := Option.some.inj h
      exact mem_of_find?_eq_some hfind
    next => exact mem_of_mem_head? h
  rw [mem_filter] at hmem
  have hable := of_decide_eq_true hmem.2
  exact ⟨hmem.1, hable.1, hable.2.1⟩

theorem getblk_step {fuel dev block : ℕ} (hheads : s.Heads []) (hs : s.Data bs own) (hdev : dev ≠ 0)
    (h : s.getblk fuel dev block (bs dev) = some (s', x)) :
    Step bs own s s' [x] ∧ x ∈ s'.hash ∧ (s'.head x).dev = dev ∧ (s'.head x).blocknr = block := by
  induction fuel generalizing s with
  | zero => simp [Cache.getblk] at h
  | succ fuel ih =>
    unfold Cache.getblk at h
    cases hget : s.getHashTable dev block (bs dev) with
    | some r =>
      simp only [hget] at h
      unfold Cache.getHashTable at hget
      cases hfind : s.findBuffer dev block (bs dev) with
      | none => simp [hfind] at hget
      | some z =>
        simp only [hfind, Option.some.injEq, Prod.mk.injEq] at hget
        obtain ⟨rfl, rfl⟩ := hget
        obtain ⟨hz, hzdev, hzblock, -⟩ := findBuffer_some hfind
        have hhold := hold_step hheads hs (hs.hashed z hz)
        have hkey : ((s.hold z).head z).dev = dev ∧ ((s.hold z).head z).blocknr = block := by
          unfold Cache.hold
          rw [setHead_self]
          exact ⟨hzdev, hzblock⟩
        split at h
        · obtain ⟨rfl, rfl⟩ := h
          exact ⟨hhold.trans (putLastFree_step hhold.heads hhold.data (hs.hashed z hz)),
            hz, hkey.1, hkey.2⟩
        · obtain ⟨rfl, rfl⟩ := h
          exact ⟨hhold, hz, hkey.1, hkey.2⟩
    | none =>
      simp only [hget] at h
      have hearly := growEarly_step hheads hs (bs dev)
      cases hcand : (s.growEarly (bs dev)).candidate (bs dev) with
      | none =>
        simp only [hcand] at h
        have hlate := hearly.trans (growLate_step hearly.heads hearly.data (bs dev))
        obtain ⟨hstep, hrest⟩ := ih hlate.heads hlate.data h
        exact ⟨hlate.trans hstep, hrest⟩
      | some y =>
        simp only [hcand] at h
        obtain ⟨hy, hcount, hsize⟩ := candidate_some hcand
        split at h
        · have hsync := hearly.trans (syncBuffers_step hearly.heads hearly.data)
          obtain ⟨hstep, hrest⟩ := ih hsync.heads hsync.data h
          exact ⟨hsync.trans hstep, hrest⟩
        next hdirt =>
          cases hfind : (s.growEarly (bs dev)).findBuffer dev block (bs dev) with
          | some z =>
            simp only [hfind] at h
            obtain ⟨hstep, hrest⟩ := ih hearly.heads hearly.data h
            exact ⟨hearly.trans hstep, hrest⟩
          | none =>
            simp only [hfind, Option.some.injEq, Prod.mk.injEq] at h
            obtain ⟨rfl, rfl⟩ := h
            have hclaim := claim_step hearly.heads hdev hearly.data hy hcount
              (by simpa using hdirt) hsize (hearly.data.absent_of_findBuffer hfind)
            refine ⟨hearly.trans hclaim, (mem_claim_hash hdev hearly.data).mpr (.inl rfl), ?_, ?_⟩
            · rw [claim_head_self hdev]
              rfl
            · rw [claim_head_self hdev]
              rfl

end LinuxKernel.BreadPage
