import LinuxKernel.BreadPageCache

/-!
# Blocks copied into the page of the caller

`bread_page` gets a buffer for every block, reads them, copies those that are up to
date, and releases the buffers.
-/

namespace LinuxKernel.BreadPage
open List

variable {s s' s'' : Cache} {bs : ℕ → ℕ} {own x : ℕ}

/-! ## Releasing -/

theorem brelse_head (s : Cache) (x y : ℕ) :
    (s.brelse x).head y =
      { s.head y with count := if y = x then (s.head y).count - 1 else (s.head y).count } := by
  unfold Cache.brelse
  by_cases hy : y = x
  · rw [hy, if_pos rfl]
    split
    next => rw [setHead_self]
    next hzero =>
      have hsame : (s.head x).count - 1 = (s.head x).count := by omega
      rw [hsame]
  · split
    · rw [setHead_of_ne hy]
    · rfl

theorem brelse_eq (s : Cache) (x : ℕ) : s.brelse x = { s with head := (s.brelse x).head } := by
  unfold Cache.brelse
  split <;> rfl

theorem brelseAll_eq (s : Cache) (l : List ℕ) :
    s.brelseAll l = { s with head := (s.brelseAll l).head } := by
  unfold Cache.brelseAll
  induction l generalizing s with
  | nil => rfl
  | cons x l ih =>
    rw [foldl_cons, ih, brelse_eq]

theorem brelseAll_head (s : Cache) (l : List ℕ) (y : ℕ) :
    (s.brelseAll l).head y = { s.head y with count := (s.head y).count - l.count y } := by
  unfold Cache.brelseAll
  induction l generalizing s with
  | nil => simp
  | cons x l ih =>
    rw [foldl_cons, ih, brelse_head, count_cons]
    by_cases hy : y = x
    · rw [if_pos hy, if_pos (by simpa using hy.symm)]
      simp only [Nat.sub_sub, Nat.add_comm]
    · rw [if_neg hy, if_neg (by simpa using Ne.symm hy), Nat.add_zero]

theorem Cache.Heads.brelseAll (hs : s.Heads []) (l : List ℕ) : (s.brelseAll l).Heads [] := by
  rw [brelseAll_eq]
  refine ⟨hs.nodup, hs.made, fun y hy => ?_, fun y hy => ?_⟩
  · obtain ⟨hcount, hdirt⟩ := hs.idle y hy
    simp only [brelseAll_head]
    exact ⟨by omega, hdirt⟩
  · have hcount := hs.fresh y hy
    simp only [brelseAll_head]
    omega

theorem brelseAll_view (s : Cache) (l : List ℕ) : SameView s (s.brelseAll l) := by
  rw [brelseAll_eq]
  refine ⟨fun _ => Iff.rfl, fun y _ => ?_, rfl, rfl, rfl, suffix_refl _⟩
  simp only [brelseAll_head]

variable {l : List ℕ}

theorem Step.brelseAll {m : List ℕ} (h : Step bs own s s' l) (hperm : m.Perm l) :
    Step bs own s (s'.brelseAll m) [] := by
  have hview := brelseAll_view s' m
  refine ⟨h.heads.brelseAll m, hview.toData h.data, fun y => ?_, fun hio dev block k hk => ?_,
    fun y hy hcount => ?_, ?_, ?_, ?_, ?_, ?_⟩
  · rw [brelseAll_head]
    change (s'.head y).count - m.count y = _
    rw [h.count, hperm.count_eq, count_nil]
    omega
  · rw [hview.content h.data dev block k hk, h.content hio dev block k hk]
  · obtain ⟨hy', hkey⟩ := h.held y hy hcount
    rw [brelseAll_head, brelseAll_eq]
    exact ⟨hy', hkey⟩
  all_goals rw [brelseAll_eq]
  · exact h.ownPage
  · exact h.io
  · exact h.highMemory
  · exact h.memMap
  · exact h.pages

theorem Step.remap {before after : ℕ → UInt16}
    (h : Step bs own { s with memMap := before } s' l)
    (hmap : ∀ f, f ∉ s.freePages → after f = s.memMap f) :
    Step bs own s { s' with memMap := after } l where
  heads := ⟨h.heads.nodup, h.heads.made, h.heads.idle, h.heads.fresh⟩
  data := (⟨fun _ => Iff.rfl, fun _ _ => rfl, rfl, rfl, rfl, suffix_refl _⟩ :
    SameView s' { s' with memMap := after }).toData h.data
  count := h.count
  content := h.content
  held := h.held
  ownPage := h.ownPage
  io := h.io
  highMemory := h.highMemory
  memMap := hmap
  pages := h.pages

structure Cache.Has (s : Cache) (x dev block : ℕ) : Prop where
  hash : x ∈ s.hash
  dev : (s.head x).dev = dev
  blocknr : (s.head x).blocknr = block

variable {dev block : ℕ}

theorem Step.has (h : Step bs own s s' l) (hx : s.Has x dev block)
    (hcount : (s.head x).count ≠ 0) : s'.Has x dev block ∧ (s'.head x).data = (s.head x).data := by
  obtain ⟨hhash, hdata, hdev, hblock⟩ := h.held x hx.hash hcount
  exact ⟨⟨hhash, hdev.trans hx.dev, hblock.trans hx.blocknr⟩, hdata⟩

theorem SameKeys.has (h : SameKeys s s') (hx : s.Has x dev block) : s'.Has x dev block :=
  ⟨by rw [h.hash]; exact hx.hash, (h.dev x).trans hx.dev, (h.blocknr x).trans hx.blocknr⟩

theorem Cache.Data.byte_eq (hs : s.Data bs own) (hx : s.Has x dev block)
    (hup : (s.head x).uptodate = true) (k : ℕ) :
    s.byte ((s.head x).data + k) = s.content dev block (bs dev) k := by
  have hcontent := hs.content_of_mem hx.hash k
  rw [hx.dev, hx.blocknr] at hcontent
  rw [hcontent]
  exact (if_pos hup).symm

/-! ## The copying path -/

def Cache.Got (s : Cache) (dev : ℕ) (b : ℕ → ℕ) (i : ℕ) (bh : List (Option ℕ)) : Prop :=
  ∀ j r, bh[j]? = some r → match r with
    | none => b (i + j) = 0
    | some x => b (i + j) ≠ 0 ∧ s.Has x dev (b (i + j))

variable {i : ℕ} {b : ℕ → ℕ}

theorem Cache.Got.cons {r : Option ℕ} {bh : List (Option ℕ)}
    (hfirst : match r with
      | none => b i = 0
      | some x => b i ≠ 0 ∧ s.Has x dev (b i))
    (h : s.Got dev b (i + 1) bh) : s.Got dev b i (r :: bh) := by
  intro j r' hj
  cases j with
  | zero =>
    obtain rfl := Option.some.inj hj
    exact hfirst
  | succ j =>
    have hrest := h j r' hj
    have hindex : i + 1 + j = i + (j + 1) := by omega
    rw [hindex] at hrest
    exact hrest

theorem getBlocks_step {fuel : ℕ} {n : ℕ} {bh : List (Option ℕ)}
    (hheads : s.Heads []) (hs : s.Data bs own) (hdev : dev ≠ 0)
    (h : s.getBlocks fuel dev b (bs dev) n i = some (s', bh)) :
    Step bs own s s' (bh.filterMap id) ∧ s'.Got dev b i bh ∧ bh.length = n := by
  induction n generalizing s i bh with
  | zero =>
    obtain ⟨rfl, rfl⟩ := h
    exact ⟨Step.refl hheads hs, fun j r hj => by simp at hj, rfl⟩
  | succ n ih =>
    unfold Cache.getBlocks at h
    by_cases h0 : b i = 0
    · rw [if_pos h0, Option.map_eq_some_iff] at h
      obtain ⟨⟨s1, rest⟩, hrest, hresult⟩ := h
      obtain ⟨rfl, rfl⟩ := Prod.mk.inj hresult
      obtain ⟨hstep, hgot, hlength⟩ := ih hheads hs hrest
      exact ⟨hstep, hgot.cons h0, by rw [length_cons, hlength]⟩
    · rw [if_neg h0] at h
      cases hget : s.getblk fuel dev (b i) (bs dev) with
      | none => simp [hget] at h
      | some r =>
        obtain ⟨s1, x⟩ := r
        simp only [hget, Option.map_eq_some_iff] at h
        obtain ⟨⟨s2, rest⟩, hrest, hresult⟩ := h
        obtain ⟨rfl, rfl⟩ := Prod.mk.inj hresult
        obtain ⟨hfirst, hhash, hxdev, hxblock⟩ := getblk_step hheads hs hdev hget
        obtain ⟨hstep, hgot, hlength⟩ := ih hfirst.heads hfirst.data hrest
        have hcount : (s1.head x).count ≠ 0 := by
          rw [hfirst.count, count_singleton_self]
          omega
        have hhas := (hstep.has ⟨hhash, hxdev, hxblock⟩ hcount).1
        exact ⟨hfirst.trans hstep, hgot.cons ⟨h0, hhas⟩, by rw [length_cons, hlength]⟩

def Cache.copyBlock (s : Cache) (size addr : ℕ) : Option ℕ → Cache
  | none => s
  | some x =>
    (if (s.head x).uptodate then s.copyblk size (s.head x).data addr else s).brelse x

variable {size addr : ℕ}

section
variable (r : Option ℕ)

theorem copyBlocks_cons (bh : List (Option ℕ)) :
    s.copyBlocks size addr (r :: bh) =
      (s.copyBlock size addr r).copyBlocks size (addr + size) bh := by
  cases r <;> rfl

theorem copyBlock_head (y : ℕ) :
    (s.copyBlock size addr r).head y =
      { s.head y with count := (s.head y).count - r.toList.count y } := by
  cases r with
  | none => simp [Cache.copyBlock]
  | some x =>
    have hhead : (if (s.head x).uptodate then s.copyblk size (s.head x).data addr else s).head y =
        s.head y := by
      split <;> rfl
    unfold Cache.copyBlock
    rw [brelse_head, hhead]
    by_cases hy : y = x
    · simp [hy]
    · simp [hy, Ne.symm hy]

theorem copyBlock_memMap : (s.copyBlock size addr r).memMap = s.memMap := by
  cases r with
  | none => rfl
  | some x =>
    change Cache.memMap (Cache.brelse _ x) = _
    rw [brelse_eq]
    split <;> rfl

theorem copyBlock_byte (a : ℕ) :
    (s.copyBlock size addr r).byte a =
      match r with
      | none => s.byte a
      | some x =>
        if (s.head x).uptodate = true ∧ addr ≤ a ∧ a < addr + size then
          s.byte ((s.head x).data + (a - addr))
        else s.byte a := by
  cases r with
  | none => rfl
  | some x =>
    change Cache.byte (Cache.brelse _ x) a = _
    rw [brelse_eq]
    cases hup : (s.head x).uptodate with
    | false => simp [hup]
    | true => simp [hup, Cache.copyblk]

theorem copyBlock_byte_out {a : ℕ} (ha : a < addr ∨ addr + size ≤ a) :
    (s.copyBlock size addr r).byte a = s.byte a := by
  rw [copyBlock_byte]
  cases r with
  | none => rfl
  | some x => exact if_neg (by omega)

end

theorem copyBlocks_head (bh : List (Option ℕ)) (y : ℕ) :
    (s.copyBlocks size addr bh).head y =
      { s.head y with count := (s.head y).count - (bh.filterMap id).count y } := by
  induction bh generalizing s addr with
  | nil => simp [Cache.copyBlocks]
  | cons r bh ih =>
    rw [copyBlocks_cons, ih, copyBlock_head]
    cases r with
    | none => simp
    | some x =>
      simp only [Option.toList_some, filterMap_cons, id, count_cons, count_nil]
      congr 1
      omega

theorem copyBlocks_memMap (bh : List (Option ℕ)) :
    (s.copyBlocks size addr bh).memMap = s.memMap := by
  induction bh generalizing s addr with
  | nil => rfl
  | cons r bh ih => rw [copyBlocks_cons, ih, copyBlock_memMap]

theorem copyBlocks_byte (bh : List (Option ℕ)) (s : Cache) (addr : ℕ)
    (hout : ∀ x, some x ∈ bh → ∀ k < size,
      (s.head x).data + k < addr ∨ addr + bh.length * size ≤ (s.head x).data + k) :
    (∀ a, a < addr ∨ addr + bh.length * size ≤ a → (s.copyBlocks size addr bh).byte a = s.byte a) ∧
    (∀ j, bh[j]? = some none → ∀ k < size,
      (s.copyBlocks size addr bh).byte (addr + j * size + k) = s.byte (addr + j * size + k)) ∧
    (∀ j x, bh[j]? = some (some x) → (s.head x).uptodate = true → ∀ k < size,
      (s.copyBlocks size addr bh).byte (addr + j * size + k) = s.byte ((s.head x).data + k)) := by
  induction bh generalizing s addr with
  | nil => simp [Cache.copyBlocks]
  | cons r bh ih =>
    have hlength : addr + (r :: bh).length * size = addr + size + bh.length * size := by
      rw [length_cons]
      ring
    have hdata : ∀ y, ((s.copyBlock size addr r).head y).data = (s.head y).data := fun y => by
      rw [copyBlock_head]
    have hup : ∀ y, ((s.copyBlock size addr r).head y).uptodate = (s.head y).uptodate := fun y => by
      rw [copyBlock_head]
    obtain ⟨hkeep, hnone, hsome⟩ := ih (s.copyBlock size addr r) (addr + size) fun x hx k hk => by
      have hx := hout x (mem_cons_of_mem _ hx) k hk
      rw [hdata]
      omega
    rw [copyBlocks_cons]
    refine ⟨fun a ha => ?_, fun j hj k hk => ?_, fun j x hj hx k hk => ?_⟩
    · rw [hkeep a (by omega), copyBlock_byte_out r (by omega)]
    · cases j with
      | zero =>
        obtain rfl := Option.some.inj hj
        rw [hkeep _ (by omega)]
        rfl
      | succ j =>
        have hindex : addr + (j + 1) * size + k = addr + size + j * size + k := by ring
        rw [hindex, hnone j hj k hk, copyBlock_byte_out r (by omega)]
    · cases j with
      | zero =>
        obtain rfl := Option.some.inj hj
        rw [hkeep _ (by omega), copyBlock_byte]
        simp only
        rw [if_pos ⟨hx, by omega, by omega⟩]
        congr 1
        omega
      | succ j =>
        have hindex : addr + (j + 1) * size + k = addr + size + j * size + k := by ring
        rw [hindex, hsome j x hj (by rw [hup]; exact hx) k hk, hdata, copyBlock_byte_out r]
        have hin : some x ∈ bh := mem_of_getElem? hj
        have hx := hout x (mem_cons_of_mem _ hin) k hk
        omega

def Filled (s s' : Cache) (page dev : ℕ) (b : ℕ → ℕ) (size : ℕ) : Prop :=
  (∀ n, s.io n = true) → ∀ i < pageSize / size, ∀ k < size,
    s'.byte (page + i * size + k) = if b i = 0 then 0 else s.content dev (b i) size k

structure Cache.Zeroed (s : Cache) (address own : ℕ) : Prop where
  aligned : address = own * pageSize
  below : address < s.highMemory
  nonzero : address ≠ 0
  used : s.memMap own ≠ 0 ∧ (s.memMap own).toNat < 0x8000
  zero : ∀ k < pageSize, s.byte (address + k) = 0

variable {address : ℕ}

theorem Cache.Zeroed.page (h : s.Zeroed address own) : address / pageSize = own := by
  rw [h.aligned]
  exact Nat.mul_div_cancel _ (by decide)

variable {k : ℕ}

theorem Cache.Zeroed.div (h : s.Zeroed address own) (hk : k < pageSize) :
    (address + k) / pageSize = own := by
  rw [h.aligned]
  exact div_pageSize hk

theorem slice_le (hi : i < pageSize / size) (hk : k < size) : i * size + k < pageSize := by
  calc i * size + k < (i + 1) * size := by
        rw [Nat.add_mul]
        omega
    _ ≤ pageSize / size * size := Nat.mul_le_mul_right _ hi
    _ ≤ pageSize := Nat.div_mul_le_self _ _

theorem Cache.Data.outside (hs : s.Data bs own)
    (hpage : address = own * pageSize) (hx : s.Has x dev block) (hk : k < bs dev) :
    (s.head x).data + k < address ∨ address + pageSize ≤ (s.head x).data + k := by
  have hfree := hs.hashed x hx.hash
  have hsize : (s.head x).size = bs dev := by rw [hs.sizes x hx.hash, hx.dev]
  have hdiv := hs.inPage x hfree k (by rw [hsize]; exact hk)
  have hne : ((s.head x).data + k) / pageSize ≠ own := by
    rw [hdiv]
    exact fun hsame => hs.page x hfree (by rw [hsame]; exact mem_cons_self)
  by_contra hin
  have hinside : (s.head x).data + k = own * pageSize + ((s.head x).data + k - address) := by omega
  rw [hinside] at hne
  exact hne (div_pageSize (by omega))

theorem copyPage_spec {fuel r : ℕ} (hheads : s.Heads [])
    (hs : s.Data bs own) (hdev : dev ≠ 0) (hown : s.Zeroed address own)
    (h : s.copyPage fuel address dev b (bs dev) = some (s', r)) :
    r = address ∧ (∀ y, (s'.head y).count = (s.head y).count) ∧
      (∀ f, f ∉ s.freePages → s'.memMap f = s.memMap f) ∧ Filled s s' address dev b (bs dev) := by
  unfold Cache.copyPage at h
  cases hget : s.getBlocks fuel dev b (bs dev) (pageSize / bs dev) 0 with
  | none => simp [hget] at h
  | some p =>
    obtain ⟨s1, bh⟩ := p
    simp only [hget, Option.some.injEq, Prod.mk.injEq] at h
    obtain ⟨rfl, rfl⟩ := h
    obtain ⟨hstep, hgot, hlength⟩ := getBlocks_step hheads hs hdev hget
    have hmem : ∀ x, some x ∈ bh → ∃ j, bh[j]? = some (some x) ∧ b j ≠ 0 ∧ s1.Has x dev (b j) := by
      intro x hx
      obtain ⟨j, hj⟩ := mem_iff_getElem?.mp hx
      have hblock := hgot j (some x) hj
      rw [Nat.zero_add] at hblock
      exact ⟨j, hj, hblock⟩
    have hhash : ∀ x ∈ bh.filterMap id, x ∈ s1.hash := by
      intro x hx
      obtain ⟨j, -, -, hhas⟩ := hmem x (by simpa using hx)
      exact hhas.hash
    obtain ⟨hread, hkeys, hup⟩ := readBuffers_step hstep.heads hstep.data hhash
    have hboth := hstep.trans hread
    rw [append_nil] at hboth
    have hpage : address + bh.length * bs dev ≤ address + pageSize := by
      rw [hlength]
      exact Nat.add_le_add_left (Nat.div_mul_le_self _ _) _
    obtain ⟨-, hnone, hsome⟩ := copyBlocks_byte bh (s1.readBuffers (bh.filterMap id)) address
      fun x hx k hk => by
        obtain ⟨j, -, -, hhas⟩ := hmem x hx
        have hout := hread.data.outside hown.aligned (hkeys.has hhas) hk
        omega
    refine ⟨rfl, fun y => ?_, fun f hf => ?_, fun hio i hi k hk => ?_⟩
    · rw [copyBlocks_head]
      change ((s1.readBuffers (bh.filterMap id)).head y).count - _ = _
      rw [hboth.count]
      omega
    · rw [copyBlocks_memMap]
      exact hboth.memMap f hf
    · have hlt : i * bs dev + k < pageSize := slice_le hi hk
      obtain ⟨r, hr⟩ : ∃ r, bh[i]? = some r := ⟨bh[i], List.getElem?_eq_getElem (by omega)⟩
      have hblock := hgot i r hr
      rw [Nat.zero_add] at hblock
      cases r with
      | none =>
        rw [hnone i hr k hk, if_pos hblock, Nat.add_assoc, hboth.ownPage _ (hown.div hlt)]
        exact hown.zero _ hlt
      | some x =>
        obtain ⟨hb, hhas⟩ := hblock
        have hready := hup (by rw [hstep.io]; exact hio) x (by
          simpa using mem_of_getElem? hr)
        rw [hsome i x hr hready k hk, if_neg hb, hread.data.byte_eq (hkeys.has hhas) hready,
          hboth.content hio dev (b i) k hk]

end LinuxKernel.BreadPage
