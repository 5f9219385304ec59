import LinuxKernel.BitMask
import LinuxKernel.BreadPageCopy

/-!
# A page shared with the cache

`check_aligned` returns a page of the cache, and `try_to_load_aligned` puts the page of
the caller into the cache.
-/

namespace LinuxKernel.BreadPage
open Function List

variable {s s' s'' : Cache} {bs : ℕ → ℕ} {own x : ℕ}

/-! ## `check_aligned` -/

theorem brelseAll_remap (s : Cache) (memMap : ℕ → UInt16) (l : List ℕ) :
    { s with memMap := memMap }.brelseAll l = { s.brelseAll l with memMap := memMap } := by
  have hhead : ({ s with memMap := memMap }.brelseAll l).head = (s.brelseAll l).head := by
    funext y
    rw [brelseAll_head, brelseAll_head]
  rw [brelseAll_eq { s with memMap := memMap } l, hhead, brelseAll_eq s l]

def Cache.Aligned (s : Cache) (page dev : ℕ) (b : ℕ → ℕ) (size i : ℕ) (l : List ℕ) : Prop :=
  ∀ j x, l[j]? = some x →
    b (i + j) ≠ 0 ∧ s.Has x dev (b (i + j)) ∧ (s.head x).data = page + (i + j) * size

variable {dev : ℕ} {b : ℕ → ℕ}

theorem Cache.Aligned.cons {page size i : ℕ} {l : List ℕ} (hb : b i ≠ 0)
    (hhas : s.Has x dev (b i)) (hdata : (s.head x).data = page + i * size)
    (h : s.Aligned page dev b size (i + 1) l) : s.Aligned page dev b size i (x :: l) := by
  intro j y hj
  cases j with
  | zero =>
    obtain rfl := Option.some.inj hj
    exact ⟨hb, hhas, hdata⟩
  | succ j =>
    have hindex : i + (j + 1) = i + 1 + j := by omega
    rw [hindex]
    exact h j y hj

theorem hold_has {block size : ℕ} (h : s.findBuffer dev block size = some x) :
    (s.hold x).Has x dev block := by
  obtain ⟨hx, hdev, hblock, -⟩ := findBuffer_some h
  unfold Cache.hold
  refine ⟨hx, ?_, ?_⟩
  · rw [setHead_self]
    exact hdev
  · rw [setHead_self]
    exact hblock

variable {bh : List ℕ}

theorem alignedFrom_step {page n i : ℕ} {bh' : List ℕ} {ok : Bool}
    (hheads : s.Heads []) (hs : s.Data bs own)
    (h : s.alignedFrom page dev b (bs dev) n i bh = (s', bh', ok)) :
    ∃ l, bh' = bh ++ l ∧ Step bs own s s' l ∧
      (ok = true → l.length = n ∧ s'.Aligned page dev b (bs dev) i l) := by
  induction n generalizing s i bh with
  | zero =>
    obtain ⟨rfl, rfl, rfl⟩ := h
    exact ⟨[], by simp, Step.refl hheads hs, fun _ => ⟨rfl, fun j x hj => by simp at hj⟩⟩
  | succ n ih =>
    unfold Cache.alignedFrom at h
    by_cases h0 : b i = 0
    · rw [if_pos h0] at h
      obtain ⟨rfl, rfl, rfl⟩ := h
      exact ⟨[], by simp, Step.refl hheads hs, fun hok => absurd hok (by decide)⟩
    rw [if_neg h0] at h
    unfold Cache.getHashTable at h
    cases hfind : s.findBuffer dev (b i) (bs dev) with
    | none =>
      simp only [hfind, Prod.mk.injEq] at h
      obtain ⟨rfl, rfl, rfl⟩ := h
      exact ⟨[], by simp, Step.refl hheads hs, fun hok => absurd hok (by decide)⟩
    | some x =>
      simp only [hfind] at h
      have hhold := hold_step hheads hs (hs.hashed x (findBuffer_some hfind).1)
      split at h
      · obtain ⟨rfl, rfl, rfl⟩ := h
        exact ⟨[x], rfl, hhold, fun hok => absurd hok (by decide)⟩
      next hdata =>
        obtain ⟨l, rfl, hstep, hok⟩ := ih hhold.heads hhold.data h
        have hhas : (s.hold x).Has x dev (b i) := hold_has hfind
        have hcount : ((s.hold x).head x).count ≠ 0 := by
          rw [hhold.count, count_singleton_self]
          omega
        obtain ⟨hlater, hsame⟩ := hstep.has hhas hcount
        refine ⟨x :: l, by simp, hhold.trans hstep, fun htrue => ?_⟩
        obtain ⟨hlength, haligned⟩ := hok htrue
        refine ⟨by rw [length_cons, hlength], haligned.cons h0 hlater ?_⟩
        rw [hsame]
        exact (not_not.mp hdata).symm

def Cache.Mappable (s : Cache) : Prop :=
  ∀ x ∈ s.free, (s.head x).data ≠ 0 ∧ (s.head x).data < s.highMemory ∧
    (s.memMap ((s.head x).data / pageSize)).toNat < 0x7fff

theorem freePage_mapped {addr : ℕ} (hhigh : addr < s.highMemory)
    (h0 : s.memMap (addr / pageSize) ≠ 0) (hres : (s.memMap (addr / pageSize)).toNat < 0x8000) :
    s.freePage addr =
      { s with
        memMap := update s.memMap (addr / pageSize) (s.memMap (addr / pageSize) - 1) } := by
  unfold Cache.freePage
  rw [if_pos hhigh, if_pos h0]
  exact if_pos ((BitMask.and_top_eq_zero_iff _).mpr hres)

/-- `check_aligned` returns a page of the cache instead of the caller's. -/
structure Shared (s s' : Cache) (own page dev : ℕ) (b : ℕ → ℕ) (size : ℕ) : Prop where
  other : page / pageSize ≠ own
  count : ∀ y, (s'.head y).count = (s.head y).count
  memMap : ∀ f, f ∉ s.freePages → s'.memMap f =
    if f = page / pageSize then s.memMap f + 1
    else if f = own then s.memMap f - 1
    else s.memMap f
  filled : Filled s s' page dev b size

variable {address : ℕ}

theorem checkAligned_spec {first r : ℕ} (hheads : s.Heads [])
    (hs : s.Data bs own) (hown : s.Zeroed address own) (hmap : s.Mappable)
    (hfind : s.findBuffer dev (b 0) (bs dev) = some first) (hb : b 0 ≠ 0)
    (h : (s.hold first).checkAligned first address dev b (bs dev) = (s', r)) :
    (r = 0 ∧ Step bs own s s' []) ∨ (r ≠ 0 ∧ Shared s s' own r dev b (bs dev)) := by
  have hfree := hs.hashed first (findBuffer_some hfind).1
  have hhold := hold_step hheads hs hfree
  have hdata : ((s.hold first).head first).data = (s.head first).data := by
    unfold Cache.hold
    rw [setHead_self]
  obtain ⟨h0, hhigh, hroom⟩ := hmap first hfree
  unfold Cache.checkAligned at h
  simp only [hdata] at h
  split at h
  · obtain ⟨rfl, rfl⟩ := Prod.mk.inj h
    exact .inl ⟨rfl, hhold.brelseAll (List.Perm.refl [first])⟩
  next haligned =>
    -- the page of the first buffer gets one more user
    have hmapped : SameView (s.hold first) ((s.hold first).mapPage (s.head first).data) :=
      ⟨fun _ => Iff.rfl, fun _ _ => rfl, rfl, rfl, rfl, suffix_refl _⟩
    have hheads' : ((s.hold first).mapPage (s.head first).data).Heads [] :=
      ⟨hhold.heads.nodup, hhold.heads.made, hhold.heads.idle, hhold.heads.fresh⟩
    cases hloop : ((s.hold first).mapPage (s.head first).data).alignedFrom (s.head first).data dev b
        (bs dev) (pageSize / bs dev - 1) 1 [first] with
    | mk s3 rest =>
      obtain ⟨bh, ok⟩ := rest
      obtain ⟨l, rfl, hstep, hok⟩ := alignedFrom_step hheads' (hmapped.toData hhold.data) hloop
      simp only [hloop] at h
      have hspare : (s.head first).data / pageSize ∉ s.freePages := fun hin =>
        hs.page first hfree (mem_cons_of_mem _ hin)
      have hother : (s.head first).data / pageSize ≠ own := fun hsame =>
        hs.page first hfree (by rw [hsame]; exact mem_cons_self)
      have hmem : ∀ f, f ∉ s.freePages → s3.memMap f =
          update s.memMap ((s.head first).data / pageSize)
            (s.memMap ((s.head first).data / pageSize) + 1) f := fun f hf => hstep.memMap f hf
      have hstep' : Step bs own { s.hold first with memMap :=
          ((s.hold first).mapPage (s.head first).data).memMap } s3 l := hstep
      have hperm : ([first] ++ l).reverse.Perm ([first] ++ l) := reverse_perm _
      cases ok with
      | false =>
        obtain ⟨rfl, rfl⟩ := Prod.mk.inj h
        left
        refine ⟨rfl, ?_⟩
        have hraised : s3.memMap ((s.head first).data / pageSize) =
            s.memMap ((s.head first).data / pageSize) + 1 := by
          rw [hmem _ hspare, update_self]
        have hnat : (s3.memMap ((s.head first).data / pageSize)).toNat =
            (s.memMap ((s.head first).data / pageSize)).toNat + 1 := by
          rw [hraised, UInt16.toNat_add]
          exact Nat.mod_eq_of_lt (by simp; omega)
        have hafter : ∀ f, f ∉ (s.hold first).freePages →
            update s3.memMap ((s.head first).data / pageSize)
              (s3.memMap ((s.head first).data / pageSize) - 1) f = (s.hold first).memMap f := by
          intro f hf
          by_cases hsame : f = (s.head first).data / pageSize
          · rw [hsame, update_self, hraised, UInt16.add_sub_cancel]
            rfl
          · rw [update_of_ne hsame, hmem f hf, update_of_ne hsame]
            rfl
        have hall := (hhold.trans (hstep'.remap hafter)).brelseAll hperm
        rw [brelseAll_remap] at hall
        have hsame : (s3.brelseAll ([first] ++ l).reverse).memMap = s3.memMap := by
          rw [brelseAll_eq]
        rw [freePage_mapped, hsame]
        · exact hall
        · rw [brelseAll_eq]
          exact lt_of_lt_of_eq hhigh hstep.highMemory.symm
        · rw [hsame]
          intro hzero
          rw [hzero] at hnat
          simp at hnat
        · rw [hsame, hnat]
          omega
      | true =>
        obtain ⟨rfl, rfl⟩ := Prod.mk.inj h
        right
        obtain ⟨hlength, htail⟩ := hok rfl
        have hkey : ((s.hold first).mapPage (s.head first).data).Has first dev (b 0) :=
          ⟨(hold_has hfind).hash, (hold_has hfind).dev, (hold_has hfind).blocknr⟩
        have hheld : (((s.hold first).mapPage (s.head first).data).head first).count ≠ 0 := by
          change ((s.hold first).head first).count ≠ 0
          rw [hhold.count, count_singleton_self]
          omega
        obtain ⟨hhas, hplace⟩ := hstep.has hkey hheld
        have hall : s3.Aligned (s.head first).data dev b (bs dev) 0 ([first] ++ l) := by
          refine htail.cons hb hhas ?_
          rw [hplace, Nat.zero_mul, Nat.add_zero]
          exact hdata
        have hhash : ∀ x ∈ [first] ++ l, x ∈ s3.hash := by
          intro x hx
          obtain ⟨j, hj⟩ := mem_iff_getElem?.mp hx
          exact (hall j x hj).2.1.hash
        obtain ⟨hread, hkeys, hup⟩ := readBuffers_step hstep.heads hstep.data hhash
        -- counts and contents do not depend on `mem_map`
        have hread' : Step bs own { s3 with memMap := s.memMap }
            { s3.readBuffers ([first] ++ l) with memMap := s.memMap } [] := by
          have hagain : Step bs own { { s3 with memMap := s.memMap } with memMap := s3.memMap }
              (s3.readBuffers ([first] ++ l)) [] := hread
          exact hagain.remap fun _ _ => rfl
        have hchain := hhold.trans ((hstep'.remap fun _ _ => rfl).trans hread')
        rw [append_nil] at hchain
        have hback := hchain.brelseAll hperm
        rw [brelseAll_remap] at hback
        have hsame : ((s3.readBuffers ([first] ++ l)).brelseAll ([first] ++ l).reverse).memMap =
            s3.memMap := by
          rw [brelseAll_eq]
          exact hkeys.memMap
        have hdiv : address / pageSize = own := hown.page
        have hownSpare : own ∉ s.freePages := (nodup_cons.mp hs.pages).1
        have hownMap : s3.memMap own = s.memMap own := by
          rw [hmem own hownSpare, update_of_ne hother.symm]
        have hbelow : address <
            ((s3.readBuffers ([first] ++ l)).brelseAll ([first] ++ l).reverse).highMemory :=
          lt_of_lt_of_eq hown.below hback.highMemory.symm
        have hfreed := freePage_mapped hbelow (by rw [hsame, hdiv, hownMap]; exact hown.used.1)
          (by rw [hsame, hdiv, hownMap]; exact hown.used.2)
        rw [hsame, hdiv, hownMap] at hfreed
        refine ⟨h0, hother, fun y => ?_, fun f hf => ?_, fun hio i hi k hk => ?_⟩
        · rw [hfreed]
          have hcount := hback.count y
          rwa [count_nil, Nat.add_zero] at hcount
        · rw [hfreed]
          change update s3.memMap own (s.memMap own - 1) f = _
          by_cases hfown : f = own
          · rw [hfown, update_self, if_neg hother.symm, if_pos rfl]
          · rw [update_of_ne hfown, hmem f hf, if_neg hfown]
            by_cases hfpage : f = (s.head first).data / pageSize
            · rw [hfpage, update_self, if_pos rfl]
            · rw [update_of_ne hfpage, if_neg hfpage]
        · have hin : i < ([first] ++ l).length := by
            rw [length_append, length_singleton, hlength]
            omega
          have hx := List.getElem?_eq_getElem hin
          obtain ⟨hbi, hhasI, hdataI⟩ := hall i _ hx
          rw [Nat.zero_add] at hbi hhasI hdataI
          have hio3 : ∀ n, s3.io n = true := by
            rw [hstep.io]
            exact hio
          have hready := hup hio3 _ (mem_of_getElem? hx)
          rw [hfreed, if_neg hbi]
          rw [(brelseAll_view _ _).byte, ← hdataI, ← hkeys.data,
            hread.data.byte_eq (hkeys.has hhasI) hready, hread.content hio3 dev (b i) k hk,
            hstep.content hio dev (b i) k hk]
          exact hhold.content hio dev (b i) k hk

def Head.loaded (h : Head) (dev block : ℕ) : Head :=
  { h with count := 1, dirt := false, uptodate := false, dev := dev, blocknr := block }

theorem loadInto_eq (dev : ℕ) (b : ℕ → ℕ) (bh : List ℕ) (s : Cache) (i : ℕ) :
    ∃ head free hash,
      s.loadInto dev b i bh = { s with head := head, free := free, hash := hash } := by
  induction bh generalizing s i with
  | nil => exact ⟨s.head, s.free, s.hash, rfl⟩
  | cons x bh ih =>
    obtain ⟨head, free, hash, hrest⟩ :=
      ih ((s.setHead x ((s.head x).loaded dev (b i))).insertIntoQueues x) (i + 1)
    exact ⟨head, free, hash, hrest⟩

theorem loadInto_head (dev : ℕ) (b : ℕ → ℕ) (hnodup : bh.Nodup) (s : Cache) (i : ℕ) :
    (∀ y, y ∉ bh → (s.loadInto dev b i bh).head y = s.head y) ∧
      ∀ j x, bh[j]? = some x →
        (s.loadInto dev b i bh).head x = (s.head x).loaded dev (b (i + j)) := by
  induction bh generalizing s i with
  | nil => simp [Cache.loadInto]
  | cons x bh ih =>
    obtain ⟨hx, hbh⟩ := nodup_cons.mp hnodup
    obtain ⟨hkeep, hset⟩ :=
      ih hbh ((s.setHead x ((s.head x).loaded dev (b i))).insertIntoQueues x) (i + 1)
    refine ⟨fun y hy => ?_, fun j y hj => ?_⟩
    · obtain ⟨hne, hout⟩ := not_or.mp (mem_cons.not.mp hy)
      exact (hkeep y hout).trans (setHead_of_ne hne _)
    · cases j with
      | zero =>
        obtain rfl := Option.some.inj hj
        exact (hkeep x hx).trans (setHead_self ..)
      | succ j =>
        have hin : y ∈ bh := mem_of_getElem? (i := j) hj
        have hne : y ≠ x := ne_of_mem_of_not_mem hin hx
        have hindex : i + (j + 1) = i + 1 + j := by omega
        have hother : ((s.setHead x ((s.head x).loaded dev (b i))).insertIntoQueues x).head y =
            s.head y := setHead_of_ne hne _
        rw [hindex, ← hother]
        exact hset j y hj

theorem readSlices (address dev size : ℕ) (b : ℕ → ℕ) {l : List ℕ} (hnodup : l.Nodup) (s : Cache)
    (i : ℕ) (hio : ∀ n, s.io n = true)
    (hl : ∀ j x, l[j]? = some x → (s.head x).data = address + (i + j) * size ∧
      (s.head x).size = size ∧ (s.head x).dev = dev ∧ (s.head x).blocknr = b (i + j) ∧
      (s.head x).uptodate = false) :
    (∀ a, a < address + i * size → (l.foldl Cache.readBlock s).byte a = s.byte a) ∧
      ∀ j x, l[j]? = some x → ∀ k < size,
        (l.foldl Cache.readBlock s).byte (address + (i + j) * size + k) =
          s.disk dev (b (i + j) * size + k) := by
  induction l generalizing s i with
  | nil => simp
  | cons x l ih =>
    obtain ⟨hx, htail⟩ := nodup_cons.mp hnodup
    obtain ⟨hdata, hsize, hdev, hblock, hup⟩ := hl 0 x rfl
    have hread : s.readBlock x =
        { s.setHead x { s.head x with uptodate := true, dirt := false } with
        tick := s.tick + 1
        byte := fun a =>
          if address + i * size ≤ a ∧ a < address + i * size + size then
            s.disk dev (b i * size + (a - (address + i * size)))
          else s.byte a } := by
      simp [Cache.readBlock, hup, hio, hdata, hsize, hdev, hblock]
    have hbyte : ∀ a, (s.readBlock x).byte a =
        if address + i * size ≤ a ∧ a < address + i * size + size then
          s.disk dev (b i * size + (a - (address + i * size)))
        else s.byte a := by
      intro a
      rw [hread]
    have hnext : address + (i + 1) * size = address + i * size + size := by ring
    obtain ⟨hkeep, hset⟩ :=
        ih htail (s.readBlock x) (i + 1) (by rw [hread]; exact hio) fun j y hj => by
      have hne : y ≠ x := ne_of_mem_of_not_mem (mem_of_getElem? hj) hx
      have hsame : (s.readBlock x).head y = s.head y := by
        rw [hread]
        exact setHead_of_ne hne _
      have hindex : i + 1 + j = i + (j + 1) := by omega
      rw [hsame, hindex]
      exact hl (j + 1) y hj
    refine ⟨fun a ha => ?_, fun j y hj k hk => ?_⟩
    · rw [foldl_cons, hkeep a (by omega), hbyte, if_neg (by omega)]
    · cases j with
      | zero =>
        rw [foldl_cons, Nat.add_zero, hkeep _ (by omega), hbyte, if_pos (by omega),
          Nat.add_sub_cancel_left]
      | succ j =>
        have hindex : i + (j + 1) = i + 1 + j := by omega
        have hdisk : (s.readBlock x).disk = s.disk := by
          rw [hread]
          rfl
        rw [foldl_cons, hindex, hset j y hj k hk, hdisk]

/-- `try_to_load_aligned` puts the page of the caller into the cache. -/
structure Loaded (s s' : Cache) (own address dev : ℕ) (b : ℕ → ℕ) (size : ℕ) : Prop where
  count : ∀ y, (s'.head y).count = (s.head y).count
  memMap : ∀ f, f ∉ s.freePages → s'.memMap f = if f = own then s.memMap f + 1 else s.memMap f
  filled : Filled s s' address dev b size

theorem load_spec (hs : s.Data bs own)
    (hown : s.Zeroed address own) (halloc : Alloc s s') (hfree : s'.free = s.free)
    (hbh : s'.Heads bh) (hsplit : s'.Split address (bs dev) 0 bh)
    (hlength : bh.length = pageSize / bs dev)
    (hnone : ∀ i < pageSize / bs dev, b i ≠ 0 ∧ s'.findBuffer dev (b i) (bs dev) = none) :
    Loaded s ((((s'.loadInto dev b 0 bh).mapPage address).readBuffers bh).brelseAll bh.reverse)
      own address dev b (bs dev) := by
  have hnodup : bh.Nodup := (nodup_append'.mp (nodup_append'.mp hbh.nodup).2.1).1
  obtain ⟨head, free, hash, hload⟩ := loadInto_eq dev b bh s' 0
  obtain ⟨hkeep, hset⟩ := loadInto_head dev b hnodup s' 0
  have hkeys : SameKeys ((s'.loadInto dev b 0 bh).mapPage address)
      (((s'.loadInto dev b 0 bh).mapPage address).readBuffers bh) := readBlocks_keys _ _
  refine ⟨fun y => ?_, fun f hf => ?_, fun hio i hi k hk => ?_⟩
  · have hcount := congrArg Head.count (hkeys.head y)
    change ((((s'.loadInto dev b 0 bh).mapPage address).readBuffers bh).head y).count =
      ((s'.loadInto dev b 0 bh).head y).count at hcount
    rw [brelseAll_head]
    rw [hcount, count_reverse, ← halloc.count]
    by_cases hy : y ∈ bh
    · obtain ⟨j, hj⟩ := mem_iff_getElem?.mp hy
      rw [hset j y hj, count_eq_one_of_mem hnodup hy, (hbh.idle y (by simp [hy])).1]
      rfl
    · rw [hkeep y hy, count_eq_zero.mpr hy, Nat.sub_zero]
  · rw [brelseAll_eq]
    rw [hkeys.memMap, hload]
    change update s'.memMap (address / pageSize) (s'.memMap (address / pageSize) + 1) f = _
    rw [hown.page]
    by_cases hfown : f = own
    · rw [hfown, update_self, if_pos rfl, halloc.memMap own (nodup_cons.mp hs.pages).1]
    · rw [update_of_ne hfown, if_neg hfown, halloc.memMap f hf]
  · obtain ⟨hb, habsent⟩ := hnone i hi
    have hview : SameView s s' := by
      refine ⟨fun y => by rw [hfree], fun y hy => ?_, halloc.hash, halloc.byte, halloc.disk,
        halloc.pages⟩
      rw [halloc.head y hy]
    have hunread : ∀ j x, bh[j]? = some x →
        (((s'.loadInto dev b 0 bh).mapPage address).head x) = (s'.head x).loaded dev (b j) := by
      intro j x hj
      have hload := hset j x hj
      rwa [Nat.zero_add] at hload
    have hfilter : (bh.filter fun x =>
        !(((s'.loadInto dev b 0 bh).mapPage address).head x).uptodate) = bh := by
      refine filter_eq_self.mpr fun x hx => ?_
      obtain ⟨j, hj⟩ := mem_iff_getElem?.mp hx
      rw [hunread j x hj]
      rfl
    have hio' : ∀ n, ((s'.loadInto dev b 0 bh).mapPage address).io n = true := by
      rw [hload]
      rw [halloc.io]
      exact hio
    obtain ⟨-, hslices⟩ := readSlices address dev (bs dev) b hnodup
      ((s'.loadInto dev b 0 bh).mapPage address) 0 hio' fun j x hj => by
        obtain ⟨hdata, hsize⟩ := hsplit j x hj
        rw [hunread j x hj, Nat.zero_add]
        exact ⟨by simpa [Head.loaded] using hdata, hsize, rfl, rfl, rfl⟩
    have hin : i < bh.length := by omega
    have hbyte := hslices i _ (List.getElem?_eq_getElem hin) k hk
    rw [Nat.zero_add] at hbyte
    rw [(brelseAll_view _ _).byte, if_neg hb]
    unfold Cache.readBuffers
    rw [hfilter, hbyte, ← hview.content hs dev (b i) k hk]
    unfold Cache.content
    rw [habsent, hload]
    rfl

theorem tryToLoadAligned_spec {r : ℕ} (hheads : s.Heads [])
    (hs : s.Data bs own) (hown : s.Zeroed address own)
    (h : s.tryToLoadAligned address dev b (bs dev) = (s', r)) :
    (r = 0 ∧ Step bs own s s' []) ∨ (r = address ∧ Loaded s s' own address dev b (bs dev)) := by
  have hempty : s.Split address (bs dev) (pageSize / bs dev) [] := by
    intro i y hy
    simp at hy
  unfold Cache.tryToLoadAligned at h
  cases hcreate : s.createBuffers address (bs dev) with
  | mk s1 got =>
    obtain ⟨halloc, hfree, hresult⟩ := createFrom_spec hheads hempty hcreate
    simp only [hcreate] at h
    cases got with
    | none =>
      obtain ⟨rfl, rfl⟩ := Prod.mk.inj h
      exact .inl ⟨rfl, halloc.step hs hresult hfree⟩
    | some bh =>
      obtain ⟨hbh, hsplit, hlength⟩ := hresult
      simp only at h
      split at h
      next hnone =>
        obtain ⟨rfl, rfl⟩ := Prod.mk.inj h
        exact .inr ⟨rfl, load_spec hs hown halloc hfree hbh hsplit hlength hnone⟩
      next =>
        obtain ⟨rfl, rfl⟩ := Prod.mk.inj h
        obtain ⟨halloc', hheads', hfree'⟩ := putUnusedBufferHeads_spec hbh
        exact .inl ⟨rfl, (halloc.trans halloc').step hs hheads' (hfree'.trans hfree)⟩

end LinuxKernel.BreadPage
