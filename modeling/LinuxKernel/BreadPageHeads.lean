import LinuxKernel.BreadPageModel

/-!
# Buffer heads and the pages of the buffer cache

What `create_buffers` and `grow_buffers` do to the buffer heads: no count changes,
and pages come from the lists of free pages only.
-/

namespace LinuxKernel.BreadPage
open Function List

variable {s s' s'' : Cache} {bh : List ℕ} {x : ℕ}

@[simp] theorem setHead_self (s : Cache) (x : ℕ) (h : Head) : (s.setHead x h).head x = h :=
  update_self ..

theorem setHead_of_ne {y : ℕ} (hne : y ≠ x) (h : Head) : (s.setHead x h).head y = s.head y :=
  update_of_ne hne ..

def Cache.freePages (s : Cache) : List ℕ := s.pages ++ s.secondary

/-- Every buffer head is in the free list, in use for nothing, or one of `bh`. -/
structure Cache.Heads (s : Cache) (bh : List ℕ) : Prop where
  nodup : (s.free ++ (bh ++ s.unused)).Nodup
  made : ∀ x ∈ s.free ++ (bh ++ s.unused), x < s.heads
  idle : ∀ x ∈ bh ++ s.unused, (s.head x).count = 0 ∧ (s.head x).dirt = false
  fresh : ∀ x, s.heads ≤ x → (s.head x).count = 0

structure Alloc (s s' : Cache) : Prop where
  free : ∀ x ∈ s.free, x ∈ s'.free
  head : ∀ x ∈ s.free, s'.head x = s.head x
  count : ∀ x, (s'.head x).count = (s.head x).count
  hash : s'.hash = s.hash
  byte : s'.byte = s.byte
  disk : s'.disk = s.disk
  io : s'.io = s.io
  highMemory : s'.highMemory = s.highMemory
  memMap : ∀ f, f ∉ s.freePages → s'.memMap f = s.memMap f
  pages : s'.freePages <:+ s.freePages

theorem Alloc.refl (s : Cache) : Alloc s s where
  free _ hx := hx
  head _ _ := rfl
  count _ := rfl
  hash := rfl
  byte := rfl
  disk := rfl
  io := rfl
  highMemory := rfl
  memMap _ _ := rfl
  pages := suffix_refl _

theorem Alloc.trans (h : Alloc s s') (h' : Alloc s' s'') : Alloc s s'' where
  free x hx := h'.free x (h.free x hx)
  head x hx := (h'.head x (h.free x hx)).trans (h.head x hx)
  count x := (h'.count x).trans (h.count x)
  hash := h'.hash.trans h.hash
  byte := h'.byte.trans h.byte
  disk := h'.disk.trans h.disk
  io := h'.io.trans h.io
  highMemory := h'.highMemory.trans h.highMemory
  memMap f hf := (h'.memMap f fun hin => hf (h.pages.subset hin)).trans (h.memMap f hf)
  pages := h'.pages.trans h.pages

section
variable {atomic : Bool} {page : ℕ} (h : s.getFreePage atomic = some (s', page))
include h

theorem getFreePage_some :
    s.freePages = page :: s'.freePages ∧
      s' = { s with
        pages := s'.pages
        secondary := s'.secondary
        memMap := update s.memMap page 1 } := by
  unfold Cache.getFreePage at h
  unfold Cache.freePages
  split at h
  next page' rest hpages =>
    obtain ⟨rfl, rfl⟩ := Prod.mk.inj (Option.some.inj h)
    simp [hpages]
  next hpages =>
    split at h
    next page' rest hsecondary =>
      split at h
      · obtain ⟨rfl, rfl⟩ := Prod.mk.inj (Option.some.inj h)
        simp [hpages, hsecondary]
      · simp at h
    next => simp at h

theorem getFreePage_alloc : Alloc s s' := by
  obtain ⟨hpages, hs'⟩ := getFreePage_some h
  rw [hs']
  refine ⟨fun _ hx => hx, fun _ _ => rfl, fun _ => rfl, rfl, rfl, rfl, rfl, rfl, fun f hf => ?_, ?_⟩
  · have hne : f ≠ page := by
      rintro rfl
      exact hf (by rw [hpages]; exact mem_cons_self)
    exact update_of_ne hne _ _
  · rw [hpages]
    exact suffix_cons _ _

end

theorem freePage_eq (s : Cache) (addr : ℕ) :
    ∃ count, s.freePage addr = { s with memMap := update s.memMap (addr / pageSize) count } := by
  unfold Cache.freePage
  split
  · split
    · split
      · exact ⟨_, rfl⟩
      · exact ⟨_, by rw [update_eq_self]⟩
    · exact ⟨_, by rw [update_eq_self]⟩
  · exact ⟨_, by rw [update_eq_self]⟩

/-! ## Buffer heads -/

def Cache.addHeads (s : Cache) : Cache :=
  { s with
    head := fun x => if s.heads ≤ x ∧ x < s.heads + headsPerPage then blank else s.head x
    unused := ((List.range headsPerPage).map (s.heads + ·)).reverse
    heads := s.heads + headsPerPage }

theorem mem_addHeads_unused : x ∈ s.addHeads.unused ↔ s.heads ≤ x ∧ x < s.heads + headsPerPage := by
  simp only [Cache.addHeads, mem_reverse, mem_map, mem_range]
  constructor
  · rintro ⟨i, hi, rfl⟩
    omega
  · rintro ⟨hlow, hlt⟩
    exact ⟨x - s.heads, by omega, by omega⟩

theorem addHeads_head (hx : x < s.heads) : s.addHeads.head x = s.head x := if_neg (by omega)

section
variable (hs : s.Heads bh)
include hs

theorem addHeads_alloc : Alloc s s.addHeads where
  free _ hx := hx
  head x hx := addHeads_head (hs.made x (mem_append_left _ hx))
  count x := by
    by_cases hnew : s.heads ≤ x ∧ x < s.heads + headsPerPage
    · have hblank : s.addHeads.head x = blank := if_pos hnew
      rw [hblank, hs.fresh x hnew.1]
      rfl
    · have hold : s.addHeads.head x = s.head x := if_neg hnew
      rw [hold]
  hash := rfl
  byte := rfl
  disk := rfl
  io := rfl
  highMemory := rfl
  memMap _ _ := rfl
  pages := suffix_refl _

theorem Cache.Heads.addHeads (hempty : s.unused = []) : s.addHeads.Heads bh where
  nodup := by
    have hold := hs.nodup
    rw [hempty, append_nil] at hold
    have hnew : s.addHeads.unused.Nodup := by
      unfold Cache.addHeads
      rw [nodup_reverse]
      exact nodup_range.map fun _ _ h => Nat.add_left_cancel h
    rw [← append_assoc]
    refine nodup_append'.mpr ⟨hold, hnew, fun x hx hin => ?_⟩
    have hlt := hs.made x (by rw [hempty, append_nil]; exact hx)
    have hge := (mem_addHeads_unused.mp hin).1
    omega
  made x hx := by
    change x < s.heads + headsPerPage
    rw [← append_assoc] at hx
    rcases mem_append.mp hx with hold | hnew
    · have hlt := hs.made x (by rw [hempty, append_nil]; exact hold)
      omega
    · exact (mem_addHeads_unused.mp hnew).2
  idle x hx := by
    rcases mem_append.mp hx with hold | hnew
    · have hlt := hs.made x (by simp [hold])
      rw [addHeads_head hlt]
      exact hs.idle x (by simp [hold])
    · have hblank : s.addHeads.head x = blank := if_pos (mem_addHeads_unused.mp hnew)
      rw [hblank]
      exact ⟨rfl, rfl⟩
  fresh x hx := by
    change s.heads + headsPerPage ≤ x at hx
    rw [(addHeads_alloc hs).count x]
    exact hs.fresh x (by omega)

theorem getMoreBufferHeads_spec :
    Alloc s s.getMoreBufferHeads ∧ s.getMoreBufferHeads.Heads bh ∧
      s.getMoreBufferHeads.free = s.free ∧
      ∀ x ∈ bh, s.getMoreBufferHeads.head x = s.head x := by
  unfold Cache.getMoreBufferHeads
  by_cases hunused : s.unused ≠ []
  · rw [if_pos hunused]
    exact ⟨Alloc.refl s, hs, rfl, fun _ _ => rfl⟩
  rw [if_neg hunused]
  cases hget : s.getFreePage false with
  | none => exact ⟨Alloc.refl s, hs, rfl, fun _ _ => rfl⟩
  | some r =>
    obtain ⟨s1, page⟩ := r
    obtain ⟨-, hs1⟩ := getFreePage_some hget
    have hheads : s1.Heads bh := by
      rw [hs1]
      exact ⟨hs.nodup, hs.made, hs.idle, hs.fresh⟩
    have hempty : s1.unused = [] := by
      rw [hs1]
      exact not_not.mp hunused
    have hfree : s1.addHeads.free = s.free := by
      change s1.free = s.free
      rw [hs1]
    refine ⟨(getFreePage_alloc hget).trans (addHeads_alloc hheads), hheads.addHeads hempty, hfree,
      fun x hx => ?_⟩
    change s1.addHeads.head x = s.head x
    rw [addHeads_head (hheads.made x (by simp [hx])), hs1]

omit hs in
theorem setHead_alloc (hx : x ∉ s.free) {h : Head} (hcount : h.count = (s.head x).count) :
    Alloc s (s.setHead x h) where
  free _ hy := hy
  head y hy := setHead_of_ne (ne_of_mem_of_not_mem hy hx) h
  count y := by
    by_cases hy : y = x
    · rw [hy, setHead_self, hcount]
    · rw [setHead_of_ne hy]
  hash := rfl
  byte := rfl
  disk := rfl
  io := rfl
  highMemory := rfl
  memMap _ _ := rfl
  pages := suffix_refl _

theorem Cache.Heads.setHead {h : Head} (hx : x ∈ bh ++ s.unused) (hcount : h.count = 0)
    (hdirt : h.dirt = false) : (s.setHead x h).Heads bh where
  nodup := hs.nodup
  made := hs.made
  idle y hy := by
    by_cases hsame : y = x
    · rw [hsame, setHead_self]
      exact ⟨hcount, hdirt⟩
    · rw [setHead_of_ne hsame]
      exact hs.idle y hy
  fresh y hy := by
    have hne : y ≠ x := by
      rintro rfl
      have hlt := hs.made y (mem_append_right _ hx)
      change s.heads ≤ y at hy
      omega
    rw [setHead_of_ne hne]
    exact hs.fresh y hy

theorem Cache.Heads.setFree (hx : x ∈ s.free) (h : Head) :
    (s.setHead x h).Heads bh where
  nodup := hs.nodup
  made := hs.made
  idle y hy := by
    have hne : y ≠ x := by
      rintro rfl
      exact (nodup_append'.mp hs.nodup).2.2 hx hy
    rw [setHead_of_ne hne]
    exact hs.idle y hy
  fresh y hy := by
    have hne : y ≠ x := by
      rintro rfl
      have hlt := hs.made y (mem_append_left _ hx)
      change s.heads ≤ y at hy
      omega
    rw [setHead_of_ne hne]
    exact hs.fresh y hy

theorem Cache.Heads.permFree {free : List ℕ} (hperm : free.Perm s.free) :
    { s with free := free }.Heads bh where
  nodup := (hperm.append_right _).nodup_iff.mpr hs.nodup
  made y hy := hs.made y ((hperm.append_right _).mem_iff.mp hy)
  idle := hs.idle
  fresh := hs.fresh

theorem Cache.Heads.notMem_free (hx : x ∈ bh ++ s.unused) : x ∉ s.free :=
  fun hfree => (nodup_append'.mp hs.nodup).2.2 hfree hx

theorem Cache.Heads.perm {bh' unused : List ℕ} (hperm : (bh' ++ unused).Perm (bh ++ s.unused)) :
    { s with unused := unused }.Heads bh' where
  nodup := (hperm.append_left s.free).nodup_iff.mpr hs.nodup
  made y hy := hs.made y ((hperm.append_left s.free).mem_iff.mp hy)
  idle y hy := hs.idle y (hperm.mem_iff.mp hy)
  fresh := hs.fresh

omit hs in
theorem Alloc.setUnused (h : Alloc s s') (unused : List ℕ) : Alloc s { s' with unused := unused } :=
  ⟨h.free, h.head, h.count, h.hash, h.byte, h.disk, h.io, h.highMemory, h.memMap, h.pages⟩

theorem getUnusedBufferHead_spec {r : Option ℕ} (h : s.getUnusedBufferHead = (s', r)) :
    Alloc s s' ∧ s'.Heads (r.toList ++ bh) ∧ s'.free = s.free ∧ ∀ x ∈ bh, s'.head x = s.head x := by
  obtain ⟨halloc, hheads, hfree, hkept⟩ := getMoreBufferHeads_spec hs
  unfold Cache.getUnusedBufferHead at h
  cases hunused : s.getMoreBufferHeads.unused with
  | nil =>
    simp only [hunused] at h
    obtain ⟨rfl, rfl⟩ := Prod.mk.inj h
    exact ⟨halloc, hheads, hfree, hkept⟩
  | cons x rest =>
    simp only [hunused] at h
    obtain ⟨rfl, rfl⟩ := Prod.mk.inj h
    have hx : x ∈ bh ++ s.getMoreBufferHeads.unused := by simp [hunused]
    obtain ⟨hcount, hdirt⟩ := hheads.idle x hx
    have hout : x ∉ s.getMoreBufferHeads.free := hheads.notMem_free hx
    have hperm : (x :: bh ++ rest).Perm (bh ++ s.getMoreBufferHeads.unused) := by
      rw [hunused]
      exact perm_middle.symm
    have htaken := hheads.perm hperm
    have hset : Alloc s.getMoreBufferHeads
        (s.getMoreBufferHeads.setHead x
          { s.getMoreBufferHeads.head x with data := 0, size := 0 }) :=
      setHead_alloc hout rfl
    refine ⟨halloc.trans (hset.setUnused rest), htaken.setHead (by simp) hcount hdirt, hfree,
      fun y hy => ?_⟩
    have hne : y ≠ x := by
      rintro rfl
      have hnodup := (nodup_append'.mp htaken.nodup).2.1
      exact (nodup_cons.mp hnodup).1 (mem_append_left _ hy)
    rw [setHead_of_ne hne]
    exact hkept y hy

omit hs in
theorem putUnusedBufferHead_spec (hs : s.Heads (x :: bh)) :
    Alloc s (s.putUnusedBufferHead x) ∧ (s.putUnusedBufferHead x).Heads bh ∧
      (s.putUnusedBufferHead x).free = s.free := by
  have hx : x ∈ (x :: bh) ++ s.unused := by simp
  have hout : x ∉ s.free := hs.notMem_free hx
  have hcount := (hs.idle x hx).1
  have hcleared := hs.setHead (h := blank) hx rfl rfl
  exact ⟨(setHead_alloc hout (h := blank) hcount.symm).setUnused _, hcleared.perm perm_middle, rfl⟩

theorem putUnusedBufferHeads_spec :
    Alloc s (s.putUnusedBufferHeads bh) ∧ (s.putUnusedBufferHeads bh).Heads [] ∧
      (s.putUnusedBufferHeads bh).free = s.free := by
  induction bh generalizing s with
  | nil => exact ⟨Alloc.refl s, hs, rfl⟩
  | cons x bh ih =>
    obtain ⟨halloc, hheads, hfree⟩ := putUnusedBufferHead_spec hs
    obtain ⟨halloc', hheads', hfree'⟩ := ih hheads
    exact ⟨halloc.trans halloc', hheads', hfree'.trans hfree⟩

end

def Cache.Split (s : Cache) (page size n : ℕ) (bh : List ℕ) : Prop :=
  ∀ i x, bh[i]? = some x → (s.head x).data = page + (n + i) * size ∧ (s.head x).size = size

theorem createFrom_spec {page size n : ℕ} {r : Option (List ℕ)} (hs : s.Heads bh)
    (hsplit : s.Split page size n bh) (h : s.createFrom page size n bh = (s', r)) :
    Alloc s s' ∧ s'.free = s.free ∧
      match r with
      | none => s'.Heads []
      | some bh' => s'.Heads bh' ∧ s'.Split page size 0 bh' ∧ bh'.length = n + bh.length := by
  induction n generalizing s bh with
  | zero =>
    obtain ⟨rfl, rfl⟩ := Prod.mk.inj h
    exact ⟨Alloc.refl s, rfl, hs, hsplit, by simp⟩
  | succ n ih =>
    unfold Cache.createFrom at h
    cases hget : s.getUnusedBufferHead with
    | mk s1 got =>
      obtain ⟨halloc, hheads, hfree, hkept⟩ := getUnusedBufferHead_spec hs hget
      simp only [hget] at h
      cases got with
      | none =>
        obtain ⟨rfl, rfl⟩ := Prod.mk.inj h
        obtain ⟨halloc', hheads', hfree'⟩ := putUnusedBufferHeads_spec hheads
        exact ⟨halloc.trans halloc', hfree'.trans hfree, hheads'⟩
      | some x =>
        have hx : x ∈ (x :: bh) ++ s1.unused := by simp
        have hout : x ∉ s1.free := hheads.notMem_free hx
        obtain ⟨hcount, hdirt⟩ := hheads.idle x hx
        have hnext := hheads.setHead hx hcount hdirt
          (h := { s1.head x with data := page + n * size, size := size })
        have hsplit' : Cache.Split
            (s1.setHead x { s1.head x with data := page + n * size, size := size })
            page size n (x :: bh) := by
          intro i y hy
          cases i with
          | zero =>
            obtain rfl := Option.some.inj hy
            rw [setHead_self]
            exact ⟨rfl, rfl⟩
          | succ i =>
            have hin : y ∈ bh := mem_of_getElem? hy
            have hne : y ≠ x := by
              rintro rfl
              have hnodup := (nodup_append'.mp hheads.nodup).2.1
              exact (nodup_cons.mp hnodup).1 (mem_append_left _ hin)
            obtain ⟨hdata, hsize⟩ := hsplit i y hy
            rw [setHead_of_ne hne, hkept y hin, hdata, hsize]
            exact ⟨by ring, rfl⟩
        obtain ⟨halloc', hfree', hresult⟩ := ih hnext hsplit' h
        have hset := setHead_alloc hout
          (h := { s1.head x with data := page + n * size, size := size }) rfl
        refine ⟨halloc.trans (hset.trans halloc'), hfree'.trans hfree, ?_⟩
        cases r with
        | none => exact hresult
        | some bh' =>
          obtain ⟨hbh, hdone, hlength⟩ := hresult
          refine ⟨hbh, hdone, ?_⟩
          rw [hlength]
          simp only [Option.toList_some, length_append, length_singleton]
          omega

theorem freePage_alloc {page : ℕ} (h : Alloc s s') (hin : page ∈ s.freePages) :
    Alloc s (s'.freePage (page * pageSize)) := by
  have hdiv : page * pageSize / pageSize = page := Nat.mul_div_cancel _ (by decide)
  obtain ⟨count, hfreed⟩ := freePage_eq s' (page * pageSize)
  rw [hfreed, hdiv]
  refine ⟨h.free, h.head, h.count, h.hash, h.byte, h.disk, h.io, h.highMemory,
    fun f hf => ?_, h.pages⟩
  have hne : f ≠ page := (ne_of_mem_of_not_mem hin hf).symm
  exact (update_of_ne hne _ _).trans (h.memMap f hf)

theorem Cache.Heads.grown (hs : s.Heads bh) : { s with free := bh.reverse ++ s.free }.Heads [] := by
  have hperm : (bh.reverse ++ s.free ++ s.unused).Perm (s.free ++ (bh ++ s.unused)) := by
    rw [← append_assoc]
    refine List.Perm.append_right _ ?_
    exact (perm_append_comm).trans (List.Perm.append_left _ (reverse_perm bh))
  exact ⟨hperm.nodup_iff.mpr hs.nodup, fun y hy => hs.made y (hperm.mem_iff.mp hy),
    fun y hy => hs.idle y (mem_append_right _ hy), hs.fresh⟩

structure Grown (s s' : Cache) (size page : ℕ) (bh : List ℕ) : Prop where
  page_mem : page ∈ s.freePages
  page_taken : s.freePages.Nodup → page ∉ s'.freePages
  free : s'.free = bh.reverse ++ s.free
  split : s'.Split (page * pageSize) size 0 bh
  length : bh.length = pageSize / size
  dirt : ∀ x ∈ bh, (s'.head x).dirt = false

theorem growBuffers_spec {atomic ok : Bool} {size : ℕ} (hs : s.Heads [])
    (h : s.growBuffers atomic size = (s', ok)) :
    Alloc s s' ∧ s'.Heads [] ∧ (s'.free = s.free ∨ ∃ page bh, Grown s s' size page bh) := by
  unfold Cache.growBuffers at h
  split at h
  · obtain ⟨rfl, -⟩ := Prod.mk.inj h
    exact ⟨Alloc.refl s, hs, .inl rfl⟩
  cases hget : s.getFreePage atomic with
  | none =>
    simp only [hget] at h
    obtain ⟨rfl, -⟩ := Prod.mk.inj h
    exact ⟨Alloc.refl s, hs, .inl rfl⟩
  | some r =>
    obtain ⟨s1, page⟩ := r
    simp only [hget] at h
    obtain ⟨hpages, hs1⟩ := getFreePage_some hget
    have halloc := getFreePage_alloc hget
    have hin : page ∈ s.freePages := by
      rw [hpages]
      exact mem_cons_self
    have hheads : s1.Heads [] := by
      rw [hs1]
      exact ⟨hs.nodup, hs.made, hs.idle, hs.fresh⟩
    have hfree : s1.free = s.free := by rw [hs1]
    have hempty : s1.Split (page * pageSize) size (pageSize / size) [] := by
      intro i y hy
      simp at hy
    cases hcreate : s1.createBuffers (page * pageSize) size with
    | mk s2 got =>
      obtain ⟨halloc', hfree', hresult⟩ := createFrom_spec hheads hempty hcreate
      simp only [hcreate] at h
      cases got with
      | none =>
        obtain ⟨rfl, -⟩ := Prod.mk.inj h
        obtain ⟨count, hfreed⟩ := freePage_eq s2 (page * pageSize)
        refine ⟨freePage_alloc (halloc.trans halloc') hin, ?_, .inl ?_⟩
        · rw [hfreed]
          exact ⟨hresult.nodup, hresult.made, hresult.idle, hresult.fresh⟩
        · rw [hfreed]
          exact hfree'.trans hfree
      | some bh =>
        obtain ⟨hbh, hsplit, hlength⟩ := hresult
        obtain ⟨rfl, -⟩ := Prod.mk.inj h
        have hboth := halloc.trans halloc'
        refine ⟨⟨fun y hy => ?_, hboth.head, hboth.count, hboth.hash, hboth.byte, hboth.disk,
          hboth.io, hboth.highMemory, hboth.memMap, hboth.pages⟩, hbh.grown,
          .inr ⟨page, bh, hin, fun hnodup hstill => ?_, ?_, hsplit, hlength, fun y hy => ?_⟩⟩
        · exact mem_append_right _ (hboth.free y hy)
        · rw [hpages, nodup_cons] at hnodup
          exact hnodup.1 (halloc'.pages.subset hstill)
        · exact congrArg _ (hfree'.trans hfree)
        · exact (hbh.idle y (mem_append_left _ hy)).2

end LinuxKernel.BreadPage
