import LinuxKernel.ShmAttachModel
import LinuxKernel.ShmMapAtomic

/-!
# Attach ranges are disjoint

Without `SHM_REMAP` it is the page tables that keep a new attach out of the old ones:
the entries of an attached page are never 0, and `shm_map` takes only pages whose entry
is 0.  With `SHM_REMAP` it is the test of both ends of the new range against each old
one, which an old range inside the new one passes.
-/

namespace LinuxKernel.ShmAttach
open List

open Paging

/-! ## Ranges and their pages -/

def ShmDesc.lo (shmd : ShmDesc) : ℕ := shmd.start.toNat / pageSize

structure ShmDesc.Wf (shmd : ShmDesc) : Prop where
  aligned : shmd.start.toNat % pageSize = 0
  stop : shmd.stop.toNat = shmd.start.toNat + pageSize * shmd.seg.shmNpages
  below : shmd.stop.toNat ≤ 0xbfffc000

def ShmDesc.Apart (shmd shmd' : ShmDesc) : Prop :=
  ∀ addr : UInt32, ¬(shmd.start ≤ addr ∧ addr < shmd.stop ∧ shmd'.start ≤ addr ∧ addr < shmd'.stop)

variable {shmd shmd' : ShmDesc}

theorem ShmDesc.Apart.symm (h : shmd.Apart shmd') : shmd'.Apart shmd :=
  fun addr haddr => h addr ⟨haddr.2.2.1, haddr.2.2.2, haddr.1, haddr.2.1⟩

theorem ShmDesc.Wf.apart_iff (h : shmd.Wf) (h' : shmd'.Wf) :
    shmd.Apart shmd' ↔ ∀ page, InRange shmd.lo shmd.seg.shmNpages page →
      ¬InRange shmd'.lo shmd'.seg.shmNpages page := by
  obtain ⟨haligned, hstop, hbelow⟩ := h
  obtain ⟨haligned', hstop', hbelow'⟩ := h'
  unfold pageSize at *
  constructor
  · intro hapart page hpage hpage'
    unfold InRange ShmDesc.lo pageSize at *
    have haddr : (UInt32.ofNat (4096 * page)).toNat = 4096 * page := by
      rw [UInt32.toNat_ofNat', Nat.mod_eq_of_lt]
      omega
    apply hapart (UInt32.ofNat (4096 * page))
    simp only [UInt32.le_iff_toNat_le, UInt32.lt_iff_toNat_lt, haddr]
    omega
  · intro hpages addr haddr
    simp only [UInt32.le_iff_toNat_le, UInt32.lt_iff_toNat_lt] at haddr
    apply hpages (addr.toNat / 4096)
    · unfold InRange ShmDesc.lo pageSize
      omega
    · unfold InRange ShmDesc.lo pageSize
      omega

theorem Segment.npages_pos (seg : Segment) : 1 ≤ seg.shmNpages := by
  have hmin := seg.shmmin
  unfold Segment.shmNpages pageSize
  omega

theorem Segment.npages_le (seg : Segment) : seg.shmNpages ≤ 1018 := by
  have hmax := seg.shmmax
  unfold Segment.shmNpages pageSize
  omega

theorem apart_of_not_remapMeets (h : shmd.Wf) (h' : shmd'.Wf)
    (hmeets : remapMeets shmd.start (UInt32.ofNat shmd.seg.shmSegsz) shmd' = false)
    (hinside : ¬(shmd.start < shmd'.start ∧
      shmd'.stop.toNat ≤ shmd.start.toNat + shmd.seg.shmSegsz)) : shmd.Apart shmd' := by
  obtain ⟨haligned, hstop, hbelow⟩ := h
  obtain ⟨haligned', hstop', hbelow'⟩ := h'
  have hmax := shmd.seg.shmmax
  have hsegsz : (UInt32.ofNat shmd.seg.shmSegsz).toNat = shmd.seg.shmSegsz := by
    rw [UInt32.toNat_ofNat', Nat.mod_eq_of_lt]
    omega
  unfold Segment.shmNpages at *
  unfold pageSize at *
  have hend : (shmd.start + UInt32.ofNat shmd.seg.shmSegsz).toNat =
      shmd.start.toNat + shmd.seg.shmSegsz := by
    rw [UInt32.toNat_add, hsegsz, Nat.mod_eq_of_lt]
    omega
  unfold remapMeets at hmeets
  simp only [Bool.or_eq_false_iff, Bool.and_eq_false_iff, decide_eq_false_iff_not,
    UInt32.le_iff_toNat_le, UInt32.lt_iff_toNat_lt, hend] at hmeets hinside
  intro addr haddr
  simp only [UInt32.le_iff_toNat_le, UInt32.lt_iff_toNat_lt] at haddr
  omega

theorem and_pageMask_aligned (addr : UInt32) : (addr &&& pageMask).toNat % pageSize = 0 := by
  have hzero : pageMask &&& ~~~pageMask = 0 := by decide
  apply (aligned_iff (addr &&& pageMask)).mp
  rw [UInt32.and_assoc, hzero, UInt32.and_zero]

variable {p : Process} {seg : Segment}

theorem shmatAddr_aligned {shmaddr addr : UInt32} {rnd remap : Bool}
    (h : p.shmatAddr seg shmaddr rnd remap = some addr) : addr.toNat % pageSize = 0 := by
  have hmask : shmlba - 1 = ~~~pageMask := by decide
  have hnot : ~~~(shmlba - 1) = pageMask := by decide
  unfold Process.shmatAddr at h
  split at h
  · split at h
    · contradiction
    · rw [Option.some.injEq] at h
      rw [← h]
      exact and_pageMask_aligned _
  · split at h
    · split at h
      · rw [Option.some.injEq, hnot] at h
        rw [← h]
        exact and_pageMask_aligned _
      · contradiction
    · rename_i hzero
      rw [Option.some.injEq] at h
      rw [not_not, hmask] at hzero
      rw [← h]
      exact (aligned_iff shmaddr).mp hzero

theorem attach_below {addr : UInt32}
    (h : ¬p.startStack - 16384 - UInt32.ofNat (pageSize * seg.shmNpages) < addr) :
    addr.toNat + pageSize * seg.shmNpages ≤ 0xbfffc000 := by
  have hlow := p.stack_low
  have hhigh := p.stack_high
  have hpages := seg.npages_le
  have hsize : (UInt32.ofNat (pageSize * seg.shmNpages)).toNat = pageSize * seg.shmNpages := by
    unfold pageSize
    rw [UInt32.toNat_ofNat', Nat.mod_eq_of_lt]
    omega
  have h16384 : (16384 : UInt32).toNat = 16384 := rfl
  have hstack : (p.startStack - 16384).toNat = p.startStack.toNat - 16384 := by
    rw [UInt32.toNat_sub_of_le, h16384]
    rw [UInt32.le_iff_toNat_le, h16384]
    omega
  unfold pageSize at *
  have htop : (p.startStack - 16384 - UInt32.ofNat (4096 * seg.shmNpages)).toNat =
      p.startStack.toNat - 16384 - 4096 * seg.shmNpages := by
    rw [UInt32.toNat_sub_of_le, hsize, hstack]
    rw [UInt32.le_iff_toNat_le, hsize, hstack]
    omega
  rw [UInt32.lt_iff_toNat_lt, htop] at h
  omega

theorem shmSgn_low : ∀ (id : Fin 128) (rdonly : Bool), (shmSgn id rdonly).toNat % 32768 ≠ 0 := by
  decide +kernel

theorem shmSgn_ne_zero {id : ℕ} (hid : id < 128) (rdonly : Bool) (k : ℕ) :
    shmSgn id rdonly + UInt32.ofNat k * shmIdxStep ≠ 0 := by
  intro hzero
  have hlow := shmSgn_low ⟨id, hid⟩ rdonly
  have hstep : shmIdxStep.toNat = 32768 := rfl
  rw [← UInt32.toNat_inj, UInt32.toNat_add, UInt32.toNat_mul, hstep] at hzero
  change (_ + _ % 4294967296) % 4294967296 = 0 at hzero
  dsimp only at hlow
  omega

/-! ## The invariant -/

structure Process.Attachments (p : Process) : Prop where
  wf : ∀ shmd ∈ p.shm, shmd.Wf
  mapped : ∀ shmd ∈ p.shm, ∀ page, InRange shmd.lo shmd.seg.shmNpages page → p.mm.entry page ≠ 0
  apart : p.shm.Pairwise ShmDesc.Apart

structure Process.Accepts (p : Process) (seg : Segment) (addr : UInt32)
    (remap permitted current memory : Bool) : Prop where
  below : ¬p.startStack - 16384 - UInt32.ofNat (pageSize * seg.shmNpages) < addr
  notMeets : remap = true → ∀ shmd ∈ p.shm, remapMeets addr (UInt32.ofNat seg.shmSegsz) shmd = false
  permitted : permitted = true
  current : current = true
  memory : memory = true
  canAttach : p.mm.CanAttach remap (addr.toNat / pageSize) seg.shmNpages

def Process.Surrounds (p : Process) : Event → Prop
  | .shmat seg shmaddr _ rnd remap permitted current memory =>
    remap = true ∧ ∃ addr, p.shmatAddr seg shmaddr rnd remap = some addr ∧
      p.Accepts seg addr remap permitted current memory ∧
      ∃ shmd ∈ p.shm, addr < shmd.start ∧ shmd.stop.toNat ≤ addr.toNat + seg.shmSegsz
  | .shmdt _ => False
  | .pages _ => False

/-- What a call of `sys_shmat` comes to: it refuses and has changed no entry, or it has
attached the segment. -/
inductive Process.Shmat (p : Process) (seg : Segment) (shmaddr : UInt32)
    (rdonly rnd remap permitted current memory : Bool) : Process × ℤ → Prop
  | refused (r : Process × ℤ) (error : r.2 ≠ 0) (shm : r.1.shm = p.shm)
      (entry : ∀ page, r.1.mm.entry page = p.mm.entry page) :
      Shmat p seg shmaddr rdonly rnd remap permitted current memory r
  | attached (r : Process × ℤ) (shmd : ShmDesc) (ok : r.2 = 0) (shm : r.1.shm = shmd :: p.shm)
      (wf : shmd.Wf) (seg_eq : shmd.seg = seg)
      (shmatAddr : p.shmatAddr seg shmaddr rnd remap = some shmd.start)
      (accepts : p.Accepts seg shmd.start remap permitted current memory)
      (signs : p.mm.Attached r.1.mm shmd.lo seg.shmNpages (shmSgn seg.id rdonly)) :
      Shmat p seg shmaddr rdonly rnd remap permitted current memory r

theorem shmat_spec (p : Process) (seg : Segment) (shmaddr : UInt32)
    (rdonly rnd remap permitted current memory : Bool) :
    ∃ r, p.shmat seg shmaddr rdonly rnd remap permitted current memory = some r ∧
      p.Shmat seg shmaddr rdonly rnd remap permitted current memory r := by
  have hrefused : ∀ err : ℤ, err ≠ 0 →
      p.Shmat seg shmaddr rdonly rnd remap permitted current memory (p, err) :=
    fun err herr => .refused (p, err) herr rfl fun _ => rfl
  unfold Process.shmat
  cases haddr : p.shmatAddr seg shmaddr rnd remap with
  | none => exact ⟨_, rfl, hrefused _ (by decide)⟩
  | some addr =>
    dsimp only
    split
    · exact ⟨_, rfl, hrefused _ (by decide)⟩
    · rename_i hbelow
      split
      · exact ⟨_, rfl, hrefused _ (by decide)⟩
      · rename_i hmeets
        split
        · exact ⟨_, rfl, hrefused _ (by decide)⟩
        · rename_i hpermitted
          split
          · exact ⟨_, rfl, hrefused _ (by decide)⟩
          · rename_i hcurrent
            split
            · exact ⟨_, rfl, hrefused _ (by decide)⟩
            · rename_i hmemory
              have haligned := shmatAddr_aligned haddr
              have hend := attach_below hbelow
              have hpages : UInt32.ofNat (seg.shmNpages * pageSize) =
                  UInt32.ofNat (pageSize * seg.shmNpages) := by rw [Nat.mul_comm]
              have hstop : (addr + UInt32.ofNat (seg.shmNpages * pageSize)).toNat =
                  addr.toNat + pageSize * seg.shmNpages := by
                rw [hpages, UInt32.toNat_add, UInt32.toNat_ofNat', Nat.add_mod_mod,
                  Nat.mod_eq_of_lt]
                omega
              obtain ⟨r, hr, hzero, hattached, herror⟩ := shmMap_spec p.mm
                (shmSgn seg.id rdonly) remap haligned hstop (by rw [hstop]; omega)
              rw [hr]
              by_cases hok : r.2 = 0
              · refine ⟨_, rfl, ?_⟩
                dsimp only
                rw [if_neg (not_not.mpr hok)]
                refine .attached _ _ rfl rfl ⟨haligned, hstop, by rw [hstop]; exact hend⟩ rfl haddr
                  ⟨hbelow, fun hremap shmd hshmd => ?_, by simpa using hpermitted,
                    by simpa using hcurrent, by simpa using hmemory, hzero.mp hok⟩
                  (hattached hok)
                by_contra hne
                rw [Bool.not_eq_false] at hne
                exact hmeets ⟨hremap, any_eq_true.mpr ⟨shmd, hshmd, hne⟩⟩
              · refine ⟨_, rfl, ?_⟩
                dsimp only
                rw [if_pos hok]
                refine .refused _ hok rfl fun page => ?_
                rw [herror hok, checkPages_entry]

variable {p' : Process}

theorem Process.Attachments.of_entries (h : p.Attachments)
    (hshm : p'.shm = p.shm) (hentry : ∀ page, p.mm.entry page ≠ 0 → p'.mm.entry page ≠ 0) :
    p'.Attachments where
  wf := by
    rw [hshm]
    exact h.wf
  mapped shmd hshmd page hpage := by
    rw [hshm] at hshmd
    exact hentry page (h.mapped shmd hshmd page hpage)
  apart := by
    rw [hshm]
    exact h.apart

theorem Process.Attachments.shmat {shmaddr : UInt32}
    {rdonly rnd remap permitted current memory : Bool} {r : Process × ℤ} (h : p.Attachments)
    (hshmat : p.Shmat seg shmaddr rdonly rnd remap permitted current memory r)
    (hunsurrounded : ¬p.Surrounds (.shmat seg shmaddr rdonly rnd remap permitted current memory)) :
    r.1.Attachments := by
  cases hshmat with
  | refused error shm entry =>
    exact h.of_entries shm fun page hpage => by
      rw [entry page]
      exact hpage
  | attached shmd ok shm wf seg_eq shmatAddr accepts signs =>
    rw [← seg_eq] at signs
    have hapart : ∀ shmd' ∈ p.shm, shmd.Apart shmd' := by
      intro shmd' hshmd'
      cases hremap : remap with
      | false =>
        rw [wf.apart_iff (h.wf shmd' hshmd')]
        intro page hpage hpage'
        have hcan := accepts.canAttach.1
        rw [hremap, ← seg_eq] at hcan
        exact h.mapped shmd' hshmd' page hpage' (hcan.resolve_left Bool.false_ne_true page hpage)
      | true =>
        have hmeets := accepts.notMeets hremap shmd' hshmd'
        rw [← seg_eq] at hmeets
        apply apart_of_not_remapMeets wf (h.wf shmd' hshmd') hmeets
        rintro ⟨hlt, hle⟩
        rw [seg_eq] at hle
        exact hunsurrounded ⟨hremap, shmd.start, shmatAddr, accepts, shmd', hshmd', hlt, hle⟩
    refine ⟨?_, ?_, ?_⟩
    · rw [shm, forall_mem_cons]
      exact ⟨wf, h.wf⟩
    · rw [shm, forall_mem_cons]
      constructor
      · intro page hpage
        unfold InRange at hpage
        have hsign := signs.sign (page - shmd.lo) (by omega)
        rw [Nat.add_sub_cancel' hpage.1] at hsign
        rw [hsign]
        exact shmSgn_ne_zero shmd.seg.id_lt rdonly _
      · intro shmd' hshmd' page hpage
        have hout := (wf.apart_iff (h.wf shmd' hshmd')).mp (hapart shmd' hshmd')
        rw [signs.entry page fun hin => hout page hin hpage]
        exact h.mapped shmd' hshmd' page hpage
    · rw [shm, pairwise_cons]
      exact ⟨hapart, h.apart⟩

theorem ShmDesc.Wf.unmap {mm : Mm} (h : shmd.Wf)
    (hmapped : ∀ page, InRange shmd.lo shmd.seg.shmNpages page → mm.entry page ≠ 0) :
    ∃ mm', mm.unmapPageRange shmd.start (UInt32.ofNat shmd.seg.shmSegsz) = some (mm', 0) ∧
      UnmapSpec mm shmd.lo shmd.seg.shmNpages mm' := by
  obtain ⟨haligned, hstop, hbelow⟩ := h
  have hmax := shmd.seg.shmmax
  have hpos := shmd.seg.npages_pos
  have hsize : (UInt32.ofNat shmd.seg.shmSegsz).toNat = shmd.seg.shmSegsz := by
    rw [UInt32.toNat_ofNat', Nat.mod_eq_of_lt]
    omega
  have htable : ∀ value, mm.dir (dirIndex shmd.start) ≠ .absent value := by
    intro value hdir
    rw [dirIndex_eq] at hdir
    exact hmapped shmd.lo ⟨le_rfl, by omega⟩ (entryOf_absent hdir)
  have hspec := unmapPageRange_spec mm shmd.start
    (UInt32.ofNat shmd.seg.shmSegsz) ((aligned_iff _).mpr haligned)
    (by
      omega)
    (by
      omega)
    (.inr (.inr fun value hdir => absurd hdir (htable value)))
  rw [hsize] at hspec
  exact hspec

theorem shmdt_spec (h : p.Attachments) (shmaddr : UInt32) :
    ∃ r, p.shmdt shmaddr = some r ∧ r.1.Attachments := by
  unfold Process.shmdt
  cases hfind : p.shm.find? fun shmd => shmd.start = shmaddr with
  | none => exact ⟨_, rfl, h⟩
  | some shmd =>
    obtain ⟨hstart, before, after, hlist, hbefore⟩ := List.find?_eq_some_iff_append.mp hfind
    have hmem : shmd ∈ p.shm := mem_of_find?_eq_some hfind
    obtain ⟨mm', hunmap, hspec⟩ := (h.wf shmd hmem).unmap (h.mapped shmd hmem)
    have herase : p.shm.eraseP (fun shmd => shmd.start = shmaddr) = before ++ after := by
      rw [hlist, eraseP_append_right, eraseP_cons, hstart]
      · rfl
      · intro shmd' hshmd'
        simpa using hbefore shmd' hshmd'
    have hsub : List.Sublist (before ++ after) p.shm := by
      rw [hlist]
      exact List.Sublist.append_left (sublist_cons_self _ _) _
    have hpairs := h.apart
    rw [hlist, pairwise_append, pairwise_cons] at hpairs
    obtain ⟨-, ⟨hafter, -⟩, hcross⟩ := hpairs
    have hapart : ∀ shmd' ∈ before ++ after, shmd.Apart shmd' := by
      intro shmd' hshmd'
      rcases mem_append.mp hshmd' with hshmd' | hshmd'
      · exact (hcross shmd' hshmd' shmd mem_cons_self).symm
      · exact hafter shmd' hshmd'
    dsimp only
    rw [hunmap]
    refine ⟨_, rfl, ?_, ?_, ?_⟩
    · rw [herase]
      exact fun shmd' hshmd' => h.wf shmd' (hsub.subset hshmd')
    · rw [herase]
      intro shmd' hshmd' page hpage
      have hwf' := h.wf shmd' (hsub.subset hshmd')
      have hout := ((h.wf shmd hmem).apart_iff hwf').mp (hapart shmd' hshmd')
      have hlt : page < 1048576 := by
        obtain ⟨haligned', hstop', hbelow'⟩ := hwf'
        unfold InRange ShmDesc.lo pageSize at *
        omega
      rw [hspec.entry page hlt, if_neg fun hin => hout page hin hpage]
      exact h.mapped shmd' (hsub.subset hshmd') page hpage
    · rw [herase]
      exact h.apart.sublist hsub

/-! ## Runs -/

theorem Process.Attachments.step {e : Event} (h : p.Attachments)
    (hstep : p.Step e p') (hunsurrounded : ¬p.Surrounds e) : p'.Attachments := by
  cases hstep with
  | @shmat seg shmaddr rdonly rnd remap permitted current memory r returns =>
    obtain ⟨r', hr', hspec⟩ := shmat_spec p seg shmaddr rdonly rnd remap permitted current memory
    rw [returns, Option.some.injEq] at hr'
    subst hr'
    exact h.shmat hspec hunsurrounded
  | @shmdt shmaddr r returns =>
    obtain ⟨r', hr', hspec⟩ := shmdt_spec h shmaddr
    rw [returns, Option.some.injEq] at hr'
    subst hr'
    exact hspec
  | pages mapped => exact h.of_entries rfl mapped

def Process.Reaches (p p' : Process) : Prop :=
  Relation.ReflTransGen (fun p p' => ∃ e, p.Step e p' ∧ ¬p.Surrounds e) p p'

theorem Process.Reaches.attachments (h : p.Reaches p') (hstart : p.shm = []) : p'.Attachments := by
  induction h with
  | refl =>
    refine ⟨?_, ?_, ?_⟩
    · rw [hstart]
      exact fun _ h => absurd h not_mem_nil
    · rw [hstart]
      exact fun _ h => absurd h not_mem_nil
    · rw [hstart]
      exact List.Pairwise.nil
  | tail _ hstep ih =>
    obtain ⟨e, hstep, hunsurrounded⟩ := hstep
    exact ih.step hstep hunsurrounded

def ShmDesc.Overlaps (shmd : ShmDesc) (addr : UInt32) (n : ℕ) : Prop :=
  addr.toNat < shmd.stop.toNat ∧ shmd.start.toNat < addr.toNat + pageSize * n

/-- In every run whose requests surround no attach, the attaches are pairwise disjoint,
every call returns, and a request that overlaps an attach is refused. -/
theorem reaches_apart {p0 p : Process} (hstart : p0.shm = []) (hrun : p0.Reaches p) :
    p.shm.Pairwise ShmDesc.Apart ∧
    (∀ shmaddr, ∃ r, p.shmdt shmaddr = some r) ∧
    ∀ seg shmaddr rdonly rnd remap permitted current memory,
      ∃ r, p.shmat seg shmaddr rdonly rnd remap permitted current memory = some r ∧
        (¬p.Surrounds (.shmat seg shmaddr rdonly rnd remap permitted current memory) →
          ∀ addr, p.shmatAddr seg shmaddr rnd remap = some addr →
          (∃ shmd ∈ p.shm, shmd.Overlaps addr seg.shmNpages) → r.2 ≠ 0 ∧ r.1.shm = p.shm) := by
  have hinv := hrun.attachments hstart
  refine ⟨hinv.apart, fun shmaddr => ?_, ?_⟩
  · obtain ⟨r, hr, -⟩ := shmdt_spec hinv shmaddr
    exact ⟨r, hr⟩
  · intro seg shmaddr rdonly rnd remap permitted current memory
    obtain ⟨r, hr, hspec⟩ := shmat_spec p seg shmaddr rdonly rnd remap permitted current memory
    refine ⟨r, hr, ?_⟩
    rintro hunsurrounded addr haddr ⟨shmd', hshmd', hlt, hlt'⟩
    have hinv' := hinv.shmat hspec hunsurrounded
    cases hspec with
    | refused error shm => exact ⟨error, shm⟩
    | attached shmd ok shm wf seg_eq shmatAddr =>
      rw [haddr, Option.some.injEq] at shmatAddr
      have hapart := hinv'.apart
      rw [shm, pairwise_cons] at hapart
      have hpages := (wf.apart_iff (hinv.wf shmd' hshmd')).mp (hapart.1 shmd' hshmd')
      obtain ⟨haligned', hstop', -⟩ := hinv.wf shmd' hshmd'
      obtain ⟨haligned, hstop, -⟩ := wf
      -- the first page of the range that starts last is in both
      refine absurd ?_ (hpages (max shmd.lo shmd'.lo) ?_)
      · have hpos' := shmd'.seg.npages_pos
        rw [shmatAddr] at hlt hlt'
        unfold InRange ShmDesc.lo pageSize at *
        omega
      · have hpos := shmd.seg.npages_pos
        rw [shmatAddr, ← seg_eq] at hlt'
        unfold InRange ShmDesc.lo pageSize at *
        omega

def bareProcess : Process where
  mm :=
    { dir := fun _ => .absent 0
      memMap := fun _ => 0
      highMemory := 0x1000000
      swapMap := fun _ _ => none
      rss := 0
      memory := [9] }
  shm := []
  startStack := 0xbffffe00
  stack_low := by decide
  stack_high := by decide

def onePage : Segment := ⟨0, 4096, by decide, by decide, by decide⟩

def threePages : Segment := ⟨1, 12288, by decide, by decide, by decide⟩

theorem reaches_apart_onePage :
    ∃ p, bareProcess.Reaches p ∧ p.shm.length = 1 ∧ p.shm.Pairwise ShmDesc.Apart ∧
      (∀ shmaddr, ∃ r, p.shmdt shmaddr = some r) ∧
      ∀ seg shmaddr rdonly rnd remap permitted current memory,
        ∃ r, p.shmat seg shmaddr rdonly rnd remap permitted current memory = some r ∧
          (¬p.Surrounds (.shmat seg shmaddr rdonly rnd remap permitted current memory) →
            ∀ addr, p.shmatAddr seg shmaddr rnd remap = some addr →
            (∃ shmd ∈ p.shm, shmd.Overlaps addr seg.shmNpages) → r.2 ≠ 0 ∧ r.1.shm = p.shm) := by
  have hattach : (bareProcess.shmat onePage 0x40001000 false false false true true true).map
      (fun r => r.1.shm.length) = some 1 := by decide +kernel
  obtain ⟨r, hr, hlength⟩ := Option.map_eq_some_iff.mp hattach
  have hrun : bareProcess.Reaches r.1 :=
    Relation.ReflTransGen.single ⟨_, .shmat hr, fun h => Bool.false_ne_true h.1⟩
  exact ⟨r.1, hrun, hlength, reaches_apart (show bareProcess.shm = [] from rfl) hrun⟩

theorem shmat_surrounds :
    (bareProcess.shmat onePage 0x40001000 false false false true true true).bind (fun r =>
      (r.1.shmat threePages 0x40000000 false false true true true true).map fun r' =>
        (r.2, r'.2, r'.1.shm.map fun shmd => (shmd.start.toNat, shmd.stop.toNat))) =
      some (0, 0, [(0x40000000, 0x40003000), (0x40001000, 0x40002000)]) := by
  decide +kernel

theorem surrounded_not_apart :
    ∃ p, Relation.ReflTransGen (fun p p' => ∃ e, p.Step e p') bareProcess p ∧
      ¬p.shm.Pairwise ShmDesc.Apart := by
  obtain ⟨r, hr, hmap⟩ := Option.bind_eq_some_iff.mp shmat_surrounds
  obtain ⟨r', hr', hresult⟩ := Option.map_eq_some_iff.mp hmap
  simp only [Prod.mk.injEq] at hresult
  obtain ⟨-, -, hshm⟩ := hresult
  refine ⟨r'.1, ?_, ?_⟩
  · exact (Relation.ReflTransGen.single ⟨_, .shmat hr⟩).tail ⟨_, .shmat hr'⟩
  · obtain ⟨new, rest, hlist, hnew, hrest⟩ := map_eq_cons_iff.mp hshm
    obtain ⟨old, rest', hlist', hold, -⟩ := map_eq_cons_iff.mp hrest
    rw [Prod.mk.injEq] at hnew hold
    rw [hlist, hlist', pairwise_cons]
    intro hapart
    apply hapart.1 old mem_cons_self 0x40001000
    have haddr : (0x40001000 : UInt32).toNat = 0x40001000 := by decide
    simp only [UInt32.le_iff_toNat_le, UInt32.lt_iff_toNat_lt, hnew, hold, haddr]
    decide

end LinuxKernel.ShmAttach
