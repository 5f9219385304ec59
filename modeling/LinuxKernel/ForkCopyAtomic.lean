import LinuxKernel.ForkCopyTables

/-!
# Fork copies the page tables or leaves the counts alone

The child gets the pages of the parent, or `copy_page_tables` runs out of memory and
every count is what it was.
-/

namespace LinuxKernel.Paging

variable {mm : Mm} {pg : UInt32}

def view (pg : UInt32) : UInt32 := if present pg ∧ pg &&& pageCow ≠ 0 then pg ||| pageRw else pg

theorem and_not_or_self (a b : UInt32) : a &&& ~~~b ||| b = a ||| b := by
  apply UInt32.eq_of_toBitVec_eq
  ext i hi
  simp only [UInt32.toBitVec_or, UInt32.toBitVec_and, UInt32.toBitVec_not, BitVec.getElem_or,
    BitVec.getElem_and, BitVec.getElem_not]
  cases a.toBitVec[i] <;> cases b.toBitVec[i] <;> rfl

theorem view_protect (h : present pg = true) : view (protect pg) = view pg := by
  by_cases hprivate : pg &&& (pageRw ||| pageCow) = pageRw ||| pageCow
  · have hprotect : protect pg = pg &&& ~~~pageRw := if_pos hprivate
    have hcow : pg &&& pageCow = pageCow := by
      have hmask : pageCow = (pageRw ||| pageCow) &&& pageCow := by decide
      rw [hmask, ← UInt32.and_assoc, hprivate]
    have hcow' : protect pg &&& pageCow = pageCow := by
      have hmask : ~~~pageRw &&& pageCow = pageCow := by decide
      rw [hprotect, UInt32.and_assoc, hmask, hcow]
    have hset : pageCow ≠ 0 := by decide
    unfold view
    rw [present_protect, hcow, hcow', if_pos ⟨h, hset⟩, if_pos ⟨h, hset⟩, hprotect, and_not_or_self]
  · have hprotect : protect pg = pg := if_neg hprivate
    rw [hprotect]

theorem view_parentOf (pg : UInt32) : view (mm.parentOf pg) = view pg := by
  unfold Mm.parentOf
  split
  next h => exact view_protect h.1
  next => rfl

def Mm.damaged (mm : Mm) (page : ℕ) : Prop :=
  match mm.dir (page / ptrsPerPage) with
  | .absent _ => False
  | .table frame _ => mm.highMemory ≤ frame * pageSize

section
variable {dir' child : ℕ → DirEntry} {page : ℕ} (hsound : ¬mm.damaged page)
  (h : mm.Copied (mm.dir (page / ptrsPerPage)) (dir' (page / ptrsPerPage)) (child (page / ptrsPerPage)))
include hsound h

theorem Mm.Copied.views : view (entryOf dir' page) = view (mm.entry page) ∧
    (present (mm.entry page) = true → view (entryOf child page) = view (mm.entry page)) := by
  unfold Mm.damaged at hsound
  unfold Mm.entry entryOf
  generalize mm.dir (page / ptrsPerPage) = e at *
  generalize dir' (page / ptrsPerPage) = e' at *
  generalize child (page / ptrsPerPage) = x at *
  cases h with
  | absent value => exact ⟨rfl, fun _ => rfl⟩
  | damaged frame ptes h => exact absurd h hsound
  | kernel frame ptes hbelow h => exact ⟨rfl, fun _ => rfl⟩
  | user frame frame' ptes old new hbelow h hmem hentries =>
    have hlt : page % ptrsPerPage < ptrsPerPage := Nat.mod_lt _ (by decide)
    simp only
    rw [hentries.parent, hentries.child, if_pos ⟨Nat.zero_le _, by omega⟩,
      if_pos ⟨Nat.zero_le _, by omega⟩, view_parentOf]
    refine ⟨rfl, fun hpresent => ?_⟩
    rw [childOf_present hpresent, view_protect hpresent]

end

/-! ## The whole call -/

/-- The address space is sound, and every count has room for one more user of each
shared page and slot. -/
structure Mm.Forkable (mm : Mm) : Prop where
  nodup : mm.memory.Nodup
  free : ∀ f ∈ mm.memory, mm.memMap f = 0 ∧ f * pageSize < mm.highMemory
  pages : ∀ f, .frame f ∈ mm.shares 0 ptrsPerPage → f * pageSize < mm.highMemory ∧ f ∉ mm.memory
  frames : ∀ f, reserved (mm.memMap f) = false →
    (mm.memMap f).toNat + (mm.shares 0 ptrsPerPage).count (.frame f) < 0x8000
  slots : ∀ d o c, mm.swapMap d o = some c → c ≠ 0 →
    c.toNat + (mm.shares 0 ptrsPerPage).count (.slot d o) < 256

theorem inUse_of_slot {d o : ℕ} (h : Loan.slot d o ∈ loans (mm.childOf pg)) :
    ∃ c ≠ 0, mm.swapMap d o = some c := by
  cases hpresent : present pg with
  | true =>
    rw [childOf_present hpresent, loans_present (by simpa using hpresent)] at h
    simp at h
  | false =>
    unfold Mm.childOf at h
    rw [hpresent] at h
    by_cases hshm : (slotOf pg).1 = Swap.shmSwpType
    · simp [hshm, loans, hpresent] at h
    cases hc : mm.swapMap (slotOf pg).1 (slotOf pg).2 with
    | none => simp [hshm, Mm.inUse, hc, loans] at h
    | some c =>
      by_cases hc0 : c = 0
      · simp [hshm, inUse_eq hc, hc0, loans] at h
      · by_cases h0 : pg = 0
        · simp [h0, loans] at h
        · simp [hshm, inUse_eq hc, hc0, loans, hpresent, h0] at h
          exact ⟨c, hc0, by rw [h.1, h.2, hc]⟩
theorem inUse_of_shares {d o : ℕ} (h : Loan.slot d o ∈ mm.shares 0 ptrsPerPage) :
    ∃ c ≠ 0, mm.swapMap d o = some c := by
  obtain ⟨i, -, hi⟩ := Multiset.mem_sum.mp h
  cases hdir : mm.dir i with
  | absent value => simp [hdir, Mm.shared] at hi
  | table frame ptes =>
    simp only [hdir, Mm.shared] at hi
    split_ifs at hi with hkept
    · simp at hi
    · obtain ⟨k, -, hk⟩ := Multiset.mem_sum.mp hi
      exact inUse_of_slot hk

theorem count_frames_le {l : List ℕ} (h : l.Nodup) (x : Loan) : (frames l).count x ≤ 1 := by
  have hnodup : (l.map Loan.frame).Nodup := h.map fun _ _ hsame => Loan.frame.inj hsame
  exact Multiset.nodup_iff_count_le_one.mp (Multiset.coe_nodup.mpr hnodup) x

theorem slot_notMem_frames (d o : ℕ) (l : List ℕ) : Loan.slot d o ∉ frames l := by
  simp [frames]

theorem Mm.Forkable.room (h : mm.Forkable) :
    mm.Room (mm.shares 0 ptrsPerPage + Paging.frames mm.memory) where
  below f hf := by
    rcases Multiset.mem_add.mp hf with hshared | hfree
    · exact (h.pages f hshared).1
    · exact (h.free f (frame_mem_frames.mp hfree)).2
  frame f hf := by
    rw [Multiset.count_add]
    by_cases hmem : f ∈ mm.memory
    · have hnone : (mm.shares 0 ptrsPerPage).count (Loan.frame f) = 0 :=
        Multiset.count_eq_zero.mpr fun hin => (h.pages f hin).2 hmem
      have hone := count_frames_le h.nodup (.frame f)
      rw [(h.free f hmem).1, hnone, UInt16.toNat_zero]
      omega
    · have hnone : (Paging.frames mm.memory).count (Loan.frame f) = 0 :=
        Multiset.count_eq_zero.mpr fun hin => hmem (frame_mem_frames.mp hin)
      rw [hnone]
      exact h.frames f hf
  used d o ho := by
    rcases Multiset.mem_add.mp ho with hshared | hfree
    · exact inUse_of_shares hshared
    · exact absurd hfree (slot_notMem_frames d o _)
  slot d o c hc h0 := by
    rw [Multiset.count_add, Multiset.count_eq_zero.mpr (slot_notMem_frames d o _)]
    exact h.slots d o c hc h0

theorem Mm.Forkable.lend_memMap (h : mm.Forkable) {taken : List ℕ} (hnodup : taken.Nodup)
    (hsub : ∀ f ∈ taken, f ∈ mm.memory) (f : ℕ) :
    (mm.lend (mm.shares 0 ptrsPerPage + Paging.frames taken)).memMap f =
      if f ∈ taken then 1
      else if reserved (mm.memMap f) then mm.memMap f
      else mm.memMap f + UInt16.ofNat ((mm.shares 0 ptrsPerPage).count (.frame f)) := by
  unfold Mm.lend
  simp only [Multiset.count_add]
  by_cases hmem : f ∈ taken
  · have hnone : (mm.shares 0 ptrsPerPage).count (Loan.frame f) = 0 :=
      Multiset.count_eq_zero.mpr fun hin => (h.pages f hin).2 (hsub f hmem)
    have hpos : 0 < (Paging.frames taken).count (Loan.frame f) :=
      Multiset.count_pos.mpr (frame_mem_frames.mpr hmem)
    have hone : (Paging.frames taken).count (Loan.frame f) = 1 :=
      le_antisymm (count_frames_le hnodup _) hpos
    rw [if_pos hmem, (h.free f (hsub f hmem)).1, hnone, hone]
    decide
  · have hnone : (Paging.frames taken).count (Loan.frame f) = 0 :=
      Multiset.count_eq_zero.mpr fun hin => hmem (frame_mem_frames.mp hin)
    rw [if_neg hmem, hnone, add_zero]

/-- The child has a copy of the page tables, and the counts are raised for it. -/
structure Mm.Forked (mm mm' : Mm) (frame : ℕ) (child : ℕ → DirEntry) : Prop where
  copied : ∀ i < ptrsPerPage, mm.Copied (mm.dir i) (mm'.dir i) (child i)
  memMap : ∃ taken, mm.memory = taken ++ mm'.memory ∧ frame ∈ taken ∧
    ∀ f, mm'.memMap f =
      if f ∈ taken then 1
      else if reserved (mm.memMap f) then mm.memMap f
      else mm.memMap f + UInt16.ofNat ((mm.shares 0 ptrsPerPage).count (.frame f))
  swapMap : ∀ d o, mm'.swapMap d o =
    (mm.swapMap d o).map (· + UInt8.ofNat ((mm.shares 0 ptrsPerPage).count (.slot d o)))
  parent_view : ∀ page < ptrsPerPage * ptrsPerPage, ¬mm.damaged page →
    view (mm'.entry page) = view (mm.entry page)
  child_view : ∀ page < ptrsPerPage * ptrsPerPage, ¬mm.damaged page →
    present (mm.entry page) = true → view (entryOf child page) = view (mm.entry page)

structure Mm.Undone (mm mm' : Mm) : Prop where
  memMap : mm'.memMap = mm.memMap
  swapMap : mm'.swapMap = mm.swapMap
  memory : mm'.memory = []
  dir : ∀ i, mm'.dir i = mm.dir i ∨ ∃ x, mm.Copied (mm.dir i) (mm'.dir i) x
  parent_view : ∀ page, ¬mm.damaged page → view (mm'.entry page) = view (mm.entry page)

theorem Mm.Forkable.copyTables (h : mm.Forkable) {frame : ℕ} {rest : List ℕ}
    (hmem : mm.memory = frame :: rest) :
    ∃ mm1 m dir' child taken rest' ok, mm.getFreePage = some (mm1, frame) ∧
      mm.memory = (frame :: taken) ++ rest' ∧ m ≤ ptrsPerPage ∧ (ok = true → m = ptrsPerPage) ∧
      (ok = false → rest' = []) ∧
      (∀ k < m, mm.Copied (mm.dir k) (dir' k) (child k)) ∧
      (∀ k, m ≤ k → dir' k = mm.dir k ∧ child k = .absent 0) ∧
      mm.dirLoans child 0 m = mm.shares 0 m + Paging.frames taken ∧
      mm1.copyTables ptrsPerPage 0 (fun _ => .absent 0) =
        (({ mm with dir := dir', memory := rest' } : Mm).lend
          ({.frame frame} + mm.dirLoans child 0 m), child, ok) := by
  have hin : frame ∈ mm.memory := by simp [hmem]
  have hget : mm.getFreePage =
      some (({ mm with memory := rest } : Mm).lend {.frame frame}, frame) := by
    have hlent := getFreePage_lend (s := 0) hmem (h.free frame hin).1 (by simp)
    rwa [lend_zero, zero_add] at hlent
  have hnodup := h.nodup
  rw [hmem, List.nodup_cons] at hnodup
  have hsum : mm.shares 0 ptrsPerPage + Paging.frames mm.memory =
      {.frame frame} + (mm.shares 0 ptrsPerPage + Paging.frames rest) := by
    rw [hmem, frames_cons, add_left_comm]
  have hroom := (hsum ▸ h.room).transport mm.dir rest
  have hfresh : ({ mm with memory := rest } : Mm).Spare
      ({.frame frame} + mm.shares 0 ptrsPerPage) := by
    refine ⟨hnodup.2, fun f hf => (h.free f (by simp [hmem, hf])).1, fun f hf hheld => ?_⟩
    rcases Multiset.mem_add.mp hheld with hdir | hpage
    · rw [Multiset.mem_singleton, Loan.frame.injEq] at hdir
      exact hnodup.1 (hdir ▸ hf)
    · exact (h.pages f hpage).2 (by simp [hmem, hf])
  obtain ⟨m, dir', child, taken, rest', ok, hrest, hle, hok, hfail, htables, hrun⟩ :=
    copyTables_lend { mm with memory := rest } ptrsPerPage 0
      (fun _ _ => rfl : ∀ k, 0 ≤ k → (fun _ : ℕ => DirEntry.absent 0) k = .absent 0) hroom hfresh
  refine ⟨_, m, dir', child, taken, rest', ok, hget, ?_, hle, hok, hfail, fun k hk => ?_,
    fun k hk => htables.kept k (by omega), htables.held, hrun⟩
  · rw [hmem, List.cons_append]
    exact congrArg _ hrest
  · exact (htables.copied k (Nat.zero_le _) (by omega)).transport fun f hf => by simp [hmem, hf]

theorem copyPageTables_atomic (mm : Mm) (h : mm.Forkable) :
    (∃ mm' frame child, mm.copyPageTables = (mm', .directory frame child, 0) ∧
      mm.Forked mm' frame child) ∨
    (∃ mm' cr3, mm.copyPageTables = (mm', cr3, -enomem) ∧ (cr3 = .inherited ∨ cr3 = .swapper) ∧
      mm.Undone mm') := by
  cases hmem : mm.memory with
  | nil =>
    right
    refine ⟨mm, .inherited, ?_, .inl rfl, rfl, rfl, hmem, fun i => .inl rfl, fun _ _ => rfl⟩
    unfold Mm.copyPageTables Mm.getFreePage
    rw [hmem]
  | cons frame rest =>
    obtain ⟨mm1, m, dir', child, taken, rest', ok, hget, hmem', hle, hok, hfail, hcopied, hkept,
      hheld, hrun⟩ := h.copyTables hmem
    have hin : frame ∈ mm.memory := by simp [hmem]
    have hnodup : (frame :: taken).Nodup := by
      have hall := h.nodup
      rw [hmem'] at hall
      exact hall.of_append_left
    have hview : ∀ page, ¬mm.damaged page → view (entryOf dir' page) = view (mm.entry page) := by
      intro page hsound
      by_cases hpage : page / ptrsPerPage < m
      · exact ((hcopied _ hpage).views hsound).1
      · unfold Mm.entry entryOf
        rw [(hkept _ (by omega)).1]
    cases ok with
    | true =>
      left
      obtain rfl := hok rfl
      have hloans : {.frame frame} + mm.dirLoans child 0 ptrsPerPage =
          mm.shares 0 ptrsPerPage + frames (frame :: taken) := by
        rw [hheld, frames_cons, add_left_comm]
      refine ⟨({ mm with dir := dir', memory := rest' } : Mm).lend
        (mm.shares 0 ptrsPerPage + frames (frame :: taken)), frame, child, ?_, ?_⟩
      · simp only [Mm.copyPageTables, hget, hrun, hloans, if_true]
      refine ⟨hcopied, ⟨frame :: taken, hmem', by simp, fun f => ?_⟩, fun d o => ?_,
        fun page _ hsound => hview page hsound, fun page hpage hsound => ?_⟩
      · exact h.lend_memMap hnodup (fun f hf => by rw [hmem']; simp at hf ⊢; tauto) f
      · have hnone := Multiset.count_eq_zero.mpr (slot_notMem_frames d o (frame :: taken))
        simp only [Mm.lend, Multiset.count_add, hnone, add_zero]
      · have hdir : page / ptrsPerPage < ptrsPerPage := Nat.div_lt_of_lt_mul hpage
        exact ((hcopied _ hdir).views hsound).2
    | false =>
      right
      obtain rfl := hfail rfl
      have hshares : mm.shares 0 m ≤ mm.shares 0 ptrsPerPage := shares_le hle
      have hmore : mm.dirLoans child 0 m ≤ mm.shares 0 ptrsPerPage + frames taken := by
        rw [hheld]
        gcongr
      have hroom : mm.Room ({.frame frame} + mm.dirLoans child 0 m) := by
        refine h.room.mono ?_
        rw [hmem', List.append_nil, frames_cons, add_left_comm]
        gcongr
      have hnone : Loan.frame frame ∉ mm.dirLoans child 0 m := by
        intro hheld'
        rcases Multiset.mem_add.mp (Multiset.mem_of_le hmore hheld') with hpage | htable
        · exact (h.pages frame hpage).2 hin
        · exact (List.nodup_cons.mp hnodup).1 (frame_mem_frames.mp htable)
      have hcleared := freePageTables_lend { mm with dir := dir', memory := [] } hle
        (fun k hk => (hkept k hk).2) (h.free frame hin).1 (hroom.transport dir' []) hnone
      refine ⟨{ mm with dir := dir', memory := [] }, .swapper, ?_, .inr rfl, rfl, rfl, rfl, ?_,
        hview⟩
      · simp only [Mm.copyPageTables, hget, hrun, Bool.false_eq_true, if_false]
        exact congrArg (fun mm' => (mm', Cr3.swapper, -enomem)) hcleared
      · intro i
        by_cases hi : i < m
        · exact .inr ⟨child i, hcopied i hi⟩
        · exact .inl (hkept i (by omega)).1

/-- A parent with one page table, in frame 2, that maps `pg` at its first page, and a
second one in frame 3.  The frames from 10 on are free. -/
def parentWith (pg : UInt32) (memMap : ℕ → UInt16) (slots : UInt8) (memory : List ℕ) : Mm where
  dir := fun i =>
    if i = 0 then .table 2 fun j => if j = 0 then pg else 0
    else if i = 1 then .table 3 fun _ => 0
    else .absent 0
  memMap := memMap
  highMemory := 0x100000
  swapMap := fun d o => if d = 0 ∧ o = 3 then some slots else none
  rss := 1
  memory := memory

def memMapOne (frame : ℕ) (count : UInt16) : ℕ → UInt16 := fun f =>
  if f = frame then count else if f ≤ 3 then 1 else 0

def privatePage : UInt32 := 0x5207

def sharedParent (memory : List ℕ) : Mm := parentWith privatePage (memMapOne 5 1) 0 memory

theorem sharedParent_shares (memory : List ℕ) :
    (sharedParent memory).shares 0 ptrsPerPage = {.frame 5} := by
  have hempty : ∀ mm : Mm, entryLoans (fun _ => mm.childOf 0) 0 ptrsPerPage = 0 := by
    intro mm
    simp [entryLoans]
  have hentry :
      entryLoans (fun k => (sharedParent memory).childOf (if k = 0 then privatePage else 0))
        0 ptrsPerPage = {.frame 5} := by
    have hpresent : present privatePage = true := by decide
    have hframe : mapNr privatePage = 5 := by decide
    unfold entryLoans
    rw [Finset.sum_eq_single 0]
    · change loans ((sharedParent memory).childOf privatePage) = _
      rw [childOf_present hpresent, loans_present (by simpa using hpresent), mapNr_protect, hframe]
    · intro k _ hk
      simp only [if_neg hk, childOf_zero, loans_zero]
    · intro hout
      exact absurd (Finset.mem_Ico.mpr ⟨le_rfl, by decide⟩) hout
  unfold Mm.shares
  rw [Finset.sum_eq_single 0]
  · have hdir : (sharedParent memory).dir 0 =
        .table 2 fun k => if k = 0 then privatePage else 0 := rfl
    have hused : reserved ((sharedParent memory).memMap 2) = false :=
      (by decide : reserved (memMapOne 5 1 2) = false)
    rw [hdir, shared_user _ (by decide : 2 * pageSize < 0x100000) hused, hentry]
  · intro i _ hi
    by_cases hone : i = 1
    · have hdir : (sharedParent memory).dir 1 = .table 3 fun _ => 0 := rfl
      have hused : reserved ((sharedParent memory).memMap 3) = false :=
        (by decide : reserved (memMapOne 5 1 3) = false)
      rw [hone, hdir, shared_user _ (by decide : 3 * pageSize < 0x100000) hused]
      exact hempty _
    · have habsent : (sharedParent memory).dir i = .absent 0 := by
        simp [sharedParent, parentWith, hi, hone]
      rw [habsent]
      rfl
  · intro hout
    exact absurd (Finset.mem_Ico.mpr ⟨le_rfl, by decide⟩) hout

theorem sharedParent_forkable (memory : List ℕ) (hnodup : memory.Nodup)
    (h : ∀ f ∈ memory, 10 ≤ f ∧ f < 20) : (sharedParent memory).Forkable where
  nodup := hnodup
  free f hf := by
    obtain ⟨hlow, hlt⟩ := h f hf
    constructor
    · change memMapOne 5 1 f = 0
      unfold memMapOne
      rw [if_neg (by omega), if_neg (by omega)]
    · change f * 4096 < 0x100000
      omega
  pages f hf := by
    rw [sharedParent_shares, Multiset.mem_singleton, Loan.frame.injEq] at hf
    subst hf
    refine ⟨?_, fun hin => by simpa using (h 5 hin).1⟩
    change 5 * pageSize < 0x100000
    decide
  frames f _ := by
    rw [sharedParent_shares]
    have hcount : Multiset.count (Loan.frame f) {Loan.frame 5} ≤ 1 :=
      (Multiset.count_le_card _ _).trans (by simp)
    have hmap : (memMapOne 5 1 f).toNat ≤ 1 := by
      unfold memMapOne
      split
      · decide
      · split <;> decide
    change (memMapOne 5 1 f).toNat + _ < 0x8000
    omega
  slots d o c hc h0 := by
    change (if d = 0 ∧ o = 3 then some (0 : UInt8) else none) = some c at hc
    split at hc
    · exact absurd (Option.some.inj hc).symm h0
    · simp at hc

theorem copyPageTables_atomic_twoParents :
    ((∃ mm' frame child,
      (sharedParent [10, 11, 12]).copyPageTables = (mm', .directory frame child, 0) ∧
      (sharedParent [10, 11, 12]).Forked mm' frame child) ∨
    (∃ mm' cr3, (sharedParent [10, 11, 12]).copyPageTables = (mm', cr3, -enomem) ∧
      (cr3 = .inherited ∨ cr3 = .swapper) ∧ (sharedParent [10, 11, 12]).Undone mm')) ∧
    ((∃ mm' frame child,
      (sharedParent [10, 11]).copyPageTables = (mm', .directory frame child, 0) ∧
      (sharedParent [10, 11]).Forked mm' frame child) ∨
    (∃ mm' cr3, (sharedParent [10, 11]).copyPageTables = (mm', cr3, -enomem) ∧
      (cr3 = .inherited ∨ cr3 = .swapper) ∧ (sharedParent [10, 11]).Undone mm')) :=
  ⟨copyPageTables_atomic _ (sharedParent_forkable _ (by decide) (by decide)),
    copyPageTables_atomic _ (sharedParent_forkable _ (by decide) (by decide))⟩

def Cr3.dir : Cr3 → ℕ → DirEntry
  | .directory _ dir => dir
  | _ => fun _ => .absent 0

/-- What `copy_page_tables` returns, and what it leaves of the page in a frame, of the
slot 3 and of the first entry of the parent and of the child. -/
structure Outcome where
  value : ℤ
  page : UInt16
  slot : Option UInt8
  parent : UInt32
  child : UInt32
  deriving DecidableEq

def Mm.outcome (mm : Mm) (frame : ℕ) : Outcome :=
  let r := mm.copyPageTables
  ⟨r.2.2, r.1.memMap frame, r.1.swapMap 0 3, r.1.entry 0, entryOf r.2.1.dir 0⟩

/-- A private page that is reserved stays writable in the parent and is not counted;
the count of a page above `high_memory`, of one that 32767 others use and of a slot
with the count 255 is not put back; and a slot that is not in use is not copied. -/
theorem copyPageTables_uncounted :
    (parentWith privatePage (memMapOne 5 0x8000) 0 [10, 11, 12]).outcome 5 =
      ⟨0, 0x8000, some 0, privatePage, protect privatePage⟩ ∧
    (parentWith 0x200207 (memMapOne 512 0) 0 [10, 11]).outcome 512 =
      ⟨-enomem, 1, some 0, 0x200205, 0⟩ ∧
    (parentWith privatePage (memMapOne 5 0x7fff) 0 [10, 11]).outcome 5 =
      ⟨-enomem, 0x8000, some 0, protect privatePage, 0⟩ ∧
    (parentWith 0x3000 (memMapOne 5 0) 255 [10, 11]).outcome 5 = ⟨-enomem, 0, some 0, 0x3000, 0⟩ ∧
    (parentWith 0x3000 (memMapOne 5 0) 0 [10, 11, 12]).outcome 5 = ⟨0, 0, some 0, 0x3000, 0⟩ := by
  decide +kernel

end LinuxKernel.Paging
