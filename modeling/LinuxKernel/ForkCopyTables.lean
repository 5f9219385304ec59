import LinuxKernel.ForkCopyLoans

/-!
# The loops of `copy_page_tables` and `free_page_tables`

What the child holds is what was taken for it, so that `free_page_tables` gives back
just that when a page table is missing.
-/

namespace LinuxKernel.Paging
open Function

variable {mm : Mm} {s : Multiset Loan} {pg : UInt32}

theorem Mm.Room.transport (h : mm.Room s) (dir : ℕ → DirEntry) (memory : List ℕ) :
    ({ mm with dir := dir, memory := memory } : Mm).Room s :=
  ⟨h.below, h.frame, h.used, h.slot⟩

/-! ## Entries -/

@[simp] theorem present_protect (pg : UInt32) : present (protect pg) = present pg := by
  unfold present protect
  split
  · rw [UInt32.and_assoc]
    rfl
  · rfl

@[simp] theorem mapNr_protect (pg : UInt32) : mapNr (protect pg) = mapNr pg := by
  have hlt : pg.toNat < 2 ^ 32 := pg.toNat_lt
  have hmask : (~~~pageRw).toNat >>> 12 = 2 ^ 20 - 1 := by decide
  unfold protect
  split
  · change (pg.toNat &&& (~~~pageRw).toNat) >>> 12 = pg.toNat >>> 12
    rw [Nat.shiftRight_and_distrib, hmask, Nat.and_two_pow_sub_one_eq_mod,
      Nat.shiftRight_eq_div_pow]
    omega
  · rfl

theorem ne_zero_of_present (h : present pg = true) : pg ≠ 0 := by
  rintro rfl
  exact absurd h (by decide)

theorem loans_present (h : present pg = true) : loans pg = {.frame (mapNr pg)} := by
  simp [loans, ne_zero_of_present h, h]

theorem childOf_present (h : present pg = true) : mm.childOf pg = protect pg := by
  simp [Mm.childOf, h]

@[simp] theorem childOf_zero : mm.childOf 0 = 0 := by
  have h : present 0 = false := by decide
  simp [Mm.childOf, h]

@[simp] theorem parentOf_zero : mm.parentOf 0 = 0 := by
  have h : present 0 = false := by decide
  simp [Mm.parentOf, h]

@[simp] theorem loans_zero : loans 0 = 0 := rfl

def entryLoans (ptes : ℕ → UInt32) (j n : ℕ) : Multiset Loan :=
  ∑ k ∈ Finset.Ico j (j + n), loans (ptes k)

theorem entryLoans_succ (ptes : ℕ → UInt32) (j n : ℕ) :
    entryLoans ptes j (n + 1) = loans (ptes j) + entryLoans ptes (j + 1) n := by
  unfold entryLoans
  rw [Finset.sum_eq_sum_Ico_succ_bot (by omega), show j + (n + 1) = j + 1 + n by omega]

variable {n : ℕ}

theorem entryLoans_congr {ptes ptes' : ℕ → UInt32} {j : ℕ}
    (h : ∀ k, j ≤ k → k < j + n → ptes k = ptes' k) :
    entryLoans ptes j n = entryLoans ptes' j n := by
  refine Finset.sum_congr rfl fun k hk => ?_
  obtain ⟨hlow, hhigh⟩ := Finset.mem_Ico.mp hk
  rw [h k hlow hhigh]

theorem freeEntries_lend {ptes : ℕ → UInt32} (n j : ℕ)
    (h : mm.Room (s + entryLoans ptes j n)) :
    (mm.lend (s + entryLoans ptes j n)).freeEntries n j ptes = mm.lend s := by
  induction n generalizing j with
  | zero => simp [Mm.freeEntries, entryLoans]
  | succ n ih =>
    rw [entryLoans_succ] at h ⊢
    unfold Mm.freeEntries
    by_cases h0 : ptes j = 0
    · rw [h0, loans_zero, zero_add] at h ⊢
      exact ih (j + 1) h
    · rw [if_neg h0]
      rw [add_comm (loans (ptes j)), ← add_assoc] at h ⊢
      rw [dropPage_lend h0 h]
      exact ih (j + 1) (h.mono (Multiset.le_add_right _ _))

/-- What the loop over the entries from `j` on has done to the two tables. -/
structure Mm.EntriesCopied (mm : Mm) (j n : ℕ) (old new old' new' : ℕ → UInt32) : Prop where
  parent : ∀ k, old' k = if j ≤ k ∧ k < j + n then mm.parentOf (old k) else old k
  child : ∀ k, new' k = if j ≤ k ∧ k < j + n then mm.childOf (old k) else new k

variable {old new : ℕ → UInt32}

theorem Mm.EntriesCopied.cons {j : ℕ} {old' new' : ℕ → UInt32}
    (h : mm.EntriesCopied (j + 1) n (update old j (mm.parentOf (old j)))
      (update new j (mm.childOf (old j))) old' new') :
    mm.EntriesCopied j (n + 1) old new old' new' := by
  constructor
  · intro k
    rw [h.parent k]
    by_cases hk : k = j
    · subst hk
      simp
    · rw [update_of_ne hk]
      have hiff : j + 1 ≤ k ∧ k < j + 1 + n ↔ j ≤ k ∧ k < j + (n + 1) := by omega
      simp only [hiff]
  · intro k
    rw [h.child k]
    by_cases hk : k = j
    · subst hk
      simp
    · rw [update_of_ne hk, update_of_ne hk]
      have hiff : j + 1 ≤ k ∧ k < j + 1 + n ↔ j ≤ k ∧ k < j + (n + 1) := by omega
      simp only [hiff]

theorem copyEntries_turn (n j : ℕ) (hnew : new j = 0)
    (h : mm.Room (s + loans (mm.childOf (old j)))) :
    (mm.lend s).copyEntries (n + 1) j old new =
      (mm.lend (s + loans (mm.childOf (old j)))).copyEntries n (j + 1)
        (update old j (mm.parentOf (old j)))
        (update new j (mm.childOf (old j))) := by
  rw [Mm.copyEntries]
  by_cases h0 : old j = 0
  · have hold : update old j (mm.parentOf 0) = old := by
      rw [parentOf_zero, ← h0, update_eq_self]
    have hnew' : update new j (mm.childOf 0) = new := by
      rw [childOf_zero, ← hnew, update_eq_self]
    rw [if_pos h0, h0, hold, hnew', childOf_zero, loans_zero, add_zero]
  rw [if_neg h0]
  cases hpresent : present (old j) with
  | false =>
    have hparent : mm.parentOf (old j) = old j := by simp [Mm.parentOf, hpresent]
    rw [if_pos (by simp), swapDuplicate_lend h0 hpresent h, hparent, update_eq_self]
  | true =>
    have hchild : mm.childOf (old j) = protect (old j) := childOf_present hpresent
    have hloan : loans (protect (old j)) = {.frame (mapNr (old j))} := by
      rw [loans_present (by simpa using hpresent), mapNr_protect]
    rw [hchild, hloan] at h ⊢
    simp only [mapNr_protect, not_true_eq_false, if_false]
    rw [reserved_lend (h.mono (Multiset.le_add_right _ _))]
    cases hreserved : reserved (mm.memMap (mapNr (old j))) with
    | true =>
      have hparent : mm.parentOf (old j) = old j := by simp [Mm.parentOf, hreserved]
      rw [if_pos rfl, lend_add_reserved hreserved, hparent, update_eq_self]
    | false =>
      have hparent : mm.parentOf (old j) = protect (old j) := by
        simp [Mm.parentOf, hreserved, hpresent]
      rw [if_neg (by simp), lend_add_frame hreserved, hparent]

theorem copyEntries_lend (mm : Mm) (n j : ℕ)
    (hnew : ∀ k, j ≤ k → new k = 0)
    (h : mm.Room (s + entryLoans (fun k => mm.childOf (old k)) j n)) :
    ∃ old' new', mm.EntriesCopied j n old new old' new' ∧
      (mm.lend s).copyEntries n j old new =
        (mm.lend (s + entryLoans (fun k => mm.childOf (old k)) j n), old', new') := by
  induction n generalizing j s old new with
  | zero => exact ⟨old, new, ⟨by simp, by simp⟩, by simp [Mm.copyEntries, entryLoans]⟩
  | succ n ih =>
    rw [entryLoans_succ, ← add_assoc] at h ⊢
    have hfirst : mm.Room (s + loans (mm.childOf (old j))) := h.mono (Multiset.le_add_right _ _)
    -- the turn has changed the entry `j` only
    have hrest : entryLoans (fun k => mm.childOf (update old j (mm.parentOf (old j)) k))
        (j + 1) n = entryLoans (fun k => mm.childOf (old k)) (j + 1) n := by
      refine entryLoans_congr fun k hk _ => ?_
      rw [update_of_ne (by omega)]
    have hnew' : ∀ k, j + 1 ≤ k → update new j (mm.childOf (old j)) k = 0 := by
      intro k hk
      rw [update_of_ne (by omega)]
      exact hnew k (by omega)
    obtain ⟨old', new', hcopied, hrun⟩ := ih (j + 1) hnew' (by rw [hrest]; exact h)
    refine ⟨old', new', hcopied.cons, ?_⟩
    rw [copyEntries_turn n j (hnew j le_rfl) hfirst, hrun, hrest]

/-! ## The loops over the directory -/

def Mm.tableLoans (mm : Mm) : DirEntry → Multiset Loan
  | .absent _ => 0
  | .table frame ptes =>
    if mm.highMemory ≤ frame * pageSize ∨ reserved (mm.memMap frame) then 0
    else entryLoans ptes 0 ptrsPerPage + {.frame frame}

def Mm.dirLoans (mm : Mm) (dir : ℕ → DirEntry) (i n : ℕ) : Multiset Loan :=
  ∑ k ∈ Finset.Ico i (i + n), mm.tableLoans (dir k)

theorem dirLoans_succ (dir : ℕ → DirEntry) (i n : ℕ) :
    mm.dirLoans dir i (n + 1) = mm.tableLoans (dir i) + mm.dirLoans dir (i + 1) n := by
  unfold Mm.dirLoans
  rw [Finset.sum_eq_sum_Ico_succ_bot (by omega), show i + (n + 1) = i + 1 + n by omega]

variable {frame : ℕ}

theorem tableLoans_kept (ptes : ℕ → UInt32)
    (h : mm.highMemory ≤ frame * pageSize ∨ reserved (mm.memMap frame) = true) :
    mm.tableLoans (.table frame ptes) = 0 :=
  if_pos h

theorem tableLoans_user (ptes : ℕ → UInt32) (hbelow : frame * pageSize < mm.highMemory)
    (h : reserved (mm.memMap frame) = false) :
    mm.tableLoans (.table frame ptes) = entryLoans ptes 0 ptrsPerPage + {.frame frame} :=
  if_neg (by simp [hbelow, h])

theorem freeOneTable_lend {e : DirEntry} (h : mm.Room (s + mm.tableLoans e)) :
    (mm.lend (s + mm.tableLoans e)).freeOneTable e = mm.lend s := by
  cases e with
  | absent value => simp [Mm.freeOneTable, Mm.tableLoans]
  | table frame ptes =>
    have hreserved := reserved_lend h frame
    simp only [Mm.freeOneTable, lend_highMemory, hreserved]
    by_cases hhigh : mm.highMemory ≤ frame * pageSize
    · rw [if_pos hhigh, tableLoans_kept ptes (.inl hhigh), add_zero]
    rw [if_neg hhigh]
    cases hkernel : reserved (mm.memMap frame) with
    | true => rw [if_pos rfl, tableLoans_kept ptes (.inr hkernel), add_zero]
    | false =>
      rw [tableLoans_user ptes (not_le.mp hhigh) hkernel, add_comm (entryLoans _ _ _),
        ← add_assoc] at h ⊢
      rw [if_neg (by simp), freeEntries_lend _ _ h,
        freePage_lend (h.mono (Multiset.le_add_right _ _))]

variable {dir : ℕ → DirEntry}

theorem freeTables_lend (n i : ℕ) (h : mm.Room (s + mm.dirLoans dir i n)) :
    (mm.lend (s + mm.dirLoans dir i n)).freeTables n i dir = mm.lend s := by
  induction n generalizing i with
  | zero => simp [Mm.freeTables, Mm.dirLoans]
  | succ n ih =>
    rw [dirLoans_succ, add_comm (mm.tableLoans (dir i)), ← add_assoc] at h ⊢
    unfold Mm.freeTables
    rw [freeOneTable_lend h]
    exact ih (i + 1) (h.mono (Multiset.le_add_right _ _))

variable {m : ℕ}

theorem freePageTables_lend (mm : Mm) (hm : m ≤ ptrsPerPage)
    (hempty : ∀ k, m ≤ k → dir k = .absent 0) (hfree : mm.memMap frame = 0)
    (hroom : mm.Room ({.frame frame} + mm.dirLoans dir 0 m))
    (hnone : Loan.frame frame ∉ mm.dirLoans dir 0 m) :
    (mm.lend ({.frame frame} + mm.dirLoans dir 0 m)).freePageTables frame dir = mm := by
  have hall : mm.dirLoans dir 0 m = mm.dirLoans dir 0 ptrsPerPage := by
    refine Finset.sum_subset (Finset.Ico_subset_Ico_right (by omega)) fun k hk hout => ?_
    rw [hempty k]
    · rfl
    · simp only [Finset.mem_Ico] at hk hout
      omega
  have hreserved : reserved (mm.memMap frame) = false := by
    rw [hfree]
    decide
  have hone : (mm.lend ({.frame frame} + mm.dirLoans dir 0 m)).memMap frame = 1 := by
    rw [lend_memMap hreserved, hfree, Multiset.count_add, Multiset.count_eq_zero.mpr hnone,
      Multiset.count_singleton_self]
    decide
  unfold Mm.freePageTables
  rw [hone, if_neg (by decide)]
  rw [hall] at hroom ⊢
  rw [freeTables_lend _ _ hroom]
  have hpage : mm.Room (0 + {.frame frame}) := by
    exact hroom.mono (Multiset.le_add_right _ _)
  have hlast := freePage_lend hpage
  rwa [zero_add, lend_zero] at hlast

/-- What `copy_page_tables` makes of a directory entry: what the parent has then, and
what the child has. -/
inductive Mm.Copied (mm : Mm) : DirEntry → DirEntry → DirEntry → Prop where
  | absent (value : UInt32) : mm.Copied (.absent value) (.absent 0) (.absent 0)
  | damaged (frame : ℕ) (ptes : ℕ → UInt32) (h : mm.highMemory ≤ frame * pageSize) :
      mm.Copied (.table frame ptes) (.absent 0) (.absent 0)
  | kernel (frame : ℕ) (ptes : ℕ → UInt32) (hbelow : frame * pageSize < mm.highMemory)
      (h : reserved (mm.memMap frame) = true) :
      mm.Copied (.table frame ptes) (.table frame ptes) (.table frame ptes)
  | user (frame frame' : ℕ) (ptes old new : ℕ → UInt32)
      (hbelow : frame * pageSize < mm.highMemory) (h : reserved (mm.memMap frame) = false)
      (hmem : frame' ∈ mm.memory)
      (hentries : mm.EntriesCopied 0 ptrsPerPage ptes (fun _ => 0) old new) :
      mm.Copied (.table frame ptes) (.table frame old) (.table frame' new)

def Mm.shared (mm : Mm) : DirEntry → Multiset Loan
  | .absent _ => 0
  | .table frame ptes =>
    if mm.highMemory ≤ frame * pageSize ∨ reserved (mm.memMap frame) then 0
    else entryLoans (fun k => mm.childOf (ptes k)) 0 ptrsPerPage

theorem shared_user (ptes : ℕ → UInt32) (hbelow : frame * pageSize < mm.highMemory)
    (h : reserved (mm.memMap frame) = false) :
    mm.shared (.table frame ptes) = entryLoans (fun k => mm.childOf (ptes k)) 0 ptrsPerPage :=
  if_neg (by simp [hbelow, h])

def Mm.shares (mm : Mm) (i n : ℕ) : Multiset Loan :=
  ∑ k ∈ Finset.Ico i (i + n), mm.shared (mm.dir k)

theorem shares_succ (i n : ℕ) :
    mm.shares i (n + 1) = mm.shared (mm.dir i) + mm.shares (i + 1) n := by
  unfold Mm.shares
  rw [Finset.sum_eq_sum_Ico_succ_bot (by omega), show i + (n + 1) = i + 1 + n by omega]

theorem shares_le (h : m ≤ n) : mm.shares 0 m ≤ mm.shares 0 n :=
  Finset.sum_le_sum_of_subset (Finset.Ico_subset_Ico_right (by omega))

theorem shares_with (i n : ℕ) (old : DirEntry) (memory : List ℕ) :
    ({ mm with dir := update mm.dir i old, memory := memory } : Mm).shares (i + 1) n =
      mm.shares (i + 1) n := by
  refine Finset.sum_congr rfl fun k hk => ?_
  have hne : k ≠ i := by
    have := (Finset.mem_Ico.mp hk).1
    omega
  simp only [update_of_ne hne]
  rfl

def frames (l : List ℕ) : Multiset Loan := Multiset.ofList (l.map Loan.frame)

theorem frames_append (l l' : List ℕ) : frames (l ++ l') = frames l + frames l' := by
  simp [frames]

theorem frames_cons (f : ℕ) (l : List ℕ) : frames (f :: l) = {.frame f} + frames l := by
  simp [frames]

theorem frame_mem_frames {f : ℕ} {l : List ℕ} : Loan.frame f ∈ frames l ↔ f ∈ l := by
  simp [frames]

structure Mm.Spare (mm : Mm) (s : Multiset Loan) : Prop where
  nodup : mm.memory.Nodup
  free : ∀ f ∈ mm.memory, mm.memMap f = 0
  apart : ∀ f ∈ mm.memory, Loan.frame f ∉ s

theorem copyTables_turn {new : ℕ → DirEntry} (n i : ℕ) (hnew : new i = .absent 0)
    (hroom : mm.Room (s + (mm.shared (mm.dir i) + frames mm.memory)))
    (hfresh : mm.Spare (s + mm.shared (mm.dir i))) :
    (mm.memory = [] ∧ (mm.lend s).copyTables (n + 1) i new = (mm.lend s, new, false)) ∨
      ∃ old x taken rest, mm.memory = taken ++ rest ∧ mm.Copied (mm.dir i) old x ∧
        mm.tableLoans x = mm.shared (mm.dir i) + frames taken ∧
        (mm.lend s).copyTables (n + 1) i new =
          (({ mm with dir := update mm.dir i old, memory := rest } : Mm).lend
            (s + mm.tableLoans x)).copyTables n (i + 1) (update new i x) := by
  have hsame : update new i (.absent 0) = new := by
    rw [← hnew, update_eq_self]
  cases hdir : mm.dir i with
  | absent value =>
    right
    refine ⟨.absent 0, .absent 0, [], mm.memory, rfl, .absent value, rfl, ?_⟩
    simp only [Mm.copyTables, lend_dir, hdir]
    by_cases h0 : value = 0
    · have hkept : update mm.dir i (.absent 0) = mm.dir := by
        rw [← h0, ← hdir, update_eq_self]
      rw [if_pos h0, hsame, hkept]
      simp [Mm.tableLoans]
    · rw [if_neg h0, hsame]
      simp [Mm.tableLoans]
      rfl
  | table frame ptes =>
    have hres : reserved ((mm.lend s).memMap frame) = reserved (mm.memMap frame) :=
      reserved_lend (hroom.mono (Multiset.le_add_right _ _)) frame
    simp only [Mm.copyTables, lend_dir, hdir, lend_highMemory, hres]
    by_cases hhigh : mm.highMemory ≤ frame * pageSize
    · right
      refine ⟨.absent 0, .absent 0, [], mm.memory, rfl, .damaged frame ptes hhigh, ?_, ?_⟩
      · simp [Mm.tableLoans, Mm.shared, hhigh, frames]
      · rw [if_pos hhigh, hsame]
        simp [Mm.tableLoans]
        rfl
    rw [if_neg hhigh]
    cases hkernel : reserved (mm.memMap frame) with
    | true =>
      right
      refine ⟨.table frame ptes, .table frame ptes, [], mm.memory, rfl,
        .kernel frame ptes (not_le.mp hhigh) hkernel, ?_, ?_⟩
      · simp [Mm.tableLoans, Mm.shared, hkernel, frames]
      · rw [if_pos rfl, ← hdir, update_eq_self, hdir]
        simp [Mm.tableLoans, hkernel]
    | false =>
      cases hmem : mm.memory with
      | nil =>
        left
        have hnone : (mm.lend s).getFreePage = none := by
          unfold Mm.getFreePage
          rw [lend_memory, hmem]
        refine ⟨rfl, ?_⟩
        simp [hnone]
      | cons frame' rest =>
        right
        have hin : frame' ∈ mm.memory := by simp [hmem]
        have hfree : mm.memMap frame' = 0 := hfresh.free frame' hin
        have hapart : Loan.frame frame' ∉ s := fun hs =>
          hfresh.apart frame' hin (Multiset.mem_add.mpr (.inl hs))
        have hshared : mm.shared (.table frame ptes) =
            entryLoans (fun k => mm.childOf (ptes k)) 0 ptrsPerPage :=
          shared_user ptes (not_le.mp hhigh) hkernel
        rw [hdir, hshared, hmem] at hroom
        have hroom' : mm.Room (s + {.frame frame'} +
            entryLoans (fun k => mm.childOf (ptes k)) 0 ptrsPerPage) := by
          refine hroom.mono ?_
          rw [frames_cons, add_right_comm, ← add_assoc, ← add_assoc]
          exact Multiset.le_add_right _ _
        obtain ⟨old, new', hcopied, hrun⟩ :=
          copyEntries_lend { mm with memory := rest } ptrsPerPage 0
            (fun _ _ => rfl : ∀ k, 0 ≤ k → (fun _ : ℕ => (0 : UInt32)) k = 0)
            (hroom'.transport mm.dir rest)
        have htable : mm.tableLoans (.table frame' new') =
            entryLoans (fun k => mm.childOf (ptes k)) 0 ptrsPerPage + frames [frame'] := by
          have hzero : reserved (mm.memMap frame') = false := by
            rw [hfree]
            decide
          rw [tableLoans_user new' (hroom.below frame' (by simp [frames])) hzero]
          have hsame : entryLoans new' 0 ptrsPerPage =
              entryLoans (fun k => mm.childOf (ptes k)) 0 ptrsPerPage := by
            refine entryLoans_congr fun k hlow hlt => ?_
            rw [hcopied.child k, if_pos ⟨hlow, hlt⟩]
            rfl
          rw [hsame]
          rfl
        refine ⟨.table frame old, .table frame' new', [frame'], rest, rfl,
          .user frame frame' ptes old new' (not_le.mp hhigh) hkernel hin
            ⟨hcopied.parent, hcopied.child⟩, by rw [htable, hshared], ?_⟩
        have hloans : s + mm.tableLoans (.table frame' new') = s + {.frame frame'} +
            entryLoans (fun k => mm.childOf (ptes k)) 0 ptrsPerPage := by
          rw [htable, add_comm (entryLoans _ _ _), ← add_assoc]
          rfl
        rw [getFreePage_lend hmem hfree hapart, if_neg (by simp), hloans]
        change Mm.copyTables n { (Mm.copyEntries _ _ _ _ _).1 with dir := _ } _ _ = _
        rw [hrun]
        rfl

/-- What the loop over the directory has done to the two directories when it has
come from `i` over `m` entries and has taken the frames `taken`. -/
structure Mm.TablesCopied (mm : Mm) (i m : ℕ) (new dir' new' : ℕ → DirEntry) (taken : List ℕ) :
    Prop where
  copied : ∀ k, i ≤ k → k < i + m → mm.Copied (mm.dir k) (dir' k) (new' k)
  kept : ∀ k, ¬(i ≤ k ∧ k < i + m) → dir' k = mm.dir k ∧ new' k = new k
  held : mm.dirLoans new' i m = mm.shares i m + frames taken

theorem Mm.Copied.transport {e old x : DirEntry} {rest : List ℕ}
    (hsub : ∀ f ∈ rest, f ∈ mm.memory)
    (h : ({ mm with dir := dir, memory := rest } : Mm).Copied e old x) : mm.Copied e old x := by
  cases h with
  | absent value => exact .absent value
  | damaged frame ptes h => exact .damaged frame ptes h
  | kernel frame ptes hbelow h => exact .kernel frame ptes hbelow h
  | user frame frame' ptes old new hbelow h hmem hentries =>
    exact .user frame frame' ptes old new hbelow h (hsub frame' hmem)
      ⟨hentries.parent, hentries.child⟩

theorem Mm.TablesCopied.cons {i : ℕ} {new dir' new' : ℕ → DirEntry} {old x : DirEntry}
    {first taken rest : List ℕ} (hmem : mm.memory = first ++ rest)
    (hcopied : mm.Copied (mm.dir i) old x)
    (hloans : mm.tableLoans x = mm.shared (mm.dir i) + frames first)
    (h : ({ mm with dir := update mm.dir i old, memory := rest } : Mm).TablesCopied
      (i + 1) m (update new i x) dir' new' taken) :
    mm.TablesCopied i (m + 1) new dir' new' (first ++ taken) := by
  obtain ⟨holdI, hnewI⟩ := h.kept i (by omega)
  rw [update_self] at hnewI
  change dir' i = update mm.dir i old i at holdI
  rw [update_self] at holdI
  constructor
  · intro k hlow hlt
    by_cases hk : k = i
    · subst hk
      rw [holdI, hnewI]
      exact hcopied
    · have hlater := h.copied k (by omega) (by omega)
      have hdirK : update mm.dir i old k = mm.dir k := update_of_ne hk _ _
      simp only [hdirK] at hlater
      exact hlater.transport fun f hf => by simp [hmem, hf]
  · intro k hout
    have hk : k ≠ i := by omega
    obtain ⟨hdirK, hnewK⟩ := h.kept k (by omega)
    simp only [update_of_ne hk] at hdirK hnewK
    exact ⟨hdirK, hnewK⟩
  · have hlater := h.held
    rw [shares_with] at hlater
    change mm.dirLoans new' (i + 1) m = _ at hlater
    rw [dirLoans_succ, hnewI, hloans, shares_succ, frames_append, hlater, add_add_add_comm]

theorem copyTables_lend (mm : Mm) {new : ℕ → DirEntry} (n i : ℕ)
    (hnew : ∀ k, i ≤ k → new k = .absent 0)
    (hroom : mm.Room (s + (mm.shares i n + frames mm.memory)))
    (hfresh : mm.Spare (s + mm.shares i n)) :
    ∃ m dir' new' taken rest ok, mm.memory = taken ++ rest ∧ m ≤ n ∧ (ok = true → m = n) ∧
      (ok = false → rest = []) ∧ mm.TablesCopied i m new dir' new' taken ∧
      (mm.lend s).copyTables n i new =
        (({ mm with dir := dir', memory := rest } : Mm).lend (s + mm.dirLoans new' i m), new',
          ok) := by
  induction n generalizing mm s i new with
  | zero =>
    refine ⟨0, mm.dir, new, [], mm.memory, true, rfl, le_rfl, fun _ => rfl, by simp,
      ⟨by omega, fun _ _ => ⟨rfl, rfl⟩, ?_⟩, ?_⟩
    · simp [Mm.dirLoans, Mm.shares, frames]
    · simp [Mm.copyTables, Mm.dirLoans]
  | succ n ih =>
    rw [shares_succ] at hroom hfresh
    have hroomI : mm.Room (s + (mm.shared (mm.dir i) + frames mm.memory)) := by
      refine hroom.mono ?_
      gcongr
      exact Multiset.le_add_right _ _
    have hfreshI : mm.Spare (s + mm.shared (mm.dir i)) := by
      refine ⟨hfresh.nodup, hfresh.free, fun f hf hs => hfresh.apart f hf ?_⟩
      rw [← add_assoc]
      exact Multiset.mem_add.mpr (.inl hs)
    obtain ⟨hempty, hfail⟩ | ⟨old, x, first, rest, hmem, hcopied, hloans, hturn⟩ :=
      copyTables_turn n i (hnew i le_rfl) hroomI hfreshI
    · refine ⟨0, mm.dir, new, [], [], false, hempty, by omega, by simp, fun _ => rfl,
        ⟨by omega, fun _ _ => ⟨rfl, rfl⟩, ?_⟩, ?_⟩
      · simp [Mm.dirLoans, Mm.shares, frames]
      · rw [hfail, ← hempty]
        simp [Mm.dirLoans]
    · have hnew' : ∀ k, i + 1 ≤ k → update new i x k = .absent 0 := by
        intro k hk
        rw [update_of_ne (by omega)]
        exact hnew k (by omega)
      have hsum : s + (mm.shared (mm.dir i) + mm.shares (i + 1) n + frames mm.memory) =
          s + mm.tableLoans x + (mm.shares (i + 1) n + frames rest) := by
        rw [hloans, hmem, frames_append]
        abel
      have hroom' := (hsum ▸ hroom).transport (update mm.dir i old) rest
      have hnodup := hfresh.nodup
      rw [hmem, List.nodup_append'] at hnodup
      have hfresh' : ({ mm with dir := update mm.dir i old, memory := rest } : Mm).Spare
          (s + mm.tableLoans x + mm.shares (i + 1) n) := by
        refine ⟨hnodup.2.1, fun f hf => hfresh.free f (by simp [hmem, hf]), fun f hf hin => ?_⟩
        have hapart := hfresh.apart f (by simp [hmem, hf])
        rw [hloans] at hin
        have hfirst : f ∉ first := fun h => hnodup.2.2 h hf
        simp only [Multiset.mem_add, frame_mem_frames] at hin hapart
        tauto
      obtain ⟨m, dir', new', taken, rest', ok, hrest, hle, hok, hfail, hlater, hrun⟩ :=
        ih _ (i + 1) hnew' (by rw [shares_with]; exact hroom') (by rw [shares_with]; exact hfresh')
      refine ⟨m + 1, dir', new', first ++ taken, rest', ok, ?_, by omega, fun h => by rw [hok h],
        hfail, hlater.cons hmem hcopied hloans, ?_⟩
      · rw [hmem, List.append_assoc]
        congr 1
      · have hfirst : new' i = x := by
          rw [(hlater.kept i (by omega)).2, update_self]
        rw [hturn, hrun, dirLoans_succ, hfirst, ← add_assoc]
        rfl

end LinuxKernel.Paging
