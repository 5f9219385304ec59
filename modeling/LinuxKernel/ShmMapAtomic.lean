import LinuxKernel.PageRanges
import LinuxKernel.ShmMapModel

/-!
# When `shm_map` is all-or-nothing

The first loop is followed page by page: the pages that it passes over behind a new
page table have nothing to check.  It changes no entry, and every page that it lets go
of and every page table that it allocates changes a count that nothing after it in the
loop changes back.
-/

namespace LinuxKernel.Paging
open Function List

/-! ## Page by page -/

def Mm.checkPage (remap : Bool) (mm : Mm) (page : ℕ) : Mm × ℤ :=
  match mm.dir (page / ptrsPerPage) with
  | .table _ ptes =>
    if ptes (page % ptrsPerPage) ≠ 0 then
      if ¬remap then (mm, -einval) else (mm.shmDrop (ptes (page % ptrsPerPage)), 0)
    else (mm, 0)
  | .absent _ =>
    match mm.getFreePage with
    | none => (mm, -enomem)
    | some (mm1, frame) => (mm1.setTable (page / ptrsPerPage) frame fun _ => 0, 0)

def Mm.checkPages (remap : Bool) : List ℕ → Mm → Mm × ℤ
  | [], mm => (mm, 0)
  | page :: pages, mm =>
    if (mm.checkPage remap page).2 = 0 then (mm.checkPage remap page).1.checkPages remap pages
    else mm.checkPage remap page

inductive Mm.PageChecked (remap : Bool) (mm : Mm) (page : ℕ) : Mm × ℤ → Prop where
  | clear (frame : ℕ) (ptes : ℕ → UInt32)
      (table : mm.dir (page / ptrsPerPage) = .table frame ptes) (zero : mm.entry page = 0) :
      PageChecked remap mm page (mm, 0)
  | mapped (frame : ℕ) (ptes : ℕ → UInt32)
      (table : mm.dir (page / ptrsPerPage) = .table frame ptes) (nonzero : mm.entry page ≠ 0)
      (stays : remap = false) : PageChecked remap mm page (mm, -einval)
  | drop (frame : ℕ) (ptes : ℕ → UInt32)
      (table : mm.dir (page / ptrsPerPage) = .table frame ptes) (nonzero : mm.entry page ≠ 0)
      (goes : remap = true) : PageChecked remap mm page (mm.shmDrop (mm.entry page), 0)
  | noMemory (value : UInt32) (missing : mm.dir (page / ptrsPerPage) = .absent value)
      (empty : mm.memory = []) : PageChecked remap mm page (mm, -enomem)
  | allocate (value : UInt32) (missing : mm.dir (page / ptrsPerPage) = .absent value)
      (frame : ℕ) (rest : List ℕ) (memory : mm.memory = frame :: rest) :
      PageChecked remap mm page
        ({ mm with memory := rest, memMap := update mm.memMap frame 1 }.setTable
          (page / ptrsPerPage) frame fun _ => 0, 0)

theorem checkPage_cases (remap : Bool) (mm : Mm) (page : ℕ) :
    mm.PageChecked remap page (mm.checkPage remap page) := by
  unfold Mm.checkPage
  cases hdir : mm.dir (page / ptrsPerPage) with
  | table frame ptes =>
    have hentry : mm.entry page = ptes (page % ptrsPerPage) := entryOf_table hdir
    dsimp only
    rw [← hentry]
    by_cases hzero : mm.entry page = 0
    · rw [if_neg (not_not.mpr hzero)]
      exact .clear frame ptes hdir hzero
    · rw [if_pos hzero]
      cases remap with
      | false => exact .mapped frame ptes hdir hzero rfl
      | true => exact .drop frame ptes hdir hzero rfl
  | absent value =>
    obtain ⟨hempty, hnone⟩ | ⟨frame, rest, hmemory, hsome⟩ := getFreePage_cases mm
    · rw [hnone]
      exact .noMemory value hdir hempty
    · rw [hsome]
      exact .allocate value hdir frame rest hmemory

theorem checkPages_cons_ok {remap : Bool} {mm mm' : Mm} {page : ℕ}
    (h : mm.checkPage remap page = (mm', 0)) (pages : List ℕ) :
    mm.checkPages remap (page :: pages) = mm'.checkPages remap pages := by
  rw [Mm.checkPages, h, if_pos rfl]

theorem checkPages_cons_error {remap : Bool} {mm mm' : Mm} {page : ℕ} {err : ℤ}
    (h : mm.checkPage remap page = (mm', err)) (herr : err ≠ 0) (pages : List ℕ) :
    mm.checkPages remap (page :: pages) = (mm', err) := by
  rw [Mm.checkPages, h, if_neg herr]

theorem checkPages_skip (remap : Bool) (qs : List ℕ) (mm : Mm) (ps : List ℕ)
    (h : ∀ page ∈ ps, ∃ frame ptes,
      mm.dir (page / ptrsPerPage) = .table frame ptes ∧ ptes (page % ptrsPerPage) = 0) :
    mm.checkPages remap (ps ++ qs) = mm.checkPages remap qs := by
  induction ps with
  | nil => rfl
  | cons page ps ih =>
    obtain ⟨frame, ptes, hdir, hzero⟩ := h page mem_cons_self
    have hpage : mm.checkPage remap page = (mm, 0) := by
      unfold Mm.checkPage
      rw [hdir]
      dsimp only
      rw [if_neg (not_not.mpr hzero)]
    rw [cons_append, checkPages_cons_ok hpage]
    exact ih fun page hpage => h page (mem_cons_of_mem _ hpage)

theorem or_lastIndex (page : ℕ) : page ||| 1023 = ptrsPerPage * (page / ptrsPerPage) + 1023 := by
  have hlow : page % 1024 ||| 1023 = 1023 := by
    have hlt : page % 1024 ||| 1023 < 2 ^ 10 :=
      Nat.or_lt_two_pow (Nat.mod_lt _ (by norm_num)) (by norm_num)
    have hle : 1023 ≤ page % 1024 ||| 1023 := Nat.right_le_or
    omega
  have hsplit : page = 2 ^ 10 * (page / 1024) ||| page % 1024 := by
    rw [← Nat.two_pow_add_eq_or_of_lt (Nat.mod_lt _ (by norm_num))]
    exact (Nat.div_add_mod page 1024).symm
  calc page ||| 1023
      = (2 ^ 10 * (page / 1024) ||| page % 1024) ||| 1023 := by rw [← hsplit]
    _ = 2 ^ 10 * (page / 1024) ||| 1023 := by rw [Nat.or_assoc, hlow]
    _ = 2 ^ 10 * (page / 1024) + 1023 := (Nat.two_pow_add_eq_or_of_lt (by norm_num) _).symm

section
variable {tmp : UInt32} {page : ℕ} (htmp : tmp.toNat = 4096 * page)
include htmp

theorem toNat_nextPage (hpage : page < 1048575) : (tmp + 4096).toNat = 4096 * (page + 1) := by
  have h4096 : (4096 : UInt32).toNat = 4096 := rfl
  rw [UInt32.toNat_add, htmp, h4096, Nat.mod_eq_of_lt (by omega)]
  omega

theorem toNat_nextTable (hpage : page / ptrsPerPage < 1023) :
    ((tmp ||| 0x3ff000) + 4096).toNat = 4096 * (ptrsPerPage * (page / ptrsPerPage + 1)) := by
  have hor : (tmp ||| 0x3ff000).toNat = 4096 * (page ||| 1023) := by
    have hmask : (0x3ff000 : UInt32).toNat = 1023 <<< 12 := by decide
    rw [UInt32.toNat_or, htmp, hmask,
        show 4096 * page = page <<< 12 by rw [Nat.shiftLeft_eq]; omega,
      ← Nat.shiftLeft_or_distrib, Nat.shiftLeft_eq]
    omega
  rw [toNat_nextPage hor (by rw [or_lastIndex]; unfold ptrsPerPage at *; omega), or_lastIndex]
  unfold ptrsPerPage
  omega

end

theorem shmCheck_eq (remap : Bool) {stop : UInt32} {last : ℕ} (hstop : stop.toNat = 4096 * last)
    (hlast : last ≤ 1047552) (fuel : ℕ) (mm : Mm) (tmp : UInt32) (page : ℕ)
    (htmp : tmp.toNat = 4096 * page) (hfuel : last - page ≤ fuel) :
    mm.shmCheck remap stop fuel tmp = mm.checkPages remap (List.range' page (last - page)) := by
  induction fuel generalizing mm tmp page with
  | zero =>
    rw [show last - page = 0 by omega]
    rfl
  | succ fuel ih =>
    have hlt : tmp < stop ↔ page < last := by
      rw [UInt32.lt_iff_toNat_lt, htmp, hstop]
      omega
    unfold Mm.shmCheck
    by_cases hpage : page < last
    · have hdirIndex : dirIndex tmp = page / ptrsPerPage := by
        rw [dirIndex_eq, htmp]
        unfold pageSize
        rw [Nat.mul_div_cancel_left _ (by norm_num)]
      have htableIndex : tableIndex tmp = page % ptrsPerPage := by
        rw [tableIndex_eq, htmp]
        unfold pageSize
        rw [Nat.mul_div_cancel_left _ (by norm_num)]
      have hnext := toNat_nextPage htmp (by omega)
      have hcount : last - page = (last - (page + 1)) + 1 := by omega
      rw [if_pos (hlt.mpr hpage), hdirIndex, htableIndex, hcount, List.range'_succ]
      cases hdir : mm.dir (page / ptrsPerPage) with
      | table frame ptes =>
        dsimp only
        by_cases hzero : ptes (page % ptrsPerPage) = 0
        · have hcheck : mm.checkPage remap page = (mm, 0) := by
            unfold Mm.checkPage
            rw [hdir]
            exact if_neg (not_not.mpr hzero)
          rw [if_neg (not_not.mpr hzero), checkPages_cons_ok hcheck]
          exact ih mm (tmp + 4096) (page + 1) hnext (by omega)
        · rw [if_pos hzero]
          cases remap with
          | false =>
            have hcheck : mm.checkPage false page = (mm, -einval) := by
              unfold Mm.checkPage
              rw [hdir]
              exact if_pos hzero
            rw [checkPages_cons_error hcheck (by decide)]
            rfl
          | true =>
            have hcheck : mm.checkPage true page = (mm.shmDrop (ptes (page % ptrsPerPage)), 0) := by
              unfold Mm.checkPage
              rw [hdir]
              exact if_pos hzero
            rw [checkPages_cons_ok hcheck]
            exact ih _ (tmp + 4096) (page + 1) hnext (by omega)
      | absent value =>
        cases hmemory : mm.getFreePage with
        | none =>
          have hcheck : mm.checkPage remap page = (mm, -enomem) := by
            unfold Mm.checkPage
            rw [hdir]
            rw [hmemory]
          rw [checkPages_cons_error hcheck (by decide)]
        | some r =>
          have hcheck : mm.checkPage remap page =
              (r.1.setTable (page / ptrsPerPage) r.2 fun _ => 0, 0) := by
            unfold Mm.checkPage
            rw [hdir]
            rw [hmemory]
          rw [checkPages_cons_ok hcheck]
          dsimp only
          have htable : page / ptrsPerPage < 1023 := by
            unfold ptrsPerPage
            omega
          rw [ih _ _ _ (toNat_nextTable htmp htable) (by unfold ptrsPerPage; omega)]
          -- the rest of the new page table, as far as it is in the range
          obtain ⟨skipped, hskipped⟩ : ∃ skipped, skipped =
              min (ptrsPerPage * (page / ptrsPerPage + 1)) last - (page + 1) := ⟨_, rfl⟩
          have hrange : List.range' (page + 1) (last - (page + 1)) =
              List.range' (page + 1) skipped ++
                List.range' (page + 1 + skipped) (last - (page + 1) - skipped) := by
            rw [List.range'_append_1, Nat.add_sub_cancel' (by omega)]
          rw [hrange, checkPages_skip]
          · by_cases hout : last ≤ ptrsPerPage * (page / ptrsPerPage + 1)
            · rw [show last - ptrsPerPage * (page / ptrsPerPage + 1) = 0 by omega,
                show last - (page + 1) - skipped = 0 by omega, List.range'_zero,
                List.range'_zero]
            · have hbefore : page + 1 ≤ ptrsPerPage * (page / ptrsPerPage + 1) := by
                unfold ptrsPerPage
                omega
              have hfirst : page + 1 + skipped = ptrsPerPage * (page / ptrsPerPage + 1) := by omega
              have hrest : last - (page + 1) - skipped =
                  last - ptrsPerPage * (page / ptrsPerPage + 1) := by omega
              rw [hfirst, hrest]
          · intro q hq
            rw [mem_range'_1] at hq
            have hsame : q / ptrsPerPage = page / ptrsPerPage := by
              unfold ptrsPerPage at *
              omega
            refine ⟨r.2, fun _ => 0, ?_, rfl⟩
            unfold Mm.setTable
            dsimp only
            rw [hsame, update_self]
    · rw [if_neg (hlt.not.mpr hpage), show last - page = 0 by omega]
      rfl

theorem checkPages_rule {remap : Bool} {R : Mm → Mm → Prop} (hrefl : ∀ mm, R mm mm)
    (htrans : ∀ {mm1 mm2 mm3}, R mm1 mm2 → R mm2 mm3 → R mm1 mm3) (pages : List ℕ)
    (hstep : ∀ mm page r, page ∈ pages → mm.PageChecked remap page r → R mm r.1) (mm : Mm) :
    R mm (mm.checkPages remap pages).1 := by
  induction pages generalizing mm with
  | nil => exact hrefl mm
  | cons page pages ih =>
    have hpage := hstep mm page _ mem_cons_self (checkPage_cases remap mm page)
    have hpages := ih (fun mm q r hq => hstep mm q r (mem_cons_of_mem _ hq))
    unfold Mm.checkPages
    split
    · exact htrans hpage (hpages _)
    · exact hpage

section
variable {remap : Bool} {mm : Mm} {page : ℕ} {r : Mm × ℤ} (h : mm.PageChecked remap page r)
include h

theorem Mm.PageChecked.entry (q : ℕ) : r.1.entry q = mm.entry q := by
  cases h with
  | clear | mapped | noMemory => rfl
  | drop =>
    unfold Mm.entry
    rw [shmDrop_dir]
  | allocate value missing frame =>
    unfold Mm.entry Mm.setTable
    by_cases hq : q / ptrsPerPage = page / ptrsPerPage
    · rw [entryOf_update_table hq, entryOf_absent (hq ▸ missing)]
    · rw [entryOf_update_of_ne hq]

theorem Mm.PageChecked.table {j frame : ℕ} {ptes : ℕ → UInt32} (hj : mm.dir j = .table frame ptes) :
    r.1.dir j = .table frame ptes := by
  cases h with
  | clear | mapped | noMemory => exact hj
  | drop =>
    rw [shmDrop_dir]
    exact hj
  | allocate value missing =>
    have hne : j ≠ page / ptrsPerPage := by
      rintro rfl
      rw [hj] at missing
      contradiction
    unfold Mm.setTable
    dsimp only
    rw [update_of_ne hne, hj]

theorem Mm.PageChecked.dir_of_ne {j : ℕ} (hj : j ≠ page / ptrsPerPage) : r.1.dir j = mm.dir j := by
  cases h with
  | clear | mapped | noMemory => rfl
  | drop => rw [shmDrop_dir]
  | allocate =>
    unfold Mm.setTable
    dsimp only
    rw [update_of_ne hj]

end

section
variable (remap : Bool) (pages : List ℕ) (mm : Mm)

theorem checkPages_entry (q : ℕ) : (mm.checkPages remap pages).1.entry q = mm.entry q :=
  checkPages_rule (R := fun mm mm' => mm'.entry q = mm.entry q) (fun _ => rfl)
    (fun h h' => h'.trans h) pages (fun _ _ _ _ h => Mm.PageChecked.entry h q) mm

theorem checkPages_table {j frame : ℕ} {ptes : ℕ → UInt32} (hj : mm.dir j = .table frame ptes) :
    (mm.checkPages remap pages).1.dir j = .table frame ptes :=
  checkPages_rule (R := fun mm mm' => mm.dir j = .table frame ptes → mm'.dir j = .table frame ptes)
    (fun _ h => h) (fun h h' hj => h' (h hj)) pages (fun _ _ _ _ h => Mm.PageChecked.table h) mm hj

theorem checkPages_dir_of_ne {j : ℕ} (hj : ∀ page ∈ pages, j ≠ page / ptrsPerPage) :
    (mm.checkPages remap pages).1.dir j = mm.dir j :=
  checkPages_rule (R := fun mm mm' => mm'.dir j = mm.dir j) (fun _ => rfl) (fun h h' => h'.trans h)
    pages (fun _ page _ hpage h => Mm.PageChecked.dir_of_ne h (hj page hpage)) mm

end

def missingTables (dir : ℕ → DirEntry) (pages : List ℕ) : Finset ℕ :=
  (pages.toFinset.image (· / ptrsPerPage)).filter fun j => (dir j).frame? = none

theorem mem_missingTables {dir : ℕ → DirEntry} {pages : List ℕ} {j : ℕ} :
    j ∈ missingTables dir pages ↔
      (∃ page ∈ pages, page / ptrsPerPage = j) ∧ (dir j).frame? = none := by
  simp [missingTables]

theorem missingTables_cons_table {dir : ℕ → DirEntry} {page frame : ℕ} {ptes : ℕ → UInt32}
    (h : dir (page / ptrsPerPage) = .table frame ptes) (pages : List ℕ) :
    missingTables dir (page :: pages) = missingTables dir pages := by
  ext j
  rw [mem_missingTables, mem_missingTables]
  constructor
  · rintro ⟨⟨q, hq, rfl⟩, hnone⟩
    rcases mem_cons.mp hq with rfl | hq
    · rw [h] at hnone
      exact absurd hnone (Option.some_ne_none frame)
    · exact ⟨⟨q, hq, rfl⟩, hnone⟩
  · rintro ⟨⟨q, hq, rfl⟩, hnone⟩
    exact ⟨⟨q, mem_cons_of_mem _ hq, rfl⟩, hnone⟩

theorem missingTables_allocate (dir : ℕ → DirEntry) (page frame : ℕ) (ptes : ℕ → UInt32)
    (pages : List ℕ) :
    missingTables (update dir (page / ptrsPerPage) (.table frame ptes)) pages =
      (missingTables dir (page :: pages)).erase (page / ptrsPerPage) := by
  ext j
  rw [Finset.mem_erase, mem_missingTables, mem_missingTables]
  by_cases hj : j = page / ptrsPerPage
  · subst hj
    simp [DirEntry.frame?]
  · rw [update_of_ne hj]
    constructor
    · rintro ⟨⟨q, hq, rfl⟩, hnone⟩
      exact ⟨hj, ⟨q, mem_cons_of_mem _ hq, rfl⟩, hnone⟩
    · rintro ⟨-, ⟨q, hq, rfl⟩, hnone⟩
      rcases mem_cons.mp hq with rfl | hq
      · exact absurd rfl hj
      · exact ⟨⟨q, hq, rfl⟩, hnone⟩

theorem checkPages_eq_zero_iff (remap : Bool) (pages : List ℕ) (mm : Mm) :
    (mm.checkPages remap pages).2 = 0 ↔
      (remap = true ∨ ∀ page ∈ pages, mm.entry page = 0) ∧
        (missingTables mm.dir pages).card ≤ mm.memory.length := by
  induction pages generalizing mm with
  | nil => simp [Mm.checkPages, missingTables]
  | cons page pages ih =>
    have hcase := checkPage_cases remap mm page
    generalize hcheck : mm.checkPage remap page = r at hcase
    have hentry := Mm.PageChecked.entry hcase
    cases hcase with
    | clear frame ptes table zero =>
      rw [checkPages_cons_ok hcheck, ih, missingTables_cons_table table, forall_mem_cons]
      tauto
    | mapped frame ptes table nonzero stays =>
      rw [checkPages_cons_error hcheck (by decide), stays, forall_mem_cons]
      simp [einval, nonzero]
    | drop frame ptes table nonzero goes =>
      rw [checkPages_cons_ok hcheck, ih, missingTables_cons_table table, shmDrop_dir,
        shmDrop_memory]
      simp only [goes, true_or]
    | noMemory value missing empty =>
      have hmem : page / ptrsPerPage ∈ missingTables mm.dir (page :: pages) := by
        rw [mem_missingTables, missing]
        exact ⟨⟨page, mem_cons_self, rfl⟩, rfl⟩
      have hcard := Finset.card_pos.mpr ⟨_, hmem⟩
      rw [checkPages_cons_error hcheck (by decide), empty, length_nil]
      constructor
      · intro h
        exact absurd (show -enomem = 0 from h) (by decide)
      · intro h
        omega
    | allocate value missing frame rest memory =>
      have hmem : page / ptrsPerPage ∈ missingTables mm.dir (page :: pages) := by
        rw [mem_missingTables, missing]
        exact ⟨⟨page, mem_cons_self, rfl⟩, rfl⟩
      have hzero : mm.entry page = 0 := entryOf_absent missing
      rw [checkPages_cons_ok hcheck, ih, forall_mem_cons, memory, length_cons]
      simp only [hentry, hzero, true_and]
      unfold Mm.setTable
      rw [missingTables_allocate, Finset.card_erase_of_mem hmem]
      have hle : (missingTables mm.dir (page :: pages)).card - 1 ≤ rest.length ↔
          (missingTables mm.dir (page :: pages)).card ≤ rest.length + 1 := by omega
      rw [hle]

theorem checkPages_tables (remap : Bool) (pages : List ℕ) (mm : Mm)
    (h : (mm.checkPages remap pages).2 = 0) (page : ℕ) (hpage : page ∈ pages) :
    ∃ frame ptes, (mm.checkPages remap pages).1.dir (page / ptrsPerPage) = .table frame ptes := by
  induction pages generalizing mm with
  | nil => contradiction
  | cons q pages ih =>
    have hcase := checkPage_cases remap mm q
    generalize hcheck : mm.checkPage remap q = r at hcase
    by_cases hr : r.2 = 0
    · have hok : mm.checkPage remap q = (r.1, 0) := by rw [hcheck, ← hr]
      rw [checkPages_cons_ok hok] at h ⊢
      rcases mem_cons.mp hpage with rfl | hpage
      · have htable : ∃ frame ptes, r.1.dir (page / ptrsPerPage) = .table frame ptes := by
          cases hcase with
          | clear frame ptes table => exact ⟨frame, ptes, table⟩
          | mapped => exact absurd (show -einval = 0 from hr) (by decide)
          | noMemory => exact absurd (show -enomem = 0 from hr) (by decide)
          | drop frame ptes table =>
            rw [shmDrop_dir]
            exact ⟨frame, ptes, table⟩
          | allocate value missing frame => exact ⟨frame, _, update_self ..⟩
        obtain ⟨frame, ptes, htable⟩ := htable
        exact ⟨frame, ptes, checkPages_table remap pages r.1 htable⟩
      · exact ih r.1 h hpage
    · have herr : mm.checkPages remap (q :: pages) = (r.1, r.2) :=
        checkPages_cons_error (by rw [hcheck]) hr pages
      rw [herr] at h
      exact absurd h hr

/-! ## Counts -/

def Mm.SameCounts (mm mm' : Mm) : Prop := mm'.memMap = mm.memMap ∧ mm'.swapMap = mm.swapMap

/-- Letting go of the entry changes a count: its page is in memory, in use and not
reserved, or its slot is in use. -/
def Mm.Counted (mm : Mm) (page : UInt32) : Prop :=
  if present page then
    mapNr page * pageSize < mm.highMemory ∧ mm.memMap (mapNr page) ≠ 0 ∧
      reserved (mm.memMap (mapNr page)) = false
  else
    page ≠ 0 ∧ (slotOf page).1 ≠ Swap.shmSwpType ∧
      ∃ count, mm.swapMap (slotOf page).1 (slotOf page).2 = some count ∧ count ≠ 0

/-- From `mm` to `mm'` the counts only fall, but for the pages of `fresh`, where they
only rise. -/
structure Mm.Falls (fresh : List ℕ) (mm mm' : Mm) : Prop where
  falls : ∀ frame, frame ∉ fresh → mm'.memMap frame ≤ mm.memMap frame
  rises : ∀ frame ∈ fresh, mm.memMap frame ≤ mm'.memMap frame
  slot : ∀ type offset, (mm.swapMap type offset = none ∧ mm'.swapMap type offset = none) ∨
    ∃ count count', mm.swapMap type offset = some count ∧ mm'.swapMap type offset = some count' ∧
      count' ≤ count

theorem Mm.Falls.refl (fresh : List ℕ) (mm : Mm) : mm.Falls fresh mm where
  falls _ _ := UInt16.le_refl _
  rises _ _ := UInt16.le_refl _
  slot type offset := by
    cases mm.swapMap type offset with
    | none => exact .inl ⟨rfl, rfl⟩
    | some count => exact .inr ⟨count, count, rfl, rfl, UInt8.le_refl _⟩

section
variable {fresh : List ℕ} {mm1 mm2 mm3 : Mm} (h : mm1.Falls fresh mm2) (h' : mm2.Falls fresh mm3)
include h h'

theorem Mm.Falls.trans : mm1.Falls fresh mm3 where
  falls frame hframe := UInt16.le_trans (h'.falls frame hframe) (h.falls frame hframe)
  rises frame hframe := UInt16.le_trans (h.rises frame hframe) (h'.rises frame hframe)
  slot type offset := by
    rcases h.slot type offset with ⟨h1, h2⟩ | ⟨c1, c2, h1, h2, hle⟩
    · rcases h'.slot type offset with ⟨-, h3⟩ | ⟨c, -, h3, -⟩
      · exact .inl ⟨h1, h3⟩
      · rw [h2] at h3
        contradiction
    · rcases h'.slot type offset with ⟨h3, -⟩ | ⟨c, c3, h3, h4, hle'⟩
      · rw [h2] at h3
        contradiction
      · rw [h2, Option.some.injEq] at h3
        exact .inr ⟨c1, c3, h1, h4, UInt8.le_trans hle' (h3 ▸ hle)⟩

theorem Mm.Falls.sameCounts (hsame : mm1.SameCounts mm3) : mm1.SameCounts mm2 := by
  obtain ⟨hmemMap, hswapMap⟩ := hsame
  constructor
  · funext frame
    by_cases hframe : frame ∈ fresh
    · have hle := h'.rises frame hframe
      rw [hmemMap] at hle
      exact UInt16.le_antisymm hle (h.rises frame hframe)
    · have hle := h'.falls frame hframe
      rw [hmemMap] at hle
      exact UInt16.le_antisymm (h.falls frame hframe) hle
  · funext type offset
    have hback := congrFun (congrFun hswapMap type) offset
    rcases h.slot type offset with ⟨h1, h2⟩ | ⟨c1, c2, h1, h2, hle⟩
    · rw [h1, h2]
    · rcases h'.slot type offset with ⟨h3, -⟩ | ⟨c, c3, h3, h4, hle'⟩
      · rw [h2] at h3
        contradiction
      · rw [h2, Option.some.injEq] at h3
        rw [h1, h4, Option.some.injEq] at hback
        rw [h1, h2, UInt8.le_antisymm hle (hback ▸ h3 ▸ hle')]

end

theorem freePage_swapMap (mm : Mm) (frame : ℕ) : (mm.freePage frame).swapMap = mm.swapMap := by
  unfold Mm.freePage
  split
  · split
    · split <;> rfl
    · rfl
  · rfl

theorem swapFree_memMap (mm : Mm) (entry : UInt32) : (mm.swapFree entry).memMap = mm.memMap := by
  unfold Mm.swapFree
  split
  · rfl
  · split
    · rfl
    · split
      · rfl
      · split <;> rfl

theorem freePage_cases (mm : Mm) (frame : ℕ) :
    ((frame * pageSize < mm.highMemory ∧ mm.memMap frame ≠ 0 ∧ reserved (mm.memMap frame) = false) ∧
      (mm.freePage frame).memMap = update mm.memMap frame (mm.memMap frame - 1)) ∨
    (¬(frame * pageSize < mm.highMemory ∧ mm.memMap frame ≠ 0 ∧
        reserved (mm.memMap frame) = false) ∧ (mm.freePage frame).memMap = mm.memMap) := by
  unfold Mm.freePage
  by_cases hhigh : frame * pageSize < mm.highMemory
  · by_cases hused : mm.memMap frame = 0
    · rw [if_pos hhigh, if_neg (not_not.mpr hused)]
      exact .inr ⟨fun h => h.2.1 hused, rfl⟩
    · cases hreserved : reserved (mm.memMap frame) with
      | false =>
        rw [if_pos hhigh, if_pos hused, if_pos (by simp)]
        exact .inl ⟨⟨hhigh, hused, rfl⟩, rfl⟩
      | true =>
        rw [if_pos hhigh, if_pos hused, if_neg (by simp)]
        exact .inr ⟨by simp, rfl⟩
  · rw [if_neg hhigh]
    exact .inr ⟨fun h => hhigh h.1, rfl⟩

theorem swapFree_cases (mm : Mm) (entry : UInt32) :
    (∃ count, (entry ≠ 0 ∧ (slotOf entry).1 ≠ Swap.shmSwpType ∧
        mm.swapMap (slotOf entry).1 (slotOf entry).2 = some count ∧ count ≠ 0) ∧
      mm.swapFree entry = mm.setSlot (slotOf entry) (count - 1)) ∨
    (¬(entry ≠ 0 ∧ (slotOf entry).1 ≠ Swap.shmSwpType ∧
      ∃ count, mm.swapMap (slotOf entry).1 (slotOf entry).2 = some count ∧ count ≠ 0) ∧
        mm.swapFree entry = mm) := by
  unfold Mm.swapFree
  by_cases hzero : entry = 0
  · rw [if_pos hzero]
    exact .inr ⟨fun h => h.1 hzero, rfl⟩
  · by_cases hshm : (slotOf entry).1 = Swap.shmSwpType
    · rw [if_neg hzero, if_pos hshm]
      exact .inr ⟨fun h => h.2.1 hshm, rfl⟩
    · rw [if_neg hzero, if_neg hshm]
      cases hslot : mm.swapMap (slotOf entry).1 (slotOf entry).2 with
      | none => exact .inr ⟨by simp, rfl⟩
      | some count =>
        dsimp only
        by_cases hcount : count = 0
        · rw [if_pos hcount]
          exact .inr ⟨by simp [hcount], rfl⟩
        · rw [if_neg hcount]
          exact .inl ⟨count, ⟨hzero, hshm, rfl, hcount⟩, rfl⟩

theorem count_sub_one_lt {count : UInt16} (h : count ≠ 0) : count - 1 < count := by
  have hzero : count.toNat ≠ 0 := fun hzero => h (UInt16.toNat_inj.mp hzero)
  rw [UInt16.lt_iff_toNat_lt, UInt16.toNat_sub_of_le _ _ (by
    change 1 ≤ count.toNat
    omega)]
  change count.toNat - 1 < count.toNat
  omega

theorem slotCount_sub_one_lt {count : UInt8} (h : count ≠ 0) : count - 1 < count := by
  have hzero : count.toNat ≠ 0 := fun hzero => h (UInt8.toNat_inj.mp hzero)
  rw [UInt8.lt_iff_toNat_lt, UInt8.toNat_sub_of_le _ _ (by
    change 1 ≤ count.toNat
    omega)]
  change count.toNat - 1 < count.toNat
  omega

theorem shmDrop_falls {fresh : List ℕ} {mm : Mm} {page : UInt32}
    (hfresh : present page → mapNr page ∉ fresh) : mm.Falls fresh (mm.shmDrop page) := by
  unfold Mm.shmDrop
  split
  · rename_i hpresent
    have hsame : ({ mm with rss := mm.rss - 1 }.freePage (mapNr page)).swapMap = mm.swapMap :=
      freePage_swapMap _ _
    have hmemMap : ∀ frame, ({ mm with rss := mm.rss - 1 }.freePage (mapNr page)).memMap frame ≤
          mm.memMap frame ∧
        (frame ∈ fresh → ({ mm with rss := mm.rss - 1 }.freePage (mapNr page)).memMap frame =
          mm.memMap frame) := by
      intro frame
      rcases freePage_cases { mm with rss := mm.rss - 1 } (mapNr page) with
        ⟨hcounted, hupdate⟩ | ⟨-, hupdate⟩
      · rw [hupdate]
        by_cases hframe : frame = mapNr page
        · subst hframe
          rw [update_self]
          exact ⟨UInt16.le_of_lt (count_sub_one_lt hcounted.2.1),
            fun h => absurd h (hfresh hpresent)⟩
        · rw [update_of_ne hframe]
          exact ⟨UInt16.le_refl _, fun _ => rfl⟩
      · rw [hupdate]
        exact ⟨UInt16.le_refl _, fun _ => rfl⟩
    refine ⟨fun frame _ => (hmemMap frame).1, fun frame hframe => ?_, fun type offset => ?_⟩
    · rw [(hmemMap frame).2 hframe]
      exact UInt16.le_refl _
    · rw [hsame]
      exact (Mm.Falls.refl fresh mm).slot type offset
  · have hsame := swapFree_memMap mm page
    refine ⟨fun frame _ => ?_, fun frame _ => ?_, fun type offset => ?_⟩
    · rw [hsame]
      exact UInt16.le_refl _
    · rw [hsame]
      exact UInt16.le_refl _
    · rcases swapFree_cases mm page with ⟨count, ⟨-, -, hslot, hcount⟩, hfree⟩ | ⟨-, hfree⟩
      · rw [hfree]
        unfold Mm.setSlot
        dsimp only
        by_cases htype : type = (slotOf page).1
        · by_cases hoffset : offset = (slotOf page).2
          · rw [htype, hoffset, update_self, update_self]
            exact .inr ⟨count, count - 1, hslot, rfl, UInt8.le_of_lt (slotCount_sub_one_lt hcount)⟩
          · rw [htype, update_self, update_of_ne hoffset]
            exact (Mm.Falls.refl fresh mm).slot (slotOf page).1 offset
        · rw [update_of_ne htype]
          exact (Mm.Falls.refl fresh mm).slot type offset
      · rw [hfree]
        exact (Mm.Falls.refl fresh mm).slot type offset

theorem shmDrop_sameCounts_iff {mm : Mm} {page : UInt32} :
    mm.SameCounts (mm.shmDrop page) ↔ ¬mm.Counted page := by
  unfold Mm.shmDrop Mm.Counted Mm.SameCounts
  by_cases hpresent : present page = true
  · simp only [hpresent, if_true]
    rcases freePage_cases { mm with rss := mm.rss - 1 } (mapNr page) with
      ⟨hcounted, hupdate⟩ | ⟨hcounted, hupdate⟩
    · refine iff_of_false (fun hsame => ?_) (not_not.mpr hcounted)
      have hframe := congrFun hsame.1 (mapNr page)
      rw [hupdate, update_self] at hframe
      have hlt := count_sub_one_lt hcounted.2.1
      rw [hframe] at hlt
      exact UInt16.lt_irrefl _ hlt
    · exact iff_of_true ⟨hupdate, freePage_swapMap _ _⟩ hcounted
  · simp only [hpresent, if_false, Bool.false_eq_true]
    rcases swapFree_cases mm page with ⟨count, ⟨hzero, htype, hslot, hcount⟩, hfree⟩ | ⟨hnone,
        hfree⟩
    · refine iff_of_false (fun hsame => ?_)
        (not_not.mpr ⟨hzero, htype, count, hslot, hcount⟩)
      have hentry := congrFun (congrFun hsame.2 (slotOf page).1) (slotOf page).2
      rw [hfree] at hentry
      unfold Mm.setSlot at hentry
      dsimp only at hentry
      rw [update_self, update_self, hslot, Option.some.injEq] at hentry
      have hlt := slotCount_sub_one_lt hcount
      rw [hentry] at hlt
      exact UInt8.lt_irrefl _ hlt
    · rw [hfree]
      exact iff_of_true ⟨rfl, rfl⟩ hnone

/-- The pages of `fresh` are the ones that may still be allocated or have been: they
have at most the count of a new page, and no entry maps them. -/
structure Mm.Fresh (fresh : List ℕ) (mm : Mm) : Prop where
  memory : ∀ frame ∈ mm.memory, frame ∈ fresh
  count : ∀ frame ∈ fresh, mm.memMap frame ≤ 1
  unmapped : ∀ page, present (mm.entry page) → mapNr (mm.entry page) ∉ fresh

theorem Mm.PageChecked.falls {remap : Bool} {mm : Mm} {page : ℕ} {r : Mm × ℤ} {fresh : List ℕ}
    (h : mm.PageChecked remap page r) (hfresh : mm.Fresh fresh) :
    mm.Falls fresh r.1 ∧ r.1.Fresh fresh := by
  have hentry := Mm.PageChecked.entry h
  cases h with
  | clear | mapped | noMemory => exact ⟨Mm.Falls.refl fresh mm, hfresh⟩
  | drop =>
    have hfalls : mm.Falls fresh (mm.shmDrop (mm.entry page)) :=
      shmDrop_falls (hfresh.unmapped page)
    refine ⟨hfalls, ?_, ?_, ?_⟩
    · rw [shmDrop_memory]
      exact hfresh.memory
    · intro frame hframe
      dsimp only
      by_cases hpresent : present (mm.entry page) = true
      · rw [Mm.shmDrop, if_pos hpresent]
        rcases freePage_cases { mm with rss := mm.rss - 1 } (mapNr (mm.entry page)) with
          ⟨-, hupdate⟩ | ⟨-, hupdate⟩
        · have hne : frame ≠ mapNr (mm.entry page) := by
            rintro rfl
            exact hfresh.unmapped page hpresent hframe
          rw [hupdate, update_of_ne hne]
          exact hfresh.count frame hframe
        · rw [hupdate]
          exact hfresh.count frame hframe
      · rw [Mm.shmDrop, if_neg hpresent, swapFree_memMap]
        exact hfresh.count frame hframe
    · intro q
      rw [hentry q]
      exact hfresh.unmapped q
  | allocate value missing frame rest memory =>
    have hmem : frame ∈ fresh := hfresh.memory frame (by rw [memory]; exact mem_cons_self)
    refine ⟨⟨?_, ?_, (Mm.Falls.refl fresh mm).slot⟩, ?_, ?_, ?_⟩
    · intro other hother
      have hne : other ≠ frame := fun heq => hother (heq ▸ hmem)
      unfold Mm.setTable
      dsimp only
      rw [update_of_ne hne]
      exact UInt16.le_refl _
    · intro other hother
      unfold Mm.setTable
      dsimp only
      by_cases heq : other = frame
      · rw [heq, update_self]
        exact hfresh.count frame hmem
      · rw [update_of_ne heq]
        exact UInt16.le_refl _
    · intro other hother
      exact hfresh.memory other (by rw [memory]; exact mem_cons_of_mem _ hother)
    · intro other hother
      unfold Mm.setTable
      dsimp only
      by_cases heq : other = frame
      · rw [heq, update_self]
        exact UInt16.le_refl _
      · rw [update_of_ne heq]
        exact hfresh.count other hother
    · intro q
      rw [hentry q]
      exact hfresh.unmapped q

theorem checkPages_falls {fresh : List ℕ} (remap : Bool) (pages : List ℕ) {mm : Mm}
    (hfresh : mm.Fresh fresh) :
    mm.Falls fresh (mm.checkPages remap pages).1 ∧ (mm.checkPages remap pages).1.Fresh fresh :=
  checkPages_rule (R := fun mm mm' => mm.Fresh fresh → mm.Falls fresh mm' ∧ mm'.Fresh fresh)
    (fun mm h => ⟨Mm.Falls.refl fresh mm, h⟩)
    (fun h h' hfresh => ⟨(h hfresh).1.trans (h' (h hfresh).2).1, (h' (h hfresh).2).2⟩) pages
    (fun _ _ _ _ h hfresh => Mm.PageChecked.falls h hfresh) mm hfresh

/-! ## Clean errors -/

/-- The first loop fails at `page`, whatever has happened before: nothing is remapped and
the page is mapped, or its page table is missing and there is no memory. -/
def Mm.StopsAt (mm : Mm) (remap : Bool) (page : ℕ) : Prop :=
  remap = false ∧ mm.entry page ≠ 0 ∨ (mm.dir (page / ptrsPerPage)).frame? = none ∧ mm.memory = []

def Mm.PassesOver (mm : Mm) (page : ℕ) : Prop :=
  (mm.dir (page / ptrsPerPage)).frame? ≠ none ∧ ¬mm.Counted (mm.entry page)

def Mm.StopsClean (mm : Mm) (remap : Bool) : List ℕ → Prop
  | [] => False
  | page :: pages =>
    mm.StopsAt remap page ∨ (mm.PassesOver page ∧ mm.StopsClean remap pages)

theorem shmDrop_highMemory (mm : Mm) (page : UInt32) :
    (mm.shmDrop page).highMemory = mm.highMemory := by
  unfold Mm.shmDrop
  split
  · unfold Mm.freePage
    split
    · split
      · split <;> rfl
      · rfl
    · rfl
  · unfold Mm.swapFree
    split
    · rfl
    · split
      · rfl
      · split
        · rfl
        · split <;> rfl

theorem stopsClean_shmDrop {mm : Mm} {page : UInt32} (hsame : mm.SameCounts (mm.shmDrop page))
    (remap : Bool) (pages : List ℕ) :
    (mm.shmDrop page).StopsClean remap pages ↔ mm.StopsClean remap pages := by
  induction pages with
  | nil => rfl
  | cons q pages ih =>
    unfold Mm.StopsClean
    rw [ih]
    unfold Mm.StopsAt Mm.PassesOver Mm.Counted Mm.entry
    rw [shmDrop_dir, shmDrop_memory, shmDrop_highMemory, hsame.1, hsame.2]

theorem checkPages_sameCounts_iff {fresh : List ℕ} (remap : Bool) (pages : List ℕ) {mm : Mm}
    (hfresh : mm.Fresh fresh) (hfree : ∀ frame ∈ mm.memory, mm.memMap frame = 0) :
    ((mm.checkPages remap pages).2 ≠ 0 ∧ mm.SameCounts (mm.checkPages remap pages).1) ↔
      mm.StopsClean remap pages := by
  induction pages generalizing mm with
  | nil => exact iff_of_false (fun h => h.1 rfl) id
  | cons page pages ih =>
    have hcase := checkPage_cases remap mm page
    generalize hcheck : mm.checkPage remap page = r at hcase
    have hpage := Mm.PageChecked.falls hcase hfresh
    have hrest := checkPages_falls remap pages hpage.2
    unfold Mm.StopsClean
    cases hcase with
    | clear frame ptes table zero =>
      have hpasses : mm.PassesOver page := by
        unfold Mm.PassesOver Mm.Counted
        rw [table, zero]
        exact ⟨Option.some_ne_none frame, by simp [present]⟩
      have hgoes : ¬mm.StopsAt remap page := by
        unfold Mm.StopsAt
        rw [table, zero]
        simp [DirEntry.frame?]
      rw [checkPages_cons_ok hcheck, ih hfresh hfree]
      tauto
    | mapped frame ptes table nonzero stays =>
      rw [checkPages_cons_error hcheck (by decide)]
      exact iff_of_true ⟨by simp [einval], rfl, rfl⟩ (.inl (.inl ⟨stays, nonzero⟩))
    | drop frame ptes table nonzero goes =>
      have hgoes : ¬mm.StopsAt remap page := by
        unfold Mm.StopsAt
        rw [table]
        simp [goes, DirEntry.frame?]
      rw [checkPages_cons_ok hcheck]
      by_cases hcounted : mm.Counted (mm.entry page)
      · refine iff_of_false (fun h => ?_) (fun h => ?_)
        · exact shmDrop_sameCounts_iff.mp (hpage.1.sameCounts hrest.1 h.2) hcounted
        · exact h.elim hgoes fun h => h.1.2 hcounted
      · have hsame := shmDrop_sameCounts_iff.mpr hcounted
        have hpasses : mm.PassesOver page := by
          refine ⟨?_, hcounted⟩
          rw [table]
          exact Option.some_ne_none frame
        have hiff := ih hpage.2 (by
          rw [shmDrop_memory, hsame.1]
          exact hfree)
        rw [stopsClean_shmDrop hsame] at hiff
        unfold Mm.SameCounts at hiff ⊢
        rw [hsame.1, hsame.2] at hiff
        tauto
    | noMemory value missing empty =>
      rw [checkPages_cons_error hcheck (by decide)]
      refine iff_of_true ⟨by simp [enomem], rfl, rfl⟩ (.inl (.inr ⟨?_, empty⟩))
      rw [missing]
      rfl
    | allocate value missing frame rest memory =>
      rw [checkPages_cons_ok hcheck]
      refine iff_of_false (fun h => ?_) (fun h => ?_)
      · have hsame := hpage.1.sameCounts hrest.1 h.2
        have hframe := congrFun hsame.1 frame
        unfold Mm.setTable at hframe
        dsimp only at hframe
        rw [update_self, hfree frame (by rw [memory]; exact mem_cons_self)]
          at hframe
        exact absurd hframe (by decide)
      · have hzero : mm.entry page = 0 := entryOf_absent missing
        unfold Mm.StopsAt Mm.PassesOver at h
        rw [missing, memory, hzero] at h
        simp [DirEntry.frame?] at h

theorem stopsClean_range (mm : Mm) (remap : Bool) (lo n : ℕ) :
    mm.StopsClean remap (List.range' lo n) ↔
      ∃ page, InRange lo n page ∧ mm.StopsAt remap page ∧
        ∀ q, lo ≤ q → q < page → mm.PassesOver q := by
  induction n generalizing lo with
  | zero =>
    refine iff_of_false id ?_
    rintro ⟨page, ⟨hle, hlt⟩, -⟩
    omega
  | succ n ih =>
    rw [List.range'_succ, Mm.StopsClean, ih]
    constructor
    · rintro (hstops | ⟨hpasses, page, ⟨hle, hlt⟩, hstops, hbefore⟩)
      · exact ⟨lo, ⟨le_rfl, by omega⟩, hstops, fun q hq hq' => by omega⟩
      · refine ⟨page, ⟨by omega, by omega⟩, hstops, fun q hq hq' => ?_⟩
        rcases Nat.eq_or_lt_of_le hq with rfl | hq
        · exact hpasses
        · exact hbefore q hq hq'
    · rintro ⟨page, ⟨hle, hlt⟩, hstops, hbefore⟩
      rcases Nat.eq_or_lt_of_le hle with rfl | hle
      · exact .inl hstops
      · exact .inr ⟨hbefore lo le_rfl hle, page, ⟨hle, by omega⟩, hstops,
          fun q hq hq' => hbefore q (by omega) hq'⟩

/-- `n` pages from `lo` on hold the signatures from `shmSgn` on, and nothing else has
changed. -/
structure Mm.Attached (mm mm' : Mm) (lo n : ℕ) (shmSgn : UInt32) : Prop where
  sign : ∀ k < n, mm'.entry (lo + k) = shmSgn + UInt32.ofNat k * shmIdxStep
  entry : ∀ page, ¬InRange lo n page → mm'.entry page = mm.entry page
  dir : ∀ j, (∀ page, InRange lo n page → j ≠ page / ptrsPerPage) → mm'.dir j = mm.dir j

theorem setTable_entry {mm : Mm} {page frame : ℕ} {ptes : ℕ → UInt32}
    (h : mm.dir (page / ptrsPerPage) = .table frame ptes) (entry : UInt32) (q : ℕ) :
    (mm.setTable (page / ptrsPerPage) frame
      (update ptes (page % ptrsPerPage) entry)).entry q =
      if q = page then entry else mm.entry q := by
  unfold Mm.setTable Mm.entry
  by_cases hq : q / ptrsPerPage = page / ptrsPerPage
  · rw [entryOf_update_table hq, entryOf_table (hq ▸ h)]
    by_cases heq : q = page
    · rw [if_pos heq, heq, update_self]
    · have hmod : q % ptrsPerPage ≠ page % ptrsPerPage := by
        intro hmod
        apply heq
        rw [← Nat.div_add_mod q ptrsPerPage, hq, hmod, Nat.div_add_mod]
      rw [if_neg heq, update_of_ne hmod]
  · have heq : q ≠ page := fun heq => hq (by rw [heq])
    rw [entryOf_update_of_ne hq, if_neg heq]

theorem shmSign_spec {stop : UInt32} {last : ℕ} (hstop : stop.toNat = 4096 * last)
    (hlast : last ≤ 1047552) (fuel : ℕ) (mm : Mm) (tmp shmSgn : UInt32) (page : ℕ)
    (htmp : tmp.toNat = 4096 * page) (hfuel : last - page ≤ fuel)
    (htables : ∀ q, page ≤ q → q < last →
      ∃ frame ptes, mm.dir (q / ptrsPerPage) = .table frame ptes) :
    ∃ mm', mm.shmSign stop fuel tmp shmSgn = some mm' ∧
      mm.Attached mm' page (last - page) shmSgn := by
  induction fuel generalizing mm tmp shmSgn page with
  | zero =>
    rw [show last - page = 0 by omega]
    exact ⟨mm, rfl, fun k hk => absurd hk (Nat.not_lt_zero k), fun _ _ => rfl, fun _ _ => rfl⟩
  | succ fuel ih =>
    have hlt : tmp < stop ↔ page < last := by
      rw [UInt32.lt_iff_toNat_lt, htmp, hstop]
      omega
    unfold Mm.shmSign
    by_cases hpage : page < last
    · have hdirIndex : dirIndex tmp = page / ptrsPerPage := by
        rw [dirIndex_eq, htmp]
        unfold pageSize
        rw [Nat.mul_div_cancel_left _ (by norm_num)]
      have htableIndex : tableIndex tmp = page % ptrsPerPage := by
        rw [tableIndex_eq, htmp]
        unfold pageSize
        rw [Nat.mul_div_cancel_left _ (by norm_num)]
      obtain ⟨frame, ptes, hdir⟩ := htables page le_rfl hpage
      rw [if_pos (hlt.mpr hpage), hdirIndex, htableIndex, hdir]
      dsimp only
      obtain ⟨mm1, hmm1⟩ : ∃ mm1, mm1 = mm.setTable (page / ptrsPerPage) frame
        (update ptes (page % ptrsPerPage) shmSgn) := ⟨_, rfl⟩
      have hentry : ∀ q, mm1.entry q = if q = page then shmSgn else mm.entry q := by
        rw [hmm1]
        exact setTable_entry hdir shmSgn
      have hdir1 : ∀ j, j ≠ page / ptrsPerPage → mm1.dir j = mm.dir j := by
        intro j hj
        rw [hmm1]
        exact update_of_ne hj _ _
      have htable1 : mm1.dir (page / ptrsPerPage) =
          .table frame (update ptes (page % ptrsPerPage) shmSgn) := by
        rw [hmm1]
        exact update_self ..
      rw [← hmm1]
      obtain ⟨mm', hresult, hattached⟩ := ih mm1 (tmp + 4096) (shmSgn + shmIdxStep) (page + 1)
        (toNat_nextPage htmp (by omega)) (by omega) (by
          intro q hq hq'
          by_cases hj : q / ptrsPerPage = page / ptrsPerPage
          · rw [hj]
            exact ⟨_, _, htable1⟩
          · rw [hdir1 _ hj]
            exact htables q (by omega) hq')
      refine ⟨mm', hresult, ?_, ?_, ?_⟩
      · intro k hk
        cases k with
        | zero =>
          have hout : ¬InRange (page + 1) (last - (page + 1)) (page + 0) := by
            unfold InRange
            omega
          rw [hattached.entry _ hout, hentry, if_pos (Nat.add_zero page)]
          simp
        | succ k =>
          have hsign := hattached.sign k (by omega)
          rw [show page + 1 + k = page + (k + 1) by omega] at hsign
          rw [hsign, UInt32.ofNat_add, UInt32.add_mul, UInt32.add_assoc, UInt32.add_comm shmIdxStep]
          rfl
      · intro q hq
        have hout : ¬InRange (page + 1) (last - (page + 1)) q := by
          unfold InRange at *
          omega
        have hne : q ≠ page := by
          rintro rfl
          exact hq ⟨le_rfl, by omega⟩
        rw [hattached.entry q hout, hentry, if_neg hne]
      · intro j hj
        have hne := hj page ⟨le_rfl, by omega⟩
        rw [hattached.dir j, hdir1 j hne]
        intro q hq
        refine hj q ?_
        unfold InRange at *
        omega
    · rw [if_neg (hlt.not.mpr hpage), show last - page = 0 by omega]
      exact ⟨mm, rfl, fun k hk => absurd hk (Nat.not_lt_zero k), fun _ _ => rfl, fun _ _ => rfl⟩

/-! ## `shm_map` -/

/-- `shm_map` has done nothing to `n` pages from `lo` on, nor to a count. -/
def Mm.NotAttached (mm mm' : Mm) (lo n : ℕ) : Prop :=
  (∀ page, InRange lo n page → mm'.entry page = mm.entry page) ∧ mm.SameCounts mm'

/-- Nothing is mapped in the range, unless it is remapped, and there is memory for the
page tables that it lacks. -/
def Mm.CanAttach (mm : Mm) (remap : Bool) (lo n : ℕ) : Prop :=
  (remap = true ∨ ∀ page, InRange lo n page → mm.entry page = 0) ∧
    (missingTables mm.dir (List.range' lo n)).card ≤ mm.memory.length

/-- The pages of the free memory have the count 0, and no entry maps them. -/
structure Mm.MemoryFree (mm : Mm) : Prop where
  count : ∀ frame ∈ mm.memory, mm.memMap frame = 0
  unmapped : ∀ page, present (mm.entry page) → mapNr (mm.entry page) ∉ mm.memory

theorem Mm.MemoryFree.fresh {mm : Mm} (h : mm.MemoryFree) : mm.Fresh mm.memory where
  memory _ hframe := hframe
  count frame hframe := by
    rw [h.count frame hframe]
    decide
  unmapped := h.unmapped

theorem mem_range'_iff_inRange {lo n page : ℕ} : page ∈ List.range' lo n ↔ InRange lo n page :=
  mem_range'_1

theorem shmMap_spec (mm : Mm) {start stop : UInt32} {n : ℕ} (shmSgn : UInt32) (remap : Bool)
    (hstart : start.toNat % pageSize = 0) (hstop : stop.toNat = start.toNat + pageSize * n)
    (hwrap : stop.toNat ≤ 0xffc00000) :
    ∃ r, mm.shmMap start stop shmSgn remap = some r ∧
      (r.2 = 0 ↔ mm.CanAttach remap (start.toNat / pageSize) n) ∧
      (r.2 = 0 → mm.Attached r.1 (start.toNat / pageSize) n shmSgn) ∧
      (r.2 ≠ 0 → r = mm.checkPages remap (List.range' (start.toNat / pageSize) n)) := by
  obtain ⟨lo, hlo⟩ : ∃ lo, lo = start.toNat / pageSize := ⟨_, rfl⟩
  have hstart' : start.toNat = 4096 * lo := by
    unfold pageSize at *
    omega
  have hstop' : stop.toNat = 4096 * (lo + n) := by
    unfold pageSize at hstop
    omega
  have hlast : lo + n ≤ 1047552 := by omega
  have hpages : rangePages start stop = n := by
    unfold rangePages pageSize
    omega
  have hcheck := shmCheck_eq remap hstop' hlast n mm start lo hstart' (by omega)
  rw [Nat.add_sub_cancel_left] at hcheck
  have hzero := checkPages_eq_zero_iff remap (List.range' lo n) mm
  simp only [mem_range'_iff_inRange] at hzero
  rw [← hlo]
  unfold Mm.shmMap
  rw [hpages, hcheck]
  by_cases herr : (mm.checkPages remap (List.range' lo n)).2 = 0
  · obtain ⟨mm', hsign, hattached⟩ := shmSign_spec hstop' hlast n
      (mm.checkPages remap (List.range' lo n)).1 start shmSgn lo hstart' (by omega)
      (fun q hq hq' => checkPages_tables remap _ mm herr q (mem_range'_1.mpr ⟨hq, hq'⟩))
    rw [Nat.add_sub_cancel_left] at hattached
    rw [if_neg (not_not.mpr herr), hsign]
    refine ⟨(mm', 0), rfl, iff_of_true rfl (hzero.mp herr), fun _ => ?_, fun h => absurd rfl h⟩
    refine ⟨hattached.sign, fun page hpage => ?_, fun j hj => ?_⟩
    · rw [hattached.entry page hpage, checkPages_entry]
    · rw [hattached.dir j hj]
      exact checkPages_dir_of_ne remap _ mm fun page hpage =>
        hj page (mem_range'_iff_inRange.mp hpage)
  · rw [if_pos herr]
    exact ⟨_, rfl, iff_of_false herr (hzero.not.mp herr), fun h => absurd h herr, fun _ => rfl⟩

def mappedBoundary : Mm where
  dir := fun j =>
    if j = 0 then .table 5 fun k => if k = 1023 then 0x7001 else 0 else .absent 0
  memMap := fun frame => if frame = 5 ∨ frame = 7 then 1 else 0
  highMemory := 0x1000000
  swapMap := fun _ _ => none
  rss := 1
  memory := []

end LinuxKernel.Paging
