import LinuxKernel.PageRangeModel

/-!
# Range operations touch their range

The loops of `unmap_page_range`, `zeromap_page_range` and `remap_page_range` go over
the entries of a first, partial page table, of whole tables and of a last one.  Put
together these are the pages of the range, each once.
-/

namespace LinuxKernel.Paging
open Function List

def InRange (lo n page : ℕ) : Prop := lo ≤ page ∧ page < lo + n

instance (lo n page : ℕ) : Decidable (InRange lo n page) := inferInstanceAs (Decidable (_ ∧ _))

def Spanned (lo n j : ℕ) : Prop := lo ≤ ptrsPerPage * j ∧ ptrsPerPage * (j + 1) ≤ lo + n

instance (lo n j : ℕ) : Decidable (Spanned lo n j) := inferInstanceAs (Decidable (_ ∧ _))

def DirEntry.frame? : DirEntry → Option ℕ
  | .absent _ => none
  | .table frame _ => some frame

/-! ## Releases -/

def entriesOf (rs : List Release) : List UInt32 :=
  rs.filterMap fun r =>
    match r with
    | .entry page => some page
    | .table _ => none

def tablesOf (rs : List Release) : List ℕ :=
  rs.filterMap fun r =>
    match r with
    | .entry _ => none
    | .table frame => some frame

theorem entriesOf_append (rs rs' : List Release) :
    entriesOf (rs ++ rs') = entriesOf rs ++ entriesOf rs' :=
  filterMap_append

theorem tablesOf_append (rs rs' : List Release) :
    tablesOf (rs ++ rs') = tablesOf rs ++ tablesOf rs' :=
  filterMap_append

theorem entriesOf_map (pages : List UInt32) : entriesOf (pages.map Release.entry) = pages := by
  induction pages with
  | nil => rfl
  | cons page pages ih =>
    change page :: entriesOf (pages.map Release.entry) = page :: pages
    rw [ih]

theorem tablesOf_map (pages : List UInt32) : tablesOf (pages.map Release.entry) = [] := by
  induction pages with
  | nil => rfl
  | cons page pages ih => exact ih

section
variable (mm : Mm) (dir : ℕ → DirEntry)

theorem freePage_setDir (frame : ℕ) :
    { mm with dir := dir }.freePage frame = { mm.freePage frame with dir := dir } := by
  unfold Mm.freePage
  split
  · split
    · split <;> rfl
    · rfl
  · rfl

theorem swapFree_setDir (entry : UInt32) :
    { mm with dir := dir }.swapFree entry = { mm.swapFree entry with dir := dir } := by
  unfold Mm.swapFree
  dsimp only
  split
  · rfl
  · split
    · rfl
    · split
      · rfl
      · split <;> rfl

theorem dropEntry_setDir (page : UInt32) :
    { mm with dir := dir }.dropEntry page = { mm.dropEntry page with dir := dir } := by
  unfold Mm.dropEntry
  dsimp only
  split
  · split
    · split
      · exact freePage_setDir { mm with rss := mm.rss - 1 } dir _
      · exact freePage_setDir mm dir _
    · exact freePage_setDir mm dir _
  · exact swapFree_setDir mm dir page

theorem releases_append (mm : Mm) (rs rs' : List Release) :
    mm.releases (rs ++ rs') = (mm.releases rs).releases rs' :=
  foldl_append

theorem releases_setDir (rs : List Release) :
    { mm with dir := dir }.releases rs = { mm.releases rs with dir := dir } := by
  induction rs generalizing mm with
  | nil => rfl
  | cons r rs ih =>
    cases r with
    | entry page =>
      change ({ mm with dir := dir }.dropEntry page).releases rs = _
      rw [dropEntry_setDir]
      exact ih (mm.dropEntry page)
    | table frame =>
      change ({ mm with dir := dir }.freePage frame).releases rs = _
      rw [freePage_setDir]
      exact ih (mm.freePage frame)

end

theorem releases_dir (mm : Mm) (rs : List Release) : (mm.releases rs).dir = mm.dir := by
  have h := releases_setDir mm mm.dir rs
  rw [h]

def liveEntries (ptes : ℕ → UInt32) (k n : ℕ) : List UInt32 :=
  ((List.range' k n).map ptes).filter (· ≠ 0)

theorem cleared_succ (ptes : ℕ → UInt32) (k n : ℕ) :
    (fun j => if InRange (k + 1) n j then 0 else update ptes k 0 j) =
      fun j => if InRange k (n + 1) j then 0 else ptes j := by
  funext j
  have hiff : InRange k (n + 1) j ↔ j = k ∨ InRange (k + 1) n j := by
    unfold InRange
    omega
  by_cases hj : j = k
  · rw [if_pos (hiff.mpr (.inl hj)), hj, update_self, ite_self]
  · rw [update_of_ne hj]
    simp only [hiff, hj, false_or]

theorem clearEntries_eq (ptes : ℕ → UInt32) {k n : ℕ} (hfit : k + n ≤ ptrsPerPage) :
    clearEntries ptes k n =
      some (fun j => if InRange k n j then 0 else ptes j,
        (liveEntries ptes k n).map Release.entry) := by
  induction n generalizing ptes k with
  | zero =>
    unfold clearEntries
    have hnone : ∀ j, ¬InRange k 0 j := by
      unfold InRange
      intro j
      omega
    simp [hnone, liveEntries]
  | succ n ih =>
    have hlive : liveEntries ptes k (n + 1) =
        if ptes k ≠ 0 then ptes k :: liveEntries ptes (k + 1) n
        else liveEntries ptes (k + 1) n := by
      unfold liveEntries
      rw [List.range'_succ, map_cons, filter_cons]
      simp only [decide_eq_true_eq]
    unfold clearEntries
    rw [if_neg (by omega), hlive]
    by_cases hzero : ptes k = 0
    · rw [if_neg (not_not.mpr hzero), if_neg (not_not.mpr hzero), ih ptes (by omega)]
      have hcleared := cleared_succ ptes k n
      rw [← hzero, update_eq_self, hzero] at hcleared
      rw [hcleared]
    · rw [if_pos hzero, if_pos hzero, ih _ (by omega), Option.map_some, cleared_succ]
      have hsame : liveEntries (update ptes k 0) (k + 1) n = liveEntries ptes (k + 1) n := by
        unfold liveEntries
        congr 1
        apply map_congr_left
        intro j hj
        rw [mem_range'_1] at hj
        exact update_of_ne (by omega) ..
      rw [hsame]
      rfl

/-! ## `unmap_page_range` -/

def clearedDir (dir : ℕ → DirEntry) (lo n j : ℕ) : DirEntry :=
  match dir j with
  | .absent value => .absent value
  | .table frame ptes =>
    if Spanned lo n j then .absent 0
    else .table frame fun k =>
      if k < ptrsPerPage ∧ InRange lo n (ptrsPerPage * j + k) then 0 else ptes k

def rangeEntries (dir : ℕ → DirEntry) (lo n : ℕ) : List UInt32 :=
  ((List.range' lo n).map (entryOf dir)).filter (· ≠ 0)

def spannedTables (dir : ℕ → DirEntry) (lo n : ℕ) (js : List ℕ) : List ℕ :=
  js.filterMap fun j => if Spanned lo n j then (dir j).frame? else none

section Step

variable {dir : ℕ → DirEntry} {i poff pcnt size : ℕ}

theorem rangeEntries_first {frame : ℕ} {ptes : ℕ → UInt32} (hdir : dir i = .table frame ptes)
    (hfit : poff + pcnt ≤ ptrsPerPage) :
    rangeEntries dir (ptrsPerPage * i + poff) pcnt = liveEntries ptes poff pcnt := by
  unfold rangeEntries liveEntries
  congr 1
  rw [← map_add_range' (a := ptrsPerPage * i) poff pcnt 1, map_map]
  apply map_congr_left
  intro k hk
  rw [mem_range'_1] at hk
  have hdiv : (ptrsPerPage * i + k) / ptrsPerPage = i := by
    unfold ptrsPerPage at hfit ⊢
    omega
  have hmod : (ptrsPerPage * i + k) % ptrsPerPage = k := by
    unfold ptrsPerPage at hfit ⊢
    omega
  change entryOf dir (ptrsPerPage * i + k) = ptes k
  rw [← hdiv] at hdir
  rw [entryOf_table hdir, hmod]

theorem rangeEntries_absent {value : UInt32} (hdir : dir i = .absent value)
    (hfit : poff + pcnt ≤ ptrsPerPage) :
    rangeEntries dir (ptrsPerPage * i + poff) pcnt = [] := by
  unfold rangeEntries
  rw [filter_eq_nil_iff]
  intro entry hentry
  obtain ⟨page, hpage, heq⟩ := mem_map.mp hentry
  rw [mem_range'_1] at hpage
  have hdiv : page / ptrsPerPage = i := by
    unfold ptrsPerPage at hfit hpage ⊢
    omega
  rw [← hdiv] at hdir
  rw [← heq, entryOf_absent hdir]
  simp

theorem rangeEntries_congr {dir' : ℕ → DirEntry} {lo n : ℕ}
    (h : ∀ page, InRange lo n page → entryOf dir' page = entryOf dir page) :
    rangeEntries dir' lo n = rangeEntries dir lo n := by
  unfold rangeEntries
  congr 1
  apply map_congr_left
  intro page hpage
  rw [mem_range'_1] at hpage
  exact h page hpage

theorem rangeEntries_split (lo : ℕ) (hle : pcnt ≤ size) :
    rangeEntries dir lo size =
      rangeEntries dir lo pcnt ++ rangeEntries dir (lo + pcnt) (size - pcnt) := by
  unfold rangeEntries
  rw [← filter_append, ← map_append, List.range'_append_1, Nat.add_sub_cancel' hle]

def TableCount (poff pcnt size : ℕ) : Prop :=
  poff < ptrsPerPage ∧ pcnt = if size < ptrsPerPage - poff then size else ptrsPerPage - poff

theorem TableCount.cases (h : TableCount poff pcnt size) :
    (pcnt = size ∧ poff + pcnt < ptrsPerPage) ∨
      (poff + pcnt = ptrsPerPage ∧ pcnt ≤ size ∧ 0 < pcnt) := by
  obtain ⟨hpoff, hpcnt⟩ := h
  split at hpcnt
  · exact .inl ⟨hpcnt, by omega⟩
  · exact .inr ⟨by omega, by omega, by omega⟩

theorem TableCount.next (pcnt size : ℕ) :
    TableCount 0 (if ptrsPerPage < size - pcnt then ptrsPerPage else size - pcnt)
      (size - pcnt) := by
  unfold TableCount ptrsPerPage
  refine ⟨by omega, ?_⟩
  split <;> split <;> omega

theorem clearedDir_step (h : TableCount poff pcnt size) :
    clearedDir (update dir i (clearedDir dir (ptrsPerPage * i + poff) size i))
        (ptrsPerPage * (i + 1)) (size - pcnt) =
      clearedDir dir (ptrsPerPage * i + poff) size := by
  have hcases := h.cases
  funext j
  by_cases hj : j = i
  · rw [hj]
    generalize hX : clearedDir dir (ptrsPerPage * i + poff) size i = X
    unfold clearedDir
    rw [update_self]
    cases X with
    | absent value => rfl
    | table frame ptes =>
      dsimp only
      rw [if_neg (by unfold Spanned ptrsPerPage; omega)]
      congr 1
      funext k
      rw [if_neg]
      unfold InRange ptrsPerPage
      omega
  · unfold clearedDir
    rw [update_of_ne hj]
    cases dir j with
    | absent value => rfl
    | table frame ptes =>
      have hspanned : Spanned (ptrsPerPage * (i + 1)) (size - pcnt) j ↔
          Spanned (ptrsPerPage * i + poff) size j := by
        unfold Spanned ptrsPerPage at *
        omega
      have hrange : ∀ k, (k < ptrsPerPage ∧
          InRange (ptrsPerPage * (i + 1)) (size - pcnt) (ptrsPerPage * j + k)) ↔
          (k < ptrsPerPage ∧ InRange (ptrsPerPage * i + poff) size (ptrsPerPage * j + k)) := by
        intro k
        unfold InRange ptrsPerPage at *
        omega
      simp only [hspanned, hrange]

theorem spannedTables_step (h : TableCount poff pcnt size) (hi : i < 1024) (e : DirEntry) :
    spannedTables dir (ptrsPerPage * i + poff) size (List.range' i (1024 - i)) =
      (if pcnt = ptrsPerPage then (dir i).frame?.toList else []) ++
        spannedTables (update dir i e) (ptrsPerPage * (i + 1)) (size - pcnt)
          (List.range' (i + 1) (1024 - (i + 1))) := by
  have hcases := h.cases
  have hlist : List.range' i (1024 - i) = i :: List.range' (i + 1) (1024 - (i + 1)) := by
    rw [show 1024 - i = 1024 - (i + 1) + 1 by omega, List.range'_succ]
  rw [hlist]
  unfold spannedTables
  rw [filterMap_cons]
  have hrest : (List.range' (i + 1) (1024 - (i + 1))).filterMap (fun j =>
        if Spanned (ptrsPerPage * i + poff) size j then (dir j).frame? else none) =
      (List.range' (i + 1) (1024 - (i + 1))).filterMap (fun j =>
        if Spanned (ptrsPerPage * (i + 1)) (size - pcnt) j then
          (update dir i e j).frame? else none) := by
    apply filterMap_congr
    intro j hj
    rw [mem_range'_1] at hj
    rw [update_of_ne (by omega)]
    have hspanned : Spanned (ptrsPerPage * i + poff) size j ↔
        Spanned (ptrsPerPage * (i + 1)) (size - pcnt) j := by
      unfold Spanned ptrsPerPage at *
      omega
    simp only [hspanned]
  rw [hrest]
  have hfirst : Spanned (ptrsPerPage * i + poff) size i ↔ pcnt = ptrsPerPage := by
    unfold Spanned ptrsPerPage at *
    omega
  by_cases hfull : pcnt = ptrsPerPage
  · rw [if_pos (hfirst.mpr hfull), if_pos hfull]
    cases (dir i).frame? with
    | none => rfl
    | some frame => rfl
  · rw [if_neg (fun hs => hfull (hfirst.mp hs)), if_neg hfull]
    rfl

end Step

theorem unmapTables_zero (fuel : ℕ) (mm : Mm) (i poff pcnt : ℕ) :
    mm.unmapTables fuel i poff pcnt 0 = some mm := by
  cases fuel with
  | zero => rfl
  | succ fuel => rfl

/-- What the loop of `unmap_page_range` does from the directory entry `i` on. -/
structure Unmapped (mm : Mm) (i lo n : ℕ) (rs : List Release) (result : Option Mm) : Prop where
  result : result = some { mm.releases rs with dir := clearedDir mm.dir lo n }
  entries : entriesOf rs = rangeEntries mm.dir lo n
  tables : tablesOf rs = spannedTables mm.dir lo n (List.range' i (1024 - i))

theorem unmapped_nothing (mm : Mm) (i lo : ℕ) : Unmapped mm i lo 0 [] (some mm) := by
  have hspanned : ∀ j, ¬Spanned lo 0 j := by
    intro j
    unfold Spanned ptrsPerPage
    omega
  have hrange : ∀ page, ¬InRange lo 0 page := by
    intro page
    unfold InRange
    omega
  constructor
  · have hdir : clearedDir mm.dir lo 0 = mm.dir := by
      funext j
      unfold clearedDir
      cases mm.dir j with
      | absent value => rfl
      | table frame ptes =>
        dsimp only
        rw [if_neg (hspanned j)]
        simp [hrange]
    rw [hdir]
    rfl
  · rfl
  · symm
    change spannedTables mm.dir lo 0 (List.range' i (1024 - i)) = []
    unfold spannedTables
    rw [filterMap_eq_nil_iff]
    intro j _
    exact if_neg (hspanned j)

theorem Unmapped.step {mm : Mm} {i poff pcnt size : ℕ} (hcount : TableCount poff pcnt size)
    (hi : i < 1024) {first rs : List Release} {result : Option Mm}
    (hentries : entriesOf first = rangeEntries mm.dir (ptrsPerPage * i + poff) pcnt)
    (htables : tablesOf first = if pcnt = ptrsPerPage then (mm.dir i).frame?.toList else [])
    (hrest : Unmapped { mm.releases first with
        dir := update mm.dir i (clearedDir mm.dir (ptrsPerPage * i + poff) size i) }
      (i + 1) (ptrsPerPage * (i + 1)) (size - pcnt) rs result) :
    Unmapped mm i (ptrsPerPage * i + poff) size (first ++ rs) result := by
  have hcases := hcount.cases
  constructor
  · rw [hrest.result, releases_append, releases_setDir, clearedDir_step hcount]
  · rw [entriesOf_append, hentries, hrest.entries, rangeEntries_split _ (by omega : pcnt ≤ size)]
    congr 1
    rcases hcases with ⟨hall, _⟩ | ⟨hfull, _, _⟩
    · have hzero : size - pcnt = 0 := by omega
      rw [hzero]
      rfl
    · have hlo : ptrsPerPage * i + poff + pcnt = ptrsPerPage * (i + 1) := by
        rw [Nat.mul_add, Nat.add_assoc, hfull]
        omega
      rw [hlo]
      apply rangeEntries_congr
      intro page hpage
      apply entryOf_update_of_ne
      unfold InRange ptrsPerPage at hpage
      unfold ptrsPerPage
      omega
  · rw [tablesOf_append, htables, hrest.tables, ← spannedTables_step hcount hi]

theorem unmapTables_spec (fuel : ℕ) (mm : Mm) {i poff pcnt size : ℕ} (hfuel : size ≤ fuel)
    (hcount : TableCount poff pcnt size) (hfit : ptrsPerPage * i + poff + size ≤ 1048576)
    (hsound : poff = 0 ∨ pcnt = size ∨ ∀ value, mm.dir i = .absent value → value = 0) :
    ∃ rs, Unmapped mm i (ptrsPerPage * i + poff) size rs
      (mm.unmapTables fuel i poff pcnt size) := by
  induction fuel generalizing mm i poff pcnt size with
  | zero =>
    have hzero : size = 0 := by omega
    rw [hzero]
    exact ⟨[], unmapped_nothing mm i _⟩
  | succ fuel ih =>
    by_cases hzero : size = 0
    · rw [hzero]
      exact ⟨[], unmapped_nothing mm i _⟩
    · have hcases := hcount.cases
      have hi : i < 1024 := by
        unfold ptrsPerPage at hfit
        omega
      -- the rest of the range, from a directory in which this table is cleared
      have hrest : ∀ mm' : Mm, ∃ rs, Unmapped mm' (i + 1) (ptrsPerPage * (i + 1)) (size - pcnt) rs
          (mm'.unmapTables fuel (i + 1) 0
            (if ptrsPerPage < size - pcnt then ptrsPerPage else size - pcnt) (size - pcnt)) := by
        intro mm'
        rcases hcases with ⟨hall, _⟩ | ⟨hfull, hle, hpos⟩
        · have hnone : size - pcnt = 0 := by omega
          rw [hnone, unmapTables_zero]
          exact ⟨[], unmapped_nothing mm' _ _⟩
        · have hnext := ih mm' (by omega) (TableCount.next pcnt size)
            (i := i + 1) (by unfold ptrsPerPage at *; omega) (.inl rfl)
          exact hnext
      unfold Mm.unmapTables
      rw [if_neg hzero]
      cases hdir : mm.dir i with
      | absent value =>
        dsimp only
        have hpoff' : mm.unmapTables fuel (i + 1) (if value = 0 then 0 else poff)
              (if ptrsPerPage < size - pcnt then ptrsPerPage else size - pcnt) (size - pcnt) =
            mm.unmapTables fuel (i + 1) 0
              (if ptrsPerPage < size - pcnt then ptrsPerPage else size - pcnt)
              (size - pcnt) := by
          rcases hsound with hfirst | hall | hundamaged
          · rw [hfirst, ite_self]
          · have hnone : size - pcnt = 0 := by omega
            rw [hnone, unmapTables_zero, unmapTables_zero]
          · rw [hundamaged value hdir, if_pos rfl]
        rw [hpoff']
        have hsame : { mm.releases [] with
            dir := update mm.dir i
              (clearedDir mm.dir (ptrsPerPage * i + poff) size i) } = mm := by
          have hcleared : clearedDir mm.dir (ptrsPerPage * i + poff) size i = mm.dir i := by
            unfold clearedDir
            rw [hdir]
          rw [hcleared, update_eq_self]
          rfl
        obtain ⟨rs, hrs⟩ := hrest mm
        refine ⟨[] ++ rs, Unmapped.step hcount hi ?_ ?_ ?_⟩
        · exact (rangeEntries_absent hdir (by omega)).symm
        · rw [hdir]
          split <;> rfl
        · rw [hsame]
          exact hrs
      | table frame ptes =>
        dsimp only
        rw [clearEntries_eq ptes (by omega), Option.bind_some]
        have hspanned : Spanned (ptrsPerPage * i + poff) size i ↔ pcnt = ptrsPerPage := by
          unfold Spanned ptrsPerPage at *
          omega
        have hptes : (fun k => if InRange poff pcnt k then 0 else ptes k) = fun k =>
            if k < ptrsPerPage ∧
              InRange (ptrsPerPage * i + poff) size (ptrsPerPage * i + k) then 0 else ptes k := by
          funext k
          have hiff : InRange poff pcnt k ↔ k < ptrsPerPage ∧
              InRange (ptrsPerPage * i + poff) size (ptrsPerPage * i + k) := by
            unfold InRange
            omega
          simp only [hiff]
        rw [hptes]
        by_cases hfull : pcnt = ptrsPerPage
        · rw [if_pos hfull, releases_dir, freePage_setDir]
          obtain ⟨rs, hrs⟩ := hrest { (mm.releases
            ((liveEntries ptes poff pcnt).map Release.entry)).freePage frame with
            dir := update mm.dir i (.absent 0) }
          refine ⟨((liveEntries ptes poff pcnt).map Release.entry ++ [.table frame]) ++ rs,
            Unmapped.step hcount hi ?_ ?_ ?_⟩
          · rw [entriesOf_append, entriesOf_map, rangeEntries_first hdir (by omega)]
            exact append_nil _
          · rw [tablesOf_append, tablesOf_map, if_pos hfull, hdir]
            rfl
          · rw [releases_append]
            have hcleared : clearedDir mm.dir (ptrsPerPage * i + poff) size i = .absent 0 := by
              unfold clearedDir
              rw [hdir]
              exact if_pos (hspanned.mpr hfull)
            rw [hcleared]
            exact hrs
        · rw [if_neg hfull, releases_dir]
          obtain ⟨rs, hrs⟩ := hrest { mm.releases
            ((liveEntries ptes poff pcnt).map Release.entry) with
            dir := update mm.dir i
              (.table frame fun k => if k < ptrsPerPage ∧
                InRange (ptrsPerPage * i + poff) size (ptrsPerPage * i + k) then 0
                else ptes k) }
          refine ⟨(liveEntries ptes poff pcnt).map Release.entry ++ rs,
            Unmapped.step hcount hi ?_ ?_ ?_⟩
          · rw [entriesOf_map, rangeEntries_first hdir (by omega)]
          · rw [tablesOf_map, if_neg hfull]
          · have hcleared : clearedDir mm.dir (ptrsPerPage * i + poff) size i =
                .table frame fun k => if k < ptrsPerPage ∧
                  InRange (ptrsPerPage * i + poff) size (ptrsPerPage * i + k) then 0
                  else ptes k := by
              unfold clearedDir
              rw [hdir]
              exact if_neg fun hs => hfull (hspanned.mp hs)
            rw [hcleared]
            exact hrs

section Put

variable {put : Mm → UInt32 → Mm × UInt32} {W : UInt32 → UInt32 → Prop}

theorem putEntries_spec (hdir : ∀ mm to_, (put mm to_).1.dir = mm.dir)
    (hput : ∀ mm to_, W to_ (put mm to_).2) (n : ℕ) (mm : Mm) (ptes : ℕ → UInt32) (k : ℕ)
    (to_ : UInt32) :
    (mm.putEntries put n ptes k to_).1.dir = mm.dir ∧
      (∀ j, ¬InRange k n j → (mm.putEntries put n ptes k to_).2 j = ptes j) ∧
      ∀ t < n, W (to_ + 4096 * UInt32.ofNat t) ((mm.putEntries put n ptes k to_).2 (k + t)) := by
  induction n generalizing mm ptes k to_ with
  | zero => exact ⟨rfl, fun _ _ => rfl, fun t ht => absurd ht (by omega)⟩
  | succ n ih =>
    unfold Mm.putEntries
    generalize hmm1 : (if ptes k ≠ 0 then mm.dropEntry (ptes k) else mm) = mm1
    have hdir1 : mm1.dir = mm.dir := by
      rw [← hmm1]
      split
      · exact dropEntry_dir mm _
      · rfl
    obtain ⟨hdir', houtside, hinside⟩ :=
      ih (put mm1 to_).1 (update ptes k (put mm1 to_).2) (k + 1) (to_ + 4096)
    refine ⟨(hdir'.trans (hdir mm1 to_)).trans hdir1, ?_, ?_⟩
    · intro j hj
      unfold InRange at hj
      rw [houtside j (by unfold InRange; omega), update_of_ne (by omega)]
    · intro t ht
      cases t with
      | zero =>
        have hsame := houtside k (by unfold InRange; omega)
        simpa [hsame] using hput mm1 to_
      | succ t =>
        have h := hinside t (by omega)
        have haddr : to_ + 4096 + 4096 * UInt32.ofNat t = to_ + 4096 * UInt32.ofNat (t + 1) := by
          rw [UInt32.ofNat_add, UInt32.add_assoc]
          congr 1
          rw [UInt32.mul_add, UInt32.add_comm]
          rfl
        rw [haddr, Nat.add_assoc, Nat.add_comm 1 t] at h
        exact h

/-- The entries of `m` pages from `lo` on are written, all others are what they were,
and page tables stay where they are. -/
structure Written (W : UInt32 → UInt32 → Prop) (dir dir' : ℕ → DirEntry) (lo m : ℕ)
    (to_ : UInt32) : Prop where
  inside : ∀ t < m, W (to_ + 4096 * UInt32.ofNat t) (entryOf dir' (lo + t))
  outside : ∀ page, ¬InRange lo m page → entryOf dir' page = entryOf dir page
  table : ∀ j frame, (dir j).frame? = some frame → (dir' j).frame? = some frame

theorem Written.nothing (dir : ℕ → DirEntry) (lo : ℕ) (to_ : UInt32) : Written W dir dir lo 0 to_ :=
  ⟨fun t ht => absurd ht (by omega), fun _ _ => rfl, fun _ _ h => h⟩

theorem Written.step {dir dir' : ℕ → DirEntry} {i poff pcnt m frame : ℕ} {to_ : UInt32}
    {ptes ptes' : ℕ → UInt32}
    (hold : dir i = .table frame ptes ∨ ∃ value, dir i = .absent value ∧ ptes = fun _ => 0)
    (hfit : poff + pcnt ≤ ptrsPerPage) (hrest : m = 0 ∨ poff + pcnt = ptrsPerPage)
    (houtside : ∀ j, ¬InRange poff pcnt j → ptes' j = ptes j)
    (hinside : ∀ t < pcnt, W (to_ + 4096 * UInt32.ofNat t) (ptes' (poff + t)))
    (h : Written W (update dir i (.table frame ptes')) dir' (ptrsPerPage * (i + 1)) m
      (to_ + 4096 * UInt32.ofNat pcnt)) :
    Written W dir dir' (ptrsPerPage * i + poff) (pcnt + m) to_ := by
  have hread : ∀ page, page / ptrsPerPage = i → entryOf dir page = ptes (page % ptrsPerPage) := by
    intro page hpage
    rw [← hpage] at hold
    rcases hold with htable | ⟨value, habsent, hptes⟩
    · exact entryOf_table htable
    · rw [entryOf_absent habsent, hptes]
  constructor
  · intro t ht
    by_cases hfirst : t < pcnt
    · have hdiv : (ptrsPerPage * i + poff + t) / ptrsPerPage = i := by
        unfold ptrsPerPage at *
        omega
      have hmod : (ptrsPerPage * i + poff + t) % ptrsPerPage = poff + t := by
        unfold ptrsPerPage at *
        omega
      have hkeep := h.outside (ptrsPerPage * i + poff + t) (by
        unfold InRange ptrsPerPage at *
        omega)
      rw [hkeep, entryOf_update_table hdiv, hmod]
      exact hinside t hfirst
    · have hlater := h.inside (t - pcnt) (by omega)
      have hpage : ptrsPerPage * (i + 1) + (t - pcnt) = ptrsPerPage * i + poff + t := by
        unfold ptrsPerPage at *
        omega
      have haddr : to_ + 4096 * UInt32.ofNat pcnt + 4096 * UInt32.ofNat (t - pcnt) =
          to_ + 4096 * UInt32.ofNat t := by
        rw [UInt32.add_assoc, ← UInt32.mul_add, ← UInt32.ofNat_add]
        congr 3
        omega
      rw [hpage, haddr] at hlater
      exact hlater
  · intro page hpage
    have hnot : ¬InRange (ptrsPerPage * (i + 1)) m page := by
      unfold InRange ptrsPerPage at *
      omega
    rw [h.outside page hnot]
    by_cases hdiv : page / ptrsPerPage = i
    · rw [entryOf_update_table hdiv, hread page hdiv]
      apply houtside
      unfold InRange ptrsPerPage at *
      omega
    · exact entryOf_update_of_ne hdiv _
  · intro j frame' hj
    apply h.table
    by_cases hji : j = i
    · rw [hji] at hj ⊢
      rw [update_self]
      rcases hold with htable | ⟨value, habsent, _⟩
      · rw [htable] at hj
        exact hj
      · rw [habsent] at hj
        simp [DirEntry.frame?] at hj
    · rw [update_of_ne hji]
      exact hj

theorem putTables_spec (hdir : ∀ mm to_, (put mm to_).1.dir = mm.dir)
    (hput : ∀ mm to_, W to_ (put mm to_).2) (err : ℤ) (fuel : ℕ) (mm : Mm)
    {i poff pcnt size : ℕ} (to_ : UInt32) (hfuel : size ≤ fuel)
    (hcount : TableCount poff pcnt size) :
    ∃ m ≤ size,
      Written W mm.dir (mm.putTables put err fuel i poff pcnt size to_).1.dir
        (ptrsPerPage * i + poff) m to_ ∧
      ((mm.putTables put err fuel i poff pcnt size to_).2 = 0 ∧ m = size ∨
        (mm.putTables put err fuel i poff pcnt size to_).2 = err ∧ m < size) := by
  induction fuel generalizing mm i poff pcnt size to_ with
  | zero =>
    have hzero : size = 0 := by omega
    rw [hzero]
    exact ⟨0, le_rfl, Written.nothing _ _ _, .inl ⟨rfl, rfl⟩⟩
  | succ fuel ih =>
    by_cases hzero : size = 0
    · rw [hzero]
      exact ⟨0, le_rfl, Written.nothing _ _ _, .inl ⟨rfl, rfl⟩⟩
    · have hcases := hcount.cases
      -- one page table, and the rest
      have hturn : ∀ (mm1 : Mm) (frame : ℕ) (ptes : ℕ → UInt32), mm1.dir = mm.dir →
          (mm.dir i = .table frame ptes ∨ ∃ value, mm.dir i = .absent value ∧ ptes = fun _ => 0) →
          ∃ m ≤ size,
            Written W mm.dir
              ({ (mm1.putEntries put pcnt ptes poff to_).1 with
                dir := update (mm1.putEntries put pcnt ptes poff to_).1.dir i
                  (.table frame (mm1.putEntries put pcnt ptes poff to_).2) }.putTables put err
                fuel (i + 1) 0
                (if ptrsPerPage < size - pcnt then ptrsPerPage else size - pcnt) (size - pcnt)
                (to_ + 4096 * UInt32.ofNat pcnt)).1.dir
              (ptrsPerPage * i + poff) m to_ ∧
            (({ (mm1.putEntries put pcnt ptes poff to_).1 with
                dir := update (mm1.putEntries put pcnt ptes poff to_).1.dir i
                  (.table frame (mm1.putEntries put pcnt ptes poff to_).2) }.putTables put err
                fuel (i + 1) 0
                (if ptrsPerPage < size - pcnt then ptrsPerPage else size - pcnt) (size - pcnt)
                (to_ + 4096 * UInt32.ofNat pcnt)).2 = 0 ∧ m = size ∨
              ({ (mm1.putEntries put pcnt ptes poff to_).1 with
                dir := update (mm1.putEntries put pcnt ptes poff to_).1.dir i
                  (.table frame (mm1.putEntries put pcnt ptes poff to_).2) }.putTables put err
                fuel (i + 1) 0
                (if ptrsPerPage < size - pcnt then ptrsPerPage else size - pcnt) (size - pcnt)
                (to_ + 4096 * UInt32.ofNat pcnt)).2 = err ∧ m < size) := by
        intro mm1 frame ptes hmm1 hold
        obtain ⟨hdir', houtside, hinside⟩ := putEntries_spec hdir hput pcnt mm1 ptes poff to_
        rw [hdir', hmm1]
        obtain ⟨m, hm, hwritten, hresult⟩ := ih
          { (mm1.putEntries put pcnt ptes poff to_).1 with
            dir := update mm.dir i
              (.table frame (mm1.putEntries put pcnt ptes poff to_).2) }
          (i := i + 1) (to_ + 4096 * UInt32.ofNat pcnt) (by omega) (TableCount.next pcnt size)
        refine ⟨pcnt + m, by omega, ?_, ?_⟩
        · exact Written.step hold (by omega) (by omega) houtside hinside hwritten
        · rcases hresult with ⟨hr, hall⟩ | ⟨hr, hless⟩
          · exact .inl ⟨hr, by omega⟩
          · exact .inr ⟨hr, by omega⟩
      unfold Mm.putTables
      rw [if_neg hzero]
      cases hentry : mm.dir i with
      | table frame ptes => exact hturn mm frame ptes rfl (.inl hentry)
      | absent value =>
        cases hmemory : mm.getFreePage with
        | none => exact ⟨0, Nat.zero_le _, Written.nothing _ _ _, .inr ⟨rfl, by omega⟩⟩
        | some r =>
          have hsame : r.1.dir = mm.dir := by
            unfold Mm.getFreePage at hmemory
            split at hmemory
            · simp at hmemory
            · rw [Option.some.injEq] at hmemory
              rw [← hmemory]
          exact hturn r.1 r.2 (fun _ => 0) hsame (.inr ⟨value, hentry, rfl⟩)

end Put

/-! ## The calls -/

structure UnmapSpec (mm : Mm) (lo n : ℕ) (mm' : Mm) : Prop where
  /-- The pages of the range are unmapped, the others are what they were. -/
  entry : ∀ page, page < 1048576 → mm'.entry page = if InRange lo n page then 0 else mm.entry page
  table : ∀ j frame, (mm.dir j).frame? = some frame →
    (mm'.dir j).frame? = if Spanned lo n j then none else some frame
  absent : ∀ j value, mm.dir j = .absent value → mm'.dir j = .absent value
  /-- Each mapped page or slot and each of these page tables is let go of once. -/
  released : ∃ rs, entriesOf rs = rangeEntries mm.dir lo n ∧
    tablesOf rs = spannedTables mm.dir lo n (List.range 1024) ∧
    mm'.memMap = (mm.releases rs).memMap ∧ mm'.swapMap = (mm.releases rs).swapMap ∧
    mm'.rss = (mm.releases rs).rss

/-- `zeromap_page_range` or `remap_page_range` has returned with the value `r.2`: with 0
all pages are written, with `err`, where no page table was left, the first ones. -/
def MapSpec (W : UInt32 → UInt32 → Prop) (err : ℤ) (mm : Mm) (lo n : ℕ) (to_ : UInt32)
    (r : Mm × ℤ) : Prop :=
  ∃ m ≤ n, Written W mm.dir r.1.dir lo m to_ ∧ (r.2 = 0 ∧ m = n ∨ r.2 = err ∧ m < n)

theorem pagesOf_eq {size : UInt32} (h : size.toNat ≤ 0xfffff000) :
    pagesOf size = (size.toNat + 4095) / 4096 := by
  have hmask : (~~~pageMask).toNat = 4095 := by decide
  have htwelve : (12 : UInt32).toNat % 32 = 12 := by decide
  unfold pagesOf
  rw [UInt32.toNat_shiftRight, UInt32.toNat_add, hmask, htwelve, Nat.mod_eq_of_lt (by omega),
    Nat.shiftRight_eq_div_pow]

theorem aligned_iff (addr : UInt32) : addr &&& ~~~pageMask = 0 ↔ addr.toNat % 4096 = 0 := by
  have hmask : (~~~pageMask).toNat = 2 ^ 12 - 1 := by decide
  rw [← UInt32.toNat_inj, UInt32.toNat_and, hmask, Nat.and_two_pow_sub_one_eq_mod]
  rfl

theorem range_start (from_ : UInt32) (n : ℕ) :
    TableCount (tableIndex from_) (firstCount from_ n) n ∧
      ptrsPerPage * dirIndex from_ + tableIndex from_ = from_.toNat / pageSize := by
  rw [dirIndex_eq, tableIndex_eq]
  refine ⟨⟨Nat.mod_lt _ (by decide), ?_⟩, Nat.div_add_mod _ _⟩
  unfold firstCount
  rw [tableIndex_eq]

theorem range_end {from_ size : UInt32} (haligned : from_ &&& ~~~pageMask = 0)
    (hwrap : from_.toNat + size.toNat ≤ 4294967296) (hsize : size.toNat ≤ 0xfffff000) :
    from_.toNat / pageSize + pagesOf size ≤ 1048576 := by
  rw [pagesOf_eq hsize]
  unfold pageSize
  omega

theorem unmapped_spec {mm : Mm} {i lo n : ℕ} (hlo : ptrsPerPage * i ≤ lo) (hi : i < 1024)
    {rs : List Release} {result : Option Mm} (h : Unmapped mm i lo n rs result) :
    ∃ mm', result = some mm' ∧ UnmapSpec mm lo n mm' := by
  refine ⟨_, h.result, ?_, ?_, ?_, ?_⟩
  · intro page _
    change entryOf (clearedDir mm.dir lo n) page =
      if InRange lo n page then 0 else entryOf mm.dir page
    have hpage : ptrsPerPage * (page / ptrsPerPage) + page % ptrsPerPage = page :=
      Nat.div_add_mod _ _
    have hmod : page % ptrsPerPage < ptrsPerPage := Nat.mod_lt _ (by decide)
    unfold entryOf clearedDir
    cases hdir : mm.dir (page / ptrsPerPage) with
    | absent value => simp
    | table frame ptes =>
      dsimp only
      by_cases hspanned : Spanned lo n (page / ptrsPerPage)
      · rw [if_pos hspanned, if_pos]
        unfold Spanned at hspanned
        unfold InRange
        have hexpand : ptrsPerPage * (page / ptrsPerPage + 1) =
            ptrsPerPage * (page / ptrsPerPage) + ptrsPerPage := Nat.mul_succ _ _
        omega
      · rw [if_neg hspanned]
        dsimp only
        rw [hpage]
        simp only [hmod, true_and]
  · intro j frame hframe
    change (clearedDir mm.dir lo n j).frame? = _
    unfold clearedDir
    cases hdir : mm.dir j with
    | absent value =>
      rw [hdir] at hframe
      simp [DirEntry.frame?] at hframe
    | table frame' ptes =>
      rw [hdir] at hframe
      dsimp only
      split
      · rfl
      · exact hframe
  · intro j value hdir
    change clearedDir mm.dir lo n j = _
    unfold clearedDir
    rw [hdir]
  · refine ⟨rs, h.entries, ?_, rfl, rfl, rfl⟩
    rw [h.tables, range_eq_range',
      show 1024 = i + (1024 - i) by omega, ← List.range'_append_1 (s := 0), Nat.zero_add,
      Nat.add_sub_cancel_left]
    unfold spannedTables
    rw [filterMap_append]
    have hbefore : (List.range' 0 i).filterMap (fun j =>
        if Spanned lo n j then (mm.dir j).frame? else none) = [] := by
      rw [filterMap_eq_nil_iff]
      intro j hj
      rw [mem_range'_1] at hj
      apply if_neg
      unfold Spanned
      have hless : ptrsPerPage * j < ptrsPerPage * i := by
        unfold ptrsPerPage
        omega
      omega
    rw [hbefore, nil_append]

theorem unmapPageRange_spec (mm : Mm) (from_ size : UInt32)
    (haligned : from_ &&& ~~~pageMask = 0)
    (hwrap : from_.toNat + size.toNat ≤ 4294967296) (hsize : size.toNat ≤ 0xfffff000)
    (hsound : tableIndex from_ = 0 ∨ firstCount from_ (pagesOf size) = pagesOf size ∨
      ∀ value, mm.dir (dirIndex from_) = .absent value → value = 0) :
    ∃ mm', mm.unmapPageRange from_ size = some (mm', 0) ∧
      UnmapSpec mm (from_.toNat / pageSize) ((size.toNat + 4095) / pageSize) mm' := by
  obtain ⟨hcount, hstart⟩ := range_start from_ (pagesOf size)
  have hend := range_end haligned hwrap hsize
  have hpages : pagesOf size = (size.toNat + 4095) / pageSize := pagesOf_eq hsize
  rw [← hpages]
  rw [← hstart] at hend ⊢
  obtain ⟨rs, hunmapped⟩ := unmapTables_spec (pagesOf size) mm le_rfl hcount hend hsound
  have hi : dirIndex from_ < 1024 := by
    have hlt := from_.toNat_lt
    rw [dirIndex_eq]
    unfold pageSize ptrsPerPage
    omega
  obtain ⟨mm', hresult, hspec⟩ := unmapped_spec (Nat.le_add_right _ _) hi hunmapped
  refine ⟨mm', ?_, hspec⟩
  unfold Mm.unmapPageRange
  rw [if_neg (not_not.mpr haligned), hresult]
  rfl

def twoEntries (i : ℕ) (damaged : UInt32) : Mm where
  dir := fun j =>
    if j = i then .table 5 fun k => if k = 3 then 0x7001 else if k = 8 then 0x102 else 0
    else .absent damaged
  memMap := fun frame => if frame = 5 ∨ frame = 7 then 1 else 0
  highMemory := 0x1000000
  swapMap := fun type offset => if type = 1 ∧ offset = 0 then some 1 else none
  rss := 1
  memory := []

end LinuxKernel.Paging
