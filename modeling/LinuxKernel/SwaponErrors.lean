import LinuxKernel.SwaponModel
import LinuxKernel.SwapRun

/-!
# The errors of `sys_swapon`

All states of a call are the one it was made in with another record for its type, other
inode counts and another free memory.  `bad_swap` gives back the page and the inode that
the record holds; the raised `nr_swapfiles`, an inode that is not yet in the record and
what the record kept from its last use are not given back.
-/

namespace LinuxKernel.Swapon
open Function

def Usable (page : ℕ → UInt8) (o : ℕ) : Prop := o ≠ 0 ∧ o < 32688 ∧ testBit page o = true

theorem testBit_cut (page : ℕ → UInt8) (o : ℕ) :
    testBit (cut page) o = (decide (o < 32688) && testBit page o) := by
  unfold testBit cut
  by_cases ho : o < 32688
  · rw [if_pos (by omega)]
    simp [ho]
  · rw [if_neg (by omega)]
    simp [ho]

theorem usable_iff {page : ℕ → UInt8} {o : ℕ} :
    Usable page o ↔ o ≠ 0 ∧ testBit (cut page) o = true := by
  unfold Usable
  rw [testBit_cut]
  simp

structure EndsOk (bits : ℕ → Bool) (found : Swap.Found) : Prop where
  none_found : found.count = 0 → found = ⟨0, 0, 1, 0⟩
  some_found : found.count ≠ 0 → ∃ lo hi : ℕ, found.lowestBit = lo ∧ found.highestBit = hi ∧
    lo ≠ 0 ∧ hi ≠ 0 ∧ bits lo = true ∧ bits hi = true ∧ found.max = hi + 1

section
variable {bits : ℕ → Bool} {found : Swap.Found} {i : ℕ} (h : EndsOk bits found) (hi : i ≠ 0)
include h hi

theorem EndsOk.hit (hbit : bits i = true) :
    EndsOk bits
      { lowestBit := if found.lowestBit = 0 then (i : ℤ) else found.lowestBit
        highestBit := i
        max := i + 1
        count := found.count + 1 } := by
  refine ⟨fun hcount => absurd hcount (Nat.succ_ne_zero _), fun _ => ?_⟩
  by_cases hcount : found.count = 0
  · rw [h.none_found hcount]
    exact ⟨i, i, rfl, rfl, hi, hi, hbit, hbit, rfl⟩
  · obtain ⟨lo, -, hlo, -, hne, -, hset, -⟩ := h.some_found hcount
    rw [hlo, if_neg (by omega)]
    exact ⟨lo, i, rfl, rfl, hne, hi, hset, hbit, rfl⟩

theorem EndsOk.scan (n : ℕ) : EndsOk bits (Swap.scan bits found i n) := by
  induction n generalizing found i with
  | zero => exact h
  | succ n ih =>
    unfold Swap.scan
    split
    · rename_i hbit
      exact ih (h.hit hi hbit) (Nat.succ_ne_zero i)
    · exact ih h (Nat.succ_ne_zero i)

end

theorem scan_cases (page : ℕ → UInt8) :
    (¬(∃ o, Usable page o) ∧ Swap.scan (testBit (cut page)) ⟨0, 0, 1, 0⟩ 1 32767 = ⟨0, 0, 1, 0⟩) ∨
    ∃ lo hi count, IsLeast {o | Usable page o} lo ∧ IsGreatest {o | Usable page o} hi ∧ count ≠ 0 ∧
      Swap.scan (testBit (cut page)) ⟨0, 0, 1, 0⟩ 1 32767 = ⟨lo, hi, hi + 1, count⟩ := by
  have hfound := (Swap.foundOk_start (testBit (cut page)) 1).scan one_ne_zero 32767
  have hends : EndsOk (testBit (cut page)) (Swap.scan (testBit (cut page)) ⟨0, 0, 1, 0⟩ 1 32767) :=
    EndsOk.scan ⟨fun _ => rfl, fun h => absurd rfl h⟩ one_ne_zero 32767
  generalize Swap.scan (testBit (cut page)) ⟨0, 0, 1, 0⟩ 1 32767 = found at hfound hends ⊢
  by_cases hcount : found.count = 0
  · refine Or.inl ⟨?_, hends.none_found hcount⟩
    rintro ⟨o, hne, hlt, hbit⟩
    have hempty := hfound.count_eq
    rw [hcount, eq_comm, Finset.card_eq_zero, Finset.filter_eq_empty_iff] at hempty
    refine hempty (Finset.mem_range.mpr (by omega : o < 1 + 32767)) ⟨hne, ?_⟩
    exact (usable_iff.mp ⟨hne, hlt, hbit⟩).2
  · obtain ⟨lo, hi, hlo, hhi, hlone, hhine, hloset, hhiset, hmax⟩ := hends.some_found hcount
    have hinside : ∀ o, Usable page o → lo ≤ o ∧ o ≤ hi := by
      intro o ho
      have hbound := hfound.inside o ho.1 (by have := ho.2.1; omega) (usable_iff.mp ho).2
      omega
    refine Or.inr ⟨lo, hi, found.count,
        ⟨usable_iff.mpr ⟨hlone, hloset⟩, fun o ho => (hinside o ho).1⟩,
      ⟨usable_iff.mpr ⟨hhine, hhiset⟩, fun o ho => (hinside o ho).2⟩, hcount, ?_⟩
    rw [← hlo, ← hhi, ← hmax]

def System.entered (s : System) (p : SwapInfoStruct) (iCount : ℕ → ℕ) (memory : List ℕ) :
    System where
  swapInfo := update s.swapInfo s.freeType p
  nrSwapfiles := if s.nrSwapfiles ≤ s.freeType then s.freeType + 1 else s.nrSwapfiles
  nrSwapPages := s.nrSwapPages
  iCount := iCount
  memory := memory

@[simp] theorem entered_info (s : System) (p : SwapInfoStruct) (iCount : ℕ → ℕ) (memory : List ℕ) :
    (s.entered p iCount memory).swapInfo s.freeType = p :=
  update_self ..

@[simp] theorem entered_setInfo (s : System) (p q : SwapInfoStruct) (iCount : ℕ → ℕ)
    (memory : List ℕ) :
    (s.entered p iCount memory).setInfo s.freeType q = s.entered q iCount memory := by
  unfold System.entered System.setInfo
  rw [update_idem]

def SwapInfoStruct.after (p : SwapInfoStruct) (lo hi : ℤ) (max : ℕ) : SwapInfoStruct where
  flags := .unused
  swapDevice := 0
  swapFile := none
  swapMap := none
  swapLockmap := none
  pages := p.pages
  lowestBit := lo
  highestBit := hi
  max := max

theorem cleared_after (p q : SwapInfoStruct) (h : q.pages = p.pages) :
    cleared q = p.after q.lowestBit q.highestBit q.max := by
  unfold cleared SwapInfoStruct.after
  rw [h]

theorem badSwap_entered (s : System) (q : SwapInfoStruct) {iCount iCount' : ℕ → ℕ}
    {memory memory' : List ℕ} (error : ℤ)
    (hpages : q.pages = (s.swapInfo s.freeType).pages)
    (hmemory : memory' = q.swapLockmap.toList ++ memory)
    (hfile : (q.swapFile = none ∧ iCount' = iCount) ∨ ∃ i, q.swapFile = some i ∧ iCount i ≠ 0 ∧
      iCount' = update iCount i (iCount i - 1)) :
    (s.entered q iCount memory).badSwap s.freeType error =
      (s.entered ((s.swapInfo s.freeType).after q.lowestBit q.highestBit q.max) iCount' memory',
        error) := by
  have hfree : (s.entered q iCount memory).freePage q.swapLockmap = s.entered q iCount memory' := by
    rw [hmemory]
    cases q.swapLockmap with
    | none => rfl
    | some frame => rfl
  have hiput : (s.entered q iCount memory').iput q.swapFile = s.entered q iCount' memory' := by
    rcases hfile with ⟨hnone, hsame⟩ | ⟨i, hsome, hused, hupdate⟩
    · rw [hnone, hsame]
      rfl
    · rw [hsome, hupdate]
      exact if_neg hused
  unfold System.badSwap
  dsimp only
  rw [entered_info, hfree, hiput, entered_setInfo, cleared_after _ _ hpages]

/-! ## When a call succeeds -/

/-- The inode is not in use, and it is one of a block device that no other type has, or of
a regular file. -/
def System.Opens (s : System) (req : Request) : Prop :=
  ∃ inode, req.namei = .ok inode ∧ s.iCount inode = 0 ∧
    (req.mode = .reg ∨ req.mode = .blk ∧ req.rdev ≠ 0 ∧
      ∀ i < s.nrSwapfiles, i ≠ s.freeType → (s.swapInfo i).swapDevice ≠ req.rdev)

def System.Scans (s : System) (req : Request) : Prop :=
  s.Opens req ∧ s.memory ≠ [] ∧ signed req.page = true ∧ ∃ o, Usable req.page o

def System.Succeeds (s : System) (req : Request) : Prop :=
  req.suser = true ∧ s.freeType < Swap.maxSwapfiles ∧ s.Scans req ∧ req.vmalloc = true

def System.GivesBack (s : System) (req : Request) : Prop :=
  ∀ inode, req.namei = .ok inode → s.iCount inode = 0 ∧ req.mode ≠ .other

structure SlotsOk (page : ℕ → UInt8) (p : SwapInfoStruct) : Prop where
  slots : ∃ map, p.swapMap = some map ∧ map 0 = 0x80 ∧ ∀ o, o < p.max ∧ map o = 0 ↔ Usable page o
  bounds : ∀ o, Usable page o → p.lowestBit ≤ o ∧ (o : ℤ) ≤ p.highestBit
  writeok : p.flags = .writeok

inductive System.Returns (s : System) (req : Request) : System × ℤ → Prop
  | notEntered (refused : req.suser = false ∨ Swap.maxSwapfiles ≤ s.freeType) :
      Returns s req (s, -eperm)
  | leaked (entered : req.suser = true ∧ s.freeType < Swap.maxSwapfiles) (inode : ℕ)
      (found : req.namei = .ok inode) (stays : s.iCount inode ≠ 0 ∨ req.mode = .other) (error : ℤ)
      (error_ne : error ≠ 0) :
      Returns s req (s.entered ((s.swapInfo s.freeType).after 0 0 1)
        (update s.iCount inode (s.iCount inode + 1)) s.memory, error)
  | failed (entered : req.suser = true ∧ s.freeType < Swap.maxSwapfiles)
    (givesBack : s.GivesBack req)
      (notScanned : ¬s.Scans req) (error : ℤ) (error_ne : error ≠ 0) :
      Returns s req (s.entered ((s.swapInfo s.freeType).after 0 0 1) s.iCount s.memory, error)
  | noMap (entered : req.suser = true ∧ s.freeType < Swap.maxSwapfiles)
    (givesBack : s.GivesBack req)
      (scanned : s.Scans req) (noMemory : req.vmalloc = false) (lo hi : ℕ)
      (least : IsLeast {o | Usable req.page o} lo)
        (greatest : IsGreatest {o | Usable req.page o} hi) :
      Returns s req (s.entered ((s.swapInfo s.freeType).after lo hi (hi + 1)) s.iCount s.memory,
        -enomem)
  | ok (succeeds : s.Succeeds req) (s' : System)
      (slots : SlotsOk req.page (s'.swapInfo s.freeType)) : Returns s req (s', 0)

/-- The record `q` holds what the call has taken, but for the page of the lock map. -/
structure System.Holds (s : System) (q : SwapInfoStruct) (iCount : ℕ → ℕ) : Prop where
  pages : q.pages = (s.swapInfo s.freeType).pages
  lowest : q.lowestBit = 0
  highest : q.highestBit = 0
  max : q.max = 1
  file : (q.swapFile = none ∧ iCount = s.iCount) ∨
    ∃ i, q.swapFile = some i ∧ iCount = update s.iCount i (s.iCount i + 1)

section
variable {s : System} {q : SwapInfoStruct} {iCount : ℕ → ℕ} (h : s.Holds q iCount)
include h

theorem System.Holds.file_given : (q.swapFile = none ∧ s.iCount = iCount) ∨
      ∃ i, q.swapFile = some i ∧ iCount i ≠ 0 ∧ s.iCount = update iCount i (iCount i - 1) := by
  rcases h.file with ⟨hnone, hsame⟩ | ⟨i, hsome, hupdate⟩
  · exact Or.inl ⟨hnone, hsame.symm⟩
  · refine Or.inr ⟨i, hsome, ?_, ?_⟩
    · rw [hupdate, update_self]
      exact Nat.succ_ne_zero _
    · rw [hupdate, update_self, update_idem, Nat.add_sub_cancel, update_eq_self]

theorem System.Holds.badSwap {memory : List ℕ} (hmemory : s.memory = q.swapLockmap.toList ++ memory)
    (error : ℤ) :
    (s.entered q iCount memory).badSwap s.freeType error =
      (s.entered ((s.swapInfo s.freeType).after 0 0 1) s.iCount s.memory, error) := by
  rw [badSwap_entered s q error h.pages hmemory h.file_given, h.lowest, h.highest, h.max]

end

section
variable {s : System} {req : Request} {q : SwapInfoStruct} {iCount : ℕ → ℕ}
  (hentered : req.suser = true ∧ s.freeType < Swap.maxSwapfiles) (hgives : s.GivesBack req)
  (hopens : s.Opens req) (h : s.Holds q iCount)
include hentered hgives hopens h

theorem readSwap_returns {memory : List ℕ} (hlockmap : s.memory = q.swapLockmap.toList ++ memory)
    (hmemory : s.memory ≠ []) :
    s.Returns req ((s.entered q iCount memory).readSwap s.freeType req) := by
  unfold System.readSwap
  rw [entered_info, h.max]
  by_cases hsigned : signed req.page = true
  · rw [if_neg (not_not.mpr hsigned)]
    dsimp only
    rcases scan_cases req.page with ⟨hnone, hscan⟩ | ⟨lo, hi, count, hlo, hhi, hcount, hscan⟩
    · rw [hscan, if_pos rfl, entered_setInfo]
      have hq : s.Holds { q with lowestBit := 0, highestBit := 0, max := 1 } iCount :=
        ⟨h.pages, rfl, rfl, rfl, h.file⟩
      rw [hq.badSwap hlockmap]
      exact .failed hentered hgives (fun hscans => hnone hscans.2.2.2) _ (by decide)
    · have hscans : s.Scans req := ⟨hopens, hmemory, hsigned, lo, hlo.1⟩
      rw [hscan, if_neg hcount]
      by_cases hvmalloc : req.vmalloc = true
      · rw [if_neg (not_not.mpr hvmalloc), entered_setInfo]
        refine .ok ⟨hentered.1, hentered.2, hscans, hvmalloc⟩ _ ?_
        rw [entered_info]
        refine ⟨⟨_, rfl, rfl, fun o => ?_⟩, fun o ho => ?_, rfl⟩
        · rw [usable_iff]
          dsimp only
          constructor
          · rintro ⟨-, hzero⟩
            split at hzero
            · contradiction
            · rename_i hne
              split at hzero
              · rename_i hbit
                exact ⟨hne, hbit⟩
              · contradiction
          · rintro ⟨hne, hbit⟩
            have hle := hhi.2 (show o ∈ {o | Usable req.page o} from usable_iff.mpr ⟨hne, hbit⟩)
            rw [if_neg hne, if_pos hbit]
            exact ⟨by omega, rfl⟩
        · have hle := hlo.2 (show o ∈ {o | Usable req.page o} from ho)
          have hge := hhi.2 (show o ∈ {o | Usable req.page o} from ho)
          dsimp only
          omega
      · rw [if_pos hvmalloc, entered_setInfo,
          badSwap_entered s { q with lowestBit := lo, highestBit := hi, max := hi + 1 } (-enomem)
            h.pages hlockmap h.file_given]
        exact .noMap hentered hgives hscans (by simpa using hvmalloc) lo hi hlo hhi
  · rw [if_pos hsigned, h.badSwap hlockmap]
    exact .failed hentered hgives (fun hscans => hsigned hscans.2.2.1) _ (by decide)

theorem getLockmap_returns (hlockmap : q.swapLockmap = none) :
    s.Returns req ((s.entered q iCount s.memory).getLockmap s.freeType req) := by
  unfold System.getLockmap
  rw [show (s.entered q iCount s.memory).memory = s.memory from rfl]
  cases hmemory : s.memory with
  | nil =>
    dsimp only
    rw [← hmemory, h.badSwap (by rw [hlockmap]; rfl)]
    exact .failed hentered hgives (fun hscans => hscans.2.1 hmemory) _ (by decide)
  | cons frame rest =>
    dsimp only
    rw [entered_info]
    have hstate : ({ s.entered q iCount (frame :: rest) with memory := rest }.setInfo s.freeType
        { q with swapLockmap := some frame }) =
          s.entered { q with swapLockmap := some frame } iCount rest :=
      entered_setInfo s q _ iCount rest
    rw [hstate]
    have hq : s.Holds { q with swapLockmap := some frame } iCount :=
      ⟨h.pages, h.lowest, h.highest, h.max, h.file⟩
    exact readSwap_returns hentered hgives hopens hq hmemory (by rw [hmemory]; simp)

end

theorem freeType_le (s : System) : s.freeType ≤ s.nrSwapfiles := by
  unfold System.freeType
  cases hfind : (List.range s.nrSwapfiles).find? fun type => (s.swapInfo type).flags = .unused with
  | none => exact le_rfl
  | some type => exact (List.mem_range.mp (List.mem_of_find?_eq_some hfind)).le

theorem entered_iput (s : System) (q : SwapInfoStruct) (inode : ℕ) (memory : List ℕ) :
    (s.entered q (update s.iCount inode (s.iCount inode + 1)) memory).iput (some inode) =
      s.entered q s.iCount memory := by
  have hcount : (s.entered q (update s.iCount inode (s.iCount inode + 1)) memory).iCount
      inode = s.iCount inode + 1 := update_self ..
  unfold System.iput
  dsimp only
  rw [if_neg (by rw [hcount]; omega), hcount]
  unfold System.entered
  rw [update_idem, Nat.add_sub_cancel, update_eq_self]

theorem sameDevice_entered (s : System) (q : SwapInfoStruct) (iCount : ℕ → ℕ) (memory : List ℕ) :
    (s.entered q iCount memory).sameDevice s.freeType = true ↔
      ∃ i < s.nrSwapfiles, i ≠ s.freeType ∧ (s.swapInfo i).swapDevice = q.swapDevice := by
  unfold System.sameDevice
  rw [List.any_eq_true]
  constructor
  · rintro ⟨i, hi, hsame⟩
    rw [List.mem_range] at hi
    simp only [Bool.and_eq_true, decide_eq_true_eq] at hsame
    obtain ⟨hne, hdevice⟩ := hsame
    rw [entered_info] at hdevice
    unfold System.entered at hi hdevice
    dsimp only at hi hdevice
    rw [update_of_ne hne] at hdevice
    refine ⟨i, ?_, hne, hdevice.symm⟩
    have hle := freeType_le s
    split at hi
    · omega
    · exact hi
  · rintro ⟨i, hi, hne, hdevice⟩
    refine ⟨i, ?_, ?_⟩
    · rw [List.mem_range]
      unfold System.entered
      dsimp only
      split
      · omega
      · exact hi
    · simp only [Bool.and_eq_true, decide_eq_true_eq]
      refine ⟨hne, ?_⟩
      rw [entered_info]
      unfold System.entered
      dsimp only
      rw [update_of_ne hne, hdevice]

theorem openSwap_returns {s : System} {req : Request} {q : SwapInfoStruct} {inode : ℕ}
    (hentered : req.suser = true ∧ s.freeType < Swap.maxSwapfiles) (hfound : req.namei = .ok inode)
    (h : s.Holds q s.iCount) (hlockmap : q.swapLockmap = none) (hfile : q.swapFile = none) :
    s.Returns req ((s.entered q (update s.iCount inode (s.iCount inode + 1))
      s.memory).openSwap s.freeType inode req) := by
  have hcount : (s.entered q (update s.iCount inode (s.iCount inode + 1))
      s.memory).iCount inode = s.iCount inode + 1 := update_self ..
  have hleak : ∀ error : ℤ, (s.entered q (update s.iCount inode (s.iCount inode + 1))
      s.memory).badSwap s.freeType error = (s.entered ((s.swapInfo s.freeType).after 0 0 1)
        (update s.iCount inode (s.iCount inode + 1)) s.memory, error) := by
    intro error
    have hmemory : s.memory = q.swapLockmap.toList ++ s.memory := by
      rw [hlockmap]
      rfl
    rw [badSwap_entered s q error h.pages hmemory (Or.inl ⟨hfile, rfl⟩), h.lowest, h.highest, h.max]
  unfold System.openSwap
  by_cases hused : s.iCount inode = 0
  · rw [if_neg (by omega)]
    cases hmode : req.mode with
    | blk =>
      have hgives : s.GivesBack req := by
        intro other hother
        rw [hfound, Except.ok.injEq] at hother
        rw [← hother, hmode]
        exact ⟨hused, by decide⟩
      have hstate : ((s.entered q (update s.iCount inode (s.iCount inode + 1))
          s.memory).setInfo s.freeType
            { (s.entered q (update s.iCount inode (s.iCount inode + 1))
              s.memory).swapInfo s.freeType with swapDevice := req.rdev }).iput (some inode) =
          s.entered { q with swapDevice := req.rdev } s.iCount s.memory := by
        rw [entered_info, entered_setInfo, entered_iput]
      have hq : s.Holds { q with swapDevice := req.rdev } s.iCount :=
        ⟨h.pages, h.lowest, h.highest, h.max, Or.inl ⟨hfile, rfl⟩⟩
      rw [hstate]
      by_cases hrdev : req.rdev = 0
      · rw [if_pos hrdev, hq.badSwap (by rw [hlockmap]; rfl)]
        refine .failed hentered hgives ?_ _ (by decide)
        rintro ⟨⟨other, -, -, hreg | hblk⟩, -⟩
        · rw [hmode] at hreg
          contradiction
        · exact hblk.2.1 hrdev
      · rw [if_neg hrdev]
        by_cases hsame : ((s.entered { q with swapDevice := req.rdev } s.iCount
            s.memory).sameDevice s.freeType) = true
        · rw [if_pos hsame, hq.badSwap (by rw [hlockmap]; rfl)]
          refine .failed hentered hgives ?_ _ (by decide)
          obtain ⟨i, hi, hne, hdevice⟩ := (sameDevice_entered s _ _ _).mp hsame
          rintro ⟨⟨other, -, -, hreg | hblk⟩, -⟩
          · rw [hmode] at hreg
            contradiction
          · exact hblk.2.2 i hi hne hdevice
        · rw [if_neg hsame]
          rw [sameDevice_entered] at hsame
          have hopens : s.Opens req := by
            refine ⟨inode, hfound, hused, Or.inr ⟨hmode, hrdev, fun i hi hne hdevice => ?_⟩⟩
            exact hsame ⟨i, hi, hne, hdevice⟩
          exact getLockmap_returns hentered hgives hopens hq hlockmap
    | reg =>
      have hgives : s.GivesBack req := by
        intro other hother
        rw [hfound, Except.ok.injEq] at hother
        rw [← hother, hmode]
        exact ⟨hused, by decide⟩
      have hq : s.Holds { q with swapFile := some inode }
          (update s.iCount inode (s.iCount inode + 1)) :=
        ⟨h.pages, h.lowest, h.highest, h.max, Or.inr ⟨inode, rfl, rfl⟩⟩
      dsimp only
      rw [entered_info, entered_setInfo]
      exact getLockmap_returns hentered hgives ⟨inode, hfound, hused, Or.inl hmode⟩ hq hlockmap
    | other =>
      rw [hleak]
      exact .leaked hentered inode hfound (Or.inr hmode) _ (by decide)
  · rw [if_pos (by omega), hleak]
    exact .leaked hentered inode hfound (Or.inl hused) _ (by decide)

theorem swapon_returns (s : System) (req : Request) : s.Returns req (s.swapon req) := by
  unfold System.swapon
  by_cases hsuser : req.suser = true
  · rw [if_neg (not_not.mpr hsuser)]
    by_cases htype : Swap.maxSwapfiles ≤ s.freeType
    · rw [if_pos htype]
      exact .notEntered (Or.inr htype)
    · have hentered : req.suser = true ∧ s.freeType < Swap.maxSwapfiles := ⟨hsuser, by omega⟩
      have hq : s.Holds (fresh (s.swapInfo s.freeType)) s.iCount :=
        ⟨rfl, rfl, rfl, rfl, Or.inl ⟨rfl, rfl⟩⟩
      rw [if_neg htype]
      cases hnamei : req.namei with
      | error error =>
        have hgives : s.GivesBack req := by
          intro inode hinode
          rw [hnamei] at hinode
          contradiction
        have hmemory : s.memory = (fresh (s.swapInfo s.freeType)).swapLockmap.toList ++ s.memory :=
          rfl
        have hbad := hq.badSwap hmemory error.val
        dsimp only
        unfold System.entered at hbad
        unfold System.setInfo
        rw [hbad]
        refine .failed hentered hgives ?_ error.val error.property
        rintro ⟨⟨inode, hinode, -⟩, -⟩
        rw [hnamei] at hinode
        contradiction
      | ok inode => exact openSwap_returns hentered hnamei hq rfl rfl
  · rw [if_pos hsuser]
    exact .notEntered (Or.inl (by simpa using hsuser))

/-! ## The whole call -/

structure SwapInfoStruct.Clear (p : SwapInfoStruct) (lo hi : ℤ) (max : ℕ) : Prop where
  flags : p.flags = .unused
  swapDevice : p.swapDevice = 0
  swapFile : p.swapFile = none
  swapMap : p.swapMap = none
  swapLockmap : p.swapLockmap = none
  lowestBit : p.lowestBit = lo
  highestBit : p.highestBit = hi
  max : p.max = max

theorem after_eq_iff {p : SwapInfoStruct} {lo hi : ℤ} {max : ℕ} :
    p.after lo hi max = p ↔ p.Clear lo hi max := by
  constructor
  · intro h
    rw [← h]
    exact ⟨rfl, rfl, rfl, rfl, rfl, rfl, rfl, rfl⟩
  · rintro ⟨h1, h2, h3, h4, h5, h6, h7, h8⟩
    cases p
    simp_all [SwapInfoStruct.after]

theorem entered_eq_iff {s : System} {p : SwapInfoStruct} {iCount : ℕ → ℕ} :
    s.entered p iCount s.memory = s ↔
      s.freeType < s.nrSwapfiles ∧ p = s.swapInfo s.freeType ∧ iCount = s.iCount := by
  constructor
  · intro h
    refine ⟨?_, ?_, congrArg System.iCount h⟩
    · have hnr := congrArg System.nrSwapfiles h
      unfold System.entered at hnr
      dsimp only at hnr
      split at hnr
      · omega
      · omega
    · have hinfo := congrFun (congrArg System.swapInfo h) s.freeType
      rw [entered_info] at hinfo
      exact hinfo
  · rintro ⟨hlt, rfl, rfl⟩
    unfold System.entered
    rw [if_neg (by omega), update_eq_self]

/-- A call that fails leaves the system as it was: the record was taken from below
`nr_swapfiles`, it is already as `bad_swap` leaves it, with the ends of the bitmap if only
the map was missing, and the inode is given back. -/
structure System.FailsClean (s : System) (req : Request) : Prop where
  below : s.freeType < s.nrSwapfiles
  givesBack : s.GivesBack req
  scanned : s.Scans req → ∃ lo hi : ℕ, IsLeast {o | Usable req.page o} lo ∧
    IsGreatest {o | Usable req.page o} hi ∧ (s.swapInfo s.freeType).Clear lo hi (hi + 1)
  notScanned : ¬s.Scans req → (s.swapInfo s.freeType).Clear 0 0 1

/-- `sys_swapon` is all-or-nothing exactly when it succeeds, is refused at once, or takes
nothing that `bad_swap` does not give back. -/
theorem swapon_allOrNothing_iff (s : System) (req : Request) :
    (((s.swapon req).2 ≠ 0 → (s.swapon req).1 = s) ∧
      ((s.swapon req).2 = 0 → SlotsOk req.page ((s.swapon req).1.swapInfo s.freeType))) ↔
    s.Succeeds req ∨ req.suser = false ∨ Swap.maxSwapfiles ≤ s.freeType ∨ s.FailsClean req := by
  have hreturns := swapon_returns s req
  generalize s.swapon req = r at hreturns ⊢
  cases hreturns with
  | notEntered refused =>
    refine iff_of_true ⟨fun _ => rfl, fun h => absurd (show -eperm = 0 from h) (by decide)⟩ ?_
    tauto
  | leaked entered inode found stays error error_ne =>
    refine iff_of_false ?_ ?_
    · rintro ⟨hsame, -⟩
      have hcount := congrFun (entered_eq_iff.mp (hsame error_ne)).2.2 inode
      rw [update_self] at hcount
      omega
    · rintro (⟨-, -, ⟨⟨other, hother, hzero, hmode⟩, -⟩, -⟩ | hsuser | htype | hclean)
      · rw [found, Except.ok.injEq] at hother
        rw [← hother] at hzero
        rcases stays with hused | hother
        · exact hused hzero
        · rw [hother] at hmode
          rcases hmode with hmode | hmode
          · contradiction
          · exact absurd hmode.1 (by decide)
      · rw [entered.1] at hsuser
        contradiction
      · omega
      · obtain ⟨hzero, hmode⟩ := hclean.givesBack inode found
        exact stays.elim (fun h => h hzero) hmode
  | failed entered givesBack notScanned error error_ne =>
    have hsame : s.entered ((s.swapInfo s.freeType).after 0 0 1) s.iCount s.memory = s ↔
        s.FailsClean req := by
      rw [entered_eq_iff, after_eq_iff]
      constructor
      · rintro ⟨hbelow, hclear, -⟩
        exact ⟨hbelow, givesBack, fun h => absurd h notScanned, fun _ => hclear⟩
      · intro h
        exact ⟨h.below, h.notScanned notScanned, rfl⟩
    constructor
    · rintro ⟨h, -⟩
      exact Or.inr (Or.inr (Or.inr (hsame.mp (h error_ne))))
    · rintro (hsucceeds | hsuser | htype | hclean)
      · exact absurd hsucceeds.2.2.1 notScanned
      · rw [entered.1] at hsuser
        contradiction
      · omega
      · exact ⟨fun _ => hsame.mpr hclean, fun h => absurd h error_ne⟩
  | noMap entered givesBack scanned noMemory lo hi least greatest =>
    have hsame : s.entered ((s.swapInfo s.freeType).after lo hi (hi + 1)) s.iCount s.memory = s ↔
        s.FailsClean req := by
      rw [entered_eq_iff, after_eq_iff]
      constructor
      · rintro ⟨hbelow, hclear, -⟩
        exact ⟨hbelow, givesBack, fun _ => ⟨lo, hi, least, greatest, hclear⟩,
          fun h => absurd scanned h⟩
      · intro h
        obtain ⟨lo', hi', hlo', hhi', hclear⟩ := h.scanned scanned
        rw [hlo'.unique least, hhi'.unique greatest] at hclear
        exact ⟨h.below, hclear, rfl⟩
    constructor
    · rintro ⟨h, -⟩
      exact Or.inr (Or.inr (Or.inr (hsame.mp (h (show -enomem ≠ 0 by decide)))))
    · rintro (hsucceeds | hsuser | htype | hclean)
      · have hvmalloc := hsucceeds.2.2.2
        rw [noMemory] at hvmalloc
        contradiction
      · rw [entered.1] at hsuser
        contradiction
      · omega
      · exact ⟨fun _ => hsame.mpr hclean, fun h => absurd (show -enomem = 0 from h) (by decide)⟩
  | ok succeeds s' slots =>
    exact iff_of_true ⟨fun h => absurd rfl h, fun _ => slots⟩ (Or.inl succeeds)

def booted : System where
  swapInfo := fun _ =>
    { flags := .unused
      swapDevice := 0
      swapFile := none
      swapMap := none
      swapLockmap := none
      pages := 0
      lowestBit := 0
      highestBit := 0
      max := 0 }
  nrSwapfiles := 0
  nrSwapPages := 0
  iCount := fun _ => 0
  memory := [9]

def noFile : Request where
  suser := true
  namei := .error ⟨-2, by decide⟩
  mode := .other
  rdev := 0
  page := fun _ => 0
  vmalloc := true

def directory : Request := { noFile with namei := .ok 5 }

/-- `nr_swapfiles` stays raised, and the inode of a directory stays in use. -/
theorem swapon_errors :
    ((booted.swapon noFile).2 = -2 ∧ (booted.swapon noFile).1.nrSwapfiles = 1) ∧
    ((booted.swapon directory).2 = -22 ∧ (booted.swapon directory).1.iCount 5 = 1) ∧
    booted.nrSwapfiles = 0 ∧ booted.iCount 5 = 0 := by
  decide +kernel

end LinuxKernel.Swapon
