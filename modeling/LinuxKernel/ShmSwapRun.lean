import LinuxKernel.ShmSwapModel
import Mathlib.Tactic

/-!
# When `shm_swap` ends

The counter of `shm_swap` counts present pages, also those of locked segments, but
goes down only at present pages of segments that are not locked.  Where there is
such a page, every walk over the segments comes to it, and the counter ends the
loop; where there is none, the cursors go round forever.
-/

namespace LinuxKernel.ShmSwap
open Function

open Paging LoopMachine

/-- Page `idx` of the segment `shp` in the slot `id` is present and may be swapped. -/
structure Candidate (s : Shm) (id idx : ℕ) (shp : ShmidDs) : Prop where
  slot : s.segments.slot id = .seg shp
  unlocked : shp.locked = false
  idx_lt : idx < shp.shmNpages
  present : present (s.pages id idx) = true

def Shm.HasCandidate (s : Shm) : Prop := ∃ id idx shp, Candidate s id idx shp

/-- What `shm_swap` does: it swaps out one page that may be swapped, or has come to
as many present pages as its counter allows and changed none of them. -/
inductive SwapSpec (s : Shm) (prio : ℕ) (swapNr : UInt32) (r : Result) : Prop where
  | nothing (hskip : s.counter prio = 0 ∨ swapNr = 0) (hresult : r = ⟨s, 0, none, none⟩)
  | swapped (id idx : ℕ) (shp : ShmidDs) (hcandidate : Candidate s id idx shp)
      (hvalue : r.value = 1) (hfreed : r.swapFreed = none)
      (hwritten : r.written = some (swapNr, s.pages id idx &&& pageMask))
      (hpages : r.shm.pages = update s.pages id (update (s.pages id) idx swapNr))
  | failed (hvalue : r.value = 0) (hfreed : r.swapFreed = some swapNr)
      (hwritten : r.written = none) (hpages : r.shm.pages = s.pages)
      (hattempts : (r.shm.swapAttempts : ℤ) = s.swapAttempts + max (s.counter prio) 0 + 1)

/-! ## One turn -/

structure SameCursors (s s' : Shm) : Prop where
  segments : s'.segments = s.segments
  pages : s'.pages = s.pages
  swapId : s'.swapId = s.swapId
  swapIdx : s'.swapIdx = s.swapIdx
  swapAttempts : s'.swapAttempts = s.swapAttempts

theorem unmapAttach_same (s : Shm) (id idx : ℕ) (page : UInt32) (shmd : ShmDesc) :
    SameCursors s (s.unmapAttach id idx page shmd).1 := by
  unfold Shm.unmapAttach
  dsimp only
  split
  · exact ⟨rfl, rfl, rfl, rfl, rfl⟩
  · split
    · exact ⟨rfl, rfl, rfl, rfl, rfl⟩
    · split
      · exact ⟨rfl, rfl, rfl, rfl, rfl⟩
      · split
        · exact ⟨rfl, rfl, rfl, rfl, rfl⟩
        · split
          · exact ⟨rfl, rfl, rfl, rfl, rfl⟩
          · exact ⟨rfl, rfl, rfl, rfl, rfl⟩

theorem unmapAttaches_same (s : Shm) (id idx : ℕ) (page : UInt32) (attaches : List ShmDesc) :
    SameCursors s (s.unmapAttaches id idx page attaches) := by
  induction attaches generalizing s with
  | nil => exact ⟨rfl, rfl, rfl, rfl, rfl⟩
  | cons shmd rest ih =>
    have hfirst := unmapAttach_same s id idx page shmd
    have hrest := ih (s.unmapAttach id idx page shmd).1
    exact ⟨hrest.segments.trans hfirst.segments, hrest.pages.trans hfirst.pages,
      hrest.swapId.trans hfirst.swapId, hrest.swapIdx.trans hfirst.swapIdx,
      hrest.swapAttempts.trans hfirst.swapAttempts⟩

variable {shp : ShmidDs}

/-- The scan has not changed segments or pages, and stands in a segment that is not
locked. -/
structure Scanning (s : Shm) (x : Scan) : Prop where
  segments : x.shm.segments = s.segments
  pages : x.shm.pages = s.pages
  table : ∀ shp, x.label = .checkTable shp →
    s.segments.slot x.shm.swapId = .seg shp ∧ shp.locked = false

section Turns

variable {s : Shm} {x : Scan} (swapNr : UInt32)

def Skipped (s : Shm) (id : ℕ) : Prop := ∀ shp, s.segments.slot id = .seg shp → shp.locked = true

theorem step_skip (h : Scanning s x) (hlabel : x.label = .checkId)
    (hskip : Skipped s x.shm.swapId) : x.step swapNr = .inl { x with shm := x.shm.nextId } := by
  unfold Scan.step
  rw [hlabel, h.segments]
  cases hslot : s.segments.slot x.shm.swapId with
  | unused => rfl
  | noid => rfl
  | seg shp =>
    dsimp only
    rw [hskip shp hslot, if_pos rfl]

theorem step_enter (h : Scanning s x) (hlabel : x.label = .checkId)
    (hslot : s.segments.slot x.shm.swapId = .seg shp) (hunlocked : shp.locked = false) :
    x.step swapNr = .inl { x with label := .checkTable shp } := by
  unfold Scan.step
  rw [hlabel, h.segments, hslot]
  dsimp only
  rw [hunlocked]
  rfl

def Scan.advanced (x : Scan) : Scan := { x with shm := { x.shm with swapIdx := x.shm.swapIdx + 1 } }

theorem step_end (hlabel : x.label = .checkTable shp)
    (hend : shp.shmNpages ≤ x.shm.swapIdx) :
    x.step swapNr = .inl { x.advanced with shm := x.advanced.shm.nextId, label := .checkId } := by
  unfold Scan.step
  rw [hlabel]
  dsimp only
  rw [if_pos hend]
  rfl

section
variable (h : Scanning s x)
include h

theorem step_absent (hlabel : x.label = .checkTable shp) (hlt : x.shm.swapIdx < shp.shmNpages)
    (habsent : present (s.pages x.shm.swapId x.shm.swapIdx) = false) :
    x.step swapNr = .inl x.advanced := by
  unfold Scan.step Scan.advanced
  rw [hlabel]
  dsimp only
  rw [if_neg (not_le.mpr hlt), h.pages, habsent, if_pos (by simp)]

theorem step_present (hlabel : x.label = .checkTable shp) (hlt : x.shm.swapIdx < shp.shmNpages)
    (hpresent : present (s.pages x.shm.swapId x.shm.swapIdx) = true) :
    (x.counter - 1 < 0 ∧ ∃ r, x.step swapNr = .inr r ∧ r.value = 0 ∧ r.swapFreed = some swapNr ∧
        r.written = none ∧ r.shm.pages = s.pages ∧
        r.shm.swapAttempts = x.shm.swapAttempts + 1) ∨
      (0 ≤ x.counter - 1 ∧ ∃ y, x.step swapNr = .inl y ∧ Scanning s y ∧
        y.counter = x.counter - 1 ∧ y.shm.swapAttempts = x.shm.swapAttempts + 1) ∨
      (0 ≤ x.counter - 1 ∧ ∃ r, x.step swapNr = .inr r ∧ r.value = 1 ∧ r.swapFreed = none ∧
        r.written = some (swapNr, s.pages x.shm.swapId x.shm.swapIdx &&& pageMask) ∧
        r.shm.pages = update s.pages x.shm.swapId
          (update (s.pages x.shm.swapId) x.shm.swapIdx swapNr)) := by
  obtain ⟨hslot, hunlocked⟩ := h.table shp hlabel
  unfold Scan.step
  rw [hlabel]
  dsimp only
  rw [if_neg (not_le.mpr hlt), h.pages, hpresent, if_neg (by simp)]
  by_cases hcounter : x.counter - 1 < 0
  · rw [if_pos hcounter]
    exact Or.inl ⟨hcounter, _, rfl, rfl, rfl, rfl, rfl, rfl⟩
  · rw [if_neg hcounter]
    have hsame := unmapAttaches_same
      { x.shm with swapIdx := x.shm.swapIdx + 1, pages := s.pages,
                   swapAttempts := x.shm.swapAttempts + 1 }
      x.shm.swapId x.shm.swapIdx (s.pages x.shm.swapId x.shm.swapIdx) shp.attaches
    generalize Shm.unmapAttaches _ x.shm.swapId x.shm.swapIdx
      (s.pages x.shm.swapId x.shm.swapIdx) shp.attaches = s1 at hsame
    refine Or.inr ?_
    by_cases hmapped : s1.memMap (mapNr (s.pages x.shm.swapId x.shm.swapIdx)) ≠ 1
    · rw [if_pos hmapped]
      refine Or.inl ⟨not_lt.mp hcounter, _, rfl, ?_, rfl, hsame.swapAttempts⟩
      constructor
      · exact hsame.segments.trans h.segments
      · exact hsame.pages
      · intro shp' hshp'
        rw [hsame.swapId]
        rw [Label.checkTable.injEq] at hshp'
        rw [← hshp']
        exact ⟨hslot, hunlocked⟩
    · rw [if_neg hmapped]
      refine Or.inr ⟨not_lt.mp hcounter, _, rfl, rfl, rfl, rfl, ?_⟩
      unfold Shm.swapOut
      rw [hsame.pages]

theorem Scanning.skip (hlabel : x.label = .checkId) :
    Scanning s { x with shm := x.shm.nextId } := by
  refine ⟨h.segments, h.pages, ?_⟩
  intro shp hshp
  rw [hlabel] at hshp
  simp at hshp

theorem Scanning.enter (hslot : s.segments.slot x.shm.swapId = .seg shp)
    (hunlocked : shp.locked = false) : Scanning s { x with label := .checkTable shp } := by
  refine ⟨h.segments, h.pages, ?_⟩
  intro shp' hshp'
  rw [Label.checkTable.injEq] at hshp'
  rw [← hshp']
  exact ⟨hslot, hunlocked⟩

theorem Scanning.advance : Scanning s x.advanced :=
  ⟨h.segments, h.pages, h.table⟩

theorem Scanning.finish :
    Scanning s { x.advanced with shm := x.advanced.shm.nextId, label := .checkId } := by
  refine ⟨h.segments, h.pages, ?_⟩
  intro shp hshp
  simp at hshp

end

end Turns

/-! ## The loop ends -/

def Counted (s : Shm) (c : ℤ) (y : Scan) : Prop := Scanning s y ∧ y.counter < c ∧ 0 ≤ y.counter

structure AtSegment (s : Shm) (c : ℤ) (id : ℕ) (y : Scan) : Prop where
  scanning : Scanning s y
  counter : y.counter = c
  label : y.label = .checkId
  swapId : y.shm.swapId = id
  swapIdx : y.shm.swapIdx = 0

def Shm.nextOf (s : Shm) (id : ℕ) : ℕ := if s.segments.maxShmid < id + 1 then 0 else id + 1

section Progress

variable {s : Shm} (swapNr : UInt32)

theorem leads_of_present {x : Scan} (h : Scanning s x)
    (hlabel : x.label = .checkTable shp) (hlt : x.shm.swapIdx < shp.shmNpages)
    (hpresent : present (s.pages x.shm.swapId x.shm.swapIdx) = true) :
    Leads (Scan.step swapNr) (Counted s x.counter) x := by
  rcases step_present swapNr h hlabel hlt hpresent with
    ⟨_, r, hstep, _⟩ | ⟨hcounter, y, hstep, hy, hless, _⟩ | ⟨_, r, hstep, _⟩
  · exact Leads.ends hstep
  · apply Leads.go hstep
    apply Leads.here
    exact ⟨hy, by omega, by omega⟩
  · exact Leads.ends hstep

section
variable {x : Scan} (n : ℕ) (h : Scanning s x) (hlabel : x.label = .checkTable shp)
include h hlabel

theorem leads_through_table (hn : shp.shmNpages - x.shm.swapIdx ≤ n) :
    Leads (Scan.step swapNr)
      (fun y => Counted s x.counter y ∨ AtSegment s x.counter (s.nextOf x.shm.swapId) y) x := by
  induction n generalizing x with
  | zero =>
    apply Leads.go (step_end swapNr hlabel (by omega))
    apply Leads.here
    refine Or.inr ⟨h.finish, rfl, rfl, ?_, rfl⟩
    unfold Shm.nextOf Shm.nextId Scan.advanced
    rw [h.segments]
  | succ n ih =>
    by_cases hend : shp.shmNpages ≤ x.shm.swapIdx
    · apply Leads.go (step_end swapNr hlabel hend)
      apply Leads.here
      refine Or.inr ⟨h.finish, rfl, rfl, ?_, rfl⟩
      unfold Shm.nextOf Shm.nextId Scan.advanced
      rw [h.segments]
    · have hlt := not_le.mp hend
      cases hpage : present (s.pages x.shm.swapId x.shm.swapIdx) with
      | true => exact (leads_of_present swapNr h hlabel hlt hpage).trans fun y hy =>
          Leads.here (Or.inl hy)
      | false =>
        apply Leads.go (step_absent swapNr h hlabel hlt hpage)
        apply ih h.advance hlabel
        unfold Scan.advanced
        dsimp only
        omega

theorem leads_to_page {idx : ℕ} (hidx : idx < shp.shmNpages)
    (hpresent : present (s.pages x.shm.swapId idx) = true) (hn : x.shm.swapIdx + n = idx) :
    Leads (Scan.step swapNr) (Counted s x.counter) x := by
  induction n generalizing x with
  | zero =>
    have heq : x.shm.swapIdx = idx := hn
    rw [← heq] at hidx hpresent
    exact leads_of_present swapNr h hlabel hidx hpresent
  | succ n ih =>
    have hlt : x.shm.swapIdx < shp.shmNpages := by omega
    cases hpage : present (s.pages x.shm.swapId x.shm.swapIdx) with
    | true => exact leads_of_present swapNr h hlabel hlt hpage
    | false =>
      apply Leads.go (step_absent swapNr h hlabel hlt hpage)
      apply ih h.advance hlabel hpresent
      unfold Scan.advanced
      dsimp only
      omega

end

theorem leads_to_next {x : Scan} (h : Scanning s x) (hlabel : x.label = .checkId) :
    Leads (Scan.step swapNr)
      (fun y => Counted s x.counter y ∨ AtSegment s x.counter (s.nextOf x.shm.swapId) y) x := by
  by_cases hskip : Skipped s x.shm.swapId
  · apply Leads.go (step_skip swapNr h hlabel hskip)
    apply Leads.here
    refine Or.inr ⟨h.skip hlabel, rfl, hlabel, ?_, rfl⟩
    unfold Shm.nextOf Shm.nextId
    rw [h.segments]
  · unfold Skipped at hskip
    push Not at hskip
    obtain ⟨shp, hslot, hlocked⟩ := hskip
    have hunlocked : shp.locked = false := by simpa using hlocked
    apply Leads.go (step_enter swapNr h hlabel hslot hunlocked)
    exact leads_through_table swapNr _ (h.enter hslot hunlocked) rfl le_rfl

theorem leads_to_first (n : ℕ) {x : Scan} (h : Scanning s x) (hlabel : x.label = .checkId)
    (hn : s.segments.maxShmid - x.shm.swapId ≤ n) :
    Leads (Scan.step swapNr) (fun y => Counted s x.counter y ∨ AtSegment s x.counter 0 y) x := by
  induction n generalizing x with
  | zero =>
    have hnext : s.nextOf x.shm.swapId = 0 := if_pos (by omega)
    have hleads := leads_to_next swapNr h hlabel
    rw [hnext] at hleads
    exact hleads
  | succ n ih =>
    apply (leads_to_next swapNr h hlabel).trans
    rintro y (hcounted | hsegment)
    · exact Leads.here (Or.inl hcounted)
    · by_cases hwrap : s.segments.maxShmid < x.shm.swapId + 1
      · have hnext : s.nextOf x.shm.swapId = 0 := if_pos hwrap
        rw [hnext] at hsegment
        exact Leads.here (Or.inr hsegment)
      · have hnext : s.nextOf x.shm.swapId = x.shm.swapId + 1 := if_neg hwrap
        have hrest := ih hsegment.scanning hsegment.label (by rw [hsegment.swapId]; omega)
        rw [hsegment.counter] at hrest
        exact hrest

theorem leads_to_candidate {id idx : ℕ} (hcandidate : Candidate s id idx shp)
    (n : ℕ) {c : ℤ} {k : ℕ} (hn : k + n = id) {x : Scan} (h : AtSegment s c k x) :
    Leads (Scan.step swapNr) (Counted s c) x := by
  induction n generalizing x k with
  | zero =>
    have hid : x.shm.swapId = id := h.swapId.trans hn
    have hslot := hcandidate.slot
    rw [← hid] at hslot
    rw [← h.counter]
    apply Leads.go (step_enter swapNr h.scanning h.label hslot hcandidate.unlocked)
    have hpage := leads_to_page swapNr idx
      (h.scanning.enter hslot hcandidate.unlocked) rfl hcandidate.idx_lt
      (by
        rw [hid]
        exact hcandidate.present)
      (by
        rw [h.swapIdx, zero_add])
    exact hpage
  | succ n ih =>
    have hused := s.segments.used id shp hcandidate.slot
    have hnext : s.nextOf x.shm.swapId = k + 1 := by
      rw [h.swapId]
      exact if_neg (by omega)
    have hleads := leads_to_next swapNr h.scanning h.label
    rw [hnext, h.counter] at hleads
    apply hleads.trans
    rintro y (hcounted | hsegment)
    · exact Leads.here hcounted
    · exact ih (by omega) hsegment

theorem leads_counted (hs : s.HasCandidate) {x : Scan} (h : Scanning s x) :
    Leads (Scan.step swapNr) (Counted s x.counter) x := by
  obtain ⟨id, idx, shp, hcandidate⟩ := hs
  have hround : ∀ y, Scanning s y → y.label = .checkId →
      Leads (Scan.step swapNr) (Counted s y.counter) y := by
    intro y hy hlabel
    apply (leads_to_first swapNr _ hy hlabel le_rfl).trans
    rintro z (hcounted | hsegment)
    · exact Leads.here hcounted
    · exact leads_to_candidate swapNr hcandidate id (zero_add id) hsegment
  cases hlabel : x.label with
  | checkId => exact hround x h hlabel
  | checkTable shp' =>
    apply (leads_through_table swapNr _ h hlabel le_rfl).trans
    rintro y (hcounted | hsegment)
    · exact Leads.here hcounted
    · have hrest := hround y hsegment.scanning hsegment.label
      rw [hsegment.counter] at hrest
      exact hrest

theorem scan_returns (hs : s.HasCandidate) (n : ℕ) {x : Scan} (h : Scanning s x)
    (hn : x.counter ≤ n) : ∃ r, Returns (Scan.step swapNr) x r := by
  induction n generalizing x with
  | zero =>
    apply (leads_counted swapNr hs h).returns
    rintro y ⟨_, hless, hnonneg⟩
    omega
  | succ n ih =>
    apply (leads_counted swapNr hs h).returns
    rintro y ⟨hy, hless, _⟩
    apply ih hy
    omega

theorem scan_goes_on (hs : ¬s.HasCandidate) {x : Scan} (h : Scanning s x) :
    ∃ y, x.step swapNr = .inl y ∧ Scanning s y := by
  cases hlabel : x.label with
  | checkId =>
    by_cases hskip : Skipped s x.shm.swapId
    · exact ⟨_, step_skip swapNr h hlabel hskip, h.skip hlabel⟩
    · unfold Skipped at hskip
      push Not at hskip
      obtain ⟨shp, hslot, hlocked⟩ := hskip
      have hunlocked : shp.locked = false := by simpa using hlocked
      exact ⟨_, step_enter swapNr h hlabel hslot hunlocked, h.enter hslot hunlocked⟩
  | checkTable shp =>
    by_cases hend : shp.shmNpages ≤ x.shm.swapIdx
    · exact ⟨_, step_end swapNr hlabel hend, h.finish⟩
    · have hlt := not_le.mp hend
      obtain ⟨hslot, hunlocked⟩ := h.table shp hlabel
      have habsent : present (s.pages x.shm.swapId x.shm.swapIdx) = false := by
        by_contra hpresent
        exact hs ⟨_, _, shp, hslot, hunlocked, hlt, by simpa using hpresent⟩
      exact ⟨_, step_absent swapNr h hlabel hlt habsent, h.advance⟩

structure Counting (s : Shm) (c : ℤ) (x : Scan) : Prop where
  scanning : Scanning s x
  attempts : (x.shm.swapAttempts : ℤ) = s.swapAttempts + c - x.counter
  le : x.counter ≤ c
  nonneg : 0 ≤ x.counter ∨ x.counter = c

theorem Counting.next {c : ℤ} {x y : Scan} (h : Counting s c x)
    (hstep : x.step swapNr = .inl y) : Counting s c y := by
  cases hlabel : x.label with
  | checkId =>
    by_cases hskip : Skipped s x.shm.swapId
    · rw [step_skip swapNr h.scanning hlabel hskip, Sum.inl.injEq] at hstep
      rw [← hstep]
      exact ⟨h.scanning.skip hlabel, h.attempts, h.le, h.nonneg⟩
    · unfold Skipped at hskip
      push Not at hskip
      obtain ⟨shp, hslot, hlocked⟩ := hskip
      have hunlocked : shp.locked = false := by simpa using hlocked
      rw [step_enter swapNr h.scanning hlabel hslot hunlocked, Sum.inl.injEq] at hstep
      rw [← hstep]
      exact ⟨h.scanning.enter hslot hunlocked, h.attempts, h.le, h.nonneg⟩
  | checkTable shp =>
    by_cases hend : shp.shmNpages ≤ x.shm.swapIdx
    · rw [step_end swapNr hlabel hend, Sum.inl.injEq] at hstep
      rw [← hstep]
      exact ⟨h.scanning.finish, h.attempts, h.le, h.nonneg⟩
    · have hlt := not_le.mp hend
      cases hpage : present (s.pages x.shm.swapId x.shm.swapIdx) with
      | false =>
        rw [step_absent swapNr h.scanning hlabel hlt hpage, Sum.inl.injEq] at hstep
        rw [← hstep]
        exact ⟨h.scanning.advance, h.attempts, h.le, h.nonneg⟩
      | true =>
        rcases step_present swapNr h.scanning hlabel hlt hpage with
          ⟨_, r, hend', _⟩ | ⟨hcounter, z, hgo, hz, hless, hattempts⟩ | ⟨_, r, hend', _⟩
        · rw [hend'] at hstep
          simp at hstep
        · rw [hgo, Sum.inl.injEq] at hstep
          rw [← hstep]
          have hold := h.attempts
          have hle := h.le
          exact ⟨hz, by rw [hattempts, hless]; push_cast; omega, by omega, by omega⟩
        · rw [hend'] at hstep
          simp at hstep

theorem Counting.result {prio : ℕ} {x : Scan} (h : Counting s (s.counter prio) x) {r : Result}
    (hstep : x.step swapNr = .inr r) : SwapSpec s prio swapNr r := by
  cases hlabel : x.label with
  | checkId =>
    by_cases hskip : Skipped s x.shm.swapId
    · rw [step_skip swapNr h.scanning hlabel hskip] at hstep
      simp at hstep
    · unfold Skipped at hskip
      push Not at hskip
      obtain ⟨shp, hslot, hlocked⟩ := hskip
      have hunlocked : shp.locked = false := by simpa using hlocked
      rw [step_enter swapNr h.scanning hlabel hslot hunlocked] at hstep
      simp at hstep
  | checkTable shp =>
    by_cases hend : shp.shmNpages ≤ x.shm.swapIdx
    · rw [step_end swapNr hlabel hend] at hstep
      simp at hstep
    · have hlt := not_le.mp hend
      obtain ⟨hslot, hunlocked⟩ := h.scanning.table shp hlabel
      cases hpage : present (s.pages x.shm.swapId x.shm.swapIdx) with
      | false =>
        rw [step_absent swapNr h.scanning hlabel hlt hpage] at hstep
        simp at hstep
      | true =>
        rcases step_present swapNr h.scanning hlabel hlt hpage with
          ⟨hcounter, r', hend', hvalue, hfreed, hwritten, hpages, hattempts⟩ |
            ⟨_, z, hgo, _⟩ | ⟨_, r', hend', hvalue, hfreed, hwritten, hpages⟩
        · rw [hend', Sum.inr.injEq] at hstep
          rw [← hstep]
          apply SwapSpec.failed hvalue hfreed hwritten hpages
          have hold := h.attempts
          have hle := h.le
          rcases h.nonneg with hnonneg | hsame
          · omega
          · omega
        · rw [hgo] at hstep
          simp at hstep
        · rw [hend', Sum.inr.injEq] at hstep
          rw [← hstep]
          exact SwapSpec.swapped _ _ shp ⟨hslot, hunlocked, hlt, hpage⟩ hvalue hfreed
            hwritten hpages

end Progress

/-- `shm_swap` returns, and does what it is to do, if and only if there is nothing to
count, no swap page, or a present page in a segment that is not locked. -/
theorem shmSwap_returns_iff (s : Shm) (prio : ℕ) (swapNr : UInt32) :
    (∃ r, s.ShmSwapReturns prio swapNr r ∧ SwapSpec s prio swapNr r) ↔
      s.counter prio = 0 ∨ swapNr = 0 ∨ s.HasCandidate := by
  have hstart : Scanning s { shm := s, counter := s.counter prio, label := .checkId } :=
    ⟨rfl, rfl, by simp⟩
  by_cases hskip : s.counter prio = 0 ∨ swapNr = 0
  · constructor
    · intro _
      tauto
    · intro _
      refine ⟨⟨s, 0, none, none⟩, ?_, SwapSpec.nothing hskip rfl⟩
      unfold Shm.ShmSwapReturns
      rw [if_pos hskip]
  · have hreturns : ∀ r, s.ShmSwapReturns prio swapNr r ↔ Returns (Scan.step swapNr)
        { shm := s, counter := s.counter prio, label := .checkId } r := by
      intro r
      unfold Shm.ShmSwapReturns
      rw [if_neg hskip]
    constructor
    · rintro ⟨r, hr, _⟩
      rw [hreturns] at hr
      by_contra hnot
      have hnone : ¬s.HasCandidate := by tauto
      exact not_returns (fun x hx => scan_goes_on swapNr hnone hx) hstart r hr
    · intro hcondition
      have hcandidate : s.HasCandidate := by tauto
      obtain ⟨r, hr⟩ := scan_returns swapNr hcandidate (s.counter prio).toNat hstart
        (Int.self_le_toNat _)
      refine ⟨r, (hreturns r).mpr hr, ?_⟩
      have hcounting : Counting s (s.counter prio)
          { shm := s, counter := s.counter prio, label := .checkId } :=
        ⟨hstart, by dsimp only; omega, le_rfl, Or.inr rfl⟩
      exact hr.result (I := Counting s (s.counter prio)) (P := SwapSpec s prio swapNr)
        (fun _ _ hx hstep => hx.next swapNr hstep)
          (fun _ _ hx hstep => hx.result swapNr hstep) hcounting

def lockedSegment : Shm where
  segments :=
    { slot := fun id => if id = 0 then .seg ⟨true, 1, []⟩ else .unused
      maxShmid := 0
      used := by
        intro id shp h
        split at h
        · omega
        · simp at h }
  pages := fun id idx => if id = 0 ∧ idx = 0 then 0x100067 else 0
  swapId := 0
  swapIdx := 0
  shmRss := 1
  shmSwp := 0
  swapAttempts := 0
  swapSuccesses := 0
  cr3 := fun _ => 0
  dirs := fun _ _ => .absent 0
  taskRss := fun _ => 0
  memMap := fun frame => if frame = 0x100 then 1 else 0

theorem lockedSegment_never_returns : ¬∃ r, lockedSegment.ShmSwapReturns 0 2 r := by
  have hnone : ¬lockedSegment.HasCandidate := by
    rintro ⟨id, idx, shp, hcandidate⟩
    have hslot := hcandidate.slot
    have hunlocked := hcandidate.unlocked
    simp only [lockedSegment] at hslot
    split at hslot
    · rw [Slot.seg.injEq] at hslot
      rw [← hslot] at hunlocked
      simp at hunlocked
    · simp at hslot
  rintro ⟨r, hr⟩
  unfold Shm.ShmSwapReturns at hr
  exact not_returns (fun x hx => scan_goes_on 2 hnone hx) (I := Scanning lockedSegment)
    ⟨rfl, rfl, by simp⟩ r hr

end LinuxKernel.ShmSwap
