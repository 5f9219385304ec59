import LinuxKernel.RecordLockScan
import LinuxKernel.SegmentMap

/-!
# `lock_it` on a sorted chain

When the entries of the caller's owner and descriptor are sorted and disjoint,
the scan keeps exactly the entries below the range it is building, and the
trimming afterwards leaves the old segments with one range replaced.  The
exception is the range that ends in `OFFSET_MAX`, for which
`caller->fl_end + 1` is negative and the scan stops at the first entry it
should have merged.
-/

namespace LinuxKernel.RecordLock
open List

/-! ## The scan on a sorted chain -/

structure OwnSorted (h0 : LockHeap) (own : List Entry) : Prop where
  ordered : own.Pairwise fun x y =>
    (h0.table x).flEnd < (h0.table y).flStart
  valid : ∀ x ∈ own, (h0.table x).Valid
  type : ∀ x ∈ own, (h0.table x).flType = .rdlck ∨ (h0.table x).flType = .wrlck

def lowEntries (h0 : LockHeap) (gone : List Entry) (start : ℤ) : List Entry :=
  gone.filter fun x => (h0.table x).flStart < start

/-- The scan of a sorted chain: `gone` has been passed, and of it exactly
the entries that begin below the caller's range are kept, followed by the
caller's own entry if it has one. -/
structure MapInv (h0 : LockHeap) (req : FileLock) (pre gone : List Entry)
    (s : Scan) (rest : List Entry) : Prop where
  before_eq : s.before = pre ++ (lowEntries h0 gone s.callerLock.flStart ++ s.caller.toList)
  cells_low : ∀ x ∈ lowEntries h0 gone s.callerLock.flStart, s.heap.table x = h0.table x
  cells_rest : ∀ x ∈ rest, s.heap.table x = h0.table x
  gone_end : ∀ x ∈ gone, (h0.table x).flEnd ≤ s.callerLock.flEnd
  start_le : s.callerLock.flStart ≤ req.flStart
  le_end : req.flEnd ≤ s.callerLock.flEnd
  widened : ∀ b, s.callerLock.Covers b → ¬ req.Covers b →
    ∃ x ∈ gone, (h0.table x).flType = req.flType ∧ (h0.table x).Covers b
  caller_none : s.caller = none → s.callerLock = req
  ahead : s.caller ≠ none ∨ s.left ≠ none → ∀ x ∈ rest, req.flStart ≤ (h0.table x).flStart
  low : ∀ x ∈ gone, (h0.table x).flStart < s.callerLock.flStart →
    s.left ≠ some x → (h0.table x).flEnd < s.callerLock.flStart
  left_spec : ∀ l, s.left = some l → l ∈ gone ∧
    (h0.table l).flStart < s.callerLock.flStart ∧ s.callerLock.flStart = req.flStart
  end_cases : s.callerLock.flEnd = req.flEnd ∨ ∀ x ∈ rest, s.callerLock.flEnd < (h0.table x).flStart
  added_iff : req.flType ≠ .unlck → (s.added = true ↔ s.caller ≠ none)
  unlck : req.flType = .unlck → s.caller = none

variable {h0 : LockHeap} {req : FileLock} {s : Scan} {a : Entry}
  {pre own done gone rest : List Entry}

variable {start : ℤ}

theorem lowEntries_append_of_lt (gone : List Entry)
    (hlt : (h0.table a).flStart < start) :
    lowEntries h0 (gone ++ [a]) start = lowEntries h0 gone start ++ [a] := by
  simp [lowEntries, hlt]

theorem lowEntries_append_of_le
    (hle : start ≤ (h0.table a).flStart) :
    lowEntries h0 (gone ++ [a]) start = lowEntries h0 gone start := by
  simp [lowEntries, hle]

variable {x : Entry}

theorem mem_lowEntries :
    x ∈ lowEntries h0 gone start ↔ x ∈ gone ∧ (h0.table x).flStart < start := by
  simp [lowEntries]

theorem MapInv.initial : MapInv h0 req pre []
    ⟨h0, pre, req, none, none, none, false⟩ own := by
  constructor <;> simp [Scan.callerLock, lowEntries]

/-- Order between what the scan has passed, its position and what is left. -/
structure OwnOrder (h0 : LockHeap) (gone : List Entry) (a : Entry)
    (rest : List Entry) : Prop where
  valid : (h0.table a).Valid
  type : (h0.table a).flType ≠ .unlck
  gone_lt : ∀ x ∈ gone, (h0.table x).flEnd < (h0.table a).flStart
  gone_valid : ∀ x ∈ gone, (h0.table x).Valid
  rest_lt : ∀ x ∈ rest, (h0.table a).flEnd < (h0.table x).flStart

theorem OwnSorted.order (hsorted : OwnSorted h0 (gone ++ a :: rest)) : OwnOrder h0 gone a rest := by
  have hpair := pairwise_append.mp hsorted.ordered
  have htail := pairwise_cons.mp hpair.2.1
  constructor
  · exact hsorted.valid a (by simp)
  · rcases hsorted.type a (by simp) with h | h <;> simp [h]
  · intro x hx
    exact hpair.2.2 x hx a (by simp)
  · intro x hx
    exact hsorted.valid x (by simp [hx])
  · exact htail.1

section
variable (hmap : MapInv h0 req pre gone s rest) (hinv : ScanInv h0 req pre own done s rest)
include hmap hinv

theorem MapInv.done_eq : done = lowEntries h0 gone s.callerLock.flStart ++ s.caller.toList := by
  have h := hinv.before_eq.symm.trans hmap.before_eq
  exact append_cancel_left h

theorem MapInv.caller_ne_low (hnodup : (own ++ h0.freeList).Nodup)
    (hx : x ∈ lowEntries h0 gone s.callerLock.flStart) : s.caller ≠ some x := by
  intro hc
  have hdone := (hinv.perm.nodup_iff.mpr hnodup).of_append_left
  rw [hmap.done_eq hinv, hc, nodup_append] at hdone
  exact hdone.2.2 x hx x (by simp) rfl

end

theorem MapInv.caller_ne_rest (hinv : ScanInv h0 req pre own done s rest)
    (hnodup : (own ++ h0.freeList).Nodup) (hx : x ∈ rest) :
    s.caller ≠ some x := by
  intro hc
  have hdone := hinv.perm.nodup_iff.mpr hnodup
  rw [nodup_append] at hdone
  exact hdone.2.2 x (hinv.caller_mem x hc) x (by simp [hx]) rfl

section Turn

variable (hmap : MapInv h0 req pre gone s (a :: rest))
  (horder : OwnOrder h0 gone a rest)

include hmap

theorem MapInv.caller_none_of_lt
    (hlt : (h0.table a).flStart < s.callerLock.flStart) :
    s.caller = none ∧ s.left = none := by
  have hle := hmap.start_le
  constructor
  · by_contra hne
    have h := hmap.ahead (.inl hne) a (by simp)
    omega
  · by_contra hne
    have h := hmap.ahead (.inr hne) a (by simp)
    omega

include horder

theorem MapInv.keep {s' : Scan} (hheap : s'.heap = s.heap)
    (hlock : s'.fileLock = s.fileLock) (hcaller : s'.caller = s.caller)
    (hbefore : s'.before = s.before ++ [a])
    (hstart : (h0.table a).flStart < s.callerLock.flStart)
    (hend : (h0.table a).flEnd ≤ s.callerLock.flEnd)
    (hleft : s'.left = some a ∧ s.callerLock.flStart ≤ (h0.table a).flEnd ∨
      s'.left = none ∧ (h0.table a).flEnd < s.callerLock.flStart)
    (hadded : req.flType ≠ .unlck → s'.added = s.added) :
    MapInv h0 req pre (gone ++ [a]) s' rest := by
  obtain ⟨hnone, hleftNone⟩ := hmap.caller_none_of_lt hstart
  have hc : s'.callerLock = s.callerLock := by
    simp [Scan.callerLock, hcaller, hnone, hlock]
  have hreq := hmap.caller_none hnone
  have hlow := lowEntries_append_of_lt gone hstart
  constructor
  · rw [hbefore, hmap.before_eq, hc, hlow, hcaller, hnone]
    simp
  · intro x hx
    rw [hc, hlow] at hx
    rw [hheap]
    rcases mem_append.mp hx with hx | hx
    · exact hmap.cells_low x hx
    · obtain rfl := mem_singleton.mp hx
      exact hmap.cells_rest x (by simp)
  · intro x hx
    rw [hheap]
    exact hmap.cells_rest x (by simp [hx])
  · intro x hx
    rw [hc]
    rcases mem_append.mp hx with hx | hx
    · exact hmap.gone_end x hx
    · obtain rfl := mem_singleton.mp hx
      exact hend
  · rw [hc]
    exact hmap.start_le
  · rw [hc]
    exact hmap.le_end
  · intro b hb hnot
    rw [hc, hreq] at hb
    exact absurd hb hnot
  · intro _
    rw [hc]
    exact hreq
  · intro hor x hx
    have hlt := horder.rest_lt x hx
    rcases hleft with ⟨_, hle⟩ | ⟨hl, _⟩
    · rw [hreq] at hle
      omega
    · rw [hcaller, hnone, hl] at hor
      simp at hor
  · intro x hx hlt hne
    rw [hc] at hlt ⊢
    rcases mem_append.mp hx with hx | hx
    · exact hmap.low x hx hlt (by simp [hleftNone])
    · obtain rfl := mem_singleton.mp hx
      rcases hleft with ⟨hl, _⟩ | ⟨_, hlt'⟩
      · exact absurd hl hne
      · exact hlt'
  · intro l hl
    rcases hleft with ⟨hl', _⟩ | ⟨hl', _⟩
    · obtain rfl : a = l := by simpa [hl'] using hl
      rw [hc]
      exact ⟨by simp, hstart, by rw [hreq]⟩
    · simp [hl'] at hl
  · left
    rw [hc, hreq]
  · intro hne
    rw [hadded hne, hcaller]
    exact hmap.added_iff hne
  · intro _
    rw [hcaller]
    exact hnone

theorem MapInv.absorb {s' : Scan}
    (hbefore : s'.before = pre ++ (lowEntries h0 gone s.callerLock.flStart ++ s'.caller.toList))
    (hcells : ∀ x, x ∈ lowEntries h0 gone s.callerLock.flStart ∨ x ∈ rest →
      s'.heap.table x = s.heap.table x)
    (hstart : s'.callerLock.flStart = min s.callerLock.flStart (h0.table a).flStart)
    (hend : s'.callerLock.flEnd = max s.callerLock.flEnd (h0.table a).flEnd)
    (hcover : ∀ b, s'.callerLock.Covers b → s.callerLock.Covers b ∨
      ((h0.table a).flType = req.flType ∧ (h0.table a).Covers b))
    (hlow : s.callerLock.flStart - 1 ≤ (h0.table a).flEnd)
    (hleft : s'.left = s.left)
    (hcaller : s'.caller = none → s'.callerLock = req)
    (hadded : req.flType ≠ .unlck → s'.added = true ∧ s'.caller ≠ none)
    (hunlck : req.flType = .unlck → s'.caller = none) :
    MapInv h0 req pre (gone ++ [a]) s' rest := by
  have hfront : s'.callerLock.flStart < s.callerLock.flStart → s.caller = none ∧ s.left = none := by
    intro hlt
    apply hmap.caller_none_of_lt
    omega
  have hsame : lowEntries h0 (gone ++ [a]) s'.callerLock.flStart =
      lowEntries h0 gone s.callerLock.flStart := by
    rw [lowEntries_append_of_le (by omega)]
    apply filter_congr
    intro x hx
    have h1 := horder.gone_lt x hx
    have h2 := (horder.gone_valid x hx).start_le_end
    simp only [decide_eq_decide]
    omega
  have hahead : ∀ x ∈ rest, req.flStart ≤ (h0.table x).flStart := by
    intro x hx
    have hlt := horder.rest_lt x hx
    by_cases hnone : s.caller = none
    · rw [hmap.caller_none hnone] at hlow
      omega
    · have h := hmap.ahead (.inl hnone) x (by simp [hx])
      exact h
  constructor
  · rw [hbefore, hsame]
  · intro x hx
    rw [hsame] at hx
    rw [hcells x (.inl hx)]
    exact hmap.cells_low x hx
  · intro x hx
    rw [hcells x (.inr hx)]
    exact hmap.cells_rest x (by simp [hx])
  · intro x hx
    rcases mem_append.mp hx with hx | hx
    · have h := hmap.gone_end x hx
      omega
    · obtain rfl := mem_singleton.mp hx
      omega
  · have h := hmap.start_le
    omega
  · have h := hmap.le_end
    omega
  · intro b hb hnot
    rcases hcover b hb with h | ⟨htype, h⟩
    · obtain ⟨x, hx, hx'⟩ := hmap.widened b h hnot
      exact ⟨x, by simp [hx], hx'⟩
    · exact ⟨a, by simp, htype, h⟩
  · exact hcaller
  · exact fun _ => hahead
  · intro x hx hlt hne
    rcases mem_append.mp hx with hx | hx
    · by_cases hmoved : s'.callerLock.flStart < s.callerLock.flStart
      · have h := horder.gone_lt x hx
        omega
      · rw [hleft] at hne
        have h := hmap.low x hx (by omega) hne
        omega
    · obtain rfl := mem_singleton.mp hx
      omega
  · intro l hl
    rw [hleft] at hl
    obtain ⟨h1, h2, h3⟩ := hmap.left_spec l hl
    have hstay : ¬ s'.callerLock.flStart < s.callerLock.flStart := by
      intro hlt
      simp [(hfront hlt).2] at hl
    exact ⟨by simp [h1], by omega, by omega⟩
  · by_cases hmoved : s.callerLock.flEnd < (h0.table a).flEnd
    · right
      intro x hx
      have h := horder.rest_lt x hx
      omega
    · rcases hmap.end_cases with h | h
      · left
        omega
      · right
        intro x hx
        have h := h x (by simp [hx])
        omega
  · intro hne
    exact ⟨fun _ => (hadded hne).2, fun _ => (hadded hne).1⟩
  · exact hunlck

end Turn

theorem ScanInv.head_ne (hinv : ScanInv h0 req pre own done s (a :: rest))
    (hnodup : (own ++ h0.freeList).Nodup)
    (hx : x ∈ done ∨ x ∈ rest) : x ≠ a := by
  rintro rfl
  have h := hinv.perm.nodup_iff.mpr hnodup
  rw [nodup_append, cons_append, nodup_cons] at h
  rcases hx with hx | hx
  · exact h.2.2 x hx x (by simp) rfl
  · exact h.2.1.1 (by simp [hx])

theorem Scan.freeHead_callerLock (hne : s.caller ≠ some a) :
    (s.freeHead a).callerLock = s.callerLock := by
  cases hc : s.caller with
  | none => simp [Scan.callerLock, Scan.freeHead, hc]
  | some c =>
    have hca : c ≠ a := by
      rintro rfl
      exact hne hc
    simp [Scan.callerLock, Scan.freeHead, freeLock, hc, hca]

theorem Scan.freeHead_table_ne (hne : x ≠ a) : (s.freeHead a).heap.table x = s.heap.table x := by
  simp [Scan.freeHead, freeLock, hne]

section
variable (hmap : MapInv h0 req pre gone s (a :: rest))
  (hinv : ScanInv h0 req pre own done s (a :: rest)) (hnodup : (own ++ h0.freeList).Nodup)
include hmap hinv hnodup

theorem MapInv.untouched (hx : x ∈ lowEntries h0 gone s.callerLock.flStart ∨ x ∈ rest) :
    x ≠ a ∧ s.caller ≠ some x := by
  rcases hx with hx | hx
  · refine ⟨hinv.head_ne hnodup (.inl ?_), hmap.caller_ne_low hinv hnodup hx⟩
    rw [hmap.done_eq hinv]
    simp [hx]
  · exact ⟨hinv.head_ne hnodup (.inr hx), MapInv.caller_ne_rest hinv hnodup (by simp [hx])⟩

theorem MapInv.turn (horder : OwnOrder h0 gone a rest) {s' : Scan} (hturn : s.Turn a s') :
    MapInv h0 req pre (gone ++ [a]) s' rest := by
  have hcell : s.heap.table a = h0.table a := hmap.cells_rest a (by simp)
  have hvalid := hinv.caller_valid
  have hpred := toOffT_pred hvalid.start_nonneg
    (hvalid.start_le_end.trans hvalid.end_le)
  have hspec := Scan.merge_spec (hinv.caller_ne_head hnodup)
  have hhull : ∀ {c : FileLock},
      c = s.callerLock.hull (s.heap.table a) →
      s.callerLock.flType = (s.heap.table a).flType →
      toOffT (s.callerLock.flStart - 1) ≤ (s.heap.table a).flEnd →
      (s.heap.table a).flStart ≤ toOffT (s.callerLock.flEnd + 1) →
      ∀ b, c.Covers b → s.callerLock.Covers b ∨
        ((h0.table a).flType = req.flType ∧ (h0.table a).Covers b) := by
    rintro c rfl htype hlow hhigh b ⟨hb1, hb2⟩
    rw [hcell] at htype hlow hhigh hb1 hb2
    have hsucc := toOffT_succ_cases
      (hvalid.start_nonneg.trans hvalid.start_le_end) hvalid.end_le
    have hnonneg := horder.valid.start_nonneg
    simp only [FileLock.hull] at hb1 hb2
    by_cases hb : s.callerLock.Covers b
    · exact .inl hb
    · right
      refine ⟨htype.symm.trans hinv.caller_type, ?_⟩
      unfold FileLock.Covers at hb ⊢
      omega
  cases hturn with
  | below hend htouch =>
    rw [hcell] at hend
    have hstart := horder.valid.start_le_end.trans_lt hend
    apply hmap.keep horder
    · rfl
    · rfl
    · rfl
    · rfl
    · exact hstart
    · have h := hvalid.start_le_end
      omega
    · exact .inr ⟨(hmap.caller_none_of_lt hstart).2, hend⟩
    · exact fun _ => rfl
  | left htype hstart hlow hend =>
    rw [hcell] at hstart hlow hend
    apply hmap.keep horder
    · rfl
    · rfl
    · rfl
    · rfl
    · exact hstart
    · exact hend
    · left
      refine ⟨?_, hlow⟩
      change (if (s.heap.table a).flStart < s.callerLock.flStart
        then some a else s.left) = some a
      rw [hcell, if_pos hstart]
    · intro hne
      rw [← hinv.caller_type] at hne
      simp [Scan.nextLock, Scan.mark, hne]
  | mergeFree htype hlow hhigh hadded =>
    have hne : req.flType ≠ .unlck := by
      rw [← hinv.caller_type, htype, hcell]
      exact horder.type
    have hcaller : s.caller ≠ none := (hmap.added_iff hne).mp hadded
    have hlock : (((s.mergeStart a).mergeEnd a).freeHead a).callerLock =
        s.callerLock.hull (s.heap.table a) := by
      rw [Scan.freeHead_callerLock, hspec.callerLock]
      rw [hspec.caller]
      exact hinv.caller_ne_head hnodup
    have hcaller' : (((s.mergeStart a).mergeEnd a).freeHead a).caller = s.caller := hspec.caller
    apply hmap.absorb horder
    · change ((s.mergeStart a).mergeEnd a).before = _
      rw [hspec.before, hcaller']
      exact hmap.before_eq
    · intro x hx
      obtain ⟨hxa, hxc⟩ := hmap.untouched hinv hnodup hx
      rw [Scan.freeHead_table_ne hxa]
      exact hspec.table_ne x hxa hxc
    · rw [hlock, hcell]
      simp [FileLock.hull, min_comm]
    · rw [hlock, hcell]
      simp [FileLock.hull, max_comm]
    · exact hhull hlock htype hlow hhigh
    · rw [hcell, hpred] at hlow
      exact hlow
    · exact hspec.left
    · intro hnone
      exact absurd (hcaller' ▸ hnone) hcaller
    · intro _
      exact ⟨hspec.added.trans hadded, hcaller' ▸ hcaller⟩
    · exact fun h => absurd h hne
  | mergeAdopt htype hlow hhigh hadded =>
    have hne : req.flType ≠ .unlck := by
      rw [← hinv.caller_type, htype, hcell]
      exact horder.type
    have hcaller : s.caller = none := by
      by_contra h
      rw [(hmap.added_iff hne).mpr h] at hadded
      cases hadded
    set s1 := { (s.mergeStart a).mergeEnd a with
      caller := some a, added := true } with hs1
    have hstart : s1.callerLock.flStart = (s.callerLock.hull (s.heap.table a)).flStart := by
      simp [hs1, Scan.callerLock, hspec.table_head, FileLock.hull, min_comm]
    have hend : s1.callerLock.flEnd = (s.callerLock.hull (s.heap.table a)).flEnd := by
      simp [hs1, Scan.callerLock, hspec.table_head, FileLock.hull, max_comm]
    apply hmap.absorb horder
    · change ((s.mergeStart a).mergeEnd a).before ++ [a] = _
      rw [hspec.before, hmap.before_eq, hcaller]
      simp [Scan.nextLock, hs1]
    · intro x hx
      obtain ⟨hxa, hxc⟩ := hmap.untouched hinv hnodup hx
      exact hspec.table_ne x hxa hxc
    · change s1.callerLock.flStart = _
      rw [hstart, hcell]
      simp [FileLock.hull, min_comm]
    · change s1.callerLock.flEnd = _
      rw [hend, hcell]
      simp [FileLock.hull, max_comm]
    · rintro b ⟨hb1, hb2⟩
      exact hhull rfl htype hlow hhigh b
        ⟨hstart ▸ hb1, hend ▸ hb2⟩
    · rw [hcell, hpred] at hlow
      exact hlow
    · exact hspec.left
    · simp [Scan.nextLock, hs1]
    · simp [Scan.nextLock, hs1]
    · exact fun h => absurd h hne
  | free htype hstart hlow hend hadded =>
    rw [Scan.mark_of_le hstart]
    rw [hcell] at hstart hlow hend
    set s0 : Scan :=
      { s with added := s.added || decide (s.callerLock.flType = .unlck) }
      with hs0
    have hlock : (s0.freeHead a).callerLock = s.callerLock :=
      Scan.freeHead_callerLock (hinv.caller_ne_head hnodup)
    apply hmap.absorb horder
    · exact hmap.before_eq
    · intro x hx
      obtain ⟨hxa, _⟩ := hmap.untouched hinv hnodup hx
      exact Scan.freeHead_table_ne hxa
    · rw [hlock]
      omega
    · rw [hlock]
      omega
    · intro b hb
      exact .inl (hlock ▸ hb)
    · omega
    · rfl
    · intro hnone
      rw [hlock]
      exact hmap.caller_none hnone
    · intro hne
      have hs : s.added = true := by
        rcases hadded with h | h
        · exact h
        · exact absurd (hinv.caller_type ▸ h) hne
      exact ⟨by simp [Scan.freeHead, hs0, hs], (hmap.added_iff hne).mp hs⟩
    · exact hmap.unlck
  | replace htype hunlck hstart hlow hend hadded =>
    have hne : req.flType ≠ .unlck := hinv.caller_type ▸ hunlck
    have hcaller : s.caller = none := by
      by_contra h
      rw [(hmap.added_iff hne).mpr h] at hadded
      cases hadded
    rw [Scan.mark_of_le hstart]
    rw [hcell] at hstart hlow hend
    set s0 : Scan :=
      { s with added := s.added || decide (s.callerLock.flType = .unlck) }
    have hlock0 : s0.callerLock = s.callerLock := rfl
    have hrange : ((s0.replaceEntry a).nextLock a).callerLock.flStart = s.callerLock.flStart ∧
        ((s0.replaceEntry a).nextLock a).callerLock.flEnd = s.callerLock.flEnd := by
      rw [← hlock0]
      simp [Scan.replaceEntry, Scan.nextLock, Scan.callerLock, Scan.setEntry, LockHeap.set]
    apply hmap.absorb horder
    · change s.before ++ [a] = _
      rw [hmap.before_eq, hcaller]
      simp [Scan.nextLock, Scan.replaceEntry]
    · intro x hx
      obtain ⟨hxa, _⟩ := hmap.untouched hinv hnodup hx
      exact Scan.setEntry_table_ne s0 a x _ hxa
    · omega
    · omega
    · rintro b ⟨hb1, hb2⟩
      exact .inl ⟨hrange.1 ▸ hb1, hrange.2 ▸ hb2⟩
    · omega
    · rfl
    · simp [Scan.nextLock, Scan.replaceEntry]
    · simp [Scan.nextLock, Scan.replaceEntry]
    · exact fun h => absurd h hne

end

/-- What the scan has passed when the range of the request has no byte
behind it, and what it has not used up while nothing is added. -/
structure MaxInv (h0 : LockHeap) (req : FileLock) (gone : List Entry)
    (s : Scan) : Prop where
  passed : req.flEnd = offsetMax → ∀ x ∈ gone,
    (h0.table x).flType = req.flType → (h0.table x).flEnd < req.flStart - 1
  origin : req.flEnd = offsetMax → s.caller ≠ none → ∃ d ∈ gone,
    (h0.table d).flType ≠ req.flType ∧ req.flStart ≤ (h0.table d).flStart
  gone_low : req.flType ≠ .unlck → s.caller = none → ∀ x ∈ gone, (h0.table x).flStart < req.flStart
  free_eq : req.flType ≠ .unlck → s.caller = none → s.heap.freeList = h0.freeList

theorem MaxInv.initial : MaxInv h0 req []
    ⟨h0, pre, req, none, none, none, false⟩ := by
  constructor <;> simp

theorem MapInv.not_merge (hmap : MapInv h0 req pre gone s (a :: rest))
    (hinv : ScanInv h0 req pre own done s (a :: rest))
    (horder : OwnOrder h0 gone a rest) (hmax : req.flEnd = offsetMax)
    (hhigh : (s.heap.table a).flStart ≤ toOffT (s.callerLock.flEnd + 1)) :
    False := by
  have hend : s.callerLock.flEnd = offsetMax := by
    have h1 := hmap.le_end
    have h2 := hinv.caller_valid.end_le
    omega
  have hnonneg := horder.valid.start_nonneg
  rw [hend, toOffT_offsetMax_succ, hmap.cells_rest a (by simp)] at hhigh
  omega

theorem MaxInv.turn (hmax : MaxInv h0 req gone s)
    (hmap : MapInv h0 req pre gone s (a :: rest))
    (hinv : ScanInv h0 req pre own done s (a :: rest))
    (hnodup : (own ++ h0.freeList).Nodup)
    (horder : OwnOrder h0 gone a rest)
    {s' : Scan} (hturn : s.Turn a s') : MaxInv h0 req (gone ++ [a]) s' := by
  have hcell : s.heap.table a = h0.table a := hmap.cells_rest a (by simp)
  have hvalid := hinv.caller_valid
  have hpred := toOffT_pred hvalid.start_nonneg
    (hvalid.start_le_end.trans hvalid.end_le)
  have hspec := Scan.merge_spec (hinv.caller_ne_head hnodup)
  -- the three shapes a turn can have here
  have hstay : s'.caller = s.caller → s'.heap.freeList = s.heap.freeList →
      ((h0.table a).flType = req.flType → (h0.table a).flEnd < req.flStart - 1) →
      (h0.table a).flStart < s.callerLock.flStart →
      MaxInv h0 req (gone ++ [a]) s' := by
    intro hcaller hfree htype hstart
    constructor
    · intro hm x hx ht
      rcases mem_append.mp hx with hx | hx
      · exact hmax.passed hm x hx ht
      · obtain rfl := mem_singleton.mp hx
        exact htype ht
    · intro hm hne
      obtain ⟨d, hd, h⟩ := hmax.origin hm (hcaller ▸ hne)
      exact ⟨d, by simp [hd], h⟩
    · intro hne hnone x hx
      rw [hcaller] at hnone
      rcases mem_append.mp hx with hx | hx
      · exact hmax.gone_low hne hnone x hx
      · obtain rfl := mem_singleton.mp hx
        rw [hmap.caller_none hnone] at hstart
        exact hstart
    · intro hne hnone
      rw [hfree]
      exact hmax.free_eq hne (hcaller ▸ hnone)
  have hmerged : (s.heap.table a).flStart ≤ toOffT (s.callerLock.flEnd + 1) → s'.caller ≠ none →
      MaxInv h0 req (gone ++ [a]) s' := by
    intro hhigh hcaller
    constructor
    · intro hm
      exact (hmap.not_merge hinv horder hm hhigh).elim
    · intro hm
      exact (hmap.not_merge hinv horder hm hhigh).elim
    · exact fun _ hnone => absurd hnone hcaller
    · exact fun _ hnone => absurd hnone hcaller
  have hother : (h0.table a).flType ≠ req.flType →
      (req.flType ≠ .unlck → s'.caller ≠ none) →
      (s'.caller ≠ none → s.caller ≠ none ∨ req.flStart ≤ (h0.table a).flStart) →
      MaxInv h0 req (gone ++ [a]) s' := by
    intro htype hcaller hd
    constructor
    · intro hm x hx ht
      rcases mem_append.mp hx with hx | hx
      · exact hmax.passed hm x hx ht
      · obtain rfl := mem_singleton.mp hx
        exact absurd ht htype
    · intro hm hne
      rcases hd hne with h | h
      · obtain ⟨d, hd, h⟩ := hmax.origin hm h
        exact ⟨d, by simp [hd], h⟩
      · exact ⟨a, by simp, htype, h⟩
    · exact fun hne hnone => absurd hnone (hcaller hne)
    · exact fun hne hnone => absurd hnone (hcaller hne)
  cases hturn with
  | below hend htouch =>
    rw [hcell] at hend htouch
    apply hstay rfl rfl
    · intro ht
      have h1 := htouch (hinv.caller_type.trans ht.symm)
      have h2 := hmap.start_le
      omega
    · have h := horder.valid.start_le_end
      omega
  | left htype hstart hlow hend =>
    rw [hcell] at hstart htype
    apply hstay rfl rfl
    · intro ht
      exact absurd (hinv.caller_type.trans ht.symm) htype
    · exact hstart
  | mergeFree htype hlow hhigh hadded =>
    apply hmerged hhigh
    have hne : req.flType ≠ .unlck := by
      rw [← hinv.caller_type, htype, hcell]
      exact horder.type
    have hptr : (((s.mergeStart a).mergeEnd a).freeHead a).caller = s.caller := hspec.caller
    rw [hptr]
    exact (hmap.added_iff hne).mp hadded
  | mergeAdopt htype hlow hhigh hadded =>
    apply hmerged hhigh
    simp [Scan.nextLock]
  | free htype hstart hlow hend hadded =>
    rw [hcell] at htype
    apply hother
    · exact fun ht => htype (hinv.caller_type.trans ht.symm)
    · intro hne
      apply (hmap.added_iff hne).mp
      rcases hadded with h | h
      · exact h
      · exact absurd (hinv.caller_type ▸ h) hne
    · exact fun h => .inl h
  | replace htype hunlck hstart hlow hend hadded =>
    rw [hcell] at htype hstart
    apply hother
    · exact fun ht => htype (hinv.caller_type.trans ht.symm)
    · intro _
      simp [Scan.nextLock, Scan.replaceEntry]
    · intro _
      by_cases hnone : s.caller = none
      · rw [hmap.caller_none hnone] at hstart
        exact .inr hstart
      · exact .inl hnone

structure Halted (h0 : LockHeap) (req : FileLock)
    (pre own gone done rest : List Entry) (s s' : Scan) : Prop where
  own_eq : own = gone ++ rest
  scan : ScanInv h0 req pre own done s rest
  map : MapInv h0 req pre gone s rest
  max : MaxInv h0 req gone s
  right_none : s.right = none
  stop : rest = [] ∧ s' = s ∨ ∃ a rest', rest = a :: rest' ∧ s.Stop a s'

theorem ScanInv.halts (hinv : ScanInv h0 req pre own done s rest)
    (hmap : MapInv h0 req pre gone s rest) (hmax : MaxInv h0 req gone s)
    (hown : own = gone ++ rest) (hsorted : OwnSorted h0 own)
    (hnodup : (own ++ h0.freeList).Nodup) (hright : s.right = none)
    (hreq : req.flOwner ≠ none)
    (htypes : req.flType = .rdlck ∨ req.flType = .wrlck ∨ req.flType = .unlck)
    {post : List Entry}
    (hstop : ∀ x, post.head? = some x → x ∉ own ∧ (h0.table x).key ≠ req.key) :
    ∃ gone' done' rest' s1 s2, s.run (rest ++ post) = (s2, rest' ++ post) ∧
      Halted h0 req pre own gone' done' rest' s1 s2 := by
  induction rest generalizing s done gone with
  | nil =>
    refine ⟨gone, done, [], s, s, ?_, hown, hinv, hmap, hmax, hright, .inl ⟨rfl, rfl⟩⟩
    exact hinv.run_others hstop
  | cons a rest ih =>
    rw [cons_append]
    rcases Scan.run_cons_cases hinv.same_key hinv.caller_valid
      (rest ++ post) with ⟨s', hturn, hrun⟩ | ⟨s', hend, hrun⟩
    · have horder : OwnOrder h0 gone a rest := by
        rw [hown] at hsorted
        exact hsorted.order
      have hmap' := hmap.turn hinv hnodup horder hturn
      have hmax' := hmax.turn hmap hinv hnodup horder hturn
      have hown' : own = gone ++ [a] ++ rest := by simpa using hown
      rw [hrun]
      obtain ⟨hright', hnext | hnext⟩ := hinv.turn hnodup hright hreq htypes hturn
      · exact ih hnext hmap' hmax' hown' hright'
      · exact ih hnext hmap' hmax' hown' hright'
    · exact ⟨gone, done, a :: rest, s, s', hrun, hown, hinv, hmap, hmax,
        hright, .inr ⟨a, rest, rfl, hend⟩⟩

/-! ## Trimming the old locks -/

def FileLock.segment (fl : FileLock) : Segment LockType := ⟨fl.flStart, fl.flEnd, fl.flType⟩

theorem Scan.trimLeft_table (s : Scan) (x : Entry) :
    s.trimLeft.table x = if s.left = some x then
      { s.heap.table x with flEnd := toOffT (s.callerLock.flStart - 1) }
    else s.heap.table x := by
  unfold Scan.trimLeft
  cases hl : s.left with
  | none => simp
  | some l =>
    by_cases hx : x = l
    · subst hx
      simp [LockHeap.set]
    · have hlx : l ≠ x := fun h => hx h.symm
      simp [LockHeap.set, hx, hlx]

variable {r : Entry}

variable {fl : FileLock}

/-- The chain where `lock_it` trims: `low` below the caller's range, `mid` the
caller's own entry if there is one, `high` above the range. -/
structure TrimReady (h0 : LockHeap) (s : Scan) (low mid high : List Entry) : Prop where
  valid : s.callerLock.Valid
  nodup : (low ++ (mid ++ high)).Nodup
  cells : ∀ x, x ∈ low ∨ x ∈ high → s.heap.table x = h0.table x
  caller_ne : ∀ x, x ∈ low ∨ x ∈ high → s.caller ≠ some x
  end_le : ∀ x ∈ high, (h0.table x).flEnd ≤ offsetMax
  low_spec : ∀ x ∈ low, s.left ≠ some x → (h0.table x).flEnd < s.callerLock.flStart
  left_spec : ∀ l, s.left = some l → (l ∈ low ∨ s.right = some l) ∧
    s.callerLock.flStart ≤ (h0.table l).flEnd
  high_spec : ∀ x ∈ high, s.callerLock.flEnd < (h0.table x).flEnd ∧
    (s.right ≠ some x → s.callerLock.flEnd < (h0.table x).flStart)
  right_spec : ∀ r, s.right = some r → r ∈ high ∧ (h0.table r).flStart ≤ s.callerLock.flEnd

section Trim

variable {low mid high : List Entry}

theorem FileLock.segment_cutStop_of_lt {lo : ℤ}
    (hlt : fl.flEnd < lo) : fl.segment.cutStop lo = fl.segment := by
  simp only [Segment.cutStop, FileLock.segment, Segment.mk.injEq, true_and, and_true]
  omega

theorem FileLock.segment_cutStart_of_lt {hi : ℤ}
    (hlt : hi < fl.flStart) : fl.segment.cutStart hi = fl.segment := by
  simp only [Segment.cutStart, FileLock.segment, Segment.mk.injEq, and_true]
  omega

theorem FileLock.segment_setEnd {lo : ℤ}
    (hle : lo ≤ fl.flEnd) :
    ({ fl with flEnd := lo - 1 } : FileLock).segment = fl.segment.cutStop lo := by
  simp only [Segment.cutStop, FileLock.segment, Segment.mk.injEq, true_and, and_true]
  omega

theorem FileLock.segment_setStart {hi : ℤ}
    (hle : fl.flStart ≤ hi) :
    ({ fl with flStart := hi + 1 } : FileLock).segment = fl.segment.cutStart hi := by
  simp only [Segment.cutStart, FileLock.segment, Segment.mk.injEq, and_true]
  omega

section
variable (hready : TrimReady h0 s low mid high)
include hready

theorem TrimReady.pred : toOffT (s.callerLock.flStart - 1) = s.callerLock.flStart - 1 :=
  toOffT_pred hready.valid.start_nonneg
    (hready.valid.start_le_end.trans hready.valid.end_le)

theorem TrimReady.succ (hr : r ∈ high) :
    toOffT (s.callerLock.flEnd + 1) = s.callerLock.flEnd + 1 := by
  have h1 := (hready.high_spec r hr).1
  have h2 := hready.end_le r hr
  have h3 := hready.valid.start_nonneg
  have h4 := hready.valid.start_le_end
  unfold offsetMax at h2
  apply toOffT_eq_self <;> omega

theorem TrimReady.high_segment (hright : s.right = some r) (hx : x ∈ high) :
    ((s.trimRight r).heap.table x).segment = (h0.table x).segment.cutStart s.callerLock.flEnd := by
  obtain ⟨hr, hstart⟩ := hready.right_spec r hright
  unfold Scan.trimRight
  by_cases hxr : x = r
  · subst hxr
    rw [Scan.setEntry_table_self, hready.succ hx, hready.cells x (.inr hx)]
    exact FileLock.segment_setStart hstart
  · rw [Scan.setEntry_table_ne _ _ _ _ hxr, hready.cells x (.inr hx)]
    have hne : s.right ≠ some x := by
      rw [hright]
      simpa using fun h : r = x => hxr h.symm
    exact (FileLock.segment_cutStart_of_lt
      ((hready.high_spec x hx).2 hne)).symm

theorem TrimReady.notMem (hx : x ∈ high) : x ∉ low ∧ x ∉ mid := by
  have h := hready.nodup
  rw [nodup_append, nodup_append] at h
  exact ⟨fun hlow => h.2.2 x hlow x (by simp [hx]) rfl, fun hmid => h.2.1.2.2 x hmid x hx rfl⟩

theorem TrimReady.apart (hright : s.right = some r) (hne : s.left ≠ some r)
    (hmid : ∀ x ∈ mid, s.left ≠ some x) :
    (low ++ (mid ++ high)).map
        (fun x => ((s.trimRight r).trimLeft.table x).segment) =
      low.map (fun x =>
        (h0.table x).segment.cutStop s.callerLock.flStart) ++
      (mid.map (fun x => (s.heap.table x).segment) ++
        high.map fun x =>
          (h0.table x).segment.cutStart s.callerLock.flEnd) := by
  have hr := (hready.right_spec r hright).1
  have hlock : (s.trimRight r).callerLock = s.callerLock :=
    Scan.setEntry_callerLock s r _ (hready.caller_ne r (.inr hr))
  have hleft : (s.trimRight r).left = s.left := rfl
  have hcell : ∀ x, x ≠ r → (s.trimRight r).heap.table x = s.heap.table x :=
    fun x hx => Scan.setEntry_table_ne s r x _ hx
  rw [map_append, map_append]
  congr 1
  · apply map_congr_left
    intro x hx
    have hxr : x ≠ r := fun h => (hready.notMem hr).1 (h ▸ hx)
    rw [Scan.trimLeft_table, hleft, hlock, hcell x hxr, hready.cells x (.inl hx), hready.pred]
    split
    · rename_i hl
      exact FileLock.segment_setEnd (hready.left_spec x hl).2
    · rename_i hl
      exact (FileLock.segment_cutStop_of_lt
        (hready.low_spec x hx hl)).symm
  congr 1
  · apply map_congr_left
    intro x hx
    have hxr : x ≠ r := fun h => (hready.notMem hr).2 (h ▸ hx)
    rw [Scan.trimLeft_table, hleft, if_neg (hmid x hx), hcell x hxr]
  · apply map_congr_left
    intro x hx
    have hxl : s.left ≠ some x := by
      intro hl
      rcases (hready.left_spec x hl).1 with h | h
      · exact (hready.notMem hx).1 h
      · have hrx : r = x := by simpa [hright] using h
        exact hne (hrx ▸ hl)
    rw [Scan.trimLeft_table, hleft, if_neg hxl]
    exact hready.high_segment hright hx

theorem TrimReady.leftOnly (hright : s.right = none) (hmid : ∀ x ∈ mid, s.left ≠ some x) :
    (low ++ (mid ++ high)).map (fun x => (s.trimLeft.table x).segment) =
      low.map (fun x =>
        (h0.table x).segment.cutStop s.callerLock.flStart) ++
      (mid.map (fun x => (s.heap.table x).segment) ++
        high.map fun x =>
          (h0.table x).segment.cutStart s.callerLock.flEnd) := by
  rw [map_append, map_append]
  congr 1
  · apply map_congr_left
    intro x hx
    rw [Scan.trimLeft_table, hready.cells x (.inl hx), hready.pred]
    split
    · rename_i hl
      exact FileLock.segment_setEnd (hready.left_spec x hl).2
    · rename_i hl
      exact (FileLock.segment_cutStop_of_lt
        (hready.low_spec x hx hl)).symm
  congr 1
  · apply map_congr_left
    intro x hx
    rw [Scan.trimLeft_table, if_neg (hmid x hx)]
  · apply map_congr_left
    intro x hx
    have hxl : s.left ≠ some x := by
      intro hl
      rcases (hready.left_spec x hl).1 with h | h
      · exact (hready.notMem hx).1 h
      · simp [hright] at h
    rw [Scan.trimLeft_table, if_neg hxl, hready.cells x (.inr hx)]
    have hne : s.right ≠ some x := by simp [hright]
    exact (FileLock.segment_cutStart_of_lt
      ((hready.high_spec x hx).2 hne)).symm

theorem TrimReady.split {l : Entry} {heap : LockHeap} (hright : s.right = some r)
    (hleft : s.left = some r) (hnew : l ∉ low ++ (mid ++ high)) (hcaller : s.caller ≠ some l)
    (hcopy : (heap.table l).segment = (s.heap.table r).segment)
    (hframe : ∀ x, x ≠ l → heap.table x = s.heap.table x) :
    (low ++ (l :: (mid ++ high))).map
        (fun x => ((({ s with heap := heap, left := some l } :
          Scan).trimRight r).trimLeft.table x).segment) =
      (low ++ [r]).map (fun x =>
        (h0.table x).segment.cutStop s.callerLock.flStart) ++
      (mid.map (fun x => (s.heap.table x).segment) ++
        high.map fun x =>
          (h0.table x).segment.cutStart s.callerLock.flEnd) := by
  set s1 : Scan := { s with heap := heap, left := some l } with hs1
  have hr := (hready.right_spec r hright).1
  have hmem : ∀ x, x ∈ low ∨ x ∈ mid ∨ x ∈ high → x ≠ l := by
    rintro x hx rfl
    apply hnew
    simp only [mem_append]
    exact hx
  have hrl : r ≠ l := hmem r (.inr (.inr hr))
  have hlock : s1.callerLock = s.callerLock := by
    cases hc : s.caller with
    | none => simp [Scan.callerLock, hs1, hc]
    | some c =>
      have hcl : c ≠ l := fun h => hcaller (h ▸ hc)
      simp [Scan.callerLock, hs1, hc, hframe c hcl]
  -- the table in which the new entry holds what was copied into it
  set h1 : LockHeap := h0.set l (heap.table l) with hh1
  have hold : ∀ x, x ≠ l → h1.table x = h0.table x := by
    intro x hx
    simp [hh1, LockHeap.set, hx]
  have hself : h1.table l = heap.table l := by simp [hh1, LockHeap.set]
  have hcopyEnd : (h1.table l).flEnd = (h0.table r).flEnd := by
    rw [hself, ← hready.cells r (.inr hr)]
    exact congrArg Segment.stop hcopy
  have hready1 : TrimReady h1 s1 (low ++ [l]) mid high := by
    constructor
    · rw [hlock]
      exact hready.valid
    · have hperm : (low ++ [l] ++ (mid ++ high)).Perm
          (l :: (low ++ (mid ++ high))) := by
        simp [perm_middle]
      rw [hperm.nodup_iff, nodup_cons]
      exact ⟨hnew, hready.nodup⟩
    · intro x hx
      by_cases hxl : x = l
      · subst hxl
        exact hself.symm
      · rw [hold x hxl]
        have hx' : x ∈ low ∨ x ∈ high := by
          simpa [hxl] using hx
        exact (hframe x hxl).trans (hready.cells x hx')
    · intro x hx
      by_cases hxl : x = l
      · subst hxl
        exact hcaller
      · exact hready.caller_ne x (by simpa [hxl] using hx)
    · intro x hx
      rw [hold x (hmem x (.inr (.inr hx)))]
      exact hready.end_le x hx
    · intro x hx hne
      rw [hlock]
      have hxl : x ≠ l := by
        rintro rfl
        exact hne rfl
      have hx' : x ∈ low := by simpa [hxl] using hx
      rw [hold x hxl]
      apply hready.low_spec x hx'
      rw [hleft]
      intro hrx
      exact (hready.notMem hr).1 (Option.some.inj hrx ▸ hx')
    · intro x hx
      obtain rfl : l = x := Option.some.inj hx
      rw [hlock, hcopyEnd]
      exact ⟨by simp, (hready.left_spec r hleft).2⟩
    · intro x hx
      rw [hlock, hold x (hmem x (.inr (.inr hx)))]
      exact hready.high_spec x hx
    · intro x hx
      rw [hlock]
      obtain ⟨h, h'⟩ := hready.right_spec x hx
      rw [hold x (hmem x (.inr (.inr h)))]
      exact ⟨h, h'⟩
  have hne1 : s1.left ≠ some r := by simpa [hs1] using hrl.symm
  have hmid1 : ∀ x ∈ mid, s1.left ≠ some x := by
    intro x hx h
    exact hmem x (.inr (.inl hx)) (Option.some.inj h).symm
  have happly := hready1.apart hright hne1 hmid1
  rw [append_assoc, singleton_append] at happly
  rw [happly, hlock, map_append, map_append]
  congr 1
  · congr 1
    · apply map_congr_left
      intro x hx
      rw [hold x (hmem x (.inl hx))]
    · simp only [map_cons, map_nil, List.cons.injEq, and_true]
      rw [hself, hcopy, hready.cells r (.inr hr)]
  congr 1
  · apply map_congr_left
    intro x hx
    exact congrArg _ (hframe x (hmem x (.inr (.inl hx))))
  · apply map_congr_left
    intro x hx
    rw [hold x (hmem x (.inr (.inr hx)))]

end

def Scan.both (s : Scan) : List Entry := if s.left = s.right then s.right.toList else []

theorem TrimReady.trim_segments (hready : TrimReady h0 s low mid high)
    (current : Task) (fd : ℕ) {pre post tail : List Entry}
    (hfree : ∀ x ∈ s.heap.freeList, x ∉ low ++ (mid ++ high) ∧ s.caller ≠ some x)
    (htail : s.before ++ tail = pre ++ ((low ++ (mid ++ high)) ++ post))
    (hfront : ∀ r, s.left = some r → s.right = some r → s.before = pre ++ low)
    (hmid : ∀ x ∈ mid, s.left ≠ some x)
    (hret : (s.trim current fd tail).ret = 0) :
    ∃ out, (s.trim current fd tail).chain = pre ++ (out ++ post) ∧
      out.map (fun x => ((s.trim current fd tail).heap.table x).segment) =
        (low ++ s.both).map (fun x =>
          (h0.table x).segment.cutStop s.callerLock.flStart) ++
        (mid.map (fun x => (s.heap.table x).segment) ++
          high.map fun x =>
            (h0.table x).segment.cutStart s.callerLock.flEnd) := by
  cases hright : s.right with
  | none =>
    have hboth : s.both = [] := by simp [Scan.both, hright]
    have htrim : s.trim current fd tail = ⟨0, s.trimLeft, s.before ++ tail⟩ := by
      simp [Scan.trim, hright]
    rw [htrim, hboth, append_nil]
    exact ⟨low ++ (mid ++ high), htail, hready.leftOnly hright hmid⟩
  | some r =>
    by_cases hleft : s.left = some r
    · have hboth : s.both = [r] := by simp [Scan.both, hright, hleft]
      cases halloc : allocLock current s.heap (s.heap.table r) fd with
      | none =>
        -- no entry is left for the copy: the call fails
        simp only [Scan.trim, hright, hleft, if_pos, halloc] at hret
        split at hret
        · simp [enolck] at hret
        · split at hret <;> simp [enolck] at hret
      | some res =>
        obtain ⟨l, heap⟩ := res
        unfold allocLock at halloc
        split at halloc
        · cases halloc
        rename_i tmp free hlist
        simp only [Option.some.injEq, Prod.mk.injEq] at halloc
        obtain ⟨rfl, hheap⟩ := halloc
        have hnew := hfree tmp (by simp [hlist])
        have hself : (heap.table tmp).segment = (s.heap.table r).segment := by
          rw [← hheap]
          simp [FileLock.segment]
        have hframe : ∀ x, x ≠ tmp → heap.table x = s.heap.table x := by
          intro x hx
          rw [← hheap]
          simp [hx]
        have htrim : s.trim current fd tail = ⟨0,
            (({ s with heap := heap, left := some tmp } : Scan).trimRight r).trimLeft,
            s.before ++ tmp :: tail⟩ := by
          simp [Scan.trim, hright, hleft, allocLock, hlist, ← hheap]
        have hbefore := hfront r hleft hright
        have hrest : tail = mid ++ high ++ post := by
          rw [hbefore, append_assoc] at htail
          have h := append_cancel_left htail
          rw [append_assoc] at h
          exact append_cancel_left h
        rw [htrim, hboth]
        refine ⟨low ++ tmp :: (mid ++ high), ?_,
          hready.split hright hleft hnew.1 hnew.2 hself hframe⟩
        simp [hbefore, hrest]
    · have hboth : s.both = [] := by
        simp [Scan.both, hright, hleft]
      have htrim : s.trim current fd tail = ⟨0, (s.trimRight r).trimLeft, s.before ++ tail⟩ := by
        simp [Scan.trim, hright, hleft]
      rw [htrim, hboth, append_nil]
      exact ⟨low ++ (mid ++ high), htail, hready.apart hright hleft hmid⟩

end Trim

/-! ## The end of the loop -/

inductive Cleared (h0 : LockHeap) (s : Scan) (rest : List Entry) : Scan → Prop
  | above
      (habove : ∀ x ∈ rest, s.callerLock.flEnd < (h0.table x).flStart) :
      Cleared h0 s rest s
  | right {r : Entry} {rest' : List Entry} (hrest : rest = r :: rest')
      (hlow : s.callerLock.flStart ≤ (h0.table r).flEnd)
      (hstart : (h0.table r).flStart ≤ s.callerLock.flEnd)
      (hend : s.callerLock.flEnd < (h0.table r).flEnd) :
      Cleared h0 s rest { s.mark r with right := some r }

variable {current : Task} {fd : ℕ}

/-- The loop has stopped at an entry of the requested type that it should
have merged: `caller->fl_end + 1` was negative. -/
def Stuck (h0 : LockHeap) (req : FileLock) (rest : List Entry) : Prop :=
  req.flEnd = offsetMax ∧ ∃ e rest', rest = e :: rest' ∧
    (h0.table e).flType = req.flType ∧ req.flStart - 1 ≤ (h0.table e).flEnd

section Halt

variable {s' : Scan} {post : List Entry}
  (hhalt : Halted h0 req pre own gone done rest s s')
  (hsorted : OwnSorted h0 own)

include hhalt

theorem Halted.rest_nodup (hnodup : (own ++ h0.freeList).Nodup) : (gone ++ rest).Nodup := by
  rw [← hhalt.own_eq]
  exact hnodup.of_append_left

include hsorted

theorem Halted.order {a : Entry} {rest' : List Entry}
    (hrest : rest = a :: rest') : OwnOrder h0 gone a rest' := by
  have h := hsorted
  rw [hhalt.own_eq, hrest] at h
  exact h.order

theorem Halted.cases : Cleared h0 s rest s' ∨ (s' = s ∧ Stuck h0 req rest) := by
  have hvalid := hhalt.scan.caller_valid
  rcases hhalt.stop with ⟨hnil, rfl⟩ | ⟨a, rest', hrest, hstop⟩
  · left
    apply Cleared.above
    simp [hnil]
  have horder := hhalt.order hsorted hrest
  have hcell : s.heap.table a = h0.table a := hhalt.map.cells_rest a (by simp [hrest])
  have habove : s.callerLock.flEnd < (h0.table a).flStart →
      ∀ x ∈ rest, s.callerLock.flEnd < (h0.table x).flStart := by
    intro hlt x hx
    rw [hrest] at hx
    rcases mem_cons.mp hx with rfl | hx
    · exact hlt
    · have h1 := horder.rest_lt x hx
      have h2 := horder.valid.start_le_end
      omega
  cases hstop with
  | sameType htype hlow habove' =>
    rw [hcell] at htype hlow habove'
    rcases toOffT_succ_cases
      (hvalid.start_nonneg.trans hvalid.start_le_end) hvalid.end_le with
      ⟨_, heq⟩ | ⟨hmax, _⟩
    · left
      exact .above (habove (by omega))
    · right
      refine ⟨rfl, ?_, a, rest', hrest, ?_, ?_⟩
      · rcases hhalt.map.end_cases with h | h
        · exact h.symm.trans hmax
        · have h1 := h a (by simp [hrest])
          have h2 := horder.valid.start_le_end
          have h3 := horder.valid.end_le
          omega
      · exact htype.symm.trans hhalt.scan.caller_type
      · rw [toOffT_pred hvalid.start_nonneg
          (hvalid.start_le_end.trans hvalid.end_le)] at hlow
        by_cases hnone : s.caller = none
        · rw [hhalt.map.caller_none hnone] at hlow
          exact hlow
        · have h1 := hhalt.map.ahead (.inl hnone) a (by simp [hrest])
          have h2 := horder.valid.start_le_end
          omega
  | above htype habove' =>
    left
    rw [hcell] at habove'
    exact .above (habove habove')
  | right htype hlow hstart hend =>
    left
    rw [hcell] at hlow hstart hend
    exact .right hrest hlow hstart hend

theorem Halted.filters (hnodup : (own ++ h0.freeList).Nodup)
    (hclear : Cleared h0 s rest s') :
    lowEntries h0 own s.callerLock.flStart = lowEntries h0 gone s.callerLock.flStart ++ s'.both ∧
      (own.filter fun x => s.callerLock.flEnd < (h0.table x).flEnd) = rest := by
  have hvalid := hhalt.scan.caller_valid.start_le_end
  have hgone : (gone.filter fun x =>
      s.callerLock.flEnd < (h0.table x).flEnd) = [] := by
    apply filter_eq_nil_iff.mpr
    intro x hx
    have h := hhalt.map.gone_end x hx
    simpa using h
  have hrestValid : ∀ x ∈ rest, (h0.table x).flStart ≤ (h0.table x).flEnd := by
    intro x hx
    exact (hsorted.valid x (by simp [hhalt.own_eq, hx])).start_le_end
  have hlowAll : ∀ l : List Entry,
      (∀ x ∈ l, s.callerLock.flEnd < (h0.table x).flStart) →
      lowEntries h0 l s.callerLock.flStart = [] := by
    intro l hl
    apply filter_eq_nil_iff.mpr
    intro x hx
    have h := hl x hx
    simp only [decide_eq_true_eq]
    omega
  rw [hhalt.own_eq, filter_append, hgone, nil_append]
  have hsplit : lowEntries h0 (gone ++ rest) s.callerLock.flStart =
      lowEntries h0 gone s.callerLock.flStart ++ lowEntries h0 rest s.callerLock.flStart := by
    simp [lowEntries]
  rw [hsplit]
  cases hclear with
  | above habove =>
    have hboth : s.both = [] := by
      simp [Scan.both, hhalt.right_none]
    rw [hlowAll rest habove, hboth]
    refine ⟨rfl, filter_eq_self.mpr ?_⟩
    intro x hx
    have h1 := habove x hx
    have h2 := hrestValid x hx
    simp only [decide_eq_true_eq]
    omega
  | @right r rest' hrest hlow hstart hend =>
    have horder := hhalt.order hsorted hrest
    have htail : ∀ x ∈ rest', s.callerLock.flEnd < (h0.table x).flStart := by
      intro x hx
      have h := horder.rest_lt x hx
      omega
    have hcell : s.heap.table r = h0.table r := hhalt.map.cells_rest r (by simp [hrest])
    have hlr : s.left ≠ some r := by
      intro hl
      have hmem := (hhalt.map.left_spec r hl).1
      have hnd := hhalt.rest_nodup hnodup
      rw [nodup_append] at hnd
      exact hnd.2.2 r hmem r (by simp [hrest]) rfl
    constructor
    · congr 1
      have hcons : lowEntries h0 rest s.callerLock.flStart =
          lowEntries h0 [r] s.callerLock.flStart := by
        have h : rest = [r] ++ rest' := hrest
        rw [h]
        have happ : lowEntries h0 ([r] ++ rest') s.callerLock.flStart =
            lowEntries h0 [r] s.callerLock.flStart ++ lowEntries h0 rest' s.callerLock.flStart :=
          filter_append ..
        rw [happ, hlowAll rest' htail, append_nil]
      rw [hcons]
      by_cases hlt : (h0.table r).flStart < s.callerLock.flStart
      · simp [lowEntries, Scan.both, Scan.mark, hcell, hlt]
      · simp [lowEntries, Scan.both, Scan.mark, hcell, hlt, hlr]
    · apply filter_eq_self.mpr
      intro x hx
      rw [hrest] at hx
      simp only [decide_eq_true_eq]
      rcases mem_cons.mp hx with rfl | hx
      · exact hend
      · have h1 := htail x hx
        have h2 := hrestValid x (by simp [hrest, hx])
        omega

theorem Halted.trimReady
    (hclear : Cleared h0 s rest s') {s1 : Scan} {mid : List Entry}
    (hleft : s1.left = s'.left) (hright : s1.right = s'.right)
    (hlock : s1.callerLock = s.callerLock)
    (hmid : (lowEntries h0 gone s.callerLock.flStart ++ (mid ++ rest)).Nodup)
    (hcells : ∀ x, x ∈ lowEntries h0 gone s.callerLock.flStart ∨ x ∈ rest →
      s1.heap.table x = s.heap.table x)
    (hcaller : ∀ x, x ∈ lowEntries h0 gone s.callerLock.flStart ∨ x ∈ rest → s1.caller ≠ some x) :
    TrimReady h0 s1 (lowEntries h0 gone s.callerLock.flStart) mid rest := by
  have hown : ∀ x ∈ rest, (h0.table x).Valid := by
    intro x hx
    exact hsorted.valid x (by simp [hhalt.own_eq, hx])
  have hleftLow : ∀ l, s.left = some l →
      l ∈ lowEntries h0 gone s.callerLock.flStart ∧ s.callerLock.flStart ≤ (h0.table l).flEnd := by
    intro l hl
    obtain ⟨h1, h2, _⟩ := hhalt.map.left_spec l hl
    have hmem := mem_lowEntries.mpr ⟨h1, h2⟩
    have h3 := (hhalt.scan.left_spec l hl).2.2
    rw [hhalt.map.cells_low l hmem] at h3
    exact ⟨hmem, h3⟩
  have hlowSpec : ∀ x ∈ lowEntries h0 gone s.callerLock.flStart,
      s.left ≠ some x → (h0.table x).flEnd < s.callerLock.flStart := by
    intro x hx hne
    obtain ⟨h1, h2⟩ := mem_lowEntries.mp hx
    exact hhalt.map.low x h1 h2 hne
  constructor
  · rw [hlock]
    exact hhalt.scan.caller_valid
  · exact hmid
  · intro x hx
    rw [hcells x hx]
    rcases hx with hx | hx
    · exact hhalt.map.cells_low x hx
    · exact hhalt.map.cells_rest x hx
  · exact hcaller
  · intro x hx
    exact (hown x hx).end_le
  · intro x hx hne
    rw [hlock]
    rw [hleft] at hne
    cases hclear with
    | above habove => exact hlowSpec x hx hne
    | @right r rest' hrest hlow hstart hend =>
      by_cases hl : s.left = some x
      · -- an entry reaching into the range leaves none behind it below
        have hcell : s.heap.table r = h0.table r := hhalt.map.cells_rest r (by simp [hrest])
        have hahead := hhalt.map.ahead (.inr (by simp [hl])) r
          (by simp [hrest])
        have hle := hhalt.map.start_le
        have hge : ¬ (h0.table r).flStart < s.callerLock.flStart := by
          omega
        simp [Scan.mark, hcell, hge, hl] at hne
      · exact hlowSpec x hx hl
  · intro l hl
    rw [hlock]
    rw [hleft] at hl
    rw [hright]
    cases hclear with
    | above habove => exact ⟨.inl (hleftLow l hl).1, (hleftLow l hl).2⟩
    | @right r rest' hrest hlow hstart hend =>
      simp only [Scan.mark] at hl
      split at hl
      · obtain rfl : r = l := Option.some.inj hl
        exact ⟨.inr rfl, hlow⟩
      · exact ⟨.inl (hleftLow l hl).1, (hleftLow l hl).2⟩
  · intro x hx
    rw [hlock, hright]
    have h2 := (hown x hx).start_le_end
    cases hclear with
    | above habove =>
      have h1 := habove x hx
      exact ⟨by omega, fun _ => h1⟩
    | @right r rest' hrest hlow hstart hend =>
      rw [hrest] at hx
      rcases mem_cons.mp hx with rfl | hx
      · exact ⟨hend, fun h => absurd rfl h⟩
      · have h1 := (hhalt.order hsorted hrest).rest_lt x hx
        exact ⟨by omega, fun _ => by omega⟩
  · intro r hr
    rw [hlock]
    rw [hright] at hr
    cases hclear with
    | above habove => simp [hhalt.right_none] at hr
    | @right r' rest' hrest hlow hstart hend =>
      obtain rfl : r' = r := Option.some.inj hr
      exact ⟨by simp [hrest], hstart⟩

omit hsorted in
theorem Halted.cleared_frame (hclear : Cleared h0 s rest s') :
    s'.heap = s.heap ∧ s'.before = s.before ∧ s'.caller = s.caller ∧
      s'.callerLock = s.callerLock ∧
      (req.flType ≠ .unlck → s'.added = s.added) := by
  cases hclear with
  | above habove => exact ⟨rfl, rfl, rfl, rfl, fun _ => rfl⟩
  | right hrest hlow hstart hend =>
    refine ⟨rfl, rfl, rfl, rfl, ?_⟩
    intro hne
    rw [← hhalt.scan.caller_type] at hne
    simp [Scan.mark, hne]

omit hsorted in
theorem Halted.chain_nodup (hnodup : (own ++ h0.freeList).Nodup) :
    (lowEntries h0 gone s.callerLock.flStart ++ (s.caller.toList ++
      (rest ++ s.heap.freeList))).Nodup := by
  have h := hhalt.scan.perm.nodup_iff.mpr hnodup
  rw [hhalt.map.done_eq hhalt.scan, append_assoc] at h
  exact h

section
variable (hnodup : (own ++ h0.freeList).Nodup) (hclear : Cleared h0 s rest s')
include hnodup hclear

omit hsorted in
theorem Halted.caller_none_of_both (hleft : s'.left = some r) (hright : s'.right = some r) :
    s.caller = none := by
  cases hclear with
  | above habove => simp [hhalt.right_none] at hright
  | @right r' rest' hrest hlow hstart hend =>
    obtain rfl : r' = r := Option.some.inj hright
    have hcell : s.heap.table r' = h0.table r' := hhalt.map.cells_rest r' (by simp [hrest])
    have hmap := hhalt.map
    rw [hrest] at hmap
    simp only [Scan.mark, hcell] at hleft
    split at hleft
    · rename_i hlt
      exact (hmap.caller_none_of_lt hlt).1
    · have hmem := (hmap.left_spec r' hleft).1
      have hnd := hhalt.rest_nodup hnodup
      rw [nodup_append] at hnd
      exact absurd rfl (hnd.2.2 r' hmem r' (by simp [hrest]))

omit hsorted in
theorem Halted.left_ne_caller (hx : s.caller = some x) : s'.left ≠ some x := by
  intro hl
  cases hclear with
  | above habove => exact (hhalt.scan.left_spec x hl).2.1 hx
  | @right r rest' hrest hlow hstart hend =>
    simp only [Scan.mark] at hl
    split at hl
    · obtain rfl : r = x := Option.some.inj hl
      exact MapInv.caller_ne_rest hhalt.scan hnodup (by simp [hrest]) hx
    · exact (hhalt.scan.left_spec x hl).2.1 hx

theorem Halted.trim_splice {s1 : Scan} {mid tail : List Entry}
    (hready : TrimReady h0 s1 (lowEntries h0 gone s.callerLock.flStart)
      mid rest) (hleft : s1.left = s'.left) (hright : s1.right = s'.right)
    (hlock : s1.callerLock = s.callerLock) (hbefore : s1.before = s.before)
    (htail : s.caller.toList ++ tail = mid ++ (rest ++ post)) (hfree : ∀ x ∈ s1.heap.freeList,
      x ∉ lowEntries h0 gone s.callerLock.flStart ++ (mid ++ rest) ∧ s1.caller ≠ some x)
    (hmid : ∀ x ∈ mid, s1.left ≠ some x) (hret : (s1.trim current fd tail).ret = 0) :
    ∃ out, (s1.trim current fd tail).chain = pre ++ (out ++ post) ∧
      out.map (fun x =>
          ((s1.trim current fd tail).heap.table x).segment) =
        Segment.splice (own.map fun x => (h0.table x).segment)
          s.callerLock.flStart s.callerLock.flEnd
          (mid.map fun x => (s1.heap.table x).segment) := by
  obtain ⟨hlowOwn, hhighOwn⟩ := hhalt.filters hsorted hnodup hclear
  have hboth : s1.both = s'.both := by
    simp only [Scan.both, hleft, hright]
  have htail' : s1.before ++ tail = pre ++
      (lowEntries h0 gone s.callerLock.flStart ++ (mid ++ rest) ++ post) := by
    rw [hbefore, hhalt.map.before_eq]
    simp only [append_assoc]
    rw [htail]
  have hfront : ∀ r, s1.left = some r → s1.right = some r →
      s1.before = pre ++ lowEntries h0 gone s.callerLock.flStart := by
    intro r hl hr
    rw [hleft] at hl
    rw [hright] at hr
    rw [hbefore, hhalt.map.before_eq, hhalt.caller_none_of_both hnodup hclear hl hr]
    simp
  obtain ⟨out, hout, hseg⟩ := hready.trim_segments current fd hfree htail' hfront hmid hret
  refine ⟨out, hout, ?_⟩
  rw [hseg, hlock, hboth, ← hlowOwn]
  unfold Segment.splice
  rw [filter_map, filter_map, map_map, map_map]
  conv_lhs => rw [← hhighOwn]
  rfl

end

theorem Halted.finish_splice
    (hreq : Request current fd req)
    (hnodup : (own ++ h0.freeList).Nodup) (hclear : Cleared h0 s rest s')
    (hret : (s'.finish current fd (rest ++ post)).ret = 0) :
    ∃ out, (s'.finish current fd (rest ++ post)).chain = pre ++ (out ++ post) ∧
      out.map (fun x =>
          ((s'.finish current fd (rest ++ post)).heap.table x).segment) =
        Segment.splice (own.map fun x => (h0.table x).segment)
          s.callerLock.flStart s.callerLock.flEnd
          (if req.flType = .unlck then []
            else [s.callerLock.segment]) := by
  obtain ⟨hheap, hbefore, hcaller, hlock, hadded⟩ := hhalt.cleared_frame hclear
  have hchain := hhalt.chain_nodup hnodup
  rw [← append_assoc, ← append_assoc, append_assoc (lowEntries _ _ _)] at hchain
  have hfreeNot := (nodup_append.mp hchain).2.2
  by_cases hadd : s'.added = true
  · have hfinish : s'.finish current fd (rest ++ post) = s'.trim current fd (rest ++ post) := by
      simp [Scan.finish, hadd]
    have hready : TrimReady h0 s' (lowEntries h0 gone s.callerLock.flStart)
        s.caller.toList rest := by
      apply hhalt.trimReady hsorted hclear rfl rfl hlock
      · exact hchain.of_append_left
      · intro x _
        rw [hheap]
      · intro x hx
        rw [hcaller]
        rcases hx with hx | hx
        · exact hhalt.map.caller_ne_low hhalt.scan hnodup hx
        · exact MapInv.caller_ne_rest hhalt.scan hnodup hx
    have hfree : ∀ x ∈ s'.heap.freeList,
        x ∉ lowEntries h0 gone s.callerLock.flStart ++
          (s.caller.toList ++ rest) ∧ s'.caller ≠ some x := by
      intro x hx
      rw [hheap] at hx
      have hnot : x ∉ lowEntries h0 gone s.callerLock.flStart ++
          (s.caller.toList ++ rest) := fun hmem => hfreeNot x hmem x hx rfl
      refine ⟨hnot, ?_⟩
      intro hc
      apply hnot
      rw [hcaller] at hc
      simp [hc]
    have hmid : ∀ x ∈ s.caller.toList, s'.left ≠ some x := by
      intro x hx
      exact hhalt.left_ne_caller hnodup hclear (by simpa using hx)
    rw [hfinish] at hret ⊢
    have hresult := hhalt.trim_splice hsorted hnodup hclear hready rfl rfl
      hlock hbefore rfl hfree hmid hret
    have hmidSeg : (s.caller.toList.map fun x =>
        (s'.heap.table x).segment) =
        if req.flType = .unlck then [] else [s.callerLock.segment] := by
      by_cases hunlck : req.flType = .unlck
      · simp [hunlck, hhalt.map.unlck hunlck]
      · rw [if_neg hunlck]
        have hs : s.added = true := (hadded hunlck).symm.trans hadd
        have hne := (hhalt.map.added_iff hunlck).mp hs
        cases hc : s.caller with
        | none => exact absurd hc hne
        | some c => simp [Scan.callerLock, hc, hheap]
    rw [hmidSeg] at hresult
    exact hresult
  · have hadd' : s'.added = false := by simpa using hadd
    have hctype : s'.callerLock.flType = req.flType := by
      rw [hlock, hhalt.scan.caller_type]
    by_cases hunlck : req.flType = .unlck
    · exfalso
      simp [Scan.finish, hadd', hctype, hunlck, einval] at hret
    have hnone : s.caller = none := by
      by_contra hne
      have h := (hhalt.map.added_iff hunlck).mpr hne
      rw [← hadded hunlck, hadd'] at h
      cases h
    cases halloc : allocLock current s'.heap s'.callerLock fd with
    | none =>
      simp [Scan.finish, hadd', hctype, hunlck, halloc, enolck] at hret
    | some res =>
      obtain ⟨tmp, heap⟩ := res
      set s1 : Scan := { s' with heap := heap, caller := some tmp } with hs1
      have hfinish : s'.finish current fd (rest ++ post) =
          s1.trim current fd (tmp :: (rest ++ post)) := by
        simp [Scan.finish, hadd', hctype, hunlck, halloc, hs1]
      rw [hlock, hheap] at halloc
      have hown : OwnLock h0 own req s.callerLock := by
        have hvalid := hhalt.scan.caller_valid
        refine ⟨hhalt.scan.caller_key, ?_, hvalid.start_nonneg,
          hvalid.end_le, hhalt.scan.caller_granted⟩
        rw [hhalt.scan.caller_type]
        have h := hreq.type
        tauto
      obtain ⟨_, hcell, hframe⟩ := hhalt.scan.heapPost.alloc hnodup hreq.key
        hown halloc
      have hlist : s.heap.freeList = tmp :: heap.freeList := by
        unfold allocLock at halloc
        split at halloc
        · cases halloc
        · rename_i hlist
          obtain ⟨rfl, rfl⟩ := halloc
          exact hlist
      have hlock1 : s1.callerLock = s.callerLock := by
        simp [hs1, Scan.callerLock, hcell]
      rw [hnone, Option.toList_none, nil_append] at hchain hfreeNot
      have hnew : tmp ∉ lowEntries h0 gone s.callerLock.flStart ++ rest :=
        fun hmem => hfreeNot tmp hmem tmp (by simp [hlist]) rfl
      have hnodup1 : (lowEntries h0 gone s.callerLock.flStart ++ ([tmp] ++ rest)).Nodup := by
        rw [singleton_append, perm_middle.nodup_iff, nodup_cons]
        exact ⟨hnew, hchain.of_append_left⟩
      have hleft1 : s1.left = s'.left := rfl
      have hright1 : s1.right = s'.right := rfl
      have hne : ∀ x, x ∈ lowEntries h0 gone s.callerLock.flStart ∨ x ∈ rest → x ≠ tmp := by
        rintro x hx rfl
        exact hnew (mem_append.mpr hx)
      have hready : TrimReady h0 s1
          (lowEntries h0 gone s.callerLock.flStart) [tmp] rest := by
        apply hhalt.trimReady hsorted hclear hleft1 hright1 hlock1 hnodup1
        · intro x hx
          exact hframe x (hne x hx)
        · intro x hx hc
          exact hne x hx (Option.some.inj hc).symm
      have hfreeTmp : tmp ∉ heap.freeList := by
        have h := (nodup_append.mp hchain).2.1
        rw [hlist, nodup_cons] at h
        exact h.1
      have hfree : ∀ x ∈ s1.heap.freeList,
          x ∉ lowEntries h0 gone s.callerLock.flStart ++ ([tmp] ++ rest) ∧ s1.caller ≠ some x := by
        intro x hx
        have hxtmp : x ≠ tmp := fun h => hfreeTmp (h ▸ hx)
        refine ⟨?_, fun hc => hxtmp (Option.some.inj hc).symm⟩
        intro hmem
        apply hfreeNot x _ x (by rw [hlist]; exact mem_cons_of_mem _ hx)
          rfl
        simpa [hxtmp] using hmem
      have hmid : ∀ x ∈ [tmp], s1.left ≠ some x := by
        intro x hx hl
        obtain rfl := mem_singleton.mp hx
        have hmem : x ∈ lowEntries h0 gone s.callerLock.flStart ∨ x ∈ rest := by
          rcases (hready.left_spec x hl).1 with h | h
          · exact .inl h
          · exact .inr (hready.right_spec x h).1
        exact hne x hmem rfl
      rw [hfinish] at hret ⊢
      have hresult := hhalt.trim_splice hsorted hnodup hclear hready hleft1
        hright1 hlock1 hbefore (by rw [hnone]; rfl) hfree hmid hret
      rw [if_neg hunlck]
      have hmidSeg : ([tmp].map fun x => (s1.heap.table x).segment) = [s.callerLock.segment] := by
        simp [hs1, hcell]
      rw [hmidSeg] at hresult
      exact hresult

end Halt

theorem lockIt_halts {chain post : List Entry}
    (hreq : Request current fd req)
    (hsplit : ChainSplit h0 req chain pre own post)
    (hskip : skipOthers h0 req chain = (pre, own ++ post))
    (hnodup : (own ++ h0.freeList).Nodup) (hsorted : OwnSorted h0 own)
    (hlocks : ∀ x ∈ own, ChainLock (h0.table x))
    (hfree : ∀ x ∈ h0.freeList, (h0.table x).flOwner = none)
    (hsane : h0.panicked = false) :
    ∃ gone done rest s s', Halted h0 req pre own gone done rest s s' ∧
      lockIt current h0 chain req fd = s'.finish current fd (rest ++ post) := by
  have hchain := hsplit.chain_eq
  subst hchain
  have hinit := ScanInv.initial hreq hsplit hlocks hfree hsane
  obtain ⟨gone, done, rest, s, s', hrun, hhalt⟩ :=
    hinit.halts MapInv.initial MaxInv.initial rfl hsorted hnodup rfl
      hreq.owner hreq.type hsplit.stop
  refine ⟨gone, done, rest, s, s', hhalt, ?_⟩
  unfold lockIt
  rw [hskip]
  simp only
  rw [hrun]

end LinuxKernel.RecordLock
