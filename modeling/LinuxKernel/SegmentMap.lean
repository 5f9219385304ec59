import Mathlib.Tactic

/-!
# Sorted lists of tagged segments

A list of segments stands for a partial map from the integers to tags.  The
module gives the update of such a map on one range: the segments on both sides
are cut off at the range, and what the range is to hold is put between them.
-/

namespace LinuxKernel
open List

variable {τ : Type*}

structure Segment (τ : Type*) where
  start : ℤ
  stop : ℤ
  tag : τ

namespace Segment

def Covers (s : Segment τ) (b : ℤ) : Prop := s.start ≤ b ∧ b ≤ s.stop

def cutStop (lo : ℤ) (s : Segment τ) : Segment τ := { s with stop := min s.stop (lo - 1) }

def cutStart (hi : ℤ) (s : Segment τ) : Segment τ := { s with start := max s.start (hi + 1) }

def Holds (segs : List (Segment τ)) (b : ℤ) (t : τ) : Prop := ∃ s ∈ segs, s.Covers b ∧ s.tag = t

structure Sorted (segs : List (Segment τ)) : Prop where
  nonempty : ∀ s ∈ segs, s.start ≤ s.stop
  ordered : segs.Pairwise fun s t => s.stop < t.start

def splice (segs : List (Segment τ)) (lo hi : ℤ) (mid : List (Segment τ)) : List (Segment τ) :=
  (segs.filter fun s => s.start < lo).map (cutStop lo) ++
    (mid ++ (segs.filter fun s => hi < s.stop).map (cutStart hi))

@[simp] theorem holds_nil (b : ℤ) (t : τ) : ¬ Holds [] b t := by
  simp [Holds]

variable {b : ℤ} {t : τ}

theorem holds_singleton {s : Segment τ} : Holds [s] b t ↔ s.Covers b ∧ s.tag = t := by
  simp [Holds]

theorem holds_append {l1 l2 : List (Segment τ)} :
    Holds (l1 ++ l2) b t ↔ Holds l1 b t ∨ Holds l2 b t := by
  simp only [Holds, mem_append]
  constructor
  · rintro ⟨s, hs | hs, h⟩
    · exact .inl ⟨s, hs, h⟩
    · exact .inr ⟨s, hs, h⟩
  · rintro (⟨s, hs, h⟩ | ⟨s, hs, h⟩)
    · exact ⟨s, .inl hs, h⟩
    · exact ⟨s, .inr hs, h⟩

variable {segs : List (Segment τ)} {lo : ℤ}

theorem holds_low :
    Holds ((segs.filter fun s => s.start < lo).map (cutStop lo)) b t ↔ b < lo ∧ Holds segs b t := by
  constructor
  · rintro ⟨_, hmem, hcover, htag⟩
    obtain ⟨s, hs, rfl⟩ := mem_map.mp hmem
    obtain ⟨hs, _⟩ := mem_filter.mp hs
    obtain ⟨hstart, hstop⟩ := hcover
    simp only [cutStop, le_min_iff] at hstart hstop
    exact ⟨by omega, s, hs, ⟨hstart, hstop.1⟩, htag⟩
  · rintro ⟨hb, s, hs, ⟨hstart, hstop⟩, htag⟩
    refine ⟨s.cutStop lo, mem_map.mpr ⟨s, ?_, rfl⟩, ?_, htag⟩
    · exact mem_filter.mpr ⟨hs, by simpa using hstart.trans_lt hb⟩
    · refine ⟨hstart, ?_⟩
      simp only [cutStop, le_min_iff]
      exact ⟨hstop, by omega⟩

variable {hi : ℤ}

theorem holds_high :
    Holds ((segs.filter fun s => hi < s.stop).map (cutStart hi)) b t ↔ hi < b ∧ Holds segs b t := by
  constructor
  · rintro ⟨_, hmem, hcover, htag⟩
    obtain ⟨s, hs, rfl⟩ := mem_map.mp hmem
    obtain ⟨hs, _⟩ := mem_filter.mp hs
    obtain ⟨hstart, hstop⟩ := hcover
    simp only [cutStart, max_le_iff] at hstart hstop
    exact ⟨by omega, s, hs, ⟨hstart.1, hstop⟩, htag⟩
  · rintro ⟨hb, s, hs, ⟨hstart, hstop⟩, htag⟩
    refine ⟨s.cutStart hi, mem_map.mpr ⟨s, ?_, rfl⟩, ?_, htag⟩
    · exact mem_filter.mpr ⟨hs, by simpa using hb.trans_le hstop⟩
    · refine ⟨?_, hstop⟩
      simp only [cutStart, max_le_iff]
      exact ⟨hstart, by omega⟩

theorem holds_splice {mid : List (Segment τ)}
    (hmid : ∀ s ∈ mid, lo ≤ s.start ∧ s.stop ≤ hi) :
    Holds (splice segs lo hi mid) b t ↔
      if lo ≤ b ∧ b ≤ hi then Holds mid b t else Holds segs b t := by
  unfold splice
  rw [holds_append, holds_append, holds_low, holds_high]
  have hinside : Holds mid b t → lo ≤ b ∧ b ≤ hi := by
    rintro ⟨s, hs, ⟨hstart, hstop⟩, _⟩
    obtain ⟨h1, h2⟩ := hmid s hs
    exact ⟨by omega, by omega⟩
  split
  · rename_i hb
    constructor
    · rintro (⟨hlo, _⟩ | h | ⟨hhi, _⟩)
      · omega
      · exact h
      · omega
    · exact fun h => .inr (.inl h)
  · rename_i hb
    constructor
    · rintro (⟨_, h⟩ | h | ⟨_, h⟩)
      · exact h
      · exact absurd (hinside h) hb
      · exact h
    · intro h
      by_cases hlo : b < lo
      · exact .inl ⟨hlo, h⟩
      · exact .inr (.inr ⟨by omega, h⟩)

theorem Sorted.splice {mid : List (Segment τ)}
    (hsegs : Sorted segs) (hrange : lo ≤ hi) (hsorted : Sorted mid)
    (hmid : ∀ s ∈ mid, lo ≤ s.start ∧ s.stop ≤ hi) :
    Sorted (splice segs lo hi mid) := by
  have hlow : ∀ s ∈ (segs.filter fun s => s.start < lo).map (cutStop lo),
      s.start ≤ s.stop ∧ s.stop < lo := by
    intro s hs
    obtain ⟨r, hr, rfl⟩ := mem_map.mp hs
    obtain ⟨hr, hlt⟩ := mem_filter.mp hr
    have hnonempty := hsegs.nonempty r hr
    have hlt' : r.start < lo := by simpa using hlt
    simp only [cutStop]
    omega
  have hhigh : ∀ s ∈ (segs.filter fun s => hi < s.stop).map (cutStart hi),
      s.start ≤ s.stop ∧ hi < s.start := by
    intro s hs
    obtain ⟨r, hr, rfl⟩ := mem_map.mp hs
    obtain ⟨hr, hlt⟩ := mem_filter.mp hr
    have hnonempty := hsegs.nonempty r hr
    have hlt' : hi < r.stop := by simpa using hlt
    simp only [cutStart]
    omega
  constructor
  · intro s hs
    simp only [Segment.splice, mem_append] at hs
    rcases hs with hs | hs | hs
    · exact (hlow s hs).1
    · exact hsorted.nonempty s hs
    · exact (hhigh s hs).1
  · unfold Segment.splice
    rw [pairwise_append, pairwise_append]
    refine ⟨?_, ⟨hsorted.ordered, ?_, ?_⟩, ?_⟩
    · apply List.Pairwise.map _ _ (hsegs.ordered.filter _)
      intro s t hst
      simp only [cutStop]
      omega
    · apply List.Pairwise.map _ _ (hsegs.ordered.filter _)
      intro s t hst
      simp only [cutStart]
      omega
    · intro s hs t ht
      have h1 := hmid s hs
      have h2 := hhigh t ht
      omega
    · intro s hs t ht
      have h1 := hlow s hs
      rcases mem_append.mp ht with ht | ht
      · have h2 := hmid t ht
        omega
      · have h2 := hhigh t ht
        omega

theorem Sorted.holds_unique (hsegs : Sorted segs) {t' : τ} (h : Holds segs b t)
    (h' : Holds segs b t') :
    t = t' := by
  induction segs with
  | nil => exact absurd h (holds_nil b t)
  | cons s segs ih =>
    have hordered := pairwise_cons.mp hsegs.ordered
    have htail : Sorted segs := ⟨fun r hr => hsegs.nonempty r (mem_cons_of_mem _ hr), hordered.2⟩
    have hapart : ∀ r ∈ segs, s.Covers b → ¬ r.Covers b := by
      intro r hr hs hr'
      have hlt := hordered.1 r hr
      have h1 := hs.2
      have h2 := hr'.1
      omega
    obtain ⟨r, hr, hcover, htag⟩ := h
    obtain ⟨r', hr', hcover', htag'⟩ := h'
    rcases mem_cons.mp hr with rfl | hmem <;>
      rcases mem_cons.mp hr' with rfl | hmem'
    · exact htag.symm.trans htag'
    · exact absurd hcover' (hapart r' hmem' hcover)
    · exact absurd hcover (hapart r hmem hcover')
    · exact ih htail ⟨r, hmem, hcover, htag⟩ ⟨r', hmem', hcover', htag'⟩

end Segment
end LinuxKernel
