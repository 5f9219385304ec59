import LinuxKernel.IpFragmentModel
import Mathlib.Tactic

/-!
# The fragment chain of one datagram

What the insertion of a fragment does to a sorted chain of disjoint fragments,
what `ip_done` says about such a chain, and what `ip_glue` copies from it.
-/

namespace LinuxKernel.IpFragment
open List

/-- The length of an `ipfrag` is the size of its range, and the range starts
inside the datagram. -/
structure Ipfrag.Ok (f : Ipfrag) : Prop where
  offset_nonneg : 0 ≤ f.offset
  len_nonneg : 0 ≤ f.len
  len_eq : f.len = f.fend - f.offset

structure ChainOk (chain : List Ipfrag) : Prop where
  frag : ∀ f ∈ chain, f.Ok
  ordered : chain.Pairwise fun a b => a.offset ≤ b.offset ∧ a.fend ≤ b.offset

def Covered (chain : List Ipfrag) (x : ℤ) : Prop := ∃ f ∈ chain, f.offset ≤ x ∧ x < f.fend

variable {f : Ipfrag}

theorem Ipfrag.Ok.offset_le (hf : f.Ok) : f.offset ≤ f.fend := by
  have h1 := hf.len_nonneg
  have h2 := hf.len_eq
  omega

variable {offset fend : ℤ}

theorem ipFragCreate_ok (skb : Skb) (ptr : ℤ) (hoffset : 0 ≤ offset)
    (hle : offset ≤ fend) : (ipFragCreate offset fend skb ptr).Ok := by
  constructor
  · exact hoffset
  · simp only [ipFragCreate]
    omega
  · rfl

theorem ChainOk.nil : ChainOk [] := by
  constructor
  · simp
  · exact List.Pairwise.nil

variable {rest : List Ipfrag}

theorem ChainOk.tail (h : ChainOk (f :: rest)) : ChainOk rest := by
  constructor
  · intro g hg
    exact h.frag g (mem_cons_of_mem f hg)
  · exact (pairwise_cons.mp h.ordered).2

theorem ChainOk.head_le {g : Ipfrag} (h : ChainOk (f :: rest))
    (hg : g ∈ rest) : f.fend ≤ g.offset :=
  ((pairwise_cons.mp h.ordered).1 g hg).2

variable {chain : List Ipfrag}

theorem ChainOk.of_sublist {sub : List Ipfrag} (h : ChainOk chain)
    (hsub : sub.Sublist chain) : ChainOk sub := by
  constructor
  · intro f hf
    exact h.frag f (hsub.subset hf)
  · exact h.ordered.sublist hsub

theorem inFront_append_behind (offset : ℤ) (chain : List Ipfrag) :
    inFront offset chain ++ behind offset chain = chain := by
  induction chain with
  | nil => rfl
  | cons next rest ih =>
    unfold inFront behind
    split
    · rfl
    · rw [cons_append, ih]

theorem offset_le_of_mem_inFront
    (hf : f ∈ inFront offset chain) : f.offset ≤ offset := by
  induction chain with
  | nil => simp [inFront] at hf
  | cons next rest ih =>
    unfold inFront at hf
    split at hf
    · simp at hf
    · rcases mem_cons.mp hf with heq | hmem
      · rw [heq]
        omega
      · exact ih hmem

theorem offset_lt_of_mem_behind
    (h : ChainOk chain) (hf : f ∈ behind offset chain) : offset < f.offset := by
  induction chain with
  | nil => simp [behind] at hf
  | cons next rest ih =>
    unfold behind at hf
    split at hf
    · rename_i hnext
      rcases mem_cons.mp hf with heq | hmem
      · rw [heq]
        exact hnext
      · have hle := ((pairwise_cons.mp h.ordered).1 f hmem).1
        omega
    · exact ih h.tail hf

theorem inFront_sublist (offset : ℤ) (chain : List Ipfrag) :
    (inFront offset chain).Sublist chain := by
  have happ := inFront_append_behind offset chain
  conv_rhs => rw [← happ]
  exact sublist_append_left _ _

theorem behind_sublist (offset : ℤ) (chain : List Ipfrag) :
    (behind offset chain).Sublist chain := by
  have happ := inFront_append_behind offset chain
  conv_rhs => rw [← happ]
  exact sublist_append_right _ _

theorem trimOverlap_sublist
    (h : trimOverlap fend chain = some rest) : rest.Sublist chain := by
  induction chain with
  | nil =>
    simp only [trimOverlap, Option.some.injEq] at h
    rw [← h]
  | cons next tail ih =>
    unfold trimOverlap at h
    split at h
    · simp only [Option.some.injEq] at h
      rw [← h]
    · dsimp only at h
      split at h
      · cases tail with
        | nil => simp at h
        | cons t ts => exact (ih h).cons next
      · exact (ih h).cons next

theorem trimOverlap_offset_le (hchain : ChainOk chain)
    (h : trimOverlap fend chain = some rest) : ∀ f ∈ rest, fend ≤ f.offset := by
  induction chain with
  | nil =>
    simp only [trimOverlap, Option.some.injEq] at h
    simp [← h]
  | cons next tail ih =>
    unfold trimOverlap at h
    split at h
    · rename_i hnext
      simp only [Option.some.injEq] at h
      intro f hf
      rw [← h] at hf
      rcases mem_cons.mp hf with heq | hmem
      · rw [heq]
        exact hnext
      · have hle := ((pairwise_cons.mp hchain.ordered).1 f hmem).1
        omega
    · dsimp only at h
      split at h
      · cases tail with
        | nil => simp at h
        | cons t ts => exact ih hchain.tail h
      · exact ih hchain.tail h

theorem mem_trimOverlap
    (h : trimOverlap fend chain = some rest) (hf : f ∈ chain)
    (hfend : fend ≤ f.offset) : f ∈ rest := by
  induction chain with
  | nil => simp at hf
  | cons next tail ih =>
    unfold trimOverlap at h
    split at h
    · simp only [Option.some.injEq] at h
      rw [← h]
      exact hf
    · rename_i hnext
      have hmem : f ∈ tail := by
        rcases mem_cons.mp hf with heq | hmem
        · rw [heq] at hfend
          omega
        · exact hmem
      dsimp only at h
      split at h
      · cases tail with
        | nil => simp at h
        | cons t ts => exact ih h hmem
      · exact ih h hmem

theorem trimOverlap_isSome (fend : ℤ) (hchain : ChainOk chain)
    (hlast : ∀ last ∈ chain.getLast?, last.offset < fend → fend < last.fend) :
    ∃ rest, trimOverlap fend chain = some rest := by
  induction chain with
  | nil => exact ⟨[], rfl⟩
  | cons next tail ih =>
    unfold trimOverlap
    split
    · exact ⟨_, rfl⟩
    · rename_i hnext
      dsimp only
      cases tail with
      | nil =>
        have hfend := hlast next (by simp) (by omega)
        have hlen := (hchain.frag next (by simp)).len_eq
        rw [if_neg (by omega)]
        exact ⟨[], rfl⟩
      | cons t ts =>
        obtain ⟨rest, hrest⟩ := ih hchain.tail (by simpa using hlast)
        rw [hrest]
        split
        · exact ⟨rest, rfl⟩
        · exact ⟨rest, rfl⟩

/-! ## The insertion -/

/-- What the source takes for granted about the place where a fragment goes. -/
structure Placeable (chain : List Ipfrag) (offset fend : ℤ) : Prop where
  size : offset ≤ fend
  outside : ∀ prev ∈ (inFront offset chain).getLast?, prev.fend ≤ fend
  last : ∀ last ∈ chain.getLast?, offset < last.offset → last.offset < fend → fend < last.fend

theorem lowOverlap_nonneg (prev : Option Ipfrag) (offset : ℤ) : 0 ≤ lowOverlap prev offset := by
  unfold lowOverlap
  split
  · exact le_refl 0
  · split
    · omega
    · exact le_refl 0

theorem Placeable.lowOverlap_le
    (h : Placeable chain offset fend) :
    offset + lowOverlap (inFront offset chain).getLast? offset ≤ fend := by
  unfold lowOverlap
  split
  · have := h.size
    omega
  · rename_i prev hprev
    have h1 := h.outside prev hprev
    have h2 := h.size
    split
    · omega
    · omega

theorem fend_le_of_mem_inFront (hchain : ChainOk chain) (hf : f ∈ inFront offset chain) :
    f.fend ≤ offset + lowOverlap (inFront offset chain).getLast? offset := by
  obtain ⟨prev, hprev⟩ : ∃ prev, (inFront offset chain).getLast? = some prev := by
    cases hlast : (inFront offset chain).getLast? with
    | none =>
      rw [List.getLast?_eq_none_iff] at hlast
      rw [hlast] at hf
      simp at hf
    | some prev => exact ⟨prev, rfl⟩
  have hle : f.fend ≤ prev.fend := by
    have hfront := hchain.of_sublist (inFront_sublist offset chain)
    obtain ⟨init, hinit⟩ := List.getLast?_eq_some_iff.mp hprev
    rw [hinit] at hf hfront
    rcases mem_append.mp hf with hmem | hmem
    · have hord := (pairwise_append.mp hfront.ordered).2.2 f hmem prev (by simp)
      have hok := (hfront.frag prev (by simp)).offset_le
      omega
    · rw [mem_singleton.mp hmem]
  rw [hprev]
  unfold lowOverlap
  dsimp only
  split
  · omega
  · omega

theorem getLast?_behind {last : Ipfrag}
    (h : last ∈ (behind offset chain).getLast?) : last ∈ chain.getLast? := by
  rw [← inFront_append_behind offset chain, List.getLast?_append]
  rw [h]
  rfl

section
variable (h : Placeable chain offset fend) (hchain : ChainOk chain)
include h hchain

theorem Placeable.insertFragment_eq (skb : Skb) {grants : Grants} (hgrant : grants.frag = true) :
    ∃ rest, trimOverlap fend (behind offset chain) = some rest ∧
      insertFragment chain offset fend skb grants = some (inFront offset chain ++
        ipFragCreate (offset + lowOverlap (inFront offset chain).getLast? offset) fend skb
          (lowOverlap (inFront offset chain).getLast? offset) :: rest) := by
  have hbehind := hchain.of_sublist (behind_sublist offset chain)
  obtain ⟨rest, hrest⟩ := trimOverlap_isSome fend hbehind (by
    intro last hlast
    have hoffset := offset_lt_of_mem_behind hchain (mem_of_getLast? hlast)
    exact h.last last (getLast?_behind hlast) hoffset)
  refine ⟨rest, hrest, ?_⟩
  unfold insertFragment
  rw [hrest]
  dsimp only
  rw [if_pos hgrant]

theorem Placeable.chainOk (hoffset : 0 ≤ offset) (skb : Skb)
    (hrest : trimOverlap fend (behind offset chain) = some rest) :
    ChainOk (inFront offset chain ++
      ipFragCreate (offset + lowOverlap (inFront offset chain).getLast? offset) fend skb
        (lowOverlap (inFront offset chain).getLast? offset) :: rest) := by
  set i := lowOverlap (inFront offset chain).getLast? offset with hi
  have hi0 : 0 ≤ i := lowOverlap_nonneg _ _
  have hbehind := hchain.of_sublist (behind_sublist offset chain)
  have hfront := hchain.of_sublist (inFront_sublist offset chain)
  have htail := hbehind.of_sublist (trimOverlap_sublist hrest)
  have hfits := h.lowOverlap_le
  have hnew : (ipFragCreate (offset + i) fend skb i).Ok := ipFragCreate_ok skb i (by omega) hfits
  have hbeyond := trimOverlap_offset_le hbehind hrest
  constructor
  · intro f hf
    rcases mem_append.mp hf with hmem | hmem
    · exact hfront.frag f hmem
    · rcases mem_cons.mp hmem with heq | hmem
      · rw [heq]
        exact hnew
      · exact htail.frag f hmem
  · rw [pairwise_append, pairwise_cons]
    refine ⟨hfront.ordered, ⟨?_, htail.ordered⟩, ?_⟩
    · intro b hb
      have hb' := hbeyond b hb
      simp only [ipFragCreate]
      omega
    · intro a ha b hb
      have ha1 := offset_le_of_mem_inFront ha
      have ha2 := fend_le_of_mem_inFront hchain ha
      rcases mem_cons.mp hb with heq | hmem
      · rw [heq]
        simp only [ipFragCreate]
        omega
      · have hb' := hbeyond b hmem
        omega

end

/-- The bytes of the datagram that are queued after a fragment for
`[offset, fend)` went into the chain: those of the fragments that start at or
before it or behind it, and its own. -/
def Kept (chain : List Ipfrag) (offset fend x : ℤ) : Prop :=
  (∃ f ∈ chain, (f.offset ≤ offset ∨ fend ≤ f.offset) ∧ f.offset ≤ x ∧ x < f.fend) ∨
    (offset ≤ x ∧ x < fend)

theorem mem_inFront_of_le (hchain : ChainOk chain) (hf : f ∈ chain) (hle : f.offset ≤ offset) :
    f ∈ inFront offset chain := by
  rw [← inFront_append_behind offset chain] at hf
  rcases mem_append.mp hf with hmem | hmem
  · exact hmem
  · have := offset_lt_of_mem_behind hchain hmem
    omega

theorem mem_behind_of_lt (hf : f ∈ chain) (hlt : offset < f.offset) : f ∈ behind offset chain := by
  rw [← inFront_append_behind offset chain] at hf
  rcases mem_append.mp hf with hmem | hmem
  · have := offset_le_of_mem_inFront hmem
    omega
  · exact hmem

variable {x : ℤ}

theorem lowOverlap_covered
    (h1 : offset ≤ x) (h2 : x < offset + lowOverlap (inFront offset chain).getLast? offset) :
    Covered (inFront offset chain) x := by
  cases hlast : (inFront offset chain).getLast? with
  | none =>
    rw [hlast] at h2
    simp only [lowOverlap] at h2
    omega
  | some prev =>
    rw [hlast] at h2
    have hmem := mem_of_getLast? hlast
    have hle := offset_le_of_mem_inFront hmem
    refine ⟨prev, hmem, by omega, ?_⟩
    simp only [lowOverlap] at h2
    split at h2
    · omega
    · omega

theorem covered_insert_iff (hchain : ChainOk chain)
    (skb : Skb) (hrest : trimOverlap fend (behind offset chain) = some rest) (x : ℤ) :
    Covered (inFront offset chain ++
      ipFragCreate (offset + lowOverlap (inFront offset chain).getLast? offset) fend skb
        (lowOverlap (inFront offset chain).getLast? offset) :: rest) x ↔
      Kept chain offset fend x := by
  have hi0 := lowOverlap_nonneg (inFront offset chain).getLast? offset
  have hbehind := hchain.of_sublist (behind_sublist offset chain)
  constructor
  · rintro ⟨f, hf, hx⟩
    rcases mem_append.mp hf with hmem | hmem
    · exact .inl ⟨f, (inFront_sublist offset chain).subset hmem,
        .inl (offset_le_of_mem_inFront hmem), hx⟩
    · rcases mem_cons.mp hmem with heq | hmem
      · rw [heq] at hx
        simp only [ipFragCreate] at hx
        exact .inr (by omega)
      · refine .inl ⟨f, ?_, .inr (trimOverlap_offset_le hbehind hrest f hmem), hx⟩
        exact (behind_sublist offset chain).subset ((trimOverlap_sublist hrest).subset hmem)
  · intro h
    rcases h with ⟨f, hf, hstart, hx⟩ | hx
    · by_cases hle : f.offset ≤ offset
      · exact ⟨f, mem_append_left _ (mem_inFront_of_le hchain hf hle), hx⟩
      · have hmem := mem_trimOverlap hrest (mem_behind_of_lt hf (by omega)) (by omega)
        exact ⟨f, mem_append_right _ (mem_cons_of_mem _ hmem), hx⟩
    · by_cases hlow : x < offset + lowOverlap (inFront offset chain).getLast? offset
      · obtain ⟨f, hf, hfx⟩ := lowOverlap_covered hx.1 hlow
        exact ⟨f, mem_append_left _ hf, hfx⟩
      · refine ⟨_, mem_append_right _ (mem_cons_self ..), ?_⟩
        simp only [ipFragCreate]
        omega

theorem connected_covered {start : ℤ} (h : connected start chain = true) (hf : f ∈ chain)
    (hstart : start ≤ x) (hx : x < f.offset) :
    Covered chain x := by
  induction chain generalizing start with
  | nil => simp at hf
  | cons fp rest ih =>
    unfold connected at h
    split at h
    · simp at h
    · by_cases hin : x < fp.fend
      · exact ⟨fp, mem_cons_self .., by omega, hin⟩
      · have hmem : f ∈ rest := by
          rcases mem_cons.mp hf with heq | hmem
          · rw [heq] at hx
            omega
          · exact hmem
        obtain ⟨g, hg, hgx⟩ := ih h hmem (by omega)
        exact ⟨g, mem_cons_of_mem fp hg, hgx⟩

def lenSum (chain : List Ipfrag) : ℤ := (chain.map Ipfrag.len).sum

@[simp] theorem lenSum_cons (f : Ipfrag) (rest : List Ipfrag) :
    lenSum (f :: rest) = f.len + lenSum rest := by
  simp [lenSum]

theorem ChainOk.lenSum_nonneg (h : ChainOk chain) : 0 ≤ lenSum chain := by
  induction chain with
  | nil => simp [lenSum]
  | cons f rest ih =>
    have h1 := (h.frag f (by simp)).len_nonneg
    have h2 := ih h.tail
    rw [lenSum_cons]
    omega

theorem ChainOk.lenSum_le (h : ChainOk chain) (start : ℤ) {limit : ℤ}
    (hstart : ∀ f ∈ chain, start ≤ f.offset) (hle : start ≤ limit)
    (hlimit : ∀ f ∈ chain, f.fend ≤ limit) : start + lenSum chain ≤ limit := by
  induction chain generalizing start with
  | nil =>
    simp only [lenSum, map_nil, sum_nil]
    omega
  | cons f rest ih =>
    have hf := h.frag f (by simp)
    have h1 := hf.len_eq
    have h2 := hstart f (by simp)
    have h3 := hlimit f (by simp)
    have hrest := ih h.tail f.fend (fun g hg => h.head_le hg) h3
      (fun g hg => hlimit g (mem_cons_of_mem f hg))
    rw [lenSum_cons]
    omega

variable {c : Copy}

theorem copyFragments_copied (hchain : ChainOk chain) (skbLen : ℤ)
    (hsize : c.count + lenSum chain ≤ skbLen) :
    (copyFragments skbLen c chain).copied = c.copied ++ chain.map (fun f => (f.offset, f.len)) ∧
      (copyFragments skbLen c chain).overSize = c.overSize ∧
      (copyFragments skbLen c chain).count = c.count + lenSum chain := by
  induction chain generalizing c with
  | nil => simp [copyFragments, lenSum]
  | cons f rest ih =>
    have hrest := hchain.tail.lenSum_nonneg
    rw [lenSum_cons] at hsize
    unfold copyFragments
    rw [if_neg (by omega)]
    obtain ⟨h1, h2, h3⟩ := ih hchain.tail (c := { c with
      count := c.count + f.len
      memory := memcpy c.memory f.offset f.len fun i => byteAt f.skb.payload (f.ptr + i)
      copied := c.copied ++ [(f.offset, f.len)] }) (by simp only; omega)
    refine ⟨?_, h2, ?_⟩
    · rw [h1]
      simp
    · rw [h3, lenSum_cons]
      ring

theorem copyFragments_memory_of_lt {skbLen : ℤ}
    (hx : ∀ f ∈ chain, x < f.offset) : (copyFragments skbLen c chain).memory x = c.memory x := by
  induction chain generalizing c with
  | nil => rfl
  | cons f rest ih =>
    have hf := hx f (by simp)
    unfold copyFragments
    split
    · rfl
    · rw [ih (fun g hg => hx g (mem_cons_of_mem f hg))]
      simp only [memcpy]
      rw [if_neg (by omega)]

theorem copyFragments_memory (hchain : ChainOk chain) {skbLen : ℤ}
    (hsize : c.count + lenSum chain ≤ skbLen) (hf : f ∈ chain)
    (hx1 : f.offset ≤ x) (hx2 : x < f.fend) :
    (copyFragments skbLen c chain).memory x = byteAt f.skb.payload (f.ptr + (x - f.offset)) := by
  induction chain generalizing c with
  | nil => simp at hf
  | cons g rest ih =>
    have hrest := hchain.tail.lenSum_nonneg
    rw [lenSum_cons] at hsize
    unfold copyFragments
    rw [if_neg (by omega)]
    rcases mem_cons.mp hf with heq | hmem
    · rw [copyFragments_memory_of_lt]
      · have hlen := (hchain.frag g (by simp)).len_eq
        simp only [memcpy]
        rw [heq] at hx1 hx2 ⊢
        rw [if_pos (by omega)]
      · intro h hh
        have hle := hchain.head_le hh
        rw [heq] at hx2
        omega
    · apply ih hchain.tail _ hmem
      dsimp only
      omega

theorem connected_of_covered (hchain : ChainOk chain) (start : ℤ)
    (hstart : ∀ f ∈ chain, start ≤ f.offset)
    (hcovered : ∀ f ∈ chain, ∀ x, start ≤ x → x < f.offset → Covered chain x) :
    connected start chain = true := by
  induction chain generalizing start with
  | nil => rfl
  | cons fp rest ih =>
    have hfirst : fp.offset ≤ start := by
      by_contra hlt
      obtain ⟨g, hg, hgx⟩ := hcovered fp (by simp) start (le_refl start) (by omega)
      rcases mem_cons.mp hg with heq | hmem
      · rw [heq] at hgx
        omega
      · have hle := ((pairwise_cons.mp hchain.ordered).1 g hmem).1
        omega
    unfold connected
    rw [if_neg (by omega)]
    apply ih hchain.tail fp.fend
    · intro g hg
      exact hchain.head_le hg
    · intro g hg x hx1 hx2
      have hsize := (hchain.frag fp (by simp)).offset_le
      have hbegin := hstart fp (by simp)
      obtain ⟨h, hh, hhx⟩ := hcovered g (mem_cons_of_mem fp hg) x (by omega) hx2
      rcases mem_cons.mp hh with heq | hmem
      · rw [heq] at hhx
        omega
      · exact ⟨h, hmem, hhx⟩

theorem connected_fend_le (hchain : ChainOk chain) {start : ℤ}
    (h : connected start chain = true) (hf : f ∈ chain) :
    f.fend ≤ start + lenSum chain := by
  induction chain generalizing start with
  | nil => simp at hf
  | cons fp rest ih =>
    have hlen := (hchain.frag fp (by simp)).len_eq
    have hsum := hchain.tail.lenSum_nonneg
    rw [lenSum_cons]
    unfold connected at h
    split at h
    · simp at h
    · rcases mem_cons.mp hf with heq | hmem
      · rw [heq]
        omega
      · have hle := ih hchain.tail h hmem
        omega

end LinuxKernel.IpFragment
