import LinuxKernel.RecordLockSorted
import LinuxKernel.RecordLockExclusion

/-!
# Record locks as a byte map

A chain gives every owner and descriptor a map from the bytes of the file to
lock types.  `lock_it` sets the requested bytes in the map of the caller and
keeps the form of the chain, except for a lock up to `OFFSET_MAX` next to an
entry it should be merged with.
-/

namespace LinuxKernel.RecordLock
open List

/-- The form of a chain: the entries of one owner and descriptor stand
together, sorted and without overlap. -/
structure ChainOk (h : LockHeap) (chain : List Entry) : Prop where
  owner : ∀ x ∈ chain, (h.table x).flOwner ≠ none
  type : ∀ x ∈ chain, (h.table x).flType = .rdlck ∨ (h.table x).flType = .wrlck
  valid : ∀ x ∈ chain, (h.table x).Valid
  contiguous : Contiguous (chain.map fun x => (h.table x).key)
  sorted : chain.Pairwise fun x y => (h.table x).key = (h.table y).key →
    (h.table x).flStart < (h.table y).flStart
  disjoint : chain.Pairwise fun x y => (h.table x).key = (h.table y).key →
    ∀ b, ¬ ((h.table x).Covers b ∧ (h.table y).Covers b)

/-- The table around a chain: no entry is on a list twice, and those on the
free list have no owner. -/
structure HeapOk (h : LockHeap) (chain : List Entry) : Prop where
  nodup : (chain ++ h.freeList).Nodup
  free_owner : ∀ x ∈ h.freeList, (h.table x).flOwner = none
  sane : h.panicked = false

def ByteHolds (h : LockHeap) (chain : List Entry) (key : Option Task × ℕ)
    (b : ℤ) (t : LockType) : Prop :=
  ∃ x ∈ chain, (h.table x).key = key ∧ (h.table x).Covers b ∧ (h.table x).flType = t

structure ByteMapSet (h : LockHeap) (chain : List Entry) (req : FileLock)
    (res : LockResult) : Prop where
  inside : ∀ b t, req.Covers b → (ByteHolds res.heap res.chain req.key b t ↔
    t = req.flType ∧ t ≠ .unlck)
  outside : ∀ b t, ¬ req.Covers b →
    (ByteHolds res.heap res.chain req.key b t ↔ ByteHolds h chain req.key b t)
  others : res.chain.filter (fun x => (res.heap.table x).key ≠ req.key) =
    chain.filter fun x => (h.table x).key ≠ req.key
  others_cells : ∀ x ∈ chain, (h.table x).key ≠ req.key → res.heap.table x = h.table x
  chainOk : ChainOk res.heap res.chain

def Mergeable (req fl : FileLock) : Prop :=
  fl.key = req.key ∧ fl.flType = req.flType ∧ req.flStart - 1 ≤ fl.flEnd

/-- The request ends in `OFFSET_MAX`, an entry is to be merged with it, and
there is a place for the request in front of all such entries: a free table
entry, or an entry of the other type to replace. -/
def MergeLost (h : LockHeap) (chain : List Entry) (req : FileLock) : Prop :=
  req.flType ≠ .unlck ∧ req.flEnd = offsetMax ∧
    (∃ e ∈ chain, Mergeable req (h.table e)) ∧
    (h.freeList ≠ [] ∨ ∃ d ∈ chain, (h.table d).key = req.key ∧
      (h.table d).flType ≠ req.flType ∧ req.flStart ≤ (h.table d).flStart ∧
      ∀ e ∈ chain, Mergeable req (h.table e) → (h.table d).flStart < (h.table e).flStart)

variable {h0 : LockHeap} {req : FileLock} {chain pre own post : List Entry}

theorem ChainOk.ownSorted (hchain : ChainOk h0 chain)
    (hsplit : ChainSplit h0 req chain pre own post) : OwnSorted h0 own := by
  have hsub : own.Sublist chain := by
    rw [hsplit.chain_eq]
    exact (sublist_append_left own post).trans
      (sublist_append_right pre _)
  constructor
  · have hboth := (hchain.sorted.and hchain.disjoint).sublist hsub
    refine hboth.imp_of_mem ?_
    intro x y hx hy hxy
    have hkey : (h0.table x).key = (h0.table y).key :=
      (hsplit.own_key x hx).trans (hsplit.own_key y hy).symm
    have hlt := hxy.1 hkey
    have hdis := hxy.2 hkey (h0.table y).flStart
    have hvalid := (hchain.valid y (hsub.subset hy)).start_le_end
    by_contra hle
    exact hdis ⟨⟨hlt.le, not_lt.mp hle⟩, le_rfl, hvalid⟩
  · exact fun x hx => hchain.valid x (hsub.subset hx)
  · exact fun x hx => hchain.type x (hsub.subset hx)

theorem ChainOk.chainLock (hchain : ChainOk h0 chain) {x : Entry}
    (hx : x ∈ chain) : ChainLock (h0.table x) :=
  ⟨hchain.owner x hx, hchain.type x hx, (hchain.valid x hx).start_nonneg,
    (hchain.valid x hx).end_le⟩

theorem OwnSorted.segments {own : List Entry} (hsorted : OwnSorted h0 own) :
    Segment.Sorted (own.map fun x => (h0.table x).segment) := by
  constructor
  · intro s hs
    obtain ⟨x, hx, rfl⟩ := mem_map.mp hs
    exact (hsorted.valid x hx).start_le_end
  · exact List.Pairwise.map _ (fun _ _ h => h) hsorted.ordered

theorem byteHolds_iff_segments {h : LockHeap} {l own : List Entry}
    {key : Option Task × ℕ}
    (hown : ∀ x, x ∈ own ↔ x ∈ l ∧ (h.table x).key = key)
    {b : ℤ} {t : LockType} :
    ByteHolds h l key b t ↔ Segment.Holds (own.map fun x => (h.table x).segment) b t := by
  constructor
  · rintro ⟨x, hx, hkey, hcover, htype⟩
    exact ⟨_, mem_map.mpr ⟨x, (hown x).mpr ⟨hx, hkey⟩, rfl⟩, hcover, htype⟩
  · rintro ⟨_, hs, hcover, htype⟩
    obtain ⟨x, hx, rfl⟩ := mem_map.mp hs
    obtain ⟨hx, hkey⟩ := (hown x).mp hx
    exact ⟨x, hx, hkey, hcover, htype⟩

theorem ChainSplit.mem_own_iff (hsplit : ChainSplit h0 req chain pre own post)
    (x : Entry) : x ∈ own ↔ x ∈ chain ∧ (h0.table x).key = req.key := by
  constructor
  · exact fun hx => ⟨hsplit.mem_own hx, hsplit.own_key x hx⟩
  · rintro ⟨hx, hkey⟩
    rw [hsplit.chain_eq] at hx
    simp only [mem_append] at hx
    rcases hx with hx | hx | hx
    · exact absurd hkey (hsplit.pre_key x hx)
    · exact hx
    · exact absurd hkey (hsplit.post_key x hx)

section Result

variable {out : List Entry} {res : LockResult}
  (hsplit : ChainSplit h0 req chain pre own post)
  (hpost : LockPost h0 req pre own post out res)
  (hheap : HeapOk h0 chain)

include hsplit hpost hheap

theorem LockPost.other_key {x : Entry} (hx : x ∈ pre ∨ x ∈ post) :
    res.heap.table x = h0.table x := by
  obtain ⟨hmem, hown, _⟩ := hsplit.mem_other hx
  exact hpost.frame hheap.nodup hmem hown

theorem LockPost.mem_out_iff (x : Entry) :
    x ∈ out ↔ x ∈ res.chain ∧ (res.heap.table x).key = req.key := by
  constructor
  · intro hx
    refine ⟨?_, (hpost.heap.entries x hx).key⟩
    rw [hpost.chain_eq]
    simp [hx]
  · rintro ⟨hx, hkey⟩
    rcases hpost.mem_chain hsplit hx with h | ⟨hmem, hown, hne⟩
    · exact h
    · rw [hpost.frame hheap.nodup hmem hown] at hkey
      exact absurd hkey hne

theorem LockPost.others :
    res.chain.filter (fun x => (res.heap.table x).key ≠ req.key) =
      chain.filter fun x => (h0.table x).key ≠ req.key := by
  have hkeep : ∀ (h : LockHeap) (l : List Entry),
      (∀ x ∈ l, (h.table x).key ≠ req.key) →
      l.filter (fun x => (h.table x).key ≠ req.key) = l := by
    intro h l hl
    apply filter_eq_self.mpr
    simpa using hl
  have hdrop : ∀ (h : LockHeap) (l : List Entry),
      (∀ x ∈ l, (h.table x).key = req.key) →
      l.filter (fun x => (h.table x).key ≠ req.key) = [] := by
    intro h l hl
    apply filter_eq_nil_iff.mpr
    simpa using hl
  have hnew : ∀ x, x ∈ pre ∨ x ∈ post → (res.heap.table x).key ≠ req.key := by
    intro x hx
    rw [hpost.other_key hsplit hheap hx]
    exact (hsplit.mem_other hx).2.2
  rw [hpost.chain_eq, hsplit.chain_eq]
  simp only [filter_append]
  rw [hkeep _ pre fun x hx => hnew x (.inl hx),
    hkeep _ post fun x hx => hnew x (.inr hx),
    hkeep _ pre hsplit.pre_key, hkeep _ post hsplit.post_key,
    hdrop _ out fun x hx => (hpost.heap.entries x hx).key,
    hdrop _ own hsplit.own_key]

theorem LockPost.pairwise {R : FileLock → FileLock → Prop}
    (hold : chain.Pairwise fun x y =>
      (h0.table x).key = (h0.table y).key → R (h0.table x) (h0.table y))
    (hout : out.Pairwise fun x y =>
      R (res.heap.table x) (res.heap.table y)) :
    res.chain.Pairwise fun x y =>
      (res.heap.table x).key = (res.heap.table y).key →
        R (res.heap.table x) (res.heap.table y) := by
  have hcell := fun x hx => hpost.other_key hsplit hheap (x := x) hx
  have hkey : ∀ x, x ∈ pre ∨ x ∈ post → (res.heap.table x).key ≠ req.key := by
    intro x hx
    rw [hcell x hx]
    exact (hsplit.mem_other hx).2.2
  have houtKey : ∀ x ∈ out, (res.heap.table x).key = req.key :=
    fun x hx => (hpost.heap.entries x hx).key
  rw [hsplit.chain_eq, pairwise_append, pairwise_append] at hold
  obtain ⟨hpre, ⟨-, hpostPair, -⟩, hcross⟩ := hold
  rw [hpost.chain_eq, pairwise_append, pairwise_append]
  refine ⟨?_, ⟨?_, ?_, ?_⟩, ?_⟩
  · refine hpre.imp_of_mem ?_
    intro x y hx hy hxy
    rw [hcell x (.inl hx), hcell y (.inl hy)]
    exact hxy
  · refine hout.imp ?_
    intro x y hxy _
    exact hxy
  · refine hpostPair.imp_of_mem ?_
    intro x y hx hy hxy
    rw [hcell x (.inr hx), hcell y (.inr hy)]
    exact hxy
  · intro x hx y hy heq
    exact absurd (heq.symm.trans (houtKey x hx)) (hkey y (.inr hy))
  · intro x hx y hy
    rcases mem_append.mp hy with hy | hy
    · intro heq
      exact absurd (heq.trans (houtKey y hy)) (hkey x (.inl hx))
    · rw [hcell x (.inl hx), hcell y (.inr hy)]
      exact hcross x hx y (mem_append_right _ hy)

theorem LockPost.chainOk (hreq : req.flOwner ≠ none)
    (hchain : ChainOk h0 chain)
    (hseg : Segment.Sorted (out.map fun x => (res.heap.table x).segment)) :
    ChainOk res.heap res.chain := by
  have hvalidOut : ∀ x ∈ out, (res.heap.table x).Valid := by
    intro x hx
    have hown := hpost.heap.entries x hx
    exact ⟨hown.start_nonneg, hseg.nonempty _ (mem_map.mpr ⟨x, hx, rfl⟩), hown.end_le⟩
  have hordered : out.Pairwise fun x y =>
      (res.heap.table x).flEnd < (res.heap.table y).flStart := by
    exact pairwise_map.mp hseg.ordered
  have hcase : ∀ {P : FileLock → Prop}, (∀ x ∈ out, P (res.heap.table x)) →
      (∀ x ∈ chain, P (h0.table x)) → ∀ x ∈ res.chain, P (res.heap.table x) := by
    intro P hnew hold x hx
    rcases hpost.mem_chain hsplit hx with h | ⟨hmem, hown, _⟩
    · exact hnew x h
    · rw [hpost.frame hheap.nodup hmem hown]
      exact hold x hmem
  constructor
  · refine hcase (P := fun fl => fl.flOwner ≠ none) ?_ hchain.owner
    intro x hx
    have howner : (res.heap.table x).flOwner = req.flOwner :=
      congrArg Prod.fst (hpost.heap.entries x hx).key
    rw [howner]
    exact hreq
  · exact hcase (P := fun fl => fl.flType = .rdlck ∨ fl.flType = .wrlck)
      (fun x hx => (hpost.heap.entries x hx).type) hchain.type
  · exact hcase (P := FileLock.Valid) hvalidOut hchain.valid
  · exact hpost.contiguous hsplit hheap.nodup hchain.contiguous
  · refine hpost.pairwise hsplit hheap
      (R := fun fl1 fl2 => fl1.flStart < fl2.flStart) hchain.sorted ?_
    refine hordered.imp_of_mem ?_
    intro x y hx _ hxy
    exact (hvalidOut x hx).start_le_end.trans_lt hxy
  · refine hpost.pairwise hsplit hheap
      (R := fun fl1 fl2 => ∀ b, ¬ (fl1.Covers b ∧ fl2.Covers b))
      hchain.disjoint ?_
    refine hordered.imp ?_
    rintro x y hxy b ⟨hx, hy⟩
    have h1 := hx.2
    have h2 := hy.1
    omega

end Result

theorem Halted.byteMapSet {current : Task} {fd : ℕ}
    (hreq : Request current fd req) (hheap : HeapOk h0 chain)
    (hchain : ChainOk h0 chain)
    (hsplit : ChainSplit h0 req chain pre own post)
    {out gone done rest : List Entry} {s s' : Scan}
    (hhalt : Halted h0 req pre own gone done rest s s')
    (hclear : Cleared h0 s rest s')
    (hpost : LockPost h0 req pre own post out
      (s'.finish current fd (rest ++ post)))
    (hret : (s'.finish current fd (rest ++ post)).ret = 0) :
    ByteMapSet h0 chain req (s'.finish current fd (rest ++ post)) := by
  have hsorted := hchain.ownSorted hsplit
  obtain ⟨out', hout', hseg⟩ := hhalt.finish_splice hsorted hreq
    (hsplit.own_nodup hheap.nodup) hclear hret
  have hsame : out' = out := by
    have h := hout'.symm.trans hpost.chain_eq
    exact append_cancel_right (append_cancel_left h)
  subst hsame
  have hvalid := hhalt.scan.caller_valid
  set mid : List (Segment LockType) :=
    if req.flType = .unlck then [] else [s.callerLock.segment] with hmid
  have hmidRange : ∀ t ∈ mid, s.callerLock.flStart ≤ t.start ∧ t.stop ≤ s.callerLock.flEnd := by
    intro t ht
    rw [hmid] at ht
    split at ht
    · simp at ht
    · obtain rfl := mem_singleton.mp ht
      exact ⟨le_rfl, le_rfl⟩
  have hmidSorted : Segment.Sorted mid := by
    rw [hmid]
    split
    · exact ⟨by simp, by simp⟩
    · refine ⟨?_, by simp⟩
      intro t ht
      obtain rfl := mem_singleton.mp ht
      exact hvalid.start_le_end
  have hmidHolds : ∀ b t, s.callerLock.Covers b →
      (Segment.Holds mid b t ↔ t = req.flType ∧ t ≠ .unlck) := by
    intro b t hb
    rw [hmid]
    by_cases hunlck : req.flType = .unlck
    · rw [if_pos hunlck]
      constructor
      · intro h
        exact absurd h (Segment.holds_nil b t)
      · rintro ⟨rfl, hne⟩
        exact absurd hunlck hne
    · rw [if_neg hunlck, Segment.holds_singleton]
      constructor
      · rintro ⟨_, ht⟩
        have ht' : t = req.flType := ht.symm.trans hhalt.scan.caller_type
        exact ⟨ht', ht' ▸ hunlck⟩
      · rintro ⟨rfl, _⟩
        exact ⟨hb, hhalt.scan.caller_type⟩
  have hnew : ∀ b t, ByteHolds (s'.finish current fd (rest ++ post)).heap
      (s'.finish current fd (rest ++ post)).chain req.key b t ↔
        if s.callerLock.Covers b then t = req.flType ∧ t ≠ .unlck
        else ByteHolds h0 chain req.key b t := by
    intro b t
    rw [byteHolds_iff_segments (hpost.mem_out_iff hsplit hheap), hseg,
      Segment.holds_splice hmidRange,
      byteHolds_iff_segments hsplit.mem_own_iff]
    by_cases hb : s.callerLock.Covers b
    · have hb' : s.callerLock.flStart ≤ b ∧ b ≤ s.callerLock.flEnd := hb
      rw [if_pos hb', if_pos hb]
      exact hmidHolds b t hb
    · have hb' : ¬ (s.callerLock.flStart ≤ b ∧ b ≤ s.callerLock.flEnd) := hb
      rw [if_neg hb', if_neg hb]
  constructor
  · intro b t hb
    have hcover : s.callerLock.Covers b :=
      ⟨hhalt.map.start_le.trans hb.1, hb.2.trans hhalt.map.le_end⟩
    rw [hnew, if_pos hcover]
  · intro b t hb
    rw [hnew]
    split
    · rename_i hcover
      -- a byte won by merging had the requested type already
      obtain ⟨x, hx, htype, hxb⟩ := hhalt.map.widened b hcover hb
      have hxown : x ∈ own := by simp [hhalt.own_eq, hx]
      have hold : Segment.Holds (own.map fun x => (h0.table x).segment) b
          req.flType :=
        ⟨_, mem_map.mpr ⟨x, hxown, rfl⟩, hxb, htype⟩
      rw [byteHolds_iff_segments hsplit.mem_own_iff]
      constructor
      · rintro ⟨rfl, _⟩
        exact hold
      · intro h
        have ht := hsorted.segments.holds_unique h hold
        refine ⟨ht, ?_⟩
        rw [ht, ← htype]
        rcases hsorted.type x hxown with h | h <;> simp [h]
    · rfl
  · exact hpost.others hsplit hheap
  · intro x hx hkey
    apply hpost.frame hheap.nodup hx
    exact fun hown => hkey (hsplit.own_key x hown)
  · apply hpost.chainOk hsplit hheap hreq.owner hchain
    rw [hseg]
    exact hsorted.segments.splice hvalid.start_le_end hmidSorted hmidRange

theorem not_chainOk_of_front {h : LockHeap} {front back : List Entry}
    {c e : Entry} (he : e ∈ back) (hkey : (h.table c).key = (h.table e).key)
    (hend : (h.table e).flStart ≤ (h.table c).flEnd) :
    ¬ ChainOk h (front ++ c :: back) := by
  intro hchain
  have hsorted := (pairwise_append.mp hchain.sorted).2.1
  have hdisjoint := (pairwise_append.mp hchain.disjoint).2.1
  have hlt := (pairwise_cons.mp hsorted).1 e he hkey
  have hdis := (pairwise_cons.mp hdisjoint).1 e he hkey
    (h.table e).flStart
  have hvalid := (hchain.valid e (by simp [he])).start_le_end
  exact hdis ⟨⟨hlt.le, hend⟩, le_rfl, hvalid⟩

section Stuck

variable {current : Task} {fd : ℕ} {gone done rest : List Entry} {s s' : Scan}
  (hhalt : Halted h0 req pre own gone done rest s s')
  (hsorted : OwnSorted h0 own)

include hhalt

theorem Halted.finish_eq_of_stuck (current : Task) (fd : ℕ)
    (post : List Entry) (hs : s' = s)
    (hunlck : req.flType ≠ .unlck) :
    (∃ c, s.caller = some c ∧ s'.finish current fd (rest ++ post) =
      ⟨0, s.trimLeft, s.before ++ (rest ++ post)⟩) ∨
    (s.caller = none ∧ h0.freeList = [] ∧ (s'.finish current fd (rest ++ post)).ret ≠ 0) ∨
    (s.caller = none ∧ ∃ tmp heap,
      h0.freeList ≠ [] ∧
      allocLock current s.heap s.callerLock fd = some (tmp, heap) ∧
      s'.finish current fd (rest ++ post) =
        ⟨0, ({ s with heap := heap, caller := some tmp } : Scan).trimLeft,
          s.before ++ tmp :: (rest ++ post)⟩) := by
  subst hs
  have hright := hhalt.right_none
  have hctype : s'.callerLock.flType ≠ .unlck := by
    rw [hhalt.scan.caller_type]
    exact hunlck
  cases hc : s'.caller with
  | some c =>
    left
    refine ⟨c, rfl, ?_⟩
    have hadd : s'.added = true := (hhalt.map.added_iff hunlck).mpr (by simp [hc])
    simp [Scan.finish, hadd, Scan.trim, hright]
  | none =>
    right
    have hadd : s'.added = false := by
      by_contra h
      have hne := (hhalt.map.added_iff hunlck).mp (by simpa using h)
      exact hne hc
    have hfree := hhalt.max.free_eq hunlck hc
    cases hlist : h0.freeList with
    | nil =>
      rw [hlist] at hfree
      simp [Scan.finish, hadd, hctype, allocLock, hfree, enolck]
    | cons tmp free =>
      right
      rw [hlist] at hfree
      cases halloc : allocLock current s'.heap s'.callerLock fd with
      | none => simp [allocLock, hfree] at halloc
      | some res =>
        obtain ⟨l, heap⟩ := res
        refine ⟨rfl, l, heap, by simp, rfl, ?_⟩
        simp [Scan.finish, hadd, hctype, halloc, Scan.trim, hright]

include hsorted

theorem Halted.not_chainOk_of_stuck (hreq : Request current fd req)
    (hheap : HeapOk h0 chain)
    (hsplit : ChainSplit h0 req chain pre own post) (hs : s' = s)
    (hstuck : Stuck h0 req rest) (hunlck : req.flType ≠ .unlck)
    (hret : (s'.finish current fd (rest ++ post)).ret = 0) :
    ¬ ChainOk (s'.finish current fd (rest ++ post)).heap
      (s'.finish current fd (rest ++ post)).chain := by
  obtain ⟨hmax, e, rest', hrest, _, _⟩ := hstuck
  have hnodup := hsplit.own_nodup hheap.nodup
  have heOwn : e ∈ own := by simp [hhalt.own_eq, hrest]
  have hvalid := hsorted.valid e heOwn
  have hkeyE : (h0.table e).key = req.key := hsplit.own_key e heOwn
  have hcellE : s.heap.table e = h0.table e := hhalt.map.cells_rest e (by simp [hrest])
  have hcover : (h0.table e).flStart ≤ s.callerLock.flEnd := by
    have h1 := hhalt.map.le_end
    have h2 := hvalid.start_le_end
    have h3 := hvalid.end_le
    omega
  have hleftE : s.left ≠ some e := by
    intro hl
    have hmem := (hhalt.map.left_spec e hl).1
    have hnd := hhalt.rest_nodup hnodup
    rw [nodup_append] at hnd
    exact hnd.2.2 e hmem e (by simp [hrest]) rfl
  rcases hhalt.finish_eq_of_stuck current fd post hs hunlck with
    ⟨c, hc, heq⟩ | ⟨_, _, hne⟩ | ⟨hnone, tmp, heap, _, halloc, heq⟩
  · have hlock : s.callerLock = s.heap.table c := by
      simp [Scan.callerLock, hc]
    have hleftC : s.left ≠ some c := fun hl =>
      (hhalt.scan.left_spec c hl).2.1 hc
    have hcellC : s.trimLeft.table c = s.callerLock := by
      rw [Scan.trimLeft_table, if_neg hleftC, hlock]
    have hcellE' : s.trimLeft.table e = h0.table e := by
      rw [Scan.trimLeft_table, if_neg hleftE, hcellE]
    rw [heq, hhalt.map.before_eq, hc]
    have hchain : pre ++ (lowEntries h0 gone s.callerLock.flStart ++
        (some c).toList) ++ (rest ++ post) =
        (pre ++ lowEntries h0 gone s.callerLock.flStart) ++ c :: (rest ++ post) := by simp
    rw [hchain]
    apply not_chainOk_of_front (e := e)
    · simp [hrest]
    · rw [hcellC, hcellE', hkeyE]
      exact hhalt.scan.caller_key
    · rw [hcellC, hcellE']
      exact hcover
  · exact absurd hret hne
  · have hown : OwnLock h0 own req s.callerLock := by
      have hv := hhalt.scan.caller_valid
      refine ⟨hhalt.scan.caller_key, ?_, hv.start_nonneg, hv.end_le, hhalt.scan.caller_granted⟩
      rw [hhalt.scan.caller_type]
      have h := hreq.type
      tauto
    obtain ⟨hpost, hcell, hframe⟩ := hhalt.scan.heapPost.alloc hnodup hreq.key
      hown halloc
    have hnew : tmp ∉ done ++ rest := by
      have h := hpost.perm.nodup_iff.mpr hnodup
      rw [cons_append, nodup_cons] at h
      exact fun hmem => h.1 (mem_append_left _ hmem)
    have heTmp : e ≠ tmp := by
      rintro rfl
      exact hnew (by simp [hrest])
    have hleftTmp : s.left ≠ some tmp := by
      intro hl
      apply hnew
      obtain ⟨h1, h2, _⟩ := hhalt.map.left_spec tmp hl
      rw [hhalt.map.done_eq hhalt.scan]
      simp [mem_lowEntries.mpr ⟨h1, h2⟩]
    set s1 : Scan := { s with heap := heap, caller := some tmp } with hs1
    have hcellC : s1.trimLeft.table tmp = s.callerLock := by
      rw [Scan.trimLeft_table, if_neg hleftTmp]
      exact hcell
    have hcellE' : s1.trimLeft.table e = h0.table e := by
      rw [Scan.trimLeft_table, if_neg hleftE]
      exact (hframe e heTmp).trans hcellE
    rw [heq]
    apply not_chainOk_of_front (e := e)
    · simp [hrest]
    · rw [hcellC, hcellE', hkeyE]
      exact hhalt.scan.caller_key
    · rw [hcellC, hcellE']
      exact hcover

theorem Halted.stuck_iff (current : Task) (fd : ℕ)
    (hsplit : ChainSplit h0 req chain pre own post) :
    MergeLost h0 chain req ↔ (s' = s ∧ Stuck h0 req rest ∧
      req.flType ≠ .unlck ∧
      (s'.finish current fd (rest ++ post)).ret = 0) := by
  constructor
  · rintro ⟨hunlck, hmax, ⟨e, he, hekey, hetype, heend⟩, hroom⟩
    have heOwn : e ∈ own := (hsplit.mem_own_iff e).mpr ⟨he, hekey⟩
    have heRest : e ∈ rest := by
      rw [hhalt.own_eq, mem_append] at heOwn
      rcases heOwn with h | h
      · have hlt := hhalt.max.passed hmax e h hetype
        omega
      · exact h
    have hend : s.callerLock.flEnd = offsetMax := by
      have h1 := hhalt.map.le_end
      have h2 := hhalt.scan.caller_valid.end_le
      omega
    have hstuck : s' = s ∧ Stuck h0 req rest := by
      rcases hhalt.cases hsorted with hclear | hstuck
      · exfalso
        have hbound : ∀ x ∈ rest, (h0.table x).flStart ≤ offsetMax ∧
            (h0.table x).flEnd ≤ offsetMax := by
          intro x hx
          have hv := hsorted.valid x (by simp [hhalt.own_eq, hx])
          exact ⟨hv.start_le_end.trans hv.end_le, hv.end_le⟩
        cases hclear with
        | above habove =>
          have h1 := habove e heRest
          have h2 := (hbound e heRest).1
          omega
        | @right r rest' hrest hlow hstart hend' =>
          have h := (hbound r (by simp [hrest])).2
          omega
      · exact hstuck
    refine ⟨hstuck.1, hstuck.2, hunlck, ?_⟩
    rcases hhalt.finish_eq_of_stuck current fd post hstuck.1 hunlck with
      ⟨c, _, heq⟩ | ⟨hnone, hfree, _⟩ | ⟨_, tmp, heap, _, _, heq⟩
    · rw [heq]
    · exfalso
      rcases hroom with h | ⟨d, hd, hdkey, hdtype, hdstart, hdlt⟩
      · exact h hfree
      · obtain ⟨_, e', rest', hrest, he'type, he'end⟩ := hstuck.2
        have he'own : e' ∈ own := by simp [hhalt.own_eq, hrest]
        have hdlt' := hdlt e' (hsplit.mem_own he'own)
          ⟨hsplit.own_key e' he'own, he'type, he'end⟩
        have hdOwn : d ∈ own := (hsplit.mem_own_iff d).mpr ⟨hd, hdkey⟩
        rw [hhalt.own_eq, hrest, mem_append, mem_cons] at hdOwn
        rcases hdOwn with h | rfl | h
        · have hlt := hhalt.max.gone_low hunlck hnone d h
          omega
        · exact hdtype he'type
        · have horder := hhalt.order hsorted hrest
          have h1 := horder.rest_lt d h
          have h2 := horder.valid.start_le_end
          omega
    · rw [heq]
  · rintro ⟨hs, hstuck, hunlck, hret⟩
    obtain ⟨hmax, e, rest', hrest, hetype, heend⟩ := hstuck
    have heOwn : e ∈ own := by simp [hhalt.own_eq, hrest]
    refine ⟨hunlck, hmax, ⟨e, hsplit.mem_own heOwn, hsplit.own_key e heOwn, hetype, heend⟩, ?_⟩
    rcases hhalt.finish_eq_of_stuck current fd post hs hunlck with
      ⟨c, hc, _⟩ | ⟨_, _, hne⟩ | ⟨_, tmp, heap, hfree, _, _⟩
    · right
      obtain ⟨d, hd, hdtype, hdstart⟩ := hhalt.max.origin hmax (by simp [hc])
      have hdOwn : d ∈ own := by simp [hhalt.own_eq, hd]
      refine ⟨d, hsplit.mem_own hdOwn, hsplit.own_key d hdOwn, hdtype, hdstart, ?_⟩
      rintro e' he' ⟨he'key, he'type, he'end⟩
      have he'own : e' ∈ own := (hsplit.mem_own_iff e').mpr ⟨he', he'key⟩
      have he'rest : e' ∈ rest := by
        rw [hhalt.own_eq, mem_append] at he'own
        rcases he'own with h | h
        · have hlt := hhalt.max.passed hmax e' h he'type
          omega
        · exact h
      have hpair := hsorted.ordered
      rw [hhalt.own_eq, pairwise_append] at hpair
      have hlt := hpair.2.2 d hd e' he'rest
      have hv := (hsorted.valid d hdOwn).start_le_end
      omega
    · exact absurd hret hne
    · exact .inl hfree

end Stuck

/-! ## The whole call -/

section Call

variable {current : Task} {fd : ℕ} (hreq : Request current fd req)
  (hheap : HeapOk h0 chain) (hchain : ChainOk h0 chain)

include hreq hheap hchain

theorem lockIt_cases :
    (¬ MergeLost h0 chain req ∧
      ((lockIt current h0 chain req fd).ret = 0 →
        ByteMapSet h0 chain req (lockIt current h0 chain req fd))) ∨
    (MergeLost h0 chain req ∧ (lockIt current h0 chain req fd).ret = 0 ∧
      ¬ ChainOk (lockIt current h0 chain req fd).heap
        (lockIt current h0 chain req fd).chain) := by
  obtain ⟨pre, own, post, hsplit, hskip⟩ := exists_chainSplit h0 req chain hchain.contiguous
  have hnodup := hsplit.own_nodup hheap.nodup
  have hsorted := hchain.ownSorted hsplit
  have hlocks : ∀ x ∈ own, ChainLock (h0.table x) := fun x hx =>
    hchain.chainLock (hsplit.mem_own hx)
  obtain ⟨out, hpost⟩ := lockIt_post_of_split hreq hsplit hskip hnodup hlocks
    hheap.free_owner hheap.sane
  obtain ⟨gone, done, rest, s, s', hhalt, heq⟩ := lockIt_halts hreq hsplit
    hskip hnodup hsorted hlocks hheap.free_owner hheap.sane
  rw [heq] at hpost ⊢
  have hiff := hhalt.stuck_iff hsorted current fd hsplit
  by_cases hlost : MergeLost h0 chain req
  · right
    obtain ⟨hs, hstuck, hunlck, hret⟩ := hiff.mp hlost
    exact ⟨hlost, hret, hhalt.not_chainOk_of_stuck hsorted hreq hheap hsplit
      hs hstuck hunlck hret⟩
  · left
    refine ⟨hlost, ?_⟩
    intro hret
    rcases hhalt.cases hsorted with hclear | ⟨hs, hstuck⟩
    · exact hhalt.byteMapSet hreq hheap hchain hsplit hclear hpost hret
    · exfalso
      apply hlost
      refine hiff.mpr ⟨hs, hstuck, ?_, hret⟩
      obtain ⟨_, e, rest', hrest, hetype, _⟩ := hstuck
      rw [← hetype]
      rcases hsorted.type e (by simp [hhalt.own_eq, hrest]) with h | h <;>
        simp [h]

end Call

/-- A call on a chain of the right form that returns 0 sets exactly the
requested bytes, unless it loses an entry it has to be merged with. -/
theorem lockIt_byteMapSet_iff {current : Task} {filp : File} {l : Flock}
    {fd : ℕ} (hcopy : copyFlock current filp l fd = some req)
    (htype : req.flType = .rdlck ∨ req.flType = .wrlck ∨ req.flType = .unlck)
    (hheap : HeapOk h0 chain) (hchain : ChainOk h0 chain) :
    ((lockIt current h0 chain req fd).ret = 0 →
      ByteMapSet h0 chain req (lockIt current h0 chain req fd)) ↔ ¬ MergeLost h0 chain req := by
  obtain ⟨howner, hfd, hvalid⟩ := copyFlock_spec hcopy
  have hreq : Request current fd req := ⟨Prod.ext howner hfd, hvalid, htype⟩
  rcases lockIt_cases hreq hheap hchain with ⟨hlost, hset⟩ |
    ⟨hlost, hret, hbad⟩
  · exact ⟨fun _ => hlost, fun _ => hset⟩
  · constructor
    · intro hset
      exact absurd (hset hret).chainOk hbad
    · intro h
      exact absurd hlost h

def oneLockHeap : LockHeap where
  table := fun x => if x = 0 then ⟨some 1, 3, .rdlck, 0, 10, 20⟩
    else ⟨none, 0, .rdlck, 0, 0, 0⟩
  freeList := [1]
  panicked := false

def regularFile : File := ⟨1, 0, some ⟨7, true, 100⟩⟩

theorem oneLockHeap_heapOk : HeapOk oneLockHeap [0] := by
  constructor
  · decide
  · decide
  · rfl

theorem oneLockHeap_chainOk : ChainOk oneLockHeap [0] := by
  constructor
  · simp [oneLockHeap]
  · simp [oneLockHeap]
  · intro x hx
    obtain rfl := mem_singleton.mp hx
    constructor <;> simp [oneLockHeap, offsetMax]
  · simp [Contiguous]
  · simp
  · simp

/-- A read lock on the bytes 5 to 30 takes the old one in. -/
theorem lockIt_byteMapSet_iff_within :
    copyFlock 1 regularFile ⟨0, 0, 5, 26⟩ 3 = some ⟨some 1, 3, .rdlck, 0, 5, 30⟩ ∧
    (((lockIt 1 oneLockHeap [0] ⟨some 1, 3, .rdlck, 0, 5, 30⟩ 3).ret = 0 →
      ByteMapSet oneLockHeap [0] ⟨some 1, 3, .rdlck, 0, 5, 30⟩
        (lockIt 1 oneLockHeap [0] ⟨some 1, 3, .rdlck, 0, 5, 30⟩ 3)) ↔
      ¬ MergeLost oneLockHeap [0] ⟨some 1, 3, .rdlck, 0, 5, 30⟩) := by
  have hcopy : copyFlock 1 regularFile ⟨0, 0, 5, 26⟩ 3 =
      some ⟨some 1, 3, .rdlck, 0, 5, 30⟩ := by decide
  exact ⟨hcopy, lockIt_byteMapSet_iff hcopy (.inl rfl) oneLockHeap_heapOk
    oneLockHeap_chainOk⟩

/-- A read lock from byte 5 to the end of the file is put in front of the
lock on the bytes 10 to 20. -/
theorem lockIt_overlaps_at_offsetMax :
    ¬ ∀ (current : Task) (filp : File) (l : Flock) (fd : ℕ) (req : FileLock)
        (h : LockHeap) (chain : List Entry),
      copyFlock current filp l fd = some req →
      (req.flType = .rdlck ∨ req.flType = .wrlck ∨ req.flType = .unlck) →
      HeapOk h chain → ChainOk h chain → Unopposed h chain req →
      (lockIt current h chain req fd).ret = 0 →
      ByteMapSet h chain req (lockIt current h chain req fd) := by
  intro hall
  set req : FileLock := ⟨some 1, 3, .rdlck, 0, 5, offsetMax⟩ with hreq
  have hcopy : copyFlock 1 regularFile ⟨0, 0, 5, 0⟩ 3 = some req := by
    decide
  have hrequest : Request 1 3 req := by
    refine ⟨rfl, ⟨?_, ?_, ?_⟩, .inl rfl⟩ <;> simp [hreq, offsetMax]
  have hfree : Unopposed oneLockHeap [0] req := by
    intro _ x hx
    obtain rfl := mem_singleton.mp hx
    decide
  have hlost : MergeLost oneLockHeap [0] req := by
    refine ⟨by simp [hreq], rfl, ⟨0, by simp, ?_⟩, .inl (by
      simp [oneLockHeap])⟩
    refine ⟨rfl, rfl, ?_⟩
    simp [hreq, oneLockHeap]
  rcases lockIt_cases hrequest oneLockHeap_heapOk oneLockHeap_chainOk with
    ⟨h, _⟩ | ⟨_, hret, hbad⟩
  · exact h hlost
  · have hset := hall 1 regularFile ⟨0, 0, 5, 0⟩ 3 req oneLockHeap [0] hcopy
      (.inl rfl) oneLockHeap_heapOk oneLockHeap_chainOk hfree hret
    exact hbad hset.chainOk

end LinuxKernel.RecordLock
