import LinuxKernel.KmallocInvariant

/-!
# Runs of the small-object allocator

What holds in every state that calls of `kmalloc` and `kfree_s` reach, with
other calls running while a `kmalloc` sleeps in `__get_free_page`.
-/

namespace LinuxKernel.Kmalloc

variable {st : Malloc}

variable {o : Object} {size : ℕ}

section
variable (hinv : Inv st) (ho : o ∈ st.live)
include hinv ho

theorem Inv.kfreeS_eq (hsize : size ≤ bucketSize o.bdir) :
    ∃ d ∈ st.chain o.bdir, o.addr ∈ slots (st.desc d).page o.bdir ∧
      st.kfreeS o.addr size = some (st.found o.addr o.bdir d) := by
  obtain ⟨_, d, hd, hslot⟩ := hinv.live_slot o ho
  have hne : o.addr ≠ 0 := by
    have h1 := (slots_bounds hslot).1
    have h2 := (hinv.page_aligned _ d hd).2
    omega
  refine ⟨d, hd, hslot, ?_⟩
  unfold Malloc.kfreeS
  rw [if_neg hne, hinv.findDesc hd hslot hsize]

theorem Inv.kfreeS (hsize : size ≤ bucketSize o.bdir) {st' : Malloc}
    (hfree : st.kfreeS o.addr size = some st') : Inv { st' with live := st.live.erase o } := by
  obtain ⟨d, hd, hslot, heq⟩ := hinv.kfreeS_eq ho hsize
  rw [heq] at hfree
  obtain rfl := Option.some.inj hfree
  rw [found_eq]
  have hbase := freeObject_baseInv hinv ho hd hslot
  have hbusy : ∀ b', ∀ e ∈ (st.freeObject o d).chain b', e ≠ d →
      0 < ((st.freeObject o d).desc e).refcnt := by
    intro b' e he hne
    rw [freeObject_desc_ne hne]
    exact hinv.busy b' e he
  split
  · rename_i hzero
    exact hbase.unlinkPage hd hzero hbusy
  · rename_i hne
    refine ⟨hbase, ?_⟩
    intro b' e he
    by_cases hed : e = d
    · subst hed
      exact Nat.pos_of_ne_zero hne
    · exact hbusy b' e he hed

theorem Inv.write (data : ℕ → ℕ) :
    Inv { st with mem := fun a => if o.Contains a then data a else st.mem a } := by
  set mem' : ℕ → ℕ := fun a => if o.Contains a then data a else st.mem a
    with hmem'
  have hcells : ∀ b, ∀ d ∈ st.chain b, ∀ cells, FreeCells st b d cells →
      FreeCells { st with mem := mem' } b d cells := by
    intro b d hd cells h
    refine ⟨?_, h.nodup, h.mem_iff, h.count⟩
    apply h.linked.congr
    intro x hx
    obtain ⟨hslot, hfree⟩ := (h.mem_iff x).mp hx
    have hout : ¬ o.Contains x := by
      rintro ⟨hle, hlt⟩
      obtain ⟨_, e, he, hslotO⟩ := hinv.live_slot o ho
      have hboundsO := slots_bounds hslotO
      have hbounds := slots_bounds hslot
      have halignO := (hinv.page_aligned _ e he).1
      have halign := (hinv.page_aligned b d hd).1
      have hpos := bucketSize_pos b
      have hpage : (st.desc d).page = (st.desc e).page := by
        unfold pageSize at *
        omega
      obtain rfl := hinv.page_inj b o.bdir d hd e he hpage
      obtain rfl := hinv.chain_unique hd he
      have hne : o.addr ≠ x := hfree o ho
      rcases slots_disjoint hslotO hslot hne with h' | h' <;> omega
    simp [hmem', hout]
  constructor
  · constructor
    · intro e l l' h h'
      apply hinv.place_unique e l l'
      · cases l <;> exact h
      · cases l' <;> exact h'
    · exact hinv.free_nodup
    · exact hinv.chain_nodup
    · intro e l h
      apply hinv.desc_page e l
      cases l <;> exact h
    · exact hinv.page_aligned
    · exact hinv.page_use
    · exact hinv.page_inj
    · intro b d hd
      obtain ⟨cells, h⟩ := hinv.cells b d hd
      exact ⟨cells, hcells b d hd cells h⟩
    · exact hinv.live_nodup
    · exact hinv.live_slot
    · exact hinv.waits
  · exact hinv.busy

end

theorem Inv.setPage (hinv : Inv st) {page : ℕ} {use : PageUse}
    (hpage : st.pageUse page ≠ .kmalloc) : Inv (st.setPage page use) := by
  have hkeep : ∀ p, st.pageUse p = .kmalloc → (st.setPage page use).pageUse p = .kmalloc := by
    intro p hp
    have hne : p ≠ page := by
      rintro rfl
      exact hpage hp
    rw [setPage_eq_of_ne hne]
    exact hp
  have hhas : ∀ d l, (st.setPage page use).Has d l → st.Has d l := by
    intro d l h
    cases l <;> exact h
  apply hinv.bookkeeping
  · exact ⟨rfl, rfl, rfl, rfl⟩
  · intro d l l' h h'
    exact hinv.place_unique d l l' (hhas d l h) (hhas d l' h')
  · exact hinv.free_nodup
  · intro d l h
    obtain ⟨huse, hne⟩ := hinv.desc_page d l (hhas d l h)
    exact ⟨hkeep _ huse, hne⟩
  · intro b d hd
    exact hkeep _ (hinv.page_use b d hd)
  · exact hinv.waits

theorem Inv.step (hinv : Inv st) {st' : Malloc} (hstep : st.Step st') : Inv st' := by
  cases hstep with
  | kmalloc call len hidle => exact hinv.kmalloc len hidle
  | gotPage call page hwaits hpage => exact hinv.gotPage hpage
  | kfreeS o ho size hsize hfree => exact hinv.kfreeS ho hsize hfree
  | write o ho data => exact hinv.write ho data
  | otherGets page hpage =>
    apply hinv.setPage
    simp [hpage.2.2]
  | otherFrees page hpage =>
    apply hinv.setPage
    simp [hpage]

theorem Malloc.Reachable.inv (hreach : st.Reachable) : Inv st := by
  induction hreach with
  | init mem pageUse huse => exact Inv.init mem pageUse
  | step hreach hstep ih => exact ih.step hstep

/-! ## What the invariant says -/

/-- A stretch of `kmalloc` has left the pages on the bucket chains, their
free lists and the live objects alone. -/
def PagesKept (st st' : Malloc) : Prop :=
  st'.chain = st.chain ∧ st'.desc = st.desc ∧ st'.mem = st.mem ∧ st'.live = st.live

structure AllocatorOk (st : Malloc) : Prop where
  inside : ∀ o ∈ st.live, o.len ≤ bucketSize o.bdir ∧
    pageOf o.addr ≤ o.addr ∧
    o.addr + bucketSize o.bdir ≤ pageOf o.addr + pageSize
  disjoint : ∀ o ∈ st.live, ∀ o' ∈ st.live, o ≠ o' → ∀ a, ¬ (o.Contains a ∧ o'.Contains a)
  freeCells : ∀ b, ∀ d ∈ st.chain b, ∃ cells, FreeCells st b d cells
  on_chain : ∀ page, (∃ b, ∃ d ∈ st.chain b, (st.desc d).page = page) ↔
    ∃ o ∈ st.live, pageOf o.addr = page
  kfree_finds : ∀ o ∈ st.live, ∀ size ≤ bucketSize o.bdir,
    ∃ st', st.kfreeS o.addr size = some st' ∧
      ∀ page, (st'.pageUse page ≠ st.pageUse page ↔
        page = pageOf o.addr ∧ ∀ o' ∈ st.live, o' ≠ o → pageOf o'.addr ≠ page) ∧
        (st'.pageUse page ≠ st.pageUse page → st'.pageUse page = .free)
  null_start : ∀ call len, (∀ a, (st.kmalloc call len).2 ≠ .object a) →
    PagesKept st (st.kmalloc call len).1
  null_page : ∀ call page, (∀ a, (st.gotPage call page).2 ≠ .object a) →
    PagesKept st (st.gotPage call page).1

theorem Inv.page_eq_iff (hinv : Inv st) {b : Bucket} {d : ℕ}
    (hd : d ∈ st.chain b) (ho : o ∈ st.live) :
    pageOf o.addr = (st.desc d).page ↔ o.bdir = b ∧ o.addr ∈ slots (st.desc d).page b := by
  constructor
  · intro hpage
    obtain ⟨_, e, he, hslot⟩ := hinv.live_slot o ho
    have h := pageOf_slots (hinv.page_aligned _ e he).1 hslot
    obtain rfl := hinv.page_inj o.bdir b e he d hd (h.symm.trans hpage)
    obtain rfl := hinv.chain_unique he hd
    exact ⟨rfl, hslot⟩
  · rintro ⟨_, hslot⟩
    exact pageOf_slots (hinv.page_aligned b d hd).1 hslot

theorem Inv.objects_disjoint (hinv : Inv st) {o' : Object}
    (ho : o ∈ st.live) (ho' : o' ∈ st.live) (hne : o ≠ o') (a : ℕ) :
    ¬ (o.Contains a ∧ o'.Contains a) := by
  rintro ⟨⟨hle, hlt⟩, hle', hlt'⟩
  obtain ⟨_, d, hd, hslot⟩ := hinv.live_slot o ho
  obtain ⟨_, d', hd', hslot'⟩ := hinv.live_slot o' ho'
  have hbounds := slots_bounds hslot
  have hbounds' := slots_bounds hslot'
  have halign := (hinv.page_aligned _ d hd).1
  have halign' := (hinv.page_aligned _ d' hd').1
  have hpage : (st.desc d).page = (st.desc d').page := by
    unfold pageSize at *
    omega
  obtain rfl := hinv.page_inj _ _ d hd d' hd' hpage
  have hbucket := hinv.chain_unique hd hd'
  rw [← hbucket] at hslot' hlt'
  have haddr : o.addr ≠ o'.addr := fun heq =>
    hne (hinv.live_inj ho ho' heq)
  rcases slots_disjoint hslot hslot' haddr with h | h <;> omega

theorem Inv.on_chain_iff (hinv : Inv st) (page : ℕ) :
    (∃ b, ∃ d ∈ st.chain b, (st.desc d).page = page) ↔ ∃ o ∈ st.live, pageOf o.addr = page := by
  constructor
  · rintro ⟨b, d, hd, rfl⟩
    by_contra hnone
    have hzero := (hinv.refcnt_eq_zero_iff hd).mpr (by
      intro o ho hslot
      exact hnone ⟨o, ho, pageOf_slots (hinv.page_aligned b d hd).1 hslot⟩)
    have hbusy := hinv.busy b d hd
    omega
  · rintro ⟨o, ho, rfl⟩
    obtain ⟨_, d, hd, hslot⟩ := hinv.live_slot o ho
    exact ⟨o.bdir, d, hd, (pageOf_slots (hinv.page_aligned _ d hd).1 hslot).symm⟩

theorem Inv.kfree_finds (hinv : Inv st) (ho : o ∈ st.live) (hsize : size ≤ bucketSize o.bdir) :
    ∃ st', st.kfreeS o.addr size = some st' ∧
      ∀ page, (st'.pageUse page ≠ st.pageUse page ↔
        page = pageOf o.addr ∧ ∀ o' ∈ st.live, o' ≠ o → pageOf o'.addr ≠ page) ∧
        (st'.pageUse page ≠ st.pageUse page → st'.pageUse page = .free) := by
  obtain ⟨d, hd, hslot, heq⟩ := hinv.kfreeS_eq ho hsize
  refine ⟨_, heq, ?_⟩
  have hbase := freeObject_baseInv hinv ho hd hslot
  have hpageO : pageOf o.addr = (st.desc d).page := pageOf_slots (hinv.page_aligned _ d hd).1 hslot
  have huse : (st.found o.addr o.bdir d).pageUse =
      (if ((st.freeObject o d).desc d).refcnt = 0 then
        (st.freeObject o d).unlinkPage o.bdir d
      else st.freeObject o d).pageUse := by
    rw [← found_eq]
  have hlast : ((st.freeObject o d).desc d).refcnt = 0 ↔
      ∀ o' ∈ st.live, o' ≠ o → pageOf o'.addr ≠ pageOf o.addr := by
    rw [hbase.refcnt_eq_zero_iff hd, freeObject_page, hpageO]
    constructor
    · intro hnone o' ho' hne hpage
      have hslot' := ((hinv.page_eq_iff hd ho').mp hpage).2
      exact hnone o' (hinv.mem_erase.mpr ⟨ho', hne⟩) hslot'
    · intro hnone o' ho' hslot'
      obtain ⟨hmem, hne⟩ := hinv.mem_erase.mp ho'
      exact hnone o' hmem hne
        (pageOf_slots (hinv.page_aligned _ d hd).1 hslot')
  intro page
  rw [huse]
  by_cases hzero : ((st.freeObject o d).desc d).refcnt = 0
  · rw [if_pos hzero]
    have hfree : ((st.freeObject o d).unlinkPage o.bdir d).pageUse =
        Function.update st.pageUse (pageOf o.addr) .free := by
      rw [hpageO]
      simp [Malloc.unlinkPage, Malloc.setPage, Malloc.freeObject, Malloc.setDesc]
    rw [hfree]
    by_cases hp : page = pageOf o.addr
    · subst hp
      rw [Function.update_self]
      have hold : st.pageUse (pageOf o.addr) = .kmalloc := by
        rw [hpageO]
        exact hinv.page_use _ d hd
      refine ⟨⟨fun _ => ⟨rfl, hlast.mp hzero⟩, fun _ => ?_⟩, fun _ => rfl⟩
      rw [hold]
      simp
    · simp [hp]
  · rw [if_neg hzero]
    have hsame : (st.freeObject o d).pageUse = st.pageUse := rfl
    refine ⟨⟨fun h => absurd rfl h, ?_⟩, fun h => absurd rfl h⟩
    rintro ⟨rfl, hnone⟩
    exact absurd (hlast.mpr hnone) hzero

theorem kmalloc_pagesKept (call len : ℕ)
    (hnull : ∀ a, (st.kmalloc call len).2 ≠ .object a) :
    PagesKept st (st.kmalloc call len).1 := by
  revert hnull
  unfold Malloc.kmalloc
  cases findBucket len with
  | none => exact fun _ => ⟨rfl, rfl, rfl, rfl⟩
  | some b =>
    simp only
    cases (st.chain b).find? fun d => (st.desc d).freeptr ≠ 0 with
    | some bdesc => exact fun hnull => absurd rfl (hnull _)
    | none =>
      cases st.freeBucketDesc with
      | nil => exact fun _ => ⟨rfl, rfl, rfl, rfl⟩
      | cons bdesc rest => exact fun _ => ⟨rfl, rfl, rfl, rfl⟩

theorem gotPage_pagesKept (call : ℕ) (page : Option ℕ)
    (hnull : ∀ a, (st.gotPage call page).2 ≠ .object a) :
    PagesKept st (st.gotPage call page).1 := by
  revert hnull
  unfold Malloc.gotPage
  cases st.pending call with
  | none => exact fun _ => ⟨rfl, rfl, rfl, rfl⟩
  | some p =>
    obtain ⟨len, bdir, bdesc⟩ := p
    cases bdesc with
    | none =>
      cases page with
      | none => exact fun _ => ⟨rfl, rfl, rfl, rfl⟩
      | some page =>
        intro _
        simp only [Malloc.gotDescPage]
        split <;> exact ⟨rfl, rfl, rfl, rfl⟩
    | some bdesc =>
      cases page with
      | none => exact fun _ => ⟨rfl, rfl, rfl, rfl⟩
      | some page => exact fun hnull => absurd rfl (hnull _)

/-- The allocator in every reachable state. -/
theorem reachable_allocatorOk (hreach : st.Reachable) : AllocatorOk st := by
  have hinv := hreach.inv
  constructor
  · intro o ho
    obtain ⟨hlen, d, hd, hslot⟩ := hinv.live_slot o ho
    have hbounds := slots_bounds hslot
    rw [pageOf_slots (hinv.page_aligned _ d hd).1 hslot]
    exact ⟨hlen, hbounds⟩
  · intro o ho o' ho' hne a
    exact hinv.objects_disjoint ho ho' hne a
  · exact hinv.cells
  · exact hinv.on_chain_iff
  · intro o ho size hsize
    exact hinv.kfree_finds ho hsize
  · exact kmalloc_pagesKept
  · exact gotPage_pagesKept

/-- The run of one `kmalloc(4096)`: a page for the descriptors at 4096 and
one for the object at 8192. -/
def pageObject : Malloc :=
  let st0 := Malloc.init (fun _ => 0) fun _ => .free
  let st1 := (st0.kmalloc 0 4096).1
  let st2 := (st1.gotPage 0 (some 4096)).1
  (st2.gotPage 0 (some 8192)).1

theorem pageObject_reachable : pageObject.Reachable := by
  refine .step (.step (.step (.init _ _ ?_) (.kmalloc 0 4096 rfl))
    (.gotPage 0 (some 4096) ?_ ?_)) (.gotPage 0 (some 8192) ?_ ?_)
  · simp
  · decide
  · intro p hp
    obtain rfl := Option.some.inj hp
    decide
  · decide
  · intro p hp
    obtain rfl := Option.some.inj hp
    decide

theorem pageObject_allocatorOk : pageObject.Reachable ∧ AllocatorOk pageObject :=
  ⟨pageObject_reachable, reachable_allocatorOk pageObject_reachable⟩

/-- A page whose objects are all live stays on its chain. -/
theorem full_page_on_chain :
    ¬ ∀ st : Malloc, st.Reachable → ∀ b, ∀ d ∈ st.chain b,
      ∃ x ∈ slots (st.desc d).page b, ∀ o ∈ st.live, o.addr ≠ x := by
  intro hall
  have hchain : pageObject.chain 8 = [4096] := by decide
  have hpage : (pageObject.desc 4096).page = 8192 := by decide
  have hlive : pageObject.live.map Object.addr = [8192] := by decide
  obtain ⟨x, hx, hfree⟩ := hall pageObject pageObject_reachable 8 4096
    (by simp [hchain])
  rw [hpage] at hx
  have hx' : x = 8192 := by
    have hslots : slots 8192 8 = [8192] := by decide
    simpa [hslots] using hx
  have hmem : x ∈ pageObject.live.map Object.addr := by simp [hlive, hx']
  obtain ⟨o, ho, heq⟩ := List.mem_map.mp hmem
  exact hfree o ho heq

end LinuxKernel.Kmalloc
