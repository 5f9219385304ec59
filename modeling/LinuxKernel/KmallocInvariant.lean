import LinuxKernel.KmallocModel

/-!
# The invariant of the small-object allocator

Every descriptor is in one place, every page on a bucket chain has its free
objects linked through their first words, and the objects that are not free
are exactly the live ones.
-/

namespace LinuxKernel.Kmalloc
open Function List

/-! ## The objects of a page -/

theorem bucketSize_pos (b : Bucket) : 0 < bucketSize b := by
  revert b
  decide

theorem bucketSize_mul_count (b : Bucket) : pageSize / bucketSize b * bucketSize b = pageSize := by
  revert b
  decide

theorem count_pos (b : Bucket) : 0 < pageSize / bucketSize b := by
  revert b
  decide

theorem count_lt (b : Bucket) : pageSize / bucketSize b < 2 ^ 16 := by
  revert b
  decide

def cellsFrom (size n : ℕ) (page : ℕ) : List ℕ := (List.range n).map fun i => page + i * size

def slots (page : ℕ) (b : Bucket) : List ℕ :=
  cellsFrom (bucketSize b) (pageSize / bucketSize b) page

variable {size : ℕ}

theorem mem_cellsFrom {n : ℕ} {page x : ℕ} :
    x ∈ cellsFrom size n page ↔ ∃ i < n, x = page + i * size := by
  simp only [cellsFrom, mem_map, mem_range]
  constructor
  · rintro ⟨i, hi, rfl⟩
    exact ⟨i, hi, rfl⟩
  · rintro ⟨i, hi, rfl⟩
    exact ⟨i, hi, rfl⟩

theorem cellsFrom_succ (size n : ℕ) (page : ℕ) :
    cellsFrom size (n + 1) page = page :: cellsFrom size n (page + size) := by
  simp only [cellsFrom, range_succ_eq_map, map_cons, map_map]
  congr 1
  · simp
  · apply map_congr_left
    intro i _
    simp only [Function.comp, Nat.succ_eq_add_one]
    ring

theorem slots_nodup (page : ℕ) (b : Bucket) : (slots page b).Nodup := by
  apply List.Nodup.map _ (nodup_range)
  intro i j hij
  have hpos := bucketSize_pos b
  have hmul : i * bucketSize b = j * bucketSize b := by
    simpa using hij
  exact Nat.eq_of_mul_eq_mul_right hpos hmul

theorem slots_length (page : ℕ) (b : Bucket) : (slots page b).length = pageSize / bucketSize b := by
  simp [slots, cellsFrom]

theorem slots_bounds {page x : ℕ} {b : Bucket} (hx : x ∈ slots page b) :
    page ≤ x ∧ x + bucketSize b ≤ page + pageSize := by
  obtain ⟨i, hi, rfl⟩ := mem_cellsFrom.mp hx
  have hmul : (i + 1) * bucketSize b ≤ pageSize / bucketSize b * bucketSize b :=
    Nat.mul_le_mul_right _ hi
  rw [bucketSize_mul_count, Nat.add_mul, Nat.one_mul] at hmul
  omega

theorem pageOf_slots {page x : ℕ} {b : Bucket}
    (halign : page % pageSize = 0) (hx : x ∈ slots page b) :
    pageOf x = page := by
  have hbounds := slots_bounds hx
  have hpos := bucketSize_pos b
  unfold pageOf pageSize at *
  omega

theorem slots_disjoint {page x y : ℕ} {b : Bucket}
    (hx : x ∈ slots page b) (hy : y ∈ slots page b) (hne : x ≠ y) :
    x + bucketSize b ≤ y ∨ y + bucketSize b ≤ x := by
  obtain ⟨i, _, rfl⟩ := mem_cellsFrom.mp hx
  obtain ⟨j, _, rfl⟩ := mem_cellsFrom.mp hy
  have hij : i ≠ j := by
    rintro rfl
    exact hne rfl
  rcases Nat.lt_or_gt_of_ne hij with h | h
  · left
    have hmul : (i + 1) * bucketSize b ≤ j * bucketSize b := Nat.mul_le_mul_right _ h
    rw [Nat.add_mul, Nat.one_mul] at hmul
    omega
  · right
    have hmul : (j + 1) * bucketSize b ≤ i * bucketSize b := Nat.mul_le_mul_right _ h
    rw [Nat.add_mul, Nat.one_mul] at hmul
    omega

theorem expand_of_notMem {y : ℕ} (n : ℕ) (page : ℕ) (mem : ℕ → ℕ) (hy : y ∉ cellsFrom size n page) :
    expand size n page mem y = mem y := by
  induction n generalizing page mem with
  | zero => rfl
  | succ n ih =>
    rw [cellsFrom_succ, mem_cons, not_or] at hy
    simp only [expand]
    rw [ih (page + size) _ hy.2, update_of_ne hy.1]

theorem expand_linked (hsize : 0 < size) (n : ℕ) (page : ℕ) (mem : ℕ → ℕ) (hpage : page ≠ 0)
    (hn : 0 < n) : Linked 0 (expand size n page mem) page (cellsFrom size n page) := by
  induction n generalizing page mem with
  | zero => exact absurd hn (lt_irrefl 0)
  | succ n ih =>
    rw [cellsFrom_succ]
    refine ⟨rfl, hpage, ?_⟩
    have hfirst : page ∉ cellsFrom size n (page + size) := by
      intro hmem
      obtain ⟨i, _, hi⟩ := mem_cellsFrom.mp hmem
      omega
    simp only [expand]
    rw [expand_of_notMem n _ _ hfirst, update_self]
    cases n with
    | zero => rfl
    | succ n =>
      exact ih (page + size) _ (by omega) (by omega)

/-! ## The invariant -/

inductive Place where
  | free
  | chain (b : Bucket)
  | held (call : ℕ)
  deriving DecidableEq

def Malloc.Has (st : Malloc) (d : ℕ) : Place → Prop
  | .free => d ∈ st.freeBucketDesc
  | .chain b => d ∈ st.chain b
  | .held call => ∃ p, st.pending call = some p ∧ p.bdesc = some d

structure FreeCells (st : Malloc) (b : Bucket) (d : ℕ)
    (cells : List ℕ) : Prop where
  linked : Linked 0 st.mem (st.desc d).freeptr cells
  nodup : cells.Nodup
  mem_iff : ∀ x, x ∈ cells ↔ x ∈ slots (st.desc d).page b ∧ ∀ o ∈ st.live, o.addr ≠ x
  count : (st.desc d).refcnt + cells.length = pageSize / bucketSize b

structure BaseInv (st : Malloc) : Prop where
  place_unique : ∀ d l l', st.Has d l → st.Has d l' → l = l'
  free_nodup : st.freeBucketDesc.Nodup
  chain_nodup : ∀ b, (st.chain b).Nodup
  desc_page : ∀ d l, st.Has d l → st.pageUse (pageOf d) = .kmalloc ∧
    ∀ b, ∀ e ∈ st.chain b, (st.desc e).page ≠ pageOf d
  page_aligned : ∀ b, ∀ d ∈ st.chain b, (st.desc d).page % pageSize = 0 ∧ (st.desc d).page ≠ 0
  page_use : ∀ b, ∀ d ∈ st.chain b, st.pageUse (st.desc d).page = .kmalloc
  page_inj : ∀ b b', ∀ d ∈ st.chain b, ∀ d' ∈ st.chain b',
    (st.desc d).page = (st.desc d').page → d = d'
  cells : ∀ b, ∀ d ∈ st.chain b, ∃ cells, FreeCells st b d cells
  live_nodup : (st.live.map Object.addr).Nodup
  live_slot : ∀ o ∈ st.live, o.len ≤ bucketSize o.bdir ∧
    ∃ d ∈ st.chain o.bdir, o.addr ∈ slots (st.desc d).page o.bdir
  waits : ∀ call p, st.pending call = some p → p.len ≤ bucketSize p.bdir

/-- Between two stretches every page on a chain also has a live object. -/
structure Inv (st : Malloc) : Prop extends BaseInv st where
  busy : ∀ b, ∀ d ∈ st.chain b, 0 < (st.desc d).refcnt

variable {st : Malloc} {b : Bucket} {d : ℕ}

theorem Inv.init (mem : ℕ → ℕ) (pageUse : ℕ → PageUse) : Inv (Malloc.init mem pageUse) := by
  have hnone : ∀ d l, ¬ (Malloc.init mem pageUse).Has d l := by
    intro d l h
    cases l <;> simp [Malloc.Has, Malloc.init] at h
  constructor
  · constructor
    · intro d l l' h
      exact absurd h (hnone d l)
    · exact nodup_nil
    · exact fun _ => nodup_nil
    · intro d l h
      exact absurd h (hnone d l)
    all_goals simp [Malloc.init]
  · simp [Malloc.init]

variable {b' : Bucket}

theorem BaseInv.chain_unique (hinv : BaseInv st) (hd : d ∈ st.chain b) (hd' : d ∈ st.chain b') :
    b = b' := by
  have h := hinv.place_unique d (.chain b) (.chain b') hd hd'
  simpa using h

theorem BaseInv.slot_page (hinv : BaseInv st) {d' x : ℕ} (hd : d ∈ st.chain b)
    (hd' : d' ∈ st.chain b') (hx : x ∈ slots (st.desc d).page b)
    (hx' : x ∈ slots (st.desc d').page b') : d = d' := by
  apply hinv.page_inj b b' d hd d' hd'
  rw [← pageOf_slots (hinv.page_aligned b d hd).1 hx,
    ← pageOf_slots (hinv.page_aligned b' d' hd').1 hx']

theorem findBucket_le {len : ℕ} (hfind : findBucket len = some b) : len ≤ bucketSize b := by
  have h := List.find?_some hfind
  simpa using h

section Found

variable {len : ℕ}

theorem foundBdesc_desc_ne {d' : ℕ} (hne : d' ≠ d) :
    (st.foundBdesc len b d).1.desc d' = st.desc d' := by
  simp [Malloc.foundBdesc, Malloc.setDesc, hne]

theorem foundBdesc_page (d' : ℕ) :
    ((st.foundBdesc len b d).1.desc d').page = (st.desc d').page := by
  by_cases hne : d' = d
  · subst hne
    simp [Malloc.foundBdesc, Malloc.setDesc]
  · rw [foundBdesc_desc_ne hne]

theorem BaseInv.foundBdesc (hinv : BaseInv st) (hd : d ∈ st.chain b)
    (hfree : (st.desc d).freeptr ≠ 0) (hlen : len ≤ bucketSize b)
    (hbusy : ∀ b', ∀ e ∈ st.chain b', e ≠ d → 0 < (st.desc e).refcnt) :
    Inv (st.foundBdesc len b d).1 := by
  set st' := (st.foundBdesc len b d).1 with hst'
  obtain ⟨cells, hcells⟩ := hinv.cells b d hd
  obtain ⟨rest, hrest, hlink⟩ := hcells.linked.pop hfree
  set retval := (st.desc d).freeptr with hretval
  have hslot := (hcells.mem_iff retval).mp (by simp [hrest])
  have hlive : st'.live = ⟨retval, len, b⟩ :: st.live := rfl
  have hhas : ∀ e l, st'.Has e l ↔ st.Has e l := by
    intro e l
    cases l <;> rfl
  have hpage : ∀ e, (st'.desc e).page = (st.desc e).page := fun e => foundBdesc_page e
  have hnodup : retval ∉ rest ∧ rest.Nodup := by
    have h := hcells.nodup
    rw [hrest, nodup_cons] at h
    exact h
  have hcount := hcells.count
  rw [hrest, length_cons] at hcount
  have hrefcnt : (st'.desc d).refcnt = (st.desc d).refcnt + 1 := by
    have hlt := count_lt b
    have hmod : ((st.desc d).refcnt + 1) % 2 ^ 16 =
        (st.desc d).refcnt + 1 := Nat.mod_eq_of_lt (by omega)
    simpa [hst', Malloc.foundBdesc, Malloc.setDesc] using hmod
  constructor
  · constructor
    · intro e l l' h h'
      exact hinv.place_unique e l l' ((hhas e l).mp h) ((hhas e l').mp h')
    · exact hinv.free_nodup
    · exact hinv.chain_nodup
    · intro e l h
      obtain ⟨huse, hne⟩ := hinv.desc_page e l ((hhas e l).mp h)
      refine ⟨huse, ?_⟩
      intro b' e' he'
      rw [hpage]
      exact hne b' e' he'
    · intro b' e he
      rw [hpage]
      exact hinv.page_aligned b' e he
    · intro b' e he
      rw [hpage]
      exact hinv.page_use b' e he
    · intro b1 b2 e1 he1 e2 he2
      rw [hpage, hpage]
      exact hinv.page_inj b1 b2 e1 he1 e2 he2
    · intro b' e he
      by_cases hed : e = d
      · subst hed
        obtain rfl := hinv.chain_unique hd he
        refine ⟨rest, ?_, hnodup.2, ?_, ?_⟩
        · have hptr : (st'.desc e).freeptr = st.mem retval := by
            simp [hst', Malloc.foundBdesc, Malloc.setDesc, hretval]
          rw [hptr]
          exact hlink
        · intro x
          rw [hpage, hlive]
          have hold := hcells.mem_iff x
          rw [hrest, mem_cons] at hold
          constructor
          · intro hx
            obtain ⟨h1, h2⟩ := hold.mp (.inr hx)
            refine ⟨h1, ?_⟩
            intro o ho
            rcases mem_cons.mp ho with rfl | ho
            · rintro rfl
              exact hnodup.1 hx
            · exact h2 o ho
          · rintro ⟨h1, h2⟩
            have hne : x ≠ retval := fun heq =>
              h2 ⟨retval, len, b⟩ mem_cons_self heq.symm
            have hx := hold.mpr
              ⟨h1, fun o ho => h2 o (mem_cons_of_mem _ ho)⟩
            exact hx.resolve_left hne
        · omega
      · obtain ⟨cells', hcells'⟩ := hinv.cells b' e he
        have hdesc : st'.desc e = st.desc e := foundBdesc_desc_ne hed
        refine ⟨cells', ?_, hcells'.nodup, ?_, ?_⟩
        · rw [hdesc]
          exact hcells'.linked
        · intro x
          rw [hdesc, hlive, hcells'.mem_iff x]
          constructor
          · rintro ⟨h1, h2⟩
            refine ⟨h1, ?_⟩
            intro o ho
            rcases mem_cons.mp ho with rfl | ho
            · rintro rfl
              exact hed (hinv.slot_page he hd h1 hslot.1)
            · exact h2 o ho
          · rintro ⟨h1, h2⟩
            exact ⟨h1, fun o ho => h2 o (mem_cons_of_mem _ ho)⟩
        · rw [hdesc]
          exact hcells'.count
    · rw [hlive, map_cons, nodup_cons]
      refine ⟨?_, hinv.live_nodup⟩
      intro hmem
      obtain ⟨o, ho, heq⟩ := mem_map.mp hmem
      exact hslot.2 o ho heq
    · intro o ho
      rcases mem_cons.mp ho with rfl | ho
      · exact ⟨hlen, d, hd, by rw [hpage]; exact hslot.1⟩
      · obtain ⟨hl, e, he, hx⟩ := hinv.live_slot o ho
        exact ⟨hl, e, he, by rw [hpage]; exact hx⟩
    · exact hinv.waits
  · intro b' e he
    by_cases hed : e = d
    · subst hed
      omega
    · have hdesc : st'.desc e = st.desc e := foundBdesc_desc_ne hed
      rw [hdesc]
      exact hbusy b' e he hed

end Found

section
variable (hinv : Inv st)
include hinv

theorem Inv.bookkeeping {st' : Malloc}
    (hsame : st'.chain = st.chain ∧ st'.desc = st.desc ∧ st'.mem = st.mem ∧ st'.live = st.live)
    (hplace : ∀ d l l', st'.Has d l → st'.Has d l' → l = l') (hfree : st'.freeBucketDesc.Nodup)
    (hpage : ∀ d l, st'.Has d l → st'.pageUse (pageOf d) = .kmalloc ∧
      ∀ b, ∀ e ∈ st.chain b, (st.desc e).page ≠ pageOf d)
    (huse : ∀ b, ∀ d ∈ st.chain b, st'.pageUse (st.desc d).page = .kmalloc)
    (hwaits : ∀ call p, st'.pending call = some p → p.len ≤ bucketSize p.bdir) : Inv st' := by
  obtain ⟨hchain, hdesc, hmem, hlive⟩ := hsame
  constructor
  · constructor
    · exact hplace
    · exact hfree
    · rw [hchain]
      exact hinv.chain_nodup
    · rw [hchain, hdesc]
      exact hpage
    · rw [hchain, hdesc]
      exact hinv.page_aligned
    · rw [hchain, hdesc]
      exact huse
    · rw [hchain, hdesc]
      exact hinv.page_inj
    · rw [hchain]
      intro b d hd
      obtain ⟨cells, h⟩ := hinv.cells b d hd
      refine ⟨cells, ?_, h.nodup, ?_, ?_⟩
      · rw [hmem, hdesc]
        exact h.linked
      · rw [hdesc, hlive]
        exact h.mem_iff
      · rw [hdesc]
        exact h.count
    · rw [hlive]
      exact hinv.live_nodup
    · rw [hlive, hchain, hdesc]
      exact hinv.live_slot
    · exact hwaits
  · rw [hchain, hdesc]
    exact hinv.busy

theorem setPending_waits (call : ℕ) {q : Option Pending}
    (hq : ∀ p, q = some p → p.len ≤ bucketSize p.bdir) :
    ∀ c p, (st.setPending call q).pending c = some p → p.len ≤ bucketSize p.bdir := by
  intro c p hp
  by_cases hc : c = call
  · subst hc
    exact hq p (by simpa [Malloc.setPending] using hp)
  · exact hinv.waits c p (by simpa [Malloc.setPending, hc] using hp)

variable {call bdesc : ℕ}

theorem Inv.setPending {q : Option Pending} (hold : ∀ p, st.pending call = some p → p.bdesc = none)
    (hnew : ∀ p, q = some p → p.bdesc = none ∧ p.len ≤ bucketSize p.bdir) :
    Inv (st.setPending call q) := by
  have hhas : ∀ d l, (st.setPending call q).Has d l → st.Has d l := by
    intro d l h
    cases l with
    | free => exact h
    | chain b => exact h
    | held c =>
      obtain ⟨p, hp, hpd⟩ := h
      by_cases hc : c = call
      · subst hc
        have h := (hnew p (by simpa [Malloc.setPending] using hp)).1
        simp [hpd] at h
      · exact ⟨p, by simpa [Malloc.setPending, hc] using hp, hpd⟩
  apply hinv.bookkeeping
  · exact ⟨rfl, rfl, rfl, rfl⟩
  · intro d l l' h h'
    exact hinv.place_unique d l l' (hhas d l h) (hhas d l' h')
  · exact hinv.free_nodup
  · intro d l h
    exact hinv.desc_page d l (hhas d l h)
  · exact hinv.page_use
  · exact setPending_waits hinv call fun p hp => (hnew p hp).2

theorem Inv.moveDesc {st' : Malloc} {l0 : Place} (l1 : Place) (hheld : st.Has bdesc l0)
    (hsame : st'.chain = st.chain ∧ st'.desc = st.desc ∧ st'.mem = st.mem ∧ st'.live = st.live)
    (huse : st'.pageUse = st.pageUse) (hfree : st'.freeBucketDesc.Nodup)
    (hhas : ∀ d l, st'.Has d l → if d = bdesc then l = l1 else st.Has d l)
    (hwaits : ∀ call p, st'.pending call = some p → p.len ≤ bucketSize p.bdir) : Inv st' := by
  apply hinv.bookkeeping hsame
  · intro d l l' h h'
    have h1 := hhas d l h
    have h2 := hhas d l' h'
    by_cases hd : d = bdesc
    · rw [if_pos hd] at h1 h2
      exact h1.trans h2.symm
    · rw [if_neg hd] at h1 h2
      exact hinv.place_unique d l l' h1 h2
  · exact hfree
  · intro d l h
    rw [huse]
    have h1 := hhas d l h
    by_cases hd : d = bdesc
    · subst hd
      exact hinv.desc_page d l0 hheld
    · rw [if_neg hd] at h1
      exact hinv.desc_page d l h1
  · rw [huse]
    exact hinv.page_use
  · exact hwaits

theorem Inv.popDesc {len : ℕ} {rest : List ℕ} (hfree : st.freeBucketDesc = bdesc :: rest)
    (hlen : len ≤ bucketSize b) :
    Inv { st.setPending call (some ⟨len, b, some bdesc⟩) with
      freeBucketDesc := rest } := by
  have hnodup := hinv.free_nodup
  rw [hfree, nodup_cons] at hnodup
  have hheld : st.Has bdesc .free := by
    change bdesc ∈ st.freeBucketDesc
    simp [hfree]
  apply hinv.moveDesc (.held call) hheld
  · exact ⟨rfl, rfl, rfl, rfl⟩
  · rfl
  · exact hnodup.2
  · intro d l h
    by_cases hd : d = bdesc
    · rw [if_pos hd]
      subst hd
      cases l with
      | free => exact absurd h hnodup.1
      | chain b' =>
        have h' := hinv.place_unique d _ (.chain b') hheld h
        cases h'
      | held c =>
        by_cases hc : c = call
        · rw [hc]
        · obtain ⟨p, hp, hpd⟩ := h
          have hp' : st.pending c = some p := by
            simpa [Malloc.setPending, hc] using hp
          have h' := hinv.place_unique d _ (.held c) hheld ⟨p, hp', hpd⟩
          cases h'
    · rw [if_neg hd]
      cases l with
      | free =>
        change d ∈ st.freeBucketDesc
        rw [hfree]
        exact mem_cons_of_mem _ h
      | chain b' => exact h
      | held c =>
        obtain ⟨p, hp, hpd⟩ := h
        by_cases hc : c = call
        · subst hc
          have hp' : some (⟨len, b, some bdesc⟩ : Pending) = some p := by
            simpa [Malloc.setPending] using hp
          obtain rfl := Option.some.inj hp'
          exact absurd (Option.some.inj hpd).symm hd
        · exact ⟨p, by simpa [Malloc.setPending, hc] using hp, hpd⟩
  · apply setPending_waits hinv call
    intro p hp
    obtain rfl := Option.some.inj hp
    exact hlen

theorem Inv.pushDesc {p : Pending} (hwaits : st.pending call = some p) (hp : p.bdesc = some bdesc) :
    Inv { st.setPending call none with
      freeBucketDesc := bdesc :: st.freeBucketDesc } := by
  have hheld : st.Has bdesc (.held call) := ⟨p, hwaits, hp⟩
  have hnew : bdesc ∉ st.freeBucketDesc := by
    intro h
    have h' := hinv.place_unique bdesc _ .free hheld h
    cases h'
  apply hinv.moveDesc .free hheld
  · exact ⟨rfl, rfl, rfl, rfl⟩
  · rfl
  · exact nodup_cons.mpr ⟨hnew, hinv.free_nodup⟩
  · intro d l h
    by_cases hd : d = bdesc
    · rw [if_pos hd]
      subst hd
      cases l with
      | free => rfl
      | chain b' =>
        have h' := hinv.place_unique d _ (.chain b') hheld h
        cases h'
      | held c =>
        obtain ⟨q, hq, hqd⟩ := h
        by_cases hc : c = call
        · simp [Malloc.setPending, hc] at hq
        · have hq' : st.pending c = some q := by
            simpa [Malloc.setPending, hc] using hq
          have h' := hinv.place_unique d _ (.held c) hheld ⟨q, hq', hqd⟩
          exact absurd (Place.held.inj h').symm hc
    · rw [if_neg hd]
      cases l with
      | free =>
        rcases mem_cons.mp h with h | h
        · exact absurd h hd
        · exact h
      | chain b' => exact h
      | held c =>
        obtain ⟨q, hq, hqd⟩ := h
        by_cases hc : c = call
        · simp [Malloc.setPending, hc] at hq
        · exact ⟨q, by simpa [Malloc.setPending, hc] using hq, hqd⟩
  · exact setPending_waits hinv call (by simp)

end

/-! ## New pages -/

theorem BaseInv.freePage (hinv : BaseInv st) {page : ℕ}
    (hpage : st.FreePage page) :
    (∀ d l, st.Has d l → pageOf d ≠ page) ∧ ∀ b, ∀ d ∈ st.chain b, (st.desc d).page ≠ page := by
  obtain ⟨_, _, huse⟩ := hpage
  constructor
  · rintro d l h rfl
    rw [(hinv.desc_page d l h).1] at huse
    cases huse
  · rintro b d hd rfl
    rw [hinv.page_use b d hd] at huse
    cases huse

theorem mem_initBucketDesc {page d : ℕ} (halign : page % pageSize = 0)
    (hd : d ∈ initBucketDesc page) : pageOf d = page := by
  obtain ⟨i, hi, rfl⟩ := mem_map.mp hd
  have hlt := mem_range.mp hi
  unfold pageOf pageSize descSize at *
  omega

theorem initBucketDesc_nodup (page : ℕ) : (initBucketDesc page).Nodup := by
  apply List.Nodup.map _ nodup_range
  intro i j hij
  unfold descSize at hij
  simp only at hij
  omega

theorem initBucketDesc_cons (page : ℕ) : ∃ rest, initBucketDesc page = page :: rest := by
  have hcells : initBucketDesc page = cellsFrom descSize (255 + 1) page := rfl
  exact ⟨_, rfl⟩

theorem setPage_eq_of_ne {page page' : ℕ} {use : PageUse}
    (hne : page' ≠ page) :
    (st.setPage page use).pageUse page' = st.pageUse page' := by
  simp [Malloc.setPage, hne]

theorem Inv.gotDescPage (hinv : Inv st) {call len page : ℕ}
    (hwaits : st.pending call = some ⟨len, b, none⟩)
    (hpage : st.FreePage page) :
    Inv (st.gotDescPage call len b page).1 := by
  obtain ⟨rest, hrest⟩ := initBucketDesc_cons page
  have hlen : len ≤ bucketSize b := hinv.waits call _ hwaits
  have hnodup := initBucketDesc_nodup page
  rw [hrest, nodup_cons] at hnodup
  have hfresh := hinv.freePage hpage
  have hnew : ∀ d, d = page ∨ d ∈ rest → pageOf d = page := by
    intro d hd
    apply mem_initBucketDesc hpage.1
    rw [hrest]
    exact mem_cons.mpr hd
  have hnotOld : ∀ d, d = page ∨ d ∈ rest → ∀ l, ¬ st.Has d l :=
    fun d hd l h => hfresh.1 d l h (hnew d hd)
  have hresult : (st.gotDescPage call len b page).1 =
      { (st.setPage page .kmalloc).setPending call
          (some ⟨len, b, some page⟩) with
        freeBucketDesc := rest ++ st.freeBucketDesc } := by
    simp [Malloc.gotDescPage, hrest, Malloc.setPage]
  rw [hresult]
  set st' : Malloc := { (st.setPage page .kmalloc).setPending call
      (some ⟨len, b, some page⟩) with
    freeBucketDesc := rest ++ st.freeBucketDesc } with hst'
  have hhas : ∀ d l, st'.Has d l → (d = page ∧ l = .held call) ∨
      (d ∈ rest ∧ l = .free) ∨ st.Has d l := by
    intro d l h
    cases l with
    | free =>
      rcases mem_append.mp h with h | h
      · exact .inr (.inl ⟨h, rfl⟩)
      · exact .inr (.inr h)
    | chain b' => exact .inr (.inr h)
    | held c =>
      obtain ⟨p, hp, hpd⟩ := h
      by_cases hc : c = call
      · subst hc
        have hp' : some (⟨len, b, some page⟩ : Pending) = some p := by
          simpa [hst', Malloc.setPending] using hp
        obtain rfl := Option.some.inj hp'
        exact .inl ⟨(Option.some.inj hpd).symm, rfl⟩
      · right
        right
        exact ⟨p, by simpa [hst', Malloc.setPending, Malloc.setPage, hc]
          using hp, hpd⟩
  have huseKeep : ∀ page', st.pageUse page' = .kmalloc → st'.pageUse page' = .kmalloc := by
    intro page' h
    by_cases hp : page' = page
    · subst hp
      simp [hst', Malloc.setPending, Malloc.setPage]
    · simpa [hst', Malloc.setPending, Malloc.setPage, hp] using h
  apply hinv.bookkeeping
  · exact ⟨rfl, rfl, rfl, rfl⟩
  · intro d l l' h h'
    rcases hhas d l h with ⟨hd, rfl⟩ | ⟨hd, rfl⟩ | hd <;>
      rcases hhas d l' h' with ⟨hd', rfl⟩ | ⟨hd', rfl⟩ | hd'
    · rfl
    · exact absurd (hd ▸ hd') hnodup.1
    · exact absurd hd' (hnotOld d (.inl hd) _)
    · exact absurd (hd' ▸ hd) hnodup.1
    · rfl
    · exact absurd hd' (hnotOld d (.inr hd) _)
    · exact absurd hd (hnotOld d (.inl hd') _)
    · exact absurd hd (hnotOld d (.inr hd') _)
    · exact hinv.place_unique d l l' hd hd'
  · apply nodup_append.mpr
    refine ⟨hnodup.2, hinv.free_nodup, ?_⟩
    rintro x hx y hy rfl
    exact hnotOld x (.inr hx) .free hy
  · intro d l h
    have hcase : pageOf d = page ∨ st.Has d l := by
      rcases hhas d l h with ⟨hd, _⟩ | ⟨hd, _⟩ | hd
      · exact .inl (hnew d (.inl hd))
      · exact .inl (hnew d (.inr hd))
      · exact .inr hd
    rcases hcase with hd | hd
    · rw [hd]
      refine ⟨?_, hfresh.2⟩
      simp [hst', Malloc.setPending, Malloc.setPage]
    · obtain ⟨huse, hne⟩ := hinv.desc_page d l hd
      exact ⟨huseKeep _ huse, hne⟩
  · intro b' d hd
    exact huseKeep _ (hinv.page_use b' d hd)
  · intro c p hp
    refine setPending_waits hinv call (q := some ⟨len, b, some page⟩) ?_ c p
      (by simpa [hst', Malloc.setPending, Malloc.setPage] using hp)
    intro q hq
    obtain rfl := Option.some.inj hq
    exact hlen

def Malloc.linkPage (st : Malloc) (call : ℕ) (b : Bucket)
    (bdesc page : ℕ) : Malloc :=
  { chain := update st.chain b (bdesc :: st.chain b)
    freeBucketDesc := st.freeBucketDesc
    desc := update st.desc bdesc ⟨page, page, 0, bucketSize b⟩
    mem := expand (bucketSize b) (pageSize / bucketSize b) page st.mem
    pageUse := update st.pageUse page .kmalloc
    pending := update st.pending call none
    live := st.live }

theorem gotObjectPage_eq (call len bdesc page : ℕ) :
    st.gotObjectPage call len b bdesc page =
      (st.linkPage call b bdesc page).foundBdesc len b bdesc := rfl

section LinkPage

variable {call len bdesc page : ℕ} (hinv : Inv st)
  (hwaits : st.pending call = some ⟨len, b, some bdesc⟩)
  (hpage : st.FreePage page)

theorem linkPage_chain {e : ℕ} :
    e ∈ (st.linkPage call b bdesc page).chain b' ↔ (e = bdesc ∧ b' = b) ∨ e ∈ st.chain b' := by
  by_cases hb : b' = b
  · subst hb
    simp [Malloc.linkPage]
  · simp [Malloc.linkPage, hb]

include hinv hwaits in
theorem held_notMem_chain (b' : Bucket) : bdesc ∉ st.chain b' := by
  intro h
  have h' := hinv.place_unique bdesc (.held call) (.chain b')
    ⟨_, hwaits, rfl⟩ h
  cases h'

include hinv hwaits in
theorem linkPage_has {e : ℕ} {l : Place}
    (h : (st.linkPage call b bdesc page).Has e l) :
    if e = bdesc then l = .chain b else st.Has e l := by
  have hheld : st.Has bdesc (.held call) := ⟨_, hwaits, rfl⟩
  by_cases he : e = bdesc
  · subst he
    rw [if_pos rfl]
    cases l with
    | free =>
      have h' := hinv.place_unique e _ .free hheld h
      cases h'
    | chain b' =>
      rcases linkPage_chain.mp h with ⟨_, rfl⟩ | h
      · rfl
      · exact absurd h (held_notMem_chain hinv hwaits b')
    | held c =>
      obtain ⟨p, hp, hpd⟩ := h
      by_cases hc : c = call
      · simp [Malloc.linkPage, hc] at hp
      · have hp' : st.pending c = some p := by
          simpa [Malloc.linkPage, hc] using hp
        have h' := hinv.place_unique e _ (.held c) hheld ⟨p, hp', hpd⟩
        exact absurd (Place.held.inj h').symm hc
  · rw [if_neg he]
    cases l with
    | free => exact h
    | chain b' =>
      rcases linkPage_chain.mp h with ⟨rfl, _⟩ | h
      · exact absurd rfl he
      · exact h
    | held c =>
      obtain ⟨p, hp, hpd⟩ := h
      by_cases hc : c = call
      · simp [Malloc.linkPage, hc] at hp
      · exact ⟨p, by simpa [Malloc.linkPage, hc] using hp, hpd⟩

include hinv hpage

theorem linkPage_freeCells : FreeCells (st.linkPage call b bdesc page) b bdesc (slots page b) := by
  have hdesc : (st.linkPage call b bdesc page).desc bdesc =
      ⟨page, page, 0, bucketSize b⟩ := by simp [Malloc.linkPage]
  constructor
  · rw [hdesc]
    exact expand_linked (bucketSize_pos b) _ page st.mem hpage.2.1
      (count_pos b)
  · exact slots_nodup page b
  · intro x
    rw [hdesc]
    constructor
    · intro hx
      refine ⟨hx, ?_⟩
      rintro o ho rfl
      obtain ⟨_, d, hd, hslot⟩ := hinv.live_slot o ho
      have h1 := pageOf_slots hpage.1 hx
      have h2 := pageOf_slots (hinv.page_aligned _ d hd).1 hslot
      exact (hinv.freePage hpage).2 _ d hd (h2.symm.trans h1)
    · exact fun h => h.1
  · rw [hdesc, slots_length]
    simp

include hwaits

theorem linkPage_baseInv : BaseInv (st.linkPage call b bdesc page) := by
  have hfresh := hinv.freePage hpage
  have hheld : st.Has bdesc (.held call) := ⟨_, hwaits, rfl⟩
  have hnotChain := held_notMem_chain hinv hwaits
  set st' := st.linkPage call b bdesc page with hst'
  have hhas : ∀ e l, st'.Has e l → if e = bdesc then l = .chain b else st.Has e l :=
    fun e l h => linkPage_has hinv hwaits h
  have hdescNew : st'.desc bdesc = ⟨page, page, 0, bucketSize b⟩ := by
    simp [hst', Malloc.linkPage]
  have hdescOld : ∀ b', ∀ e ∈ st.chain b', st'.desc e = st.desc e := by
    intro b' e he
    have hne : e ≠ bdesc := fun h => hnotChain b' (h ▸ he)
    simp [hst', Malloc.linkPage, hne]
  have huseKeep : ∀ page', st.pageUse page' = .kmalloc → st'.pageUse page' = .kmalloc := by
    intro page' h
    by_cases hp : page' = page
    · subst hp
      simp [hst', Malloc.linkPage]
    · simpa [hst', Malloc.linkPage, hp] using h
  have hpageNew : st'.pageUse page = .kmalloc := by
    simp [hst', Malloc.linkPage]
  have hold : ∀ e l, st'.Has e l → ∃ l', st.Has e l' := by
    intro e l h
    have h' := hhas e l h
    by_cases he : e = bdesc
    · exact ⟨_, he ▸ hheld⟩
    · rw [if_neg he] at h'
      exact ⟨l, h'⟩
  constructor
  · intro e l l' h h'
    have h1 := hhas e l h
    have h2 := hhas e l' h'
    by_cases he : e = bdesc
    · rw [if_pos he] at h1 h2
      exact h1.trans h2.symm
    · rw [if_neg he] at h1 h2
      exact hinv.place_unique e l l' h1 h2
  · exact hinv.free_nodup
  · intro b'
    by_cases hb : b' = b
    · subst hb
      have hlist : st'.chain b' = bdesc :: st.chain b' := by
        simp [hst', Malloc.linkPage]
      rw [hlist, nodup_cons]
      exact ⟨hnotChain b', hinv.chain_nodup b'⟩
    · have hlist : st'.chain b' = st.chain b' := by
        simp [hst', Malloc.linkPage, hb]
      rw [hlist]
      exact hinv.chain_nodup b'
  · intro e l h
    obtain ⟨l', h'⟩ := hold e l h
    obtain ⟨huse, hne⟩ := hinv.desc_page e l' h'
    refine ⟨huseKeep _ huse, ?_⟩
    intro b' e' he'
    rcases linkPage_chain.mp he' with ⟨rfl, rfl⟩ | he'
    · rw [hdescNew]
      exact fun heq => hfresh.1 e l' h' heq.symm
    · rw [hdescOld b' e' he']
      exact hne b' e' he'
  · intro b' e he
    rcases linkPage_chain.mp he with ⟨rfl, rfl⟩ | he
    · rw [hdescNew]
      exact ⟨hpage.1, hpage.2.1⟩
    · rw [hdescOld b' e he]
      exact hinv.page_aligned b' e he
  · intro b' e he
    rcases linkPage_chain.mp he with ⟨rfl, rfl⟩ | he
    · rw [hdescNew]
      exact hpageNew
    · rw [hdescOld b' e he]
      exact huseKeep _ (hinv.page_use b' e he)
  · intro b1 b2 e1 he1 e2 he2 heq
    rcases linkPage_chain.mp he1 with ⟨rfl, rfl⟩ | h1 <;>
      rcases linkPage_chain.mp he2 with ⟨rfl, rfl⟩ | h2
    · rfl
    · rw [hdescNew, hdescOld b2 e2 h2] at heq
      exact absurd heq.symm (hfresh.2 b2 e2 h2)
    · rw [hdescNew, hdescOld b1 e1 h1] at heq
      exact absurd heq (hfresh.2 b1 e1 h1)
    · rw [hdescOld b1 e1 h1, hdescOld b2 e2 h2] at heq
      exact hinv.page_inj b1 b2 e1 h1 e2 h2 heq
  · intro b' e he
    rcases linkPage_chain.mp he with ⟨rfl, rfl⟩ | he
    · exact ⟨_, linkPage_freeCells hinv hpage⟩
    · obtain ⟨cells, h⟩ := hinv.cells b' e he
      have hdesc := hdescOld b' e he
      refine ⟨cells, ?_, h.nodup, ?_, ?_⟩
      · rw [hdesc]
        apply h.linked.congr
        intro x hx
        apply expand_of_notMem
        intro hnew
        have h1 := pageOf_slots hpage.1 hnew
        have h2 := pageOf_slots (hinv.page_aligned b' e he).1
          ((h.mem_iff x).mp hx).1
        exact hfresh.2 b' e he (h2.symm.trans h1)
      · rw [hdesc]
        exact h.mem_iff
      · rw [hdesc]
        exact h.count
  · exact hinv.live_nodup
  · intro o ho
    obtain ⟨hl, e, he, hx⟩ := hinv.live_slot o ho
    refine ⟨hl, e, linkPage_chain.mpr (.inr he), ?_⟩
    rw [hdescOld _ e he]
    exact hx
  · intro c p hp
    by_cases hc : c = call
    · simp [hst', Malloc.linkPage, hc] at hp
    · exact hinv.waits c p (by simpa [hst', Malloc.linkPage, hc] using hp)

theorem Inv.gotObjectPage : Inv (st.gotObjectPage call len b bdesc page).1 := by
  rw [gotObjectPage_eq]
  apply (linkPage_baseInv hinv hwaits hpage).foundBdesc
  · exact linkPage_chain.mpr (.inl ⟨rfl, rfl⟩)
  · simpa [Malloc.linkPage] using hpage.2.1
  · exact hinv.waits call _ hwaits
  · intro b' e he hne
    rcases linkPage_chain.mp he with ⟨rfl, _⟩ | he
    · exact absurd rfl hne
    · have hdesc : (st.linkPage call b bdesc page).desc e = st.desc e := by
        simp [Malloc.linkPage, hne]
      rw [hdesc]
      exact hinv.busy b' e he

end LinkPage

theorem Inv.kmalloc (hinv : Inv st) {call : ℕ} (len : ℕ)
    (hidle : st.pending call = none) : Inv (st.kmalloc call len).1 := by
  unfold Malloc.kmalloc
  cases hbucket : findBucket len with
  | none => exact hinv
  | some b =>
    have hlen := findBucket_le hbucket
    simp only
    cases hfind : (st.chain b).find? fun d => (st.desc d).freeptr ≠ 0 with
    | some bdesc =>
      have hmem := mem_of_find?_eq_some hfind
      have hptr : (st.desc bdesc).freeptr ≠ 0 := by
        simpa using List.find?_some hfind
      exact hinv.toBaseInv.foundBdesc hmem hptr hlen
        fun b' e he _ => hinv.busy b' e he
    | none =>
      cases hfree : st.freeBucketDesc with
      | nil =>
        apply hinv.setPending
        · simp [hidle]
        · intro p hp
          obtain rfl := Option.some.inj hp
          exact ⟨rfl, hlen⟩
      | cons bdesc rest => exact hinv.popDesc hfree hlen

theorem Inv.gotPage (hinv : Inv st) {call : ℕ} {page : Option ℕ}
    (hpage : ∀ p, page = some p → st.FreePage p) :
    Inv (st.gotPage call page).1 := by
  unfold Malloc.gotPage
  cases hwaits : st.pending call with
  | none => exact hinv
  | some p =>
    obtain ⟨len, bdir, bdesc⟩ := p
    cases bdesc with
    | none =>
      cases page with
      | none =>
        apply hinv.setPending
        · intro p hp
          rw [hwaits] at hp
          obtain rfl := Option.some.inj hp
          rfl
        · simp
      | some page => exact hinv.gotDescPage hwaits (hpage page rfl)
    | some bdesc =>
      cases page with
      | none => exact hinv.pushDesc hwaits rfl
      | some page => exact hinv.gotObjectPage hwaits (hpage page rfl)

/-! ## Freeing an object -/

theorem BaseInv.findDesc (hinv : BaseInv st) {o : Object} (hd : d ∈ st.chain o.bdir)
    (hslot : o.addr ∈ slots (st.desc d).page o.bdir) (hsize : size ≤ bucketSize o.bdir) :
    st.findDesc (pageOf o.addr) size = some (o.bdir, d) := by
  have hpage := pageOf_slots (hinv.page_aligned _ d hd).1 hslot
  unfold Malloc.findDesc
  cases hfind : (List.finRange bucketSizes.length).findSome? fun bdir =>
      if size ≤ bucketSize bdir then
        ((st.chain bdir).find? fun e =>
          (st.desc e).page = pageOf o.addr).map (bdir, ·)
      else none with
  | none =>
    exfalso
    have hnone := List.findSome?_eq_none_iff.mp hfind o.bdir
      (mem_finRange _)
    rw [if_pos hsize, Option.map_eq_none_iff, List.find?_eq_none] at hnone
    exact hnone d hd (by simpa using hpage.symm)
  | some res =>
    obtain ⟨b', _, hres⟩ := exists_of_findSome?_eq_some hfind
    split at hres
    · obtain ⟨e, he, rfl⟩ := Option.map_eq_some_iff.mp hres
      have hmem := mem_of_find?_eq_some he
      have hpageE : (st.desc e).page = pageOf o.addr := by
        simpa using List.find?_some he
      have heq : e = d := hinv.page_inj b' o.bdir e hmem d hd (hpageE.trans hpage)
      subst heq
      rw [hinv.chain_unique hmem hd]
    · cases hres

def Malloc.freeObject (st : Malloc) (o : Object) (d : ℕ) : Malloc :=
  { st.setDesc d { st.desc d with
      freeptr := o.addr
      refcnt := ((st.desc d).refcnt + 65535) % 2 ^ 16 } with
    mem := update st.mem o.addr (st.desc d).freeptr
    live := st.live.erase o }

def Malloc.unlinkPage (st : Malloc) (b : Bucket) (d : ℕ) : Malloc :=
  { st.setPage (st.desc d).page .free with
    chain := update st.chain b ((st.chain b).erase d)
    freeBucketDesc := d :: st.freeBucketDesc }

theorem found_eq (o : Object) (d : ℕ) :
    ({ st.found o.addr b d with live := st.live.erase o } : Malloc) =
      if ((st.freeObject o d).desc d).refcnt = 0 then
        (st.freeObject o d).unlinkPage b d
      else st.freeObject o d := by
  have hrefcnt : ((st.freeObject o d).desc d).refcnt = ((st.desc d).refcnt + 65535) % 2 ^ 16 := by
    simp [Malloc.freeObject, Malloc.setDesc]
  rw [hrefcnt]
  unfold Malloc.found
  simp only
  split
  · simp [Malloc.unlinkPage, Malloc.freeObject, Malloc.setDesc, Malloc.setPage]
  · rfl

section Free

variable {o : Object} (hinv : Inv st) (ho : o ∈ st.live)
  (hd : d ∈ st.chain o.bdir)
  (hslot : o.addr ∈ slots (st.desc d).page o.bdir)

theorem freeObject_desc_ne {e : ℕ} (hne : e ≠ d) : (st.freeObject o d).desc e = st.desc e := by
  simp [Malloc.freeObject, Malloc.setDesc, hne]

theorem freeObject_page (e : ℕ) : ((st.freeObject o d).desc e).page = (st.desc e).page := by
  by_cases hne : e = d
  · subst hne
    simp [Malloc.freeObject, Malloc.setDesc]
  · rw [freeObject_desc_ne hne]

include hinv hd in
theorem freeObject_refcnt : ((st.freeObject o d).desc d).refcnt + 1 = (st.desc d).refcnt := by
  obtain ⟨cells, hcells⟩ := hinv.cells _ d hd
  have hbusy := hinv.busy _ d hd
  have hlt := count_lt o.bdir
  have hcount := hcells.count
  simp only [Malloc.freeObject, Malloc.setDesc, update_self]
  omega

theorem BaseInv.live_inj (hbase : BaseInv st) {o1 o2 : Object}
    (h1 : o1 ∈ st.live) (h2 : o2 ∈ st.live) (heq : o1.addr = o2.addr) :
    o1 = o2 :=
  inj_on_of_nodup_map hbase.live_nodup h1 h2 heq

theorem BaseInv.mem_erase (hbase : BaseInv st) {o' : Object} :
    o' ∈ st.live.erase o ↔ o' ∈ st.live ∧ o' ≠ o := by
  have hnodup : st.live.Nodup := hbase.live_nodup.of_map
  rw [hnodup.mem_erase_iff]
  exact and_comm

include hinv ho hd hslot

theorem freeObject_freeCells {cells : List ℕ}
    (hcells : FreeCells st o.bdir d cells) :
    FreeCells (st.freeObject o d) o.bdir d (o.addr :: cells) := by
  have hnot : o.addr ∉ cells := by
    intro h
    exact ((hcells.mem_iff o.addr).mp h).2 o ho rfl
  have hne : o.addr ≠ 0 := by
    have h1 := (slots_bounds hslot).1
    have h2 := (hinv.page_aligned _ d hd).2
    omega
  constructor
  · have hptr : ((st.freeObject o d).desc d).freeptr = o.addr := by
      simp [Malloc.freeObject, Malloc.setDesc]
    rw [hptr]
    exact hcells.linked.push hne hnot
  · exact nodup_cons.mpr ⟨hnot, hcells.nodup⟩
  · intro x
    rw [freeObject_page, mem_cons, hcells.mem_iff x]
    have hlive : (st.freeObject o d).live = st.live.erase o := rfl
    constructor
    · rintro (rfl | ⟨hx, hfree⟩)
      · refine ⟨hslot, ?_⟩
        intro o' ho' heq
        obtain ⟨h1, h2⟩ := hinv.mem_erase.mp ho'
        exact h2 (hinv.live_inj h1 ho heq)
      · exact ⟨hx, fun o' ho' => hfree o' (hinv.mem_erase.mp ho').1⟩
    · rintro ⟨hx, hfree⟩
      by_cases heq : x = o.addr
      · exact .inl heq
      · right
        refine ⟨hx, ?_⟩
        intro o' ho'
        by_cases hoo : o' = o
        · subst hoo
          exact fun h => heq h.symm
        · exact hfree o' (hinv.mem_erase.mpr ⟨ho', hoo⟩)
  · have hcount := hcells.count
    have hrefcnt := freeObject_refcnt hinv (o := o) hd
    rw [length_cons]
    omega

theorem freeObject_baseInv : BaseInv (st.freeObject o d) := by
  have hhas : ∀ e l, (st.freeObject o d).Has e l → st.Has e l := by
    intro e l h
    cases l <;> exact h
  constructor
  · intro e l l' h h'
    exact hinv.place_unique e l l' (hhas e l h) (hhas e l' h')
  · exact hinv.free_nodup
  · exact hinv.chain_nodup
  · intro e l h
    obtain ⟨huse, hne⟩ := hinv.desc_page e l (hhas e l h)
    refine ⟨huse, ?_⟩
    intro b' e' he'
    rw [freeObject_page]
    exact hne b' e' he'
  · intro b' e he
    rw [freeObject_page]
    exact hinv.page_aligned b' e he
  · intro b' e he
    rw [freeObject_page]
    exact hinv.page_use b' e he
  · intro b1 b2 e1 he1 e2 he2
    rw [freeObject_page, freeObject_page]
    exact hinv.page_inj b1 b2 e1 he1 e2 he2
  · intro b' e he
    by_cases hed : e = d
    · subst hed
      obtain rfl := hinv.chain_unique hd he
      obtain ⟨cells, hcells⟩ := hinv.cells _ e hd
      exact ⟨_, freeObject_freeCells hinv ho hd hslot hcells⟩
    · obtain ⟨cells, hcells⟩ := hinv.cells b' e he
      have hdesc : (st.freeObject o d).desc e = st.desc e := freeObject_desc_ne hed
      have hother : o.addr ∉ slots (st.desc e).page b' := by
        intro h
        exact hed (hinv.slot_page he hd h hslot)
      refine ⟨cells, ?_, hcells.nodup, ?_, ?_⟩
      · rw [hdesc]
        apply hcells.linked.congr
        intro x hx
        have hxo : x ≠ o.addr := by
          rintro rfl
          exact hother ((hcells.mem_iff _).mp hx).1
        simp [Malloc.freeObject, hxo]
      · intro x
        rw [hdesc, hcells.mem_iff x]
        have hlive : (st.freeObject o d).live = st.live.erase o := rfl
        constructor
        · rintro ⟨hx, hfree⟩
          exact ⟨hx, fun o' ho' => hfree o' (hinv.mem_erase.mp ho').1⟩
        · rintro ⟨hx, hfree⟩
          refine ⟨hx, ?_⟩
          intro o' ho'
          by_cases hoo : o' = o
          · subst hoo
            rintro rfl
            exact hother hx
          · exact hfree o' (hinv.mem_erase.mpr ⟨ho', hoo⟩)
      · rw [hdesc]
        exact hcells.count
  · exact hinv.live_nodup.sublist ((erase_sublist).map _)
  · intro o' ho'
    obtain ⟨hl, e, he, hx⟩ := hinv.live_slot o' (hinv.mem_erase.mp ho').1
    exact ⟨hl, e, he, by rw [freeObject_page]; exact hx⟩
  · exact hinv.waits

end Free

theorem BaseInv.refcnt_eq_zero_iff (hinv : BaseInv st)
    (hd : d ∈ st.chain b) : (st.desc d).refcnt = 0 ↔
      ∀ o ∈ st.live, o.addr ∉ slots (st.desc d).page b := by
  obtain ⟨cells, hcells⟩ := hinv.cells b d hd
  have hsub : cells ⊆ slots (st.desc d).page b := fun x hx =>
    ((hcells.mem_iff x).mp hx).1
  have hcount := hcells.count
  rw [← slots_length (st.desc d).page b] at hcount
  constructor
  · intro hzero o ho hx
    have hperm : cells.Perm (slots (st.desc d).page b) := by
      apply (subperm_of_subset hcells.nodup hsub).perm_of_length_le
      omega
    have hmem := hperm.mem_iff.mpr hx
    exact ((hcells.mem_iff _).mp hmem).2 o ho rfl
  · intro hnone
    have hsub' : slots (st.desc d).page b ⊆ cells := by
      intro x hx
      refine (hcells.mem_iff x).mpr ⟨hx, ?_⟩
      rintro o ho rfl
      exact hnone o ho hx
    have hle := (subperm_of_subset (slots_nodup _ _) hsub').length_le
    omega

theorem BaseInv.unlinkPage (hinv : BaseInv st) (hd : d ∈ st.chain b)
    (hzero : (st.desc d).refcnt = 0)
    (hbusy : ∀ b', ∀ e ∈ st.chain b', e ≠ d → 0 < (st.desc e).refcnt) :
    Inv (st.unlinkPage b d) := by
  set st' := st.unlinkPage b d with hst'
  have hchain : ∀ b' e, e ∈ st'.chain b' ↔ e ∈ st.chain b' ∧ e ≠ d := by
    intro b' e
    by_cases hb : b' = b
    · subst hb
      have hlist : st'.chain b' = (st.chain b').erase d := by
        simp [hst', Malloc.unlinkPage]
      rw [hlist, (hinv.chain_nodup b').mem_erase_iff]
      exact and_comm
    · have hlist : st'.chain b' = st.chain b' := by
        simp [hst', Malloc.unlinkPage, hb]
      rw [hlist]
      constructor
      · intro he
        refine ⟨he, ?_⟩
        rintro rfl
        exact hb (hinv.chain_unique he hd)
      · exact fun h => h.1
  have hhas : ∀ e l, st'.Has e l → if e = d then l = .free else st.Has e l := by
    intro e l h
    have hdchain : st.Has d (.chain b) := hd
    by_cases he : e = d
    · subst he
      rw [if_pos rfl]
      cases l with
      | free => rfl
      | chain b' => exact absurd rfl ((hchain b' e).mp h).2
      | held c =>
        have h' := hinv.place_unique e _ (.held c) hdchain h
        cases h'
    · rw [if_neg he]
      cases l with
      | free =>
        rcases mem_cons.mp h with h | h
        · exact absurd h he
        · exact h
      | chain b' => exact ((hchain b' e).mp h).1
      | held c => exact h
  have hold : ∀ e l, st'.Has e l → ∃ l', st.Has e l' := by
    intro e l h
    have h' := hhas e l h
    by_cases he : e = d
    · exact ⟨.chain b, he ▸ hd⟩
    · rw [if_neg he] at h'
      exact ⟨l, h'⟩
  have huse : ∀ page, page ≠ (st.desc d).page → st'.pageUse page = st.pageUse page := by
    intro page hne
    simp [hst', Malloc.unlinkPage, Malloc.setPage, hne]
  constructor
  · constructor
    · intro e l l' h h'
      have h1 := hhas e l h
      have h2 := hhas e l' h'
      by_cases he : e = d
      · rw [if_pos he] at h1 h2
        exact h1.trans h2.symm
      · rw [if_neg he] at h1 h2
        exact hinv.place_unique e l l' h1 h2
    · refine nodup_cons.mpr ⟨?_, hinv.free_nodup⟩
      intro h
      have h' := hinv.place_unique d (.chain b) .free hd h
      cases h'
    · intro b'
      by_cases hb : b' = b
      · subst hb
        have hlist : st'.chain b' = (st.chain b').erase d := by
          simp [hst', Malloc.unlinkPage]
        rw [hlist]
        exact (hinv.chain_nodup b').erase d
      · have hlist : st'.chain b' = st.chain b' := by
          simp [hst', Malloc.unlinkPage, hb]
        rw [hlist]
        exact hinv.chain_nodup b'
    · intro e l h
      obtain ⟨l', h'⟩ := hold e l h
      obtain ⟨hpage, hne⟩ := hinv.desc_page e l' h'
      refine ⟨?_, ?_⟩
      · rw [huse _ fun heq => hne b d hd heq.symm]
        exact hpage
      · intro b' e' he'
        exact hne b' e' ((hchain b' e').mp he').1
    · intro b' e he
      exact hinv.page_aligned b' e ((hchain b' e).mp he).1
    · intro b' e he
      obtain ⟨hmem, hne⟩ := (hchain b' e).mp he
      have hpage : (st.desc e).page ≠ (st.desc d).page := fun heq =>
        hne (hinv.page_inj b' b e hmem d hd heq)
      exact (huse _ hpage).trans (hinv.page_use b' e hmem)
    · intro b1 b2 e1 he1 e2 he2
      exact hinv.page_inj b1 b2 e1 ((hchain b1 e1).mp he1).1 e2
        ((hchain b2 e2).mp he2).1
    · intro b' e he
      obtain ⟨cells, h⟩ := hinv.cells b' e ((hchain b' e).mp he).1
      exact ⟨cells, h.linked, h.nodup, h.mem_iff, h.count⟩
    · exact hinv.live_nodup
    · intro o ho
      obtain ⟨hl, e, he, hx⟩ := hinv.live_slot o ho
      refine ⟨hl, e, (hchain _ e).mpr ⟨he, ?_⟩, hx⟩
      rintro rfl
      obtain rfl := hinv.chain_unique hd he
      exact (hinv.refcnt_eq_zero_iff hd).mp hzero o ho hx
    · exact hinv.waits
  · intro b' e he
    obtain ⟨hmem, hne⟩ := (hchain b' e).mp he
    exact hbusy b' e hmem hne

end LinuxKernel.Kmalloc
