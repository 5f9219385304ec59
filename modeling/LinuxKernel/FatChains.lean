import LinuxKernel.FatCache

/-!
# Allocation in the FAT

The chains of the inodes that are live, and what `fat_free` and `msdos_add_cluster` do to them.
The live inodes are those that have a name or are in use, but for the old inode in the middle of a
rename.
-/

namespace LinuxKernel.FatChain
open Function List

open LinkChain

/-- The chains are in order.  With `counted`, so is `i_blocks`, which is only guessed when an
inode is read; the root directory has no chain, and its blocks are elsewhere. -/
structure Wf (v : Volume) (s : State) (live : Ino → Prop) (chain : Ino → List ℕ) (counted : Bool) :
    Prop where
  leads : ∀ i, live i → Leads s.fat (startLink (s.inode i).start) (chain i)
  dead : ∀ i, ¬live i → chain i = []
  range : ∀ i, ∀ c ∈ chain i, v.InRange c
  disjoint : ∀ i j c, c ∈ chain i → c ∈ chain j → i = j
  free : ∀ c, v.InRange c → (∀ i, c ∉ chain i) → s.fat c = .free
  count : ∀ n, s.freeClusters = some n → n = v.countFree s
  cached : Cached v s chain
  cache : CacheWf s
  root : (s.inode rootIno).start = 0 ∧ (s.entry rootIno).used = false
  doomed : ∀ i, live i → i ≠ rootIno → (s.entry i).used = false →
    (s.inode i).busy = true ∧ (s.inode i).nlink = 0
  named : ∀ i, live i → (s.entry i).used = true → (s.inode i).nlink ≠ 0
  written : ∀ i, live i → (s.entry i).used = true → (s.inode i).count = 0 →
    (s.entry i).start = (s.inode i).start
  blocks : counted = true → ∀ i, live i → i ≠ rootIno →
    (s.inode i).blocks = v.clusterSize * (chain i).length

section

variable {v : Volume} {s s' : State} {live : Ino → Prop} {chain : Ino → List ℕ} {counted : Bool}
  {ino : Ino} {l : List ℕ} {nr d : ℕ}

theorem fatAccess_eq (h : v.InRange nr) : v.fatAccess s nr = s.fat nr := if_pos h

theorem fatSet_eq (h : v.InRange nr) (value : Link ℕ) :
    v.fatSet s nr value = { s with fat := update s.fat nr value } := if_pos h

theorem mem_countFree {n : ℕ} :
    n ∈ (Finset.range v.clusters).filter (fun n => s.fat (n + 2) = .free) ↔
      n < v.clusters ∧ s.fat (n + 2) = .free := by
  rw [Finset.mem_filter, Finset.mem_range]

theorem countFree_free (hr : v.InRange nr) (hne : s.fat nr ≠ .free)
    (hfat : ∀ c, s'.fat c = if c = nr then .free else s.fat c) :
    v.countFree s' = v.countFree s + 1 := by
  obtain ⟨h2, hlt⟩ := hr
  have hnr : nr - 2 + 2 = nr := Nat.sub_add_cancel h2
  have hinsert : (Finset.range v.clusters).filter (fun n => s'.fat (n + 2) = .free) =
      insert (nr - 2) ((Finset.range v.clusters).filter fun n => s.fat (n + 2) = .free) := by
    ext n
    rw [Finset.mem_insert, mem_countFree, mem_countFree, hfat]
    constructor
    · rintro ⟨hn, hf⟩
      split at hf
      · next heq => exact .inl (by omega)
      · exact .inr ⟨hn, hf⟩
    · rintro (rfl | ⟨hn, hf⟩)
      · exact ⟨by omega, by rw [hnr, if_pos rfl]⟩
      · refine ⟨hn, ?_⟩
        split
        · rfl
        · exact hf
  unfold Volume.countFree
  rw [hinsert, Finset.card_insert_of_notMem]
  rw [mem_countFree, hnr]
  exact fun h => hne h.2

theorem countFree_used {value : Link ℕ} (hr : v.InRange nr) (hfree : s.fat nr = .free)
    (hvalue : value ≠ .free) (hfat : ∀ c, s'.fat c = if c = nr then value else s.fat c) :
    v.countFree s = v.countFree s' + 1 := by
  refine countFree_free hr (by rw [hfat, if_pos rfl]; exact hvalue) fun c => ?_
  rw [hfat]
  split
  · next heq => rw [heq, hfree]
  · rfl

theorem countFree_same (h : ∀ c, s'.fat c = .free ↔ s.fat c = .free) :
    v.countFree s' = v.countFree s := by
  unfold Volume.countFree
  congr 1
  ext n
  rw [mem_countFree, mem_countFree, h]

theorem Wf.length_le (h : Wf v s live chain counted) (i : Ino) : (chain i).length ≤ v.clusters := by
  by_cases hl : live i
  · have hsub : (chain i).toFinset ⊆ (Finset.range v.clusters).image (· + 2) := by
      intro c hc
      obtain ⟨h2, hlt⟩ := h.range i c (mem_toFinset.mp hc)
      refine Finset.mem_image.mpr ⟨c - 2, Finset.mem_range.mpr ?_, ?_⟩ <;> omega
    have hcard := (Finset.card_le_card hsub).trans Finset.card_image_le
    rwa [toFinset_card_of_nodup (h.leads i hl).nodup, Finset.card_range] at hcard
  · rw [h.dead i hl]
    exact Nat.zero_le _

/-- The second loop of `fat_free` has freed the clusters of `l`. -/
structure Freed (v : Volume) (ino : Ino) (l : List ℕ) (s s' : State) : Prop where
  fat : ∀ c, s'.fat c = if c ∈ l then .free else s.fat c
  freeClusters : s'.freeClusters = s.freeClusters.map (· + l.length)
  countFree : v.countFree s' = v.countFree s + l.length
  blocks : (s'.inode ino).blocks = (s.inode ino).blocks - v.clusterSize * l.length
  same : ∀ i, ∃ b, s'.inode i = { s.inode i with blocks := b } ∧ (i ≠ ino → b = (s.inode i).blocks)
  entry : s'.entry = s.entry
  order : s'.order = s.order
  cache : s'.cache = s.cache

theorem freeOne_freed (hr : v.InRange nr) (hne : s.fat nr ≠ .free) :
    Freed v ino [nr] s (v.freeOne s ino nr) := by
  have hfat : ∀ c, (v.freeOne s ino nr).fat c = if c = nr then .free else s.fat c := by
    intro c
    unfold Volume.freeOne
    rw [fatSet_eq hr]
    exact update_apply s.fat nr .free c
  refine ⟨?_, rfl, countFree_free hr hne hfat, ?_, ?_, ?_, ?_, ?_⟩
  · intro c
    rw [hfat]
    simp only [mem_singleton]
  · unfold Volume.freeOne State.setInode
    rw [fatSet_eq hr]
    dsimp only
    simp
  · intro i
    unfold Volume.freeOne State.setInode
    rw [fatSet_eq hr]
    dsimp only
    by_cases hi : i = ino
    · rw [hi, update_self]
      exact ⟨_, rfl, fun h => absurd rfl h⟩
    · rw [update_of_ne hi]
      exact ⟨_, rfl, fun _ => rfl⟩
  · unfold Volume.freeOne State.setInode
    rw [fatSet_eq hr]
  · unfold Volume.freeOne State.setInode
    rw [fatSet_eq hr]
  · unfold Volume.freeOne State.setInode
    rw [fatSet_eq hr]

theorem Freed.cons {s'' : State} (h : Freed v ino [nr] s s') (h' : Freed v ino l s' s'') :
    Freed v ino (nr :: l) s s'' := by
  refine ⟨?_, ?_, ?_, ?_, ?_, h'.entry.trans h.entry, h'.order.trans h.order,
      h'.cache.trans h.cache⟩
  · intro c
    rw [h'.fat, h.fat]
    by_cases hc : c = nr <;> by_cases hl : c ∈ l <;> simp [hc, hl]
  · rw [h'.freeClusters, h.freeClusters]
    cases s.freeClusters with
    | none => rfl
    | some n => simp; omega
  · rw [h'.countFree, h.countFree]
    simp only [length_cons, length_nil]
    omega
  · rw [h'.blocks, h.blocks]
    simp only [length_cons, length_nil]
    push_cast
    ring
  · intro i
    obtain ⟨b, hb, hbi⟩ := h.same i
    obtain ⟨b', hb', hbi'⟩ := h'.same i
    refine ⟨b', by rw [hb', hb], fun hi => ?_⟩
    rw [hbi' hi, hb, hbi hi]

theorem freeRest_freed (n : ℕ) (h : Leads s.fat (.link d) (d :: l))
    (hrange : ∀ c ∈ d :: l, v.InRange c) (hn : l.length < n) :
    Freed v ino (d :: l) s (v.freeRest ino n s d) := by
  induction n generalizing s d l with
  | zero => omega
  | succ n ih =>
    have hd := hrange d (mem_cons_self ..)
    have hone : Freed v ino [d] s (v.freeOne s ino d) :=
      freeOne_freed hd (h.ne_free (mem_cons_self ..))
    have hnodup := (nodup_cons.mp h.nodup).1
    unfold Volume.freeRest
    rw [fatAccess_eq hd]
    cases h with
    | cons hrest =>
      cases l with
      | nil =>
        rw [hrest.eq_eof]
        exact hone
      | cons c l =>
        have hlink := hrest.eq_link
        rw [hlink] at hrest ⊢
        refine hone.cons (ih (hrest.congr fun x hx => ?_)
          (fun x hx => hrange x (mem_cons_of_mem _ hx)) (by simpa using hn))
        rw [hone.fat, if_neg]
        rw [mem_singleton]
        rintro rfl
        exact hnodup hx

theorem skip_spec (n last : ℕ) (h : Leads s.fat (.link d) (d :: l))
    (hrange : ∀ c ∈ d :: l, v.InRange c) :
    (l.length < n → v.skip s n last d = .eof) ∧
      (n ≤ l.length → ∃ l1 nr l2, d :: l = l1 ++ nr :: l2 ∧ l1.length = n ∧
        v.skip s n last d = .at (l1.getLastD last) nr) := by
  induction n generalizing d l last with
  | zero => exact ⟨fun hn => absurd hn (Nat.not_lt_zero _), fun _ => ⟨[], d, l, rfl, rfl, rfl⟩⟩
  | succ n ih =>
    unfold Volume.skip
    rw [fatAccess_eq (hrange d (mem_cons_self ..))]
    cases h with
    | cons hrest =>
      cases l with
      | nil =>
        rw [hrest.eq_eof]
        exact ⟨fun _ => rfl, fun hn => absurd hn (by simp)⟩
      | cons c l =>
        have hlink := hrest.eq_link
        rw [hlink] at hrest ⊢
        obtain ⟨hpast, hin⟩ := ih d hrest fun x hx => hrange x (mem_cons_of_mem _ hx)
        refine ⟨fun hn => hpast (by simpa using hn), fun hn => ?_⟩
        obtain ⟨l1, nr, l2, heq, hlen, hskip⟩ := hin (by simpa using hn)
        refine ⟨d :: l1, nr, l2, by rw [heq]; rfl, by rw [length_cons, hlen], ?_⟩
        rw [getLastD_cons]
        exact hskip

/-- The chain of the inode has been cut behind `l1`, and the clusters of `l2` are free. -/
structure Cut (v : Volume) (ino : Ino) (l1 l2 : List ℕ) (s s' : State) : Prop where
  fat : ∀ c, s'.fat c = if c ∈ l2 then .free else if l1.getLast? = some c then .eof else s.fat c
  freeClusters : s'.freeClusters = s.freeClusters.map (· + l2.length)
  countFree : v.countFree s' = v.countFree s + l2.length
  self : s'.inode ino = { s.inode ino with
    start := if l1 = [] then 0 else (s.inode ino).start
    blocks := (s.inode ino).blocks - v.clusterSize * l2.length }
  others : ∀ i, i ≠ ino → s'.inode i = s.inode i
  entry : s'.entry = s.entry
  cache : CacheWf s → CacheWf s'
  cached : ∀ chain chain', Cached v s chain → (∀ i, i ≠ ino → chain' i = chain i) →
    Cached v s' chain'

theorem Freed.cut {s1 s2 : State} {l1 l2 : List ℕ} (h : Freed v ino l2 s1 s2)
    (hfat : ∀ c, s1.fat c = if l1.getLast? = some c then .eof else s.fat c)
    (hcount : v.countFree s1 = v.countFree s) (hfree : s1.freeClusters = s.freeClusters)
    (hself : s1.inode ino = { s.inode ino with
      start := if l1 = [] then 0 else (s.inode ino).start })
    (hothers : ∀ i, i ≠ ino → s1.inode i = s.inode i) (hentry : s1.entry = s.entry)
    (horder : s1.order = s.order) (hcache : s1.cache = s.cache) :
    Cut v ino l1 l2 s (v.cacheInvalInode s2 ino) := by
  have hc := h.cache.trans hcache
  have ho := h.order.trans horder
  refine ⟨?_, ?_, ?_, ?_, ?_, h.entry.trans hentry, fun hw => (hw.congr ho hc).inval v ino,
    fun chain chain' hch => (hch.congr ho hc).inval⟩
  · intro c
    change s2.fat c = _
    rw [h.fat, hfat]
  · exact h.freeClusters.trans (by rw [hfree])
  · exact h.countFree.trans (by rw [hcount])
  · change s2.inode ino = _
    obtain ⟨b, hb, -⟩ := h.same ino
    have hblocks := h.blocks
    rw [hself] at hblocks
    rw [hb] at hblocks ⊢
    rw [hself]
    dsimp only at hblocks ⊢
    rw [hblocks]
  · intro i hi
    change s2.inode i = _
    obtain ⟨b, hb, hbi⟩ := h.same i
    rw [hb, hbi hi]
    exact hothers i hi

theorem fatFree_cases (n : ℕ) (h : Leads s.fat (startLink (s.inode ino).start) l)
    (hrange : ∀ c ∈ l, v.InRange c) (hlen : l.length ≤ v.clusters) :
    l.length ≤ n ∧ v.fatFree s ino n = s ∨
      Cut v ino (l.take n) (l.drop n) s (v.fatFree s ino n) := by
  unfold Volume.fatFree
  split
  · next hzero =>
    rw [hzero] at h
    rw [leads_startLink_zero h]
    exact .inl ⟨Nat.zero_le _, rfl⟩
  · next hne =>
    have hfirst := leads_startLink h hne
    obtain ⟨rest, hleads, hdrop⟩ := leads_of_getElem h hfirst
    subst hdrop
    obtain ⟨hpast, hin⟩ := skip_spec n 0 hleads hrange
    by_cases hn : rest.length < n
    · rw [hpast hn]
      exact .inl ⟨hn, rfl⟩
    · right
      obtain ⟨l1, nr, l2, heq, hl1, hskip⟩ := hin (Nat.le_of_not_lt hn)
      rw [hskip]
      dsimp only
      have htake : ((s.inode ino).start :: rest).take n = l1 := by
        rw [heq, ← hl1, take_left]
      have hdrop : ((s.inode ino).start :: rest).drop n = nr :: l2 := by
        rw [heq, ← hl1, drop_left]
      rw [htake, hdrop]
      have hnodup := hleads.nodup
      have hsuffix : Leads s.fat (.link nr) (nr :: l2) := by
        rw [heq] at hleads
        exact Leads.cons hleads.rest
      have hrange2 : ∀ c ∈ nr :: l2, v.InRange c := by
        intro c hc
        refine hrange c ?_
        rw [heq]
        exact mem_append_right _ hc
      have hlen2 : l2.length < v.clusters + 1 := by
        have := congrArg List.length heq
        simp at this hlen
        omega
      rcases eq_nil_or_concat l1 with rfl | ⟨l0, a, rfl⟩
      · -- nothing is kept
        refine Freed.cut (freeRest_freed _ (hsuffix.congr fun _ _ => rfl) hrange2 hlen2) ?_
          (countFree_same fun _ => Iff.rfl) rfl ?_ ?_ rfl rfl rfl
        · intro c
          simp [State.setInode]
        · simp [State.setInode]
        · intro i hi
          exact update_of_ne hi ..
      · have hlast : (l0.concat a).getLastD 0 = a := by simp
        have ha : v.InRange a := by
          refine hrange a ?_
          rw [heq]
          simp
        have ha0 : a ≠ 0 := fun h0 => by
          rw [h0] at ha
          exact absurd ha.1 (by decide)
        have hgone : a ∉ nr :: l2 := by
          rw [heq, nodup_append] at hnodup
          intro hin
          exact hnodup.2.2 a (by simp) a hin rfl
        have hused : s.fat a ≠ .free := by
          refine hleads.ne_free ?_
          rw [heq]
          simp
        rw [hlast, if_pos ha0, fatSet_eq ha]
        have hfat : ∀ c, update s.fat a .eof c =
            if (l0.concat a).getLast? = some c then .eof else s.fat c := by
          intro c
          by_cases hc : c = a
          · simp [hc]
          · have hac : a ≠ c := Ne.symm hc
            simp [hc, hac]
        refine Freed.cut (freeRest_freed _ (hsuffix.congr fun x hx => ?_) hrange2 hlen2) hfat
          (countFree_same fun c => ?_) rfl ?_ (fun _ _ => rfl) rfl rfl rfl
        · have hxa : x ≠ a := by
            rintro rfl
            exact hgone hx
          exact update_of_ne hxa ..
        · change update s.fat a .eof c = .free ↔ _
          by_cases hc : c = a
          · rw [hc, update_self]
            exact iff_of_false (by simp) hused
          · rw [update_of_ne hc]
        · simp

section
variable (h : Wf v s live chain counted) (hlive : live ino)
include h hlive

theorem Wf.cut {l1 l2 : List ℕ} (hchain : chain ino = l1 ++ l2) (hc : Cut v ino l1 l2 s s')
    (huse : 0 < (s.inode ino).count ∨ (s.entry ino).used = false) :
    Wf v s' live (update chain ino l1) counted := by
  have hself : ∀ i, (s'.inode i).count = (s.inode i).count ∧ (s'.inode i).nlink =
    (s.inode i).nlink ∧
      (s'.inode i).busy = (s.inode i).busy := by
    intro i
    by_cases hi : i = ino
    · rw [hi, hc.self]
      exact ⟨rfl, rfl, rfl⟩
    · rw [hc.others i hi]
      exact ⟨rfl, rfl, rfl⟩
  have hsub : ∀ i, ∀ c ∈ update chain ino l1 i, c ∈ chain i := by
    intro i c hin
    by_cases hi : i = ino
    · rw [hi, update_self] at hin
      rw [hi, hchain]
      exact mem_append_left _ hin
    · rwa [update_of_ne hi] at hin
  have hleads := h.leads ino hlive
  rw [hchain] at hleads
  have hnodup := nodup_append.mp hleads.nodup
  -- the links of other chains are not touched
  have hother : ∀ i, i ≠ ino → ∀ c ∈ chain i, s'.fat c = s.fat c := by
    intro i hi c hin
    have hnot : c ∉ chain ino := fun hin' => hi (h.disjoint i ino c hin hin')
    rw [hchain, mem_append, not_or] at hnot
    rw [hc.fat, if_neg hnot.2, if_neg fun hlast => hnot.1 (mem_of_getLast? hlast)]
  refine ⟨?_, ?_, ?_, ?_, ?_, ?_, ?_, hc.cache h.cache, ?_, ?_, ?_, ?_, ?_⟩
  · intro i hi
    by_cases heq : i = ino
    · rw [heq, update_self, hc.self]
      rcases eq_nil_or_concat l1 with rfl | ⟨l0, a, rfl⟩
      · exact Leads.nil
      · rw [concat_eq_append] at hleads hnodup hc ⊢
        rw [append_assoc, singleton_append] at hleads
        rw [if_neg (by simp)]
        have hsplit := nodup_append.mp hnodup.1
        refine hleads.replace (fun b hb => ?_) ?_
        · have hba : a ≠ b := fun heq => hsplit.2.2 b hb a (mem_singleton_self a) heq.symm
          have hb2 : b ∉ l2 := fun hin => hnodup.2.2 b (mem_append_left _ hb) b hin rfl
          rw [hc.fat, if_neg hb2, if_neg (by simpa using hba)]
        · have ha2 : a ∉ l2 := fun hin => hnodup.2.2 a (by simp) a hin rfl
          rw [hc.fat, if_neg ha2, if_pos (by simp)]
          exact Leads.nil
    · rw [update_of_ne heq, hc.others i heq]
      exact (h.leads i hi).congr (hother i heq)
  · intro i hi
    have heq : i ≠ ino := fun heq => hi (heq ▸ hlive)
    rw [update_of_ne heq]
    exact h.dead i hi
  · exact fun i c hin => h.range i c (hsub i c hin)
  · exact fun i j c hi hj => h.disjoint i j c (hsub i c hi) (hsub j c hj)
  · intro c hr hout
    rw [hc.fat]
    split
    · rfl
    · next hl2 =>
      have hl1 : c ∉ l1 := by
        have := hout ino
        rwa [update_self] at this
      rw [if_neg fun hlast => hl1 (mem_of_getLast? hlast)]
      refine h.free c hr fun i hin => ?_
      by_cases heq : i = ino
      · rw [heq, hchain, mem_append] at hin
        exact hin.elim hl1 hl2
      · have := hout i
        rw [update_of_ne heq] at this
        exact this hin
  · intro n hn
    rw [hc.freeClusters] at hn
    obtain ⟨m, hm, rfl⟩ := Option.map_eq_some_iff.mp hn
    rw [hc.countFree, ← h.count m hm]
  · exact hc.cached chain _ h.cached fun i hi => update_of_ne hi ..
  · rw [hc.entry]
    refine ⟨?_, h.root.2⟩
    by_cases heq : rootIno = ino
    · rw [heq, hc.self]
      split
      · rfl
      · rw [← heq]
        exact h.root.1
    · rw [hc.others _ heq]
      exact h.root.1
  · intro i hi hr hu
    rw [hc.entry] at hu
    rw [(hself i).2.1, (hself i).2.2]
    exact h.doomed i hi hr hu
  · intro i hi hu
    rw [hc.entry] at hu
    rw [(hself i).2.1]
    exact h.named i hi hu
  · intro i hi hu hcount
    rw [hc.entry] at hu ⊢
    rw [(hself i).1] at hcount
    have heq : i ≠ ino := by
      rintro rfl
      rcases huse with hpos | hunused
      · omega
      · rw [hu] at hunused
        exact absurd hunused (by decide)
    rw [hc.others i heq]
    exact h.written i hi hu hcount
  · intro hcounted i hi hr
    by_cases heq : i = ino
    · rw [heq, hc.self, update_self]
      rw [h.blocks hcounted ino hlive (heq ▸ hr), hchain, length_append]
      push_cast
      ring
    · rw [hc.others i heq, update_of_ne heq]
      exact h.blocks hcounted i hi hr

theorem Wf.fatFree (huse : 0 < (s.inode ino).count ∨ (s.entry ino).used = false) (n : ℕ) :
    Wf v (v.fatFree s ino n) live (update chain ino ((chain ino).take n)) counted := by
  rcases fatFree_cases n (h.leads ino hlive) (h.range ino) (h.length_le ino) with ⟨hlen, heq⟩ | hcut
  · rw [heq, take_of_length_le hlen, update_eq_self]
    exact h
  · exact h.cut hlive (take_append_drop n (chain ino)).symm hcut huse

theorem Wf.fatFree_frame (n : ℕ) :
    (v.fatFree s ino n).entry = s.entry ∧ ∀ i,
      ((v.fatFree s ino n).inode i).count = (s.inode i).count ∧
      ((v.fatFree s ino n).inode i).isDir = (s.inode i).isDir ∧
      ((v.fatFree s ino n).inode i).nlink = (s.inode i).nlink := by
  rcases fatFree_cases n (h.leads ino hlive) (h.range ino) (h.length_le ino) with ⟨-, heq⟩ | hcut
  · rw [heq]
    exact ⟨rfl, fun _ => ⟨rfl, rfl, rfl⟩⟩
  · refine ⟨hcut.entry, fun i => ?_⟩
    by_cases hi : i = ino
    · rw [hi, hcut.self]
      exact ⟨rfl, rfl, rfl⟩
    · rw [hcut.others i hi]
      exact ⟨rfl, rfl, rfl⟩

end

theorem scan_spec (v : Volume) (s : State) (n count : ℕ) :
    (v.scan s n count < count + n →
      v.fatAccess s ((v.scan s n count + s.prevFree) % v.clusters + 2) = .free) ∧
    (count + n ≤ v.scan s n count → ∀ j, count ≤ j → j < count + n →
      v.fatAccess s ((j + s.prevFree) % v.clusters + 2) ≠ .free) := by
  induction n generalizing count with
  | zero =>
    refine ⟨fun h => ?_, fun _ j h1 h2 => by omega⟩
    unfold Volume.scan at h
    omega
  | succ n ih =>
    unfold Volume.scan
    split
    · next hfree => exact ⟨fun _ => hfree, fun h => by omega⟩
    · next hfree =>
      obtain ⟨hfound, hnone⟩ := ih (count + 1)
      refine ⟨fun h => hfound (by omega), fun h j h1 h2 => ?_⟩
      by_cases hj : j = count
      · rw [hj]
        exact hfree
      · exact hnone (by omega) j (by omega) (by omega)

theorem inRange_mod (v : Volume) (n : ℕ) : v.InRange (n % v.clusters + 2) := by
  have := Nat.mod_lt n v.clusters_pos
  exact ⟨by omega, by omega⟩

theorem exists_round (v : Volume) (start : ℕ) {c : ℕ} (hc : v.InRange c) :
    ∃ j < v.clusters, (j + start) % v.clusters + 2 = c := by
  obtain ⟨h2, hlt⟩ := hc
  have hpos := v.clusters_pos
  have hmod := Nat.mod_lt start hpos
  refine ⟨(c - 2 + (v.clusters - start % v.clusters)) % v.clusters, Nat.mod_lt _ hpos, ?_⟩
  have hsum : ((c - 2 + (v.clusters - start % v.clusters)) % v.clusters + start) % v.clusters =
      c - 2 := by
    rw [Nat.mod_add_mod]
    have hsplit : c - 2 + (v.clusters - start % v.clusters) + start =
        c - 2 + v.clusters * (1 + start / v.clusters) := by
      have := Nat.div_add_mod start v.clusters
      rw [Nat.mul_add, Nat.mul_one]
      omega
    rw [hsplit, Nat.add_mul_mod_self_left, Nat.mod_eq_of_lt (by omega)]
  omega

theorem scan_free (v : Volume) (s : State) (h : v.scan s v.clusters 0 < v.clusters) :
    s.fat ((v.scan s v.clusters 0 + s.prevFree) % v.clusters + 2) = .free := by
  have hfree := (scan_spec v s v.clusters 0).1 (by omega)
  rwa [fatAccess_eq (inRange_mod v _)] at hfree

theorem scan_full (v : Volume) (s : State) (h : v.clusters ≤ v.scan s v.clusters 0) {c : ℕ}
    (hc : v.InRange c) : s.fat c ≠ .free := by
  obtain ⟨j, hj, rfl⟩ := exists_round v s.prevFree hc
  have hne := (scan_spec v s v.clusters 0).2 (by omega) j (Nat.zero_le _) (by omega)
  rwa [fatAccess_eq hc] at hne

theorem tail_eq (n : ℕ) (h : Leads s.fat (.link d) (d :: l)) (hrange : ∀ c ∈ d :: l, v.InRange c)
    (hn : l.length < n) : v.tail s n d = (d :: l).getLast? := by
  induction n generalizing d l with
  | zero => omega
  | succ n ih =>
    unfold Volume.tail
    rw [fatAccess_eq (hrange d (mem_cons_self ..))]
    cases h with
    | cons hrest =>
      cases l with
      | nil =>
        rw [hrest.eq_eof]
        rfl
      | cons c l =>
        have hlink := hrest.eq_link
        rw [hlink] at hrest ⊢
        exact ih hrest (fun x hx => hrange x (mem_cons_of_mem _ hx)) (by simpa using hn)

structure Extended (v : Volume) (ino : Ino) (l : List ℕ) (nr : ℕ) (s s' : State) : Prop where
  fat : ∀ c, s'.fat c = if c = nr then .eof else if l.getLast? = some c then .link nr else s.fat c
  freeClusters : s'.freeClusters = s.freeClusters.map (· - 1)
  start : (s'.inode ino).start = if l = [] then nr else (s.inode ino).start
  blocks : (s'.inode ino).blocks = (s.inode ino).blocks + v.clusterSize
  self : (s'.inode ino).count = (s.inode ino).count ∧ (s'.inode ino).nlink = (s.inode ino).nlink ∧
    (s'.inode ino).busy = (s.inode ino).busy
  others : ∀ i, i ≠ ino → s'.inode i = s.inode i
  entry : s'.entry = s.entry
  order : s'.order = s.order
  cache : s'.cache = s.cache

theorem grow_frame (v : Volume) (i : Inode) : (v.grow i).start = i.start ∧
    (v.grow i).blocks = i.blocks ∧ (v.grow i).count = i.count ∧ (v.grow i).nlink = i.nlink ∧
    (v.grow i).busy = i.busy := by
  unfold Volume.grow
  split <;> exact ⟨rfl, rfl, rfl, rfl, rfl⟩

theorem append_extended (h : Leads s.fat (startLink (s.inode ino).start) l)
    (hrange : ∀ c ∈ l, v.InRange c) (hlen : l.length ≤ v.clusters)
    (hcache : ∀ w ∈ s.order, v.Hits s ino w →
      l[(s.cache w).fileCluster]? = some (s.cache w).diskCluster)
    (hnr : v.InRange nr) (hfree : s.fat nr = .free) :
    (v.append (v.take s nr) ino nr).2 = true ∧
      Extended v ino l nr s (v.append (v.take s nr) ino nr).1 := by
  have htake : v.take s nr = { s with
      fat := update s.fat nr .eof
      freeClusters := s.freeClusters.map (· - 1) } := by
    unfold Volume.take
    rw [fatSet_eq hnr]
  rw [htake]
  set s1 : State := { s with
    fat := update s.fat nr .eof
    freeClusters := s.freeClusters.map (· - 1) } with hs1
  have hfat1 : ∀ c, s1.fat c = if c = nr then .eof else s.fat c := update_apply s.fat nr .eof
  have hout : nr ∉ l := fun hin => h.ne_free hin hfree
  unfold Volume.append
  by_cases hzero : (s1.inode ino).start = 0
  · rw [if_pos hzero]
    have hnil : l = [] := by
      have hz : (s.inode ino).start = 0 := hzero
      rw [hz] at h
      exact leads_startLink_zero h
    obtain ⟨g1, g2, g3, g4, g5⟩ := grow_frame v { s1.inode ino with
      start := nr, blocks := (s1.inode ino).blocks + v.clusterSize }
    refine ⟨rfl, ⟨?_, rfl, ?_, ?_, ?_, fun i hi => update_of_ne hi .., rfl, rfl, rfl⟩⟩
    · intro c
      change s1.fat c = _
      rw [hfat1, hnil]
      simp
    · unfold State.setInode
      dsimp only
      rw [update_self, g1, hnil, if_pos rfl]
    · unfold State.setInode
      dsimp only
      rw [update_self, g2]
    · unfold State.setInode
      dsimp only
      rw [update_self, g3, g4, g5]
      exact ⟨rfl, rfl, rfl⟩
  · rw [if_neg hzero]
    have hfirst := leads_startLink h hzero
    have hcache1 : ∀ w ∈ s1.order, v.Hits s1 ino w →
        l[(s1.cache w).fileCluster]? = some (s1.cache w).diskCluster := hcache
    obtain ⟨hat, -⟩ := cacheLookup_spec Volume.intMax s1.order (0, (s1.inode ino).start) hcache1
      hfirst (Nat.zero_le _)
    revert hat
    generalize v.cacheLookup s1 ino Volume.intMax s1.order (0, (s1.inode ino).start) = p
    intro hat
    have hleads1 : Leads s1.fat (startLink (s.inode ino).start) l := by
      refine h.congr fun c hc => ?_
      rw [hfat1, if_neg]
      rintro rfl
      exact hout hc
    obtain ⟨l2, hl2, hdrop⟩ := leads_of_getElem hleads1 hat
    have hsub : ∀ c ∈ p.2 :: l2, c ∈ l := by
      intro c hc
      rw [← hdrop] at hc
      exact mem_of_mem_drop hc
    have hlen2 : l2.length < v.clusters + 1 := by
      have := congrArg List.length hdrop
      rw [length_drop, length_cons] at this
      omega
    have hlast : (p.2 :: l2).getLast? = l.getLast? := by
      rw [← hdrop, List.getLast?_drop, if_neg]
      have := congrArg List.length hdrop
      rw [length_drop, length_cons] at this
      omega
    rw [tail_eq _ hl2 (fun c hc => hrange c (hsub c hc)) hlen2, hlast]
    have hne : l ≠ [] := by
      rintro rfl
      simp at hat
    obtain ⟨last, hlast'⟩ := Option.ne_none_iff_exists'.mp fun h => hne
      (List.getLast?_eq_none_iff.mp h)
    rw [hlast']
    dsimp only
    have hlr := hrange last (mem_of_getLast? hlast')
    rw [fatSet_eq hlr]
    obtain ⟨g1, g2, g3, g4, g5⟩ := grow_frame v { s1.inode ino with
      blocks := (s1.inode ino).blocks + v.clusterSize }
    have hlastnr : last ≠ nr := by
      rintro rfl
      exact hout (mem_of_getLast? hlast')
    refine ⟨rfl, ⟨?_, rfl, ?_, ?_, ?_, fun i hi => update_of_ne hi .., rfl, rfl, rfl⟩⟩
    · intro c
      change update s1.fat last (.link nr) c = _
      rw [update_apply, hfat1, hlast']
      by_cases hcl : c = last
      · rw [if_pos hcl, hcl, if_neg hlastnr, if_pos rfl]
      · have hcl' : ¬some last = some c := fun h => hcl (Option.some.inj h).symm
        rw [if_neg hcl, if_neg hcl']
    · unfold State.setInode
      dsimp only
      rw [update_self, g1, if_neg hne]
    · unfold State.setInode
      dsimp only
      rw [update_self, g2]
    · unfold State.setInode
      dsimp only
      rw [update_self, g3, g4, g5]
      exact ⟨rfl, rfl, rfl⟩

section
variable (h : Wf v s live chain counted)
include h

theorem Wf.hits (ino : Ino) :
    ∀ w ∈ s.order, v.Hits s ino w →
      (chain ino)[(s.cache w).fileCluster]? = some (s.cache w).diskCluster := by
  rintro w hw ⟨hdev, rfl⟩
  exact h.cached w hw hdev

theorem Wf.notMem_of_free (hfree : s.fat nr = .free) (i : Ino) : nr ∉ chain i := by
  intro hin
  by_cases hi : live i
  · exact (h.leads i hi).ne_free hin hfree
  · rw [h.dead i hi] at hin
    simp at hin

theorem Wf.extend (hlive : live ino) (hroot : ino ≠ rootIno) (hnr : v.InRange nr)
    (hfree : s.fat nr = .free) (huse : 0 < (s.inode ino).count)
    (he : Extended v ino (chain ino) nr s s') :
    Wf v s' live (update chain ino (chain ino ++ [nr])) counted := by
  have hnew := h.notMem_of_free hfree
  have hself : ∀ i, (s'.inode i).count = (s.inode i).count ∧ (s'.inode i).nlink =
    (s.inode i).nlink ∧
      (s'.inode i).busy = (s.inode i).busy := by
    intro i
    by_cases hi : i = ino
    · rw [hi]
      exact he.self
    · rw [he.others i hi]
      exact ⟨rfl, rfl, rfl⟩
  have hmem : ∀ i, ∀ c ∈ update chain ino (chain ino ++ [nr]) i,
      c ∈ chain i ∨ i = ino ∧ c = nr := by
    intro i c hin
    by_cases hi : i = ino
    · rw [hi, update_self, mem_append, mem_singleton] at hin
      rw [hi]
      exact hin.imp_right fun hc => ⟨rfl, hc⟩
    · rw [update_of_ne hi] at hin
      exact .inl hin
  have hother : ∀ i, i ≠ ino → ∀ c ∈ chain i, s'.fat c = s.fat c := by
    intro i hi c hin
    have hcn : c ≠ nr := fun heq => hnew i (heq ▸ hin)
    have hlast : ¬(chain ino).getLast? = some c := fun hlast =>
      hi (h.disjoint i ino c hin (mem_of_getLast? hlast))
    rw [he.fat, if_neg hcn, if_neg hlast]
  have hnrfat : s'.fat nr = .eof := by rw [he.fat, if_pos rfl]
  refine ⟨?_, ?_, ?_, ?_, ?_, ?_, ?_, h.cache.congr he.order he.cache, ?_, ?_, ?_, ?_, ?_⟩
  · intro i hi
    by_cases heq : i = ino
    · subst heq
      have hleads := h.leads i hlive
      have hend : Leads s'.fat (.link nr) [nr] := by
        refine Leads.cons ?_
        rw [hnrfat]
        exact Leads.nil
      rw [update_self, he.start]
      rcases eq_nil_or_concat (chain i) with hnil | ⟨l0, a, hconcat⟩
      · rw [hnil, if_pos rfl]
        have hlink : startLink nr = .link nr := if_neg fun h0 => absurd (h0 ▸ hnr.1) (by decide)
        rw [hlink]
        exact hend
      · rw [concat_eq_append] at hconcat
        have hlast : (chain i).getLast? = some a := by simp [hconcat]
        have hnodup := hleads.nodup
        rw [hconcat] at hleads hnodup
        rw [if_neg (by rw [hconcat]; simp), hconcat, append_assoc, singleton_append]
        have hsplit := nodup_append.mp hnodup
        refine hleads.replace (fun b hb => ?_) ?_
        · have hbn : b ≠ nr := fun heq => hnew i (by rw [hconcat, ← heq]; simp [hb])
          have hba : a ≠ b := fun heq => hsplit.2.2 b hb a (mem_singleton_self a) heq.symm
          rw [he.fat, if_neg hbn, hlast, if_neg fun h => hba (Option.some.inj h)]
        · have han : a ≠ nr := fun heq => hnew i (by rw [hconcat, ← heq]; simp)
          rw [he.fat, if_neg han, if_pos hlast]
          exact hend
    · rw [update_of_ne heq, he.others i heq]
      exact (h.leads i hi).congr (hother i heq)
  · intro i hi
    have heq : i ≠ ino := fun heq => hi (heq ▸ hlive)
    rw [update_of_ne heq]
    exact h.dead i hi
  · intro i c hin
    rcases hmem i c hin with hin | ⟨-, rfl⟩
    · exact h.range i c hin
    · exact hnr
  · intro i j c hi hj
    rcases hmem i c hi with hold | ⟨hii, hcn⟩
    · rcases hmem j c hj with hold' | ⟨-, hcn⟩
      · exact h.disjoint i j c hold hold'
      · exact absurd (hcn ▸ hold) (hnew i)
    · rcases hmem j c hj with hold' | ⟨hjj, -⟩
      · exact absurd (hcn ▸ hold') (hnew j)
      · exact hii.trans hjj.symm
  · intro c hr hout
    have hself' := hout ino
    rw [update_self, mem_append, mem_singleton, not_or] at hself'
    rw [he.fat, if_neg hself'.2, if_neg fun hlast => hself'.1 (mem_of_getLast? hlast)]
    refine h.free c hr fun i hin => ?_
    by_cases heq : i = ino
    · exact hself'.1 (heq ▸ hin)
    · have := hout i
      rw [update_of_ne heq] at this
      exact this hin
  · intro n hn
    rw [he.freeClusters] at hn
    obtain ⟨m, hm, rfl⟩ := Option.map_eq_some_iff.mp hn
    -- the tail had a link before and has one now; only the new cluster was free
    have hcount : v.countFree s = v.countFree s' + 1 := by
      have hmid : v.countFree { s with fat := update s.fat nr .eof } = v.countFree s' := by
        refine (countFree_same fun c => ?_).symm
        rw [he.fat]
        change _ ↔ update s.fat nr .eof c = .free
        rw [update_apply]
        split
        · rfl
        · split
          · next hlast =>
            have hne := (h.leads ino hlive).ne_free (mem_of_getLast? hlast)
            exact iff_of_false (by simp) hne
          · rfl
      rw [← hmid]
      exact countFree_used hnr hfree (by simp : (Link.eof : Link ℕ) ≠ .free)
        fun c => update_apply s.fat nr .eof c
    have := h.count m hm
    omega
  · intro w hw hdev
    rw [he.order] at hw
    rw [he.cache] at hdev ⊢
    have hold := h.cached w hw hdev
    by_cases heq : (s.cache w).ino = ino
    · rw [heq] at hold ⊢
      rw [update_self, List.getElem?_append_left]
      · exact hold
      · exact (List.getElem?_eq_some_iff.mp hold).1
    · rw [update_of_ne heq]
      exact hold
  · rw [he.others _ hroot.symm, he.entry]
    exact h.root
  · intro i hi hr hu
    rw [he.entry] at hu
    rw [(hself i).2.1, (hself i).2.2]
    exact h.doomed i hi hr hu
  · intro i hi hu
    rw [he.entry] at hu
    rw [(hself i).2.1]
    exact h.named i hi hu
  · intro i hi hu hcount
    rw [he.entry] at hu ⊢
    rw [(hself i).1] at hcount
    have heq : i ≠ ino := by
      rintro rfl
      omega
    rw [he.others i heq]
    exact h.written i hi hu hcount
  · intro hcounted i hi hr
    by_cases heq : i = ino
    · rw [heq, he.blocks, update_self, h.blocks hcounted ino hlive (heq ▸ hr),
        length_append, length_singleton]
      push_cast
      ring
    · rw [he.others i heq, update_of_ne heq]
      exact h.blocks hcounted i hi hr

theorem Wf.addCluster_cases (hlive : live ino) (hroot : ino ≠ rootIno) :
    ((v.msdosAddCluster s ino).2 = false ∧ (∀ c, v.InRange c → s.fat c ≠ .free) ∧
      ∃ n, (v.msdosAddCluster s ino).1 =
        { s with prevFree := n, freeClusters := (v.msdosAddCluster s ino).1.freeClusters } ∧
        ((v.msdosAddCluster s ino).1.freeClusters = s.freeClusters ∨
          (v.msdosAddCluster s ino).1.freeClusters = some 0)) ∨
    (v.msdosAddCluster s ino).2 = true ∧ ∃ nr, v.InRange nr ∧ s.fat nr = .free ∧
      Extended v ino (chain ino) nr s (v.msdosAddCluster s ino).1 := by
  unfold Volume.msdosAddCluster
  rw [if_neg hroot]
  split
  · next hzero =>
    refine .inl ⟨rfl, ?_, s.prevFree, rfl, .inl rfl⟩
    intro c hc hfree
    have hcount := h.count 0 hzero
    obtain ⟨h2, hlt⟩ := hc
    have hmem : c - 2 ∈ (Finset.range v.clusters).filter fun n => s.fat (n + 2) = .free := by
      rw [mem_countFree, Nat.sub_add_cancel h2]
      exact ⟨by omega, hfree⟩
    have hpos := Finset.card_pos.mpr ⟨_, hmem⟩
    unfold Volume.countFree at hcount
    omega
  · dsimp only
    split
    · next hfull =>
      exact .inl ⟨rfl, fun c hc => scan_full v s hfull hc, _, rfl, .inr rfl⟩
    · next hfound =>
      right
      have hfree := scan_free v s (by omega)
      obtain ⟨htrue, hext⟩ := append_extended (s := { s with
          prevFree := (v.scan s v.clusters 0 + s.prevFree + 1) % v.clusters })
        (h.leads ino hlive) (h.range ino) (h.length_le ino) (h.hits ino) (inRange_mod v _) hfree
      refine ⟨htrue, _, inRange_mod v _, hfree, ?_⟩
      exact ⟨hext.fat, hext.freeClusters, hext.start, hext.blocks, hext.self, hext.others,
        hext.entry, hext.order, hext.cache⟩

end

end

end LinuxKernel.FatChain
