import LinuxKernel.FatChains

/-!
# Operations on a FAT volume

Each operation keeps the chains in order.  The live inodes are now those that have a name or are in
use.
-/

namespace LinuxKernel.FatChain
open Function

open LinkChain

section

variable {v : Volume} {s s' : State} {live live' : Ino → Prop} {chain : Ino → List ℕ}
  {counted : Bool} {ino : Ino}

theorem setInode_inode (s : State) (ino : Ino) (f : Inode → Inode) (i : Ino) :
    (s.setInode ino f).inode i = if i = ino then f (s.inode ino) else s.inode i :=
  update_apply s.inode ino _ i

section
variable (h : Wf v s live chain counted)
include h

theorem Wf.live_congr (hlive : ∀ i, live' i ↔ live i) : Wf v s live' chain counted := by
  have heq : live' = live := funext fun i => propext (hlive i)
  rw [heq]
  exact h

theorem Wf.congr (hfat : s'.fat = s.fat) (hfree : s'.freeClusters = s.freeClusters)
    (hcached : Cached v s' chain) (hcache : CacheWf s')
    (hused : ∀ i, (s'.entry i).used = (s.entry i).used)
    (hinode : ∀ i, (s'.inode i).start = (s.inode i).start ∧ (s'.inode i).nlink = (s.inode i).nlink ∧
      (s'.inode i).busy = (s.inode i).busy ∧ (s'.inode i).blocks = (s.inode i).blocks)
    (hwritten : ∀ i, live i → (s.entry i).used = true → (s'.inode i).count = 0 →
      (s'.entry i).start = (s.inode i).start) : Wf v s' live chain counted := by
  refine ⟨?_, h.dead, h.range, h.disjoint, by rw [hfat]; exact h.free, ?_, hcached, hcache, ?_, ?_,
    ?_, ?_, ?_⟩
  · intro i hi
    rw [hfat, (hinode i).1]
    exact h.leads i hi
  · intro n hn
    rw [hfree] at hn
    have hsame : v.countFree s' = v.countFree s := countFree_same fun c => by rw [hfat]
    rw [hsame]
    exact h.count n hn
  · rw [(hinode _).1, hused]
    exact h.root
  · intro i hi hr hu
    rw [hused] at hu
    rw [(hinode i).2.1, (hinode i).2.2.1]
    exact h.doomed i hi hr hu
  · intro i hi hu
    rw [hused] at hu
    rw [(hinode i).2.1]
    exact h.named i hi hu
  · intro i hi hu hc
    rw [hused] at hu
    rw [(hinode i).1]
    exact hwritten i hi hu hc
  · intro hcounted i hi hr
    rw [(hinode i).2.2.2]
    exact h.blocks hcounted i hi hr

theorem Wf.cache_congr (hfat : s'.fat = s.fat) (hfree : s'.freeClusters = s.freeClusters)
    (hinode : s'.inode = s.inode) (hentry : s'.entry = s.entry) (hcached : Cached v s' chain)
    (hcache : CacheWf s') : Wf v s' live chain counted := by
  refine h.congr hfat hfree hcached hcache (fun i => by rw [hentry])
    (fun i => ?_) fun i hi hu hc => ?_
  · rw [hinode]
    exact ⟨rfl, rfl, rfl, rfl⟩
  · rw [hentry]
    rw [hinode] at hc
    exact h.written i hi hu hc

theorem Wf.cacheAdd {v' : Volume} {f d : ℕ} (hnew : v'.dev = v.dev → (chain ino)[f]? = some d) :
    Wf v (s.cacheAdd v' ino f d) live chain counted := by
  obtain ⟨hfat, hinode, hentry, hfree⟩ := cacheAdd_frame s v' ino f d
  exact h.cache_congr hfat hfree hinode hentry (h.cached.add h.cache.ne_nil hnew)
    (h.cache.add v' ino f d)

theorem Wf.inval (v' : Volume) (ino : Ino) : Wf v (v'.cacheInvalInode s ino) live chain counted :=
  h.cache_congr rfl rfl rfl rfl (h.cached.drop v' ino) (h.cache.inval v' ino)

theorem Wf.getCluster (hlive : live ino) (c : ℕ) :
    (v.getCluster s ino c).2 = (chain ino)[c]?.getD 0 ∧
      Wf v (v.getCluster s ino c).1 live chain counted := by
  obtain ⟨hres, heq | ⟨nr, hnr, heq⟩⟩ :=
    getCluster_spec (h.leads ino hlive) (h.range ino) (h.hits ino) c
  · rw [heq]
    exact ⟨hres, h⟩
  · rw [heq]
    exact ⟨hres, h.cacheAdd fun _ => hnr⟩

theorem Wf.setInode (f : Inode → Inode) (hf : (f (s.inode ino)).start = (s.inode ino).start ∧
      (f (s.inode ino)).nlink = (s.inode ino).nlink ∧ (f (s.inode ino)).busy = (s.inode ino).busy ∧
      (f (s.inode ino)).blocks = (s.inode ino).blocks)
    (hcount : (f (s.inode ino)).count = 0 → (s.inode ino).count = 0) :
    Wf v (s.setInode ino f) live chain counted := by
  refine h.congr rfl rfl (h.cached.congr rfl rfl) (h.cache.congr rfl rfl) (fun _ => rfl)
    (fun i => ?_) fun i hi hu hc => ?_
  · rw [setInode_inode]
    split
    · next heq =>
      rw [heq]
      exact hf
    · exact ⟨rfl, rfl, rfl, rfl⟩
  · refine h.written i hi hu ?_
    rw [setInode_inode] at hc
    split at hc
    · next heq =>
      rw [heq]
      exact hcount hc
    · exact hc

theorem Wf.iget (ino : Ino) : Wf v (Volume.iget s ino) live chain counted :=
  h.setInode _ ⟨rfl, rfl, rfl, rfl⟩ fun hc => absurd hc (Nat.succ_ne_zero _)

theorem Wf.truncate (hlive : live ino) (huse : 0 < (s.inode ino).count) (size : BitVec 32) :
    ∃ chain', Wf v (v.msdosTruncate (s.setInode ino fun i => { i with size :=
        size }) ino) live chain'
      counted := by
  have hsize : Wf v (s.setInode ino fun i => { i with size := size }) live chain counted :=
    h.setInode _ ⟨rfl, rfl, rfl, rfl⟩ fun hc => hc
  refine ⟨_, hsize.fatFree hlive (Or.inl ?_) _⟩
  rw [setInode_inode, if_pos rfl]
  exact huse

omit h in
theorem writeInode_frame (s : State) (ino : Ino) :
    (Volume.msdosWriteInode s ino).fat = s.fat ∧
    (Volume.msdosWriteInode s ino).freeClusters = s.freeClusters ∧
    (Volume.msdosWriteInode s ino).inode = s.inode ∧
    (Volume.msdosWriteInode s ino).order = s.order ∧
    (Volume.msdosWriteInode s ino).cache = s.cache ∧
    (∀ i, ((Volume.msdosWriteInode s ino).entry i).used = (s.entry i).used) ∧
    (∀ i, i ≠ ino → (Volume.msdosWriteInode s ino).entry i = s.entry i) ∧
    (ino ≠ rootIno → (s.inode ino).nlink ≠ 0 →
      ((Volume.msdosWriteInode s ino).entry ino).start = (s.inode ino).start) := by
  unfold Volume.msdosWriteInode
  dsimp only
  split
  · next hskip =>
    refine ⟨rfl, rfl, rfl, rfl, rfl, fun _ => rfl, fun _ _ => rfl, fun hr hn => ?_⟩
    rcases hskip with h | h
    · exact absurd h hr
    · exact absurd h hn
  · refine ⟨rfl, rfl, rfl, rfl, rfl, fun i => ?_, fun i hi => update_of_ne hi .., fun _ _ => ?_⟩
    · dsimp only
      by_cases hi : i = ino
      · rw [hi, update_self]
      · rw [update_of_ne hi]
    · dsimp only
      rw [update_self]

theorem Wf.writeInode (ino : Ino) : Wf v (Volume.msdosWriteInode s ino) live chain counted := by
  obtain ⟨hfat, hfree, hinode, horder, hcache, hused, hother, hself⟩ := writeInode_frame s ino
  refine h.congr hfat hfree (h.cached.congr horder hcache) (h.cache.congr horder hcache) hused
    (fun i => by rw [hinode]; exact ⟨rfl, rfl, rfl, rfl⟩) fun i hi hu hc => ?_
  rw [hinode] at hc
  by_cases heq : i = ino
  · subst heq
    have hr : i ≠ rootIno := by
      rintro rfl
      rw [h.root.2] at hu
      exact absurd hu (by decide)
    exact hself hr (h.named i hi hu)
  · rw [hother i heq]
    exact h.written i hi hu hc

end

theorem clusterBytes_toNat (v : Volume) : v.clusterBytes.toNat = sectorSize * v.clusterSize := by
  have hlt := v.clusterSize_lt
  unfold Volume.clusterBytes sectorSize
  exact Nat.mod_eq_of_lt (by omega)

theorem clusterBytes_sub_one (v : Volume) :
    (v.clusterBytes - 1).toNat = sectorSize * v.clusterSize - 1 := by
  have hpos := v.clusterSize_pos
  rw [BitVec.toNat_sub_of_le, clusterBytes_toNat]
  · rfl
  · rw [BitVec.le_def, clusterBytes_toNat]
    exact Nat.mul_pos (by decide) hpos

theorem clustersFor_zero (v : Volume) : v.clustersFor 0 = 0 := by
  have hpos := v.clusterSize_pos
  have hlt := v.clusterSize_lt
  have hmsb : ∀ b : BitVec 32, b.toNat < 2 ^ 31 → b.msb = false := by
    intro b hb
    rw [BitVec.msb_eq_decide]
    simpa using hb
  have hzero : (0 : BitVec 32) + (v.clusterBytes - 1) = v.clusterBytes - 1 := BitVec.zero_add _
  unfold Volume.clustersFor
  rw [hzero, BitVec.sdiv_eq, hmsb v.clusterBytes, hmsb (v.clusterBytes - 1)]
  · rw [BitVec.udiv_eq, BitVec.toNat_udiv, clusterBytes_sub_one, clusterBytes_toNat]
    refine Nat.div_eq_of_lt ?_
    unfold sectorSize
    omega
  · rw [clusterBytes_sub_one]
    unfold sectorSize
    omega
  · rw [clusterBytes_toNat]
    unfold sectorSize
    omega

section
variable (h : Wf v s live chain counted)
include h

theorem Wf.retire (hlive : ∀ i, live' i ↔ live i ∧ i ≠ ino) (hnil : chain ino = [])
    (hfat : s'.fat = s.fat) (hfree : s'.freeClusters = s.freeClusters) (hcached : Cached v s' chain)
    (hcache : CacheWf s') (hroot : (s'.inode rootIno).start = 0 ∧ (s'.entry rootIno).used = false)
    (hentry : ∀ i, i ≠ ino → s'.entry i = s.entry i)
    (hinode : ∀ i, i ≠ ino → s'.inode i = s.inode i) : Wf v s' live' chain counted := by
  refine ⟨?_, ?_, h.range, h.disjoint, by rw [hfat]; exact h.free, ?_, hcached, hcache, hroot, ?_,
      ?_,
    ?_, ?_⟩
  · intro i hi
    obtain ⟨hl, hne⟩ := (hlive i).mp hi
    rw [hfat, hinode i hne]
    exact h.leads i hl
  · intro i hi
    by_cases hne : i = ino
    · rw [hne]
      exact hnil
    · exact h.dead i fun hl => hi ((hlive i).mpr ⟨hl, hne⟩)
  · intro n hn
    rw [hfree] at hn
    have hsame : v.countFree s' = v.countFree s := countFree_same fun c => by rw [hfat]
    rw [hsame]
    exact h.count n hn
  · intro i hi hr hu
    obtain ⟨hl, hne⟩ := (hlive i).mp hi
    rw [hentry i hne] at hu
    rw [hinode i hne]
    exact h.doomed i hl hr hu
  · intro i hi hu
    obtain ⟨hl, hne⟩ := (hlive i).mp hi
    rw [hentry i hne] at hu
    rw [hinode i hne]
    exact h.named i hl hu
  · intro i hi hu hc
    obtain ⟨hl, hne⟩ := (hlive i).mp hi
    rw [hentry i hne] at hu ⊢
    rw [hinode i hne] at hc ⊢
    exact h.written i hl hu hc
  · intro hcounted i hi hr
    obtain ⟨hl, hne⟩ := (hlive i).mp hi
    rw [hinode i hne]
    exact h.blocks hcounted i hl hr

theorem Wf.iput_last (hlive : live ino) (hcount : ¬1 < (s.inode ino).count)
    (hnlink : (s.inode ino).nlink = 0) :
    ∃ chain', Wf v (v.iput s ino) (fun i => live i ∧ i ≠ ino) chain' counted := by
  have hunused : (s.entry ino).used = false := by
    by_contra hu
    exact h.named ino hlive (by simpa using hu) hnlink
  have hsize : Wf v (s.setInode ino fun i => { i with size := 0 }) live chain counted :=
    h.setInode _ ⟨rfl, rfl, rfl, rfl⟩ fun hc => hc
  have hclusters : ((s.setInode ino fun i => { i with size := 0 }).inode ino).size = 0 := by
    rw [setInode_inode, if_pos rfl]
  have hfree := hsize.fatFree hlive (Or.inr hunused) 0
  unfold Volume.iput
  rw [if_neg hcount, if_pos hnlink]
  unfold Volume.msdosTruncate
  rw [hclusters, clustersFor_zero]
  refine ⟨_, hfree.retire (fun _ => Iff.rfl) ?_ rfl rfl (hfree.cached.congr rfl rfl)
    (hfree.cache.congr rfl rfl) ⟨?_, ?_⟩ (fun _ _ => rfl) fun i hi => update_of_ne hi ..⟩
  · rw [update_self, List.take_zero]
  · rw [setInode_inode]
    split
    · rfl
    · exact hfree.root.1
  · exact hfree.root.2

theorem Wf.iput_named (hlive : live ino) (hcount : ¬1 < (s.inode ino).count)
    (hnlink : (s.inode ino).nlink ≠ 0) : Wf v (v.iput s ino) live chain counted := by
  unfold Volume.iput
  rw [if_neg hcount, if_neg hnlink]
  have hinval : Wf v (if (s.inode ino).busy = true then v.cacheInvalInode s ino else s) live chain
      counted := by
    split
    · exact h.inval v ino
    · exact h
  have hsame : (if (s.inode ino).busy = true then v.cacheInvalInode s ino else s).inode = s.inode :=
    by
    split <;> rfl
  revert hinval hsame
  generalize (if (s.inode ino).busy = true then v.cacheInvalInode s ino else s) = s1
  intro h1 hsame
  obtain ⟨hfat, hfree, hinode, horder, hcache, hused, hother, hself⟩ := writeInode_frame s1 ino
  have hwritten := h1.writeInode ino
  refine hwritten.congr rfl rfl (hwritten.cached.congr rfl rfl) (hwritten.cache.congr rfl rfl)
    (fun _ => rfl) (fun i => ?_) fun i hi hu hc => ?_
  · rw [setInode_inode]
    split
    · next heq =>
      rw [heq]
      exact ⟨rfl, rfl, rfl, rfl⟩
    · exact ⟨rfl, rfl, rfl, rfl⟩
  · by_cases heq : i = ino
    · subst heq
      have hr : i ≠ rootIno := by
        rintro rfl
        rw [hwritten.root.2] at hu
        exact absurd hu (by decide)
      rw [hinode]
      exact hself hr (by rw [hsame]; exact hnlink)
    · rw [setInode_inode, if_neg heq] at hc
      exact hwritten.written i hi hu hc

theorem Wf.iput_more (hcount : 1 < (s.inode ino).count) :
    Wf v (v.iput s ino) live chain counted := by
  unfold Volume.iput
  rw [if_pos hcount]
  refine h.setInode _ ⟨rfl, rfl, rfl, rfl⟩ fun hc => ?_
  dsimp only at hc
  omega

theorem Wf.iput_frame (hlive : live ino) (hpos : 0 < (s.inode ino).count) (i : Ino) :
    ((v.iput s ino).entry i).used = (s.entry i).used ∧
      ((v.iput s ino).inode i).count =
        if i = ino then (s.inode ino).count - 1 else (s.inode i).count := by
  have hsize : Wf v (s.setInode ino fun i => { i with size := 0 }) live chain counted :=
    h.setInode _ ⟨rfl, rfl, rfl, rfl⟩ fun hc => hc
  unfold Volume.iput
  split
  · refine ⟨rfl, ?_⟩
    rw [setInode_inode]
    split <;> rfl
  · next hone =>
    have hcount : (s.inode ino).count - 1 = 0 := by omega
    rw [hcount]
    split
    · unfold Volume.msdosTruncate
      obtain ⟨hentry, hinode⟩ := hsize.fatFree_frame hlive
        (v.clustersFor ((s.setInode ino fun i => { i with size := 0 }).inode ino).size)
      refine ⟨?_, ?_⟩
      · change ((v.fatFree _ ino _).entry i).used = _
        rw [hentry]
        rfl
      · rw [setInode_inode]
        split
        · rfl
        · next hi =>
          rw [(hinode i).1, setInode_inode, if_neg hi]
    · have hsame : (if (s.inode ino).busy = true then v.cacheInvalInode s ino else s).inode =
          s.inode ∧
          (if (s.inode ino).busy = true then v.cacheInvalInode s ino else s).entry = s.entry := by
        split <;> exact ⟨rfl, rfl⟩
      revert hsame
      generalize (if (s.inode ino).busy = true then v.cacheInvalInode s ino else s) = s1
      rintro ⟨hinode1, hentry1⟩
      obtain ⟨-, -, hinode, -, -, hused, -, -⟩ := writeInode_frame s1 ino
      refine ⟨?_, ?_⟩
      · change ((Volume.msdosWriteInode s1 ino).entry i).used = _
        rw [hused, hentry1]
      · rw [setInode_inode, hinode, hinode1]
        split <;> rfl

theorem Wf.chain_root : chain rootIno = [] := by
  by_cases hl : live rootIno
  · have hleads := h.leads rootIno hl
    rw [h.root.1] at hleads
    exact leads_startLink_zero hleads
  · exact h.dead rootIno hl

theorem Wf.iput (hlive : live ino) (hpos : 0 < (s.inode ino).count) :
    ∃ chain', Wf v (v.iput s ino) (fun i => live i ∧ (i = ino → (v.iput s ino).Active i)) chain'
      counted := by
  obtain ⟨hused, hcount⟩ := h.iput_frame hlive hpos ino
  rw [if_pos rfl] at hcount
  by_cases hone : 1 < (s.inode ino).count
  · refine ⟨chain, (h.iput_more hone).live_congr fun i => ⟨fun hi => hi.1, fun hi => ⟨hi, ?_⟩⟩⟩
    rintro rfl
    exact Or.inr (by rw [hcount]; omega)
  · by_cases hnlink : (s.inode ino).nlink = 0
    · obtain ⟨chain', hwf⟩ := h.iput_last hlive hone hnlink
      refine ⟨chain', hwf.live_congr fun i => and_congr_right fun hi => ?_⟩
      constructor
      · rintro hact rfl
        rcases hact rfl with hu | hc
        · rw [hused] at hu
          exact h.named i hi hu hnlink
        · omega
      · exact fun hne heq => absurd heq hne
    · have hwf := h.iput_named hlive hone hnlink
      by_cases hroot : ino = rootIno
      · -- nothing is said of the root directory but that it has no chain
        have hidle : ¬(v.iput s ino).Active ino := by
          rintro (hu | hc)
          · rw [hused, hroot, h.root.2] at hu
            exact absurd hu (by decide)
          · omega
        have hiff : ∀ i, (live i ∧ (i = ino → (v.iput s ino).Active i)) ↔ live i ∧ i ≠ ino := by
          refine fun i => and_congr_right fun _ => ⟨?_, fun hne heq => absurd heq hne⟩
          rintro hact rfl
          exact hidle (hact rfl)
        exact ⟨chain, hwf.retire hiff (hroot ▸ h.chain_root) rfl rfl hwf.cached hwf.cache hwf.root
          (fun _ _ => rfl) fun _ _ => rfl⟩
      · refine ⟨chain, hwf.live_congr fun i => ⟨fun hi => hi.1, fun hi => ⟨hi, ?_⟩⟩⟩
        rintro rfl
        left
        rw [hused]
        by_contra hu
        exact hnlink (h.doomed i hi hroot (by simpa using hu)).2

end

def Good (v : Volume) (s : State) (counted : Bool) : Prop := ∃ chain, Wf v s s.Active chain counted

theorem Good.iput (h : Good v s counted) (hpos : 0 < (s.inode ino).count) :
    Good v (v.iput s ino) counted := by
  obtain ⟨chain, hwf⟩ := h
  have hact : s.Active ino := Or.inr hpos
  obtain ⟨chain', hwf'⟩ := hwf.iput hact hpos
  refine ⟨chain', hwf'.live_congr fun i => ?_⟩
  obtain ⟨hused, hcount⟩ := hwf.iput_frame hact hpos i
  by_cases hi : i = ino
  · subst hi
    exact ⟨fun ha => ⟨hact, fun _ => ha⟩, fun ha => ha.2 rfl⟩
  · rw [if_neg hi] at hcount
    have hiff : (v.iput s ino).Active i ↔ s.Active i := by
      unfold State.Active
      rw [hused, hcount]
    rw [hiff]
    exact ⟨fun ha => ⟨ha, fun heq => absurd heq hi⟩, fun ha => ha.1⟩

theorem active_congr (hentry : (s'.entry ino).used = (s.entry ino).used)
    (hcount : (s'.inode ino).count = (s.inode ino).count) : s'.Active ino ↔ s.Active ino := by
  unfold State.Active
  rw [hentry, hcount]

section
variable (h : Wf v s live chain counted)
include h

theorem Wf.setFree (n : Option ℕ) (m : ℕ) (hn : ∀ k, n = some k → k = v.countFree s) :
    Wf v { s with freeClusters := n, prevFree := m } live chain counted := by
  refine ⟨h.leads, h.dead, h.range, h.disjoint, h.free, ?_, h.cached.congr rfl rfl,
    h.cache.congr rfl rfl, h.root, h.doomed, h.named, h.written, h.blocks⟩
  intro k hk
  exact hn k hk

omit h in
theorem countFree_eq_zero (h : ∀ c, v.InRange c → s.fat c ≠ .free) : v.countFree s = 0 := by
  unfold Volume.countFree
  rw [Finset.card_eq_zero, Finset.filter_eq_empty_iff]
  intro n hn
  rw [Finset.mem_range] at hn
  exact h (n + 2) ⟨by omega, by omega⟩

theorem Wf.addCluster (hlive : live ino) (hpos : 0 < (s.inode ino).count) :
    (∃ chain', Wf v (v.msdosAddCluster s ino).1 live chain' counted) ∧
      ∀ i, ((v.msdosAddCluster s ino).1.entry i) = s.entry i ∧
        ((v.msdosAddCluster s ino).1.inode i).count = (s.inode i).count ∧
        ((v.msdosAddCluster s ino).1.inode i).busy = (s.inode i).busy := by
  by_cases hroot : ino = rootIno
  · have heq : v.msdosAddCluster s ino = (s, false) := by
      unfold Volume.msdosAddCluster
      rw [if_pos hroot]
    rw [heq]
    exact ⟨⟨chain, h⟩, fun i => ⟨rfl, rfl, rfl⟩⟩
  · rcases h.addCluster_cases hlive hroot with ⟨-, hfull, n, heq, hfree⟩ | ⟨-, nr, hnr, hf, hext⟩
    · rw [heq]
      refine ⟨⟨chain, h.setFree _ n fun k hk => ?_⟩, fun i => ⟨rfl, rfl, rfl⟩⟩
      rcases hfree with hf | hf
      · rw [hf] at hk
        exact h.count k hk
      · rw [hf] at hk
        rw [countFree_eq_zero hfull]
        exact (Option.some.inj hk).symm
    · refine ⟨⟨_, h.extend hlive hroot hnr hf hpos hext⟩, fun i => ?_⟩
      rw [hext.entry]
      by_cases hi : i = ino
      · rw [hi]
        exact ⟨rfl, hext.self.1, hext.self.2.2⟩
      · rw [hext.others i hi]
        exact ⟨rfl, rfl, rfl⟩

omit h in
theorem Good.addCluster (h : Good v s counted) (hpos : 0 < (s.inode ino).count) :
    Good v (v.msdosAddCluster s ino).1 counted := by
  obtain ⟨chain, hwf⟩ := h
  obtain ⟨⟨chain', hwf'⟩, hsame⟩ := hwf.addCluster (Or.inr hpos) hpos
  refine ⟨chain', hwf'.live_congr fun i => active_congr ?_ (hsame i).2.1⟩
  rw [(hsame i).1]

theorem Wf.not_live (ha : Volume.Available s ino) : ¬live ino := by
  intro hl
  have hbusy := (h.doomed ino hl ha.1 ha.2.1).1
  rw [ha.2.2] at hbusy
  exact absurd hbusy (by decide)

omit h in
theorem blocks_zero (v : Volume) :
    (((0 + (v.clusterBytes - 1)) / v.clusterBytes).toNat : ℤ) * v.clusterSize = 0 := by
  have hzero : (0 : BitVec 32) + (v.clusterBytes - 1) = v.clusterBytes - 1 := BitVec.zero_add _
  have hpos := v.clusterSize_pos
  rw [hzero, BitVec.toNat_udiv, clusterBytes_sub_one, clusterBytes_toNat, Nat.div_eq_of_lt]
  · simp
  · unfold sectorSize
    omega

theorem Wf.revive (hdead : ¬live ino) (hroot : ino ≠ rootIno)
    (hlive : ∀ i, live' i ↔ live i ∨ i = ino) (hfat : s'.fat = s.fat)
    (hfree : s'.freeClusters = s.freeClusters) (horder : s'.order = s.order)
    (hcache : s'.cache = s.cache) (hentry : ∀ i, i ≠ ino → s'.entry i = s.entry i)
    (hinode : ∀ i, i ≠ ino → s'.inode i = s.inode i) (hused : (s'.entry ino).used = true)
    (hstart : (s'.inode ino).start = 0) (hnlink : (s'.inode ino).nlink ≠ 0)
    (hwritten : (s'.entry ino).start = 0) (hblocks : (s'.inode ino).blocks = 0) :
    Wf v s' live' chain counted := by
  have hnil := h.dead ino hdead
  refine ⟨?_, ?_, h.range, h.disjoint, by rw [hfat]; exact h.free, ?_, h.cached.congr horder hcache,
    h.cache.congr horder hcache, ?_, ?_, ?_, ?_, ?_⟩
  · intro i hi
    by_cases heq : i = ino
    · rw [heq, hstart, hnil]
      exact Leads.nil
    · rw [hfat, hinode i heq]
      exact h.leads i (((hlive i).mp hi).resolve_right heq)
  · intro i hi
    exact h.dead i fun hl => hi ((hlive i).mpr (Or.inl hl))
  · intro n hn
    rw [hfree] at hn
    have hsame : v.countFree s' = v.countFree s := countFree_same fun c => by rw [hfat]
    rw [hsame]
    exact h.count n hn
  · rw [hinode _ hroot.symm, hentry _ hroot.symm]
    exact h.root
  · intro i hi hr hu
    have heq : i ≠ ino := by
      rintro rfl
      rw [hused] at hu
      exact absurd hu (by decide)
    rw [hentry i heq] at hu
    rw [hinode i heq]
    exact h.doomed i (((hlive i).mp hi).resolve_right heq) hr hu
  · intro i hi hu
    by_cases heq : i = ino
    · rw [heq]
      exact hnlink
    · rw [hentry i heq] at hu
      rw [hinode i heq]
      exact h.named i (((hlive i).mp hi).resolve_right heq) hu
  · intro i hi hu hc
    by_cases heq : i = ino
    · rw [heq, hwritten, hstart]
    · rw [hentry i heq] at hu ⊢
      rw [hinode i heq] at hc ⊢
      exact h.written i (((hlive i).mp hi).resolve_right heq) hu hc
  · intro hcounted i hi hr
    by_cases heq : i = ino
    · rw [heq, hblocks, hnil]
      simp
    · rw [hinode i heq]
      exact h.blocks hcounted i (((hlive i).mp hi).resolve_right heq) hr

end

theorem readInode_self (v : Volume) (s : State) (ino : Ino) :
    ((v.msdosReadInode s ino).inode ino).start = (s.entry ino).start ∧
    ((v.msdosReadInode s ino).inode ino).nlink ≠ 0 ∧
    ((v.msdosReadInode s ino).inode ino).busy = false ∧
    ((v.msdosReadInode s ino).inode ino).count = (s.inode ino).count := by
  unfold Volume.msdosReadInode
  rw [setInode_inode, if_pos rfl]
  refine ⟨rfl, ?_, rfl, rfl⟩
  dsimp only
  split <;> decide

theorem readInode_other (v : Volume) (s : State) {i : Ino} (hi : i ≠ ino) :
    (v.msdosReadInode s ino).inode i = s.inode i :=
  update_of_ne hi ..

theorem readInode_blocks (v : Volume) (s : State) (hstart : (s.entry ino).start = 0)
    (hsize : (s.entry ino).size = 0) : ((v.msdosReadInode s ino).inode ino).blocks = 0 := by
  unfold Volume.msdosReadInode
  rw [setInode_inode, if_pos rfl, hstart, hsize, if_pos rfl, ite_self]
  exact blocks_zero v

section
variable (h : Good v s counted)
include h

theorem Good.createIn (isDir : Bool) : Good v (v.createIn s ino isDir) counted := by
  unfold Volume.createIn
  split
  · next ha =>
    obtain ⟨chain, hwf⟩ := h
    have hdead := hwf.not_live ha
    set s1 : State := Volume.iget
      { s with entry := update s.entry ino ⟨true, 0, 0, isDir⟩ } ino with hs1
    have hentry : s1.entry ino = ⟨true, 0, 0, isDir⟩ := update_self ..
    have hentry' : ∀ i, i ≠ ino → s1.entry i = s.entry i := fun i hi => update_of_ne hi ..
    have hinode' : ∀ i, i ≠ ino → (v.msdosReadInode s1 ino).inode i = s.inode i := by
      intro i hi
      rw [readInode_other v s1 hi]
      exact update_of_ne hi ..
    obtain ⟨hstart, hnlink, -, -⟩ := readInode_self v s1 ino
    refine ⟨chain, hwf.revive hdead ha.1 (fun i => ?_) rfl rfl rfl rfl hentry' hinode' ?_ ?_
      hnlink ?_ ?_⟩
    · by_cases hi : i = ino
      · refine iff_of_true (Or.inl ?_) (Or.inr hi)
        rw [hi]
        change (s1.entry ino).used = true
        rw [hentry]
      · have hiff : (v.msdosReadInode s1 ino).Active i ↔ s.Active i := by
          refine active_congr ?_ (by rw [hinode' i hi])
          change (s1.entry i).used = _
          rw [hentry' i hi]
        rw [hiff]
        exact ⟨Or.inl, fun hor => hor.resolve_right hi⟩
    · change (s1.entry ino).used = true
      rw [hentry]
    · rw [hstart, hentry]
    · change (s1.entry ino).start = 0
      rw [hentry]
    · exact readInode_blocks v s1 (by rw [hentry]) (by rw [hentry])
  · exact h

theorem Good.createEntry {dir : Ino} (hpos : 0 < (s.inode dir).count) (isDir full : Bool) :
    Good v (v.msdosCreateEntry s dir ino isDir full) counted := by
  unfold Volume.msdosCreateEntry
  split
  · have hadd := h.addCluster hpos
    split
    · next s1 heq =>
      rw [heq] at hadd
      exact hadd.createIn isDir
    · next s1 heq =>
      rw [heq] at hadd
      exact hadd
  · exact h.createIn isDir

omit h in
theorem Wf.doom (h : Wf v s live chain counted) (hlive : live ino) :
    Wf v (Volume.doom s ino) live chain counted := by
  have hinode : ∀ i, (Volume.doom s ino).inode i =
      if i = ino then { s.inode ino with nlink := 0, busy := true } else s.inode i :=
    fun i => setInode_inode _ ino _ i
  have hentry : ∀ i, (Volume.doom s ino).entry i =
      if i = ino then { s.entry ino with used := false } else s.entry i :=
    fun i => update_apply s.entry ino _ i
  have hstart : ∀ i, ((Volume.doom s ino).inode i).start = (s.inode i).start ∧
      ((Volume.doom s ino).inode i).count = (s.inode i).count ∧
      ((Volume.doom s ino).inode i).blocks = (s.inode i).blocks := by
    intro i
    rw [hinode]
    split
    · next heq =>
      rw [heq]
      exact ⟨rfl, rfl, rfl⟩
    · exact ⟨rfl, rfl, rfl⟩
  have hother : ∀ i, ((Volume.doom s ino).entry i).used = true → i ≠ ino := by
    rintro i hu rfl
    rw [hentry, if_pos rfl] at hu
    exact Bool.false_ne_true hu
  refine ⟨?_, h.dead, h.range, h.disjoint, h.free, h.count, h.cached.congr rfl rfl,
    h.cache.congr rfl rfl, ⟨?_, ?_⟩, ?_, ?_, ?_, ?_⟩
  · intro i hi
    rw [(hstart i).1]
    exact h.leads i hi
  · rw [(hstart _).1]
    exact h.root.1
  · rw [hentry]
    split
    · rfl
    · exact h.root.2
  · intro i hi hr hu
    rw [hinode]
    split
    · exact ⟨rfl, rfl⟩
    · next hne =>
      rw [hentry, if_neg hne] at hu
      exact h.doomed i hi hr hu
  · intro i hi hu
    have hne := hother i hu
    rw [hentry, if_neg hne] at hu
    rw [hinode, if_neg hne]
    exact h.named i hi hu
  · intro i hi hu hc
    have hne := hother i hu
    rw [hentry, if_neg hne] at hu ⊢
    rw [hinode, if_neg hne] at hc ⊢
    exact h.written i hi hu hc
  · intro hcounted i hi hr
    rw [(hstart i).2.2]
    exact h.blocks hcounted i hi hr

theorem Good.iget (ha : s.Active ino) : Good v (Volume.iget s ino) counted := by
  obtain ⟨chain, hwf⟩ := h
  refine ⟨chain, (hwf.iget ino).live_congr fun i => ?_⟩
  by_cases hi : i = ino
  · rw [hi]
    refine iff_of_true (Or.inr ?_) ha
    unfold Volume.iget
    rw [setInode_inode, if_pos rfl]
    exact Nat.succ_pos _
  · refine active_congr rfl ?_
    unfold Volume.iget
    rw [setInode_inode, if_neg hi]

omit h in
theorem doom_count (s : State) (ino i : Ino) :
    ((Volume.doom s ino).inode i).count = (s.inode i).count := by
  unfold Volume.doom
  rw [setInode_inode]
  split
  · next heq => rw [heq]
  · rfl

theorem Good.doom (hpos : 0 < (s.inode ino).count) : Good v (Volume.doom s ino) counted := by
  obtain ⟨chain, hwf⟩ := h
  have hact : s.Active ino := Or.inr hpos
  refine ⟨chain, (hwf.doom hact).live_congr fun i => ?_⟩
  by_cases hi : i = ino
  · rw [hi]
    exact iff_of_true (Or.inr (by rw [doom_count]; exact hpos)) hact
  · refine active_congr ?_ (doom_count s ino i)
    exact congrArg DirEntry.used (update_of_ne hi ..)

omit h in
theorem iget_count (s : State) (ino : Ino) : 0 < ((Volume.iget s ino).inode ino).count := by
  unfold Volume.iget
  rw [setInode_inode, if_pos rfl]
  exact Nat.succ_pos _

theorem Good.unlink (hu : (s.entry ino).used = true) : Good v (v.msdosUnlink s ino) counted := by
  have hget := h.iget (Or.inl hu)
  exact (hget.doom (iget_count s ino)).iput (by rw [doom_count]; exact iget_count s ino)

end

end

end LinuxKernel.FatChain
