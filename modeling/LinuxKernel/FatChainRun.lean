import LinuxKernel.FatOperations

/-!
# Runs of a FAT volume

Every operation but a rename keeps the chains of the active inodes in order, from the mount on.
-/

namespace LinuxKernel.FatChain
open List

open LinkChain

section

variable {v : Volume} {s s' : State} {counted : Bool} {ino : Ino}

section
variable (h : Good v s counted)
include h

theorem Good.getCluster (hpos : 0 < (s.inode ino).count) (c : ℕ) :
    Good v (v.getCluster s ino c).1 counted := by
  obtain ⟨chain, hwf⟩ := h
  obtain ⟨-, heq | ⟨nr, hnr, heq⟩⟩ :=
    getCluster_spec (hwf.leads ino (.inr hpos)) (hwf.range ino) (hwf.hits ino) c
  · rw [heq]
    exact ⟨chain, hwf⟩
  · rw [heq]
    obtain ⟨-, hinode, hentry, -⟩ := cacheAdd_frame s v ino c nr
    refine ⟨chain, (hwf.cacheAdd fun _ => hnr).live_congr fun i => active_congr ?_ ?_⟩
    · rw [hentry]
    · rw [hinode]

theorem Good.truncate (hpos : 0 < (s.inode ino).count) (size : BitVec 32) :
    Good v (v.msdosTruncate (s.setInode ino fun i => { i with size := size }) ino) counted := by
  obtain ⟨chain, hwf⟩ := h
  have hsize : Wf v (s.setInode ino fun i => { i with size := size }) s.Active chain counted :=
    hwf.setInode _ ⟨rfl, rfl, rfl, rfl⟩ fun hc => hc
  obtain ⟨chain', hwf'⟩ := hwf.truncate (.inr hpos) hpos size
  refine ⟨chain', hwf'.live_congr fun i => ?_⟩
  unfold Volume.msdosTruncate
  obtain ⟨hentry, hinode⟩ := hsize.fatFree_frame (.inr hpos)
    (v.clustersFor ((s.setInode ino fun i => { i with size := size }).inode ino).size)
  refine active_congr (by rw [hentry]; rfl) ?_
  rw [(hinode i).1, setInode_inode]
  split
  · next heq => rw [heq]
  · rfl

theorem Good.writeInode (ino : Ino) : Good v (Volume.msdosWriteInode s ino) counted := by
  obtain ⟨chain, hwf⟩ := h
  obtain ⟨-, -, hinode, -, -, hused, -, -⟩ := writeInode_frame s ino
  exact ⟨chain, (hwf.writeInode ino).live_congr fun i => active_congr (hused i) (by rw [hinode])⟩

theorem Good.cacheAdd {w : Volume} (hdev : w.dev ≠ v.dev) (ino f d : ℕ) :
    Good v (s.cacheAdd w ino f d) counted := by
  obtain ⟨chain, hwf⟩ := h
  obtain ⟨-, hinode, hentry, -⟩ := cacheAdd_frame s w ino f d
  refine ⟨chain, (hwf.cacheAdd fun heq => absurd heq hdev).live_congr fun i => active_congr ?_ ?_⟩
  · rw [hentry]
  · rw [hinode]

theorem Good.inval (w : Volume) (ino : Ino) : Good v (w.cacheInvalInode s ino) counted := by
  obtain ⟨chain, hwf⟩ := h
  exact ⟨chain, hwf.inval w ino⟩

end

theorem Wf.readInode {live : Ino → Prop} {chain : Ino → List ℕ} (h : Wf v s live chain false)
    (hcount : (s.inode ino).count = 0) (hroot : ino ≠ rootIno)
    (hlive : live ino → (s.entry ino).used = true) :
    Wf v (v.msdosReadInode s ino) live chain false := by
  obtain ⟨hstart, hnlink, -, -⟩ := readInode_self v s ino
  refine ⟨?_, h.dead, h.range, h.disjoint, h.free, h.count, h.cached.congr rfl rfl,
    h.cache.congr rfl rfl, ⟨?_, h.root.2⟩, ?_, ?_, ?_, fun hfalse => absurd hfalse (by decide)⟩
  · intro i hi
    by_cases heq : i = ino
    · subst heq
      rw [hstart, h.written i hi (hlive hi) hcount]
      exact h.leads i hi
    · rw [readInode_other v s heq]
      exact h.leads i hi
  · rw [readInode_other v s hroot.symm]
    exact h.root.1
  · intro i hi hr hu
    have heq : i ≠ ino := by
      rintro rfl
      change (s.entry i).used = false at hu
      rw [hlive hi] at hu
      exact Bool.false_ne_true hu.symm
    rw [readInode_other v s heq]
    exact h.doomed i hi hr hu
  · intro i hi hu
    by_cases heq : i = ino
    · rw [heq]
      exact hnlink
    · rw [readInode_other v s heq]
      exact h.named i hi hu
  · intro i hi hu hc
    by_cases heq : i = ino
    · subst heq
      exact hstart.symm
    · rw [readInode_other v s heq] at hc ⊢
      exact h.written i hi hu hc

theorem Good.reload (h : Good v s false) (hcount : (s.inode ino).count = 0)
    (hroot : ino ≠ rootIno) :
    Good v (v.msdosReadInode s ino) false := by
  obtain ⟨chain, hwf⟩ := h
  have hused : s.Active ino → (s.entry ino).used = true := by
    rintro (hu | hc)
    · exact hu
    · omega
  refine ⟨chain, (hwf.readInode hcount hroot hused).live_congr fun i => active_congr rfl ?_⟩
  by_cases heq : i = ino
  · rw [heq]
    exact (readInode_self v s ino).2.2.2
  · rw [readInode_other v s heq]

end

def Event.Keeps (counted : Bool) : Event → Prop
  | .rename .. => False
  | .reload _ => counted = false
  | _ => True

section

variable {v : Volume} {s : State} {counted : Bool}

theorem Good.step (h : Good v s counted) (e : Event) (he : e.Keeps counted) :
    Good v (v.step s e) counted := by
  cases e with
  | getCluster ino c =>
    dsimp only [Volume.step]
    split
    · next hpos => exact h.getCluster hpos c
    · exact h
  | addCluster ino =>
    dsimp only [Volume.step]
    split
    · next hpos => exact h.addCluster hpos
    · exact h
  | truncate ino size =>
    dsimp only [Volume.step]
    split
    · next hpos => exact h.truncate hpos.1 size
    · exact h
  | create dir ino isDir full =>
    dsimp only [Volume.step]
    split
    · next hpos => exact h.createEntry hpos isDir full
    · exact h
  | unlink ino =>
    dsimp only [Volume.step]
    split
    · next hname => exact h.unlink hname.1
    · exact h
  | iget ino =>
    dsimp only [Volume.step]
    split
    · next ha => exact h.iget ha
    · exact h
  | iput ino =>
    dsimp only [Volume.step]
    split
    · next hpos => exact h.iput hpos
    · exact h
  | sync ino =>
    dsimp only [Volume.step]
    split
    · exact h.writeInode ino
    · exact h
  | statfs =>
    dsimp only [Volume.step]
    split
    · exact h
    · obtain ⟨chain, hwf⟩ := h
      exact ⟨chain, hwf.setFree _ s.prevFree fun k hk => (Option.some.inj hk).symm⟩
  | rename old new replaced => exact he.elim
  | reload ino =>
    dsimp only [Volume.step]
    subst he
    split
    · next hidle => exact h.reload hidle.1 hidle.2
    · exact h
  | otherAdd w ino f d =>
    dsimp only [Volume.step]
    split
    · next hdev => exact h.cacheAdd hdev ino f d
    · exact h
  | otherInval w ino =>
    dsimp only [Volume.step]
    split
    · exact h.inval w ino
    · exact h

theorem Good.run (h : Good v s counted) (es : List Event) (hes : ∀ e ∈ es, e.Keeps counted) :
    Good v (v.run s es) counted := by
  induction es generalizing s with
  | nil => exact h
  | cons e es ih =>
    exact ih (h.step e (hes e (mem_cons_self ..)))
      fun e' he' => hes e' (mem_cons_of_mem _ he')

end

/-- The volume is just mounted: the chains on the disk are in order, only the root directory is in
use, and the cache has nothing of the device. -/
structure Mounted (v : Volume) (s : State) (chain : Ino → List ℕ) : Prop where
  leads : ∀ i, (s.entry i).used = true → Leads s.fat (startLink (s.entry i).start) (chain i)
  unused : ∀ i, (s.entry i).used = false → chain i = []
  range : ∀ i, ∀ c ∈ chain i, v.InRange c
  disjoint : ∀ i j c, c ∈ chain i → c ∈ chain j → i = j
  free : ∀ c, v.InRange c → (∀ i, c ∉ chain i) → s.fat c = .free
  root : (s.entry rootIno).used = false ∧ (s.inode rootIno).start = 0
  idle : ∀ i, i ≠ rootIno → (s.inode i).count = 0
  read : ∀ i, (s.entry i).used = true → s.inode i = (v.msdosReadInode s i).inode i
  unknown : s.freeClusters = none
  cache : CacheWf s
  fresh : ∀ w ∈ s.order, (s.cache w).device ≠ v.dev

def Fits (v : Volume) (s : State) (chain : Ino → List ℕ) : Prop :=
  ∀ i, (s.entry i).used = true → (s.inode i).blocks = v.clusterSize * (chain i).length

structure ChainsOk (v : Volume) (s : State) (chain : Ino → List ℕ) (counted : Bool) : Prop where
  leads : ∀ i, s.Active i → Leads s.fat (startLink (s.inode i).start) (chain i)
  nodup : ∀ i, (chain i).Nodup
  disjoint : ∀ i j, i ≠ j → (chain i).Disjoint (chain j)
  range : ∀ i, ∀ c ∈ chain i, v.InRange c
  free : ∀ c, v.InRange c → (∀ i, s.Active i → c ∉ chain i) → s.fat c = .free
  count : ∀ n, s.freeClusters = some n → n = v.countFree s
  full : ∀ i, 0 < (s.inode i).count →
    ((v.msdosAddCluster s i).2 = false ↔ i = rootIno ∨ ∀ c, v.InRange c → s.fat c ≠ .free)
  unchanged : ∀ i, 0 < (s.inode i).count → (v.msdosAddCluster s i).2 = false →
    (v.msdosAddCluster s i).1.fat = s.fat ∧ (v.msdosAddCluster s i).1.inode = s.inode ∧
      (v.msdosAddCluster s i).1.entry = s.entry
  blocks : counted = true → ∀ i, s.Active i → i ≠ rootIno →
    (s.inode i).blocks = v.clusterSize * (chain i).length

section

variable {v : Volume} {s : State} {chain : Ino → List ℕ} {counted : Bool} {ino : Ino}

theorem addCluster_root (v : Volume) (s : State) : v.msdosAddCluster s rootIno = (s, false) := by
  unfold Volume.msdosAddCluster
  rw [if_pos rfl]

theorem Mounted.wf (h : Mounted v s chain) (hfits : counted = true → Fits v s chain) :
    Wf v s s.Active chain counted := by
  have hused : ∀ i, i ≠ rootIno → s.Active i → (s.entry i).used = true := by
    rintro i hi (hu | hc)
    · exact hu
    · rw [h.idle i hi] at hc
      exact absurd hc (lt_irrefl 0)
  have hstart : ∀ i, (s.entry i).used = true → (s.inode i).start = (s.entry i).start := by
    intro i hu
    rw [h.read i hu]
    exact (readInode_self v s i).1
  refine ⟨?_, ?_, h.range, h.disjoint, h.free, ?_, ?_, h.cache, h.root.symm, ?_, ?_, ?_, ?_⟩
  · intro i hi
    by_cases heq : i = rootIno
    · rw [heq, h.root.2, h.unused rootIno h.root.1]
      exact Leads.nil
    · have hu := hused i heq hi
      rw [hstart i hu]
      exact h.leads i hu
  · intro i hi
    refine h.unused i ?_
    by_contra hu
    exact hi (.inl (by simpa using hu))
  · intro n hn
    rw [h.unknown] at hn
    cases hn
  · intro w hw hdev
    exact absurd hdev (h.fresh w hw)
  · intro i hi hr hu
    rw [hused i hr hi] at hu
    cases hu
  · intro i _ hu
    rw [h.read i hu]
    exact (readInode_self v s i).2.1
  · intro i _ hu _
    exact (hstart i hu).symm
  · intro hcounted i hi hr
    exact hfits hcounted i (hused i hr hi)

theorem Wf.chainsOk (h : Wf v s s.Active chain counted) : ChainsOk v s chain counted := by
  refine ⟨h.leads, ?_, ?_, h.range, ?_, h.count, ?_, ?_, h.blocks⟩
  · intro i
    by_cases hi : s.Active i
    · exact (h.leads i hi).nodup
    · rw [h.dead i hi]
      exact nodup_nil
  · intro i j hij c hc hc'
    exact hij (h.disjoint i j c hc hc')
  · intro c hc hnone
    refine h.free c hc fun i => ?_
    by_cases hi : s.Active i
    · exact hnone i hi
    · rw [h.dead i hi]
      exact not_mem_nil
  · intro i hpos
    by_cases hroot : i = rootIno
    · rw [hroot, addCluster_root]
      exact iff_of_true rfl (.inl rfl)
    · rcases h.addCluster_cases (.inr hpos) hroot with ⟨hfail, hfull, -⟩ | ⟨hok, nr, hnr, hfree, -⟩
      · exact iff_of_true hfail (.inr hfull)
      · rw [hok]
        refine iff_of_false (by decide) ?_
        rintro (heq | hfull)
        · exact hroot heq
        · exact hfull nr hnr hfree
  · intro i hpos hfail
    by_cases hroot : i = rootIno
    · rw [hroot, addCluster_root]
      exact ⟨rfl, rfl, rfl⟩
    · rcases h.addCluster_cases (.inr hpos) hroot with ⟨-, -, n, heq, -⟩ | ⟨hok, -⟩
      · rw [heq]
        exact ⟨rfl, rfl, rfl⟩
      · rw [hok] at hfail
        cases hfail

end

def smallVolume : Volume := ⟨1, 4, 1, by decide, by decide, by decide, by decide⟩

def smallDisk : State where
  fat := fun c => if c = 2 then .link 3 else if c = 3 then .eof else .free
  prevFree := 0
  freeClusters := none
  inode := fun i =>
    if i = rootIno then ⟨0, 512, 1, 2, false, true, 1⟩
    else if i = 20 then ⟨2, 1000, 2, 1, false, false, 0⟩
    else Volume.emptyInode
  entry := fun i => if i = 20 then ⟨true, 2, 1000, false⟩ else ⟨false, 0, 0, false⟩
  order := List.range 8
  cache := fun _ => ⟨0, 0, 0, 0⟩

def smallChain (i : Ino) : List ℕ := if i = 20 then [2, 3] else []

theorem smallDisk_mounted : Mounted smallVolume smallDisk smallChain := by
  have hused : ∀ i, (smallDisk.entry i).used = true → i = 20 := by
    intro i hu
    by_contra hne
    simp [smallDisk, hne] at hu
  have hmem : ∀ i c, c ∈ smallChain i → i = 20 ∧ (c = 2 ∨ c = 3) := by
    intro i c hc
    unfold smallChain at hc
    split at hc
    · next heq => exact ⟨heq, by simpa using hc⟩
    · exact absurd hc not_mem_nil
  refine ⟨?_, ?_, ?_, ?_, ?_, ⟨rfl, rfl⟩, ?_, ?_, rfl, ⟨List.Perm.refl _, ?_⟩, ?_⟩
  · intro i hu
    rw [hused i hu]
    exact Leads.cons (Leads.cons Leads.nil)
  · intro i hu
    refine if_neg ?_
    rintro rfl
    exact absurd hu (by decide)
  · intro i c hc
    rcases (hmem i c hc).2 with rfl | rfl <;> decide
  · intro i j c hi hj
    rw [(hmem i c hi).1, (hmem j c hj).1]
  · intro c _ hnone
    have h20 := hnone 20
    have hchain : smallChain 20 = [2, 3] := rfl
    simp only [hchain, mem_cons, not_mem_nil, or_false, not_or] at h20
    simp only [smallDisk, h20.1, h20.2, if_false]
  · intro i hi
    change (if i = rootIno then _ else _ : Inode).count = 0
    rw [if_neg hi]
    split <;> rfl
  · intro i hu
    rw [hused i hu]
    decide +kernel
  · intro w _ w' _ hdev
    exact absurd rfl hdev
  · intro w _
    exact Nat.zero_ne_one

theorem smallDisk_fits : Fits smallVolume smallDisk smallChain := by
  intro i hu
  by_cases hi : i = 20
  · rw [hi]
    rfl
  · simp [smallDisk, hi] at hu

end LinuxKernel.FatChain
