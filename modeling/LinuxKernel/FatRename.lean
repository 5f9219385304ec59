import LinuxKernel.FatChainRun

/-!
# The cluster cache and rename

A rename across directories gives a file a new slot, and with it a new inode, which takes over the
chain as the old slot has it.  As long as the old inode is not in use otherwise, this is all of it:
the old inode is gone when the rename returns.
-/

namespace LinuxKernel.FatChain
open Function

open LinkChain

namespace Volume

variable (v : Volume)

def claimEntries (s : State) (old : Ino) : Option Ino → State
  | some r => doom (iget (iget s old) r) r
  | none => iget s old

def moveEntry (s : State) (old new : Ino) : State :=
  let s := iget { s with entry := update s.entry new (s.entry old) } new
  let s := v.msdosReadInode s new
  let s := v.cacheInvalInode (s.setInode old fun i => { i with busy := true }) old
  { s with entry := update s.entry old { s.entry old with used := false } }

theorem renameDiffDir_eq (s : State) (old new : Ino) (replaced : Option Ino) :
    v.renameDiffDir s old new replaced =
      v.iput (v.iput (v.moveEntry (claimEntries s old replaced) old new) (replaced.getD new)) old :=
        by
  cases replaced <;> rfl

end Volume

section

variable {v : Volume} {s : State} {live live' : Ino → Prop} {chain : Ino → List ℕ} {counted : Bool}
  {ino old new : Ino}

theorem moveEntry_entry (s : State) (hne : new ≠ old) :
    (v.moveEntry s old new).entry new = s.entry old ∧
      ((v.moveEntry s old new).entry old).used = false ∧
      ∀ i, i ≠ new → i ≠ old → (v.moveEntry s old new).entry i = s.entry i := by
  have hentry : (v.moveEntry s old new).entry = update
      (update s.entry new (s.entry old)) old
      { update s.entry new (s.entry old) old with used := false } := rfl
  rw [hentry]
  refine ⟨?_, ?_, fun i hn ho => ?_⟩
  · rw [update_of_ne hne, update_self]
  · rw [update_self]
  · rw [update_of_ne ho, update_of_ne hn]

theorem moveEntry_inode (s : State) (hne : new ≠ old) :
    ((v.moveEntry s old new).inode new).start = (s.entry old).start ∧
      ((v.moveEntry s old new).inode new).nlink ≠ 0 ∧
      0 < ((v.moveEntry s old new).inode new).count ∧
      (v.moveEntry s old new).inode old = { s.inode old with busy := true } ∧
      ∀ i, i ≠ new → i ≠ old → (v.moveEntry s old new).inode i = s.inode i := by
  set s1 : State := Volume.iget { s with entry := update s.entry new (s.entry old) } new
  have hinode : ∀ i, (v.moveEntry s old new).inode i =
      if i = old then { (v.msdosReadInode s1 new).inode old with busy := true }
      else (v.msdosReadInode s1 new).inode i :=
    fun i => setInode_inode (v.msdosReadInode s1 new) old (fun i => { i with busy := true }) i
  have hs1 : ∀ i, i ≠ new → s1.inode i = s.inode i := fun i hi => update_of_ne hi ..
  obtain ⟨hstart, hnlink, -, hcount⟩ := readInode_self v s1 new
  refine ⟨?_, ?_, ?_, ?_, fun i hn ho => ?_⟩
  · rw [hinode, if_neg hne, hstart]
    exact congrArg DirEntry.start (update_self ..)
  · rw [hinode, if_neg hne]
    exact hnlink
  · rw [hinode, if_neg hne, hcount]
    exact iget_count _ new
  · rw [hinode, if_pos rfl, readInode_other v s1 hne.symm, hs1 old hne.symm]
  · rw [hinode, if_neg ho, readInode_other v s1 hn, hs1 i hn]

def moved (chain : Ino → List ℕ) (old new : Ino) (i : Ino) : List ℕ :=
  if i = new then chain old else if i = old then [] else chain i

theorem mem_moved (hne : new ≠ old) {c : ℕ} (hnil : chain new = []) :
    (∃ i, c ∈ moved chain old new i) ↔ ∃ i, c ∈ chain i := by
  constructor
  · rintro ⟨i, hi⟩
    unfold moved at hi
    split at hi
    · exact ⟨old, hi⟩
    · split at hi
      · exact absurd hi List.not_mem_nil
      · exact ⟨i, hi⟩
  · rintro ⟨i, hi⟩
    by_cases ho : i = old
    · exact ⟨new, by rw [moved, if_pos rfl, ← ho]; exact hi⟩
    · have hn : i ≠ new := by
        rintro rfl
        rw [hnil] at hi
        exact List.not_mem_nil hi
      exact ⟨i, by rw [moved, if_neg hn, if_neg ho]; exact hi⟩

theorem moved_from {i : Ino} {c : ℕ} (hc : c ∈ moved chain old new i) :
    (i = new ∧ c ∈ chain old) ∨ (i ≠ new ∧ i ≠ old ∧ c ∈ chain i) := by
  unfold moved at hc
  split at hc
  · next hn => exact Or.inl ⟨hn, hc⟩
  · next hn =>
    split at hc
    · exact absurd hc List.not_mem_nil
    · next ho => exact Or.inr ⟨hn, ho, hc⟩

theorem Wf.moveEntry (h : Wf v s live chain false) (hnew : ¬live new) (hold : live old)
    (hne : new ≠ old) (hnr : new ≠ rootIno) (hor : old ≠ rootIno)
    (hused : (s.entry old).used = true) (hstart : (s.entry old).start = (s.inode old).start) :
    Wf v (v.moveEntry s old new) (fun i => (live i ∨ i = new) ∧ i ≠ old) (moved chain old new)
      false := by
  have hnil := h.dead new hnew
  obtain ⟨henew, heold, heother⟩ := moveEntry_entry (v := v) s hne
  obtain ⟨hinew, hinlink, hicount, -, hiother⟩ := moveEntry_inode (v := v) s hne
  have hlive : ∀ i, (live i ∨ i = new) ∧ i ≠ old → i ≠ new → live i :=
    fun i hi hn => hi.1.resolve_right hn
  have hcache : CacheWf (v.moveEntry s old new) := (h.cache.inval v old).congr rfl rfl
  refine ⟨?_, ?_, ?_, ?_, ?_, h.count, ?_, hcache, ⟨?_, ?_⟩, ?_, ?_, ?_,
    fun hfalse => absurd hfalse (by decide)⟩
  · intro i hi
    by_cases hn : i = new
    · rw [hn, hinew, hstart, moved, if_pos rfl]
      exact h.leads old hold
    · rw [hiother i hn hi.2, moved, if_neg hn, if_neg hi.2]
      exact h.leads i (hlive i hi hn)
  · intro i hi
    unfold moved
    split
    · next hn => exact absurd ⟨Or.inr hn, hn ▸ hne⟩ hi
    · split
      · rfl
      · next hn ho => exact h.dead i fun hl => hi ⟨Or.inl hl, ho⟩
  · intro i c hc
    rcases moved_from hc with ⟨-, hc⟩ | ⟨-, -, hc⟩
    · exact h.range old c hc
    · exact h.range i c hc
  · intro i j c hi hj
    rcases moved_from hi with ⟨hin, hi⟩ | ⟨hin, hio, hi⟩
    · rcases moved_from hj with ⟨hjn, -⟩ | ⟨-, hjo, hj⟩
      · rw [hin, hjn]
      · exact absurd (h.disjoint old j c hi hj) (Ne.symm hjo)
    · rcases moved_from hj with ⟨-, hj⟩ | ⟨-, -, hj⟩
      · exact absurd (h.disjoint i old c hi hj) hio
      · exact h.disjoint i j c hi hj
  · intro c hc hnone
    refine h.free c hc fun i hi => ?_
    obtain ⟨j, hj⟩ := (mem_moved hne hnil).mpr ⟨i, hi⟩
    exact hnone j hj
  · -- nothing is held for the new inode, and nothing any more for the old one
    have hinval : Cached v (v.cacheInvalInode s old) (update chain old []) :=
      h.cached.inval fun i hi => update_of_ne hi ..
    have hdrop : Cached v (v.moveEntry s old new) (update chain old []) := hinval.congr rfl rfl
    intro w hw hdev
    have hheld := hdrop w hw hdev
    unfold moved
    split
    · next hn =>
      rw [hn, update_of_ne hne, hnil] at hheld
      cases hheld
    · split
      · next ho =>
        rw [ho, update_self] at hheld
        exact hheld
      · next ho =>
        rw [update_of_ne ho] at hheld
        exact hheld
  · rw [hiother _ hnr.symm hor.symm]
    exact h.root.1
  · rw [heother _ hnr.symm hor.symm]
    exact h.root.2
  · intro i hi hr hu
    have hn : i ≠ new := by
      rintro rfl
      rw [henew, hused] at hu
      cases hu
    rw [heother i hn hi.2] at hu
    rw [hiother i hn hi.2]
    exact h.doomed i (hlive i hi hn) hr hu
  · intro i hi hu
    by_cases hn : i = new
    · rw [hn]
      exact hinlink
    · rw [heother i hn hi.2] at hu
      rw [hiother i hn hi.2]
      exact h.named i (hlive i hi hn) hu
  · intro i hi hu hc
    by_cases hn : i = new
    · rw [hn, henew, hinew]
    · rw [heother i hn hi.2] at hu ⊢
      rw [hiother i hn hi.2] at hc ⊢
      exact h.written i (hlive i hi hn) hu hc

theorem Wf.iput_nlink (h : Wf v s live chain counted) (hlive : live ino) {i : Ino} (hi : i ≠ ino) :
    ((v.iput s ino).inode i).nlink = (s.inode i).nlink := by
  have hsize : Wf v (s.setInode ino fun i => { i with size := 0 }) live chain counted :=
    h.setInode _ ⟨rfl, rfl, rfl, rfl⟩ fun hc => hc
  unfold Volume.iput
  split
  · rw [setInode_inode, if_neg hi]
  · split
    · unfold Volume.msdosTruncate
      obtain ⟨-, hinode⟩ := hsize.fatFree_frame hlive
        (v.clustersFor ((s.setInode ino fun i => { i with size := 0 }).inode ino).size)
      rw [setInode_inode, if_neg hi, (hinode i).2.2, setInode_inode, if_neg hi]
    · rw [setInode_inode, if_neg hi, (writeInode_frame _ ino).2.2.1]
      split <;> rfl

theorem Wf.iput_dead (h : Wf v s live chain counted) (hdead : ¬live ino) (hroot : ino ≠ rootIno)
    (hcount : (s.inode ino).count = 1) (hnlink : (s.inode ino).nlink ≠ 0) :
    Wf v (v.iput s ino) live chain counted ∧ ((v.iput s ino).inode ino).count = 0 ∧
      ((v.iput s ino).entry ino).used = (s.entry ino).used ∧
      ∀ i, i ≠ ino → (v.iput s ino).entry i = s.entry i ∧ (v.iput s ino).inode i = s.inode i := by
  have hone : ¬1 < (s.inode ino).count := by omega
  unfold Volume.iput
  rw [if_neg hone, if_neg hnlink]
  have hinval : Wf v (if (s.inode ino).busy = true then v.cacheInvalInode s ino else s) live chain
      counted := by
    split
    · exact h.inval v ino
    · exact h
  have hsame : (if (s.inode ino).busy = true then v.cacheInvalInode s ino else s).inode = s.inode ∧
      (if (s.inode ino).busy = true then v.cacheInvalInode s ino else s).entry = s.entry := by
    split <;> exact ⟨rfl, rfl⟩
  revert hinval hsame
  generalize (if (s.inode ino).busy = true then v.cacheInvalInode s ino else s) = s1
  rintro h1 ⟨hinode1, hentry1⟩
  obtain ⟨hfat, hfree, hinode, horder, hcache, hused, hother, -⟩ := writeInode_frame s1 ino
  have hothers : ∀ i, i ≠ ino →
      ((Volume.msdosWriteInode s1 ino).setInode ino fun i => { i with count := 0 }).inode i =
        s1.inode i := by
    intro i hi
    rw [setInode_inode, if_neg hi, hinode]
  refine ⟨?_, ?_, ?_, fun i hi => ⟨?_, ?_⟩⟩
  · refine h1.retire (fun i => ⟨fun hl => ⟨hl, ?_⟩, fun hl => hl.1⟩) (h1.dead ino hdead) hfat hfree
      (h1.cached.congr horder hcache) (h1.cache.congr horder hcache) ⟨?_, ?_⟩ hother hothers
    · rintro rfl
      exact hdead hl
    · rw [hothers _ hroot.symm]
      exact h1.root.1
    · change ((Volume.msdosWriteInode s1 ino).entry rootIno).used = false
      rw [hused]
      exact h1.root.2
  · rw [setInode_inode, if_pos rfl]
  · change ((Volume.msdosWriteInode s1 ino).entry ino).used = _
    rw [hused, hentry1]
  · change (Volume.msdosWriteInode s1 ino).entry i = _
    rw [hother i hi, hentry1]
  · rw [hothers i hi, hinode1]

theorem iget_inode (s : State) (ino i : Ino) :
    (Volume.iget s ino).inode i =
      if i = ino then { s.inode ino with count := (s.inode ino).count + 1 } else s.inode i :=
  setInode_inode s ino _ i

theorem Wf.claimEntries (h : Wf v s s.Active chain counted) {replaced : Option Ino}
    (hrep : ∀ r ∈ replaced, s.Replaceable old r) (hused : (s.entry old).used = true) :
    Wf v (Volume.claimEntries s old replaced) s.Active chain counted ∧
      (Volume.claimEntries s old replaced).entry old = s.entry old ∧
      (Volume.claimEntries s old replaced).inode old =
        { s.inode old with count := (s.inode old).count + 1 } ∧
      (∀ r ∈ replaced, 0 < ((Volume.claimEntries s old replaced).inode r).count) ∧
      ∀ i, (Volume.claimEntries s old replaced).Active i ↔ s.Active i := by
  have higet : ∀ i, (Volume.iget s old).Active i ↔ s.Active i := by
    intro i
    by_cases hi : i = old
    · rw [hi]
      exact iff_of_true (Or.inl hused) (Or.inl hused)
    · exact active_congr rfl (by rw [iget_inode, if_neg hi])
  cases replaced with
  | none =>
    refine ⟨h.iget old, rfl, ?_, (fun r hr => nomatch hr), higet⟩
    change (Volume.iget s old).inode old = _
    rw [iget_inode, if_pos rfl]
  | some r =>
    obtain ⟨hur, hro, -⟩ := hrep r rfl
    have hpos : 0 < ((Volume.doom (Volume.iget (Volume.iget s old) r) r).inode r).count := by
      rw [doom_count]
      exact iget_count _ r
    refine ⟨((h.iget old).iget r).doom (Or.inl hur), ?_, ?_, ?_, fun i => ?_⟩
    · exact update_of_ne hro.symm ..
    · change (Volume.doom (Volume.iget (Volume.iget s old) r) r).inode old = _
      unfold Volume.doom
      rw [setInode_inode, if_neg hro.symm]
      rw [iget_inode, if_neg hro.symm, iget_inode, if_pos rfl]
    · rintro r' hr'
      rw [← Option.some.inj hr']
      exact hpos
    · by_cases hi : i = r
      · rw [hi]
        exact iff_of_true (Or.inr hpos) (Or.inl hur)
      · rw [← higet i]
        refine active_congr ?_ ?_
        · exact congrArg DirEntry.used (update_of_ne hi ..)
        · change ((Volume.doom (Volume.iget (Volume.iget s old) r) r).inode i).count = _
          rw [doom_count, iget_inode, if_neg hi]

theorem Good.rename (h : Good v s false) {replaced : Option Ino} (hused : (s.entry old).used = true)
    (hor : old ≠ rootIno) (havail : Volume.Available s new)
    (hrep : ∀ r ∈ replaced, s.Replaceable old r) (hidle : (s.inode old).count = 0) :
    Good v (v.renameDiffDir s old new replaced) false := by
  obtain ⟨chain, hwf⟩ := h
  have hold : s.Active old := Or.inl hused
  have hnew : ¬s.Active new := hwf.not_live havail
  have hne : new ≠ old := by
    rintro rfl
    exact hnew hold
  obtain ⟨hclaim, hentry, hinode, hposr, hactive⟩ := hwf.claimEntries hrep hused
  rw [Volume.renameDiffDir_eq]
  generalize hs1 : Volume.claimEntries s old replaced = s1 at hclaim hentry hinode hposr hactive
  have hmove := hclaim.moveEntry hnew hold hne havail.1 hor (by rw [hentry]; exact hused)
    (by rw [hentry, hinode]; exact hwf.written old hold hused hidle)
  obtain ⟨henew, heold, heother⟩ := moveEntry_entry (v := v) s1 hne
  obtain ⟨-, -, hicount, hiold, hiother⟩ := moveEntry_inode (v := v) s1 hne
  have hactive2 : ∀ i, i ≠ old →
      ((v.moveEntry s1 old new).Active i ↔ (s.Active i ∨ i = new) ∧ i ≠ old) := by
    intro i ho
    by_cases hn : i = new
    · rw [hn]
      exact iff_of_true (Or.inr hicount) ⟨Or.inr rfl, hne⟩
    · have hiff : (v.moveEntry s1 old new).Active i ↔ s1.Active i :=
        active_congr (by rw [heother i hn ho]) (by rw [hiother i hn ho])
      rw [hiff, hactive i]
      exact ⟨fun ha => ⟨Or.inl ha, ho⟩, fun ha => ha.1.resolve_right hn⟩
  -- the replaced inode is put, or the new one
  have hx : replaced.getD new ≠ old ∧ s.Active (replaced.getD new) ∨ replaced.getD new = new := by
    cases replaced with
    | none => exact Or.inr rfl
    | some r => exact Or.inl ⟨(hrep r rfl).2.1, Or.inl (hrep r rfl).1⟩
  have hxcount : 0 < ((v.moveEntry s1 old new).inode (replaced.getD new)).count := by
    cases replaced with
    | none => exact hicount
    | some r =>
      have hrn : r ≠ new := by
        rintro rfl
        exact hnew (Or.inl (hrep r rfl).1)
      change 0 < ((v.moveEntry s1 old new).inode r).count
      rw [hiother r hrn (hrep r rfl).2.1]
      exact hposr r rfl
  generalize replaced.getD new = x at hx hxcount
  have hxo : x ≠ old := by
    rcases hx with hx | hx
    · exact hx.1
    · rw [hx]
      exact hne
  have hxlive : (s.Active x ∨ x = new) ∧ x ≠ old := by
    rcases hx with hx | hx
    · exact ⟨Or.inl hx.2, hxo⟩
    · exact ⟨Or.inr hx, hxo⟩
  obtain ⟨chain', hput⟩ := hmove.iput hxlive hxcount
  have hframe := fun i => hmove.iput_frame hxlive hxcount i
  obtain ⟨huold, hcold⟩ := hframe old
  rw [if_neg (Ne.symm hxo), hiold, hinode, hidle] at hcold
  have hnlink : ((v.iput (v.moveEntry s1 old new) x).inode old).nlink ≠ 0 := by
    rw [hmove.iput_nlink hxlive (Ne.symm hxo), hiold, hinode]
    exact hwf.named old hold hused
  -- then the old one
  obtain ⟨hlast, hzero, hunused, hothers⟩ := hput.iput_dead (fun hl => hl.1.2 rfl) hor hcold hnlink
  refine ⟨chain', hlast.live_congr fun i => ?_⟩
  by_cases ho : i = old
  · rw [ho]
    refine iff_of_false ?_ fun hl => hl.1.2 rfl
    rintro (hu | hc)
    · rw [hunused, huold, heold] at hu
      cases hu
    · omega
  · have hiff : (v.iput (v.iput (v.moveEntry s1 old new) x) old).Active i ↔
        (v.iput (v.moveEntry s1 old new) x).Active i :=
      active_congr (by rw [(hothers i ho).1]) (by rw [(hothers i ho).2])
    rw [hiff]
    by_cases hix : i = x
    · rw [hix]
      exact ⟨fun ha => ⟨hxlive, fun _ => ha⟩, fun ha => ha.2 rfl⟩
    · obtain ⟨hu, hc⟩ := hframe i
      rw [if_neg hix] at hc
      rw [active_congr hu hc, hactive2 i ho]
      exact ⟨fun ha => ⟨ha, fun heq => absurd heq hix⟩, fun ha => ha.1⟩

end

def Event.CacheSafe (s : State) : Event → Prop
  | .rename old _ _ => (s.inode old).count = 0
  | _ => True

def Volume.RunCacheSafe (v : Volume) : State → List Event → Prop
  | _, [] => True
  | s, e :: es => e.CacheSafe s ∧ v.RunCacheSafe (v.step s e) es

section

variable {v : Volume} {s : State}

theorem Good.step_safe (h : Good v s false) (e : Event) (he : e.CacheSafe s) :
    Good v (v.step s e) false := by
  by_cases hkeeps : e.Keeps false
  · exact h.step e hkeeps
  · cases e with
    | rename old new replaced =>
      dsimp only [Volume.step]
      split
      · next hcond => exact h.rename hcond.1 hcond.2.1 hcond.2.2.1 hcond.2.2.2 he
      · exact h
    | reload ino => exact absurd rfl hkeeps
    | _ => exact absurd trivial hkeeps

theorem Good.run_safe (h : Good v s false) (es : List Event) (hes : v.RunCacheSafe s es) :
    Good v (v.run s es) false := by
  induction es generalizing s with
  | nil => exact h
  | cons e es ih => exact ih (h.step_safe e hes.1) hes.2

/-- `get_cluster` answers as the FAT does, and the list of the cache is in order. -/
structure Transparent (v : Volume) (s : State) : Prop where
  getCluster : ∀ i c, 0 < (s.inode i).count →
    (v.getCluster s i c).2 = (follow s.fat (startLink (s.inode i).start) c).getD 0
  cache : CacheWf s

theorem Good.transparent {counted : Bool} (h : Good v s counted) : Transparent v s := by
  obtain ⟨chain, hwf⟩ := h
  refine ⟨fun i c hpos => ?_, hwf.cache⟩
  have hact : s.Active i := Or.inr hpos
  rw [(hwf.getCluster hact c).1, (hwf.leads i hact).follow_eq c]

/-- The cache is transparent in every run whose renames are of files that are not in use. -/
theorem run_transparent (v : Volume) (s : State) (chain : Ino → List ℕ) (es : List Event)
    (h : Mounted v s chain) (hes : v.RunCacheSafe s es) : Transparent v (v.run s es) := by
  have hgood : Good v s false := ⟨chain, h.wf fun hfalse => absurd hfalse (by decide)⟩
  exact (hgood.run_safe es hes).transparent

end

/-- The file is renamed before it is opened. -/
theorem run_transparent_smallDisk :
    Transparent smallVolume (smallVolume.run smallDisk
      [.rename 20 40 none, .iget 40, .getCluster 40 1, .truncate 40 512, .addCluster 40]) :=
  run_transparent smallVolume smallDisk smallChain _ smallDisk_mounted
    ⟨rfl, trivial, trivial, trivial, trivial, trivial⟩

/-- The file is opened, renamed and opened again.  Then it is truncated through its old inode: the
new one still finds the second cluster in the cache. -/
theorem smallDisk_stale_cluster :
    let s := smallVolume.run smallDisk
      [.iget 20, .rename 20 40 none, .iget 40, .getCluster 40 1, .truncate 20 0]
    Mounted smallVolume smallDisk smallChain ∧ 0 < (s.inode 40).count ∧
      (smallVolume.getCluster s 40 1).2 ≠ (follow s.fat (startLink (s.inode 40).start) 1).getD 0 :=
  ⟨smallDisk_mounted, by decide +kernel, by decide +kernel⟩

end LinuxKernel.FatChain
