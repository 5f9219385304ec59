import LinuxKernel.FatWalkModel
import LinuxKernel.FatAccess
import LinuxKernel.LinkWalk

/-!
# When the walks along the FAT stop

Three of the four loops follow the links until they find an end or 0, so that a chain with a cluster
twice keeps them for ever.  `fat_free` puts 0 behind itself and always stops, but the end that it
has put in front of itself may hide a damaged chain, and so may the end that `msdos_add_cluster`
puts into a free cluster.
-/

namespace LinuxKernel.Fat
open Function

open LinkChain

variable {l : Layout} {d : Disk} {nr nr' start skip fuel : ℕ}

/-! ## Reading and writing an entry -/

structure Layout.Reads (l : Layout) (d : Disk) (nr : ℕ) : Prop where
  accepts : l.Accepts nr
  first : d.readable (l.sector (l.first nr)) = true
  last : l.sector (l.first nr) ≠ l.sector (l.last nr) → d.readable (l.sector (l.last nr)) = true

def linkOf (r : ℤ) : Link ℕ := if r = 0 then .free else if r = -1 then .eof else .link r.toNat

theorem access_of_not_reads (h : ¬ l.Reads d nr) (v : Option (BitVec 32)) :
    l.access d nr v = (d, .free) := by
  have hrefused : l.fatAccess d nr v = (d, 0) := by
    unfold Layout.fatAccess
    by_cases hrange : nr < 2 ∨ l.clusters ≤ nr - 2
    · rw [if_pos hrange]
    rw [if_neg hrange]
    by_cases hfirst : d.readable (l.sector (l.first nr)) = false
    · rw [if_pos hfirst]
    rw [if_neg hfirst]
    by_cases hlast : l.sector (l.first nr) ≠ l.sector (l.last nr) ∧
        d.readable (l.sector (l.last nr)) = false
    · rw [if_pos hlast]
    · refine absurd ⟨?_, by simpa using hfirst, fun hne => ?_⟩ h
      · unfold Layout.Accepts
        omega
      · by_contra hunread
        exact hlast ⟨hne, by simpa using hunread⟩
  unfold Layout.access
  rw [hrefused]
  rfl

theorem access_of_reads (h : l.Reads d nr) (v : Option (BitVec 32)) :
    l.access d nr v = ((l.fatAccess d nr v).1, linkOf (l.next (l.entry d nr))) := by
  obtain ⟨⟨h2, hlt⟩, hfirst, hlast⟩ := h
  have hnext : (l.fatAccess d nr v).2 = l.next (l.entry d nr) := by
    unfold Layout.fatAccess
    rw [if_neg (by omega), if_neg (by simp [hfirst]), if_neg (by
      rintro ⟨hne, hunread⟩
      rw [hlast hne] at hunread
      cases hunread)]
    cases v <;> rfl
  unfold Layout.access linkOf
  dsimp only
  rw [hnext]

theorem read_of_reads (h : l.Reads d nr) : l.read d nr = linkOf (l.next (l.entry d nr)) := by
  unfold Layout.read
  rw [access_of_reads h]

theorem read_of_not_reads (h : ¬ l.Reads d nr) : l.read d nr = .free := by
  unfold Layout.read
  rw [access_of_not_reads h]

theorem access_link (l : Layout) (d : Disk) (nr : ℕ) (v : Option (BitVec 32)) :
    (l.access d nr v).2 = l.read d nr := by
  by_cases h : l.Reads d nr
  · rw [access_of_reads h, read_of_reads h]
  · rw [access_of_not_reads h, read_of_not_reads h]

theorem reads_of_ne_free (h : l.read d nr ≠ .free) : l.Reads d nr := by
  by_contra hnot
  exact h (read_of_not_reads hnot)

theorem link_ne_zero (h : l.read d nr = .link nr') : nr' ≠ 0 := by
  rw [read_of_reads (reads_of_ne_free (by rw [h]; simp))] at h
  have hnext : l.next (l.entry d nr) = -1 ∨ 0 ≤ l.next (l.entry d nr) := by
    unfold Layout.next
    generalize (if l.wide = true then 0xfff7 else 0xff7) = max
    by_cases hmax : max ≤ (l.entry d nr).toNat
    · exact .inl (if_pos hmax)
    · rw [if_neg hmax]
      exact .inr (Int.natCast_nonneg _)
  unfold linkOf at h
  split_ifs at h with h0 h1
  have heq := Link.link.inj h
  omega

theorem follow_ne_zero {i : ℕ} (h : follow (l.read d) (.link nr) i = some nr') (hnr : nr ≠ 0) :
    nr' ≠ 0 := by
  induction i generalizing nr with
  | zero => rwa [← Option.some.inj h]
  | succ i ih =>
    have hrest : follow (l.read d) (l.read d nr) i = some nr' := h
    obtain ⟨m, hm⟩ := follow_eq_link hrest
    rw [hm] at hrest
    exact ih hrest (link_ne_zero hm)

theorem mirror_frame (l : Layout) (nr n c : ℕ) (d : Disk) (hc : 1 ≤ c) :
    (l.mirror nr n c d).readable = d.readable ∧
      ∀ t < l.fatStart + l.fatLength, (l.mirror nr n c d).data t = d.data t := by
  induction n generalizing c d with
  | zero => exact ⟨rfl, fun t _ => rfl⟩
  | succ n ih =>
    have hfar : l.fatLength ≤ l.fatLength * c := Nat.le_mul_of_pos_right _ hc
    have hbehind (t : ℕ) (ht : t < l.fatStart + l.fatLength) :
        t ≠ l.sector (l.first nr) + l.fatLength * c ∧
          t ≠ l.sector (l.first nr) + l.fatLength * c + 1 := by
      have hstart : l.fatStart ≤ l.sector (l.first nr) := Nat.le_add_right ..
      omega
    have hcopy (s : ℕ) (d : Disk) (t : ℕ) (ht : t < l.fatStart + l.fatLength) :
        (d.copy (l.sector (l.first nr) + l.fatLength * c) s).data t = d.data t :=
      update_of_ne (hbehind t ht).1 _ _
    unfold Layout.mirror
    dsimp only
    split_ifs with hread htwo hread'
    · obtain ⟨hr, hd⟩ := ih (c + 1) (((d.copy (l.sector (l.first nr) + l.fatLength * c)
        (l.sector (l.first nr))).mark (l.sector (l.first nr) + l.fatLength * c)).copy
          (l.sector (l.first nr) + l.fatLength * c + 1) (l.sector (l.last nr))) (by omega)
      refine ⟨hr, fun t ht => (hd t ht).trans ?_⟩
      exact (update_of_ne (hbehind t ht).2 _ _).trans (hcopy _ d t ht)
    · exact ⟨rfl, fun t ht => hcopy _ d t ht⟩
    · obtain ⟨hr, hd⟩ := ih (c + 1) ((d.copy (l.sector (l.first nr) + l.fatLength * c)
        (l.sector (l.first nr))).mark (l.sector (l.first nr) + l.fatLength * c)) (by omega)
      exact ⟨hr, fun t ht => (hd t ht).trans (hcopy _ d t ht)⟩
    · exact ⟨rfl, fun t _ => rfl⟩

section
variable (hwf : l.Wf) (h : l.Reads d nr)
include hwf h

theorem read_access {v : BitVec 32} (hv : l.Fits v) :
    l.read (l.access d nr (some v)).1 = update (l.read d) nr (linkOf (l.next v)) := by
  obtain ⟨⟨h2, hlt⟩, hfirst, hlast⟩ := h
  have hd : (l.fatAccess d nr (some v)).1 = l.mirror nr (l.fats - 1) 1
      ((if l.wide then l.put d nr v else (l.put d nr v).mark (l.sector (l.last nr))).mark
        (l.sector (l.first nr))) := by
    unfold Layout.fatAccess
    rw [if_neg (by omega), if_neg (by simp [hfirst]), if_neg (by
      rintro ⟨hne, hunread⟩
      rw [hlast hne] at hunread
      cases hunread)]
  have hfst : (l.access d nr (some v)).1 = (l.fatAccess d nr (some v)).1 := rfl
  rw [hfst]
  generalize (l.fatAccess d nr (some v)).1 = d' at hd
  obtain ⟨hr, hdata⟩ := mirror_frame l nr (l.fats - 1) 1 ((if l.wide then l.put d nr v
    else (l.put d nr v).mark (l.sector (l.last nr))).mark (l.sector (l.first nr))) le_rfl
  rw [← hd] at hr hdata
  have hreadable : d'.readable = d.readable := by
    rw [hr]
    cases l.wide <;> rfl
  have hput : ∀ t < l.fatStart + l.fatLength, d'.data t = (l.put d nr v).data t := by
    intro t ht
    rw [hdata t ht]
    cases l.wide <;> rfl
  have hreads (m : ℕ) : l.Reads d' m ↔ l.Reads d m := by
    constructor
    · rintro ⟨h1, h2, h3⟩
      rw [hreadable] at h2 h3
      exact ⟨h1, h2, h3⟩
    · rintro ⟨h1, h2, h3⟩
      rw [← hreadable] at h2 h3
      exact ⟨h1, h2, h3⟩
  funext m
  by_cases hm : l.Reads d m
  · rw [read_of_reads ((hreads m).mpr hm), entry_congr hwf hm.accepts hput]
    by_cases hmn : m = nr
    · rw [hmn, Layout.entry_put_self hv, update_self]
    · rw [Layout.entry_put_of_ne hv hmn, update_of_ne hmn, read_of_reads hm]
  · have hmn : m ≠ nr := by
      rintro rfl
      exact hm ⟨⟨h2, hlt⟩, hfirst, hlast⟩
    rw [read_of_not_reads fun hm' => hm ((hreads m).mp hm'), update_of_ne hmn, read_of_not_reads hm]

theorem read_endMark : l.read (l.access d nr (some l.endMark)).1 = update (l.read d) nr .eof := by
  have hfits : l.Fits l.endMark := by
    unfold Layout.Fits Layout.endMark
    cases l.wide <;> decide
  have hlink : linkOf (l.next l.endMark) = .eof := by
    unfold linkOf Layout.next Layout.endMark
    cases l.wide <;> decide
  rw [read_access hwf h hfits, hlink]

theorem read_zero : l.read (l.access d nr (some 0)).1 = update (l.read d) nr .free := by
  have hfits : l.Fits 0 := by
    unfold Layout.Fits
    cases l.wide <;> decide
  have hlink : linkOf (l.next 0) = .free := by
    unfold linkOf Layout.next
    cases l.wide <;> decide
  rw [read_access hwf h hfits, hlink]

end

theorem mem_of_link (l : Layout) (d : Disk) (a b : ℕ) (h : l.read d a = .link b) :
    a ∈ Finset.range (l.clusters + 2) := by
  have haccepts := (reads_of_ne_free (show l.read d a ≠ .free by simp [h])).accepts
  unfold Layout.Accepts at haccepts
  rw [Finset.mem_range]
  omega

/-! ## The loops that only read -/

variable {v : Volume}

namespace Volume

def chainOf (start : ℕ) : Link ℕ := if start = 0 then .eof else .link start

theorem chainOf_of_ne (h : start ≠ 0) : chainOf start = .link start := if_neg h

theorem sizeLoop_walk (v : Volume) (d : Disk) (fuel nr size : ℕ) :
    (v.sizeLoop d fuel nr size).map Prod.snd = walk (v.layout.read d) fuel nr := by
  induction fuel generalizing nr size with
  | zero => rfl
  | succ fuel ih =>
    rw [sizeLoop, walk_succ]
    cases v.layout.read d nr with
    | free => rfl
    | eof => rfl
    | link nr' => exact ih nr' _

/-- The loop of `msdos_read_inode` ends, with a report when the chain is not well formed. -/
def DirSizeOk (v : Volume) (d : Disk) (start : ℕ) : Prop :=
  ∃ fuel r, v.dirSize d fuel start = some r ∧
    (¬ WellFormed (v.layout.read d) (chainOf start) → r.2 = true)

theorem dirSizeOk_iff (v : Volume) (d : Disk) (start : ℕ) :
    v.DirSizeOk d start ↔ ¬ Repeats (v.layout.read d) (chainOf start) := by
  unfold DirSizeOk
  by_cases hstart : start = 0
  · refine iff_of_true ⟨0, (0, false), if_neg (not_not.mpr hstart), fun hnot => ?_⟩ ?_
    · exact absurd ⟨[], by rw [hstart]; exact .nil⟩ hnot
    · rintro ⟨i, j, a, -, hi, -⟩
      rw [hstart] at hi
      exact absurd hi (by simp [chainOf, follow_eof])
  · have hloop (fuel : ℕ) : v.dirSize d fuel start = v.sizeLoop d fuel start 0 := if_pos hstart
    simp only [hloop]
    have hok : (∃ fuel r, v.sizeLoop d fuel start 0 = some r ∧
        (¬ WellFormed (v.layout.read d) (.link start) → r.2 = true)) ↔
        ∃ fuel r, walk (v.layout.read d) fuel start = some r ∧
          (¬ WellFormed (v.layout.read d) (.link start) → r = true) := by
      constructor
      · rintro ⟨fuel, r, hr, hreport⟩
        exact ⟨fuel, r.2, by rw [← sizeLoop_walk v d fuel start 0, hr]; rfl, hreport⟩
      · rintro ⟨fuel, r, hr, hreport⟩
        rw [← sizeLoop_walk v d fuel start 0] at hr
        obtain ⟨r', hr', rfl⟩ := Option.map_eq_some_iff.mp hr
        exact ⟨fuel, r', hr', hreport⟩
    rw [chainOf_of_ne hstart, hok, walk_ok_iff (mem_of_link v.layout d)]
    exact and_iff_left fun h => h

def scanned (v : Volume) (d : Disk) (scanSector : ℤ → ℤ) (nr : ℕ) : Link ℕ :=
  if (scanCluster scanSector v.clusterSize (v.sectorOf nr)).isSome then .eof
  else v.layout.read d nr

theorem rawScanNonroot_walk (v : Volume) (d : Disk) (scanSector : ℤ → ℤ) (fuel nr : ℕ) :
    (v.rawScanNonroot d scanSector fuel nr).map Prod.snd =
      walk (v.scanned d scanSector) fuel nr := by
  induction fuel generalizing nr with
  | zero => rfl
  | succ fuel ih =>
    rw [rawScanNonroot, walk_succ, scanned]
    cases scanCluster scanSector v.clusterSize (v.sectorOf nr) with
    | some cluster => rfl
    | none =>
      cases v.layout.read d nr with
      | free => rfl
      | eof => rfl
      | link nr' => exact ih nr'

theorem scanCluster_nonneg {scanSector : ℤ → ℤ} {n : ℕ} {sector r : ℤ}
    (h : scanCluster scanSector n sector = some r) : 0 ≤ r := by
  induction n generalizing sector with
  | zero => cases h
  | succ n ih =>
    rw [scanCluster] at h
    split_ifs at h with hfound
    · rwa [← Option.some.inj h]
    · exact ih h

theorem rawScanNonroot_notFound {scanSector : ℤ → ℤ} {r : ℤ × Bool}
    (h : v.rawScanNonroot d scanSector fuel nr = some r) (hr : r.1 < 0) :
    walk (v.layout.read d) fuel nr = some r.2 := by
  induction fuel generalizing nr with
  | zero => cases h
  | succ fuel ih =>
    rw [rawScanNonroot] at h
    rw [walk_succ]
    cases hscan : scanCluster scanSector v.clusterSize (v.sectorOf nr) with
    | some cluster =>
      rw [hscan] at h
      have hle := scanCluster_nonneg hscan
      obtain rfl := Option.some.inj h
      exact absurd hr (by simpa using hle)
    | none =>
      rw [hscan] at h
      cases hread : v.layout.read d nr with
      | free =>
        rw [hread] at h
        exact congrArg some (congrArg Prod.snd (Option.some.inj h))
      | eof =>
        rw [hread] at h
        exact congrArg some (congrArg Prod.snd (Option.some.inj h))
      | link nr' =>
        rw [hread] at h
        exact ih h

/-- `raw_scan_nonroot` ends, with the entry or with a report when the chain is not well formed. -/
def ScanOk (v : Volume) (d : Disk) (scanSector : ℤ → ℤ) (start : ℕ) : Prop :=
  ∃ fuel r, v.rawScanNonroot d scanSector fuel start = some r ∧
    (¬ WellFormed (v.layout.read d) (.link start) → 0 ≤ r.1 ∨ r.2 = true)

section
variable (v : Volume) (d : Disk)

theorem scanOk_iff (scanSector : ℤ → ℤ) (start : ℕ) :
    v.ScanOk d scanSector start ↔ ¬ Repeats (v.scanned d scanSector) (.link start) := by
  have hmem : ∀ a b, v.scanned d scanSector a = .link b →
      a ∈ Finset.range (v.layout.clusters + 2) := by
    intro a b h
    unfold scanned at h
    split_ifs at h
    exact mem_of_link v.layout d a b h
  rw [← walk_ends_iff hmem]
  constructor
  · rintro ⟨fuel, r, hr, -⟩
    refine ⟨fuel, r.2, ?_⟩
    rw [← rawScanNonroot_walk, hr]
    rfl
  · rintro ⟨fuel, r, hr⟩
    rw [← rawScanNonroot_walk] at hr
    obtain ⟨r', hr', rfl⟩ := Option.map_eq_some_iff.mp hr
    refine ⟨fuel, r', hr', fun hnot => ?_⟩
    rcases le_or_gt 0 r'.1 with hfound | hlost
    · exact .inl hfound
    · exact .inr ((walk_reports (rawScanNonroot_notFound hr' hlost)).mpr hnot)

/-! ## Adding a cluster -/

theorem tailSearch_walk (fuel nr : ℕ) :
    (v.tailSearch d fuel nr).map Option.isNone = walk (v.layout.read d) fuel nr := by
  induction fuel generalizing nr with
  | zero => rfl
  | succ fuel ih =>
    rw [tailSearch, walk_succ]
    cases v.layout.read d nr with
    | free => rfl
    | eof => rfl
    | link nr' => exact ih nr'

theorem claim_layout : (v.claim d).1.layout = v.layout := by
  unfold claim
  dsimp only
  split_ifs <;> rfl

theorem findFree_free (n count : ℕ) :
    v.findFree d n count = count + n ∨
      v.layout.read d ((v.findFree d n count + v.prevFree) % v.layout.clusters + 2) = .free := by
  induction n generalizing count with
  | zero => exact .inl rfl
  | succ n ih =>
    rw [findFree]
    by_cases hfree : v.layout.read d ((count + v.prevFree) % v.layout.clusters + 2) = .free
    · rw [if_pos hfree]
      exact .inr hfree
    · rw [if_neg hfree]
      rcases ih (count + 1) with h | h
      · exact .inl (by omega)
      · exact .inr h

end

theorem claim_free (h : (v.claim d).2 = some nr) : v.layout.read d nr = .free := by
  unfold claim at h
  dsimp only at h
  split_ifs at h with hfull hcount
  all_goals
    obtain rfl := Option.some.inj h
    rcases findFree_free v d v.layout.clusters 0 with hend | hfree
    · omega
    · exact hfree

/-- `msdos_add_cluster` has got the cluster `nr` and looks for the end of the chain. -/
structure Searches (v : Volume) (d : Disk) (isRoot : Bool) (start nr : ℕ) : Prop where
  nonroot : isRoot = false
  free : v.freeClusters ≠ 0
  claimed : (v.claim d).2 = some nr
  start : start ≠ 0

/-- `msdos_add_cluster` ends, with a report when the chain in which it looks for the end is not well
formed. -/
def AddOk (v : Volume) (d : Disk) (isRoot : Bool) (start : ℕ) (cached : List (ℕ × ℕ)) : Prop :=
  ∃ fuel r, v.addCluster d isRoot start cached fuel = some r ∧
    ∀ nr, v.Searches d isRoot start nr →
      ¬ WellFormed (v.layout.read d) (.link (cacheLookup intMax cached (0, start)).2) →
        r.panic = true

theorem addCluster_searches {isRoot : Bool} (h : v.Searches d isRoot start nr)
    (cached : List (ℕ × ℕ)) (fuel : ℕ) :
    (v.addCluster d isRoot start cached fuel).map Added.panic =
      walk (v.layout.read (v.layout.access d nr (some v.layout.endMark)).1) fuel
        (cacheLookup intMax cached (0, start)).2 := by
  have hlayout := claim_layout v d
  have hclaimed := h.claimed
  unfold addCluster
  rw [if_neg (by simp [h.nonroot, h.free])]
  rcases hc : v.claim d with ⟨w, o⟩
  rw [hc] at hlayout hclaimed
  obtain rfl : o = some nr := hclaimed
  have hwalk := tailSearch_walk w (w.layout.access d nr (some w.layout.endMark)).1 fuel
  dsimp only at hlayout ⊢
  rw [if_pos h.start]
  rw [← hlayout, ← hwalk]
  cases w.tailSearch (w.layout.access d nr (some w.layout.endMark)).1 fuel
      (cacheLookup intMax cached (0, start)).2 with
  | none => rfl
  | some o => cases o <;> rfl

theorem addCluster_returns (v : Volume) (d : Disk) (isRoot : Bool) (start : ℕ)
    (cached : List (ℕ × ℕ)) (h : ∀ nr, ¬ v.Searches d isRoot start nr) :
    ∃ r, v.addCluster d isRoot start cached 0 = some r := by
  unfold addCluster
  by_cases hnone : isRoot = true ∨ v.freeClusters = 0
  · exact ⟨_, if_pos hnone⟩
  · rw [if_neg hnone]
    push Not at hnone
    rcases hc : v.claim d with ⟨w, o⟩
    cases o with
    | none => exact ⟨_, rfl⟩
    | some nr =>
      by_cases hstart : start ≠ 0
      · exact absurd ⟨by simpa using hnone.1, hnone.2, by rw [hc], hstart⟩ (h nr)
      · exact ⟨_, if_neg hstart⟩

theorem addOk_iff (hwf : v.layout.Wf) (isRoot : Bool) (start : ℕ) (cached : List (ℕ × ℕ)) :
    v.AddOk d isRoot start cached ↔ ∀ nr, v.Searches d isRoot start nr →
      ¬ Repeats (v.layout.read d) (.link (cacheLookup intMax cached (0, start)).2) ∧
        ¬ (v.layout.Reads d nr ∧
          Passes (v.layout.read d) (.link (cacheLookup intMax cached (0, start)).2) nr) := by
  generalize hcurrent : (cacheLookup intMax cached (0, start)).2 = current
  by_cases hsearch : ∃ nr, v.Searches d isRoot start nr
  · obtain ⟨nr, hsearch⟩ := hsearch
    have honly : ∀ nr', v.Searches d isRoot start nr' → nr' = nr := fun nr' h' =>
      Option.some.inj (h'.claimed.symm.trans hsearch.claimed)
    have hwalk := addCluster_searches hsearch cached
    rw [hcurrent] at hwalk
    have hfree := claim_free hsearch.claimed
    have hok : v.AddOk d isRoot start cached ↔
        ∃ fuel r, walk (v.layout.read (v.layout.access d nr (some v.layout.endMark)).1) fuel
          current = some r ∧ (¬ WellFormed (v.layout.read d) (.link current) → r = true) := by
      unfold AddOk
      rw [hcurrent]
      constructor
      · rintro ⟨fuel, r, hr, hpanic⟩
        exact ⟨fuel, r.panic, by rw [← hwalk, hr]; rfl, hpanic nr hsearch⟩
      · rintro ⟨fuel, r, hr, hpanic⟩
        rw [← hwalk] at hr
        obtain ⟨r', hr', rfl⟩ := Option.map_eq_some_iff.mp hr
        exact ⟨fuel, r', hr', fun _ _ => hpanic⟩
    rw [hok, walk_ok_iff (mem_of_link v.layout _)]
    have hall : (∀ nr, v.Searches d isRoot start nr → ¬ Repeats (v.layout.read d) (.link current) ∧
        ¬ (v.layout.Reads d nr ∧ Passes (v.layout.read d) (.link current) nr)) ↔
        ¬ Repeats (v.layout.read d) (.link current) ∧
          ¬ (v.layout.Reads d nr ∧ Passes (v.layout.read d) (.link current) nr) := by
      constructor
      · intro h
        exact h nr hsearch
      · intro h nr' hsearch'
        rw [honly nr' hsearch']
        exact h
    rw [hall]
    by_cases hreads : v.layout.Reads d nr
    · rw [read_endMark hwf hreads, repeats_update_eof hfree, wellFormed_update_eof]
      refine and_congr Iff.rfl ?_
      constructor
      · rintro hreport ⟨-, hpass⟩
        refine hreport ?_ (.inr hpass)
        rintro ⟨c, hc⟩
        exact hc.ne_free (hc.passes_iff.mp hpass) hfree
      · intro hpass hmal hend
        rcases hend with hend | hend
        · exact hmal hend
        · exact hpass ⟨hreads, hend⟩
    · rw [access_of_not_reads hreads]
      refine and_congr Iff.rfl (iff_of_true (fun h => h) fun h => hreads h.1)
  · obtain ⟨r, hr⟩ := addCluster_returns v d isRoot start cached (not_exists.mp hsearch)
    exact iff_of_true ⟨0, r, hr, fun nr h => absurd ⟨nr, h⟩ hsearch⟩
      fun nr h => absurd ⟨nr, h⟩ hsearch

/-! ## Freeing clusters -/

@[simp]
theorem count_layout (f : Freed) : f.count.volume.layout = f.volume.layout := by
  unfold Freed.count
  split_ifs <;> rfl

theorem freeLoop_walk {f : Freed} (fuel nr : ℕ) (hwf : f.volume.layout.Wf)
    (hpanic : f.panic = false) :
    (freeLoop fuel f nr).map Freed.panic = freeWalk fuel (f.volume.layout.read f.disk) nr ∧
      ∀ r, freeLoop fuel f nr = some r → r.error = f.error := by
  induction fuel generalizing f nr with
  | zero => exact ⟨rfl, fun r hr => by cases hr⟩
  | succ fuel ih =>
    rw [freeLoop, freeWalk]
    rw [access_link]
    cases hread : f.volume.layout.read f.disk nr with
    | free => exact ⟨rfl, fun r hr => by rw [← Option.some.inj hr]⟩
    | eof =>
      refine ⟨?_, fun r hr => by rw [← Option.some.inj hr]; rfl⟩
      change some f.panic = _
      rw [hpanic]
    | link nr' =>
      have hreads : f.volume.layout.Reads f.disk nr := reads_of_ne_free (by rw [hread]; simp)
      generalize hg : Freed.count { f with
        disk := (f.volume.layout.access f.disk nr (some 0)).1 } = g
      have hlayout : g.volume.layout = f.volume.layout := by
        rw [← hg]
        exact count_layout _
      have hdisk : g.disk = (f.volume.layout.access f.disk nr (some 0)).1 := by rw [← hg]; rfl
      have hnone : g.panic = false := by
        rw [← hg]
        exact hpanic
      obtain ⟨hwalk, herror⟩ := ih nr' (by rwa [hlayout]) hnone
      rw [hlayout, hdisk, read_zero hwf hreads] at hwalk
      refine ⟨hwalk, fun r hr => (herror r hr).trans ?_⟩
      rw [← hg]
      rfl

theorem freeLoop_ends {f : Freed} (hwf : f.volume.layout.Wf) (hpanic : f.panic = false) (nr : ℕ) :
    ∃ fuel r, freeLoop fuel f nr = some r := by
  obtain ⟨r, hr⟩ := freeWalk_ends (mem_of_link f.volume.layout f.disk) (Nat.lt_succ_self _) nr
  rw [← (freeLoop_walk _ _ hwf hpanic).1] at hr
  obtain ⟨r', hr', -⟩ := Option.map_eq_some_iff.mp hr
  exact ⟨_, r', hr'⟩

theorem freeLoop_panics {f r : Freed} (hwf : f.volume.layout.Wf) (hpanic : f.panic = false)
    (h : freeLoop fuel f nr = some r) :
    r.panic = true ↔ ¬ WellFormed (f.volume.layout.read f.disk) (.link nr) := by
  refine freeWalk_reports (n := fuel) ?_
  rw [← (freeLoop_walk _ _ hwf hpanic).1, h]
  rfl

theorem skipClusters_spec (v : Volume) (d : Disk) (n last nr : ℕ) :
    match v.skipClusters d n last nr with
    | .eof => WellFormed (v.layout.read d) (.link nr)
    | .bad => Dangles (v.layout.read d) (.link nr)
    | .at last' nr' => follow (v.layout.read d) (.link nr) n = some nr' ∧
        (n = 0 ∧ last' = last ∨
          ∃ i, n = i + 1 ∧ follow (v.layout.read d) (.link nr) i = some last' ∧
            v.layout.read d last' = .link nr') := by
  induction n generalizing last nr with
  | zero => exact ⟨rfl, .inl ⟨rfl, rfl⟩⟩
  | succ n ih =>
    rw [skipClusters]
    cases hread : v.layout.read d nr with
    | free => exact .link (hread ▸ .free)
    | eof => exact ⟨[nr], .cons (hread ▸ .nil)⟩
    | link nr' =>
      have hrest := ih nr nr'
      dsimp only
      cases hskip : v.skipClusters d n nr nr' with
      | eof =>
        rw [hskip] at hrest
        obtain ⟨c, hc⟩ := hrest
        exact ⟨nr :: c, .cons (hread ▸ hc)⟩
      | bad =>
        rw [hskip] at hrest
        exact .link (hread ▸ hrest)
      | «at» last' nr'' =>
        rw [hskip] at hrest
        obtain ⟨hfollow, hlast⟩ := hrest
        have hstep (k : ℕ) : follow (v.layout.read d) (.link nr) (k + 1) =
            follow (v.layout.read d) (.link nr') k := by
          rw [← hread]
          rfl
        refine ⟨(hstep n).trans hfollow, .inr ?_⟩
        rcases hlast with ⟨rfl, rfl⟩ | ⟨i, rfl, hi, hlink⟩
        · obtain rfl := Option.some.inj hfollow
          exact ⟨0, rfl, rfl, hread⟩
        · exact ⟨i + 1, rfl, (hstep i).trans hi, hlink⟩

/-- `fat_free` ends, with a report when the chain is not well formed. -/
def FreeOk (v : Volume) (d : Disk) (start : ℕ) (blocks : ℤ) (skip : ℕ) : Prop :=
  ∃ fuel r, v.fatFree d start blocks skip fuel = some r ∧
    (¬ WellFormed (v.layout.read d) (chainOf start) → r.error = true ∨ r.panic = true)

def KeepsInLoop (v : Volume) (d : Disk) (start skip : ℕ) : Prop :=
  ∃ i last k, skip = i + 1 ∧ follow (v.layout.read d) (chainOf start) i = some last ∧
    i < k ∧ follow (v.layout.read d) (chainOf start) k = some last

theorem KeepsInLoop.repeats (h : v.KeepsInLoop d start skip) :
    Repeats (v.layout.read d) (chainOf start) := by
  obtain ⟨i, last, k, -, hi, hlt, hk⟩ := h
  exact ⟨i, k, last, hlt, hi, hk⟩

theorem keepsInLoop_zero (h : v.KeepsInLoop d start 0) : False := by
  obtain ⟨i, last, k, hskip, -⟩ := h
  omega

theorem fatFree_ends (hwf : v.layout.Wf) (d : Disk) (start : ℕ) (blocks : ℤ) (skip : ℕ) :
    ∃ fuel r, v.fatFree d start blocks skip fuel = some r := by
  unfold fatFree
  by_cases hstart : start = 0
  · exact ⟨0, _, if_pos hstart⟩
  · simp only [if_neg hstart]
    cases v.skipClusters d skip 0 start with
    | eof => exact ⟨0, _, rfl⟩
    | bad => exact ⟨0, _, rfl⟩
    | «at» last nr =>
      by_cases hlast : last ≠ 0
      · simp only [if_pos hlast]
        exact freeLoop_ends hwf rfl nr
      · simp only [if_neg hlast]
        exact freeLoop_ends hwf rfl nr

theorem fatFree_reports (hwf : v.layout.Wf) {blocks : ℤ} {r : Freed}
    (h : v.fatFree d start blocks skip fuel = some r) :
    r.error = true ∨ r.panic = true ↔ ¬ WellFormed (v.layout.read d) (chainOf start) ∧
      ¬ v.KeepsInLoop d start skip := by
  unfold fatFree at h
  by_cases hstart : start = 0
  · rw [if_pos hstart] at h
    obtain rfl := Option.some.inj h
    refine iff_of_false (by simp) fun hmal => hmal.1 ⟨[], ?_⟩
    rw [hstart]
    exact .nil
  · rw [if_neg hstart] at h
    have hspec := skipClusters_spec v d skip 0 start
    rw [← chainOf_of_ne hstart] at hspec
    cases hskip : v.skipClusters d skip 0 start with
    | eof =>
      rw [hskip] at h hspec
      obtain rfl := Option.some.inj h
      exact iff_of_false (by simp) fun hmal => hmal.1 hspec
    | bad =>
      rw [hskip] at h hspec
      obtain rfl := Option.some.inj h
      refine iff_of_true (.inl rfl) ⟨?_, fun hloop => ?_⟩
      · rintro ⟨c, hc⟩
        exact hc.not_dangles hspec
      · have hrep := hloop.repeats
        rw [chainOf_of_ne hstart] at hrep hspec
        exact hrep.not_dangles hspec
    | «at» last nr =>
      rw [hskip] at h hspec
      dsimp only at h hspec
      obtain ⟨hfollow, hlast⟩ := hspec
      have hwell := wellFormed_follow hfollow
      rcases hlast with ⟨rfl, rfl⟩ | ⟨i, rfl, hi, hlink⟩
      · -- nothing is kept, so that the table is as it was
        have herror := (freeLoop_walk fuel nr hwf rfl).2 r h
        rw [herror, freeLoop_panics hwf rfl h, hwell]
        simp only [Bool.false_eq_true, false_or]
        exact (and_iff_left keepsInLoop_zero).symm
      · -- the walk also ends where it comes to the last cluster that is kept
        rw [chainOf_of_ne hstart] at hi
        have hne : last ≠ 0 := follow_ne_zero hi hstart
        rw [← chainOf_of_ne hstart] at hi
        rw [if_pos hne] at h
        have hreads : v.layout.Reads d last := reads_of_ne_free (by rw [hlink]; simp)
        have herror := (freeLoop_walk fuel nr hwf rfl).2 r h
        rw [herror, freeLoop_panics hwf rfl h, hwell]
        rw [read_endMark hwf hreads, wellFormed_update_eof]
        simp only [Bool.false_eq_true, false_or, not_or]
        refine and_congr Iff.rfl (not_congr ?_)
        constructor
        · rintro ⟨k, hk⟩
          exact ⟨i, last, i + 1 + k, rfl, hi, by omega, (follow_add hfollow k).trans hk⟩
        · rintro ⟨i', last', k, hsucc, hi', hlt, hk⟩
          obtain rfl : i = i' := by omega
          obtain rfl := Option.some.inj (hi.symm.trans hi')
          refine ⟨k - (i + 1), ?_⟩
          rw [← follow_add hfollow, show i + 1 + (k - (i + 1)) = k by omega]
          exact hk

theorem freeOk_iff (hwf : v.layout.Wf) (d : Disk) (start : ℕ) (blocks : ℤ) (skip : ℕ) :
    v.FreeOk d start blocks skip ↔ ¬ v.KeepsInLoop d start skip := by
  constructor
  · rintro ⟨fuel, r, hr, hreport⟩ hloop
    have hmal : ¬ WellFormed (v.layout.read d) (chainOf start) := by
      rintro ⟨c, hc⟩
      exact hc.not_repeats hloop.repeats
    exact ((fatFree_reports hwf hr).mp (hreport hmal)).2 hloop
  · intro hloop
    obtain ⟨fuel, r, hr⟩ := fatFree_ends hwf d start blocks skip
    exact ⟨fuel, r, hr, fun hmal => (fatFree_reports hwf hr).mpr ⟨hmal, hloop⟩⟩

/-- The walks along the FAT end, with a report when the chain is not well formed: `msdos_read_inode`
and `raw_scan_nonroot` if the chain has no cluster twice (before the entry), `msdos_add_cluster` if
moreover its chain does not come to the cluster that it takes, and `fat_free` if the last cluster
that it keeps is not in a loop. -/
theorem walks_iff (hwf : v.layout.Wf) (d : Disk) (scanSector : ℤ → ℤ) (isRoot : Bool) (start : ℕ)
    (cached : List (ℕ × ℕ)) (blocks : ℤ) (skip : ℕ) :
    (v.DirSizeOk d start ↔ ¬ Repeats (v.layout.read d) (chainOf start)) ∧
      (v.ScanOk d scanSector start ↔ ¬ Repeats (v.scanned d scanSector) (.link start)) ∧
      (v.AddOk d isRoot start cached ↔ ∀ nr, v.Searches d isRoot start nr →
        ¬ Repeats (v.layout.read d) (.link (cacheLookup intMax cached (0, start)).2) ∧
          ¬ (v.layout.Reads d nr ∧
            Passes (v.layout.read d) (.link (cacheLookup intMax cached (0, start)).2) nr)) ∧
      (v.FreeOk d start blocks skip ↔ ¬ v.KeepsInLoop d start skip) ∧
      ∃ fuel r, v.fatFree d start blocks skip fuel = some r :=
  ⟨dirSizeOk_iff v d start, scanOk_iff v d scanSector start, addOk_iff hwf isRoot start cached,
    freeOk_iff hwf d start blocks skip, fatFree_ends hwf d start blocks skip⟩

end Volume

def fourClusters : Volume where
  layout := ⟨1, 1, 1, 4, true⟩
  clusterSize := 1
  dataStart := 5
  prevFree := 0
  freeClusters := -1

def loopDisk : Disk where
  data := fun s i => if s = 1 ∧ i = 4 then 3 else if s = 1 ∧ i = 6 then 2 else 0
  dirty := fun _ => false
  readable := fun _ => true

theorem fourClusters_wf : fourClusters.layout.Wf := ⟨by decide, by decide⟩

theorem walks_iff_fourClusters :
    fourClusters.layout.Wf ∧ (fourClusters.FreeOk loopDisk 2 2 0 ↔
      ¬ fourClusters.KeepsInLoop loopDisk 2 0) :=
  ⟨fourClusters_wf,
    (Volume.walks_iff fourClusters_wf loopDisk (fun _ => -2) false 2 [] 2 0).2.2.2.1⟩

/-- The two clusters keep the loop of `msdos_read_inode` for ever. -/
theorem loopDisk_never_ends :
    ¬ ∀ (v : Volume), v.layout.Wf → ∀ (d : Disk) (scanSector : ℤ → ℤ) (isRoot : Bool) (start : ℕ)
      (cached : List (ℕ × ℕ)) (blocks : ℤ) (skip : ℕ), v.DirSizeOk d start ∧
        v.ScanOk d scanSector start ∧ v.AddOk d isRoot start cached ∧
          v.FreeOk d start blocks skip := by
  intro h
  have hok := (h fourClusters fourClusters_wf loopDisk (fun _ => -2) false 2 [] 2 0).1
  rw [Volume.dirSizeOk_iff] at hok
  exact hok ⟨0, 2, 2, by decide, rfl, by decide⟩

end LinuxKernel.Fat
