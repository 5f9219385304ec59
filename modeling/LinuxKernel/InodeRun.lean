import LinuxKernel.InodeUse

/-!
# Every step of the inode cache

`__iget` puts an inode on a chain in the same step in which it finds no other one there, and
every call gives back the references it has taken.
-/

namespace LinuxKernel.InodeCache
open Function List

theorem findBest_some {Task : Type} {s : Cache Task} {i : ℕ} (hbest : s.findBest = some i) :
    i ∈ s.ring ∧ (s.inodes i).count = 0 := by
  unfold Cache.findBest at hbest
  split at hbest
  · rename_i j hj
    obtain rfl := Option.some.inj hbest
    have hprop := List.find?_some hj
    simp only [decide_eq_true_eq] at hprop
    exact ⟨mem_of_find?_eq_some hj, hprop.1⟩
  · have hprop := List.find?_some hbest
    simp only [decide_eq_true_eq] at hprop
    exact ⟨mem_of_find?_eq_some hbest, hprop⟩

variable {g : GetArgs} {empty : Option ℕ}

theorem crossed_mount {Task : Type} [DecidableEq Task] {s : Cache Task} {t : Task}
    {g' : GetArgs} {empty' : Option ℕ} {i i' tmp : ℕ}
    (ht : s.phase t = .getFound i g empty)
    (hcross : (s.getFound t i g empty).phase t = .put i' (.crossed g' tmp empty')) :
    g.crossmntp = true ∧ (s.inodes i).mount = some tmp := by
  unfold Cache.getFound at hcross
  dsimp only at hcross
  split at hcross
  · rw [ht] at hcross
    cases hcross
  split at hcross
  · simp [Cache.setPhase] at hcross
  split at hcross
  · rename_i root hroot
    simp only [Cache.setPhase, update_self, Phase.put.injEq, PutReturn.crossed.injEq]
      at hcross
    obtain ⟨-, -, rfl, -⟩ := hcross
    cases hg : g.crossmntp with
    | true =>
      rw [hg] at hroot
      exact ⟨rfl, hroot⟩
    | false =>
      rw [hg] at hroot
      cases hroot
  · unfold Cache.getDone at hcross
    split at hcross <;> simp [Cache.setPhase] at hcross

theorem CacheOk.setInode_of_mount {Task : Type} [Fintype Task] {s : Cache Task} {i : ℕ}
    (h : CacheOk s) (hi : i < s.nrInodes) {x : Inode}
    (hdev : x.dev = (s.inodes i).dev) (hino : x.ino = (s.inodes i).ino)
    (hcount : x.count = (s.inodes i).count) (hmount : x.mount = (s.inodes i).mount) :
    CacheOk (s.setInode i x) := by
  refine h.setInode hi hdev hino hcount ?_
  intro r hr
  rw [hmount] at hr
  exact h.use.mounts i r hr

section

variable {Task : Type} [Fintype Task] {s : Cache Task}

theorem CacheOk.growInodes (h : CacheOk s) (n : ℕ) : CacheOk (s.growInodes n) :=
  ⟨h.table.growInodes n, h.use.frame rfl (Nat.le_add_right _ n) (fun _ => rfl) h.use.mounts
    (fun _ _ _ => ⟨rfl, rfl, fun _ => Iff.rfl⟩) (fun _ _ _ => rfl)⟩

theorem CacheOk.setUpdating (h : CacheOk s) (updating : ℕ → ℕ) :
    CacheOk { s with updating := updating } :=
  ⟨h.table.congr rfl rfl rfl rfl rfl, h.use.frame rfl le_rfl (fun _ => rfl) h.use.mounts
    (fun _ _ _ => ⟨rfl, rfl, fun _ => Iff.rfl⟩) (fun _ _ _ => rfl)⟩

theorem init_cacheOk : CacheOk (Cache.init : Cache Task) := by
  refine ⟨⟨?_, ?_, ?_, ?_, ?_, ?_⟩, ⟨?_, ?_, ?_, ?_, ?_⟩⟩
  · simp [Cache.init]
  · exact fun _ _ => rfl
  · rfl
  · simp [Cache.init]
  · simp [Cache.init]
  · intro i j hi
    cases hi
  · simp [Cache.init, Inode.blank, Cache.inUse, Phase.refs]
  · simp [Cache.init, Inode.blank]
  · simp [Cache.init, Phase.named]
  · simp [Cache.init, Phase.empties]
  · simp [Cache.init, Phase.touched]

theorem CacheOk.duplicate (h : CacheOk s) {i : ℕ} (hheld : 0 < s.held i) :
    CacheOk ((s.setInode i { s.inodes i with count := (s.inodes i).count + 1 }).hold i) := by
  have hcount := update_count s i ((s.inodes i).count + 1)
  have hrest := update_count_rest s i ((s.inodes i).count + 1)
  have hpos : 0 < (s.inodes i).count := by
    rw [h.use.counts i]
    omega
  have hup : ∀ j, s.held j ≤ update s.held i (s.held i + 1) j := by
    intro j
    by_cases hj : j = i
    · subst hj
      rw [update_self]
      exact Nat.le_succ _
    · rw [update_of_ne hj]
  refine ⟨?_, h.use.frame rfl le_rfl ?_ ?_ ?_ ?_⟩
  · refine TableOk.congr (h.table.setInode (h.lt_of_count_pos hpos) (m := s.nrFree)
      (x := { s.inodes i with count := (s.inodes i).count + 1 }) rfl rfl ?_) rfl rfl rfl rfl rfl
    rw [if_neg (by omega), if_neg (Nat.succ_ne_zero _)]
    omega
  · intro j
    change (update s.inodes i _ j).count + s.held j + s.lost j =
      (s.inodes j).count + update s.held i (s.held i + 1) j + s.lost j
    rw [hcount]
    by_cases hj : j = i
    · subst hj
      rw [if_pos rfl, update_self]
      omega
    · rw [if_neg hj, update_of_ne hj]
  · intro j r hr
    change (update s.inodes i _ j).mount = some r at hr
    rw [(hrest j).2.2] at hr
    exact (h.use.mounts j r hr).trans_le (hup r)
  · intro u j _
    exact ⟨(hrest j).1, (hrest j).2.1, fun b => Iff.rfl⟩
  · intro u j hj
    change (update s.inodes i _ j).count = _
    rw [hcount, if_neg]
    rintro rfl
    have := (h.use.empty_private hj).1
    omega

variable {phase : Phase}

end

section

variable {Task : Type} [Fintype Task] [DecidableEq Task] {s : Cache Task} {t : Task} {i : ℕ}
  {k : PutReturn}

section
variable (h : CacheOk s)
include h

theorem CacheOk.setHeld {held : ℕ → ℕ}
    (hbooks : ∀ j, phase.refs.count j + held j = (s.phase t).refs.count j + s.held j)
    (hmounts : ∀ j r, (s.inodes j).mount = some r → 0 < held r) (hnamed : phase.named = [])
    (hempties : phase.empties = []) (htouched : phase.touched = []) :
    CacheOk ({ s with held := held }.setPhase t phase) := by
  refine ⟨h.table.congr rfl rfl rfl rfl rfl,
    h.use.move t rfl le_rfl ?_ hmounts ?_ ?_ ?_ ?_ (by simp [htouched])⟩
  · intro j
    change (s.inodes j).count + _ + _ + _ = (s.inodes j).count + held j + _ + s.lost j
    have := hbooks j
    omega
  · intro u _ j _
    exact ⟨rfl, rfl, fun b => Iff.rfl⟩
  · intro u _ j _
    rfl
  · rw [hnamed]
    intro x hx
    cases hx
  · rw [hempties]
    intro e he
    cases he

theorem CacheOk.raise (hi : i < s.nrInodes) {x : Inode} (hdev : x.dev = (s.inodes i).dev)
    (hino : x.ino = (s.inodes i).ino) (hmount : x.mount = (s.inodes i).mount)
    (hcount : x.count = (s.inodes i).count + 1) {m : ℤ}
    (hm : m = s.nrFree - if (s.inodes i).count = 0 then 1 else 0) {held updating : ℕ → ℕ}
    (hheld : ∀ j, s.held j ≤ held j) (hbooks : ∀ j, phase.refs.count j + held j =
      (s.phase t).refs.count j + s.held j + if j = i then 1 else 0)
    (hnot : ∀ u, u ≠ t → i ∉ (s.phase u).empties) (hnamed : ∀ y ∈ phase.named, Named s y.1 y.2)
    (hempties : ∀ e ∈ phase.empties, x.count = 1 ∧ e = i ∧ (∀ b, e ∉ s.bucket b) ∨
      e ≠ i ∧ e ∈ (s.phase t).empties) (htouched : phase.touched = []) :
    CacheOk ({ s.setInode i x with nrFree := m, held := held, updating := updating }.setPhase t
      phase) := by
  have hself : update s.inodes i x i = x := update_self ..
  have hother : ∀ j, j ≠ i → update s.inodes i x j = s.inodes j := fun j hj => update_of_ne hj ..
  have hname : ∀ j, (update s.inodes i x j).dev = (s.inodes j).dev ∧
      (update s.inodes i x j).ino = (s.inodes j).ino ∧
      (update s.inodes i x j).mount = (s.inodes j).mount := by
    intro j
    by_cases hj : j = i
    · subst hj
      rw [hself]
      exact ⟨hdev, hino, hmount⟩
    · rw [hother j hj]
      exact ⟨rfl, rfl, rfl⟩
  refine ⟨?_, h.use.move t rfl le_rfl ?_ ?_ ?_ ?_ ?_ ?_ (by simp [htouched])⟩
  · refine TableOk.congr (h.table.setInode hi hdev hino (m := m) ?_) rfl rfl rfl rfl rfl
    omega
  · intro j
    change (update s.inodes i x j).count + _ + _ + _ = _ + held j + _ + s.lost j
    have hb := hbooks j
    by_cases hj : j = i
    · subst hj
      rw [if_pos rfl] at hb
      rw [hself, hcount]
      omega
    · rw [if_neg hj] at hb
      rw [hother j hj]
      omega
  · intro j r hr
    change (update s.inodes i x j).mount = some r at hr
    rw [(hname j).2.2] at hr
    exact (h.use.mounts j r hr).trans_le (hheld r)
  · intro u _ j _
    exact ⟨(hname j).1, (hname j).2.1, fun b => Iff.rfl⟩
  · intro u hu j hj
    change (update s.inodes i x j).count = _
    rw [hother]
    rintro rfl
    exact hnot u hu hj
  · intro y hy
    obtain ⟨h1, h2, h3⟩ := hnamed y hy
    exact ⟨(hname y.1).1.trans h1, (hname y.1).2.1.trans h2, h3⟩
  · intro e he
    change (update s.inodes i x e).count = 1 ∧ ∀ b, e ∉ s.bucket b
    rcases hempties e he with ⟨hone, rfl, hnone⟩ | ⟨hne, hold⟩
    · rw [hself]
      exact ⟨hone, hnone⟩
    · rw [hother e hne]
      exact h.use.empties t e hold

theorem CacheOk.getFoundIt (ht : s.phase t = .getRepeat g empty) (hnamed : Named s i g) :
    CacheOk (s.getFoundIt t i g empty) := by
  have hi := (h.table.chain _ i hnamed.2.2).1
  have hnot : ∀ u, i ∉ (s.phase u).empties := fun u hu => (h.use.empties u i hu).2 _ hnamed.2.2
  refine h.raise hi (x := { s.inodes i with count := (s.inodes i).count + 1 }) rfl rfl rfl rfl ?_
    (fun _ => le_rfl) ?_ (fun u _ => hnot u) ?_ ?_ rfl
  · split <;> omega
  · intro j
    rw [ht]
    simp only [Phase.refs]
    by_cases hj : j = i
    · subst hj
      rw [count_cons_self, if_pos rfl]
      change _ + s.held j = _
      omega
    · rw [count_cons_of_ne (Ne.symm hj), if_neg hj]
      rfl
  · intro y hy
    rw [mem_singleton.1 hy]
    exact hnamed
  · intro e he
    have hold : e ∈ (s.phase t).empties := by
      rw [ht]
      exact he
    right
    refine ⟨?_, hold⟩
    rintro rfl
    exact hnot t hold

theorem CacheOk.getInsert {e : ℕ} (ht : s.phase t = .getRepeat g (some e))
    (hnone : ∀ j ∈ s.bucket g.hash, ¬((s.inodes j).dev = g.sb.dev ∧ (s.inodes j).ino = g.nr)) :
    CacheOk (s.getInsert t e g) := by
  have hempty : e ∈ (s.phase t).empties := by
    rw [ht]
    exact mem_singleton_self e
  have href := (s.phase t).empties_subset e hempty
  obtain ⟨hone, hfresh⟩ := h.use.empties t e hempty
  have hself : (s.getInsert t e g).inodes e =
      { s.inodes e with sb := some g.sb, dev := g.sb.dev, ino := g.nr } := update_self ..
  have hother : ∀ j, j ≠ e → (s.getInsert t e g).inodes j = s.inodes j :=
    fun j hj => update_of_ne hj ..
  refine ⟨h.table.getInsert (h.ref_lt href) hfresh hnone t,
    h.use.move t rfl le_rfl ?_ ?_ ?_ ?_ ?_ ?_ (by simp [Phase.touched])⟩
  · intro j
    have hcount : ((s.getInsert t e g).inodes j).count = (s.inodes j).count := by
      by_cases hj : j = e
      · rw [hj, hself]
      · rw [hother j hj]
    rw [hcount, ht]
    rfl
  · intro j r hr
    refine h.use.mounts j r ?_
    by_cases hj : j = e
    · subst hj
      rw [hself] at hr
      exact hr
    · rw [hother j hj] at hr
      exact hr
  · intro u hu j hj
    have hne : j ≠ e := by
      rintro rfl
      exact (h.use.empty_private hempty).2 u hu hj
    rw [hother j hne]
    refine ⟨rfl, rfl, fun b => ?_⟩
    change j ∈ update s.bucket g.hash (e :: s.bucket g.hash) b ↔ _
    by_cases hb : b = g.hash
    · subst hb
      rw [update_self, mem_cons]
      exact or_iff_right hne
    · rw [update_of_ne hb]
  · intro u hu j hj
    have hne : j ≠ e := by
      rintro rfl
      exact (h.use.empty_private hempty).2 u hu ((s.phase u).empties_subset j hj)
    rw [hother j hne]
  · intro y hy
    rw [mem_singleton.1 hy]
    refine ⟨by rw [hself], by rw [hself], ?_⟩
    change e ∈ update s.bucket g.hash (e :: s.bucket g.hash) g.hash
    rw [update_self]
    exact mem_cons_self
  · intro e' he'
    cases he'

theorem CacheOk.clear (hi : i < s.nrInodes) (hothers : ∀ u, u ≠ t → i ∉ (s.phase u).refs)
    (hmine : i ∉ phase.refs) (hrefs : ∀ j, j ≠ i → phase.refs.count j = (s.phase t).refs.count j)
    (hbooks : (s.inodes i).count = (s.phase t).refs.count i + s.lost i)
    (hnamed : ∀ x ∈ phase.named, x ∈ (s.phase t).named)
    (hempties : ∀ e ∈ phase.empties, e ∈ (s.phase t).empties)
    (htouched : ∀ j ∈ phase.touched, j < s.nrInodes) :
    CacheOk ((s.clearInode i).setPhase t phase) := by
  have hother : ∀ j, j ≠ i → ((s.clearInode i).setPhase t phase).inodes j = s.inodes j :=
    fun j hj => clearInode_inodes_of_ne hj
  have hbucket : ∀ j, j ≠ i → ∀ b, j ∈ ((s.clearInode i).setPhase t phase).bucket b ↔
      j ∈ s.bucket b := by
    intro j hj b
    rw [show ((s.clearInode i).setPhase t phase).bucket = (s.clearInode i).bucket from rfl,
      mem_bucket_clearInode h.table]
    exact and_iff_right hj
  refine ⟨TableOk.congr (h.table.clearInode hi) rfl rfl rfl rfl rfl,
    h.use.move t rfl le_rfl ?_ ?_ ?_ ?_ ?_ ?_ htouched⟩
  · intro j
    by_cases hj : j = i
    · subst hj
      have hblank : (((s.clearInode j).setPhase t phase).inodes j).count = 0 :=
        congrArg Inode.count clearInode_inodes_self
      have hlost : ((s.clearInode j).setPhase t phase).lost j = 0 := update_self ..
      have hheld : ((s.clearInode j).setPhase t phase).held j = s.held j := rfl
      have hzero : phase.refs.count j = 0 := count_eq_zero.2 hmine
      omega
    · have hlost : ((s.clearInode i).setPhase t phase).lost j = s.lost j := update_of_ne hj ..
      rw [hother j hj, hlost, hrefs j hj]
      rfl
  · intro j r hr
    by_cases hj : j = i
    · subst hj
      rw [show ((s.clearInode j).setPhase t phase).inodes j = Inode.blank from
        clearInode_inodes_self] at hr
      cases hr
    · rw [hother j hj] at hr
      exact h.use.mounts j r hr
  · intro u hu j hj
    have hne : j ≠ i := by
      rintro rfl
      exact hothers u hu hj
    rw [hother j hne]
    exact ⟨rfl, rfl, hbucket j hne⟩
  · intro u hu j hj
    have hne : j ≠ i := by
      rintro rfl
      exact hothers u hu ((s.phase u).empties_subset j hj)
    rw [hother j hne]
  · intro x hx
    have hne : x.1 ≠ i := by
      intro hxi
      exact hmine (hxi ▸ phase.named_subset x hx)
    obtain ⟨h1, h2, h3⟩ := h.use.named t x (hnamed x hx)
    unfold Named
    rw [hother x.1 hne]
    exact ⟨h1, h2, (hbucket x.1 hne _).2 h3⟩
  · intro e he
    have hne : e ≠ i := by
      rintro rfl
      exact hmine (phase.empties_subset e he)
    obtain ⟨hone, hnot⟩ := h.use.empties t e (hempties e he)
    rw [hother e hne]
    exact ⟨hone, fun b hb => hnot b ((hbucket e hne b).1 hb)⟩

theorem CacheOk.clear_put (hput : Putting s t i k) (hcount : (s.inodes i).count = 1) :
    CacheOk ((s.clearInode i).putReturn t k) := by
  have hmem : i ∈ (s.phase t).refs := by
    rw [hput.refs]
    exact mem_cons_self
  have hin := count_le_inUse s t i
  have hself : (s.phase t).refs.count i = k.refs.count i + 1 := by
    rw [hput.refs, count_cons_self]
  have hbooks := h.use.counts i
  rw [putReturn_eq]
  refine h.clear (h.ref_lt hmem) ?_ ?_ ?_ (by omega) ?_ ?_ (by simp)
  · intro u hu hi
    have := h.use.count_two hu hmem hi
    omega
  · rw [PutReturn.refs_phase]
    exact count_eq_zero.1 (by omega)
  · intro j hj
    rw [PutReturn.refs_phase, hput.refs, count_cons_of_ne (Ne.symm hj)]
  · rw [PutReturn.named_phase, hput.named]
    exact fun x hx => hx
  · rw [PutReturn.empties_phase, hput.empties]
    exact fun e he => he

theorem CacheOk.clear_free (t : Task) (hi : i < s.nrInodes) (hcount : (s.inodes i).count = 0) :
    CacheOk ((s.clearInode i).setPhase t (s.phase t)) := by
  have hnone : ∀ u, i ∉ (s.phase u).refs := by
    intro u hu
    have := h.use.count_pos hu
    omega
  have hbooks := h.use.counts i
  refine h.clear hi (fun u _ => hnone u) (hnone t) (fun _ _ => rfl) ?_ (fun x hx => hx)
    (fun e he => he) (h.use.touched t)
  rw [count_eq_zero.2 (hnone t)]
  omega

theorem CacheOk.lose (hput : Putting s t i k) :
    CacheOk ({ s with lost := update s.lost i (s.lost i + 1) }.putReturn t k) := by
  rw [putReturn_eq]
  refine ⟨h.table.congr rfl rfl rfl rfl rfl,
    h.use.move t rfl le_rfl ?_ h.use.mounts ?_ ?_ ?_ ?_ (by simp)⟩
  · intro j
    change _ = (s.inodes j).count + s.held j + _ + update s.lost i (s.lost i + 1) j
    rw [PutReturn.refs_phase, hput.refs]
    by_cases hj : j = i
    · subst hj
      rw [count_cons_self, update_self]
      change (s.inodes j).count + _ + _ + _ = _
      omega
    · rw [count_cons_of_ne (Ne.symm hj), update_of_ne hj]
      rfl
  · intro u _ j _
    exact ⟨rfl, rfl, fun b => Iff.rfl⟩
  · intro u _ j _
    rfl
  · intro x hx
    rw [PutReturn.named_phase, ← hput.named] at hx
    exact h.use.named t x hx
  · intro e he
    rw [PutReturn.empties_phase, ← hput.empties] at he
    exact h.use.empties t e he

theorem CacheOk.takeEmpty {k : EmptyReturn} (ht : s.phase t = .emptyRepeat k) (hi : i < s.nrInodes)
    (hcount : (s.inodes i).count = 0) : CacheOk (s.takeEmpty t i k) := by
  have hclear : CacheOk (s.clearInode i) := by
    have hcleared := h.clear_free t hi hcount
    unfold Cache.setPhase at hcleared
    rwa [show update (s.clearInode i).phase t (s.phase t) = (s.clearInode i).phase from
      update_eq_self t _] at hcleared
  have hblank : (s.clearInode i).inodes i = Inode.blank := clearInode_inodes_self
  have hfree : 1 ≤ (s.clearInode i).nrFree := by
    rw [hclear.table.free]
    have hmem : i ∈ (s.clearInode i).freeInodes := by
      unfold Cache.freeInodes
      rw [Finset.mem_filter, Finset.mem_range, hblank]
      exact ⟨hi, rfl⟩
    exact_mod_cast Finset.card_pos.2 ⟨i, hmem⟩
  have hnot : ∀ u, u ≠ t → i ∉ ((s.clearInode i).phase u).empties := by
    intro u _ hu
    have := (h.use.empties u i hu).1
    omega
  have hphase : (s.clearInode i).phase t = .emptyRepeat k := ht
  have hm : (if (s.clearInode i).nrFree - 1 < 0 then 0 else (s.clearInode i).nrFree - 1) =
      (s.clearInode i).nrFree - if ((s.clearInode i).inodes i).count = 0 then 1 else 0 := by
    rw [if_neg (by omega), hblank]
    rfl
  cases k with
  | user =>
    refine hclear.raise hi (x := { (s.clearInode i).inodes i with count := 1, nlink := 1 })
      rfl rfl rfl (by rw [hblank]; rfl) hm ?_ ?_ hnot ?_ ?_ rfl
    · intro j
      change (s.clearInode i).held j ≤
        update (s.clearInode i).held i ((s.clearInode i).held i + 1) j
      by_cases hj : j = i
      · subst hj
        rw [update_self]
        exact Nat.le_succ _
      · rw [update_of_ne hj]
    · intro j
      change _ + update (s.clearInode i).held i ((s.clearInode i).held i + 1) j = _
      rw [hphase]
      by_cases hj : j = i
      · subst hj
        simp [Phase.refs]
      · simp [Phase.refs, hj]
    · intro y hy
      cases hy
    · intro e he
      cases he
  | get g =>
    refine hclear.raise hi (x := { (s.clearInode i).inodes i with count := 1, nlink := 1 })
      rfl rfl rfl (by rw [hblank]; rfl) hm (fun _ => le_rfl) ?_ hnot ?_ ?_ rfl
    · intro j
      change (Phase.getRepeat g (some i)).refs.count j + (s.clearInode i).held j = _
      rw [hphase]
      by_cases hj : j = i
      · subst hj
        simp [Phase.refs, Nat.add_comm]
      · simp [Phase.refs, hj, Ne.symm hj]
    · intro y hy
      cases hy
    · intro e he
      obtain rfl : e = i := by simpa [Phase.empties] using he
      left
      refine ⟨rfl, rfl, fun b hb => ?_⟩
      exact ((mem_bucket_clearInode h.table).1 hb).1 rfl

theorem CacheOk.putRest (hput : Putting s t i k)
    (hcount : (s.inodes i).dirt = false → (s.inodes i).count = 1) : CacheOk (s.putRest t i k) := by
  unfold Cache.putRest
  dsimp only
  split
  · refine h.setPhase ?_ ?_ ?_ (by simp [Phase.touched])
    · rw [hput.refs]
      rfl
    · rw [hput.named]
      exact fun x hx => hx
    · rw [hput.empties]
      exact fun e he => he
  · rename_i hdirt
    refine h.drop hput ?_
    rw [if_pos (hcount (by simpa using hdirt))]

theorem CacheOk.putRepeat (hput : Putting s t i k) : CacheOk (s.putRepeat t i k) := by
  have hpos : 0 < (s.inodes i).count := by
    refine h.use.count_pos (t := t) ?_
    rw [hput.refs]
    exact mem_cons_self
  unfold Cache.putRepeat
  dsimp only
  split
  · refine h.drop hput ?_
    rw [if_neg (by omega), add_zero]
  · split
    · refine h.setPhase ?_ ?_ ?_ (by simp [Phase.touched])
      · rw [hput.refs]
        rfl
      · rw [hput.named]
        exact fun x hx => hx
      · rw [hput.empties]
        exact fun e he => he
    · exact h.putRest hput fun _ => by omega

theorem CacheOk.putFs (ht : s.phase t = .putFs i k) {c : Choice}
    (hok : (c.cleared = true ∨ (s.inodes i).nlink ≠ 0 ∧ c.dirt = false) →
      (s.inodes i).count = 1) : CacheOk (s.putFs t i k c) := by
  have hput : Putting s t i k := ⟨by rw [ht]; rfl, by rw [ht]; rfl, by rw [ht]; rfl⟩
  have hmem : i ∈ (s.phase t).refs := by
    rw [hput.refs]
    exact mem_cons_self
  have hleft : CacheOk (s.setInode i { s.inodes i with dirt := c.dirt }) :=
    h.setInode_of_mount (h.ref_lt hmem) rfl rfl rfl rfl
  have hputLeft : Putting (s.setInode i { s.inodes i with dirt := c.dirt }) t i k :=
    ⟨hput.refs, hput.named, hput.empties⟩
  unfold Cache.putFs
  dsimp only
  split
  · rename_i hcleared
    split
    · exact h
    · exact h.clear_put hput (hok (.inl hcleared))
  · split
    · exact hleft.lose hputLeft
    · rename_i hlinks
      refine hleft.putRest hputLeft ?_
      intro hdirt
      have hself : (s.setInode i { s.inodes i with dirt := c.dirt }).inodes i =
          { s.inodes i with dirt := c.dirt } := update_self ..
      rw [hself] at hdirt ⊢
      exact hok (.inr ⟨hlinks, hdirt⟩)

theorem CacheOk.goto (hrefs : phase.refs = (s.phase t).refs)
    (hnamed : phase.named = (s.phase t).named) (hempties : phase.empties = (s.phase t).empties)
    (htouched : ∀ j ∈ phase.touched, j < s.nrInodes) : CacheOk (s.setPhase t phase) := by
  refine h.setPhase (.of_eq hrefs) ?_ ?_ htouched
  · rw [hnamed]
    exact fun x hx => hx
  · rw [hempties]
    exact fun e he => he

theorem CacheOk.writeInode (hi : i < s.nrInodes) {writing next : Phase}
    (hrefs : writing.refs = (s.phase t).refs ∧ next.refs = (s.phase t).refs)
    (hnamed : writing.named = (s.phase t).named ∧ next.named = (s.phase t).named)
    (hempties : writing.empties = (s.phase t).empties ∧ next.empties = (s.phase t).empties)
    (htouched : (∀ j ∈ writing.touched, j < s.nrInodes) ∧ ∀ j ∈ next.touched, j < s.nrInodes) :
    CacheOk (s.writeInode t i writing next) := by
  unfold Cache.writeInode
  dsimp only
  split
  · split
    · exact h
    · split
      · have hset : CacheOk (s.setInode i { s.inodes i with lock := true }) :=
          h.setInode_of_mount hi rfl rfl rfl rfl
        exact hset.goto hrefs.1 hnamed.1 hempties.1 htouched.1
      · have hset : CacheOk (s.setInode i { s.inodes i with dirt := false }) :=
          h.setInode_of_mount hi rfl rfl rfl rfl
        exact hset.goto hrefs.2 hnamed.2 hempties.2 htouched.2
  · exact h.goto hrefs.2 hnamed.2 hempties.2 htouched.2

theorem CacheOk.written (hi : i < s.nrInodes) {next : Phase} (hrefs : next.refs = (s.phase t).refs)
    (hnamed : next.named = (s.phase t).named) (hempties : next.empties = (s.phase t).empties)
    (htouched : ∀ j ∈ next.touched, j < s.nrInodes) (c : Choice) :
    CacheOk (s.written t i next c) := by
  have hset : CacheOk (s.setInode i { s.inodes i with lock := false, dirt := c.dirt }) :=
    h.setInode_of_mount hi rfl rfl rfl rfl
  exact hset.goto hrefs hnamed hempties htouched

theorem CacheOk.emptyRepeat {k : EmptyReturn} (ht : s.phase t = .emptyRepeat k) :
    CacheOk (s.emptyRepeat t k) := by
  have hgo : ∀ {phase : Phase}, phase.refs = [] → phase.named = [] → phase.empties = [] →
      (∀ j ∈ phase.touched, j < s.nrInodes) → CacheOk (s.setPhase t phase) := by
    intro phase hrefs hnamed hempties htouched
    exact h.goto (hrefs.trans (by rw [ht]; rfl)) (hnamed.trans (by rw [ht]; rfl))
      (hempties.trans (by rw [ht]; rfl)) htouched
  unfold Cache.emptyRepeat
  split
  · split
    · exact hgo rfl rfl rfl (by simp [Phase.touched])
    · exact hgo rfl rfl rfl (by simp [Phase.touched])
  · rename_i i hbest
    obtain ⟨hring, hcount⟩ := findBest_some hbest
    have hi := h.table.ring i hring
    have htouched : ∀ j ∈ [i], j < s.nrInodes := by
      intro j hj
      rw [mem_singleton.1 hj]
      exact hi
    dsimp only
    split_ifs
    · exact hgo rfl rfl rfl (by simp [Phase.touched])
    · exact hgo rfl rfl rfl htouched
    · exact hgo rfl rfl rfl htouched
    · exact h.takeEmpty ht hi hcount

theorem CacheOk.getRepeat (ht : s.phase t = .getRepeat g empty) :
    CacheOk (s.getRepeat t g empty) := by
  unfold Cache.getRepeat
  split
  · rename_i i hfind
    have hname := List.find?_some hfind
    simp only [decide_eq_true_eq] at hname
    exact h.getFoundIt ht ⟨hname.1, hname.2, mem_of_find?_eq_some hfind⟩
  · rename_i hfind
    split
    · refine (h.setUpdating _).goto ?_ ?_ ?_ (by simp [Phase.touched])
      · rw [ht]
        rfl
      · rw [ht]
        rfl
      · rw [ht]
        rfl
    · refine h.getInsert ht ?_
      intro j hj hname
      have := List.find?_eq_none.1 hfind j hj
      simp only [decide_eq_true_eq] at this
      exact this hname

theorem CacheOk.getDone {crossed : Bool} (hrefs : (s.phase t).refs = i :: empty.toList)
    (hnamed : crossed = false → (i, g) ∈ (s.phase t).named) :
    CacheOk (s.getDone t i g empty crossed) := by
  have hname : ∀ x ∈ (PutReturn.done g i crossed).named, x ∈ (s.phase t).named := by
    intro x hx
    cases crossed with
    | false =>
      rw [mem_singleton.1 hx]
      exact hnamed rfl
    | true => cases hx
  unfold Cache.getDone
  split
  · refine h.setPhase ?_ hname (by simp [Phase.empties, PutReturn.empties])
      (by simp [Phase.touched])
    rw [hrefs]
    exact List.Perm.swap ..
  · rw [← PutReturn.named_phase] at hname
    refine h.setPhase ?_ hname (by simp [Phase.empties]) (by simp [Phase.touched])
    rw [hrefs]
    rfl

theorem CacheOk.getFound (ht : s.phase t = .getFound i g empty) :
    CacheOk (s.getFound t i g empty) := by
  have hrefs : (s.phase t).refs = i :: empty.toList := by
    rw [ht]
    rfl
  have hempties : (s.phase t).empties = empty.toList := by
    rw [ht]
    rfl
  have hnamed : (i, g) ∈ (s.phase t).named := by
    rw [ht]
    exact mem_singleton_self _
  unfold Cache.getFound
  dsimp only
  split
  · exact h
  split
  · -- not reached: nobody renames an inode that is in use
    rename_i hchanged
    obtain ⟨hdev, hino, -⟩ := h.use.named t _ hnamed
    exact absurd hchanged (by simp [hdev, hino])
  split
  · rename_i tmp hcross
    have hmount : (s.inodes i).mount = some tmp := by
      by_contra hne
      cases hg : g.crossmntp with
      | true => simp [hg, hne] at hcross
      | false => simp [hg] at hcross
    have hheld := h.use.mounts i tmp hmount
    have hcount : 0 < (s.inodes tmp).count := by
      rw [h.use.counts tmp]
      omega
    -- the root is held, so it is nobody's empty inode
    have hnot : ∀ u, tmp ∉ (s.phase u).empties := by
      intro u hu
      have := (h.use.empty_private hu).1
      omega
    refine h.raise (h.lt_of_count_pos hcount)
      (x := { s.inodes tmp with count := (s.inodes tmp).count + 1 }) rfl rfl rfl rfl ?_
      (fun _ => le_rfl) ?_ (fun u _ => hnot u) ?_ ?_ rfl
    · omega
    · intro j
      rw [hrefs]
      simp only [Phase.refs, PutReturn.refs]
      by_cases hj : j = tmp
      · subst hj
        simp only [count_cons, beq_self_eq_true, if_true]
        omega
      · simp only [count_cons, if_neg hj]
        simp [Ne.symm hj]
    · intro y hy
      cases hy
    · intro e he
      right
      have hold : e ∈ (s.phase t).empties := by
        rw [hempties]
        exact he
      refine ⟨?_, hold⟩
      rintro rfl
      exact hnot t hold
  · exact h.getDone hrefs fun _ => hnamed

theorem CacheOk.getReturn {crossed : Bool} (ht : s.phase t = .getReturn i g crossed) :
    CacheOk ((s.hold i).setPhase t .idle) := by
  refine h.setHeld ?_ ?_ rfl rfl rfl
  · intro j
    rw [ht]
    by_cases hj : j = i
    · subst hj
      simp [Phase.refs, Nat.add_comm]
    · simp [Phase.refs, hj, Ne.symm hj]
  · intro j r hr
    have hheld := h.use.mounts j r hr
    by_cases hri : r = i
    · subst hri
      rw [update_self]
      omega
    · rw [update_of_ne hri]
      exact hheld

theorem CacheOk.run (t : Task) (c : Choice) (hok : ∀ i k, s.phase t = .putFs i k →
      (c.cleared = true ∨ (s.inodes i).nlink ≠ 0 ∧ c.dirt = false) → (s.inodes i).count = 1) :
    CacheOk (s.run t c) := by
  -- to a place that is the same for the books
  have hgo : ∀ {now next : Phase}, s.phase t = now → next.refs = now.refs →
      next.named = now.named → next.empties = now.empties → next.touched = [] →
      CacheOk (s.setPhase t next) := by
    rintro now next rfl hrefs hnamed hempties htouched
    exact h.goto hrefs hnamed hempties (by simp [htouched])
  have hlt : ∀ {now : Phase}, s.phase t = now → ∀ j ∈ now.refs, j < s.nrInodes := by
    rintro now rfl j hj
    exact h.ref_lt hj
  unfold Cache.run
  split
  case _ => exact h
  case _ i k ht =>
    split
    · exact h
    split
    · rename_i hzero
      have := h.use.count_pos (t := t) (j := i) (by rw [ht]; exact mem_cons_self)
      omega
    · exact hgo ht rfl rfl rfl rfl
  case _ i k ht => exact h.putRepeat ⟨by rw [ht]; rfl, by rw [ht]; rfl, by rw [ht]; rfl⟩
  case _ i k ht => exact h.putFs ht (hok i k ht)
  case _ i k ht =>
    refine h.writeInode (hlt ht i mem_cons_self) ?_ ?_ ?_ (by simp [Phase.touched]) <;>
      rw [ht] <;> exact ⟨rfl, rfl⟩
  case _ i k ht =>
    refine h.written (hlt ht i mem_cons_self) ?_ ?_ ?_ (by simp [Phase.touched]) c <;>
      rw [ht] <;> rfl
  case _ i k ht =>
    split
    · exact h
    · exact hgo ht rfl rfl rfl rfl
  case _ k ht =>
    split
    · exact hgo ht rfl rfl rfl rfl
    · exact hgo ht rfl rfl rfl rfl
  case _ k ht =>
    split
    · rename_i n _
      refine (h.growInodes n).goto ?_ ?_ ?_ (by simp [Phase.touched]) <;>
        rw [show (s.growInodes n).phase = s.phase from rfl, ht] <;> rfl
    · exact hgo ht rfl rfl rfl rfl
  case _ k ht => exact h.emptyRepeat ht
  case _ k ht => exact hgo ht rfl rfl rfl rfl
  case _ i k ht =>
    split
    · exact h
    · exact hgo ht rfl rfl rfl rfl
  case _ i k ht =>
    have hi : i < s.nrInodes := h.use.touched t i (by rw [ht]; exact mem_singleton_self i)
    refine h.writeInode hi ?_ ?_ ?_ (by simpa [Phase.touched] using hi) <;>
      rw [ht] <;> exact ⟨rfl, rfl⟩
  case _ i k ht =>
    have hi : i < s.nrInodes := h.use.touched t i (by rw [ht]; exact mem_singleton_self i)
    refine h.written hi ?_ ?_ ?_ (by simp [Phase.touched]) c <;> rw [ht] <;> rfl
  case _ g empty ht => exact h.getRepeat ht
  case _ i g empty ht => exact h.getFound ht
  case _ i g empty ht =>
    split
    · exact h
    · exact h.getDone (by rw [ht]; rfl) (by simp)
  case _ i g ht =>
    have hi := hlt ht i mem_cons_self
    split
    · exact h
    split
    · have hset : CacheOk (s.setInode i { s.inodes i with lock := true }) :=
        h.setInode_of_mount hi rfl rfl rfl rfl
      refine hset.goto ?_ ?_ ?_ (by simp [Phase.touched]) <;>
        rw [show (s.setInode i _).phase = s.phase from rfl, ht] <;> rfl
    · exact hgo ht rfl rfl rfl rfl
  case _ i g ht =>
    have hset : CacheOk (s.setInode i { s.inodes i with lock := false }) :=
      h.setInode_of_mount (hlt ht i mem_cons_self) rfl rfl rfl rfl
    refine hset.goto ?_ ?_ ?_ (by simp [Phase.touched]) <;>
      rw [show (s.setInode i _).phase = s.phase from rfl, ht] <;> rfl
  case _ i g crossed ht =>
    split
    · exact h
    · exact h.getReturn ht

theorem CacheOk.iput (ht : s.phase t = .idle) (hmay : s.MayPut i) :
    CacheOk ({ s with held := update s.held i (s.held i - 1) }.setPhase t
      (.put i .user)) := by
  obtain ⟨hpos, hroot⟩ := hmay
  refine h.setHeld ?_ ?_ rfl rfl rfl
  · intro j
    rw [ht]
    by_cases hj : j = i
    · subst hj
      simp only [Phase.refs, PutReturn.refs, count_cons_self, count_nil, update_self]
      omega
    · simp [Phase.refs, PutReturn.refs, hj, Ne.symm hj]
  · intro j r hr
    by_cases hri : r = i
    · subst hri
      have hj : j < s.nrInodes := by
        by_contra hge
        rw [h.table.beyond j (by omega)] at hr
        cases hr
      have := hroot ⟨j, hj, hr⟩
      rw [update_self]
      omega
    · rw [update_of_ne hri]
      exact h.use.mounts j r hr

theorem CacheOk.step {event : Event Task} (hok : event.Ok s) : CacheOk (s.step event) := by
  cases event with
  | iget t g =>
    simp only [Cache.step]
    split
    · rename_i ht
      exact h.goto (by rw [ht]; rfl) (by rw [ht]; rfl) (by rw [ht]; rfl) (by simp [Phase.touched])
    · exact h
  | iput t i =>
    simp only [Cache.step]
    split
    · rename_i ht
      split
      · rename_i hmay
        exact h.iput ht hmay
      · exact h
    · exact h
  | getEmptyInode t =>
    simp only [Cache.step]
    split
    · rename_i ht
      exact h.goto (by rw [ht]; rfl) (by rw [ht]; rfl) (by rw [ht]; rfl) (by simp [Phase.touched])
    · exact h
  | run t c => exact h.run t c hok
  | clearInode t i =>
    simp only [Cache.step]
    split
    · rename_i ht
      split
      · rename_i hfree
        have hclear := h.clear_free t hfree.1 hfree.2.1
        rwa [ht] at hclear
      · exact h
    · exact h
  | duplicate i =>
    simp only [Cache.step]
    split
    · rename_i hheld
      exact h.duplicate hheld
    · exact h
  | mount i root =>
    simp only [Cache.step]
    split
    · rename_i hroot
      refine h.setInode hroot.1 rfl rfl rfl ?_
      rintro r ⟨⟩
      exact hroot.2
    · exact h
  | umount i =>
    simp only [Cache.step]
    split
    · rename_i hi
      refine h.setInode hi rfl rfl rfl ?_
      rintro r ⟨⟩
    · exact h
  | change i nlink dirt lock =>
    simp only [Cache.step]
    split
    · rename_i hi
      exact h.setInode_of_mount hi rfl rfl rfl rfl
    · exact h

theorem CacheOk.runAll {events : List (Event Task)} (hok : RunOk s events) :
    CacheOk (s.runAll events) := by
  induction events generalizing s with
  | nil => exact h
  | cons event events ih => exact ih (h.step hok.1) hok.2

end

/-- In every run no two inodes on the chains have the same device and number, the counts are
the numbers of references, and `nr_free_inodes` is the number of inodes with count 0.
`__iget` comes out with a counted reference to the inode of its arguments or, if it crosses
a mount point, to the root mounted there. -/
theorem run_inodes_unique {events : List (Event Task)} (hok : RunOk Cache.init events) :
    let s : Cache Task := Cache.init.runAll events
    (∀ i j, s.Hashed i → s.Hashed j → (s.inodes i).dev = (s.inodes j).dev →
      (s.inodes i).ino = (s.inodes j).ino → i = j) ∧
    s.nrFree = s.freeInodes.card ∧
    (∀ j, (s.inodes j).count = s.held j + s.inUse j + s.lost j) ∧
    (∀ t i g crossed, s.phase t = .getReturn i g crossed →
      0 < (s.inodes i).count ∧ (crossed = false → Named s i g)) ∧
    (∀ t i g empty, s.phase t = .getFound i g empty → Named s i g ∧
      ∀ c i' g' tmp empty', (s.run t c).phase t = .put i' (.crossed g' tmp empty') →
        g.crossmntp = true ∧ (s.inodes i).mount = some tmp ∧ 0 < s.held tmp) := by
  have h : CacheOk (Cache.init.runAll events : Cache Task) := init_cacheOk.runAll hok
  refine ⟨h.table.unique, h.table.free, h.use.counts, ?_, ?_⟩
  · intro t i g crossed ht
    refine ⟨h.use.count_pos (t := t) ?_, ?_⟩
    · rw [ht]
      exact mem_singleton_self i
    · rintro rfl
      refine h.use.named t (i, g) ?_
      rw [ht]
      exact mem_singleton_self _
  · intro t i g empty ht
    refine ⟨?_, ?_⟩
    · refine h.use.named t (i, g) ?_
      rw [ht]
      exact mem_singleton_self _
    · intro c i' g' tmp empty' hcross
      have hrun : (Cache.init.runAll events : Cache Task).run t c =
          (Cache.init.runAll events : Cache Task).getFound t i g empty := by
        unfold Cache.run
        rw [ht]
      rw [hrun] at hcross
      obtain ⟨hg, hmount⟩ := crossed_mount ht hcross
      exact ⟨hg, hmount, h.use.mounts i tmp hmount⟩

end

def mountRun : List (Event Unit) :=
  let go : Event Unit := .run () ⟨true, false, some 4⟩
  let iget (dev : ℕ) : Event Unit := .iget () ⟨⟨dev, false, false, false⟩, 2, true⟩
  iget 1 :: List.replicate 8 go ++ iget 2 :: List.replicate 6 go ++
    .mount 3 2 :: iget 1 :: List.replicate 5 go

theorem mountRun_runOk : RunOk Cache.init mountRun := by
  have hall : ∀ events : List (Event Unit), (∀ e ∈ events, ∀ s, e.Ok s) → ∀ s, RunOk s events := by
    intro events
    induction events with
    | nil => exact fun _ _ => trivial
    | cons e events ih =>
      intro hok s
      exact ⟨hok e mem_cons_self s, ih (fun e he => hok e (mem_cons_of_mem _ he)) _⟩
  exact hall mountRun (by simp [mountRun, Event.Ok]) _

theorem run_inodes_unique_mountRun :
    RunOk Cache.init mountRun ∧
      (Cache.init.runAll mountRun).nrFree = (Cache.init.runAll mountRun).freeInodes.card :=
  ⟨mountRun_runOk, (run_inodes_unique mountRun_runOk).2.1⟩

/-- Inodes that are on no chain share a name, and `__iget` returns one of another device. -/
theorem mountRun_not_unique :
    let s := Cache.init.runAll mountRun
    (0 < s.nrInodes ∧ 1 < s.nrInodes ∧ (s.inodes 0).dev = (s.inodes 1).dev ∧
      (s.inodes 0).ino = (s.inodes 1).ino) ∧
    s.phase () = .getReturn 2 ⟨⟨1, false, false, false⟩, 2, true⟩ true ∧ (s.inodes 2).dev = 2 := by
  refine ⟨by decide, rfl, by decide⟩

end LinuxKernel.InodeCache
