import LinuxKernel.InodeModel

/-!
# The hash chains and the counter of free inodes

An inode is on the chain of its device and number, no two inodes on the chains have the
same, and `nr_free_inodes` is the number of inodes with count 0.  Every change that the
calls make to the table keeps this.
-/

namespace LinuxKernel.InodeCache
open Function List

section

variable {Task : Type} {s s' : Cache Task} {i : ℕ}

def Cache.freeInodes (s : Cache Task) : Finset ℕ :=
  (Finset.range s.nrInodes).filter fun i => (s.inodes i).count = 0

def Cache.Hashed (s : Cache Task) (i : ℕ) : Prop :=
  i ∈ s.bucket (hashfn (s.inodes i).dev (s.inodes i).ino)

structure TableOk (s : Cache Task) : Prop where
  ring : ∀ i ∈ s.ring, i < s.nrInodes
  beyond : ∀ i, s.nrInodes ≤ i → s.inodes i = Inode.blank
  free : s.nrFree = s.freeInodes.card
  chain : ∀ b, ∀ i ∈ s.bucket b, i < s.nrInodes ∧ hashfn (s.inodes i).dev (s.inodes i).ino = b
  nodup : ∀ b, (s.bucket b).Nodup
  unique : ∀ i j, s.Hashed i → s.Hashed j → (s.inodes i).dev = (s.inodes j).dev →
    (s.inodes i).ino = (s.inodes j).ino → i = j

theorem TableOk.congr (h : TableOk s) (hinodes : s'.inodes = s.inodes)
    (hnr : s'.nrInodes = s.nrInodes) (hfree : s'.nrFree = s.nrFree) (hring : s'.ring = s.ring)
    (hbucket : s'.bucket = s.bucket) : TableOk s' := by
  have hset : s'.freeInodes = s.freeInodes := by
    unfold Cache.freeInodes
    rw [hnr, hinodes]
  refine ⟨?_, ?_, ?_, ?_, ?_, ?_⟩
  · rw [hring, hnr]
    exact h.ring
  · rw [hnr, hinodes]
    exact h.beyond
  · rw [hfree, hset]
    exact h.free
  · rw [hbucket, hnr, hinodes]
    exact h.chain
  · rw [hbucket]
    exact h.nodup
  · unfold Cache.Hashed
    rw [hbucket, hinodes]
    exact h.unique

theorem card_filter_update (f : ℕ → Inode) {n : ℕ} (hi : i < n) (x : Inode) :
    (((Finset.range n).filter fun j => (update f i x j).count = 0).card : ℤ) =
      ((Finset.range n).filter fun j => (f j).count = 0).card -
        (if (f i).count = 0 then 1 else 0) + (if x.count = 0 then 1 else 0) := by
  have hmem : i ∈ Finset.range n := Finset.mem_range.2 hi
  have hrest : ((Finset.range n).erase i).filter (fun j => (update f i x j).count = 0) =
      ((Finset.range n).erase i).filter fun j => (f j).count = 0 := by
    apply Finset.filter_congr
    intro j hj
    rw [update_of_ne (Finset.ne_of_mem_erase hj)]
  rw [← Finset.insert_erase hmem, Finset.filter_insert, Finset.filter_insert, hrest, update_self]
  have hnot : i ∉ ((Finset.range n).erase i).filter fun j => (f j).count = 0 := by simp
  by_cases hold : (f i).count = 0
  · by_cases hnew : x.count = 0
    · simp only [hold, hnew, if_true, Finset.card_insert_of_notMem hnot]
      omega
    · simp only [hold, hnew, if_true, if_false, Finset.card_insert_of_notMem hnot]
      omega
  · by_cases hnew : x.count = 0
    · simp only [hold, hnew, if_true, if_false, Finset.card_insert_of_notMem hnot]
      omega
    · simp only [hold, hnew, if_false]
      omega

section
variable {x : Inode} (h : TableOk s) (hi : i < s.nrInodes) (hdev : x.dev = (s.inodes i).dev)
  (hino : x.ino = (s.inodes i).ino)
include h hi hdev hino

theorem TableOk.setInode {m : ℤ} (hm : m = s.nrFree - (if (s.inodes i).count = 0 then 1 else 0) +
      (if x.count = 0 then 1 else 0)) : TableOk { s.setInode i x with nrFree := m } := by
  have hname : ∀ j, (update s.inodes i x j).dev = (s.inodes j).dev ∧
      (update s.inodes i x j).ino = (s.inodes j).ino := by
    intro j
    by_cases hj : j = i
    · subst hj
      simp [hdev, hino]
    · simp [hj]
  refine ⟨h.ring, ?_, ?_, ?_, h.nodup, ?_⟩
  · intro j hj
    change update s.inodes i x j = Inode.blank
    change s.nrInodes ≤ j at hj
    rw [update_of_ne (by omega)]
    exact h.beyond j hj
  · rw [hm, h.free]
    exact (card_filter_update s.inodes hi x).symm
  · intro b j hj
    change j < s.nrInodes ∧ hashfn (update s.inodes i x j).dev
      (update s.inodes i x j).ino = b
    rw [(hname j).1, (hname j).2]
    exact h.chain b j hj
  · intro j k hj hk hjk hjk'
    change j ∈ s.bucket (hashfn (update s.inodes i x j).dev
      (update s.inodes i x j).ino) at hj
    change k ∈ s.bucket (hashfn (update s.inodes i x k).dev
      (update s.inodes i x k).ino) at hk
    change (update s.inodes i x j).dev = (update s.inodes i x k).dev at hjk
    change (update s.inodes i x j).ino = (update s.inodes i x k).ino at hjk'
    rw [(hname j).1, (hname j).2] at hj
    rw [(hname k).1, (hname k).2] at hk
    rw [(hname j).1, (hname k).1] at hjk
    rw [(hname j).2, (hname k).2] at hjk'
    exact h.unique j k hj hk hjk hjk'

theorem TableOk.setInode_of_count (hcount : x.count = (s.inodes i).count) :
    TableOk (s.setInode i x) := by
  refine h.setInode hi hdev hino ?_
  omega

end

theorem mem_bucket_clearInode {b j : ℕ} (h : TableOk s) :
    j ∈ (s.clearInode i).bucket b ↔ j ≠ i ∧ j ∈ s.bucket b := by
  unfold Cache.clearInode
  dsimp only
  by_cases hb : b = hashfn (s.inodes i).dev (s.inodes i).ino
  · rw [hb, update_self, (h.nodup _).mem_erase_iff]
  · rw [update_of_ne hb]
    constructor
    · intro hj
      refine ⟨?_, hj⟩
      rintro rfl
      exact hb (h.chain b j hj).2.symm
    · exact fun hj => hj.2

@[simp] theorem clearInode_inodes_self : (s.clearInode i).inodes i = Inode.blank := update_self ..

theorem clearInode_inodes_of_ne {j : ℕ} (hj : j ≠ i) : (s.clearInode i).inodes j = s.inodes j :=
  update_of_ne hj ..

theorem TableOk.clearInode (h : TableOk s) (hi : i < s.nrInodes) : TableOk (s.clearInode i) := by
  refine ⟨?_, ?_, ?_, ?_, ?_, ?_⟩
  · intro j hj
    rcases mem_cons.1 hj with rfl | hj
    · exact hi
    · exact h.ring j (mem_of_mem_erase hj)
  · intro j hj
    change s.nrInodes ≤ j at hj
    rw [clearInode_inodes_of_ne (by omega)]
    exact h.beyond j hj
  · have hcard := card_filter_update s.inodes hi Inode.blank
    change (if (s.inodes i).count ≠ 0 then s.nrFree + 1 else s.nrFree) =
      ((Finset.range s.nrInodes).filter
        fun j => (update s.inodes i Inode.blank j).count = 0).card
    rw [hcard, h.free]
    unfold Cache.freeInodes
    by_cases hc : (s.inodes i).count = 0
    · simp [hc, Inode.blank]
    · simp [hc, Inode.blank]
  · intro b j hj
    obtain ⟨hne, hj⟩ := (mem_bucket_clearInode h).1 hj
    rw [clearInode_inodes_of_ne hne]
    exact h.chain b j hj
  · intro b
    unfold Cache.clearInode
    dsimp only
    by_cases hb : b = hashfn (s.inodes i).dev (s.inodes i).ino
    · rw [hb, update_self]
      exact (h.nodup _).erase _
    · rw [update_of_ne hb]
      exact h.nodup b
  · intro j k hj hk
    obtain ⟨hji, hj⟩ := (mem_bucket_clearInode h).1 hj
    obtain ⟨hki, hk⟩ := (mem_bucket_clearInode h).1 hk
    rw [clearInode_inodes_of_ne hji] at hj ⊢
    rw [clearInode_inodes_of_ne hki] at hk ⊢
    exact h.unique j k hj hk

theorem TableOk.growInodes (h : TableOk s) (n : ℕ) : TableOk (s.growInodes n) := by
  refine ⟨?_, ?_, ?_, ?_, h.nodup, h.unique⟩
  · intro j hj
    change j < s.nrInodes + n
    rcases mem_append.1 hj with hj | hj
    · rw [mem_reverse, mem_map] at hj
      obtain ⟨k, hk, rfl⟩ := hj
      have := mem_range.1 hk
      omega
    · have := h.ring j hj
      omega
  · intro j hj
    change s.nrInodes + n ≤ j at hj
    exact h.beyond j (by omega)
  · -- all the new inodes are free
    change s.nrFree + n = ((Finset.range (s.nrInodes + n)).filter
      fun j => (s.inodes j).count = 0).card
    have hnew : ((Finset.range (s.nrInodes + n)).filter fun j => (s.inodes j).count = 0) =
        s.freeInodes ∪ Finset.Ico s.nrInodes (s.nrInodes + n) := by
      ext j
      unfold Cache.freeInodes
      simp only [Finset.mem_filter, Finset.mem_range, Finset.mem_union, Finset.mem_Ico]
      constructor
      · rintro ⟨hj, hcount⟩
        rcases Nat.lt_or_ge j s.nrInodes with hlt | hge
        · exact .inl ⟨hlt, hcount⟩
        · exact .inr ⟨hge, hj⟩
      · rintro (⟨hlt, hcount⟩ | ⟨hge, hlt⟩)
        · exact ⟨by omega, hcount⟩
        · exact ⟨hlt, by rw [h.beyond j hge]; rfl⟩
    have hdisjoint : Disjoint s.freeInodes (Finset.Ico s.nrInodes (s.nrInodes + n)) := by
      rw [Finset.disjoint_left]
      intro j hj hj'
      have := Finset.mem_range.1 (Finset.mem_filter.1 hj).1
      have := (Finset.mem_Ico.1 hj').1
      omega
    rw [hnew, Finset.card_union_of_disjoint hdisjoint, Nat.card_Ico, h.free]
    omega
  · intro b j hj
    obtain ⟨hlt, hb⟩ := h.chain b j hj
    exact ⟨Nat.lt_add_right n hlt, hb⟩

variable [DecidableEq Task]

theorem TableOk.getInsert (h : TableOk s) {e : ℕ} (he : e < s.nrInodes)
    (hfresh : ∀ b, e ∉ s.bucket b) {g : GetArgs}
    (hnone : ∀ j ∈ s.bucket g.hash, ¬((s.inodes j).dev = g.sb.dev ∧ (s.inodes j).ino = g.nr))
    (t : Task) : TableOk (s.getInsert t e g) := by
  have hself : (s.getInsert t e g).inodes e =
      { s.inodes e with sb := some g.sb, dev := g.sb.dev, ino := g.nr } := update_self ..
  have hother : ∀ j, j ≠ e → (s.getInsert t e g).inodes j = s.inodes j :=
    fun j hj => update_of_ne hj ..
  have hbucket : ∀ b j, j ∈ (s.getInsert t e g).bucket b ↔ j ∈ s.bucket b ∨ j = e ∧ b = g.hash := by
    intro b j
    change j ∈ update s.bucket g.hash (e :: s.bucket g.hash) b ↔ _
    by_cases hb : b = g.hash
    · subst hb
      rw [update_self, mem_cons]
      tauto
    · rw [update_of_ne hb]
      tauto
  -- an inode on the chains after the step is the new one or an old one with another name
  have hold : ∀ j, j ≠ e → (s.getInsert t e g).Hashed j → s.Hashed j := by
    intro j hj hh
    unfold Cache.Hashed at hh
    rw [hother j hj, hbucket] at hh
    exact hh.resolve_right fun hr => hj hr.1
  have hclash : ∀ j, j ≠ e → s.Hashed j →
      ¬((s.inodes j).dev = g.sb.dev ∧ (s.inodes j).ino = g.nr) := by
    intro j hj hh hname
    refine hnone j ?_ hname
    unfold Cache.Hashed at hh
    rw [hname.1, hname.2] at hh
    exact hh
  refine ⟨?_, ?_, ?_, ?_, ?_, ?_⟩
  · intro j hj
    rcases mem_append.1 hj with hj | hj
    · exact h.ring j (mem_of_mem_erase hj)
    · rw [mem_singleton.1 hj]
      exact he
  · intro j hj
    change s.nrInodes ≤ j at hj
    rw [hother j (by omega)]
    exact h.beyond j hj
  · have hcard := card_filter_update s.inodes he
    change s.nrFree = (((Finset.range s.nrInodes).filter fun j => (update s.inodes e
      { s.inodes e with sb := some g.sb, dev := g.sb.dev, ino := g.nr } j).count = 0).card : ℤ)
    rw [hcard, h.free]
    unfold Cache.freeInodes
    dsimp only
    omega
  · intro b j hj
    rcases (hbucket b j).1 hj with hj | ⟨rfl, rfl⟩
    · have hne : j ≠ e := fun hje => hfresh b (hje ▸ hj)
      rw [hother j hne]
      exact h.chain b j hj
    · rw [hself]
      exact ⟨he, rfl⟩
  · intro b
    change (update s.bucket g.hash (e :: s.bucket g.hash) b).Nodup
    by_cases hb : b = g.hash
    · subst hb
      rw [update_self]
      exact nodup_cons.2 ⟨hfresh _, h.nodup _⟩
    · rw [update_of_ne hb]
      exact h.nodup b
  · intro j k hj hk hdev hino
    by_cases hje : j = e
    · by_cases hke : k = e
      · rw [hje, hke]
      · rw [hje, hself, hother k hke] at hdev hino
        exact absurd ⟨hdev.symm, hino.symm⟩ (hclash k hke (hold k hke hk))
    · by_cases hke : k = e
      · rw [hke, hself, hother j hje] at hdev hino
        exact absurd ⟨hdev, hino⟩ (hclash j hje (hold j hje hj))
      · rw [hother j hje, hother k hke] at hdev hino
        exact h.unique j k (hold j hje hj) (hold k hke hk) hdev hino

end

end LinuxKernel.InodeCache
