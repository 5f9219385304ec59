import LinuxKernel.InodeTable

/-!
# The references to inodes

The count of an inode is the number of references to it: those held outside of the calls,
those of the processes inside, and those that `iput` has left counted.  A process that is on
its way out of `__iget` has a reference to the inode it has looked for, so that nobody clears
it; an empty inode that `__iget` keeps has one reference and is on no chain.
-/

namespace LinuxKernel.InodeCache
open Function List

def PutReturn.refs : PutReturn → List ℕ
  | .user => []
  | .again _ empty => empty.toList
  | .crossed _ tmp empty => tmp :: empty.toList
  | .done _ inode _ => [inode]

def PutReturn.empties : PutReturn → List ℕ
  | .again _ empty => empty.toList
  | .crossed _ _ empty => empty.toList
  | _ => []

def PutReturn.named : PutReturn → List (ℕ × GetArgs)
  | .done g inode false => [(inode, g)]
  | _ => []

def Phase.refs : Phase → List ℕ
  | .put i k => i :: k.refs
  | .putRepeat i k => i :: k.refs
  | .putFs i k => i :: k.refs
  | .putWrite i k => i :: k.refs
  | .putWriting i k => i :: k.refs
  | .putWritten i k => i :: k.refs
  | .getRepeat _ e => e.toList
  | .getFound i _ e => i :: e.toList
  | .getCross i _ e => i :: e.toList
  | .getRead i _ => [i]
  | .getReading i _ => [i]
  | .getReturn i _ _ => [i]
  | _ => []

def Phase.empties : Phase → List ℕ
  | .put _ k => k.empties
  | .putRepeat _ k => k.empties
  | .putFs _ k => k.empties
  | .putWrite _ k => k.empties
  | .putWriting _ k => k.empties
  | .putWritten _ k => k.empties
  | .getRepeat _ e => e.toList
  | .getFound _ _ e => e.toList
  | .getCross _ _ e => e.toList
  | _ => []

def Phase.named : Phase → List (ℕ × GetArgs)
  | .put _ k => k.named
  | .putRepeat _ k => k.named
  | .putFs _ k => k.named
  | .putWrite _ k => k.named
  | .putWriting _ k => k.named
  | .putWritten _ k => k.named
  | .getFound i g _ => [(i, g)]
  | .getRead i g => [(i, g)]
  | .getReading i g => [(i, g)]
  | .getReturn i g false => [(i, g)]
  | _ => []

def Phase.touched : Phase → List ℕ
  | .emptyWait i _ => [i]
  | .emptyWrite i _ => [i]
  | .emptyWriting i _ => [i]
  | _ => []

theorem PutReturn.empties_subset (k : PutReturn) : ∀ e ∈ k.empties, e ∈ k.refs := by
  cases k with
  | crossed g tmp e => exact fun x hx => mem_cons_of_mem tmp hx
  | again g e => exact fun x hx => hx
  | user => simp [PutReturn.empties]
  | done g i c => simp [PutReturn.empties]

theorem PutReturn.named_subset (k : PutReturn) : ∀ x ∈ k.named, x.1 ∈ k.refs := by
  rcases k with _ | _ | _ | ⟨g, inode, _ | _⟩ <;> simp [PutReturn.named, PutReturn.refs]

theorem Phase.empties_subset (phase : Phase) : ∀ e ∈ phase.empties, e ∈ phase.refs := by
  have hk := PutReturn.empties_subset
  cases phase <;> simp only [Phase.empties, Phase.refs] <;> grind

theorem Phase.named_subset (phase : Phase) : ∀ x ∈ phase.named, x.1 ∈ phase.refs := by
  have hk := PutReturn.named_subset
  cases phase
  case getReturn i g c => cases c <;> simp [Phase.named, Phase.refs]
  all_goals
    simp only [Phase.named, Phase.refs]
    grind

def PutReturn.phase : PutReturn → Phase
  | .user => .idle
  | .again g empty => .getRepeat g empty
  | .crossed g tmp empty => .getCross tmp g empty
  | .done g inode c => .getReturn inode g c

@[simp] theorem PutReturn.refs_phase (k : PutReturn) : k.phase.refs = k.refs := by
  cases k <;> rfl

@[simp] theorem PutReturn.empties_phase (k : PutReturn) : k.phase.empties = k.empties := by
  cases k <;> rfl

@[simp] theorem PutReturn.touched_phase (k : PutReturn) : k.phase.touched = [] := by
  cases k <;> rfl

@[simp] theorem PutReturn.named_phase (k : PutReturn) : k.phase.named = k.named := by
  rcases k with _ | _ | _ | ⟨g, inode, _ | _⟩ <;> rfl

def Named {Task : Type} (s : Cache Task) (i : ℕ) (g : GetArgs) : Prop :=
  (s.inodes i).dev = g.sb.dev ∧ (s.inodes i).ino = g.nr ∧ i ∈ s.bucket g.hash

section

variable {Task : Type} [Fintype Task]

def Cache.inUse (s : Cache Task) (j : ℕ) : ℕ := ∑ t, (s.phase t).refs.count j

structure UseOk (s : Cache Task) : Prop where
  counts : ∀ j, (s.inodes j).count = s.held j + s.inUse j + s.lost j
  mounts : ∀ i r, (s.inodes i).mount = some r → 0 < s.held r
  named : ∀ t, ∀ x ∈ (s.phase t).named, Named s x.1 x.2
  empties : ∀ t, ∀ e ∈ (s.phase t).empties, (s.inodes e).count = 1 ∧ ∀ b, e ∉ s.bucket b
  touched : ∀ t, ∀ i ∈ (s.phase t).touched, i < s.nrInodes

variable {s s' : Cache Task} {t : Task}

theorem count_le_inUse (s : Cache Task) (t : Task) (j : ℕ) : (s.phase t).refs.count j ≤ s.inUse j :=
  Finset.single_le_sum (f := fun t => (s.phase t).refs.count j) (fun _ _ => Nat.zero_le _)
    (Finset.mem_univ t)

variable {j : ℕ} {phase : Phase}

theorem UseOk.count_pos (h : UseOk s) (hj : j ∈ (s.phase t).refs) : 0 < (s.inodes j).count := by
  have hin := count_le_inUse s t j
  have hpos := count_pos_iff.2 hj
  have := h.counts j
  omega

theorem UseOk.count_two (h : UseOk s) {u : Task} (hu : u ≠ t) (ht : j ∈ (s.phase t).refs)
    (hj : j ∈ (s.phase u).refs) : 2 ≤ (s.inodes j).count := by
  classical
  have hpair : (s.phase t).refs.count j + (s.phase u).refs.count j ≤ s.inUse j := by
    have hsub := Finset.sum_le_sum_of_subset (f := fun t => (s.phase t).refs.count j)
      (Finset.subset_univ {t, u})
    rwa [Finset.sum_pair hu.symm] at hsub
  have h1 := count_pos_iff.2 ht
  have h2 := count_pos_iff.2 hj
  have := h.counts j
  omega

theorem UseOk.empty_private (h : UseOk s) {e : ℕ} (he : e ∈ (s.phase t).empties) :
    s.held e = 0 ∧ ∀ u, u ≠ t → e ∉ (s.phase u).refs := by
  have hone := (h.empties t e he).1
  have href := (s.phase t).empties_subset e he
  have hpos := count_pos_iff.2 href
  have hin := count_le_inUse s t e
  have hcount := h.counts e
  refine ⟨by omega, ?_⟩
  intro u hu hmem
  have := h.count_two hu href hmem
  omega

theorem inUse_update [DecidableEq Task] (s : Cache Task)
    (hphase : s'.phase = update s.phase t phase) (j : ℕ) :
    s'.inUse j + (s.phase t).refs.count j = s.inUse j + phase.refs.count j := by
  unfold Cache.inUse
  rw [hphase, ← Finset.add_sum_erase _ _ (Finset.mem_univ t),
    ← Finset.add_sum_erase (f := fun t => (s.phase t).refs.count j) _ (Finset.mem_univ t),
    update_self]
  have hrest : ∑ u ∈ Finset.univ.erase t, (update s.phase t phase u).refs.count j =
      ∑ u ∈ Finset.univ.erase t, (s.phase u).refs.count j := by
    apply Finset.sum_congr rfl
    intro u hu
    rw [update_of_ne (Finset.ne_of_mem_erase hu)]
  omega

theorem UseOk.move [DecidableEq Task] (h : UseOk s) (t : Task)
    (hphase : s'.phase = update s.phase t phase) (hnr : s.nrInodes ≤ s'.nrInodes)
    (hbalance : ∀ j, (s'.inodes j).count + s.held j + (s.phase t).refs.count j + s.lost j =
      (s.inodes j).count + s'.held j + phase.refs.count j + s'.lost j)
    (hmounts : ∀ i r, (s'.inodes i).mount = some r → 0 < s'.held r)
    (hname : ∀ u, u ≠ t → ∀ j ∈ (s.phase u).refs, (s'.inodes j).dev = (s.inodes j).dev ∧
      (s'.inodes j).ino = (s.inodes j).ino ∧ ∀ b, j ∈ s'.bucket b ↔ j ∈ s.bucket b)
    (hempty : ∀ u, u ≠ t → ∀ j ∈ (s.phase u).empties, (s'.inodes j).count = (s.inodes j).count)
    (hnamed : ∀ x ∈ phase.named, Named s' x.1 x.2)
    (hempties : ∀ e ∈ phase.empties, (s'.inodes e).count = 1 ∧ ∀ b, e ∉ s'.bucket b)
    (htouched : ∀ i ∈ phase.touched, i < s'.nrInodes) : UseOk s' := by
  have hself : s'.phase t = phase := by rw [hphase, update_self]
  have hother : ∀ u, u ≠ t → s'.phase u = s.phase u := by
    intro u hu
    rw [hphase, update_of_ne hu]
  refine ⟨?_, hmounts, ?_, ?_, ?_⟩
  · intro j
    have hin := inUse_update s hphase j
    have hold := h.counts j
    have := hbalance j
    omega
  · intro u x hx
    by_cases hu : u = t
    · rw [hu, hself] at hx
      exact hnamed x hx
    · rw [hother u hu] at hx
      obtain ⟨hdev, hino, hbucket⟩ := hname u hu x.1 ((s.phase u).named_subset x hx)
      obtain ⟨h1, h2, h3⟩ := h.named u x hx
      exact ⟨hdev.trans h1, hino.trans h2, (hbucket _).2 h3⟩
  · intro u e he
    by_cases hu : u = t
    · rw [hu, hself] at he
      exact hempties e he
    · rw [hother u hu] at he
      obtain ⟨-, -, hbucket⟩ := hname u hu e ((s.phase u).empties_subset e he)
      obtain ⟨hone, hnot⟩ := h.empties u e he
      refine ⟨(hempty u hu e he).trans hone, ?_⟩
      intro b hb
      exact hnot b ((hbucket b).1 hb)
  · intro u i hi
    by_cases hu : u = t
    · rw [hu, hself] at hi
      exact htouched i hi
    · rw [hother u hu] at hi
      exact (h.touched u i hi).trans_le hnr

theorem UseOk.frame (h : UseOk s) (hphase : s'.phase = s.phase)
    (hnr : s.nrInodes ≤ s'.nrInodes)
    (hbalance : ∀ j, (s'.inodes j).count + s.held j + s.lost j =
      (s.inodes j).count + s'.held j + s'.lost j)
    (hmounts : ∀ i r, (s'.inodes i).mount = some r → 0 < s'.held r)
    (hname : ∀ u, ∀ j ∈ (s.phase u).refs, (s'.inodes j).dev = (s.inodes j).dev ∧
      (s'.inodes j).ino = (s.inodes j).ino ∧ ∀ b, j ∈ s'.bucket b ↔ j ∈ s.bucket b)
    (hempty : ∀ u, ∀ j ∈ (s.phase u).empties, (s'.inodes j).count = (s.inodes j).count) :
    UseOk s' := by
  refine ⟨?_, hmounts, ?_, ?_, ?_⟩
  · intro j
    have hin : s'.inUse j = s.inUse j := by
      unfold Cache.inUse
      rw [hphase]
    have hold := h.counts j
    have := hbalance j
    omega
  · intro u x hx
    rw [hphase] at hx
    obtain ⟨hdev, hino, hbucket⟩ := hname u x.1 ((s.phase u).named_subset x hx)
    obtain ⟨h1, h2, h3⟩ := h.named u x hx
    exact ⟨hdev.trans h1, hino.trans h2, (hbucket _).2 h3⟩
  · intro u e he
    rw [hphase] at he
    obtain ⟨-, -, hbucket⟩ := hname u e ((s.phase u).empties_subset e he)
    obtain ⟨hone, hnot⟩ := h.empties u e he
    refine ⟨(hempty u e he).trans hone, ?_⟩
    intro b hb
    exact hnot b ((hbucket b).1 hb)
  · intro u i hi
    rw [hphase] at hi
    exact (h.touched u i hi).trans_le hnr

structure CacheOk (s : Cache Task) : Prop where
  table : TableOk s
  use : UseOk s

theorem CacheOk.lt_of_count_pos (h : CacheOk s) (hj : 0 < (s.inodes j).count) : j < s.nrInodes := by
  by_contra hge
  rw [h.table.beyond j (by omega)] at hj
  exact absurd hj (by decide)

theorem CacheOk.ref_lt (h : CacheOk s) (hj : j ∈ (s.phase t).refs) : j < s.nrInodes :=
  h.lt_of_count_pos (h.use.count_pos hj)

theorem CacheOk.setInode (h : CacheOk s) {i : ℕ} (hi : i < s.nrInodes) {x : Inode}
    (hdev : x.dev = (s.inodes i).dev) (hino : x.ino = (s.inodes i).ino)
    (hcount : x.count = (s.inodes i).count)
    (hmount : ∀ r, x.mount = some r → 0 < s.held r) : CacheOk (s.setInode i x) := by
  have hsame : ∀ j, ((s.setInode i x).inodes j).dev = (s.inodes j).dev ∧
      ((s.setInode i x).inodes j).ino = (s.inodes j).ino ∧
      ((s.setInode i x).inodes j).count = (s.inodes j).count := by
    intro j
    unfold Cache.setInode
    by_cases hj : j = i
    · subst hj
      simp [hdev, hino, hcount]
    · simp [hj]
  refine ⟨h.table.setInode_of_count hi hdev hino hcount, h.use.frame rfl le_rfl ?_ ?_ ?_ ?_⟩
  · intro j
    rw [(hsame j).2.2]
    rfl
  · intro j r hr
    by_cases hj : j = i
    · subst hj
      refine hmount r ?_
      simpa [Cache.setInode] using hr
    · refine h.use.mounts j r ?_
      simpa [Cache.setInode, hj] using hr
  · intro u j _
    exact ⟨(hsame j).1, (hsame j).2.1, fun b => Iff.rfl⟩
  · intro u j _
    exact (hsame j).2.2

variable [DecidableEq Task]

theorem CacheOk.setPhase (h : CacheOk s) (hrefs : phase.refs.Perm (s.phase t).refs)
    (hnamed : ∀ x ∈ phase.named, x ∈ (s.phase t).named)
    (hempties : ∀ e ∈ phase.empties, e ∈ (s.phase t).empties)
    (htouched : ∀ i ∈ phase.touched, i < s.nrInodes) : CacheOk (s.setPhase t phase) := by
  refine ⟨h.table.congr rfl rfl rfl rfl rfl,
    h.use.move t rfl le_rfl ?_ h.use.mounts ?_ ?_ ?_ ?_ htouched⟩
  · intro j
    rw [hrefs.count_eq]
    rfl
  · intro u _ j _
    exact ⟨rfl, rfl, fun b => Iff.rfl⟩
  · intro u _ j _
    rfl
  · intro x hx
    exact h.use.named t x (hnamed x hx)
  · intro e he
    exact h.use.empties t e (hempties e he)

end

theorem putReturn_eq {Task : Type} [DecidableEq Task] (s : Cache Task) (t : Task)
    (k : PutReturn) : s.putReturn t k = s.setPhase t k.phase := by
  cases k <;> rfl

theorem update_count {Task : Type} (s : Cache Task) (i c j : ℕ) :
    (update s.inodes i { s.inodes i with count := c } j).count =
      if j = i then c else (s.inodes j).count := by
  by_cases hj : j = i
  · subst hj
    simp
  · simp [hj]

theorem update_count_rest {Task : Type} (s : Cache Task) (i c j : ℕ) :
    (update s.inodes i { s.inodes i with count := c } j).dev = (s.inodes j).dev ∧
      (update s.inodes i { s.inodes i with count := c } j).ino = (s.inodes j).ino ∧
      (update s.inodes i { s.inodes i with count := c } j).mount = (s.inodes j).mount := by
  by_cases hj : j = i
  · subst hj
    simp
  · simp [hj]

section

variable {Task : Type} [Fintype Task] [DecidableEq Task] {s : Cache Task} {t : Task} {i : ℕ}
  {k : PutReturn}

structure Putting (s : Cache Task) (t : Task) (i : ℕ) (k : PutReturn) : Prop where
  refs : (s.phase t).refs = i :: k.refs
  named : (s.phase t).named = k.named
  empties : (s.phase t).empties = k.empties

theorem CacheOk.drop (h : CacheOk s) (hput : Putting s t i k) {m : ℤ}
    (hm : m = s.nrFree + if (s.inodes i).count = 1 then 1 else 0) :
    CacheOk ({ s.setInode i { s.inodes i with count := (s.inodes i).count - 1 } with
      nrFree := m }.putReturn t k) := by
  have hmem : i ∈ (s.phase t).refs := by
    rw [hput.refs]
    exact mem_cons_self
  have hpos := h.use.count_pos hmem
  have hi := h.ref_lt hmem
  rw [putReturn_eq]
  refine ⟨?_, ?_⟩
  · refine TableOk.congr (h.table.setInode hi rfl rfl (m := m)
      (x := { s.inodes i with count := (s.inodes i).count - 1 }) ?_) rfl rfl rfl rfl rfl
    dsimp only
    split at hm <;> split <;> split <;> omega
  · have hcount := update_count s i ((s.inodes i).count - 1)
    have hrest := update_count_rest s i ((s.inodes i).count - 1)
    refine h.use.move t rfl le_rfl ?_ ?_ ?_ ?_ ?_ ?_ (by simp)
    · intro j
      change (update s.inodes i _ j).count + _ + _ + _ = _ + s.held j + _ + s.lost j
      rw [hcount, PutReturn.refs_phase, hput.refs]
      by_cases hj : j = i
      · subst hj
        rw [if_pos rfl, count_cons_self]
        omega
      · rw [if_neg hj, count_cons_of_ne (Ne.symm hj)]
    · intro j r hr
      change (update s.inodes i _ j).mount = some r at hr
      rw [(hrest j).2.2] at hr
      exact h.use.mounts j r hr
    · intro u _ j _
      exact ⟨(hrest j).1, (hrest j).2.1, fun b => Iff.rfl⟩
    · -- nobody else has the inode as an empty one
      intro u hu j hj
      change (update s.inodes i _ j).count = _
      rw [hcount, if_neg]
      rintro rfl
      exact (h.use.empty_private hj).2 t hu.symm hmem
    · intro x hx
      rw [PutReturn.named_phase, ← hput.named] at hx
      obtain ⟨h1, h2, h3⟩ := h.use.named t x hx
      exact ⟨(hrest x.1).1.trans h1, (hrest x.1).2.1.trans h2, h3⟩
    · intro e he
      rw [PutReturn.empties_phase, ← hput.empties] at he
      obtain ⟨hone, hnot⟩ := h.use.empties t e he
      refine ⟨?_, hnot⟩
      change (update s.inodes i _ e).count = 1
      rw [hcount, if_neg, hone]
      -- the references of the process to its empty inode and to this one are two
      rintro rfl
      have hin := count_le_inUse s t e
      have htwo : 2 ≤ (s.phase t).refs.count e := by
        rw [hput.refs, count_cons_self]
        rw [hput.empties] at he
        have := count_pos_iff.2 (k.empties_subset e he)
        omega
      have := h.use.counts e
      omega

end

end LinuxKernel.InodeCache
