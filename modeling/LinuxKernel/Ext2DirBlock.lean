import LinuxKernel.Ext2DirModel

/-!
# What the operations do to a directory block

Adding a record changes no entry, and deleting a record takes away its own entry only.
-/

namespace LinuxKernel.Ext2Dir
open List

section

variable {b b' pre post : Block} {de : DirEntry} {name : Name} {o i ino blocksize : ℕ}

@[simp]
theorem entries_append (b b' : Block) : entries (b ++ b') = entries b ++ entries b' := by
  simp [entries]

theorem entries_cons_free (h : de.inode = 0) (b : Block) : entries (de :: b) = entries b := by
  simp [entries, h]

theorem entries_cons_used (h : de.inode ≠ 0) (b : Block) :
    entries (de :: b) = (de.name, de.inode) :: entries b := by
  simp [entries, h]

theorem entries_cons_recLen (de : DirEntry) (n : ℕ) (b : Block) :
    entries ({ de with recLen := n } :: b) = entries (de :: b) := by
  by_cases h : de.inode = 0
  · simp [entries, h]
  · simp [entries, h]

@[simp]
theorem size_nil : size [] = 0 := rfl

@[simp]
theorem size_cons (de : DirEntry) (b : Block) : size (de :: b) = de.recLen + size b := by
  simp [size]

@[simp]
theorem size_append (b b' : Block) : size (b ++ b') = size b + size b' := by
  simp [size]

def Wf (b : Block) : Prop := ∀ de ∈ b, de.check = true ∧ (de.inode ≠ 0 → de.name ≠ [])

theorem Wf.of_cons (h : Wf (de :: b)) : Wf b := fun de' hde => h de' (mem_cons_of_mem _ hde)

theorem Wf.cons (hde : de.check = true ∧ (de.inode ≠ 0 → de.name ≠ [])) (h : Wf b) :
    Wf (de :: b) := by
  intro de' hmem
  rcases mem_cons.mp hmem with rfl | hmem
  · exact hde
  · exact h de' hmem

theorem check_iff : de.check = true ↔
    dirRecLen 1 ≤ de.recLen ∧ de.recLen % 4 = 0 ∧ dirRecLen de.name.length ≤ de.recLen := by
  simp [DirEntry.check, and_assoc]

theorem dirRecLen_mod (n : ℕ) : dirRecLen n % 4 = 0 := Nat.mul_mod_left _ _

theorem dirRecLen_one_le (h : name ≠ []) : dirRecLen 1 ≤ dirRecLen name.length := by
  have hpos := length_pos_iff.mpr h
  unfold dirRecLen
  omega

theorem recLen_pos (h : de.check = true) : 0 < de.recLen := by
  have := (check_iff.mp h).1
  unfold dirRecLen at this
  omega

theorem recordAt_some (h : recordAt o i b = some de) :
    ∃ pre post, b = pre ++ de :: post ∧ i + size pre = o ∧
      ∀ k, setInode o k i b = pre ++ { de with inode := k } :: post := by
  induction b generalizing i with
  | nil => simp [recordAt] at h
  | cons d b ih =>
    rw [recordAt] at h
    split at h
    · next hi =>
      obtain rfl : d = de := by simpa using h
      refine ⟨[], b, rfl, hi, fun k => ?_⟩
      rw [setInode, if_pos hi]
      rfl
    · next hi =>
      obtain ⟨pre, post, rfl, hsize, hset⟩ := ih h
      refine ⟨d :: pre, post, rfl, by rw [size_cons]; omega, fun k => ?_⟩
      rw [setInode, if_neg hi, hset k]
      rfl

theorem recordAt_append (hwf : Wf pre) : recordAt (i + size pre) i
    (pre ++ de :: post) = some de := by
  induction pre generalizing i with
  | nil => simp [recordAt]
  | cons d pre ih =>
    have hpos := recLen_pos (hwf d (mem_cons_self ..)).1
    rw [cons_append, recordAt, if_neg (by rw [size_cons]; omega), size_cons, ← Nat.add_assoc]
    exact ih hwf.of_cons

theorem deleteAfter_ok {pde : DirEntry} (h : deleteAfter o pde i b = .ok b') :
    ∃ pre de post, b = pre ++ de :: post ∧ i + size pre = o ∧
      entries b' = entries (pde :: pre ++ post) ∧ (Wf (pde :: b) → Wf b') := by
  induction b generalizing i pde b' with
  | nil => simp [deleteAfter] at h
  | cons d b ih =>
    rw [deleteAfter] at h
    split at h
    · simp at h
    · split at h
      · next hi =>
        obtain rfl : { pde with recLen := pde.recLen + d.recLen } :: b = b' := by simpa using h
        refine ⟨[], d, b, rfl, hi, entries_cons_recLen pde _ b, ?_⟩
        · intro hwf
          have hpde := hwf pde (mem_cons_self ..)
          have hd := hwf.of_cons d (mem_cons_self ..)
          refine hwf.of_cons.of_cons.cons ⟨?_, hpde.2⟩
          have hp := check_iff.mp hpde.1
          have hd := check_iff.mp hd.1
          rw [check_iff]
          dsimp only
          omega
      · cases hrest : deleteAfter o d (i + d.recLen) b with
        | error e =>
          rw [hrest] at h
          simp at h
        | ok b1 =>
          rw [hrest] at h
          obtain rfl : pde :: b1 = b' := by simpa using h
          obtain ⟨pre, de, post, rfl, hsize, hentries, hwf⟩ := ih hrest
          refine ⟨d :: pre, de, post, rfl, by rw [size_cons]; omega, ?_, ?_⟩
          · by_cases hfree : pde.inode = 0
            · rw [entries_cons_free hfree, hentries, cons_append, cons_append,
                entries_cons_free hfree, cons_append]
            · rw [entries_cons_used hfree, hentries, cons_append, cons_append,
                entries_cons_used hfree, cons_append]
          · intro h'
            exact (hwf h'.of_cons).cons (h' pde (mem_cons_self ..))

theorem deleteEntry_ok (h : deleteEntry o b = .ok b') :
    ∃ pre de post, b = pre ++ de :: post ∧ size pre = o ∧
      entries b' = entries (pre ++ post) ∧ (Wf b → Wf b') := by
  cases b with
  | nil => simp [deleteEntry] at h
  | cons d b =>
    rw [deleteEntry] at h
    split at h
    · simp at h
    · split at h
      · next ho =>
        obtain rfl : { d with inode := 0 } :: b = b' := by simpa using h
        refine ⟨[], d, b, rfl, ho, entries_cons_free rfl b, fun hwf => ?_⟩
        refine hwf.of_cons.cons ⟨?_, fun hne => absurd rfl hne⟩
        exact (hwf d (mem_cons_self ..)).1
      · obtain ⟨pre, de, post, rfl, hsize, hentries, hwf⟩ := deleteAfter_ok h
        exact ⟨d :: pre, de, post, rfl, by rw [size_cons]; exact hsize, hentries, hwf⟩

theorem deleteAfter_error {pde : DirEntry} {e : Err} (hwf : Wf b)
    (h : deleteAfter o pde i b = .error e) : e = .enoent ∧ recordAt o i b = none := by
  induction b generalizing i pde with
  | nil => exact ⟨by simpa [deleteAfter] using h.symm, rfl⟩
  | cons d b ih =>
    rw [deleteAfter, if_neg (by rw [(hwf d (mem_cons_self ..)).1]; decide)] at h
    split at h
    · simp at h
    · next hi =>
      cases hrest : deleteAfter o d (i + d.recLen) b with
      | error e' =>
        rw [hrest] at h
        obtain rfl : e' = e := by simpa using h
        obtain ⟨he, hnone⟩ := ih hwf.of_cons hrest
        exact ⟨he, by rw [recordAt, if_neg hi, hnone]⟩
      | ok b1 =>
        rw [hrest] at h
        simp at h

theorem deleteEntry_error {e : Err} (hwf : Wf b) (h : deleteEntry o b = .error e) :
    e = .enoent ∧ recordAt o 0 b = none := by
  cases b with
  | nil => exact ⟨by simpa [deleteEntry] using h.symm, rfl⟩
  | cons d b =>
    rw [deleteEntry, if_neg (by rw [(hwf d (mem_cons_self ..)).1]; decide)] at h
    split at h
    · simp at h
    · next ho =>
      obtain ⟨he, hnone⟩ := deleteAfter_error hwf.of_cons h
      refine ⟨he, ?_⟩
      rw [recordAt, if_neg ho, Nat.zero_add, hnone]

theorem addEntry_ok (h : addEntry blocksize name i b = .ok (some (b', o))) :
    ∃ pre de post, b' = pre ++ de :: post ∧ i + size pre = o ∧ de.inode = 0 ∧ de.name = name ∧
      entries b = entries (pre ++ post) ∧ (Wf b → name ≠ [] → Wf b') := by
  induction b generalizing i b' with
  | nil => simp [addEntry] at h
  | cons d b ih =>
    rw [addEntry] at h
    split at h
    · simp at h
    split at h
    · simp at h
    split at h
    · next hroom =>
      split at h
      · next hfree =>
        obtain ⟨rfl, rfl⟩ : { d with name := name } :: b = b' ∧ i = o := by simpa using h
        refine ⟨[], _, b, rfl, rfl, hfree, rfl, entries_cons_free hfree b, ?_⟩
        intro hwf hname
        refine hwf.of_cons.cons ⟨?_, fun _ => hname⟩
        have hd := check_iff.mp (hwf d (mem_cons_self ..)).1
        rw [check_iff]
        dsimp only
        exact ⟨hd.1, hd.2.1, by omega⟩
      · next hused =>
        obtain ⟨rfl, rfl⟩ := h
        refine ⟨[{ d with recLen := dirRecLen d.name.length }], _, b, rfl, rfl, rfl, rfl, ?_, ?_⟩
        · exact (entries_cons_recLen d _ b).symm
        · intro hwf hname
          have hd := hwf d (mem_cons_self ..)
          have hcheck := check_iff.mp hd.1
          have hone := dirRecLen_one_le (hd.2 hused)
          have hone' := dirRecLen_one_le hname
          have hmod := dirRecLen_mod d.name.length
          refine ((hwf.of_cons).cons ⟨?_, fun hne => absurd rfl hne⟩).cons ⟨?_, hd.2⟩
          · rw [check_iff]
            dsimp only
            omega
          · rw [check_iff]
            dsimp only
            omega
    · cases hrest : addEntry blocksize name (i + d.recLen) b with
      | error e =>
        rw [hrest] at h
        simp at h
      | ok r =>
        rw [hrest] at h
        cases r with
        | none => simp at h
        | some p =>
          obtain ⟨rfl, rfl⟩ := h
          obtain ⟨pre, de, post, hb, hsize, hinode, hdname, hentries, hwf⟩ := ih hrest
          refine ⟨d :: pre, de, post, by rw [hb]; rfl, by rw [size_cons]; omega, hinode, hdname,
            ?_, ?_⟩
          · by_cases hfree : d.inode = 0
            · rw [cons_append, entries_cons_free hfree, entries_cons_free hfree, hentries]
            · rw [cons_append, entries_cons_used hfree, entries_cons_used hfree, hentries]
          · intro h' hname
            exact (hwf h'.of_cons hname).cons (h' d (mem_cons_self ..))

theorem split_unique {pre' post' : Block} {de' : DirEntry} (hwf : Wf (pre ++ de :: post))
    (h : pre ++ de :: post = pre' ++ de' :: post') (hsize : size pre = size pre') :
    pre = pre' ∧ de = de' ∧ post = post' := by
  induction pre generalizing pre' with
  | nil =>
    cases pre' with
    | nil => simpa using h
    | cons d' pre' =>
      obtain ⟨rfl, -⟩ : de = d' ∧ post = pre' ++ de' :: post' := by simpa using h
      have hpos := recLen_pos (hwf de (mem_cons_self ..)).1
      rw [size_nil, size_cons] at hsize
      omega
  | cons d pre ih =>
    cases pre' with
    | nil =>
      have hpos := recLen_pos (hwf d (mem_cons_self ..)).1
      rw [size_nil, size_cons] at hsize
      omega
    | cons d' pre' =>
      obtain ⟨rfl, htail⟩ : d = d' ∧ pre ++ de :: post = pre' ++ de' :: post' := by simpa using h
      rw [size_cons, size_cons] at hsize
      obtain ⟨rfl, hrest⟩ := ih hwf.of_cons htail (by omega)
      exact ⟨rfl, hrest⟩

theorem Wf.setInode_of (hwf : Wf b) (hrec : recordAt o i b = some de) (hname : de.name ≠ [])
    (k : ℕ) : Wf (setInode o k i b) := by
  obtain ⟨pre, post, rfl, -, hset⟩ := recordAt_some hrec
  rw [hset k]
  intro d hd
  rcases mem_append.mp hd with hd | hd
  · exact hwf d (mem_append_left _ hd)
  · rcases mem_cons.mp hd with rfl | hd
    · exact ⟨(hwf de (by simp)).1, fun _ => hname⟩
    · exact hwf d (by simp [hd])

theorem entries_delete_of_free (hwf : Wf b) (hrec : recordAt o 0 b = some de)
    (hfree : de.inode = 0) {k : ℕ} (hwf' : Wf (setInode o k 0 b))
    (h : deleteEntry o (setInode o k 0 b) = .ok b') : entries b' = entries b := by
  obtain ⟨pre, post, rfl, hsize, hset⟩ := recordAt_some hrec
  obtain ⟨pre', de', post', hsplit, hsize', hentries, -⟩ := deleteEntry_ok h
  rw [hset k] at hsplit hwf'
  obtain ⟨rfl, -, rfl⟩ := split_unique hwf' hsplit (by omega)
  rw [hentries, entries_append, entries_append, entries_cons_free hfree]

theorem setInode_self (hrec : recordAt o i b = some de) : setInode o de.inode i b = b := by
  obtain ⟨pre, post, hb, -, hset⟩ := recordAt_some hrec
  rw [hset de.inode, hb]

theorem recordAt_setInode (o' k : ℕ) :
    recordAt o i (setInode o' k i b) = (recordAt o i b).map fun de =>
      if o = o' then { de with inode := k } else de := by
  induction b generalizing i with
  | nil => rfl
  | cons d b ih =>
    rw [setInode]
    by_cases hi' : i = o'
    · rw [if_pos hi', recordAt, recordAt]
      by_cases hi : i = o
      · rw [if_pos hi, if_pos hi, Option.map_some, if_pos (hi.symm.trans hi')]
      · have hne : o ≠ o' := fun heq => hi (hi'.trans heq.symm)
        rw [if_neg hi, if_neg hi, Option.map_congr (fun x _ => if_neg hne), Option.map_id']
    · rw [if_neg hi', recordAt, recordAt]
      by_cases hi : i = o
      · rw [if_pos hi, if_pos hi, Option.map_some, if_neg (fun heq => hi' (hi.trans heq))]
      · rw [if_neg hi, if_neg hi, ih]

theorem deleteEntry_of_none (hwf : Wf b) (hrec : recordAt o 0 b = none) :
    deleteEntry o b = .error .enoent := by
  cases h : deleteEntry o b with
  | error e => rw [(deleteEntry_error hwf h).1]
  | ok b' =>
    obtain ⟨pre, de, post, rfl, rfl, -, -⟩ := deleteEntry_ok h
    have hpre : Wf pre := fun d hd => hwf d (mem_append_left _ hd)
    have hsome : recordAt (0 + size pre) 0 (pre ++ de :: post) = some de := recordAt_append hpre
    rw [Nat.zero_add, hrec] at hsome
    exact absurd hsome (by simp)

theorem findEntry_some (h : findEntry blocksize name i b = some (o, ino)) :
    ∃ pre de post, b = pre ++ de :: post ∧ i + size pre = o ∧ de.inode = ino ∧
      de.matches name = true ∧ ∀ d ∈ pre, d.matches name = false := by
  induction b generalizing i with
  | nil => simp [findEntry] at h
  | cons d b ih =>
    rw [findEntry] at h
    split at h
    · simp at h
    split at h
    · next hmatch =>
      obtain ⟨rfl, rfl⟩ : i = o ∧ d.inode = ino := by simpa using h
      exact ⟨[], d, b, rfl, rfl, rfl, hmatch, fun _ hd => by simp at hd⟩
    · next hmatch =>
      obtain ⟨pre, de, post, rfl, hsize, hino, hde, hpre⟩ := ih h
      refine ⟨d :: pre, de, post, rfl, by rw [size_cons]; omega, hino, hde, ?_⟩
      intro d' hd'
      rcases mem_cons.mp hd' with rfl | hd'
      · simpa using hmatch
      · exact hpre d' hd'

theorem inode_ne_zero_of_matches (h : de.matches name = true) : de.inode ≠ 0 := by
  intro hzero
  simp [DirEntry.matches, hzero] at h

end

end LinuxKernel.Ext2Dir
