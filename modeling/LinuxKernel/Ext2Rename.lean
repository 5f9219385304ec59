import LinuxKernel.Ext2DirBlock
import LinuxKernel.Ext2RenameModel

/-!
# What a failed rename leaves

When a sanity check fails, `try_again` deletes the target entry, also one that was there before.
A rename that fails removes no entry as long as this does not happen to a target that is still
in use.
-/

namespace LinuxKernel.Ext2Dir
open Function List

/-- All blocks are well-formed, and a target that rename has found is an entry. -/
structure Sys.Wf (s : Sys) : Prop where
  blocks : ∀ dir, ∀ b ∈ s.dirs dir, Ext2Dir.Wf b
  target : ∀ old oldIno new newIno, s.phase = .igetNew old oldIno new newIno ∨
    s.phase = .checks old oldIno (some (new, newIno)) → newIno ≠ 0

variable {name : Name}

variable {old : Ptr} {oldIno : ℕ} {stale : Ptr → ℕ}

variable {scribble : Block} {ino : ℕ}

def Keeps (s s' : Sys) : Prop := ∀ dir, ∀ x ∈ s.live dir, x ∈ s'.live dir

section

variable {s s' : Sys} {dir i o : ℕ} {b : Block} {p : Ptr} {de : DirEntry}

theorem Keeps.refl (s : Sys) : Keeps s s := fun _ _ h => h

theorem Keeps.trans {s'' : Sys} (h : Keeps s s') (h' : Keeps s' s'') : Keeps s s'' :=
  fun dir x hx => h' dir x (h dir x hx)

theorem Sys.Wf.block (h : s.Wf) (dir i : ℕ) : Ext2Dir.Wf (s.block dir i) := by
  unfold Sys.block
  rw [getD_eq_getElem?_getD]
  cases hget : (s.dirs dir)[i]? with
  | none => exact fun _ hde => by simp at hde
  | some b => exact h.blocks dir b (mem_of_getElem? hget)

theorem Sys.setBlock_dirs (d : ℕ) : (s.setBlock dir i b).dirs d =
    if d = dir then (s.dirs dir).set i b else s.dirs d := by
  unfold Sys.setBlock
  dsimp only
  by_cases h : d = dir
  · rw [h, update_self, if_pos rfl]
  · rw [update_of_ne h, if_neg h]

theorem Sys.setBlock_block_self (h : i < (s.dirs dir).length) :
    (s.setBlock dir i b).block dir i = b := by
  unfold Sys.block
  rw [Sys.setBlock_dirs, if_pos rfl]
  simp [h]

theorem Sys.lt_of_block_ne_nil (h : s.block dir i ≠ []) : i < (s.dirs dir).length := by
  by_contra hge
  refine h ?_
  unfold Sys.block
  simp [Nat.le_of_not_lt hge]

theorem Sys.setBlock_blocks (h : ∀ dir, ∀ b ∈ s.dirs dir, Ext2Dir.Wf b) (hb : Ext2Dir.Wf b) :
    ∀ d, ∀ b' ∈ (s.setBlock dir i b).dirs d, Ext2Dir.Wf b' := by
  intro d b' hb'
  rw [Sys.setBlock_dirs] at hb'
  split at hb'
  · rcases mem_or_eq_of_mem_set hb' with hold | rfl
    · exact h dir b' hold
    · exact hb
  · exact h d b' hb'

theorem Sys.setBlock_wf (h : s.Wf) (hb : Ext2Dir.Wf b) : (s.setBlock dir i b).Wf :=
  ⟨Sys.setBlock_blocks h.blocks hb, h.target⟩

theorem Sys.setBlock_keeps (h : ∀ x ∈ entries (s.block dir i), x ∈ entries b) :
    Keeps s (s.setBlock dir i b) := by
  intro d x hx
  unfold Sys.live at hx ⊢
  rw [Sys.setBlock_dirs]
  split
  · next hd =>
    subst hd
    rw [mem_flatMap] at hx ⊢
    obtain ⟨b', hb', hx⟩ := hx
    obtain ⟨j, hj, rfl⟩ := mem_iff_getElem.mp hb'
    by_cases hji : j = i
    · subst hji
      refine ⟨b, mem_set hj b, h x ?_⟩
      unfold Sys.block
      simpa [hj] using hx
    · refine ⟨(s.dirs d)[j], ?_, hx⟩
      rw [mem_iff_getElem]
      exact ⟨j, by simpa using hj, getElem_set_ne (Ne.symm hji) _⟩
  · exact hx

theorem Sys.delete_ok (h : deleteEntry p.offset (s.block p.dir p.block) = .ok b) :
    s.delete p = (s.setBlock p.dir p.block b, none) := by
  unfold Sys.delete
  rw [h]

theorem Sys.delete_error {e : Err} (h : deleteEntry p.offset (s.block p.dir p.block) = .error e) :
    s.delete p = (s, some e) := by
  unfold Sys.delete
  rw [h]

theorem Sys.delete_wf (h : s.Wf) (p : Ptr) : (s.delete p).1.Wf := by
  cases hdel : deleteEntry p.offset (s.block p.dir p.block) with
  | error e => rw [Sys.delete_error hdel]; exact h
  | ok b =>
    rw [Sys.delete_ok hdel]
    obtain ⟨-, -, -, -, -, -, hwf⟩ := deleteEntry_ok hdel
    exact Sys.setBlock_wf h (hwf (h.block _ _))

theorem Sys.delete_keeps (h : s.Wf) (hfree : ∀ de, s.record p = some de → de.inode = 0) :
    Keeps s (s.delete p).1 := by
  cases hdel : deleteEntry p.offset (s.block p.dir p.block) with
  | error e => rw [Sys.delete_error hdel]; exact Keeps.refl s
  | ok b =>
    rw [Sys.delete_ok hdel]
    cases hrec : s.record p with
    | none =>
      rw [deleteEntry_of_none (h.block _ _) hrec] at hdel
      simp at hdel
    | some de =>
      have hzero := hfree de hrec
      have hset := setInode_self hrec
      have hentries := entries_delete_of_free (h.block _ _) hrec hzero (k := de.inode)
        (by rw [hset]; exact h.block _ _) (by rw [hset]; exact hdel)
      exact Sys.setBlock_keeps fun x hx => by rw [hentries]; exact hx

theorem Sys.phase_wf {phase : Phase} (h : s.Wf)
    (ht : ∀ old oldIno new newIno, phase = .igetNew old oldIno new newIno ∨
      phase = .checks old oldIno (some (new, newIno)) → newIno ≠ 0) :
    ({ s with phase := phase } : Sys).Wf :=
  ⟨h.blocks, ht⟩

theorem Sys.tryAgain_wf (h : s.Wf) (p : Ptr) : (s.tryAgain p).Wf :=
  Sys.phase_wf (Sys.delete_wf h p) (by simp)

theorem Sys.tryAgain_keeps (h : s.Wf) (hfree : ∀ de, s.record p = some de → de.inode = 0) :
    Keeps s (s.tryAgain p) :=
  Sys.delete_keeps h hfree

theorem Sys.setBlock_record {q : Ptr} (hi : i < (s.dirs dir).length) :
    (s.setBlock dir i b).record q =
      if q.dir = dir ∧ q.block = i then recordAt q.offset 0 b else s.record q := by
  unfold Sys.record
  by_cases h : q.dir = dir ∧ q.block = i
  · rw [if_pos h, h.1, h.2, Sys.setBlock_block_self hi]
  · rw [if_neg h]
    unfold Sys.block
    rw [Sys.setBlock_dirs]
    by_cases hdir : q.dir = dir
    · have hblock : i ≠ q.block := fun heq => h ⟨hdir, heq.symm⟩
      rw [if_pos hdir, hdir]
      simp only [getD_eq_getElem?_getD, List.getElem?_set_ne hblock]
    · rw [if_neg hdir]

theorem Sys.lt_of_record (h : s.record p = some de) : p.block < (s.dirs p.dir).length := by
  refine Sys.lt_of_block_ne_nil fun hnil => ?_
  unfold Sys.record at h
  rw [hnil] at h
  simp [recordAt] at h

theorem Sys.storeInode_record (hp : s.record p = some de) {q : Ptr}
    (hq : s.record q ≠ none) : (s.storeInode scribble p ino).record q ≠ none := by
  unfold Sys.storeInode
  rw [hp]
  rw [Sys.setBlock_record (Sys.lt_of_record hp)]
  split
  · next h =>
    unfold Sys.record at hq
    rw [h.1, h.2] at hq
    rw [recordAt_setInode]
    simpa using hq
  · exact hq

theorem Sys.storeInode_wf (h : s.Wf) (hp : s.record p = some de) (hname : de.name ≠ []) :
    (s.storeInode scribble p ino).Wf := by
  unfold Sys.storeInode
  rw [hp]
  exact Sys.setBlock_wf h ((h.block _ _).setInode_of hp hname ino)

theorem Sys.record_name (h : s.Wf) (hp : s.record p = some de) (hused : de.inode ≠ 0) :
    de.name ≠ [] := by
  obtain ⟨pre, post, hb, -, -⟩ := recordAt_some hp
  exact (h.block p.dir p.block de (by rw [hb]; simp)).2 hused

theorem Sys.delete_of_record (h : s.Wf) (hp : s.record p ≠ none) : (s.delete p).2 = none := by
  cases hdel : deleteEntry p.offset (s.block p.dir p.block) with
  | error e => exact absurd (deleteEntry_error (h.block _ _) hdel).2 hp
  | ok b => rw [Sys.delete_ok hdel]

theorem Sys.delete_err (h : s.Wf) {e : Err} (hdel : (s.delete p).2 = some e) :
    e = .enoent ∧ (s.delete p).1 = s := by
  cases hd : deleteEntry p.offset (s.block p.dir p.block) with
  | error e' =>
    rw [Sys.delete_error hd] at hdel ⊢
    obtain rfl : e' = e := by simpa using hdel
    exact ⟨(deleteEntry_error (h.block _ _) hd).1, rfl⟩
  | ok b =>
    rw [Sys.delete_ok hd] at hdel
    simp at hdel

/-- The condition on a step: when rename has found a target, and the target is still in use, both
entries are as rename has found them; and a target that is gone is not taken for the entry that
was there. -/
def Event.Undisturbed (s : Sys) : Event → Prop
  | .commit stale _ => ∀ old oldIno new newIno,
    s.phase = .checks old oldIno (some (new, newIno)) →
      (∀ de, s.record new = some de → de.inode ≠ 0 →
        de.inode = newIno ∧ ∃ de', s.record old = some de' ∧ de'.inode = oldIno) ∧
      (s.record new = none → stale new ≠ newIno)
  | _ => True

def Good (s s' : Sys) : Prop := s'.Wf ∧ (Keeps s s' ∨ s'.phase = .done none)

section
variable (h : s.Wf)
include h

theorem finish_found {new : Ptr} {newIno : ℕ} (hnew : newIno ≠ 0)
    (hkept : ∀ de, s.record new = some de → de.inode ≠ 0 →
      de.inode = newIno ∧ ∃ de', s.record old = some de' ∧ de'.inode = oldIno)
    (hgone : s.record new = none → stale new ≠ newIno) :
    Good s (s.finish old oldIno new (some newIno) stale scribble) := by
  by_cases hfree : ∀ de, s.record new = some de → de.inode = 0
  · -- the target is gone, and the first check fails
    have hread : s.inodeAt stale new ≠ newIno := by
      unfold Sys.inodeAt
      cases hrec : s.record new with
      | none => exact hgone hrec
      | some de => exact fun heq => hnew (heq.symm.trans (hfree de hrec))
    unfold Sys.finish
    rw [if_pos ⟨by simp, fun heq => hread (Option.some.inj heq).symm⟩]
    exact ⟨Sys.tryAgain_wf h new, .inl (Sys.tryAgain_keeps h hfree)⟩
  · push Not at hfree
    obtain ⟨de, hrec, hused⟩ := hfree
    obtain ⟨hino, de', hold, hold'⟩ := hkept de hrec hused
    have hreadNew : s.inodeAt stale new = newIno := by
      unfold Sys.inodeAt
      rw [hrec]
      exact hino
    have hreadOld : s.inodeAt stale old = oldIno := by
      unfold Sys.inodeAt
      rw [hold]
      exact hold'
    have hwf : (s.storeInode scribble new oldIno).Wf :=
      Sys.storeInode_wf h hrec (Sys.record_name h hrec hused)
    have hdel := Sys.delete_of_record hwf
      (Sys.storeInode_record hrec (q := old) (by rw [hold]; simp))
    unfold Sys.finish
    rw [if_neg (by simp [hreadNew]), if_neg (by simp), if_neg (by simp [hreadOld])]
    dsimp only
    have hwf' := Sys.delete_wf hwf old
    cases hd : (s.storeInode scribble new oldIno).delete old with
    | mk s1 r =>
      rw [hd] at hdel hwf'
      obtain rfl : r = none := hdel
      exact ⟨Sys.phase_wf hwf' (by simp), .inr rfl⟩

omit h in
theorem Sys.setBlock_setBlock (b' : Block) :
    (s.setBlock dir i b).setBlock dir i b' = s.setBlock dir i b' := by
  unfold Sys.setBlock
  simp only [update_self, update_idem, set_set]

theorem storeInode_tryAgain_keeps (hrec : s.record p = some de) (hfree : de.inode = 0)
    (hname : de.name ≠ []) (ino : ℕ) : Keeps s ((s.storeInode [] p ino).tryAgain p) := by
  have hstore : s.storeInode [] p ino =
      s.setBlock p.dir p.block (setInode p.offset ino 0 (s.block p.dir p.block)) := by
    unfold Sys.storeInode
    rw [hrec]
  have hblock := (h.block p.dir p.block).setInode_of hrec hname ino
  have hself := Sys.setBlock_block_self (b := setInode p.offset ino 0 (s.block p.dir p.block))
    (Sys.lt_of_record hrec)
  rw [hstore]
  unfold Sys.tryAgain
  cases hdel : deleteEntry p.offset (setInode p.offset ino 0 (s.block p.dir p.block)) with
  | error e =>
    -- the record is there
    have hnone := (deleteEntry_error hblock hdel).2
    unfold Sys.record at hrec
    rw [recordAt_setInode, hrec] at hnone
    simp at hnone
  | ok b =>
    rw [Sys.delete_ok (b := b) (by rw [hself]; exact hdel), Sys.setBlock_setBlock]
    have hentries := entries_delete_of_free (h.block _ _) hrec hfree hblock hdel
    exact Sys.setBlock_keeps fun x hx => by rw [hentries]; exact hx

theorem finish_made {new : Ptr} (hrec : s.record new = some de) (hfree : de.inode = 0)
    (hname : de.name ≠ []) : Good s (s.finish old oldIno new none stale []) := by
  have hread : s.inodeAt stale new = 0 := by
    unfold Sys.inodeAt
    rw [hrec]
    exact hfree
  have hfree' : ∀ de, s.record new = some de → de.inode = 0 := by
    intro d hd
    rw [hrec] at hd
    obtain rfl := Option.some.inj hd
    exact hfree
  unfold Sys.finish
  rw [if_neg (by simp), if_neg (by simp [hread])]
  split
  · exact ⟨Sys.tryAgain_wf h new, .inl (Sys.tryAgain_keeps h hfree')⟩
  · have hwf : (s.storeInode [] new oldIno).Wf := Sys.storeInode_wf h hrec hname
    have hwf' := Sys.delete_wf hwf old
    have herr := fun e => Sys.delete_err (p := old) (e := e) hwf
    dsimp only
    cases hd : (s.storeInode [] new oldIno).delete old with
    | mk s1 r =>
      rw [hd] at hwf' herr
      cases r with
      | none => exact ⟨Sys.phase_wf hwf' (by simp), .inr rfl⟩
      | some e =>
        obtain ⟨rfl, rfl⟩ := herr e rfl
        exact ⟨Sys.tryAgain_wf hwf new, .inl (storeInode_tryAgain_keeps h hrec hfree hname oldIno)⟩

theorem addEntry_block {blocksize : ℕ}
    (hadd : addEntry blocksize name 0 (s.block dir i) = .ok (some (b, o))) (hname : name ≠ []) :
    (s.setBlock dir i b).Wf ∧ Keeps s (s.setBlock dir i b) ∧
      ∃ de, (s.setBlock dir i b).record ⟨dir, i, o⟩ = some de ∧ de.inode = 0 ∧ de.name = name := by
  obtain ⟨pre, de, post, rfl, hsize, hinode, hdname, hentries, hwf⟩ := addEntry_ok hadd
  have hb := hwf (h.block dir i) hname
  have hlt : i < (s.dirs dir).length := by
    refine Sys.lt_of_block_ne_nil fun hnil => ?_
    rw [hnil] at hadd
    simp [addEntry] at hadd
  refine ⟨Sys.setBlock_wf h hb, ?_, de, ?_, hinode, hdname⟩
  · refine Sys.setBlock_keeps fun x hx => ?_
    rw [hentries, entries_append] at hx
    rwa [entries_append, entries_cons_free hinode]
  · rw [Sys.setBlock_record hlt, if_pos ⟨rfl, rfl⟩]
    have hpre : Ext2Dir.Wf pre := fun d hd => hb d (mem_append_left _ hd)
    rw [← hsize]
    exact recordAt_append hpre

theorem addTarget_good {a : Rename} {block : ℕ} :
    Good s (s.addTarget a old oldIno block stale) := by
  unfold Sys.addTarget
  split
  · exact ⟨Sys.phase_wf h (by simp), .inl (Keeps.refl s)⟩
  · next hname =>
    split
    · exact ⟨Sys.phase_wf h (by simp), .inl (Keeps.refl s)⟩
    · exact ⟨h, .inl (Keeps.refl s)⟩
    · next b o hadd =>
      have hname' := truncate_ne_nil hname
      obtain ⟨hwf, hkeeps, de, hrec, hfree, hde⟩ := addEntry_block h hadd hname'
      have hend : Good _ ((s.setBlock a.newDir block b).finish old oldIno ⟨a.newDir, block, o⟩ none
          stale []) :=
        finish_made hwf hrec hfree (by rw [hde]; exact hname')
      exact ⟨hend.1, hend.2.imp_left hkeeps.trans⟩

theorem Sys.insert_wf {blocksize : ℕ} : (s.insert blocksize dir i name ino).Wf := by
  unfold Sys.insert
  split
  · exact h
  · next hname =>
    push Not at hname
    split
    · next b o hadd =>
      have hname' := truncate_ne_nil hname.1
      obtain ⟨hwf, -, de, hrec, -, hde⟩ := addEntry_block h hadd hname'
      have hlt : i < (s.dirs dir).length := by
        simpa [Sys.setBlock_dirs] using Sys.lt_of_record hrec
      have hb := hwf.block dir i
      unfold Sys.record at hrec
      rw [Sys.setBlock_block_self hlt] at hb hrec
      exact Sys.setBlock_wf h (hb.setInode_of hrec (by rw [hde]; exact hname') ino)
    · exact h

omit h in
theorem Sys.extend_wf (a : Rename) (h : s.Wf) : (s.extend a.blocksize dir).Wf := by
  refine ⟨fun d b hb => ?_, h.target⟩
  unfold Sys.extend at hb
  dsimp only at hb
  by_cases hd : d = dir
  · subst hd
    rw [update_self] at hb
    rcases mem_append.mp hb with hb | hb
    · exact h.blocks d b hb
    · obtain rfl := mem_singleton.mp hb
      intro de hde
      obtain rfl := mem_singleton.mp hde
      refine ⟨?_, fun hne => absurd rfl hne⟩
      have hpow := Nat.one_le_two_pow (n := a.logBlockSize)
      rw [check_iff]
      simp only [Rename.blocksize, dirRecLen, length_nil]
      omega
  · rw [update_of_ne hd] at hb
    exact h.blocks d b hb

theorem good_of_dirs {phase : Phase}
    (ht : ∀ old oldIno new newIno, phase = .igetNew old oldIno new newIno ∨
      phase = .checks old oldIno (some (new, newIno)) → newIno ≠ 0) :
    Good s { s with phase := phase } :=
  ⟨Sys.phase_wf h ht, .inl (Keeps.refl s)⟩

theorem good_refl : Good s s := ⟨h, .inl (Keeps.refl s)⟩

end

theorem step_good (a : Rename) (h : s.Wf) {e : Event} (he : e.Undisturbed s)
    (hof : e.ofRename = true) : Good s (step a s e) := by
  cases e with
  | unlink p => simp [Event.ofRename] at hof
  | insert dir block name ino => simp [Event.ofRename] at hof
  | extend dir => simp [Event.ofRename] at hof
  | find block =>
    simp only [step]
    split
    · split
      · exact good_of_dirs h (by simp)
      · exact good_refl h
    · split
      · next o ino hfind =>
        obtain ⟨-, de, -, -, -, hino, hmatch, -⟩ := findEntry_some hfind
        refine good_of_dirs h ?_
        rintro old oldIno new newIno (heq | heq)
        · simp only [Phase.igetNew.injEq] at heq
          rw [← heq.2.2.2, ← hino]
          exact inode_ne_zero_of_matches hmatch
        · simp at heq
      · exact good_refl h
    · exact good_refl h
  | notFound =>
    simp only [step]
    split
    · exact good_of_dirs h (by simp)
    · exact good_of_dirs h (by simp)
    · exact good_refl h
  | iget ok =>
    simp only [step]
    split
    · refine good_of_dirs h ?_
      intro old oldIno new newIno heq
      split at heq <;> simp at heq
    · next old oldIno new newIno hphase =>
      refine good_of_dirs h ?_
      intro old' oldIno' new' newIno' heq
      have hne := h.target old oldIno new newIno (.inl hphase)
      split at heq
      · split at heq
        · simp at heq
        · simp only [reduceCtorEq, Phase.checks.injEq, Option.some.injEq, Prod.mk.injEq,
            false_or] at heq
          rw [← heq.2.2.2]
          exact hne
      · simp at heq
    · exact good_refl h
  | fail e =>
    simp only [step]
    split
    · exact good_of_dirs h (by simp)
    · exact good_of_dirs h (by simp)
    · exact good_refl h
  | add block stale =>
    simp only [step]
    split
    · exact addTarget_good h
    · exact good_refl h
  | commit stale scribble =>
    simp only [step]
    split
    · next old oldIno new newIno hphase =>
      obtain ⟨hkept, hgone⟩ := he old oldIno new newIno hphase
      exact finish_found h (h.target old oldIno new newIno (.inr hphase)) hkept hgone
    · exact good_refl h

theorem step_wf (a : Rename) (h : s.Wf) {e : Event} (he : e.Undisturbed s) : (step a s e).Wf := by
  by_cases hof : e.ofRename = true
  · exact (step_good a h he hof).1
  · cases e with
    | unlink p => exact Sys.delete_wf h p
    | insert dir block name ino => exact Sys.insert_wf h
    | extend dir => exact Sys.extend_wf a h
    | find _ | notFound | iget _ | fail _ | add _ _ | commit _ _ => exact absurd rfl hof

theorem Sys.delete_phase (s : Sys) (p : Ptr) : (s.delete p).1.phase = s.phase := by
  unfold Sys.delete
  split <;> rfl

theorem step_done (a : Rename) {r : Option Err} (h : s.phase = .done r) (e : Event) :
    (step a s e).phase = .done r := by
  cases e with
  | unlink p => exact (Sys.delete_phase s p).trans h
  | insert dir block name ino =>
    simp only [step, Sys.insert]
    split
    · exact h
    · split <;> exact h
  | extend dir => exact h
  | find _ | notFound | iget _ | fail _ | add _ _ | commit _ _ =>
    simp only [step, h]

theorem run_done (a : Rename) {r : Option Err} (h : s.phase = .done r) (es : List Event) :
    (run a s es).phase = .done r := by
  induction es generalizing s with
  | nil => exact h
  | cons e es ih => exact ih (step_done a h e)

def RunOk (a : Rename) : Sys → List Event → Prop
  | _, [] => True
  | s, e :: es => e.Undisturbed s ∧ RunOk a (step a s e) es

/-- A rename that returns an error has removed no entry in any of its steps. -/
theorem rename_error_keeps {a : Rename} (h : s.Wf) (es : List Event) (hok : RunOk a s es)
    {err : Err} (herr : (run a s es).phase = .done (some err)) :
    ∀ es1 e es2, es = es1 ++ e :: es2 → e.ofRename = true →
      Keeps (run a s es1) (step a (run a s es1) e) := by
  induction es generalizing s with
  | nil =>
    intro es1 e es2 heq
    simp at heq
  | cons e' es ih =>
    intro es1 e es2 heq hof
    have hwf := step_wf a h hok.1
    cases es1 with
    | nil =>
      obtain ⟨rfl, rfl⟩ : e' = e ∧ es = es2 := by simpa using heq
      rcases (step_good a h hok.1 hof).2 with hkeeps | hdone
      · exact hkeeps
      · have hend : (run a s (e' :: es)).phase = .done none := run_done a hdone es
        rw [herr] at hend
        simp at hend
    | cons e1 es1 =>
      obtain ⟨rfl, hrest⟩ : e' = e1 ∧ es = es1 ++ e :: es2 := by simpa using heq
      exact ih hwf hok.2 herr es1 e es2 hrest hof

instance : Decidable (Ext2Dir.Wf b) := inferInstanceAs (Decidable (∀ de ∈ b, _))

end

def twoFiles : Sys where
  dirs := update (fun _ => []) 2 [[⟨2, 12, dot⟩, ⟨2, 12, dotdot⟩, ⟨12, 12, [0x61]⟩,
    ⟨13, 988, [0x62]⟩]]
  phase := .findOld

def renameAB : Rename where
  logBlockSize := 0
  oldDir := 2
  oldName := [0x61]
  newDir := 2
  newName := [0x62]

theorem twoFiles_wf : twoFiles.Wf := by
  refine ⟨fun dir b hb => ?_, by simp [twoFiles]⟩
  by_cases hdir : dir = 2
  · subst hdir
    simp only [twoFiles, update_self, mem_singleton] at hb
    subst hb
    decide
  · simp [twoFiles, update_of_ne hdir] at hb

def found : List Event := [.find 0, .iget true, .find 0, .iget true]

/-- Another process unlinks `b`, and rename starts again and is then refused. -/
theorem rename_error_keeps_twoFiles :
    Keeps (run renameAB twoFiles (found ++ [.unlink ⟨2, 0, 36⟩]))
      (step renameAB (run renameAB twoFiles (found ++ [.unlink ⟨2, 0, 36⟩]))
        (.commit (fun _ => 0) [])) := by
  have hend : (run renameAB twoFiles (found ++ [.unlink ⟨2, 0, 36⟩, .commit (fun _ => 0) [],
      .find 0, .iget true, .fail .eperm])).phase = .done (some .eperm) := by decide
  refine rename_error_keeps twoFiles_wf _ ?_ hend _ _ _ rfl rfl
  refine ⟨trivial, trivial, trivial, trivial, trivial, ?_, trivial, trivial, trivial, trivial⟩
  intro old oldIno new newIno hphase
  have hphase' : Phase.checks ⟨2, 0, 24⟩ 12 (some (⟨2, 0, 36⟩, 13)) =
      Phase.checks old oldIno (some (new, newIno)) := hphase
  obtain ⟨rfl, rfl, rfl, rfl⟩ := hphase'
  have hgone : (run renameAB twoFiles (found ++ [.unlink ⟨2, 0, 36⟩])).record ⟨2, 0, 36⟩ = none :=
    by
    decide
  refine ⟨fun de hde => ?_, fun _ => by decide⟩
  have hde' : (none : Option DirEntry) = some de := hgone.symm.trans hde
  simp at hde'

/-- Another process unlinks `a`.  Rename deletes `b` before it finds that `a` is gone. -/
theorem twoFiles_loses_target :
    twoFiles.Wf ∧
      (run renameAB twoFiles (found ++ [.unlink ⟨2, 0, 24⟩, .commit (fun _ => 0) [],
        .notFound])).phase = .done (some .enoent) ∧
      ¬Keeps (run renameAB twoFiles (found ++ [.unlink ⟨2, 0, 24⟩]))
        (step renameAB (run renameAB twoFiles (found ++ [.unlink ⟨2, 0, 24⟩]))
          (.commit (fun _ => 0) [])) := by
  refine ⟨twoFiles_wf, by decide, fun h => ?_⟩
  have hlost := h 2 ([0x62], 13) (by decide)
  revert hlost
  decide

end LinuxKernel.Ext2Dir
