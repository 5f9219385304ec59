import LinuxKernel.Ext2CacheModel

/-!
# Coherence of the directory cache

Most operations tell the cache what they do to a directory before anybody else can look.  The
exceptions are in the condition on the steps.
-/

namespace LinuxKernel.Ext2Cache
open Function List

open Ext2Dir

structure CacheWf (c : Cache) : Prop where
  distinct : c.Pairwise fun e e' => isFor e.dir e.name e' = false
  short : ∀ e ∈ c, e.name.length ≤ dcacheNameLen

section

variable {c : Cache} {dir : Dir} {name : Name} {ino : ℕ} {e : Cached}

theorem isFor_iff : isFor dir name e = true ↔ e.dir = dir ∧ e.name = name := by
  simp [isFor]

theorem isFor_false_iff : isFor dir name e = false ↔ ¬(e.dir = dir ∧ e.name = name) := by
  rw [← isFor_iff, Bool.not_eq_true]

section
variable (h : CacheWf c)
include h

theorem mem_eraseP (he : e ∈ c.eraseP (isFor dir name)) : e ∈ c ∧ isFor dir name e = false := by
  have hdistinct := h.distinct
  clear h
  induction c with
  | nil => simp at he
  | cons e' c ih =>
    rw [pairwise_cons] at hdistinct
    cases hfor : isFor dir name e' with
    | true =>
      rw [eraseP_cons_of_pos hfor] at he
      obtain ⟨hdir, hname⟩ := isFor_iff.mp hfor
      refine ⟨mem_cons_of_mem _ he, ?_⟩
      have := hdistinct.1 e he
      rwa [hdir, hname] at this
    | false =>
      rw [eraseP_cons_of_neg (by rw [hfor]; decide)] at he
      rcases mem_cons.mp he with rfl | he
      · exact ⟨mem_cons_self .., hfor⟩
      · obtain ⟨hmem, hne⟩ := ih he hdistinct.2
        exact ⟨mem_cons_of_mem _ hmem, hne⟩

theorem CacheWf.sublist {c' : Cache} (hsub : c'.Sublist c) : CacheWf c' :=
  ⟨h.distinct.sublist hsub, fun e he => h.short e (hsub.subset he)⟩

theorem CacheWf.cons (hshort : e.name.length ≤ dcacheNameLen)
    (hne : ∀ e' ∈ c, isFor e.dir e.name e' = false) : CacheWf (e :: c) := by
  refine ⟨pairwise_cons.mpr ⟨hne, h.distinct⟩, ?_⟩
  intro e' he'
  rcases mem_cons.mp he' with rfl | he'
  · exact hshort
  · exact h.short e' he'

omit h in
theorem dcacheRemove_sublist : (dcacheRemove c dir name).Sublist c := by
  unfold dcacheRemove
  split
  · exact List.Sublist.refl c
  · exact eraseP_sublist

theorem mem_dcacheRemove (he : e ∈ dcacheRemove c dir name) : e ∈ c ∧ isFor dir name e = false := by
  unfold dcacheRemove at he
  split at he
  · next hlong =>
    refine ⟨he, isFor_false_iff.mpr ?_⟩
    rintro ⟨-, rfl⟩
    exact absurd (h.short e he) (by omega)
  · exact mem_eraseP h he

omit h in
theorem findName_some (h : findName c dir name = some e) : e ∈ c ∧ e.dir = dir ∧ e.name = name :=
  ⟨mem_of_find?_eq_some h, isFor_iff.mp (List.find?_some h)⟩

omit h in
theorem findName_none (h : findName c dir name = none) (he : e ∈ c) : isFor dir name e = false := by
  simpa using List.find?_eq_none.mp h e he

theorem mem_dcacheAdd (he : e ∈ dcacheAdd c dir name ino) :
    e = ⟨dir, name, ino⟩ ∨ e ∈ c ∧ isFor dir name e = false := by
  unfold dcacheAdd at he
  split at he
  · next hlong =>
    refine .inr ⟨he, isFor_false_iff.mpr ?_⟩
    rintro ⟨-, rfl⟩
    exact absurd (h.short e he) (by omega)
  · split at he
    · next e' hfind =>
      obtain ⟨-, -, hname⟩ := findName_some hfind
      rcases mem_cons.mp he with rfl | he
      · exact .inl (by rw [hname])
      · exact .inr (mem_eraseP h he)
    · next hfind =>
      rcases mem_cons.mp he with rfl | he
      · exact .inl rfl
      · have hmem : e ∈ c := by
          split at he
          · exact he
          · exact dropLast_subset c he
        exact .inr ⟨hmem, findName_none hfind hmem⟩

theorem CacheWf.dcacheAdd : CacheWf (dcacheAdd c dir name ino) := by
  unfold Ext2Cache.dcacheAdd
  split
  · exact h
  · next hlong =>
    split
    · next e' hfind =>
      obtain ⟨-, -, hname⟩ := findName_some hfind
      refine (h.sublist eraseP_sublist).cons (by rw [hname]; omega) ?_
      intro e'' he''
      rw [hname]
      exact (mem_eraseP h he'').2
    · next hfind =>
      have hsub : (if c.length < cacheSize then c else c.dropLast).Sublist c := by
        split
        · exact List.Sublist.refl c
        · exact dropLast_sublist c
      refine (h.sublist hsub).cons (Nat.le_of_not_lt hlong) ?_
      intro e' he'
      exact findName_none hfind (hsub.subset he')

theorem CacheWf.dcacheRemove : CacheWf (dcacheRemove c dir name) :=
  h.sublist dcacheRemove_sublist

omit h in
theorem dcacheLookup_some (h : (dcacheLookup c dir name).2 ≠ 0) :
    ∃ e ∈ c, e.dir = dir ∧ e.name = name ∧ e.ino = (dcacheLookup c dir name).2 := by
  unfold dcacheLookup at h ⊢
  split at h
  · exact absurd rfl h
  · next hshort =>
    rw [if_neg hshort]
    split at h
    · next e hfind =>
      obtain ⟨hmem, hdir, hname⟩ := findName_some hfind
      exact ⟨e, hmem, hdir, hname, rfl⟩
    · exact absurd rfl h

omit h in
theorem mem_dcacheLookup (he : e ∈ (dcacheLookup c dir name).1) : e ∈ c := by
  unfold dcacheLookup at he
  split at he
  · exact he
  · split at he
    · next e' hfind =>
      rcases mem_cons.mp he with rfl | he
      · exact (findName_some hfind).1
      · exact mem_of_mem_eraseP he
    · exact he

theorem CacheWf.dcacheLookup : CacheWf (dcacheLookup c dir name).1 := by
  unfold Ext2Cache.dcacheLookup
  split
  · exact h
  · split
    · next e hfind =>
      obtain ⟨hmem, hdir, hname⟩ := findName_some hfind
      refine (h.sublist eraseP_sublist).cons (h.short e hmem) ?_
      intro e' he'
      rw [hdir, hname]
      exact (mem_eraseP h he').2
    · exact h

end

end

structure Coherent (s : State) : Prop where
  cache : CacheWf s.cache
  entry : ∀ e ∈ s.cache, (e.name, e.ino) ∈ s.content e.dir

def State.Knows (s : State) (dir : Dir) (name : Name) : Prop :=
  ∃ e ∈ s.cache, isFor dir name e = true

/-- The condition on the steps: a directory is not moved to another one while its `..` is in the
cache, and not freed while the cache has entries of it; a restarted rename deletes only targets
that are not in the cache; in a synchronous directory only names are removed that are not in the
cache; and nobody who slept in a directory while it was removed finds an entry there. -/
def Event.Ok (sync : Dir → Bool) (s : State) : Event → Prop
  | .load dir _ _ => s.sized dir = true
  | .unlink dir name _ => sync dir = true → ¬s.Knows dir name
  | .rmdir dir name ino busy => sync dir = true → ¬s.Knows dir name ∧
    (busy = true → ¬s.Knows ⟨dir.dev, ino⟩ dot ∧ ¬s.Knows ⟨dir.dev, ino⟩ dotdot)
  | .rename oldDir _ oldIno newDir _ _ isDir =>
    isDir = true → oldDir ≠ newDir → ¬s.Knows ⟨oldDir.dev, oldIno⟩ dotdot
  | .restart newDir newName _ => ¬s.Knows newDir newName
  | .backOut _ _ _ _ => False
  | .free dir => s.sized dir = true → ∀ e ∈ s.cache, e.dir ≠ dir
  | _ => True

section

variable {s : State} {dir : Dir} {name : Name} {ino : ℕ} {e : Cached}

theorem mem_content_iff {x : Name × ℕ} :
    x ∈ s.content dir ↔ s.sized dir = true ∧ x ∈ s.blocks dir := by
  unfold State.content
  split
  · next h => simp [h]
  · next h => simp [h]

section
variable (h : Coherent s)
include h

theorem Coherent.sized (he : e ∈ s.cache) : s.sized e.dir = true :=
  (mem_content_iff.mp (h.entry e he)).1

theorem Coherent.mem_blocks (he : e ∈ s.cache) : (e.name, e.ino) ∈ s.blocks e.dir :=
  (mem_content_iff.mp (h.entry e he)).2

omit h in
theorem ne_key_of_isFor (h : isFor dir name e = false) (hdir : e.dir = dir) : e.name ≠ name :=
  fun hname => isFor_false_iff.mp h ⟨hdir, hname⟩

theorem Coherent.mem_erase (he : e ∈ s.cache) (hdir : e.dir = dir) (hname : e.name ≠ name) :
    (e.name, e.ino) ∈ (s.blocks dir).erase (name, ino) := by
  have hmem := h.mem_blocks he
  rw [hdir] at hmem
  refine (mem_erase_of_ne fun heq => hname ?_).mpr hmem
  exact congrArg Prod.fst heq

theorem coherent_lookup : Coherent { s with cache := (dcacheLookup s.cache dir name).1 } :=
  ⟨h.cache.dcacheLookup, fun e he => h.entry e (mem_dcacheLookup he)⟩

theorem coherent_load (hsized : s.sized dir = true) (hmem : (name, ino) ∈ s.blocks dir) :
    Coherent { s with cache := dcacheAdd s.cache dir name ino } := by
  refine ⟨h.cache.dcacheAdd, fun e he => ?_⟩
  rcases mem_dcacheAdd h.cache he with rfl | ⟨hold, -⟩
  · exact mem_content_iff.mpr ⟨hsized, hmem⟩
  · exact h.entry e hold

theorem coherent_enter (hsized : s.sized dir = true) :
    Coherent { s.setBlocks dir (s.blocks dir ++ [(name, ino)]) with
      cache := dcacheAdd s.cache dir name ino } := by
  refine ⟨h.cache.dcacheAdd, fun e he => mem_content_iff.mpr ?_⟩
  simp only [State.setBlocks]
  rcases mem_dcacheAdd h.cache he with rfl | ⟨hold, -⟩
  · exact ⟨hsized, by simp⟩
  · refine ⟨h.sized hold, ?_⟩
    by_cases hdir : e.dir = dir
    · rw [hdir, update_self]
      exact mem_append_left _ (hdir ▸ h.mem_blocks hold)
    · rw [update_of_ne hdir]
      exact h.mem_blocks hold

theorem coherent_mkdir : Coherent (s.mkdir dir name ino) := by
  unfold State.mkdir
  dsimp only
  split
  · next hguard =>
    obtain ⟨hsized, hempty, hne⟩ := hguard
    refine ⟨h.cache.dcacheAdd, fun e he => mem_content_iff.mpr ?_⟩
    dsimp only
    rcases mem_dcacheAdd h.cache he with rfl | ⟨hold, -⟩
    · exact ⟨by rw [update_of_ne hne.symm]; exact hsized, by simp⟩
    · -- the new directory had no entries that could be in the cache
      have hother : e.dir ≠ ⟨dir.dev, ino⟩ := by
        intro heq
        have := h.mem_blocks hold
        rw [heq, hempty] at this
        simp at this
      refine ⟨by rw [update_of_ne hother]; exact h.sized hold, ?_⟩
      by_cases hdir : e.dir = dir
      · rw [hdir, update_self]
        exact mem_append_left _ (hdir ▸ h.mem_blocks hold)
      · rw [update_of_ne hdir, update_of_ne hother]
        exact h.mem_blocks hold
  · exact h

theorem coherent_erase {c : Cache} (hc : CacheWf c)
    (hsub : ∀ e ∈ c, e ∈ s.cache ∧ isFor dir name e = false) :
    Coherent { s.setBlocks dir ((s.blocks dir).erase (name, ino)) with cache := c } := by
  refine ⟨hc, fun e he => mem_content_iff.mpr ?_⟩
  obtain ⟨hold, hne⟩ := hsub e he
  simp only [State.setBlocks]
  refine ⟨h.sized hold, ?_⟩
  by_cases hdir : e.dir = dir
  · rw [hdir, update_self]
    exact h.mem_erase hold hdir (ne_key_of_isFor hne hdir)
  · rw [update_of_ne hdir]
    exact h.mem_blocks hold

omit h in
theorem not_knows (h : ¬s.Knows dir name) (he : e ∈ s.cache) : isFor dir name e = false := by
  by_contra hne
  exact h ⟨e, he, by simpa using hne⟩

theorem coherent_rmdir {sync : Dir → Bool} {busy : Bool}
    (hok : (Event.rmdir dir name ino busy).Ok sync s) :
    Coherent (s.rmdir sync dir name ino busy) := by
  unfold State.rmdir
  dsimp only
  split
  · next hguard =>
    obtain ⟨-, hne, hempty⟩ := hguard
    -- of the removed directory only the two names can be in the cache
    have hnames : ∀ e ∈ s.cache, e.dir = ⟨dir.dev, ino⟩ → e.name = dot ∨ e.name = dotdot := by
      intro e he hdir
      have hmem := h.mem_blocks he
      rw [hdir] at hmem
      exact hempty _ hmem
    cases hsync : sync dir with
    | false =>
      refine ⟨h.cache.dcacheRemove.dcacheRemove.dcacheRemove, fun e he => mem_content_iff.mpr ?_⟩
      obtain ⟨he, hname⟩ := mem_dcacheRemove h.cache.dcacheRemove.dcacheRemove he
      obtain ⟨he, hdotdot⟩ := mem_dcacheRemove h.cache.dcacheRemove he
      obtain ⟨hold, hdot⟩ := mem_dcacheRemove h.cache he
      have hother : e.dir ≠ ⟨dir.dev, ino⟩ := by
        intro hdir
        rcases hnames e hold hdir with hn | hn
        · exact ne_key_of_isFor hdot hdir hn
        · exact ne_key_of_isFor hdotdot hdir hn
      have hkept : (e.name, e.ino) ∈
          update s.blocks dir ((s.blocks dir).erase (name, ino)) e.dir := by
        by_cases hdir : e.dir = dir
        · rw [hdir, update_self]
          exact h.mem_erase hold hdir (ne_key_of_isFor hname hdir)
        · rw [update_of_ne hdir]
          exact h.mem_blocks hold
      constructor
      · dsimp only
        split
        · rw [update_of_ne hother]
          exact h.sized hold
        · exact h.sized hold
      · dsimp only
        split
        · exact hkept
        · rw [update_of_ne hother]
          exact hkept
    | true =>
      obtain ⟨hknown, hbusy⟩ := hok hsync
      simp only [or_true, if_true]
      refine ⟨h.cache, fun e hold => mem_content_iff.mpr ⟨?_, ?_⟩⟩
      · dsimp only
        split
        · next hb =>
          obtain ⟨hdot, hdotdot⟩ := hbusy hb
          have hother : e.dir ≠ ⟨dir.dev, ino⟩ := by
            intro hdir
            rcases hnames e hold hdir with hn | hn
            · exact ne_key_of_isFor (not_knows hdot hold) hdir hn
            · exact ne_key_of_isFor (not_knows hdotdot hold) hdir hn
          rw [update_of_ne hother]
          exact h.sized hold
        · exact h.sized hold
      · dsimp only
        by_cases hdir : e.dir = dir
        · rw [hdir, update_self]
          exact h.mem_erase hold hdir (ne_key_of_isFor (not_knows hknown hold) hdir)
        · rw [update_of_ne hdir]
          exact h.mem_blocks hold
  · exact h

omit h in
theorem mem_setParent {l : List (Name × ℕ)} {old new : ℕ} {x : Name × ℕ} (hx : x ∈ l)
    (h : x.1 = dotdot → old = new) : x ∈ setParent l old new := by
  by_cases heq : x = (dotdot, old)
  · rw [heq, h (by rw [heq])]
    exact mem_cons_self ..
  · exact mem_cons_of_mem _ ((mem_erase_of_ne heq).mpr hx)

theorem coherent_rename {oldDir newDir : Dir} {oldName newName : Name} {oldIno : ℕ}
    {newIno : Option ℕ} {isDir : Bool}
    (hparent : isDir = true → oldDir ≠ newDir → ¬s.Knows ⟨oldDir.dev, oldIno⟩ dotdot) :
    Coherent (s.rename oldDir oldName oldIno newDir newName newIno isDir) := by
  by_cases hguard : (oldName, oldIno) ∈ s.blocks oldDir ∧ s.sized newDir = true ∧
      (∀ n ∈ newIno, (newName, n) ∈ s.blocks newDir ∧ n ≠ oldIno) ∧
      (isDir = true → (⟨oldDir.dev, oldIno⟩ : Dir) ≠ oldDir ∧ ⟨oldDir.dev, oldIno⟩ ≠ newDir)
  swap
  · unfold State.rename
    rw [if_neg hguard]
    exact h
  -- the blocks before `..` is changed
  obtain ⟨rest, orphan, hrename, hkeep⟩ : ∃ rest orphan,
      s.rename oldDir oldName oldIno newDir newName newIno isDir =
        (let blocks1 := update s.blocks newDir ((newName, oldIno) :: rest)
        let blocks2 := update blocks1 oldDir ((blocks1 oldDir).erase (oldName, oldIno))
        { s with
          blocks :=
            if isDir then
              update blocks2 ⟨oldDir.dev, oldIno⟩
                (setParent (blocks2 ⟨oldDir.dev, oldIno⟩) oldDir.ino newDir.ino)
            else blocks2
          orphan := orphan
          cache := dcacheAdd (dcacheRemove s.cache oldDir oldName) newDir newName oldIno }) ∧
      ∀ x ∈ s.blocks newDir, x.1 ≠ newName ∨ x.2 = oldIno → x ∈ rest := by
    unfold State.rename
    rw [if_pos hguard]
    cases newIno with
    | none => exact ⟨_, _, rfl, fun x hx _ => hx⟩
    | some n =>
      refine ⟨_, _, rfl, fun x hx hne => (mem_erase_of_ne ?_).mpr hx⟩
      rintro rfl
      rcases hne with hne | hne
      · exact hne rfl
      · exact (hguard.2.2.1 n rfl).2 hne
  rw [hrename]
  obtain ⟨hold, hsized, -, hself⟩ := hguard
  set blocks1 := update s.blocks newDir ((newName, oldIno) :: rest) with hblocks1
  set blocks2 := update blocks1 oldDir ((blocks1 oldDir).erase (oldName, oldIno))
    with hblocks2
  have hnew : (newName, oldIno) ∈ blocks2 newDir := by
    by_cases hdir : newDir = oldDir
    · rw [hblocks2, ← hdir, update_self, hblocks1, update_self]
      by_cases hname : newName = oldName
      · rw [hname, erase_cons_head]
        exact hkeep _ (hdir ▸ hold) (.inr rfl)
      · exact (mem_erase_of_ne fun heq => hname (congrArg Prod.fst heq)).mpr
          (mem_cons_self ..)
    · rw [hblocks2, update_of_ne hdir, hblocks1, update_self]
      exact mem_cons_self ..
  have hother : ∀ e ∈ s.cache, isFor oldDir oldName e = false → isFor newDir newName e = false →
      (e.name, e.ino) ∈ blocks2 e.dir := by
    intro e he hneOld hneNew
    have hfirst : (e.name, e.ino) ∈ blocks1 e.dir := by
      by_cases hdir : e.dir = newDir
      · rw [hblocks1, hdir, update_self]
        exact mem_cons_of_mem _
          (hkeep _ (hdir ▸ h.mem_blocks he) (.inl (ne_key_of_isFor hneNew hdir)))
      · rw [hblocks1, update_of_ne hdir]
        exact h.mem_blocks he
    by_cases hdir : e.dir = oldDir
    · rw [hblocks2, hdir, update_self]
      have hname := ne_key_of_isFor hneOld hdir
      exact (mem_erase_of_ne fun heq => hname (congrArg Prod.fst heq)).mpr (hdir ▸ hfirst)
    · rw [hblocks2, update_of_ne hdir]
      exact hfirst
  refine ⟨h.cache.dcacheRemove.dcacheAdd, fun e he => mem_content_iff.mpr ?_⟩
  dsimp only
  rcases mem_dcacheAdd h.cache.dcacheRemove he with rfl | ⟨he, hneNew⟩
  · refine ⟨hsized, ?_⟩
    split
    · next hisDir =>
      rw [update_of_ne (hself hisDir).2.symm]
      exact hnew
    · exact hnew
  · obtain ⟨he, hneOld⟩ := mem_dcacheRemove h.cache he
    refine ⟨h.sized he, ?_⟩
    split
    · next hisDir =>
      by_cases hdir : e.dir = ⟨oldDir.dev, oldIno⟩
      · rw [hdir, update_self]
        refine mem_setParent (hdir ▸ hother e he hneOld hneNew) fun hname => ?_
        by_contra hparents
        have hmoved : oldDir ≠ newDir := fun heq => hparents (by rw [heq])
        exact ne_key_of_isFor (not_knows (hparent hisDir hmoved) he) hdir hname
      · rw [update_of_ne hdir]
        exact hother e he hneOld hneNew
    · exact hother e he hneOld hneNew

theorem coherent_free (hok : s.sized dir = true → ∀ e ∈ s.cache, e.dir ≠ dir) :
    Coherent { s.setBlocks dir [] with sized := update s.sized dir true } := by
  refine ⟨h.cache, fun e he => mem_content_iff.mpr ?_⟩
  have hother : e.dir ≠ dir := by
    intro hdir
    exact hok (hdir ▸ h.sized he) e he hdir
  simp only [State.setBlocks]
  rw [update_of_ne hother, update_of_ne hother]
  exact ⟨h.sized he, h.mem_blocks he⟩

theorem step_coherent {sync : Dir → Bool} {ev : Event} (hok : ev.Ok sync s) :
    Coherent (step sync s ev) := by
  cases ev with
  | lookup dir name => exact coherent_lookup h
  | load dir name ino =>
    simp only [step]
    split
    · next hmem => exact coherent_load h hok hmem
    · exact h
  | enter dir name ino =>
    simp only [step]
    split
    · next hsized => exact coherent_enter h hsized
    · exact h
  | mkdir dir name ino => exact coherent_mkdir h
  | unlink dir name ino =>
    simp only [step]
    split
    · refine coherent_erase h ?_ ?_
      · split
        · exact h.cache
        · exact h.cache.dcacheRemove
      · intro e he
        split at he
        · next hsync => exact ⟨he, not_knows (hok hsync) he⟩
        · exact mem_dcacheRemove h.cache he
    · exact h
  | rmdir dir name ino busy => exact coherent_rmdir h hok
  | forget dir name =>
    exact ⟨h.cache.dcacheRemove, fun e he => h.entry e (dcacheRemove_sublist.subset he)⟩
  | rename oldDir oldName oldIno newDir newName newIno isDir => exact coherent_rename h hok
  | restart newDir newName newIno =>
    exact coherent_erase h h.cache fun e he => ⟨he, not_knows hok he⟩
  | backOut newDir newName newIno oldIno => exact hok.elim
  | free dir =>
    simp only [step]
    split
    · exact coherent_free h hok
    · exact h
  | umount dev blocks =>
    refine ⟨h.cache.sublist filter_sublist, fun e he => mem_content_iff.mpr ?_⟩
    obtain ⟨hold, hdev⟩ := mem_filter.mp he
    have hdev' : e.dir.dev ≠ dev := by simpa using hdev
    simp only [step, hdev', if_false]
    exact ⟨h.sized hold, h.mem_blocks hold⟩

end

def RunOk (sync : Dir → Bool) : State → List Event → Prop
  | _, [] => True
  | s, ev :: evs => ev.Ok sync s ∧ RunOk sync (step sync s ev) evs

end

def smallTree : State where
  blocks dir := if dir = ⟨1, 2⟩ then [(dot, 2), (dotdot, 2), ([0x61], 12), ([0x62], 13)]
    else if dir = ⟨1, 12⟩ then [(dot, 12), (dotdot, 2), ([0x78], 14)]
    else if dir = ⟨1, 13⟩ then [(dot, 13), (dotdot, 2)]
    else if dir = ⟨1, 14⟩ then [(dot, 14), (dotdot, 12)]
    else []
  sized _ := true
  orphan _ := false
  cache := []

theorem smallTree_coherent : Coherent smallTree :=
  ⟨⟨List.Pairwise.nil, by simp [smallTree]⟩, by simp [smallTree]⟩

end LinuxKernel.Ext2Cache
