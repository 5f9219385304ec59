import LinuxKernel.FatChainModel

/-!
# The cache of positions in cluster chains

The list of the cache keeps all its elements, no position is held twice, and what is held for the
volume are true positions as long as they are dropped when a chain is cut.  Then a lookup finds a
place on the chain, and a walk from there ends where a walk from the start would.
-/

namespace LinuxKernel.FatChain
open Function List

open LinkChain

/-- The list has each element of `cache[]` once, and no two valid elements have the same key. -/
structure CacheWf (s : State) : Prop where
  perm : s.order.Perm (List.range fatCache)
  uniq : ∀ w ∈ s.order, ∀ w' ∈ s.order, (s.cache w).device ≠ 0 →
    (s.cache w).device = (s.cache w').device → (s.cache w).ino = (s.cache w').ino →
    (s.cache w).fileCluster = (s.cache w').fileCluster → w = w'

def Cached (v : Volume) (s : State) (chain : Ino → List ℕ) : Prop :=
  ∀ w ∈ s.order, (s.cache w).device = v.dev →
    (chain (s.cache w).ino)[(s.cache w).fileCluster]? = some (s.cache w).diskCluster

section

variable {v v' : Volume} {s s' : State} {chain chain' : Ino → List ℕ} {ino : Ino} {l : List ℕ}

theorem CacheWf.congr (h : CacheWf s) (horder : s'.order = s.order) (hcache : s'.cache = s.cache) :
    CacheWf s' := by
  refine ⟨horder ▸ h.perm, ?_⟩
  rw [horder, hcache]
  exact h.uniq

theorem Cached.congr (h : Cached v s chain) (horder : s'.order = s.order)
    (hcache : s'.cache = s.cache) : Cached v s' chain := by
  unfold Cached
  rw [horder, hcache]
  exact h

theorem CacheWf.ne_nil (h : CacheWf s) : s.order ≠ [] := by
  intro hnil
  have hlen := h.perm.length_eq
  rw [hnil, length_range] at hlen
  exact absurd hlen (by decide)

theorem cacheLookup_spec (cluster : ℕ) (ws : List ℕ) (p : ℕ × ℕ)
    (hws : ∀ w ∈ ws, v.Hits s ino w → l[(s.cache w).fileCluster]? = some (s.cache w).diskCluster)
    (hp : l[p.1]? = some p.2) (hle : p.1 ≤ cluster) :
    l[(v.cacheLookup s ino cluster ws p).1]? = some (v.cacheLookup s ino cluster ws p).2 ∧
      (v.cacheLookup s ino cluster ws p).1 ≤ cluster := by
  induction ws generalizing p with
  | nil => exact ⟨hp, hle⟩
  | cons w ws ih =>
    have hrest : ∀ w ∈ ws, v.Hits s ino w →
        l[(s.cache w).fileCluster]? = some (s.cache w).diskCluster :=
      fun w' hw' => hws w' (mem_cons_of_mem _ hw')
    unfold Volume.cacheLookup
    split
    · next hg =>
      have hnew := hws w (mem_cons_self ..) hg.1
      dsimp only
      split
      · exact ⟨hnew, hg.2.1⟩
      · exact ih _ hrest hnew hg.2.1
    · exact ih p hrest hp hle

theorem walk_eq {d : ℕ} (h : Leads s.fat (.link d) (d :: l)) (hrange : ∀ c ∈ d :: l, v.InRange c)
    (n : ℕ) : v.walk s n d = (d :: l)[n]? := by
  induction n generalizing d l with
  | zero => rfl
  | succ n ih =>
    have hd : v.fatAccess s d = s.fat d := if_pos (hrange d (mem_cons_self ..))
    unfold Volume.walk
    rw [hd]
    cases h with
    | cons hrest =>
      cases l with
      | nil =>
        rw [hrest.eq_eof]
        rfl
      | cons c l =>
        have hlink := hrest.eq_link
        rw [hlink] at hrest ⊢
        exact ih hrest fun x hx => hrange x (mem_cons_of_mem _ hx)

theorem leads_of_getElem {u : Link ℕ} {f d : ℕ} (h : Leads s.fat u l) (hd : l[f]? = some d) :
    ∃ l2, Leads s.fat (.link d) (d :: l2) ∧ l.drop f = d :: l2 := by
  obtain ⟨hf, rfl⟩ := List.getElem?_eq_some_iff.mp hd
  refine ⟨l.drop (f + 1), ?_, drop_eq_getElem_cons hf⟩
  have hsplit : l = l.take f ++ l[f] :: l.drop (f + 1) := by
    rw [← drop_eq_getElem_cons hf, take_append_drop]
  rw [hsplit] at h
  exact Leads.cons h.rest

def startLink (start : ℕ) : Link ℕ := if start = 0 then .eof else .link start

theorem leads_startLink {start : ℕ} (h : Leads s.fat (startLink start) l) (hne : start ≠ 0) :
    l[0]? = some start := by
  unfold startLink at h
  rw [if_neg hne] at h
  cases h
  rfl

theorem leads_startLink_zero (h : Leads s.fat (startLink 0) l) : l = [] := by
  unfold startLink at h
  cases h
  rfl

theorem getCluster_spec (h : Leads s.fat (startLink (s.inode ino).start) l)
    (hrange : ∀ c ∈ l, v.InRange c)
    (hcache : ∀ w ∈ s.order, v.Hits s ino w →
      l[(s.cache w).fileCluster]? = some (s.cache w).diskCluster) (c : ℕ) :
    (v.getCluster s ino c).2 = l[c]?.getD 0 ∧
      ((v.getCluster s ino c).1 = s ∨
        ∃ nr, l[c]? = some nr ∧ (v.getCluster s ino c).1 = s.cacheAdd v ino c nr) := by
  unfold Volume.getCluster
  split
  · next hzero =>
    rw [hzero] at h
    rw [leads_startLink_zero h]
    exact ⟨rfl, .inl rfl⟩
  · next hne =>
    have hfirst := leads_startLink h hne
    split
    · next hc =>
      rw [hc, hfirst]
      exact ⟨rfl, .inl rfl⟩
    · dsimp only
      obtain ⟨hat, hle⟩ := cacheLookup_spec c s.order (0, (s.inode ino).start) hcache
        hfirst (Nat.zero_le c)
      revert hat hle
      generalize v.cacheLookup s ino c s.order (0, (s.inode ino).start) = p
      intro hat hle
      obtain ⟨l2, hleads, hdrop⟩ := leads_of_getElem h hat
      have hwalk : v.walk s (c - p.1) p.2 = l[c]? := by
        rw [walk_eq hleads, ← hdrop, List.getElem?_drop, Nat.add_sub_cancel' hle]
        intro x hx
        rw [← hdrop] at hx
        exact hrange x (mem_of_mem_drop hx)
      rw [hwalk]
      cases hl : l[c]? with
      | none => exact ⟨rfl, .inl rfl⟩
      | some nr => exact ⟨rfl, .inr ⟨nr, rfl, rfl⟩⟩

theorem cacheInvalInode_hits (s : State) (ino : Ino) {w : ℕ} (hw : w ∈ s.order) :
    (v.cacheInvalInode s ino).cache w =
      if v.Hits s ino w then { s.cache w with device := 0 } else s.cache w := by
  unfold Volume.cacheInvalInode
  dsimp only
  by_cases hh : v.Hits s ino w
  · rw [if_pos ⟨hw, hh⟩, if_pos hh]
  · rw [if_neg fun h => hh h.2, if_neg hh]

theorem CacheWf.inval (h : CacheWf s) (v : Volume) (ino : Ino) :
    CacheWf (v.cacheInvalInode s ino) := by
  refine ⟨h.perm, ?_⟩
  intro w hw w' hw' hdev hdd hii hff
  rw [cacheInvalInode_hits s ino hw] at hdev hdd hii hff
  rw [cacheInvalInode_hits s ino hw'] at hdd hii hff
  split at hdev
  · exact absurd rfl hdev
  · next hh =>
    rw [if_neg hh] at hdd hii hff
    split at hdd
    · exact absurd hdd hdev
    · next hh' =>
      rw [if_neg hh'] at hii hff
      exact h.uniq w hw w' hw' hdev hdd hii hff

theorem Cached.inval (h : Cached v s chain) (hother : ∀ i, i ≠ ino → chain' i = chain i) :
    Cached v (v.cacheInvalInode s ino) chain' := by
  intro w hw hdev
  rw [cacheInvalInode_hits s ino hw] at hdev ⊢
  split at hdev
  · exact absurd hdev.symm v.dev_ne
  · next hh =>
    rw [if_neg hh, hother _ fun hi => hh ⟨hdev, hi⟩]
    exact h w hw hdev

theorem Cached.drop (h : Cached v s chain) (v' : Volume) (ino : Ino) :
    Cached v (v'.cacheInvalInode s ino) chain := by
  intro w hw hdev
  rw [cacheInvalInode_hits s ino hw] at hdev ⊢
  split at hdev
  · exact absurd hdev.symm v.dev_ne
  · next hh =>
    rw [if_neg hh]
    exact h w hw hdev

theorem cacheAdd_cases (s : State) (hs : s.order ≠ []) (v : Volume) (ino : Ino) (f d : ℕ) :
    s.cacheAdd v ino f d = v.cacheInvalInode s ino ∧
        (∃ w ∈ s.order, v.Hits s ino w ∧ (s.cache w).fileCluster = f ∧
            (s.cache w).diskCluster ≠ d) ∨
      (∃ w ∈ s.order, s.cacheAdd v ino f d = { s with order := w :: s.order.erase w }) ∨
      ∃ ws w, s.order = ws ++ [w] ∧
        (∀ x ∈ ws, ¬(v.Hits s ino x ∧ (s.cache x).fileCluster = f)) ∧
        s.cacheAdd v ino f d = { s with
          cache := update s.cache w ⟨v.dev, ino, f, d⟩
          order := w :: ws } := by
  unfold State.cacheAdd
  split
  · next w hfind =>
    have hmem := mem_of_mem_dropLast (mem_of_find?_eq_some hfind)
    have hkey : v.Hits s ino w ∧ (s.cache w).fileCluster = f := by
      simpa using List.find?_some hfind
    split
    · next hne => exact .inl ⟨rfl, w, hmem, hkey.1, hkey.2, hne⟩
    · exact .inr (.inl ⟨w, hmem, rfl⟩)
  · next hfind =>
    obtain ⟨w, hw⟩ := Option.ne_none_iff_exists'.mp fun h => hs (List.getLast?_eq_none_iff.mp h)
    rw [hw]
    refine .inr (.inr ⟨s.order.dropLast, w, ?_, ?_, rfl⟩)
    · exact (dropLast_append_getLast? w hw).symm
    · intro x hx hkey
      have := List.find?_eq_none.mp hfind x hx
      simp [hkey] at this

theorem CacheWf.add (h : CacheWf s) (v : Volume) (ino : Ino) (f d : ℕ) :
    CacheWf (s.cacheAdd v ino f d) := by
  rcases cacheAdd_cases s h.ne_nil v ino f d with ⟨heq, -⟩ | ⟨w, hw, heq⟩ | ⟨ws, w, hsplit, hnone,
      heq⟩
  · rw [heq]
    exact h.inval v ino
  · rw [heq]
    have hperm := perm_cons_erase hw
    refine ⟨hperm.symm.trans h.perm, ?_⟩
    intro x hx y hy
    exact h.uniq x (hperm.mem_iff.mpr hx) y (hperm.mem_iff.mpr hy)
  · rw [heq]
    have hperm : (w :: ws).Perm s.order := by
      rw [hsplit]
      exact (perm_append_singleton w ws).symm
    refine ⟨hperm.trans h.perm, ?_⟩
    intro x hx y hy hdev hdd hii hff
    dsimp only at hx hy hdev hdd hii hff
    have hold : ∀ z, z ≠ w → update s.cache w ⟨v.dev, ino, f, d⟩ z = s.cache z :=
      fun z hz => update_of_ne hz ..
    by_cases hxw : x = w
    · by_cases hyw : y = w
      · rw [hxw, hyw]
      · rw [hxw, update_self, hold y hyw] at hdd hii hff
        have hyws : y ∈ ws := (mem_cons.mp hy).resolve_left hyw
        exact absurd ⟨⟨hdd.symm, hii.symm⟩, hff.symm⟩ (hnone y hyws)
    · by_cases hyw : y = w
      · rw [hyw, update_self, hold x hxw] at hdd hii hff
        have hxws : x ∈ ws := (mem_cons.mp hx).resolve_left hxw
        exact absurd ⟨⟨hdd, hii⟩, hff⟩ (hnone x hxws)
      · rw [hold x hxw] at hdev hdd hii hff
        rw [hold y hyw] at hdd hii hff
        exact h.uniq x (hperm.mem_iff.mp hx) y (hperm.mem_iff.mp hy) hdev hdd hii hff

theorem Cached.add (h : Cached v s chain) (hs : s.order ≠ []) {f d : ℕ}
    (hnew : v'.dev = v.dev → (chain ino)[f]? = some d) : Cached v
    (s.cacheAdd v' ino f d) chain := by
  rcases cacheAdd_cases s hs v' ino f d with ⟨heq, -⟩ | ⟨w, hw, heq⟩ | ⟨ws, w, hsplit, -, heq⟩
  · rw [heq]
    exact h.drop v' ino
  · rw [heq]
    intro x hx
    exact h x ((perm_cons_erase hw).mem_iff.mpr hx)
  · rw [heq]
    intro x hx hdev
    dsimp only at hx hdev ⊢
    by_cases hxw : x = w
    · rw [hxw, update_self] at hdev ⊢
      exact hnew hdev
    · rw [update_of_ne hxw] at hdev ⊢
      refine h x ?_ hdev
      rw [hsplit]
      exact mem_append_left _ ((mem_cons.mp hx).resolve_left hxw)

theorem cacheAdd_frame (s : State) (v : Volume) (ino : Ino) (f d : ℕ) :
    (s.cacheAdd v ino f d).fat = s.fat ∧ (s.cacheAdd v ino f d).inode = s.inode ∧
      (s.cacheAdd v ino f d).entry = s.entry ∧
      (s.cacheAdd v ino f d).freeClusters = s.freeClusters := by
  unfold State.cacheAdd
  split
  · split <;> exact ⟨rfl, rfl, rfl, rfl⟩
  · split <;> exact ⟨rfl, rfl, rfl, rfl⟩

end

end LinuxKernel.FatChain
